import Mathlib.Data.List.Basic
import Mathlib.Order.Nat

/-!
# Writing past the end

A writer stores what is written in front of the end of its memory, and only counts what is written
behind it.

## Main definitions

* `Sink`: the memory, the position and the end.
* `Sink.puts`: a list is written.
* `Sink.overlay`: a list lies over a memory.

## Main results

* `Sink.mem_puts`, `Sink.pos_puts`: what is stored, and that all is counted.
* `Sink.puts_injective`: what is written is known by what it does to all writers.
-/

namespace Ratbox

open List Function

/-- A writer into a memory. -/
structure Sink (α : Type*) where
  mem : ℕ → α
  pos : ℕ
  stop : ℕ

namespace Sink

variable {α : Type*} {s : Sink α} {as bs : List α}

/-- Write an item. -/
def put (s : Sink α) (a : α) : Sink α :=
  if s.pos < s.stop then { s with mem := update s.mem s.pos a, pos := s.pos + 1 }
  else { s with pos := s.pos + 1 }

/-- Write a list. -/
def puts (s : Sink α) (as : List α) : Sink α := as.foldl put s

/-- A list over a memory, from a position on. -/
def overlay (mem : ℕ → α) (pos : ℕ) (as : List α) : ℕ → α := fun i =>
  if pos ≤ i then (as[i - pos]?).getD (mem i) else mem i

@[simp] theorem puts_nil (s : Sink α) : s.puts [] = s := rfl

@[simp] theorem puts_cons (s : Sink α) (a : α) (as : List α) :
    s.puts (a :: as) = (s.put a).puts as := rfl

theorem puts_append (s : Sink α) (as bs : List α) : s.puts (as ++ bs) = (s.puts as).puts bs :=
  foldl_append

@[simp] theorem stop_put (s : Sink α) (a : α) : (s.put a).stop = s.stop := by
  rw [put]
  split_ifs <;> rfl

@[simp] theorem pos_put (s : Sink α) (a : α) : (s.put a).pos = s.pos + 1 := by
  rw [put]
  split_ifs <;> rfl

@[simp] theorem stop_puts (s : Sink α) (as : List α) : (s.puts as).stop = s.stop := by
  induction as generalizing s with
  | nil => rfl
  | cons a as ih => rw [puts_cons, ih, stop_put]

/-- **All is counted.** -/
@[simp] theorem pos_puts (s : Sink α) (as : List α) : (s.puts as).pos = s.pos + as.length := by
  induction as generalizing s with
  | nil => rfl
  | cons a as ih => rw [puts_cons, ih, pos_put, length_cons, Nat.add_assoc, Nat.add_comm 1]

@[simp] theorem overlay_nil (mem : ℕ → α) (pos : ℕ) : overlay mem pos [] = mem := by
  funext i
  simp [overlay]

theorem overlay_cons (mem : ℕ → α) (pos : ℕ) (a : α) (as : List α) :
    overlay mem pos (a :: as) = overlay (update mem pos a) (pos + 1) as := by
  funext i
  rcases lt_trichotomy i pos with hlt | rfl | hgt
  · simp [overlay, hlt.not_ge, hlt.ne, Nat.not_le.mpr (hlt.trans (Nat.lt_succ_self pos))]
  · have hpast : ¬i + 1 ≤ i := Nat.not_succ_le_self i
    simp [overlay, hpast]
  · obtain ⟨n, rfl⟩ := Nat.exists_eq_add_of_lt hgt
    have hfirst : pos + n + 1 - pos = n + 1 := by omega
    have hnext : pos + n + 1 - (pos + 1) = n := by omega
    have hge : pos ≤ pos + n + 1 := hgt.le
    simp [overlay, hfirst, hnext, Nat.ne_of_gt hgt, hge]

theorem overlay_concat (mem : ℕ → α) (pos : ℕ) (as : List α) (a : α) :
    overlay mem pos (as ++ [a]) = update (overlay mem pos as) (pos + as.length) a := by
  induction as generalizing mem pos with
  | nil => rw [nil_append, overlay_cons, overlay_nil, overlay_nil, length_nil, Nat.add_zero]
  | cons b as ih =>
    rw [cons_append, overlay_cons, ih, overlay_cons, length_cons, Nat.add_assoc,
      Nat.add_comm 1]

/-- **What is stored** is what there is room for. -/
theorem mem_puts (s : Sink α) (as : List α) :
    (s.puts as).mem = overlay s.mem s.pos (as.take (s.stop - s.pos)) := by
  induction as generalizing s with
  | nil => simp
  | cons a as ih =>
    rw [puts_cons, ih, stop_put, pos_put]
    by_cases hroom : s.pos < s.stop
    · have hless : s.stop - s.pos = s.stop - (s.pos + 1) + 1 := by omega
      rw [hless, take_succ_cons, overlay_cons, put, if_pos hroom]
    · have hfull : s.stop - s.pos = 0 := by omega
      have hnext : s.stop - (s.pos + 1) = 0 := by omega
      rw [hfull, hnext, take_zero, take_zero, overlay_nil, overlay_nil, put, if_neg hroom]

/-- **What is written** is known by what it does to all writers. -/
theorem puts_injective (h : ∀ s : Sink α, s.puts as = s.puts bs) : as = bs := by
  have hlen : ∀ a : α, as.length = bs.length := by
    intro a
    have hpos := congrArg Sink.pos (h ⟨fun _ => a, 0, 0⟩)
    rwa [pos_puts, pos_puts, Nat.zero_add, Nat.zero_add] at hpos
  refine ext_getElem? fun i => ?_
  by_cases hi : i < as.length
  · -- a memory with room for all
    have hsame := hlen as[i]
    have hmem := congrFun (congrArg Sink.mem (h ⟨fun _ => as[i], 0, as.length⟩)) i
    rw [mem_puts, mem_puts] at hmem
    simp only [overlay, Nat.zero_le, if_true, Nat.sub_zero, take_length] at hmem
    rw [take_of_length_le (Nat.le_of_eq hsame.symm)] at hmem
    rw [getElem?_eq_getElem hi, getElem?_eq_getElem (hsame ▸ hi)] at hmem ⊢
    exact congrArg some hmem
  · by_cases hi' : i < bs.length
    · exact absurd (hlen bs[i] ▸ hi') hi
    · rw [getElem?_eq_none (Nat.not_lt.mp hi), getElem?_eq_none (Nat.not_lt.mp hi')]

end Sink

end Ratbox
