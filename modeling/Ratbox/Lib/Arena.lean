import Mathlib.Data.Multiset.Basic
import Mathlib.Data.Multiset.AddSub
import Ratbox.Lib.Enumerates

/-!
# Records on a list

Records are allocated one at a time, put in front of a list, and taken off the list when they are
freed. The list has the addresses; an address that was freed is not used again. What is on the list
is a multiset of records, and each operation does to it what its name says.

## Main definitions

* `Arena`: the records by address, the list, and the next address.
* `Arena.make`, `Arena.set`, `Arena.remove`: a record is allocated, written, freed.
* `Arena.Sound`: the list has the allocated records, each once.
* `Arena.contents`: the records.

## Main results

* `Arena.Sound.contents_make`, `Arena.Sound.contents_set`, `Arena.Sound.contents_remove`: what the
  operations do to the records.
-/

namespace Ratbox

open List Function

variable {α : Type*}

/-- Records by address, a list of addresses, and the next address. -/
structure Arena (α : Type*) where
  cell : ℕ → Option α
  list : List ℕ
  fresh : ℕ

namespace Arena

/-- No records. -/
def empty : Arena α := ⟨fun _ => none, [], 0⟩

/-- A record is allocated, and put in front of the list. -/
def make (s : Arena α) (x : α) : Arena α :=
  ⟨update s.cell s.fresh (some x), s.fresh :: s.list, s.fresh + 1⟩

/-- A record is written. -/
def set (s : Arena α) (a : ℕ) (x : α) : Arena α := { s with cell := update s.cell a (some x) }

/-- A record is taken off the list, and freed. -/
def remove (s : Arena α) (a : ℕ) : Arena α :=
  { s with cell := update s.cell a none, list := s.list.erase a }

/-- The records on the list. -/
def contents (s : Arena α) : Multiset α := ↑(s.list.filterMap s.cell)

/-- **The list has the allocated records, each once**, and they are below the next address. -/
structure Sound (s : Arena α) : Prop where
  enumerates : Enumerates s.list fun a => s.cell a ≠ none
  lt_fresh : ∀ a, s.cell a ≠ none → a < s.fresh

variable {s : Arena α} {a b : ℕ} {x y : α} {M : Multiset α}

@[simp] theorem cell_make_fresh : (s.make x).cell s.fresh = some x := update_self _ _ _

theorem cell_make_of_ne (h : b ≠ s.fresh) : (s.make x).cell b = s.cell b := update_of_ne h _ _

@[simp] theorem cell_set_self : (s.set a x).cell a = some x := update_self _ _ _

theorem cell_set_of_ne (h : b ≠ a) : (s.set a x).cell b = s.cell b := update_of_ne h _ _

@[simp] theorem cell_remove_self : (s.remove a).cell a = none := update_self _ _ _

theorem cell_remove_of_ne (h : b ≠ a) : (s.remove a).cell b = s.cell b := update_of_ne h _ _

@[simp] theorem set_set : (s.set a x).set a y = s.set a y := by
  rw [set, set, set, update_idem]

@[simp] theorem remove_set : (s.set a x).remove a = s.remove a := by
  rw [remove, remove, set, update_idem]

theorem set_eq_self (h : s.cell a = some x) : s.set a x = s := by
  rw [set, ← h, update_eq_self]

theorem sound_empty : Sound (empty : Arena α) :=
  ⟨Enumerates.nil fun _ h => h rfl, fun _ h => absurd rfl h⟩

theorem Sound.make (h : Sound s) (x : α) : Sound (s.make x) where
  enumerates := by
    refine h.enumerates.cons (fun hne => absurd (h.lt_fresh _ hne) (lt_irrefl _)) fun b => ?_
    by_cases hb : b = s.fresh
    · subst hb
      simp
    · simp [cell_make_of_ne hb, hb]
  lt_fresh b hb := by
    by_cases hb' : b = s.fresh
    · exact hb' ▸ Nat.lt_succ_self _
    · rw [cell_make_of_ne hb'] at hb
      exact (h.lt_fresh b hb).trans (Nat.lt_succ_self _)

theorem cell_set_ne_none (h : s.cell a = some x) : (s.set a y).cell b ≠ none ↔ s.cell b ≠ none := by
  by_cases hb : b = a
  · subst hb
    simp [h]
  · rw [cell_set_of_ne hb]

theorem Sound.set (h : Sound s) (ha : s.cell a = some x) (y : α) : Sound (s.set a y) where
  enumerates := h.enumerates.congr fun _ => (cell_set_ne_none ha).symm
  lt_fresh b hb := h.lt_fresh b ((cell_set_ne_none ha).mp hb)

theorem Sound.remove (h : Sound s) (a : ℕ) : Sound (s.remove a) where
  enumerates := by
    refine h.enumerates.erase fun b => ?_
    by_cases hb : b = a
    · subst hb
      simp
    · simp [cell_remove_of_ne hb, hb]
  lt_fresh b hb := by
    by_cases hb' : b = a
    · rw [hb', cell_remove_self] at hb
      exact absurd rfl hb
    · rw [cell_remove_of_ne hb'] at hb
      exact h.lt_fresh b hb

theorem mem_list (h : Sound s) (ha : s.cell a = some x) : a ∈ s.list :=
  (h.enumerates.mem_iff a).mpr (by rw [ha]; exact Option.some_ne_none x)

theorem mem_contents (h : Sound s) (ha : s.cell a = some x) : x ∈ s.contents :=
  Multiset.mem_coe.mpr (mem_filterMap.mpr ⟨a, mem_list h ha, ha⟩)

theorem exists_cell (hx : x ∈ contents s) : ∃ a ∈ s.list, s.cell a = some x :=
  mem_filterMap.mp (Multiset.mem_coe.mp hx)

/-- The records but for one are those that stay when it is freed. -/
theorem Sound.contents_remove (h : Sound s) (ha : s.cell a = some x) :
    s.contents = x ::ₘ (s.remove a).contents := by
  have hperm : s.list.Perm (a :: s.list.erase a) := perm_cons_erase (mem_list h ha)
  have hcongr : (s.list.erase a).filterMap s.cell = (s.list.erase a).filterMap
      (s.remove a).cell := by
    refine filterMap_congr fun b hb => ?_
    rw [cell_remove_of_ne fun hba => ?_]
    exact h.enumerates.nodup.not_mem_erase (hba ▸ hb)
  rw [contents, Multiset.coe_eq_coe.mpr (hperm.filterMap s.cell), filterMap_cons, ha]
  dsimp only
  rw [hcongr]
  rfl

/-- A record is added. -/
theorem Sound.contents_make (h : Sound s) (x : α) : (s.make x).contents = x ::ₘ s.contents := by
  have hcongr : s.list.filterMap (s.make x).cell = s.list.filterMap s.cell := by
    refine filterMap_congr fun b hb => ?_
    rw [cell_make_of_ne (h.lt_fresh b ((h.enumerates.mem_iff b).mp hb)).ne]
  have hlist : (s.make x).list = s.fresh :: s.list := rfl
  rw [contents, hlist, filterMap_cons, cell_make_fresh]
  dsimp only
  rw [hcongr]
  rfl

/-- One record is replaced. -/
theorem Sound.contents_set (h : Sound s) (ha : s.cell a = some x) (hM : s.contents = x ::ₘ M)
    (y : α) :
    (s.set a y).contents = y ::ₘ M := by
  rw [(h.set ha y).contents_remove cell_set_self, remove_set]
  rw [h.contents_remove ha, Multiset.cons_inj_right] at hM
  rw [hM]

end Arena

end Ratbox
