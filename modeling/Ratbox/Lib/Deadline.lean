import Mathlib.Data.List.TakeWhile
import Mathlib.Order.MinMax

/-!
# Queues of deadlines

Entries stand in a queue, and each is due at a time. Those that are due are taken off the front, up
to the first that is not. That takes off everything that is due, now and at any later time, exactly
when no entry stands behind one with a later deadline; deadlines that are over do not count.

## Main definitions

* `Deadline.takeDue`: the queue without the entries at the front that are due.
* `Deadline.Ordered`: no entry stands behind one that is due later.

## Main results

* `Deadline.mem_takeDue`: an entry that is not due stays.
* `Deadline.takeDue_clear_iff`: when everything that is due is taken off.
-/

namespace Ratbox.Deadline

open List

variable {α τ : Type*} [LinearOrder τ] {f : α → τ} {l l' : List α} {now t : τ} {a : α}

/-- The entries that are due at `t` are taken off the front. -/
def takeDue (f : α → τ) (t : τ) (l : List α) : List α := l.dropWhile fun a => f a ≤ t

/-- No entry stands behind one that is due later. Entries that were due at `now` may stand anywhere
in front. -/
def Ordered (f : α → τ) (now : τ) (l : List α) : Prop := l.Pairwise fun a b => f a ≤ max now (f b)

theorem takeDue_cons_of_le (h : f a ≤ t) : takeDue f t (a :: l) = takeDue f t l := by
  rw [takeDue, dropWhile_cons_of_pos (by simpa using h), takeDue]

theorem takeDue_cons_of_lt (h : t < f a) : takeDue f t (a :: l) = a :: l := by
  rw [takeDue, dropWhile_cons_of_neg (by simpa using h)]

theorem takeDue_sublist (l : List α) : (takeDue f t l).Sublist l := dropWhile_sublist _

/-- An entry that is not due stays. -/
theorem mem_takeDue (ha : a ∈ l) (hlater : t < f a) : a ∈ takeDue f t l := by
  induction l with
  | nil => exact ha
  | cons b l ih =>
    rcases le_or_gt (f b) t with hdue | hnot
    · rw [takeDue_cons_of_le hdue]
      refine ih ((mem_cons.mp ha).resolve_left ?_)
      rintro rfl
      exact hlater.not_ge hdue
    · rw [takeDue_cons_of_lt hnot]
      exact ha

namespace Ordered

theorem nil : Ordered f now [] := Pairwise.nil

theorem cons {a : α} : Ordered f now (a :: l) ↔ (∀ b ∈ l, f a ≤ max now (f b)) ∧ Ordered f now l :=
  pairwise_cons

theorem sublist (h : Ordered f now l) (hsub : l'.Sublist l) : Ordered f now l' :=
  Pairwise.sublist hsub h

/-- Time passes. -/
theorem mono (h : Ordered f now l) (hle : now ≤ t) : Ordered f t l :=
  Pairwise.imp (fun hab => hab.trans (max_le_max_right _ hle)) h

/-- An entry at the end. -/
theorem concat {a : α} :
    Ordered f now (l ++ [a]) ↔ Ordered f now l ∧ ∀ b ∈ l, f b ≤ max now (f a) := by
  rw [Ordered, pairwise_append]
  simp [Ordered]

end Ordered

/-- **Everything that is due is taken off**, at any time from now on, exactly when the queue is
ordered. -/
theorem takeDue_clear_iff : (∀ t, now ≤ t → ∀ a ∈ takeDue f t l, t < f a) ↔ Ordered f now l := by
  induction l with
  | nil => simp [takeDue, Ordered.nil]
  | cons a l ih =>
    rw [Ordered.cons, ← ih]
    constructor
    · refine fun h => ⟨fun b hb => ?_, fun t ht b hb => ?_⟩
      · -- Otherwise `b` stays behind `a` when it is due.
        by_contra hlate
        rw [not_le] at hlate
        refine (h (max now (f b)) (le_max_left _ _) b ?_).not_ge (le_max_right _ _)
        rw [takeDue_cons_of_lt hlate]
        exact mem_cons_of_mem a hb
      · rcases le_or_gt (f a) t with hdue | hnot
        · exact h t ht b (by rwa [takeDue_cons_of_le hdue])
        · refine h t ht b ?_
          rw [takeDue_cons_of_lt hnot]
          exact mem_cons_of_mem a ((takeDue_sublist l).subset hb)
    · rintro ⟨hfirst, hrest⟩ t ht b hb
      rcases le_or_gt (f a) t with hdue | hnot
      · rw [takeDue_cons_of_le hdue] at hb
        exact hrest t ht b hb
      · rw [takeDue_cons_of_lt hnot] at hb
        rcases mem_cons.mp hb with rfl | hb
        · exact hnot
        · rcases le_max_iff.mp (hfirst b hb) with hover | hafter
          · exact absurd (hnot.trans_le hover) ht.not_gt
          · exact hnot.trans_le hafter

end Ratbox.Deadline
