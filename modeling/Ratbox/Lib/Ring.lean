import Mathlib.Data.List.Basic

/-!
# Rings of slots

A ring has slots with the numbers from zero to the last one. Going back from slot zero leads to the
last one, and going on from the last one leads to slot zero. What was put in is in front of the slot
that is next, the newest nearest to it, and is kept until the ring has gone round.

## Main definitions

* `Ring.prev`, `Ring.next`: the slot in front of a slot, and the one behind it.
* `Ring.before`: what is in the slots in front of a slot.

## Main results

* `Ring.before_put`: what is put in is nearest to the slot that is next.
* `Ring.take_before`: fewer slots.
-/

namespace Ratbox.Ring

open Function

variable {α : Type*} (last : ℕ)

/-- The slot in front of a slot. -/
def prev (i : ℕ) : ℕ := if i = 0 then last else i - 1

/-- The slot behind a slot. -/
def next (i : ℕ) : ℕ := if i = last then 0 else i + 1

/-- What is in a number of slots in front of a slot, the nearest one first. -/
def before (slots : ℕ → α) : ℕ → ℕ → List α
  | _, 0 => []
  | i, k + 1 => slots (prev last i) :: before slots (prev last i) k

variable {last} {slots : ℕ → α} {i j k : ℕ}

theorem next_le (hi : i ≤ last) : next last i ≤ last := by
  rw [next]
  split_ifs <;> omega

theorem prev_next (i : ℕ) : prev last (next last i) = i := by
  rw [next]
  split_ifs with h
  · rw [prev, if_pos rfl, h]
  · rw [prev, if_neg (Nat.succ_ne_zero i), Nat.add_sub_cancel]

theorem take_before (slots : ℕ → α) (i : ℕ) (h : j ≤ k) :
    (before last slots i k).take j = before last slots i j := by
  induction k generalizing i j with
  | zero =>
    obtain rfl : j = 0 := by omega
    rfl
  | succ k ih =>
    cases j with
    | zero => rfl
    | succ j => rw [before, List.take_succ_cons, ih _ (Nat.le_of_succ_le_succ h), before]

/-- The slots in front of one that is `j` slots back do not come to it as long as the ring has not
gone round. -/
theorem before_update_of_back (x : α) (hi : i ≤ last) (hj : j ≤ last) (hjk : j + k ≤ last) :
    before last (update slots i x) (if j ≤ i then i - j else i + last + 1 - j) k =
      before last slots (if j ≤ i then i - j else i + last + 1 - j) k := by
  induction k generalizing j with
  | zero => rfl
  | succ k ih =>
    have hback : prev last (if j ≤ i then i - j else i + last + 1 - j) =
        if j + 1 ≤ i then i - (j + 1) else i + last + 1 - (j + 1) := by
      rw [prev]
      split_ifs <;> omega
    have hne : (if j + 1 ≤ i then i - (j + 1) else i + last + 1 - (j + 1)) ≠ i := by
      split_ifs <;> omega
    rw [before, before, hback, update_of_ne hne, ih (by omega) (by omega)]

/-- **What is put in** is nearest to the slot that is next, and is in front of what was there
before. -/
theorem before_put (slots : ℕ → α) (x : α) (hi : i ≤ last) (hk : k ≤ last) :
    before last (update slots i x) (next last i) (k + 1) = x :: before last slots i k := by
  have hback := @before_update_of_back _ last slots i 0 k x hi (Nat.zero_le last) (by omega)
  rw [if_pos (Nat.zero_le i), Nat.sub_zero] at hback
  rw [before, prev_next, update_self, hback]

end Ratbox.Ring
