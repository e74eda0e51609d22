import Mathlib.Data.Finset.Card
import Mathlib.Algebra.BigOperators.Group.List.Basic
import Mathlib.Data.Nat.ModEq

/-!
# Odometers

An odometer is a row of wheels. The first wheel is turned by one; a wheel that comes round to zero
turns the next one. Read as a number in mixed radix, what the wheels show goes up by one, and comes
round to zero after the greatest number.

A function that counts up to a number and comes round visits each of its states once before it is
back.

## Main definitions

* `Odometer.advance`: the wheels after a turn.
* `Odometer.value`: what the wheels show, as a number.
* `Odometer.Counts`: a function that counts, and comes round.

## Main results

* `Odometer.value_advance`: a turn adds one.
* `Odometer.Counts.exists_unique`: each state is visited once.
* `Odometer.Counts.exists_notMem`: one of the states to come is not among those of a smaller set.
-/

namespace Ratbox.Odometer

open List Nat Function

/-! ### Wheels -/

/-- Turn the first of the wheels `ds`, which have `rs` numbers on them; and whether the last one
came round. -/
def advance : List ℕ → List ℕ → List ℕ × Bool
  | r :: rs, d :: ds =>
    if d + 1 < r then ((d + 1) :: ds, false)
    else
      let (ds, carry) := advance rs ds
      (0 :: ds, carry)
  | _, ds => (ds, true)

/-- What the wheels show, the least significant first. -/
def value : List ℕ → List ℕ → ℕ
  | r :: rs, d :: ds => d + r * value rs ds
  | _, _ => 0

/-- Each wheel shows a number that it has. -/
def Fits (rs ds : List ℕ) : Prop := Forall₂ (fun r d => d < r) rs ds

variable {r d : ℕ} {rs ds ds' : List ℕ}

theorem fits_cons : Fits (r :: rs) (d :: ds) ↔ d < r ∧ Fits rs ds := forall₂_cons

theorem fits_replicate : Fits (replicate ds.length r) ds ↔ ∀ d ∈ ds, d < r := by
  induction ds with
  | nil => exact iff_of_true .nil (by simp)
  | cons d ds ih => rw [length_cons, replicate_succ, fits_cons, ih, forall_mem_cons]

theorem advance_of_lt (h : d + 1 < r) : advance (r :: rs) (d :: ds) = ((d + 1) :: ds, false) := by
  rw [advance, if_pos h]

theorem advance_of_eq (h : d + 1 = r) :
    advance (r :: rs) (d :: ds) = (0 :: (advance rs ds).1, (advance rs ds).2) := by
  rw [advance, if_neg (by omega)]

section

variable (h : Fits rs ds)
include h

theorem value_lt : value rs ds < rs.prod := by
  induction h with
  | nil => simp [value]
  | @cons r d rs ds hlt _ ih =>
    rw [value, prod_cons]
    calc d + r * value rs ds < r * (value rs ds + 1) := by rw [mul_succ]; omega
      _ ≤ r * rs.prod := mul_le_mul_left r ih

theorem value_inj (h' : Fits rs ds') (heq : value rs ds = value rs ds') : ds = ds' := by
  induction h generalizing ds' with
  | nil =>
    cases h'
    rfl
  | @cons r d rs ds hlt _ ih =>
    obtain ⟨d', ds', hlt', hds', rfl⟩ := forall₂_cons_left_iff.mp h'
    rw [value, value] at heq
    have hmod := congrArg (· % r) heq
    have hdiv := congrArg (· / r) heq
    simp only [add_mul_mod_self_left, mod_eq_of_lt hlt, mod_eq_of_lt hlt'] at hmod
    simp only [add_mul_div_left _ _ (zero_lt_of_lt hlt), div_eq_of_lt hlt, div_eq_of_lt hlt',
      zero_add] at hdiv
    rw [hmod, ih hds' hdiv]

theorem fits_advance : Fits rs (advance rs ds).1 := by
  induction h with
  | nil => exact .nil
  | @cons r d rs ds hlt hds ih =>
    by_cases hnext : d + 1 < r
    · rw [advance_of_lt hnext]
      exact .cons hnext hds
    · rw [advance_of_eq (by omega)]
      exact .cons (by omega) ih

/-- A turn of the first wheel comes to the last one when all show their greatest numbers, and leaves
them at zero. -/
theorem advance_spec :
    if (advance rs ds).2 then value rs ds + 1 = rs.prod ∧ value rs (advance rs ds).1 = 0
    else value rs (advance rs ds).1 = value rs ds + 1 := by
  induction h with
  | nil => exact ⟨rfl, rfl⟩
  | @cons r d rs ds hlt hds ih =>
    by_cases hnext : d + 1 < r
    · rw [advance_of_lt hnext, if_neg (by simp), value, value]
      omega
    · have hlast : d + 1 = r := by omega
      rw [advance_of_eq hlast]
      dsimp only
      split_ifs with hcarry
      · rw [if_pos hcarry] at ih
        refine ⟨?_, by rw [value, ih.2, Nat.mul_zero]⟩
        rw [value, prod_cons, ← ih.1, mul_succ]
        omega
      · rw [if_neg hcarry] at ih
        rw [value, value, ih, mul_succ]
        omega

/-- **A turn adds one**, and what shows the greatest number comes round to zero. -/
theorem value_advance : value rs (advance rs ds).1 = (value rs ds + 1) % rs.prod := by
  have hspec := advance_spec h
  split_ifs at hspec with hcarry
  · rw [hspec.1, hspec.2, mod_self]
  · rw [← hspec, mod_eq_of_lt (value_lt (fits_advance h))]

theorem carry_iff : (advance rs ds).2 = true ↔ value rs ds + 1 = rs.prod := by
  have hspec := advance_spec h
  split_ifs at hspec with hcarry
  · exact iff_of_true hcarry hspec.1
  · have hlt := value_lt (fits_advance h)
    exact iff_of_false hcarry (by omega)

/-- More wheels behind the last one. -/
theorem advance_append (rs' ds' : List ℕ) : advance (rs ++ rs') (ds ++ ds') =
    if (advance rs ds).2 then ((advance rs ds).1 ++ (advance rs' ds').1, (advance rs' ds').2)
    else ((advance rs ds).1 ++ ds', false) := by
  induction h with
  | nil => rfl
  | @cons r d rs ds hlt hds ih =>
    rw [cons_append, cons_append]
    by_cases hnext : d + 1 < r
    · rw [advance_of_lt hnext, advance_of_lt hnext, if_neg (by simp), cons_append]
    · have hlast : d + 1 = r := by omega
      rw [advance_of_eq hlast, advance_of_eq hlast, ih]
      dsimp only
      split_ifs <;> rfl

end

/-! ### Counting -/

section Counts

variable {α : Type*} {f : α → α} {inv : α → Prop} {val : α → ℕ} {n : ℕ}

/-- The function counts up to `n` and comes round, and its states are told apart by their
numbers. -/
structure Counts (f : α → α) (inv : α → Prop) (val : α → ℕ) (n : ℕ) : Prop where
  step : ∀ x, inv x → inv (f x)
  lt : ∀ x, inv x → val x < n
  next : ∀ x, inv x → val (f x) = (val x + 1) % n
  inj : ∀ x y, inv x → inv y → val x = val y → x = y

namespace Counts

variable {x : α}

section

variable (h : Counts f inv val n)
include h

theorem iterate_inv (hx : inv x) (k : ℕ) : inv (f^[k] x) := by
  induction k with
  | zero => exact hx
  | succ k ih =>
    rw [iterate_succ_apply']
    exact h.step _ ih

theorem val_iterate (hx : inv x) (k : ℕ) : val (f^[k] x) = (val x + k) % n := by
  induction k with
  | zero => rw [iterate_zero_apply, add_zero, mod_eq_of_lt (h.lt x hx)]
  | succ k ih => rw [iterate_succ_apply', h.next _ (h.iterate_inv hx k), ih, mod_add_mod, add_assoc]

theorem iterate_period (hx : inv x) : f^[n] x = x := by
  refine h.inj _ _ (h.iterate_inv hx n) hx ?_
  rw [h.val_iterate hx, add_mod_right, mod_eq_of_lt (h.lt x hx)]

theorem iterate_injOn (hx : inv x) {j k : ℕ} (hj : j < n) (hk : k < n)
    (heq : f^[j + 1] x = f^[k + 1] x) : j = k := by
  have hval := congrArg val heq
  rw [h.val_iterate hx, h.val_iterate hx, ← add_assoc, ← add_assoc, add_right_comm,
    add_right_comm _ k] at hval
  have hmod : j ≡ k [MOD n] := ModEq.add_left_cancel' _ hval
  exact hmod.eq_of_lt_of_lt hj hk

/-- **Each state is visited once** before the function is back. -/
theorem exists_unique {y : α} (hx : inv x) (hy : inv y) : ∃! k, k < n ∧ f^[k + 1] x = y := by
  have hlt := h.lt x hx
  have hlt' := h.lt y hy
  refine ⟨(val y + (n - 1 - val x)) % n, ⟨mod_lt _ (by omega), ?_⟩,
    fun k hk => h.iterate_injOn hx hk.1 (mod_lt _ (by omega)) (hk.2.trans (Eq.symm ?_))⟩
  all_goals
    refine h.inj _ _ (h.iterate_inv hx _) hy ?_
    rw [h.val_iterate hx, ← add_assoc, add_right_comm, add_mod_mod,
      show val x + 1 + (val y + (n - 1 - val x)) = val y + n by omega, add_mod_right,
        mod_eq_of_lt hlt']

/-- **One of the states to come is free** when fewer are taken than there are. -/
theorem exists_notMem (hx : inv x) {s : Finset α} (hs : s.card < n) : ∃ k < n, f^[k + 1] x ∉ s := by
  by_contra hall
  push Not at hall
  have hle := Finset.card_le_card_of_injOn (s := Finset.range n) (fun k => f^[k + 1] x)
    (fun k hk => hall k (Finset.mem_range.mp hk))
    fun j hj k hk => h.iterate_injOn hx (Finset.mem_range.mp hj) (Finset.mem_range.mp hk)
  rw [Finset.card_range] at hle
  omega

end

end Counts

end Counts

end Ratbox.Odometer
