import Mathlib.Data.Set.Card

/-!
# Tallies

Objects come and go, and change, one at a time. A tally is the number of the objects with a
property: when one place changes, it goes up by what is there then, and down by what was there
before.

## Main definitions

* `Tally.tally`: the number of the objects with a property.
* `Tally.weight`: what one place counts.

## Main results

* `Tally.tally_update`: one place changes.
-/

namespace Ratbox.Tally

open Function

variable {ι α : Type*} {f : ι → Option α} {p : α → Prop} {x : ι}

/-- The places whose objects have a property. -/
def places (f : ι → Option α) (p : α → Prop) : Set ι := {i | ∃ a, f i = some a ∧ p a}

/-- The number of the objects with a property. -/
noncomputable def tally (f : ι → Option α) (p : α → Prop) : ℤ := (places f p).ncard

/-- What one place counts. -/
def weight (p : α → Prop) [DecidablePred p] : Option α → ℤ
  | none => 0
  | some a => if p a then 1 else 0

theorem tally_nonneg : 0 ≤ tally f p := Int.natCast_nonneg _

@[simp]
theorem tally_empty : tally (fun _ : ι => none) p = 0 := by
  have hempty : places (fun _ : ι => none) p = ∅ := by
    ext i
    simp [places]
  rw [tally, hempty, Set.ncard_empty, Nat.cast_zero]

section

variable (hf : {i | (f i).isSome}.Finite)
include hf

/-- The places with objects are finitely many, also when one of them changes. -/
theorem finite_update [DecidableEq ι] (o : Option α) : {i | (update f x o i).isSome}.Finite := by
  refine (hf.insert x).subset fun i hi => ?_
  by_cases hix : i = x
  · exact .inl hix
  · rw [Set.mem_ofPred_eq, update_of_ne hix] at hi
    exact .inr hi

theorem finite_places : (places f p).Finite :=
  hf.subset fun i ⟨a, ha, _⟩ => by rw [Set.mem_ofPred_eq, ha, Option.isSome_some]

/-- The tally is that of the other places, and what one place counts. -/
theorem tally_eq_add_weight [DecidablePred p] (x : ι) :
    tally f p = ((places f p \ {x}).ncard : ℤ) + weight p (f x) := by
  by_cases hx : x ∈ places f p
  · have hcard := Set.ncard_sdiff_singleton_add_one hx (finite_places hf)
    obtain ⟨a, ha, hp⟩ := hx
    rw [tally, ← hcard, ha, weight, if_pos hp, Nat.cast_add, Nat.cast_one]
  · have hweight : weight p (f x) = 0 := by
      cases ha : f x with
      | none => rfl
      | some a => exact if_neg fun hp => hx ⟨a, ha, hp⟩
    rw [tally, Set.sdiff_singleton_eq_self hx, hweight, add_zero]

/-- **One place changes.** -/
theorem tally_update [DecidableEq ι] [DecidablePred p] (x : ι) (o : Option α) :
    tally (update f x o) p = tally f p - weight p (f x) + weight p o := by
  have hothers : places (update f x o) p \ {x} = places f p \ {x} := by
    ext i
    refine and_congr_left fun hi => ?_
    simp [places, update_of_ne hi]
  rw [tally_eq_add_weight (finite_update hf o) x, tally_eq_add_weight hf x, hothers, update_self]
  omega

end

end Ratbox.Tally
