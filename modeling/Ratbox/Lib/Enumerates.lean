import Mathlib.Data.List.Nodup
import Mathlib.Data.List.Perm.Subperm

/-!
# Lists of what has a property

A list that is kept of the things that have a property, with each of them once: what is put in front
of it and what is taken out of it changes the property. And what is left of a list when all items
that have a property are taken out of it, in the order in which they were.

## Main definitions

* `Enumerates`: the list has the things with the property, each once.
* `Without`: a list is another one without the items that have a property.

## Main results

* `Enumerates.cons`, `Enumerates.erase`: one thing comes or goes.
* `Without.trans`: items are taken out in two turns.
* `Without.erase`, `Without.tail`: one item is taken out.
-/

namespace Ratbox

open List

variable {α : Type*} {l : List α} {p q : α → Prop} {a : α}

/-- The list has the things with the property, each once. -/
structure Enumerates (l : List α) (p : α → Prop) : Prop where
  nodup : l.Nodup
  mem_iff : ∀ a, a ∈ l ↔ p a

namespace Enumerates

theorem nil (h : ∀ a, ¬ p a) : Enumerates [] p :=
  ⟨nodup_nil, fun a => iff_of_false not_mem_nil (h a)⟩

theorem congr (h : Enumerates l p) (hpq : ∀ a, p a ↔ q a) : Enumerates l q :=
  ⟨h.nodup, fun a => (h.mem_iff a).trans (hpq a)⟩

/-- One thing gets the property. -/
theorem cons (h : Enumerates l p) (ha : ¬ p a) (hq : ∀ b, q b ↔ b = a ∨ p b) :
    Enumerates (a :: l) q where
  nodup := nodup_cons.mpr ⟨fun hmem => ha ((h.mem_iff a).mp hmem), h.nodup⟩
  mem_iff b := by rw [mem_cons, h.mem_iff, hq]

/-- One thing loses the property, if it had it. -/
theorem erase [DecidableEq α] (h : Enumerates l p) (hq : ∀ b, q b ↔ b ≠ a ∧ p b) :
    Enumerates (l.erase a) q where
  nodup := h.nodup.erase a
  mem_iff b := by rw [h.nodup.mem_erase_iff, h.mem_iff, hq]

theorem eq_nil_iff (h : Enumerates l p) : l = [] ↔ ∀ a, ¬ p a := by
  rw [eq_nil_iff_forall_not_mem]
  exact forall_congr' fun a => not_congr (h.mem_iff a)

end Enumerates

/-- `l'` is `l` without the items in `gone`. -/
structure Without (gone : α → Prop) (l l' : List α) : Prop where
  sublist : l'.Sublist l
  mem : ∀ a, a ∈ l' ↔ a ∈ l ∧ ¬gone a

namespace Without

variable {gone gone' : α → Prop} {l l' l'' : List α}

theorem refl (h : ∀ a ∈ l, ¬gone a) : Without gone l l :=
  ⟨Sublist.refl l, fun a => iff_self_and.mpr (h a)⟩

theorem trans (h : Without gone l l') (h' : Without gone' l' l'') :
    Without (fun a => gone a ∨ gone' a) l l'' where
  sublist := h'.sublist.trans h.sublist
  mem a := by rw [h'.mem, h.mem, not_or, and_assoc]

theorem congr (h : Without gone l l') (hgone : ∀ a ∈ l, gone' a ↔ gone a) : Without gone' l l' where
  sublist := h.sublist
  mem a := (h.mem a).trans (and_congr_right fun ha => not_congr (hgone a ha).symm)

theorem nodup (h : Without gone l l') (hnd : l.Nodup) : l'.Nodup := hnd.sublist h.sublist

/-- One item is taken out. -/
theorem erase [DecidableEq α] (hnd : l.Nodup) (a : α) : Without (· = a) l (l.erase a) where
  sublist := erase_sublist
  mem b := by rw [hnd.mem_erase_iff, and_comm]

/-- The items that fail a test are taken out. -/
theorem filter {p : α → Bool} (h : ∀ a ∈ l, gone a ↔ p a = false) :
    Without gone l (l.filter p) where
  sublist := filter_sublist
  mem a := by
    rw [mem_filter]
    refine and_congr_right fun ha => ?_
    rw [h a ha, Bool.not_eq_false]

/-- The first item is taken out. -/
theorem tail {a : α} (h : Without (· = a) (a :: l) l') (hnd : (a :: l).Nodup) : l' = l := by
  obtain ⟨ha, hnd⟩ := nodup_cons.mp hnd
  have hnot : a ∉ l' := fun hmem => ((h.mem a).mp hmem).2 rfl
  have hsub : l'.Sublist l := by
    obtain hsub | ⟨l'', rfl, -⟩ := sublist_cons_iff.mp h.sublist
    · exact hsub
    · exact absurd mem_cons_self hnot
  refine hsub.eq_of_length_le (Nodup.subperm hnd fun b hb => (h.mem b).mpr ⟨mem_cons_of_mem a hb,
    ?_⟩).length_le
  rintro rfl
  exact ha hb

end Without

end Ratbox
