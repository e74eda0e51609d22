import Mathlib.Order.Basic
import Mathlib.Data.Option.Basic
import Mathlib.Data.List.Nodup

/-!
# Trees by their uplinks

A tree is given by the uplink of each node. The depth of a node is one more than that of its uplink,
so that there are no cycles.

## Main definitions

* `Uplinks`: the uplinks of the nodes, and their depths.
* `Uplinks.Below`: a node is in the subtree of another one.

## Main results

* `Uplinks.Below.total`: of two nodes above a third one, one is above the other.
* `Uplinks.Below.exists_child`: a subtree is in the subtree of one child.
* `Uplinks.Below.exists_path`: the nodes between two nodes are different ones.
-/

namespace Ratbox

open List

variable {σ : Type*}

/-- The uplinks of the nodes of a tree. -/
structure Uplinks (σ : Type*) where
  up : σ → Option σ
  depth : σ → ℕ
  depth_up : ∀ x y, up x = some y → depth x = depth y + 1

namespace Uplinks

/-- A node is in the subtree of `x`. -/
inductive Below (t : Uplinks σ) (x : σ) : σ → Prop
  | refl : Below t x x
  | down {y z : σ} (h : Below t x y) (hup : t.up z = some y) : Below t x z

variable {t : Uplinks σ} {x y z : σ}

theorem Below.trans (h : t.Below x y) (h' : t.Below y z) : t.Below x z := by
  induction h' with
  | refl => exact h
  | down _ hup ih => exact ih.down hup

theorem Below.of_up (h : t.up y = some x) : t.Below x y := .down .refl h

/-- A node that is not the top of a subtree is there with its uplink. -/
theorem below_iff : t.Below x z ↔ z = x ∨ ∃ y, t.up z = some y ∧ t.Below x y := by
  constructor
  · intro h
    cases h with
    | refl => exact .inl rfl
    | down h hup => exact .inr ⟨_, hup, h⟩
  · rintro (rfl | ⟨y, hup, h⟩)
    · exact .refl
    · exact h.down hup

theorem Below.depth_le (h : t.Below x z) : t.depth x ≤ t.depth z := by
  induction h with
  | refl => exact Nat.le_refl _
  | down _ hup ih =>
    rw [t.depth_up _ _ hup]
    exact Nat.le_succ_of_le ih

theorem not_below_up (h : t.up y = some x) : ¬t.Below y x := by
  intro hbelow
  have hle := hbelow.depth_le
  rw [t.depth_up y x h] at hle
  exact Nat.not_succ_le_self _ hle

theorem up_ne (h : t.up y = some x) : y ≠ x := by
  rintro rfl
  exact not_below_up h .refl

/-- **Above a node.** Of two nodes above a third one, one is above the other. -/
theorem Below.total (h : t.Below x z) (h' : t.Below y z) : t.Below x y ∨ t.Below y x := by
  induction h with
  | refl => exact .inr h'
  | @down u z h hup ih =>
    obtain rfl | ⟨v, hv, h'⟩ := below_iff.mp h'
    · exact .inl (h.down hup)
    · cases hup.symm.trans hv
      exact ih h'

/-- The subtrees of two children of a node have no node in common. -/
theorem child_unique {u v : σ} (hu : t.up u = some x) (hv : t.up v = some x) (h : t.Below u z)
    (h' : t.Below v z) :
    u = v := by
  have hne : ∀ {a b : σ}, t.up a = some x → t.up b = some x → t.Below a b → a = b := by
    intro a b ha hb hab
    obtain rfl | ⟨c, hc, hac⟩ := below_iff.mp hab
    · rfl
    · cases hb.symm.trans hc
      exact absurd hac (not_below_up ha)
  obtain huv | hvu := h.total h'
  · exact hne hu hv huv
  · exact (hne hv hu hvu).symm

/-- **Below a node.** A node below another one is in the subtree of one of its children. -/
theorem Below.exists_child (h : t.Below x z) (hne : z ≠ x) :
    ∃ y, t.up y = some x ∧ t.Below y z := by
  induction h with
  | refl => exact absurd rfl hne
  | @down y z h hup ih =>
    by_cases hy : y = x
    · exact ⟨z, hy ▸ hup, .refl⟩
    · obtain ⟨u, hu, hbelow⟩ := ih hy
      exact ⟨u, hu, hbelow.down hup⟩

/-- **Paths.** From a node down to another one there are as many nodes as levels. -/
theorem Below.exists_path (h : t.Below x z) :
    ∃ l : List σ, l.Nodup ∧ t.depth x + l.length = t.depth z + 1 ∧ ∀ y ∈ l, t.Below y z := by
  induction h with
  | refl => exact ⟨[x], nodup_singleton x, rfl, fun y hy => mem_singleton.mp hy ▸ .refl⟩
  | @down y z h hup ih =>
    obtain ⟨l, hnd, hlength, hl⟩ := ih
    have hdepth := t.depth_up z y hup
    refine ⟨z :: l, nodup_cons.mpr ⟨fun hz => ?_, hnd⟩, by rw [length_cons]; omega, fun u hu => ?_⟩
    · exact not_below_up hup (hl z hz)
    · obtain rfl | hu := mem_cons.mp hu
      · exact .refl
      · exact (hl u hu).down hup

end Uplinks

end Ratbox
