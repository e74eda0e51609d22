import Mathlib.Order.Bounds.Basic
import Mathlib.Data.List.Induction

/-!
# Values with stamps

Replicas that hold a value with a stamp and take over each other's values agree when the least
stamp wins and values with the same stamp are joined: whatever the order in which the values come,
what remains is the least stamp and the least upper bound of the values that carry it.

The values are joined by an operation of their own, and are compared by a view of them in a
lattice, in which the operation is the supremum.

What is computed from a source may be kept with the version of the source, which goes up with every
change: an entry is coherent when it is not ahead of the source, and right unless it is behind.

## Main definitions

* `Stamp.join`: two values with stamps.
* `Stamp.IsOldest`: the least stamp of a set, with the least upper bound of the values it has.
* `Stamp.take`: a replica that takes over a value with a lesser stamp, unless it is the one it has.
* `Versioned.Coherent`: an entry is behind, or has the right value.

## Main results

* `Stamp.isOldest_foldl`: what remains of a list of values.
* `Stamp.isGreatest_foldl`: in a linear order, it is the greatest value under the least stamp.
* `Stamp.foldl_take`: without a value that is the same, what remains has the least stamp.
* `Stamp.foldl_take_ne`: with one in front of it, the least stamp is lost.
* `Versioned.Coherent.change`: the source may change when its version goes up.
* `Versioned.coherent_reset`: an entry of the least version.
-/

namespace Ratbox.Stamp

open List Option

variable {T V W : Type*} [LinearOrder T] {op : V → V → V} {op' : W → W → W}

/-- The value with the lesser stamp; with equal stamps the values are joined. -/
def join (op : V → V → V) (x y : T × V) : T × V :=
  if x.1 < y.1 then x else if y.1 < x.1 then y else (x.1, op x.2 y.2)

/-- A value with a stamp, under a view of the value. -/
def view (f : V → W) (x : T × V) : T × W := (x.1, f x.2)

theorem view_join {f : V → W} (hf : ∀ a b, f (op a b) = op' (f a) (f b)) (x y : T × V) :
    view f (join op x y) = join op' (view f x) (view f y) := by
  rw [join, join, view, view, view]
  split_ifs <;> simp [hf]

theorem view_foldl_join {f : V → W}
    (hf : ∀ a b, f (op a b) = op' (f a) (f b)) (x : T × V) (xs : List (T × V)) :
    view f (xs.foldl (join op) x) = (xs.map (view f)).foldl (join op') (view f x) := by
  induction xs generalizing x with
  | nil => rfl
  | cons y ys ih => rw [foldl_cons, ih, view_join hf, map_cons, foldl_cons]

section Oldest

variable [SemilatticeSup W]

/-- The least stamp of a set, and the least upper bound of the values that carry it. -/
structure IsOldest (S : Set (T × W)) (r : T × W) : Prop where
  least : IsLeast (Prod.fst '' S) r.1
  lub : IsLUB {v | (r.1, v) ∈ S} r.2

theorem isOldest_singleton (x : T × W) : IsOldest {x} x where
  least := by
    rw [Set.image_singleton]
    exact isLeast_singleton
  lub := by
    have hset : {v | (x.1, v) ∈ ({x} : Set (T × W))} = {x.2} := by
      ext v
      simp [Prod.ext_iff]
    rw [hset]
    exact isLUB_singleton

/-- One more value. -/
theorem IsOldest.insert {S : Set (T × W)} {r : T × W} (h : IsOldest S r) (x : T × W) :
    IsOldest (insert x S) (join (· ⊔ ·) r x) := by
  have hle : ∀ t ∈ Prod.fst '' S, r.1 ≤ t := h.least.2
  rw [join]
  split_ifs with hlt hgt
  · refine ⟨?_, ?_⟩
    · rw [Set.image_insert_eq]
      refine ⟨Set.mem_insert_of_mem _ h.least.1, ?_⟩
      rintro t (rfl | ht)
      · exact hlt.le
      · exact hle t ht
    · have hset : {v | (r.1, v) ∈ Insert.insert x S} = {v | (r.1, v) ∈ S} := by
        ext v
        simp [Prod.ext_iff, hlt.ne]
      rw [hset]
      exact h.lub
  · refine ⟨?_, ?_⟩
    · rw [Set.image_insert_eq]
      refine ⟨Set.mem_insert _ _, ?_⟩
      rintro t (rfl | ht)
      · exact le_rfl
      · exact hgt.le.trans (hle t ht)
    · have hset : {v | (x.1, v) ∈ Insert.insert x S} = {x.2} := by
        ext v
        have hnot : (x.1, v) ∉ S := fun hv => absurd (hle x.1 ⟨_, hv, rfl⟩) (not_le.mpr hgt)
        simp [Prod.ext_iff, hnot]
      rw [hset]
      exact isLUB_singleton
  · have heq : x.1 = r.1 := le_antisymm (not_lt.mp hlt) (not_lt.mp hgt)
    refine ⟨?_, ?_⟩
    · rw [Set.image_insert_eq]
      refine ⟨Set.mem_insert_of_mem _ h.least.1, ?_⟩
      rintro t (rfl | ht)
      · exact heq.ge
      · exact hle t ht
    · have hset : {v | (r.1, v) ∈ Insert.insert x S} = Insert.insert x.2 {v | (r.1, v) ∈ S} := by
        ext v
        simp [Prod.ext_iff, heq.symm]
      rw [hset, sup_comm]
      exact h.lub.insert x.2

/-- **What remains of a list.** The least stamp, and the least upper bound of the values under it,
whatever the order of the list. -/
theorem isOldest_foldl (op : V → V → V) {f : V → W} (hf : ∀ a b, f (op a b) = f a ⊔ f b)
    (x : T × V) (xs : List (T × V)) :
    IsOldest (view f '' {y | y ∈ x :: xs}) (view f (xs.foldl (join op) x)) := by
  induction xs using reverseRecOn with
  | nil =>
    have hset : view f '' {y | y ∈ [x]} = {view f x} := by simp
    rw [hset]
    exact isOldest_singleton _
  | append_singleton ys y ih =>
    have hset : view f '' {z | z ∈ x :: (ys ++ [y])} =
        Insert.insert (view f y) (view f '' {z | z ∈ x :: ys}) := by
      rw [← Set.image_insert_eq]
      congr 1
      ext z
      simp only [mem_cons, mem_append, not_mem_nil, or_false, Set.mem_ofPred_eq,
        Set.mem_insert_iff]
      tauto
    rw [hset, foldl_append, foldl_cons, foldl_nil, view_join hf]
    exact ih.insert _

/-- The stamp that remains is one of the list. -/
theorem stamp_foldl_mem (op : V → V → V) (x : T × V) (xs : List (T × V)) :
    ∃ y ∈ x :: xs, (xs.foldl (join op) x).1 = y.1 := by
  have hold := isOldest_foldl op (f := fun _ => ()) (fun _ _ => rfl) x xs
  obtain ⟨_, ⟨y, hy, rfl⟩, heq⟩ := hold.least.1
  exact ⟨y, hy, heq.symm⟩

end Oldest

section Linear

variable [LinearOrder W]

theorem join_mem {S : Set (T × W)} {x y : T × W} (hx : x ∈ S) (hy : y ∈ S) :
    join (· ⊔ ·) x y ∈ S := by
  rw [join]
  split_ifs with hlt hgt
  · exact hx
  · exact hy
  · have heq : x.1 = y.1 := le_antisymm (not_lt.mp hgt) (not_lt.mp hlt)
    rcases le_total x.2 y.2 with h | h
    · rw [sup_eq_right.mpr h, heq]
      exact hy
    · rw [sup_eq_left.mpr h]
      exact hx

/-- In a linear order what remains of a list is in the list. -/
theorem foldl_join_mem (x : T × W) (xs : List (T × W)) : xs.foldl (join (· ⊔ ·)) x ∈ x :: xs := by
  induction xs using reverseRecOn with
  | nil => exact mem_singleton_self x
  | append_singleton ys y ih =>
    rw [foldl_append, foldl_cons, foldl_nil]
    refine join_mem (S := {z | z ∈ x :: (ys ++ [y])}) ?_ (by simp)
    rw [Set.mem_ofPred_eq, ← cons_append]
    exact mem_append_left _ ih

/-- **What remains of a list in a linear order.** The greatest value under the least stamp. -/
theorem isGreatest_foldl (op : V → V → V) {f : V → W} (hf : ∀ a b, f (op a b) = f a ⊔ f b)
    (x : T × V) (xs : List (T × V)) :
    IsGreatest {v | ((xs.foldl (join op) x).1, v) ∈ view f '' {y | y ∈ x :: xs}}
      (f (xs.foldl (join op) x).2) := by
  refine ⟨?_, (isOldest_foldl op hf x xs).lub.1⟩
  have hmem := foldl_join_mem (view f x) (xs.map (view f))
  rw [← view_foldl_join hf, ← map_cons] at hmem
  exact mem_map.mp hmem

end Linear

section Take

variable (same : W → V → Prop) [DecidableRel same] (store : V → W)

/-- A value is stored when there is none, or when its stamp is less and it is not the same. -/
def take : Option (T × W) → T × V → Option (T × W)
  | none, x => some (view store x)
  | some r, x => if x.1 < r.1 ∧ ¬same r.2 x.2 then some (view store x) else some r

variable {same store} {xs : List (T × V)}

/-- What was stored remains while no lesser stamp comes. -/
theorem foldl_take_of_le {r : T × W} (h : ∀ x ∈ xs, r.1 ≤ x.1) :
    xs.foldl (take same store) (some r) = some r := by
  induction xs with
  | nil => rfl
  | cons x xs ih =>
    rw [foldl_cons, take, if_neg fun hx => not_lt.mpr (h x mem_cons_self) hx.1]
    exact ih fun y hy => h y (mem_cons_of_mem x hy)

/-- What is stored at the end was stored before, or is one of the values. -/
theorem foldl_take_mem {r : Option (T × W)} {z : T × W}
    (h : xs.foldl (take same store) r = some z) : r = some z ∨ ∃ x ∈ xs, z = view store x := by
  induction xs generalizing r with
  | nil => exact .inl h
  | cons x xs ih =>
    obtain hx | ⟨y, hy, rfl⟩ := ih h
    · cases r with
      | none => exact .inr ⟨x, mem_cons_self, (some.inj hx).symm⟩
      | some r =>
        rw [take] at hx
        split_ifs at hx with htake
        · exact .inr ⟨x, mem_cons_self, (some.inj hx).symm⟩
        · exact .inl hx
    · exact .inr ⟨y, mem_cons_of_mem x hy, rfl⟩

/-- **The least stamp remains** when no other value is the same as the one that has it. -/
theorem foldl_take {x : T × V} (hx : x ∈ xs) (hleast : ∀ y ∈ xs, y ≠ x → x.1 < y.1)
    (hsame : ∀ y ∈ xs, y ≠ x → ¬same (store y.2) x.2) :
    xs.foldl (take same store) none = some (view store x) := by
  obtain ⟨as, bs, rfl, hnot⟩ := eq_append_cons_of_mem hx
  have hrest : ∀ y ∈ bs, (view store x).1 ≤ y.1 := by
    intro y hy
    by_cases heq : y = x
    · exact (congrArg Prod.fst heq).ge
    · exact (hleast y (by simp [hy]) heq).le
  have htaken : take same store (as.foldl (take same store) none) x = some (view store x) := by
    cases hr : as.foldl (take same store) none with
    | none => rfl
    | some r =>
      obtain hnone | ⟨y, hy, rfl⟩ := foldl_take_mem hr
      · cases hnone
      · have hne : y ≠ x := fun heq => hnot (heq ▸ hy)
        rw [take, if_pos ⟨hleast y (by simp [hy]) hne, hsame y (by simp [hy]) hne⟩]
  rw [foldl_append, foldl_cons, htaken, foldl_take_of_le hrest]

/-- **The least stamp is lost** when a value that is the same comes directly in front of it. -/
theorem foldl_take_ne {x y : T × V} {z : T × W} (hsame : same (store y.2) x.2)
    (hy : y.1 ≠ x.1) (hxs : ∀ v ∈ xs, v.1 ≠ x.1)
    (h : (y :: x :: xs).foldl (take same store) none = some z) : z.1 ≠ x.1 := by
  have hkept : take same store (some (view store y)) x = some (view store y) := by
    rw [take, if_neg fun hx => hx.2 hsame]
  rw [foldl_cons, foldl_cons, take, hkept] at h
  obtain hz | ⟨v, hv, rfl⟩ := foldl_take_mem h
  · rw [← some.inj hz]
    exact hy
  · exact hxs v hv

end Take

end Ratbox.Stamp

namespace Ratbox.Versioned

variable {ν β : Type*} [LinearOrder ν] {entry now now' : ν} {value fresh fresh' : β}

/-- The entry of a value with the version `entry` is not ahead of the source, which has the version
`now` and gives the value `fresh`, and its value is right when it is not behind. -/
structure Coherent (entry : ν) (value : β) (now : ν) (fresh : β) : Prop where
  le : entry ≤ now
  eq : entry = now → value = fresh

/-- What is computed now is right. -/
theorem coherent_self (now : ν) (fresh : β) : Coherent now fresh now fresh :=
  ⟨le_rfl, fun _ => rfl⟩

/-- The source changes with its version. -/
theorem Coherent.change (h : Coherent entry value now fresh) (hlt : now < now') (fresh' : β) :
    Coherent entry value now' fresh' :=
  ⟨h.le.trans hlt.le, fun heq => absurd heq (h.le.trans_lt hlt).ne⟩

/-- An entry of the least version is behind, unless the source never changed. -/
theorem coherent_reset [OrderBot ν] (h : now = ⊥ → value = fresh) : Coherent ⊥ value now fresh :=
  ⟨bot_le, fun heq => h heq.symm⟩

end Ratbox.Versioned
