import Mathlib.Data.List.OfFn

/-!
# Bit strings in a tree that tests bits

A finite bit string is the start of an infinite one. A tree that tests bits has at each node the
number of a bit, which grows on the way down, and goes left or right by that bit. Each node has a
label, an infinite string that is followed to reach it: below a node all labels agree up to its bit,
and a child is on the side that its label turns to. So the way to a node can be followed by its
label, and by every string that agrees with it up to the bit of the node.

A tree holds strings at its nodes. It changes by leaves that are attached and detached, by nodes
that are put above another one or taken out from above it, and by the strings at nodes.

## Main definitions

* `CritBit.Agree`, `CritBit.take`: strings that agree up to a bit, and the start of a string.
* `CritBit.IsLongest`: the longest string of a set that a string starts with.
* `CritBit.Routed`, `CritBit.Below`: a tree that tests bits, and its paths.
* `CritBit.Links`, `CritBit.Shape`: the links of a tree up and down, and what holds of them.
* `CritBit.Links.attach`, `CritBit.Links.splice`, `CritBit.Links.detach`, `CritBit.Links.bypass`,
  `CritBit.Links.setKey`: the changes.

## Main results

* `CritBit.take_prefix_iff`: when one start is a start of another.
* `CritBit.Routed.next`: the next node on the way to a node.
* `CritBit.Shape.attach`, `CritBit.Shape.splice`, `CritBit.Shape.detach`, `CritBit.Shape.bypass`:
  the changes keep the shape.
* `CritBit.Shape.key_inj`: a string is held at one node only.
-/

namespace Ratbox.CritBit

open List Option Function

/-! ### Strings -/

/-- The strings agree on the bits before `n`. -/
def Agree (n : ℕ) (a b : ℕ → Bool) : Prop := ∀ i < n, a i = b i

variable {n m : ℕ} {a b c : ℕ → Bool}

theorem Agree.refl (n : ℕ) (a : ℕ → Bool) : Agree n a a := fun _ _ => rfl

theorem Agree.symm (h : Agree n a b) : Agree n b a := fun i hi => (h i hi).symm

theorem Agree.trans (h : Agree n a b) (h' : Agree n b c) : Agree n a c :=
  fun i hi => (h i hi).trans (h' i hi)

theorem Agree.mono (h : Agree n a b) (hm : m ≤ n) : Agree m a b :=
  fun i hi => h i (hi.trans_le hm)

/-- The first `n` bits. -/
def take (n : ℕ) (a : ℕ → Bool) : List Bool := ofFn fun i : Fin n => a i

@[simp] theorem length_take (n : ℕ) (a : ℕ → Bool) : (take n a).length = n := length_ofFn

/-- A start of a string is a start of another when it is not longer and they agree. -/
theorem take_prefix_iff : take m a <+: take n b ↔ m ≤ n ∧ Agree m a b := by
  constructor
  · intro h
    have hle : m ≤ n := by simpa using h.length_le
    refine ⟨hle, fun i hi => ?_⟩
    have hget := h.getElem (i := i) (by simpa using hi)
    simpa [take] using hget
  · rintro ⟨hle, h⟩
    have htake : take m a = (take n b).take m := by
      refine ext_getElem (by simp [hle]) fun i hi hi' => ?_
      simpa [take] using h i (by simpa using hi)
    rw [htake]
    exact take_prefix _ _

theorem take_inj : take m a = take n b ↔ m = n ∧ Agree m a b := by
  constructor
  · intro h
    have hlength : m = n := by simpa using congrArg length h
    have hprefix : take m a <+: take n b := h ▸ prefix_refl (take m a)
    exact ⟨hlength, (take_prefix_iff.mp hprefix).2⟩
  · rintro ⟨rfl, h⟩
    exact (take_prefix_iff.mpr ⟨le_rfl, h⟩).eq_of_length (by simp)

/-- `p` is the longest string of the set that `q` starts with. -/
structure IsLongest (s : Set (List Bool)) (q p : List Bool) : Prop where
  mem : p ∈ s
  starts : p <+: q
  longest : ∀ p' ∈ s, p' <+: q → p'.length ≤ p.length

/-- There is only one. -/
theorem IsLongest.unique {s : Set (List Bool)} {q p p' : List Bool} (h : IsLongest s q p)
    (h' : IsLongest s q p') : p = p' :=
  prefix_of_prefix_length_le h.starts h'.starts (h'.longest p h.mem h.starts)
    |>.eq_of_length_le (h.longest p' h'.mem h'.starts)

/-! ### Trees that test bits -/

variable {α : Type*} {edge : α → Bool → α → Prop} {bit : α → ℕ} {label : α → ℕ → Bool}
  {x y z : α} {d : Bool}

/-- The bits grow on the way down; a child agrees with its parent up to the bit of the parent, and
is on the side of its own bit. -/
structure Routed (edge : α → Bool → α → Prop) (bit : α → ℕ) (label : α → ℕ → Bool) : Prop where
  bit_lt : ∀ {x d y}, edge x d y → bit x < bit y
  agree : ∀ {x d y}, edge x d y → Agree (bit x) (label y) (label x)
  turn : ∀ {x d y}, edge x d y → label y (bit x) = d

/-- There is a way down from `x` to `y`. -/
def Below (edge : α → Bool → α → Prop) : α → α → Prop :=
  Relation.ReflTransGen fun x y => ∃ d, edge x d y

theorem Below.step (h : Below edge x y) (hy : edge y d z) : Below edge x z := h.tail ⟨d, hy⟩

namespace Routed

variable (h : Routed edge bit label)
include h

section

variable (hxy : Below edge x y)
include hxy

theorem bit_le : bit x ≤ bit y := by
  induction hxy with
  | refl => exact le_rfl
  | tail _ hyz ih =>
    obtain ⟨d, hd⟩ := hyz
    exact ih.trans (h.bit_lt hd).le

/-- Below a node the labels agree up to its bit. -/
theorem agree_below : Agree (bit x) (label y) (label x) := by
  induction hxy with
  | refl => exact Agree.refl _ _
  | tail hxy hyz ih =>
    obtain ⟨d, hd⟩ := hyz
    exact ((h.agree hd).mono (h.bit_le hxy)).trans ih

/-- **The next node on the way** is on the side of the bit. -/
theorem next (hne : x ≠ y) : bit x < bit y ∧ ∃ z, edge x (label y (bit x)) z ∧ Below edge z y := by
  obtain rfl | ⟨z, ⟨d, hd⟩, hzy⟩ := Relation.ReflTransGen.cases_head hxy
  · exact absurd rfl hne
  · have hlt := h.bit_lt hd
    have hturn : label y (bit x) = d :=
      (h.agree_below hzy (bit x) hlt).trans (h.turn hd)
    exact ⟨hlt.trans_le (h.bit_le hzy), z, hturn ▸ hd, hzy⟩

theorem eq_of_bit_le (hle : bit y ≤ bit x) : x = y := by
  by_contra hne
  exact absurd (h.next hxy hne).1 (by omega)

end

end Routed

/-! ### Trees that hold strings -/

/-- The links of a tree, the bits of its nodes, and the strings they hold. -/
@[ext]
structure Links (α : Type*) where
  live : α → Prop
  edge : α → Bool → α → Prop
  parent : α → Option α
  key : α → Option (List Bool)
  bit : α → ℕ
  head : Option α

/-- The strings that a tree holds. -/
def Links.stored (L : Links α) : Set (List Bool) := {k | ∃ x, L.key x = some k}

/-- The links up and down belong together, every node is under the head, and a node that holds a
string holds the start of its label. -/
structure Shape (L : Links α) (label : α → ℕ → Bool) (maxbits : ℕ) : Prop where
  routed : Routed L.edge L.bit label
  functional : ∀ {x d y z}, L.edge x d y → L.edge x d z → y = z
  live_edge : ∀ {x d y}, L.edge x d y → L.live x ∧ L.live y
  parent_iff : ∀ {x y}, L.parent y = some x ↔ ∃ d, L.edge x d y
  root_iff : ∀ {y}, L.live y → (L.parent y = none ↔ L.head = some y)
  live_head : ∀ {y}, L.head = some y → L.live y
  key : ∀ {x k}, L.key x = some k → L.live x ∧ k = take (L.bit x) (label x)
  bit_le : ∀ {x}, L.live x → L.bit x ≤ maxbits

/-- Every node that holds no string has both children. -/
def Links.Full (L : Links α) : Prop := ∀ x, L.live x → L.key x = none → ∀ d, ∃ y, L.edge x d y

namespace Shape

variable {L : Links α} {maxbits : ℕ} (h : Shape L label maxbits) {k : List Bool} {a : ℕ → Bool}
include h

/-- Every node is under the head. -/
theorem below_head (hx : L.live x) : ∃ y, L.head = some y ∧ Below L.edge y x := by
  induction hn : L.bit x using Nat.strong_induction_on generalizing x with
  | _ n ih =>
    cases hp : L.parent x with
    | none => exact ⟨x, (h.root_iff hx).mp hp, Relation.ReflTransGen.refl⟩
    | some y =>
      obtain ⟨d, hd⟩ := h.parent_iff.mp hp
      obtain ⟨z, hz, hzy⟩ := ih (L.bit y) (hn ▸ h.routed.bit_lt hd) (h.live_edge hd).1 rfl
      exact ⟨z, hz, hzy.step hd⟩

theorem live_below (hxy : Below L.edge x y) (hx : L.live x) : L.live y := by
  cases hxy with
  | refl => exact hx
  | tail _ hyz =>
    obtain ⟨d, hd⟩ := hyz
    exact (h.live_edge hd).2

/-- A node whose label begins as that of another one is below it. -/
theorem below_of_agree (hzx : Below L.edge z x) (hzy : Below L.edge z y) (hle : L.bit x ≤ L.bit y)
    (hagree : Agree (L.bit x) (label x) (label y)) : Below L.edge x y := by
  induction hzx using Relation.ReflTransGen.head_induction_on with
  | refl => exact hzy
  | @head z w hzw hwx ih =>
    obtain ⟨d, hd⟩ := hzw
    have hlt : L.bit z < L.bit x := (h.routed.bit_lt hd).trans_le (h.routed.bit_le hwx)
    have hne : z ≠ y := by
      rintro rfl
      omega
    obtain ⟨-, w', hw', hw'y⟩ := h.routed.next hzy hne
    have hturn : label y (L.bit z) = d := by
      rw [← hagree _ hlt, h.routed.agree_below hwx _ (h.routed.bit_lt hd), h.routed.turn hd]
    rw [hturn] at hw'
    exact ih (h.functional hd hw' ▸ hw'y)

/-- Nodes with one bit whose labels agree up to it are one. -/
theorem eq_of_agree (hzx : Below L.edge z x) (hzy : Below L.edge z y) (hbit : L.bit x = L.bit y)
    (hagree : Agree (L.bit x) (label x) (label y)) : x = y :=
  h.routed.eq_of_bit_le (h.below_of_agree hzx hzy hbit.le hagree) hbit.ge

/-- **A string is held at one node only.** -/
theorem key_inj (hx : L.key x = some k) (hy : L.key y = some k) : x = y := by
  obtain ⟨hlx, hkx⟩ := h.key hx
  obtain ⟨hly, hky⟩ := h.key hy
  obtain ⟨z, hz, hzx⟩ := h.below_head hlx
  obtain ⟨z', hz', hzy⟩ := h.below_head hly
  obtain rfl : z = z' := some.inj (hz.symm.trans hz')
  obtain ⟨hbit, hagree⟩ := take_inj.mp (hkx.symm.trans hky)
  exact h.eq_of_agree hzx hzy hbit hagree

/-- Below every node a string is held. -/
theorem exists_key (hf : L.Full) (hx : L.live x) : ∃ y k, Below L.edge x y ∧ L.key y = some k := by
  induction hn : maxbits - L.bit x using Nat.strong_induction_on generalizing x with
  | _ n ih =>
    cases hk : L.key x with
    | some k => exact ⟨x, k, Relation.ReflTransGen.refl, hk⟩
    | none =>
      obtain ⟨y, hy⟩ := hf x hx hk false
      have hlive := (h.live_edge hy).2
      have hlt := h.routed.bit_lt hy
      have hle := h.bit_le hlive
      obtain ⟨z, k, hz, hk⟩ := ih (maxbits - L.bit y) (by omega) hlive rfl
      exact ⟨z, k, Relation.ReflTransGen.head ⟨false, hy⟩ hz, hk⟩

/-- The string at a node starts an infinite string that agrees with the label. -/
theorem key_prefix_iff {n : ℕ} (hx : L.key x = some k) :
    k <+: take n a ↔ L.bit x ≤ n ∧ Agree (L.bit x) (label x) a := by
  rw [(h.key hx).2, take_prefix_iff]

theorem prefix_key_iff {n : ℕ} (hx : L.key x = some k) :
    take n a <+: k ↔ n ≤ L.bit x ∧ Agree n a (label x) := by
  rw [(h.key hx).2, take_prefix_iff]

end Shape

/-! ### Changes -/

section Changes

variable [DecidableEq α] {L : Links α} {maxbits : ℕ} {u c : α} {k : List Bool}

/-- An empty tree gets a node. -/
def Links.plant (L : Links α) (y : α) (n : ℕ) (k : List Bool) : Links α where
  live a := L.live a ∨ a = y
  edge := L.edge
  parent := update L.parent y none
  key := update L.key y (some k)
  bit := update L.bit y n
  head := some y

/-- A leaf is attached to a node. -/
def Links.attach (L : Links α) (x : α) (d : Bool) (y : α) (n : ℕ) (k : List Bool) : Links α where
  live a := L.live a ∨ a = y
  edge a e b := L.edge a e b ∨ (a = x ∧ e = d ∧ b = y)
  parent := update L.parent y (some x)
  key := update L.key y (some k)
  bit := update L.bit y n
  head := L.head

/-- A node is put above another one, where that one was. -/
def Links.splice (L : Links α) (u : α) (y : α) (d : Bool) (n : ℕ) (k : Option (List Bool)) :
    Links α where
  live a := L.live a ∨ a = y
  edge a e b := (L.edge a e b ∧ b ≠ u) ∨ (L.edge a e u ∧ b = y) ∨ (a = y ∧ e = d ∧ b = u)
  parent := update (update L.parent y (L.parent u)) u (some y)
  key := update L.key y k
  bit := update L.bit y n
  head := if L.head = some u then some y else L.head

/-- The string at a node changes. -/
def Links.setKey (L : Links α) (x : α) (k : Option (List Bool)) : Links α :=
  { L with key := update L.key x k }

/-- A leaf is taken off. -/
def Links.detach (L : Links α) (x : α) : Links α where
  live a := L.live a ∧ a ≠ x
  edge a e b := L.edge a e b ∧ b ≠ x
  parent := update L.parent x none
  key := update L.key x none
  bit := update L.bit x 0
  head := if L.head = some x then none else L.head

/-- A node with one child is taken out, and the child stands where it was. -/
def Links.bypass (L : Links α) (x c : α) : Links α where
  live a := L.live a ∧ a ≠ x
  edge a e b := (L.edge a e b ∧ a ≠ x ∧ b ≠ x) ∨ (L.edge a e x ∧ b = c)
  parent := update (update L.parent x none) c (L.parent x)
  key := update L.key x none
  bit := update L.bit x 0
  head := if L.head = some x then some c else L.head

namespace Shape

variable {L : Links α} {maxbits : ℕ} {u : α} {k : List Bool} {ℓ : ℕ → Bool}

omit [DecidableEq α] in
/-- A node that is not in the tree has no links. -/
theorem not_edge (h : Shape L label maxbits) (hy : ¬L.live y) (d : Bool) :
    ¬L.edge x d y ∧ ¬L.edge y d x :=
  ⟨fun he => hy (h.live_edge he).2, fun he => hy (h.live_edge he).1⟩

omit [DecidableEq α] in
theorem not_live_of_head (h : Shape L label maxbits) (hhead : L.head = none) (x : α) :
    ¬L.live x := by
  intro hx
  obtain ⟨z, hz, -⟩ := h.below_head hx
  cases hhead.symm.trans hz

theorem plant (h : Shape L label maxbits) (hhead : L.head = none) (hn : n ≤ maxbits)
    (hk : k = take n ℓ) : Shape (L.plant y n k) (update label y ℓ) maxbits := by
  have hnone := h.not_live_of_head hhead
  have hedge : ∀ {a e b}, ¬L.edge a e b := fun he => hnone _ (h.live_edge he).1
  refine ⟨⟨fun he => absurd he hedge, fun he => absurd he hedge, fun he => absurd he hedge⟩,
    fun he => absurd he hedge, fun he => absurd he hedge, ?_, ?_, ?_, ?_, ?_⟩
  · intro a b
    have hparent : (L.plant y n k).parent b ≠ some a := by
      by_cases hb : b = y
      · simp [Links.plant, hb]
      · rw [show (L.plant y n k).parent b = L.parent b from update_of_ne hb .., ne_eq,
          h.parent_iff]
        rintro ⟨e, he⟩
        exact hedge he
    refine ⟨fun hb => absurd hb hparent, ?_⟩
    rintro ⟨e, he⟩
    exact absurd he hedge
  · rintro b (hb | rfl)
    · exact absurd hb (hnone b)
    · simp [Links.plant]
  · rintro b ⟨⟩
    exact .inr rfl
  · intro a k' hk'
    by_cases ha : a = y
    · subst ha
      obtain rfl : k = k' := by simpa [Links.plant] using hk'
      exact ⟨Or.inr rfl, by simpa [Links.plant] using hk⟩
    · rw [show (L.plant y n k).key a = L.key a from update_of_ne ha ..] at hk'
      exact absurd (h.key hk').1 (hnone a)
  · rintro a (ha | rfl)
    · exact absurd ha (hnone a)
    · simpa [Links.plant] using hn

theorem attach (h : Shape L label maxbits) (hx : L.live x) (hy : ¬L.live y)
    (hfree : ∀ z, ¬L.edge x d z) (hbit : L.bit x < n) (hn : n ≤ maxbits)
    (hagree : Agree (L.bit x) ℓ (label x)) (hturn : ℓ (L.bit x) = d) (hk : k = take n ℓ) :
    Shape (L.attach x d y n k) (update label y ℓ) maxbits := by
  have hne : x ≠ y := fun hxy => hy (hxy ▸ hx)
  have hold : ∀ {a e b}, L.edge a e b → a ≠ y ∧ b ≠ y := by
    intro a e b he
    exact ⟨fun ha => (h.not_edge hy e).2 (ha ▸ he), fun hb => (h.not_edge hy e).1 (hb ▸ he)⟩
  refine ⟨⟨?_, ?_, ?_⟩, ?_, ?_, ?_, ?_, ?_, ?_, ?_⟩
  · rintro a e b (he | ⟨rfl, rfl, rfl⟩)
    · simpa [Links.attach, (hold he).1, (hold he).2] using h.routed.bit_lt he
    · simpa [Links.attach, hne] using hbit
  · rintro a e b (he | ⟨rfl, rfl, rfl⟩)
    · simpa [Links.attach, (hold he).1, (hold he).2] using h.routed.agree he
    · simpa [Links.attach, hne] using hagree
  · rintro a e b (he | ⟨rfl, rfl, rfl⟩)
    · simpa [Links.attach, (hold he).1, (hold he).2] using h.routed.turn he
    · simpa [Links.attach, hne] using hturn
  · rintro a e b b' (he | ⟨rfl, rfl, rfl⟩) (he' | ⟨h1, h2, rfl⟩)
    · exact h.functional he he'
    · exact absurd (h1 ▸ h2 ▸ he) (hfree b)
    · exact absurd he' (hfree b')
    · rfl
  · rintro a e b (he | ⟨rfl, rfl, rfl⟩)
    · exact ⟨Or.inl (h.live_edge he).1, Or.inl (h.live_edge he).2⟩
    · exact ⟨Or.inl hx, Or.inr rfl⟩
  · intro a b
    by_cases hb : b = y
    · subst hb
      rw [show (L.attach x d b n k).parent b = some x from update_self .., some.injEq]
      constructor
      · rintro rfl
        exact ⟨d, Or.inr ⟨rfl, rfl, rfl⟩⟩
      · rintro ⟨e, he | ⟨rfl, -, -⟩⟩
        · exact absurd rfl (hold he).2
        · rfl
    · rw [show (L.attach x d y n k).parent b = L.parent b from update_of_ne hb ..,
        h.parent_iff]
      constructor
      · rintro ⟨e, he⟩
        exact ⟨e, Or.inl he⟩
      · rintro ⟨e, he | ⟨-, -, hby⟩⟩
        · exact ⟨e, he⟩
        · exact absurd hby hb
  · rintro b (hb | rfl)
    · have hby : b ≠ y := fun hby => hy (hby ▸ hb)
      simpa [Links.attach, hby] using h.root_iff hb
    · have hhead : L.head ≠ some b := fun hhead => hy (h.live_head hhead)
      simp [Links.attach, hhead]
  · exact fun hb => .inl (h.live_head hb)
  · intro a k' hk'
    by_cases ha : a = y
    · subst ha
      obtain rfl : k = k' := by simpa [Links.attach] using hk'
      exact ⟨Or.inr rfl, by simpa [Links.attach] using hk⟩
    · rw [show (L.attach x d y n k).key a = L.key a from update_of_ne ha ..] at hk'
      obtain ⟨hlive, heq⟩ := h.key hk'
      exact ⟨Or.inl hlive, by simpa [Links.attach, ha] using heq⟩
  · rintro a (ha | rfl)
    · have hay : a ≠ y := fun hay => hy (hay ▸ ha)
      simpa [Links.attach, hay] using h.bit_le ha
    · simpa [Links.attach] using hn

variable {k : Option (List Bool)}

section

variable (h : Shape L label maxbits)
include h

theorem splice (hu : L.live u)
    (hy : ¬L.live y) (hn : n < L.bit u) (hparent : ∀ q, L.parent u = some q → L.bit q < n)
    (hagree : Agree n (label u) ℓ) (hturn : label u n = d)
    (hk : ∀ k', k = some k' → k' = take n ℓ) :
    Shape (L.splice u y d n k) (update label y ℓ) maxbits := by
  have hne : u ≠ y := fun huy => hy (huy ▸ hu)
  have hold : ∀ {a e b}, L.edge a e b → a ≠ y ∧ b ≠ y := by
    intro a e b he
    exact ⟨fun ha => (h.not_edge hy e).2 (ha ▸ he), fun hb => (h.not_edge hy e).1 (hb ▸ he)⟩
  have habove : ∀ {a e}, L.edge a e u → L.bit a < n := fun he =>
    hparent _ (h.parent_iff.mpr ⟨_, he⟩)
  refine ⟨⟨?_, ?_, ?_⟩, ?_, ?_, ?_, ?_, ?_, ?_, ?_⟩
  · rintro a e b (⟨he, -⟩ | ⟨he, rfl⟩ | ⟨rfl, rfl, rfl⟩)
    · simpa [Links.splice, (hold he).1, (hold he).2] using h.routed.bit_lt he
    · simpa [Links.splice, (hold he).1] using habove he
    · simpa [Links.splice, hne] using hn
  · rintro a e b (⟨he, -⟩ | ⟨he, rfl⟩ | ⟨rfl, rfl, rfl⟩)
    · simpa [Links.splice, (hold he).1, (hold he).2] using h.routed.agree he
    · have hup := (hagree.symm.mono (habove he).le).trans (h.routed.agree he)
      simpa [Links.splice, (hold he).1] using hup
    · simpa [Links.splice, hne] using hagree
  · rintro a e b (⟨he, -⟩ | ⟨he, rfl⟩ | ⟨rfl, rfl, rfl⟩)
    · simpa [Links.splice, (hold he).1, (hold he).2] using h.routed.turn he
    · have hup := (hagree _ (habove he)).symm.trans (h.routed.turn he)
      simpa [Links.splice, (hold he).1] using hup
    · simpa [Links.splice, hne] using hturn
  · rintro a e b b' (⟨he, hb⟩ | ⟨he, rfl⟩ | ⟨rfl, rfl, rfl⟩) (⟨he', hb'⟩ | ⟨he', rfl⟩ | ⟨h1, h2,
      rfl⟩)
    · exact h.functional he he'
    · exact absurd (h.functional he he') hb
    · exact absurd h1 (hold he).1
    · exact absurd (h.functional he' he) hb'
    · rfl
    · exact absurd h1 (hold he).1
    · exact absurd rfl (hold he').1
    · exact absurd rfl (hold he').1
    · rfl
  · rintro a e b (⟨he, -⟩ | ⟨he, rfl⟩ | ⟨rfl, rfl, rfl⟩)
    · exact ⟨Or.inl (h.live_edge he).1, Or.inl (h.live_edge he).2⟩
    · exact ⟨Or.inl (h.live_edge he).1, Or.inr rfl⟩
    · exact ⟨Or.inr rfl, Or.inl hu⟩
  · intro a b
    by_cases hbu : b = u
    · subst hbu
      rw [show (L.splice b y d n k).parent b = some y from update_self ..,
        some.injEq]
      constructor
      · rintro rfl
        exact ⟨d, Or.inr (.inr ⟨rfl, rfl, rfl⟩)⟩
      · rintro ⟨e, ⟨-, hb⟩ | ⟨-, hb⟩ | ⟨rfl, -, -⟩⟩
        · exact absurd rfl hb
        · exact absurd hb hne
        · rfl
    · by_cases hby : b = y
      · subst hby
        rw [show (L.splice u b d n k).parent b = L.parent u from
          (update_of_ne hbu ..).trans (update_self ..), h.parent_iff]
        constructor
        · rintro ⟨e, he⟩
          exact ⟨e, Or.inr (.inl ⟨he, rfl⟩)⟩
        · rintro ⟨e, ⟨he, -⟩ | ⟨he, -⟩ | ⟨-, -, hb⟩⟩
          · exact absurd rfl (hold he).2
          · exact ⟨e, he⟩
          · exact absurd hb hbu
      · rw [show (L.splice u y d n k).parent b = L.parent b from
          (update_of_ne hbu ..).trans (update_of_ne hby ..), h.parent_iff]
        constructor
        · rintro ⟨e, he⟩
          exact ⟨e, Or.inl ⟨he, hbu⟩⟩
        · rintro ⟨e, ⟨he, -⟩ | ⟨-, hb⟩ | ⟨-, -, hb⟩⟩
          · exact ⟨e, he⟩
          · exact absurd hb hby
          · exact absurd hb hbu
  · have hhead : (L.splice u y d n k).head = if L.head = some u then some y else L.head := rfl
    rintro b (hb | rfl)
    · have hby : b ≠ y := fun hby => hy (hby ▸ hb)
      by_cases hbu : b = u
      · subst hbu
        rw [show (L.splice b y d n k).parent b = some y from update_self .., hhead]
        split_ifs with hroot
        · simp [Ne.symm hby]
        · simp [hroot]
      · rw [show (L.splice u y d n k).parent b = L.parent b from
          (update_of_ne hbu ..).trans (update_of_ne hby ..), h.root_iff hb, hhead]
        split_ifs with hroot
        · simp [hroot, Ne.symm hbu, Ne.symm hby]
        · rfl
    · have hby : b ≠ u := fun hbu => hy (hbu ▸ hu)
      rw [show (L.splice u b d n k).parent b = L.parent u from
        (update_of_ne hby ..).trans (update_self ..), h.root_iff hu, hhead]
      split_ifs with hroot
      · simp [hroot]
      · have hno : L.head ≠ some b := fun hb => hy (h.live_head hb)
        simp [hroot, hno]
  · intro b hb
    rw [show (L.splice u y d n k).head = if L.head = some u then some y else L.head from rfl] at hb
    split_ifs at hb
    · exact .inr (some.inj hb).symm
    · exact .inl (h.live_head hb)
  · intro a k' hk'
    by_cases ha : a = y
    · subst ha
      obtain rfl : k = some k' := by simpa [Links.splice] using hk'
      exact ⟨Or.inr rfl, by simpa [Links.splice] using hk k' rfl⟩
    · rw [show (L.splice u y d n k).key a = L.key a from update_of_ne ha ..] at hk'
      obtain ⟨hlive, heq⟩ := h.key hk'
      exact ⟨Or.inl hlive, by simpa [Links.splice, ha] using heq⟩
  · rintro a (ha | rfl)
    · have hay : a ≠ y := fun hay => hy (hay ▸ ha)
      simpa [Links.splice, hay] using h.bit_le ha
    · simpa [Links.splice] using hn.le.trans (h.bit_le hu)

theorem setKey (hx : L.live x) (hk : ∀ k', k = some k' → k' = take (L.bit x) (label x)) :
    Shape (L.setKey x k) label maxbits where
  routed := h.routed
  functional := h.functional
  live_edge := h.live_edge
  parent_iff := h.parent_iff
  root_iff := h.root_iff
  live_head := h.live_head
  key := by
    intro a k' hk'
    by_cases ha : a = x
    · subst ha
      exact ⟨hx, hk k' (by simpa [Links.setKey] using hk')⟩
    · rw [show (L.setKey x k).key a = L.key a from update_of_ne ha ..] at hk'
      exact h.key hk'
  bit_le := h.bit_le

theorem detach (hleaf : ∀ d z, ¬L.edge x d z) : Shape (L.detach x) label maxbits := by
  have hold : ∀ {a e b}, L.edge a e b → a ≠ x := fun he ha => hleaf _ _ (ha ▸ he)
  refine ⟨⟨?_, ?_, ?_⟩, ?_, ?_, ?_, ?_, ?_, ?_, ?_⟩
  · rintro a e b ⟨he, hb⟩
    simpa [Links.detach, hold he, hb] using h.routed.bit_lt he
  · rintro a e b ⟨he, hb⟩
    simpa [Links.detach, hold he] using h.routed.agree he
  · rintro a e b ⟨he, hb⟩
    simpa [Links.detach, hold he] using h.routed.turn he
  · exact fun he he' => h.functional he.1 he'.1
  · rintro a e b ⟨he, hb⟩
    exact ⟨⟨(h.live_edge he).1, hold he⟩, (h.live_edge he).2, hb⟩
  · intro a b
    by_cases hb : b = x
    · subst hb
      rw [show (L.detach b).parent b = none from update_self ..]
      constructor
      · rintro ⟨⟩
      · rintro ⟨e, -, hb⟩
        exact absurd rfl hb
    · rw [show (L.detach x).parent b = L.parent b from update_of_ne hb .., h.parent_iff]
      constructor
      · rintro ⟨e, he⟩
        exact ⟨e, he, hb⟩
      · rintro ⟨e, he, -⟩
        exact ⟨e, he⟩
  · rintro b ⟨hb, hbx⟩
    rw [show (L.detach x).parent b = L.parent b from update_of_ne hbx .., h.root_iff hb,
      show (L.detach x).head = if L.head = some x then none else L.head from rfl]
    split_ifs with hroot
    · simp [hroot, Ne.symm hbx]
    · rfl
  · intro b hb
    rw [show (L.detach x).head = if L.head = some x then none else L.head from rfl] at hb
    split_ifs at hb with hroot
    exact ⟨h.live_head hb, fun hbx => hroot (hbx ▸ hb)⟩
  · intro a k' hk'
    have ha : a ≠ x := by
      rintro rfl
      simp [Links.detach] at hk'
    rw [show (L.detach x).key a = L.key a from update_of_ne ha ..] at hk'
    obtain ⟨hlive, heq⟩ := h.key hk'
    exact ⟨⟨hlive, ha⟩, by simpa [Links.detach, ha] using heq⟩
  · rintro a ⟨ha, hax⟩
    simpa [Links.detach, hax] using h.bit_le ha

theorem bypass {c : α} (hc : L.edge x d c)
    (honly : ∀ e z, L.edge x e z → z = c) : Shape (L.bypass x c) label maxbits := by
  have hirrefl : ∀ {a e b}, L.edge a e b → a ≠ b := by
    rintro a e b he rfl
    exact lt_irrefl _ (h.routed.bit_lt he)
  have hcx : c ≠ x := (hirrefl hc).symm
  have hparent : L.parent c = some x := h.parent_iff.mpr ⟨d, hc⟩
  refine ⟨⟨?_, ?_, ?_⟩, ?_, ?_, ?_, ?_, ?_, ?_, ?_⟩
  · rintro a e b (⟨he, ha, hb⟩ | ⟨he, rfl⟩)
    · simpa [Links.bypass, ha, hb] using h.routed.bit_lt he
    · simpa [Links.bypass, hirrefl he, hcx] using (h.routed.bit_lt he).trans (h.routed.bit_lt hc)
  · rintro a e b (⟨he, ha, hb⟩ | ⟨he, rfl⟩)
    · simpa [Links.bypass, ha] using h.routed.agree he
    · have hup := ((h.routed.agree hc).mono (h.routed.bit_lt he).le).trans (h.routed.agree he)
      simpa [Links.bypass, hirrefl he] using hup
  · rintro a e b (⟨he, ha, hb⟩ | ⟨he, rfl⟩)
    · simpa [Links.bypass, ha] using h.routed.turn he
    · have hup := (h.routed.agree hc _ (h.routed.bit_lt he)).trans (h.routed.turn he)
      simpa [Links.bypass, hirrefl he] using hup
  · rintro a e b b' (⟨he, -, hb⟩ | ⟨he, rfl⟩) (⟨he', -, hb'⟩ | ⟨he', rfl⟩)
    · exact h.functional he he'
    · exact absurd (h.functional he he') hb
    · exact absurd (h.functional he' he) hb'
    · rfl
  · rintro a e b (⟨he, ha, hb⟩ | ⟨he, rfl⟩)
    · exact ⟨⟨(h.live_edge he).1, ha⟩, (h.live_edge he).2, hb⟩
    · exact ⟨⟨(h.live_edge he).1, hirrefl he⟩, (h.live_edge hc).2, hcx⟩
  · intro a b
    by_cases hbc : b = c
    · subst hbc
      rw [show (L.bypass x b).parent b = L.parent x from update_self .., h.parent_iff]
      constructor
      · rintro ⟨e, he⟩
        exact ⟨e, Or.inr ⟨he, rfl⟩⟩
      · rintro ⟨e, ⟨he, ha, -⟩ | ⟨he, -⟩⟩
        · have hsame := (h.parent_iff.mpr ⟨e, he⟩).symm.trans hparent
          exact absurd (some.inj hsame) ha
        · exact ⟨e, he⟩
    · by_cases hbx : b = x
      · subst hbx
        rw [show (L.bypass b c).parent b = none from
          (update_of_ne hbc ..).trans (update_self ..)]
        constructor
        · rintro ⟨⟩
        · rintro ⟨e, ⟨-, -, hb⟩ | ⟨-, hb⟩⟩
          · exact absurd rfl hb
          · exact absurd hb hbc
      · rw [show (L.bypass x c).parent b = L.parent b from
          (update_of_ne hbc ..).trans (update_of_ne hbx ..), h.parent_iff]
        constructor
        · rintro ⟨e, he⟩
          refine ⟨e, Or.inl ⟨he, ?_, hbx⟩⟩
          rintro rfl
          exact hbc (honly e b he)
        · rintro ⟨e, ⟨he, -, -⟩ | ⟨-, hb⟩⟩
          · exact ⟨e, he⟩
          · exact absurd hb hbc
  · have hhead : (L.bypass x c).head = if L.head = some x then some c else L.head := rfl
    rintro b ⟨hb, hbx⟩
    by_cases hbc : b = c
    · subst hbc
      rw [show (L.bypass x b).parent b = L.parent x from update_self ..,
        h.root_iff (h.live_edge hc).1, hhead]
      split_ifs with hroot
      · simp [hroot]
      · have hno : L.head ≠ some b := fun hhead => by
          simp [(h.root_iff hb).mpr hhead] at hparent
        simp [hroot, hno]
    · rw [show (L.bypass x c).parent b = L.parent b from
        (update_of_ne hbc ..).trans (update_of_ne hbx ..), h.root_iff hb, hhead]
      split_ifs with hroot
      · simp [hroot, Ne.symm hbx, Ne.symm hbc]
      · rfl
  · intro b hb
    rw [show (L.bypass x c).head = if L.head = some x then some c else L.head from rfl] at hb
    split_ifs at hb with hroot
    · cases hb
      exact ⟨(h.live_edge hc).2, hcx⟩
    · exact ⟨h.live_head hb, fun hbx => hroot (hbx ▸ hb)⟩
  · intro a k' hk'
    have ha : a ≠ x := by
      rintro rfl
      simp [Links.bypass] at hk'
    rw [show (L.bypass x c).key a = L.key a from update_of_ne ha ..] at hk'
    obtain ⟨hlive, heq⟩ := h.key hk'
    exact ⟨⟨hlive, ha⟩, by simpa [Links.bypass, ha] using heq⟩
  · rintro a ⟨ha, hax⟩
    simpa [Links.bypass, hax] using h.bit_le ha

end

end Shape

/-! ### The strings that are held, and nodes with both children -/

theorem stored_update_some (key : α → Option (List Bool)) (hy : key y = none) :
    {k' | ∃ x, update key y (some k) x = some k'} =
      insert k {k' | ∃ x, key x = some k'} := by
  ext k'
  constructor
  · rintro ⟨x, hx⟩
    by_cases hxy : x = y
    · subst hxy
      rw [update_self] at hx
      exact .inl (some.inj hx).symm
    · rw [update_of_ne hxy] at hx
      exact .inr ⟨x, hx⟩
  · rintro (rfl | ⟨x, hx⟩)
    · exact ⟨y, update_self ..⟩
    · refine ⟨x, ?_⟩
      rw [update_of_ne (by rintro rfl; simp [hy] at hx), hx]

/-- When a node loses its string, the tree no longer holds it. -/
theorem Shape.stored_update_none (h : Shape L label maxbits) (hx : L.key x = some k) :
    {k' | ∃ y, update L.key x none y = some k'} = L.stored \ {k} := by
  ext k'
  constructor
  · rintro ⟨y, hy⟩
    by_cases hyx : y = x
    · subst hyx
      simp at hy
    · rw [update_of_ne hyx] at hy
      refine ⟨⟨y, hy⟩, ?_⟩
      rintro rfl
      exact hyx (h.key_inj hy hx)
  · rintro ⟨⟨y, hy⟩, hne⟩
    refine ⟨y, ?_⟩
    rw [update_of_ne (by rintro rfl; exact hne (some.inj (hy.symm.trans hx))), hy]

/-- Every node but one that holds no string has both children. -/
def Links.FullBut (L : Links α) (x : α) : Prop :=
  ∀ a, a ≠ x → L.live a → L.key a = none → ∀ d, ∃ y, L.edge a d y

omit [DecidableEq α] in
theorem Links.Full.but (hf : L.Full) (x : α) : L.FullBut x := fun a _ => hf a

theorem Links.FullBut.full (hf : L.FullBut x)
    (hx : L.live x → L.key x = none → ∀ d, ∃ y, L.edge x d y) :
    L.Full := by
  intro a ha hk
  by_cases hax : a = x
  · subst hax
    exact hx ha hk
  · exact hf a hax ha hk

theorem Links.FullBut.attach (hf : L.FullBut u) (n : ℕ) : (L.attach x d y n k).FullBut u := by
  intro a hau ha hk e
  by_cases hay : a = y
  · subst hay
    simp [Links.attach] at hk
  · obtain ⟨b, hb⟩ := hf a hau (ha.resolve_right hay) (by simpa [Links.attach, hay] using hk) e
    exact ⟨b, Or.inl hb⟩

theorem Links.Full.splice (hf : L.Full) (n : ℕ) (k : Option (List Bool)) :
    (L.splice u y d n k).FullBut y := by
  intro a hay ha hk e
  obtain ⟨b, hb⟩ := hf a (ha.resolve_right hay) (by simpa [Links.splice, hay] using hk) e
  by_cases hbu : b = u
  · exact ⟨y, Or.inr (.inl ⟨hbu ▸ hb, rfl⟩)⟩
  · exact ⟨b, Or.inl ⟨hb, hbu⟩⟩

theorem Links.Full.setKey (hf : L.Full) {k : Option (List Bool)}
    (hx : k = none → ∀ d, ∃ y, L.edge x d y) : (L.setKey x k).Full := by
  intro a ha hk
  by_cases hax : a = x
  · subst hax
    exact hx (by simpa [Links.setKey] using hk)
  · exact hf a ha (by simpa [Links.setKey, hax] using hk)

theorem Links.Full.detach (hf : L.Full) (hu : ∀ a e, L.edge a e x → a = u) :
    (L.detach x).FullBut u := by
  rintro a hau ⟨ha, hax⟩ hk e
  obtain ⟨b, hb⟩ := hf a ha (by simpa [Links.detach, hax] using hk) e
  exact ⟨b, hb, fun hbx => hau (hu a e (hbx ▸ hb))⟩

theorem Links.FullBut.bypass (hf : L.FullBut x) (c : α) : (L.bypass x c).Full := by
  rintro a ⟨ha, hax⟩ hk e
  obtain ⟨b, hb⟩ := hf a hax ha (by simpa [Links.bypass, hax] using hk) e
  by_cases hbx : b = x
  · exact ⟨c, Or.inr ⟨hbx ▸ hb, rfl⟩⟩
  · exact ⟨b, Or.inl ⟨hb, hax, hbx⟩⟩

end Changes

end Ratbox.CritBit
