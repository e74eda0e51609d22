import Ratbox.Lib.Run
import Ratbox.Patricia.Update

/-!
# Runs of a patricia tree

The users of a tree insert prefixes, keep the nodes that they are given, write their data, and
remove them again. A prefix is in the tree from its insertion to its removal.

Source: `libratbox/src/patricia.c`.

## Main definitions

* `Patricia.User`, `Patricia.step`: the tree, the nodes its user holds, and the set of the prefixes
  that were inserted and not removed.
* `Patricia.Represents`: the tree is the set.

## Main results

* `Patricia.tree_represents`: after every run the tree is the set.
-/

namespace Ratbox.Patricia

open Address CritBit Run Option Function Tree

variable {δ : Type} {t : Tree δ} {a : Addr} {label : Addr → ℕ → Bool} {q : Prefix}

/-- A prefix of a family, as `ascii2prefix` and `make_prefix` make it. -/
structure Prefix.Fits (p : Prefix) (f : Family) : Prop where
  family : p.family = f
  bytes : p.add.length * 8 = f.bits
  bitlen : p.bitlen ≤ f.bits

instance (p : Prefix) (f : Family) : Decidable (p.Fits f) :=
  decidable_of_iff (p.family = f ∧ p.add.length * 8 = f.bits ∧ p.bitlen ≤ f.bits)
    ⟨fun h => ⟨h.1, h.2.1, h.2.2⟩, fun h => ⟨h.1, h.2, h.3⟩⟩

/-- `node->data = x`. -/
def Tree.write (t : Tree δ) (a : Addr) (x : Option δ) : Tree δ :=
  t.modify a fun n => { n with data := x }

/-- The user of a tree: the nodes that it was given for prefixes, and the set of the prefixes that
it inserted and did not remove. -/
structure User (δ : Type) where
  tree : Tree δ
  held : Addr → Option Prefix
  stored : Set (List Bool)

/-- A user with a new tree. -/
def start (maxbits : ℕ) : User δ := ⟨new maxbits, fun _ => none, ∅⟩

/-- What a user does. -/
inductive Op (δ : Type)
  | lookup (p : Prefix)
  | remove (a : Addr)
  | write (a : Addr) (x : Option δ)

/-- Prefixes of the family are inserted, and nodes are removed and written that the user holds. -/
def Op.Valid (f : Family) (s : User δ) : Op δ → Prop
  | .lookup p => p.Fits f
  | .remove a => ∃ q, s.held a = some q
  | .write a _ => ∃ q, s.held a = some q

/-- A step of a user. -/
def step (s : User δ) : Op δ → Option (User δ)
  | .lookup p => do
    let (t, a) ← s.tree.lookup p
    some ⟨t, update s.held a (some p), insert p.key s.stored⟩
  | .remove a => do
    let q ← s.held a
    let t ← s.tree.remove a
    some ⟨t, update s.held a none, s.stored \ {q.key}⟩
  | .write a x => some { s with tree := s.tree.write a x }

/-! ### The nodes of the user are those with prefixes -/

/-- The tree has its invariant; the nodes that the user holds are those with prefixes, and their
prefixes are the set. -/
structure Good (f : Family) (maxbits : ℕ) (s : User δ) : Prop where
  inv : ∃ label, Inv s.tree label
  maxbits : s.tree.maxbits = maxbits
  bits : f.bits ≤ s.tree.maxbits
  held : ∀ a, s.tree.links.key a = (s.held a).map (·.key)
  fits : ∀ a q, s.held a = some q → q.Fits f
  stored : s.stored = s.tree.links.stored

/-- The keys after the prefix at a node is another one. -/
theorem key_update {t' : Tree δ} {q : Option Prefix} (h : t'.pfxAt = update t.pfxAt a q) :
    t'.links.key = update t.links.key a (q.map (·.key)) := by
  funext b
  rw [key_pfxAt, h]
  by_cases hb : b = a
  · rw [hb, update_self, update_self]
  · rw [update_of_ne hb, update_of_ne hb, key_pfxAt]

/-- Inserting puts the bits of the prefix at the node that is returned. -/
theorem Tree.Inv.lookup_key (h : Inv t label) {p : Prefix} (hp : p.bitlen ≤ t.maxbits) :
    ∃ t' a label', t.lookup p = some (t', a) ∧ Inv t' label' ∧ t'.maxbits = t.maxbits ∧
      t'.dataAt = t.dataAt ∧ t'.links.key = update t.links.key a (some p.key) ∧
      t'.links.stored = insert p.key t.links.stored ∧
      ∃ n, t'.node a = some n ∧ n.pfx.isSome := by
  obtain ⟨t', a, label', hlookup, hinv, hmax, hdata, hpfx⟩ := h.lookup hp
  have hkeys : t'.links.key = update t.links.key a (some p.key) := by
    obtain ⟨q, hq, hkey, rfl⟩ | ⟨-, hnew⟩ := hpfx
    · refine (update_eq_self_iff.mpr ?_).symm
      rw [key_pfxAt, hq, map_some, hkey]
    · rw [key_update hnew, map_some]
  refine ⟨t', a, label', hlookup, hinv, hmax, hdata, hkeys, ?_, ?_⟩
  · obtain ⟨q, hq, hkey, rfl⟩ | ⟨hnone, -⟩ := hpfx
    · have hmem : t'.links.key a = some p.key := by rw [key_pfxAt, hq, map_some, hkey]
      exact (Set.insert_eq_of_mem (show p.key ∈ t'.links.stored from ⟨a, hmem⟩)).symm
    · rw [Links.stored, Links.stored, hkeys]
      refine stored_update_some _ ?_
      rw [key_pfxAt, hnone, map_none]
  · have hkey : t'.links.key a = some p.key := by rw [hkeys, update_self]
    obtain ⟨n, hn, hpfx⟩ := bind_eq_some_iff.mp hkey
    obtain ⟨q, hq, -⟩ := map_eq_some_iff.mp hpfx
    exact ⟨n, hn, by rw [hq]; rfl⟩

variable {f : Family} {maxbits : ℕ} {s : User δ}

theorem Good.lookup (h : Good f maxbits s) {p : Prefix}
    (hp : p.Fits f) : ∃ s', step s (.lookup p) = some s' ∧ Good f maxbits s' := by
  obtain ⟨label, hinv⟩ := h.inv
  obtain ⟨t, a, label', hlookup, hinv', hmax, -, hkeys, hstored, -⟩ :=
    hinv.lookup_key (hp.bitlen.trans h.bits)
  refine ⟨_, by rw [step, hlookup]; rfl, ⟨label', hinv'⟩, hmax.trans h.maxbits, hmax ▸ h.bits, ?_,
    ?_, ?_⟩
  · intro b
    dsimp only
    rw [hkeys]
    by_cases hb : b = a
    · rw [hb, update_self, update_self, map_some]
    · rw [update_of_ne hb, update_of_ne hb, h.held]
  · intro b q hq
    dsimp only at hq
    by_cases hb : b = a
    · rw [hb, update_self] at hq
      exact some.inj hq ▸ hp
    · rw [update_of_ne hb] at hq
      exact h.fits b q hq
  · dsimp only
    rw [h.stored, hstored]

/-- A node that the user holds has a prefix. -/
theorem Good.node (h : Good f maxbits s)
    (hq : s.held a = some q) : ∃ n, s.tree.node a = some n ∧ n.pfx.isSome := by
  have hkey : s.tree.links.key a = some q.key := by rw [h.held, hq, map_some]
  obtain ⟨n, hn, hpfx⟩ := bind_eq_some_iff.mp hkey
  obtain ⟨q', hq', -⟩ := map_eq_some_iff.mp hpfx
  exact ⟨n, hn, by rw [hq']; rfl⟩

theorem Good.remove (h : Good f maxbits s)
    (hq : s.held a = some q) : ∃ s', step s (.remove a) = some s' ∧ Good f maxbits s' := by
  obtain ⟨label, hinv⟩ := h.inv
  obtain ⟨n, hn, -⟩ := h.node hq
  obtain ⟨t, hremove, hinv', hmax, hnew, -⟩ := hinv.remove hn
  refine ⟨_, by rw [step, hq, bind_eq_bind, bind_some, hremove]; rfl, ⟨label, hinv'⟩,
    hmax.trans h.maxbits, hmax ▸ h.bits, ?_, ?_, ?_⟩
  · intro b
    dsimp only
    rw [key_update hnew]
    by_cases hb : b = a
    · rw [hb, update_self, update_self]
    · rw [update_of_ne hb, update_of_ne hb, h.held]
  · intro b q' hq'
    dsimp only at hq'
    by_cases hb : b = a
    · rw [hb, update_self] at hq'
      cases hq'
    · rw [update_of_ne hb] at hq'
      exact h.fits b q' hq'
  · dsimp only
    have hkey : s.tree.links.key a = some q.key := by rw [h.held, hq, map_some]
    rw [h.stored, ← hinv.shape.stored_update_none hkey, Links.stored, key_update hnew,
      map_none]

/-- Writing the data of a node with a prefix keeps the invariant. -/
theorem Tree.Inv.write (h : Inv t label)
    {n : Node δ} (hn : t.node a = some n) (hp : n.pfx.isSome) (x : Option δ) :
    Inv (t.write a x) label ∧ (t.write a x).links = t.links := by
  have hlinks : (t.write a x).links = t.links := by
    rw [Tree.write, links_modify hn rfl rfl]
    dsimp only
    rw [← parent_eq hn, ← key_eq hn, update_eq_self, update_eq_self]
  refine ⟨⟨hlinks ▸ h.shape, hlinks ▸ h.full, h.sane.modify hn fun hnone => ?_⟩, hlinks⟩
  rw [show n.pfx = none from hnone] at hp
  cases hp

theorem Good.write (h : Good f maxbits s) (hq : s.held a = some q) (x : Option δ) :
    Good f maxbits { s with tree := s.tree.write a x } := by
  obtain ⟨label, hinv⟩ := h.inv
  obtain ⟨n, hn, hpfx⟩ := h.node hq
  obtain ⟨hinv', hlinks⟩ := hinv.write hn hpfx x
  refine ⟨⟨label, hinv'⟩, h.maxbits, h.bits, ?_, h.fits, ?_⟩
  · dsimp only
    rw [hlinks]
    exact h.held
  · dsimp only
    rw [hlinks]
    exact h.stored

/-- A new tree is empty. -/
theorem inv_new (maxbits : ℕ) : Inv (new maxbits : Tree δ) (fun _ _ => false) := by
  have hnode : ∀ a, (new maxbits : Tree δ).node a = none := fun _ => rfl
  have hedge : ∀ {a d c}, ¬(new maxbits : Tree δ).links.edge a d c := by
    rintro a d c ⟨n, hn, -⟩
    exact absurd hn (by simp [hnode])
  have hlive : ∀ {a}, ¬(new maxbits : Tree δ).links.live a := by
    intro a
    simp [links, hnode]
  refine ⟨⟨⟨fun h => absurd h hedge, fun h => absurd h hedge, fun h => absurd h hedge⟩,
    fun h => absurd h hedge, fun h => absurd h hedge, ?_, fun h => absurd h hlive, ?_, ?_,
    fun h => absurd h hlive⟩, fun a h => absurd h hlive, ⟨?_, ?_, ?_⟩⟩
  · intro a b
    constructor
    · intro hb
      simp [links, hnode] at hb
    · rintro ⟨d, hd⟩
      exact absurd hd hedge
  · rintro a ⟨⟩
  · intro a k hk
    simp [links, hnode] at hk
  · intro a n hn
    exact absurd hn (by simp [hnode])
  · intro a n hn
    exact absurd hn (by simp [hnode])
  · simp [nodes, new]

theorem Good.start (h : f.bits ≤ maxbits) : Good f maxbits (start maxbits : User δ) := by
  refine ⟨⟨_, inv_new maxbits⟩, rfl, h, fun a => rfl, ?_, ?_⟩
  · rintro a q ⟨⟩
  · refine (Set.eq_empty_of_forall_notMem ?_).symm
    rintro k ⟨a, ha⟩
    exact absurd ha (by simp [Patricia.start, new, links])

/-- **Steps** of a user can be made, and keep the invariant. -/
theorem Good.step (h : Good f maxbits s) {o : Op δ} (ho : o.Valid f s) :
    ∃ s', step s o = some s' ∧ Good f maxbits s' := by
  cases o with
  | lookup p => exact h.lookup ho
  | remove a =>
    obtain ⟨q, hq⟩ := ho
    exact h.remove hq
  | write a x =>
    obtain ⟨q, hq⟩ := ho
    exact ⟨_, rfl, h.write hq x⟩

/-! ### The tree is the set -/

/-- The nodes with prefixes, and those without. -/
def Tree.addrs (t : Tree δ) (glue : Bool) : Finset Addr :=
  (Finset.range t.fresh).filter fun a => (t.node a).any fun n => n.pfx.isNone == glue

/-- The tree is the set of the prefixes that were inserted and not removed. -/
structure Represents (f : Family) (s : User δ) : Prop where
  exact : ∀ p : Prefix, p.Fits f → ∃ r, s.tree.searchExact p = some r ∧
    (r ≠ none ↔ p.key ∈ s.stored) ∧ ∀ a, r = some a ↔ ∃ q, s.held a = some q ∧ q.key = p.key
  glue : ∀ a n, s.tree.node a = some n → n.pfx = none → ∃ l r, n.l = some l ∧ n.r = some r
  child : ∀ a n d c, s.tree.node a = some n → n.child d = some c →
    ∃ m, s.tree.node c = some m ∧ n.bit < m.bit ∧ m.parent = some a
  parent : ∀ a n q, s.tree.node a = some n → n.parent = some q →
    ∃ m d, s.tree.node q = some m ∧ m.child d = some a
  root : ∀ a n, s.tree.node a = some n → (n.parent = none ↔ s.tree.head = some a)
  count : s.tree.numActiveNode = (s.tree.addrs false).card + (s.tree.addrs true).card
  held : ∀ a, a ∈ s.tree.addrs false ↔ s.held a ≠ none
  best : ∀ p : Prefix, p.Fits f → p.bitlen = f.bits → ∃ r, s.tree.searchBest p = some r ∧
    (∀ a, r = some a → ∃ q, s.held a = some q ∧ IsLongest s.stored p.key q.key) ∧
    (r = none ↔ ∀ k ∈ s.stored, ¬k <+: p.key)

theorem Tree.Sane.card_addrs (h : t.Sane) :
    t.numActiveNode = (t.addrs false).card + (t.addrs true).card := by
  have hsplit : (Finset.range t.fresh).filter (fun a => (t.node a).isSome) =
      t.addrs false ∪ t.addrs true := by
    ext a
    cases hn : t.node a with
    | none => simp [addrs, hn]
    | some n => cases hp : n.pfx <;> simp [addrs, hn, hp]
  have hdisjoint : Disjoint (t.addrs false) (t.addrs true) := by
    refine Finset.disjoint_left.mpr fun a ha ha' => ?_
    cases hn : t.node a with
    | none => simp [addrs, hn] at ha
    | some n => cases hp : n.pfx <;> simp [addrs, hn, hp] at ha ha'
  rw [h.count, nodes, hsplit, Finset.card_union_of_disjoint hdisjoint, Nat.cast_add]

theorem Good.represents (h : Good f maxbits s) : Represents f s := by
  obtain ⟨label, hinv⟩ := h.inv
  have hheld : ∀ a k, s.tree.links.key a = some k ↔ ∃ q, s.held a = some q ∧ q.key = k := by
    intro a k
    rw [h.held, map_eq_some_iff]
  refine ⟨?_, ?_, ?_, ?_, ?_, hinv.sane.card_addrs, ?_, ?_⟩
  · intro p hp
    obtain ⟨r, hr, hfound⟩ := hinv.searchExact (hp.bitlen.trans h.bits)
    refine ⟨r, hr, ?_, fun a => (hfound a).trans (hheld a _)⟩
    rw [h.stored, ne_none_iff_exists']
    exact exists_congr hfound
  · intro a n hn hp
    have hfull := hinv.full a (live_iff hn) (by rw [key_eq hn, hp, map_none])
    obtain ⟨l, hl⟩ := hfull false
    obtain ⟨r, hr⟩ := hfull true
    exact ⟨l, r, (edge_iff hn).mp hl, (edge_iff hn).mp hr⟩
  · intro a n d c hn hc
    have hedge := (edge_iff hn).mpr hc
    obtain ⟨m, hm⟩ := exists_node (hinv.shape.live_edge hedge).2
    refine ⟨m, hm, ?_, ?_⟩
    · rw [← bit_eq hn, ← bit_eq hm]
      exact hinv.shape.routed.bit_lt hedge
    · rw [← parent_eq hm]
      exact hinv.shape.parent_iff.mpr ⟨d, hedge⟩
  · intro a n q hn hq
    obtain ⟨d, m, hm, hc⟩ := hinv.shape.parent_iff.mp ((parent_eq hn).trans hq)
    exact ⟨m, d, hm, hc⟩
  · intro a n hn
    rw [← parent_eq hn]
    exact hinv.shape.root_iff (live_iff hn)
  · intro a
    have hkey := h.held a
    rw [addrs, Finset.mem_filter, Finset.mem_range]
    cases hn : s.tree.node a with
    | none =>
      rw [show s.tree.links.key a = none by simp [links, hn]] at hkey
      simp [map_eq_none_iff.mp hkey.symm]
    | some n =>
      rw [key_eq hn] at hkey
      have hlt := hinv.sane.fresh a n hn
      cases hp : n.pfx with
      | none =>
        rw [hp, map_none] at hkey
        simp [map_eq_none_iff.mp hkey.symm, hp]
      | some q =>
        rw [hp, map_some] at hkey
        obtain ⟨q', hq', -⟩ := map_eq_some_iff.mp hkey.symm
        simp [hq', hp, hlt]
  · intro p hp hfull
    obtain ⟨r, hr, -, hbest⟩ := hinv.searchBest (hp.bitlen.trans h.bits)
    -- No prefix of the family is longer than an address.
    have hshort : ¬Overshoots s.tree.links.stored p := by
      rintro ⟨k, ⟨a, hk⟩, hlong, -⟩
      obtain ⟨q, hq, rfl⟩ := (hheld a k).mp hk
      rw [Prefix.key, length_take, hfull] at hlong
      exact absurd (h.fits a q hq).bitlen (by omega)
    obtain ⟨hfound, hnone⟩ := hbest hshort
    refine ⟨r, hr, fun a ha => ?_, ⟨fun hr' => ?_, fun hall => ?_⟩⟩
    · obtain ⟨k, hk, hlongest⟩ := hfound a ha
      obtain ⟨q, hq, rfl⟩ := (hheld a k).mp hk
      exact ⟨q, hq, h.stored ▸ hlongest⟩
    · exact h.stored ▸ hnone hr'
    · cases r with
      | none => rfl
      | some a =>
        obtain ⟨k, hk, hlongest⟩ := hfound a rfl
        exact absurd hlongest.starts (hall k (h.stored ▸ hlongest.mem))

/-- **Runs.** Whatever prefixes of a family are inserted and removed, the operations do not fail,
and the tree is the set of the prefixes that were inserted and not removed. -/
theorem tree_represents {f : Family} {maxbits : ℕ} (hbits : f.bits ≤ maxbits) {ops : List (Op δ)}
    (hops : StepsMeet step (Op.Valid f) (start maxbits) ops) :
    ∃ s, run step (start maxbits) ops = some s ∧ Represents f s := by
  obtain ⟨s, hrun, hs⟩ := Run.progress (Good f maxbits) (fun _ _ h ho => h.step ho)
    (Good.start hbits) hops
  exact ⟨s, hrun, hs.represents⟩

/-- A prefix is inserted, and one above it, and the first one is removed. -/
theorem tree_represents_small : ∃ s, run step (start 128)
    ([.lookup ⟨.inet, 32, [10, 0, 0, 5]⟩, .lookup ⟨.inet, 8, [10, 0, 0, 0]⟩, .remove 0] :
      List (Op ℕ)) = some s ∧ Represents .inet s := by
  refine tree_represents (by decide) ⟨⟨rfl, rfl, by decide⟩, ?_⟩
  rintro s ⟨⟩
  refine ⟨⟨rfl, rfl, by decide⟩, ?_⟩
  rintro s ⟨⟩
  exact ⟨⟨⟨.inet, 32, [10, 0, 0, 5]⟩, rfl⟩, fun _ _ => trivial⟩

/-! ### The best match -/

/-- A result of the search for the best match is a node whose prefix contains the one searched for,
and the longest such prefix, if there is one. -/
structure Best (s : User δ) (p : Prefix) (r : Option Addr) : Prop where
  contains : ∀ a, r = some a → ∃ q, s.held a = some q ∧ q.key <+: p.key
  longest : (∃ k ∈ s.stored, k <+: p.key) →
    ∃ a q, r = some a ∧ s.held a = some q ∧ IsLongest s.stored p.key q.key

/-- **The best match** is found for a prefix, of any length, if and only if the search does not
overshoot. -/
theorem search_best_iff {f : Family} {maxbits : ℕ} (hbits : f.bits ≤ maxbits) {ops : List (Op δ)}
    (hops : StepsMeet step (Op.Valid f) (start maxbits) ops) {p : Prefix}
    (hp : p.bitlen ≤ maxbits) :
    ∃ s, run step (start maxbits) ops = some s ∧
      ((∃ r, s.tree.searchBest2 p true = some r ∧ Best s p r) ↔ ¬Overshoots s.stored p) := by
  obtain ⟨s, hrun, hs⟩ := Run.progress (Good f maxbits) (fun _ _ h ho => h.step ho)
    (Good.start hbits) hops
  obtain ⟨label, hinv⟩ := hs.inv
  have hheld : ∀ a k, s.tree.links.key a = some k ↔ ∃ q, s.held a = some q ∧ q.key = k := by
    intro a k
    rw [hs.held, map_eq_some_iff]
  obtain ⟨r, hr, hlong, hbest⟩ := hinv.searchBest (hs.maxbits ▸ hp)
  refine ⟨s, hrun, ⟨?_, fun hnot => ⟨r, hr, ?_⟩⟩⟩
  · rintro ⟨r', hr', hcontains⟩ hover
    obtain rfl : r' = r := some.inj (hr'.symm.trans hr)
    obtain ⟨b, k, hb, hk, hlt⟩ := hlong (hs.stored ▸ hover)
    obtain ⟨q, hq, rfl⟩ := (hheld b k).mp hk
    obtain ⟨q', hq', hprefix⟩ := hcontains.contains b hb
    obtain rfl : q = q' := some.inj (hq.symm.trans hq')
    have hle := hprefix.length_le
    rw [show p.key.length = p.bitlen from length_take ..] at hle
    omega
  · obtain ⟨hfound, hnone⟩ := hbest (hs.stored ▸ hnot)
    refine ⟨fun a ha => ?_, ?_⟩
    · obtain ⟨k, hk, hlongest⟩ := hfound a ha
      obtain ⟨q, hq, rfl⟩ := (hheld a k).mp hk
      exact ⟨q, hq, hlongest.starts⟩
    · rintro ⟨k, hk, hprefix⟩
      cases r with
      | none => exact absurd hprefix (hnone rfl k (hs.stored ▸ hk))
      | some a =>
        obtain ⟨k', hk', hlongest⟩ := hfound a rfl
        obtain ⟨q, hq, rfl⟩ := (hheld a k').mp hk'
        exact ⟨a, q, rfl, hq, hs.stored ▸ hlongest⟩

/-- Three prefixes are inserted, one of which is removed; the search is for an address in two of
them. -/
theorem search_best_iff_small : ∃ s, run step (start 128)
    ([.lookup ⟨.inet, 24, [10, 0, 0, 0]⟩, .lookup ⟨.inet, 8, [10, 0, 0, 0]⟩,
      .lookup ⟨.inet, 16, [10, 0, 0, 0]⟩, .remove 0] : List (Op ℕ)) = some s ∧
      ((∃ r, s.tree.searchBest2 ⟨.inet, 32, [10, 0, 0, 5]⟩ true = some r ∧
          Best s ⟨.inet, 32, [10, 0, 0, 5]⟩ r) ↔
        ¬Overshoots s.stored ⟨.inet, 32, [10, 0, 0, 5]⟩) := by
  refine search_best_iff (f := .inet) (by decide) ?_ (by decide)
  refine ⟨⟨rfl, rfl, by decide⟩, fun s hs => ?_⟩
  cases hs
  refine ⟨⟨rfl, rfl, by decide⟩, fun s hs => ?_⟩
  cases hs
  refine ⟨⟨rfl, rfl, by decide⟩, fun s hs => ?_⟩
  cases hs
  exact ⟨⟨_, rfl⟩, fun _ _ => trivial⟩

/-- A search for `10.0.0.0/8` returns `10.0.0.0/32`. -/
theorem search_best_longer : ∃ s : User ℕ,
    run step (start 128) [.lookup ⟨.inet, 32, [10, 0, 0, 0]⟩] = some s ∧
      ¬∃ r, s.tree.searchBest2 ⟨.inet, 8, [10, 0, 0, 0]⟩ true = some r ∧
        Best s ⟨.inet, 8, [10, 0, 0, 0]⟩ r := by
  refine ⟨_, rfl, ?_⟩
  rintro ⟨r, hr, hbest⟩
  obtain rfl : some 0 = r := by
    refine some.inj (Eq.trans ?_ hr)
    decide +kernel
  obtain ⟨q, hq, hprefix⟩ := hbest.contains 0 rfl
  obtain rfl : q = ⟨.inet, 32, [10, 0, 0, 0]⟩ := (some.inj hq).symm
  exact absurd hprefix.length_le (by simp [Prefix.key])

end Ratbox.Patricia
