import Ratbox.Patricia.Bits
import Mathlib.Data.Finset.Card

/-!
# Searching a patricia tree

The search for a prefix goes down by the bits of its address to the first node that tests none of
the bits it has. The exact search finds the prefix there if it is stored. The search for the best
match takes that node too when it has a prefix, also one that is longer than the one searched for,
and then the prefixes on the way, the last one first; of these it returns the first one that the
address starts with.

So a stored prefix that is longer than the one searched for is returned when the address goes on
with its bits, and every prefix that is stored inside the one searched for is inside the longer one.
Otherwise the longest stored prefix is returned that contains the one searched for.

Source: `libratbox/src/patricia.c`, lines 372–552.

## Main definitions

* `Patricia.Tree.links`: the links of a tree.
* `Patricia.Tree.Inv`: the invariant of a tree.
* `Patricia.Overshoots`: a prefix that is longer than the one searched for is returned.

## Main results

* `Patricia.Tree.Inv.searchExact`: the exact search.
* `Patricia.Tree.Inv.searchBest`: the search for the best match.
-/

namespace Ratbox.Patricia

open Address CritBit Option

variable {δ : Type}

/-- A stored prefix is longer than the one searched for, whose address goes on with its bits, and
every prefix that is stored inside the one searched for is inside the longer one. -/
def Overshoots (s : Set (List Bool)) (p : Prefix) : Prop :=
  ∃ k ∈ s, p.bitlen < k.length ∧ k = take k.length p.bits ∧ ∀ k' ∈ s, p.key <+: k' → k <+: k'

namespace Tree

/-- The links of a tree. -/
def links (t : Tree δ) : Links Addr where
  live a := (t.node a).isSome
  edge a d c := ∃ n, t.node a = some n ∧ n.child d = some c
  parent a := (t.node a).bind (·.parent)
  key a := (t.node a).bind fun n => n.pfx.map (·.key)
  bit a := ((t.node a).map (·.bit)).getD 0
  head := t.head

/-- The prefix at an address. -/
def pfxAt (t : Tree δ) (a : Addr) : Option Prefix := (t.node a).bind (·.pfx)

/-- The data at an address. -/
def dataAt (t : Tree δ) (a : Addr) : Option δ := (t.node a).bind (·.data)

theorem key_pfxAt (t : Tree δ) (a : Addr) : t.links.key a = (t.pfxAt a).map (·.key) := by
  cases hn : t.node a <;> simp [links, pfxAt, hn]

/-- The number of nodes. -/
def nodes (t : Tree δ) : ℕ := ((Finset.range t.fresh).filter fun a => (t.node a).isSome).card

/-- The next address is free, glue has no data, and the nodes are counted. -/
structure Sane (t : Tree δ) : Prop where
  fresh : ∀ a n, t.node a = some n → a < t.fresh
  data : ∀ a n, t.node a = some n → n.pfx = none → n.data = none
  count : t.numActiveNode = t.nodes

/-- The invariant: the links have their shape, glue has two children and no data, and the nodes are
counted. -/
structure Inv (t : Tree δ) (label : Addr → ℕ → Bool) : Prop where
  shape : Shape t.links label t.maxbits
  full : t.links.Full
  sane : t.Sane

section Access

variable {t : Tree δ} {a c : Addr} {n : Node δ} {d : Bool} (hn : t.node a = some n)
include hn

theorem live_iff : t.links.live a := by
  simp [links, hn]

theorem edge_iff : t.links.edge a d c ↔ n.child d = some c := by
  constructor
  · rintro ⟨n', hn', hc⟩
    cases hn.symm.trans hn'
    exact hc
  · exact fun hc => ⟨n, hn, hc⟩

theorem bit_eq : t.links.bit a = n.bit := by
  simp [links, hn]

theorem key_eq : t.links.key a = n.pfx.map (·.key) := by
  simp [links, hn]

theorem parent_eq : t.links.parent a = n.parent := by
  simp [links, hn]

end Access

theorem exists_node {t : Tree δ} {a : Addr} (h : t.links.live a) : ∃ n, t.node a = some n :=
  isSome_iff_exists.mp h

section Search

variable {t : Tree δ} {label : Addr → ℕ → Bool} {a b : Addr} {addr : Bytes} {bitlen fuel : ℕ}
  {p : Prefix} {stack : List Addr}

/-- A prefix at a node has as many bits as the node says, and they are those of the label. -/
theorem Inv.pfx (h : Inv t label) {n : Node δ} {q : Prefix} (hn : t.node a = some n)
    (hq : n.pfx = some q) : q.bitlen = n.bit ∧ Agree n.bit q.bits (label a) := by
  have hkey : t.links.key a = some q.key := by rw [key_eq hn, hq, map_some]
  have heq := (h.shape.key hkey).2
  rw [bit_eq hn] at heq
  obtain ⟨hbit, hagree⟩ := take_inj.mp heq
  exact ⟨hbit, hbit ▸ hagree⟩

/-! ### The exact search -/

/-- The loop of the exact search ends at every node below that has the bits. -/
theorem Inv.exactLoop (h : Inv t label) (addr : Bytes) (bitlen : ℕ) (ha : t.links.live a)
    (hfuel : t.maxbits < t.links.bit a + fuel) :
    ∃ r, t.exactLoop addr bitlen fuel a = some r ∧
      (∀ b, r = some b → t.links.live b ∧ bitlen ≤ t.links.bit b) ∧
      ∀ b, Below t.links.edge a b → t.links.bit b = bitlen →
        Agree bitlen (label b) (bitTest addr) → r = some b := by
  induction fuel generalizing a with
  | zero => exact absurd (h.shape.bit_le ha) (by omega)
  | succ fuel ih =>
    obtain ⟨n, hn⟩ := exists_node ha
    rw [Tree.exactLoop, hn, bind_eq_bind, bind_some]
    have hbit := bit_eq hn
    split_ifs with hlt
    · -- A node with the bits is further down, on the side of the bit.
      have hnext : ∀ b, Below t.links.edge a b → t.links.bit b = bitlen →
          Agree bitlen (label b) (bitTest addr) →
          ∃ c, n.child (bitTest addr n.bit) = some c ∧ Below t.links.edge c b := by
        intro b hab hb hagree
        obtain ⟨-, c, hc, hcb⟩ := h.shape.routed.next hab (by rintro rfl; omega)
        rw [hbit, hagree n.bit hlt, edge_iff hn] at hc
        exact ⟨c, hc, hcb⟩
      cases hc : n.child (bitTest addr n.bit) with
      | none =>
        refine ⟨none, rfl, by simp, fun b hab hb hagree => ?_⟩
        obtain ⟨c, hc', -⟩ := hnext b hab hb hagree
        simp [hc] at hc'
      | some c =>
        have hedge : t.links.edge a _ c := (edge_iff hn).mpr hc
        have hdeeper := h.shape.routed.bit_lt hedge
        obtain ⟨r, hr, hlive, hfound⟩ := ih (h.shape.live_edge hedge).2 (by omega)
        refine ⟨r, hr, hlive, fun b hab hb hagree => ?_⟩
        obtain ⟨c', hc', hcb⟩ := hnext b hab hb hagree
        obtain rfl : c = c' := by simpa [hc] using hc'
        exact hfound b hcb hb hagree
    · refine ⟨some a, rfl, ?_, fun b hab hb _ => ?_⟩
      · rintro b ⟨⟩
        exact ⟨ha, by omega⟩
      · rw [h.shape.routed.eq_of_bit_le hab (by omega)]

/-- **The exact search** finds a prefix when it is stored. -/
theorem Inv.searchExact (h : Inv t label) (hp : p.bitlen ≤ t.maxbits) :
    ∃ r, t.searchExact p = some r ∧ ∀ b, r = some b ↔ t.links.key b = some p.key := by
  rw [Tree.searchExact, if_neg (by omega)]
  cases hhead : t.head with
  | none =>
    refine ⟨none, rfl, fun b => ?_⟩
    have hnone : t.links.key b ≠ some p.key := by
      intro hkey
      obtain ⟨y, hy, -⟩ := h.shape.below_head (h.shape.key hkey).1
      cases hhead.symm.trans hy
    simp [hnone]
  | some head =>
    obtain ⟨r, hr, hlive, hfound⟩ := h.exactLoop p.touchar p.bitlen
      (h.shape.live_head hhead) (show t.maxbits < t.links.bit head + (t.maxbits + 1) by omega)
    -- The prefix is stored at most where the loop ends.
    have hstored : ∀ b, t.links.key b = some p.key → r = some b := by
      intro b hkey
      obtain ⟨hb, heq⟩ := h.shape.key hkey
      obtain ⟨hbit, hagree⟩ := take_inj.mp heq
      obtain ⟨y, hy, hyb⟩ := h.shape.below_head hb
      obtain rfl : head = y := some.inj (hhead.symm.trans hy)
      exact hfound b hyb hbit.symm hagree.symm
    dsimp only
    rw [hr, bind_eq_bind, bind_some]
    cases r with
    | none =>
      refine ⟨none, rfl, fun b => ?_⟩
      constructor
      · rintro ⟨⟩
      · exact fun hkey => absurd (hstored b hkey) (by simp)
    | some a =>
      obtain ⟨n, hn⟩ := exists_node (hlive a rfl).1
      have hle := (hlive a rfl).2
      rw [bit_eq hn] at hle
      have hkey := key_eq hn
      dsimp only
      rw [hn, bind_eq_bind, bind_some]
      cases hq : n.pfx with
      | none =>
        refine ⟨none, rfl, fun b => ?_⟩
        constructor
        · rintro ⟨⟩
        · intro hb
          cases hstored b hb
          rw [hkey, hq] at hb
          simp at hb
      | some q =>
        obtain ⟨hbit, -⟩ := h.pfx hn hq
        have hiff : ∀ b, some a = some b ∧ q.key = p.key ↔ t.links.key b = some p.key := by
          intro b
          constructor
          · rintro ⟨⟨⟩, heq⟩
            rw [hkey, hq, map_some, heq]
          · intro hb
            cases hstored b hb
            rw [hkey, hq, map_some, some.injEq] at hb
            exact ⟨rfl, hb⟩
        dsimp only
        split_ifs with hlong hsame
        · refine ⟨none, rfl, fun b => ?_⟩
          rw [← hiff, Prefix.key_inj]
          constructor
          · rintro ⟨⟩
          · rintro ⟨-, heq, -⟩
            omega
        · refine ⟨some a, rfl, fun b => ?_⟩
          rw [← hiff, Prefix.key_inj, hbit]
          exact ⟨fun hb => ⟨hb, by omega, (show n.bit = p.bitlen by omega) ▸ compWithMask_iff.mp
            hsame⟩, fun hb => hb.1⟩
        · refine ⟨none, rfl, fun b => ?_⟩
          rw [← hiff, Prefix.key_inj, hbit]
          constructor
          · rintro ⟨⟩
          · rintro ⟨-, heq, hagree⟩
            exact absurd (compWithMask_iff.mpr (heq ▸ hagree)) hsame

/-! ### The search for the best match -/

/-- A node has a prefix that the address starts with. -/
def covers (t : Tree δ) (addr : Bytes) (a : Addr) : Bool :=
  ((t.node a).bind (·.pfx)).any fun q => compWithMask q.touchar addr q.bitlen

theorem Inv.covers_iff (h : Inv t label) : t.covers addr a = true ↔
    ∃ k, t.links.key a = some k ∧ Agree (t.links.bit a) (label a) (bitTest addr) := by
  rw [covers, Option.any_eq_true]
  constructor
  · rintro ⟨q, hq, hcomp⟩
    obtain ⟨n, hn, hq⟩ := Option.bind_eq_some_iff.mp hq
    obtain ⟨hbit, hagree⟩ := h.pfx hn hq
    refine ⟨q.key, by rw [key_eq hn, hq, map_some], ?_⟩
    rw [bit_eq hn]
    exact hagree.symm.trans (hbit ▸ compWithMask_iff.mp hcomp)
  · rintro ⟨k, hk, hagree⟩
    obtain ⟨n, hn⟩ := exists_node (h.shape.key hk).1
    rw [key_eq hn, map_eq_some_iff] at hk
    obtain ⟨q, hq, -⟩ := hk
    obtain ⟨hbit, hlabel⟩ := h.pfx hn hq
    rw [bit_eq hn] at hagree
    exact ⟨q, by rw [hn, bind_some, hq], compWithMask_iff.mpr (hbit ▸ hlabel.trans hagree)⟩

/-- The nodes on the stack are tried in turn. -/
theorem popLoop_eq (hstack : ∀ a ∈ stack, ∃ k, t.links.key a = some k) :
    t.popLoop addr stack = some (stack.find? (t.covers addr)) := by
  induction stack with
  | nil => rfl
  | cons a stack ih =>
    obtain ⟨k, hk⟩ := hstack a List.mem_cons_self
    obtain ⟨n, hn, hpfx⟩ := bind_eq_some_iff.mp hk
    obtain ⟨q, hq, -⟩ := map_eq_some_iff.mp hpfx
    have hcovers : t.covers addr a = compWithMask q.touchar addr q.bitlen := by
      rw [covers, hn, bind_some, hq, any_some]
    rw [popLoop, hn, bind_eq_bind, bind_some, hq, bind_eq_bind, bind_some,
      ← hcovers, List.find?_cons]
    cases t.covers addr a with
    | true => rfl
    | false => exact ih fun b hb => hstack b (List.mem_cons_of_mem a hb)

/-- The loop of the search pushes the nodes with prefixes on the way, and ends at the first node
that has the bits, above all the others that have them. -/
theorem Inv.bestLoop (h : Inv t label) (addr : Bytes) (bitlen : ℕ) (ha : t.links.live a)
    (hfuel : t.maxbits < t.links.bit a + fuel) (stack : List Addr) :
    ∃ pushed stop, t.bestLoop addr bitlen fuel stack a = some (pushed ++ stack, stop) ∧
      (∀ b ∈ pushed, t.links.bit a ≤ t.links.bit b ∧ t.links.bit b < bitlen ∧
        ∃ k, t.links.key b = some k) ∧
      pushed.Pairwise (fun b c => t.links.bit c < t.links.bit b) ∧
      (∀ b k, Below t.links.edge a b → t.links.key b = some k → t.links.bit b < bitlen →
        Agree (t.links.bit b) (label b) (bitTest addr) → b ∈ pushed) ∧
      (∀ b, stop = some b → t.links.live b ∧ bitlen ≤ t.links.bit b) ∧
      ∀ b, Below t.links.edge a b → bitlen ≤ t.links.bit b →
        Agree bitlen (label b) (bitTest addr) → ∃ c, stop = some c ∧ Below t.links.edge c b := by
  induction fuel generalizing a stack with
  | zero => exact absurd (h.shape.bit_le ha) (by omega)
  | succ fuel ih =>
    obtain ⟨n, hn⟩ := exists_node ha
    have hbit := bit_eq hn
    rw [Tree.bestLoop, hn, bind_eq_bind, bind_some]
    by_cases hlt : n.bit < bitlen
    · rw [if_pos hlt]
      dsimp only
      -- The node is pushed when it has a prefix.
      obtain ⟨here, hpush, hhere, hin⟩ : ∃ here,
          (if n.pfx.isSome then a :: stack else stack) = here ++ stack ∧
          (here = [] ∨ here = [a] ∧ ∃ k, t.links.key a = some k) ∧
          ∀ k, t.links.key a = some k → a ∈ here := by
        rw [key_eq hn]
        cases hq : n.pfx with
        | none => exact ⟨[], rfl, Or.inl rfl, by simp⟩
        | some q => exact ⟨[a], rfl, Or.inr ⟨rfl, q.key, rfl⟩, by simp⟩
      rw [hpush]
      have hself : ∀ b ∈ here, t.links.bit a ≤ t.links.bit b ∧ t.links.bit b < bitlen ∧
          ∃ k, t.links.key b = some k := by
        rintro b hb
        obtain rfl | ⟨rfl, hk⟩ := hhere
        · simp at hb
        · obtain rfl := List.mem_singleton.mp hb
          exact ⟨le_rfl, by omega, hk⟩
      have hnext : ∀ b, Below t.links.edge a b → a ≠ b → bitTest addr n.bit = label b n.bit →
          ∃ c, n.child (bitTest addr n.bit) = some c ∧ Below t.links.edge c b := by
        intro b hab hne hturn
        obtain ⟨-, c, hc, hcb⟩ := h.shape.routed.next hab hne
        rw [hbit, ← hturn, edge_iff hn] at hc
        exact ⟨c, hc, hcb⟩
      cases hc : n.child (bitTest addr n.bit) with
      | none =>
        refine ⟨here, none, rfl, hself, ?_, ?_, by simp, ?_⟩
        · obtain rfl | ⟨rfl, -⟩ := hhere
          · exact List.Pairwise.nil
          · exact List.pairwise_singleton _ _
        · intro b k hab hk hb hagree
          by_cases hne : a = b
          · subst hne
            exact hin k hk
          · obtain ⟨c, hc', -⟩ := hnext b hab hne
              (hagree _ (hbit ▸ (h.shape.routed.next hab hne).1)).symm
            simp [hc] at hc'
        · intro b hab hb hagree
          obtain ⟨c, hc', -⟩ := hnext b hab (by rintro rfl; omega) (hagree _ hlt).symm
          simp [hc] at hc'
      | some c =>
        have hedge : t.links.edge a _ c := (edge_iff hn).mpr hc
        have hdeeper := h.shape.routed.bit_lt hedge
        obtain ⟨pushed, stop, hloop, hpushed, hsorted, hall, hstop, hfirst⟩ :=
          ih (h.shape.live_edge hedge).2 (by omega) (here ++ stack)
        refine ⟨pushed ++ here, stop, by rw [List.append_assoc]; exact hloop, ?_, ?_, ?_, hstop, ?_⟩
        · intro b hb
          rcases List.mem_append.mp hb with hb | hb
          · exact ⟨hdeeper.le.trans (hpushed b hb).1, (hpushed b hb).2⟩
          · exact hself b hb
        · refine List.pairwise_append.mpr ⟨hsorted, ?_, fun b hb b' hb' => ?_⟩
          · obtain rfl | ⟨rfl, -⟩ := hhere
            · exact List.Pairwise.nil
            · exact List.pairwise_singleton _ _
          · obtain rfl | ⟨rfl, -⟩ := hhere
            · simp at hb'
            · obtain rfl := List.mem_singleton.mp hb'
              exact hdeeper.trans_le (hpushed b hb).1
        · intro b k hab hk hb hagree
          by_cases hne : a = b
          · subst hne
            exact List.mem_append_right _ (hin k hk)
          · obtain ⟨c', hc', hcb⟩ := hnext b hab hne
              (hagree _ (hbit ▸ (h.shape.routed.next hab hne).1)).symm
            obtain rfl : c = c' := by simpa [hc] using hc'
            exact List.mem_append_left _ (hall b k hcb hk hb hagree)
        · intro b hab hb hagree
          obtain ⟨c', hc', hcb⟩ := hnext b hab (by rintro rfl; omega) (hagree _ hlt).symm
          obtain rfl : c = c' := by simpa [hc] using hc'
          exact hfirst b hcb hb hagree
    · rw [if_neg hlt]
      refine ⟨[], some a, rfl, by simp, List.Pairwise.nil, ?_, ?_, ?_⟩
      · intro b k hab _ hb
        exact absurd (h.shape.routed.bit_le hab) (by omega)
      · rintro b ⟨⟩
        exact ⟨ha, by omega⟩
      · exact fun b hab _ _ => ⟨a, rfl, hab⟩

/-- The search overshoots when the node at which it ends has a longer prefix that the address starts
with. -/
theorem Inv.overshoots_iff (h : Inv t label) {head : Addr} {stop : Option Addr}
    (hhead : t.head = some head) (hstop : ∀ b, stop = some b → t.links.live b)
    (hfirst : ∀ b, Below t.links.edge head b → p.bitlen ≤ t.links.bit b →
      Agree p.bitlen (label b) p.bits → ∃ c, stop = some c ∧ Below t.links.edge c b)
    (hat : ∀ b, stop = some b → p.bitlen ≤ t.links.bit b) :
    Overshoots t.links.stored p ↔
      ∃ b, stop = some b ∧ t.covers p.touchar b = true ∧ p.bitlen < t.links.bit b := by
  have hbelow : ∀ {b}, t.links.live b → Below t.links.edge head b := by
    intro b hb
    obtain ⟨y, hy, hyb⟩ := h.shape.below_head hb
    obtain rfl : head = y := Option.some.inj (hhead.symm.trans hy)
    exact hyb
  constructor
  · rintro ⟨k, ⟨b, hk⟩, hlong, hstart, hinside⟩
    obtain ⟨hb, hkey⟩ := h.shape.key hk
    have hlength : k.length = t.links.bit b := by rw [hkey, length_take]
    have hagree : Agree (t.links.bit b) (label b) p.bits := by
      rw [hlength, hkey] at hstart
      exact (take_inj.mp hstart).2
    obtain ⟨s, hs, hsb⟩ := hfirst b (hbelow hb) (by omega) (hagree.mono (by omega))
    -- The search ends at the node of the longer prefix: otherwise another prefix would be stored
    -- inside the one searched for, but not inside the longer one.
    have heq : s = b := by
      by_contra hne
      obtain ⟨hlt, c, hc, hcb⟩ := h.shape.routed.next hsb hne
      have hslabel := h.shape.routed.agree_below hsb
      have hin : ∀ {x k'}, Below t.links.edge s x → t.links.key x = some k' → k <+: k' := by
        intro x k' hsx hk'
        refine hinside k' ⟨x, hk'⟩ ((h.shape.prefix_key_iff hk').mpr ⟨?_, ?_⟩)
        · exact (hat s hs).trans (h.shape.routed.bit_le hsx)
        · have hpath := (h.shape.routed.agree_below hsx).trans hslabel.symm
          exact ((hpath.trans (hagree.mono hlt.le)).mono (hat s hs)).symm
      cases hks : t.links.key s with
      | some k' =>
        have hle := (hin Relation.ReflTransGen.refl hks).length_le
        rw [hlength, (h.shape.key hks).2, length_take] at hle
        omega
      | none =>
        obtain ⟨c', hc'⟩ := h.full s (hstop s hs) hks (!label b (t.links.bit s))
        obtain ⟨x, k', hx, hk'⟩ := h.shape.exists_key h.full (h.shape.live_edge hc').2
        have hprefix := hin (Relation.ReflTransGen.head ⟨_, hc'⟩ hx) hk'
        rw [hkey, h.shape.prefix_key_iff hk'] at hprefix
        have hturn : label x (t.links.bit s) = !label b (t.links.bit s) :=
          (h.shape.routed.agree_below hx _ (h.shape.routed.bit_lt hc')).trans
            (h.shape.routed.turn hc')
        rw [← hprefix.2 _ hlt] at hturn
        exact absurd hturn (by simp)
    subst heq
    exact ⟨s, hs, h.covers_iff.mpr ⟨k, hk, hagree⟩, by omega⟩
  · rintro ⟨b, hb, hcovers, hlong⟩
    obtain ⟨k, hk, hagree⟩ := h.covers_iff.mp hcovers
    have hkey := (h.shape.key hk).2
    refine ⟨k, ⟨b, hk⟩, by rw [hkey, length_take]; exact hlong, ?_, ?_⟩
    · rw [hkey, length_take]
      exact take_inj.mpr ⟨rfl, hagree⟩
    · rintro k' ⟨x, hk'⟩ hinside
      obtain ⟨hle, hinside⟩ := (h.shape.prefix_key_iff hk').mp hinside
      obtain ⟨c, hc, hcx⟩ := hfirst x (hbelow (h.shape.key hk').1) hle hinside.symm
      obtain rfl : b = c := Option.some.inj (hb.symm.trans hc)
      rw [hkey, h.shape.prefix_key_iff hk']
      exact ⟨h.shape.routed.bit_le hcx, (h.shape.routed.agree_below hcx).symm⟩

/-- Of a list in the order of a number, the first element that passes has the greatest number. -/
theorem le_of_find?_eq_some {f : Addr → ℕ} {q : Addr → Bool}
    (hsorted : stack.Pairwise fun b c => f c < f b) (hfind : stack.find? q = some b) {c : Addr}
    (hc : c ∈ stack) (hqc : q c = true) : f c ≤ f b := by
  obtain ⟨-, before, after, rfl, hbefore⟩ := List.find?_eq_some_iff_append.mp hfind
  rcases List.mem_append.mp hc with hc | hc
  · exact absurd hqc (by simpa using hbefore c hc)
  · rcases List.mem_cons.mp hc with rfl | hc
    · exact le_rfl
    · exact ((List.pairwise_cons.mp (List.pairwise_append.mp hsorted).2.1).1 c hc).le

/-- **The search for the best match** returns the longest stored prefix that contains the one
searched for, or a longer one. -/
theorem Inv.searchBest (h : Inv t label) (hp : p.bitlen ≤ t.maxbits) :
    ∃ r, t.searchBest p = some r ∧
      (Overshoots t.links.stored p →
        ∃ b k, r = some b ∧ t.links.key b = some k ∧ p.bitlen < k.length) ∧
      (¬Overshoots t.links.stored p →
        (∀ b, r = some b → ∃ k, t.links.key b = some k ∧ IsLongest t.links.stored p.key k) ∧
        (r = none → ∀ k ∈ t.links.stored, ¬k <+: p.key)) := by
  rw [Tree.searchBest, Tree.searchBest2, if_neg (by omega)]
  cases hhead : t.head with
  | none =>
    have hnone : ∀ k, k ∉ t.links.stored := by
      rintro k ⟨b, hk⟩
      obtain ⟨y, hy, -⟩ := h.shape.below_head (h.shape.key hk).1
      cases hhead.symm.trans hy
    refine ⟨none, rfl, ?_, fun _ => ⟨by simp, fun _ k hk => absurd hk (hnone k)⟩⟩
    rintro ⟨k, hk, -⟩
    exact absurd hk (hnone k)
  | some head =>
    obtain ⟨pushed, stop, hloop, hpushed, hsorted, hall, hstop, hfirst⟩ :=
      h.bestLoop p.touchar p.bitlen (h.shape.live_head hhead)
        (show t.maxbits < t.links.bit head + (t.maxbits + 1) by omega) []
    have hover := h.overshoots_iff hhead (fun b hb => (hstop b hb).1) hfirst
      fun b hb => (hstop b hb).2
    rw [List.append_nil] at hloop
    dsimp only
    rw [hloop, Option.bind_eq_bind, Option.bind_some]
    -- The nodes that are tried: every node with a prefix that contains the one searched for is
    -- there.
    suffices hmain : ∀ stack, (∀ b ∈ stack, ∃ k, t.links.key b = some k) →
        stack.Pairwise (fun b c => t.links.bit c < t.links.bit b) →
        (∀ b k, t.links.key b = some k → (t.links.bit b ≤ p.bitlen ∨ stop = some b) →
          Agree (t.links.bit b) (label b) p.bits → b ∈ stack) →
        (∀ b ∈ stack, t.links.bit b ≤ p.bitlen ∨ stop = some b) →
        ∃ r, t.popLoop p.touchar stack = some r ∧
          (Overshoots t.links.stored p →
            ∃ b k, r = some b ∧ t.links.key b = some k ∧ p.bitlen < k.length) ∧
          (¬Overshoots t.links.stored p →
            (∀ b, r = some b → ∃ k, t.links.key b = some k ∧ IsLongest t.links.stored p.key k) ∧
            (r = none → ∀ k ∈ t.links.stored, ¬k <+: p.key)) by
      have hon : ∀ b k, t.links.key b = some k → t.links.bit b ≤ p.bitlen →
          Agree (t.links.bit b) (label b) p.bits → b ∈ pushed ∨ stop = some b := by
        intro b k hk hle hagree
        obtain ⟨y, hy, hyb⟩ := h.shape.below_head (h.shape.key hk).1
        obtain rfl : head = y := Option.some.inj (hhead.symm.trans hy)
        rcases Nat.lt_or_eq_of_le hle with hlt | heq
        · exact .inl (hall b k hyb hk hlt hagree)
        · obtain ⟨c, hc, hcb⟩ := hfirst b hyb heq.ge (heq ▸ hagree)
          rw [← h.shape.routed.eq_of_bit_le hcb (by rw [heq]; exact (hstop c hc).2)]
          exact .inr hc
      cases stop with
      | none =>
        refine hmain pushed (fun b hb => (hpushed b hb).2.2) hsorted ?_ fun b hb =>
          Or.inl (hpushed b hb).2.1.le
        rintro b k hk (hle | ⟨⟨⟩⟩) hagree
        exact (hon b k hk hle hagree).resolve_right (by simp)
      | some s =>
        obtain ⟨n, hn⟩ := exists_node (hstop s rfl).1
        dsimp only
        rw [hn, Option.bind_eq_bind, Option.bind_some, Bool.true_and]
        cases hq : n.pfx with
        | none =>
          have hno : ∀ k, t.links.key s ≠ some k := by
            intro k
            rw [key_eq hn, hq]
            simp
          refine hmain pushed (fun b hb => (hpushed b hb).2.2) hsorted ?_ fun b hb =>
            Or.inl (hpushed b hb).2.1.le
          rintro b k hk (hle | hb) hagree
          · refine (hon b k hk hle hagree).resolve_right ?_
            rintro ⟨⟩
            exact hno k hk
          · cases hb
            exact absurd hk (hno k)
        | some q =>
          refine hmain (s :: pushed) ?_ ?_ ?_ ?_
          · intro b hb
            rcases List.mem_cons.mp hb with rfl | hb
            · exact ⟨q.key, by rw [key_eq hn, hq, Option.map_some]⟩
            · exact (hpushed b hb).2.2
          · refine List.pairwise_cons.mpr ⟨fun b hb => ?_, hsorted⟩
            exact (hpushed b hb).2.1.trans_le (hstop s rfl).2
          · rintro b k hk (hle | hb) hagree
            · rcases hon b k hk hle hagree with hb | hb
              · exact List.mem_cons_of_mem s hb
              · cases hb
                exact List.mem_cons_self
            · cases hb
              exact List.mem_cons_self
          · intro b hb
            rcases List.mem_cons.mp hb with rfl | hb
            · exact .inr rfl
            · exact .inl (hpushed b hb).2.1.le
    intro stack hkeys hsorted hstack hlong
    refine ⟨stack.find? (t.covers p.touchar), popLoop_eq hkeys, ?_, ?_⟩
    · intro hov
      obtain ⟨b, hb, hcovers, hgt⟩ := hover.mp hov
      obtain ⟨k, hk, hagree⟩ := h.covers_iff.mp hcovers
      have hmem := hstack b k hk (.inr hb) hagree
      cases hfind : stack.find? (t.covers p.touchar) with
      | none => exact absurd hcovers (List.find?_eq_none.mp hfind b hmem)
      | some c =>
        obtain ⟨k', hk'⟩ := hkeys c (List.mem_of_find?_eq_some hfind)
        have hle := le_of_find?_eq_some hsorted hfind hmem hcovers
        refine ⟨c, k', rfl, hk', ?_⟩
        rw [(h.shape.key hk').2, length_take]
        omega
    · intro hnot
      have hshort : ∀ b ∈ stack, t.covers p.touchar b = true → t.links.bit b ≤ p.bitlen := by
        intro b hb hcovers
        rcases hlong b hb with hle | hstopb
        · exact hle
        · by_contra hgt
          exact hnot (hover.mpr ⟨b, hstopb, hcovers, by omega⟩)
      have hin : ∀ k b, t.links.key b = some k → k <+: p.key →
          b ∈ stack ∧ t.covers p.touchar b = true := by
        intro k b hk hprefix
        obtain ⟨hle, hagree⟩ := (h.shape.key_prefix_iff hk).mp hprefix
        exact ⟨hstack b k hk (.inl hle) hagree, h.covers_iff.mpr ⟨k, hk, hagree⟩⟩
      refine ⟨fun b hfind => ?_, fun hfind k hk hprefix => ?_⟩
      · have hcovers := List.find?_some hfind
        have hmem := List.mem_of_find?_eq_some hfind
        obtain ⟨k, hk, hagree⟩ := h.covers_iff.mp hcovers
        refine ⟨k, hk, ⟨b, hk⟩, (h.shape.key_prefix_iff hk).mpr ⟨hshort b hmem hcovers, hagree⟩, ?_⟩
        rintro k' ⟨b', hk'⟩ hprefix
        obtain ⟨hmem', hcovers'⟩ := hin k' b' hk' hprefix
        rw [(h.shape.key hk).2, (h.shape.key hk').2, length_take, length_take]
        exact le_of_find?_eq_some hsorted hfind hmem' hcovers'
      · obtain ⟨b, hk⟩ := hk
        obtain ⟨hmem, hcovers⟩ := hin k b hk hprefix
        exact absurd hcovers (List.find?_eq_none.mp hfind b hmem)

end Search

end Tree

end Ratbox.Patricia
