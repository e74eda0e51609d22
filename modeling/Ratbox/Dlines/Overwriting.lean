import Ratbox.Dlines.Invariant

/-!
# D-lines for the same bits

At the end of the list of the helper, D-lines are added without a look at what is there. A D-line
that is added for bits that another one has takes its node.

Source: `src/bandbi.c`, lines 263–390, and `src/reject.c`, lines 287–392.

## Main definitions

* `Dlines.InTree`: a permanent D-line that its node has.
* `Dlines.Last`: a D-line of a list that no later one takes the node of.
* `Dlines.Held`: every node has a D-line, and there may be D-lines that lost their nodes.

## Main results

* `Dlines.Held.foldlM_finishOne`: the D-lines that are in the tree after the list.
* `Dlines.Held.removePermDlines`: the end of a list goes on only without permanent D-lines.
-/

namespace Ratbox.Dlines

open Text Address Patricia Function List

/-- A permanent D-line that its node has. -/
def InTree (d : State) (ban : Ban) : Prop :=
  ∃ id c a, d.confs id = some c ∧ c.pnode = some a ∧ d.tree.dataAt a = some id ∧
    c.temporary = false ∧ c.ban = ban

/-- A D-line of a list that no later one takes the node of. -/
def Last (bans : List Ban) (ban : Ban) : Prop :=
  (addKey ban.host).isSome ∧ ∃ before after, bans = before ++ ban :: after ∧ ∀ b ∈ after,
    addKey b.host ≠ addKey ban.host

/-- Every node with a prefix has a D-line with its bits, which points back to it. There may be
others that lost their nodes. -/
structure Held (d : State) : Prop where
  inv : ∃ label, Tree.Inv d.tree label
  bits : d.tree.maxbits = 128
  fresh : ∀ id c, d.confs id = some c → id < d.fresh
  node : ∀ a k, d.tree.links.key a = some k →
    ∃ id c, d.tree.dataAt a = some id ∧ d.confs id = some c ∧ c.pnode = some a ∧
      addKey c.ban.host = some k

section Held

variable {d d' : State} {ban q : Ban} {bans : List Ban} {id : ConfId} {c : Conf} {a : Addr}
  {l : List ConfId}

theorem Good.held (h : Good d) : Held d := by
  refine ⟨h.tied.inv, h.tied.bits, h.fresh, fun a k hk => ?_⟩
  obtain ⟨id, c, hdata, hc, hpnode⟩ := h.tied.node a k hk
  obtain ⟨a', k', hpnode', -, hk', hadd⟩ := h.tied.conf id c hc
  cases hpnode.symm.trans hpnode'
  cases hk.symm.trans hk'
  exact ⟨id, c, hdata, hc, hpnode, hadd⟩

/-- Only nodes with a prefix have a D-line. -/
theorem Held.of_data (h : Held d) (hdata : d.tree.dataAt a = some id) : ∃ k c, d.tree.links.key a =
    some k ∧ d.confs id = some c ∧ c.pnode = some a ∧ addKey c.ban.host = some k := by
  obtain ⟨label, hinv⟩ := h.inv
  obtain ⟨n, hn, hid⟩ := Option.bind_eq_some_iff.mp hdata
  have hpfx : n.pfx ≠ none := fun hnone => by
    rw [hinv.sane.data a n hn hnone] at hid
    cases hid
  obtain ⟨p, hp⟩ := Option.ne_none_iff_exists'.mp hpfx
  have hk : d.tree.links.key a = some p.key := by
    rw [Tree.key_pfxAt, Tree.pfxAt, hn, Option.bind_some, hp, Option.map_some]
  obtain ⟨id', c, hdata', hrest⟩ := h.node a _ hk
  cases hdata.symm.trans hdata'
  exact ⟨p.key, c, hk, hrest⟩

theorem Held.key (h : Held d) (hc : d.confs id = some c) (hdata : d.tree.dataAt a = some id) :
    ∃ k, d.tree.links.key a = some k ∧ addKey c.ban.host = some k := by
  obtain ⟨k, c', hk, hc', -, hadd⟩ := h.of_data hdata
  cases hc.symm.trans hc'
  exact ⟨k, hk, hadd⟩

theorem Held.not_fresh (h : Held d) : d.confs d.fresh = none := by
  by_contra hne
  obtain ⟨c, hc⟩ := Option.ne_none_iff_exists'.mp hne
  exact lt_irrefl _ (h.fresh _ c hc)

theorem Held.isSome_addKey (h : Held d) (hq : InTree d q) : (addKey q.host).isSome := by
  obtain ⟨id, c, a, hc, hpnode, hdata, -, rfl⟩ := hq
  obtain ⟨k, -, hk⟩ := h.key hc hdata
  simp [hk]

/-- **A D-line of the helper** is added, and takes the node of one with its bits. -/
theorem Held.finishOne (h : Held d) (ban : Ban) : ∃ d', d.finishOne ban = some d' ∧ Held d' ∧
    ∀ q, InTree d' q ↔ (InTree d q ∧ addKey ban.host ≠ addKey q.host) ∨
    ((addKey ban.host).isSome ∧ q = ban) := by
  have hnew := h.not_fresh
  cases hmask : netmask ban.host with
  | none =>
    have hkey : addKey ban.host = none := by rw [addKey, hmask]; rfl
    have hconfs : update (update d.confs d.fresh (some ⟨ban, false, false, 0, .min, none⟩)) d.fresh
        none = d.confs := by
      rw [update_idem, ← hnew, update_eq_self]
    refine ⟨{ d with fresh := d.fresh + 1 }, ?_,
      ⟨h.inv, h.bits, fun id c hc => (h.fresh id c hc).trans (Nat.lt_succ_self _), h.node⟩,
        fun q => ?_⟩
    · rw [State.finishOne]
      simp [hmask, State.makeConf, State.freeConf, hconfs]
    · rw [hkey]
      simp only [Option.isSome_none, Bool.false_eq_true, false_and, or_false]
      refine ⟨fun hq => ⟨hq, fun hnone => ?_⟩, fun hq => hq.1⟩
      have hsome := h.isSome_addKey hq
      rw [← hnone] at hsome
      cases hsome
  | some mask =>
    obtain ⟨addr, bits⟩ := mask
    have hkey : addKey ban.host = some (addr.pfx (newBitlen bits)).key := by rw [addKey, hmask]; rfl
    generalize hk : (addr.pfx (newBitlen bits)).key = k at hkey
    obtain ⟨label, hinv⟩ := h.inv
    have hmax : (addr.pfx (newBitlen bits)).bitlen ≤ d.tree.maxbits := h.bits ▸ newBitlen_le hmask
    obtain ⟨t', a, label', hlookup, hinv', hbits, hdata, hpfx⟩ := hinv.lookup hmax
    -- The node had these bits, or had none.
    have hold : ∀ k', d.tree.links.key a = some k' → k' = k := by
      intro k' hk'
      rw [Tree.key_pfxAt] at hk'
      obtain ⟨p, hp, hpkey, -⟩ | ⟨hnone, -⟩ := hpfx
      · rw [hp, Option.map_some, hpkey, hk] at hk'
        exact (Option.some.inj hk').symm
      · rw [hnone] at hk'
        cases hk'
    have hkeys : t'.links.key = update d.tree.links.key a (some k) := by
      obtain ⟨p, hp, hpkey, rfl⟩ | ⟨-, hupdate⟩ := hpfx
      · refine (update_eq_self_iff.mpr ?_).symm
        rw [Tree.key_pfxAt, hp, Option.map_some, hpkey, hk]
      · rw [key_update hupdate, Option.map_some, hk]
    have hkeya : t'.links.key a = some k := by rw [hkeys, update_self]
    obtain ⟨n, hn, hsome⟩ : ∃ n, t'.node a = some n ∧ n.pfx.isSome := by
      rw [Tree.key_pfxAt] at hkeya
      obtain ⟨p, hp, -⟩ := Option.map_eq_some_iff.mp hkeya
      obtain ⟨n, hn, hpn⟩ := Option.bind_eq_some_iff.mp hp
      exact ⟨n, hn, by rw [hpn]; rfl⟩
    obtain ⟨hinv'', hlinks⟩ := hinv'.write hn hsome (some d.fresh)
    have hdataAt : (t'.write a (some d.fresh)).dataAt = update d.tree.dataAt a (some d.fresh) := by
      rw [Tree.write, Tree.dataAt_modify hn, hdata]
    -- The confs of the other nodes are where they were, and have other bits.
    have hother : ∀ id c b, d.confs id = some c → c.pnode = some b →
        ((t'.write a (some d.fresh)).dataAt b = some id ↔
          b ≠ a ∧ d.tree.dataAt b = some id ∧ addKey c.ban.host ≠ some k) := by
      intro id c b hc hpnode
      rw [hdataAt]
      by_cases hb : b = a
      · rw [hb, update_self]
        refine iff_of_false (fun heq => ?_) fun h => h.1 rfl
        rw [← Option.some.inj heq, hnew] at hc
        cases hc
      · rw [update_of_ne hb]
        refine ⟨fun hdata' => ⟨hb, hdata', fun hsame => ?_⟩, fun h => h.2.1⟩
        obtain ⟨k', hk', hadd⟩ := h.key hc hdata'
        cases hadd.symm.trans hsame
        exact hb (hinv'.shape.key_inj (by rw [hkeys, update_of_ne hb, hk']) hkeya)
    -- A node with other bits is another node.
    have hne : ∀ id c b, d.confs id = some c → c.pnode = some b → d.tree.dataAt b = some id →
        addKey c.ban.host ≠ some k → b ≠ a := by
      rintro id c b hc hpnode hdata' hdiffers rfl
      obtain ⟨k', hk', hadd⟩ := h.key hc hdata'
      exact hdiffers (by rw [hadd, hold k' hk'])
    refine ⟨⟨t'.write a (some d.fresh), update d.confs d.fresh (some ⟨ban, false, false, 0, .min,
      some a⟩), d.fresh + 1, d.temps⟩, ?_, ⟨⟨label', hinv''⟩, hbits.trans h.bits, ?_, ?_⟩,
        fun q => ?_⟩
    · have hmade : (d.makeConf ⟨ban, false, false, 0, .min, none⟩).tree.makeAndLookupIp addr
        (newBitlen bits) = some (t', a) := hlookup
      simp only [State.makeConf] at hmade
      simp [State.finishOne, hmask, State.addDline, State.addIpline, State.makeConf, State.setConf,
        hmade]
    · intro id c hc
      by_cases hid : id = d.fresh
      · exact hid ▸ Nat.lt_succ_self _
      · dsimp only at hc
        rw [update_of_ne hid] at hc
        exact (h.fresh id c hc).trans (Nat.lt_succ_self _)
    · intro b k' hk'
      dsimp only at hk' ⊢
      rw [hlinks] at hk'
      rw [hdataAt]
      by_cases hb : b = a
      · rw [hb, hkeya] at hk'
        cases hk'
        rw [hb, update_self]
        exact ⟨d.fresh, _, rfl, update_self .., rfl, hkey⟩
      · rw [hkeys, update_of_ne hb] at hk'
        obtain ⟨id, c, hdata', hc, hrest⟩ := h.node b k' hk'
        refine ⟨id, c, by rw [update_of_ne hb, hdata'], ?_, hrest⟩
        rw [update_of_ne (h.fresh id c hc).ne, hc]
    · rw [hkey]
      constructor
      · rintro ⟨id, c, b, hc, hpnode, hdata', hperm, rfl⟩
        dsimp only at hc hdata'
        by_cases hid : id = d.fresh
        · rw [hid, update_self] at hc
          cases hc
          exact .inr ⟨rfl, rfl⟩
        · rw [update_of_ne hid] at hc
          obtain ⟨-, hdata', hdiffers⟩ := (hother id c b hc hpnode).mp hdata'
          exact .inl ⟨⟨id, c, b, hc, hpnode, hdata', hperm, rfl⟩, hdiffers.symm⟩
      · rintro (⟨⟨id, c, b, hc, hpnode, hdata', hperm, rfl⟩, hdiffers⟩ | ⟨-, rfl⟩)
        · have hb := hne id c b hc hpnode hdata' hdiffers.symm
          refine ⟨id, c, b, ?_, hpnode, (hother id c b hc hpnode).mpr ⟨hb, hdata', hdiffers.symm⟩,
            hperm, rfl⟩
          dsimp only
          rw [update_of_ne (h.fresh id c hc).ne, hc]
        · refine ⟨d.fresh, _, a, update_self .., rfl, ?_, rfl, rfl⟩
          dsimp only
          rw [hdataAt, update_self]

theorem last_cons : Last (ban :: bans) q ↔
    ((addKey q.host).isSome ∧ q = ban ∧ ∀ b ∈ bans, addKey b.host ≠ addKey q.host) ∨
    Last bans q := by
  constructor
  · rintro ⟨hsome, before, after, heq, hafter⟩
    cases before with
    | nil =>
      obtain ⟨rfl, rfl⟩ := cons.inj heq
      exact .inl ⟨hsome, rfl, hafter⟩
    | cons b before => exact .inr ⟨hsome, before, after, (cons.inj heq).2, hafter⟩
  · rintro (⟨hsome, rfl, hafter⟩ | ⟨hsome, before, after, rfl, hafter⟩)
    · exact ⟨hsome, [], bans, rfl, hafter⟩
    · exact ⟨hsome, ban :: before, after, rfl, hafter⟩

/-- **The D-lines of the helper.** After the list, a D-line is in the tree if it is the last one of
the list for its bits, or was there and none of the list is for its bits. -/
theorem Held.foldlM_finishOne (h : Held d) (bans : List Ban) :
    ∃ d', bans.foldlM State.finishOne d = some d' ∧
    Held d' ∧ ∀ q, InTree d' q ↔ (InTree d q ∧ ∀ b ∈ bans, addKey b.host ≠ addKey q.host) ∨
    Last bans q := by
  induction bans generalizing d with
  | nil => exact ⟨d, rfl, h, fun q => by simp [Last]⟩
  | cons ban bans ih =>
    obtain ⟨d₁, hd₁, hkeyed, hone⟩ := h.finishOne ban
    obtain ⟨d', hd', hheld, hall⟩ := ih hkeyed
    refine ⟨d', by rw [foldlM_cons, hd₁, Option.bind_eq_bind, Option.bind_some, hd'], hheld,
      fun q => ?_⟩
    rw [hall, hone]
    rw [last_cons, forall_mem_cons]
    constructor
    · rintro (⟨⟨hq, hdiffers⟩ | ⟨hsome, rfl⟩, hrest⟩ | hq)
      · exact .inl ⟨hq, hdiffers, hrest⟩
      · exact .inr (.inl ⟨hsome, rfl, hrest⟩)
      · exact .inr (.inr hq)
    · rintro (⟨hq, hdiffers, hrest⟩ | ⟨hsome, rfl, hrest⟩ | hq)
      · exact .inl ⟨Or.inl ⟨hq, hdiffers⟩, hrest⟩
      · exact .inl ⟨Or.inr ⟨hsome, rfl⟩, hrest⟩
      · exact .inr hq

/-! ### The permanent D-lines -/

/-- A D-line that its node has. -/
structure Entry (d : State) (id : ConfId) (c : Conf) (a : Addr) : Prop where
  conf : d.confs id = some c
  pnode : c.pnode = some a
  data : d.tree.dataAt a = some id

theorem inTree_iff : InTree d q ↔ ∃ id c a, Entry d id c a ∧ c.temporary = false ∧ c.ban = q := by
  constructor
  · rintro ⟨id, c, a, hc, hpnode, hdata, hperm, hban⟩
    exact ⟨id, c, a, ⟨hc, hpnode, hdata⟩, hperm, hban⟩
  · rintro ⟨id, c, a, ⟨hc, hpnode, hdata⟩, hperm, hban⟩
    exact ⟨id, c, a, hc, hpnode, hdata, hperm, hban⟩

/-- The list of the permanent D-lines that nodes have. -/
theorem Held.permDlines (h : Held d) {nodes : List Addr}
    (hnodes : ∀ a ∈ nodes, ∃ k, d.tree.links.key a = some k) (hnodup : nodes.Nodup) : ∃ l,
      d.permDlines nodes = some l ∧ l.Nodup ∧ ∀ id, id ∈ l ↔ ∃ c a, Entry d id c a ∧
      c.temporary = false ∧ a ∈ nodes := by
  -- The list so far has the D-lines of the nodes that were walked.
  suffices hloop : ∀ list : List ConfId, list.Nodup → (∀ id ∈ list, ∀ c a, Entry d id c a →
      a ∉ nodes) → ∃ l, nodes.foldlM (fun list a => do
        let id ← d.tree.dataAt a
        let c ← d.confs id
        some (if c.temporary then list else id :: list)) list = some l ∧ l.Nodup ∧
      ∀ id, id ∈ l ↔ id ∈ list ∨ ∃ c a, Entry d id c a ∧ c.temporary = false ∧ a ∈ nodes by
    obtain ⟨l, hl, hnodup', hmem⟩ := hloop [] nodup_nil fun id hid => absurd hid not_mem_nil
    exact ⟨l, hl, hnodup', by simpa using hmem⟩
  induction nodes with
  | nil => exact fun list hlist _ => ⟨list, rfl, hlist, by simp⟩
  | cons a nodes ih =>
    intro list hlist hother
    obtain ⟨ha, hnodup⟩ := nodup_cons.mp hnodup
    obtain ⟨k, hk⟩ := hnodes a mem_cons_self
    obtain ⟨id, c, hdata, hc, hpnode, -⟩ := h.node a k hk
    have hentry : Entry d id c a := ⟨hc, hpnode, hdata⟩
    have hrest := ih (fun b hb => hnodes b (mem_cons_of_mem _ hb)) hnodup
    -- The D-line of this node is the only one for it.
    have honly : ∀ id', (∃ c' b, Entry d id' c' b ∧ c'.temporary = false ∧ b ∈ a :: nodes) ↔
        (id' = id ∧ c.temporary = false) ∨ ∃ c' b, Entry d id' c' b ∧ c'.temporary = false ∧
            b ∈ nodes := by
      intro id'
      constructor
      · rintro ⟨c', b, he, hperm, hb⟩
        rcases mem_cons.mp hb with rfl | hb
        · cases he.data.symm.trans hdata
          cases he.conf.symm.trans hc
          exact .inl ⟨rfl, hperm⟩
        · exact .inr ⟨c', b, he, hperm, hb⟩
      · rintro (⟨rfl, hperm⟩ | ⟨c', b, he, hperm, hb⟩)
        · exact ⟨c, a, hentry, hperm, mem_cons_self⟩
        · exact ⟨c', b, he, hperm, mem_cons_of_mem _ hb⟩
    simp only [foldlM_cons, hdata, hc, Option.bind_eq_bind, Option.bind_some]
    cases htemp : c.temporary with
    | true =>
      rw [if_pos rfl]
      obtain ⟨l, hl, hnodup', hmem⟩ := hrest list hlist fun id' hid' c' b he hb =>
        hother id' hid' c' b he (mem_cons_of_mem _ hb)
      refine ⟨l, hl, hnodup', fun id' => ?_⟩
      rw [hmem, honly]
      simp [htemp]
    | false =>
      rw [if_neg (by simp)]
      have hnew : id ∉ list := fun hid => hother id hid c a hentry mem_cons_self
      obtain ⟨l, hl, hnodup', hmem⟩ := hrest (id :: list) (nodup_cons.mpr ⟨hnew, hlist⟩) (by
        intro id' hid' c' b he hb
        rcases mem_cons.mp hid' with rfl | hid'
        · cases he.conf.symm.trans hc
          cases he.pnode.symm.trans hpnode
          exact ha hb
        · exact hother id' hid' c' b he (mem_cons_of_mem _ hb))
      refine ⟨l, hl, hnodup', fun id' => ?_⟩
      rw [hmem, honly, mem_cons]
      simp only [htemp, and_true, or_assoc, or_left_comm]

/-- A node of a list is freed for the first D-line that is removed. -/
theorem foldlM_freeNode : l.foldlM (fun s id => (s.removeDline id).bind Dlink.freeNode) d =
    some d' ↔ l = [] ∧ d' = d := by
  cases l with
  | nil => simp [eq_comm]
  | cons id l =>
    rw [foldlM_cons]
    cases d.removeDline id <;> simp [Dlink.freeNode]

/-- **The permanent D-lines.** Nothing is removed if there is none, and the program ends
otherwise. -/
theorem Held.removePermDlines (h : Held d) :
    d.removePermDlines = some d' ↔ (∀ q, ¬InTree d q) ∧ d' = d := by
  obtain ⟨label, hinv⟩ := h.inv
  obtain ⟨nodes, hwalk, hnodup, hmem⟩ := hinv.walk
  have hkey : ∀ a, a ∈ nodes ↔ ∃ k, d.tree.links.key a = some k := by
    intro a
    rw [hmem, Tree.key_pfxAt]
    simp [Option.map_eq_some_iff]
  obtain ⟨l, hl, -, hlmem⟩ := h.permDlines (fun a ha => (hkey a).mp ha) hnodup
  rw [State.removePermDlines, hwalk, Option.bind_eq_bind, Option.bind_some, hl, Option.bind_some,
    foldlM_freeNode]
  refine and_congr_left fun _ => ?_
  rw [eq_nil_iff_forall_not_mem]
  constructor
  · intro hnil q hq
    obtain ⟨id, c, a, he, hperm, -⟩ := inTree_iff.mp hq
    obtain ⟨k, hk, -⟩ := h.key he.conf he.data
    exact hnil id ((hlmem id).mpr ⟨c, a, he, hperm, (hkey a).mpr ⟨k, hk⟩⟩)
  · intro hnone id hid
    obtain ⟨c, a, he, hperm, -⟩ := (hlmem id).mp hid
    exact hnone c.ban (inTree_iff.mpr ⟨id, c, a, he, hperm, rfl⟩)

end Held

end Ratbox.Dlines
