import Ratbox.Dlines.Basic

/-!
# Confs and nodes of D-lines

As long as no D-line is added for bits that another one has, every D-line has a node of its own, and
its conf and its node point to each other. This module has what each function does then.

Source: `src/reject.c`, lines 78–101 and 287–392, `src/s_conf.c`, lines 939–1064, and
`modules/m_rehash.c`, lines 166–182.

## Main definitions

* `Dlines.Tied`: confs and nodes point to each other.
* `Dlines.Good`: confs and nodes are tied, and the temporary D-lines are on their lists.

## Main results

* `Dlines.Tied.add`, `Dlines.Tied.remove`: a D-line is added for bits that are free, and removed.
* `Dlines.Good.expireTempKd`, `Dlines.Good.rehashTdlines`: the loops remove what they are to remove.
-/

namespace Ratbox.Dlines

open Text Address Patricia List Option Function State

/-! ### Masks -/

/-- The bits that a D-line is added for. -/
def addKey (host : Str) : Option (List Bool) :=
  (netmask host).map fun (addr, bits) => (addr.pfx (newBitlen bits)).key

/-- The bits that a D-line is looked for. -/
def exactKey (host : Str) : Option (List Bool) :=
  (netmask host).map fun (addr, bits) => (addr.pfx (min (unsigned bits) addr.family.bits)).key

/-- The bits of a mask with an IPv4 address are those of a prefix. -/
def Plain (host : Str) : Prop :=
  ∀ addr bits, netmask host = some (addr, bits) → addr.family = .inet → 0 ≤ bits ∧ bits ≤ 32

section Netmask

variable {host : Str} {addr : Ip} {bits : ℤ}

theorem netmask_spec (h : netmask host = some (addr, bits)) :
    addr.Valid ∧ -2 ^ 31 ≤ bits ∧ bits ≤ 128 := by
  rw [netmask] at h
  cases hmask : parseNetmask host with
  | host => simp [hmask] at h
  | ipv4 addr' bits' =>
    obtain ⟨rfl, rfl⟩ : addr' = addr ∧ bits' = bits := by simpa [hmask] using h
    obtain ⟨-, hvalid, hle⟩ := parseNetmask_ipv4 hmask
    exact ⟨hvalid, parseNetmask_int (.inl hmask), by omega⟩
  | ipv6 addr' bits' =>
    obtain ⟨rfl, rfl⟩ : addr' = addr ∧ bits' = bits := by simpa [hmask] using h
    obtain ⟨hvalid, hle⟩ := parseNetmask_ipv6 hmask
    exact ⟨hvalid, parseNetmask_int (.inr hmask), hle⟩

theorem newBitlen_le (h : netmask host = some (addr, bits)) : newBitlen bits ≤ 128 := by
  obtain ⟨-, -, hle⟩ := netmask_spec h
  rw [newBitlen]
  split_ifs <;> omega

/-- A plain mask is looked for by the bits that it is added for. -/
theorem Plain.bitlen (hplain : Plain host) (h : netmask host = some (addr, bits)) :
    min (unsigned bits) addr.family.bits = newBitlen bits := by
  obtain ⟨-, hge, hle⟩ := netmask_spec h
  have hunsigned : unsigned bits = if 0 ≤ bits then bits.toNat else (bits + 2 ^ 32).toNat := by
    rw [unsigned]
    split_ifs <;> omega
  rw [hunsigned, newBitlen]
  cases hfamily : addr.family with
  | inet =>
    obtain ⟨hzero, hmost⟩ := hplain addr bits h hfamily
    rw [if_pos hzero, if_pos hzero, Family.bits]
    omega
  | inet6 =>
    rw [Family.bits]
    split_ifs <;> omega

theorem Plain.key (hplain : Plain host) : exactKey host = addKey host := by
  rw [exactKey, addKey]
  cases h : netmask host with
  | none => rfl
  | some mask =>
    obtain ⟨addr, bits⟩ := mask
    rw [map_some, map_some]
    dsimp only
    rw [hplain.bitlen h]

end Netmask

/-! ### Confs and nodes -/

/-- Every node with a prefix has a D-line, and every D-line has a node, with its bits, and they
point to each other. -/
structure Tied (t : Patricia.Tree ConfId) (confs : ConfId → Option Conf) : Prop where
  inv : ∃ label, Tree.Inv t label
  bits : t.maxbits = 128
  node : ∀ a k, t.links.key a = some k →
    ∃ id c, t.dataAt a = some id ∧ confs id = some c ∧ c.pnode = some a
  conf : ∀ id c, confs id = some c → ∃ a k, c.pnode = some a ∧ t.dataAt a = some id ∧
    t.links.key a = some k ∧ addKey c.ban.host = some k
  plain : ∀ id c, confs id = some c → Plain c.ban.host

section Tied

variable {t : Patricia.Tree ConfId} {confs : ConfId → Option Conf} {id : ConfId} {c c' : Conf}

theorem tied_new : Tied (new 128) fun _ => none := by
  refine ⟨⟨_, inv_new 128⟩, rfl, ?_, ?_, ?_⟩
  · intro a k hk
    simp [Tree.links, new] at hk
  · rintro id c ⟨⟩
  · rintro id c ⟨⟩

theorem exists_node_of_key {a : Addr} {k : List Bool} (hk : t.links.key a = some k) :
    ∃ n, t.node a = some n := by
  obtain ⟨n, hn, -⟩ := bind_eq_some_iff.mp hk
  exact ⟨n, hn⟩

/-- A D-line is added for bits that no other one has. -/
theorem Tied.add (h : Tied t confs) (hid : confs id = none) {addr : Ip} {bits : ℤ}
    (hmask : netmask c.ban.host = some (addr, bits)) (hplain : Plain c.ban.host)
    (hfree : ∀ id' c', confs id' = some c' → addKey c'.ban.host ≠ addKey c.ban.host) :
    ∃ t' a, t.makeAndLookupIp addr (newBitlen bits) = some (t', a) ∧
      Tied (t'.write a (some id)) (update confs id (some { c with pnode := some a })) := by
  obtain ⟨label, hinv⟩ := h.inv
  have hmax : (addr.pfx (newBitlen bits)).bitlen ≤ t.maxbits := h.bits ▸ newBitlen_le hmask
  have hadd : addKey c.ban.host = some (addr.pfx (newBitlen bits)).key := by rw [addKey, hmask]; rfl
  obtain ⟨t', a, label', hlookup, hinv', hbits, hdata, hpfx⟩ := hinv.lookup hmax
  -- The node has no prefix before: it would be another D-line's.
  obtain ⟨q, hq, hkey, -⟩ | ⟨hnone, hnew⟩ := hpfx
  · obtain ⟨id', c', hdata', hc', hpnode⟩ := h.node a _ (by rw [Tree.key_pfxAt, hq, map_some])
    obtain ⟨a', k, hpnode', -, hk, hadd'⟩ := h.conf id' c' hc'
    obtain rfl : a = a' := some.inj (hpnode.symm.trans hpnode')
    rw [Tree.key_pfxAt, hq, map_some, hkey] at hk
    exact absurd (hadd'.trans (hk.symm.trans hadd.symm)) (hfree id' c' hc')
  have hkeys := key_update hnew
  rw [map_some] at hkeys
  have hnokey : t.links.key a = none := by rw [Tree.key_pfxAt, hnone, map_none]
  have hkeya : t'.links.key a = some (addr.pfx (newBitlen bits)).key := by
    rw [hkeys, update_self]
  obtain ⟨n, hn, hsome⟩ : ∃ n, t'.node a = some n ∧ n.pfx.isSome := by
    obtain ⟨n, hn, hp⟩ := bind_eq_some_iff.mp (show t'.pfxAt a = some _ by
      rw [hnew, update_self])
    exact ⟨n, hn, by rw [hp]; rfl⟩
  obtain ⟨hinv'', hlinks⟩ := hinv'.write hn hsome (some id)
  have hdataAt : (t'.write a (some id)).dataAt = update t.dataAt a (some id) := by
    rw [Tree.write, Tree.dataAt_modify hn, hdata]
  refine ⟨t', a, hlookup, ⟨label', hinv''⟩, hbits.trans h.bits, ?_, ?_, ?_⟩
  · intro b k hk
    rw [hlinks, hkeys] at hk
    rw [hdataAt]
    by_cases hb : b = a
    · rw [hb, update_self]
      exact ⟨id, _, rfl, update_self .., rfl⟩
    · rw [update_of_ne hb] at hk ⊢
      obtain ⟨id', c', hdata', hc', hpnode⟩ := h.node b k hk
      refine ⟨id', c', hdata', ?_, hpnode⟩
      rw [update_of_ne, hc']
      rintro rfl
      cases hid.symm.trans hc'
  · intro id' c' hc'
    rw [hlinks, hkeys, hdataAt]
    by_cases hne : id' = id
    · rw [hne, update_self] at hc'
      cases hc'
      exact ⟨a, _, rfl, by rw [update_self, hne], update_self .., hadd⟩
    · rw [update_of_ne hne] at hc'
      obtain ⟨b, k, hpnode, hdata', hk, hadd'⟩ := h.conf id' c' hc'
      have hb : b ≠ a := by
        rintro rfl
        cases hnokey.symm.trans hk
      refine ⟨b, k, hpnode, ?_, ?_, hadd'⟩
      · rw [update_of_ne hb, hdata']
      · rw [update_of_ne hb, hk]
  · intro id' c' hc'
    by_cases hne : id' = id
    · rw [hne, update_self] at hc'
      cases hc'
      exact hplain
    · rw [update_of_ne hne] at hc'
      exact h.plain id' c' hc'

theorem of_update_none {id' : ConfId} (h : update confs id none id' = some c') :
    id' ≠ id ∧ confs id' = some c' := by
  by_cases hne : id' = id
  · rw [hne, update_self] at h
    cases h
  · exact ⟨hne, (update_of_ne hne none confs).symm.trans h⟩

/-- A D-line is removed. -/
theorem Tied.remove (h : Tied t confs) (hc : confs id = some c) :
    ∃ a t', c.pnode = some a ∧ t.remove a = some t' ∧ Tied t' (update confs id none) := by
  obtain ⟨label, hinv⟩ := h.inv
  obtain ⟨a, k, hpnode, hdata, hk, -⟩ := h.conf id c hc
  obtain ⟨n, hn⟩ := exists_node_of_key hk
  obtain ⟨t', hremove, hinv', hbits, hpfx, hdataAt⟩ := hinv.remove hn
  have hkeys := key_update hpfx
  rw [map_none] at hkeys
  refine ⟨a, t', hpnode, hremove, ⟨label, hinv'⟩, hbits.trans h.bits, ?_, ?_, ?_⟩
  · intro b k' hk'
    rw [hkeys] at hk'
    rw [hdataAt]
    by_cases hb : b = a
    · rw [hb, update_self] at hk'
      cases hk'
    · rw [update_of_ne hb] at hk' ⊢
      obtain ⟨id', c', hdata', hc', hpnode'⟩ := h.node b k' hk'
      refine ⟨id', c', hdata', ?_, hpnode'⟩
      rw [update_of_ne, hc']
      rintro rfl
      cases hc.symm.trans hc'
      exact hb (some.inj (hpnode'.symm.trans hpnode))
  · intro id' c' hc'
    obtain ⟨hne, hc'⟩ := of_update_none hc'
    obtain ⟨b, k', hpnode', hdata', hk', hadd⟩ := h.conf id' c' hc'
    have hb : b ≠ a := by
      rintro rfl
      exact hne (some.inj (hdata'.symm.trans hdata))
    refine ⟨b, k', hpnode', ?_, ?_, hadd⟩
    · rw [hdataAt, update_of_ne hb, hdata']
    · rw [hkeys, update_of_ne hb, hk']
  · exact fun id' c' hc' => h.plain id' c' (of_update_none hc').2

/-- The fields of a conf that the tree does not go by can be written. -/
theorem Tied.setConf (h : Tied t confs) (hc : confs id = some c) (hban : c'.ban = c.ban)
    (hpnode : c'.pnode = c.pnode) : Tied t (update confs id (some c')) := by
  refine ⟨h.inv, h.bits, fun a k hk => ?_, fun id' d hd => ?_, fun id' d hd => ?_⟩
  · obtain ⟨id', d, hdata, hd, hpnode'⟩ := h.node a k hk
    by_cases hne : id' = id
    · subst hne
      cases hc.symm.trans hd
      exact ⟨id', c', hdata, update_self .., hpnode.trans hpnode'⟩
    · exact ⟨id', d, hdata, by rw [update_of_ne hne, hd], hpnode'⟩
  · by_cases hne : id' = id
    · subst hne
      rw [update_self] at hd
      cases hd
      rw [hpnode, hban]
      exact h.conf id' c hc
    · rw [update_of_ne hne] at hd
      exact h.conf id' d hd
  · by_cases hne : id' = id
    · subst hne
      rw [update_self] at hd
      cases hd
      exact hban ▸ h.plain id' c hc
    · rw [update_of_ne hne] at hd
      exact h.plain id' d hd

end Tied

/-! ### The invariant -/

/-- Confs and nodes are tied to each other, and the temporary D-lines are on their lists. -/
structure Good (s : State) : Prop where
  tied : Tied s.tree s.confs
  mem : ∀ i id, id ∈ s.temps i ↔ ∃ c, s.confs id = some c ∧ c.temporary = true ∧ c.port = i
  nodup : ∀ i, (s.temps i).Nodup
  fresh : ∀ id c, s.confs id = some c → id < s.fresh

theorem good_init : Good init := by
  refine ⟨tied_new, fun i id => ?_, fun i => nodup_nil, ?_⟩
  · simp [init]
  · rintro id c ⟨⟩

/-- D-lines are removed, those with a property. -/
structure Removed (P : ConfId → Conf → Prop) (s s' : State) : Prop where
  good : Good s'
  fresh : s'.fresh = s.fresh
  confs : ∀ id c, s'.confs id = some c ↔ s.confs id = some c ∧ ¬P id c

section Good

variable {s s' : State} {id : ConfId} {c : Conf} {i : Temp} {l : List ConfId}
  {t' : Patricia.Tree ConfId}

theorem Good.not_made (h : Good s) (hid : ¬id < s.fresh) : s.confs id = none := by
  by_contra hne
  obtain ⟨c, hc⟩ := ne_none_iff_exists'.mp hne
  exact hid (h.fresh id c hc)

theorem Good.not_fresh (h : Good s) : s.confs s.fresh = none := h.not_made (lt_irrefl _)

theorem Removed.of_confs (hgood : Good s') (hfresh : s'.fresh = s.fresh)
    (hconfs : s'.confs = update s.confs id none) :
    Removed (fun id' _ => id' = id) s s' := by
  refine ⟨hgood, hfresh, fun id' c => ?_⟩
  rw [hconfs]
  by_cases hne : id' = id
  · subst hne
    simp
  · rw [update_of_ne hne]
    simp [hne]

theorem Good.removeDline_eq (h : Good s) (hc : s.confs id = some c) :
    ∃ t', s.removeDline id = some ⟨t', update s.confs id none, s.fresh, s.temps⟩ ∧
      Tied t' (update s.confs id none) := by
  obtain ⟨a, t', hpnode, hremove, htied⟩ := h.tied.remove hc
  exact ⟨t', by rw [removeDline, hc, bind_eq_bind, bind_some, hpnode,
    bind_eq_bind, bind_some, hremove]; rfl, htied⟩

theorem Good.removePerm (h : Good s) (hc : s.confs id = some c) (hperm : c.temporary = false) :
    ∃ s', s.removeDline id = some s' ∧ Removed (fun id' _ => id' = id) s s' := by
  obtain ⟨t', hremove, htied⟩ := h.removeDline_eq hc
  refine ⟨_, hremove, Removed.of_confs ⟨htied, fun i id' => (h.mem i id').trans ?_, h.nodup, ?_⟩ rfl
    rfl⟩
  · refine exists_congr fun c' => ?_
    by_cases hne : id' = id
    · subst hne
      rw [hc]
      simp only [update_self, reduceCtorEq, false_and, iff_false]
      rintro ⟨heq, htemp, -⟩
      cases heq
      cases hperm.symm.trans htemp
    · dsimp only
      rw [update_of_ne hne]
  · exact fun id' c' hc' => h.fresh id' c' (of_update_none hc').2

theorem Good.mem_unlist (h : Good s) (hc : s.confs id = some c) {id' : ConfId} :
    id' ∈ (s.unlist c.port id).temps i ↔ id' ≠ id ∧ id' ∈ s.temps i := by
  dsimp only [unlist]
  by_cases hi : i = c.port
  · subst hi
    rw [update_self, (h.nodup _).mem_erase_iff]
  · rw [update_of_ne hi]
    refine ⟨fun hid' => ⟨?_, hid'⟩, And.right⟩
    rintro rfl
    obtain ⟨c', hc', -, hport⟩ := (h.mem i id').mp hid'
    cases hc.symm.trans hc'
    exact hi hport.symm

theorem Good.nodup_unlist (h : Good s) (i j : Temp) (id : ConfId) :
    ((s.unlist i id).temps j).Nodup := by
  dsimp only [unlist]
  by_cases hj : j = i
  · subst hj
    rw [update_self]
    exact (h.nodup _).erase _
  · rw [update_of_ne hj]
    exact h.nodup j

theorem Good.removeListed (h : Good s) (hc : s.confs id = some c) :
    ∃ s', (s.removeDline id).map (·.unlist c.port id) = some s' ∧
      Removed (fun id' _ => id' = id) s s' := by
  obtain ⟨t', hremove, htied⟩ := h.removeDline_eq hc
  refine ⟨⟨t', update s.confs id none, s.fresh, (s.unlist c.port id).temps⟩,
    by rw [hremove]; rfl,
    Removed.of_confs ⟨htied, fun i id' => (h.mem_unlist hc).trans ?_, fun i => h.nodup_unlist _ _ _,
      fun id' c' hc' => h.fresh id' c' (of_update_none hc').2⟩ rfl rfl⟩
  by_cases hne : id' = id
  · subst hne
    simp
  · rw [h.mem]
    simp [hne]

/-- A loop over D-lines removes those that its body removes. -/
theorem Good.removeAll {f : State → ConfId → Option State} {R Q : Conf → Prop}
    (hf : ∀ s id c, Good s → s.confs id = some c → R c →
      ∃ s', f s id = some s' ∧ Removed (fun id' c' => id' = id ∧ Q c') s s')
    (hnodup : l.Nodup) (h : Good s) (hl : ∀ id ∈ l, ∃ c, s.confs id = some c ∧ R c) :
    ∃ s', l.foldlM f s = some s' ∧ Removed (fun id c => id ∈ l ∧ Q c) s s' := by
  induction l generalizing s with
  | nil => exact ⟨s, rfl, h, rfl, by simp⟩
  | cons id l ih =>
    obtain ⟨hid, hnodup⟩ := nodup_cons.mp hnodup
    obtain ⟨c, hc, hR⟩ := hl id mem_cons_self
    obtain ⟨s₁, hs₁, hone⟩ := hf s id c h hc hR
    obtain ⟨s', hs', hrest⟩ := ih hnodup hone.good fun id' hid' => by
      obtain ⟨c', hc', hR'⟩ := hl id' (mem_cons_of_mem _ hid')
      refine ⟨c', (hone.confs id' c').mpr ⟨hc', ?_⟩, hR'⟩
      rintro ⟨rfl, -⟩
      exact hid hid'
    refine ⟨s', by rw [foldlM_cons, hs₁, bind_eq_bind, bind_some, hs'], hrest.good,
      hrest.fresh.trans hone.fresh, fun id' c' => ?_⟩
    rw [hrest.confs, hone.confs, mem_cons]
    tauto

section

variable (h : Good s)
include h

/-- **Temporary D-lines** of a list are removed, those that are over. -/
theorem Good.expireTempKd (i : Temp) (now : ℤ) :
    ∃ s', s.expireTempKd i now = some s' ∧
      Removed (fun _ c => c.temporary = true ∧ c.port = i ∧ c.hold ≤ now) s s' := by
  obtain ⟨s', hs', hremoved⟩ := Good.removeAll (f := expireOne i now)
    (R := fun c => c.temporary = true ∧ c.port = i) (Q := fun c => c.hold ≤ now)
    (fun s id c hs hc hR => by
      rw [expireOne, hc, bind_eq_bind, bind_some]
      split_ifs with hover
      · obtain ⟨a, k, hpnode, -⟩ := hs.tied.conf id c hc
        obtain ⟨s', hs', hremoved⟩ := hs.removeListed hc
        rw [hpnode]
        refine ⟨s', hR.2 ▸ hs', hremoved.good, hremoved.fresh, fun id' c' => ?_⟩
        rw [hremoved.confs]
        refine and_congr_right fun hc' => not_congr ⟨?_, And.left⟩
        rintro rfl
        exact ⟨rfl, some.inj (hc.symm.trans hc') ▸ hover⟩
      · refine ⟨s, rfl, hs, rfl, fun id' c' => (and_iff_left_of_imp ?_).symm⟩
        rintro hc' ⟨rfl, hover'⟩
        exact hover (some.inj (hc.symm.trans hc') ▸ hover'))
    (h.nodup i) h (fun id hid => by
      obtain ⟨c, hc, htemp, hport⟩ := (h.mem i id).mp hid
      exact ⟨c, hc, htemp, hport⟩)
  refine ⟨s', hs', hremoved.good, hremoved.fresh, fun id c => (hremoved.confs id c).trans ?_⟩
  refine and_congr_right fun hc => not_congr ?_
  rw [h.mem]
  constructor
  · rintro ⟨⟨c', hc', htemp, hport⟩, hover⟩
    cases hc.symm.trans hc'
    exact ⟨htemp, hport, hover⟩
  · rintro ⟨htemp, hport, hover⟩
    exact ⟨⟨c, hc, htemp, hport⟩, hover⟩

/-- A list of temporary D-lines is cleared. -/
theorem Good.rehashList (i : Temp) :
    ∃ s', (s.temps i).foldlM (rehashOne i) s = some s' ∧
      Removed (fun _ c => c.temporary = true ∧ c.port = i) s s' := by
  obtain ⟨s', hs', hremoved⟩ := Good.removeAll (f := rehashOne i)
    (R := fun c => c.port = i) (Q := fun _ => True)
    (fun s id c hs hc hR => by simpa [rehashOne, hR] using hs.removeListed hc)
    (h.nodup i) h (fun id hid => by
      obtain ⟨c, hc, -, hport⟩ := (h.mem i id).mp hid
      exact ⟨c, hc, hport⟩)
  refine ⟨s', hs', hremoved.good, hremoved.fresh, fun id c => (hremoved.confs id c).trans ?_⟩
  refine and_congr_right fun hc => not_congr ?_
  rw [h.mem, and_true]
  constructor
  · rintro ⟨c', hc', htemp, hport⟩
    exact some.inj (hc.symm.trans hc') ▸ ⟨htemp, hport⟩
  · exact fun htemp => ⟨c, hc, htemp⟩

theorem Good.rehashLists (is : List Temp) :
    ∃ s', is.foldlM (fun s i => (s.temps i).foldlM (rehashOne i) s) s = some s' ∧
      Removed (fun _ c => c.temporary = true ∧ c.port ∈ is) s s' := by
  induction is generalizing s with
  | nil => exact ⟨s, rfl, h, rfl, by simp⟩
  | cons i is ih =>
    obtain ⟨s₁, hs₁, hone⟩ := h.rehashList i
    obtain ⟨s', hs', hrest⟩ := ih hone.good
    refine ⟨s', by rw [foldlM_cons, hs₁, bind_eq_bind, bind_some, hs'], hrest.good,
      hrest.fresh.trans hone.fresh, fun id c => ?_⟩
    rw [hrest.confs, hone.confs, mem_cons]
    tauto

/-- **All temporary D-lines** are removed. -/
theorem Good.rehashTdlines :
    ∃ s', s.rehashTdlines = some s' ∧ Removed (fun _ c => c.temporary = true) s s' := by
  obtain ⟨s', hs', hremoved⟩ := h.rehashLists [.min, .hour, .day, .week]
  refine ⟨s', hs', hremoved.good, hremoved.fresh, fun id c => (hremoved.confs id c).trans ?_⟩
  refine and_congr_right fun _ => not_congr (and_iff_left ?_)
  cases c.port <;> simp

/-- What is made of a conf that is not tied yet. -/
theorem Good.addDline (s₁ : State) (htree : s₁.tree = s.tree) (hid : s.confs id = none)
    (hconfs : s₁.confs = update s.confs id (some c)) {mask : Ip × ℤ}
    (hmask : netmask c.ban.host = some mask) (hplain : Plain c.ban.host)
    (hfree : ∀ id' c', s.confs id' = some c' → addKey c'.ban.host ≠ addKey c.ban.host) :
    ∃ t' a, s₁.addDline id = some (⟨t', update s.confs id (some { c with pnode := some a }),
        s₁.fresh, s₁.temps⟩, true) ∧
      Tied t' (update s.confs id (some { c with pnode := some a })) := by
  obtain ⟨addr, bits⟩ := mask
  obtain ⟨t', a, hlookup, htied⟩ := h.tied.add hid hmask hplain hfree
  have hc : s₁.confs id = some c := by rw [hconfs, update_self]
  refine ⟨_, a, ?_, htied⟩
  rw [State.addDline, hc, bind_eq_bind, bind_some, hmask]
  dsimp only
  rw [addIpline, htree, hlookup, bind_eq_bind, bind_some, hc]
  dsimp only [setConf, bind_eq_bind, bind_some, map_some]
  rw [hconfs, update_idem]

theorem Good.fresh_made {c' : Conf}
    (hc' : update s.confs s.fresh (some c) id = some c') : id < s.fresh + 1 := by
  by_cases hne : id = s.fresh
  · exact hne ▸ Nat.lt_succ_self _
  · rw [update_of_ne hne] at hc'
    exact (h.fresh id c' hc').trans (Nat.lt_succ_self _)

/-- A permanent D-line is made. -/
theorem Good.makePerm (hperm : c.temporary = false)
    (htied : Tied t' (update s.confs s.fresh (some c))) :
    Good ⟨t', update s.confs s.fresh (some c), s.fresh + 1, s.temps⟩ := by
  refine ⟨htied, fun i id => (h.mem i id).trans ?_, h.nodup, fun _ _ => h.fresh_made⟩
  refine exists_congr fun c' => ?_
  by_cases hne : id = s.fresh
  · subst hne
    rw [h.not_fresh]
    simp only [update_self, reduceCtorEq, false_and, some.injEq, false_iff]
    rintro ⟨rfl, htemp, -⟩
    cases hperm.symm.trans htemp
  · dsimp only
    rw [update_of_ne hne]

/-- A temporary D-line is made, and put on its list. -/
theorem Good.makeTemp (htemp : c.temporary = true)
    (htied : Tied t' (update s.confs s.fresh (some c))) :
    Good ⟨t', update s.confs s.fresh (some c), s.fresh + 1,
      update s.temps c.port (s.fresh :: s.temps c.port)⟩ := by
  have hnew : ∀ i, s.fresh ∉ s.temps i := by
    intro i hmem
    obtain ⟨c', hc', -⟩ := (h.mem i _).mp hmem
    cases h.not_fresh.symm.trans hc'
  refine ⟨htied, fun i id => ?_, fun i => ?_, fun _ _ => h.fresh_made⟩
  · dsimp only
    have hmem : id ∈ update s.temps c.port (s.fresh :: s.temps c.port) i ↔
        (id = s.fresh ∧ c.port = i) ∨ id ∈ s.temps i := by
      by_cases hi : i = c.port
      · subst hi
        rw [update_self, mem_cons]
        simp
      · rw [update_of_ne hi]
        simp [Ne.symm hi]
    rw [hmem]
    by_cases hne : id = s.fresh
    · subst hne
      simp [hnew, htemp]
    · rw [update_of_ne hne, h.mem]
      simp [hne]
  · dsimp only
    by_cases hi : i = c.port
    · subst hi
      rw [update_self]
      exact nodup_cons.mpr ⟨hnew _, h.nodup _⟩
    · rw [update_of_ne hi]
      exact h.nodup i

/-- A temporary D-line is moved to another list. -/
theorem Good.reorganiseOne (hc : s.confs id = some c)
    (htemp : c.temporary = true) (hport : c.port = i) (now : ℤ) :
    ∃ s', s.reorganiseOne i now id = some s' ∧ Good s' ∧ s'.fresh = s.fresh ∧
      (∀ id', id' ≠ id → s'.confs id' = s.confs id') ∧
      ∀ id', (s'.confs id').map (·.ban) = (s.confs id').map (·.ban) := by
  subst hport
  rw [State.reorganiseOne, hc, bind_eq_bind, bind_some]
  cases hmove : moveTo c now with
  | none => exact ⟨s, rfl, h, rfl, fun _ _ => rfl, fun _ => rfl⟩
  | some j =>
    refine ⟨_, rfl, ⟨h.tied.setConf hc rfl rfl, fun i id' => ?_, fun i => ?_, fun id' c' hc' => ?_⟩,
      rfl, fun id' hne => update_of_ne hne .., fun id' => ?_⟩
    · have hmem : id' ∈ ((s.unlist c.port id).enlist j id c).temps i ↔
          (id' = id ∧ j = i) ∨ (id' ≠ id ∧ id' ∈ s.temps i) := by
        rw [← h.mem_unlist hc]
        dsimp only [enlist]
        by_cases hi : i = j
        · subst hi
          rw [update_self, mem_cons]
          simp
        · rw [update_of_ne hi]
          simp [Ne.symm hi]
      refine hmem.trans ?_
      dsimp only [enlist, setConf, unlist]
      by_cases hne : id' = id
      · subst hne
        simp [htemp]
      · rw [update_of_ne hne, h.mem]
        simp [hne]
    · dsimp only [enlist]
      by_cases hi : i = j
      · subst hi
        rw [update_self]
        refine nodup_cons.mpr ⟨fun hmem => ?_, h.nodup_unlist _ _ _⟩
        exact ((h.mem_unlist hc).mp hmem).1 rfl
      · rw [update_of_ne hi]
        exact h.nodup_unlist _ _ _
    · by_cases hne : id' = id
      · exact hne ▸ h.fresh id c hc
      · exact h.fresh id' c' ((update_of_ne hne _ _).symm.trans hc')
    · by_cases hne : id' = id
      · subst hne
        dsimp only [enlist, setConf]
        rw [update_self, hc]
        rfl
      · exact congrArg _ (update_of_ne hne ..)

theorem Good.reorganiseAll (now : ℤ) (hnodup : l.Nodup)
    (hl : ∀ id ∈ l, ∃ c, s.confs id = some c ∧ c.temporary = true ∧ c.port = i) :
    ∃ s', l.foldlM (State.reorganiseOne i now) s = some s' ∧ Good s' ∧ s'.fresh = s.fresh ∧
      ∀ id', (s'.confs id').map (·.ban) = (s.confs id').map (·.ban) := by
  induction l generalizing s with
  | nil => exact ⟨s, rfl, h, rfl, fun _ => rfl⟩
  | cons id l ih =>
    obtain ⟨hid, hnodup⟩ := nodup_cons.mp hnodup
    obtain ⟨c, hc, htemp, hport⟩ := hl id mem_cons_self
    obtain ⟨s₁, hs₁, hgood, hfresh, hsame, hban⟩ := h.reorganiseOne hc htemp hport now
    obtain ⟨s', hs', hgood', hfresh', hban'⟩ := ih hgood hnodup fun id' hid' => by
      rw [hsame id' fun heq => hid (heq ▸ hid')]
      exact hl id' (mem_cons_of_mem _ hid')
    exact ⟨s', by rw [foldlM_cons, hs₁, bind_eq_bind, bind_some, hs'], hgood',
      hfresh'.trans hfresh, fun id' => (hban' id').trans (hban id')⟩

end

end Good

end Ratbox.Dlines
