import Ratbox.Patricia.Families

/-!
# Counting addresses in blocks

A patricia tree has a node for each block of addresses that someone is in, with the number of those
as its data. An address is counted at the node that a search for it finds, or at a new one, and the
node goes when its number becomes 0. Both families are in the same tree, and a search compares bits
only: the numbers are right as long as the block that is found is of the family of the address.

Source: `src/s_conf.c`, lines 384–453, and `src/reject.c`, lines 524–579.

## Main definitions

* `Limits.blockNode`: the node at which an address is counted.
* `Limits.Own`: the block that is found for an address is of its family.
* `Limits.Counts`: the numbers are those of the addresses that are counted.

## Main results

* `Limits.Counts.inc`, `Limits.Counts.dec`: an address is counted, and counted no more.
* `Limits.Counts.count`: the number that is found for an address is that of its block.
-/

namespace Ratbox.Limits

open Address Patricia CritBit Option Function

/-- The number in the data of a node; it is 0 without data. -/
def counter (t : Patricia.Tree ℤ) (a : Addr) : ℤ := (t.dataAt a).getD 0

/-- The node at which an address is counted: one that matches, or a new one. -/
def blockNode (t : Patricia.Tree ℤ) (bitlen : Family → ℕ) (ip : Ip) :
    Option (Patricia.Tree ℤ × Addr) := do
  match ← t.matchIp ip with
  | some a => some (t, a)
  | none => t.makeAndLookupIp ip (bitlen ip.family)

/-- The bits of an address. -/
def key (ip : Ip) : List Bool := (ip.pfx ip.family.bits).key

/-- The address is in the block. -/
def InBlock (ip : Ip) (q : Prefix) : Prop := ip.family = q.family ∧ q.key <+: key ip

instance (ip : Ip) (q : Prefix) : Decidable (InBlock ip q) := inferInstanceAs (Decidable (_ ∧ _))

/-- The longest block whose bits the address starts with is of its family, and no longer block is
found. -/
structure Own (t : Patricia.Tree ℤ) (ip : Ip) : Prop where
  longest : ∀ a q, t.pfxAt a = some q → IsLongest t.links.stored (key ip) q.key →
    q.family = ip.family
  short : ¬Overshoots t.links.stored (ip.pfx ip.family.bits)

/-- **The numbers are right**: the counters are the numbers of the addresses in the blocks, and
every address is in one. -/
structure Counts (t : Patricia.Tree ℤ) (bitlen : Family → ℕ) (ips : Multiset Ip) : Prop where
  inv : ∃ label, Tree.Inv t label
  maxbits : t.maxbits = 128
  fits : ∀ a q, t.pfxAt a = some q → q.Fits q.family ∧ q.bitlen = bitlen q.family
  counted : ∀ a q, t.pfxAt a = some q → counter t a = ips.countP (fun x => InBlock x q) ∧
    0 < counter t a
  found : ∀ x ∈ ips, ∃ a q, t.pfxAt a = some q ∧ InBlock x q

section Tree

variable {t : Patricia.Tree ℤ} {label : Addr → ℕ → Bool} {bitlen : Family → ℕ} {x : Ip} {a b : Addr}
  {q q' : Prefix}

theorem length_key (q : Prefix) : q.key.length = q.bitlen := length_take ..

theorem bits_le_maxbits (hmax : t.maxbits = 128) : (x.pfx x.family.bits).bitlen ≤ t.maxbits :=
  hmax ▸ Mixed.bits_le x.family

/-- The block of an address contains it. -/
theorem inBlock_pfx {n : ℕ} (hn : n ≤ x.family.bits) : InBlock x (x.pfx n) :=
  ⟨rfl, Prefix.key_prefix_iff.mpr ⟨hn, Agree.refl _ _⟩⟩

theorem mem_stored (hq : t.pfxAt a = some q) : q.key ∈ t.links.stored :=
  ⟨a, by rw [Tree.key_pfxAt, hq, map_some]⟩

theorem exists_pfxAt {k : List Bool} (hk : t.links.key a = some k) :
    ∃ q, t.pfxAt a = some q ∧ q.key = k := by
  rw [Tree.key_pfxAt] at hk
  exact map_eq_some_iff.mp hk

/-- A match is a node with a prefix; without a match there is no block whose bits the address starts
with. -/
theorem matchIp_spec (h : Tree.Inv t label) (hmax : t.maxbits = 128) (x : Ip) :
    ∃ r, t.matchIp x = some r ∧ (∀ a, r = some a → ∃ q, t.pfxAt a = some q) ∧
      (r = none → ∀ k ∈ t.links.stored, ¬k <+: key x) ∧
      (¬Overshoots t.links.stored (x.pfx x.family.bits) → ∀ a q, r = some a → t.pfxAt a = some q →
        IsLongest t.links.stored (key x) q.key) := by
  obtain ⟨r, hr, hover, hbest⟩ := h.searchBest (bits_le_maxbits (x := x) hmax)
  refine ⟨r, hr, fun a ha => ?_, fun hnone => ?_, fun hshort a q ha hq => ?_⟩
  · by_cases hov : Overshoots t.links.stored (x.pfx x.family.bits)
    · obtain ⟨b, k, hb, hk, -⟩ := hover hov
      obtain ⟨q, hq, -⟩ := exists_pfxAt hk
      exact ⟨q, (some.inj (ha.symm.trans hb)) ▸ hq⟩
    · obtain ⟨k, hk, -⟩ := (hbest hov).1 a ha
      obtain ⟨q, hq, -⟩ := exists_pfxAt hk
      exact ⟨q, hq⟩
  · by_cases hov : Overshoots t.links.stored (x.pfx x.family.bits)
    · obtain ⟨b, k, hb, -, -⟩ := hover hov
      cases hnone.symm.trans hb
    · exact (hbest hov).2 hnone
  · obtain ⟨k, hk, hlongest⟩ := (hbest hshort).1 a ha
    obtain ⟨q', hq', rfl⟩ := exists_pfxAt hk
    rw [some.inj (hq.symm.trans hq')]
    exact hlongest

/-- The node at which an address is counted is one that matches, or a new one without data. -/
theorem blockNode_spec (h : Tree.Inv t label) (hmax : t.maxbits = 128)
    (hlen : bitlen x.family ≤ x.family.bits) :
    ∃ t' a label', blockNode t bitlen x = some (t', a) ∧ Tree.Inv t' label' ∧ t'.maxbits = 128 ∧
      ((t' = t ∧ t.matchIp x = some (some a) ∧ ∃ q, t'.pfxAt a = some q) ∨
        (t.matchIp x = some none ∧ (∀ k ∈ t.links.stored, ¬k <+: key x) ∧
          t.pfxAt a = none ∧ t.dataAt a = none ∧ t'.dataAt = t.dataAt ∧
          t'.pfxAt = update t.pfxAt a (some (x.pfx (bitlen x.family))))) := by
  obtain ⟨r, hr, hfound, hnone, -⟩ := matchIp_spec h hmax x
  cases r with
  | some a =>
    obtain ⟨q, hq⟩ := hfound a rfl
    exact ⟨t, a, label, by rw [blockNode, hr]; rfl, h, hmax, .inl ⟨rfl, hr, q, hq⟩⟩
  | none =>
    have hout := hnone rfl
    have hle : (x.pfx (bitlen x.family)).bitlen ≤ t.maxbits :=
      hmax ▸ hlen.trans (Mixed.bits_le x.family)
    obtain ⟨t', a, label', hlookup, hinv, hmax', hdata, hpfx⟩ := h.lookup hle
    refine ⟨t', a, label', by rw [blockNode, hr]; exact hlookup, hinv, hmax'.trans hmax, .inr ?_⟩
    obtain ⟨q, hq, hkey, -⟩ | ⟨hnew, hupdate⟩ := hpfx
    · exact absurd (hkey ▸ (inBlock_pfx hlen).2) (hout _ (mem_stored hq))
    · refine ⟨hr, hout, hnew, ?_, hdata, hupdate⟩
      cases hn : t.node a with
      | none => rw [Tree.dataAt, hn, bind_none]
      | some n =>
        rw [Tree.dataAt_node hn]
        exact h.sane.data a n hn ((Tree.pfxAt_node hn).symm.trans hnew)

theorem exists_node_of_pfxAt (hq : t.pfxAt a = some q) : ∃ n, t.node a = some n ∧ n.pfx = some q :=
  bind_eq_some_iff.mp hq

/-- Writing the data of a block. -/
theorem write_spec (h : Tree.Inv t label) (hq : t.pfxAt a = some q) (d : Option ℤ) :
    Tree.Inv (t.write a d) label ∧ (t.write a d).pfxAt = t.pfxAt ∧
      (t.write a d).dataAt = update t.dataAt a d := by
  obtain ⟨n, hn, hpfx⟩ := exists_node_of_pfxAt hq
  refine ⟨(h.write hn (by rw [hpfx]; rfl) d).1, ?_, Tree.dataAt_modify hn _⟩
  rw [Tree.write, Tree.pfxAt_modify hn, hpfx, ← hq, update_eq_self]

theorem remove_spec (h : Tree.Inv t label) (hq : t.pfxAt a = some q) :
    ∃ t', t.remove a = some t' ∧ Tree.Inv t' label ∧ t'.maxbits = t.maxbits ∧
      t'.pfxAt = update t.pfxAt a none ∧ t'.dataAt = update t.dataAt a none := by
  obtain ⟨n, hn, -⟩ := exists_node_of_pfxAt hq
  exact h.remove hn

/-- What is found depends on the blocks only. -/
theorem Own.congr {t' : Patricia.Tree ℤ} (h : Own t x) (hpfx : t'.pfxAt = t.pfxAt) : Own t' x := by
  have hstored : t'.links.stored = t.links.stored := by
    ext k
    simp [Links.stored, Tree.key_pfxAt, hpfx]
  exact ⟨fun a q hq hlongest => h.longest a q (hpfx ▸ hq) (hstored ▸ hlongest), hstored ▸ h.short⟩

/-- Blocks of one family are of the family of its addresses. -/
theorem own_of_family (hfits : ∀ a q, t.pfxAt a = some q → q.Fits q.family)
    (hfamily : ∀ a q, t.pfxAt a = some q → q.family = x.family) : Own t x := by
  refine ⟨fun a q hq _ => hfamily a q hq, ?_⟩
  rintro ⟨k, ⟨a, hk⟩, hlt, -⟩
  obtain ⟨q, hq, rfl⟩ := exists_pfxAt hk
  rw [length_key] at hlt
  have hle := (hfits a q hq).bitlen
  rw [hfamily a q hq] at hle
  exact absurd hlt hle.not_gt

end Tree

section Counts

variable {t : Patricia.Tree ℤ} {bitlen : Family → ℕ} {ips : Multiset Ip} {x : Ip} {a b : Addr}
  {q q' : Prefix}

theorem counts_new (bitlen : Family → ℕ) : Counts (new 128) bitlen 0 where
  inv := ⟨_, inv_new 128⟩
  maxbits := rfl
  fits := by rintro a q ⟨⟩
  counted := by rintro a q ⟨⟩
  found _ hx := absurd hx (Multiset.notMem_zero _)

section

variable (h : Counts t bitlen ips)
include h

/-- An address is in one block only. -/
theorem Counts.unique (ha : t.pfxAt a = some q) (hb : t.pfxAt b = some q') (hq : InBlock x q)
    (hq' : InBlock x q') : a = b := by
  obtain ⟨label, hinv⟩ := h.inv
  have hlength : q.key.length = q'.key.length := by
    rw [length_key, length_key, (h.fits a q ha).2, (h.fits b q' hb).2, ← hq.1, ← hq'.1]
  have hkey : q.key = q'.key := (List.prefix_of_prefix_length_le hq.2 hq'.2 hlength.le).eq_of_length
    hlength
  refine hinv.shape.key_inj (k := q.key) ?_ ?_
  · rw [Tree.key_pfxAt, ha, map_some]
  · rw [Tree.key_pfxAt, hb, map_some, hkey]

/-- With a block of the own family on the way, a match is the block of the address. -/
theorem Counts.inBlock_of_match (hown : Own t x) (hmatch : t.matchIp x = some (some a)) :
    ∃ q, t.pfxAt a = some q ∧ InBlock x q := by
  obtain ⟨label, hinv⟩ := h.inv
  obtain ⟨r, hr, hfound, -, hlongest⟩ := matchIp_spec hinv h.maxbits x
  cases hmatch.symm.trans hr
  obtain ⟨q, hq⟩ := hfound a rfl
  have hq' := hlongest hown.short a q rfl hq
  exact ⟨q, hq, (hown.longest a q hq hq').symm, hq'.starts⟩

/-- Without a block whose bits the address starts with, no address is in its block: it would have
one itself. -/
theorem Counts.countP_of_out (hlen : bitlen x.family ≤ x.family.bits)
    (hout : ∀ k ∈ t.links.stored, ¬k <+: key x) :
    ips.countP (fun y => InBlock y (x.pfx (bitlen x.family))) = 0 := by
  rw [Multiset.countP_eq_zero]
  intro y hy hin
  obtain ⟨b, q, hq, hin'⟩ := h.found y hy
  have hlength : q.key.length = (x.pfx (bitlen x.family)).key.length := by
    rw [length_key, length_key, (h.fits b q hq).2, ← hin'.1, hin.1]
    rfl
  have hkey := (List.prefix_of_prefix_length_le hin'.2 hin.2 hlength.le).eq_of_length hlength
  exact hout _ (mem_stored hq) (hkey ▸ (inBlock_pfx hlen).2)

/-- **An address is counted** in its block. -/
theorem Counts.inc (hlen : bitlen x.family ≤ x.family.bits) (hvalid : x.Valid) (hown : Own t x) :
    ∃ t' a, blockNode t bitlen x = some (t', a) ∧
      Counts (t'.write a (some (counter t' a + 1))) bitlen (x ::ₘ ips) := by
  obtain ⟨label, hinv⟩ := h.inv
  obtain ⟨t', a, label', hfind, hinv', hmax', hcase⟩ := blockNode_spec hinv h.maxbits hlen
  refine ⟨t', a, hfind, ?_⟩
  -- The block of the address, with its number before.
  have hblock : ∃ q, t'.pfxAt a = some q ∧ InBlock x q ∧ q.Fits q.family ∧
      q.bitlen = bitlen q.family ∧ counter t' a = ips.countP (fun y => InBlock y q) ∧
      (∀ b q', t'.pfxAt b = some q' → b ≠ a → t.pfxAt b = some q' ∧ counter t' b = counter t b ∧
        ¬InBlock x q') ∧
      ∀ b q', t.pfxAt b = some q' → t'.pfxAt b = some q' := by
    obtain ⟨rfl, hmatch, -⟩ | ⟨-, hout, hnew, hnone, hdata, hpfx⟩ := hcase
    · obtain ⟨q, hq, hin⟩ := h.inBlock_of_match hown hmatch
      obtain ⟨hfits, hbits⟩ := h.fits a q hq
      exact ⟨q, hq, hin, hfits, hbits, (h.counted a q hq).1, fun b q' hb hne =>
        ⟨hb, rfl, fun hin' => hne (h.unique hb hq hin' hin)⟩, fun _ _ => id⟩
    · refine ⟨_, by rw [hpfx, update_self], inBlock_pfx hlen, ⟨rfl, hvalid, hlen⟩, rfl, ?_,
        fun b q' hb hne => ?_, fun b q' hb => ?_⟩
      · rw [counter, hdata, hnone, getD_none, eq_comm, Nat.cast_eq_zero]
        exact h.countP_of_out hlen hout
      · rw [hpfx, update_of_ne hne] at hb
        exact ⟨hb, by rw [counter, counter, hdata], fun hin => hout _ (mem_stored hb) hin.2⟩
      · rw [hpfx, update_of_ne]
        · exact hb
        · rintro rfl
          cases hnew.symm.trans hb
  obtain ⟨q, hq, hin, hfits, hbits, hcount, hother, hkept⟩ := hblock
  obtain ⟨hwritten, hpfx, hdata⟩ := write_spec hinv' hq (some (counter t' a + 1))
  have hcounter : ∀ b, counter (t'.write a (some (counter t' a + 1))) b =
      if b = a then counter t' a + 1 else counter t' b := by
    intro b
    rw [counter, hdata, update_apply]
    split_ifs
    · rfl
    · rfl
  refine ⟨⟨_, hwritten⟩, hmax', fun b q' hb => ?_, fun b q' hb => ?_, fun y hy => ?_⟩
  · rw [hpfx] at hb
    by_cases hba : b = a
    · subst hba
      cases hq.symm.trans hb
      exact ⟨hfits, hbits⟩
    · exact h.fits b q' (hother b q' hb hba).1
  · rw [hpfx] at hb
    rw [hcounter]
    split_ifs with hba
    · subst hba
      cases hq.symm.trans hb
      rw [Multiset.countP_cons_of_pos (p := fun y => InBlock y q) _ hin, hcount]
      exact ⟨by push_cast; rfl, by positivity⟩
    · obtain ⟨hb', hsame, hnot⟩ := hother b q' hb hba
      rw [Multiset.countP_cons_of_neg (p := fun y => InBlock y q') _ hnot, hsame]
      exact h.counted b q' hb'
  · rw [hpfx]
    obtain rfl | hy := Multiset.mem_cons.mp hy
    · exact ⟨a, q, hq, hin⟩
    · obtain ⟨b, q', hb, hin'⟩ := h.found y hy
      exact ⟨b, q', hkept b q' hb, hin'⟩

/-- **An address is not counted** in its block any more; a block with nobody left in it is
removed. -/
theorem Counts.dec (hown : Own t x) (hx : x ∈ ips) :
    ∃ a, t.matchIp x = some (some a) ∧
      (counter t a - 1 = 0 → ∃ t', (t.write a (some (counter t a - 1))).remove a = some t' ∧
        Counts t' bitlen (ips.erase x)) ∧
      (counter t a - 1 ≠ 0 → Counts (t.write a (some (counter t a - 1))) bitlen (ips.erase x)) := by
  obtain ⟨label, hinv⟩ := h.inv
  obtain ⟨r, hr, -, hnone, -⟩ := matchIp_spec hinv h.maxbits x
  obtain ⟨b, q', hb, hin'⟩ := h.found x hx
  cases r with
  | none => exact absurd hin'.2 (hnone rfl _ (mem_stored hb))
  | some a =>
    obtain ⟨q, hq, hin⟩ := h.inBlock_of_match hown hr
    obtain ⟨hcount, -⟩ := h.counted a q hq
    obtain ⟨hwritten, hpfx, hdata⟩ := write_spec hinv hq (some (counter t a - 1))
    -- The numbers of the addresses that are left.
    have hleft : ∀ b q', t.pfxAt b = some q' → ((ips.erase x).countP (fun y => InBlock y q') : ℤ) =
        if b = a then counter t a - 1 else counter t b := by
      intro b q' hb
      obtain ⟨hcount', -⟩ := h.counted b q' hb
      have hsplit : ips.countP (fun y => InBlock y q') =
          (ips.erase x).countP (fun y => InBlock y q') + if InBlock x q' then 1 else 0 := by
        conv_lhs => rw [← Multiset.cons_erase hx]
        rw [Multiset.countP_cons]
      rw [hsplit] at hcount'
      split_ifs with hba
      · subst hba
        cases hq.symm.trans hb
        rw [if_pos hin] at hcount'
        omega
      · rw [if_neg fun hin' => hba (h.unique hb hq hin' hin)] at hcount'
        omega
    have hstill : ∀ y ∈ ips.erase x, ∃ b q', t.pfxAt b = some q' ∧ InBlock y q' :=
      fun y hy => h.found y (Multiset.mem_of_mem_erase hy)
    refine ⟨a, hr, fun hzero => ?_, fun hne => ?_⟩
    · obtain ⟨t', hremove, hinv', hmax, hpfx', hdata'⟩ := remove_spec (q := q) hwritten (hpfx ▸ hq)
      rw [hpfx] at hpfx'
      rw [hdata, update_idem] at hdata'
      have hold : ∀ {b q'}, t'.pfxAt b = some q' → b ≠ a ∧ t.pfxAt b = some q' := by
        intro b q' hb
        rw [hpfx', update_apply] at hb
        split_ifs at hb with hba
        exact ⟨hba, hb⟩
      refine ⟨t', hremove, ⟨_, hinv'⟩, hmax.trans h.maxbits, fun b q' hb => h.fits b q' (hold hb).2,
        fun b q' hb => ?_, fun y hy => ?_⟩
      · obtain ⟨hba, hb⟩ := hold hb
        rw [hleft b q' hb, if_neg hba, counter, hdata', update_of_ne hba]
        exact ⟨rfl, (h.counted b q' hb).2⟩
      · obtain ⟨b, q', hb, hin'⟩ := hstill y hy
        refine ⟨b, q', ?_, hin'⟩
        rw [hpfx', update_of_ne, hb]
        -- The block that was removed has nobody left in it.
        rintro rfl
        have hnobody := hleft b q' hb
        rw [if_pos rfl, hzero, Nat.cast_eq_zero, Multiset.countP_eq_zero] at hnobody
        exact hnobody y hy hin'
    · refine ⟨⟨_, hwritten⟩, h.maxbits, fun b q' hb => h.fits b q' (hpfx ▸ hb), fun b q' hb => ?_,
        fun y hy => ?_⟩
      · rw [hpfx] at hb
        rw [hleft b q' hb, counter, hdata, update_apply]
        split_ifs with hba
        · refine ⟨rfl, ?_⟩
          have hnonneg := hleft b q' hb
          rw [if_pos hba] at hnonneg
          rw [getD_some]
          omega
        · exact ⟨rfl, (h.counted b q' hb).2⟩
      · rw [hpfx]
        exact hstill y hy

/-- **The number that is found** for an address is that of the addresses in its block. -/
theorem Counts.count (hlen : bitlen x.family ≤ x.family.bits) (hown : Own t x) :
    ∃ r, t.matchIp x = some r ∧
      (r.map (counter t)).getD 0 = ips.countP (fun y => InBlock y (x.pfx (bitlen x.family))) := by
  obtain ⟨label, hinv⟩ := h.inv
  obtain ⟨r, hr, -, hnone, -⟩ := matchIp_spec hinv h.maxbits x
  refine ⟨r, hr, ?_⟩
  have hkey : ∀ b q, t.pfxAt b = some q → InBlock x q → q.key = (x.pfx (bitlen x.family)).key := by
    intro b q hq hin
    have hlength : q.key.length = (x.pfx (bitlen x.family)).key.length := by
      rw [length_key, length_key, (h.fits b q hq).2, ← hin.1]
      rfl
    exact (List.prefix_of_prefix_length_le hin.2 (inBlock_pfx hlen).2 hlength.le).eq_of_length
      hlength
  cases r with
  | some a =>
    obtain ⟨q, hq, hin⟩ := h.inBlock_of_match hown hr
    rw [map_some, getD_some, (h.counted a q hq).1]
    congr 1
    refine Multiset.countP_congr rfl fun y _ => ?_
    rw [InBlock, InBlock, hkey a q hq hin, ← hin.1]
    rfl
  | none =>
    rw [map_none, getD_none, eq_comm, Nat.cast_eq_zero]
    exact h.countP_of_out hlen (hnone rfl)

end

end Counts

end Ratbox.Limits
