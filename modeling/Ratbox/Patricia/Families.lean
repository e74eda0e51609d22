import Ratbox.Patricia.Runs

/-!
# Addresses of both families in one tree

The trees of D-lines, exemptions, rejected addresses, throttled addresses and global limits hold
prefixes of both families. The tree goes by bits only: a prefix of one family is on the way of an
address of the other one when the bits of the address start with it, and prefixes of both families
with the same bits share a node, which has the data that was written last.

Source: `libratbox/src/patricia.c`, lines 918–1067, and `src/reject.c`.

## Main definitions

* `Patricia.Tree.matchIp`, `Patricia.Tree.makeAndLookupIp`: `rb_match_ip` and
  `rb_make_and_lookup_ip`.
* `Patricia.Mixed.addIpline`, `Patricia.Mixed.count`: how the trees are filled.
* `Patricia.Mixed.Unmixed`: the longest of the prefixes that are in the way was added for the family
  of the address.

## Main results

* `Patricia.Mixed.match_own_iff`: an address finds the entries of its own family if and only if the
  longest prefix in the way is of its family.
-/

namespace Ratbox

open Option Function

/-- `New_Prefix`. -/
def Address.Ip.pfx (ip : Address.Ip) (bitlen : ℕ) : Patricia.Prefix := ⟨ip.family, bitlen, ip.add⟩

namespace Patricia

open Address CritBit Run

/-! ### Matching addresses -/

namespace Tree

variable {δ : Type}

/-- `rb_make_and_lookup_ip`. -/
def makeAndLookupIp (t : Tree δ) (ip : Ip) (bitlen : ℕ) : Option (Tree δ × Addr) :=
  t.lookup (ip.pfx bitlen)

/-- `rb_match_ip`. -/
def matchIp (t : Tree δ) (ip : Ip) : Option (Option Addr) := t.searchBest (ip.pfx ip.family.bits)

/-- `rb_match_ip_exact`. -/
def matchIpExact (t : Tree δ) (ip : Ip) (len : ℕ) : Option (Option Addr) :=
  t.searchExact (ip.pfx (min len ip.family.bits))

end Tree

/-! ### The trees of `reject.c` -/

variable {ε : Type}

/-- An entry, with the prefix that it was added for. -/
structure Entry (ε : Type) where
  pfx : Prefix
  value : ε

/-- A tree, and the prefixes that entries were added for, the last one first. -/
structure Mixed (ε : Type) where
  tree : Tree (Entry ε)
  added : List Prefix

namespace Mixed

/-- `init_reject`. -/
def init : Mixed ε := ⟨new 128, []⟩

/-- `add_ipline`. -/
def addIpline (s : Mixed ε) (ip : Ip) (cidr : ℕ) (x : ε) : Option (Mixed ε) := do
  let (t, a) ← s.tree.makeAndLookupIp ip cidr
  some ⟨t.write a (some ⟨ip.pfx cidr, x⟩), ip.pfx cidr :: s.added⟩

/-- `add_reject`, `throttle_add` and `inc_global_ip`: the entry that is found is changed, or one is
added. -/
def count (s : Mixed ε) (ip : Ip) (bitlen : ℕ) (x : ε) (f : ε → ε) : Option (Mixed ε) := do
  match ← s.tree.matchIp ip with
  | some a =>
    let e ← s.tree.dataAt a
    some { s with tree := s.tree.write a (some { e with value := f e.value }) }
  | none => s.addIpline ip bitlen x

/-- What is done with a tree. -/
inductive Op (ε : Type)
  | addIpline (ip : Ip) (cidr : ℕ) (x : ε)
  | count (ip : Ip) (bitlen : ℕ) (x : ε) (f : ε → ε)

/-- The address has the bytes of its family, and the prefix is not longer than it. -/
def Op.Valid (_ : Mixed ε) : Op ε → Prop
  | .addIpline ip cidr _ => ip.Valid ∧ cidr ≤ ip.family.bits
  | .count ip bitlen _ _ => ip.Valid ∧ bitlen ≤ ip.family.bits

/-- A step. -/
def step (s : Mixed ε) : Op ε → Option (Mixed ε)
  | .addIpline ip cidr x => s.addIpline ip cidr x
  | .count ip bitlen x f => s.count ip bitlen x f

/-- The prefix with the bits that an entry was added for last. -/
def last (s : Mixed ε) (k : List Bool) : Option Prefix := s.added.find? fun p => p.key == k

/-- The bits of the prefixes that entries were added for. -/
def keys (s : Mixed ε) : Set (List Bool) := {k | ∃ p ∈ s.added, p.key = k}

/-- The tree has its invariant, its prefixes are those that entries were added for, and a node has
the entry that was added last for its bits. -/
structure Good (s : Mixed ε) : Prop where
  inv : ∃ label, Tree.Inv s.tree label
  bits : s.tree.maxbits = 128
  fits : ∀ p ∈ s.added, p.Fits p.family
  stored : s.tree.links.stored = s.keys
  data : ∀ a k, s.tree.links.key a = some k → ∃ e, s.tree.dataAt a = some e ∧ s.last k = some e.pfx

theorem bits_le (f : Family) : f.bits ≤ 128 := by cases f <;> decide

theorem Good.init : Good (init : Mixed ε) := by
  refine ⟨⟨_, inv_new 128⟩, rfl, by simp [Mixed.init], ?_, ?_⟩
  · ext k
    simp [Mixed.init, keys, Links.stored, Tree.links, new]
  · intro a k hk
    simp [Mixed.init, Tree.links, new] at hk

variable {s : Mixed ε} {ip : Ip}

theorem Good.addIpline (h : s.Good) {cidr : ℕ} (hip : ip.Valid)
    (hcidr : cidr ≤ ip.family.bits) (x : ε) : ∃ s', s.addIpline ip cidr x = some s' ∧ s'.Good := by
  obtain ⟨label, hinv⟩ := h.inv
  have hmax : (ip.pfx cidr).bitlen ≤ s.tree.maxbits := h.bits ▸ hcidr.trans (bits_le _)
  obtain ⟨t, a, label', hlookup, hinv', hbits, hdata, hkeys, hstored, n, hn, hsome⟩ :=
    hinv.lookup_key hmax
  obtain ⟨hinv'', hlinks⟩ := hinv'.write hn hsome (some (⟨ip.pfx cidr, x⟩ : Entry ε))
  refine ⟨_, by rw [Mixed.addIpline, Tree.makeAndLookupIp, hlookup]; rfl, ⟨label', hinv''⟩,
    hbits.trans h.bits, ?_, ?_, ?_⟩
  · intro p hp
    rcases List.mem_cons.mp hp with rfl | hp
    · exact ⟨rfl, hip, hcidr⟩
    · exact h.fits p hp
  · dsimp only
    rw [hlinks, hstored, h.stored]
    ext k
    simp [keys, eq_comm]
  · intro b k hk
    dsimp only at hk ⊢
    rw [hlinks, hkeys] at hk
    rw [Tree.write, Tree.dataAt_modify hn]
    by_cases hb : b = a
    · rw [hb, update_self] at hk ⊢
      refine ⟨_, rfl, ?_⟩
      simp [last, some.inj hk]
    · rw [update_of_ne hb] at hk ⊢
      obtain ⟨e, he, hlast⟩ := h.data b k hk
      refine ⟨e, by rw [hdata, he], ?_⟩
      have hne : (ip.pfx cidr).key ≠ k := by
        -- Two nodes do not have the same bits.
        rintro rfl
        refine hb (hinv'.shape.key_inj ?_ (by rw [hkeys, update_self]))
        rw [hkeys, update_of_ne hb, hk]
      simpa [last, hne] using hlast

theorem Good.count (h : s.Good) {bitlen : ℕ} (hip : ip.Valid)
    (hbitlen : bitlen ≤ ip.family.bits) (x : ε) (f : ε → ε) :
    ∃ s', s.count ip bitlen x f = some s' ∧ s'.Good := by
  obtain ⟨label, hinv⟩ := h.inv
  have hmax : (ip.pfx ip.family.bits).bitlen ≤ s.tree.maxbits := h.bits ▸ bits_le _
  obtain ⟨r, hr, hover, hbest⟩ := hinv.searchBest hmax
  have hmatch : s.tree.matchIp ip = some r := hr
  rw [Mixed.count, hmatch, bind_eq_bind, bind_some]
  cases r with
  | none => exact h.addIpline hip hbitlen x
  | some a =>
    obtain ⟨k, hk⟩ : ∃ k, s.tree.links.key a = some k := by
      by_cases hov : Overshoots s.tree.links.stored (ip.pfx ip.family.bits)
      · obtain ⟨b, k, hb, hk, -⟩ := hover hov
        exact ⟨k, some.inj hb ▸ hk⟩
      · obtain ⟨k, hk, -⟩ := (hbest hov).1 a rfl
        exact ⟨k, hk⟩
    obtain ⟨e, he, hlast⟩ := h.data a k hk
    obtain ⟨n, hn, hpfx⟩ := bind_eq_some_iff.mp hk
    obtain ⟨q, hq, -⟩ := map_eq_some_iff.mp hpfx
    obtain ⟨hinv', hlinks⟩ := hinv.write hn (by rw [hq]; rfl) (some { e with value := f e.value })
    refine ⟨{ s with tree := s.tree.write a (some { e with value := f e.value }) },
      by dsimp only; rw [he]; rfl, ⟨label, hinv'⟩, h.bits, h.fits, ?_, ?_⟩
    · dsimp only
      rw [hlinks, h.stored]
      rfl
    · intro b k' hk'
      dsimp only at hk' ⊢
      rw [hlinks] at hk'
      rw [Tree.write, Tree.dataAt_modify hn]
      by_cases hb : b = a
      · subst hb
        obtain rfl : k = k' := some.inj (hk.symm.trans hk')
        rw [update_self]
        exact ⟨_, rfl, hlast⟩
      · rw [update_of_ne hb]
        exact h.data b k' hk'

theorem Good.step (h : s.Good) {o : Op ε} (ho : o.Valid s) :
    ∃ s', s.step o = some s' ∧ s'.Good := by
  cases o with
  | addIpline ip cidr x => exact h.addIpline ho.1 ho.2 x
  | count ip bitlen x f => exact h.count ho.1 ho.2 x f

/-! ### What an address finds -/

/-- An address finds no entry of the other family, and where an entry of its family contains it, it
finds one that is not shorter. -/
structure FindsOwn (s : Mixed ε) (ip : Ip) (r : Option Addr) : Prop where
  own : ∀ a, r = some a → ∃ e, s.tree.dataAt a = some e ∧ e.pfx.family = ip.family
  found : ∀ p ∈ s.added, p.family = ip.family → p.key <+: (ip.pfx ip.family.bits).key →
    ∃ a e, r = some a ∧ s.tree.dataAt a = some e ∧ e.pfx.family = ip.family ∧
      e.pfx.key <+: (ip.pfx ip.family.bits).key ∧ p.bitlen ≤ e.pfx.bitlen

/-- The longest of the prefixes, of both families, that the bits of the address start with was added
last for the family of the address; and no longer prefix is returned in its place. -/
structure Unmixed (s : Mixed ε) (ip : Ip) : Prop where
  longest : ∀ k, IsLongest s.keys (ip.pfx ip.family.bits).key k →
    ∃ p, s.last k = some p ∧ p.family = ip.family
  short : ¬Overshoots s.keys (ip.pfx ip.family.bits)

theorem last_spec {k : List Bool} {p : Prefix} (h : s.last k = some p) :
    p ∈ s.added ∧ p.key = k := by
  refine ⟨List.mem_of_find?_eq_some h, ?_⟩
  simpa using List.find?_some h

theorem length_key (p : Prefix) : p.key.length = p.bitlen := length_take ..

theorem Good.findsOwn_iff (h : s.Good) (ip : Ip) :
    (∃ r, s.tree.matchIp ip = some r ∧ s.FindsOwn ip r) ↔ s.Unmixed ip := by
  obtain ⟨label, hinv⟩ := h.inv
  have hmax : (ip.pfx ip.family.bits).bitlen ≤ s.tree.maxbits := h.bits ▸ bits_le _
  obtain ⟨r, hr, hover, hbest⟩ := hinv.searchBest hmax
  rw [h.stored] at hover hbest
  constructor
  · rintro ⟨r', hr', hown⟩
    obtain rfl : r' = r := some.inj (hr'.symm.trans hr)
    have hshort : ¬Overshoots s.keys (ip.pfx ip.family.bits) := by
      intro hov
      obtain ⟨b, k, hb, hk, hlong⟩ := hover hov
      obtain ⟨e, he, hlast⟩ := h.data b k hk
      obtain ⟨e', he', hfamily⟩ := hown.own b hb
      obtain rfl : e = e' := some.inj (he.symm.trans he')
      obtain ⟨hmem, hkey⟩ := last_spec hlast
      have hfits := (h.fits _ hmem).bitlen
      rw [hfamily, ← length_key, hkey] at hfits
      exact absurd hlong (Nat.not_lt.mpr hfits)
    obtain ⟨hfound, hnone⟩ := hbest hshort
    refine ⟨fun k hk => ?_, hshort⟩
    cases r' with
    | none => exact absurd hk.starts (hnone rfl k hk.mem)
    | some a =>
      obtain ⟨k', hk', hlongest⟩ := hfound a rfl
      obtain rfl := hk.unique hlongest
      obtain ⟨e, he, hlast⟩ := h.data a k hk'
      obtain ⟨e', he', hfamily⟩ := hown.own a rfl
      obtain rfl : e = e' := some.inj (he.symm.trans he')
      exact ⟨e.pfx, hlast, hfamily⟩
  · rintro ⟨hlongest, hshort⟩
    obtain ⟨hfound, hnone⟩ := hbest hshort
    have hat : ∀ a, r = some a → ∃ e k, s.tree.dataAt a = some e ∧ e.pfx.family = ip.family ∧
        e.pfx.key = k ∧ IsLongest s.keys (ip.pfx ip.family.bits).key k := by
      intro a ha
      obtain ⟨k, hk, hk'⟩ := hfound a ha
      obtain ⟨e, he, hlast⟩ := h.data a k hk
      obtain ⟨p, hp, hfamily⟩ := hlongest k hk'
      obtain rfl : e.pfx = p := some.inj (hlast.symm.trans hp)
      exact ⟨e, k, he, hfamily, (last_spec hlast).2, hk'⟩
    refine ⟨r, hr, ⟨fun a ha => ?_, fun p hp hfamily hcovers => ?_⟩⟩
    · obtain ⟨e, k, he, hfamily, -⟩ := hat a ha
      exact ⟨e, he, hfamily⟩
    · cases hr' : r with
      | none => exact absurd hcovers (hnone hr' _ ⟨p, hp, rfl⟩)
      | some a =>
        obtain ⟨e, k, he, hown, rfl, hk⟩ := hat a hr'
        refine ⟨a, e, rfl, he, hown, hk.starts, ?_⟩
        rw [← length_key, ← length_key]
        exact hk.longest _ ⟨p, hp, rfl⟩ hcovers

/-- **Own families.** After any entries are added for prefixes of both families, an address finds
entries of its family only, and one for the longest of their prefixes that contain it, if and only
if the longest prefix in its way was added for its family. -/
theorem match_own_iff {ops : List (Op ε)} (hops : StepsMeet step Op.Valid init ops) (ip : Ip) :
    ∃ s, run step init ops = some s ∧
      ((∃ r, s.tree.matchIp ip = some r ∧ s.FindsOwn ip r) ↔ s.Unmixed ip) := by
  obtain ⟨s, hrun, hs⟩ := Run.progress Good (fun _ _ h ho => h.step ho) Good.init hops
  exact ⟨s, hrun, hs.findsOwn_iff ip⟩

/-- `32.1.0.0/16` and `2001:db8::/32` are added, and `2001:db8::1` looked for. -/
theorem match_own_iff_small : ∃ s, run step init
    [.addIpline ⟨.inet, [32, 1, 0, 0]⟩ 16 (0 : ℕ),
      .addIpline ⟨.inet6, [32, 1, 13, 184, 0, 0, 0, 0, 0, 0, 0, 0, 0, 0, 0, 0]⟩ 32 1] = some s ∧
      ((∃ r, s.tree.matchIp ⟨.inet6, [32, 1, 13, 184, 0, 0, 0, 0, 0, 0, 0, 0, 0, 0, 0, 1]⟩ =
          some r ∧ s.FindsOwn ⟨.inet6, [32, 1, 13, 184, 0, 0, 0, 0, 0, 0, 0, 0, 0, 0, 0, 1]⟩ r) ↔
        s.Unmixed ⟨.inet6, [32, 1, 13, 184, 0, 0, 0, 0, 0, 0, 0, 0, 0, 0, 0, 1]⟩) := by
  refine match_own_iff ?_ _
  exact ⟨⟨by decide, by decide⟩, fun _ _ => ⟨⟨by decide, by decide⟩, fun _ _ => trivial⟩⟩

/-- The address `2001:db8::1` finds the D-line of `32.1.0.0/16`. -/
theorem match_other_family : ∃ s : Mixed ℕ,
    run step init [.addIpline ⟨.inet, [32, 1, 0, 0]⟩ 16 0] = some s ∧
      ¬∃ r, s.tree.matchIp ⟨.inet6, [32, 1, 13, 184, 0, 0, 0, 0, 0, 0, 0, 0, 0, 0, 0, 1]⟩ = some r ∧
        s.FindsOwn ⟨.inet6, [32, 1, 13, 184, 0, 0, 0, 0, 0, 0, 0, 0, 0, 0, 0, 1]⟩ r := by
  refine ⟨_, rfl, ?_⟩
  rintro ⟨r, hr, hown⟩
  obtain rfl : some 0 = r := by
    refine some.inj (Eq.trans ?_ hr)
    decide +kernel
  obtain ⟨e, he, hfamily⟩ := hown.own 0 rfl
  cases he
  cases hfamily

end Mixed

end Patricia

end Ratbox
