import Ratbox.Hostmask.Case
import Mathlib.Data.List.Nodup

/-!
# Runs of the table of address masks

Whatever records are added and removed, a search takes the records that a scan over all of them
takes. The I-line that is found is the one that was added first, as long as fewer than 2³² were
added: the precedences are counted down from 2³² - 1, and a record of precedence zero is never kept.

Source: `src/hostmask.c`.

## Main definitions

* `Hostmask.State`: the table, with the records that were added and not removed.
* `Hostmask.Rec.Covers`: the mask of a record covers an address, or matches a host name.

## Main results

* `Hostmask.find_iff_scan`: a search finds what a scan over the records finds.
* `Hostmask.find_sockhost_iff`: when a search finds a record by the text of an address.
-/

namespace Ratbox.Hostmask

open Text Address Match Patricia CritBit Run List Option Function Table

variable {κ : Type} {n : ℕ}

/-! ### The specification -/

/-- The mask of the record covers the address, or matches the host name. -/
def Rec.Covers (r : Rec κ) (q : Query) : Prop :=
  match r.mask with
  | .ipv4 dest bits => ∃ addr, q.addr = some addr ∧ addr.family = .inet ∧
      Agree bits.toNat (bitTest addr.bytes) (bitTest dest.bytes)
  | .ipv6 dest bits => ∃ addr, q.addr = some addr ∧ addr.family = .inet6 ∧
      Agree bits.toNat (bitTest addr.bytes) (bitTest dest.bytes)
  | .host => ∃ name, q.name = some name ∧ matchMask r.address name = true

/-- A mask of an address has an address of its family, and a number of bits that is not below
zero. -/
def WellFormed (address : Str) : Prop :=
  match parseNetmask address with
  | .ipv4 _ bits => 0 ≤ bits
  | .ipv6 dest bits => dest.family = .inet6 ∧ 0 ≤ bits
  | .host => True

instance (address : Str) : Decidable (WellFormed address) := by
  unfold WellFormed
  split <;> infer_instance

/-- The table, the records that were added and not removed, the one that was added first in front,
and the number of I-lines that were added. -/
structure State (κ : Type) where
  table : Table κ
  live : List (Rec κ)
  ilines : ℕ

/-- An empty table. -/
def start : State κ := ⟨init, [], 0⟩

/-- What is done with a table. -/
inductive Op (κ : Type)
  | add (address : Option Str) (type : RecType) (username : Option Str) (aconf : κ)
  | delete (address : Str) (aconf : κ)
  | clear
  | clearBans

/-- A conf is added with a mask that is well formed, when it has no record, and removed with its own
mask, up to case. -/
def Op.Valid (s : State κ) : Op κ → Prop
  | .add address _ _ aconf => WellFormed (address.getD "/NOMATCH!/".toList) ∧ ∀ r ∈ s.live,
    r.aconf ≠ aconf
  | .delete address aconf => ∃ r ∈ s.live, r.aconf = aconf ∧ irccmp address r.address = true
  | .clear => True
  | .clearBans => True

/-- An I-line is added. -/
def Op.isIline : Op κ → Bool
  | .add _ type _ _ => type = .client
  | _ => false

/-- A step. -/
def step [DecidableEq κ] (temporary : κ → Bool) (s : State κ) : Op κ → Option (State κ)
  | .add address type username aconf => some
    { table := s.table.addConfByAddress address type username aconf
      live := s.live ++ [s.table.makeRec address type username aconf]
      ilines := if type = .client then s.ilines + 1 else s.ilines }
  | .delete address aconf => some
    { s with
      table := s.table.deleteOneAddressConf address aconf
      live := s.live.filter fun r => r.aconf ≠ aconf }
  | .clear => some
    { s with
      table := s.table.clearOutAddressConf temporary
      live := s.live.filter (keptConf temporary) }
  | .clearBans => some
    { s with
      table := s.table.clearOutAddressConfBans temporary
      live := s.live.filter (keptBans temporary) }

/-! ### The invariant -/

/-- Each bucket has its records, the last one first; and the confs of the records are different. -/
structure Held (s : State κ) : Prop where
  atable : ∀ hv, s.table.atable hv = (s.live.filter fun r => bucketOf r.address = hv).reverse
  wellFormed : ∀ r ∈ s.live, WellFormed r.address
  confs : (s.live.map (·.aconf)).Nodup

/-- The precedences of the I-lines are above the next one, and an I-line that was added later has a
lower one. -/
structure Ranked (s : State κ) : Prop where
  next : s.ilines < 2 ^ 32 → s.table.precValue + s.ilines = 2 ^ 32 - 1
  above : s.ilines < 2 ^ 32 → ∀ r ∈ s.live, r.type = .client → s.table.precValue < r.precedence
  order : s.ilines < 2 ^ 32 → s.live.Pairwise fun r r' =>
    r.type = .client → r'.type = .client → r'.precedence < r.precedence

theorem held_start : Held (start : State κ) :=
  ⟨fun _ => rfl, by simp [start], nodup_nil⟩

theorem ranked_start : Ranked (start : State κ) :=
  ⟨fun _ => rfl, by simp [start], fun _ => Pairwise.nil⟩

section Step

variable {s s' : State κ} {o : Op κ} {t : Table κ}

/-- Records are removed, in each bucket and of those that were added. -/
theorem Held.filter (h : Held s) {p : Rec κ → Bool}
    (ht : ∀ hv, t.atable hv = (s.table.atable hv).filter p) :
    Held ⟨t, s.live.filter p, s.ilines⟩ := by
  refine ⟨fun hv => ?_, fun r hr => h.wellFormed r (mem_of_mem_filter hr), ?_⟩
  · rw [ht, h.atable, filter_reverse, filter_comm]
  · exact h.confs.sublist (filter_sublist.map _)

theorem Ranked.filter (h : Ranked s) (p : Rec κ → Bool)
    (ht : t.precValue = s.table.precValue) : Ranked ⟨t, s.live.filter p, s.ilines⟩ := by
  refine ⟨?_, ?_, fun hlt => (h.order hlt).sublist filter_sublist⟩
  · dsimp only
    rw [ht]
    exact h.next
  · dsimp only
    rw [ht]
    exact fun hlt r hr => h.above hlt r (mem_of_mem_filter hr)

variable [DecidableEq κ]

theorem eraseP_eq_filter {l : List (Rec κ)} (h : (l.map (·.aconf)).Nodup) (aconf : κ) :
    (l.eraseP fun r => r.aconf = aconf) = l.filter fun r => r.aconf ≠ aconf := by
  induction l with
  | nil => rfl
  | cons r l ih =>
    obtain ⟨hr, hl⟩ := nodup_cons.mp h
    by_cases heq : r.aconf = aconf
    · rw [eraseP_cons_of_pos (by simpa using heq), filter_cons_of_neg (by simpa using heq)]
      refine (filter_eq_self.mpr fun r' hr' => ?_).symm
      rw [decide_eq_true_eq]
      rintro rfl
      exact hr (mem_map.mpr ⟨r', hr', heq.symm⟩)
    · rw [eraseP_cons_of_neg (by simpa using heq), filter_cons_of_pos (by simpa using heq), ih hl]

/-- Removing the record of a conf removes it from its bucket only. -/
theorem Held.eraseP_eq (h : Held s) {address : Str} {aconf : κ}
    (hlive : ∃ r ∈ s.live, r.aconf = aconf ∧ irccmp address r.address = true) (hv : ℕ) :
    (s.table.deleteOneAddressConf address aconf).atable hv =
      (s.table.atable hv).filter fun r => r.aconf ≠ aconf := by
  obtain ⟨r, hr, rfl, haddress⟩ := hlive
  have hbucket := bucketOf_congr haddress
  have hnodup : ∀ hv, ((s.table.atable hv).map (·.aconf)).Nodup := by
    intro hv
    rw [h.atable, map_reverse]
    refine nodup_reverse.mpr ?_
    exact h.confs.sublist (filter_sublist.map _)
  have honly : ∀ hv, ∀ r' ∈ s.table.atable hv, r'.aconf = r.aconf → hv = bucketOf r.address := by
    intro hv r' hr' heq
    rw [h.atable, mem_reverse, mem_filter, decide_eq_true_eq] at hr'
    rw [← hr'.2, inj_on_of_nodup_map h.confs hr'.1 hr heq]
  rw [deleteOneAddressConf]
  dsimp only
  by_cases hhv : hv = bucketOf address
  · subst hhv
    rw [update_self, eraseP_eq_filter (hnodup _)]
  · rw [update_of_ne hhv]
    refine (filter_eq_self.mpr fun r' hr' => ?_).symm
    rw [decide_eq_true_eq]
    exact fun heq => hhv ((honly hv r' hr' heq).trans hbucket.symm)

theorem Held.step (h : Held s) (temporary : κ → Bool) (ho : o.Valid s)
    (hs' : step temporary s o = some s') : Held s' := by
  cases o with
  | add address type username aconf =>
    obtain ⟨hmask, hnew⟩ := ho
    cases hs'
    refine ⟨fun hv => ?_, fun r hr => ?_, ?_⟩
    · dsimp only [addConfByAddress]
      rw [filter_append, reverse_append, ← h.atable]
      by_cases hhv : hv = bucketOf (s.table.makeRec address type username aconf).address
      · subst hhv
        rw [update_self, filter_cons_of_pos (by simp)]
        rfl
      · rw [update_of_ne hhv, filter_cons_of_neg (by simpa using Ne.symm hhv)]
        rfl
    · rcases mem_append.mp hr with hr | hr
      · exact h.wellFormed r hr
      · obtain rfl := mem_singleton.mp hr
        exact hmask
    · dsimp only
      rw [map_append, nodup_append]
      refine ⟨h.confs, nodup_cons.mpr ⟨by simp, nodup_nil⟩, fun a ha b hb => ?_⟩
      obtain ⟨r, hr, rfl⟩ := mem_map.mp ha
      obtain rfl := mem_singleton.mp hb
      exact hnew r hr
  | delete address aconf =>
    cases hs'
    exact h.filter fun hv => h.eraseP_eq ho hv
  | clear =>
    cases hs'
    exact h.filter fun _ => rfl
  | clearBans =>
    cases hs'
    exact h.filter fun _ => rfl

theorem Ranked.step (h : Ranked s) (temporary : κ → Bool)
    (hs' : Hostmask.step temporary s o = some s') : Ranked s' := by
  cases o with
  | add address type username aconf =>
    cases hs'
    by_cases hclient : type = .client
    · have hfewer : s.ilines + 1 < 2 ^ 32 → s.table.precValue + s.ilines = 2 ^ 32 - 1 := fun hlt =>
        h.next (by omega)
      refine ⟨fun hlt => ?_, fun hlt r hr hr' => ?_, fun hlt => ?_⟩
      all_goals dsimp only [addConfByAddress] at hlt ⊢
      all_goals rw [if_pos hclient] at hlt
      · have hnext := hfewer hlt
        rw [if_pos hclient, if_pos hclient]
        omega
      · have hnext := hfewer hlt
        have hlow : (s.table.precValue + (2 ^ 32 - 1)) % 2 ^ 32 < s.table.precValue := by omega
        rw [if_pos hclient]
        rcases mem_append.mp hr with hr | hr
        · exact hlow.trans (h.above (by omega) r hr hr')
        · obtain rfl := mem_singleton.mp hr
          rw [makeRec, if_pos hclient]
          exact hlow
      · refine pairwise_append.mpr ⟨h.order (by omega), pairwise_singleton _ _, ?_⟩
        intro r hr r' hr' htype _
        obtain rfl := mem_singleton.mp hr'
        rw [makeRec, if_pos hclient]
        exact h.above (by omega) r hr htype
    · refine ⟨fun hlt => ?_, fun hlt r hr hr' => ?_, fun hlt => ?_⟩
      all_goals dsimp only [addConfByAddress] at hlt ⊢
      all_goals rw [if_neg hclient] at hlt
      · rw [if_neg hclient, if_neg hclient]
        exact h.next hlt
      · rw [if_neg hclient]
        rcases mem_append.mp hr with hr | hr
        · exact h.above hlt r hr hr'
        · obtain rfl := mem_singleton.mp hr
          exact absurd hr' hclient
      · refine pairwise_append.mpr ⟨h.order hlt, pairwise_singleton _ _, ?_⟩
        intro r hr r' hr' _ htype
        obtain rfl := mem_singleton.mp hr'
        exact absurd htype hclient
  | delete address aconf =>
    cases hs'
    exact h.filter _ rfl
  | clear =>
    cases hs'
    exact h.filter _ rfl
  | clearBans =>
    cases hs'
    exact h.filter _ rfl

end Step

/-! ### What a search takes -/

section Probe

variable {s : State κ} {r : Rec κ} {ok : Rec κ → Bool}

theorem Held.mem_atable (h : Held s) {hv : ℕ} :
    r ∈ s.table.atable hv ↔ r ∈ s.live ∧ bucketOf r.address = hv := by
  rw [h.atable, mem_reverse, mem_filter, decide_eq_true_eq]

theorem Held.exists_bits_ipv4 (h : Held s) (hr : r ∈ s.live) {addr : Ip}
    (hcovers : r.coversIpv4 addr = true) :
    ∃ b ∈ [32, 24, 16, 8, 0], r ∈ s.table.atable (hashIpv4 addr.bytes b) := by
  have hwell := h.wellFormed r hr
  rw [Rec.coversIpv4, Rec.mask] at hcovers
  rw [WellFormed] at hwell
  cases hmask : parseNetmask r.address with
  | host => simp [hmask] at hcovers
  | ipv6 dest bits => simp [hmask] at hcovers
  | ipv4 dest bits =>
    rw [hmask] at hcovers hwell
    obtain ⟨b, hb, heq⟩ := Hostmask.exists_bits_ipv4 hwell (parseNetmask_ipv4 hmask).2.2
      (compWithMask_iff.mp hcovers)
    exact ⟨b, hb, h.mem_atable.mpr ⟨hr, by rw [bucketOf, hmask, heq]⟩⟩

theorem Held.exists_bits_ipv6 (h : Held s) (hr : r ∈ s.live) {addr : Ip}
    (hcovers : r.coversIpv6 addr = true) :
    ∃ b ∈ [128, 112, 96, 80, 64, 48, 32, 16, 0], r ∈ s.table.atable (hashIpv6 addr.bytes b) := by
  have hwell := h.wellFormed r hr
  rw [Rec.coversIpv6, Rec.mask] at hcovers
  rw [WellFormed] at hwell
  cases hmask : parseNetmask r.address with
  | host => simp [hmask] at hcovers
  | ipv4 dest bits => simp [hmask] at hcovers
  | ipv6 dest bits =>
    rw [hmask] at hcovers hwell
    obtain ⟨b, hb, heq⟩ := Hostmask.exists_bits_ipv6 hwell.2 (parseNetmask_ipv6 hmask).2
      (compWithMask_iff.mp hcovers)
    exact ⟨b, hb, h.mem_atable.mpr ⟨hr, by rw [bucketOf, hmask, heq]⟩⟩

/-- The loops over the bits of the address take the records that cover it. -/
theorem Held.mem_probeAddr (h : Held s) (a : Option Ip) :
    r ∈ s.table.probeAddr ok a ↔ r ∈ s.live ∧ ok r = true ∧ ∃ addr, a = some addr ∧
      ((addr.family = .inet ∧ r.coversIpv4 addr = true) ∨
        (addr.family = .inet6 ∧ r.coversIpv6 addr = true)) := by
  rw [probeAddr.eq_def]
  cases a with
  | none => simp
  | some addr =>
    cases hfamily : addr.family with
    | inet =>
      simp only [hfamily, mem_flatMap, mem_filter, Bool.and_eq_true, some.injEq,
        exists_eq_left', true_and, reduceCtorEq, false_and, or_false]
      constructor
      · rintro ⟨b, -, hmem, hok, hcovers⟩
        exact ⟨(h.mem_atable.mp hmem).1, hok, hcovers⟩
      · rintro ⟨hr, hok, hcovers⟩
        obtain ⟨b, hb, hmem⟩ := h.exists_bits_ipv4 hr hcovers
        exact ⟨b, hb, hmem, hok, hcovers⟩
    | inet6 =>
      simp only [hfamily, mem_flatMap, mem_filter, Bool.and_eq_true, some.injEq,
        exists_eq_left', true_and, reduceCtorEq, false_and, false_or]
      constructor
      · rintro ⟨b, -, hmem, hok, hcovers⟩
        exact ⟨(h.mem_atable.mp hmem).1, hok, hcovers⟩
      · rintro ⟨hr, hok, hcovers⟩
        obtain ⟨b, hb, hmem⟩ := h.exists_bits_ipv6 hr hcovers
        exact ⟨b, hb, hmem, hok, hcovers⟩

theorem matchesName_iff {name : Str} :
    r.matchesName name = true ↔ r.mask = .host ∧ matchMask r.address name = true := by
  rw [Rec.matchesName]
  cases r.mask <;> simp

theorem bucketOf_host (hmask : r.mask = .host) : bucketOf r.address = getMaskHash r.address := by
  rw [bucketOf, show parseNetmask r.address = .host from hmask]

/-- The loop over the domains of the name, and the one over the first bucket, take the records that
match the name, and the records of the first bucket that match the text of the address. -/
theorem Held.mem_probeName (h : Held s) (sockhost n : Option Str) :
    r ∈ s.table.probeName ok sockhost n ↔ r ∈ s.live ∧ ok r = true ∧ ∃ name, n = some name ∧
      (r.matchesName name = true ∨
        (bucketOf r.address = 0 ∧ sockhost.any r.matchesName = true)) := by
  rw [probeName.eq_def]
  cases n with
  | none => simp
  | some name =>
    simp only [mem_append, mem_flatMap, mem_filter, Bool.and_eq_true, Bool.or_eq_true,
      some.injEq, exists_eq_left']
    constructor
    · rintro (⟨p, -, hmem, hok, hname⟩ | ⟨hmem, hok, hname | hsock⟩)
      · exact ⟨(h.mem_atable.mp hmem).1, hok, Or.inl hname⟩
      · exact ⟨(h.mem_atable.mp hmem).1, hok, Or.inl hname⟩
      · obtain ⟨hr, hbucket⟩ := h.mem_atable.mp hmem
        exact ⟨hr, hok, Or.inr ⟨hbucket, hsock⟩⟩
    · rintro ⟨hr, hok, hname | ⟨hbucket, hsock⟩⟩
      · obtain ⟨hmask, hmatch⟩ := matchesName_iff.mp hname
        obtain hzero | ⟨p, hp, hhash⟩ := exists_domain hmatch
        · exact .inr ⟨h.mem_atable.mpr ⟨hr, (bucketOf_host hmask).trans hzero⟩, hok, Or.inl hname⟩
        · exact .inl ⟨p, hp, h.mem_atable.mpr ⟨hr, (bucketOf_host hmask).trans hhash.symm⟩, hok,
            hname⟩
      · exact .inr ⟨h.mem_atable.mpr ⟨hr, hbucket⟩, hok, Or.inr hsock⟩

/-- **What a search takes**: the records that cover the address, or match the name, and those of the
first bucket that match the text of the address. -/
theorem Held.mem_probe (h : Held s) {type : RecType} {q : Query} :
    r ∈ s.table.probe type q ↔ r ∈ s.live ∧ r.type = type ∧ r.userMatches q = true ∧
      (r.Covers q ∨ (q.name.isSome = true ∧ bucketOf r.address = 0 ∧ q.sockhost.any r.matchesName =
        true)) := by
  rw [probe]
  simp only [mem_append, h.mem_probeAddr, h.mem_probeName, Bool.and_eq_true, decide_eq_true_eq]
  have hcovers : r ∈ s.live → (r.Covers q ↔ (∃ addr, q.addr = some addr ∧
      ((addr.family = .inet ∧ r.coversIpv4 addr = true) ∨ (addr.family = .inet6 ∧
        r.coversIpv6 addr = true))) ∨
      ∃ name, q.name = some name ∧ r.matchesName name = true) := by
    intro hr
    rw [Rec.Covers]
    simp only [Rec.coversIpv4, Rec.coversIpv6, Rec.matchesName]
    cases r.mask with
    | host => simp
    | ipv4 dest bits => simp [compWithMask_iff]
    | ipv6 dest bits => simp [compWithMask_iff]
  rw [isSome_iff_exists]
  constructor
  · rintro (⟨hr, ⟨htype, huser⟩, haddr⟩ | ⟨hr, ⟨htype, huser⟩, name, hname, hmatch | hsock⟩)
    · exact ⟨hr, htype, huser, Or.inl ((hcovers hr).mpr (.inl haddr))⟩
    · exact ⟨hr, htype, huser, Or.inl ((hcovers hr).mpr (.inr ⟨name, hname, hmatch⟩))⟩
    · exact ⟨hr, htype, huser, Or.inr ⟨⟨name, hname⟩, hsock⟩⟩
  · rintro ⟨hr, htype, huser, hcov | ⟨⟨name, hname⟩, hsock⟩⟩
    · obtain haddr | ⟨name, hname, hmatch⟩ := (hcovers hr).mp hcov
      · exact .inl ⟨hr, ⟨htype, huser⟩, haddr⟩
      · exact .inr ⟨hr, ⟨htype, huser⟩, name, hname, Or.inl hmatch⟩
    · exact .inr ⟨hr, ⟨htype, huser⟩, name, hname, Or.inr hsock⟩

/-- The loops of `find_auth` keep the record with the highest precedence, where it is above zero. -/
theorem foldl_keepHigher (l : List (Rec κ)) (best : ℕ × Option κ) :
    best.1 ≤ (l.foldl keepHigher best).1 ∧
      (∀ r ∈ l, r.precedence ≤ (l.foldl keepHigher best).1) ∧
      (l.foldl keepHigher best = best ∨
        ∃ r ∈ l, best.1 < r.precedence ∧
          l.foldl keepHigher best = (r.precedence, some r.aconf)) := by
  induction l generalizing best with
  | nil => exact ⟨le_rfl, by simp, Or.inl rfl⟩
  | cons r l ih =>
    obtain ⟨hle, hall, hfrom⟩ := ih (keepHigher best r)
    rw [foldl_cons]
    have hkeep : best.1 ≤ (keepHigher best r).1 ∧ r.precedence ≤ (keepHigher best r).1 := by
      rw [keepHigher]
      split_ifs with hlt
      · exact ⟨hlt.le, le_rfl⟩
      · exact ⟨le_rfl, Nat.not_lt.mp hlt⟩
    refine ⟨hkeep.1.trans hle, fun r' hr' => ?_, ?_⟩
    · rcases mem_cons.mp hr' with rfl | hr'
      · exact hkeep.2.trans hle
      · exact hall r' hr'
    · obtain heq | ⟨r', hr', hlt, heq⟩ := hfrom
      · rw [heq, keepHigher]
        split_ifs with hlt
        · exact .inr ⟨r, mem_cons_self, hlt, rfl⟩
        · exact .inl rfl
      · exact .inr ⟨r', mem_cons_of_mem _ hr', hkeep.1.trans_lt hlt, heq⟩

end Probe

/-! ### Scans -/

/-- The record has the type, and matches. -/
def Rec.Matches (r : Rec κ) (type : RecType) (q : Query) : Prop :=
  r.type = type ∧ r.userMatches q = true ∧ r.Covers q

/-- A search without the text of the address finds a record that matches, if there is one. -/
structure FindsMatching (s : State κ) : Prop where
  found : ∀ type q, q.sockhost = none →
    ((s.table.findConfByAddress type q).isSome = true ↔ ∃ r ∈ s.live, r.Matches type q)
  conf : ∀ type q c, q.sockhost = none → s.table.findConfByAddress type q = some c →
    ∃ r ∈ s.live, r.Matches type q ∧ r.aconf = c

/-- The I-line that is found is the one that matches and was added first. -/
def FindsEarliest (s : State κ) : Prop :=
  ∀ q c, q.sockhost = none → (s.table.findAuth q = some c ↔ ∃ front r back, s.live = front ++
    r :: back ∧ r.Matches .client q ∧ r.aconf = c ∧ ∀ r' ∈ front, ¬r'.Matches .client q)

section Scan

variable {s : State κ}

theorem Held.mem_probe_none (h : Held s) {r : Rec κ} {type : RecType} {q : Query}
    (hq : q.sockhost = none) :
    r ∈ s.table.probe type q ↔ r ∈ s.live ∧ r.Matches type q := by
  rw [h.mem_probe, hq]
  simp [Rec.Matches]

theorem Held.findsMatching (h : Held s) : FindsMatching s := by
  refine ⟨fun type q hq => ?_, fun type q c hq hc => ?_⟩
  · rw [findConfByAddress, isSome_map, isSome_head?]
    refine Iff.trans ?_ (exists_congr fun r => h.mem_probe_none hq)
    exact ⟨exists_mem_of_ne_nil _, fun ⟨r, hr⟩ => ne_nil_of_mem hr⟩
  · obtain ⟨r, hr, rfl⟩ := map_eq_some_iff.mp hc
    obtain ⟨hlive, hmatches⟩ := (h.mem_probe_none hq).mp (mem_of_mem_head? hr)
    exact ⟨r, hlive, hmatches, rfl⟩

/-- A list with a member that has a property has a first one. -/
theorem exists_first {p : Rec κ → Prop} {l : List (Rec κ)} (h : ∃ r ∈ l, p r) :
    ∃ front r back, l = front ++ r :: back ∧ p r ∧ ∀ r' ∈ front, ¬p r' := by
  induction l with
  | nil => simp at h
  | cons r l ih =>
    by_cases hr : p r
    · exact ⟨[], r, l, rfl, hr, by simp⟩
    · obtain ⟨front, r', back, rfl, hr', hfront⟩ := ih (by
        obtain ⟨r', hmem, hr'⟩ := h
        rcases mem_cons.mp hmem with rfl | hmem
        · exact absurd hr' hr
        · exact ⟨r', hmem, hr'⟩)
      refine ⟨r :: front, r', back, rfl, hr', fun r'' hr'' => ?_⟩
      rcases mem_cons.mp hr'' with rfl | hr''
      · exact hr
      · exact hfront r'' hr''

theorem Held.findsEarliest (h : Held s) (hranked : Ranked s) (hfew : s.ilines < 2 ^ 32) :
    FindsEarliest s := by
  intro q c hq
  have hfind : ∀ front r back, s.live = front ++ r :: back → r.Matches .client q →
      (∀ r' ∈ front, ¬r'.Matches .client q) → s.table.findAuth q = some r.aconf := by
    intro front r back hlive hr hfront
    have hmem : r ∈ s.live := by rw [hlive]; simp
    obtain ⟨-, hall, heq | ⟨r', hr', -, heq⟩⟩ := foldl_keepHigher (s.table.probe .client q)
      (0, none)
    · -- A precedence is above zero.
      have hle := hall r ((h.mem_probe_none hq).mpr ⟨hmem, hr⟩)
      have hlt := hranked.above hfew r hmem hr.1
      rw [heq] at hle
      dsimp only at hle
      omega
    · have hle := hall r ((h.mem_probe_none hq).mpr ⟨hmem, hr⟩)
      obtain ⟨hmem', hr'⟩ := (h.mem_probe_none hq).mp hr'
      rw [findAuth, heq]
      rw [heq] at hle
      rw [hlive, mem_append, mem_cons] at hmem'
      rcases hmem' with hin | rfl | hin
      · exact absurd hr' (hfront r' hin)
      · rfl
      · have horder := hranked.order hfew
        rw [hlive, pairwise_append, pairwise_cons] at horder
        exact absurd hle (Nat.not_le.mpr (horder.2.1.1 r' hin hr.1 hr'.1))
  constructor
  · intro hc
    obtain ⟨front, r, back, hlive, hr, hfront⟩ : ∃ front r back, s.live = front ++ r :: back ∧
        r.Matches .client q ∧ ∀ r' ∈ front, ¬r'.Matches .client q := by
      refine exists_first ?_
      obtain ⟨-, -, heq | ⟨r, hr, -⟩⟩ := foldl_keepHigher (s.table.probe .client q) (0, none)
      · rw [findAuth, heq] at hc
        cases hc
      · exact ⟨r, (h.mem_probe_none hq).mp hr⟩
    exact ⟨front, r, back, hlive, hr, some.inj ((hfind front r back hlive hr hfront).symm.trans hc),
      hfront⟩
  · rintro ⟨front, r, back, hlive, hr, rfl, hfront⟩
    exact hfind front r back hlive hr hfront

end Scan

section Runs

variable [DecidableEq κ] {temporary : κ → Bool} {ops : List (Op κ)}

theorem exists_step (temporary : κ → Bool) (s : State κ) (o : Op κ) :
    ∃ s', step temporary s o = some s' := by
  cases o <;> exact ⟨_, rfl⟩

theorem held_run (hops : StepsMeet (step temporary) Op.Valid start ops) :
    ∃ s, run (step temporary) start ops = some s ∧ Held s ∧ Ranked s := by
  refine Run.progress (fun s => Held s ∧ Ranked s) (fun s o hs ho => ?_) ⟨held_start, ranked_start⟩
    hops
  obtain ⟨s', hs'⟩ := exists_step temporary s o
  exact ⟨s', hs', hs.1.step temporary ho hs', hs.2.step temporary hs'⟩

theorem ilines_run {s s' : State κ} (hrun : run (step temporary) s ops = some s') :
    s'.ilines = s.ilines + ops.countP Op.isIline := by
  induction ops generalizing s with
  | nil =>
    cases hrun
    rfl
  | cons o ops ih =>
    obtain ⟨t, ht, hrun⟩ := bind_eq_some_iff.mp hrun
    have hone : t.ilines = s.ilines + if o.isIline = true then 1 else 0 := by
      cases o with
      | add address type username aconf =>
        cases ht
        dsimp only [Op.isIline]
        by_cases hclient : type = .client <;> simp [hclient]
      | delete address aconf => exact some.inj ht ▸ rfl
      | clear => exact some.inj ht ▸ rfl
      | clearBans => exact some.inj ht ▸ rfl
    rw [ih hrun, hone, countP_cons]
    omega

/-- **Scans.** After every run a search finds what a scan over the records that were added and not
removed finds; and, as long as fewer than 2³² I-lines were added, the I-line that is found is the
one that matches and was added first. -/
theorem find_iff_scan (hops : StepsMeet (step temporary) Op.Valid start ops) :
    ∃ s, run (step temporary) start ops = some s ∧ FindsMatching s ∧
      (ops.countP Op.isIline < 2 ^ 32 → FindsEarliest s) := by
  obtain ⟨s, hrun, hheld, hranked⟩ := held_run hops
  refine ⟨s, hrun, hheld.findsMatching, fun hfew => hheld.findsEarliest hranked ?_⟩
  rw [ilines_run hrun]
  simpa [start] using hfew

end Runs

/-- An I-line and a K-line are added, and the K-line is removed. -/
theorem find_iff_scan_small :
    ∃ s, run (step fun _ => false) start [.add (some "*.example.org".toList) .client (some ['*']) 0,
        .add (some "10.0.0.0/8".toList) .kill none 1, .delete "10.0.0.0/8".toList (1 : ℕ)] =
        some s ∧
      FindsMatching s ∧
        (countP Op.isIline [Op.add (some "*.example.org".toList) .client (some ['*']) 0,
        .add (some "10.0.0.0/8".toList) .kill none 1, .delete "10.0.0.0/8".toList (1 : ℕ)] <
          2 ^ 32 → FindsEarliest s) := by
  refine find_iff_scan ⟨⟨by decide +kernel, ?_⟩, ?_⟩
  · simp [start]
  · rintro s ⟨⟩
    refine ⟨⟨by decide +kernel, ?_⟩, ?_⟩
    · simp [start, makeRec]
    · rintro s ⟨⟩
      exact ⟨⟨_, mem_append_right _ mem_cons_self, rfl, by decide +kernel⟩, fun _ _ => trivial⟩


/-! ### Precedences run out -/

/-- An I-line for every host is added, and removed by a rehash. -/
def rehash : List (Op ℕ) := [.add (some ['*']) .client none 0, .clear]

/-- The table is empty, and the next precedence is lower by the number of I-lines. -/
def emptied (n : ℕ) : State ℕ := ⟨⟨fun _ => [], 2 ^ 32 - 1 - n⟩, [], n⟩

/-- The record of the I-line. -/
def everyHost (n : ℕ) : Rec ℕ := (emptied n).table.makeRec (some ['*']) .client none 0

theorem step_add (n : ℕ) : step (fun _ => false) (emptied n) (.add (some ['*']) .client none 0) =
    some ⟨⟨update (fun _ => []) (bucketOf ['*']) [everyHost n],
      (2 ^ 32 - 1 - n + (2 ^ 32 - 1)) % 2 ^ 32⟩, [everyHost n], n + 1⟩ := by
  have haddress : (everyHost n).address = ['*'] := rfl
  rw [step, if_pos rfl, addConfByAddress, if_pos rfl, ← everyHost, haddress]
  rfl

theorem not_kept (n : ℕ) : keptConf (fun _ => false) (everyHost n) = false := rfl

theorem valid_add (n : ℕ) : (Op.add (some ['*']) .client none 0).Valid (emptied n) := by
  refine ⟨?_, by simp [emptied]⟩
  decide +kernel

theorem run_rehash (hn : n < 2 ^ 32 - 1) :
    run (step fun _ => false) (emptied n) rehash = some (emptied (n + 1)) := by
  have hbuckets : (fun i => (update (fun _ : ℕ => []) (bucketOf ['*']) [everyHost n] i).filter
      (keptConf fun _ => false)) = fun _ => [] := by
    funext i
    by_cases hi : i = bucketOf ['*']
    · rw [hi, update_self, filter_cons_of_neg (by simp [not_kept])]
      rfl
    · rw [update_of_ne hi]
      rfl
  have hnext : (2 ^ 32 - 1 - n + (2 ^ 32 - 1)) % 2 ^ 32 = 2 ^ 32 - 1 - (n + 1) := by omega
  rw [rehash, run, step_add, bind_some, run, step, bind_some, run, clearOutAddressConf,
    emptied, hbuckets, hnext, filter_cons_of_neg (by simp [not_kept])]
  rfl

theorem run_rehashes (hn : n ≤ 2 ^ 32 - 1) :
    run (step fun _ => false) (emptied 0) (replicate n rehash).flatten = some (emptied n) := by
  induction n with
  | zero => rfl
  | succ n ih =>
    rw [replicate_succ', flatten_append, flatten_singleton, run_append, ih (by omega),
      bind_some, run_rehash (by omega)]

theorem valid_rehashes {m : ℕ} (hn : n + m ≤ 2 ^ 32 - 1) {rest : List (Op ℕ)}
    (hrest : StepsMeet (step fun _ => false) Op.Valid (emptied (n + m)) rest) :
    StepsMeet (step fun _ => false) Op.Valid (emptied n)
    ((replicate m rehash).flatten ++ rest) := by
  induction m generalizing n with
  | zero => exact hrest
  | succ m ih =>
    rw [replicate_succ, flatten_cons, append_assoc]
    have hadded := run_rehash (n := n) (by omega)
    refine ⟨valid_add n, fun s₁ hs₁ => ⟨trivial, fun s₂ hs₂ => ?_⟩⟩
    rw [rehash, run, hs₁, bind_some, run, hs₂, bind_some, run] at hadded
    rw [some.inj hadded]
    refine ih (by omega) ?_
    rwa [Nat.add_right_comm]

/-- An I-line that is added with precedence zero is not found. -/
theorem not_findsEarliest (hn : n = 2 ^ 32 - 1) :
    StepsMeet (step fun _ => false) Op.Valid start
        ((replicate n rehash).flatten ++ [.add (some ['*']) .client none 0]) ∧
      ∃ s, run (step fun _ => false) start
          ((replicate n rehash).flatten ++ [.add (some ['*']) .client none 0]) = some s ∧
        ¬FindsEarliest s := by
  have hstart : (start : State ℕ) = emptied 0 := rfl
  have hvalid : StepsMeet (step fun _ => false) Op.Valid (emptied 0)
      ((replicate n rehash).flatten ++ [.add (some ['*']) .client none 0]) :=
    valid_rehashes (by omega) ⟨valid_add _, fun _ _ => trivial⟩
  rw [hstart]
  obtain ⟨s, hs, hheld, -⟩ := held_run (hstart ▸ hvalid)
  rw [hstart] at hs
  have hlive : s.live = [everyHost n] := by
    rw [run_append, run_rehashes hn.le, bind_some, run, step_add, bind_some, run] at hs
    exact some.inj hs ▸ rfl
  refine ⟨hvalid, s, hs, fun hfinds => ?_⟩
  have hmatches : (everyHost n).Matches .client ⟨some ['a'], none, none, none⟩ := by
    refine ⟨rfl, rfl, ?_⟩
    have hmask : parseNetmask ['*'] = .host := by decide +kernel
    rw [Rec.Covers, show (everyHost n).mask = .host from hmask]
    exact ⟨_, rfl, rfl⟩
  have hfound := (hfinds ⟨some ['a'], none, none, none⟩ 0 rfl).mpr
    ⟨[], everyHost n, [], hlive, hmatches, rfl, by simp⟩
  rw [findAuth] at hfound
  obtain ⟨-, -, heq | ⟨r, hr, hlt, -⟩⟩ :=
    foldl_keepHigher (s.table.probe .client ⟨some ['a'], none, none, none⟩) (0, none)
  · rw [heq] at hfound
    cases hfound
  · have hmem := (hheld.mem_probe.mp hr).1
    rw [hlive, mem_singleton] at hmem
    rw [hmem, show (everyHost n).precedence = 2 ^ 32 - 1 - n from rfl, hn, Nat.sub_self] at hlt
    exact absurd hlt (lt_irrefl 0)

/-- After 2³² I-lines were added, by rehashes, the last one is not found. -/
theorem find_after_many : ∃ ops : List (Op ℕ), StepsMeet (step fun _ => false) Op.Valid start ops ∧
    ∃ s, run (step fun _ => false) start ops = some s ∧ ¬FindsEarliest s :=
  ⟨_, not_findsEarliest rfl⟩

/-! ### Text of addresses -/

/-- The record has the type, and matches, or its mask matches the text of the address. -/
def Rec.MatchesText (r : Rec κ) (type : RecType) (q : Query) : Prop :=
  r.type = type ∧ r.userMatches q = true ∧ (r.Covers q ∨ q.sockhost.any r.matchesName = true)

/-- **Text of addresses.** A K-line with the mask of a host name that matches the text of an address
is found, or another one that matches, whatever else is in the table, if and only if the mask is in
the first bucket, or matches the host name too. -/
theorem find_sockhost_iff [DecidableEq κ] (temporary : κ → Bool) (aconf : κ) {host name sock : Str}
    {q : Query} (hname : q.name = some name) (hsock : q.sockhost = some sock)
    (hmask : parseNetmask host = .host) (hmatch : matchMask host sock = true) :
    (∀ ops s, StepsMeet (step temporary) Op.Valid start ops → run (step temporary) start ops =
      some s → ∀ r ∈ s.live, r.address = host → r.type = .kill → r.userMatches q = true →
        ∃ c, s.table.findConfByAddress .kill q = some c ∧
          ∃ r' ∈ s.live, r'.aconf = c ∧ r'.MatchesText .kill q) ↔
      (getMaskHash host = 0 ∨ matchMask host name = true) := by
  constructor
  · intro hall
    have hvalid : StepsMeet (step temporary) Op.Valid start [.add (some host) .kill none
        aconf] := by
      refine ⟨⟨?_, by simp [start]⟩, fun _ _ => trivial⟩
      rw [getD_some, WellFormed, hmask]
      trivial
    obtain ⟨s, hs, hheld, -⟩ := held_run hvalid
    have hlive : s.live = [init.makeRec (some host) .kill none aconf] := some.inj hs ▸ rfl
    obtain ⟨c, hc, -⟩ := hall _ s hvalid hs _ (hlive ▸ mem_singleton_self _) rfl rfl rfl
    obtain ⟨r, hr, -⟩ := map_eq_some_iff.mp hc
    obtain ⟨hmem, -, -, hcovers⟩ := hheld.mem_probe.mp (mem_of_mem_head? hr)
    obtain rfl := mem_singleton.mp (hlive ▸ hmem)
    rcases hcovers with hcovers | ⟨-, hzero, -⟩
    · rw [Rec.Covers, show (init.makeRec (some host) .kill none aconf).mask =
        .host from hmask] at hcovers
      obtain ⟨name', hname', hmatches⟩ := hcovers
      exact .inr (some.inj (hname.symm.trans hname') ▸ hmatches)
    · exact .inl ((bucketOf_host (r := init.makeRec (some host) .kill none aconf) hmask).symm.trans
        hzero)
  · intro hcond ops s hops hrun r hr haddress htype huser
    obtain ⟨s', hs', hheld, -⟩ := held_run hops
    cases hrun.symm.trans hs'
    have hhost : r.mask = .host := by rw [Rec.mask, haddress, hmask]
    have hprobe : r ∈ s.table.probe .kill q := by
      refine hheld.mem_probe.mpr ⟨hr, htype, huser, ?_⟩
      rcases hcond with hzero | hmatches
      · refine .inr ⟨by rw [hname]; rfl, by rw [bucketOf_host hhost, haddress, hzero], ?_⟩
        rw [hsock, any_some]
        exact matchesName_iff.mpr ⟨hhost, haddress ▸ hmatch⟩
      · refine .inl ?_
        rw [Rec.Covers, hhost]
        exact ⟨name, hname, haddress ▸ hmatches⟩
    obtain ⟨r', hr'⟩ := isSome_iff_exists.mp
      (isSome_head?.mpr (ne_nil_of_mem hprobe))
    obtain ⟨hlive, htype', huser', hcovers⟩ := hheld.mem_probe.mp (mem_of_mem_head? hr')
    refine ⟨r'.aconf, by rw [findConfByAddress, hr']; rfl, r', hlive, rfl, htype', huser', ?_⟩
    exact hcovers.imp_right fun h => h.2.2

/-- The mask `*.3.4` and the address `1.2.3.4` of the host `host.example`. -/
theorem find_sockhost_iff_small :
    (∀ ops s, StepsMeet (step fun _ => false) Op.Valid start ops →
      run (step fun _ => false) start ops = some s →
      ∀ r ∈ s.live, r.address = "*.3.4".toList → r.type = .kill →
        r.userMatches ⟨some "host.example".toList, some "1.2.3.4".toList, none, none⟩ = true →
        ∃ c : ℕ, s.table.findConfByAddress .kill
            ⟨some "host.example".toList, some "1.2.3.4".toList, none, none⟩ = some c ∧
          ∃ r' ∈ s.live, r'.aconf = c ∧
            r'.MatchesText .kill ⟨some "host.example".toList, some "1.2.3.4".toList, none, none⟩) ↔
      (getMaskHash "*.3.4".toList = 0 ∨ matchMask "*.3.4".toList "host.example".toList = true) :=
  find_sockhost_iff _ 0 rfl rfl (by decide +kernel) (by decide +kernel)

/-- The K-line of `*.3.4` is not found for the address `1.2.3.4`, which it matches. -/
theorem find_sockhost_missed : ∃ (s : State ℕ) (r : Rec ℕ),
    run (step fun _ => false) start [.add (some "*.3.4".toList) .kill (some ['*']) 0] = some s ∧
      r ∈ s.live ∧ r.type = .kill ∧ r.mask = .host ∧ r.matchesName "1.2.3.4".toList = true ∧
      r.userMatches ⟨some "host.example".toList, some "1.2.3.4".toList, some ⟨.inet, [1, 2, 3, 4]⟩,
        some "user".toList⟩ = true ∧
      s.table.findConfByAddress .kill ⟨some "host.example".toList, some "1.2.3.4".toList,
        some ⟨.inet, [1, 2, 3, 4]⟩, some "user".toList⟩ = none := by
  refine ⟨_, _, rfl, mem_singleton_self _, rfl, ?_, ?_, rfl, ?_⟩ <;> decide +kernel

end Ratbox.Hostmask
