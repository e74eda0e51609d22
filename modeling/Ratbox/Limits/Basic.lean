import Ratbox.Limits.Counting

/-!
# Limits of classes

A client of this server is attached to an I-line, and through it to a class. A class counts its
clients, and the clients in each block of addresses, and has limits for both. The counters of the
blocks are in a patricia tree.

Source: `src/s_conf.c`, lines 384–453 and 525–621, `src/class.c` and `include/class.h`.

## Main definitions

* `Limits.Class`, `Limits.Conf`, `Limits.State`: classes, I-lines, and all with the clients.
* `Limits.addIpLimit`, `Limits.removeIpLimit`: a client is counted in a block.
* `Limits.attachConf`, `Limits.detachConf`: a client is attached and detached.
* `Limits.Blocks`: the counters of a class are right.

## Main results

* `Limits.addIpLimit_spec`: what is there after a client is counted, or rejected.
* `Limits.Blocks.add`, `Limits.Blocks.remove`: the counters stay right.

The numbers of clients do not overflow. The notice to a client with an exempt I-line is left out.
-/

namespace Ratbox.Limits

open Address Patricia CritBit Option Function

/-- The values of `chk_res` that `attach_conf` returns. -/
inductive ChkRes
  | success
  | notAuthorised
  | iLineFull
  | tooManyLocal
  deriving DecidableEq

/-- `struct Class`. The settings of the lengths do not exceed those of addresses. -/
structure Class where
  maxTotal : ℤ
  total : ℤ
  ipLimits : Patricia.Tree ℤ
  cidrIpv4Bitlen : ℕ
  cidrIpv6Bitlen : ℕ
  cidrAmount : ℤ
  ipv4_le : cidrIpv4Bitlen ≤ 32
  ipv6_le : cidrIpv6Bitlen ≤ 128

/-- A `struct ConfItem`: `IsIllegal`, `status & CONF_CLIENT`, `IsConfExemptLimits`, the number of
its clients and its class. -/
structure Conf where
  illegal : Bool
  client : Bool
  exemptLimits : Bool
  clients : ℤ
  cClass : Option ℕ
  deriving DecidableEq

/-- The address of a `struct Client`. -/
abbrev Client := ℕ

/-- The fields `ip` and `att_conf` of the clients, those that are exempt from limits, the I-lines
and the classes. -/
structure State where
  ip : Client → Ip
  attConf : Client → Option ℕ
  exempt : Client → Bool
  conf : ℕ → Option Conf
  cls : ℕ → Option Class

/-! ### Blocks -/

/-- The length of the blocks of a family. -/
def Class.bitlen (cls : Class) : Family → ℕ
  | .inet => cls.cidrIpv4Bitlen
  | .inet6 => cls.cidrIpv6Bitlen

/-- The blocks have a limit. -/
def Class.limited (cls : Class) : Bool :=
  ¬(cls.cidrAmount = 0 ∨ cls.cidrIpv4Bitlen = 0 ∧ cls.cidrIpv6Bitlen = 0)

/-- Write the field `ip_limits`. -/
def Class.setLimits (cls : Class) (t : Patricia.Tree ℤ) : Class := { cls with ipLimits := t }

/-- The node of `add_ip_limit`. -/
def findBlock (cls : Class) (ip : Ip) : Option (Patricia.Tree ℤ × Addr) := do
  match ← cls.ipLimits.matchIp ip with
  | some a => some (cls.ipLimits, a)
  | none => cls.ipLimits.makeAndLookupIp ip (cls.bitlen ip.family)

/-- `add_ip_limit`: whether it does not return 0, and the class after it. -/
def addIpLimit (cls : Class) (ip : Ip) (exemptLimits : Bool) : Option (Bool × Class) :=
  if !cls.limited then some (true, cls)
  else do
    let (t, a) ← findBlock cls ip
    if cls.cidrAmount ≤ counter t a ∧ exemptLimits = false then
      if counter t a = 0 then (t.remove a).map fun t => (false, cls.setLimits t)
      else some (false, cls.setLimits t)
    else some (true, cls.setLimits (t.write a (some (counter t a + 1))))

/-- `remove_ip_limit`. -/
def removeIpLimit (cls : Class) (ip : Ip) : Option Class :=
  if !cls.limited then some cls
  else do
    match ← cls.ipLimits.matchIp ip with
    | none => some cls
    | some a =>
      let data := counter cls.ipLimits a - 1
      let t := cls.ipLimits.write a (some data)
      if data = 0 then (t.remove a).map cls.setLimits else some (cls.setLimits t)

/-! ### Attaching and detaching -/

/-- The number of clients of a class is one less, or one more. -/
def Class.setTotal (cls : Class) (total : ℤ) : Class := { cls with total := total }

/-- Write a class. -/
@[simps -fullyApplied]
def State.setClass (s : State) (k : ℕ) (cls : Option Class) : State :=
  { s with cls := update s.cls k cls }

/-- Write an I-line. -/
@[simps -fullyApplied]
def State.setConf (s : State) (a : ℕ) (aconf : Option Conf) : State :=
  { s with conf := update s.conf a aconf }

/-- Write the field `att_conf` of a client. -/
@[simps -fullyApplied]
def State.setAtt (s : State) (c : Client) (a : Option ℕ) : State :=
  { s with attConf := update s.attConf c a }

/-- What `detach_conf` does to the class of the I-line. -/
def leaveClass (s : State) (c : Client) (a : ℕ) (aconf : Conf) : Option State :=
  match aconf.cClass with
  | none => some s
  | some k => do
    let cls ← s.cls k
    let cls ← removeIpLimit cls (s.ip c)
    let cls := if 0 < cls.total then cls.setTotal (cls.total - 1) else cls
    if cls.maxTotal = -1 ∧ cls.total = 0 then
      -- free_class
      some ((s.setClass k none).setConf a (some { aconf with cClass := none }))
    else some (s.setClass k (some cls))

/-- What `detach_conf` does to the I-line. -/
def leaveConf (s : State) (c : Client) (a : ℕ) : Option State :=
  (s.conf a).map fun aconf =>
    let aconf := { aconf with clients := aconf.clients - 1 }
    (s.setConf a (if aconf.clients = 0 ∧ aconf.illegal = true then none else some aconf)).setAtt c
      none

/-- `detach_conf`: whether it does not return -1, and the state after it. -/
def detachConf (s : State) (c : Client) : Option (Bool × State) :=
  match s.attConf c with
  | none => some (false, s)
  | some a => do
    let aconf ← s.conf a
    let s ← leaveClass s c a aconf
    let s ← leaveConf s c a
    some (true, s)

/-- What `attach_conf` first does to the class: whether the client is not too many for its block. -/
def joinBlock (s : State) (c : Client) (aconf : Conf) : Option (Bool × State) :=
  match aconf.cClass with
  | none => some (true, s)
  | some k => do
    let cls ← s.cls k
    let (ok, cls) ← addIpLimit cls (s.ip c) aconf.exemptLimits
    some (ok, s.setClass k (some cls))

/-- The I-line is full. -/
def full (aconf : Conf) (cls : Class) : Bool :=
  aconf.client ∧ cls.maxTotal ≤ cls.total ∧ 0 < cls.maxTotal

/-- The last lines of `attach_conf`. -/
def joinConf (s : State) (c : Client) (a : ℕ) : Option State := do
  let aconf ← s.conf a
  let k ← aconf.cClass
  let cls ← s.cls k
  some (((s.setAtt c (some a)).setConf a (some { aconf with
    clients := aconf.clients + 1 })).setClass k (some (cls.setTotal (cls.total + 1))))

/-- `SetExemptLimits`. -/
@[simps -fullyApplied]
def State.setExempt (s : State) (c : Client) : State := { s with exempt := update s.exempt c true }

/-- `attach_conf`. -/
def attachConf (s : State) (c : Client) (a : ℕ) : Option (ChkRes × State) := do
  let aconf ← s.conf a
  if aconf.illegal then some (.notAuthorised, s)
  else
    let (ok, s) ← joinBlock s c aconf
    if !ok then some (.tooManyLocal, s)
    else
      let k ← aconf.cClass
      let cls ← s.cls k
      if full aconf cls ∧ aconf.exemptLimits = false then some (.iLineFull, s)
      else
        let s := if full aconf cls then s.setExempt c else s
        let (_, s) ← detachConf s c
        let s ← joinConf s c a
        some (.success, s)

/-- What happens. -/
inductive Op
  | attach (c : Client) (a : ℕ)
  | detach (c : Client)
  deriving DecidableEq

/-- A step. -/
def step (s : State) : Op → Option State
  | .attach c a => (attachConf s c a).map Prod.snd
  | .detach c => (detachConf s c).map Prod.snd

/-! ### The counters of the blocks -/

/-- The counters are the numbers of the clients in the blocks, where a client may count more than
once. -/
structure Blocks (ip : Client → Ip) (members : Multiset Client) (cls : Class) : Prop where
  inv : ∃ label, Tree.Inv cls.ipLimits label
  maxbits : cls.ipLimits.maxbits = 128
  fits : ∀ a q, cls.ipLimits.pfxAt a = some q →
    q.Fits q.family ∧ q.bitlen = cls.bitlen q.family ∧ cls.limited = true
  counted : ∀ a q, cls.ipLimits.pfxAt a = some q →
    counter cls.ipLimits a = members.countP (fun c => InBlock (ip c) q) ∧ 0 < counter cls.ipLimits a
  found : cls.limited = true → ∀ c ∈ members, ∃ a q, cls.ipLimits.pfxAt a = some q ∧
    InBlock (ip c) q

section Blocks

variable {ip : Client → Ip} {members : Multiset Client} {cls cls' : Class} {t : Patricia.Tree ℤ}
  {label : Addr → ℕ → Bool} {x : Ip} {a b : Addr} {q q' : Prefix} {c : Client}

theorem Class.bitlen_le (cls : Class) (f : Family) : cls.bitlen f ≤ f.bits := by
  cases f with
  | inet => exact cls.ipv4_le
  | inet6 => exact cls.ipv6_le

/-- The node that `add_ip_limit` uses is one that matches, or a new one without data. -/
theorem findBlock_spec (h : Tree.Inv cls.ipLimits label) (hmax : cls.ipLimits.maxbits = 128)
    (x : Ip) :
    ∃ t a label', findBlock cls x = some (t, a) ∧ Tree.Inv t label' ∧ t.maxbits = 128 ∧
      ((t = cls.ipLimits ∧ cls.ipLimits.matchIp x = some (some a) ∧ ∃ q, t.pfxAt a = some q) ∨
        (cls.ipLimits.matchIp x = some none ∧ (∀ k ∈ cls.ipLimits.links.stored, ¬k <+: key x) ∧
          cls.ipLimits.pfxAt a = none ∧ cls.ipLimits.dataAt a = none ∧
          t.dataAt = cls.ipLimits.dataAt ∧
          t.pfxAt = update cls.ipLimits.pfxAt a (some (x.pfx (cls.bitlen x.family))))) :=
  blockNode_spec h hmax (cls.bitlen_le _)

/-- The blocks and their counters are as before. -/
structure SameBlocks (cls cls' : Class) : Prop where
  tree : ∃ t, cls' = cls.setLimits t
  inv : ∃ label, Tree.Inv cls'.ipLimits label
  maxbits : cls'.ipLimits.maxbits = cls.ipLimits.maxbits
  pfxAt : cls'.ipLimits.pfxAt = cls.ipLimits.pfxAt
  dataAt : cls'.ipLimits.dataAt = cls.ipLimits.dataAt

/-- **Rejecting** leaves the counters; counting adds one at the node. -/
theorem addIpLimit_spec (h : Tree.Inv cls.ipLimits label) (hmax : cls.ipLimits.maxbits = 128)
    (hpos : ∀ a q, cls.ipLimits.pfxAt a = some q → 0 < counter cls.ipLimits a) (x : Ip)
    (ex : Bool) :
    ∃ ok cls', addIpLimit cls x ex = some (ok, cls') ∧ (ok = false → SameBlocks cls cls') ∧
      (ok = true → cls.limited = false ∧ cls' = cls ∨ cls.limited = true ∧ ∃ t a, findBlock cls x =
        some (t, a) ∧ cls' = cls.setLimits (t.write a (some (counter t a + 1)))) := by
  rw [addIpLimit]
  cases hlimited : cls.limited with
  | false => exact ⟨true, cls, rfl, by simp, fun _ => .inl ⟨rfl, rfl⟩⟩
  | true =>
    obtain ⟨t, a, label', hfind, hinv, hmax', hcase⟩ := findBlock_spec h hmax x
    rw [if_neg (by simp), hfind, bind_eq_bind, bind_some]
    dsimp only
    split_ifs with hreject hzero
    · -- A block is removed again that has no clients.
      obtain ⟨rfl, -, q, hq⟩ | ⟨-, -, hnew, hnone, hdata, hpfx⟩ := hcase
      · exact absurd hzero (hpos a q hq).ne'
      · obtain ⟨t', hremove, hinv'', hmax'', hpfx', hdata'⟩ :=
          remove_spec (a := a) hinv (by rw [hpfx, update_self])
        refine ⟨false, cls.setLimits t', by rw [hremove, map_some], fun _ => ⟨⟨t', rfl⟩,
          ⟨_, hinv''⟩, ?_, ?_, ?_⟩, by simp⟩
        · exact hmax''.trans (hmax'.trans hmax.symm)
        · refine hpfx'.trans ?_
          rw [hpfx, update_idem, ← hnew, update_eq_self]
        · refine hdata'.trans ?_
          rw [hdata, ← hnone, update_eq_self]
    · obtain ⟨rfl, -⟩ | ⟨-, -, -, hnone, hdata, -⟩ := hcase
      · exact ⟨false, _, rfl, fun _ => ⟨⟨_, rfl⟩, ⟨_, hinv⟩, rfl, rfl, rfl⟩, by simp⟩
      · exact absurd (by rw [counter, hdata, hnone, getD_none]) hzero
    · exact ⟨true, _, rfl, by simp, fun _ => .inr ⟨rfl, t, a, rfl, rfl⟩⟩

/-- The numbers of a class with a limit are those of the addresses of its clients. -/
theorem blocks_iff_counts (hlimited : cls.limited = true) :
    Blocks ip members cls ↔ Counts cls.ipLimits cls.bitlen (members.map ip) := by
  have hcount : ∀ q, (members.map ip).countP (fun x => InBlock x q) = members.countP fun c =>
      InBlock (ip c) q := by
    intro q
    rw [Multiset.countP_map, Multiset.countP_eq_card_filter]
  refine ⟨fun h => ⟨h.inv, h.maxbits, fun a q hq => ⟨(h.fits a q hq).1, (h.fits a q hq).2.1⟩,
    fun a q hq => ?_, fun x hx => ?_⟩,
    fun h => ⟨h.inv, h.maxbits, fun a q hq => ⟨(h.fits a q hq).1, (h.fits a q hq).2, hlimited⟩,
      fun a q hq => ?_, fun _ c hc => h.found (ip c) (Multiset.mem_map_of_mem ip hc)⟩⟩
  · rw [hcount]
    exact h.counted a q hq
  · obtain ⟨c, hc, rfl⟩ := Multiset.mem_map.mp hx
    exact h.found hlimited c hc
  · rw [← hcount]
    exact h.counted a q hq

theorem SameBlocks.blocks (h : SameBlocks cls cls') (hblocks : Blocks ip members cls) :
    Blocks ip members cls' := by
  obtain ⟨⟨t, rfl⟩, hinv, hmax, hpfx, hdata⟩ := h
  refine ⟨hinv, hmax.trans hblocks.maxbits, fun a q hq => hblocks.fits a q (hpfx ▸ hq),
    fun a q hq => ?_, fun hlimited c hc => ?_⟩
  · rw [counter, hdata]
    exact hblocks.counted a q (hpfx ▸ hq)
  · rw [hpfx]
    exact hblocks.found hlimited c hc

/-- **A client is counted** in its block. -/
theorem Blocks.add (h : Blocks ip members cls) (hvalid : (ip c).Valid)
    (hown : Own cls.ipLimits (ip c)) {ex : Bool}
    (hadd : addIpLimit cls (ip c) ex = some (true, cls')) : Blocks ip (c ::ₘ members) cls' := by
  obtain ⟨label, hinv⟩ := h.inv
  obtain ⟨ok, cls₁, hadd₁, -, hcounted⟩ :=
    addIpLimit_spec hinv h.maxbits (fun a q hq => (h.counted a q hq).2) (ip c) ex
  cases hadd.symm.trans hadd₁
  obtain ⟨hnot, rfl⟩ | ⟨hlimited, t, a, hfind, rfl⟩ := hcounted rfl
  · exact ⟨h.inv, h.maxbits, h.fits, fun a q hq => absurd (hnot.symm.trans (h.fits a q hq).2.2)
      (by simp), fun hlimited => absurd (hnot.symm.trans hlimited) (by simp)⟩
  · obtain ⟨t', a', hfind', hcounts⟩ := ((blocks_iff_counts hlimited).mp h).inc (cls.bitlen_le _)
      hvalid hown
    cases hfind.symm.trans hfind'
    have hwritten : (cls.setLimits (t.write a (some (counter t a + 1)))).limited = true := hlimited
    refine (blocks_iff_counts hwritten).mpr ?_
    rw [Multiset.map_cons]
    exact hcounts

/-- **A client is not counted** in its block any more. -/
theorem Blocks.remove (h : Blocks ip members cls) (hown : Own cls.ipLimits (ip c))
    (hc : c ∈ members) :
    ∃ t, removeIpLimit cls (ip c) = some (cls.setLimits t) ∧
    Blocks ip (members.erase c) (cls.setLimits t) := by
  rw [removeIpLimit]
  cases hlimited : cls.limited with
  | false =>
    refine ⟨cls.ipLimits, rfl, h.inv, h.maxbits, h.fits, fun a q hq => ?_, fun hyes => ?_⟩
    · cases hlimited.symm.trans (h.fits a q hq).2.2
    · cases hlimited.symm.trans hyes
  | true =>
    obtain ⟨a, hmatch, hlast, hmore⟩ :=
      ((blocks_iff_counts hlimited).mp h).dec hown (Multiset.mem_map_of_mem ip hc)
    have hblocks : ∀ {t}, Counts t cls.bitlen ((members.map ip).erase (ip c)) →
        Blocks ip (members.erase c) (cls.setLimits t) := by
      intro t hcounts
      have hwritten : (cls.setLimits t).limited = true := hlimited
      refine (blocks_iff_counts hwritten).mpr ?_
      rw [Multiset.map_erase_of_mem _ _ hc]
      exact hcounts
    rw [if_neg (by simp), hmatch, bind_eq_bind, bind_some]
    dsimp only
    split_ifs with hzero
    · obtain ⟨t, hremove, hcounts⟩ := hlast hzero
      exact ⟨t, by rw [hremove, map_some], hblocks hcounts⟩
    · exact ⟨_, rfl, hblocks (hmore hzero)⟩

/-- For a client that is counted already there is a block. -/
theorem Blocks.pfxAt_of_add (h : Blocks ip members cls) (hc : c ∈ members) {ex ok : Bool}
    (hadd : addIpLimit cls (ip c) ex = some (ok, cls')) :
    cls'.ipLimits.pfxAt = cls.ipLimits.pfxAt := by
  obtain ⟨label, hinv⟩ := h.inv
  obtain ⟨ok, cls₁, hadd₁, hrejected, hcounted⟩ :=
    addIpLimit_spec hinv h.maxbits (fun a q hq => (h.counted a q hq).2) (ip c) ex
  cases hadd.symm.trans hadd₁
  cases ok with
  | false => exact (hrejected rfl).pfxAt
  | true =>
    obtain ⟨-, rfl⟩ | ⟨hlimited, t, a, hfind, rfl⟩ := hcounted rfl
    · rfl
    · obtain ⟨t', a', label', hfind', hinv', -, hcase⟩ := findBlock_spec hinv h.maxbits (ip c)
      cases hfind.symm.trans hfind'
      obtain ⟨rfl, -, q, hq⟩ | ⟨-, hout, -⟩ := hcase
      · exact (write_spec hinv' hq _).2.1
      · obtain ⟨b, q, hq, hin⟩ := h.found hlimited c hc
        exact absurd hin.2 (hout _ (mem_stored hq))

/-- The number of the block that an address is in. -/
def blockCounter (cls : Class) (x : Ip) : ℤ :=
  match cls.ipLimits.matchIp x with
  | some (some a) => counter cls.ipLimits a
  | _ => 0

/-- The client is too many for its block. -/
def Rejects (cls : Class) (x : Ip) (ex : Bool) : Prop :=
  cls.limited = true ∧ cls.cidrAmount ≤ blockCounter cls x ∧ ex = false

instance (cls : Class) (x : Ip) (ex : Bool) : Decidable (Rejects cls x ex) :=
  inferInstanceAs (Decidable (_ ∧ _))

/-- **A client is rejected** exactly when it is too many for its block. -/
theorem Blocks.addIpLimit_iff (h : Blocks ip members cls) (x : Ip) (ex : Bool) :
    ∃ ok cls', addIpLimit cls x ex = some (ok, cls') ∧ (ok = false ↔ Rejects cls x ex) ∧
      (ok = false → SameBlocks cls cls') ∧ ∃ t, cls' = cls.setLimits t := by
  obtain ⟨label, hinv⟩ := h.inv
  obtain ⟨ok, cls', hadd, hrejected, hcounted⟩ :=
    addIpLimit_spec hinv h.maxbits (fun a q hq => (h.counted a q hq).2) x ex
  refine ⟨ok, cls', hadd, ?_, hrejected, ?_⟩
  · rw [addIpLimit] at hadd
    cases hlimited : cls.limited with
    | false =>
      rw [if_pos (by simp [hlimited])] at hadd
      cases hadd
      simp [Rejects, hlimited]
    | true =>
      obtain ⟨t, a, label', hfind, -, -, hcase⟩ := findBlock_spec hinv h.maxbits x
      have hcounter : counter t a = blockCounter cls x := by
        obtain ⟨rfl, hmatch, -⟩ | ⟨hmatch, -, -, hnone, hdata, -⟩ := hcase
        · rw [blockCounter, hmatch]
        · rw [blockCounter, hmatch, counter, hdata, hnone, getD_none]
      rw [if_neg (by simp [hlimited]), hfind, bind_eq_bind, bind_some] at hadd
      dsimp only at hadd
      rw [Rejects, hlimited, ← hcounter]
      split_ifs at hadd with hreject hzero
      · obtain ⟨t', -, heq⟩ := map_eq_some_iff.mp hadd
        cases heq
        simp [hreject]
      · cases hadd
        simp [hreject]
      · cases hadd
        simpa using hreject
  · cases ok with
    | false => exact (hrejected rfl).tree
    | true =>
      obtain ⟨-, rfl⟩ | ⟨-, t, a, -, rfl⟩ := hcounted rfl
      · exact ⟨_, rfl⟩
      · exact ⟨_, rfl⟩

end Blocks

end Ratbox.Limits
