import Ratbox.Auth.Basic
import Ratbox.Lib.Combos

/-!
# Lists of banned addresses

A block of the configuration names a zone, says for which families of addresses it is, and which
answers mean that an address is banned. A client whose address is of such a family is looked up in
the zone, by a name of the octets or nibbles of the address in reverse, with the zone behind them.
The flag for IPv6 is set together with that for IPv4, which is never cleared, and it is not the bit
that it is compared with: clients with an IPv4 address are looked up in all zones, and those with an
IPv6 address in none. A name that is too long is cut, and looked up.

Source: `src/s_auth.c`, lines 53–73 and 584–877, `src/newconf.c`, lines 2207–2307, and
`doc/example.conf`, lines 154–171.

## Main definitions

* `Auth.Blacklist.load`: the zone that a block leads to.
* `Auth.Blacklist.enabled`: the families that a block is for.
* `Auth.zoneName`, `Auth.due`: the names that are to be looked up.
* `Auth.asked`, `Auth.heard`: the names that are looked up, and the answers that come, in a step.
* `Auth.Reply.Bans`: the answer means that the client is banned.

## Main results

* `Auth.hears_step`: a client is banned in a step by an answer.
* `Auth.asked_run`: the names that a run looks up.
* `Auth.checks_iff`: when the right names are looked up.
-/

namespace Ratbox.Auth

open Text Address Match Banlist List Resolver
open Flags (Has IsFlag)
open Run (run emitted emitted_append emitted_invariant)

/-! ### The configuration -/

section Configuration

variable (t : Rbl)

/-- `rbl_set_aftype`. -/
def rblSetAftype (isv4 _isv6 : Bool) : Rbl :=
  let t := if isv4 then { t with flags := t.flags ||| rblFlagIsv4 } else t
  -- `isv4` is tested again
  if isv4 then { t with flags := t.flags ||| rblFlagIsv6 } else t

/-- `rbl_create`. -/
def rblCreate (zonename : Str) : Rbl := ⟨zonename, rblFlagIsv4, [], []⟩

/-- `rbl_set_match_other`. -/
def rblSetMatchOther (otherReply : Bool) : Rbl :=
  if otherReply then { t with flags := t.flags ||| rblFlagMatchOther }
  else { t with flags := t.flags &&& ~~~rblFlagMatchOther }

/-- `rbl_add_other_answer`. -/
def rblAddOtherAnswer (reason : Str) : Rbl :=
  { t with moAnswer := reason, flags := t.flags ||| rblFlagMatchOther }

/-- `rbl_add_answer`. -/
def rblAddAnswer (mask answer : Str) : Rbl :=
  if mask = [] ∨ answer = [] then t else { t with answers := (mask, answer) :: t.answers }

end Configuration

/-- An entry of a block. -/
inductive Entry
  | mask (mask : Str)
  | answer (answer : Str)
  | matchOther (yes : Bool)
  | matchOtherAnswer (answer : Str)
  | aftype (aft : Str)
  deriving DecidableEq

/-- A block of the configuration. -/
structure Blacklist where
  subname : Str
  entries : List Entry
  deriving DecidableEq

/-- What `conf_set_blacklist_aftype` reads: whether a zone is for IPv4, and whether it is for
IPv6. -/
def readAftype (aft : Str) : Bool × Bool :=
  if strcasecmp aft "ipv6".toList then (false, true)
  else if strcasecmp aft "ipv4".toList then (true, false)
  else if strcasecmp aft "both".toList then (true, true)
  else (true, false)

/-- `conf_set_blacklist_aftype`. -/
def confSetBlacklistAftype (t : Rbl) (aft : Str) : Rbl :=
  rblSetAftype t (readAftype aft).1 (readAftype aft).2

/-- The function of an entry, with `t_rbl` and `t_match`. -/
def confSetBlacklist : Rbl × Str → Entry → Rbl × Str
  | (t, _), .mask mask => (t, mask)
  | (t, tMatch), .answer answer => (rblAddAnswer t tMatch answer, tMatch)
  | (t, tMatch), .matchOther yes => (rblSetMatchOther t yes, tMatch)
  | (t, tMatch), .matchOtherAnswer answer => (rblAddOtherAnswer t answer, tMatch)
  | (t, tMatch), .aftype aft => (confSetBlacklistAftype t aft, tMatch)

/-- `conf_set_blacklist_start`. -/
def confSetBlacklistStart (subname : Str) : Rbl × Str :=
  (rblSetAftype (rblCreate subname) true false, [])

namespace Blacklist

variable (b : Blacklist)

/-- The zone that `conf_set_blacklist_end` adds. -/
def load : Rbl := (b.entries.foldl confSetBlacklist (confSetBlacklistStart b.subname)).1

/-- The setting of an entry. -/
def aftypeOf : Entry → Option (Bool × Bool)
  | .aftype aft => some (readAftype aft)
  | _ => none

/-- **The families that a block is for**: those of its last setting, or IPv4. -/
def enabled (family : Family) : Bool :=
  let setting := ((b.entries.filterMap aftypeOf).getLast?).getD (true, false)
  match family with
  | .inet => setting.1
  | .inet6 => setting.2

variable {t : Rbl} {b}

theorem rblname_confSetBlacklist (c : Rbl × Str) (e : Entry) :
    (confSetBlacklist c e).1.rblname = c.1.rblname := by
  cases e with
  | answer answer =>
    rw [confSetBlacklist, rblAddAnswer]
    split_ifs <;> rfl
  | matchOther yes => cases yes <;> rfl
  | aftype aft =>
    rw [confSetBlacklist, confSetBlacklistAftype, rblSetAftype]
    split_ifs <;> rfl
  | _ => rfl

/-- What every entry keeps holds of the zone. -/
theorem load_induct {P : Rbl → Prop} (hstart : P (confSetBlacklistStart b.subname).1)
    (hentry : ∀ c e, P c.1 → P (confSetBlacklist c e).1) : P b.load := by
  rw [load]
  generalize confSetBlacklistStart b.subname = c at hstart
  induction b.entries generalizing c with
  | nil => exact hstart
  | cons e entries ih => exact ih _ (hentry c e hstart)

@[simp]
theorem load_rblname : b.load.rblname = b.subname := by
  refine load_induct (P := fun t => t.rblname = b.subname) rfl fun c e h => ?_
  rw [rblname_confSetBlacklist, h]

/-- Both flags are set. -/
def Both (t : Rbl) : Prop := Has t.flags rblFlagIsv4 ∧ Has t.flags rblFlagIsv6

theorem isFlag_isv4 : IsFlag rblFlagIsv4 := ⟨0, by omega, by decide⟩

theorem isFlag_isv6 : IsFlag rblFlagIsv6 := ⟨1, by omega, by decide⟩

theorem both_or (h : Both t) (flag : BitVec 8) : Both { t with flags := t.flags ||| flag } :=
  ⟨isFlag_isv4.has_or.mpr (.inl h.1), isFlag_isv6.has_or.mpr (.inl h.2)⟩

/-- **An entry clears neither flag.** -/
theorem both_confSetBlacklist {c : Rbl × Str} (h : Both c.1) (e : Entry) :
    Both (confSetBlacklist c e).1 := by
  cases e with
  | mask mask => exact h
  | answer answer =>
    rw [confSetBlacklist, rblAddAnswer]
    split_ifs <;> exact h
  | matchOther yes =>
    cases yes with
    | true => exact both_or h rblFlagMatchOther
    | false => exact ⟨isFlag_isv4.has_clear.mpr ⟨h.1, by decide⟩, isFlag_isv6.has_clear.mpr
      ⟨h.2, by decide⟩⟩
  | matchOtherAnswer answer => exact both_or h rblFlagMatchOther
  | aftype aft =>
    rw [confSetBlacklist, confSetBlacklistAftype, rblSetAftype]
    split_ifs
    · exact both_or (both_or h rblFlagIsv4) rblFlagIsv6
    · exact h

/-- **A block leads to a zone with both flags**, whatever it says. -/
theorem both_load (b : Blacklist) : Both b.load := by
  have hstart : Has (rblFlagIsv4 ||| rblFlagIsv4 ||| rblFlagIsv6) rblFlagIsv4 ∧
      Has (rblFlagIsv4 ||| rblFlagIsv4 ||| rblFlagIsv6) rblFlagIsv6 := by decide
  exact load_induct hstart fun c e h => both_confSetBlacklist h e

end Blacklist

/-- A flag is compared with `true`: that for IPv4 is that bit, and that for IPv6 is not. -/
theorem asks_of_both {t : Rbl} (h : Blacklist.Both t) (family : Family) :
    t.asks family = decide (family = .inet) := by
  have hv4 : ∀ u : BitVec 8, Has u rblFlagIsv4 → u &&& rblFlagIsv4 = 1 := by decide
  have hv6 : ∀ u : BitVec 8, ¬u &&& rblFlagIsv6 = 1 := by decide
  cases family with
  | inet => exact decide_eq_true (hv4 t.flags h.1)
  | inet6 => exact decide_eq_false (hv6 t.flags)

/-! ### The names -/

/-- The labels of the name for an address: its octets, or its nibbles, in reverse. -/
def labels (ip : Ip) : List Str :=
  match ip.family with
  | .inet => (ip.add.map fun b => Nat.toDigits 10 b.toNat).reverse
  | .inet6 => (ip.add.flatMap fun b => [Nat.toDigits 16 (b.toNat / 16),
    Nat.toDigits 16 (b.toNat % 16)]).reverse

/-- **The name of an address in a zone.** -/
def zoneName (ip : Ip) (zone : Str) :
    Str := ((labels ip).flatMap fun label => label ++ ['.']) ++ zone

/-- The name can be built: it fits into the buffer. -/
def Buildable (ip : Ip) (zone : Str) : Prop := (zoneName ip zone).length < rblHostlen

instance (ip : Ip) (zone : Str) : Decidable (Buildable ip zone) :=
  inferInstanceAs (Decidable (_ < _))

/-- **The names that are to be looked up for an address**: in the zones that are for its family, if
they can be built. -/
def due (ip : Ip) (blocks : List Blacklist) : List Str :=
  blocks.filterMap fun b =>
    if b.enabled ip.family ∧ Buildable ip b.subname then some (zoneName ip b.subname) else none

/-- **The condition**: all zones are for IPv4, if the address is one, and none is for IPv6
otherwise; and the names can be built. -/
def DueIsAsked (ip : Ip) (blocks : List Blacklist) : Prop :=
  match ip.family with
  | .inet => ∀ b ∈ blocks, b.enabled .inet = true ∧ Buildable ip b.subname
  | .inet6 => ∀ b ∈ blocks, ¬(b.enabled .inet6 = true ∧ Buildable ip b.subname)

section Names

variable {ip : Ip} {blocks : List Blacklist}

/-- The text that is looked up is the name, cut to the buffer. -/
theorem rblString_eq (ip : Ip) (zone : Str) :
    rblString ip zone = (zoneName ip zone).take (rblHostlen - 1) := by
  obtain ⟨family, add⟩ := ip
  rw [rblString, zoneName, labels]
  cases family with
  | inet => rw [← map_reverse, flatMap_map]
  | inet6 =>
    have hnibbles : ∀ l : List UInt8,
        (l.flatMap fun b => [Nat.toDigits 16 (b.toNat / 16),
          Nat.toDigits 16 (b.toNat % 16)]).reverse =
          l.reverse.flatMap fun b => [Nat.toDigits 16 (b.toNat % 16),
              Nat.toDigits 16 (b.toNat / 16)] := by
      intro l
      rw [reverse_flatMap]
      rfl
    dsimp only
    rw [hnibbles, flatMap_assoc]
    simp

theorem rblString_of_buildable {zone : Str} (h : Buildable ip zone) :
    rblString ip zone = zoneName ip zone := by
  rw [rblString_eq]
  exact take_of_length_le (Nat.le_sub_one_of_lt h)

/-- The names that are looked up are those that are to be looked up if and only if the condition is
met. -/
theorem asked_eq_due_iff :
    (((blocks.map Blacklist.load).filter (·.asks ip.family)).map fun t => rblString ip t.rblname) =
    due ip blocks ↔ DueIsAsked ip blocks := by
  have hfilter : (blocks.map Blacklist.load).filter (·.asks ip.family) =
      if ip.family = .inet then blocks.map Blacklist.load else [] := by
    split_ifs with hfamily
    · refine filter_eq_self.mpr (forall_mem_map.mpr fun b _ => ?_)
      rw [asks_of_both (Blacklist.both_load b), hfamily]
      rfl
    · refine filter_eq_nil_iff.mpr (forall_mem_map.mpr fun b _ => ?_)
      rw [asks_of_both (Blacklist.both_load b), decide_eq_false hfamily]
      exact Bool.false_ne_true
  rw [hfilter, due, DueIsAsked]
  cases hfamily : ip.family with
  | inet =>
    dsimp only
    rw [if_pos rfl, map_map]
    constructor
    · intro heq b hb
      -- As many names are to be looked up as there are zones.
      have hlength := (congrArg length heq).symm
      rw [length_map, filterMap_length_eq_length] at hlength
      by_contra hnot
      exact absurd (hlength b hb) (by rw [if_neg hnot]; exact Bool.false_ne_true)
    · intro h
      rw [← filterMap_eq_map]
      refine filterMap_congr fun b hb => ?_
      obtain ⟨henabled, hbuild⟩ := h b hb
      rw [if_pos ⟨henabled, hbuild⟩, Function.comp_apply, Function.comp_apply,
        Blacklist.load_rblname, rblString_of_buildable hbuild]
  | inet6 =>
    dsimp only
    rw [if_neg (by decide), map_nil, eq_comm, filterMap_eq_nil_iff]
    refine forall₂_congr fun b _ => ?_
    rw [ite_eq_right_iff]
    exact ⟨fun h hand => Option.some_ne_none _ (h hand), fun h hand => absurd hand h⟩

end Names

/-! ### Answers -/

/-- An answer that comes for a client, about a zone. -/
structure Reply where
  client : ℕ
  rbl : Rbl
  result : Str
  status : ℤ
  aftype : Option Family
  deriving DecidableEq

/-- **The answer means that the client is banned**: the zone has an address for it, which one of the
masks matches by its last octet, as a text or as a network, or any address is enough. -/
def Reply.Bans (r : Reply) : Prop :=
  r.status = 1 ∧ r.aftype = some .inet ∧ ∃ addr, inetPton .inet r.result = some addr ∧
    ((∃ res ∈ r.rbl.answers, lastOctet res.1 addr = true ∨ matchMask res.1 r.result = true ∨
      matchIps res.1 r.result = true) ∨ r.rbl.matchOther = true)

/-- The client was banned. -/
def State.Banned (s : State) (a : ℕ) : Prop :=
  ∃ rblname answer, Output.banned a rblname answer ∈ s.outputs

/-- The answer that `rbl_dns_callback` takes. -/
def State.replyTo (s : State) (a query : ℕ) (result : Str) (status : ℤ) (aftype : Option Family) :
    List Reply :=
  (((s.auths a).bind fun auth => auth.rblQueries.find? (·.query = query)).map fun q =>
    ⟨a, q.rbl, result, status, aftype⟩).toList

/-- The answer that a callback of the resolver takes. -/
def State.replied (s : State) : Resolver.Event → List Reply
  | .ran q results status aftype =>
    match s.callbacks q with
    | some (.rblDns a query) => s.replyTo a query results status aftype
    | _ => []
  | _ => []

/-- The answers that callbacks take, one after the other. -/
def replies (s : State) : List Resolver.Event → List Reply
  | [] => []
  | e :: log => replies s log ++ (log.foldr (fun e s => callback s e) s).replied e

/-- The answers that come when the resolver has done something. -/
def State.followed (s : State) (r : Resolver.State) : List Reply :=
  replies { s with resolver := r } (r.log.take (r.log.length - s.resolver.log.length))

/-- The answers that come while a lookup is made. -/
def State.lookupReplies (s : State) (type : Char) (family : Family) (name : Str) (c : Callback) :
    List Reply :=
  let callbacks :=
    if (assignDnsId s.resolver).2 = 0 then s.callbacks
    else Function.update s.callbacks s.resolver.fresh (some c)
  { s with callbacks := callbacks }.followed (Resolver.lookup s.resolver type family name)

/-- **The answers that come in a step.** -/
def heard (s : State) : Op → List Reply
  | .startAuthNext _ =>
    match s.starting with
    | some (a, .rblLookup query hostbuf left) =>
      { s with starting := some (a, .rblReturn query (assignDnsId s.resolver).2 left)
        }.lookupReplies 'H' .inet hostbuf (.rblDns a query)
    | some (a, .dnsLookup) =>
      { s with starting := some (a, .dnsReturn (assignDnsId s.resolver).2) }.lookupReplies 'I'
        (s.client a).ip.family (s.client a).sockhost (.authDns a)
    | _ => []
  | .resolver op => (Resolver.step s.resolver op).elim [] s.followed
  | _ => []

/-- The name that is looked up next. -/
def Stage.asked : Stage → List Str
  | .rblLookup _ hostbuf _ => [hostbuf]
  | _ => []

/-- **The names that are looked up in a step**, with the clients that they are looked up for. -/
def asked (s : State) : Op → List (ℕ × Str)
  | .startAuthNext _ => s.starting.elim [] fun p => p.2.asked.map (p.1, ·)
  | _ => []

/-- `rbl_dns_callback` has a reason if and only if the answer means that the client is banned. -/
theorem reason_isSome (r : Reply) :
    (r.rbl.reason r.result r.status r.aftype).isSome = true ↔ r.Bans := by
  rw [Rbl.reason, Reply.Bans]
  by_cases hnone : r.status ≠ 1 ∨ r.aftype ≠ some .inet
  · rw [if_pos hnone]
    refine iff_of_false Bool.false_ne_true fun h => ?_
    exact hnone.elim (fun hstatus => hstatus h.1) fun haftype => haftype h.2.1
  rw [if_neg hnone]
  obtain ⟨hstatus, haftype⟩ := not_or.mp hnone
  rw [and_iff_right (not_not.mp hstatus), and_iff_right (not_not.mp haftype)]
  cases inetPton .inet r.result with
  | none => exact iff_of_false Bool.false_ne_true fun ⟨_, heq, _⟩ => absurd heq nofun
  | some addr =>
    have hmatches : (r.rbl.answers.find? fun res =>
        lastOctet res.1 addr || matchMask res.1 r.result || matchIps res.1 r.result).isSome = true ↔
        ∃ res ∈ r.rbl.answers, lastOctet res.1 addr = true ∨ matchMask res.1 r.result = true ∨
          matchIps res.1 r.result = true := by
      simp only [find?_isSome, Bool.or_eq_true, or_assoc]
    simp only [Option.some.injEq, exists_eq_left', ← hmatches]
    cases r.rbl.answers.find? fun res =>
        lastOctet res.1 addr || matchMask res.1 r.result || matchIps res.1 r.result with
    | some res => exact iff_of_true rfl (.inl rfl)
    | none =>
      cases r.rbl.matchOther with
      | true => exact iff_of_true rfl (.inr rfl)
      | false =>
        exact iff_of_false Bool.false_ne_true fun h => h.elim Bool.false_ne_true Bool.false_ne_true

/-- **What a function does**: `start_auth` stays where it is, the clients stay, and those that
answers ban are banned. -/
structure Hears (s : State) (out : List Reply) (s' : State) : Prop where
  starting : s'.starting = s.starting
  clients : s'.clients = s.clients
  banned : ∀ a, s'.Banned a ↔ s.Banned a ∨ ∃ r ∈ out, r.client = a ∧ r.Bans

/-- What is said of no ban. -/
def Output.Quiet : Output → Prop
  | .banned _ _ _ => False
  | _ => True

namespace Hears

variable {s s' s'' : State} {out out' : List Reply} {a : ℕ} {auth : AuthRequest}
  {outputs : List Output}

theorem of_outputs (hstarting : s'.starting = s.starting) (hclients : s'.clients = s.clients)
    (houtputs : s'.outputs = s.outputs) : Hears s [] s' :=
  ⟨hstarting, hclients, fun a => by simp [State.Banned, houtputs]⟩

theorem refl (s : State) : Hears s [] s := of_outputs rfl rfl rfl

theorem trans (h : Hears s out s') (h' : Hears s' out' s'') : Hears s (out ++ out') s'' where
  starting := h'.starting.trans h.starting
  clients := h'.clients.trans h.clients
  banned a := by
    rw [h'.banned, h.banned, or_assoc]
    simp only [mem_append, or_and_right, exists_or]

/-- Something else is said, or the request is written. -/
theorem output (h : ∀ o ∈ outputs, o.Quiet) : Hears s [] (s.output outputs) where
  starting := rfl
  clients := rfl
  banned a := by
    have hnot : ∀ rblname answer, Output.banned a rblname answer ∉ outputs :=
      fun rblname answer hmem => h _ hmem
    simp [State.Banned, State.output, hnot]

theorem set : Hears s [] (s.set a auth) := of_outputs rfl rfl rfl

theorem touch : Hears s [] (s.touch a) := of_outputs rfl rfl rfl

theorem withAuth {f : State → AuthRequest → State} (h : ∀ s auth, Hears s [] (f s auth)) :
    Hears s [] (s.withAuth a f) := by
  rw [State.withAuth]
  cases s.auths a with
  | none => exact touch
  | some auth => exact touch.trans (h _ auth)

theorem releaseAuthClient : Hears s [] (releaseAuthClient s a) := by
  refine withAuth fun s auth => ?_
  split_ifs
  · exact refl s
  · exact of_outputs rfl rfl rfl

/-- Something is said, the request is written, and it is released if nothing more is waited for. -/
theorem release (h : ∀ o ∈ outputs, o.Quiet) :
    Hears s [] (Auth.releaseAuthClient ((s.output outputs).set a auth) a) :=
  ((output h).trans set).trans releaseAuthClient

theorem authDnsCallback (res : Str) (status : ℤ) : Hears s [] (authDnsCallback s a res status) := by
  refine withAuth fun s auth => release ?_
  rw [dnsOutputs]
  split_ifs <;> simp [Output.Quiet]

theorem authError : Hears s [] (authError s a) :=
  withAuth fun _ _ => release (forall_mem_singleton.mpr trivial)

theorem readAuth (buf : Option Str) : Hears s [] (readAuth s a buf) := by
  refine withAuth fun s auth => release ?_
  rw [identOutputs]
  split <;> simp [Output.Quiet]

theorem rblReleaseAuth : Hears s [] (rblReleaseAuth s a) := by
  refine withAuth fun s auth => ?_
  split_ifs
  · exact refl s
  · exact release (forall_mem_singleton.mpr trivial)

/-- **`rbl_dns_callback`** bans the client if the answer means that. -/
theorem rblDnsCallback (query : ℕ) (result : Str) (status : ℤ) (aftype : Option Family) :
    Hears s (s.replyTo a query result status aftype)
    (rblDnsCallback s a query result status aftype) := by
  rw [Auth.rblDnsCallback, State.withAuth, State.replyTo]
  cases s.auths a with
  | none => exact touch
  | some auth =>
    rw [Option.bind_some]
    dsimp only
    cases auth.rblQueries.find? (·.query = query) with
    | none => exact touch
    | some q =>
      rw [Option.map_some, Option.toList_some]
      have hbanned : Hears (s.touch a) [⟨a, q.rbl, result, status, aftype⟩]
          ((s.touch a).output (rblOutputs a q.rbl result status aftype)) := by
        refine ⟨rfl, rfl, fun b => ?_⟩
        have hreason := reason_isSome ⟨a, q.rbl, result, status, aftype⟩
        dsimp only at hreason
        simp only [mem_singleton, exists_eq_left, ← hreason, State.Banned, State.output, rblOutputs]
        cases q.rbl.reason result status aftype with
        | none => simp
        | some reason => simp [exists_or, or_comm, eq_comm]
      exact ((touch.trans hbanned).trans set).trans rblReleaseAuth

theorem callback (e : Resolver.Event) : Hears s (s.replied e) (callback s e) := by
  cases e with
  | ran q results status aftype =>
    rw [Auth.callback, State.replied]
    cases s.callbacks q with
    | none => exact refl s
    | some c =>
      cases c with
      | authDns a => exact authDnsCallback results status
      | rblDns a query => exact rblDnsCallback query results status aftype
  | _ => exact refl s

/-- **Callbacks**, one after the other. -/
theorem foldr_callback (s : State) (log : List Resolver.Event) :
    Hears s (replies s log) (log.foldr (fun e s => Auth.callback s e) s) := by
  induction log with
  | nil => exact refl s
  | cons e log ih => exact ih.trans (callback e)

theorem follow (r : Resolver.State) : Hears s (s.followed r) (s.follow r) :=
  (of_outputs rfl rfl rfl : Hears s [] { s with resolver := r }).trans (foldr_callback _ _)

theorem lookup (type : Char) (family : Family) (name : Str) (c : Callback) :
    Hears s (s.lookupReplies type family name c) (s.lookup type family name c) := by
  let callbacks := if (assignDnsId s.resolver).2 = 0 then s.callbacks
    else Function.update s.callbacks s.resolver.fresh (some c)
  have hcallbacks : Hears s [] { s with callbacks := callbacks } := of_outputs rfl rfl rfl
  exact hcallbacks.trans (follow _)

/-- A lookup leaves `start_auth` where it was put. -/
theorem lookup_at (starting : Option (ℕ × Stage)) (type : Char) (family : Family) (name : Str)
    (c : Callback) :
    ({ s with starting := starting }.lookup type family name c).starting = starting ∧
      ({ s with starting := starting }.lookup type family name c).clients = s.clients :=
  have h : Hears { s with starting := starting } _ _ := lookup type family name c
  ⟨h.starting, h.clients⟩

theorem exitClient : Hears s [] (exitClient s a) := by
  have hdelete : Hears s [] (deleteAuthQueries s a) := by
    rw [deleteAuthQueries]
    cases s.auths a with
    | none => exact refl s
    | some auth => exact of_outputs rfl rfl rfl
  exact hdelete.trans (of_outputs rfl rfl rfl)

theorem timeoutAuth : Hears s [] (timeoutAuth s a auth) := by
  have houtputs : ∀ o ∈ timeoutOutputs a auth, o.Quiet := by
    rw [timeoutOutputs]
    split_ifs <;> simp [Output.Quiet]
  have hwritten : ∀ (r : Resolver.State) (auth' : AuthRequest),
      Hears s [] { (s.output (timeoutOutputs a auth)).set a auth' with resolver := r } :=
    fun _ _ => (output houtputs).trans (of_outputs rfl rfl rfl)
  exact (hwritten _ _).trans releaseAuthClient

theorem timeoutAuthQueries (now : ℕ) : Hears s [] (timeoutAuthQueries s now a) := by
  have hnext : Hears s [] { s with sweeping := some (now, (SavedNext.behind s.authPollList a).head?)
    } :=
    of_outputs rfl rfl rfl
  refine hnext.trans (withAuth fun s auth => ?_)
  split_ifs
  · exact timeoutAuth
  · exact refl s

theorem startAuthQuery (ident : IdentStart) : Hears s [] (startAuthQuery s a ident) := by
  have hdo : ∀ s : State, Hears s [] (s.output [.header a .doId]) :=
    fun s => output (forall_mem_singleton.mpr trivial)
  cases ident with
  | disabled =>
    rw [Auth.startAuthQuery]
    exact withAuth fun _ _ => set
  | dead => exact touch
  | failed => exact (hdo s).trans authError
  | answered buf => exact (hdo s).trans (readAuth buf)
  | waits =>
    rw [Auth.startAuthQuery]
    exact withAuth fun s _ => (hdo s).trans set

theorem rblChecked : Hears s [] (rblChecked s a) := by
  refine withAuth fun s auth => ?_
  split_ifs
  · have houtput : Hears s [] (s.output [.header a .finRbl]) :=
      output (forall_mem_singleton.mpr trivial)
    exact houtput.trans set
  · exact refl s

theorem rblAttach (t : Rbl) : Hears s [] (rblAttach s a t) :=
  (withAuth fun _ _ => set).trans (of_outputs rfl rfl rfl)

theorem rblReturn (query queryid : ℕ) : Hears s [] (rblReturn s a query queryid) := by
  rw [Auth.rblReturn]
  cases s.auths a with
  | none => exact refl s
  | some auth => exact set

end Hears

/-! ### Steps -/

/-- The names that are still to be looked up. -/
def Stage.toAsk (ip : Ip) : Stage → List Str
  | .rbls left => left.map fun t => rblString ip t.rblname
  | .rblLookup _ hostbuf left => hostbuf :: left.map fun t => rblString ip t.rblname
  | .rblReturn _ _ left => left.map fun t => rblString ip t.rblname
  | _ => []

/-- The stages of `rbl_check_rbls`. -/
def Stage.checks : Stage → Bool
  | .rbls _ => true
  | .rblLookup _ _ _ => true
  | .rblReturn _ _ _ => true
  | _ => false

/-- The names that are still to be looked up for a client. -/
def State.toAsk (s : State) (a : ℕ) : List Str :=
  match s.starting with
  | some (b, stage) => if b = a then stage.toAsk (s.client a).ip else []
  | none => []

/-- The names that were looked up for a client. -/
def askedFor (a : ℕ) (out : List (ℕ × Str)) :
    List Str := out.filterMap fun p => if p.1 = a then some p.2 else none

section Steps

variable {s s' : State} {op : Op} {a : ℕ} {out : List Reply}

/-- `start_auth` makes the step. -/
def Op.starts : Op → Bool
  | .startAuth _ _ _ => true
  | .startAuthNext _ => true
  | _ => false

/-- **A step that `start_auth` does not make.** -/
theorem hears_step (h : step s op = some s') (hop : op.starts = false) :
    Hears s (heard s op) s' := by
  cases op with
  | startAuth client rblLists timeout => exact absurd hop Bool.noConfusion
  | startAuthNext ident => exact absurd hop Bool.noConfusion
  | authError b =>
    rw [step] at h
    split_ifs at h
    cases h
    exact Hears.authError
  | readAuth b buf =>
    rw [step] at h
    split_ifs at h
    cases h
    exact Hears.readAuth buf
  | timeout now =>
    rw [step] at h
    split_ifs at h
    cases h
    exact Hears.of_outputs rfl rfl rfl
  | timeoutNext =>
    obtain ⟨⟨now, next⟩, -, rfl⟩ := Option.map_eq_some_iff.mp h
    cases next with
    | none => exact Hears.of_outputs rfl rfl rfl
    | some b => exact Hears.timeoutAuthQueries now
  | exit b =>
    rw [step] at h
    split_ifs at h
    cases h
    exact Hears.exitClient
  | resolver op =>
    obtain ⟨r, hr, rfl⟩ := Option.map_eq_some_iff.mp h
    rw [heard, hr]
    exact Hears.follow r

/-- What a step of `start_auth` looks up, and what is left. -/
structure Asks (s : State) (op : Op) (s' : State) (b : ℕ) (stage : Stage) (next : Option Stage)
    (names : List Str) : Prop where
  starting : s.starting = some (b, stage)
  starting' : s'.starting = next.map (b, ·)
  clients : s'.clients = s.clients
  asked : asked s op = names.map (b, ·)
  toAsk : stage.toAsk (s.client b).ip = names ++ next.elim [] (Stage.toAsk (s.client b).ip)

/-- **What a step does** to `start_auth` and the clients: nothing, a client is added, or
`start_auth` goes on. -/
theorem step_cases (h : step s op = some s') :
    (asked s op = [] ∧ s'.starting = s.starting ∧ s'.clients = s.clients) ∨
      (∃ client rblLists timeout, op = .startAuth client rblLists timeout ∧ s.starting = none ∧
        s' = startAuth s client rblLists timeout) ∨
      ∃ b stage next names, Asks s op s' b stage next names := by
  cases op with
  | startAuth client rblLists timeout =>
    rw [step] at h
    split_ifs at h with hbusy
    have hnone : s.starting = none := by
      rw [State.busy, Bool.or_eq_true, not_or] at hbusy
      exact Option.not_isSome_iff_eq_none.mp hbusy.1
    exact .inr (.inl ⟨client, rblLists, timeout, rfl, hnone, (Option.some.inj h).symm⟩)
  | startAuthNext ident =>
    -- A name leaves the list at `rbls`, and is looked up at `rblLookup`.
    right; right
    obtain ⟨⟨b, stage⟩, hstarting, rfl⟩ := Option.map_eq_some_iff.mp h
    have hasked : asked s (.startAuthNext ident) = stage.asked.map (b, ·) := by
      rw [asked, hstarting]
      rfl
    cases stage with
    | rbls left =>
      cases left with
      | nil => exact ⟨b, _, some .ident, [], hstarting, rfl, Hears.rblChecked.clients, hasked, rfl⟩
      | cons t left =>
        exact ⟨b, _, some (.rblLookup s.queries (rblString (s.client b).ip t.rblname) left), [],
          hstarting, rfl, (Hears.rblAttach t).clients, hasked, rfl⟩
    | rblLookup query hostbuf left =>
      obtain ⟨hnext, hclients⟩ := Hears.lookup_at (s := s)
        (some (b, .rblReturn query (assignDnsId s.resolver).2 left)) 'H' .inet hostbuf
          (.rblDns b query)
      exact ⟨b, _, some (.rblReturn query (assignDnsId s.resolver).2 left), [hostbuf], hstarting,
        hnext, hclients, hasked, rfl⟩
    | rblReturn query queryid left =>
      exact ⟨b, _, some (.rbls left), [], hstarting, rfl, (Hears.rblReturn query queryid).clients,
        hasked, rfl⟩
    | ident => exact ⟨b, _, some .dnsLookup, [], hstarting, rfl,
      (Hears.startAuthQuery ident).clients, hasked, rfl⟩
    | dnsLookup =>
      obtain ⟨hnext, hclients⟩ := Hears.lookup_at (s := s)
        (some (b, .dnsReturn (assignDnsId s.resolver).2)) 'I' (s.client b).ip.family
          (s.client b).sockhost (.authDns b)
      exact ⟨b, _, some (.dnsReturn (assignDnsId s.resolver).2), [], hstarting, hnext, hclients,
        hasked, rfl⟩
    | dnsReturn queryid =>
      have hset : Hears s [] (s.withAuth b fun s auth => s.set b { auth with
        dnsQuery := queryid }) :=
        Hears.withAuth fun _ _ => Hears.set
      exact ⟨b, _, none, [], hstarting, rfl, hset.clients, hasked, rfl⟩
  | _ =>
    have hhears := hears_step h rfl
    exact .inl ⟨rfl, hhears.starting, hhears.clients⟩

/-- **Who is banned in a step**: those that answers ban. -/
theorem banned_step (h : step s op = some s') (a : ℕ) :
    s'.Banned a ↔ s.Banned a ∨ ∃ r ∈ heard s op, r.client = a ∧ r.Bans := by
  cases op with
  | startAuth client rblLists timeout =>
    rw [step] at h
    split_ifs at h
    cases h
    have hstart : (startAuth s client rblLists timeout).Banned a ↔ s.Banned a := by
      rw [startAuth]
      split_ifs <;> simp [State.Banned, State.output, State.set]
    refine hstart.trans ?_
    simp [heard]
  | startAuthNext ident =>
    obtain ⟨⟨b, stage⟩, hstarting, rfl⟩ := Option.map_eq_some_iff.mp h
    rw [heard, hstarting]
    cases stage with
    | rbls left =>
      cases left with
      | nil => exact Hears.rblChecked.banned a
      | cons t left => exact (Hears.rblAttach t).banned a
    | rblLookup query hostbuf left =>
      exact (Hears.lookup 'H' .inet hostbuf (.rblDns b query)).banned a
    | rblReturn query queryid left => exact (Hears.rblReturn query queryid).banned a
    | ident => exact (Hears.startAuthQuery ident).banned a
    | dnsLookup => exact (Hears.lookup 'I' (s.client b).ip.family (s.client b).sockhost
      (.authDns b)).banned a
    | dnsReturn queryid =>
      have hset : Hears s [] (s.withAuth b fun s auth => s.set b { auth with
        dnsQuery := queryid }) :=
        Hears.withAuth fun _ _ => Hears.set
      exact hset.banned a
  | _ => exact (hears_step h rfl).banned a

end Steps

/-! ### Runs -/

section Runs

variable {dnsHelper : Bool} {before after : List Op} {s s₁ s' : State} {op : Op} {a : ℕ}
  {client : Client} {names : List Str} {out : List (ℕ × Str)}

/-- **Who is banned** in a run: those that answers ban. -/
theorem banned_run {ops : List Op} (hrun : run step (.start dnsHelper) ops = some s) (a : ℕ) :
    s.Banned a ↔ ∃ r ∈ emitted heard step (.start dnsHelper) ops, r.client = a ∧ r.Bans := by
  have hnone : (State.start dnsHelper).Banned a ↔ ∃ r ∈ ([] : List Reply), r.client = a ∧
      r.Bans := by
    simp [State.Banned, State.start]
  refine emitted_invariant (fun s (out : List Reply) => s.Banned a ↔ ∃ r ∈ out, r.client = a ∧
    r.Bans) ?_ hnone hrun
  intro s out op s' hbanned hs'
  rw [banned_step hs', hbanned]
  simp only [mem_append, or_and_right, exists_or]

/-- The clients for which something is looked up are there. -/
structure Known (s : State) (out : List (ℕ × Str)) : Prop where
  starting : ∀ b stage, s.starting = some (b, stage) → b < s.clients.length
  out_lt : ∀ p ∈ out, p.1 < s.clients.length

variable {rblLists : List Rbl} {timeout : ℕ}

theorem startAuth_clients :
    (startAuth s client rblLists timeout).clients = s.clients ++ [client] := by
  rw [startAuth]
  split_ifs <;> rfl

theorem startAuth_starting : ∃ stage,
    (startAuth s client rblLists timeout).starting = some (s.clients.length, stage) ∧
      stage.toAsk client.ip = (rblLists.filter (·.asks client.ip.family)).map fun t =>
      rblString client.ip t.rblname := by
  rw [startAuth]
  split_ifs with hnil
  · exact ⟨_, rfl, by rw [hnil]; rfl⟩
  · exact ⟨_, rfl, rfl⟩

theorem Known.step (h : Known s out) (hs' : step s op = some s') :
    Known s' (out ++ asked s op) := by
  obtain ⟨hasked, hstarting, hclients⟩ | ⟨client, rblLists, timeout, rfl, -, rfl⟩ | ⟨b, stage, next,
    names, hasks⟩ :=
    step_cases hs'
  · rw [hasked, append_nil]
    exact ⟨by rw [hstarting, hclients]; exact h.starting, by rw [hclients]; exact h.out_lt⟩
  · obtain ⟨stage, hstarting, -⟩ := @startAuth_starting s client rblLists timeout
    have hlength : (startAuth s client rblLists timeout).clients.length = s.clients.length + 1 := by
      rw [startAuth_clients, length_append, length_singleton]
    refine ⟨fun b stage' heq => ?_, fun p hp => ?_⟩
    · rw [hstarting] at heq
      rw [hlength, ← (Prod.mk.inj (Option.some.inj heq)).1]
      exact Nat.lt_succ_self _
    · rw [hlength]
      exact Nat.lt_succ_of_lt (h.out_lt p (by simpa [asked] using hp))
  · have hlt := h.starting b stage hasks.starting
    refine ⟨fun b' stage' heq => ?_, fun p hp => ?_⟩
    · rw [hasks.starting'] at heq
      obtain ⟨stage'', -, hpair⟩ := Option.map_eq_some_iff.mp heq
      rw [hasks.clients, ← (Prod.mk.inj hpair).1]
      exact hlt
    · rw [hasks.clients]
      obtain hp | hp := mem_append.mp hp
      · exact h.out_lt p hp
      · rw [hasks.asked] at hp
        obtain ⟨name, -, rfl⟩ := mem_map.mp hp
        exact hlt

/-- What was looked up for a client, and what is left, are some names. -/
structure Asking (a : ℕ) (client : Client) (names : List Str) (s : State) (out : List (ℕ × Str)) :
    Prop where
  found : s.clients[a]? = some client
  names : askedFor a out ++ s.toAsk a = names

theorem client_of_getElem? (h : s.clients[a]? = some client) : s.client a = client := by
  rw [State.client, getD_eq_getElem?_getD, h, Option.getD_some]

theorem askedFor_append (out out' : List (ℕ × Str)) :
    askedFor a (out ++ out') = askedFor a out ++ askedFor a out' :=
  filterMap_append

/-- Names that are looked up for one client. -/
theorem askedFor_map (b : ℕ) (names : List Str) :
    askedFor a (names.map (b, ·)) = if b = a then names else [] := by
  rw [askedFor, filterMap_map]
  split_ifs with hb
  · simp [hb]
  · simp [hb]

theorem toAsk_of_starting {b : ℕ} (next : Option Stage) (h : s.starting = next.map (b, ·)) :
    s.toAsk a = if b = a then next.elim [] (Stage.toAsk (s.client a).ip) else [] := by
  rw [State.toAsk, h]
  cases next <;> simp

/-- **A step** looks up names that are left. -/
theorem Asking.step (h : Asking a client names s out) (hs' : step s op = some s') :
    Asking a client names s' (out ++ asked s op) := by
  obtain ⟨hasked, hstarting, hclients⟩ | ⟨client', rblLists, timeout, rfl, hnone, rfl⟩ | ⟨b, stage,
    next, names', hasks⟩ :=
    step_cases hs'
  · refine ⟨by rw [hclients]; exact h.found, ?_⟩
    rw [hasked, append_nil, State.toAsk, hstarting, State.client, hclients]
    exact h.names
  · -- Another client is added behind.
    have hlt : a < s.clients.length := (List.getElem?_eq_some_iff.mp h.found).1
    obtain ⟨stage, hstarting, -⟩ := @startAuth_starting s client' rblLists timeout
    refine ⟨by rw [startAuth_clients, getElem?_append_left hlt]; exact h.found, ?_⟩
    have htoAsk : s.toAsk a = [] := by rw [State.toAsk, hnone]
    have htoAsk' : (startAuth s client' rblLists timeout).toAsk a = [] := by
      rw [toAsk_of_starting (some stage) hstarting, if_neg hlt.ne']
    have hnames := h.names
    rw [htoAsk] at hnames
    rw [htoAsk', askedFor_append]
    exact (congrArg (· ++ []) (append_nil _)).trans hnames
  · have hclient : s'.client = s.client := by
      funext b
      rw [State.client, State.client, hasks.clients]
    refine ⟨by rw [hasks.clients]; exact h.found, ?_⟩
    have hnames := h.names
    rw [toAsk_of_starting (some stage) hasks.starting] at hnames
    rw [askedFor_append, hasks.asked, askedFor_map, toAsk_of_starting next hasks.starting', hclient,
      append_assoc]
    by_cases hb : b = a
    · subst hb
      rw [if_pos rfl, if_pos rfl, ← hasks.toAsk]
      rw [if_pos rfl] at hnames
      exact hnames
    · rw [if_neg hb, if_neg hb]
      rw [if_neg hb] at hnames
      exact hnames

/-- **The names that a run looks up for a client**: those of the zones that are asked for its
family, and none is left when `rbl_check_rbls` has come back. -/
theorem asked_run (hbefore : run step (.start dnsHelper) before = some s₁)
    (hafter : run step s₁ (.startAuth client rblLists timeout :: after) = some s) :
    Asking s₁.clients.length client ((rblLists.filter (·.asks client.ip.family)).map fun t =>
      rblString client.ip t.rblname) s
      (emitted asked step (.start dnsHelper)
        (before ++ .startAuth client rblLists timeout :: after)) := by
  obtain ⟨s₂, hs₂, hrun⟩ := Option.bind_eq_some_iff.mp hafter
  have hknown : Known s₁ ([] ++ emitted asked step (.start dnsHelper) before) :=
    emitted_invariant Known (fun _ _ _ _ h hs' => h.step hs') ⟨nofun, nofun⟩ hbefore
  have hasking : Asking s₁.clients.length client
      ((rblLists.filter (·.asks client.ip.family)).map fun t => rblString client.ip t.rblname) s₂
      (emitted asked step (.start dnsHelper) before) := by
    rw [step] at hs₂
    split_ifs at hs₂
    cases hs₂
    obtain ⟨stage, hstarting, htoAsk⟩ := @startAuth_starting s₁ client rblLists timeout
    have hfound : (startAuth s₁ client rblLists timeout).clients[s₁.clients.length]? =
        some client := by
      rw [startAuth_clients, getElem?_concat_length]
    have hbefore : askedFor s₁.clients.length (emitted asked step (.start dnsHelper) before) =
        [] := by
      refine filterMap_eq_nil_iff.mpr fun p hp => if_neg ?_
      exact (hknown.out_lt p hp).ne
    refine ⟨hfound, ?_⟩
    rw [hbefore, toAsk_of_starting (some stage) hstarting, if_pos rfl, client_of_getElem? hfound,
      ← htoAsk]
    rfl
  have hemitted : emitted asked step (.start dnsHelper) (before ++
      .startAuth client rblLists timeout :: after) = emitted asked step (.start dnsHelper) before ++
          emitted asked step s₂ after := by
    rw [emitted_append hbefore, emitted, hs₂]
    rfl
  rw [hemitted]
  exact emitted_invariant (Asking _ client _) (fun _ _ _ _ h hs' => h.step hs') hasking hrun

/-- `rbl_check_rbls` is running for a client. -/
def State.Checking (s : State) (a : ℕ) :
    Prop := ∃ stage, s.starting = some (a, stage) ∧ stage.checks = true

theorem toAsk_of_not_checking (h : ¬s.Checking a) : s.toAsk a = [] := by
  rw [State.toAsk]
  split
  · rename_i b stage hstarting
    split_ifs with hb
    · subst hb
      have hover : stage.checks = false :=
        Bool.eq_false_of_not_eq_true fun hchecks => h ⟨stage, hstarting, hchecks⟩
      cases stage <;> first | rfl | exact absurd hover Bool.noConfusion
    · rfl
  · rfl

/-- **The check of a client against the lists of banned addresses.** When `rbl_check_rbls` has come
back, exactly the names that are to be looked up for the client were looked up, and it is banned
exactly if an answer that has come for it means that, if and only if the condition is met. -/
theorem checks_iff {blocks : List Blacklist} {timeout : ℕ}
    (hbefore : run step (.start dnsHelper) before = some s₁)
    (hafter : run step s₁ (.startAuth client (blocks.map Blacklist.load) timeout :: after) = some s)
    (hdone : ¬s.Checking s₁.clients.length) :
    (askedFor s₁.clients.length (emitted asked step (.start dnsHelper)
        (before ++ .startAuth client (blocks.map Blacklist.load) timeout :: after)) =
        due client.ip blocks ∧
      (s.Banned s₁.clients.length ↔ ∃ r ∈ emitted heard step (.start dnsHelper)
        (before ++ .startAuth client (blocks.map Blacklist.load) timeout :: after),
          r.client = s₁.clients.length ∧ r.Bans)) ↔ DueIsAsked client.ip blocks := by
  have hrun : run step (.start dnsHelper) (before ++ .startAuth client (blocks.map Blacklist.load)
      timeout :: after) = some s := by
    rw [Run.run_append, hbefore, Option.bind_some, hafter]
  have hasking := (asked_run hbefore hafter).names
  rw [toAsk_of_not_checking hdone, append_nil] at hasking
  rw [hasking, asked_eq_due_iff]
  exact and_iff_left (banned_run hrun _)

end Runs

/-- A block that is for both families. -/
def bothFamilies : Blacklist :=
  ⟨"z".toList, [.mask "2".toList, .answer "no".toList, .aftype "both".toList]⟩

/-- A client with an IPv4 address, and one with an IPv6 address. -/
def clientV4 : Client := ⟨"192.0.2.1".toList, ⟨.inet, [192, 0, 2, 1]⟩⟩
@[inherit_doc clientV4]
def clientV6 : Client :=
  ⟨"2001:db8::1".toList, ⟨.inet6, [0x20, 0x01, 0x0d, 0xb8, 0, 0, 0, 0, 0, 0, 0, 0, 0, 0, 0, 1]⟩⟩

/-- One name is looked up, and an answer comes. -/
def answered : List Op :=
  [.startAuthNext .dead, .startAuthNext .dead, .startAuthNext .dead, .startAuthNext .dead,
    .resolver (.reply "R 2 1 4 127.0.0.2".toList)]

theorem checks_iff_answered :
    ∃ s, run step (.start true) (.startAuth clientV4 ([bothFamilies].map Blacklist.load) 30 ::
      answered) = some s ∧ ((askedFor 0 (emitted asked step (.start true)
          ([] ++ .startAuth clientV4 ([bothFamilies].map Blacklist.load) 30 :: answered)) =
          due clientV4.ip [bothFamilies] ∧
        (s.Banned 0 ↔ ∃ r ∈ emitted heard step (.start true)
          ([] ++ .startAuth clientV4 ([bothFamilies].map Blacklist.load) 30 :: answered),
          r.client = 0 ∧ r.Bans)) ↔
        DueIsAsked clientV4.ip [bothFamilies]) := by
  refine ⟨_, rfl, @checks_iff true [] answered _ _ clientV4 [bothFamilies] 30 rfl rfl ?_⟩
  rintro ⟨stage, ⟨⟩, ⟨⟩⟩

/-- A client with an IPv6 address is not looked up in a zone that is for both families. -/
theorem v6_not_asked :
    ¬∀ (dnsHelper : Bool) (before after : List Op) (s₁ s : State) (client : Client)
      (blocks : List Blacklist) (timeout : ℕ), run step (.start dnsHelper) before = some s₁ →
    run step s₁ (.startAuth client (blocks.map Blacklist.load) timeout :: after) = some s →
    ¬s.Checking s₁.clients.length →
      askedFor s₁.clients.length (emitted asked step (.start dnsHelper)
          (before ++ .startAuth client (blocks.map Blacklist.load) timeout :: after)) =
          due client.ip blocks ∧
        (s.Banned s₁.clients.length ↔ ∃ r ∈ emitted heard step (.start dnsHelper)
          (before ++ .startAuth client (blocks.map Blacklist.load) timeout :: after),
            r.client = s₁.clients.length ∧ r.Bans) := by
  intro h
  have hasked := (h true [] [.startAuthNext .dead] _ _ clientV6 [bothFamilies] 30 rfl rfl ?_).1
  · exact absurd hasked (by decide +kernel)
  · rintro ⟨stage, ⟨⟩, ⟨⟩⟩

end Ratbox.Auth
