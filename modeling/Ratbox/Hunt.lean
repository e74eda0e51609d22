import Ratbox.Banlist.Lists
import Ratbox.Services.Basic

/-!
# Commands for other servers

A command that names a server, or a client on one, is passed on to it. The name is looked up in the
tables of clients and servers, and as a server under a mask, and what is found behind the link that
the command came from is not taken. When nothing is found and the name has wildcards, the first
client on the list of all clients is taken that it matches.

Source: `src/s_serv.c`, lines 117–209, `src/client.c`, lines 1838–1963, `src/send.c`, lines 49–68
and 206–265, and `include/client.h`, lines 34–102.

## Main definitions

* `Hunt.Client`, `Hunt.State`: clients and servers, and the tables and the list that have them.
* `Hunt.State.findServer`: `find_server`.
* `Hunt.State.huntServer`: `hunt_server`.
* `Hunt.State.Onward`: the condition under which a command is not sent back.

## Main results

* `Hunt.State.never_back_iff`: when a command is not sent back over its link.
-/

namespace Ratbox.Hunt

open Text Match Hash Option
open Banlist (collapse)
open Services (HashType)

/-! ### Clients and servers -/

/-- `STAT_CONNECTING` to `STAT_CLIENT`. -/
inductive Status
  | connecting
  | handshake
  | me
  | unknown
  | reject
  | server
  | client
  deriving DecidableEq

/-- What is read of `struct Client`. The field `from` has the address of the connection over which
the client is reached, which is its own one if it has one. -/
structure Client where
  name : Str
  id : Str
  status : Status
  myConnect : Bool
  fake : Bool
  ioError : Bool
  link : ℕ
  deriving DecidableEq

namespace Client

variable (c : Client)

/-- `IsRegistered`. -/
def registered : Bool := c.status == .server || c.status == .client

/-- `MyClient`. -/
def myClient : Bool := c.myConnect && c.status == .client

/-- `has_id`. -/
def hasId : Bool := !c.id.isEmpty

/-- `use_id`. -/
def useId : Str := if c.hasId then c.id else c.name

end Client

/-- `me`, the clients and servers by their addresses, the tables, and `global_client_list`. -/
structure State where
  me : Client
  client : ℕ → Client
  table : HashType → Table
  globalClientList : List ℕ

/-- A command that is sent: over which connection, the source in front, and the parameters. -/
structure Sent where
  link : ℕ
  source : Str
  parv : List Str
  deriving DecidableEq

/-- `HUNTED_NOSUCH`, `HUNTED_ISME` and `HUNTED_PASS`. -/
inductive Hunted
  | noSuch
  | isMe
  | pass
  deriving DecidableEq

/-- What `hunt_server` returns, the name in an `ERR_NOSUCHSERVER` for the source, and the command
that is sent. -/
structure Outcome where
  result : Hunted
  reply : Option Str
  sent : Option Sent
  deriving DecidableEq

namespace State

variable (s : State)

/-! ### Finding clients and servers -/

/-- `hash_find_data`. -/
def hashFindData (type : HashType) (name : Str) : Option ℕ :=
  (hashFind type.hf (s.table type) name).map (·.data)

/-- `find_named_client`. -/
def findNamedClient (name : Str) : Option ℕ := s.hashFindData .client name

/-- `find_client`. -/
def findClient (name : Str) : Option ℕ :=
  if Nick.digitName name then s.hashFindData .id name else s.findNamedClient name

/-- The client with a name, if it is a server. -/
def findServerName (name : Str) : Option ℕ :=
  (s.findNamedClient name).filter fun p => (s.client p).status == .server || (s.client p).status ==
    .me

/-- The loop of `hash_find_masked_server`: the masks of the domains of a name, the longest one
first. -/
def maskedNames : Str → List Str
  | [] => []
  | c :: name => if c = '.' then ('*' :: c :: name) :: maskedNames name else maskedNames name

/-- `hash_find_masked_server`. The masks begin with `*`, so that `find_server` only looks for their
names. -/
def findMaskedServer (name : Str) : Option ℕ :=
  if name.head? = some '*' ∨ name.head? = some '.' then none
  else (maskedNames (strlcpy name (hostLen + 1))).findSome? s.findServerName

/-- `find_server`. -/
def findServer (source : ℕ) (name : Str) : Option ℕ :=
  if name = [] then none
  else if !(s.client source).myClient && Nick.digitName name && name.length == 3 then
    s.hashFindData .id name
  else (s.findServerName name).or (s.findMaskedServer name)

/-! ### Passing commands on -/

/-- What is found in the direction of the source is not taken: `target_p->from == source_p->from`
and not `MyConnect(target_p)`. -/
def otherWay (source target : ℕ) : Bool :=
  !((s.client target).link == (s.client source).link && !(s.client target).myConnect)

/-- The lookups, for a name. -/
def lookup (source : ℕ) (tgt : Str) : Option ℕ :=
  ((if (s.client source).myClient then s.findNamedClient tgt else s.findClient tgt).filter
    (s.otherWay source)).or ((s.findServer source tgt).filter (s.otherWay source))

/-- The loop over `global_client_list`. -/
def scan (tgt : Str) : Option ℕ :=
  s.globalClientList.find? fun p => (s.client p).registered && matchMask tgt (s.client p).name

/-- `get_id`. -/
def getId (source target : ℕ) : Str :=
  let link := s.client (s.client target).link
  if link.status == .server && link.hasId then (s.client source).useId else (s.client source).name

/-- `sendto_one` and `send_linebuf`: whether a line for a client goes to the connection over which
it is reached. The limit of its send queue, at which the connection is closed, is left out. -/
def reaches (target : ℕ) : Bool :=
  let link := s.client (s.client target).link
  !(s.client target).fake && !link.ioError && !link.fake && link.status != .me && link.myConnect

/-- The text names this server. -/
def namesMe (text : Str) :
    Bool := matchMask s.me.name text || matchMask text s.me.name || text == s.me.id

/-- The end of `hunt_server`, with what was found. -/
def pass (source target server : ℕ) (parv : List Str) (text : Str) : Outcome :=
  let c := s.client target
  if !c.registered then ⟨.noSuch, some text, none⟩
  else if c.status == .me || c.myClient then ⟨.isMe, none, none⟩
  else
    ⟨.pass, none,
      if s.reaches target then some ⟨c.link, s.getId source target,
        parv.set server (s.getId target target)⟩
      else none⟩

/-- `hunt_server`. The parameters are those up to `parc`. -/
def huntServer (source server : ℕ) (parv : List Str) : Outcome :=
  let text := (parv[server]?).getD []
  if text = [] || s.namesMe text then ⟨.isMe, none, none⟩
  else
    match s.lookup source text with
    | some target => s.pass source target server parv text
    | none =>
      let tgt := collapse text false
      if !tgt.any isWild then
        ⟨.noSuch, if (s.client source).myClient || !Nick.digitName text then some text else none,
          none⟩
      else
        match s.scan tgt with
        | some target => s.pass source target server parv text
        | none => ⟨.noSuch, if Nick.digitName text then none else some text, none⟩

/-! ### The direction of a command -/

/-- A client or server is not reached over the link of the source, or is a client of this server, or
nothing is sent to it. -/
def Ahead (source target : ℕ) : Prop :=
  (s.client target).link ≠ (s.client source).link ∨ (s.client target).registered = false ∨
    (s.client target).myClient = true ∨ s.reaches target = false

/-- A client or server is registered, and the mask matches its name. -/
def Matched (tgt : Str) (p : ℕ) :
    Prop := (s.client p).registered = true ∧ matchMask tgt (s.client p).name = true

/-- The text is for this server, or is not the name of the linked server itself that the source is
behind; and where it has wildcards and is no name of a client or server in another direction, the
first client of `global_client_list` that it matches is not behind the link of the source. -/
def Onward (source : ℕ) (text : Str) : Prop :=
  text ≠ [] → s.namesMe text = false →
    (∀ target, s.lookup source text = some target → (s.client target).myConnect = true →
      s.Ahead source target) ∧
    (s.lookup source text = none → (collapse text false).any isWild = true →
      ∀ first target others, s.globalClientList = first ++ target :: others →
        s.Matched (collapse text false) target → (∀ p ∈ first, ¬s.Matched (collapse text false) p) →
          s.Ahead source target)

variable {s} {source server target : ℕ} {parv : List Str} {text : Str}

theorem pass_back_iff :
    (∀ m ∈ (s.pass source target server parv text).sent, m.link ≠ (s.client source).link) ↔
      s.Ahead source target := by
  rw [Ahead, pass]
  by_cases hreg : (s.client target).registered = true
  · rw [if_neg (by simp [hreg])]
    by_cases hmine : (s.client target).status = .me ∨ (s.client target).myClient = true
    · have hclient : (s.client target).myClient = true := by
        refine hmine.resolve_left fun hme => ?_
        rw [Client.registered, hme] at hreg
        cases hreg
      simp [hclient]
    · obtain ⟨hme, hclient⟩ := not_or.mp hmine
      cases hreaches : s.reaches target <;> simp [hme, hclient, hreg]
  · simp [hreg]

/-- The loop over the list ends at the first client that is matched. -/
theorem scan_eq_some_iff {tgt : Str} : s.scan tgt = some target ↔
    s.Matched tgt target ∧ ∃ first others, s.globalClientList = first ++ target :: others ∧
      ∀ p ∈ first, ¬s.Matched tgt p := by
  rw [scan, List.find?_eq_some_iff_append]
  simp only [Matched, Bool.and_eq_true, Bool.not_eq_true', Bool.and_eq_false_iff, not_and_or,
    Bool.not_eq_true]

/-- What the lookups find without a connection of its own is in another direction. -/
theorem link_of_lookup (h : s.lookup source text = some target)
    (hconnect : (s.client target).myConnect = false) :
    (s.client target).link ≠ (s.client source).link := by
  have hway : s.otherWay source target = true := by
    rcases or_eq_some_iff.mp h with h | ⟨-, h⟩
    · exact (filter_eq_some_iff.mp h).2
    · exact (filter_eq_some_iff.mp h).2
  simpa [otherWay, hconnect] using hway

/-- **A command is not sent back over the link it came from** if and only if the text does not name
the linked server itself, and the first client that it matches, where it is no name that leads
elsewhere, is not behind that link. -/
theorem never_back_iff (s : State) (source server : ℕ) (parv : List Str) :
    (∀ m ∈ (s.huntServer source server parv).sent, m.link ≠ (s.client source).link) ↔
      s.Onward source ((parv[server]?).getD []) := by
  rw [huntServer, Onward]
  generalize (parv[server]?).getD [] = text
  by_cases hme : text = [] ∨ s.namesMe text = true
  · rw [if_pos (by simpa using hme)]
    simp only [mem_def, reduceCtorEq, false_imp_iff, implies_true, true_iff]
    intro hne hother
    exact absurd hme (by simp [hne, hother])
  obtain ⟨hne, hother⟩ := not_or.mp hme
  rw [if_neg (by simpa using hme)]
  simp only [hne, hother, ne_eq, not_false_eq_true, true_imp_iff]
  cases hlookup : s.lookup source text with
  | some target =>
    simp only [reduceCtorEq, false_imp_iff, and_true, some.injEq, forall_eq']
    rw [pass_back_iff]
    refine ⟨fun h _ => h, fun h => ?_⟩
    cases hconnect : (s.client target).myConnect with
    | true => exact h hconnect
    | false => exact .inl (link_of_lookup hlookup hconnect)
  | none =>
    simp only [reduceCtorEq, false_imp_iff, implies_true, true_and, true_imp_iff]
    cases hwild : (collapse text false).any isWild with
    | false => simp
    | true =>
      simp only [Bool.not_true, Bool.false_eq_true, if_false, true_imp_iff]
      cases hscan : s.scan (collapse text false) with
      | some target =>
        obtain ⟨hmatched, first, others, hlist, hfirst⟩ := scan_eq_some_iff.mp hscan
        rw [pass_back_iff]
        refine ⟨fun h first' target' others' hlist' hmatched' hfirst' => ?_,
          fun h => h first target others hlist hmatched hfirst⟩
        have hscan' : s.scan (collapse text false) = some target' :=
          scan_eq_some_iff.mpr ⟨hmatched', first', others', hlist', hfirst'⟩
        rwa [some.inj (hscan.symm.trans hscan')] at h
      | none =>
        simp only [mem_def, reduceCtorEq, false_imp_iff, implies_true, true_iff]
        intro first target others hlist hmatched hfirst
        have hscan' := scan_eq_some_iff.mpr ⟨hmatched, first, others, hlist, hfirst⟩
        cases hscan.symm.trans hscan'

/-- This server `a.x` with a linked server `b.x`, which has a user `u`. -/
def twoServers : State where
  me := ⟨"a.x".toList, "1AA".toList, .me, false, false, false, 0⟩
  client
    | 1 => ⟨"b.x".toList, "2BB".toList, .server, true, false, false, 1⟩
    | 2 => ⟨"u".toList, "2BBAAAAAA".toList, .client, false, false, false, 1⟩
    | _ => ⟨"a.x".toList, "1AA".toList, .me, false, false, false, 0⟩
  table
    | .client => [("a.x", 0), ("b.x", 1), ("u", 2)].foldl
        (fun t n => hashAdd HashType.client.hf t n.1.toList n.2) Table.empty
    | .id => [("1AA", 0), ("2BB", 1), ("2BBAAAAAA", 2)].foldl
        (fun t n => hashAdd HashType.id.hf t n.1.toList n.2) Table.empty
    | .hostname => Table.empty
  globalClientList := [0, 1, 2]

/-- A mask that matches the linked server, or its name, is sent back to it. -/
theorem huntServer_back :
    (twoServers.client 2).myConnect = false ∧
      ¬∀ m ∈ (twoServers.huntServer 2 1 ["u".toList, "b*".toList]).sent,
        m.link ≠ (twoServers.client 2).link := by
  decide +kernel

end State

end Ratbox.Hunt
