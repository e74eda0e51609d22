import Ratbox.Channel.Membership
import Ratbox.Lib.SavedNext
import Ratbox.Services.Basic

/-!
# Servers that split

A server that exits takes all clients and servers behind it along. The servers that stay linked are
told: those that can handle it get one SQUIT, the others the QUITs and SQUITs of all that goes.

Source: `src/client.c`, lines 630–647, 894–1131, 1171–1453 and 1789–1836, `src/send.c`, lines
48–112, 160–240 and 425–487, `include/client.h`, lines 96–101, `modules/core/m_server.c`, lines
405–425, 540–558 and 1233–1266, `modules/core/m_nick.c`, lines 653–791 and 1079–1145,
`modules/core/m_kill.c`, lines 151–160, and `src/s_user.c`, lines 495–517.

## Main definitions

* `Netsplit.State`: the clients and servers, the tables and lists they are on, their channels, and
  what was sent.
* `Netsplit.recurseSendQuits`, `Netsplit.recurseRemoveClients`: the two walks over what is behind a
  server.
* `Netsplit.exitClient`: a client or a server exits.
* `Netsplit.step`: the steps.

## Implementation notes

A walk with `RB_DLINK_FOREACH_SAFE` is `SavedNext.walk`, which fails where the saved node is no
longer on the list. The recursions are given a number of levels, and fail where it is used up; the
steps give them as many as there are clients. A link that was closed (`close_connection`) keeps its
field `from`, which no other link is equal to. The delay of nicks, the history, the monitor lists,
the counts, the times, and what is sent to users, with the QUITs for those that share a channel with
one that goes, are left out, and so are services and the changes of hosts in `contrib/m_chghost.c`.
-/

namespace Ratbox.Netsplit

open Text Hash Function
open Channel (Kind World)
open Services (HashType me)

/-! ### The structures -/

/-- What is sent to a server. -/
inductive Line
  | squit (source : Option Str) (server comment : Str)
  | quit (source comment : Str)
  | nick (source nick : Str)
  | error (comment : Str)
  deriving DecidableEq

/-- The clients with their names, ids, hosts, links and channels; the server of each, whether it is
allocated, and its flags; what its link can do; the tables; `global_client_list`, `serv_list`,
`global_serv_list` and `dead_list`; the lists of users and servers of each server; whether another
line gets through to a server after some; and the lines that were sent. -/
structure State where
  world : World
  servptr : ℕ → Option ℕ
  allocated : ℕ → Bool
  killed : ℕ → Bool
  closing : ℕ → Bool
  dead : ℕ → Bool
  ioError : ℕ → Bool
  capQS : ℕ → Bool
  capTS6 : ℕ → Bool
  table : HashType → Table
  globalClientList : List ℕ
  servList : List ℕ
  globalServList : List ℕ
  deadList : List ℕ
  users : ℕ → List ℕ
  servers : ℕ → List ℕ
  room : ℕ → List Line → Bool
  sent : ℕ → List Line

namespace State

/-- The name of a client. -/
def name (s : State) (p : ℕ) : Str := (s.world.client p).name

/-- The id of a client, which may be empty. -/
def id (s : State) (p : ℕ) : Str := (s.world.client p).id

/-- The host of a client. -/
def host (s : State) (p : ℕ) : Str := (s.world.client p).host

/-- The link that a client is behind. -/
def fromLink (s : State) (p : ℕ) : ℕ := (s.world.client p).fromLink

/-- `MyConnect`: the client is behind its own link. -/
def myConnect (s : State) (p : ℕ) : Bool := s.fromLink p = p

/-- `IsClient`. -/
def isClient (s : State) (p : ℕ) : Bool := (s.world.client p).kind.isClient

/-- `IsServer`, which `me` is not. -/
def isServer (s : State) (p : ℕ) : Bool := (s.world.client p).kind = .server ∧ p ≠ me

/-- `hash_add`. -/
@[simps -fullyApplied]
def hashAdd (s : State) (type : HashType) (hashindex : Str) (p : ℕ) : State :=
  { s with table := update s.table type (Hash.hashAdd type.hf (s.table type) hashindex p) }

/-- `hash_del`. -/
@[simps -fullyApplied]
def hashDel (s : State) (type : HashType) (hashindex : Str) (p : ℕ) : State :=
  { s with table := update s.table type (Hash.hashDel type.hf (s.table type) hashindex p) }

/-- `rb_dlinkDelete` from the users of the server of a client, if it has one. -/
def deleteUser (s : State) (p : ℕ) : State :=
  match s.servptr p with
  | some k => { s with users := update s.users k ((s.users k).erase p) }
  | none => s

/-- `rb_dlinkDelete` from the servers of the server of a server, if it has one. -/
def deleteServer (s : State) (p : ℕ) : State :=
  match s.servptr p with
  | some k => { s with servers := update s.servers k ((s.servers k).erase p) }
  | none => s

/-- `SetDead`, and `rb_dlinkAddAlloc` to `dead_list`. -/
@[simps -fullyApplied]
def setDead (s : State) (p : ℕ) : State :=
  { s with dead := update s.dead p true, deadList := p :: s.deadList }

end State

/-! ### Sending -/

/-- `use_id`. -/
def useId (s : State) (p : ℕ) : Str := if s.id p ≠ [] then s.id p else s.name p

/-- `get_id`. -/
def getId (s : State) (source target : ℕ) : Str :=
  if s.isServer (s.fromLink target) ∧ s.id (s.fromLink target) ≠ [] then useId s source
    else s.name source

/-- `dead_link`. -/
def deadLink (s : State) (p : ℕ) : State :=
  if s.dead p || s.closing p || p = me then s
  else
    { s with
      ioError := update s.ioError p true
      dead := update s.dead p true
      closing := update s.closing p true }

/-- `send_linebuf` to a link. A link without room in its queue, or whose queue is not written, is
dead. -/
def sendLinebuf (s : State) (p : ℕ) (line : Line) : State :=
  if p = me || s.ioError p then s
  else if s.room p (s.sent p) then { s with sent := update s.sent p (s.sent p ++ [line]) }
  else deadLink s p

/-- `sendto_one`. -/
def sendtoOne (s : State) (dest : ℕ) (line : Line) : State := sendLinebuf s (s.fromLink dest) line

/-- `sendto_server`, for the servers with or without `CAP_TS6`. -/
def sendtoServer (s : State) (one : Option ℕ) (ts6 : Bool) (line : Line) : State :=
  s.servList.foldl (fun s dest =>
    if one.any (fun p => dest = s.fromLink p) || s.capTS6 dest ≠ ts6 then s else sendLinebuf s dest
      line) s

/-- A line of a client is sent to the servers, with its id to those that have `CAP_TS6`. -/
def sendFrom (s : State) (client_p : Option ℕ) (p : ℕ) (line : Str → Line) : State :=
  let s := sendtoServer s client_p true (line (useId s p))
  sendtoServer s client_p false (line (s.name p))

/-- `recurse_send_quits`, with the levels that are left. -/
def recurseSendQuits (dest : ℕ) (comment1 comment : Str) : ℕ → State → ℕ → Option State
  | 0, _, _ => none
  | n + 1, s, source_p =>
    if s.capQS dest then some (sendtoOne s dest (.squit none (getId s source_p dest) comment))
    else do
      let s := (s.users source_p).foldl (fun s p => sendtoOne s dest (.quit (s.name p) comment1)) s
      let s ← (s.servers source_p).foldlM (fun s p => recurseSendQuits dest comment1 comment n s p)
        s
      some (sendtoOne s dest (.squit none (s.name source_p) comment))

/-! ### Exits -/

/-- `remove_client_from_list`. The node of a client that is alone on the list has no links. -/
def removeClientFromList (s : State) (p : ℕ) : State :=
  if p ∉ s.globalClientList ∨ s.globalClientList = [p] then s
  else { s with globalClientList := s.globalClientList.erase p }

/-- The client is taken out of `HASH_ID`, if it has an id. -/
def delId (s : State) (p : ℕ) : State := if s.id p ≠ [] then s.hashDel .id (s.id p) p else s

/-- `exit_generic_client`. -/
def exitGenericClient (s : State) (p : ℕ) : State :=
  let s := { s with world := Channel.removeUserFromChannels s.world p }
  let s := delId s p
  let s := s.hashDel .hostname (s.host p) p
  let s := s.hashDel .client (s.name p) p
  removeClientFromList s p

/-- The QUIT of a user is sent to the servers, if the user was not killed. -/
def sendQuit (s : State) (client_p : Option ℕ) (p : ℕ) (comment : Str) : State :=
  if s.killed p then s else sendFrom s client_p p fun source => .quit source comment

/-- `exit_remote_client`. -/
def exitRemoteClient (s : State) (client_p : Option ℕ) (p : ℕ) (comment : Str) : State :=
  let s := exitGenericClient s p
  let s := s.deleteUser p
  let s := sendQuit s client_p p comment
  s.setDead p

/-- `exit_local_client`. -/
def exitLocalClient (s : State) (client_p : Option ℕ) (p : ℕ) (comment : Str) : State :=
  let s := exitGenericClient s p
  let s := { s with users := update s.users me ((s.users me).erase p) }
  let s := sendQuit s client_p p comment
  s.setDead p

/-- The end of `qs_server` and of the exits of servers. -/
def forgetServer (s : State) (p : ℕ) : State :=
  let s := delId s p
  let s := s.hashDel .client (s.name p) p
  let s := removeClientFromList s p
  s.setDead p

/-- `qs_server`. -/
def qsServer (s : State) (p : ℕ) : State :=
  let s := s.deleteServer p
  let s := { s with globalServList := s.globalServList.erase p }
  forgetServer s p

/-- The body of the loops of `recurse_remove_clients` over the users. -/
def removeUser (comment : Str) (s : State) (p : ℕ) : State :=
  let s := { s with killed := update s.killed p true }
  if !s.dead p && !s.closing p then exitRemoteClient s none p comment else s

/-- `recurse_remove_clients`, with the levels that are left. -/
def recurseRemoveClients (comment : Str) : ℕ → State → ℕ → Option State
  | 0, _, _ => none
  | n + 1, s, source_p =>
    if source_p = me then some s
    else do
      let (s, _) ← SavedNext.walk (fun s => s.users source_p)
        (fun s p => some (removeUser comment s p)) (s.users source_p).length s
          (s.users source_p).head?
      let (s, _) ← SavedNext.walk (fun s => s.servers source_p)
        (fun s p => (recurseRemoveClients comment n s p).map fun s => qsServer s p)
        (s.servers source_p).length s (s.servers source_p).head?
      some s

/-- The body of the loop of `remove_dependents`. -/
def sendDependents (n : ℕ) (client_p : Option ℕ) (source_p : ℕ) (comment comment1 : Str) (s : State)
    (dest : ℕ) :
    Option State :=
  if dest = me || dest = s.fromLink source_p || (client_p = some dest && s.capQS dest) then some s
  else recurseSendQuits dest comment1 comment n s source_p

/-- `remove_dependents`. -/
def removeDependents (n : ℕ) (s : State) (client_p : Option ℕ) (source_p : ℕ)
    (comment comment1 : Str) : Option State := do
  let s ← s.servList.foldlM (sendDependents n client_p source_p comment comment1) s
  recurseRemoveClients comment1 n s source_p

/-- `comment1`: the server and its uplink. -/
def splitComment (s : State) (p : ℕ) : Str :=
  (match s.servptr p with
    | some k => s.name k
    | none => "<Unknown>".toList) ++ ' ' :: s.name p

/-- `newcomment`, which is cut to its array. -/
def newcomment (name comment : Str) :
    Str := ("by ".toList ++ name ++ ": ".toList ++ comment).take 511

/-- The part of `exit_remote_server` that sends the SQUIT to the link that the server is behind. -/
def tellUplink (s : State) (client_p : Option ℕ) (p source : ℕ) (comment : Str) : State :=
  let target_p := s.fromLink p
  if s.isServer target_p ∧ client_p ≠ some target_p ∧ s.killed p = false then
    sendtoOne s target_p (.squit (some (getId s source target_p)) (getId s p target_p) comment)
  else s

/-- `exit_remote_server`. -/
def exitRemoteServer (n : ℕ) (s : State) (client_p : Option ℕ) (p source : ℕ) (comment : Str) :
    Option State := do
  let reason := if s.isClient source then newcomment (s.name source) comment else comment
  let s ← removeDependents n s client_p p reason (splitComment s p)
  let s := s.deleteServer p
  let s := { s with globalServList := s.globalServList.erase p }
  let s := tellUplink s client_p p source comment
  some (forgetServer s p)

/-- The comment with which `exit_local_server` tells the other servers. -/
def localComment (s : State) (p source : ℕ) (comment : Str) : Str :=
  let newcomment := newcomment (if source = p then s.name me else s.name source) comment
  if s.isClient source then newcomment else comment

/-- The part of `exit_local_server` that sends an ERROR to the server. -/
def sendClosing (s : State) (client_p : Option ℕ) (p : ℕ) (comment : Str) : State :=
  if client_p ≠ none ∧ client_p ≠ some p ∧ s.ioError p = false then
    sendtoOne s p (.error ("Closing Link: 127.0.0.1 ".toList ++ s.name p ++ " (".toList ++
      comment ++ ")".toList))
  else s

/-- `exit_local_server`. -/
def exitLocalServer (n : ℕ) (s : State) (client_p : Option ℕ) (p source : ℕ) (comment : Str) :
    Option State := do
  let s := { s with servList := s.servList.erase p, globalServList := s.globalServList.erase p }
  let s := sendClosing s client_p p comment
  let s := s.deleteServer p
  let s ← removeDependents n s client_p p (localComment s p source comment) (splitComment s p)
  some (forgetServer s p)

/-- `exit_client`, of a client or server that is registered. -/
def exitClient (n : ℕ) (s : State) (client_p : Option ℕ) (p source : ℕ) (comment : Str) :
    Option State :=
  if s.closing p then some s
  else
    let s := { s with closing := update s.closing p true }
    if s.myConnect p then
      if s.isClient p then some (exitLocalClient s client_p p comment)
      else if s.isServer p then exitLocalServer n s client_p p source comment
      else some s
    else if s.isClient p then some (exitRemoteClient s client_p p comment)
    else if s.isServer p then exitRemoteServer n s client_p p source comment
    else some s

/-! ### Steps -/

/-- `make_client`, and the fields that are set when the client is registered. -/
@[simps -fullyApplied]
def State.malloc (s : State) (p : ℕ) (c : Channel.Client) (server : ℕ) : State :=
  { s with
    world := { s.world with client := update s.world.client p c }
    servptr := update s.servptr p (some server)
    allocated := update s.allocated p true
    killed := update s.killed p false
    closing := update s.closing p false
    dead := update s.dead p false
    ioError := update s.ioError p false
    sent := update s.sent p []
    globalClientList := s.globalClientList ++ [p] }

/-- `make_server`. -/
@[simps -fullyApplied]
def State.makeServer (s : State) (p : ℕ) : State :=
  { s with users := update s.users p [], servers := update s.servers p [] }

/-- `server_estab`, for a connection with the capabilities `CAP_QS` and `CAP_TS6` or without. -/
def serverEstab (s : State) (p : ℕ) (name id : Str) (qs ts6 : Bool) : Option State :=
  if s.allocated p then none
  else
    let s := s.malloc p ⟨.server, name, id, [], [], p, .empty⟩ me
    let s := { s with capQS := update s.capQS p qs, capTS6 := update s.capTS6 p ts6 }
    let s := { s with servers := update s.servers me (p :: s.servers me) }
    let s := { s with servList := p :: s.servList }
    let s := { s with globalServList := s.globalServList ++ [p] }
    let s := if id ≠ [] then s.hashAdd .id id p else s
    let s := s.hashAdd .client name p
    some (s.makeServer p)

/-- `ms_server` and `ms_sid`: the server `source` introduces another one, which has an id in the
second. -/
def msSid (s : State) (p source : ℕ) (name id : Str) : Option State :=
  if s.allocated p ∨ source ∉ s.globalServList ∨ source = me then none
  else
    let s := s.malloc p ⟨.server, name, id, [], [], s.fromLink source, .empty⟩ source
    let s := s.makeServer p
    let s := { s with globalServList := s.globalServList ++ [p] }
    let s := s.hashAdd .client name p
    let s := if id ≠ [] then s.hashAdd .id id p else s
    some { s with servers := update s.servers source (p :: s.servers source) }

/-- `register_client`, of a user on the server `source`. -/
def registerClient (s : State) (p source : ℕ) (nick host uid : Str) : Option State :=
  if s.allocated p ∨ source ∉ s.globalServList ∨ source = me then none
  else
    let s := s.malloc p ⟨.remoteUser, nick, uid, [], host, s.fromLink source, .empty⟩ source
    let s := if uid ≠ [] then s.hashAdd .id uid p else s
    let s := { s with users := update s.users source (p :: s.users source) }
    let s := s.hashAdd .client nick p
    some (s.hashAdd .hostname host p)

/-- A connection that becomes a user: `register_local_user`. -/
def registerLocalUser (s : State) (p : ℕ) (nick host uid : Str) : Option State :=
  if s.allocated p then none
  else
    let s := s.malloc p ⟨.localUser, nick, uid, [], host, p, .empty⟩ me
    let s := s.hashAdd .client nick p
    let s := s.hashAdd .hostname host p
    let s := if uid ≠ [] then s.hashAdd .id uid p else s
    some { s with users := update s.users me (p :: s.users me) }

/-- The name of a client is written. -/
@[simps -fullyApplied]
def State.setName (s : State) (p : ℕ) (name : Str) : State :=
  { s with world := { s.world with client := update s.world.client p { s.world.client p with
    name := name } } }

/-- A client is put into `HASH_CLIENT` under its new name. -/
def renameClient (s : State) (p : ℕ) (nick : Str) : State :=
  let s := s.hashDel .client (s.name p) p
  let s := s.setName p nick
  s.hashAdd .client nick p

/-- `change_local_nick` and `change_remote_nick`. -/
def changeNick (s : State) (client_p : Option ℕ) (p : ℕ) (nick : Str) (dosend : Bool) : State :=
  let s := if dosend then sendFrom s client_p p fun source => .nick source nick else s
  renameClient s p nick

/-- `error_exit_client`. -/
def errorExitClient (n : ℕ) (s : State) (p : ℕ) (errmsg : Str) : Option State :=
  exitClient n { s with ioError := update s.ioError p true } (some p) p me errmsg

/-- The queue of a client is written, with an error: the end of `send_queued`. -/
def sendQueued (s : State) (p : ℕ) : State := if s.ioError p then s else deadLink s p

/-- `exit_aborted_clients`, for one client. -/
def exitAbortedClient (s : State) (p : ℕ) (notice : Str) : Option State :=
  if p ∈ s.globalClientList ∧ p ≠ me ∧ s.ioError p = true ∧ s.closing p = true then
    exitClient s.globalClientList.length { s with closing := update s.closing p false }
      (some p) p me notice
  else none

/-- `free_exited_clients`. -/
def freeExitedClients (s : State) : State :=
  { s with allocated := fun p => s.allocated p && !decide (p ∈ s.deadList), deadList := [] }

/-- What happens. -/
inductive Op
  | link (p : ℕ) (name id : Str) (qs ts6 : Bool)
  | introduce (p source : ℕ) (name id : Str)
  | remote (p source : ℕ) (nick host uid : Str)
  | register (p : ℕ) (nick host uid : Str)
  | channel (op : Channel.Op)
  | nick (client_p : Option ℕ) (p : ℕ) (nick : Str) (dosend : Bool)
  | exit (client_p : Option ℕ) (p source : ℕ) (comment : Str)
  | kill (client_p : Option ℕ) (p source : ℕ) (comment : Str)
  | readError (p : ℕ) (errmsg : Str)
  | writeError (p : ℕ)
  | abort (p : ℕ) (notice : Str)
  | free
  deriving DecidableEq

/-- A step. The clients that it is about are on `global_client_list`. The flag `FLAGS_KILLED` is set
for users. -/
def step (s : State) : Op → Option State
  | .link p name id qs ts6 => serverEstab s p name id qs ts6
  | .introduce p source name id => msSid s p source name id
  | .remote p source nick host uid => registerClient s p source nick host uid
  | .register p nick host uid => registerLocalUser s p nick host uid
  | .channel op =>
    if op.client ∈ s.globalClientList then (Channel.step s.world op).map fun world =>
      { s with world := world } else none
  | .nick client_p p nick dosend =>
    if p ∈ s.globalClientList ∧ s.isClient p then some (changeNick s client_p p nick dosend)
      else none
  | .exit client_p p source comment =>
    if p ∈ s.globalClientList ∧ p ≠ me then exitClient s.globalClientList.length s client_p p source
      comment else none
  | .kill client_p p source comment =>
    if p ∈ s.globalClientList ∧ s.isClient p then
      exitClient s.globalClientList.length { s with killed := update s.killed p true } client_p p
        source comment
    else none
  | .readError p errmsg =>
    if p ∈ s.globalClientList ∧ p ≠ me ∧ s.myConnect p then errorExitClient
      s.globalClientList.length s p errmsg else none
  | .writeError p => if p ∈ s.globalClientList ∧ p ≠ me ∧ s.myConnect p then some (sendQueued s p)
    else none
  | .abort p notice => exitAbortedClient s p notice
  | .free => some (freeExitedClients s)

/-- This server alone, with its name and id. -/
def start (name id : Str) (room : ℕ → List Line → Bool) : State where
  world := Channel.World.init fun _ => ⟨.server, name, id, [], [], me, .empty⟩
  servptr := fun p => if p = me then some me else none
  allocated := fun p => p = me
  killed := fun _ => false
  closing := fun _ => false
  dead := fun _ => false
  ioError := fun _ => false
  capQS := fun _ => false
  capTS6 := fun _ => false
  table := fun type =>
    match type with
    | .client => Hash.hashAdd HashType.client.hf Table.empty name me
    | .id => Hash.hashAdd HashType.id.hf Table.empty id me
    | .hostname => Table.empty
  globalClientList := [me]
  servList := []
  globalServList := [me]
  deadList := []
  users := fun _ => []
  servers := fun _ => []
  room := room
  sent := fun _ => []

end Ratbox.Netsplit
