import Ratbox.Dlink
import Ratbox.Hash

/-!
# Services and the tables of clients

A service of this server is a client without a connection. When it is created it is entered in the
tables and on the list of clients by hand, beside the clients that connect or that other servers
introduce, and when it is destroyed it is taken out by hand. A client that has the name is made to
exit first.

Source: `src/services.c`, lines 487–560, `src/client.c`, lines 118–166, 627–647, 824–880, 1073–1168,
1291–1324, 1401–1453 and 1909–1924, `modules/core/m_nick.c`, lines 602–627, 717–720, 774–782 and
1079–1145, `modules/core/m_server.c`, lines 535–558, `src/s_user.c`, lines 500–517, and
`src/s_auth.c`, lines 192–211.

## Main definitions

* `Services.Client`, `Services.State`: the clients, the tables and the lists.
* `Services.createFakeClient`, `Services.destroyFakeClient`: services come and go.
* `Services.exitClient`: a client exits.
* `Services.makeClient`, `Services.releaseAuthClient`, `Services.setNick`,
  `Services.registerLocalUser`, `Services.registerClient`, `Services.introduceServer`: other clients
  come.
* `Services.step`: the steps.

Of a client there are the fields that the tables and lists depend on. Servers do not exit, so no
service has the name of a server. An address that is allocated is one that is not in use. The
messages that are sent are left out.
-/

namespace Ratbox.Services

open Text Hash Dlink Function
open Nick (digitName)

/-! ### Clients -/

/-- What a `struct Client` is: this server, another server, a connection that is not registered, a
user of this server, a user of another one, or a service (`FLAGS_FAKE`). -/
inductive Status
  | me
  | server
  | unknown
  | myClient
  | remote
  | fake
  deriving DecidableEq

/-- A `struct Client`, and whether it has exited (`IsClosing`). -/
structure Client where
  name : Str
  host : Str
  id : Str
  status : Status
  servptr : ℕ
  closing : Bool
  deriving DecidableEq

/-- The address of `me`. -/
def me : ℕ := 0

/-- The tables of clients. -/
inductive HashType
  | client
  | id
  | hostname
  deriving DecidableEq

/-- `HASH_CLIENT`, `HASH_ID` and `HASH_HOSTNAME`. -/
def HashType.hf : HashType → HashF
  | .client => ⟨.irccmp, 17, 0⟩
  | .id => ⟨.strcmp, 17, 0⟩
  | .hostname => ⟨.irccmp, 17, 30⟩

theorem HashType.hashlen (type : HashType) : type.hf.cmptype = .memcmp → 0 < type.hf.hashlen := by
  cases type <;> decide

/-- The clients that are allocated, the tables, `global_client_list` with the fields `node` of the
clients, and the list `serv->users` of each server with their fields `lnode`. -/
structure State where
  client : ℕ → Option Client
  table : HashType → Table
  node : Heap ℕ
  globalClientList : DList ℕ
  lnode : Heap ℕ
  users : ℕ → DList ℕ

namespace State

/-- Write a client. -/
@[simps -fullyApplied]
def setClient (s : State) (p : ℕ) (c : Option Client) : State :=
  { s with client := update s.client p c }

/-- `rb_malloc` of a client, whose nodes are zero. -/
@[simps -fullyApplied]
def malloc (s : State) (p : ℕ) (c : Client) : State :=
  { s with
    client := update s.client p (some c)
    node := update s.node p ⟨none, none⟩
    lnode := update s.lnode p ⟨none, none⟩ }

/-- `hash_add`. -/
@[simps -fullyApplied]
def hashAdd (s : State) (type : HashType) (hashindex : Str) (p : ℕ) : State :=
  { s with table := update s.table type (Hash.hashAdd type.hf (s.table type) hashindex p) }

/-- `hash_del`. -/
@[simps -fullyApplied]
def hashDel (s : State) (type : HashType) (hashindex : Str) (p : ℕ) : State :=
  { s with table := update s.table type (Hash.hashDel type.hf (s.table type) hashindex p) }

/-- `rb_dlinkAddTail` to `global_client_list`. -/
@[simps -fullyApplied]
def addTail (s : State) (p : ℕ) : State :=
  { s with
    node := (Dlink.addTail s.node p s.globalClientList).1
    globalClientList := (Dlink.addTail s.node p s.globalClientList).2 }

/-- `rb_dlinkDelete` from `global_client_list`. -/
@[simps -fullyApplied]
def delete (s : State) (p : ℕ) : State :=
  { s with
    node := (Dlink.delete s.node p s.globalClientList).1
    globalClientList := (Dlink.delete s.node p s.globalClientList).2 }

/-- `rb_dlinkAdd` to the users of a server. -/
@[simps -fullyApplied]
def addUser (s : State) (k p : ℕ) : State :=
  { s with
    lnode := (Dlink.add s.lnode p (s.users k)).1
    users := update s.users k (Dlink.add s.lnode p (s.users k)).2 }

/-- `rb_dlinkDelete` from the users of a server. -/
@[simps -fullyApplied]
def deleteUser (s : State) (k p : ℕ) : State :=
  { s with
    lnode := (Dlink.delete s.lnode p (s.users k)).1
    users := update s.users k (Dlink.delete s.lnode p (s.users k)).2 }

end State

/-! ### Exits -/

/-- `remove_client_from_list`. -/
def removeClientFromList (s : State) (p : ℕ) : State :=
  if (s.node p).prev = none ∧ (s.node p).next = none then s else s.delete p

/-- `exit_generic_client`. -/
def exitGenericClient (s : State) (p : ℕ) (c : Client) : State :=
  let s := if c.id ≠ [] then s.hashDel .id c.id p else s
  let s := s.hashDel .hostname c.host p
  let s := s.hashDel .client c.name p
  removeClientFromList s p

/-- `exit_unknown_client`. -/
def exitUnknownClient (s : State) (p : ℕ) (c : Client) : State :=
  let s := s.hashDel .hostname c.host p
  let s := s.hashDel .client c.name p
  removeClientFromList s p

/-- `exit_local_client`. -/
def exitLocalClient (s : State) (p : ℕ) (c : Client) : State :=
  (exitGenericClient s p c).deleteUser me p

/-- `exit_remote_client`, also of a service. -/
def exitRemoteClient (s : State) (p : ℕ) (c : Client) : State :=
  (exitGenericClient s p c).deleteUser c.servptr p

/-- `exit_client`. -/
def exitClient (s : State) (p : ℕ) : Option State :=
  (s.client p).bind fun c =>
    if c.closing then some s
    else
      let s := s.setClient p (some { c with closing := true })
      match c.status with
      | .me => none
      | .server => none
      | .unknown => some (exitUnknownClient s p c)
      | .myClient => some (exitLocalClient s p c)
      | .remote => some (exitRemoteClient s p c)
      | .fake => some (exitRemoteClient s p c)

/-- `free_exited_clients`. -/
def freeExitedClients (s : State) : State :=
  { s with client := fun p => (s.client p).filter fun c => !c.closing }

/-! ### Services -/

/-- `find_client`. -/
def findClient (s : State) (name : Str) : Option ℕ :=
  if name = [] then none
  else if digitName name then (hashFind HashType.id.hf (s.table .id) name).map (·.data)
  else (hashFind HashType.client.hf (s.table .client) name).map (·.data)

/-- What `create_fake_client` first does: a client with the name exits. -/
def clearName (s : State) (name : Str) : Option State :=
  match findClient s name with
  | some q => exitClient s q
  | none => some s

/-- The rest of `create_fake_client`, for the address that `rb_malloc` and the id that
`generate_uid` give. -/
def enterFakeClient (s : State) (p : ℕ) (name host uid : Str) : Option State :=
  if s.client p ≠ none then none
  else
    let c : Client := ⟨strlcpy name 30, strlcpy host 64, uid, .fake, me, false⟩
    let s := s.malloc p c
    let s := s.hashAdd .hostname c.host p
    let s := s.hashAdd .id c.id p
    let s := s.hashAdd .client c.name p
    some (s.addTail p)

/-- `create_fake_client`. -/
def createFakeClient (s : State) (p : ℕ) (name host uid : Str) : Option State := do
  let s ← clearName s name
  enterFakeClient s p name host uid

/-- `destroy_fake_client`, of a service that was not freed. -/
def destroyFakeClient (s : State) (p : ℕ) : Option State :=
  (s.client p).bind fun c =>
    if c.status ≠ .fake then none
    else
      let s := s.hashDel .id c.id p
      let s := s.hashDel .client c.name p
      let s := s.delete p
      some (s.setClient p none)

/-! ### Other clients -/

/-- `make_client` for a connection, whose host is its address at first. -/
def makeClient (s : State) (p : ℕ) (host : Str) : Option State :=
  if s.client p ≠ none then none else some (s.malloc p ⟨[], host, [], .unknown, me, false⟩)

/-- `release_auth_client`. -/
def releaseAuthClient (s : State) (p : ℕ) : Option State :=
  (s.client p).bind fun c =>
    if c.status = .unknown ∧ c.closing = false ∧ s.node p = ⟨none, none⟩ then some (s.addTail p)
      else none

/-- What `set_initial_nick`, `change_local_nick` and `change_remote_nick` do to a client. -/
def setNick (s : State) (p : ℕ) (nick : Str) : Option State :=
  (s.client p).bind fun c =>
    if (c.status = .unknown ∨ c.status = .myClient ∨ c.status = .remote) ∧ c.closing = false then
      let s := s.hashDel .client c.name p
      let s := s.setClient p (some { c with name := nick })
      some (s.hashAdd .client nick p)
    else none

/-- The end of `register_local_user`, for the host that was found. -/
def registerLocalUser (s : State) (p : ℕ) (host uid : Str) : Option State :=
  (s.client p).bind fun c =>
    if c.status = .unknown ∧ c.closing = false then
      let c := { c with host := host, id := uid, status := .myClient, servptr := me }
      let s := s.hashAdd .hostname host p
      let s := s.hashAdd .id uid p
      let s := s.setClient p (some c)
      some (s.addUser me p)
    else none

/-- `register_client`; the id of a client that has none is empty. -/
def registerClient (s : State) (p server : ℕ) (nick host uid : Str) : Option State :=
  (s.client server).bind fun srv =>
    if (srv.status = .me ∨ srv.status = .server) ∧ s.client p = none then
      let c : Client := ⟨nick, strlcpy host 64, strlcpy uid 11, .remote, server, false⟩
      let s := s.malloc p c
      let s := s.hashAdd .id c.id p
      let s := s.addTail p
      let s := s.addUser server p
      let s := s.hashAdd .client nick p
      some (s.hashAdd .hostname c.host p)
    else none

/-- A server introduces another one; its list of users is empty. -/
def introduceServer (s : State) (p : ℕ) (name id : Str) : Option State :=
  if s.client p ≠ none then none
  else
    let s := s.malloc p ⟨name, [], id, .server, me, false⟩
    let s := s.addTail p
    let s := s.hashAdd .client name p
    let s := s.hashAdd .id id p
    some { s with users := update s.users p DList.empty }

/-! ### Steps -/

/-- What happens. -/
inductive Op
  | create (p : ℕ) (name host uid : Str)
  | destroy (p : ℕ)
  | accept (p : ℕ) (host : Str)
  | release (p : ℕ)
  | nick (p : ℕ) (nick : Str)
  | register (p : ℕ) (host uid : Str)
  | introduce (p server : ℕ) (nick host uid : Str)
  | server (p : ℕ) (name id : Str)
  | exit (p : ℕ)
  | free
  deriving DecidableEq

/-- A step. -/
def step (s : State) : Op → Option State
  | .create p name host uid => createFakeClient s p name host uid
  | .destroy p => destroyFakeClient s p
  | .accept p host => makeClient s p host
  | .release p => releaseAuthClient s p
  | .nick p nick => setNick s p nick
  | .register p host uid => registerLocalUser s p host uid
  | .introduce p server nick host uid => registerClient s p server nick host uid
  | .server p name id => introduceServer s p name id
  | .exit p => exitClient s p
  | .free => some (freeExitedClients s)

/-- This server alone, with its name and id. -/
def start (name id : Str) : State :=
  let s : State :=
    ⟨fun _ => none, fun _ => Table.empty, fun _ => ⟨none, none⟩, DList.empty, fun _ => ⟨none, none⟩,
      fun _ => DList.empty⟩
  let s := s.malloc me ⟨name, [], id, .me, me, false⟩
  let s := s.addTail me
  let s := s.hashAdd .client name me
  s.hashAdd .id id me

end Ratbox.Services
