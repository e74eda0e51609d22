import Ratbox.Lib.Combos
import Ratbox.Text

/-!
# The numbers of clients

`Count` has the number of clients on the network, of those that are invisible and of those that are
operators, for `LUSERS`. The numbers are changed where clients register and exit, and where their
modes change.

Source: `src/s_user.c`, lines 67–166, 495–525 and 682–860, `modules/core/m_nick.c`, lines 1090–1213,
`modules/m_oper.c`, lines 84–96, 235–280 and 332–340, `src/client.c`, lines 122–166, 575–647,
1073–1168, 1194–1324 and 1409–1453, `src/services.c`, lines 487–560, `include/client.h`, lines
36–85, 145–185 and 243–258, and `include/s_newconf.h`, lines 128–172.

## Main definitions

* `Counts.Client`, `Counts.State`: the clients, their modes and the numbers.
* `Counts.userMode`, `Counts.operUp`, `Counts.registerClient`, `Counts.registerLocalUser`: the modes
  are set.
* `Counts.exitClient`: a client exits.
* `Counts.createFakeClient`, `Counts.destroyFakeClient`: services come and go.
* `Counts.step`: the steps.

The numbers are `unsigned long`, which no number of clients comes near. The users behind a server
that exits do so one after the other, each by a step of its own. The notices that are sent, and the
greatest numbers so far, are left out.
-/

namespace Ratbox.Counts

open Text Flags Function

/-! ### Modes -/

/-- `UMODE_SERVNOTICE` and so on. -/
def umodeServNotice : BitVec 32 := 0x0001
@[inherit_doc umodeServNotice] def umodeCConn : BitVec 32 := 0x0002
@[inherit_doc umodeServNotice] def umodeRej : BitVec 32 := 0x0004
@[inherit_doc umodeServNotice] def umodeSKill : BitVec 32 := 0x0008
@[inherit_doc umodeServNotice] def umodeFull : BitVec 32 := 0x0010
@[inherit_doc umodeServNotice] def umodeSpy : BitVec 32 := 0x0020
@[inherit_doc umodeServNotice] def umodeDebug : BitVec 32 := 0x0040
@[inherit_doc umodeServNotice] def umodeNChange : BitVec 32 := 0x0080
@[inherit_doc umodeServNotice] def umodeWallop : BitVec 32 := 0x0100
@[inherit_doc umodeServNotice] def umodeOperWall : BitVec 32 := 0x0200
@[inherit_doc umodeServNotice] def umodeInvisible : BitVec 32 := 0x0400
@[inherit_doc umodeServNotice] def umodeBots : BitVec 32 := 0x0800
@[inherit_doc umodeServNotice] def umodeExternal : BitVec 32 := 0x1000
@[inherit_doc umodeServNotice] def umodeCallerId : BitVec 32 := 0x2000
@[inherit_doc umodeServNotice] def umodeUnauth : BitVec 32 := 0x4000
@[inherit_doc umodeServNotice] def umodeLocOps : BitVec 32 := 0x8000
@[inherit_doc umodeServNotice] def umodeOperSpy : BitVec 32 := 0x10000
@[inherit_doc umodeServNotice] def umodeCConnExt : BitVec 32 := 0x20000
@[inherit_doc umodeServNotice] def umodeService : BitVec 32 := 0x40000
@[inherit_doc umodeServNotice] def umodeDeaf : BitVec 32 := 0x80000
@[inherit_doc umodeServNotice] def umodeOper : BitVec 32 := 0x100000
@[inherit_doc umodeServNotice] def umodeAdmin : BitVec 32 := 0x200000

/-- `SEND_UMODES`, which other servers are told. -/
def sendUmodes : BitVec 32 := umodeInvisible ||| umodeOper ||| umodeWallop ||| umodeAdmin |||
    umodeService ||| umodeDeaf

/-- `DEFAULT_OPER_UMODES`. -/
def defaultOperUmodes :
    BitVec 32 := umodeServNotice ||| umodeOperWall ||| umodeWallop ||| umodeLocOps

/-- `ALL_UMODES`. -/
def allUmodes : BitVec 32 :=
  sendUmodes ||| umodeServNotice ||| umodeCConn ||| umodeRej ||| umodeSKill ||| umodeFull |||
    umodeSpy ||| umodeNChange |||
    umodeOperWall ||| umodeDebug ||| umodeBots ||| umodeExternal ||| umodeLocOps ||| umodeAdmin |||
      umodeUnauth |||
    umodeCallerId ||| umodeOperSpy ||| umodeCConnExt ||| umodeService ||| umodeDeaf

/-- `UserModeBitmask`: the mode of a letter, or zero. The letter `S` counts when the server is built
with `ENABLE_SERVICES`. -/
def userModeBitmask (services : Bool) : Char → BitVec 32
  | 'C' => umodeCConnExt
  | 'D' => umodeDeaf
  | 'S' => if services then umodeService else 0
  | 'Z' => umodeOperSpy
  | 'a' => umodeAdmin
  | 'b' => umodeBots
  | 'c' => umodeCConn
  | 'd' => umodeDebug
  | 'f' => umodeFull
  | 'g' => umodeCallerId
  | 'i' => umodeInvisible
  | 'k' => umodeSKill
  | 'l' => umodeLocOps
  | 'n' => umodeNChange
  | 'o' => umodeOper
  | 'r' => umodeRej
  | 's' => umodeServNotice
  | 'u' => umodeUnauth
  | 'w' => umodeWallop
  | 'x' => umodeExternal
  | 'y' => umodeSpy
  | 'z' => umodeOperWall
  | _ => 0

/-- `OPER_NICKS` and so on: what an operator may do. -/
def operNicks : BitVec 32 := 0x00200
@[inherit_doc operNicks] def operAdmin : BitVec 32 := 0x01000
@[inherit_doc operNicks] def operHAdmin : BitVec 32 := 0x02000
@[inherit_doc operNicks] def operOperWall : BitVec 32 := 0x04000

/-- `OPER_FLAGS`, which are all of these but `OPER_ENCRYPTED` and `OPER_NEEDSSL`. -/
def operFlags : BitVec 32 := 0x3fffe

/-! ### Clients -/

/-- What a `struct Client` is: this server, another server, a connection that is not registered, or
a user. -/
inductive Status
  | me
  | server
  | unknown
  | client
  deriving DecidableEq

/-- A `struct Client`: whether it is a service (`FLAGS_FAKE`) or connected to this server
(`FLAGS_MYCONNECT`), its modes, and whether it has exited (`IsClosing`). -/
structure Client where
  status : Status
  fake : Bool
  myConnect : Bool
  umodes : BitVec 32
  operflags : BitVec 32
  closing : Bool
  deriving DecidableEq

namespace Client

variable (c : Client)

/-- `IsClient`. -/
abbrev IsClient : Prop := c.status = .client

/-- `IsOper`. -/
abbrev IsOper : Prop := Has c.umodes umodeOper

/-- `IsInvisible`. -/
abbrev IsInvisible : Prop := Has c.umodes umodeInvisible

/-- `SetOper`. -/
def setOper : Client := { c with umodes := c.umodes ||| umodeOper }

/-- `ClearOper`. -/
def clearOper : Client := { c with umodes := c.umodes &&& ~~~(umodeOper ||| umodeAdmin) }

/-- `IsOperN`, which lets an operator see nick changes. -/
abbrev IsOperN : Prop := Has c.operflags operNicks

/-- `IsOperOperwall`. -/
abbrev IsOperOperwall : Prop := Has c.operflags operOperWall

/-- `IsOperHiddenAdmin`. -/
abbrev IsOperHiddenAdmin : Prop := Has c.operflags operHAdmin

/-- `IsOperAdmin`. -/
abbrev IsOperAdmin : Prop := Has c.operflags operAdmin ∨ Has c.operflags operHAdmin

/-- `source_p->umodes |= flag`. -/
def addUmodes (flag : BitVec 32) : Client := { c with umodes := c.umodes ||| flag }

/-- `source_p->umodes &= ~flag`. -/
def clearUmodes (flag : BitVec 32) : Client := { c with umodes := c.umodes &&& ~~~flag }

end Client

/-- `Count`. -/
structure Counter where
  total : ℤ
  invisi : ℤ
  oper : ℤ
  deriving DecidableEq

/-- The settings in `ConfigFileEntry`. -/
structure Conf where
  defaultInvisible : Bool
  operOnlyUmodes : BitVec 32
  operUmodes : BitVec 32
  deriving DecidableEq

/-- `Count.invisi` when the modes of a client were `setflags` before. -/
def countInvisible (setflags : BitVec 32) (c : Client) (n : Counter) : Counter :=
  let n := if ¬Has setflags umodeInvisible ∧ c.IsInvisible then { n with invisi := n.invisi + 1 }
    else n
  if Has setflags umodeInvisible ∧ ¬c.IsInvisible then { n with invisi := n.invisi - 1 } else n

/-! ### The modes of a user -/

/-- What the loop of `user_mode` over the letters changes. -/
structure Letters where
  client : Client
  count : Counter
  what : Bool
  badflag : Bool

namespace Letters

variable (conf : Conf) (services : Bool) (l : Letters)

/-- The letter `o` after a plus, which counts when a server sends it. -/
def plusOper : Letters :=
  if ¬l.client.myConnect ∧ ¬l.client.IsOper then
    { l with count := { l.count with oper := l.count.oper + 1 }, client := l.client.setOper }
  else l

/-- The letter `o` after a minus. -/
def minusOper : Letters :=
  if ¬l.client.IsOper then l
  else
    let c := l.client.clearOper
    { l with
      count := { l.count with oper := l.count.oper - 1 }
      client :=
        if c.myConnect then { c.clearUmodes conf.operOnlyUmodes with
          operflags := c.operflags &&& ~~~operFlags } else c }

/-- A letter with a mode, or without one. -/
def other (flag : BitVec 32) : Letters :=
  if flag ≠ 0 then
    if l.client.myConnect ∧ ¬l.client.IsOper ∧ Has conf.operOnlyUmodes flag then { l with
      badflag := true }
    else { l with client := if l.what then l.client.addUmodes flag else l.client.clearUmodes flag }
  else if l.client.myConnect then { l with badflag := true }
  else l

/-- A letter. The `client_p` of a user of this server is the user, and that of another one is a
server. -/
def letter (c : Char) : Letters :=
  match c with
  | '+' => { l with what := true }
  | '-' => { l with what := false }
  | 'o' => if l.what then l.plusOper else l.minusOper conf
  | 'S' => if services then l else l.other conf (userModeBitmask services 'S')
  | ' ' | '\n' | '\r' | '\t' => l
  | c => l.other conf (userModeBitmask services c)

end Letters

/-- The modes that `user_mode` takes away because the operator may not have them. -/
def stripUmodes (c : Client) : Client :=
  let c := if Has c.umodes umodeOperWall ∧ ¬c.IsOperOperwall then c.clearUmodes umodeOperWall else c
  let c := if Has c.umodes umodeNChange ∧ ¬c.IsOperN then c.clearUmodes umodeNChange else c
  if c.myConnect ∧ Has c.umodes umodeAdmin ∧ (¬c.IsOperAdmin ∨ c.IsOperHiddenAdmin) then
    c.clearUmodes umodeAdmin else c

/-- `user_mode`, for the parameters behind the name. -/
def userMode (conf : Conf) (services : Bool) (c : Client) (n : Counter) (parv : List Str) :
    Client × Counter :=
  let l := parv.flatten.foldl (Letters.letter conf services) ⟨c, n, true, false⟩
  let c' := stripUmodes l.client
  (c', countInvisible c.umodes c' l.count)

/-- `oper_up`, with the modes and the flags of the operator block. -/
def operUp (conf : Conf) (c : Client) (n : Counter) (umodes flags : BitVec 32) : Client × Counter :=
  let old := c.umodes &&& allUmodes
  let c := c.setOper
  let c :=
    if umodes ≠ 0 then c.addUmodes (umodes &&& allUmodes)
    else if conf.operUmodes ≠ 0 then c.addUmodes (conf.operUmodes &&& allUmodes)
    else c.addUmodes (defaultOperUmodes &&& allUmodes)
  let n := { n with oper := n.oper + 1 }
  let c := { c with operflags := c.operflags ||| flags }
  let c := if c.IsOperAdmin ∧ ¬c.IsOperHiddenAdmin then c.addUmodes umodeAdmin else c
  let c := if ¬c.IsOperN then c.clearUmodes umodeNChange else c
  let c := if ¬c.IsOperOperwall then c.clearUmodes umodeOperWall else c
  (c, countInvisible old c n)

/-- A letter of the modes with which a server introduces a user. `onServiceList` says that the
server is on `service_list`. -/
def introducedMode (services onServiceList : Bool) (x : Client × Counter) (letter : Char) :
    Client × Counter :=
  let (c, n) := x
  let flag := userModeBitmask services letter
  if services ∧ Has flag umodeService ∧ ¬onServiceList then (c, n)
  else
    let n := if ¬Has c.umodes umodeInvisible ∧ Has flag umodeInvisible then { n with
      invisi := n.invisi + 1 } else n
    let n := if ¬Has c.umodes umodeOper ∧ Has flag umodeOper then { n with oper := n.oper + 1 }
      else n
    (c.addUmodes (flag &&& sendUmodes), n)

/-- `update_client_exit_stats`. -/
def updateClientExitStats (c : Client) (n : Counter) : Counter :=
  if c.status = .server then n
  else if c.IsClient then
    let n := { n with total := n.total - 1 }
    let n := if c.IsOper then { n with oper := n.oper - 1 } else n
    if c.IsInvisible then { n with invisi := n.invisi - 1 } else n
  else n

/-! ### The state -/

/-- The clients that are allocated, `global_client_list`, `Count`, and the settings. -/
structure State where
  client : ℕ → Option Client
  globalClientList : List ℕ
  count : Counter
  conf : Conf

namespace State

variable (s : State)

/-- Write a client, and the numbers. -/
def set (p : ℕ) (c : Client) (n : Counter) : State :=
  { s with client := update s.client p (some c), count := n }

/-- `rb_dlinkAddTail(client, &client->node, &global_client_list)`. -/
def addTail (p : ℕ) : State := { s with globalClientList := s.globalClientList ++ [p] }

/-- `rb_dlinkDelete(&client->node, &global_client_list)`. It takes a node that is not on the list
for its only one. -/
def delete (p : ℕ) : State :=
  { s with globalClientList := if p ∈ s.globalClientList then s.globalClientList.erase p else [] }

/-- `find_person` and the like: a client that has not exited. -/
def live (p : ℕ) : Option Client := (s.client p).filter fun c => !c.closing

end State

/-- The address of `me`. -/
def me : ℕ := 0

/-- `remove_client_from_list`. The node of a client has no neighbours when it is on no list, or
alone. -/
def removeClientFromList (s : State) (p : ℕ) (c : Client) : State :=
  if p ∉ s.globalClientList ∨ s.globalClientList = [p] then s
  else { s.delete p with count := updateClientExitStats c s.count }

/-- `exit_client`: every way to exit goes through `remove_client_from_list`. -/
def exitClient (s : State) (p : ℕ) : State :=
  match s.live p with
  | none => s
  | some c =>
    if c.status = .me then s
    else
      let c := { c with closing := true }
      removeClientFromList (s.set p c s.count) p c

/-- `free_exited_clients`, for a client. -/
def freeClient (s : State) (p : ℕ) : State :=
  match s.client p with
  | none => s
  | some c => if c.closing then { s with client := update s.client p none } else s

/-- `make_client` for a connection. -/
def makeClient (s : State) (p : ℕ) : State :=
  match s.client p with
  | none => s.set p ⟨.unknown, false, true, 0, 0, false⟩ s.count
  | some _ => s

/-- `release_auth_client`. -/
def releaseAuthClient (s : State) (p : ℕ) : State :=
  match s.live p with
  | none => s
  | some c => if c.status = .unknown ∧ p ∉ s.globalClientList then s.addTail p else s

/-- The end of `register_local_user`, of a connection that may be read. -/
def registerLocalUser (s : State) (p : ℕ) : State :=
  match s.live p with
  | none => s
  | some c =>
    if c.status = .unknown ∧ p ∈ s.globalClientList then
      let (c, n) :=
        if s.conf.defaultInvisible then (c.addUmodes umodeInvisible, { s.count with
          invisi := s.count.invisi + 1 })
        else (c, s.count)
      s.set p { c with status := .client } { n with total := n.total + 1 }
    else s

/-- `server_estab`: a connection becomes a server. -/
def serverEstab (s : State) (p : ℕ) : State :=
  match s.live p with
  | none => s
  | some c => if c.status = .unknown ∧ p ∈ s.globalClientList then s.set p { c with
    status := .server } s.count else s

/-- A server introduces another one. -/
def introduceServer (s : State) (p : ℕ) : State :=
  match s.client p with
  | none => (s.set p ⟨.server, false, false, 0, 0, false⟩ s.count).addTail p
  | some _ => s

/-- `register_client`, with the modes in `parv[4]`. A user that comes from the wrong direction exits
at once. -/
def registerClient (services : Bool) (s : State) (p : ℕ) (umodes : Str)
    (onServiceList wrongDirection : Bool) : State :=
  match s.client p with
  | none =>
    let (c, n) :=
      (umodes.drop 1).foldl (introducedMode services onServiceList) (⟨.unknown, false, false, 0, 0,
        false⟩, s.count)
    let s := (s.set p { c with status := .client } { n with total := n.total + 1 }).addTail p
    if wrongDirection then exitClient s p else s
  | some _ => s

/-- `MODE` from a user, with the one that `find_person` gives for the name, and the parameters
behind it. No messages come from services. -/
def mode (services : Bool) (s : State) (p : ℕ) (target : Option ℕ) (parv : List Str) : State :=
  match s.live p with
  | none => s
  | some c =>
    if c.IsClient ∧ ¬c.fake ∧ target = some p ∧ parv ≠ [] then
      let (c, n) := userMode s.conf services c s.count parv
      s.set p c n
    else s

/-- `OPER`, and `CHALLENGE` with the answer, from a user of this server that may become an operator
by a block with these modes and flags. -/
def oper (s : State) (p : ℕ) (umodes flags : BitVec 32) : State :=
  match s.live p with
  | none => s
  | some c =>
    if c.IsClient ∧ c.myConnect ∧ ¬c.IsOper then
      let (c, n) := operUp s.conf c s.count umodes flags
      s.set p c n
    else s

/-- `create_fake_client`, with the client that `find_client` gives for the name, which exits
first. -/
def createFakeClient (s : State) (p : ℕ) (found : Option ℕ) (opered : Bool) : State :=
  let s := match found with
    | none => s
    | some q => exitClient s q
  match s.client p with
  | none =>
    let umodes := if opered then umodeInvisible ||| umodeOper else umodeInvisible
    (s.set p ⟨.client, true, false, umodes, 0, false⟩ s.count).addTail p
  | some _ => s

/-- `destroy_fake_client`. -/
def destroyFakeClient (s : State) (p : ℕ) : State :=
  match s.client p with
  | none => s
  | some c => if c.fake then { s.delete p with client := update s.client p none } else s

/-! ### Steps -/

/-- What happens. -/
inductive Op
  | accept (p : ℕ)
  | release (p : ℕ)
  | register (p : ℕ)
  | estab (p : ℕ)
  | server (p : ℕ)
  | introduce (p : ℕ) (umodes : Str) (onServiceList wrongDirection : Bool)
  | mode (p : ℕ) (target : Option ℕ) (parv : List Str)
  | oper (p : ℕ) (umodes flags : BitVec 32)
  | exit (p : ℕ)
  | free (p : ℕ)
  | create (p : ℕ) (found : Option ℕ) (opered : Bool)
  | destroy (p : ℕ)
  | rehash (conf : Conf)

/-- A step; what does not apply changes nothing. -/
def step (services : Bool) (s : State) : Op → State
  | .accept p => makeClient s p
  | .release p => releaseAuthClient s p
  | .register p => registerLocalUser s p
  | .estab p => serverEstab s p
  | .server p => introduceServer s p
  | .introduce p umodes onServiceList wrongDirection =>
    registerClient services s p umodes onServiceList wrongDirection
  | .mode p target parv => mode services s p target parv
  | .oper p umodes flags => oper s p umodes flags
  | .exit p => exitClient s p
  | .free p => freeClient s p
  | .create p found opered => createFakeClient s p found opered
  | .destroy p => destroyFakeClient s p
  | .rehash conf => { s with conf := conf }

/-- This server alone. -/
def start (conf : Conf) : State :=
  ⟨update (fun _ => none) me (some ⟨.me, false, false, 0, 0, false⟩), [me], ⟨0, 0, 0⟩, conf⟩

end Ratbox.Counts
