import Ratbox.Dlink
import Ratbox.Text
import Mathlib.Data.BitVec

/-!
# Channels and memberships

A membership ties a client to a channel. It is a node of up to three lists: the operators or the
other members of the channel, the members that are connected to this server, and the channels of
the client. A channel exists as long as it has members.

Source: `src/channel.c`, lines 95–282 and 351–379, `include/channel.h`,
`modules/core/m_join.c`, lines 1280–1325, and `modules/core/m_mode.c`, lines 931–1024.

## Main definitions

* `Channel.Client`, `Channel.Membership`, `Channel.Chan`, `Channel.World`: the structures, and the
  memory that holds them.
* `Channel.findChannelMembership`, `Channel.addUserToChannel`, `Channel.removeUserFromChannel`,
  `Channel.removeUserFromChannels`, `Channel.getOrCreateChannel`, `Channel.destroyChannel`,
  `Channel.chmOp`.

The fields of a client and of a channel that no modelled function uses are left out: topics, bans,
invitations, flood counters, and everything about a connection.
-/

namespace Ratbox.Channel

open Text Dlink Function

/-! ### The structures -/

/-- What a client is: its status, whether it has `FLAGS_MYCONNECT`, and whether its server is this
one. The clients that `create_fake_client` makes are on this server, without a connection. -/
inductive Kind
  | localUser
  | remoteUser
  | fakeUser
  | server
  | unregistered
  deriving DecidableEq

/-- `IsClient`. -/
def Kind.isClient : Kind → Bool
  | .localUser | .remoteUser | .fakeUser => true
  | .server | .unregistered => false

/-- `MyClient`. -/
def Kind.myClient : Kind → Bool
  | .localUser => true
  | _ => false

/-- `client_p->servptr == &me`. -/
def Kind.servptrIsMe : Kind → Bool
  | .localUser | .fakeUser => true
  | _ => false

/-- `struct Client`. Clients are numbered; `fromLink` is the number in the field `from`, the
connection behind which the client is. -/
structure Client where
  kind : Kind
  name : Str
  id : Str
  username : Str
  host : Str
  fromLink : ℕ
  channel : DList ℕ

/-- The flags of a membership, `CHFL_CHANOP` and so on. -/
structure MemberFlags where
  chanop : Bool
  voice : Bool
  deopped : Bool
  deriving DecidableEq

/-- `CHFL_PEON`. -/
def MemberFlags.peon : MemberFlags := ⟨false, false, false⟩

/-- `struct membership`. -/
structure Membership where
  chptr : Str
  client_p : ℕ
  flags : MemberFlags
  deriving DecidableEq

/-- `KEYLEN`. -/
def keyLen : ℕ := 24

/-- `struct Mode`: the limit is an `int`, and the key fits its array. -/
@[ext]
structure Mode where
  mode : BitVec 32
  limit : ℤ
  key : Str
  limit_int : -2 ^ 31 ≤ limit ∧ limit < 2 ^ 31
  key_lt : key.length < keyLen
  deriving DecidableEq

/-- A zeroed mode. -/
def Mode.empty : Mode := ⟨0, 0, [], by decide, by decide⟩

/-- The indices of the two lists of members. -/
inductive MemberList
  | noop
  | op
  deriving DecidableEq

/-- `struct Channel`. -/
structure Chan where
  chname : Str
  channelts : ℤ
  mode : Mode
  members : MemberList → DList ℕ
  locmembers : DList ℕ

/-- A channel as `rb_malloc` makes it, but for its name and time. -/
def Chan.fresh (chname : Str) (channelts : ℤ) : Chan :=
  ⟨chname, channelts, .empty, fun _ => .empty, .empty⟩

/-- The memory: the clients, the channels by address, how many channels were made under a name that
is cut, the memberships and their nodes by address, and the next address to allocate a membership
at. An address that was freed is not used again. -/
structure World where
  client : ℕ → Client
  chan : Str → Option Chan
  cuts : ℕ
  mem : ℕ → Option Membership
  channode : Dlink.Heap ℕ
  locchannode : Dlink.Heap ℕ
  usernode : Dlink.Heap ℕ
  fresh : ℕ

namespace World

/-- Write a channel. -/
def setChan (w : World) (chptr : Str) (ch : Chan) : World :=
  { w with chan := update w.chan chptr (some ch) }

/-- Write a membership. -/
def setMem (w : World) (msptr : ℕ) (ms : Membership) : World :=
  { w with mem := update w.mem msptr (some ms) }

/-- Write the channel list of a client. -/
def setUserChannel (w : World) (c : ℕ) (l : DList ℕ) : World :=
  { w with client := update w.client c { w.client c with channel := l } }

end World

/-! ### Finding and making channels -/

/-- `CHANNELLEN`. -/
def channelLen : ℕ := 200

/-- The name that a channel gets: `rb_strndup` keeps one byte less than its argument. -/
def storedName (chname : Str) : Str := chname.take (channelLen - 1)

/-- The key of a channel in `HASH_CHANNEL`: the name that it has, up to case. -/
def chanKey (chname : Str) : Str := (storedName chname).map toUpper

/-- The address of a channel with the key `key`. It is the key, and for the `n`th channel whose name
was cut `n` blanks follow. -/
def cutPtr (key : Str) (n : ℕ) : Str := key ++ List.replicate n ' '

/-- The newest channel with the key `key`, among the first `n` whose names were cut and the one
whose name was not. `hash_add` puts a channel in front of the older ones. -/
def newest (w : World) (key : Str) : ℕ → Option Str
  | 0 => if (w.chan key).isSome then some key else none
  | n + 1 =>
    if (w.chan (cutPtr key (n + 1))).isSome then some (cutPtr key (n + 1)) else newest w key n

/-- `find_channel`. The names that are stored have fewer than `CHANNELLEN` bytes, and those that
were cut have one byte less than that. -/
def findChannel (w : World) (chname : Str) : Option Str :=
  if channelLen ≤ chname.length then none
  else newest w (chanKey chname) (if chname.length + 1 = channelLen then w.cuts else 0)

/-- The channel that `get_or_create_channel` gives. -/
def chanPtr (w : World) (chname : Str) : Str :=
  match findChannel w (chname.take channelLen) with
  | some chptr => chptr
  | none => cutPtr (chanKey chname) (if channelLen ≤ chname.length then w.cuts + 1 else 0)

/-- A channel is made. -/
def World.makeChan (w : World) (chname : Str) (now : ℤ) : World :=
  { w.setChan (chanPtr w chname) (.fresh (storedName chname) now) with
    cuts := if channelLen ≤ chname.length then w.cuts + 1 else w.cuts }

/-- `get_or_create_channel`, with the current time: the channel and whether it is new. -/
def getOrCreateChannel (w : World) (chname : Str) (now : ℤ) : Option (World × Str × Bool) :=
  if chname = [] then none
  else
    match findChannel w (chname.take channelLen) with
    | some chptr => some (w, chptr, false)
    | none => some (w.makeChan chname now, chanPtr w chname, true)

/-- `destroy_channel`. -/
def destroyChannel (w : World) (chptr : Str) : World :=
  { w with chan := update w.chan chptr none }

/-! ### Memberships -/

/-- The list of members for the flags of a membership. -/
def memlist (flags : MemberFlags) : MemberList := if flags.chanop then .op else .noop

/-- `chan_member_count`. -/
def chanMemberCount (ch : Chan) : ℕ := (ch.members .noop).length + (ch.members .op).length

/-- The branch of `find_channel_membership` that walks the members of the channel. -/
def findByMembers (w : World) (ch : Chan) (client_p : ℕ) : Option ℕ :=
  let found := fun msptr => (w.mem msptr).any fun ms => ms.client_p == client_p
  (walk w.channode w.fresh (ch.members .noop).head).find? found <|>
    (walk w.channode w.fresh (ch.members .op).head).find? found

/-- The branch of `find_channel_membership` that walks the channels of the client. -/
def findByUser (w : World) (chptr : Str) (client_p : ℕ) : Option ℕ :=
  (walk w.usernode w.fresh (w.client client_p).channel.head).find? fun msptr =>
    (w.mem msptr).any fun ms => ms.chptr == chptr

/-- `find_channel_membership`. A walk takes at most as many steps as there are nodes. -/
def findChannelMembership (w : World) (chptr : Str) (client_p : ℕ) : Option ℕ :=
  if !(w.client client_p).kind.isClient then none
  else
    match w.chan chptr with
    | none => none
    | some ch =>
      if chanMemberCount ch < (w.client client_p).channel.length then findByMembers w ch client_p
      else findByUser w chptr client_p

/-- `add_user_to_channel`. The nodes of the new membership are zeroed. -/
def addUserToChannel (w : World) (chptr : Str) (client_p : ℕ) (flags : MemberFlags) : World :=
  match w.chan chptr with
  | none => w
  | some ch =>
    let msptr := w.fresh
    let (usernode, channel) := add w.usernode msptr (w.client client_p).channel
    let (channode, members) := add w.channode msptr (ch.members (memlist flags))
    let (locchannode, locmembers) :=
      if (w.client client_p).kind.myClient then add w.locchannode msptr ch.locmembers
      else (update w.locchannode msptr ⟨none, none⟩, ch.locmembers)
    { ((w.setUserChannel client_p channel).setChan chptr
        { ch with members := update ch.members (memlist flags) members
                  locmembers := locmembers }).setMem msptr ⟨chptr, client_p, flags⟩ with
      usernode := usernode
      channode := channode
      locchannode := locchannode
      fresh := msptr + 1 }

/-- What `remove_user_from_channel` and `remove_user_from_channels` both do: take a membership
off the lists of its channel, destroy a channel that is left without members, and free the
membership. -/
def removeMember (w : World) (msptr : ℕ) (ms : Membership) : World :=
  match w.chan ms.chptr with
  | none => w
  | some ch =>
    let (channode, members) := delete w.channode msptr (ch.members (memlist ms.flags))
    let (locchannode, locmembers) :=
      if (w.client ms.client_p).kind.servptrIsMe then delete w.locchannode msptr ch.locmembers
      else (w.locchannode, ch.locmembers)
    let ch := { ch with members := update ch.members (memlist ms.flags) members
                        locmembers := locmembers }
    let w := { w.setChan ms.chptr ch with channode := channode, locchannode := locchannode }
    let w := if chanMemberCount ch = 0 then destroyChannel w ms.chptr else w
    { w with mem := update w.mem msptr none }

/-- `remove_user_from_channel`. -/
def removeUserFromChannel (w : World) (msptr : ℕ) : World :=
  match w.mem msptr with
  | none => w
  | some ms =>
    let (usernode, channel) := delete w.usernode msptr (w.client ms.client_p).channel
    removeMember { w.setUserChannel ms.client_p channel with usernode := usernode } msptr ms

/-- One turn of the loop of `remove_user_from_channels`. -/
def removeTurn (w : World) (msptr : ℕ) : World :=
  match w.mem msptr with
  | none => w
  | some ms => removeMember w msptr ms

/-- `remove_user_from_channels`. The loop does not write the nodes it walks, and at its end the
list is emptied. -/
def removeUserFromChannels (w : World) (client_p : ℕ) : World :=
  ((walk w.usernode w.fresh (w.client client_p).channel.head).foldl removeTurn w).setUserChannel
    client_p .empty

/-- `rb_dlinkMoveNode` on the node of a membership in the lists of members. -/
def moveChannode (w : World) (msptr : ℕ) (chptr : Str) (oldlist newlist : MemberList) : World :=
  match w.chan chptr with
  | none => w
  | some ch =>
    let (channode, old, new) := moveNode w.channode msptr (ch.members oldlist) (ch.members newlist)
    { w.setChan chptr { ch with
        members := update (update ch.members oldlist old) newlist new } with
      channode := channode }

/-- What `chm_op` does to a membership, for `MODE_ADD` or else `MODE_DEL`. -/
def chmOp (w : World) (msptr : ℕ) (add : Bool) : World :=
  match w.mem msptr with
  | none => w
  | some ms =>
    if add then
      let w := if ms.flags.chanop then w else moveChannode w msptr ms.chptr .noop .op
      w.setMem msptr { ms with flags := { ms.flags with chanop := true, deopped := false } }
    else
      let w := if ms.flags.chanop then moveChannode w msptr ms.chptr .op .noop else w
      w.setMem msptr { ms with flags := { ms.flags with chanop := false } }

end Ratbox.Channel
