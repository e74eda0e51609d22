import Ratbox.Channel.Basic

/-!
# Messages to channels

A server sends a message to a channel to its own members, and over each link behind which there are
members. A link, and a client that shares several channels with another one, is stamped with the
number of the message, so that it gets one copy.

Source: `src/send.c`, lines 44–107 and 489–672, `modules/core/m_message.c`, lines 154–510 and
770–823, and `src/channel.c`, lines 599–644.

## Main definitions

* `Relay.Server`: what a server knows of a channel and of its connections.
* `Relay.sendtoChannelFlags`, `Relay.sendtoCommonChannelsLocal`: the functions that send one copy to
  each connection.
* `Relay.mMessage`: what a server does with a message.

## Implementation notes

The message has one target, a channel. The clients of services are left out: no code puts one on a
channel. The counter of messages, an `unsigned long`, is a natural number: what is shown holds for
the first `2 ^ 64 - 1` messages of a server.
-/

namespace Ratbox.Relay

open Channel (MemberFlags MemberList)

/-! ### The structures -/

/-- A client, on any server. -/
abbrev ClientId := ℕ

/-- A server. -/
abbrev ServerId := ℕ

/-- A connection of a server: that of a client of its own, or the link to another server. -/
inductive Conn
  | client (c : ClientId)
  | server (x : ServerId)
  deriving DecidableEq

/-- A member of the channel. -/
structure Member where
  client : ClientId
  flags : MemberFlags
  deriving DecidableEq

/-- The types `ALL_MEMBERS`, `ONLY_CHANOPS` and `ONLY_CHANOPSVOICED`. -/
inductive MsgType
  | all
  | chanops
  | chanopsVoiced
  deriving DecidableEq

/-- `type && (msptr->flags & type) == 0` is not so. -/
def MsgType.wants : MsgType → MemberFlags → Bool
  | .all, _ => true
  | .chanops, flags => flags.chanop
  | .chanopsVoiced, flags => flags.chanop || flags.voice

/-- What a server knows: the members of the channel, its modes `+n` and `+m`, the clients of its own
that a RESV or a ban keeps from sending, and whether the channel is under a flood; `max_targets`;
for each client the connection `from` and whether it is deaf; for each connection `IsIOError`,
whether there is room in its queue, for a link `CAP_CHW`, and `serial`; and `current_serial`. -/
structure Server where
  members : MemberList → List Member
  noprivmsgs : Bool
  moderated : Bool
  resvBlocks : ClientId → Bool
  quieted : ClientId → Bool
  flooded : Bool
  maxTargets : ℤ
  fromLink : ClientId → Conn
  deaf : ClientId → Bool
  ioError : Conn → Bool
  room : Conn → Bool
  chw : ServerId → Bool
  serial : Conn → ℕ
  currentSerial : ℕ

namespace Server

/-- `MyClient`. -/
def myClient (s : Server) (c : ClientId) : Bool := s.fromLink c = .client c

/-- The members, in the order of the two lists. -/
def allMembers (s : Server) : List Member := s.members .noop ++ s.members .op

/-- `find_channel_membership`. -/
def findMember (s : Server) (c : ClientId) : Option Member :=
  s.allMembers.find? fun m => m.client = c

end Server

/-- A server, and the connections that a line was attached to so far. -/
abbrev Sending := Server × List Conn

/-! ### Sending -/

/-- `send_linebuf`. A connection without room in its queue is dead. -/
def sendLinebuf (p : Sending) (dest : Conn) : Sending :=
  if p.1.ioError dest then p
  else if p.1.room dest then (p.1, p.2 ++ [dest])
  else ({ p.1 with ioError := Function.update p.1.ioError dest true }, p.2)

/-- A connection is stamped with the number of the message. -/
def stamp (p : Sending) (dest : Conn) : Sending :=
  ({ p.1 with serial := Function.update p.1.serial dest p.1.currentSerial }, p.2)

/-- The body of the loop of `sendto_channel_flags`. -/
def sendMember (one : Conn) (type : MsgType) (p : Sending) (msptr : Member) : Sending :=
  let dest := p.1.fromLink msptr.client
  if p.1.ioError dest || dest = one then p
  else if !type.wants msptr.flags then p
  else if p.1.deaf msptr.client then p
  else
    match dest with
    | .client _ => sendLinebuf p dest
    | .server x =>
      if type ≠ .all && !p.1.chw x then p
      else if p.1.serial dest = p.1.currentSerial then p
      else stamp (sendLinebuf p dest) dest

/-- A new number. -/
def Server.nextSerial (s : Server) : Server := { s with currentSerial := s.currentSerial + 1 }

/-- `sendto_channel_flags`. -/
def sendtoChannelFlags (s : Server) (one : Conn) (type : MsgType) : Sending :=
  (if type = .chanops then s.members .op else s.allMembers).foldl (sendMember one type)
    (s.nextSerial, [])

/-- The body of the loops of `sendto_common_channels_local`. -/
def sendCommon (p : Sending) (target : ClientId) : Sending :=
  if p.1.ioError (.client target) || p.1.serial (.client target) = p.1.currentSerial then p
  else sendLinebuf (stamp p (.client target)) (.client target)

/-- `sendto_common_channels_local`, with the `locmembers` of the channels of the user. -/
def sendtoCommonChannelsLocal (s : Server) (user : ClientId) (channels : List (List ClientId)) :
    Sending :=
  let p := channels.foldl (fun p locmembers => locmembers.foldl sendCommon p) (s.nextSerial, [])
  if p.1.myClient user && p.1.serial (.client user) ≠ p.1.currentSerial then
    sendLinebuf p (.client user) else p

/-! ### Receiving -/

/-- The values `CAN_SEND_NO`, `CAN_SEND_NONOP` and `CAN_SEND_OPV`. -/
inductive CanSend
  | no
  | nonop
  | opv
  deriving DecidableEq

/-- `is_chanop_voiced`. -/
def isChanopVoiced (msptr : Option Member) :
    Bool := msptr.any fun m => m.flags.chanop || m.flags.voice

/-- `can_send`, for a client. -/
def canSend (s : Server) (source : ClientId) : CanSend :=
  if s.myClient source && s.resvBlocks source then .no
  else if s.findMember source = none then if s.noprivmsgs || s.moderated then .no else .nonop
  else if isChanopVoiced (s.findMember source) then .opv
  else if s.moderated then .no
  else if s.myClient source && s.quieted source then .no
  else .nonop

/-- `flood_attack_channel`: only clients of the server are checked. -/
def floodAttackChannel (s : Server) (source : ClientId) : Bool := s.myClient source && s.flooded

/-- The server takes the message of a client. -/
def accepts (s : Server) (source : ClientId) (type : MsgType) : Bool :=
  decide (0 < s.maxTargets) &&
    if type = .all then
      canSend s source = .opv || (canSend s source = .nonop && !floodAttackChannel s source)
    else isChanopVoiced (s.findMember source)

/-- `m_message`, for a message from a connection with a channel as its target: `build_target_list`,
`msg_channel` and `msg_channel_flags`. -/
def mMessage (s : Server) (client_p : Conn) (source : ClientId) (type : MsgType) : Sending :=
  if accepts s source type then sendtoChannelFlags s client_p type else (s, [])

end Ratbox.Relay
