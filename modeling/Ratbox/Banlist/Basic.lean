import Ratbox.Channel.Sjoin
import Ratbox.Hostmask.Case

/-!
# The ban lists of channels

A channel has a list of bans and one of exceptions, and a serial number that goes up when one of
them changes. Whether a member is banned is kept in its membership, with the serial number it was
found out at, and `can_send` uses that as long as the number is the one of the channel.

Source: `src/channel.c`, lines 77–305 and 483–644, `modules/core/m_mode.c`, lines 394–493,
`modules/core/m_join.c`, lines 835–853 and 1216–1278, `modules/core/m_nick.c`, lines 628–770, and
`src/match.c`, lines 420–495.

## Main definitions

* `Banlist.isBanned`, `Banlist.canSend`: `is_banned` and `can_send`.
* `Banlist.addId`, `Banlist.delId`, `Banlist.removeBanLists`: the changes of the lists.
* `Banlist.step`: joining, leaving, and changing lists and nicks.
-/

namespace Ratbox.Banlist

open Text Address Match Channel

/-! ### Masks -/

/-- `BANLEN`. -/
def banLen : ℕ := nickLen + userLen + hostLen + 6

/-- The text in front of the last character of a kind, which `strrchr` finds, and the text behind
it. -/
def splitLast (c : Char) (s : Str) : Option (Str × Str) :=
  if c ∈ s then
    some (((s.reverse.dropWhile (· != c)).drop 1).reverse, (s.reverse.takeWhile (· != c)).reverse)
  else none

/-- What `match_cidr` compares for addresses of a family: the address with a mask of `cidrlen` bits,
and the rest of the texts. -/
def cidrMatches (family : Family) (cidrlen : ℤ) (ip ipmask mask address : Str) : Bool :=
  if (family.bits : ℤ) < cidrlen then false
  else
    match inetPton family ip, inetPton family ipmask with
    | some addr, some dest =>
      Patricia.compWithMask (Ip.bytes ⟨family, addr⟩) (Ip.bytes ⟨family, dest⟩) cidrlen.toNat &&
        matchMask mask address
    | _, _ => false

/-- `match_cidr`. -/
def matchCidr (s1 s2 : Str) : Bool :=
  match splitLast '@' (strlcpy s1 ircdBufsize), splitLast '@' (strlcpy s2 banLen) with
  | some (mask, ipmask), some (address, ip) =>
    match splitLast '/' ipmask with
    | none => false
    | some (ipmask, len) =>
      if atoi len ≤ 0 then false
      else if ':' ∈ ip ∧ ':' ∈ ipmask then cidrMatches .inet6 (atoi len) ip ipmask mask address
      else if ':' ∉ ip ∧ ':' ∉ ipmask then cidrMatches .inet (atoi len) ip ipmask mask address
      else false
  | _, _ => false

/-! ### The structures -/

/-- What is read of `struct Client`. -/
structure User where
  kind : Kind
  name : Str
  username : Str
  host : Str
  sockhost : Str
  oper : Bool
  exemptResv : Bool
  deriving DecidableEq

/-- `struct membership`, with the flag `CHFL_BANNED` on its own. -/
structure Membership where
  client_p : ℕ
  flags : MemberFlags
  banned : Bool
  banSerial : ℕ
  deriving DecidableEq

/-- `struct Channel`. -/
structure Chan where
  chname : Str
  mode : BitVec 32
  members : List Membership
  banlist : List Str
  exceptlist : List Str
  invexlist : List Str
  banSerial : ℕ
  deriving DecidableEq

/-- A channel as `rb_malloc` makes it, but for its name. -/
def Chan.fresh (chname : Str) : Chan := ⟨chname, 0, [], [], [], [], 0⟩

/-- The types `CHFL_BAN`, `CHFL_EXCEPTION` and `CHFL_INVEX` of lists. -/
inductive ModeType
  | ban
  | exception
  | invex
  deriving DecidableEq

/-- The list of a type. -/
def Chan.list (ch : Chan) : ModeType → List Str
  | .ban => ch.banlist
  | .exception => ch.exceptlist
  | .invex => ch.invexlist

/-- Write the list of a type. -/
def Chan.setList (ch : Chan) (l : List Str) : ModeType → Chan
  | .ban => { ch with banlist := l }
  | .exception => { ch with exceptlist := l }
  | .invex => { ch with invexlist := l }

/-- `chptr->ban_serial++`, for bans and exceptions. -/
def Chan.bumpFor (ch : Chan) (type : ModeType) : Chan :=
  if type = .ban ∨ type = .exception then { ch with banSerial := (ch.banSerial + 1) % 2 ^ 32 }
    else ch

/-- The settings, and the reserved channel names. -/
structure Conf where
  useExcept : Bool
  quietOnBan : Bool
  maxBans : ℕ
  findResv : Str → Bool

/-! ### Being banned -/

/-- What `is_banned` returns: 0, `CHFL_BAN` or `CHFL_EXCEPTION`. -/
inductive Verdict
  | notBanned
  | ban
  | exception
  deriving DecidableEq

/-- `snprintf` of the nick, user name and host of a client into an array. -/
def prefixOf (who : User) (host : Str) : Str :=
  strlcpy (who.name ++ '!' :: who.username ++ '@' :: host) banLen

/-- The mask of a ban or an exception matches. -/
def hits (s s2 banstr : Str) :
    Bool := matchMask banstr s || matchMask banstr s2 || matchCidr banstr s2

/-- `is_banned` on the lists, with its buffers. -/
def verdict (conf : Conf) (ch : Chan) (s s2 : Str) : Verdict :=
  if ch.banlist.any (hits s s2) then
    if conf.useExcept && ch.exceptlist.any (hits s s2) then .exception else .ban
  else .notBanned

/-- The status that is kept. -/
def Membership.keep (ms : Membership) (ch : Chan) (v : Verdict) : Membership :=
  { ms with banSerial := ch.banSerial, banned := v = .ban }

/-- `is_banned`: what it returns, and the membership after it. The buffers are built when they are
not given. -/
def isBanned (conf : Conf) (ch : Chan) (who : User) (msptr : Option Membership)
    (bufs : Option (Str × Str)) :
    Verdict × Option Membership :=
  if !who.kind.myClient then (.notBanned, msptr)
  else
    let (s, s2) := bufs.getD (prefixOf who who.host, prefixOf who who.sockhost)
    let v := verdict conf ch s s2
    (v, msptr.map fun ms => ms.keep ch v)

/-- What `can_send` returns. -/
inductive CanSend
  | no
  | nonop
  | opv
  deriving DecidableEq

/-- `can_send`, with the membership that is given or found: what it returns, and the membership
after it. -/
def canSend (conf : Conf) (ch : Chan) (source_p : User) (msptr : Option Membership) :
    CanSend × Option Membership :=
  if source_p.kind = .server then (.opv, msptr)
  else if source_p.kind.myClient && conf.findResv ch.chname && !source_p.oper &&
    !source_p.exemptResv then
    (.no, msptr)
  else
    match msptr with
    | none => (if ch.mode.getLsbD 5 || ch.mode.getLsbD 2 then .no else .nonop, none)
    | some ms =>
      if ms.flags.chanop || ms.flags.voice then (.opv, some ms)
      else if ch.mode.getLsbD 2 then (.no, some ms)
      else if conf.quietOnBan && source_p.kind.myClient then
        if ms.banSerial = ch.banSerial then (if ms.banned then .no else .nonop, some ms)
        else
          let (v, msptr) := isBanned conf ch source_p (some ms) none
          (if v = .ban then .no else .nonop, msptr)
      else (.nonop, some ms)

/-! ### Changing the lists -/

/-- `add_id`: whether the mask was added, and the channel after it. -/
def addId (conf : Conf) (source_p : User) (ch : Chan) (banid : Str) (type : ModeType) :
    Bool × Chan :=
  let refused :=
    if source_p.kind.myClient then
      conf.maxBans ≤ ch.banlist.length + ch.exceptlist.length + ch.invexlist.length ||
        (ch.list type).any fun banstr => maskMatch banstr banid
    else (ch.list type).any fun banstr => irccmp banstr banid
  if refused then (false, ch)
  else (true, (ch.setList (strlcpy banid banLen :: ch.list type) type).bumpFor type)

/-- `del_id`: whether a mask was removed, and the channel after it. -/
def delId (ch : Chan) (banid : Str) (type : ModeType) : Bool × Chan :=
  if banid = [] then (false, ch)
  else if (ch.list type).any (irccmp banid) then
    (true, (ch.setList ((ch.list type).eraseP (irccmp banid)) type).bumpFor type)
  else (false, ch)

/-- The end of `ms_sjoin`: where our modes are not kept, and the source has an id, `remove_ban_list`
is called for the three lists. -/
def removeBanLists (ch : Chan) (keepOurModes : Bool) (id : Str) : Chan :=
  if !keepOurModes && id != [] then
    { ch with
      banlist := [], exceptlist := [], invexlist := [], banSerial := (ch.banSerial + 1) % 2 ^ 32 }
  else ch

/-! ### Members -/

/-- `add_user_to_channel`. A membership is zeroed before it is written. -/
def Chan.addUser (ch : Chan) (client_p : ℕ) (flags : MemberFlags) : Chan :=
  { ch with members := ⟨client_p, flags, false, 0⟩ :: ch.members }

/-- `find_channel_membership`. -/
def Chan.findMembership (ch : Chan) (client_p : ℕ) : Option Membership :=
  ch.members.find? (·.client_p = client_p)

/-- A membership is taken off the list of its channel. -/
def Chan.removeUser (ch : Chan) (client_p : ℕ) : Chan :=
  { ch with members := ch.members.filter (·.client_p ≠ client_p) }

/-- A membership is written. -/
def Chan.setMembership (ch : Chan) (ms : Membership) : Chan :=
  { ch with members := ch.members.map fun ms' => if ms'.client_p = ms.client_p then ms else ms' }

/-- What `invalidate_bancache_user` does to a membership. -/
def Membership.invalidate (ms : Membership) : Membership :=
  { ms with banSerial := 0, banned := false }

/-- The memberships of a client are invalidated. -/
def Chan.invalidate (ch : Chan) (client_p : ℕ) : Chan :=
  { ch with members := ch.members.map fun ms => if ms.client_p = client_p then ms.invalidate
    else ms }

/-- The clients, and the channels by name. -/
structure State where
  client : ℕ → User
  chan : Str → Option Chan

/-- Write a channel. A channel without members is destroyed. -/
def State.setChan (s : State) (c : Str) (ch : Chan) : State :=
  { s with chan := Function.update s.chan c (if ch.members = [] then none else some ch) }

/-- Write the nick of a client. -/
def State.setNick (s : State) (client_p : ℕ) (nick : Str) : State :=
  { s with client := Function.update s.client client_p { s.client client_p with name := nick } }

/-- `change_local_nick`, where the nick is changed. -/
def changeLocalNick (s : State) (source_p : ℕ) (nick : Str) : State :=
  let samenick := irccmp (s.client source_p).name nick
  let s := if samenick then s else { s with chan := fun c => (s.chan c).map (·.invalidate source_p)
    }
  s.setNick source_p nick

/-- `change_remote_nick`. -/
def changeRemoteNick (s : State) (source_p : ℕ) (nick : Str) : State := s.setNick source_p nick

/-! ### Steps -/

/-- What happens to channels and clients. -/
inductive Op
  | join (chname : Str) (client_p : ℕ) (flags : MemberFlags)
  | part (chptr : Str) (client_p : ℕ)
  | quit (client_p : ℕ)
  | addId (source_p : ℕ) (chptr : Str) (banid : Str) (type : ModeType)
  | delId (chptr : Str) (banid : Str) (type : ModeType)
  | sjoin (chname : Str) (joins : List (ℕ × MemberFlags)) (keepOurModes : Bool) (id : Str)
  | nick (source_p : ℕ) (nick : Str)
  | canSend (chptr : Str) (source_p : ℕ)

/-- A client joins a channel, if it is a client and no member yet. -/
def joinOne (s : State) (ch : Chan) (p : ℕ × MemberFlags) : Chan :=
  if (s.client p.1).kind.isClient ∧ ch.findMembership p.1 = none then ch.addUser p.1 p.2 else ch

/-- A step, where the channel that is named exists, or is made by joining it. -/
def step (conf : Conf) (s : State) : Op → Option State
  | .join c client_p flags =>
    let ch := (s.chan c).getD (.fresh c)
    some (s.setChan c (joinOne s ch (client_p, flags)))
  | .part c client_p => (s.chan c).map fun ch => s.setChan c (ch.removeUser client_p)
  | .quit client_p => some
    { s with chan := fun c => (s.chan c).bind fun ch =>
        if (ch.removeUser client_p).members = [] then none else some (ch.removeUser client_p) }
  | .addId source_p c banid type =>
    (s.chan c).map fun ch => s.setChan c (addId conf (s.client source_p) ch banid type).2
  | .delId c banid type => (s.chan c).map fun ch => s.setChan c (delId ch banid type).2
  | .sjoin c joins keepOurModes id =>
    let old := (s.chan c).getD (.fresh c)
    let ch := joins.foldl (joinOne s) old
    some (s.setChan c (if ch.members.length = old.members.length then ch
      else removeBanLists ch keepOurModes id))
  | .nick source_p nick =>
    some (if (s.client source_p).kind.myClient then changeLocalNick s source_p nick
      else changeRemoteNick s source_p nick)
  | .canSend c source_p => (s.chan c).map fun ch =>
    match (canSend conf ch (s.client source_p) (ch.findMembership source_p)).2 with
    | none => s
    | some ms => s.setChan c (ch.setMembership ms)

/-- No channels yet. -/
def start (client : ℕ → User) : State := ⟨client, fun _ => none⟩

end Ratbox.Banlist
