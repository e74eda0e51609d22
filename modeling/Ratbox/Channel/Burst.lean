import Ratbox.Banlist.Lists
import Ratbox.Channel.Joining
import Ratbox.Words

/-!
# The burst of a channel

When servers link, each sends the channels it has: the members with their status on lines with
`SJOIN`, behind the time and the modes of the channel, and the masks of its three lists on lines
with `BMASK`. A line that is full is sent, and another one is begun with the same front.

Source: `modules/core/m_server.c`, lines 840–893 and 1079–1134, `modules/core/m_mode.c`, lines
252–448, `modules/core/m_join.c`, lines 793–853, and `src/parse.c`, lines 60–205 and 248–292.

## Main definitions

* `Burst.burstChannel`: the lines that `burst_TS6` sends for a channel.
* `Burst.parse`: a line is taken apart.
* `Burst.Peer.receive`: what a server does about a line.

The topic and what the hooks send are left out, and so is what the other server passes on.
-/

namespace Ratbox.Burst

open Text Channel Function
open Banlist (ModeType banLen modebufLen)

/-! ### What is sent -/

/-- The lists `banlist`, `exceptlist` and `invexlist` of a channel. -/
abbrev Lists := ModeType → List Str

/-- Whether the link has the capabilities `CAP_EX` and `CAP_IE`. -/
structure Caps where
  ex : Bool
  ie : Bool
  deriving DecidableEq

/-- A buffer behind its front: the lines that were sent from it, and what is in it. -/
structure Buf where
  sent : List Str
  body : Str
  deriving DecidableEq

/-- The trailing space is chopped off, and the buffer is sent. -/
def Buf.send (front : Str) (buf : Buf) : Buf := ⟨buf.sent ++ [(front ++ buf.body).dropLast], []⟩

/-- A word is printed with a space behind it. -/
def Buf.print (buf : Buf) (s : Str) : Buf := { buf with body := buf.body ++ (s ++ [' ']) }

/-- The body of the loop of `burst_TS6` over the members. -/
def putMember (front : Str) (buf : Buf) (word : Str) : Buf :=
  let tlen := word.length + 1
  let buf := if front.length + buf.body.length + tlen ≥ ircdBufsize - 3 then buf.send front else buf
  buf.print word

/-- The body of the loop of `burst_modes_TS6`. -/
def putMask (front : Str) (buf : Buf) (banstr : Str) : Buf :=
  let tlen := banstr.length + 1
  if front.length + buf.body.length + tlen > ircdBufsize - 3 then
    -- a mask that fits on no line is left out
    if buf.body.length = 0 then buf else (buf.send front).print banstr
  else buf.print banstr

/-- The front of the lines with `SJOIN`. -/
def sjoinFront (services : Bool) (id : Str) (ch : Chan) : Str :=
  ':' :: id ++ " SJOIN ".toList ++ decimal ch.channelts ++ ' ' :: ch.chname ++
    ' ' :: [' '].intercalate (channelModes services ch.mode true) ++ " :".toList

/-- The front of the lines with `BMASK`. -/
def bmaskFront (id : Str) (ch : Chan) (flag : Char) : Str :=
  ':' :: id ++ " BMASK ".toList ++ decimal ch.channelts ++ ' ' :: ch.chname ++
    ' ' :: flag :: " :".toList

/-- The word for a member. -/
def memberWord (client : ℕ → Client) (ms : Membership) : Str :=
  statusPrefix ms.flags ++ (client ms.client_p).useId

/-- The memberships of a channel, in the order of the loops. -/
def memberships (w : World) (c : Str) : List Membership :=
  (listOf w c .noop ++ listOf w c .op).filterMap w.mem

/-- The lines with the members. -/
def burstMembers (services : Bool) (id : Str) (w : World) (c : Str) (ch : Chan) : List Str :=
  let front := sjoinFront services id ch
  ((((memberships w c).map (memberWord w.client)).foldl (putMember front) ⟨[], []⟩).send front).sent

/-- `burst_modes_TS6`. -/
def burstModes (id : Str) (ch : Chan) (list : List Str) (flag : Char) : List Str :=
  let front := bmaskFront id ch flag
  ((list.foldl (putMask front) ⟨[], []⟩).send front).sent

/-- The character of a list. -/
def flagOf : ModeType → Char
  | .ban => 'b'
  | .exception => 'e'
  | .invex => 'I'

/-- The link has the capability that a list needs. -/
def Caps.has (caps : Caps) : ModeType → Bool
  | .ban => true
  | .exception => caps.ex
  | .invex => caps.ie

/-- The call of `burst_modes_TS6` for a list. -/
def burstList (caps : Caps) (id : Str) (ch : Chan) (lists : Lists) (type : ModeType) : List Str :=
  if caps.has type ∧ lists type ≠ [] then burstModes id ch (lists type) (flagOf type) else []

/-- The body of the loop of `burst_TS6` over the channels. -/
def burstChannel (services : Bool) (id : Str) (caps : Caps) (w : World) (lists : Lists) (c : Str) :
    List Str :=
  match w.chan c with
  | none => []
  | some ch =>
    if chanMemberCount ch = 0 ∨ ch.chname.head? ≠ some '#' then []
    else
      burstMembers services id w c ch ++ burstList caps id ch lists .ban ++ burstList caps id ch
        lists .exception ++ burstList caps id ch lists .invex

/-! ### What is received -/

/-- `MAXPARA`. -/
def maxpara : ℕ := 15

/-- `parse`: the sender, the command and the parameters of a line. -/
def parse (pbuffer : Str) : Option (Option Str × Str × List Str) :=
  let ch := pbuffer.dropWhile (· == ' ')
  let (sender, ch) :=
    if ch.head? = some ':' then
      let ch := ch.tail
      let s := if ' ' ∈ ch then (ch.dropWhile (· != ' ')).tail else ch
      (some (ch.takeWhile (· != ' ')), s.dropWhile (· == ' '))
    else (none, ch)
  if ch = [] then none
  else some (sender, ch.takeWhile (· != ' '), stringToArray maxpara (ch.dropWhile (· != ' ')).tail)

/-- Another server: its clients and channels, and the lists of the channels. -/
structure Peer where
  w : World
  lists : Str → Lists

/-- A client has joined. -/
def isJoined : Out → Bool
  | .joined _ _ => true
  | _ => false

/-- `ms_sjoin`, with the lists: a channel that is made has none, and where our modes are not kept
`remove_ban_list` is called for each of them, if somebody has joined and the source has an id. -/
def Peer.sjoin (net : Net) (now : ℤ) (p : Peer) (client_p source_p : ℕ) (parv : List Str) : Peer :=
  let (w, out) := msSjoin net now p.w client_p source_p parv
  match readSjoin net.services parv with
  | none => { p with w := w }
  | some msg =>
    let lost := !(resolvedFor p.w msg now).keepOurs && out.any isJoined &&
      (p.w.client source_p).id != []
    if (chanFor p.w msg now).2 || lost then
      ⟨w, update p.lists (chanPtr p.w msg.chname) fun _ => []⟩
    else { p with w := w }

/-- `add_id`, for a mask from another server. -/
def addRemoteId (list : List Str) (banid : Str) : List Str :=
  if list.any fun banstr => irccmp banstr banid then list else strlcpy banid banLen :: list

/-- The loop of `ms_bmask` over the masks. -/
def addMasks : List Str → List Str → List Str
  | list, [] => list
  | list, s :: masks =>
    if s.head? = some ':' then addMasks list masks
    else if s.length > modebufLen then list
    else addMasks (addRemoteId list s) masks

/-- The list that a parameter names. -/
def typeOf : Str → Option ModeType
  | 'b' :: _ => some .ban
  | 'e' :: _ => some .exception
  | 'I' :: _ => some .invex
  | _ => none

/-- `ms_bmask`. -/
def Peer.bmask (p : Peer) (parv : List Str) : Peer :=
  match parv with
  | _ :: ts :: chname :: flag :: masks :: _ =>
    if !isChannelName chname || !checkChannelName chname then p
    else
      match findChannel p.w chname, typeOf flag with
      | some chptr, some type =>
        if (p.w.chan chptr).all fun ch => ch.channelts < atol ts then p
        else
          let lists := p.lists chptr
          let list := addMasks (lists type) ((words masks).filter (· ≠ []))
          { p with lists := update p.lists chptr (update lists type list) }
      | _, _ => p
  | _ => p

/-- The client that a line comes from. -/
def senderOf (net : Net) (client_p : ℕ) : Option Str → Option ℕ
  | none => some client_p
  | some [] => some client_p
  | some name => net.findClient name

/-- A line comes over the link of the server `client_p`, at the time `now`. -/
def Peer.receive (net : Net) (now : ℤ) (client_p : ℕ) (p : Peer) (line : Str) : Peer :=
  match parse line with
  | none => p
  | some (sender, command, para) =>
    match senderOf net client_p sender with
    | none => p
    | some source_p =>
      let source := p.w.client source_p
      if source.fromLink ≠ client_p then p
      else if irccmp command "SJOIN".toList then p.sjoin net now client_p source_p (source.name ::
        para)
      else if irccmp command "BMASK".toList then p.bmask (source.name :: para)
      else p

end Ratbox.Burst
