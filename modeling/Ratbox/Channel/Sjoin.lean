import Ratbox.Channel.RemoveModes
import Ratbox.Channel.Modes

/-!
# SJOIN

When servers link, each tells the other the channels it has: the time a channel was made, its
modes, and its members with their status. The older side wins. When the message is the older one,
the modes here and the status of the members here are dropped; when it is the younger one, its
modes and status are ignored; when both are as old as each other the modes are merged. The members
in the message join in each case, and the message goes on to the other servers.

Source: `modules/core/m_join.c`, lines 455–845 and 980–1112, and `src/client.c`, lines 1912–1924.

## Main definitions

* `Channel.Net`: what the function reads of the server.
* `Channel.readSjoin`: what a message says, when it is accepted.
* `Channel.resolve`: whose modes are kept.
* `Channel.takeModes`: what is done about the modes.
* `Channel.takeNicks`: the loop over the nicks.
* `Channel.msSjoin`: the function.

The bans, which are removed when the message wins, are not modelled, and neither are the notices
to operators.
-/

namespace Ratbox.Channel

open Text Dlink Run

/-! ### What the server knows -/

/-- The name of the server, whether it is built with `ENABLE_SERVICES`, and the tables
`HASH_CLIENT`, for names up to case, and `HASH_ID`. -/
structure Net where
  me : Str
  services : Bool
  hashClient : Str → Option ℕ
  hashId : Str → Option ℕ

/-- `find_client`. -/
def Net.findClient (net : Net) (name : Str) : Option ℕ :=
  match name with
  | [] => none
  | c :: _ => if isDigit c then net.hashId name else net.hashClient (name.map toUpper)

/-- `use_id`. -/
def Client.useId (u : Client) : Str := if u.id = [] then u.name else u.id

/-! ### What is sent -/

/-- A line `:source SJOIN channelts chname modes :nicks`. -/
structure SjoinLine where
  source : Str
  channelts : ℤ
  chname : Str
  modes : List Str
  nicks : List Str
  deriving DecidableEq

/-- What the function sends: to the local members of the channel the notice that its TS changed,
a line of modes without a client among their parameters, one of `+o` and `+v` or of `-o` and `-v`,
and the line of a client that joins; and to the servers with `CAP_TS6`, or those without, an
`SJOIN`. -/
inductive Out
  | notice (chname : Str) (oldts newts : ℤ)
  | simpleModes (source chname modebuf : Str) (para : List Str)
  | modes (line : ModeLine)
  | joined (client_p : ℕ) (chname : Str)
  | sjoin (ts6 : Bool) (line : SjoinLine)
  deriving DecidableEq

/-! ### Reading the message -/

/-- `IsChanChar`. -/
def isChanChar (c : Char) : Bool := c != '\x07' && c != ' ' && c != ','

/-- `check_channel_name`. -/
def checkChannelName (name : Str) : Bool := name.all isChanChar

/-- `IsChannelName`. -/
def isChannelName (name : Str) : Bool := name.head? == some '#' || name.head? == some '&'

/-- What a message says: its time, the channel, the first word of its modes and the modes as they
are read, and the nicks. -/
structure Sjoin where
  newts : ℤ
  chname : Str
  letters : Str
  mode : Mode
  nicks : Str
  deriving DecidableEq

/-- The checks of `ms_sjoin`, and what it reads of the parameters. -/
def readSjoin (services : Bool) (parv : List Str) : Option Sjoin :=
  match parv with
  | _ :: ts :: chname :: letters :: arg :: rest =>
    if arg = [] then none
    else if !isChannelName chname || !checkChannelName chname then none
    else if chname.head? = some '&' then none
    else
      match readModes services letters (arg :: rest) .empty with
      | some (mode, s :: _) =>
        let nicks := s.dropWhile (· == ' ')
        if nicks = [] then none else some ⟨atol ts, chname, letters, mode, nicks⟩
      | _ => none
  | _ => none

/-- The words that the loop over the nicks meets. -/
def words : Str → List Str
  | [] => []
  | c :: s =>
    if c = ' ' then [] :: words s
    else
      match words s with
      | [] => [[c]]
      | w :: ws => (c :: w) :: ws

/-! ### The modes -/

/-- The time of the channel after the message, and whose modes are kept. -/
structure Resolved where
  channelts : ℤ
  keepOurs : Bool
  keepNew : Bool
  deriving DecidableEq

/-- The comparison of the times. -/
def resolve (isnew : Bool) (oldts newts : ℤ) : Resolved :=
  if isnew then ⟨newts, true, true⟩
  else if newts = 0 ∨ oldts = 0 then ⟨0, true, true⟩
  else if newts = oldts then ⟨oldts, true, true⟩
  else if newts < oldts then ⟨newts, false, true⟩
  else ⟨oldts, true, false⟩

/-- The modes of the channel after the message. -/
def Resolved.mode (r : Resolved) (mode oldmode : Mode) : Mode :=
  if !r.keepNew then oldmode else if r.keepOurs then mode.merge oldmode else mode

/-- The letters in the order of `set_final_mode`. -/
def finalLetters (services : Bool) : List (Char × BitVec 32) :=
  [('n', modeNoPrivMsgs), ('t', modeTopicLimit), ('s', modeSecret), ('m', modeModerated),
    ('i', modeInviteOnly), ('p', modePrivate)] ++
    (if services then [('r', modeRegOnly)] else []) ++ [('S', modeSslOnly)]

/-- Append letters to a line of modes, after their sign where it is not the one before. -/
def putLetters (line : Str × Char) (sign : Char) (letters : Str) : Str × Char :=
  if letters = [] then line
  else if line.2 = sign then (line.1 ++ letters, sign)
  else (line.1 ++ sign :: letters, sign)

/-- `set_final_mode`: the line of the modes that change. -/
def setFinalMode (services : Bool) (source chname : Str) (mode oldmode : Mode) : List Out :=
  let letters := finalLetters services
  let offLimit := oldmode.limit ≠ 0 ∧ mode.limit = 0
  let offKey := oldmode.key ≠ [] ∧ mode.key = []
  let onLimit := mode.limit ≠ 0 ∧ oldmode.limit ≠ mode.limit
  let onKey := mode.key ≠ [] ∧ oldmode.key ≠ mode.key
  let line := putLetters ([], '=') '+' (lettersOf letters (mode.mode &&& ~~~oldmode.mode))
  let line := putLetters line '-' (lettersOf letters (oldmode.mode &&& ~~~mode.mode))
  let line := putLetters line '-' (if offLimit then ['l'] else [])
  let line := putLetters line '-' (if offKey then ['k'] else [])
  let line := putLetters line '+' (if onLimit then ['l'] else [])
  let line := putLetters line '+' (if onKey then ['k'] else [])
  let para := (if offKey then [oldmode.key] else []) ++
    (if onLimit then [decimal mode.limit] else []) ++ (if onKey then [mode.key] else [])
  if line.1 = [] then [] else [.simpleModes source chname line.1 para]

/-- Change a channel. -/
def World.updateChan (w : World) (c : Str) (f : Chan → Chan) : World :=
  { w with chan := Function.update w.chan c ((w.chan c).map f) }

/-- What is done about the time and the modes of the channel `c`, before the nicks are read. -/
def takeModes (net : Net) (w : World) (c : Str) (ch : Chan) (isnew : Bool) (source : Str)
    (msg : Sjoin) : World × List Out :=
  let oldts := ch.channelts
  let r := resolve isnew oldts msg.newts
  let toZero := if !isnew ∧ msg.newts = 0 ∧ oldts ≠ 0 then [.notice ch.chname oldts 0] else []
  let w := w.updateChan c fun ch => { ch with channelts := r.channelts }
  let mode := r.mode msg.mode ch.mode
  let (w, lost) :=
    if r.keepOurs then (w, [])
    else
      let (w, lines) := removeOurModes net.me w c
      (w, lines.map .modes ++ [.notice ch.chname oldts msg.newts])
  (w.updateChan c fun ch => { ch with mode := mode },
    toZero ++ lost ++ setFinalMode net.services source ch.chname mode ch.mode)

/-! ### The nicks -/

/-- `IDLEN`. -/
def idLen : ℕ := 10

/-- What does not change in the loop: the server the message came from, the channel, and the front
of the lines that are sent, of which `names` has the names and `uids` the ids. -/
structure Nicks where
  client_p : ℕ
  source : Str
  c : Str
  chname : Str
  arg : Str
  names : SjoinLine
  uids : SjoinLine
  keepNew : Bool

/-- What stands in front of the nicks. -/
def SjoinLine.front (l : SjoinLine) : Str :=
  ':' :: l.source ++ " SJOIN ".toList ++ decimal l.channelts ++ ' ' :: l.chname ++
    ' ' :: [' '].intercalate l.modes ++ " :".toList

/-- The line that is sent. Its last character is cut off, which is the space behind the last nick;
on a line without nicks it is the colon. -/
def SjoinLine.text (l : SjoinLine) : Str :=
  if l.nicks = [] then l.front.dropLast else l.front ++ [' '].intercalate l.nicks

/-- The length of the front of a line, `mlen_nick` or `mlen_uid`. -/
def SjoinLine.mlen (l : SjoinLine) : ℕ := l.front.length

/-- The length of the nicks on a line, with a space behind each: `len_nick` or `len_uid`. -/
def SjoinLine.len (l : SjoinLine) : ℕ := (l.nicks.map fun s => s.length + 1).sum

/-- The line has no room for a nick of `size` bytes with its status. -/
def SjoinLine.Full (l : SjoinLine) (size : ℕ) : Prop :=
  l.mlen + l.len + size + 3 > ircdBufsize - 3

instance (l : SjoinLine) (size : ℕ) : Decidable (l.Full size) :=
  inferInstanceAs (Decidable (_ > _))

/-- A line that is being filled, in `buf_nick` or `buf_uid`. When it is sent without nicks, the NUL
over its colon stays there, and hides the nicks that are put behind it later. -/
structure NickBuf extends SjoinLine where
  cut : Bool
  deriving DecidableEq

/-- The line as it is sent. -/
def NickBuf.sent (l : NickBuf) : SjoinLine :=
  if l.cut then { l.toSjoinLine with nicks := [] } else l.toSjoinLine

/-- The locals that change: the memory, the number of joins, the line in `modebuf` and `para`, and
the lines in `buf_nick` and `buf_uid`; and what was sent. -/
structure Joining where
  w : World
  joins : ℕ
  line : List (Char × ℕ)
  names : NickBuf
  uids : NickBuf
  out : List Out

/-- Send a line that is full, and begin another. -/
def makeRoom (ts6 : Bool) (size : ℕ) (l : NickBuf) : NickBuf × List Out :=
  if l.Full size then
    ({ l with nicks := [], cut := l.cut || l.nicks.isEmpty }, [.sjoin ts6 l.sent])
  else (l, [])

/-- The characters in front of a nick. -/
def statusPrefix (fl : MemberFlags) : Str :=
  (if fl.chanop then ['@'] else []) ++ (if fl.voice then ['+'] else [])

/-- Put a nick on both lines. -/
def Joining.copyNick (k : Nicks) (st : Joining) (target_p : ℕ) (fl : MemberFlags) : Joining :=
  let status := if k.keepNew then statusPrefix fl else []
  let (names, out₁) := makeRoom false nickLen st.names
  let (uids, out₂) := makeRoom true idLen st.uids
  { st with
    names := { names with nicks := names.nicks ++ [status ++ (st.w.client target_p).name] }
    uids := { uids with nicks := uids.nicks ++ [status ++ (st.w.client target_p).useId] }
    out := st.out ++ out₁ ++ out₂ }

/-- The status that a client gets. -/
def Nicks.status (k : Nicks) (fl : MemberFlags) : MemberFlags :=
  if k.keepNew then fl else ⟨false, false, fl.chanop⟩

/-- Add a client that is not a member. -/
def Joining.join (k : Nicks) (st : Joining) (target_p : ℕ) (fl : MemberFlags) : Joining :=
  if (findChannelMembership st.w k.c target_p).isSome then st
  else { st with
    w := addUserToChannel st.w k.c target_p fl
    joins := st.joins + 1
    out := st.out ++ [.joined target_p k.arg] }

/-- Send the line of modes when it is full. -/
def Joining.flush (k : Nicks) (st : Joining) : Joining :=
  if st.line.length ≥ maxModeParams then
    { st with line := [], out := st.out ++ [.modes ⟨k.source, k.chname, '+', st.line⟩] }
  else st

/-- Put a letter and its parameter on the line of modes. -/
def Joining.put (st : Joining) (letter : Char) (target_p : ℕ) : Joining :=
  { st with line := st.line ++ [(letter, target_p)] }

/-- Announce the status of a client. -/
def Joining.announce (k : Nicks) (st : Joining) (target_p : ℕ) (fl : MemberFlags) : Joining :=
  let st :=
    if fl.chanop then
      let st := st.put 'o' target_p
      if fl.voice then (st.flush k).put 'v' target_p else st
    else if fl.voice then st.put 'v' target_p
    else st
  st.flush k

/-- A character that may stand in front of a nick. -/
def takePrefix (s : Str) (fl : MemberFlags) : Str × MemberFlags :=
  match s with
  | '@' :: s => (s, { fl with chanop := true })
  | '+' :: s => (s, { fl with voice := true })
  | s => (s, fl)

/-- The client that a word names and the status in front of its name; none where the client does
not exist, is behind another server or is not a user. -/
def named (net : Net) (client : ℕ → Client) (client_p : ℕ) (s : Str) :
    Option (ℕ × MemberFlags) :=
  let (s, fl) := takePrefix s .peon
  let (s, fl) := takePrefix s fl
  match net.findClient s with
  | none => none
  | some target_p =>
    if (client target_p).fromLink ≠ client_p ∨ !(client target_p).kind.isClient then none
    else some (target_p, fl)

/-- The body of the loop, for a client that is named. -/
def Joining.take (k : Nicks) (st : Joining) (p : ℕ × MemberFlags) : Joining :=
  let fl := k.status p.2
  (((st.copyNick k p.1 p.2).join k p.1 fl).announce k p.1 fl)

/-- The body of the loop. -/
def Joining.turn (net : Net) (k : Nicks) (st : Joining) (s : Str) : Joining :=
  match named net st.w.client k.client_p s with
  | none => st
  | some p => st.take k p

/-- The loop over the nicks, and the line of modes after it. -/
def takeNicks (net : Net) (k : Nicks) (w : World) (nicks : Str) : Joining :=
  let st := (words nicks).foldl (Joining.turn net k) ⟨w, 0, [], ⟨k.names, false⟩, ⟨k.uids, false⟩,
    []⟩
  if st.line = [] then st
  else { st with line := [], out := st.out ++ [.modes ⟨k.source, k.chname, '+', st.line⟩] }

/-! ### The function -/

/-- The word that is sent instead of modes. -/
def emptyModes : List Str := [['0']]

/-- What the loop is called with. -/
def nicksOf (net : Net) (w : World) (c : Str) (ch : Chan) (isnew : Bool) (client_p source_p : ℕ)
    (msg : Sjoin) : Nicks :=
  let r := resolve isnew ch.channelts msg.newts
  let source := w.client source_p
  let shown := !source.kind.myClient || (findChannelMembership w c source_p).isSome
  let modes :=
    if msg.letters.head? ≠ some '0' ∧ r.keepNew then
      channelModes net.services (r.mode msg.mode ch.mode) shown
    else emptyModes
  { client_p := client_p
    source := source.name
    c := c
    chname := ch.chname
    arg := msg.chname
    names := ⟨source.name, r.channelts, msg.chname, modes, []⟩
    uids := ⟨source.useId, r.channelts, msg.chname, modes, []⟩
    keepNew := r.keepNew }

/-- `ms_sjoin`, for a message from the server `source_p` that came over the link of `client_p` at
the time `now`: the memory after it, and what is sent. -/
def msSjoin (net : Net) (now : ℤ) (w : World) (client_p source_p : ℕ) (parv : List Str) :
    World × List Out :=
  match readSjoin net.services parv with
  | none => (w, [])
  | some msg =>
    match getOrCreateChannel w msg.chname now with
    | none => (w, [])
    | some (w, c, isnew) =>
      match w.chan c with
      | none => (w, [])
      | some ch =>
        let (w, out) := takeModes net w c ch isnew (w.client source_p).name msg
        let st := takeNicks net (nicksOf net w c ch isnew client_p source_p msg) w msg.nicks
        if st.joins = 0 then (if isnew then destroyChannel st.w c else st.w, out ++ st.out)
        else (st.w, out ++ st.out ++ [.sjoin true st.uids.sent, .sjoin false st.names.sent])

/-! ### A small network -/

/-- The server 0 and the users 1 and 2 behind it. -/
def behindServer (u : ℕ) : Client :=
  { kind := if u = 0 then .server else .remoteUser
    name := if u = 1 then ['a'] else ['b']
    id := [], username := [], host := [], fromLink := 0, channel := .empty }

/-- A server that knows the users 1 and 2. -/
def smallNet : Net where
  me := ['m']
  services := false
  hashClient s := if s = ['A'] then some 1 else if s = ['B'] then some 2 else none
  hashId _ := none

/-- The memory of a server on which the user 1 is in a channel, without status. -/
def oneMember : World :=
  addUserToChannel ((World.init behindServer).setChan ['#'] (.fresh ['#'] 5)) ['#'] 1 .peon

end Ratbox.Channel
