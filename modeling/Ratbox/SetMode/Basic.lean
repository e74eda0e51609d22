import Ratbox.Channel.Burst

/-!
# Setting the modes of a channel

A MODE line gives letters, with signs between them, and parameters that the letters use up in turn.
Each letter has a function that changes the channel and puts down what it has changed. The masks of
a line are written behind each other into one buffer, and when there is no room for a mask,
`pretty_mask` returns no pointer and `chm_ban` takes the length of what it returns.

Source: `modules/core/m_mode.c`, lines 60–175, 394–493, 633–1423 and 1425–1470, `src/channel.c`,
lines 307–327, and `include/channel.h`, lines 100–166.

## Main definitions

* `SetMode.ChModeChange`, `SetMode.Setting`: a change that was made, and what `set_channel_mode`
  works on.
* `SetMode.chmBan`, `SetMode.chmOp` and so on: the functions of the letters.
* `SetMode.step`: the body of the loop over the letters.
* `SetMode.received`: what a MODE line leads to.

Who set a mask and when is left out, and so are the texts of the numerics.
-/

namespace Ratbox.SetMode

open Text
open Channel (Kind MemberFlags keyLen channelLen idLen maxModeParams isChannelName checkChannelName)
open Channel (modePrivate modeSecret modeModerated modeTopicLimit modeInviteOnly modeNoPrivMsgs
  modeRegOnly modeSslOnly)
open Banlist (ModeType Membership prettyMask modebufLen)

/-! ### The structures -/

/-- `MODE_QUERY`, `MODE_ADD` and `MODE_DEL`. -/
inductive Dir
  | query
  | add
  | del
  deriving DecidableEq

theorem Dir.add_ne_query : Dir.add ≠ .query := Dir.noConfusion

theorem Dir.del_ne_query : Dir.del ≠ .query := Dir.noConfusion

theorem Dir.del_ne_add : Dir.del ≠ .add := Dir.noConfusion

/-- `ALL_MEMBERS`, `ONLY_CHANOPS` and `ONLY_SERVERS`. -/
inductive Mems
  | allMembers
  | onlyChanops
  | onlyServers
  deriving DecidableEq

/-- `CAP_EX` and so on. -/
def capEx : BitVec 32 := 0x00004
@[inherit_doc capEx] def capIe : BitVec 32 := 0x00010
@[inherit_doc capEx] def capTs6 : BitVec 32 := 0x08000
@[inherit_doc capEx] def capService : BitVec 32 := 0x10000

/-- The flags `SM_ERR_NOOPS` and so on of errors that a client is told once. -/
def smErrNoops : BitVec 32 := 0x002
@[inherit_doc smErrNoops] def smErrUnknown : BitVec 32 := 0x004
@[inherit_doc smErrNoops] def smErrNotOnChannel : BitVec 32 := 0x040

/-- `SM_ERR_RPL_B`, `SM_ERR_RPL_E` and `SM_ERR_RPL_I`. -/
def smErrRpl : ModeType → BitVec 32
  | .ban => 0x010
  | .exception => 0x020
  | .invex => 0x100

/-- What `arg` points to: a text, or one of the arrays `limitstr` and `chptr->mode.key`, which may
be written again. -/
inductive Arg
  | text (s : Str)
  | limitstr
  | key
  deriving DecidableEq

/-- `struct ChModeChange`, but for the client, which is not read. -/
structure ChModeChange where
  letter : Char
  arg : Option Arg
  id : Option Str
  dir : Dir
  caps : BitVec 32
  nocaps : BitVec 32
  mems : Mems
  deriving DecidableEq

/-- What is read of `struct Client`. The texts fit their arrays. -/
structure Client extends Banlist.User where
  id : Str
  service : Bool
  operSpy : Bool
  name_le : name.length ≤ hostLen
  username_le : username.length ≤ userLen
  host_le : host.length ≤ hostLen
  id_le : id.length ≤ idLen

/-- `struct Channel`, with the limit and the key. The time is a `long`. -/
structure Chan extends Banlist.Chan where
  limit : ℤ
  key : Str
  channelts : ℤ
  key_lt : key.length < keyLen
  chname_le : chname.length ≤ channelLen
  channelts_long : -2 ^ 63 ≤ channelts ∧ channelts < 2 ^ 63

/-- What a client is told. -/
inductive Reply
  | unknownMode (c : Char)
  | chanOpPrivsNeeded (chname : Str)
  | banList (type : ModeType) (chname banstr : Str)
  | endOfBanList (type : ModeType) (chname : Str)
  | banListFull (chname banid : Str)
  | noSuchNick (nick : Str)
  | userNotInChannel (nick chname : Str)
  | isChanService (nick chname : Str)
  deriving DecidableEq

/-- The settings, with `services` for `ENABLE_SERVICES`, what `find_chasing` and `find_channel`
find, the number of servers, and how many of them have each combination of capabilities. -/
structure Env where
  conf : Banlist.Conf
  useInvex : Bool
  useSslonly : Bool
  services : Bool
  client : ℕ → Client
  findChasing : Str → Option ℕ
  findChannel : Str → Option Chan
  servers : ℕ
  comboCount : ℕ → ℕ

/-- What `set_channel_mode` works on: the channel, its locals, the static variables of the module,
where `maskBuf` has the texts in `mask_buf`, and what the client was told. -/
structure Setting where
  ch : Chan
  parn : ℕ
  errors : BitVec 32
  dir : Dir
  changes : List ChModeChange
  modeLimit : ℕ
  maskBuf : List Str
  limitstr : Str
  replies : List Reply

namespace Chan

/-- Write the lists, with the serial number. -/
def setLists (ch : Chan) (lists : Banlist.Chan) : Chan :=
  { ch with
    banlist := lists.banlist
    exceptlist := lists.exceptlist
    invexlist := lists.invexlist
    banSerial := lists.banSerial }

/-- Write `mode.mode`. -/
def setMode (ch : Chan) (mode : BitVec 32) : Chan := { ch with mode := mode }

/-- Write `mode.limit`. -/
def setLimit (ch : Chan) (limit : ℤ) : Chan := { ch with limit := limit }

/-- `rb_strlcpy(mode.key, s, sizeof(mode.key))`. -/
def setKey (ch : Chan) (s : Str) : Chan :=
  { ch with
    key := strlcpy s keyLen
    key_lt := Channel.length_key_lt s }

/-- Write the flags of a membership. -/
def setFlags (ch : Chan) (ms : Membership) (flags : MemberFlags) : Chan :=
  { ch with members := (ch.toChan.setMembership { ms with flags := flags }).members }

end Chan

namespace Setting

/-- `mask_pos`. -/
def maskPos (st : Setting) : ℕ := (st.maskBuf.map fun b => b.length + 1).sum

/-- A change is put down. -/
def push (st : Setting) (change : ChModeChange) : Setting :=
  { st with changes := st.changes ++ [change] }

/-- A numeric is sent. -/
def tell (st : Setting) (reply : Reply) : Setting := { st with replies := st.replies ++ [reply] }

/-- An error is noted. -/
def note (st : Setting) (error : BitVec 32) : Setting := { st with errors := st.errors ||| error }

/-- What is done when the client is no operator of the channel. -/
def noOps (st : Setting) : Setting :=
  (if st.errors &&& smErrNoops = 0 then st.tell (.chanOpPrivsNeeded st.ch.chname) else st).note
    smErrNoops

/-- `++mode_limit`, for local clients. -/
def counted (st : Setting) (my : Bool) : Setting :=
  if my then { st with modeLimit := st.modeLimit + 1 } else st

end Setting

/-! ### The functions of the letters -/

section Handlers

variable (env : Env) (source_p : ℕ) (alevel : Bool) (parv : List Str)

/-- `MyClient(source_p)`. -/
def Env.my : Bool := (env.client source_p).kind.myClient

/-- `chm_nosuch`. -/
def chmNosuch (c : Char) (st : Setting) : Setting :=
  if st.errors &&& smErrUnknown ≠ 0 then st else (st.note smErrUnknown).tell (.unknownMode c)

/-- `chm_simple`. -/
def chmSimple (c : Char) (modeType : BitVec 32) (st : Setting) : Setting :=
  if !alevel then st.noOps
  else
    let st := st.counted (env.my source_p)
    if env.my source_p && 9 + maxModeParams < st.modeLimit then st
    else if st.dir = .add ∧ st.ch.mode &&& modeType = 0 then
      { st with ch := st.ch.setMode (st.ch.mode ||| modeType) }.push ⟨c, none, none, .add, 0, 0,
        .allMembers⟩
    else if st.dir = .del ∧ st.ch.mode &&& modeType ≠ 0 then
      { st with ch := st.ch.setMode (st.ch.mode &&& ~~~modeType) }.push ⟨c, none, none, .del, 0, 0,
        .allMembers⟩
    else st

/-- `send_banlist`. -/
def sendBanlist (type : ModeType) (ch : Chan) : List Reply :=
  (ch.list type).map (.banList type ch.chname) ++ [.endOfBanList type ch.chname]

/-- Whether a list is disabled by `use_except` or `use_invex`. -/
def Env.off : ModeType → Bool
  | .ban => false
  | .exception => !env.conf.useExcept
  | .invex => !env.useInvex

/-- The parameter for a letter, unless it asks for something. -/
def Setting.param (st : Setting) : Option Str := if st.dir = .query then none else parv[st.parn]?

/-- The front of `chm_ban`: the mask as it was given, if the function goes on to `pretty_mask`. -/
def banFront (type : ModeType) (st : Setting) : Setting × Option Str :=
  if env.off type && env.my source_p && st.dir = .add && decide (st.parn < parv.length) then
    (st, none)
  else
    match st.param parv with
    | none =>
      if st.errors &&& smErrRpl type ≠ 0 then (st, none)
      else
        let st := st.note (smErrRpl type)
        -- the other lists are for operators
        if !alevel && type ≠ .ban then (st.noOps, none)
        else ({ st with replies := st.replies ++ sendBanlist type st.ch }, none)
    | some raw =>
      if !alevel then (st.noOps, none)
      else
        let st := st.counted (env.my source_p)
        if env.my source_p && maxModeParams < st.modeLimit then (st, none)
        else
          let st := { st with parn := st.parn + 1 }
          if raw = [] ∨ raw.head? = some ':' then (st, none)
          else if !env.my source_p && raw.contains ' ' then (st, none)
          else (st, some raw)

/-- The capability that is needed for a list. -/
def capsOf : ModeType → BitVec 32
  | .ban => 0
  | .exception => capEx
  | .invex => capIe

/-- The members that are told about a list. -/
def Env.memsOf (type : ModeType) (dir : Dir) : Mems :=
  if type = .ban then .allMembers else if !env.off type ∨ dir = .del then .onlyChanops
    else .onlyServers

/-- The rest of `chm_ban`, with what `pretty_mask` returned. -/
def banRest (c : Char) (type : ModeType) (raw mask : Str) (st : Setting) : Setting :=
  let change (arg : Str) : ChModeChange :=
    ⟨c, some (.text arg), none, st.dir, capsOf type, 0, env.memsOf type st.dir⟩
  if mask.length > modebufLen - 2 then st
  else
    match st.dir with
    | .add =>
      let (added, lists) := Banlist.addId env.conf (env.client source_p).toUser st.ch.toChan mask
        type
      if added then { st with ch := st.ch.setLists lists }.push (change mask)
      else if env.my source_p &&
          env.conf.maxBans ≤ st.ch.banlist.length + st.ch.exceptlist.length +
            st.ch.invexlist.length then
        st.tell (.banListFull st.ch.chname mask)
      else st
    | .del =>
      let (removed, lists) := Banlist.delId st.ch.toChan mask type
      if removed then { st with ch := st.ch.setLists lists }.push (change mask)
      else
        let (removed, lists) := Banlist.delId st.ch.toChan raw type
        { st with ch := st.ch.setLists lists }.push (change (if removed then raw else mask))
    | .query => st

/-- `chm_ban`. It takes the length of no text when `pretty_mask` has returned `NULL`. -/
def chmBan (c : Char) (type : ModeType) (st : Setting) : Option Setting :=
  match banFront env source_p alevel parv type st with
  | (st, none) => some st
  | (st, some raw) =>
    if env.my source_p then
      (prettyMask st.maskPos raw).map fun mask =>
        banRest env source_p c type raw mask { st with maskBuf := st.maskBuf ++ [mask] }
    else some (banRest env source_p c type raw raw st)

/-- The front of `chm_op` and `chm_voice`: the client and its membership, if the function goes
on. -/
def memberFront (st : Setting) : Setting × Option (ℕ × Membership) :=
  if !alevel then (st.noOps, none)
  else
    match st.param parv with
    | none => (st, none)
    | some opnick =>
      let st := { st with parn := st.parn + 1 }
      if opnick = [] then (st.tell (.noSuchNick ['*']), none)
      else
        match env.findChasing opnick with
        | none => (st, none)
        | some targ_p =>
          match st.ch.findMembership targ_p with
          | none =>
            let first := decide (st.errors &&& smErrNotOnChannel = 0)
            let st := if first && env.my source_p then
              st.tell (.userNotInChannel opnick st.ch.chname) else st
            (st.note smErrNotOnChannel, none)
          | some ms =>
            let st := st.counted (env.my source_p)
            if env.my source_p && maxModeParams < st.modeLimit then (st, none)
              else (st, some (targ_p, ms))

/-- `chm_op`. -/
def chmOp (c : Char) (st : Setting) : Setting :=
  match memberFront env source_p alevel parv st with
  | (st, none) => st
  | (st, some (targ_p, ms)) =>
    let targ := env.client targ_p
    if st.dir = .add then
      if targ_p = source_p then st
      else
        { st with ch := st.ch.setFlags ms { ms.flags with chanop := true, deopped := false } }.push
          ⟨c, some (.text targ.name), some targ.id, .add, 0, 0, .allMembers⟩
    else if env.services && env.my source_p && targ.service then
      st.tell (.isChanService targ.name st.ch.chname)
    else
      { st with ch := st.ch.setFlags ms { ms.flags with chanop := false } }.push
        ⟨c, some (.text targ.name), some targ.id, .del, 0, 0, .allMembers⟩

/-- `chm_voice`. -/
def chmVoice (c : Char) (st : Setting) : Setting :=
  match memberFront env source_p alevel parv st with
  | (st, none) => st
  | (st, some (targ_p, ms)) =>
    let targ := env.client targ_p
    if st.dir = .add then
      { st with ch := st.ch.setFlags ms { ms.flags with voice := true } }.push
        ⟨c, some (.text targ.name), some targ.id, .add, 0, 0, .allMembers⟩
    else
      { st with ch := st.ch.setFlags ms { ms.flags with voice := false } }.push
        ⟨'v', some (.text targ.name), some targ.id, .del, 0, 0, .allMembers⟩

/-- `chm_limit`. -/
def chmLimit (c : Char) (st : Setting) : Setting :=
  if !alevel then st.noOps
  else
    match st.dir, parv[st.parn]? with
    | .add, some lstr =>
      let st := { st with parn := st.parn + 1 }
      if lstr = [] ∨ atoi lstr ≤ 0 then st
      else
        { st with limitstr := decimal (atoi lstr), ch := st.ch.setLimit (atoi lstr) }.push
          ⟨c, some .limitstr, none, .add, 0, 0, .allMembers⟩
    | .del, _ =>
      if st.ch.limit = 0 then st
      else { st with ch := st.ch.setLimit 0 }.push ⟨c, none, none, .del, 0, 0, .allMembers⟩
    | _, _ => st

/-- `c & 0x7f`. -/
def lowHalf (c : Char) : Char := Char.ofNat (c.toNat % 128)

/-- `fix_key`. -/
def fixKey (arg : Str) : Str := (arg.map lowHalf).filter fun c => c ≠ ':' ∧ c ≠ ',' ∧ ' ' < c

/-- `fix_key_remote`. What is a NUL after the high bit was dropped ends the key. -/
def fixKeyRemote (arg : Str) : Str :=
  ((arg.map lowHalf).filter fun c => c ≠ '\n' ∧ c ≠ ':' ∧ c ≠ ',' ∧ c ≠ '\r' ∧ c ≠ ' ').takeWhile
    (· != '\x00')

/-- The loop of `chm_key` over the changes made before, whose keys will be gone. -/
def splatKeys (changes : List ChModeChange) : List ChModeChange :=
  changes.map fun change =>
    if change.letter = 'k' ∧ change.dir = .add then { change with arg := some (.text ['*']) }
      else change

/-- `chm_key`. -/
def chmKey (c : Char) (st : Setting) : Setting :=
  if !alevel then st.noOps
  else
    match st.dir, parv[st.parn]? with
    | .add, some arg =>
      let st := { st with parn := st.parn + 1 }
      let key := if env.my source_p then fixKey arg else fixKeyRemote arg
      if key = [] then st
      else { st with ch := st.ch.setKey key }.push ⟨c, some .key, none, .add, 0, 0, .allMembers⟩
    | .del, arg =>
      let st := if arg.isSome then { st with parn := st.parn + 1 } else st
      if st.ch.key = [] then st
      else
        { st with changes := splatKeys st.changes, ch := st.ch.setKey [] }.push
          ⟨c, some (.text ['*']), none, .del, 0, 0, .allMembers⟩
    | _, _ => st

/-- What `chm_regonly` and `chm_sslonly` do, with whether the flag may not be set. -/
def chmFlag (modeType caps : BitVec 32) (refused : Bool) (c : Char) (st : Setting) : Setting :=
  if !alevel then st.noOps
  else
    match st.dir with
    | .query => st
    | .add =>
      if st.ch.mode &&& modeType ≠ 0 ∨ refused then st
      else { st with ch := st.ch.setMode (st.ch.mode ||| modeType) }.push ⟨c, none, none, .add,
        caps, 0, .allMembers⟩
    | .del =>
      if st.ch.mode &&& modeType = 0 then st
      else { st with ch := st.ch.setMode (st.ch.mode &&& ~~~modeType) }.push ⟨c, none, none, .del,
        caps, 0, .allMembers⟩

/-- `chm_regonly`. -/
def chmRegonly : Char → Setting → Setting := chmFlag alevel modeRegOnly capService false

/-- `chm_sslonly`. -/
def chmSslonly : Char → Setting → Setting :=
  chmFlag alevel modeSslOnly 0 (env.my source_p && !env.useSslonly)

/-- The function of a letter, from `ModeTable`. -/
def chm (c : Char) (st : Setting) : Option Setting :=
  match c with
  | 'I' => chmBan env source_p alevel parv c .invex st
  | 'S' => some (chmSslonly env source_p alevel c st)
  | 'b' => chmBan env source_p alevel parv c .ban st
  | 'e' => chmBan env source_p alevel parv c .exception st
  | 'i' => some (chmSimple env source_p alevel c modeInviteOnly st)
  | 'k' => some (chmKey env source_p alevel parv c st)
  | 'l' => some (chmLimit alevel parv c st)
  | 'm' => some (chmSimple env source_p alevel c modeModerated st)
  | 'n' => some (chmSimple env source_p alevel c modeNoPrivMsgs st)
  | 'o' => some (chmOp env source_p alevel parv c st)
  | 'p' => some (chmSimple env source_p alevel c modePrivate st)
  | 'r' => some (if env.services then chmRegonly alevel c st else chmNosuch c st)
  | 's' => some (chmSimple env source_p alevel c modeSecret st)
  | 't' => some (chmSimple env source_p alevel c modeTopicLimit st)
  | 'v' => some (chmVoice env source_p alevel parv c st)
  | _ => some (chmNosuch c st)

/-- The body of the loop of `set_channel_mode` over the letters. -/
def step (st : Setting) (c : Char) : Option Setting :=
  match c with
  | '+' => some { st with dir := .add }
  | '-' => some { st with dir := .del }
  | '=' => some { st with dir := .query }
  | c => chm env source_p alevel parv c st

end Handlers

/-! ### A line -/

/-- A call of `set_channel_mode`. The parameters begin with the letters. -/
structure Call where
  ch : Chan
  msptr : Option Membership
  ml : Str
  para : List Str

/-- `parv`. -/
def Call.parv (call : Call) : List Str := call.ml :: call.para

/-- `get_channel_access`: whether it returns `CHFL_CHANOP`. -/
def getChannelAccess (env : Env) (source_p : ℕ) (msptr : Option Membership) : Bool :=
  !env.my source_p || msptr.any (·.flags.chanop)

/-- What the loop begins with. -/
def start (ch : Chan) : Setting := ⟨ch, 1, 0, .add, [], 0, [], [], []⟩

/-- The body of the loop, for a call. -/
def Call.step (env : Env) (source_p : ℕ) (call : Call) : Setting → Char → Option Setting :=
  SetMode.step env source_p (getChannelAccess env source_p call.msptr) call.parv

/-- The loop of `set_channel_mode` over the letters. -/
def Call.run (env : Env) (source_p : ℕ) (call : Call) : Option Setting :=
  Run.run (call.step env source_p) (start call.ch) call.ml

/-- `m_mode`, if it calls `set_channel_mode`. The parameters are those behind the sender. -/
def mMode (env : Env) (source_p : ℕ) (parv : List Str) : Option Call :=
  match parv with
  | chname :: ml :: para =>
    let dest := if (env.client source_p).operSpy ∧ chname.head? = some '!' then chname.tail
      else chname
    if !isChannelName dest || !checkChannelName dest then none
    else
      (env.findChannel dest).bind fun ch =>
        let msptr := ch.findMembership source_p
        if msptr.any (·.flags.deopped) then none else some ⟨ch, msptr, ml, para⟩
  | _ => none

/-- The call that a line of a local client leads to. What is in front of the command is not used. -/
def received (env : Env) (source_p : ℕ) (line : Str) : Option Call :=
  match Burst.parse line with
  | some (_, command, para) => if irccmp command "MODE".toList then mMode env source_p para
    else none
  | none => none

end Ratbox.SetMode
