import Ratbox.Channel.Sjoin
import Ratbox.Dlines.Basic
import Ratbox.Hostmask.Basic
import Ratbox.Nick.Commands

/-!
# The bans of the database

The helper that has the database of permanent bans sends them one by one. They are pending until the
helper is done, and then replace the permanent bans that are in force, as far as they pass a check.

Source: `src/bandbi.c`, lines 180–441, `src/s_newconf.c`, lines 129–163, 552–636 and 856–903, and
`src/hostmask.c`, lines 625–662.

## Main definitions

* `Bandb.State`: the pending bans, and the five places where bans are kept.
* `Bandb.handleBan`, `Bandb.State.handleClear`, `Bandb.State.handleFinish`: what is done with the
  messages of the helper.
* `Bandb.parse`: `bandb_parse`, for a message.
-/

namespace Ratbox.Bandb

open Text Address Match Dlines

/-! ### The structures -/

/-- The values of `status` of a ban. -/
inductive Status
  | kill
  | dline
  | xline
  | resvChannel
  | resvNick
  deriving DecidableEq

/-- A conf that is pending. -/
structure Pending where
  status : Status
  ban : Ban
  deriving DecidableEq

/-- A conf of a K-line, an X-line or a RESV, with the flag `CONF_FLAGS_TEMPORARY`. -/
structure Conf where
  ban : Ban
  temporary : Bool
  deriving DecidableEq

/-- `bandb_pending`, the table of masks, the D-lines, `xline_conf_list`, the table `HASH_RESV` with
the two lists of its confs, and `resv_nick_list`. -/
structure State where
  pending : List Pending
  atable : Hostmask.Table Conf
  dlines : Dlines.State
  xlineConfList : List Conf
  resvs : List Conf
  resvChannelPermList : List Conf
  resvChannelTempList : List Conf
  resvNickList : List Conf

/-- Nothing is pending and no ban is in force. -/
def init : State := ⟨[], Hostmask.init, Dlines.init, [], [], [], [], []⟩

/-! ### Receiving bans -/

/-- The conf that `bandb_handle_ban` makes of the texts of a message. -/
def makePending (letter : Char) (user : Option Str) (host oper reason : Str) : Pending where
  status :=
    if letter = 'K' then .kill
    else if letter = 'D' then .dline
    else if letter = 'X' then .xline
    else if Channel.isChannelName host then .resvChannel
    else .resvNick
  ban :=
    { user := user
      host := host
      passwd := reason.takeWhile (· != '|')
      spasswd := if '|' ∈ reason then some ((reason.dropWhile (· != '|')).drop 1) else none
      oper := oper }

/-- `bandb_handle_ban`. It fails where a text of the message is missing. -/
def handleBan (letter : Char) (parv : List Str) : Option Pending :=
  if letter = 'K' then do
    some (makePending letter (some (← parv[1]?)) (← parv[2]?) (← parv[3]?) (← parv[4]?))
  else do
    some (makePending letter none (← parv[1]?) (← parv[2]?) (← parv[3]?))

/-! ### Checks -/

/-- `IsKWildChar`. -/
def isKWildChar (c : Char) : Bool := ['!', '*', '.', '/', '?', '@'].contains c

/-- `find_conf_by_address`, as `bandb_check_kline` calls it. -/
def findKline (t : Hostmask.Table Conf) (ban : Ban) : Option Conf :=
  t.findConfByAddress .kill ⟨some ban.host, none, (netmask ban.host).map (·.1), ban.user⟩

/-- `bandb_check_kline`. -/
def checkKline (t : Hostmask.Table Conf) (ban : Ban) : Bool :=
  !(findKline t ban).any (fun kconf => !kconf.temporary) &&
    (ban.user.getD []).all (fun p => Nick.isUserChar p || isKWildChar p) &&
    ban.host.all fun p => Nick.isHostChar p || isKWildChar p

/-- `find_xline_mask`. -/
def findXlineMask (l : List Conf) (gecos : Str) : Option Conf :=
  l.find? fun c => irccmp c.ban.host gecos

/-- `bandb_check_xline`. -/
def checkXline (l : List Conf) (ban : Ban) : Bool :=
  !(findXlineMask l ban.host).any fun xconf => !xconf.temporary

/-- `hash_find_resv`: the conf that was added last is the first one. -/
def hashFindResv (l : List Conf) (name : Str) : Option Conf :=
  l.find? fun c => irccmp name c.ban.host

/-- `bandb_check_resv_channel`. -/
def checkResvChannel (l : List Conf) (ban : Ban) : Bool :=
  !((hashFindResv l ban.host).isSome || decide (Channel.channelLen < ban.host.length)) &&
    ban.host.all Channel.isChanChar

/-- `clean_resv_nick`. -/
def cleanResvNick (nick : Str) : Bool :=
  let mark := fun c : Char => c == '?' || c == '@' || c == '#'
  if nick.head?.any (fun c => c == '-' || isDigit c) then false
  else if nick.all fun c => mark c || c == '*' || Nick.isNickChar c then
    !(nick.all (fun c => mark c || c == '*') && nick.any (· == '*'))
  else false

/-- `find_nick_resv`. -/
def findNickResv (l : List Conf) (name : Str) : Option Conf :=
  l.find? fun c => matchEsc c.ban.host name

/-- `bandb_check_resv_nick`. -/
def checkResvNick (l : List Conf) (ban : Ban) : Bool :=
  cleanResvNick ban.host && (findNickResv l ban.host).isNone

/-! ### Replacing bans -/

namespace State

/-- `add_channel_hash_resv`, for a permanent RESV. -/
def addChannelHashResv (s : State) (aconf : Conf) : State :=
  { s with resvs := aconf :: s.resvs, resvChannelPermList := aconf :: s.resvChannelPermList }

/-- `del_channel_hash_resv`: the conf that is found by the name is taken off its list and out of the
table. -/
def delChannelHashResv (s : State) (aconf : Conf) : State :=
  match hashFindResv s.resvs aconf.ban.host with
  | none => s
  | some found =>
    let s := if found.temporary then
      { s with resvChannelTempList := s.resvChannelTempList.erase found } else {
        s with resvChannelPermList := s.resvChannelPermList.erase found }
    { s with resvs := s.resvs.erase found }

/-- `clear_s_newconf_bans`. -/
def clearSNewconfBans (s : State) : State :=
  let s := { s with
    xlineConfList := s.xlineConfList.filter (·.temporary)
    resvNickList := s.resvNickList.filter (·.temporary) }
  s.resvChannelPermList.foldl delChannelHashResv s

/-- `bandb_handle_clear`. -/
def handleClear (s : State) : State := { s with pending := [] }

/-- The body of the loop of `bandb_handle_finish`. -/
def finishOne (s : State) (p : Pending) : Option State :=
  match p.status with
  | .kill => some (if checkKline s.atable p.ban then
      { s with atable := s.atable.addConfByAddress (some p.ban.host) .kill p.ban.user ⟨p.ban, false⟩
        } else s)
  | .dline => (s.dlines.finishOne p.ban).map fun d => { s with dlines := d }
  | .xline => some (if checkXline s.xlineConfList p.ban then
      { s with xlineConfList := ⟨p.ban, false⟩ :: s.xlineConfList } else s)
  | .resvChannel => some (if checkResvChannel s.resvs p.ban then s.addChannelHashResv ⟨p.ban, false⟩
    else s)
  | .resvNick => some (if checkResvNick s.resvNickList p.ban then
      { s with resvNickList := ⟨p.ban, false⟩ :: s.resvNickList } else s)

/-- `bandb_handle_finish`. -/
def handleFinish (s : State) : Option State := do
  let s := { s with atable := s.atable.clearOutAddressConfBans (·.temporary) }.clearSNewconfBans
  let dlines ← s.dlines.removePermDlines
  s.pending.foldlM finishOne { s with dlines := dlines, pending := [] }

end State

/-- `bandb_parse`, for the words of a message. The case of the letter C goes on with that of F. It
fails where the server exits. -/
def parse (s : State) (parv : List Str) : Option State :=
  match parv.head? with
  | none => some s
  | some word =>
    match word.head? with
    | some 'K' => (handleBan 'K' parv).map fun p => { s with pending := p :: s.pending }
    | some 'D' => (handleBan 'D' parv).map fun p => { s with pending := p :: s.pending }
    | some 'X' => (handleBan 'X' parv).map fun p => { s with pending := p :: s.pending }
    | some 'R' => (handleBan 'R' parv).map fun p => { s with pending := p :: s.pending }
    | some 'C' => s.handleClear.handleFinish
    | some 'F' => s.handleFinish
    | some '!' => none
    | _ => some s

end Ratbox.Bandb
