import Ratbox.Bandb.Basic
import Ratbox.Bandb.Helper

/-!
# K-lines

An oper places a K-line on the users and hosts of a mask, for some minutes or for good, and removes
it with its mask. A K-line is in the table of masks, and a temporary one is in a list as well.

Source: `modules/m_kline.c`, lines 104–792, `src/s_conf.c`, lines 904–937 and 981–1063,
`src/s_newconf.c`, lines 677–697, and `modules/m_rehash.c`, lines 141–163.

## Main definitions

* `Kline.State`: the table, the lists, and what was written to the helper that has the database.
* `Kline.findUserHost`, `Kline.unklineMask`: the user and the host of the text of a mask, when a
  K-line is placed and when it is removed.
* `Kline.State.moKline`, `Kline.State.moUnkline`: the commands.
* `Kline.step`: what is done with K-lines.

## Implementation notes

A conf has a number, which stands for its address. `port` is the place of the list that the conf is
in.
-/

namespace Ratbox.Kline

open Text Address Match Dlines Bandb Function
open Dlines.State (tempFor)
open Bandb.Helper (bandbAdd bandbDel)

/-! ### Confs -/

/-- The conf of a K-line. The flags are `CONF_FLAGS_TEMPORARY` and `CONF_FLAGS_LOCKED`. -/
structure Conf where
  id : ConfId
  ban : Ban
  hold : ℤ
  temporary : Bool
  locked : Bool
  deriving DecidableEq

/-- The conf has the user and the host, as far as it has a user. -/
def Conf.hasMasks (c : Conf) (user host : Str) :
    Bool := c.ban.user.all (irccmp user) && irccmp host c.ban.host

/-- The table of masks, `temp_klines`, and the lines that were written to the helper. -/
structure State where
  atable : Hostmask.Table Conf
  tempKlines : Temp → List Conf
  fresh : ConfId
  helper : List Str

/-- There are no confs. -/
def start : State := ⟨Hostmask.init, fun _ => [], 0, []⟩

/-- An oper: the name of `get_oper_name`, and the privileges `IsOperK`, `IsOperUnkline`,
`IsOperRemoteBan` and `IsOperAdmin`. -/
structure Oper where
  name : Str
  kline : Bool
  unkline : Bool
  remoteBan : Bool
  admin : Bool
  deriving DecidableEq

/-- `me.name`, and `min_nonwildcard` and `non_redundant_klines` of `ConfigFileEntry`. -/
structure Setup where
  name : Str
  minNonwildcard : ℤ
  nonRedundantKlines : Bool
  deriving DecidableEq

/-! ### Masks -/

/-- The pieces between dots that `rb_strtok_r` yields. -/
def pieces (text : Str) : List Str := (text.splitOnP (· == '.')).filter (· ≠ [])

/-- `is_ip_number`. -/
def isIpNumber (number : Str) : Bool := number.length ≤ 3 && number.all isDigit

/-- A piece is missing, or is a splat. -/
def isOpen (n : Option Str) : Bool := n = none || n = some ['*']

/-- `mangle_wildcard_to_cidr`. -/
def mangleWildcardToCidr (text : Str) : Option Str :=
  let n1 := (pieces text)[0]?
  let n2 := (pieces text)[1]?
  let n3 := (pieces text)[2]?
  let n4 := (pieces text)[3]?
  let piece := fun n : Option Str => n.getD []
  if n1 = none then none
  else if n1 = some ['*'] || !isIpNumber (piece n1) then none
  else if isOpen n2 && (n3 = none || (n3 = some ['*'] && isOpen n4)) then
    some (piece n1 ++ ".0.0.0/8".toList)
  else if !isIpNumber (piece n2) then none
  else if isOpen n3 && isOpen n4 then some (piece n1 ++ '.' :: piece n2 ++ ".0.0/16".toList)
  else if !isIpNumber (piece n3) then none
  else if isOpen n4 then some (piece n1 ++ '.' :: piece n2 ++ '.' :: piece n3 ++ ".0/24".toList)
  else none

/-- What is before the first `@`, and what is behind it. -/
def splitAt (text : Str) : Str × Str :=
  (text.takeWhile (· != '@'), (text.dropWhile (· != '@')).tail)

/-- The text, or a splat. -/
def orSplat (text : Str) : Str := if text = [] then ['*'] else text

/-- The host of a K-line for the text of a host. -/
def lhost (text : Str) : Str := strlcpy ((mangleWildcardToCidr text).getD text) (hostLen + 1)

/-- `find_user_host`. -/
def findUserHost (userhost : Str) : Option (Str × Str) :=
  if '@' ∈ userhost then
    let (user, hostp) := splitAt userhost
    some (if user = [] then ['*'] else strlcpy user (userLen + 1), if hostp = [] then ['*']
      else lhost hostp)
  else if '.' ∉ userhost ∧ ':' ∉ userhost then none
  else some (['*'], lhost userhost)

/-- The user and the host of `mo_unkline`. -/
def unklineMask (h : Str) : Option (Str × Str) :=
  if '@' ∈ h then
    let (user, host) := splitAt h
    some (orSplat user, orSplat host)
  else if h.head? = some '*' ∨ '.' ∈ h ∨ ':' ∈ h then some (['*'], h)
  else none

/-- `valid_user_host`. -/
def validUserHost (luser lhost : Str) : Bool :=
  luser.all (fun p => Nick.isUserChar p || isKWildChar p) && lhost.all fun p => Nick.isHostChar p ||
    isKWildChar p

/-- `valid_wild_card`: there are enough characters that are no wildcards, and there is one. -/
def validWildCard (u : Setup) (luser lhost : Str) : Bool :=
  let nonwild := (luser ++ lhost).countP fun p => !isKWildChar p
  0 < nonwild && u.minNonwildcard ≤ nonwild

/-- `already_placed_kline`. -/
def alreadyPlacedKline {κ : Type} (u : Setup) (t : Hostmask.Table κ) (luser lhost : Str) : Bool :=
  u.nonRedundantKlines &&
    (t.findConfByAddress .kill ⟨some lhost, none, (netmask lhost).map (·.1), some luser⟩).isSome

/-! ### Requests -/

/-- A `time_t` that is added up from digits. -/
def tempTime (p : Str) : ℤ :=
  p.foldl (fun result d => (result * 10 + (d.toNat % 16 : ℕ)).bmod (2 ^ 64)) 0

/-- `valid_temp_time`, as an `int`. -/
def validTempTime (p : Str) : ℤ :=
  if p.all isDigit then (min (tempTime p) (60 * 24 * 7 * 52) * 60).bmod (2 ^ 32) else -1

/-- What a K-line is placed for: the arguments of `set_kline`. -/
structure Request where
  user : Str
  host : Str
  lreason : Str
  tklineTime : ℤ
  deriving DecidableEq

/-- The place of the mask in the arguments of `KLINE`: there can be a time before it. -/
def maskLoc (parv : List Str) : ℕ := if 0 ≤ validTempTime (parv.getD 1 []) then 2 else 1

/-- The time of a K-line in seconds. A K-line without a time is permanent, and so is one whose time
is zero. -/
def tklineTime (parv : List Str) : ℤ := max 0 (validTempTime (parv.getD 1 []))

/-- `mo_kline`, before it calls `set_kline`. -/
def klineRequest (u : Setup) (source : Oper) (parv : List Str) : Option Request := do
  guard source.kline
  let (user, host) ← findUserHost (← parv[maskLoc parv]?)
  let loc := maskLoc parv + 1
  let remote := decide (loc + 2 ≤ parv.length) && irccmp (parv.getD loc []) "ON".toList
  guard (!remote || source.remoteBan)
  let lreason := parv.getD (if remote then loc + 2 else loc) []
  guard (lreason ≠ [])
  guard (!remote || matchMask (parv.getD (loc + 1) []) u.name)
  some ⟨user, host, lreason, tklineTime parv⟩

/-- The conf that `set_kline` makes, for the time and for the text of its date. -/
def makeKline (u : Setup) (s : State) (source : Oper) (q : Request) (now : ℤ) (date : Str)
    (admin : Bool) :
    Option Conf :=
  if validUserHost q.user q.host && validWildCard u q.user q.host && !alreadyPlacedKline u s.atable
    q.user q.host then
    let text := q.lreason.take reasonLen
    let reason := text.takeWhile (· != '|')
    let operReason := (text.dropWhile (· != '|')).tail
    let minutes := "Temporary K-line ".toList ++ decimal (q.tklineTime / 60) ++ " min. - ".toList
    let passwd := (if 0 < q.tklineTime then minutes else []) ++ reason ++ " (".toList ++ date ++
      ")".toList
    some
      { id := s.fresh
        ban :=
          { user := some q.user
            host := q.host
            passwd := strlcpy passwd 512
            spasswd := if operReason = [] then none else some operReason
            oper := source.name }
        hold := now + q.tklineTime
        temporary := 0 < q.tklineTime
        locked := admin && decide (q.tklineTime ≤ 0) }
  else none

/-- The line of `bandb_add` for a permanent K-line. -/
def addLine (source : Oper) (q : Request) (now : ℤ) (admin : Bool) : Str :=
  let text := q.lreason.take reasonLen
  bandbAdd
    { masks := .kline q.user q.host
      oper := source.name
      time := now
      perm := if admin then 1 else 0
      reason := text.takeWhile (· != '|')
      operReason := (text.dropWhile (· != '|')).tail }

namespace State

/-! ### Placing -/

/-- A conf is put into the table, under its own mask. -/
def addConf (s : State) (c : Conf) : State :=
  { s with
    atable := s.atable.addConfByAddress (some c.ban.host) .kill c.ban.user c, fresh := s.fresh + 1 }

/-- `add_temp_kline`. -/
def addTempKline (s : State) (c : Conf) (now : ℤ) : State :=
  let i := tempFor c.hold now
  { s.addConf c with tempKlines := update s.tempKlines i (c :: s.tempKlines i) }

/-- `apply_kline`, with the line for the helper. -/
def applyKline (s : State) (c : Conf) (line : Str) : State :=
  { s.addConf c with helper := s.helper ++ [line] }

/-- `set_kline`. -/
def setKline (u : Setup) (s : State) (source : Oper) (q : Request) (now : ℤ) (date : Str)
    (admin : Bool) : State :=
  match makeKline u s source q now date admin with
  | none => s
  | some c => if c.temporary then s.addTempKline c now else s.applyKline c (addLine source q now
    admin)

/-- `mo_kline`. -/
def moKline (u : Setup) (s : State) (source : Oper) (parv : List Str) (now : ℤ) (date : Str) :
    State :=
  match klineRequest u source parv with
  | none => s
  | some q => s.setKline u source q now date false

/-- `mo_adminkline`. -/
def moAdminkline (u : Setup) (s : State) (source : Oper) (parv : List Str) (now : ℤ) (date : Str) :
    State :=
  match findUserHost (parv.getD 1 []) with
  | none => s
  | some (user, host) =>
    if source.kline && source.admin then s.setKline u source ⟨user, host, parv.getD 2 [], 0⟩ now
      date true else s

/-- `me_kline`. Whether the server of the oper may set K-lines is decided by `find_shared_conf`. -/
def meKline (u : Setup) (s : State) (source : Oper) (shared : Bool) (parv : List Str) (now : ℤ)
    (date : Str) : State :=
  if shared then
    s.setKline u source ⟨parv.getD 2 [], parv.getD 3 [], parv.getD 4 [], atoi (parv.getD 1 [])⟩ now
      date false
  else s

/-! ### Removing -/

/-- A conf is removed from the table and from the list. -/
def dropTemp (s : State) (i : Temp) (c : Conf) : State :=
  { s with
    atable := s.atable.deleteOneAddressConf c.ban.host c
    tempKlines := update s.tempKlines i ((s.tempKlines i).eraseP fun d => d = c) }

/-- The conf that `remove_temp_kline` comes to, and its list. -/
def findTemp (s : State) (user host : Str) : Option (Temp × Conf) :=
  [Temp.min, .hour, .day, .week].findSome? fun i =>
    ((s.tempKlines i).find? fun c => c.hasMasks user host).map fun c => (i, c)

/-- `remove_temp_kline`. -/
def removeTempKline (s : State) (user host : Str) : Option State :=
  (s.findTemp user host).map fun p => s.dropTemp p.1 p.2

/-- The conf that `remove_perm_kline` comes to. -/
@[irreducible] def findPerm (s : State) (user host : Str) : Option Conf :=
  ((List.range Hostmask.atableSize).findSome? fun i =>
    (s.atable.atable i).find? fun r =>
      decide (r.type = .kill) && !r.aconf.temporary && r.aconf.hasMasks user host).map (·.aconf)

/-- `remove_perm_kline`. -/
def removePermKline (s : State) (source : Oper) (user host : Str) : State :=
  match s.findPerm user host with
  | none => s
  | some c =>
    if c.locked && !source.admin then s
    else
      { s with
        helper := s.helper ++ [bandbDel (.kline (c.ban.user.getD []) c.ban.host)]
        atable := s.atable.deleteOneAddressConf host c }

/-- The end of `mo_unkline` and of `me_unkline`. -/
def unkline (s : State) (source : Oper) (user host : Str) : State :=
  (s.removeTempKline user host).getD (s.removePermKline source user host)

/-- `mo_unkline`. -/
def moUnkline (u : Setup) (s : State) (source : Oper) (parv : List Str) : State :=
  match unklineMask (parv.getD 1 []) with
  | none => s
  | some (user, host) =>
    let remote := decide (3 < parv.length) && irccmp (parv.getD 2 []) "ON".toList
    if source.unkline && (!remote || (source.remoteBan && matchMask (parv.getD 3 []) u.name)) then
      s.unkline source user host
    else s

/-- `me_unkline`. -/
def meUnkline (s : State) (source : Oper) (shared : Bool) (parv : List Str) : State :=
  if shared then s.unkline source (parv.getD 1 []) (parv.getD 2 []) else s

/-! ### Events -/

/-- `expire_temp_kd`, for K-lines. -/
def expireTempKd (s : State) (i : Temp) (now : ℤ) : State :=
  (s.tempKlines i).foldl (fun s c => if c.hold ≤ now then s.dropTemp i c else s) s

/-- The list that `reorganise_temp_kd` moves a K-line of a list to. -/
def moveTo (i : Temp) (c : Conf) (now : ℤ) : Option Temp :=
  if c.hold < now + 60 * 60 then some .min
  else if Temp.hour.index < i.index then
    if c.hold < now + 1440 * 60 then some .hour
    else if Temp.day.index < i.index ∧ c.hold < now + 10080 * 60 then some .day
    else none
  else none

/-- `rb_dlinkMoveNode`. -/
def moveNode (s : State) (i j : Temp) (c : Conf) : State :=
  let lists := update s.tempKlines i ((s.tempKlines i).eraseP fun d => d = c)
  { s with tempKlines := update lists j (c :: lists j) }

/-- `reorganise_temp_kd`, for K-lines. -/
def reorganiseTempKd (s : State) (i : Temp) (now : ℤ) : State :=
  (s.tempKlines i).foldl (fun s c => ((moveTo i c now).map fun j => s.moveNode i j c).getD s) s

/-- `rehash_tklines`. -/
def rehashTklines (s : State) : State :=
  [Temp.min, .hour, .day, .week].foldl (fun s i => (s.tempKlines i).foldl (fun s c => s.dropTemp i
    c) s) s

/-- The permanent K-lines are replaced by those of the database that pass the checks. -/
def replace (s : State) (bans : List Ban) : State :=
  bans.foldl (fun s ban => s.addConf ⟨s.fresh, ban, 0, false, false⟩)
    { s with atable := s.atable.clearOutAddressConfBans (·.temporary) }

/-- An I-line or an exempt is added: its conf is none of a K-line. -/
def addOther (s : State) (type : Hostmask.RecType) (address username : Option Str) (ban : Ban) :
    State :=
  { s with
    atable := s.atable.addConfByAddress address type username ⟨s.fresh, ban, 0, false, false⟩
    fresh := s.fresh + 1 }

end State

/-! ### Runs -/

/-- What is done with the table and the lists. -/
inductive Op
  | kline (source : Oper) (parv : List Str) (now : ℤ) (date : Str)
  | adminkline (source : Oper) (parv : List Str) (now : ℤ) (date : Str)
  | klineFrom (source : Oper) (shared : Bool) (parv : List Str) (now : ℤ) (date : Str)
  | unkline (source : Oper) (parv : List Str)
  | unklineFrom (source : Oper) (shared : Bool) (parv : List Str)
  | expire (i : Temp) (now : ℤ)
  | reorganise (i : Temp) (now : ℤ)
  | rehashTklines
  | replace (bans : List Ban)
  | addOther (type : Hostmask.RecType) (address username : Option Str) (ban : Ban)
  | rehash

/-- A step. -/
def step (u : Setup) (s : State) : Op → Option State
  | .kline source parv now date => some (s.moKline u source parv now date)
  | .adminkline source parv now date => some (s.moAdminkline u source parv now date)
  | .klineFrom source shared parv now date => some (s.meKline u source shared parv now date)
  | .unkline source parv => some (s.moUnkline u source parv)
  | .unklineFrom source shared parv => some (s.meUnkline source shared parv)
  | .expire i now => some (s.expireTempKd i now)
  | .reorganise i now => some (s.reorganiseTempKd i now)
  | .rehashTklines => some s.rehashTklines
  | .replace bans => some (s.replace bans)
  | .addOther type address username ban => if type = .kill then none
    else some (s.addOther type address username ban)
  | .rehash => some { s with atable := s.atable.clearOutAddressConf (·.temporary) }

end Ratbox.Kline
