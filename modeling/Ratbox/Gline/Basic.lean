import Ratbox.Bandb.Basic

/-!
# G-lines

A G-line is a ban that three opers of three servers have to ask for. A request is kept until the
others come, or until it is too old. Each server counts the requests that it hears of by itself.

Source: `modules/m_gline.c`, `include/s_gline.h`, and `src/s_newconf.c`, lines 230–247.

## Main definitions

* `Gline.Source`: the oper who asks.
* `Gline.Pending`, `Gline.Conf`, `Gline.State`: `struct gline_pending`, the conf of a G-line, and
  the two lists.
* `Gline.State.majorityGline`: `majority_gline`, a vote.
* `Gline.moGline`, `Gline.mcGline`, `Gline.msGline`: the checks of the commands, which come before
  the vote.
* `Gline.Op`, `Gline.step`: what happens to G-lines.

## Implementation notes

The names of servers in requests are those of the cache, which is keyed by the whole name. What the
commands tell to others, and the search for clients to which a new G-line applies, are left out; so
is the table of masks, which gets the same confs.
-/

namespace Ratbox.Gline

open Text Address Patricia
open Bandb (isKWildChar)

/-- `GLINE_PENDING_EXPIRE`. -/
def pendingExpire : ℤ := 600

/-- The client who asks for a G-line: its name, user, host, the name of its server, and the
privileges `IsOperGline` and `IsOperUnkline`. Texts fit into the fields of `struct Client`, and no
client is registered without a user name. -/
structure Source where
  name : Str
  username : Str
  host : Str
  server : Str
  operGline : Bool
  operUnkline : Bool
  username_ne_nil : username ≠ []
  length_name : name.length ≤ nickLen
  length_username : username.length ≤ userLen
  length_host : host.length ≤ hostLen
  deriving DecidableEq

/-- `struct gline_pending`. -/
structure Pending where
  operNick1 : Str
  operUser1 : Str
  operHost1 : Str
  operServer1 : Str
  reason1 : Str
  timeRequest1 : ℤ
  operNick2 : Str
  operUser2 : Str
  operHost2 : Str
  operServer2 : Str
  reason2 : Str
  timeRequest2 : ℤ
  lastGlineTime : ℤ
  user : Str
  host : Str
  deriving DecidableEq

/-- The `struct ConfItem` of a G-line. -/
structure Conf where
  user : Str
  host : Str
  passwd : Str
  spasswd : Option Str
  hold : ℤ
  deriving DecidableEq

/-- `glines`, `min_nonwildcard`, `gline_min_cidr`, `gline_min_cidr6` and `gline_time` of
`ConfigFileEntry`. -/
structure Setup where
  glines : Bool
  minNonwildcard : ℤ
  glineMinCidr : ℤ
  glineMinCidr6 : ℤ
  glineTime : ℤ
  deriving DecidableEq

/-- `pending_glines`, `glines`, and the time. -/
structure State where
  pending : List Pending
  glines : List Conf
  now : ℤ
  deriving DecidableEq

/-- Nothing is asked for yet. -/
def start (now : ℤ) : State := ⟨[], [], now⟩

/-- Two masks are equal up to case. -/
def sameMask (user host user' host' : Str) : Bool := irccmp user user' && irccmp host host'

/-- `find_is_glined`. -/
def State.findIsGlined (s : State) (host user : Str) : Option Conf :=
  s.glines.find? fun aconf => sameMask aconf.user aconf.host user host

/-- `expire_pending_glines`. -/
def State.expirePendingGlines (s : State) : State :=
  { s with pending := s.pending.filter fun p =>
      !(decide (p.lastGlineTime + pendingExpire ≤ s.now) || (s.findIsGlined p.host p.user).isSome) }

/-- What `set_local_gline` keeps of the reason for the opers: what is behind the first `|`. -/
def operReason (reason : Str) : Option Str :=
  let myReason := if reasonLen < reason.length then reason.take (reasonLen - 1) else reason
  let oper := (myReason.dropWhile (· != '|')).tail
  if oper = [] then none else some oper

/-- `set_local_gline`, with the text of the date. -/
def State.setLocalGline (u : Setup) (s : State) (user host reason date : Str) : State :=
  { s with glines := s.glines ++ [
      { user := user
        host := host
        passwd := strlcpy (reason ++ " (".toList ++ date ++ ")".toList) 512
        spasswd := operReason reason
        hold := s.now + u.glineTime }] }

/-- The request is for the mask. -/
def Pending.isFor (user host : Str) (p : Pending) : Bool := sameMask p.user p.host user host

/-- The oper or the server was the first to ask. -/
def Pending.voted1 (p : Pending) (source : Source) : Bool :=
  (irccmp p.operUser1 source.username && irccmp p.operHost1 source.host) || irccmp p.operServer1
    source.server

/-- The oper or the server was the second to ask. -/
def Pending.voted2 (p : Pending) (source : Source) : Bool :=
  (irccmp p.operUser2 source.username && irccmp p.operHost2 source.host) || irccmp p.operServer2
    source.server

/-- The second vote is written into a request. -/
def Pending.second (p : Pending) (source : Source) (reason : Str) (now : ℤ) : Pending :=
  { p with
    operNick2 := strlcpy source.name (nickLen + 1)
    operUser2 := strlcpy source.username (userLen + 1)
    operHost2 := strlcpy source.host (hostLen + 1)
    operServer2 := source.server
    reason2 := reason
    timeRequest2 := now
    lastGlineTime := now }

/-- A new request. -/
def Pending.first (source : Source) (user host reason : Str) (now : ℤ) : Pending where
  operNick1 := strlcpy source.name (nickLen + 1)
  operUser1 := strlcpy source.username (userLen + 1)
  operHost1 := strlcpy source.host (hostLen + 1)
  operServer1 := source.server
  reason1 := reason
  timeRequest1 := now
  operNick2 := []
  operUser2 := []
  operHost2 := []
  operServer2 := []
  reason2 := []
  timeRequest2 := 0
  lastGlineTime := now
  user := strlcpy user (userLen + 1)
  host := strlcpy host (hostLen + 1)

/-- The first request for the mask is changed. -/
def updateFirst (user host : Str) (f : Pending → Pending) : List Pending → List Pending
  | [] => []
  | p :: l => if p.isFor user host then f p :: l else p :: updateFirst user host f l

/-- `majority_gline`: the state, and whether the G-line was placed. -/
def State.majorityGline (u : Setup) (s : State) (source : Source) (user host reason date : Str) :
    State × Bool :=
  let s := s.expirePendingGlines
  if (s.findIsGlined host user).isSome then (s, false)
  else
    match s.pending.find? (·.isFor user host) with
    | none => ({ s with pending := .first source user host reason s.now :: s.pending }, false)
    | some p =>
      if p.voted1 source then (s, false)
      else if p.operUser2 ≠ [] then
        if p.voted2 source then (s, false)
        else ((s.setLocalGline u user host p.reason1 date).expirePendingGlines, true)
      else ({ s with pending := updateFirst user host (·.second source reason s.now) s.pending },
        false)

/-! ### The commands -/

/-- A loop of `check_wild_gline`: it stops as soon as there are enough characters that are no
wildcards. -/
def wildLoop (least : ℤ) : Str → ℤ → ℤ
  | [], nonwild => nonwild
  | c :: p, nonwild =>
    if isKWildChar c then wildLoop least p nonwild
    else if least ≤ nonwild + 1 then nonwild + 1
    else wildLoop least p (nonwild + 1)

/-- `check_wild_gline`: there are not enough characters that are no wildcards. -/
def checkWildGline (u : Setup) (user host : Str) : Bool :=
  let nonwild := wildLoop u.minNonwildcard user 0
  let nonwild := if nonwild < u.minNonwildcard then wildLoop u.minNonwildcard host nonwild
    else nonwild
  decide (nonwild < u.minNonwildcard)

/-- The number of bits behind the slash is too small. -/
def shortCidr (u : Setup) (host : Str) : Option ℤ :=
  if '/' ∈ host then
    let bitlen := atoi ((host.dropWhile (· != '/')).drop 1)
    let least := if ':' ∈ host then u.glineMinCidr6 else u.glineMinCidr
    if bitlen < least then some least else none
  else none

/-- A vote: the arguments of `majority_gline`. -/
structure Vote where
  source : Source
  user : Str
  host : Str
  reason : Str
  deriving DecidableEq

/-- What an oper is told when a command fails: a notice, or `ERR_NOPRIVS`. -/
inductive Reply
  | notice (text : Str)
  | noPrivs (privilege : Str)
  deriving DecidableEq

/-- The mask of `GLINE`: a user and a host, or a host that has a dot. -/
def glineMask (parv1 : Str) : Option (Str × Str) :=
  if '@' ∈ parv1 then
    let user := parv1.takeWhile (· != '@')
    some (if user = [] then ['*'] else user, (parv1.dropWhile (· != '@')).tail)
  else if '.' ∈ parv1 then some (['*'], parv1)
  else none

/-- `mo_gline`, up to the vote. -/
def moGline (u : Setup) (source : Source) (parv1 parv2 : Str) : Except Reply Vote :=
  if !u.glines then .error (.notice "GLINE disabled".toList)
  else if !source.operGline then .error (.noPrivs "gline".toList)
  else
    match glineMask parv1 with
    | none => .error (.notice "Invalid parameters".toList)
    | some (user, host) =>
      if '!' ∈ user then .error (.notice "Invalid character '!' in gline".toList)
      else if checkWildGline u user host then
        .error (.notice ("Please include at least ".toList ++ decimal u.minNonwildcard ++
          " non-wildcard characters with the user@host".toList))
      else
        match shortCidr u host with
        | some least => .error (.notice ("Cannot set G-Lines with cidr length < ".toList ++
          decimal least))
        | none => .ok ⟨source, user, host, parv2.take reasonLen⟩

/-- `mc_gline`, up to the vote: the request of an oper on another server. -/
def mcGline (u : Setup) (source : Source) (user host reason : Str) : Option Vote :=
  if reason = [] then none
  else if '!' ∈ user then none
  else if !u.glines then none
  else if checkWildGline u user host then none
  else if (shortCidr u host).isSome then none
  else some ⟨source, user, host, reason.take reasonLen⟩

/-- `ms_gline`, up to the vote: the request as an old server sends it, with the client of the name
that it has, if there is one. -/
def msGline (u : Setup) (server : Str) (acptr : Option Source) (user host reason : Str) :
    Option Vote :=
  acptr.bind fun acptr =>
    if reason = [] then none
    else if acptr.server ≠ server then none
    else if '!' ∈ user then none
    else if !u.glines then none
    else if checkWildGline u user host then none
    else some ⟨acptr, user, host, reason.take reasonLen⟩

/-- The user and the host of `mo_ungline`. -/
def unglineMask (parv1 : Str) : Option (Str × Str) :=
  if '@' ∈ parv1 then
    let user := parv1.takeWhile (· != '@')
    let host := (parv1.dropWhile (· != '@')).tail
    some (if user = [] then ['*'] else user, if host = [] then ['*'] else host)
  else if parv1.head? = some '*' then some (['*'], parv1)
  else none

/-- The host of a G-line is that of a request to remove it: the same text, or the same address and
the same bits. -/
def sameHost (host glined : Str) : Bool :=
  match parseNetmask host, parseNetmask glined with
  | .host, .host => irccmp glined host
  | .ipv4 addr bits, .ipv4 caddr cbits => bits == cbits && compWithMask addr.bytes caddr.bytes
    (bits % 2 ^ 32).toNat
  | .ipv6 addr bits, .ipv6 caddr cbits => bits == cbits && compWithMask addr.bytes caddr.bytes
    (bits % 2 ^ 32).toNat
  | _, _ => false

/-- `remove_temp_gline`: the state, and whether a G-line was removed. -/
def State.removeTempGline (s : State) (user host : Str) : State × Bool :=
  if s.glines.any fun c => irccmp user c.user && sameHost host c.host then
    ({ s with glines := s.glines.eraseP fun c => irccmp user c.user && sameHost host c.host }, true)
  else (s, false)

/-- `mo_ungline`: the state, and the notice. -/
def State.moUngline (u : Setup) (s : State) (source : Source) (parv1 : Str) : State × Reply :=
  if !u.glines then (s, .notice "UNGLINE disabled".toList)
  else if !source.operUnkline || !source.operGline then (s, .noPrivs "unkline".toList)
  else
    match unglineMask parv1 with
    | none => (s, .notice "Invalid parameters".toList)
    | some (user, host) =>
      let (s, removed) := s.removeTempGline user host
      (s, .notice ((if removed then "Un-glined [".toList else "No G-Line for ".toList) ++ user ++
        '@' :: host ++ if removed then "]".toList else []))

/-- `expire_glines`. -/
def State.expireGlines (s : State) : State :=
  { s with glines := s.glines.filter fun c => decide (s.now < c.hold) }

/-! ### Runs -/

/-- What happens: the commands, with the text of the date; the events; and a change of the time. -/
inductive Op
  | mo (source : Source) (parv1 parv2 date : Str)
  | mc (source : Source) (user host reason date : Str)
  | ms (server : Str) (acptr : Option Source) (user host reason date : Str)
  | ungline (source : Source) (parv1 : Str)
  | expirePending
  | expire
  | setTime (now : ℤ)
  deriving DecidableEq

/-- The vote that an operation is, with the date. -/
def Op.vote? (u : Setup) : Op → Option (Vote × Str)
  | .mo source parv1 parv2 date => (moGline u source parv1 parv2).toOption.map (·, date)
  | .mc source user host reason date => (mcGline u source user host reason).map (·, date)
  | .ms server acptr user host reason date => (msGline u server acptr user host reason).map (·,
    date)
  | _ => none

/-- One operation: a vote, or what an operation does that is none. -/
def step (u : Setup) (s : State) (op : Op) : State :=
  match op.vote? u with
  | some (v, date) => (s.majorityGline u v.source v.user v.host v.reason date).1
  | none =>
    match op with
    | .ungline source parv1 => (s.moUngline u source parv1).1
    | .expirePending => s.expirePendingGlines
    | .expire => s.expireGlines
    | .setTime now => { s with now := now }
    | _ => s

end Ratbox.Gline
