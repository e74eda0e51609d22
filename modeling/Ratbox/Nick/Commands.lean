import Ratbox.Nick.Tables

/-!
# NICK, UID, SAVE and KILL

A client takes a nick, changes it, or is introduced by the server it is on. When a nick that is
introduced, or that a client changes to, is taken, the clients collide: by their times, and by
whether they have the same user and host, it is decided who loses; who loses is killed, or, if the
servers can do so, saved: put under its id.

Source: `modules/core/m_nick.c`, lines 110–1273, `modules/core/m_kill.c`, lines 155–330,
`src/send.c`, lines 443–487 and 1003–1042, `src/s_user.c`, lines 505–597, `src/client.c`, lines
925–1240, and `include/match.h`.

## Main definitions

* `Nick.Server`: a server.
* `Nick.mrNick`, `Nick.mNick`: a client takes or changes its nick.
* `Nick.msNick`, `Nick.mcNick`: what other servers say about nicks.
* `Nick.Server.performNickCollides`, `Nick.Server.performNickchangeCollides`: collisions.
* `Nick.msSave`, `Nick.msKill`: `SAVE` and `KILL`.

The functions have the parameters of a message as they are read: times are numbers. Not modelled
are the modes of users, the notices to operators and to the members of channels, `MONITOR`,
`ACCEPT`, the history of nicks and the chase after a `KILL`, and the messages that `RSFNC` brings.
-/

namespace Ratbox.Nick

open Text HashTable Function

/-! ### The server -/

/-- The numerics that the functions send to a client. -/
inductive Numeric
  | noNicknameGiven
  | erroneusNickname (nick : Str)
  | unavailResource (nick : Str)
  | nicknameInUse (nick : Str)
  | nickTooFast (nick : Str)
  | nickCollision (nick : Str)
  | saveNick (id : Str)
  deriving DecidableEq

/-- How a client is introduced: by `UID`, with its address and id, or by `NICK`, with its server. -/
inductive Origin
  | uid (sockhost uid : Str)
  | server (name : Str)
  deriving DecidableEq

/-- The parameters of a message that introduces a client. -/
structure Intro where
  nick : Str
  hopcount : ℤ
  newts : ℤ
  username : Str
  host : Str
  info : Str
  origin : Origin
  deriving DecidableEq

/-- The messages between servers, each with its source. -/
inductive Msg
  | intro (source : Str) (parv : Intro)
  | nick (source nick : Str) (newts : ℤ)
  | save (source uid : Str) (ts : ℤ)
  | kill (source target : Str)
  | quit (source : Str)
  deriving DecidableEq

/-- The settings: `collision_fnc`, `anti_nick_flood`, `max_nick_time`, `max_nick_changes`,
`nick_delay`, `nicklen` and `nicklen_min`, and the nicks that are reserved. -/
structure Conf where
  collisionFnc : Bool
  antiNickFlood : Bool
  maxNickTime : ℤ
  maxNickChanges : ℤ
  nickDelay : ℤ
  nicklen : ℕ
  nicklenMin : ℕ
  resv : Str → Bool

/-- What no client changes: the settings, the server itself, `serv_list`, and the way to each server
it knows. -/
structure Setup where
  conf : Conf
  me : Serv
  servList : List Serv
  servers : List (List Serv)

/-- `find_server`. -/
def Setup.findServer (u : Setup) (name : Str) : Option (List Serv) :=
  u.servers.find? fun way =>
    way.head?.any fun serv => if digitName name then serv.id == name else irccmp serv.name name

/-- A server: the time, and what it has sent to servers and to clients. -/
structure Server extends Tables, Setup where
  now : ℤ
  sent : List (Serv × Msg)
  told : List (Addr × Numeric)

/-- `SAVE_NICKTS`. -/
def saveNickts : ℤ := 100

/-! ### Names -/

/-- `IsNickChar`. -/
def isNickChar (c : Char) : Bool :=
  c.isAlpha || isDigit c ||
    ['-', '[', '\\', ']', '^', '_', '\x60', '\x7b', '|', '\x7d'].contains c

/-- `IsUserChar`. -/
def isUserChar (c : Char) : Bool := isNickChar c || ['$', '.', '~'].contains c

/-- `IsHostChar`. -/
def isHostChar (c : Char) : Bool := c.isAlpha || isDigit c || ['-', '.', ':'].contains c

/-- `IsIdChar`. -/
def isIdChar (c : Char) : Bool := c.isAlpha || isDigit c

/-- `clean_nick`. -/
def cleanNick (conf : Conf) (nick : Str) (locClient : Bool) : Bool :=
  !(nick.head? == some '-' || nick.isEmpty) && !(locClient && digitName nick) &&
    nick.all isNickChar && !(locClient && decide (nick.length < conf.nicklenMin)) &&
    decide (nick.length < conf.nicklen)

/-- `clean_username`. -/
def cleanUsername (username : Str) : Bool :=
  username.all isUserChar && decide (username.length ≤ 10)

/-- `clean_host`. -/
def cleanHost (host : Str) : Bool := host.all isHostChar && decide (host.length ≤ 63)

/-- `clean_uid`. -/
def cleanUid (uid : Str) : Bool :=
  digitName uid && uid.tail.all isIdChar && decide (uid.length = 9)

namespace Server

/-! ### Sending -/

/-- `sendto_one`, to a server. -/
def sendtoOne (s : Server) (link : Serv) (m : Msg) : Server :=
  { s with sent := s.sent ++ [(link, m)] }

/-- `sendto_one_numeric`. -/
def tell (s : Server) (p : Addr) (n : Numeric) : Server := { s with told := s.told ++ [(p, n)] }

/-- `sendto_server`, to the servers but one that have the capabilities. -/
def sendtoServer (s : Server) (one : Option Serv) (caps : Serv → Bool) (m : Msg) : Server :=
  { s with
    sent := s.sent ++
      (s.servList.filter fun link => decide (one ≠ some link) && caps link).map fun link => (link,
        m) }

/-- `get_id`, for a name and an id that go to a server. -/
def getId (name id : Str) (dest : Serv) : Str := if dest.id ≠ [] ∧ id ≠ [] then id else name

/-- `kill_client`. -/
def killClient (s : Server) (link : Serv) (diedie : Client) : Server :=
  s.sendtoOne link (.kill (getId s.me.name s.me.id link) (getId diedie.name diedie.id link))

/-- `kill_client_serv_butone`. A server that has an id gets the `KILL` of a client with an id even
if it is the one. -/
def killClientServButone (s : Server) (one : Option Serv) (target : Client) : Server :=
  { s with
    sent := s.sent ++
      (s.servList.filter fun link =>
        !(decide (one = some link) && (link.id.isEmpty || target.id.isEmpty))).map fun link =>
        (link, if link.id ≠ [] then
            .kill (if s.me.id ≠ [] then s.me.id else s.me.name) target.useId
          else .kill s.me.name target.name) }

/-- `relay_kill`, for a source with its name and id. -/
def relayKill (s : Server) (one : Serv) (source : Str × Str) (target : Client) : Server :=
  { s with
    sent := s.sent ++ (s.servList.filter fun link => link ≠ one).map fun link =>
      (link, .kill (getId source.1 source.2 link) (getId target.name target.id link)) }

/-- `introduce_client`. -/
def introduceClient (s : Server) (one : Option Serv) (c : Client) : Server :=
  let servptr := c.way.headD s.me
  let uid : Msg := .intro servptr.id
    ⟨c.name, c.hopcount + 1, c.tsinfo, c.username, c.host, c.info, .uid c.sockhost c.id⟩
  let nick : Msg := .intro []
    ⟨c.name, c.hopcount + 1, c.tsinfo, c.username, c.host, c.info, .server servptr.name⟩
  if c.hasId then (s.sendtoServer one (·.ts6) uid).sendtoServer one (!·.ts6) nick
  else s.sendtoServer one (fun _ => true) nick

/-! ### Clients come and go -/

/-- `exit_client`. A client that is killed sends no `QUIT`. -/
def exitClient (s : Server) (one : Option Serv) (p : Addr) (killed : Bool) : Server :=
  match s.client p with
  | none => s
  | some c =>
    let s := { s with toTables := s.toTables.remove p c }
    if c.status = .client ∧ !killed then
      (s.sendtoServer one (·.ts6) (.quit c.useId)).sendtoServer one (!·.ts6) (.quit c.name)
    else s

/-- A new client is put in the tables, and a delay of its nick ends; when it comes from the wrong
direction it is killed. -/
def addClient (s : Server) (link : Serv) (c : Client) : Server :=
  let p := s.fresh
  let s := { s with toTables := (s.toTables.freeNdEntry c.name).enter c }
  if c.link ≠ some link then (s.killClient link c).exitClient (some link) p true
  else s.introduceClient (some link) c

/-- `register_client`. -/
def registerClient (s : Server) (link : Serv) (server : List Serv) (nick : Str) (newts : ℤ)
    (parv : Intro) : Server :=
  let c : Client :=
    { name := nick, username := parv.username, host := parv.host, sockhost := [],
      info := parv.info, id := [], tsinfo := newts, hopcount := parv.hopcount,
      status := .client, way := server, fake := false, exemptResv := false, oper := false,
      lastNickChange := 0, numberOfNickChanges := 0 }
  match parv.origin with
  | .uid sockhost uid => s.addClient link { c with sockhost := sockhost, id := uid }
  | .server name =>
    match s.findServer name with
    | none => s.killClient link c
    | some way => s.addClient link { c with way := way }

/-! ### Changes of a nick -/

/-- The flood limit on changes of the nick. -/
def tooFast (s : Server) (c : Client) : Bool :=
  s.conf.antiNickFlood && !c.oper && decide (s.conf.maxNickChanges < c.numberOfNickChanges)

/-- The count of changes starts again after a time. -/
def resetChanges (s : Server) (c : Client) : Client :=
  if c.lastNickChange + s.conf.maxNickTime < s.now then { c with numberOfNickChanges := 0 } else c

/-- A change is counted. -/
def countChange (s : Server) (c : Client) : Client :=
  { c with lastNickChange := s.now, numberOfNickChanges := c.numberOfNickChanges + 1 }

/-- The time of a client that changes its nick; it stays when only the case changes. -/
def retime (c : Client) (nick : Str) (tsinfo : ℤ) : Client :=
  if irccmp c.name nick then c else { c with tsinfo := tsinfo }

/-- `change_local_nick`. -/
def changeLocalNick (s : Server) (p : Addr) (nick : Str) (dosend : Bool) : Server :=
  match s.client p with
  | none => s
  | some c =>
    let c := if dosend then s.resetChanges c else c
    if dosend ∧ s.tooFast c then
      { s with toTables := s.toTables.set p c }.tell p (.nickTooFast nick)
    else
      let c := if dosend then s.countChange c else c
      let c := retime c nick (if s.now ≤ c.tsinfo then c.tsinfo + 1 else s.now)
      let s := if dosend then
          (s.sendtoServer none (·.ts6) (.nick c.useId nick c.tsinfo)).sendtoServer none (!·.ts6)
            (.nick c.name nick c.tsinfo)
        else s
      { s with toTables := s.toTables.rename p c nick }

/-- `change_remote_nick`. -/
def changeRemoteNick (s : Server) (one : Option Serv) (p : Addr) (newts : ℤ) (nick : Str)
    (dosend : Bool) : Server :=
  match s.client p with
  | none => s
  | some c =>
    let c := retime c nick (if newts ≠ 0 then newts else s.now)
    let s := if dosend then
        (s.sendtoServer one (·.ts6) (.nick c.useId nick c.tsinfo)).sendtoServer one (!·.ts6)
          (.nick c.name nick c.tsinfo)
      else s
    { s with toTables := (s.toTables.freeNdEntry nick).rename p c nick }

/-! ### SAVE -/

/-- `can_save`, for a client. -/
def canSave (c : Client) : Bool := c.myClient || (c.hasId && c.way.all (·.save))

/-- `can_save`, for a server that introduces a client. -/
def canSaveServer (way : List Serv) : Bool :=
  way.head?.any (fun serv => !serv.id.isEmpty) && way.all (·.save)

/-- `save_user`, for a source with its id, on behalf of a server or of this one. -/
def saveUser (s : Server) (one : Option Serv) (source : Str) (p : Addr) : Server :=
  match s.client p with
  | none => s
  | some c =>
    if !c.myConnect && (!c.hasId || !c.link.any (·.save)) then
      (s.killClientServButone none c).exitClient none p true
    else
      let s := s.sendtoServer one (fun link => link.save && link.ts6) (.save source c.id c.tsinfo)
      let s := s.sendtoServer one (fun link => link.ts6 && !link.save) (.nick c.id c.id saveNickts)
      let s := s.sendtoServer one (fun link => !link.ts6) (.nick c.name c.id saveNickts)
      if c.myClient then
        let s := (s.tell p (.saveNick c.id)).changeLocalNick p c.id false
        match s.client p with
        | none => s
        | some c => { s with toTables := s.toTables.set p { c with tsinfo := saveNickts } }
      else s.changeRemoteNick none p saveNickts c.id false

/-! ### Collisions -/

/-- The rule of collisions between a client with the time `newts` and one that has the nick: with
the same user and host the older one loses, else the younger one. -/
def newLoses (sameuser : Bool) (newts tsinfo : ℤ) : Bool :=
  (sameuser && decide (newts < tsinfo)) || (!sameuser && decide (newts > tsinfo))

/-- There is no time, or the times are the same. -/
def bothLose (newts tsinfo : ℤ) : Bool := newts == 0 || tsinfo == 0 || newts == tsinfo

/-- A service that collides is introduced again. -/
def reintroduce (s : Server) (target : Client) : Server :=
  (s.killClientServButone none target).introduceClient none target

/-- `perform_nick_collides`. -/
def performNickCollides (s : Server) (source : List Serv) (link : Serv) (p : Addr) (parv : Intro) :
    Server :=
  match s.client p with
  | none => s
  | some target =>
    let uid : Option Str := match parv.origin with
      | .uid _ uid => some uid
      | .server _ => none
    let useSave := s.conf.collisionFnc && canSave target && uid.isSome && canSaveServer source
    if bothLose parv.newts target.tsinfo then
      if target.fake then s.reintroduce target
      else if useSave then
        ((s.saveUser none s.me.id p).sendtoOne link
          (.save s.me.id (uid.getD []) parv.newts)).registerClient link source (uid.getD [])
          saveNickts parv
      else
        let s := s.tell p (.nickCollision target.name)
        let s := match uid with
          | some uid => s.sendtoOne link (.kill s.me.id uid)
          | none => s
        (s.killClientServButone none target).exitClient (some link) p true
    else
      let sameuser := irccmp target.username parv.username && irccmp target.host parv.host
      if newLoses sameuser parv.newts target.tsinfo then
        match uid with
        | some uid =>
          if useSave then
            (s.sendtoOne link (.save s.me.id uid parv.newts)).registerClient link source uid
              saveNickts parv
          else s.sendtoOne link (.kill s.me.id uid)
        | none => s
      else if target.fake then s.reintroduce target
      else
        let s := if useSave then s.saveUser none s.me.id p
          else ((s.tell p (.nickCollision target.name)).killClientServButone (some link)
            target).exitClient (some link) p true
        s.registerClient link source parv.nick parv.newts parv

/-- `perform_nickchange_collides`. -/
def performNickchangeCollides (s : Server) (source_p : Addr) (link : Serv) (p : Addr) (newts : ℤ)
    (nick : Str) : Server :=
  match s.client source_p, s.client p with
  | some source, some target =>
    let useSave := s.conf.collisionFnc && canSave target && canSave source
    if bothLose newts target.tsinfo then
      if useSave && !target.fake then
        let s := (s.saveUser none s.me.id p).sendtoOne link (.save s.me.id source.id newts)
        if digitName source.name then s
        else s.changeRemoteNick (some link) source_p saveNickts source.id true
      else
        let s := if target.fake then s.reintroduce target
          else (s.tell p (.nickCollision target.name)).killClientServButone none source
        ((s.killClientServButone none target).exitClient none p true).exitClient (some link)
          source_p true
    else
      let sameuser := irccmp target.username source.username && irccmp target.host source.host
      if newLoses sameuser newts target.tsinfo then
        if useSave then
          let s := s.sendtoOne link (.save s.me.id source.id newts)
          if digitName source.name then s
          else s.changeRemoteNick (some link) source_p saveNickts source.id true
        else
          ((s.tell source_p (.nickCollision source.name)).killClientServButone (some link)
            source).exitClient (some link) source_p true
      else
        let s := if useSave then s.saveUser none s.me.id p
          else ((s.tell p (.nickCollision target.name)).killClientServButone (some link)
            target).exitClient (some link) p true
        s.changeRemoteNick (some link) source_p newts nick true
  | _, _ => s

/-! ### What the functions do to the tables -/

theorem myConnect_of_myClient {c : Client} (hmine : c.myClient = true) : c.myConnect = true := by
  rw [Client.myClient, Bool.and_eq_true] at hmine
  exact hmine.1

section Tables

variable (s : Server) (one : Option Serv) (link : Serv) (p : Addr) (c : Client) (m : Msg)

@[simp] theorem toTables_tell (n : Numeric) : (s.tell p n).toTables = s.toTables := rfl

@[simp] theorem toTables_sendtoServer (caps : Serv → Bool) :
    (s.sendtoServer one caps m).toTables = s.toTables := rfl

@[simp] theorem toTables_killClientServButone :
    (s.killClientServButone one c).toTables = s.toTables := rfl

@[simp] theorem toTables_introduceClient : (s.introduceClient one c).toTables = s.toTables := by
  rw [introduceClient]
  split <;> rfl

@[simp] theorem toTables_reintroduce : (s.reintroduce c).toTables = s.toTables := by
  rw [reintroduce, toTables_introduceClient, toTables_killClientServButone]

variable {s p c}

theorem toTables_exitClient (hp : s.client p = some c) (killed : Bool) :
    (s.exitClient one p killed).toTables = s.toTables.remove p c := by
  rw [exitClient, hp]
  dsimp only
  split <;> rfl

@[simp] theorem retime_name (nick : Str) (ts : ℤ) : (retime c nick ts).name = c.name := by
  rw [retime]
  split <;> rfl

@[simp] theorem retime_id (nick : Str) (ts : ℤ) : (retime c nick ts).id = c.id := by
  rw [retime]
  split <;> rfl

section

variable (hp : s.client p = some c)
include hp

/-- A change of the nick that the flood limit lets through. -/
theorem toTables_changeLocalNick {dosend : Bool}
    (hslow : dosend = true → s.tooFast (s.resetChanges c) = false) (nick : Str) :
    ∃ c', c'.name = c.name ∧ c'.id = c.id ∧
      (s.changeLocalNick p nick dosend).toTables = s.toTables.rename p c' nick := by
  have hreset : (s.resetChanges c).name = c.name ∧ (s.resetChanges c).id = c.id := by
    rw [resetChanges]
    split <;> exact ⟨rfl, rfl⟩
  rw [changeLocalNick, hp]
  cases dosend with
  | false => exact ⟨_, retime_name _ _, retime_id _ _, rfl⟩
  | true =>
    simp only [if_true, hslow rfl, Bool.false_eq_true, and_false, if_false]
    refine ⟨retime (s.countChange (s.resetChanges c)) nick _, ?_, ?_, rfl⟩
    · rw [retime_name]
      exact hreset.1
    · rw [retime_id]
      exact hreset.2

/-- A change of the nick that the flood limit refuses. -/
theorem toTables_changeLocalNick_tooFast
    (hfast : s.tooFast (s.resetChanges c) = true) (nick : Str) :
    (s.changeLocalNick p nick true).toTables = s.toTables.set p (s.resetChanges c) := by
  rw [changeLocalNick, hp]
  simp only [if_true, hfast, and_self]
  rfl

theorem toTables_changeRemoteNick (newts : ℤ) (nick : Str) (dosend : Bool) :
    (s.changeRemoteNick one p newts nick dosend).toTables =
      (s.toTables.freeNdEntry nick).rename p
        (retime c nick (if newts ≠ 0 then newts else s.now)) nick := by
  rw [changeRemoteNick, hp]
  cases dosend <;> rfl

/-- A client that cannot be saved is killed. -/
theorem toTables_saveUser_kill (source : Str)
    (hkill : (!c.myConnect && (!c.hasId || !c.link.any (·.save))) = true) :
    (s.saveUser one source p).toTables = s.toTables.remove p c := by
  rw [saveUser, hp]
  simp only [hkill, if_true]
  exact toTables_exitClient (s := s.killClientServButone none c) none hp true

/-- A client of this server that is saved gets its id as its nick, and the time 100. -/
theorem toTables_saveUser_mine (source : Str) (hmine : c.myClient = true) :
    (s.saveUser one source p).toTables =
      s.toTables.rename p { c with tsinfo := saveNickts } c.id := by
  rw [saveUser, hp]
  simp only [myConnect_of_myClient hmine, Bool.not_true, Bool.false_and, Bool.false_eq_true,
    if_false, hmine, if_true]
  rw [changeLocalNick]
  simp only [toTables_tell, toTables_sendtoServer, hp, Bool.false_eq_true, false_and, if_false,
    Tables.rename, Tables.set, update_self, update_idem, retime_name]
  rw [retime]
  split <;> rfl

/-- A client of another server that is saved gets its id as its nick, and the time 100. -/
theorem toTables_saveUser_remote (source : Str)
    (hsave : (!c.myConnect && (!c.hasId || !c.link.any (·.save))) = false)
    (hmine : c.myClient = false) :
    (s.saveUser one source p).toTables =
      (s.toTables.freeNdEntry c.id).rename p (retime c c.id saveNickts) c.id := by
  rw [saveUser, hp]
  simp only [hsave, Bool.false_eq_true, if_false, hmine]
  rw [toTables_changeRemoteNick none (by exact hp)]
  rfl

end

theorem client_saveUser_of_ne (source : Str) {q : Addr} (hqp : q ≠ p) :
    (s.saveUser one source p).client q = s.client q := by
  cases hp : s.client p with
  | none => rw [saveUser, hp]
  | some c =>
    by_cases hkill : (!c.myConnect && (!c.hasId || !c.link.any (·.save))) = true
    · rw [toTables_saveUser_kill one hp source hkill]
      exact update_of_ne hqp ..
    · rw [Bool.not_eq_true] at hkill
      by_cases hmine : c.myClient = true
      · rw [toTables_saveUser_mine one hp source hmine]
        exact update_of_ne hqp ..
      · rw [toTables_saveUser_remote one hp source hkill (by simpa using hmine)]
        exact update_of_ne hqp ..

theorem client_exitClient_of_ne (killed : Bool) {q : Addr} (hqp : q ≠ p) :
    (s.exitClient one p killed).client q = s.client q := by
  cases hp : s.client p with
  | none => rw [exitClient, hp]
  | some c =>
    rw [toTables_exitClient one hp]
    exact update_of_ne hqp ..

end Tables

/-! ### What they leave as it is -/

section Setup

variable (s : Server) (one : Option Serv) (link : Serv) (p : Addr) (c : Client) (m : Msg)

@[simp] theorem toSetup_exitClient (killed : Bool) :
    (s.exitClient one p killed).toSetup = s.toSetup := by
  rw [exitClient]
  split
  · rfl
  · dsimp only
    split <;> rfl

@[simp] theorem toSetup_changeLocalNick (nick : Str) (dosend : Bool) :
    (s.changeLocalNick p nick dosend).toSetup = s.toSetup := by
  rw [changeLocalNick]
  split
  · rfl
  · dsimp only
    cases dosend
    · rfl
    · simp only [if_true]
      split <;> rfl

@[simp] theorem toSetup_changeRemoteNick (newts : ℤ) (nick : Str) (dosend : Bool) :
    (s.changeRemoteNick one p newts nick dosend).toSetup = s.toSetup := by
  rw [changeRemoteNick]
  split
  · rfl
  · cases dosend <;> rfl

theorem sent_changeLocalNick (nick : Str) : (s.changeLocalNick p nick false).sent = s.sent := by
  rw [changeLocalNick]
  split <;> rfl

variable {s p c}

theorem toSetup_saveUser_mine (hp : s.client p = some c) (source : Str)
    (hmine : c.myClient = true) : (s.saveUser one source p).toSetup = s.toSetup := by
  rw [saveUser, hp]
  simp only [myConnect_of_myClient hmine, Bool.not_true, Bool.false_and, Bool.false_eq_true,
    if_false, hmine, if_true]
  split
  · exact toSetup_changeLocalNick _ _ _ _
  · exact toSetup_changeLocalNick _ _ _ _

/-- The servers are told of the save before the nick is changed. -/
theorem sent_saveUser_mine (hp : s.client p = some c) (source : Str) (hmine : c.myClient = true) :
    (s.saveUser one source p).sent =
      (((s.sendtoServer one (fun link => link.save && link.ts6)
        (.save source c.id c.tsinfo)).sendtoServer one (fun link => link.ts6 && !link.save)
        (.nick c.id c.id saveNickts)).sendtoServer one (fun link => !link.ts6)
        (.nick c.name c.id saveNickts)).sent := by
  rw [saveUser, hp]
  simp only [myConnect_of_myClient hmine, Bool.not_true, Bool.false_and, Bool.false_eq_true,
    if_false, hmine, if_true]
  split
  · exact sent_changeLocalNick _ _ _
  · exact sent_changeLocalNick _ _ _

end Setup

end Server

open Server

/-! ### The commands of clients -/

/-- `set_initial_nick`, without the registration that follows when `USER` has come. -/
def setInitialNick (s : Server) (source_p : Addr) (nick : Str) : Server :=
  match s.client source_p with
  | none => s
  | some c => { s with toTables := s.toTables.rename source_p { c with tsinfo := s.now } nick }

/-- `mr_nick`: a client that is not registered yet takes a nick. -/
def mrNick (s : Server) (source_p : Addr) (parv : Str) : Server :=
  match s.client source_p with
  | none => s
  | some c =>
    let arg := parv.takeWhile (· ≠ '~')
    let nick := strlcpy arg s.conf.nicklen
    if arg.isEmpty then s.tell source_p .noNicknameGiven
    else if !cleanNick s.conf nick true then s.tell source_p (.erroneusNickname arg)
    else if !c.exemptResv && s.conf.resv nick then s.tell source_p (.erroneusNickname nick)
    else if s.delayed nick then s.tell source_p (.unavailResource nick)
    else
      match s.findClient nick with
      | none => setInitialNick s source_p nick
      | some target_p =>
        if source_p = target_p then
          { s with toTables := s.toTables.set source_p { c with name := nick } }
        else s.tell source_p (.nicknameInUse nick)

/-- What `m_nick` does about a nick: it refuses it, it leaves the nick as it is, or it makes the
change, after an unregistered connection that has the nick has exited. -/
inductive Verdict
  | refuse (n : Numeric)
  | nothing
  | change (nick : Str) (overridden : Option Addr)
  deriving DecidableEq

/-- The checks of `m_nick`. -/
def mNickVerdict (s : Server) (source_p : Addr) (parv : Str) : Verdict :=
  let arg := parv.takeWhile (· ≠ '~')
  let nick := strlcpy arg s.conf.nicklen
  if arg.isEmpty then .refuse .noNicknameGiven
  else if !cleanNick s.conf nick true then .refuse (.erroneusNickname nick)
  else if s.conf.resv nick then .refuse (.erroneusNickname nick)
  -- The table here is `HASH_CLIENT`, where `mr_nick` has `HASH_ND`.
  else if (s.findNick nick).isSome then .refuse (.unavailResource nick)
  else
    match s.findClient nick with
    | none => .change nick none
    | some target_p =>
      match s.client target_p with
      | none => .nothing
      | some target =>
        if target_p = source_p then if target.name ≠ nick then .change nick none else .nothing
        else if target.status = .unknown then .change nick (some target_p)
        else .refuse (.nicknameInUse nick)

/-- `m_nick`: a registered client of this server changes its nick. -/
def mNick (s : Server) (source_p : Addr) (parv : Str) : Server :=
  match mNickVerdict s source_p parv with
  | .refuse n => s.tell source_p n
  | .nothing => s
  | .change nick none => s.changeLocalNick source_p nick true
  | .change nick (some target_p) =>
    (s.exitClient none target_p false).changeLocalNick source_p nick true

/-! ### The commands of servers -/

/-- What `ms_nick`, `ms_uid` and `mc_nick` do about the nick: it is free, or an unregistered
connection that has it exits; or the client has it itself, or it collides. -/
def takeNick (s : Server) (nick : Str) (source_p : Option Addr) (take : Server → Server)
    (collide : Addr → Server) : Server :=
  match s.findClient nick with
  | none => take s
  | some target_p =>
    match s.client target_p with
    | none => s
    | some target =>
      if target.status = .unknown then take (s.exitClient none target_p false)
      else if source_p = some target_p then if target.name ≠ nick then take s else s
      else collide target_p

/-- The checks of `ms_nick` and `ms_uid`: of the nick, of the user and host, and of the id. -/
def cleanIntro (conf : Conf) (parv : Intro) : Bool :=
  cleanNick conf parv.nick false && cleanUsername parv.username && cleanHost parv.host &&
    match parv.origin with
    | .uid _ uid => cleanUid uid
    | .server _ => true

/-- `ms_nick` and `ms_uid`: a server introduces a client. The source of the message is a server,
which no nick names. -/
def msNick (s : Server) (link : Serv) (source : List Serv) (parv : Intro) : Server :=
  if cleanIntro s.conf parv then
    -- `REALLEN`
    let parv := { parv with info := parv.info.take 50 }
    takeNick s parv.nick none
      (fun s => s.registerClient link source parv.nick parv.newts parv)
      fun target_p => s.performNickCollides source link target_p parv
  else
    match parv.origin with
    | .uid _ uid => s.sendtoOne link (.kill s.me.id uid)
    | .server _ => s.sendtoOne link (.kill s.me.name parv.nick)

/-- `mc_nick`: a client of another server changes its nick. -/
def mcNick (s : Server) (link : Serv) (source_p : Addr) (nick : Str) (newts : ℤ) : Server :=
  match s.client source_p with
  | none => s
  | some c =>
    if !cleanNick s.conf nick false then
      ((s.sendtoOne link (.kill s.me.name nick)).killClientServButone (some link)
        c).exitClient (some link) source_p true
    else
      takeNick s nick (some source_p)
        (fun s => s.changeRemoteNick (some link) source_p newts nick true)
        fun target_p => s.performNickchangeCollides source_p link target_p newts nick

/-- `ms_save`. -/
def msSave (s : Server) (link : Serv) (source uid : Str) (ts : ℤ) : Server :=
  match s.findId uid with
  | none => s
  | some target_p =>
    match s.client target_p with
    | none => s
    | some target =>
      if target.status ≠ .client then s
      else if digitName target.name then s
      else if target.tsinfo = ts then s.saveUser (some link) source target_p
      else s

/-- `ms_kill`, for a source with its name and id. -/
def msKill (s : Server) (link : Serv) (source : Str × Str) (user : Str) : Server :=
  match s.findClient user with
  | none => s
  | some target_p =>
    match s.client target_p with
    | none => s
    | some target =>
      if target.status ≠ .client then s
      else if target.fake then s.introduceClient none target
      else (s.relayKill link source target).exitClient (some link) target_p true

end Ratbox.Nick
