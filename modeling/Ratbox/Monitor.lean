import Ratbox.Dlink
import Ratbox.Hash

/-!
# Nicks that are watched

A client watches nicks with the command MONITOR, and is told when a client with such a nick comes or
goes. For each nick that is watched there is a monitor in `HASH_MONITOR`, with the list of the
clients that watch it; each client has the list of its monitors. A monitor is made for its first
client and freed with its last one. The list of a client is cleared at once by MONITOR C and when
the client exits, which ends the server if the list is not empty.

Source: `src/monitor.c`, lines 43–141, `modules/m_monitor.c`, lines 77–350, `src/send.c`, lines
824–849, and `libratbox/src/tools.c`, lines 40–79.

## Main definitions

* `Monitor.State`: the monitors and the lists.
* `Monitor.findMonitor`, `Monitor.freeMonitor`, `Monitor.clearMonitor`: the operations on monitors.
* `Monitor.addMonitor`, `Monitor.delMonitor`, `Monitor.listMonitor`, `Monitor.showMonitorStatus`:
  the commands.
* `Monitor.monitorSignon`, `Monitor.monitorSignoff`: what the clients are told.
* `Monitor.Tied`, `Monitor.Watched`: the monitors, the table and the lists belong together.
* `Monitor.Op.clears`: the client whose list is cleared.

## Main results

* `Monitor.Good.act`: every operation keeps this.
* `Monitor.watched_iff`: the runs that are made are those in which empty lists are cleared only.
* `Monitor.Good.notify`: a client is told of the nicks that it watches.
-/

namespace Ratbox.Monitor

open Text Hash Nick List Option

/-- The address of a `struct Client`. -/
abbrev Client := ℕ

/-- `HASH_MONITOR`. -/
def hashMonitor : HashF := ⟨.irccmp, 16, 0⟩

/-- `struct monitor`. -/
structure Monitor where
  hnode : Node
  users : List Client
  name : Str
  deriving DecidableEq

/-- The table, the monitors that are allocated, the next address of a monitor, and the field
`monitor_list` of each client. -/
structure State where
  table : Table
  monitor : ℕ → Option Monitor
  fresh : ℕ
  monitorList : Client → List ℕ

/-- No monitors yet. -/
def State.empty : State := ⟨Table.empty, fun _ => none, 0, fun _ => []⟩

/-! ### Monitors -/

/-- Write the list `users` of a monitor. -/
def State.setUsers (s : State) (m : ℕ) (monptr : Monitor) (users : List Client) : State :=
  { s with monitor := Function.update s.monitor m (some { monptr with users := users }) }

/-- Write the list `monitor_list` of a client. -/
def State.setList (s : State) (c : Client) (l : List ℕ) : State :=
  { s with monitorList := Function.update s.monitorList c l }

section Writes

variable (s : State) (m : ℕ) (p : Monitor) (c : Client) (users : List Client) (l : List ℕ)

@[simp] theorem monitor_setUsers :
    (s.setUsers m p users).monitor = Function.update s.monitor m (some { p with users := users }) :=
    rfl

@[simp] theorem monitorList_setUsers : (s.setUsers m p users).monitorList = s.monitorList := rfl

@[simp] theorem table_setUsers : (s.setUsers m p users).table = s.table := rfl

@[simp] theorem monitor_setList : (s.setList c l).monitor = s.monitor := rfl

@[simp] theorem monitorList_setList :
    (s.setList c l).monitorList = Function.update s.monitorList c l := rfl

@[simp] theorem table_setList : (s.setList c l).table = s.table := rfl

end Writes

/-- `find_monitor(name, false)`. -/
def findMonitor (s : State) (name : Str) : Option ℕ :=
  (hashFind hashMonitor s.table name).map (·.data)

/-- A new monitor. -/
def newMonitor (s : State) (name : Str) : State :=
  { s with
    table := hashAdd hashMonitor s.table name s.fresh
    monitor := Function.update s.monitor s.fresh (some ⟨added hashMonitor s.table name s.fresh, [],
      name⟩)
    fresh := s.fresh + 1 }

/-- `find_monitor(name, true)`. -/
def findMonitorAdd (s : State) (name : Str) : ℕ × State :=
  match findMonitor s name with
  | some m => (m, s)
  | none => (s.fresh, newMonitor s name)

/-- `free_monitor`, of a monitor that was not freed. -/
def freeMonitor (s : State) (m : ℕ) : Option State :=
  (s.monitor m).bind fun monptr =>
    if 0 < monptr.users.length then some s
    else (hashDelHnode s.table monptr.hnode).map fun table =>
      { s with table := table, monitor := Function.update s.monitor m none }

/-- `rb_dlinkFindDestroy(client_p, &monptr->users)`. -/
def dropUser (s : State) (m : ℕ) (c : Client) : Option State :=
  (s.monitor m).map fun monptr => s.setUsers m monptr (monptr.users.erase c)

/-- The loop of `clear_monitor`. `add_monitor` made the node that is freed with
`rb_dlinkAddAlloc`. -/
def clearLoop (c : Client) : List ℕ → State → Option State
  | [], s => some s
  | m :: ms, s => (dropUser s m c).bind fun s => (Dlink.freeNode s).bind fun s =>
      (freeMonitor s m).bind (clearLoop c ms)

/-- `clear_monitor`. -/
def clearMonitor (s : State) (c : Client) : Option State :=
  (clearLoop c (s.monitorList c) s).map fun s => s.setList c []

/-! ### Messages -/

/-- What is sent: a line, or a numeric with its text. -/
inductive Reply
  | line (buf : Str)
  | numeric (num : ℕ) (text : Str)
  deriving DecidableEq

/-- A client that is found by its nick. -/
structure Person where
  name : Str
  username : Str
  host : Str
  deriving DecidableEq

/-- `"%s!%s@%s"`. -/
def Person.mask (p : Person) : Str := p.name ++ '!' :: p.username ++ '@' :: p.host

/-- The settings `me.name`, `nicklen` and `max_monitor`. -/
structure Config where
  me : Str
  nicklen : ℕ
  maxMonitor : ℕ

/-- What `find_named_person` finds, and the clients with an I/O error. -/
structure World where
  person : Str → Option Person
  ioerror : Client → Bool

/-- A line that is put together: what is in front of it, and the names. -/
structure Line where
  head : Str
  names : Str
  deriving DecidableEq

/-- `form_str` of a numeric with an empty text, for a client. -/
def numericHead (cfg : Config) (num name : Str) : Str :=
  ':' :: cfg.me ++ ' ' :: num ++ ' ' :: name ++ [' ', ':']

/-- A name is put on a line. A line that would get too long is sent before. -/
def Line.put (l : Line) (arg : Str) : List Reply × Line :=
  let full := 512 - 3 ≤ l.head.length + l.names.length + arg.length + 1
  let names := if full then [] else l.names
  (if full then [.line (l.head ++ l.names)] else [], ⟨l.head, if names = [] then arg else names ++
    ',' :: arg⟩)

/-- A line with names is sent. -/
def Line.flush (l : Line) : List Reply := if l.names = [] then [] else [.line (l.head ++ l.names)]

/-- The lines of the nicks that are online and offline. -/
structure Lines where
  on : Line
  off : Line
  deriving DecidableEq

/-- The lines at first. -/
def Lines.start (cfg : Config) (name : Str) : Lines :=
  ⟨⟨numericHead cfg ['7', '3', '0'] name, []⟩, ⟨numericHead cfg ['7', '3', '1'] name, []⟩⟩

/-- A nick is put on the line for it. -/
def Lines.put (l : Lines) (w : World) (name : Str) : List Reply × Lines :=
  match w.person name with
  | some target => ((l.on.put target.mask).1, { l with on := (l.on.put target.mask).2 })
  | none => ((l.off.put name).1, { l with off := (l.off.put name).2 })

/-- The lines with names are sent. -/
def Lines.flush (l : Lines) : List Reply := l.on.flush ++ l.off.flush

/-! ### The commands -/

/-- `rb_strtok_r` with a comma: the token, and what is behind it. -/
def strtok (s : Str) : Option (Str × Str) :=
  let s := s.dropWhile (· = ',')
  if s = [] then none else some (s.takeWhile (· ≠ ','), (s.dropWhile (· ≠ ',')).drop 1)

/-- The tokens in turn, each with what is behind it. -/
def tokens : ℕ → Str → List (Str × Str)
  | 0, _ => []
  | fuel + 1, s =>
    match strtok s with
    | none => []
    | some (name, p) => (name, p) :: tokens fuel p

/-- A client watches a monitor. -/
def watch (s : State) (m : ℕ) (monptr : Monitor) (c : Client) : State :=
  (s.setUsers m monptr (c :: monptr.users)).setList c (m :: s.monitorList c)

/-- `"%d %s :Monitor list is full"`, with `"%s,%s"` in an array of 100. -/
def listFull (cfg : Config) (name p : Str) : Reply :=
  .numeric 734 (decimal cfg.maxMonitor ++ ' ' :: (name ++ ',' :: p).take 99 ++
    " :Monitor list is full".toList)

/-- The loop of `add_monitor`. -/
def addLoop (cfg : Config) (w : World) (c : Client) :
    List (Str × Str) → State → Lines → Option (State × List Reply)
  | [], s, l => some (s, l.flush)
  | (name, p) :: rest, s, l =>
    if cfg.nicklen - 1 < name.length then addLoop cfg w c rest s l
    else if cfg.maxMonitor ≤ (s.monitorList c).length then
      some (s, l.flush ++ [listFull cfg name p])
    else
      let found := findMonitorAdd s name
      (found.2.monitor found.1).bind fun monptr =>
        if c ∈ monptr.users then addLoop cfg w c rest found.2 l
        else (addLoop cfg w c rest (watch found.2 found.1 monptr c) (l.put w name).2).map fun r =>
          (r.1, (l.put w name).1 ++ r.2)

/-- `add_monitor`. -/
def addMonitor (cfg : Config) (w : World) (s : State) (c : Client) (name nicks : Str) :
    Option (State × List Reply) :=
  addLoop cfg w c (tokens nicks.length nicks) s (Lines.start cfg name)

/-- The loop of `del_monitor`. -/
def delLoop (c : Client) : List (Str × Str) → State → Option State
  | [], s => some s
  | (name, _) :: rest, s =>
    match findMonitor s name with
    | none => delLoop c rest s
    | some m => (dropUser s m c).bind fun s =>
      (freeMonitor (s.setList c ((s.monitorList c).erase m)) m).bind (delLoop c rest)

/-- `del_monitor`. -/
def delMonitor (s : State) (c : Client) (nicks : Str) : Option State :=
  if s.monitorList c = [] then some s else delLoop c (tokens nicks.length nicks) s

/-- The names of the monitors of a client. -/
def namesOf (s : State) (c : Client) : Option (List Str) :=
  (s.monitorList c).mapM fun m => (s.monitor m).map (·.name)

/-- Names are put on a line in turn. -/
def Line.putAll (l : Line) : List Str → List Reply × Line
  | [] => ([], l)
  | name :: names => ((l.put name).1 ++ ((l.put name).2.putAll names).1,
    ((l.put name).2.putAll names).2)

/-- `list_monitor`. -/
def listMonitor (cfg : Config) (s : State) (c : Client) (name : Str) : Option (List Reply) :=
  (namesOf s c).map fun names =>
    let l := (Line.mk (numericHead cfg ['7', '3', '2'] name) []).putAll names
    (if names = [] then [] else l.1 ++ [.line (l.2.head ++ l.2.names)]) ++
      [.numeric 733 ":End of MONITOR list".toList]

/-- Nicks are put on the lines for them in turn. -/
def Lines.putAll (w : World) (l : Lines) : List Str → List Reply × Lines
  | [] => ([], l)
  | name :: names =>
    ((l.put w name).1 ++ ((l.put w name).2.putAll w names).1, ((l.put w name).2.putAll w names).2)

/-- `show_monitor_status`. -/
def showMonitorStatus (cfg : Config) (w : World) (s : State) (c : Client) (name : Str) :
    Option (List Reply) :=
  (namesOf s c).map fun names =>
    ((Lines.start cfg name).putAll w names).1 ++ ((Lines.start cfg name).putAll w names).2.flush

/-- The reply to a command without its nicks. -/
def needMoreParams : Reply := .numeric 461 "MONITOR :Not enough parameters".toList

/-- `m_monitor`, of the client with the given nick, with the parameters behind the command. -/
def mMonitor (cfg : Config) (w : World) (s : State) (c : Client) (name : Str) (parv1 : Str)
    (parv : List Str) :
    Option (State × List Reply) :=
  match parv1.head? with
  | some '+' =>
    if parv.headD [] = [] then some (s, [needMoreParams]) else addMonitor cfg w s c name
      (parv.headD [])
  | some '-' =>
    if parv.headD [] = [] then some (s, [needMoreParams])
    else (delMonitor s c (parv.headD [])).map fun s => (s, [])
  | some 'C' | some 'c' => (clearMonitor s c).map fun s => (s, [])
  | some 'L' | some 'l' => (listMonitor cfg s c name).map fun replies => (s, replies)
  | some 'S' | some 's' => (showMonitorStatus cfg w s c name).map fun replies => (s, replies)
  | _ => some (s, [])

/-! ### Coming and going -/

/-- `sendto_monitor`. -/
def sendtoMonitor (w : World) (monptr : Monitor) (buf : Str) : List (Client × Reply) :=
  (monptr.users.filter fun c => !w.ioerror c).map fun c => (c, .line buf)

/-- What the clients that watch a nick are told. -/
def notify (w : World) (s : State) (name buf : Str) : Option (List (Client × Reply)) :=
  match findMonitor s name with
  | none => some []
  | some m => (s.monitor m).map fun monptr => sendtoMonitor w monptr buf

/-- `monitor_signon`. -/
def monitorSignon (cfg : Config) (w : World) (s : State) (client : Person) :
    Option (List (Client × Reply)) :=
  notify w s client.name (numericHead cfg ['7', '3', '0'] ['*'] ++ client.mask.take (30 + 63 + 10 +
    5 - 1))

/-- `monitor_signoff`. -/
def monitorSignoff (cfg : Config) (w : World) (s : State) (client : Person) :
    Option (List (Client × Reply)) :=
  notify w s client.name (numericHead cfg ['7', '3', '1'] ['*'] ++ client.name)

/-- What happens: a command, a client of this server exits, and a client comes with a nick or
goes. -/
inductive Op
  | monitor (c : Client) (name parv1 : Str) (parv : List Str)
  | exit (c : Client)
  | signon (client : Person)
  | signoff (client : Person)
  deriving DecidableEq

/-- The client whose list an operation clears. -/
def Op.clears : Op → Option Client
  | .monitor c _ parv1 _ => if parv1.head? = some 'C' ∨ parv1.head? = some 'c' then some c else none
  | .exit c => some c
  | _ => none

/-- What an operation does, and what is sent. -/
def act (cfg : Config) (s : State) (w : World) : Op → Option (State × List (Client × Reply))
  | .monitor c name parv1 parv => (mMonitor cfg w s c name parv1 parv).map fun r => (r.1,
    r.2.map (c, ·))
  | .exit c => (clearMonitor s c).map fun s => (s, [])
  | .signon client => (monitorSignon cfg w s client).map fun sent => (s, sent)
  | .signoff client => (monitorSignoff cfg w s client).map fun sent => (s, sent)

/-- A step, in the world at the time. -/
def step (cfg : Config) (s : State) (op : World × Op) : Option State :=
  (act cfg s op.1 op.2).map Prod.fst

/-! ### The monitors, the table and the lists -/

/-- The nodes of the monitors. -/
def State.node (s : State) : ℕ → Option Node := Option.map Monitor.hnode ∘ s.monitor

/-- The table has the nodes of the monitors, under their nicks; a client watches a monitor iff the
monitor is on its list. -/
structure Tied (s : State) : Prop where
  indexes : Hash.Indexes hashMonitor s.table s.node
  key : ∀ m p, s.monitor m = some p → p.hnode.key = p.name
  nodup : ∀ m p, s.monitor m = some p → p.users.Nodup
  users : ∀ m p, s.monitor m = some p → ∀ c, c ∈ p.users ↔ m ∈ s.monitorList c
  lists : ∀ c, (s.monitorList c).Nodup
  made : ∀ c, ∀ m ∈ s.monitorList c, ∃ p, s.monitor m = some p
  fresh : ∀ m, s.fresh ≤ m → s.monitor m = none

/-- Moreover, each monitor is watched, and no list is too long. -/
structure Good (cfg : Config) (s : State) : Prop where
  tied : Tied s
  watched : ∀ m p, s.monitor m = some p → p.users ≠ []
  length_le : ∀ c, (s.monitorList c).length ≤ cfg.maxMonitor

section Tied

variable {cfg : Config} {s s' : State} {m : ℕ} {p : Monitor} {c : Client} {name : Str}
  {ts : List (Str × Str)}

theorem key_hashMonitor (k : Str) : hashMonitor.Key k := nofun

/-- A search finds the monitor of the nick. -/
theorem Tied.findMonitor_eq_some_iff (h : Tied s) (hname : name ≠ []) :
    findMonitor s name = some m ↔ ∃ p, s.monitor m = some p ∧ irccmp name p.name = true := by
  rw [findMonitor, h.indexes.find (key_hashMonitor name) hname]
  constructor
  · rintro ⟨n, hn, hsame⟩
    obtain ⟨p, hp, rfl⟩ := Option.map_eq_some_iff.mp hn
    exact ⟨p, hp, h.key m p hp ▸ hsame⟩
  · rintro ⟨p, hp, hsame⟩
    exact ⟨p.hnode, by rw [State.node, Function.comp_apply, hp, map_some], (h.key m p hp).symm ▸
      hsame⟩

/-- A new monitor has no users. -/
theorem Tied.newMonitor (h : Tied s) (hname : name ≠ []) (hnone : findMonitor s name = none) :
    Tied (newMonitor s name) := by
  have hfresh := h.fresh s.fresh le_rfl
  have hnode : (Monitor.newMonitor s name).node =
      Function.update s.node s.fresh (some (added hashMonitor s.table name s.fresh)) :=
        Function.comp_update ..
  refine ⟨?_, fun m p hp => ?_, fun m p hp => ?_, fun m p hp c => ?_, h.lists, fun c m hm => ?_,
    fun m hm => ?_⟩
  · rw [hnode]
    exact h.indexes.add (by decide) (key_hashMonitor name) hname hnone
      (by rw [State.node, Function.comp_apply, hfresh, Option.map_none])
  · obtain ⟨rfl, hq⟩ | ⟨-, hp⟩ := update_eq_some.mp hp
    · cases hq
      rfl
    · exact h.key m p hp
  · obtain ⟨rfl, hq⟩ | ⟨-, hp⟩ := update_eq_some.mp hp
    · cases hq
      exact List.nodup_nil
    · exact h.nodup m p hp
  · obtain ⟨rfl, hq⟩ | ⟨-, hp⟩ := update_eq_some.mp hp
    · cases hq
      refine iff_of_false List.not_mem_nil fun hmem => ?_
      obtain ⟨p, hp⟩ := h.made c _ hmem
      cases hfresh.symm.trans hp
    · exact h.users m p hp c
  · obtain ⟨p, hp⟩ := h.made c m hm
    exact ⟨p, update_eq_some.mpr (.inr ⟨fun heq => absurd ((heq ▸ hfresh).symm.trans hp) (by simp),
      hp⟩)⟩
  · exact (Function.update_of_ne (Nat.ne_of_gt hm) _ _).trans (h.fresh m (Nat.le_of_succ_le hm))

/-- The users of a monitor and the list of a client are written. -/
theorem Tied.setUsers (h : Tied s) (hp : s.monitor m = some p) {users : List Client} {l : List ℕ}
    (husers : users.Nodup) (hl : l.Nodup) (hother : ∀ c', c' ≠ c → (c' ∈ users ↔ c' ∈ p.users))
    (hself : c ∈ users ↔ m ∈ l) (hmem : ∀ m', m' ≠ m → (m' ∈ l ↔ m' ∈ s.monitorList c)) :
    Tied ((s.setUsers m p users).setList c l) := by
  have hnode : ((s.setUsers m p users).setList c l).node = s.node := by
    have hsame : s.node m = some p.hnode := by rw [State.node, Function.comp_apply, hp, map_some]
    rw [State.node, monitor_setList, monitor_setUsers, Function.comp_update, map_some, ← State.node,
      ← hsame, Function.update_eq_self]
  -- What a monitor is after the change.
  have hstill : ∀ m' p', ((s.setUsers m p users).setList c l).monitor m' = some p' →
      ∃ q, s.monitor m' = some q ∧ p'.hnode = q.hnode ∧ p'.name = q.name ∧
        p'.users = if m' = m then users else q.users := by
    intro m' p' hp'
    rw [monitor_setList, monitor_setUsers, update_eq_some] at hp'
    obtain ⟨rfl, heq⟩ | ⟨hne, hp'⟩ := hp'
    · cases heq
      exact ⟨p, hp, rfl, rfl, (if_pos rfl).symm⟩
    · exact ⟨p', hp', rfl, rfl, (if_neg hne).symm⟩
  refine ⟨hnode ▸ h.indexes, fun m' p' hp' => ?_, fun m' p' hp' => ?_, fun m' p' hp' c' => ?_,
    fun c' => ?_, fun c' m' hm' => ?_, fun m' hm' => ?_⟩
  · obtain ⟨q, hq, hnode, hname, -⟩ := hstill m' p' hp'
    rw [hnode, hname]
    exact h.key m' q hq
  · obtain ⟨q, hq, -, -, hlist⟩ := hstill m' p' hp'
    rw [hlist]
    split_ifs
    · exact husers
    · exact h.nodup m' q hq
  · obtain ⟨q, hq, -, -, hlist⟩ := hstill m' p' hp'
    have hold := h.users m' q hq c'
    rw [hlist, monitorList_setList, monitorList_setUsers]
    by_cases hc' : c' = c
    · subst hc'
      rw [Function.update_self]
      split_ifs with hm'
      · exact hm' ▸ hself
      · exact hold.trans (hmem m' hm').symm
    · rw [Function.update_of_ne hc']
      split_ifs with hm'
      · subst hm'
        cases hp.symm.trans hq
        exact (hother c' hc').trans hold
      · exact hold
  · rw [monitorList_setList, monitorList_setUsers, Function.update_apply]
    split_ifs
    · exact hl
    · exact h.lists c'
  · rw [monitor_setList, monitor_setUsers]
    by_cases heq : m' = m
    · rw [heq, Function.update_self]
      exact ⟨_, rfl⟩
    · rw [Function.update_of_ne heq]
      rw [monitorList_setList, monitorList_setUsers] at hm'
      by_cases hc' : c' = c
      · subst hc'
        rw [Function.update_self] at hm'
        exact h.made c' m' ((hmem m' heq).mp hm')
      · rw [Function.update_of_ne hc'] at hm'
        exact h.made c' m' hm'
  · have hne : m' ≠ m := by
      rintro rfl
      cases (h.fresh m' hm').symm.trans hp
    rw [monitor_setList, monitor_setUsers, Function.update_of_ne hne]
    exact h.fresh m' hm'

/-- A monitor without users is freed. -/
theorem Tied.free (h : Tied s) (hp : s.monitor m = some p) (husers : p.users = []) :
    ∃ t, hashDelHnode s.table p.hnode = some t ∧
      Tied { s with table := t, monitor := Function.update s.monitor m none } := by
  obtain ⟨t, hdel, hindexes⟩ :=
    h.indexes.del (a := m) (by rw [State.node, Function.comp_apply, hp, map_some])
  have hold : ∀ {m' p'}, Function.update s.monitor m none m' = some p' →
      s.monitor m' = some p' := by
    intro m' p' hp'
    obtain ⟨-, hnone⟩ | ⟨-, hp'⟩ := update_eq_some.mp hp'
    · cases hnone
    · exact hp'
  refine ⟨t, hdel, ?_, fun m' p' hp' => h.key m' p' (hold hp'), fun m' p' hp' => h.nodup m' p'
    (hold hp'), fun m' p' hp' => h.users m' p' (hold hp'), h.lists, fun c m' hm' => ?_,
      fun m' hm' => ?_⟩
  · rw [← show Option.map Monitor.hnode ∘ Function.update s.monitor m none = Function.update s.node
      m none from Function.comp_update ..] at hindexes
    exact hindexes
  · obtain ⟨p', hp'⟩ := h.made c m' hm'
    refine ⟨p', update_eq_some.mpr (.inr ⟨?_, hp'⟩)⟩
    -- A monitor without users is on no list.
    rintro rfl
    have hc := (h.users _ p hp c).mpr hm'
    rw [husers] at hc
    exact absurd hc not_mem_nil
  · refine (Function.update_apply ..).trans ?_
    split_ifs
    · rfl
    · exact h.fresh m' hm'

/-- A client watches a nick, whose monitor may be new. -/
theorem Good.watch (h : Good cfg s) (hname : name ≠ [])
    (hlt : (s.monitorList c).length < cfg.maxMonitor) :
    ∃ p, (findMonitorAdd s name).2.monitor (findMonitorAdd s name).1 = some p ∧
      (c ∈ p.users → Good cfg (findMonitorAdd s name).2) ∧
      (c ∉ p.users →
        Good cfg (Monitor.watch (findMonitorAdd s name).2 (findMonitorAdd s name).1 p c)) := by
  -- The monitor that is found, and what holds of the others.
  have hfound : ∃ p, Tied (findMonitorAdd s name).2 ∧
      (findMonitorAdd s name).2.monitor (findMonitorAdd s name).1 = some p ∧
      (findMonitorAdd s name).2.monitorList = s.monitorList ∧
      ∀ m q, (findMonitorAdd s name).2.monitor m = some q → q.users = [] →
        m = (findMonitorAdd s name).1 ∧ p.users = [] := by
    rw [findMonitorAdd]
    cases hfind : findMonitor s name with
    | some m =>
      obtain ⟨p, hp, -⟩ := (h.tied.findMonitor_eq_some_iff hname).mp hfind
      exact ⟨p, h.tied, hp, rfl, fun m q hq hnil => absurd hnil (h.watched m q hq)⟩
    | none =>
      refine ⟨_, h.tied.newMonitor hname hfind, Function.update_self .., rfl, fun m q hq hnil => ?_⟩
      obtain ⟨rfl, -⟩ | ⟨-, hq⟩ := update_eq_some.mp hq
      · exact ⟨rfl, rfl⟩
      · exact absurd hnil (h.watched m q hq)
  obtain ⟨p, htied, hp, hlist, hempty⟩ := hfound
  refine ⟨p, hp, fun hc => ⟨htied, fun m q hq hnil => ?_, hlist ▸ h.length_le⟩, fun hc => ?_⟩
  · rw [(hempty m q hq hnil).2] at hc
    exact absurd hc not_mem_nil
  · have hm : (findMonitorAdd s name).1 ∉ (findMonitorAdd s name).2.monitorList c :=
      fun hm => hc ((htied.users _ p hp c).mpr hm)
    refine ⟨htied.setUsers hp (nodup_cons.mpr ⟨hc, htied.nodup _ p hp⟩)
      (nodup_cons.mpr ⟨hm, htied.lists c⟩) (fun c' hne => ?_) (by simp) (fun m' hne => ?_),
      fun m q hq hnil => ?_, fun c' => ?_⟩
    · rw [mem_cons, or_iff_right hne]
    · rw [mem_cons, or_iff_right hne]
    · rw [Monitor.watch, monitor_setList, monitor_setUsers, update_eq_some] at hq
      obtain ⟨-, hq⟩ | ⟨hne, hq⟩ := hq
      · cases hq
        exact absurd hnil (cons_ne_nil _ _)
      · exact hne (hempty m q hq hnil).1
    · rw [Monitor.watch, monitorList_setList, monitorList_setUsers, hlist, Function.update_apply]
      split_ifs
      · exact hlt
      · exact h.length_le c'

/-- A client does not watch a monitor any more, which is freed if it was the last one. -/
theorem Good.unwatch (h : Good cfg s) (hp : s.monitor m = some p) (c : Client) :
    ∃ s', ((dropUser s m c).bind fun s => freeMonitor (s.setList c ((s.monitorList c).erase m)) m) =
      some s' ∧ Good cfg s' := by
  have htied := h.tied
  have hself : c ∈ p.users.erase c ↔ m ∈ (s.monitorList c).erase m :=
    iff_of_false (htied.nodup m p hp).not_mem_erase (htied.lists c).not_mem_erase
  have hdropped := htied.setUsers hp ((htied.nodup m p hp).erase c) ((htied.lists c).erase m)
    (fun c' hne => mem_erase_of_ne hne) hself (fun m' hne => mem_erase_of_ne hne)
  have hlength : ∀ c', (Function.update s.monitorList c ((s.monitorList c).erase m) c').length ≤
      cfg.maxMonitor := by
    intro c'
    rw [Function.update_apply]
    split_ifs
    · exact (length_erase_le).trans (h.length_le c)
    · exact h.length_le c'
  rw [dropUser, hp, map_some, bind_some, freeMonitor]
  simp only [monitor_setList, monitor_setUsers, Function.update_self, bind_some,
    monitorList_setUsers, table_setList, table_setUsers]
  split_ifs with hpos
  · refine ⟨_, rfl, hdropped, fun m' q hq => ?_, hlength⟩
    rw [monitor_setList, monitor_setUsers, update_eq_some] at hq
    obtain ⟨-, hq⟩ | ⟨-, hq⟩ := hq
    · cases hq
      exact length_pos_iff.mp hpos
    · exact h.watched m' q hq
  · have hnil : p.users.erase c = [] := length_eq_zero_iff.mp (Nat.eq_zero_of_not_pos hpos)
    obtain ⟨t, hdel, hfreed⟩ := hdropped.free (m := m) (Function.update_self ..) hnil
    rw [table_setList, table_setUsers] at hdel
    rw [hdel, map_some]
    refine ⟨_, rfl, hfreed, fun m' q hq => ?_, hlength⟩
    obtain ⟨-, hq⟩ | ⟨hne, hq⟩ := update_eq_some.mp hq
    · cases hq
    · obtain ⟨heq, -⟩ | ⟨-, hq⟩ := update_eq_some.mp hq
      · exact absurd heq hne
      · exact h.watched m' q hq

/-! ### Runs -/

/-- **Only an empty list is cleared**; a node of any other one is freed, which ends the program. -/
theorem clearMonitor_eq_some_iff : clearMonitor s c = some s' ↔ s.monitorList c = [] ∧ s' = s := by
  rw [clearMonitor]
  cases hlist : s.monitorList c with
  | nil =>
    have hsame : s.setList c [] = s := by rw [State.setList, ← hlist, Function.update_eq_self]
    simp [clearLoop, hsame, eq_comm]
  | cons m ms => cases hdrop : dropUser s m c <;> simp [clearLoop, hdrop, Dlink.freeNode]

theorem strtok_ne {str name rest : Str} (h : strtok str = some (name, rest)) : name ≠ [] := by
  rw [strtok] at h
  split_ifs at h with hnil
  cases h
  obtain ⟨ch, behind, hcons⟩ := exists_cons_of_ne_nil hnil
  have hch := head?_dropWhile_not (· = ',') str
  rw [hcons] at hch ⊢
  rw [takeWhile_cons, if_pos (by simpa using hch)]
  exact cons_ne_nil _ _

theorem tokens_ne (fuel : ℕ) (str : Str) : ∀ t ∈ tokens fuel str, t.1 ≠ [] := by
  induction fuel generalizing str with
  | zero => exact fun t ht => absurd ht not_mem_nil
  | succ fuel ih =>
    rw [tokens]
    cases hstr : strtok str with
    | none => exact fun t ht => absurd ht not_mem_nil
    | some t => exact forall_mem_cons.mpr ⟨strtok_ne hstr, ih t.2⟩

section

variable (h : Good cfg s)
include h

theorem Good.addLoop {w : World} (hts : ∀ t ∈ ts, t.1 ≠ []) (l : Lines) :
    ∃ r, addLoop cfg w c ts s l = some r ∧ Good cfg r.1 := by
  induction ts generalizing s l with
  | nil => exact ⟨_, rfl, h⟩
  | cons t ts ih =>
    obtain ⟨name, rest⟩ := t
    obtain ⟨hname, hts⟩ := forall_mem_cons.mp hts
    rw [Monitor.addLoop]
    dsimp only
    split_ifs with hlong hfull
    · exact ih h hts l
    · exact ⟨_, rfl, h⟩
    · obtain ⟨p, hp, hkeep, hwatch⟩ := h.watch hname (Nat.lt_of_not_le hfull)
      rw [hp, bind_some]
      split_ifs with hc
      · exact ih (hkeep hc) hts l
      · obtain ⟨r, hr, hgood⟩ := ih (hwatch hc) hts (l.put w name).2
        exact ⟨(r.1, (l.put w name).1 ++ r.2), by rw [hr, map_some], hgood⟩

theorem Good.delLoop (hts : ∀ t ∈ ts, t.1 ≠ []) : ∃ s', delLoop c ts s = some s' ∧ Good cfg s' := by
  induction ts generalizing s with
  | nil => exact ⟨_, rfl, h⟩
  | cons t ts ih =>
    obtain ⟨name, rest⟩ := t
    obtain ⟨hname, hts⟩ := forall_mem_cons.mp hts
    rw [Monitor.delLoop]
    cases hfind : findMonitor s name with
    | none => exact ih h hts
    | some m =>
      obtain ⟨p, hp, -⟩ := (h.tied.findMonitor_eq_some_iff hname).mp hfind
      obtain ⟨s', hs', hgood⟩ := h.unwatch hp c
      obtain ⟨t, hdrop, hfree⟩ := bind_eq_some_iff.mp hs'
      dsimp only
      rw [hdrop, bind_some, hfree, bind_some]
      exact ih hgood hts

/-- The monitors of a client are allocated. -/
theorem Good.namesOf (c : Client) : ∃ names, namesOf s c = some names := by
  have hall : ∀ ms : List ℕ, (∀ m ∈ ms, ∃ p, s.monitor m = some p) →
      ∃ names, (ms.mapM fun m => (s.monitor m).map (·.name)) = some names := by
    intro ms hms
    induction ms with
    | nil => exact ⟨[], rfl⟩
    | cons m ms ih =>
      obtain ⟨⟨p, hp⟩, hms⟩ := forall_mem_cons.mp hms
      obtain ⟨names, hnames⟩ := ih hms
      exact ⟨p.name :: names, by rw [mapM_cons, hp, hnames]; rfl⟩
  exact hall _ (h.tied.made c)

theorem Good.mMonitor (w : World) (c : Client) (name parv1 : Str) (parv : List Str)
    (hclear : parv1.head? = some 'C' ∨ parv1.head? = some 'c' → s.monitorList c = []) :
    ∃ r, mMonitor cfg w s c name parv1 parv = some r ∧ Good cfg r.1 := by
  obtain ⟨names, hnames⟩ := h.namesOf c
  have hlist : ∃ r, (listMonitor cfg s c name).map (fun replies => (s, replies)) = some r ∧
      Good cfg r.1 := by
    rw [listMonitor, hnames, map_some, map_some]
    exact ⟨_, rfl, h⟩
  have hstatus : ∃ r, (showMonitorStatus cfg w s c name).map (fun replies => (s, replies)) =
      some r ∧ Good cfg r.1 := by
    rw [showMonitorStatus, hnames, map_some, map_some]
    exact ⟨_, rfl, h⟩
  have hcleared : parv1.head? = some 'C' ∨ parv1.head? = some 'c' →
      ∃ r, (clearMonitor s c).map (fun s => (s, ([] : List Reply))) = some r ∧
          Good cfg r.1 := fun hC =>
    ⟨(s, []), by rw [clearMonitor_eq_some_iff.mpr ⟨hclear hC, rfl⟩, map_some], h⟩
  rw [Monitor.mMonitor]
  split
  · split_ifs
    · exact ⟨_, rfl, h⟩
    · exact h.addLoop (tokens_ne _ _) _
  · split_ifs
    · exact ⟨_, rfl, h⟩
    · rw [delMonitor]
      split_ifs
      · exact ⟨_, rfl, h⟩
      · obtain ⟨s', hs', hgood⟩ :=
          h.delLoop (c := c) (tokens_ne (parv.headD []).length (parv.headD []))
        exact ⟨(s', []), by rw [hs', map_some], hgood⟩
  · exact hcleared (.inl ‹_›)
  · exact hcleared (.inr ‹_›)
  · exact hlist
  · exact hlist
  · exact hstatus
  · exact hstatus
  · exact ⟨_, rfl, h⟩

/-- The clients that watch a nick are told, each once. -/
theorem Good.notify (w : World) (name buf : Str) :
    ∃ sent, notify w s name buf = some sent ∧ sent.Nodup ∧
      ∀ c r, (c, r) ∈ sent ↔ r = .line buf ∧ w.ioerror c = false ∧
        ∃ m ∈ s.monitorList c, ∃ p, s.monitor m = some p ∧ name ≠ [] ∧
        irccmp name p.name = true := by
  have htied := h.tied
  have hfind : ∀ {m}, findMonitor s name = some m ↔
      ∃ p, s.monitor m = some p ∧ name ≠ [] ∧ irccmp name p.name = true := by
    intro m
    by_cases hname : name = []
    · simp [findMonitor, hashFind, hname]
    · simp [htied.findMonitor_eq_some_iff hname, hname]
  rw [Monitor.notify]
  cases hm : findMonitor s name with
  | none =>
    refine ⟨[], rfl, nodup_nil, fun c r => iff_of_false not_mem_nil ?_⟩
    rintro ⟨-, -, m, -, hp⟩
    cases hm.symm.trans (hfind.mpr hp)
  | some m =>
    obtain ⟨p, hp, hsame⟩ := hfind.mp hm
    refine ⟨sendtoMonitor w p buf, by simp [hp], ?_, fun c r => ?_⟩
    · exact ((htied.nodup m p hp).filter _).map fun c c' heq => (Prod.mk.inj heq).1
    · rw [sendtoMonitor, List.mem_map]
      constructor
      · rintro ⟨c', hc', heq⟩
        cases heq
        obtain ⟨huser, herror⟩ := mem_filter.mp hc'
        exact ⟨rfl, by simpa using herror, m, (htied.users m p hp _).mp huser, p, hp, hsame⟩
      · rintro ⟨rfl, herror, m', hm', hp'⟩
        cases hm.symm.trans (hfind.mpr hp')
        exact ⟨c, mem_filter.mpr ⟨(htied.users m p hp c).mpr hm', by simp [herror]⟩, rfl⟩

/-- **A step** that clears no list, or an empty one. -/
theorem Good.act (w : World) (op : Op) (hclear : ∀ c, op.clears = some c → s.monitorList c = []) :
    ∃ r, act cfg s w op = some r ∧ Good cfg r.1 := by
  cases op with
  | monitor c name parv1 parv =>
    obtain ⟨r, hr, hgood⟩ := h.mMonitor w c name parv1 parv fun hC => hclear c
      (by rw [Op.clears, if_pos hC])
    exact ⟨(r.1, r.2.map (c, ·)), by rw [Monitor.act, hr, map_some], hgood⟩
  | exit c =>
    exact ⟨(s, []), by rw [Monitor.act, clearMonitor_eq_some_iff.mpr ⟨hclear c rfl, rfl⟩, map_some],
      h⟩
  | signon client =>
    obtain ⟨sent, hsent, -⟩ := h.notify w client.name
      (numericHead cfg ['7', '3', '0'] ['*'] ++ client.mask.take (30 + 63 + 10 + 5 - 1))
    exact ⟨(s, sent), by rw [Monitor.act, monitorSignon, hsent, map_some], h⟩
  | signoff client =>
    obtain ⟨sent, hsent, -⟩ := h.notify w client.name (numericHead cfg ['7', '3', '1'] ['*'] ++
      client.name)
    exact ⟨(s, sent), by rw [Monitor.act, monitorSignoff, hsent, map_some], h⟩

end

/-- An operation that clears a list finds it empty, if it goes through. -/
theorem clears_of_act {w : World} {op : Op} {r : State × List (Client × Reply)}
    (hact : Monitor.act cfg s w op = some r) (hclears : op.clears = some c) :
    s.monitorList c = [] := by
  cases op with
  | monitor c' name parv1 parv =>
    rw [Op.clears] at hclears
    split_ifs at hclears with hC
    obtain rfl := some.inj hclears
    obtain ⟨r', hr', -⟩ := map_eq_some_iff.mp hact
    have hclear : Monitor.mMonitor cfg w s c' name parv1 parv = (clearMonitor s c').map fun s =>
        (s, []) := by
      rcases hC with hC | hC <;> simp [Monitor.mMonitor, hC]
    rw [hclear] at hr'
    obtain ⟨s', hs', -⟩ := map_eq_some_iff.mp hr'
    exact (clearMonitor_eq_some_iff.mp hs').1
  | exit c' =>
    cases hclears
    obtain ⟨s', hs', -⟩ := map_eq_some_iff.mp hact
    exact (clearMonitor_eq_some_iff.mp hs').1
  | signon | signoff => exact absurd hclears (by simp [Op.clears])

end Tied

theorem good_empty (cfg : Config) : Good cfg State.empty where
  tied := ⟨Hash.Indexes.empty hashMonitor, nofun, nofun, nofun, fun _ => List.nodup_nil, nofun,
    fun _ _ => rfl⟩
  watched := nofun
  length_le _ := Nat.zero_le _

/-- A client is a user of a monitor if and only if the monitor is on its list, neither has an
element twice, the monitors in the table are watched and have different nicks, and no list is too
long. -/
structure Watched (cfg : Config) (s : State) : Prop where
  users_iff : ∀ c m, (∃ p, s.monitor m = some p ∧ c ∈ p.users) ↔ m ∈ s.monitorList c
  users_nodup : ∀ m p, s.monitor m = some p → p.users.Nodup
  list_nodup : ∀ c, (s.monitorList c).Nodup
  node : ∀ i, ∀ n ∈ s.table.bucket i, ∃ p, s.monitor n.data = some p ∧ p.hnode = n ∧
    p.name = n.key ∧ p.users ≠ []
  found : ∀ m p, s.monitor m = some p → findMonitor s p.name = some m
  unique : ∀ i j, ∀ n ∈ s.table.bucket i, ∀ n' ∈ s.table.bucket j, irccmp n.key n'.key = true →
    n = n'
  length_le : ∀ c, (s.monitorList c).length ≤ cfg.maxMonitor

theorem Good.all_watched {cfg : Config} {s : State} (h : Good cfg s) : Watched cfg s := by
  have htied := h.tied
  have hnode : ∀ i, ∀ n ∈ s.table.bucket i, ∃ p, s.monitor n.data = some p ∧
      p.hnode = n := fun i n hn =>
    Option.map_eq_some_iff.mp (htied.indexes.node_of_bucket hn)
  refine ⟨fun c m => ⟨?_, fun hm => ?_⟩, htied.nodup, htied.lists, fun i n hn => ?_,
    fun m p hp => ?_, fun i j n hn n' hn' hsame => ?_, h.length_le⟩
  · rintro ⟨p, hp, hc⟩
    exact (htied.users m p hp c).mp hc
  · obtain ⟨p, hp⟩ := htied.made c m hm
    exact ⟨p, hp, (htied.users m p hp c).mpr hm⟩
  · obtain ⟨p, hp, rfl⟩ := hnode i n hn
    exact ⟨p, hp, rfl, (htied.key _ p hp).symm, h.watched _ p hp⟩
  · have hnode : s.node m = some p.hnode := by rw [State.node, Function.comp_apply, hp, map_some]
    have hne := (htied.indexes.data m p.hnode hnode).2
    rw [htied.key m p hp] at hne
    exact (htied.findMonitor_eq_some_iff hne).mpr ⟨p, hp, irccmp_refl _⟩
  · have hn := htied.indexes.node_of_bucket hn
    have hn' := htied.indexes.node_of_bucket hn'
    have hdata := htied.indexes.unique _ _ n n' hn hn' hsame
    rw [hdata] at hn
    exact some.inj (hn.symm.trans hn')

/-- **Watching.** A run goes through, and uses no monitor that was freed, if and only if each list
that it clears is empty; then the monitors, the table and the lists belong together. -/
theorem watched_iff (cfg : Config) (ops : List (World × Op)) :
    (∃ s, Run.run (step cfg) State.empty ops = some s ∧ Watched cfg s) ↔
      Run.StepsMeet (step cfg) (fun s op => ∀ c, op.2.clears = some c → s.monitorList c = [])
      State.empty ops := by
  have hgood : ∀ s op s', Good cfg s → step cfg s op = some s' → Good cfg s' := by
    intro s op s' h hstep
    obtain ⟨r, hr, rfl⟩ := map_eq_some_iff.mp hstep
    obtain ⟨r', hr', hgood⟩ := h.act op.1 op.2 fun c => clears_of_act hr
    cases hr.symm.trans hr'
    exact hgood
  rw [← Run.made_iff (Good cfg) (fun s op h => ⟨?_, fun hclear => ?_⟩) hgood (good_empty cfg)]
  · constructor
    · rintro ⟨s, hrun, -⟩
      have hok : Run.StepsMeet (step cfg) (fun _ _ => True) State.empty ops :=
        Run.StepsMeet.of_forall (fun _ _ => trivial) _ _
      exact ⟨s, hrun, Run.invariant (Good cfg) (fun s op s' h _ => hgood s op s' h) (good_empty cfg)
        hok hrun⟩
    · rintro ⟨s, hrun, h⟩
      exact ⟨s, hrun, h.all_watched⟩
  · rintro ⟨s', hstep⟩ c
    obtain ⟨r, hr, -⟩ := map_eq_some_iff.mp hstep
    exact clears_of_act hr
  · obtain ⟨r, hr, -⟩ := h.act op.1 op.2 hclear
    exact ⟨r.1, by rw [step, hr, map_some]⟩

/-- The settings of a server. -/
def someConfig : Config := ⟨"irc.example".toList, 30, 60⟩

/-- No client has a nick that is looked for. -/
def nobody : World := ⟨fun _ => none, fun _ => false⟩

/-- A client watches two nicks and then clears its list, which ends the server. -/
theorem clear_ends : ¬∃ s, Run.run (step someConfig) State.empty
    [(nobody, .monitor 1 "joe".toList "+".toList ["spam,eggs".toList]),
      (nobody, .monitor 1 "joe".toList "C".toList [])] = some s ∧ Watched someConfig s := by
  rintro ⟨s, hrun, -⟩
  have hnone : (Run.run (step someConfig) State.empty
      [(nobody, .monitor 1 "joe".toList "+".toList ["spam,eggs".toList]),
        (nobody, .monitor 1 "joe".toList "C".toList [])]).isNone = true := by decide +kernel
  rw [hrun] at hnone
  cases hnone

end Ratbox.Monitor
