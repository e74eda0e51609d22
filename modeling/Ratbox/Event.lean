import Ratbox.Lib.Run
import Ratbox.Lib.SavedNext
import Mathlib.Data.Int.Basic

/-!
# Events

Functions are scheduled to be called at a time, once or again and again. The main loop sleeps until
the time that `rb_event_next` reports, which is kept with the list of events, and then walks the
list and calls those that are due. What they call may change the list.

Source: `libratbox/src/event.c`, lines 43–261 and 322–372, `libratbox/src/ratbox_lib.c`, lines
169–255, and `src/channel.c`, lines 711–739.

## Main definitions

* `Event.Entry`, `Event.State`: `struct ev_entry`, and the list of events with the variables around
  it.
* `Event.Action`, `Event.act`: what callbacks and others may do with events.
* `Event.eventRun`, `Event.runEvent`: `rb_event_run` and `rb_run_event`, which fail where they read
  an event that was deleted.
* `Event.Op`, `Event.step`: actions and runs of events, one after the other.
* `Event.Spares`, `Event.Op.Timely`: the conditions for the results.

## Main results

* `Event.eventRun_safe_iff`: no deleted event is read when no callback deletes its own event or the
  next one.
* `Event.not_late`: the time that is reported is not later than any event.

Times are seconds, counted up from 0, and `event_time_min` is `none` where the source has -1. The
names of events, and the timers of the kernel that some platforms have for them, are left out.
-/

namespace Ratbox.Event

open SavedNext List Option Function

/-! ### The structures -/

/-- `struct ev_entry`. -/
structure Entry where
  func : ℕ
  arg : ℕ
  when : ℕ
  frequency : ℕ
  deriving DecidableEq

/-- The events by address, the list of those that were not deleted, `event_time_min`, the current
time, and whether the platform runs events itself. A freed address is not used again. -/
structure State where
  eventList : List ℕ
  entry : ℕ → Entry
  fresh : ℕ
  eventTimeMin : Option ℕ
  now : ℕ
  supportsEvent : Bool
  nodup : eventList.Nodup
  lt_fresh : ∀ e ∈ eventList, e < fresh

/-- No events yet. -/
def init (now : ℕ) (supportsEvent : Bool) : State :=
  ⟨[], fun _ => ⟨0, 0, 0, 0⟩, 0, none, now, supportsEvent, nodup_nil, by simp⟩

/-! ### Scheduling -/

/-- `event_time_min` is lowered to a time. -/
def State.lower (s : State) (when : ℕ) : State :=
  { s with eventTimeMin := some (match s.eventTimeMin with | none => when | some m => if when <
    m then when else m) }

/-- `event_time_min = -1`. -/
def State.resetMin (s : State) : State := { s with eventTimeMin := none }

/-- Write an event. -/
def State.setEntry (s : State) (e : ℕ) (ev : Entry) : State :=
  { s with entry := update s.entry e ev }

/-- Take an event off the list. -/
def State.remove (s : State) (e : ℕ) : State :=
  { s with
    eventList := s.eventList.erase e
    nodup := s.nodup.erase e
    lt_fresh := fun e' he' => s.lt_fresh e' (mem_of_mem_erase he') }

/-- A new event in front of the list. -/
def State.push (s : State) (ev : Entry) : State :=
  { s with
    eventList := s.fresh :: s.eventList
    entry := update s.entry s.fresh ev
    fresh := s.fresh + 1
    nodup := nodup_cons.mpr ⟨fun hmem => lt_irrefl _ (s.lt_fresh _ hmem), s.nodup⟩
    lt_fresh := fun e he => (mem_cons.mp he).elim (fun heq => heq ▸ Nat.lt_succ_self _)
      fun he => Nat.lt_succ_of_lt (s.lt_fresh e he) }

/-- What `rb_event_add` and `rb_event_addonce` have in common. -/
def schedule (once : Bool) (s : State) (func arg : ℕ) (when : ℤ) : State :=
  let when := if when ≤ 0 then 1 else when.toNat
  (s.lower (s.now + when)).push ⟨func, arg, s.now + when, if once then 0 else when⟩

/-- `rb_event_add`. -/
def eventAdd : State → ℕ → ℕ → ℤ → State := schedule false

/-- `rb_event_addonce`. -/
def eventAddonce : State → ℕ → ℕ → ℤ → State := schedule true

/-- The time for which `rb_event_addish` calls `rb_event_add`, with the number that `rand` gives. -/
def addish (rand : ℕ) (deltaIsh : ℤ) : ℤ :=
  if 3 ≤ deltaIsh then 2 * deltaIsh / 3 + (rand % 1000 : ℕ) * (2 * deltaIsh / 3) / 1000
    else deltaIsh

/-- `rb_event_find`. -/
def eventFind (s : State) (func arg : ℕ) : Option ℕ :=
  s.eventList.find? fun e => (s.entry e).func = func ∧ (s.entry e).arg = arg

/-- `rb_event_delete`. -/
def eventDelete (s : State) : Option ℕ → State
  | none => s
  | some e => s.remove e

/-- `rb_event_update`. -/
def eventUpdate (s : State) (ev : Option ℕ) (freq : ℕ) : State :=
  match ev with
  | none => s
  | some e =>
    s.setEntry e { s.entry e with
      frequency := freq, when := if s.now + freq < (s.entry e).when then s.now + freq
        else (s.entry e).when }

/-- The time of an event that is set back. -/
def setBack (by_ when : ℕ) : ℕ := if by_ < when then when - by_ else 0

/-- `rb_set_back_events`. -/
def setBackEvents (s : State) (by_ : ℕ) : State :=
  { s with entry := fun e => { s.entry e with when := setBack by_ (s.entry e).when } }

/-- `rb_set_time`, with the time that the system reports. -/
def setTime (s : State) (newtime : ℕ) : State :=
  let s := if newtime < s.now then setBackEvents s (s.now - newtime) else s
  { s with now := newtime }

/-- `rb_event_next`. -/
def eventNext (s : State) : Option ℕ := s.eventTimeMin

/-! ### Running -/

/-- What callbacks and others may do with events. -/
inductive Action
  | add (func arg : ℕ) (when : ℤ)
  | addonce (func arg : ℕ) (when : ℤ)
  | delete (ev : Option ℕ)
  | findDelete (func arg : ℕ)
  | update (ev : Option ℕ) (freq : ℕ)
  | setBackEvents (by_ : ℕ)
  | setTime (newtime : ℕ)

/-- Do an action. -/
def act (s : State) : Action → State
  | .add func arg when => eventAdd s func arg when
  | .addonce func arg when => eventAddonce s func arg when
  | .delete ev => eventDelete s ev
  | .findDelete func arg => eventDelete s (eventFind s func arg)
  | .update ev freq => eventUpdate s ev freq
  | .setBackEvents by_ => Event.setBackEvents s by_
  | .setTime newtime => Event.setTime s newtime

/-- What the functions do that are called, with their argument, in a state. -/
abbrev Callback := ℕ → ℕ → State → List Action

section

variable (callback : Callback)

/-- `ev->func(ev->arg)`. -/
def State.call (s : State) (e : ℕ) : State :=
  (callback (s.entry e).func (s.entry e).arg s).foldl act s

/-- An event is scheduled again. -/
def State.reschedule (s : State) (e : ℕ) : State :=
  (s.setEntry e { s.entry e with when := s.now + (s.entry e).frequency }).lower
    (s.now + (s.entry e).frequency)

/-- What is done with an event after its call: its frequency is read, and it is scheduled again or
deleted. -/
def finish (s : State) (e : ℕ) : Option State :=
  if e ∈ s.eventList then some (if (s.entry e).frequency ≠ 0 then s.reschedule e else s.remove e)
    else none

/-- The body of the loop of `rb_event_run`. -/
def visit (s : State) (e : ℕ) : Option State :=
  if (s.entry e).when ≤ s.now then finish (s.call callback e) e else some (s.lower (s.entry e).when)

/-- `rb_event_run`, with the events that it visited. -/
def eventRun (s : State) : Option (State × List ℕ) :=
  if s.supportsEvent then some (s, [])
  else walk State.eventList (visit callback) s.eventList.length s.resetMin s.eventList.head?

/-- `rb_run_event`. -/
def runEvent (s : State) (e : ℕ) : Option State :=
  if e ∈ s.eventList then finish (s.call callback e) e else none

end

/-- The variables that `check_splitmode` looks at. -/
structure Split where
  splitchecking : Bool
  noJoinOnSplit : Bool
  noCreateOnSplit : Bool
  splitmode : Bool
  eobCount : ℕ
  splitServers : ℕ
  total : ℕ
  splitUsers : ℕ
  checksplitEv : Option ℕ
  deriving DecidableEq

/-- What `check_splitmode`, which is at an address, does with events. -/
def checkSplitmode (g : Split) (addr rand : ℕ) : List Action :=
  if g.splitchecking && (g.noJoinOnSplit || g.noCreateOnSplit) then
    if !g.splitmode then
      if g.eobCount < g.splitServers ∨ g.total < g.splitUsers then [.add addr 0 (addish rand 5)]
        else []
    else if g.splitServers ≤ g.eobCount ∧ g.splitUsers ≤ g.total then [.delete g.checksplitEv]
    else []
  else []

/-- The operations. -/
inductive Op
  | act (a : Action)
  | run (callback : Callback)
  | runEvent (callback : Callback) (ev : ℕ)

/-- A step, which fails where a deleted event is read. -/
def step (s : State) : Op → Option State
  | .act a => some (act s a)
  | .run callback => (eventRun callback s).map Prod.fst
  | .runEvent callback ev => runEvent callback s ev

/-! ### The list -/

/-- New events were put in front of some of the old ones. -/
structure GrownFrom (s s' : State) : Prop where
  fresh : s.fresh ≤ s'.fresh
  list : ∃ new kept, s'.eventList = new ++ kept ∧ kept.Sublist s.eventList ∧ ∀ e ∈ new, s.fresh ≤ e

section List

variable {s s' s'' : State} {e : ℕ} {callback : Callback}

theorem GrownFrom.of_sublist (hfresh : s'.fresh = s.fresh)
    (hlist : s'.eventList.Sublist s.eventList) :
    GrownFrom s s' :=
  ⟨hfresh.ge, [], s'.eventList, rfl, hlist, by simp⟩

theorem GrownFrom.refl (s : State) : GrownFrom s s := .of_sublist rfl (Sublist.refl _)

theorem GrownFrom.trans (h : GrownFrom s s') (h' : GrownFrom s' s'') : GrownFrom s s'' := by
  obtain ⟨hfresh, new, kept, hlist, hkept, hnew⟩ := h
  obtain ⟨hfresh', new', kept', hlist', hkept', hnew'⟩ := h'
  rw [hlist] at hkept'
  obtain ⟨k, l, rfl, hk, hl⟩ := sublist_append_iff.mp hkept'
  refine ⟨hfresh.trans hfresh', new' ++ k, l, by rw [hlist', append_assoc], hl.trans hkept,
    fun e he => ?_⟩
  obtain he | he := mem_append.mp he
  · exact hfresh.trans (hnew' e he)
  · exact hnew e (hk.subset he)

theorem GrownFrom.grown (h : GrownFrom s s') : Grown s.eventList s'.eventList := by
  obtain ⟨-, new, kept, hlist, hkept, hnew⟩ := h
  exact ⟨new, kept, hlist, hkept, fun e he hmem => absurd (s.lt_fresh e hmem)
    (Nat.not_lt.mpr (hnew e he))⟩

theorem grownFrom_remove (s : State) (e : ℕ) : GrownFrom s (s.remove e) :=
  .of_sublist rfl erase_sublist

theorem grownFrom_act (s : State) (a : Action) : GrownFrom s (act s a) := by
  have hpush : ∀ when ev, GrownFrom s ((s.lower when).push ev) := fun when ev =>
    ⟨Nat.le_succ _, [s.fresh], s.eventList, rfl, Sublist.refl _, by simp⟩
  have hdelete : ∀ ev, GrownFrom s (eventDelete s ev) := fun ev => by
    cases ev with
    | none => exact .refl s
    | some e => exact grownFrom_remove s e
  cases a with
  | add func arg when => exact hpush _ _
  | addonce func arg when => exact hpush _ _
  | delete ev => exact hdelete ev
  | findDelete func arg => exact hdelete _
  | update ev freq =>
    cases ev with
    | none => exact .refl s
    | some e => exact .of_sublist rfl (Sublist.refl _)
  | setBackEvents by_ => exact .of_sublist rfl (Sublist.refl _)
  | setTime newtime =>
    rw [act, setTime]
    split_ifs <;> exact .of_sublist rfl (Sublist.refl _)

theorem grownFrom_acts (s : State) (as : List Action) : GrownFrom s (as.foldl act s) := by
  induction as generalizing s with
  | nil => exact .refl s
  | cons a as ih => exact (grownFrom_act s a).trans (ih (act s a))

theorem finish_eq_some : finish s e = some s' ↔
    e ∈ s.eventList ∧ s' = if (s.entry e).frequency ≠ 0 then s.reschedule e else s.remove e := by
  rw [finish, ite_none_right_eq_some, some.injEq, eq_comm (a := s')]

theorem grownFrom_finish (h : finish s e = some s') : GrownFrom s s' := by
  obtain ⟨-, rfl⟩ := finish_eq_some.mp h
  split_ifs
  · exact .of_sublist rfl (Sublist.refl _)
  · exact grownFrom_remove s e

theorem grownFrom_visit (h : visit callback s e = some s') : GrownFrom s s' := by
  rw [visit] at h
  split_ifs at h
  · exact (grownFrom_acts s _).trans (grownFrom_finish h)
  · cases h
    exact .of_sublist rfl (Sublist.refl _)

theorem visits (callback : Callback) : Visits State.eventList (visit callback) fun _ => True :=
  ⟨fun s _ => s.nodup, fun _ _ _ _ _ _ => trivial, fun _ _ _ _ _ h => (grownFrom_visit h).grown⟩

end List

/-! ### Safety -/

/-- The function of an event, if it is called, deletes neither its own event nor the one behind
it. -/
def Spares (callback : Callback) (s : State) (e : ℕ) : Prop :=
  (s.entry e).when ≤ s.now → e ∈ (s.call callback e).eventList ∧
    ∀ b, (behind s.eventList e).head? = some b → b ∈ (s.call callback e).eventList

/-- Every function that `rb_event_run` calls spares its own event and the one behind it. -/
def AllSpare (callback : Callback) (s : State) : Prop :=
  WalkMeets State.eventList (visit callback) (Spares callback) s.eventList.length s.resetMin
    s.eventList.head?

section Safety

variable {s s' : State} {e : ℕ} {callback : Callback}

theorem exists_finish : (∃ s', finish s e = some s') ↔ e ∈ s.eventList := by simp [finish_eq_some]

/-- Another event is in the list after `finish` if it was before. -/
theorem mem_finish (h : finish s e = some s') {b : ℕ} (hne : b ≠ e) :
    b ∈ s'.eventList ↔ b ∈ s.eventList := by
  obtain ⟨-, rfl⟩ := finish_eq_some.mp h
  split_ifs
  · exact Iff.rfl
  · exact mem_erase_of_ne hne

/-- An event is not behind itself. -/
theorem ne_of_behind (s : State) (he : e ∈ s.eventList) {b : ℕ}
    (hb : (behind s.eventList e).head? = some b) : b ≠ e := by
  obtain ⟨p, q, hlist⟩ := append_of_mem he
  have hnd := s.nodup
  rw [hlist] at hnd hb
  rw [behind_eq hnd] at hb
  rintro rfl
  exact (nodup_cons.mp (nodup_append.mp hnd).2.1).1 (mem_of_mem_head? hb)

/-- A visit succeeds and leaves the next event exactly when the function spares them. -/
theorem visit_iff (he : e ∈ s.eventList) : (∃ s', visit callback s e = some s' ∧
    ∀ b, (behind s.eventList e).head? = some b → b ∈ s'.eventList) ↔ Spares callback s e := by
  have hmem : ∀ b, (behind s.eventList e).head? = some b → b ∈ s.eventList := fun b hb =>
    (dropWhile_sublist _).subset (mem_of_mem_tail (mem_of_mem_head? hb))
  rw [visit, Spares]
  split_ifs with hdue
  · constructor
    · rintro ⟨s', hfinish, hnext⟩ -
      exact ⟨exists_finish.mp ⟨s', hfinish⟩, fun b hb =>
        (mem_finish hfinish (ne_of_behind s he hb)).mp (hnext b hb)⟩
    · intro hspares
      obtain ⟨hown, hnext⟩ := hspares hdue
      obtain ⟨s', hfinish⟩ := exists_finish.mpr hown
      exact ⟨s', hfinish, fun b hb => (mem_finish hfinish (ne_of_behind s he hb)).mpr (hnext b hb)⟩
  · exact iff_of_true ⟨_, rfl, hmem⟩ fun h => absurd h hdue

/-- **No deleted event is read**, and no event is visited twice: `rb_event_run` is safe exactly when
every function that it calls spares its own event and the next one, and `rb_run_event` when the
function spares its own event. -/
theorem eventRun_safe_iff (callback : Callback) (s : State) :
    ((∃ r, eventRun callback s = some r) ↔ (s.supportsEvent = false → AllSpare callback s)) ∧
      (∀ r, eventRun callback s = some r → r.2.Nodup) ∧
      ∀ e ∈ s.eventList, (∃ s', runEvent callback s e = some s') ↔
      e ∈ (s.call callback e).eventList := by
  refine ⟨?_, fun r hr => ?_, fun e he => ?_⟩
  · rw [eventRun]
    cases hsupports : s.supportsEvent with
    | true => simp
    | false =>
      simp only [Bool.false_eq_true, if_false, forall_const, AllSpare]
      exact (visits callback).walk_iff (s := s.resetMin) (fun s e _ he => visit_iff he) trivial
        (nil_append s.eventList).symm le_rfl
  · rw [eventRun] at hr
    split_ifs at hr
    · cases hr
      exact nodup_nil
    · have hmeets : WalkMeets State.eventList (visit callback) (fun _ _ => True) s.eventList.length
          s.resetMin s.eventList.head? := walkMeets_of_forall fun _ _ => trivial
      exact ((visits callback).walk_rule (s := s.resetMin) (fun _ _ => True)
        (fun _ _ _ _ _ _ _ _ _ _ => trivial) trivial (nil_append s.eventList).symm trivial hmeets
          hr).2.2.nodup s.nodup
  · rw [runEvent, if_pos he]
    exact exists_finish

end Safety

/-- An event that is due. -/
def dueEvent : State := setTime (eventAdd (init 0 false) 7 0 5) 5

/-- A network that has rejoined. -/
def rejoined : Split := ⟨true, true, true, true, 3, 2, 30, 20, some 0⟩

/-- The function `check_splitmode` deletes its own event. -/
theorem checkSplitmode_deletes : eventRun (fun _ _ _ => checkSplitmode rejoined 7 0) dueEvent =
    none ∧ runEvent (fun _ _ _ => checkSplitmode rejoined 7 0) dueEvent 0 = none :=
  ⟨rfl, rfl⟩

/-- An event whose function schedules another. -/
theorem eventRun_safe_iff_small :
    ∃ s', runEvent (fun _ _ _ => [.addonce 8 0 5]) dueEvent 0 = some s' :=
  ((eventRun_safe_iff (fun _ _ _ => [.addonce 8 0 5]) dueEvent).2.2 0 (by decide +kernel)).mpr
    (by decide +kernel)

/-! ### The next event -/

/-- No event of the list comes before the time that is reported. -/
def NotLate (s : State) :
    Prop := ∀ e ∈ s.eventList, ∃ m, eventNext s = some m ∧ m ≤ (s.entry e).when

/-- The events that are not to be visited yet do not come before the time. -/
def Sound (pending : List ℕ) (s : State) : Prop :=
  ∀ e ∈ s.eventList, e ∉ pending → ∃ m, eventNext s = some m ∧ m ≤ (s.entry e).when

/-- An event that was changed to a time does not come before the time that is reported. -/
def Keeps (s : State) (when : ℕ) : Prop := ∀ m, eventNext s = some m → m ≤ when

/-- The events that are not to be visited yet are not set back to a time before the one that is
reported. -/
def KeepsSetBack (pending : List ℕ) (s : State) (by_ : ℕ) : Prop :=
  ∀ e ∈ s.eventList, e ∉ pending → Keeps s (setBack by_ (s.entry e).when)

/-- An action does not move an event in front of the time that is reported, unless it is to be
visited yet. -/
def Action.Timely (pending : List ℕ) (s : State) : Action → Prop
  | .update (some e) freq => e ∈ s.eventList → e ∉ pending → s.now + freq < (s.entry e).when →
    Keeps s (s.now + freq)
  | .setBackEvents by_ => KeepsSetBack pending s by_
  | .setTime newtime => newtime < s.now → KeepsSetBack pending s (s.now - newtime)
  | _ => True

/-- Each action does not. -/
def ActsTimely (pending : List ℕ) : State → List Action → Prop
  | _, [] => True
  | s, a :: as => a.Timely pending s ∧ ActsTimely pending (act s a) as

/-- The function of an event, if it is called while the events behind are to be visited, does
not. -/
def VisitTimely (callback : Callback) (s : State) (e : ℕ) : Prop :=
  (s.entry e).when ≤ s.now →
    ActsTimely (e :: behind s.eventList e) s (callback (s.entry e).func (s.entry e).arg s)

/-- The actions of a step do not move an event in front of the time that is reported. -/
def Op.Timely (s : State) : Op → Prop
  | .act a => a.Timely [] s
  | .run callback => s.supportsEvent = false →
    WalkMeets State.eventList (visit callback) (VisitTimely callback) s.eventList.length s.resetMin
      s.eventList.head?
  | .runEvent callback e => ActsTimely [e] s (callback (s.entry e).func (s.entry e).arg s)

section NotLate

variable {s s' : State} {e : ℕ} {pending : List ℕ} {callback : Callback}

theorem eventNext_lower (s : State) (when : ℕ) :
    ∃ m, eventNext (s.lower when) = some m ∧ m ≤ when ∧ ∀ m', eventNext s = some m' → m ≤ m' := by
  refine ⟨_, rfl, ?_⟩
  rw [eventNext]
  cases s.eventTimeMin with
  | none => simp
  | some m' =>
    dsimp only
    split_ifs with hlt
    · exact ⟨le_rfl, fun m hm => some.inj hm ▸ Nat.le_of_lt hlt⟩
    · exact ⟨Nat.not_lt.mp hlt, fun m hm => (some.inj hm).le⟩

/-- The time is lowered, the events that are left come after it, and one of them may be the new
one. -/
theorem Sound.lower {t : State} {pending' : List ℕ} (h : Sound pending s) (when : ℕ)
    (hnext : eventNext t = eventNext (s.lower when))
    (hlist : ∀ e ∈ t.eventList, e ∉ pending' → (t.entry e).when = when ∨
      (e ∈ s.eventList ∧ e ∉ pending ∧ (t.entry e).when = (s.entry e).when)) :
      Sound pending' t := by
  intro e he hnot
  obtain ⟨m, hm, hle, hold⟩ := eventNext_lower s when
  rw [hnext]
  obtain heq | ⟨he', hnot', heq⟩ := hlist e he hnot
  · exact ⟨m, hm, heq ▸ hle⟩
  · obtain ⟨m', hm', hle'⟩ := h e he' hnot'
    exact ⟨m, hm, heq ▸ (hold m' hm').trans hle'⟩

theorem Sound.setBackEvents {by_ : ℕ} (h : Sound pending s) (hkeeps : KeepsSetBack pending s by_) :
    Sound pending (setBackEvents s by_) := by
  intro e he hnot
  obtain ⟨m, hm, -⟩ := h e he hnot
  exact ⟨m, hm, hkeeps e he hnot m hm⟩

theorem Sound.act {a : Action} (h : Sound pending s) (ha : a.Timely pending s) :
    Sound pending (act s a) := by
  have hschedule : ∀ once func arg when, Sound pending (schedule once s func arg when) := by
    intro once func arg when
    refine h.lower _ rfl fun e he hnot => ?_
    obtain rfl | he := mem_cons.mp he
    · exact .inl (by simp [schedule, State.push])
    · refine .inr ⟨he, hnot, ?_⟩
      have hne : e ≠ s.fresh := (s.lt_fresh e he).ne
      simp [schedule, State.push, State.lower, hne]
  have hdelete : ∀ ev, Sound pending (eventDelete s ev) := by
    intro ev
    cases ev with
    | none => exact h
    | some e => exact fun e' he' hnot => h e' (mem_of_mem_erase he') hnot
  cases a with
  | add func arg when => exact hschedule false func arg when
  | addonce func arg when => exact hschedule true func arg when
  | delete ev => exact hdelete ev
  | findDelete func arg => exact hdelete _
  | update ev freq =>
    cases ev with
    | none => exact h
    | some e =>
      intro e' he' hnot
      obtain ⟨m, hm, hle⟩ := h e' he' hnot
      refine ⟨m, hm, ?_⟩
      by_cases heq : e' = e
      · subst heq
        simp only [Event.act, eventUpdate, State.setEntry, update_self]
        split_ifs with hlt
        · exact ha he' hnot hlt m hm
        · exact hle
      · simpa [Event.act, eventUpdate, State.setEntry, heq] using hle
  | setBackEvents by_ => exact h.setBackEvents ha
  | setTime newtime =>
    rw [Event.act, setTime]
    split_ifs with hlt
    · exact h.setBackEvents (ha hlt)
    · exact h

theorem Sound.acts {as : List Action} (h : Sound pending s) (has : ActsTimely pending s as) :
    Sound pending (as.foldl Event.act s) := by
  induction as generalizing s with
  | nil => exact h
  | cons a as ih => exact ih (h.act has.1) has.2

/-- The event that was called is in order after it. -/
theorem Sound.finish {q : List ℕ} (h : Sound (e :: q) s) (hfinish : finish s e = some s') :
    Sound q s' := by
  obtain ⟨he, rfl⟩ := finish_eq_some.mp hfinish
  split_ifs with hfreq
  · refine h.lower (s.now + (s.entry e).frequency) rfl fun e' he' hnot => ?_
    by_cases heq : e' = e
    · exact .inl (by simp [State.reschedule, State.setEntry, State.lower, heq])
    · refine .inr ⟨he', by simp [heq, hnot], ?_⟩
      simp [State.reschedule, State.setEntry, State.lower, heq]
  · intro e' he' hnot
    have hne : e' ≠ e := (s.nodup.mem_erase_iff.mp he').1
    exact h e' (mem_of_mem_erase he') (by simp [hne, hnot])

theorem Sound.visit {p q : List ℕ} (hlist : s.eventList = p ++ e :: q) (h : Sound (e :: q) s)
    (hok : VisitTimely callback s e) (hvisit : visit callback s e = some s') :
    Sound (q.filter (· ∈ s'.eventList)) s' := by
  have hq : Sound q s' := by
    rw [Event.visit] at hvisit
    split_ifs at hvisit with hdue
    · have hbehind : behind s.eventList e = q := by
        have hnd := s.nodup
        rw [hlist] at hnd ⊢
        exact behind_eq hnd
      exact (h.acts (hbehind ▸ hok hdue)).finish hvisit
    · cases hvisit
      refine h.lower (s.entry e).when rfl fun e' he' hnot => ?_
      by_cases heq : e' = e
      · exact .inl (heq ▸ rfl)
      · exact .inr ⟨he', by simp [heq, hnot], rfl⟩
  exact fun e' he' hnot => hq e' he' fun hmem => hnot (mem_filter.mpr ⟨hmem, decide_eq_true he'⟩)

/-- **A step** keeps the time in front of the events. -/
theorem NotLate.step {op : Op} (h : NotLate s) (hok : op.Timely s) (hstep : step s op = some s') :
    NotLate s' := by
  have hnil : ∀ s, NotLate s ↔ Sound [] s := fun s => by simp [NotLate, Sound]
  rw [hnil] at h ⊢
  cases op with
  | act a =>
    cases hstep
    exact h.act hok
  | run callback =>
    obtain ⟨r, hr, rfl⟩ := map_eq_some_iff.mp hstep
    rw [eventRun] at hr
    split_ifs at hr with hsupports
    · cases hr
      exact h
    · have hstart : Sound s.eventList s.resetMin := fun e he hnot => absurd he hnot
      exact ((visits callback).walk_rule (s := s.resetMin) Sound
        (fun s p e q s' _ hlist hsound hok hvisit => hsound.visit hlist hok hvisit) trivial
        (nil_append s.eventList).symm hstart (hok (by simpa using hsupports)) hr).2.1
  | runEvent callback e =>
    rw [Event.step, runEvent] at hstep
    split_ifs at hstep
    have hpending : Sound [e] s := fun e' he' _ => h e' he' not_mem_nil
    exact (hpending.acts hok).finish hstep

/-- **The time that is reported** is not later than any event, in every run in which no event is
moved in front of it. -/
theorem not_late {now : ℕ} {supportsEvent : Bool} {ops : List Op}
    (hok : Run.StepsMeet step (fun s op => op.Timely s) (init now supportsEvent) ops)
    (hrun : Run.run step (init now supportsEvent) ops = some s) : NotLate s :=
  Run.invariant NotLate (fun _ _ _ h hok hstep => h.step hok hstep)
    (fun _ he => absurd he not_mem_nil) hok hrun

end NotLate

/-- The time that is reported is later than an event after `rb_event_update`, and after the clock
was set back. -/
theorem late_event :
    (∃ s, Run.run step (init 0 false) [.act (.add 7 0 100), .act (.update (some 0) 10)] = some s ∧
      (s.entry 0).when = 10 ∧ eventNext s = some 100 ∧ ¬ NotLate s) ∧
    ∃ s, Run.run step (init 1000 false) [.act (.add 7 0 100), .act (.setTime 500)] = some s ∧
      (s.entry 0).when = 600 ∧ eventNext s = some 1100 ∧ ¬ NotLate s := by
  refine ⟨⟨_, rfl, by decide +kernel, by decide +kernel, fun h => ?_⟩,
    ⟨_, rfl, by decide +kernel, by decide +kernel, fun h => ?_⟩⟩
  · obtain ⟨m, hm, hle⟩ := h 0 (by decide +kernel)
    obtain rfl := some.inj ((by decide +kernel : some 100 = _).trans hm)
    exact absurd hle (by decide +kernel)
  · obtain ⟨m, hm, hle⟩ := h 0 (by decide +kernel)
    obtain rfl := some.inj ((by decide +kernel : some 1100 = _).trans hm)
    exact absurd hle (by decide +kernel)

/-- Events that are added and run. -/
theorem not_late_small : ∃ s, Run.run step (init 0 false)
    [.act (.add 7 0 5), .act (.setTime 9), .run fun _ _ _ => [.addonce 8 0 2]] = some s ∧
    NotLate s := by
  refine ⟨_, rfl, @not_late _ 0 false
    [.act (.add 7 0 5), .act (.setTime 9), .run fun _ _ _ => [.addonce 8 0 2]]
      ⟨trivial, fun s hs => ?_⟩ rfl⟩
  cases hs
  refine ⟨nofun, fun s hs => ⟨fun _ => ?_, fun _ _ => trivial⟩⟩
  exact walkMeets_of_forall fun s e _ => ⟨trivial, trivial⟩

end Ratbox.Event
