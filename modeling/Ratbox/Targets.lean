import Mathlib.Data.Int.Order.Basic
import Mathlib.Data.List.ReduceOption
import Mathlib.Algebra.Ring.Int.Defs
import Ratbox.Lib.Ring
import Ratbox.Lib.Run

/-!
# The targets of a client

A client may write to those it has written to before, and to a new one while fewer than ten of them
are in use. The targets are a ring of ten slots; one of those in use is taken back for each minute
since the last time that this was done. A client whose address was found on the list of those that
ran out of targets starts with six of them in use.

Source: `modules/core/m_message.c`, lines 512–591, and `src/s_user.c`, lines 534–536.

## Main definitions

* `Targets.Source`: the targets of a client.
* `Targets.addTarget`: `add_target`.
* `Targets.Limited`: what the limit is.

## Main results

* `Targets.Sound.step`: a call keeps the invariant.
* `Targets.targets_limited`: the runs.

## Implementation notes

A call that returns 0 also calls `add_tgchange` for the address of the client, which this module has
no use for.
-/

namespace Ratbox.Targets

open Ring Run List

/-! ### The targets -/

/-- The fields `targets`, `targinfo`, which are `FREE_TARGET` and `USED_TARGETS`, and `target_last`
of a local client, and `FLAGS_TGCHANGE`. -/
structure Source (α : Type*) where
  targets : ℕ → Option α
  freeTarget : ℕ
  usedTargets : ℕ
  targetLast : ℤ
  tgChange : Bool

variable {α : Type*}

namespace Source

/-- `register_local_user`, with what `find_tgchange` finds. -/
def registered (found : Bool) : Source α := ⟨fun _ => none, 0, if found then 6 else 0, 0, false⟩

/-- `PREV_TARGET`, which is `PREV_FREE_TARGET` for the slot that is free. -/
def prevTarget (i : ℕ) : ℕ := if i = 0 then 9 else i - 1

/-- `NEXT_TARGET`. -/
def nextTarget (i : ℕ) : ℕ := if i = 9 then 0 else i + 1

/-- The slot that is free gets the target. -/
def put (s : Source α) (target : α) : Source α :=
  { s with
    targets := Function.update s.targets s.freeTarget (some target)
    freeTarget := nextTarget s.freeTarget
    usedTargets := s.usedTargets + 1 }

/-- The minutes since targets were last taken back, as an `unsigned int`. -/
def minutes (s : Source α) (now : ℤ) : ℕ := ((now - s.targetLast).tdiv 60 % 2 ^ 32).toNat

section Hunt

variable [DecidableEq α]

/-- The loop that hunts for a target. -/
def hunt (s : Source α) (target : α) : ℕ → ℕ → Bool
  | _, 0 => false
  | i, j + 1 => s.targets i = some target || hunt s target (prevTarget i) j

/-- The target is found. -/
def has (s : Source α) (target : α) : Bool := s.hunt target (prevTarget s.freeTarget) s.usedTargets

end Hunt

end Source

/-- `add_target`. -/
def addTarget [DecidableEq α] (self : α) (now : ℤ) (target : α) (s : Source α) : Bool × Source α :=
  if self = target then (true, s)
  else if s.usedTargets ≠ 0 then
    if s.has target then (true, s)
    else if !s.tgChange then (true, { s with tgChange := true, targetLast := now }.put target)
    else
      let i := s.minutes now
      if i ≠ 0 then
        let used := if s.usedTargets < i then 0 else s.usedTargets - i
        (true, { s with usedTargets := used, targetLast := now }.put target)
      else if s.usedTargets = 10 then (false, s)
      else (true, s.put target)
  else (true, { s with targetLast := now, tgChange := true }.put target)

/-! ### Runs -/

/-- The targets, the time of the last call, and the new targets that were accepted, with the times,
the newest first. -/
structure Log (α : Type*) where
  source : Source α
  clock : ℤ
  accepted : List (α × ℤ)

/-- A client that has registered. -/
def Log.start (found : Bool) (clock : ℤ) : Log α := ⟨.registered found, clock, []⟩

/-- A target that is not the client itself and is not in use is new. -/
def isNew [DecidableEq α] (self target : α) (s : Source α) : Bool :=
  self ≠ target && !(s.usedTargets ≠ 0 && s.has target)

/-- A call for a target at a time. -/
def step [DecidableEq α] (self : α) (l : Log α) (op : α × ℤ) : Option (Log α) :=
  some ⟨(addTarget self op.2 op.1 l.source).2, op.2,
    if (addTarget self op.2 op.1 l.source).1 && isNew self op.1 l.source then op :: l.accepted
      else l.accepted⟩

/-- The clock does not go back. -/
def Forward (l : Log α) (op : α × ℤ) : Prop := l.clock ≤ op.2

instance (l : Log α) (op : α × ℤ) : Decidable (Forward l op) := inferInstanceAs (Decidable (_ ≤ _))

/-- What is in the slots that are in use. -/
def Source.used (s : Source α) : List (Option α) := before 9 s.targets s.freeTarget s.usedTargets

/-- The number of targets that were accepted in a time. -/
def Log.count (l : Log α) (start stop : ℤ) : ℕ :=
  (l.accepted.filter fun p => start ≤ p.2 && p.2 ≤ stop).length

/-- **The limit.** The slots in use are the targets that were accepted last, each of them once,
behind those that were in use at first; a target that is in use is accepted at any time; and in any
`T` seconds at most `10 + T / 60` new ones are. -/
structure Limited [DecidableEq α] (self : α) (found : Bool) (l : Log α) : Prop where
  used_le : l.source.usedTargets ≤ 10
  free_le : l.source.freeTarget ≤ 9
  used : l.source.used =
    (l.accepted.map (fun p : α × ℤ => some p.1) ++ replicate (if found then 6 else 0) none).take
      l.source.usedTargets
  nodup : l.source.used.reduceOption.Nodup
  remembered : ∀ target, some target ∈ l.source.used → ∀ now, addTarget self now target l.source =
    (true, l.source)
  rate : ∀ start T : ℤ, 0 ≤ T → (l.count start (start + T) : ℤ) ≤ 10 + T / 60

/-! ### The slots -/

section Slots

variable {s : Source α} {self target : α} {now : ℤ} {k : ℕ}

theorem Source.used_put (hfree : s.freeTarget ≤ 9) (hused : s.usedTargets ≤ 9) :
    (s.put target).used = some target :: s.used :=
  before_put s.targets (some target) hfree hused

theorem Source.minutes_eq (h : s.targetLast ≤ now) :
    (s.minutes now : ℤ) = (now - s.targetLast) / 60 % 2 ^ 32 := by
  have hpos : 0 ≤ now - s.targetLast := by omega
  rw [minutes, Int.tdiv_eq_ediv_of_nonneg hpos, Int.toNat_of_nonneg (Int.emod_nonneg _ (by decide))]

variable [DecidableEq α]

theorem Source.hunt_iff (i j : ℕ) :
    s.hunt target (prevTarget i) j = true ↔ some target ∈ before 9 s.targets i j := by
  induction j generalizing i with
  | zero => simp [hunt, before]
  | succ j ih =>
    rw [hunt, before, Bool.or_eq_true, decide_eq_true_iff, ih, mem_cons]
    exact or_congr_left eq_comm

/-- A target is found when it is in a slot that is in use. -/
theorem Source.has_iff : s.has target = true ↔ some target ∈ s.used := hunt_iff ..

theorem isNew_iff : isNew self target s = true ↔ self ≠ target ∧ some target ∉ s.used := by
  rw [isNew, ← Source.has_iff]
  by_cases hzero : s.usedTargets = 0
  · have hnot : s.has target = false := by rw [Source.has, hzero, Source.hunt]
    simp [hzero, hnot]
  · simp [hzero]

/-- A target that is not new is accepted, and nothing changes. -/
theorem addTarget_old (h : isNew self target s = false) (now : ℤ) :
    addTarget self now target s = (true, s) := by
  rw [addTarget]
  split_ifs with hself hused hhas
  · rfl
  · rfl
  all_goals simp_all [isNew]

/-- A target that is new is refused when all are in use, or is accepted, with no target taken back,
or with those taken back that the minutes allow. -/
theorem addTarget_new (h : isNew self target s = true) (now : ℤ) :
    addTarget self now target s = (false, s) ∨
      ∃ kept last, addTarget self now target s =
          (true, { s with usedTargets := kept, targetLast := last, tgChange := true }.put target) ∧
          kept ≤ s.usedTargets ∧
        (last = s.targetLast ∧ kept = s.usedTargets ∧ kept ≠ 0 ∧ kept ≠ 10 ∧ s.tgChange = true ∧
          s.minutes now = 0 ∨
          last = now ∧ s.usedTargets ≤ kept + s.minutes now ∧
          (kept < s.usedTargets ∨ kept = 0 ∨ s.tgChange = false)) := by
  obtain ⟨hself, hnot⟩ := isNew_iff.mp h
  have hhas : ¬s.has target = true := fun hhas => hnot (Source.has_iff.mp hhas)
  have hsub : (if s.usedTargets < s.minutes now then 0 else s.usedTargets - s.minutes now) =
      s.usedTargets - s.minutes now := by
    split_ifs <;> omega
  rw [addTarget, if_neg hself, if_neg hhas]
  simp only [hsub]
  cases htg : s.tgChange with
  | false =>
    simp only [Bool.not_false, if_true]
    split_ifs with hused
    · exact .inr ⟨s.usedTargets, now, rfl, le_rfl, Or.inr ⟨rfl, by omega, Or.inr (.inr trivial)⟩⟩
    · have hzero : s.usedTargets = 0 := by simpa using hused
      exact .inr ⟨0, now, by rw [← hzero], Nat.zero_le _, Or.inr ⟨rfl, by omega, Or.inr (.inl rfl)⟩⟩
  | true =>
    simp only [Bool.not_true, Bool.false_eq_true, if_false]
    split_ifs with hused hmin hfull
    · refine .inr ⟨s.usedTargets - s.minutes now, now, rfl, Nat.sub_le ..,
        Or.inr ⟨rfl, by omega, by omega⟩⟩
    · exact .inl rfl
    · refine .inr ⟨s.usedTargets, s.targetLast, by rw [← htg], le_rfl, Or.inl ⟨rfl, rfl, hused,
        hfull, trivial, ?_⟩⟩
      simpa using hmin
    · have hzero : s.usedTargets = 0 := by simpa using hused
      exact .inr ⟨0, now, by rw [← hzero], Nat.zero_le _, Or.inr ⟨rfl, by omega, Or.inr (.inl rfl)⟩⟩

end Slots

/-! ### The pace -/

section Pace

variable {s : Source α} {l : Log α} {self target : α} {now t start T : ℤ} {kept : ℕ} {last : ℤ}

/-- The number of targets that were accepted since a time. -/
def Log.since (l : Log α) (t : ℤ) : ℕ := (l.accepted.filter fun p => t ≤ p.2).length

/-- What was accepted since a time. When targets were taken back since then, there is a minute for
each of them but those that are in use. Otherwise the last of them were taken back less than a
minute before that time, except for `2 ^ 32` minutes that the counter of the minutes leaves out, and
one of the targets in use was accepted earlier. -/
def Paced (l : Log α) (t : ℤ) : Prop :=
  l.since t = 0 ∨
    t ≤ l.source.targetLast ∧ (l.since t : ℤ) ≤ l.source.usedTargets + (l.source.targetLast - t) /
      60 ∨
    ∃ m : ℤ, t < l.source.targetLast + 60 * (2 ^ 32 * m) + 60 ∧ l.source.targetLast +
      60 * (2 ^ 32 * m) ≤ l.clock ∧ l.since t + 1 ≤ l.source.usedTargets

/-- The state after a target was accepted. -/
def Log.accept (l : Log α) (kept : ℕ) (last now : ℤ) (target : α) : Log α :=
  ⟨{ l.source with usedTargets := kept, targetLast := last, tgChange := true }.put target, now,
    (target, now) :: l.accepted⟩

theorem since_accept (kept : ℕ) (last : ℤ) (target : α) :
    (l.accept kept last now target).since t = l.since t + if t ≤ now then 1 else 0 := by
  rw [Log.since, Log.since, Log.accept, filter_cons]
  split_ifs <;> simp_all

theorem since_eq_zero (h : ∀ p ∈ l.accepted, p.2 ≤ l.clock) (ht : l.clock < t) : l.since t = 0 := by
  rw [Log.since, length_eq_zero_iff, filter_eq_nil_iff]
  intro p hp
  have := h p hp
  simp only [decide_eq_true_eq]
  omega

/-- The pace is kept when a target is accepted. -/
theorem Paced.accept (h : Paced l t) (htimes : ∀ p ∈ l.accepted, p.2 ≤ l.clock)
    (hclock : l.clock ≤ now) (hidle : l.source.tgChange = false → l.accepted = [])
    (hlast : l.source.tgChange = true → l.source.targetLast ≤ l.clock)
    (hkept : last = l.source.targetLast ∧ kept = l.source.usedTargets ∧ kept ≠ 0 ∧
        l.source.tgChange = true ∧ l.source.minutes now = 0 ∨
      last = now ∧ l.source.usedTargets ≤ kept + l.source.minutes now) (target : α) :
    Paced (l.accept kept last now target) t := by
  have hused : (l.accept kept last now target).source.usedTargets = kept + 1 := rfl
  have hl : (l.accept kept last now target).source.targetLast = last := rfl
  have hc : (l.accept kept last now target).clock = now := rfl
  rw [Paced, since_accept, hused, hl, hc]
  by_cases ht : t ≤ now
  swap
  · left
    rw [since_eq_zero htimes (by omega), if_neg ht]
  rw [if_pos ht]
  right
  by_cases hzero : l.since t = 0
  · -- The first one since then.
    rw [hzero]
    rcases hkept with ⟨rfl, -, hne, htg, hmin⟩ | ⟨rfl, -⟩
    · have hle := (hlast htg).trans hclock
      have hminutes := Source.minutes_eq hle
      rw [hmin] at hminutes
      refine .inr ⟨(now - l.source.targetLast) / 60 / 2 ^ 32, ?_, ?_, by omega⟩ <;> omega
    · exact .inl ⟨ht, by omega⟩
  have htg : l.source.tgChange = true := by
    by_contra hnot
    exact hzero (by rw [Log.since, hidle (Bool.eq_false_iff.mpr hnot)]; rfl)
  have hle := (hlast htg).trans hclock
  have hminutes := Source.minutes_eq hle
  obtain hnone | ⟨hafter, hcount⟩ | ⟨m, hbefore, hsince, hcount⟩ := h
  · exact absurd hnone hzero
  · rcases hkept with ⟨rfl, rfl, -, -, -⟩ | ⟨rfl, hback⟩
    · exact .inl ⟨hafter, by omega⟩
    · exact .inl ⟨ht, by omega⟩
  · rcases hkept with ⟨rfl, rfl, -, -, -⟩ | ⟨rfl, hback⟩
    · exact .inr ⟨m, hbefore, by omega, by omega⟩
    · exact .inl ⟨ht, by omega⟩

/-- What was accepted since a time, up to now. -/
theorem Paced.le (h : Paced l t) (hused : l.source.usedTargets ≤ 10) (ht : t ≤ l.clock)
    (hidle : l.source.tgChange = false → l.accepted = [])
    (hlast : l.source.tgChange = true → l.source.targetLast ≤ l.clock) :
    (l.since t : ℤ) ≤ 10 + (l.clock - t) / 60 := by
  obtain hnone | ⟨-, hcount⟩ | ⟨m, -, -, hcount⟩ := h
  · omega
  · cases htg : l.source.tgChange with
    | false =>
      have hzero : l.since t = 0 := by rw [Log.since, hidle htg]; rfl
      omega
    | true =>
      have hle := hlast htg
      omega
  · omega

theorem count_accept (kept : ℕ) (last : ℤ) (target : α) :
    (l.accept kept last now target).count start (start + T) = l.count start (start + T) + if start ≤
    now ∧ now ≤ start + T then 1 else 0 := by
  rw [Log.count, Log.count, Log.accept, filter_cons]
  split_ifs <;> simp_all

theorem count_le_since (start stop : ℤ) : l.count start stop ≤ l.since start := by
  rw [Log.count, Log.since]
  refine (monotone_filter_right _ fun p hp => ?_).length_le
  simp only [Bool.and_eq_true, decide_eq_true_eq] at hp ⊢
  exact hp.1

end Pace

/-! ### Every run -/

section Runs

variable {l l' : Log α} {self : α} {found : Bool} {op : α × ℤ} {ops : List (α × ℤ)}

/-- What holds after every call. -/
structure Sound (found : Bool) (l : Log α) : Prop where
  used_le : l.source.usedTargets ≤ 10
  free_le : l.source.freeTarget ≤ 9
  used : l.source.used =
    (l.accepted.map (fun p : α × ℤ => some p.1) ++ replicate (if found then 6 else 0) none).take
      l.source.usedTargets
  nodup : l.source.used.reduceOption.Nodup
  idle : l.source.tgChange = false → l.accepted = []
  first : l.source.tgChange = false → l.source.usedTargets ≤ 6
  last_le : l.source.tgChange = true → l.source.targetLast ≤ l.clock
  times : ∀ p ∈ l.accepted, p.2 ≤ l.clock
  paced : ∀ t, Paced l t
  rate : ∀ start T : ℤ, 0 ≤ T → (l.count start (start + T) : ℤ) ≤ 10 + T / 60

theorem sound_start (found : Bool) (clock : ℤ) : Sound found (Log.start found clock : Log α) where
  used_le := by
    cases found
    · exact Nat.zero_le _
    · exact (by decide : 6 ≤ 10)
  free_le := Nat.zero_le _
  used := by cases found <;> rfl
  nodup := by cases found <;> exact nodup_nil
  idle _ := rfl
  first _ := by cases found <;> simp [Log.start, Source.registered]
  last_le h := absurd h (by simp [Log.start, Source.registered])
  times p hp := absurd hp not_mem_nil
  paced _ := Or.inl rfl
  rate start T hT := by
    have hzero : (Log.start found clock : Log α).count start (start + T) = 0 := rfl
    omega

/-- Time passes. -/
theorem Sound.wait (h : Sound found l) {now : ℤ} (hnow : l.clock ≤ now) :
    Sound found ⟨l.source, now, l.accepted⟩ where
  used_le := h.used_le
  free_le := h.free_le
  used := h.used
  nodup := h.nodup
  idle := h.idle
  first := h.first
  last_le htg := (h.last_le htg).trans hnow
  times p hp := (h.times p hp).trans hnow
  paced t := by
    obtain hnone | hafter | ⟨m, hbefore, hsince, hcount⟩ := h.paced t
    · exact .inl hnone
    · exact .inr (.inl hafter)
    · exact .inr (.inr ⟨m, hbefore, hsince.trans hnow, hcount⟩)
  rate := h.rate

/-- A new target is accepted. -/
theorem Sound.accept (h : Sound found l) {now : ℤ} (hnow : l.clock ≤ now) {target : α}
    (hnew : some target ∉ l.source.used) {kept : ℕ} {last : ℤ} (hle : kept ≤ l.source.usedTargets)
    (hkept : last = l.source.targetLast ∧ kept = l.source.usedTargets ∧ kept ≠ 0 ∧ kept ≠ 10 ∧
        l.source.tgChange = true ∧ l.source.minutes now = 0 ∨
      last = now ∧ l.source.usedTargets ≤ kept + l.source.minutes now ∧
        (kept < l.source.usedTargets ∨ kept = 0 ∨ l.source.tgChange = false)) :
    Sound found (l.accept kept last now target) := by
  have hused := h.used_le
  have hfirst := h.first
  have hnine : kept ≤ 9 := by
    rcases hkept with ⟨-, -, -, hne, -, -⟩ | ⟨-, -, hlt | hzero | htg⟩
    · omega
    · omega
    · omega
    · have := hfirst htg
      omega
  have hlast : last ≤ now := by
    rcases hkept with ⟨rfl, -, -, -, htg, -⟩ | ⟨rfl, -⟩
    · exact (h.last_le htg).trans hnow
    · exact le_rfl
  have htake : ({ l.source with usedTargets := kept, targetLast := last, tgChange := true } :
      Source α).used = l.source.used.take kept := (take_before _ _ hle).symm
  have hput : (l.accept kept last now target).source.used = some target ::
      l.source.used.take kept := by
    rw [← htake]
    exact Source.used_put h.free_le hnine
  have hpaced := fun t => (h.paced t).accept h.times hnow h.idle h.last_le
    (hkept.imp (fun ⟨a, b, c, _, d, e⟩ => ⟨a, b, c, d, e⟩) fun ⟨a, b, _⟩ => ⟨a, b⟩) target
  exact {
    used_le := Nat.succ_le_succ hnine
    free_le := next_le h.free_le
    used := by
      rw [hput, h.used, take_take, min_eq_left hle]
      rfl
    nodup := by
      rw [hput, reduceOption_cons_of_some]
      refine nodup_cons.mpr ⟨fun hmem => hnew ?_, ?_⟩
      · exact mem_of_mem_take (reduceOption_mem_iff.mp hmem)
      · exact h.nodup.sublist ((take_sublist _ _).filterMap _)
    idle := fun htg => absurd htg (by simp [Log.accept, Source.put])
    first := fun htg => absurd htg (by simp [Log.accept, Source.put])
    last_le := fun _ => hlast
    times := fun p hp => (mem_cons.mp hp).elim (fun heq => heq ▸ le_rfl) fun hp =>
      (h.times p hp).trans hnow
    paced := hpaced
    rate := fun start T hT => by
      rw [count_accept]
      split_ifs with hin
      · have hcount := count_le_since (l := l.accept kept last now target) start (start + T)
        rw [count_accept, if_pos hin] at hcount
        have hle := (hpaced start).le (Nat.succ_le_succ hnine) hin.1
          (fun htg => absurd htg (by simp [Log.accept, Source.put])) fun _ => hlast
        have hclock : (l.accept kept last now target).clock = now := rfl
        rw [hclock] at hle
        omega
      · exact h.rate start T hT }

variable [DecidableEq α]

/-- **A call** keeps the invariant. -/
theorem Sound.step (h : Sound found l) (hop : Forward l op) (hstep : step self l op = some l') :
    Sound found l' := by
  cases hstep
  obtain ⟨target, now⟩ := op
  cases hnew : isNew self target l.source with
  | false =>
    rw [addTarget_old hnew, Bool.and_false]
    exact h.wait hop
  | true =>
    obtain ⟨-, hnot⟩ := isNew_iff.mp hnew
    obtain heq | ⟨kept, last, heq, hle, hkept⟩ := addTarget_new hnew now
    · rw [heq, Bool.false_and]
      exact h.wait hop
    · rw [heq, Bool.true_and]
      exact h.accept hop hnot hle hkept

/-- **The limit on targets** holds after every run. -/
theorem targets_limited (self : α) (found : Bool) (clock : ℤ)
    (hops : StepsMeet (step self) Forward (Log.start found clock) ops) :
    ∃ l, run (step self) (Log.start found clock) ops = some l ∧ Limited self found l := by
  obtain ⟨l, hrun, h⟩ := progress (Sound found) (fun l op h hop => ⟨_, rfl, h.step hop rfl⟩)
    (sound_start found clock) hops
  refine ⟨l, hrun, h.used_le, h.free_le, h.used, h.nodup, fun target hmem now => ?_, h.rate⟩
  refine addTarget_old (Bool.eq_false_iff.mpr fun hnew => ?_) now
  exact (isNew_iff.mp hnew).2 hmem

theorem targets_limited_two : ∃ l, run (step 0) (Log.start true 100)
    [(1, 100), (2, 100), (1, 101), (3, 160)] = some l ∧ Limited 0 true l :=
  targets_limited 0 true 100 (by decide)

end Runs

end Ratbox.Targets
