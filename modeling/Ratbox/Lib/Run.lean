import Mathlib.Data.List.Infix
import Mathlib.Data.Option.Basic

/-!
# Runs of a partial step function

A system is a step function `step : σ → α → Option σ`, which is `none` where an operation is not
defined. A run makes a list of operations. An invariant that every step keeps, as long as the step
meets a condition on the state it starts from, holds at the end of every run whose steps meet the
condition (`Run.invariant`).

## Main definitions

* `Run.run`: the state after a list of operations.
* `Run.StepsMeet`: every step of a run meets a condition.
* `Run.Always`: a property of every state that a run reaches.
* `Run.emitted`: what the operations of a run emit.

## Main results

* `Run.invariant`: an invariant of the steps is an invariant of the runs.
* `Run.progress`: when the invariant lets every such step be made, the run is made.
* `Run.made_iff`: a condition that says which runs are made.
* `Run.always_iff`: a property that only the steps which meet the condition keep.
* `Run.final_iff`: a property that a run ends with when all its steps meet the condition.
* `Run.emitted_invariant`: an invariant of the state and of what was emitted.
-/

namespace Ratbox.Run

open List Option

variable {σ α : Type*} (step : σ → α → Option σ) {s t : σ} {as : List α} {P : σ → Prop}

/-- Make the operations in turn. -/
def run : σ → List α → Option σ
  | s, [] => some s
  | s, a :: as => (step s a).bind fun s' => run s' as

/-- Each operation of the run meets the condition in the state in which it is made. -/
def StepsMeet (ok : σ → α → Prop) : σ → List α → Prop
  | _, [] => True
  | s, a :: as => ok s a ∧ ∀ s', step s a = some s' → StepsMeet ok s' as

variable {step} {ok : σ → α → Prop}

/-- Whether a run meets a condition can be computed. -/
instance StepsMeet.decidable [∀ s a, Decidable (ok s a)] :
    ∀ (s : σ) (as : List α), Decidable (StepsMeet step ok s as)
  | _, [] => isTrue trivial
  | s, a :: as =>
    have : Decidable (∀ s', step s a = some s' → StepsMeet step ok s' as) :=
      match step s a with
      | none => isTrue fun _ h => nomatch h
      | some s' =>
        have := StepsMeet.decidable s' as
        decidable_of_iff (StepsMeet step ok s' as) ⟨fun h _ hs' => some.inj hs' ▸ h,
          fun h => h s' rfl⟩
    inferInstanceAs (Decidable (_ ∧ _))

theorem run_append (s : σ) (as bs : List α) :
    run step s (as ++ bs) = (run step s as).bind fun s' => run step s' bs := by
  induction as generalizing s with
  | nil => rfl
  | cons a as ih =>
    cases ha : step s a with
    | none => simp [run, ha]
    | some s' => simpa [run, ha] using ih s'

theorem StepsMeet.of_forall (h : ∀ s a, ok s a) (s : σ) (as : List α) : StepsMeet step ok s as := by
  induction as generalizing s with
  | nil => trivial
  | cons a as ih => exact ⟨h s a, fun s' _ => ih s'⟩

/-- The operations of a run go on with others. -/
theorem stepsMeet_append (s : σ) (as bs : List α) : StepsMeet step ok s (as ++ bs) ↔
    StepsMeet step ok s as ∧ ∀ s', run step s as = some s' → StepsMeet step ok s' bs := by
  induction as generalizing s with
  | nil => simp [run, StepsMeet]
  | cons a as ih =>
    simp only [cons_append, StepsMeet, run, ih, bind_eq_some_iff, and_assoc]
    refine and_congr_right fun _ => ⟨fun h => ⟨fun t ht => (h t ht).1, ?_⟩, fun h t ht => ⟨h.1 t ht,
      ?_⟩⟩
    · rintro s' ⟨t, ht, hrun⟩
      exact (h t ht).2 s' hrun
    · exact fun s' hrun => h.2 s' ⟨t, ht, hrun⟩

/-- Two conditions that are the same under an invariant of the steps. -/
theorem stepsMeet_congr {ok' : σ → α → Prop} (inv : σ → Prop)
    (hstep : ∀ s a s', inv s → step s a = some s' → inv s')
    (hok : ∀ s a, inv s → (ok s a ↔ ok' s a)) (hs : inv s) :
    StepsMeet step ok s as ↔ StepsMeet step ok' s as := by
  induction as generalizing s with
  | nil => exact Iff.rfl
  | cons a as ih =>
    exact and_congr (hok s a hs) (forall_congr' fun s' => forall_congr' fun hs' =>
      ih (hstep s a s' hs hs'))

/-- **Invariants.** What holds at first and is kept by every step that meets the condition holds
at the end of the run. -/
theorem invariant (inv : σ → Prop)
    (hstep : ∀ s a s', inv s → ok s a → step s a = some s' → inv s') {s' : σ}
    (hs : inv s) (hok : StepsMeet step ok s as) (hrun : run step s as = some s') : inv s' := by
  induction as generalizing s with
  | nil =>
    obtain rfl : s = s' := by simpa [run] using hrun
    exact hs
  | cons a as ih =>
    obtain ⟨t, ht, hrun⟩ := bind_eq_some_iff.mp hrun
    exact ih (hstep s a t hs hok.1 ht) (hok.2 t ht) hrun

/-- **Progress.** When an invariant lets every step that meets the condition be made, and is kept by
it, every run whose steps meet the condition is made, and keeps the invariant. -/
theorem progress (inv : σ → Prop)
    (hstep : ∀ s a, inv s → ok s a → ∃ s', step s a = some s' ∧ inv s')
    (hs : inv s) (hok : StepsMeet step ok s as) : ∃ s', run step s as = some s' ∧ inv s' := by
  induction as generalizing s with
  | nil => exact ⟨s, rfl, hs⟩
  | cons a as ih =>
    obtain ⟨t, ht, hinv⟩ := hstep s a hs hok.1
    obtain ⟨s', hrun, hs'⟩ := ih hinv (hok.2 t ht)
    exact ⟨s', by rw [run, ht, bind_some, hrun], hs'⟩

/-- **The runs that are made** are those whose steps meet a condition, when under an invariant of
the steps it says which steps are made. -/
theorem made_iff (inv : σ → Prop) (hmade : ∀ s a, inv s → ((∃ s', step s a = some s') ↔ ok s a))
    (hstep : ∀ s a s', inv s → step s a = some s' → inv s') (hs : inv s) :
    (∃ s', run step s as = some s' ∧ inv s') ↔ StepsMeet step ok s as := by
  constructor
  · rintro ⟨s', hrun, -⟩
    induction as generalizing s with
    | nil => trivial
    | cons a as ih =>
      obtain ⟨t, ht, hrun⟩ := bind_eq_some_iff.mp hrun
      refine ⟨(hmade s a hs).mp ⟨t, ht⟩, fun t' ht' => ?_⟩
      cases ht.symm.trans ht'
      exact ih (hstep s a t hs ht) hrun
  · refine progress inv (fun s a hs hok => ?_) hs
    obtain ⟨s', hs'⟩ := (hmade s a hs).mpr hok
    exact ⟨s', hs', hstep s a s' hs hs'⟩

/-- A property holds in every state that the run reaches. -/
def Always (step : σ → α → Option σ) (P : σ → Prop) (s : σ) (as : List α) : Prop :=
  ∀ bs s', bs <+: as → run step s bs = some s' → P s'

theorem always_nil : Always step P s [] ↔ P s := by
  constructor
  · exact fun h => h [] s prefix_rfl rfl
  · intro h bs s' hbs hrun
    obtain rfl := prefix_nil.mp hbs
    exact some.inj hrun ▸ h

theorem always_cons {a : α} :
    Always step P s (a :: as) ↔ P s ∧ ∀ s', step s a = some s' → Always step P s' as := by
  constructor
  · refine fun h => ⟨h [] s nil_prefix rfl, fun s' hs' bs t hbs hrun => ?_⟩
    exact h (a :: bs) t (prefix_cons_inj a |>.mpr hbs) (by rw [run, hs', bind_some, hrun])
  · rintro ⟨hs, h⟩ bs t hbs hrun
    cases bs with
    | nil => exact some.inj hrun ▸ hs
    | cons b bs =>
      obtain ⟨rfl, hrest⟩ := cons_prefix_cons.mp hbs
      obtain ⟨s', hs', hrun⟩ := bind_eq_some_iff.mp hrun
      exact h s' hs' bs t hrest hrun

/-- **An invariant** of the steps holds in every state of a run whose steps meet the condition. -/
theorem always_of_stepsMeet (inv : σ → Prop) (hP : ∀ s, inv s → P s)
    (hstep : ∀ s a s', inv s → ok s a → step s a = some s' → inv s')
    (hs : inv s) (hok : StepsMeet step ok s as) : Always step P s as := by
  induction as generalizing s with
  | nil => exact always_nil.mpr (hP s hs)
  | cons a as ih =>
    exact always_cons.mpr ⟨hP s hs, fun s' hs' => ih (hstep s a s' hs hok.1 hs') (hok.2 s' hs')⟩

/-- **A property of the runs whose steps meet a condition**, and of no others: the invariant has the
property, and a step that does not meet the condition loses it. -/
theorem always_iff (inv : σ → Prop) (hP : ∀ s, inv s → P s)
    (hstep : ∀ s a s', inv s → ok s a → step s a = some s' → inv s')
    (hbad : ∀ s a s', inv s → ¬ok s a → step s a = some s' → ¬P s') (hs : inv s)
    (hrun : run step s as = some t) : Always step P s as ↔ StepsMeet step ok s as := by
  refine ⟨fun h => ?_, always_of_stepsMeet inv hP hstep hs⟩
  induction as generalizing s with
  | nil => trivial
  | cons a as ih =>
    obtain ⟨s', hs', hrun⟩ := bind_eq_some_iff.mp hrun
    have hrest := (always_cons.mp h).2 s' hs'
    have hok : ok s a := by
      by_contra hnot
      exact hbad s a s' hs hnot hs' (hrest [] s' nil_prefix rfl)
    refine ⟨hok, fun s'' hs'' => ?_⟩
    cases hs'.symm.trans hs''
    exact ih (hstep s a s' hs hok hs') hrun hrest

/-- **A property of the end of a run.** It is there when every step meets the condition, and a step
that does not meet it spoils the run for good. -/
theorem final_iff (inv spoilt : σ → Prop) (hP : ∀ s, inv s → P s) (hnot : ∀ s, spoilt s → ¬P s)
    (hstep : ∀ s a s', inv s → ok s a → step s a = some s' → inv s')
    (hbad : ∀ s a s', inv s → ¬ok s a → step s a = some s' → spoilt s')
    (hspoilt : ∀ s a s', spoilt s → step s a = some s' → spoilt s') (hs : inv s)
    (hrun : run step s as = some t) : P t ↔ StepsMeet step ok s as := by
  refine ⟨fun h => ?_, fun hok => hP t (invariant inv hstep hs hok hrun)⟩
  induction as generalizing s with
  | nil => trivial
  | cons a as ih =>
    obtain ⟨s', hs', hrun⟩ := bind_eq_some_iff.mp hrun
    have hok : ok s a := by
      by_contra hbad'
      refine hnot t ?_ h
      exact invariant spoilt (fun s a s' hs _ => hspoilt s a s' hs) (hbad s a s' hs hbad' hs')
        (StepsMeet.of_forall (fun _ _ => trivial) s' as) hrun
    refine ⟨hok, fun s'' hs'' => ?_⟩
    cases hs'.symm.trans hs''
    exact ih (hstep s a s' hs hok hs') hrun

/-- A run of a total step function. -/
theorem run_total (f : σ → α → σ) (s : σ) (as : List α) :
    run (fun s a => some (f s a)) s as = some (as.foldl f s) := by
  induction as generalizing s with
  | nil => rfl
  | cons a as ih => exact ih (f s a)

/-- A condition on the operations alone. -/
theorem stepsMeet_iff_forall {good : α → Prop} (hrun : run step s as = some t) :
    StepsMeet step (fun _ => good) s as ↔ ∀ a ∈ as, good a := by
  induction as generalizing s with
  | nil => simp [StepsMeet]
  | cons a as ih =>
    obtain ⟨s', hs', hrun⟩ := bind_eq_some_iff.mp hrun
    rw [StepsMeet, forall_mem_cons]
    refine and_congr_right fun _ => ⟨fun h => (ih hrun).mp (h s' hs'), fun h s'' hs'' => ?_⟩
    cases hs'.symm.trans hs''
    exact (ih hrun).mpr h

/-! ### What a run emits -/

section Emits

variable {β : Type*} (emit : σ → α → List β)

/-- What the operations of a run emit in the states in which they are made. -/
def emitted (step : σ → α → Option σ) : σ → List α → List β
  | _, [] => []
  | s, a :: as => emit s a ++ (step s a).elim [] fun s' => emitted step s' as

variable {emit} {as : List α}

theorem emitted_append {s s' : σ} (hrun : run step s as = some s') (bs : List α) :
    emitted emit step s (as ++ bs) = emitted emit step s as ++ emitted emit step s' bs := by
  induction as generalizing s with
  | nil =>
    cases hrun
    rfl
  | cons a as ih =>
    obtain ⟨t, ht, hrun⟩ := bind_eq_some_iff.mp hrun
    rw [cons_append, emitted, emitted, ht, elim_some, elim_some, ih hrun, append_assoc]

/-- **Invariants of what is emitted.** What holds of the state and of what was emitted before is
kept by every step, with what the step emits. -/
theorem emitted_invariant (inv : σ → List β → Prop)
    (hstep : ∀ s out a s', inv s out → step s a = some s' → inv s' (out ++ emit s a)) {s s' : σ}
    {out : List β} (hs : inv s out) (hrun : run step s as = some s') :
    inv s' (out ++ emitted emit step s as) := by
  induction as generalizing s out with
  | nil =>
    cases hrun
    rw [emitted, append_nil]
    exact hs
  | cons a as ih =>
    obtain ⟨t, ht, hrun⟩ := bind_eq_some_iff.mp hrun
    rw [emitted, ht, elim_some, ← append_assoc]
    exact ih (hstep s out a t hs ht) hrun

end Emits

end Ratbox.Run
