import Ratbox.Lib.Deadline
import Ratbox.Nick.Tables
import Ratbox.Lib.Run

/-!
# When delayed nicks expire

A nick that is delayed gets the time at which its delay ends when it is put on `nd_list`, and
`expire_nd_entries` takes the entries off from the front of the list, up to the first whose time has
not come: the list is held to be ordered. It is, as long as the delay that is configured stays or
grows. A rehash may lower it; then a nick that is delayed afterwards may be due before one that
stands in front of it, and stays.

Source: `src/s_newconf.c`, lines 752–796, `src/client.c`, lines 950–956, and `src/newconf.c`, line
2622.

## Main definitions

* `Nick.Delays`: the list, the time, and the delay that is configured.
* `Nick.Delays.Op`, `Nick.Delays.step`: what happens.
* `Nick.Delays.Exact`: `expire_nd_entries` removes the entries whose time has come, and no others.
* `Nick.Delays.Last`: an entry that is added is due last.

## Main results

* `Nick.Delays.exact_iff`: when `expire_nd_entries` does so.
* `Nick.Delays.always_exact_iff`: it does so in every state of a run exactly when every entry that
  is added is due last.
* `Nick.Delays.always_exact_of_grows`: it does so while the delay does not shrink.
-/

namespace Ratbox.Nick

open Text Run Deadline List

/-- The tables, the time, and `ConfigFileEntry.nick_delay`. -/
structure Delays where
  tables : Tables
  now : ℤ
  nickDelay : ℤ

namespace Delays

/-- What happens: a nick is delayed (`add_nd_entry`), a nick that is used is not delayed any more
(`free_nd_entry`), the configuration is read again, time passes, and `expire_nd_entries`. -/
inductive Op
  | add (name : Str)
  | free (name : Str)
  | rehash (nickDelay : ℤ)
  | wait (seconds : ℕ)
  | expire

/-- One operation. -/
def step (s : Delays) : Op → Option Delays
  | .add name => some { s with tables := s.tables.addNdEntry name (s.now + s.nickDelay) }
  | .free name => some { s with tables := s.tables.freeNdEntry name }
  | .rehash nickDelay => some { s with nickDelay }
  | .wait seconds => some { s with now := s.now + seconds }
  | .expire => some { s with tables := s.tables.expireNdEntries s.now }

/-- `expire_nd_entries` at any time from now on removes the entries whose time has come, and keeps
the others. -/
structure Exact (s : Delays) : Prop where
  gone : ∀ t, s.now ≤ t → ∀ nd ∈ (s.tables.expireNdEntries t).ndList, t < nd.expire
  kept : ∀ t, s.now ≤ t → ∀ nd ∈ s.tables.ndList, t < nd.expire →
    nd ∈ (s.tables.expireNdEntries t).ndList

/-- **An entry is due last.** A nick that is added was on the list, or the time of the new entry is
not before that of an entry on the list, unless it is over for that one. -/
def Last (s : Delays) : Op → Prop
  | .add name => s.tables.delayed name = true ∨ ∀ nd ∈ s.tables.ndList, nd.expire ≤ max s.now
    (s.now + s.nickDelay)
  | _ => True

instance (s : Delays) (op : Op) : Decidable (s.Last op) :=
  match op with
  | .add _ => inferInstanceAs (Decidable (_ ∨ _))
  | .free _ | .rehash _ | .wait _ | .expire => isTrue trivial

variable {s s' : Delays} {op : Op} {ops : List Op}

/-- The list is ordered by the times. -/
def Sorted (s : Delays) : Prop := Ordered NdEntry.expire s.now s.tables.ndList

/-- `expire_nd_entries` is right exactly when the list is ordered. -/
theorem exact_iff : Exact s ↔ s.Sorted := by
  rw [Sorted, ← takeDue_clear_iff]
  exact ⟨Exact.gone, fun h => ⟨h, fun t _ nd hnd hlater => mem_takeDue hnd hlater⟩⟩

/-- What a new entry does to the order. -/
theorem sorted_add_iff (h : s.Sorted) {name : Str}
    (hstep : step s (.add name) = some s') : s'.Sorted ↔ s.Last (.add name) := by
  cases hstep
  rw [Last, Sorted, Tables.addNdEntry]
  cases hdelayed : s.tables.delayed name with
  | true =>
    rw [if_pos rfl]
    exact iff_of_true h (.inl rfl)
  | false =>
    simp only [Bool.false_eq_true, if_false, false_or, Ordered.concat]
    exact and_iff_right h

/-- **A step** keeps the order when an entry that it adds is due last. -/
theorem sorted_step (h : s.Sorted) (hop : s.Last op) (hstep : step s op = some s') : s'.Sorted := by
  cases op with
  | add name => exact (sorted_add_iff h hstep).mpr hop
  | free name =>
    cases hstep
    exact Ordered.sublist h eraseP_sublist
  | rehash nickDelay =>
    cases hstep
    exact h
  | wait seconds =>
    cases hstep
    exact Ordered.mono h (Int.le_add_of_nonneg_right (Int.natCast_nonneg seconds))
  | expire =>
    cases hstep
    exact Ordered.sublist h (takeDue_sublist _)

/-- A step that does not, loses it. -/
theorem not_sorted_step (h : s.Sorted) (hop : ¬s.Last op) (hstep : step s op = some s') :
    ¬s'.Sorted := by
  cases op with
  | add name => exact fun h' => hop ((sorted_add_iff h hstep).mp h')
  | free | rehash | wait | expire => exact absurd trivial hop

/-- No nick is delayed. -/
def start (now nickDelay : ℤ) : Delays := ⟨Tables.empty, now, nickDelay⟩

theorem sorted_start (now nickDelay : ℤ) : (start now nickDelay).Sorted := Ordered.nil

theorem run_isSome (s : Delays) (ops : List Op) : ∃ s', run step s ops = some s' := by
  obtain ⟨s', hrun, -⟩ := progress (fun _ => True)
    (fun s op _ _ => ⟨(step s op).get (by cases op <;> rfl), (Option.some_get _).symm, trivial⟩)
      trivial
    (StepsMeet.of_forall (fun _ _ => trivial) s ops)
  exact ⟨s', hrun⟩

/-- **`expire_nd_entries` is right in every state of a run** exactly when every entry that is added
is due last. -/
theorem always_exact_iff (now nickDelay : ℤ) (ops : List Op) :
    Always step Exact (start now nickDelay) ops ↔
    StepsMeet step Last (start now nickDelay) ops := by
  obtain ⟨s', hrun⟩ := run_isSome (start now nickDelay) ops
  exact always_iff Sorted (fun s h => exact_iff.mpr h) (fun _ _ _ => sorted_step)
    (fun _ _ _ h hop hstep hexact => not_sorted_step h hop hstep (exact_iff.mp hexact))
      (sorted_start now nickDelay) hrun

/-- The delay is lowered from 100 to 10 seconds: the second entry stays when its time has come. -/
theorem not_exact :
    (run step (start 0 100) [.add ['a'], .rehash 10, .add ['b'], .wait 20, .expire]).map
      (fun s => (s.now, s.tables.ndList)) = some (20, [⟨['a'], 100⟩, ⟨['b'], 10⟩]) := by
  decide

/-- A delay that does not shrink. -/
def Grows (s : Delays) : Op → Prop
  | .rehash nickDelay => s.nickDelay ≤ nickDelay
  | _ => True

/-- No entry is due later than one that would be added now. -/
def Bounded (s : Delays) : Prop := ∀ nd ∈ s.tables.ndList, nd.expire ≤ s.now + s.nickDelay

theorem last_of_bounded (h : s.Bounded) (op : Op) : s.Last op := by
  cases op with
  | add name => exact .inr fun nd hnd => (h nd hnd).trans (le_max_right _ _)
  | free | rehash | wait | expire => trivial

/-- A step whose delay does not shrink. -/
theorem bounded_step (h : s.Bounded) (hop : s.Grows op) (hstep : step s op = some s') :
    s'.Bounded := by
  intro nd hnd
  cases op with
  | add name =>
    cases hstep
    dsimp only [Tables.addNdEntry] at hnd
    split_ifs at hnd
    · exact h nd hnd
    · rcases mem_append.mp hnd with hnd | hnd
      · exact h nd hnd
      · rw [mem_singleton.mp hnd]
  | free name =>
    cases hstep
    exact h nd (mem_of_mem_eraseP hnd)
  | rehash nickDelay =>
    cases hstep
    exact (h nd hnd).trans (Int.add_le_add_left hop _)
  | wait seconds =>
    cases hstep
    have hle := h nd hnd
    dsimp only
    omega
  | expire =>
    cases hstep
    exact h nd ((takeDue_sublist _).subset hnd)

/-- **While the delay does not shrink**, `expire_nd_entries` is right. -/
theorem always_exact_of_grows (now nickDelay : ℤ)
    (hops : StepsMeet step Grows (start now nickDelay) ops) :
    Always step Exact (start now nickDelay) ops :=
  always_of_stepsMeet (fun s => s.Sorted ∧ s.Bounded) (fun _ h => exact_iff.mpr h.1)
    (fun _ op _ h hop hstep => ⟨sorted_step h.1 (last_of_bounded h.2 op) hstep, bounded_step h.2 hop
      hstep⟩)
    ⟨sorted_start now nickDelay, fun _ hnd => absurd hnd not_mem_nil⟩ hops

/-- The delay is raised. -/
theorem always_exact_of_grows_raised :
    Always step Exact (start 0 10) [.add ['a'], .rehash 100, .add ['b']] := by
  refine always_exact_of_grows 0 10 ⟨trivial,
    fun _ h => ⟨?_, fun _ _ => ⟨trivial, fun _ _ => trivial⟩⟩⟩
  cases h
  exact show (10 : ℤ) ≤ 100 by decide

end Delays

end Ratbox.Nick
