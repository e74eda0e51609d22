import Ratbox.Lib.Run

/-!
# Bytes that pass through a queue

A device takes something in and gives something out, a few items with each operation. When an
operation keeps what is pending with what it takes equal to what it gives with what is pending
then, a run gives what it takes, in order, but for what is still pending (`Transfer.conserved`).

## Main definitions

* `Transfer.Log`: a device, with what it has taken and given.
* `Transfer.step`: an operation, logged.

## Main results

* `Transfer.conserved`: nothing is lost, nothing repeated, and the order is kept.
-/

namespace Ratbox.Transfer

open Run List

variable {σ α β : Type*}

/-- A device, and what it has taken and given so far. -/
structure Log (σ β : Type*) where
  state : σ
  taken : List β
  given : List β

/-- What an operation leaves: the state, and what is taken and given by the operation. -/
structure Moved (σ β : Type*) where
  state : σ
  taken : List β
  given : List β

/-- Make an operation, and log it. -/
def step (op : σ → α → Option (Moved σ β)) (l : Log σ β) (a : α) : Option (Log σ β) :=
  (op l.state a).map fun m => ⟨m.state, l.taken ++ m.taken, l.given ++ m.given⟩

/-- A device that has not been used. -/
def Log.start (s : σ) : Log σ β := ⟨s, [], []⟩

/-- An operation keeps an invariant, and passes on what is pending. -/
structure Passes (inv : σ → Prop) (pending : σ → List β) (s : σ) (m : Moved σ β) : Prop where
  inv : inv m.state
  pending : pending s ++ m.taken = m.given ++ pending m.state

variable {op : σ → α → Option (Moved σ β)} {inv : σ → Prop} {pending : σ → List β} {l : Log σ β}

/-- **Nothing is lost, nothing repeated, and the order is kept**: what is given, with what is
pending, is what was pending at first, with what is taken. -/
theorem conserved {ok : σ → α → Prop}
    (hop : ∀ s a m, inv s → ok s a → op s a = some m → Passes inv pending s m) {s : σ} (hs : inv s)
    {as : List α} (hok : StepsMeet (step op) (fun l a => ok l.state a) (.start s) as)
    (hrun : run (step op) (.start s) as = some l) :
    inv l.state ∧ l.given ++ pending l.state = pending s ++ l.taken := by
  refine Run.invariant (fun l => inv l.state ∧ l.given ++ pending l.state = pending s ++ l.taken)
    ?_ ⟨hs, by simp [Log.start]⟩ hok hrun
  rintro l a l' ⟨hinv, hpending⟩ hmeets hstep
  obtain ⟨m, hm, rfl⟩ := Option.map_eq_some_iff.mp hstep
  obtain ⟨hinv', hpass⟩ := hop l.state a m hinv hmeets hm
  refine ⟨hinv', ?_⟩
  calc l.given ++ m.given ++ pending m.state
      = l.given ++ (pending l.state ++ m.taken) := by rw [append_assoc, hpass]
    _ = pending s ++ (l.taken ++ m.taken) := by
        rw [← append_assoc, hpending, append_assoc]

/-- A device that takes nothing gives what was pending at first. -/
theorem drained
    (hop : ∀ s a m, inv s → op s a = some m → m.taken = [] ∧ Passes inv pending s m) {s : σ}
    (hs : inv s) {as : List α} (hrun : run (step op) (.start s) as = some l) :
    inv l.state ∧ l.given ++ pending l.state = pending s := by
  have hpasses : ∀ s a m, inv s → True → op s a = some m → Passes inv pending s m :=
    fun s a m hinv _ hm => (hop s a m hinv hm).2
  have hok : StepsMeet (step op) (fun _ _ => True) (.start s) as :=
    StepsMeet.of_forall (fun _ _ => trivial) _ _
  obtain ⟨hinv, hsent⟩ := conserved hpasses hs hok hrun
  have htaken : inv l.state ∧ l.taken = [] := by
    refine Run.invariant (fun l => inv l.state ∧ l.taken = []) ?_ ⟨hs, rfl⟩ hok hrun
    rintro l a l' ⟨hinv, hnil⟩ - hstep
    obtain ⟨m, hm, rfl⟩ := Option.map_eq_some_iff.mp hstep
    obtain ⟨hnone, hpass⟩ := hop l.state a m hinv hm
    exact ⟨hpass.inv, by rw [hnil, hnone, append_nil]⟩
  refine ⟨hinv, ?_⟩
  rw [hsent, htaken.2, append_nil]

end Ratbox.Transfer
