import Mathlib.Data.Nat.Notation
import Mathlib.Logic.Relation

/-!
# Scanners

A scanner is a loop over a buffer: a turn of it reads some places and either ends with a result or
goes on in another state. When each turn lowers a measure, the loop ends. What it reads is what it
reads in the states that it comes to.

## Main definitions

* `Scanner.Turn`: how a turn ends.
* `Scanner.scan`: the loop, with a bound for the number of turns.
* `Scanner.Comes`: the states that the loop comes to.

## Main results

* `Scanner.exists_scan`: the loop ends when a measure goes down.
* `Scanner.forall_reads_iff`: what holds of everything that is read.
-/

namespace Ratbox.Scanner

/-- How a turn ends: with a result, or in a state in which the loop goes on. -/
inductive Turn (σ ρ : Type*)
  | stop (r : ρ)
  | go (s : σ)

variable {σ ρ : Type*} (step : σ → List ℕ × Turn σ ρ) {P : ℕ → Prop}

/-- The loop: the places that it reads, and its result, unless it needs more turns. -/
def scan : ℕ → σ → Option (List ℕ × ρ)
  | 0, _ => none
  | fuel + 1, s =>
    match step s with
    | (reads, .stop r) => some (reads, r)
    | (reads, .go s') => (scan fuel s').map fun rest => (reads ++ rest.1, rest.2)

/-- The states that the loop comes to. -/
def Comes : σ → σ → Prop := Relation.ReflTransGen fun s t => (step s).2 = .go t

variable {step} {s t : σ} {r : ρ} {fuel : ℕ} {reads : List ℕ}

theorem comes_refl (s : σ) : Comes step s s := Relation.ReflTransGen.refl

/-- The loop comes to a state in no turn, or behind the first one. -/
theorem comes_iff : Comes step s t ↔ t = s ∨ ∃ s', (step s).2 = .go s' ∧ Comes step s' t := by
  constructor
  · intro h
    rcases Relation.ReflTransGen.cases_head h with rfl | h
    · exact .inl rfl
    · exact .inr h
  · rintro (rfl | ⟨s', hs', h⟩)
    · exact comes_refl t
    · exact Relation.ReflTransGen.head hs' h

/-- An invariant of the turns. -/
theorem Comes.invariant (inv : σ → Prop) (hstep : ∀ s t, inv s → (step s).2 = .go t → inv t)
    (hs : inv s) (h : Comes step s t) : inv t := by
  induction h with
  | refl => exact hs
  | tail _ hturn ih => exact hstep _ _ ih hturn

/-- **The loop ends** when each turn lowers a measure. -/
theorem exists_scan (inv : σ → Prop) (measure : σ → ℕ)
    (hstep : ∀ s t, inv s → (step s).2 = .go t → inv t ∧ measure t < measure s) (hs : inv s)
    (hfuel : measure s < fuel) :
    ∃ reads r, scan step fuel s = some (reads, r) := by
  induction fuel generalizing s with
  | zero => omega
  | succ fuel ih =>
    rw [scan]
    rcases hturn : step s with ⟨reads, r | t⟩
    · exact ⟨reads, r, rfl⟩
    · obtain ⟨ht, hlt⟩ := hstep s t hs (by rw [hturn])
      obtain ⟨more, r, hrest⟩ := ih ht (by omega)
      exact ⟨reads ++ more, r, congrArg (Option.map _) hrest⟩

/-- **What is read** is what the states that the loop comes to read. -/
theorem mem_reads_iff (h : scan step fuel s = some (reads, r)) (i : ℕ) :
    i ∈ reads ↔ ∃ t, Comes step s t ∧ i ∈ (step t).1 := by
  induction fuel generalizing s reads with
  | zero => exact absurd h (by simp [scan])
  | succ fuel ih =>
    rw [scan] at h
    rcases hturn : step s with ⟨here, r' | s'⟩
    · rw [hturn] at h
      cases h
      constructor
      · exact fun hi => ⟨s, comes_refl s, by rwa [hturn]⟩
      · rintro ⟨t, hcomes, hi⟩
        obtain rfl | ⟨s', hs', -⟩ := comes_iff.mp hcomes
        · rwa [hturn] at hi
        · exact absurd hs' (by simp [hturn])
    · rw [hturn] at h
      obtain ⟨⟨more, r''⟩, hrest, heq⟩ := Option.map_eq_some_iff.mp h
      cases heq
      rw [List.mem_append, ih hrest]
      constructor
      · rintro (hi | ⟨t, hcomes, hi⟩)
        · exact ⟨s, comes_refl s, by rwa [hturn]⟩
        · exact ⟨t, comes_iff.mpr (.inr ⟨s', by rw [hturn], hcomes⟩), hi⟩
      · rintro ⟨t, hcomes, hi⟩
        obtain rfl | ⟨t', ht', hcomes⟩ := comes_iff.mp hcomes
        · rw [hturn] at hi
          exact .inl hi
        · rw [hturn] at ht'
          obtain rfl := Turn.go.inj ht'
          exact .inr ⟨t, hcomes, hi⟩

theorem forall_reads_iff (h : scan step fuel s = some (reads, r)) :
    (∀ i ∈ reads, P i) ↔ ∀ t, Comes step s t → ∀ i ∈ (step t).1, P i := by
  simp only [mem_reads_iff h]
  exact ⟨fun hall t ht i hi => hall i ⟨t, ht, hi⟩, fun hall i ⟨t, ht, hi⟩ => hall t ht i hi⟩

/-- **Reads inside.** When a state that keeps an invariant reads inside exactly when it is not bad,
all reads are inside exactly when the loop comes to no bad state. -/
theorem forall_reads_iff_of_invariant (inv : σ → Prop) {bad : σ → Prop}
    (h : scan step fuel s = some (reads, r)) (hstep : ∀ s t, inv s → (step s).2 = .go t → inv t)
    (hs : inv s) (hreads : ∀ s, inv s → ((∀ i ∈ (step s).1, P i) ↔ ¬bad s)) :
    (∀ i ∈ reads, P i) ↔ ∀ t, Comes step s t → ¬bad t := by
  rw [forall_reads_iff h]
  exact forall_congr' fun t => imp_congr_right fun ht => hreads t (ht.invariant inv hstep hs)

end Ratbox.Scanner
