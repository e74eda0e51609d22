import Mathlib.Data.List.Basic

/-!
# Two parties with a line each way

Two parties send each other messages over two lines, each of which delivers in order. A party
takes the next message that comes to it, changes its state, and sends what it answers; which party
is next is left open. Deliveries to the two parties commute, so that the order of the deliveries
does not matter: if one run reaches a configuration in which all messages are consumed, then every
run can be continued to it, takes no more steps than it, and ends there if it ends at all.

## Main definitions

* `Duplex.Config`, `Duplex.deliver`: configurations and deliveries.
* `Duplex.Steps`: runs, with the number of their steps.
* `Duplex.Quiet`: all messages are consumed.

## Main results

* `Duplex.deliver_comm`: deliveries to the two parties commute.
* `Duplex.Steps.descent`: every run goes on to the configuration that one run ends in.
-/

namespace Ratbox.Duplex

open Function List

variable {σ μ : Type*} {recv : Bool → σ → μ → σ × List μ}

/-- The states of the parties, and the messages on the way to each. -/
@[ext]
structure Config (σ μ : Type*) where
  party : Bool → σ
  inbox : Bool → List μ

/-- Party `i` takes the next message. -/
def deliver (recv : Bool → σ → μ → σ × List μ) (i : Bool) (c : Config σ μ) :
    Option (Config σ μ) :=
  match c.inbox i with
  | [] => none
  | m :: ms =>
    let r := recv i (c.party i) m
    some
      { party := update c.party i r.1
        inbox := update (update c.inbox i ms) (!i) (c.inbox (!i) ++ r.2) }

/-- Runs, with the number of deliveries. -/
inductive Steps (recv : Bool → σ → μ → σ × List μ) : ℕ → Config σ μ → Config σ μ → Prop
  | refl (c : Config σ μ) : Steps recv 0 c c
  | head {n : ℕ} {c d e : Config σ μ} (i : Bool) (h : deliver recv i c = some d)
      (hs : Steps recv n d e) : Steps recv (n + 1) c e

/-- All messages are consumed. -/
def Quiet (c : Config σ μ) : Prop := ∀ i, c.inbox i = []

theorem deliver_eq_some {i : Bool} {c d : Config σ μ} :
    deliver recv i c = some d ↔ ∃ m ms, c.inbox i = m :: ms ∧
      d.party = update c.party i (recv i (c.party i) m).1 ∧
      d.inbox = update (update c.inbox i ms) (!i)
        (c.inbox (!i) ++ (recv i (c.party i) m).2) := by
  rw [deliver]
  cases hin : c.inbox i with
  | nil => simp
  | cons m ms =>
    constructor
    · rintro ⟨⟩
      exact ⟨m, ms, rfl, rfl, rfl⟩
    · rintro ⟨m', ms', hm, hparty, hinbox⟩
      obtain ⟨rfl, rfl⟩ := cons.inj hm
      exact congrArg some (Config.ext hparty.symm hinbox.symm)

theorem Quiet.deliver_eq_none {c : Config σ μ} (h : Quiet c) (i : Bool) :
    deliver recv i c = none := by
  rw [deliver, h i]

/-- **Deliveries to the two parties commute.** -/
theorem deliver_comm {c d e : Config σ μ} {i : Bool} (hd : deliver recv i c = some d)
    (he : deliver recv (!i) c = some e) :
    ∃ f, deliver recv (!i) d = some f ∧ deliver recv i e = some f := by
  obtain ⟨m, ms, hm, hdp, hdi⟩ := deliver_eq_some.mp hd
  obtain ⟨n, ns, hn, hep, hei⟩ := deliver_eq_some.mp he
  rw [Bool.not_not] at hei
  have hne : i ≠ !i := by cases i <;> decide
  have hne' : (!i) ≠ i := hne.symm
  -- The other party finds its next message, and what was sent stands behind it.
  have hdn : d.inbox (!i) = n :: (ns ++ (recv i (c.party i) m).2) := by
    rw [hdi, update_self, hn, cons_append]
  have hem : e.inbox i = m :: (ms ++ (recv (!i) (c.party (!i)) n).2) := by
    rw [hei, update_self, hm, cons_append]
  have hdp' : d.party (!i) = c.party (!i) := by rw [hdp, update_of_ne hne']
  have hep' : e.party i = c.party i := by rw [hep, update_of_ne hne]
  have hdm : d.inbox i = ms := by
    rw [hdi, update_of_ne hne, update_self]
  have hen : e.inbox (!i) = ns := by
    rw [hei, update_of_ne hne', update_self]
  refine ⟨{ party := update d.party (!i) (recv (!i) (c.party (!i)) n).1
            inbox := update (update d.inbox (!i) (ns ++ (recv i (c.party i) m).2))
              i (ms ++ (recv (!i) (c.party (!i)) n).2) }, ?_, ?_⟩
  · refine deliver_eq_some.mpr ⟨n, _, hdn, ?_, ?_⟩
    · rw [hdp']
    · rw [Bool.not_not, hdm, hdp']
  · refine deliver_eq_some.mpr ⟨m, _, hem, ?_, ?_⟩
    · rw [hep', hep, hdp, update_comm hne]
    · funext j
      rw [hen, hep', hdi, hei]
      cases i <;> cases j <;> rfl

/-- A delivery and a run that ends with all messages consumed: the run can start with the
delivery. -/
theorem Steps.of_deliver {n : ℕ} {c d q : Config σ μ} {i : Bool} (hs : Steps recv n c q)
    (hq : Quiet q) (hd : deliver recv i c = some d) : ∃ m, n = m + 1 ∧ Steps recv m d q := by
  induction hs generalizing d with
  | refl c =>
    rw [hq.deliver_eq_none i] at hd
    cases hd
  | @head n c e q j he hs ih =>
    by_cases hij : j = i
    · obtain rfl := hij
      rw [hd, Option.some.injEq] at he
      exact ⟨n, rfl, he ▸ hs⟩
    · obtain rfl : j = !i := by
        cases i <;> cases j <;> simp_all
      obtain ⟨f, hdf, hef⟩ := deliver_comm hd he
      obtain ⟨m, rfl, hf⟩ := ih hq hef
      exact ⟨m + 1, rfl, Steps.head (!i) hdf hf⟩

/-- **The order of the deliveries does not matter.** When a run ends with all messages consumed,
every other run has at most as many steps, and goes on to the same configuration. -/
theorem Steps.descent {n m : ℕ} {c d q : Config σ μ} (hs : Steps recv n c q) (hq : Quiet q)
    (hd : Steps recv m c d) : ∃ k, n = m + k ∧ Steps recv k d q := by
  induction hd generalizing n with
  | refl c => exact ⟨n, (Nat.zero_add n).symm, hs⟩
  | @head m c e d i he _ ih =>
    obtain ⟨n, rfl, hrest⟩ := hs.of_deliver hq he
    obtain ⟨k, rfl, hk⟩ := ih hrest
    exact ⟨k, by omega, hk⟩

/-- All messages are consumed in one configuration only. -/
theorem Steps.eq_of_quiet {n m : ℕ} {c d q : Config σ μ} (hs : Steps recv n c q) (hq : Quiet q)
    (hd : Steps recv m c d) (hdq : Quiet d) : d = q := by
  obtain ⟨k, -, hk⟩ := hs.descent hq hd
  cases hk with
  | refl => rfl
  | head i h _ =>
    rw [hdq.deliver_eq_none i] at h
    cases h

theorem Steps.trans {n m : ℕ} {c d e : Config σ μ} (h : Steps recv n c d)
    (h' : Steps recv m d e) : Steps recv (n + m) c e := by
  induction h with
  | refl c => rwa [Nat.zero_add]
  | head i hd _ ih =>
    rw [Nat.add_right_comm]
    exact Steps.head i hd (ih h')

/-! ### A party that answers nothing more -/

/-- Party `i` takes all the messages that have come to it, when it answers none of them; what is
kept is said of the state and the messages that are left. -/
theorem Steps.drain {i : Bool} {P : List μ → σ → Prop}
    (hquiet : ∀ m ms s, P (m :: ms) s → P ms (recv i s m).1 ∧ (recv i s m).2 = [])
    {ms : List μ} {c : Config σ μ} (hin : c.inbox i = ms) (hP : P ms (c.party i)) :
    ∃ s, P [] s ∧ Steps recv ms.length c
      { party := update c.party i s, inbox := update c.inbox i [] } := by
  induction ms generalizing c with
  | nil =>
    have hinbox : update c.inbox i [] = c.inbox := by
      rw [← hin, update_eq_self]
    refine ⟨c.party i, hP, ?_⟩
    rw [update_eq_self, hinbox]
    exact Steps.refl c
  | cons m ms ih =>
    obtain ⟨hP', hout⟩ := hquiet m ms _ hP
    have hd : deliver recv i c = some
        { party := update c.party i (recv i (c.party i) m).1
          inbox := update c.inbox i ms } := by
      refine deliver_eq_some.mpr ⟨m, ms, hin, rfl, ?_⟩
      rw [hout, append_nil]
      funext j
      cases i <;> cases j <;> rfl
    obtain ⟨s, hs, hrest⟩ := ih (c := ⟨update c.party i (recv i (c.party i) m).1,
      update c.inbox i ms⟩) (update_self ..) (by simpa using hP')
    simp only [update_idem] at hrest
    exact ⟨s, hs, Steps.head i hd hrest⟩

end Ratbox.Duplex
