import Mathlib.Data.List.Infix
import Mathlib.Data.List.Nodup

/-!
# Draining a queue

A queue is drained from its front: each entry is offered in turn, and goes, or stays for later, or
ends the drain. When an entry that stays does not end the drain, a later one can go in front of it.

## Main definitions

* `Drain.drain`: what goes and what is left, for the answers that the entries get.
* `Drain.InOrder`: no entry goes after one that stays.

## Main results

* `Drain.drain_perm`: nothing is lost or comes twice.
* `Drain.sent_prefix_iff`: what goes is the front of the queue exactly when the answers are in
  order.
-/

namespace Ratbox.Drain

open List Option

/-- The answer that an entry gets when it is offered. -/
inductive Answer
  | sent
  | again
  | fatal
  deriving DecidableEq

variable {α : Type*}

/-- What a drain leaves: the entries that went, in turn, the others, and whether it was ended. -/
structure Drained (α : Type*) where
  sent : List α
  left : List α
  dead : Bool

/-- Offer the entries in turn. The answers are those that are given, one for each entry that is
offered. -/
def drain : List α → List Answer → Option (Drained α)
  | [], [] => some ⟨[], [], false⟩
  | a :: as, .sent :: rs => (drain as rs).map fun d => { d with sent := a :: d.sent }
  | a :: as, .again :: rs => (drain as rs).map fun d => { d with left := a :: d.left }
  | a :: as, [.fatal] => some ⟨[], a :: as, true⟩
  | _, _ => none

/-- No entry goes after one that stays. -/
def InOrder (rs : List Answer) : Prop := rs.Pairwise fun r r' => r = .again → r' ≠ .sent

instance (rs : List Answer) : Decidable (InOrder rs) := inferInstanceAs (Decidable (Pairwise _ _))

variable {as : List α} {rs : List Answer} {d : Drained α} {a : α}

/-- What a drain does with the first entry. -/
theorem drain_cons (h : drain (a :: as) rs = some d) :
    (∃ rs' d', rs = .sent :: rs' ∧ drain as rs' = some d' ∧ d = { d' with sent := a :: d'.sent }) ∨
      (∃ rs' d', rs = .again :: rs' ∧ drain as rs' = some d' ∧
        d = { d' with left := a :: d'.left }) ∨ rs = [.fatal] ∧ d = ⟨[], a :: as, true⟩ := by
  match rs, h with
  | .sent :: rs', h =>
    obtain ⟨d', hd', rfl⟩ := map_eq_some_iff.mp h
    exact .inl ⟨rs', d', rfl, hd', rfl⟩
  | .again :: rs', h =>
    obtain ⟨d', hd', rfl⟩ := map_eq_some_iff.mp h
    exact .inr (.inl ⟨rs', d', rfl, hd', rfl⟩)
  | [.fatal], h => exact .inr (.inr ⟨rfl, (some.inj h).symm⟩)

theorem drain_nil (h : drain ([] : List α) rs = some d) : rs = [] ∧ d = ⟨[], [], false⟩ := by
  cases rs with
  | nil => exact ⟨rfl, (some.inj h).symm⟩
  | cons r rs => exact absurd h (by simp [drain])

section

variable (h : drain as rs = some d)
include h

/-- **Nothing is lost or comes twice.** -/
theorem drain_perm : as.Perm (d.sent ++ d.left) := by
  induction as generalizing rs d with
  | nil =>
    obtain ⟨-, rfl⟩ := drain_nil h
    exact Perm.refl _
  | cons a as ih =>
    obtain ⟨rs', d', -, hd', rfl⟩ | ⟨rs', d', -, hd', rfl⟩ | ⟨-, rfl⟩ := drain_cons h
    · exact (ih hd').cons a
    · exact ((ih hd').cons a).trans perm_middle.symm
    · exact Perm.refl _

/-- When an entry stays, those that go are not the front of the queue unless none goes. -/
theorem sent_of_again (hnot : ∀ r ∈ rs, r ≠ .sent) : d.sent = [] ∧ d.left = as := by
  induction as generalizing rs d with
  | nil =>
    obtain ⟨-, rfl⟩ := drain_nil h
    exact ⟨rfl, rfl⟩
  | cons a as ih =>
    obtain ⟨rs', d', rfl, hd', rfl⟩ | ⟨rs', d', rfl, hd', rfl⟩ | ⟨-, rfl⟩ := drain_cons h
    · exact absurd rfl (hnot .sent mem_cons_self)
    · obtain ⟨hsent, hleft⟩ := ih hd' fun r hr => hnot r (mem_cons_of_mem _ hr)
      exact ⟨hsent, congrArg (a :: ·) hleft⟩
    · exact ⟨rfl, rfl⟩

/-- With the answers in order, the front of the queue goes and the rest stays. -/
theorem append_of_inOrder (hrs : InOrder rs) : d.sent ++ d.left = as := by
  induction as generalizing rs d with
  | nil =>
    obtain ⟨-, rfl⟩ := drain_nil h
    rfl
  | cons a as ih =>
    obtain ⟨rs', d', rfl, hd', rfl⟩ | ⟨rs', d', rfl, hd', rfl⟩ | ⟨-, rfl⟩ := drain_cons h
    · exact congrArg (a :: ·) (ih hd' (pairwise_cons.mp hrs).2)
    · obtain ⟨hsent, hleft⟩ := sent_of_again hd' fun r hr => (pairwise_cons.mp hrs).1 r hr rfl
      exact show d'.sent ++ a :: d'.left = a :: as by rw [hsent, hleft, nil_append]
    · rfl

/-- An entry that goes is in the queue. -/
theorem mem_of_sent (ha : a ∈ d.sent) : a ∈ as :=
  (drain_perm h).mem_iff.mpr (mem_append_left _ ha)

/-- A drain in which an answer is `sent` lets an entry go. -/
theorem sent_ne_nil (hr : .sent ∈ rs) : d.sent ≠ [] := by
  induction as generalizing rs d with
  | nil =>
    obtain ⟨rfl, -⟩ := drain_nil h
    exact absurd hr not_mem_nil
  | cons a as ih =>
    obtain ⟨rs', d', rfl, hd', rfl⟩ | ⟨rs', d', rfl, hd', rfl⟩ | ⟨rfl, -⟩ := drain_cons h
    · exact cons_ne_nil _ _
    · exact show d'.sent ≠ [] from ih hd' (by simpa using hr)
    · exact absurd hr (by simp)

/-- **What goes is the front of the queue** exactly when the answers are in order. -/
theorem sent_prefix_iff (hnodup : as.Nodup) : d.sent <+: as ↔ InOrder rs := by
  refine ⟨fun hprefix => ?_, fun hrs => ⟨d.left, append_of_inOrder h hrs⟩⟩
  induction as generalizing rs d with
  | nil =>
    obtain ⟨rfl, -⟩ := drain_nil h
    exact Pairwise.nil
  | cons a as ih =>
    obtain ⟨hnot, hnodup⟩ := nodup_cons.mp hnodup
    obtain ⟨rs', d', rfl, hd', rfl⟩ | ⟨rs', d', rfl, hd', rfl⟩ | ⟨rfl, -⟩ := drain_cons h
    · have hrest := ih hd' hnodup ((prefix_cons_inj a).mp hprefix)
      exact pairwise_cons.mpr ⟨fun _ _ => by simp, hrest⟩
    · -- The first entry stays: were one behind it to go, it would be the first one.
      have hnone : ∀ r ∈ rs', r ≠ .sent := by
        rintro r hr rfl
        obtain ⟨b, sent, hsent⟩ := exists_cons_of_ne_nil (sent_ne_nil hd' hr)
        obtain ⟨rfl, -⟩ := cons_prefix_cons.mp (show b :: sent <+: a :: as from hsent ▸ hprefix)
        exact hnot (mem_of_sent hd' (hsent ▸ mem_cons_self))
      have hall : rs'.Pairwise fun r r' => r = .again → r' ≠ .sent :=
        pairwise_of_forall_mem_list fun _ _ r' hr' _ => hnone r' hr'
      exact pairwise_cons.mpr ⟨fun r hr _ => hnone r hr, hall⟩
    · exact pairwise_singleton _ _

end

end Ratbox.Drain
