import Mathlib.Data.List.Nodup
import Mathlib.Data.Option.Basic

/-!
# Walking a list that changes

A walk visits the items of a list in turn, and a visit may take items out of the list or put new
ones in front of it. The item behind the one that is visited is saved before the visit. The walk
fails where the item it goes on with, or the one it is at, is no longer in the list.

## Main definitions

* `SavedNext.walk`: the walk.
* `SavedNext.WalkMeets`: every visit of a walk meets a condition.
* `SavedNext.Grown`: new items in front of some of the old ones.
* `SavedNext.Visits`: what a visit may do to the list.

## Main results

* `SavedNext.Visits.walk_rule`: what the visits keep of the items that are not visited yet, holds
  without them in the end, and no item is visited twice.
* `SavedNext.Visits.walk_iff`: the walk does not fail when no visit takes out its own item or the
  one behind it.
* `SavedNext.walk_takes`: a walk whose visits take out their own items takes out all of them.
-/

namespace Ratbox.SavedNext

open List Option

variable {σ α : Type*} [DecidableEq α]

/-- The items behind an item. -/
def behind (l : List α) (a : α) : List α := (l.dropWhile (· ≠ a)).tail

section

variable (items : σ → List α) (visit : σ → α → Option σ)

/-- The walk from an item on, with the turns that are left: the state after it, and the items that
were visited. -/
def walk : ℕ → σ → Option α → Option (σ × List α)
  | _, s, none => some (s, [])
  | 0, _, some _ => none
  | n + 1, s, some a =>
    if a ∈ items s then
      (visit s a).bind fun s' => (walk n s' (behind (items s) a).head?).map fun r => (r.1, a :: r.2)
    else none

/-- Every visit of the walk meets a condition on the state in which it is made. -/
def WalkMeets (ok : σ → α → Prop) : ℕ → σ → Option α → Prop
  | _, _, none => True
  | 0, _, some _ => True
  | n + 1, s, some a => ok s a ∧ ∀ s', visit s a = some s' →
    WalkMeets ok n s' (behind (items s) a).head?

end

/-- New items in front of some of the old ones. -/
def Grown (l l' : List α) : Prop := ∃ new kept, l' = new ++ kept ∧ kept.Sublist l ∧ ∀ a ∈ new, a ∉ l

/-- The visits keep an invariant of the state, under which no item is in the list twice. -/
structure Visits (items : σ → List α) (visit : σ → α → Option σ) (inv : σ → Prop) : Prop where
  nodup : ∀ s, inv s → (items s).Nodup
  keeps : ∀ s a s', inv s → a ∈ items s → visit s a = some s' → inv s'
  grown : ∀ s a s', inv s → a ∈ items s → visit s a = some s' → Grown (items s) (items s')

section Behind

variable {l l' p q k : List α} {a b : α}

theorem behind_eq (hnd : (p ++ a :: q).Nodup) : behind (p ++ a :: q) a = q := by
  have hp : ∀ x ∈ p, decide (x ≠ a) = true := fun x hx =>
    decide_eq_true fun heq => (nodup_append.mp hnd).2.2 x hx a mem_cons_self heq
  rw [behind, dropWhile_append_of_pos hp, dropWhile_cons_of_neg (by simp), tail_cons]

/-- A part of a list without duplicates is what the list has of it. -/
theorem eq_filter_of_sublist (h : k.Sublist l) (hnd : l.Nodup) : k = l.filter (· ∈ k) := by
  induction h with
  | slnil => rfl
  | @cons k l a h ih =>
    obtain ⟨ha, hnd⟩ := nodup_cons.mp hnd
    rw [filter_cons_of_neg (by simpa using fun hk => ha (h.subset hk)), ← ih hnd]
  | @cons_cons k l a h ih =>
    obtain ⟨ha, hnd⟩ := nodup_cons.mp hnd
    rw [filter_cons_of_pos (by simp)]
    refine congrArg (a :: ·) ((ih hnd).trans (filter_congr fun x hx => ?_))
    have hne : x ≠ a := fun heq => ha (heq ▸ hx)
    simp [hne]

/-- What stays behind an item that stays. -/
theorem Grown.split (h : Grown l l') (hnd : l.Nodup) (hl : l = p ++ q) :
    ∃ p', l' = p' ++ q.filter (· ∈ l') := by
  obtain ⟨new, kept, rfl, hkept, hnew⟩ := h
  have hmem : ∀ x ∈ l, decide (x ∈ kept) = decide (x ∈ new ++ kept) := fun x hx => by
    have hx' : x ∉ new := fun hx' => hnew x hx' hx
    simp [hx']
  refine ⟨new ++ p.filter (· ∈ new ++ kept), ?_⟩
  rw [append_assoc, ← filter_append, ← hl, ← filter_congr hmem]
  exact congrArg (new ++ ·) (eq_filter_of_sublist hkept hnd)

end Behind

section Walk

variable {items : σ → List α} {visit : σ → α → Option σ} {inv : σ → Prop} {ok : σ → α → Prop}
  {n : ℕ} {s : σ} {p q : List α}

theorem walkMeets_of_forall (h : ∀ s a, ok s a) {a : Option α} :
    WalkMeets items visit ok n s a := by
  induction n generalizing s a with
  | zero => cases a <;> trivial
  | succ n ih =>
    cases a with
    | none => trivial
    | some a => exact ⟨h s a, fun s' _ => ih⟩

/-- **The rule of walks.** -/
theorem Visits.walk_rule (hv : Visits items visit inv) (rest : List α → σ → Prop)
    (hstep : ∀ s p a q s', inv s → items s = p ++ a :: q → rest (a :: q) s → ok s a →
      visit s a = some s' → rest (q.filter (· ∈ items s')) s')
    (hs : inv s) (hitems : items s = p ++ q) (hrest : rest q s)
    (hok : WalkMeets items visit ok n s q.head?) {r : σ × List α}
    (hwalk : walk items visit n s q.head? = some r) :
    inv r.1 ∧ rest [] r.1 ∧ r.2.Sublist q := by
  induction n generalizing s p q r with
  | zero =>
    cases q with
    | nil =>
      cases hwalk
      exact ⟨hs, hrest, Sublist.refl _⟩
    | cons a q => exact absurd hwalk (by simp [walk])
  | succ n ih =>
    cases q with
    | nil =>
      cases hwalk
      exact ⟨hs, hrest, Sublist.refl _⟩
    | cons a q =>
      have hnd := hv.nodup s hs
      have hbehind : behind (items s) a = q := by
        rw [hitems] at hnd ⊢
        exact behind_eq hnd
      have ha : a ∈ items s := by simp [hitems]
      rw [head?_cons, walk, if_pos ha, hbehind] at hwalk
      rw [head?_cons, WalkMeets, hbehind] at hok
      obtain ⟨s', hvisit, hwalk⟩ := bind_eq_some_iff.mp hwalk
      obtain ⟨r', hnext, rfl⟩ := map_eq_some_iff.mp hwalk
      have hs' := hv.keeps s a s' hs ha hvisit
      have hrest' := hstep s p a q s' hs hitems hrest hok.1 hvisit
      obtain ⟨p', hp'⟩ := (hv.grown s a s' hs ha hvisit).split hnd
        (hitems.trans (by simp : p ++ a :: q = (p ++ [a]) ++ q))
      have hhead : q.head? = (q.filter (· ∈ items s')).head? := by
        cases q with
        | nil => rfl
        | cons b q =>
          have hb : b ∈ items s' := by
            by_contra hb
            cases n with
            | zero => exact absurd hnext (by simp [walk])
            | succ n => exact absurd hnext (by simp [walk, hb])
          rw [filter_cons_of_pos (by simpa using hb), head?_cons, head?_cons]
      have hmeets := hok.2 s' hvisit
      rw [hhead] at hnext hmeets
      obtain ⟨hinv, hend, hvisited⟩ := ih hs' hp' hrest' hmeets hnext
      exact ⟨hinv, hend, (hvisited.trans filter_sublist).cons_cons a⟩

/-- **The walk does not fail** exactly when every visit succeeds and leaves the item behind it in
the list. -/
theorem Visits.walk_iff (hv : Visits items visit inv)
    (hok : ∀ s a, inv s → a ∈ items s → ((∃ s', visit s a = some s' ∧
      ∀ b, (behind (items s) a).head? = some b → b ∈ items s') ↔ ok s a))
    (hs : inv s) (hitems : items s = p ++ q) (hn : q.length ≤ n) :
    (∃ r, walk items visit n s q.head? = some r) ↔ WalkMeets items visit ok n s q.head? := by
  induction n generalizing s p q with
  | zero =>
    obtain rfl := eq_nil_of_length_eq_zero (Nat.le_zero.mp hn)
    simp [walk, WalkMeets]
  | succ n ih =>
    cases q with
    | nil => simp [walk, WalkMeets]
    | cons a q =>
      have hnd := hv.nodup s hs
      have hbehind : behind (items s) a = q := by
        rw [hitems] at hnd ⊢
        exact behind_eq hnd
      have ha : a ∈ items s := by simp [hitems]
      rw [head?_cons, walk, if_pos ha, WalkMeets, ← hok s a hs ha, hbehind]
      cases hvisit : visit s a with
      | none => simp
      | some s' =>
        have hs' := hv.keeps s a s' hs ha hvisit
        obtain ⟨p', hp'⟩ := (hv.grown s a s' hs ha hvisit).split hnd
          (hitems.trans (by simp : p ++ a :: q = (p ++ [a]) ++ q))
        have hlength : (q.filter (· ∈ items s')).length ≤ n :=
          Nat.le_trans (length_filter_le _ _) (Nat.le_of_succ_le_succ hn)
        have hih := ih hs' hp' hlength
        have hgo : (∃ r, walk items visit n s' q.head? = some r) ↔
            (∀ b, q.head? = some b → b ∈ items s') ∧
              ∃ r, walk items visit n s' (q.filter (· ∈ items s')).head? = some r := by
          cases q with
          | nil => simp
          | cons b q =>
            by_cases hb : b ∈ items s'
            · rw [filter_cons_of_pos (by simpa using hb)]
              simp [hb]
            · cases n <;> simp [walk, hb]
        have hmeets : (∀ b, q.head? = some b → b ∈ items s') →
            q.head? = (q.filter (· ∈ items s')).head? := fun hb => by
          cases q with
          | nil => rfl
          | cons b q =>
            rw [filter_cons_of_pos (by simpa using hb b rfl), head?_cons, head?_cons]
        rw [bind_some]
        simp only [map_eq_some_iff, some.injEq, exists_eq_left', forall_eq']
        constructor
        · rintro ⟨_, r, hr, rfl⟩
          obtain ⟨hb, hwalk⟩ := hgo.mp ⟨r, hr⟩
          exact ⟨hb, by rw [hmeets hb]; exact hih.mp hwalk⟩
        · rintro ⟨hb, hrest⟩
          rw [hmeets hb] at hrest
          obtain ⟨r, hr⟩ := hgo.mpr ⟨hb, hih.mpr hrest⟩
          exact ⟨_, r, hr, rfl⟩

/-- **Walks that take out what they visit.** When each visit takes out its own item and no other
one, the walk does not fail, and visits all items. -/
theorem walk_takes (inv : List α → σ → Prop)
    (hstep : ∀ s a q, inv (a :: q) s → items s = a :: q → ∃ s', visit s a = some s' ∧ items s' = q ∧
      inv q s')
    {l : List α} (hnd : l.Nodup) (hs : inv l s) (hitems : items s = l) (hn : l.length ≤ n) :
    ∃ s', walk items visit n s l.head? = some (s', l) ∧ items s' = [] ∧ inv [] s' := by
  induction l generalizing n s with
  | nil => exact ⟨s, by cases n <;> rfl, hitems, hs⟩
  | cons a q ih =>
    cases n with
    | zero => cases hn
    | succ n =>
      obtain ⟨s', hvisit, hitems', hs'⟩ := hstep s a q hs hitems
      obtain ⟨s'', hwalk, hempty, hend⟩ := ih hnd.of_cons hs' hitems' (Nat.le_of_succ_le_succ hn)
      have hbehind : behind (items s) a = q := by
        rw [hitems]
        exact behind_eq (p := []) hnd
      refine ⟨s'', ?_, hempty, hend⟩
      rw [head?_cons, walk, if_pos (by simp [hitems]), hvisit, bind_some, hbehind, hwalk]
      rfl

end Walk

end Ratbox.SavedNext
