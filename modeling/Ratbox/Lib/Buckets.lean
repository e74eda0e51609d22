import Mathlib.Data.List.Basic

/-!
# Buckets of a list

A list, the newest element first, is kept in buckets: each bucket has the elements that a function
gives the number of the bucket, in the order in which the list has them. A search for elements that
can be in one bucket only may look in this bucket, and what is taken out of a bucket is taken out of
the list.

## Main definitions

* `Buckets.Splits`: the buckets have the elements of the list.

## Main results

* `Buckets.Splits.find?`, `Buckets.Splits.filter`: searches.
* `Buckets.Splits.cons`, `Buckets.Splits.eraseP`: changes.
* `Buckets.eraseP_congr_iff`: when the first element of two kinds is the same.
-/

namespace Ratbox.Buckets

open List Function

variable {ν β : Type*} [DecidableEq β]

/-- The buckets have the elements of the list. -/
def Splits (bucketOf : ν → β) (bucket : β → List ν) (l : List ν) : Prop :=
  ∀ i, bucket i = l.filter fun n => bucketOf n = i

section Splits

variable {bucketOf : ν → β} {bucket : β → List ν} {l : List ν} {i : β}

theorem splits_nil : Splits bucketOf (fun _ => []) [] := fun _ => rfl

section

variable (h : Splits bucketOf bucket l)
include h

theorem Splits.mem_iff {n : ν} : n ∈ bucket i ↔ n ∈ l ∧ bucketOf n = i := by
  rw [h i, mem_filter, decide_eq_true_iff]

/-- The elements of a kind that are in one bucket only are those of the list. -/
theorem Splits.filter {p q : ν → Bool} (hpq : ∀ n, n ∈ l → q n = (decide (bucketOf n = i) && p n)) :
    (bucket i).filter p = l.filter q := by
  rw [h i, filter_filter]
  exact filter_congr fun n hn => by rw [hpq n hn, Bool.and_comm]

/-- A search of one bucket is a search of the list. -/
theorem Splits.find? {p q : ν → Bool} (hpq : ∀ n, n ∈ l → q n = (decide (bucketOf n = i) && p n)) :
    (bucket i).find? p = l.find? q := by
  rw [← head?_filter, ← head?_filter, h.filter hpq]

/-- A new element is put in front of its bucket. -/
theorem Splits.cons (n : ν) :
    Splits bucketOf (update bucket (bucketOf n) (n :: bucket (bucketOf n))) (n :: l) := by
  intro i
  by_cases hi : bucketOf n = i
  · subst hi
    rw [update_self, filter_cons_of_pos (by simp), h]
  · rw [update_of_ne (Ne.symm hi), filter_cons_of_neg (by simpa using hi), h]

end

/-- What is taken out of the elements of one kind is missing there. -/
theorem filter_eraseP (l : List ν) (p q : ν → Bool) :
    (l.eraseP fun n => q n && p n).filter q = (l.filter q).eraseP p := by
  induction l with
  | nil => rfl
  | cons n l ih =>
    by_cases hq : q n = true
    · by_cases hp : p n = true
      · rw [eraseP_cons_of_pos (by simp [hq, hp]), filter_cons_of_pos hq, eraseP_cons_of_pos hp]
      · rw [eraseP_cons_of_neg (by simp [hp]), filter_cons_of_pos hq, filter_cons_of_pos hq,
          eraseP_cons_of_neg hp, ih]
    · rw [eraseP_cons_of_neg (by simp [hq]), filter_cons_of_neg hq, filter_cons_of_neg hq, ih]

/-- And no element of another kind is. -/
theorem filter_eraseP_of_disjoint (l : List ν) {p q : ν → Bool}
    (hpq : ∀ n, q n = true → p n = false) :
    (l.eraseP p).filter q = l.filter q := by
  induction l with
  | nil => rfl
  | cons n l ih =>
    by_cases hp : p n = true
    · have hq : ¬ q n = true := fun hq => absurd (hp.symm.trans (hpq n hq)) (by simp)
      rw [eraseP_cons_of_pos hp, filter_cons_of_neg hq]
    · rw [eraseP_cons_of_neg hp, filter_cons, filter_cons, ih]

/-- The first element of a kind is taken out of a bucket. -/
theorem Splits.eraseP (h : Splits bucketOf bucket l) (i : β) (p : ν → Bool) :
    Splits bucketOf (update bucket i ((bucket i).eraseP p))
      (l.eraseP fun n => decide (bucketOf n = i) && p n) := by
  intro j
  by_cases hj : j = i
  · subst hj
    rw [update_self, h, filter_eraseP]
  · rw [update_of_ne hj, h, filter_eraseP_of_disjoint]
    intro n hn
    have hne : bucketOf n ≠ i := fun heq => hj ((of_decide_eq_true hn).symm.trans heq)
    simp [hne]

end Splits

/-- The first element of a kind, and the first of the same kind with more to it, are the same
exactly when the first one has this, if it is there. -/
theorem eraseP_congr_iff {l : List ν} {p q : ν → Bool} (hpq : ∀ n, q n = true → p n = true)
    (hnd : l.Nodup) :
    l.eraseP p = l.eraseP q ↔ ∀ n, l.find? p = some n → q n = true := by
  induction l with
  | nil => simp
  | cons n l ih =>
    obtain ⟨hn, hnd⟩ := nodup_cons.mp hnd
    by_cases hp : p n = true
    · rw [eraseP_cons_of_pos hp, find?_cons_of_pos hp]
      by_cases hq : q n = true
      · simp [eraseP_cons_of_pos hq, hq]
      · rw [eraseP_cons_of_neg hq]
        refine iff_of_false (fun heq => hn ?_) fun h => hq (h n rfl)
        exact heq ▸ mem_cons_self
    · have hq : ¬ q n = true := fun hq => hp (hpq n hq)
      rw [eraseP_cons_of_neg hp, eraseP_cons_of_neg hq, find?_cons_of_neg hp, ← ih hnd]
      exact ⟨fun heq => (cons.inj heq).2, fun heq => congrArg (n :: ·) heq⟩

end Ratbox.Buckets
