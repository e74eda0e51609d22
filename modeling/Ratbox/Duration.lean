import Ratbox.Kline.Basic
import Mathlib.Tactic.Linarith

/-!
# Times of temporary bans

The time of a temporary ban is given in minutes and kept in seconds. `valid_temp_time` adds up the
digits in a `time_t` of 64 bits, and cuts the result to a year only when all digits are read, so
that a long number has wrapped around by then.

Source: `src/s_newconf.c`, lines 676–697.

## Main definitions

* `Duration.validTempTime`: `valid_temp_time`.
* `Duration.Harmless`: the numbers that are cut as if nothing had wrapped around.

## Main results

* `Duration.validTempTime_right_iff`: the texts for which the time is the right one.
-/

namespace Ratbox.Duration

open Text List

/-- The most minutes that are allowed. -/
def maxMinutes : ℤ := 60 * 24 * 7 * 52

/-- `valid_temp_time`. -/
def validTempTime (p : Str) : ℤ :=
  if p.all isDigit then (min (Kline.tempTime p) maxMinutes * 60).bmod (2 ^ 64) else -1

/-! ### Adding up digits -/

theorem toNat_mod_of_isDigit {c : Char} (h : isDigit c = true) :
    c.toNat % 16 = c.toNat - '0'.toNat := by
  simp only [isDigit, Bool.and_eq_true, decide_eq_true_eq, Char.le_def, UInt32.le_iff_toNat_le] at h
  have hlow : 48 ≤ c.toNat := h.1
  have hhigh : c.toNat ≤ 57 := h.2
  have hzero : '0'.toNat = 48 := rfl
  omega

/-- One digit more. -/
theorem turn_eq {c : Char} (hc : isDigit c = true) (n : ℕ) :
    ((n : ℤ).bmod (2 ^ 64) * 10 + (c.toNat % 16 : ℕ)).bmod (2 ^ 64) =
      ((10 * n + (c.toNat - '0'.toNat) : ℕ) : ℤ).bmod (2 ^ 64) := by
  rw [toNat_mod_of_isDigit hc, Int.add_bmod, Int.bmod_mul_bmod, ← Int.add_bmod, Nat.cast_add,
    Nat.cast_mul, Int.mul_comm]
  rfl

theorem foldl_turn {p : Str} (hp : ∀ c ∈ p, isDigit c = true) {n : ℕ} {z : ℤ}
    (hz : z = (n : ℤ).bmod (2 ^ 64)) :
    p.foldl (fun (result : ℤ) d => (result * 10 + (d.toNat % 16 : ℕ)).bmod (2 ^ 64)) z =
      ((p.foldl (fun n c => 10 * n + (c.toNat - '0'.toNat)) n : ℕ) : ℤ).bmod (2 ^ 64) := by
  induction p generalizing n z with
  | nil => exact hz
  | cons c p ih =>
    have hturn := turn_eq (hp c mem_cons_self) n
    rw [← hz] at hturn
    exact ih (fun d hd => hp d (mem_cons_of_mem c hd)) hturn

/-- What is added up is the number, as far as it fits. -/
theorem tempTime_eq {p : Str} (h : p.all isDigit = true) :
    Kline.tempTime p = (digits p : ℤ).bmod (2 ^ 64) := by
  have hdigits : ∀ c ∈ p, isDigit c = true := all_eq_true.mp h
  have hzero : (0 : ℤ) = ((0 : ℕ) : ℤ).bmod (2 ^ 64) := by decide
  rw [digits, takeWhile_eq_self_iff.mpr hdigits]
  exact foldl_turn hdigits hzero

/-! ### The times that are right -/

/-- **A number that does no harm.** It fits a `time_t`; or what is left of it is above the most
minutes that are allowed, so that it is cut; or what is left is negative, and multiplying it by 60
happens to give the longest time. -/
def Harmless (n : ℕ) : Prop :=
  n < 2 ^ 63 ∨ maxMinutes ≤ (n : ℤ).bmod (2 ^ 64) ∨ ((n : ℤ).bmod (2 ^ 64)) % 2 ^ 62 = maxMinutes

instance (n : ℕ) : Decidable (Harmless n) := inferInstanceAs (Decidable (_ ∨ _ ∨ _))

/-- A number of 64 bits. -/
theorem exists_bmod (z : ℤ) : ∃ k, z.bmod (2 ^ 64) = z - 2 ^ 64 * k ∧ -2 ^ 63 ≤ z.bmod (2 ^ 64) ∧
    z.bmod (2 ^ 64) < 2 ^ 63 := by
  have hle := Int.le_bmod (x := z) (m := 2 ^ 64) (by decide)
  have hlt := Int.bmod_lt (x := z) (m := 2 ^ 64) (by decide)
  refine ⟨z.bdiv (2 ^ 64), Int.bmod_eq_self_sub_mul_bdiv z (2 ^ 64), ?_⟩
  generalize z.bmod (2 ^ 64) = t at hle hlt ⊢
  push_cast at hle hlt
  omega

/-- The longest time, as 60 times a number of minutes that has wrapped around. -/
theorem time_iff_of_neg {w k t : ℤ} (hk : t = w * 60 - 18446744073709551616 * k)
    (hle : -9223372036854775808 ≤ t) (hlt : t < 9223372036854775808) :
    t = 524160 * 60 ↔ w % 4611686018427387904 = 524160 := by
  constructor
  · intro ht
    have hmul : 15 * (w - 524160) = 4611686018427387904 * k := by linarith
    have hdvd : (15 : ℤ) ∣ 4611686018427387904 * k := ⟨_, hmul.symm⟩
    obtain ⟨m, rfl⟩ := Int.dvd_of_dvd_mul_right_of_gcd_one hdvd (by decide)
    omega
  · intro hw
    obtain ⟨m, rfl⟩ : ∃ m, w = 524160 + 4611686018427387904 * m :=
      ⟨w / 4611686018427387904, by omega⟩
    have hmul : k = 15 * m := by omega
    omega

/-- The time of a number of minutes. -/
theorem time_eq_iff (n : ℕ) :
    (min ((n : ℤ).bmod (2 ^ 64)) maxMinutes * 60).bmod (2 ^ 64) = min (n : ℤ) maxMinutes * 60 ↔
    Harmless n := by
  have hmax : maxMinutes = 524160 := by decide
  obtain ⟨j, hwrap, hlow, hhigh⟩ := exists_bmod n
  rw [Harmless, hmax]
  generalize (n : ℤ).bmod (2 ^ 64) = w at hlow hhigh hwrap ⊢
  obtain ⟨k, hk, hle, hlt⟩ := exists_bmod (min w 524160 * 60)
  generalize (min w 524160 * 60).bmod (2 ^ 64) = t at hk hle hlt ⊢
  norm_num only at hwrap hlow hhigh hk hle hlt ⊢
  rcases lt_or_ge w 524160 with hw | hw
  · rw [min_eq_left hw.le] at hk
    rcases lt_or_ge w 0 with hneg | hpos
    · -- The number has wrapped around, and so it is above the most minutes.
      have hn : (9223372036854775808 : ℤ) ≤ n := by omega
      have hbig : ¬n < 9223372036854775808 := by omega
      have hiff := time_iff_of_neg hk hle hlt
      rw [min_eq_right (by omega)]
      simpa only [hbig, not_le.mpr hw, false_or] using hiff
    · have hzero : k = 0 := by omega
      rcases lt_or_ge (n : ℤ) 524160 with hn | hn
      · rw [min_eq_left hn.le]
        omega
      · rw [min_eq_right hn]
        omega
  · have hn : 524160 ≤ (n : ℤ) := by omega
    rw [min_eq_right hw] at hk
    rw [min_eq_right hn]
    omega

/-- What `valid_temp_time` is for: the time in seconds, cut to the longest one, and an error for
what is no number. -/
structure Right (p : Str) : Prop where
  seconds : p.all isDigit = true → validTempTime p = min (digits p : ℤ) maxMinutes * 60 ∧
    0 ≤ validTempTime p
  error : p.all isDigit = false → validTempTime p = -1

/-- **The texts for which the time is the right one** are those that are no number, and the numbers
that do no harm. -/
theorem validTempTime_right_iff (p : Str) :
    Right p ↔ (p.all isDigit = true → Harmless (digits p)) := by
  constructor
  · intro h hdigits
    have htime := (h.seconds hdigits).1
    rw [validTempTime, if_pos hdigits, tempTime_eq hdigits] at htime
    exact (time_eq_iff _).mp htime
  · intro h
    refine ⟨fun hdigits => ?_, fun hdigits => ?_⟩
    · have htime : validTempTime p = min (digits p : ℤ) maxMinutes * 60 := by
        rw [validTempTime, if_pos hdigits, tempTime_eq hdigits]
        exact (time_eq_iff _).mpr (h hdigits)
      have hmax : 0 ≤ maxMinutes := by decide
      exact ⟨htime, by omega⟩
    · rw [validTempTime, if_neg (by simp [hdigits])]

/-- A long number gives a negative time. -/
theorem negative_time :
    validTempTime "18446744073709551615".toList = -60 ∧ ¬Right "18446744073709551615".toList := by
  have htime : validTempTime "18446744073709551615".toList = -60 := by decide +kernel
  refine ⟨htime, fun h => ?_⟩
  have hsign := (h.seconds (by decide)).2
  omega

end Ratbox.Duration
