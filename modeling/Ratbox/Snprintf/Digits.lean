import Ratbox.Text

/-!
# The digits of a number

`put_dec` takes five decimal digits at a time off a number and finds each of them with a
multiplication and a shift; the digits of the other bases are cut off with a mask. They are written
with the lowest digit first.

Source: `libratbox/src/snprintf.c`, lines 50–144 and 154–223.

## Main definitions

* `Snprintf.putDecTrunc`, `Snprintf.putDecFull`, `Snprintf.putDec`: the functions.
* `Snprintf.maskLoop`: the loop for the bases 8 and 16.

## Main results

* `Snprintf.putDec_eq`, `Snprintf.maskLoop_eq`: the digits are those of the number.
-/

namespace Ratbox.Snprintf

open Text Nat List

/-! ### The decimal digits -/

/-- A digit, `d + '0'`. -/
def digit (d : ℕ) : Char := Char.ofNat (d + '0'.toNat)

/-- `put_dec_trunc`. -/
def putDecTrunc (q : ℕ) : Str :=
  let d1 := (q >>> 4) &&& 0xf
  let d2 := (q >>> 8) &&& 0xf
  let d3 := q >>> 12
  let d0 := 6 * (d3 + d2 + d1) + (q &&& 0xf)
  let q := (d0 * 0xcd) >>> 11
  let d0 := d0 - 10 * q
  let d1 := q + 9 * d3 + 5 * d2 + d1
  if d1 ≠ 0 then
    let q := (d1 * 0xcd) >>> 11
    let d1 := d1 - 10 * q
    let d2 := q + 2 * d2
    if d2 ≠ 0 ∨ d3 ≠ 0 then
      let q := (d2 * 0xd) >>> 7
      let d2 := d2 - 10 * q
      let d3 := q + 4 * d3
      if d3 ≠ 0 then
        let q := (d3 * 0xcd) >>> 11
        let d3 := d3 - 10 * q
        if q ≠ 0 then [digit d0, digit d1, digit d2, digit d3, digit q]
        else [digit d0, digit d1, digit d2, digit d3]
      else [digit d0, digit d1, digit d2]
    else [digit d0, digit d1]
  else [digit d0]

/-- `put_dec_full`. -/
def putDecFull (q : ℕ) : Str :=
  let d1 := (q >>> 4) &&& 0xf
  let d2 := (q >>> 8) &&& 0xf
  let d3 := q >>> 12
  let d0 := 6 * (d3 + d2 + d1) + (q &&& 0xf)
  let q := (d0 * 0xcd) >>> 11
  let d0 := d0 - 10 * q
  let d1 := q + 9 * d3 + 5 * d2 + d1
  let q := (d1 * 0xcd) >>> 11
  let d1 := d1 - 10 * q
  let d2 := q + 2 * d2
  let q := (d2 * 0xd) >>> 7
  let d2 := d2 - 10 * q
  let d3 := q + 4 * d3
  let q := (d3 * 0xcd) >>> 11
  let d3 := d3 - 10 * q
  [digit d0, digit d1, digit d2, digit d3, digit q]

/-- `put_dec`. -/
def putDec (num : ℕ) : Str :=
  if num < 100000 then putDecTrunc num else putDecFull (num % 100000) ++ putDec (num / 100000)
termination_by num

theorem mul_shift_eleven {d : ℕ} (h : d < 340) : (d * 0xcd) >>> 11 = d / 10 := by
  rw [shiftRight_eq_div_pow]
  omega

theorem mul_shift_seven {d : ℕ} (h : d < 64) : (d * 0xd) >>> 7 = d / 10 := by
  rw [shiftRight_eq_div_pow]
  omega

/-- What the functions take apart for each digit: `e₁`, `e₂` and `e₃` are the quotients of the
number by the powers of ten, but for the part that `d₂` and `d₃` have in them. -/
structure Steps (q d₂ d₃ d₀ e₁ e₂ e₃ : ℕ) : Prop where
  zero : (d₀ * 0xcd) >>> 11 = d₀ / 10 ∧ d₀ % 10 = q % 10
  one : (e₁ * 0xcd) >>> 11 = e₁ / 10 ∧ q / 10 = e₁ + 10 * (2 * d₂ + 40 * d₃) ∧
    5 * d₂ + 9 * d₃ ≤ e₁
  two : (e₂ * 0xd) >>> 7 = e₂ / 10 ∧ q / 100 = e₂ + 10 * (4 * d₃)
  three : (e₃ * 0xcd) >>> 11 = e₃ / 10 ∧ q / 1000 = e₃

/-- The nibbles of a number. -/
theorem nibbles (q : ℕ) : q = 4096 * (q >>> 12) + 256 * ((q >>> 8) &&& 0xf) +
    16 * ((q >>> 4) &&& 0xf) + (q &&& 0xf) := by
  have hmask : ∀ n : ℕ, n &&& 0xf = n % 16 := fun n => and_two_pow_sub_one_eq_mod n 4
  simp only [hmask, shiftRight_eq_div_pow]
  omega

variable {q : ℕ}

/-- The quotients, for the nibbles of a number. -/
theorem quotients {d₁ d₂ d₃ r d₀ e₁ e₂ e₃ : ℕ} (hq : q = 4096 * d₃ + 256 * d₂ + 16 * d₁ + r)
    (h₀ : d₀ = 6 * (d₃ + d₂ + d₁) + r) (he₁ : e₁ = d₀ / 10 + 9 * d₃ + 5 * d₂ + d₁)
    (he₂ : e₂ = e₁ / 10 + 2 * d₂) (he₃ : e₃ = e₂ / 10 + 4 * d₃) :
    d₀ % 10 = q % 10 ∧ q / 10 = e₁ + 10 * (2 * d₂ + 40 * d₃) ∧ q / 100 = e₂ + 10 * (4 * d₃) ∧
      q / 1000 = e₃ := by
  have hnext : ∀ m n, m = 10 * n + m % 10 → m / 10 = n := by omega
  have hten : q = 10 * (e₁ + 10 * (2 * d₂ + 40 * d₃)) + d₀ % 10 := by omega
  have hmod : d₀ % 10 = q % 10 := by
    rw [hten, Nat.mul_add_mod, Nat.mod_mod]
  have hone : q / 10 = e₁ + 10 * (2 * d₂ + 40 * d₃) := hnext q _ (hmod ▸ hten)
  have htwo : q / 10 / 10 = e₂ + 10 * (4 * d₃) := by omega
  have hthree : q / 10 / 10 / 10 = e₃ := by omega
  rw [Nat.div_div_eq_div_mul] at htwo
  rw [Nat.div_div_eq_div_mul, Nat.div_div_eq_div_mul] at hthree
  exact ⟨hmod, hone, htwo, hthree⟩

theorem steps {d₁ d₂ d₃ d₀ e₁ e₂ e₃ : ℕ} (h : q < 100000) (h₁ : d₁ = (q >>> 4) &&& 0xf)
    (h₂ : d₂ = (q >>> 8) &&& 0xf) (h₃ : d₃ = q >>> 12) (h₀ : d₀ = 6 * (d₃ + d₂ + d₁) + (q &&& 0xf))
    (he₁ : e₁ = (d₀ * 0xcd) >>> 11 + 9 * d₃ + 5 * d₂ + d₁)
    (he₂ : e₂ = (e₁ * 0xcd) >>> 11 + 2 * d₂) (he₃ : e₃ = (e₂ * 0xd) >>> 7 + 4 * d₃) :
    Steps q d₂ d₃ d₀ e₁ e₂ e₃ := by
  have hnibble : ∀ n : ℕ, n &&& 0xf < 16 := fun n => and_lt_two_pow n (n := 4) (by decide)
  have hq := nibbles q
  have hlt₁ : d₁ < 16 := h₁ ▸ hnibble _
  have hlt₂ : d₂ < 16 := h₂ ▸ hnibble _
  have hlt₀ := hnibble q
  rw [← h₁, ← h₂, ← h₃] at hq
  clear h₁ h₂ h₃ hnibble
  generalize q &&& 0xf = r at hq h₀ hlt₀
  have hlt₃ : d₃ < 25 := by omega
  have hd₀ : d₀ < 340 := by omega
  have hzero := mul_shift_eleven hd₀
  rw [hzero] at he₁
  have hle₁ : e₁ < 340 := by omega
  have hone := mul_shift_eleven hle₁
  rw [hone] at he₂
  have hle₂ : e₂ < 64 := by omega
  have htwo := mul_shift_seven hle₂
  rw [htwo] at he₃
  have hle₃ : e₃ < 340 := by omega
  have hthree := mul_shift_eleven hle₃
  obtain ⟨hmod, hten, hhundred, hthousand⟩ := quotients hq h₀ he₁ he₂ he₃
  exact ⟨⟨hzero, hmod⟩, ⟨hone, hten, by omega⟩, ⟨htwo, hhundred⟩, ⟨hthree, hthousand⟩⟩

/-- Both functions, by what they take apart. -/
theorem exists_steps (h : q < 100000) : ∃ d₂ d₃ d₀ e₁ e₂ e₃, Steps q d₂ d₃ d₀ e₁ e₂ e₃ ∧
    (putDecTrunc q =
      if e₁ ≠ 0 then
        if e₂ ≠ 0 ∨ d₃ ≠ 0 then
          if e₃ ≠ 0 then
            if (e₃ * 0xcd) >>> 11 ≠ 0 then
              [digit (d₀ - 10 * (d₀ * 0xcd) >>> 11), digit (e₁ - 10 * (e₁ * 0xcd) >>> 11),
                digit (e₂ - 10 * (e₂ * 0xd) >>> 7), digit (e₃ - 10 * (e₃ * 0xcd) >>> 11),
                digit ((e₃ * 0xcd) >>> 11)]
            else
              [digit (d₀ - 10 * (d₀ * 0xcd) >>> 11), digit (e₁ - 10 * (e₁ * 0xcd) >>> 11),
                digit (e₂ - 10 * (e₂ * 0xd) >>> 7), digit (e₃ - 10 * (e₃ * 0xcd) >>> 11)]
          else
            [digit (d₀ - 10 * (d₀ * 0xcd) >>> 11), digit (e₁ - 10 * (e₁ * 0xcd) >>> 11),
              digit (e₂ - 10 * (e₂ * 0xd) >>> 7)]
        else [digit (d₀ - 10 * (d₀ * 0xcd) >>> 11), digit (e₁ - 10 * (e₁ * 0xcd) >>> 11)]
      else [digit (d₀ - 10 * (d₀ * 0xcd) >>> 11)]) ∧
    putDecFull q =
      [digit (d₀ - 10 * (d₀ * 0xcd) >>> 11), digit (e₁ - 10 * (e₁ * 0xcd) >>> 11),
        digit (e₂ - 10 * (e₂ * 0xd) >>> 7), digit (e₃ - 10 * (e₃ * 0xcd) >>> 11),
        digit ((e₃ * 0xcd) >>> 11)] :=
  ⟨_, _, _, _, _, _, steps h rfl rfl rfl rfl rfl rfl rfl, rfl, rfl⟩

/-- A digit is what is left when the quotient is taken off ten times. -/
theorem sub_mul_div (d : ℕ) : d - 10 * (d / 10) = d % 10 := by
  omega

theorem putDecFull_eq (h : q < 100000) : putDecFull q =
    [digit (q % 10), digit (q / 10 % 10), digit (q / 100 % 10), digit (q / 1000 % 10),
      digit (q / 10000)] := by
  obtain ⟨d₂, d₃, d₀, e₁, e₂, e₃, hs, -, hfull⟩ := exists_steps h
  obtain ⟨⟨hzero, hmod⟩, ⟨hone, hten, -⟩, ⟨htwo, hhundred⟩, ⟨hthree, hthousand⟩⟩ := hs
  have hmod₁ : e₁ % 10 = q / 10 % 10 := by omega
  have hmod₂ : e₂ % 10 = q / 100 % 10 := by omega
  have hlast : e₃ / 10 = q / 10000 := by omega
  rw [hfull, hzero, hone, htwo, hthree, sub_mul_div, sub_mul_div, sub_mul_div, sub_mul_div, hmod,
    hmod₁, hmod₂, hlast, hthousand]

/-- The five digits, as far as they are needed. -/
theorem putDecTrunc_eq (h : q < 100000) : putDecTrunc q =
    digit (q % 10) :: if q < 10 then [] else digit (q / 10 % 10) ::
      if q < 100 then [] else digit (q / 100 % 10) ::
        if q < 1000 then [] else digit (q / 1000 % 10) ::
          if q < 10000 then [] else [digit (q / 10000)] := by
  obtain ⟨d₂, d₃, d₀, e₁, e₂, e₃, hs, htrunc, -⟩ := exists_steps h
  obtain ⟨⟨hzero, hmod⟩, ⟨hone, hten, hle⟩, ⟨htwo, hhundred⟩, ⟨hthree, hthousand⟩⟩ := hs
  have hmod₁ : e₁ % 10 = q / 10 % 10 := by omega
  have hmod₂ : e₂ % 10 = q / 100 % 10 := by omega
  have hlast : e₃ / 10 = q / 10000 := by omega
  have hsecond : e₁ ≠ 0 ↔ ¬q < 10 := by omega
  have hthird : e₂ ≠ 0 ∨ d₃ ≠ 0 ↔ ¬q < 100 := by omega
  have hfourth : e₃ ≠ 0 ↔ ¬q < 1000 := by omega
  have hfifth : e₃ / 10 ≠ 0 ↔ ¬q < 10000 := by omega
  rw [htrunc, hzero, hone, htwo, hthree, sub_mul_div, sub_mul_div, sub_mul_div, sub_mul_div, hmod,
    hmod₁, hmod₂]
  simp only [hsecond, hthird, hfourth, hfifth, ite_not]
  rw [hlast, hthousand]
  split_ifs <;> rfl

theorem digit_eq : ∀ {d : ℕ}, d < 10 → digit d = digitChar d := by
  decide

theorem reverse_toDigits_of_lt {n : ℕ} (h : n < 10) : (toDigits 10 n).reverse = [digit n] := by
  rw [toDigits_of_lt_base h, reverse_singleton, digit_eq h]

/-- The digits of a number, the lowest one first. -/
theorem reverse_toDigits {n : ℕ} (h : 10 ≤ n) :
    (toDigits 10 n).reverse = digit (n % 10) :: (toDigits 10 (n / 10)).reverse := by
  rw [toDigits_of_base_le (by decide) h, reverse_append, reverse_singleton,
    singleton_append, digit_eq (mod_lt n (by decide))]

theorem putDecTrunc_eq_reverse (h : q < 100000) : putDecTrunc q = (toDigits 10 q).reverse := by
  have hlast : ∀ n, n < 10 → [digit (n % 10)] = (toDigits 10 n).reverse := fun n hn => by
    rw [reverse_toDigits_of_lt hn, mod_eq_of_lt hn]
  have hnext : ∀ n m s, 10 ≤ n → n / 10 = m → s = (toDigits 10 m).reverse →
      digit (n % 10) :: s = (toDigits 10 n).reverse := by
    rintro n m s hn rfl rfl
    exact (reverse_toDigits hn).symm
  rw [putDecTrunc_eq h]
  split_ifs with h₁ h₂ h₃ h₄
  · exact hlast q h₁
  · exact hnext q (q / 10) _ (by omega) rfl (hlast _ (by omega))
  · refine hnext q (q / 10) _ (by omega) rfl ?_
    exact hnext (q / 10) (q / 100) _ (by omega) (by omega) (hlast _ (by omega))
  · refine hnext q (q / 10) _ (by omega) rfl ?_
    refine hnext (q / 10) (q / 100) _ (by omega) (by omega) ?_
    exact hnext (q / 100) (q / 1000) _ (by omega) (by omega) (hlast _ (by omega))
  · refine hnext q (q / 10) _ (by omega) rfl ?_
    refine hnext (q / 10) (q / 100) _ (by omega) (by omega) ?_
    refine hnext (q / 100) (q / 1000) _ (by omega) (by omega) ?_
    refine hnext (q / 1000) (q / 10000) _ (by omega) (by omega) ?_
    exact (reverse_toDigits_of_lt (by omega)).symm

/-- A digit is not changed by what is above the next one. -/
theorem mod_div_mod (n a c : ℕ) : n % (a * (10 * c)) / a % 10 = n / a % 10 := by
  rw [Nat.mod_mul_right_div_self, Nat.mod_mod_of_dvd _ (Nat.dvd_mul_right 10 c)]

/-- Five digits in front of the others. -/
theorem putDecFull_append {num : ℕ} (h : 100000 ≤ num) :
    putDecFull (num % 100000) ++ (toDigits 10 (num / 100000)).reverse =
      (toDigits 10 num).reverse := by
  have hdiv : ∀ k, num / k / 10 = num / (k * 10) := fun k => Nat.div_div_eq_div_mul num k 10
  have hten : ∀ k, 10 * k ≤ 100000 → 0 < k → 10 ≤ num / k := fun k hk hpos =>
    (le_div_iff_mul_le hpos).mpr (hk.trans h)
  have h₀ : num % 100000 % 10 = num % 10 := mod_mod_of_dvd num (by decide)
  have h₁ : num % 100000 / 10 % 10 = num / 10 % 10 := mod_div_mod num 10 1000
  have h₂ : num % 100000 / 100 % 10 = num / 100 % 10 := mod_div_mod num 100 100
  have h₃ : num % 100000 / 1000 % 10 = num / 1000 % 10 := mod_div_mod num 1000 10
  have h₄ : num % 100000 / 10000 = num / 10000 % 10 := mod_mul_right_div_self num 10000 10
  rw [putDecFull_eq (mod_lt num (by decide)), h₀, h₁, h₂, h₃, h₄,
    reverse_toDigits (h.trans' (by decide)), reverse_toDigits (hten 10 (by decide) (by decide)),
    hdiv, reverse_toDigits (hten 100 (by decide) (by decide)), hdiv,
    reverse_toDigits (hten 1000 (by decide) (by decide)), hdiv,
    reverse_toDigits (hten 10000 (by decide) (by decide)), hdiv]
  rfl

/-- **The decimal digits** of a number. -/
theorem putDec_eq (num : ℕ) : putDec num = (toDigits 10 num).reverse := by
  induction num using putDec.induct with
  | case1 num h => rw [putDec, if_pos h, putDecTrunc_eq_reverse h]
  | case2 num h ih => rw [putDec, if_neg h, ih, putDecFull_append (not_lt.mp h)]

/-! ### The digits of the other bases -/

/-- `small_digits`. -/
def smallDigits : Str := "0123456789abcdefx".toList

/-- `large_digits`. -/
def largeDigits : Str := "0123456789ABCDEFX".toList

/-- `shift`: the bits of a digit. -/
def shiftOf (base : ℕ) : ℕ := if base = 16 then 4 else 3

theorem shift_lt (base : ℕ) {num : ℕ} (h : num >>> shiftOf base ≠ 0) :
    num >>> shiftOf base < num := by
  rw [Nat.shiftRight_eq_div_pow] at h ⊢
  have hpos : 0 < num := Nat.pos_of_ne_zero fun hzero => h (by rw [hzero, Nat.zero_div])
  refine Nat.div_lt_self hpos (Nat.one_lt_two_pow ?_)
  rw [shiftOf]
  split_ifs <;> decide

/-- The loop that cuts the digits of a number off with `mask`, which is `base - 1`. -/
def maskLoop (digits : Str) (base num : ℕ) : Str :=
  digits.getD ((num % 256) &&& (base - 1)) '\x00' ::
    if _ : num >>> shiftOf base = 0 then [] else maskLoop digits base (num >>> shiftOf base)
termination_by num
decreasing_by exact shift_lt base ‹_›

/-- A digit of the base 8 or 16, in small or in large letters. -/
def baseDigit (large : Bool) (c : Char) : Char := if large then c.toUpper else c

theorem getD_digits (large : Bool) : ∀ {d : ℕ}, d < 16 →
    (if large then largeDigits else smallDigits).getD d '\x00' =
      baseDigit large (digitChar d) := by
  cases large <;> decide

/-- **The digits of the bases 8 and 16**, the lowest one first. -/
theorem maskLoop_eq (large : Bool) {base : ℕ} (hbase : base = 8 ∨ base = 16) (num : ℕ) :
    maskLoop (if large then largeDigits else smallDigits) base num =
      ((toDigits base num).map (baseDigit large)).reverse := by
  have hmask : (num % 256) &&& (base - 1) = num % base := by
    rcases hbase with rfl | rfl
    · exact (and_two_pow_sub_one_eq_mod _ 3).trans (by omega)
    · exact (and_two_pow_sub_one_eq_mod _ 4).trans (by omega)
  have hshift : num >>> shiftOf base = num / base := by
    rcases hbase with rfl | rfl <;> exact shiftRight_eq_div_pow ..
  have hlt : num % base < 16 := by
    rcases hbase with rfl | rfl <;> omega
  have htwo : 1 < base := by omega
  rw [maskLoop, hmask, hshift, getD_digits large hlt, toDigits_eq_if htwo]
  by_cases hnum : num < base
  · rw [dif_pos (div_eq_of_lt hnum), if_pos hnum, mod_eq_of_lt hnum]
    rfl
  · have hpos : num / base ≠ 0 := Nat.div_ne_zero_iff.mpr ⟨by omega, Nat.not_lt.mp hnum⟩
    rw [dif_neg hpos, if_neg hnum, maskLoop_eq large hbase (num / base), map_append,
      reverse_append]
    rfl
termination_by num
decreasing_by exact div_lt_self (by omega) htwo

end Ratbox.Snprintf
