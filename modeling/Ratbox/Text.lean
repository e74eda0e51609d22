import Mathlib.Data.List.TakeWhile
import Mathlib.Algebra.GroupWithZero.Nat
import Mathlib.Algebra.Ring.Int.Defs

/-!
# Text

Names, keys and parameters are C strings. A string is the list of its characters, one for each
byte, without the final NUL.

The sizes of the arrays that names and lines are kept in are those of the configuration of the
build.

Source: `src/match.c`, lines 675–1020, `include/match.h`, `include/ircd_defs.h`, lines 87–139, and
the C library.

## Main definitions

* `Text.Str`: strings.
* `Text.toUpper`, `Text.irccmp`: names up to case.
* `Text.nickLen`, `Text.ircdBufsize`: sizes.
* `Text.atol`, `Text.atoi`, `Text.decimal`: numbers.

## Main results

* `Text.atoi_decimal`: the number that is printed is read.
-/

namespace Ratbox.Text

open List

/-- A C string. -/
abbrev Str := List Char

/-! ### Sizes -/

/-- `NICKLEN`. -/
def nickLen : ℕ := 30

/-- `USERLEN`. -/
def userLen : ℕ := 10

/-- `HOSTLEN`. -/
def hostLen : ℕ := 63

/-- `REASONLEN`. -/
def reasonLen : ℕ := 120

/-- `IRCD_BUFSIZE`. -/
def ircdBufsize : ℕ := 512

/-! ### Numbers and names -/

/-- A number as an `int`: what does not fit wraps. -/
def toInt (i : ℤ) : ℤ := i.bmod (2 ^ 32)

theorem toInt_range (i : ℤ) : -2 ^ 31 ≤ toInt i ∧ toInt i < 2 ^ 31 :=
  ⟨Int.le_bmod (by decide), Int.bmod_lt (by decide)⟩

theorem toInt_of_mem {i : ℤ} (h : -2 ^ 31 ≤ i) (h' : i < 2 ^ 31) : toInt i = i :=
  Int.bmod_eq_of_le (by omega) (by omega)

/-- `ToUpper`: the letters, and the four characters that count as letters in names. -/
def toUpper (c : Char) : Char :=
  if 'a' ≤ c ∧ c ≤ 'z' then Char.ofNat (c.toNat - 32)
  else match c with
    | '\x7b' => '['
    | '|' => '\\'
    | '\x7d' => ']'
    | '~' => '^'
    | c => c

/-- `irccmp(s, t) == 0`: the names are equal up to case. -/
def irccmp (s t : Str) : Bool := s.map toUpper == t.map toUpper

theorem irccmp_refl (s : Str) : irccmp s s = true := by simp [irccmp]

theorem irccmp_comm (s t : Str) : irccmp s t = irccmp t s := by
  rw [irccmp, irccmp, Bool.eq_iff_iff, beq_iff_eq, beq_iff_eq, eq_comm]

/-- `strcasecmp(s, t) == 0`. -/
def strcasecmp (s t : Str) : Bool := s.map Char.toLower == t.map Char.toLower

/-- `IsDigit`. -/
def isDigit (c : Char) : Bool := '0' ≤ c && c ≤ '9'

/-- `isspace`, in the C locale. -/
def isSpace (c : Char) : Bool := c == ' ' || ('\t' ≤ c && c ≤ '\r')

/-- The number that a run of digits stands for. -/
def digits (s : Str) : ℕ :=
  (s.takeWhile isDigit).foldl (fun n c => 10 * n + (c.toNat - '0'.toNat)) 0

/-- The number at the front of a string, after white space and a sign. -/
def number (s : Str) : ℤ :=
  match s.dropWhile isSpace with
  | '-' :: s => -digits s
  | '+' :: s => digits s
  | s => digits s

/-- `atol`, for a `long` of 64 bits; a number out of range is cut to it. -/
def atol (s : Str) : ℤ := max (-2 ^ 63) (min (2 ^ 63 - 1) (number s))

/-- `atoi`: the low 32 bits of `atol`, signed. -/
def atoi (s : Str) : ℤ := (atol s).bmod (2 ^ 32)

/-- The conversions `%d` and `%ld`. -/
def decimal : ℤ → Str
  | .ofNat n => Nat.toDigits 10 n
  | .negSucc n => '-' :: Nat.toDigits 10 (n + 1)

/-- `rb_strlcpy` into an array of size `siz`. -/
def strlcpy (s : Str) (siz : ℕ) : Str := s.take (siz - 1)

/-! ### Numbers that are printed and read -/

theorem isDigit_eq (c : Char) : isDigit c = c.isDigit := by
  simp [isDigit, Char.isDigit, Char.le_def]

theorem isDigit_of_mem_toDigits {n : ℕ} {c : Char} (h : c ∈ Nat.toDigits 10 n) :
    isDigit c = true := by
  rw [isDigit_eq]
  exact Nat.isDigit_of_mem_toDigits (by decide) (by decide) h

theorem digits_toDigits (n : ℕ) : digits (Nat.toDigits 10 n) = n := by
  have htake : (Nat.toDigits 10 n).takeWhile isDigit = Nat.toDigits 10 n :=
    takeWhile_eq_self_iff.mpr fun c hc => isDigit_of_mem_toDigits hc
  rw [digits, htake]
  exact Nat.ofDigitChars_ten_toDigits

/-- A digit is neither white space nor a sign. -/
theorem ne_of_isDigit {c : Char} (h : isDigit c = true) :
    isSpace c = false ∧ c ≠ '-' ∧ c ≠ '+' := by
  refine ⟨?_, ?_, ?_⟩
  · by_contra hspace
    simp only [isSpace, Bool.not_eq_false, Bool.or_eq_true, beq_iff_eq, Bool.and_eq_true,
      decide_eq_true_eq] at hspace
    rcases hspace with rfl | ⟨-, hle⟩
    · exact absurd h (by decide)
    · simp only [isDigit, Bool.and_eq_true, decide_eq_true_eq] at h
      exact absurd (Char.le_trans h.1 hle) (by decide)
  · rintro rfl
    exact absurd h (by decide)
  · rintro rfl
    exact absurd h (by decide)

theorem number_decimal (n : ℤ) : number (decimal n) = n := by
  cases n with
  | ofNat n =>
    rw [decimal, number]
    cases hds : Nat.toDigits 10 n with
    | nil => exact absurd hds Nat.toDigits_ne_nil
    | cons c s =>
      obtain ⟨hspace, hminus, hplus⟩ := ne_of_isDigit
        (isDigit_of_mem_toDigits (hds ▸ mem_cons_self : c ∈ Nat.toDigits 10 n))
      rw [dropWhile_cons, hspace]
      have hdigits : digits (c :: s) = n := by rw [← hds, digits_toDigits]
      simp [hminus, hplus, hdigits]
  | negSucc n =>
    have hspace : isSpace '-' = false := by decide
    rw [decimal, number, dropWhile_cons, hspace]
    simp [digits_toDigits, Int.negSucc_eq]

theorem atol_decimal {n : ℤ} (h : -2 ^ 63 ≤ n ∧ n < 2 ^ 63) : atol (decimal n) = n := by
  rw [atol, number_decimal]
  omega

/-- **The number that is printed is read.** -/
theorem atoi_decimal {n : ℤ} (h : -2 ^ 31 ≤ n ∧ n < 2 ^ 31) : atoi (decimal n) = n := by
  rw [atoi, atol_decimal (by omega)]
  exact Int.bmod_eq_of_le (by omega) (by omega)

theorem atoi_int (s : Str) : -2 ^ 31 ≤ atoi s ∧ atoi s < 2 ^ 31 := by
  have hle : -(2 ^ 32 : ℕ) / 2 ≤ (atol s).bmod (2 ^ 32) := Int.le_bmod (by decide)
  have hlt : (atol s).bmod (2 ^ 32) < ((2 ^ 32 : ℕ) + 1) / 2 := Int.bmod_lt (by decide)
  rw [atoi]
  omega

/-! ### Pieces -/

/-- The pieces between separators are as long as the text. -/
theorem sum_splitOnP (sep : Char) (s : Str) :
    ((s.splitOnP (· == sep)).map fun t => t.length + 1).sum = s.length + 1 := by
  induction s with
  | nil => simp [splitOnP_nil]
  | cons c s ih =>
    rw [splitOnP_cons_eq_if_modifyHead]
    split_ifs
    · rw [map_cons, sum_cons, ih, length_cons, length_nil]
      omega
    · cases hsplit : s.splitOnP (· == sep) with
      | nil => exact absurd hsplit (splitOnP_ne_nil _ _)
      | cons t ts =>
        rw [hsplit, map_cons, sum_cons] at ih
        rw [modifyHead_cons, map_cons, sum_cons, length_cons, length_cons]
        omega

theorem not_mem_splitOnP (sep : Char) (s : Str) : ∀ t ∈ s.splitOnP (· == sep), sep ∉ t := by
  induction s with
  | nil => simp [splitOnP_nil]
  | cons c s ih =>
    rw [splitOnP_cons_eq_if_modifyHead]
    split_ifs with hc
    · exact forall_mem_cons.mpr ⟨not_mem_nil, ih⟩
    · cases hsplit : s.splitOnP (· == sep) with
      | nil => exact absurd hsplit (splitOnP_ne_nil _ _)
      | cons t ts =>
        obtain ⟨ht, hts⟩ := forall_mem_cons.mp (hsplit ▸ ih)
        rw [modifyHead_cons, forall_mem_cons, mem_cons, not_or]
        exact ⟨⟨fun heq => hc (by simp [← heq]), ht⟩, hts⟩

end Ratbox.Text
