import Ratbox.Lib.Sink
import Ratbox.Snprintf.Digits

/-!
# The conversion of a number

`number` writes a number with its sign, its prefix and its padding. It is compared with what the C
standard says of the same conversion. The two agree but for four rules of the standard that the
function does not have: a zero with the precision zero has no digits; the flag `0` is ignored when
there is a precision; a zero has no `0x`; and `#` puts a `0` in front of an octal number only when
none is there. What the width leaves for padding is an `int` too, which wraps where the precision is
very large (`Snprintf.number_eq_render_iff`).

Source: `libratbox/src/snprintf.c`, lines 146–292.

## Main definitions

* `Snprintf.number`: the function.
* `Snprintf.render`: what the C standard says.
* `Snprintf.Conforms`, `Snprintf.Room`: the numbers for which they agree.

## Main results

* `Snprintf.number_eq`: what the function writes.
* `Snprintf.number_eq_render_iff`: when that is what the standard says.
-/

namespace Ratbox.Snprintf

open Text List

/-! ### The function -/

/-- `ZEROPAD`, `SIGN`, `PLUS`, `SPACE`, `LEFT`, `SPECIAL` and `LARGE`. -/
structure Flags where
  zeropad : Bool
  sign : Bool
  plus : Bool
  space : Bool
  left : Bool
  special : Bool
  large : Bool
  deriving DecidableEq

/-- The bases that `number` is called with. -/
inductive Base
  | oct
  | dec
  | hex
  deriving DecidableEq

/-- The base as the number it is called with. -/
def Base.toNat : Base → ℕ
  | .oct => 8
  | .dec => 10
  | .hex => 16

theorem Base.toNat_cases (base : Base) : base.toNat = 8 ∨ base.toNat = 10 ∨ base.toNat = 16 := by
  cases base <;> decide

/-- The turns of `while(--size >= 0)`. -/
def padTurns (size : ℤ) : ℕ := (toInt (size - 1) + 1).toNat

/-- What the loop leaves of `size`. -/
def padRest (size : ℤ) : ℤ := min (toInt (size - 1)) (-1)

/-- `while(--size >= 0)`: a character for each turn, and what is left of `size`. -/
def padLoop (buf : Sink Char) (c : Char) (size : ℤ) : Sink Char × ℤ :=
  (buf.puts (replicate (padTurns size) c), padRest size)

/-- The sign, and the number without it. -/
def takeSign (type : Flags) (num : BitVec 64) : Option Char × ℕ :=
  if type.sign then
    if num.toInt < 0 then (some '-', (-num).toNat)
    else if type.plus then (some '+', num.toNat)
    else if type.space then (some ' ', num.toNat)
    else (none, num.toNat)
  else (none, num.toNat)

/-- `need_pfx`. -/
def needPfx (type : Flags) (base : ℕ) : Bool := type.special && base != 10

/-- `digits`. -/
def digitsOf (type : Flags) : Str := if type.large then largeDigits else smallDigits

/-- The digits in `tmp`, in reverse order. -/
def tmpOf (type : Flags) (base num : ℕ) : Str :=
  if num = 0 then ['0'] else if base ≠ 10 then maskLoop (digitsOf type) base num else putDec num

/-- `number`. -/
def number (buf : Sink Char) (num : BitVec 64) (base : ℕ) (size precision : ℤ) (type : Flags) :
    Option (Sink Char) :=
  let type := if type.left then { type with zeropad := false } else type
  if base < 2 ∨ 36 < base then none
  else
    let (sign, num) := takeSign type num
    let size := if sign.isSome then toInt (size - 1) else size
    let size := if needPfx type base then toInt (size - 1) else size
    let size := if needPfx type base ∧ base = 16 then toInt (size - 1) else size
    let tmp := tmpOf type base num
    let precision := if tmp.length > precision then (tmp.length : ℤ) else precision
    let size := toInt (size - precision)
    let (buf, size) := if !type.zeropad && !type.left then padLoop buf ' ' size else (buf, size)
    let buf := match sign with
      | some c => buf.put c
      | none => buf
    let buf :=
      if needPfx type base then
        let buf := buf.put '0'
        if base = 16 then buf.put ((digitsOf type).getD 16 '\x00') else buf
      else buf
    let (buf, size) :=
      if !type.left then padLoop buf (if type.zeropad then '0' else ' ') size else (buf, size)
    let buf := buf.puts (replicate (precision - tmp.length).toNat '0')
    let buf := buf.puts tmp.reverse
    some (padLoop buf ' ' size).1

/-! ### What it writes -/

/-- The sign as a text. -/
def signText (type : Flags) (num : BitVec 64) : Str := (takeSign type num).1.toList

/-- The prefix as a text. -/
def prefixText (type : Flags) (base : ℕ) : Str :=
  if needPfx type base then
    if base = 16 then ['0', if type.large then 'X' else 'x'] else ['0']
  else []

/-- A text of the width `size` at least: with zeros behind its front, or with spaces in front of it
or behind. -/
def layOut (size : ℤ) (left zeros : Bool) (front digits : Str) : Str :=
  let n := (size - front.length - digits.length).toNat
  if left then front ++ digits ++ replicate n ' '
  else if zeros then front ++ replicate n '0' ++ digits
  else replicate n ' ' ++ front ++ digits

/-- Digits with zeros in front of them. -/
def fill (precision : ℤ) (digits : Str) : Str :=
  replicate (precision - digits.length).toNat '0' ++ digits

/-- A front and digits with the padding of the loops of `number`, for which `n` is left. -/
def padText (n : ℤ) (type : Flags) (front digits : Str) : Str :=
  if type.left then front ++ digits ++ replicate (padTurns n) ' '
  else if type.zeropad then
    front ++ replicate (padTurns n) '0' ++ digits ++
      replicate (padTurns (padRest n)) ' '
  else
    replicate (padTurns n) ' ' ++ front ++ replicate (padTurns (padRest n)) ' ' ++
      digits ++ replicate (padTurns (padRest (padRest n))) ' '

/-- The sign and the prefix of a number. -/
def frontText (num : BitVec 64) (base : ℕ) (type : Flags) : Str :=
  signText type num ++ prefixText type base

/-- The digits of a number. -/
def digitsText (num : BitVec 64) (base : ℕ) (precision : ℤ) (type : Flags) : Str :=
  fill precision (tmpOf type base (takeSign type num).2).reverse

/-- What `number` writes. -/
def numberText (num : BitVec 64) (base : ℕ) (size precision : ℤ) (type : Flags) : Str :=
  padText (toInt (size - (frontText num base type).length -
    (digitsText num base precision type).length)) type (frontText num base type)
      (digitsText num base precision type)

theorem length_fill (precision : ℤ) (digits : Str) :
    ((fill precision digits).length : ℤ) = max precision digits.length := by
  rw [fill, length_append, length_replicate]
  omega

theorem fill_of_le {precision : ℤ} {digits : Str} (h : precision ≤ digits.length) :
    fill precision digits = digits := by
  have hcount : (precision - digits.length).toNat = 0 := by omega
  rw [fill, hcount]
  rfl

theorem toInt_toInt_sub (a b : ℤ) : toInt (toInt a - b) = toInt (a - b) := Int.bmod_sub_bmod

theorem puts_sign (buf : Sink Char) (type : Flags) (num : BitVec 64) :
    (match (takeSign type num).1 with
      | some c => buf.put c
      | none => buf) = buf.puts (signText type num) := by
  rw [signText]
  cases (takeSign type num).1 <;> rfl

theorem puts_prefix (buf : Sink Char) (type : Flags) (base : ℕ) :
    (if needPfx type base then
        if base = 16 then (buf.put '0').put ((digitsOf type).getD 16 '\x00') else buf.put '0'
      else buf) = buf.puts (prefixText type base) := by
  rw [prefixText, digitsOf]
  split_ifs <;> rfl

/-- The width that is left for padding. -/
theorem size_eq (type : Flags) (num : BitVec 64) (base : ℕ) (size precision : ℤ) (tmp : Str) :
    (let size := if (takeSign type num).1.isSome then toInt (size - 1) else size
      let size := if needPfx type base then toInt (size - 1) else size
      let size := if needPfx type base ∧ base = 16 then toInt (size - 1) else size
      toInt (size - if tmp.length > precision then (tmp.length : ℤ) else precision)) =
      toInt (size - (frontText num base type).length - (fill precision tmp.reverse).length) := by
  have hsign : ((signText type num).length : ℤ) =
      if (takeSign type num).1.isSome then 1 else 0 := by
    rw [signText]
    cases (takeSign type num).1 <;> rfl
  have hpfx : ((prefixText type base).length : ℤ) =
      (if needPfx type base then 1 else 0) + if needPfx type base ∧ base = 16 then 1 else 0 := by
    rw [prefixText]
    generalize needPfx type base = need
    cases need <;> by_cases hbase : base = 16 <;> simp [hbase]
  have htmp : (if tmp.length > precision then (tmp.length : ℤ) else precision) =
      max precision tmp.length := by
    split_ifs <;> omega
  have hstep : ∀ (p : Prop) [Decidable p] (a b : ℤ),
      toInt ((if p then toInt (a - 1) else a) - b) = toInt (a - (if p then 1 else 0) - b) := by
    intro p _ a b
    split_ifs
    · exact toInt_toInt_sub (a - 1) b
    · rw [sub_zero]
  rw [frontText, length_append, Int.natCast_add, hsign, hpfx, length_fill,
    length_reverse, htmp]
  dsimp only
  rw [hstep, sub_sub, hstep, sub_sub, hstep]
  refine congrArg toInt ?_
  omega

/-- The flags after `LEFT` has taken `ZEROPAD` away. -/
theorem padText_left (num : BitVec 64) (base : ℕ) (size precision : ℤ) (type : Flags) :
    numberText num base size precision
      (if type.left then { type with zeropad := false } else type) =
      numberText num base size precision type := by
  by_cases hleft : type.left
  · rw [if_pos hleft, numberText, numberText, padText, padText, if_pos hleft, if_pos hleft]
    rfl
  · rw [if_neg hleft]

/-- **What the function writes.** -/
theorem number_eq (buf : Sink Char) (num : BitVec 64) {base : ℕ} (hbase : 2 ≤ base ∧ base ≤ 36)
    (size precision : ℤ) (type : Flags) : number buf num base size precision type =
      some (buf.puts (numberText num base size precision type)) := by
  have hrange : ¬(base < 2 ∨ 36 < base) := by omega
  have hfill : ∀ (buf : Sink Char) (tmp : Str), (buf.puts (replicate
      ((if tmp.length > precision then (tmp.length : ℤ) else precision) - tmp.length).toNat
        '0')).puts tmp.reverse = buf.puts (fill precision tmp.reverse) := by
    intro buf tmp
    have hcount : ((if tmp.length > precision then (tmp.length : ℤ) else precision) -
        tmp.length).toNat = (precision - tmp.reverse.length).toNat := by
      rw [length_reverse]
      split_ifs <;> omega
    rw [hcount, fill, Sink.puts_append]
  have hleft : (if type.left then { type with zeropad := false } else type).left = true →
      (if type.left then { type with zeropad := false } else type).zeropad = false := by
    intro h
    split_ifs at h ⊢
    · rfl
    · contradiction
  rw [number, ← padText_left]
  generalize (if type.left then { type with zeropad := false } else type) = type at hleft ⊢
  have hsize := size_eq type num base size precision (tmpOf type base (takeSign type num).2)
  rw [if_neg hrange, numberText, padText, digitsText]
  dsimp only at hsize ⊢
  rw [hsize]
  simp only [puts_sign, puts_prefix, hfill]
  generalize toInt (size - (frontText num base type).length -
    (fill precision (tmpOf type base (takeSign type num).2).reverse).length) = n
  rw [frontText]
  cases hl : type.left with
  | true =>
    rw [hleft hl]
    simp [padLoop, Sink.puts_append]
  | false => cases type.zeropad <;> simp [padLoop, Sink.puts_append]

/-! ### What the standard says -/

/-- The digits of a value, with zeros in front of them for the precision; none for a zero with the
precision zero. A negative precision is one that is left out. -/
def standardDigits (type : Flags) (base value : ℕ) (precision : ℤ) : Str :=
  fill precision
    (if value = 0 ∧ precision = 0 then []
      else (Nat.toDigits base value).map (baseDigit type.large))

/-- The digits with what `#` adds to an octal number, so that the first of them is a zero. -/
def standardOctal (type : Flags) (base : ℕ) (digits : Str) : Str :=
  if type.special ∧ base = 8 ∧ digits.head? ≠ some '0' then '0' :: digits else digits

/-- The prefix that `#` puts in front of a hexadecimal number that is not zero. -/
def standardPrefix (type : Flags) (base value : ℕ) : Str :=
  if type.special ∧ base = 16 ∧ value ≠ 0 then ['0', if type.large then 'X' else 'x'] else []

/-- The sign of a signed conversion. -/
def standardSign (type : Flags) (num : BitVec 64) : Str :=
  if type.sign then
    if num.toInt < 0 then ['-'] else if type.plus then ['+'] else if type.space then [' '] else []
  else []

/-- The value without its sign. -/
def valueOf (type : Flags) (num : BitVec 64) : ℕ :=
  if type.sign then num.toInt.natAbs else num.toNat

/-- **What the C standard says** of the conversion of an integer: the flag `0` pads with zeros,
except when there is a precision or the flag `-`. -/
def render (num : BitVec 64) (base : ℕ) (width precision : ℤ) (type : Flags) : Str :=
  layOut width type.left (type.zeropad && decide (precision < 0))
    (standardSign type num ++ standardPrefix type base (valueOf type num))
    (standardOctal type base (standardDigits type base (valueOf type num) precision))

/-! ### When they agree -/

/-- A number that is padded as far as the width asks for. -/
def plainText (num : BitVec 64) (base : ℕ) (size precision : ℤ) (type : Flags) : Str :=
  layOut size type.left type.zeropad (frontText num base type)
    (digitsText num base precision type)

theorem signText_eq (type : Flags) (num : BitVec 64) :
    signText type num = standardSign type num := by
  rw [signText, takeSign, standardSign]
  split_ifs <;> rfl

theorem takeSign_snd (type : Flags) (num : BitVec 64) :
    (takeSign type num).2 = valueOf type num := by
  have hlt := num.isLt
  have hpos : ¬num.toInt < 0 → num.toNat = num.toInt.natAbs := by
    rw [BitVec.toInt_eq_toNat_cond]
    split_ifs <;> omega
  have hneg : num.toInt < 0 → (-num).toNat = num.toInt.natAbs := by
    rw [BitVec.toInt_eq_toNat_cond, BitVec.toNat_neg]
    split_ifs <;> omega
  rw [takeSign, valueOf]
  split_ifs with hsign hless
  · exact hneg hless
  · exact hpos hless
  · exact hpos hless
  · exact hpos hless
  · rfl

theorem map_baseDigit_toDigits (large : Bool) (n : ℕ) :
    (Nat.toDigits 10 n).map (baseDigit large) = Nat.toDigits 10 n := by
  refine (map_congr_left fun c hc => ?_).trans (map_id _)
  have hdigit := Char.isDigit_iff_toNat.mp (Nat.isDigit_of_mem_toDigits (by decide) (by decide) hc)
  have hsmall : ¬('a'.val ≤ c.val ∧ c.val ≤ 'z'.val) := fun h =>
    absurd (hdigit.2.trans_lt (by decide : '9'.toNat < 'a'.toNat)) (not_lt.mpr h.1)
  have hupper : c.toUpper = c := dif_neg hsmall
  rw [baseDigit, hupper, ite_self]
  rfl

/-- The digits in `tmp` are those of the value. -/
theorem reverse_tmpOf (type : Flags) {base : ℕ} (hbase : base = 8 ∨ base = 10 ∨ base = 16)
    (value : ℕ) :
    (tmpOf type base value).reverse = (Nat.toDigits base value).map (baseDigit type.large) := by
  rw [tmpOf]
  by_cases hzero : value = 0
  · rw [if_pos hzero, hzero, Nat.toDigits_zero]
    cases type.large <;> rfl
  · rw [if_neg hzero]
    by_cases hten : base = 10
    · rw [if_neg (not_not.mpr hten), hten, putDec_eq, reverse_reverse, map_baseDigit_toDigits]
    · rw [if_pos hten, digitsOf, maskLoop_eq _ (by omega), reverse_reverse]

/-- The digits of the value of a number. -/
def valueDigits (num : BitVec 64) (base : ℕ) (type : Flags) : Str :=
  (Nat.toDigits base (valueOf type num)).map (baseDigit type.large)

theorem valueDigits_of_zero {num : BitVec 64} {type : Flags} (hzero : valueOf type num = 0)
    (base : ℕ) : valueDigits num base type = ['0'] := by
  rw [valueDigits, hzero, Nat.toDigits_zero]
  cases type.large <;> rfl

theorem digitChar_eq_zero : ∀ {d : ℕ}, d < 8 → ∀ large, baseDigit large (Nat.digitChar d) = '0' →
    d = 0 := by
  decide

/-- An octal number that is not zero does not begin with a zero. -/
theorem head_toDigits_ne (large : Bool) {n : ℕ} (hn : n ≠ 0) :
    ((Nat.toDigits 8 n).map (baseDigit large)).head? ≠ some '0' := by
  induction n using Nat.strongRecOn with
  | ind n ih =>
    rw [Nat.toDigits_eq_if (by decide)]
    split_ifs with hlt
    · exact fun h => hn (digitChar_eq_zero hlt large (Option.some.inj h))
    · have hpos : n / 8 ≠ 0 := by omega
      have hne : (Nat.toDigits 8 (n / 8)).map (baseDigit large) ≠ [] := by simp
      rw [map_append, head?_append_of_ne_nil _ hne]
      exact ih (n / 8) (by omega) hpos

/-- **The numbers for which the function agrees with the standard.** -/
structure Conforms (num : BitVec 64) (base : ℕ) (width precision : ℤ) (type : Flags) : Prop where
  /-- It is not a zero with the precision zero. -/
  digits : ¬(valueOf type num = 0 ∧ precision = 0)
  /-- The flag `0` has no effect when there is a precision. -/
  zeropad : type.zeropad = true → type.left = false → 0 ≤ precision →
    width ≤ (standardSign type num).length + (prefixText type base).length +
      max precision (valueDigits num base type).length
  /-- It is not a zero with `0x`. -/
  hex : type.special = true → base = 16 → valueOf type num ≠ 0
  /-- The zero that `#` puts in front of an octal number is the first one, or one of those that the
  flag `0` pads with. -/
  octal : type.special = true → base = 8 →
    valueOf type num ≠ 0 ∧ precision ≤ (valueDigits num base type).length ∨
      valueOf type num = 0 ∧ precision < 0 ∧ type.zeropad = true ∧ type.left = false ∧
        (standardSign type num).length + 2 ≤ width

section Agree

variable {num : BitVec 64} {base : ℕ} {width precision n : ℤ} {type : Flags}

/-- What the function writes, in the terms of the standard. -/
theorem plainText_eq (hbase : base = 8 ∨ base = 10 ∨ base = 16) :
    plainText num base width precision type =
      layOut width type.left type.zeropad (standardSign type num ++ prefixText type base)
        (fill precision (valueDigits num base type)) := by
  rw [plainText, frontText, digitsText, signText_eq, takeSign_snd, reverse_tmpOf type hbase]
  rfl

theorem standardDigits_eq (h : ¬(valueOf type num = 0 ∧ precision = 0)) :
    standardDigits type base (valueOf type num) precision =
      fill precision (valueDigits num base type) := by
  rw [standardDigits, if_neg h]
  rfl

/-- A layout whose padding with zeros is empty is one with spaces. -/
theorem layOut_of_full {zeros : Bool} {front digits : Str} (left : Bool)
    (h : width ≤ front.length + digits.length) :
    layOut width left zeros front digits = front ++ digits := by
  have hnone : (width - front.length - digits.length).toNat = 0 := by omega
  rw [layOut, hnone]
  split_ifs <;> simp

/-- A zero at the end of the front may as well be the first digit. -/
theorem layOut_zero (left zeros : Bool) (front digits : Str) :
    layOut width left zeros (front ++ ['0']) digits = layOut width left zeros front
    ('0' :: digits) := by
  have hcount : width - (front ++ ['0']).length - digits.length =
      width - front.length - ('0' :: digits).length := by
    simp only [length_append, length_cons, length_nil]
    omega
  rw [layOut, layOut, hcount]
  have hcomm : ∀ n, ['0'] ++ (replicate n '0' ++ digits) =
      replicate n '0' ++ '0' :: digits := by
    intro n
    rw [← append_assoc, singleton_append, ← replicate_succ,
      replicate_succ', append_assoc]
    rfl
  split_ifs
  · simp
  · rw [append_assoc, append_assoc, hcomm, append_assoc]
  · simp

/-- The flag `0` may be ignored when there is a precision. -/
theorem Conforms.layOut_zeropad (h : Conforms num base width precision type) {front digits : Str}
    (hlen : (front.length + digits.length : ℤ) = (standardSign type num).length +
      (prefixText type base).length + (fill precision (valueDigits num base type)).length) :
    layOut width type.left type.zeropad front digits =
      layOut width type.left (type.zeropad && decide (precision < 0)) front digits := by
  by_cases hneg : precision < 0
  · rw [decide_eq_true hneg, Bool.and_true]
  · cases hzero : type.zeropad with
    | false => rfl
    | true =>
      cases hleft : type.left with
      | true => rfl
      | false =>
        have hwidth := h.zeropad hzero hleft (Int.not_lt.mp hneg)
        rw [← length_fill, ← hlen] at hwidth
        rw [layOut_of_full false hwidth, layOut_of_full false hwidth]

/-- The two zeros of an octal zero are among those that pad it. -/
theorem layOut_octal_zero {front : Str} (h : (front.length : ℤ) + 2 ≤ width) :
    layOut width false true front ['0', '0'] = layOut width false true front ['0'] := by
  have hcount : (width - front.length - ['0'].length).toNat =
      (width - front.length - ['0', '0'].length).toNat + 1 := by
    simp only [length_cons, length_nil]
    omega
  rw [layOut, layOut, hcount]
  generalize (width - front.length - ['0', '0'].length).toNat = n
  simp [replicate_succ']

/-- The function does what the standard says of the numbers that conform. -/
theorem Conforms.plainText_eq_render (h : Conforms num base width precision type)
    (hbase : base = 8 ∨ base = 10 ∨ base = 16) :
    plainText num base width precision type = render num base width precision type := by
  rw [plainText_eq hbase, render, standardDigits_eq h.digits]
  have hlayOut : layOut width type.left type.zeropad (standardSign type num ++ prefixText type base)
      (fill precision (valueDigits num base type)) = layOut width type.left
        (type.zeropad && decide (precision < 0)) (standardSign type num ++ prefixText type base)
          (fill precision (valueDigits num base type)) :=
    h.layOut_zeropad (by simp)
  by_cases hspecial : type.special = true ∧ base ≠ 10
  · have hneed : needPfx type base = true := by simp [needPfx, hspecial]
    rcases hbase with rfl | rfl | rfl
    · -- octal
      have hpfx : prefixText type 8 = ['0'] := by simp [prefixText, hneed]
      have hnone : standardPrefix type 8 (valueOf type num) = [] := by simp [standardPrefix]
      rw [hpfx, hnone, append_nil, layOut_zero]
      rcases h.octal hspecial.1 rfl with ⟨hvalue, hle⟩ | ⟨hvalue, hneg, hzero, hleft, hwidth⟩
      · have hfill := fill_of_le hle
        have hhead := head_toDigits_ne type.large hvalue
        rw [hfill, standardOctal, if_pos ⟨hspecial.1, rfl, hhead⟩]
        refine h.layOut_zeropad ?_
        rw [hpfx, hfill, length_cons, length_singleton]
        omega
      · have hfill : fill precision (valueDigits num 8 type) = ['0'] := by
          rw [valueDigits_of_zero hvalue]
          exact fill_of_le (Int.le_trans (Int.le_of_lt hneg) (Int.natCast_nonneg _))
        have hsame : standardOctal type 8 ['0'] = ['0'] := by simp [standardOctal]
        rw [hfill, hsame, hzero, hleft, decide_eq_true hneg]
        exact layOut_octal_zero hwidth
    · exact absurd rfl hspecial.2
    · -- hexadecimal
      have hvalue := h.hex hspecial.1 rfl
      have hpfx : prefixText type 16 = standardPrefix type 16 (valueOf type num) := by
        simp [prefixText, standardPrefix, hneed, hspecial.1, hvalue]
      have hsame : ∀ digits, standardOctal type 16 digits = digits := by simp [standardOctal]
      rw [hsame, ← hpfx]
      exact hlayOut
  · -- no prefix
    have hplain : type.special = false ∨ base = 10 := by
      rw [not_and_or, not_not, Bool.not_eq_true] at hspecial
      exact hspecial
    have hpfx : prefixText type base = [] := by
      rcases hplain with hplain | rfl <;> simp [prefixText, needPfx, *]
    have hnone : standardPrefix type base (valueOf type num) = [] := by
      rcases hplain with hplain | rfl <;> simp [standardPrefix, *]
    have hsame : ∀ digits, standardOctal type base digits = digits := by
      rcases hplain with hplain | rfl <;> simp [standardOctal, *]
    rw [hpfx] at hlayOut
    rw [hpfx, hnone, hsame]
    exact hlayOut

/-- The zeros of a layout. -/
theorem count_layOut (width : ℤ) (left zeros : Bool) (front digits : Str) :
    (layOut width left zeros front digits).count '0' = front.count '0' + digits.count '0' +
      if left = false ∧ zeros = true then (width - front.length - digits.length).toNat else 0 := by
  have hspaces : ∀ n, (replicate n ' ').count '0' = 0 := fun n =>
    count_eq_zero.mpr fun h => absurd (eq_of_mem_replicate h) (by decide)
  cases left <;> cases zeros <;> simp [layOut, hspaces, count_append]
  omega

theorem count_sign (type : Flags) (num : BitVec 64) : (standardSign type num).count '0' = 0 := by
  rw [standardSign]
  split_ifs <;> rfl

theorem count_prefix (type : Flags) (base : ℕ) :
    (prefixText type base).count '0' = if needPfx type base then 1 else 0 := by
  rw [prefixText]
  split_ifs <;> rfl

theorem count_standardPrefix (type : Flags) (base value : ℕ) :
    (standardPrefix type base value).count '0' =
      if type.special ∧ base = 16 ∧ value ≠ 0 then 1 else 0 := by
  rw [standardPrefix]
  split_ifs <;> rfl

theorem count_standardOctal (type : Flags) (base : ℕ) (digits : Str) :
    (standardOctal type base digits).count '0' = digits.count '0' +
      if type.special ∧ base = 8 ∧ digits.head? ≠ some '0' then 1 else 0 := by
  rw [standardOctal]
  split_ifs
  · rw [count_cons_self]
  · rfl

/-- The zeros that the function writes. -/
theorem count_plainText (hbase : base = 8 ∨ base = 10 ∨ base = 16) :
    (plainText num base width precision type).count '0' =
      (if needPfx type base then 1 else 0) +
        (fill precision (valueDigits num base type)).count '0' +
        if type.left = false ∧ type.zeropad = true then
          (width - ((standardSign type num).length + (prefixText type base).length) -
            max precision (valueDigits num base type).length).toNat
        else 0 := by
  rw [plainText_eq hbase, count_layOut, count_append, count_sign, count_prefix, length_fill,
    Nat.zero_add, length_append, Int.natCast_add]

/-- The zeros that the standard asks for. -/
theorem count_render : (render num base width precision type).count '0' =
    (if type.special ∧ base = 16 ∧ valueOf type num ≠ 0 then 1 else 0) +
      (standardOctal type base (standardDigits type base (valueOf type num) precision)).count '0' +
      if type.left = false ∧ type.zeropad = true ∧ precision < 0 then
        (width - (standardSign type num ++ standardPrefix type base (valueOf type num)).length -
          (standardOctal type base
            (standardDigits type base (valueOf type num) precision)).length).toNat
      else 0 := by
  rw [render, count_layOut, count_append, count_sign, count_standardPrefix, Nat.zero_add]
  simp

/-- A zero with the precision zero is written with a digit, but should have none. -/
theorem Conforms.digits_of_eq (hbase : base = 8 ∨ base = 10 ∨ base = 16)
    (h : plainText num base width precision type = render num base width precision type) :
    ¬(valueOf type num = 0 ∧ precision = 0) := by
  rintro ⟨hvalue, hprecision⟩
  have hcount := congrArg (count '0') h
  have hnone : standardDigits type base (valueOf type num) precision = [] := by
    rw [standardDigits, if_pos ⟨hvalue, hprecision⟩, hprecision]
    rfl
  have hone : (fill precision (valueDigits num base type)).count '0' = 1 := by
    rw [valueDigits_of_zero hvalue, hprecision]
    rfl
  rw [count_plainText hbase, count_render, hnone, count_standardOctal, hone] at hcount
  have hneg : ¬precision < 0 := by omega
  have hneed : needPfx type base = true ↔ type.special = true ∧ base ≠ 10 := by
    simp [needPfx]
  simp only [hvalue, hneg, hneed, count_nil, and_false, ne_eq, not_true, if_false] at hcount
  rcases hbase with rfl | rfl | rfl
  · simp at hcount
    omega
  · simp at hcount
  · simp at hcount

/-- A hexadecimal zero is written with `0x`, but should have none. -/
theorem Conforms.hex_of_eq (hspecial : type.special = true) (hbase : base = 16)
    (h : plainText num base width precision type = render num base width precision type) :
    valueOf type num ≠ 0 := by
  subst hbase
  intro hvalue
  set x : Char := if type.large then 'X' else 'x' with hx
  have hpad : ∀ n c, c = ' ' ∨ c = '0' → x ∉ replicate n c := by
    intro n c hc hmem
    have heq := eq_of_mem_replicate hmem
    rw [hx] at heq
    rcases hc with rfl | rfl <;> split_ifs at heq <;> cases heq
  have hlay : ∀ left zeros front digits, x ∈ layOut width left zeros front digits ↔
      x ∈ front ∨ x ∈ digits := by
    intro left zeros front digits
    rw [layOut]
    split_ifs <;> simp [mem_append, hpad]
  have hdigits : ∀ ds, x ∈ fill precision ds ↔ x ∈ ds := by
    intro ds
    simp [fill, hpad]
  have hpfx : x ∈ prefixText type 16 := by
    simp [prefixText, needPfx, hspecial, ← hx]
  have hmem : x ∈ render num 16 width precision type := by
    rw [← h, plainText_eq (.inr (.inr rfl)), hlay]
    exact .inl (mem_append_right _ hpfx)
  have hsign : x ∉ standardSign type num := by
    rw [hx, standardSign]
    split_ifs <;> decide
  have hzero : x ∉ ['0'] := by
    rw [hx]
    split_ifs <;> decide
  have hnone : standardPrefix type 16 (valueOf type num) = [] := by simp [standardPrefix, hvalue]
  have hsame : ∀ ds, standardOctal type 16 ds = ds := by simp [standardOctal]
  rw [render, hlay, hnone, append_nil, hsame, standardDigits, hdigits] at hmem
  refine hmem.elim hsign fun hmem => ?_
  split_ifs at hmem
  · exact not_mem_nil hmem
  · exact hzero (valueDigits_of_zero hvalue 16 ▸ hmem)

/-- The octal zero in front is one too many when there is one, unless it takes the place of one
that pads. -/
theorem Conforms.octal_of_eq (hspecial : type.special = true) (hbase : base = 8)
    (h : plainText num base width precision type = render num base width precision type) :
    valueOf type num ≠ 0 ∧ precision ≤ (valueDigits num base type).length ∨
      valueOf type num = 0 ∧ precision < 0 ∧ type.zeropad = true ∧ type.left = false ∧
        (standardSign type num).length + 2 ≤ width := by
  subst hbase
  have hdigits := Conforms.digits_of_eq (.inl rfl) h
  have hcount := congrArg (count '0') h
  rw [count_plainText (.inl rfl), count_render, standardDigits_eq hdigits, count_standardOctal]
    at hcount
  by_cases hfirst : valueOf type num ≠ 0 ∧ precision ≤ (valueDigits num 8 type).length
  · exact .inl hfirst
  · refine .inr ?_
    have hneed : needPfx type 8 = true := by simp [needPfx, hspecial]
    have hpfx : prefixText type 8 = ['0'] := by simp [prefixText, hneed]
    have hnone : standardPrefix type 8 (valueOf type num) = [] := by simp [standardPrefix]
    have hhead : (fill precision (valueDigits num 8 type)).head? = some '0' := by
      by_cases hvalue : valueOf type num = 0
      · rw [valueDigits_of_zero hvalue, fill]
        cases (precision - (['0'] : Str).length).toNat <;> rfl
      · have hlong : ∃ n, (precision - (valueDigits num 8 type).length).toNat = n + 1 :=
          Nat.exists_eq_add_one_of_ne_zero (by omega)
        obtain ⟨n, hn⟩ := hlong
        rw [fill, hn]
        rfl
    have hsame : standardOctal type 8 (fill precision (valueDigits num 8 type)) =
        fill precision (valueDigits num 8 type) := by
      simp [standardOctal, hhead]
    rw [hneed, hsame, hnone, hpfx, hhead, append_nil, length_fill] at hcount
    simp only [if_true, hspecial, ne_eq, not_true, and_false, if_false, Nat.add_zero,
      Nat.reduceEqDiff, false_and, length_singleton] at hcount
    -- only where the standard pads with zeros can it have as many as the function
    have hpads : type.left = false ∧ type.zeropad = true ∧ precision < 0 := by
      by_contra hnot
      rw [if_neg hnot] at hcount
      omega
    obtain ⟨hleft, hzero, hneg⟩ := hpads
    have hvalue : valueOf type num = 0 := by
      by_contra hvalue
      exact hfirst ⟨hvalue, by omega⟩
    have hone : (valueDigits num 8 type).length = 1 := by
      rw [valueDigits_of_zero hvalue]
      rfl
    simp only [hleft, hzero, hneg, and_self, if_true, hone] at hcount
    exact ⟨hvalue, hneg, hzero, hleft, by omega⟩

/-- What is written agrees with the standard only for numbers that conform. -/
theorem Conforms.of_eq (hbase : base = 8 ∨ base = 10 ∨ base = 16)
    (h : plainText num base width precision type = render num base width precision type) :
    Conforms num base width precision type where
  digits := digits_of_eq hbase h
  hex hspecial hbase := hex_of_eq hspecial hbase h
  octal hspecial hbase := octal_of_eq hspecial hbase h
  zeropad hzero hleft hprecision := by
    have hdigits := digits_of_eq hbase h
    have hcount := congrArg (count '0') h
    have hneg : ¬(type.left = false ∧ type.zeropad = true ∧ precision < 0) := by omega
    have hfront : (if needPfx type base then 1 else 0) =
        (if type.special ∧ base = 16 ∧ valueOf type num ≠ 0 then 1 else 0) +
          if type.special ∧ base = 8 ∧
            (fill precision (valueDigits num base type)).head? ≠ some '0' then 1 else 0 := by
      cases hspecial : type.special with
      | false => simp [needPfx, hspecial]
      | true =>
        rcases hbase with rfl | rfl | rfl
        · obtain ⟨hvalue, hle⟩ | ⟨-, hless, -⟩ := octal_of_eq hspecial rfl h
          · have hhead : (valueDigits num 8 type).head? ≠ some '0' := head_toDigits_ne _ hvalue
            rw [fill_of_le hle]
            simp [needPfx, hspecial, hhead]
          · omega
        · simp [needPfx]
        · have hvalue := hex_of_eq hspecial rfl h
          simp [needPfx, hspecial, hvalue]
    rw [count_plainText hbase, count_render, standardDigits_eq hdigits, count_standardOctal,
      if_neg hneg, hfront] at hcount
    simp only [hleft, hzero, and_self, if_true] at hcount
    omega

/-- **When the function does what the standard says.** -/
theorem plainText_eq_iff (hbase : base = 8 ∨ base = 10 ∨ base = 16) :
    plainText num base width precision type = render num base width precision type ↔
      Conforms num base width precision type :=
  ⟨Conforms.of_eq hbase, fun h => h.plainText_eq_render hbase⟩

/-! ### When the padding has room -/

/-- What the width leaves for padding. -/
def padding (num : BitVec 64) (base : ℕ) (width precision : ℤ) (type : Flags) : ℤ :=
  width - ((standardSign type num).length + (prefixText type base).length) -
    max precision (valueDigits num base type).length

/-- The number of loops that pad. -/
def padLoops (type : Flags) : ℤ := if type.left then 1 else if type.zeropad then 2 else 3

/-- **The numbers whose padding has room** in an `int`: each of the loops takes one more away than
it writes. What is left of the width may be below the range of an `int` where it comes back with
nothing to write. -/
structure Room (num : BitVec 64) (base : ℕ) (width precision : ℤ) (type : Flags) : Prop where
  loops : -2 ^ 31 + padLoops type ≤ toInt (padding num base width precision type)
  wraps : toInt (padding num base width precision type) ≤ 0 ∨
    toInt (padding num base width precision type) = padding num base width precision type

theorem toInt_sub_one (h : -2 ^ 31 ≤ n) (h' : n < 2 ^ 31) :
    toInt (n - 1) = if n = -2 ^ 31 then 2 ^ 31 - 1 else n - 1 := by
  split_ifs with hn
  · rw [hn]
    rfl
  · exact toInt_of_mem (by omega) (by omega)

/-- The loops pad as far as the width asks for where none of them wraps. -/
theorem padText_eq_layOut (h : -2 ^ 31 + padLoops type ≤ n) (h' : n < 2 ^ 31)
    (front digits : Str) : padText n type front digits =
      layOut (n + front.length + digits.length) type.left type.zeropad front digits := by
  have hstep : ∀ m, -2 ^ 31 < m → m < 2 ^ 31 →
      padTurns m = m.toNat ∧ padRest m = min (m - 1) (-1) := by
    intro m hm hm'
    rw [padTurns, padRest, toInt_of_mem (by omega) (by omega), sub_add_cancel]
    exact ⟨rfl, rfl⟩
  have hcount : (n + front.length + digits.length - front.length - digits.length).toNat =
      n.toNat := by
    omega
  rw [padText, layOut, hcount]
  rw [padLoops] at h
  split_ifs at h ⊢
  · rw [(hstep n (by omega) h').1]
  · -- nothing is left for the loop behind the zeros
    have hend : (min (n - 1) (-1)).toNat = 0 := by omega
    rw [(hstep n (by omega) h').1, (hstep n (by omega) h').2,
      (hstep _ (by omega) (by omega)).1, hend]
    simp
  · have hnone : (min (n - 1) (-1)).toNat = 0 := by omega
    have hend : (min (min (n - 1) (-1) - 1) (-1)).toNat = 0 := by omega
    rw [(hstep n (by omega) h').1, (hstep n (by omega) h').2,
      (hstep _ (by omega) (by omega)).1, (hstep _ (by omega) (by omega)).2,
      (hstep _ (by omega) (by omega)).1, hnone, hend]
    simp

/-- A loop that wraps writes a character at least. -/
theorem lt_length_padText (h : -2 ^ 31 ≤ n) (h' : n < 2 ^ 31)
    (hwrap : n < -2 ^ 31 + padLoops type ∨ 0 < n) (front digits : Str) :
    front.length + digits.length < (padText n type front digits).length := by
  have hturns : ∀ m : ℤ, -2 ^ 31 ≤ m → m < 2 ^ 31 → m = -2 ^ 31 ∨ 0 < m → 0 < padTurns m := by
    intro m hm hm' hpos
    rw [padTurns, toInt_sub_one hm hm']
    split_ifs <;> omega
  have hrest : ∀ m : ℤ, -2 ^ 31 < m → m ≤ 0 → padRest m = m - 1 := by
    intro m hm hm'
    rw [padRest, toInt_sub_one (by omega) (by omega), if_neg (by omega)]
    omega
  have hlong : 0 < padTurns n ∨ type.left = false ∧ (0 < padTurns (padRest n) ∨
      type.zeropad = false ∧ 0 < padTurns (padRest (padRest n))) := by
    by_cases hfirst : n = -2 ^ 31 ∨ 0 < n
    · exact .inl (hturns n h h' hfirst)
    · rw [padLoops] at hwrap
      have hleft : type.left = false := by
        by_contra hleft
        rw [if_pos (Bool.not_eq_false _ ▸ hleft)] at hwrap
        omega
      rw [hrest n (by omega) (by omega)]
      refine .inr ⟨hleft, ?_⟩
      by_cases hsecond : n - 1 = -2 ^ 31
      · exact .inl (hturns _ (by omega) (by omega) (.inl hsecond))
      · -- only the third loop is left
        rw [hrest (n - 1) (by omega) (by omega)]
        cases hzero : type.zeropad with
        | true =>
          simp only [hleft, hzero, Bool.false_eq_true, if_false, if_true] at hwrap
          omega
        | false =>
          simp only [hleft, hzero, Bool.false_eq_true, if_false] at hwrap
          exact .inr ⟨rfl, hturns _ (by omega) (by omega) (by omega)⟩
  rw [padText]
  split_ifs with hleft hzero <;> simp only [length_append, length_replicate]
  · have := hlong.resolve_right fun h => Bool.false_ne_true (h.1.symm.trans hleft)
    omega
  · have := hlong.imp_right fun h => h.2.resolve_right fun h =>
      Bool.false_ne_true (h.1.symm.trans hzero)
    omega
  · omega

theorem length_layOut (left zeros : Bool) (front digits : Str) :
    ((layOut width left zeros front digits).length : ℤ) =
      max width (front.length + digits.length) := by
  rw [layOut]
  split_ifs <;> simp only [length_append, length_replicate, Int.natCast_add] <;> omega

/-- What the standard asks for is not longer than the width and what the function writes without
padding. -/
theorem length_render_le (hbase : base = 8 ∨ base = 10 ∨ base = 16) :
    ((render num base width precision type).length : ℤ) ≤
      max width ((standardSign type num).length + (prefixText type base).length +
        max precision (valueDigits num base type).length) := by
  have hdigits : ((standardDigits type base (valueOf type num) precision).length : ℤ) ≤
      max precision (valueDigits num base type).length := by
    rw [standardDigits, length_fill]
    split_ifs
    · simp only [length_nil]
      omega
    · exact Int.le_refl _
  have hfront : (standardPrefix type base (valueOf type num)).length +
      (standardOctal type base (standardDigits type base (valueOf type num) precision)).length ≤
        (prefixText type base).length +
          (standardDigits type base (valueOf type num) precision).length := by
    generalize standardDigits type base (valueOf type num) precision = digits
    rw [standardPrefix, standardOctal, prefixText, needPfx]
    rcases hbase with rfl | rfl | rfl <;> cases type.special <;> simp <;>
      split_ifs <;> simp <;> omega
  rw [render, length_layOut, length_append]
  omega

/-- What is written is the padded number exactly where there is room; elsewhere it is longer than
what the standard asks for. -/
theorem numberText_eq_iff (hbase : base = 8 ∨ base = 10 ∨ base = 16) (hwidth : width < 2 ^ 31) :
    numberText num base width precision type = render num base width precision type ↔
      Conforms num base width precision type ∧ Room num base width precision type := by
  have hfront : (frontText num base type).length =
      (standardSign type num).length + (prefixText type base).length := by
    rw [frontText, signText_eq, length_append]
  have hdigits : ((digitsText num base precision type).length : ℤ) =
      max precision (valueDigits num base type).length := by
    rw [digitsText, takeSign_snd, reverse_tmpOf type hbase, length_fill]
    rfl
  have hpadding : width - (frontText num base type).length -
      (digitsText num base precision type).length = padding num base width precision type := by
    rw [padding, hfront, hdigits, Int.natCast_add]
  have hrange := toInt_range (padding num base width precision type)
  have hin := @toInt_of_mem (padding num base width precision type)
  rw [numberText, hpadding]
  by_cases hroom : Room num base width precision type
  · have hcount : (toInt (padding num base width precision type)).toNat =
        (padding num base width precision type).toNat := by
      have := hroom.wraps
      omega
    have hplain : padText (toInt (padding num base width precision type)) type
        (frontText num base type) (digitsText num base precision type) =
          plainText num base width precision type := by
      have hsame : ∀ (n : ℤ) (f d : ℕ), n + f + d - f - d = n := by omega
      rw [padText_eq_layOut hroom.loops hrange.2, plainText, layOut, layOut, hpadding, ← hcount,
        hsame]
    rw [hplain, plainText_eq_iff hbase]
    exact (and_iff_left hroom).symm
  · refine iff_of_false (fun h => ?_) fun h => hroom h.2
    have hlow : toInt (padding num base width precision type) < -2 ^ 31 + padLoops type ∨
        0 < toInt (padding num base width precision type) ∧
          toInt (padding num base width precision type) ≠ padding num base width precision
              type := by
      by_contra hnot
      exact hroom ⟨by omega, by omega⟩
    have hpad : padLoops type ≤ 3 := by
      rw [padLoops]
      split_ifs <;> decide
    have hlong := lt_length_padText hrange.1 hrange.2 (hlow.imp_right And.left)
      (frontText num base type) (digitsText num base precision type)
    have hlen := @length_render_le num base width precision type hbase
    rw [h] at hlong
    rw [padding] at hin hlow
    omega

end Agree

/-- **The numbers that are written as the standard says**, into all buffers. -/
theorem number_eq_render_iff (num : BitVec 64) (base : Base) (width precision : BitVec 32)
    (type : Flags) :
    (∀ buf, number buf num base.toNat width.toInt precision.toInt type =
        some (buf.puts (render num base.toNat width.toInt precision.toInt type))) ↔
      Conforms num base.toNat width.toInt precision.toInt type ∧
        Room num base.toNat width.toInt precision.toInt type := by
  have hbase := base.toNat_cases
  have hrange : 2 ≤ base.toNat ∧ base.toNat ≤ 36 := by omega
  rw [← numberText_eq_iff hbase width.toInt_lt]
  simp only [number_eq _ num hrange, Option.some.injEq]
  exact ⟨Sink.puts_injective, fun h buf => by rw [h]⟩

end Ratbox.Snprintf
