import Ratbox.Snprintf.Number

/-!
# Formatting into a buffer

`rb_vsnprintf` goes through the format, writes what is not a conversion as it is, and an argument
for each conversion. It goes on counting at the end of the buffer, and puts the NUL on the last byte
when the text is too long. A size that is negative as an `int` is rejected before.

Source: `libratbox/src/snprintf.c`, lines 30–38 and 294–597.

## Main definitions

* `Snprintf.tokens`: the characters and the conversions of a format.
* `Snprintf.vsnprintf`: the function.
* `Snprintf.formatted`: the complete text.

## Main results

* `Snprintf.vsnprintf_spec`: what is returned and stored, and which numbers are written as the C
  standard says.

An argument that has not the type its conversion reads, and a `NULL` for `%s`, end the run.
-/

namespace Ratbox.Snprintf

open Text List Function Option

/-! ### The format -/

/-- `skip_atoi`. -/
def skipAtoi : Str → ℤ → ℤ × Str
  | c :: s, i =>
    if isDigit c then skipAtoi s (toInt (i * 10 + (c.toNat - '0'.toNat : ℕ))) else (i, c :: s)
  | [], i => (i, [])

/-- A width or a precision: none, a number, or the next argument. -/
inductive Count
  | omitted
  | given (n : ℤ)
  | star
  deriving DecidableEq

/-- What is converted. -/
inductive Conv
  | char
  | string
  | pointer
  | count
  | percent
  | integer (base : Base) (sign large : Bool)
  | other (c : Option Char)
  deriving DecidableEq

/-- A conversion of a format. -/
structure Directive where
  flags : Flags
  width : Count
  precision : Option Count
  qualifier : Option Char
  conv : Conv
  deriving DecidableEq

/-- A character or a conversion of a format. -/
inductive Token
  | lit (c : Char)
  | conv (d : Directive)
  deriving DecidableEq

/-- No flags. -/
def Flags.none : Flags := ⟨false, false, false, false, false, false, false⟩

/-- The flags of a conversion. -/
def takeFlags : Str → Flags → Flags × Str
  | '-' :: s, flags => takeFlags s { flags with left := true }
  | '+' :: s, flags => takeFlags s { flags with plus := true }
  | ' ' :: s, flags => takeFlags s { flags with space := true }
  | '#' :: s, flags => takeFlags s { flags with special := true }
  | '0' :: s, flags => takeFlags s { flags with zeropad := true }
  | s, flags => (flags, s)

/-- A number or an asterisk. -/
def takeCount : Str → Count × Str
  | '*' :: s => (.star, s)
  | c :: s =>
    if isDigit c then (.given (skipAtoi (c :: s) 0).1, (skipAtoi (c :: s) 0).2)
    else (.omitted, c :: s)
  | [] => (.omitted, [])

/-- The precision, behind a dot. -/
def takePrecision : Str → Option Count × Str
  | '.' :: s => (some (takeCount s).1, (takeCount s).2)
  | s => (none, s)

/-- The qualifier; `ll` is `L`. -/
def takeQualifier : Str → Option Char × Str
  | 'l' :: 'l' :: s => (some 'L', s)
  | c :: s => if c ∈ ['h', 'l', 'L', 'Z', 'z', 't'] then (some c, s) else (none, c :: s)
  | [] => (none, [])

/-- The conversion that a character stands for. -/
def convOf : Option Char → Conv
  | some 'c' => .char
  | some 's' => .string
  | some 'p' => .pointer
  | some 'n' => .count
  | some '%' => .percent
  | some 'o' => .integer .oct false false
  | some 'X' => .integer .hex false true
  | some 'x' => .integer .hex false false
  | some 'd' => .integer .dec true false
  | some 'i' => .integer .dec true false
  | some 'u' => .integer .dec false false
  | c => .other c

/-- The conversion behind a `%`, and the rest of the format. -/
def directive (s : Str) : Directive × Str :=
  let (flags, s) := takeFlags s .none
  let (width, s) := takeCount s
  let (precision, s) := takePrecision s
  let (qualifier, s) := takeQualifier s
  (⟨flags, width, precision, qualifier, convOf s.head?⟩, s.tail)

theorem length_skipAtoi (s : Str) (i : ℤ) : (skipAtoi s i).2.length ≤ s.length := by
  induction s generalizing i with
  | nil => exact le_rfl
  | cons c s ih =>
    rw [skipAtoi]
    split_ifs
    · exact (ih _).trans (Nat.le_succ _)
    · exact le_rfl

theorem length_takeFlags (s : Str) (flags : Flags) : (takeFlags s flags).2.length ≤ s.length := by
  fun_induction takeFlags s flags with
  | case1 s flags ih => exact ih.trans (Nat.le_succ _)
  | case2 s flags ih => exact ih.trans (Nat.le_succ _)
  | case3 s flags ih => exact ih.trans (Nat.le_succ _)
  | case4 s flags ih => exact ih.trans (Nat.le_succ _)
  | case5 s flags ih => exact ih.trans (Nat.le_succ _)
  | case6 s flags => exact le_rfl

theorem length_takeCount (s : Str) : (takeCount s).2.length ≤ s.length := by
  fun_cases takeCount s with
  | case1 s => exact Nat.le_succ _
  | case2 c s hc hdigit => exact length_skipAtoi _ _
  | case3 c s hc hdigit => exact le_rfl
  | case4 => exact le_rfl

theorem length_takePrecision (s : Str) : (takePrecision s).2.length ≤ s.length := by
  fun_cases takePrecision s with
  | case1 s => exact (length_takeCount s).trans (Nat.le_succ _)
  | case2 s hs => exact le_rfl

theorem length_takeQualifier (s : Str) : (takeQualifier s).2.length ≤ s.length := by
  fun_cases takeQualifier s with
  | case1 s => exact (Nat.le_succ _).trans (Nat.le_succ _)
  | case2 c s hc hmem => exact Nat.le_succ _
  | case3 c s hc hmem => exact le_rfl
  | case4 => exact le_rfl

theorem length_directive (s : Str) : (directive s).2.length ≤ s.length := by
  have htail : ∀ s : Str, s.tail.length ≤ s.length := fun s => by
    rw [length_tail]
    exact Nat.sub_le _ _
  exact (htail _).trans ((length_takeQualifier _).trans ((length_takePrecision _).trans
    ((length_takeCount _).trans (length_takeFlags s .none))))

/-- The characters and the conversions of a format. -/
def tokens : Str → List Token
  | [] => []
  | c :: s => if c ≠ '%' then .lit c :: tokens s else .conv (directive s).1 :: tokens
    (directive s).2
termination_by s => s.length
decreasing_by
  · exact Nat.lt_succ_self _
  · exact Nat.lt_succ_of_le (length_directive s)

/-! ### The arguments -/

/-- What `va_arg` takes: an `int`, a number of 64 bits, a string that may be `NULL`, a pointer, and
the pointer that the count is stored through. -/
inductive Arg
  | int (n : BitVec 32)
  | long (n : BitVec 64)
  | str (s : Option Str)
  | ptr (n : BitVec 64)
  | count
  deriving DecidableEq

/-- `va_arg(args, int)`. -/
def vaInt : List Arg → Option (BitVec 32 × List Arg)
  | .int n :: args => some (n, args)
  | _ => none

/-- The field width, and the flags. -/
def fieldWidth (width : Count) (flags : Flags) (args : List Arg) :
    Option (ℤ × Flags × List Arg) :=
  match width with
  | .omitted => some (-1, flags, args)
  | .given n => some (n, flags, args)
  | .star => (vaInt args).map fun (n, args) =>
    if n.toInt < 0 then (toInt (-n.toInt), { flags with left := true }, args)
    else (n.toInt, flags, args)

/-- The precision: a negative one is zero. -/
def precisionOf (precision : Option Count) (args : List Arg) : Option (ℤ × List Arg) :=
  match precision with
  | none => some (-1, args)
  | some .omitted => some (0, args)
  | some (.given n) => some (max n 0, args)
  | some .star => (vaInt args).map fun (n, args) => (max n.toInt 0, args)

/-- The number for a conversion, by its qualifier. -/
def integerArg (qualifier : Option Char) (sign : Bool) (args : List Arg) :
    Option (BitVec 64 × List Arg) :=
  if qualifier = some 'h' then
    (vaInt args).map fun (n, args) =>
      (if sign then (n.setWidth 16).signExtend 64 else (n.setWidth 16).setWidth 64, args)
  else if qualifier = none then
    (vaInt args).map fun (n, args) => (if sign then n.signExtend 64 else n.setWidth 64, args)
  else
    match args with
    | .long n :: args => some (n, args)
    | _ => none

/-! ### The conversions -/

/-- The turns of `while(--field_width > 0)`, and what is left of `field_width`. -/
def charTurns (width : ℤ) : ℕ × ℤ := ((toInt (width - 1)).toNat, min (toInt (width - 1)) 0)

/-- The turns of `while(len < field_width--)`, and what is left of `field_width`. -/
def stringTurns (len width : ℤ) : ℕ × ℤ := ((width - len).toNat, toInt (min width len - 1))

/-- `while(--field_width > 0)`: a space for each turn. -/
def padChar (str : Sink Char) (width : ℤ) : Sink Char × ℤ :=
  (str.puts (replicate (charTurns width).1 ' '), (charTurns width).2)

/-- `while(len < field_width--)`: a space for each turn. -/
def padString (str : Sink Char) (len width : ℤ) : Sink Char × ℤ :=
  (str.puts (replicate (stringTurns len width).1 ' '), (stringTurns len width).2)

/-- `%c`. -/
def putChar (str : Sink Char) (width : ℤ) (left : Bool) (c : Char) : Sink Char :=
  let (str, width) := if !left then padChar str width else (str, width)
  (padChar (str.put c) width).1

/-- What a precision leaves of a string: `rb_strnlen` takes -1 for one without end. -/
def strnlen (precision : ℤ) (s : Str) : Str := if precision < 0 then s else s.take precision.toNat

/-- `%s`. -/
def putString (str : Sink Char) (width precision : ℤ) (left : Bool) (s : Str) : Sink Char :=
  let len := toInt (strnlen precision s).length
  let (str, width) := if !left then padString str len width else (str, width)
  (padString (str.puts (s.take len.toNat)) len width).1

/-- What is stored through the pointer of `%n`. -/
def countOf (qualifier : Option Char) (pos : ℕ) : ℤ :=
  if qualifier = some 'l' ∨ qualifier = some 'Z' ∨ qualifier = some 'z' then pos else toInt pos

/-- A conversion: what is written, the arguments behind those it takes, and what is stored for
`%n`. -/
def convert (d : Directive) (str : Sink Char) (args : List Arg) :
    Option (Sink Char × List Arg × List ℤ) := do
  let (width, flags, args) ← fieldWidth d.width d.flags args
  let (precision, args) ← precisionOf d.precision args
  match d.conv with
  | .char =>
    let (n, args) ← vaInt args
    some (putChar str width flags.left (Char.ofNat (n.toNat % 256)), args, [])
  | .string =>
    match args with
    | .str (some s) :: args => some (putString str width precision flags.left s, args, [])
    | _ => none
  | .pointer =>
    match args with
    | .ptr n :: args =>
      if width = -1 then
        (number str n 16 16 precision { flags with zeropad := true }).map fun str =>
          (str, args, [])
      else (number str n 16 width precision flags).map fun str => (str, args, [])
    | _ => none
  | .count =>
    match args with
    | .count :: args => some (str, args, [countOf d.qualifier str.pos])
    | _ => none
  | .percent => some (str.put '%', args, [])
  | .integer base sign large =>
    let (n, args) ← integerArg d.qualifier sign args
    let flags := { flags with sign := sign, large := large }
    (number str n base.toNat width precision flags).map fun str => (str, args, [])
  | .other c => some (str.puts ('%' :: c.toList), args, [])

/-- The loop over the format. -/
def run : List Token → List Arg → Sink Char → Option (Sink Char × List ℤ)
  | [], _, str => some (str, [])
  | .lit c :: ts, args, str => run ts args (str.put c)
  | .conv d :: ts, args, str => do
    let (str, args, stored) ← convert d str args
    let (str, stored') ← run ts args str
    some (str, stored ++ stored')

/-- `end - buf`, when the end of a buffer of the size `size` is not past the last address. -/
def clampSize (buf size : ℕ) : ℕ := if buf + size < 2 ^ 64 then size else 2 ^ 64 - 1 - buf

/-- `rb_vsnprintf`, for a buffer at the address `buf` that has the contents `mem`: what is returned,
the contents afterwards, and what is stored for `%n`. -/
def vsnprintf (mem : ℕ → Char) (buf size : ℕ) (fmt : Str) (args : List Arg) :
    Option (ℤ × (ℕ → Char) × List ℤ) :=
  if toInt size < 0 then some (0, mem, [])
  else
    let size := clampSize buf size
    (run (tokens fmt) args ⟨mem, 0, size⟩).map fun (str, stored) =>
      (toInt str.pos,
        if 0 < size then
          if str.pos < size then update str.mem str.pos '\x00'
          else update str.mem (size - 1) '\x00'
        else str.mem,
        stored)

/-! ### The text -/

/-- The text of `%c`. -/
def charText (width : ℤ) (left : Bool) (c : Char) : Str :=
  if left then c :: replicate (charTurns width).1 ' '
  else replicate (charTurns width).1 ' ' ++
    c :: replicate (charTurns (charTurns width).2).1 ' '

/-- The text of `%s`. -/
def stringText (width precision : ℤ) (left : Bool) (s : Str) : Str :=
  let len := toInt (strnlen precision s).length
  if left then s.take len.toNat ++ replicate (stringTurns len width).1 ' '
  else replicate (stringTurns len width).1 ' ' ++ s.take len.toNat ++
    replicate (stringTurns len (stringTurns len width).2).1 ' '

/-- The text of a conversion, when the text before it has the length `pos`. -/
def convertText (d : Directive) (pos : ℕ) (args : List Arg) :
    Option (Str × List Arg × List ℤ) := do
  let (width, flags, args) ← fieldWidth d.width d.flags args
  let (precision, args) ← precisionOf d.precision args
  match d.conv with
  | .char =>
    let (n, args) ← vaInt args
    some (charText width flags.left (Char.ofNat (n.toNat % 256)), args, [])
  | .string =>
    match args with
    | .str (some s) :: args => some (stringText width precision flags.left s, args, [])
    | _ => none
  | .pointer =>
    match args with
    | .ptr n :: args =>
      if width = -1 then
        some (numberText n 16 16 precision { flags with zeropad := true }, args, [])
      else some (numberText n 16 width precision flags, args, [])
    | _ => none
  | .count =>
    match args with
    | .count :: args => some ([], args, [countOf d.qualifier pos])
    | _ => none
  | .percent => some (['%'], args, [])
  | .integer base sign large =>
    let (n, args) ← integerArg d.qualifier sign args
    some (numberText n base.toNat width precision { flags with sign := sign, large := large }, args,
      [])
  | .other c => some ('%' :: c.toList, args, [])

/-- The text of a format behind a text of the length `pos`, and what is stored for `%n`. -/
def textOf : List Token → List Arg → ℕ → Option (Str × List ℤ)
  | [], _, _ => some ([], [])
  | .lit c :: ts, args, pos => do
    let (text, stored) ← textOf ts args (pos + 1)
    some (c :: text, stored)
  | .conv d :: ts, args, pos => do
    let (text, args, stored) ← convertText d pos args
    let (text', stored') ← textOf ts args (pos + text.length)
    some (text ++ text', stored ++ stored')

/-- **The complete text** of a format and its arguments, and what is stored for `%n`. -/
def formatted (fmt : Str) (args : List Arg) : Option (Str × List ℤ) := textOf (tokens fmt) args 0

/-! ### What is written -/

theorem putChar_eq (str : Sink Char) (width : ℤ) (left : Bool) (c : Char) :
    putChar str width left c = str.puts (charText width left c) := by
  cases left <;> simp [putChar, padChar, charText, Sink.puts_append]

theorem putString_eq (str : Sink Char) (width precision : ℤ) (left : Bool) (s : Str) :
    putString str width precision left s = str.puts (stringText width precision left s) := by
  cases left <;> simp [putString, padString, stringText, Sink.puts_append]

/-- A character is padded as far as the width asks for where the loops do not wrap. -/
theorem charText_eq {width : ℤ} (h : -2 ^ 31 + 2 ≤ width) (h' : width < 2 ^ 31) (left : Bool)
    (c : Char) : charText width left c = layOut width left false [] [c] := by
  have hfirst : toInt (width - 1) = width - 1 := toInt_of_mem (by omega) (by omega)
  have hsecond : toInt (min (width - 1) 0 - 1) = min (width - 1) 0 - 1 :=
    toInt_of_mem (by omega) (by omega)
  have hnone : (min (width - 1) 0 - 1).toNat = 0 := by omega
  cases left <;> simp [charText, charTurns, layOut, hfirst, hsecond, hnone]

/-- So is a string whose length is that of an `int`. -/
theorem stringText_eq {width precision : ℤ} {s : Str} (h : -2 ^ 31 < width)
    (hlen : (strnlen precision s).length < 2 ^ 31) (left : Bool) :
    stringText width precision left s = layOut width left false [] (strnlen precision s) := by
  have hint : toInt (strnlen precision s).length = (strnlen precision s).length :=
    toInt_of_mem (by omega) (by omega)
  have htake : s.take (strnlen precision s).length = strnlen precision s := by
    rw [strnlen]
    split_ifs
    · exact take_length
    · rw [length_take, take_eq_take_min]
      simp
  have hrest : toInt (min width (strnlen precision s).length - 1) =
      min width (strnlen precision s).length - 1 :=
    toInt_of_mem (by omega) (by omega)
  have hnone : (min width (strnlen precision s).length - 1 -
      (strnlen precision s).length).toNat = 0 := by
    omega
  rw [stringText, hint, Int.toNat_natCast, htake]
  cases left <;> simp [stringTurns, layOut, hrest, hnone]

theorem number_base_eq (buf : Sink Char) (num : BitVec 64) (base : Base) (size precision : ℤ)
    (type : Flags) : number buf num base.toNat size precision type =
      some (buf.puts (numberText num base.toNat size precision type)) :=
  number_eq buf num (by have := base.toNat_cases; omega) size precision type

/-- **A conversion** writes its text. -/
theorem convert_eq (d : Directive) (str : Sink Char) (args : List Arg) :
    convert d str args = (convertText d str.pos args).map fun p => (str.puts p.1, p.2) := by
  rw [convert, convertText]
  cases hwidth : fieldWidth d.width d.flags args with
  | none => rfl
  | some p =>
    obtain ⟨width, flags, args⟩ := p
    cases hprecision : precisionOf d.precision args with
    | none => simp [hprecision]
    | some p =>
      obtain ⟨precision, args⟩ := p
      simp only [hprecision, bind_eq_bind, bind_some]
      have hpointer : (2 : ℕ) ≤ 16 ∧ 16 ≤ 36 := by decide
      cases d.conv with
      | char =>
        dsimp only
        cases vaInt args with
        | none => rfl
        | some p => simp [putChar_eq]
      | string =>
        rcases args with _ | ⟨_ | _ | s | _ | _, args⟩ <;> try rfl
        cases s with
        | none => rfl
        | some s => simp [putString_eq]
      | pointer =>
        rcases args with _ | ⟨_ | _ | _ | n | _, args⟩ <;> try rfl
        dsimp only
        split_ifs <;> simp [number_eq _ n hpointer]
      | count => rcases args with _ | ⟨_ | _ | _ | _ | _, args⟩ <;> rfl
      | percent => rfl
      | integer base sign large =>
        dsimp only
        cases integerArg d.qualifier sign args with
        | none => rfl
        | some p => simp [number_base_eq]
      | other c => rfl

/-- **The loop** writes the text. -/
theorem run_eq (ts : List Token) (args : List Arg) (str : Sink Char) :
    run ts args str = (textOf ts args str.pos).map fun p => (str.puts p.1, p.2) := by
  induction ts generalizing args str with
  | nil => rfl
  | cons t ts ih =>
    cases t with
    | lit c =>
      rw [run, textOf, ih, Sink.pos_put]
      cases textOf ts args (str.pos + 1) <;> rfl
    | conv d =>
      rw [run, textOf, convert_eq]
      cases convertText d str.pos args with
      | none => rfl
      | some p =>
        obtain ⟨text, args, stored⟩ := p
        simp only [map_some, bind_eq_bind, bind_some, ih, Sink.pos_puts]
        cases textOf ts args (str.pos + text.length) with
        | none => rfl
        | some p => simp [Sink.puts_append]

/-- What of a text is kept in a buffer: the NUL has the last place. -/
def kept (size : ℕ) (text : Str) : Str := if 0 < size then text.take (size - 1) ++ ['\x00'] else []

/-- The NUL at the end, or over the last byte. -/
theorem terminated_eq (mem : ℕ → Char) (size : ℕ) (text : Str) :
    (if 0 < size then
        if ((⟨mem, 0, size⟩ : Sink Char).puts text).pos < size then
          update ((⟨mem, 0, size⟩ : Sink Char).puts text).mem
            ((⟨mem, 0, size⟩ : Sink Char).puts text).pos '\x00'
        else update ((⟨mem, 0, size⟩ : Sink Char).puts text).mem (size - 1) '\x00'
      else ((⟨mem, 0, size⟩ : Sink Char).puts text).mem) =
      Sink.overlay mem 0 (kept size text) := by
  rw [Sink.mem_puts, Sink.pos_puts, kept]
  dsimp only
  rw [Nat.zero_add, Nat.sub_zero]
  by_cases hpos : 0 < size
  · rw [if_pos hpos, if_pos hpos, Sink.overlay_concat, Nat.zero_add]
    by_cases hroom : text.length < size
    · -- all of the text is there
      have hall : text.take size = text := take_of_length_le hroom.le
      have hfirst : text.take (size - 1) = text := take_of_length_le (Nat.le_sub_one_of_lt hroom)
      rw [if_pos hroom, hall, hfirst]
    · -- the last byte that was stored is the one under the NUL
      have hlen : (text.take (size - 1)).length = size - 1 :=
        length_take_of_le (by omega)
      have hlt : size - 1 < text.length := by omega
      have hlast : text.take size = text.take (size - 1) ++ [text[size - 1]] := by
        rw [← take_succ_eq_append_getElem hlt, Nat.sub_add_cancel hpos]
      rw [if_neg hroom, hlast, Sink.overlay_concat, hlen, Nat.zero_add, update_idem]
  · have hzero : size = 0 := by omega
    rw [if_neg hpos, if_neg hpos, hzero, take_zero, Sink.overlay_nil]

/-- **The function.** A size that is negative as an `int` is rejected. For the others the length of
the complete text is returned, as an `int`, and the first characters of the text are stored with a
NUL behind them. A number is written as the C standard says exactly when it conforms and its padding
has room. -/
theorem vsnprintf_spec :
    (∀ mem buf size fmt args, vsnprintf mem buf size fmt args =
      if toInt size < 0 then some (0, mem, [])
      else (formatted fmt args).map fun p =>
        (toInt p.1.length, Sink.overlay mem 0 (kept (clampSize buf size) p.1), p.2)) ∧
    (∀ num base (width precision : BitVec 32) type,
      (∀ buf, number buf num (Base.toNat base) width.toInt precision.toInt type =
          some (buf.puts (render num (Base.toNat base) width.toInt precision.toInt type))) ↔
        Conforms num (Base.toNat base) width.toInt precision.toInt type ∧
          Room num (Base.toNat base) width.toInt precision.toInt type) ∧
    (∀ (width : BitVec 32) left c, -2 ^ 31 + 2 ≤ width.toInt →
      charText width.toInt left c = layOut width.toInt left false [] [c]) ∧
    ∀ (width : BitVec 32) precision left s, -2 ^ 31 < width.toInt →
      (strnlen precision s).length < 2 ^ 31 →
        stringText width.toInt precision left s =
          layOut width.toInt left false [] (strnlen precision s) := by
  refine ⟨fun mem buf size fmt args => ?_, number_eq_render_iff,
    fun width left c h => charText_eq h width.toInt_lt left c,
    fun width precision left s h hlen => stringText_eq h hlen left⟩
  rw [vsnprintf]
  split_ifs with hneg
  · rfl
  · dsimp only
    rw [run_eq, Option.map_map, formatted]
    refine congrArg (fun f => Option.map f (textOf (tokens fmt) args 0)) ?_
    funext p
    dsimp only [comp_apply]
    rw [terminated_eq, Sink.pos_puts, Nat.zero_add]

/-- A text of one character has no length for a size of 2³¹, a hexadecimal zero has a `0x`, and a
precision of 2³¹ - 1 digits without a width takes the `int` below its range. -/
theorem zero_has_prefix :
    vsnprintf (fun _ => 'z') 0 (2 ^ 31) ['a'] [] = some (0, fun _ => 'z', []) ∧
      formatted ['a'] [] = some (['a'], []) ∧
      numberText 0#64 16 (-1) (-1) { Flags.none with special := true } = ['0', 'x', '0'] ∧
      number ⟨fun _ => 'z', 0, 8⟩ 0#64 16 (-1) (-1) { Flags.none with special := true } ≠
        some (Sink.puts ⟨fun _ => 'z', 0, 8⟩
          (render 0#64 16 (-1) (-1) { Flags.none with special := true })) ∧
      ¬∀ buf, number buf 1#64 10 (-1) (2 ^ 31 - 1) Flags.none =
        some (buf.puts (render 1#64 10 (-1) (2 ^ 31 - 1) Flags.none)) := by
  refine ⟨?_, ?_, by decide, fun h => ?_, fun h => ?_⟩
  · rw [vsnprintf, if_pos (by decide)]
  · rw [formatted, tokens, if_pos (by decide), tokens]
    rfl
  · have hpos := congrArg (Option.map Sink.pos) h
    revert hpos
    decide
  · have hwidth : (-1#32).toInt = -1 := by decide
    have hprecision : (BitVec.ofNat 32 (2 ^ 31 - 1)).toInt = 2 ^ 31 - 1 := by decide
    have hiff := number_eq_render_iff 1#64 .dec (-1#32) (BitVec.ofNat 32 (2 ^ 31 - 1)) Flags.none
    rw [hwidth, hprecision] at hiff
    exact absurd (hiff.mp h).2.loops (by decide)

end Ratbox.Snprintf
