import Ratbox.Text

/-!
# Base64

What is encoded is decoded, also from a text that was broken into lines: the decoder passes over
each character that is not of its alphabet.

Source: `libratbox/src/ratbox_lib.c`, lines 293–418.

## Main definitions

* `Base64.base64Encode`, `Base64.base64Decode`: `rb_base64_encode` and `rb_base64_decode`.

## Main results

* `Base64.decode_encode`: the bytes come back.

The sizes of the buffers are `int`s, and nothing comes back where one of them wraps or is too small.
Bits that are put together with `|` have no place in common, and are added here.
-/

namespace Ratbox.Base64

open Text List

/-- `base64_table`. -/
def base64Table (i : ℕ) : Char :=
  "ABCDEFGHIJKLMNOPQRSTUVWXYZabcdefghijklmnopqrstuvwxyz0123456789+/".toList.getD i '\x00'

/-- `base64_pad`. -/
def base64Pad : Char := '='

/-- `base64_reverse_table`, which has -1 for what is `none` here. -/
def base64ReverseTable (c : Char) : Option ℕ :=
  if 'A' ≤ c ∧ c ≤ 'Z' then some (c.toNat - 'A'.toNat)
  else if 'a' ≤ c ∧ c ≤ 'z' then some (c.toNat - 'a'.toNat + 26)
  else if '0' ≤ c ∧ c ≤ '9' then some (c.toNat - '0'.toNat + 52)
  else if c = '+' then some 62
  else if c = '/' then some 63
  else none

/-- The loop of `rb_base64_encode`, with what follows it. -/
def encodeLoop : List UInt8 → Str
  | a :: b :: c :: str =>
    base64Table (a.toNat / 4) :: base64Table (a.toNat % 4 * 16 + b.toNat / 16) ::
      base64Table (b.toNat % 16 * 4 + c.toNat / 64) :: base64Table (c.toNat % 64) ::
        encodeLoop str
  | [a, b] =>
    [base64Table (a.toNat / 4), base64Table (a.toNat % 4 * 16 + b.toNat / 16),
      base64Table (b.toNat % 16 * 4), base64Pad]
  | [a] => [base64Table (a.toNat / 4), base64Table (a.toNat % 4 * 16), base64Pad, base64Pad]
  | [] => []

/-- `((length + 2) / 3) * 5`, the number of bytes that `rb_base64_encode` allocates. -/
def encodeSize (length : ℕ) : ℤ := toInt (toInt (length + 2) / 3 * 5)

/-- `rb_base64_encode`, which gives `NULL` for a length that is too long. There is nothing else
where the allocation fails, which a negative size does, or has no place for the NUL. -/
def base64Encode (str : List UInt8) : Option (Option Str) :=
  if toInt (str.length + 2) < 0 ∨ 2 ^ 30 ≤ toInt (str.length + 2) / 3 then some none
  else if (encodeLoop str).length < encodeSize str.length then some (some (encodeLoop str))
  else none

/-- The `switch` of `rb_base64_decode`: the byte that is complete, if one is, and `result[j]`. -/
def decodeChar (i last v : ℕ) : List UInt8 × ℕ :=
  match i % 4 with
  | 0 => ([], v * 4)
  | 1 => ([UInt8.ofNat (last + v / 16)], v % 16 * 16)
  | 2 => ([UInt8.ofNat (last + v / 4)], v % 4 * 64)
  | _ => ([UInt8.ofNat (last + v)], last)

/-- The loop of `rb_base64_decode`: `i`, the bytes in front of `result[j]`, and the last character
that is read. The variable `last` is `result[j]`. -/
def decodeLoop : Str → ℕ → ℕ → List UInt8 → ℕ → ℕ × List UInt8 × Char
  | [], _, i, result, _ => (i, result, '\x00')
  | ch :: str, length, i, result, last =>
    if ch = '\x00' ∨ length = 0 ∨ ch = base64Pad then (i, result, ch)
    else
      match base64ReverseTable ch with
      | none => decodeLoop str (length - 1) i result last
      | some v => decodeLoop str (length - 1) (i + 1) (result ++ (decodeChar i last v).1)
          (decodeChar i last v).2

/-- `rb_base64_decode`, which gives `NULL` for a text that is padded behind a single character.
There is nothing else where the allocation of `length + 1` bytes fails or is empty. -/
def base64Decode (str : Str) (length : ℤ) : Option (Option (List UInt8)) :=
  if toInt (length + 1) ≤ 0 then none
  else
    let (i, result, ch) := decodeLoop str length.toNat 0 [] 0
    if ch = base64Pad ∧ i % 4 = 1 then some none else some (some result)

/-- A character of the alphabet, or one that pads a text. -/
def isSignificant (c : Char) : Bool := c = base64Pad || (base64ReverseTable c).isSome

variable {str : List UInt8} {text : Str} {i last v : ℕ} {result : List UInt8}

theorem reverse_table : ∀ v < 64, base64ReverseTable (base64Table v) = some v ∧
    base64Table v ≠ base64Pad ∧ base64Table v ≠ '\x00' := by
  decide +kernel

/-- Other characters are passed over. -/
theorem decodeLoop_filter (hnul : '\x00' ∉ text) : decodeLoop text text.length i result last =
    decodeLoop (text.filter isSignificant) (text.filter isSignificant).length i result last := by
  induction text generalizing i result last with
  | nil => rfl
  | cons c text ih =>
    rw [mem_cons, not_or] at hnul
    have hc : ∀ n, ¬(c = '\x00' ∨ n + 1 = 0 ∨ c = base64Pad) ↔ c ≠ base64Pad := by
      simp [Ne.symm hnul.1]
    by_cases hpad : c = base64Pad
    · have hsig : isSignificant c = true := by simp [isSignificant, hpad]
      rw [filter_cons_of_pos hsig, decodeLoop, decodeLoop, if_pos (.inr (.inr hpad)),
        if_pos (.inr (.inr hpad))]
    · cases hv : base64ReverseTable c with
      | none =>
        have hsig : ¬isSignificant c = true := by simp [isSignificant, hpad, hv]
        rw [filter_cons_of_neg hsig, length_cons, decodeLoop, if_neg ((hc _).mpr hpad),
          hv, Nat.add_sub_cancel, ← ih hnul.2]
      | some v =>
        have hsig : isSignificant c = true := by simp [isSignificant, hv]
        rw [filter_cons_of_pos hsig, length_cons, length_cons, decodeLoop,
          decodeLoop, if_neg ((hc _).mpr hpad), if_neg ((hc _).mpr hpad), hv, Nat.add_sub_cancel,
          Nat.add_sub_cancel]
        simp [ih hnul.2]

/-- A character of the alphabet is decoded. -/
theorem decodeLoop_table (hv : v < 64) (length : ℕ) :
    decodeLoop (base64Table v :: text) (length + 1) i result last =
      decodeLoop text length (i + 1) (result ++ (decodeChar i last v).1)
        (decodeChar i last v).2 := by
  obtain ⟨hrev, hpad, hnul⟩ := reverse_table v hv
  rw [decodeLoop, if_neg (by simp [hpad, hnul]), hrev]
  rfl

/-- The pad ends the loop. -/
theorem decodeLoop_pad (length : ℕ) :
    decodeLoop (base64Pad :: text) length i result last = (i, result, base64Pad) := by
  rw [decodeLoop, if_pos (.inr (.inr rfl))]

/-- **The bytes that were encoded are decoded**, and the pad is not found behind a single
character. -/
theorem decodeLoop_encodeLoop (hi : i % 4 = 0) : ∃ i' ch,
    decodeLoop (encodeLoop str) (encodeLoop str).length i result last =
      (i', result ++ str, ch) ∧ ¬(ch = base64Pad ∧ i' % 4 = 1) := by
  have h1 : (i + 1) % 4 = 1 := by omega
  have h2 : (i + 1 + 1) % 4 = 2 := by omega
  have h3 : (i + 1 + 1 + 1) % 4 = 3 := by omega
  have hbyte : ∀ (a : UInt8) {n : ℕ}, n = a.toNat → UInt8.ofNat n = a := fun _ _ h =>
    h ▸ UInt8.ofNat_toNat
  fun_induction encodeLoop str generalizing i result last with
  | case1 a b c str ih =>
    have ha := a.toNat_lt
    have hb := b.toNat_lt
    have hc := c.toNat_lt
    have hfirst : UInt8.ofNat (a.toNat / 4 * 4 + (a.toNat % 4 * 16 + b.toNat / 16) / 16) = a :=
      hbyte a (by omega)
    have hsecond : UInt8.ofNat ((a.toNat % 4 * 16 + b.toNat / 16) % 16 * 16 +
        (b.toNat % 16 * 4 + c.toNat / 64) / 4) = b :=
      hbyte b (by omega)
    have hthird : UInt8.ofNat ((b.toNat % 16 * 4 + c.toNat / 64) % 4 * 64 + c.toNat % 64) = c :=
      hbyte c (by omega)
    simp only [length_cons]
    rw [decodeLoop_table (by omega), decodeLoop_table (by omega), decodeLoop_table (by omega),
      decodeLoop_table (by omega)]
    simp only [decodeChar, hi, h1, h2, h3, hfirst, hsecond, hthird]
    obtain ⟨i', ch, heq, hpad⟩ := @ih (i + 4) _ _ (by omega) (by omega) (by omega) (by omega)
    exact ⟨i', ch, heq.trans (by simp), hpad⟩
  | case2 a b =>
    have ha := a.toNat_lt
    have hb := b.toNat_lt
    have hfirst : UInt8.ofNat (a.toNat / 4 * 4 + (a.toNat % 4 * 16 + b.toNat / 16) / 16) = a :=
      hbyte a (by omega)
    have hsecond : UInt8.ofNat ((a.toNat % 4 * 16 + b.toNat / 16) % 16 * 16 +
        b.toNat % 16 * 4 / 4) = b :=
      hbyte b (by omega)
    simp only [length_cons]
    rw [decodeLoop_table (by omega), decodeLoop_table (by omega), decodeLoop_table (by omega),
      decodeLoop_pad]
    simp only [decodeChar, hi, h1, h2, hfirst, hsecond]
    exact ⟨i + 1 + 1 + 1, base64Pad, by simp, by omega⟩
  | case3 a =>
    have ha := a.toNat_lt
    have hfirst : UInt8.ofNat (a.toNat / 4 * 4 + a.toNat % 4 * 16 / 16) = a := hbyte a (by omega)
    simp only [length_cons]
    rw [decodeLoop_table (by omega), decodeLoop_table (by omega), decodeLoop_pad]
    simp only [decodeChar, hi, h1, hfirst]
    exact ⟨i + 1 + 1, base64Pad, by simp, by omega⟩
  | case4 => exact ⟨i, '\x00', by simp [decodeLoop], by simp [base64Pad]⟩

theorem isSignificant_encodeLoop (str : List UInt8) :
    ∀ c ∈ encodeLoop str, isSignificant c = true := by
  have htable : ∀ {v}, v < 64 → isSignificant (base64Table v) = true := fun hv => by
    simp [isSignificant, (reverse_table _ hv).1]
  have hpad : isSignificant base64Pad = true := by decide
  fun_induction encodeLoop str with
  | case1 a b c str ih =>
    have := a.toNat_lt
    have := b.toNat_lt
    have := c.toNat_lt
    simp only [forall_mem_cons]
    exact ⟨htable (by omega), htable (by omega), htable (by omega), htable (by omega), ih⟩
  | case2 a b =>
    have := a.toNat_lt
    have := b.toNat_lt
    simp only [forall_mem_cons]
    exact ⟨htable (by omega), htable (by omega), htable (by omega), hpad, by simp⟩
  | case3 a =>
    have := a.toNat_lt
    simp only [forall_mem_cons]
    exact ⟨htable (by omega), htable (by omega), hpad, hpad, by simp⟩
  | case4 => simp

theorem nul_notMem_encodeLoop (str : List UInt8) : '\x00' ∉ encodeLoop str := fun h =>
  absurd (isSignificant_encodeLoop str _ h) (by decide)

/-- Four characters for each three bytes that were begun. -/
theorem length_encodeLoop (str : List UInt8) :
    (encodeLoop str).length = (str.length + 2) / 3 * 4 := by
  fun_induction encodeLoop str with
  | case1 a b c str ih =>
    simp only [length_cons, ih]
    omega
  | case2 a b => simp
  | case3 a => simp
  | case4 => rfl

/-- **What is encoded is decoded**, also when characters that are not of the alphabet are put
between those of the text. -/
theorem decode_encode (str : List UInt8) (hne : str ≠ []) (hstr : str.length < 1288490188) :
    ∃ text, base64Encode str = some (some text) ∧
      base64Decode text text.length = some (some str) ∧
        ∀ broken : Str, '\x00' ∉ broken → broken.length + 1 < 2 ^ 31 →
          broken.filter isSignificant = text →
            base64Decode broken broken.length = some (some str) := by
  have hbroken : ∀ broken : Str, '\x00' ∉ broken → broken.length + 1 < 2 ^ 31 →
      broken.filter isSignificant = encodeLoop str →
        base64Decode broken broken.length = some (some str) := by
    intro broken hnul hlen hfilter
    obtain ⟨i, ch, heq, hpad⟩ := @decodeLoop_encodeLoop str 0 0 [] rfl
    have hsize : ¬toInt ((broken.length : ℤ) + 1) ≤ 0 := by
      rw [toInt_of_mem (by omega) (by omega)]
      omega
    rw [base64Decode, if_neg hsize, Int.toNat_natCast, decodeLoop_filter hnul, hfilter, heq]
    exact if_neg hpad
  have hpos : 0 < str.length := length_pos_iff.mpr hne
  have hlen := length_encodeLoop str
  have hint : toInt ((str.length : ℤ) + 2) = str.length + 2 :=
    toInt_of_mem (by omega) (by omega)
  have hsize : encodeSize str.length = (str.length + 2) / 3 * 5 := by
    rw [encodeSize, hint]
    exact toInt_of_mem (by omega) (by omega)
  refine ⟨encodeLoop str, ?_, hbroken _ (nul_notMem_encodeLoop str) (by omega) ?_, hbroken⟩
  · rw [base64Encode, if_neg (by rw [hint]; omega), if_pos (by rw [hsize, hlen]; omega)]
  · exact filter_eq_self.mpr (isSignificant_encodeLoop str)

/-- A text that was broken. -/
theorem decode_encode_broken :
    base64Decode "Z2\nxp\nbmU=\n".toList 11 = some (some [0x67, 0x6c, 0x69, 0x6e, 0x65]) := by
  obtain ⟨text, htext, -, hbroken⟩ :=
    decode_encode [0x67, 0x6c, 0x69, 0x6e, 0x65] (by decide) (by decide)
  have hencode : base64Encode [0x67, 0x6c, 0x69, 0x6e, 0x65] = some (some "Z2xpbmU=".toList) := by
    decide +kernel
  have hsame : "Z2xpbmU=".toList = text :=
    Option.some.inj (Option.some.inj (hencode.symm.trans htext))
  refine hbroken _ (by decide) (by decide) (Eq.trans ?_ hsame)
  decide +kernel

end Ratbox.Base64
