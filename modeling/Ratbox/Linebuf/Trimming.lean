import Ratbox.Linebuf.Basic

/-!
# The end of a line that is queued

A line is formatted into the array, and is to end in one CR/LF. When the text fits, a loop goes
backwards from its final NUL over CR, LF and NUL, without a lower bound; when the text does not fit,
it is cut, and its end stays as it is.

Source: `libratbox/src/linebuf.c`, lines 508–683.

## Main definitions

* `Linebuf.trimReads`: the indices that the loop reads.
* `Linebuf.Puts`: what is to be queued for a text.
* `Linebuf.Trims`: the texts for which it is.

## Main results

* `Linebuf.puts_iff`: the texts for which the line is the right one.
-/

namespace Ratbox.Linebuf

open List Option

/-! ### The loop -/

/-- The indices that the loop reads. -/
def trimReads : List UInt8 → ℤ → List ℤ
  | [], i => [i]
  | b :: mem, i => i :: if isChopped b then trimReads mem (i - 1) else []

/-- The indices that are read for a text: the loop is left out when the text is cut, or empty. -/
def trimIndices (text below : List UInt8) : List ℤ :=
  if text.length > 510 ∨ text.length = 0 then [] else trimReads (0 :: (text.reverse ++ below))
    text.length

/-- The loop stays in the array when the text has a byte that it stops at. -/
theorem forall_trimReads_iff (text below : List UInt8) :
    (∀ i ∈ trimReads (text.reverse ++ below) ((text.length : ℤ) - 1), 0 ≤ i) ↔ ∃ b ∈ text,
    isChopped b = false := by
  induction text using reverseRecOn with
  | nil =>
    have hread : (-1 : ℤ) ∈ trimReads below (-1) := by cases below <;> simp [trimReads]
    refine iff_of_false (fun h => ?_) (by simp)
    exact absurd (h (-1) (by simpa using hread)) (by decide)
  | append_singleton text b ih =>
    rw [reverse_append, reverse_singleton, singleton_append, cons_append, trimReads,
      forall_mem_cons, length_append, length_singleton]
    have hindex : (((text.length + 1 : ℕ) : ℤ) - 1) - 1 = (text.length : ℤ) - 1 := by omega
    cases hb : isChopped b with
    | true =>
      rw [if_pos rfl, hindex, ih]
      simp [or_and_right, exists_or, hb]
    | false => simp [hb]

/-- **The loop reads no byte in front of the array** for a text that fits and has a byte that is not
trimmed, and for one that is cut or empty. -/
theorem forall_trimIndices_iff (text below : List UInt8) :
    (∀ i ∈ trimIndices text below, 0 ≤ i) ↔
      text.length > 510 ∨ text.length = 0 ∨ ∃ b ∈ text, isChopped b = false := by
  rw [trimIndices]
  split_ifs with hout
  · exact iff_of_true (by simp) (hout.imp_right Or.inl)
  · obtain ⟨hfits, hlen⟩ := not_or.mp hout
    have hfirst : (0 : ℤ) ≤ text.length := Int.natCast_nonneg _
    rw [trimReads, if_pos (by decide), forall_mem_cons, forall_trimReads_iff]
    tauto

/-! ### The lines that are queued -/

/-- The text of a line: what fits, without the CR/LF at its end. -/
def trimmed (content : List UInt8) : List UInt8 := (content.take 510).rdropWhile isCrlf

/-- **What is to be queued for a text**: a new line at the end of the queue, with the trimmed text
and one CR/LF, and the loop stays in the array. `below` has the bytes in front of the array. -/
structure Puts (w : World) (h : ℕ) (content below : List UInt8) (result : Option World) : Prop where
  inside : ∀ i ∈ trimIndices content below, 0 ≤ i
  queued : ∃ w', result = some w' ∧ (w'.head h).list = (w.head h).list ++ [w.fresh] ∧
    (w'.line w.fresh).buf = trimmed content ++ [13, 10] ∧
    (w'.line w.fresh).len = (trimmed content ++ [13, 10]).length ∧ (w'.line w.fresh).len ≤ 512

/-- **The texts that are trimmed.** A text is empty; or it fits, and behind the last byte that is
not CR or LF, which is there and is no NUL, are only CR and LF; or it does not fit, and is not cut
behind a CR or LF. -/
def Trims (content : List UInt8) : Prop :=
  if 510 < content.length then ∀ b ∈ (content.take 510).getLast?, isCrlf b = false
  else content = [] ∨ ∃ b ∈ (content.rdropWhile isCrlf).getLast?, b ≠ 0

instance (content : List UInt8) : Decidable (Trims content) := by
  have : Decidable (∀ b ∈ (content.take 510).getLast?, isCrlf b = false) := decidableForallMem _
  unfold Trims
  infer_instance

/-- The loop trims CR and LF only, and stops. -/
theorem exists_last_iff (text : List UInt8) :
    (∃ b ∈ (text.rdropWhile isCrlf).getLast?, b ≠ 0) ↔
      text.rdropWhile isChopped ≠ [] ∧ text.rdropWhile isChopped = text.rdropWhile isCrlf := by
  induction text using reverseRecOn with
  | nil => simp
  | append_singleton text b ih =>
    by_cases hcrlf : isCrlf b = true
    · have hb : isChopped b = true := by simp [isChopped, hcrlf]
      rw [rdropWhile_concat_pos _ _ _ hcrlf, rdropWhile_concat_pos _ _ _ hb, ih]
    · rw [rdropWhile_concat_neg _ _ _ hcrlf, getLast?_concat]
      by_cases hzero : b = 0
      · have hb : isChopped b = true := by simp [isChopped, hzero]
        have hshort : (text.rdropWhile isChopped).length < (text ++ [b]).length := by
          have hle := (List.rdropWhile_prefix isChopped text).length_le
          rw [length_append, length_singleton]
          omega
        rw [rdropWhile_concat_pos _ _ _ hb]
        exact iff_of_false (by simp [hzero]) fun h => hshort.ne (congrArg length h.2)
      · have hb : ¬isChopped b = true := by simp [isChopped, hcrlf, hzero]
        rw [rdropWhile_concat_neg _ _ _ hb]
        simp [hzero]

/-- The line that is queued has the bytes and the length of the end of a line. -/
theorem queued_iff (w : World) (h : ℕ) (content below : List UInt8) :
    Puts w h content below (putText w h content below) ↔
      (∀ i ∈ trimIndices content below, 0 ≤ i) ∧
        chopAndTerminate content below =
        some (trimmed content ++ [13, 10], ((trimmed content).length : ℤ) + 2) := by
  have hle : (trimmed content).length ≤ 510 :=
    (List.rdropWhile_prefix _ _).length_le.trans (length_take_le _ _)
  cases hchop : chopAndTerminate content below with
  | none =>
    refine iff_of_false (fun hputs => ?_) (by simp)
    obtain ⟨w', hw', -⟩ := hputs.queued
    simp [putText, hchop] at hw'
  | some r =>
    obtain ⟨bytes, len⟩ := r
    simp only [some.injEq, Prod.mk.injEq]
    constructor
    · rintro ⟨hinside, w', hw', -, hbuf, hlen, -⟩
      obtain rfl : _ = w' := by simpa [putText, hchop] using hw'
      refine ⟨hinside, ?_, ?_⟩
      · simpa [newLine] using hbuf
      · simpa [newLine] using hlen
    · rintro ⟨hinside, rfl, rfl⟩
      refine ⟨hinside, _, by simp [putText, hchop]; rfl, ?_, ?_, ?_, ?_⟩
      · simp [newLine]
      · simp [newLine]
      · simp [newLine]
      · simp [newLine]
        omega

/-- The end of a line for a text that is trimmed. -/
theorem chopAndTerminate_iff (content below : List UInt8) :
    ((∀ i ∈ trimIndices content below, 0 ≤ i) ∧
      chopAndTerminate content below =
        some (trimmed content ++ [13, 10], ((trimmed content).length : ℤ) + 2)) ↔
        Trims content := by
  rw [forall_trimIndices_iff, Trims, chopAndTerminate, trimmed]
  by_cases hlong : content.length > 510
  · have htake : (content.take 510).length = 510 := by
      rw [length_take]
      omega
    have hself : (content.take 510).rdropWhile isCrlf = content.take 510 ↔
        ∀ b ∈ (content.take 510).getLast?, isCrlf b = false := by
      obtain ⟨init, b, hinit⟩ := eq_nil_or_concat' (content.take 510) |>.resolve_left fun hnil => by
        rw [hnil] at htake
        simp at htake
      rw [rdropWhile_eq_self_iff, hinit]
      simp
    simp only [hlong, if_true, true_or, true_and, some.injEq, Prod.mk.injEq, append_cancel_right_eq]
    rw [← hself]
    constructor
    · exact fun h => h.1.symm
    · exact fun h => ⟨h.symm, by rw [h, htake]; rfl⟩
  · have htake : content.take 510 = content := take_of_length_le (by omega)
    rw [if_neg hlong, if_neg hlong, htake]
    by_cases hnil : content = []
    · subst hnil
      simp
    · have hlen : content.length ≠ 0 := fun h => hnil (length_eq_zero_iff.mp h)
      have hkept : content.rdropWhile isChopped ≠ [] ↔ ∃ b ∈ content, isChopped b = false := by
        rw [ne_eq, rdropWhile_eq_nil_iff]
        simp
      simp only [hlong, hlen, hnil, if_false, false_or, ← hkept, exists_last_iff]
      refine and_congr_right fun hne => ?_
      rw [if_neg hne]
      simp only [some.injEq, Prod.mk.injEq, append_cancel_right_eq]
      exact ⟨fun h => h.1, fun h => ⟨h, by rw [h]⟩⟩

/-- **The lines that are trimmed.** Each of the three functions queues what is to be queued exactly
for the texts that are trimmed; the text of `rb_linebuf_putmsg` is the prefix with the message
behind it. -/
theorem puts_iff (w : World) (h : ℕ) (below : List UInt8) :
    (∀ message pfx : Option (List UInt8),
      Puts w h (pfx.getD [] ++ message.getD []) below (putmsg w h message pfx below) ↔
        Trims (pfx.getD [] ++ message.getD [])) ∧
    (∀ buffer : Option (List UInt8), Puts w h (buffer.getD []) below (putbuf w h buffer below) ↔
      Trims (buffer.getD [])) ∧
    ∀ format : Option (List UInt8), Puts w h (format.getD []) below (put w h format below) ↔
    Trims (format.getD []) := by
  have htext : ∀ content, Puts w h content below (putText w h content below) ↔
      Trims content := fun content =>
    (queued_iff w h content below).trans (chopAndTerminate_iff content below)
  exact ⟨fun _ _ => htext _, fun _ => htext _, fun _ => htext _⟩

/-- For a text that is an LF the loop reads in front of the array, and a text that is cut behind an
LF keeps it. -/
theorem not_trimmed :
    ¬Puts .init 0 [10] [] (put .init 0 (some [10]) []) ∧
      ¬Puts .init 0 (replicate 509 97 ++ [10, 97]) []
        (put .init 0 (some (replicate 509 97 ++ [10, 97])) []) := by
  refine ⟨fun h => ?_, fun h => ?_⟩
  · exact absurd (h.inside (-1) (by decide)) (by decide)
  · have hcut : chopAndTerminate (replicate 509 97 ++ [10, 97]) [] =
        some (replicate 509 97 ++ [10, 13, 10], 512) := by
      decide +kernel
    have hbuf := ((queued_iff ..).mp h).2
    rw [hcut] at hbuf
    have hlen := congrArg Prod.snd (some.inj hbuf)
    exact absurd hlen (by decide +kernel)

end Ratbox.Linebuf
