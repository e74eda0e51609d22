import Ratbox.Text

/-!
# The words of a message

A message is taken apart at its spaces. A word that begins with a colon is the last one, and goes to
the end of the message; so does the last word that there is room for.

Source: `libratbox/src/tools.c`, lines 82–139.

## Main definitions

* `Text.stringToArray`: `rb_string_to_array`.
* `Text.Word`: a text that stays one word in the middle of a message.
* `Text.spaced`: words with a space behind each.

## Main results

* `Text.stringToArray_append`: the words that were written are found, and those of the rest.
* `Text.stringToArray_take`: so are those of a message that is cut, up to the cut.
* `Text.word_of_stringToArray`: the words of a message, but for the last one, are such words.
-/

namespace Ratbox.Text

open List

/-! ### Taking a message apart -/

/-- The loop of `rb_string_to_array`, with the number of words that still can be found by it. -/
def arrayLoop : ℕ → Str → List Str
  | 0, _ => []
  | n + 1, xbuf =>
    if xbuf.head? = some ':' then [xbuf.tail]
    else if ' ' ∈ xbuf then
      let p := (xbuf.dropWhile (· != ' ')).tail
      let next := p.dropWhile (· == ' ')
      xbuf.takeWhile (· != ' ') ::
        if next = [] then []
        else if n = 0 then [if p.head? = some ':' then p.tail else p]
        else arrayLoop n next
    else [xbuf]

/-- `rb_string_to_array`. The condition of the loop is behind its body, so that one word can be
found for each `maxpara`. -/
def stringToArray (maxpara : ℕ) (string : Str) : List Str :=
  let xbuf := string.dropWhile (· == ' ')
  if xbuf = [] then [] else arrayLoop (max 1 (maxpara - 1)) xbuf

/-! ### Words -/

/-- **A text that stays one word** in the middle of a message. -/
structure Word (w : Str) : Prop where
  ne_nil : w ≠ []
  space : ' ' ∉ w
  colon : w.head? ≠ some ':'

instance (w : Str) : Decidable (Word w) :=
  decidable_of_iff (w ≠ [] ∧ ' ' ∉ w ∧ w.head? ≠ some ':')
    ⟨fun ⟨h₁, h₂, h₃⟩ => ⟨h₁, h₂, h₃⟩, fun ⟨h₁, h₂, h₃⟩ => ⟨h₁, h₂, h₃⟩⟩

/-- The words, with a space behind each. -/
def spaced (ws : List Str) : Str := ws.flatMap (· ++ [' '])

@[simp] theorem spaced_nil : spaced [] = [] := rfl

@[simp] theorem spaced_cons (w : Str) (ws : List Str) :
    spaced (w :: ws) = w ++ ' ' :: spaced ws := by
  simp [spaced]

theorem spaced_append (ws ws' : List Str) : spaced (ws ++ ws') = spaced ws ++ spaced ws' :=
  flatMap_append

theorem spaced_eq_intercalate {ws : List Str} (hws : ws ≠ []) :
    spaced ws = [' '].intercalate ws ++ [' '] := by
  induction ws with
  | nil => exact absurd rfl hws
  | cons word ws ih =>
    by_cases hnil : ws = []
    · rw [hnil, intercalate_singleton, spaced_cons, spaced_nil]
    · rw [spaced_cons, ih hnil, intercalate_cons_of_ne_nil hnil, append_assoc, append_assoc]
      rfl

/-! ### Numbers -/

theorem toDigits_ne_nil (n : ℕ) : Nat.toDigits 10 n ≠ [] :=
  ne_nil_of_length_pos Nat.length_toDigits_pos

theorem head_toDigits (n : ℕ) : ∃ c, isDigit c = true ∧ (Nat.toDigits 10 n).head? = some c := by
  obtain ⟨c, l, hl⟩ := exists_cons_of_ne_nil (toDigits_ne_nil n)
  exact ⟨c, isDigit_of_mem_toDigits (n := n) (by simp [hl]), by rw [hl]; rfl⟩

/-- A number is a word. -/
theorem word_decimal (z : ℤ) : Word (decimal z) := by
  have hdigits : ∀ n : ℕ, ' ' ∉ Nat.toDigits 10 n := fun n hmem =>
    absurd (isDigit_of_mem_toDigits hmem) (by decide)
  cases z with
  | ofNat n =>
    obtain ⟨c, hc, hhead⟩ := head_toDigits n
    refine ⟨toDigits_ne_nil n, hdigits n, ?_⟩
    rw [decimal, hhead]
    rintro ⟨⟩
    cases hc
  | negSucc n => exact ⟨by simp [decimal], by simpa [decimal] using hdigits (n +
    1), by simp [decimal]⟩

/-- A number of 64 bits. -/
theorem length_decimal_le {z : ℤ} (h : -2 ^ 63 ≤ z ∧ z < 2 ^ 63) : (decimal z).length ≤ 20 := by
  have hdigits : ∀ n : ℕ, n < 10 ^ 19 → (Nat.toDigits 10 n).length ≤ 19 := fun n hn =>
    (Nat.length_toDigits_le_iff (by decide) (by decide)).mpr hn
  cases z with
  | ofNat n =>
    rw [decimal]
    have hn := hdigits n (by rw [Int.ofNat_eq_natCast] at h; omega)
    omega
  | negSucc n =>
    rw [decimal, length_cons]
    have hn := hdigits (n + 1) (by omega)
    omega

section Words

variable {w text rest s : Str} {ws : List Str} {n m : ℕ}

theorem Word.head_ne_space (h : Word w) : w.head? ≠ some ' ' := fun heq =>
  h.space (mem_of_mem_head? heq)

theorem dropWhile_space_of_head (h : s.head? ≠ some ' ') : s.dropWhile (· == ' ') = s := by
  cases s with
  | nil => rfl
  | cons c s => rw [dropWhile_cons_of_neg (by simpa using h)]

theorem head_dropWhile_space (s : Str) : (s.dropWhile (· == ' ')).head? ≠ some ' ' := by
  induction s with
  | nil => simp
  | cons c s ih =>
    by_cases hc : c = ' '
    · rwa [dropWhile_cons_of_pos (by simp [hc])]
    · rw [dropWhile_cons_of_neg (by simpa using hc)]
      simpa using hc

/-! ### Finding words -/

/-- **A word is taken off the front.** -/
theorem stringToArray_word (h : Word w) (hm : 2 ≤ m) (rest : Str) :
    stringToArray (m + 1) (w ++ ' ' :: rest) = w :: stringToArray m rest := by
  have hne : ∀ c ∈ w, (c != ' ') = true := fun c hc => by
    rw [bne_iff_ne]
    rintro rfl
    exact h.space hc
  have htake : (w ++ ' ' :: rest).takeWhile (· != ' ') = w := by
    rw [takeWhile_append_of_pos hne, takeWhile_cons_of_neg (by simp), append_nil]
  have hdrop : (w ++ ' ' :: rest).dropWhile (· != ' ') = ' ' :: rest := by
    rw [dropWhile_append_of_pos hne, dropWhile_cons_of_neg (by simp)]
  obtain ⟨c, w', rfl⟩ := exists_cons_of_ne_nil h.ne_nil
  have hskip : (c :: w' ++ ' ' :: rest).dropWhile (· == ' ') = c :: w' ++ ' ' :: rest :=
    dropWhile_space_of_head (by simpa using h.head_ne_space)
  obtain ⟨k, rfl⟩ := Nat.exists_eq_add_of_le' hm
  rw [stringToArray, hskip, if_neg (by simp), show max 1 (k + 2 + 1 - 1) = (k + 1) + 1 by omega,
    arrayLoop, if_neg (by simpa using h.colon), if_pos (by simp), htake, hdrop, stringToArray]
  simp

/-- **The words that were written are found**, and those of the rest. -/
theorem stringToArray_append (hws : ∀ w ∈ ws, Word w) (hm : ws.length + 2 ≤ m) (rest : Str) :
    stringToArray m (spaced ws ++ rest) = ws ++ stringToArray (m - ws.length) rest := by
  induction ws generalizing m with
  | nil => rfl
  | cons w ws ih =>
    rw [length_cons] at hm
    obtain ⟨k, rfl⟩ : ∃ k, m = k + 1 := ⟨m - 1, by omega⟩
    rw [spaced_cons, append_assoc, cons_append, stringToArray_word (hws w (by simp)) (by omega),
      ih (fun v hv => hws v (by simp [hv])) (by omega), length_cons, Nat.add_sub_add_right,
        cons_append]

/-- A colon is in front of the last text. -/
@[simp] theorem stringToArray_colon (hm : 2 ≤ m) (text : Str) :
    stringToArray m (':' :: text) = [text] := by
  obtain ⟨k, rfl⟩ := Nat.exists_eq_add_of_le' hm
  rw [stringToArray, dropWhile_space_of_head (by simp), if_neg (by simp), show max 1 (k + 2 - 1) =
    k + 1 by omega, arrayLoop]
  rfl

/-- A word is found. -/
theorem stringToArray_of_word (h : Word w) (hm : 2 ≤ m) : stringToArray m w = [w] := by
  obtain ⟨k, rfl⟩ := Nat.exists_eq_add_of_le' hm
  rw [stringToArray, dropWhile_space_of_head h.head_ne_space, if_neg h.ne_nil,
    show max 1 (k + 2 - 1) = k + 1 by omega, arrayLoop, if_neg h.colon, if_neg h.space]

/-- A text without spaces is at most one word. -/
theorem length_stringToArray_le (h : ' ' ∉ s) : (stringToArray m s).length ≤ 1 := by
  rw [stringToArray]
  by_cases hnil : s.dropWhile (· == ' ') = []
  · rw [if_pos hnil]
    exact Nat.zero_le _
  rw [if_neg hnil]
  cases max 1 (m - 1) with
  | zero => exact Nat.zero_le _
  | succ k =>
    have hspace : ' ' ∉ s.dropWhile (· == ' ') := fun hmem => h ((dropWhile_suffix _).mem hmem)
    rw [arrayLoop, if_neg hspace]
    split_ifs <;> simp

/-- A message that is cut inside its words has no more of them. -/
theorem length_stringToArray_take (hws : ∀ w ∈ ws, Word w) (hm : ws.length + 2 ≤ m) (k : ℕ) :
    (stringToArray m ((spaced ws).take k)).length ≤ ws.length := by
  induction ws generalizing m k with
  | nil => simp [stringToArray]
  | cons w ws ih =>
    have hw := hws w (by simp)
    rw [length_cons] at hm
    obtain ⟨m, rfl⟩ : ∃ k, m = k + 1 := ⟨m - 1, by omega⟩
    rw [spaced_cons]
    by_cases hle : k ≤ w.length
    · -- The cut is in the first word.
      rw [take_append_of_le_length hle]
      refine (length_stringToArray_le fun hmem => hw.space (mem_of_mem_take hmem)).trans ?_
      simp
    · obtain ⟨j, rfl⟩ : ∃ j, k = w.length + 1 + j := ⟨k - (w.length + 1), by omega⟩
      rw [Nat.add_assoc, take_length_add_append, Nat.add_comm 1 j, take_succ_cons,
        stringToArray_word hw (by omega), length_cons, length_cons, Nat.add_le_add_iff_right]
      exact ih (fun v hv => hws v (by simp [hv])) (by omega) j

/-- **A message that is cut** has no more words, or only the rest is cut. -/
theorem stringToArray_take (hws : ∀ w ∈ ws, Word w) (hm : ws.length + 2 ≤ m) (rest : Str) (k : ℕ) :
    (stringToArray m ((spaced ws ++ rest).take k)).length ≤ ws.length ∨
      ∃ j, k = (spaced ws).length + j ∧
        stringToArray m ((spaced ws ++ rest).take k) = ws ++ stringToArray (m - ws.length)
        (rest.take j) := by
  by_cases hle : k ≤ (spaced ws).length
  · left
    rw [take_append_of_le_length hle]
    exact length_stringToArray_take hws hm k
  · right
    obtain ⟨j, rfl⟩ : ∃ j, k = (spaced ws).length + j := ⟨k - (spaced ws).length, by omega⟩
    exact ⟨j, rfl, by rw [take_length_add_append, stringToArray_append hws hm]⟩

/-- A text that is cut is found whole only if it is a word and is not cut. -/
theorem stringToArray_take_eq_self {j : ℕ} (h : stringToArray m (s.take j) = [s]) :
    Word s ∧ s.length ≤ j := by
  rw [stringToArray] at h
  by_cases hnil : (s.take j).dropWhile (· == ' ') = []
  · rw [if_pos hnil] at h
    cases h
  rw [if_neg hnil] at h
  have hhead := head_dropWhile_space (s.take j)
  -- The text that is taken apart is no longer than the one that is found.
  have hlen : ((s.take j).dropWhile (· == ' ')).length ≤ (s.take j).length :=
    (dropWhile_suffix _).length_le
  have htake : (s.take j).length ≤ s.length := length_take_le' _ _
  generalize hx : (s.take j).dropWhile (· == ' ') = x at h hnil hhead hlen
  cases hn : max 1 (m - 1) with
  | zero =>
    rw [hn] at h
    exact absurd h (by simp [arrayLoop])
  | succ n =>
    rw [hn, arrayLoop] at h
    by_cases hcolon : x.head? = some ':'
    · rw [if_pos hcolon] at h
      have heq : x.tail = s := (cons.inj h).1
      have hpos := length_pos_iff.mpr hnil
      have htail : x.tail.length = x.length - 1 := length_tail
      rw [heq] at htail
      omega
    rw [if_neg hcolon] at h
    by_cases hspace : ' ' ∈ x
    · rw [if_pos hspace] at h
      have heq : x.takeWhile (· != ' ') = s := (cons.inj h).1
      have hall : x.takeWhile (· != ' ') = x := by
        refine (List.takeWhile_prefix _).eq_of_length_le ?_
        rw [heq]
        omega
      exact absurd (mem_takeWhile_imp (hall ▸ hspace)) (by simp)
    · rw [if_neg hspace] at h
      obtain rfl : x = s := (cons.inj h).1
      refine ⟨⟨hnil, hspace, hcolon⟩, ?_⟩
      rw [length_take] at hlen
      omega

/-! ### The words that are found -/

/-- What is in front of the first space is a word. -/
theorem word_takeWhile (hhead : s.head? ≠ some ' ') (hcolon : s.head? ≠ some ':')
    (hspace : ' ' ∈ s) :
    Word (s.takeWhile (· != ' ')) := by
  obtain ⟨c, s', rfl⟩ := exists_cons_of_ne_nil (ne_nil_of_mem hspace)
  have hc : c ≠ ' ' := by simpa using hhead
  have htake : (c :: s').takeWhile (· != ' ') = c :: s'.takeWhile (· != ' ') := by simp [hc]
  refine ⟨by simp [htake], fun hmem => ?_, by simpa [htake] using hcolon⟩
  simpa using mem_takeWhile_imp hmem

theorem forall_dropLast_cons {p : Str → Prop} {l : List Str} (hw : p w)
    (hl : ∀ v ∈ l.dropLast, p v) :
    ∀ v ∈ (w :: l).dropLast, p v := by
  cases l with
  | nil => simp
  | cons x l =>
    rw [dropLast_cons_cons]
    exact forall_mem_cons.mpr ⟨hw, hl⟩

theorem word_of_arrayLoop (hhead : s.head? ≠ some ' ') :
    ∀ w ∈ (arrayLoop n s).dropLast, Word w := by
  induction n generalizing s with
  | zero => simp [arrayLoop]
  | succ n ih =>
    rw [arrayLoop]
    by_cases hcolon : s.head? = some ':'
    · simp [if_pos hcolon]
    rw [if_neg hcolon]
    by_cases hspace : ' ' ∈ s
    · rw [if_pos hspace]
      refine forall_dropLast_cons (word_takeWhile hhead hcolon hspace) ?_
      generalize (s.dropWhile (· != ' ')).tail = p
      by_cases hnext : p.dropWhile (· == ' ') = []
      · rw [if_pos hnext]
        exact fun v hv => absurd hv not_mem_nil
      by_cases hn : n = 0
      · rw [if_neg hnext, if_pos hn]
        exact fun v hv => absurd hv not_mem_nil
      · rw [if_neg hnext, if_neg hn]
        exact ih (head_dropWhile_space p)
    · simp [if_neg hspace]

/-- **The words of a message, but for the last one, stay words.** -/
theorem word_of_stringToArray (hw : w ∈ (stringToArray m s).dropLast) : Word w := by
  rw [stringToArray] at hw
  by_cases hnil : s.dropWhile (· == ' ') = []
  · rw [if_pos hnil] at hw
    exact absurd hw not_mem_nil
  · rw [if_neg hnil] at hw
    exact word_of_arrayLoop (head_dropWhile_space s) w hw

theorem length_takeWhile_dropWhile (p : Char → Bool) (s : Str) :
    (s.takeWhile p).length + (s.dropWhile p).length = s.length := by
  rw [← length_append, takeWhile_append_dropWhile]

theorem length_spaced_arrayLoop (n : ℕ) (s : Str) : (spaced (arrayLoop n s).dropLast).length +
    ((arrayLoop n s).getLast?.getD []).length ≤ s.length := by
  induction n generalizing s with
  | zero => simp [arrayLoop]
  | succ n ih =>
    rw [arrayLoop]
    by_cases hcolon : s.head? = some ':'
    · simp [if_pos hcolon]
    rw [if_neg hcolon]
    by_cases hspace : ' ' ∈ s
    · rw [if_pos hspace]
      have hlen := length_takeWhile_dropWhile (· != ' ') s
      have hne : s.dropWhile (· != ' ') ≠ [] := fun hnil => by
        simpa using dropWhile_eq_nil_iff.mp hnil ' ' hspace
      have htail : (s.dropWhile (· != ' ')).tail.length + 1 = (s.dropWhile (· != ' ')).length := by
        rw [length_tail]
        have hpos := length_pos_iff.mpr hne
        omega
      generalize (s.dropWhile (· != ' ')).tail = p at htail ⊢
      -- The word and the space behind it are in front of the rest.
      have hrest : ∀ l : List Str, (spaced l.dropLast).length + (l.getLast?.getD []).length ≤
          p.length → (spaced (s.takeWhile (· != ' ') :: l).dropLast).length +
            (((s.takeWhile (· != ' ') :: l).getLast?).getD []).length ≤ s.length := by
        intro l hl
        cases l with
        | nil =>
          simp only [dropLast_singleton, spaced_nil, length_nil, getLast?_singleton,
            Option.getD_some]
          omega
        | cons x l =>
          rw [dropLast_cons_cons, spaced_cons, getLast?_cons_cons, length_append, length_cons]
          omega
      refine hrest _ ?_
      by_cases hnext : p.dropWhile (· == ' ') = []
      · rw [if_pos hnext]
        exact Nat.zero_le _
      by_cases hn : n = 0
      · rw [if_neg hnext, if_pos hn]
        split_ifs <;> simp
      · rw [if_neg hnext, if_neg hn]
        exact (ih _).trans (dropWhile_suffix _).length_le
    · simp [if_neg hspace]

/-- The words with the spaces behind them are no longer than the message. -/
theorem length_spaced_le (hs : stringToArray m s = ws ++ [text]) :
    (spaced ws).length + text.length ≤ s.length := by
  rw [stringToArray] at hs
  by_cases hnil : s.dropWhile (· == ' ') = []
  · rw [if_pos hnil] at hs
    exact absurd hs.symm (by simp)
  · rw [if_neg hnil] at hs
    have hle := length_spaced_arrayLoop (max 1 (m - 1)) (s.dropWhile (· == ' '))
    rw [hs, dropLast_concat, getLast?_concat, Option.getD_some] at hle
    exact hle.trans (dropWhile_suffix _).length_le

/-- **The words of a message** with a space behind each are no longer than the message with a space
behind it. -/
theorem length_spaced_stringToArray (m : ℕ) (s : Str) :
    (spaced (stringToArray m s)).length ≤ s.length + 1 := by
  obtain hnil | ⟨ws, text, hs⟩ := eq_nil_or_concat (stringToArray m s)
  · rw [hnil]
    exact Nat.zero_le _
  · rw [concat_eq_append] at hs
    have hle := length_spaced_le hs
    rw [hs, spaced_append, length_append, spaced_cons, spaced_nil, length_append, length_singleton]
    omega

theorem length_spaced_take_mono (ws : List Str) {k m : ℕ} (h : k ≤ m) :
    (spaced (ws.take k)).length ≤ (spaced (ws.take m)).length := by
  obtain ⟨ws', hws⟩ := take_prefix_take_left (l := ws) h
  rw [← hws, spaced_append, length_append]
  exact Nat.le_add_right _ _

theorem length_spaced_take_succ {k : ℕ} (h : ws[k]? = some w) :
    (spaced (ws.take (k + 1))).length = (spaced (ws.take k)).length + w.length + 1 := by
  rw [take_add_one, h, spaced_append, length_append]
  simp [Nat.add_assoc]

end Words

end Ratbox.Text
