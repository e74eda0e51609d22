import Ratbox.Words

/-!
# The parameters of a message

The parameters of a message are its words, with any number of spaces between them. The last one is
the rest of the message: from a colon on, which is left out, or from the parameter on that is the
last there is room for. `rb_string_to_array` skips the spaces in front of each parameter but that
one, of which it takes the rest behind the first space.

Source: `libratbox/src/tools.c`, lines 82–139, and `src/parse.c`, lines 190–215.

## Main definitions

* `Text.parameters`: the parameters of a message.
* `Text.behind`: what is behind some words of a message.

## Main results

* `Text.stringToArray_eq_iff`: the messages whose parameters are found.
-/

namespace Ratbox.Text

open List

/-- `MAXPARA`. -/
def maxPara : ℕ := 15

/-- The text without the spaces in front of it. -/
def skipSpaces (s : Str) : Str := s.dropWhile (· == ' ')

/-- The rest of a message, without a leading colon. -/
def trailing (s : Str) : Str := if s.head? = some ':' then s.tail else s

/-- The rest of a message as its last parameter, if there is one. -/
def lastParameter (s : Str) : List Str :=
  if skipSpaces s = [] then [] else [trailing (skipSpaces s)]

/-- **The parameters of a message**: runs of characters that are no spaces, up to the first one with
a colon in front, or the one that is the last there is room for. -/
def parameters : ℕ → Str → List Str
  | n + 2, s =>
    if skipSpaces s = [] ∨ (skipSpaces s).head? = some ':' then lastParameter s
    else (skipSpaces s).takeWhile (· != ' ') :: parameters (n + 1)
      ((skipSpaces s).dropWhile (· != ' '))
  | _, s => lastParameter s

/-- What is behind the first words of a message, if there are as many of them in front of the
rest. -/
def behind : ℕ → Str → Option Str
  | 0, s => some s
  | n + 1, s =>
    if skipSpaces s = [] ∨ (skipSpaces s).head? = some ':' then none
    else behind n ((skipSpaces s).dropWhile (· != ' '))

/-- **The messages whose parameters are found.** There is no parameter that is the last there is
room for, or a single space is in front of it. A function that may find one parameter only needs a
message without spaces behind the first word. -/
def Fits (maxpara : ℕ) (s : Str) : Prop :=
  if maxpara ≤ 1 then ∀ rest ∈ behind 1 s, rest = []
  else ∀ rest ∈ behind (maxpara - 1) s, skipSpaces rest = [] ∨ rest.tail.head? ≠ some ' '

instance (maxpara : ℕ) (s : Str) : Decidable (Fits maxpara s) := by
  unfold Fits
  infer_instance

/-! ### The words in front of the rest -/

section Words

variable {n : ℕ} {s p : Str}

/-- What is behind a word is empty, or begins with a space. -/
theorem dropWhile_word (s : Str) :
    ' ' ∉ s ∧ s.dropWhile (· != ' ') = [] ∧ s.takeWhile (· != ' ') = s ∨
      ' ' ∈ s ∧ ∃ p, s.dropWhile (· != ' ') = ' ' :: p := by
  by_cases hspace : ' ' ∈ s
  · right
    refine ⟨hspace, ?_⟩
    obtain ⟨c, rest, hrest⟩ : ∃ c rest, s.dropWhile (· != ' ') = c :: rest := by
      refine exists_cons_of_ne_nil fun hnil => ?_
      simpa using dropWhile_eq_nil_iff.mp hnil ' ' hspace
    have hhead := head_dropWhile_not (· != ' ') (l := s) (by simp [hrest])
    simp only [hrest, head_cons, bne_eq_false_iff_eq] at hhead
    exact ⟨rest, by rw [hrest, hhead]⟩
  · left
    have hword : ∀ c ∈ s, (c != ' ') = true := fun c hc => by
      rw [bne_iff_ne]
      rintro rfl
      exact hspace hc
    exact ⟨hspace, dropWhile_eq_nil_iff.mpr hword, takeWhile_eq_self_iff.mpr hword⟩

@[simp] theorem skipSpaces_space (s : Str) : skipSpaces (' ' :: s) = skipSpaces s := by
  rw [skipSpaces, dropWhile_cons_of_pos (by simp), skipSpaces]

theorem parameters_of_skip_nil (h : skipSpaces s = []) : parameters n s = [] := by
  rcases n with _ | _ | n <;> simp [parameters, lastParameter, h]

theorem parameters_of_colon (h : (skipSpaces s).head? = some ':') :
    parameters n s = [(skipSpaces s).tail] := by
  have hne : skipSpaces s ≠ [] := fun hnil => by simp [hnil] at h
  rcases n with _ | _ | n <;> simp [parameters, lastParameter, trailing, h, hne]

theorem parameters_one (s : Str) : parameters 1 s = lastParameter s := by
  rw [parameters]
  simp

/-- A word, and the parameters behind it. -/
theorem parameters_word (hne : skipSpaces s ≠ []) (hcolon : (skipSpaces s).head? ≠ some ':') :
    parameters (n + 2) s =
      (skipSpaces s).takeWhile (· != ' ') :: parameters (n + 1)
      ((skipSpaces s).dropWhile (· != ' ')) := by
  rw [parameters, if_neg (not_or.mpr ⟨hne, hcolon⟩)]

/-- The spaces in front of the last parameter are skipped when there is one of them. -/
theorem skipSpaces_eq_self_iff : skipSpaces p = p ↔ p.head? ≠ some ' ' := by
  constructor
  · exact fun h => h ▸ head_dropWhile_space p
  · exact fun h => dropWhile_space_of_head h

/-- The last parameter is found when it is not behind further spaces. -/
theorem trailing_eq_iff (hne : skipSpaces p ≠ []) :
    trailing p = trailing (skipSpaces p) ↔ p.head? ≠ some ' ' := by
  constructor
  · intro h hspace
    obtain ⟨rest, rfl⟩ : ∃ rest, p = ' ' :: rest := by
      cases p with
      | nil => simp at hspace
      | cons c rest => exact ⟨rest, by simpa using hspace⟩
    have hlen : (trailing (skipSpaces rest)).length ≤ (skipSpaces rest).length := by
      rw [trailing]
      split_ifs
      · rw [length_tail]
        omega
      · exact le_rfl
    have hle : (skipSpaces rest).length ≤ rest.length := (dropWhile_suffix _).length_le
    have heq := congrArg length h
    rw [skipSpaces_space, trailing, if_neg (by simp), length_cons] at heq
    omega
  · intro h
    rw [skipSpaces_eq_self_iff.mpr h]

/-- A word that the loop finds. -/
theorem arrayLoop_word {x : Str} (hcolon : x.head? ≠ some ':') (hspace : ' ' ∈ x)
    (hdrop : x.dropWhile (· != ' ') = ' ' :: p) :
    arrayLoop (n + 1) x = x.takeWhile (· != ' ') ::
      if skipSpaces p = [] then [] else if n = 0 then [trailing p]
      else arrayLoop n (skipSpaces p) := by
  rw [arrayLoop, if_neg hcolon, if_pos hspace, hdrop]
  rfl

/-- The words that the loop finds are parameters, and so is the last one unless there are further
spaces in front of it. -/
theorem arrayLoop_eq_iff (hne : skipSpaces s ≠ []) :
    arrayLoop (n + 1) (skipSpaces s) = parameters (n + 2) s ↔
      ∀ rest ∈ behind (n + 1) s, skipSpaces rest = [] ∨ rest.tail.head? ≠ some ' ' := by
  induction n generalizing s with
  | zero =>
    rw [behind]
    by_cases hcolon : (skipSpaces s).head? = some ':'
    · rw [arrayLoop, if_pos hcolon, if_pos (.inr hcolon), parameters_of_colon hcolon]
      simp
    rw [if_neg (not_or.mpr ⟨hne, hcolon⟩), behind, parameters_word hne hcolon]
    rcases dropWhile_word (skipSpaces s) with ⟨hspace, hdrop, htake⟩ | ⟨hspace, p, hdrop⟩
    · rw [arrayLoop, if_neg hcolon, if_neg hspace, hdrop, htake, parameters_of_skip_nil rfl]
      simp [skipSpaces]
    · rw [arrayLoop_word hcolon hspace hdrop, hdrop, parameters_one, lastParameter,
        skipSpaces_space, if_pos rfl]
      by_cases hnext : skipSpaces p = []
      · simp [hnext]
      · have hiff := trailing_eq_iff hnext
        rw [if_neg hnext, if_neg hnext]
        simpa [hnext, head?_eq_getElem?] using hiff
  | succ n ih =>
    rw [behind]
    by_cases hcolon : (skipSpaces s).head? = some ':'
    · rw [arrayLoop, if_pos hcolon, if_pos (.inr hcolon), parameters_of_colon hcolon]
      simp
    rw [if_neg (not_or.mpr ⟨hne, hcolon⟩), parameters_word hne hcolon]
    rcases dropWhile_word (skipSpaces s) with ⟨hspace, hdrop, htake⟩ | ⟨hspace, p, hdrop⟩
    · rw [arrayLoop, if_neg hcolon, if_neg hspace, hdrop, htake, parameters_of_skip_nil rfl]
      simp [behind, skipSpaces]
    · rw [arrayLoop_word hcolon hspace hdrop, hdrop]
      by_cases hnext : skipSpaces p = []
      · rw [if_pos hnext, parameters_of_skip_nil (by simpa using hnext)]
        simp [behind, hnext]
      · have hstep := ih (s := ' ' :: p) (by simpa using hnext)
        rw [skipSpaces_space] at hstep
        rw [if_neg hnext, if_neg (Nat.add_one_ne_zero n), cons.injEq]
        simpa using hstep

end Words

/-! ### The parameters that are found -/

/-- **The parameters are found** exactly in the messages that fit. -/
theorem stringToArray_eq_iff (maxpara : ℕ) (s : Str) :
    stringToArray maxpara s = parameters maxpara s ↔ Fits maxpara s := by
  rw [stringToArray, Fits]
  change (if skipSpaces s = [] then [] else arrayLoop (max 1 (maxpara - 1)) (skipSpaces s)) = _ ↔ _
  by_cases hnil : skipSpaces s = []
  · have hbehind : ∀ n, behind (n + 1) s = none := fun n => by rw [behind, if_pos (.inl hnil)]
    rw [if_pos hnil, parameters_of_skip_nil hnil]
    split_ifs with hone
    · simp [hbehind]
    · obtain ⟨n, rfl⟩ : ∃ n, maxpara = n + 2 := ⟨maxpara - 2, by omega⟩
      simp [hbehind]
  rw [if_neg hnil]
  split_ifs with hone
  · -- The loop finds a word where there is room for the rest only.
    have hlast : parameters maxpara s = lastParameter s := by
      obtain rfl | rfl : maxpara = 0 ∨ maxpara = 1 := by omega
      · rfl
      · exact parameters_one s
    rw [show max 1 (maxpara - 1) = 0 + 1 by omega, arrayLoop, behind, behind, hlast, lastParameter,
      if_neg hnil, trailing]
    by_cases hcolon : (skipSpaces s).head? = some ':'
    · rw [if_pos hcolon, if_pos (Or.inr hcolon), if_pos hcolon]
      simp
    rw [if_neg hcolon, if_neg hcolon, if_neg (not_or.mpr ⟨hnil, hcolon⟩)]
    rcases dropWhile_word (skipSpaces s) with ⟨hspace, hdrop, -⟩ | ⟨hspace, p, hdrop⟩
    · rw [if_neg hspace, hdrop]
      simp
    · rw [if_pos hspace]
      refine iff_of_false (fun h => ?_) (by rw [hdrop]; simp)
      have hword := (cons.inj h).1
      have hmem : ' ' ∈ (skipSpaces s).takeWhile (· != ' ') := hword.symm ▸ hspace
      simpa using mem_takeWhile_imp hmem
  · obtain ⟨n, rfl⟩ : ∃ n, maxpara = n + 2 := ⟨maxpara - 2, by omega⟩
    rw [show max 1 (n + 2 - 1) = n + 1 by omega]
    exact arrayLoop_eq_iff hnil

/-- Fourteen parameters, and a last one behind two spaces, which keeps a space and the colon. -/
theorem last_keeps_colon :
    (stringToArray maxPara ("a a a a a a a a a a a a a a  :b c".toList)).getLast? =
      some " :b c".toList ∧ stringToArray maxPara ("a a a a a a a a a a a a a a  :b c".toList) ≠
        parameters maxPara ("a a a a a a a a a a a a a a  :b c".toList) := by
  decide +kernel

end Ratbox.Text
