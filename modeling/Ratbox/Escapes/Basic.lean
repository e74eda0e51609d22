import Ratbox.Banlist.Lists
import Ratbox.Masks

/-!
# Masks with escapes

In the masks for real names a backslash takes the meaning away from the character behind it, but for
`\s`, which is a space, and `@` and `#` stand for a letter and a digit. A mask is read as a list of
symbols, each of which is one character or two. Both `collapse` and `collapse_esc` put adjacent
stars together, and leave what the mask stands for as it is.

Source: `src/match.c`, lines 202–315 and 497–565.

## Main definitions

* `Escapes.Symbol`, `Escapes.symbols`: what a mask with escapes is read as.
* `Escapes.escLanguage`: what a mask with escapes stands for.
* `Escapes.collapseEsc`: `collapse_esc`.

## Main results

* `Escapes.collapse_eq_squeeze`, `Escapes.symbols_collapseEsc`: adjacent stars are put together.
* `Escapes.collapse_spec`: what the mask stands for stays as it is.
-/

namespace Ratbox.Escapes

open Text Match Glob List
open Banlist (collapse)

/-! ### Symbols -/

/-- A symbol of a mask with escapes. A backslash at the end of the mask has nothing to escape. -/
inductive Symbol
  | any
  | one
  | letter
  | digit
  | space
  | char (c : Char)
  | dangling
  deriving DecidableEq

/-- The symbol for a character behind a backslash. -/
def escaped (c : Char) : Symbol := if c = 's' then .space else .char c

/-- The symbol for a character of its own. -/
def plain (c : Char) : Symbol :=
  if c = '*' then .any
  else if c = '?' then .one
  else if c = '@' then .letter
  else if c = '#' then .digit
  else .char c

/-- The symbols of a mask. -/
def symbols : Str → List Symbol
  | [] => []
  | ['\\'] => [.dangling]
  | '\\' :: d :: s => escaped d :: symbols s
  | c :: s => plain c :: symbols s

/-- A symbol takes a character. -/
def Symbol.Takes : Symbol → Char → Prop
  | .any, _ => True
  | .one, _ => True
  | .letter, d => d.isAlpha = true
  | .digit, d => isDigit d = true
  | .space, d => d = ' '
  | .char c, d => toLower c = toLower d
  | .dangling, _ => False

instance (c : Symbol) (d : Char) : Decidable (c.Takes d) := by
  cases c <;> unfold Symbol.Takes <;> infer_instance

/-- What a mask with escapes stands for. -/
def escLanguage (mask : Str) : Language Char := language .any Symbol.Takes (symbols mask)

@[simp] theorem symbols_nil : symbols [] = [] := rfl

@[simp] theorem symbols_escape (d : Char) (s : Str) :
    symbols ('\\' :: d :: s) = escaped d :: symbols s := rfl

@[simp] theorem symbols_dangling : symbols ['\\'] = [.dangling] := rfl

variable {c : Char}

theorem symbols_plain (hc : c ≠ '\\') (s : Str) : symbols (c :: s) = plain c :: symbols s := by
  simp [symbols, hc]

theorem plain_eq_any_iff : plain c = .any ↔ c = '*' := by
  rw [plain]
  split_ifs <;> simp_all

theorem escaped_ne_any (c : Char) : escaped c ≠ .any := by
  rw [escaped]
  split_ifs <;> simp

/-! ### Putting stars together -/

/-- The loop of `collapse_esc`, with its two flags. -/
def collapseEsc : Str → Bool → Bool → Str
  | [], _, _ => []
  | c :: s, star, quote =>
    if !quote && c == '*' then if star then collapseEsc s true quote else '*' :: collapseEsc s true
      quote
    else if !quote && c == '\\' then '\\' :: collapseEsc s star true
    else c :: collapseEsc s false false

@[simp] theorem collapseEsc_star (s : Str) (star : Bool) :
    collapseEsc ('*' :: s) star false = if star then collapseEsc s true false else '*' ::
    collapseEsc s true false := rfl

@[simp] theorem collapseEsc_escape (d : Char) (s : Str) (star : Bool) :
    collapseEsc ('\\' :: d :: s) star false = '\\' :: d :: collapseEsc s false false := rfl

theorem collapseEsc_plain (hstar : c ≠ '*') (hc : c ≠ '\\') (s : Str) (star : Bool) :
    collapseEsc (c :: s) star false = c :: collapseEsc s false false := by
  simp [collapseEsc, hstar, hc]

/-- `collapse` behind a character. -/
theorem cons_collapse (c : Char) (s : Str) :
    c :: collapse s (c == '*') = s.destutter' (Apart '*') c := by
  induction s generalizing c with
  | nil => rfl
  | cons d s ih =>
    simp only [Banlist.collapse]
    by_cases hd : d = '*'
    · subst hd
      rw [if_pos rfl]
      by_cases hc : c = '*'
      · subst hc
        rw [if_pos (by decide), destutter'_cons_neg s (by simp [Apart]), ← ih]
        rfl
      · rw [if_neg (by simpa using hc), destutter'_cons_pos s (apart_of_ne hc _), ← ih]
        rfl
    · rw [if_neg hd, destutter'_cons_pos s (fun h => hd h.2), ← ih, beq_false_of_ne hd]

/-- **Adjacent stars are put together** by `collapse`. -/
theorem collapse_eq_squeeze (s : Str) : collapse s false = squeeze '*' s := by
  cases s with
  | nil => rfl
  | cons c s =>
    rw [squeeze, destutter_cons', ← cons_collapse]
    simp only [Banlist.collapse]
    by_cases hc : c = '*'
    · subst hc
      rfl
    · rw [if_neg hc, beq_false_of_ne hc]

theorem apart_any {a b : Symbol} (hb : b ≠ .any) : Apart .any a b := fun h => hb h.2

/-- `collapse_esc` behind a symbol. -/
theorem cons_symbols_collapseEsc (a : Symbol) (s : Str) :
    a :: symbols (collapseEsc s (a == .any) false) = (symbols s).destutter' (Apart .any) a := by
  induction s using symbols.induct generalizing a with
  | case1 => rfl
  | case2 =>
    rw [symbols_dangling, destutter'_cons_pos [] (apart_any (by simp))]
    rfl
  | case3 d s ih =>
    -- what is behind a backslash is no star
    have hd : (escaped d == .any) = false := beq_false_of_ne (escaped_ne_any d)
    rw [collapseEsc_escape, symbols_escape, symbols_escape,
      destutter'_cons_pos _ (apart_any (escaped_ne_any d)), ← ih, hd]
  | case4 c s hdangling hescape ih =>
    have hc : c ≠ '\\' := by
      rintro rfl
      cases s with
      | nil => exact hdangling rfl rfl
      | cons d s => exact hescape d s rfl rfl
    rw [symbols_plain hc]
    by_cases hstar : c = '*'
    · subst hstar
      have hany : plain '*' = .any := rfl
      rw [collapseEsc_star, hany]
      by_cases ha : a = .any
      · subst ha
        rw [if_pos (by decide), destutter'_cons_neg _ (by simp [Apart]), ← ih]
        rfl
      · rw [if_neg (by simpa using ha), destutter'_cons_pos _ (apart_of_ne ha _), ← ih,
          symbols_plain (by decide)]
        rfl
    · have hplain : plain c ≠ .any := mt plain_eq_any_iff.mp hstar
      rw [collapseEsc_plain hstar hc, symbols_plain hc, destutter'_cons_pos _ (apart_any hplain),
        ← ih, beq_false_of_ne hplain]

/-- **Adjacent stars are put together** by `collapse_esc`, where a star behind a backslash is
none. -/
theorem symbols_collapseEsc (s : Str) :
    symbols (collapseEsc s false false) = squeeze .any (symbols s) := by
  have h := cons_symbols_collapseEsc .one s
  cases hs : symbols s with
  | nil =>
    rw [hs] at h
    exact (cons.inj h).2
  | cons b l =>
    rw [hs, destutter'_cons_pos l (apart_of_ne (by simp) b)] at h
    rw [squeeze, destutter_cons']
    exact (cons.inj h).2

/-- Where no stars are adjacent, and none is in front when there was one, `collapse_esc` does
nothing. -/
theorem collapseEsc_of_isChain {s : Str} {star : Bool}
    (hstar : star = true → (symbols s).head? ≠ some .any) (h : (symbols s).IsChain (Apart .any)) :
    collapseEsc s star false = s := by
  induction s using symbols.induct generalizing star with
  | case1 => rfl
  | case2 => rfl
  | case3 d s ih =>
    rw [symbols_escape] at h
    rw [collapseEsc_escape, ih (by simp) (isChain_cons.mp h).2]
  | case4 c s hdangling hescape ih =>
    have hc : c ≠ '\\' := by
      rintro rfl
      cases s with
      | nil => exact hdangling rfl rfl
      | cons d s => exact hescape d s rfl rfl
    rw [symbols_plain hc] at h hstar
    obtain ⟨hapart, hchain⟩ := isChain_cons.mp h
    by_cases hcstar : c = '*'
    · subst hcstar
      have hany : plain '*' = .any := rfl
      have hfalse : star = false := by
        by_contra hne
        exact hstar (Bool.not_eq_false _ ▸ hne) rfl
      rw [hfalse, collapseEsc_star, if_neg (by simp)]
      refine congrArg _ (ih (fun _ hhead => ?_) hchain)
      exact hapart .any (Option.mem_def.mpr hhead) ⟨hany, rfl⟩
    · rw [collapseEsc_plain hcstar hc, ih (by simp) hchain]

/-- **Collapsing masks.** What the masks stand for stays as it is, no two stars are adjacent, and
collapsing once more does nothing; for masks with escapes as well, where a star behind a backslash
stays what it is. -/
theorem collapse_spec (pattern : Str) :
    (globLanguage (collapse pattern false) = globLanguage pattern ∧
      (collapse pattern false).IsChain (Apart '*') ∧
      collapse (collapse pattern false) false = collapse pattern false) ∧
    escLanguage (collapseEsc pattern false false) = escLanguage pattern ∧
      (symbols (collapseEsc pattern false false)).IsChain (Apart .any) ∧
      (symbols (collapseEsc pattern false false)).filter (· ≠ .any) = (symbols pattern).filter
      (· ≠ .any) ∧
      collapseEsc (collapseEsc pattern false false) false false = collapseEsc pattern false
      false := by
  have hchain : (symbols (collapseEsc pattern false false)).IsChain (Apart .any) := by
    rw [symbols_collapseEsc]
    exact isChain_squeeze _
  refine ⟨⟨?_, ?_, ?_⟩, ?_, hchain, ?_, collapseEsc_of_isChain (by simp) hchain⟩
  · rw [globLanguage, collapse_eq_squeeze, language_squeeze, globLanguage]
  · rw [collapse_eq_squeeze]
    exact isChain_squeeze _
  · rw [collapse_eq_squeeze, collapse_eq_squeeze, squeeze_of_isChain (isChain_squeeze _)]
  · rw [escLanguage, symbols_collapseEsc, language_squeeze, escLanguage]
  · rw [symbols_collapseEsc, filter_squeeze]

end Ratbox.Escapes
