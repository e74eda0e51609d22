import Ratbox.Budget
import Ratbox.Escapes.Basic

/-!
# Matching masks with escapes

The loop of `match_esc` reads a mask symbol by symbol. As in `match`, what is left of the mask
stands for what is left of the name, or the mask behind the last star stands for a later part of it,
and turns leave this as it is. Three turns do not. At the end of the mask, a star that is looked for
in front of characters `?` may be one that is escaped; the next character of the name is compared
with the backslash when the mask behind the last star begins with one; and a backslash that is the
last character of the mask is taken for nothing.

Source: `src/match.c`, lines 202–315.

## Main definitions

* `Escapes.EscEnds`: `match_esc` does not give up.
* `Escapes.Shorter`: a beginning of the name matches.
* `Escapes.Skips`: places of the name are passed over.
* `Escapes.Right`: the end of the mask is taken for what it is.

## Main results

* `Escapes.Turned.of_inv`: what a turn can do.
* `Escapes.matchEsc_rest`, `Escapes.matchEsc_any`, `Escapes.matchEsc_dangling`: what `match_esc`
  finds out, by the end of the mask.
* `Escapes.matchEsc_iff`: when `match_esc` finds out whether a name matches.
-/

namespace Ratbox.Escapes

open Text Match Glob Option

instance : DecidableRel Symbol.Takes := fun _ _ => inferInstance

/-! ### The end of a mask -/

/-- The symbols of a mask, without a backslash that has nothing to escape. -/
def body (mask : Str) : List Symbol := (symbols mask).filter (· ≠ .dangling)

/-- The mask behind its last star. -/
def lastPiece : Str → Option Str
  | [] => none
  | ['\\'] => none
  | '\\' :: _ :: s => lastPiece s
  | c :: s => if c = '*' then some ((lastPiece s).getD s) else lastPiece s

/-- The mask ends with a star that is escaped, or with characters `?` behind it. -/
def starEnd : Str → Bool
  | [] => false
  | ['\\'] => false
  | '\\' :: d :: s => (d == '*' && s.all (· == '?')) || starEnd s
  | _ :: s => starEnd s

section Loop

variable (mask name : Str)

/-- A beginning of the name matches, which is not the whole name. -/
def Shorter : Prop := ∃ k < name.length, name.take k ∈ language .any Symbol.Takes (body mask)

/-- The loop of `match_esc` comes to an end, with the turns that are left. -/
def escEndsLoop : ℕ → EscCursor → Bool
  | 0, _ => false
  | calls + 1, s =>
    match escTurn mask name s with
    | .inl _ => true
    | .inr s => escEndsLoop calls s

/-- `match_esc` does not give up. -/
def EscEnds : Prop := mask = ['*'] ∨ escEndsLoop mask name 512 ⟨⟨0, 0, 0, 0, false⟩, 0⟩ = true

instance : Decidable (EscEnds mask name) := inferInstanceAs (Decidable (_ ∨ _))

/-- The mask that is left, with a backslash that was read. -/
def left (s : EscCursor) : Str := if s.quote = 1 then '\\' :: mask.drop s.m else mask.drop s.m

end Loop

section Symbols

variable {s t : Str} {c d : Char}

theorem escaped_ne_dangling (c : Char) : escaped c ≠ .dangling := by
  rw [escaped]
  split_ifs <;> simp

theorem plain_ne_dangling (c : Char) : plain c ≠ .dangling := by
  rw [plain]
  split_ifs <;> simp

@[simp] theorem body_escape (d : Char) (s : Str) : body ('\\' :: d :: s) = escaped d :: body s := by
  rw [body, symbols_escape, List.filter_cons_of_pos (by simpa using escaped_ne_dangling d), body]

theorem body_plain (hc : c ≠ '\\') (s : Str) : body (c :: s) = plain c :: body s := by
  rw [body, symbols_plain hc, List.filter_cons_of_pos (by simpa using plain_ne_dangling c), body]

/-- A mask is read up to what is left of it. -/
inductive Reads : Str → Str → Prop
  | refl (t : Str) : Reads t t
  | escape (d : Char) {s t : Str} (h : Reads s t) : Reads ('\\' :: d :: s) t
  | plain {c : Char} {s t : Str} (hc : c ≠ '\\') (h : Reads s t) : Reads (c :: s) t

theorem Reads.trans {u : Str} (h : Reads s t) (ht : Reads t u) : Reads s u := by
  induction h with
  | refl => exact ht
  | escape d _ ih => exact .escape d (ih ht)
  | plain hc _ ih => exact .plain hc (ih ht)

theorem Reads.step_escape (h : Reads s ('\\' :: d :: t)) : Reads s t :=
  h.trans (.escape d (.refl t))

theorem Reads.step_plain (hc : c ≠ '\\') (h : Reads s (c :: t)) : Reads s t :=
  h.trans (.plain hc (.refl t))

/-- What was read are symbols that escape something. -/
theorem Reads.symbols_eq (h : Reads s t) : ∃ f, symbols s = f ++ symbols t ∧ .dangling ∉ f := by
  induction h with
  | refl => exact ⟨[], rfl, List.not_mem_nil⟩
  | escape d _ ih =>
    obtain ⟨f, hf, hdangling⟩ := ih
    refine ⟨escaped d :: f, by rw [symbols_escape, hf, List.cons_append], ?_⟩
    exact List.not_mem_cons_of_ne_of_not_mem (escaped_ne_dangling d).symm hdangling
  | @plain c s t hc _ ih =>
    obtain ⟨f, hf, hdangling⟩ := ih
    refine ⟨Escapes.plain c :: f, by rw [symbols_plain hc, hf, List.cons_append], ?_⟩
    exact List.not_mem_cons_of_ne_of_not_mem (plain_ne_dangling c).symm hdangling

/-- Of two places that are read, one comes first. -/
theorem Reads.total {u : Str} (h : Reads s t) (hu : Reads s u) : Reads t u ∨ Reads u t := by
  induction h with
  | refl => exact .inl hu
  | escape d h ih =>
    cases hu with
    | refl => exact .inr (.escape d h)
    | escape _ hu => exact ih hu
    | plain hc _ => exact absurd rfl hc
  | plain hc h ih =>
    cases hu with
    | refl => exact .inr (.plain hc h)
    | escape => exact absurd rfl hc
    | plain _ hu => exact ih hu

theorem Reads.lastPiece_eq {q : Str} (h : Reads s t) (hq : lastPiece t = some q) :
    lastPiece s = some q := by
  induction h with
  | refl => exact hq
  | escape d _ ih => exact ih hq
  | @plain c s t hc _ ih =>
    rw [lastPiece]
    · rw [ih hq]
      split_ifs <;> rfl
    · rintro rfl
      exact absurd rfl hc
    · rintro _ _ rfl
      exact absurd rfl hc

end Symbols

/-! ### Single turns -/

/-- The next characters, behind what a backslash escapes. -/
def next (s : EscCursor) : EscCursor := ⟨s.toCursor.advance, if s.quote = 1 then 2 else 0⟩

/-- The place behind the last star, and the next character of the name. -/
def back (s : EscCursor) : EscCursor := ⟨s.toCursor.restart, if s.quote = 1 then 2 else 0⟩

/-- The place behind stars. -/
def pass (mask : Str) (s : EscCursor) : EscCursor :=
  ⟨⟨skipStars mask s.m, s.n, skipStars mask s.m, s.n, true⟩, 0⟩

section Turns

variable {mask name : Str} {s : EscCursor} {c : Char}

/-- A character of the mask that is no star and no backslash, or is escaped. -/
inductive At (mask : Str) (s : EscCursor) (c : Char) : Symbol → Prop
  | escaped (hquote : s.quote = 1) (hc : mask[s.m]? = some c) : At mask s c (escaped c)
  | plain (hquote : s.quote = 0 ∨ s.quote = 2) (hc : mask[s.m]? = some c) (hstar : c ≠ '*')
    (hback : c ≠ '\\') :
      At mask s c (plain c)

theorem escTurn_escape (hquote : s.quote = 0 ∨ s.quote = 2) (hc : mask[s.m]? = some '\\') :
    escTurn mask name s = .inr ⟨{ s.toCursor with m := s.m + 1 }, 1⟩ := by
  rw [escTurn]
  simp [hquote, hc]

theorem escTurn_star (hquote : s.quote = 0 ∨ s.quote = 2) (hc : mask[s.m]? = some '*') :
    escTurn mask name s =
      if mask[skipStars mask s.m]? = some '\\' ∧ mask[skipStars mask s.m + 1]? = none then
      .inl false else escTurn mask name (pass mask s) := by
  have hnext : mask[skipStars mask s.m]? ≠ some '*' := passStars_ne mask s.toCursor |> fun h => by
    rwa [passStars, if_pos hc] at h
  rw [escTurn, escTurn]
  simp only [hquote, hc, pass, true_or, if_true, hnext, and_false, if_false]
  by_cases hback : mask[skipStars mask s.m]? = some '\\'
  · by_cases hend : mask[skipStars mask s.m + 1]? = none
    · simp [hback, hend]
    · simp [hback, hend]
  · simp [hback]

theorem compare_of_takes {t : EscCursor} {a : Symbol} {d : Char} (hc : mask[t.m]? = some c)
    (hd : name[t.n]? = some d)
    (ha : t.quote ≠ 0 ∧ a = escaped c ∨ t.quote = 0 ∧ c ≠ '*' ∧ a = plain c) :
      escCompare mask name t = if a.Takes d then .inr ⟨t.toCursor.advance, t.quote⟩
      else if t.wild then .inr ⟨t.toCursor.restart, t.quote⟩ else .inl false := by
  have hmatch : (if t.quote ≠ 0 then
      if mask[t.m]? = some 's' then name[t.n]? == some ' '
      else (mask[t.m]?).map toLower == (name[t.n]?).map toLower
    else if mask[t.m]? = some '?' then true
    else if mask[t.m]? = some '@' then (name[t.n]?).any Char.isAlpha
    else if mask[t.m]? = some '#' then (name[t.n]?).any isDigit
    else (mask[t.m]?).map toLower == (name[t.n]?).map toLower) = decide (a.Takes d) := by
    rw [hc, hd]
    obtain ⟨hq, rfl⟩ | ⟨hq, hstar, rfl⟩ := ha
    · rw [if_pos hq, escaped]
      by_cases hs : c = 's'
      · simp [hs, Symbol.Takes, beq_eq_decide]
      · simp [hs, Symbol.Takes, beq_eq_decide]
    · rw [if_neg (not_not.mpr hq), plain, if_neg hstar]
      by_cases hone : c = '?'
      · simp [hone, Symbol.Takes]
      · by_cases hletter : c = '@'
        · simp [hletter, Symbol.Takes]
        · by_cases hdigit : c = '#'
          · simp [hdigit, Symbol.Takes]
          · simp [hone, hletter, hdigit, Symbol.Takes, beq_eq_decide]
  rw [escCompare, hmatch, hc, hd]
  by_cases htakes : a.Takes d
  · simp [htakes, Cursor.advance]
  · simp [htakes, Cursor.restart]

/-- **A symbol** is compared with the next character. -/
theorem escTurn_symbol {a : Symbol} (hat : At mask s c a) : escTurn mask name s =
    match name[s.n]? with
    | none => .inl false
    | some d => if a.Takes d then .inr (next s) else if s.wild then .inr (back s)
    else .inl false := by
  cases hat with
  | escaped hquote hc =>
    have hends : escTurn mask name s = escEnds mask name ⟨s.toCursor, 2⟩ := by
      rw [escTurn]
      simp [hquote]
    rw [hends, escEnds, if_neg (by simp [hc])]
    cases hd : name[s.n]? with
    | none => simp
    | some d =>
      rw [if_neg (by simp), compare_of_takes (t := ⟨s.toCursor, 2⟩) hc hd (.inl ⟨by simp, rfl⟩)]
      simp [next, back, hquote]
  | plain hquote hc hstar hback =>
    have hne : s.quote ≠ 1 := by omega
    have hends : escTurn mask name s = escEnds mask name ⟨s.toCursor, 0⟩ := by
      rw [escTurn]
      simp [hquote, hc, hstar, hback]
    rw [hends, escEnds, if_neg (by simp [hc])]
    cases hd : name[s.n]? with
    | none =>
      have hskip : skipStars mask s.m = s.m := skipStars_eq (by simpa [hc] using hstar)
      simp [hskip, hc]
    | some d =>
      rw [if_neg (by simp), compare_of_takes (t := ⟨s.toCursor, 0⟩) hc hd (.inr ⟨rfl, hstar, rfl⟩)]
      simp [next, back, hne]

theorem escTurn_dangling (hquote : s.quote = 1) (hm : mask[s.m]? = none) :
    escTurn mask name s = .inl (decide (name[s.n]? = none)) := by
  have hends : escTurn mask name s = escEnds mask name ⟨s.toCursor, 2⟩ := by
    rw [escTurn]
    simp [hquote]
  rw [hends, escEnds, if_pos hm]
  by_cases hn : name[s.n]? = none <;> simp [hn]

/-- At the end of the mask, the loop goes back unless there is a star in front of the end. -/
theorem escTurn_end (hquote : s.quote = 0 ∨ s.quote = 2) (hm : mask[s.m]? = none) :
    escTurn mask name s = if name[s.n]? = none then .inl true
    else if openEnd mask s.m then .inl true
    else if s.wild then escCompare mask name ⟨s.toCursor.restart, 0⟩ else .inl false := by
  have hends : escTurn mask name s = escEnds mask name ⟨s.toCursor, 0⟩ := by
    rw [escTurn]
    simp [hquote, hm]
  rw [hends, escEnds, if_pos hm]
  simp [Cursor.restart]

end Turns

/-! ### What is left -/

section Rest

variable (mask name : Str)

/-- What is left of the mask, with some symbols behind it, stands for what is left of the name, or
what is behind the last star does for a later part of it. -/
def EscRest (z : List Symbol) (s : EscCursor) : Prop :=
  Stands .any Symbol.Takes (body (left mask s) ++ z) (name.drop s.n) ∨
    (s.wild = true ∧
      ∃ j, s.na < j ∧ j ≤ name.length ∧ Stands .any Symbol.Takes (body (mask.drop s.ma) ++ z)
        (name.drop j))

/-- What was compared since the last star. -/
structure Inv (s : EscCursor) : Prop where
  quote : s.quote ≤ 2
  place : s.m ≤ mask.length ∧ s.ma ≤ mask.length
  le : s.na ≤ name.length
  reads : Reads mask (left mask s)
  along : ∃ p, symbols (mask.drop s.ma) = p ++ symbols (left mask s) ∧ s.n = s.na + p.length ∧
    .any ∉ p ∧ common Symbol.Takes p (name.drop s.na) = p.length
  star : s.wild = true → Reads mask ('*' :: mask.drop s.ma) ∧ mask.drop s.ma ≠ ['\\']
  start : s.wild = false → s.ma = 0 ∧ s.na = 0

end Rest

section Invariant

variable {mask name : Str} {s : EscCursor} {a : Symbol} {c d : Char} {z : List Symbol}

theorem At.ne_any (hat : At mask s c a) : a ≠ .any := by
  cases hat with
  | escaped => exact escaped_ne_any c
  | plain _ _ hstar => exact mt plain_eq_any_iff.mp hstar

theorem At.lt (hat : At mask s c a) : s.m + 1 ≤ mask.length := by
  cases hat with
  | escaped _ hc => exact (List.getElem?_eq_some_iff.mp hc).1
  | plain _ hc => exact (List.getElem?_eq_some_iff.mp hc).1

theorem left_of_ne (hquote : s.quote ≠ 1) : left mask s = mask.drop s.m := if_neg hquote

/-- The mask that is left begins with the symbol. -/
theorem At.left_eq (hat : At mask s c a) : symbols (left mask s) = a :: symbols
    (left mask (next s)) ∧ body (left mask s) = a :: body (left mask (next s)) ∧
    (Reads mask (left mask s) → Reads mask (left mask (next s))) := by
  have hnext : left mask (next s) = mask.drop (s.m + 1) := by
    refine left_of_ne ?_
    rw [next]
    dsimp only
    split_ifs <;> simp
  rw [hnext]
  cases hat with
  | escaped hquote hc =>
    rw [left, if_pos hquote, drop_eq_cons hc]
    exact ⟨symbols_escape _ _, body_escape _ _, Reads.step_escape⟩
  | plain hquote hc hstar hback =>
    rw [left, if_neg (by omega), drop_eq_cons hc]
    exact ⟨symbols_plain hback _, body_plain hback _, Reads.step_plain hback⟩

/-- What was compared, without a backslash that has nothing to escape. -/
theorem Inv.along_body (h : Inv mask name s) : ∃ p, body (mask.drop s.ma) = p ++
    body (left mask s) ∧ s.n = s.na + p.length ∧ .any ∉ p ∧ common Symbol.Takes p (name.drop s.na) =
    p.length := by
  obtain ⟨p, hp, hn, hany, hcommon⟩ := h.along
  refine ⟨p, ?_, hn, hany, hcommon⟩
  have hself : p.filter (· ≠ .dangling) = p := by
    rw [List.filter_eq_self]
    intro a ha
    obtain ⟨d, hd⟩ := exists_of_common hcommon a ha
    simp only [ne_eq, decide_not, Bool.not_eq_true', decide_eq_false_iff_not]
    rintro rfl
    exact hd
  rw [body, hp, List.filter_append, hself, body]

theorem Inv.n_le (h : Inv mask name s) : s.n ≤ name.length := by
  obtain ⟨p, -, hn, -, hcommon⟩ := h.along
  have hle := (common_le Symbol.Takes p (name.drop s.na)).2
  have hna := h.le
  rw [hcommon, List.length_drop] at hle
  omega

/-- At the end of the name, nothing is left for a later part. -/
theorem Inv.not_later (h : Inv mask name s) (hn : name.drop s.n = []) {j : ℕ} (hj : s.na < j)
    (hle : j ≤ name.length) :
    ¬Stands .any Symbol.Takes (body (mask.drop s.ma) ++ z) (name.drop j) := by
  obtain ⟨p, hp, hplace, hany, -⟩ := h.along_body
  intro hstands
  rw [hp, List.append_assoc, stands_append hany] at hstands
  have hlen := (common_le Symbol.Takes p (name.drop j)).2
  rw [hstands.1, List.length_drop] at hlen
  have hend := List.drop_eq_nil_iff.mp hn
  omega

/-- At the end of the name, a symbol has nothing to take. -/
theorem Inv.not_rest (h : Inv mask name s) (hat : At mask s c a) (hn : name.drop s.n = []) :
    ¬EscRest mask name z s := by
  rintro (hstands | ⟨-, j, hj, hle, hstands⟩)
  · rw [hat.left_eq.2.1, hn] at hstands
    exact not_cons_nil hat.ne_any hstands
  · exact h.not_later hn hj hle hstands

/-- A character that the symbol takes. -/
theorem rest_next (hat : At mask s c a) (hd : name[s.n]? = some d) (htakes : a.Takes d) :
    EscRest mask name z (next s) ↔ EscRest mask name z s := by
  refine or_congr_left ?_
  rw [hat.left_eq.2.1, drop_eq_cons hd, List.cons_append, cons_iff hat.ne_any, and_iff_right htakes]
  rfl

theorem Inv.next (h : Inv mask name s) (hat : At mask s c a) (hd : name[s.n]? = some d)
    (htakes : a.Takes d) :
    Inv mask name (next s) := by
  obtain ⟨p, hp, hn, hany, hcommon⟩ := h.along
  refine ⟨?_, ⟨hat.lt, h.place.2⟩, h.le, hat.left_eq.2.2 h.reads, ⟨p ++ [a], ?_, ?_, ?_, ?_⟩,
    h.star, h.start⟩
  · rw [Escapes.next]
    dsimp only
    split_ifs <;> simp
  · rw [List.append_assoc, List.singleton_append, ← hat.left_eq.1]
    exact hp
  · rw [List.length_append, List.length_singleton, ← Nat.add_assoc]
    exact congrArg (· + 1) hn
  · simpa [hany] using hat.ne_any.symm
  · refine common_append hcommon htakes (t := name.drop (s.n + 1)) ?_
    rw [List.drop_drop]
    exact hn ▸ drop_eq_cons hd

/-- A character that the symbol does not take: only a later part is left. -/
theorem rest_of_not_takes (hat : At mask s c a) (hd : name[s.n]? = some d) (htakes : ¬a.Takes d) :
    EscRest mask name z s ↔ s.wild = true ∧
      ∃ j, s.na < j ∧ j ≤ name.length ∧ Stands .any Symbol.Takes (body (mask.drop s.ma) ++ z)
      (name.drop j) := by
  refine or_iff_right fun hstands => ?_
  rw [hat.left_eq.2.1, drop_eq_cons hd, List.cons_append, cons_iff hat.ne_any] at hstands
  exact htakes hstands.1

theorem left_back (s : EscCursor) : left mask (back s) = mask.drop s.ma := by
  refine left_of_ne ?_
  rw [back]
  dsimp only
  split_ifs <;> simp

theorem rest_back (hwild : s.wild = true) (hna : s.na + 1 ≤ name.length) :
    EscRest mask name z (back s) ↔ s.wild = true ∧
      ∃ j, s.na < j ∧ j ≤ name.length ∧ Stands .any Symbol.Takes (body (mask.drop s.ma) ++ z)
      (name.drop j) := by
  rw [and_iff_right hwild, EscRest, left_back]
  constructor
  · rintro (hstands | ⟨-, j, hj, hle, hstands⟩)
    · exact ⟨s.na + 1, Nat.lt_succ_self _, hna, hstands⟩
    · exact ⟨j, Nat.lt_of_succ_lt hj, hle, hstands⟩
  · rintro ⟨j, hj, hle, hstands⟩
    obtain rfl | hlt := Nat.eq_or_lt_of_le (Nat.succ_le_of_lt hj)
    · exact .inl hstands
    · exact .inr ⟨hwild, j, hlt, hle, hstands⟩

theorem Inv.back (h : Inv mask name s) (hwild : s.wild = true) (hna : s.na + 1 ≤ name.length) :
    Inv mask name (back s) := by
  refine ⟨?_, ⟨h.place.2, h.place.2⟩, hna, ?_, ⟨[], ?_, rfl, List.not_mem_nil, by simp [common]⟩,
    h.star, fun hfalse => ?_⟩
  · rw [Escapes.back]
    dsimp only
    split_ifs <;> simp
  · rw [left_back]
    exact (h.star hwild).1.step_plain (by decide)
  · rw [left_back]
    rfl
  · cases hwild.symm.trans hfalse

/-- A backslash that is read. -/
theorem left_escape (hquote : s.quote ≠ 1) (hc : mask[s.m]? = some '\\') :
    left mask ⟨{ s.toCursor with m := s.m + 1 }, 1⟩ = left mask s := by
  rw [left_of_ne hquote, drop_eq_cons hc]
  rfl

theorem Inv.escape (h : Inv mask name s) (hquote : s.quote ≠ 1) (hc : mask[s.m]? = some '\\') :
    Inv mask name ⟨{ s.toCursor with m := s.m + 1 }, 1⟩ := by
  have hleft := left_escape hquote hc
  refine ⟨by simp, ⟨(List.getElem?_eq_some_iff.mp hc).1, h.place.2⟩, h.le, ?_, ?_, h.star, h.start⟩
  · rw [hleft]
    exact h.reads
  · rw [hleft]
    exact h.along

/-- Stars that are passed over. -/
theorem drop_skipStars {t : Str} (hstar : mask.drop s.m = '*' :: t) :
    mask.drop (skipStars mask s.m) = t.dropWhile (· == '*') := by
  rw [skipStars, ← List.drop_drop, hstar, List.takeWhile_cons_of_pos (by decide), List.length_cons,
    List.drop_succ_cons]
  have hsplit := List.takeWhile_append_dropWhile (p := (· == '*')) (l := t)
  have hleft := congrArg (List.drop (t.takeWhile (· == '*')).length) hsplit
  rw [List.drop_left] at hleft
  exact hleft.symm

/-- Several stars are one star. -/
theorem dropWhile_stars (t : Str) : Reads ('*' :: t) ('*' :: t.dropWhile (· == '*')) ∧
    ∀ r, Stands .any Symbol.Takes (body ('*' :: t) ++ z) r ↔
      Stands .any Symbol.Takes (.any :: (body (t.dropWhile (· == '*')) ++ z)) r := by
  have hbody : ∀ t, body ('*' :: t) = .any :: body t := fun t => body_plain (by decide) t
  induction t with
  | nil => exact ⟨.refl _, fun r => by rw [hbody]; rfl⟩
  | cons c t ih =>
    by_cases hc : c = '*'
    · subst hc
      rw [List.dropWhile_cons_of_pos (by decide)]
      refine ⟨.plain (by decide) ih.1, fun r => ?_⟩
      rw [hbody, hbody, List.cons_append, List.cons_append, star_star, ← List.cons_append, ← hbody,
        ih.2]
    · rw [List.dropWhile_cons_of_neg (by simpa using hc)]
      exact ⟨.refl _, fun r => by rw [hbody]; rfl⟩

theorem left_pass : left mask (pass mask s) = mask.drop (skipStars mask s.m) :=
  left_of_ne (by simp [pass])

/-- Passing over stars leaves what is left. -/
theorem Inv.rest_pass (h : Inv mask name s) (hquote : s.quote ≠ 1) (hc : mask[s.m]? = some '*') :
    EscRest mask name z (pass mask s) ↔ EscRest mask name z s := by
  have hdrop := drop_eq_cons hc
  have hpass := (dropWhile_stars (z := z) (mask.drop (s.m + 1))).2
  rw [← drop_skipStars hdrop, ← hdrop] at hpass
  have hstands : EscRest mask name z s ↔ Stands .any Symbol.Takes (body (left mask s) ++ z)
      (name.drop s.n) := by
    refine or_iff_left_of_imp ?_
    rintro ⟨-, j, hj, hle, hlate⟩
    obtain ⟨p, hp, hn, hany, -⟩ := h.along_body
    rw [hp, List.append_assoc, stands_append hany, left_of_ne hquote, hpass,
      List.drop_drop] at hlate
    rw [left_of_ne hquote, hpass]
    refine Stands.of_drop (j := j - s.na) ?_
    have heq : s.n + (j - s.na) = j + p.length := by omega
    rw [List.drop_drop, heq]
    exact hlate.2
  rw [hstands, left_of_ne hquote, hpass, star_iff, EscRest, left_pass]
  have hle := h.n_le
  simp only [pass, List.drop_drop, true_and, List.length_drop]
  constructor
  · rintro (hnow | ⟨j, hj, hjle, hlate⟩)
    · exact ⟨0, Nat.zero_le _, hnow⟩
    · refine ⟨j - s.n, by omega, ?_⟩
      rwa [Nat.add_sub_cancel' hj.le]
  · rintro ⟨j, hj, hlate⟩
    cases j with
    | zero => exact .inl hlate
    | succ j => exact .inr ⟨s.n + (j + 1), by omega, by omega, hlate⟩

theorem Inv.pass (h : Inv mask name s) (hquote : s.quote ≠ 1) (hc : mask[s.m]? = some '*')
    (hdangling : mask.drop (skipStars mask s.m) ≠ ['\\']) : Inv mask name (pass mask s) := by
  have hdrop := drop_eq_cons hc
  have hreads := h.reads
  rw [left_of_ne hquote, hdrop] at hreads
  have hstar : Reads mask ('*' :: mask.drop (skipStars mask s.m)) := by
    rw [drop_skipStars hdrop]
    exact hreads.trans (dropWhile_stars (z := []) _).1
  have hle : skipStars mask s.m ≤ mask.length := by
    have hlen := (List.takeWhile_prefix (l := mask.drop s.m) (· == '*')).length_le
    have hm := h.place.1
    rw [List.length_drop] at hlen
    rw [skipStars]
    omega
  refine ⟨by simp [Escapes.pass], ⟨hle, hle⟩, h.n_le, ?_,
    ⟨[], ?_, rfl, List.not_mem_nil, by simp [common]⟩, fun _ => ⟨hstar, hdangling⟩, by
      simp [Escapes.pass]⟩
  · rw [left_pass]
    exact hstar.step_plain (by decide)
  · rw [left_pass]
    rfl

end Invariant

/-! ### What a turn can do -/

section Turned

variable {mask name : Str} {s : EscCursor} {a : Symbol} {c : Char} {z : List Symbol}

/-- What comes of a turn. -/
inductive Turned (mask name : Str) (s : EscCursor) : Bool ⊕ EscCursor → Prop
  | go {s' : EscCursor} (hinv : Inv mask name s')
      (hrest : ∀ z, EscRest mask name z s' ↔ EscRest mask name z s) :
      Turned mask name s (.inr s')
  | fail (hrest : ∀ z, ¬EscRest mask name z s) : Turned mask name s (.inl false)
  | stop {e : EscCursor} (hinv : Inv mask name e) (hquote : e.quote = 0 ∨ e.quote = 2)
      (hm : mask[e.m]? = none)
      (hrest : ∀ z, EscRest mask name z e ↔ EscRest mask name z s) :
        Turned mask name s (escTurn mask name e)
  | dangling (hquote : s.quote = 1) (hm : mask[s.m]? = none) :
    Turned mask name s (.inl (decide (name[s.n]? = none)))
  | starDangling (h : Reads mask ['*', '\\']) : Turned mask name s (.inl false)

/-- A symbol is compared. -/
theorem Inv.symbol (h : Inv mask name s) (hat : At mask s c a) :
    (∃ s', escTurn mask name s = .inr s' ∧ Inv mask name s' ∧ ∀ z, EscRest mask name z s' ↔
      EscRest mask name z s) ∨ (escTurn mask name s = .inl false ∧
      ∀ z, ¬EscRest mask name z s) := by
  rw [escTurn_symbol hat]
  cases hd : name[s.n]? with
  | none => exact .inr ⟨rfl, fun z => h.not_rest hat (drop_eq_nil hd)⟩
  | some d =>
    dsimp only
    split_ifs with htakes hwild
    · exact .inl ⟨_, rfl, h.next hat hd htakes, fun z => rest_next hat hd htakes⟩
    · have hna : s.na + 1 ≤ name.length := by
        obtain ⟨p, -, hn, -⟩ := h.along
        have hlt := (List.getElem?_eq_some_iff.mp hd).1
        omega
      exact .inl ⟨_, rfl, h.back hwild hna, fun z =>
        (rest_back hwild hna).trans (rest_of_not_takes hat hd htakes).symm⟩
    · exact .inr ⟨rfl, fun z hrest => hwild ((rest_of_not_takes hat hd htakes).mp hrest).1⟩

theorem Inv.turned_symbol (h : Inv mask name s) (hat : At mask s c a) :
    Turned mask name s (escTurn mask name s) := by
  obtain ⟨s', hturn, hinv, hrest⟩ | ⟨hturn, hrest⟩ := h.symbol hat
  · rw [hturn]
    exact .go hinv hrest
  · rw [hturn]
    exact .fail hrest

/-- A turn that begins with no star. -/
theorem Inv.turned_of_ne (h : Inv mask name s) (hstar : s.quote ≠ 1 → mask[s.m]? ≠ some '*') :
    Turned mask name s (escTurn mask name s) := by
  have hle := h.quote
  by_cases hquote : s.quote = 1
  · cases hm : mask[s.m]? with
    | none =>
      rw [escTurn_dangling hquote hm]
      exact .dangling hquote hm
    | some c => exact h.turned_symbol (.escaped hquote hm)
  · have hquote' : s.quote = 0 ∨ s.quote = 2 := by omega
    cases hm : mask[s.m]? with
    | none => exact .stop h hquote' hm fun z => Iff.rfl
    | some c =>
      by_cases hback : c = '\\'
      · subst hback
        rw [escTurn_escape hquote' hm]
        refine .go (h.escape hquote hm) fun z => ?_
        rw [EscRest, EscRest, left_escape hquote hm]
      · refine h.turned_symbol (.plain hquote' hm ?_ hback)
        rintro rfl
        exact hstar hquote hm

/-- **A turn of `match_esc`.** -/
theorem Turned.of_inv (h : Inv mask name s) : Turned mask name s (escTurn mask name s) := by
  by_cases hstar : s.quote ≠ 1 ∧ mask[s.m]? = some '*'
  · obtain ⟨hquote, hc⟩ := hstar
    have hle := h.quote
    rw [escTurn_star (by omega) hc]
    split_ifs with hend
    · have hreads := h.reads
      rw [left_of_ne hquote, drop_eq_cons hc] at hreads
      refine .starDangling ?_
      have hdrop := drop_skipStars (drop_eq_cons hc)
      rw [drop_eq_cons hend.1, drop_eq_nil hend.2] at hdrop
      rw [hdrop]
      exact hreads.trans (dropWhile_stars (z := []) _).1
    · have hdangling : mask.drop (skipStars mask s.m) ≠ ['\\'] := by
        intro hdrop
        refine hend ⟨getElem?_of_drop hdrop, List.getElem?_eq_none (List.drop_eq_nil_iff.mp ?_)⟩
        exact drop_succ_of_drop hdrop
      have hnext : mask[skipStars mask s.m]? ≠ some '*' := by
        have hne := passStars_ne mask s.toCursor
        rwa [passStars, if_pos hc] at hne
      have hrest : ∀ z, EscRest mask name z (pass mask s) ↔ EscRest mask name z s :=
        fun z => h.rest_pass hquote hc
      have hturned := (h.pass hquote hc hdangling).turned_of_ne fun _ => hnext
      generalize escTurn mask name (pass mask s) = r at hturned ⊢
      cases hturned with
      | go hinv hgo => exact .go hinv fun z => (hgo z).trans (hrest z)
      | fail hfail => exact .fail fun z => mt (hrest z).mpr (hfail z)
      | stop hinv hquote hm hstop => exact .stop hinv hquote hm fun z => (hstop z).trans (hrest z)
      | dangling hq => exact absurd hq (by simp [pass])
      | starDangling hreads => exact .starDangling hreads
  · exact h.turned_of_ne fun hquote hc => hstar ⟨hquote, hc⟩

end Turned

/-! ### The end of the mask -/

section End

variable {mask name : Str} {s e : EscCursor} {c : Char} {z : List Symbol}

theorem Reads.suffix {t u : Str} (h : Reads t u) : u <:+ t := by
  induction h with
  | refl => exact List.suffix_refl _
  | escape d _ ih => exact ih.trans ((List.suffix_cons _ _).trans (List.suffix_cons _ _))
  | plain _ _ ih => exact ih.trans (List.suffix_cons _ _)

theorem symbols_star (t : Str) : symbols ('*' :: t) = .any :: symbols t :=
  symbols_plain (by decide) t

/-- What is read up to a star has one. -/
theorem Reads.any_mem {t u : Str} (h : Reads t ('*' :: u)) : .any ∈ symbols t := by
  obtain ⟨f, hf, -⟩ := h.symbols_eq
  rw [hf, symbols_star]
  simp

theorem lastPiece_eq_none {t : Str} (h : .any ∉ symbols t) : lastPiece t = none := by
  induction t using symbols.induct with
  | case1 => rfl
  | case2 => rfl
  | case3 d t ih => exact ih (List.not_mem_of_not_mem_cons h)
  | case4 c t hdangling hescape ih =>
    have hc : c ≠ '\\' := by
      rintro rfl
      cases t with
      | nil => exact hdangling rfl rfl
      | cons d t => exact hescape d t rfl rfl
    rw [symbols_plain hc, List.mem_cons, not_or] at h
    rw [lastPiece]
    · rw [if_neg fun hstar => h.1 (plain_eq_any_iff.mpr hstar).symm, ih h.2]
    · exact hdangling
    · exact hescape

/-- The end of a mask is open behind a star. -/
theorem exists_of_openEnd (h : openEnd mask mask.length = true) :
    ∃ a q, mask = a ++ '*' :: q ∧ a ≠ [] ∧ ∀ c ∈ q, c = '?' := by
  simp only [openEnd, Bool.and_eq_true, decide_eq_true_eq, beq_iff_eq] at h
  obtain ⟨⟨hpos, hback⟩, hat⟩ := h
  obtain ⟨hle, hbetween⟩ := backOver_spec mask (mask.length - 1)
  refine ⟨mask.take (backOver mask (mask.length - 1)), mask.drop (backOver mask (mask.length - 1) +
    1), ?_, ?_, ?_⟩
  · rw [← drop_eq_cons hat, List.take_append_drop]
  · rw [ne_eq, List.take_eq_nil_iff, not_or]
    exact ⟨hback.ne', List.ne_nil_of_length_pos hpos⟩
  · intro c hc
    obtain ⟨i, hi⟩ := List.mem_iff_getElem?.mp hc
    rw [List.getElem?_drop] at hi
    have hlt := (List.getElem?_eq_some_iff.mp hi).1
    exact some.inj (hi.symm.trans (hbetween _ (by omega) (by omega)))

/-- If it is not escaped, the star is one of the mask. -/
theorem reads_of_starEnd {a q : Str} (h : starEnd (a ++ '*' :: q) = false) (hq : ∀ c ∈ q, c = '?') :
    Reads (a ++ '*' :: q) ('*' :: q) := by
  induction a using symbols.induct with
  | case1 => exact .refl _
  | case2 =>
    have hall : q.all (· == '?') = true := List.all_eq_true.mpr fun c hc => beq_iff_eq.mpr (hq c hc)
    simp [starEnd, hall] at h
  | case3 d a ih =>
    rw [List.cons_append, List.cons_append, starEnd, Bool.or_eq_false_iff] at h
    exact .escape d (ih h.2)
  | case4 c a hdangling hescape ih =>
    have hc : c ≠ '\\' := by
      rintro rfl
      cases a with
      | nil => exact hdangling rfl rfl
      | cons d a => exact hescape d a rfl rfl
    refine .plain hc (ih ?_)
    rw [List.cons_append, starEnd] at h
    · exact h
    · rintro rfl
      exact absurd rfl hc
    · rintro _ _ rfl
      exact absurd rfl hc

/-- If it is, the end of the mask is open all the same. -/
theorem openEnd_of_starEnd (h : starEnd mask = true) : openEnd mask mask.length = true := by
  have hform : ∃ a q, mask = a ++ '*' :: q ∧ a ≠ [] ∧ ∀ c ∈ q, c = '?' := by
    induction mask using symbols.induct with
    | case1 => simp [starEnd] at h
    | case2 => simp [starEnd] at h
    | case3 d t ih =>
      rw [starEnd, Bool.or_eq_true, Bool.and_eq_true, beq_iff_eq, List.all_eq_true] at h
      obtain ⟨rfl, hall⟩ | h := h
      · exact ⟨['\\'], t, rfl, List.cons_ne_nil _ _, fun c hc => beq_iff_eq.mp (hall c hc)⟩
      · obtain ⟨a, q, rfl, -, hq⟩ := ih h
        exact ⟨'\\' :: d :: a, q, rfl, List.cons_ne_nil _ _, hq⟩
    | case4 c t hdangling hescape ih =>
      rw [starEnd] at h
      · obtain ⟨a, q, rfl, -, hq⟩ := ih h
        exact ⟨c :: a, q, rfl, List.cons_ne_nil _ _, hq⟩
      · exact hdangling
      · exact hescape
  obtain ⟨a, q, hmask, ha, hq⟩ := hform
  exact (openEnd_iff hmask fun hstar => absurd (hq '*' hstar) (by decide)).mpr ⟨ha, hq⟩

theorem stands_ones {q r : Str} (hq : ∀ c ∈ q, c = '?') (hlen : q.length = r.length) :
    Stands .any Symbol.Takes (body q) r ∧ (symbols q).length = q.length := by
  induction q generalizing r with
  | nil =>
    obtain rfl := List.length_eq_zero_iff.mp hlen.symm
    exact ⟨.nil, rfl⟩
  | cons c q ih =>
    obtain ⟨rfl, hrest⟩ := List.forall_mem_cons.mp hq
    cases r with
    | nil => simp at hlen
    | cons d r =>
      obtain ⟨hstands, hsymbols⟩ := ih hrest (by simpa using hlen)
      rw [body_plain (by decide), symbols_plain (by decide), List.length_cons, hsymbols,
        List.length_cons]
      exact ⟨.one (by decide) trivial hstands, rfl⟩

theorem left_end (hquote : e.quote = 0 ∨ e.quote = 2) (hm : mask[e.m]? = none) :
    left mask e = [] := by
  rw [left_of_ne (by omega), drop_eq_nil hm]

/-- The piece behind the last star is what was compared. -/
theorem Inv.piece (h : Inv mask name e) (hquote : e.quote = 0 ∨ e.quote = 2)
    (hm : mask[e.m]? = none) :
    .any ∉ symbols (mask.drop e.ma) ∧ e.n = e.na + (symbols (mask.drop e.ma)).length ∧
      (e.wild = true → lastPiece mask = some (mask.drop e.ma)) := by
  obtain ⟨p, hp, hn, hany, -⟩ := h.along
  rw [left_end hquote hm, symbols_nil, List.append_nil] at hp
  rw [hp]
  refine ⟨hany, hn, fun hwild => (h.star hwild).1.lastPiece_eq ?_⟩
  rw [← hp] at hany
  rw [lastPiece, if_pos rfl, lastPiece_eq_none hany]
  · rfl
  · intro hnil
    cases hnil
  · intro _ _ hnil
    cases hnil

/-- If the star is none that is escaped, an open end stands for what is left. -/
theorem Inv.rest_of_openEnd (h : Inv mask name e) (hquote : e.quote = 0 ∨ e.quote = 2)
    (hm : mask[e.m]? = none)
    (hn : name[e.n]? ≠ none) (hopen : openEnd mask e.m = true) (hstar : starEnd mask = false) :
    EscRest mask name [] e := by
  have hlen : e.m = mask.length := Nat.le_antisymm h.place.1 (List.getElem?_eq_none_iff.mp hm)
  rw [hlen] at hopen
  obtain ⟨a, q, hmask, -, hq⟩ := exists_of_openEnd hopen
  have hqstar : '*' ∉ q := fun hmem => absurd (hq '*' hmem) (by decide)
  obtain ⟨hany, hplace, -⟩ := h.piece hquote hm
  have hreads : Reads mask ('*' :: q) := by
    rw [hmask] at hstar ⊢
    exact reads_of_starEnd hstar hq
  have hwild : e.wild = true := by
    by_contra hwild
    rw [(h.start (Bool.eq_false_iff.mpr hwild)).1] at hany
    exact hany hreads.any_mem
  -- the star is the last one
  have hpiece : mask.drop e.ma = q := by
    obtain hr | hr := hreads.total (h.star hwild).1
    · cases hr with
      | refl => rfl
      | plain _ hr => exact absurd (hr.suffix.subset List.mem_cons_self) hqstar
    · cases hr with
      | refl => rfl
      | plain _ hr => exact absurd hr.any_mem hany
  rw [hpiece] at hplace
  have hlt : e.n < name.length := by
    by_contra hge
    exact hn (List.getElem?_eq_none (not_lt.mp hge))
  have hones := stands_ones hq (r := name.drop (name.length - q.length))
  rw [List.length_drop] at hones
  have hqlen : (symbols q).length = q.length := (stands_ones hq (r := q) rfl).2
  refine .inr ⟨hwild, name.length - q.length, by omega, Nat.sub_le _ _, ?_⟩
  rw [hpiece, List.append_nil]
  exact (hones (by omega)).1

/-- At the end of the mask, a name that has not ended matches what is left and some more. -/
theorem rest_shorter (hquote : e.quote = 0 ∨ e.quote = 2) (hm : mask[e.m]? = none)
    (hn : name[e.n]? ≠ none) : EscRest mask name [.one, .any] e := by
  obtain ⟨d, hd⟩ := ne_none_iff_exists'.mp hn
  refine .inl ?_
  rw [left_end hquote hm, drop_eq_cons hd]
  exact .one (by decide) trivial (star_iff.mpr ⟨_, le_refl _, by rw [List.drop_length]; exact .nil⟩)

/-- Behind the last star there is a character to compare with, if it is not the only one. -/
theorem Inv.at_back (h : Inv mask name e) (hmask : mask ≠ ['*'])
    (hquote : e.quote = 0 ∨ e.quote = 2) (hm : mask[e.m]? = none) (hwild : e.wild = true)
    (hopen : openEnd mask e.m = false) (hback : (lastPiece mask).bind List.head? ≠ some '\\') :
    ∃ c, At mask ⟨e.toCursor.restart, 0⟩ c (plain c) ∧ mask[e.ma]? = some c ∧ c ≠ '*' ∧
    e.na + 1 ≤ e.n := by
  have hlen : e.m = mask.length := Nat.le_antisymm h.place.1 (List.getElem?_eq_none_iff.mp hm)
  obtain ⟨hany, hplace, hlast⟩ := h.piece hquote hm
  rw [hlast hwild] at hback
  cases hpiece : mask.drop e.ma with
  | nil =>
    have hsuffix := (h.star hwild).1.suffix
    rw [hpiece] at hsuffix
    obtain ⟨a, ha⟩ := hsuffix
    have hane : a ≠ [] := by
      rintro rfl
      exact hmask ha.symm
    rw [hlen, (openEnd_iff ha.symm List.not_mem_nil).mpr ⟨hane, by simp⟩] at hopen
    cases hopen
  | cons c t =>
    rw [hpiece] at hback hany hplace
    have hc : mask[e.ma]? = some c := getElem?_of_drop hpiece
    have hcback : c ≠ '\\' := fun heq => hback (by rw [heq]; rfl)
    rw [symbols_plain hcback, List.mem_cons, not_or] at hany
    have hstar : c ≠ '*' := fun heq => hany.1 (plain_eq_any_iff.mpr heq).symm
    rw [symbols_plain hcback, List.length_cons] at hplace
    exact ⟨c, .plain (.inl rfl) hc hstar hcback, hc, hstar, by omega⟩

end End

/-! ### The loop -/

section Finds

variable {mask name : Str} {s : EscCursor} {calls : ℕ}

/-- A turn finds out what there is to be found, or leaves it as it is. -/
def Finds (good what : EscCursor → Prop) (s : EscCursor) (r : Bool ⊕ EscCursor) : Prop :=
  (∀ b, r = .inl b → (b = true ↔ what s)) ∧ ∀ s', r = .inr s' → good s' ∧ (what s' ↔ what s)

theorem Finds.stop {good what : EscCursor → Prop} {b : Bool} (h : b = true ↔ what s) :
    Finds good what s (.inl b) :=
  ⟨fun b' hb => by rwa [← Sum.inl.inj hb], by simp⟩

theorem Finds.go {good what : EscCursor → Prop} {s' : EscCursor} (hgood : good s')
    (h : what s' ↔ what s) :
    Finds good what s (.inr s') :=
  ⟨by simp, fun s'' hs => by rw [← Sum.inr.inj hs]; exact ⟨hgood, h⟩⟩

theorem escLoop_iff {good what : EscCursor → Prop}
    (hturn : ∀ s, good s → Finds good what s (escTurn mask name s))
    (h : good s) (hends : escEndsLoop mask name calls s = true) :
    escLoop mask name calls s = true ↔ what s := by
  induction calls generalizing s with
  | zero => simp [escEndsLoop] at hends
  | succ calls ih =>
    have hfinds := hturn s h
    rw [escLoop]
    rw [escEndsLoop] at hends
    cases hr : escTurn mask name s with
    | inl b => exact hfinds.1 b hr
    | inr s' =>
      rw [hr] at hends
      exact (ih (hfinds.2 s' hr).1 hends).trans (hfinds.2 s' hr).2

theorem Reads.dangling_mem {t : Str} (h : Reads mask t) (ht : .dangling ∈ symbols t) :
    .dangling ∈ symbols mask := by
  obtain ⟨f, hf, -⟩ := h.symbols_eq
  rw [hf]
  exact List.mem_append_right f ht

theorem left_dangling (hquote : s.quote = 1) (hm : mask[s.m]? = none) : left mask s = ['\\'] := by
  rw [left, if_pos hquote, drop_eq_nil hm]

/-- A turn in a mask with no escaped star in front of its end and no backslash at its end. -/
theorem finds_rest (hmask : mask ≠ ['*']) (hdangling : .dangling ∉ symbols mask)
    (hstar : starEnd mask = false) (h : Inv mask name s)
    (hskip : (lastPiece mask).bind List.head? = some '\\' → ¬EscRest mask name [.one, .any] s) :
    Finds (fun s => Inv mask name s ∧
        ((lastPiece mask).bind List.head? = some '\\' → ¬EscRest mask name [.one, .any] s))
      (EscRest mask name []) s (escTurn mask name s) := by
  have hturned := Turned.of_inv h
  generalize escTurn mask name s = r at hturned ⊢
  cases hturned with
  | go hinv hrest => exact .go ⟨hinv, fun hback => mt (hrest _).mp (hskip hback)⟩ (hrest [])
  | fail hrest => exact .stop (iff_of_false (by simp) (hrest []))
  | dangling hquote hm =>
    have hreads := h.reads
    rw [left_dangling hquote hm] at hreads
    exact absurd (hreads.dangling_mem (by simp)) hdangling
  | starDangling hreads => exact absurd (hreads.dangling_mem (by decide)) hdangling
  | @stop e hinv hquote hm hrest =>
    have hend : name[e.n]? ≠ none → ¬Stands .any Symbol.Takes (body (left mask e) ++ [])
        (name.drop e.n) := by
      intro hn hstands
      rw [left_end hquote hm] at hstands
      exact hn (List.getElem?_eq_none (List.drop_eq_nil_iff.mp (nil_iff.mp hstands)))
    rw [escTurn_end hquote hm]
    split_ifs with hn hopen hwild
    · refine .stop (iff_of_true rfl ((hrest []).mp (.inl ?_)))
      rw [left_end hquote hm, drop_eq_nil hn]
      exact .nil
    · exact .stop (iff_of_true rfl ((hrest []).mp (hinv.rest_of_openEnd hquote hm hn hopen hstar)))
    · have hback : (lastPiece mask).bind List.head? ≠ some '\\' := fun hback =>
        hskip hback ((hrest _).mp (rest_shorter hquote hm hn))
      obtain ⟨c, hat, hc, hcstar, hle⟩ :=
        hinv.at_back hmask hquote hm hwild (Bool.not_eq_true _ ▸ hopen) hback
      have hna : e.na + 1 ≤ name.length := hle.trans hinv.n_le
      have hwhat : EscRest mask name [] (back e) ↔ EscRest mask name [] s := by
        rw [← hrest, rest_back hwild hna]
        exact (or_iff_right (hend hn)).symm
      -- the turn goes on like one that begins there
      have heq : back e = ⟨e.toCursor.restart, 0⟩ := by
        rw [back, if_neg (by omega)]
      obtain ⟨d, hd⟩ : ∃ d, name[e.na + 1]? = some d := by
        have hlt : e.n < name.length := by
          by_contra hge
          exact hn (List.getElem?_eq_none (not_lt.mp hge))
        exact ⟨_, List.getElem?_eq_getElem (hle.trans_lt hlt)⟩
      have hcompare : escCompare mask name ⟨e.toCursor.restart, 0⟩ =
          escTurn mask name (back e) := by
        have hdn : name[(back e).n]? = some d := hd
        rw [compare_of_takes (t := ⟨e.toCursor.restart, 0⟩) hc hd (.inr ⟨rfl, hcstar, rfl⟩),
          escTurn_symbol (heq ▸ hat : At mask (back e) c (plain c)), hdn, heq]
        rfl
      rw [hcompare]
      obtain ⟨s', hturn, hinv', hrest'⟩ | ⟨hturn, hrest'⟩ :=
        (hinv.back hwild hna).symbol (heq ▸ hat : At mask (back e) c (plain c))
      · rw [hturn]
        exact .go ⟨hinv', fun h => absurd h hback⟩ ((hrest' []).trans hwhat)
      · rw [hturn]
        exact .stop (iff_of_false (by simp) (mt hwhat.mpr (hrest' [])))
    · refine .stop (iff_of_false (by simp) fun hr => ?_)
      exact hwild (((hrest []).mpr hr).resolve_left (hend hn)).1

/-- A turn in a mask with an escaped star in front of its end: any rest of the name is taken. -/
theorem finds_any (hdangling : .dangling ∉ symbols mask) (hstar : starEnd mask = true)
    (h : Inv mask name s) :
    Finds (Inv mask name) (EscRest mask name [.any]) s (escTurn mask name s) := by
  have hturned := Turned.of_inv h
  generalize escTurn mask name s = r at hturned ⊢
  cases hturned with
  | go hinv hrest => exact .go hinv (hrest _)
  | fail hrest => exact .stop (iff_of_false (by simp) (hrest _))
  | dangling hquote hm =>
    have hreads := h.reads
    rw [left_dangling hquote hm] at hreads
    exact absurd (hreads.dangling_mem (by simp)) hdangling
  | starDangling hreads => exact absurd (hreads.dangling_mem (by decide)) hdangling
  | @stop e hinv hquote hm hrest =>
    have hlen : e.m = mask.length := Nat.le_antisymm hinv.place.1 (List.getElem?_eq_none_iff.mp hm)
    have hany : EscRest mask name [.any] e := by
      refine .inl ?_
      rw [left_end hquote hm]
      exact star_iff.mpr ⟨_, le_refl _, by rw [List.drop_length]; exact .nil⟩
    rw [escTurn_end hquote hm, hlen, if_pos (openEnd_of_starEnd hstar), ite_self]
    exact .stop (iff_of_true rfl ((hrest _).mp hany))

/-- A backslash at the end that is read is not behind a star. -/
theorem Inv.not_starDangling (h : Inv mask name s) (hleft : left mask s = ['\\']) :
    ¬Reads mask ['*', '\\'] := by
  intro hreads
  obtain ⟨p, hp, -, hany, -⟩ := h.along
  have hpiece : .any ∉ symbols (mask.drop s.ma) := by
    rw [hp, hleft]
    simpa using hany
  by_cases hwild : s.wild = true
  · obtain ⟨hstar, hne⟩ := h.star hwild
    obtain hr | hr := hreads.total hstar
    · generalize mask.drop s.ma = w at hr hne
      cases hr with
      | refl => exact hne rfl
      | plain _ hr =>
        cases hr with
        | plain hc => exact absurd rfl hc
    · generalize mask.drop s.ma = w at hr hne hpiece
      cases hr with
      | refl => exact hne rfl
      | plain _ hr => exact hpiece hr.any_mem
  · rw [(h.start (Bool.eq_false_iff.mpr hwild)).1] at hpiece
    exact hpiece hreads.any_mem

/-- A turn in a mask with a backslash at its end. -/
theorem finds_dangling (hdangling : .dangling ∈ symbols mask) (h : Inv mask name s) :
    Finds (Inv mask name)
      (fun s => ¬Reads mask ['*', '\\'] ∧ EscRest mask name [] s ∧ ¬EscRest mask name [.one, .any]
        s) s
      (escTurn mask name s) := by
  have hturned := Turned.of_inv h
  generalize escTurn mask name s = r at hturned ⊢
  cases hturned with
  | go hinv hrest => exact .go hinv (by rw [hrest, hrest])
  | fail hrest => exact .stop (iff_of_false (by simp) fun hwhat => hrest _ hwhat.2.1)
  | dangling hquote hm =>
    have hleft := left_dangling hquote hm
    refine .stop ?_
    rw [decide_eq_true_iff]
    constructor
    · intro hn
      have hdrop := drop_eq_nil hn
      refine ⟨h.not_starDangling hleft, .inl ?_, ?_⟩
      · rw [hleft, hdrop]
        exact .nil
      · rintro (hstands | ⟨-, j, hj, hle, hstands⟩)
        · rw [hleft, hdrop] at hstands
          exact not_cons_nil (by decide) hstands
        · exact h.not_later hdrop hj hle hstands
    · rintro ⟨-, -, hshorter⟩
      by_contra hn
      obtain ⟨d, hd⟩ := ne_none_iff_exists'.mp hn
      refine hshorter (.inl ?_)
      rw [hleft, drop_eq_cons hd]
      exact .one (by decide) trivial
        (star_iff.mpr ⟨_, le_refl _, by rw [List.drop_length]; exact .nil⟩)
  | starDangling hreads => exact .stop (iff_of_false (by simp) fun hwhat => hwhat.1 hreads)
  | @stop e hinv hquote hm hrest =>
    obtain ⟨f, hf, hnone⟩ := hinv.reads.symbols_eq
    rw [left_end hquote hm, symbols_nil, List.append_nil] at hf
    exact absurd (hf ▸ hdangling) hnone

end Finds

/-! ### When `match_esc` is right -/

section Right

variable {mask name : Str}

/-- Places of the name are passed over: behind the last star there is a backslash, and the mask ends
before the name. -/
def Skips (mask name : Str) : Prop :=
  .dangling ∉ symbols mask ∧ starEnd mask = false ∧ (lastPiece mask).bind List.head? = some '\\' ∧
    Shorter mask name

/-- The end of the mask is taken for what it is. A backslash at the end is taken for nothing, unless
a beginning of the name matches already, and an escaped star in front of the end is taken for one
that is not. -/
def Right (mask name : Str) : Prop :=
  if .dangling ∈ symbols mask then
    Reads mask ['*', '\\'] ∨ name ∉ language .any Symbol.Takes (body mask) ∨ Shorter mask name
  else starEnd mask = true → Shorter mask name → name ∈ escLanguage mask

theorem ones_iff {r : Str} : Stands .any Symbol.Takes [.one, .any] r ↔ r ≠ [] := by
  cases r with
  | nil => exact iff_of_false (not_cons_nil (by decide)) (by simp)
  | cons d r =>
    refine iff_of_true (.one (by decide) trivial ?_) (List.cons_ne_nil _ _)
    exact star_iff.mpr ⟨_, le_refl _, by rw [List.drop_length]; exact .nil⟩

theorem shorter_iff :
    Shorter mask name ↔ Stands .any Symbol.Takes (body mask ++ [.one, .any]) name := by
  rw [stands_append_iff, Shorter]
  constructor
  · rintro ⟨k, hk, hmem⟩
    refine ⟨k, hk.le, mem_language.mp hmem, ones_iff.mpr ?_⟩
    rw [ne_eq, List.drop_eq_nil_iff, not_le]
    exact hk
  · rintro ⟨k, -, hstands, hrest⟩
    have hne := ones_iff.mp hrest
    rw [ne_eq, List.drop_eq_nil_iff, not_le] at hne
    exact ⟨k, hne, mem_language.mpr hstands⟩

theorem inv_start (mask name : Str) : Inv mask name ⟨⟨0, 0, 0, 0, false⟩, 0⟩ := by
  refine ⟨by simp, by simp, Nat.zero_le _, ?_,
    ⟨[], ?_, rfl, List.not_mem_nil, by simp [common]⟩, by simp, fun _ => ⟨rfl, rfl⟩⟩
  · rw [left_of_ne (by simp)]
    exact .refl _
  · rw [left_of_ne (by simp)]
    rfl

theorem rest_start {z : List Symbol} :
    EscRest mask name z ⟨⟨0, 0, 0, 0, false⟩, 0⟩ ↔
    Stands .any Symbol.Takes (body mask ++ z) name := by
  simp [EscRest, left]

theorem body_eq (h : .dangling ∉ symbols mask) : body mask = symbols mask := by
  rw [body, List.filter_eq_self]
  intro a ha
  simp only [ne_eq, decide_not, Bool.not_eq_true', decide_eq_false_iff_not]
  rintro rfl
  exact h ha

theorem not_mem_escLanguage (h : .dangling ∈ symbols mask) : name ∉ escLanguage mask := by
  rw [escLanguage, mem_language]
  intro hstands
  generalize symbols mask = l at h hstands
  induction hstands with
  | nil => exact absurd h List.not_mem_nil
  | skip _ ih => exact ih ((List.mem_cons.mp h).resolve_left (by simp))
  | take _ ih => exact ih h
  | @one a d l r _ hd _ ih =>
    obtain rfl | h := List.mem_cons.mp h
    · exact hd
    · exact ih h

/-- In a mask with no escaped star in front of its end and no backslash at its end. -/
theorem matchEsc_rest (hends : EscEnds mask name) (hdangling : .dangling ∉ symbols mask)
    (hstar : starEnd mask = false) (hskip : ¬Skips mask name) :
    matchEsc mask name = true ↔ name ∈ escLanguage mask := by
  rw [matchEsc, escLanguage, mem_language]
  split_ifs with hmask
  · rw [hmask]
    exact iff_of_true rfl (star_iff.mpr ⟨_, le_refl _, by rw [List.drop_length]; exact .nil⟩)
  · have hshorter : (lastPiece mask).bind List.head? = some '\\' →
        ¬EscRest mask name [.one, .any] ⟨⟨0, 0, 0, 0, false⟩, 0⟩ := by
      intro hback hrest
      exact hskip ⟨hdangling, hstar, hback, shorter_iff.mpr (rest_start.mp hrest)⟩
    rw [escLoop_iff (fun s hs => finds_rest hmask hdangling hstar hs.1 hs.2) ⟨inv_start mask name,
      hshorter⟩ (hends.resolve_left hmask), rest_start, List.append_nil, body_eq hdangling]

/-- In a mask with an escaped star in front of its end, whatever begins with what it stands for. -/
theorem matchEsc_any (hends : EscEnds mask name) (hdangling : .dangling ∉ symbols mask)
    (hstar : starEnd mask = true) :
    matchEsc mask name = true ↔ name ∈ escLanguage mask ∨ Shorter mask name := by
  have hmask : mask ≠ ['*'] := by
    rintro rfl
    cases hstar
  rw [matchEsc, if_neg hmask, escLoop_iff (fun s hs => finds_any hdangling hstar hs)
    (inv_start mask name)
    (hends.resolve_left hmask), rest_start, stands_append_iff, escLanguage, mem_language, Shorter,
      body_eq hdangling]
  constructor
  · rintro ⟨k, hk, hstands, -⟩
    obtain hlt | rfl := Nat.lt_or_eq_of_le hk
    · exact .inr ⟨k, hlt, mem_language.mpr hstands⟩
    · rw [List.take_length] at hstands
      exact .inl hstands
  · have hany : ∀ r : Str, Stands .any Symbol.Takes [.any] r := fun r =>
      star_iff.mpr ⟨_, le_refl _, by rw [List.drop_length]; exact .nil⟩
    rintro (hstands | ⟨k, hk, hmem⟩)
    · exact ⟨name.length, le_refl _, by rwa [List.take_length], hany _⟩
    · exact ⟨k, hk.le, mem_language.mp hmem, hany _⟩

/-- In a mask with a backslash at its end. -/
theorem matchEsc_dangling (hends : EscEnds mask name) (hdangling : .dangling ∈ symbols mask) :
    matchEsc mask name = true ↔
      ¬Reads mask ['*', '\\'] ∧ name ∈ language .any Symbol.Takes (body mask) ∧
      ¬Shorter mask name := by
  have hmask : mask ≠ ['*'] := by
    rintro rfl
    exact absurd hdangling (by decide)
  rw [matchEsc, if_neg hmask, escLoop_iff (fun s hs => finds_dangling hdangling hs)
    (inv_start mask name) (hends.resolve_left hmask), rest_start, rest_start, List.append_nil,
      mem_language, shorter_iff]

/-- **Matching with escapes.** Unless it gives up, `match_esc` finds out whether a name matches if
no places of the name are passed over and the end of the mask is taken for what it is, and otherwise
only if places are passed over. -/
theorem matchEsc_iff (hends : EscEnds mask name) :
    (¬Skips mask name ∧ Right mask name → (matchEsc mask name = true ↔ name ∈ escLanguage mask)) ∧
      ((matchEsc mask name = true ↔ name ∈ escLanguage mask) → Skips mask name ∨
        Right mask name) := by
  have hexact : ¬Skips mask name → ((matchEsc mask name = true ↔ name ∈ escLanguage mask) ↔
      Right mask name) := by
    intro hskip
    rw [Right]
    split_ifs with hdangling
    · rw [matchEsc_dangling hends hdangling, iff_false_right (not_mem_escLanguage hdangling)]
      tauto
    · cases hstar : starEnd mask with
      | false => exact iff_of_true (matchEsc_rest hends hdangling hstar hskip) (by simp)
      | true =>
        rw [matchEsc_any hends hdangling hstar]
        tauto
  exact ⟨fun ⟨hskip, hright⟩ => (hexact hskip).mpr hright, fun h => or_iff_not_imp_left.mpr
    fun hskip => (hexact hskip).mp h⟩

theorem matchEsc_iff_small : matchEsc "*\\**#".toList "ab*7".toList = true ∧
    "ab*7".toList ∈ escLanguage "*\\**#".toList := by
  have hends : EscEnds "*\\**#".toList "ab*7".toList := by decide
  have hskip : ¬Skips "*\\**#".toList "ab*7".toList := nofun
  have hright : Right "*\\**#".toList "ab*7".toList := by
    rw [Right, if_neg (by decide)]
    exact nofun
  have hmatch : matchEsc "*\\**#".toList "ab*7".toList = true := by decide
  exact ⟨hmatch, ((matchEsc_iff hends).1 ⟨hskip, hright⟩).mp hmatch⟩

/-- An escaped star at the end takes any rest of the name, and behind a star an escape makes the
loop pass over a place. -/
theorem matchEsc_wrong :
    (EscEnds "a\\*".toList "a*b".toList ∧ matchEsc "a\\*".toList "a*b".toList = true ∧
        "a*b".toList ∉ escLanguage "a\\*".toList) ∧
      EscEnds "*\\aa".toList "aaa".toList ∧ matchEsc "*\\aa".toList "aaa".toList = false ∧
        "aaa".toList ∈ escLanguage "*\\aa".toList := by
  refine ⟨⟨by decide, by decide, ?_⟩, by decide, by decide, ?_⟩
  · have hsymbols : symbols "a\\*".toList = [.char 'a', .char '*'] := by decide
    rw [escLanguage, mem_language, hsymbols]
    intro h
    have hrest := ((cons_iff (by decide)).mp ((cons_iff (by decide)).mp h).2).2
    cases nil_iff.mp hrest
  · have hsymbols : symbols "*\\aa".toList = [.any, .char 'a', .char 'a'] := by decide
    rw [escLanguage, mem_language, hsymbols]
    exact star_iff.mpr ⟨1, by decide, .one (by decide) (by decide)
      (.one (by decide) (by decide) .nil)⟩

end Right

end Ratbox.Escapes
