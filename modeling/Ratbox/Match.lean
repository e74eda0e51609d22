import Ratbox.Text
import Mathlib.Order.CompletePartialOrder

/-!
# Matching masks

The function `match` compares a name with a mask, in which `*` stands for any characters and `?` for
one character. It goes on with the character behind the last `*` when it fails, and gives up after
512 turns of its loop.

Source: `src/match.c`, lines 42–315 and 680–713.

## Main definitions

* `Match.toLower`: `ToLower`.
* `Match.matchMask`: `match`.
* `Match.maskMatch`, `Match.matchEsc`: `mask_match` and `match_esc`.

## Main results

* `Match.ends_of_matchMask`: a name that a mask matches ends with what is behind the last wildcard
  of the mask.
-/

namespace Ratbox.Match

open Text List Option

/-- `ToLower`: the letters, and the four characters that count as letters in names. -/
def toLower (c : Char) : Char := if 'A' ≤ c ∧ c ≤ '^' then Char.ofNat (c.toNat + 32) else c

/-- The characters `*` and `?`. -/
def isWild (c : Char) : Bool := c == '*' || c == '?'

/-- The variables of `match`: the places in the mask and in the name, those to go back to, and
whether there was a `*`. -/
structure Cursor where
  m : ℕ
  n : ℕ
  ma : ℕ
  na : ℕ
  wild : Bool
  deriving DecidableEq

section

variable (mask name : Str)

/-- `while(*m == '*') m++`. -/
def skipStars (m : ℕ) : ℕ := m + ((mask.drop m).takeWhile (· == '*')).length

/-- `for(; m > mask && *m == '?'; m--)`. -/
def backOver : ℕ → ℕ
  | 0 => 0
  | m + 1 => if mask[m + 1]? = some '?' then backOver m else m + 1

/-- In front of the place there is a `*`, which is not the first character, or there are a `*` and
characters `?` behind it. -/
def openEnd (m : ℕ) : Bool :=
  0 < m && 0 < backOver mask (m - 1) && mask[backOver mask (m - 1)]? == some '*'

/-- The last part of the body of the loop: the characters at the two places are compared. -/
def compare (s : Cursor) : Bool ⊕ Cursor :=
  if (mask[s.m]?).map toLower ≠ (name[s.n]?).map toLower ∧ mask[s.m]? ≠ some '?' then
    if s.wild then .inr { s with m := s.ma, n := s.na + 1, na := s.na + 1 } else .inl false
  else
    .inr { s with
      m := if mask[s.m]? = none then s.m else s.m + 1
      n := if name[s.n]? = none then s.n else s.n + 1 }

/-- The first part of the body: characters `*` are passed over. -/
def passStars (s : Cursor) : Cursor :=
  if mask[s.m]? = some '*' then
    { m := skipStars mask s.m, n := s.n, ma := skipStars mask s.m, na := s.n, wild := true }
  else s

/-- The body of the loop, behind the first part. -/
def turn (s : Cursor) : Bool ⊕ Cursor :=
  if mask[s.m]? = none then
    if name[s.n]? = none then .inl true
    else if openEnd mask s.m then .inl true
    else if s.wild then compare mask name { s with m := s.ma, n := s.na + 1, na := s.na + 1 }
    else .inl false
  else if name[s.n]? = none then .inl (mask[skipStars mask s.m]? = none)
  else compare mask name s

/-- The loop, with the turns that are left. -/
def matchLoop : ℕ → Cursor → Bool
  | 0, _ => false
  | calls + 1, s =>
    match turn mask name (passStars mask s) with
    | .inl b => b
    | .inr s => matchLoop calls s

/-- `match`. -/
def matchMask : Bool :=
  if mask = ['*'] then true else matchLoop mask name 512 ⟨0, 0, 0, 0, false⟩

/-- The last part of the body of the loop of `mask_match`: a `?` is not compared with a `*`. -/
def maskCompare (s : Cursor) : Bool ⊕ Cursor :=
  if (mask[s.m]?).map toLower ≠ (name[s.n]?).map toLower ∧
      (mask[s.m]? ≠ some '?' ∨ name[s.n]? = some '*') then
    if s.wild then .inr { s with m := s.ma, n := s.na + 1, na := s.na + 1 } else .inl false
  else
    .inr { s with
      m := if mask[s.m]? = none then s.m else s.m + 1
      n := if name[s.n]? = none then s.n else s.n + 1 }

/-- The body of the loop of `mask_match`, behind the first part. -/
def maskTurn (s : Cursor) : Bool ⊕ Cursor :=
  if mask[s.m]? = none then
    if name[s.n]? = none then .inl true
    else if s.wild then maskCompare mask name { s with m := s.ma, n := s.na + 1, na := s.na + 1 }
    else .inl false
  else if name[s.n]? = none then .inl (mask[skipStars mask s.m]? = none)
  else maskCompare mask name s

/-- The loop of `mask_match`, with the turns that are left. -/
def maskLoop : ℕ → Cursor → Bool
  | 0, _ => false
  | calls + 1, s =>
    match maskTurn mask name (passStars mask s) with
    | .inl b => b
    | .inr s => maskLoop calls s

/-- `mask_match`: whether a mask matches all that another mask does. -/
def maskMatch : Bool :=
  if mask = ['*'] then true else maskLoop mask name 512 ⟨0, 0, 0, 0, false⟩

/-- The variables of `match_esc`, with the count since a backslash. -/
structure EscCursor extends Cursor where
  quote : ℕ
  deriving DecidableEq

/-- The last part of the body of the loop of `match_esc`: the characters at the two places are
compared. -/
def escCompare (s : EscCursor) : Bool ⊕ EscCursor :=
  let match1 :=
    if s.quote ≠ 0 then
      if mask[s.m]? = some 's' then name[s.n]? == some ' '
      else (mask[s.m]?).map toLower == (name[s.n]?).map toLower
    else if mask[s.m]? = some '?' then true
    else if mask[s.m]? = some '@' then (name[s.n]?).any Char.isAlpha
    else if mask[s.m]? = some '#' then (name[s.n]?).any isDigit
    else (mask[s.m]?).map toLower == (name[s.n]?).map toLower
  if match1 then
    .inr { s with
      m := if mask[s.m]? = none then s.m else s.m + 1
      n := if name[s.n]? = none then s.n else s.n + 1 }
  else if s.wild then .inr { s with m := s.ma, n := s.na + 1, na := s.na + 1 }
  else .inl false

/-- The middle part of the body: the ends of the mask and of the name. -/
def escEnds (s : EscCursor) : Bool ⊕ EscCursor :=
  if mask[s.m]? = none then
    if name[s.n]? = none then .inl true
    else if s.quote ≠ 0 then .inl false
    else if openEnd mask s.m then .inl true
    else if s.wild then escCompare mask name { s with m := s.ma, n := s.na + 1, na := s.na + 1 }
    else .inl false
  else if name[s.n]? = none then
    if s.quote ≠ 0 then .inl false else .inl (mask[skipStars mask s.m]? = none)
  else escCompare mask name s

/-- The body of the loop of `match_esc`. -/
def escTurn (s : EscCursor) : Bool ⊕ EscCursor :=
  let s := { s with quote := if s.quote = 0 ∨ s.quote = 2 then 0 else s.quote + 1 }
  if mask[s.m]? = some '\\' ∧ s.quote = 0 then .inr { s with m := s.m + 1, quote := 1 }
  else if s.quote = 0 ∧ mask[s.m]? = some '*' then
    let m := skipStars mask s.m
    let s := { s with m := m, ma := m, na := s.n, wild := true }
    if mask[m]? = some '\\' then
      if mask[m + 1]? = none then .inl false else .inr { s with m := m + 1, quote := 1 }
    else escEnds mask name s
  else escEnds mask name s

/-- The loop of `match_esc`, with the turns that are left. -/
def escLoop : ℕ → EscCursor → Bool
  | 0, _ => false
  | calls + 1, s =>
    match escTurn mask name s with
    | .inl b => b
    | .inr s => escLoop calls s

/-- `match_esc`: `@` stands for a letter, `#` for a digit, and a backslash escapes. -/
def matchEsc : Bool :=
  if mask = ['*'] then true else escLoop mask name 512 ⟨⟨0, 0, 0, 0, false⟩, 0⟩

end

/-! ### Names up to case -/

section Congr

variable {mask name name' : Str}

section

variable (h : name.map toLower = name'.map toLower)
include h

theorem compare_congr (s : Cursor) : compare mask name s = compare mask name' s := by
  have hget : ∀ n, (name[n]?).map toLower = (name'[n]?).map toLower := fun n => by
    rw [← getElem?_map, h, getElem?_map]
  have hnone : ∀ n, name[n]? = none ↔ name'[n]? = none := fun n => by
    rw [← map_eq_none_iff (f := toLower), hget, map_eq_none_iff]
  simp [compare, hget, hnone]

theorem turn_congr (s : Cursor) : turn mask name s = turn mask name' s := by
  have hlen : name.length = name'.length := by
    rw [← length_map toLower, h, length_map]
  have hnone : ∀ n, name[n]? = none ↔ name'[n]? = none := fun n => by
    rw [getElem?_eq_none_iff, getElem?_eq_none_iff, hlen]
  simp [turn, compare_congr h, hnone]

theorem matchLoop_congr (calls : ℕ) (s : Cursor) :
    matchLoop mask name calls s = matchLoop mask name' calls s := by
  induction calls generalizing s with
  | zero => rfl
  | succ calls ih => simp only [matchLoop, turn_congr h, ih]

/-- A name is matched up to case. -/
theorem matchMask_congr : matchMask mask name = matchMask mask name' := by
  rw [matchMask, matchMask, matchLoop_congr h]

end

end Congr

/-! ### The end of a name -/

/-- A part of the mask, from a place on, was compared with a part of the name. -/
def Along (mask name : Str) (a b k : ℕ) : Prop :=
  ∀ i < k, ∃ c d, mask[a + i]? = some c ∧ name[b + i]? = some d ∧ c ≠ '*' ∧
    (toLower c = toLower d ∨ c = '?')

/-- What is behind the last `*`, up to the place, was compared. -/
structure Compared (mask name : Str) (s : Cursor) : Prop where
  along : ∃ k, s.m = s.ma + k ∧ s.n = s.na + k ∧ Along mask name s.ma s.na k
  ma : s.ma ≤ mask.length
  na : s.na ≤ name.length
  star : s.wild = true → 0 < s.ma ∧ mask[s.ma - 1]? = some '*' ∧ mask[s.ma]? ≠ some '*'
  start : s.wild = false → s.ma = 0 ∧ s.na = 0

section Compared

variable {mask name : Str} {s s' : Cursor}

theorem Compared.le (h : Compared mask name s) : s.m ≤ mask.length ∧ s.n ≤ name.length := by
  obtain ⟨k, hm, hn, halong⟩ := h.along
  have hma := h.ma
  have hna := h.na
  cases k with
  | zero => omega
  | succ k =>
    obtain ⟨c, d, hc, hd, -⟩ := halong k (Nat.lt_succ_self k)
    have hc' := (List.getElem?_eq_some_iff.mp hc).1
    have hd' := (List.getElem?_eq_some_iff.mp hd).1
    omega

theorem Compared.restart (h : Compared mask name s) (hwild : s.wild = true)
    (hn : s.na + 1 ≤ name.length) :
    Compared mask name { s with m := s.ma, n := s.na + 1, na := s.na + 1 } :=
  ⟨⟨0, rfl, rfl, fun i hi => absurd hi (Nat.not_lt_zero i)⟩, h.ma, hn, h.star,
    fun hnot => absurd (hwild.symm.trans hnot) (by simp)⟩

theorem Compared.compare (h : Compared mask name s) (hstar : mask[s.m]? ≠ some '*')
    (hend : mask[s.m]? ≠ none → name[s.n]? ≠ none) (hs' : Match.compare mask name s = .inr s') :
    Compared mask name s' := by
  obtain ⟨k, hm, hn, halong⟩ := h.along
  rw [Match.compare] at hs'
  by_cases hne : (mask[s.m]?).map toLower ≠ (name[s.n]?).map toLower ∧ mask[s.m]? ≠ some '?'
  · rw [if_pos hne] at hs'
    cases hwild : s.wild with
    | false => simp [hwild] at hs'
    | true =>
      rw [if_pos hwild] at hs'
      cases hs'
      refine hwild ▸ h.restart hwild ?_
      have hsome : name[s.n]? ≠ none := by
        intro hnone
        by_cases hmask : mask[s.m]? = none
        · exact hne.1 (by rw [hmask, hnone])
        · exact hend hmask hnone
      have hlt := getElem?_eq_none_iff.not.mp hsome
      omega
  · rw [if_neg hne] at hs'
    cases hs'
    cases hc : mask[s.m]? with
    | none =>
      have hd : name[s.n]? = none := by
        cases hd : name[s.n]? with
        | none => rfl
        | some d => simp [hc, hd] at hne
      rw [hd]
      exact h
    | some c =>
      obtain ⟨d, hd⟩ := ne_none_iff_exists'.mp (hend (by simp [hc]))
      rw [hd]
      refine ⟨⟨k + 1, congrArg (· + 1) hm, congrArg (· + 1) hn, fun i hi => ?_⟩, h.ma, h.na, h.star,
        h.start⟩
      dsimp only
      by_cases hik : i = k
      · rw [hik, ← hm, ← hn]
        refine ⟨c, d, hc, hd, fun heq => hstar (heq ▸ hc), ?_⟩
        rw [hc, hd] at hne
        by_cases hq : c = '?'
        · exact .inr hq
        · exact .inl (by simpa [hq] using hne)
      · exact halong i (by omega)

theorem getElem?_takeWhile {p : Char → Bool} {l : Str} {c : Char}
    (h : l[(l.takeWhile p).length]? = some c) : p c = false := by
  induction l with
  | nil => simp at h
  | cons x l ih =>
    rw [takeWhile_cons] at h
    cases hx : p x with
    | true =>
      rw [hx, if_pos rfl, length_cons, getElem?_cons_succ] at h
      exact ih h
    | false =>
      rw [hx, if_neg (by simp), length_nil, getElem?_cons_zero] at h
      exact some.inj h ▸ hx

theorem getElem?_skipStars (mask : Str) (m : ℕ) : mask[skipStars mask m]? ≠ some '*' := by
  rw [skipStars, ← getElem?_drop]
  intro hstar
  cases getElem?_takeWhile hstar

theorem skipStars_spec (hstar : mask[s.m]? = some '*') :
    0 < skipStars mask s.m ∧ skipStars mask s.m ≤ mask.length ∧
      mask[skipStars mask s.m - 1]? = some '*' := by
  obtain ⟨hlt, -⟩ := List.getElem?_eq_some_iff.mp hstar
  have hdrop : mask.drop s.m = '*' :: mask.drop (s.m + 1) := by
    rw [drop_eq_getElem_cons hlt, (getElem_eq_iff hlt).mpr hstar]
  have hpos : 0 < ((mask.drop s.m).takeWhile (· == '*')).length := by
    rw [hdrop, takeWhile_cons, if_pos (by decide)]
    exact Nat.succ_pos _
  have hle := (List.takeWhile_prefix (l := mask.drop s.m) (· == '*')).length_le
  rw [length_drop] at hle
  refine ⟨by rw [skipStars]; omega, by rw [skipStars]; omega, ?_⟩
  have hsplit := takeWhile_append_dropWhile (p := (· == '*')) (l := mask.drop s.m)
  have hget : ((mask.drop s.m).takeWhile (· == '*'))[((mask.drop s.m).takeWhile (· ==
      '*')).length - 1]? = some '*' := by
    obtain ⟨c, hc⟩ : ∃ c, ((mask.drop s.m).takeWhile (· == '*'))[
        ((mask.drop s.m).takeWhile (· == '*')).length - 1]? = some c :=
      ⟨_, getElem?_eq_getElem (Nat.sub_lt hpos Nat.one_pos)⟩
    rw [hc]
    have hmem := mem_takeWhile_imp (mem_of_getElem? hc)
    exact congrArg some (beq_iff_eq.mp hmem)
  rw [skipStars, show s.m + ((mask.drop s.m).takeWhile (· == '*')).length - 1 =
      s.m + (((mask.drop s.m).takeWhile (· == '*')).length - 1) by omega, ← getElem?_drop, ← hsplit,
    getElem?_append_left (by rw [hsplit]; exact Nat.sub_lt hpos Nat.one_pos), hsplit, hget]

theorem Compared.passStars (h : Compared mask name s) : Compared mask name (passStars mask s) := by
  rw [Match.passStars]
  split_ifs with hstar
  · obtain ⟨hpos, hle, hlast⟩ := skipStars_spec hstar
    exact ⟨⟨0, rfl, rfl, fun i hi => absurd hi (Nat.not_lt_zero i)⟩, hle, h.le.2, fun _ =>
      ⟨hpos, hlast, getElem?_skipStars mask s.m⟩, nofun⟩
  · exact h

theorem passStars_ne (mask : Str) (s : Cursor) : mask[(passStars mask s).m]? ≠ some '*' := by
  rw [Match.passStars]
  split_ifs with hstar
  · exact getElem?_skipStars mask s.m
  · exact hstar

theorem Compared.turn (h : Compared mask name s) (hstar : mask[s.m]? ≠ some '*')
    (hs' : Match.turn mask name s = .inr s') : Compared mask name s' := by
  obtain ⟨k, hm, hn, halong⟩ := h.along
  rw [Match.turn] at hs'
  by_cases hmask : mask[s.m]? = none
  · rw [if_pos hmask] at hs'
    by_cases hname : name[s.n]? = none
    · simp [hname] at hs'
    · rw [if_neg hname] at hs'
      by_cases hopen : openEnd mask s.m = true
      · simp [hopen] at hs'
      · rw [if_neg hopen] at hs'
        cases hwild : s.wild with
        | false => simp [hwild] at hs'
        | true =>
          rw [if_pos hwild] at hs'
          have hlt := getElem?_eq_none_iff.not.mp hname
          refine (h.restart hwild (by omega)).compare ?_ (fun hsome => ?_) hs'
          · exact (h.star hwild).2.2
          · dsimp only at hsome ⊢
            have hk : k ≠ 0 := by
              rintro rfl
              exact hsome (by rw [← hmask, hm]; rfl)
            exact getElem?_eq_none_iff.not.mpr (by omega)
  · rw [if_neg hmask] at hs'
    by_cases hname : name[s.n]? = none
    · simp [hname] at hs'
    · rw [if_neg hname] at hs'
      exact h.compare hstar (fun _ => hname) hs'

theorem isWild_of_openEnd (h : openEnd mask mask.length = true) :
    ∃ c, mask.getLast? = some c ∧ isWild c = true := by
  rw [openEnd] at h
  simp only [Bool.and_eq_true, decide_eq_true_eq, beq_iff_eq] at h
  obtain ⟨⟨hpos, hback⟩, hstar⟩ := h
  rw [getLast?_eq_getElem?]
  cases hm : mask.length - 1 with
  | zero =>
    rw [hm] at hback
    exact absurd hback (lt_irrefl 0)
  | succ m =>
    rw [hm, backOver] at hstar
    by_cases hq : mask[m + 1]? = some '?'
    · exact ⟨'?', hq, by decide⟩
    · rw [if_neg hq] at hstar
      exact ⟨'*', hstar, by decide⟩

/-- What `match` returns is true in the end. -/
theorem Compared.done (h : Compared mask name s) (hstar : mask[s.m]? ≠ some '*')
    (hdone : Match.turn mask name s = .inl true) :
    (s.m = mask.length ∧ s.n = name.length) ∨ ∃ c, mask.getLast? = some c ∧ isWild c = true := by
  obtain ⟨hle, hle'⟩ := h.le
  have hnot : ∀ s' : Cursor, Match.compare mask name s' ≠ .inl true := by
    intro s' heq
    rw [Match.compare] at heq
    split_ifs at heq
    simp at heq
  rw [Match.turn] at hdone
  by_cases hmask : mask[s.m]? = none
  · have hm : s.m = mask.length := by
      have := getElem?_eq_none_iff.mp hmask
      omega
    rw [if_pos hmask] at hdone
    by_cases hname : name[s.n]? = none
    · have := getElem?_eq_none_iff.mp hname
      exact .inl ⟨hm, by omega⟩
    · rw [if_neg hname] at hdone
      by_cases hopen : openEnd mask s.m = true
      · exact .inr (isWild_of_openEnd (hm ▸ hopen))
      · rw [if_neg hopen] at hdone
        cases hwild : s.wild with
        | false => simp [hwild] at hdone
        | true =>
          rw [if_pos hwild] at hdone
          exact absurd hdone (hnot _)
  · rw [if_neg hmask] at hdone
    by_cases hname : name[s.n]? = none
    · rw [if_pos hname] at hdone
      have hskip : skipStars mask s.m = s.m := by
        obtain ⟨c, hc⟩ := ne_none_iff_exists'.mp hmask
        obtain ⟨hlt, hget⟩ := List.getElem?_eq_some_iff.mp hc
        rw [skipStars, drop_eq_getElem_cons hlt, takeWhile_cons, hget, if_neg]
        · rfl
        · intro heq
          exact hstar (beq_iff_eq.mp heq ▸ hc)
      rw [hskip] at hdone
      simp [hmask] at hdone
    · rw [if_neg hname] at hdone
      exact absurd hdone (hnot s)

theorem Compared.matchLoop {calls : ℕ} (h : Compared mask name s)
    (hdone : Match.matchLoop mask name calls s = true) :
    (∃ s, Compared mask name s ∧ s.m = mask.length ∧ s.n = name.length) ∨
      ∃ c, mask.getLast? = some c ∧ isWild c = true := by
  induction calls generalizing s with
  | zero => simp [Match.matchLoop] at hdone
  | succ calls ih =>
    have hpass := h.passStars
    have hstar := passStars_ne mask s
    rw [Match.matchLoop] at hdone
    cases hturn : Match.turn mask name (Match.passStars mask s) with
    | inl b =>
      rw [hturn] at hdone
      obtain rfl : b = true := hdone
      exact (hpass.done hstar hturn).imp_left fun hend => ⟨_, hpass, hend⟩
    | inr s' =>
      rw [hturn] at hdone
      exact ih (hpass.turn hstar hturn) hdone

end Compared

/-- **The end of the name.** Where a mask ends with a part without wildcards, a name that the mask
matches ends with that part up to case; where that part is the whole mask, it is the whole name. -/
theorem ends_of_matchMask {mask name u v : Str} (h : matchMask mask name = true)
    (hmask : mask = u ++ v) (hv : ∀ c ∈ v, isWild c = false) :
    ∃ p r, name = p ++ r ∧ r.map toLower = v.map toLower ∧ (u = [] → p = []) := by
  have hlast : ∀ c, mask.getLast? = some c → isWild c = true → v = [] := by
    intro c hc hwild
    rcases eq_nil_or_concat v with hnil | ⟨v', d, rfl⟩
    · exact hnil
    · rw [hmask, concat_eq_append, ← append_assoc, getLast?_concat] at hc
      exact absurd ((hv d (by simp)).symm.trans (some.inj hc ▸ hwild)) (by simp)
  -- A mask that ends with a wildcard has nothing behind it.
  have hopen : v = [] → mask ≠ [] →
      ∃ p r, name = p ++ r ∧ r.map toLower = v.map toLower ∧ (u = [] → p = []) := by
    rintro rfl hne
    refine ⟨name, [], (append_nil name).symm, rfl, fun hnil => ?_⟩
    exact absurd (hmask.trans (by rw [hnil]; rfl)) hne
  rw [matchMask] at h
  split_ifs at h with hstar
  · exact hopen (hlast '*' (by rw [hstar]; rfl) (by decide)) (by simp [hstar])
  · have hstart : Compared mask name ⟨0, 0, 0, 0, false⟩ :=
      ⟨⟨0, rfl, rfl, fun i hi => absurd hi (Nat.not_lt_zero i)⟩, Nat.zero_le _,
        Nat.zero_le _, by simp, fun _ => ⟨rfl, rfl⟩⟩
    obtain ⟨s, hs, hm, hn⟩ | ⟨c, hc, hwild⟩ := hstart.matchLoop h
    · obtain ⟨k, hmk, hnk, halong⟩ := hs.along
      have hlen : mask.length = u.length + v.length := by rw [hmask, length_append]
      -- The part without wildcards is behind the last `*`.
      have hma : s.ma ≤ u.length := by
        by_contra hlt
        cases hwild : s.wild with
        | false => exact hlt ((hs.start hwild).1 ▸ Nat.zero_le _)
        | true =>
          obtain ⟨hpos, hat, -⟩ := hs.star hwild
          rw [hmask, getElem?_append_right (by omega)] at hat
          cases hv '*' (mem_of_getElem? hat)
      refine ⟨name.take (s.na + (u.length - s.ma)), name.drop (s.na + (u.length - s.ma)),
        (take_append_drop _ _).symm, ext_getElem? fun i => ?_, fun hnil => ?_⟩
      · rw [getElem?_map, getElem?_map, getElem?_drop]
        by_cases hi : i < v.length
        · obtain ⟨c, d, hc, hd, -, hcd⟩ := halong (u.length - s.ma + i) (by omega)
          rw [show s.ma + (u.length - s.ma + i) = u.length + i by omega, hmask,
            getElem?_append_right (by omega), Nat.add_sub_cancel_left] at hc
          rw [Nat.add_assoc, hd, hc, map_some, map_some]
          rcases hcd with heq | rfl
          · rw [heq]
          · cases hv '?' (mem_of_getElem? hc)
        · rw [getElem?_eq_none (by omega), getElem?_eq_none (by omega)]
      · have hzero : s.ma = 0 := by
          rw [hnil] at hma
          exact Nat.le_zero.mp hma
        have hna : s.na = 0 := by
          cases hwild : s.wild with
          | false => exact (hs.start hwild).2
          | true => exact absurd (hs.star hwild).1 (by omega)
        rw [hnil, hna, hzero]
        rfl
    · refine hopen (hlast c hc hwild) ?_
      rintro rfl
      simp at hc

end Ratbox.Match
