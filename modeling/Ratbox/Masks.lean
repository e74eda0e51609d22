import Ratbox.Lib.Glob
import Ratbox.Hostmask.Case

/-!
# What masks stand for

A mask that `match` finds to match a name stands for the name, with `*` for any characters and `?`
for one character. The other way round, `match` finds out that a mask stands for a name unless it
gives up. What `mask_match` finds to match another mask stands for all that the other mask stands
for.

Source: `src/match.c`, lines 42–185.

## Main definitions

* `Match.StandsFor`: a mask stands for a name.
* `Match.globLanguage`: the names that a mask stands for.
* `Match.Ends`: `match` does not give up.

## Main results

* `Match.matchMask_iff`: what `match` finds out, unless it gives up.
* `Match.matchMask_iff_mem`: which names `match` finds to match, unless it gives up.
* `Match.StandsFor.of_maskMatch`: a mask that `mask_match` finds to match another mask stands for
  what that one stands for.
-/

namespace Ratbox.Match

open Text Glob List

/-! ### The specification -/

/-- A character of a mask takes a character: it is the same letter, or it is a `?`. -/
def Takes (c d : Char) : Prop := toLower c = toLower d ∨ c = '?'

/-- A character of a mask takes a character of another mask: a `?` does not take a `*`. -/
def TakesMask (c d : Char) : Prop := toLower c = toLower d ∨ (c = '?' ∧ d ≠ '*')

/-- The mask stands for the name. -/
abbrev StandsFor (mask name : Str) : Prop := Stands '*' Takes mask name

/-- The names that a mask stands for: those that are put together from any text for each `*`, a
character for each `?`, and each other character, in either case. -/
def globLanguage (mask : Str) : Language Char := language '*' Takes mask

theorem TakesMask.takes {c d : Char} (h : TakesMask c d) : Takes c d := h.imp_right And.left

section

variable (mask name : Str)

/-- The loop of `match` comes to an end, with the turns that are left. -/
def endsLoop : ℕ → Cursor → Bool
  | 0, _ => false
  | calls + 1, s =>
    match turn mask name (passStars mask s) with
    | .inl _ => true
    | .inr s => endsLoop calls s

/-- `match` does not give up. -/
def Ends : Prop := mask = ['*'] ∨ endsLoop mask name 512 ⟨0, 0, 0, 0, false⟩ = true

instance : Decidable (Ends mask name) := inferInstanceAs (Decidable (_ ∨ _))

end

/-! ### A turn -/

/-- The next characters. -/
def Cursor.advance (s : Cursor) : Cursor := { s with m := s.m + 1, n := s.n + 1 }

/-- The place behind the last `*`, and the next character of the name. -/
def Cursor.restart (s : Cursor) : Cursor := { s with m := s.ma, n := s.na + 1, na := s.na + 1 }

section Turns

variable (ok : Char → Char → Prop) (mask name : Str)

/-- What comes of a comparison. -/
inductive Compares (s : Cursor) : Bool ⊕ Cursor → Prop
  | stay (hm : mask[s.m]? = none) (hn : name[s.n]? = none) : Compares s (.inr s)
  | advance {c d : Char} (hc : mask[s.m]? = some c) (hd : name[s.n]? = some d) (hok : ok c d) :
      Compares s (.inr s.advance)
  | restart {d : Char} (hwild : s.wild = true) (hd : name[s.n]? = some d) (hne : ∀ c,
    mask[s.m]? = some c → ¬ok c d) :
      Compares s (.inr s.restart)
  | fail {d : Char} (hwild : s.wild = false) (hd : name[s.n]? = some d) (hne : ∀ c,
    mask[s.m]? = some c → ¬ok c d) :
      Compares s (.inl false)

/-- What comes of a turn: `early` says when the rest of the name is not looked at. -/
inductive Turns (early : ℕ → Prop) (s : Cursor) : Bool ⊕ Cursor → Prop
  | done (hm : mask[s.m]? = none) (hn : name[s.n]? = none) : Turns early s (.inl true)
  | early {d : Char} (hm : mask[s.m]? = none) (hd : name[s.n]? = some d) (h : early s.m) :
    Turns early s (.inl true)
  | back {d : Char} {r : Bool ⊕ Cursor} (hm : mask[s.m]? = none) (hd : name[s.n]? = some d)
      (hwild : s.wild = true) (h : Compares ok mask name s.restart r) : Turns early s r
  | fail {d : Char} (hm : mask[s.m]? = none) (hd : name[s.n]? = some d) (hwild : s.wild = false) :
      Turns early s (.inl false)
  | short {c : Char} (hc : mask[s.m]? = some c) (hn : name[s.n]? = none) :
    Turns early s (.inl false)
  | compare {c d : Char} {r : Bool ⊕ Cursor} (hc : mask[s.m]? = some c) (hd : name[s.n]? = some d)
      (h : Compares ok mask name s r) : Turns early s r

end Turns

section Spec

variable {mask name : Str} {s : Cursor}

theorem not_takes {c d : Char} : ¬Takes c d ↔ toLower c ≠ toLower d ∧ c ≠ '?' := not_or

theorem not_takesMask {c d : Char} :
    ¬TakesMask c d ↔ toLower c ≠ toLower d ∧ (c ≠ '?' ∨ d = '*') := by
  rw [TakesMask, not_or, not_and_or, not_not]

section

variable (h : mask[s.m]? ≠ none → name[s.n]? ≠ none)
include h

/-- The end of the body of both loops, with the condition under which the characters are
different. -/
theorem compares_of_if {ok : Char → Char → Prop} {bad : Prop} [Decidable bad]
    (hend : mask[s.m]? = none → (bad ↔ name[s.n]? ≠ none))
    (hbad : ∀ c d, mask[s.m]? = some c → name[s.n]? = some d → (bad ↔ ¬ok c d)) :
    Compares ok mask name s
      (if bad then if s.wild then .inr { s with m := s.ma, n := s.na + 1, na := s.na + 1 }
        else .inl false
      else .inr { s with
        m := if mask[s.m]? = none then s.m else s.m + 1
        n := if name[s.n]? = none then s.n else s.n + 1 }) := by
  cases hd : name[s.n]? with
  | none =>
    have hm : mask[s.m]? = none := by
      by_contra hm
      exact h hm hd
    rw [if_neg (fun hb => (hend hm).mp hb hd), if_pos hm, if_pos rfl]
    exact .stay hm hd
  | some d =>
    by_cases hb : bad
    · have hne : ∀ c, mask[s.m]? = some c → ¬ok c d := fun c hc => (hbad c d hc hd).mp hb
      rw [if_pos hb]
      by_cases hwild : s.wild = true
      · rw [if_pos hwild]
        exact .restart hwild hd hne
      · rw [if_neg hwild]
        exact .fail (Bool.eq_false_iff.mpr hwild) hd hne
    · obtain ⟨c, hc⟩ : ∃ c, mask[s.m]? = some c := by
        refine Option.ne_none_iff_exists'.mp fun hm => hb ((hend hm).mpr ?_)
        simp [hd]
      have hok : ok c d := by
        by_contra hok
        exact hb ((hbad c d hc hd).mpr hok)
      rw [if_neg hb, hc, if_neg (by simp), if_neg (by simp)]
      exact .advance hc hd hok

theorem compares_compare : Compares Takes mask name s (Match.compare mask name s) := by
  refine compares_of_if h (fun hm => ?_) fun c d hc hd => ?_
  · cases hd : name[s.n]? <;> simp [hm]
  · rw [hc, hd, not_takes]
    simp

theorem compares_maskCompare : Compares TakesMask mask name s (maskCompare mask name s) := by
  refine compares_of_if h (fun hm => ?_) fun c d hc hd => ?_
  · cases hd : name[s.n]? <;> simp [hm]
  · rw [hc, hd, not_takesMask]
    simp

end

/-- Behind the last `*` there is a character to compare with. -/
theorem Compared.restart_ne (h : Compared mask name s) (hm : mask[s.m]? = none) {d : Char}
    (hd : name[s.n]? = some d) :
    mask[s.restart.m]? ≠ none → name[s.restart.n]? ≠ none := by
  obtain ⟨k, hmk, hnk, -⟩ := h.along
  intro hsome
  have hlt := (List.getElem?_eq_some_iff.mp hd).1
  have hk : k ≠ 0 := by
    rintro rfl
    exact hsome (by rw [← hm, hmk]; rfl)
  exact List.getElem?_eq_none_iff.not.mpr (by simp only [Cursor.restart]; omega)

theorem skipStars_eq {m : ℕ} (hstar : mask[m]? ≠ some '*') : skipStars mask m = m := by
  rw [skipStars]
  cases hdrop : mask.drop m with
  | nil => rfl
  | cons c rest =>
    have hc : mask[m]? = some c := by
      have hget := congrArg (fun l => l[0]?) hdrop
      simpa using hget
    rw [takeWhile_cons, if_neg (by simpa [hc] using hstar)]
    rfl

theorem turns_turn (h : Compared mask name s) (hstar : mask[s.m]? ≠ some '*') :
    Turns Takes mask name (fun m => openEnd mask m = true) s (Match.turn mask name s) := by
  rw [Match.turn]
  cases hm : mask[s.m]? with
  | none =>
    cases hd : name[s.n]? with
    | none => exact .done hm hd
    | some d =>
      by_cases hopen : openEnd mask s.m = true
      · simpa [hopen] using Turns.early hm hd hopen
      · rw [if_pos rfl, if_neg (by simp), if_neg hopen]
        by_cases hwild : s.wild = true
        · rw [if_pos hwild]
          exact .back hm hd hwild (compares_compare (h.restart_ne hm hd))
        · rw [if_neg hwild]
          exact .fail hm hd (Bool.eq_false_iff.mpr hwild)
  | some c =>
    cases hd : name[s.n]? with
    | none =>
      rw [skipStars_eq hstar, hm]
      simpa using Turns.short hm hd
    | some d => simpa using Turns.compare hm hd (compares_compare (by simp [hd]))

theorem turns_maskTurn (h : Compared mask name s) (hstar : mask[s.m]? ≠ some '*') :
    Turns TakesMask mask name (fun _ => False) s (maskTurn mask name s) := by
  rw [maskTurn]
  cases hm : mask[s.m]? with
  | none =>
    cases hd : name[s.n]? with
    | none => exact .done hm hd
    | some d =>
      rw [if_pos rfl, if_neg (by simp)]
      by_cases hwild : s.wild = true
      · rw [if_pos hwild]
        exact .back hm hd hwild (compares_maskCompare (h.restart_ne hm hd))
      · rw [if_neg hwild]
        exact .fail hm hd (Bool.eq_false_iff.mpr hwild)
  | some c =>
    cases hd : name[s.n]? with
    | none =>
      rw [skipStars_eq hstar, hm]
      simpa using Turns.short hm hd
    | some d => simpa using Turns.compare hm hd (compares_maskCompare (by simp [hd]))

end Spec

/-! ### What is left -/

section Rest

variable {ok : Char → Char → Prop} {mask name : Str} {s s' : Cursor} {c d : Char}
  {r : Bool ⊕ Cursor}

/-- What is left of the mask stands for what is left of the name, or a later part of the name is
what the mask behind the last `*` stands for. -/
def Rest (ok : Char → Char → Prop) (mask name : Str) (s : Cursor) : Prop :=
  Stands '*' ok (mask.drop s.m) (name.drop s.n) ∨
    (s.wild = true ∧ ∃ j, s.na < j ∧ j ≤ name.length ∧ Stands '*' ok (mask.drop s.ma) (name.drop j))

theorem drop_eq_cons {l : Str} {i : ℕ} (h : l[i]? = some c) : l.drop i = c :: l.drop (i + 1) := by
  obtain ⟨hi, rfl⟩ := List.getElem?_eq_some_iff.mp h
  exact drop_eq_getElem_cons hi

theorem drop_eq_nil {l : Str} {i : ℕ} (h : l[i]? = none) : l.drop i = [] :=
  drop_eq_nil_of_le (getElem?_eq_none_iff.mp h)

theorem ne_star {m : ℕ} (hstar : mask[m]? ≠ some '*') (hc : mask[m]? = some c) : c ≠ '*' := by
  rintro rfl
  exact hstar hc

/-- Where the characters are different, only a later part is left. -/
theorem rest_of_ne (hstar : mask[s.m]? ≠ some '*') (hd : name[s.n]? = some d)
    (hne : ∀ c, mask[s.m]? = some c → ¬ok c d) : Rest ok mask name s ↔
      s.wild = true ∧ ∃ j, s.na < j ∧ j ≤ name.length ∧
      Stands '*' ok (mask.drop s.ma) (name.drop j) := by
  refine or_iff_right fun h => ?_
  rw [drop_eq_cons hd] at h
  cases hc : mask[s.m]? with
  | none =>
    rw [drop_eq_nil hc] at h
    simpa using nil_iff.mp h
  | some c =>
    rw [drop_eq_cons hc] at h
    exact hne c hc ((cons_iff (ne_star hstar hc)).mp h).1

theorem rest_restart (hwild : s.wild = true) (hn : s.na + 1 ≤ name.length) :
    Rest ok mask name s.restart ↔
    s.wild = true ∧ ∃ j, s.na < j ∧ j ≤ name.length ∧
    Stands '*' ok (mask.drop s.ma) (name.drop j) := by
  refine Iff.trans ?_ (and_iff_right hwild).symm
  constructor
  · rintro (h | ⟨-, j, hj, hle, h⟩)
    · exact ⟨s.na + 1, Nat.lt_succ_self _, hn, h⟩
    · exact ⟨j, Nat.lt_of_succ_lt hj, hle, h⟩
  · rintro ⟨j, hj, hle, h⟩
    obtain rfl | hlt := Nat.eq_or_lt_of_le (Nat.succ_le_of_lt hj)
    · exact .inl h
    · exact .inr ⟨hwild, j, hlt, hle, h⟩

theorem rest_advance (hstar : mask[s.m]? ≠ some '*') (hc : mask[s.m]? = some c)
    (hd : name[s.n]? = some d) (hok : ok c d) :
    Rest ok mask name s.advance ↔ Rest ok mask name s := by
  refine or_congr_left ?_
  rw [drop_eq_cons hc, drop_eq_cons hd, cons_iff (ne_star hstar hc), and_iff_right hok]
  rfl

/-- The part that was compared goes on. -/
theorem Compared.advance (h : Compared mask name s) (hstar : mask[s.m]? ≠ some '*')
    (hc : mask[s.m]? = some c) (hd : name[s.n]? = some d) (hok : Takes c d) :
    Compared mask name s.advance := by
  obtain ⟨k, hm, hn, halong⟩ := h.along
  refine ⟨⟨k + 1, congrArg (· + 1) hm, congrArg (· + 1) hn, fun i hi => ?_⟩, h.ma, h.na, h.star,
    h.start⟩
  obtain hi | rfl := Nat.lt_succ_iff_lt_or_eq.mp hi
  · exact halong i hi
  · exact ⟨c, d, hm ▸ hc, hn ▸ hd, fun heq => hstar (heq ▸ hc), hok⟩

/-- The place in the name is not behind its end. -/
theorem Compared.na_lt (h : Compared mask name s) (hd : name[s.n]? = some d) :
    s.na + 1 ≤ name.length := by
  obtain ⟨k, -, hn, -⟩ := h.along
  have hlt := (List.getElem?_eq_some_iff.mp hd).1
  omega

/-- A comparison ends with what is left, and otherwise leaves it as it is. -/
theorem Compares.spec (hok : ∀ c d, ok c d → Takes c d) (h : Compared mask name s)
    (hstar : mask[s.m]? ≠ some '*') (hr : Compares ok mask name s r) :
    (∀ b, r = .inl b → (b = true ↔ Rest ok mask name s)) ∧
      ∀ s', r = .inr s' → Compared mask name s' ∧ (Rest ok mask name s' ↔ Rest ok mask name s) := by
  cases hr with
  | stay hm hn =>
    refine ⟨by simp, fun s' hs' => ?_⟩
    cases hs'
    exact ⟨h, Iff.rfl⟩
  | advance hc hd hcd =>
    refine ⟨by simp, fun s' hs' => ?_⟩
    cases hs'
    exact ⟨h.advance hstar hc hd (hok _ _ hcd), rest_advance hstar hc hd hcd⟩
  | restart hwild hd hne =>
    refine ⟨by simp, fun s' hs' => ?_⟩
    cases hs'
    exact ⟨h.restart hwild (h.na_lt hd), (rest_restart hwild (h.na_lt hd)).trans
      (rest_of_ne hstar hd hne).symm⟩
  | fail hwild hd hne =>
    refine ⟨fun b hb => ?_, by simp⟩
    rw [rest_of_ne hstar hd hne, hwild]
    simp [← Sum.inl.inj hb]

/-- A run of stars is one star. -/
theorem stands_skipStars {n : Str} (hstar : mask[s.m]? = some '*') :
    Stands '*' ok (mask.drop s.m) n ↔ Stands '*' ok ('*' :: mask.drop (skipStars mask s.m)) n := by
  have hsplit := takeWhile_append_dropWhile (p := (· == '*')) (l := mask.drop s.m)
  have hstars : (mask.drop s.m).takeWhile (· == '*') =
      replicate ((mask.drop s.m).takeWhile (· == '*')).length '*' :=
    eq_replicate_of_mem fun c hc => by simpa using mem_takeWhile_imp hc
  have hrest : (mask.drop s.m).dropWhile (· == '*') = mask.drop (skipStars mask s.m) := by
    have hleft := congrArg (drop ((mask.drop s.m).takeWhile (· == '*')).length) hsplit
    rwa [drop_left, drop_drop] at hleft
  have hpos : ((mask.drop s.m).takeWhile (· == '*')).length ≠ 0 := by
    rw [drop_eq_cons hstar]
    simp
  obtain ⟨k, hk⟩ := Nat.exists_eq_succ_of_ne_zero hpos
  rw [← hsplit, hstars, hk, hrest, replicate_star]

/-- Passing over stars leaves what is left. -/
theorem rest_passStars (h : Compared mask name s) :
    Rest ok mask name (passStars mask s) ↔ Rest ok mask name s := by
  rw [passStars]
  split_ifs with hstar
  · have hlater : Rest ok mask name s ↔ Stands '*' ok (mask.drop s.m) (name.drop s.n) := by
      refine or_iff_left_of_imp ?_
      rintro ⟨-, j, hj, hle, hlate⟩
      obtain ⟨k, hm, hn, halong⟩ := h.along
      have hlen : k ≤ (mask.drop s.ma).length := by
        have hle := h.le.1
        rw [length_drop]
        omega
      obtain ⟨hk, hlate⟩ := hlate.drop hlen fun i hi => by
        obtain ⟨c, d, hc, -, hne, -⟩ := halong i hi
        rw [getElem?_drop, hc]
        simpa using hne
      rw [drop_drop, drop_drop, ← hm] at hlate
      rw [drop_eq_cons hstar] at hlate ⊢
      have hback : name.drop (j + k) = (name.drop s.n).drop (j + k - s.n) := by
        rw [drop_drop]
        congr 1
        omega
      exact (hback ▸ hlate).of_drop
    rw [hlater, stands_skipStars hstar, star_iff, Rest]
    dsimp only
    constructor
    · rintro (hnow | ⟨-, j, hj, hle, hlate⟩)
      · exact ⟨0, Nat.zero_le _, hnow⟩
      · refine ⟨j - s.n, by rw [length_drop]; omega, ?_⟩
        rwa [drop_drop, Nat.add_sub_cancel' hj.le]
    · rintro ⟨j, hj, hnow⟩
      rw [length_drop] at hj
      rw [drop_drop] at hnow
      cases j with
      | zero => exact .inl hnow
      | succ j => exact .inr ⟨rfl, s.n + (j + 1), by omega, by omega, hnow⟩
  · rfl

theorem stands_questions {m n : Str} (hm : ∀ c ∈ m, c = '?') (hlen : m.length = n.length) :
    Stands '*' Takes m n := by
  induction m generalizing n with
  | nil =>
    obtain rfl := length_eq_zero_iff.mp hlen.symm
    exact .nil
  | cons c m ih =>
    obtain ⟨rfl, hrest⟩ := forall_mem_cons.mp hm
    cases n with
    | nil => simp at hlen
    | cons d n => exact .one (by decide) (.inr rfl) (ih hrest (by simpa using hlen))

theorem backOver_spec (mask : Str) (m : ℕ) :
    backOver mask m ≤ m ∧ ∀ i, backOver mask m < i → i ≤ m → mask[i]? = some '?' := by
  induction m with
  | zero => exact ⟨le_refl _, fun i hi hle => absurd hi (by rw [backOver]; omega)⟩
  | succ m ih =>
    rw [backOver]
    split_ifs with hq
    · refine ⟨ih.1.trans (Nat.le_succ m), fun i hi hle => ?_⟩
      obtain rfl | hlt := Nat.eq_or_lt_of_le hle
      · exact hq
      · exact ih.2 i hi (Nat.le_of_lt_succ hlt)
    · exact ⟨le_refl _, fun i hi hle => absurd hi (by omega)⟩

/-- Behind the last `*` there are only characters `?`, and the name is long enough for them. -/
theorem rest_of_openEnd (h : Compared mask name s) (hm : mask[s.m]? = none)
    (hd : name[s.n]? = some d) (hopen : openEnd mask s.m = true) : Rest Takes mask name s := by
  obtain ⟨k, hmk, hnk, halong⟩ := h.along
  have hmlen : s.m = mask.length := Nat.le_antisymm h.le.1 (List.getElem?_eq_none_iff.mp hm)
  have hnlt := (List.getElem?_eq_some_iff.mp hd).1
  rw [openEnd] at hopen
  simp only [Bool.and_eq_true, decide_eq_true_eq, beq_iff_eq] at hopen
  obtain ⟨⟨hpos, hback⟩, hat⟩ := hopen
  obtain ⟨hle, hbetween⟩ := backOver_spec mask (s.m - 1)
  have hbefore : backOver mask (s.m - 1) < s.ma := by
    by_contra hge
    obtain ⟨c, -, hc, -, hne, -⟩ := halong (backOver mask (s.m - 1) - s.ma) (by omega)
    rw [Nat.add_sub_cancel' (not_lt.mp hge), hat] at hc
    exact hne (Option.some.inj hc).symm
  have hwild : s.wild = true := by
    by_contra hwild
    have hzero := (h.start (Bool.eq_false_iff.mpr hwild)).1
    omega
  refine .inr ⟨hwild, name.length - k, by omega, Nat.sub_le _ _, stands_questions (fun c hc => ?_)
    ?_⟩
  · obtain ⟨i, hi⟩ := List.mem_iff_getElem?.mp hc
    rw [List.getElem?_drop] at hi
    have hlt := (List.getElem?_eq_some_iff.mp hi).1
    exact Option.some.inj (hi.symm.trans (hbetween (s.ma + i) (by omega) (by omega)))
  · rw [List.length_drop, List.length_drop]
    omega

/-- A turn ends with what is left, and otherwise leaves it as it is. -/
theorem Turns.spec {early : ℕ → Prop} (hok : ∀ c d, ok c d → Takes c d) (h : Compared mask name s)
    (hstar : mask[s.m]? ≠ some '*')
    (hearly : ∀ d, mask[s.m]? = none → name[s.n]? = some d → early s.m → Rest ok mask name s)
    (hr : Turns ok mask name early s r) :
    (∀ b, r = .inl b → (b = true ↔ Rest ok mask name s)) ∧
      ∀ s', r = .inr s' → Compared mask name s' ∧ (Rest ok mask name s' ↔ Rest ok mask name s) := by
  cases hr with
  | done hm hn =>
    refine ⟨fun b hb => ?_, by simp⟩
    cases hb
    refine iff_of_true rfl (.inl ?_)
    rw [drop_eq_nil hm, drop_eq_nil hn]
    exact .nil
  | early hm hd hopen =>
    refine ⟨fun b hb => ?_, by simp⟩
    cases hb
    exact iff_of_true rfl (hearly _ hm hd hopen)
  | back hm hd hwild hcmp =>
    have hsame : Rest ok mask name s.restart ↔ Rest ok mask name s :=
      (rest_restart hwild (h.na_lt hd)).trans (rest_of_ne hstar hd (by simp [hm])).symm
    have hspec := Compares.spec hok (h.restart hwild (h.na_lt hd)) (h.star hwild).2.2 hcmp
    exact ⟨fun b hb => (hspec.1 b hb).trans hsame,
      fun s' hs' => ⟨(hspec.2 s' hs').1, (hspec.2 s' hs').2.trans hsame⟩⟩
  | fail hm hd hwild =>
    refine ⟨fun b hb => ?_, by simp⟩
    rw [rest_of_ne hstar hd (by simp [hm]), hwild]
    simp [← Sum.inl.inj hb]
  | @short c hc hn =>
    refine ⟨fun b hb => ?_, by simp⟩
    cases hb
    refine iff_of_false Bool.false_ne_true ?_
    obtain ⟨k, hm, hnk, halong⟩ := h.along
    have hnlen : s.n = name.length := Nat.le_antisymm h.le.2 (getElem?_eq_none_iff.mp hn)
    have hmlt := (List.getElem?_eq_some_iff.mp hc).1
    rintro (hnow | ⟨-, j, hj, hle, hlate⟩)
    · rw [drop_eq_cons hc, drop_eq_nil hn] at hnow
      exact not_cons_nil (ne_star hstar hc) hnow
    · have hlen : k + 1 ≤ (mask.drop s.ma).length := by
        rw [length_drop]
        omega
      obtain ⟨hk, -⟩ := hlate.drop hlen fun i hi => by
        obtain hi | rfl := Nat.lt_succ_iff_lt_or_eq.mp hi
        · obtain ⟨c, d, hc, -, hne, -⟩ := halong i hi
          rw [getElem?_drop, hc]
          simpa using hne
        · rw [getElem?_drop, ← hm]
          exact hstar
      rw [length_drop] at hk
      omega
  | compare hc hd hcmp => exact Compares.spec hok h hstar hcmp

end Rest



/-! ### The loops -/

section Loops

variable {mask name : Str} {s : Cursor} {calls : ℕ} {ok : Char → Char → Prop}

/-- A loop that comes to an end finds out what is left. -/
theorem matchLoop_iff (h : Compared mask name s) (hends : endsLoop mask name calls s = true) :
    Match.matchLoop mask name calls s = true ↔ Rest Takes mask name s := by
  induction calls generalizing s with
  | zero => simp [endsLoop] at hends
  | succ calls ih =>
    have hpass := h.passStars
    have hstar := passStars_ne mask s
    have hturn := Turns.spec (fun _ _ hok => hok) hpass hstar (fun d hm hd hopen => rest_of_openEnd
      hpass hm hd hopen) (turns_turn hpass hstar)
    rw [Match.matchLoop, ← rest_passStars h]
    rw [endsLoop] at hends
    cases hr : Match.turn mask name (Match.passStars mask s) with
    | inl b => exact hturn.1 b hr
    | inr s' =>
      rw [hr] at hends
      exact (ih (hturn.2 s' hr).1 hends).trans (hturn.2 s' hr).2

theorem endsLoop_of_matchLoop (h : Match.matchLoop mask name calls s = true) :
    endsLoop mask name calls s = true := by
  induction calls generalizing s with
  | zero => simp [Match.matchLoop] at h
  | succ calls ih =>
    rw [Match.matchLoop] at h
    rw [endsLoop]
    cases hr : Match.turn mask name (Match.passStars mask s) with
    | inl b => rfl
    | inr s' =>
      rw [hr] at h
      exact ih h

theorem rest_of_maskLoop (h : Compared mask name s) (hdone : maskLoop mask name calls s = true) :
    Rest TakesMask mask name s := by
  induction calls generalizing s with
  | zero => simp [maskLoop] at hdone
  | succ calls ih =>
    have hpass := h.passStars
    have hstar := passStars_ne mask s
    have hturn := Turns.spec (fun _ _ hok => hok.takes) hpass hstar
      (fun d _ _ hnever => hnever.elim) (turns_maskTurn hpass hstar)
    rw [maskLoop] at hdone
    rw [← rest_passStars h]
    cases hr : maskTurn mask name (Match.passStars mask s) with
    | inl b =>
      rw [hr] at hdone
      exact (hturn.1 b hr).mp hdone
    | inr s' =>
      rw [hr] at hdone
      exact (hturn.2 s' hr).2.mp (ih (hturn.2 s' hr).1 hdone)

theorem compared_start (mask name : Str) : Compared mask name ⟨0, 0, 0, 0, false⟩ :=
  ⟨⟨0, rfl, rfl, fun i hi => absurd hi (Nat.not_lt_zero i)⟩, Nat.zero_le _, Nat.zero_le _, by simp,
    fun _ => ⟨rfl, rfl⟩⟩

theorem rest_start : Rest ok mask name ⟨0, 0, 0, 0, false⟩ ↔ Stands '*' ok mask name := by
  simp [Rest]

theorem stands_star (name : Str) : Stands '*' ok ['*'] name :=
  star_iff.mpr ⟨name.length, le_refl _, by rw [drop_length]; exact .nil⟩

/-- **Matching.** Unless it gives up, `match` finds out whether the mask stands for the name. -/
theorem matchMask_iff (h : Ends mask name) : matchMask mask name = true ↔ StandsFor mask name := by
  rw [matchMask]
  split_ifs with hstar
  · rw [hstar]
    exact iff_of_true rfl (stands_star name)
  · exact (matchLoop_iff (compared_start mask name) (h.resolve_left hstar)).trans rest_start

/-- **What `match` finds out.** Unless it gives up, a name matches a mask if it is one of those the
mask stands for. -/
theorem matchMask_iff_mem (h : Ends mask name) :
    matchMask mask name = true ↔ name ∈ globLanguage mask :=
  (matchMask_iff h).trans mem_language.symm

theorem matchMask_iff_mem_small :
    Ends "*a**?|".toList "Bab\\".toList ∧ (matchMask "*a**?|".toList "Bab\\".toList = true ↔
      "Bab\\".toList ∈ globLanguage "*a**?|".toList) := by
  have hends : Ends "*a**?|".toList "Bab\\".toList := by decide
  exact ⟨hends, matchMask_iff_mem hends⟩

/-- A mask that matches stands for the name. -/
theorem StandsFor.of_matchMask (h : matchMask mask name = true) : StandsFor mask name := by
  refine (matchMask_iff ?_).mp h
  rw [matchMask] at h
  split_ifs at h with hstar
  · exact .inl hstar
  · exact .inr (endsLoop_of_matchLoop h)

theorem stands_of_maskMatch (h : maskMatch mask name = true) : Stands '*' TakesMask mask name := by
  rw [maskMatch] at h
  split_ifs at h with hstar
  · rw [hstar]
    exact stands_star name
  · exact rest_start.mp (rest_of_maskLoop (compared_start mask name) h)

/-- **Masks for masks.** A mask that `mask_match` finds to match another mask stands for what that
one stands for. -/
theorem StandsFor.of_maskMatch {old : Str} (hmask : maskMatch old mask = true)
    (hname : StandsFor mask name) :
    StandsFor old name := by
  refine (stands_of_maskMatch hmask).trans (fun c d hc hcd => ?_) hname
  obtain heq | ⟨rfl, hd⟩ := hcd
  · have hsame := Hostmask.sameChar_of_toLower heq
    refine ⟨fun hd => hc ((hsame.eq_iff (Hostmask.ne_special (by decide))).mpr hd), fun e he => ?_⟩
    obtain hde | hquestion := he
    · exact .inl (heq.trans hde)
    · exact .inr ((hsame.eq_iff (Hostmask.ne_special (by decide))).mpr hquestion)
  · exact ⟨hd, fun e _ => .inr rfl⟩

end Loops

end Ratbox.Match
