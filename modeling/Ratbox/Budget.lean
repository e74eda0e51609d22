import Ratbox.Banlist.Basic
import Ratbox.Masks
import Mathlib

/-!
# The turns of `match`

The loop of `match` makes at most 512 turns. How many it needs for a name that the mask stands for
can be told from the mask and the name: for each piece between stars, the turns for the places where
the piece does not fit, and those for the place where it does. A name that needs more is not found
to match.

Source: `src/match.c`, lines 42–119.

## Main definitions

* `Match.turnsOf`: the turns for a mask and a name.

## Main results

* `Match.matchMask_iff_turns`: a mask matches a name that it stands for, if 512 turns are enough.
* `Match.turnsOf_le`: how many turns a mask and a name need at most.
* `Match.missed_iff`: which names are missed.
-/

namespace Ratbox.Match

open Text Glob List Nat

instance : DecidableRel Takes := fun _ _ => inferInstanceAs (Decidable (_ ∨ _))

/-! ### Turns for a mask and a name -/

/-- The first place of a name where a piece fits. -/
def firstFit (p : Str) : Str → ℕ
  | [] => 0
  | d :: s => if common Takes p (d :: s) = p.length then 0 else firstFit p s + 1

/-- The turns for the places in front of it: one for each character that agrees, and one for the
first that does not. -/
def searchTurns (p : Str) : Str → ℕ
  | [] => 0
  | d :: s => if common Takes p (d :: s) = p.length then 0 else searchTurns p s +
    (common Takes p (d :: s) + 1)

/-- The turns for the last piece, which has to fit at the end of the name. Where it fits before the
end, the turn that finds out compares the next characters already. -/
def lastTurns (p : Str) : Str → ℕ
  | [] => 1
  | d :: s =>
    if s.length < p.length then p.length + 1 else lastTurns p s + min (common Takes p (d :: s) + 1)
      p.length

/-- The turns for the pieces behind stars. If there are only characters `?` in the last one, the
rest of the name is not looked at. -/
def pieceTurns : List Str → Str → ℕ
  | [], _ => 0
  | [p], s => if ∀ c ∈ p, c = '?' then p.length + 1 else lastTurns p s
  | p :: ps, s => pieceTurns ps (s.drop (firstFit p s + p.length)) + p.length + searchTurns p s

/-- **The turns for a mask and a name.** A single star that is the first character is no reason not
to look at the rest of the name. -/
def turnsOf (mask name : Str) : ℕ :=
  match mask.splitOn '*' with
  | [] => 0
  | [p] => p.length + 1
  | [[], p] => lastTurns p name
  | p :: ps => pieceTurns ps (name.drop p.length) + p.length

section Turns

variable (mask name : Str)

/-- The loop finds a match in so many turns. -/
def Costs (c : ℕ) (s : Cursor) : Prop := ∀ calls, matchLoop mask name calls s = true ↔ c ≤ calls

end Turns

section Costs

variable {mask name p t a b : Str} {s : Cursor} {c : ℕ} {s' : Cursor} {d : Char}

theorem Costs.of_turn (hturn : turn mask name (passStars mask s) = .inr s')
    (h : Costs mask name c s') :
    Costs mask name (c + 1) s := by
  intro calls
  cases calls with
  | zero => simp [matchLoop]
  | succ calls =>
    rw [matchLoop, hturn]
    exact (h calls).trans (succ_le_succ_iff).symm

theorem Costs.of_done (hturn : turn mask name (passStars mask s) = .inl true) :
    Costs mask name 1 s := by
  intro calls
  cases calls with
  | zero => simp [matchLoop]
  | succ calls =>
    rw [matchLoop, hturn]
    simp

theorem Costs.congr (hturn : turn mask name (passStars mask s) = turn mask name (passStars mask s'))
    (h : Costs mask name c s') : Costs mask name c s := by
  intro calls
  rw [← h calls]
  cases calls with
  | zero => rfl
  | succ calls => rw [matchLoop, matchLoop, hturn]

/-! ### Single turns -/

theorem getElem?_of_drop {l r : Str} {i : ℕ} (h : l.drop i = d :: r) : l[i]? = some d := by
  have hget := congrArg (fun l => l[0]?) h
  simpa using hget

theorem drop_succ_of_drop {l r : Str} {i : ℕ} (h : l.drop i = d :: r) : l.drop (i + 1) = r := by
  rw [← drop_drop, h]
  rfl

theorem passStars_of_ne (hstar : mask[s.m]? ≠ some '*') : passStars mask s = s := if_neg hstar

/-- Characters that agree are passed. -/
theorem turn_advance {e : Char} (hm : mask.drop s.m = e :: a) (hn : name.drop s.n = d :: b)
    (he : e ≠ '*') (hok : Takes e d) : turn mask name (passStars mask s) = .inr s.advance := by
  have hme := getElem?_of_drop hm
  have hnd := getElem?_of_drop hn
  have hne : ¬((mask[s.m]?).map toLower ≠ (name[s.n]?).map toLower ∧ mask[s.m]? ≠ some '?') := by
    rw [hme, hnd]
    simpa [Takes, ← or_iff_not_imp_left] using hok
  rw [passStars_of_ne (by simpa [hme] using he), turn, if_neg (by simp [hme]),
    if_neg (by simp [hnd]), compare, if_neg hne, if_neg (by simp [hme]), if_neg (by simp [hnd])]
  rfl

/-- Where they do not, the loop goes back to the last star. -/
theorem turn_restart {e : Char} (hm : mask.drop s.m = e :: a) (hn : name.drop s.n = d :: b)
    (he : e ≠ '*') (hok : ¬Takes e d) (hwild : s.wild = true) :
    turn mask name (passStars mask s) = .inr s.restart := by
  have hme := getElem?_of_drop hm
  have hnd := getElem?_of_drop hn
  have hne : (mask[s.m]?).map toLower ≠ (name[s.n]?).map toLower ∧ mask[s.m]? ≠ some '?' := by
    rw [hme, hnd]
    simpa [Takes] using hok
  rw [passStars_of_ne (by simpa [hme] using he), turn, if_neg (by simp [hme]),
    if_neg (by simp [hnd]), compare, if_pos hne, if_pos hwild]
  rfl

/-- At the end of the mask, the turn that goes back to the last star compares the next
characters. -/
theorem turn_back {e : Char} (hm : mask.drop s.m = []) (hn : name.drop s.n = d :: b)
    (hopen : openEnd mask s.m = false)
    (hwild : s.wild = true) (hma : mask.drop s.ma = e :: a) (hna : name.drop (s.na + 1) ≠ [])
    (he : e ≠ '*') :
    turn mask name (passStars mask s) = turn mask name (passStars mask s.restart) := by
  have hnone : mask[s.m]? = none := getElem?_eq_none (drop_eq_nil_iff.mp hm)
  have hnd := getElem?_of_drop hn
  have hme : mask[s.restart.m]? = some e := getElem?_of_drop hma
  have hsome : name[s.restart.n]? ≠ none := fun h => hna (drop_eq_nil h)
  rw [passStars_of_ne (by simp [hnone]), passStars_of_ne (by simpa [hme] using he), turn,
    if_pos hnone,
    if_neg (by simp [hnd]), if_neg (by simp [hopen]), if_pos hwild, turn, if_neg (by simp [hme]),
      if_neg hsome]
  rfl

/-- The ends of both are a match, and so is any rest of the name if the end of the mask is open. -/
theorem turn_done (hm : mask.drop s.m = []) (h : name.drop s.n = [] ∨ openEnd mask s.m = true) :
    turn mask name (passStars mask s) = .inl true := by
  have hnone : mask[s.m]? = none := getElem?_eq_none (drop_eq_nil_iff.mp hm)
  rw [passStars_of_ne (by simp [hnone]), turn, if_pos hnone]
  split_ifs with hn hopen
  · rfl
  · rfl
  · exact absurd (getElem?_eq_none (drop_eq_nil_iff.mp (h.resolve_right hopen))) hn
  · exact absurd (getElem?_eq_none (drop_eq_nil_iff.mp (h.resolve_right hopen))) hn

/-- The place behind a star. -/
def Cursor.behindStar (s : Cursor) : Cursor := ⟨s.m + 1, s.n, s.m + 1, s.n, true⟩

/-- Several stars are passed like one after the other. -/
theorem passStars_behindStar (hm : mask.drop s.m = '*' :: a) :
    passStars mask s.behindStar = passStars mask s := by
  have hskip : skipStars mask s.m = skipStars mask (s.m + 1) := by
    rw [skipStars, skipStars, hm, drop_succ_of_drop hm, takeWhile_cons_of_pos (by decide),
      length_cons]
    omega
  rw [passStars, passStars, if_pos (getElem?_of_drop hm), hskip]
  split_ifs with hstar
  · rfl
  · rw [skipStars_eq (show mask[s.m + 1]? ≠ some '*' from hstar)]
    rfl

theorem Costs.of_behindStar (hm : mask.drop s.m = '*' :: a) (h : Costs mask name c s.behindStar) :
    Costs mask name c s :=
  h.congr (by rw [passStars_behindStar hm])

/-! ### Pieces -/

/-- A piece that fits is passed. -/
theorem Costs.of_fits (hm : mask.drop s.m = p ++ t) (hp : '*' ∉ p)
    (hfits : common Takes p (name.drop s.n) = p.length)
    (h : Costs mask name c { s with m := s.m + p.length, n := s.n + p.length }) :
    Costs mask name (c + p.length) s := by
  induction p generalizing s with
  | nil => exact h
  | cons e p ih =>
    obtain ⟨he, hp⟩ := not_or.mp (mem_cons.not.mp hp)
    cases hn : name.drop s.n with
    | nil => simp [hn, common] at hfits
    | cons d b =>
      rw [hn, common] at hfits
      split_ifs at hfits with hok
      have hrest : Costs mask name (c + p.length) s.advance := by
        refine ih (drop_succ_of_drop hm) hp ?_ ?_
        · rw [Cursor.advance, drop_succ_of_drop hn]
          exact succ_injective hfits
        · rw [length_cons, add_comm p.length 1, ← add_assoc, ← add_assoc] at h
          exact h
      exact hrest.of_turn (turn_advance hm hn (Ne.symm he) hok)

/-- A piece that does not fit leads back to the last star. -/
theorem Costs.of_not_fits (hm : mask.drop s.m = p ++ t) (hp : '*' ∉ p)
    (hlt : common Takes p (name.drop s.n) < p.length)
    (hlen : common Takes p (name.drop s.n) < (name.drop s.n).length) (hwild : s.wild = true)
    (h : Costs mask name c s.restart) :
    Costs mask name (c + (common Takes p (name.drop s.n) + 1)) s := by
  induction p generalizing s with
  | nil => simp [common] at hlt
  | cons e p ih =>
    obtain ⟨he, hp⟩ := not_or.mp (mem_cons.not.mp hp)
    cases hn : name.drop s.n with
    | nil => simp [hn] at hlen
    | cons d b =>
      rw [hn, common] at hlt hlen
      rw [common]
      split_ifs at hlt hlen ⊢ with hok
      · have hrest : Costs mask name (c + (common Takes p b + 1)) s.advance := by
          have hb : name.drop s.advance.n = b := drop_succ_of_drop hn
          rw [← hb]
          exact ih (drop_succ_of_drop hm) hp (by rw [hb]; exact lt_of_succ_lt_succ hlt)
            (by rw [hb]; exact lt_of_succ_lt_succ hlen) hwild h
        exact hrest.of_turn (turn_advance hm hn (Ne.symm he) hok)
      · exact h.of_turn (turn_restart hm hn (Ne.symm he) hok hwild)

theorem firstFit_spec {k : ℕ} (hk : k ≤ b.length) (hfits : common Takes p (b.drop k) = p.length) :
    firstFit p b ≤ k ∧ common Takes p (b.drop (firstFit p b)) = p.length := by
  induction b generalizing k with
  | nil =>
    rw [drop_nil] at hfits
    exact ⟨zero_le _, hfits⟩
  | cons d b ih =>
    rw [firstFit]
    split_ifs with hnow
    · exact ⟨zero_le _, hnow⟩
    · cases k with
      | zero => exact absurd hfits hnow
      | succ k =>
        obtain ⟨hle, hfirst⟩ := ih (le_of_succ_le_succ hk) hfits
        exact ⟨succ_le_succ hle, hfirst⟩

/-- A piece between stars is passed where it fits first. -/
theorem Costs.of_search {i j k : ℕ} (hm : mask.drop i = p ++ t) (hp : '*' ∉ p)
    (hn : name.drop j = b) (hk : k ≤ b.length) (hfits : common Takes p (b.drop k) = p.length)
    (h : Costs mask name c ⟨i + p.length, j + (firstFit p b + p.length), i, j + firstFit p b,
      true⟩) :
    Costs mask name (c + p.length + searchTurns p b) ⟨i, j, i, j, true⟩ := by
  induction b generalizing j k with
  | nil =>
    rw [drop_nil] at hfits
    rw [firstFit, zero_add] at h
    exact Costs.of_fits (s := ⟨i, j, i, j, true⟩) hm hp (by rw [hn]; exact hfits) h
  | cons d b ih =>
    rw [firstFit] at h
    rw [searchTurns]
    split_ifs at h ⊢ with hnow
    · rw [zero_add] at h
      exact Costs.of_fits (s := ⟨i, j, i, j, true⟩) hm hp (by rw [hn]; exact hnow) h
    · cases k with
      | zero => exact absurd hfits hnow
      | succ k =>
        have hlt : common Takes p (d :: b) < p.length := lt_of_le_of_ne (common_le Takes _ _).1 hnow
        have hlen : p.length ≤ b.length := by
          have hle := (common_le Takes p ((d :: b).drop (k + 1))).2
          rw [hfits, length_drop, length_cons] at hle
          omega
        have hrest : Costs mask name (c + p.length + searchTurns p b) ⟨i, j + 1, i, j + 1,
            true⟩ := by
          refine ih (drop_succ_of_drop hn) (le_of_succ_le_succ hk) hfits ?_
          have hplace : j + 1 + (firstFit p b + p.length) = j + (firstFit p b + 1 + p.length) ∧
              j + 1 + firstFit p b = j + (firstFit p b + 1) := by omega
          rw [hplace.1, hplace.2]
          exact h
        have hcosts := Costs.of_not_fits (s := ⟨i, j, i, j, true⟩) hm hp (by rw [hn]; exact hlt)
          (by rw [hn, length_cons]; omega) rfl hrest
        rw [hn, add_assoc] at hcosts
        exact hcosts

/-- **The last piece** has to fit at the end, if the end of the mask is not open. -/
theorem Costs.of_last {i j : ℕ} (hm : mask.drop i = p) (hp : '*' ∉ p) (hne : p ≠ [])
    (hopen : openEnd mask (i + p.length) = false) (hn : name.drop j = b)
    (hlen : p.length ≤ b.length)
    (hfits : common Takes p (b.drop (b.length - p.length)) = p.length) :
    Costs mask name (lastTurns p b) ⟨i, j, i, j, true⟩ := by
  have hm' : mask.drop i = p ++ [] := by rw [hm, append_nil]
  have hend : mask.drop (i + p.length) = [] := by rw [← drop_drop, hm, drop_length]
  induction b generalizing j with
  | nil => exact absurd (length_eq_zero_iff.mp (le_zero.mp hlen)) hne
  | cons d b ih =>
    rw [lastTurns]
    split_ifs with hshort
    · -- the name ends with the piece
      have heq : (d :: b).length = p.length := by
        rw [length_cons] at hlen ⊢
        omega
      rw [heq, Nat.sub_self, drop_zero, ← hn] at hfits
      have hrest : name.drop (j + p.length) = [] := by rw [← drop_drop, hn, ← heq, drop_length]
      rw [add_comm]
      exact Costs.of_fits (s := ⟨i, j, i, j, true⟩) hm' hp hfits
        (Costs.of_done (turn_done hend (.inl hrest)))
    · have hlonger : p.length ≤ b.length := not_lt.mp hshort
      rw [length_cons, succ_sub hlonger, drop_succ_cons] at hfits
      have hlater : Costs mask name (lastTurns p b) ⟨i, j + 1, i, j + 1, true⟩ :=
        ih (drop_succ_of_drop hn) hlonger hfits
      obtain hnow | hnow := lt_or_eq_of_le (common_le Takes p (d :: b)).1
      · rw [min_eq_left hnow]
        have hcosts := Costs.of_not_fits (s := ⟨i, j, i, j, true⟩) hm' hp (by rw [hn]; exact hnow)
          (by rw [hn, length_cons]; omega) rfl hlater
        rwa [hn] at hcosts
      · -- the piece fits too early
        rw [hnow, min_eq_right (le_succ _)]
        refine Costs.of_fits (s := ⟨i, j, i, j, true⟩) hm' hp (by rw [hn]; exact hnow)
          (hlater.congr ?_)
        obtain ⟨e, q, rfl⟩ := exists_cons_of_ne_nil hne
        have hb : b ≠ [] := by
          rintro rfl
          simp at hlonger
        have hrest : name.drop (j + (e :: q).length) ≠ [] := by
          rw [← drop_drop, hn, length_cons, drop_succ_cons, ne_eq, drop_eq_nil_iff]
          rw [length_cons] at hlonger
          omega
        obtain ⟨d', b', hdrop⟩ := exists_cons_of_ne_nil hrest
        exact turn_back (s := ⟨i + (e :: q).length, j + (e :: q).length, i, j, true⟩) hend hdrop
          hopen rfl hm (by rw [drop_succ_of_drop hn]; exact hb)
            (Ne.symm (not_or.mp (mem_cons.not.mp hp)).1)

/-! ### All pieces -/

theorem backOver_cases (mask : Str) (m : ℕ) :
    backOver mask m = 0 ∨ mask[backOver mask m]? ≠ some '?' := by
  induction m with
  | zero => exact .inl rfl
  | succ m ih =>
    rw [backOver]
    split_ifs with hq
    · exact ih
    · exact .inr hq

/-- The end of the mask is open if there are only characters `?` behind the last star, which is not
the first character. -/
theorem openEnd_iff (hmask : mask = a ++ '*' :: p) (hp : '*' ∉ p) :
    openEnd mask mask.length = true ↔ a ≠ [] ∧ ∀ c ∈ p, c = '?' := by
  have hlen : mask.length = a.length + (p.length + 1) := by simp [hmask]
  have hstar : mask[a.length]? = some '*' := by simp [hmask]
  have hpiece : ∀ k, mask[a.length + 1 + k]? = p[k]? := fun k => by
    rw [hmask, Nat.add_assoc, getElem?_append_right (Nat.le_add_right _ _), Nat.add_sub_cancel_left,
      Nat.add_comm 1, getElem?_cons_succ]
  obtain ⟨hle, hbetween⟩ := backOver_spec mask (mask.length - 1)
  -- it does not go back over the star
  have hge : a.length ≤ backOver mask (mask.length - 1) := by
    by_contra hlt
    have hq := hbetween a.length (by omega) (by omega)
    rw [hstar] at hq
    cases hq
  simp only [openEnd, Bool.and_eq_true, decide_eq_true_eq, beq_iff_eq]
  constructor
  · rintro ⟨⟨-, hpos⟩, hat⟩
    have heq : backOver mask (mask.length - 1) = a.length := by
      obtain heq | hlt := eq_or_lt_of_le hge
      · exact heq.symm
      · have hget := hpiece (backOver mask (mask.length - 1) - (a.length + 1))
        rw [Nat.add_sub_cancel' hlt, hat] at hget
        exact absurd (mem_of_getElem? hget.symm) hp
    rw [heq] at hpos hbetween
    refine ⟨length_pos_iff.mp hpos, fun c hc => ?_⟩
    obtain ⟨k, hk⟩ := mem_iff_getElem?.mp hc
    have hklt := (List.getElem?_eq_some_iff.mp hk).1
    have hq := hbetween (a.length + 1 + k) (by omega) (by omega)
    rw [hpiece, hk] at hq
    exact Option.some.inj hq
  · rintro ⟨ha, hall⟩
    have heq : backOver mask (mask.length - 1) = a.length := by
      obtain heq | hlt := eq_or_lt_of_le hge
      · exact heq.symm
      · obtain hzero | hne := backOver_cases mask (mask.length - 1)
        · omega
        · have hget := hpiece (backOver mask (mask.length - 1) - (a.length + 1))
          rw [Nat.add_sub_cancel' hlt] at hget
          obtain ⟨c, hc⟩ : ∃ c, mask[backOver mask (mask.length - 1)]? = some c :=
            ⟨_, getElem?_eq_getElem (by omega)⟩
          rw [hc] at hget
          rw [hc, hall c (mem_of_getElem? hget.symm)] at hne
          exact absurd rfl hne
    rw [heq]
    exact ⟨⟨by omega, length_pos_iff.mpr ha⟩, hstar⟩

theorem common_questions (hall : ∀ c ∈ p, c = '?') (hlen : p.length ≤ b.length) :
    common Takes p b = p.length := by
  induction p generalizing b with
  | nil => rfl
  | cons e p ih =>
    obtain ⟨rfl, hrest⟩ := forall_mem_cons.mp hall
    cases b with
    | nil => simp at hlen
    | cons d b => rw [common, if_pos (.inr rfl), ih hrest (le_of_succ_le_succ hlen), length_cons]

/-- A star and a piece behind it stand for what ends with the piece. -/
theorem star_piece (hp : '*' ∉ p) (h : Stands '*' Takes ('*' :: p) b) :
    p.length ≤ b.length ∧ common Takes p (b.drop (b.length - p.length)) = p.length := by
  obtain ⟨k, hk, h⟩ := star_iff.mp h
  rw [← append_nil p, stands_append hp, nil_iff, drop_drop, drop_eq_nil_iff] at h
  obtain ⟨hfits, hend⟩ := h
  have hle := (common_le Takes p (b.drop k)).2
  rw [hfits, length_drop] at hle
  have heq : k = b.length - p.length := by omega
  rw [heq] at hfits
  exact ⟨by omega, hfits⟩

/-- The pieces behind a star. -/
theorem Costs.of_pieces {ps : List Str} (hps : ps ≠ []) (hstars : ∀ p ∈ ps, '*' ∉ p)
    (ha : a ≠ [] ∨ 1 < ps.length) (hmask : mask = a ++ '*' :: ['*'].intercalate ps) {j : ℕ}
    (hn : name.drop j = b) (h : Stands '*' Takes ('*' :: ['*'].intercalate ps) b) :
    Costs mask name (pieceTurns ps b) ⟨a.length + 1, j, a.length + 1, j, true⟩ := by
  induction ps generalizing a b j with
  | nil => exact absurd rfl hps
  | cons p ps ih =>
    obtain ⟨hp, hstars⟩ := forall_mem_cons.mp hstars
    have hm : mask.drop (a.length + 1) = ['*'].intercalate (p :: ps) := by
      rw [hmask, ← drop_drop, drop_left]
      rfl
    cases ps with
    | nil =>
      rw [intercalate_singleton] at hmask h hm
      have hopen := openEnd_iff hmask hp
      have hlen : mask.length = a.length + 1 + p.length := by
        rw [hmask, length_append, length_cons]
        omega
      rw [hlen] at hopen
      have hane : a ≠ [] := ha.resolve_right (by simp)
      obtain ⟨hle, hfits⟩ := star_piece hp h
      rw [pieceTurns]
      split_ifs with hall
      · have hend : mask.drop (a.length + 1 + p.length) = [] := by rw [← drop_drop, hm, drop_length]
        rw [add_comm]
        exact Costs.of_fits (s := ⟨_, j, _, j, true⟩) (by rw [hm, append_nil]) hp
          (by rw [hn]; exact common_questions hall hle)
            (Costs.of_done (turn_done hend (.inr (hopen.mpr ⟨hane, hall⟩))))
      · have hne : p ≠ [] := by
          rintro rfl
          exact hall (by simp)
        exact Costs.of_last hm hp hne (Bool.eq_false_iff.mpr fun h => hall (hopen.mp h).2) hn hle
          hfits
    | cons q ps =>
      rw [intercalate_cons_cons] at hmask h hm
      rw [append_assoc, singleton_append] at hmask h hm
      obtain ⟨k, hk, h⟩ := star_iff.mp h
      obtain ⟨hfits, h⟩ := (stands_append hp).mp h
      obtain ⟨hfirst, -⟩ := firstFit_spec hk hfits
      have hrest : Stands '*' Takes ('*' :: ['*'].intercalate (q :: ps))
          (b.drop (firstFit p b + p.length)) := by
        refine Stands.of_drop (j := k - firstFit p b) ?_
        have heq : firstFit p b + p.length + (k - firstFit p b) = k + p.length := by omega
        rwa [drop_drop, heq, ← drop_drop]
      have hlater := ih (a := a ++ '*' :: p) (j := j + (firstFit p b + p.length)) (by simp) hstars
        (.inl (by simp)) (by rw [hmask, append_assoc, cons_append]) (by rw [← drop_drop, hn]) hrest
      have hplace : (a ++ '*' :: p).length = a.length + 1 + p.length := by
        rw [length_append, length_cons]
        omega
      rw [hplace] at hlater
      have hstar : mask.drop (a.length + 1 + p.length) = '*' :: ['*'].intercalate (q :: ps) := by
        rw [← drop_drop, hm, drop_left]
      exact Costs.of_search hm hp hn hk hfits (Costs.of_behindStar (s := ⟨_, _, _, _, _⟩) hstar
        hlater)

end Costs

/-! ### The whole loop -/

section Whole

variable {mask name : Str}

/-- The turns for a mask, from its pieces. -/
theorem turnsOf_eq {p q : Str} {ps : List Str} (hsplit : mask.splitOn '*' = p :: q :: ps) :
    turnsOf mask name =
      if p = [] ∧ ps = [] then lastTurns q name else pieceTurns (q :: ps) (name.drop p.length) +
      p.length := by
  rw [turnsOf, hsplit]
  cases p <;> cases ps <;> simp

/-- A mask other than a single star needs so many turns for a name that it stands for. -/
theorem costs_turnsOf (hmask : mask ≠ ['*']) (h : StandsFor mask name) :
    Costs mask name (turnsOf mask name) ⟨0, 0, 0, 0, false⟩ := by
  have hstars : ∀ p ∈ mask.splitOn '*', '*' ∉ p := by
    rw [splitOn_eq_splitOnP]
    exact not_mem_splitOnP '*' mask
  have hjoin : ['*'].intercalate (mask.splitOn '*') = mask := intercalate_splitOn '*'
  cases hsplit : mask.splitOn '*' with
  | nil =>
    rw [splitOn_eq_splitOnP] at hsplit
    exact absurd hsplit (splitOnP_ne_nil _ _)
  | cons p ps =>
    rw [hsplit] at hstars hjoin
    obtain ⟨hp, hpieces⟩ := forall_mem_cons.mp hstars
    cases ps with
    | nil =>
      rw [intercalate_singleton] at hjoin
      have hm : mask.drop 0 = p ++ [] := by rw [drop_zero, append_nil, hjoin]
      rw [← hjoin, StandsFor, ← append_nil p, stands_append hp, nil_iff] at h
      have hend : mask.drop (0 + p.length) = [] := by rw [zero_add, hjoin, drop_length]
      have hturns : turnsOf mask name = 1 + p.length := by
        rw [turnsOf, hsplit, add_comm]
      rw [hturns]
      exact Costs.of_fits (s := ⟨0, 0, 0, 0, false⟩) hm hp h.1
        (Costs.of_done (turn_done hend (.inl (by rw [zero_add]; exact h.2))))
    | cons q ps =>
      rw [intercalate_cons_cons, append_assoc, singleton_append] at hjoin
      have hm : mask.drop 0 = p ++ '*' :: ['*'].intercalate (q :: ps) := hjoin.symm
      have hstar : mask.drop (0 + p.length) = '*' :: ['*'].intercalate (q :: ps) := by
        rw [← drop_drop, hm, drop_left]
      rw [← hjoin, StandsFor, stands_append hp] at h
      obtain ⟨hfits, hrest⟩ := h
      rw [turnsOf_eq hsplit]
      split_ifs with hfirst
      · obtain ⟨rfl, rfl⟩ := hfirst
        rw [intercalate_singleton] at hjoin hrest hstar
        have hq : '*' ∉ q := hpieces q mem_cons_self
        have hmask' : mask = [] ++ '*' :: q := hjoin.symm
        obtain ⟨hle, hend⟩ := star_piece hq hrest
        have hne : q ≠ [] := by
          rintro rfl
          exact hmask hmask'
        refine Costs.of_behindStar hstar (Costs.of_last (by rw [hmask']; rfl) hq hne ?_ rfl hle
          hend)
        have hlen : mask.length = 0 + 1 + q.length := by
          rw [hmask', nil_append, length_cons]
          omega
        rw [← hlen]
        exact Bool.eq_false_iff.mpr fun hopen => ((openEnd_iff hmask' hq).mp hopen).1 rfl
      · refine Costs.of_fits (s := ⟨0, 0, 0, 0, false⟩) hm hp hfits (Costs.of_behindStar hstar ?_)
        have hsome : p ≠ [] ∨ 1 < (q :: ps).length := by
          obtain hp | hps := not_and_or.mp hfirst
          · exact .inl hp
          · exact .inr (succ_lt_succ (length_pos_iff.mpr hps))
        have hcosts := Costs.of_pieces (cons_ne_nil q ps) hpieces hsome hjoin.symm (j := p.length)
          rfl hrest
        simpa [Cursor.behindStar] using hcosts

theorem lastTurns_nil (name : Str) : lastTurns [] name = 1 := by
  induction name with
  | nil => rfl
  | cons d name ih => simp [lastTurns, ih]

/-- **When `match` finds a match**: the mask stands for the name, and 512 turns are enough. -/
theorem matchMask_iff_turns :
    matchMask mask name = true ↔ StandsFor mask name ∧ turnsOf mask name ≤ 512 := by
  constructor
  · intro h
    have hstands := StandsFor.of_matchMask h
    refine ⟨hstands, ?_⟩
    by_cases hmask : mask = ['*']
    · have hsplit : ['*'].splitOn '*' = [[], []] := by decide
      rw [hmask, turnsOf_eq hsplit, if_pos ⟨rfl, rfl⟩, lastTurns_nil]
      decide
    · rw [matchMask, if_neg hmask] at h
      exact (costs_turnsOf hmask hstands 512).mp h
  · rintro ⟨hstands, hturns⟩
    rw [matchMask]
    split_ifs with hmask
    · rfl
    · exact (costs_turnsOf hmask hstands 512).mpr hturns

/-! ### How many turns there are at most -/

theorem searchTurns_le (p s : Str) : searchTurns p s ≤ (p.length + 1) * s.length := by
  induction s with
  | nil => simp [searchTurns]
  | cons d s ih =>
    have hcommon := (common_le Takes p (d :: s)).1
    rw [searchTurns, length_cons, mul_succ]
    split_ifs <;> omega

theorem lastTurns_le (p s : Str) : lastTurns p s ≤ (p.length + 1) * (s.length + 1) := by
  induction s with
  | nil =>
    rw [lastTurns, length_nil]
    omega
  | cons d s ih =>
    have hmin : min (common Takes p (d :: s) + 1) p.length ≤ p.length := min_le_right _ _
    rw [lastTurns, length_cons, mul_succ]
    split_ifs <;> omega

theorem pieceTurns_le (ps : List Str) (s : Str) :
    pieceTurns ps s ≤ (ps.map fun p => p.length + 1).sum * (s.length + 1) := by
  induction ps generalizing s with
  | nil => simp [pieceTurns]
  | cons p ps ih =>
    cases ps with
    | nil =>
      have hlast := lastTurns_le p s
      rw [pieceTurns, map_singleton, sum_singleton]
      split_ifs
      · exact Nat.le_mul_of_pos_right _ (Nat.succ_pos _)
      · exact hlast
    | cons q ps =>
      have hsearch := searchTurns_le p s
      have hdrop : (s.drop (firstFit p s + p.length)).length ≤ s.length := by
        rw [length_drop]
        omega
      have hrest := (ih (s.drop (firstFit p s + p.length))).trans
        (Nat.mul_le_mul_left _ (Nat.add_le_add_right hdrop 1))
      rw [map_cons, sum_cons, add_mul, pieceTurns]
      · rw [mul_succ (p.length + 1)]
        omega
      · simp

/-- Short masks and names need few turns. -/
theorem turnsOf_le (mask name : Str) :
    turnsOf mask name ≤ (mask.length + 1) * (name.length + 1) := by
  have hsum : ((mask.splitOn '*').map fun p : Str => p.length + 1).sum = mask.length + 1 :=
    sum_splitOnP '*' mask
  cases hsplit : mask.splitOn '*' with
  | nil => exact absurd hsplit (splitOn_ne_nil _ _)
  | cons p ps =>
    rw [hsplit, map_cons, sum_cons] at hsum
    cases ps with
    | nil =>
      have hle : mask.length + 1 ≤ (mask.length + 1) * (name.length + 1) :=
        Nat.le_mul_of_pos_right _ (Nat.succ_pos _)
      rw [turnsOf, hsplit]
      simp only [map_nil, sum_nil] at hsum ⊢
      omega
    | cons q ps =>
      rw [turnsOf_eq hsplit, ← hsum, add_mul]
      split_ifs with hone
      · obtain ⟨rfl, rfl⟩ := hone
        have hlast := lastTurns_le q name
        rw [map_singleton, sum_singleton]
        omega
      · have hdrop : (name.drop p.length).length ≤ name.length := by
          rw [length_drop]
          omega
        have hpieces := (pieceTurns_le (q :: ps) (name.drop p.length)).trans
          (Nat.mul_le_mul_left _ (Nat.add_le_add_right hdrop 1))
        have hfirst : p.length + 1 ≤ (p.length + 1) * (name.length + 1) :=
          Nat.le_mul_of_pos_right _ (Nat.succ_pos _)
        omega

/-- **Names that are missed.** A mask matches a name that it stands for unless the name needs more
than 512 turns. -/
theorem missed_iff (mask name : Str) : (name ∈ globLanguage mask → matchMask mask name = true) ↔
    ¬(name ∈ globLanguage mask ∧ 512 < turnsOf mask name) := by
  rw [matchMask_iff_turns, globLanguage, mem_language, not_and, not_lt]
  exact ⟨fun h hstands => (h hstands).2, fun h hstands => ⟨hstands, h hstands⟩⟩

/-- A ban on a host that begins with as many letters as the turns are not enough for. -/
theorem missed_host : let mask := "*!*@*aaaaaaaaaaaaaaaaaaaaaaaaaaaaaab.de".toList
    let name := "n!u@aaaaaaaaaaaaaaaaaaaaaaaaaaaaaaaaaaaaaaaaaaaaaaaaaaaaaaaaaaab.de".toList
    name ∈ globLanguage mask ∧ mask.length ≤ Banlist.banLen ∧ name.length ≤ Banlist.banLen ∧
    matchMask mask name = false := by
  refine ⟨?_, by decide, by decide, by decide +kernel⟩
  rw [globLanguage, mem_language]
  refine star_iff.mpr ⟨1, by decide, ?_⟩
  refine (stands_append (p := "!".toList) (by decide)).mpr ⟨by decide, star_iff.mpr ⟨1, by decide,
    ?_⟩⟩
  refine (stands_append (p := "@".toList) (by decide)).mpr ⟨by decide, star_iff.mpr ⟨29, by decide,
    ?_⟩⟩
  exact (stands_append (p := "aaaaaaaaaaaaaaaaaaaaaaaaaaaaaab.de".toList) (m := []) (by decide)).mpr
    ⟨by decide, .nil⟩

end Whole

end Ratbox.Match
