import Mathlib.Data.BitVec
import Mathlib.Data.Nat.Bitwise

/-!
# Flags and their combinations

A word holds flags, each of which is one bit. Flags are set by an or, are taken away by an and with
a complement, and are tested by an and with the flag. A list of flags has a combination for each set
of them, which is numbered by the bits of the flags that are in it. Each word has the flags of
exactly one combination and none of the others.

## Main definitions

* `Flags.Has`: the word has one of some flags.
* `Flags.IsFlag`: a word of one bit.
* `Combos.combo`: the flags that are in a combination, and those that are not.
* `Combos.all`: all flags.
* `Combos.Matches`: a word has the flags of a combination, and none of the others.

## Main results

* `Flags.IsFlag.has_or`, `Flags.IsFlag.has_clear`, `Flags.IsFlag.has_and`: whether a flag is there
  after an operation.
* `Combos.matches_iff`, `Combos.fst_combo_of_matches`, `Combos.snd_combo_of_matches`: the
  combination of a word.
* `Combos.existsUnique_matches`: each word has one.
-/

namespace Ratbox.Flags

open BitVec

variable {w : ℕ} {flag u v : BitVec w}

/-- `u & flag`, as a condition. -/
abbrev Has (u flag : BitVec w) : Prop := u &&& flag ≠ 0

/-- A word of one bit. -/
def IsFlag (flag : BitVec w) : Prop := ∃ i < w, flag = twoPow w i

/-- The word without flags. -/
theorem not_has_zero : ¬Has 0 flag := not_not_intro zero_and

/-- A flag is tested by its bit. -/
theorem has_twoPow {i : ℕ} (hi : i < w) : Has u (twoPow w i) ↔ u.getLsbD i = true := by
  rw [Has, and_twoPow]
  split_ifs with h
  · refine iff_of_true (fun h0 => ?_) h
    have hbit := congrArg (getLsbD · i) h0
    simp [hi] at hbit
  · exact iff_of_false (fun hne => hne rfl) h

namespace IsFlag

theorem has_or (hf : IsFlag flag) : Has (u ||| v) flag ↔ Has u flag ∨ Has v flag := by
  obtain ⟨i, hi, rfl⟩ := hf
  rw [has_twoPow hi, has_twoPow hi, has_twoPow hi, getLsbD_or, Bool.or_eq_true]

theorem has_and (hf : IsFlag flag) : Has (u &&& v) flag ↔ Has u flag ∧ Has v flag := by
  obtain ⟨i, hi, rfl⟩ := hf
  rw [has_twoPow hi, has_twoPow hi, has_twoPow hi, getLsbD_and, Bool.and_eq_true]

theorem has_clear (hf : IsFlag flag) : Has (u &&& ~~~v) flag ↔ Has u flag ∧ ¬Has v flag := by
  obtain ⟨i, hi, rfl⟩ := hf
  rw [has_twoPow hi, has_twoPow hi, has_twoPow hi, getLsbD_and, getLsbD_not, Bool.and_eq_true]
  simp [hi]

end IsFlag

end Ratbox.Flags

namespace Ratbox.Combos

open Flags

variable {w m m' i : ℕ} {flags : List (BitVec w)} {u : BitVec w}

/-- The flags that are in a combination, and those that are not. -/
def combo (flags : List (BitVec w)) (m : ℕ) : BitVec w × BitVec w :=
  flags.zipIdx.foldl (fun (y, n) (flag, c) => if m.testBit c then (y ||| flag, n)
    else (y, n ||| flag)) (0, 0)

/-- All flags. -/
def all (flags : List (BitVec w)) : BitVec w := flags.foldr (· ||| ·) 0

/-- A word has the flags of a combination, and none of the others. -/
def Matches (flags : List (BitVec w)) (u : BitVec w) (m : ℕ) : Prop :=
  u &&& (combo flags m).1 = (combo flags m).1 ∧ u &&& (combo flags m).2 = 0

/-! ### Bits -/

theorem and_eq_self_iff {v : BitVec w} :
    u &&& v = v ↔ ∀ i, v.getLsbD i = true → u.getLsbD i = true := by
  constructor
  · intro h i hv
    rw [← h, BitVec.getLsbD_and, Bool.and_eq_true] at hv
    exact hv.1
  · intro h
    refine BitVec.eq_of_getLsbD_eq fun i _ => ?_
    rw [BitVec.getLsbD_and, Bool.eq_iff_iff, Bool.and_eq_true]
    exact and_iff_right_of_imp (h i)

theorem and_eq_zero_iff {v : BitVec w} :
    u &&& v = 0 ↔ ∀ i, v.getLsbD i = true → ¬u.getLsbD i = true := by
  constructor
  · intro h i hv hu
    have hbit : (u &&& v).getLsbD i = true := by rw [BitVec.getLsbD_and, hu, hv, Bool.and_self]
    rw [h] at hbit
    exact absurd hbit (by simp)
  · intro h
    refine BitVec.eq_of_getLsbD_eq fun i _ => ?_
    rw [BitVec.getLsbD_and]
    cases hv : v.getLsbD i with
    | false => simp
    | true => simp [Bool.eq_false_of_not_eq_true (h i hv)]

theorem getLsbD_all : (all flags).getLsbD i = true ↔ ∃ flag ∈ flags, flag.getLsbD i = true := by
  induction flags with
  | nil => simp [all]
  | cons flag flags ih =>
    rw [all, List.foldr_cons, BitVec.getLsbD_or, Bool.or_eq_true, List.exists_mem_cons_iff]
    exact or_congr_right ih

/-- The bits of a combination, over some of the flags. -/
theorem getLsbD_foldl (l : List (BitVec w × ℕ)) (acc : BitVec w × BitVec w) :
    let r := l.foldl (fun (y, n) (flag, c) => if m.testBit c then (y ||| flag, n)
      else (y, n ||| flag)) acc
    (r.1.getLsbD i = true ↔ acc.1.getLsbD i = true ∨ ∃ x ∈ l, m.testBit x.2 = true ∧
      x.1.getLsbD i = true) ∧
      (r.2.getLsbD i = true ↔ acc.2.getLsbD i = true ∨ ∃ x ∈ l, ¬m.testBit x.2 = true ∧
        x.1.getLsbD i = true) := by
  induction l generalizing acc with
  | nil => simp
  | cons x l ih =>
    obtain ⟨hfst, hsnd⟩ := ih (if m.testBit x.2 then (acc.1 ||| x.1, acc.2)
      else (acc.1, acc.2 ||| x.1))
    refine ⟨hfst.trans ?_, hsnd.trans ?_⟩
    · rw [List.exists_mem_cons_iff]
      split_ifs with hx
      · simp [hx, or_assoc]
      · simp [hx]
    · rw [List.exists_mem_cons_iff]
      split_ifs with hx
      · simp [hx]
      · simp [hx, or_assoc]

theorem getLsbD_fst_combo : (combo flags m).1.getLsbD i = true ↔
    ∃ c flag, flags[c]? = some flag ∧ m.testBit c = true ∧ flag.getLsbD i = true := by
  refine (getLsbD_foldl flags.zipIdx (0, 0)).1.trans ?_
  simp [List.mem_zipIdx_iff_getElem?, @exists_comm (BitVec w)]

theorem getLsbD_snd_combo : (combo flags m).2.getLsbD i = true ↔
    ∃ c flag, flags[c]? = some flag ∧ ¬m.testBit c = true ∧ flag.getLsbD i = true := by
  refine (getLsbD_foldl flags.zipIdx (0, 0)).2.trans ?_
  simp [List.mem_zipIdx_iff_getElem?, @exists_comm (BitVec w)]

/-! ### Flags of one bit -/

variable (hflags : ∀ flag ∈ flags, IsFlag flag)

include hflags in
/-- **The combination of a word**, by the flags that it has. -/
theorem matches_iff :
    Matches flags u m ↔ ∀ c flag, flags[c]? = some flag → (m.testBit c = true ↔ Has u flag) := by
  rw [Matches, and_eq_self_iff, and_eq_zero_iff]
  constructor
  · rintro ⟨hyes, hno⟩ c flag hc
    obtain ⟨i, hi, rfl⟩ := hflags flag (List.mem_of_getElem? hc)
    have hbit : (BitVec.twoPow w i).getLsbD i = true := by simp [hi]
    rw [has_twoPow hi]
    constructor
    · exact fun hm => hyes i (getLsbD_fst_combo.mpr ⟨c, _, hc, hm, hbit⟩)
    · refine fun hu => not_not.mp fun hm => hno i (getLsbD_snd_combo.mpr ⟨c, _, hc, hm, hbit⟩) hu
  · intro h
    have hhas : ∀ c flag i, flags[c]? = some flag → flag.getLsbD i = true →
        (m.testBit c = true ↔ u.getLsbD i = true) := by
      intro c flag i hc hbit
      obtain ⟨j, hj, rfl⟩ := hflags flag (List.mem_of_getElem? hc)
      obtain rfl : j = i := by simpa [BitVec.getLsbD_twoPow, hj] using hbit
      exact (h c _ hc).trans (has_twoPow hj)
    constructor
    · intro i hi
      obtain ⟨c, flag, hc, hm, hbit⟩ := getLsbD_fst_combo.mp hi
      exact (hhas c flag i hc hbit).mp hm
    · intro i hi hu
      obtain ⟨c, flag, hc, hm, hbit⟩ := getLsbD_snd_combo.mp hi
      exact hm ((hhas c flag i hc hbit).mpr hu)

/-- The flags of the combination of a word are those that the word has. -/
theorem fst_combo_of_matches (h : Matches flags u m) : (combo flags m).1 = u &&& all flags := by
  obtain ⟨hyes, hno⟩ := h
  rw [and_eq_self_iff] at hyes
  rw [and_eq_zero_iff] at hno
  refine BitVec.eq_of_getLsbD_eq fun i _ => ?_
  rw [Bool.eq_iff_iff, BitVec.getLsbD_and, Bool.and_eq_true, getLsbD_all]
  constructor
  · intro hi
    obtain ⟨c, flag, hc, -, hbit⟩ := getLsbD_fst_combo.mp hi
    exact ⟨hyes i hi, flag, List.mem_of_getElem? hc, hbit⟩
  · rintro ⟨hu, flag, hmem, hbit⟩
    obtain ⟨c, hc⟩ := List.mem_iff_getElem?.mp hmem
    refine getLsbD_fst_combo.mpr ⟨c, flag, hc, not_not.mp fun hm => ?_, hbit⟩
    exact hno i (getLsbD_snd_combo.mpr ⟨c, flag, hc, hm, hbit⟩) hu

/-- The other flags are those that the word does not have. -/
theorem snd_combo_of_matches (h : Matches flags u m) : (combo flags m).2 = all flags &&& ~~~u := by
  obtain ⟨hyes, hno⟩ := h
  rw [and_eq_self_iff] at hyes
  rw [and_eq_zero_iff] at hno
  refine BitVec.eq_of_getLsbD_eq fun i hi => ?_
  have hnot : (~~~u).getLsbD i = true ↔ ¬u.getLsbD i = true := by simp [hi]
  rw [Bool.eq_iff_iff, BitVec.getLsbD_and, Bool.and_eq_true, getLsbD_all, hnot]
  constructor
  · intro hbit
    obtain ⟨c, flag, hc, -, hflag⟩ := getLsbD_snd_combo.mp hbit
    exact ⟨⟨flag, List.mem_of_getElem? hc, hflag⟩, hno i hbit⟩
  · rintro ⟨⟨flag, hmem, hflag⟩, hu⟩
    obtain ⟨c, hc⟩ := List.mem_iff_getElem?.mp hmem
    refine getLsbD_snd_combo.mpr ⟨c, flag, hc, fun hm => ?_, hflag⟩
    exact hu (hyes i (getLsbD_fst_combo.mpr ⟨c, flag, hc, hm, hflag⟩))

include hflags in
/-- **Each word has exactly one combination.** -/
theorem existsUnique_matches (u : BitVec w) : ∃! m, m < 2 ^ flags.length ∧ Matches flags u m := by
  classical
  refine ⟨Nat.ofBits fun c : Fin flags.length => decide (Has u flags[c]), ⟨Nat.ofBits_lt_two_pow _,
    ?_⟩, ?_⟩
  · rw [matches_iff hflags]
    intro c flag hc
    obtain ⟨hlt, rfl⟩ := List.getElem?_eq_some_iff.mp hc
    rw [Nat.testBit_ofBits_lt _ _ hlt]
    exact decide_eq_true_iff
  · rintro m ⟨hm, hmatches⟩
    rw [matches_iff hflags] at hmatches
    refine Nat.eq_of_testBit_eq fun c => ?_
    by_cases hlt : c < flags.length
    · rw [Nat.testBit_ofBits_lt _ _ hlt, Bool.eq_iff_iff, decide_eq_true_iff]
      exact hmatches c _ (List.getElem?_eq_getElem hlt)
    · rw [Nat.testBit_ofBits_ge _ _ (Nat.not_lt.mp hlt)]
      exact Nat.testBit_lt_two_pow (hm.trans_le (Nat.pow_le_pow_right (by decide)
        (Nat.not_lt.mp hlt)))

end Ratbox.Combos
