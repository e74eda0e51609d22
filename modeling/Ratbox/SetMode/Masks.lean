import Ratbox.Banlist.Pretty
import Ratbox.SetMode.Basic

/-!
# The masks of a MODE line

All masks of a line go into one buffer of `IRCD_BUFSIZE` bytes. A line of a local client has room
for 510 bytes, and each mask needs a letter, a parameter, and at most four characters more than it
was given with. So the first three masks always find room. The fourth one does not if it is long,
and `pretty_mask` returns `NULL` for it, which is taken for a text: the test is made before the mask
is cut to its limits.

Source: `modules/core/m_mode.c`, lines 502–585 and 872–900.

## Main definitions

* `SetMode.maskGiven`: the mask that a letter gives to `pretty_mask`.
* `SetMode.Fits`: when the fourth mask has room.
* `SetMode.Filled`: what is in the buffer, compared with what was read of the line.

## Main results

* `SetMode.processed_iff`: when a line is processed.
-/

namespace Ratbox.SetMode

open Text List Option
open Channel (maxModeParams)
open Banlist (ModeType prettyMask checkString collapse maskParts orSplat splitFirst)

/-! ### What a letter does to the buffer -/

section Letters

variable (env : Env) (source_p : ℕ) (alevel : Bool) (parv : List Str)

/-- The list that a letter is for. -/
def typeOf : Char → Option ModeType
  | 'b' => some .ban
  | 'e' => some .exception
  | 'I' => some .invex
  | _ => none

/-- The mask that a letter gives to `pretty_mask`. -/
def maskGiven (st : Setting) (c : Char) : Option Str :=
  (typeOf c).bind fun type => (banFront env source_p alevel parv type st).2

/-- There is room for the mask of a letter, if it is the fourth one. -/
def Fits (st : Setting) (c : Char) : Prop :=
  ∀ raw ∈ maskGiven env source_p alevel parv st c, st.maskBuf.length = 3 →
    (st.maskBuf.map length).sum + (collapse (checkString raw) false).length ≤ 504

end Letters

/-- What a letter does that has no mask. -/
structure Kept (st st' : Setting) : Prop where
  maskBuf : st'.maskBuf = st.maskBuf
  modeLimit : st.modeLimit ≤ st'.modeLimit
  parn : st.parn ≤ st'.parn

/-- A mask was made. -/
structure Grown (st : Setting) (mask : Str) (st' : Setting) : Prop where
  maskBuf : st'.maskBuf = st.maskBuf ++ [mask]
  modeLimit : st.modeLimit + 1 ≤ st'.modeLimit
  parn : st.parn + 1 ≤ st'.parn

section Kept

variable {env : Env} {source_p : ℕ} {alevel : Bool} {parv : List Str} {st st' : Setting} {c : Char}
  {type : ModeType} {raw mask : Str}

theorem Kept.refl (st : Setting) : Kept st st := ⟨rfl, le_rfl, le_rfl⟩

theorem Kept.noOps (h : Kept st st') : Kept st st'.noOps := by
  rw [Setting.noOps]
  split_ifs <;> exact ⟨h.maskBuf, h.modeLimit, h.parn⟩

theorem Kept.counted (h : Kept st st') (my : Bool) : Kept st (st'.counted my) := by
  rw [Setting.counted]
  split_ifs
  · exact ⟨h.maskBuf, h.modeLimit.trans (Nat.le_succ _), h.parn⟩
  · exact h

/-- A parameter is used up. -/
theorem Kept.next (h : Kept st st') : Kept st { st' with parn := st'.parn + 1 } :=
  ⟨h.maskBuf, h.modeLimit, h.parn.trans (Nat.le_succ _)⟩

theorem kept_chmNosuch : Kept st (chmNosuch c st) := by
  rw [chmNosuch]
  split_ifs <;> exact ⟨rfl, le_rfl, le_rfl⟩

theorem kept_chmSimple {modeType : BitVec 32} :
    Kept st (chmSimple env source_p alevel c modeType st) := by
  have h := (Kept.refl st).counted (env.my source_p)
  rw [chmSimple]
  split_ifs
  · exact (Kept.refl st).noOps
  · dsimp only
    split_ifs <;> exact ⟨h.maskBuf, h.modeLimit, h.parn⟩

theorem kept_chmFlag {modeType caps : BitVec 32} {refused : Bool} :
    Kept st (chmFlag alevel modeType caps refused c st) := by
  rw [chmFlag]
  cases alevel with
  | false => exact (Kept.refl st).noOps
  | true =>
    rw [if_neg (by decide)]
    cases st.dir <;> dsimp only
    · exact Kept.refl st
    all_goals split_ifs <;> exact ⟨rfl, le_rfl, le_rfl⟩

theorem kept_chmLimit : Kept st (chmLimit alevel parv c st) := by
  have h := (Kept.refl st).next
  rw [chmLimit]
  cases alevel with
  | false => exact (Kept.refl st).noOps
  | true =>
    rw [if_neg (by decide)]
    split
    · dsimp only
      split_ifs <;> exact ⟨h.maskBuf, h.modeLimit, h.parn⟩
    · split_ifs <;> exact ⟨rfl, le_rfl, le_rfl⟩
    · exact Kept.refl st

theorem kept_chmKey : Kept st (chmKey env source_p alevel parv c st) := by
  have h := (Kept.refl st).next
  rw [chmKey]
  cases alevel with
  | false => exact (Kept.refl st).noOps
  | true =>
    rw [if_neg (by decide)]
    split
    · dsimp only
      split_ifs <;> exact ⟨h.maskBuf, h.modeLimit, h.parn⟩
    · dsimp only
      split_ifs <;> first
        | exact ⟨rfl, le_rfl, le_rfl⟩
        | exact ⟨rfl, le_rfl, Nat.le_succ _⟩
    · exact Kept.refl st

theorem kept_memberFront : Kept st (memberFront env source_p alevel parv st).1 := by
  have h := (Kept.refl st).next
  have hcount := h.counted (env.my source_p)
  rw [memberFront]
  cases alevel with
  | false => exact (Kept.refl st).noOps
  | true =>
    rw [if_neg (by decide)]
    cases st.param parv with
    | none => exact Kept.refl st
    | some opnick =>
      dsimp only
      by_cases hnick : opnick = []
      · rw [if_pos hnick]
        exact ⟨h.maskBuf, h.modeLimit, h.parn⟩
      rw [if_neg hnick]
      cases env.findChasing opnick with
      | none => exact h
      | some targ_p =>
        dsimp only
        cases st.ch.findMembership targ_p with
        | none =>
          dsimp only
          split_ifs <;> exact ⟨h.maskBuf, h.modeLimit, h.parn⟩
        | some ms =>
          dsimp only
          split_ifs <;> exact hcount

theorem kept_chmOp : Kept st (chmOp env source_p alevel parv c st) := by
  have h : Kept st (memberFront env source_p alevel parv st).1 := kept_memberFront
  rw [chmOp]
  generalize memberFront env source_p alevel parv st = front at h
  obtain ⟨st', _ | ⟨targ_p, ms⟩⟩ := front
  · exact h
  · dsimp only
    split_ifs <;> exact ⟨h.maskBuf, h.modeLimit, h.parn⟩

theorem kept_chmVoice : Kept st (chmVoice env source_p alevel parv c st) := by
  have h : Kept st (memberFront env source_p alevel parv st).1 := kept_memberFront
  rw [chmVoice]
  generalize memberFront env source_p alevel parv st = front at h
  obtain ⟨st', _ | ⟨targ_p, ms⟩⟩ := front
  · exact h
  · dsimp only
    split_ifs <;> exact ⟨h.maskBuf, h.modeLimit, h.parn⟩

theorem kept_banRest : Kept st (banRest env source_p c type raw mask st) := by
  rw [banRest]
  dsimp only
  by_cases hlong : mask.length > Banlist.modebufLen - 2
  · rw [if_pos hlong]
    exact Kept.refl st
  rw [if_neg hlong]
  cases st.dir with
  | query => exact Kept.refl st
  | add =>
    dsimp only
    split_ifs <;> exact ⟨rfl, le_rfl, le_rfl⟩
  | del =>
    dsimp only
    split_ifs <;> exact ⟨rfl, le_rfl, le_rfl⟩

/-- **The front of `chm_ban`** uses up a parameter when the function goes on. -/
theorem banFront_spec (hmy : env.my source_p = true) :
    (∃ st', banFront env source_p alevel parv type st = (st', none) ∧ Kept st st') ∨
      ∃ raw, banFront env source_p alevel parv type st =
          ({ st with modeLimit := st.modeLimit + 1, parn := st.parn + 1 }, some raw) ∧
        st.modeLimit < maxModeParams ∧ parv[st.parn]? = some raw ∧ raw ≠ [] := by
  rw [banFront]
  by_cases hoff : (env.off type && env.my source_p && st.dir = .add &&
    decide (st.parn < parv.length)) = true
  · rw [if_pos hoff]
    exact .inl ⟨st, rfl, Kept.refl st⟩
  rw [if_neg hoff]
  cases hparam : st.param parv with
  | none =>
    left
    dsimp only
    split_ifs
    · exact ⟨_, rfl, Kept.refl st⟩
    · exact ⟨_, rfl, Kept.noOps ⟨rfl, le_rfl, le_rfl⟩⟩
    · exact ⟨_, rfl, rfl, le_rfl, le_rfl⟩
  | some raw =>
    have hget : parv[st.parn]? = some raw := by
      rw [Setting.param] at hparam
      split_ifs at hparam
      exact hparam
    dsimp only
    rw [hmy, Setting.counted, if_pos rfl]
    split_ifs with hop hfull hraw hspace
    · exact .inl ⟨_, rfl, (Kept.refl st).noOps⟩
    · exact .inl ⟨_, rfl, rfl, Nat.le_succ _, le_rfl⟩
    · exact .inl ⟨_, rfl, rfl, Nat.le_succ _, Nat.le_succ _⟩
    · exact absurd hspace Bool.false_ne_true
    · right
      refine ⟨raw, rfl, ?_, hget, (not_or.mp hraw).1⟩
      rw [Bool.true_and, decide_eq_true_iff] at hfull
      exact Nat.lt_of_succ_le (not_lt.mp hfull)

theorem step_of_typeOf (h : typeOf c = some type) :
    step env source_p alevel parv st c = chmBan env source_p alevel parv c type st := by
  unfold typeOf at h
  split at h
  any_goals
    cases h
    rfl
  cases h

/-- A letter that is for no list does not fail. -/
theorem step_of_typeOf_none (h : typeOf c = none) :
    ∃ st', step env source_p alevel parv st c = some st' ∧ Kept st st' := by
  unfold step
  split
  · exact ⟨_, rfl, rfl, le_rfl, le_rfl⟩
  · exact ⟨_, rfl, rfl, le_rfl, le_rfl⟩
  · exact ⟨_, rfl, rfl, le_rfl, le_rfl⟩
  unfold chm
  split
  all_goals first
    | exact absurd h (by decide)
    | exact ⟨_, rfl, kept_chmSimple⟩
    | exact ⟨_, rfl, kept_chmFlag⟩
    | exact ⟨_, rfl, kept_chmKey⟩
    | exact ⟨_, rfl, kept_chmLimit⟩
    | exact ⟨_, rfl, kept_chmOp⟩
    | exact ⟨_, rfl, kept_chmVoice⟩
    | exact ⟨_, rfl, kept_chmNosuch⟩
    | skip
  refine ⟨_, rfl, ?_⟩
  split_ifs
  · exact kept_chmFlag
  · exact kept_chmNosuch

/-- **A letter without a mask** does not fail. -/
theorem step_of_maskGiven_none (hmy : env.my source_p = true)
    (h : maskGiven env source_p alevel parv st c = none) :
    ∃ st', step env source_p alevel parv st c = some st' ∧ Kept st st' := by
  cases htype : typeOf c with
  | none => exact step_of_typeOf_none htype
  | some type =>
    rw [maskGiven, htype, bind_some] at h
    obtain ⟨st', heq, hkept⟩ | ⟨raw, heq, -⟩ := banFront_spec hmy
    · exact ⟨st', by rw [step_of_typeOf htype, chmBan, heq], hkept⟩
    · rw [heq] at h
      cases h

/-- **A letter with a mask** fails when `pretty_mask` does. -/
theorem step_of_maskGiven (hmy : env.my source_p = true)
    (h : maskGiven env source_p alevel parv st c = some raw) :
    (st.modeLimit < maxModeParams ∧ parv[st.parn]? = some raw ∧ raw ≠ []) ∧
      ∃ f : Str → Setting, step env source_p alevel parv st c = (prettyMask st.maskPos raw).map f ∧
        ∀ mask, Grown st mask (f mask) := by
  cases htype : typeOf c with
  | none =>
    rw [maskGiven, htype] at h
    cases h
  | some type =>
    rw [maskGiven, htype, Option.bind_some] at h
    obtain ⟨st', heq, -⟩ | ⟨raw', heq, hlimit, hget, hne⟩ := banFront_spec hmy
    · rw [heq] at h
      cases h
    · rw [heq] at h
      obtain rfl := Option.some.inj h
      refine ⟨⟨hlimit, hget, hne⟩, _, by rw [step_of_typeOf htype, chmBan, heq, hmy]; rfl,
        fun mask => ?_⟩
      have hrest : Kept
        { st with
          maskBuf := st.maskBuf ++ [mask], modeLimit := st.modeLimit + 1, parn := st.parn + 1 }
        (banRest env source_p c type raw' mask _) := kept_banRest
      exact ⟨hrest.maskBuf, hrest.modeLimit, hrest.parn⟩

end Kept

/-! ### The lengths -/

section Lengths

variable {mask raw s a b : Str} {c : Char} {maskPos source_p : ℕ} {para : List Str}

theorem length_orSplat_le (s : Str) : (orSplat s).length ≤ s.length + 1 := by
  obtain h | h := Banlist.orSplat_cases s
  · rw [h]
    exact Nat.succ_le_succ (Nat.zero_le _)
  · rw [h]
    exact Nat.le_succ _

theorem length_orSplat_le_max (s : Str) : (orSplat s).length ≤ max s.length 1 := by
  obtain h | h := Banlist.orSplat_cases s
  · rw [h]
    exact le_max_right _ _
  · rw [h]
    exact le_max_left _ _

theorem length_of_splitFirst (h : splitFirst c s = some (a, b)) :
    s.length = a.length + b.length + 1 := by
  rw [(Banlist.splitFirst_eq_some h).1, length_append, length_cons, Nat.add_assoc]

theorem length_collapse_le (s : Str) :
    (collapse (checkString s) false).length ≤ max s.length 1 := by
  rw [Escapes.collapse_eq_squeeze]
  refine (destutter_sublist _ _).length_le.trans ?_
  rw [checkString]
  split_ifs
  · exact le_max_right _ _
  · exact (takeWhile_sublist _).length_le.trans (le_max_left _ _)

/-- The parts of a mask have at most two characters more than it, besides the two that join them. -/
theorem length_maskParts_le {nick user host : Str} (h : maskParts mask = (nick, user, host)) :
    nick.length + user.length + host.length + 2 ≤ max mask.length 1 + 4 := by
  rw [maskParts] at h
  split at h
  · rename_i front host' hat
    have hmask := length_of_splitFirst hat
    have hhost := length_orSplat_le host'
    split at h
    · rename_i nick' user' hex
      have hfront := length_of_splitFirst hex
      have hnick := length_orSplat_le nick'
      have huser := length_orSplat_le user'
      obtain ⟨rfl, rfl, rfl⟩ := h
      omega
    · have huser := length_orSplat_le front
      obtain ⟨rfl, rfl, rfl⟩ := h
      simp only [length_singleton]
      omega
  · split at h
    · rename_i nick' user' hex
      have hmask := length_of_splitFirst hex
      have hnick := length_orSplat_le nick'
      have huser := length_orSplat_le user'
      obtain ⟨rfl, rfl, rfl⟩ := h
      simp only [length_singleton]
      omega
    · have hwhole := length_orSplat_le_max mask
      split_ifs at h
      all_goals
        obtain ⟨rfl, rfl, rfl⟩ := h
        simp only [length_singleton]
        omega

/-- **A mask grows by at most four characters.** -/
theorem length_prettyMask_le (hraw : raw ≠ []) (h : prettyMask maskPos raw = some mask) :
    mask.length ≤ raw.length + 4 := by
  rw [prettyMask] at h
  dsimp only at h
  split_ifs at h
  have hlen := length_collapse_le raw
  rcases hparts : maskParts (collapse (checkString raw) false) with ⟨nick, user, host⟩
  rw [hparts] at h
  cases h
  have hle := length_maskParts_le hparts
  have hpos := length_pos_iff.mpr hraw
  simp only [length_append, length_cons, length_take]
  omega

/-- When `pretty_mask` has no room. -/
theorem prettyMask_eq_none_iff : prettyMask maskPos raw = none ↔
    ircdBufsize < maskPos + (collapse (checkString raw) false).length + 5 := by
  rw [prettyMask]
  dsimp only
  split_ifs with hfull
  · exact iff_of_true rfl (by omega)
  · refine iff_of_false (by simp) ?_
    omega

theorem length_command (ch : Str)
    (h : stringToArray Burst.maxpara (ch.dropWhile (· != ' ')).tail ≠ []) :
    (ch.takeWhile (· != ' ')).length +
      (spaced (stringToArray Burst.maxpara (ch.dropWhile (· != ' ')).tail)).length ≤ ch.length := by
  have hsplit := length_takeWhile_dropWhile (· != ' ') ch
  have hle := length_spaced_stringToArray Burst.maxpara (ch.dropWhile (· != ' ')).tail
  have hne : ch.dropWhile (· != ' ') ≠ [] := fun hnil => h (by rw [hnil]; rfl)
  have hpos := length_pos_iff.mpr hne
  rw [length_tail] at hle
  omega

/-- A line is at least as long as the command and the parameters with a space behind each. -/
theorem length_of_parse {line command : Str} {sender : Option Str}
    (h : Burst.parse line = some (sender, command, para)) (hpara : para ≠ []) :
    command.length + (spaced para).length ≤ line.length := by
  have hskip : (line.dropWhile (· == ' ')).length ≤ line.length := (dropWhile_suffix _).length_le
  rw [Burst.parse] at h
  dsimp only at h
  generalize line.dropWhile (· == ' ') = ch at h hskip
  by_cases hcolon : ch.head? = some ':'
  · rw [if_pos hcolon] at h
    dsimp only at h
    split_ifs at h
    all_goals
      obtain ⟨-, rfl, rfl⟩ := h
      refine (length_command _ hpara).trans ((dropWhile_suffix _).length_le.trans ?_)
    · refine (tail_suffix _).length_le.trans ((dropWhile_suffix _).length_le.trans ?_)
      exact (tail_suffix _).length_le.trans hskip
    · exact (tail_suffix _).length_le.trans hskip
  · rw [if_neg hcolon] at h
    dsimp only at h
    split_ifs at h
    obtain ⟨-, rfl, rfl⟩ := h
    exact (length_command _ hpara).trans hskip

/-- The name of a channel is in front of the parameters. -/
theorem mMode_eq_some {env : Env} {call : Call} (h : mMode env source_p para = some call) :
    ∃ chname, para = chname :: call.parv ∧ chname ≠ [] := by
  rw [mMode.eq_def] at h
  split at h
  · rename_i chname ml para
    refine ⟨chname, ?_⟩
    generalize hdest : (if (env.client source_p).operSpy ∧ chname.head? = some '!' then
      chname.tail else chname) = dest at h
    dsimp only at h
    split_ifs at h with hname
    obtain ⟨ch, -, h⟩ := bind_eq_some_iff.mp h
    split_ifs at h
    cases h
    refine ⟨rfl, ?_⟩
    rintro rfl
    obtain rfl : dest = [] := by simpa using hdest.symm
    exact hname rfl
  · cases h

/-- **The length of a line** that leads to a call of `set_channel_mode`. -/
theorem length_of_received {env : Env} {line : Str} {call : Call}
    (h : received env source_p line = some call) : 6 + (spaced call.parv).length ≤ line.length := by
  rw [received] at h
  split at h
  · rename_i sender command para hparse
    split_ifs at h with hcommand
    have hlen : command.length = 4 := by
      have hmap := congrArg length (beq_iff_eq.mp hcommand)
      simpa using hmap
    obtain ⟨chname, rfl, hchname⟩ := mMode_eq_some h
    have hle := length_of_parse hparse (by simp)
    have hpos := length_pos_iff.mpr hchname
    rw [spaced_cons, length_append, length_cons] at hle
    omega
  · cases h

end Lengths

/-! ### The masks of a line -/

/-- What is in the buffer after `n` letters: each mask had a letter and a parameter, and is at most
four characters longer than it. -/
structure Filled (call : Call) (n : ℕ) (st : Setting) : Prop where
  count : st.maskBuf.length ≤ st.modeLimit
  letters : st.maskBuf.length ≤ n
  room : st.maskPos + call.ml.length + 1 ≤ (spaced (call.parv.take st.parn)).length +
    4 * st.maskBuf.length

section Filled

variable {env : Env} {source_p : ℕ} {alevel : Bool} {call : Call} {st st' : Setting} {c : Char}
  {raw mask : Str} {n : ℕ}

theorem filled_start (call : Call) : Filled call 0 (start call.ch) :=
  ⟨le_rfl, le_rfl, by simp [start, Setting.maskPos, Call.parv]⟩

theorem Filled.kept (h : Filled call n st) (hst : Kept st st') : Filled call (n + 1) st' := by
  have hle := length_spaced_take_mono call.parv hst.parn
  have hroom := h.room
  refine ⟨?_, ?_, ?_⟩
  · rw [hst.maskBuf]
    exact h.count.trans hst.modeLimit
  · rw [hst.maskBuf]
    exact h.letters.trans (Nat.le_succ n)
  · rw [Setting.maskPos, hst.maskBuf]
    exact hroom.trans (Nat.add_le_add_right hle _)

theorem Filled.grown (h : Filled call n st) (hraw : raw ≠ [])
    (hget : call.parv[st.parn]? = some raw)
    (hmask : prettyMask st.maskPos raw = some mask) (hst : Grown st mask st') :
    Filled call (n + 1) st' := by
  have hle := length_spaced_take_mono call.parv hst.parn
  have hgrow := length_prettyMask_le hraw hmask
  have hlen : st'.maskBuf.length = st.maskBuf.length + 1 := by rw [hst.maskBuf, length_append,
    length_singleton]
  have hpos : st'.maskPos = st.maskPos + (mask.length + 1) := by simp [Setting.maskPos, hst.maskBuf]
  rw [length_spaced_take_succ hget] at hle
  have hroom := h.room
  have hcount := h.count
  have hletters := h.letters
  have hlimit := hst.modeLimit
  exact ⟨by omega, by omega, by omega⟩

theorem maskPos_eq (st : Setting) :
    st.maskPos = (st.maskBuf.map length).sum + st.maskBuf.length := by
  rw [Setting.maskPos]
  induction st.maskBuf with
  | nil => rfl
  | cons b bs ih =>
    simp only [map_cons, sum_cons, length_cons, ih]
    omega

/-- **A mask has room unless it is the fourth one.** -/
theorem Filled.fits_iff (h : Filled call n st) (hmy : env.my source_p = true)
    (hlen : 6 + (spaced call.parv).length ≤ 510) (hn : n < call.ml.length)
    (hraw : maskGiven env source_p alevel call.parv st c = some raw) :
    Fits env source_p alevel call.parv st c ↔ prettyMask st.maskPos raw ≠ none := by
  obtain ⟨⟨hlimit, hget, hne⟩, -⟩ := step_of_maskGiven hmy hraw
  have hfits : Fits env source_p alevel call.parv st c ↔ (st.maskBuf.length = 3 →
      (st.maskBuf.map length).sum + (collapse (checkString raw) false).length ≤ 504) := by
    simp [Fits, hraw]
  rw [hfits, Ne, prettyMask_eq_none_iff, Nat.not_lt, maskPos_eq]
  have hcollapse := length_collapse_le raw
  have hpos := length_pos_iff.mpr hne
  have htake := length_spaced_take_succ hget
  have hwhole : (spaced (call.parv.take (st.parn + 1))).length ≤ (spaced call.parv).length := by
    have hle := length_spaced_take_mono call.parv (k := st.parn + 1) (m :=
      max (st.parn + 1) call.parv.length) (le_max_left _ _)
    rwa [take_of_length_le (le_max_right _ _)] at hle
  have hroom := h.room
  have hcount := h.count
  have hletters := h.letters
  rw [maskPos_eq] at hroom
  rw [maxModeParams] at hlimit
  rw [ircdBufsize]
  omega

theorem run_ne_none_iff (hmy : env.my source_p = true) (hlen : 6 + (spaced call.parv).length ≤ 510)
    (rest : Str) (hn : n + rest.length ≤ call.ml.length) (h : Filled call n st) :
    Run.run (call.step env source_p) st rest ≠ none ↔
      Run.StepsMeet (call.step env source_p)
        (Fits env source_p (getChannelAccess env source_p call.msptr) call.parv) st rest := by
  induction rest generalizing n st with
  | nil => simp [Run.run, Run.StepsMeet]
  | cons c rest ih =>
    rw [length_cons] at hn
    rw [Run.run, Run.StepsMeet]
    cases hraw : maskGiven env source_p (getChannelAccess env source_p call.msptr) call.parv st
      c with
    | none =>
      obtain ⟨st', hst', hkept⟩ := step_of_maskGiven_none hmy hraw
      have hfits : Fits env source_p (getChannelAccess env source_p call.msptr) call.parv st c := by
        simp [Fits, hraw]
      have hstep : call.step env source_p st c = some st' := hst'
      simp only [hstep, hfits, bind_some, true_and, some.injEq, forall_eq']
      exact ih (by omega) (h.kept hkept)
    | some raw =>
      obtain ⟨⟨-, hget, hne⟩, f, hst', hgrown⟩ := step_of_maskGiven hmy hraw
      rw [h.fits_iff hmy hlen (by omega) hraw]
      cases hmask : prettyMask st.maskPos raw with
      | none =>
        have hstep : call.step env source_p st c = none := by rw [Call.step, hst', hmask, map_none]
        simp [hstep]
      | some mask =>
        have hstep : call.step env source_p st c = some (f mask) := by
          rw [Call.step, hst', hmask, map_some]
        simp only [hstep, bind_some, ne_eq, reduceCtorEq, not_false_eq_true, true_and, some.injEq,
          forall_eq']
        exact ih (by omega) (h.grown hne hget hmask (hgrown mask))

/-- **When a line is processed.** For a line of a local client, no letter fails if and only if the
fourth mask has room in the buffer behind the three in front of it. -/
theorem processed_iff (env : Env) (source_p : ℕ) (line : Str) (hmy : env.my source_p = true)
    (hlen : line.length ≤ 510) :
    (∀ call, received env source_p line = some call → call.run env source_p ≠ none) ↔
      ∀ call, received env source_p line = some call → Run.StepsMeet (call.step env source_p)
        (Fits env source_p (getChannelAccess env source_p call.msptr) call.parv)
        (start call.ch) call.ml := by
  refine forall_congr' fun call => forall_congr' fun hcall => ?_
  exact run_ne_none_iff hmy ((length_of_received hcall).trans hlen) call.ml (Nat.zero_add _).le
    (filled_start call)

end Filled

/-! ### A fourth mask that has no room -/

/-- A local client. -/
def someone : Client where
  kind := .localUser
  name := "nick".toList
  username := "user".toList
  host := "host.example".toList
  sockhost := "192.0.2.1".toList
  oper := false
  exemptResv := false
  id := "1AAAAAAAA".toList
  service := false
  operSpy := false
  name_le := by decide
  username_le := by decide
  host_le := by decide
  id_le := by decide

/-- A channel whose operator is the client 0. -/
def somewhere : Chan where
  chname := "#c".toList
  mode := 0
  members := [⟨0, ⟨true, false, false⟩, false, 0⟩]
  banlist := []
  exceptlist := []
  invexlist := []
  banSerial := 0
  limit := 0
  key := []
  channelts := 800000000
  key_lt := Channel.Mode.empty.key_lt
  chname_le := by decide
  channelts_long := by decide

/-- A server with this client and this channel. -/
def somehow : Env where
  conf := ⟨true, true, 25, fun _ => false⟩
  useInvex := true
  useSslonly := true
  services := false
  client := fun _ => someone
  findChasing := fun _ => none
  findChannel := fun name => if name = "#c".toList then some somewhere else none
  servers := 0
  comboCount := fun _ => 0

/-- Two masks and a key. -/
def bansAndKey : Str := "MODE #c +bbk a!b@c *!*d@e.example key".toList

theorem processed_somehow :
    (∀ call, received somehow 0 bansAndKey = some call → call.run somehow 0 ≠ none) ↔
      ∀ call, received somehow 0 bansAndKey = some call → Run.StepsMeet (call.step somehow 0)
        (Fits somehow 0 (getChannelAccess somehow 0 call.msptr) call.parv)
        (start call.ch) call.ml :=
  processed_iff somehow 0 _ rfl (by decide)

/-- A line of 509 bytes whose fourth mask has no room. -/
theorem fourth_mask : ¬∀ (env : Env) (source_p : ℕ) (line : Str), env.my source_p = true →
    line.length ≤ 510 → ∀ call, received env source_p line = some call → call.run env source_p ≠
    none := by
  intro h
  have hrun : (received somehow 0 ("MODE #c bbbb a b c ".toList ++ replicate 490 'd')).map
      (fun call => (call.run somehow 0).isNone) = some true := by decide +kernel
  obtain ⟨call, hcall, hnone⟩ := map_eq_some_iff.mp hrun
  exact h somehow 0 _ rfl (by decide +kernel) call hcall (isNone_iff_eq_none.mp hnone)

end Ratbox.SetMode
