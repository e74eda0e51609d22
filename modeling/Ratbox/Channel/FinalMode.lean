import Ratbox.Channel.Forwarding
import Ratbox.SetMode.Masks

/-!
# The line of the modes that change

When `ms_sjoin` has found the modes of a channel, `set_final_mode` tells the members in one line how
to come to them from the old ones. A flag, a limit and a key that went away are taken back, and a
new limit and a new key are written behind the letters, in the order in which the letters ask for
them. `ms_sjoin` takes the limit and the key from the message as they are. Where a line is read,
`chm_limit` goes over a limit that is not positive, and `chm_key` drops some characters from a key.

Source: `modules/core/m_join.c`, lines 506–555, 598–620 and 980–1112, and `modules/core/m_mode.c`,
lines 654–686, 692–736, 1105–1313 and 1410–1470.

## Main definitions

* `Channel.Produces`: `ms_sjoin` goes over from modes to others.
* `Channel.Told`: the line of `set_final_mode` leads from modes to others.
* `Channel.Accepted`: a new limit and a new key are kept as they are.

## Main results

* `Channel.told_iff`: the modes that the line leads to.
-/

namespace Ratbox.Channel

open Text Run List Option BitVec
open SetMode (Setting Dir Env fixKeyRemote chmSimple chmFlag)

/-! ### The line -/

/-- What `set_final_mode` writes into `lmodebuf`, with the last sign. -/
def finalLine (services : Bool) (mode oldmode : Mode) : Str × Char :=
  let letters := finalLetters services
  let line := putLetters ([], '=') '+' (lettersOf letters (mode.mode &&& ~~~oldmode.mode))
  let line := putLetters line '-' (lettersOf letters (oldmode.mode &&& ~~~mode.mode))
  let line := putLetters line '-' (if oldmode.limit ≠ 0 ∧ mode.limit = 0 then ['l'] else [])
  let line := putLetters line '-' (if oldmode.key ≠ [] ∧ mode.key = [] then ['k'] else [])
  let line := putLetters line '+' (if mode.limit ≠ 0 ∧ oldmode.limit ≠ mode.limit then ['l']
    else [])
  putLetters line '+' (if mode.key ≠ [] ∧ oldmode.key ≠ mode.key then ['k'] else [])

/-- What it writes into `lparabuf`. -/
def finalPara (mode oldmode : Mode) : List Str :=
  (if oldmode.key ≠ [] ∧ mode.key = [] then [oldmode.key] else []) ++
    (if mode.limit ≠ 0 ∧ oldmode.limit ≠ mode.limit then [decimal mode.limit] else []) ++
      (if mode.key ≠ [] ∧ oldmode.key ≠ mode.key then [mode.key] else [])

theorem setFinalMode_eq (services : Bool) (source chname : Str) (mode oldmode : Mode) :
    setFinalMode services source chname mode oldmode =
      if (finalLine services mode oldmode).1 = [] then []
      else
      [.simpleModes source chname (finalLine services mode oldmode).1 (finalPara mode oldmode)] :=
      rfl

/-! ### Reading the line -/

/-- A channel has the modes. -/
structure HasMode (ch : SetMode.Chan) (m : Mode) : Prop where
  mode : ch.mode = m.mode
  limit : ch.limit = m.limit
  key : ch.key = m.key

/-- The channel after the lines of modes, which are read as `set_channel_mode` reads those of a
server. -/
def afterLines (env : Env) (source_p : ℕ) (ch : SetMode.Chan) : List Out → Option SetMode.Chan
  | [] => some ch
  | .simpleModes _ _ letters para :: lines =>
    (SetMode.Call.run env source_p ⟨ch, none, letters, para⟩).bind fun st => afterLines env source_p
      st.ch lines
  | _ :: _ => none

/-- `ms_sjoin` goes over from the modes `oldmode` of a channel to `mode`. -/
def Produces (services : Bool) (oldmode mode : Mode) : Prop :=
  ∃ parv msg isnew oldts, readSjoin services parv = some msg ∧ (resolve isnew oldts msg.newts).mode
    msg.mode oldmode = mode

/-- The line leads from the old modes to the new ones, and there is none when they are the same. -/
def Told (env : Env) (source_p : ℕ) (ch : SetMode.Chan) (source chname : Str)
    (mode oldmode : Mode) : Prop :=
  let lines := setFinalMode env.services source chname mode oldmode
  (∃ ch', afterLines env source_p ch lines = some ch' ∧ HasMode ch' mode) ∧
    (lines = [] ↔ mode = oldmode)

/-- A limit that is new is not negative, and `fix_key_remote` leaves a key that is new as it is. -/
def Accepted (oldmode mode : Mode) : Prop :=
  (mode.limit = oldmode.limit ∨ 0 ≤ mode.limit) ∧ (mode.key = oldmode.key ∨ fixKeyRemote mode.key =
    mode.key)

instance (oldmode mode : Mode) : Decidable (Accepted oldmode mode) :=
  inferInstanceAs (Decidable (_ ∧ _))

/-! ### Flags -/

/-- What a letter does to the flags. -/
def setFlag (dir : Dir) (mode flag : BitVec 32) : BitVec 32 :=
  match dir with
  | .query => mode
  | .add => mode ||| flag
  | .del => mode &&& ~~~flag

theorem setFlag_zero (dir : Dir) (mode : BitVec 32) : setFlag dir mode 0 = mode := by
  cases dir with
  | query => rfl
  | add => exact or_zero
  | del => exact and_allOnes

theorem setFlag_setFlag (dir : Dir) (mode flag flag' : BitVec 32) :
    setFlag dir (setFlag dir mode flag) flag' = setFlag dir mode (flag ||| flag') := by
  cases dir with
  | query => rfl
  | add => exact or_assoc ..
  | del => rw [setFlag, setFlag, setFlag, BitVec.not_or, BitVec.and_assoc]

/-- Where the flag is as it should be, the letter changes nothing. -/
theorem setFlag_of_set {mode : BitVec 32} {i : ℕ} (h : mode &&& twoPow 32 i ≠ 0) :
    setFlag .add mode (twoPow 32 i) = mode := by
  have hset := and_twoPow_eq_self h
  rw [setFlag, ← hset]
  ext j
  simp only [getElem_or, getElem_and]
  cases mode[j] <;> simp

theorem setFlag_of_unset {mode flag : BitVec 32} (h : mode &&& flag = 0) :
    setFlag .del mode flag = mode := by
  rw [setFlag]
  ext j hj
  have hbit := congrArg (fun x : BitVec 32 => x[j]) h
  simp only [getElem_and, getElem_not] at hbit ⊢
  revert hbit
  cases mode[j] <;> simp

theorem tableMask_finalLetters (services : Bool) :
    tableMask (finalLetters services) = modeMask services := by
  cases services <;> decide

theorem isTable_finalLetters (services : Bool) : IsTable services (finalLetters services) := by
  have hbits : ∀ p ∈ finalLetters services, modeBit services p.1 = some p.2 ∧ ∃ i < 8,
      p.2 = twoPow 32 i := by
    cases services <;> decide
  intro p hp
  obtain ⟨hbit, i, -, hi⟩ := hbits p hp
  exact ⟨hbit, i, hi⟩

/-- The letters for flags are none where none of the flags has a letter. -/
theorem lettersOf_eq_nil {table : List (Char × BitVec 32)} {flags : BitVec 32} :
    lettersOf table flags = [] ↔ flags &&& tableMask table = 0 := by
  induction table with
  | nil => simp [lettersOf, tableMask]
  | cons p table ih =>
    have hmask : tableMask (p :: table) = p.2 ||| tableMask table := rfl
    have hor (x y : BitVec 32) : x ||| y = 0 ↔ x = 0 ∧ y = 0 := or_eq_zero_iff
    rw [hmask, and_or_distrib_left, hor, ← ih]
    by_cases hset : flags &&& p.2 = 0
    · have hletters : lettersOf (p :: table) flags = lettersOf table flags :=
        filterMap_cons_none (by simpa using hset)
      rw [hletters]
      exact (and_iff_right hset).symm
    · have hletters : lettersOf (p :: table) flags = p.1 :: lettersOf table flags :=
        filterMap_cons_some (by simpa using hset)
      rw [hletters]
      exact ⟨fun h => absurd h (cons_ne_nil _ _), fun h => absurd h.1 hset⟩

/-- The old flags with what came and without what went. -/
theorem flags_eq (mode oldmode mask : BitVec 32) (hmode : mode &&& mask = mode)
    (hold : oldmode &&& mask = oldmode) :
    setFlag .del (setFlag .add oldmode (mode &&& ~~~oldmode &&& mask))
    (oldmode &&& ~~~mode &&& mask) = mode := by
  simp only [setFlag]
  ext j hj
  have hmode := congrArg (fun x : BitVec 32 => x[j]) hmode
  have hold := congrArg (fun x : BitVec 32 => x[j]) hold
  simp only [getElem_and, getElem_or, getElem_not] at hmode hold ⊢
  revert hmode hold
  cases mode[j] <;> cases oldmode[j] <;> cases mask[j] <;> simp

/-! ### Letters -/

section Reading

variable {env : Env} {source_p : ℕ} {parv : List Str} {st : Setting} {dir : Dir} {parn : ℕ}
  {mode flag : BitVec 32} {limit : ℤ} {key : Str}

/-- What the letters that were read have come to. -/
structure At (st : Setting) (dir : Dir) (parn : ℕ) (mode : BitVec 32) (limit : ℤ) (key : Str) :
    Prop where
  dir : st.dir = dir
  parn : st.parn = parn
  mode : st.ch.mode = mode
  limit : st.ch.limit = limit
  key : st.ch.key = key

section

variable (h : At st dir parn mode limit key)
include h

theorem At.chmSimple (hmy : env.my source_p = false) (hdir : dir ≠ .query) (c : Char)
    (i : ℕ) : At (chmSimple env source_p true c (twoPow 32 i) st) dir parn
      (setFlag dir mode (twoPow 32 i)) limit key := by
  obtain ⟨rfl, rfl, rfl, rfl, rfl⟩ := h
  simp only [SetMode.chmSimple, Bool.not_true, Bool.false_eq_true, ↓reduceIte, hmy, Bool.false_and,
    Setting.counted]
  split_ifs with hadd hdel
  · exact ⟨rfl, rfl, by rw [hadd.1]; rfl, rfl, rfl⟩
  · exact ⟨rfl, rfl, by rw [hdel.1]; rfl, rfl, rfl⟩
  · refine ⟨rfl, rfl, ?_, rfl, rfl⟩
    cases hst : st.dir with
    | query => exact absurd hst hdir
    | add => exact (setFlag_of_set fun hunset => hadd ⟨hst, hunset⟩).symm
    | del => exact (setFlag_of_unset (not_not.mp fun hset => hdel ⟨hst, hset⟩)).symm

theorem At.chmFlag (hdir : dir ≠ .query) (c : Char) (caps : BitVec 32) (i : ℕ) :
    At (chmFlag true (twoPow 32 i) caps false c st) dir parn (setFlag dir mode (twoPow 32 i)) limit
    key := by
  obtain ⟨rfl, rfl, rfl, rfl, rfl⟩ := h
  simp only [SetMode.chmFlag, Bool.not_true, Bool.false_eq_true, ↓reduceIte, or_false]
  cases hst : st.dir with
  | query => exact absurd hst hdir
  | add =>
    dsimp only
    split_ifs with hset
    · exact ⟨hst, rfl, (setFlag_of_set hset).symm, rfl, rfl⟩
    · exact ⟨rfl, rfl, rfl, rfl, rfl⟩
  | del =>
    dsimp only
    split_ifs with hunset
    · exact ⟨hst, rfl, (setFlag_of_unset hunset).symm, rfl, rfl⟩
    · exact ⟨rfl, rfl, rfl, rfl, rfl⟩

/-- **A letter of a flag** sets it, or takes it back. -/
theorem At.letter (hmy : env.my source_p = false) (hdir : dir ≠ .query) {c : Char}
    {i : ℕ} (hflag : flag = twoPow 32 i) (hbit : modeBit env.services c = some flag) :
    ∃ st', SetMode.step env source_p true parv st c = some st' ∧
    At st' dir parn (setFlag dir mode flag) limit key := by
  have hsimple := h.chmSimple hmy hdir c i
  have hchm := fun caps => h.chmFlag hdir c caps i
  simp only [← hflag] at hsimple hchm
  unfold modeBit at hbit
  split at hbit
  case h_7 =>
    obtain ⟨hservices, hbit⟩ := ite_none_right_eq_some.mp hbit
    cases hbit
    refine ⟨_, ?_, hchm SetMode.capService⟩
    change some (if env.services then SetMode.chmRegonly true 'r' st else _) = _
    rw [if_pos hservices]
    rfl
  case h_8 =>
    cases hbit
    refine ⟨_, ?_, hchm 0⟩
    change some (SetMode.chmFlag true modeSslOnly 0 (env.my source_p && !env.useSslonly) 'S' st) = _
    rw [hmy]
    rfl
  case h_9 => cases hbit
  all_goals
    cases hbit
    exact ⟨_, rfl, hsimple⟩

/-- The letters of flags set them, or take them back. -/
theorem At.letters (hmy : env.my source_p = false) (hdir : dir ≠ .query)
    {table : List (Char × BitVec 32)} (ht : IsTable env.services table) (flags : BitVec 32) :
    ∃ st', run (SetMode.step env source_p true parv) st (lettersOf table flags) = some st' ∧
      At st' dir parn (setFlag dir mode (flags &&& tableMask table)) limit key := by
  induction table generalizing st mode with
  | nil =>
    rw [show flags &&& tableMask [] = 0 from and_zero, setFlag_zero]
    exact ⟨st, rfl, h⟩
  | cons p table ih =>
    obtain ⟨hbit, hbits⟩ := ht p mem_cons_self
    have ht' : IsTable env.services table := fun q hq => ht q (mem_cons_of_mem p hq)
    have hmask : tableMask (p :: table) = p.2 ||| tableMask table := rfl
    rw [hmask, and_or_distrib_left, ← setFlag_setFlag]
    obtain ⟨hand, hletters⟩ | ⟨hand, hletters⟩ := lettersOf_cons_cases hbits table flags
    · rw [hletters, hand, setFlag_zero]
      exact ih h ht'
    · obtain ⟨i, hi⟩ := hbits
      obtain ⟨st₁, hstep, h₁⟩ := h.letter hmy hdir hi hbit
      obtain ⟨st₂, hrun, h₂⟩ := ih h₁ ht'
      rw [hletters, hand]
      exact ⟨st₂, by rw [run, hstep, bind_some, hrun], h₂⟩

end

/-- The letter `l` with a minus takes the limit back. -/
theorem At.limitOff (h : At st .del parn mode limit key) :
    ∃ st', SetMode.step env source_p true parv st 'l' = some st' ∧ At st' .del parn mode 0 key := by
  refine ⟨_, rfl, ?_⟩
  obtain ⟨hdir, rfl, rfl, rfl, rfl⟩ := h
  simp only [SetMode.chmLimit, Bool.not_true, Bool.false_eq_true, ↓reduceIte, hdir]
  split_ifs with hlimit
  · exact ⟨hdir, rfl, rfl, hlimit, rfl⟩
  · exact ⟨rfl, rfl, rfl, rfl, rfl⟩

/-- The letter `k` with a minus takes the key back, and goes over a parameter. -/
theorem At.keyOff (h : At st .del parn mode limit key) (hparn : parn < parv.length) :
    ∃ st', SetMode.step env source_p true parv st 'k' = some st' ∧
    At st' .del (parn + 1) mode limit [] := by
  refine ⟨_, rfl, ?_⟩
  obtain ⟨hdir, rfl, rfl, rfl, rfl⟩ := h
  have harg : parv[st.parn]?.isSome = true := by simpa using hparn
  simp only [SetMode.chmKey, Bool.not_true, Bool.false_eq_true, ↓reduceIte, hdir, harg]
  split_ifs with hkey
  · exact ⟨rfl, rfl, rfl, rfl, hkey⟩
  · exact ⟨rfl, rfl, rfl, rfl, rfl⟩

/-- The letter `l` with a plus sets the limit, where it is positive. -/
theorem At.limitOn (h : At st .add parn mode limit key) {n : ℤ} (hn : -2 ^ 31 ≤ n ∧ n < 2 ^ 31)
    (hparn : parv[parn]? = some (decimal n)) :
    ∃ st', SetMode.step env source_p true parv st 'l' = some st' ∧
      At st' .add (parn + 1) mode (if n ≤ 0 then limit else n) key := by
  refine ⟨_, rfl, ?_⟩
  obtain ⟨hdir, rfl, rfl, rfl, rfl⟩ := h
  have hne : decimal n ≠ [] := (word_decimal n).1
  simp only [SetMode.chmLimit, Bool.not_true, Bool.false_eq_true, ↓reduceIte, hdir, hparn, hne,
    false_or, atoi_decimal hn]
  split_ifs with hneg
  · exact ⟨rfl, rfl, rfl, rfl, rfl⟩
  · exact ⟨rfl, rfl, rfl, rfl, rfl⟩

/-- The letter `k` with a plus sets the key to what `fix_key_remote` leaves of it, where it leaves
something. -/
theorem At.keyOn (h : At st .add parn mode limit key) (hmy : env.my source_p = false) {arg : Str}
    (hparn : parv[parn]? = some arg) :
    ∃ st', SetMode.step env source_p true parv st 'k' = some st' ∧
      At st' .add (parn + 1) mode limit (if fixKeyRemote arg = [] then key
        else strlcpy (fixKeyRemote arg) keyLen) := by
  refine ⟨_, rfl, ?_⟩
  obtain ⟨hdir, rfl, rfl, rfl, rfl⟩ := h
  simp only [SetMode.chmKey, Bool.not_true, Bool.false_eq_true, ↓reduceIte, hdir, hparn, hmy]
  split_ifs with hkey
  · exact ⟨rfl, rfl, rfl, rfl, rfl⟩
  · exact ⟨rfl, rfl, rfl, rfl, rfl⟩

/-! ### Signs -/

/-- The direction that a sign gives. -/
def dirOf (sign : Char) : Dir := if sign = '+' then .add else .del

/-- What a line that was written comes to, when it is read from the channel `ch` on. -/
def Reads (env : Env) (source_p : ℕ) (parv : List Str) (ch : SetMode.Chan) (line : Str × Char)
    (parn : ℕ) (mode : BitVec 32) (limit : ℤ) (key : Str) : Prop :=
  ∃ st dir, run (SetMode.step env source_p true parv) (SetMode.start ch) line.1 = some st ∧
    At st dir parn mode limit key ∧ (line.2 ≠ '=' → dir = dirOf line.2)

variable {ch : SetMode.Chan} {services : Bool}

/-- **Letters are put on a line** behind their sign, and read in its direction. -/
theorem Reads.put {line : Str × Char} (h : Reads env source_p parv ch line parn mode limit key)
    {sign : Char} (hsign : sign = '+' ∨ sign = '-') {letters : Str} {parn' : ℕ} {mode' : BitVec 32}
    {limit' : ℤ} {key' : Str} (hletters : ∀ st, At st (dirOf sign) parn mode limit key →
      ∃ st', run (SetMode.step env source_p true parv) st letters = some st' ∧
      At st' (dirOf sign) parn' mode' limit' key') :
    Reads env source_p parv ch (putLetters line sign letters) parn' mode' limit' key' := by
  obtain ⟨st, dir, hrun, hat, hdir⟩ := h
  have hturned : At { st with dir := dirOf sign } (dirOf sign) parn mode limit key :=
    ⟨rfl, hat.parn, hat.mode, hat.limit, hat.key⟩
  obtain ⟨st', hrun', hat'⟩ := hletters _ hturned
  rw [putLetters]
  split_ifs with hnil hsame
  · subst hnil
    cases hrun'
    exact ⟨st, dir, hrun, ⟨hat.dir, hat'.parn, hat'.mode, hat'.limit, hat'.key⟩, hdir⟩
  · have hst : { st with dir := dirOf sign } = st := by
      rw [← hsame, ← hdir (by rcases hsign with h | h <;> rw [hsame, h] <;> decide), ← hat.dir]
    rw [hst] at hrun'
    exact ⟨st', _, by rw [run_append, hrun, bind_some, hrun'], hat', fun _ => rfl⟩
  · have hstep : SetMode.step env source_p true parv st sign =
        some { st with dir := dirOf sign } := by
      rcases hsign with rfl | rfl <;> rfl
    refine ⟨st', _, ?_, hat', fun _ => rfl⟩
    rw [run_append, hrun, bind_some, run, hstep, bind_some, hrun']

/-! ### The whole line -/

/-- The limit that the line leads to. -/
def limitAfter (mode oldmode : Mode) : ℤ :=
  let limit := if oldmode.limit ≠ 0 ∧ mode.limit = 0 then 0 else oldmode.limit
  if (mode.limit ≠ 0 ∧ oldmode.limit ≠ mode.limit) ∧ 0 < mode.limit then mode.limit else limit

/-- The key that it leads to. -/
def keyAfter (mode oldmode : Mode) : Str :=
  let key := if oldmode.key ≠ [] ∧ mode.key = [] then [] else oldmode.key
  if (mode.key ≠ [] ∧ oldmode.key ≠ mode.key) ∧ fixKeyRemote mode.key ≠ [] then
    strlcpy (fixKeyRemote mode.key) keyLen else key

section Stages

variable {ch : SetMode.Chan} {line : Str × Char} {c : Prop} [Decidable c]

section

variable (h : Reads env source_p parv ch line parn mode limit key)
include h

theorem Reads.letters (hmy : env.my source_p = false) {sign : Char}
    (hsign : sign = '+' ∨ sign = '-') (flags : BitVec 32) :
    Reads env source_p parv ch (putLetters line sign (lettersOf (finalLetters env.services) flags))
      parn (setFlag (dirOf sign) mode (flags &&& modeMask env.services)) limit key := by
  refine h.put hsign fun st hst => ?_
  rw [← tableMask_finalLetters]
  exact hst.letters hmy (by rcases hsign with rfl | rfl <;> decide) (isTable_finalLetters _) flags

theorem Reads.limitOff :
    Reads env source_p parv ch (putLetters line '-' (if c then ['l'] else [])) parn mode
    (if c then 0 else limit) key := by
  refine h.put (.inr rfl) fun st hst => ?_
  split_ifs
  · obtain ⟨st', hstep, hst'⟩ := hst.limitOff
    exact ⟨st', by rw [run, hstep]; rfl, hst'⟩
  · exact ⟨st, rfl, hst⟩

theorem Reads.keyOff (hparn : c → parn < parv.length) :
    Reads env source_p parv ch (putLetters line '-' (if c then ['k'] else []))
      (parn + if c then 1 else 0) mode limit (if c then [] else key) := by
  refine h.put (.inr rfl) fun st hst => ?_
  split_ifs with hc
  · obtain ⟨st', hstep, hst'⟩ := hst.keyOff (hparn hc)
    exact ⟨st', by rw [run, hstep]; rfl, hst'⟩
  · exact ⟨st, rfl, hst⟩

theorem Reads.limitOn {n : ℤ} (hn : -2 ^ 31 ≤ n ∧ n < 2 ^ 31)
    (hparn : c → parv[parn]? = some (decimal n)) :
    Reads env source_p parv ch (putLetters line '+' (if c then ['l'] else []))
      (parn + if c then 1 else 0) mode (if c ∧ 0 < n then n else limit) key := by
  refine h.put (.inl rfl) fun st hst => ?_
  by_cases hc : c
  · obtain ⟨st', hstep, hst'⟩ := hst.limitOn hn (hparn hc)
    have hlimit : (if n ≤ 0 then limit else n) = if c ∧ 0 < n then n else limit := by
      simp only [hc, true_and]
      split_ifs <;> first | rfl | omega
    rw [hlimit] at hst'
    rw [if_pos hc, if_pos hc]
    exact ⟨st', by rw [run, hstep]; rfl, hst'⟩
  · rw [if_neg hc, if_neg hc, if_neg fun h => hc h.1]
    exact ⟨st, rfl, hst⟩

theorem Reads.keyOn (hmy : env.my source_p = false) {arg : Str}
    (hparn : c → parv[parn]? = some arg) :
    Reads env source_p parv ch (putLetters line '+' (if c then ['k'] else []))
      (parn + if c then 1 else 0) mode limit
      (if c ∧ fixKeyRemote arg ≠ [] then strlcpy (fixKeyRemote arg) keyLen else key) := by
  refine h.put (.inl rfl) fun st hst => ?_
  by_cases hc : c
  · obtain ⟨st', hstep, hst'⟩ := hst.keyOn hmy (hparn hc)
    have hkey : (if fixKeyRemote arg = [] then key else strlcpy (fixKeyRemote arg) keyLen) =
        if c ∧ fixKeyRemote arg ≠ [] then strlcpy (fixKeyRemote arg) keyLen else key := by
      by_cases hnil : fixKeyRemote arg = [] <;> simp [hc, hnil]
    rw [hkey] at hst'
    rw [if_pos hc, if_pos hc]
    exact ⟨st', by rw [run, hstep]; rfl, hst'⟩
  · rw [if_neg hc, if_neg hc, if_neg fun h => hc h.1]
    exact ⟨st, rfl, hst⟩

end

end Stages

/-- **What the line leads to.** -/
theorem reads_finalLine {mode oldmode : Mode} (hmode : mode.lettered services = mode)
    (hold : oldmode.lettered services = oldmode) (hservices : env.services = services)
    (hmy : env.my source_p = false) (hch : HasMode ch oldmode) (ml : Str) :
    ∃ parn, Reads env source_p (ml :: finalPara mode oldmode) ch (finalLine services mode oldmode)
      parn mode.mode (limitAfter mode oldmode) (keyAfter mode oldmode) := by
  subst hservices
  have hstart : Reads env source_p (ml :: finalPara mode oldmode) ch ([], '=') 1 oldmode.mode
    oldmode.limit oldmode.key :=
    ⟨_, _, rfl, ⟨rfl, rfl, hch.mode, hch.limit, hch.key⟩, fun h => absurd rfl h⟩
  have hflags := (hstart.letters hmy (.inl rfl) (mode.mode &&& ~~~oldmode.mode)).letters hmy
    (.inr rfl) (oldmode.mode &&& ~~~mode.mode)
  rw [show dirOf '+' = .add from rfl, show dirOf '-' = .del from rfl,
    flags_eq _ _ _ ((lettered_eq_iff _ _).mp hmode) ((lettered_eq_iff _ _).mp hold)] at hflags
  have hkeyOff := (hflags.limitOff (c := oldmode.limit ≠ 0 ∧ mode.limit = 0)).keyOff
    (c := oldmode.key ≠ [] ∧ mode.key = []) fun h => by simp [finalPara, h]
  have hlimitOn := hkeyOff.limitOn (c := mode.limit ≠ 0 ∧ oldmode.limit ≠ mode.limit) mode.limit_int
      fun h => by
    by_cases hoff : oldmode.key ≠ [] ∧ mode.key = [] <;> simp [finalPara, h, hoff]
  exact ⟨_, hlimitOn.keyOn (c := mode.key ≠ [] ∧ oldmode.key ≠ mode.key) hmy fun h => by
    by_cases hon : mode.limit ≠ 0 ∧ oldmode.limit ≠ mode.limit <;> simp [finalPara, h, hon]⟩

/-! ### When it leads to the new modes -/

theorem length_fixKeyRemote_le (arg : Str) : (fixKeyRemote arg).length ≤ arg.length := by
  refine (List.takeWhile_prefix _).length_le.trans ((length_filter_le _ _).trans ?_)
  rw [length_map]

theorem limitAfter_eq_iff (mode oldmode : Mode) :
    limitAfter mode oldmode = mode.limit ↔ mode.limit = oldmode.limit ∨ 0 ≤ mode.limit := by
  rw [limitAfter]
  split_ifs <;> omega

theorem keyAfter_eq_iff (mode oldmode : Mode) :
    keyAfter mode oldmode = mode.key ↔ mode.key = oldmode.key ∨ fixKeyRemote mode.key =
    mode.key := by
  have hcopy : strlcpy (fixKeyRemote mode.key) keyLen = fixKeyRemote mode.key :=
    take_of_length_le (Nat.le_pred_of_lt ((length_fixKeyRemote_le _).trans_lt mode.key_lt))
  rw [keyAfter, hcopy]
  by_cases hnil : mode.key = []
  · -- The key went away, or there was none.
    have hfix : fixKeyRemote [] = [] := rfl
    by_cases hold : oldmode.key = [] <;> simp [hnil, hold, hfix]
  by_cases hsame : oldmode.key = mode.key
  · simp [hnil, hsame]
  by_cases hfix : fixKeyRemote mode.key = []
  · simp [hnil, hsame, Ne.symm hsame, hfix, Ne.symm hnil]
  · simp [hnil, hsame, Ne.symm hsame, hfix]

/-- There is nothing to write when the modes are the same. -/
theorem finalLine_eq_nil_iff {mode oldmode : Mode} (hmode : mode.lettered services = mode)
    (hold : oldmode.lettered services = oldmode) :
    (finalLine services mode oldmode).1 = [] ↔ mode = oldmode := by
  have hput (line : Str × Char) (sign : Char) (letters : Str) :
      (putLetters line sign letters).1 = [] ↔ line.1 = [] ∧ letters = [] := by
    rw [putLetters]
    split_ifs with hnil <;> simp [hnil]
  simp only [finalLine, hput, lettersOf_eq_nil, tableMask_finalLetters, ite_eq_right_iff,
    cons_ne_nil, imp_false, true_and]
  rw [lettered_eq_iff] at hmode hold
  constructor
  · rintro ⟨⟨⟨⟨⟨hadd, hdel⟩, hlimitOff⟩, hkeyOff⟩, hlimitOn⟩, hkeyOn⟩
    have hflags := flags_eq mode.mode oldmode.mode _ hmode hold
    rw [hadd, hdel, setFlag_zero, setFlag_zero] at hflags
    refine Mode.ext hflags.symm (by omega) ?_
    by_contra hkey
    exact hkeyOff ⟨fun hnil => hkeyOn ⟨fun h => hkey (h.trans hnil.symm), Ne.symm hkey⟩, by tauto⟩
  · rintro rfl
    simp

end Reading

/-- The modes that `ms_sjoin` goes over to have letters. -/
theorem Produces.lettered {services : Bool} {oldmode mode : Mode}
    (h : Produces services oldmode mode) (hold : oldmode.lettered services = oldmode) :
    mode.lettered services = mode := by
  obtain ⟨parv, msg, isnew, oldts, hread, rfl⟩ := h
  have hmsg := lettered_of_readSjoin hread
  rw [Resolved.mode]
  split_ifs
  · exact hold
  · rw [lettered_eq_iff] at hold hmsg ⊢
    rw [Mode.merge, and_or_distrib_right, hmsg, hold]
  · exact hmsg

/-- The call that reads the line. An empty line is not sent, and reading it would change nothing. -/
theorem afterLines_setFinalMode {env : Env} {source_p : ℕ} (ch : SetMode.Chan) (source chname : Str)
    (mode oldmode : Mode) :
    afterLines env source_p ch (setFinalMode env.services source chname mode oldmode) =
      (SetMode.Call.run env source_p ⟨ch, none, (finalLine env.services mode oldmode).1,
        finalPara mode oldmode⟩).map (·.ch) := by
  rw [setFinalMode_eq]
  split_ifs with hnil
  · rw [hnil]
    rfl
  · rw [afterLines, map_eq_bind]
    rfl

/-- **The modes that the line leads to.** When it is read from the old modes on, it leads to the new
ones if and only if a limit that is new is not negative and a key that is new has no character that
`chm_key` drops. -/
theorem told_iff {services : Bool} {oldmode mode : Mode}
    (hold : oldmode.lettered services = oldmode)
    (hmode : Produces services oldmode mode) {env : Env} (hservices : env.services = services)
    {source_p : ℕ}
    (hsource : env.my source_p = false) {ch : SetMode.Chan} (hch : HasMode ch oldmode)
    (source chname : Str) :
    Told env source_p ch source chname mode oldmode ↔ Accepted oldmode mode := by
  have hlettered := hmode.lettered hold
  obtain ⟨parn, st, dir, hrun, hat, -⟩ := reads_finalLine hlettered hold hservices hsource hch
    (finalLine services mode oldmode).1
  subst hservices
  have hafter : afterLines env source_p ch (setFinalMode env.services source chname mode oldmode) =
      some st.ch := by
    have hcall : SetMode.Call.run env source_p ⟨ch, none, (finalLine env.services mode oldmode).1,
        finalPara mode oldmode⟩ = some st := by
      rw [SetMode.Call.run, SetMode.Call.step, SetMode.getChannelAccess, hsource]
      exact hrun
    rw [afterLines_setFinalMode, hcall, map_some]
  have hnone : setFinalMode env.services source chname mode oldmode = [] ↔ mode = oldmode := by
    rw [setFinalMode_eq, ← finalLine_eq_nil_iff hlettered hold]
    split_ifs with hnil <;> simp [hnil]
  have hhas : HasMode st.ch mode ↔ limitAfter mode oldmode = mode.limit ∧
    keyAfter mode oldmode = mode.key :=
    ⟨fun h => ⟨hat.limit.symm.trans h.limit, hat.key.symm.trans h.key⟩,
      fun h => ⟨hat.mode, hat.limit.trans h.1, hat.key.trans h.2⟩⟩
  rw [Told, Accepted, ← limitAfter_eq_iff, ← keyAfter_eq_iff, ← hhas]
  rw [hafter]
  constructor
  · rintro ⟨⟨ch', hch', hmode'⟩, -⟩
    cases hch'
    exact hmode'
  · exact fun h => ⟨⟨st.ch, rfl, h⟩, hnone⟩

/-- A server. -/
def fromServer : Env :=
  { SetMode.somehow with client := fun _ => { SetMode.someone with kind := .server } }

/-- The modes with a key, with a limit, and with a flag, a limit and a key. -/
def keyed : Mode := ⟨0, 0, "a:b".toList, Mode.empty.limit_int, by decide⟩
@[inherit_doc keyed] def negative : Mode := ⟨0, -5, [], by decide, Mode.empty.key_lt⟩
@[inherit_doc keyed] def several : Mode := ⟨modeSecret, 10, "abc".toList, by decide, by decide⟩

theorem told_several : Told fromServer 0 SetMode.somewhere ['s'] "#c".toList several .empty ↔
    Accepted .empty several := by
  have hproduces : Produces false .empty several :=
    ⟨["", "5", "#c", "+slk", "10", "abc", "@u"].map String.toList, ⟨5, "#c".toList, "+slk".toList,
      several, "@u".toList⟩, true, 0, by decide, by decide⟩
  exact told_iff (by decide) hproduces rfl rfl ⟨rfl, rfl, rfl⟩ _ _

/-- An `SJOIN` of a new channel with the key `a:b`, and an older one with the limit -5. -/
theorem not_told :
    (Produces false .empty keyed ∧ ¬Told fromServer 0 SetMode.somewhere ['s'] "#c".toList keyed
      .empty) ∧
      Produces false .empty negative ∧ ¬Told fromServer 0 SetMode.somewhere ['s'] "#c".toList
      negative .empty := by
  refine ⟨⟨?_, ?_⟩, ?_, ?_⟩
  · exact ⟨["", "5", "#c", "+k", "a:b", "@u"].map String.toList, ⟨5, "#c".toList, "+k".toList,
      keyed, "@u".toList⟩, true, 0, by decide, by decide⟩
  · rintro ⟨⟨ch, hch, hmode⟩, -⟩
    have hkey := congrArg (Option.map SetMode.Chan.key) hch
    rw [map_some, hmode.key] at hkey
    exact absurd hkey (by decide +kernel)
  · exact ⟨["", "5", "#c", "+l", "-5", "@u"].map String.toList, ⟨5, "#c".toList, "+l".toList,
      negative, "@u".toList⟩, false, 10, by decide, by decide⟩
  · rintro ⟨⟨ch, hch, hmode⟩, -⟩
    have hlimit := congrArg (Option.map SetMode.Chan.limit) hch
    rw [map_some, hmode.limit] at hlimit
    exact absurd hlimit (by decide +kernel)

end Ratbox.Channel
