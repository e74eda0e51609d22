import Ratbox.SetMode.Masks

/-!
# The lines that tell of mode changes

The changes that a MODE line has made are told to the members and to the other servers. The letters
go into one buffer and the parameters into another one, and when the two are nearly full a line is
sent and the next one is begun. The test is made only for letters with a parameter. A letter without
one is put behind the others however many there are: the letters `S` and `r` are not counted, so a
line that sets and clears such a flag over and over has more letters than the buffer has room for.

Source: `modules/core/m_mode.c`, lines 1437–1442 and 1472–1541, and `src/channel.c`, lines 50–60,
876–904 and 971–1080.

## Main definitions

* `SetMode.Line`: a line that is built, with the writes to its buffers.
* `SetMode.putLocal`, `SetMode.putServer`: the bodies of the loops of `set_channel_mode` and
  `send_cap_mode_changes`.
* `SetMode.lines`: the lines that a call builds.
* `SetMode.Room`: there is room for a letter without a parameter.

## Main results

* `SetMode.sendLocal_iff`, `SetMode.sendServer_iff`: when the writes for one line after the other
  stay in the buffers.
* `SetMode.lines_iff`: when all writes do.
-/

namespace Ratbox.SetMode

open Text List
open Channel (channelLen idLen)
open Banlist (modebufLen)

/-! ### A line -/

/-- `MAXMODEPARAMSSERV`. -/
def maxModeParamsServ : ℕ := 10

/-- The buffers of a line. -/
inductive Buffer
  | modebuf
  | parabuf
  deriving DecidableEq

/-- A write to a buffer, up to an offset. -/
structure Write where
  buffer : Buffer
  stop : ℕ
  deriving DecidableEq

/-- What a line shows of a change. -/
structure Shown where
  letter : Char
  arg : Option Str
  dir : Dir
  deriving DecidableEq

/-- The sign of a letter. -/
def Shown.sign (change : Shown) : Char := if change.dir = .add then '+' else '-'

/-- A line behind its front: the letters in `modebuf`, what is in `parabuf`, the number of
parameters, and the sign in front of the last letter; the lines that were sent, and the writes that
were made. -/
structure Line where
  mode : Str
  para : Str
  count : ℕ
  dir : Dir
  sent : List Str
  writes : List Write
  deriving DecidableEq

namespace Line

variable (front : Str) (line : Line)

/-- `cur_len` and `mbl`. -/
def curLen : ℕ := front.length + line.mode.length

/-- A line is begun behind the front. -/
def begin : Line :=
  { line with mode := [], para := [], count := 0, dir := .query, writes := line.writes ++
    [⟨.parabuf, 1⟩] }

/-- The first line: the front is printed. -/
def start : Line := Line.begin ⟨[], [], 0, .query, [], [⟨.modebuf, front.length + 1⟩]⟩

/-- A NUL is put behind the letters. -/
def terminate : Line := { line with writes := line.writes ++ [⟨.modebuf, line.curLen front + 1⟩] }

/-- A character is put behind the letters. -/
def putChar (c : Char) : Line :=
  { line with mode := line.mode ++ [c], writes := line.writes ++ [⟨.modebuf, line.curLen front + 1⟩]
    }

/-- The sign of a letter is put on the line, if it is another one than that of the last letter. -/
def putSign (change : Shown) : Line :=
  if line.dir ≠ change.dir then
    { line with dir := change.dir }.putChar front change.sign
  else line

/-- A letter is put on the line. -/
def letter (change : Shown) : Line := (line.putSign front change).putChar front change.letter

/-- A parameter is printed with a space behind it. -/
def arg (a : Str) : Line :=
  { line with
    para := line.para ++ (a ++ [' '])
    count := line.count + 1
    writes := line.writes ++ [⟨.parabuf, line.para.length + a.length + 2⟩] }

/-- The line is sent. -/
def send : Line := { line with sent := line.sent ++ [front ++ line.mode ++ ' ' :: line.para] }

/-- The space behind the last parameter is taken off. -/
def chop : Line :=
  if line.para.getLast? = some ' ' then
    { line with para := line.para.dropLast, writes := line.writes ++ [⟨.parabuf, line.para.length⟩]
      }
  else line

/-- There is no room for one more letter with a parameter. -/
def full (a : Str) : Bool :=
  line.count = maxModeParamsServ || decide (ircdBufsize - 3 < line.curLen front + line.para.length +
    a.length + 4)

end Line

/-! ### Building lines -/

section Building

variable (front : Str)

/-- The body of the loop of `set_channel_mode` over the changes. -/
def putLocal (line : Line) (change : Shown) : Line :=
  match change.arg with
  | none => line.letter front change
  | some a =>
    if modebufLen - 5 < a.length then line
    else if line.full front a then
      let line := line.terminate front
      -- a letter that does not fit behind the front is left out
      if line.mode = [] then line else (((line.send front).begin).letter front change).arg a
    else (line.letter front change).arg a

/-- The lines for some members. -/
def sendLocal (changes : List Shown) : Line :=
  let line := ((changes.foldl (putLocal front) (Line.start front)).chop).terminate front
  if line.mode = [] then line else line.send front

/-- The body of the loop of `send_cap_mode_changes` over the changes. -/
def putServer (line : Line) (change : Shown) : Line :=
  match change.arg with
  | none => (line.letter front change).terminate front
  | some a =>
    if modebufLen - 5 < a.length then line
    else
      let line := if line.full front a then (if line.mode = [] then line else line.send front).begin
        else line
      ((line.letter front change).terminate front).arg a

/-- The lines for servers with some capabilities. -/
def sendServer (changes : List Shown) : Line :=
  let line := (changes.foldl (putServer front) (Line.start front)).chop
  if line.mode = [] then line else line.send front

end Building

/-! ### What is announced -/

section Announcing

variable (env : Env) (source_p : ℕ) (st : Setting)

/-- What an argument points to in the end. -/
def Setting.text : Arg → Str
  | .text s => s
  | .limitstr => st.limitstr
  | .key => st.ch.key

/-- What `set_channel_mode` shows to some members. -/
def Setting.shownTo (flags : Mems) : List Shown :=
  (st.changes.filter fun change => change.letter ≠ '\x00' ∧ change.mems = flags).map fun change =>
    ⟨change.letter, change.arg.map st.text, change.dir⟩

/-- The argument for servers with some capabilities. -/
def Setting.serverArg (cap : BitVec 32) (change : ChModeChange) : Option Str :=
  if cap &&& capTs6 ≠ 0 ∧ change.id.getD [] ≠ [] then change.id else change.arg.map st.text

/-- What `send_cap_mode_changes` shows to servers. -/
def Setting.shownWith (cap nocap : BitVec 32) : List Shown :=
  (st.changes.filter fun change =>
    change.letter ≠ '\x00' ∧ cap &&& change.caps = change.caps ∧ nocap &&& change.nocaps =
        change.nocaps).map fun change =>
      ⟨change.letter, st.serverArg cap change, change.dir⟩

/-- The front of the lines for members. -/
def localFront : Str :=
  let source := env.client source_p
  if source.kind = .server then ':' :: source.name ++ " MODE ".toList ++ st.ch.chname ++ [' ']
  else
    ':' :: source.name ++ '!' :: source.username ++ '@' :: source.host ++ " MODE ".toList ++
      st.ch.chname ++ [' ']

/-- `use_id`. -/
def Client.useId (client : Client) : Str := if client.id ≠ [] then client.id else client.name

/-- The front of the lines for servers. -/
def serverFront (cap : BitVec 32) : Str :=
  let source := env.client source_p
  if cap &&& capTs6 ≠ 0 then
    ':' :: source.useId ++ " TMODE ".toList ++ decimal st.ch.channelts ++
      ' ' :: st.ch.chname ++ [' ']
  else ':' :: source.name ++ " MODE ".toList ++ st.ch.chname ++ [' ']

/-- `channel_capabs`. -/
def Env.channelCapabs : List (BitVec 32) :=
  [capEx, capIe] ++ (if env.services then [capService] else []) ++ [capTs6]

/-- `chcap_combos`, as `init_chcap_usage_counts` fills it: the capabilities that servers have, and
those that they do not have. -/
def Env.combo (m : ℕ) : BitVec 32 × BitVec 32 :=
  env.channelCapabs.zipIdx.foldl
    (fun (y, n) (capab, c) => if m.testBit c then (y ||| capab, n) else (y, n ||| capab)) (0, 0)

/-- The calls for members: fronts and changes. -/
def localPasses : List (Str × List Shown) :=
  [.allMembers, .onlyChanops].map fun flags => (localFront env source_p st, st.shownTo flags)

/-- The combinations of capabilities that servers have. -/
def serverPasses : List (Str × List Shown) :=
  if env.my source_p ∨ 1 < env.servers then
    ((range (2 ^ env.channelCapabs.length)).filter fun m => env.comboCount m ≠ 0).map fun m =>
      (serverFront env source_p st (env.combo m).1, st.shownWith (env.combo m).1 (env.combo m).2)
  else []

/-- The lines that `set_channel_mode` and `send_cap_mode_changes` build. -/
def lines : List Line :=
  if st.changes = [] then []
  else
    (localPasses env source_p st).map (fun pass => sendLocal pass.1 pass.2) ++
      (serverPasses env source_p st).map fun pass => sendServer pass.1 pass.2

end Announcing

/-! ### Room -/

/-- All writes stay in the buffers, which have `IRCD_BUFSIZE` bytes. -/
def Line.InBounds (line : Line) : Prop := ∀ w ∈ line.writes, w.stop ≤ ircdBufsize

/-- What a letter takes on a line, with its sign. -/
def Line.needs (line : Line) (change : Shown) : ℕ := if line.dir ≠ change.dir then 2 else 1

/-- There is room for a letter without a parameter, and for the NUL behind it. -/
def Room (front : Str) (line : Line) (change : Shown) : Prop :=
  change.arg = none → line.curLen front + line.needs change < ircdBufsize

section Writes

variable {front : Str} {line : Line} {change : Shown} {a : Str}

@[simp] theorem inBounds_begin : line.begin.InBounds ↔ line.InBounds := by
  simp [Line.InBounds, Line.begin, or_imp, forall_and, ircdBufsize]

@[simp] theorem inBounds_send : (line.send front).InBounds ↔ line.InBounds := Iff.rfl

@[simp] theorem inBounds_terminate :
    (line.terminate front).InBounds ↔ line.InBounds ∧ line.curLen front < ircdBufsize := by
  simp [Line.InBounds, Line.terminate, or_imp, forall_and, Nat.succ_le_iff]

theorem inBounds_putChar {c : Char} :
    (line.putChar front c).InBounds ↔ line.InBounds ∧ line.curLen front < ircdBufsize := by
  simp [Line.InBounds, Line.putChar, or_imp, forall_and, Nat.succ_le_iff]

@[simp] theorem inBounds_arg :
    (line.arg a).InBounds ↔ line.InBounds ∧ line.para.length + a.length + 2 ≤ ircdBufsize := by
  simp [Line.InBounds, Line.arg, or_imp, forall_and]

@[simp] theorem curLen_begin : line.begin.curLen front = front.length := rfl

@[simp] theorem curLen_arg : (line.arg a).curLen front = line.curLen front := rfl

theorem curLen_putChar {c : Char} :
    (line.putChar front c).curLen front = line.curLen front + 1 := by
  simp [Line.putChar, Line.curLen, Nat.add_assoc]

@[simp] theorem curLen_letter :
    (line.letter front change).curLen front = line.curLen front + line.needs change := by
  rw [Line.letter, curLen_putChar, Line.putSign, Line.needs]
  split_ifs
  · rw [curLen_putChar]
    rfl
  · rfl

@[simp] theorem inBounds_letter : (line.letter front change).InBounds ↔
    line.InBounds ∧ line.curLen front + line.needs change ≤ ircdBufsize := by
  rw [Line.letter, inBounds_putChar, Line.putSign, Line.needs]
  split_ifs
  · have hdir : Line.InBounds { line with dir := change.dir } ↔ line.InBounds := Iff.rfl
    have hlen : Line.curLen front { line with dir := change.dir } = line.curLen front := rfl
    rw [inBounds_putChar, curLen_putChar, hdir, hlen, and_assoc]
    refine and_congr_right fun _ => ?_
    omega
  · rw [Nat.succ_le_iff]

@[simp] theorem para_begin : line.begin.para = [] := rfl

@[simp] theorem para_terminate : (line.terminate front).para = line.para := rfl

@[simp] theorem para_letter : (line.letter front change).para = line.para := by
  rw [Line.letter, Line.putSign]
  split_ifs <;> rfl

@[simp] theorem length_para_arg : (line.arg a).para.length = line.para.length + a.length + 1 := by
  simp [Line.arg, Nat.add_assoc]

theorem dir_letter : (line.letter front change).dir = change.dir := by
  rw [Line.letter, Line.putSign]
  split_ifs with h
  · rfl
  · exact not_not.mp h

theorem needs_le : line.needs change ≤ 2 := by
  rw [Line.needs]
  split_ifs <;> decide

end Writes

/-! ### Building a line -/

section Building

variable {front a : Str} {line : Line} {change : Shown} {changes : List Shown}

/-- What holds as long as the letters without a parameter have room. -/
structure Sound (front : Str) (line : Line) : Prop where
  inBounds : line.InBounds
  mode : line.curLen front < ircdBufsize
  para : line.para.length < ircdBufsize

theorem sound_start (hfront : front.length + 2 < ircdBufsize) : Sound front (Line.start front) := by
  refine ⟨?_, ?_, Nat.zero_lt_succ _⟩
  · rw [Line.start, inBounds_begin]
    simp only [Line.InBounds, mem_singleton, forall_eq]
    omega
  · rw [Line.start, curLen_begin]
    omega

/-- There is room for one more letter with the parameter. -/
def HasRoom (front : Str) (line : Line) (a : Str) : Prop :=
  line.curLen front + 2 < ircdBufsize ∧ line.para.length + a.length + 2 ≤ ircdBufsize

/-- A line that is not full has room. -/
theorem hasRoom_of_not_full (hfull : ¬line.full front a = true) : HasRoom front line a := by
  have hroom : ¬ircdBufsize - 3 < line.curLen front + line.para.length + a.length + 4 :=
    of_decide_eq_false (Bool.or_eq_false_iff.mp (Bool.not_eq_true _ ▸ hfull)).2
  rw [HasRoom]
  rw [ircdBufsize] at hroom ⊢
  omega

/-- A line that is begun has room. -/
theorem hasRoom_begin (hlong : ¬modebufLen - 5 < a.length)
    (hfront : front.length + 2 < ircdBufsize) :
    HasRoom front line.begin a := by
  rw [modebufLen] at hlong
  refine ⟨by rwa [curLen_begin], ?_⟩
  rw [para_begin, length_nil, ircdBufsize]
  omega

theorem Sound.begin (h : line.InBounds) (hfront : front.length + 2 < ircdBufsize) :
    Sound front line.begin :=
  ⟨inBounds_begin.mpr h, by rw [curLen_begin]; omega, Nat.zero_lt_succ _⟩

section

variable (h : Sound front line)
include h

/-- A letter with a parameter is put on a line that has room for them. -/
theorem Sound.put (hroom : HasRoom front line a) :
    Sound front ((line.letter front change).arg a) := by
  have hneeds : line.needs change ≤ 2 := needs_le
  obtain ⟨hmode, hpara⟩ := hroom
  refine ⟨?_, ?_, ?_⟩
  · rw [inBounds_arg, inBounds_letter, para_letter]
    exact ⟨⟨h.inBounds, by omega⟩, hpara⟩
  · rw [curLen_arg, curLen_letter]
    omega
  · rw [length_para_arg, para_letter]
    omega

/-- A letter without a parameter is put on a line that has room for it. -/
theorem Sound.letter (hroom : line.curLen front + line.needs change < ircdBufsize) :
    Sound front (line.letter front change) :=
  ⟨inBounds_letter.mpr ⟨h.inBounds,
    hroom.le⟩, by rwa [curLen_letter], by rw [para_letter]; exact h.para⟩

theorem Sound.terminate : Sound front (line.terminate front) :=
  ⟨inBounds_terminate.mpr ⟨h.inBounds, h.mode⟩, h.mode, h.para⟩

/-- **A step of the loop for members** stays in the buffers when there is room. -/
theorem Sound.putLocal (hfront : front.length + 2 < ircdBufsize) (hroom : Room front line change) :
    Sound front (putLocal front line change) := by
  rw [SetMode.putLocal]
  cases harg : change.arg with
  | none => exact h.letter (hroom harg)
  | some a =>
    dsimp only
    split_ifs with hlong hfull hnil
    · exact h
    · exact h.terminate
    · have hsent : (line.terminate front).InBounds := h.terminate.inBounds
      exact (Sound.begin (inBounds_send.mpr hsent) hfront).put (hasRoom_begin hlong hfront)
    · exact h.put (hasRoom_of_not_full hfull)

/-- **A step of the loop for servers** stays in the buffers when there is room. -/
theorem Sound.putServer (hfront : front.length + 2 < ircdBufsize) (hroom : Room front line change) :
    Sound front (putServer front line change) := by
  rw [SetMode.putServer]
  cases harg : change.arg with
  | none => exact (h.letter (hroom harg)).terminate
  | some a =>
    dsimp only
    -- The NUL behind a letter is no write of its own in the lines for members.
    have hput : ∀ line' : Line, Sound front line' → HasRoom front line' a →
        Sound front (((line'.letter front change).terminate front).arg a) := by
      intro line' h' hroom'
      have hneeds : line'.needs change ≤ 2 := needs_le
      have hletter : Sound front (line'.letter front change) :=
        h'.letter (by have := hroom'.1; omega)
      have harg' : Sound front ((line'.letter front change).arg a) := h'.put hroom'
      refine ⟨inBounds_arg.mpr ⟨hletter.terminate.inBounds, ?_⟩, harg'.mode, harg'.para⟩
      rw [para_terminate, para_letter]
      exact hroom'.2
    split_ifs with hlong hfull hnil
    · exact h
    · exact hput _ (Sound.begin h.inBounds hfront) (hasRoom_begin hlong hfront)
    · exact hput _ (Sound.begin (inBounds_send.mpr h.inBounds) hfront) (hasRoom_begin hlong hfront)
    · exact hput _ h (hasRoom_of_not_full hfull)

end

/-- What a line for members keeps once a letter had no room: the NUL behind it is written sooner or
later. -/
def Spoilt (front : Str) (line : Line) : Prop := ¬line.InBounds ∨ ircdBufsize ≤ line.curLen front

theorem Spoilt.putLocal (h : Spoilt front line) : Spoilt front (putLocal front line change) := by
  have hterminate : ¬(line.terminate front).InBounds := by
    rw [inBounds_terminate, not_and_or, Nat.not_lt]
    exact h
  have hletter : Spoilt front (line.letter front change) :=
    h.imp (fun h hletter => h (inBounds_letter.mp hletter).1) fun h => by rw [curLen_letter]; omega
  rw [SetMode.putLocal]
  cases change.arg with
  | none => exact hletter
  | some a =>
    dsimp only
    split_ifs
    · exact h
    · exact .inl hterminate
    · refine .inl fun hbounds => hterminate ?_
      exact inBounds_send.mp (inBounds_begin.mp (inBounds_letter.mp (inBounds_arg.mp hbounds).1).1)
    · exact hletter.imp (fun h hbounds => h (inBounds_arg.mp hbounds).1) id

theorem inBounds_chop (h : line.chop.InBounds) : line.InBounds := by
  rw [Line.chop] at h
  split_ifs at h
  · exact fun w hw => h w (mem_append_left _ hw)
  · exact h

theorem curLen_chop : line.chop.curLen front = line.curLen front := by
  rw [Line.chop]
  split_ifs <;> rfl

theorem Sound.chop (h : Sound front line) : line.chop.InBounds := by
  rw [Line.chop]
  split_ifs
  · intro w hw
    obtain hw | hw := mem_append.mp hw
    · exact h.inBounds w hw
    · rw [mem_singleton.mp hw]
      exact h.para.le
  · exact h.inBounds

theorem inBounds_sendLocal (changes : List Shown) : (sendLocal front changes).InBounds ↔
    (((changes.foldl (putLocal front) (Line.start front)).chop).terminate front).InBounds := by
  rw [sendLocal]
  split_ifs <;> rfl

theorem Spoilt.not_inBounds (h : Spoilt front line) : ¬((line.chop).terminate front).InBounds := by
  intro hbounds
  obtain ⟨hchop, hlen⟩ := inBounds_terminate.mp hbounds
  rw [curLen_chop] at hlen
  exact h.elim (fun h => h (inBounds_chop hchop)) fun h => absurd hlen (Nat.not_lt.mpr h)

/-- **The lines for members stay in the buffers** if and only if each letter without a parameter has
room. -/
theorem sendLocal_iff (changes : List Shown) (hfront : front.length + 2 < ircdBufsize) :
    (sendLocal front changes).InBounds ↔
      Run.StepsMeet (fun line change => some (putLocal front line change)) (Room front)
      (Line.start front) changes := by
  rw [inBounds_sendLocal]
  refine Run.final_iff (P := fun line => ((line.chop).terminate front).InBounds) (Sound front)
    (Spoilt front) ?_ ?_ ?_ ?_ ?_ (sound_start hfront) (Run.run_total _ _ _)
  · exact fun line h => inBounds_terminate.mpr ⟨h.chop, curLen_chop.trans_lt h.mode⟩
  · exact fun line h => h.not_inBounds
  · rintro line change _ h hroom ⟨⟩
    exact h.putLocal hfront hroom
  · rintro line change _ h hroom ⟨⟩
    rw [Room, Classical.not_imp, Nat.not_lt] at hroom
    obtain ⟨harg, hlen⟩ := hroom
    rw [SetMode.putLocal, harg]
    exact .inr (by rwa [curLen_letter])
  · rintro line change _ h ⟨⟩
    exact h.putLocal

/-- Letters without a parameter whose signs alternate take two characters each. -/
theorem curLen_toggles (harg : ∀ change ∈ changes, change.arg = none)
    (hdir : changes.IsChain fun change change' => change.dir ≠ change'.dir) (line : Line)
    (hhead : ∀ change ∈ changes.head?, line.dir ≠ change.dir) :
    (changes.foldl (putLocal front) line).curLen front = line.curLen front +
    2 * changes.length := by
  induction changes generalizing line with
  | nil => rfl
  | cons change changes ih =>
    have hput : putLocal front line change = line.letter front change := by
      rw [putLocal, harg change mem_cons_self]
    have hneeds : line.needs change = 2 := if_pos (hhead change rfl)
    obtain ⟨hnext, hdir⟩ := isChain_cons.mp hdir
    rw [foldl_cons, hput, ih (fun c hc => harg c (mem_cons_of_mem _ hc)) hdir _ ?_, curLen_letter,
      hneeds, length_cons]
    · omega
    · rw [dir_letter]
      exact hnext

/-- Too many such letters do not stay in the buffers. -/
theorem not_inBounds_toggles (harg : ∀ change ∈ changes, change.arg = none)
    (hdir : changes.IsChain fun change change' => change.dir ≠ change'.dir)
    (hhead : ∀ change ∈ changes.head?, change.dir ≠ .query)
    (hlen : ircdBufsize ≤ front.length + 2 * changes.length) :
    ¬(sendLocal front changes).InBounds := by
  rw [inBounds_sendLocal]
  refine Spoilt.not_inBounds (.inr ?_)
  rw [curLen_toggles harg hdir _ fun change hchange => (hhead change hchange).symm]
  exact hlen

theorem inBounds_of_putServer (h : (putServer front line change).InBounds) : line.InBounds := by
  rw [putServer] at h
  cases harg : change.arg with
  | none =>
    rw [harg] at h
    exact (inBounds_letter.mp (inBounds_terminate.mp h).1).1
  | some a =>
    rw [harg] at h
    dsimp only at h
    split_ifs at h
    · exact h
    · exact inBounds_begin.mp (inBounds_letter.mp (inBounds_terminate.mp (inBounds_arg.mp h).1).1).1
    · exact inBounds_begin.mp (inBounds_letter.mp (inBounds_terminate.mp (inBounds_arg.mp h).1).1).1
    · exact (inBounds_letter.mp (inBounds_terminate.mp (inBounds_arg.mp h).1).1).1

/-- **The lines for servers stay in the buffers** if and only if each letter without a parameter has
room. -/
theorem sendServer_iff (changes : List Shown) (hfront : front.length + 2 < ircdBufsize) :
    (sendServer front changes).InBounds ↔
      Run.StepsMeet (fun line change => some (putServer front line change)) (Room front)
      (Line.start front) changes := by
  have hsend : (sendServer front changes).InBounds ↔
      ((changes.foldl (putServer front) (Line.start front)).chop).InBounds := by
    rw [sendServer]
    split_ifs <;> rfl
  rw [hsend]
  refine Run.final_iff (P := fun line => line.chop.InBounds) (Sound front)
    (fun line => ¬line.InBounds) ?_ ?_ ?_ ?_ ?_ (sound_start hfront) (Run.run_total _ _ _)
  · exact fun line h => h.chop
  · exact fun line h hbounds => h (inBounds_chop hbounds)
  · rintro line change _ h hroom ⟨⟩
    exact h.putServer hfront hroom
  · rintro line change _ h hroom ⟨⟩ hbounds
    rw [Room, Classical.not_imp, Nat.not_lt] at hroom
    obtain ⟨harg, hlen⟩ := hroom
    rw [SetMode.putServer, harg] at hbounds
    have hlt := (inBounds_terminate.mp hbounds).2
    rw [curLen_letter] at hlt
    omega
  · rintro line change _ h ⟨⟩ hbounds
    exact h (inBounds_of_putServer hbounds)

end Building

/-! ### The fronts -/

section Fronts

variable {env : Env} {source_p : ℕ} {st : Setting} {cap : BitVec 32}

/-- The front of the lines for members leaves room for a parameter. -/
theorem length_localFront_le : (localFront env source_p st).length ≤ 346 := by
  have hname := (env.client source_p).name_le
  have husername := (env.client source_p).username_le
  have hhost := (env.client source_p).host_le
  have hchname := st.ch.chname_le
  rw [hostLen] at hname hhost
  rw [userLen] at husername
  rw [channelLen] at hchname
  have hmode : " MODE ".toList.length = 6 := by decide
  rw [localFront]
  split_ifs
  all_goals
    simp only [length_append, length_cons, length_nil]
    omega

theorem length_localFront : (localFront env source_p st).length + 2 < ircdBufsize := by
  have hle : (localFront env source_p st).length ≤ 346 := length_localFront_le
  rw [ircdBufsize]
  omega

/-- The front of the lines for servers is short. -/
theorem length_serverFront_le : (serverFront env source_p st cap).length ≤ 310 := by
  have hname := (env.client source_p).name_le
  have hid := (env.client source_p).id_le
  have hchname := st.ch.chname_le
  have hts := length_decimal_le st.ch.channelts_long
  rw [hostLen] at hname
  rw [idLen] at hid
  rw [channelLen] at hchname
  have hmode : " MODE ".toList.length = 6 := by decide
  have htmode : " TMODE ".toList.length = 7 := by decide
  rw [serverFront, Client.useId]
  split_ifs
  all_goals
    simp only [length_append, length_cons, length_nil]
    omega

theorem length_serverFront : (serverFront env source_p st cap).length + 2 < ircdBufsize := by
  have hle : (serverFront env source_p st cap).length ≤ 310 := length_serverFront_le
  rw [ircdBufsize]
  omega

end Fronts

/-! ### All lines -/

/-- At each letter without a parameter that is put on a line, there is room. -/
def Roomy (env : Env) (source_p : ℕ) (st : Setting) : Prop :=
  (∀ pass ∈ localPasses env source_p st,
      Run.StepsMeet (fun line change => some (putLocal pass.1 line change)) (Room pass.1)
        (Line.start pass.1) pass.2) ∧
    ∀ pass ∈ serverPasses env source_p st,
      Run.StepsMeet (fun line change => some (putServer pass.1 line change)) (Room pass.1)
        (Line.start pass.1) pass.2

theorem forall_lines_iff (env : Env) (source_p : ℕ) (st : Setting) :
    (∀ line ∈ lines env source_p st, line.InBounds) ↔ Roomy env source_p st := by
  have hlocal : ∀ pass ∈ localPasses env source_p st, pass.1.length + 2 < ircdBufsize := by
    intro pass hpass
    obtain ⟨flags, -, rfl⟩ := mem_map.mp hpass
    exact length_localFront
  have hserver : ∀ pass ∈ serverPasses env source_p st, pass.1.length + 2 < ircdBufsize := by
    intro pass hpass
    rw [serverPasses] at hpass
    split_ifs at hpass
    · obtain ⟨m, -, rfl⟩ := mem_map.mp hpass
      exact length_serverFront
    · exact absurd hpass not_mem_nil
  rw [lines]
  split_ifs with hnil
  · -- Without changes nothing is shown.
    refine iff_of_true (fun _ h => absurd h not_mem_nil) ⟨fun pass hpass => ?_, fun pass hpass =>
      ?_⟩
    · obtain ⟨flags, -, rfl⟩ := mem_map.mp hpass
      rw [Setting.shownTo, hnil]
      trivial
    · rw [serverPasses] at hpass
      split_ifs at hpass
      · obtain ⟨m, -, rfl⟩ := mem_map.mp hpass
        rw [Setting.shownWith, hnil]
        trivial
      · exact absurd hpass not_mem_nil
  · rw [forall_mem_append, forall_mem_map, forall_mem_map, Roomy]
    exact and_congr (forall₂_congr fun pass hpass => sendLocal_iff pass.2 (hlocal pass hpass))
      (forall₂_congr fun pass hpass => sendServer_iff pass.2 (hserver pass hpass))

/-- **The lines that tell of mode changes.** All writes to the buffers stay in them if and only if
each letter without a parameter that is put on a line has room there. -/
theorem lines_iff (env : Env) (source_p : ℕ) (line : Str) :
    (∀ call st, received env source_p line = some call → call.run env source_p = some st →
        ∀ l ∈ lines env source_p st, l.InBounds) ↔
      ∀ call st, received env source_p line = some call → call.run env source_p = some st →
      Roomy env source_p st :=
  forall₄_congr fun _ st _ _ => forall_lines_iff env source_p st

/-- The flag `MODE_SSLONLY` is set and cleared over and over, on a line of 489 bytes. -/
theorem toggles :
    ¬∀ (env : Env) (source_p : ℕ) (line : Str), env.my source_p = true → line.length ≤ 510 →
    ∀ call st, received env source_p line = some call → getChannelAccess env source_p call.msptr =
      true → call.run env source_p = some st → ∀ l ∈ lines env source_p st, l.InBounds := by
  intro h
  have hrun :
      ((received somehow 0 ("MODE #c S".toList ++ (replicate 120 "-S+S".toList).flatten)).bind
          fun call =>
      (call.run somehow 0).map fun st => decide (getChannelAccess somehow 0 call.msptr = true ∧
        st.changes ≠ [] ∧ (∀ change ∈ st.shownTo .allMembers, change.arg = none) ∧
        (st.shownTo .allMembers).IsChain (fun change change' => change.dir ≠ change'.dir) ∧
        (∀ change ∈ (st.shownTo .allMembers).head?, change.dir ≠ .query) ∧
        ircdBufsize ≤ (localFront somehow 0 st).length + 2 * (st.shownTo .allMembers).length)) =
            some true := by
    decide +kernel
  obtain ⟨call, hcall, hst⟩ := Option.bind_eq_some_iff.mp hrun
  obtain ⟨st, hst, hbad⟩ := Option.map_eq_some_iff.mp hst
  obtain ⟨hop, hne, harg, hdir, hhead, hlen⟩ := of_decide_eq_true hbad
  refine not_inBounds_toggles harg hdir hhead hlen (h somehow 0 _ rfl (by decide +kernel) call st
    hcall hop hst _ ?_)
  rw [lines, if_neg hne]
  exact mem_append_left _ (mem_map.mpr ⟨_, mem_cons_self, rfl⟩)

end Ratbox.SetMode
