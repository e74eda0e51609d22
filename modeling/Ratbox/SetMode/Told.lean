import Ratbox.SetMode.Servers

/-!
# What servers are told of mode changes

The changes that a server is to be told of are packed into lines, in their order: a line that has no
room for a change with a parameter is sent. A parameter that is too long for any line is left out. A
letter without a parameter is put on the line that there is, whether it has room or not, and what is
behind the first 510 bytes of a line is not sent.

Source: `src/channel.c`, lines 971–1080, and `src/send.c`, lines 443–487.

## Main definitions

* `SetMode.text`: the line for some changes.
* `SetMode.Setting.admitted`: the changes that a server is to be told of.
* `SetMode.kept`: those whose parameter is not too long.
* `SetMode.Told`: the lines tell of changes.
* `SetMode.LettersFit`: the letters without a parameter have room.

## Main results

* `SetMode.told_sendServer`: the lines that are built tell of the changes.
* `SetMode.Links.changes_told`: the lines that a linked server gets tell of the changes.
-/

namespace Ratbox.SetMode

open Text List Option Packing
open Channel (channelLen idLen)
open Banlist (modebufLen)
open Flags (Has IsFlag)

/-! ### The text of a line -/

/-- The letters of some changes, behind a sign. A sign is written where it changes. -/
def letters : Dir → List Shown → Str
  | _, [] => []
  | dir, change :: changes =>
    (if dir ≠ change.dir then [change.sign] else []) ++ change.letter :: letters change.dir changes

/-- The sign behind which the next letter comes. -/
def lastDir (dir : Dir) (changes : List Shown) : Dir := (changes.getLast?.map Shown.dir).getD dir

/-- The parameters of some changes, each behind a space. -/
def params (changes : List Shown) :
    Str := changes.flatMap fun change => change.arg.elim [] (' ' :: ·)

/-- The line for some changes. -/
def text (front : Str) (changes : List Shown) : Str :=
  front ++ (letters .query changes ++ params changes)

/-- A line for some changes, which may have a space behind it. -/
def Shows (front : Str) (changes : List Shown) (line : Str) : Prop :=
  line = text front changes ∨ line = text front changes ++ [' ']

/-- **The lines tell of the changes**: of all of them, in their order, of each on one line. -/
def Told (front : Str) (changes : List Shown) (lines : List Str) : Prop :=
  ∃ chunks : List (List Shown), chunks.flatten = changes ∧ (∀ chunk ∈ chunks, chunk ≠ []) ∧
    Forall₂ (Shows front) chunks lines

/-! ### The changes -/

/-- The changes whose parameter is not too long for a line. -/
def kept (changes : List Shown) :
    List Shown := changes.filter fun change => change.arg.all fun a => a.length ≤ modebufLen - 5

/-- **The changes that a server is to be told of**, by its capabilities: those that need no
capability that it does not have, and that no capability of it is against. It is told ids if it has
`CAP_TS6`. -/
def Setting.admitted (st : Setting) (caps : BitVec 32) : List Shown :=
  (st.changes.filter fun change =>
    change.letter ≠ '\x00' ∧ caps &&& change.caps = change.caps ∧ caps &&& change.nocaps = 0).map
        fun change =>
      ⟨change.letter, st.serverArg caps change, change.dir⟩

section Admitted

variable {env : Env} {caps : BitVec 32} {m source_p : ℕ} {st : Setting}

theorem has_chcaps_ts6 (env : Env) : Has env.chcaps capTs6 := by
  rw [Env.chcaps, Env.channelCapabs]
  cases env.services <;> decide

theorem has_and_chcaps : Has (caps &&& env.chcaps) capTs6 ↔ Has caps capTs6 := by
  have hts6 : IsFlag capTs6 := ⟨15, by omega, by decide⟩
  exact hts6.has_and.trans (and_iff_left (has_chcaps_ts6 env))

section

variable (hm : env.comboFor caps = some m)
include hm

theorem fst_combo : (env.combo m).1 = caps &&& env.chcaps :=
  Combos.fst_combo_of_matches (Env.inCombo_iff.mp (Env.comboFor_eq_some.mp hm).2)

theorem snd_combo : (env.combo m).2 = env.chcaps &&& ~~~caps :=
  Combos.snd_combo_of_matches (Env.inCombo_iff.mp (Env.comboFor_eq_some.mp hm).2)

/-- The front of the lines for a combination is that for the server. -/
theorem serverFront_combo :
    serverFront env source_p st (env.combo m).1 = serverFront env source_p st caps := by
  rw [fst_combo hm, serverFront, serverFront]
  exact if_congr has_and_chcaps rfl rfl

/-- The changes for a combination are those for the server. -/
theorem shownWith_combo (hrelevant : ∀ change ∈ st.changes, env.Relevant change) :
    st.shownWith (env.combo m).1 (env.combo m).2 = st.admitted caps := by
  have harg : ∀ change, st.serverArg (caps &&& env.chcaps) change =
      st.serverArg caps change := fun change =>
    if_congr (and_congr_left fun _ => has_and_chcaps) rfl rfl
  rw [fst_combo hm, snd_combo hm, Setting.shownWith, Setting.admitted]
  simp only [harg]
  congr 1
  refine filter_congr fun change hchange => ?_
  obtain ⟨hcaps, hnocaps⟩ := hrelevant change hchange
  have hyes : caps &&& env.chcaps &&& change.caps = change.caps ↔
      caps &&& change.caps = change.caps := by
    rw [BitVec.and_assoc, hcaps]
  have hno : env.chcaps &&& ~~~caps &&& change.nocaps = change.nocaps ↔
      caps &&& change.nocaps = 0 := by
    rw [Combos.and_eq_self_iff] at hnocaps ⊢
    rw [Combos.and_eq_zero_iff]
    refine forall_congr' fun i => imp_congr_right fun hi => ?_
    have hlt : i < 32 := BitVec.lt_of_getLsbD hi
    simp [hnocaps i hi, hlt]
  rw [decide_eq_decide, hyes, hno]

end

end Admitted

/-! ### Building the lines -/

/-- The line has room for a change; a letter without a parameter is not asked for room. -/
def room (front : Str) (changes : List Shown) (change : Shown) : Bool :=
  match change.arg with
  | none => true
  | some a =>
    !(decide (changes.countP (·.arg.isSome) = maxModeParamsServ) ||
      decide (ircdBufsize - 3 < front.length + (letters .query changes).length +
        (params changes).length + a.length + 4))

/-- Each letter without a parameter has room: the line on which it is put has at most 510 bytes
then. -/
def LettersFit (front : Str) (changes : List Shown) : Prop :=
  ∀ pre change suf, changes = pre ++ change :: suf → change.arg = none →
    (text front (onto (room front) (pre.foldl (put (room front)) ([], [])) change ++
      [change])).length ≤ lineLen

section Building

variable {front : Str} {line : Line} {changes : List Shown} {change : Shown} {dir : Dir}
  {s : List (List Shown) × List Shown}

@[simp] theorem letters_nil : letters dir [] = [] := rfl

@[simp] theorem params_nil : params [] = [] := rfl

theorem letters_append (dir : Dir) (changes : List Shown) (change : Shown) :
    letters dir (changes ++ [change]) =
    letters dir changes ++ ((if lastDir dir changes ≠ change.dir then [change.sign] else []) ++
      [change.letter]) := by
  induction changes generalizing dir with
  | nil => rw [nil_append, letters, letters]; rfl
  | cons c changes ih =>
    have hlast : lastDir c.dir changes = lastDir dir (c :: changes) := by
      rw [lastDir, lastDir]
      cases changes with
      | nil => rfl
      | cons c' changes => rw [getLast?_cons_cons, getLast?_eq_some_getLast
        (cons_ne_nil c' changes)]; rfl
    rw [cons_append, letters, letters, ih, hlast, append_assoc, cons_append]

theorem params_append (changes : List Shown) (change : Shown) :
    params (changes ++ [change]) = params changes ++ change.arg.elim [] (' ' :: ·) := by
  rw [params, params, flatMap_append, flatMap_singleton]

theorem letters_eq_nil : letters dir changes = [] ↔ changes = [] := by
  cases changes with
  | nil => simp
  | cons c changes => simp [letters]

theorem lastDir_append (dir : Dir) (changes : List Shown) (change : Shown) :
    lastDir dir (changes ++ [change]) = change.dir := by
  rw [lastDir, getLast?_concat]
  rfl

/-- The line has some changes, and those of other lines have been sent. -/
structure Built (front : Str) (line : Line) (s : List (List Shown) × List Shown) : Prop where
  mode : line.mode = letters .query s.2
  para : ' ' :: line.para = params s.2 ++ [' ']
  count : line.count = s.2.countP (·.arg.isSome)
  dir : line.dir = lastDir .query s.2
  sent : line.sent = s.1.map fun chunk => text front chunk ++ [' ']

theorem built_start (front : Str) : Built front (Line.start front) ([], []) :=
  ⟨rfl, rfl, rfl, rfl, rfl⟩

theorem letter_mode : (line.letter front change).mode =
    line.mode ++ ((if line.dir ≠ change.dir then [change.sign] else []) ++ [change.letter]) := by
  rw [Line.letter, Line.putSign]
  split_ifs
  · rw [← append_assoc]
    rfl
  · rfl

@[simp] theorem letter_count : (line.letter front change).count = line.count := by
  rw [Line.letter, Line.putSign]
  split_ifs <;> rfl

@[simp] theorem letter_sent : (line.letter front change).sent = line.sent := by
  rw [Line.letter, Line.putSign]
  split_ifs <;> rfl

namespace Built

variable {s : List (List Shown) × List Shown}

section

variable (h : Built front line s)
include h

theorem length_para : line.para.length = (params s.2).length := by
  have hlen := congrArg length h.para
  rw [length_cons, length_append, length_singleton] at hlen
  exact Nat.succ_injective hlen

/-- A letter without a parameter is put on the line. -/
theorem letter (harg : change.arg = none) :
    Built front ((line.letter front change).terminate front) (s.1, s.2 ++ [change]) where
  mode := by rw [letters_append, ← h.mode, ← h.dir]; exact letter_mode
  para := by rw [params_append, harg, elim_none, append_nil, ← h.para, para_terminate, para_letter]
  count := by
    rw [countP_append, countP_singleton, harg, ← h.count]
    exact letter_count
  dir := by rw [lastDir_append]; exact dir_letter
  sent := h.sent ▸ letter_sent

/-- A letter is put on the line with its parameter. -/
theorem arg {a : Str} (harg : change.arg = some a) :
    Built front (((line.letter front change).terminate front).arg a) (s.1, s.2 ++ [change]) where
  mode := by rw [letters_append, ← h.mode, ← h.dir]; exact letter_mode
  para := by
    have hpara : (((line.letter front change).terminate front).arg a).para = line.para ++
      (a ++ [' ']) :=
      congrArg (· ++ (a ++ [' '])) para_letter
    rw [hpara, params_append, harg, elim_some, ← cons_append, h.para]
    simp
  count := by
    rw [countP_append, countP_singleton, harg, ← h.count]
    exact congrArg (· + 1) letter_count
  dir := by rw [lastDir_append]; exact dir_letter
  sent := h.sent ▸ letter_sent

/-- The line is sent, and the next one is begun. -/
theorem next : Built front (line.send front).begin (s.1 ++ [s.2], []) where
  mode := rfl
  para := rfl
  count := rfl
  dir := rfl
  sent := by
    have hline : front ++ line.mode ++ ' ' :: line.para = text front s.2 ++ [' '] := by
      rw [h.mode, h.para, text, append_assoc, append_assoc, append_assoc]
    have hsent : (line.send front).begin.sent = line.sent ++
      [front ++ line.mode ++ ' ' :: line.para] := rfl
    rw [hsent, h.sent, hline, map_append, map_singleton]

/-- A line is full exactly when there is no room for the change. -/
theorem full_eq {a : Str} (harg : change.arg = some a) :
    line.full front a = !room front s.2 change := by
  rw [room, harg, Line.full, h.count, Line.curLen, h.mode, h.length_para, Bool.not_not]

end

end Built

/-- A front that is not too long for a parameter. -/
def ShortFront (front : Str) : Prop := front.length ≤ 310

/-- A parameter that is kept has room on a line of its own. -/
theorem room_nil (hfront : ShortFront front)
    (hkept : change.arg.all (fun a => a.length ≤ modebufLen - 5) = true) :
    room front [] change = true := by
  rw [room]
  cases harg : change.arg with
  | none => rfl
  | some a =>
    rw [harg, all_some, decide_eq_true_iff, modebufLen] at hkept
    rw [ShortFront] at hfront
    simp [maxModeParamsServ, ircdBufsize]
    omega

/-- **A step of the loop for servers** puts the change on the line that has room for it. -/
theorem Built.putServer (h : Built front line s) (hfront : ShortFront front)
    (hkept : change.arg.all (fun a => a.length ≤ modebufLen - 5) = true) :
    Built front (putServer front line change) (put (room front) s change) := by
  rw [SetMode.putServer, put]
  cases harg : change.arg with
  | none =>
    have hroom : room front s.2 change = true := by simp [room, harg]
    rw [hroom, if_pos rfl]
    exact h.letter harg
  | some a =>
    dsimp only
    have hshort : ¬modebufLen - 5 < a.length := by
      rw [harg, all_some, decide_eq_true_iff] at hkept
      exact Nat.not_lt.mpr hkept
    rw [if_neg hshort, h.full_eq harg]
    by_cases hroom : room front s.2 change = true
    · rw [hroom, if_pos rfl, if_neg (by decide)]
      exact h.arg harg
    · have hne : s.2 ≠ [] := fun hnil => hroom (hnil ▸ room_nil hfront hkept)
      have hmode : line.mode ≠ [] := fun hnil => hne (letters_eq_nil.mp (h.mode.symm.trans hnil))
      rw [if_neg hroom, Bool.eq_false_of_not_eq_true hroom, Bool.not_false, if_pos rfl,
        if_neg hmode]
      exact h.next.arg harg

/-- A change whose parameter is too long is left out. -/
theorem putServer_of_not_kept (hkept : ¬change.arg.all (fun a => a.length ≤ modebufLen - 5) =
    true) :
    putServer front line change = line := by
  rw [SetMode.putServer]
  cases harg : change.arg with
  | none => exact absurd (by rw [harg]; rfl) hkept
  | some a =>
    rw [harg, all_some, decide_eq_true_iff, Nat.not_le] at hkept
    exact if_pos hkept

/-- **The loop for servers** packs the changes that are kept. -/
theorem built_foldl (hfront : ShortFront front) (h : Built front line s) (changes : List Shown) :
    Built front (changes.foldl (putServer front) line)
    ((kept changes).foldl (put (room front)) s) := by
  induction changes generalizing line s with
  | nil => exact h
  | cons change changes ih =>
    rw [foldl_cons, kept, filter_cons]
    split_ifs with hkept
    · exact ih (h.putServer hfront hkept)
    · rw [putServer_of_not_kept hkept]
      exact ih h

theorem chop_sent : line.chop.sent = line.sent := by
  rw [Line.chop]
  split_ifs <;> rfl

theorem chop_mode : line.chop.mode = line.mode := by
  rw [Line.chop]
  split_ifs <;> rfl

/-- The last line is sent without the space behind its last parameter. -/
theorem Built.shows_chop (h : Built front line s) :
    Shows front s.2 (front ++ line.chop.mode ++ ' ' :: line.chop.para) := by
  rw [chop_mode, h.mode, Shows, text]
  by_cases hnil : line.para = []
  · have hchop : line.chop = line := if_neg (by rw [hnil]; exact nofun)
    rw [hchop, h.para]
    exact .inr (by simp only [append_assoc])
  · have hlast : line.para.getLast? = some ' ' := by
      rw [← getLast?_cons_of_ne_nil hnil, h.para, getLast?_concat]
    have hchop : line.chop.para = line.para.dropLast := by rw [Line.chop, if_pos hlast]
    rw [hchop, ← dropLast_cons_of_ne_nil hnil, h.para, dropLast_concat]
    exact .inl (append_assoc _ _ _)

/-- **The lines that are built** show the changes as they are packed. -/
theorem forall₂_sendServer (hfront : ShortFront front) (hne : kept changes ≠ []) :
    Forall₂ (Shows front) (pack (room front) (kept changes)) (sendServer front changes).sent := by
  have hbuilt := built_foldl hfront (built_start front) changes
  have hlast : ((kept changes).foldl (put (room front)) ([], [])).2 ≠ [] := foldl_put_ne_nil hne _
  have hmode : ((changes.foldl (putServer front) (Line.start front)).chop).mode ≠ [] := by
    rw [chop_mode, hbuilt.mode]
    exact fun hnil => hlast (letters_eq_nil.mp hnil)
  have hsent : (sendServer front changes).sent = _ ++ [_] := congrArg Line.sent (if_neg hmode)
  rw [hsent, chop_sent, hbuilt.sent, pack]
  refine rel_append ?_ (Forall₂.cons hbuilt.shows_chop Forall₂.nil)
  exact forall₂_map_right_iff.mpr (forall₂_same.mpr fun chunk _ => .inr rfl)

/-! ### The length of the lines -/

theorem length_text_append (front : Str) (changes : List Shown) (change : Shown) :
    (text front changes).length ≤ (text front (changes ++ [change])).length := by
  simp only [text, letters_append, params_append, length_append]
  omega

/-- A change with a parameter is put on a line that has room for it. -/
theorem length_text_arg {a : Str} (hfront : ShortFront front) (harg : change.arg = some a)
    (ha : a.length ≤ modebufLen - 5) (s : List (List Shown) × List Shown) :
    (text front (onto (room front) s change ++ [change])).length ≤ lineLen := by
  have hsign : ∀ dir : Dir, (if dir ≠ change.dir then [change.sign] else []).length ≤ 1 := by
    intro dir
    split_ifs
    · exact length_singleton.le
    · exact Nat.zero_le 1
  have hlen : ∀ changes, (text front (changes ++ [change])).length ≤
      front.length + (letters .query changes).length + (params changes).length + a.length + 3 := by
    intro changes
    have hle := hsign (lastDir .query changes)
    simp only [text, letters_append, params_append, harg, elim_some, length_append, length_cons,
      length_nil]
    omega
  rw [ShortFront] at hfront
  rw [modebufLen] at ha
  rw [onto, lineLen]
  split_ifs with hroom
  · have hle := hlen s.2
    rw [room, harg] at hroom
    have hbound := of_decide_eq_false (Bool.or_eq_false_iff.mp (Bool.not_eq_true' _ ▸ hroom)).2
    rw [ircdBufsize] at hbound
    omega
  · have hle := hlen []
    rw [letters_nil, params_nil, length_nil] at hle
    omega

/-- **The lines have at most 510 bytes** when the letters without a parameter have room. -/
theorem length_text_pack (hfront : ShortFront front) (hfit : LettersFit front (kept changes)) :
    ∀ chunk ∈ pack (room front) (kept changes), (text front chunk).length ≤ lineLen := by
  have hnil : (text front []).length ≤ lineLen := by
    rw [ShortFront] at hfront
    rw [text, letters_nil, params_nil, append_nil, append_nil, lineLen]
    omega
  refine (forall_pack_iff hnil (fun l change h => (length_text_append front l change).trans h)
    _).mpr ?_
  intro pre change suf heq
  cases harg : change.arg with
  | none => exact hfit pre change suf heq harg
  | some a =>
    have hmem : change ∈ kept changes := heq ▸ mem_append_right pre mem_cons_self
    have hkept := (mem_filter.mp hmem).2
    rw [harg, all_some, decide_eq_true_iff] at hkept
    exact length_text_arg hfront harg hkept _

theorem Shows.take {l : Str} (h : Shows front changes l)
    (hlen : (text front changes).length ≤ lineLen) :
    Shows front changes (l.take lineLen) := by
  obtain rfl | rfl := h
  · exact .inl (take_of_length_le hlen)
  · by_cases hlt : (text front changes).length < lineLen
    · exact .inr (take_of_length_le (by rw [length_append, length_singleton]; omega))
    · rw [take_append_of_le_length (by omega), take_of_length_le hlen]
      exact .inl rfl

/-- Lines that are cut. -/
theorem forall₂_take {chunks : List (List Shown)} {lines : List Str}
    (h : Forall₂ (Shows front) chunks lines)
    (hlen : ∀ chunk ∈ chunks, (text front chunk).length ≤ lineLen) :
    Forall₂ (Shows front) chunks (lines.map (take lineLen)) := by
  induction h with
  | nil => exact Forall₂.nil
  | cons hshows _ ih =>
    obtain ⟨hfirst, hlen⟩ := forall_mem_cons.mp hlen
    exact Forall₂.cons (hshows.take hfirst) (ih hlen)

/-- **The lines that are built tell of the changes**, also when they are cut. -/
theorem told_sendServer (hfront : ShortFront front) (hfit : LettersFit front (kept changes)) :
    Told front (kept changes) ((sendServer front changes).sent.map (take lineLen)) := by
  by_cases hne : kept changes = []
  · have hbuilt := built_foldl hfront (built_start front) changes
    rw [hne, foldl_nil] at hbuilt
    have hmode : ((changes.foldl (putServer front) (Line.start front)).chop).mode = [] :=
      chop_mode.trans hbuilt.mode
    have hsent : (sendServer front changes).sent = [] := by
      rw [sendServer, if_pos hmode, chop_sent, hbuilt.sent]
      rfl
    rw [hne, hsent]
    exact ⟨[], rfl, fun _ h => absurd h not_mem_nil, Forall₂.nil⟩
  · have hlength := length_text_pack hfront hfit
    refine ⟨pack (room front) (kept changes), flatten_pack _ _, ?_, ?_⟩
    · exact forall_pack hne (fun change hchange => room_nil hfront (mem_filter.mp hchange).2)
        fun l change _ _ => concat_ne_nil change l
    · exact forall₂_take (forall₂_sendServer hfront hne) hlength

end Building

/-! ### Servers -/

/-- **The numbers of the combinations are right, and each linked server is told**, unless the
changes come from it: after any servers were linked and have exited, of the changes that it is to be
told of and whose parameter is not too long, as long as the letters without a parameter have
room. -/
theorem Links.changes_told (env : Env) (ops : List LinkOp) :
    (ops.foldl (step env) init).Counted env ∧
      ∀ (one : Option ℕ) (p source_p : ℕ) (caps : BitVec 32) (st : Setting),
        (p, caps) ∈ (ops.foldl (step env) init).servList → some p ≠ one →
        st.ch.chname.head? = some '#' → (∀ change ∈ st.changes, env.Relevant change) →
        LettersFit (serverFront env source_p st caps) (kept (st.admitted caps)) →
          Told (serverFront env source_p st caps) (kept (st.admitted caps))
            (toldTo p (sendCapModeChanges env (ops.foldl (step env) init) one source_p st)) := by
  have hinv := inv_run env ops
  refine ⟨hinv.counted, fun one p source_p caps st hp hone hchan hrelevant hfit => ?_⟩
  obtain ⟨m, ⟨hlt, hmatches⟩, -⟩ :=
    Combos.existsUnique_matches (@Env.isFlag_channelCapabs env) caps
  have hm : env.comboFor caps = some m :=
    Env.comboFor_eq_some.mpr ⟨hlt, Env.inCombo_iff.mpr hmatches⟩
  rw [toldTo_sendCapModeChanges hinv hp hone hchan hm, serverFront_combo hm,
    shownWith_combo hm hrelevant]
  exact told_sendServer length_serverFront_le hfit

/-- The operator sets a mode, and makes a client an operator. -/
def twoChanges : Setting :=
  { start somewhere with
    changes :=
      [⟨'m', none, none, .add, 0, 0, .allMembers⟩,
        ⟨'o', some (.text "nick".toList), some "1AAAAAAAA".toList, .add, 0, 0, .allMembers⟩] }

theorem Links.changes_told_twoChanges :
    ([.estab 1 capTs6].foldl (step somehow) init).Counted somehow ∧
      Told (serverFront somehow 0 twoChanges capTs6) (kept (twoChanges.admitted capTs6))
        (toldTo 1 (sendCapModeChanges somehow ([.estab 1 capTs6].foldl (step somehow) init) none 0
          twoChanges)) := by
  have hrelevant : twoChanges.Relevant somehow := by
    refine forall_mem_cons.mpr ⟨?_, forall_mem_singleton.mpr ?_⟩
    all_goals exact Env.relevant_of_caps rfl rfl
  refine (changes_told somehow [.estab 1 capTs6]).imp_right fun h =>
    h none 1 0 capTs6 twoChanges mem_cons_self nofun rfl hrelevant ?_
  have hkept : kept (twoChanges.admitted capTs6) = [⟨'m', none, .add⟩,
    ⟨'o', some "1AAAAAAAA".toList, .add⟩] := by decide
  rw [hkept]
  intro pre change suf heq harg
  obtain _ | ⟨first, _ | ⟨second, pre⟩⟩ := pre
  · obtain ⟨rfl, -⟩ := cons.inj heq
    decide +kernel
  · obtain ⟨-, htail⟩ := cons.inj heq
    obtain ⟨rfl, -⟩ := cons.inj htail
    cases harg
  · simp at heq

/-- A client of another server sets a mask of 196 characters. -/
theorem longMask_not_told :
    ¬∀ (env : Env) (ops : List LinkOp) (one : Option ℕ) (p source_p : ℕ) (caps : BitVec 32)
      (call : Call) (st : Setting), call.run env source_p = some st →
    (p, caps) ∈ (ops.foldl (Links.step env) Links.init).servList → some p ≠ one →
    st.ch.chname.head? = some '#' → LettersFit (serverFront env source_p st caps)
      (st.admitted caps) → Told (serverFront env source_p st caps) (st.admitted caps)
        (toldTo p (sendCapModeChanges env (ops.foldl (Links.step env) Links.init) one source_p
          st)) := by
  intro h
  let env : Env := { somehow with client := fun _ => { someone with kind := .remoteUser } }
  let call : Call := ⟨somewhere, none, "+b".toList, [replicate 196 'a']⟩
  let links := [LinkOp.estab 1 capTs6].foldl (Links.step env) Links.init
  have hrun : (call.run env 0).map (fun st => decide (st.ch.chname.head? = some '#' ∧
      (∀ change ∈ st.admitted capTs6, change.arg ≠ none) ∧ st.admitted capTs6 ≠ [] ∧
      toldTo 1 (sendCapModeChanges env links (some 2) 0 st) = [])) = some true := by decide +kernel
  obtain ⟨st, hst, hbad⟩ := map_eq_some_iff.mp hrun
  obtain ⟨hchan, harg, hne, hnone⟩ := of_decide_eq_true hbad
  have hfit : LettersFit (serverFront env 0 st capTs6)
      (st.admitted capTs6) := fun pre change suf heq hnil =>
    absurd hnil (harg change (heq ▸ mem_append_right pre mem_cons_self))
  obtain ⟨chunks, hflatten, -, hlines⟩ :=
    h env [.estab 1 capTs6] (some 2) 1 0 capTs6 call st hst mem_cons_self (by decide) hchan hfit
  rw [hnone, forall₂_nil_right_iff] at hlines
  exact hne (by rw [← hflatten, hlines]; rfl)

end Ratbox.SetMode
