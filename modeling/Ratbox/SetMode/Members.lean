import Ratbox.SetMode.Told
import Ratbox.SetMode.Views

/-!
# What members are told of mode changes

There are lines for all members, and lines for operators only. A client reads the letters of a line
from left to right and takes a parameter for each letter that has one. When no line was cut and no
mask was cut, what the lines tell leads from the channel as it was to the channel as it is.

A mask of another server may be longer than its place on a list. It is cut there, and told as it was
given, or not at all. A letter without a parameter is put on the line that there is, and when the
line has no room for it, its end is not sent.

Source: `modules/core/m_mode.c`, lines 787–930 and 1472–1541.

## Main definitions

* `SetMode.readLine`: the changes that a client reads.
* `SetMode.localLines`: the lines for members, as they are sent.
* `SetMode.FitsLine`: a line is not too long when a change was put on it.

## Main results

* `SetMode.told_sendLocal`: the lines that are built tell of the changes.
* `SetMode.Call.view_eq`: what a client knows after a call.
* `SetMode.long_mask_cut`: a mask that was cut.
-/

namespace Ratbox.SetMode

open Text List SetMode
open Banlist (ModeType banLen modebufLen)

/-! ### Building the lines -/

/-- Some changes whose parameter is long are left out. -/
inductive Thinned : List Shown → List Shown → Prop
  | nil : Thinned [] []
  | keep {change changes changes'} :
      Thinned changes changes' → Thinned (change :: changes) (change :: changes')
  | skip {change changes changes'} (hlong : ∃ a, change.arg = some a ∧ banLen ≤ a.length) :
      Thinned changes changes' → Thinned (change :: changes) changes'

/-- **A line is not too long** when a change was put on it. -/
def FitsLine (front : Str) (line : Line) (change : Shown) : Prop :=
  front.length + (putLocal front line change).mode.length +
    (putLocal front line change).para.length ≤ lineLen

instance (front : Str) (line : Line) (change : Shown) : Decidable (FitsLine front line change) :=
  Nat.decLe _ _

/-- The lines fit, and none is without changes but the last one. -/
structure Fitting (front : Str) (s : List (List Shown) × List Shown) : Prop where
  sent : ∀ chunk ∈ s.1, chunk ≠ [] ∧ (text front chunk).length ≤ lineLen
  last : (text front s.2).length ≤ lineLen

section Building

variable {front : Str} {line : Line} {changes : List Shown} {change : Shown}
  {s : List (List Shown) × List Shown}

/-- **A step of the loop for members** puts the change on the line that has room for it, or leaves
it out. -/
theorem Built.putLocal (h : Built front line s) (hfront : front.length ≤ 346) (change : Shown) :
    Built front (putLocal front line change) (Packing.put (room front) s change) ∧
        (room front s.2 change = true ∨ s.2 ≠ []) ∨
      (∃ a, change.arg = some a ∧ banLen ≤ a.length) ∧
      Built front (putLocal front line change) s := by
  have hterminate : Built front (line.terminate front) s := ⟨h.mode, h.para, h.count, h.dir, h.sent⟩
  rw [SetMode.putLocal, Packing.put]
  cases harg : change.arg with
  | none =>
    have hroom : room front s.2 change = true := by simp [room, harg]
    have hput := h.letter harg
    rw [if_pos hroom]
    exact .inl ⟨⟨hput.mode, hput.para, hput.count, hput.dir, hput.sent⟩, .inl hroom⟩
  | some a =>
    have hfull := h.full_eq harg
    dsimp only
    by_cases hlong : modebufLen - 5 < a.length
    · rw [if_pos hlong]
      exact .inr ⟨⟨a, rfl, le_trans (by decide) hlong.le⟩, h⟩
    rw [if_neg hlong, hfull]
    by_cases hroom : room front s.2 change = true
    · have hput := h.arg harg
      rw [hroom, if_pos rfl, if_neg (by decide)]
      exact .inl ⟨⟨hput.mode, hput.para, hput.count, hput.dir, hput.sent⟩, .inl rfl⟩
    rw [if_neg hroom, Bool.eq_false_of_not_eq_true hroom, Bool.not_false, if_pos rfl]
    by_cases hnil : (line.terminate front).mode = []
    · -- the change does not fit behind the front
      have hs : s.2 = [] := letters_eq_nil.mp (hterminate.mode.symm.trans hnil)
      rw [if_pos hnil]
      refine .inr ⟨⟨a, rfl, ?_⟩, hterminate⟩
      rw [hs, room, harg] at hroom
      simp [maxModeParamsServ, ircdBufsize] at hroom
      rw [banLen, nickLen, userLen, hostLen]
      omega
    · have hs : s.2 ≠ [] := fun hs => hnil (hterminate.mode.trans (letters_eq_nil.mpr hs))
      have hput := hterminate.next.arg harg
      rw [if_neg hnil]
      exact .inl ⟨⟨hput.mode, hput.para, hput.count, hput.dir, hput.sent⟩, .inr hs⟩

theorem Built.length_text (h : Built front line s) :
    (text front s.2).length = front.length + line.mode.length + line.para.length := by
  rw [text, length_append, length_append, h.mode, h.length_para, Nat.add_assoc]

/-- **The loop for members** packs the changes, but for some that are long. -/
theorem exists_built_foldl (h : Built front line s) (hfront : front.length ≤ 346)
    (hfitting : Fitting front s)
    (hfits : Run.StepsMeet (fun line change => some (putLocal front line change)) (FitsLine front)
      line changes) :
    ∃ changes', Thinned changes changes' ∧
      Built front (changes.foldl (putLocal front) line)
        (changes'.foldl (Packing.put (room front)) s) ∧
        Fitting front (changes'.foldl (Packing.put (room front)) s) := by
  induction changes generalizing line s with
  | nil => exact ⟨[], .nil, h, hfitting⟩
  | cons change changes ih =>
    obtain ⟨hfit, hfits⟩ := hfits
    have hfits := hfits _ rfl
    obtain ⟨hput, hne⟩ | ⟨hlong, hskip⟩ := h.putLocal hfront change
    · have hfitting' : Fitting front (Packing.put (room front) s change) := by
        have hlast : (text front (Packing.put (room front) s change).2).length ≤ lineLen := by
          rw [hput.length_text]
          exact hfit
        refine ⟨?_, hlast⟩
        rw [Packing.put]
        split_ifs with hroom
        · exact hfitting.sent
        · refine forall_mem_append.mpr ⟨hfitting.sent, forall_mem_singleton.mpr ⟨?_, hfitting.last⟩⟩
          exact hne.resolve_left hroom
      obtain ⟨changes', hthinned, hbuilt⟩ := ih hput hfitting' hfits
      exact ⟨change :: changes', .keep hthinned, hbuilt⟩
    · obtain ⟨changes', hthinned, hbuilt⟩ := ih hskip hfitting hfits
      exact ⟨changes', .skip hlong hthinned, hbuilt⟩

/-- **The lines that are built tell of the changes**, but for some that are long, also when they are
cut. -/
theorem told_sendLocal (hfront : front.length ≤ 346)
    (hfits : Run.StepsMeet (fun line change => some (putLocal front line change)) (FitsLine front)
      (Line.start front) changes) :
    ∃ changes', Thinned changes changes' ∧
    Told front changes' ((sendLocal front changes).sent.map (take lineLen)) := by
  have hempty : (text front []).length ≤ lineLen := by
    rw [text, letters_nil, params_nil, append_nil, append_nil, lineLen]
    omega
  obtain ⟨changes', hthinned, hbuilt, hfitting⟩ :=
    exists_built_foldl (built_start front) hfront ⟨forall_mem_nil _, hempty⟩ hfits
  refine ⟨changes', hthinned, ?_⟩
  have hflatten : (_ ++ [_] : List (List Shown)).flatten = changes' :=
    Packing.flatten_pack (room front) changes'
  generalize changes'.foldl (Packing.put (room front)) ([], []) = packed at hbuilt hfitting hflatten
  have hchunks : Forall₂ (Shows front) packed.1 (changes.foldl (putLocal front)
      (Line.start front)).sent := by
    rw [hbuilt.sent]
    exact forall₂_map_right_iff.mpr (forall₂_same.mpr fun chunk _ => .inr rfl)
  have hmode : (((changes.foldl (putLocal front) (Line.start front)).chop).terminate front).mode =
      [] ↔ packed.2 = [] := by
    change ((changes.foldl (putLocal front) (Line.start front)).chop).mode = [] ↔ _
    rw [chop_mode, hbuilt.mode, letters_eq_nil]
  by_cases hlast : packed.2 = []
  · have hsent : (sendLocal front changes).sent =
      (changes.foldl (putLocal front) (Line.start front)).sent :=
      (congrArg Line.sent (if_pos (hmode.mpr hlast))).trans chop_sent
    refine ⟨packed.1, ?_, fun chunk hchunk => (hfitting.sent chunk hchunk).1, ?_⟩
    · rw [flatten_append, hlast] at hflatten
      simpa using hflatten
    · rw [hsent]
      exact forall₂_take hchunks fun chunk hchunk => (hfitting.sent chunk hchunk).2
  · have hsent : (sendLocal front changes).sent = _ ++ [_] :=
      congrArg Line.sent (if_neg (mt hmode.mp hlast))
    refine ⟨packed.1 ++ [packed.2], by simpa using hflatten, ?_, ?_⟩
    · exact forall_mem_append.mpr
        ⟨fun chunk hchunk => (hfitting.sent chunk hchunk).1, forall_mem_singleton.mpr hlast⟩
    · rw [hsent]
      refine forall₂_take (rel_append ?_ (Forall₂.cons hbuilt.shows_chop Forall₂.nil)) ?_
      · exact (congrArg _ (chop_sent.symm)).mp hchunks
      · exact forall_mem_append.mpr
          ⟨fun chunk hchunk => (hfitting.sent chunk hchunk).2, forall_mem_singleton.mpr
            hfitting.last⟩

end Building

/-! ### Reading the lines -/

/-- The letters are read from left to right, and a letter that has a parameter takes the next
one. -/
def readLetters : Dir → Str → List Str → List Shown
  | _, [], _ => []
  | dir, c :: letters, args =>
    if c = '+' then readLetters .add letters args
    else if c = '-' then readLetters .del letters args
    else if takesArg c dir then ⟨c, args.head?, dir⟩ :: readLetters dir letters args.tail
    else ⟨c, none, dir⟩ :: readLetters dir letters args

/-- **The changes that a client reads** behind the front of a line: the letters, and the parameters
between spaces. -/
def readLine (front line : Str) : List Shown :=
  match (line.drop front.length).splitOn ' ' with
  | [] => []
  | letters :: args => readLetters .query letters args

/-- A change that is read as it was told. -/
structure Legible (change : Shown) : Prop where
  letter : change.letter ∉ ['+', '-', ' ', '\x00']
  dir : change.dir ≠ .query
  arg : change.arg.isSome = takesArg change.letter change.dir
  space : ∀ a, change.arg = some a → ' ' ∉ a

section Reading

variable {front line : Str} {changes : List Shown} {change : Shown} {chunks : List (List Shown)}
  {lines : List Str}

/-- A letter is read, with its parameter if it has one. -/
theorem readLetters_cons (h : Legible change) (letters : Str) (args : List Str) :
    readLetters change.dir (change.letter :: letters) (change.arg.toList ++ args) =
      change :: readLetters change.dir letters args := by
  obtain ⟨c, arg, dir⟩ := change
  have hadd : c ≠ '+' := ne_of_not_mem_cons h.letter
  have hdel : c ≠ '-' := ne_of_not_mem_cons (not_mem_of_not_mem_cons h.letter)
  have harg : arg.isSome = takesArg c dir := h.arg
  rw [readLetters, if_neg hadd, if_neg hdel]
  dsimp only
  rw [← harg]
  cases arg <;> rfl

/-- **The letters are read as they were told.** -/
theorem readLetters_letters (h : ∀ change ∈ changes, Legible change) (dir : Dir) (rest : List Str) :
    readLetters dir (letters dir changes) ((changes.flatMap fun change => change.arg.toList) ++
      rest) = changes := by
  induction changes generalizing dir with
  | nil => rfl
  | cons change changes ih =>
    obtain ⟨hchange, h⟩ := forall_mem_cons.mp h
    have hcons := readLetters_cons hchange (letters change.dir changes)
      ((changes.flatMap fun change => change.arg.toList) ++ rest)
    rw [ih h] at hcons
    rw [letters, flatMap_cons, append_assoc]
    by_cases hdir : dir = change.dir
    · rw [if_neg (not_not_intro hdir), nil_append, hdir]
      exact hcons
    · rw [if_pos hdir, singleton_append, Shown.sign]
      cases hsign : change.dir with
      | query => exact absurd hsign hchange.dir
      | add =>
        rw [hsign] at hcons
        rw [readLetters, if_pos rfl]
        exact hcons
      | del =>
        rw [hsign] at hcons
        rw [if_neg (by decide), readLetters, if_neg (by decide), if_pos rfl]
        exact hcons

theorem space_letters (h : ∀ change ∈ changes, change.letter ≠ ' ') (dir : Dir) :
    ' ' ∉ letters dir changes := by
  induction changes generalizing dir with
  | nil => exact not_mem_nil
  | cons change changes ih =>
    obtain ⟨hchange, h⟩ := forall_mem_cons.mp h
    have hsign : change.sign ≠ ' ' := by
      rw [Shown.sign]
      split_ifs <;> decide
    rw [letters, mem_append, mem_cons, not_or, not_or]
    refine ⟨?_, hchange.symm, ih h change.dir⟩
    split_ifs
    · exact fun hmem => hsign (mem_singleton.mp hmem).symm
    · exact not_mem_nil

theorem params_eq (changes : List Shown) :
    params changes = (changes.flatMap fun change => change.arg.toList).flatMap (' ' :: ·) := by
  rw [params, flatMap_assoc]
  congr 1
  funext change
  cases change.arg <;> simp

/-- The letters and the parameters are found between the spaces. -/
theorem splitOn_params {w : Str} (hw : ' ' ∉ w) {args : List Str} (hargs : ∀ a ∈ args, ' ' ∉ a) :
    (w ++ args.flatMap (' ' :: ·)).splitOn ' ' = w :: args := by
  induction args generalizing w with
  | nil => rw [flatMap_nil, append_nil, splitOn_eq_singleton hw]
  | cons a args ih =>
    obtain ⟨ha, hargs⟩ := forall_mem_cons.mp hargs
    rw [flatMap_cons, cons_append, splitOn_append_cons_self_of_not_mem hw, ih ha hargs]

/-- **A line is read as it was told.** -/
theorem readLine_of_shows (hshows : Shows front changes line)
    (h : ∀ change ∈ changes, Legible change) :
    readLine front line = changes := by
  have hletters : ' ' ∉ letters .query changes := space_letters (fun change hchange heq =>
    (h change hchange).letter (by rw [heq]; decide)) .query
  have hargs : ∀ a ∈ changes.flatMap fun change => change.arg.toList, ' ' ∉ a := by
    intro a ha
    obtain ⟨change, hchange, ha⟩ := mem_flatMap.mp ha
    exact (h change hchange).space a (Option.mem_toList.mp ha)
  have hread := readLetters_letters h .query
  obtain rfl | rfl := hshows
  · rw [readLine, text, drop_left, params_eq, splitOn_params hletters hargs]
    have hread := hread []
    rwa [append_nil] at hread
  · -- the space behind the last parameter
    have hargs : ∀ a ∈ (changes.flatMap fun change => change.arg.toList) ++ [[]], ' ' ∉ a :=
      forall_mem_append.mpr ⟨hargs, forall_mem_singleton.mpr not_mem_nil⟩
    have hsplit := splitOn_params hletters hargs
    rw [flatMap_append, flatMap_singleton, ← params_eq, ← append_assoc] at hsplit
    rw [readLine, text, append_assoc, drop_left, hsplit]
    exact hread [[]]

/-- **The lines are read as they were told.** -/
theorem readLines_of_told (htold : Told front changes lines)
    (h : ∀ change ∈ changes, Legible change) :
    lines.flatMap (readLine front) = changes := by
  obtain ⟨chunks, rfl, -, hlines⟩ := htold
  induction hlines with
  | nil => rfl
  | cons hshows _ ih =>
    rw [flatten_cons, forall_mem_append] at h
    rw [flatMap_cons, flatten_cons, readLine_of_shows hshows h.1, ih h.2]

end Reading

/-! ### What a client knows -/

section Knowing

variable {v : View} {change : Shown} {changes changes' more more' : List Shown}

/-- A change can be applied before those for other parts. -/
theorem foldl_apply_comm (h : ∀ change' ∈ changes, part change.letter ≠ part change'.letter)
    (v : View) :
    changes.foldl View.apply (v.apply change) = (changes.foldl View.apply v).apply change := by
  induction changes generalizing v with
  | nil => rfl
  | cons change' changes ih =>
    obtain ⟨hchange', h⟩ := forall_mem_cons.mp h
    rw [foldl_cons, foldl_cons, apply_comm v hchange', ih h]

theorem part_ne_of_forOps {c c' : Char} (h : forOps c = true) (h' : forOps c' = false) :
    part c ≠ part c' := by
  intro heq
  rw [forOps, heq] at h
  cases h.symm.trans h'

/-- **The changes for operators** can be applied behind the others. -/
theorem foldl_apply_partition (changes : List Shown) (v : View) :
    ((changes.filter fun change => !forOps change.letter) ++ changes.filter fun change =>
      forOps change.letter).foldl View.apply v = changes.foldl View.apply v := by
  induction changes generalizing v with
  | nil => rfl
  | cons change changes ih =>
    cases hops : forOps change.letter with
    | false =>
      rw [filter_cons_of_pos (by rw [hops]; rfl), filter_cons_of_neg (by rw [hops]; decide),
        cons_append, foldl_cons, foldl_cons, ih]
    | true =>
      have hparts : ∀ change' ∈ changes.filter fun change => !forOps change.letter,
          part change.letter ≠ part change'.letter := by
        intro change' hchange'
        have hnot := (mem_filter.mp hchange').2
        rw [Bool.not_eq_true'] at hnot
        exact part_ne_of_forOps hops hnot
      rw [filter_cons_of_neg (by rw [hops]; decide), filter_cons_of_pos (by rw [hops]),
        foldl_append, foldl_cons, ← foldl_apply_comm hparts, ← foldl_append, ih, foldl_cons]

/-- The parameter has room on a list, unless a mask is removed. -/
def Shown.Brief (change : Shown) : Prop :=
  ∀ a, change.arg = some a → a.length < banLen ∨ change.dir = .del ∧ ∃ type, part change.letter =
    .list type

/-- The masks of the lists are short. -/
def View.Brief (v : View) : Prop := ∀ type, ∀ mask ∈ v.list type, mask.length < banLen

theorem View.Brief.apply (hv : v.Brief) (h : change.Brief) : (v.apply change).Brief := by
  cases hpart : part change.letter with
  | list type =>
    have hlist : (v.apply change).list = Function.update v.list type
        (listed change (v.list type)) := by
      simp [View.apply, hpart]
    have hlisted : ∀ mask ∈ listed change (v.list type), mask.length < banLen := by
      rw [listed]
      cases harg : change.arg with
      | none => exact hv type
      | some a =>
        dsimp only
        split_ifs with hdir
        · refine forall_mem_cons.mpr ⟨(h a harg).resolve_right fun hdel => ?_, hv type⟩
          rw [hdir] at hdel
          exact Dir.del_ne_add hdel.1.symm
        · exact fun mask hmask => hv type mask (mem_of_mem_eraseP hmask)
    intro type' mask hmask
    rw [hlist, Function.update_apply] at hmask
    split_ifs at hmask
    · exact hlisted mask hmask
    · exact hv type' mask hmask
  | _ =>
    have hlist : (v.apply change).list = v.list := by simp [View.apply, hpart]
    rw [View.Brief, hlist]
    exact hv

/-- **A long mask that is removed** was on no list. -/
theorem apply_of_long (hv : v.Brief) (h : change.Brief) {a : Str} (harg : change.arg = some a)
    (hlong : banLen ≤ a.length) :
    v.apply change = v := by
  obtain ⟨hdir, type, hpart⟩ := (h a harg).resolve_left (Nat.not_lt.mpr hlong)
  have hlisted : listed change (v.list type) = v.list type := by
    rw [listed, harg]
    dsimp only
    rw [hdir, if_neg Dir.del_ne_add, eraseP_of_forall_not]
    intro mask hmask hsame
    have hlength : a.length = mask.length := (Hostmask.sameCase_iff.mpr hsame).length_eq
    have hlt := hv type mask hmask
    omega
  simp [View.apply, hpart, hlisted]

/-- **The changes that are left out** lead nowhere. -/
theorem Thinned.foldl_apply (h : Thinned changes changes') (hv : v.Brief)
    (hbrief : ∀ change ∈ changes, change.Brief) :
    changes'.foldl View.apply v = changes.foldl View.apply v := by
  induction h generalizing v with
  | nil => rfl
  | keep _ ih =>
    obtain ⟨hchange, hbrief⟩ := forall_mem_cons.mp hbrief
    rw [foldl_cons, foldl_cons, ih (hv.apply hchange) hbrief]
  | skip hlong _ ih =>
    obtain ⟨hchange, hbrief⟩ := forall_mem_cons.mp hbrief
    obtain ⟨a, harg, hlong⟩ := hlong
    rw [foldl_cons, apply_of_long hv hchange harg hlong, ih hv hbrief]

theorem Thinned.append (h : Thinned changes changes') (hmore : Thinned more more') :
    Thinned (changes ++ more) (changes' ++ more') := by
  induction h with
  | nil => exact hmore
  | keep _ ih => exact .keep ih
  | skip hlong _ ih => exact .skip hlong ih

theorem Thinned.sublist (h : Thinned changes changes') : changes'.Sublist changes := by
  induction h with
  | nil => exact .slnil
  | keep _ ih => exact ih.cons_cons _
  | skip _ _ ih => exact ih.cons _

end Knowing

/-! ### After a call -/

/-- **The lines for members**, as they are sent. -/
def localLines (env : Env) (source_p : ℕ) (st : Setting) : List Str :=
  if st.changes = [] then []
  else (localPasses env source_p st).flatMap fun pass => (sendLocal pass.1 pass.2).sent.map
    (take lineLen)

section Call

variable {env : Env} {source_p : ℕ} {st : Setting} {call : Call}

/-- What is shown can be read, and has room on a list. -/
theorem Tellable.legible (h : Tellable st) :
    ∀ change ∈ st.shown, Legible change ∧ change.Brief := by
  refine forall_mem_map.mpr fun change hchange => ?_
  have hformed := h.formed change hchange
  have htext : ∀ a, change.arg.map st.text = some a →
      ' ' ∉ a ∧
        (a.length < banLen ∨ change.dir = .del ∧ ∃ type, part change.letter = .list type) := by
    intro a ha
    obtain ⟨arg, harg, rfl⟩ := Option.map_eq_some_iff.mp ha
    cases arg with
    | text s => exact hformed.text s harg
    | limitstr => exact ⟨h.limitstr.1, .inl h.limitstr.2⟩
    | key => exact ⟨h.key change hchange harg, .inl (st.ch.key_lt.trans (by decide))⟩
  have harg : (change.arg.map st.text).isSome = takesArg change.letter change.dir := by
    rw [Option.isSome_map, hformed.arg]
  exact ⟨⟨hformed.letter, hformed.dir, harg, fun a ha => (htext a ha).1⟩,
    fun a ha => (htext a ha).2⟩

/-- The exceptions and the invitations are shown to the operators, and all others to all members. -/
theorem Tellable.shownTo_eq (h : Tellable st) (flags : Mems) :
    st.shownTo flags = st.shown.filter fun change =>
    (if forOps change.letter then Mems.onlyChanops else .allMembers) = flags := by
  rw [Setting.shown, filter_map]
  refine congrArg (map st.announce) (filter_congr fun change hchange => ?_)
  have hformed := h.formed change hchange
  have hletter : change.letter ≠ '\x00' := fun heq => hformed.letter (by simp [heq])
  refine decide_eq_decide.mpr ?_
  rw [hformed.mems, and_iff_right hletter]
  rfl

/-- **What a client knows after a call** that reads the lines for members is the channel as it is
then, when no mask was cut on its way to a list, and no line was too long. -/
theorem Call.view_eq (hkempt : Kempt env call.ch) (hexcept : env.conf.useExcept = true)
    (hinvex : env.useInvex = true) (hrun : call.run env source_p = some st)
    (huncut : Run.StepsMeet (call.step env source_p)
      (Uncut env source_p (getChannelAccess env source_p call.msptr) call.parv)
      (start call.ch) call.ml)
    (hfits : ∀ pass ∈ localPasses env source_p st,
      Run.StepsMeet (fun line change => some (putLocal pass.1 line change)) (FitsLine pass.1)
      (Line.start pass.1) pass.2) :
    ((localLines env source_p st).flatMap (readLine (localFront env source_p st))).foldl View.apply
      (env.view call.ch) = env.view st.ch := by
  obtain ⟨hviewed, htellable⟩ := Call.viewed_run hkempt hexcept hinvex hrun huncut
  have hview := hviewed.view
  rw [localLines]
  split_ifs with hnil
  · rw [Setting.shown, hnil] at hview
    exact hview
  have hlegible : ∀ flags, ∀ change ∈ st.shownTo flags, Legible change ∧
      change.Brief := fun flags change hchange =>
    htellable.legible change (mem_of_mem_filter (htellable.shownTo_eq flags ▸ hchange))
  have hpasses : localPasses env source_p st =
      [(localFront env source_p st, st.shownTo .allMembers), (localFront env source_p st,
        st.shownTo .onlyChanops)] := rfl
  rw [hpasses, forall_mem_cons, forall_mem_singleton] at hfits
  obtain ⟨all, hall, htoldAll⟩ := told_sendLocal length_localFront_le hfits.1
  obtain ⟨ops, hops, htoldOps⟩ := told_sendLocal length_localFront_le hfits.2
  have hread : ((localPasses env source_p st).flatMap fun pass =>
      (sendLocal pass.1 pass.2).sent.map (take lineLen)).flatMap
          (readLine (localFront env source_p st)) = all ++ ops := by
    rw [← readLines_of_told htoldAll fun change hchange => (hlegible .allMembers change
      (hall.sublist.subset hchange)).1,
      ← readLines_of_told htoldOps fun change hchange => (hlegible .onlyChanops change
        (hops.sublist.subset hchange)).1,
      ← flatMap_append]
    rw [hpasses, flatMap_cons, flatMap_singleton]
  have hpartition : st.shownTo .allMembers ++ st.shownTo .onlyChanops =
      (st.shown.filter fun change => !forOps change.letter) ++ st.shown.filter fun change => forOps
          change.letter := by
    rw [htellable.shownTo_eq, htellable.shownTo_eq]
    congr 2 <;> funext change <;> cases forOps change.letter <;> rfl
  have hbrief : ∀ change ∈ st.shownTo .allMembers ++ st.shownTo .onlyChanops, change.Brief :=
    forall_mem_append.mpr
    ⟨fun change hchange => (hlegible _ change hchange).2, fun change hchange =>
      (hlegible _ change hchange).2⟩
  have hv : (env.view call.ch).Brief := hkempt.short
  rw [hread, (hall.append hops).foldl_apply hv hbrief, hpartition, foldl_apply_partition, hview]

end Call

/-- A client of another server. -/
def elsewhere : Env := { somehow with client := fun _ => { someone with kind := .remoteUser } }

/-- A ban and an exception are set, on a channel that is moderated then. -/
def moderated : Call :=
  ⟨somewhere, some ⟨0, ⟨true, false, false⟩, false, 0⟩, "+mbe".toList,
    ["a!b@c".toList, "d!e@f".toList]⟩

theorem kempt_somewhere : Kempt elsewhere somewhere where
  names := by decide
  name := by decide
  short := by intro type; cases type <;> nofun
  space := by intro type; cases type <;> nofun

theorem Call.view_eq_moderated : ∃ st, moderated.run elsewhere 0 = some st ∧
    ((localLines elsewhere 0 st).flatMap (readLine (localFront elsewhere 0 st))).foldl View.apply
      (elsewhere.view moderated.ch) = elsewhere.view st.ch := by
  have hrun : (moderated.run elsewhere 0).map (fun st =>
      decide (∀ pass ∈ localPasses elsewhere 0 st,
      Run.StepsMeet (fun line change => some (putLocal pass.1 line change)) (FitsLine pass.1)
        (Line.start pass.1) pass.2)) = some true := by
    decide +kernel
  obtain ⟨st, hst, hfits⟩ := Option.map_eq_some_iff.mp hrun
  exact ⟨st, hst, view_eq kempt_somewhere rfl rfl hst (by decide +kernel) (of_decide_eq_true hfits)⟩

/-- A client of another server bans a mask of 109 characters. It is told as it was given, and 108
characters of it are put on the list. -/
theorem long_mask_cut : ¬∀ (env : Env) (source_p : ℕ) (call : Call) (st : Setting),
    Kempt env call.ch → env.conf.useExcept = true → env.useInvex = true → call.run env source_p =
      some st →
      ((localLines env source_p st).flatMap (readLine (localFront env source_p st))).foldl
        View.apply (env.view call.ch) = env.view st.ch := by
  intro h
  have hrun : (Call.run elsewhere 0 ⟨somewhere, none, "+b".toList, [replicate 109 'a']⟩).map
      (fun st => decide
      ((((localLines elsewhere 0 st).flatMap (readLine (localFront elsewhere 0 st))).foldl
        View.apply (elsewhere.view somewhere)).list .ban ≠ (elsewhere.view st.ch).list .ban)) = some
            true := by
    decide +kernel
  obtain ⟨st, hst, hne⟩ := Option.map_eq_some_iff.mp hrun
  exact of_decide_eq_true hne (congrArg (fun v => v.list .ban) (h elsewhere 0 _ st kempt_somewhere
    rfl rfl hst))

end Ratbox.SetMode
