import Ratbox.SetMode.Lines
import Ratbox.SetMode.Made

/-!
# What the changes of a MODE line come to

A client that is told of changes applies them to what it knows of the channel. A change is for one
part of that: the flags, the limit, the key, the members or one of the lists. The key and the limit
that an earlier change shows are those of the last one, but then the last one is what counts. So the
changes lead from the channel before a call to the channel after it, unless a mask was cut when it
was put on its list.

Source: `modules/core/m_mode.c`, lines 787–1313 and 1425–1470, and `src/channel.c`, lines 77–305.

## Main definitions

* `SetMode.View`: what a client knows of a channel.
* `SetMode.View.apply`: a change is applied.
* `SetMode.Kempt`: a channel whose members can be told apart, and whose masks fit.
* `SetMode.Uncut`: a mask that is put on a list is not cut.

## Main results

* `SetMode.Call.viewed_run`: the changes lead to the channel after a call.
-/

namespace Ratbox.SetMode

open Text List Function
open Channel (modeBit setFlag MemberFlags keyLen)
open Banlist (ModeType Membership addId delId banLen modebufLen Short)

/-! ### What a client knows -/

/-- A member. -/
structure Member where
  name : Str
  op : Bool
  voice : Bool
  deriving DecidableEq

/-- **What a client knows of a channel.** -/
@[ext]
structure View where
  mode : BitVec 32
  limit : ℤ
  key : Str
  members : List Member
  list : ModeType → List Str

/-- The part that a letter is for. -/
inductive Part
  | flags
  | limit
  | key
  | members
  | list (type : ModeType)
  deriving DecidableEq

/-- The part that a letter is for. -/
def part : Char → Part
  | 'l' => .limit
  | 'k' => .key
  | 'o' | 'v' => .members
  | 'b' => .list .ban
  | 'e' => .list .exception
  | 'I' => .list .invex
  | _ => .flags

/-- A status is given or taken back. -/
def Member.give (change : Shown) (m : Member) : Member :=
  if change.arg = some m.name then
    if change.letter = 'o' then { m with op := change.dir = .add } else { m with
      voice := change.dir = .add }
  else m

/-- A mask is put on a list, or taken off it. -/
def listed (change : Shown) (masks : List Str) : List Str :=
  match change.arg with
  | none => masks
  | some mask => if change.dir = .add then mask :: masks else masks.eraseP (irccmp mask)

/-- **A change is applied** to the part that its letter is for. -/
def View.apply (v : View) (change : Shown) : View :=
  match part change.letter with
  | .flags => { v with mode := setFlag change.dir v.mode ((modeBit true change.letter).getD 0) }
  | .limit => { v with limit := if change.dir = .add then atoi (change.arg.getD []) else 0 }
  | .key => { v with key := if change.dir = .add then change.arg.getD [] else [] }
  | .members => { v with members := v.members.map (Member.give change) }
  | .list type => { v with list := update v.list type (listed change (v.list type)) }

section Apply

variable {v : View} {change change' : Shown}

/-- **Changes for other parts** can be applied in any order. -/
theorem apply_comm (v : View) (h : part change.letter ≠ part change'.letter) :
    (v.apply change).apply change' = (v.apply change').apply change := by
  cases hpart : part change.letter with
  | list type =>
    cases hpart' : part change'.letter with
    | list type' =>
      have htype : type ≠ type' := fun heq => h (by rw [hpart, hpart', heq])
      simp only [View.apply, hpart, hpart', update_of_ne htype, update_of_ne htype.symm]
      rw [update_comm htype]
    | _ => simp [View.apply, hpart, hpart']
  | _ =>
    cases hpart' : part change'.letter
    all_goals first
      | exact absurd (hpart.trans hpart'.symm) h
      | simp only [View.apply, hpart, hpart']

/-- Of two limits or keys the last one counts. -/
theorem apply_last (v : View) (h : part change.letter = part change'.letter)
    (hpart : part change'.letter = .limit ∨ part change'.letter = .key) :
    (v.apply change).apply change' = v.apply change' := by
  rcases hpart with hpart | hpart <;> rw [hpart] at h <;> simp [View.apply, h, hpart]

/-- In front of a limit or a key, those that are applied before do not matter. -/
theorem foldl_apply_filter (change : Shown)
    (hpart : part change.letter = .limit ∨ part change.letter = .key) (changes : List Shown)
      (v : View) : (changes.foldl View.apply v).apply change =
      ((changes.filter fun change' => part change'.letter ≠ part change.letter).foldl View.apply
        v).apply change := by
  induction changes using reverseRecOn with
  | nil => rfl
  | append_singleton changes change' ih =>
    rw [foldl_append, foldl_cons, foldl_nil, filter_append]
    by_cases hsame : part change'.letter = part change.letter
    · rw [apply_last _ hsame hpart, ih, filter_singleton, decide_eq_false (not_not_intro hsame),
        cond_false, append_nil]
    · rw [apply_comm _ hsame, ih, ← apply_comm _ hsame, filter_singleton, decide_eq_true hsame,
        cond_true, foldl_append]
      rfl

end Apply

/-! ### A channel -/

/-- A member, as a client knows it. -/
def Env.member (env : Env) (ms : Membership) : Member :=
  ⟨(env.client ms.client_p).name, ms.flags.chanop, ms.flags.voice⟩

/-- A channel, as a client knows it that knows all. -/
def Env.view (env : Env) (ch : Chan) : View :=
  ⟨ch.mode, ch.limit, ch.key, ch.members.map env.member, ch.toChan.list⟩

/-- **A channel whose members can be told apart**, and whose masks fit. The names and the masks are
words of a line. -/
structure Kempt (env : Env) (ch : Chan) : Prop where
  names : (ch.members.map fun ms => (env.client ms.client_p).name).Nodup
  name : ∀ ms ∈ ch.members, ' ' ∉ (env.client ms.client_p).name
  short : Short ch.toChan
  space : ∀ type, ∀ banstr ∈ ch.toChan.list type, ' ' ∉ banstr

section Channel

variable {env : Env} {ch : Chan} {change : Shown} {type : ModeType} {mask : Str} {ms : Membership}
  {c : Char}

@[simp] theorem view_setMode (env : Env) (ch : Chan) (mode : BitVec 32) :
    env.view (ch.setMode mode) = { env.view ch with mode := mode } := rfl

@[simp] theorem view_setLimit (env : Env) (ch : Chan) (limit : ℤ) :
    env.view (ch.setLimit limit) = { env.view ch with limit := limit } := rfl

@[simp] theorem view_setKey (env : Env) (ch : Chan) (key : Str) :
    env.view (ch.setKey key) = { env.view ch with key := strlcpy key keyLen } := rfl

theorem list_setLists (ch : Chan) (lists : Banlist.Chan) :
    (ch.setLists lists).toChan.list = lists.list := by
  funext type
  cases type <;> rfl

theorem view_setLists (env : Env) (ch : Chan) (lists : Banlist.Chan) :
    env.view (ch.setLists lists) = { env.view ch with list := lists.list } := by
  rw [Env.view, list_setLists]
  rfl

theorem list_addId {conf : Banlist.Conf} {source_p : Banlist.User} {ch : Banlist.Chan}
    (hadd : (addId conf source_p ch mask type).1 = true) :
    (addId conf source_p ch mask type).2.list = update ch.list type
    (strlcpy mask banLen :: ch.list type) := by
  obtain heq | ⟨heq, -⟩ := Banlist.addId_cases conf source_p ch mask type
  · rw [heq] at hadd
    exact absurd hadd Bool.false_ne_true
  · rw [heq]
    funext type'
    rw [Banlist.list_bumpFor, Banlist.list_setList, update_apply]

theorem list_delId {ch : Banlist.Chan} (hne : mask ≠ []) :
    (delId ch mask type).2.list = update ch.list type ((ch.list type).eraseP (irccmp mask)) := by
  funext type'
  rw [delId, if_neg hne, update_apply]
  split_ifs with hany htype htype
  · rw [Banlist.list_bumpFor, Banlist.list_setList, if_pos htype]
  · rw [Banlist.list_bumpFor, Banlist.list_setList, if_neg htype]
  · rw [htype, eraseP_of_forall_not]
    intro banstr hbanstr hsame
    exact hany (any_eq_true.mpr ⟨banstr, hbanstr, hsame⟩)
  · rfl

/-- Two memberships with one name are the same. -/
theorem Kempt.eq_of_name (h : Kempt env ch) {ms' : Membership} (hms : ms ∈ ch.members)
    (hms' : ms' ∈ ch.members)
    (hname : (env.client ms.client_p).name = (env.client ms'.client_p).name) : ms = ms' :=
  inj_on_of_nodup_map h.names hms hms' hname

theorem members_setFlags (ch : Chan) (ms : Membership) (flags : MemberFlags) :
    (ch.setFlags ms flags).members =
    ch.members.map fun ms' => if ms'.client_p = ms.client_p then { ms with flags := flags }
    else ms' := rfl

/-- The names are as they were when the flags of a membership are written. -/
theorem names_setFlags (env : Env) (ch : Chan) (ms : Membership) (flags : MemberFlags) :
    ((ch.setFlags ms flags).members.map fun ms => (env.client ms.client_p).name) =
      ch.members.map fun ms => (env.client ms.client_p).name := by
  rw [members_setFlags, map_map]
  refine map_congr_left fun ms' _ => ?_
  dsimp only [comp_apply]
  split_ifs with hclient
  · rw [hclient]
  · rfl

theorem view_setFlags (h : Kempt env ch) (hms : ms ∈ ch.members) (flags : MemberFlags) :
    env.view (ch.setFlags ms flags) = { env.view ch with
      members := (ch.members.map env.member).map fun m =>
        if (env.client ms.client_p).name = m.name then ⟨m.name, flags.chanop, flags.voice⟩
        else m } := by
  have hmembers : (ch.setFlags ms flags).members.map env.member = (ch.members.map env.member).map
      fun m =>
      if (env.client ms.client_p).name = m.name then ⟨m.name, flags.chanop, flags.voice⟩
          else m := by
    rw [members_setFlags, map_map, map_map]
    refine map_congr_left fun ms' hms' => ?_
    dsimp only [comp_apply]
    by_cases hclient : ms'.client_p = ms.client_p
    · have hname : (env.client ms.client_p).name = (env.member ms').name :=
        congrArg (fun u => (env.client u).name) hclient.symm
      rw [if_pos hclient, if_pos hname, ← hname]
      rfl
    · have hname : (env.client ms.client_p).name ≠ (env.member ms').name := fun hname =>
        hclient (congrArg Membership.client_p (h.eq_of_name hms hms' hname)).symm
      rw [if_neg hclient, if_neg hname]
  rw [Env.view, hmembers]
  rfl

/-- **A status that is told** is what the membership has got. -/
theorem view_member (h : Kempt env ch) (hms : ms ∈ ch.members) {flags : MemberFlags} {dir : Dir}
    (hflags : c = 'o' ∧ flags.chanop = decide (dir = .add) ∧ flags.voice = ms.flags.voice ∨
      c = 'v' ∧ flags.chanop = ms.flags.chanop ∧ flags.voice = decide (dir = .add)) :
    (env.view ch).apply ⟨c, some (env.client ms.client_p).name, dir⟩ = env.view
    (ch.setFlags ms flags) := by
  have hgive : (ch.members.map env.member).map (Member.give ⟨c, some (env.client ms.client_p).name,
      dir⟩) = (ch.members.map env.member).map fun m =>
        if (env.client ms.client_p).name = m.name then ⟨m.name, flags.chanop, flags.voice⟩
            else m := by
    rw [map_map, map_map]
    refine map_congr_left fun ms' hms' => ?_
    dsimp only [comp_apply]
    rw [Member.give]
    by_cases hname : (env.client ms.client_p).name = (env.member ms').name
    · obtain rfl := h.eq_of_name hms hms' hname
      rw [if_pos (congrArg some hname), if_pos hname]
      obtain ⟨rfl, hop, hvoice⟩ | ⟨rfl, hop, hvoice⟩ := hflags
      · rw [if_pos rfl, hop, hvoice]
        rfl
      · have hletter : 'v' ≠ 'o' := by decide
        rw [if_neg hletter, hop, hvoice]
        rfl
    · rw [if_neg fun heq => hname (Option.some.inj heq), if_neg hname]
  have hpart : part c = .members := by
    obtain ⟨rfl, -⟩ | ⟨rfl, -⟩ := hflags <;> rfl
  rw [view_setFlags h hms, ← hgive]
  simp only [View.apply, hpart]
  rfl

theorem part_of_typeOf (h : typeOf c = some type) : part c = .list type := by
  unfold typeOf at h
  split at h
  · cases h
    rfl
  · cases h
    rfl
  · cases h
    rfl
  · cases h

theorem part_of_modeBit {flag : BitVec 32} (h : modeBit true c = some flag) : part c = .flags := by
  unfold modeBit at h
  split at h
  all_goals first
    | rfl
    | cases h

theorem toUpper_eq_space (h : toUpper c = ' ') : c = ' ' := by
  have hnat := Hostmask.toNat_toUpper c
  rw [h] at hnat
  have hspace : (' ').toNat = 32 := rfl
  split_ifs at hnat with hletter
  · omega
  · exact Char.ext (UInt32.toNat_inj.mp hnat.symm)

/-- What is equal to a word up to case has no space. -/
theorem space_of_irccmp {banstr : Str} (h : irccmp mask banstr = true) (hspace : ' ' ∉ banstr) :
    ' ' ∉ mask := by
  intro hmem
  have hupper : ' ' ∈ banstr.map toUpper := by
    rw [← beq_iff_eq.mp h]
    exact mem_map.mpr ⟨' ', hmem, rfl⟩
  obtain ⟨c, hc, hcspace⟩ := mem_map.mp hupper
  exact hspace (toUpper_eq_space hcspace ▸ hc)

/-- The members and the lists are as they were. -/
theorem Kempt.congr (h : Kempt env ch) {ch' : Chan} (hmembers : ch'.members = ch.members)
    (hlist : ch'.toChan.list = ch.toChan.list) : Kempt env ch' where
  names := hmembers ▸ h.names
  name := hmembers ▸ h.name
  short := by rw [Short, hlist]; exact h.short
  space := by rw [hlist]; exact h.space

theorem Kempt.setFlags (h : Kempt env ch) (ms : Membership) (flags : MemberFlags) :
    Kempt env (ch.setFlags ms flags) where
  names := by rw [names_setFlags]; exact h.names
  name := by
    intro ms' hms'
    have hname : (env.client ms'.client_p).name ∈ (ch.setFlags ms flags).members.map fun ms =>
      (env.client ms.client_p).name :=
      mem_map.mpr ⟨ms', hms', rfl⟩
    rw [names_setFlags] at hname
    obtain ⟨ms'', hms'', heq⟩ := mem_map.mp hname
    exact heq ▸ h.name ms'' hms''
  short := h.short
  space := h.space

theorem forall_list_of_update {ch lists : Banlist.Chan} {masks : List Str} {P : Str → Prop}
    (hlist : lists.list = update ch.list type masks)
    (hch : ∀ type, ∀ banstr ∈ ch.list type, P banstr) (hmasks : ∀ banstr ∈ masks, P banstr) :
    ∀ type, ∀ banstr ∈ lists.list type, P banstr := by
  intro type' banstr hbanstr
  rw [hlist, update_apply] at hbanstr
  split_ifs at hbanstr
  · exact hmasks banstr hbanstr
  · exact hch type' banstr hbanstr

/-- The lists of a channel are written. -/
theorem Kempt.setLists (h : Kempt env ch) {lists : Banlist.Chan} (hshort : Short lists)
    (hspace : ∀ type, ∀ banstr ∈ lists.list type, ' ' ∉ banstr) :
    Kempt env (ch.setLists lists) where
  names := h.names
  name := h.name
  short := by intro type; rw [list_setLists]; exact hshort type
  space := by intro type; rw [list_setLists]; exact hspace type

end Channel

/-! ### A call -/

/-- What a change shows in the end. -/
def Setting.announce (st : Setting) (change : ChModeChange) : Shown :=
  ⟨change.letter, change.arg.map st.text, change.dir⟩

/-- What the changes show, in the order in which they were made. -/
def Setting.shown (st : Setting) : List Shown := st.changes.map st.announce

/-- **A mask of another server is not cut** when it is put on its list. -/
def Uncut (env : Env) (source_p : ℕ) (alevel : Bool) (parv : List Str) (st : Setting) (c : Char) :
    Prop :=
  env.my source_p = false → st.dir = .add → ∀ raw ∈ maskGiven env source_p alevel parv st c,
    ∀ type ∈ typeOf c,
    raw.length ≤ modebufLen - 2 → (addId env.conf (env.client source_p).toUser st.ch.toChan raw
      type).1 = true → raw.length < banLen

instance (env : Env) (source_p : ℕ) (alevel : Bool) (parv : List Str) (st : Setting) (c : Char) :
    Decidable (Uncut env source_p alevel parv st c) :=
  inferInstanceAs (Decidable (_ → _ → ∀ raw ∈ maskGiven env source_p alevel parv st c,
    ∀ type ∈ typeOf c,
    raw.length ≤ modebufLen - 2 → (addId env.conf (env.client source_p).toUser st.ch.toChan raw
      type).1 = true → raw.length < banLen))

/-- **The changes lead to the channel.** -/
structure Viewed (env : Env) (v : View) (st : Setting) : Prop where
  kempt : Kempt env st.ch
  view : st.shown.foldl View.apply v = env.view st.ch
  limitstr : ∀ change ∈ st.changes, change.arg = some .limitstr → part change.letter = .limit
  key : ∀ change ∈ st.changes, change.arg = some .key → part change.letter = .key

section Viewed

variable {env : Env} {source_p : ℕ} {alevel : Bool} {parv : List Str} {st st' : Setting} {c : Char}
  {v : View} {change : ChModeChange}

theorem text_congr (hlimitstr : st'.limitstr = st.limitstr) (hkey : st'.ch.key = st.ch.key) :
    st'.text = st.text := by
  funext arg
  cases arg with
  | text s => rfl
  | limitstr => exact hlimitstr
  | key => exact hkey

/-- A change is put down, and those before it show what they did. -/
theorem Viewed.push (h : Viewed env v st) (hkempt : Kempt env st'.ch)
    (hchanges : st'.changes = st.changes ++ [change]) (hlimitstr : st'.limitstr = st.limitstr)
    (hkey : st'.ch.key = st.ch.key) (harg : change.arg ≠ some .limitstr ∧ change.arg ≠ some .key)
    (hview : (env.view st.ch).apply (st.announce change) = env.view st'.ch) : Viewed env v st' where
  kempt := hkempt
  view := by
    have hannounce : st'.announce = st.announce := by
      funext change
      rw [Setting.announce, Setting.announce, text_congr hlimitstr hkey]
    rw [Setting.shown, hchanges, hannounce, map_append, foldl_append, ← hview, ← h.view]
    rfl
  limitstr := by
    rw [hchanges]
    exact forall_mem_append.mpr ⟨h.limitstr, forall_mem_singleton.mpr fun heq => absurd heq harg.1⟩
  key := by
    rw [hchanges]
    exact forall_mem_append.mpr ⟨h.key, forall_mem_singleton.mpr fun heq => absurd heq harg.2⟩

/-- The changes for other parts show what they did. -/
def Agree (st st' : Setting) (changes : List ChModeChange) (p : Part) : Prop :=
  (changes.filter fun change => part change.letter ≠ p).map st'.announce =
    (st.changes.filter fun change => part change.letter ≠ p).map st.announce

theorem filter_map_announce (st : Setting) (changes : List ChModeChange) (p : Part) :
    (changes.map st.announce).filter (fun change => part change.letter ≠ p) =
      (changes.filter fun change => part change.letter ≠ p).map st.announce :=
  filter_map

/-- A limit or a key is put down, and the limits or the keys before it may show something else. -/
theorem Viewed.pushLast (h : Viewed env v st) (hkempt : Kempt env st'.ch)
    {changes : List ChModeChange} (hchanges : st'.changes = changes ++ [change])
    (hpart : part change.letter = .limit ∨ part change.letter = .key)
    (hagree : Agree st st' changes (part change.letter))
    (hlimitstr : ∀ change ∈ st'.changes, change.arg = some .limitstr → part change.letter = .limit)
    (hkey : ∀ change ∈ st'.changes, change.arg = some .key → part change.letter = .key)
    (hview : (env.view st.ch).apply (st'.announce change) = env.view st'.ch) :
    Viewed env v st' where
  kempt := hkempt
  view := by
    have hletter : part (st'.announce change).letter = part change.letter := rfl
    have hbefore := foldl_apply_filter (st'.announce change) hpart st.shown v
    have hafter := foldl_apply_filter (st'.announce change) hpart (changes.map st'.announce) v
    rw [hletter, Setting.shown, filter_map_announce, ← hagree] at hbefore
    rw [hletter, filter_map_announce] at hafter
    rw [Setting.shown, hchanges, map_append, foldl_append, ← hview, ← h.view]
    exact hafter.trans hbefore.symm
  limitstr := hlimitstr
  key := hkey

/-- The text of the limit, or the key, is written. -/
theorem agree_of_text {p : Part} (h : ∀ change ∈ st.changes, part change.letter ≠ p → ∀ arg,
    change.arg = some arg → st'.text arg = st.text arg) : Agree st st' st.changes p := by
  refine map_congr_left fun change hchange => ?_
  obtain ⟨hmem, hpart⟩ := mem_filter.mp hchange
  rw [Setting.announce, Setting.announce]
  cases harg : change.arg with
  | none => rfl
  | some arg => rw [Option.map_some, Option.map_some, h change hmem (of_decide_eq_true hpart) arg
    harg]

theorem filter_splatKeys (changes : List ChModeChange) :
    ((splatKeys changes).filter fun change => part change.letter ≠ .key) =
      changes.filter fun change => part change.letter ≠ .key := by
  induction changes with
  | nil => rfl
  | cons change changes ih =>
    rw [splatKeys] at ih ⊢
    rw [map_cons]
    by_cases hkey : change.letter = 'k' ∧ change.dir = .add
    · have hpart : part change.letter = .key := by
        rw [hkey.1]
        rfl
      rw [if_pos hkey, filter_cons_of_neg, filter_cons_of_neg, ih]
      · exact fun h => of_decide_eq_true h hpart
      · exact fun h => of_decide_eq_true h hpart
    · rw [if_neg hkey, filter_cons, filter_cons, ih]

/-- **A letter** keeps the changes leading to the channel. -/
theorem Viewed.made (h : Viewed env v st) (hmade : Made env source_p alevel parv c st st')
    (huncut : Uncut env source_p alevel parv st c) : Viewed env v st' := by
  have hkempt := h.kempt
  cases hmade with
  | nothing ch changes limitstr =>
    have hkey : st'.ch.key = st.ch.key := congrArg Chan.key ch
    have hshown : st'.shown = st.shown := by
      rw [Setting.shown, Setting.shown, changes]
      refine map_congr_left fun change _ => ?_
      rw [Setting.announce, Setting.announce, text_congr limitstr hkey]
    exact ⟨ch ▸ hkempt, hshown ▸ ch ▸ h.view, changes ▸ h.limitstr, changes ▸ h.key⟩
  | @flag dir flag caps hflag hdir hcaps ch changes limitstr =>
    have hkempt' : Kempt env st'.ch := by
      rw [ch]
      exact hkempt.congr rfl rfl
    refine h.push hkempt' changes limitstr (by rw [ch]; rfl) ⟨nofun, nofun⟩ ?_
    rw [ch, view_setMode]
    simp only [Setting.announce, View.apply, part_of_modeBit hflag, hflag]
    rfl
  | @member dir flags ms id hms hdir hflags ch changes limitstr =>
    refine h.push (by rw [ch]; exact hkempt.setFlags ms flags) changes limitstr (by rw [ch]; rfl)
      ⟨nofun, nofun⟩ ?_
    rw [ch, ← view_member hkempt hms hflags]
    rfl
  | @added type mask htype hdir hword hlen hlocal hremote hadd ch changes limitstr =>
    have hlt : mask.length < banLen := by
      cases hmy : env.my source_p with
      | true => exact hlocal hmy
      | false => exact huncut hmy hdir mask (hremote hmy) type htype hlen hadd
    have hlist := list_addId hadd
    rw [Banlist.strlcpy_of_lt hlt] at hlist
    have hkempt' : Kempt env st'.ch := by
      rw [ch]
      refine hkempt.setLists (forall_list_of_update hlist hkempt.short ?_)
        (forall_list_of_update hlist hkempt.space ?_)
      · exact forall_mem_cons.mpr ⟨hlt, hkempt.short type⟩
      · exact forall_mem_cons.mpr ⟨hword.space, hkempt.space type⟩
    refine h.push hkempt' changes limitstr (by rw [ch]; rfl) ⟨nofun, nofun⟩ ?_
    rw [ch, view_setLists, hlist]
    simp only [Setting.announce, View.apply, part_of_typeOf htype]
    rfl
  | @removed type mask htype hne hspace ch changes limitstr =>
    have hlist : (delId st.ch.toChan mask type).2.list =
        update st.ch.toChan.list type ((st.ch.toChan.list type).eraseP (irccmp mask)) :=
          list_delId hne
    have hkempt' : Kempt env st'.ch := by
      rw [ch]
      refine hkempt.setLists (forall_list_of_update hlist hkempt.short ?_)
        (forall_list_of_update hlist hkempt.space ?_)
      · exact fun banstr hbanstr => hkempt.short type banstr (mem_of_mem_eraseP hbanstr)
      · exact fun banstr hbanstr => hkempt.space type banstr (mem_of_mem_eraseP hbanstr)
    refine h.push hkempt' changes limitstr (by rw [ch]; rfl) ⟨nofun, nofun⟩ ?_
    rw [ch, view_setLists, hlist]
    simp only [Setting.announce, View.apply, part_of_typeOf htype]
    rfl
  | @limit limit hc hlimit ch changes limitstr =>
    obtain ⟨lstr, rfl⟩ := hlimit
    have hkey : st'.ch.key = st.ch.key := by rw [ch]; rfl
    have hkempt' : Kempt env st'.ch := by
      rw [ch]
      exact hkempt.congr rfl rfl
    subst hc
    refine h.pushLast hkempt' changes (.inl rfl) (agree_of_text fun change hchange hpart arg harg =>
      ?_) ?_ ?_ ?_
    · cases arg with
      | text s => rfl
      | limitstr => exact absurd (h.limitstr change hchange harg) hpart
      | key => exact hkey
    · rw [changes]
      exact forall_mem_append.mpr ⟨h.limitstr, forall_mem_singleton.mpr fun _ => rfl⟩
    · rw [changes]
      exact forall_mem_append.mpr ⟨h.key, forall_mem_singleton.mpr nofun⟩
    · have hatoi : atoi st'.limitstr = atoi lstr := by rw [limitstr, atoi_decimal (atoi_int lstr)]
      rw [ch, view_setLimit, ← hatoi]
      rfl
  | noLimit hc ch changes limitstr =>
    have hkempt' : Kempt env st'.ch := by
      rw [ch]
      exact hkempt.congr rfl rfl
    subst hc
    refine h.push hkempt' changes limitstr (by rw [ch]; rfl) ⟨nofun, nofun⟩ ?_
    rw [ch]
    rfl
  | @key key hc hspace ch changes limitstr =>
    have hkempt' : Kempt env st'.ch := by
      rw [ch]
      exact hkempt.congr rfl rfl
    subst hc
    refine h.pushLast hkempt' changes (.inr rfl) (agree_of_text fun change hchange hpart arg harg =>
      ?_) ?_ ?_ ?_
    · cases arg with
      | text s => rfl
      | limitstr => exact limitstr
      | key => exact absurd (h.key change hchange harg) hpart
    · rw [changes]
      exact forall_mem_append.mpr ⟨h.limitstr, forall_mem_singleton.mpr nofun⟩
    · rw [changes]
      exact forall_mem_append.mpr ⟨h.key, forall_mem_singleton.mpr fun _ => rfl⟩
    · have hkey : st'.ch.key = strlcpy key keyLen := by rw [ch]; rfl
      rw [ch, view_setKey, ← hkey]
      rfl
  | noKey hc ch changes limitstr =>
    have hkempt' : Kempt env st'.ch := by
      rw [ch]
      exact hkempt.congr rfl rfl
    subst hc
    have hagree : Agree st st' (splatKeys st.changes) .key := by
      rw [Agree, filter_splatKeys]
      refine agree_of_text fun change hchange hpart arg harg => ?_
      cases arg with
      | text s => rfl
      | limitstr => exact limitstr
      | key => exact absurd (h.key change hchange harg) hpart
    refine h.pushLast hkempt' changes (.inr rfl) hagree ?_ ?_ ?_
    · rw [changes]
      exact forall_mem_append.mpr ⟨forall_splatKeys h.limitstr fun _ _ => nofun,
        forall_mem_singleton.mpr nofun⟩
    · rw [changes]
      exact forall_mem_append.mpr ⟨forall_splatKeys h.key fun _ _ => nofun, forall_mem_singleton.mpr
        nofun⟩
    · rw [ch]
      rfl

end Viewed

/-! ### Letters and their parameters -/

/-- A letter has a parameter. -/
def takesArg (c : Char) (dir : Dir) : Bool :=
  match part c with
  | .flags => false
  | .limit => dir = .add
  | _ => true

/-- Only the operators are told. -/
def forOps (c : Char) : Bool := part c = .list .exception || part c = .list .invex

/-- **A change that can be told**: its letter, with a parameter or without. A parameter may be long
when a mask is removed. -/
structure Formed (change : ChModeChange) : Prop where
  letter : change.letter ∉ ['+', '-', ' ', '\x00']
  dir : change.dir ≠ .query
  arg : change.arg.isSome = takesArg change.letter change.dir
  mems : change.mems = if forOps change.letter then .onlyChanops else .allMembers
  text : ∀ s, change.arg = some (.text s) →
    ' ' ∉ s ∧ (s.length < banLen ∨ change.dir = .del ∧ ∃ type, part change.letter = .list type)

/-- The changes can be told. -/
structure Tellable (st : Setting) : Prop where
  formed : ∀ change ∈ st.changes, Formed change
  limitstr : ' ' ∉ st.limitstr ∧ st.limitstr.length < banLen
  key : ∀ change ∈ st.changes, change.arg = some .key → ' ' ∉ st.ch.key

section Tellable

variable {env : Env} {source_p : ℕ} {alevel : Bool} {parv : List Str} {st st' : Setting} {c : Char}
  {v : View} {change : ChModeChange} {type : ModeType} {dir : Dir}

theorem letter_of_modeBit {flag : BitVec 32} (h : modeBit true c = some flag) :
    c ∉ ['+', '-', ' ', '\x00'] := by
  intro hc
  have hnone : ∀ c ∈ ['+', '-', ' ', '\x00'], modeBit true c = none := by
    simp only [forall_mem_cons]
    exact ⟨rfl, rfl, rfl, rfl, nofun⟩
  cases (hnone c hc).symm.trans h

theorem letter_of_typeOf (h : typeOf c = some type) : c ∉ ['+', '-', ' ', '\x00'] := by
  intro hc
  have hnone : ∀ c ∈ ['+', '-', ' ', '\x00'], typeOf c = none := by
    simp only [forall_mem_cons]
    exact ⟨rfl, rfl, rfl, rfl, nofun⟩
  cases (hnone c hc).symm.trans h

/-- With `use_except` and `use_invex`, the operators are told about exceptions and invitations. -/
theorem memsOf_eq (hexcept : env.conf.useExcept = true) (hinvex : env.useInvex = true)
    (htype : typeOf c = some type) :
    env.memsOf type dir = if forOps c then .onlyChanops else .allMembers := by
  have hpart := part_of_typeOf htype
  cases type <;> simp [Env.memsOf, Env.off, forOps, hpart, hexcept, hinvex]

theorem formed_mask (hexcept : env.conf.useExcept = true) (hinvex : env.useInvex = true)
    (htype : typeOf c = some type) {mask : Str} (hspace : ' ' ∉ mask)
    (hdir : dir = .add ∧ mask.length < banLen ∨ dir = .del) :
    Formed ⟨c, some (.text mask), none, dir, capsOf type, 0, env.memsOf type dir⟩ where
  letter := letter_of_typeOf htype
  dir := by rcases hdir with ⟨rfl, -⟩ | rfl <;> nofun
  arg := by simp [takesArg, part_of_typeOf htype]
  mems := memsOf_eq hexcept hinvex htype
  text := by
    rintro _ ⟨⟩
    exact ⟨hspace, hdir.imp (fun h => h.2) fun h => ⟨h, type, part_of_typeOf htype⟩⟩

theorem Tellable.push (h : Tellable st) (hchanges : st'.changes = st.changes ++ [change])
    (hlimitstr : st'.limitstr = st.limitstr)
    (hkey : st'.ch.key = st.ch.key) (harg : change.arg ≠ some .key) (hchange : Formed change) :
    Tellable st' where
  formed := by
    rw [hchanges]
    exact forall_mem_append.mpr ⟨h.formed, forall_mem_singleton.mpr hchange⟩
  limitstr := hlimitstr ▸ h.limitstr
  key := by
    rw [hchanges, hkey]
    exact forall_mem_append.mpr ⟨h.key, forall_mem_singleton.mpr fun heq => absurd heq harg⟩

theorem formed_splat (hchange : Formed change) (hletter : change.letter = 'k') :
    Formed { change with arg := some (.text ['*']) } where
  letter := hchange.letter
  dir := hchange.dir
  arg := by
    rw [hletter]
    rfl
  mems := hchange.mems
  text := by
    rintro _ ⟨⟩
    exact ⟨by decide, .inl (by decide)⟩

/-- **A letter** puts down a change that can be told. -/
theorem Tellable.made (h : Tellable st) (hkempt : Kempt env st.ch)
    (hexcept : env.conf.useExcept = true) (hinvex : env.useInvex = true)
    (hmade : Made env source_p alevel parv c st st')
    (huncut : Uncut env source_p alevel parv st c) : Tellable st' := by
  cases hmade with
  | nothing ch changes limitstr =>
    have hkey : st'.ch.key = st.ch.key := congrArg Chan.key ch
    exact ⟨changes ▸ h.formed, limitstr ▸ h.limitstr, by rw [changes, hkey]; exact h.key⟩
  | @flag dir flag caps hflag hdir hcaps ch changes limitstr =>
    have hpart := part_of_modeBit hflag
    refine h.push changes limitstr (by rw [ch]; rfl) nofun ⟨letter_of_modeBit hflag, hdir, ?_, ?_,
      nofun⟩
    · simp [takesArg, hpart]
    · simp [forOps, hpart]
  | @member dir flags ms id hms hdir hflags ch changes limitstr =>
    have hlen := (env.client ms.client_p).name_le
    have hname : ∀ s, some (Arg.text (env.client ms.client_p).name) = some (.text s) →
        ' ' ∉ s ∧ (s.length < banLen ∨ dir = .del ∧ ∃ type, part c = .list type) := by
      rintro _ ⟨⟩
      exact ⟨hkempt.name ms hms, .inl (hlen.trans_lt (by decide))⟩
    refine h.push changes limitstr (by rw [ch]; rfl) nofun ?_
    have hletter : c ∉ ['+', '-', ' ', '\x00'] := by
      obtain ⟨rfl, -⟩ | ⟨rfl, -⟩ := hflags <;> decide
    obtain ⟨rfl, -⟩ | ⟨rfl, -⟩ := hflags
    · exact ⟨hletter, hdir, rfl, rfl, hname⟩
    · exact ⟨hletter, hdir, rfl, rfl, hname⟩
  | @added type mask htype hdir hword hlen hlocal hremote hadd ch changes limitstr =>
    have hlt : mask.length < banLen := by
      cases hmy : env.my source_p with
      | true => exact hlocal hmy
      | false => exact huncut hmy hdir mask (hremote hmy) type htype hlen hadd
    exact h.push changes limitstr (by rw [ch]; rfl) nofun (formed_mask hexcept hinvex htype
      hword.space (.inl ⟨rfl, hlt⟩))
  | @removed type mask htype hne hspace ch changes limitstr =>
    have hspace : ' ' ∉ mask := hspace.elim id fun ⟨banstr, hbanstr, hsame⟩ =>
      space_of_irccmp hsame (hkempt.space type banstr hbanstr)
    exact h.push changes limitstr (by rw [ch]; rfl) nofun (formed_mask hexcept hinvex htype hspace
      (.inr rfl))
  | @limit limit hc hlimit ch changes limitstr =>
    obtain ⟨lstr, rfl⟩ := hlimit
    have hint := atoi_int lstr
    have hlen : (decimal (atoi lstr)).length ≤ 20 := length_decimal_le (by omega)
    have hkey : st'.ch.key = st.ch.key := by rw [ch]; rfl
    subst hc
    refine ⟨?_, ?_, ?_⟩
    · rw [changes]
      exact forall_mem_append.mpr ⟨h.formed, forall_mem_singleton.mpr ⟨by decide, nofun, rfl, rfl,
        nofun⟩⟩
    · rw [limitstr]
      exact ⟨(word_decimal _).space, hlen.trans_lt (by decide)⟩
    · rw [changes, hkey]
      exact forall_mem_append.mpr ⟨h.key, forall_mem_singleton.mpr nofun⟩
  | noLimit hc ch changes limitstr =>
    subst hc
    exact h.push changes limitstr (by rw [ch]; rfl) nofun ⟨by decide, nofun, rfl, rfl, nofun⟩
  | @key key hc hspace ch changes limitstr =>
    have hkey : ' ' ∉ st'.ch.key := by
      rw [ch]
      exact fun hmem => hspace ((take_subset _ _) hmem)
    subst hc
    refine ⟨?_, limitstr ▸ h.limitstr, fun _ _ _ => hkey⟩
    rw [changes]
    exact forall_mem_append.mpr ⟨h.formed, forall_mem_singleton.mpr ⟨by decide, nofun, rfl, rfl,
      nofun⟩⟩
  | noKey hc ch changes limitstr =>
    have hkey : st'.ch.key = [] := by rw [ch]; rfl
    subst hc
    refine ⟨?_, limitstr ▸ h.limitstr, fun _ _ _ => hkey ▸ not_mem_nil⟩
    have hsplat : ∀ change ∈ splatKeys st.changes, Formed change := by
      refine forall_mem_map.mpr fun change hchange => ?_
      split_ifs with hsplat
      · exact formed_splat (h.formed change hchange) hsplat.1
      · exact h.formed change hchange
    rw [changes]
    refine forall_mem_append.mpr ⟨hsplat, forall_mem_singleton.mpr ⟨by decide, nofun, rfl, rfl, ?_⟩⟩
    rintro _ ⟨⟩
    exact ⟨by decide, .inl (by decide)⟩

theorem viewed_start {ch : Chan} (hkempt : Kempt env ch) : Viewed env (env.view ch) (start ch) where
  kempt := hkempt
  view := rfl
  limitstr _ hchange := absurd hchange not_mem_nil
  key _ hchange := absurd hchange not_mem_nil

theorem tellable_start (ch : Chan) : Tellable (start ch) where
  formed _ hchange := absurd hchange not_mem_nil
  limitstr := ⟨not_mem_nil, (by decide : 0 < banLen)⟩
  key _ hchange := absurd hchange not_mem_nil

/-- **The changes of a call** lead to the channel after it, and can be told. -/
theorem Call.viewed_run {call : Call} (hkempt : Kempt env call.ch)
    (hexcept : env.conf.useExcept = true) (hinvex : env.useInvex = true)
    (hrun : call.run env source_p = some st) (huncut : Run.StepsMeet (call.step env source_p)
      (Uncut env source_p (getChannelAccess env source_p call.msptr) call.parv)
      (start call.ch) call.ml) :
    Viewed env (env.view call.ch) st ∧ Tellable st := by
  refine Run.invariant (fun st => Viewed env (env.view call.ch) st ∧ Tellable st) ?_ ?_ huncut hrun
  · rintro st c st' ⟨hviewed, htellable⟩ hok hst
    have hmade := made_of_step hst
    exact ⟨hviewed.made hmade hok, htellable.made hviewed.kempt hexcept hinvex hmade hok⟩
  · exact ⟨viewed_start hkempt, tellable_start call.ch⟩

end Tellable

end Ratbox.SetMode
