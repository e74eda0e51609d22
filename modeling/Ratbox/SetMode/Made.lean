import Ratbox.Channel.BurstMasks
import Ratbox.Channel.FinalMode

/-!
# What a letter of a MODE line does

A letter leaves the channel and the changes as they are, or it does one thing to the channel and
puts down one change. What else it does, to the parameters, the counters and the replies, is left
out here.

Source: `modules/core/m_mode.c`, lines 633–1423.

## Main definitions

* `SetMode.Made`: what a letter has made of a channel and of the changes.

## Main results

* `SetMode.made_of_step`: there is nothing else that a letter does.
-/

namespace Ratbox.SetMode

open Text List Option
open Channel (MemberFlags modeBit setFlag modeRegOnly modeSslOnly)
open Banlist (ModeType Membership addId delId banLen modebufLen prettyMask)

/-- The channel, the changes and the text of the limit are as they were, and so is the sign. -/
structure Same (st st' : Setting) : Prop where
  ch : st'.ch = st.ch
  changes : st'.changes = st.changes
  limitstr : st'.limitstr = st.limitstr
  dir : st'.dir = st.dir

/-- **What a letter has made** of a channel and of the changes. -/
inductive Made (env : Env) (source_p : ℕ) (alevel : Bool) (parv : List Str) (c : Char)
    (st st' : Setting) : Prop
  | nothing (ch : st'.ch = st.ch) (changes : st'.changes = st.changes) (limitstr :
    st'.limitstr = st.limitstr)
  | flag (dir : Dir) {flag caps} (hflag : modeBit true c = some flag) (hdir : dir ≠ .query)
      (hcaps : caps = 0 ∨ env.services = true ∧ caps = capService)
      (ch : st'.ch = st.ch.setMode (setFlag dir st.ch.mode flag))
      (changes : st'.changes = st.changes ++ [⟨c, none, none, dir, caps, 0, .allMembers⟩])
      (limitstr : st'.limitstr = st.limitstr)
  | member (dir : Dir) (flags : MemberFlags) {ms id} (hms : ms ∈ st.ch.members)
      (hdir : dir ≠ .query)
      (hflags : c = 'o' ∧ flags.chanop = decide (dir = .add) ∧ flags.voice = ms.flags.voice ∨
        c = 'v' ∧ flags.chanop = ms.flags.chanop ∧ flags.voice = decide (dir = .add))
      (ch : st'.ch = st.ch.setFlags ms flags)
      (changes : st'.changes =
        st.changes ++ [⟨c, some (.text (env.client ms.client_p).name), id, dir, 0, 0, .allMembers⟩])
      (limitstr : st'.limitstr = st.limitstr)
  | added {type mask} (htype : typeOf c = some type) (hdir : st.dir = .add) (hword : Word mask)
      (hlen : mask.length ≤ modebufLen - 2) (hlocal : env.my source_p = true → mask.length < banLen)
      (hremote : env.my source_p = false → maskGiven env source_p alevel parv st c = some mask)
      (hadd : (addId env.conf (env.client source_p).toUser st.ch.toChan mask type).1 = true)
      (ch : st'.ch = st.ch.setLists (addId env.conf (env.client source_p).toUser st.ch.toChan mask
        type).2)
      (changes : st'.changes =
        st.changes ++ [⟨c, some (.text mask), none, .add, capsOf type, 0, env.memsOf type .add⟩])
      (limitstr : st'.limitstr = st.limitstr)
  | removed {type mask} (htype : typeOf c = some type) (hne : mask ≠ [])
      (hspace : ' ' ∉ mask ∨ ∃ banstr ∈ st.ch.list type, irccmp mask banstr = true)
      (ch : st'.ch = st.ch.setLists (delId st.ch.toChan mask type).2)
      (changes : st'.changes =
        st.changes ++ [⟨c, some (.text mask), none, .del, capsOf type, 0, env.memsOf type .del⟩])
      (limitstr : st'.limitstr = st.limitstr)
  | limit {limit : ℤ} (hc : c = 'l') (hlimit : ∃ lstr, limit = atoi lstr)
      (ch : st'.ch = st.ch.setLimit limit) (changes : st'.changes = st.changes ++
        [⟨c, some .limitstr, none, .add, 0, 0, .allMembers⟩])
      (limitstr : st'.limitstr = decimal limit)
  | noLimit (hc : c = 'l') (ch : st'.ch = st.ch.setLimit 0)
      (changes : st'.changes = st.changes ++ [⟨c, none, none, .del, 0, 0, .allMembers⟩])
      (limitstr : st'.limitstr = st.limitstr)
  | key {key} (hc : c = 'k') (hspace : ' ' ∉ key) (ch : st'.ch = st.ch.setKey key)
      (changes : st'.changes = st.changes ++ [⟨c, some .key, none, .add, 0, 0, .allMembers⟩])
      (limitstr : st'.limitstr = st.limitstr)
  | noKey (hc : c = 'k') (ch : st'.ch = st.ch.setKey [])
      (changes : st'.changes = splatKeys st.changes ++ [⟨c, some (.text ['*']), none, .del, 0, 0,
        .allMembers⟩])
      (limitstr : st'.limitstr = st.limitstr)

section Made

variable {env : Env} {source_p : ℕ} {alevel : Bool} {parv : List Str} {st st' : Setting} {c : Char}
  {type : ModeType} {raw mask : Str}

theorem forall_splatKeys {P : ChModeChange → Prop} (h : ∀ change ∈ st.changes, P change)
    (hsplat : ∀ change, P change → P { change with arg := some (.text ['*']) }) :
    ∀ change ∈ splatKeys st.changes, P change := by
  refine forall_mem_map.mpr fun change hchange => ?_
  split_ifs
  · exact hsplat change (h change hchange)
  · exact h change hchange

theorem Same.refl (st : Setting) : Same st st := ⟨rfl, rfl, rfl, rfl⟩

theorem Same.noOps (h : Same st st') : Same st st'.noOps := by
  rw [Setting.noOps]
  split_ifs <;> exact ⟨h.ch, h.changes, h.limitstr, h.dir⟩

theorem Same.counted (h : Same st st') (my : Bool) : Same st (st'.counted my) := by
  rw [Setting.counted]
  split_ifs <;> exact ⟨h.ch, h.changes, h.limitstr, h.dir⟩

theorem Same.next (h : Same st st') : Same st { st' with parn := st'.parn + 1 } :=
  ⟨h.ch, h.changes, h.limitstr, h.dir⟩

theorem Same.made (h : Same st st') : Made env source_p alevel parv c st st' :=
  .nothing h.ch h.changes h.limitstr

theorem same_chmNosuch (c : Char) (st : Setting) : Same st (chmNosuch c st) := by
  rw [chmNosuch]
  split_ifs <;> exact ⟨rfl, rfl, rfl, rfl⟩

theorem made_chmSimple {flag : BitVec 32} (hflag : modeBit true c = some flag) :
    Made env source_p alevel parv c st (chmSimple env source_p alevel c flag st) := by
  have h := (Same.refl st).counted (env.my source_p)
  rw [chmSimple]
  split_ifs
  · exact (Same.refl st).noOps.made
  dsimp only
  split_ifs with hlimit hadd hdel
  · exact h.made
  · exact .flag .add hflag Dir.add_ne_query (.inl rfl) (by rw [← h.ch]; rfl)
      (by rw [← h.changes]; rfl) h.limitstr
  · exact .flag .del hflag Dir.del_ne_query (.inl rfl) (by rw [← h.ch]; rfl)
      (by rw [← h.changes]; rfl) h.limitstr
  · exact h.made

theorem made_chmFlag {flag caps : BitVec 32} (hflag : modeBit true c = some flag)
    (hcaps : caps = 0 ∨ env.services = true ∧ caps = capService) (refused : Bool) :
    Made env source_p alevel parv c st (chmFlag alevel flag caps refused c st) := by
  rw [chmFlag]
  cases alevel with
  | false => exact (Same.refl st).noOps.made
  | true =>
    rw [if_neg (by decide)]
    cases st.dir with
    | query => exact (Same.refl st).made
    | add =>
      dsimp only
      split_ifs
      · exact (Same.refl st).made
      · exact .flag .add hflag Dir.add_ne_query hcaps rfl rfl rfl
    | del =>
      dsimp only
      split_ifs
      · exact (Same.refl st).made
      · exact .flag .del hflag Dir.del_ne_query hcaps rfl rfl rfl

theorem made_chmLimit : Made env source_p alevel parv 'l' st (chmLimit alevel parv 'l' st) := by
  rw [chmLimit]
  cases alevel with
  | false => exact (Same.refl st).noOps.made
  | true =>
    rw [if_neg (by decide)]
    split
    · rename_i lstr _ _
      dsimp only
      split_ifs
      · exact (Same.refl st).next.made
      · exact .limit rfl ⟨lstr, rfl⟩ rfl rfl rfl
    · split_ifs
      · exact (Same.refl st).made
      · exact .noLimit rfl rfl rfl rfl
    · exact (Same.refl st).made

theorem space_fixKey (arg : Str) : ' ' ∉ fixKey arg := by
  intro h
  exact absurd (of_decide_eq_true (mem_filter.mp h).2).2.2 (by decide)

theorem space_fixKeyRemote (arg : Str) : ' ' ∉ fixKeyRemote arg := by
  intro h
  have hmem := (takeWhile_sublist _).subset h
  exact absurd rfl (of_decide_eq_true (mem_filter.mp hmem).2).2.2.2.2

theorem made_chmKey :
    Made env source_p alevel parv 'k' st (chmKey env source_p alevel parv 'k' st) := by
  rw [chmKey]
  cases alevel with
  | false => exact (Same.refl st).noOps.made
  | true =>
    rw [if_neg (by decide)]
    split
    · rename_i arg _ _
      have hspace : ' ' ∉ if env.my source_p then fixKey arg else fixKeyRemote arg := by
        split_ifs
        · exact space_fixKey arg
        · exact space_fixKeyRemote arg
      dsimp only
      generalize (if env.my source_p then fixKey arg else fixKeyRemote arg) = key at hspace
      split_ifs
      · exact (Same.refl st).next.made
      · exact .key rfl hspace rfl rfl rfl
    · dsimp only
      split_ifs
      · exact (Same.refl st).next.made
      · exact .noKey rfl rfl rfl rfl
      · exact (Same.refl st).made
      · exact .noKey rfl rfl rfl rfl
    · exact (Same.refl st).made

/-! ### Members -/

/-- **The front of `chm_op` and `chm_voice`** goes on with a member. -/
theorem memberFront_cases (env : Env) (source_p : ℕ) (alevel : Bool) (parv : List Str)
    (st : Setting) :
    (∃ st₁, memberFront env source_p alevel parv st = (st₁, none) ∧ Same st st₁) ∨
      ∃ st₁ ms, memberFront env source_p alevel parv st = (st₁, some (ms.client_p, ms)) ∧
        Same st st₁ ∧ ms ∈ st.ch.members := by
  have hnext := (Same.refl st).next
  rw [memberFront]
  cases alevel with
  | false => exact .inl ⟨_, rfl, (Same.refl st).noOps⟩
  | true =>
    rw [if_neg (by decide)]
    cases st.param parv with
    | none => exact .inl ⟨_, rfl, Same.refl st⟩
    | some opnick =>
      dsimp only
      by_cases hnick : opnick = []
      · rw [if_pos hnick]
        exact .inl ⟨_, rfl, hnext.ch, hnext.changes, hnext.limitstr, hnext.dir⟩
      rw [if_neg hnick]
      cases env.findChasing opnick with
      | none => exact .inl ⟨_, rfl, hnext⟩
      | some targ_p =>
        dsimp only
        cases hfind : st.ch.findMembership targ_p with
        | none =>
          refine .inl ⟨_, rfl, ?_⟩
          split_ifs <;> exact ⟨rfl, rfl, rfl, rfl⟩
        | some ms =>
          obtain rfl : ms.client_p = targ_p := by simpa using find?_some hfind
          dsimp only
          split_ifs
          · exact .inl ⟨_, rfl, hnext.counted _⟩
          · exact .inr ⟨_, ms, rfl, hnext.counted _, mem_of_find?_eq_some hfind⟩

theorem made_chmOp :
    Made env source_p alevel parv 'o' st (chmOp env source_p alevel parv 'o' st) := by
  rw [chmOp]
  obtain ⟨st₁, heq, h⟩ | ⟨st₁, ms, heq, h, hms⟩ := memberFront_cases env source_p alevel parv st
  · rw [heq]
    exact h.made
  · rw [heq]
    dsimp only
    split_ifs
    · exact h.made
    · exact .member .add { ms.flags with chanop := true, deopped := false } hms Dir.add_ne_query
        (.inl ⟨rfl, rfl, rfl⟩) (by rw [← h.ch]; rfl) (by rw [← h.changes]; rfl) h.limitstr
    · exact .nothing h.ch h.changes h.limitstr
    · exact .member .del { ms.flags with chanop := false } hms Dir.del_ne_query
        (.inl ⟨rfl, rfl, rfl⟩) (by rw [← h.ch]; rfl) (by rw [← h.changes]; rfl) h.limitstr

theorem made_chmVoice :
    Made env source_p alevel parv 'v' st (chmVoice env source_p alevel parv 'v' st) := by
  rw [chmVoice]
  obtain ⟨st₁, heq, h⟩ | ⟨st₁, ms, heq, h, hms⟩ := memberFront_cases env source_p alevel parv st
  · rw [heq]
    exact h.made
  · rw [heq]
    dsimp only
    split_ifs
    · exact .member .add { ms.flags with voice := true } hms Dir.add_ne_query (.inr ⟨rfl, rfl, rfl⟩)
        (by rw [← h.ch]; rfl) (by rw [← h.changes]; rfl) h.limitstr
    · exact .member .del { ms.flags with voice := false } hms Dir.del_ne_query
        (.inr ⟨rfl, rfl, rfl⟩) (by rw [← h.ch]; rfl) (by rw [← h.changes]; rfl) h.limitstr

/-! ### Masks -/

/-- **The front of `chm_ban`** goes on with a mask as it was given. -/
theorem banFront_cases (env : Env) (source_p : ℕ) (alevel : Bool) (parv : List Str)
    (type : ModeType) (st : Setting) :
    ∃ st₁ given, banFront env source_p alevel parv type st = (st₁, given) ∧ Same st st₁ ∧
      ∀ raw ∈ given, raw ≠ [] ∧ raw.head? ≠ some ':' ∧ (env.my source_p = false → ' ' ∉ raw) := by
  have hcounted := (Same.refl st).counted (env.my source_p)
  have hnoted : Same st (st.note (smErrRpl type)) := ⟨rfl, rfl, rfl, rfl⟩
  have hnone : ∀ {P : Str → Prop}, ∀ raw ∈ (none : Option Str), P raw :=
    fun _ hraw => absurd hraw (not_mem_none _)
  rw [banFront]
  by_cases hoff : (env.off type && env.my source_p && st.dir = .add &&
    decide (st.parn < parv.length)) = true
  · rw [if_pos hoff]
    exact ⟨st, none, rfl, Same.refl st, hnone⟩
  rw [if_neg hoff]
  cases st.param parv with
  | none =>
    dsimp only
    split_ifs
    · exact ⟨_, none, rfl, Same.refl st, hnone⟩
    · exact ⟨_, none, rfl, hnoted.noOps, hnone⟩
    · exact ⟨_, none, rfl, ⟨rfl, rfl, rfl, rfl⟩, hnone⟩
  | some raw =>
    dsimp only
    split_ifs with hop hlimit hraw hspace
    · exact ⟨_, none, rfl, (Same.refl st).noOps, hnone⟩
    · exact ⟨_, none, rfl, hcounted, hnone⟩
    · exact ⟨_, none, rfl, hcounted.next, hnone⟩
    · exact ⟨_, none, rfl, hcounted.next, hnone⟩
    · refine ⟨_, some raw, rfl, hcounted.next, ?_⟩
      rintro _ ⟨⟩
      refine ⟨(not_or.mp hraw).1, (not_or.mp hraw).2, fun hremote hmem => hspace ?_⟩
      rw [hremote, Bool.not_false, Bool.true_and, contains_iff_mem]
      exact hmem

variable {ch : Banlist.Chan}

theorem delId_of_false {banid : Str} (h : (delId ch banid type).1 = false) :
    (delId ch banid type).2 = ch := by
  rw [delId] at h ⊢
  split_ifs at h ⊢ <;> rfl

theorem any_of_delId {banid : Str} (h : (delId ch banid type).1 = true) :
    ∃ banstr ∈ ch.list type, irccmp banid banstr = true := by
  rw [delId] at h
  split_ifs at h with hnil hany
  exact any_eq_true.mp hany

/-- **The rest of `chm_ban`**, with a mask that is a word. -/
theorem made_banRest {st₁ : Setting} (h : Same st st₁) (htype : typeOf c = some type)
    (hword : Word mask) (hraw : raw ≠ []) (hlocal : env.my source_p = true → mask.length < banLen)
    (hremote : env.my source_p = false → maskGiven env source_p alevel parv st c = some mask) :
    Made env source_p alevel parv c st (banRest env source_p c type raw mask st₁) := by
  have hch := h.ch
  have hchanges := h.changes
  have hdir := h.dir
  rw [banRest]
  dsimp only
  by_cases hlong : mask.length > modebufLen - 2
  · rw [if_pos hlong]
    exact h.made
  rw [if_neg hlong, hdir, hch]
  cases hst : st.dir with
  | query => exact h.made
  | add =>
    dsimp only
    split_ifs with hadd
    · exact .added htype hst hword (Nat.le_of_not_lt hlong) hlocal hremote hadd (by rw [← hch]; rfl)
        (by rw [← hchanges]; rfl) h.limitstr
    · exact .nothing h.ch h.changes h.limitstr
    · exact .nothing h.ch h.changes h.limitstr
  | del =>
    dsimp only
    split_ifs with hdel hdelraw
    · exact .removed htype hword.ne_nil (.inl hword.space) (by rw [← hch]; rfl)
        (by rw [← hchanges]; rfl) h.limitstr
    · exact .removed htype hraw (.inr (any_of_delId hdelraw)) (by rw [← hch]; rfl)
        (by rw [← hchanges]; rfl) h.limitstr
    · have hsame : (delId st.ch.toChan raw type).2 = (delId st.ch.toChan mask type).2 :=
        (delId_of_false (Bool.eq_false_of_not_eq_true hdelraw)).trans
          (delId_of_false (Bool.eq_false_of_not_eq_true hdel)).symm
      exact .removed htype hword.ne_nil (.inl hword.space) (by rw [← hsame, ← hch]; rfl)
        (by rw [← hchanges]; rfl) h.limitstr

/-- **`chm_ban`**, when it returns. -/
theorem made_chmBan (htype : typeOf c = some type)
    (hst : chmBan env source_p alevel parv c type st = some st') :
    Made env source_p alevel parv c st st' := by
  obtain ⟨st₁, given, heq, h, hgiven⟩ := banFront_cases env source_p alevel parv type st
  have hmask : maskGiven env source_p alevel parv st c = given := by
    rw [maskGiven, htype, bind_some, heq]
  rw [chmBan, heq] at hst
  cases given with
  | none => exact some.inj hst ▸ h.made
  | some raw =>
    obtain ⟨hraw, hcolon, hspace⟩ := hgiven raw rfl
    dsimp only at hst
    split_ifs at hst with hmy
    · obtain ⟨mask, hpretty, rfl⟩ := map_eq_some_iff.mp hst
      have hlen := (Banlist.length_prettyMask hpretty).2
      refine made_banRest (by exact ⟨h.ch, h.changes, h.limitstr, h.dir⟩) htype
        (Burst.word_prettyMask hcolon hpretty) hraw (fun _ => ?_) fun hremote => absurd
          (hmy.symm.trans hremote) (by decide)
      exact hlen
    · have hremote := Bool.eq_false_of_not_eq_true hmy
      exact some.inj hst ▸ made_banRest h htype ⟨hraw, hspace hremote, hcolon⟩ hraw
        (fun hyes => absurd hyes hmy) fun _ => hmask

/-! ### Letters -/

/-- **There is nothing else that a letter does.** -/
theorem made_of_step (hst : step env source_p alevel parv st c = some st') :
    Made env source_p alevel parv c st st' := by
  unfold step at hst
  split at hst
  · exact some.inj hst ▸ .nothing rfl rfl rfl
  · exact some.inj hst ▸ .nothing rfl rfl rfl
  · exact some.inj hst ▸ .nothing rfl rfl rfl
  unfold chm at hst
  split at hst
  case h_1 => exact made_chmBan rfl hst
  case h_3 => exact made_chmBan rfl hst
  case h_4 => exact made_chmBan rfl hst
  all_goals cases hst
  case h_2 => exact made_chmFlag rfl (.inl rfl) _
  case h_6 => exact made_chmKey
  case h_7 => exact made_chmLimit
  case h_10 => exact made_chmOp
  case h_12 =>
    split_ifs with hservices
    · exact made_chmFlag rfl (.inr ⟨hservices, rfl⟩) _
    · exact (same_chmNosuch _ st).made
  case h_15 => exact made_chmVoice
  case h_16 => exact (same_chmNosuch _ st).made
  all_goals exact made_chmSimple rfl

end Made

end Ratbox.SetMode
