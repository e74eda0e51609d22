import Ratbox.Banlist.Cache

/-!
# The lists as sets

No list of a channel has two masks that are equal up to case, as long as no mask is longer than what
a ban has room for: a longer one is cut when it is put on the list, and is compared uncut. The masks
of local clients are made to fit, those of other servers are not.

Source: `modules/core/m_mode.c`, lines 319–345, 394–631 and 872–930, `src/channel.c`, lines 76–85,
and `src/match.c`, lines 120–195 and 497–527.

## Main definitions

* `Banlist.prettyMask`, `Banlist.chmBanMask`: the mask that a MODE command gives to `add_id` and
  `del_id`.
* `Banlist.Distinct`: the masks of each list are different up to case.

## Main results

* `Banlist.maskMatch_of_irccmp`: a mask matches itself.
* `Banlist.lists_iff`: when the lists are sets, and what was added can be removed.
-/

namespace Ratbox.Banlist

open Text Match Channel Hostmask List Option

/-! ### Masks of commands -/

/-- `MODEBUFLEN`. -/
def modebufLen : ℕ := 200

/-- `check_string`. -/
def checkString (s : Str) : Str := if s = [] then ['*'] else s.takeWhile fun c => !isSpace c

/-- `collapse`, where `star` tells whether the last character was a `*`. -/
def collapse : Str → Bool → Str
  | [], _ => []
  | c :: s, star =>
    if c = '*' then if star then collapse s true else '*' :: collapse s true else c :: collapse s
      false

/-- A part of a mask, or `*` for an empty one. -/
def orSplat (s : Str) : Str := if s = [] then ['*'] else s

/-- The text in front of the first character of a kind, which `strchr` finds, and the text behind
it. -/
def splitFirst (c : Char) (s : Str) : Option (Str × Str) :=
  if c ∈ s then some (s.takeWhile (· != c), (s.dropWhile (· != c)).drop 1) else none

/-- The nick, the user name and the host that `pretty_mask` takes from a mask. -/
def maskParts (mask : Str) : Str × Str × Str :=
  match splitFirst '@' mask with
  | some (mask, host) =>
    match splitFirst '!' mask with
    | some (nick, user) => (orSplat nick, orSplat user, orSplat host)
    | none => (['*'], orSplat mask, orSplat host)
  | none =>
    match splitFirst '!' mask with
    | some (nick, user) => (orSplat nick, orSplat user, ['*'])
    | none =>
      if '.' ∈ mask ∨ ':' ∈ mask then (['*'], ['*'], orSplat mask) else (orSplat mask, ['*'], ['*'])

/-- `pretty_mask`, with the bytes of its buffer that are used. -/
def prettyMask (maskPos : ℕ) (idmask : Str) : Option Str :=
  let mask := collapse (checkString idmask) false
  if ircdBufsize - maskPos < mask.length + 5 then none
  else
    let (nick, user, host) := maskParts mask
    some (nick.take (nickLen - 1) ++ '!' :: user.take userLen ++ '@' :: host.take hostLen)

/-- The mask that `chm_ban` gives to `add_id` and `del_id`, if it goes on. -/
def chmBanMask (myClient : Bool) (maskPos : ℕ) (raw : Str) : Option Str :=
  if raw = [] ∨ raw.head? = some ':' then none
  else if !myClient && raw.contains ' ' then none
  else
    (if myClient then prettyMask maskPos raw else some raw).filter fun mask => mask.length ≤
      modebufLen - 2

/-- A mask of a BMASK command that `ms_bmask` gives to `add_id`. -/
def BmaskMask (s : Str) : Prop := s ≠ [] ∧ s.head? ≠ some ':' ∧ ' ' ∉ s ∧ s.length ≤ modebufLen

variable {maskPos : ℕ}

/-- The masks of local clients fit. -/
theorem length_prettyMask {idmask mask : Str} (h : prettyMask maskPos idmask = some mask) :
    mask ≠ [] ∧ mask.length < banLen := by
  rw [prettyMask] at h
  dsimp only at h
  split_ifs at h
  cases h
  refine ⟨by simp, ?_⟩
  simp only [length_append, length_cons, length_take, banLen, nickLen, userLen, hostLen]
  omega

theorem length_chmBanMask {raw mask : Str} (h : chmBanMask true maskPos raw = some mask) :
    mask ≠ [] ∧ mask.length < banLen := by
  rw [chmBanMask] at h
  split_ifs at h
  · exact length_prettyMask (filter_eq_some_iff.mp h).1
  · simp at *

/-! ### A mask matches itself -/

section Itself

variable {mask name : Str} {s : Cursor}

theorem toLower_eq_star {c : Char} : toLower c = '*' ↔ c = '*' := by
  rw [toLower]
  split_ifs with h
  · have hge : 65 ≤ c.toNat := h.1
    have hle : c.toNat ≤ 94 := h.2
    have hne : ∀ n, 65 ≤ n → n ≤ 94 → Char.ofNat (n + 32) ≠ '*' ∧ Char.ofNat n ≠ '*' := by
      intro n hge hle
      interval_cases n <;> decide
    obtain ⟨hlower, hself⟩ := hne c.toNat hge hle
    rw [Char.ofNat_toNat] at hself
    exact iff_of_false hlower hself
  · exact Iff.rfl

/-- The two places are the same, or the one in the name is behind, at characters `*`. -/
inductive Synced (mask : Str) (s : Cursor) : Prop
  | same (h : s.m = s.n) (hle : s.n ≤ mask.length)
  | behind (h : s.n < s.m) (hle : s.m ≤ mask.length) (hma : s.ma = s.m) (hna : s.na = s.n)
      (hwild : s.wild = true) (hstars : ∀ i, s.n ≤ i → i < s.m → mask[i]? = some '*')
        (hnot : mask[s.m]? ≠ some '*')

theorem getElem?_of_sameCase (h : SameCase mask name) (i : ℕ) :
    (mask[i]? = none ∧ name[i]? = none) ∨
      ∃ c d, mask[i]? = some c ∧ name[i]? = some d ∧ SameChar c d := by
  by_cases hi : i < mask.length
  · have hi' : i < name.length := h.length_eq ▸ hi
    refine .inr ⟨mask[i], name[i], getElem?_eq_getElem hi, getElem?_eq_getElem hi', ?_⟩
    exact forall₂_iff_get.mp h |>.2 i hi hi'
  · refine .inl ⟨getElem?_eq_none (Nat.not_lt.mp hi), getElem?_eq_none ?_⟩
    exact h.length_eq ▸ Nat.not_lt.mp hi

theorem getElem?_star (h : SameCase mask name) {i : ℕ} (hstar : mask[i]? = some '*') :
    name[i]? = some '*' := by
  obtain ⟨hnone, -⟩ | ⟨c, d, hc, hd, hcd⟩ := getElem?_of_sameCase h i
  · rw [hnone] at hstar
    cases hstar
  · cases hc.symm.trans hstar
    rw [hd, (hcd.eq_iff (ne_special (by simp))).mp rfl]

theorem skipStars_star {m i : ℕ} (hm : m ≤ i) (hi : i < skipStars mask m) :
    mask[i]? = some '*' := by
  have hlt : i - m < ((mask.drop m).takeWhile (· == '*')).length := by rw [skipStars] at hi; omega
  have hget := getElem?_eq_getElem hlt
  have hstar := beq_iff_eq.mp (mem_takeWhile_imp (p := (· == '*')) (getElem_mem hlt))
  rw [(List.takeWhile_prefix _).getElem hlt] at hstar
  rw [show i = m + (i - m) by omega, ← getElem?_drop, getElem?_eq_some_iff]
  exact ⟨_, hstar⟩

/-- The place in the name comes closer to the one in the mask. -/
theorem synced_closer {m n n' : ℕ} (hn : n ≤ n') (hm : n' ≤ m) (hle : m ≤ mask.length)
    (hstars : ∀ i, n ≤ i → i < m → mask[i]? = some '*') (hnot : mask[m]? ≠ some '*') :
    Synced mask ⟨m, n', m, n', true⟩ := by
  rcases Nat.eq_or_lt_of_le hm with heq | hlt
  · exact .same heq.symm (hm.trans hle)
  · exact .behind hlt hle rfl rfl rfl (fun i hi => hstars i (hn.trans hi)) hnot

theorem Synced.le (h : Synced mask s) : s.n ≤ mask.length := by
  cases h with
  | same _ hle => exact hle
  | behind hlt hle => exact hlt.le.trans hle

theorem Synced.passStars (h : Synced mask s) :
    Synced mask (passStars mask s) ∧ (passStars mask s).n = s.n := by
  rw [Match.passStars]
  split_ifs with hstar
  · refine ⟨?_, rfl⟩
    cases h with
    | same heq hle =>
      obtain ⟨-, hskip, -⟩ := skipStars_spec hstar
      have hlt : s.m < skipStars mask s.m := by
        refine lt_of_le_of_ne (Nat.le_add_right _ _) fun hsame => ?_
        exact getElem?_skipStars mask s.m (hsame ▸ hstar)
      rw [← heq]
      exact synced_closer le_rfl hlt.le hskip (fun i hi hi' => skipStars_star hi hi')
        (getElem?_skipStars mask s.m)
    | behind _ _ _ _ _ _ hnot => exact absurd hstar hnot
  · exact ⟨h, rfl⟩

/-- Characters at one place of a mask and of the same mask up to case are no mismatch. -/
theorem maskCompare_same (hcase : SameCase mask name) (heq : s.m = s.n)
    (hsome : mask[s.m]? ≠ none) :
    maskCompare mask name s = .inr { s with m := s.m + 1, n := s.n + 1 } := by
  obtain ⟨hnone, -⟩ | ⟨c, d, hc, hd, hcd⟩ := getElem?_of_sameCase hcase s.n
  · exact absurd hnone (heq ▸ hsome)
  · rw [maskCompare, if_neg, if_neg hsome, if_neg (by simp [hd])]
    rintro ⟨hne, -⟩
    rw [heq, hc, hd] at hne
    exact hne (by simp [toLower_congr hcd])

/-- A `*` of the name is passed over. -/
theorem maskCompare_star (hwild : s.wild = true) (hname : name[s.n]? = some '*')
    (hmask : mask[s.m]? ≠ some '*') :
    maskCompare mask name s = .inr { s with m := s.ma, n := s.na + 1, na := s.na + 1 } := by
  rw [maskCompare, if_pos, if_pos hwild]
  refine ⟨fun hlower => ?_, Or.inr hname⟩
  rw [hname, map_some, show toLower '*' = '*' from toLower_eq_star.mpr rfl,
    map_eq_some_iff] at hlower
  obtain ⟨c, hc, hlow⟩ := hlower
  exact hmask (hc.trans (congrArg some (toLower_eq_star.mp hlow)))

theorem Synced.turn (hcase : SameCase mask name) (h : Synced mask s)
    (hstar : mask[s.m]? ≠ some '*') :
    maskTurn mask name s = .inl true ∨
      ∃ s', maskTurn mask name s = .inr s' ∧ Synced mask s' ∧ s.n < s'.n := by
  rw [maskTurn]
  cases h with
  | same heq hle =>
    obtain ⟨hnone, hnone'⟩ | ⟨c, d, hc, hd, -⟩ := getElem?_of_sameCase hcase s.n
    · rw [if_pos (heq ▸ hnone), if_pos hnone']
      exact .inl rfl
    · have hsome : mask[s.m]? ≠ none := by simp [heq, hc]
      have hlt := (List.getElem?_eq_some_iff.mp hc).1
      rw [if_neg hsome, if_neg (by simp [hd]), maskCompare_same hcase heq hsome]
      exact .inr ⟨_, rfl, .same (congrArg (· + 1) heq) hlt, Nat.lt_succ_self _⟩
  | behind hlt hle hma hna hwild hstars hnot =>
    have hname : name[s.n]? = some '*' := getElem?_star hcase (hstars s.n le_rfl hlt)
    have hname' : name[s.n]? ≠ none := by simp [hname]
    have hcloser : ∀ n', s.n ≤ n' → n' ≤ s.m → Synced mask ⟨s.m, n', s.m, n', true⟩ :=
      fun n' hn hm => synced_closer hn hm hle hstars hnot
    by_cases hend : mask[s.m]? = none
    · rw [if_pos hend, if_neg hname', if_pos hwild]
      rcases Nat.eq_or_lt_of_le hlt with hlast | hmore
      · -- Both are at the end after this turn.
        have hlen : name[s.n + 1]? = none := by
          rw [List.getElem?_eq_none_iff, ← hcase.length_eq]
          exact (getElem?_eq_none_iff.mp hend).trans hlast.ge
        refine .inr ⟨⟨s.ma, s.na + 1, s.ma, s.na + 1, s.wild⟩, ?_, ?_, ?_⟩
        · simp [maskCompare, hma, hna, hend, hlen]
        · rw [hma, hna, hwild]
          exact hcloser _ (Nat.le_succ _) hlt
        · exact hna ▸ Nat.lt_succ_self _
      · have hnext : name[s.n + 1]? = some '*' :=
          getElem?_star hcase (hstars (s.n + 1) (Nat.le_succ _) hmore)
        rw [hma, hna, hwild, maskCompare_star (s := ⟨s.m, s.n + 1, s.m, s.n + 1, true⟩) rfl hnext
          hstar]
        exact .inr ⟨_, rfl, hcloser (s.n + 2) (Nat.le_add_right _ _) hmore, by dsimp only; omega⟩
    · rw [if_neg hend, if_neg hname', maskCompare_star hwild hname hstar]
      refine .inr ⟨_, rfl, ?_, by dsimp only; omega⟩
      rw [hma, hna, hwild]
      exact hcloser _ (Nat.le_succ _) hlt

theorem Synced.maskLoop {calls : ℕ} (hcase : SameCase mask name) (h : Synced mask s)
    (hcalls : mask.length - s.n < calls) : Match.maskLoop mask name calls s = true := by
  induction calls generalizing s with
  | zero => exact absurd hcalls (Nat.not_lt_zero _)
  | succ calls ih =>
    obtain ⟨hpass, hn⟩ := h.passStars
    rw [Match.maskLoop]
    obtain hdone | ⟨s', hturn, hs', hlt⟩ := hpass.turn hcase (passStars_ne mask s)
    · rw [hdone]
    · rw [hturn]
      have hle := hs'.le
      exact ih hs' (by omega)

/-- **A mask matches itself**, up to case, if it is not too long. -/
theorem maskMatch_of_irccmp (h : irccmp mask name = true) (hlen : mask.length < 512) :
    maskMatch mask name = true := by
  rw [maskMatch]
  split_ifs
  · rfl
  · exact (Synced.same rfl (Nat.zero_le _)).maskLoop (sameCase_iff.mpr h) hlen

end Itself

/-! ### Changes of the lists -/

/-- A mask that the commands of a client or server give to `add_id`. -/
def LetThrough (source_p : User) (banid : Str) : Prop :=
  (∃ maskPos raw, chmBanMask source_p.kind.myClient maskPos raw = some banid) ∨
    (source_p.kind.myClient = false ∧ BmaskMask banid)

/-- The mask of another server has room in a ban. -/
def Fits (source_p : User) (banid : Str) :
    Prop := source_p.kind.myClient = false → banid.length < banLen

/-- A change of a list. -/
inductive Change
  | add (source_p : User) (banid : Str) (type : ModeType)
  | del (banid : Str) (type : ModeType)

/-- The channel after a change. -/
def change (conf : Conf) (ch : Chan) : Change → Chan
  | .add source_p banid type => (addId conf source_p ch banid type).2
  | .del banid type => (delId ch banid type).2

/-- What is added was let through. -/
def Change.LetThrough : Change → Prop
  | .add source_p banid _ => Banlist.LetThrough source_p banid
  | .del _ _ => True

/-- What is added has room. -/
def Change.Fits : Change → Prop
  | .add source_p banid _ => Banlist.Fits source_p banid
  | .del _ _ => True

/-- No list has two masks that are equal up to case. -/
def Distinct (ch : Chan) : Prop := ∀ type, (ch.list type).Pairwise fun m m' => irccmp m m' = false

/-- The masks of the lists have room in a ban. -/
def Short (ch : Chan) : Prop := ∀ type, ∀ m ∈ ch.list type, m.length < banLen

section Changes

variable {conf : Conf} {source_p : User} {ch : Chan} {banid : Str} {type : ModeType}

@[simp] theorem list_setList (ch : Chan) (l : List Str) (type type' : ModeType) :
    (ch.setList l type).list type' = if type' = type then l else ch.list type' := by
  cases type <;> cases type' <;> rfl

@[simp] theorem list_bumpFor (ch : Chan) (type type' : ModeType) :
    (ch.bumpFor type).list type' = ch.list type' := by
  rw [Chan.bumpFor]
  split_ifs <;> cases type' <;> rfl

theorem LetThrough.ne_nil (h : LetThrough source_p banid) : banid ≠ [] := by
  obtain ⟨maskPos, raw, hraw⟩ | ⟨-, hne, -⟩ := h
  · cases hmy : source_p.kind.myClient with
    | true => exact (length_chmBanMask (hmy ▸ hraw)).1
    | false =>
      rw [hmy, chmBanMask] at hraw
      split_ifs at hraw with hempty _ hfalse
      · cases hfalse
      · obtain rfl := some.inj (filter_eq_some_iff.mp hraw).1
        exact fun hnil => hempty (.inl hnil)
  · exact hne

/-- A mask that was let through has room if it is of a local client. -/
theorem LetThrough.lt_banLen_iff (h : LetThrough source_p banid) :
    Fits source_p banid ↔ banid.length < banLen := by
  refine ⟨fun hfits => ?_, fun hlt _ => hlt⟩
  cases hmy : source_p.kind.myClient with
  | false => exact hfits hmy
  | true =>
    obtain ⟨maskPos, raw, hraw⟩ | ⟨hnot, -⟩ := h
    · exact (length_chmBanMask (hmy ▸ hraw)).2
    · cases hmy.symm.trans hnot

theorem strlcpy_of_lt (h : banid.length < banLen) : strlcpy banid banLen = banid :=
  take_of_length_le (Nat.le_sub_one_of_lt h)

theorem length_strlcpy_lt (banid : Str) : (strlcpy banid banLen).length < banLen := by
  rw [strlcpy, length_take]
  exact lt_of_le_of_lt (Nat.min_le_left _ _) (by decide)

/-- What `add_id` does when it does not refuse: no mask of the list is the one that is added. -/
theorem addId_cases (conf : Conf) (source_p : User) (ch : Chan) (banid : Str) (type : ModeType) :
    addId conf source_p ch banid type = (false, ch) ∨
      addId conf source_p ch banid type =
          (true, (ch.setList (strlcpy banid banLen :: ch.list type) type).bumpFor type) ∧
        (Short ch → ∀ m ∈ ch.list type, irccmp m banid = false) := by
  rw [addId]
  cases hmy : source_p.kind.myClient with
  | true =>
    simp only [if_true]
    split_ifs with hrefused
    · exact .inl rfl
    · refine .inr ⟨rfl, fun hshort m hm => ?_⟩
      simp only [Bool.or_eq_true, not_or, List.any_eq_true, not_exists, not_and] at hrefused
      refine Bool.eq_false_iff.mpr fun hsame => hrefused.2 m hm ?_
      exact maskMatch_of_irccmp hsame (lt_trans (hshort type m hm) (by decide))
  | false =>
    simp only [Bool.false_eq_true, if_false]
    split_ifs with hrefused
    · exact .inl rfl
    · refine .inr ⟨rfl, fun _ m hm => ?_⟩
      simp only [List.any_eq_true, not_exists, not_and] at hrefused
      exact Bool.eq_false_iff.mpr (hrefused m hm)

/-- What `del_id` does to the lists. -/
theorem list_delId_subset (ch : Chan) (banid : Str) (type type' : ModeType) :
    ((delId ch banid type).2.list type').Sublist (ch.list type') := by
  rw [delId]
  split_ifs
  · exact Sublist.refl _
  · rw [list_bumpFor, list_setList]
    split_ifs with htype
    · exact htype ▸ eraseP_sublist
    · exact Sublist.refl _
  · exact Sublist.refl _

theorem Short.change (h : Short ch) (x : Change) : Short (change conf ch x) := by
  cases x with
  | add source_p banid type =>
    intro type' m hm
    rw [Banlist.change] at hm
    obtain heq | ⟨heq, -⟩ := addId_cases conf source_p ch banid type
    · exact h type' m (by rwa [heq] at hm)
    · rw [heq, list_bumpFor, list_setList] at hm
      split_ifs at hm with htype
      · obtain rfl | hm := mem_cons.mp hm
        · exact length_strlcpy_lt banid
        · exact h type m hm
      · exact h type' m hm
  | del banid type => exact fun type' m hm => h type' m ((list_delId_subset ch banid type
    type').subset hm)

theorem Distinct.change {x : Change} (h : Distinct ch) (hshort : Short ch) (hlet : x.LetThrough)
    (hfits : x.Fits) : Distinct (change conf ch x) := by
  cases x with
  | add source_p banid type =>
    intro type'
    rw [Banlist.change]
    obtain heq | ⟨heq, hnew⟩ := addId_cases conf source_p ch banid type
    · rw [heq]
      exact h type'
    · rw [heq, list_bumpFor, list_setList, strlcpy_of_lt (hlet.lt_banLen_iff.mp hfits)]
      split_ifs
      · refine pairwise_cons.mpr ⟨fun m hm => ?_, h type⟩
        rw [irccmp_comm]
        exact hnew hshort m hm
      · exact h type'
  | del banid type => exact fun type' => (h type').sublist (list_delId_subset ch banid type type')

theorem short_run (conf : Conf) (c : Str) (changes : List Change) :
    Short (changes.foldl (change conf) (.fresh c)) := by
  refine foldlRecOn changes (change conf) (fun type m hm => ?_) fun ch h x _ => h.change x
  cases type <;> simp [Chan.list, Chan.fresh] at hm

theorem distinct_run (conf : Conf) (c : Str) (changes : List Change)
    (hlet : ∀ x ∈ changes, x.LetThrough) (hfits : ∀ x ∈ changes, x.Fits) :
    Distinct (changes.foldl (change conf) (.fresh c)) := by
  refine (foldlRecOn (motive := fun ch => Distinct ch ∧ Short ch) changes (change conf)
    ⟨fun type => ?_, short_run conf c []⟩ fun ch h x hx =>
      ⟨h.1.change h.2 (hlet x hx) (hfits x hx), h.2.change x⟩).1
  cases type <;> exact Pairwise.nil

/-- What was added can be removed, and the lists are as before. -/
def Restored (conf : Conf) (source_p : User) (ch : Chan) (banid : Str) (type : ModeType) : Prop :=
  (delId (addId conf source_p ch banid type).2 banid type).1 = true ∧
    ∀ type', (delId (addId conf source_p ch banid type).2 banid type).2.list type' = ch.list type'

/-- What was added is found at the front of the list when it was not cut. -/
theorem restored_iff (hshort : Short ch) (hne : banid ≠ [])
    (hadd : (addId conf source_p ch banid type).1 = true) :
    Restored conf source_p ch banid type ↔ banid.length < banLen := by
  obtain heq | ⟨heq, -⟩ := addId_cases conf source_p ch banid type
  · rw [heq] at hadd
    cases hadd
  · rw [Restored, heq, delId, if_neg hne, list_bumpFor, list_setList, if_pos rfl]
    constructor
    · rintro ⟨hdel, -⟩
      split_ifs at hdel with hany
      obtain ⟨m, hm, hsame⟩ := any_eq_true.mp hany
      rw [(sameCase_iff.mpr hsame).length_eq]
      obtain rfl | hm := mem_cons.mp hm
      · exact length_strlcpy_lt banid
      · exact hshort type m hm
    · intro hlt
      rw [strlcpy_of_lt hlt, any_cons, irccmp_refl, Bool.true_or, if_pos rfl,
        eraseP_cons_of_pos (irccmp_refl banid)]
      refine ⟨rfl, fun type' => ?_⟩
      rw [list_bumpFor, list_setList]
      split_ifs with htype
      · rw [htype]
      · rw [list_bumpFor, list_setList, if_neg htype]

end Changes

/-- **The lists are sets.** As long as the masks of other servers have room in a ban, no list has
two masks that are equal up to case. What was added can be removed again, and the lists are as
before, exactly when the mask has room. -/
theorem lists_iff (conf : Conf) (c : Str) (changes : List Change)
    (hlet : ∀ x ∈ changes, x.LetThrough) :
    ((∀ x ∈ changes, x.Fits) → Distinct (changes.foldl (change conf) (.fresh c))) ∧
      ∀ (source_p : User) (banid : Str) (type : ModeType), LetThrough source_p banid →
        (addId conf source_p (changes.foldl (change conf) (.fresh c)) banid type).1 = true →
          (Restored conf source_p (changes.foldl (change conf) (.fresh c)) banid type ↔
            Fits source_p banid) := by
  refine ⟨distinct_run conf c changes hlet, fun source_p banid type hthrough hadd => ?_⟩
  rw [hthrough.lt_banLen_iff]
  exact restored_iff (short_run conf c changes) hthrough.ne_nil hadd

/-- A client of another server. -/
def remoteUser : User := { localUser with kind := .remoteUser }

/-- A mask of 109 characters. -/
def longMask : Str := "*!*@".toList ++ replicate 105 'a'

theorem letThrough_longMask : LetThrough remoteUser longMask :=
  Or.inl ⟨0, longMask, by decide +kernel⟩

/-- A mask of another server that is cut is added twice, and cannot be removed. -/
theorem cut_mask_twice :
    (∃ changes : List Change, (∀ x ∈ changes, x.LetThrough) ∧
      ¬ Distinct (changes.foldl (change usualConf) (.fresh ['#']))) ∧
    LetThrough remoteUser longMask ∧ (addId usualConf remoteUser (.fresh ['#']) longMask .ban).1 =
      true ∧ ¬ Restored usualConf remoteUser (.fresh ['#']) longMask .ban := by
  refine ⟨⟨[.add remoteUser longMask .ban, .add remoteUser longMask .ban], ?_, fun hdistinct => ?_⟩,
    letThrough_longMask, by decide +kernel, fun hrestored => ?_⟩
  · simpa [Change.LetThrough] using letThrough_longMask
  · exact absurd (hdistinct .ban) (by decide +kernel)
  · exact absurd hrestored.1 (by decide +kernel)

/-- A client of another server adds a mask of 108 characters twice, and a local one adds another and
removes it. -/
def someChanges : List Change :=
  [.add remoteUser (longMask.take 108) .ban, .add remoteUser (longMask.take 108) .ban,
    .add localUser "a!*@*".toList .invex, .del "a!*@*".toList .invex]

theorem lists_iff_small : (someChanges.foldl (change usualConf) (.fresh ['#'])).banlist.length = 1 ∧
    Distinct (someChanges.foldl (change usualConf) (.fresh ['#'])) := by
  refine ⟨by decide +kernel, (lists_iff usualConf ['#'] _ fun x hx => ?_).1 fun x hx => ?_⟩
  · simp only [someChanges, mem_cons, not_mem_nil, or_false] at hx
    rcases hx with rfl | rfl | rfl | rfl
    · exact .inl ⟨0, longMask.take 108, by decide +kernel⟩
    · exact .inl ⟨0, longMask.take 108, by decide +kernel⟩
    · exact .inl ⟨0, ['a'], by decide +kernel⟩
    · trivial
  · simp only [someChanges, mem_cons, not_mem_nil, or_false] at hx
    rcases hx with rfl | rfl | rfl | rfl
    · exact fun _ => by decide
    · exact fun _ => by decide
    · exact nofun
    · trivial

end Ratbox.Banlist
