import Ratbox.Channel.Basic
import Ratbox.Lib.Run

/-!
# The lists of memberships

A membership is on the list of its channel that its flags ask for, on the list of its client, and,
when its client is connected here, on the list of local members. This is kept by adding members
and by changing their flags. Removing a member asks another question about its client than adding
one did: a fake client was not put on the list of local members, and is taken off it all the same.
The lists stay right in every run in which a fake client is removed from no channel that goes on
without it (`Channel.linked_of_run`).

Source: `src/channel.c`, lines 95–282, and `src/services.c`, lines 487–543.

## Main definitions

* `Channel.Linked`, `Channel.Populated`: the lists hold the memberships they should, and every
  channel has a member.
* `Channel.Op`, `Channel.step`: joining, leaving and opping.
* `Channel.LeavesLists`: the condition under which an operation keeps the lists right.

## Main results

* `Channel.linked_of_run`: the lists after a run.
-/

namespace Ratbox.Channel

open Text Dlink Run List Option Function World

/-! ### The invariant -/

/-- A membership that belongs on the list `k` of the members of a channel. -/
def OnMembers (w : World) (c : Str) (k : MemberList) (m : ℕ) : Prop :=
  ∃ ms, w.mem m = some ms ∧ ms.chptr = c ∧ memlist ms.flags = k

/-- A membership that belongs on the local members of a channel. -/
def OnLocmembers (w : World) (c : Str) (m : ℕ) : Prop :=
  ∃ ms, w.mem m = some ms ∧ ms.chptr = c ∧ (w.client ms.client_p).kind.myClient = true

/-- A membership that belongs on the channels of a client. -/
def OnUser (w : World) (u m : ℕ) : Prop := ∃ ms, w.mem m = some ms ∧ ms.client_p = u

/-- The lists of a channel have the memberships that belong on them, a client has one membership
in a channel, a membership has a channel, and the next address of a channel with a cut name is
free. -/
structure ChanLinked (w : World) : Prop where
  members : ∀ c ch, w.chan c = some ch → ∀ k, Holds w.channode (ch.members k) (OnMembers w c k)
  locmembers : ∀ c ch, w.chan c = some ch → Holds w.locchannode ch.locmembers (OnLocmembers w c)
  unlinked : ∀ m ms, w.mem m = some ms → (w.client ms.client_p).kind.myClient = false →
    w.locchannode m = ⟨none, none⟩
  unique : ∀ m m' ms ms', w.mem m = some ms → w.mem m' = some ms' → ms.chptr = ms'.chptr →
    ms.client_p = ms'.client_p → m = m'
  chan : ∀ m ms, w.mem m = some ms → ∃ ch, w.chan ms.chptr = some ch
  lt_fresh : ∀ m ms, w.mem m = some ms → m < w.fresh
  length_lt : ∀ c ch, w.chan c = some ch → c.length < channelLen + w.cuts

/-- The invariant: the channel lists of the clients, too, have the memberships that belong on
them. -/
structure Linked (w : World) : Prop extends ChanLinked w where
  userChannel : ∀ u, Holds w.usernode (w.client u).channel (OnUser w u)

/-- Every channel has a member. -/
def Populated (w : World) : Prop :=
  ∀ c ch, w.chan c = some ch → ∃ m ms, w.mem m = some ms ∧ ms.chptr = c

variable {w w' : World} {c c' chname : Str} {ch : Chan} {m : ℕ} {ms : Membership} {op : Op}

theorem Linked.mem_fresh (hw : Linked w) : w.mem w.fresh = none := by
  cases h : w.mem w.fresh with
  | none => rfl
  | some ms => exact absurd (hw.lt_fresh _ ms h) (lt_irrefl _)

/-- No address of a channel is new. -/
theorem ChanLinked.length_lt_of (hw : ChanLinked w) (hcuts : w'.cuts = w.cuts)
    (hold : ∀ c ch', w'.chan c = some ch' → ∃ ch, w.chan c = some ch) (c : Str) (ch' : Chan)
    (hch' : w'.chan c = some ch') : c.length < channelLen + w'.cuts := by
  obtain ⟨ch, hch⟩ := hold c ch' hch'
  rw [hcuts]
  exact hw.length_lt c ch hch

/-- Writing a channel makes no new one. -/
theorem chan_of_update (hch : w.chan c = some ch) {o : Option Chan} (c' : Str)
    (ch' : Chan) (h : update w.chan c o c' = some ch') : ∃ ch, w.chan c' = some ch := by
  by_cases hc : c' = c
  · exact ⟨ch, hc ▸ hch⟩
  · exact ⟨ch', by rwa [update_of_ne hc] at h⟩

theorem OnMembers.ne {k k' : MemberList} (h : OnMembers w c k m)
    (h' : OnMembers w c' k' m) : c = c' ∧ k = k' := by
  obtain ⟨ms, hms, rfl, rfl⟩ := h
  obtain ⟨ms', hms', rfl, rfl⟩ := h'
  obtain rfl : ms = ms' := some.inj (hms.symm.trans hms')
  exact ⟨rfl, rfl⟩

theorem not_onLocmembers (hms : w.mem m = some ms)
    (hmy : (w.client ms.client_p).kind.myClient = false) (c : Str) : ¬OnLocmembers w c m := by
  rintro ⟨ms', hms', -, hmy'⟩
  rw [some.inj (hms.symm.trans hms'), hmy'] at hmy
  exact Bool.noConfusion hmy

theorem OnLocmembers.ne (h : OnLocmembers w c m) (h' : OnLocmembers w c' m) : c = c' := by
  obtain ⟨ms, hms, rfl, -⟩ := h
  obtain ⟨ms', hms', rfl, -⟩ := h'
  rw [some.inj (hms.symm.trans hms')]

theorem OnUser.ne {u u' : ℕ} (h : OnUser w u m) (h' : OnUser w u' m) : u = u' := by
  obtain ⟨ms, hms, rfl⟩ := h
  obtain ⟨ms', hms', rfl⟩ := h'
  rw [some.inj (hms.symm.trans hms')]

@[simp] theorem kind_setUserChannel (w : World) (c : ℕ) (l : DList ℕ) (u : ℕ) :
    ((w.setUserChannel c l).client u).kind = (w.client u).kind := by
  by_cases hu : u = c
  · simp [setUserChannel, hu]
  · simp [setUserChannel, update_of_ne hu]

/-! ### Adding a member -/

section Add

variable {c : Str} {u : ℕ} {fl : MemberFlags} {ch : Chan}

/-- The memberships after one is added. -/
theorem mem_addUserToChannel (hch : w.chan c = some ch) (u : ℕ) (fl : MemberFlags) :
    (addUserToChannel w c u fl).mem = update w.mem w.fresh (some ⟨c, u, fl⟩) := by
  simp [addUserToChannel, hch, setMem, setChan, setUserChannel]

theorem kind_addUserToChannel (w : World) (c : Str) (u : ℕ) (fl : MemberFlags) (x : ℕ) :
    ((addUserToChannel w c u fl).client x).kind = (w.client x).kind := by
  rw [addUserToChannel]
  cases w.chan c with
  | none => rfl
  | some ch => exact kind_setUserChannel ..

section

variable (hch : w.chan c = some ch)
include hch

/-- The channels after a member is added: the list of members for its flags has grown, and that of
the local members when the client is connected here. -/
theorem chan_addUserToChannel (u : ℕ) (fl : MemberFlags) :
    (addUserToChannel w c u fl).chan = update w.chan c (some { ch with
      members := update ch.members (memlist fl)
        (add w.channode w.fresh (ch.members (memlist fl))).2
      locmembers := if (w.client u).kind.myClient then
        (add w.locchannode w.fresh ch.locmembers).2 else ch.locmembers }) := by
  simp only [addUserToChannel, hch]
  split_ifs <;> rfl

theorem channode_addUserToChannel (u : ℕ) (fl : MemberFlags) :
    (addUserToChannel w c u fl).channode =
      (add w.channode w.fresh (ch.members (memlist fl))).1 := by
  simp [addUserToChannel, hch]

theorem locchannode_addUserToChannel (u : ℕ) (fl : MemberFlags) :
    (addUserToChannel w c u fl).locchannode = if (w.client u).kind.myClient then
      (add w.locchannode w.fresh ch.locmembers).1
      else update w.locchannode w.fresh ⟨none, none⟩ := by
  simp only [addUserToChannel, hch]
  split_ifs <;> rfl

theorem channel_addUserToChannel (u : ℕ) (fl : MemberFlags) (x : ℕ) :
    ((addUserToChannel w c u fl).client x).channel = if x = u then
      (add w.usernode w.fresh (w.client u).channel).2 else (w.client x).channel := by
  simp only [addUserToChannel, hch, setMem, setChan, setUserChannel]
  split_ifs with hx
  · simp [hx]
  · simp [hx]

theorem usernode_addUserToChannel (u : ℕ) (fl : MemberFlags) :
    (addUserToChannel w c u fl).usernode = (add w.usernode w.fresh (w.client u).channel).1 := by
  simp [addUserToChannel, hch]

end

theorem cuts_addUserToChannel (w : World) (c : Str) (u : ℕ) (fl : MemberFlags) :
    (addUserToChannel w c u fl).cuts = w.cuts := by
  rw [addUserToChannel]
  cases w.chan c <;> rfl

theorem fresh_addUserToChannel (hch : w.chan c = some ch) (u : ℕ) (fl : MemberFlags) :
    (addUserToChannel w c u fl).fresh = w.fresh + 1 := by
  simp [addUserToChannel, hch]

/-- A new client of a channel. -/
theorem Linked.addUserToChannel (hw : Linked w) (hch : w.chan c = some ch)
    (hnew : ∀ m ms, w.mem m = some ms → ms.chptr = c → ms.client_p ≠ u) :
    Linked (addUserToChannel w c u fl) := by
  have hmem' := mem_addUserToChannel hch u fl
  have hkind := kind_addUserToChannel w c u fl
  have hchan := chan_addUserToChannel hch u fl
  have hchannode := channode_addUserToChannel hch u fl
  have hlocchannode := locchannode_addUserToChannel hch u fl
  have husernode := usernode_addUserToChannel hch u fl
  have hchannel := channel_addUserToChannel hch u fl
  have hfresh' := fresh_addUserToChannel hch u fl
  have hcuts := cuts_addUserToChannel w c u fl
  generalize Channel.addUserToChannel w c u fl = w' at *
  have hmem : ∀ m ms, w'.mem m = some ms ↔
      (m = w.fresh ∧ ms = ⟨c, u, fl⟩) ∨ w.mem m = some ms := by
    intro m ms
    rw [hmem']
    by_cases hm : m = w.fresh
    · subst hm
      simp [hw.mem_fresh, eq_comm]
    · simp [hm]
  have hfresh : ∀ P : Membership → Prop, ¬∃ ms, w.mem w.fresh = some ms ∧ P ms := by
    simp [hw.mem_fresh]
  have honMembers : ∀ c' k m, OnMembers w' c' k m ↔
      (m = w.fresh ∧ c' = c ∧ k = memlist fl) ∨ OnMembers w c' k m := by
    intro c' k m
    simp only [OnMembers, hmem, or_and_right, exists_or]
    refine or_congr_left ⟨?_, ?_⟩
    · rintro ⟨ms, ⟨hm, rfl⟩, rfl, rfl⟩
      exact ⟨hm, rfl, rfl⟩
    · rintro ⟨hm, rfl, rfl⟩
      exact ⟨_, ⟨hm, rfl⟩, rfl, rfl⟩
  have honLoc : ∀ c' m, OnLocmembers w' c' m ↔
      (m = w.fresh ∧ c' = c ∧ (w.client u).kind.myClient = true) ∨ OnLocmembers w c' m := by
    intro c' m
    simp only [OnLocmembers, hmem, hkind, or_and_right, exists_or]
    refine or_congr_left ⟨?_, ?_⟩
    · rintro ⟨ms, ⟨hm, rfl⟩, rfl, hmy⟩
      exact ⟨hm, rfl, hmy⟩
    · rintro ⟨hm, rfl, hmy⟩
      exact ⟨_, ⟨hm, rfl⟩, rfl, hmy⟩
  have honUser : ∀ x m, OnUser w' x m ↔ (m = w.fresh ∧ x = u) ∨ OnUser w x m := by
    intro x m
    simp only [OnUser, hmem, or_and_right, exists_or]
    refine or_congr_left ⟨?_, ?_⟩
    · rintro ⟨ms, ⟨hm, rfl⟩, rfl⟩
      exact ⟨hm, rfl⟩
    · rintro ⟨hm, rfl⟩
      exact ⟨_, ⟨hm, rfl⟩, rfl⟩
  refine ⟨⟨fun c' ch' hch' k => ?_, fun c' ch' hch' => ?_, fun m ms hms hmy => ?_,
    fun m m' ms ms' hms hms' hc hu => ?_, fun m ms hms => ?_, fun m ms hms => ?_,
    hw.length_lt_of hcuts fun c' ch' h => chan_of_update hch c' ch' (hchan ▸ h)⟩, fun x => ?_⟩
  · -- the list of the flags of the new member is that of its channel
    rw [hchannode]
    rw [hchan] at hch'
    by_cases hck : c' = c ∧ k = memlist fl
    · obtain ⟨rfl, rfl⟩ := hck
      simp only [update_self, some.injEq] at hch'
      subst hch'
      simp only [update_self]
      refine ((hw.members c' ch hch _).add (hfresh _)).congr (fun m => ?_) fun _ _ => rfl
      simp [honMembers]
    · have hold : ∃ ch₀, w.chan c' = some ch₀ ∧ ch'.members k = ch₀.members k := by
        by_cases hc : c' = c
        · subst hc
          simp only [update_self, some.injEq] at hch'
          subst hch'
          exact ⟨ch, hch, update_of_ne (fun hk => hck ⟨rfl, hk⟩) ..⟩
        · rw [update_of_ne hc] at hch'
          exact ⟨ch', hch', rfl⟩
      obtain ⟨ch₀, hch₀, hk⟩ := hold
      rw [hk]
      refine ((hw.members c ch hch _).add_other (hw.members c' ch₀ hch₀ k) (hfresh _)
        fun x hx hx' => hck (hx.ne hx')).congr (fun m => ?_) fun _ _ => rfl
      simp [honMembers, hck]
  · rw [hlocchannode]
    rw [hchan] at hch'
    cases hmy : (w.client u).kind.myClient with
    | true =>
      simp only [hmy, ↓reduceIte] at hch' ⊢
      by_cases hc : c' = c
      · subst hc
        simp only [update_self, some.injEq] at hch'
        subst hch'
        refine ((hw.locmembers c' ch hch).add (hfresh _)).congr (fun m => ?_) fun _ _ => rfl
        simp [honLoc, hmy]
      · rw [update_of_ne hc] at hch'
        refine ((hw.locmembers c ch hch).add_other (hw.locmembers c' ch' hch') (hfresh _)
          fun x hx hx' => hc (hx.ne hx')).congr (fun m => ?_) fun _ _ => rfl
        simp [honLoc, hc]
    | false =>
      simp only [hmy, Bool.false_eq_true, ↓reduceIte] at hch' ⊢
      have hold : ∃ ch₀, w.chan c' = some ch₀ ∧ ch'.locmembers = ch₀.locmembers := by
        by_cases hc : c' = c
        · subst hc
          simp only [update_self, some.injEq] at hch'
          subst hch'
          exact ⟨ch, hch, rfl⟩
        · rw [update_of_ne hc] at hch'
          exact ⟨ch', hch', rfl⟩
      obtain ⟨ch₀, hch₀, hl⟩ := hold
      rw [hl]
      refine (hw.locmembers c' ch₀ hch₀).congr (fun m => ?_) fun m hm =>
        update_of_ne ?_ ..
      · simp [honLoc, hmy]
      · rintro rfl
        exact hfresh _ hm
  · rw [hkind] at hmy
    rw [hlocchannode]
    rcases (hmem m ms).mp hms with ⟨rfl, rfl⟩ | hms
    · simp [hmy]
    · have hm : m ≠ w.fresh := (hw.lt_fresh m ms hms).ne
      have hold := hw.unlinked m ms hms hmy
      split_ifs
      · rw [(hw.locmembers c ch hch).add_frame hm (not_onLocmembers hms hmy c), hold]
      · rw [update_of_ne hm, hold]
  · rcases (hmem m ms).mp hms with ⟨rfl, rfl⟩ | hms <;>
      rcases (hmem m' ms').mp hms' with ⟨rfl, rfl⟩ | hms'
    · rfl
    · exact absurd hu.symm (hnew m' ms' hms' hc.symm)
    · exact absurd hu (hnew m ms hms hc)
    · exact hw.unique m m' ms ms' hms hms' hc hu
  · rw [hchan]
    by_cases hc : ms.chptr = c
    · exact ⟨_, by rw [hc, update_self]⟩
    · rw [update_of_ne hc]
      rcases (hmem m ms).mp hms with ⟨rfl, rfl⟩ | hms
      · exact absurd rfl hc
      · exact hw.chan m ms hms
  · rw [hfresh']
    rcases (hmem m ms).mp hms with ⟨rfl, rfl⟩ | hms
    · exact Nat.lt_succ_self _
    · exact (hw.lt_fresh m ms hms).trans (Nat.lt_succ_self _)
  · rw [hchannel, husernode]
    split_ifs with hx
    · subst hx
      refine ((hw.userChannel x).add (hfresh _)).congr (fun m => ?_) fun _ _ => rfl
      simp [honUser]
    · refine ((hw.userChannel u).add_other (hw.userChannel x) (hfresh _)
        fun m hm hm' => hx (hm.ne hm')).congr (fun m => ?_) fun _ _ => rfl
      simp [honUser, hx]

end Add

/-! ### Removing a member -/

section Remove

variable {m u : ℕ} {ms : Membership} {ch : Chan}

/-- The channel of a membership after it is taken off its lists. -/
def leftChan (w : World) (m : ℕ) (ms : Membership) (ch : Chan) : Chan :=
  { ch with
    members := update ch.members (memlist ms.flags)
      (delete w.channode m (ch.members (memlist ms.flags))).2
    locmembers := if (w.client ms.client_p).kind.servptrIsMe then
      (delete w.locchannode m ch.locmembers).2 else ch.locmembers }

theorem removeMember_eq (hch : w.chan ms.chptr = some ch) (m : ℕ) :
    removeMember w m ms = { w with
      mem := update w.mem m none
      chan := update w.chan ms.chptr
        (if chanMemberCount (leftChan w m ms ch) = 0 then none else some (leftChan w m ms ch))
      channode := (delete w.channode m (ch.members (memlist ms.flags))).1
      locchannode := if (w.client ms.client_p).kind.servptrIsMe then
        (delete w.locchannode m ch.locmembers).1 else w.locchannode } := by
  simp only [removeMember, hch, leftChan]
  cases (w.client ms.client_p).kind.servptrIsMe <;>
    simp only [Bool.false_eq_true, ↓reduceIte] <;> split_ifs <;>
    simp [setChan, destroyChannel]

/-- The member of a channel with only one. -/
def Sole (w : World) (m : ℕ) (c : Str) : Prop :=
  ∀ m' ms', w.mem m' = some ms' → ms'.chptr = c → m' = m

/-- **Removing a member.** A fake client may only be the last to leave. -/
theorem ChanLinked.removeMember (hw : ChanLinked w) (hms : w.mem m = some ms)
    (hok : (w.client ms.client_p).kind = .fakeUser → Sole w m ms.chptr) :
    ChanLinked (removeMember w m ms) ∧
      ((removeMember w m ms).chan ms.chptr = none ↔ Sole w m ms.chptr) := by
  obtain ⟨ch, hch⟩ := hw.chan m ms hms
  have heq := removeMember_eq hch m
  generalize Channel.removeMember w m ms = w' at *
  have hmem : ∀ x y, w'.mem x = some y ↔ w.mem x = some y ∧ x ≠ m := by
    intro x y
    rw [heq]
    by_cases hx : x = m <;> simp [hx]
  have hclient : w'.client = w.client := by rw [heq]
  have honMembers : ∀ c k x, OnMembers w' c k x ↔ OnMembers w c k x ∧ x ≠ m := by
    intro c k x
    simp only [OnMembers, hmem]
    exact ⟨fun ⟨y, ⟨hy, hx⟩, h⟩ => ⟨⟨y, hy, h⟩, hx⟩, fun ⟨⟨y, hy, h⟩, hx⟩ => ⟨y, ⟨hy, hx⟩, h⟩⟩
  have honLoc : ∀ c x, OnLocmembers w' c x ↔ OnLocmembers w c x ∧ x ≠ m := by
    intro c x
    simp only [OnLocmembers, hmem, hclient]
    exact ⟨fun ⟨y, ⟨hy, hx⟩, h⟩ => ⟨⟨y, hy, h⟩, hx⟩, fun ⟨⟨y, hy, h⟩, hx⟩ => ⟨y, ⟨hy, hx⟩, h⟩⟩
  have hm : OnMembers w ms.chptr (memlist ms.flags) m := ⟨ms, hms, rfl, rfl⟩
  -- the lists of members other than the one the membership was on
  have hother : ∀ c ch₀ k, w.chan c = some ch₀ → ¬(c = ms.chptr ∧ k = memlist ms.flags) →
      Holds w'.channode (ch₀.members k) (OnMembers w' c k) := by
    intro c ch₀ k hch₀ hck
    rw [heq]
    refine ((hw.members _ ch hch _).delete_other hm (hw.members c ch₀ hch₀ k)
      fun x hx hx' => hck (hx.ne hx')).congr (fun x => ?_) fun _ _ => rfl
    rw [← heq, honMembers, iff_self_and]
    rintro hx rfl
    exact hck (hx.ne hm)
  have hleft : ∀ k, Holds w'.channode ((leftChan w m ms ch).members k)
      (OnMembers w' ms.chptr k) := by
    intro k
    by_cases hk : k = memlist ms.flags
    · subst hk
      simp only [leftChan, update_self]
      rw [heq]
      refine ((hw.members _ ch hch _).delete hm).congr (fun x => ?_) fun _ _ => rfl
      rw [← heq, honMembers]
    · simp only [leftChan, update_of_ne hk]
      exact hother _ ch k hch fun h => hk h.2
  have hcount : chanMemberCount (leftChan w m ms ch) = 0 ↔ Sole w m ms.chptr := by
    rw [chanMemberCount, Nat.add_eq_zero_iff, (hleft _).length_eq_zero_iff,
      (hleft _).length_eq_zero_iff]
    constructor
    · rintro ⟨hnoop, hop⟩ m' ms' hms' hc
      by_contra hne
      have hon : OnMembers w' ms.chptr (memlist ms'.flags) m' :=
        (honMembers ..).mpr ⟨⟨ms', hms', hc, rfl⟩, hne⟩
      cases hk : memlist ms'.flags with
      | noop => exact hnoop m' (hk ▸ hon)
      | op => exact hop m' (hk ▸ hon)
    · refine fun hsole => ⟨fun x hx => ?_, fun x hx => ?_⟩ <;>
      · obtain ⟨⟨ms', hms', hc, -⟩, hne⟩ := (honMembers ..).mp hx
        exact hne (hsole x ms' hms' hc)
  have hchan : w'.chan = update w.chan ms.chptr
      (if chanMemberCount (leftChan w m ms ch) = 0 then none else some (leftChan w m ms ch)) := by
    rw [heq]
  have hloc : w'.locchannode = if (w.client ms.client_p).kind.servptrIsMe then
      (delete w.locchannode m ch.locmembers).1 else w.locchannode := by rw [heq]
  have hcuts : w'.cuts = w.cuts := by rw [heq]
  refine ⟨⟨fun c ch' hch' k => ?_, fun c ch' hch' => ?_, fun x y hy hmy => ?_,
    fun x x' y y' hy hy' hc hu => ?_, fun x y hy => ?_, fun x y hy => ?_,
    hw.length_lt_of hcuts fun c ch' h => chan_of_update hch c ch' (hchan ▸ h)⟩, ?_⟩
  · rw [hchan] at hch'
    by_cases hc : c = ms.chptr
    · subst hc
      rw [update_self] at hch'
      split_ifs at hch'
      exact some.inj hch' ▸ hleft k
    · rw [update_of_ne hc] at hch'
      exact hother c ch' k hch' fun h => hc h.1
  · -- a membership that is not local is on no list of local members
    have hnot : (w.client ms.client_p).kind.myClient = false → ∀ c x, OnLocmembers w c x →
        x ≠ m := by
      rintro hmy c x hx rfl
      exact not_onLocmembers hms hmy c hx
    by_cases hc : c = ms.chptr
    · subst hc
      rw [hchan, update_self] at hch'
      split_ifs at hch' with hzero
      cases hch'
      have hold := hw.locmembers _ ch hch
      rw [hloc]
      simp only [leftChan]
      cases hkind : (w.client ms.client_p).kind with
      | localUser =>
        refine (hold.delete ⟨ms, hms, rfl, by rw [hkind]; rfl⟩).congr (fun x => ?_) fun _ _ => rfl
        rw [honLoc]
      | fakeUser => exact absurd (hcount.mpr (hok hkind)) hzero
      | remoteUser | server | unregistered =>
        refine hold.congr (fun x => ?_) fun _ _ => rfl
        rw [honLoc, iff_self_and]
        exact hnot (by rw [hkind]; rfl) _ x
    · rw [hchan, update_of_ne hc] at hch'
      have hold := hw.locmembers c ch' hch'
      have hne : ∀ x, OnLocmembers w c x → x ≠ m := by
        rintro x ⟨y, hy, rfl, -⟩ rfl
        exact hc (by rw [some.inj (hy.symm.trans hms)])
      have hiff : ∀ x, OnLocmembers w c x ↔ OnLocmembers w' c x := fun x => by
        rw [honLoc, iff_self_and]
        exact hne x
      rw [hloc]
      split_ifs with hme
      · cases hmy : (w.client ms.client_p).kind.myClient with
        | true =>
          exact ((hw.locmembers _ ch hch).delete_other ⟨ms, hms, rfl, hmy⟩ hold
            fun x hx hx' => hc (hx.ne hx')).congr hiff fun _ _ => rfl
        | false =>
          exact hold.congr hiff fun x hx =>
            delete_frame_of_unlinked (hw.unlinked m ms hms hmy) _ (hne x hx)
      · exact hold.congr hiff fun _ _ => rfl
  · rw [hclient] at hmy
    obtain ⟨hy, hx⟩ := (hmem x y).mp hy
    rw [hloc, ← hw.unlinked x y hy hmy]
    split_ifs with hme
    · cases hmy' : (w.client ms.client_p).kind.myClient with
      | true =>
        exact (hw.locmembers _ ch hch).delete_frame ⟨ms, hms, rfl, hmy'⟩
          (not_onLocmembers hy hmy _)
      | false => exact delete_frame_of_unlinked (hw.unlinked m ms hms hmy') _ hx
    · rfl
  · exact hw.unique x x' y y' ((hmem x y).mp hy).1 ((hmem x' y').mp hy').1 hc hu
  · obtain ⟨hy, hx⟩ := (hmem x y).mp hy
    rw [hchan]
    by_cases hc : y.chptr = ms.chptr
    · rw [hc, update_self, if_neg fun h => hx (hcount.mp h x y hy hc)]
      exact ⟨_, rfl⟩
    · rw [update_of_ne hc]
      exact hw.chan x y hy
  · rw [show w'.fresh = w.fresh by rw [heq]]
    exact hw.lt_fresh x y ((hmem x y).mp hy).1
  · rw [hchan, update_self, ← hcount]
    simp

/-- The memberships after one is removed. -/
theorem mem_removeMember (hch : w.chan ms.chptr = some ch) (x : ℕ) (y : Membership) :
    (removeMember w m ms).mem x = some y ↔ w.mem x = some y ∧ x ≠ m := by
  rw [removeMember_eq hch]
  by_cases hx : x = m <;> simp [hx]

/-- A channel that goes on has a member left. -/
theorem Populated.removeMember (hp : Populated w) (hw : ChanLinked w) (hms : w.mem m = some ms)
    (hsole : (removeMember w m ms).chan ms.chptr = none ↔ Sole w m ms.chptr) :
    Populated (removeMember w m ms) := by
  obtain ⟨ch, hch⟩ := hw.chan m ms hms
  intro c ch' hch'
  by_cases hc : c = ms.chptr
  · have hnot : ¬Sole w m ms.chptr := by
      rw [← hsole, ← hc, hch']
      exact some_ne_none ch'
    simp only [Sole, not_forall] at hnot
    obtain ⟨m', ms', hms', hc', hne⟩ := hnot
    exact ⟨m', ms', (mem_removeMember hch ..).mpr ⟨hms', hne⟩, hc'.trans hc.symm⟩
  · have hold : w.chan c = some ch' := by
      rw [removeMember_eq hch] at hch'
      simpa [update_of_ne hc] using hch'
    obtain ⟨m', ms', hms', hc'⟩ := hp c ch' hold
    refine ⟨m', ms', (mem_removeMember hch ..).mpr ⟨hms', ?_⟩, hc'⟩
    rintro rfl
    exact hc (hc'.symm.trans (by rw [some.inj (hms'.symm.trans hms)]))

/-- The lists of the channels do not depend on those of the clients. -/
theorem ChanLinked.setUserChannel (hw : ChanLinked w) (u : ℕ) (l : DList ℕ)
    (h : Dlink.Heap ℕ) : ChanLinked { w.setUserChannel u l with usernode := h } where
  members := hw.members
  locmembers c ch hch := (hw.locmembers c ch hch).congr
    (fun x => by simp [OnLocmembers]; rfl) fun _ _ => rfl
  unlinked m ms hms hmy := hw.unlinked m ms hms (by simpa using hmy)
  unique := hw.unique
  chan := hw.chan
  lt_fresh := hw.lt_fresh
  length_lt := hw.length_lt

theorem client_removeMember (w : World) (m : ℕ) (ms : Membership) :
    (removeMember w m ms).client = w.client ∧ (removeMember w m ms).usernode = w.usernode ∧
      (removeMember w m ms).fresh = w.fresh := by
  cases hch : w.chan ms.chptr with
  | none => simp [removeMember, hch]
  | some ch => simp [removeMember_eq hch]

/-- **Leaving a channel.** -/
theorem Linked.removeUserFromChannel (hw : Linked w) (hp : Populated w) (hms : w.mem m = some ms)
    (hok : (w.client ms.client_p).kind = .fakeUser → Sole w m ms.chptr) :
    Linked (removeUserFromChannel w m) ∧ Populated (removeUserFromChannel w m) := by
  obtain ⟨ch, hch⟩ := hw.chan m ms hms
  have hon : OnUser w ms.client_p m := ⟨ms, hms, rfl⟩
  rw [Channel.removeUserFromChannel, hms]
  simp only
  set w₁ : World := { w.setUserChannel ms.client_p
      (delete w.usernode m (w.client ms.client_p).channel).2 with
    usernode := (delete w.usernode m (w.client ms.client_p).channel).1 } with hw₁
  have hlinked₁ : ChanLinked w₁ := hw.toChanLinked.setUserChannel ..
  obtain ⟨hlinked, hsole⟩ := hlinked₁.removeMember hms fun h => hok (by simpa [hw₁] using h)
  have hpop₁ : Populated w₁ := hp
  obtain ⟨hclient, husernode, -⟩ := client_removeMember w₁ m ms
  refine ⟨⟨hlinked, fun u => ?_⟩, hpop₁.removeMember hlinked₁ hms hsole⟩
  have honUser : ∀ x, OnUser w u x ∧ x ≠ m ↔ OnUser (removeMember w₁ m ms) u x := by
    intro x
    simp only [OnUser, mem_removeMember (w := w₁) hch]
    exact ⟨fun ⟨⟨y, hy, h⟩, hx⟩ => ⟨y, ⟨hy, hx⟩, h⟩, fun ⟨y, ⟨hy, hx⟩, h⟩ => ⟨⟨y, hy, h⟩, hx⟩⟩
  rw [hclient, husernode]
  by_cases hu : u = ms.client_p
  · have hchannel : (w₁.client u).channel =
        (delete w.usernode m (w.client ms.client_p).channel).2 := by
      simp [hw₁, setUserChannel, hu]
    rw [hchannel]
    refine ((hw.userChannel _).delete hon).congr (fun x => ?_) fun _ _ => rfl
    rw [← hu]
    exact honUser x
  · have hchannel : (w₁.client u).channel = (w.client u).channel := by
      simp [hw₁, setUserChannel, update_of_ne hu]
    rw [hchannel]
    refine ((hw.userChannel _).delete_other hon (hw.userChannel u)
      fun x hx hx' => hu (hx.ne hx')).congr (fun x => ?_) fun _ _ => rfl
    rw [← honUser, iff_self_and]
    rintro hx rfl
    exact hu (hx.ne hon)

/-- The loop of `remove_user_from_channels`: the memberships `ids` of one client go. -/
theorem ChanLinked.removeTurns {ids : List ℕ} (hw : ChanLinked w) (hp : Populated w)
    (hids : ∀ m ∈ ids, OnUser w u m) (hnd : ids.Nodup)
    (hok : (w.client u).kind = .fakeUser → ∀ m ∈ ids, ∀ ms, w.mem m = some ms →
      Sole w m ms.chptr) :
    ChanLinked (ids.foldl removeTurn w) ∧ Populated (ids.foldl removeTurn w) ∧
      (∀ x y, (ids.foldl removeTurn w).mem x = some y ↔ w.mem x = some y ∧ x ∉ ids) ∧
      (ids.foldl removeTurn w).client = w.client ∧
      (ids.foldl removeTurn w).usernode = w.usernode := by
  induction ids generalizing w with
  | nil => exact ⟨hw, hp, by simp, rfl, rfl⟩
  | cons m ids ih =>
    obtain ⟨ms, hms, hu⟩ := hids m mem_cons_self
    obtain ⟨hm, hnd⟩ := nodup_cons.mp hnd
    obtain ⟨ch, hch⟩ := hw.chan m ms hms
    obtain ⟨hlinked, hsole⟩ := hw.removeMember hms fun h =>
      hok (hu ▸ h) m mem_cons_self ms hms
    have hpop := hp.removeMember hw hms hsole
    obtain ⟨hclient, husernode, -⟩ := client_removeMember w m ms
    have hmem := fun x y => mem_removeMember hch (m := m) x y
    have hturn : removeTurn w m = Channel.removeMember w m ms := by rw [removeTurn, hms]
    rw [foldl_cons, hturn]
    have hids' : ∀ x ∈ ids, OnUser (Channel.removeMember w m ms) u x := by
      intro x hx
      obtain ⟨y, hy, hyu⟩ := hids x (mem_cons_of_mem m hx)
      exact ⟨y, (hmem x y).mpr ⟨hy, ne_of_mem_of_not_mem hx hm⟩, hyu⟩
    -- a channel that was left to the client still is
    obtain ⟨h₁, h₂, h₃, h₄, h₅⟩ := ih hlinked hpop hids' hnd fun hfake x hx y hy m' ms' hms' =>
      hok (hclient ▸ hfake) x (mem_cons_of_mem m hx) y ((hmem x y).mp hy).1 m' ms'
        ((hmem m' ms').mp hms').1
    refine ⟨h₁, h₂, fun x y => ?_, h₄.trans hclient, h₅.trans husernode⟩
    rw [h₃, hmem, mem_cons, not_or, and_assoc]

/-- **Leaving all channels.** -/
theorem Linked.removeUserFromChannels (hw : Linked w) (hp : Populated w)
    (hok : (w.client u).kind = .fakeUser → ∀ m ms, w.mem m = some ms → ms.client_p = u →
      Sole w m ms.chptr) :
    Linked (removeUserFromChannels w u) ∧ Populated (removeUserFromChannels w u) := by
  obtain ⟨ids, hids, hmem⟩ := hw.userChannel u
  have hlt : ∀ x ∈ ids, x < w.fresh := fun x hx => by
    obtain ⟨ms, hms, -⟩ := (hmem x).mp hx
    exact hw.lt_fresh x ms hms
  have hwalk : walk w.usernode w.fresh (w.client u).channel.head = ids :=
    hids.walk (length_le_of_lt hids.nodup hlt)
  obtain ⟨hlinked, hpop, hmem', hclient, husernode⟩ := hw.toChanLinked.removeTurns hp
    (fun x hx => (hmem x).mp hx) hids.nodup fun hfake x hx ms hms => by
      obtain ⟨ms', hms', hu⟩ := (hmem x).mp hx
      cases hms.symm.trans hms'
      exact hok hfake x ms hms hu
  rw [Channel.removeUserFromChannels, hwalk]
  refine ⟨⟨hlinked.setUserChannel u .empty _, fun x => ?_⟩, hpop⟩
  have honUser : ∀ x m, OnUser (ids.foldl removeTurn w) x m ↔ OnUser w x m ∧ m ∉ ids := by
    intro x m
    simp only [OnUser, hmem']
    exact ⟨fun ⟨y, ⟨hy, hm⟩, h⟩ => ⟨⟨y, hy, h⟩, hm⟩, fun ⟨⟨y, hy, h⟩, hm⟩ => ⟨y, ⟨hy, hm⟩, h⟩⟩
  by_cases hx : x = u
  · have hchannel : (((ids.foldl removeTurn w).setUserChannel u .empty).client x).channel =
        .empty := by simp [setUserChannel, hx]
    rw [hchannel]
    refine holds_empty _ fun m hm => ?_
    obtain ⟨hon, hnot⟩ := (honUser x m).mp hm
    exact hnot ((hmem m).mpr (hx ▸ hon))
  · have hchannel : (((ids.foldl removeTurn w).setUserChannel u .empty).client x).channel =
        (w.client x).channel := by
      simp [setUserChannel, update_of_ne hx, hclient]
    rw [hchannel]
    refine (hw.userChannel x).congr (fun m => ?_) fun m _ => congrFun husernode m
    rw [show OnUser ((ids.foldl removeTurn w).setUserChannel u .empty) x m ↔
      OnUser (ids.foldl removeTurn w) x m from Iff.rfl, honUser, iff_self_and]
    exact fun hon hm => hx (hon.ne ((hmem m).mp hm))

/-- The memberships of the client are gone, and the others are as they were. -/
theorem Linked.mem_removeUserFromChannels (hw : Linked w) (hp : Populated w)
    (hu : (w.client u).kind ≠ .fakeUser) :
    (∀ x y, (Channel.removeUserFromChannels w u).mem x = some y ↔ w.mem x = some y ∧
      y.client_p ≠ u) ∧ (Channel.removeUserFromChannels w u).client =
        update w.client u { w.client u with channel := .empty } := by
  obtain ⟨ids, hids, hmem⟩ := hw.userChannel u
  have hlt : ∀ x ∈ ids, x < w.fresh := fun x hx => by
    obtain ⟨ms, hms, -⟩ := (hmem x).mp hx
    exact hw.lt_fresh x ms hms
  have hwalk : walk w.usernode w.fresh (w.client u).channel.head = ids :=
    hids.walk (length_le_of_lt hids.nodup hlt)
  obtain ⟨-, -, hmem', hclient, -⟩ := hw.toChanLinked.removeTurns hp
    (fun x hx => (hmem x).mp hx) hids.nodup fun hfake => absurd hfake hu
  rw [Channel.removeUserFromChannels, hwalk]
  refine ⟨fun x y => (hmem' x y).trans (and_congr_right fun hy => not_congr ?_), ?_⟩
  · rw [hmem, OnUser, hy]
    simp
  · rw [setUserChannel, hclient]

end Remove

/-! ### Changing the flags of a member -/

section Flags

variable {m : ℕ} {ms : Membership} {w' : World} {flags : MemberFlags}

/-- Changing flags, when the membership is on the lists that its new flags ask for. -/
private theorem linked_setMem (hw : Linked w)
    (hms : w.mem m = some ms) (hmem : w'.mem = w.mem) (hclient : w'.client = w.client)
    (husernode : w'.usernode = w.usernode) (hloc : w'.locchannode = w.locchannode)
    (hfresh : w'.fresh = w.fresh) (hcuts : w'.cuts = w.cuts)
    (hchan : ∀ c, (∃ ch, w.chan c = some ch) → ∃ ch, w'.chan c = some ch)
    (hlocmembers : ∀ c ch', w'.chan c = some ch' →
      ∃ ch, w.chan c = some ch ∧ ch'.locmembers = ch.locmembers)
    (hmembers : ∀ c ch', w'.chan c = some ch' → ∀ k, Holds w'.channode (ch'.members k)
      fun x => (x = m ∧ c = ms.chptr ∧ k = memlist flags) ∨ (x ≠ m ∧ OnMembers w c k x)) :
    Linked (w'.setMem m { ms with flags := flags }) := by
  set w₂ := w'.setMem m { ms with flags := flags } with hw₂
  have hmem₂ : ∀ x y, w₂.mem x = some y ↔
      (x = m ∧ y = { ms with flags := flags }) ∨ (x ≠ m ∧ w.mem x = some y) := by
    intro x y
    by_cases hx : x = m
    · simp [hw₂, setMem, hx, eq_comm]
    · simp [hw₂, setMem, hx, hmem]
  -- a membership keeps its channel and its client
  have hold : ∀ x y, w₂.mem x = some y →
      ∃ y', w.mem x = some y' ∧ y'.chptr = y.chptr ∧ y'.client_p = y.client_p := by
    intro x y hy
    rcases (hmem₂ x y).mp hy with ⟨rfl, rfl⟩ | ⟨-, hy⟩
    · exact ⟨ms, hms, rfl, rfl⟩
    · exact ⟨y, hy, rfl, rfl⟩
  have hnew : ∀ x y, w.mem x = some y →
      ∃ y', w₂.mem x = some y' ∧ y'.chptr = y.chptr ∧ y'.client_p = y.client_p := by
    intro x y hy
    by_cases hx : x = m
    · subst hx
      cases hms.symm.trans hy
      exact ⟨_, (hmem₂ ..).mpr (.inl ⟨rfl, rfl⟩), rfl, rfl⟩
    · exact ⟨y, (hmem₂ ..).mpr (.inr ⟨hx, hy⟩), rfl, rfl⟩
  refine ⟨⟨fun c ch' hch' k => ?_, fun c ch' hch' => ?_, fun x y hy hmy => ?_,
    fun x x' y y' hy hy' hc hu => ?_, fun x y hy => ?_, fun x y hy => ?_,
    hw.length_lt_of hcuts fun c ch' h => (hlocmembers c ch' h).imp fun _ h => h.1⟩, fun u => ?_⟩
  · refine (hmembers c ch' hch' k).congr (fun x => ?_) fun _ _ => rfl
    simp only [OnMembers, hmem₂]
    constructor
    · rintro (⟨rfl, rfl, rfl⟩ | ⟨hx, y, hy, h⟩)
      · exact ⟨_, Or.inl ⟨rfl, rfl⟩, rfl, rfl⟩
      · exact ⟨y, Or.inr ⟨hx, hy⟩, h⟩
    · rintro ⟨y, ⟨rfl, rfl⟩ | ⟨hx, hy⟩, rfl, rfl⟩
      · exact .inl ⟨rfl, rfl, rfl⟩
      · exact .inr ⟨hx, y, hy, rfl, rfl⟩
  · obtain ⟨ch, hch, hl⟩ := hlocmembers c ch' hch'
    rw [hl]
    refine (hw.locmembers c ch hch).congr (fun x => ?_) fun x _ => congrFun hloc x
    have hclient₂ : w₂.client = w.client := hclient
    simp only [OnLocmembers, hclient₂]
    constructor
    · rintro ⟨y, hy, hc, hmy⟩
      obtain ⟨y', hy', hc', hu'⟩ := hnew x y hy
      exact ⟨y', hy', hc'.trans hc, hu' ▸ hmy⟩
    · rintro ⟨y, hy, hc, hmy⟩
      obtain ⟨y', hy', hc', hu'⟩ := hold x y hy
      exact ⟨y', hy', hc'.trans hc, hu' ▸ hmy⟩
  · obtain ⟨y', hy', -, hu'⟩ := hold x y hy
    have hclient₂ : w₂.client = w.client := hclient
    rw [show w₂.locchannode = w.locchannode from hloc]
    exact hw.unlinked x y' hy' (by rw [hu', ← hclient₂]; exact hmy)
  · obtain ⟨z, hz, hzc, hzu⟩ := hold x y hy
    obtain ⟨z', hz', hzc', hzu'⟩ := hold x' y' hy'
    exact hw.unique x x' z z' hz hz' (by rw [hzc, hzc', hc]) (by rw [hzu, hzu', hu])
  · obtain ⟨z, hz, hzc, -⟩ := hold x y hy
    exact hchan _ (hzc ▸ hw.chan x z hz)
  · obtain ⟨z, hz, -, -⟩ := hold x y hy
    rw [show w₂.fresh = w.fresh from hfresh]
    exact hw.lt_fresh x z hz
  · rw [show w₂.client = w.client from hclient]
    refine (hw.userChannel u).congr (fun x => ?_) fun x _ => congrFun husernode x
    constructor
    · rintro ⟨y, hy, hu⟩
      obtain ⟨y', hy', -, hu'⟩ := hnew x y hy
      exact ⟨y', hy', hu'.trans hu⟩
    · rintro ⟨y, hy, hu⟩
      obtain ⟨y', hy', -, hu'⟩ := hold x y hy
      exact ⟨y', hy', hu'.trans hu⟩

/-- The flags change, but not the list that they ask for. -/
theorem Linked.setFlags (hw : Linked w) (hms : w.mem m = some ms)
    (hk : memlist flags = memlist ms.flags) :
    Linked (w.setMem m { ms with flags := flags }) := by
  refine linked_setMem hw hms rfl rfl rfl rfl rfl rfl (fun c h => h) (fun c ch h => ⟨ch, h, rfl⟩)
    fun c ch hch k => (hw.members c ch hch k).congr (fun x => ?_) fun _ _ => rfl
  by_cases hx : x = m
  · subst hx
    constructor
    · rintro ⟨y, hy, rfl, rfl⟩
      cases hms.symm.trans hy
      exact .inl ⟨rfl, rfl, hk.symm⟩
    · rintro (⟨-, rfl, rfl⟩ | ⟨hx, -⟩)
      · exact ⟨ms, hms, rfl, hk.symm⟩
      · exact absurd rfl hx
  · simp [hx]

theorem moveChannode_eq {c : Str} {ch : Chan} (hch : w.chan c = some ch) (m : ℕ)
    (k k' : MemberList) :
    moveChannode w m c k k' = { w with
      chan := update w.chan c (some { ch with
        members := update
          (update ch.members k
            (moveNode w.channode m (ch.members k) (ch.members k')).2.1) k'
            (moveNode w.channode m (ch.members k) (ch.members k')).2.2 })
      channode := (moveNode w.channode m (ch.members k) (ch.members k')).1 } := by
  simp only [moveChannode, hch]
  rfl

/-- The flags change together with the list. -/
theorem Linked.moveMember (hw : Linked w) (hms : w.mem m = some ms) (flags : MemberFlags)
    (hne : memlist flags ≠ memlist ms.flags) :
    Linked ((moveChannode w m ms.chptr (memlist ms.flags) (memlist flags)).setMem m
      { ms with flags := flags }) := by
  obtain ⟨ch, hch⟩ := hw.chan m ms hms
  have hm : OnMembers w ms.chptr (memlist ms.flags) m := ⟨ms, hms, rfl, rfl⟩
  have hdisj : ∀ x, OnMembers w ms.chptr (memlist flags) x →
      ¬OnMembers w ms.chptr (memlist ms.flags) x := fun x hx hx' => hne (hx.ne hx').2
  obtain ⟨hold, hnew⟩ := (hw.members _ ch hch _).moveNode hm (hw.members _ ch hch _) hdisj
  rw [moveChannode_eq hch]
  refine linked_setMem hw hms rfl rfl rfl rfl rfl rfl (fun c hc => ?_) (fun c ch' hch' => ?_)
    fun c ch' hch' k => ?_
  · by_cases hcm : c = ms.chptr
    · subst hcm
      exact ⟨_, update_self ..⟩
    · simpa only [update_of_ne hcm] using hc
  · by_cases hcm : c = ms.chptr
    · subst hcm
      dsimp only at hch'
      rw [update_self] at hch'
      exact ⟨ch, hch, by rw [← some.inj hch']⟩
    · exact ⟨ch', by simpa only [update_of_ne hcm] using hch', rfl⟩
  · -- a list the membership is neither taken off nor put on
    have hother : ∀ ch₀, w.chan c = some ch₀ → ¬(c = ms.chptr ∧ k = memlist ms.flags) →
        ¬(c = ms.chptr ∧ k = memlist flags) →
        Holds (moveNode w.channode m (ch.members (memlist ms.flags))
          (ch.members (memlist flags))).1 (ch₀.members k)
          fun x => (x = m ∧ c = ms.chptr ∧ k = memlist flags) ∨ (x ≠ m ∧ OnMembers w c k x) := by
      intro ch₀ hch₀ hk hk'
      refine ((hw.members _ ch hch _).moveNode_other hm (hw.members _ ch hch _)
        (hw.members c ch₀ hch₀ k) fun x hx => ⟨fun hx' => hk (hx.ne hx'),
          fun hx' => hk' (hx.ne hx')⟩).congr (fun x => ?_) fun _ _ => rfl
      simp only [hk', and_false, false_or, iff_and_self]
      rintro hx rfl
      exact hk (hx.ne hm)
    by_cases hcm : c = ms.chptr
    · subst hcm
      simp only [update_self, some.injEq] at hch'
      subst hch'
      by_cases hk' : k = memlist flags
      · subst hk'
        simp only [update_self]
        refine hnew.congr (fun x => ?_) fun _ _ => rfl
        by_cases hx : x = m <;> simp [hx]
      · by_cases hk : k = memlist ms.flags
        · subst hk
          simp only [update_of_ne hk', update_self]
          refine hold.congr (fun x => ?_) fun _ _ => rfl
          simp [hk', and_comm]
        · simp only [update_of_ne hk', update_of_ne hk]
          refine (hother ch hch (fun h => hk h.2) fun h => hk' h.2).congr (fun x => ?_)
            fun _ _ => rfl
          simp
    · dsimp only at hch'
      rw [update_of_ne hcm] at hch'
      exact hother ch' hch' (fun h => hcm h.1) fun h => hcm h.1

theorem Populated.setMem (hp : Populated w) (hms : w.mem m = some ms)
    (hmem : w'.mem = w.mem) (hchan : ∀ c ch', w'.chan c = some ch' → ∃ ch, w.chan c = some ch)
    (flags : MemberFlags) : Populated (w'.setMem m { ms with flags := flags }) := by
  intro c ch' hch'
  obtain ⟨ch, hch⟩ := hchan c ch' hch'
  obtain ⟨x, y, hy, hc⟩ := hp c ch hch
  by_cases hx : x = m
  · subst hx
    cases hms.symm.trans hy
    exact ⟨x, { ms with flags := flags }, by simp [setMem], hc⟩
  · exact ⟨x, y, by simpa [World.setMem, hx, hmem] using hy, hc⟩

theorem chan_moveChannode (w : World) (m : ℕ) (c : Str) (k k' : MemberList) (c' : Str) :
    (moveChannode w m c k k').mem = w.mem ∧
      ∀ ch', (moveChannode w m c k k').chan c' = some ch' → ∃ ch, w.chan c' = some ch := by
  cases hch : w.chan c with
  | none => exact ⟨by simp [moveChannode, hch], fun ch' h => ⟨ch', by simpa [moveChannode,
    hch] using h⟩⟩
  | some ch =>
    rw [moveChannode_eq hch]
    refine ⟨rfl, fun ch' h => ?_⟩
    by_cases hc : c' = c
    · exact ⟨ch, hc ▸ hch⟩
    · exact ⟨ch', by simpa only [update_of_ne hc] using h⟩

/-- **Opping and deopping.** -/
theorem Linked.chmOp (hw : Linked w) (hp : Populated w) (hms : w.mem m = some ms) (add : Bool) :
    Linked (chmOp w m add) ∧ Populated (chmOp w m add) := by
  have hnoop : memlist ms.flags = .noop ↔ ms.flags.chanop = false := by
    cases h : ms.flags.chanop <;> simp [memlist, h]
  have hop : memlist ms.flags = .op ↔ ms.flags.chanop = true := by
    cases h : ms.flags.chanop <;> simp [memlist, h]
  simp only [Channel.chmOp, hms]
  cases add with
  | true =>
    simp only [↓reduceIte]
    split_ifs with hchanop
    · exact ⟨hw.setFlags hms (hop.mpr hchanop).symm, hp.setMem hms rfl (fun c ch h => ⟨ch, h⟩) _⟩
    · have hk := hnoop.mpr (Bool.not_eq_true _ ▸ hchanop)
      have hmove := hw.moveMember hms { ms.flags with chanop := true, deopped := false }
        (by rw [hk]; simp [memlist])
      rw [hk] at hmove
      exact ⟨hmove, hp.setMem hms (chan_moveChannode w m _ _ _ ms.chptr).1
        (fun c => (chan_moveChannode w m _ _ _ c).2) _⟩
  | false =>
    simp only [Bool.false_eq_true, ↓reduceIte]
    split_ifs with hchanop
    · have hk := hop.mpr hchanop
      have hmove := hw.moveMember hms { ms.flags with chanop := false }
        (by rw [hk]; simp [memlist])
      rw [hk] at hmove
      exact ⟨hmove, hp.setMem hms (chan_moveChannode w m _ _ _ ms.chptr).1
        (fun c => (chan_moveChannode w m _ _ _ c).2) _⟩
    · exact ⟨hw.setFlags hms (hnoop.mpr (Bool.not_eq_true _ ▸ hchanop)).symm,
        hp.setMem hms rfl (fun c ch h => ⟨ch, h⟩) _⟩

end Flags

/-! ### Finding a member -/

/-- Looking for the one element of a list that satisfies a test. -/
private theorem find?_eq_some_iff_of_unique {xs : List ℕ} {p : ℕ → Bool}
    (hunique : ∀ x ∈ xs, ∀ y ∈ xs, p x = true → p y = true → x = y) (m : ℕ) :
    xs.find? p = some m ↔ m ∈ xs ∧ p m = true := by
  constructor
  · exact fun h => ⟨mem_of_find?_eq_some h, find?_some h⟩
  · rintro ⟨hm, hpm⟩
    cases hfind : xs.find? p with
    | none => exact absurd hpm (find?_eq_none.mp hfind m hm)
    | some y =>
      rw [hunique y (mem_of_find?_eq_some hfind) m hm (find?_some hfind) hpm]

/-- A membership of the client `u` in the channel `c`. -/
def IsMember (w : World) (c : Str) (u m : ℕ) : Prop :=
  ∃ ms, w.mem m = some ms ∧ ms.chptr = c ∧ ms.client_p = u

section

variable (hw : Linked w)
include hw

theorem Linked.isMember_unique {u m' : ℕ} (h : IsMember w c u m)
    (h' : IsMember w c u m') : m = m' := by
  obtain ⟨ms, hms, hc, hu⟩ := h
  obtain ⟨ms', hms', hc', hu'⟩ := h'
  exact hw.unique m m' ms ms' hms hms' (hc.trans hc'.symm) (hu.trans hu'.symm)

theorem Linked.findByUser_eq_some_iff (c : Str) (u m : ℕ) :
    findByUser w c u = some m ↔ IsMember w c u m := by
  have hwalk := (hw.userChannel u).mem_walk (n := w.fresh) fun x ⟨y, hy, _⟩ => hw.lt_fresh x y hy
  have hmem : ∀ x, (x ∈ walk w.usernode w.fresh (w.client u).channel.head ∧
      (w.mem x).any (fun ms => ms.chptr == c) = true) ↔ IsMember w c u x := by
    intro x
    rw [hwalk]
    constructor
    · rintro ⟨⟨y, hy, hu⟩, hc⟩
      exact ⟨y, hy, by simpa [hy] using hc, hu⟩
    · rintro ⟨y, hy, hc, hu⟩
      exact ⟨⟨y, hy, hu⟩, by simp [hy, hc]⟩
  rw [findByUser, find?_eq_some_iff_of_unique fun x hx y hy hpx hpy =>
    hw.isMember_unique ((hmem x).mp ⟨hx, hpx⟩) ((hmem y).mp ⟨hy, hpy⟩), hmem]

/-- Looking for a client on one of the two lists of members. -/
private theorem Linked.find?_members (hch : w.chan c = some ch) (k : MemberList) (u m : ℕ) :
    ((walk w.channode w.fresh (ch.members k).head).find? fun msptr =>
      (w.mem msptr).any fun ms => ms.client_p == u) = some m ↔
      IsMember w c u m ∧ OnMembers w c k m := by
  have hwalk := (hw.members c ch hch k).mem_walk (n := w.fresh)
    fun x ⟨y, hy, _⟩ => hw.lt_fresh x y hy
  have hmem : ∀ x, (x ∈ walk w.channode w.fresh (ch.members k).head ∧
      (w.mem x).any (fun ms => ms.client_p == u) = true) ↔
      IsMember w c u x ∧ OnMembers w c k x := by
    intro x
    rw [hwalk]
    constructor
    · rintro ⟨⟨y, hy, hc, hk⟩, hu⟩
      exact ⟨⟨y, hy, hc, by simpa [hy] using hu⟩, ⟨y, hy, hc, hk⟩⟩
    · rintro ⟨⟨y, hy, hc, hu⟩, hon⟩
      exact ⟨hon, by simp [hy, hu]⟩
  rw [find?_eq_some_iff_of_unique fun x hx y hy hpx hpy =>
    hw.isMember_unique ((hmem x).mp ⟨hx, hpx⟩).1 ((hmem y).mp ⟨hy, hpy⟩).1, hmem]

theorem Linked.findByMembers_eq_some_iff (hch : w.chan c = some ch) (u m : ℕ) :
    findByMembers w ch u = some m ↔ IsMember w c u m := by
  have hnoop := hw.find?_members hch .noop u
  have hop := hw.find?_members hch .op u
  rw [findByMembers]
  cases hfind : (walk w.channode w.fresh (ch.members .noop).head).find? fun msptr =>
      (w.mem msptr).any fun ms => ms.client_p == u with
  | some x =>
    have hx := ((hnoop x).mp hfind).1
    change some x = some m ↔ _
    exact ⟨fun h => some.inj h ▸ hx, fun h => congrArg some (hw.isMember_unique hx h)⟩
  | none =>
    refine (hop m).trans ⟨fun h => h.1, fun h => ⟨h, ?_⟩⟩
    obtain ⟨y, hy, hc, hu⟩ := h
    cases hk : memlist y.flags with
    | op => exact ⟨y, hy, hc, hk⟩
    | noop =>
      have := (hnoop m).mpr ⟨⟨y, hy, hc, hu⟩, ⟨y, hy, hc, hk⟩⟩
      rw [hfind] at this
      cases this

/-- **Both searches of `find_channel_membership` find the same.** -/
theorem Linked.findByMembers_eq (hch : w.chan c = some ch)
    (u : ℕ) : findByMembers w ch u = findByUser w c u := by
  refine ext fun m => ?_
  rw [hw.findByMembers_eq_some_iff hch, hw.findByUser_eq_some_iff]

theorem Linked.findChannelMembership_eq_some_iff {u : ℕ}
    (hu : (w.client u).kind.isClient = true) (m : ℕ) :
    findChannelMembership w c u = some m ↔ IsMember w c u m := by
  rw [findChannelMembership, hu]
  cases hch : w.chan c with
  | none =>
    simp only [Bool.not_true, Bool.false_eq_true, ↓reduceIte]
    refine iff_of_false (by simp) ?_
    rintro ⟨ms, hms, rfl, -⟩
    obtain ⟨ch, hch'⟩ := hw.chan m ms hms
    rw [hch] at hch'
    cases hch'
  | some ch =>
    simp only [Bool.not_true, Bool.false_eq_true, ↓reduceIte]
    rw [hw.findByMembers_eq hch, ite_self, hw.findByUser_eq_some_iff]

end

/-! ### Runs -/

/-- Clients of any kinds, without channels. -/
def World.init (clients : ℕ → Client) : World where
  client u := { clients u with channel := .empty }
  chan _ := none
  cuts := 0
  mem _ := none
  channode _ := ⟨none, none⟩
  locchannode _ := ⟨none, none⟩
  usernode _ := ⟨none, none⟩
  fresh := 0

/-- What the commands do to memberships: a client joins a channel, with the flags that it gets
there, leaves one or all, and is opped or deopped. -/
inductive Op
  | join (chname : Str) (now : ℤ) (client_p : ℕ) (flags : MemberFlags)
  | part (chptr : Str) (client_p : ℕ)
  | quit (client_p : ℕ)
  | chmOp (chptr : Str) (client_p : ℕ) (add : Bool)
  deriving DecidableEq

/-- The client that an operation is about. -/
def Op.client : Op → ℕ
  | .join _ _ client_p _ => client_p
  | .part _ client_p => client_p
  | .quit client_p => client_p
  | .chmOp _ client_p _ => client_p

/-- Make an operation. Only clients join, and only where they are not members yet; the callers of
`add_user_to_channel` test both. -/
def step (w : World) : Op → Option World
  | .join chname now client_p flags => do
    let (w, chptr, _) ← getOrCreateChannel w chname now
    if !(w.client client_p).kind.isClient || (findChannelMembership w chptr client_p).isSome then
      none
    else some (addUserToChannel w chptr client_p flags)
  | .part chptr client_p => (findChannelMembership w chptr client_p).map (removeUserFromChannel w)
  | .quit client_p => some (removeUserFromChannels w client_p)
  | .chmOp chptr client_p add =>
    (findChannelMembership w chptr client_p).map fun msptr => chmOp w msptr add

/-- An operation that keeps the lists right: a fake client leaves only channels of which it is the
only member. -/
def LeavesLists (w : World) : Op → Prop
  | .part chptr client_p => (w.client client_p).kind = .fakeUser →
      ∀ m ms, w.mem m = some ms → ms.chptr = chptr → ms.client_p = client_p
  | .quit client_p => (w.client client_p).kind = .fakeUser →
      ∀ m ms m' ms', w.mem m = some ms → ms.client_p = client_p → w.mem m' = some ms' →
        ms'.chptr = ms.chptr → ms'.client_p = client_p
  | _ => True

theorem linked_init (clients : ℕ → Client) : Linked (init clients) where
  members _ _ h := absurd h (by simp [init])
  locmembers _ _ h := absurd h (by simp [init])
  unlinked _ _ h := absurd h (by simp [init])
  unique _ _ _ _ h := absurd h (by simp [init])
  chan _ _ h := absurd h (by simp [init])
  lt_fresh _ _ h := absurd h (by simp [init])
  length_lt _ _ h := absurd h (by simp [init])
  userChannel _ := holds_empty _ fun _ ⟨_, h, _⟩ => absurd h (by simp [init])

theorem populated_init (clients : ℕ → Client) : Populated (init clients) :=
  fun _ _ h => absurd h (by simp [init])

/-- A new channel has empty lists, and there are no memberships of it. -/
theorem Linked.setChan_fresh (hw : Linked w) {cuts : ℕ} (hc : w.chan c = none)
    (hle : w.cuts ≤ cuts) (hlt : c.length < channelLen + cuts) (chname : Str) (now : ℤ) :
    Linked { w.setChan c (.fresh chname now) with cuts := cuts } := by
  have hnot : ∀ x y, w.mem x = some y → y.chptr ≠ c := by
    rintro x y hy rfl
    obtain ⟨ch, hch⟩ := hw.chan x y hy
    rw [hc] at hch
    cases hch
  refine ⟨⟨fun c' ch' hch' k => ?_, fun c' ch' hch' => ?_, hw.unlinked, hw.unique, fun x y hy => ?_,
    hw.lt_fresh, fun c' ch' hch' => ?_⟩, hw.userChannel⟩
  · by_cases hcc : c' = c
    · subst hcc
      obtain rfl : Chan.fresh chname now = ch' := by simpa [setChan] using hch'
      exact holds_empty _ fun x ⟨y, hy, h, _⟩ => hnot x y hy h
    · exact hw.members c' ch' (by simpa [setChan, hcc] using hch') k
  · by_cases hcc : c' = c
    · subst hcc
      obtain rfl : Chan.fresh chname now = ch' := by simpa [setChan] using hch'
      exact holds_empty _ fun x ⟨y, hy, h, _⟩ => hnot x y hy h
    · exact hw.locmembers c' ch' (by simpa [setChan, hcc] using hch')
  · obtain ⟨ch, hch⟩ := hw.chan x y hy
    exact ⟨ch, by simpa [setChan, hnot x y hy] using hch⟩
  · by_cases hcc : c' = c
    · exact hcc ▸ hlt
    · have hold := hw.length_lt c' ch' (by simpa [setChan, hcc] using hch')
      exact hold.trans_le (Nat.add_le_add_left hle channelLen)

/-! ### Finding and making channels -/

theorem cutPtr_zero (key : Str) : cutPtr key 0 = key := append_nil key

theorem length_chanKey (chname : Str) :
    (chanKey chname).length = min (channelLen - 1) chname.length := by
  rw [chanKey, storedName, length_map, length_take]

/-- The channel that is found is there. -/
theorem isSome_of_newest {key : Str} {n : ℕ} (h : newest w key n = some c) :
    (w.chan c).isSome = true := by
  induction n with
  | zero =>
    obtain ⟨hsome, hc⟩ := ite_none_right_eq_some.mp h
    exact some.inj hc ▸ hsome
  | succ n ih =>
    rw [newest] at h
    split_ifs at h with hsome
    · exact some.inj h ▸ hsome
    · exact ih h

theorem newest_eq_none_iff {key : Str} {n : ℕ} :
    newest w key n = none ↔ ∀ i ≤ n, w.chan (cutPtr key i) = none := by
  induction n with
  | zero => simp [newest, cutPtr_zero]
  | succ n ih =>
    have hsplit : (∀ i ≤ n + 1, w.chan (cutPtr key i) = none) ↔
        w.chan (cutPtr key (n + 1)) = none ∧ ∀ i ≤ n, w.chan (cutPtr key i) = none := by
      simp only [Nat.le_succ_iff, or_imp, forall_and, forall_eq, and_comm]
    rw [hsplit, ← ih, newest]
    cases w.chan (cutPtr key (n + 1)) <;> simp

theorem chanPtr_of_find (h : findChannel w (chname.take channelLen) = some c) :
    chanPtr w chname = c := by simp [chanPtr, h]

theorem chanPtr_of_none (h : findChannel w (chname.take channelLen) = none) :
    chanPtr w chname =
      cutPtr (chanKey chname) (if channelLen ≤ chname.length then w.cuts + 1 else 0) := by
  simp [chanPtr, h]

/-- **The channel for a name**: it is found, or there is nothing where it is made. -/
theorem ChanLinked.chan_chanPtr (hw : ChanLinked w) (chname : Str) :
    (∃ ch, w.chan (chanPtr w chname) = some ch ∧
      findChannel w (chname.take channelLen) = some (chanPtr w chname)) ∨
    (w.chan (chanPtr w chname) = none ∧ findChannel w (chname.take channelLen) = none) := by
  cases hfind : findChannel w (chname.take channelLen) with
  | some c =>
    have hptr := chanPtr_of_find hfind
    have hnewest := hfind
    rw [findChannel] at hnewest
    split_ifs at hnewest
    all_goals
      obtain ⟨ch, hch⟩ := isSome_iff_exists.mp (isSome_of_newest hnewest)
      exact .inl ⟨ch, hptr ▸ hch, by rw [hptr]⟩
  | none =>
    refine .inr ⟨?_, rfl⟩
    rw [chanPtr_of_none hfind]
    split_ifs with hlong
    · -- the address is longer than those that are in use
      by_contra hne
      obtain ⟨ch, hch⟩ := ne_none_iff_exists'.mp hne
      have hlt := hw.length_lt _ ch hch
      rw [cutPtr, length_append, length_replicate, length_chanKey] at hlt
      rw [channelLen] at hlt hlong
      omega
    · have htake : chname.take channelLen = chname := take_of_length_le (not_le.mp hlong).le
      rw [findChannel, htake, if_neg hlong, newest_eq_none_iff] at hfind
      exact hfind 0 (Nat.zero_le _)

section

variable (hw : Linked w)
include hw

/-- **A channel is made.** -/
theorem Linked.makeChan
    (hnone : w.chan (chanPtr w chname) = none) (now : ℤ) : Linked (w.makeChan chname now) := by
  have hfind : findChannel w (chname.take channelLen) = none := by
    rcases hw.chan_chanPtr chname with ⟨ch, hch, -⟩ | ⟨-, hfind⟩
    · cases hnone.symm.trans hch
    · exact hfind
  refine hw.setChan_fresh hnone ?_ ?_ _ _
  · split_ifs <;> omega
  · rw [chanPtr_of_none hfind, cutPtr, length_append, length_replicate, length_chanKey,
      channelLen]
    split_ifs <;> omega

/-- The channel that a command finds or makes. -/
theorem Linked.getOrCreateChannel {now : ℤ} {isnew : Bool}
    {w₁ : World} (h : getOrCreateChannel w chname now = some (w₁, c, isnew)) :
    Linked w₁ ∧ (∃ ch, w₁.chan c = some ch) ∧ w₁.mem = w.mem ∧ w₁.client = w.client ∧
      ∀ c', c' ≠ c → w₁.chan c' = w.chan c' := by
  rw [Channel.getOrCreateChannel] at h
  split_ifs at h with hne
  rcases hw.chan_chanPtr chname with ⟨ch, hch, hfind⟩ | ⟨hnone, hfind⟩
  · simp only [hfind, some.injEq, Prod.mk.injEq] at h
    obtain ⟨rfl, rfl, -⟩ := h
    exact ⟨hw, ⟨ch, hch⟩, rfl, rfl, fun _ _ => rfl⟩
  · simp only [hfind, some.injEq, Prod.mk.injEq] at h
    obtain ⟨rfl, rfl, -⟩ := h
    exact ⟨hw.makeChan hnone now, ⟨_, update_self ..⟩, rfl, rfl,
      fun c' hc' => update_of_ne hc' ..⟩

/-- **Joining.** -/
theorem Linked.join (hp : Populated w) {now : ℤ} {u : ℕ}
    {flags : MemberFlags} (h : step w (.join chname now u flags) = some w') :
    Linked w' ∧ Populated w' := by
  obtain ⟨⟨w₁, c, isnew⟩, hget, h⟩ := bind_eq_some_iff.mp h
  obtain ⟨hw₁, ⟨ch, hch⟩, hmem, -, hchan⟩ := hw.getOrCreateChannel hget
  simp only [Bool.or_eq_true, Bool.not_eq_true', ite_none_left_eq_some, not_or,
    Bool.not_eq_false, some.injEq] at h
  obtain ⟨⟨hu, hnone⟩, rfl⟩ := h
  have hnew : ∀ m ms, w₁.mem m = some ms → ms.chptr = c → ms.client_p ≠ u := by
    intro m ms hms hc hcu
    have := (hw₁.findChannelMembership_eq_some_iff hu m).mpr ⟨ms, hms, hc, hcu⟩
    exact hnone (by rw [this]; rfl)
  refine ⟨hw₁.addUserToChannel hch hnew, fun c' ch' hch' => ?_⟩
  rw [mem_addUserToChannel hch]
  by_cases hc : c' = c
  · exact ⟨w₁.fresh, _, update_self .., hc.symm⟩
  · rw [chan_addUserToChannel hch, update_of_ne hc, hchan c' hc] at hch'
    obtain ⟨m, ms, hms, hcms⟩ := hp c' ch' hch'
    rw [← hmem] at hms
    exact ⟨m, ms, by rw [update_of_ne (hw₁.lt_fresh m ms hms).ne, hms], hcms⟩

theorem Linked.step (hp : Populated w) (hok : LeavesLists w op)
    (h : step w op = some w') : Linked w' ∧ Populated w' := by
  have hfound : ∀ {c u m}, findChannelMembership w c u = some m → IsMember w c u m := by
    intro c u m hm
    cases hu : (w.client u).kind.isClient with
    | true => exact (hw.findChannelMembership_eq_some_iff hu m).mp hm
    | false => simp [findChannelMembership, hu] at hm
  cases op with
  | join chname now client_p flags => exact hw.join hp h
  | part chptr client_p =>
    obtain ⟨m, hm, rfl⟩ := map_eq_some_iff.mp h
    obtain ⟨ms, hms, rfl, rfl⟩ := hfound hm
    exact hw.removeUserFromChannel hp hms fun hfake m' ms' hms' hc =>
      hw.unique m' m ms' ms hms' hms hc (hok hfake m' ms' hms' hc)
  | quit client_p =>
    rw [← some.inj h]
    exact hw.removeUserFromChannels hp fun hfake m ms hms hu m' ms' hms' hc =>
      hw.unique m' m ms' ms hms' hms hc ((hok hfake m ms m' ms' hms hu hms' hc).trans hu.symm)
  | chmOp chptr client_p add =>
    obtain ⟨m, hm, rfl⟩ := map_eq_some_iff.mp h
    obtain ⟨ms, hms, -, -⟩ := hfound hm
    exact hw.chmOp hp hms add

/-- A client that is on no channel is written. -/
theorem Linked.setClient {p : ℕ} (hp : ∀ m ms, w.mem m = some ms → ms.client_p ≠ p) {c : Client}
    (hc : c.channel = .empty) : Linked { w with client := update w.client p c } := by
  have hkind : ∀ m ms, w.mem m = some ms → update w.client p c ms.client_p = w.client ms.client_p :=
    fun m ms hms => update_of_ne (hp m ms hms) ..
  refine ⟨⟨hw.members, fun name ch hch => (hw.locmembers name ch hch).congr (fun m => ?_) fun _ _ =>
    rfl, fun m ms hms hmy => ?_, hw.unique, hw.chan, hw.lt_fresh, hw.length_lt⟩, fun u => ?_⟩
  · refine exists_congr fun ms => and_congr_right fun hms => and_congr_right fun _ => ?_
    dsimp only
    rw [hkind m ms hms]
  · dsimp only at hmy
    rw [hkind m ms hms] at hmy
    exact hw.unlinked m ms hms hmy
  · by_cases hu : u = p
    · subst hu
      dsimp only
      rw [update_self, hc]
      exact holds_empty _ fun m ⟨ms, hms, heq⟩ => hp m ms hms heq
    · dsimp only
      rw [update_of_ne hu]
      exact (hw.userChannel u).congr (fun _ => Iff.rfl) fun _ _ => rfl

/-- A client gets another name. -/
theorem Linked.setName (p : ℕ) (name : Str) :
    Linked { w with client := update w.client p { w.client p with name := name } } := by
  have hclient : ∀ u, (update w.client p { w.client p with name := name } u).kind =
      (w.client u).kind ∧ (update w.client p { w.client p with name := name } u).channel =
          (w.client u).channel := by
    intro u
    by_cases hu : u = p
    · rw [hu, update_self]
      exact ⟨rfl, rfl⟩
    · rw [update_of_ne hu]
      exact ⟨rfl, rfl⟩
  refine ⟨⟨hw.members, fun c ch hch => (hw.locmembers c ch hch).congr (fun m => ?_) fun _ _ => rfl,
    fun m ms hms hmy => ?_, hw.unique, hw.chan, hw.lt_fresh, hw.length_lt⟩, fun u => ?_⟩
  · refine exists_congr fun ms => and_congr_right fun _ => and_congr_right fun _ => ?_
    dsimp only
    rw [(hclient _).1]
  · dsimp only at hmy
    rw [(hclient _).1] at hmy
    exact hw.unlinked m ms hms hmy
  · dsimp only
    rw [(hclient u).2]
    exact (hw.userChannel u).congr (fun _ => Iff.rfl) fun _ _ => rfl

end

theorem client_chmOp (w : World) (m : ℕ) (add : Bool) : (chmOp w m add).client = w.client := by
  have hmove : ∀ c k k', (moveChannode w m c k k').client = w.client := by
    intro c k k'
    cases hch : w.chan c with
    | none => simp [moveChannode, hch]
    | some ch => rw [moveChannode_eq hch]
  cases hm : w.mem m with
  | none => simp [chmOp, hm]
  | some ms =>
    simp only [chmOp, hm]
    cases add with
    | true =>
      simp only [↓reduceIte]
      by_cases hop : ms.flags.chanop = true
      · simp only [if_pos hop]
        rfl
      · simp only [if_neg hop]
        exact hmove ms.chptr _ _
    | false =>
      simp only [Bool.false_eq_true, ↓reduceIte]
      by_cases hop : ms.flags.chanop = true
      · simp only [if_pos hop]
        exact hmove ms.chptr _ _
      · simp only [if_neg hop]
        rfl

/-- Only the flags of the membership change. -/
theorem mem_chmOp (w : World) (m : ℕ) (add : Bool) {m' : ℕ} {ms' : Membership}
    (h : (chmOp w m add).mem m' = some ms') :
    ∃ ms, w.mem m' = some ms ∧ ms.client_p = ms'.client_p := by
  cases hm : w.mem m with
  | none =>
    simp only [chmOp, hm] at h
    exact ⟨ms', h, rfl⟩
  | some ms =>
    have hset : ∀ (w' : World) (flags : MemberFlags), w'.mem = w.mem →
        (w'.setMem m { ms with flags := flags }).mem m' = some ms' → ∃ ms, w.mem m' = some ms ∧
            ms.client_p = ms'.client_p := by
      intro w' flags hw' hmem
      rw [setMem] at hmem
      dsimp only at hmem
      rw [hw', update_apply] at hmem
      split_ifs at hmem with heq
      · cases hmem
        exact ⟨ms, heq ▸ hm, rfl⟩
      · exact ⟨ms', hmem, rfl⟩
    have hmove : ∀ k k', (moveChannode w m ms.chptr k k').mem = w.mem := fun k k' =>
      (chan_moveChannode w m ms.chptr k k' ms.chptr).1
    simp only [chmOp, hm] at h
    cases add with
    | true =>
      simp only [↓reduceIte] at h
      split_ifs at h
      · exact hset w _ rfl h
      · exact hset _ _ (hmove ..) h
    | false =>
      simp only [Bool.false_eq_true, ↓reduceIte] at h
      split_ifs at h
      · exact hset _ _ (hmove ..) h
      · exact hset w _ rfl h

/-- The steps write the channel lists of the clients only. -/
theorem Linked.client_step (hw : Linked w) (hp : Populated w)
    (hfake : (w.client op.client).kind ≠ .fakeUser) (h : Channel.step w op = some w') (q : ℕ) :
    w'.client q = { w.client q with channel := (w'.client q).channel } := by
  have hset : ∀ (w : World) (c : ℕ) (l : DList ℕ),
      (w.setUserChannel c l).client q = { w.client q with
          channel := ((w.setUserChannel c l).client q).channel } := by
    intro w c l
    rw [setUserChannel]
    dsimp only
    by_cases hq : q = c
    · subst hq
      rw [update_self]
    · rw [update_of_ne hq]
  cases op with
  | join chname now c flags =>
    obtain ⟨⟨w₁, name, isnew⟩, hget, h⟩ := bind_eq_some_iff.mp h
    obtain ⟨-, ⟨ch, hch⟩, -, hclient, -⟩ := hw.getOrCreateChannel hget
    dsimp only at h
    split_ifs at h
    cases h
    rw [← hclient, Channel.addUserToChannel, hch]
    exact hset w₁ c _
  | part chptr c =>
    obtain ⟨m, -, rfl⟩ := map_eq_some_iff.mp h
    rw [Channel.removeUserFromChannel]
    cases hm : w.mem m with
    | none => rfl
    | some ms =>
      dsimp only
      rw [(client_removeMember _ m ms).1]
      exact hset w ms.client_p _
  | quit c =>
    cases h
    rw [(hw.mem_removeUserFromChannels (u := c) hp hfake).2]
    by_cases hq : q = c
    · subst hq
      rw [update_self]
    · rw [update_of_ne hq]
  | chmOp chptr c add =>
    obtain ⟨m, -, rfl⟩ := map_eq_some_iff.mp h
    rw [client_chmOp]

/-- A membership after a step is one of a client that had one before, or that of a client that
joins. -/
theorem Linked.mem_step (hw : Linked w) (hp : Populated w)
    (hfake : (w.client op.client).kind ≠ .fakeUser) (h : Channel.step w op = some w')
    (hms : w'.mem m = some ms) :
    (∃ m₀ ms₀, w.mem m₀ = some ms₀ ∧ ms₀.client_p = ms.client_p) ∨
      (ms.client_p = op.client ∧ (w.client op.client).kind.isClient = true) := by
  cases op with
  | join chname now c flags =>
    obtain ⟨⟨w₁, name, isnew⟩, hget, h⟩ := bind_eq_some_iff.mp h
    obtain ⟨-, ⟨ch, hch⟩, hmem, hclient, -⟩ := hw.getOrCreateChannel hget
    dsimp only at h
    split_ifs at h with hjoin
    cases h
    rw [mem_addUserToChannel hch, hmem, update_apply] at hms
    split_ifs at hms with hm
    · cases hms
      rw [hclient, Bool.or_eq_true, not_or, Bool.not_eq_true', Bool.not_eq_false] at hjoin
      exact .inr ⟨rfl, hjoin.1⟩
    · exact .inl ⟨m, ms, hms, rfl⟩
  | part chptr c =>
    obtain ⟨m₀, -, rfl⟩ := map_eq_some_iff.mp h
    rw [Channel.removeUserFromChannel] at hms
    cases hm₀ : w.mem m₀ with
    | none =>
      simp only [hm₀] at hms
      exact .inl ⟨m, ms, hms, rfl⟩
    | some ms₀ =>
      simp only [hm₀] at hms
      obtain ⟨ch, hch⟩ := hw.chan m₀ ms₀ hm₀
      have hmem := (mem_removeMember (w := { w.setUserChannel ms₀.client_p
        (delete w.usernode m₀ (w.client ms₀.client_p).channel).2 with
          usernode := (delete w.usernode m₀ (w.client ms₀.client_p).channel).1 }) hch m ms).mp hms
      exact .inl ⟨m, ms, hmem.1, rfl⟩
  | quit c =>
    cases h
    exact .inl ⟨m, ms, (((hw.mem_removeUserFromChannels hp hfake).1 m ms).mp hms).1, rfl⟩
  | chmOp chptr c add =>
    obtain ⟨m₀, -, rfl⟩ := map_eq_some_iff.mp h
    obtain ⟨ms₀, hms₀, hclient⟩ := mem_chmOp w m₀ add hms
    exact .inl ⟨m, ms₀, hms₀, hclient⟩

/-- **The lists after a run.** When fake clients leave only channels that they are alone in, every
list holds the memberships that belong on it, both searches for a member find the same, and the
channels that exist are those with members. -/
theorem linked_of_run (clients : ℕ → Client) {ops : List Op}
    (hok : StepsMeet step LeavesLists (init clients) ops)
    (hrun : run step (init clients) ops = some w) :
    Linked w ∧
      (∀ c ch u, w.chan c = some ch → findByMembers w ch u = findByUser w c u) ∧
      ∀ c, (∃ ch, w.chan c = some ch) ↔ ∃ m ms, w.mem m = some ms ∧ ms.chptr = c := by
  obtain ⟨hw, hp⟩ := invariant (fun w => Linked w ∧ Populated w)
    (fun _ _ _ hs hok h => hs.1.step hs.2 hok h)
    ⟨linked_init clients, populated_init clients⟩ hok hrun
  refine ⟨hw, fun c ch u hch => hw.findByMembers_eq hch u, fun c => ⟨?_, ?_⟩⟩
  · exact fun ⟨ch, hch⟩ => hp c ch hch
  · rintro ⟨m, ms, hms, rfl⟩
    exact hw.chan m ms hms

/-- The fake client 0, and local ones. -/
def localAndFake (u : ℕ) : Client :=
  { kind := if u = 0 then .fakeUser else .localUser
    name := [], id := [], username := [], host := [], fromLink := u, channel := .empty }

theorem linked_of_run_fake :
    ∃ w, run step (init localAndFake)
      [.join ['#'] 1 0 .peon, .part ['#'] 0, .join ['#'] 2 1 .peon] = some w ∧
      (Linked w ∧
        (∀ c ch u, w.chan c = some ch → findByMembers w ch u = findByUser w c u) ∧
        ∀ c, (∃ ch, w.chan c = some ch) ↔ ∃ m ms, w.mem m = some ms ∧ ms.chptr = c) := by
  refine ⟨_, rfl, @linked_of_run _ localAndFake [.join ['#'] 1 0 .peon, .part ['#'] 0,
    .join ['#'] 2 1 .peon] ⟨trivial, ?_⟩ rfl⟩
  rintro _ ⟨⟩
  refine ⟨fun _ m ms hms _ => ?_, fun _ _ => ⟨trivial, fun _ _ => trivial⟩⟩
  change update (fun _ => none) 0 (some ⟨['#'], 0, .peon⟩) m = some ms at hms
  by_cases hm : m = 0
  · subst hm
    rw [update_self] at hms
    rw [← some.inj hms]
  · simp [hm] at hms

/-- A local client and a fake one share a channel. When the fake one leaves, the local one is
still a member, and is not on the list of local members any more. -/
theorem fake_unlinks_locmembers :
    (run step (init localAndFake)
      [.join ['#'] 1 1 .peon, .join ['#'] 1 0 .peon, .part ['#'] 0]).map
      (fun w => (w.mem 0, (w.chan ['#']).map (·.locmembers))) =
    some (some ⟨['#'], 1, .peon⟩, some ⟨none, none, 0⟩) := by
  decide

end Ratbox.Channel
