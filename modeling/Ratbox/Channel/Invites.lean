import Ratbox.Lib.Mutual
import Ratbox.Lib.Run

/-!
# Invitations

A client that is invited to a channel that can be joined only by invitation gets the channel on its
list, and the channel gets the client on its own, until the client joins, exits, or has too many
invitations, or the channel is destroyed. A channel is destroyed when its last member leaves.

Source: `modules/m_invite.c`, lines 60–194, `src/channel.c`, lines 160–292, 351–379 and 470–481,
`modules/core/m_join.c`, lines 60–340, 461–627, 815–826 and 925–985, and `src/client.c`, lines
1076–1131 and 1305–1375.

## Main definitions

* `Invites.State`: clients, channels, who is on which channel, and who is invited.
* `Invites.addInvite`, `Invites.delInvite`, `Invites.destroyChannel`: the operations on invitations.
* `Invites.mInvite`, `Invites.mJoin`, `Invites.msSjoin`, `Invites.exitClient`: what uses them.
* `Invites.step`: the steps.

## Main results

* `Invites.Inv.step`: every step keeps the lists sound.
* `Invites.invites_sound`: they are sound in all runs.

## Implementation notes

A client or channel that a command finds by its name is given by its address. An address that is
allocated is one that is not in use. Of a command with several channels each is a step. The messages
that are sent are left out.
-/

namespace Ratbox.Invites

open Mutual Run List Option Function

/-! ### Clients and channels -/

/-- A `struct Client` that is registered: `MyConnect` and `IsOper`. -/
structure Client where
  myConnect : Bool
  isOper : Bool
  deriving DecidableEq

/-- A `struct Channel`: whether its name begins with an ampersand, and `MODE_INVITEONLY`. -/
structure Channel where
  ampersand : Bool
  inviteonly : Bool
  deriving DecidableEq

/-- The clients and channels that are allocated, the channels of each client and the members of each
channel, whether these have `CHFL_CHANOP`, and the fields `invited` and `invites`. -/
structure State where
  client : ℕ → Option Client
  channel : ℕ → Option Channel
  memberships : Lists ℕ ℕ
  chanop : ℕ → ℕ → Bool
  invitations : Lists ℕ ℕ

namespace State

/-- `user->channel`. -/
abbrev channels (s : State) : ℕ → List ℕ := s.memberships.left

/-- The members of a channel. -/
abbrev members (s : State) : ℕ → List ℕ := s.memberships.right

/-- `localClient->invited`. -/
abbrev invited (s : State) : ℕ → List ℕ := s.invitations.left

/-- `invites`. -/
abbrev invites (s : State) : ℕ → List ℕ := s.invitations.right

/-- No clients and no channels. -/
def empty : State := ⟨fun _ => none, fun _ => none, Lists.empty, fun _ _ => false, Lists.empty⟩

end State

/-- The settings `max_chans_per_user`, `invite_ops_only` and `use_invex`. -/
structure Config where
  maxChansPerUser : ℕ
  inviteOpsOnly : Bool
  useInvex : Bool
  deriving DecidableEq

/-! ### Invitations -/

/-- `del_invite`. -/
def delInvite (s : State) (chptr who : ℕ) : State :=
  { s with invitations := s.invitations.unlink who chptr }

/-- `add_invite`. The oldest invitation is at the tail. -/
def addInvite (cfg : Config) (s : State) (chptr who : ℕ) : State :=
  if chptr ∈ s.invited who then s
  else
    let s := if cfg.maxChansPerUser ≤ (s.invited who).length then (s.invited who).getLast?.elim s
      (delInvite s · who) else s
    { s with invitations := s.invitations.link who chptr }

/-- `destroy_channel`. -/
def destroyChannel (s : State) (chptr : ℕ) : State :=
  { s with
    invitations := s.invitations.cut ((s.invites chptr).map fun who => (who, chptr))
    channel := update s.channel chptr none }

/-! ### Members -/

/-- `get_or_create_channel` for a name that no channel has. Its memory is zeroed. -/
def createChannel (s : State) (chptr : ℕ) (ampersand : Bool) : State :=
  { s with
    channel := update s.channel chptr (some ⟨ampersand, false⟩)
    memberships := s.memberships.zeroRight chptr
    invitations := s.invitations.zeroRight chptr }

/-- `add_user_to_channel`. -/
def addUserToChannel (s : State) (chptr client_p : ℕ) (chanop : Bool) : State :=
  { s with
    memberships := s.memberships.link client_p chptr
    chanop := update s.chanop client_p (update (s.chanop client_p) chptr chanop) }

/-- `remove_user_from_channel`. -/
def removeUserFromChannel (s : State) (client_p chptr : ℕ) : State :=
  let s := { s with memberships := s.memberships.unlink client_p chptr }
  if s.members chptr = [] then destroyChannel s chptr else s

/-- The loop of `remove_user_from_channels`. There the list of the client is emptied at the end. -/
def removeUserFromChannels (client_p : ℕ) : List ℕ → State → State
  | [], s => s
  | chptr :: rest, s => removeUserFromChannels client_p rest (removeUserFromChannel s client_p
    chptr)

/-! ### The commands -/

/-- `m_invite`, when it has found the client and the channel. -/
def mInvite (cfg : Config) (s : State) (source_p : ℕ) (source : Client) (target_p : ℕ)
    (target : Client) (chptr : ℕ) (chan : Channel) : State :=
  if chan.ampersand ∧ ¬target.myConnect then s
  else if source.myConnect ∧ chptr ∉ s.channels source_p then s
  else if chptr ∈ s.channels target_p then s
  else if (cfg.inviteOpsOnly ∨ chan.inviteonly) ∧ source.myConnect ∧ ¬s.chanop source_p chptr then s
  else if target.myConnect ∧ chan.inviteonly then addInvite cfg s chptr target_p
  else s

/-- What a client meets that joins: whether the name may not be joined, and what `can_join` finds
about bans, invitation exceptions, the key, the limit, and the other modes. -/
structure Checks where
  unavailable : Bool
  banned : Bool
  invex : Bool
  badKey : Bool
  full : Bool
  barred : Bool
  deriving DecidableEq

/-- `can_join`: whether it is zero. -/
def canJoin (cfg : Config) (s : State) (source_p chptr : ℕ) (chan : Channel) (checks : Checks) :
    Bool :=
  !checks.banned && (!chan.inviteonly || (s.invited source_p).contains chptr || cfg.useInvex &&
    checks.invex) && !checks.badKey && !checks.full && !checks.barred

/-- Whether a client is on too many channels. -/
def tooManyChannels (cfg : Config) (s : State) (source_p : ℕ) (source : Client) : Bool :=
  decide (cfg.maxChansPerUser ≤ (s.channels source_p).length) &&
    (!source.isOper || decide (cfg.maxChansPerUser * 3 ≤ (s.channels source_p).length))

/-- `m_join` for one channel. A new one has no bans and modes. -/
def mJoin (cfg : Config) (s : State) (source_p : ℕ) (source : Client) (chptr : ℕ) (ampersand : Bool)
    (checks : Checks) :
    State :=
  if checks.unavailable then s
  else
    match s.channel chptr with
    | some chan =>
      if chptr ∈ s.channels source_p then s
      else if tooManyChannels cfg s source_p source then s
      else if canJoin cfg s source_p chptr chan checks then
        delInvite (addUserToChannel s chptr source_p (s.members chptr).isEmpty) chptr source_p
      else s
    | none =>
      if tooManyChannels cfg s source_p source then s
      else delInvite (addUserToChannel (createChannel s chptr ampersand) chptr source_p true) chptr
        source_p

/-- The loop of `ms_sjoin` over the clients, which are of another server. -/
def sjoinLoop (chptr : ℕ) : List (ℕ × Bool) → State → State
  | [], s => s
  | (target_p, chanop) :: rest, s =>
    sjoinLoop chptr rest
      (match s.client target_p with
      | some target => if target.myConnect ∨ chptr ∈ s.channels target_p then s
        else addUserToChannel s chptr target_p chanop
      | none => s)

/-- `ms_sjoin`. A new channel that nobody joins is destroyed. -/
def msSjoin (s : State) (chptr : ℕ) (nicks : List (ℕ × Bool)) : State :=
  let isnew := (s.channel chptr).isNone
  let s := sjoinLoop chptr nicks (if isnew then createChannel s chptr false else s)
  if isnew ∧ s.members chptr = [] then destroyChannel s chptr else s

/-- `exit_generic_client` and the end of `exit_local_client`. -/
def exitClient (s : State) (source_p : ℕ) (source : Client) : State :=
  let s := removeUserFromChannels source_p (s.channels source_p) s
  let s := if source.myConnect then
      { s with invitations := s.invitations.cut ((s.invited source_p).map fun chptr => (source_p,
        chptr)) }
    else s
  { s with client := update s.client source_p none }

/-! ### The steps -/

/-- The steps. A client leaves a channel by PART, KICK or JOIN 0. -/
inductive Op
  | connect (p : ℕ) (c : Client)
  | invite (source_p target_p chptr : ℕ)
  | join (source_p chptr : ℕ) (ampersand : Bool) (checks : Checks)
  | sjoin (chptr : ℕ) (nicks : List (ℕ × Bool))
  | leave (client_p chptr : ℕ)
  | mode (chptr : ℕ) (inviteonly : Bool)
  | chanop (client_p chptr : ℕ) (chanop : Bool)
  | exit (p : ℕ)
  deriving DecidableEq

/-- A step, where the clients and channels that it is about are there. -/
def step (cfg : Config) (s : State) : Op → Option State
  | .connect p c =>
    if s.client p = none then
      some { s with
        client := update s.client p (some c)
        memberships := s.memberships.zeroLeft p
        invitations := s.invitations.zeroLeft p }
    else none
  | .invite source_p target_p chptr =>
    (s.client source_p).bind fun source => (s.client target_p).bind fun target =>
        (s.channel chptr).map fun chan =>
      mInvite cfg s source_p source target_p target chptr chan
  | .join source_p chptr ampersand checks =>
    (s.client source_p).bind fun source =>
      if source.myConnect then some (mJoin cfg s source_p source chptr ampersand checks) else none
  | .sjoin chptr nicks => some (msSjoin s chptr nicks)
  | .leave client_p chptr => if chptr ∈ s.channels client_p then
    some (removeUserFromChannel s client_p chptr) else none
  | .mode chptr inviteonly =>
    (s.channel chptr).map fun chan =>
      { s with channel := update s.channel chptr (some { chan with inviteonly := inviteonly }) }
  | .chanop client_p chptr chanop =>
    if chptr ∈ s.channels client_p then
      some { s with chanop := update s.chanop client_p (update (s.chanop client_p) chptr chanop) }
    else none
  | .exit p => (s.client p).map fun c => exitClient s p c

/-! ### The invariant -/

/-- **The lists are sound**: they belong together, nothing is on one twice, no client has too many
invitations, and what has exited or was destroyed is on none. -/
structure Sound (cfg : Config) (s : State) : Prop where
  mem_iff : ∀ who chptr, who ∈ s.invites chptr ↔ chptr ∈ s.invited who
  nodup_invites : ∀ chptr, (s.invites chptr).Nodup
  nodup_invited : ∀ who, (s.invited who).Nodup
  length_le : ∀ who, (s.invited who).length ≤ cfg.maxChansPerUser
  live : ∀ who chptr, chptr ∈ s.invited who →
    (∃ c, s.client who = some c ∧ c.myConnect = true) ∧ (s.channel chptr).isSome

/-- The lists, and the members of channels. -/
structure Inv (cfg : Config) (s : State) : Prop where
  invitations : Tied s.invitations
  memberships : Tied s.memberships
  length_le : ∀ who, (s.invited who).length ≤ cfg.maxChansPerUser
  client : ∀ who chptr, chptr ∈ s.invited who → ∃ c, s.client who = some c ∧ c.myConnect = true
  channel : ∀ who chptr, chptr ∈ s.invited who → (s.channel chptr).isSome
  member : ∀ p chptr, chptr ∈ s.channels p → (s.client p).isSome ∧ (s.channel chptr).isSome

section Lists

variable {cfg : Config} {s : State} {p chptr : ℕ} {c : Client} {chan : Channel}

section

variable (h : Inv cfg s)
include h

theorem Inv.sound : Sound cfg s where
  mem_iff who chptr := (h.invitations.mem_iff who chptr).symm
  nodup_invites := h.invitations.nodup_right
  nodup_invited := h.invitations.nodup_left
  length_le := h.length_le
  live who chptr hmem := ⟨h.client who chptr hmem, h.channel who chptr hmem⟩

/-- Invitations are deleted. -/
theorem Inv.cut (ps : List (ℕ × ℕ)) : Inv cfg { s with invitations := s.invitations.cut ps } where
  invitations := h.invitations.cut
  memberships := h.memberships
  length_le who := (Tied.cut_sublist ps).length_le.trans (h.length_le who)
  client who chptr hmem := h.client who chptr ((Tied.cut_sublist ps).subset hmem)
  channel who chptr hmem := h.channel who chptr ((Tied.cut_sublist ps).subset hmem)
  member := h.member

theorem Inv.delInvite (chptr who : ℕ) : Inv cfg (delInvite s chptr who) := h.cut [(who, chptr)]

/-- **An invitation**, where there is room for it. -/
theorem Inv.link (hc : s.client p = some c) (hmy : c.myConnect = true)
    (hchan : s.channel chptr = some chan) (hnot : chptr ∉ s.invited p)
    (hlt : (s.invited p).length < cfg.maxChansPerUser) :
    Inv cfg { s with invitations := s.invitations.link p chptr } where
  invitations := h.invitations.link hnot
  memberships := h.memberships
  length_le who := by
    change ((s.invitations.link p chptr).left who).length ≤ _
    rw [left_link]
    split_ifs
    · exact hlt
    · exact h.length_le who
  client who chptr' hmem := by
    obtain ⟨rfl, -⟩ | hold := (mem_left_link ..).mp hmem
    · exact ⟨c, hc, hmy⟩
    · exact h.client who chptr' hold
  channel who chptr' hmem := by
    obtain ⟨-, rfl⟩ | hold := (mem_left_link ..).mp hmem
    · rw [hchan]
      rfl
    · exact h.channel who chptr' hold
  member := h.member

theorem Inv.addInvite (hmax : 1 ≤ cfg.maxChansPerUser) (hc : s.client p = some c)
    (hmy : c.myConnect = true) (hchan : s.channel chptr = some chan) :
    Inv cfg (addInvite cfg s chptr p) := by
  rw [Invites.addInvite]
  split_ifs with hmem hfull
  · exact h
  · have hne : s.invited p ≠ [] := ne_nil_of_length_pos (by omega)
    rw [getLast?_eq_some_getLast hne, elim_some]
    refine (h.delInvite ((s.invited p).getLast hne) p).link (c := c) hc hmy hchan ?_ ?_
    · exact fun hold => hmem ((left_unlink_sublist ..).subset hold)
    · have hleft : (Invites.delInvite s ((s.invited p).getLast hne) p).invited p =
          (s.invited p).erase ((s.invited p).getLast hne) := (left_unlink ..).trans (if_pos rfl)
      have hlen := h.length_le p
      rw [hleft, length_erase_of_mem (getLast_mem hne)]
      omega
  · exact h.link hc hmy hchan hmem (by omega)

/-- **A channel is destroyed**, when it has no members. -/
theorem Inv.destroyChannel (hempty : s.members chptr = []) : Inv cfg (destroyChannel s chptr) where
  invitations := h.invitations.cut
  memberships := h.memberships
  length_le := (h.cut _).length_le
  client := (h.cut _).client
  channel who chptr' hmem := by
    obtain ⟨hold, hnot⟩ := h.invitations.mem_cut.mp hmem
    have hne : chptr' ≠ chptr := by
      rintro rfl
      exact hnot (mem_map.mpr ⟨who, (h.invitations.mem_iff who chptr').mp hold, rfl⟩)
    change (update s.channel chptr none chptr').isSome
    rw [update_of_ne hne]
    exact h.channel who chptr' hold
  member q chptr' hmem := by
    have hne : chptr' ≠ chptr := by
      rintro rfl
      have hq : q ∈ s.members chptr' := (h.memberships.mem_iff q chptr').mp hmem
      rw [hempty] at hq
      exact absurd hq not_mem_nil
    change (s.client q).isSome ∧ (update s.channel chptr none chptr').isSome
    rw [update_of_ne hne]
    exact h.member q chptr' hmem

/-- What is on no list does not depend on what is at an address that is not in use. -/
theorem Inv.invites_of_none (hchan : s.channel chptr = none) :
    s.invites chptr = [] ∧ s.members chptr = [] := by
  refine ⟨eq_nil_iff_forall_not_mem.mpr fun who hwho => ?_, eq_nil_iff_forall_not_mem.mpr
    fun q hq => ?_⟩
  · have hsome := h.channel who chptr ((h.invitations.mem_iff who chptr).mpr hwho)
    exact absurd hsome (by simp [hchan])
  · have hsome := (h.member q chptr ((h.memberships.mem_iff q chptr).mpr hq)).2
    exact absurd hsome (by simp [hchan])

theorem Inv.invited_of_none (hp : s.client p = none) : s.invited p = [] ∧ s.channels p = [] := by
  refine ⟨eq_nil_iff_forall_not_mem.mpr fun ch hch => ?_, eq_nil_iff_forall_not_mem.mpr
    fun ch hch => ?_⟩
  · obtain ⟨c, hc, -⟩ := h.client p ch hch
    cases hp.symm.trans hc
  · exact absurd (h.member p ch hch).1 (by simp [hp])

end

/-! ### Members come and go -/

/-- A channel is there, or changes its modes. -/
theorem Inv.setChannel (h : Inv cfg s) (chptr : ℕ) (chan : Channel) :
    Inv cfg { s with channel := update s.channel chptr (some chan) } := by
  have hsome : ∀ ch, (s.channel ch).isSome → (update s.channel chptr (some chan) ch).isSome := by
    intro ch hch
    rw [update_apply]
    split_ifs
    · rfl
    · exact hch
  exact ⟨h.invitations, h.memberships, h.length_le, h.client, fun who ch hmem => hsome ch
    (h.channel who ch hmem), fun q ch hmem => ⟨(h.member q ch hmem).1,
      hsome ch (h.member q ch hmem).2⟩⟩

theorem Inv.createChannel (h : Inv cfg s) (hchan : s.channel chptr = none) (ampersand : Bool) :
    Inv cfg (createChannel s chptr ampersand) := by
  obtain ⟨hinvites, hmembers⟩ := h.invites_of_none hchan
  rw [Invites.createChannel, zeroRight_of_nil hinvites, zeroRight_of_nil hmembers]
  exact h.setChannel chptr _

theorem Inv.addUserToChannel (h : Inv cfg s) (hc : (s.client p).isSome)
    (hchan : (s.channel chptr).isSome) (hnot : chptr ∉ s.channels p) (chanop : Bool) :
    Inv cfg (addUserToChannel s chptr p chanop) where
  invitations := h.invitations
  memberships := h.memberships.link hnot
  length_le := h.length_le
  client := h.client
  channel := h.channel
  member q ch hmem := by
    obtain ⟨rfl, rfl⟩ | hold := (mem_left_link ..).mp hmem
    · exact ⟨hc, hchan⟩
    · exact h.member q ch hold

/-- A client leaves a channel, which is destroyed if nobody is left. -/
theorem Inv.removeUserFromChannel (h : Inv cfg s) (p chptr : ℕ) :
    Inv cfg (removeUserFromChannel s p chptr) := by
  have hleft : Inv cfg { s with memberships := s.memberships.unlink p chptr } :=
    ⟨h.invitations, h.memberships.unlink p chptr, h.length_le, h.client, h.channel,
      fun q ch hmem => h.member q ch ((left_unlink_sublist ..).subset hmem)⟩
  rw [Invites.removeUserFromChannel]
  split_ifs with hempty
  · exact hleft.destroyChannel hempty
  · exact hleft

theorem client_removeUserFromChannel (s : State) (p chptr : ℕ) :
    (removeUserFromChannel s p chptr).client = s.client := by
  rw [Invites.removeUserFromChannel]
  split_ifs <;> rfl

theorem memberships_removeUserFromChannel (s : State) (p chptr : ℕ) :
    (removeUserFromChannel s p chptr).memberships = s.memberships.unlink p chptr := by
  rw [Invites.removeUserFromChannel]
  split_ifs <;> rfl

/-- **A client leaves all its channels.** -/
theorem Inv.removeUserFromChannels (h : Inv cfg s) {chs : List ℕ}
    (hall : ∀ ch ∈ s.channels p, ch ∈ chs) :
    Inv cfg (removeUserFromChannels p chs s) ∧ (removeUserFromChannels p chs s).client = s.client ∧
      (removeUserFromChannels p chs s).channels p = [] := by
  induction chs generalizing s with
  | nil => exact ⟨h, rfl, eq_nil_iff_forall_not_mem.mpr fun ch hch => absurd (hall ch hch)
    not_mem_nil⟩
  | cons chptr chs ih =>
    have hrest : ∀ ch ∈ (Invites.removeUserFromChannel s p chptr).channels p, ch ∈ chs := by
      intro ch hch
      rw [State.channels, memberships_removeUserFromChannel, h.memberships.mem_left_unlink] at hch
      exact (mem_cons.mp (hall ch hch.1)).resolve_left fun heq => hch.2 (by rw [heq])
    obtain ⟨hinv, hclient, hnil⟩ := ih (h.removeUserFromChannel p chptr) hrest
    exact ⟨hinv, hclient.trans (client_removeUserFromChannel s p chptr), hnil⟩

/-- **A client exits.** -/
theorem Inv.exitClient (h : Inv cfg s) (hc : s.client p = some c) : Inv cfg (exitClient s p c) := by
  obtain ⟨hinv, hclient, hnil⟩ := h.removeUserFromChannels (p := p) fun _ hch => hch
  rw [Invites.exitClient]
  generalize Invites.removeUserFromChannels p (s.channels p) s = t at hinv hclient hnil
  -- Nothing is left on the two lists of the client.
  have hgone : ∀ u : State, Inv cfg u → u.channels p = [] → u.invited p = [] →
      Inv cfg { u with client := update u.client p none } := by
    intro u hu hchannels hinvited
    refine ⟨hu.invitations, hu.memberships, hu.length_le, fun who ch hmem => ?_, hu.channel,
      fun q ch hmem => ?_⟩
    · have hne : who ≠ p := by
        rintro rfl
        exact not_mem_nil (hinvited ▸ hmem)
      dsimp only
      rw [update_of_ne hne]
      exact hu.client who ch hmem
    · have hne : q ≠ p := by
        rintro rfl
        exact not_mem_nil (hchannels ▸ hmem)
      dsimp only
      rw [update_of_ne hne]
      exact hu.member q ch hmem
  split_ifs with hmy
  · exact hgone _ (hinv.cut _) hnil (hinv.invitations.left_cut_eq_nil fun ch hch => mem_map.mpr ⟨ch,
      hch, rfl⟩)
  · refine hgone t hinv hnil (eq_nil_iff_forall_not_mem.mpr fun ch hch => ?_)
    obtain ⟨d, hd, hdmy⟩ := hinv.client p ch hch
    cases hc.symm.trans (hclient ▸ hd)
    exact hmy hdmy

end Lists

/-! ### The commands keep the lists sound -/

section Commands

variable {cfg : Config} {s s' : State} {op : Op} {p chptr : ℕ} {c : Client}

theorem Inv.mJoin (h : Inv cfg s) (hc : s.client p = some c) (ampersand : Bool) (checks : Checks) :
    Inv cfg (mJoin cfg s p c chptr ampersand checks) := by
  have hsome : (s.client p).isSome := by
    rw [hc]
    rfl
  rw [Invites.mJoin]
  by_cases hunavailable : checks.unavailable = true
  · rw [if_pos hunavailable]
    exact h
  rw [if_neg hunavailable]
  cases hchan : s.channel chptr with
  | some chan =>
    dsimp only
    split_ifs with hmember htoo hcan
    · exact h
    · exact h
    · exact (h.addUserToChannel hsome (by rw [hchan]; rfl) hmember _).delInvite chptr p
    · exact h
  | none =>
    dsimp only
    split_ifs
    · exact h
    · have hnew := h.createChannel hchan ampersand
      refine (hnew.addUserToChannel hsome ?_ ?_ true).delInvite chptr p
      · change (update s.channel chptr _ chptr).isSome
        rw [update_self]
        rfl
      · exact fun hmem => absurd (h.member p chptr hmem).2 (by simp [hchan])

theorem Inv.sjoinLoop (h : Inv cfg s) (hchan : (s.channel chptr).isSome) (nicks : List (ℕ × Bool)) :
    Inv cfg (sjoinLoop chptr nicks s) := by
  induction nicks generalizing s with
  | nil => exact h
  | cons nick nicks ih =>
    rw [Invites.sjoinLoop]
    cases hc : s.client nick.1 with
    | none => exact ih h hchan
    | some c =>
      dsimp only
      split_ifs with hskip
      · exact ih h hchan
      · rw [not_or] at hskip
        exact ih (h.addUserToChannel (by rw [hc]; rfl) hchan hskip.2 _) hchan

theorem Inv.msSjoin (h : Inv cfg s) (nicks : List (ℕ × Bool)) :
    Inv cfg (msSjoin s chptr nicks) := by
  rw [Invites.msSjoin]
  have hloop : Inv cfg (Invites.sjoinLoop chptr nicks
      (if (s.channel chptr).isNone then Invites.createChannel s chptr false else s)) := by
    split_ifs with hnew
    · refine (h.createChannel (isNone_iff_eq_none.mp hnew) false).sjoinLoop ?_ nicks
      change (update s.channel chptr _ chptr).isSome
      rw [update_self]
      rfl
    · exact h.sjoinLoop (by simpa [isSome_iff_ne_none] using hnew) nicks
  by_cases hempty : (s.channel chptr).isNone = true ∧ (Invites.sjoinLoop chptr nicks
      (if (s.channel chptr).isNone then Invites.createChannel s chptr false else s)).members chptr =
        []
  · rw [if_pos hempty]
    exact hloop.destroyChannel hempty.2
  · rw [if_neg hempty]
    exact hloop

theorem Inv.mInvite (h : Inv cfg s) (hmax : 1 ≤ cfg.maxChansPerUser) {source_p target_p : ℕ}
    {source target : Client} {chan : Channel} (htarget : s.client target_p = some target)
    (hchan : s.channel chptr = some chan) :
    Inv cfg (mInvite cfg s source_p source target_p target chptr chan) := by
  rw [Invites.mInvite]
  split_ifs with hamp hnot hmember hop hstore
  · exact h
  · exact h
  · exact h
  · exact h
  · exact h.addInvite hmax htarget hstore.1 hchan
  · exact h

/-- **Every step keeps the lists sound.** -/
theorem Inv.step (h : Inv cfg s) (hmax : 1 ≤ cfg.maxChansPerUser) (hs' : step cfg s op = some s') :
    Inv cfg s' := by
  cases op with
  | connect p c =>
    rw [Invites.step] at hs'
    split_ifs at hs' with hp
    cases hs'
    obtain ⟨hinvited, hchannels⟩ := h.invited_of_none hp
    rw [zeroLeft_of_nil hinvited, zeroLeft_of_nil hchannels]
    have hne : ∀ {q}, s.client q ≠ none → q ≠ p := by
      rintro q hq rfl
      exact hq hp
    refine ⟨h.invitations, h.memberships, h.length_le, fun who ch hmem => ?_, h.channel,
      fun q ch hmem => ?_⟩
    · obtain ⟨d, hd, hmy⟩ := h.client who ch hmem
      exact ⟨d, (update_of_ne (hne (by simp [hd])) ..).trans hd, hmy⟩
    · obtain ⟨hq, hch⟩ := h.member q ch hmem
      refine ⟨?_, hch⟩
      change (update s.client p (some c) q).isSome
      rwa [update_of_ne (hne (isSome_iff_ne_none.mp hq))]
  | invite source_p target_p chptr =>
    obtain ⟨source, -, hs'⟩ := bind_eq_some_iff.mp hs'
    obtain ⟨target, htarget, hs'⟩ := bind_eq_some_iff.mp hs'
    obtain ⟨chan, hchan, rfl⟩ := map_eq_some_iff.mp hs'
    exact h.mInvite hmax htarget hchan
  | join source_p chptr ampersand checks =>
    obtain ⟨source, hsource, hs'⟩ := bind_eq_some_iff.mp hs'
    split_ifs at hs'
    cases hs'
    exact h.mJoin hsource ampersand checks
  | sjoin chptr nicks =>
    cases hs'
    exact h.msSjoin nicks
  | leave p chptr =>
    rw [Invites.step] at hs'
    split_ifs at hs'
    cases hs'
    exact h.removeUserFromChannel p chptr
  | mode chptr inviteonly =>
    obtain ⟨chan, -, rfl⟩ := map_eq_some_iff.mp hs'
    exact h.setChannel chptr _
  | chanop p chptr chanop =>
    rw [Invites.step] at hs'
    split_ifs at hs'
    cases hs'
    exact ⟨h.invitations, h.memberships, h.length_le, h.client, h.channel, h.member⟩
  | exit p =>
    obtain ⟨c, hc, rfl⟩ := map_eq_some_iff.mp hs'
    exact h.exitClient hc

theorem inv_empty (cfg : Config) : Inv cfg State.empty where
  invitations := tied_empty
  memberships := tied_empty
  length_le _ := Nat.zero_le _
  client _ _ hmem := absurd hmem not_mem_nil
  channel _ _ hmem := absurd hmem not_mem_nil
  member _ _ hmem := absurd hmem not_mem_nil

/-- **Invitations.** The lists are sound in all runs. -/
theorem invites_sound (hmax : 1 ≤ cfg.maxChansPerUser) {ops : List Op}
    (hrun : run (step cfg) State.empty ops = some s) :
    Sound cfg s :=
  (invariant (Inv cfg) (fun _ _ _ h _ hs' => h.step hmax hs') (inv_empty cfg)
    (StepsMeet.of_forall (fun _ _ => trivial) _ _) hrun).sound

end Commands

/-- One invitation at most. -/
def oneInvite : Config := ⟨1, false, false⟩

/-- A client that meets no other obstacles. -/
def freely : Checks := ⟨false, false, false, false, false, false⟩

/-- Two clients have a channel each and invite a third one, the second one exits, and the third one
joins. -/
def thirdInvited : List Op :=
  [.connect 0 ⟨true, false⟩, .connect 1 ⟨true, false⟩, .connect 2 ⟨true, false⟩,
    .join 0 10 false freely, .join 1 11 false freely, .mode 10 true, .mode 11 true, .invite 1 2 11,
      .invite 0 2 10, .exit 1]

theorem invites_sound_small : ∃ s, run (step oneInvite) State.empty thirdInvited = some s ∧
    s.invited 2 = [10] ∧ Sound oneInvite s := by
  have hrun : (run (step oneInvite) State.empty thirdInvited).map (fun s => s.invited 2) =
    some [10] := rfl
  obtain ⟨s, hs, hinvited⟩ := map_eq_some_iff.mp hrun
  exact ⟨s, hs, hinvited, invites_sound (by decide) hs⟩

end Ratbox.Invites
