import Ratbox.Channel.Sjoin

/-!
# What SJOIN does to the memory

The parts of `ms_sjoin` and what they do to the channels and the memberships: the time and the
modes of the channel are settled first, and then every client that is named and is not a member
joins with the status of its first naming.

## Main definitions

* `Channel.HasStatus`: the status of a client in a channel.
* `Channel.leftMem`: the memberships after the modes are settled.
* `Channel.joinOne`: a client that joins unless it is a member.

## Main results

* `Channel.Linked.takeModes`: the memory when the modes are settled.
* `Channel.foldl_turn`, `Channel.w_foldl_take`: the loop is one over the clients that are named.
* `Channel.Joined.foldl`: the memory after the loop.
-/

namespace Ratbox.Channel

open Text Dlink Run List Option Function

variable {w w' : World} {c : Str} {ch : Chan} {u : ℕ} {noops : List ℕ} {ps : List (ℕ × MemberFlags)}
  {p : ℕ × MemberFlags} {net : Net} {client_p : ℕ} {parv : List Str} {msg : Sjoin} {isnew : Bool}
  {now : ℤ} {w₀ : World}

/-! ### Clients that only differ in their channels -/

/-- The clients are those of `f`, on other channels. -/
def SameClients (f g : ℕ → Client) : Prop := ∀ u, ∃ l, g u = { f u with channel := l }

theorem SameClients.refl (f : ℕ → Client) : SameClients f f := fun u => ⟨(f u).channel, rfl⟩

theorem SameClients.trans {f g h : ℕ → Client} (hfg : SameClients f g) (hgh : SameClients g h) :
    SameClients f h := by
  intro u
  obtain ⟨l, hl⟩ := hfg u
  obtain ⟨l', hl'⟩ := hgh u
  exact ⟨l', by rw [hl', hl]⟩

theorem sameClients_addUserToChannel (w : World) (c : Str) (u : ℕ) (fl : MemberFlags) :
    SameClients w.client (addUserToChannel w c u fl).client := by
  intro x
  rw [addUserToChannel]
  cases w.chan c with
  | none => exact ⟨_, rfl⟩
  | some ch =>
    by_cases hx : x = u
    · subst hx
      exact ⟨_, update_self ..⟩
    · exact ⟨(w.client x).channel, update_of_ne hx ..⟩

theorem named_congr (net : Net) {f g : ℕ → Client} (h : SameClients f g) (client_p : ℕ) (s : Str) :
    named net g client_p s = named net f client_p s := by
  have hsame : ∀ u, (g u).fromLink = (f u).fromLink ∧ (g u).kind = (f u).kind := by
    intro u
    obtain ⟨l, hl⟩ := h u
    rw [hl]
    exact ⟨rfl, rfl⟩
  simp [named, hsame]

/-! ### Members and their status -/

/-- The client `u` is a member of the channel `c`. -/
def Member (w : World) (c : Str) (u : ℕ) : Prop := ∃ m, IsMember w c u m

/-- The client `u` has a membership in the channel `c` with the status `fl`. -/
def HasStatus (mem : ℕ → Option Membership) (c : Str) (u : ℕ) (fl : MemberFlags) : Prop :=
  ∃ m ms, mem m = some ms ∧ ms.chptr = c ∧ ms.client_p = u ∧ ms.flags = fl

theorem HasStatus.member {fl : MemberFlags} (h : HasStatus w.mem c u fl) : Member w c u := by
  obtain ⟨m, ms, hms, hc, hu, -⟩ := h
  exact ⟨m, ms, hms, hc, hu⟩

theorem Member.hasStatus (h : Member w c u) : ∃ fl, HasStatus w.mem c u fl := by
  obtain ⟨m, ms, hms, hc, hu⟩ := h
  exact ⟨ms.flags, m, ms, hms, hc, hu, rfl⟩

/-- The test of `IsMember`. -/
theorem Linked.isSome_find (hw : Linked w) (hu : (w.client u).kind.isClient = true)
    (c : Str) : (findChannelMembership w c u).isSome = true ↔ Member w c u := by
  rw [isSome_iff_exists]
  exact exists_congr fun m => hw.findChannelMembership_eq_some_iff hu m

/-! ### The modes -/

theorem Linked.updateChan (hw : Linked w) (c : Str) {f : Chan → Chan}
    (hf : ∀ ch, (f ch).members = ch.members ∧ (f ch).locmembers = ch.locmembers) :
    Linked (w.updateChan c f) := by
  have hold : ∀ {c' ch'}, (w.updateChan c f).chan c' = some ch' → ∃ ch, w.chan c' = some ch ∧
      ch'.members = ch.members ∧ ch'.locmembers = ch.locmembers := by
    intro c' ch' h
    by_cases hc : c' = c
    · subst hc
      rw [World.updateChan] at h
      dsimp only at h
      rw [update_self] at h
      obtain ⟨ch, hch, rfl⟩ := map_eq_some_iff.mp h
      exact ⟨ch, hch, hf ch⟩
    · rw [World.updateChan] at h
      dsimp only at h
      rw [update_of_ne hc] at h
      exact ⟨ch', h, rfl, rfl⟩
  have hnew : ∀ {c'}, (∃ ch, w.chan c' = some ch) → ∃ ch, (w.updateChan c f).chan c' = some ch := by
    rintro c' ⟨ch, hch⟩
    by_cases hc : c' = c
    · subst hc
      exact ⟨f ch, by simp [World.updateChan, hch]⟩
    · exact ⟨ch, by simpa [World.updateChan, hc] using hch⟩
  refine ⟨⟨fun c' ch' h k => ?_, fun c' ch' h => ?_, hw.unlinked, hw.unique,
    fun m ms hms => hnew (hw.chan m ms hms), hw.lt_fresh,
    hw.length_lt_of rfl fun _ _ h => (hold h).imp fun _ h => h.1⟩, hw.userChannel⟩
  · obtain ⟨ch, hch, hmembers, -⟩ := hold h
    rw [hmembers]
    exact hw.members c' ch hch k
  · obtain ⟨ch, hch, -, hloc⟩ := hold h
    rw [hloc]
    exact hw.locmembers c' ch hch

/-- The memberships when the modes are settled: all of them as they were when our modes are kept,
and otherwise what `remove_our_modes` leaves. -/
def leftMem (w : World) (noops ops : List ℕ) (keepOurs : Bool) (m : ℕ) : Option Membership :=
  if keepOurs then w.mem m
  else if m ∈ noops ∨ m ∈ metOps w noops ops then (w.mem m).map Membership.peon
  else w.mem m

/-- **The memory when the modes are settled.** -/
theorem Linked.takeModes (hw : Linked w) {ops : List ℕ} (hm : Members w c ch noops ops)
    (net : Net) (isnew : Bool) (source : Str) (msg : Sjoin) {out : List Out}
    (h : takeModes net w c ch isnew source msg = (w', out)) :
    Linked w' ∧ w'.client = w.client ∧
      (∀ m, w'.mem m =
        leftMem w noops ops (resolve isnew ch.channelts msg.newts).keepOurs m) ∧
      (∃ ch', w'.chan c = some ch' ∧
        ch'.channelts = (resolve isnew ch.channelts msg.newts).channelts ∧
        ch'.mode = (resolve isnew ch.channelts msg.newts).mode msg.mode ch.mode) ∧
      w'.cuts = w.cuts ∧ ∀ c', c' ≠ c → w'.chan c' = w.chan c' := by
  simp only [Channel.takeModes, Prod.mk.injEq] at h
  obtain ⟨rfl, -⟩ := h
  set r := resolve isnew ch.channelts msg.newts with hr
  set w₁ := w.updateChan c fun ch => { ch with channelts := r.channelts } with hw₁
  have hlinked₁ : Linked w₁ := hw.updateChan c fun ch => ⟨rfl, rfl⟩
  have hchan₁ : w₁.chan c = some { ch with channelts := r.channelts } := by
    simp [hw₁, World.updateChan, hm.chan]
  have hother₁ : ∀ c', c' ≠ c → w₁.chan c' = w.chan c' := fun c' hc =>
    update_of_ne hc ..
  have hm₁ : Members w₁ c { ch with channelts := r.channelts } noops ops :=
    { hm with chan := hchan₁ }
  cases hkeep : r.keepOurs with
  | true =>
    simp only [↓reduceIte]
    refine ⟨hlinked₁.updateChan c fun ch => ⟨rfl, rfl⟩, rfl, fun m => by simp [leftMem]; rfl,
      ⟨_, by simp [World.updateChan, hchan₁]; rfl, rfl, rfl⟩, rfl, fun c' hc => ?_⟩
    rw [← hother₁ c' hc]
    exact update_of_ne hc ..
  | false =>
    obtain ⟨hclient, hcuts, members, hchan⟩ := chan_removeOurModes hm₁ net.me
    have hmem := mem_removeOurModes hm₁ net.me
    have hlinked₂ := hlinked₁.removeOurModes net.me c
    simp only [Bool.false_eq_true, ↓reduceIte]
    refine ⟨hlinked₂.updateChan c fun ch => ⟨rfl, rfl⟩, hclient, fun m => ?_,
      ⟨_, by simp [World.updateChan, hchan]; rfl, rfl, rfl⟩, hcuts, fun c' hc => ?_⟩
    · simp only [leftMem, Bool.false_eq_true, ↓reduceIte]
      exact hmem m
    · rw [← hother₁ c' hc]
      refine (update_of_ne hc ..).trans ?_
      rw [hchan]
      exact update_of_ne hc ..

theorem member_of_leftMem {ops : List ℕ} {keepOurs : Bool}
    (h : ∀ m, w'.mem m = leftMem w noops ops keepOurs m) (c : Str) (u : ℕ) :
    Member w' c u ↔ Member w c u := by
  have hkey : ∀ m, (w'.mem m).map (fun ms => (ms.chptr, ms.client_p)) =
      (w.mem m).map fun ms => (ms.chptr, ms.client_p) := by
    intro m
    rw [h, leftMem]
    split_ifs
    · rfl
    · rw [Option.map_map]
      rfl
    · rfl
  have hmember : ∀ w : World, Member w c u ↔
      ∃ m, (w.mem m).map (fun ms => (ms.chptr, ms.client_p)) = some (c, u) := by
    intro w
    simp [Member, IsMember]
  simp [hmember, hkey]

/-! ### The loop -/

/-- A client joins unless it is a member. -/
def joinOne (c : Str) (w : World) (p : ℕ × MemberFlags) : World :=
  if (findChannelMembership w c p.1).isSome then w else addUserToChannel w c p.1 p.2

section Loop

variable (net : Net) (k : Nicks) (st : Joining) (p : ℕ × MemberFlags)

/-- A client that is named, with the status that it gets. -/
def Nicks.given (k : Nicks) (p : ℕ × MemberFlags) : ℕ × MemberFlags := (p.1, k.status p.2)

theorem map_fst_given (ps : List (ℕ × MemberFlags)) :
    (ps.map k.given).map Prod.fst = ps.map Prod.fst := by
  rw [List.map_map]
  rfl

@[simp] theorem w_copyNick (u : ℕ) (fl : MemberFlags) : (st.copyNick k u fl).w = st.w := rfl

@[simp] theorem joins_copyNick (u : ℕ) (fl : MemberFlags) :
    (st.copyNick k u fl).joins = st.joins := rfl

@[simp] theorem w_join (u : ℕ) (fl : MemberFlags) :
    (st.join k u fl).w = joinOne k.c st.w (u, fl) := by
  rw [Joining.join, joinOne]
  split_ifs <;> rfl

@[simp] theorem joins_join (u : ℕ) (fl : MemberFlags) : (st.join k u fl).joins =
    if (findChannelMembership st.w k.c u).isSome then st.joins else st.joins + 1 := by
  rw [Joining.join]
  split_ifs <;> rfl

/-- Announcing changes the line of modes and what is sent. -/
theorem announce_frame (u : ℕ) (fl : MemberFlags) :
    (st.announce k u fl).w = st.w ∧ (st.announce k u fl).joins = st.joins ∧
      (st.announce k u fl).names = st.names ∧ (st.announce k u fl).uids = st.uids := by
  have hflush : ∀ st : Joining, (st.flush k).w = st.w ∧ (st.flush k).joins = st.joins ∧
      (st.flush k).names = st.names ∧ (st.flush k).uids = st.uids := by
    intro st
    rw [Joining.flush]
    split_ifs <;> exact ⟨rfl, rfl, rfl, rfl⟩
  simp only [Joining.announce]
  split_ifs <;> simp [hflush, Joining.put]

theorem w_take : (st.take k p).w = joinOne k.c st.w (k.given p) := by
  rw [Joining.take, (announce_frame k _ _ _).1, w_join, w_copyNick, Nicks.given]

theorem joins_take : (st.take k p).joins =
    if (findChannelMembership st.w k.c p.1).isSome then st.joins else st.joins + 1 := by
  rw [Joining.take, (announce_frame k _ _ _).2.1, joins_join, w_copyNick, joins_copyNick]

theorem sameClients_joinOne (c : Str) (w : World) (p : ℕ × MemberFlags) :
    SameClients w.client (joinOne c w p).client := by
  rw [joinOne]
  split_ifs
  · exact .refl _
  · exact sameClients_addUserToChannel _ _ _ _

/-- The loop over the words is one over the clients that they name. -/
theorem foldl_turn (ws : List Str) : ws.foldl (Joining.turn net k) st =
    (ws.filterMap (named net st.w.client k.client_p)).foldl (Joining.take k) st := by
  induction ws generalizing st with
  | nil => rfl
  | cons s ws ih =>
    rw [foldl_cons, ih]
    cases hs : named net st.w.client k.client_p s with
    | none =>
      have hturn : st.turn net k s = st := by simp [Joining.turn, hs]
      rw [hturn, filterMap_cons_none hs]
    | some p =>
      have hturn : st.turn net k s = st.take k p := by simp [Joining.turn, hs]
      have hsame : SameClients st.w.client (st.take k p).w.client := by
        rw [w_take]
        exact sameClients_joinOne _ _ _
      rw [hturn, filterMap_cons_some hs, foldl_cons]
      congr 1
      exact filterMap_congr fun s _ => named_congr net hsame k.client_p s

theorem w_foldl_take (ps : List (ℕ × MemberFlags)) :
    (ps.foldl (Joining.take k) st).w = (ps.map k.given).foldl (joinOne k.c) st.w := by
  induction ps generalizing st with
  | nil => rfl
  | cons p ps ih => rw [foldl_cons, ih, w_take, map_cons, foldl_cons]

end Loop

/-- What holds when clients have joined the channel `c`: the lists are right, the time and the
modes of the channel are as before, other channels are as before, and a client has the status it
had, or that of its first naming when it was not a member. -/
structure Joined (c : Str) (w w' : World) (ps : List (ℕ × MemberFlags)) : Prop where
  linked : Linked w'
  clients : SameClients w.client w'.client
  chan : ∀ ch, w.chan c = some ch → ∃ ch', w'.chan c = some ch' ∧
    ch'.channelts = ch.channelts ∧ ch'.mode = ch.mode
  cuts : w'.cuts = w.cuts
  other : ∀ c', c' ≠ c → w'.chan c' = w.chan c'
  status : ∀ u fl, HasStatus w'.mem c u fl ↔ HasStatus w.mem c u fl ∨
    ¬Member w c u ∧ (ps.find? fun p => p.1 == u).map Prod.snd = some fl

theorem Joined.member (h : Joined c w w' ps) (u : ℕ) :
    Member w' c u ↔ Member w c u ∨ u ∈ ps.map Prod.fst := by
  have hfind : (∃ fl, (ps.find? fun p => p.1 == u).map Prod.snd = some fl) ↔
      u ∈ ps.map Prod.fst := by
    rw [← Option.isSome_iff_exists, Option.isSome_map, List.find?_isSome]
    simp
  constructor
  · intro hu
    obtain ⟨fl, hfl⟩ := hu.hasStatus
    rcases (h.status u fl).mp hfl with hfl | ⟨-, hfl⟩
    · exact .inl hfl.member
    · exact .inr (hfind.mp ⟨fl, hfl⟩)
  · intro hu
    by_cases hold : Member w c u
    · obtain ⟨fl, hfl⟩ := hold.hasStatus
      exact ((h.status u fl).mpr (.inl hfl)).member
    · obtain ⟨fl, hfl⟩ := hfind.mpr (hu.resolve_left hold)
      exact ((h.status u fl).mpr (.inr ⟨hold, hfl⟩)).member

/-- A client joins, or is a member. -/
theorem Joined.one (hw : Linked w) (hch : w.chan c = some ch) (p : ℕ × MemberFlags)
    (hp : (w.client p.1).kind.isClient = true) : Joined c w (joinOne c w p) [p] := by
  rw [joinOne]
  split_ifs with hfound
  · have hmember := (hw.isSome_find hp c).mp hfound
    refine ⟨hw, .refl _, fun ch h => ⟨ch, h, rfl, rfl⟩, rfl, fun _ _ => rfl, fun u fl => ?_⟩
    refine (or_iff_left ?_).symm
    rintro ⟨hnot, hfl⟩
    by_cases hu : p.1 = u
    · exact hnot (hu ▸ hmember)
    · simp [hu] at hfl
  · have hnot : ¬Member w c p.1 := fun h => hfound ((hw.isSome_find hp c).mpr h)
    have hnew : ∀ m ms, w.mem m = some ms → ms.chptr = c → ms.client_p ≠ p.1 :=
      fun m ms hms hc hu => hnot ⟨m, ms, hms, hc, hu⟩
    refine ⟨hw.addUserToChannel hch hnew, sameClients_addUserToChannel _ _ _ _, fun ch' h => ?_,
      cuts_addUserToChannel _ _ _ _, fun c' hc => ?_, fun u fl => ?_⟩
    · rw [chan_addUserToChannel hch, update_self]
      cases hch.symm.trans h
      exact ⟨_, rfl, rfl, rfl⟩
    · rw [chan_addUserToChannel hch, update_of_ne hc]
    · have hmem : ∀ m ms, (addUserToChannel w c p.1 p.2).mem m = some ms ↔
          (m = w.fresh ∧ ms = ⟨c, p.1, p.2⟩) ∨ w.mem m = some ms := by
        intro m ms
        rw [mem_addUserToChannel hch]
        by_cases hm : m = w.fresh
        · subst hm
          simp [hw.mem_fresh, eq_comm]
        · simp [hm]
      have hfind : (([p].find? fun p => p.1 == u).map Prod.snd = some fl) ↔
          p.1 = u ∧ p.2 = fl := by
        by_cases hu : p.1 = u <;> simp [hu]
      rw [hfind]
      constructor
      · rintro ⟨m, ms, hms, hc, hu, hfl⟩
        rcases (hmem m ms).mp hms with ⟨-, rfl⟩ | hms
        · exact .inr ⟨hu ▸ hnot, hu, hfl⟩
        · exact .inl ⟨m, ms, hms, hc, hu, hfl⟩
      · rintro (⟨m, ms, hms, hc, hu, hfl⟩ | ⟨-, hu, hfl⟩)
        · exact ⟨m, ms, (hmem m ms).mpr (.inr hms), hc, hu, hfl⟩
        · exact ⟨w.fresh, _, (hmem _ _).mpr (.inl ⟨rfl, rfl⟩), rfl, hu, hfl⟩

theorem Joined.trans {w'' : World}
    (h : Joined c w w' [p]) (h' : Joined c w' w'' ps) : Joined c w w'' (p :: ps) := by
  refine ⟨h'.linked, h.clients.trans h'.clients, fun ch hch => ?_, h'.cuts.trans h.cuts,
    fun c' hc => ?_, fun u fl => ?_⟩
  · obtain ⟨ch₁, hch₁, hts, hmode⟩ := h.chan ch hch
    obtain ⟨ch₂, hch₂, hts', hmode'⟩ := h'.chan ch₁ hch₁
    exact ⟨ch₂, hch₂, hts'.trans hts, hmode'.trans hmode⟩
  · rw [h'.other c' hc, h.other c' hc]
  · rw [h'.status, h.status, h.member]
    by_cases hu : p.1 = u
    · simp [hu]
    · have hu' : (p.1 == u) = false := by simpa using hu
      simp [hu', Ne.symm hu]

/-- **The memory after the loop.** -/
theorem Joined.foldl (hw : Linked w) (hch : w.chan c = some ch) (ps : List (ℕ × MemberFlags))
    (hps : ∀ p ∈ ps, (w.client p.1).kind.isClient = true) :
    Joined c w (ps.foldl (joinOne c) w) ps := by
  induction ps generalizing w ch with
  | nil => exact ⟨hw, .refl _, fun ch h => ⟨ch, h, rfl, rfl⟩, rfl, fun _ _ => rfl, by simp⟩
  | cons p ps ih =>
    have hone := Joined.one hw hch p (hps p mem_cons_self)
    obtain ⟨ch', hch', -, -⟩ := hone.chan ch hch
    refine hone.trans (ih hone.linked hch' fun q hq => ?_)
    obtain ⟨l, hl⟩ := hone.clients q.1
    rw [hl]
    exact hps q (mem_cons_of_mem p hq)

/-- Nobody joins when all are members. -/
theorem joins_foldl_take (k : Nicks) {st : Joining} (hw : Linked st.w) {ch : Chan}
    (hch : st.w.chan k.c = some ch) (ps : List (ℕ × MemberFlags))
    (hps : ∀ p ∈ ps, (st.w.client p.1).kind.isClient = true) :
    (ps.foldl (Joining.take k) st).joins = 0 ↔
      st.joins = 0 ∧ ∀ p ∈ ps, Member st.w k.c p.1 := by
  induction ps generalizing st ch with
  | nil => simp
  | cons p ps ih =>
    have hp := hps p mem_cons_self
    have hone : Joined k.c st.w (st.take k p).w [k.given p] := by
      rw [w_take]
      exact Joined.one hw hch _ hp
    obtain ⟨ch', hch', -, -⟩ := hone.chan ch hch
    have hps' : ∀ q ∈ ps, ((st.take k p).w.client q.1).kind.isClient = true := by
      intro q hq
      obtain ⟨l, hl⟩ := hone.clients q.1
      rw [hl]
      exact hps q (mem_cons_of_mem p hq)
    rw [foldl_cons, ih hone.linked hch' hps', joins_take, forall_mem_cons]
    by_cases hmember : Member st.w k.c p.1
    · have hw' : (st.take k p).w = st.w := by
        rw [w_take, joinOne]
        exact if_pos ((hw.isSome_find hp k.c).mpr hmember)
      rw [if_pos ((hw.isSome_find hp k.c).mpr hmember), hw']
      simp [hmember]
    · rw [if_neg (mt (hw.isSome_find hp k.c).mp hmember)]
      simp [hmember]

theorem isClient_of_named {f : ℕ → Client} {s : Str} (h : named net f client_p s = some p) :
    (f p.1).kind.isClient = true := by
  simp only [named] at h
  split at h
  · cases h
  · split_ifs at h with hnot
    cases h
    simpa using (not_or.mp hnot).2

/-- The clients that the nicks of a message name. -/
def namedIn (net : Net) (client : ℕ → Client) (client_p : ℕ) (nicks : Str) :
    List (ℕ × MemberFlags) :=
  (words nicks).filterMap (named net client client_p)

/-- The locals of the loop before it begins. -/
def Nicks.start (k : Nicks) (w : World) : Joining :=
  ⟨w, 0, [], ⟨k.names, false⟩, ⟨k.uids, false⟩, []⟩

/-- The loop over the nicks. -/
theorem takeNicks_eq (net : Net) (k : Nicks) (w : World) (nicks : Str) :
    takeNicks net k w nicks =
      let st := (namedIn net w.client k.client_p nicks).foldl (Joining.take k) (k.start w)
      if st.line = [] then st
      else { st with line := [], out := st.out ++ [.modes ⟨k.source, k.chname, '+', st.line⟩]
        } := by
  rw [takeNicks, foldl_turn]
  rfl

/-- **The memory after the nicks.** -/
theorem Linked.takeNicks (hw : Linked w) (net : Net) (k : Nicks) (hch : w.chan k.c = some ch)
    (nicks : Str) :
    Joined k.c w (takeNicks net k w nicks).w
        ((namedIn net w.client k.client_p nicks).map k.given) ∧
      ((Channel.takeNicks net k w nicks).joins = 0 ↔
        ∀ p ∈ namedIn net w.client k.client_p nicks, Member w k.c p.1) := by
  set ps := namedIn net w.client k.client_p nicks with hps
  have hclient : ∀ p ∈ ps, (w.client p.1).kind.isClient = true := by
    intro p hp
    obtain ⟨s, -, hs⟩ := mem_filterMap.mp hp
    exact isClient_of_named hs
  have hframe : (Channel.takeNicks net k w nicks).w =
        (ps.foldl (Joining.take k) (k.start w)).w ∧
      (Channel.takeNicks net k w nicks).joins =
        (ps.foldl (Joining.take k) (k.start w)).joins := by
    rw [takeNicks_eq, ← hps]
    dsimp only
    split_ifs <;> exact ⟨rfl, rfl⟩
  have hjoins := joins_foldl_take k (show Linked (k.start w).w from hw) hch ps hclient
  have hjoined : Joined k.c w ((ps.map k.given).foldl (joinOne k.c) w) (ps.map k.given) :=
    Joined.foldl hw hch _ fun q hq => by
      obtain ⟨p, hp, rfl⟩ := mem_map.mp hq
      exact hclient p hp
  rw [hframe.1, hframe.2, w_foldl_take]
  refine ⟨hjoined, hjoins.trans ?_⟩
  exact and_iff_right rfl

/-! ### The function -/

/-- A message that is accepted, and the channel it is for. -/
theorem msSjoin_eq {source_p : ℕ} (hread : readSjoin net.services parv = some msg)
    (hget : getOrCreateChannel w msg.chname now = some (w₀, c, isnew)) (hch : w₀.chan c = some ch) :
    msSjoin net now w client_p source_p parv =
      let tm := takeModes net w₀ c ch isnew (w₀.client source_p).name msg
      let st := takeNicks net (nicksOf net tm.1 c ch isnew client_p source_p msg) tm.1 msg.nicks
      if st.joins = 0 then (if isnew then destroyChannel st.w c else st.w, tm.2 ++ st.out)
      else (st.w, tm.2 ++ st.out ++ [.sjoin true st.uids.sent, .sjoin false st.names.sent]) := by
  simp [msSjoin, hread, hget, hch]

/-- A channel that has no members is destroyed. -/
theorem Linked.destroyChannel (hw : Linked w) (hnone : ∀ u, ¬Member w c u) :
    Linked (destroyChannel w c) := by
  have hold : ∀ {c' ch}, (Channel.destroyChannel w c).chan c' = some ch → w.chan c' = some ch := by
    intro c' ch h
    by_cases hc : c' = c
    · subst hc
      simp [Channel.destroyChannel] at h
    · simpa [Channel.destroyChannel, hc] using h
  refine ⟨⟨fun c' ch h => hw.members c' ch (hold h), fun c' ch h => hw.locmembers c' ch (hold h),
    hw.unlinked, hw.unique, fun m ms hms => ?_, hw.lt_fresh,
    hw.length_lt_of rfl fun _ ch h => ⟨ch, hold h⟩⟩, hw.userChannel⟩
  obtain ⟨ch, hch⟩ := hw.chan m ms hms
  have hc : ms.chptr ≠ c := fun hc => hnone ms.client_p ⟨m, ms, hms, hc, rfl⟩
  exact ⟨ch, by simpa [Channel.destroyChannel, hc] using hch⟩

/-- What holds after a message for the channel `c`, which was new or was `ch`. -/
structure Sjoined (w w' : World) (c : Str) (ch : Chan) (isnew : Bool) (msg : Sjoin)
    (noops ops : List ℕ) (ps : List (ℕ × MemberFlags)) : Prop where
  linked : Linked w'
  clients : SameClients w.client w'.client
  status : ∀ u fl, HasStatus w'.mem c u fl ↔
    HasStatus (leftMem w noops ops (resolve isnew ch.channelts msg.newts).keepOurs) c u fl ∨
      ¬Member w c u ∧ (ps.find? fun p => p.1 == u).map Prod.snd = some fl
  member : ∀ u, Member w' c u ↔ Member w c u ∨ u ∈ ps.map Prod.fst
  chan : (isnew = true → ∃ u ∈ ps.map Prod.fst, ¬Member w c u) →
    ∃ ch', w'.chan c = some ch' ∧
      ch'.channelts = (resolve isnew ch.channelts msg.newts).channelts ∧
      ch'.mode = (resolve isnew ch.channelts msg.newts).mode msg.mode ch.mode

/-- Only the clients and the memberships of the memory before the message matter. -/
theorem Sjoined.congr {ops : List ℕ} (hmem : w₀.mem = w.mem) (hclient : w₀.client = w.client)
    (h : Sjoined w₀ w' c ch isnew msg noops ops ps) :
    Sjoined w w' c ch isnew msg noops ops ps := by
  rcases w with ⟨client, chan, cuts, mem, channode, locchannode, usernode, fresh⟩
  dsimp only at hmem hclient
  subst hmem hclient
  exact ⟨h.linked, h.clients, h.status, h.member, h.chan⟩

/-- **What a message does to the memory.** -/
theorem Linked.msSjoin {source_p : ℕ} {ops : List ℕ} (hw : Linked w₀)
    (hread : readSjoin net.services parv = some msg)
    (hget : Channel.getOrCreateChannel w msg.chname now = some (w₀, c, isnew))
    (hm : Members w₀ c ch noops ops) (hnew : isnew = true → ∀ u, ¬Member w₀ c u) :
    Sjoined w₀ (msSjoin net now w client_p source_p parv).1 c ch isnew msg noops ops
      ((namedIn net w₀.client client_p msg.nicks).map
        (nicksOf net w₀ c ch isnew client_p source_p msg).given) := by
  rw [msSjoin_eq hread hget hm.chan]
  cases htm : Channel.takeModes net w₀ c ch isnew (w₀.client source_p).name msg with
  | mk w₁ out₁ =>
  obtain ⟨hw₁, hclient, hmem, ⟨ch₁, hch₁, hts, hmode⟩, -⟩ := hw.takeModes hm net isnew _ msg htm
  obtain ⟨hjoined, hjoins⟩ := hw₁.takeNicks net
    (nicksOf net w₁ c ch isnew client_p source_p msg) hch₁ msg.nicks
  have hmember := member_of_leftMem hmem c
  have hgiven : (nicksOf net w₁ c ch isnew client_p source_p msg).given =
      (nicksOf net w₀ c ch isnew client_p source_p msg).given := rfl
  have hlink : (nicksOf net w₁ c ch isnew client_p source_p msg).client_p = client_p := rfl
  have hc : (nicksOf net w₁ c ch isnew client_p source_p msg).c = c := rfl
  rw [hgiven, hlink, hclient, hc] at hjoined
  rw [hlink, hclient, hc] at hjoins
  simp only [hmember] at hjoins
  set ps := namedIn net w₀.client client_p msg.nicks with hps
  set st := Channel.takeNicks net (nicksOf net w₁ c ch isnew client_p source_p msg) w₁
    msg.nicks with hst
  obtain ⟨ch₂, hch₂, hts₂, hmode₂⟩ := hjoined.chan ch₁ hch₁
  have hleft : ∀ u fl, HasStatus w₁.mem c u fl ↔ HasStatus
      (leftMem w₀ noops ops (resolve isnew ch.channelts msg.newts).keepOurs) c u fl := by
    intro u fl
    rw [funext hmem]
  -- the memory, but for the channel itself, is that after the loop
  suffices h : ∀ w' : World, w'.mem = st.w.mem → w'.client = st.w.client → Linked w' →
      ((isnew = true → ∃ u ∈ ps.map Prod.fst, ¬Member w₀ c u) → w'.chan = st.w.chan) →
      Sjoined w₀ w' c ch isnew msg noops ops
        (ps.map (nicksOf net w₀ c ch isnew client_p source_p msg).given) by
    dsimp only
    split_ifs with hzero hisnew
    · have hnone : ∀ u, ¬Member st.w c u := by
        intro u hu
        rcases (hjoined.member u).mp hu with hu | hu
        · exact hnew hisnew u ((hmember u).mp hu)
        · rw [map_fst_given] at hu
          obtain ⟨p, hp, rfl⟩ := mem_map.mp hu
          exact hnew hisnew _ (hjoins.mp hzero p hp)
      refine h _ rfl rfl (hjoined.linked.destroyChannel hnone) fun hex => ?_
      obtain ⟨u, hu, hnot⟩ := hex hisnew
      obtain ⟨p, hp, rfl⟩ := mem_map.mp hu
      exact absurd (hjoins.mp hzero p hp) hnot
    · exact h _ rfl rfl hjoined.linked fun _ => rfl
    · exact h _ rfl rfl hjoined.linked fun _ => rfl
  intro w' hmem' hclient' hlinked' hchan'
  refine ⟨hlinked', ?_, fun u fl => ?_, fun u => ?_, fun hex => ⟨ch₂, ?_, hts₂.trans hts,
    hmode₂.trans hmode⟩⟩
  · rw [hclient', ← hclient]
    exact hjoined.clients
  · rw [hmem', hjoined.status, hleft, hmember]
  · have hsame : Member w' c u ↔ Member st.w c u := by
      simp [Member, IsMember, hmem']
    rw [hsame, hjoined.member, hmember]
  · rw [map_fst_given] at hex
    rw [hchan' hex]
    exact hch₂

theorem chname_of_readSjoin {services : Bool}
    (h : readSjoin services parv = some msg) : msg.chname ≠ [] := by
  rintro hnil
  simp only [readSjoin] at h
  split at h
  · split_ifs at h with _ hname
    split at h
    · split_ifs at h
      cases h
      obtain rfl := hnil
      exact hname rfl
    · cases h
  · cases h

/-! ### The channel before a message -/

/-- The channel that a message makes. -/
def madeChan (msg : Sjoin) (now : ℤ) : Chan := .fresh (storedName msg.chname) now

/-- The channel that a message is for, and whether it is made for the message. -/
def chanFor (w : World) (msg : Sjoin) (now : ℤ) : Chan × Bool :=
  match w.chan (chanPtr w msg.chname) with
  | none => (madeChan msg now, true)
  | some ch => (ch, false)

/-- The memory when the channel is there. -/
def worldFor (w : World) (msg : Sjoin) (now : ℤ) : World :=
  match w.chan (chanPtr w msg.chname) with
  | none => w.makeChan msg.chname now
  | some _ => w

/-- Whose modes are kept. -/
def resolvedFor (w : World) (msg : Sjoin) (now : ℤ) : Resolved :=
  resolve (chanFor w msg now).2 (chanFor w msg now).1.channelts msg.newts

/-- The memberships on a list of a channel. -/
def listOf (w : World) (c : Str) (k : MemberList) : List ℕ :=
  match w.chan c with
  | none => []
  | some ch => walk w.channode w.fresh (ch.members k).head

/-- The memberships when the loop over the nicks begins: as they were before the message, or, when
the message wins, as `remove_our_modes` leaves them. -/
def memAtNicks (w : World) (msg : Sjoin) (now : ℤ) : ℕ → Option Membership :=
  leftMem w (listOf w (chanPtr w msg.chname) .noop) (listOf w (chanPtr w msg.chname) .op)
    (resolvedFor w msg now).keepOurs

/-- A client that is named, with the status that the message gives it. -/
def givenBy (w : World) (msg : Sjoin) (now : ℤ) (p : ℕ × MemberFlags) : ℕ × MemberFlags :=
  (p.1, if (resolvedFor w msg now).keepNew then p.2 else ⟨false, false, p.2.chanop⟩)

theorem map_fst_givenBy (w : World) (msg : Sjoin) (now : ℤ) (ps : List (ℕ × MemberFlags)) :
    (ps.map (givenBy w msg now)).map Prod.fst = ps.map Prod.fst := by
  rw [List.map_map]
  rfl

theorem mem_worldFor (w : World) (msg : Sjoin) (now : ℤ) : (worldFor w msg now).mem = w.mem := by
  rw [worldFor]
  cases w.chan (chanPtr w msg.chname) <;> rfl

theorem client_worldFor (w : World) (msg : Sjoin) (now : ℤ) :
    (worldFor w msg now).client = w.client := by
  rw [worldFor]
  cases w.chan (chanPtr w msg.chname) <;> rfl

theorem Linked.listOf (hw : Linked w) {ops : List ℕ} (hm : Members w c ch noops ops) :
    listOf w c .noop = noops ∧ listOf w c .op = ops := by
  have hnoops : noops.length ≤ w.fresh :=
    length_le_of_lt hm.isList_noop.nodup fun m h => by
      obtain ⟨ms, hms, -⟩ := hm.noop h
      exact hw.lt_fresh m ms hms
  have hops : ops.length ≤ w.fresh :=
    length_le_of_lt hm.isList_op.nodup fun m h => by
      obtain ⟨ms, hms, -⟩ := hm.op h
      exact hw.lt_fresh m ms hms
  simp only [Channel.listOf, hm.chan]
  exact ⟨hm.isList_noop.walk hnoops, hm.isList_op.walk hops⟩

/-- The channel is there, with the members that are on its lists. -/
theorem Linked.worldFor (hw : Linked w) (msg : Sjoin) (now : ℤ) (hname : msg.chname ≠ []) :
    Channel.getOrCreateChannel w msg.chname now =
        some (worldFor w msg now, chanPtr w msg.chname, (chanFor w msg now).2) ∧
      Linked (worldFor w msg now) ∧
      (Channel.worldFor w msg now).chan (chanPtr w msg.chname) = some (chanFor w msg now).1 ∧
      Members (Channel.worldFor w msg now) (chanPtr w msg.chname) (chanFor w msg now).1
        (Channel.listOf w (chanPtr w msg.chname) .noop)
        (Channel.listOf w (chanPtr w msg.chname) .op) ∧
      ((chanFor w msg now).2 = true → ∀ u, ¬Member w (chanPtr w msg.chname) u) := by
  rw [Channel.getOrCreateChannel, if_neg hname]
  rcases hw.chan_chanPtr msg.chname with ⟨ch, hch, hfind⟩ | ⟨hnone, hfind⟩
  · obtain ⟨noops, ops, hm⟩ := hw.exists_members hch
    obtain ⟨hnoops, hops⟩ := hw.listOf hm
    simp only [Channel.worldFor, chanFor, hch, hfind, hnoops, hops]
    exact ⟨trivial, hw, trivial, hm, by simp⟩
  · have hnot : ∀ u, ¬Member w (chanPtr w msg.chname) u := by
      rintro u ⟨m, ms, hms, hc, -⟩
      obtain ⟨ch, hch'⟩ := hw.chan m ms hms
      rw [hc, hnone] at hch'
      cases hch'
    have hlinked := hw.makeChan hnone now
    simp only [Channel.worldFor, chanFor, Channel.listOf, hnone, hfind]
    refine ⟨trivial, hlinked, update_self .., ?_, fun _ => hnot⟩
    have honMembers : ∀ k m, ¬OnMembers (w.makeChan msg.chname now) (chanPtr w msg.chname) k m := by
      rintro k m ⟨ms, hms, hc, -⟩
      exact hnot ms.client_p ⟨m, ms, hms, hc, rfl⟩
    exact
      { chan := update_self ..
        isList_noop := isList_empty _
        isList_op := isList_empty _
        mem_noops := fun m => by simpa using honMembers .noop m
        mem_ops := fun m => by simpa using honMembers .op m
        unique := fun m m' ms ms' hms hms' hc hc' hu =>
          hw.unique m m' ms ms' hms hms' (hc.trans hc'.symm) hu
        lt_fresh := hw.lt_fresh }

/-- **What a message does.** -/
theorem Linked.sjoined (hw : Linked w)
    (hread : readSjoin net.services parv = some msg) (now : ℤ) (client_p source_p : ℕ) :
    Sjoined w (Channel.msSjoin net now w client_p source_p parv).1 (chanPtr w msg.chname)
      (chanFor w msg now).1 (chanFor w msg now).2 msg
      (Channel.listOf w (chanPtr w msg.chname) .noop) (Channel.listOf w (chanPtr w msg.chname) .op)
      ((namedIn net w.client client_p msg.nicks).map (givenBy w msg now)) := by
  obtain ⟨hget, hlinked, -, hm, hnew⟩ := hw.worldFor msg now (chname_of_readSjoin hread)
  refine Sjoined.congr (mem_worldFor w msg now) (client_worldFor w msg now) ?_
  rw [← client_worldFor w msg now]
  refine hlinked.msSjoin hread hget hm fun h u hu => hnew h u ?_
  simp only [Member, IsMember, mem_worldFor] at hu
  exact hu

/-- A message is about one channel. -/
theorem Linked.elsewhere (hw : Linked w)
    (hread : readSjoin net.services parv = some msg) (now : ℤ) (client_p source_p : ℕ) :
    (Channel.msSjoin net now w client_p source_p parv).1.cuts = (Channel.worldFor w msg now).cuts ∧
      ∀ c, c ≠ chanPtr w msg.chname →
        (Channel.msSjoin net now w client_p source_p parv).1.chan c = w.chan c := by
  obtain ⟨hget, hlinked, hch, hm, -⟩ := hw.worldFor msg now (chname_of_readSjoin hread)
  have hmade : ∀ c, c ≠ chanPtr w msg.chname → (Channel.worldFor w msg now).chan c = w.chan c := by
    intro c hc
    rw [Channel.worldFor]
    split
    · exact update_of_ne hc ..
    · rfl
  rw [msSjoin_eq hread hget hch]
  cases htm : Channel.takeModes net (Channel.worldFor w msg now) (chanPtr w msg.chname)
    (chanFor w msg now).1 (chanFor w msg now).2 ((Channel.worldFor w msg now).client source_p).name
      msg with
  | mk w₁ out₁ =>
  obtain ⟨hw₁, -, -, ⟨ch₁, hch₁, -, -⟩, hcuts, hother⟩ := hlinked.takeModes hm net _ _ msg htm
  have hjoined := (hw₁.takeNicks net (nicksOf net w₁ (chanPtr w msg.chname) (chanFor w msg now).1
    (chanFor w msg now).2 client_p source_p msg) hch₁ msg.nicks).1
  have hchan : ∀ c, c ≠ chanPtr w msg.chname → (Channel.takeNicks net
      (nicksOf net w₁ (chanPtr w msg.chname) (chanFor w msg now).1 (chanFor w msg now).2 client_p
        source_p msg) w₁ msg.nicks).w.chan c = w.chan c :=
    fun c hc => (hjoined.other c hc).trans ((hother c hc).trans (hmade c hc))
  dsimp only
  split_ifs
  · exact ⟨hjoined.cuts.trans hcuts, fun c hc => (update_of_ne hc ..).trans (hchan c hc)⟩
  · exact ⟨hjoined.cuts.trans hcuts, hchan⟩
  · exact ⟨hjoined.cuts.trans hcuts, hchan⟩

/-! ### Names that fit -/

/-- No channel with a cut name has the key. -/
def Alone (w : World) (key : Str) : Prop :=
  key.length + 1 = channelLen → ∀ n, w.chan (cutPtr key (n + 1)) = none

section Fitting

variable {chname : Str}

theorem length_chanKey_of_lt (hlt : chname.length < channelLen) :
    (chanKey chname).length = chname.length := by
  rw [length_chanKey]
  exact min_eq_right (Nat.le_pred_of_lt hlt)

/-- A name that fits is found as its key. -/
theorem Alone.findChannel (h : Alone w (chanKey chname)) (hlt : chname.length < channelLen) :
    findChannel w chname =
      if (w.chan (chanKey chname)).isSome then some (chanKey chname) else none := by
  rw [Channel.findChannel, if_neg (not_le.mpr hlt)]
  change _ = newest w (chanKey chname) 0
  by_cases hlast : chname.length + 1 = channelLen
  · have hnone := h ((congrArg (· + 1) (length_chanKey_of_lt hlt)).trans hlast)
    have hnewest : ∀ n, newest w (chanKey chname) n = newest w (chanKey chname) 0 := by
      intro n
      induction n with
      | zero => rfl
      | succ n ih =>
        refine Eq.trans ?_ ih
        rw [newest, hnone n, if_neg (by simp)]
    rw [if_pos hlast, hnewest]
  · rw [if_neg hlast]

theorem Alone.chanPtr (h : Alone w (chanKey chname)) (hlt : chname.length < channelLen) :
    chanPtr w chname = chanKey chname := by
  have hfind := h.findChannel hlt
  rw [← take_of_length_le hlt.le] at hfind
  split_ifs at hfind
  · rw [chanPtr_of_find hfind, take_of_length_le hlt.le]
  · rw [chanPtr_of_none hfind, if_neg (not_le.mpr hlt), cutPtr_zero]

/-- A name that is not found. -/
theorem Linked.alone (hw : Linked w) (hlt : chname.length < channelLen)
    (h : findChannel w chname = none) :
    Alone w (chanKey chname) ∧ w.chan (chanKey chname) = none := by
  rw [findChannel, if_neg (not_le.mpr hlt), newest_eq_none_iff] at h
  refine ⟨fun hlast n => ?_, cutPtr_zero (chanKey chname) ▸ h 0 (Nat.zero_le _)⟩
  rw [length_chanKey_of_lt hlt] at hlast
  rw [if_pos hlast] at h
  by_cases hn : n + 1 ≤ w.cuts
  · exact h (n + 1) hn
  · -- the address is longer than those that are in use
    by_contra hne
    obtain ⟨ch, hch⟩ := ne_none_iff_exists'.mp hne
    have hlen := hw.length_lt _ ch hch
    rw [cutPtr, length_append, length_replicate, length_chanKey_of_lt hlt] at hlen
    omega

/-- A message for the channel makes none with a cut name. -/
theorem Linked.alone_msSjoin {net : Net} {parv : List Str} {msg : Sjoin} (hw : Linked w)
    (hread : readSjoin net.services parv = some msg) (now : ℤ) (client_p source_p : ℕ)
    (halone : Alone w (chanKey msg.chname)) (hlt : msg.chname.length < channelLen) :
    Alone (Channel.msSjoin net now w client_p source_p parv).1 (chanKey msg.chname) := by
  intro hlast n
  rw [(hw.elsewhere hread now client_p source_p).2 _ ?_]
  · exact halone hlast n
  · rw [halone.chanPtr hlt]
    intro heq
    have hlen := congrArg length heq
    rw [cutPtr, length_append, length_replicate] at hlen
    omega

end Fitting

theorem linked_oneMember : Linked oneMember := by
  have hlinked := (linked_init behindServer).setChan_fresh (c := ['#']) rfl le_rfl (by decide)
    ['#'] 5
  exact hlinked.addUserToChannel rfl fun m ms hms => absurd hms (by simp [World.setChan,
    World.init])

end Ratbox.Channel
