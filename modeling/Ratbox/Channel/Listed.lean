import Ratbox.Channel.Membership

/-!
# The lists of members after every run

When a fake client leaves a channel, only the list of local members goes wrong. The functions that
join, remove and op members do nothing with that list but change it, so everything else is as if all
clients were on other servers. Then the lists of members, and those of the channels of clients, are
right after every run.

Source: `src/channel.c`, lines 95–282.

## Main definitions

* `Channel.World.withoutLocals`: the memory without the lists of local members.
* `Channel.Listed`: the other lists have the memberships that belong on them.

## Main results

* `Channel.step_withoutLocals`: a step does the same without the lists of local members.
* `Channel.listed_of_run`: the lists after a run.
* `Channel.Listed.walk_members`: what a walk of a list of members meets.
-/

namespace Ratbox.Channel

open Text Dlink Run Option Function

/-! ### Without the lists of local members -/

/-- The kind of a client on another server. -/
def Kind.remote : Kind → Kind
  | .localUser | .fakeUser => .remoteUser
  | kind => kind

/-- A channel without its list of local members. -/
def Chan.withoutLocals (ch : Chan) : Chan := { ch with locmembers := .empty }

/-- **The memory without the lists of local members**, as if all clients were on other servers. -/
def World.withoutLocals (w : World) : World :=
  { w with
    client := fun u => { w.client u with kind := (w.client u).kind.remote }
    chan := fun c => (w.chan c).map Chan.withoutLocals
    locchannode := fun _ => ⟨none, none⟩ }

section WithoutLocals

variable {w : World} {c : Str} {ch : Chan} {u m : ℕ}

@[simp] theorem isClient_remote (kind : Kind) : kind.remote.isClient = kind.isClient := by
  cases kind <;> rfl

@[simp] theorem myClient_remote (kind : Kind) : kind.remote.myClient = false := by
  cases kind <;> rfl

@[simp] theorem servptrIsMe_remote (kind : Kind) : kind.remote.servptrIsMe = false := by
  cases kind <;> rfl

theorem kind_withoutLocals_ne (w : World) (u : ℕ) :
    (w.withoutLocals.client u).kind ≠ .fakeUser := by
  change (w.client u).kind.remote ≠ .fakeUser
  cases (w.client u).kind <;> simp [Kind.remote]

theorem World.eq_of_fields {w w' : World} (hclient : w.client = w'.client)
    (hchan : w.chan = w'.chan) (hcuts : w.cuts = w'.cuts) (hmem : w.mem = w'.mem)
    (hchannode : w.channode = w'.channode) (hlocchannode : w.locchannode = w'.locchannode)
    (husernode : w.usernode = w'.usernode) (hfresh : w.fresh = w'.fresh) : w = w' := by
  cases w
  cases w'
  simp_all

theorem map_update_chan (f : Str → Option Chan) (c : Str) (o : Option Chan) :
    (fun x => (update f c o x).map Chan.withoutLocals) =
      update (fun x => (f x).map Chan.withoutLocals) c (o.map Chan.withoutLocals) :=
  Function.comp_update (Option.map Chan.withoutLocals) f c o

theorem remote_update_client (f : ℕ → Client) (u : ℕ) (l : DList ℕ) :
    (fun x => { update f u { f u with channel := l } x with
      kind := (update f u { f u with channel := l } x).kind.remote }) =
      update (fun x => { f x with kind := (f x).kind.remote }) u
        { f u with kind := (f u).kind.remote, channel := l } :=
  comp_update (fun client : Client => { client with kind := client.kind.remote }) f u
    { f u with channel := l }

theorem findChannelMembership_withoutLocals (w : World) (c : Str) (u : ℕ) :
    findChannelMembership w.withoutLocals c u = findChannelMembership w c u := by
  have hkind : (w.withoutLocals.client u).kind.isClient = (w.client u).kind.isClient :=
    isClient_remote _
  have hchan : w.withoutLocals.chan c = (w.chan c).map Chan.withoutLocals := rfl
  rw [findChannelMembership, findChannelMembership, hkind, hchan]
  cases w.chan c <;> rfl

theorem newest_withoutLocals (w : World) (key : Str) (n : ℕ) :
    newest w.withoutLocals key n = newest w key n := by
  have hchan : ∀ c, (w.withoutLocals.chan c).isSome = (w.chan c).isSome := fun _ => isSome_map
  induction n with
  | zero => rw [newest, newest, hchan]
  | succ n ih => rw [newest, newest, hchan, ih]

theorem findChannel_withoutLocals (w : World) (chname : Str) :
    findChannel w.withoutLocals chname = findChannel w chname := by
  rw [findChannel, findChannel, newest_withoutLocals]
  rfl

theorem chanPtr_withoutLocals (w : World) (chname : Str) :
    chanPtr w.withoutLocals chname = chanPtr w chname := by
  rw [chanPtr, chanPtr, findChannel_withoutLocals]
  rfl

theorem getOrCreateChannel_withoutLocals (w : World) (chname : Str) (now : ℤ) :
    getOrCreateChannel w.withoutLocals chname now =
      (getOrCreateChannel w chname now).map fun r => (r.1.withoutLocals, r.2) := by
  rw [getOrCreateChannel, getOrCreateChannel, findChannel_withoutLocals, chanPtr_withoutLocals]
  split_ifs
  · rfl
  · cases findChannel w (chname.take channelLen) with
    | none =>
      refine congrArg some (Prod.ext (World.eq_of_fields rfl ?_ rfl rfl rfl rfl rfl rfl) rfl)
      rw [World.makeChan, chanPtr_withoutLocals]
      exact (map_update_chan w.chan _ (some (.fresh (storedName chname) now))).symm
    | some c => rfl

theorem addUserToChannel_eq (hch : w.chan c = some ch) (u : ℕ) (flags : MemberFlags) :
    addUserToChannel w c u flags =
      let (locchannode, locmembers) :=
        if (w.client u).kind.myClient then add w.locchannode w.fresh ch.locmembers
        else (update w.locchannode w.fresh ⟨none, none⟩, ch.locmembers)
      { client := update w.client u { w.client u with
        channel := (add w.usernode w.fresh (w.client u).channel).2 }
        chan := update w.chan c (some { ch with
          members := update ch.members (memlist flags)
            (add w.channode w.fresh (ch.members (memlist flags))).2
          locmembers := locmembers })
        cuts := w.cuts
        mem := update w.mem w.fresh (some ⟨c, u, flags⟩)
        channode := (add w.channode w.fresh (ch.members (memlist flags))).1
        locchannode := locchannode
        usernode := (add w.usernode w.fresh (w.client u).channel).1
        fresh := w.fresh + 1 } := by
  rw [addUserToChannel, hch]
  rfl

theorem addUserToChannel_withoutLocals (w : World) (c : Str) (u : ℕ) (flags : MemberFlags) :
    addUserToChannel w.withoutLocals c u flags = (addUserToChannel w c u flags).withoutLocals := by
  have hchan : w.withoutLocals.chan c = (w.chan c).map Chan.withoutLocals := rfl
  have hkind : (w.withoutLocals.client u).kind.myClient = false := myClient_remote _
  have hloc : update w.withoutLocals.locchannode w.withoutLocals.fresh ⟨none, none⟩ = fun _ =>
    ⟨none, none⟩ :=
    update_eq_self_iff.mpr rfl
  cases hch : w.chan c with
  | none => rw [addUserToChannel, addUserToChannel, hchan, hch]; rfl
  | some ch =>
    rw [hch, map_some] at hchan
    rw [addUserToChannel_eq hchan, addUserToChannel_eq hch, hkind, if_neg Bool.false_ne_true, hloc]
    refine World.eq_of_fields (remote_update_client w.client u _).symm ?_ rfl rfl rfl rfl rfl rfl
    refine Eq.trans ?_ (map_update_chan w.chan c _).symm
    rfl

theorem removeMember_withoutLocals (w : World) (m : ℕ) (ms : Membership) :
    removeMember w.withoutLocals m ms = (removeMember w m ms).withoutLocals := by
  have hchan : w.withoutLocals.chan ms.chptr = (w.chan ms.chptr).map Chan.withoutLocals := rfl
  have hkind : (w.withoutLocals.client ms.client_p).kind.servptrIsMe = false := servptrIsMe_remote _
  cases hch : w.chan ms.chptr with
  | none => rw [removeMember, removeMember, hchan, hch]; rfl
  | some ch =>
    rw [hch, map_some] at hchan
    have hleft : leftChan w.withoutLocals m ms ch.withoutLocals =
        (leftChan w m ms ch).withoutLocals := by
      rw [leftChan, hkind, if_neg Bool.false_ne_true]
      rfl
    have hcount : chanMemberCount (leftChan w m ms ch).withoutLocals =
      chanMemberCount (leftChan w m ms ch) := rfl
    rw [removeMember_eq hchan, removeMember_eq hch, hleft, hcount, hkind, if_neg Bool.false_ne_true]
    refine World.eq_of_fields rfl ?_ rfl rfl rfl rfl rfl rfl
    refine Eq.trans ?_ (map_update_chan _ _ _).symm
    rw [apply_ite (Option.map Chan.withoutLocals)]
    rfl

theorem setUserChannel_withoutLocals (w : World) (u : ℕ) (l : DList ℕ) (h : Dlink.Heap ℕ) :
    { w.withoutLocals.setUserChannel u l with usernode := h } =
    { w.setUserChannel u l with usernode := h }.withoutLocals :=
  World.eq_of_fields (remote_update_client w.client u l).symm rfl rfl rfl rfl rfl rfl rfl

theorem removeUserFromChannel_withoutLocals (w : World) (m : ℕ) :
    removeUserFromChannel w.withoutLocals m = (removeUserFromChannel w m).withoutLocals := by
  have hmem : w.withoutLocals.mem m = w.mem m := rfl
  rw [removeUserFromChannel, removeUserFromChannel, hmem]
  cases w.mem m with
  | none => rfl
  | some ms =>
    dsimp only
    rw [← removeMember_withoutLocals, ← setUserChannel_withoutLocals]
    rfl

theorem removeUserFromChannels_withoutLocals (w : World) (u : ℕ) :
    removeUserFromChannels w.withoutLocals u = (removeUserFromChannels w u).withoutLocals := by
  have hturns : ∀ (ids : List ℕ) (w : World),
      ids.foldl removeTurn w.withoutLocals = (ids.foldl removeTurn w).withoutLocals := by
    intro ids
    induction ids with
    | nil => exact fun w => rfl
    | cons m ids ih =>
      intro w
      have hturn : removeTurn w.withoutLocals m = (removeTurn w m).withoutLocals := by
        have hmem : w.withoutLocals.mem m = w.mem m := rfl
        rw [removeTurn, removeTurn, hmem]
        cases w.mem m with
        | none => rfl
        | some ms => exact removeMember_withoutLocals w m ms
      rw [List.foldl_cons, List.foldl_cons, hturn, ih]
  have hwalk : walk w.withoutLocals.usernode w.withoutLocals.fresh
      (w.withoutLocals.client u).channel.head = walk w.usernode w.fresh (w.client u).channel.head :=
        rfl
  rw [removeUserFromChannels, removeUserFromChannels, hwalk, hturns]
  exact setUserChannel_withoutLocals _ u .empty _

theorem chmOp_withoutLocals (w : World) (m : ℕ) (add : Bool) :
    chmOp w.withoutLocals m add = (chmOp w m add).withoutLocals := by
  have hmem : w.withoutLocals.mem m = w.mem m := rfl
  have hmove : ∀ c k k', moveChannode w.withoutLocals m c k k' =
      (moveChannode w m c k k').withoutLocals := by
    intro c k k'
    have hchan : w.withoutLocals.chan c = (w.chan c).map Chan.withoutLocals := rfl
    cases hch : w.chan c with
    | none => rw [moveChannode, moveChannode, hchan, hch]; rfl
    | some ch =>
      rw [hch, map_some] at hchan
      rw [moveChannode_eq hchan, moveChannode_eq hch]
      refine World.eq_of_fields rfl ?_ rfl rfl rfl rfl rfl rfl
      refine Eq.trans ?_ (map_update_chan w.chan c _).symm
      rfl
  rw [chmOp, chmOp, hmem]
  cases w.mem m with
  | none => rfl
  | some ms =>
    dsimp only
    rw [hmove, hmove]
    split_ifs <;> rfl

/-- **A step** does the same without the lists of local members. -/
theorem step_withoutLocals (w : World) (op : Op) :
    step w.withoutLocals op = (step w op).map World.withoutLocals := by
  cases op with
  | join chname now u flags =>
    have hfind : ∀ r : World × Str × Bool,
        (if !(r.1.withoutLocals.client u).kind.isClient || (findChannelMembership r.1.withoutLocals
          r.2.1 u).isSome then none else some (addUserToChannel r.1.withoutLocals r.2.1 u flags)) =
        (if !(r.1.client u).kind.isClient || (findChannelMembership r.1 r.2.1 u).isSome then none
          else some (addUserToChannel r.1 r.2.1 u flags)).map World.withoutLocals := by
      intro r
      have hkind : (r.1.withoutLocals.client u).kind.isClient = (r.1.client u).kind.isClient :=
        isClient_remote _
      rw [hkind, findChannelMembership_withoutLocals, addUserToChannel_withoutLocals]
      split_ifs <;> rfl
    change (getOrCreateChannel w.withoutLocals chname now).bind _ =
      ((getOrCreateChannel w chname now).bind _).map _
    rw [getOrCreateChannel_withoutLocals, bind_map, map_bind]
    exact congrArg _ (funext hfind)
  | part c u =>
    rw [step, step, findChannelMembership_withoutLocals, map_map]
    exact congrArg (Option.map · _) (funext (removeUserFromChannel_withoutLocals w))
  | quit u => exact congrArg some (removeUserFromChannels_withoutLocals w u)
  | chmOp c u add =>
    rw [step, step, findChannelMembership_withoutLocals, map_map]
    exact congrArg (Option.map · _) (funext fun m => chmOp_withoutLocals w m add)

/-- The lists of members and those of the channels of clients have the memberships that belong on
them. -/
def Listed (w : World) : Prop := Linked w.withoutLocals

/-- **The lists of members and those of the clients are right after every run**, also when fake
clients leave. -/
theorem listed_of_run (clients : ℕ → Client) {ops : List Op}
    (hrun : run step (World.init clients) ops = some w) :
    Listed w := by
  have hmeet : StepsMeet step (fun _ _ => True) (World.init clients) ops :=
    StepsMeet.of_forall (fun _ _ => trivial) _ _
  refine (invariant (fun w => Linked w.withoutLocals ∧ Populated w.withoutLocals) ?_ ?_ hmeet
    hrun).1
  · intro w op w' h _ hstep
    have hstep' : step w.withoutLocals op = some w'.withoutLocals := by
      rw [step_withoutLocals, hstep, map_some]
    refine h.1.step h.2 ?_ hstep'
    -- no client is a fake one there
    cases op with
    | part c u => exact fun hfake => absurd hfake (kind_withoutLocals_ne w u)
    | quit u => exact fun hfake => absurd hfake (kind_withoutLocals_ne w u)
    | join chname now u flags => trivial
    | chmOp c u add => trivial
  · exact ⟨linked_init fun u => { clients u with kind := (clients u).kind.remote },
      populated_init fun u => { clients u with kind := (clients u).kind.remote }⟩

end WithoutLocals

/-! ### What the lists have -/

namespace Listed

variable {w : World} {c : Str} {ch : Chan} {u m : ℕ}

/-- **A walk of a list of members** meets the memberships that belong on it, each once. -/
theorem walk_members (hw : Listed w) (hch : w.chan c = some ch) (k : MemberList) :
    (walk w.channode w.fresh (ch.members k).head).Nodup ∧
      ∀ m, m ∈ walk w.channode w.fresh (ch.members k).head ↔ OnMembers w c k m := by
  have hchan : w.withoutLocals.chan c = some ch.withoutLocals :=
    congrArg (Option.map Chan.withoutLocals) hch
  have hholds : Holds w.channode (ch.members k) (OnMembers w c k) := hw.members c _ hchan k
  have hlt : ∀ m, OnMembers w c k m → m < w.fresh := fun m ⟨ms, hms, _⟩ => hw.lt_fresh m ms hms
  obtain ⟨ids, hids, hmem⟩ := hholds
  have hwalk : walk w.channode w.fresh (ch.members k).head = ids :=
    hids.walk (length_le_of_lt hids.nodup fun m hm => hlt m ((hmem m).mp hm))
  rw [hwalk]
  exact ⟨hids.nodup, hmem⟩

/-- A client has one membership in a channel. -/
theorem isMember_unique (hw : Listed w) {m' : ℕ} (h : IsMember w c u m) (h' : IsMember w c u m') :
    m = m' :=
  Linked.isMember_unique hw h h'

theorem findChannelMembership_eq_some_iff (hw : Listed w) (hu : (w.client u).kind.isClient = true)
    (m : ℕ) :
    findChannelMembership w c u = some m ↔ IsMember w c u m := by
  rw [← findChannelMembership_withoutLocals]
  exact Linked.findChannelMembership_eq_some_iff hw ((isClient_remote _).trans hu) m

end Listed

end Ratbox.Channel
