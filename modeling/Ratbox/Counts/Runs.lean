import Ratbox.Counts.Modes
import Ratbox.Lib.Run

/-!
# The numbers of clients are right

The numbers are right after every step that changes them with a client. A service is not counted
when it is created and destroyed, but `update_client_exit_stats` counts it down when it exits, as it
does when a user takes its name with the same timestamp.

Source: `src/s_user.c`, lines 495–525, `modules/core/m_nick.c`, lines 968–995, 1054–1080 and
1149–1209, `src/client.c`, lines 575–647 and 1409–1453, and `src/services.c`, lines 487–560.

## Main definitions

* `Counts.Inv`: the numbers and the list of clients are right.
* `Counts.Meets`: no service exits.

## Main results

* `Counts.Inv.step`: the steps in which no service exits keep the numbers right.
* `Counts.always_counted_iff`: when the numbers are always right.
-/

namespace Ratbox.Counts

open Text Flags Tally Run List Option Function

/-- What there is about a client, and the list. -/
structure Fits (l : List ℕ) (p : ℕ) (c : Client) : Prop where
  listed : c.IsClient → c.closing = false → p ∈ l
  unknown : c.status = .unknown → c.umodes = 0 ∧ c.fake = false
  fake : c.fake = true → c.IsClient ∧ c.myConnect = false ∧ c.closing = false

/-- The numbers are right, `me` is on the list of clients, and so is each user that has not
exited. -/
structure Inv (s : State) : Prop where
  finite : {p | (s.client p).isSome}.Finite
  counted : Counted s
  me_mem : me ∈ s.globalClientList
  client_me : ∃ c, s.client me = some c ∧ c.status = .me ∧ c.fake = false ∧ c.closing = false
  fits : ∀ p c, s.client p = some c → Fits s.globalClientList p c

variable {s : State} {p : ℕ} {c : Client} {n : Counter}

theorem live_eq_some : s.live p = some c ↔ s.client p = some c ∧ c.closing = false := by
  rw [State.live, filter_eq_some_iff, Bool.not_eq_true']

theorem Fits.mono {l l' : List ℕ} (h : Fits l p c) (hl : p ∈ l → p ∈ l') : Fits l' p c :=
  ⟨fun hclient hclosing => hl (h.listed hclient hclosing), h.unknown, h.fake⟩

/-- A connection that is not registered counts nothing. -/
theorem idle_of_status (h : c.status ≠ .client) : Idle (some c) := idle_some fun hc => h hc.1

theorem idle_of_fake (h : c.fake = true) : Idle (some c) :=
  idle_some fun hc => Bool.noConfusion (h.symm.trans hc.2.1)

theorem idle_of_closing (h : c.closing = true) : Idle (some c) :=
  idle_some fun hc => Bool.noConfusion (h.symm.trans hc.2.2)

namespace Inv

theorem ne_me_of_none (h : Inv s) (hp : s.client p = none) : p ≠ me := by
  rintro rfl
  obtain ⟨c, hc, -⟩ := h.client_me
  exact some_ne_none c (hc.symm.trans hp)

theorem ne_me (h : Inv s) (hc : s.client p = some c) (hstatus : c.status ≠ .me) : p ≠ me := by
  rintro rfl
  obtain ⟨c', hc', hme, -⟩ := h.client_me
  cases hc.symm.trans hc'
  exact hstatus hme

/-- **A client changes**, and the numbers and the list with it. -/
theorem update (h : Inv s) (hp : p ≠ me) {o : Option Client} {l : List ℕ}
    (hfits : ∀ c, o = some c → Fits l p c) (hl : ∀ q ≠ p, q ∈ s.globalClientList → q ∈ l)
    (hmoves : Moves (s.client p) o s.count n) :
    Inv ⟨update s.client p o, l, n, s.conf⟩ where
  finite := finite_update h.finite o
  counted := h.counted.update h.finite hmoves l s.conf
  me_mem := hl me hp.symm h.me_mem
  client_me := by
    obtain ⟨c, hc, hme⟩ := h.client_me
    exact ⟨c, (update_of_ne hp.symm o s.client).trans hc, hme⟩
  fits q c' hc' := by
    by_cases hq : q = p
    · subst hq
      exact hfits c' ((update_self q o s.client).symm.trans hc')
    · exact (h.fits q c' ((update_of_ne hq o s.client).symm.trans hc')).mono (hl q hq)

/-- A client changes and stays where it is. -/
theorem set (h : Inv s) (hp : p ≠ me) (hfits : Fits s.globalClientList p c)
    (hmoves : Moves (s.client p) (some c) s.count n) :
    Inv (s.set p c n) :=
  h.update hp (fun _ hc => some.inj hc ▸ hfits) (fun _ _ hq => hq) hmoves

/-- A client comes. -/
theorem enter (h : Inv s) (hp : s.client p = none) (hmoves : Moves none (some c) s.count n)
    (hunknown : c.status ≠ .unknown) (hfake : c.fake = true → c.IsClient ∧ c.myConnect = false ∧
      c.closing = false) :
    Inv ((s.set p c n).addTail p) := by
  have hfits : Fits (s.globalClientList ++ [p]) p c :=
    ⟨fun _ _ => mem_append_right _ (mem_singleton_self p), fun hu => absurd hu hunknown, hfake⟩
  exact h.update (h.ne_me_of_none hp) (fun _ hc => some.inj hc ▸ hfits)
    (fun _ _ hq => mem_append_left _ hq) (hp.symm ▸ hmoves)

/-! ### Exits -/

/-- **`exit_client`** of a client that has not exited: it is taken off the list, and the numbers
change. -/
theorem exitClient_eq (h : Inv s) (hlive : s.live p = some c) (hstatus : c.status ≠ .me) :
    exitClient s p = if p ∈ s.globalClientList then
        ⟨Function.update s.client p (some { c with closing := true }), s.globalClientList.erase p,
          updateClientExitStats { c with closing := true } s.count, s.conf⟩
      else s.set p { c with closing := true } s.count := by
  have hne := h.ne_me (live_eq_some.mp hlive).1 hstatus
  have halone : s.globalClientList ≠ [p] := fun hl =>
    hne (List.mem_singleton.mp (hl ▸ h.me_mem)).symm
  rw [exitClient, hlive]
  dsimp only
  rw [if_neg hstatus, removeClientFromList]
  by_cases hmem : p ∈ s.globalClientList
  · have hlist : ¬(p ∉ s.globalClientList ∨ s.globalClientList = [p]) :=
      fun hor => hor.elim (fun hnot => hnot hmem) halone
    rw [if_pos hmem, State.set, if_neg hlist, State.delete, if_pos hmem]
  · rw [if_neg hmem, State.set, if_pos (.inl hmem)]

/-- A client that is no service exits. -/
theorem exitClient (h : Inv s) (hservice : ∀ c, s.live p = some c → c.fake = false) :
    Inv (exitClient s p) := by
  cases hlive : s.live p with
  | none => rwa [Counts.exitClient, hlive]
  | some c =>
    by_cases hstatus : c.status = .me
    · rw [Counts.exitClient, hlive]
      dsimp only
      rwa [if_pos hstatus]
    · obtain ⟨hc, hclosing⟩ := live_eq_some.mp hlive
      have hne := h.ne_me hc hstatus
      have hfake := hservice c hlive
      have hfits : ∀ l, Fits l p { c with closing := true } := fun l =>
        ⟨fun _ hnot => Bool.noConfusion hnot, (h.fits p c hc).unknown, fun hf => Bool.noConfusion
          (hf.symm.trans hfake)⟩
      rw [h.exitClient_eq hlive hstatus]
      split_ifs with hmem
      · refine h.update hne (fun _ hc' => some.inj hc' ▸ hfits _)
          (fun q hq => (mem_erase_of_ne hq).mpr) ?_
        exact hc.symm ▸ updateClientExitStats_moves hfake hclosing
      · have hclient : c.status ≠ .client :=
          fun hclient => hmem ((h.fits p c hc).listed hclient hclosing)
        exact h.set hne (hfits _) (hc.symm ▸ .idle (idle_of_status hclient) (idle_of_closing rfl))

/-- **A service that exits** is counted down, and was not counted. -/
theorem exitClient_service (h : Inv s) (hlive : s.live p = some c) (hfake : c.fake = true) :
    {q | ((Counts.exitClient s p).client q).isSome}.Finite ∧ (Counts.exitClient s p).count.total =
      s.count.total - 1 ∧ tally (Counts.exitClient s p).client Client.Registered =
      s.count.total := by
  obtain ⟨hc, hclosing⟩ := live_eq_some.mp hlive
  obtain ⟨hclient, -⟩ := (h.fits p c hc).fake hfake
  have hstatus : c.status ≠ .me := fun hme => Status.noConfusion (hme.symm.trans hclient)
  have hserver : c.status ≠ .server :=
    fun hserver => Status.noConfusion (hserver.symm.trans hclient)
  rw [h.exitClient_eq hlive hstatus, if_pos ((h.fits p c hc).listed hclient hclosing)]
  refine ⟨finite_update h.finite _, ?_, ?_⟩
  · dsimp only
    rw [updateClientExitStats, if_neg hserver, if_pos hclient]
    split_ifs <;> rfl
  · dsimp only
    rw [tally_update h.finite, hc, (idle_of_fake hfake).weight_eq, (idle_of_closing rfl).weight_eq,
      sub_zero, add_zero, h.counted.total]

end Inv

/-! ### Steps -/

/-- A client that is a service, and has not exited. -/
def State.IsService (s : State) (p : ℕ) : Prop := ∃ c, s.live p = some c ∧ c.fake = true

/-- No service exits: no service that has not exited yet is made to exit, by itself or because
another one takes its name. -/
def Meets (s : State) : Op → Prop
  | .exit p => ¬s.IsService p
  | .create _ (some q) _ => ¬s.IsService q
  | _ => True

theorem not_isService_iff : ¬s.IsService p ↔ ∀ c, s.live p = some c → c.fake = false := by
  simp [State.IsService]

instance (s : State) (p : ℕ) : Decidable (s.IsService p) :=
  decidable_of_iff (((s.live p).any fun c => c.fake) = true) (by rw [Option.any_eq_true]; rfl)

namespace Inv

theorem me_of_mem {s : State} (h : Inv s) (hc : s.client me = some c) :
    c.fake = false ∧ c.closing = false := by
  obtain ⟨c', hc', -, hfake, hclosing⟩ := h.client_me
  cases hc.symm.trans hc'
  exact ⟨hfake, hclosing⟩

section

variable (h : Inv s)
include h

/-- A connection that is on the list becomes something else. -/
theorem setStatus (hlive : s.live p = some c) (hunknown : c.status = .unknown) {c' : Client}
    (hfits : Fits s.globalClientList p c') (hmoves : ∀ o, Idle o → Moves o (some c') s.count n) :
    Inv (s.set p c' n) := by
  obtain ⟨hc, -⟩ := live_eq_some.mp hlive
  have hstatus : ∀ status, Status.unknown ≠ status → c.status ≠ status :=
    fun status hne h => hne (hunknown.symm.trans h)
  exact h.set (h.ne_me hc (hstatus _ (by decide))) hfits
    (hc.symm ▸ hmoves _ (idle_of_status (hstatus _ (by decide))))

/-- **`register_local_user`.** A connection has no modes before. -/
theorem registerLocalUser (p : ℕ) : Inv (registerLocalUser s p) := by
  unfold Counts.registerLocalUser
  split
  · exact h
  · rename_i c hlive
    obtain ⟨hclient, hclosing⟩ := live_eq_some.mp hlive
    split_ifs with hc hdefault
    · obtain ⟨humodes, hfake⟩ := (h.fits p c hclient).unknown hc.1
      have hnot : ∀ flag, ¬Has c.umodes flag := fun flag => humodes ▸ not_has_zero
      have hfits : ∀ u, Fits s.globalClientList p { c with status := .client, umodes := u
          } := fun u =>
        ⟨fun _ _ => hc.2, fun hu => Status.noConfusion hu, fun hf => Bool.noConfusion
          (hf.symm.trans hfake)⟩
      refine h.setStatus hlive hc.1 (hfits _) fun o ho => .register ho ⟨rfl, hfake, hclosing⟩ rfl ?_
        ?_
      · rw [one_of (Client.isInvisible_addUmodes _ |>.mpr (.inr (by decide)))]
      · rw [one_of_not, add_zero]
        exact fun hoper => ((Client.isOper_addUmodes _).mp hoper).elim (hnot _) (by decide)
    · obtain ⟨humodes, hfake⟩ := (h.fits p c hclient).unknown hc.1
      have hnot : ∀ flag, ¬Has c.umodes flag := fun flag => humodes ▸ not_has_zero
      have hfits : Fits s.globalClientList p { c with status := .client } :=
        ⟨fun _ _ => hc.2, fun hu => Status.noConfusion hu, fun hf => Bool.noConfusion
          (hf.symm.trans hfake)⟩
      refine h.setStatus hlive hc.1 hfits fun o ho => .register ho ⟨rfl, hfake, hclosing⟩ rfl ?_ ?_
      · rw [one_of_not (hnot _), add_zero]
      · rw [one_of_not (hnot _), add_zero]
    · exact h

/-- The modes of a user change. -/
theorem setModes (hlive : s.live p = some c) (hclient : c.IsClient) (hfake : c.fake = false)
    {c' : Client}
    (hkind : c'.kind = c.kind) (hmoves : c.Registered → Moves (some c) (some c') s.count n) :
    Inv (s.set p c' n) := by
  obtain ⟨hc, hclosing⟩ := live_eq_some.mp hlive
  have hregistered : c.Registered := ⟨hclient, hfake, hclosing⟩
  have hregistered' := hregistered.of_kind hkind
  have hmem := (h.fits p c hc).listed hclient hclosing
  refine h.set (h.ne_me hc fun hme => Status.noConfusion (hme.symm.trans hclient)) ?_
    (hc.symm ▸ hmoves hregistered)
  exact ⟨fun _ _ => hmem, fun hu => Status.noConfusion (hu.symm.trans hregistered'.1),
    fun hf => Bool.noConfusion (hf.symm.trans hregistered'.2.1)⟩

/-- **`MODE`.** -/
theorem mode (services : Bool) (p : ℕ) (target : Option ℕ) (parv : List Str) :
    Inv (mode services s p target parv) := by
  unfold Counts.mode
  split
  · exact h
  · rename_i c hlive
    split_ifs with hc
    · obtain ⟨hclient, hfake, -, -⟩ := hc
      obtain ⟨_, hfollows, -⟩ := @userMode_follows s.conf c s.count services parv
      exact h.setModes hlive hclient (Bool.eq_false_of_not_eq_true hfake) hfollows.kind
          fun hregistered =>
        userMode_moves hregistered services parv
    · exact h

/-- **`OPER`.** -/
theorem oper (p : ℕ) (umodes flags : BitVec 32) : Inv (oper s p umodes flags) := by
  unfold Counts.oper
  split
  · exact h
  · rename_i c hlive
    split_ifs with hc
    · obtain ⟨hclient, hmine, hnot⟩ := hc
      have hfake : c.fake = false := Bool.eq_false_of_not_eq_true fun hf =>
        Bool.noConfusion (hmine.symm.trans ((h.fits p c (live_eq_some.mp hlive).1).fake hf).2.1)
      obtain ⟨_, hfollows, -⟩ := @operUp_follows s.conf _ s.count hnot umodes flags
      exact h.setModes hlive hclient hfake hfollows.kind fun hregistered => operUp_moves hregistered
        hnot umodes flags
    · exact h

/-- **`register_client`.** -/
theorem registerClient (services : Bool) (p : ℕ) (umodes : Str)
    (onServiceList wrongDirection : Bool) :
    Inv (registerClient services s p umodes onServiceList wrongDirection) := by
  unfold Counts.registerClient
  split
  · rename_i hp
    obtain ⟨hkind, -⟩ := introducedModes_counts services onServiceList
      (⟨.unknown, false, false, 0, 0, false⟩, s.count) (umodes.drop 1)
    obtain ⟨-, hfake, -, hclosing⟩ := Client.kind_eq_iff.mp hkind
    have henter := h.enter hp (introducedModes_moves idle_none services onServiceList s.count
      (umodes.drop 1)) (fun hu => Status.noConfusion hu)
        (fun hf => Bool.noConfusion (hf.symm.trans hfake))
    dsimp only
    split_ifs
    · refine henter.exitClient fun c hlive => ?_
      cases (update_self p _ s.client).symm.trans (live_eq_some.mp hlive).1
      exact hfake
    · exact henter
  · exact h

/-- **`create_fake_client`**, when the client that has the name is no service. -/
theorem createFakeClient (p : ℕ) {found : Option ℕ} (opered : Bool)
    (hfound : ∀ q, found = some q → ¬s.IsService q) : Inv (createFakeClient s p found opered) := by
  have henter : ∀ s, Inv s → Inv (Counts.createFakeClient s p none opered) := by
    intro s h
    unfold Counts.createFakeClient
    dsimp only
    split
    · rename_i hp
      exact h.enter hp (.idle idle_none (idle_of_fake rfl)) (fun hu => Status.noConfusion hu)
        fun _ => ⟨rfl, rfl, rfl⟩
    · exact h
  cases found with
  | none => exact henter s h
  | some q => exact henter _ (h.exitClient (not_isService_iff.mp (hfound q rfl)))

/-- A connection comes. -/
theorem makeClient (p : ℕ) : Inv (makeClient s p) := by
  unfold Counts.makeClient
  split
  · rename_i hp
    refine h.set (h.ne_me_of_none hp) ?_ (hp.symm ▸ .idle idle_none (idle_of_status (by decide)))
    exact ⟨fun hclient => Status.noConfusion hclient, fun _ => ⟨rfl, rfl⟩,
      fun hf => Bool.noConfusion hf⟩
  · exact h

/-- A connection is put on the list. -/
theorem releaseAuthClient (p : ℕ) : Inv (releaseAuthClient s p) := by
  unfold Counts.releaseAuthClient
  split
  · exact h
  · split_ifs
    · exact ⟨h.finite, ⟨h.counted.total, h.counted.invisi, h.counted.oper⟩,
        mem_append_left _ h.me_mem, h.client_me, fun q c hc => (h.fits q c hc).mono
          (mem_append_left _)⟩
    · exact h

/-- A connection becomes a server. -/
theorem serverEstab (p : ℕ) : Inv (serverEstab s p) := by
  unfold Counts.serverEstab
  split
  · exact h
  · rename_i c hlive
    split_ifs with hc
    · obtain ⟨-, hfake⟩ := (h.fits p c (live_eq_some.mp hlive).1).unknown hc.1
      refine h.setStatus hlive hc.1 ?_ fun o ho => .idle ho (idle_of_status fun hs =>
        Status.noConfusion hs)
      exact ⟨fun hclient => Status.noConfusion hclient, fun hu => Status.noConfusion hu,
        fun hf => Bool.noConfusion (hf.symm.trans hfake)⟩
    · exact h

/-- A server is introduced. -/
theorem introduceServer (p : ℕ) : Inv (introduceServer s p) := by
  unfold Counts.introduceServer
  split
  · rename_i hp
    exact h.enter hp (.idle idle_none (idle_of_status (by decide))) (by decide) fun hf =>
      Bool.noConfusion hf
  · exact h

/-- A client that has exited is freed. -/
theorem freeClient (p : ℕ) : Inv (freeClient s p) := by
  unfold Counts.freeClient
  split
  · exact h
  · rename_i c hc
    split_ifs with hclosing
    · have hne : p ≠ me := by
        rintro rfl
        exact Bool.noConfusion (hclosing.symm.trans (h.me_of_mem hc).2)
      exact h.update hne (fun _ ho => nomatch ho) (fun _ _ hq => hq)
        (hc.symm ▸ .idle (idle_of_closing hclosing) idle_none)
    · exact h

/-- **`destroy_fake_client`**: no service has exited, so that it is on the list. -/
theorem destroyFakeClient (p : ℕ) : Inv (destroyFakeClient s p) := by
  unfold Counts.destroyFakeClient
  split
  · exact h
  · rename_i c hc
    split_ifs with hfake
    · have hne : p ≠ me := by
        rintro rfl
        exact Bool.noConfusion (hfake.symm.trans (h.me_of_mem hc).1)
      obtain ⟨hclient, -, hclosing⟩ := (h.fits p c hc).fake hfake
      rw [State.delete, if_pos ((h.fits p c hc).listed hclient hclosing)]
      exact h.update hne (fun _ ho => nomatch ho) (fun q hq => (mem_erase_of_ne hq).mpr)
        (hc.symm ▸ .idle (idle_of_fake hfake) idle_none)
    · exact h

/-- **A step in which no service exits.** -/
theorem step (services : Bool) {op : Op} (hmeets : Meets s op) : Inv (step services s op) := by
  cases op with
  | accept p => exact h.makeClient p
  | release p => exact h.releaseAuthClient p
  | register p => exact h.registerLocalUser p
  | estab p => exact h.serverEstab p
  | server p => exact h.introduceServer p
  | introduce p umodes onServiceList wrongDirection =>
    exact h.registerClient services p umodes onServiceList wrongDirection
  | mode p target parv => exact h.mode services p target parv
  | oper p umodes flags => exact h.oper p umodes flags
  | exit p => exact h.exitClient (not_isService_iff.mp hmeets)
  | free p => exact h.freeClient p
  | create p found opered =>
    refine h.createFakeClient p opered fun q hq => ?_
    subst hq
    exact hmeets
  | destroy p => exact h.destroyFakeClient p
  | rehash conf => exact ⟨h.finite, ⟨h.counted.total, h.counted.invisi, h.counted.oper⟩, h.me_mem,
    h.client_me, h.fits⟩

end

end Inv

/-- The number of clients is too low by one. -/
theorem not_counted_of_low (h : s.count.total + 1 = tally s.client Client.Registered) :
    ¬Counted s := fun hcounted => by
  have htotal := hcounted.total
  omega

/-- **A step in which a service exits** makes the number of clients too low. -/
theorem not_counted_step (h : Inv s) (services : Bool) {op : Op} (hmeets : ¬Meets s op) :
    ¬Counted (step services s op) := by
  have hlow : ∀ q, s.IsService q → {r | ((exitClient s q).client r).isSome}.Finite ∧
      (exitClient s q).count.total + 1 = tally (exitClient s q).client Client.Registered := by
    rintro q ⟨c, hlive, hfake⟩
    obtain ⟨hf, htotal, htally⟩ := h.exitClient_service hlive hfake
    exact ⟨hf, by rw [htotal, htally, sub_add_cancel]⟩
  cases op with
  | exit p => exact not_counted_of_low (hlow p (not_not.mp hmeets)).2
  | create p found opered =>
    cases found with
    | none => exact absurd trivial hmeets
    | some q =>
      obtain ⟨hf, hq⟩ := hlow q (not_not.mp hmeets)
      unfold step createFakeClient
      dsimp only
      split
      · rename_i hp
        refine not_counted_of_low (hq.trans ?_)
        exact ((tally_update hf p _).trans
          (by rw [hp, idle_none.weight_eq, (idle_of_fake rfl).weight_eq, sub_zero, add_zero])).symm
      · exact not_counted_of_low hq
  | accept | release | register | estab | server | introduce | mode | oper | free | destroy
  | rehash =>
    exact absurd trivial hmeets

/-! ### Runs -/

theorem start_client (conf : Conf) (p : ℕ) :
    (start conf).client p = if p = me then some ⟨.me, false, false, 0, 0, false⟩ else none := by
  simp only [start, update_apply]

/-- At first there is this server alone. -/
theorem inv_start (conf : Conf) : Inv (start conf) := by
  have hempty : {p : ℕ | ((none : Option Client)).isSome}.Finite :=
    Set.finite_empty.subset fun p hp => Bool.noConfusion hp
  have hcounted : Counted ⟨fun _ => none, [], ⟨0, 0, 0⟩, conf⟩ :=
    ⟨tally_empty.symm, tally_empty.symm, tally_empty.symm⟩
  have hmoves : Moves none (some ⟨.me, false, false, 0, 0, false⟩) ⟨0, 0, 0⟩ ⟨0, 0, 0⟩ :=
    .idle idle_none (idle_of_status (by decide))
  have hme : (start conf).client me = some ⟨.me, false, false, 0, 0, false⟩ :=
    (start_client conf me).trans (if_pos rfl)
  refine ⟨finite_update hempty _, hcounted.update hempty hmoves [me] conf, mem_singleton_self me,
    ⟨_, hme, rfl, rfl, rfl⟩, fun p c hc => ?_⟩
  by_cases hp : p = me
  · subst hp
    cases hme.symm.trans hc
    exact ⟨fun hclient => Status.noConfusion hclient, fun hu => Status.noConfusion hu,
      fun hf => Bool.noConfusion hf⟩
  · rw [start_client, if_neg hp] at hc
    exact nomatch hc

/-- The steps as a partial function. -/
abbrev next (services : Bool) (s : State) (op : Op) : Option State := some (step services s op)

/-- **The numbers are always right** exactly when no service ever exits. -/
theorem always_counted_iff (services : Bool) (conf : Conf) (ops : List Op) :
    Always (next services) Counted (start conf) ops ↔
    StepsMeet (next services) Meets (start conf) ops := by
  refine always_iff Inv (fun s h => h.counted) ?_ ?_ (inv_start conf) (run_total (step services)
    (start conf) ops)
  · intro s op s' h hmeets hstep
    cases hstep
    exact h.step services hmeets
  · intro s op s' h hmeets hstep
    cases hstep
    exact not_counted_step h services hmeets

/-- A service is created, and a user takes its name. -/
theorem service_counted_down :
    ¬Always (next true) Counted (start ⟨false, 0, 0⟩) [.create 1 none false, .exit 1] := by
  intro h
  have hcounted := h _ _ prefix_rfl rfl
  have htotal := hcounted.total.symm.trans (by decide : _ = (-1 : ℤ))
  exact absurd (htotal ▸ tally_nonneg) (by decide)

end Ratbox.Counts
