import Ratbox.Netsplit.Arrivals

/-!
# Runs with servers that split

Servers and users come and go, users change their nicks, and links break. In every state the tables,
the lists and the channels are those of a tree of servers with their users, so that a server that
exits is removed with its subtree.

Source: as for `Ratbox.Netsplit.Basic`.

## Main results

* `Netsplit.Good.step`: what holds in every state is kept by the steps.
* `Netsplit.netsplit`: a server that exits is removed with all that is behind it, and the other
  servers are told.
-/

namespace Ratbox.Netsplit

open Text Hash Uplinks Run List Option Function
open Channel (Kind World)
open Services (HashType me)

/-! ### Clients that exit -/

section Exits

variable {t : Uplinks ℕ} {s s' : State} {p q x dest : ℕ} {lines : List Line} {client_p : Option ℕ}

theorem Calm.of_sent (h : Calm s p) (hsent : Sent s dest lines s')
    (hserver : s.isServer dest = true) : Calm s' p := by
  have hkind : ∀ q, (s'.world.client q).kind = (s.world.client q).kind :=
    fun q => by rw [hsent.same]
  have hkilled : s'.killed p = s.killed p := by rw [hsent.same]
  by_cases hp : p = dest
  · subst hp
    refine ⟨fun hremote => ?_, fun hs => hkilled.trans (h.server ?_), hsent.marked⟩
    · rw [hkind, kind_of_isServer hserver] at hremote
      cases hremote
    · rw [State.isServer, ← hkind]
      exact hs
  · obtain ⟨-, hio, hdead, hclosing⟩ := hsent.other p hp
    exact h.of_eq (hkind p) ⟨hkilled, hclosing, hdead, hio⟩

/-- A line to the servers changes the marks of their links only. -/
theorem Inv.sendtoServer (h : Inv t (fun _ => False) s) (hcalm : ∀ p ∈ s.globalClientList, Calm s p)
    (one : Option ℕ) (ts6 : Bool) (line : Line) :
    Inv t (fun _ => False) (sendtoServer s one ts6 line) ∧
      (∀ p ∈ (sendtoServer s one ts6 line).globalClientList, Calm (sendtoServer s one ts6 line) p) ∧
      Same s (sendtoServer s one ts6 line) := by
  have hfold : ∀ (l : List ℕ) (s : State), (∀ dest ∈ l, dest ∈ s.servList) →
      Inv t (fun _ => False) s → (∀ p ∈ s.globalClientList, Calm s p) →
      ∃ s', l.foldl (fun s dest =>
          if one.any (fun p => dest = s.fromLink p) || s.capTS6 dest ≠ ts6 then s else sendLinebuf s
            dest line) s = s' ∧
        Inv t (fun _ => False) s' ∧ (∀ p ∈ s'.globalClientList, Calm s' p) ∧ Same s s' := by
    intro l
    induction l with
    | nil => exact fun s _ hs hcalm => ⟨s, rfl, hs, hcalm, rfl⟩
    | cons dest l ih =>
      intro s hl hs hcalm
      rw [foldl_cons]
      split_ifs
      · exact ih s (fun d hd => hl d (mem_cons_of_mem dest hd)) hs hcalm
      · have hdest := hl dest mem_cons_self
        obtain ⟨hmem, hserver, -⟩ := (hs.servList dest).mp hdest
        have hlink := hs.link hdest (hcalm dest hmem)
        have hsent := hlink.sendtoOne line
        rw [sendtoOne, hlink.own] at hsent
        have hlists : (sendLinebuf s dest line).servList = s.servList ∧
            (sendLinebuf s dest line).globalClientList = s.globalClientList := by
          rw [hsent.same]
          exact ⟨rfl, rfl⟩
        obtain ⟨s', hrun, hs', hcalm', hsame⟩ := ih (sendLinebuf s dest line)
          (fun d hd => hlists.1 ▸ hl d (mem_cons_of_mem dest hd)) (hs.of_same hsent.same)
          fun q hq => (hcalm q (hlists.2 ▸ hq)).of_sent hsent hserver
        exact ⟨s', hrun, hs', hcalm', hsent.same.trans hsame⟩
  obtain ⟨s', hrun, hs'⟩ := hfold s.servList s (fun _ hd => hd) h hcalm
  rw [Netsplit.sendtoServer, hrun]
  exact hs'

theorem Inv.sendFrom (h : Inv t (fun _ => False) s) (hcalm : ∀ p ∈ s.globalClientList, Calm s p)
    (client_p : Option ℕ) (p : ℕ) (line : Str → Line) :
    Inv t (fun _ => False) (sendFrom s client_p p line) ∧
      (∀ q ∈ (sendFrom s client_p p line).globalClientList, Calm (sendFrom s client_p p line) q) ∧
      Same s (sendFrom s client_p p line) := by
  obtain ⟨h₁, hcalm₁, hsame₁⟩ := h.sendtoServer hcalm client_p true (line (useId s p))
  obtain ⟨h₂, hcalm₂, hsame₂⟩ := h₁.sendtoServer hcalm₁ client_p false
    (line ((Netsplit.sendtoServer s client_p true (line (useId s p))).name p))
  exact ⟨h₂, hcalm₂, hsame₁.trans hsame₂⟩

theorem Inv.sendQuit (h : Inv t (fun _ => False) s) (hcalm : ∀ p ∈ s.globalClientList, Calm s p)
    (client_p : Option ℕ) (p : ℕ) (comment : Str) :
    Inv t (fun _ => False) (sendQuit s client_p p comment) ∧
      (∀ q ∈ (sendQuit s client_p p comment).globalClientList,
        Calm (sendQuit s client_p p comment) q) ∧
      Same s (sendQuit s client_p p comment) := by
  rw [Netsplit.sendQuit]
  split_ifs
  · exact ⟨h, hcalm, rfl⟩
  · exact h.sendFrom hcalm client_p p _

/-- A user changes the nick. -/
theorem Good.changeNick (hgood : Good s) (hp : p ∈ s.globalClientList) (client_p : Option ℕ)
    (nick : Str) (dosend : Bool) :
    Good (changeNick s client_p p nick dosend) := by
  rw [Netsplit.changeNick]
  split_ifs
  · obtain ⟨t, h, hcalm⟩ := hgood
    obtain ⟨h', hcalm', hsame⟩ := h.sendFrom hcalm client_p p fun source => .nick source nick
    refine Good.renameClient ⟨t, h', hcalm'⟩ ?_ nick
    rw [hsame]
    exact hp
  · exact hgood.renameClient hp nick

/-- A user with a link of its own is on this server. -/
theorem Inv.servptr_of_myConnect (h : Inv t (fun _ => False) s) (hp : p ∈ s.globalClientList)
    (hne : p ≠ me) (hmy : s.myConnect p = true) : s.servptr p = some me := by
  rw [State.myConnect, decide_eq_true_iff] at hmy
  exact hmy ▸ (h.fromLink hp hne).2.2.1

theorem servptr_exitGenericClient (s : State) (p : ℕ) :
    (exitGenericClient s p).servptr = s.servptr := by
  rw [exitGenericClient, delId_eq, removeClientFromList]
  split_ifs
  · rfl
  · rfl

/-- **A user exits.** -/
theorem Good.exitUser (hgood : Good s) (hp : p ∈ s.globalClientList) (hclient : s.isClient p = true)
    (hclosing : s.closing p = false) (n : ℕ) (client_p : Option ℕ) (source : ℕ) (comment : Str) :
    ∃ s', exitClient n s client_p p source comment = some s' ∧ Good s' := by
  obtain ⟨t, h, hcalm⟩ := hgood
  have hne := h.ne_me hclient
  obtain ⟨s₁, hs₁⟩ : ∃ s₁, s₁ =
      (exitGenericClient { s with killed := s.killed, closing := update s.closing p true }
        p).deleteUser p := ⟨_, rfl⟩
  have hr : Quiet s (· = p) (fun _ => False) s₁ := by
    rw [hs₁]
    exact h.exitGenericClient hp hclient (fun _ _ => rfl) fun q hq => update_of_ne hq ..
  have h₁ := h.removed_user hr.toRemoved hclient
  have hcalm₁ : ∀ q ∈ s₁.globalClientList, Calm s₁ q := by
    intro q hq
    obtain ⟨hq, hqp⟩ := (hr.globalClientList.mem q).mp hq
    obtain ⟨hkilled, hclosing, hdead⟩ := hr.flags q hq hqp
    exact (hcalm q hq).of_eq (hr.kind q) ⟨hkilled, hclosing, hdead, congrFun hr.links.1 q⟩
  obtain ⟨h₂, hcalm₂, hsame⟩ := h₁.sendQuit hcalm₁ client_p p comment
  have hexit : exitClient n s client_p p source comment =
      some ((Netsplit.sendQuit s₁ client_p p comment).setDead p) := by
    rw [exitClient, if_neg (by simp [hclosing]), hs₁]
    dsimp only
    split_ifs with hmy hc hserver hremote hserver
    · have hservptr : (exitGenericClient { s with closing := update s.closing p true } p).servptr
          p = some me := by
        rw [servptr_exitGenericClient]
        exact h.servptr_of_myConnect hp hne hmy
      rw [State.deleteUser, hservptr]
      rfl
    · exact absurd hclient hc
    · exact absurd hclient hc
    · rfl
    · exact absurd hclient hremote
    · exact absurd hclient hremote
  generalize Netsplit.sendQuit s₁ client_p p comment = s₂ at h₂ hcalm₂ hsame hexit
  have hlist : s₂.globalClientList = s₁.globalClientList ∧ s₂.allocated = s₁.allocated := by
    rw [hsame]
    exact ⟨rfl, rfl⟩
  have hnot : p ∉ s₂.globalClientList := by
    rw [hlist.1, hr.globalClientList.mem]
    exact fun hmem => hmem.2 rfl
  refine ⟨_, hexit, t, { h₂ with deadList := fun q hq => ?_ }, fun q hq => (hcalm₂ q hq).of_eq rfl
    ⟨rfl, rfl, ?_, rfl⟩⟩
  · obtain rfl | hq := mem_cons.mp hq
    · refine ⟨?_, hnot⟩
      rw [State.setDead_allocated, hlist.2, hr.allocated]
      exact h.allocated q hp
    · exact h₂.deadList q hq
  · exact update_of_ne (fun heq : q = p => hnot (heq ▸ hq)) ..

/-- There are no more levels than clients. -/
theorem Inv.depth_lt (h : Inv t (fun _ => False) s) (hp : p ∈ s.globalClientList)
    (hbelow : t.Below x p) :
    t.depth p < t.depth x + s.globalClientList.length := by
  obtain ⟨l, hnd, hlength, hl⟩ := hbelow.exists_path
  have hle := (subperm_of_subset hnd fun y hy => h.mem_of_below hp (hl y hy)).length_le
  omega

/-- A mark of the server that exits makes no difference to the others. -/
theorem Split.of_closing (h : Inv t (fun _ => False) s) {closing : ℕ → Bool}
    (hclosing : ∀ q, q ≠ x → closing q = s.closing q)
    (hs : Split t { s with closing := closing } client_p x s') : Split t s client_p x s' := by
  have hr : Removed s (fun _ => False) (fun _ => False) { s with closing := closing } :=
    Removed.of_same h rfl
  refine ⟨(hr.trans hs.toRemoved).congr h (fun _ _ => by simp) fun _ _ _ => by simp,
    fun dest hdest hknows => ?_, hs.silent, hs.killed, fun p hp hbelow hlink => ?_, hs.marked⟩
  · refine (hs.told dest hdest hknows).imp_right fun ⟨lines, hsent, hmakes⟩ => ⟨lines, hsent,
      hmakes.of_removed hr⟩
  · obtain ⟨hdead, hclosing', hio⟩ := hs.flags p hp hbelow hlink
    exact ⟨hdead, hclosing'.trans (hclosing p fun heq => hbelow (heq ▸ .refl)), hio⟩

/-- The marks of those that are left. -/
theorem Split.calm (h : Inv t (fun _ => False) s) (hcalm : ∀ p ∈ s.globalClientList, Calm s p)
    (hs : Split t s client_p x s') : ∀ p ∈ s'.globalClientList, Calm s' p := by
  intro p hp
  obtain ⟨hp, hbelow⟩ := (hs.globalClientList.mem p).mp hp
  have hkind := hs.kind p
  by_cases hlink : p ∈ s.servList
  · have hserver := ((h.servList p).mp hlink).2.1
    refine ⟨fun hremote => ?_, fun _ => (hs.killed p hp hbelow).trans ((hcalm p hp).server hserver),
      ?_⟩
    · rw [hkind, kind_of_isServer hserver] at hremote
      cases hremote
    · exact hs.marked p ((hs.servList.mem p).mpr ⟨hlink, hbelow⟩)
  · obtain ⟨hdead, hclosing, hio⟩ := hs.flags p hp hbelow hlink
    exact (hcalm p hp).of_eq hkind ⟨hs.killed p hp hbelow, hclosing, hdead, hio⟩

/-- `exit_client` of a server is `exit_local_server` or `exit_remote_server`. -/
theorem exitClient_server (hserver : s.isServer x = true) (hclosing : s.closing x = false) (n : ℕ)
    (client_p : Option ℕ) (source : ℕ) (comment : Str) :
    (s.fromLink x = x → exitClient n s client_p x source comment =
      exitLocalServer n { s with closing := update s.closing x true } client_p x source comment) ∧
    (s.fromLink x ≠ x → exitClient n s client_p x source comment =
      exitRemoteServer n { s with closing := update s.closing x true } client_p x
      source comment) := by
  have hclient : ¬s.isClient x = true := by
    rw [isClient_of_isServer hserver]; exact Bool.false_ne_true
  rw [exitClient, if_neg (by simp [hclosing])]
  constructor
  · intro hmy
    exact (if_pos (decide_eq_true hmy)).trans ((if_neg hclient).trans (if_pos hserver))
  · intro hmy
    exact (if_neg fun hmy' => hmy (of_decide_eq_true hmy')).trans ((if_neg hclient).trans
      (if_pos hserver))

/-- **A server exits.** -/
theorem Inv.exitServer (h : Inv t (fun _ => False) s) (hcalm : ∀ p ∈ s.globalClientList, Calm s p)
    (hx : x ∈ s.globalClientList)
    (hserver : s.isServer x = true) (hclosing : s.closing x = false) (client_p : Option ℕ)
    (source : ℕ) (comment : Str) :
    ∃ s', exitClient s.globalClientList.length s client_p x source comment = some s' ∧
      Split t s client_p x s' ∧ Inv t (fun _ => False) s' := by
  obtain ⟨hlocal, hremote⟩ := exitClient_server hserver hclosing s.globalClientList.length client_p
    source comment
  have hmark : ∀ q, q ≠ x → update s.closing x true q = s.closing q :=
    fun q hq => update_of_ne hq ..
  have h₀ : Inv t (fun _ => False) { s with closing := update s.closing x true } := h.of_same rfl
  have hready : Ready t (fun _ => False) { s with closing := update s.closing x true }
      s.globalClientList.length x := by
    refine ⟨hx, hserver, fun p hp => h.depth_lt hp, fun p hp hbelow hclient => ?_,
      fun _ => False.elim⟩
    have hpx : p ≠ x := by
      rintro rfl
      exact absurd ((isClient_of_isServer hserver).symm.trans hclient) Bool.false_ne_true
    obtain ⟨hdead, hclosing⟩ := (hcalm p hp).remote (h.remote_of_below hserver hp hbelow hclient)
    exact ⟨hdead, (hmark p hpx).trans hclosing⟩
  have hcalm₀ : ∀ p ∈ s.globalClientList, p ≠ x → Calm { s with closing := update s.closing x true }
    p :=
    fun p hp hpx => (hcalm p hp).of_eq rfl ⟨rfl, hmark p hpx, rfl, rfl⟩
  by_cases hmy : s.fromLink x = x
  · obtain ⟨s', hs', hsplit, h'⟩ := h₀.exitLocalServer hcalm₀ hready hmy client_p source comment
    exact ⟨s', (hlocal hmy).trans hs', hsplit.of_closing h hmark, h'⟩
  · obtain ⟨s', hs', hsplit, h'⟩ :=
      h₀.exitRemoteServer hcalm₀ ((hcalm x hx).server hserver) hready hmy client_p source comment
    exact ⟨s', (hremote hmy).trans hs', hsplit.of_closing h hmark, h'⟩

/-- Who exits leaves a tree. -/
theorem Good.exitClient (hgood : Good s) (hp : p ∈ s.globalClientList) (hne : p ≠ me)
    (client_p : Option ℕ) (source : ℕ) (comment : Str) :
    ∃ s', exitClient s.globalClientList.length s client_p p source comment = some s' ∧ Good s' := by
  by_cases hclosing : s.closing p = true
  · exact ⟨s, if_pos hclosing, hgood⟩
  rw [Bool.not_eq_true] at hclosing
  by_cases hclient : s.isClient p = true
  · exact hgood.exitUser hp hclient hclosing _ client_p source comment
  obtain ⟨t, h, hcalm⟩ := hgood
  have hserver : s.isServer p = true := by
    refine decide_eq_true ⟨(h.kind p hp).resolve_right fun hkind => hclient ?_, hne⟩
    rw [State.isClient, hkind]
    split_ifs <;> rfl
  obtain ⟨s', hs', hsplit, h'⟩ := h.exitServer hcalm hp hserver hclosing client_p source comment
  exact ⟨s', hs', t, h', hsplit.calm h hcalm⟩

/-- A user may be marked as killed. -/
theorem Good.setKilled (hgood : Good s) (hclient : s.isClient p = true) :
    Good { s with killed := update s.killed p true } := by
  obtain ⟨t, h, hcalm⟩ := hgood
  refine ⟨t, { h with }, fun q hq => ⟨(hcalm q hq).remote, fun hserver => ?_, (hcalm q hq).marked⟩⟩
  have hqp : q ≠ p := by
    rintro rfl
    exact absurd ((isClient_of_isServer hserver).symm.trans hclient) Bool.false_ne_true
  exact (update_of_ne hqp ..).trans ((hcalm q hq).server hserver)

/-- The connection of a client may have an error. -/
theorem Good.setIoError (hgood : Good s) (p : ℕ) :
    Good { s with ioError := update s.ioError p true } := by
  obtain ⟨t, h, hcalm⟩ := hgood
  refine ⟨t, h.of_same rfl, fun q hq => ⟨(hcalm q hq).remote, (hcalm q hq).server,
    fun hmarked => ?_⟩⟩
  by_cases hqp : q = p
  · exact hqp ▸ update_self ..
  · exact (update_of_ne hqp ..).trans ((hcalm q hq).marked hmarked)

/-- A client that was to be closed may be so no longer. -/
theorem Calm.clearClosing (h : Calm s q) (p : ℕ) :
    Calm { s with closing := update s.closing p false } q := by
  by_cases hqp : q = p
  · subst hqp
    refine ⟨fun hremote => ⟨(h.remote hremote).1, update_self ..⟩, h.server, fun hmarked => ?_⟩
    exact h.marked (hmarked.imp_right fun hclosing => by simp at hclosing)
  · exact h.of_eq rfl ⟨rfl, update_of_ne hqp .., rfl, rfl⟩

/-- A link breaks. -/
theorem Good.sendQueued (hgood : Good s) (hp : p ∈ s.globalClientList) (hne : p ≠ me)
    (hmy : s.myConnect p = true) :
    Good (sendQueued s p) := by
  rw [Netsplit.sendQueued, deadLink]
  split_ifs
  · exact hgood
  · exact hgood
  obtain ⟨t, h, hcalm⟩ := hgood
  refine ⟨t, h.of_same rfl, fun q hq => ?_⟩
  by_cases hqp : q = p
  · subst hqp
    have hself : update s.ioError q true q = true := update_self ..
    refine ⟨fun hremote => ?_, (hcalm q hq).server, fun _ => hself⟩
    obtain hkind | hkind := h.kind q hq
    · cases hkind.symm.trans hremote
    · rw [if_pos (h.servptr_of_myConnect hq hne hmy)] at hkind
      cases hkind.symm.trans hremote
  · exact (hcalm q hq).of_eq rfl
      ⟨rfl, update_of_ne hqp .., update_of_ne hqp .., update_of_ne hqp ..⟩

/-- The clients that exited are freed. -/
theorem Good.freeExitedClients (hgood : Good s) : Good (freeExitedClients s) := by
  obtain ⟨t, h, hcalm⟩ := hgood
  refine ⟨t, { h with allocated := fun p hp => ?_, deadList := nofun },
    fun p hp => (hcalm p hp).of_eq rfl ⟨rfl, rfl, rfl, rfl⟩⟩
  have hdead : p ∉ s.deadList := fun hmem => (h.deadList p hmem).2 hp
  simp [Netsplit.freeExitedClients, h.allocated p hp, hdead]

end Exits

/-! ### Runs -/

section Runs

variable {s s' : State} {x : ℕ}

theorem key_start (name id : Str) (room : ℕ → List Line → Bool) {type : HashType}
    (htype : type ≠ .hostname) :
    (start name id room).key type = update (fun _ => none) me
    (Nick.key ((start name id room).field me type)) := by
  funext p
  by_cases hp : p = me
  · subst hp
    rw [update_self, State.key, if_pos ⟨mem_singleton_self me, fun h => absurd h htype⟩]
  · rw [update_of_ne hp, State.key, if_neg fun h => hp (mem_singleton.mp h.1)]

/-- This server alone. -/
theorem Good.start (name id : Str) (room : ℕ → List Line → Bool) : Good (start name id room) := by
  have hme : ∀ {p}, p ∈ (Netsplit.start name id room).globalClientList → p = me :=
    fun hp => mem_singleton.mp hp
  have hservptr : ∀ {p k}, p ∈ (Netsplit.start name id room).globalClientList →
      (Netsplit.start name id room).isServer p = true → (Netsplit.start name id room).servptr p =
        some k → False :=
    fun hp hserver _ => ne_me_of_isServer hserver (hme hp)
  refine ⟨⟨fun _ => none, fun _ => 0, nofun⟩, ⟨nodup_singleton me, mem_singleton_self me, rfl,
    fun p hp => ?_, nofun,
    fun p hp => ?_, fun p hp hne => absurd (hme hp) hne, fun _ _ => .inl rfl, fun type => ?_,
      fun _ => nodup_nil,
    fun k p => ?_, fun _ => nodup_nil, fun k p => ?_, nodup_nil, fun p => ?_, nodup_singleton me,
      fun p => ?_,
    Channel.linked_init _, Channel.populated_init _, nofun⟩, fun p _ => ⟨nofun, fun _ => rfl,
      nofun⟩⟩
  · exact decide_eq_true (hme hp)
  · rw [hme hp]
    rfl
  · cases type with
    | client =>
      rw [key_start name id room (by simp)]
      exact (Placed.empty HashType.client.hf).add HashType.client.hashlen rfl name
    | id =>
      rw [key_start name id room (by simp)]
      exact (Placed.empty HashType.id.hf).add HashType.id.hashlen rfl id
    | hostname =>
      have hkey : (Netsplit.start name id room).key .hostname = fun _ => none := by
        funext p
        exact if_neg fun h => Bool.false_ne_true (h.2 rfl)
      exact hkey ▸ Placed.empty HashType.hostname.hf
  · simp [Netsplit.start, State.isClient, Kind.isClient, Channel.World.init]
  · refine iff_of_false not_mem_nil ?_
    rintro ⟨hp, hserver, hk, -⟩
    exact hservptr hp hserver hk
  · refine iff_of_false not_mem_nil ?_
    rintro ⟨hp, hserver, hk, -⟩
    exact hservptr hp hserver hk
  · exact ⟨fun hp => ⟨hp, rfl, not_false⟩, fun h => h.1⟩

/-- **The steps.** -/
theorem Good.step (hgood : Good s) {op : Op} (hs' : step s op = some s') : Good s' := by
  cases op with
  | link p name id qs ts6 => exact hgood.serverEstab hs'
  | introduce p source name id => exact hgood.msSid hs'
  | remote p source nick host uid => exact hgood.registerClient hs'
  | register p nick host uid => exact hgood.registerLocalUser hs'
  | channel op =>
    simp only [Netsplit.step, ite_none_right_eq_some, map_eq_some_iff] at hs'
    obtain ⟨hop, world, hworld, rfl⟩ := hs'
    exact hgood.channel hop hworld
  | nick client_p p nick dosend =>
    simp only [Netsplit.step, ite_none_right_eq_some, some.injEq] at hs'
    obtain ⟨⟨hp, -⟩, rfl⟩ := hs'
    exact hgood.changeNick hp client_p nick dosend
  | exit client_p p source comment =>
    obtain ⟨⟨hp, hne⟩, hs'⟩ := ite_none_right_eq_some.mp hs'
    obtain ⟨s'', hs'', hgood'⟩ := hgood.exitClient hp hne client_p source comment
    exact some.inj (hs''.symm.trans hs') ▸ hgood'
  | kill client_p p source comment =>
    obtain ⟨⟨hp, hclient⟩, hs'⟩ := ite_none_right_eq_some.mp hs'
    have hne : p ≠ me := by
      obtain ⟨t, h, -⟩ := hgood
      exact h.ne_me hclient
    obtain ⟨s'', hs'', hgood'⟩ := (hgood.setKilled hclient).exitClient hp hne client_p source
      comment
    exact some.inj (hs''.symm.trans hs') ▸ hgood'
  | readError p errmsg =>
    obtain ⟨⟨hp, hne, -⟩, hs'⟩ := ite_none_right_eq_some.mp hs'
    obtain ⟨s'', hs'', hgood'⟩ := (hgood.setIoError p).exitClient hp hne (some p) me errmsg
    exact some.inj (hs''.symm.trans hs') ▸ hgood'
  | writeError p =>
    obtain ⟨⟨hp, hne, hmy⟩, hs'⟩ := ite_none_right_eq_some.mp hs'
    exact some.inj hs' ▸ hgood.sendQueued hp hne hmy
  | abort p notice =>
    obtain ⟨⟨hp, hne, -⟩, hs'⟩ := ite_none_right_eq_some.mp hs'
    obtain ⟨t, h, hcalm⟩ := hgood
    have hgood : Good { s with closing := update s.closing p false } :=
      ⟨t, h.of_same rfl, fun q hq => (hcalm q hq).clearClosing p⟩
    obtain ⟨s'', hs'', hgood'⟩ := hgood.exitClient hp hne (some p) me notice
    exact some.inj (hs''.symm.trans hs') ▸ hgood'
  | free => exact some.inj hs' ▸ hgood.freeExitedClients

/-- **A server exits, after any steps.** Its subtree is removed, and nothing else, and the other
links are told. A server whose link is to be closed stays until `exit_aborted_clients`, which does
the same. -/
theorem netsplit {name id : Str} {room : ℕ → List Line → Bool} {ops : List Op}
    (hrun : run step (start name id room) ops = some s) (hx : x ∈ s.globalClientList)
    (hserver : s.isServer x = true) :
    ∃ t : Uplinks ℕ, (∀ p ∈ s.globalClientList, t.up p = s.up p) ∧
      (s.closing x = false → ∀ client_p source comment, ∃ s',
        step s (.exit client_p x source comment) = some s' ∧ Split t s client_p x s') ∧
      (s.closing x = true → (∀ client_p source comment, step s (.exit client_p x source comment) =
        some s) ∧ ∀ notice, ∃ s', step s (.abort x notice) = some s' ∧
        Split t s (some x) x s') := by
  have hgood : Good s :=
    invariant Good (fun _ _ _ hgood _ hs' => hgood.step hs') (.start name id room)
      (.of_forall (fun _ _ => trivial) (start name id room) ops) hrun
  obtain ⟨t, h, hcalm⟩ := hgood
  have hne := ne_me_of_isServer hserver
  refine ⟨t, h.up, fun hclosing client_p source comment => ?_, fun hclosing =>
    ⟨fun client_p source comment => ?_, fun notice => ?_⟩⟩
  · obtain ⟨s', hs', hsplit, -⟩ := h.exitServer hcalm hx hserver hclosing client_p source comment
    exact ⟨s', (if_pos ⟨hx, hne⟩).trans hs', hsplit⟩
  · exact (if_pos ⟨hx, hne⟩).trans (if_pos hclosing)
  · have h₁ : Inv t (fun _ => False) { s with closing := update s.closing x false } := h.of_same rfl
    obtain ⟨s', hs', hsplit, -⟩ := h₁.exitServer (fun q hq => (hcalm q hq).clearClosing x) hx
      hserver (update_self ..) (some x) me notice
    refine ⟨s', (if_pos ⟨hx, hne, (hcalm x hx).marked (.inr hclosing), hclosing⟩).trans hs',
      hsplit.of_closing h fun q hq => ?_⟩
    exact update_of_ne hq ..

/-- A link with a server behind it and a user there, and another link. -/
def twoLinks : List Op :=
  [.link 1 ['a'] ['1', 'A'] true true, .introduce 2 1 ['b'] [], .remote 3 2 ['n'] ['h'] [],
    .link 4 ['c'] [] false true]

theorem netsplit_twoLinks : ∃ s s' t, run step (start ['m'] ['0', 'M'] fun _ _ => true) twoLinks =
    some s ∧ step s (.exit none 1 me []) = some s' ∧ Split t s none 1 s' := by
  have hfields : (run step (start ['m'] ['0', 'M'] fun _ _ => true) twoLinks).map (fun s =>
      (s.globalClientList, s.isServer 1, s.closing 1)) = some ([me, 1, 2, 3, 4], true, false) := by
    decide
  obtain ⟨s, hrun, hs⟩ := map_eq_some_iff.mp hfields
  rw [Prod.mk.injEq, Prod.mk.injEq] at hs
  obtain ⟨hlist, hserver, hclosing⟩ := hs
  obtain ⟨t, -, hexit, -⟩ := netsplit hrun (x := 1) (by rw [hlist]; decide) hserver
  obtain ⟨s', hs', hsplit⟩ := hexit hclosing none me []
  exact ⟨s, s', t, hrun, hs', hsplit⟩

/-- A link that tells that a server behind it exits is told nothing. -/
theorem not_told_back : (run step (start ['m'] ['0', 'M'] fun _ _ => true) twoLinks).bind (fun s =>
    (step s (.exit (some 1) 2 1 [])).map fun s' =>
      (s.globalClientList, s'.globalClientList, s'.servList, s'.sent 1)) =
      some ([me, 1, 2, 3, 4], [me, 1, 4], [4, 1], []) := by
  decide

end Runs

end Ratbox.Netsplit
