import Ratbox.Auth.Basic

/-!
# Requests are freed once

The flags of a request say which of its queries wait: a query for the address waits only while
`IsDNS` is set and has the number in the request, and a query to a list of banned addresses waits
only while `IsRBL` is set and is in the list of the request. What clears the last flag, and what
deletes a request, then leaves no query that would call back. Where `start_auth` or the event for
the requests whose time is over goes on with a request, it must not be freed before.

Source: `src/s_auth.c`, lines 191–258, 408–497, 559–586, and 734–877.

## Main definitions

* `Auth.Safe`: what happens to the clients is safe.
* `Auth.Meets`: the condition on a step.
* `Auth.Inv`: the invariant.

## Main results

* `Auth.Inv.setRelease`, `Auth.Core.free`: the end of a request.
* `Auth.Inv.step`: a step that meets the condition keeps the invariant.
* `Auth.auth_safe`: the runs.
-/

namespace Ratbox.Auth

open Text Address Resolver SavedNext Run List Option Function

/-- **What happened was safe.** A request is neither read nor written nor freed after it was freed,
and a client is added to the list of clients with no flag set, once, and not after it exited. -/
def Safe : List Event → Prop
  | [] => True
  | .touched a :: log => .freed a ∉ log ∧ Safe log
  | .freed a :: log => .freed a ∉ log ∧ Safe log
  | .added a pending :: log => (pending = false ∧ (∀ p, .added a p ∉ log) ∧ .exited a ∉ log) ∧
    Safe log
  | .exited _ :: log => Safe log

/-- **What a client has come to**: its request is there, with a flag set and in the list of those
whose time may be over, and nothing has happened to it; or it was freed, and the client was added or
has exited. -/
def Settled (s : State) (a : ℕ) : Prop :=
  (∃ auth, s.auths a = some auth ∧ auth.pending = true ∧ a ∈ s.authPollList ∧ ∀ e ∈ s.log,
    e.client = a → e = .touched a) ∨ s.auths a = none ∧ .freed a ∈ s.log ∧ (.added a false ∈ s.log ∨
      .exited a ∈ s.log)

/-- `start_auth`, or the event for the requests whose time is over, goes on with the request of a
client. -/
def Held (s : State) (a : ℕ) : Prop :=
  (∃ stage, s.starting = some (a, stage)) ∨ ∃ now, s.sweeping = some (now, some a)

/-- The answer of a query ends the last of the checks. -/
def LastCheck (auth : AuthRequest) : Callback → Prop
  | .authDns _ => auth.auth = false ∧ auth.rbl = false
  | .rblDns _ query => auth.dns = false ∧ auth.auth = false ∧ ∀ q ∈ auth.rblQueries, q.query = query

/-- The condition on what `start_auth` goes on with. The lookup of the address does not fail at once
when the other checks are over, and when a query to a list of banned addresses waits, its flag was
not cleared by one that failed at once. -/
def StageMeets (s : State) (a : ℕ) : Stage → Prop
  | .dnsLookup => s.resolver.dnsHelper = false → (assignDnsId s.resolver).2 ≠ 0 →
    ∀ auth, s.auths a = some auth → ¬LastCheck auth (.authDns a)
  | .rblReturn query nid _ => ∀ q, s.resolver.Waiting nid q →
    s.callbacks q = some (.rblDns a query) → ∀ auth, s.auths a = some auth → auth.rbl = true
  | _ => True

/-- The condition on a step. A client whose request is held does not exit, no answer ends the last
of its checks, and the resolver meets its own condition. -/
def Meets (s : State) : Op → Prop
  | .startAuthNext _ => ∀ a stage, s.starting = some (a, stage) → StageMeets s a stage
  | .exit a => ¬Held s a
  | .resolver op => Resolver.Meets s.resolver op ∧ ∀ dnsBuf, op = .reply dnsBuf →
    ∀ q ∈ answers s.resolver dnsBuf,
    ∀ c, s.callbacks q = some c → ∀ auth, s.auths c.client = some auth → LastCheck auth c →
      ¬Held s c.client
  | _ => True

/-! ### The invariant -/

/-- `start_auth` has not called `lookup_ip`. -/
def Stage.early : Stage → Bool
  | .dnsReturn _ => false
  | _ => true

/-- The number that is in a request for the query for its address, or is about to be written. -/
def dnsNumber (starting : Option (ℕ × Stage)) (a : ℕ) (auth : AuthRequest) : ℕ :=
  match starting with
  | some (b, .dnsReturn nid) => if b = a then nid else auth.dnsQuery
  | _ => auth.dnsQuery

/-- The number that is in a query of a request, or is about to be written. -/
def rblNumber (starting : Option (ℕ × Stage)) (a : ℕ) (q : RblQuery) : ℕ :=
  match starting with
  | some (b, .rblReturn query nid _) => if b = a ∧ query = q.query then nid else q.queryid
  | _ => q.queryid

/-- The number of a query of a request is about to be written. -/
def Returning (starting : Option (ℕ × Stage)) (a query : ℕ) : Prop :=
  ∃ nid left, starting = some (a, .rblReturn query nid left)

/-- **A request fits the queries that wait**, and where `start_auth` is with it. -/
structure Fits (r : Resolver.State) (callbacks : ℕ → Option Callback) (starting :
    Option (ℕ × Stage)) (a : ℕ) (auth : AuthRequest) : Prop where
  dns : ∀ nid q, r.Waiting nid q → callbacks q = some (.authDns a) → auth.dns = true ∧
    dnsNumber starting a auth = nid
  rbl : ∀ nid q query, r.Waiting nid q → callbacks q = some (.rblDns a query) →
    ∃ t ∈ auth.rblQueries, t.query = query ∧ rblNumber starting a t = nid
  rblFlag : ∀ nid q query, r.Waiting nid q → callbacks q = some (.rblDns a query) →
    auth.rbl = true ∨ Returning starting a query
  early : ∀ stage, starting = some (a, stage) → stage.early = true → auth.dns = true
  asked : ∀ query hostbuf left, starting = some (a, .rblLookup query hostbuf left) →
    ∃ t ∈ auth.rblQueries, t.query = query

/-- The requests, the queries that wait, and what happened belong together. -/
structure Core (s : State) : Prop where
  resolver : Resolver.Inv s.resolver
  callbacks_lt : ∀ q c, s.callbacks q = some c → q < s.resolver.fresh ∧ c.client < s.clients.length
  callbacks_inj : ∀ q q' c, s.callbacks q = some c → s.callbacks q' = some c → q = q'
  queries_lt : ∀ q a query, s.callbacks q = some (.rblDns a query) → query < s.queries
  fits : ∀ a auth, s.auths a = some auth → Fits s.resolver s.callbacks s.starting a auth
  gone : ∀ nid q c, s.resolver.Waiting nid q → s.callbacks q = some c → s.auths c.client ≠ none
  unasked : ∀ a stage, s.starting = some (a, stage) → stage.early = true →
    ∀ q, s.callbacks q ≠ some (.authDns a)
  fresh : ∀ a query hostbuf left, s.starting = some (a, .rblLookup query hostbuf left) →
    query < s.queries ∧ ∀ q, s.callbacks q ≠ some (.rblDns a query)
  held : ∀ a, Held s a → s.auths a ≠ none
  idle : s.sweeping ≠ none → s.starting = none
  poll : ∀ a, a ∈ s.authPollList ↔ s.auths a ≠ none
  nodup : s.authPollList.Nodup
  live : ∀ a, s.auths a ≠ none → a < s.clients.length ∧ ∀ e ∈ s.log, e.client = a → e = .touched a
  ended : ∀ a < s.clients.length, s.auths a = none → .freed a ∈ s.log ∧ (.added a false ∈ s.log ∨
    .exited a ∈ s.log)
  log_lt : ∀ e ∈ s.log, e.client < s.clients.length
  safe : Safe s.log

/-- **The invariant**: besides, every request has a flag set. -/
structure Inv (s : State) : Prop extends Core s where
  pending : ∀ a auth, s.auths a = some auth → auth.pending = true

section Numbers

variable {starting : Option (ℕ × Stage)} {a nid query : ℕ} {auth : AuthRequest} {q : RblQuery}

theorem dnsNumber_of_ne (h : ∀ nid, starting ≠ some (a, .dnsReturn nid)) :
    dnsNumber starting a auth = auth.dnsQuery := by
  unfold dnsNumber
  split
  · rename_i b nid'
    exact if_neg fun heq => h nid' (by rw [heq])
  · rfl

theorem rblNumber_of_ne (h : ¬Returning starting a q.query) :
    rblNumber starting a q = q.queryid := by
  unfold rblNumber
  split
  · rename_i b query' nid' left
    exact if_neg fun heq => h ⟨nid', left, by rw [heq.1, heq.2]⟩
  · rfl

theorem dnsNumber_returning : dnsNumber (some (a, .dnsReturn nid)) a auth = nid := if_pos rfl

theorem rblNumber_returning {left : List Rbl} :
    rblNumber (some (a, .rblReturn query nid left)) a q = if query = q.query then nid
    else q.queryid := by
  simp [rblNumber]

end Numbers

variable {s : State} {a : ℕ}

theorem Held.of_starting {stage : Stage} (h : s.starting = some (a, stage)) : Held s a :=
  .inl ⟨stage, h⟩

section Parts

variable {s : State} {a q : ℕ} {auth auth' : AuthRequest} {new : List Resolver.Event}
  {r : Resolver.State}

@[simp] theorem set_auths_self : (s.set a auth).auths a = some auth := update_self ..

@[simp] theorem set_auths_of_ne {b : ℕ} (hb : b ≠ a) : (s.set a auth).auths b = s.auths b :=
  update_of_ne hb ..

@[simp] theorem free_auths_self : (s.free a).auths a = none := update_self ..

@[simp] theorem free_auths_of_ne {b : ℕ} (hb : b ≠ a) : (s.free a).auths b = s.auths b :=
  update_of_ne hb ..

/-- A request that is written is there before and after. -/
theorem set_auths_ne_none (hauth : s.auths a = some auth) (b : ℕ) :
    (s.set a auth').auths b ≠ none ↔ s.auths b ≠ none := by
  by_cases hb : b = a
  · rw [hb, hauth, set_auths_self]
    simp
  · rw [set_auths_of_ne hb]

/-- A request is written with a flag set. -/
theorem pending_set (h : ∀ b auth, s.auths b = some auth → auth.pending = true)
    (hpending : auth'.pending = true) (b : ℕ)
    (auth'' : AuthRequest) (hb : (s.set a auth').auths b = some auth'') :
    auth''.pending = true := by
  by_cases hba : b = a
  · subst hba
    rw [← some.inj (set_auths_self.symm.trans hb), hpending]
  · exact h b auth'' ((set_auths_of_ne hba).symm.trans hb)

/-- Nothing that matters has changed. -/
theorem Core.congr {s' : State} (h : Core s) (hresolver : s'.resolver = s.resolver)
    (hcallbacks : s'.callbacks = s.callbacks)
    (hclients : s'.clients = s.clients) (hauths : s'.auths = s.auths)
    (hpoll : s'.authPollList = s.authPollList)
    (hqueries : s'.queries = s.queries) (hstarting : s'.starting = s.starting)
    (hsweeping : s'.sweeping = s.sweeping) (hlog : s'.log = s.log) : Core s' := by
  obtain ⟨resolver, callbacks, clients, auths, authPollList, queries, starting, sweeping, log,
    outputs⟩ := s'
  dsimp only at *
  subst hresolver hcallbacks hclients hauths hpoll hqueries hstarting hsweeping hlog
  exact ⟨h.resolver, h.callbacks_lt, h.callbacks_inj, h.queries_lt, h.fits, h.gone, h.unasked,
    h.fresh, h.held, h.idle, h.poll, h.nodup, h.live, h.ended, h.log_lt, h.safe⟩

theorem Core.output (h : Core s) (outputs : List Output) : Core (s.output outputs) :=
  h.congr rfl rfl rfl rfl rfl rfl rfl rfl rfl

/-- **A request is read or written**, before it is freed. -/
theorem Core.touch (h : Core s) (hlive : s.auths a ≠ none) : Core (s.touch a) where
  __ := h
  held := h.held
  live b hb := by
    refine ⟨(h.live b hb).1, fun e he heq => ?_⟩
    obtain rfl | hold := mem_cons.mp he
    · exact congrArg Event.touched heq
    · exact (h.live b hb).2 e hold heq
  ended b hb hnone := by
    obtain ⟨hfreed, hover⟩ := h.ended b hb hnone
    exact ⟨mem_cons_of_mem _ hfreed, hover.imp (mem_cons_of_mem _) (mem_cons_of_mem _)⟩
  log_lt e he := by
    obtain rfl | hold := mem_cons.mp he
    · exact (h.live a hlive).1
    · exact h.log_lt e hold
  safe := ⟨fun hfreed => by simpa using (h.live a hlive).2 _ hfreed rfl, h.safe⟩

/-- **A request is written.** -/
theorem Core.set (h : Core s) (hauth : s.auths a = some auth)
    (hfits : Fits s.resolver s.callbacks s.starting a auth') :
    Core (s.set a auth') := by
  have hnone : ∀ b, (s.set a auth').auths b ≠ none ↔ s.auths b ≠ none := set_auths_ne_none hauth
  refine { h with
    fits := fun b auth'' hb => ?_
    gone := fun nid q c hwait hc => (hnone _).mpr (h.gone nid q c hwait hc)
    held := fun b hb => (hnone b).mpr (h.held b hb)
    poll := fun b => (h.poll b).trans (hnone b).symm
    live := fun b hb => h.live b ((hnone b).mp hb)
    ended := fun b hlt hb => h.ended b hlt (not_not.mp fun hne => (hnone b).mpr hne hb) }
  by_cases hba : b = a
  · subst hba
    cases set_auths_self.symm.trans hb
    exact hfits
  · exact h.fits b auth'' ((set_auths_of_ne hba).symm.trans hb)

/-- **A request is freed**, none of whose queries waits, as its client is added or exits. -/
theorem Core.free (h : Core s) (hlive : s.auths a ≠ none) (hheld : ¬Held s a)
    (hnone : ∀ nid q c, s.resolver.Waiting nid q → s.callbacks q = some c → c.client ≠ a)
    {e : Event} (he : e = .added a false ∨ e = .exited a) :
    Core { s.free a with log := e :: (s.free a).log } := by
  have hclient : e.client = a := by
    obtain rfl | rfl := he <;> rfl
  obtain ⟨hlt, hlog⟩ := h.live a hlive
  have hsafe : Safe (.freed a :: s.log) := ⟨fun hfreed => by simpa using hlog _ hfreed rfl, h.safe⟩
  have hiff : ∀ b, (s.free a).auths b ≠ none ↔ b ≠ a ∧ s.auths b ≠ none := by
    intro b
    by_cases hb : b = a
    · simp [hb]
    · simp [hb]
  refine { h with
    fits := fun b auth hb => ?_
    gone := fun nid q c hwait hc => (hiff _).mpr ⟨hnone nid q c hwait hc, h.gone nid q c hwait hc⟩
    held := fun b hb => (hiff b).mpr ⟨fun heq => hheld (heq ▸ hb), h.held b hb⟩
    poll := fun b => ?_
    nodup := h.nodup.erase a
    live := fun b hb => ?_
    ended := fun b hb hgone => ?_
    log_lt := fun e' he' => ?_
    safe := ?_ }
  · by_cases hba : b = a
    · subst hba
      cases free_auths_self.symm.trans hb
    · exact h.fits b auth ((free_auths_of_ne hba).symm.trans hb)
  · rw [hiff, ← h.poll]
    exact h.nodup.mem_erase_iff
  · obtain ⟨hne, hb⟩ := (hiff b).mp hb
    refine ⟨(h.live b hb).1, fun e' he' heq => ?_⟩
    obtain rfl | he' := mem_cons.mp he'
    · exact absurd (heq.symm.trans hclient) hne
    · obtain rfl | he' := mem_cons.mp he'
      · exact absurd heq.symm hne
      · exact (h.live b hb).2 e' he' heq
  · by_cases hba : b = a
    · subst hba
      refine ⟨mem_cons_of_mem _ mem_cons_self, he.imp ?_ ?_⟩
      · rintro rfl
        exact mem_cons_self
      · rintro rfl
        exact mem_cons_self
    · obtain ⟨hfreed, hover⟩ := h.ended b hb ((free_auths_of_ne hba).symm.trans hgone)
      have hmem : ∀ {e'}, e' ∈ s.log → e' ∈ e :: (s.free a).log :=
        fun he' => mem_cons_of_mem _ (mem_cons_of_mem _ he')
      exact ⟨hmem hfreed, hover.imp hmem hmem⟩
  · obtain rfl | he' := mem_cons.mp he'
    · rw [hclient]
      exact hlt
    · obtain rfl | he' := mem_cons.mp he'
      · exact hlt
      · exact h.log_lt e' he'
  · obtain rfl | rfl := he
    · refine ⟨⟨rfl, fun p hadded => ?_, fun hexited => ?_⟩, hsafe⟩
      · obtain heq | hadded := mem_cons.mp hadded
        · cases heq
        · simpa using hlog _ hadded rfl
      · obtain heq | hexited := mem_cons.mp hexited
        · cases heq
        · simpa using hlog _ hexited rfl
    · exact hsafe

/-- **The flags of a request are cleared**: it is released when none is set any more. -/
theorem Inv.setRelease (h : Inv s) (hauth : s.auths a = some auth)
    (hfits : Fits s.resolver s.callbacks s.starting a auth')
    (hheld : auth'.pending = false → ¬Held s a) :
    Inv (releaseAuthClient (s.set a auth') a) := by
  have hcore : Core ((s.set a auth').touch a) := (h.set hauth hfits).touch (by simp)
  rw [releaseAuthClient, State.withAuth, set_auths_self]
  dsimp only
  cases hpending : auth'.pending with
  | true =>
    rw [if_pos rfl]
    exact ⟨hcore, pending_set h.pending hpending⟩
  | false =>
    rw [if_neg Bool.false_ne_true]
    have hclear : auth'.dns = false ∧ auth'.auth = false ∧ auth'.rbl = false := by
      simpa [AuthRequest.pending, and_assoc] using hpending
    have hnone : ∀ nid q c, s.resolver.Waiting nid q → s.callbacks q = some c → c.client ≠ a := by
      rintro nid q (b | ⟨b, query⟩) hwait hc rfl
      · exact absurd (hfits.dns nid q hwait hc).1 (by simp [hclear.1])
      · obtain hrbl | ⟨nid', left, hreturn⟩ := hfits.rblFlag nid q query hwait hc
        · exact absurd hrbl (by simp [hclear.2.2])
        · exact hheld hpending (.of_starting hreturn)
    refine ⟨hcore.free (by simp [State.touch]) (hheld hpending) hnone (.inl rfl), fun b auth'' hb =>
      ?_⟩
    by_cases hba : b = a
    · subst hba
      cases free_auths_self.symm.trans hb
    · exact h.pending b auth'' ((set_auths_of_ne hba).symm.trans ((free_auths_of_ne hba).symm.trans
        hb))

theorem Inv.touch (h : Inv s) (hlive : s.auths a ≠ none) : Inv (s.touch a) :=
  ⟨h.toCore.touch hlive, h.pending⟩

theorem Inv.output (h : Inv s) (outputs : List Output) : Inv (s.output outputs) :=
  ⟨h.toCore.output outputs, h.pending⟩

/-- **A request is written**, and a flag stays set. -/
theorem Inv.set (h : Inv s) (hauth : s.auths a = some auth)
    (hfits : Fits s.resolver s.callbacks s.starting a auth') (hpending : auth'.pending = true) :
    Inv (s.set a auth') :=
  ⟨h.toCore.set hauth hfits, pending_set h.pending hpending⟩

/-! ### Answers -/

/-- **`auth_dns_callback`**, of the only query for the address. -/
theorem Inv.authDnsCallback (h : Inv s) (hauth : s.auths a = some auth)
    (hc : s.callbacks q = some (.authDns a))
    (hnone : ∀ nid q, s.resolver.Waiting nid q → s.callbacks q ≠ some (.authDns a))
    (hlast : LastCheck auth (.authDns a) → ¬Held s a) (res : Str) (status : ℤ) :
    Inv (authDnsCallback s a res status) := by
  rw [Auth.authDnsCallback, State.withAuth, hauth]
  refine ((h.touch (by simp [hauth])).output (dnsOutputs a res status)).setRelease hauth ?_
    fun hpending => ?_
  · have hfits := h.fits a auth hauth
    exact ⟨fun nid q hwait hc => absurd hc (hnone nid q hwait), hfits.rbl, hfits.rblFlag,
      fun stage hstage hearly => absurd hc (h.unasked a stage hstage hearly q), hfits.asked⟩
  · exact hlast (by simpa [AuthRequest.pending, LastCheck] using hpending)

/-- **Identification is over.** -/
theorem Inv.identOver (h : Inv s) (hauth : s.auths a = some auth)
    (hheld : Held s a → auth.dns = true) (outputs : List Output) : Inv (releaseAuthClient
      (((s.touch a).output outputs).set a { auth with authF := false, auth := false }) a) := by
  refine ((h.touch (by simp [hauth])).output outputs).setRelease hauth ?_ fun hpending hh => ?_
  · have hfits := h.fits a auth hauth
    exact ⟨hfits.dns, hfits.rbl, hfits.rblFlag, hfits.early, hfits.asked⟩
  · simp [AuthRequest.pending, hheld hh] at hpending

/-- **`rbl_release_auth`**. -/
theorem Inv.rblReleaseAuth (h : Inv s) (hauth : s.auths a = some auth)
    (hlast : auth.rblQueries = [] → auth.dns = false → auth.auth = false → ¬Held s a) :
    Inv (rblReleaseAuth s a) := by
  rw [Auth.rblReleaseAuth, State.withAuth, hauth]
  dsimp only
  have hlive : s.auths a ≠ none := by simp [hauth]
  by_cases hqueries : auth.rblQueries = []
  · rw [if_neg (not_not.mpr hqueries)]
    have hfits := h.fits a auth hauth
    refine ((h.touch hlive).output [.header a .finRbl]).setRelease hauth ?_ fun hpending => ?_
    · refine ⟨hfits.dns, hfits.rbl, fun nid q query hwait hc => ?_, hfits.early, hfits.asked⟩
      obtain ⟨t, ht, -⟩ := hfits.rbl nid q query hwait hc
      exact absurd ht (by simp [hqueries])
    · have hclear : auth.dns = false ∧ auth.auth = false := by
        simpa [AuthRequest.pending] using hpending
      exact hlast hqueries hclear.1 hclear.2
  · rw [if_pos hqueries]
    exact h.touch hlive

/-- **`rbl_dns_callback`**, of the only query with its number. -/
theorem Inv.rblDnsCallback (h : Inv s) (hauth : s.auths a = some auth) {query : ℕ}
    (hc : s.callbacks q = some (.rblDns a query))
    (hnone : ∀ nid q, s.resolver.Waiting nid q → s.callbacks q ≠ some (.rblDns a query))
    (hlast : LastCheck auth (.rblDns a query) → ¬Held s a) (result : Str) (status : ℤ)
    (aftype : Option Family) :
    Inv (rblDnsCallback s a query result status aftype) := by
  rw [Auth.rblDnsCallback, State.withAuth, hauth]
  dsimp only
  have htouch := h.touch (a := a) (by simp [hauth])
  cases hfind : auth.rblQueries.find? (·.query = query) with
  | none => exact htouch
  | some t =>
    dsimp only
    have hfits := h.fits a auth hauth
    have hkept : ∀ {t}, t ∈ auth.rblQueries → t.query ≠ query →
      t ∈ auth.rblQueries.filter (·.query ≠ query) :=
      fun ht hne => mem_filter.mpr ⟨ht, decide_eq_true hne⟩
    have hfits' : Fits s.resolver s.callbacks s.starting a
        { auth with rblQueries := auth.rblQueries.filter (·.query ≠ query) } := by
      refine ⟨hfits.dns, fun nid q' query' hwait hc' => ?_, hfits.rblFlag, hfits.early,
        fun query' hostbuf left hstage => ?_⟩
      · obtain ⟨t, ht, hquery, hnumber⟩ := hfits.rbl nid q' query' hwait hc'
        refine ⟨t, hkept ht fun heq => hnone nid q' hwait ?_, hquery, hnumber⟩
        rw [hc', ← hquery, heq]
      · obtain ⟨t, ht, hquery⟩ := hfits.asked query' hostbuf left hstage
        refine ⟨t, hkept ht fun heq => (h.fresh a query' hostbuf left hstage).2 q ?_, hquery⟩
        rw [hc, ← heq, hquery]
    have hset := (htouch.output (rblOutputs a t.rbl result status aftype)).set hauth hfits'
      (h.pending a auth hauth)
    refine hset.rblReleaseAuth set_auths_self fun hempty hdns hident => hlast ⟨hdns, hident,
      fun t' ht' => ?_⟩
    by_contra hne
    exact ne_nil_of_mem (hkept ht' hne) hempty

/-- **A callback**, of a query that no longer waits. -/
theorem Inv.callback (h : Inv s) (hlive : ∀ c, s.callbacks q = some c → s.auths c.client ≠ none)
    (hnot : ∀ nid, ¬s.resolver.Waiting nid q)
    (hlast : ∀ c, s.callbacks q = some c → ∀ auth, s.auths c.client = some auth →
      LastCheck auth c → ¬Held s c.client) (results : Str) (status : ℤ) (aftype : Option Family) :
    Inv (callback s (.ran q results status aftype)) := by
  rw [Auth.callback]
  have hnone : ∀ c, s.callbacks q = some c →
      ∀ nid q', s.resolver.Waiting nid q' → s.callbacks q' ≠ some c :=
    fun c hc nid q' hwait hc' => hnot nid (h.callbacks_inj q q' c hc hc' ▸ hwait)
  cases hc : s.callbacks q with
  | none => exact h
  | some c =>
    obtain ⟨auth, hauth⟩ := ne_none_iff_exists'.mp (hlive c hc)
    cases c with
    | authDns a =>
      exact h.authDnsCallback hauth hc (hnone _ hc) (hlast _ hc auth hauth) results status
    | rblDns a query =>
      exact h.rblDnsCallback hauth hc (hnone _ hc) (hlast _ hc auth hauth) results status aftype

/-! ### The resolver -/

theorem callback_of_quiet {e : Resolver.Event} (he : e.Quiet) (s : State) : callback s e = s := by
  cases e with
  | ran => exact he.elim
  | _ => rfl

theorem foldr_callback (hnew : ∀ e ∈ new, e.Quiet) (s : State) :
    new.foldr (fun e s => callback s e) s = s := by
  induction new with
  | nil => rfl
  | cons e new ih =>
    rw [foldr_cons, ih fun e' he' => hnew e' (mem_cons_of_mem _ he'),
      callback_of_quiet (hnew e mem_cons_self)]

theorem follow_quiet (hnew : ∀ e ∈ new, e.Quiet)
    (hlog : r.log = new ++ s.resolver.log) : s.follow r = { s with resolver := r } := by
  rw [State.follow, hlog, length_append, Nat.add_sub_cancel, take_left']
  · exact foldr_callback hnew _
  · rfl

theorem follow_called (hnew : ∀ e ∈ new, e.Quiet) {results : Str}
    {status : ℤ} {aftype : Option Family}
    (hlog : r.log = .ran q results status aftype :: new ++ s.resolver.log) :
    s.follow r = callback { s with resolver := r } (.ran q results status aftype) := by
  rw [State.follow, hlog, length_append, Nat.add_sub_cancel, take_left']
  · rw [foldr_cons, foldr_callback hnew]
  · rfl

/-- **The resolver has done something**, and calls no callback: no new query has one. -/
theorem Inv.resolved (h : Inv s) (hr : Resolver.Inv r) (hfresh : s.resolver.fresh ≤ r.fresh)
    (hwaiting : ∀ n q, r.Waiting n q → s.resolver.Waiting n q ∨ s.resolver.fresh ≤ q) :
    Inv { s with resolver := r } := by
  have hold : ∀ {n q c}, r.Waiting n q → s.callbacks q = some c →
      s.resolver.Waiting n q := fun hwait hc =>
    (hwaiting _ _ hwait).resolve_right (not_le.mpr (h.callbacks_lt _ _ hc).1)
  exact { h with
    resolver := hr
    callbacks_lt := fun q c hc => ⟨(h.callbacks_lt q c hc).1.trans_le hfresh,
      (h.callbacks_lt q c hc).2⟩
    fits := fun a auth hauth =>
      have hfits := h.fits a auth hauth
      ⟨fun nid q hwait hc => hfits.dns nid q (hold hwait hc) hc,
        fun nid q query hwait hc => hfits.rbl nid q query (hold hwait hc) hc,
        fun nid q query hwait hc => hfits.rblFlag nid q query (hold hwait hc) hc, hfits.early,
          hfits.asked⟩
    gone := fun nid q c hwait hc => h.gone nid q c (hold hwait hc) hc }

/-- **A step of the resolver** that is not made for a request. -/
theorem Inv.resolverStep (h : Inv s) {op : Resolver.Op} (hmeets : Meets s (.resolver op))
    (hr : Resolver.step s.resolver op = some r) : Inv (s.follow r) := by
  obtain ⟨called, heffect, hcalled⟩ := step_effect h.resolver hmeets.1 hr
  have hinv := h.resolver.step hmeets.1 hr
  cases heffect with
  | quiet new hnew hlog hfresh hwaiting =>
    rw [follow_quiet hnew hlog]
    exact h.resolved hinv hfresh hwaiting
  | called q results status aftype new hnew hlog hfresh hq hwaiting =>
    rw [follow_called hnew hlog]
    have hnew : ∀ {c}, s.callbacks q = some c → ¬s.resolver.fresh ≤ q :=
      fun hc => not_le.mpr (h.callbacks_lt _ _ hc).1
    refine (h.resolved hinv hfresh fun n q' hwait => (hwaiting n q' hwait).2).callback
      (fun c hc => ?_) (fun nid hwait => ?_) (fun c hc => ?_) results status aftype
    · obtain ⟨n, hwait⟩ := hq.resolve_left (hnew hc)
      exact h.gone n q c hwait hc
    · exact (hwaiting nid q hwait).1 rfl
    · obtain ⟨dnsBuf, rfl, hanswers⟩ := (hcalled q rfl).resolve_left (hnew hc)
      exact hmeets.2 dnsBuf rfl q hanswers c hc

end Parts

/-! ### `start_auth` -/

section Starting

variable {s : State} {a b : ℕ} {auth auth' : AuthRequest} {stage stage' : Stage} {starting' :
  Option (ℕ × Stage)} {r : Resolver.State} {left : List Rbl} {c : Callback}

/-- Where `start_auth` is with one request does not matter to another. -/
theorem Fits.other {callbacks : ℕ → Option Callback}
    (h : Fits r callbacks (some (a, stage)) b auth) (hba : b ≠ a)
    (hsame : ∀ c st, starting' = some (c, st) → c = a) :
    Fits r callbacks starting' b auth := by
  have hnot : ∀ st, (some (a, stage) : Option (ℕ × Stage)) ≠ some (b, st) :=
    fun st heq => hba (Prod.mk.inj (some.inj heq)).1.symm
  have hnot' : ∀ st, starting' ≠ some (b, st) := fun st heq => hba (hsame b st heq)
  have hret : ∀ query, ¬Returning (some (a, stage)) b query :=
    fun query ⟨nid, left, heq⟩ => hnot _ heq
  have hret' : ∀ query, ¬Returning starting' b query := fun query ⟨nid, left, heq⟩ => hnot' _ heq
  refine ⟨fun nid q hwait hc => ?_, fun nid q query hwait hc => ?_, fun nid q query hwait hc => ?_,
    fun st heq => absurd heq (hnot' st), fun query hostbuf left heq => absurd heq (hnot' _)⟩
  · rw [dnsNumber_of_ne fun nid => hnot' _, ← dnsNumber_of_ne fun nid => hnot _]
    exact h.dns nid q hwait hc
  · obtain ⟨t, ht, hquery, hnumber⟩ := h.rbl nid q query hwait hc
    rw [rblNumber_of_ne (hret _)] at hnumber
    exact ⟨t, ht, hquery, by rw [rblNumber_of_ne (hret' _), hnumber]⟩
  · exact .inl ((h.rblFlag nid q query hwait hc).resolve_right (hret _))

/-- **`start_auth` goes on**, and the request that it is with is written. -/
theorem Inv.setGoesOn (h : Inv s) (hstage : s.starting = some (a, stage))
    (hauth : s.auths a = some auth) (hsame : ∀ c st, starting' = some (c, st) → c = a)
    (hfits : Fits s.resolver s.callbacks starting' a auth') (hpending : auth'.pending = true)
    (hearly : ∀ st, starting' = some (a, st) → st.early = true → stage.early = true)
    (hfresh : ∀ query hostbuf left, starting' = some (a, .rblLookup query hostbuf left) →
      query < s.queries ∧ ∀ q, s.callbacks q ≠ some (.rblDns a query)) :
      Inv { s.set a auth' with starting := starting' } := by
  have hnone : ∀ b, (s.set a auth').auths b ≠ none ↔ s.auths b ≠ none := set_auths_ne_none hauth
  refine { h with
    fits := fun b auth'' hb => ?_
    gone := fun nid q c hwait hc => (hnone _).mpr (h.gone nid q c hwait hc)
    unasked := fun b st hb hst => ?_
    fresh := fun b query hostbuf left hb => ?_
    held := fun b hb => (hnone b).mpr ?_
    idle := fun hsweeping => absurd (h.idle hsweeping) (by simp [hstage])
    poll := fun b => (h.poll b).trans (hnone b).symm
    live := fun b hb => h.live b ((hnone b).mp hb)
    ended := fun b hlt hb => h.ended b hlt (not_not.mp fun hne => (hnone b).mpr hne hb)
    pending := pending_set h.pending hpending }
  · by_cases hba : b = a
    · subst hba
      cases set_auths_self.symm.trans hb
      exact hfits
    · have hold := h.fits b auth'' ((set_auths_of_ne hba).symm.trans hb)
      rw [hstage] at hold
      exact hold.other hba hsame
  · obtain rfl := hsame b st hb
    exact h.unasked b stage hstage (hearly st hb hst)
  · obtain rfl := hsame b _ hb
    exact hfresh query hostbuf left hb
  · obtain ⟨st, hb⟩ | hb := hb
    · rw [hsame b st hb, hauth]
      simp
    · exact h.held b (.inr hb)

/-- A query gets the number of the next one. -/
theorem Inv.nextQuery (h : Inv s) : Inv { s with queries := s.queries + 1 } :=
  { h with
    queries_lt := fun q a query hc => Nat.lt_succ_of_lt (h.queries_lt q a query hc)
    fresh := fun a query hostbuf left hstage =>
      ⟨Nat.lt_succ_of_lt (h.fresh a query hostbuf left hstage).1,
        (h.fresh a query hostbuf left hstage).2⟩ }

/-- `start_auth` is not about to write a number: it is in the request. -/
theorem Inv.fits_written (h : Inv s) (hstage : s.starting = some (a, stage))
    (hauth : s.auths a = some auth)
    (hnot : ∀ query nid left, stage ≠ .rblReturn query nid left) {nid q query : ℕ}
    (hwait : s.resolver.Waiting nid q) (hc : s.callbacks q = some (.rblDns a query)) :
    auth.rbl = true ∧ ∃ t ∈ auth.rblQueries, t.query = query ∧ t.queryid = nid := by
  have hfits := h.fits a auth hauth
  have hret : ∀ query, ¬Returning s.starting a query := by
    rintro query ⟨nid, left, heq⟩
    rw [hstage] at heq
    exact hnot query nid left (Prod.mk.inj (some.inj heq)).2
  obtain ⟨t, ht, hquery, hnumber⟩ := hfits.rbl nid q query hwait hc
  rw [rblNumber_of_ne (hret _)] at hnumber
  exact ⟨(hfits.rblFlag nid q query hwait hc).resolve_right (hret _), t, ht, hquery, hnumber⟩

/-- The request of `start_auth` in an early stage. -/
theorem Inv.exists_early (h : Inv s) (hstage : s.starting = some (a, stage))
    (hearly : stage.early = true) (hnot : ∀ query nid left, stage ≠ .rblReturn query nid left) :
    ∃ auth, s.auths a = some auth ∧ Inv (s.touch a) ∧ auth.dns = true ∧
      ∀ nid q query, s.resolver.Waiting nid q → s.callbacks q = some (.rblDns a query) →
        auth.rbl = true ∧ ∃ t ∈ auth.rblQueries, t.query = query ∧ t.queryid = nid := by
  obtain ⟨auth, hauth⟩ := ne_none_iff_exists'.mp (h.held a (.of_starting hstage))
  exact ⟨auth, hauth, h.touch (by simp [hauth]), (h.fits a auth hauth).early _ hstage hearly,
    fun _ _ _ => h.fits_written hstage hauth hnot⟩

/-- Before the lookup of the address no query for it waits, and a request fits when the queries to
the lists of banned addresses that wait are in it with their numbers. -/
theorem Inv.fits_early (h : Inv s) (hstage : s.starting = some (a, stage))
    (hearly : stage.early = true) (hdns : auth'.dns = true)
    (hrbl : ∀ nid q query, s.resolver.Waiting nid q → s.callbacks q = some (.rblDns a query) →
      auth'.rbl = true ∧ ∃ t ∈ auth'.rblQueries, t.query = query ∧ t.queryid = nid)
    (hnot : ∀ query nid left, stage' ≠ .rblReturn query nid left)
    (hasked : ∀ query hostbuf left, stage' = .rblLookup query hostbuf left → ∃ t ∈ auth'.rblQueries,
      t.query = query) :
    Fits s.resolver s.callbacks (some (a, stage')) a auth' where
  dns nid q hwait hc := absurd hc (h.unasked a stage hstage hearly q)
  rbl nid q query hwait hc := by
    obtain ⟨-, t, ht, hquery, hnumber⟩ := hrbl nid q query hwait hc
    refine ⟨t, ht, hquery, ?_⟩
    rw [rblNumber_of_ne, hnumber]
    rintro ⟨nid', left, heq⟩
    exact hnot _ nid' left (Prod.mk.inj (some.inj heq)).2
  rblFlag nid q query hwait hc := .inl (hrbl nid q query hwait hc).1
  early _ _ _ := hdns
  asked query hostbuf left heq := hasked query hostbuf left (Prod.mk.inj (some.inj heq)).2

theorem same_client : ∀ c st, (some (a, stage') : Option (ℕ × Stage)) = some (c, st) → c = a :=
  fun _ _ heq => (Prod.mk.inj (some.inj heq)).1.symm

theorem set_self (hauth : s.auths a = some auth) : s.set a auth = s := by
  rw [State.set, ← hauth, update_eq_self]

/-- **The loop of `rbl_check_rbls` is over.** -/
theorem Inv.rblChecked (h : Inv s) (hstage : s.starting = some (a, .rbls [])) :
    Inv { rblChecked s a with starting := some (a, .ident) } := by
  obtain ⟨auth, hauth, htouch, hdns, hwritten⟩ := h.exists_early hstage rfl (by simp)
  rw [Auth.rblChecked, State.withAuth, hauth]
  dsimp only
  by_cases hqueries : auth.rblQueries = []
  · rw [if_pos hqueries]
    refine (htouch.output _).setGoesOn hstage hauth same_client (h.fits_early hstage rfl hdns ?_
      (by simp) (by simp)) (by simp [AuthRequest.pending, hdns]) (fun _ _ _ => rfl) (by simp)
    intro nid q query hwait hc
    obtain ⟨-, t, ht, -⟩ := hwritten nid q query hwait hc
    exact absurd ht (by simp [hqueries])
  · rw [if_neg hqueries, ← set_self (show (s.touch a).auths a = some auth from hauth)]
    exact htouch.setGoesOn hstage hauth same_client (h.fits_early hstage rfl hdns hwritten (by simp)
      (by simp)) (h.pending a auth hauth) (fun _ _ _ => rfl) (by simp)

/-- **A query to a list of banned addresses is put in the request.** -/
theorem Inv.rblAttach (h : Inv s) {t : Rbl} (hstage : s.starting = some (a, .rbls (t :: left)))
    (hostbuf : Str) :
    Inv { rblAttach s a t with starting := some (a, .rblLookup s.queries hostbuf left) } := by
  obtain ⟨auth, hauth, htouch, hdns, hwritten⟩ := h.exists_early hstage rfl (by simp)
  rw [Auth.rblAttach, State.withAuth, hauth]
  refine htouch.nextQuery.setGoesOn hstage hauth same_client
    (h.fits_early hstage rfl hdns ?_ (by simp) ?_)
    (h.pending a auth hauth) (fun _ _ _ => rfl) ?_
  · intro nid q query hwait hc
    obtain ⟨hrbl, t, ht, hnumber⟩ := hwritten nid q query hwait hc
    exact ⟨hrbl, t, mem_cons_of_mem _ ht, hnumber⟩
  · intro query hostbuf' left' heq
    obtain ⟨rfl, -⟩ := Stage.rblLookup.inj heq
    exact ⟨_, mem_cons_self, rfl⟩
  · intro query hostbuf' left' heq
    obtain ⟨rfl, -⟩ := Stage.rblLookup.inj (Prod.mk.inj (some.inj heq)).2
    exact ⟨Nat.lt_succ_self _, fun q hc => lt_irrefl _ (h.queries_lt q a s.queries hc)⟩

/-- **The number of a query to a list of banned addresses is written**, whose flag is set if it
waits. -/
theorem Inv.rblReturn (h : Inv s) {query nid : ℕ}
    (hstage : s.starting = some (a, .rblReturn query nid left))
    (hmeets : StageMeets s a (.rblReturn query nid left)) :
    Inv { rblReturn s a query nid with starting := some (a, .rbls left) } := by
  obtain ⟨auth, hauth⟩ := ne_none_iff_exists'.mp (h.held a (.of_starting hstage))
  have hfits := h.fits a auth hauth
  rw [Auth.rblReturn, hauth]
  refine h.setGoesOn hstage hauth same_client (h.fits_early hstage rfl (hfits.early _ hstage rfl) ?_
    (by simp) (by simp)) (h.pending a auth hauth) (fun _ _ _ => rfl) (by simp)
  intro nid' q query' hwait hc
  obtain ⟨t, ht, hquery, hnumber⟩ := hfits.rbl nid' q query' hwait hc
  have hnumber' : (setQueryid query nid t).queryid = nid' := by
    rw [← hnumber, setQueryid, hstage, rblNumber_returning]
    by_cases heq : t.query = query
    · rw [if_pos heq, if_pos heq.symm]
    · rw [if_neg heq, if_neg (Ne.symm heq)]
  refine ⟨?_, _, mem_map_of_mem ht, ?_, hnumber'⟩
  · obtain hrbl | ⟨nid'', left', heq⟩ := hfits.rblFlag nid' q query' hwait hc
    · exact hrbl
    · obtain ⟨rfl, rfl, -⟩ := Stage.rblReturn.inj (Prod.mk.inj (some.inj (hstage.symm.trans heq))).2
      have hnid : nid = nid' := by
        rw [← hnumber, hstage, rblNumber_returning, if_pos hquery.symm]
      exact hmeets q (hnid ▸ hwait) hc auth hauth
  · rw [setQueryid]
    split_ifs
    · exact hquery
    · exact hquery

/-- **The number of the query for the address is written.** -/
theorem Inv.dnsReturn (h : Inv s) {nid : ℕ} (hstage : s.starting = some (a, .dnsReturn nid)) :
    Inv { s.withAuth a fun s auth => s.set a { auth with dnsQuery := nid } with starting :=
      none } := by
  obtain ⟨auth, hauth⟩ := ne_none_iff_exists'.mp (h.held a (.of_starting hstage))
  have hfits := h.fits a auth hauth
  rw [State.withAuth, hauth]
  refine (h.touch (a := a) (by simp [hauth])).setGoesOn hstage hauth (by simp) ?_
    (h.pending a auth hauth) (by simp) (by simp)
  refine ⟨fun nid' q hwait hc => ?_, fun nid' q query hwait hc => ?_, fun nid' q query hwait hc =>
    ?_, by simp, by simp⟩
  · obtain ⟨hdns, hnumber⟩ := hfits.dns nid' q hwait hc
    refine ⟨hdns, ?_⟩
    rw [← hnumber, hstage, dnsNumber_returning]
    rfl
  · exact (h.fits_written hstage hauth (by simp) hwait hc).2
  · exact .inl (h.fits_written hstage hauth (by simp) hwait hc).1

/-- **`start_auth` goes on**, and the request is as it was. -/
theorem Inv.goesOn (h : Inv s) (hstage : s.starting = some (a, stage)) (hearly : stage.early = true)
    (hreturn : ∀ query nid left, stage ≠ .rblReturn query nid left)
    (hnot : ∀ query nid left, stage' ≠ .rblReturn query nid left)
    (hasked : ∀ query hostbuf left, stage' ≠ .rblLookup query hostbuf left) :
    Inv { s with starting := some (a, stage') } := by
  obtain ⟨auth, hauth⟩ := ne_none_iff_exists'.mp (h.held a (.of_starting hstage))
  have hdns := (h.fits a auth hauth).early _ hstage hearly
  have hgoes := h.setGoesOn hstage hauth same_client (h.fits_early hstage hearly hdns
    (fun nid q query hwait hc => h.fits_written hstage hauth hreturn hwait hc) hnot
    fun query hostbuf left heq => absurd heq (hasked query hostbuf left)) (h.pending a auth hauth)
      (fun _ _ _ => hearly)
    fun query hostbuf left heq => absurd (Prod.mk.inj (some.inj heq)).2 (hasked query hostbuf left)
  rwa [set_self hauth] at hgoes

@[simp] theorem starting_releaseAuthClient (s : State) (a : ℕ) :
    (releaseAuthClient s a).starting = s.starting := by
  rw [releaseAuthClient, State.withAuth]
  cases s.auths a with
  | none => rfl
  | some auth =>
    dsimp only
    split_ifs <;> rfl

/-- **`start_auth_query`**, or what is done in its place. -/
theorem Inv.startAuthQuery (h : Inv s) (hstage : s.starting = some (a, .ident))
    (ident : IdentStart) :
    Inv { startAuthQuery s a ident with starting := some (a, .dnsLookup) } := by
  obtain ⟨auth, hauth, htouch, hdns, hwritten⟩ := h.exists_early hstage rfl (by simp)
  cases ident with
  | disabled =>
    rw [Auth.startAuthQuery, State.withAuth, hauth]
    exact htouch.setGoesOn hstage hauth same_client (h.fits_early hstage rfl hdns hwritten (by simp)
      (by simp)) (by simp [AuthRequest.pending, hdns]) (fun _ _ _ => rfl) (by simp)
  | dead => exact htouch.goesOn hstage rfl (by simp) (by simp) (by simp)
  | failed =>
    rw [Auth.startAuthQuery, Auth.authError, State.withAuth, show (s.output [.header a .doId]).auths
      a = some auth from hauth]
    have hover := (h.output [.header a .doId]).identOver hauth (fun _ => hdns) [.header a .failId]
    exact hover.goesOn ((starting_releaseAuthClient ..).trans hstage) rfl (by simp) (by simp)
      (by simp)
  | answered buf =>
    rw [Auth.startAuthQuery, Auth.readAuth, State.withAuth, show (s.output [.header a .doId]).auths
      a = some auth from hauth]
    have hover := (h.output [.header a .doId]).identOver hauth (fun _ => hdns) (identOutputs a buf)
    exact hover.goesOn ((starting_releaseAuthClient ..).trans hstage) rfl (by simp) (by simp)
      (by simp)
  | waits =>
    rw [Auth.startAuthQuery, State.withAuth, hauth]
    exact (htouch.output _).setGoesOn hstage hauth same_client (h.fits_early hstage rfl hdns
      hwritten (by simp) (by simp)) (h.pending a auth hauth) (fun _ _ _ => rfl) (by simp)

/-- The callbacks with that of the next query, if there is a number for it. -/
def nextCallback (s : State) (c : Callback) : ℕ → Option Callback :=
  if (assignDnsId s.resolver).2 = 0 then s.callbacks else update s.callbacks s.resolver.fresh
    (some c)

theorem nextCallback_cases {c' : Callback} {q : ℕ} (hc : nextCallback s c q = some c') :
    s.callbacks q = some c' ∨ (assignDnsId s.resolver).2 ≠ 0 ∧ q = s.resolver.fresh ∧ c' = c := by
  rw [nextCallback] at hc
  split_ifs at hc with hzero
  · exact .inl hc
  · by_cases hq : q = s.resolver.fresh
    · rw [hq, update_self] at hc
      exact .inr ⟨hzero, hq, (some.inj hc).symm⟩
    · rw [update_of_ne hq] at hc
      exact .inl hc

/-- **`start_auth` makes a lookup**, and the query waits, or no query does that did not. -/
theorem Inv.asks (h : Inv s) (hstage : s.starting = some (a, stage)) (hearly : stage.early = true)
    (hclient : c.client = a) (hnew : ∀ q, s.callbacks q ≠ some c)
    (hquery : ∀ query, c = .rblDns a query → query < s.queries) (hr : Resolver.Inv r)
    (hnext : r.fresh = if (assignDnsId s.resolver).2 = 0 then s.resolver.fresh
      else s.resolver.fresh + 1)
    (hwaiting : ∀ n q, r.Waiting n q → s.resolver.Waiting n q ∨ q = s.resolver.fresh ∧
      n = (assignDnsId s.resolver).2)
    (hfits : ∀ auth, s.auths a = some auth → Fits r (nextCallback s c) (some (a, stage')) a auth)
    (hunasked : stage'.early = true → c ≠ .authDns a)
    (hfresh : ∀ query hostbuf left, stage' ≠ .rblLookup query hostbuf left) :
    Inv { s with starting := some (a, stage'), callbacks := nextCallback s c, resolver := r } := by
  have hle : s.resolver.fresh ≤ r.fresh := by
    rw [hnext]
    split_ifs <;> omega
  have hlive := h.held a (.of_starting hstage)
  have hold : ∀ {n q} c', c'.client ≠ a → r.Waiting n q → nextCallback s c q = some c' →
      s.resolver.Waiting n q ∧ s.callbacks q = some c' := by
    intro n q c' hne hwait hc
    obtain hc | ⟨-, -, rfl⟩ := nextCallback_cases hc
    · exact ⟨(hwaiting n q hwait).resolve_right fun heq => (h.callbacks_lt q c' hc).1.ne heq.1, hc⟩
    · exact absurd hclient hne
  refine { h with
    resolver := hr
    callbacks_lt := fun q c' hc => ?_
    callbacks_inj := fun q q' c' hc hc' => ?_
    queries_lt := fun q b query hc => ?_
    fits := fun b auth hb => ?_
    gone := fun nid q c' hwait hc => ?_
    unasked := fun b st hb hst q hc => ?_
    fresh := fun b query hostbuf left hb => absurd (Prod.mk.inj (some.inj hb)).2
      (hfresh query hostbuf left)
    held := fun b hb => ?_
    idle := fun hsweeping => absurd (h.idle hsweeping) (by simp [hstage]) }
  · obtain hc | ⟨hzero, rfl, rfl⟩ := nextCallback_cases hc
    · exact ⟨(h.callbacks_lt q c' hc).1.trans_le hle, (h.callbacks_lt q c' hc).2⟩
    · rw [hnext, if_neg hzero, hclient]
      exact ⟨Nat.lt_succ_self _, (h.live a hlive).1⟩
  · obtain hold | ⟨-, hq, heq⟩ := nextCallback_cases hc
    · obtain hold' | ⟨-, -, heq⟩ := nextCallback_cases hc'
      · exact h.callbacks_inj q q' c' hold hold'
      · exact absurd (heq ▸ hold) (hnew q)
    · obtain hold' | ⟨-, hq', -⟩ := nextCallback_cases hc'
      · exact absurd (heq ▸ hold') (hnew q')
      · rw [hq, hq']
  · obtain hc | ⟨-, -, rfl⟩ := nextCallback_cases hc
    · exact h.queries_lt q b query hc
    · exact hquery query (by rw [← hclient]; rfl)
  · by_cases hba : b = a
    · subst hba
      exact hfits auth hb
    · have hfitsb := h.fits b auth hb
      rw [hstage] at hfitsb
      have hother : Fits _ s.callbacks (some (a, stage')) b auth := hfitsb.other hba same_client
      refine ⟨fun nid q hwait hc => ?_, fun nid q query hwait hc => ?_, fun nid q query hwait hc =>
        ?_, hother.early, hother.asked⟩
      · obtain ⟨hwait, hc⟩ := hold (.authDns b) hba hwait hc
        exact hother.dns nid q hwait hc
      · obtain ⟨hwait, hc⟩ := hold (.rblDns b query) hba hwait hc
        exact hother.rbl nid q query hwait hc
      · obtain ⟨hwait, hc⟩ := hold (.rblDns b query) hba hwait hc
        exact hother.rblFlag nid q query hwait hc
  · by_cases hba : c'.client = a
    · rw [hba]
      exact hlive
    · obtain ⟨hwait, hc⟩ := hold c' hba hwait hc
      exact h.gone nid q c' hwait hc
  · obtain rfl := same_client b st hb
    obtain rfl := (Prod.mk.inj (some.inj hb)).2
    obtain hc | ⟨-, -, heq⟩ := nextCallback_cases hc
    · exact h.unasked b stage hstage hearly q hc
    · exact hunasked hst heq.symm
  · obtain ⟨st, hb⟩ | hb := hb
    · rw [same_client b st hb]
      exact hlive
    · exact h.held b (.inr hb)

/-- **A lookup of `start_auth`.** When it fails at once, it does not end the last of the checks. -/
theorem Inv.lookup (h : Inv s) (hstage : s.starting = some (a, stage)) (hearly : stage.early = true)
    (hclient : c.client = a) (hnew : ∀ q, s.callbacks q ≠ some c)
    (hquery : ∀ query, c = .rblDns a query → query < s.queries)
    (hfits : ∀ r : Resolver.State,
        (∀ n q, r.Waiting n q → s.resolver.Waiting n q ∨ q = s.resolver.fresh ∧
          n = (assignDnsId s.resolver).2) → ∀ auth, s.auths a = some auth →
      Fits r (nextCallback s c) (some (a, stage')) a auth)
    (hunasked : stage'.early = true → c ≠ .authDns a)
    (hfresh : ∀ query hostbuf left, stage' ≠ .rblLookup query hostbuf left)
    (hlast : s.resolver.dnsHelper = false → (assignDnsId s.resolver).2 ≠ 0 → ∀ auth,
      s.auths a = some auth → ¬LastCheck auth c) (type : Char) (family : Family) (name : Str) :
    Inv ({ s with starting := some (a, stage') }.lookup type family name c) := by
  have hinv := h.resolver.lookup type family name
  have hnext := fresh_lookup s.resolver type family name
  change Inv ({ s with starting := some (a, stage'), callbacks := nextCallback s c }.follow
    (Resolver.lookup s.resolver type family name))
  obtain ⟨new, hquiet, hlog, hwaiting⟩ | ⟨hhelper, hzero, hlog, hwaiting⟩ :=
    lookup_effect type family name
  · rw [follow_quiet (s := { s with starting := some (a, stage'), callbacks := nextCallback s c })
      hquiet hlog]
    exact h.asks hstage hearly hclient hnew hquery hinv hnext hwaiting (hfits _ hwaiting) hunasked
      hfresh
  · have hwaiting' := fun n q (hwait : State.Waiting _ n q) =>
      (.inl (hwaiting n q hwait) : _ ∨ q = s.resolver.fresh ∧ n = (assignDnsId s.resolver).2)
    have hasked := h.asks hstage hearly hclient hnew hquery hinv hnext hwaiting' (hfits _ hwaiting')
      hunasked hfresh
    have hcallback : nextCallback s c s.resolver.fresh = some c := by
      rw [nextCallback, if_neg hzero, update_self]
    rw [follow_called (s := { s with starting := some (a, stage'), callbacks := nextCallback s c })
      (by simp [Event.Quiet]) hlog]
    refine hasked.callback (fun c' hc => ?_) (fun nid hwait => ?_) (fun c' hc auth hauth => ?_) _ _
      _
    · cases hcallback.symm.trans hc
      rw [hclient]
      exact h.held a (.of_starting hstage)
    · exact lt_irrefl _ (h.resolver.waiting_lt (hwaiting nid _ hwait))
    · cases hcallback.symm.trans hc
      rw [hclient] at hauth
      exact fun hends => absurd hends (hlast hhelper hzero auth hauth)

/-- **The lookup for a list of banned addresses.** -/
theorem Inv.rblLookup (h : Inv s) {query : ℕ} {hostbuf : Str}
    (hstage : s.starting = some (a, .rblLookup query hostbuf left)) :
    Inv ({ s with starting := some (a, .rblReturn query (assignDnsId s.resolver).2 left) }.lookup
      'H' .inet hostbuf (.rblDns a query)) := by
  obtain ⟨hlt, hnew⟩ := h.fresh a query hostbuf left hstage
  refine h.lookup hstage rfl rfl hnew (fun query' heq => (Callback.rblDns.inj heq).2 ▸ hlt)
    (fun r hwaiting auth hauth => ?_) (by simp) (by simp) (fun _ _ auth hauth hlast => ?_) _ _ _
  · have hfits := h.fits a auth hauth
    have hold : ∀ {n q c}, r.Waiting n q → s.callbacks q = some c →
        s.resolver.Waiting n q := fun hwait hc =>
      (hwaiting _ _ hwait).resolve_right fun heq => (h.callbacks_lt _ _ hc).1.ne heq.1
    refine ⟨fun nid q hwait hc => ?_, fun nid q query' hwait hc => ?_, fun nid q query' hwait hc =>
      ?_, fun _ _ _ => hfits.early _ hstage rfl, by simp⟩
    · obtain hc | ⟨-, -, heq⟩ := nextCallback_cases hc
      · exact absurd hc (h.unasked a _ hstage rfl q)
      · cases heq
    · obtain hcq | ⟨-, rfl, heq⟩ := nextCallback_cases hc
      · obtain ⟨-, t, ht, hquery, hnumber⟩ := h.fits_written hstage hauth (by simp) (hold hwait hcq)
          hcq
        refine ⟨t, ht, hquery, ?_⟩
        rw [rblNumber_returning, if_neg, hnumber]
        exact fun heq => hnew q (by rw [hcq, ← hquery, ← heq])
      · obtain ⟨t, ht, hquery⟩ := hfits.asked query hostbuf left hstage
        obtain ⟨-, rfl⟩ := Callback.rblDns.inj heq
        refine ⟨t, ht, hquery, ?_⟩
        rw [rblNumber_returning, if_pos hquery.symm]
        refine ((hwaiting _ _ hwait).resolve_left fun hwait => ?_).2.symm
        exact lt_irrefl _ (h.resolver.waiting_lt hwait)
    · obtain hc | ⟨-, rfl, heq⟩ := nextCallback_cases hc
      · exact .inl (h.fits_written hstage hauth (by simp) (hold hwait hc) hc).1
      · obtain ⟨-, rfl⟩ := Callback.rblDns.inj heq
        exact .inr ⟨_, left, rfl⟩
  · exact absurd hlast.1 (by simp [(h.fits a auth hauth).early _ hstage rfl])

/-- **The lookup of the address.** -/
theorem Inv.dnsLookup (h : Inv s) (hstage : s.starting = some (a, .dnsLookup))
    (hmeets : StageMeets s a .dnsLookup) (family : Family) (sockhost : Str) :
    Inv ({ s with starting := some (a, .dnsReturn (assignDnsId s.resolver).2) }.lookup 'I' family
      sockhost (.authDns a)) := by
  have hnew := h.unasked a _ hstage rfl
  refine h.lookup hstage rfl rfl hnew (by simp) (fun r hwaiting auth hauth => ?_)
    (by simp [Stage.early]) (by simp) hmeets _ _ _
  have hfits := h.fits a auth hauth
  have hold : ∀ {n q c}, r.Waiting n q → s.callbacks q = some c →
      s.resolver.Waiting n q := fun hwait hc =>
    (hwaiting _ _ hwait).resolve_right fun heq => (h.callbacks_lt _ _ hc).1.ne heq.1
  refine ⟨fun nid q hwait hc => ⟨hfits.early _ hstage rfl, ?_⟩, fun nid q query hwait hc => ?_,
    fun nid q query hwait hc => .inl ?_, fun st hst hearly => ?_, by simp⟩
  · obtain hc | ⟨-, rfl, -⟩ := nextCallback_cases hc
    · exact absurd hc (hnew q)
    · rw [dnsNumber_returning]
      refine ((hwaiting _ _ hwait).resolve_left fun hwait => ?_).2.symm
      exact lt_irrefl _ (h.resolver.waiting_lt hwait)
  · obtain hc | ⟨-, -, heq⟩ := nextCallback_cases hc
    · exact (h.fits_written hstage hauth (by simp) (hold hwait hc) hc).2
    · cases heq
  · obtain hc | ⟨-, -, heq⟩ := nextCallback_cases hc
    · exact (h.fits_written hstage hauth (by simp) (hold hwait hc) hc).1
    · cases heq
  · obtain rfl := (Prod.mk.inj (some.inj hst)).2
    exact absurd hearly (by simp [Stage.early])

end Starting

/-! ### The other steps -/

section Steps

variable {s s' : State} {a : ℕ} {auth : AuthRequest}

theorem not_held_of_idle (hidle : s.busy = false) : ¬Held s a := by
  obtain ⟨hstarting, hsweeping⟩ : s.starting = none ∧ s.sweeping = none := by
    simpa [State.busy] using hidle
  rintro (⟨stage, heq⟩ | ⟨now, heq⟩)
  · cases hstarting.symm.trans heq
  · cases hsweeping.symm.trans heq

theorem connected_spec (h : s.connected a = true) : ∃ auth, s.auths a = some auth := by
  rw [State.connected] at h
  cases hauth : s.auths a with
  | none => exact absurd (hauth ▸ h) (by simp)
  | some auth => exact ⟨auth, rfl⟩

/-- **A request is made.** -/
theorem Inv.startAuth (h : Inv s) (hidle : s.busy = false) (client : Client) (rblLists : List Rbl)
    (timeout : ℕ) :
    Inv (startAuth s client rblLists timeout) := by
  obtain ⟨hstarting, hsweeping⟩ : s.starting = none ∧ s.sweeping = none := by
    simpa [State.busy] using hidle
  have hnew : s.auths s.clients.length = none := by
    by_contra hlive
    exact lt_irrefl _ (h.live _ hlive).1
  have hcallbacks : ∀ q c, s.callbacks q = some c → c.client ≠ s.clients.length := fun q c hc =>
    (h.callbacks_lt q c hc).2.ne
  have hmade : ∀ (auth : AuthRequest) stage outputs, auth.dns = true → stage.early = true →
      (∀ query hostbuf left, stage ≠ .rblLookup query hostbuf left) →
      Inv { ({ s with
          clients := s.clients ++ [client]
          authPollList := s.clients.length :: s.authPollList }.output outputs).set s.clients.length
            auth with
        starting := some (s.clients.length, stage) } := by
    intro auth stage outputs hdns hearly hstage
    have hne : ∀ {b}, s.auths b ≠ none → b ≠ s.clients.length := fun hb heq => hb (heq ▸ hnew)
    have hlength : (s.clients ++ [client]).length = s.clients.length + 1 := by simp
    have hiff : ∀ b, (s.set s.clients.length auth).auths b ≠ none ↔ b = s.clients.length ∨
        s.auths b ≠ none := by
      intro b
      by_cases hb : b = s.clients.length
      · simp [hb]
      · simp [hb]
    refine { h with
      callbacks_lt := fun q c hc => ?_
      fits := fun b auth' hb => ?_
      gone := fun nid q c hwait hc => (hiff _).mpr (.inr (h.gone nid q c hwait hc))
      unasked := fun b st hst _ q hc => ?_
      fresh := fun b query hostbuf left hst => ?_
      held := fun b hb => (hiff b).mpr ?_
      idle := fun hsw => absurd hsweeping hsw
      poll := fun b => ?_
      nodup := nodup_cons.mpr ⟨fun hmem => (h.poll _).mp hmem hnew, h.nodup⟩
      live := fun b hb => ?_
      ended := fun b hlt hb => ?_
      log_lt := fun e he => ?_
      pending := fun b auth' hb => ?_ }
    · exact ⟨(h.callbacks_lt q c hc).1, hlength ▸ Nat.lt_succ_of_lt (h.callbacks_lt q c hc).2⟩
    · by_cases hba : b = s.clients.length
      · subst hba
        cases set_auths_self.symm.trans hb
        exact ⟨fun nid q hwait hc => absurd rfl (hcallbacks q _ hc), fun nid q query hwait hc =>
          absurd rfl (hcallbacks q _ hc), fun nid q query hwait hc => absurd rfl
            (hcallbacks q _ hc), fun _ _ _ => hdns,
          fun query hostbuf left hst => absurd (Prod.mk.inj (some.inj hst)).2 (hstage query hostbuf
            left)⟩
      · have hfits := h.fits b auth' ((set_auths_of_ne hba).symm.trans hb)
        rw [hstarting] at hfits
        refine ⟨fun nid q hwait hc => ?_, fun nid q query hwait hc => ?_,
          fun nid q query hwait hc => ?_,
          fun st hst => absurd (same_client b st hst) hba, fun query hostbuf left hst => absurd
            (same_client b _ hst) hba⟩
        · rw [dnsNumber_of_ne fun nid hst => hba (same_client b _ hst)]
          exact hfits.dns nid q hwait hc
        · obtain ⟨t, ht, hquery, hnumber⟩ := hfits.rbl nid q query hwait hc
          refine ⟨t, ht, hquery, ?_⟩
          rw [rblNumber_of_ne fun ⟨_, _, hst⟩ => hba (same_client b _ hst)]
          exact hnumber
        · exact .inl ((hfits.rblFlag nid q query hwait hc).resolve_right (by simp [Returning]))
    · obtain rfl := same_client b st hst
      exact hcallbacks q _ hc rfl
    · exact absurd (Prod.mk.inj (some.inj hst)).2 (hstage query hostbuf left)
    · obtain ⟨st, hst⟩ | ⟨now, hsw⟩ := hb
      · exact .inl (same_client b st hst)
      · cases hsweeping.symm.trans hsw
    · exact mem_cons.trans ((or_congr_right (h.poll b)).trans (hiff b).symm)
    · obtain rfl | hb := (hiff b).mp hb
      · refine ⟨hlength ▸ Nat.lt_succ_self _, fun e he heq => ?_⟩
        exact absurd (h.log_lt e he) (by rw [heq]; exact lt_irrefl _)
      · exact ⟨hlength ▸ Nat.lt_succ_of_lt (h.live b hb).1, (h.live b hb).2⟩
    · have hb' : ¬(b = s.clients.length ∨ s.auths b ≠ none) := fun hor => (hiff b).mpr hor hb
      rw [not_or, not_not] at hb'
      refine h.ended b ?_ hb'.2
      have := hb'.1
      have hlt : b < (s.clients ++ [client]).length := hlt
      omega
    · exact hlength ▸ Nat.lt_succ_of_lt (h.log_lt e he)
    · by_cases hba : b = s.clients.length
      · subst hba
        rw [← some.inj (set_auths_self.symm.trans hb)]
        simp [AuthRequest.pending, hdns]
      · exact h.pending b auth' ((set_auths_of_ne hba).symm.trans hb)
  rw [Auth.startAuth]
  dsimp only
  split_ifs
  · exact hmade _ _ _ rfl rfl (by simp)
  · exact hmade _ _ _ rfl rfl (by simp)

/-- **`rbl_cancel_lookups`.** -/
theorem rblCancelLookups_spec (queries : List RblQuery) {r : Resolver.State} (hr : Resolver.Inv r) :
    Resolver.Inv (rblCancelLookups queries r) ∧ (rblCancelLookups queries r).fresh = r.fresh ∧
      ∀ n q, (rblCancelLookups queries r).Waiting n q → r.Waiting n q ∧ ∀ t ∈ queries,
      t.queryid ≠ n := by
  induction queries generalizing r with
  | nil => exact ⟨hr, rfl, fun n q hwait => ⟨hwait, by simp⟩⟩
  | cons t queries ih =>
    obtain ⟨hinv, hfresh, hwaiting⟩ := ih (hr.cancelLookup t.queryid)
    refine ⟨hinv, hfresh.trans (fresh_cancelLookup ..), fun n q hwait => ?_⟩
    obtain ⟨hwait, hqueries⟩ := hwaiting n q hwait
    obtain ⟨hne, hwait⟩ := waiting_cancelLookup.mp hwait
    exact ⟨hwait, forall_mem_cons.mpr ⟨hne.symm, hqueries⟩⟩

/-- The resolver, when the query for the address is cancelled, if a condition holds, and the queries
to the lists of banned addresses, if their flag is set. -/
def cancelQueries (r : Resolver.State) (auth : AuthRequest) (dns : Prop) [Decidable dns] :
    Resolver.State :=
  let r := if dns then Resolver.cancelLookup r auth.dnsQuery else r
  if auth.rbl then rblCancelLookups auth.rblQueries r else r

/-- **The queries of a request are cancelled**: none of them waits. -/
theorem Inv.withoutQueries (h : Inv s) (hauth : s.auths a = some auth)
    (hidle : ∀ stage, s.starting ≠ some (a, stage)) {dns : Prop} [Decidable dns]
    (hdns : auth.dns = true → auth.dnsQuery ≠ 0 → dns) :
    Inv { s with resolver := cancelQueries s.resolver auth dns } ∧
      ∀ nid q c, (cancelQueries s.resolver auth dns).Waiting nid q → s.callbacks q = some c →
      c.client ≠ a := by
  have hfits := h.fits a auth hauth
  obtain ⟨r, hr⟩ : ∃ r, r = if dns then Resolver.cancelLookup s.resolver auth.dnsQuery
    else s.resolver := ⟨_, rfl⟩
  have hfirst : Resolver.Inv r ∧ r.fresh = s.resolver.fresh ∧
      ∀ n q, r.Waiting n q → s.resolver.Waiting n q ∧ (dns → n ≠ auth.dnsQuery) := by
    rw [hr]
    split_ifs with hc
    · refine ⟨h.resolver.cancelLookup _, fresh_cancelLookup .., fun n q hwait => ?_⟩
      obtain ⟨hne, hwait⟩ := waiting_cancelLookup.mp hwait
      exact ⟨hwait, fun _ => hne⟩
    · exact ⟨h.resolver, rfl, fun n q hwait => ⟨hwait, fun hdns => absurd hdns hc⟩⟩
  have hsecond : Resolver.Inv (cancelQueries s.resolver auth dns) ∧
      (cancelQueries s.resolver auth dns).fresh = s.resolver.fresh ∧
      ∀ n q, (cancelQueries s.resolver auth dns).Waiting n q → s.resolver.Waiting n q ∧
        (dns → n ≠ auth.dnsQuery) ∧ (auth.rbl = true → ∀ t ∈ auth.rblQueries, t.queryid ≠ n) := by
    obtain ⟨hinv, hfresh, hwaiting⟩ := hfirst
    rw [cancelQueries, ← hr]
    split_ifs with hrbl
    · obtain ⟨hinv', hfresh', hwaiting'⟩ := rblCancelLookups_spec auth.rblQueries hinv
      refine ⟨hinv', hfresh'.trans hfresh, fun n q hwait => ?_⟩
      obtain ⟨hwait, hqueries⟩ := hwaiting' n q hwait
      exact ⟨(hwaiting n q hwait).1, (hwaiting n q hwait).2, fun _ => hqueries⟩
    · exact ⟨hinv, hfresh, fun n q hwait => ⟨(hwaiting n q hwait).1, (hwaiting n q hwait).2,
        fun hset => absurd hset hrbl⟩⟩
  obtain ⟨hinv, hfresh, hwaiting⟩ := hsecond
  refine ⟨h.resolved hinv hfresh.ge fun n q hwait => .inl (hwaiting n q hwait).1, ?_⟩
  rintro nid q (b | ⟨b, query⟩) hwait hc hclient
  · obtain rfl : b = a := hclient
    obtain ⟨hwait, hne, -⟩ := hwaiting nid q hwait
    obtain ⟨hset, hnumber⟩ := hfits.dns nid q hwait hc
    rw [dnsNumber_of_ne fun nid => hidle _] at hnumber
    refine hne (hdns hset fun hzero => ?_) hnumber.symm
    rw [← hnumber, hzero] at hwait
    cases h.resolver.zero.symm.trans hwait.1
  · obtain rfl : b = a := hclient
    obtain ⟨hwait, -, hne⟩ := hwaiting nid q hwait
    have hret : ∀ query, ¬Returning s.starting b query := fun query ⟨_, _, heq⟩ => hidle _ heq
    obtain ⟨t, ht, -, hnumber⟩ := hfits.rbl nid q query hwait hc
    rw [rblNumber_of_ne (hret _)] at hnumber
    exact hne ((hfits.rblFlag nid q query hwait hc).resolve_right (hret query)) t ht hnumber

/-- **A client exits**, whose request is not held. -/
theorem Inv.exitClient (h : Inv s) (hlt : a < s.clients.length) (hheld : ¬Held s a) :
    Inv (exitClient s a) := by
  rw [Auth.exitClient, deleteAuthQueries]
  cases hauth : s.auths a with
  | none =>
    refine { h with
      live := fun b hb => ⟨(h.live b hb).1, fun e he heq => ?_⟩
      ended := fun b hb hnone => ?_
      log_lt := fun e he => ?_
      safe := h.safe }
    · obtain rfl | he := mem_cons.mp he
      · exact absurd (heq ▸ hauth) hb
      · exact (h.live b hb).2 e he heq
    · obtain ⟨hfreed, hover⟩ := h.ended b hb hnone
      exact ⟨mem_cons_of_mem _ hfreed, hover.imp (mem_cons_of_mem _) (mem_cons_of_mem _)⟩
    · obtain rfl | he := mem_cons.mp he
      · exact hlt
      · exact h.log_lt e he
  | some auth =>
    have hdns : auth.dns = true → auth.dnsQuery ≠ 0 → auth.dns = true ∧ 0 < auth.dnsQuery :=
      fun hset hne => ⟨hset, Nat.pos_of_ne_zero hne⟩
    obtain ⟨hinv, hnone⟩ := h.withoutQueries hauth (fun stage hstage => hheld (.of_starting hstage))
      hdns
    have hlive : s.auths a ≠ none := by simp [hauth]
    refine ⟨(hinv.touch hlive).toCore.free hlive hheld hnone (.inr rfl), fun b auth' hb => ?_⟩
    by_cases hba : b = a
    · subst hba
      cases free_auths_self.symm.trans hb
    · exact h.pending b auth' ((free_auths_of_ne hba).symm.trans hb)

/-- The event goes on to another request. -/
theorem Inv.sweeps (h : Inv s) (hidle : s.starting = none) {sweeping : Option (ℕ × Option ℕ)}
    (hnext : ∀ now b, sweeping = some (now, some b) → s.auths b ≠ none) :
    Inv { s with sweeping := sweeping } where
  __ := h
  held b hb := by
    obtain hb | ⟨now, hb⟩ := hb
    · exact h.held b (.inl hb)
    · exact hnext now b hb
  idle _ := hidle

/-- The item behind one of a list is another item of it. -/
theorem mem_of_behind {l : List ℕ} (hnd : l.Nodup) {b : ℕ} (ha : a ∈ l)
    (hb : (behind l a).head? = some b) :
    b ∈ l ∧ b ≠ a := by
  obtain ⟨p, q, rfl⟩ := append_of_mem ha
  rw [behind_eq hnd] at hb
  have hmem := mem_of_mem_head? hb
  refine ⟨by simp [hmem], ?_⟩
  rintro rfl
  exact (nodup_cons.mp (nodup_append.mp hnd).2.1).1 hmem

/-- **A request whose time may be over.** -/
theorem Inv.timeoutAuthQueries (h : Inv s) {now : ℕ} (hsweeping : s.sweeping = some (now, some a)) :
    Inv (timeoutAuthQueries s now a) := by
  have hidle := h.idle (by simp [hsweeping])
  have hlive := h.held a (.inr ⟨now, hsweeping⟩)
  obtain ⟨auth, hauth⟩ := ne_none_iff_exists'.mp hlive
  have hbehind := fun b => mem_of_behind (b := b) h.nodup ((h.poll a).mpr hlive)
  have hnext : Inv { s with sweeping := some (now, (behind s.authPollList a).head?) } := h.sweeps
      hidle fun now' b heq =>
    (h.poll b).mp (hbehind b (Prod.mk.inj (some.inj heq)).2).1
  have htouch := hnext.touch hlive
  rw [Auth.timeoutAuthQueries, State.withAuth, show State.auths { s with sweeping := _ } a = some
    auth from hauth]
  dsimp only
  by_cases hover : auth.timeout < now
  · rw [if_pos hover]
    obtain ⟨hinv, hnone⟩ := htouch.withoutQueries (a := a) hauth
      (fun stage heq => absurd (hidle.symm.trans heq) (by simp)) fun hset _ => hset
    refine (hinv.output (timeoutOutputs a auth)).setRelease hauth
      ⟨fun nid q hwait hc => absurd rfl (hnone nid q _ hwait hc), fun nid q query hwait hc => absurd
        rfl (hnone nid q _ hwait hc),
        fun nid q query hwait hc => absurd rfl (hnone nid q _ hwait hc), fun st heq => absurd
          (hidle.symm.trans heq) (by simp),
        fun query hostbuf left heq => absurd (hidle.symm.trans heq) (by simp)⟩ fun _ hheld => ?_
    obtain ⟨stage, heq⟩ | ⟨now', heq⟩ := hheld
    · cases hidle.symm.trans heq
    · exact (hbehind a (Prod.mk.inj (some.inj heq)).2).2 rfl
  · rw [if_neg hover]
    exact htouch

/-- **A step that meets the condition keeps the invariant.** -/
theorem Inv.step {op : Op} (h : Inv s) (hmeets : Meets s op) (hs' : step s op = some s') :
    Inv s' := by
  cases op with
  | startAuth client rblLists timeout =>
    rw [Auth.step] at hs'
    split_ifs at hs' with hbusy
    cases hs'
    exact h.startAuth (Bool.not_eq_true _ ▸ hbusy) client rblLists timeout
  | startAuthNext ident =>
    obtain ⟨⟨a, stage⟩, hstage, rfl⟩ := map_eq_some_iff.mp hs'
    have hmeets := hmeets a stage hstage
    match stage with
    | .rbls [] => exact h.rblChecked hstage
    | .rbls (t :: left) => exact h.rblAttach hstage _
    | .rblLookup query hostbuf left => exact h.rblLookup hstage
    | .rblReturn query nid left => exact h.rblReturn hstage hmeets
    | .ident => exact h.startAuthQuery hstage ident
    | .dnsLookup => exact h.dnsLookup hstage hmeets _ _
    | .dnsReturn nid => exact h.dnsReturn hstage
  | authError a =>
    rw [Auth.step] at hs'
    split_ifs at hs' with hguard
    cases hs'
    rw [not_or, not_not, Bool.not_eq_true] at hguard
    obtain ⟨auth, hauth⟩ := connected_spec hguard.2
    rw [Auth.authError, State.withAuth, hauth]
    exact h.identOver hauth (fun hheld => absurd hheld (not_held_of_idle hguard.1)) _
  | readAuth a buf =>
    rw [Auth.step] at hs'
    split_ifs at hs' with hguard
    cases hs'
    rw [not_or, not_not, Bool.not_eq_true] at hguard
    obtain ⟨auth, hauth⟩ := connected_spec hguard.2
    rw [Auth.readAuth, State.withAuth, hauth]
    exact h.identOver hauth (fun hheld => absurd hheld (not_held_of_idle hguard.1)) _
  | timeout now =>
    rw [Auth.step] at hs'
    split_ifs at hs' with hbusy
    cases hs'
    have hidle : s.starting = none ∧ s.sweeping = none := by simpa [State.busy] using hbusy
    refine h.sweeps hidle.1 fun now' b heq => (h.poll b).mp ?_
    exact mem_of_mem_head? (Prod.mk.inj (some.inj heq)).2
  | timeoutNext =>
    obtain ⟨⟨now, next⟩, hsweeping, rfl⟩ := map_eq_some_iff.mp hs'
    cases next with
    | none => exact h.sweeps (h.idle (by simp [hsweeping])) (by simp)
    | some a => exact h.timeoutAuthQueries hsweeping
  | exit a =>
    rw [Auth.step] at hs'
    split_ifs at hs' with hguard
    cases hs'
    exact h.exitClient hguard.1 hmeets
  | resolver op =>
    obtain ⟨r, hr, rfl⟩ := map_eq_some_iff.mp hs'
    exact h.resolverStep hmeets hr

/-- Under the invariant, what happened was safe, and what every client has come to is known. -/
theorem Inv.settled (h : Inv s) : Safe s.log ∧ ∀ a < s.clients.length, Settled s a := by
  refine ⟨h.safe, fun a ha => ?_⟩
  cases hauth : s.auths a with
  | none => exact .inr ⟨hauth, h.ended a ha hauth⟩
  | some auth =>
    have hlive : s.auths a ≠ none := by simp [hauth]
    exact .inl ⟨auth, hauth, h.pending a auth hauth, (h.poll a).mpr hlive, (h.live a hlive).2⟩

end Steps

theorem inv_start (dnsHelper : Bool) : Inv (State.start dnsHelper) where
  resolver := Resolver.inv_start dnsHelper
  callbacks_lt := by simp [State.start]
  callbacks_inj := by simp [State.start]
  queries_lt := by simp [State.start]
  fits := by simp [State.start]
  gone := by simp [State.start]
  unasked := by simp [State.start]
  fresh := by simp [State.start]
  held := by simp [State.start, Held]
  idle := by simp [State.start]
  poll := by simp [State.start]
  nodup := nodup_nil
  live := by simp [State.start]
  ended := by simp [State.start]
  log_lt := by simp [State.start]
  safe := trivial
  pending := by simp [State.start]

theorem callback_authDns {q : ℕ} (hc : s.callbacks q = some (.authDns a)) (results : Str)
    (status : ℤ) (aftype : Option Family) :
    callback s (.ran q results status aftype) = authDnsCallback s a results status := by
  rw [callback, hc]

/-- The answer that ends the last check frees the request. -/
theorem authDnsCallback_of_last {auth : AuthRequest} (hauth : s.auths a = some auth)
    (hlast : LastCheck auth (.authDns a)) (res : Str) (status : ℤ) :
    (authDnsCallback s a res status).starting = s.starting ∧
      (authDnsCallback s a res status).auths a = none ∧
      .freed a ∈ (authDnsCallback s a res status).log := by
  rw [authDnsCallback, State.withAuth, hauth]
  dsimp only
  rw [releaseAuthClient, State.withAuth, set_auths_self]
  dsimp only
  rw [if_neg (by simp [AuthRequest.pending, hlast.1, hlast.2])]
  exact ⟨rfl, free_auths_self, mem_cons_of_mem _ mem_cons_self⟩

/-- **A lookup of the address that fails at once as the last check** frees the request, and
`start_auth` then writes it. -/
theorem not_safe_of_dnsLookup {s' s'' : State} {ident ident' : IdentStart}
    (hstage : s.starting = some (a, .dnsLookup)) (hmeets : ¬StageMeets s a .dnsLookup)
    (hs' : step s (.startAuthNext ident) = some s')
    (hs'' : step s' (.startAuthNext ident') = some s'') : ¬Safe s''.log := by
  rw [StageMeets] at hmeets
  push Not at hmeets
  obtain ⟨hhelper, hzero, auth, hauth, hident, hrbl⟩ := hmeets
  have hcallback : nextCallback s (.authDns a) s.resolver.fresh = some (.authDns a) := by
    rw [nextCallback, if_neg hzero, update_self]
  have hfreed : s'.starting = some (a, .dnsReturn (assignDnsId s.resolver).2) ∧ s'.auths a = none ∧
      .freed a ∈ s'.log := by
    rw [step, hstage] at hs'
    cases hs'
    have hquiet : ∀ e ∈ [Resolver.Event.assigned s.resolver.fresh (assignDnsId s.resolver).2],
        e.Quiet := by
      simp [Event.Quiet]
    have hfollow := follow_called
      (s := { s with
        starting := some (a, .dnsReturn (assignDnsId s.resolver).2)
        callbacks := nextCallback s (.authDns a) })
      hquiet
      (congrArg Resolver.State.log (lookup_of_no_helper hhelper hzero 'I' (s.client a).ip.family
        (s.client a).sockhost))
    replace hfollow := hfollow.trans (callback_authDns hcallback ..)
    refine (congrArg (fun t : State => t.starting = some (a,
      .dnsReturn (assignDnsId s.resolver).2) ∧ t.auths a = none ∧ Event.freed a ∈ t.log)
        hfollow).mpr ?_
    refine authDnsCallback_of_last ?_ ⟨hident, hrbl⟩ ..
    exact hauth
  obtain ⟨hstage', hgone, hfreed⟩ := hfreed
  rw [step, hstage'] at hs''
  cases hs''
  change ¬Safe (s'.withAuth a _).log
  rw [State.withAuth, hgone]
  exact fun hsafe => hsafe.1 hfreed

/-- **The checks of new connections.** In every run whose steps meet the condition, in every state
that is reached, what happened is safe, and every client's request is there with a flag set, or was
freed and the client added or gone. A lookup of the address that does not meet its condition is not
safe once `start_auth` goes on. -/
theorem auth_safe {dnsHelper : Bool} {ops : List Op}
    (hmeets : StepsMeet step Meets (State.start dnsHelper) ops) :
    Always step (fun s => Safe s.log ∧ ∀ a < s.clients.length, Settled s a) (State.start dnsHelper)
      ops ∧ ∀ s a ident ident' s' s'', s.starting = some (a, .dnsLookup) →
        ¬StageMeets s a .dnsLookup →
        step s (.startAuthNext ident) = some s' → step s' (.startAuthNext ident') = some s'' →
        ¬Safe s''.log :=
  ⟨always_of_stepsMeet Inv (fun _ h => h.settled) (fun _ _ _ h hok hs' => h.step hok hs')
    (inv_start dnsHelper) hmeets, fun _ _ _ _ _ _ => not_safe_of_dnsLookup⟩

/-- A client. -/
def aClient : Client := ⟨"1.2.3.4".toList, ⟨.inet, [1, 2, 3, 4]⟩⟩

/-- A list of banned addresses. -/
def aList : Rbl := ⟨['z'], rblFlagIsv4 ||| rblFlagMatchOther, [], []⟩

/-- A connection whose address is found, and whose host does not know the user. -/
def checkedOnce : List Op :=
  [.startAuth aClient [] 30, .startAuthNext .waits, .startAuthNext .dead, .startAuthNext .dead,
    .readAuth 0 none, .resolver (.reply "R 2 1 4 x".toList), .resolver .callbackReturns]

theorem auth_safe_small :
    Always step (fun s => Safe s.log ∧ ∀ a < s.clients.length, Settled s a) (State.start true)
    checkedOnce := by
  suffices hops : StepsMeet step Meets (State.start true) checkedOnce from (auth_safe hops).1
  refine ⟨trivial, ?_⟩
  rintro _ ⟨⟩
  refine ⟨?_, ?_⟩
  · rintro a stage ⟨⟩
    trivial
  rintro _ ⟨⟩
  refine ⟨?_, ?_⟩
  · rintro a stage ⟨⟩
    exact nofun
  rintro _ ⟨⟩
  refine ⟨?_, ?_⟩
  · rintro a stage ⟨⟩
    trivial
  rintro _ ⟨⟩
  refine ⟨trivial, ?_⟩
  rintro _ ⟨⟩
  refine ⟨⟨show ReplyFits _ _ by decide, ?_⟩, ?_⟩
  · intro dnsBuf _ q _ c _ auth _ _
    exact not_held_of_idle rfl
  rintro _ ⟨⟩
  refine ⟨⟨?_, by simp⟩, fun _ _ => trivial⟩
  rintro _ ⟨⟩
  exact .inr rfl

/-- There is no helper, and identification is not asked for: the lookup of the address ends the last
check. -/
def failsAtOnce : List Op :=
  [.startAuth aClient [] 30, .startAuthNext .disabled, .startAuthNext .dead, .startAuthNext .dead]

/-- The first of two lookups for lists of banned addresses fails at once, and the second waits: the
client is added before its answer. -/
def addedBefore : List Op :=
  [.startAuth aClient [aList, aList] 30, .startAuthNext .dead, .startAuthNext .dead,
    .resolver .callbackReturns,
    .startAuthNext .dead, .resolver (.restart true), .startAuthNext .dead, .startAuthNext .dead,
      .startAuthNext .dead,
    .startAuthNext .dead, .startAuthNext .disabled, .startAuthNext .dead, .startAuthNext .dead,
    .resolver (.reply "R 4 1 4 x".toList), .resolver .callbackReturns,
      .resolver (.reply "R 3 1 4 127.0.0.1".toList)]

theorem auth_not_safe : ∃ s s', run step (State.start false) failsAtOnce = some s ∧ ¬Safe s.log ∧
    run step (State.start false) addedBefore = some s' ∧ ¬Safe s'.log := by
  have hrun : (run step (State.start false) failsAtOnce).map (fun s => s.log.take 3) =
      some [.touched 0, .added 0 false, .freed 0] := rfl
  have hrun' : (run step (State.start false) addedBefore).map (fun s => s.log.take 3) =
      some [.touched 0, .added 0 false, .freed 0] := rfl
  have hnot : ∀ {log : List Event}, log.take 3 = [.touched 0, .added 0 false, .freed 0] →
      ¬Safe log := by
    intro log htake hsafe
    rw [← take_append_drop 3 log, htake] at hsafe
    exact hsafe.1 (by simp)
  obtain ⟨s, hs, hlog⟩ := map_eq_some_iff.mp hrun
  obtain ⟨s', hs', hlog'⟩ := map_eq_some_iff.mp hrun'
  exact ⟨s, s', hs, hnot hlog, hs', hnot hlog'⟩

end Ratbox.Auth
