import Mathlib.Data.Finset.Card
import Ratbox.Res.Delivery

/-!
# Each query is answered once

A call returns when there is an id to draw for it, and there is one as long as fewer than 65535
requests are on the list. The request that is made has the id 0 until it gets its own, so 65535
requests with other ids leave none.

Source: `resolver/res.c`, lines 164–200, 275–305, 455–470, 592–636 and 802–913.

## Main definitions

* `Res.Rounds`: the draws have every id, some number of times.
* `Res.Room`: an id is left for a call, and is drawn in time.
* `Res.Delivered`: what holds of the queries.
* `Res.submissions`: the calls that leave no id.

## Main results

* `Res.serve_returns`: a call returns.
* `Res.answered_once`: the runs with room for their calls.
* `Res.submission_hangs`: a run after which a submission does not return.
-/

namespace Ratbox.Res

open Text Address Run List Option

variable (env : Env) (now : ℤ) {s : State} {a id n : ℕ} {r : Reslist} {rand : List UInt16}

/-! ### Ids -/

/-- The ids of the requests. -/
def State.ids (s : State) : Multiset ℕ := s.requests.contents.map (·.id)

theorem findId_isSome_iff : (findId s id).isSome ↔ id ∈ s.ids := by
  rw [findId, find?_isSome, State.ids, Multiset.mem_map]
  constructor
  · rintro ⟨a, ha, hany⟩
    obtain ⟨r, hr, hid⟩ := (any_eq_true _ _).mp hany
    exact ⟨r, Multiset.mem_coe.mpr (mem_filterMap.mpr ⟨a, ha, hr⟩), of_decide_eq_true hid⟩
  · rintro ⟨r, hr, rfl⟩
    obtain ⟨a, ha, hcell⟩ := Arena.exists_cell hr
    exact ⟨a, ha, by rw [hcell, any_some, decide_eq_true rfl]⟩

/-- There is an id that no request has. -/
theorem exists_free (h : s.requests.list.length < 65536) :
    ∃ id : UInt16, findId s id.toNat = none := by
  have hcard : s.ids.toFinset.card < (Finset.range 65536).card := by
    rw [Finset.card_range]
    refine (Multiset.toFinset_card_le _).trans_lt (lt_of_le_of_lt ?_ h)
    rw [State.ids, Multiset.card_map]
    exact length_filterMap_le _ _
  obtain ⟨id, hid, hfree⟩ := Finset.exists_mem_notMem_of_card_lt_card hcard
  refine ⟨UInt16.ofNat id, ?_⟩
  rw [UInt16.toNat_ofNat_of_lt' (Finset.mem_range.mp hid), ← not_isSome_iff_eq_none,
    findId_isSome_iff]
  exact fun hmem => hfree (Multiset.mem_toFinset.mpr hmem)

/-- Every id is drawn, and then again, some number of times. -/
def Rounds : ℕ → List UInt16 → Prop
  | 0, _ => True
  | n + 1, rand => ∃ l₁ l₂, rand = l₁ ++ l₂ ∧ (∀ id, id ∈ l₁) ∧ Rounds n l₂

theorem Rounds.append (h : Rounds n rand) (l : List UInt16) : Rounds n (l ++ rand) := by
  cases n with
  | zero => trivial
  | succ n =>
    obtain ⟨l₁, l₂, rfl, hall, hrest⟩ := h
    exact ⟨l ++ l₁, l₂, (append_assoc l l₁ l₂).symm, fun id => mem_append_right l (hall id), hrest⟩

theorem Rounds.of_succ (h : Rounds (n + 1) rand) : Rounds n rand := by
  obtain ⟨l₁, l₂, rfl, -, hrest⟩ := h
  exact hrest.append l₁

theorem Rounds.mono {m : ℕ} (h : Rounds m rand) (hnm : n ≤ m) : Rounds n rand := by
  induction hnm with
  | refl => exact h
  | step _ ih => exact ih h.of_succ

/-- **An id is drawn** in a round. -/
theorem generateRandomId_returns (hlen : s.requests.list.length < 65536)
    (hrand : Rounds (n + 1) s.rand) :
    ∃ id rand, generateRandomId s = some (id, { s with rand := rand }) ∧ Rounds n rand := by
  obtain ⟨l₁, l₂, heq, hall, hrest⟩ := hrand
  obtain ⟨id, hid⟩ := exists_free hlen
  have hne : l₁.dropWhile (fun id => (findId s id.toNat).isSome) ≠ [] := by
    intro hnil
    have hsome := dropWhile_eq_nil_iff.mp hnil id (hall id)
    rw [hid] at hsome
    exact absurd hsome Bool.false_ne_true
  obtain ⟨x, l, hx⟩ := exists_cons_of_ne_nil hne
  refine ⟨x.toNat, l ++ l₂, ?_, hrest.append l⟩
  rw [generateRandomId, heq, dropWhile_append, hx]
  rfl

theorem queryName_of_id {env : Env} (ha : s.requests.cell a = some r)
    (hquery : env.mkquery r.queryname r.type = true)
      (hid : generateRandomId s = some (id, { s with rand := rand })) : queryName env a s =
      some { s with requests := s.requests.set a { r with id := id, sends := r.sends + 1 }, rand :=
        rand } := by
  have hcell : (State.requests { s with rand := rand }).cell a = some r := ha
  rw [queryName, read_eq ha, if_pos hquery, hid, map_some]
  dsimp only
  rw [write_eq hcell]

/-! ### Calls return -/

/-- A function returns, and leaves some rounds of draws. -/
def Returns (n : ℕ) (f : State → Option State) (s : State) :
    Prop := ∃ s', f s = some s' ∧ Rounds n s'.rand

theorem queryName_returns (ha : s.requests.cell a = some r) (hlen : s.requests.list.length < 65536)
    (hrand : Rounds (n + 1) s.rand) : Returns n (queryName env a) s := by
  by_cases hquery : env.mkquery r.queryname r.type = true
  · obtain ⟨id, rand, hid, hrest⟩ := generateRandomId_returns hlen hrand
    exact ⟨_, queryName_of_id ha hquery hid, hrest⟩
  · exact ⟨s, by rw [queryName, read_eq ha, if_neg hquery], hrand.of_succ⟩

theorem resendQuery_returns (ha : s.requests.cell a = some r) (hname : r.name ≠ none)
    (hlen : s.requests.list.length < 65536) (hrand : Rounds (n + 1) s.rand) :
    Returns n (resendQuery env now a) s := by
  obtain ⟨r', -, heq | heq⟩ := resendQuery_eq (a := a) env now hname
  · obtain ⟨s', hs', hrest⟩ :=
      queryName_returns env (s := { s with requests := s.requests.set a r' }) Arena.cell_set_self
        hlen hrand
    exact ⟨s', (heq s ha).trans hs', hrest⟩
  · exact ⟨s, heq s ha, hrand.of_succ⟩

theorem timeoutRequest_returns (h : Inv s) (ha : s.requests.cell a = some r)
    (hlen : s.requests.list.length < 65536) (hrand : Rounds (n + 1) s.rand) :
    Returns n (timeoutRequest env now a) s := by
  rw [Returns, timeoutRequest, read_eq ha]
  by_cases hdue : r.sentat + r.timeout ≤ now
  · rw [if_pos hdue, write_eq ha]
    dsimp only
    by_cases hretries : r.retries - 1 ≤ 0
    · rw [if_pos hretries, finish_eq Arena.cell_set_self]
      exact ⟨_, rfl, hrand.of_succ⟩
    · rw [if_neg hretries, write_eq Arena.cell_set_self]
      have hname := (h.live r (Arena.mem_contents h.sound ha)).name
      exact resendQuery_returns env now (by exact Arena.cell_set_self) (by exact hname) hlen hrand
  · rw [if_neg hdue]
    exact ⟨s, rfl, hrand.of_succ⟩

theorem timeoutLoop_returns (h : Inv s) {as : List ℕ} (hnodup : as.Nodup)
    (has : ∀ a ∈ as, s.requests.cell a ≠ none) (hlen : s.requests.list.length < 65536)
    (hrand : Rounds as.length s.rand) :
    ∃ s', timeoutLoop env now as s = some s' := by
  induction as generalizing s with
  | nil => exact ⟨s, rfl⟩
  | cons a as ih =>
    obtain ⟨r, ha⟩ := ne_none_iff_exists'.mp (has a mem_cons_self)
    obtain ⟨hnot, hnodup⟩ := nodup_cons.mp hnodup
    obtain ⟨t, ht, hrest⟩ := timeoutRequest_returns env now h ha hlen hrand
    have hout := timeoutRequest_spec h ha ht
    have hcells : ∀ b ∈ as, t.requests.cell b ≠ none := fun b hb => by
      rw [hout.frame b fun hba => hnot (hba ▸ hb)]
      exact has b (mem_cons_of_mem a hb)
    obtain ⟨s', hs'⟩ := ih hout.inv hnodup hcells (hout.length.trans_lt hlen) hrest
    exact ⟨s', by rw [timeoutLoop, ht, bind_some, hs']⟩

/-- A request is made, and a query for it. -/
theorem queryName_add_returns (r₀ r₁ : Reslist) (hlen : s.requests.list.length < 65535)
    (hrand : Rounds 1 s.rand) :
    ∃ s', queryName env s.requests.fresh (s.add r₀ r₁) = some s' := by
  obtain ⟨s', hs', -⟩ := queryName_returns env (s := s.add r₀ r₁) (n := 0) Arena.cell_set_self
    (Nat.succ_lt_succ hlen) hrand
  exact ⟨s', hs'⟩

theorem follow_returns {query type : ℕ} {name : Str} (hlen : s.requests.list.length < 65535)
    (hrand : Rounds 1 s.rand) :
    ∃ s', (doQueryName env now (.new query) name type s).map (remRequest a) = some s' := by
  rw [doQueryName_new]
  obtain ⟨s', hs'⟩ := queryName_add_returns env (.made query now) (.newName query now name type)
    hlen hrand
  exact ⟨remRequest a s', by rw [hs', map_some]⟩

theorem resReadSingleReply_returns (p : Packet) (hlen : s.requests.list.length < 65535)
    (hrand : Rounds 1 s.rand) :
    ∃ s', resReadSingleReply env now p s = some s' := by
  rw [resReadSingleReply]
  split
  · exact ⟨s, rfl⟩
  split
  · exact ⟨s, rfl⟩
  rename_i a hfind
  obtain ⟨r, ha, -⟩ := findId_spec hfind
  rw [read_eq ha]
  split
  · exact ⟨s, rfl⟩
  split
  · exact ⟨s, rfl⟩
  dsimp only
  split
  · exact ⟨_, rfl⟩
  have hcell : (s.note (.credited a r.id p.id)).requests.cell a = some r := ha
  rw [write_eq hcell]
  split
  · split
    · split
      · exact ⟨_, rfl⟩
      · exact follow_returns env now (by exact hlen) (by exact hrand)
    · exact ⟨_, rfl⟩
  · exact ⟨_, rfl⟩

/-- **A call returns** when there is a round of draws for each request, and for one more. -/
theorem serve_returns (h : Inv s) (op : Op) (hlen : s.requests.list.length < 65535)
    (hrand : Rounds (s.requests.list.length + 1) s.rand) : ∃ s', serve env s op = some s' := by
  have hone : Rounds 1 s.rand := by
    obtain ⟨l₁, l₂, heq, hall, -⟩ := hrand
    exact ⟨l₁, l₂, heq, hall, trivial⟩
  cases op with
  | gethostByname name type now =>
    rw [serve, doQueryName_new]
    exact queryName_add_returns env _ _ (by exact hlen) (by exact hone)
  | gethostByaddr addr now =>
    rw [serve, doQueryNumber_new]
    exact queryName_add_returns env _ _ (by exact hlen) (by exact hone)
  | timeout now =>
    exact timeoutLoop_returns env now h h.sound.enumerates.nodup
      (fun a ha => (h.sound.enumerates.mem_iff a).mp ha) (hlen.trans (Nat.lt_succ_self _))
        hrand.of_succ
  | reply p now => exact resReadSingleReply_returns env now p hlen hone

/-! ### Runs -/

/-- Fewer than 65535 requests are on the list, and every id is drawn often enough. -/
def Room (s : State) (call : Op × List UInt16) : Prop :=
  s.requests.list.length < 65535 ∧ Rounds (s.requests.list.length + 1) call.2

/-- The callback of a query that was submitted was called once, or there is one request for it; a
reply is credited to the request with its id; no request is used that is not there; and when a run
goes on with six timeouts of a query, its callback has been called. -/
structure Delivered (s : State) : Prop where
  once : ∀ q, s.called.count q + s.held.count q = if q < s.queries then 1 else 0
  credited : ∀ a i j, Event.credited a i j ∈ s.log → i = j
  fault : ∀ a, Event.fault a ∉ s.log
  timeouts : ∀ q < s.queries, ∀ more s', run (step env) s more = some s' →
    6 ≤ dueTimes env q s more → s'.called.count q = 1

theorem Inv.delivered {env : Env} (h : Inv s) : Delivered env s :=
  ⟨h.count, h.ids, h.fault, fun _ hq _ _ hmore => called_of_dueTimes h hq hmore⟩

/-- **Each query is answered once.** A run in which there is room for every call goes through, and
in every state of it each query that was submitted has had its callback called once, or is held by
one request. -/
theorem answered_once {calls : List (Op × List UInt16)}
    (hcalls : StepsMeet (step env) Room State.start calls) :
    (∃ s, run (step env) State.start calls = some s) ∧ Always (step env)
    (Delivered env) State.start calls := by
  constructor
  · have hstep : ∀ s call, Inv s → Room s call → ∃ s', step env s call = some s' ∧ Inv s' := by
      intro s call h hroom
      obtain ⟨s', hs'⟩ := serve_returns env (h.rand call.2) call.1 hroom.1 hroom.2
      exact ⟨s', hs', (step_spec h hs').inv⟩
    obtain ⟨s, hrun, -⟩ := progress Inv hstep inv_start hcalls
    exact ⟨s, hrun⟩
  · exact fun _ _ _ hrun => (inv_run hrun).delivered

/-- There is room for every call of a run that is not too long. -/
theorem stepsMeet_room {m : ℕ} {calls : List (Op × List UInt16)} (h : Inv s) (hm : m ≤ 65535)
    (hlen : s.queries + calls.length ≤ m) (hrounds : ∀ call ∈ calls, Rounds m call.2) :
    StepsMeet (step env) Room s calls := by
  induction calls generalizing s with
  | nil => trivial
  | cons call calls ih =>
    obtain ⟨hcall, hcalls⟩ := forall_mem_cons.mp hrounds
    rw [length_cons] at hlen
    have hlist := h.length_le
    refine ⟨⟨by omega, hcall.mono (by omega)⟩, fun s' hs' => ?_⟩
    have hstep := step_spec h hs'
    have hqueries := hstep.queries_le
    exact ih hstep.inv (by omega) hcalls

/-- No message is read, and a query is made for any name. -/
def quiet : Env := ⟨[], fun _ _ => true, fun _ _ _ => (-1, []), fun _ _ => -1⟩

/-- Every id in turn, some number of times. -/
def rounds : ℕ → List UInt16
  | 0 => []
  | n + 1 => (range 65536).map UInt16.ofNat ++ rounds n

theorem rounds_rounds (n : ℕ) : Rounds n (rounds n) := by
  induction n with
  | zero => trivial
  | succ n ih =>
    refine ⟨_, _, rfl, fun id => ?_, ih⟩
    exact List.mem_map.mpr ⟨id.toNat, List.mem_range.mpr id.toNat_lt, UInt16.ofNat_toNat⟩

/-- Two queries that get no reply. -/
def givenUp : List (Op × List UInt16) :=
  [(.gethostByname "irc.example".toList tA 0, rounds 5), (.gethostByaddr ⟨.inet, [10, 0, 0, 1]⟩ 2,
    rounds 5), (.timeout 4, rounds 5), (.timeout 12, rounds 5), (.timeout 28, rounds 5)]

theorem answered_once_givenUp : (∃ s, run (step quiet) State.start givenUp = some s) ∧
    Always (step quiet) (Delivered quiet) State.start givenUp := by
  refine answered_once quiet (stepsMeet_room quiet (m := 5) inv_start (by decide) (by decide)
    fun call hcall => ?_)
  simp only [givenUp, mem_cons, not_mem_nil, or_false] at hcall
  rcases hcall with rfl | rfl | rfl | rfl | rfl <;> exact rounds_rounds 5

/-! ### All ids -/

theorem ids_add (h : s.requests.Sound) (r₀ r : Reslist) : (s.add r₀ r).ids = r.id ::ₘ s.ids := by
  rw [State.ids, contents_add h, Multiset.map_cons]
  rfl

section Submitting

variable {env : Env} {r₀ r₁ : Reslist} {id : UInt16}

/-- When the requests have all ids but 0, none is left for another one. -/
theorem queryName_add_none (h : s.requests.Sound) (hfull : ∀ id : UInt16, id ≠ 0 → id.toNat ∈ s.ids)
    (hid : r₁.id = 0) (hquery : env.mkquery r₁.queryname r₁.type = true) :
    queryName env s.requests.fresh (s.add r₀ r₁) = none := by
  have hnil : (s.add r₀ r₁).rand.dropWhile (fun id => (findId (s.add r₀ r₁) id.toNat).isSome) =
      [] := by
    refine dropWhile_eq_nil_iff.mpr fun id _ => ?_
    rw [findId_isSome_iff, ids_add h, hid]
    by_cases hzero : id = 0
    · rw [hzero]
      exact Multiset.mem_cons_self _ _
    · exact Multiset.mem_cons_of_mem (hfull id hzero)
  rw [queryName, read_eq Arena.cell_set_self, if_pos hquery, generateRandomId, hnil]
  rfl

/-- A request gets the id that is drawn for it. -/
theorem queryName_add_some (h : s.requests.Sound) (hfree : id.toNat ∉ s.ids) (hne : id ≠ 0)
    (hrand : s.rand = [id]) (hid : r₁.id = 0) (hquery : env.mkquery r₁.queryname r₁.type = true) :
    ∃ s', queryName env s.requests.fresh (s.add r₀ r₁) = some s' ∧ s'.log = s.log ∧
    s'.ids = id.toNat ::ₘ s.ids := by
  have hdrop : (s.add r₀ r₁).rand.dropWhile (fun id => (findId (s.add r₀ r₁) id.toNat).isSome) =
      [id] := by
    have hadd : (s.add r₀ r₁).rand = [id] := hrand
    rw [hadd, dropWhile_cons_of_neg]
    rw [findId_isSome_iff, ids_add h, hid, Multiset.mem_cons]
    rintro (hzero | hmem)
    · exact hne (UInt16.toNat_inj.mp hzero)
    · exact hfree hmem
  have hgen : generateRandomId (s.add r₀ r₁) = some (id.toNat, { s.add r₀ r₁ with
      rand := [] }) := by
    rw [generateRandomId, hdrop]
  refine ⟨_, queryName_of_id Arena.cell_set_self hquery hgen, rfl, ?_⟩
  rw [State.ids]
  dsimp only [State.add]
  rw [Arena.set_set]
  exact ids_add h r₀ _

end Submitting

/-- Queries with the ids from 1 on. -/
def submissions (n : ℕ) : List (Op × List UInt16) :=
  (range n).map fun i => (.gethostByname ['a'] tA 0, [UInt16.ofNat (i + 1)])

theorem run_submissions {n : ℕ} (hn : n ≤ 65535) : ∃ s, run (step quiet) State.start
    (submissions n) = some s ∧ s.log = [] ∧ ∀ id, id ∈ s.ids ↔ 1 ≤ id ∧ id ≤ n := by
  induction n with
  | zero => exact ⟨State.start, rfl, rfl, fun id => iff_of_false (Multiset.notMem_zero id)
    (by omega)⟩
  | succ n ih =>
    obtain ⟨s, hrun, hlog, hids⟩ := ih (Nat.le_of_succ_le hn)
    have hid : (UInt16.ofNat (n + 1)).toNat = n + 1 :=
      UInt16.toNat_ofNat_of_lt' (Nat.lt_succ_of_le hn)
    have hfree : (UInt16.ofNat (n + 1)).toNat ∉ s.ids := by
      rw [hid, hids]
      omega
    have hne : UInt16.ofNat (n + 1) ≠ 0 := fun h => by
      rw [h] at hid
      exact absurd hid (Nat.succ_ne_zero n).symm
    have hstep : ∃ s', step quiet s (.gethostByname ['a'] tA 0, [UInt16.ofNat (n + 1)]) = some s' ∧
        s'.log = s.log ∧ s'.ids = (UInt16.ofNat (n + 1)).toNat ::ₘ s.ids := by
      rw [step, serve, doQueryName_new]
      exact queryName_add_some (inv_run hrun).sound hfree hne rfl rfl rfl
    obtain ⟨s', hs', hlog', hids'⟩ := hstep
    refine ⟨s', ?_, hlog'.trans hlog, fun id => ?_⟩
    · rw [submissions, range_succ, map_append, run_append, ← submissions, hrun, bind_some]
      rw [map_singleton, run, hs', bind_some, run]
    · rw [hids', Multiset.mem_cons, hid, hids]
      omega

/-- **A submission does not return** when 65535 queries have all the ids, whatever is drawn. Their
callbacks were not called. -/
theorem submission_hangs : ∃ s, run (step quiet) State.start (submissions 65535) = some s ∧
    s.called = 0 ∧ ∀ rand, step quiet s (.gethostByname ['a'] tA 0, rand) = none := by
  obtain ⟨s, hrun, hlog, hids⟩ := run_submissions (le_refl 65535)
  refine ⟨s, hrun, by rw [State.called, hlog]; rfl, fun rand => ?_⟩
  rw [step, serve, doQueryName_new]
  refine queryName_add_none (inv_run hrun).sound (fun id hid => ?_) rfl rfl
  have hpos : id.toNat ≠ 0 := fun h => hid (UInt16.toNat_inj.mp h)
  have hlt := id.toNat_lt
  exact (hids _).mpr (by omega)

end Ratbox.Res
