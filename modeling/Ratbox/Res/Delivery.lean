import Mathlib.Algebra.BigOperators.Group.Multiset.Basic
import Mathlib.Algebra.Order.BigOperators.Group.Multiset
import Mathlib.Data.Multiset.Range
import Ratbox.Res.Basic

/-!
# The callbacks of the queries

Every query is held by one request until its callback is called, and the callback is called once: a
request goes when it is finished, when it has timed out three times, and when the name of its
address is looked up by a new request for the same query. So six timeouts are enough for any query.

Source: `resolver/res.c`, lines 164–200, 275–305, 417–470, 592–636 and 802–913.

## Main definitions

* `Res.Inv`: what holds between the calls.
* `Res.Reslist.turns`: how many timeouts a request has left, with those of the request that may
  follow it.
* `Res.dueTimes`: the timeouts of a query in a run.

## Main results

* `Res.step_spec`: a call keeps the invariant, and a timeout of a query takes one of its turns.
* `Res.Inv.count`: a query is held by one request, or its callback was called once.
* `Res.called_of_dueTimes`: the callback of a query is called after six timeouts.
-/

namespace Ratbox.Res

open Text Address Run List Option State

variable {env : Env} {now : ℤ} {s s' : State} {a : ℕ} {r r' : Reslist} {target : Target}
  {name : Str} {type : ℕ} {q : ℕ} {M : Multiset Reslist} {op : Op} {calls : List (Op × List UInt16)}

/-! ### What the functions do -/

section

variable (ha : s.requests.cell a = some r)
include ha

theorem read_eq (f : Reslist → Option State) : s.read a f = f r := by
  rw [State.read, ha]

theorem write_eq (f : Reslist → Reslist) :
    s.write a f = { s with requests := s.requests.set a (f r) } := by
  rw [write, ha]

theorem finish_eq (query : ℕ) (reply : Option DNSReply) :
    finish a query reply s = { s with requests := s.requests.remove a, log := .called query reply ::
      s.log } := by
  rw [finish, remRequest]
  have hcell : (s.note (.called query reply)).requests.cell a = some r := ha
  rw [hcell]
  rfl

theorem remRequest_eq : remRequest a s = { s with requests := s.requests.remove a } := by
  rw [remRequest, ha]

end

/-- A request is on its way: a query is made for it with a type, and it may have another id. -/
structure Asked (type : ℕ) (r r' : Reslist) : Prop where
  type_eq : r'.type = type
  retries : r'.retries = r.retries
  sentat : r'.sentat = r.sentat
  timeout : r'.timeout = r.timeout
  addr : r'.addr = r.addr
  name : r'.name = r.name
  query : r'.query = r.query

/-- **`query_name`** gives the request an id, or leaves it. -/
theorem queryName_spec (ha : s.requests.cell a = some r) (h : queryName env a s = some s') :
    ∃ r' rand, Asked r.type r r' ∧
    s' = { s with requests := s.requests.set a r', rand := rand } := by
  rw [queryName, read_eq ha] at h
  split_ifs at h
  · obtain ⟨⟨id, s₁⟩, hid, rfl⟩ := map_eq_some_iff.mp h
    rw [generateRandomId] at hid
    split at hid
    · cases hid
    · rename_i id' rand hrand
      cases hid
      have hcell : (requests { s with rand := rand }).cell a = some r := ha
      exact ⟨{ r with id := id'.toNat, sends := r.sends + 1 }, rand, ⟨rfl, rfl, rfl, rfl, rfl, rfl,
        rfl⟩, write_eq hcell _⟩
  · cases h
    exact ⟨r, s.rand, ⟨rfl, rfl, rfl, rfl, rfl, rfl, rfl⟩, by rw [Arena.set_eq_self ha]⟩

/-- A request for a name. -/
def Reslist.forName (r : Reslist) (name : Str) (type : ℕ) : Reslist :=
  { r with queryname := strlcpy (strlcpy name (resolverHostlen + 1)) 128, type := type }

/-- A request for the name of an address. -/
def Reslist.forNumber (r : Reslist) (addr : Option Ip) : Reslist :=
  { r with queryname := (addr.map arpa).getD r.queryname, type := tPtr }

/-- A new request for a name. -/
def Reslist.newName (query : ℕ) (now : ℤ) (name : Str) (type : ℕ) : Reslist :=
  { Reslist.made query now with name := some (strlcpy name (resolverHostlen + 1)) }.forName name
    type

/-- A new request for the name of an address. -/
def Reslist.newNumber (query : ℕ) (now : ℤ) (addr : Option Ip) : Reslist :=
  { Reslist.made query now with addr := addr, name := some [] }.forNumber addr

/-- A new request is put on the list. -/
def State.add (s : State) (r₀ r : Reslist) : State :=
  { s with requests := (s.requests.make r₀).set s.requests.fresh r }

theorem doQueryName_old (ha : s.requests.cell a = some r) :
    doQueryName env now (.old a) name type s =
    queryName env a { s with requests := s.requests.set a (r.forName name type) } := by
  rw [doQueryName]
  rw [write_eq ha]
  rfl

theorem doQueryName_new (query : ℕ) : doQueryName env now (.new query) name type s =
    queryName env s.requests.fresh (s.add (.made query now) (.newName query now name type)) := by
  have hmake : (makeRequest query now s).requests.cell s.requests.fresh = some (.made query now) :=
    Arena.cell_make_fresh
  rw [doQueryName]
  rw [write_eq hmake, write_eq Arena.cell_set_self]
  dsimp only
  rw [Arena.set_set]
  rfl

theorem doQueryNumber_old (ha : s.requests.cell a = some r) (addr : Option Ip) :
    doQueryNumber env now (.old a) addr s =
      queryName env a { s with requests := s.requests.set a (r.forNumber addr) } := by
  rw [doQueryNumber]
  rw [write_eq ha]
  rfl

theorem doQueryNumber_new (query : ℕ) (addr : Option Ip) :
    doQueryNumber env now (.new query) addr s = queryName env s.requests.fresh
    (s.add (.made query now) (.newNumber query now addr)) := by
  have hmake : (makeRequest query now s).requests.cell s.requests.fresh = some (.made query now) :=
    Arena.cell_make_fresh
  rw [doQueryNumber]
  rw [write_eq hmake, write_eq Arena.cell_set_self]
  dsimp only
  rw [Arena.set_set]
  rfl

/-- **`resend_query`** makes a query for a request again, if it has a type that is known. -/
theorem resendQuery_eq (env : Env) (now : ℤ) (hname : r.name ≠ none) : ∃ r', Asked r.type r r' ∧
    ((∀ s : State, s.requests.cell a = some r →
        resendQuery env now a s = queryName env a { s with requests := s.requests.set a r' }) ∨
      ∀ s : State, s.requests.cell a = some r → resendQuery env now a s = some s) := by
  obtain ⟨name, hname⟩ := ne_none_iff_exists'.mp hname
  by_cases hptr : r.type = tPtr
  · refine ⟨r.forNumber r.addr, ⟨hptr.symm, rfl, rfl, rfl, rfl, rfl, rfl⟩, Or.inl fun s ha => ?_⟩
    rw [resendQuery, read_eq ha, if_pos hptr, doQueryNumber_old ha]
  by_cases haddr : r.type = tA ∨ r.type = tAaaa
  · refine ⟨r.forName name r.type, ⟨rfl, rfl, rfl, rfl, rfl, rfl, rfl⟩, Or.inl fun s ha => ?_⟩
    rw [resendQuery, read_eq ha, if_neg hptr, if_pos haddr, hname]
    exact doQueryName_old ha
  · refine ⟨r, ⟨rfl, rfl, rfl, rfl, rfl, rfl, rfl⟩, Or.inr fun s ha => ?_⟩
    rw [resendQuery, read_eq ha, if_neg hptr, if_neg haddr]

theorem Asked.trans {type' : ℕ} {r'' : Reslist} (h : Asked type r r') (h' : Asked type' r' r'') :
    Asked type' r r'' :=
  ⟨h'.type_eq, h'.retries.trans h.retries, h'.sentat.trans h.sentat, h'.timeout.trans h.timeout,
    h'.addr.trans h.addr, h'.name.trans h.name, h'.query.trans h.query⟩

theorem resendQuery_spec (ha : s.requests.cell a = some r) (hname : r.name ≠ none)
    (h : resendQuery env now a s = some s') :
    ∃ r' rand, Asked r.type r r' ∧
    s' = { s with requests := s.requests.set a r', rand := rand } := by
  obtain ⟨r₁, hasked, heq | heq⟩ := resendQuery_eq (a := a) env now hname
  · rw [heq s ha] at h
    obtain ⟨r', rand, hasked', rfl⟩ := queryName_spec Arena.cell_set_self h
    refine ⟨r', rand, ?_, by rw [Arena.set_set]⟩
    have htrans := hasked.trans hasked'
    rwa [hasked.type_eq] at htrans
  · rw [heq s ha] at h
    cases h
    exact ⟨r, s.rand, ⟨rfl, rfl, rfl, rfl, rfl, rfl, rfl⟩, by rw [Arena.set_eq_self ha]⟩

/-- A new request is put on the list, and a query is made for it. -/
theorem queryName_add {r₀ r₁ : Reslist}
    (h : queryName env s.requests.fresh (s.add r₀ r₁) = some s') :
    ∃ r' rand, Asked r₁.type r₁ r' ∧ s' = { s.add r₀ r' with rand := rand } := by
  obtain ⟨r', rand, hasked, rfl⟩ := queryName_spec Arena.cell_set_self h
  refine ⟨r', rand, hasked, ?_⟩
  rw [add, add, Arena.set_set]

/-! ### What holds between the calls -/

/-- The query whose callback is called. -/
def calledQuery : Event → Option ℕ
  | .called query _ => some query
  | _ => none

/-- The queries whose callbacks were called, once for each call. -/
def State.called (s : State) : Multiset ℕ := ↑(s.log.filterMap calledQuery)

/-- The queries that requests are held for. -/
def State.held (s : State) : Multiset ℕ := s.requests.contents.map (·.query)

/-- A request that was sent has a name, and its timeout is doubled with each turn. -/
structure Live (r : Reslist) : Prop where
  name : r.name ≠ none
  turn : (r.retries = 3 ∧ r.timeout = 4) ∨ (r.retries = 2 ∧ r.timeout = 8) ∨
    (r.retries = 1 ∧ r.timeout = 16)

/-- **What holds between the calls.** The queries that were submitted are those that requests are
held for and those whose callbacks were called. -/
structure Inv (s : State) : Prop where
  sound : s.requests.Sound
  live : ∀ r ∈ s.requests.contents, Live r
  once : s.called + s.held = Multiset.range s.queries
  ids : ∀ a i j, Event.credited a i j ∈ s.log → i = j
  fault : ∀ a, Event.fault a ∉ s.log

theorem inv_start : Inv start where
  sound := Arena.sound_empty
  live r hr := absurd hr (Multiset.notMem_zero r)
  once := rfl
  ids _ _ _ h := absurd h not_mem_nil
  fault _ := not_mem_nil

theorem Inv.rand (h : Inv s) (rand : List UInt16) : Inv { s with rand := rand } :=
  ⟨h.sound, h.live, h.once, h.ids, h.fault⟩

theorem Asked.live (h : Asked type r r') (hlive : Live r) : Live r' :=
  ⟨by rw [h.name]; exact hlive.name, by rw [h.retries, h.timeout]; exact hlive.turn⟩

/-- A request is written. -/
theorem Inv.set (h : Inv s) (ha : s.requests.cell a = some r) (hlive : Live r')
    (hquery : r'.query = r.query) :
    Inv { s with requests := s.requests.set a r' } := by
  have hsplit := h.sound.contents_remove ha
  have hset := h.sound.contents_set ha hsplit r'
  refine ⟨h.sound.set ha r', fun x hx => ?_, ?_, h.ids, h.fault⟩
  · obtain rfl | hx := Multiset.mem_cons.mp (hset ▸ hx)
    · exact hlive
    · exact h.live x (hsplit ▸ Multiset.mem_cons_of_mem hx)
  · have hheld : held { s with requests := s.requests.set a r' } = s.held := by
      rw [held, held, hset, hsplit, Multiset.map_cons, Multiset.map_cons, hquery]
    rw [hheld]
    exact h.once

/-- A callback is called, and its request removed. -/
theorem Inv.finish (h : Inv s) (ha : s.requests.cell a = some r) (reply : Option DNSReply) :
    Inv { s with requests := s.requests.remove a, log := .called r.query reply :: s.log } := by
  have hsplit := h.sound.contents_remove ha
  refine ⟨h.sound.remove a, fun x hx => h.live x (hsplit ▸ Multiset.mem_cons_of_mem hx), ?_,
    fun b i j hmem => ?_, fun b hmem => ?_⟩
  · have hheld : s.held = r.query ::ₘ (s.requests.remove a).contents.map (·.query) := by
      rw [held, hsplit, Multiset.map_cons]
    rw [← h.once, hheld, Multiset.add_cons, ← Multiset.cons_add]
    rfl
  · exact h.ids b i j ((mem_cons.mp hmem).resolve_left (by simp))
  · exact h.fault b ((mem_cons.mp hmem).resolve_left (by simp))

theorem contents_add (h : s.requests.Sound) (r₀ r : Reslist) :
    (s.add r₀ r).requests.contents = r ::ₘ s.requests.contents :=
  (h.make r₀).contents_set Arena.cell_make_fresh (h.contents_make r₀) r

theorem sound_add (h : s.requests.Sound) (r₀ r : Reslist) : (s.add r₀ r).requests.Sound :=
  (h.make r₀).set Arena.cell_make_fresh r

/-- A request is made for a new query. -/
theorem Inv.add (h : Inv s) {r₀ : Reslist} (hlive : Live r) (hquery : r.query = s.queries) :
    Inv { s.add r₀ r with queries := s.queries + 1 } := by
  have hadd := contents_add h.sound r₀ r
  refine ⟨sound_add h.sound r₀ r, fun x hx => ?_, ?_, h.ids, h.fault⟩
  · obtain rfl | hx := Multiset.mem_cons.mp (hadd ▸ hx)
    · exact hlive
    · exact h.live x hx
  · have hheld : held { s.add r₀ r with queries := s.queries + 1 } = s.queries ::ₘ s.held := by
      rw [held, held, hadd, Multiset.map_cons, hquery]
    rw [hheld, Multiset.add_cons]
    exact (congrArg (s.queries ::ₘ ·) h.once).trans (Multiset.range_succ s.queries).symm

/-- A request is made for the query of another one, which is removed. -/
theorem Inv.follow (h : Inv s) (ha : s.requests.cell a = some r) (r₀ : Reslist) (hlive : Live r')
    (hquery : r'.query = r.query) :
    Inv { s with requests := (s.add r₀ r').requests.remove a } ∧
      (s.add r₀ r').requests.cell a = some r ∧
        ((s.add r₀ r').requests.remove a).contents = r' ::ₘ (s.requests.remove a).contents := by
  have hsplit := h.sound.contents_remove ha
  have hsound := sound_add h.sound r₀ r'
  have hne : a ≠ s.requests.fresh := (h.sound.lt_fresh a (by rw [ha]; exact some_ne_none r)).ne
  have hcell : (s.add r₀ r').requests.cell a = some r :=
    (Arena.cell_set_of_ne hne).trans ((Arena.cell_make_of_ne hne).trans ha)
  have hcontents : ((s.add r₀ r').requests.remove a).contents =
      r' ::ₘ (s.requests.remove a).contents := by
    have hremove := hsound.contents_remove hcell
    rw [contents_add h.sound, hsplit, Multiset.cons_swap, Multiset.cons_inj_right] at hremove
    exact hremove.symm
  refine ⟨⟨hsound.remove a, fun x hx => ?_, ?_, h.ids, h.fault⟩, hcell, hcontents⟩
  · obtain rfl | hx := Multiset.mem_cons.mp (hcontents ▸ hx)
    · exact hlive
    · exact h.live x (hsplit ▸ Multiset.mem_cons_of_mem hx)
  · have hheld : held { s with requests := (s.add r₀ r').requests.remove a } = s.held := by
      rw [held, held, hcontents, hsplit, Multiset.map_cons, Multiset.map_cons, hquery]
    rw [hheld]
    exact h.once

/-! ### Turns -/

/-- The timeouts that a request has left, with the three of the request that follows the name of an
address. -/
def Reslist.turns (r : Reslist) : ℕ := r.retries.toNat + if r.type = tPtr then 3 else 0

/-- The turns that are left for a query. -/
def turnsIn (q : ℕ) (M : Multiset Reslist) : ℕ :=
  (M.map fun r => if r.query = q then r.turns else 0).sum

@[inherit_doc turnsIn] def State.turns (s : State) (q : ℕ) : ℕ := turnsIn q s.requests.contents

@[simp] theorem turnsIn_cons :
    turnsIn q (r ::ₘ M) = (if r.query = q then r.turns else 0) + turnsIn q M := by
  rw [turnsIn, Multiset.map_cons, Multiset.sum_cons]
  rfl

theorem Live.turns_pos (h : Live r) : 1 ≤ r.turns := by
  have hturn := h.turn
  rw [Reslist.turns]
  omega

theorem Live.turns_le (h : Live r) : r.turns ≤ 6 := by
  have hturn := h.turn
  rw [Reslist.turns]
  split_ifs <;> omega

/-- A request has one turn at least, and six at most. -/
theorem turnsIn_bounds (h : ∀ r ∈ M, Live r) :
    (M.map (·.query)).count q ≤ turnsIn q M ∧ turnsIn q M ≤ 6 * (M.map (·.query)).count q := by
  induction M using Multiset.induction with
  | empty => exact ⟨le_rfl, le_rfl⟩
  | cons r M ih =>
    have hrest := ih fun r' hr' => h r' (Multiset.mem_cons_of_mem hr')
    have hlive := h r (Multiset.mem_cons_self r M)
    have hpos := hlive.turns_pos
    have hle := hlive.turns_le
    rw [turnsIn_cons, Multiset.map_cons]
    by_cases hq : r.query = q
    · rw [if_pos hq, hq, Multiset.count_cons_self]
      omega
    · rw [if_neg hq, Multiset.count_cons_of_ne (Ne.symm hq)]
      omega

theorem turns_eq (h : s.requests.Sound) (ha : s.requests.cell a = some r) (q : ℕ) :
    s.turns q = (if r.query = q then r.turns else 0) +
    turnsIn q (s.requests.remove a).contents := by
  rw [turns, h.contents_remove ha, turnsIn_cons]

/-- A request is written, and has as many turns at most. -/
theorem turns_set (h : s.requests.Sound) (ha : s.requests.cell a = some r) (r' : Reslist) (q : ℕ) :
    turnsIn q (s.requests.set a r').contents =
      (if r'.query = q then r'.turns else 0) + turnsIn q (s.requests.remove a).contents := by
  rw [h.contents_set ha (h.contents_remove ha), turnsIn_cons]

/-- A request is for a query, and has waited for as long as it does. -/
def Reslist.due (r : Reslist) (q : ℕ) (now : ℤ) : Bool :=
  r.query = q && decide (r.sentat + r.timeout ≤ now)

/-- The timeout of one request: it has one turn less if it is due, and the others are left alone. -/
structure TimedOut (now : ℤ) (a : ℕ) (r : Reslist) (s s' : State) : Prop where
  inv : Inv s'
  queries : s'.queries = s.queries
  frame : ∀ b, b ≠ a → s'.requests.cell b = s.requests.cell b
  length : s'.requests.list.length ≤ s.requests.list.length
  turns : ∀ q, s'.turns q + (if r.due q now then 1 else 0) ≤ s.turns q

/-- The third time a request is given up. -/
theorem TimedOut.of_last (h : Inv s) (ha : s.requests.cell a = some r) :
    TimedOut now a r s { s with requests := s.requests.remove a, log := .called r.query none ::
      s.log } where
  inv := h.finish ha none
  queries := rfl
  frame _ hb := Arena.cell_remove_of_ne hb
  length := length_erase_le
  turns q := by
    have hpos := (h.live r (Arena.mem_contents h.sound ha)).turns_pos
    rw [turns_eq h.sound ha, State.turns, Reslist.due]
    dsimp only
    by_cases hq : r.query = q
    · rw [if_pos hq]
      split_ifs <;> omega
    · rw [if_neg hq, decide_eq_false hq, Bool.false_and, if_neg Bool.false_ne_true]
      omega

/-- The other times it is sent again. -/
theorem TimedOut.of_resend (h : Inv s) (ha : s.requests.cell a = some r)
    (hretries : ¬r.retries - 1 ≤ 0)
    (hasked : Asked r.type { r with
      retries := r.retries - 1, sentat := now, timeout := r.timeout + r.timeout } r')
    (rand : List UInt16) : TimedOut now a r s { s with
      requests := s.requests.set a r', rand := rand } where
  inv := by
    have hlive := h.live r (Arena.mem_contents h.sound ha)
    have hturn := hlive.turn
    refine (h.set ha (hasked.live ⟨hlive.name, ?_⟩) hasked.query).rand rand
    dsimp only
    omega
  queries := rfl
  frame _ hb := Arena.cell_set_of_ne hb
  length := le_rfl
  turns q := by
    have hturns : r'.turns + 1 = r.turns := by
      have hr' : r'.retries = r.retries - 1 := hasked.retries
      rw [Reslist.turns, Reslist.turns, hasked.type_eq, hr']
      omega
    have hquery : r'.query = r.query := hasked.query
    rw [turns_eq h.sound ha, State.turns]
    dsimp only
    rw [turns_set h.sound ha, hquery, Reslist.due]
    by_cases hq : r.query = q
    · rw [if_pos hq, if_pos hq]
      split_ifs <;> omega
    · rw [if_neg hq, if_neg hq, decide_eq_false hq, Bool.false_and, if_neg Bool.false_ne_true]
      omega

theorem timeoutRequest_spec (h : Inv s) (ha : s.requests.cell a = some r)
    (hrun : timeoutRequest env now a s = some s') : TimedOut now a r s s' := by
  rw [timeoutRequest, read_eq ha] at hrun
  by_cases hdue : r.sentat + r.timeout ≤ now
  · rw [if_pos hdue, write_eq ha] at hrun
    dsimp only at hrun
    by_cases hretries : r.retries - 1 ≤ 0
    · rw [if_pos hretries, finish_eq Arena.cell_set_self, Arena.remove_set] at hrun
      cases hrun
      exact .of_last h ha
    · rw [if_neg hretries, write_eq Arena.cell_set_self, Arena.set_set] at hrun
      have hname := (h.live r (Arena.mem_contents h.sound ha)).name
      obtain ⟨r', rand, hasked, rfl⟩ := resendQuery_spec (by exact Arena.cell_set_self)
        (by exact hname) hrun
      rw [Arena.set_set]
      exact .of_resend h ha hretries hasked rand
  · rw [if_neg hdue] at hrun
    cases hrun
    refine ⟨h, rfl, fun _ _ => rfl, le_rfl, fun q => ?_⟩
    rw [Reslist.due, decide_eq_false hdue, Bool.and_false, if_neg Bool.false_ne_true, Nat.add_zero]

/-- Whether the request of a query is due. -/
def State.due (s : State) (q : ℕ) (now : ℤ) (a : ℕ) : Bool := (s.requests.cell a).any (·.due q now)

/-- The loop takes a turn from each request that is due. -/
theorem timeoutLoop_spec (h : Inv s) {as : List ℕ} (hnodup : as.Nodup)
    (has : ∀ a ∈ as, s.requests.cell a ≠ none) (hrun : timeoutLoop env now as s = some s') :
    Inv s' ∧ s'.queries = s.queries ∧ ∀ q, s'.turns q + as.countP (s.due q now) ≤ s.turns q := by
  induction as generalizing s with
  | nil =>
    cases hrun
    exact ⟨h, rfl, fun q => le_rfl⟩
  | cons a as ih =>
    obtain ⟨t, ht, hrun⟩ := bind_eq_some_iff.mp hrun
    obtain ⟨r, ha⟩ := ne_none_iff_exists'.mp (has a mem_cons_self)
    obtain ⟨hnot, hnodup⟩ := nodup_cons.mp hnodup
    have hout := timeoutRequest_spec h ha ht
    have hframe : ∀ b ∈ as, t.requests.cell b = s.requests.cell b := fun b hb =>
      hout.frame b fun hba => hnot (hba ▸ hb)
    obtain ⟨hinv, hqueries, hturns⟩ := ih hout.inv hnodup
      (fun b hb => by rw [hframe b hb]; exact has b (mem_cons_of_mem a hb)) hrun
    refine ⟨hinv, hqueries.trans hout.queries, fun q => ?_⟩
    have hcount : as.countP (s.due q now) = as.countP (t.due q now) :=
      countP_congr fun b hb => by rw [due, due, hframe b hb]
    have hone := hout.turns q
    have hrest := hturns q
    have hdue : s.due q now a = r.due q now := by rw [due, ha, any_some]
    rw [countP_cons, hdue, hcount]
    omega

/-! ### Replies -/

theorem findId_spec {id : ℕ} (h : findId s id = some a) :
    ∃ r, s.requests.cell a = some r ∧ r.id = id := by
  rw [findId] at h
  have hany := find?_some h
  obtain ⟨r, ha, hid⟩ := (any_eq_true _ _).mp hany
  exact ⟨r, ha, of_decide_eq_true hid⟩

/-- A reply leaves no more turns for any query. -/
structure Replied (s s' : State) : Prop where
  inv : Inv s'
  queries : s'.queries = s.queries
  turns : ∀ q, s'.turns q ≤ s.turns q

theorem Replied.refl (h : Inv s) : Replied s s := ⟨h, rfl, fun _ => le_rfl⟩

theorem Replied.trans {s'' : State} (h : Replied s s') (h' : Replied s' s'') : Replied s s'' :=
  ⟨h'.inv, h'.queries.trans h.queries, fun q => (h'.turns q).trans (h.turns q)⟩

/-- A reply is credited to the request with its id. -/
theorem Replied.of_credited (h : Inv s) (b i : ℕ) : Replied s (s.note (.credited b i i)) where
  inv := by
    refine ⟨h.sound, h.live, h.once, fun c j k hmem => ?_, fun c hmem => ?_⟩
    · obtain heq | hmem := mem_cons.mp hmem
      · obtain ⟨-, rfl, rfl⟩ := Event.credited.inj heq
        rfl
      · exact h.ids c j k hmem
    · exact h.fault c ((mem_cons.mp hmem).resolve_left (by simp))
  queries := rfl
  turns _ := le_rfl

theorem Replied.of_finish (h : Inv s) (ha : s.requests.cell a = some r) (reply : Option DNSReply) :
    Replied s (finish a r.query reply s) := by
  rw [finish_eq ha]
  refine ⟨h.finish ha reply, rfl, fun q => ?_⟩
  rw [turns_eq h.sound ha]
  exact Nat.le_add_left _ _

/-- What a message does to the request that it answers. -/
structure Answered (r r' : Reslist) : Prop where
  type_eq : r'.type = r.type
  retries : r'.retries = r.retries
  timeout : r'.timeout = r.timeout
  name : r.name ≠ none → r'.name ≠ none
  query : r'.query = r.query

theorem Answered.refl (r : Reslist) : Answered r r := ⟨rfl, rfl, rfl, id, rfl⟩

theorem Answered.ite {P : Prop} [Decidable P] {x y : Bool × Reslist} (hx : Answered r x.2)
    (hy : Answered r y.2) :
    Answered r (if P then x else y).2 := by
  split_ifs
  · exact hx
  · exact hy

theorem answered_readAnswers (env : Env) (p : Packet) (n current : ℕ) (r : Reslist) :
    Answered r (readAnswers env p n current r).2 := by
  induction n generalizing current with
  | zero => exact .refl r
  | succ n ih =>
    rw [readAnswers]
    dsimp only
    refine .ite (.refl r) (.ite (.refl r) (.ite (.refl r) ?_))
    -- the types A and AAAA, PTR, and CNAME
    refine .ite (.ite (.refl r) ⟨rfl, rfl, rfl, id, rfl⟩) ?_
    refine .ite (.ite (.refl r) ⟨rfl, rfl, rfl, id, rfl⟩) ?_
    refine .ite (.ite (.refl r) (.ite (.refl r) ⟨rfl, rfl, rfl, fun _ => some_ne_none _, rfl⟩)) ?_
    exact .ite (ih _) (ih _)

theorem answered_procAnswer (env : Env) (p : Packet) (r : Reslist) :
    Answered r (procAnswer env r p).2 := by
  rw [procAnswer]
  split
  · exact .refl r
  · exact answered_readAnswers env p _ _ r

theorem Answered.live (h : Answered r r') (hlive : Live r) : Live r' :=
  ⟨h.name hlive.name, by rw [h.retries, h.timeout]; exact hlive.turn⟩

/-- What a message has is written to its request. -/
theorem Replied.of_answered (h : Inv s) (ha : s.requests.cell a = some r) (hans : Answered r r') :
    Replied s { s with requests := s.requests.set a r' } := by
  have hlive := h.live r (Arena.mem_contents h.sound ha)
  refine ⟨h.set ha (hans.live hlive) hans.query, rfl, fun q => ?_⟩
  have hturns : r'.turns = r.turns := by rw [Reslist.turns, Reslist.turns, hans.retries,
    hans.type_eq]
  rw [turns_eq h.sound ha, State.turns]
  dsimp only
  rw [turns_set h.sound ha, hans.query, hturns]

/-- **The name of an address** is looked up by another request, which has the turns that were kept
for it. -/
theorem Replied.of_follow (h : Inv s) (ha : s.requests.cell a = some r) (hptr : r.type = tPtr)
    (hne : type ≠ tPtr)
    (hrun : (doQueryName env now (.new r.query) name type s).map (remRequest a) = some s') :
    Replied s s' := by
  obtain ⟨t, ht, rfl⟩ := map_eq_some_iff.mp hrun
  rw [doQueryName_new] at ht
  obtain ⟨r', rand, hasked, rfl⟩ := queryName_add ht
  have hquery : r'.query = r.query := hasked.query
  have hlive : Live r' := hasked.live ⟨some_ne_none _, Or.inl ⟨rfl, rfl⟩⟩
  obtain ⟨hinv, hcell, hcontents⟩ := h.follow ha (.made r.query now) hlive hquery
  have hremove := remRequest_eq (s := { s.add (.made r.query now) r' with rand := rand }) hcell
  rw [hremove]
  refine ⟨hinv.rand rand, rfl, fun q => ?_⟩
  have hturns : r'.turns = 3 := by
    have htype : r'.type = type := hasked.type_eq
    have hretries : r'.retries = 3 := hasked.retries
    rw [Reslist.turns, htype, hretries, if_neg hne]
    rfl
  have hle : 3 ≤ r.turns := by
    rw [Reslist.turns, if_pos hptr]
    exact Nat.le_add_left _ _
  rw [turns_eq h.sound ha, State.turns]
  dsimp only
  rw [hcontents, turnsIn_cons, hquery, hturns]
  split_ifs <;> omega

theorem resReadSingleReply_spec (h : Inv s) {p : Packet}
    (hrun : resReadSingleReply env now p s = some s') :
    Replied s s' := by
  rw [resReadSingleReply] at hrun
  by_cases hrc : p.rc ≤ headerSize
  · rw [if_pos hrc] at hrun
    exact some.inj hrun ▸ .refl h
  rw [if_neg hrc] at hrun
  split at hrun
  · exact some.inj hrun ▸ .refl h
  rename_i a hfind
  obtain ⟨r, ha, hid⟩ := findId_spec hfind
  rw [read_eq ha, hid] at hrun
  split at hrun
  · exact some.inj hrun ▸ .refl h
  split at hrun
  · exact some.inj hrun ▸ .refl h
  have hcredit := Replied.of_credited h a p.id
  refine hcredit.trans ?_
  dsimp only at hrun
  split at hrun
  · exact some.inj hrun ▸ .of_finish hcredit.inv ha none
  have hcell : (s.note (.credited a p.id p.id)).requests.cell a = some r := ha
  rw [write_eq hcell] at hrun
  have hans := Replied.of_answered hcredit.inv hcell (answered_procAnswer env p r)
  refine hans.trans ?_
  split at hrun
  · split at hrun
    · rename_i hptr
      split at hrun
      · exact some.inj hrun ▸ .of_finish hans.inv Arena.cell_set_self none
      · refine .of_follow hans.inv Arena.cell_set_self hptr ?_ hrun
        split_ifs <;> decide
    · exact some.inj hrun ▸ .of_finish hans.inv Arena.cell_set_self _
  · exact some.inj hrun ▸ .of_finish hans.inv Arena.cell_set_self none

/-! ### Calls -/

/-- Whether a call is a timeout of a query. -/
def dueFor (q : ℕ) (s : State) : Op → Bool
  | .timeout now => s.requests.list.any (s.due q now)
  | _ => false

/-- **What a call does**: it keeps the invariant, and a timeout of a query takes one of its
turns. -/
structure Stepped (s s' : State) (op : Op) : Prop where
  inv : Inv s'
  queries : s.queries ≤ s'.queries
  queries_le : s'.queries ≤ s.queries + 1
  turns : ∀ q < s.queries, s'.turns q + (if dueFor q s op then 1 else 0) ≤ s.turns q

theorem Replied.stepped (h : Replied s s') (hop : ∀ q, dueFor q s op = false) :
    Stepped s s' op := by
  refine ⟨h.inv, h.queries.ge, h.queries.le.trans (Nat.le_succ _), fun q _ => ?_⟩
  rw [hop, if_neg Bool.false_ne_true]
  exact h.turns q

/-- A query is submitted. -/
theorem Stepped.of_add (h : Inv s) (hop : ∀ q, dueFor q s op = false) {r₀ r₁ : Reslist}
    (hlive : Live r₁) (hquery : r₁.query = s.queries)
    (hrun : queryName env s.requests.fresh ({ s with queries := s.queries + 1 }.add r₀ r₁) = some
      s') :
    Stepped s s' op := by
  obtain ⟨r', rand, hasked, rfl⟩ := queryName_add hrun
  have hquery' : r'.query = s.queries := hasked.query.trans hquery
  refine ⟨(h.add (hasked.live hlive) hquery').rand rand, Nat.le_succ _, le_rfl, fun q hq => ?_⟩
  rw [hop, if_neg Bool.false_ne_true, State.turns]
  dsimp only
  have hadd : turnsIn q (s.add r₀ r').requests.contents = s.turns q := by
    rw [contents_add h.sound, turnsIn_cons, hquery', if_neg hq.ne', Nat.zero_add]
    rfl
  exact hadd.le

theorem serve_spec (h : Inv s) (hrun : serve env s op = some s') : Stepped s s' op := by
  cases op with
  | gethostByname name type now =>
    rw [serve, doQueryName_new] at hrun
    exact .of_add h (fun _ => rfl) ⟨some_ne_none _, Or.inl ⟨rfl, rfl⟩⟩ rfl hrun
  | gethostByaddr addr now =>
    rw [serve, doQueryNumber_new] at hrun
    exact .of_add h (fun _ => rfl) ⟨some_ne_none _, Or.inl ⟨rfl, rfl⟩⟩ rfl hrun
  | timeout now =>
    obtain ⟨hinv, hqueries, hturns⟩ := timeoutLoop_spec h h.sound.enumerates.nodup
      (fun a ha => (h.sound.enumerates.mem_iff a).mp ha) hrun
    refine ⟨hinv, hqueries.ge, hqueries.le.trans (Nat.le_succ _), fun q _ => ?_⟩
    have hq := hturns q
    rw [dueFor]
    split_ifs with hdue
    · have hpos : 0 < s.requests.list.countP (s.due q now) :=
        countP_pos_iff.mpr (any_eq_true.mp hdue)
      exact (Nat.add_le_add_left hpos _).trans hq
    · exact (Nat.le_add_right _ _).trans hq
  | reply p now => exact (resReadSingleReply_spec h hrun).stepped fun _ => rfl

theorem step_spec (h : Inv s) {call : Op × List UInt16} (hrun : step env s call = some s') :
    Stepped s s' call.1 := by
  have hserve := serve_spec (h.rand call.2) hrun
  have hdue : ∀ q, dueFor q { s with rand := call.2 } call.1 = dueFor q s call.1 := fun q => by
    cases call.1 <;> rfl
  refine ⟨hserve.inv, hserve.queries, hserve.queries_le, fun q hq => ?_⟩
  rw [← hdue]
  exact hserve.turns q hq

/-- The timeouts of a query in a run. -/
def dueTimes (env : Env) (q : ℕ) : State → List (Op × List UInt16) → ℕ
  | _, [] => 0
  | s, call :: calls =>
    (if dueFor q s call.1 then 1 else 0) + match step env s call with
      | none => 0
      | some s' => dueTimes env q s' calls

/-- A run takes as many turns as it has timeouts. -/
theorem turns_run (h : Inv s) (hq : q < s.queries) (hrun : run (step env) s calls = some s') :
    Inv s' ∧ q < s'.queries ∧ s'.turns q + dueTimes env q s calls ≤ s.turns q := by
  induction calls generalizing s with
  | nil =>
    cases hrun
    exact ⟨h, hq, le_rfl⟩
  | cons call calls ih =>
    obtain ⟨t, ht, hrun⟩ := bind_eq_some_iff.mp hrun
    have hstep := step_spec h ht
    obtain ⟨hinv, hq', hturns⟩ := ih hstep.inv (hq.trans_le hstep.queries) hrun
    refine ⟨hinv, hq', ?_⟩
    have hone := hstep.turns q hq
    rw [dueTimes, ht]
    dsimp only
    omega

theorem inv_run (hrun : run (step env) start calls = some s) : Inv s :=
  invariant Inv (fun _ _ _ h _ hstep => (step_spec h hstep).inv) inv_start
    (StepsMeet.of_forall (fun _ _ => trivial) _ _) hrun

/-- A query is held by one request, or its callback was called. -/
theorem Inv.count (h : Inv s) (q : ℕ) :
    s.called.count q + s.held.count q = if q < s.queries then 1 else 0 := by
  rw [← Multiset.count_add, h.once]
  split_ifs with hq
  · exact Multiset.count_eq_one_of_mem (Multiset.nodup_range _) (Multiset.mem_range.mpr hq)
  · exact Multiset.count_eq_zero_of_notMem fun hmem => hq (Multiset.mem_range.mp hmem)

/-- There are no more requests than queries. -/
theorem Inv.length_le (h : Inv s) : s.requests.list.length ≤ s.queries := by
  have hcard : s.requests.list.length = s.held.card := by
    rw [held, Multiset.card_map, Arena.contents, Multiset.coe_card, length_filterMap_eq_countP,
      eq_comm, countP_eq_length]
    exact fun a ha => isSome_iff_ne_none.mpr ((h.sound.enumerates.mem_iff a).mp ha)
  rw [hcard, ← Multiset.card_range s.queries, ← h.once, Multiset.card_add]
  exact Nat.le_add_left _ _

/-- **Six timeouts** are enough for a query. -/
theorem called_of_dueTimes (h : Inv s) (hq : q < s.queries)
    (hrun : run (step env) s calls = some s') (hdue : 6 ≤ dueTimes env q s calls) :
    s'.called.count q = 1 := by
  obtain ⟨hinv, hq', hturns⟩ := turns_run h hq hrun
  have hcount := h.count q
  have hcount' := hinv.count q
  have hle : s.turns q ≤ 6 * s.held.count q := (turnsIn_bounds h.live).2
  have hge : s'.held.count q ≤ s'.turns q := (turnsIn_bounds hinv.live).1
  rw [if_pos hq] at hcount
  rw [if_pos hq'] at hcount'
  omega

end Ratbox.Res
