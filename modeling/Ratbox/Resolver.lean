import Ratbox.Address
import Ratbox.Words
import Ratbox.Lib.Run

/-!
# Queries to the resolver

Names and addresses are looked up by a helper, to which the server writes a line for each query, and
which answers with a line. A query has a number, the index of an entry of a table with its callback;
the answer has the number in hexadecimal. The entry is cleared when the query is cancelled, or after
its callback returns. A callback may look up other names, cancel queries, and, when that makes the
server restart the helper, lead to more answers.

Source: `src/dns.c`, lines 38–318 and 345–372, `libratbox/src/tools.c`, lines 82–139, and
`libratbox/src/helper.c`, lines 220–330.

## Main definitions

* `Resolver.assignDnsId`, `Resolver.lookup`, `Resolver.cancelLookup`: what is called with queries.
* `Resolver.parseDnsReply`, `Resolver.resultsCallback`, `Resolver.failedResolver`: what calls
  callbacks.
* `Resolver.step`: these, and the return of a callback, in any order.
* `Resolver.Safe`: what happens is safe.

## Main results

* `Resolver.Inv.step`: a step that meets the condition is safe.
* `Resolver.not_safe_of_reply`: an answer that does not meet it is not.
* `Resolver.resolver_safe`: the runs.

## Implementation notes

A call that makes other calls is a step of its own, and so is the return of a callback: the
callbacks that have not returned are a list, the innermost first. A number that is cancelled is one
that a lookup returned. What is written to the helper when there is none is left out, and so is what
`rb_helper_write_sendq` and `rb_helper_read_cb` use of a helper that a restart has freed.
-/

namespace Ratbox.Resolver

open Text Address Run List Option Function Resolver

/-! ### Numbers -/

/-- The number that a run of hexadecimal digits stands for. -/
def hexDigits (s : Str) : ℕ :=
  (s.takeWhile fun c => (xdigit c).isSome).foldl (fun n c => 16 * n + (xdigit c).getD 0) 0

/-- The same, with or without `0x`. -/
def hexNumber : Str → ℕ
  | '0' :: x :: c :: s => if x.toLower = 'x' ∧ (xdigit c).isSome then hexDigits (c :: s)
    else hexDigits ('0' :: x :: c :: s)
  | s => hexDigits s

/-- `strtol` with base 16, for a `long` of 64 bits. -/
def strtol16 (s : Str) : ℤ :=
  max (-2 ^ 63) (min (2 ^ 63 - 1)
    (match s.dropWhile isSpace with
    | '-' :: s => -hexNumber s
    | '+' :: s => hexNumber s
    | s => hexNumber s))

/-! ### The table -/

/-- `DNS_IDTABLE_SIZE`. -/
def dnsIdtableSize : ℕ := 0x2000

/-- `MAXPARA`. -/
def maxpara : ℕ := 15

/-- A callback that has not returned, with the entry that is cleared when it does. -/
structure Frame where
  nid : ℕ
  query : ℕ
  deriving DecidableEq

/-- What happens: a query gets a number, its callback is called, it is cancelled, or something is
read or written outside the table or the vector of parameters. -/
inductive Event
  | assigned (query nid : ℕ)
  | ran (query : ℕ) (results : Str) (status : ℤ) (aftype : Option Family)
  | cancelled (query : ℕ)
  | outside
  deriving DecidableEq

/-- The entries of `querytable` with a callback, each with its query, the number that was assigned
last, whether there is a helper, the name servers, the lines that were written to the helper, the
callbacks that have not returned, the next query, and what happened, the newest first. -/
structure State where
  querytable : ℕ → Option ℕ
  id : ℕ
  dnsHelper : Bool
  nameservers : List Str
  written : List Str
  running : List Frame
  fresh : ℕ
  log : List Event

/-- The server has started. -/
def State.start (dnsHelper : Bool) : State := ⟨fun _ => none, 1, dnsHelper, [], [], [], 0, []⟩

/-- The next number. -/
def nextId (id : ℕ) : ℕ := if id < dnsIdtableSize - 1 ∨ id = 0 then id + 1 else 1

/-- The loop of `assign_dns_id`: the number that it stops at, and the result. -/
def assignLoop (querytable : ℕ → Option ℕ) : ℕ → ℕ → ℕ × ℕ
  | 0, id => (id, 0)
  | loops + 1, id =>
    if querytable (nextId id) = none then (nextId id, nextId id) else assignLoop querytable loops
      (nextId id)

/-- `assign_dns_id`. -/
def assignDnsId (s : State) : ℕ × ℕ := assignLoop s.querytable dnsIdtableSize s.id

/-! ### Callbacks -/

/-- A callback is called. -/
def State.call (s : State) (nid query : ℕ) (results : Str) (status : ℤ) (aftype : Option Family) :
    State :=
  { s with running := ⟨nid, query⟩ :: s.running, log := .ran query results status aftype :: s.log }

/-- `failed_resolver`, up to the call. -/
def failedResolver (s : State) (xid : ℕ) : State :=
  match s.querytable xid with
  | none => s
  | some query => s.call xid query "FAILED".toList 0 none

/-- Something is read or written outside. -/
def State.outside (s : State) : State := { s with log := .outside :: s.log }

/-- `results_callback`, up to the call. -/
def resultsCallback (s : State) (callid status aftype results : Str) : State :=
  let lnid := strtol16 callid
  if (dnsIdtableSize : ℤ) < lnid ∨ lnid = 0 then s
  else
    let nid := (lnid % 2 ^ 16).toNat
    if dnsIdtableSize ≤ nid then s.outside
    else
      match s.querytable nid with
      | none => s
      | some query => s.call nid query results (atoi status) (if atoi aftype = 6 then
        some .inet6 else some .inet)

/-- A callback returns, and its entry is cleared. -/
def callbackReturns (s : State) : Option State :=
  match s.running with
  | [] => none
  | f :: running => some { s with querytable := update s.querytable f.nid none, running := running }

/-! ### Queries -/

/-- `submit_dns`. -/
def submitDns (s : State) (type : Char) (nid : ℕ) (aft : Family) (addr : Str) : State :=
  if s.dnsHelper then
    { s with
      written := (type :: ' ' :: Nat.toDigits 16 nid ++ ' ' :: (if aft = .inet6 then '6'
        else '4') :: ' ' :: addr) :: s.written }
  else failedResolver s nid

/-- `lookup_hostname` and `lookup_ip`, which differ in the type. -/
def lookup (s : State) (type : Char) (aft : Family) (addr : Str) : State :=
  let (id, nid) := assignDnsId s
  if nid = 0 then { s with id := id }
  else
    submitDns
      { s with
        id := id
        querytable := update s.querytable nid (some s.fresh)
        fresh := s.fresh + 1
        log := .assigned s.fresh nid :: s.log }
      type nid aft addr

/-- `lookup_hostname`. -/
def lookupHostname (s : State) (aft : Family) (hostname : Str) : State := lookup s 'H' aft hostname

/-- `lookup_ip`. -/
def lookupIp (s : State) (aft : Family) (addr : Str) : State := lookup s 'I' aft addr

/-- `cancel_lookup`. -/
def cancelLookup (s : State) (xid : ℕ) : State :=
  match s.querytable xid with
  | none => s
  | some query =>
    { s with querytable := update s.querytable xid none, log := .cancelled query :: s.log }

/-! ### Answers -/

/-- The parameters of an answer. -/
def params (dnsBuf : Str) : List Str := stringToArray (maxpara + 1) dnsBuf

/-- `parse_dns_reply` for one line, up to a callback. The vector has room for `MAXPARA + 1`
pointers, the last of which is null. The helper is closed when the line is not understood. -/
def parseDnsReply (s : State) (dnsBuf : Str) : State :=
  let parv := params dnsBuf
  if maxpara + 1 < parv.length + 1 then s.outside
  else
    match parv with
    | [] => s.outside
    | command :: rest =>
      if command.head? = some 'R' then
        match rest with
        | [callid, status, aftype, results] => resultsCallback s callid status aftype results
        | _ => { s with dnsHelper := false }
      else if command.head? = some 'A' then { s with nameservers := parv.drop 2 }
      else { s with dnsHelper := false }

/-! ### The steps -/

/-- The steps. -/
inductive Op
  | lookupHostname (aft : Family) (hostname : Str)
  | lookupIp (aft : Family) (addr : Str)
  | cancel (xid : ℕ)
  | reply (dnsBuf : Str)
  | restart (started : Bool)
  | callbackReturns
  deriving DecidableEq

/-- A step. -/
def step (s : State) : Op → Option State
  | .lookupHostname aft hostname => some (lookupHostname s aft hostname)
  | .lookupIp aft addr => some (lookupIp s aft addr)
  | .cancel xid => if xid < dnsIdtableSize then some (cancelLookup s xid) else none
  | .reply dnsBuf => some (parseDnsReply s dnsBuf)
  | .restart started => some { s with dnsHelper := started }
  | .callbackReturns => callbackReturns s

/-- The callback of a query was called. -/
def Answered (query : ℕ) (log : List Event) : Prop :=
  ∃ results status aftype, Event.ran query results status aftype ∈ log

/-- **What happened was safe.** A number is given to a query only if all queries that had it were
answered or cancelled, the callback of a query is called only if it was neither, and nothing is read
or written outside. -/
def Safe : List Event → Prop
  | [] => True
  | .assigned _ nid :: log => (∀ q, .assigned q nid ∈ log → Answered q log ∨ .cancelled q ∈ log) ∧
    Safe log
  | .ran q _ _ _ :: log => (¬Answered q log ∧ .cancelled q ∉ log) ∧ Safe log
  | .cancelled _ :: log => Safe log
  | .outside :: _ => False

/-- **The number in an answer** is not one of an entry outside the table, and not one of a callback
that has not returned. -/
def IdFits (s : State) (lnid : ℤ) : Prop :=
  (dnsIdtableSize : ℤ) < lnid ∨ lnid = 0 ∨
    (lnid % 2 ^ 16).toNat < dnsIdtableSize ∧
      ∀ f ∈ s.running, s.querytable (lnid % 2 ^ 16).toNat = some f.query →
        f.nid ≠ (lnid % 2 ^ 16).toNat

instance (s : State) (lnid : ℤ) : Decidable (IdFits s lnid) :=
  inferInstanceAs (Decidable (_ ∨ _ ∨ _ ∧ _))

/-- The number in an answer, if it is a result with all its parameters. -/
def resultId (dnsBuf : Str) : Option ℤ :=
  match params dnsBuf with
  | [command, callid, _, _, _] => if command.head? = some 'R' then some (strtol16 callid) else none
  | _ => none

/-- **An answer** has at least one parameter and at most `MAXPARA`, and if it is a result, a number
that fits. -/
def ReplyFits (s : State) (dnsBuf : Str) : Prop :=
  0 < (params dnsBuf).length ∧ (params dnsBuf).length ≤ maxpara ∧ ∀ lnid ∈ resultId dnsBuf,
    IdFits s lnid

instance (s : State) (dnsBuf : Str) : Decidable (ReplyFits s dnsBuf) :=
  inferInstanceAs (Decidable (_ ∧ _ ∧ _))

/-- The query whose callback an answer calls. -/
def answers (s : State) (dnsBuf : Str) : Option ℕ :=
  (resultId dnsBuf).bind fun lnid =>
    if (dnsIdtableSize : ℤ) < lnid ∨ lnid = 0 then none else s.querytable (lnid % 2 ^ 16).toNat

/-- The condition on a step. When a callback returns, no other query has its entry. -/
def Meets (s : State) : Op → Prop
  | .reply dnsBuf => ReplyFits s dnsBuf
  | .callbackReturns => ∀ f, s.running.head? = some f → s.querytable f.nid = none ∨
    s.querytable f.nid = some f.query
  | _ => True

/-! ### The invariant -/

/-- The entries, the callbacks that have not returned, and what happened belong together. -/
structure Inv (s : State) : Prop where
  id_lt : s.id < dnsIdtableSize
  zero : s.querytable 0 = none
  entry : ∀ nid q, s.querytable nid = some q → Event.assigned q nid ∈ s.log ∧
    Event.cancelled q ∉ s.log
  answered : ∀ nid q, s.querytable nid = some q → Answered q s.log → ⟨nid, q⟩ ∈ s.running
  waiting : ∀ nid q, Event.assigned q nid ∈ s.log →
    Answered q s.log ∨ Event.cancelled q ∈ s.log ∨ s.querytable nid = some q
  once : ∀ q nid nid', Event.assigned q nid ∈ s.log → Event.assigned q nid' ∈ s.log → nid = nid'
  assigned_lt : ∀ q nid, Event.assigned q nid ∈ s.log → q < s.fresh
  answered_lt : ∀ q, Answered q s.log → q < s.fresh
  cancelled_lt : ∀ q, Event.cancelled q ∈ s.log → q < s.fresh
  running : ∀ f ∈ s.running, Answered f.query s.log
  safe : Safe s.log

theorem nextId_lt (id : ℕ) (h : id < dnsIdtableSize) :
    0 < nextId id ∧ nextId id < dnsIdtableSize := by
  rw [nextId]
  split_ifs with hid
  · refine ⟨Nat.succ_pos id, ?_⟩
    obtain hid | rfl := hid
    · omega
    · decide
  · decide

/-- **A number that is assigned** is in the table, and its entry has no callback. -/
theorem assignLoop_spec {querytable : ℕ → Option ℕ} (loops : ℕ) {id : ℕ} (h : id < dnsIdtableSize) :
    (assignLoop querytable loops id).1 < dnsIdtableSize ∧ ((assignLoop querytable loops id).2 ≠ 0 →
      querytable (assignLoop querytable loops id).2 = none ∧ (assignLoop querytable loops id).2 <
      dnsIdtableSize) := by
  induction loops generalizing id with
  | zero => exact ⟨h, fun hne => absurd rfl hne⟩
  | succ loops ih =>
    have hnext := (nextId_lt id h).2
    rw [assignLoop]
    split_ifs with hnone
    · exact ⟨hnext, fun _ => ⟨hnone, hnext⟩⟩
    · exact ih hnext

section Log

variable {q : ℕ} {log : List Event} {q' : ℕ}

theorem answered_assigned {nid : ℕ} : Answered q (.assigned q' nid :: log) ↔ Answered q log := by
  simp [Answered]

theorem answered_cancelled : Answered q (.cancelled q' :: log) ↔ Answered q log := by
  simp [Answered]

theorem answered_ran {results : Str} {status : ℤ} {aftype : Option Family} :
    Answered q (.ran q' results status aftype :: log) ↔ q = q' ∨ Answered q log := by
  simp only [Answered, mem_cons, Event.ran.injEq]
  constructor
  · rintro ⟨r, st, aft, ⟨rfl, -⟩ | hold⟩
    · exact .inl rfl
    · exact .inr ⟨r, st, aft, hold⟩
  · rintro (rfl | ⟨r, st, aft, hold⟩)
    · exact ⟨results, status, aftype, .inl ⟨rfl, rfl, rfl, rfl⟩⟩
    · exact ⟨r, st, aft, .inr hold⟩

end Log

section Steps

variable {s s' : State} {nid q : ℕ} {op : Op}

/-- Fields that nothing depends on change. -/
theorem Inv.congr (h : Inv s) (hid : s'.id < dnsIdtableSize) (htable : s'.querytable = s.querytable)
    (hrunning : s'.running = s.running) (hfresh : s'.fresh = s.fresh) (hlog : s'.log = s.log) :
    Inv s' := by
  obtain ⟨querytable, id, dnsHelper, nameservers, written, running, fresh, log⟩ := s'
  dsimp only at *
  subst htable hrunning hfresh hlog
  exact ⟨hid, h.zero, h.entry, h.answered, h.waiting, h.once, h.assigned_lt, h.answered_lt,
    h.cancelled_lt, h.running, h.safe⟩

/-- **A callback is called**, of a query whose callback is not running. -/
theorem Inv.call (h : Inv s) (hentry : s.querytable nid = some q) (hnot : ⟨nid, q⟩ ∉ s.running)
    (results : Str) (status : ℤ) (aftype : Option Family) :
    Inv (s.call nid q results status aftype) where
  id_lt := h.id_lt
  zero := h.zero
  entry nid' q' hq := by
    obtain ⟨hassigned, hcancelled⟩ := h.entry nid' q' hq
    exact ⟨mem_cons_of_mem _ hassigned, by simpa [State.call] using hcancelled⟩
  answered nid' q' hq hanswered := by
    obtain rfl | hold := answered_ran.mp hanswered
    · obtain rfl := h.once q' nid' nid (h.entry nid' q' hq).1 (h.entry nid q' hentry).1
      exact mem_cons_self
    · exact mem_cons_of_mem _ (h.answered nid' q' hq hold)
  waiting nid' q' hassigned := by
    have hassigned : Event.assigned q' nid' ∈ s.log := by simpa [State.call] using hassigned
    obtain hanswered | hcancelled | hq := h.waiting nid' q' hassigned
    · exact .inl (answered_ran.mpr (.inr hanswered))
    · exact .inr (.inl (mem_cons_of_mem _ hcancelled))
    · exact .inr (.inr hq)
  once q' nid' nid'' h' h'' := h.once q' nid' nid'' (by simpa [State.call] using h')
    (by simpa [State.call] using h'')
  assigned_lt q' nid' hassigned := h.assigned_lt q' nid' (by simpa [State.call] using hassigned)
  answered_lt q' hanswered := by
    obtain rfl | hold := answered_ran.mp hanswered
    · exact h.assigned_lt q' nid (h.entry nid q' hentry).1
    · exact h.answered_lt q' hold
  cancelled_lt q' hcancelled := h.cancelled_lt q' (by simpa [State.call] using hcancelled)
  running f hf := by
    obtain rfl | hold := mem_cons.mp hf
    · exact answered_ran.mpr (.inl rfl)
    · exact answered_ran.mpr (.inr (h.running f hold))
  safe := ⟨⟨fun hanswered => hnot (h.answered nid q hentry hanswered), (h.entry nid q hentry).2⟩,
    h.safe⟩

/-- **A query gets a number** whose entry has no callback. -/
theorem Inv.assign (h : Inv s) (hnone : s.querytable nid = none) (hpos : nid ≠ 0)
    {id : ℕ} (hid : id < dnsIdtableSize) :
    Inv { s with
      id := id
      querytable := update s.querytable nid (some s.fresh)
      fresh := s.fresh + 1
      log := .assigned s.fresh nid :: s.log } where
  id_lt := hid
  zero := (update_of_ne hpos.symm ..).trans h.zero
  entry nid' q' hq := by
    dsimp only at hq ⊢
    by_cases hnid : nid' = nid
    · subst hnid
      rw [update_self] at hq
      cases hq
      refine ⟨mem_cons_self, fun hcancelled => ?_⟩
      exact absurd (h.cancelled_lt s.fresh (by simpa using hcancelled)) (lt_irrefl _)
    · rw [update_of_ne hnid] at hq
      obtain ⟨hassigned, hcancelled⟩ := h.entry nid' q' hq
      exact ⟨mem_cons_of_mem _ hassigned, by simpa using hcancelled⟩
  answered nid' q' hq hanswered := by
    dsimp only at hq
    rw [answered_assigned] at hanswered
    by_cases hnid : nid' = nid
    · subst hnid
      rw [update_self] at hq
      cases hq
      exact absurd (h.answered_lt s.fresh hanswered) (lt_irrefl _)
    · rw [update_of_ne hnid] at hq
      exact h.answered nid' q' hq hanswered
  waiting nid' q' hassigned := by
    dsimp only at hassigned ⊢
    rw [answered_assigned]
    obtain heq | hold := mem_cons.mp hassigned
    · obtain ⟨rfl, rfl⟩ := Event.assigned.inj heq
      exact .inr (.inr (update_self ..))
    · obtain hanswered | hcancelled | hq := h.waiting nid' q' hold
      · exact .inl hanswered
      · exact .inr (.inl (mem_cons_of_mem _ hcancelled))
      · refine .inr (.inr ?_)
        rw [update_of_ne (fun heq => by rw [heq, hnone] at hq; exact absurd hq (by simp)), hq]
  once q' nid' nid'' h' h'' := by
    obtain heq | hold := mem_cons.mp h'
    · obtain heq' | hold' := mem_cons.mp h''
      · exact (Event.assigned.inj heq).2.trans (Event.assigned.inj heq').2.symm
      · exact absurd (h.assigned_lt q' nid''
          hold') (by rw [(Event.assigned.inj heq).1]; exact lt_irrefl _)
    · obtain heq' | hold' := mem_cons.mp h''
      · exact absurd (h.assigned_lt q' nid' hold)
          (by rw [(Event.assigned.inj heq').1]; exact lt_irrefl _)
      · exact h.once q' nid' nid'' hold hold'
  assigned_lt q' nid' hassigned := by
    obtain heq | hold := mem_cons.mp hassigned
    · rw [(Event.assigned.inj heq).1]
      exact Nat.lt_succ_self _
    · exact Nat.lt_succ_of_lt (h.assigned_lt q' nid' hold)
  answered_lt q' hanswered := Nat.lt_succ_of_lt (h.answered_lt q' (answered_assigned.mp hanswered))
  cancelled_lt q' hcancelled := Nat.lt_succ_of_lt (h.cancelled_lt q' (by simpa using hcancelled))
  running f hf := answered_assigned.mpr (h.running f hf)
  safe := by
    refine ⟨fun q' hassigned => ?_, h.safe⟩
    obtain hanswered | hcancelled | hq := h.waiting nid q' hassigned
    · exact .inl hanswered
    · exact .inr hcancelled
    · cases hnone.symm.trans hq

theorem update_none {table : ℕ → Option ℕ} {k : ℕ} (h : table k = none) (xid : ℕ) :
    update table xid none k = none := by
  by_cases hk : k = xid
  · rw [hk, update_self]
  · rw [update_of_ne hk, h]

/-- **A query is cancelled.** -/
theorem Inv.cancelLookup (h : Inv s) (xid : ℕ) : Inv (cancelLookup s xid) := by
  rw [Resolver.cancelLookup]
  cases hentry : s.querytable xid with
  | none => exact h
  | some q =>
    have hold : ∀ {nid' q'}, update s.querytable xid none nid' = some q' →
        nid' ≠ xid ∧ s.querytable nid' = some q' := by
      intro nid' q' hq
      by_cases hnid : nid' = xid
      · rw [hnid, update_self] at hq
        cases hq
      · exact ⟨hnid, by rwa [update_of_ne hnid] at hq⟩
    refine ⟨h.id_lt, update_none h.zero _, fun nid' q' hq => ?_, fun nid' q' hq hanswered => ?_,
      fun nid' q' hassigned => ?_, fun q' nid' nid'' h' h'' => h.once q' nid' nid''
        (by simpa using h') (by simpa using h''),
      fun q' nid' hassigned => h.assigned_lt q' nid' (by simpa using hassigned),
      fun q' hanswered => h.answered_lt q' (answered_cancelled.mp hanswered), fun q' hcancelled =>
        ?_,
      fun f hf => answered_cancelled.mpr (h.running f hf), h.safe⟩
    · obtain ⟨hne, hq⟩ := hold hq
      obtain ⟨hassigned, hcancelled⟩ := h.entry nid' q' hq
      refine ⟨mem_cons_of_mem _ hassigned, fun hmem => ?_⟩
      obtain heq | hmem := mem_cons.mp hmem
      · obtain rfl := Event.cancelled.inj heq
        exact hne (h.once q' nid' xid hassigned (h.entry xid q' hentry).1)
      · exact hcancelled hmem
    · exact h.answered nid' q' (hold hq).2 (answered_cancelled.mp hanswered)
    · dsimp only
      rw [answered_cancelled]
      obtain hanswered | hcancelled | hq := h.waiting nid' q' (by simpa using hassigned)
      · exact .inl hanswered
      · exact .inr (.inl (mem_cons_of_mem _ hcancelled))
      · by_cases hnid : nid' = xid
        · cases hq.symm.trans (hnid ▸ hentry)
          exact .inr (.inl mem_cons_self)
        · exact .inr (.inr (by rw [update_of_ne hnid, hq]))
    · obtain heq | hmem := mem_cons.mp hcancelled
      · obtain rfl := Event.cancelled.inj heq
        exact h.assigned_lt q' xid (h.entry xid q' hentry).1
      · exact h.cancelled_lt q' hmem

/-- **A callback returns**, when no other query has its entry. -/
theorem Inv.callbackReturns (h : Inv s) (hmeets : Meets s .callbackReturns)
    (hs' : callbackReturns s = some s') :
    Inv s' := by
  rw [Resolver.callbackReturns] at hs'
  cases hrunning : s.running with
  | nil =>
    rw [hrunning] at hs'
    cases hs'
  | cons f running =>
    rw [hrunning] at hs'
    cases hs'
    have hown := hmeets f (by rw [hrunning]; rfl)
    have hold : ∀ {nid' q'}, update s.querytable f.nid none nid' = some q' →
        nid' ≠ f.nid ∧ s.querytable nid' = some q' := by
      intro nid' q' hq
      by_cases hnid : nid' = f.nid
      · rw [hnid, update_self] at hq
        cases hq
      · exact ⟨hnid, by rwa [update_of_ne hnid] at hq⟩
    refine ⟨h.id_lt, update_none h.zero _, fun nid' q' hq => h.entry nid' q' (hold hq).2,
      fun nid' q' hq hanswered => ?_,
      fun nid' q' hassigned => ?_, h.once, h.assigned_lt, h.answered_lt, h.cancelled_lt,
        fun g hg => ?_, h.safe⟩
    · obtain ⟨hne, hq⟩ := hold hq
      have hmem := h.answered nid' q' hq hanswered
      rw [hrunning] at hmem
      refine (mem_cons.mp hmem).resolve_left fun heq => hne ?_
      rw [← heq]
    · obtain hanswered | hcancelled | hq := h.waiting nid' q' hassigned
      · exact .inl hanswered
      · exact .inr (.inl hcancelled)
      · by_cases hnid : nid' = f.nid
        · obtain hnone | hsome := hown
          · exact absurd (hq.symm.trans (hnid ▸ hnone)) (by simp)
          · cases (hnid ▸ hq).symm.trans hsome
            exact .inl (h.running f (by rw [hrunning]; exact mem_cons_self))
        · exact .inr (.inr (by dsimp only; rw [update_of_ne hnid, hq]))
    · exact h.running g (by rw [hrunning]; exact mem_cons_of_mem _ hg)

theorem Inv.submitDns (h : Inv s) (hentry : s.querytable nid = some q) (hnot : ⟨nid, q⟩ ∉ s.running)
    (type : Char) (aft : Family) (addr : Str) : Inv (submitDns s type nid aft addr) := by
  rw [Resolver.submitDns]
  by_cases hhelper : s.dnsHelper = true
  · rw [if_pos hhelper]
    exact h.congr h.id_lt rfl rfl rfl rfl
  · have hfailed : failedResolver s nid = s.call nid q "FAILED".toList 0 none := by
      simp only [failedResolver, hentry]
    rw [if_neg hhelper, hfailed]
    exact h.call hentry hnot _ _ _

/-- **A lookup.** -/
theorem Inv.lookup (h : Inv s) (type : Char) (aft : Family) (addr : Str) :
    Inv (lookup s type aft addr) := by
  obtain ⟨hid, hnid⟩ := assignLoop_spec dnsIdtableSize h.id_lt
  rw [Resolver.lookup, assignDnsId]
  dsimp only
  split_ifs with hzero
  · exact h.congr hid rfl rfl rfl rfl
  · refine (h.assign (hnid hzero).1 hzero hid).submitDns (q := s.fresh) (update_self ..)
      (fun hmem => ?_) type aft addr
    exact absurd (h.answered_lt s.fresh (h.running _ hmem)) (lt_irrefl _)

/-- What an answer leads to: nothing that matters, a result, or an access outside. -/
theorem parseDnsReply_cases (s : State) (dnsBuf : Str) :
    ((params dnsBuf).length = 0 ∨ maxpara < (params dnsBuf).length) ∧ parseDnsReply s dnsBuf =
      s.outside ∨ (0 < (params dnsBuf).length ∧ (params dnsBuf).length ≤ maxpara) ∧
        ((∃ callid status aftype results, resultId dnsBuf = some (strtol16 callid) ∧
            parseDnsReply s dnsBuf = resultsCallback s callid status aftype results) ∨
          resultId dnsBuf = none ∧ ∃ dnsHelper nameservers,
            parseDnsReply s dnsBuf = { s with
              dnsHelper := dnsHelper, nameservers := nameservers }) := by
  rw [parseDnsReply]
  by_cases hlong : maxpara + 1 < (params dnsBuf).length + 1
  · rw [if_pos hlong]
    exact .inl ⟨.inr (Nat.lt_of_succ_lt_succ hlong), rfl⟩
  rw [if_neg hlong, resultId]
  cases hparams : params dnsBuf with
  | nil => exact .inl ⟨.inl rfl, rfl⟩
  | cons command rest =>
    rw [hparams] at hlong
    refine .inr ⟨⟨Nat.succ_pos _, by omega⟩, ?_⟩
    dsimp only
    by_cases hR : command.head? = some 'R'
    · rw [if_pos hR]
      match rest with
      | [callid, status, aftype, results] => exact .inl ⟨callid, status, aftype, results, if_pos hR,
        rfl⟩
      | [] | [_] | [_, _] | [_, _, _] | _ :: _ :: _ :: _ :: _ :: _ =>
        exact .inr ⟨rfl, false, s.nameservers, rfl⟩
    · rw [if_neg hR]
      refine .inr ⟨?_, ?_⟩
      · match rest with
        | [_, _, _, _] => exact if_neg hR
        | [] | [_] | [_, _] | [_, _, _] | _ :: _ :: _ :: _ :: _ :: _ => rfl
      · split_ifs
        · exact ⟨s.dnsHelper, _, rfl⟩
        · exact ⟨false, s.nameservers, rfl⟩

/-- **A result** whose number fits. -/
theorem Inv.resultsCallback (h : Inv s) {callid : Str} (hfits : IdFits s (strtol16 callid))
    (status aftype results : Str) :
    Inv (resultsCallback s callid status aftype results) := by
  rw [Resolver.resultsCallback]
  dsimp only
  by_cases hid : (dnsIdtableSize : ℤ) < strtol16 callid ∨ strtol16 callid = 0
  · rw [if_pos hid]
    exact h
  rw [if_neg hid]
  replace hfits := (or_assoc.mpr hfits).resolve_left hid
  rw [if_neg (not_le.mpr hfits.1)]
  cases hentry : s.querytable (strtol16 callid % 2 ^ 16).toNat with
  | none => exact h
  | some q => exact h.call hentry (fun hmem => hfits.2 _ hmem hentry rfl) _ _ _

/-- **An answer that fits.** -/
theorem Inv.parseDnsReply (h : Inv s) {dnsBuf : Str} (hfits : ReplyFits s dnsBuf) :
    Inv (parseDnsReply s dnsBuf) := by
  obtain ⟨hpos, hle, hid⟩ := hfits
  obtain ⟨hbad, -⟩ | ⟨-, ⟨callid, status, aftype, results, hresult, heq⟩ | ⟨-, dnsHelper,
    nameservers, heq⟩⟩ :=
    parseDnsReply_cases s dnsBuf
  · omega
  · rw [heq]
    exact h.resultsCallback (hid _ hresult) status aftype results
  · rw [heq]
    exact h.congr h.id_lt rfl rfl rfl rfl

/-- **An answer that does not fit is not safe**: it leads outside, or to a callback that was
called. -/
theorem not_safe_of_reply (h : Inv s) {dnsBuf : Str} (hfits : ¬ReplyFits s dnsBuf) :
    ¬Safe (parseDnsReply s dnsBuf).log := by
  obtain ⟨-, heq⟩ | ⟨⟨hpos, hle⟩, hcases⟩ := parseDnsReply_cases s dnsBuf
  · rw [heq]
    exact id
  · have hid : ∃ lnid ∈ resultId dnsBuf, ¬IdFits s lnid := by
      by_contra hall
      push Not at hall
      exact hfits ⟨hpos, hle, hall⟩
    obtain ⟨lnid, hlnid, hnot⟩ := hid
    obtain ⟨callid, status, aftype, results, hresult, heq⟩ | ⟨hnone, -⟩ := hcases
    · cases hlnid.symm.trans hresult
      rw [IdFits, not_or, not_or] at hnot
      obtain ⟨hbig, hzero, hentry⟩ := hnot
      rw [heq, resultsCallback]
      dsimp only
      rw [if_neg (not_or.mpr ⟨hbig, hzero⟩)]
      by_cases hnid : dnsIdtableSize ≤ (strtol16 callid % 2 ^ 16).toNat
      · rw [if_pos hnid]
        exact id
      · rw [if_neg hnid]
        rw [not_and] at hentry
        have hrunning := hentry (not_le.mp hnid)
        push Not at hrunning
        obtain ⟨f, hf, hquery, -⟩ := hrunning
        rw [hquery]
        exact fun hsafe => hsafe.1.1 (h.running f hf)
    · cases hlnid.symm.trans hnone

/-- **A step that meets the condition is safe.** -/
theorem Inv.step (h : Inv s) (hmeets : Meets s op) (hs' : step s op = some s') : Inv s' := by
  cases op with
  | lookupHostname aft hostname =>
    cases hs'
    exact h.lookup 'H' aft hostname
  | lookupIp aft addr =>
    cases hs'
    exact h.lookup 'I' aft addr
  | cancel xid =>
    rw [step] at hs'
    split_ifs at hs'
    cases hs'
    exact h.cancelLookup xid
  | reply dnsBuf =>
    cases hs'
    exact h.parseDnsReply hmeets
  | restart started =>
    cases hs'
    exact h.congr h.id_lt rfl rfl rfl rfl
  | callbackReturns => exact h.callbackReturns hmeets hs'

end Steps

/-! ### The queries that wait -/

/-- A query waits for its answer. -/
def State.Waiting (s : State) (nid q : ℕ) : Prop := s.querytable nid = some q ∧ ¬Answered q s.log

/-- An event is not the call of a callback. -/
def Event.Quiet : Event → Prop
  | .ran .. => False
  | _ => True

/-- **What a step does to the queries that wait**: it calls no callback, or that of one query, which
is new or waited. -/
inductive Effect (s s' : State) : Option ℕ → Prop
  | quiet (new : List Event) (hnew : ∀ e ∈ new, e.Quiet) (hlog : s'.log = new ++ s.log)
      (hfresh : s.fresh ≤ s'.fresh) (hwaiting : ∀ n q, s'.Waiting n q → s.Waiting n q ∨
        s.fresh ≤ q) : Effect s s' none
  | called (q : ℕ) (results : Str) (status : ℤ) (aftype : Option Family) (new : List Event)
      (hnew : ∀ e ∈ new, e.Quiet)
      (hlog : s'.log = .ran q results status aftype :: new ++ s.log) (hfresh : s.fresh ≤ s'.fresh)
      (hq : s.fresh ≤ q ∨ ∃ n, s.Waiting n q)
      (hwaiting : ∀ n q', s'.Waiting n q' → q' ≠ q ∧ (s.Waiting n q' ∨ s.fresh ≤ q')) :
        Effect s s' (some q)

section Waiting

variable {s s' : State} {n nid q q' : ℕ} {op : Op}

theorem Inv.waiting_lt (h : Inv s) (hwaiting : s.Waiting n q) : q < s.fresh :=
  h.assigned_lt q n (h.entry n q hwaiting.1).1

theorem waiting_call {results : Str} {status : ℤ} {aftype : Option Family} :
    (s.call nid q results status aftype).Waiting n q' ↔ s.Waiting n q' ∧ q' ≠ q := by
  rw [State.Waiting, State.Waiting, State.call, answered_ran, not_or, and_assoc]
  exact and_congr_right fun _ => and_comm

/-- A query is cancelled by its number. -/
theorem waiting_cancelLookup {xid : ℕ} :
    (cancelLookup s xid).Waiting n q ↔ n ≠ xid ∧ s.Waiting n q := by
  rw [cancelLookup]
  cases hentry : s.querytable xid with
  | none =>
    refine ⟨fun h => ⟨?_, h⟩, And.right⟩
    rintro rfl
    cases hentry.symm.trans h.1
  | some q' =>
    rw [State.Waiting, State.Waiting, answered_cancelled]
    by_cases hn : n = xid
    · simp [hn]
    · simp [hn]

theorem log_cancelLookup (s : State) (xid : ℕ) :
    ∃ new, (∀ e ∈ new, e.Quiet) ∧ (cancelLookup s xid).log = new ++ s.log := by
  rw [cancelLookup]
  cases s.querytable xid with
  | none => exact ⟨[], by simp, rfl⟩
  | some q => exact ⟨[.cancelled q], by simp [Event.Quiet], rfl⟩

theorem fresh_cancelLookup (s : State) (xid : ℕ) : (cancelLookup s xid).fresh = s.fresh := by
  rw [cancelLookup]
  cases s.querytable xid <;> rfl

theorem fresh_submitDns (s : State) (type : Char) (nid : ℕ) (aft : Family) (addr : Str) :
    (submitDns s type nid aft addr).fresh = s.fresh := by
  rw [submitDns]
  by_cases hhelper : s.dnsHelper = true
  · rw [if_pos hhelper]
  · rw [if_neg hhelper, failedResolver]
    cases s.querytable nid <;> rfl

theorem fresh_lookup (s : State) (type : Char) (aft : Family) (addr : Str) :
    (lookup s type aft addr).fresh = if (assignDnsId s).2 = 0 then s.fresh else s.fresh + 1 := by
  rw [lookup]
  dsimp only
  split_ifs
  · rfl
  · exact fresh_submitDns ..

/-- The state when a query has got a number. -/
def State.assigned (s : State) : State :=
  { s with
    id := (assignDnsId s).1
    querytable := update s.querytable (assignDnsId s).2 (some s.fresh)
    fresh := s.fresh + 1
    log := .assigned s.fresh (assignDnsId s).2 :: s.log }

theorem waiting_assigned (hwait : s.assigned.Waiting n q) :
    s.Waiting n q ∨ q = s.fresh ∧ n = (assignDnsId s).2 := by
  obtain ⟨hentry, hnot⟩ := hwait
  rw [State.assigned, answered_assigned] at hnot
  rw [State.assigned] at hentry
  dsimp only at hentry
  by_cases hn : n = (assignDnsId s).2
  · rw [hn, update_self] at hentry
    exact .inr ⟨(some.inj hentry).symm, hn⟩
  · rw [update_of_ne hn] at hentry
    exact .inl ⟨hentry, hnot⟩

/-- A lookup fails at once when there is no helper. -/
theorem lookup_of_no_helper (hhelper : s.dnsHelper = false) (hzero : (assignDnsId s).2 ≠ 0)
    (type : Char) (aft : Family)
    (addr : Str) : lookup s type aft addr = s.assigned.call (assignDnsId s).2 s.fresh
    "FAILED".toList 0 none := by
  rw [lookup]
  dsimp only
  rw [if_neg hzero, submitDns, if_neg (by simp [hhelper]), failedResolver]
  dsimp only
  rw [update_self]
  rfl

/-- **What a lookup does**: the new query waits, or there was no number, or its callback is
called. -/
theorem lookup_effect (type : Char) (aft : Family) (addr : Str) :
    (∃ new, (∀ e ∈ new, e.Quiet) ∧ (lookup s type aft addr).log = new ++ s.log ∧
        ∀ n q, (lookup s type aft addr).Waiting n q → s.Waiting n q ∨ q = s.fresh ∧
        n = (assignDnsId s).2) ∨
      s.dnsHelper = false ∧ (assignDnsId s).2 ≠ 0 ∧
        (lookup s type aft addr).log =
          [.ran s.fresh "FAILED".toList 0 none, .assigned s.fresh (assignDnsId s).2] ++ s.log ∧
        ∀ n q, (lookup s type aft addr).Waiting n q → s.Waiting n q := by
  by_cases hzero : (assignDnsId s).2 = 0
  · rw [lookup]
    dsimp only
    rw [if_pos hzero]
    exact .inl ⟨[], by simp, rfl, fun n q hwaiting => .inl hwaiting⟩
  by_cases hhelper : s.dnsHelper = true
  · rw [lookup]
    dsimp only
    rw [if_neg hzero, submitDns, if_pos hhelper]
    refine .inl ⟨[.assigned s.fresh (assignDnsId s).2], ?_, rfl, fun n q hwaiting =>
      waiting_assigned hwaiting⟩
    simp [Event.Quiet]
  · have hhelper := Bool.not_eq_true _ ▸ hhelper
    rw [lookup_of_no_helper hhelper hzero]
    refine .inr ⟨hhelper, hzero, rfl, fun n q hwaiting => ?_⟩
    obtain ⟨hwaiting, hne⟩ := waiting_call.mp hwaiting
    exact (waiting_assigned hwaiting).resolve_right fun heq => hne heq.1

theorem effect_lookup (h : Inv s) (type : Char) (aft : Family) (addr : Str) :
    ∃ called, Effect s (lookup s type aft addr) called ∧ ∀ q ∈ called, s.fresh ≤ q := by
  have hfresh : s.fresh ≤ (lookup s type aft addr).fresh := by
    rw [fresh_lookup]
    split_ifs <;> omega
  obtain ⟨new, hnew, hlog, hwaiting⟩ | ⟨-, -, hlog, hwaiting⟩ := lookup_effect type aft addr
  · refine ⟨none, .quiet new hnew hlog hfresh fun n q hwait => ?_, by simp⟩
    exact (hwaiting n q hwait).imp_right fun heq => heq.1.ge
  · refine ⟨_, .called s.fresh _ _ _ [.assigned s.fresh (assignDnsId s).2] (by simp [Event.Quiet])
      hlog hfresh (.inl le_rfl) fun n q hwait => ⟨?_, .inl (hwaiting n q hwait)⟩, by simp⟩
    exact (h.waiting_lt (hwaiting n q hwait)).ne

/-- **What an answer does.** -/
theorem effect_parseDnsReply (h : Inv s) {dnsBuf : Str} (hfits : ReplyFits s dnsBuf) :
    Effect s (parseDnsReply s dnsBuf) (answers s dnsBuf) := by
  obtain ⟨hpos, hle, hid⟩ := hfits
  obtain ⟨hbad, -⟩ | ⟨-, ⟨callid, status, aftype, results, hresult, heq⟩ | ⟨hnone, dnsHelper,
    nameservers, heq⟩⟩ :=
    parseDnsReply_cases s dnsBuf
  · omega
  · rw [heq, resultsCallback, answers, hresult, bind_some]
    have hid := hid _ hresult
    dsimp only
    by_cases hzero : (dnsIdtableSize : ℤ) < strtol16 callid ∨ strtol16 callid = 0
    · rw [if_pos hzero, if_pos hzero]
      exact .quiet [] (by simp) rfl le_rfl fun n q hwait => .inl hwait
    · rw [if_neg hzero, if_neg hzero]
      replace hid := (or_assoc.mpr hid).resolve_left hzero
      rw [if_neg (not_le.mpr hid.1)]
      cases hentry : s.querytable (strtol16 callid % 2 ^ 16).toNat with
      | none => exact .quiet [] (by simp) rfl le_rfl fun n q hwait => .inl hwait
      | some q =>
        refine .called q _ _ _ [] (by simp) rfl le_rfl (.inr ⟨_, hentry, fun hanswered => ?_⟩)
          fun n q' hwait => ?_
        · exact hid.2 _ (h.answered _ _ hentry hanswered) hentry rfl
        · obtain ⟨hwait, hne⟩ := waiting_call.mp hwait
          exact ⟨hne, .inl hwait⟩
  · rw [heq, answers, hnone, bind_none]
    exact .quiet [] (by simp) rfl le_rfl fun n q hwait => .inl hwait

/-- **What a step does.** A callback that is called is that of a query that waited only if an answer
calls it. -/
theorem step_effect (h : Inv s) (hmeets : Meets s op) (hs' : step s op = some s') :
    ∃ called, Effect s s' called ∧ ∀ q ∈ called, s.fresh ≤ q ∨ ∃ dnsBuf, op = .reply dnsBuf ∧
    answers s dnsBuf = some q := by
  cases op with
  | lookupHostname aft hostname =>
    cases hs'
    obtain ⟨called, heffect, hfresh⟩ := effect_lookup h 'H' aft hostname
    exact ⟨called, heffect, fun q hq => .inl (hfresh q hq)⟩
  | lookupIp aft addr =>
    cases hs'
    obtain ⟨called, heffect, hfresh⟩ := effect_lookup h 'I' aft addr
    exact ⟨called, heffect, fun q hq => .inl (hfresh q hq)⟩
  | cancel xid =>
    rw [step] at hs'
    split_ifs at hs'
    cases hs'
    obtain ⟨new, hnew, hlog⟩ := log_cancelLookup s xid
    exact ⟨none, .quiet new hnew hlog (fresh_cancelLookup s xid).ge fun n q hwait => .inl
      (waiting_cancelLookup.mp hwait).2, by simp⟩
  | reply dnsBuf =>
    cases hs'
    exact ⟨_, effect_parseDnsReply h hmeets, fun q hq => .inr ⟨dnsBuf, rfl, hq⟩⟩
  | restart started =>
    cases hs'
    exact ⟨none, .quiet [] (by simp) rfl le_rfl fun n q hwait => .inl hwait, by simp⟩
  | callbackReturns =>
    rw [step, callbackReturns] at hs'
    cases hrunning : s.running with
    | nil =>
      rw [hrunning] at hs'
      cases hs'
    | cons f running =>
      rw [hrunning] at hs'
      cases hs'
      refine ⟨none, .quiet [] (by simp) rfl le_rfl ?_, by simp⟩
      rintro n q ⟨hentry, hnot⟩
      refine .inl ⟨?_, hnot⟩
      dsimp only at hentry
      by_cases hn : n = f.nid
      · rw [hn, update_self] at hentry
        cases hentry
      · rwa [update_of_ne hn] at hentry

end Waiting

theorem inv_start (dnsHelper : Bool) : Inv (State.start dnsHelper) where
  id_lt := show 1 < dnsIdtableSize by decide
  zero := rfl
  entry := by simp [State.start]
  answered := by simp [State.start]
  waiting := by simp [State.start]
  once := by simp [State.start]
  assigned_lt := by simp [State.start]
  answered_lt := by simp [State.start, Answered]
  cancelled_lt := by simp [State.start]
  running := by simp [State.start]
  safe := trivial

/-- **The resolver.** In every run whose steps meet the condition, what happens is safe in every
state that is reached; and after such a run an answer that does not meet it is not safe. -/
theorem resolver_safe {dnsHelper : Bool} {ops : List Op}
    (hmeets : StepsMeet step Meets (State.start dnsHelper) ops) :
    Always step (fun s => Safe s.log) (State.start dnsHelper) ops ∧
      ∀ s dnsBuf, run step (State.start dnsHelper) ops = some s → ¬ReplyFits s dnsBuf →
      ¬Safe (parseDnsReply s dnsBuf).log :=
  ⟨always_of_stepsMeet Inv (fun _ h => h.safe) (fun _ _ _ h hok hs' => h.step hok hs')
    (inv_start dnsHelper) hmeets, fun _ _ hrun hfits => not_safe_of_reply
      (invariant Inv (fun _ _ _ h hok hs' => h.step hok hs') (inv_start dnsHelper) hmeets hrun)
        hfits⟩

/-- A lookup, its answer, and the return of its callback. -/
def answeredOnce : List Op :=
  [.lookupHostname .inet ['a'], .reply "R 2 1 4 x".toList, .callbackReturns]

theorem resolver_safe_small :
    Always step (fun s => Safe s.log) (State.start true) answeredOnce := by
  suffices hops : StepsMeet step Meets (State.start true) answeredOnce from (resolver_safe hops).1
  refine ⟨trivial, ?_⟩
  rintro _ ⟨⟩
  refine ⟨show ReplyFits _ _ by decide, ?_⟩
  rintro _ ⟨⟩
  refine ⟨?_, fun _ _ => trivial⟩
  rintro _ ⟨⟩
  exact .inr rfl

/-- A number behind the last one, a negative one, sixteen parameters, none, and a result for a
callback that has not returned. -/
theorem reply_not_safe : ¬Safe (parseDnsReply (State.start true) "R 2000 1 4 x".toList).log ∧
    ¬Safe (parseDnsReply (State.start true) "R -1 1 4 x".toList).log ∧
    ¬Safe (parseDnsReply (State.start true) "A b c d e f g h i j k l m n o p".toList).log ∧
    ¬Safe (parseDnsReply (State.start true) " ".toList).log ∧
    ∃ s, run step (State.start true) [.lookupHostname .inet ['a'], .reply "R 2 1 4 x".toList,
      .reply "R 2 1 4 y".toList] = some s ∧ ¬Safe s.log := by
  refine ⟨id, id, id, id, ?_⟩
  have hrun : (run step (State.start true)
      [.lookupHostname .inet ['a'], .reply "R 2 1 4 x".toList, .reply "R 2 1 4 y".toList]).map
        State.log =
      some [.ran 0 ['y'] 1 (some .inet), .ran 0 ['x'] 1 (some .inet), .assigned 0 2] := rfl
  obtain ⟨s, hs, hlog⟩ := map_eq_some_iff.mp hrun
  refine ⟨s, hs, ?_⟩
  rw [hlog]
  exact fun hsafe => hsafe.1.1 ⟨_, _, _, mem_cons_self⟩

end Ratbox.Resolver
