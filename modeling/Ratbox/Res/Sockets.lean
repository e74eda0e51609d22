import Ratbox.Lib.Handles
import Ratbox.Res.Delivery

/-!
# The sockets of a request

A request is sent to name servers over sockets of its own, one for each family, which are closed
when it is removed. The socket for IPv4 is opened when there is none; the one for IPv6 is opened for
each name server that the request is sent to, so that the one before is never closed.

Source: `resolver/res.c`, lines 177–200, 270–305, 325–437 and 566–640.

## Main definitions

* `Res.randomSocket`, `Res.Life.sendResMsg`: `random_socket` and `send_res_msg`, with what the
  system calls give.
* `Res.Life`, `Res.Life.step`: a request and what happens to it.
* `Res.Life.Spares`: no name server is tried over IPv6 when there is a socket for IPv6.

## Main results

* `Res.Life.follows_submit`, `Res.Life.Follows.timeoutRequest`: the requests of the resolver go
  these steps.
* `Res.Life.closed_iff`: when each socket is closed once the request is removed.
-/

namespace Ratbox.Res

open Address Run List Option

/-! ### Sending -/

/-- How `random_socket` ends: `rb_socket` fails, no port can be bound in ten attempts, or there is a
socket. -/
inductive Opening
  | failed
  | unbound
  | bound
  deriving DecidableEq

/-- A name server on `irc_nsaddr_list` when it is tried: its family, and what `random_socket` and
`sendto` would give. -/
structure Try where
  family : Family
  socket : Opening
  sendto : Bool
  deriving DecidableEq

/-- `random_socket`. -/
def randomSocket (fds : Handles) : Opening → Option ℕ × Handles
  | .failed => (none, fds)
  | .unbound => (none, fds.acquire.release fds.next)
  | .bound => (some fds.next, fds.acquire)

/-- The variables of `send_res_msg`: `sent`, `request->ipv4_F`, `request->ipv6_F`, and the
sockets. -/
structure Sending where
  sent : ℕ
  ipv4F : Option ℕ
  ipv6F : Option ℕ
  fds : Handles
  deriving DecidableEq

/-- The first half of the body of the loop of `send_res_msg`: `F`. -/
def getSocket (s : Sending) (t : Try) : Option ℕ × Sending :=
  match t.family with
  | .inet =>
    match s.ipv4F with
    | none => ((randomSocket s.fds t.socket).1,
        { s with ipv4F := (randomSocket s.fds t.socket).1, fds := (randomSocket s.fds t.socket).2 })
    | some F => (some F, s)
  | .inet6 => ((randomSocket s.fds t.socket).1,
      { s with ipv6F := (randomSocket s.fds t.socket).1, fds := (randomSocket s.fds t.socket).2 })

/-- The body of the loop of `send_res_msg`. -/
def trySend (s : Sending) (t : Try) : Sending :=
  match getSocket s t with
  | (none, s) => s
  | (some _, s) => if t.sendto then { s with sent := s.sent + 1 } else s

/-- The loop of `send_res_msg`. -/
def sendLoop (maxQueries : ℕ) : List Try → Sending → Sending
  | [], s => s
  | t :: ts, s => if s.sent < maxQueries then sendLoop maxQueries ts (trySend s t) else s

/-- `max_queries`. -/
def maxQueries (nscount rcount : ℕ) : ℕ := if min nscount rcount = 0 then 1 else min nscount rcount

/-- A `struct reslist` with its sockets. -/
structure Request extends Reslist where
  ipv4F : Option ℕ
  ipv6F : Option ℕ
  deriving DecidableEq

/-- A request without its names and its address. -/
def Reslist.bare (r : Reslist) : Reslist := { r with queryname := [], addr := none, name := none }

/-- A request, unless it was removed, and the sockets that were opened for it. -/
structure Life where
  request : Option Request
  fds : Handles
  deriving DecidableEq

/-- A message that `irc_res_mkquery` has made: the id that is drawn for it, and
`irc_nsaddr_list`. -/
structure Message where
  id : ℕ
  servers : List Try

namespace Life

/-- `send_res_msg`, with the request at the start of the loop. -/
def sendStart (r : Request) (fds : Handles) : Sending := ⟨0, r.ipv4F, r.ipv6F, fds⟩

/-- `send_res_msg`. -/
def sendResMsg (r : Request) (ts : List Try) (fds : Handles) : Life :=
  let s := sendLoop (maxQueries ts.length r.sends) ts (sendStart r fds)
  ⟨some { r with ipv4F := s.ipv4F, ipv6F := s.ipv6F }, s.fds⟩

/-- `query_name`. -/
def queryName (r : Request) (fds : Handles) : Option Message → Life
  | none => ⟨some r, fds⟩
  | some m => sendResMsg { r with id := m.id, sends := r.sends + 1 } m.servers fds

/-- `resend_query`. The name that is looked up is the one that was looked up before. -/
def resendQuery (r : Request) (fds : Handles) (m : Option Message) : Life :=
  if r.type = tPtr ∨ r.type = tA ∨ r.type = tAaaa then queryName r fds m else ⟨some r, fds⟩

/-- `rem_request`. -/
def remRequest (r : Request) (fds : Handles) : Life :=
  ⟨none, (r.ipv4F.toList ++ r.ipv6F.toList).foldl Handles.release fds⟩

/-- The body of the loop of `timeout_query_list`. -/
def timeout (r : Request) (fds : Handles) (now : ℤ) (m : Option Message) : Life :=
  if r.sentat + r.timeout ≤ now then
    if r.retries - 1 ≤ 0 then remRequest r fds
    else resendQuery { r with
      retries := r.retries - 1, sentat := now, timeout := r.timeout + r.timeout } fds m
  else ⟨some r, fds⟩

/-- What happens to a request: it is sent, the timer runs, and a message with its id comes in, which
may be its end. -/
inductive Op
  | query (m : Option Message)
  | timeout (now : ℤ) (m : Option Message)
  | reply (ends : Bool)

/-- A step of a request that is there. -/
def step (l : Life) (op : Op) : Option Life :=
  l.request.map fun r =>
    match op with
    | .query m => queryName r l.fds m
    | .timeout now m => Life.timeout r l.fds now m
    | .reply ends => if ends then remRequest r l.fds else l

/-- A request that `make_request` and its caller have filled in. -/
def start (query type : ℕ) (now : ℤ) : Life :=
  ⟨some { Reslist.made query now with type := type, ipv4F := none, ipv6F := none }, ⟨[], []⟩⟩

/-! ### The condition -/

/-- In the loop of `send_res_msg`, no name server is tried over IPv6 when there is a socket for
IPv6. -/
def SparesLoop (maxQueries : ℕ) : List Try → Sending → Prop
  | [], _ => True
  | t :: ts, s => s.sent < maxQueries → (t.family = .inet6 → s.ipv6F = none) ∧
    SparesLoop maxQueries ts (trySend s t)

/-- The request as it is sent in a step, and the name servers, if it is sent. -/
def sent (r : Request) : Op → Option (Request × List Try)
  | .query m => m.map fun m => ({ r with id := m.id, sends := r.sends + 1 }, m.servers)
  | .timeout now m =>
    if r.sentat + r.timeout ≤ now ∧ 0 < r.retries - 1 ∧ (r.type = tPtr ∨ r.type = tA ∨
      r.type = tAaaa) then
      m.map fun m => ({ r with
        retries := r.retries - 1, sentat := now, timeout := r.timeout + r.timeout, id :=
          m.id, sends := r.sends + 1 }, m.servers)
    else none
  | .reply _ => none

/-- **A step spares sockets**: where the request is sent in it, no name server is tried over IPv6
when there is a socket for IPv6. -/
def Spares (l : Life) (op : Op) : Prop :=
  ∀ r r' ts, l.request = some r → sent r op = some (r', ts) →
    SparesLoop (maxQueries ts.length r'.sends) ts (sendStart r' l.fds)

/-! ### What is held -/

/-- The sockets that are held by a request that is there. -/
def held (l : Life) : List ℕ := l.request.elim [] fun r => r.ipv4F.toList ++ r.ipv6F.toList

section Held

variable {s : Sending} {t : Try} {ts : List Try} {xs : List ℕ} {fds : Handles} {r r' : Request}
  {l l' : Life} {op : Op}

/-- The sockets that a request has while it is sent. -/
def heldOf (s : Sending) : List ℕ := s.ipv4F.toList ++ s.ipv6F.toList

theorem accounts_randomSocket (h : fds.Accounts xs) (o : Opening) :
    (randomSocket fds o).2.Accounts ((randomSocket fds o).1.toList ++ xs) := by
  cases o with
  | failed => exact h
  | unbound => exact h.acquire_release
  | bound => exact h.acquire

theorem lost_randomSocket (h : fds.Lost xs) (o : Opening) :
    (randomSocket fds o).2.Lost ((randomSocket fds o).1.toList ++ xs) := by
  cases o with
  | failed => exact h
  | unbound => exact h.acquire.release
  | bound => exact h.acquire

/-- What the body of the loop does to the sockets. -/
theorem trySend_cases (s : Sending) (t : Try) :
    (t.family = .inet ∧ s.ipv4F ≠ none ∧ heldOf (trySend s t) = heldOf s ∧
      (trySend s t).fds = s.fds) ∨
      (t.family = .inet ∧ s.ipv4F = none ∧
        heldOf (trySend s t) = (randomSocket s.fds t.socket).1.toList ++ heldOf s ∧
        (trySend s t).fds = (randomSocket s.fds t.socket).2) ∨
      (t.family = .inet6 ∧ heldOf (trySend s t) = s.ipv4F.toList ++
        (randomSocket s.fds t.socket).1.toList ∧
        (trySend s t).fds = (randomSocket s.fds t.socket).2) := by
  have hsent : ∀ F s', getSocket s t = (F, s') → heldOf (trySend s t) = heldOf s' ∧
      (trySend s t).fds = s'.fds := by
    intro F s' heq
    rw [trySend, heq]
    cases F with
    | none => exact ⟨rfl, rfl⟩
    | some F =>
      dsimp only
      split_ifs <;> exact ⟨rfl, rfl⟩
  cases hfamily : t.family with
  | inet =>
    cases hF : s.ipv4F with
    | some F =>
      obtain ⟨hheld, hfds⟩ := hsent (some F) s (by rw [getSocket, hfamily, hF])
      exact .inl ⟨rfl, by simp, hheld, hfds⟩
    | none =>
      obtain ⟨hheld, hfds⟩ := hsent _ _ (show getSocket s t = (_, _) by rw [getSocket, hfamily, hF])
      refine .inr (.inl ⟨rfl, rfl, hheld.trans ?_, hfds⟩)
      rw [heldOf, heldOf, hF]
      rfl
  | inet6 =>
    obtain ⟨hheld, hfds⟩ := hsent _ _ (show getSocket s t = (_, _) by rw [getSocket, hfamily])
    exact .inr (.inr ⟨rfl, hheld, hfds⟩)

/-- A name server is tried, and no socket is let go. -/
theorem accounts_trySend (h : s.fds.Accounts (heldOf s))
    (hfree : t.family = .inet6 → s.ipv6F = none) :
    (trySend s t).fds.Accounts (heldOf (trySend s t)) := by
  obtain ⟨-, -, hheld, hfds⟩ | ⟨-, -, hheld, hfds⟩ | ⟨hfamily, hheld, hfds⟩ := trySend_cases s t
  · rwa [hheld, hfds]
  · rw [hheld, hfds]
    exact accounts_randomSocket h t.socket
  · rw [hheld, hfds]
    rw [heldOf, hfree hfamily, toList_none, append_nil] at h
    exact (accounts_randomSocket h t.socket).congr perm_append_comm

/-- A name server is tried over IPv6 when there is a socket: this one is lost. -/
theorem lost_trySend_of_bad (h : s.fds.Accounts (heldOf s)) (hfamily : t.family = .inet6)
    (hF : s.ipv6F ≠ none) :
    (trySend s t).fds.Lost (heldOf (trySend s t)) := by
  obtain ⟨hinet, -⟩ | ⟨hinet, -⟩ | ⟨-, hheld, hfds⟩ := trySend_cases s t
  · cases hinet.symm.trans hfamily
  · cases hinet.symm.trans hfamily
  · obtain ⟨F, hF⟩ := ne_none_iff_exists'.mp hF
    rw [hheld, hfds]
    rw [heldOf, hF, toList_some] at h
    have hperm : (F :: (s.ipv4F.toList ++ (randomSocket s.fds t.socket).1.toList)).Perm
        ((randomSocket s.fds t.socket).1.toList ++ (s.ipv4F.toList ++ [F])) := by
      rw [← append_assoc]
      exact (perm_append_singleton F _).symm.trans (perm_append_comm.append_right [F])
    exact ((accounts_randomSocket h t.socket).congr hperm).lost

/-- What is lost stays lost. -/
theorem lost_trySend (h : s.fds.Lost (heldOf s)) (t : Try) :
    (trySend s t).fds.Lost (heldOf (trySend s t)) := by
  obtain ⟨-, -, hheld, hfds⟩ | ⟨-, -, hheld, hfds⟩ | ⟨-, hheld, hfds⟩ := trySend_cases s t
  · rwa [hheld, hfds]
  · rw [hheld, hfds]
    exact lost_randomSocket h t.socket
  · rw [hheld, hfds]
    refine (lost_randomSocket h t.socket).mono fun x hx => ?_
    rw [mem_append] at hx ⊢
    exact hx.symm.imp_right fun hx => mem_append_left _ hx

theorem lost_sendLoop (n : ℕ) (ts : List Try) (h : s.fds.Lost (heldOf s)) :
    (sendLoop n ts s).fds.Lost (heldOf (sendLoop n ts s)) := by
  induction ts generalizing s with
  | nil => exact h
  | cons t ts ih =>
    rw [sendLoop]
    split_ifs
    · exact ih (lost_trySend h t)
    · exact h

/-- The loop, when it spares sockets, and when it does not. -/
theorem sendLoop_cases (n : ℕ) (ts : List Try) (h : s.fds.Accounts (heldOf s)) :
    (SparesLoop n ts s → (sendLoop n ts s).fds.Accounts (heldOf (sendLoop n ts s))) ∧
      (¬SparesLoop n ts s → (sendLoop n ts s).fds.Lost (heldOf (sendLoop n ts s))) := by
  induction ts generalizing s with
  | nil => exact ⟨fun _ => h, fun hnot => absurd trivial hnot⟩
  | cons t ts ih =>
    rw [sendLoop, SparesLoop]
    split_ifs with hsent
    · rw [forall_prop_of_true hsent]
      refine ⟨fun hspares => (ih (accounts_trySend h hspares.1)).1 hspares.2, fun hnot => ?_⟩
      by_cases hfree : t.family = .inet6 → s.ipv6F = none
      · exact (ih (accounts_trySend h hfree)).2 fun hspares => hnot ⟨hfree, hspares⟩
      · rw [Classical.not_imp] at hfree
        exact lost_sendLoop n ts (lost_trySend_of_bad h hfree.1 hfree.2)
    · exact ⟨fun _ => h, fun hnot => absurd (fun hlt => absurd hlt hsent) hnot⟩

/-- **What a step does**: the request is removed, or nothing happens to its sockets, or it is
sent. -/
theorem step_cases (hstep : step l op = some l') : ∃ r, l.request = some r ∧
    (sent r op = none ∧ l' = remRequest r l.fds ∨
      sent r op = none ∧ (∃ r', l' = ⟨some r', l.fds⟩ ∧ r'.ipv4F = r.ipv4F ∧ r'.ipv6F = r.ipv6F) ∨
      ∃ r' ts, sent r op = some (r', ts) ∧ l' = sendResMsg r' ts l.fds ∧ r'.ipv4F = r.ipv4F ∧
      r'.ipv6F = r.ipv6F) := by
  obtain ⟨r, hr, rfl⟩ := map_eq_some_iff.mp hstep
  refine ⟨r, hr, ?_⟩
  cases op with
  | query m =>
    cases m with
    | none => exact .inr (.inl ⟨rfl, r, rfl, rfl, rfl⟩)
    | some m => exact .inr (.inr ⟨_, _, rfl, rfl, rfl, rfl⟩)
  | timeout now m =>
    dsimp only [sent]
    rw [timeout]
    by_cases hdue : r.sentat + r.timeout ≤ now
    · rw [if_pos hdue]
      by_cases hlast : r.retries - 1 ≤ 0
      · exact .inl ⟨if_neg fun h => absurd h.2.1 (Int.not_lt.mpr hlast), if_pos hlast⟩
      · rw [if_neg hlast, resendQuery]
        by_cases htype : r.type = tPtr ∨ r.type = tA ∨ r.type = tAaaa
        · rw [if_pos ⟨hdue, Int.not_le.mp hlast, htype⟩, if_pos htype]
          cases m with
          | none => exact .inr (.inl ⟨rfl, _, rfl, rfl, rfl⟩)
          | some m => exact .inr (.inr ⟨_, _, rfl, rfl, rfl, rfl⟩)
        · rw [if_neg htype, if_neg fun h => htype h.2.2]
          exact .inr (.inl ⟨rfl, _, rfl, rfl, rfl⟩)
    · rw [if_neg hdue, if_neg fun h => hdue h.1]
      exact .inr (.inl ⟨rfl, r, rfl, rfl, rfl⟩)
  | reply ends =>
    cases ends with
    | true => exact .inl ⟨rfl, rfl⟩
    | false => exact .inr (.inl ⟨rfl, r, by rw [← hr]; rfl, rfl, rfl⟩)

/-- All handles are given back. -/
theorem accounts_foldl_release (h : fds.Accounts xs) :
    (xs.foldl Handles.release fds).Accounts [] := by
  induction xs generalizing fds with
  | nil => exact h
  | cons x xs ih => exact ih h.release

theorem lost_foldl_release (h : fds.Lost xs) : (xs.foldl Handles.release fds).Lost [] := by
  induction xs generalizing fds with
  | nil => exact h
  | cons x xs ih => exact ih h.release

theorem heldOf_sendStart (r : Request) (fds : Handles) :
    heldOf (sendStart r fds) = r.ipv4F.toList ++ r.ipv6F.toList := rfl

/-- **A step that spares sockets** lets none go. -/
theorem accounts_step (h : l.fds.Accounts l.held) (hop : l.Spares op)
    (hstep : step l op = some l') :
    l'.fds.Accounts l'.held := by
  obtain ⟨r, hr, ⟨-, rfl⟩ | ⟨-, r', rfl, h4, h6⟩ | ⟨r', ts, hsent, rfl, h4, h6⟩⟩ := step_cases hstep
  all_goals rw [Life.held, hr] at h
  · exact accounts_foldl_release h
  · rwa [Life.held, Option.elim, h4, h6]
  · exact (sendLoop_cases _ ts (by rwa [heldOf_sendStart, h4, h6])).1 (hop r r' ts hr hsent)

/-- A step that does not, lets one go. -/
theorem lost_step_of_bad (h : l.fds.Accounts l.held) (hop : ¬l.Spares op)
    (hstep : step l op = some l') :
    l'.fds.Lost l'.held := by
  obtain ⟨r, hr, hcases⟩ := step_cases hstep
  simp only [Spares, hr, some.injEq, not_forall] at hop
  obtain ⟨_, r', ts, rfl, hsent, hbad⟩ := hop
  obtain ⟨hnone, -⟩ | ⟨hnone, -⟩ | ⟨r'', ts', hsent', rfl, h4, h6⟩ := hcases
  · cases hnone.symm.trans hsent
  · cases hnone.symm.trans hsent
  · cases hsent.symm.trans hsent'
    rw [Life.held, hr] at h
    exact (sendLoop_cases _ ts (by rwa [heldOf_sendStart, h4, h6])).2 hbad

/-- What is lost stays lost. -/
theorem lost_step (h : l.fds.Lost l.held) (hstep : step l op = some l') : l'.fds.Lost l'.held := by
  obtain ⟨r, hr, ⟨-, rfl⟩ | ⟨-, r', rfl, h4, h6⟩ | ⟨r', ts, hsent, rfl, h4, h6⟩⟩ := step_cases hstep
  all_goals rw [Life.held, hr] at h
  · exact lost_foldl_release h
  · rwa [Life.held, Option.elim, h4, h6]
  · exact lost_sendLoop _ ts (by rwa [heldOf_sendStart, h4, h6])

end Held

/-! ### The requests of the resolver -/

/-- The request that the resolver has at an address is this one, up to names and address. -/
def Follows (s : State) (a : ℕ) (l : Life) : Prop :=
  (s.requests.cell a).map Reslist.bare = l.request.map fun r => r.toReslist.bare

section Resolver

variable {env : Env} {now : ℤ} {s s' : State} {a : ℕ} {r r' : Request} {fds : Handles}

section

variable (h : Follows s a ⟨some r, fds⟩)
include h

theorem Follows.exists_cell : ∃ r₀, s.requests.cell a = some r₀ ∧ r₀.bare = r.toReslist.bare :=
  map_eq_some_iff.mp h

/-- A request is written. -/
theorem Follows.write (f : Reslist → Reslist)
    (hf : ∀ r₀ : Reslist, r₀.bare = r.toReslist.bare → (f r₀).bare = r'.toReslist.bare) :
    Follows (s.write a f) a ⟨some r', fds⟩ := by
  obtain ⟨r₀, ha, hbare⟩ := h.exists_cell
  rw [Follows, write_eq ha, Arena.cell_set_self]
  exact congrArg some (hf r₀ hbare)

theorem Follows.finish (query : ℕ) (reply : Option DNSReply) :
    Follows (finish a query reply s) a (remRequest r fds) := by
  obtain ⟨r₀, ha, -⟩ := h.exists_cell
  rw [Follows, finish_eq ha, Arena.cell_remove_self]
  rfl

/-- A query is made for a request, with an id, or none is made. -/
theorem Follows.queryName (hquery : Res.queryName env a s = some s') :
    ∃ id : Option ℕ, ∀ servers, Follows s' a (queryName r fds (id.map (⟨·, servers⟩))) := by
  obtain ⟨r₀, ha, -⟩ := h.exists_cell
  rw [Res.queryName, read_eq ha] at hquery
  split_ifs at hquery
  · obtain ⟨⟨id, s₁⟩, hid, rfl⟩ := map_eq_some_iff.mp hquery
    have hs₁ : s₁.requests = s.requests := by
      rw [generateRandomId] at hid
      split at hid <;> cases hid
      rfl
    have h₁ : Follows s₁ a ⟨some r, fds⟩ := by rwa [Follows, hs₁]
    refine ⟨some id, fun servers => h₁.write _ fun r₀ hbare => ?_⟩
    simp_all [Reslist.bare]
  · cases hquery
    exact ⟨none, fun servers => h⟩

theorem Follows.resendQuery (hresend : Res.resendQuery env now a s = some s') :
    ∃ id : Option ℕ, ∀ servers, Follows s' a (resendQuery r fds (id.map (⟨·, servers⟩))) := by
  obtain ⟨r₀, ha, hbare⟩ := h.exists_cell
  have htype : r₀.type = r.type := (Reslist.mk.inj hbare).2.1
  rw [Res.resendQuery, read_eq ha, htype] at hresend
  by_cases hptr : r.type = tPtr
  · rw [if_pos hptr] at hresend
    have hsent : r.type = tPtr ∨ r.type = tA ∨ r.type = tAaaa := Or.inl hptr
    simp only [Life.resendQuery, if_pos hsent]
    refine Follows.queryName (h.write _ fun r₀ hbare => ?_) hresend
    simp_all [Reslist.bare]
  rw [if_neg hptr] at hresend
  by_cases hname : r.type = tA ∨ r.type = tAaaa
  · rw [if_pos hname] at hresend
    have hsent : r.type = tPtr ∨ r.type = tA ∨ r.type = tAaaa := Or.inr hname
    simp only [Life.resendQuery, if_pos hsent]
    cases hr : r₀.name with
    | none =>
      rw [hr] at hresend
      cases hresend
      exact ⟨none, fun _ => h⟩
    | some name =>
      rw [hr] at hresend
      refine Follows.queryName (h.write _ fun r₀ hbare => ?_) hresend
      simp_all [Reslist.bare]
  · rw [if_neg hname] at hresend
    cases hresend
    refine ⟨none, fun _ => ?_⟩
    rw [Life.resendQuery, if_neg (not_or_intro hptr hname)]
    exact h

/-- **The timer of the resolver** does to a request what a step does. -/
theorem Follows.timeoutRequest (htimeout : timeoutRequest env now a s = some s') :
    ∃ id : Option ℕ, ∀ servers, Follows s' a (timeout r fds now (id.map (⟨·, servers⟩))) := by
  obtain ⟨r₀, ha, hbare⟩ := h.exists_cell
  obtain ⟨-, -, -, hretries, -, hsentat, hperiod, -⟩ := Reslist.mk.inj hbare
  rw [Res.timeoutRequest, read_eq ha, hsentat, hperiod, hretries] at htimeout
  simp only [timeout]
  have hwrite : Follows (s.write a fun r => { r with retries := r.retries - 1 }) a
      ⟨some { r with retries := r.retries - 1 }, fds⟩ :=
    h.write _ fun r₀ hbare => by simp_all [Reslist.bare]
  split_ifs at htimeout ⊢ with hdue hlast
  · cases htimeout
    exact ⟨none, fun _ => hwrite.finish r₀.query none⟩
  · refine Follows.resendQuery (hwrite.write _ fun r₀ hbare => ?_) htimeout
    simp_all [Reslist.bare]
  · cases htimeout
    exact ⟨none, fun _ => h⟩

end

/-- **A lookup that is submitted** is a request that starts, and is sent in a step. -/
theorem follows_submit {query type : ℕ} {name : Text.Str}
    (hquery : doQueryName env now (.new query) name type s = some s') :
    ∃ id : Option ℕ, ∀ servers l, step (start query type now) (.query (id.map (⟨·, servers⟩))) =
      some l → Follows s' s.requests.fresh l := by
  rw [doQueryName_new] at hquery
  have hstart : Follows (s.add (.made query now) (.newName query now name type)) s.requests.fresh
      (start query type now) := congrArg (Option.map Reslist.bare) Arena.cell_set_self
  obtain ⟨id, hfollows⟩ := Follows.queryName hstart hquery
  refine ⟨id, fun servers l hl => ?_⟩
  cases hl
  exact hfollows servers

end Resolver

/-- **Each socket is closed, and none twice**, when the request is removed, exactly when no name
server is tried over IPv6 while there is a socket for IPv6. -/
theorem closed_iff (query type : ℕ) (now : ℤ) {ops : List Op} {l : Life}
    (hrun : run step (start query type now) ops = some l) (hremoved : l.request = none) :
    (l.fds.closed.Nodup ∧ ∀ x ∈ l.fds.opened, x ∈ l.fds.closed) ↔
    StepsMeet step Spares (start query type now) ops := by
  have hheld : l.held = [] := by
    rw [held, hremoved]
    rfl
  have hstart : (start query type now).fds.Accounts (start query type now).held :=
    Handles.accounts_nil
  constructor
  · intro hclosed
    have hfinal : ¬l.fds.Lost l.held ↔ StepsMeet step Spares (start query type now) ops :=
      final_iff (P := fun l => ¬l.fds.Lost l.held) (fun l => l.fds.Accounts l.held)
        (fun l => l.fds.Lost l.held) (fun _ ha hl => hl.not_accounts ha)
        (fun _ hl hnot => hnot hl) (fun _ _ _ => accounts_step) (fun _ _ _ => lost_step_of_bad)
          (fun _ _ _ => lost_step)
        hstart hrun
    exact hfinal.mp fun hl => hl.not_closed hclosed.2
  · intro hops
    have haccounts := invariant (fun l => l.fds.Accounts l.held) (fun _ _ _ => accounts_step) hstart
      hops hrun
    rw [hheld] at haccounts
    exact haccounts.closed

/-- What happens to a request that is sent over IPv4, then over both, and is answered. -/
def answered : List Op :=
  [.query (some ⟨7, [⟨.inet, .bound, true⟩, ⟨.inet6, .bound, true⟩]⟩),
    .timeout 1004 (some ⟨8, [⟨.inet, .bound, true⟩, ⟨.inet6, .bound, true⟩]⟩), .reply true]

theorem closed_iff_answered : ∃ l, run step (start 0 tA 1000) answered = some l ∧
    ((l.fds.closed.Nodup ∧ ∀ x ∈ l.fds.opened, x ∈ l.fds.closed) ↔
      StepsMeet step Spares (start 0 tA 1000) answered) :=
  ⟨⟨none, [1, 0], [1, 0]⟩, by decide, closed_iff 0 tA 1000 (by decide) rfl⟩

/-- A request that is sent twice to a name server over IPv6: of two sockets one is closed. -/
theorem socket_left : run step (start 0 tA 1000) [.query (some ⟨7, [⟨.inet6, .bound, true⟩]⟩),
    .timeout 1004 (some ⟨8, [⟨.inet6, .bound, true⟩]⟩), .reply true] =
    some ⟨none, [1, 0], [1]⟩ := by
  decide

end Life

end Ratbox.Res
