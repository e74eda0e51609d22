import Ratbox.Linebuf.Endings

/-!
# Reading packets

What arrives on a connection is put on its receive queue, and `parse_client_queued` takes the lines
off and has them parsed: a few for a client that is not registered or may be flooding, all of them
for a server or a client that is exempt. Its loops stop when `rb_linebuf_get` returns 0, which also
means an empty line.

Source: `src/packet.c`, lines 45–345.

## Main definitions

* `Packet.Conn`, `Packet.State`: a connection, and the memory with its receive queue.
* `Packet.parseClientQueued`: `parse_client_queued`.
* `Packet.Event`, `Packet.step`: one turn of the loop of `read_packet`, and `flood_recalc`.
* `Packet.NoGap`: no empty line is in front of another complete line.

## Main results

* `Packet.drainLoop_spec`: what the loop for servers takes and what it leaves.
* `Packet.drained_iff`: when no complete line is left.

What the handler of a line does to the connection is a parameter. It leaves the receive queue alone:
`server_estab`, which takes all of it when a link is compressed, is modelled in `Ratbox.Ssld.Zlib`.
The traffic counters are left out.
-/

namespace Ratbox.Packet

open Linebuf List

/-! ### The structures -/

/-- `READBUF_SIZE`. -/
def readbufSize : ℕ := 16384

/-- `MAX_FLOOD`. -/
def maxFlood : ℤ := 5

/-- The status of a client. -/
inductive Status
  | connecting
  | handshake
  | me
  | unknown
  | reject
  | server
  | client
  deriving DecidableEq

/-- `IsAnyServer`. -/
def Status.isAnyServer : Status → Bool
  | .server | .handshake | .connecting => true
  | _ => false

/-- `struct Client` and `struct LocalUser` of a connection, where `dead` is `IsAnyDead`. -/
structure Conn where
  status : Status
  exemptFlood : Bool
  oper : Bool
  floodDone : Bool
  dead : Bool
  sentParsed : ℤ
  allowRead : ℤ
  firsttime : ℤ
  deriving DecidableEq

/-- The settings. -/
structure Conf where
  noOperFlood : Bool
  postRegistrationDelay : ℤ
  clientFlood : ℤ

/-- What the handler of a line does to its connection: whether it ends it, what it registers it as,
where that may be done, whether the client is made exempt then, and the fields that may change at
any time. -/
structure Outcome where
  dies : Bool
  registers : Option Status
  exempts : Bool
  oper : Bool
  floodDone : Bool
  sentParsed : ℤ
  allowRead : ℤ

/-- The memory, the connection, and the variable `binary` of `read_packet`. -/
structure State where
  w : World
  conn : Conn
  binary : Bool

section

variable (conf : Conf) (handled : Conn → List UInt8 → Outcome) (recvq : ℕ)

/-! ### Parsing -/

/-- `rb_linebuf_get` with `LINEBUF_COMPLETE` and `LINEBUF_PARSED`. -/
def State.take (s : State) : State × List UInt8 :=
  let (w, line) := get s.w recvq readbufSize false false
  ({ s with w }, line)

/-- The status after a line: a client that is not registered becomes a client or a server, and a
server that was in its handshake becomes a server. -/
def Outcome.status (o : Outcome) : Status → Status
  | .unknown => if o.registers = some .client then .client else if o.registers = some .server then
    .server else .unknown
  | .handshake => if o.registers = some .server then .server else .handshake
  | status => status

/-- `client_dopacket`. The flag of exempt clients is set by `register_local_user`. -/
def clientDopacket (c : Conn) (line : List UInt8) : Conn :=
  let o := handled c line
  { c with
    status := o.status c.status
    exemptFlood := c.exemptFlood || (c.status = .unknown && o.status c.status = .client &&
      o.exempts)
    oper := o.oper
    floodDone := o.floodDone
    dead := c.dead || o.dies
    sentParsed := o.sentParsed
    allowRead := o.allowRead }

/-- A line is parsed. -/
def State.dopacket (s : State) (line : List UInt8) : State :=
  { s with conn := clientDopacket handled s.conn line }

/-- `client_p->localClient->sent_parsed++`. -/
def State.count (s : State) : State :=
  { s with conn := { s.conn with sentParsed := s.conn.sentParsed + 1 } }

/-- The loop for a client that is not registered. Every turn takes a line off the queue, so that the
length of the queue bounds the turns. -/
def unknownLoop : ℕ → State → State
  | 0, s => s
  | n + 1, s =>
    if s.conn.allowRead ≤ s.conn.sentParsed then s
    else
      let (s, line) := s.take recvq
      if line = [] then s
      else
        let s := (s.dopacket handled line).count
        if s.conn.dead then s
        else if s.conn.status ≠ .unknown then { s with conn := { s.conn with sentParsed := 0 } }
        else unknownLoop n s

/-- The loop for a server or a client that is exempt. -/
def drainLoop : ℕ → State → State
  | 0, s => s
  | n + 1, s =>
    if s.conn.dead then s
    else
      let (s, line) := s.take recvq
      if line = [] then s else drainLoop n (s.dopacket handled line)

/-- The number of lines a client may send: opers that are not checked have four times as many. -/
def Conn.limit (c : Conn) (checkflood : Bool) :
    ℤ := if checkflood then c.allowRead else 4 * c.allowRead

/-- The loop for a client. -/
def clientLoop (now : ℤ) (checkflood : Bool) : ℕ → Bool → State → State
  | 0, _, s => s
  | n + 1, tested, s =>
    if !tested ∧ now < s.conn.firsttime + conf.postRegistrationDelay then s
    else if s.conn.limit checkflood ≤ s.conn.sentParsed then s
    else
      let (s, line) := s.take recvq
      if line = [] then s
      else
        let s := s.dopacket handled line
        if s.conn.dead then s else clientLoop now checkflood n true s.count

/-- The second part of `parse_client_queued`: the lines of a server, an exempt client or a
client. -/
def parseRegistered (now : ℤ) (n : ℕ) (s : State) : State :=
  if s.conn.status.isAnyServer ∨ s.conn.exemptFlood then drainLoop handled recvq n s
  else if s.conn.status = .client then
    clientLoop conf handled recvq now (!(s.conn.oper && conf.noOperFlood)) n false s
  else s

/-- `parse_client_queued`. -/
def parseClientQueued (now : ℤ) (s : State) : State :=
  if s.conn.dead then s
  else
    let n := (s.w.queue recvq).length
    let s := if s.conn.status = .unknown then unknownLoop handled recvq n s else s
    if s.conn.dead then s else parseRegistered conf handled recvq now n s

/-! ### Steps -/

/-- One turn of the loop of `read_packet`, which may be the first of a call, and `flood_recalc`. -/
inductive Event
  | read (first : Bool) (data : List UInt8) (now : ℤ)
  | recalc (now : ℤ)

/-- The time of an event. -/
def Event.now : Event → ℤ
  | .read _ _ now => now
  | .recalc now => now

/-- `flood_recalc`, up to the call of `parse_client_queued`. Servers are not on its lists. -/
def recalc (s : State) : State :=
  let sentParsed :=
    if s.conn.status = .unknown then s.conn.sentParsed - 1
    else if s.conn.floodDone then s.conn.sentParsed - 2
    else 0
  { s with conn := { s.conn with sentParsed := max 0 sentParsed } }

/-- The state in which `parse_client_queued` is called, if it is. Nothing to read is an error. -/
def before (s : State) : Event → Option State
  | .read first data _ =>
    if s.conn.dead ∨ data = [] then none
    else
      let binary := (!first && s.binary) || s.conn.status = .handshake || s.conn.status = .unknown
      some { s with w := (parse s.w recvq binary data).1, binary }
  | .recalc _ => if s.conn.status = .client ∨ s.conn.status = .unknown then some (recalc s)
    else none

/-- What is done after `parse_client_queued`: the check for a flood, and `flood_endgrace` for those
that were clients before. -/
def settle (status : Status) (s : State) : Event → State
  | .read _ _ _ =>
    if !s.conn.dead && !s.conn.status.isAnyServer && conf.clientFlood < (s.w.head recvq).alloclen &&
        !(conf.noOperFlood && s.conn.oper) then
      { s with conn := { s.conn with dead := true } }
    else s
  | .recalc now =>
    if status = .client ∧ !s.conn.dead ∧ !s.conn.floodDone ∧ s.conn.firsttime + 30 < now then
      { s with conn := { s.conn with floodDone := true, allowRead := maxFlood, sentParsed := 0 } }
    else s

/-- A step, if there is something to do. -/
def step (s : State) (e : Event) : Option State :=
  (before recvq s e).map fun t =>
    settle conf recvq s.conn.status (parseClientQueued conf handled recvq e.now t) e

end

/-! ### What a loop takes -/

section Outcome

variable {handled : Conn → List UInt8 → Outcome} {c : Conn} {line : List UInt8}

theorem status_ne_unknown (hne : c.status ≠ .unknown) :
    (clientDopacket handled c line).status ≠ .unknown := by
  dsimp only [clientDopacket]
  generalize handled c line = o
  cases hs : c.status <;> simp_all [Outcome.status]
  split_ifs <;> simp

theorem exemptFlood_of_unknown (hstatus : (clientDopacket handled c line).status = .unknown) :
    (clientDopacket handled c line).exemptFlood = c.exemptFlood := by
  dsimp only [clientDopacket] at hstatus ⊢
  simp [hstatus]

theorem dopacket_client (hclient : c.status = .client) : (clientDopacket handled c line).status =
    .client ∧ (clientDopacket handled c line).exemptFlood = c.exemptFlood := by
  simp [clientDopacket, hclient, Outcome.status]

end Outcome

/-- A line from which `rb_linebuf_get` gives nothing. -/
def Blank (l : BufLine) : Prop := getBytes l readbufSize false = []

instance (l : BufLine) : Decidable (Blank l) := inferInstanceAs (Decidable (_ = _))

/-- No empty line is in front of another complete line. -/
def NoGap (q : List BufLine) : Prop := ∀ l ∈ (q.filter (·.terminated)).dropLast, ¬ Blank l

instance (q : List BufLine) : Decidable (NoGap q) :=
  inferInstanceAs (Decidable (∀ l ∈ _, ¬ Blank l))

/-- All lines of the queue but the last are complete. -/
abbrev Lines :
    World → ℕ → Prop := Shaped (fun l => l.terminated = true) fun l => l.terminated = false

/-- Complete lines that are not empty were taken off a queue. -/
def Took (q q' : List BufLine) :
    Prop := ∃ ls, q = ls ++ q' ∧ ∀ l ∈ ls, l.terminated = true ∧ ¬ Blank l

/-- A loop took all complete lines, or stopped behind an empty one. -/
def Stopped (q q' : List BufLine) : Prop :=
  (Took q q' ∧ ∀ l ∈ q', l.terminated = false) ∨ ∃ l, Took q (l :: q') ∧ l.terminated = true ∧
    Blank l

section Taking

variable {q q' q'' : List BufLine}

theorem Took.refl (q : List BufLine) : Took q q := ⟨[], rfl, by simp⟩

theorem Took.cons {l : BufLine} (hl : l.terminated = true) (hblank : ¬ Blank l) (h : Took q q') :
    Took (l :: q) q' := by
  obtain ⟨ls, rfl, hls⟩ := h
  refine ⟨l :: ls, rfl, fun l' hl' => ?_⟩
  obtain rfl | hl' := mem_cons.mp hl'
  · exact ⟨hl, hblank⟩
  · exact hls l' hl'

theorem Took.trans (h : Took q q') (h' : Took q' q'') : Took q q'' := by
  obtain ⟨ls, rfl, hls⟩ := h
  obtain ⟨ls', rfl, hls'⟩ := h'
  refine ⟨ls ++ ls', (append_assoc ..).symm, fun l hl => ?_⟩
  exact (mem_append.mp hl).elim (hls l) (hls' l)

theorem Took.length_le (h : Took q q') : q'.length ≤ q.length := by
  obtain ⟨ls, rfl, -⟩ := h
  rw [length_append]
  exact Nat.le_add_left _ _

theorem Stopped.of_took (h : Took q q') (h' : Stopped q' q'') : Stopped q q'' :=
  h'.imp (fun hall => ⟨h.trans hall.1, hall.2⟩) fun ⟨l, hl, hblank⟩ => ⟨l, h.trans hl, hblank⟩

/-- **No complete line is left** when there was no gap. -/
theorem Stopped.noGap_iff (h : Stopped q q') : (∀ l ∈ q', l.terminated = false) ↔ NoGap q := by
  have hfilter : ∀ ls : List BufLine, (∀ l ∈ ls, l.terminated = true ∧ ¬ Blank l) →
      ls.filter (·.terminated) = ls := fun ls hls => filter_eq_self.mpr fun l hl => (hls l hl).1
  rcases h with ⟨⟨ls, rfl, hls⟩, hq'⟩ | ⟨l, ⟨ls, rfl, hls⟩, hl, hblank⟩
  · refine iff_of_true hq' fun l hl => ?_
    rw [filter_append, hfilter ls hls, filter_eq_nil_iff.mpr (by simpa using hq'), append_nil] at hl
    exact (hls l (dropLast_subset _ hl)).2
  · rw [NoGap, filter_append, hfilter ls hls, filter_cons_of_pos hl]
    cases hrest : q'.filter (·.terminated) with
    | nil =>
      refine iff_of_true (by simpa using hrest) fun l' hl' => ?_
      rw [dropLast_append_of_ne_nil (cons_ne_nil _ _)] at hl'
      exact (hls l' (by simpa using hl')).2
    | cons l' rest =>
      refine iff_of_false (fun hnone => ?_) fun hgap => hgap l ?_ hblank
      · have hmem := mem_filter.mp (hrest ▸ mem_cons_self : l' ∈ q'.filter (·.terminated))
        cases hmem.2.symm.trans (hnone l' hmem.1)
      · rw [dropLast_append_of_ne_nil (cons_ne_nil _ _)]
        simp

end Taking

section Loops

variable {conf : Conf} {handled : Conn → List UInt8 → Outcome} {recvq n : ℕ} {s : State}

/-- What `rb_linebuf_get` does to a receive queue. -/
theorem take_cases (hlines : Lines s.w recvq) :
    (s.take recvq = (s, []) ∧ ∀ l ∈ s.w.queue recvq, l.terminated = false) ∨
      ∃ l rest w, s.w.queue recvq = l :: rest ∧ l.terminated = true ∧
        s.take recvq = (⟨w, s.conn, s.binary⟩, getBytes l readbufSize false) ∧
        w.queue recvq = rest ∧ Lines w recvq := by
  have hkeep := (hlines.get readbufSize false false).1
  have hget : (get s.w recvq readbufSize false false = (s.w, []) ∧
      ∀ l, (s.w.queue recvq).head? = some l → l.terminated = false) ∨
      ∃ l rest, s.w.queue recvq = l :: rest ∧ l.terminated = true ∧
        get s.w recvq readbufSize false false = (doneLine s.w recvq, getBytes l readbufSize false) ∧
        (doneLine s.w recvq).queue recvq = rest := by
    obtain hranks | ⟨o, -, hranks⟩ := hlines
    · exact hranks.get readbufSize false false |>.imp id
        fun ⟨l, rest, hq, hterm, heq, hrest, _⟩ => ⟨l, rest, hq, hterm, heq, hrest⟩
    · exact hranks.get readbufSize false false |>.imp id
        fun ⟨l, rest, hq, hterm, heq, hrest, _⟩ => ⟨l, rest, hq, hterm, heq, hrest⟩
  rw [State.take]
  obtain ⟨heq, hhead⟩ | ⟨l, rest, hq, hterm, heq, hrest⟩ := hget
  · rw [heq]
    exact .inl ⟨rfl, hlines.eq_of_head? (fun _ hl => hl) (fun _ hl => hl) hhead⟩
  · rw [heq] at hkeep ⊢
    exact .inr ⟨l, rest, _, hq, hterm, rfl, hrest, hkeep⟩

/-- **The loop for servers.** It takes all complete lines, or stops behind an empty one. -/
theorem drainLoop_spec (hlines : Lines s.w recvq)
    (hn : (s.w.queue recvq).length ≤ n) (hne : s.conn.status ≠ .unknown) :
    Lines (drainLoop handled recvq n s).w recvq ∧
      ((drainLoop handled recvq n s).conn.dead = false →
        (drainLoop handled recvq n s).conn.status ≠ .unknown ∧
        Stopped (s.w.queue recvq) ((drainLoop handled recvq n s).w.queue recvq)) := by
  have hstay : ∀ n (s : State), s.conn.dead = true → drainLoop handled recvq n s = s := by
    intro n s hdead
    cases n with
    | zero => rfl
    | succ n => rw [drainLoop, if_pos hdead]
  induction n generalizing s with
  | zero =>
    have hnil := eq_nil_of_length_eq_zero (Nat.le_zero.mp hn)
    exact ⟨hlines, fun _ => ⟨hne, Or.inl ⟨Took.refl _, by simp [drainLoop, hnil]⟩⟩⟩
  | succ n ih =>
    cases hdead : s.conn.dead with
    | true =>
      rw [hstay _ s hdead]
      exact ⟨hlines, fun halive => absurd (halive.symm.trans hdead) (by simp)⟩
    | false =>
      rw [drainLoop, if_neg (by simp [hdead])]
      obtain ⟨htake, hnone⟩ | ⟨l, rest, w, hq, hterm, htake, hrest, hlines'⟩ := take_cases hlines
      · rw [htake]
        exact ⟨hlines, fun _ => ⟨hne, Or.inl ⟨Took.refl _, hnone⟩⟩⟩
      · rw [htake]
        dsimp only
        set t := State.dopacket handled ⟨w, s.conn, s.binary⟩ (getBytes l readbufSize false) with ht
        split_ifs with hblank
        · exact ⟨hlines', fun _ => ⟨hne, Or.inr ⟨l, hq ▸ hrest ▸ Took.refl _, hterm, hblank⟩⟩⟩
        · cases hdead' : t.conn.dead with
          | true =>
            rw [hstay n t hdead']
            exact ⟨hlines', fun halive => absurd (halive.symm.trans hdead') (by simp)⟩
          | false =>
            have hn' : (t.w.queue recvq).length ≤ n := by
              rw [hq, length_cons] at hn
              exact hrest ▸ Nat.le_of_succ_le_succ hn
            obtain ⟨hkeep, hspec⟩ := @ih t hlines' hn' (status_ne_unknown hne)
            refine ⟨hkeep, fun halive => ⟨(hspec halive).1, hq ▸ (hspec halive).2.of_took ?_⟩⟩
            exact Took.cons hterm hblank (hrest ▸ Took.refl _)

/-- **The loop for clients that are not registered.** One that is still not registered is not
exempt. -/
theorem unknownLoop_spec (hlines : Lines s.w recvq) (hunknown : s.conn.status = .unknown) :
    Lines (unknownLoop handled recvq n s).w recvq ∧
      ((unknownLoop handled recvq n s).conn.dead = false →
        ((unknownLoop handled recvq n s).conn.status = .unknown →
          (unknownLoop handled recvq n s).conn.exemptFlood = s.conn.exemptFlood) ∧
        ((unknownLoop handled recvq n s).conn.status ≠ .unknown →
          Took (s.w.queue recvq) ((unknownLoop handled recvq n s).w.queue recvq))) := by
  induction n generalizing s with
  | zero => exact ⟨hlines, fun _ => ⟨fun _ => rfl, fun hne => absurd hunknown hne⟩⟩
  | succ n ih =>
    rw [unknownLoop]
    split_ifs with hlimit
    · exact ⟨hlines, fun _ => ⟨fun _ => rfl, fun hne => absurd hunknown hne⟩⟩
    · obtain ⟨htake, hnone⟩ | ⟨l, rest, w, hq, hterm, htake, hrest, hlines'⟩ := take_cases hlines
      · rw [htake]
        exact ⟨hlines, fun _ => ⟨fun _ => rfl, fun hne => absurd hunknown hne⟩⟩
      · rw [htake]
        dsimp only
        have htook : ∀ hblank : ¬ Blank l, Took (s.w.queue recvq) (w.queue recvq) := fun hblank =>
          hq ▸ Took.cons hterm hblank (hrest ▸ Took.refl _)
        set t := (State.dopacket handled ⟨w, s.conn, s.binary⟩ (getBytes l readbufSize false)).count
          with ht
        split_ifs with hblank hdead hleft
        · exact ⟨hlines', fun _ => ⟨fun _ => rfl, fun hne => absurd hunknown hne⟩⟩
        · exact ⟨hlines', fun halive => absurd (halive.symm.trans hdead) (by simp)⟩
        · exact ⟨hlines', fun _ => ⟨fun hstatus => absurd hstatus hleft, fun _ => htook hblank⟩⟩
        · have hstatus : t.conn.status = .unknown := not_not.mp hleft
          obtain ⟨hkeep, hspec⟩ := @ih t hlines' hstatus
          refine ⟨hkeep, fun halive => ⟨fun h => ?_, fun h => (htook hblank).trans
            ((hspec halive).2 h)⟩⟩
          exact ((hspec halive).1 h).trans (exemptFlood_of_unknown hstatus)

/-- **The loop for clients.** A client is no server after it, and not exempt if it was not. -/
theorem clientLoop_spec (conf : Conf) (hlines : Lines s.w recvq)
    (hclient : s.conn.status = .client) (now : ℤ) (checkflood tested : Bool) (n : ℕ) :
    Lines (clientLoop conf handled recvq now checkflood n tested s).w recvq ∧
      ((clientLoop conf handled recvq now checkflood n tested s).conn.dead = false →
        (clientLoop conf handled recvq now checkflood n tested s).conn.status = .client ∧
        (clientLoop conf handled recvq now checkflood n tested s).conn.exemptFlood =
          s.conn.exemptFlood) := by
  induction n generalizing s tested with
  | zero => exact ⟨hlines, fun _ => ⟨hclient, rfl⟩⟩
  | succ n ih =>
    rw [clientLoop]
    split_ifs with hdelay hflood
    · exact ⟨hlines, fun _ => ⟨hclient, rfl⟩⟩
    · exact ⟨hlines, fun _ => ⟨hclient, rfl⟩⟩
    · obtain ⟨htake, hnone⟩ | ⟨l, rest, w, hq, hterm, htake, hrest, hlines'⟩ := take_cases hlines
      · rw [htake]
        exact ⟨hlines, fun _ => ⟨hclient, rfl⟩⟩
      · rw [htake]
        dsimp only
        set t := State.dopacket handled ⟨w, s.conn, s.binary⟩ (getBytes l readbufSize false) with ht
        split_ifs with hblank hdead
        · exact ⟨hlines', fun _ => ⟨hclient, rfl⟩⟩
        · exact ⟨hlines', fun halive => absurd (halive.symm.trans hdead) (by simp)⟩
        · obtain ⟨hstatus, hexempt⟩ := dopacket_client hclient
          obtain ⟨hkeep, hspec⟩ := ih (s := t.count) hlines' hstatus true
          exact ⟨hkeep, fun halive => ⟨(hspec halive).1, ((hspec halive).2).trans hexempt⟩⟩

/-- The lines are in order, and a client that is not registered is not exempt. -/
structure Ready (recvq : ℕ) (s : State) : Prop where
  lines : Lines s.w recvq
  exempt : s.conn.dead = false → s.conn.status = .unknown → s.conn.exemptFlood = false

/-- The connection is alive, and is a server or exempt. -/
def Drains (c : Conn) : Prop :=
  c.dead = false ∧ (c.status.isAnyServer = true ∨ c.exemptFlood = true)

theorem parseRegistered_spec (hlines : Lines s.w recvq)
    (hn : (s.w.queue recvq).length ≤ n) (hne : s.conn.status ≠ .unknown) (now : ℤ) :
    Ready recvq (parseRegistered conf handled recvq now n s) ∧
      (Drains (parseRegistered conf handled recvq now n s).conn →
        Stopped
        (s.w.queue recvq) ((parseRegistered conf handled recvq now n s).w.queue recvq)) := by
  rw [parseRegistered]
  split_ifs with hdrain hclient
  · obtain ⟨hkeep, hspec⟩ := drainLoop_spec hlines hn hne
    exact ⟨⟨hkeep, fun halive h => absurd h (hspec halive).1⟩, fun h => (hspec h.1).2⟩
  · obtain ⟨hkeep, hspec⟩ := clientLoop_spec conf hlines hclient now
      (!(s.conn.oper && conf.noOperFlood)) false n
    refine ⟨⟨hkeep, fun halive h => absurd ((hspec halive).1.symm.trans h) (by simp)⟩, fun h => ?_⟩
    obtain ⟨hstatus, hexempt⟩ := hspec h.1
    exact absurd h.2 (by rw [hstatus, hexempt]; exact fun h => hdrain (h.imp
      (by simp [Status.isAnyServer]) id))
  · exact ⟨⟨hlines, fun _ h => absurd h hne⟩, fun h => absurd h.2 hdrain⟩

/-- **One call.** For a server or an exempt client all complete lines are taken, or the loop stops
behind an empty one. -/
theorem parseClientQueued_spec (hs : Ready recvq s) (now : ℤ) :
    Ready recvq (parseClientQueued conf handled recvq now s) ∧
      (Drains (parseClientQueued conf handled recvq now s).conn →
        Stopped (s.w.queue recvq)
        ((parseClientQueued conf handled recvq now s).w.queue recvq)) := by
  rw [parseClientQueued]
  cases hdead : s.conn.dead with
  | true => exact ⟨hs, fun h => absurd (h.1.symm.trans hdead) (by simp)⟩
  | false =>
    rw [if_neg (by simp)]
    dsimp only
    by_cases hunknown : s.conn.status = .unknown
    · rw [if_pos hunknown]
      obtain ⟨hlines, hspec⟩ := unknownLoop_spec (n := (s.w.queue recvq).length) hs.lines hunknown
      set t := unknownLoop handled recvq (s.w.queue recvq).length s with ht
      cases hdead' : t.conn.dead with
      | true => exact ⟨⟨hlines, fun h => absurd (h.symm.trans hdead') (by simp)⟩, fun h =>
          absurd (h.1.symm.trans hdead') (by simp)⟩
      | false =>
        rw [if_neg (by simp)]
        obtain ⟨hsame, htook⟩ := hspec hdead'
        by_cases hleft : t.conn.status = .unknown
        · have hexempt : t.conn.exemptFlood = false :=
            (hsame hleft).trans (hs.exempt hdead hunknown)
          have hnot : ¬ (t.conn.status.isAnyServer = true ∨ t.conn.exemptFlood = true) := by
            simp [hleft, hexempt, Status.isAnyServer]
          rw [parseRegistered, if_neg hnot, if_neg (by simp [hleft])]
          exact ⟨⟨hlines, fun _ _ => hexempt⟩, fun h => absurd h.2 hnot⟩
        · have htook := htook hleft
          obtain ⟨hready, hstopped⟩ := parseRegistered_spec hlines htook.length_le hleft now
          exact ⟨hready, fun h => (hstopped h).of_took htook⟩
    · rw [if_neg hunknown, if_neg (by simp [hdead])]
      exact parseRegistered_spec hs.lines le_rfl hunknown now

/-! ### Runs -/

theorem Ready.before {e : Event} {t : State} (hs : Ready recvq s) (h : before recvq s e = some t) :
    Ready recvq t := by
  cases e with
  | read first data now =>
    rw [Packet.before] at h
    split_ifs at h
    cases h
    exact ⟨hs.lines.parse (copies_terminated _) fun l _ hl => terminated_of_terminated hl _ _,
      hs.exempt⟩
  | recalc now =>
    rw [Packet.before] at h
    split_ifs at h
    cases h
    exact ⟨hs.lines, hs.exempt⟩

theorem Ready.settle (hs : Ready recvq s) (status : Status) (e : Event) :
    Ready recvq (settle conf recvq status s e) := by
  cases e with
  | read first data now =>
    rw [Packet.settle]
    split_ifs
    · exact ⟨hs.lines, nofun⟩
    · exact hs
  | recalc now =>
    rw [Packet.settle]
    split_ifs
    · exact ⟨hs.lines, hs.exempt⟩
    · exact hs

theorem Ready.step {s' : State} {e : Event} (hs : Ready recvq s)
    (hstep : Packet.step conf handled recvq s e = some s') : Ready recvq s' := by
  obtain ⟨t, ht, rfl⟩ := Option.map_eq_some_iff.mp hstep
  exact (parseClientQueued_spec (hs.before ht) e.now).1.settle _ e

theorem Ready.run {s' : State} {events : List Event} (hs : Ready recvq s)
    (hrun : Run.run (Packet.step conf handled recvq) s events = some s') : Ready recvq s' := by
  have hmeet : Run.StepsMeet (Packet.step conf handled recvq) (fun _ _ => True) s events :=
    Run.StepsMeet.of_forall (fun _ _ => trivial) s events
  exact Run.invariant (Ready recvq) (fun _ _ _ hs _ hstep => hs.step hstep) hs hmeet hrun

/-- **Draining.** In every run from a connection with an empty receive queue, whenever
`parse_client_queued` has run for a server or an exempt client that stays alive, no complete line is
left in the queue exactly when no empty line was in front of another complete line. -/
theorem drained_iff {events : List Event} {e : Event} {s' t : State}
    (hlist : (s.w.head recvq).list = []) (hexempt : s.conn.exemptFlood = false)
    (hrun : Run.run (step conf handled recvq) s events = some s') (ht : before recvq s' e = some t)
    (hdrains : Drains (parseClientQueued conf handled recvq e.now t).conn) :
    (∀ l ∈ (parseClientQueued conf handled recvq e.now t).w.queue recvq, l.terminated = false) ↔
      NoGap (t.w.queue recvq) := by
  have hstart : Ready recvq s :=
    ⟨Or.inl ⟨by simp [hlist], by simp [hlist], [], by simp [World.queue, hlist], by simp⟩,
      fun _ _ => hexempt⟩
  exact ((parseClientQueued_spec ((hstart.run hrun).before ht) e.now).2 hdrains).noGap_iff

end Loops

/-- Lines that do nothing. -/
def ignore (c : Conn) (_ : List UInt8) : Outcome :=
  ⟨false, none, false, c.oper, c.floodDone, c.sentParsed, c.allowRead⟩

/-- The settings of the example configuration. -/
def usualConf : Conf := ⟨false, 2, 8192⟩

/-- A server. -/
def serverStart : State :=
  ⟨World.init, ⟨.server, false, false, false, false, 0, maxFlood, 0⟩, false⟩

/-- A line whose CR and LF come in two chunks, and the one behind it, which is left. -/
theorem line_left : ∃ s' t,
    Run.run (step usualConf ignore 0) serverStart [.read true [65, 13] 0] = some s' ∧
      before 0 s' (.read true [10, 66, 13, 10] 0) = some t ∧
      Drains (parseClientQueued usualConf ignore 0 0 t).conn ∧
      ¬ ∀ l ∈ (parseClientQueued usualConf ignore 0 0 t).w.queue 0, l.terminated = false :=
  ⟨_, _, rfl, rfl, ⟨by decide +kernel, Or.inl (by decide +kernel)⟩, by decide +kernel⟩

/-- Two lines in one chunk are taken. -/
theorem drained_iff_small : ∃ t, before 0 serverStart (.read true [65, 13, 10, 66, 13, 10] 0) =
    some t ∧ ∀ l ∈ (parseClientQueued usualConf ignore 0 0 t).w.queue 0, l.terminated = false :=
  ⟨_, rfl, (@drained_iff usualConf ignore 0 serverStart [] (.read true [65, 13, 10, 66, 13, 10] 0)
    serverStart _ rfl rfl rfl rfl ⟨by decide +kernel, Or.inl (by decide +kernel)⟩).mpr (by
      decide +kernel)⟩

end Ratbox.Packet
