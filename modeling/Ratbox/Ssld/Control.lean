import Ratbox.Lib.Drain
import Ratbox.Lib.Run

/-!
# The control channel between ircd and ssld

The server and its helper for TLS and compression talk over a socket for messages, on which
descriptors are passed too. A message is queued, and the queue is drained at once and whenever the
socket can be written.

Source: `src/sslproc.c`, lines 51–74, 150–163 and 567–626, and `ssld/ssld.c`, lines 41–60, 367–378
and 1190–1219.

## Main definitions

* `Ssld.CtlBuf`, `Ssld.Ctl`: a message, and one end of the channel.
* `Ssld.sslWriteCtl`, `Ssld.modWriteCtl`: the functions of the two programs that drain the queue.
* `Ssld.Fifo`: what was sent is the front of what was queued.

## Main results

* `Ssld.fifo_iff`: the channel is FIFO exactly in the runs in which no drain goes on to a message
  that can be sent behind one that cannot.

## Implementation notes

The socket keeps messages whole, and takes or refuses one as the operating system says: the answers
are part of the run. What `ssl_dead` starts in place of a helper that died has a channel of its own.
-/

namespace Ratbox.Ssld

open Drain Run List Option

/-- `MAXPASSFD`. -/
def maxPassFd : ℕ := 4

/-- The descriptors of a message fit its array. -/
abbrev Fds := { fds : List ℕ // fds.length ≤ maxPassFd }

/-- `ssl_ctl_buf_t` and `mod_ctl_buf_t`, with the address. -/
structure CtlBuf where
  node : ℕ
  buf : List UInt8
  fds : Fds
  deriving DecidableEq

/-- `struct _ssl_ctl` and `mod_ctl_t`: the queue, whether the channel is dead or its program gone,
whether a handler waits for the socket, and the descriptors that were closed. The next address to
allocate a message at, and the messages that were queued and those that were sent so far, are on
record. -/
structure Ctl where
  writeq : List CtlBuf
  dead : Bool
  armed : Bool
  closed : List ℕ
  fresh : ℕ
  queued : List CtlBuf
  sent : List CtlBuf
  deriving DecidableEq

/-- A channel at the start. -/
def Ctl.start : Ctl := ⟨[], false, false, [], 0, [], []⟩

/-- A message at the end of the queue. -/
def Ctl.enqueue (s : Ctl) (buf : List UInt8) (fds : Fds) : Ctl :=
  let m : CtlBuf := ⟨s.fresh, buf, fds⟩
  { s with writeq := s.writeq ++ [m], queued := s.queued ++ [m], fresh := s.fresh + 1 }

/-- The loop over the queue. A message that was sent is freed and its descriptors are closed; after
an error that is not ignored the loop ends. -/
def Ctl.drainQueue (s : Ctl) (answers : List Answer) : Option Ctl :=
  (drain s.writeq answers).map fun d =>
    { s with
      writeq := d.left
      dead := d.dead
      closed := s.closed ++ d.sent.flatMap fun m => m.fds.val
      sent := s.sent ++ d.sent }

/-- `ssl_write_ctl`. -/
def sslWriteCtl (s : Ctl) (answers : List Answer) : Option Ctl :=
  if s.dead then if answers = [] then some s else none
  else (s.drainQueue answers).map fun t => if answers.any (· ≠ .fatal) then { t with armed := true }
    else t

/-- `ssl_cmd_write_queue`. -/
def sslCmdWriteQueue (s : Ctl) (buf : List UInt8) (fds : Fds) (answers : List Answer) :
    Option Ctl :=
  if s.dead then if answers = [] then some s else none
  else sslWriteCtl (s.enqueue buf fds) answers

/-- `mod_write_ctl`. On an error the program exits. -/
def modWriteCtl (s : Ctl) (answers : List Answer) : Option Ctl :=
  (s.drainQueue answers).map fun t => if t.dead = false ∧ t.writeq ≠ [] then { t with
    armed := true } else t

/-- `mod_cmd_write_queue`. -/
def modCmdWriteQueue (s : Ctl) (buf : List UInt8) (answers : List Answer) : Option Ctl :=
  modWriteCtl (s.enqueue buf ⟨[], Nat.zero_le _⟩) answers

/-- The two programs. -/
inductive Program
  | ircd
  | ssld
  deriving DecidableEq

/-- What happens: a message is queued, the socket can be written, or the other program is found to
be gone. -/
inductive Op
  | queue (buf : List UInt8) (fds : Fds) (answers : List Answer)
  | writable (answers : List Answer)
  | gone
  deriving DecidableEq

/-- The answers that the messages get which are offered. -/
def Op.answers : Op → List Answer
  | .queue _ _ answers => answers
  | .writable answers => answers
  | .gone => []

/-- A step. The socket is watched once a handler is set, which is for one time. -/
def step : Program → Ctl → Op → Option Ctl
  | .ircd, s, .queue buf fds answers => sslCmdWriteQueue s buf fds answers
  | .ircd, s, .writable answers => if s.armed then sslWriteCtl { s with armed := false } answers
    else none
  | .ssld, s, .queue buf fds answers => if s.dead ∨ fds.val ≠ [] then none else modCmdWriteQueue s
    buf answers
  | .ssld, s, .writable answers =>
    if s.dead = false ∧ s.armed = true then modWriteCtl { s with armed := false } answers else none
  | _, s, .gone => some { s with dead := true }

/-- **FIFO**: the messages that were sent are the front of those that were queued, each once, and
those that are still queued are the rest. -/
structure Fifo (s : Ctl) : Prop where
  rest : s.queued = s.sent ++ s.writeq
  once : (s.queued.map CtlBuf.node).Nodup

/-- The invariant: FIFO, and the addresses are allocated. -/
structure Inv (s : Ctl) : Prop where
  fifo : Fifo s
  lt_fresh : ∀ m ∈ s.queued, m.node < s.fresh

section Steps

variable {p : Program} {s s' t : Ctl} {op : Op} {answers : List Answer} {ops : List Op}

/-- The messages are as before. -/
structure SameMessages (s t : Ctl) : Prop where
  writeq : t.writeq = s.writeq
  sent : t.sent = s.sent
  queued : t.queued = s.queued
  fresh : t.fresh = s.fresh

/-- The queue was drained, or nothing was offered. -/
def Written (s t : Ctl) (answers : List Answer) : Prop :=
  (answers = [] ∧ SameMessages s t) ∨ ∃ d, drain s.writeq answers = some d ∧ t.writeq = d.left ∧
    t.sent = s.sent ++ d.sent ∧ t.queued = s.queued ∧ t.fresh = s.fresh

theorem Inv.same (h : Inv s) (hsame : SameMessages s t) : Inv t := by
  refine ⟨⟨?_, ?_⟩, ?_⟩
  · rw [hsame.queued, hsame.sent, hsame.writeq]
    exact h.fifo.rest
  · rw [hsame.queued]
    exact h.fifo.once
  · rw [hsame.queued, hsame.fresh]
    exact h.lt_fresh

theorem Inv.enqueue (h : Inv s) (buf : List UInt8) (fds : Fds) : Inv (s.enqueue buf fds) := by
  refine ⟨⟨?_, ?_⟩, fun m hm => ?_⟩
  · rw [Ctl.enqueue]
    dsimp only
    rw [h.fifo.rest, append_assoc]
  · rw [Ctl.enqueue, map_append, map_singleton]
    refine nodup_append.mpr ⟨h.fifo.once, nodup_singleton _, fun n hn n' hn' => ?_⟩
    obtain ⟨m, hm, rfl⟩ := mem_map.mp hn
    rw [mem_singleton.mp hn']
    exact (h.lt_fresh m hm).ne
  · obtain hm | hm := mem_append.mp hm
    · exact Nat.lt_succ_of_lt (h.lt_fresh m hm)
    · rw [mem_singleton.mp hm]
      exact Nat.lt_succ_self _

/-- The messages in the queue are different ones. -/
theorem Fifo.nodup_writeq (h : Fifo s) : s.writeq.Nodup := by
  have hqueued := Nodup.of_map _ h.once
  rw [h.rest] at hqueued
  exact (nodup_append.mp hqueued).2.1

/-- Answers in order keep the channel FIFO. -/
theorem Inv.written (h : Inv s) (hw : Written s t answers) (hanswers : InOrder answers) :
    Inv t := by
  obtain ⟨-, hsame⟩ | ⟨d, hd, hwriteq, hsent, hqueued, hfresh⟩ := hw
  · exact h.same hsame
  · refine ⟨⟨?_, ?_⟩, ?_⟩
    · rw [hqueued, hsent, hwriteq, append_assoc, append_of_inOrder hd hanswers]
      exact h.fifo.rest
    · rw [hqueued]
      exact h.fifo.once
    · rw [hqueued, hfresh]
      exact h.lt_fresh

/-- With answers that are not in order, a message is in front of one that is still queued. -/
theorem Inv.not_fifo (h : Inv s) (hw : Written s t answers) (hanswers : ¬InOrder answers) :
    ¬Fifo t := by
  obtain ⟨rfl, -⟩ | ⟨d, hd, hwriteq, hsent, hqueued, -⟩ := hw
  · exact absurd Pairwise.nil hanswers
  · intro hfifo
    have hrest := hfifo.rest
    rw [hqueued, hsent, hwriteq, h.fifo.rest, append_assoc, append_cancel_left_eq] at hrest
    exact hanswers ((sent_prefix_iff hd h.fifo.nodup_writeq).mp ⟨d.left, hrest.symm⟩)

theorem written_of_drainQueue (h : s.drainQueue answers = some t) : Written s t answers := by
  obtain ⟨d, hd, rfl⟩ := map_eq_some_iff.mp h
  exact .inr ⟨d, hd, rfl, rfl, rfl, rfl⟩

/-- A handler that is set leaves the messages. -/
theorem Written.armed (h : Written s t answers) (b : Bool) :
    Written s { t with armed := b } answers := by
  obtain ⟨hnil, hsame⟩ | hdrain := h
  · exact .inl ⟨hnil, hsame.writeq, hsame.sent, hsame.queued, hsame.fresh⟩
  · exact .inr hdrain

theorem written_of_sslWriteCtl (h : sslWriteCtl s answers = some t) : Written s t answers := by
  rw [sslWriteCtl] at h
  by_cases hdead : s.dead = true
  · rw [if_pos hdead] at h
    split_ifs at h with hnil
    cases h
    exact .inl ⟨hnil, rfl, rfl, rfl, rfl⟩
  · rw [if_neg hdead] at h
    obtain ⟨t', ht', rfl⟩ := map_eq_some_iff.mp h
    split_ifs
    · exact (written_of_drainQueue ht').armed true
    · exact written_of_drainQueue ht'

theorem written_of_modWriteCtl (h : modWriteCtl s answers = some t) : Written s t answers := by
  obtain ⟨t', ht', rfl⟩ := map_eq_some_iff.mp h
  split_ifs
  · exact (written_of_drainQueue ht').armed true
  · exact written_of_drainQueue ht'

/-- **What a step does**: it may add a message to the queue, and drains it. -/
theorem step_cases (h : step p s op = some t) :
    ∃ s', (SameMessages s s' ∨ ∃ buf fds, s' = s.enqueue buf fds) ∧ Written s' t op.answers := by
  cases p with
  | ircd =>
    cases op with
    | queue buf fds answers =>
      rw [step, sslCmdWriteQueue] at h
      split_ifs at h with hdead hnil
      · cases h
        exact ⟨s, .inl ⟨rfl, rfl, rfl, rfl⟩, .inl ⟨hnil, rfl, rfl, rfl, rfl⟩⟩
      · exact ⟨_, .inr ⟨buf, fds, rfl⟩, written_of_sslWriteCtl h⟩
    | writable answers =>
      rw [step] at h
      split_ifs at h with harmed
      exact ⟨{ s with armed := false }, .inl ⟨rfl, rfl, rfl, rfl⟩, written_of_sslWriteCtl h⟩
    | gone =>
      cases h
      exact ⟨s, .inl ⟨rfl, rfl, rfl, rfl⟩, .inl ⟨rfl, rfl, rfl, rfl, rfl⟩⟩
  | ssld =>
    cases op with
    | queue buf fds answers =>
      rw [step] at h
      split_ifs at h with hgone
      exact ⟨_, .inr ⟨buf, _, rfl⟩, written_of_modWriteCtl h⟩
    | writable answers =>
      rw [step] at h
      split_ifs at h with harmed
      exact ⟨{ s with armed := false }, .inl ⟨rfl, rfl, rfl, rfl⟩, written_of_modWriteCtl h⟩
    | gone =>
      cases h
      exact ⟨s, .inl ⟨rfl, rfl, rfl, rfl⟩, .inl ⟨rfl, rfl, rfl, rfl, rfl⟩⟩

theorem Inv.prepared (h : Inv s) (hs' : SameMessages s s' ∨ ∃ buf fds, s' = s.enqueue buf fds) :
    Inv s' := by
  obtain hsame | ⟨buf, fds, rfl⟩ := hs'
  · exact h.same hsame
  · exact h.enqueue buf fds

theorem inv_start : Inv Ctl.start := ⟨⟨rfl, nodup_nil⟩, fun _ hm => absurd hm not_mem_nil⟩

/-- **The channel is FIFO**, at every moment of a run of either program, exactly when in no drain a
message that can be sent comes behind one that cannot. -/
theorem fifo_iff (hrun : run (step p) Ctl.start ops = some t) :
    Always (step p) Fifo Ctl.start ops ↔ ∀ op ∈ ops, InOrder op.answers := by
  rw [← stepsMeet_iff_forall hrun]
  refine always_iff Inv (fun s h => h.fifo) (fun s op s' h hop hstep => ?_)
    (fun s op s' h hop hstep => ?_) inv_start hrun
  · obtain ⟨s₁, hs₁, hw⟩ := step_cases hstep
    exact (h.prepared hs₁).written hw hop
  · obtain ⟨s₁, hs₁, hw⟩ := step_cases hstep
    exact (h.prepared hs₁).not_fifo hw hop

end Steps

/-- A message of one byte. -/
def oneByte (b : UInt8) (answers : List Answer) : Op := .queue [b] ⟨[], Nat.zero_le _⟩ answers

theorem fifo_iff_small :
    Always (step .ircd) Fifo Ctl.start [oneByte 65 [.again], oneByte 67 [.sent, .sent]] :=
  (fifo_iff (t := ⟨[], false, true, [], 2, [⟨0, [65], ⟨[], Nat.zero_le _⟩⟩,
    ⟨1, [67], ⟨[], Nat.zero_le _⟩⟩], [⟨0, [65], ⟨[], Nat.zero_le _⟩⟩,
      ⟨1, [67], ⟨[], Nat.zero_le _⟩⟩]⟩) (by decide)).mpr (by decide)

/-- The first message cannot be sent twice, and the second one is sent in front of it. -/
theorem second_sent_first :
    (run (step .ircd) Ctl.start [oneByte 65 [.again], oneByte 67 [.again, .sent]]).map
    (fun s => (s.sent.map CtlBuf.buf, s.writeq.map CtlBuf.buf)) = some ([[67]], [[65]]) := by decide

end Ratbox.Ssld
