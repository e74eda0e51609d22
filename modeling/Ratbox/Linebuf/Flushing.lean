import Ratbox.Linebuf.Basic
import Ratbox.Lib.Transfer

/-!
# Sending the lines of a queue

`rb_linebuf_flush` offers the complete lines at the front of a queue to the write, or only the first
one on an SSL connection. What the write does not take is offered again by the next call: whole
lines stay in the queue, and of the first line the bytes from the write offset on. The calls send
the lines of the queue in order, whatever the write takes of each offer.

Source: `libratbox/src/linebuf.c`, lines 105–127 and 699–829.

## Main definitions

* `Linebuf.unsent`: the bytes of a queue that are still to be sent.
* `Linebuf.Sendable`: a queue of complete lines.
* `Linebuf.flushStep`: a call of `rb_linebuf_flush`, with the bytes it sends.

## Main results

* `Linebuf.flush_sends`: the calls send what is queued, in order.
-/

namespace Ratbox.Linebuf

open Run Transfer List World Option Function

/-- The bytes of a queue from the write offset on. -/
def unsent (w : World) (h : ℕ) : List UInt8 :=
  ((w.queue h).flatMap (·.buf)).drop (w.head h).writeofs.toNat

/-- A queue of complete lines, each with its bytes; every place of the queue counts as a reference,
and the write offset is in the first line. -/
structure Sendable (w : World) (h : ℕ) : Prop where
  terminated : ∀ l ∈ w.queue h, l.terminated = true
  len : ∀ l ∈ w.queue h, l.len = l.buf.length
  refs : ∀ a ∈ (w.head h).list, ((w.head h).list.count a : ℤ) ≤ (w.line a).refcount
  writeofs_nonneg : 0 ≤ (w.head h).writeofs
  writeofs_le : ∀ l ∈ (w.queue h).head?, (w.head h).writeofs ≤ l.len

/-- A call of `rb_linebuf_flush`, where the write takes at most what it is offered, or fails. -/
def flushStep (maxiov h : ℕ) (w : World) (call : Bool × ℤ) : Option (Moved World UInt8) :=
  let given := offered maxiov w h call.1
  if call.2 ≤ given.length then
    let r := flush maxiov w h call.1 call.2
    some ⟨r.1, [], given.take r.2.toNat⟩
  else none

section Release

variable {w : World} {h a : ℕ} {rest : List ℕ}

/-- The first line is released, and the write offset starts again. -/
def release (w : World) (h : ℕ) : World :=
  doneLine (w.setHead h { w.head h with writeofs := 0 }) h

theorem doneLine_setWriteofs (w : World) (h : ℕ) :
    (doneLine w h).setHead h { (doneLine w h).head h with writeofs := 0 } = release w h := by
  rw [release, doneLine, doneLine]
  cases hlist : (w.head h).list with
  | nil => simp [hlist]
  | cons a rest =>
    simp only [head_setHead_self, line_setHead, hlist]
    split_ifs <;> simp [setHead, setLine]

/-- What a release does to the queue and to the lines. -/
theorem release_spec (hlist : (w.head h).list = a :: rest) :
    ((release w h).head h).list = rest ∧ ((release w h).head h).writeofs = 0 ∧
      (release w h).line = update w.line a
        (if (w.line a).refcount - 1 = 0 then BufLine.empty
          else { w.line a with refcount := (w.line a).refcount - 1 }) := by
  rw [release, doneLine]
  simp only [head_setHead_self, line_setHead, hlist]
  split_ifs <;> exact ⟨by simp, by simp, rfl⟩

section

variable (hw : Sendable w h)
include hw

/-- A line that stays in the queue is as it was, but for the count of references. -/
theorem Sendable.line_release (hlist : (w.head h).list = a :: rest) {b : ℕ}
    (hb : b ∈ rest) : ((release w h).line b).buf = (w.line b).buf ∧
      ((release w h).line b).len = (w.line b).len ∧
      ((release w h).line b).terminated = (w.line b).terminated ∧
      (rest.count b : ℤ) ≤ ((release w h).line b).refcount := by
  obtain ⟨-, -, hline⟩ := release_spec hlist
  have hrefs := hw.refs b (by simp [hlist, hb])
  rw [hlist] at hrefs
  rw [hline]
  by_cases hba : b = a
  · subst hba
    -- The line is in the queue once more, so that it is not freed.
    have hpos : 0 < rest.count b := count_pos_iff.mpr hb
    rw [count_cons_self] at hrefs
    rw [update_self, if_neg (by omega)]
    exact ⟨rfl, rfl, rfl, by dsimp only; omega⟩
  · rw [count_cons_of_ne (Ne.symm hba)] at hrefs
    rw [update_of_ne hba]
    exact ⟨rfl, rfl, rfl, hrefs⟩

theorem Sendable.queue_release (hlist : (w.head h).list = a :: rest) (n : ℕ) :
    (((release w h).queue h).take n).flatMap (·.buf) =
      ((rest.map w.line).take n).flatMap (·.buf) := by
  rw [queue, (release_spec hlist).1, ← map_take, ← map_take, flatMap_map,
    flatMap_map]
  refine flatMap_congr fun b hb => ?_
  exact (hw.line_release hlist (mem_of_mem_take hb)).1

theorem Sendable.release (hlist : (w.head h).list = a :: rest) : Sendable (release w h) h := by
  obtain ⟨hrest, hofs, -⟩ := release_spec hlist
  have hmem : ∀ l ∈ (Linebuf.release w h).queue h, ∃ b ∈ rest, (Linebuf.release w h).line b =
      l := by
    intro l hl
    rw [queue, hrest] at hl
    exact mem_map.mp hl
  have hqueue : ∀ b ∈ rest, w.line b ∈ w.queue h := by
    intro b hb
    rw [queue, hlist]
    exact mem_map_of_mem (mem_cons_of_mem a hb)
  have hlen : ∀ l ∈ (Linebuf.release w h).queue h, l.len = l.buf.length := by
    intro l hl
    obtain ⟨b, hb, rfl⟩ := hmem l hl
    obtain ⟨hbuf, hlen, -⟩ := hw.line_release hlist hb
    rw [hlen, hbuf]
    exact hw.len _ (hqueue b hb)
  refine ⟨?_, hlen, ?_, by omega, ?_⟩
  · intro l hl
    obtain ⟨b, hb, rfl⟩ := hmem l hl
    obtain ⟨-, -, hterm, -⟩ := hw.line_release hlist hb
    rw [hterm]
    exact hw.terminated _ (hqueue b hb)
  · intro b hb
    rw [hrest] at hb ⊢
    exact (hw.line_release hlist hb).2.2.2
  · intro l hl
    rw [hofs, hlen l (mem_of_mem_head? hl)]
    omega

/-- The bytes of the first line from the write offset on, and the bytes of the others. -/
theorem Sendable.unsent_cons (hlist : (w.head h).list = a :: rest) :
    unsent w h = (w.line a).buf.drop (w.head h).writeofs.toNat ++
    unsent (Linebuf.release w h) h := by
  have hqueue : w.queue h = w.line a :: rest.map w.line := by rw [queue, hlist, map_cons]
  have hle := hw.writeofs_le (w.line a) (by simp [hqueue])
  have hrest := hw.queue_release hlist rest.length
  rw [take_of_length_le (by simp [queue, (release_spec hlist).1]),
    take_of_length_le (by simp)] at hrest
  rw [hw.len (w.line a) (by simp [hqueue])] at hle
  rw [unsent, unsent, hrest, (release_spec hlist).2.1, hqueue, flatMap_cons,
    drop_append_of_le_length (by omega), Int.toNat_zero, drop_zero]

/-- When all of the first line is written, the rest is written of the other lines. -/
theorem Sendable.drop_unsent (hlist : (w.head h).list = a :: rest) {n : ℤ}
    (hn : (w.line a).len - (w.head h).writeofs ≤ n) :
    (unsent w h).drop n.toNat = (unsent (Linebuf.release w h) h).drop
      (n - ((w.line a).len - (w.head h).writeofs)).toNat := by
  have hqueue : w.queue h = w.line a :: rest.map w.line := by rw [queue, hlist, map_cons]
  have hlen := hw.len (w.line a) (by simp [hqueue])
  have hofs := hw.writeofs_le (w.line a) (by simp [hqueue])
  have hnonneg := hw.writeofs_nonneg
  have hfirst : ((w.line a).buf.drop (w.head h).writeofs.toNat).drop n.toNat = [] :=
    drop_eq_nil_of_le (by rw [length_drop]; omega)
  rw [hw.unsent_cons hlist, drop_append, hfirst, nil_append, length_drop]
  congr 1
  omega

end

end Release

section Flush

variable {w : World} {h : ℕ}

/-- The write offset goes on in the first line. -/
theorem Sendable.advance (hw : Sendable w h) {a : ℕ} {rest : List ℕ}
    (hlist : (w.head h).list = a :: rest) {n : ℤ} (hn : 0 ≤ n)
    (hle : (w.head h).writeofs + n ≤ (w.line a).len) {b : BufHead}
    (hb : b = { w.head h with writeofs := (w.head h).writeofs + n }) :
    Sendable (w.setHead h b) h ∧ unsent (w.setHead h b) h = (unsent w h).drop n.toNat := by
  have hnonneg := hw.writeofs_nonneg
  have hqueue : (w.setHead h b).queue h = w.queue h := by
    rw [queue, queue, head_setHead_self, hb, line_setHead]
  refine ⟨⟨?_, ?_, ?_, ?_, ?_⟩, ?_⟩
  · rw [hqueue]
    exact hw.terminated
  · rw [hqueue]
    exact hw.len
  · rw [head_setHead_self, hb]
    exact hw.refs
  · rw [head_setHead_self, hb]
    dsimp only
    omega
  · intro l hl
    rw [hqueue, queue, hlist] at hl
    obtain rfl : w.line a = l := by simpa using hl
    rw [head_setHead_self, hb]
    exact hle
  · rw [unsent, unsent, hqueue, head_setHead_self, hb, drop_drop]
    dsimp only
    rw [Int.toNat_add hnonneg hn]

/-- **The `writev` path.** The bytes that are written are those at the front. -/
theorem Sendable.flushLoop (hw : Sendable w h) {n : ℕ} {xret : ℤ} (hx : 0 ≤ xret)
    (hle : xret ≤ ((((w.queue h).take n).flatMap (·.buf)).drop (w.head h).writeofs.toNat).length) :
    Sendable (flushLoop n w h xret) h ∧
      unsent (flushLoop n w h xret) h = (unsent w h).drop xret.toNat := by
  induction n generalizing w xret with
  | zero =>
    obtain rfl : xret = 0 := by
      simp at hle
      omega
    exact ⟨hw, rfl⟩
  | succ n ih =>
    rw [Linebuf.flushLoop]
    cases hlist : (w.head h).list with
    | nil =>
      have hnone : w.queue h = [] := by rw [queue, hlist, map_nil]
      refine ⟨hw, ?_⟩
      simp [unsent, hnone]
    | cons a rest =>
      have hqueue : w.queue h = w.line a :: rest.map w.line := by
        rw [queue, hlist, map_cons]
      have hlen := hw.len (w.line a) (by simp [hqueue])
      have hofs := hw.writeofs_le (w.line a) (by simp [hqueue])
      have hnonneg := hw.writeofs_nonneg
      dsimp only
      split_ifs with hall
      · rw [doneLine_setWriteofs]
        -- The whole line is written, and the rest of the bytes are those of the lines behind it.
        have hrest : xret - ((w.line a).len - (w.head h).writeofs) ≤
            (((((Linebuf.release w h).queue h).take n).flatMap (·.buf)).drop
              ((Linebuf.release w h).head h).writeofs.toNat).length := by
          rw [hw.queue_release hlist, (release_spec hlist).2.1, Int.toNat_zero, drop_zero]
          rw [hqueue, take_succ_cons, flatMap_cons, length_drop,
            length_append] at hle
          omega
        obtain ⟨hsend, hunsent⟩ := ih (hw.release hlist) (by omega) hrest
        refine ⟨hsend, ?_⟩
        rw [hunsent, hw.drop_unsent hlist hall]
      · exact hw.advance hlist hx (by omega) rfl

/-- What is offered is at the front of what is to be sent. -/
theorem offered_prefix (maxiov : ℕ) (w : World) (h : ℕ) (ssl : Bool) :
    offered maxiov w h ssl <+: unsent w h := by
  have htake : ∀ n, (((w.queue h).take n).flatMap (·.buf)).drop (w.head h).writeofs.toNat <+:
      unsent w h := by
    intro n
    have hprefix : ((w.queue h).take n).flatMap (·.buf) <+: (w.queue h).flatMap (·.buf) :=
      ⟨((w.queue h).drop n).flatMap (·.buf), by
        rw [← flatMap_append, take_append_drop]⟩
    obtain ⟨t, ht⟩ := hprefix
    rw [unsent, ← ht, drop_append]
    exact prefix_append _ _
  exact htake _

/-- **A call sends what is at the front**, and leaves the rest to be sent. -/
theorem Sendable.flush (hw : Sendable w h) {maxiov : ℕ} {ssl : Bool} {retval : ℤ}
    (hle : retval ≤ (offered maxiov w h ssl).length) :
    Sendable (flush maxiov w h ssl retval).1 h ∧
      unsent (flush maxiov w h ssl retval).1 h =
        (unsent w h).drop (Linebuf.flush maxiov w h ssl retval).2.toNat := by
  rw [Linebuf.flush]
  cases hlist : (w.head h).list with
  | nil => exact ⟨hw, rfl⟩
  | cons a rest =>
    have hqueue : w.queue h = w.line a :: rest.map w.line := by
      rw [queue, hlist, map_cons]
    have hterm := hw.terminated (w.line a) (by simp [hqueue])
    have hlen := hw.len (w.line a) (by simp [hqueue])
    have hnonneg := hw.writeofs_nonneg
    dsimp only
    rw [hterm, Bool.not_true, if_neg (by simp)]
    split_ifs with hneg hssl hall
    · refine ⟨hw, ?_⟩
      rw [Int.toNat_of_nonpos hneg, drop_zero]
    · have hend : retval - ((w.line a).len - (w.head h).writeofs) = 0 := by omega
      refine ⟨hw.release hlist, ?_⟩
      rw [hw.drop_unsent hlist (by omega), hend, Int.toNat_zero, drop_zero]
      rfl
    · refine hw.advance hlist (by omega) ?_ rfl
      rw [offered, if_pos hssl, hqueue, take_succ_cons, take_zero, flatMap_cons,
        flatMap_nil, append_nil, length_drop] at hle
      omega
    · refine hw.flushLoop (by omega) ?_
      rwa [offered, if_neg hssl] at hle

/-- A call returns what the write returns, or an error. -/
theorem flush_snd (maxiov : ℕ) (w : World) (h : ℕ) (ssl : Bool) (retval : ℤ) :
    (flush maxiov w h ssl retval).2 = -1 ∨ (flush maxiov w h ssl retval).2 = retval := by
  rw [Linebuf.flush]
  cases (w.head h).list with
  | nil => exact .inl rfl
  | cons a rest =>
    dsimp only
    split_ifs
    · exact .inl rfl
    all_goals exact .inr rfl

/-- **The calls send what is queued**, in order: what they sent, with what is still to be sent, is
what was to be sent at first. When the queue is empty, everything has been sent. -/
theorem flush_sends {maxiov : ℕ} (hw : Sendable w h) {calls : List (Bool × ℤ)}
    {l : Log World UInt8} (hrun : run (Transfer.step (flushStep maxiov h)) (.start w) calls =
      some l) :
    l.given <+: unsent w h ∧ l.given ++ unsent l.state h = unsent w h ∧
      ((l.state.head h).list = [] → l.given = unsent w h) := by
  have hpasses : ∀ v call m, Sendable v h → flushStep maxiov h v call = some m →
      m.taken = [] ∧ Passes (Sendable · h) (unsent · h) v m := by
    intro v call m hv hcall
    rw [flushStep] at hcall
    dsimp only at hcall
    split_ifs at hcall with hle
    cases hcall
    obtain ⟨hsend, hunsent⟩ := hv.flush hle
    obtain ⟨rest, hrest⟩ := offered_prefix maxiov v h call.1
    have hshort : (Linebuf.flush maxiov v h call.1 call.2).2.toNat ≤
        (offered maxiov v h call.1).length := by
      rcases flush_snd maxiov v h call.1 call.2 with hret | hret
      · rw [hret]
        exact Nat.zero_le _
      · rw [hret]
        omega
    refine ⟨rfl, hsend, ?_⟩
    dsimp only
    rw [append_nil, hunsent, ← hrest, drop_append_of_le_length hshort,
      ← append_assoc, take_append_drop]
  obtain ⟨-, hsent⟩ := drained hpasses hw hrun
  refine ⟨⟨_, hsent⟩, hsent, fun hempty => ?_⟩
  have hnone : unsent l.state h = [] := by simp [unsent, queue, hempty]
  rw [← hsent, hnone, append_nil]

end Flush

/-- A queue of the lines `ab` and `c`. -/
def abcLines : World :=
  { line := fun a => if a = 0 then ⟨[97, 98, 13, 10], true, false, 4, 1⟩
      else if a = 1 then ⟨[99, 13, 10], true, false, 3, 1⟩ else BufLine.empty
    head := fun h => if h = 0 then ⟨[0, 1], 7, 2, 0, 2⟩ else BufHead.empty
    fresh := 2 }

/-- The write takes three bytes, then nothing, then three, which end in the second line. -/
theorem flush_sends_abc :
    ∃ l, run (Transfer.step (flushStep 16 0)) (.start abcLines)
        [(false, 3), (false, -1), (false, 3)] = some l ∧
      l.given = [97, 98, 13, 10, 99, 13] ∧ unsent l.state 0 = [10] ∧
      l.given ++ unsent l.state 0 = [97, 98, 13, 10, 99, 13, 10] := by
  have hsend : Sendable abcLines 0 := by
    refine ⟨by decide, by decide, by decide, by decide, ?_⟩
    rintro l ⟨⟩
    decide
  obtain ⟨l, hl⟩ := isSome_iff_exists.mp (show (run (Transfer.step (flushStep 16 0))
    (.start abcLines) [(false, 3), (false, -1), (false, 3)]).isSome = true by decide)
  have hgiven : ((run (Transfer.step (flushStep 16 0)) (.start abcLines)
      [(false, 3), (false, -1), (false, 3)]).map (·.given)) =
        some [97, 98, 13, 10, 99, 13] := by decide
  rw [hl, map_some, some.injEq] at hgiven
  have hall := (flush_sends hsend hl).2.1
  have hcontent : unsent abcLines 0 = [97, 98, 13, 10, 99, 13, 10] := by decide
  rw [hcontent] at hall
  refine ⟨l, hl, hgiven, ?_, hall⟩
  rw [hgiven] at hall
  simpa using hall

end Ratbox.Linebuf
