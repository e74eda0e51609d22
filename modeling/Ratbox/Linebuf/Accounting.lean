import Ratbox.Linebuf.Basic
import Ratbox.Lib.Run
import Mathlib.Algebra.BigOperators.Group.Finset.Basic
import Mathlib.Algebra.Order.BigOperators.Group.List
import Mathlib.Tactic.Ring
import Mathlib.Tactic.Linarith

/-!
# Counting the bytes and lines of a queue

A `buf_head_t` counts the bytes and the lines of its queue. The counts are adjusted by every
operation, and the length of a line that several queues hold is counted by each of them. They are
right after every run that does not overflow an unfinished line, does not lengthen an unfinished
line held twice, and does not put a text of nothing but line ends (`Linebuf.counted_of_run`).

Source: `libratbox/src/linebuf.c`, lines 72–127, 206–403 and 471–829.

## Main definitions

* `Linebuf.Counted`: the counts of a queue are those of its lines.
* `Linebuf.Op`, `Linebuf.step`: the operations on the queues of a process.
* `Linebuf.CountsKept`: the condition under which an operation keeps the counts right.
* `Linebuf.Sound`: the invariant of a run.

## Main results

* `Linebuf.counted_of_run`: the counts after a run.
-/

namespace Ratbox.Linebuf

open Run List Option Function Linebuf World

/-! ### The operations -/

/-- An operation on the queues. The text of `put` is what the formatter makes; `below` are the
bytes in front of the new line, nearest first. -/
inductive Op
  | parse (h : ℕ) (raw : Bool) (data : List UInt8)
  | get (h buflen : ℕ) (partl raw : Bool)
  | put (h : ℕ) (text below : List UInt8)
  | attach (h new : ℕ)
  | flush (maxiov h : ℕ) (ssl : Bool) (retval : ℤ)
  | donebuf (h : ℕ)
  deriving DecidableEq

/-- Make an operation. -/
def step (w : World) : Op → Option World
  | .parse h raw data => some (parse w h raw data).1
  | .get h buflen partl raw => some (get w h buflen partl raw).1
  | .put h text below => putText w h text below
  | .attach h new => attach w h new
  | .flush maxiov h ssl retval => some (flush maxiov w h ssl retval).1
  | .donebuf h => some (donebuf w h)

/-- The counts of the queue `h` are those of its lines. -/
structure Counted (w : World) (h : ℕ) : Prop where
  len : (w.head h).len = ((w.queue h).map (·.len)).sum
  alloclen : (w.head h).alloclen = (w.head h).list.length
  numlines : (w.head h).numlines = (w.head h).list.length

/-- The line at `a` is held once, by the queue `h`. -/
def HeldOnce (w : World) (h a : ℕ) : Prop :=
  (w.head h).list.count a = 1 ∧ ∀ h', h' ≠ h → a ∉ (w.head h').list

/-- Whether a chunk begins with a byte that is kept in the line it is appended to. -/
def lengthens (raw : Bool) (data : List UInt8) : Bool :=
  data.head?.any fun b => raw || !isCrlf b

/-- An operation that keeps the counts right. A chunk does not overflow an unfinished line, and
lengthens one only when it is held once; a text to send is not made of CR, LF and NUL bytes only,
or there are at most two more of these in front of it. -/
def CountsKept (w : World) : Op → Prop
  | .parse h raw data => ∀ a ∈ (w.head h).list.getLast?, (w.line a).terminated = false →
      (w.line a).len + skipCrlf data ≤ bufDataSize - 1 ∧
        (lengthens raw data = true → HeldOnce w h a)
  | .put _ text below => text = [] ∨ 510 < text.length ∨ (∃ b ∈ text, isChopped b = false) ∨
      (below.takeWhile isChopped).length ≤ 2
  | _ => True

/-! ### The invariant -/

/-- How many times the queues in `S` hold the line at `a`. -/
def holders (w : World) (S : Finset ℕ) (a : ℕ) : ℕ := ∑ h ∈ S, (w.head h).list.count a

/-- The invariant: every line counts its holders, and every queue its lines. -/
structure Sound (w : World) : Prop where
  refs : ∀ S a, (holders w S a : ℤ) ≤ (w.line a).refcount
  lt_fresh : ∀ h, ∀ a ∈ (w.head h).list, a < w.fresh
  nonneg : ∀ a, 0 ≤ (w.line a).len
  counted : ∀ h, Counted w h

theorem sound_init : Sound init where
  refs S a := by simp [holders, init, BufHead.empty, BufLine.empty]
  lt_fresh := by simp [init, BufHead.empty]
  nonneg a := le_rfl
  counted h := ⟨rfl, rfl, rfl⟩

variable {w w' w : World} {h a : ℕ} {S : Finset ℕ} {l : BufLine} {raw : Bool} {data : List UInt8}

/-- The bytes of a queue are never negative in number. -/
theorem Sound.len_nonneg (hw : Sound w) (h : ℕ) : 0 ≤ (w.head h).len := by
  rw [(hw.counted h).len]
  refine sum_nonneg fun n hn => ?_
  obtain ⟨l, hl, rfl⟩ := mem_map.mp hn
  obtain ⟨a, -, rfl⟩ := mem_map.mp hl
  exact hw.nonneg a

/-- Changing one value of a function changes its sum over a list by the occurrences there. -/
theorem sum_map_update (f : ℕ → ℤ) (a : ℕ) (v : ℤ) (ids : List ℕ) :
    (ids.map (update f a v)).sum = (ids.map f).sum + ids.count a * (v - f a) := by
  induction ids with
  | nil => simp
  | cons b ids ih =>
    rw [map_cons, sum_cons, map_cons, sum_cons, ih, count_cons]
    by_cases hba : b = a
    · subst hba
      simp
      ring
    · simp [hba]
      ring

/-- The lengths after a line is written. -/
theorem sum_queue_setLine (w : World) (h a : ℕ) (l : BufLine) :
    (((w.setLine a l).queue h).map (·.len)).sum =
      ((w.queue h).map (·.len)).sum + (w.head h).list.count a * (l.len - (w.line a).len) := by
  have hupd : (fun b => ((w.setLine a l).line b).len) =
      Function.update (fun b => (w.line b).len) a l.len := by
    funext b
    by_cases hb : b = a
    · subst hb
      simp
    · simp [line_setLine_of_ne w l hb, Function.update_of_ne hb]
  simp only [queue, head_setLine, List.map_map, Function.comp_def, hupd]
  exact sum_map_update _ a l.len _

theorem holders_of_mem (w : World) (hS : h ∈ S) (a : ℕ) :
    holders w S a = (w.head h).list.count a + holders w (S.erase h) a :=
  (Finset.add_sum_erase S (fun h => (w.head h).list.count a) hS).symm

theorem holders_of_not_mem (hS : h ∉ S)
    (hother : ∀ h', h' ≠ h → (w'.head h').list = (w.head h').list) (a : ℕ) :
    holders w' S a = holders w S a :=
  Finset.sum_congr rfl fun h' hh' => by rw [hother h' (ne_of_mem_of_not_mem hh' hS)]

theorem holders_congr (hlist : ∀ h, (w'.head h).list = (w.head h).list)
    (S : Finset ℕ) (a : ℕ) : holders w' S a = holders w S a := by
  simp [holders, hlist]

/-! ### What the operations are made of -/

/-- Only the write offset of a queue changes. -/
theorem Sound.setWriteofs (hw : Sound w) (h : ℕ) (n : ℤ) :
    Sound (w.setHead h { w.head h with writeofs := n }) := by
  have hlist : ∀ h', ((w.setHead h { w.head h with writeofs := n }).head h').list =
      (w.head h').list := by
    intro h'
    by_cases hh : h' = h
    · subst hh
      simp
    · rw [head_setHead_of_ne w _ hh]
  refine ⟨fun S a => ?_, fun h' => ?_, hw.nonneg, fun h' => ?_⟩
  · rw [holders_congr hlist]
    exact hw.refs S a
  · rw [hlist]
    exact hw.lt_fresh h'
  · obtain ⟨hlen, halloc, hnum⟩ := hw.counted h'
    by_cases hh : h' = h
    · subst hh
      exact ⟨by simpa [queue] using hlen, by simpa using halloc, by simpa using hnum⟩
    · exact ⟨by simpa [queue, head_setHead_of_ne w _ hh] using hlen,
        by simpa [head_setHead_of_ne w _ hh] using halloc,
        by simpa [head_setHead_of_ne w _ hh] using hnum⟩

/-- A line grows by `d` bytes together with its queue: if it grows at all, no other place may
hold it. -/
theorem Sound.resize (hw : Sound w) {d : ℤ}
    (hlen : l.len = (w.line a).len + d) (hnonneg : 0 ≤ l.len)
    (href : l.refcount = (w.line a).refcount) (honce : d ≠ 0 → HeldOnce w h a) :
    Sound ((w.setLine a l).setHead h { w.head h with len := (w.head h).len + d }) := by
  set w' := (w.setLine a l).setHead h { w.head h with len := (w.head h).len + d } with hw'
  have hother : ∀ h', h' ≠ h → w'.head h' = w.head h' := fun h' hh =>
    head_setHead_of_ne _ _ hh
  have hself : w'.head h = { w.head h with len := (w.head h).len + d } :=
    head_setHead_self ..
  have hlist : ∀ h', (w'.head h').list = (w.head h').list := by
    intro h'
    by_cases hh : h' = h
    · rw [hh, hself]
    · rw [hother h' hh]
  have hline : ∀ b, b ≠ a → w'.line b = w.line b := fun b hb => line_setLine_of_ne _ _ hb
  have hline_self : w'.line a = l := line_setLine_self ..
  have hsum : ∀ h', ((w'.queue h').map (·.len)).sum =
      ((w.queue h').map (·.len)).sum + (w.head h').list.count a * d := by
    intro h'
    have hq : w'.queue h' = (w.setLine a l).queue h' := by
      simp only [queue, hlist, head_setLine]
      rfl
    rw [hq, sum_queue_setLine, hlen]
    ring
  refine ⟨fun S b => ?_, fun h' => ?_, fun b => ?_, fun h' => ?_⟩
  · rw [holders_congr hlist]
    by_cases hb : b = a
    · rw [hb, hline_self, href]
      exact hw.refs S a
    · rw [hline b hb]
      exact hw.refs S b
  · rw [hlist]
    exact hw.lt_fresh h'
  · by_cases hb : b = a
    · rw [hb, hline_self]
      exact hnonneg
    · rw [hline b hb]
      exact hw.nonneg b
  · obtain ⟨hlen', halloc, hnum⟩ := hw.counted h'
    by_cases hh : h' = h
    · subst hh
      refine ⟨?_, by rw [hself]; exact halloc, by rw [hself]; exact hnum⟩
      rw [hsum, ← hlen', hself]
      by_cases hd : d = 0
      · simp [hd]
      · simp [(honce hd).1]
    · refine ⟨?_, by rw [hother h' hh]; exact halloc, by rw [hother h' hh]; exact hnum⟩
      rw [hsum, hother h' hh, hlen']
      by_cases hd : d = 0
      · simp [hd]
      · simp [count_eq_zero_of_not_mem ((honce hd).2 h' hh)]

/-- A queue takes one more holder of a line. -/
theorem Sound.attachLine (hw : Sound w) (h : ℕ) (ha : a < w.fresh) : Sound (attachLine w h a) := by
  set w' := Linebuf.attachLine w h a with hw'
  have hother : ∀ h', h' ≠ h → w'.head h' = w.head h' := fun h' hh =>
    head_setHead_of_ne _ _ hh
  have hlist : (w'.head h).list = (w.head h).list ++ [a] := by simp [hw', Linebuf.attachLine]
  have hline : ∀ b, b ≠ a → w'.line b = w.line b := fun b hb => line_setLine_of_ne _ _ hb
  have hline_self : w'.line a = { w.line a with refcount := (w.line a).refcount + 1 } :=
    line_setLine_self ..
  have hlens : ∀ b, (w'.line b).len = (w.line b).len := by
    intro b
    by_cases hb : b = a
    · rw [hb, hline_self]
    · rw [hline b hb]
  have hqueue : ∀ h', (w'.queue h').map (·.len) =
      (w'.head h').list.map fun b => (w.line b).len := by
    intro h'
    simp [queue, hlens]
  refine ⟨fun S b => ?_, fun h' b hb => ?_, fun b => ?_, fun h' => ?_⟩
  · have hle : holders w' S b ≤ holders w S b + if b = a then 1 else 0 := by
      have hrest : ∀ S, h ∉ S → holders w' S b = holders w S b := fun S hS =>
        holders_of_not_mem hS (fun h' hh => by rw [hother h' hh]) b
      by_cases hS : h ∈ S
      · rw [holders_of_mem w' hS, holders_of_mem w hS, hlist, hrest _ (S.notMem_erase h),
          List.count_append, List.count_singleton]
        by_cases hb : b = a
        · simp [hb]
          omega
        · simp [hb, Ne.symm hb]
      · rw [hrest S hS]
        exact Nat.le_add_right _ _
    have href := hw.refs S b
    by_cases hb : b = a
    · rw [if_pos hb] at hle
      rw [hb, hline_self]
      rw [hb] at hle href
      simp only
      omega
    · rw [if_neg hb] at hle
      rw [hline b hb]
      omega
  · by_cases hh : h' = h
    · rw [hh, hlist] at hb
      rcases List.mem_append.mp hb with hb | hb
      · exact hw.lt_fresh h b hb
      · rw [List.mem_singleton.mp hb]
        exact ha
    · rw [hother h' hh] at hb
      exact hw.lt_fresh h' b hb
  · rw [hlens]
    exact hw.nonneg b
  · obtain ⟨hlen, halloc, hnum⟩ := hw.counted h'
    simp only [queue, List.map_map, Function.comp_def] at hlen
    by_cases hh : h' = h
    · subst hh
      refine ⟨?_, ?_, ?_⟩
      · rw [hqueue, hlist]
        simp [hw', Linebuf.attachLine, hlen]
      · simp [hw', Linebuf.attachLine, halloc]
      · simp [hw', Linebuf.attachLine, hnum]
    · refine ⟨?_, by rw [hother h' hh]; exact halloc, by rw [hother h' hh]; exact hnum⟩
      rw [hqueue, hother h' hh, hlen]

/-- The memory after a line is allocated. -/
def allocLine (w : World) : World :=
  { w with line := update w.line w.fresh BufLine.empty, fresh := w.fresh + 1 }

theorem newLine_eq (w : World) (h : ℕ) :
    newLine w h = (attachLine (allocLine w) h w.fresh, w.fresh) := by
  simp [newLine, attachLine, allocLine, setHead, setLine, BufLine.fresh, BufLine.empty]

theorem Sound.not_held (hw : Sound w) (h : ℕ) : w.fresh ∉ (w.head h).list :=
  fun hmem => lt_irrefl _ (hw.lt_fresh h _ hmem)

theorem Sound.allocLine (hw : Sound w) : Sound (allocLine w) := by
  have hline : ∀ b, b ≠ w.fresh → (Linebuf.allocLine w).line b = w.line b := fun b hb =>
    update_of_ne hb ..
  have hline_self : (Linebuf.allocLine w).line w.fresh = BufLine.empty :=
    update_self ..
  refine ⟨fun S b => ?_, fun h b hb => (hw.lt_fresh h b hb).trans (Nat.lt_succ_self _),
    fun b => ?_, fun h => ?_⟩
  · rw [show holders (Linebuf.allocLine w) S b = holders w S b from rfl]
    by_cases hb : b = w.fresh
    · rw [hb, hline_self]
      have : holders w S w.fresh = 0 :=
        Finset.sum_eq_zero fun h _ => count_eq_zero_of_not_mem (hw.not_held h)
      rw [this]
      rfl
    · rw [hline b hb]
      exact hw.refs S b
  · by_cases hb : b = w.fresh
    · rw [hb, hline_self]
      rfl
    · rw [hline b hb]
      exact hw.nonneg b
  · obtain ⟨hlen, halloc, hnum⟩ := hw.counted h
    have hqueue : (Linebuf.allocLine w).queue h = w.queue h :=
      map_congr_left fun b hb => hline b fun hbf => hw.not_held h (hbf ▸ hb)
    exact ⟨by rw [hqueue]; exact hlen, halloc, hnum⟩

/-- A new line is held once, by its queue. -/
theorem Sound.newLine (hw : Sound w) (h : ℕ) :
    Sound (newLine w h).1 ∧ HeldOnce (newLine w h).1 h (newLine w h).2 ∧
      (newLine w h).1.line (newLine w h).2 = BufLine.fresh := by
  refine ⟨?_, ⟨?_, fun h' hh => ?_⟩, update_self ..⟩
  · rw [newLine_eq]
    exact hw.allocLine.attachLine h (Nat.lt_succ_self _)
  · simp [Linebuf.newLine, count_eq_zero_of_not_mem (hw.not_held h)]
  · simpa [Linebuf.newLine, update_of_ne hh] using hw.not_held h'

/-- A queue lets go of its first line. -/
theorem Sound.doneLine (hw : Sound w) (h : ℕ) : Sound (doneLine w h) := by
  cases hl : (w.head h).list with
  | nil =>
    have : Linebuf.doneLine w h = w := by simp [Linebuf.doneLine, hl]
    rw [this]
    exact hw
  | cons a rest =>
    set w' := Linebuf.doneLine w h with hw'
    have hother : ∀ h', h' ≠ h → w'.head h' = w.head h' := by
      intro h' hh
      simp only [hw', Linebuf.doneLine, hl]
      split_ifs <;> exact head_setHead_of_ne w _ hh
    have hself : w'.head h = { w.head h with
        list := rest, alloclen := (w.head h).alloclen - 1,
        len := (w.head h).len - (w.line a).len, numlines := (w.head h).numlines - 1 } := by
      simp only [hw', Linebuf.doneLine, hl]
      split_ifs <;> simp
    have hfresh : w'.fresh = w.fresh := by
      simp only [hw', Linebuf.doneLine, hl]
      split_ifs <;> rfl
    have hline : ∀ b, b ≠ a → w'.line b = w.line b := by
      intro b hb
      simp only [hw', Linebuf.doneLine, hl]
      split_ifs <;> rw [line_setLine_of_ne _ _ hb] <;> rfl
    have hline_self : w'.line a = if (w.line a).refcount - 1 = 0 then BufLine.empty
        else { w.line a with refcount := (w.line a).refcount - 1 } := by
      simp only [hw', Linebuf.doneLine, hl]
      split_ifs <;> simp
    have href_self : (w'.line a).refcount = (w.line a).refcount - 1 := by
      rw [hline_self]
      split_ifs with hzero
      · exact hzero.symm
      · rfl
    -- a holder less
    have hle : ∀ S b, holders w' S b ≤ (w'.line b).refcount := by
      intro S b
      have hrest : ∀ S, h ∉ S → holders w' S b = holders w S b := fun S hS =>
        holders_of_not_mem hS (fun h' hh => by rw [hother h' hh]) b
      have hlist : (w.head h).list.count b = rest.count b + if b = a then 1 else 0 := by
        rw [hl, List.count_cons]
        by_cases hb : b = a
        · simp [hb]
        · simp [hb, Ne.symm hb]
      have hbig : holders w (insert h S) b = (w.head h).list.count b + holders w (S.erase h) b := by
        rw [holders_of_mem w (Finset.mem_insert_self h S), Finset.erase_insert_eq_erase]
      have hsmall : holders w' S b ≤ rest.count b + holders w (S.erase h) b := by
        by_cases hS : h ∈ S
        · rw [holders_of_mem w' hS, hrest _ (S.notMem_erase h), hself]
        · rw [hrest S hS, Finset.erase_eq_of_notMem hS]
          exact Nat.le_add_left _ _
      have href := hw.refs (insert h S) b
      by_cases hb : b = a
      · rw [hb, href_self]
        rw [hb] at href hbig hlist hsmall
        simp only [↓reduceIte] at hlist
        omega
      · rw [hline b hb]
        simp only [hb, ↓reduceIte] at hlist
        omega
    -- a freed line is not held any more
    have hlens : ∀ h', ∀ b ∈ (w'.head h').list, (w'.line b).len = (w.line b).len := by
      intro h' b hb
      by_cases hba : b = a
      · subst hba
        have hpos : 0 < holders w' {h'} b := by
          simpa [holders] using List.count_pos_iff.mpr hb
        have := hle {h'} b
        rw [hline_self, if_neg (by omega)]
      · rw [hline b hba]
    have hsum : ∀ h', ((w'.queue h').map (·.len)).sum =
        ((w'.head h').list.map fun b => (w.line b).len).sum := by
      intro h'
      rw [queue, List.map_map]
      exact congrArg List.sum (List.map_congr_left (hlens h'))
    refine ⟨hle, fun h' b hb => ?_, fun b => ?_, fun h' => ?_⟩
    · rw [hfresh]
      by_cases hh : h' = h
      · rw [hh, hself] at hb
        exact hw.lt_fresh h b (hl ▸ List.mem_cons_of_mem a hb)
      · rw [hother h' hh] at hb
        exact hw.lt_fresh h' b hb
    · by_cases hb : b = a
      · rw [hb, hline_self]
        split_ifs
        · exact le_rfl
        · exact hw.nonneg a
      · rw [hline b hb]
        exact hw.nonneg b
    · obtain ⟨hlen, halloc, hnum⟩ := hw.counted h'
      simp only [queue, List.map_map, Function.comp_def] at hlen
      by_cases hh : h' = h
      · subst hh
        refine ⟨?_, ?_, ?_⟩
        · rw [hsum, hself]
          simp [hlen, hl]
        · simp [hself, halloc, hl]
        · simp [hself, hnum, hl]
      · refine ⟨?_, by rw [hother h' hh]; exact halloc, by rw [hother h' hh]; exact hnum⟩
        rw [hsum, hother h' hh, hlen]

/-! ### The operations keep the invariant -/

/-- The length that a copy adds to a line and to its queue, when the chunk does not overflow what
the line holds. -/
theorem copy_added (raw : Bool) (data : List UInt8)
    (hfit : l.terminated = false → l.len = 0 ∨ l.len + skipCrlf data ≤ bufDataSize - 1) :
    (copy raw l data).line.len = l.len + (copy raw l data).added ∧
      0 ≤ (copy raw l data).added ∧ (copy raw l data).line.refcount = l.refcount := by
  cases ht : l.terminated with
  | true => cases raw <;> simp [copy, copyLine, copyRaw, ht]
  | false =>
    have hover : (skipCrlf data : ℤ) > bufDataSize - l.len - 1 → l.len = 0 := fun h => by
      rcases hfit ht with h0 | hle
      · exact h0
      · omega
    cases raw with
    | true =>
      simp only [copy, ↓reduceIte, copyRaw, ht, Bool.false_eq_true]
      split_ifs with hgt
      · simp [hover hgt, bufDataSize]
      · cases (l.buf ++ data.take (skipCrlf data)).getLast? <;> simp
    | false =>
      simp only [copy, ↓reduceIte, copyLine, ht, Bool.false_eq_true]
      split_ifs with hgt
      · simp [hover hgt, bufDataSize]
      · cases (l.buf ++ data.take (skipCrlf data)).getLast? with
        | none => simp
        | some b =>
          simp only
          split_ifs <;> simp

/-- A chunk that begins with a line end adds nothing to the line it ends. -/
theorem copy_added_eq_zero
    (h : l.terminated = false →
      l.len + skipCrlf data ≤ bufDataSize - 1 ∧ lengthens raw data = false) :
    (copy raw l data).added = 0 := by
  cases ht : l.terminated with
  | true => cases raw <;> simp [copy, copyLine, copyRaw, ht]
  | false =>
    obtain ⟨hle, hlong⟩ := h ht
    have hover : ¬ (skipCrlf data : ℤ) > bufDataSize - l.len - 1 := by omega
    rcases data with _ | ⟨b, data⟩
    · have hskip : skipCrlf [] = 0 := rfl
      rw [hskip] at hover
      cases raw with
      | true =>
        simp only [copy, ↓reduceIte, copyRaw, ht, Bool.false_eq_true, hover, hskip]
        cases (l.buf ++ ([] : List UInt8).take 0).getLast? <;> rfl
      | false =>
        simp only [copy, ↓reduceIte, copyLine, ht, Bool.false_eq_true, hover, hskip]
        cases (l.buf ++ ([] : List UInt8).take 0).getLast? with
        | none => rfl
        | some b =>
          simp only
          split_ifs <;> rfl
    · obtain ⟨hraw, hb⟩ : raw = false ∧ isCrlf b = true := by simpa [lengthens] using hlong
      obtain ⟨text, eol, rest, hdata, htext, heol, hskip, -⟩ := exists_run (b :: data)
      -- the text is empty and the run is not
      obtain rfl : text = [] := by
        rcases text with _ | ⟨c, text⟩
        · rfl
        · have hbc : b = c := by simpa using congrArg head? hdata
          simp [← hbc, hb] at htext
      rw [nil_append] at hdata
      have htake : (b :: data).take (skipCrlf (b :: data)) = eol := by
        rw [hskip, hdata]
        simp
      have hyank : eol.rdropWhile isCrlf = [] := by
        simpa using rdropWhile_run (fun _ h => absurd h not_mem_nil) heol
      subst hraw
      simp only [copy, Bool.false_eq_true, ↓reduceIte, copyLine, ht, hover, htake, hyank]
      cases hlast : (l.buf ++ eol).getLast? with
      | none => rfl
      | some c =>
        have hc : isCrlf c = true := by
          rcases eq_or_ne eol [] with rfl | hne
          · rw [skipCrlf] at hskip
            simp [hb] at hskip
          · rw [getLast?_append_of_ne_nil _ hne, getLast?_eq_some_getLast hne] at hlast
            exact heol c (some.inj hlast ▸ getLast_mem hne)
        simp [hc]

/-- A copy keeps the invariant when the line it lengthens is held once. -/
theorem Sound.copyInto (hw : Sound w)
    (hfit : (w.line a).terminated = false →
      (w.line a).len = 0 ∨ (w.line a).len + skipCrlf data ≤ bufDataSize - 1)
    (honce : (copy raw (w.line a) data).added ≠ 0 → HeldOnce w h a) :
    Sound (copyInto w h a raw data).1 := by
  obtain ⟨hlen, hadded, href⟩ := copy_added raw data hfit
  exact hw.resize hlen (by have := hw.nonneg a; omega) href honce

theorem Sound.parseLoop (hw : Sound w) (n h : ℕ) (raw : Bool) (data : List UInt8)
    (linecnt : ℕ) : Sound (parseLoop n w h raw data linecnt).1 := by
  induction n generalizing w data linecnt with
  | zero => exact hw
  | succ n ih =>
    rw [parseLoop]
    split_ifs with hd
    · exact hw
    · obtain ⟨hnew, honce, hline⟩ := hw.newLine h
      exact ih (hnew.copyInto (fun _ => .inl (by rw [hline]; rfl)) fun _ => honce) _ _

theorem Sound.parse (hw : Sound w)
    (hok : CountsKept w (.parse h raw data)) : Sound (parse w h raw data).1 := by
  rw [Linebuf.parse]
  cases ha : (w.head h).list.getLast? with
  | none => exact hw.parseLoop _ h raw data 0
  | some a =>
    have hok := hok a ha
    have hcopy : Sound (Linebuf.copyInto w h a raw data).1 := by
      refine hw.copyInto (fun ht => .inr (hok ht).1) fun hadded => ?_
      by_contra hheld
      refine hadded (copy_added_eq_zero fun ht => ⟨(hok ht).1, ?_⟩)
      exact Bool.not_eq_true _ ▸ fun hlong => hheld ((hok ht).2 hlong)
    simp only
    split_ifs
    · exact hcopy
    · exact hcopy.parseLoop _ h raw _ 1

theorem Sound.get (hw : Sound w) (h buflen : ℕ) (partl raw : Bool) :
    Sound (get w h buflen partl raw).1 := by
  rw [Linebuf.get]
  cases (w.head h).list with
  | nil => exact hw
  | cons a rest =>
    simp only
    split_ifs
    · exact hw
    · exact hw.doneLine h

/-- The length of a line to send is not negative. -/
theorem chopAndTerminate_nonneg {text below bytes : List UInt8} {len : ℤ}
    (hok : text = [] ∨ 510 < text.length ∨ (∃ b ∈ text, isChopped b = false) ∨
      (below.takeWhile isChopped).length ≤ 2)
    (h : chopAndTerminate text below = some (bytes, len)) : 0 ≤ len := by
  simp only [chopAndTerminate] at h
  split_ifs at h with hlong hzero hkept hbelow
  · simp_all
    omega
  · simp_all
    omega
  · have hchop : ∀ b ∈ text, isChopped b = true := rdropWhile_eq_nil_iff.mp hkept
    have hj : (below.takeWhile isChopped).length ≤ 2 := by
      rcases hok with rfl | hlen | ⟨b, hb, hb'⟩ | hj
      · simp at hzero
      · omega
      · simp [hchop b hb] at hb'
      · exact hj
    simp only [some.injEq, Prod.mk.injEq] at h
    omega
  · simp only [some.injEq, Prod.mk.injEq] at h
    omega

section

variable (hw : Sound w)
include hw

theorem Sound.putText {text below : List UInt8} (hok : CountsKept w (.put h text below))
    (hput : putText w h text below = some w') : Sound w' := by
  obtain ⟨⟨bytes, len⟩, hchop, hput⟩ := bind_eq_some_iff.mp hput
  obtain ⟨hnew, honce, hline⟩ := hw.newLine h
  simp only [some.injEq] at hput
  rw [← hput]
  exact hnew.resize (by simp [hline, BufLine.fresh, BufLine.empty])
    (chopAndTerminate_nonneg hok hchop) rfl fun _ => honce

theorem Sound.attach {new : ℕ} (hattach : attach w h new = some w') : Sound w' := by
  rw [Linebuf.attach] at hattach
  split_ifs at hattach
  -- every line of the other queue is allocated, and attaching allocates none
  have hloop : ∀ (ids : List ℕ) (w : World), Sound w → (∀ a ∈ ids, a < w.fresh) →
      Sound (ids.foldl (fun w a => Linebuf.attachLine w h a) w) := by
    intro ids
    induction ids with
    | nil => exact fun w hw _ => hw
    | cons a ids ih =>
      exact fun w hw hids => ih _ (hw.attachLine h (hids a mem_cons_self))
        fun b hb => hids b (mem_cons_of_mem a hb)
  rw [← some.inj hattach]
  exact hloop _ w hw (hw.lt_fresh new)

theorem Sound.flushLoop (n h : ℕ) (xret : ℤ) : Sound (flushLoop n w h xret) := by
  induction n generalizing w xret with
  | zero => exact hw
  | succ n ih =>
    rw [flushLoop]
    cases (w.head h).list with
    | nil => exact hw
    | cons a rest =>
      simp only
      split_ifs
      · exact ih ((hw.doneLine h).setWriteofs h 0) _
      · exact hw.setWriteofs h _

theorem Sound.flush (maxiov h : ℕ) (ssl : Bool) (retval : ℤ) :
    Sound (flush maxiov w h ssl retval).1 := by
  rw [Linebuf.flush]
  cases (w.head h).list with
  | nil => exact hw
  | cons a rest =>
    simp only
    split_ifs
    · exact hw
    · exact hw
    · exact (hw.setWriteofs h 0).doneLine h
    · exact hw.setWriteofs h _
    · exact hw.flushLoop _ h retval

theorem Sound.donebuf (h : ℕ) : Sound (donebuf w h) := by
  rw [Linebuf.donebuf]
  induction (w.head h).list.length generalizing w with
  | zero => exact hw
  | succ n ih => exact ih (hw.doneLine h)

theorem Sound.step {op : Op} (hok : CountsKept w op) (hstep : step w op = some w') : Sound w' := by
  cases op with
  | parse h raw data => exact some.inj hstep ▸ hw.parse hok
  | get h buflen partl raw => exact some.inj hstep ▸ hw.get h buflen partl raw
  | put h text below => exact hw.putText hok hstep
  | attach h new => exact hw.attach hstep
  | flush maxiov h ssl retval => exact some.inj hstep ▸ hw.flush maxiov h ssl retval
  | donebuf h => exact some.inj hstep ▸ hw.donebuf h

end

/-- **The counts after a run.** When every operation meets `CountsKept`, the counts of every queue
are those of its lines, and no queue has a negative number of bytes. -/
theorem counted_of_run {ops : List Op} (hok : StepsMeet step CountsKept init ops)
    (hrun : run step init ops = some w) (h : ℕ) : Counted w h ∧ 0 ≤ (w.head h).len := by
  have hw : Sound w := invariant Sound (fun _ _ _ hs hok h => hs.step hok h) sound_init hok hrun
  exact ⟨hw.counted h, hw.len_nonneg h⟩

theorem counted_of_run_partial :
    ∃ w, run step init [.parse 0 false [97], .parse 0 false [98, 13, 10], .put 1 [99] []] =
      some w ∧ (Counted w 0 ∧ 0 ≤ (w.head 0).len) := by
  refine ⟨_, rfl, @counted_of_run _ [.parse 0 false [97], .parse 0 false [98, 13, 10],
    .put 1 [99] []] ⟨?_, ?_⟩ rfl 0⟩
  · intro a ha
    simp [init, BufHead.empty] at ha
  · rintro _ ⟨⟩
    refine ⟨?_, ?_⟩
    · rintro a ⟨⟩ -
      refine ⟨by decide, fun _ => ⟨by decide, fun h' hh => ?_⟩⟩
      simp [parse, parseLoop, init, BufHead.empty, newLine,
        copyInto, setHead, setLine, update_of_ne hh]
    · rintro _ ⟨⟩
      exact ⟨Or.inr (.inr (.inl ⟨99, by simp, by decide⟩)), fun _ _ => trivial⟩

/-- A line of one byte that then overflows is counted as 511 bytes and has 510, so that a byte
remains when it is gone. -/
theorem overflow_miscounted :
    (run step init [.parse 0 false [97], .parse 0 false (replicate 510 98)]).map
        (fun w => ((w.head 0).len, (w.queue 0).map (·.len))) = some (511, [510]) ∧
      (run step init [.parse 0 false [97], .parse 0 false (replicate 510 98),
        .get 0 512 false false]).map
        (fun w => ((w.head 0).len, (w.queue 0).map (·.len))) = some (1, []) := by
  decide +kernel

end Ratbox.Linebuf
