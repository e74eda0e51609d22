import Ratbox.Rawbuf

/-!
# Getting bytes from a raw buffer

`rb_rawbuf_get` copies bytes from the first block. When it takes all that the block holds, the block
is removed; else the block is marked, and its length and the number of its bytes that are gone are
adapted. When it removes the block, it takes the number of bytes that were asked for from the length
of the buffer, not the number of those that were there.

Source: `libratbox/src/rawbuf.c`, lines 28–69 and 187–277.

## Main definitions

* `Rawbuf.Block`, `Rawbuf.Blocks`: `rawbuf_t` and `rawbuf_head_t`, with the length of a block apart
  from its bytes.
* `Rawbuf.Blocks.append`, `Rawbuf.Blocks.get`: `rb_rawbuf_append` and `rb_rawbuf_get`.
* `Rawbuf.Blocks.queue`: the buffer, as it is when the bytes are flushed.

## Main results

* `Rawbuf.Blocks.append_queue`: `rb_rawbuf_append` is the same function in both models.
* `Rawbuf.Blocks.got_iff`: the runs in which the bytes and the length are right.
-/

namespace Ratbox.Rawbuf

open Run Transfer List Option

/-- `rawbuf_t`; the list `data` has the bytes of the array that were written. -/
structure Block where
  data : List UInt8
  len : ℕ
  flushing : Bool
  deriving DecidableEq

/-- `rawbuf_head_t`. -/
structure Blocks where
  list : List Block
  len : ℤ
  written : ℕ
  deriving DecidableEq

/-- Bytes are copied to the end of a block. -/
def Block.copyIn (buf : Block) (bytes : List UInt8) : Block :=
  { buf with
    data := buf.data.take buf.len ++ bytes ++ buf.data.drop (buf.len + bytes.length)
    len := buf.len + bytes.length }

/-- The place in the array of the first byte that is still to be taken. -/
def Block.start (buf : Block) (written : ℕ) : ℕ := if buf.flushing then written else 0

namespace Blocks

/-- `rb_new_rawbuffer`. -/
def new : Blocks := ⟨[], 0, 0⟩

/-! ### Appending and getting -/

/-- The loop of `rb_rawbuf_append`, which puts what is left in new blocks. -/
def appendLoop : ℕ → Blocks → List UInt8 → Blocks
  | 0, rb, _ => rb
  | n + 1, rb, data =>
    if data = [] then rb
    else
      let clen := if rawbufSize ≤ data.length then rawbufSize else data.length
      appendLoop n
        { rb with list := rb.list ++ [Block.copyIn ⟨[], 0, false⟩ (data.take clen)], len :=
          rb.len + clen } (data.drop clen)

/-- `rb_rawbuf_append`. -/
def append (rb : Blocks) (data : List UInt8) : Blocks :=
  match rb.list.getLast? with
  | none => appendLoop data.length rb data
  | some buf =>
    if buf.len < rawbufSize ∧ buf.flushing = false then
      let clen := min data.length (rawbufSize - buf.len)
      appendLoop data.length
        { rb with list := rb.list.dropLast ++ [buf.copyIn (data.take clen)], len := rb.len + clen }
          (data.drop clen)
    else appendLoop data.length rb data

/-- `rb_rawbuf_get`, with the bytes that are copied. -/
def get (rb : Blocks) (len : ℕ) : Blocks × List UInt8 :=
  match rb.list with
  | [] => (rb, [])
  | buf :: rest =>
    let cpylen := if buf.len < len then buf.len else len
    let bytes := (buf.data.drop (buf.start rb.written)).take cpylen
    if cpylen = buf.len then ({ list := rest, len := rb.len - len, written := 0 }, bytes)
    else
      ({ list := { buf with flushing := true, len := buf.len - cpylen } :: rest
         len := rb.len - cpylen
         written := rb.written + cpylen }, bytes)

/-- `rb_rawbuf_length`. -/
def length (rb : Blocks) : ℤ := rb.len

/-! ### The buffer as it is when the bytes are flushed -/

/-- The bytes of the blocks. A flush reads the length off the array. -/
def queue (rb : Blocks) : Head := ⟨rb.list.map fun b => ⟨b.data, b.flushing⟩, rb.len, rb.written⟩

/-- The bytes that are still to be taken. -/
def pending (rb : Blocks) : List UInt8 := Rawbuf.pending rb.queue

/-- The length of a block is that of its bytes that are still to be taken, and none of its bytes are
gone when it is not marked. -/
structure Filled (rb : Blocks) : Prop where
  len : ∀ b ∈ rb.list, b.start rb.written + b.len = b.data.length
  start : (∀ b ∈ rb.list.head?, b.flushing = false) → rb.written = 0

section Append

variable {rb : Blocks}

theorem appendLoop_queue (n : ℕ) (rb : Blocks) (data : List UInt8) :
    (appendLoop n rb data).queue = Rawbuf.appendLoop n rb.queue data := by
  induction n generalizing rb data with
  | zero => rfl
  | succ n ih =>
    rw [appendLoop, Rawbuf.appendLoop]
    split_ifs
    · rfl
    all_goals
      rw [ih]
      simp [queue, Block.copyIn]

/-- **`rb_rawbuf_append` is the same function in both models.** -/
theorem append_queue (h : rb.Filled) (data : List UInt8) :
    (rb.append data).queue = Rawbuf.append rb.queue data := by
  have hlast : rb.queue.list.getLast? = rb.list.getLast?.map fun b => ⟨b.data, b.flushing⟩ :=
    getLast?_map
  rw [append, Rawbuf.append, hlast]
  cases hb : rb.list.getLast? with
  | none => exact appendLoop_queue ..
  | some b =>
    dsimp only [map_some]
    by_cases hflushing : b.flushing = false
    · have hlen : b.data.length = b.len := by
        have hlen := h.len b (mem_of_getLast? hb)
        rw [Block.start, if_neg (by simp [hflushing])] at hlen
        omega
      rw [hlen]
      split_ifs with hroom
      · have hdrop (n : ℕ) : b.data.drop (b.data.length + n) = [] :=
          drop_eq_nil_of_le (Nat.le_add_right _ _)
        rw [appendLoop_queue]
        simp [queue, Block.copyIn, ← hlen, map_dropLast, hdrop]
      · exact appendLoop_queue ..
    · rw [if_neg (by simp [hflushing]), if_neg (by simp [hflushing])]
      exact appendLoop_queue ..

/-- A block is put at the end. -/
theorem Filled.push (h : rb.Filled) (bytes : List UInt8) (len : ℤ) :
    Filled { rb with list := rb.list ++ [Block.copyIn ⟨[], 0, false⟩ bytes], len := len } := by
  refine ⟨fun b hb => ?_, fun hhead => h.start fun b hb => hhead b ?_⟩
  · rcases mem_append.mp hb with hb | hb
    · exact h.len b hb
    · obtain rfl := mem_singleton.mp hb
      simp [Block.copyIn, Block.start]
  · cases hlist : rb.list with
    | nil => simp [hlist] at hb
    | cons first rest => simpa [hlist] using hb

theorem Filled.appendLoop (h : rb.Filled) (n : ℕ) (data : List UInt8) :
    (appendLoop n rb data).Filled := by
  induction n generalizing rb data with
  | zero => exact h
  | succ n ih =>
    rw [Blocks.appendLoop]
    split_ifs
    · exact h
    all_goals exact ih (h.push _ _) _

theorem Filled.append (h : rb.Filled) (data : List UInt8) : (rb.append data).Filled := by
  rw [Blocks.append]
  cases hb : rb.list.getLast? with
  | none => exact h.appendLoop ..
  | some b =>
    obtain ⟨init, hinit⟩ := getLast?_eq_some_iff.mp hb
    dsimp only
    split_ifs with hroom
    · apply Filled.appendLoop
      refine ⟨fun c hc => ?_, fun hhead => h.start fun c hc => ?_⟩
      · rw [hinit, dropLast_concat] at hc
        rcases mem_append.mp hc with hc | hc
        · exact h.len c (by rw [hinit]; exact mem_append_left _ hc)
        · obtain rfl := mem_singleton.mp hc
          have hlen := h.len b (by rw [hinit]; exact mem_append_right _ (mem_singleton_self b))
          rw [Block.start, if_neg (by simp [hroom.2])] at hlen
          rw [Block.start, if_neg (by simp [Block.copyIn, hroom.2])]
          simp only [Block.copyIn, length_append, length_take, length_drop]
          omega
      · -- The first block is marked, or not, as it was before.
        rw [hinit, dropLast_concat] at hhead
        rw [hinit] at hc
        cases init with
        | nil =>
          obtain rfl : b = c := by simpa using hc
          exact hroom.2
        | cons first rest => exact hhead c (by simpa using hc)
    · exact h.appendLoop ..

end Append

section Get

variable {rb : Blocks}

/-- The bytes of a block that are still to be taken. -/
theorem Filled.rest (h : rb.Filled) {b : Block} (hb : b ∈ rb.list) :
    (⟨b.data, b.flushing⟩ : Rawbuf).rest rb.written = b.data.drop (b.start rb.written) ∧
      (b.data.drop (b.start rb.written)).length = b.len := by
  have hlen := h.len b hb
  refine ⟨?_, by rw [length_drop]; omega⟩
  rw [Rawbuf.rest, Block.start, Int.toNat_natCast]
  split_ifs <;> rfl

/-- The get asks for no more than the first block holds. -/
def Holds (rb : Blocks) (len : ℕ) : Prop := ∀ b ∈ rb.list.head?, len ≤ b.len

instance (rb : Blocks) (len : ℕ) : Decidable (rb.Holds len) :=
  inferInstanceAs (Decidable (∀ b ∈ _, _))

/-- **A get takes what is at the front**, and leaves the rest. -/
theorem get_spec (h : rb.Filled) (hq : Queued rb.queue) {len : ℕ} (hholds : rb.Holds len) :
    (rb.get len).1.Filled ∧ Queued (rb.get len).1.queue ∧ pending rb = (rb.get len).2 ++
    pending (rb.get len).1 := by
  rw [get]
  cases hlist : rb.list with
  | nil => exact ⟨h, hq, rfl⟩
  | cons b rest =>
    have hmem : b ∈ rb.list := by simp [hlist]
    have hle : len ≤ b.len := hholds b (by rw [hlist]; rfl)
    obtain ⟨hrest, hlen⟩ := h.rest hmem
    have hfilled := h.len b hmem
    have hqueue : rb.queue.list = ⟨b.data, b.flushing⟩ :: rest.map fun b =>
        ⟨b.data, b.flushing⟩ := by
      rw [queue, hlist, map_cons]
    have hwritten : rb.queue.written = rb.written := rfl
    have hbehind : ∀ c ∈ rest, c.flushing = false := by
      intro c hc
      exact hq.behind ⟨c.data, c.flushing⟩ (by rw [hqueue]; exact mem_map.mpr ⟨c, hc, rfl⟩)
    have hunmarked : ∀ c ∈ rest, ∀ w, c.start w = 0 :=
      fun c hc w => by rw [Block.start, if_neg (by simp [hbehind c hc])]
    have hlater : ∀ c ∈ rest, ∀ w, c.start w + c.len = c.data.length := by
      intro c hc w
      have hc' := h.len c (by simp [hlist, hc])
      rwa [hunmarked c hc] at hc' ⊢
    have hcpy : (if b.len < len then b.len else len) = len := if_neg (by omega)
    simp only [hcpy]
    split_ifs with hall
    · -- The block is done with.
      obtain ⟨hq', hp'⟩ := hq.done hqueue 0
      rw [hwritten, hrest] at hq' hp'
      rw [hlen, ← hall] at hq'
      refine ⟨⟨fun c hc => hlater c hc 0, fun _ => rfl⟩, hq', ?_⟩
      rw [take_of_length_le (by omega)]
      exact hp'
    · -- The block is marked.
      have hstart : b.start rb.written = rb.written := by
        rw [Block.start]
        split_ifs with hflushing
        · rfl
        · exact (h.start fun c hc => by
            rw [hlist, head?_cons, mem_some_iff] at hc
            exact hc ▸ (by simpa using hflushing)).symm
      have hdata := congrArg List.length hrest
      rw [hlen] at hdata
      obtain ⟨hq', hp'⟩ := hq.endsIn hqueue (n := len) (by rw [hwritten]; omega)
        ((rb.written + len : ℕ) : ℤ) (by rw [hwritten]; dsimp only; omega)
      refine ⟨⟨?_, fun hhead => ?_⟩, hq', ?_⟩
      · refine forall_mem_cons.mpr ⟨?_, fun c hc => hlater c hc _⟩
        rw [Block.start, if_pos rfl]
        dsimp only
        omega
      · cases hhead _ rfl
      · have hfront : (b.data.drop (b.start rb.written)).take len = (pending rb).take len := by
          rw [pending, Rawbuf.pending, hqueue, flatMap_cons, hwritten, hrest,
            take_append_of_le_length (by omega)]
        rw [hfront]
        exact (take_append_drop len (pending rb)).symm.trans (congrArg _ hp'.symm)

/-- **A get that asks for more than the block holds** takes too much from the length. -/
theorem length_get (h : rb.Filled) {len : ℕ} (hholds : ¬rb.Holds len) :
    length (rb.get len).1 < length rb - (rb.get len).2.length := by
  rw [Holds] at hholds
  push Not at hholds
  obtain ⟨b, hb, hlt⟩ := hholds
  obtain ⟨rest, hlist⟩ : ∃ rest, rb.list = b :: rest := by
    cases hlist : rb.list with
    | nil => simp [hlist] at hb
    | cons c rest => exact ⟨rest, by rw [hlist, head?_cons, mem_some_iff] at hb; rw [hb]⟩
  obtain ⟨-, hlen⟩ := h.rest (show b ∈ rb.list by simp [hlist])
  rw [get, hlist]
  dsimp only
  rw [if_pos hlt, if_pos rfl, take_of_length_le (by omega), hlen, length, length]
  dsimp only
  omega

end Get

/-! ### Runs -/

/-- An append, or a get. -/
inductive Op
  | append (data : List UInt8)
  | get (len : ℕ)

/-- Make an operation. -/
def op (rb : Blocks) : Op → Moved Blocks UInt8
  | .append data => ⟨rb.append data, data, []⟩
  | .get len => ⟨(rb.get len).1, [], (rb.get len).2⟩

/-- Make an operation, and log it. -/
def step : Log Blocks UInt8 → Op → Option (Log Blocks UInt8) :=
  Transfer.step fun rb o => some (op rb o)

/-- A get asks for no more than the first block holds. -/
def Asks (l : Log Blocks UInt8) : Op → Prop
  | .append _ => True
  | .get len => l.state.Holds len

instance (l : Log Blocks UInt8) (o : Op) : Decidable (Asks l o) := by
  cases o <;> unfold Asks <;> infer_instance

/-- The bytes that were got are those appended, in order, but for those that are still there, and
the length is the number of these. -/
def Right (l : Log Blocks UInt8) : Prop :=
  l.given ++ pending l.state = l.taken ∧ length l.state = (l.taken.length : ℤ) - l.given.length

/-- What holds as long as no get asks for more than the first block holds. -/
structure Sound (l : Log Blocks UInt8) : Prop where
  filled : l.state.Filled
  queued : Queued l.state.queue
  sent : l.given ++ pending l.state = l.taken

theorem Sound.right {l : Log Blocks UInt8} (h : Sound l) : Right l := by
  have hlen : length l.state = (pending l.state).length := h.queued.len
  refine ⟨h.sent, ?_⟩
  rw [hlen, ← h.sent, length_append]
  omega

theorem sound_start : Sound (.start .new) :=
  ⟨⟨by simp [Log.start, new], fun _ => rfl⟩, queued_new, rfl⟩

theorem Sound.step {l l' : Log Blocks UInt8} {o : Op} (h : Sound l) (hasks : Asks l o)
    (hstep : step l o = some l') :
    Sound l' := by
  cases hstep
  cases o with
  | append data =>
    obtain ⟨hq, hp⟩ := h.queued.append data
    rw [← append_queue h.filled] at hq hp
    refine ⟨h.filled.append data, hq, ?_⟩
    have hp : pending (l.state.append data) = pending l.state ++ data := hp
    simp only [op, append_nil]
    rw [hp, ← append_assoc, h.sent]
  | get len =>
    obtain ⟨hfilled, hq, hp⟩ := get_spec h.filled h.queued hasks
    refine ⟨hfilled, hq, ?_⟩
    simp only [op, append_nil]
    rw [append_assoc, ← hp, h.sent]

/-- **The runs in which the bytes and the length are right** after each operation are those in which
no get asks for more than the first block holds. -/
theorem got_iff (ops : List Op) :
    Always step Right (.start .new) ops ↔ StepsMeet step Asks (.start .new) ops := by
  have hrun := run_total (fun (l : Log Blocks UInt8) o =>
    (⟨(op l.state o).state, l.taken ++ (op l.state o).taken, l.given ++ (op l.state o).given⟩ :
      Log Blocks UInt8)) (.start .new) ops
  refine always_iff Sound (fun l h => h.right) (fun l o l' h => h.step)
    (fun l o l' h hasks hstep hright => ?_) sound_start hrun
  cases hstep
  cases o with
  | append data => exact hasks trivial
  | get len =>
    have hlt := length_get h.filled hasks
    have hlen := hright.2
    have hbefore := h.right.2
    simp only [op, append_nil, length_append] at hlen
    omega

/-- A get that asks for ten bytes of three: the length is negative. -/
theorem length_negative :
    (run step (.start .new) [.append [1, 2, 3], .get 10]).map (fun l => (l.given, length l.state)) =
      some ([1, 2, 3], -7) ∧ ¬Always step Right (.start .new) [.append [1, 2, 3], .get 10] := by
  refine ⟨by decide, fun h => ?_⟩
  obtain ⟨l, hl⟩ : ∃ l, run step (.start .new) [.append [1, 2, 3], .get 10] = some l := ⟨_, rfl⟩
  have hright := (h _ l prefix_rfl hl).2
  cases hl
  cases hright

end Blocks

end Ratbox.Rawbuf
