import Ratbox.Lib.Transfer
import Mathlib.Data.List.DropRight
import Mathlib.Tactic.Linarith

/-!
# Raw buffers

A `rawbuf_head_t` queues bytes in blocks of fixed size. Appended bytes fill up the last block,
unless it is being written already, and then new blocks. A flush offers the blocks to the write, or
only the first one on an SSL connection; the block in which the write ends is marked, and the number
of its bytes that are written is kept in the head.

On the SSL path that number is added to. On the `writev` path it is set to what the last write took
of the block, so that a block that two writes in a row end in is sent again from a byte that was
sent before. As long as that does not happen, the bytes that are written are those appended, in
order.

Source: `libratbox/src/rawbuf.c`, lines 28–229 and 277–283.

## Main definitions

* `Rawbuf.Rawbuf`, `Rawbuf.Head`: `rawbuf_t` and `rawbuf_head_t`.
* `Rawbuf.append`, `Rawbuf.flush`: `rb_rawbuf_append` and `rb_rawbuf_flush`.
* `Rawbuf.Finishes`: a write does not end twice in a block.

## Main results

* `Rawbuf.written_in_order`: the bytes that are written, and the length.
-/

namespace Ratbox.Rawbuf

open Run Transfer List

/-- `RAWBUF_SIZE`. -/
def rawbufSize : ℕ := 1024

/-- `rawbuf_t`; the list `data` has the first `len` bytes of the array. -/
structure Rawbuf where
  data : List UInt8
  flushing : Bool
  deriving DecidableEq

/-- The field `len`. -/
def Rawbuf.len (buf : Rawbuf) : ℤ := buf.data.length

/-- `rawbuf_head_t`. -/
structure Head where
  list : List Rawbuf
  len : ℤ
  written : ℤ
  deriving DecidableEq

/-- `rb_new_rawbuffer`. -/
def Head.new : Head := ⟨[], 0, 0⟩

/-! ### Appending -/

/-- The loop of `rb_rawbuf_append`, which puts what is left in new blocks. Every turn uses up a
byte, so that the length of the data bounds the turns. -/
def appendLoop : ℕ → Head → List UInt8 → Head
  | 0, rb, _ => rb
  | n + 1, rb, data =>
    if data = [] then rb
    else
      let clen := if rawbufSize ≤ data.length then rawbufSize else data.length
      appendLoop n { rb with list := rb.list ++ [⟨data.take clen, false⟩], len := rb.len + clen }
        (data.drop clen)

/-- `rb_rawbuf_append`. -/
def append (rb : Head) (data : List UInt8) : Head :=
  match rb.list.getLast? with
  | none => appendLoop data.length rb data
  | some buf =>
    if buf.data.length < rawbufSize ∧ buf.flushing = false then
      let clen := min data.length (rawbufSize - buf.data.length)
      appendLoop data.length
        { rb with
          list := rb.list.dropLast ++ [{ buf with data := buf.data ++ data.take clen }]
          len := rb.len + clen }
        (data.drop clen)
    else appendLoop data.length rb data

/-- `rb_rawbuf_length`. -/
def length (rb : Head) : ℤ := rb.len

/-! ### Flushing -/

/-- The bytes of a block that are offered to the write. -/
def Rawbuf.rest (buf : Rawbuf) (written : ℤ) : List UInt8 :=
  if buf.flushing then buf.data.drop written.toNat else buf.data

/-- The first block, as the SSL path marks it. -/
def mark (rb : Head) : Head :=
  match rb.list with
  | [] => rb
  | buf :: rest =>
    if buf.flushing then rb
    else { rb with list := { buf with flushing := true } :: rest, written := 0 }

/-- What is offered to the write: on the `writev` path at most `maxiov` blocks, which is
`RB_UIO_MAXIOV`, on the SSL path the first block. -/
def offered (maxiov : ℕ) (rb : Head) (ssl : Bool) : List UInt8 :=
  (rb.list.take (if ssl then 1 else maxiov)).flatMap (·.rest rb.written)

/-- The loop of `rb_rawbuf_flush_writev` after the write. -/
def writevLoop : ℕ → Head → ℤ → Head
  | 0, rb, _ => rb
  | n + 1, rb, xret =>
    match rb.list with
    | [] => rb
    | buf :: rest =>
      if buf.flushing = true ∧ xret ≥ buf.len - rb.written then
        writevLoop n { rb with list := rest, len := rb.len - (buf.len - rb.written) }
          (xret - (buf.len - rb.written))
      else if xret ≥ buf.len then
        writevLoop n { rb with list := rest, len := rb.len - buf.len } (xret - buf.len)
      else
        { list := { buf with flushing := true } :: rest, len := rb.len - xret, written := xret }

/-- `rb_rawbuf_flush`, where `retval` is what the write returns. -/
def flush (maxiov : ℕ) (rb : Head) (ssl : Bool) (retval : ℤ) : Head × ℤ :=
  if rb.list = [] then (rb, -1)
  else if ssl then
    let rb := mark rb
    if retval ≤ 0 then (rb, retval)
    else
      let rb := { rb with written := rb.written + retval }
      match rb.list with
      | [] => (rb, retval)
      | buf :: rest =>
        if rb.written = buf.len then
          ({ list := rest, len := rb.len - retval, written := 0 }, retval)
        else ({ rb with len := rb.len - retval }, retval)
  else if retval ≤ 0 then (rb, retval)
  else (writevLoop maxiov rb retval, retval)

/-- An append, or a flush, with what the write returns. -/
inductive Op
  | append (data : List UInt8)
  | flush (ssl : Bool) (retval : ℤ)

/-- Make an operation; the write takes at most what it is offered, or fails. -/
def op (maxiov : ℕ) (rb : Head) : Op → Option (Moved Head UInt8)
  | .append data => some ⟨append rb data, data, []⟩
  | .flush ssl retval =>
    let given := offered maxiov rb ssl
    if retval ≤ given.length then
      let r := flush maxiov rb ssl retval
      some ⟨r.1, [], given.take r.2.toNat⟩
    else none

/-- A write on the `writev` path does not end in the first block when the last one did: it takes the
rest of the block. -/
def Finishes (rb : Head) : Op → Prop
  | .append _ => True
  | .flush ssl retval => ssl = false → 0 < retval → ∀ buf ∈ rb.list.head?, buf.flushing = true →
      rb.written = 0 ∨ buf.len - rb.written ≤ retval

/-! ### What is still to be written -/

/-- The bytes that are still to be written. -/
def pending (rb : Head) : List UInt8 := rb.list.flatMap (·.rest rb.written)

/-- Only the first block is marked, its written bytes are in it, and the length is right. -/
structure Queued (rb : Head) : Prop where
  behind : ∀ buf ∈ rb.list.tail, buf.flushing = false
  written : ∀ buf ∈ rb.list.head?, buf.flushing = true → 0 ≤ rb.written ∧ rb.written ≤ buf.len
  size : ∀ buf ∈ rb.list, buf.data.length ≤ rawbufSize
  len : rb.len = (pending rb).length

theorem queued_new : Queued Head.new :=
  ⟨by simp [Head.new], by simp [Head.new], by simp [Head.new], rfl⟩

section Append

variable {rb : Head}

/-- A block that is not marked is put at the end. -/
theorem Queued.push (h : Queued rb) (data : List UInt8) (hsize : data.length ≤ rawbufSize) :
    Queued { rb with list := rb.list ++ [⟨data, false⟩], len := rb.len + data.length } ∧
      pending { rb with list := rb.list ++ [⟨data, false⟩], len := rb.len + data.length } =
        pending rb ++ data := by
  have hpending : pending { rb with
    list := rb.list ++ [⟨data, false⟩], len := rb.len + data.length } =
      pending rb ++ data := by
    simp [pending, Rawbuf.rest]
  refine ⟨⟨?_, ?_, ?_, ?_⟩, hpending⟩
  · intro buf hbuf
    cases hlist : rb.list with
    | nil =>
      rw [hlist] at hbuf
      simp at hbuf
    | cons first rest =>
      rw [hlist, cons_append, tail_cons, mem_append, mem_singleton] at hbuf
      rcases hbuf with hbuf | rfl
      · exact h.behind buf (by rwa [hlist, tail_cons])
      · rfl
  · intro buf hbuf hflushing
    cases hlist : rb.list with
    | nil =>
      rw [hlist] at hbuf
      obtain rfl : (⟨data, false⟩ : Rawbuf) = buf := by simpa using hbuf
      cases hflushing
    | cons first rest =>
      rw [hlist] at hbuf
      exact h.written buf (by simpa [hlist] using hbuf) hflushing
  · intro buf hbuf
    rcases mem_append.mp hbuf with hbuf | hbuf
    · exact h.size buf hbuf
    · rwa [mem_singleton.mp hbuf]
  · rw [hpending, h.len]
    simp

/-- A block that is not marked is taken off the end. -/
theorem Queued.takeOff (h : Queued rb) {init : List Rawbuf} {data : List UInt8}
    (hlist : rb.list = init ++ [⟨data, false⟩]) :
    Queued { rb with list := init, len := rb.len - data.length } ∧
      pending rb = pending { rb with list := init, len := rb.len - data.length } ++ data := by
  have hpending :
      pending rb = pending { rb with list := init, len := rb.len - data.length } ++ data := by
    simp [pending, Rawbuf.rest, hlist]
  refine ⟨⟨?_, ?_, ?_, ?_⟩, hpending⟩
  · intro buf hbuf
    refine h.behind buf ?_
    rw [hlist]
    cases init with
    | nil => simp at hbuf
    | cons first rest => simpa using Or.inl hbuf
  · intro buf hbuf hflushing
    refine h.written buf ?_ hflushing
    rw [hlist]
    cases init with
    | nil => simp at hbuf
    | cons first rest => simpa using hbuf
  · exact fun buf hbuf => h.size buf (by rw [hlist]; exact mem_append_left _ hbuf)
  · have hlen := h.len
    rw [hpending, length_append] at hlen
    dsimp only
    omega

theorem Queued.appendLoop (h : Queued rb) {n : ℕ} (data : List UInt8) (hn : data.length ≤ n) :
    Queued (appendLoop n rb data) ∧ pending (appendLoop n rb data) = pending rb ++ data := by
  induction n generalizing rb data with
  | zero =>
    obtain rfl : data = [] := length_eq_zero_iff.mp (by omega)
    exact ⟨h, (append_nil _).symm⟩
  | succ n ih =>
    rw [Rawbuf.appendLoop]
    split_ifs with hnil hfull
    · exact ⟨h, by rw [hnil, append_nil]⟩
    all_goals
      have hpos : 0 < data.length := length_pos_iff.mpr hnil
      have hsize : 0 < rawbufSize := by decide
    · have htake : (data.take rawbufSize).length = rawbufSize := by
        rw [length_take]
        omega
      obtain ⟨hq, hp⟩ := h.push (data.take rawbufSize) htake.le
      rw [htake] at hq hp
      obtain ⟨hq', hp'⟩ := ih hq (data.drop rawbufSize) (by rw [length_drop]; omega)
      refine ⟨hq', ?_⟩
      rw [hp', hp, append_assoc, take_append_drop]
    · have htake : (data.take data.length).length = data.length := by rw [take_length]
      obtain ⟨hq, hp⟩ := h.push (data.take data.length) (by omega)
      rw [htake] at hq hp
      obtain ⟨hq', hp'⟩ := ih hq (data.drop data.length) (by rw [length_drop]; omega)
      refine ⟨hq', ?_⟩
      rw [hp', hp, append_assoc, take_append_drop]

/-- **Appended bytes** stand at the end of what is to be written. -/
theorem Queued.append (h : Queued rb) (data : List UInt8) :
    Queued (append rb data) ∧ pending (append rb data) = pending rb ++ data := by
  rw [Rawbuf.append]
  cases hlast : rb.list.getLast? with
  | none => exact h.appendLoop data le_rfl
  | some buf =>
    obtain ⟨init, hinit⟩ := getLast?_eq_some_iff.mp hlast
    dsimp only
    split_ifs with hroom
    · obtain ⟨hlt, hflushing⟩ := hroom
      set clen := min data.length (rawbufSize - buf.data.length) with hclen
      -- The last block is taken off, and put back with what fits.
      have hfill : Queued { rb with
          list := rb.list.dropLast ++ [{ buf with data := buf.data ++ data.take clen }]
          len := rb.len + clen } ∧
          pending { rb with
            list := rb.list.dropLast ++ [{ buf with data := buf.data ++ data.take clen }]
            len := rb.len + clen } = pending rb ++ data.take clen := by
        have hbuf : buf = ⟨buf.data, false⟩ := by rw [← hflushing]
        obtain ⟨hq, hp⟩ := h.takeOff (hbuf ▸ hinit)
        have htake : (buf.data ++ data.take clen).length = buf.data.length + clen := by
          rw [length_append, length_take]
          omega
        obtain ⟨hq', hp'⟩ := hq.push (buf.data ++ data.take clen) (by omega)
        have hlen : rb.len - buf.data.length + (buf.data ++ data.take clen).length =
            rb.len + clen := by
          rw [htake]
          omega
        rw [hinit, dropLast_concat, hflushing]
        rw [hlen] at hq' hp'
        refine ⟨hq', ?_⟩
        rw [hp, append_assoc]
        exact hp'
      obtain ⟨hq, hp⟩ := hfill
      obtain ⟨hq', hp'⟩ := hq.appendLoop (n := data.length) (data.drop clen)
        (by rw [length_drop]; omega)
      refine ⟨hq', ?_⟩
      rw [hp', hp, append_assoc, take_append_drop]
    · exact h.appendLoop data le_rfl

end Append

section Flush

variable {rb : Head} {rest : List Rawbuf} {buf : Rawbuf}

/-- Behind a block there are no marked ones, so that the number of written bytes does not matter. -/
theorem pending_unmarked (hrest : ∀ buf ∈ rest, buf.flushing = false)
    (written : ℤ) : rest.flatMap (·.rest written) = rest.flatMap (·.data) := by
  refine flatMap_congr fun buf hbuf => ?_
  rw [Rawbuf.rest, hrest buf hbuf, if_neg (by simp)]

/-- The first block is done with. -/
theorem Queued.done (h : Queued rb) (hlist : rb.list = buf :: rest) (written : ℤ) :
    Queued { list := rest, len := rb.len - (buf.rest rb.written).length, written := written } ∧
      pending rb = buf.rest rb.written ++
        pending { list := rest, len := rb.len - (buf.rest rb.written).length, written :=
          written } := by
  have hbehind : ∀ b ∈ rest, b.flushing = false := by
    have hbehind := h.behind
    rwa [hlist, tail_cons] at hbehind
  have hpending : pending rb = buf.rest rb.written ++
      pending { list := rest, len := rb.len - (buf.rest rb.written).length, written :=
          written } := by
    rw [pending, pending, hlist, flatMap_cons, pending_unmarked hbehind, pending_unmarked hbehind]
  refine ⟨⟨?_, ?_, ?_, ?_⟩, hpending⟩
  · exact fun b hb => hbehind b (mem_of_mem_tail hb)
  · intro b hb hflushing
    rw [hbehind b (mem_of_mem_head? hb)] at hflushing
    cases hflushing
  · exact fun b hb => h.size b (by rw [hlist]; exact mem_cons_of_mem buf hb)
  · have hlen := h.len
    rw [hpending, length_append] at hlen
    dsimp only
    omega

/-- The write ends in the first block. -/
theorem Queued.endsIn (h : Queued rb)
    (hlist : rb.list = buf :: rest) {n : ℕ} (hn : n ≤ (buf.rest rb.written).length) (written : ℤ)
    (hwritten : written = n + (buf.data.length - (buf.rest rb.written).length)) :
    Queued { list := { buf with flushing := true } :: rest, len := rb.len - n, written :=
      written } ∧
      pending { list := { buf with flushing := true } :: rest, len := rb.len - n,
                written := written } = (pending rb).drop n := by
  have hbehind : ∀ b ∈ rest, b.flushing = false := by
    have hbehind := h.behind
    rwa [hlist, tail_cons] at hbehind
  have hrest : ∀ w, buf.rest w = buf.data.drop (if buf.flushing then w.toNat else 0) := by
    intro w
    rw [Rawbuf.rest]
    split_ifs <;> simp
  have hin : (if buf.flushing then rb.written.toNat else 0) ≤ buf.data.length := by
    split_ifs with hflushing
    · have hle := (h.written buf (by rw [hlist]; rfl) hflushing).2
      rw [Rawbuf.len] at hle
      omega
    · exact Nat.zero_le _
  rw [hrest, length_drop] at hn hwritten
  have hpending : pending
      { list := { buf with flushing := true } :: rest, len := rb.len - n, written := written } =
        (pending rb).drop n := by
    rw [pending, pending, hlist, flatMap_cons, flatMap_cons, pending_unmarked hbehind,
      pending_unmarked hbehind, hrest, drop_append_of_le_length (by rwa [length_drop]),
      drop_drop, Rawbuf.rest, if_pos rfl]
    dsimp only
    congr 2
    omega
  refine ⟨⟨?_, ?_, ?_, ?_⟩, hpending⟩
  · exact hbehind
  · rintro b ⟨⟩ -
    have hbounds : 0 ≤ written ∧ written ≤ buf.data.length := by omega
    exact hbounds
  · intro b hb
    rcases mem_cons.mp hb with rfl | hb
    · exact h.size buf (by rw [hlist]; exact mem_cons_self)
    · exact h.size b (by rw [hlist]; exact mem_cons_of_mem buf hb)
  · have hle : n ≤ (pending rb).length := by
      rw [pending, hlist, flatMap_cons, hrest, length_append, length_drop]
      omega
    rw [hpending, length_drop]
    dsimp only
    rw [h.len]
    omega

/-- **The `writev` path.** The bytes that are written are those at the front, when the write does
not end in the first block, or that is not begun. -/
theorem Queued.writevLoop (h : Queued rb) {n : ℕ} (xret : ℤ) (hx : 0 ≤ xret)
    (hle : xret ≤ ((rb.list.take n).flatMap (·.rest rb.written)).length)
    (hfin : ∀ buf ∈ rb.list.head?, buf.flushing = true →
      rb.written = 0 ∨ buf.len - rb.written ≤ xret) :
    Queued (writevLoop n rb xret) ∧ pending (writevLoop n rb xret) = (pending rb).drop
    xret.toNat := by
  induction n generalizing rb xret with
  | zero =>
    obtain rfl : xret = 0 := by
      simp at hle
      omega
    exact ⟨h, rfl⟩
  | succ n ih =>
    rw [Rawbuf.writevLoop]
    cases hlist : rb.list with
    | nil =>
      refine ⟨h, ?_⟩
      simp [pending, hlist]
    | cons buf rest =>
      have hwritten := h.written buf (by rw [hlist]; rfl)
      have hfin := hfin buf (by rw [hlist]; rfl)
      have hbehind : ∀ b ∈ rest, b.flushing = false := by
        have hbehind := h.behind
        rwa [hlist, tail_cons] at hbehind
      have hrest : ((buf.rest rb.written).length : ℤ) =
          if buf.flushing then buf.len - rb.written else buf.len := by
        rw [Rawbuf.rest, Rawbuf.len] at *
        split_ifs with hflushing
        · rw [length_drop]
          have := hwritten hflushing
          omega
        · rfl
      -- The first block is done with when the write takes the rest of it.
      have hdone : ((buf.rest rb.written).length : ℤ) ≤ xret →
          Queued (Rawbuf.writevLoop n
              { rb with list := rest, len := rb.len - (buf.rest rb.written).length }
              (xret - (buf.rest rb.written).length)) ∧
            pending (Rawbuf.writevLoop n
              { rb with list := rest, len := rb.len - (buf.rest rb.written).length }
              (xret - (buf.rest rb.written).length)) = (pending rb).drop xret.toNat := by
        intro hall
        obtain ⟨hq, hp⟩ := h.done hlist rb.written
        rw [hlist, take_succ_cons, flatMap_cons, length_append] at hle
        obtain ⟨hq', hp'⟩ := ih hq (xret - (buf.rest rb.written).length) (by omega)
          (by dsimp only; omega) (by
            intro b hb hflushing
            rw [hbehind b (mem_of_mem_head? hb)] at hflushing
            exact absurd hflushing (by simp))
        refine ⟨hq', ?_⟩
        have hnil : (buf.rest rb.written).drop xret.toNat = [] :=
          drop_eq_nil_of_le (by omega)
        rw [hp', hp, drop_append, hnil, nil_append]
        congr 1
        omega
      dsimp only
      by_cases hflushing : buf.flushing = true
      · rw [if_pos hflushing] at hrest
        split_ifs with hfirst hsecond
        · rw [← hrest]
          exact hdone (by omega)
        · have := hwritten hflushing
          exact absurd ⟨hflushing, by omega⟩ hfirst
        · have hzero : rb.written = 0 := (hfin hflushing).resolve_right
            fun hall => hfirst ⟨hflushing, hall⟩
          obtain ⟨k, rfl⟩ := Int.eq_ofNat_of_zero_le hx
          refine h.endsIn hlist (by omega) _ ?_
          rw [Rawbuf.len] at hrest
          omega
      · rw [if_neg hflushing] at hrest
        split_ifs with hfirst hsecond
        · exact absurd hfirst.1 hflushing
        · rw [← hrest]
          exact hdone (by omega)
        · obtain ⟨k, rfl⟩ := Int.eq_ofNat_of_zero_le hx
          refine h.endsIn hlist (by omega) _ ?_
          rw [Rawbuf.len] at hrest
          omega

theorem Queued.mark (h : Queued rb) : Queued (mark rb) ∧ pending (mark rb) = pending rb := by
  rw [Rawbuf.mark]
  cases hlist : rb.list with
  | nil => exact ⟨h, rfl⟩
  | cons buf rest =>
    dsimp only
    split_ifs with hflushing
    · exact ⟨h, rfl⟩
    · have hdata : buf.rest rb.written = buf.data := by rw [Rawbuf.rest, if_neg hflushing]
      obtain ⟨hq, hp⟩ := h.endsIn hlist (Nat.zero_le _) 0 (by simp [hdata])
      rw [Nat.cast_zero, sub_zero] at hq hp
      exact ⟨hq, hp⟩

/-- What is offered is at the front of what is to be written. -/
theorem offered_prefix (maxiov : ℕ) (rb : Head) (ssl : Bool) :
    offered maxiov rb ssl <+: pending rb := by
  refine ⟨(rb.list.drop (if ssl then 1 else maxiov)).flatMap (·.rest rb.written), ?_⟩
  rw [offered, ← flatMap_append, take_append_drop, pending]

theorem mark_list (hlist : rb.list = buf :: rest) :
    (mark rb).list = { buf with flushing := true } :: rest ∧
      (⟨buf.data, true⟩ : Rawbuf).rest (mark rb).written = buf.rest rb.written := by
  rw [Rawbuf.mark, hlist]
  dsimp only
  split_ifs with hflushing
  · rw [hlist, ← hflushing]
    exact ⟨rfl, rfl⟩
  · refine ⟨rfl, ?_⟩
    rw [Rawbuf.rest, Rawbuf.rest, if_pos rfl, if_neg hflushing, Int.toNat_zero, drop_zero]

/-- A flush returns what the write returns, or an error. -/
theorem flush_snd (maxiov : ℕ) (rb : Head) (ssl : Bool) (retval : ℤ) :
    (flush maxiov rb ssl retval).2 = -1 ∨ (flush maxiov rb ssl retval).2 = retval := by
  rw [Rawbuf.flush]
  split_ifs
  · exact .inl rfl
  · exact .inr rfl
  · dsimp only
    split
    · exact .inr rfl
    · split <;> exact .inr rfl
  all_goals exact .inr rfl

/-- **A flush writes what is at the front**, and leaves the rest to be written. -/
theorem Queued.flush (h : Queued rb) {maxiov : ℕ} {ssl : Bool} {retval : ℤ}
    (hle : retval ≤ (offered maxiov rb ssl).length) (hfin : Finishes rb (.flush ssl retval)) :
    Queued (flush maxiov rb ssl retval).1 ∧
      pending (flush maxiov rb ssl retval).1 =
        (pending rb).drop (Rawbuf.flush maxiov rb ssl retval).2.toNat := by
  rw [Rawbuf.flush]
  by_cases hnil : rb.list = []
  · rw [if_pos hnil]
    exact ⟨h, rfl⟩
  rw [if_neg hnil]
  obtain ⟨buf, rest, hlist⟩ := exists_cons_of_ne_nil hnil
  cases ssl with
  | false =>
    rw [if_neg (by simp)]
    split_ifs with hneg
    · refine ⟨h, ?_⟩
      rw [Int.toNat_of_nonpos hneg, drop_zero]
    · exact h.writevLoop _ (by omega) hle (hfin rfl (by omega))
  | true =>
    obtain ⟨hq, hp⟩ := h.mark
    obtain ⟨hmark, hrest⟩ := mark_list hlist
    rw [if_pos rfl]
    dsimp only
    rw [hmark]
    by_cases hneg : retval ≤ 0
    · rw [if_pos hneg]
      refine ⟨hq, ?_⟩
      rw [hp, Int.toNat_of_nonpos hneg, drop_zero]
    rw [if_neg hneg]
    dsimp only
    have hwritten := hq.written ⟨buf.data, true⟩ (by rw [hmark]; rfl) rfl
    have hlen : (⟨buf.data, true⟩ : Rawbuf).len = buf.data.length := rfl
    have hoffer : ((buf.rest rb.written).length : ℤ) =
        buf.data.length - (Rawbuf.mark rb).written := by
      rw [← hrest, Rawbuf.rest, if_pos rfl, length_drop]
      dsimp only
      omega
    rw [offered, if_pos rfl, hlist, take_succ_cons, take_zero, flatMap_cons,
      flatMap_nil, append_nil] at hle
    by_cases hall : (Rawbuf.mark rb).written + retval = (⟨buf.data, true⟩ : Rawbuf).len
    · rw [if_pos hall]
      obtain ⟨hq', hp'⟩ := hq.done hmark 0
      have hret : (((⟨buf.data, true⟩ : Rawbuf).rest (Rawbuf.mark rb).written).length : ℤ) =
          retval := by
        rw [hrest]
        omega
      rw [← hp, hp']
      rw [hret]
      rw [hret] at hq'
      refine ⟨hq', ?_⟩
      rw [← hret, Int.toNat_natCast, drop_left]
    · rw [if_neg hall]
      obtain ⟨k, rfl⟩ := Int.eq_ofNat_of_zero_le (show 0 ≤ retval by omega)
      obtain ⟨hq', hp'⟩ := hq.endsIn hmark (n := k) (by rw [hrest]; omega)
        ((Rawbuf.mark rb).written + k) (by rw [hrest]; dsimp only; omega)
      rw [← hp]
      exact ⟨hq', hp'⟩

end Flush

/-! ### Runs -/

/-- **The bytes that are written are those appended, in order**, and the length is the number of
those that are not written, as long as no two writes in a row end in one block on the `writev`
path. -/
theorem written_in_order {maxiov : ℕ} {ops : List Op} {l : Log Head UInt8}
    (hok : StepsMeet (Transfer.step (op maxiov)) (fun l o => Finishes l.state o) (.start .new) ops)
    (hrun : run (Transfer.step (op maxiov)) (.start .new) ops = some l) :
    l.given ++ pending l.state = l.taken ∧
      length l.state = (l.taken.length : ℤ) - l.given.length := by
  have hpasses : ∀ rb o m, Queued rb → Finishes rb o → op maxiov rb o = some m →
      Passes Queued pending rb m := by
    intro rb o m h hfin hop
    cases o with
    | append data =>
      cases hop
      obtain ⟨hq, hp⟩ := h.append data
      exact ⟨hq, hp.symm⟩
    | flush ssl retval =>
      rw [op] at hop
      dsimp only at hop
      split_ifs at hop with hle
      cases hop
      obtain ⟨hq, hp⟩ := h.flush hle hfin
      obtain ⟨rest, hrest⟩ := offered_prefix maxiov rb ssl
      have hshort : (flush maxiov rb ssl retval).2.toNat ≤ (offered maxiov rb ssl).length := by
        rcases flush_snd maxiov rb ssl retval with hret | hret
        · rw [hret]
          exact Nat.zero_le _
        · rw [hret]
          omega
      refine ⟨hq, ?_⟩
      dsimp only
      rw [append_nil, hp, ← hrest, drop_append_of_le_length hshort, ← append_assoc,
        take_append_drop]
  obtain ⟨hq, hsent⟩ := conserved hpasses queued_new hok hrun
  have hnone : pending Head.new = [] := rfl
  rw [hnone, nil_append] at hsent
  refine ⟨hsent, ?_⟩
  rw [length, hq.len, ← hsent, length_append]
  omega

/-- Writes that end in the block, at its end, and in the next one. -/
theorem written_in_order_small :
    ∃ l, run (Transfer.step (op 16)) (.start .new)
        [.append [1, 2, 3], .flush false 1, .append [4, 5], .flush false 2, .flush false 1] =
        some l ∧
      l.given = [1, 2, 3, 4] ∧ l.given ++ pending l.state = l.taken ∧
      length l.state = (l.taken.length : ℤ) - l.given.length := by
  have hok : StepsMeet (Transfer.step (op 16)) (fun l o => Finishes l.state o) (.start .new)
      [.append [1, 2, 3], .flush false 1, .append [4, 5], .flush false 2, .flush false 1] := by
    refine ⟨trivial, ?_⟩
    rintro _ ⟨⟩
    refine ⟨fun _ _ buf hbuf hflushing => ?_, ?_⟩
    · cases hbuf
      cases hflushing
    rintro _ ⟨⟩
    refine ⟨trivial, ?_⟩
    rintro _ ⟨⟩
    refine ⟨fun _ _ buf hbuf _ => ?_, ?_⟩
    · cases hbuf
      exact .inr (by decide)
    rintro _ ⟨⟩
    refine ⟨fun _ _ _ _ _ => .inl rfl, ?_⟩
    rintro _ ⟨⟩
    trivial
  refine ⟨_, rfl, rfl, written_in_order hok rfl⟩

/-- Two writes of one byte each end in a block: the second byte is written again, and the length is
negative in the end. -/
theorem written_again :
    ∃ l, run (Transfer.step (op 16)) (.start .new)
        [.append [1, 2, 3], .flush false 1, .flush false 1, .flush false 2] = some l ∧
      l.taken = [1, 2, 3] ∧ l.given = [1, 2, 2, 3] ∧ length l.state = -1 ∧
      ¬(l.given ++ pending l.state = l.taken ∧
        length l.state = (l.taken.length : ℤ) - l.given.length) :=
  ⟨_, rfl, rfl, rfl, rfl, by decide⟩

end Ratbox.Rawbuf
