import Mathlib.Data.List.DropRight

/-!
# Line buffers

A `buf_head_t` is a queue of line buffers of fixed size. Received bytes are appended to the last
line until its CR/LF arrives (`rb_linebuf_parse`), complete lines are taken from the front
(`rb_linebuf_get`, `rb_linebuf_flush`), and a queue can hold the lines of another one without
copying them (`rb_linebuf_attach`), so a line is an object with a reference count which several
queues may point to.

Source: `libratbox/src/linebuf.c` and `libratbox/include/rb_linebuf.h`.

## Main definitions

* `Linebuf.BufLine`, `Linebuf.BufHead`, `Linebuf.World`: `buf_line_t`, `buf_head_t`, and the
  memory that holds them.
* `Linebuf.copyLine`, `Linebuf.copyRaw`: appending received bytes to one line.
* `Linebuf.parse`, `Linebuf.get`, `Linebuf.put`, `Linebuf.attach`, `Linebuf.flush`,
  `Linebuf.donebuf`: the operations on a queue.

The counters are C `int`s and are modelled by integers: a queue of `2 ^ 31` bytes does not occur.
-/

namespace Ratbox.Linebuf

open List Function

/-- `BUF_DATA_SIZE`: the bytes of a line with its final NUL. -/
def bufDataSize : ℕ := 511

/-- Whether a byte is CR or LF. -/
def isCrlf (b : UInt8) : Bool := b == 13 || b == 10

/-- `buf_line_t`. The list `buf` holds the first `len` bytes of the C array; it is shorter only
for a line written outside its array (`chopAndTerminate`). -/
structure BufLine where
  buf : List UInt8
  terminated : Bool
  raw : Bool
  len : ℤ
  refcount : ℤ
  deriving DecidableEq

/-- A line as `rb_linebuf_allocate` returns it, all zero. -/
def BufLine.empty : BufLine := ⟨[], false, false, 0, 0⟩

/-- A line that was just put on a queue. -/
def BufLine.fresh : BufLine := { BufLine.empty with refcount := BufLine.empty.refcount + 1 }

/-- `buf_head_t`, with the addresses of its lines. -/
structure BufHead where
  list : List ℕ
  len : ℤ
  alloclen : ℤ
  writeofs : ℤ
  numlines : ℤ
  deriving DecidableEq

/-- A queue as `rb_linebuf_newbuf` makes it. -/
def BufHead.empty : BufHead := ⟨[], 0, 0, 0, 0⟩

/-- The memory: the lines and the queues by address, and the next address to allocate a line
at. A freed address is not used again. -/
structure World where
  line : ℕ → BufLine
  head : ℕ → BufHead
  fresh : ℕ

namespace World

/-- No lines yet, and every queue empty. -/
def init : World := ⟨fun _ => .empty, fun _ => .empty, 0⟩

/-- Write a line. -/
def setLine (w : World) (a : ℕ) (l : BufLine) : World :=
  { w with line := update w.line a l }

/-- Write a queue head. -/
def setHead (w : World) (h : ℕ) (b : BufHead) : World :=
  { w with head := update w.head h b }

@[simp] theorem head_setLine (w : World) (a : ℕ) (l : BufLine) :
    (w.setLine a l).head = w.head := rfl

@[simp] theorem line_setHead (w : World) (h : ℕ) (b : BufHead) :
    (w.setHead h b).line = w.line := rfl

@[simp] theorem line_setLine_self (w : World) (a : ℕ) (l : BufLine) :
    (w.setLine a l).line a = l := update_self ..

@[simp] theorem head_setHead_self (w : World) (h : ℕ) (b : BufHead) :
    (w.setHead h b).head h = b := update_self ..

theorem line_setLine_of_ne (w : World) {a a' : ℕ} (l : BufLine) (h : a' ≠ a) :
    (w.setLine a l).line a' = w.line a' := update_of_ne h ..

theorem head_setHead_of_ne (w : World) {h h' : ℕ} (b : BufHead) (hne : h' ≠ h) :
    (w.setHead h b).head h' = w.head h' := update_of_ne hne ..

/-- The lines of a queue, in order. -/
def queue (w : World) (h : ℕ) : List BufLine := (w.head h).list.map w.line

end World

/-! ### Allocating and releasing lines -/

/-- `rb_linebuf_new_line`: a fresh line at the end of the queue, with its address. -/
def newLine (w : World) (h : ℕ) : World × ℕ :=
  let a := w.fresh
  let b := w.head h
  ({ line := update w.line a BufLine.fresh
     head := update w.head h
       { b with list := b.list ++ [a], alloclen := b.alloclen + 1, numlines := b.numlines + 1 }
     fresh := a + 1 }, a)

/-- `rb_linebuf_done_line` on the first line of the queue, the only one it is ever called on.
A line whose count reaches zero is freed. -/
def doneLine (w : World) (h : ℕ) : World :=
  let b := w.head h
  match b.list with
  | [] => w
  | a :: rest =>
    let l := w.line a
    let w := w.setHead h
      { b with list := rest, alloclen := b.alloclen - 1, len := b.len - l.len,
               numlines := b.numlines - 1 }
    if l.refcount - 1 = 0 then w.setLine a BufLine.empty
    else w.setLine a { l with refcount := l.refcount - 1 }

/-- `rb_linebuf_donebuf`: release every line. -/
def donebufLoop : ℕ → World → ℕ → World
  | 0, w, _ => w
  | n + 1, w, h => donebufLoop n (doneLine w h) h

@[inherit_doc donebufLoop]
def donebuf (w : World) (h : ℕ) : World := donebufLoop (w.head h).list.length w h

/-! ### Receiving -/

/-- `rb_linebuf_skip_crlf`: the bytes up to the end of the first run of CR/LF. -/
def skipCrlf (data : List UInt8) : ℕ :=
  let text := data.takeWhile (!isCrlf ·)
  text.length + ((data.drop text.length).takeWhile isCrlf).length

/-- A chunk begins with a text without CR/LF and a run of CR/LF, which is missing only at the end
of the chunk; `rb_linebuf_skip_crlf` counts both. -/
theorem exists_run (data : List UInt8) : ∃ text eol rest, data = text ++ (eol ++ rest) ∧
    (∀ b ∈ text, isCrlf b = false) ∧ (∀ b ∈ eol, isCrlf b = true) ∧
    skipCrlf data = text.length + eol.length ∧ (eol = [] → rest = []) := by
  set text := data.takeWhile (!isCrlf ·) with htext
  set eol := (data.dropWhile (!isCrlf ·)).takeWhile isCrlf with heol
  refine ⟨text, eol, (data.dropWhile (!isCrlf ·)).dropWhile isCrlf, ?_, ?_, ?_, ?_, ?_⟩
  · rw [takeWhile_append_dropWhile, takeWhile_append_dropWhile]
  · intro b hb
    simpa using mem_takeWhile_imp hb
  · exact fun b hb => mem_takeWhile_imp hb
  · have hdrop : data.drop text.length = data.dropWhile (!isCrlf ·) := by
      conv_lhs => rw [← takeWhile_append_dropWhile (p := (!isCrlf ·)) (l := data)]
      exact drop_left
    simp [skipCrlf, ← htext, hdrop, ← heol]
  · -- the text stops only at a CR/LF
    intro h
    cases hd : data.dropWhile (!isCrlf ·) with
    | nil => rfl
    | cons b s =>
      have hb : isCrlf b = true := by
        have := head_dropWhile_not (!isCrlf ·) (l := data) (by simp [hd])
        simpa [hd] using this
      rw [heol, hd, takeWhile_cons_of_pos hb] at h
      exact absurd h (cons_ne_nil _ _)

/-- What the copy takes from the chunk when it fits. -/
theorem take_run (text eol rest : List UInt8) :
    (text ++ (eol ++ rest)).take (text.length + eol.length) = text ++ eol := by
  rw [← append_assoc, ← length_append, take_left]

/-- Yanking the run off the copied bytes leaves the text. -/
theorem rdropWhile_run {text eol : List UInt8} (ht : ∀ b ∈ text, isCrlf b = false)
    (he : ∀ b ∈ eol, isCrlf b = true) : (text ++ eol).rdropWhile isCrlf = text := by
  induction eol using reverseRecOn with
  | nil =>
    rw [append_nil, rdropWhile_eq_self_iff]
    exact fun hne => by simp [ht _ (getLast_mem hne)]
  | append_singleton eol b ih =>
    rw [← append_assoc, rdropWhile_concat_pos _ _ _ (he b (by simp))]
    exact ih fun c hc => he c (by simp [hc])

/-- The result of copying into one line: the line, what is added to the length of the queue, and
the bytes of the chunk that are used up. -/
structure Copied where
  line : BufLine
  added : ℤ
  consumed : ℕ

/-- The loop of the overflow branch, on the buffer read backwards from its last byte: at most
`n` trailing CR/LF bytes are overwritten by NUL. When the whole buffer is CR/LF the C loop goes
on to the bytes before the array; these are taken not to be CR or LF. -/
def clearEol : ℕ → List UInt8 → List UInt8
  | 0, l => l
  | _, [] => []
  | n + 1, b :: l => if isCrlf b then 0 :: clearEol n l else b :: l

/-- `rb_linebuf_copy_line`. -/
def copyLine (l : BufLine) (data : List UInt8) : Copied :=
  if l.terminated then ⟨{ l with raw := false }, 0, 0⟩
  else
    let clen := skipCrlf data
    let room := (bufDataSize : ℤ) - l.len - 1
    if (clen : ℤ) > room then
      -- overflow: the rest of the run is consumed, and `len` covers the cleared bytes too
      let full := l.buf ++ data.take room.toNat
      ⟨{ l with raw := false, buf := (clearEol clen full.reverse).reverse, terminated := true,
                len := bufDataSize - 1 }, bufDataSize - 1, clen⟩
    else
      let cpy := data.take clen
      match (l.buf ++ cpy).getLast? with
      | some b =>
        if isCrlf b then
          let text := cpy.rdropWhile isCrlf
          ⟨{ l with raw := false, buf := l.buf ++ text, terminated := true,
                    len := l.len + text.length }, text.length, clen⟩
        else
          ⟨{ l with raw := false, buf := l.buf ++ cpy, terminated := false,
                    len := l.len + clen }, clen, clen⟩
      | none => ⟨{ l with raw := false, terminated := false }, 0, clen⟩

/-- `rb_linebuf_copy_raw`: as `copyLine`, but the CR/LF bytes are kept, and an overflow uses up
only what fits. -/
def copyRaw (l : BufLine) (data : List UInt8) : Copied :=
  if l.terminated then ⟨{ l with raw := true }, 0, 0⟩
  else
    let cpylen := skipCrlf data
    let room := (bufDataSize : ℤ) - l.len - 1
    if (cpylen : ℤ) > room then
      ⟨{ l with raw := true, buf := l.buf ++ data.take room.toNat, terminated := true,
                len := bufDataSize - 1 }, bufDataSize - 1, room.toNat⟩
    else
      let cpy := data.take cpylen
      match (l.buf ++ cpy).getLast? with
      | some b =>
        ⟨{ l with raw := true, buf := l.buf ++ cpy, terminated := isCrlf b,
                  len := l.len + cpylen }, cpylen, cpylen⟩
      | none => ⟨{ l with raw := true, terminated := false }, 0, cpylen⟩

/-- The copy that `rb_linebuf_parse` chooses. -/
def copy (raw : Bool) : BufLine → List UInt8 → Copied := if raw then copyRaw else copyLine

/-- Copy into the line at address `a` of the queue `h`. -/
def copyInto (w : World) (h a : ℕ) (raw : Bool) (data : List UInt8) : World × ℕ :=
  let c := copy raw (w.line a) data
  let b := w.head h
  ((w.setLine a c.line).setHead h { b with len := b.len + c.added }, c.consumed)

/-- The loop of `rb_linebuf_parse`: a new line for what is left of the chunk. Every turn uses up
a byte, so that the length of the chunk bounds the turns. -/
def parseLoop : ℕ → World → ℕ → Bool → List UInt8 → ℕ → World × ℕ
  | 0, w, _, _, _, linecnt => (w, linecnt)
  | n + 1, w, h, raw, data, linecnt =>
    if data = [] then (w, linecnt)
    else
      let (w, a) := newLine w h
      let (w, cpylen) := copyInto w h a raw data
      parseLoop n w h raw (data.drop cpylen) (linecnt + 1)

/-- `rb_linebuf_parse`: the last line gets what it can take, new lines the rest. The number of
lines touched is returned. -/
def parse (w : World) (h : ℕ) (raw : Bool) (data : List UInt8) : World × ℕ :=
  match (w.head h).list.getLast? with
  | none => parseLoop data.length w h raw data 0
  | some a =>
    let (w, cpylen) := copyInto w h a raw data
    if cpylen = data.length then (w, 1)
    else parseLoop data.length w h raw (data.drop cpylen) 1

/-! ### Taking lines out -/

/-- The bytes that `rb_linebuf_get` copies from a line into a buffer of size `buflen`. -/
def getBytes (l : BufLine) (buflen : ℕ) (raw : Bool) : List UInt8 :=
  let cpylen := if (buflen : ℤ) < l.len then buflen - 1 else l.len.toNat
  let start := l.buf.take cpylen
  if l.raw && !raw then (start.dropWhile isCrlf).rdropWhile isCrlf else start

/-- `rb_linebuf_get`: the bytes of the first line, if it is complete or `partl` is set, and
nothing otherwise. -/
def get (w : World) (h buflen : ℕ) (partl raw : Bool) : World × List UInt8 :=
  match (w.head h).list with
  | [] => (w, [])
  | a :: _ =>
    let l := w.line a
    if !(partl || l.terminated) then (w, [])
    else (doneLine w h, getBytes l buflen raw)

/-! ### Queueing lines to send -/

/-- Whether the trimming loop of `rb_linebuf_put` skips a byte. -/
def isChopped (b : UInt8) : Bool := isCrlf b || b == 0

/-- The end of a formatted line: what `rb_linebuf_put` and its variants do with the `text` that
the formatter produced, of which the array holds the first `BUF_DATA_SIZE - 1` bytes. The result
is the bytes of the line and its length. The trimming loop starts at the final NUL and has no
lower bound: for a text of nothing but CR, LF and NUL it goes on to `below`, the bytes in front of
the array, nearest first; `none` when it runs off these too. -/
def chopAndTerminate (text below : List UInt8) : Option (List UInt8 × ℤ) :=
  if text.length > 510 then some (text.take 510 ++ [13, 10], 512)
  else if text.length = 0 then some ([13, 10], 2)
  else
    let kept := text.rdropWhile isChopped
    if kept = [] then
      let j := (below.takeWhile isChopped).length
      if j = below.length then none
      else some (([13, 10] : List UInt8).drop j, 2 - j)
    else some (kept ++ [13, 10], kept.length + 2)

/-- Queue a complete line for `text`, the common body of `rb_linebuf_putmsg`,
`rb_linebuf_putbuf` and `rb_linebuf_put`. -/
def putText (w : World) (h : ℕ) (text below : List UInt8) : Option World := do
  let (bytes, len) ← chopAndTerminate text below
  let (w, a) := newLine w h
  let b := w.head h
  some ((w.setLine a { w.line a with buf := bytes, terminated := true, len := len }).setHead h
    { b with len := b.len + len })

/-- `rb_linebuf_putmsg`: a prefix, which must fit the array, and a message, each formatted if
given. -/
def putmsg (w : World) (h : ℕ) (message pfx : Option (List UInt8)) (below : List UInt8) :
    Option World :=
  putText w h (pfx.getD [] ++ message.getD []) below

/-- `rb_linebuf_putbuf`. -/
def putbuf (w : World) (h : ℕ) (buffer : Option (List UInt8)) (below : List UInt8) :
    Option World :=
  putText w h (buffer.getD []) below

/-- `rb_linebuf_put`. -/
def put (w : World) (h : ℕ) (format : Option (List UInt8)) (below : List UInt8) : Option World :=
  putText w h (format.getD []) below

/-- One turn of the loop of `rb_linebuf_attach`. -/
def attachLine (w : World) (h a : ℕ) : World :=
  let b := w.head h
  let l := w.line a
  (w.setHead h { b with list := b.list ++ [a], alloclen := b.alloclen + 1, len := b.len + l.len,
                        numlines := b.numlines + 1 }).setLine a
    { l with refcount := l.refcount + 1 }

/-- `rb_linebuf_attach`: the lines of `new` are queued on `h` too. On the queue itself the loop
keeps finding the lines it has just added and does not end. -/
def attach (w : World) (h new : ℕ) : Option World :=
  if h = new ∧ (w.head h).list ≠ [] then none
  else some ((w.head new).list.foldl (fun w a => attachLine w h a) w)

/-! ### Sending -/

/-- The number of lines that the `writev` path offers: the complete lines at the front, at most
`maxiov` of them. This is `RB_UIO_MAXIOV`, which depends on the platform and is at least 2. -/
def vecCount (maxiov : ℕ) (w : World) (h : ℕ) : ℕ :=
  (((w.queue h).takeWhile (·.terminated)).take maxiov).length

/-- The bytes offered to the write: on the `writev` path those of `vecCount` lines, on the SSL
path those of the first line, in both cases from the write offset on. -/
def offered (maxiov : ℕ) (w : World) (h : ℕ) (ssl : Bool) : List UInt8 :=
  let ls := (w.queue h).take (if ssl then 1 else vecCount maxiov w h)
  (ls.flatMap (·.buf)).drop (w.head h).writeofs.toNat

/-- The loop of the `writev` path after `xret` bytes were written. -/
def flushLoop : ℕ → World → ℕ → ℤ → World
  | 0, w, _, _ => w
  | n + 1, w, h, xret =>
    match (w.head h).list with
    | [] => w
    | a :: _ =>
      let b := w.head h
      let l := w.line a
      if xret ≥ l.len - b.writeofs then
        let w := doneLine w h
        flushLoop n (w.setHead h { w.head h with writeofs := 0 }) h
          (xret - (l.len - b.writeofs))
      else w.setHead h { b with writeofs := b.writeofs + xret }

/-- `rb_linebuf_flush`, where `retval` is what the write returns: the bytes written, `0`, or an
error. Nothing is written when the first line is missing or unfinished. -/
def flush (maxiov : ℕ) (w : World) (h : ℕ) (ssl : Bool) (retval : ℤ) : World × ℤ :=
  match (w.head h).list with
  | [] => (w, -1)
  | a :: _ =>
    let l := w.line a
    if !l.terminated then (w, -1)
    else if retval ≤ 0 then (w, retval)
    else if ssl then
      let b := { w.head h with writeofs := (w.head h).writeofs + retval }
      if b.writeofs = l.len then
        (doneLine (w.setHead h { b with writeofs := 0 }) h, retval)
      else (w.setHead h b, retval)
    else (flushLoop (vecCount maxiov w h) w h retval, retval)

end Ratbox.Linebuf
