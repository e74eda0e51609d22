import Mathlib.Data.List.ModifyLast
import Mathlib.Algebra.Ring.Int.Defs
import Ratbox.Packet

/-!
# The receive queue goes to the helper

When a link is compressed, its helper gets what was read from the link before: `start_zlib_session`
takes the lines off the receive queue as they are, and sends them in a message whose length is that
of the queue. The length is one thing and the lines are another: a line that overflows after a part
of it came in an earlier chunk is counted with this part twice, the length is cut to 16 bits, and a
chunk that is stripped leaves bytes out.

Source: `src/sslproc.c`, lines 760–841, with `libratbox/src/linebuf.c`, lines 206–470.

## Main definitions

* `Zlib.Link`, `Zlib.serve`: a link with a record of the bytes that were received, and what is done
  with its queue.
* `Zlib.startZlibSession`: the function of the same name.
* `Zlib.Right`: the link is closed, or the helper gets what waits.

## Main results

* `Zlib.Sound.serve`: the record is that of the lines.
* `Zlib.start_zlib_session_iff`: all runs.
* `Zlib.uninitialised_byte`: a byte that was not written is sent.
-/

namespace Ratbox.Zlib

open Linebuf List Option
open Packet (readbufSize)

/-! ### The link -/

/-- What was received into a line, and whether it was completed by a chunk that was stripped. -/
structure Piece where
  bytes : List UInt8
  stripped : Bool
  deriving DecidableEq

/-- The memory with the receive queue of a link. On record are the pieces of its lines, the bytes
that are counted twice, and the bytes that were received and those that were taken off the queue. -/
structure Link where
  w : World
  pieces : List Piece
  excess : ℤ
  received : List UInt8
  taken : List UInt8

/-- A new link. -/
def Link.start : Link := ⟨World.init, [], 0, [], []⟩

/-- The bytes that wait in the queue. -/
def Link.waiting (s : Link) : List UInt8 := s.received.drop s.taken.length

/-- The piece of a line that a chunk is copied into. -/
def Piece.copy (raw : Bool) (l : BufLine) (data : List UInt8) (p : Piece) : Piece :=
  let c := Linebuf.copy raw l data
  ⟨p.bytes ++ data.take c.consumed, p.stripped || (!raw && !l.terminated && c.line.terminated)⟩

/-- The bytes of a line that are counted again when it overflows. -/
def excessOf (l : BufLine) (data : List UInt8) : ℤ :=
  if l.terminated = false ∧ (bufDataSize : ℤ) - l.len - 1 < skipCrlf data then l.len else 0

section

variable (h : ℕ)

/-- A new line, with its record. -/
def Link.newLine (s : Link) : Link × ℕ :=
  let (w, a) := Linebuf.newLine s.w h
  ({ s with w := w, pieces := s.pieces ++ [⟨[], false⟩] }, a)

/-- A copy into the last line, with its record. -/
def Link.copyInto (s : Link) (a : ℕ) (raw : Bool) (data : List UInt8) : Link × ℕ :=
  let (w, cpylen) := Linebuf.copyInto s.w h a raw data
  ({ s with
      w := w
      pieces := s.pieces.modifyLast (Piece.copy raw (s.w.line a) data)
      excess := s.excess + excessOf (s.w.line a) data }, cpylen)

/-- The loop of `rb_linebuf_parse`, with the record. -/
def Link.parseLoop : ℕ → Link → Bool → List UInt8 → Link
  | 0, s, _, _ => s
  | n + 1, s, raw, data =>
    if data = [] then s
    else
      let (s, a) := s.newLine h
      let (s, cpylen) := s.copyInto h a raw data
      Link.parseLoop n s raw (data.drop cpylen)

/-- `rb_linebuf_parse`, with the record. -/
def Link.parse (s : Link) (raw : Bool) (data : List UInt8) : Link :=
  match (s.w.head h).list.getLast? with
  | none => Link.parseLoop h data.length s raw data
  | some a =>
    let (s, cpylen) := s.copyInto h a raw data
    if cpylen = data.length then s else Link.parseLoop h data.length s raw (data.drop cpylen)

/-- `rb_linebuf_get` with `LINEBUF_COMPLETE` and `LINEBUF_PARSED`, as the lines of a link are taken
off to be parsed. -/
def Link.get (s : Link) : Link :=
  let w := (Linebuf.get s.w h readbufSize false false).1
  if (s.w.queue h).head?.any (·.terminated) then
    { s with
      w := w, pieces := s.pieces.tail, taken := s.taken ++ (s.pieces.take 1).flatMap (·.bytes) }
  else { s with w := w }

/-- What is done with the queue: a chunk is received, and a line is taken off. -/
inductive Call
  | parse (raw : Bool) (data : List UInt8)
  | get
  deriving DecidableEq

/-- A step. A read of no bytes is the end of the link, and nothing is parsed. -/
def serve (s : Link) : Call → Link
  | .parse raw data => if data = [] then s else { s.parse h raw data with received := s.received ++
    data }
  | .get => s.get h

/-! ### Starting the session -/

/-- What is around: the bytes of `zconnid` and the level, whether a socket pair can be made, and
whether a helper is alive. -/
structure Env where
  zconnid : { bytes : List UInt8 // bytes.length = 4 }
  level : UInt8
  pair : Bool
  ssld : Bool

/-- The first bytes of the message. -/
def Env.header (env : Env) : List UInt8 := 90 :: env.zconnid.val ++ [env.level]

/-- The variable `hdr`. -/
def hdr : ℕ := 6

/-- The variable `recvqlen`, which has 16 bits. -/
def recvqlen (w : World) : ℕ := ((w.head h).len % 65536).toNat

/-- The loop over the lines: `left` bytes of the buffer are left, and a line for which there is none
would be copied with the length -1. -/
def copyLoop : ℕ → World → ℕ → List UInt8 → Option (List UInt8)
  | 0, _, _, copied => some copied
  | n + 1, w, left, copied =>
    match (w.head h).list with
    | [] => some copied
    | a :: _ =>
      if left = 0 ∧ 0 < (w.line a).len then none
      else
        let (w, bytes) := Linebuf.get w h left true true
        if bytes = [] then some copied else copyLoop n w (left - bytes.length) (copied ++ bytes)

/-- What becomes of the link: it is closed, or left without a helper, or handed over with a message.
A byte of the message that was not written is `none`. -/
inductive Outcome
  | closed
  | left
  | sent (message : List (Option UInt8))
  deriving DecidableEq

/-- `start_zlib_session`. -/
def startZlibSession (env : Env) (w : World) : Option Outcome :=
  if readbufSize < recvqlen h w + hdr then some .closed
  else
    (copyLoop h ((w.head h).list.length + 1) w (recvqlen h w) []).map fun copied =>
      if env.pair = false then .closed
      else if env.ssld = false then .left
      else .sent ((env.header ++ copied).map some ++ replicate (recvqlen h w - copied.length) none)

/-- **Nothing is lost**: the link is closed, or the helper gets the header and the bytes that
wait. -/
def Right (env : Env) (s : Link) : Prop :=
  startZlibSession h env s.w = some .closed ∨
    startZlibSession h env s.w = some (.sent ((env.header ++ s.waiting).map some))

/-- The loop comes to a line with no room left: `left` bytes for lines of these lengths. -/
def Overruns : ℕ → List ℕ → Prop
  | _, [] => False
  | left, len :: lens =>
    0 < len ∧ (left = 0 ∨ if left < len then left ≠ 1 ∧ Overruns 1 lens else Overruns (left - len)
      lens)

/-- The condition: the number of the bytes with those that were counted twice does not fit the
message; or there is no socket pair, and the room does not run out in front of a line; or the bytes
fit the message, those that were counted twice are a multiple of `2 ^ 16`, and no line that waits
was stripped. -/
def Meets (env : Env) (s : Link) : Prop :=
  readbufSize < recvqlen h s.w + hdr ∨
    (env.pair = false ∧ ¬Overruns (recvqlen h s.w) ((s.w.queue h).map (·.buf.length))) ∨
    (env.pair = true ∧ env.ssld = true ∧ s.waiting.length + hdr ≤ readbufSize ∧
      s.excess % 65536 = 0 ∧ ∀ p ∈ s.pieces, p.stripped = false)

end

/-! ### The functions under the record -/

theorem Link.parseLoop_w (h n : ℕ) (s : Link) (raw : Bool) (data : List UInt8) (linecnt : ℕ) :
    (Link.parseLoop h n s raw data).w = (Linebuf.parseLoop n s.w h raw data linecnt).1 ∧
      (Link.parseLoop h n s raw data).taken = s.taken := by
  induction n generalizing s data linecnt with
  | zero => exact ⟨rfl, rfl⟩
  | succ n ih =>
    rw [Link.parseLoop, Linebuf.parseLoop]
    split_ifs
    · exact ⟨rfl, rfl⟩
    · exact ih _ _ _

/-- With its record, a chunk is received as without. -/
theorem Link.parse_w (h : ℕ) (s : Link) (raw : Bool) (data : List UInt8) :
    (s.parse h raw data).w = (Linebuf.parse s.w h raw data).1 ∧ (s.parse h raw data).taken =
    s.taken := by
  rw [Link.parse, Linebuf.parse]
  cases (s.w.head h).list.getLast? with
  | none => exact Link.parseLoop_w h _ s raw data 0
  | some a =>
    dsimp only [Link.copyInto]
    split_ifs
    · exact ⟨rfl, rfl⟩
    · exact Link.parseLoop_w h _ _ raw _ 1

/-! ### The record of a line -/

/-- A line has the bytes that were received into it, or was stripped and has fewer. -/
structure Kept (l : BufLine) (p : Piece) : Prop where
  len : l.len = l.buf.length
  le : l.buf.length ≤ maxLine
  whole : p.stripped = false → l.buf = p.bytes
  lost : p.stripped = true → l.terminated = true ∧ l.buf.length < p.bytes.length

section Lines

variable {l : BufLine} {p : Piece} {data : List UInt8}

theorem kept_fresh : Kept BufLine.fresh ⟨[], false⟩ := ⟨rfl, Nat.zero_le _, fun _ => rfl, by simp⟩

theorem skipCrlf_pos (hdata : data ≠ []) : 0 < skipCrlf data := by
  obtain ⟨text, eol, rest, rfl, -, -, hskip, hrest⟩ := exists_run data
  rw [hskip]
  by_contra hzero
  obtain ⟨h1, h2⟩ : text = [] ∧ eol = [] := by simpa using hzero
  exact hdata (by simp [h1, h2, hrest h2])

theorem skipCrlf_le (data : List UInt8) : skipCrlf data ≤ data.length := by
  obtain ⟨text, eol, rest, rfl, -, -, hskip, -⟩ := exists_run data
  rw [hskip]
  simp

theorem length_clearEol (n : ℕ) (bytes : List UInt8) :
    (clearEol n bytes).length = bytes.length := by
  induction bytes generalizing n with
  | nil => cases n <;> rfl
  | cons b bytes ih =>
    cases n with
    | zero => rfl
    | succ n =>
      rw [clearEol]
      split_ifs
      · rw [length_cons, ih, length_cons]
      · rfl

/-- A line that is complete takes nothing. -/
theorem Kept.copy_terminated (hl : Kept l p) (hterm : l.terminated = true) (raw : Bool) :
    Kept (copy raw l data).line (p.copy raw l data) ∧ (copy raw l data).consumed = 0 ∧
      (copy raw l data).added = (copy raw l data).line.len - l.len + excessOf l data := by
  have hcopy : copy raw l data = ⟨{ l with raw := raw }, 0, 0⟩ := by
    cases raw <;> simp [copy, copyRaw, copyLine, hterm]
  have hpiece : p.copy raw l data = p := by
    rw [Piece.copy, hcopy]
    simp [hterm]
  rw [hpiece, hcopy]
  exact ⟨⟨hl.len, hl.le, hl.whole, hl.lost⟩, rfl, by simp [excessOf, hterm]⟩

/-- A line that waits was not stripped. -/
theorem Kept.bytes (hl : Kept l p) (hterm : l.terminated = false) :
    p.stripped = false ∧ l.buf = p.bytes := by
  have hwhole : p.stripped = false := by
    cases hp : p.stripped with
    | false => rfl
    | true => cases hterm.symm.trans (hl.lost hp).1
  exact ⟨hwhole, hl.whole hwhole⟩

/-- **A chunk that is kept as it is** goes into a line that waits. -/
theorem Kept.copyRaw (hl : Kept l p) (hterm : l.terminated = false) (hdata : data ≠ []) :
    Kept (copyRaw l data).line (p.copy true l data) ∧
      (copyRaw l data).added = (copyRaw l data).line.len - l.len + excessOf l data ∧
      (l.len = 0 → 0 < (copyRaw l data).consumed) := by
  obtain ⟨hwhole, hbuf⟩ := hl.bytes hterm
  have hlen := hl.len
  have hle := hl.le
  have hpos := skipCrlf_pos hdata
  have hskip := skipCrlf_le data
  have hpiece : p.copy true l data = ⟨p.bytes ++ data.take (Linebuf.copyRaw l data).consumed,
      false⟩ := by
    simp [Piece.copy, copy, hwhole]
  rw [hpiece]
  by_cases hover : (bufDataSize : ℤ) - l.len - 1 < skipCrlf data
  · have hcopy : Linebuf.copyRaw l data = ⟨{ l with
        raw := true, buf := l.buf ++ data.take ((bufDataSize : ℤ) - l.len - 1).toNat, terminated :=
          true,
        len := bufDataSize - 1 }, bufDataSize - 1, ((bufDataSize : ℤ) - l.len - 1).toNat⟩ := by
      simp [Linebuf.copyRaw, hterm, hover]
    have hroom : (l.buf ++ data.take ((bufDataSize : ℤ) - l.len - 1).toNat).length = maxLine := by
      rw [length_append, length_take]
      simp only [maxLine, bufDataSize] at hle hover ⊢
      omega
    rw [hcopy]
    refine ⟨⟨?_, hroom.le, fun _ => by rw [hbuf], by simp⟩, ?_, fun hzero => ?_⟩
    · rw [hroom]
      rfl
    · rw [excessOf, if_pos ⟨hterm, hover⟩]
      dsimp only
      omega
    · dsimp only
      rw [hzero]
      decide
  · obtain ⟨b, hb⟩ : ∃ b, (l.buf ++ data.take (skipCrlf data)).getLast? = some b := by
      refine ne_none_iff_exists'.mp fun hnone => ?_
      have hnil := congrArg length (getLast?_eq_none_iff.mp hnone)
      rw [length_append, length_take, length_nil] at hnil
      omega
    have hcopy : Linebuf.copyRaw l data = ⟨{ l with
        raw := true, buf := l.buf ++ data.take (skipCrlf data), terminated := isCrlf b, len :=
          l.len + skipCrlf data },
        skipCrlf data, skipCrlf data⟩ := by
      simp [Linebuf.copyRaw, hterm, hover, hb]
    rw [hcopy]
    have hroom : (l.buf ++ data.take (skipCrlf data)).length = l.buf.length + skipCrlf data := by
      rw [length_append, length_take, min_eq_left hskip]
    refine ⟨⟨?_, ?_, fun _ => by rw [hbuf], by simp⟩, ?_, fun _ => hpos⟩
    · rw [hroom, hlen]
      push_cast
      rfl
    · rw [hroom]
      simp only [maxLine, bufDataSize] at hover ⊢
      omega
    · rw [excessOf, if_neg fun h => hover h.2]
      dsimp only
      omega

/-- **A chunk that is stripped** goes into a line that waits. -/
theorem Kept.copyLine (hl : Kept l p) (hterm : l.terminated = false) (hdata : data ≠ []) :
    Kept (copyLine l data).line (p.copy false l data) ∧
      (copyLine l data).added = (copyLine l data).line.len - l.len + excessOf l data ∧
      0 < (copyLine l data).consumed := by
  obtain ⟨hwhole, hbuf⟩ := hl.bytes hterm
  have hlen := hl.len
  have hle := hl.le
  have hpos := skipCrlf_pos hdata
  have hskip := skipCrlf_le data
  have hpiece : p.copy false l data =
      ⟨p.bytes ++ data.take (Linebuf.copyLine l data).consumed,
          (Linebuf.copyLine l data).line.terminated⟩ := by
    simp [Piece.copy, copy, hwhole, hterm]
  rw [hpiece]
  by_cases hover : (bufDataSize : ℤ) - l.len - 1 < skipCrlf data
  · set full := l.buf ++ data.take ((bufDataSize : ℤ) - l.len - 1).toNat with hfull
    have hcopy : Linebuf.copyLine l data = ⟨{ l with
        raw := false, buf := (clearEol (skipCrlf data) full.reverse).reverse, terminated := true,
        len := bufDataSize - 1 }, bufDataSize - 1, skipCrlf data⟩ := by
      simp [Linebuf.copyLine, hterm, hover, hfull]
    have hroom : (clearEol (skipCrlf data) full.reverse).reverse.length = maxLine := by
      rw [length_reverse, length_clearEol, length_reverse, hfull, length_append, length_take]
      simp only [maxLine, bufDataSize] at hle hover ⊢
      omega
    rw [hcopy]
    refine ⟨⟨?_, hroom.le, by simp, fun _ => ⟨rfl, ?_⟩⟩, ?_, hpos⟩
    · rw [hroom]
      rfl
    · rw [hroom, ← hbuf, length_append, length_take, min_eq_left hskip]
      simp only [maxLine, bufDataSize] at hle hover ⊢
      omega
    · rw [excessOf, if_pos ⟨hterm, hover⟩]
      dsimp only
      omega
  · have hne : data.take (skipCrlf data) ≠ [] := by
      intro hnil
      have hzero := congrArg length hnil
      rw [length_take, length_nil] at hzero
      omega
    have hlast : (l.buf ++ data.take (skipCrlf data)).getLast? =
        some ((data.take (skipCrlf data)).getLast hne) := by
      rw [getLast?_append_of_ne_nil _ hne, getLast?_eq_some_getLast hne]
    have htake : (data.take (skipCrlf data)).length = skipCrlf data := by
      rw [length_take, min_eq_left hskip]
    by_cases hcrlf : isCrlf ((data.take (skipCrlf data)).getLast hne) = true
    · set text := (data.take (skipCrlf data)).rdropWhile isCrlf with htext
      have hcopy : Linebuf.copyLine l data = ⟨{ l with
          raw := false, buf := l.buf ++ text, terminated := true, len := l.len + text.length },
            text.length,
          skipCrlf data⟩ := by
        simp [Linebuf.copyLine, hterm, hover, hlast, hcrlf, htext]
      have hshort : text.length < skipCrlf data := by
        have hlast := rdropWhile_concat_pos isCrlf (data.take (skipCrlf data)).dropLast _ hcrlf
        rw [dropLast_append_getLast] at hlast
        have hdrop :=
          (List.rdropWhile_prefix isCrlf (l := (data.take (skipCrlf data)).dropLast)).length_le
        rw [← hlast, ← htext, length_dropLast, htake] at hdrop
        omega
      rw [hcopy]
      have hroom : (l.buf ++ text).length = l.buf.length + text.length := length_append
      refine ⟨⟨?_, ?_, by simp, fun _ => ⟨rfl, ?_⟩⟩, ?_, hpos⟩
      · rw [hroom, hlen]
        push_cast
        rfl
      · rw [hroom]
        simp only [maxLine, bufDataSize] at hover ⊢
        omega
      · rw [hroom, ← hbuf, length_append, htake]
        omega
      · rw [excessOf, if_neg fun h => hover h.2]
        dsimp only
        omega
    · have hcopy : Linebuf.copyLine l data = ⟨{ l with
          raw := false, buf := l.buf ++ data.take (skipCrlf data), terminated := false, len :=
            l.len + skipCrlf data },
          skipCrlf data, skipCrlf data⟩ := by
        simp [Linebuf.copyLine, hterm, hover, hlast, hcrlf]
      rw [hcopy]
      have hroom : (l.buf ++ data.take (skipCrlf data)).length = l.buf.length + skipCrlf data := by
        rw [length_append, htake]
      refine ⟨⟨?_, ?_, fun _ => by rw [hbuf], by simp⟩, ?_, hpos⟩
      · rw [hroom, hlen]
        push_cast
        rfl
      · rw [hroom]
        simp only [maxLine, bufDataSize] at hover ⊢
        omega
      · rw [excessOf, if_neg fun h => hover h.2]
        dsimp only
        omega

end Lines

/-! ### The record of the queue -/

/-- The bytes in the lines that wait. -/
def Link.bytes (s : Link) : List UInt8 := s.pieces.flatMap (·.bytes)

/-- The lines have their pieces, and the length of the queue is that of its lines with the bytes
that were counted twice. -/
structure Tracks (h : ℕ) (s : Link) : Prop where
  nodup : (s.w.head h).list.Nodup
  lt_fresh : ∀ a ∈ (s.w.head h).list, a < s.w.fresh
  lines : Forall₂ Kept (s.w.queue h) s.pieces
  len : (s.w.head h).len = ((s.w.queue h).map (·.len)).sum + s.excess

/-- Something was received into every line. -/
def Link.Filled (s : Link) : Prop := ∀ p ∈ s.pieces, p.bytes ≠ []

section Queue

variable {h : ℕ} {s : Link} {a : ℕ} {raw : Bool} {data : List UInt8}

theorem forall₂_concat {α β : Type*} {R : α → β → Prop} {xs : List α} {x : α} {ys : List β}
    (hR : Forall₂ R (xs ++ [x]) ys) : ∃ zs z, ys = zs ++ [z] ∧ Forall₂ R xs zs ∧ R x z := by
  have hrev := forall₂_reverse_iff.mpr hR
  rw [reverse_append, reverse_singleton, singleton_append] at hrev
  obtain ⟨z, zs, hxz, hzs, heq⟩ := forall₂_cons_left_iff.mp hrev
  refine ⟨zs.reverse, z, ?_, ?_, hxz⟩
  · rw [← reverse_reverse ys, heq, reverse_cons]
  · rw [← forall₂_reverse_iff, reverse_reverse]
    exact hzs

theorem Kept.copy {l : BufLine} {p : Piece} (hl : Kept l p) (hdata : data ≠ []) (raw : Bool) :
    Kept (copy raw l data).line (p.copy raw l data) ∧
      (copy raw l data).added = (copy raw l data).line.len - l.len + excessOf l data ∧
      (l.terminated = false → l.len = 0 → 0 < (copy raw l data).consumed) := by
  cases hterm : l.terminated with
  | true =>
    obtain ⟨hkept, -, hadded⟩ := hl.copy_terminated hterm raw
    exact ⟨hkept, hadded, by simp⟩
  | false =>
    cases raw with
    | true =>
      obtain ⟨hkept, hadded, hpos⟩ := hl.copyRaw hterm hdata
      exact ⟨hkept, hadded, fun _ => hpos⟩
    | false =>
      obtain ⟨hkept, hadded, hpos⟩ := hl.copyLine hterm hdata
      exact ⟨hkept, hadded, fun _ _ => hpos⟩

section

variable (hs : Tracks h s)
include hs

/-- **A copy** into the last line keeps the record. -/
theorem Tracks.copyInto (ha : (s.w.head h).list.getLast? = some a) (hdata : data ≠ [])
    (raw : Bool) :
    ∃ ps p, s.pieces = ps ++ [p] ∧ (s.copyInto h a raw data).1.pieces = ps ++
      [p.copy raw (s.w.line a) data] ∧ (s.copyInto h a raw data).2 =
      (copy raw (s.w.line a) data).consumed ∧ (p.copy raw (s.w.line a) data).bytes = p.bytes ++
      data.take (s.copyInto h a raw data).2 ∧
      ((s.w.line a).terminated = false → (s.w.line a).len = 0 → 0 < (s.copyInto h a raw data).2) ∧
      Tracks h (s.copyInto h a raw data).1 := by
  obtain ⟨ids, hlist⟩ := getLast?_eq_some_iff.mp ha
  have hq : s.w.queue h = ids.map s.w.line ++ [s.w.line a] := by
    rw [World.queue, hlist, map_append]; rfl
  have hlines := hs.lines
  rw [hq] at hlines
  obtain ⟨ps, p, hpieces, hinit, hlast⟩ := forall₂_concat hlines
  obtain ⟨hkept, hadded, hpos⟩ := hlast.copy hdata raw
  have hnew : (s.copyInto h a raw data).1.pieces = ps ++ [p.copy raw (s.w.line a) data] := by
    rw [← modifyLast_concat, ← hpieces]
    rfl
  have hqueue := queue_copyInto raw data hlist hs.nodup
  refine ⟨ps, p, hpieces, hnew, rfl, rfl, hpos, ?_, ?_, ?_, ?_⟩
  · exact (list_copyInto a raw data).symm ▸ hs.nodup
  · exact (list_copyInto a raw data).symm ▸ hs.lt_fresh
  · rw [hnew]
    change Forall₂ Kept ((Linebuf.copyInto s.w h a raw data).1.queue h) _
    rw [hqueue]
    exact rel_append hinit (.cons hkept .nil)
  · have hlen := hs.len
    have hafter : ((s.copyInto h a raw data).1.w.head h).len =
        (s.w.head h).len + (Linebuf.copy raw (s.w.line a) data).added := by
      change ((Linebuf.copyInto s.w h a raw data).1.head h).len = _
      rw [Linebuf.copyInto, World.head_setHead_self]
    rw [hafter, hlen, hq]
    change _ = (((Linebuf.copyInto s.w h a raw data).1.queue h).map _).sum +
      (s.excess + excessOf (s.w.line a) data)
    rw [hqueue, map_append, sum_append, map_append, sum_append, hadded]
    simp only [map_cons, map_nil, sum_cons, sum_nil]
    omega

theorem Tracks.newLine : Tracks h (s.newLine h).1 ∧
    ((s.newLine h).1.w.head h).list.getLast? = some (s.newLine h).2 ∧
    (s.newLine h).1.w.line (s.newLine h).2 = BufLine.fresh := by
  have hfresh : s.w.fresh ∉ (s.w.head h).list := fun hmem => lt_irrefl _ (hs.lt_fresh _ hmem)
  have hlist : ((s.newLine h).1.w.head h).list = (s.w.head h).list ++ [s.w.fresh] := by
    simp [Link.newLine, Linebuf.newLine]
  have hqueue : (s.newLine h).1.w.queue h = s.w.queue h ++ [BufLine.fresh] := queue_newLine hfresh
  refine ⟨⟨?_, ?_, ?_, ?_⟩, ?_, Function.update_self ..⟩
  · rw [hlist]
    exact hs.nodup.append (nodup_singleton _) (by simpa using hfresh)
  · rw [hlist]
    intro b hb
    obtain hb | hb := mem_append.mp hb
    · exact (hs.lt_fresh b hb).trans (Nat.lt_succ_self _)
    · exact mem_singleton.mp hb ▸ Nat.lt_succ_self _
  · rw [hqueue]
    exact rel_append hs.lines (.cons kept_fresh .nil)
  · have hsame : ((s.newLine h).1.w.head h).len = (s.w.head h).len := by
      simp [Link.newLine, Linebuf.newLine]
    rw [hsame, hs.len, hqueue, map_append, sum_append]
    change _ = _ + (0 + 0) + s.excess
    omega
  · rw [hlist, getLast?_append_of_ne_nil _ (by simp)]
    rfl

/-- **The rest of a chunk** goes into new lines. -/
theorem Tracks.parseLoop (hfilled : s.Filled) {n : ℕ} (hn : data.length ≤ n) (raw : Bool) :
    Tracks h (Link.parseLoop h n s raw data) ∧ (Link.parseLoop h n s raw data).Filled ∧
      (Link.parseLoop h n s raw data).bytes = s.bytes ++ data := by
  induction n generalizing s data with
  | zero =>
    obtain rfl : data = [] := eq_nil_of_length_eq_zero (by omega)
    exact ⟨hs, hfilled, (append_nil _).symm⟩
  | succ n ih =>
    rw [Link.parseLoop]
    split_ifs with hdata
    · exact ⟨hs, hfilled, by rw [hdata, append_nil]⟩
    · obtain ⟨hnew, hlast, hline⟩ := hs.newLine
      obtain ⟨ps, p, hpieces, hpieces', -, hbytes, hpos, hcopied⟩ := hnew.copyInto hlast hdata raw
      obtain ⟨rfl, hp⟩ : ps = s.pieces ∧ p = ⟨[], false⟩ := by
        obtain ⟨hps, hp⟩ := append_inj' (hpieces.symm : ps ++ [p] = s.pieces ++ [⟨[], false⟩]) rfl
        exact ⟨hps, cons.inj hp |>.1⟩
      have hpos := hpos (by rw [hline]; rfl) (by rw [hline]; rfl)
      rw [hp, nil_append] at hbytes
      set c := (s.newLine h).1.copyInto h (s.newLine h).2 raw data with hc
      have hfilled' : c.1.Filled := by
        intro q hq
        rw [hpieces'] at hq
        obtain hq | hq := mem_append.mp hq
        · exact hfilled q hq
        · rw [mem_singleton.mp hq, hp, hbytes]
          intro hnil
          obtain hzero | hnil := take_eq_nil_iff.mp hnil
          · omega
          · exact hdata hnil
      have hrest : (data.drop c.2).length ≤ n := by
        rw [length_drop]
        omega
      obtain ⟨htracks, hfull, hall⟩ := ih hcopied hfilled' hrest
      refine ⟨htracks, hfull, hall.trans ?_⟩
      have hcbytes : c.1.bytes = s.bytes ++ data.take c.2 := by
        rw [Link.bytes, hpieces', flatMap_append, hp, flatMap_singleton, hbytes, Link.bytes]
      rw [hcbytes, append_assoc, take_append_drop]

/-- **A chunk** is received into the lines. -/
theorem Tracks.parse (hfilled : s.Filled) (hdata : data ≠ []) (raw : Bool) :
    Tracks h (s.parse h raw data) ∧ (s.parse h raw data).Filled ∧ (s.parse h raw data).bytes =
    s.bytes ++ data := by
  rw [Link.parse]
  cases hlast : (s.w.head h).list.getLast? with
  | none => exact hs.parseLoop hfilled le_rfl raw
  | some a =>
    obtain ⟨ps, p, hpieces, hpieces', -, hbytes, -, hcopied⟩ := hs.copyInto hlast hdata raw
    dsimp only
    set c := s.copyInto h a raw data with hc
    have hfilled' : c.1.Filled := by
      intro q hq
      rw [hpieces'] at hq
      obtain hq | hq := mem_append.mp hq
      · exact hfilled q (hpieces ▸ mem_append_left _ hq)
      · rw [mem_singleton.mp hq, hbytes]
        exact append_ne_nil_of_left_ne_nil (hfilled p (hpieces ▸ by simp)) _
    have hcbytes : c.1.bytes = s.bytes ++ data.take c.2 := by
      rw [Link.bytes, hpieces', flatMap_append, flatMap_singleton, hbytes, Link.bytes, hpieces,
        flatMap_append, flatMap_singleton, append_assoc]
    split_ifs with hall
    · rw [hcbytes, hall, take_length]
      exact ⟨hcopied, hfilled', rfl⟩
    · have hrest : (data.drop c.2).length ≤ data.length := by
        rw [length_drop]
        omega
      obtain ⟨htracks, hfull, hbytes'⟩ := hcopied.parseLoop hfilled' hrest raw
      refine ⟨htracks, hfull, hbytes'.trans ?_⟩
      rw [hcbytes, append_assoc, take_append_drop]

/-- **A line** is taken off with its piece. -/
theorem Tracks.get : Tracks h (s.get h) ∧
    ((s.get h).pieces = s.pieces ∧ (s.get h).taken = s.taken ∨
      ∃ p, s.pieces = p :: (s.get h).pieces ∧ (s.get h).taken = s.taken ++ p.bytes) := by
  rw [Link.get]
  cases hlist : (s.w.head h).list with
  | nil =>
    have hq : s.w.queue h = [] := by rw [World.queue, hlist, map_nil]
    have hget : Linebuf.get s.w h readbufSize false false = (s.w, []) := by rw [Linebuf.get, hlist]
    rw [if_neg (by rw [hq]; simp), hget]
    exact ⟨hs, .inl ⟨rfl, rfl⟩⟩
  | cons a rest =>
    have hq : s.w.queue h = s.w.line a :: rest.map s.w.line := by rw [World.queue, hlist, map_cons]
    cases hterm : (s.w.line a).terminated with
    | false =>
      have hget : Linebuf.get s.w h readbufSize false false = (s.w, []) := by
        simp [Linebuf.get, hlist, hterm]
      rw [if_neg (by rw [hq]; simp [hterm]), hget]
      exact ⟨hs, .inl ⟨rfl, rfl⟩⟩
    | true =>
      have hget : (Linebuf.get s.w h readbufSize false false).1 =
        doneLine s.w h := by simp [Linebuf.get, hlist, hterm]
      have hnodup := hs.nodup
      have hlt := hs.lt_fresh
      rw [hlist] at hnodup hlt
      obtain ⟨hlist', hfresh', hqueue'⟩ := queue_doneLine hlist (nodup_cons.mp hnodup).1
      have hlines := hs.lines
      rw [hq] at hlines
      obtain ⟨p, ps, -, hrest, hpieces⟩ := forall₂_cons_left_iff.mp hlines
      rw [if_pos (by rw [hq]; simp [hterm]), hget, hpieces]
      refine ⟨⟨hlist' ▸ (nodup_cons.mp hnodup).2, ?_, hqueue' ▸ hrest, ?_⟩, .inr ⟨p, rfl, ?_⟩⟩
      · dsimp only
        rw [hlist', hfresh']
        exact fun b hb => hlt b (mem_cons_of_mem a hb)
      · have hlen : ((doneLine s.w h).head h).len = (s.w.head h).len - (s.w.line a).len := by
          unfold doneLine
          simp only [hlist]
          split_ifs <;> simp
        dsimp only
        rw [hlen, hqueue', hs.len, hq, map_cons, sum_cons]
        omega
      · simp

end

end Queue

/-! ### Runs -/

/-- The record, and what was received was taken or waits. -/
structure Sound (h : ℕ) (s : Link) : Prop where
  tracks : Tracks h s
  filled : s.Filled
  received : s.received = s.taken ++ s.bytes

theorem sound_start (h : ℕ) : Sound h Link.start where
  tracks := ⟨nodup_nil, by simp [Link.start, World.init, BufHead.empty], .nil, rfl⟩
  filled := by simp [Link.start, Link.Filled]
  received := rfl

theorem Sound.serve {h : ℕ} {s : Link} (hs : Sound h s) (call : Call) :
    Sound h (serve h s call) := by
  cases call with
  | parse raw data =>
    rw [Zlib.serve]
    split_ifs with hdata
    · exact hs
    · obtain ⟨htracks, hfilled, hbytes⟩ := hs.tracks.parse hs.filled hdata raw
      refine ⟨⟨htracks.nodup, htracks.lt_fresh, htracks.lines, htracks.len⟩, hfilled, ?_⟩
      change s.received ++ data = (s.parse h raw data).taken ++ (s.parse h raw data).bytes
      rw [(Link.parse_w h s raw data).2, hbytes, hs.received, append_assoc]
  | get =>
    have hreceived : (s.get h).received = s.received := by
      rw [Link.get]
      split_ifs
      · rfl
      · rfl
    obtain ⟨htracks, ⟨hpieces, htaken⟩ | ⟨p, hpieces, htaken⟩⟩ := hs.tracks.get
    · refine ⟨htracks, fun q hq => hs.filled q (hpieces ▸ hq), ?_⟩
      rw [Zlib.serve, hreceived, htaken, Link.bytes, hpieces]
      exact hs.received
    · refine ⟨htracks, fun q hq => hs.filled q (hpieces ▸ mem_cons_of_mem p hq), ?_⟩
      rw [Zlib.serve, hreceived, htaken, hs.received, Link.bytes, Link.bytes, hpieces, flatMap_cons,
        append_assoc]

/-- In every run, the record is right. -/
theorem sound_run (h : ℕ) (calls : List Call) : Sound h (calls.foldl (serve h) Link.start) :=
  foldlRecOn calls (serve h) (sound_start h) fun _ hs call _ => hs.serve call

theorem Sound.waiting_eq {h : ℕ} {s : Link} (hs : Sound h s) : s.waiting = s.bytes := by
  rw [Link.waiting, hs.received, drop_left]

/-! ### Copying the lines -/

/-- The loop on the lines of the queue. -/
def copies : ℕ → List BufLine → Option (List UInt8)
  | _, [] => some []
  | left, l :: ls =>
    if left = 0 ∧ 0 < l.len then none
    else
      let bytes := getBytes l left true
      if bytes = [] then some [] else (copies (left - bytes.length) ls).map (bytes ++ ·)

theorem copyLoop_eq {h n : ℕ} {w : World} (hnodup : (w.head h).list.Nodup)
    (hn : (w.head h).list.length < n) (left : ℕ) (copied : List UInt8) :
    copyLoop h n w left copied = (copies left (w.queue h)).map (copied ++ ·) := by
  induction n generalizing w left copied with
  | zero => omega
  | succ n ih =>
    rw [copyLoop]
    cases hlist : (w.head h).list with
    | nil => simp [World.queue, hlist, copies]
    | cons a rest =>
      rw [hlist] at hnodup hn
      have hq : w.queue h = w.line a :: rest.map w.line := by rw [World.queue, hlist, map_cons]
      obtain ⟨hlist', -, hqueue'⟩ := queue_doneLine hlist (nodup_cons.mp hnodup).1
      have hget : Linebuf.get w h left true true = (doneLine w h,
          getBytes (w.line a) left true) := by
        simp [Linebuf.get, hlist]
      rw [hq, copies, hget]
      dsimp only
      split_ifs with hzero hbytes
      · rfl
      · simp
      · rw [ih (hlist' ▸ (List.nodup_cons.mp hnodup).2) (by rw [hlist']; simpa using hn), hqueue',
          Option.map_map]
        congr 1
        funext bytes
        rw [Function.comp_apply, append_assoc]

theorem getBytes_raw {l : BufLine} (hlen : l.len = l.buf.length) (left : ℕ) :
    getBytes l left true = if left < l.buf.length then l.buf.take (left - 1) else l.buf := by
  rw [getBytes, hlen]
  simp only [Bool.not_true, Bool.and_false, Bool.false_eq_true, ↓reduceIte, Int.ofNat_lt,
    Int.toNat_natCast]
  split_ifs
  · rfl
  · rw [take_length]

variable {ls : List BufLine}

section

variable (hls : ∀ l ∈ ls, l.len = l.buf.length)
include hls

/-- The loop fails when the room runs out in front of a line. -/
theorem copies_eq_none_iff (left : ℕ) :
    copies left ls = none ↔ Overruns left (ls.map (·.buf.length)) := by
  induction ls generalizing left with
  | nil => simp [copies, Overruns]
  | cons l ls ih =>
    obtain ⟨hl, hls⟩ := forall_mem_cons.mp hls
    rw [copies, getBytes_raw hl, map_cons, Overruns, hl]
    by_cases hzero : left = 0
    · subst hzero
      by_cases hlen : 0 < l.buf.length
      · simp [hlen]
      · obtain hnil : l.buf = [] := by simpa using hlen
        simp [hnil]
    · rw [if_neg fun h => hzero h.1]
      dsimp only
      by_cases hshort : left < l.buf.length
      · have hpos : 0 < l.buf.length := by omega
        rw [if_pos hshort, if_pos hshort]
        by_cases hone : left = 1
        · simp [hone]
        · have hbytes : (l.buf.take (left - 1)).length = left - 1 := by
            rw [length_take]
            omega
          have hne : l.buf.take (left - 1) ≠ [] := by
            intro hnil
            rw [hnil, length_nil] at hbytes
            omega
          rw [if_neg hne, map_eq_none_iff, hbytes, show left - (left - 1) = 1 by omega, ih hls]
          simp [hzero, hone, hpos]
      · rw [if_neg hshort, if_neg hshort]
        by_cases hnil : l.buf = []
        · simp [hnil]
        · rw [if_neg hnil, map_eq_none_iff, ih hls]
          simp [hzero, length_pos_iff.mpr hnil]

/-- The loop copies no more than there is, and no more than there is room for. -/
theorem length_copies {left : ℕ} {bytes : List UInt8} (h : copies left ls = some bytes) :
    bytes.length ≤ left ∧ bytes.length ≤ (ls.flatMap (·.buf)).length := by
  induction ls generalizing left bytes with
  | nil =>
    cases h
    simp
  | cons l ls ih =>
    obtain ⟨hl, hls⟩ := forall_mem_cons.mp hls
    rw [copies] at h
    dsimp only at h
    split_ifs at h with hzero hnil
    · cases h
      simp
    · obtain ⟨rest, hrest, rfl⟩ := map_eq_some_iff.mp h
      obtain ⟨hleft, hall⟩ := ih hls hrest
      have hbytes : (getBytes l left true).length ≤ left ∧ (getBytes l left true).length ≤
          l.buf.length := by
        rw [getBytes_raw hl]
        split_ifs
        · rw [length_take]
          omega
        · omega
      rw [flatMap_cons, length_append, length_append]
      omega

/-- **All lines are copied** when the room is what they take. -/
theorem copies_all (hne : ∀ l ∈ ls, l.buf ≠ []) :
    copies (ls.flatMap (·.buf)).length ls = some (ls.flatMap (·.buf)) := by
  induction ls with
  | nil => rfl
  | cons l ls ih =>
    obtain ⟨hl, hls⟩ := forall_mem_cons.mp hls
    obtain ⟨hnil, hne⟩ := forall_mem_cons.mp hne
    have hpos := length_pos_iff.mpr hnil
    have hlength : ((l :: ls).flatMap (·.buf)).length = l.buf.length +
        (ls.flatMap (·.buf)).length := by
      rw [flatMap_cons, length_append]
    have hroom : ¬(l.buf.length + (ls.flatMap (·.buf)).length = 0 ∧ 0 < l.len) := by omega
    have hlong : ¬l.buf.length + (ls.flatMap (·.buf)).length < l.buf.length := by omega
    rw [hlength, copies, if_neg hroom, getBytes_raw hl, if_neg hlong]
    dsimp only
    rw [if_neg hnil, Nat.add_sub_cancel_left, ih hls hne, map_some, flatMap_cons]

end

/-! ### The session -/

section Session

variable {h : ℕ} {s : Link} {ls : List BufLine} {ps : List Piece}

section

variable (hls : Forall₂ Kept ls ps)
include hls

/-- The lines are not longer than what was received into them, and shorter where one was
stripped. -/
theorem length_of_kept :
    (ls.flatMap (·.buf)).length ≤ (ps.flatMap (·.bytes)).length ∧
      ((ls.flatMap (·.buf)).length = (ps.flatMap (·.bytes)).length → ∀ p ∈ ps,
        p.stripped = false) := by
  induction hls with
  | nil => simp
  | cons hl _ ih =>
    rename_i l p ls ps _
    rw [flatMap_cons, flatMap_cons, length_append, length_append]
    cases hp : p.stripped with
    | false =>
      rw [hl.whole hp]
      refine ⟨by omega, fun heq => forall_mem_cons.mpr ⟨hp, ih.2 (by omega)⟩⟩
    | true =>
      have hlost := (hl.lost hp).2
      exact ⟨by omega, fun heq => absurd heq (by omega)⟩

theorem flatMap_of_kept
    (hps : ∀ p ∈ ps, p.stripped = false) : ls.flatMap (·.buf) = ps.flatMap (·.bytes) := by
  induction hls with
  | nil => rfl
  | cons hl _ ih =>
    obtain ⟨hp, hps⟩ := forall_mem_cons.mp hps
    rw [flatMap_cons, flatMap_cons, hl.whole hp, ih hps]

theorem sum_len_of_kept :
    (ls.map (·.len)).sum = ((ls.flatMap (·.buf)).length : ℤ) ∧ ∀ l ∈ ls, l.len = l.buf.length := by
  induction hls with
  | nil => simp
  | cons hl _ ih =>
    refine ⟨?_, forall_mem_cons.mpr ⟨hl.len, ih.2⟩⟩
    rw [map_cons, sum_cons, flatMap_cons, length_append, hl.len, ih.1]
    push_cast
    rfl

/-- Something is in every line, where none was stripped. -/
theorem ne_nil_of_kept (hps : ∀ p ∈ ps, p.stripped = false) (hfilled : ∀ p ∈ ps, p.bytes ≠ []) :
    ∀ l ∈ ls, l.buf ≠ [] := by
  induction hls with
  | nil => simp
  | cons hl _ ih =>
    obtain ⟨hp, hps⟩ := forall_mem_cons.mp hps
    obtain ⟨hne, hfilled⟩ := forall_mem_cons.mp hfilled
    exact forall_mem_cons.mpr ⟨hl.whole hp ▸ hne, ih hps hfilled⟩

end

/-- A message is right when everything was written that waits, and nothing else. -/
theorem message_eq_iff {header copied waiting : List UInt8} {n : ℕ} (hn : copied.length ≤ n) :
    (header ++ copied).map some ++ replicate (n - copied.length) none =
      (header ++ waiting).map some ↔ copied = waiting ∧ n = copied.length := by
  constructor
  · intro heq
    rw [map_append, map_append, append_assoc, append_cancel_left_eq] at heq
    have hzero : n - copied.length = 0 := by
      by_contra hpos
      have hmem : (none : Option UInt8) ∈ waiting.map some := by
        rw [← heq]
        exact mem_append_right _ (mem_replicate.mpr ⟨hpos, rfl⟩)
      simp at hmem
    rw [hzero, replicate_zero, append_nil] at heq
    exact ⟨map_injective_iff.mpr (some_injective _) heq, by omega⟩
  · rintro ⟨rfl, rfl⟩
    rw [Nat.sub_self, replicate_zero, append_nil]

/-- **What is handed over**: the link is closed, or the helper gets what waits, exactly when the
condition is met. -/
theorem Sound.right_iff (hs : Sound h s) (env : Env) : Right h env s ↔ Meets h env s := by
  obtain ⟨hsum, hlens⟩ := sum_len_of_kept hs.tracks.lines
  have hlen : (s.w.head h).len = (((s.w.queue h).flatMap (·.buf)).length : ℤ) + s.excess :=
    hsum ▸ hs.tracks.len
  have hloop := copyLoop_eq hs.tracks.nodup (Nat.lt_succ_self _) (recvqlen h s.w) []
  rw [Right, startZlibSession, Meets]
  by_cases hlong : readbufSize < recvqlen h s.w + hdr
  · simp [hlong]
  rw [if_neg hlong, hloop, Option.map_map, or_iff_right hlong]
  cases hpair : env.pair with
  | false =>
    -- The link is closed unless the loop fails.
    rw [← copies_eq_none_iff hlens]
    cases copies (recvqlen h s.w) (s.w.queue h) with
    | none => simp
    | some copied => simp
  | true =>
    cases hssld : env.ssld with
    | false =>
      cases copies (recvqlen h s.w) (s.w.queue h) with
      | none => simp
      | some copied => simp
    | true =>
      have hwaiting : s.waiting = s.pieces.flatMap (·.bytes) := hs.waiting_eq
      have hfits : (recvqlen h s.w : ℤ) = (s.w.head h).len % 65536 ∧
        recvqlen h s.w + hdr ≤ readbufSize :=
        ⟨Int.toNat_of_nonneg (Int.emod_nonneg _ (by decide)), not_lt.mp hlong⟩
      simp only [hdr, readbufSize] at hfits ⊢
      simp only [Bool.true_eq_false, ↓reduceIte, false_and, false_or, true_and,
        Option.map_eq_some_iff,
        Function.comp_apply, List.nil_append, reduceCtorEq, and_false, exists_false,
          Outcome.sent.injEq]
      constructor
      · rintro ⟨copied, hcopied, hmessage⟩
        obtain ⟨hroom, hall⟩ := length_copies hlens hcopied
        obtain ⟨rfl, hn⟩ := (message_eq_iff hroom).mp hmessage
        obtain ⟨hle, hwhole⟩ := length_of_kept hs.tracks.lines
        rw [← hwaiting] at hle hwhole
        exact ⟨by omega, by omega, hwhole (by omega)⟩
      · rintro ⟨hle, hexcess, hwhole⟩
        have hbufs := flatMap_of_kept hs.tracks.lines hwhole
        rw [← hwaiting] at hbufs
        rw [hbufs] at hlen
        have hn : recvqlen h s.w = s.waiting.length := by omega
        have hall := copies_all hlens (ne_nil_of_kept hs.tracks.lines hwhole hs.filled)
        rw [hbufs, ← hn] at hall
        exact ⟨s.waiting, hall, (message_eq_iff hn.ge).mpr ⟨rfl, hn⟩⟩

end Session

/-- **What is handed over**, after every sequence of chunks and of lines that are taken off: the
link is closed, or the helper gets the header and exactly what was received and not taken off, if
and only if the condition is met. -/
theorem start_zlib_session_iff (h : ℕ) (calls : List Call) (env : Env) :
    Right h env (calls.foldl (serve h) Link.start) ↔
    Meets h env (calls.foldl (serve h) Link.start) :=
  (sound_run h calls).right_iff env

/-- A line of 511 bytes and its CR/LF come in two chunks, and are taken off. -/
def overlong : List Call :=
  [.parse true [97], .parse true (replicate 510 98 ++ [13, 10]), .get, .get]

/-- A helper at level 6. -/
def someEnv : Env := ⟨⟨[0, 0, 0, 7], rfl⟩, 6, true, true⟩

/-- No byte waits then, and a byte that was not written is sent. -/
theorem uninitialised_byte : (overlong.foldl (serve 0) Link.start).waiting = [] ∧
    startZlibSession 0 someEnv (overlong.foldl (serve 0) Link.start).w =
      some (.sent (someEnv.header.map some ++ [none])) ∧
    ¬Right 0 someEnv (overlong.foldl (serve 0) Link.start) := by
  have hwaiting : (overlong.foldl (serve 0) Link.start).waiting = [] := by decide +kernel
  have hsent : startZlibSession 0 someEnv (overlong.foldl (serve 0) Link.start).w =
      some (.sent (someEnv.header.map some ++ [none])) := by decide +kernel
  refine ⟨hwaiting, hsent, ?_⟩
  rw [Right, hsent, hwaiting]
  decide

end Ratbox.Zlib
