import Ratbox.Linebuf.Basic
import Ratbox.Lib.LineReader
import Mathlib.Data.List.Nodup

/-!
# Reading lines from a connection

A connection's receive queue is filled by `rb_linebuf_parse` and emptied by `rb_linebuf_get`. With
`raw` unset the queue is a forgetful line reader (`Ratbox.LineReader`) of `BUF_DATA_SIZE - 1` bytes:
what the calls deliver is what the reader gives on the received chunks, up to empty lines
(`Linebuf.filterMap_delivered`). Two results follow. As long as every line fits, the delivered lines
are the lines of the stream however it is cut into chunks (`Linebuf.delivered_eq_lines`). When lines
overflow, what is delivered depends on the chunks: the excess of a line is dropped only up to the
end of the chunk that overflows (`Linebuf.delivered_eq_cutLines_iff`).

Source: `libratbox/src/linebuf.c`, lines 133–155, 206–270 and 350–470.

## Main definitions

* `Linebuf.ReadOp`, `Linebuf.runReads`, `Linebuf.delivered`: a run of calls on a receive queue.
* `Linebuf.cstr`: the C string in a buffer.
* `Linebuf.LinesFit`: no line overflows.
* `Linebuf.Reads`: the queue holds what a reader has given and keeps open.

## Main results

* `Linebuf.copyLine_run`: what one copy does with the first line of a chunk.
* `Linebuf.Reads.run`, `Linebuf.filterMap_delivered`: the queue is a forgetful reader.
* `Linebuf.delivered_eq_lines`, `Linebuf.delivered_eq_cutLines_iff`.
-/

namespace Ratbox.Linebuf

open LineReader List Function Linebuf

/-- The bytes a line can hold. -/
abbrev maxLine : ℕ := bufDataSize - 1

/-! ### Copying one line -/

variable {n h a buflen : ℕ} {p : List UInt8} {l : BufLine} {tight : Prop} {w : World}
  {given : List (List UInt8)} {done opn : List BufLine} {view : List UInt8 → Option (List UInt8)}

/-- The overflow branch clears the CR/LF bytes at the end of the buffer and stops at the text. -/
theorem clearEol_append {e t : List UInt8} (he : ∀ b ∈ e, isCrlf b = true)
    (hn : e.length ≤ n) (ht : ∀ b ∈ t, isCrlf b = false) :
    clearEol n (e ++ t) = replicate e.length 0 ++ t := by
  induction e generalizing n with
  | nil =>
    rcases n with _ | n
    · rfl
    · rcases t with _ | ⟨b, t⟩
      · rfl
      · simp [clearEol, ht b mem_cons_self]
  | cons b e ih =>
    obtain ⟨n, rfl⟩ : ∃ m, n = m + 1 := ⟨n - 1, by simp at hn; omega⟩
    have hb : isCrlf b = true := he b mem_cons_self
    rw [cons_append, clearEol, if_pos hb,
      ih (fun c hc => he c (mem_cons_of_mem b hc)) (by simpa using hn)]
    simp [replicate_succ]

/-- A line that waits for more bytes, of which `p` have arrived. -/
structure IsOpen (l : BufLine) (p : List UInt8) : Prop where
  terminated : l.terminated = false
  buf : l.buf = p
  len : l.len = p.length
  le : p.length ≤ maxLine
  text : ∀ b ∈ p, isCrlf b = false

/-- A line ready to be taken, with the content `q`. Only when `tight` fails may NULs follow the
content: they stand where the overflow branch found CR/LF bytes. -/
structure Holds (tight : Prop) (l : BufLine) (q : List UInt8) : Prop where
  terminated : l.terminated = true
  raw : l.raw = false
  len : l.len = l.buf.length
  le : l.buf.length ≤ maxLine
  buf : ∃ k, (tight → k = 0) ∧ l.buf = q ++ replicate k 0

theorem isOpen_fresh : IsOpen BufLine.fresh [] where
  terminated := rfl
  buf := rfl
  len := rfl
  le := Nat.zero_le _
  text := by simp

/-- The last byte after the copy is one of the run. -/
private theorem getLast?_run (p text : List UInt8) {eol : List UInt8} (hne : eol ≠ []) :
    ∃ b ∈ eol, (p ++ (text ++ eol)).getLast? = some b := by
  obtain ⟨init, b, rfl⟩ : ∃ init b, eol = init ++ [b] :=
    ⟨_, _, (dropLast_append_getLast hne).symm⟩
  exact ⟨b, by simp, by simp⟩

/-- The buffer after an overflow: the text and, when it is short, part of the run. -/
private theorem append_take_run {text eol rest : List UInt8} (hp : p.length ≤ n)
    (hn : n ≤ p.length + (text.length + eol.length)) :
    p ++ (text ++ (eol ++ rest)).take (n - p.length) =
      (p ++ text).take n ++ eol.take (n - (p ++ text).length) := by
  have hle : n - (p ++ text).length ≤ eol.length := by simp; omega
  calc p ++ (text ++ (eol ++ rest)).take (n - p.length)
      = (p ++ (text ++ (eol ++ rest))).take n := by
        conv_rhs => rw [take_append, take_of_length_le hp]
    _ = (p ++ text).take n ++ (eol ++ rest).take (n - (p ++ text).length) := by
        rw [← append_assoc, take_append]
    _ = (p ++ text).take n ++ eol.take (n - (p ++ text).length) := by
        rw [take_append_of_le_length hle]

/-- **One copy.** The text and the run of CR/LF at the start of a chunk are used up. Without a
run, and as long as the text fits, the line stays open; otherwise it is ready, with the text cut
to what fits. -/
theorem copyLine_run {text eol rest : List UInt8} (hl : IsOpen l p)
    (ht : ∀ b ∈ text, isCrlf b = false) (he : ∀ b ∈ eol, isCrlf b = true)
    (hskip : skipCrlf (text ++ (eol ++ rest)) = text.length + eol.length) (tight : Prop)
    (hfit : tight → p.length + (text.length + eol.length) ≤ maxLine) :
    (copyLine l (text ++ (eol ++ rest))).consumed = text.length + eol.length ∧
    if eol = [] ∧ p.length + text.length ≤ maxLine then
      IsOpen (copyLine l (text ++ (eol ++ rest))).line (p ++ text)
    else Holds tight (copyLine l (text ++ (eol ++ rest))).line ((p ++ text).take maxLine) := by
  have hpt : ∀ b ∈ p ++ text, isCrlf b = false := by
    intro b hb
    rcases mem_append.mp hb with hb | hb
    · exact hl.text b hb
    · exact ht b hb
  have hle := hl.le
  have hroom : (bufDataSize : ℤ) - l.len - 1 = ((maxLine - p.length : ℕ) : ℤ) := by
    rw [hl.len]; simp only [maxLine, bufDataSize] at hle ⊢; omega
  by_cases hover : maxLine < p.length + (text.length + eol.length)
  · -- overflow
    have hgt : ((text.length + eol.length : ℕ) : ℤ) > ((maxLine - p.length : ℕ) : ℤ) := by omega
    have hclear : (clearEol (text.length + eol.length) (p ++ (text ++ (eol ++ rest)).take
        (maxLine - p.length)).reverse).reverse = (p ++ text).take maxLine ++
          replicate (maxLine - (p ++ text).length) 0 := by
      have hlen : (eol.take (maxLine - (p ++ text).length)).length =
          maxLine - (p ++ text).length := by
        rw [length_take, length_append]; omega
      rw [append_take_run hle hover.le, reverse_append, clearEol_append]
      · rw [length_reverse, hlen, reverse_append, reverse_replicate,
          reverse_reverse]
      · exact fun b hb => he b (mem_of_mem_take (mem_reverse.mp hb))
      · rw [length_reverse, length_take]; omega
      · exact fun b hb => hpt b (mem_of_mem_take (mem_reverse.mp hb))
    have hcopy : copyLine l (text ++ (eol ++ rest)) =
        ⟨{ l with
            raw := false
            buf := (p ++ text).take maxLine ++ replicate (maxLine - (p ++ text).length) 0
            terminated := true
            len := bufDataSize - 1 }, bufDataSize - 1, text.length + eol.length⟩ := by
      simp only [copyLine, hl.terminated, Bool.false_eq_true, ↓reduceIte, hskip, hroom, hgt,
        Int.toNat_natCast, hl.buf, hclear]
    have hlen : ((p ++ text).take maxLine ++
        replicate (maxLine - (p ++ text).length) (0 : UInt8)).length = maxLine := by
      simp; omega
    refine ⟨by rw [hcopy], ?_⟩
    rw [if_neg (by rintro ⟨rfl, h⟩; simp at hover; omega), hcopy]
    exact ⟨rfl, rfl, by simp only [hlen]; rfl, hlen.le, _, fun h => by have := hfit h; omega, rfl⟩
  · have hgt : ¬ ((text.length + eol.length : ℕ) : ℤ) > ((maxLine - p.length : ℕ) : ℤ) := by omega
    have htake : (p ++ text).take maxLine = p ++ text :=
      take_of_length_le (by simp; omega)
    by_cases hne : eol = []
    · -- the line stays open
      subst hne
      have hfits : p.length + text.length ≤ maxLine := by simpa using hover
      have hcopy : copyLine l (text ++ ([] ++ rest)) =
          ⟨{ l with raw := false, buf := p ++ text, terminated := false,
                    len := l.len + text.length }, text.length, text.length⟩ := by
        have htaken : (text ++ ([] ++ rest)).take text.length = text := take_left
        simp only [length_nil, Nat.add_zero] at hskip hgt
        simp only [copyLine, hl.terminated, Bool.false_eq_true, ↓reduceIte, hskip, hroom, hgt,
          hl.buf, htaken]
        cases hlast : (p ++ text).getLast? with
        | none =>
          obtain ⟨rfl, rfl⟩ := append_eq_nil_iff.mp (getLast?_eq_none_iff.mp hlast)
          simp
        | some b =>
          simp [hpt b (mem_of_getLast? hlast)]
      refine ⟨by rw [hcopy]; rfl, ?_⟩
      rw [if_pos ⟨rfl, hfits⟩, hcopy]
      exact ⟨rfl, rfl, by simp [hl.len], by simpa using hfits, hpt⟩
    · -- the run ends the line
      obtain ⟨b, hb, hlast⟩ := getLast?_run p text hne
      have hcopy : copyLine l (text ++ (eol ++ rest)) =
          ⟨{ l with raw := false, buf := p ++ text, terminated := true,
                    len := l.len + text.length }, text.length, text.length + eol.length⟩ := by
        simp only [copyLine, hl.terminated, Bool.false_eq_true, ↓reduceIte, hskip, hroom, hgt,
          hl.buf, take_run, hlast, he b hb, rdropWhile_run ht he]
      refine ⟨by rw [hcopy], ?_⟩
      rw [if_neg (fun h => hne h.1), hcopy, htake]
      exact ⟨rfl, rfl, by simp [hl.len], by simp; omega, 0, fun _ => rfl, by simp⟩

/-! ### The queue of a reader -/

/-- The queue of `h` consists of lines ready to be taken, which hold `given` up to empty lines,
and the lines `opn` after them. -/
structure Front (tight : Prop) (w : World) (h : ℕ) (given : List (List UInt8))
    (opn : List BufLine) : Prop where
  nodup : (w.head h).list.Nodup
  lt_fresh : ∀ a ∈ (w.head h).list, a < w.fresh
  queue : ∃ done qs, w.queue h = done ++ opn ∧ Forall₂ (Holds tight) done qs ∧
    qs.filter (· ≠ []) = given.filter (· ≠ [])

/-- The queue of `h` holds `given`, and keeps `p` open unless it is empty. -/
def Reads (tight : Prop) (w : World) (h : ℕ) (p : List UInt8) (given : List (List UInt8)) : Prop :=
  (p = [] ∧ Front tight w h given []) ∨ (p ≠ [] ∧ ∃ l, IsOpen l p ∧ Front tight w h given [l])

/-- The addresses of a queue that ends in a given line. -/
theorem list_of_queue (hq : w.queue h = done ++ [l]) :
    ∃ ids a, (w.head h).list = ids ++ [a] ∧ ids.map w.line = done ∧ w.line a = l := by
  obtain ⟨ids, as, hlist, hids, has⟩ := map_eq_append_iff.mp hq
  obtain ⟨a, rfl, ha⟩ := map_eq_singleton_iff.mp has
  exact ⟨ids, a, hlist, hids, ha⟩

theorem queue_copyInto {ids : List ℕ} (raw : Bool) (data : List UInt8)
    (hlist : (w.head h).list = ids ++ [a]) (hnd : (w.head h).list.Nodup) :
    (copyInto w h a raw data).1.queue h =
      ids.map w.line ++ [(copy raw (w.line a) data).line] := by
  have ha : a ∉ ids := by
    rw [hlist] at hnd
    exact fun hmem => (nodup_append.mp hnd).2.2 a hmem a (by simp) rfl
  have hmap : ids.map (w.setLine a (copy raw (w.line a) data).line).line = ids.map w.line :=
    map_congr_left fun b hb => World.line_setLine_of_ne w _ fun hba => ha (hba ▸ hb)
  simp [copyInto, World.queue, World.head_setHead_self, World.line_setHead, hlist, hmap,
    World.line_setLine_self]

theorem list_copyInto (a : ℕ) (raw : Bool) (data : List UInt8) :
    ((copyInto w h a raw data).1.head h).list = (w.head h).list := by
  simp [copyInto]

theorem queue_newLine (hfresh : w.fresh ∉ (w.head h).list) :
    (newLine w h).1.queue h = w.queue h ++ [BufLine.fresh] := by
  have hmap : (w.head h).list.map (update w.line w.fresh BufLine.fresh) =
      (w.head h).list.map w.line := by
    refine map_congr_left fun b hb => update_of_ne ?_ _ _
    rintro rfl
    exact hfresh hb
  simp [World.queue, newLine, hmap]

/-- A new line is open and empty. -/
theorem Front.newLine (hw : Front tight w h given []) :
    Front tight (newLine w h).1 h given [BufLine.fresh] := by
  obtain ⟨done, qs, hq, hdone, hqs⟩ := hw.queue
  have hfresh : w.fresh ∉ (w.head h).list := fun hmem => lt_irrefl _ (hw.lt_fresh _ hmem)
  refine ⟨?_, ?_, done, qs, ?_, hdone, hqs⟩
  · simp only [Linebuf.newLine, update_self]
    exact hw.nodup.append (nodup_singleton _) (by simpa using hfresh)
  · simp only [Linebuf.newLine, update_self, mem_append, mem_singleton]
    rintro a (ha | rfl)
    · exact (hw.lt_fresh a ha).trans (Nat.lt_succ_self _)
    · exact Nat.lt_succ_self _
  · rw [queue_newLine hfresh, hq, append_nil]

/-- **Copying into the open line of a queue.** -/
theorem Front.copyInto {text eol rest : List UInt8}
    (hw : Front tight w h given [l]) (hl : IsOpen l p)
    (ht : ∀ b ∈ text, isCrlf b = false) (he : ∀ b ∈ eol, isCrlf b = true)
    (hskip : skipCrlf (text ++ (eol ++ rest)) = text.length + eol.length)
    (hfit : tight → p.length + (text.length + eol.length) ≤ maxLine)
    (ha : (w.head h).list.getLast? = some a) :
    (copyInto w h a false (text ++ (eol ++ rest))).2 = text.length + eol.length ∧
    if eol = [] ∧ p.length + text.length ≤ maxLine then
      ∃ l', IsOpen l' (p ++ text) ∧
        Front tight (copyInto w h a false (text ++ (eol ++ rest))).1 h given [l']
    else Front tight (copyInto w h a false (text ++ (eol ++ rest))).1 h
      (given ++ [(p ++ text).take maxLine]) [] := by
  obtain ⟨done, qs, hq, hdone, hqs⟩ := hw.queue
  obtain ⟨ids, a', hlist, hids, hal⟩ := list_of_queue hq
  obtain rfl : a' = a := by simpa [hlist] using ha
  obtain ⟨hcons, hline⟩ := copyLine_run hl ht he hskip tight hfit
  have hqueue := queue_copyInto false (text ++ (eol ++ rest)) hlist hw.nodup
  rw [hids, hal, show copy false l = copyLine l from rfl] at hqueue
  have hnd : ((Linebuf.copyInto w h a' false (text ++ (eol ++ rest))).1.head h).list.Nodup :=
    (list_copyInto ..).symm ▸ hw.nodup
  have hlt : ∀ b ∈ ((Linebuf.copyInto w h a' false (text ++ (eol ++ rest))).1.head h).list,
      b < (Linebuf.copyInto w h a' false (text ++ (eol ++ rest))).1.fresh :=
    (list_copyInto ..).symm ▸ hw.lt_fresh
  refine ⟨by simpa [Linebuf.copyInto, copy, hal] using hcons, ?_⟩
  split_ifs at hline ⊢ with hopen
  · exact ⟨_, hline, hnd, hlt, done, qs, hqueue, hdone, hqs⟩
  · refine ⟨hnd, hlt, _, qs ++ [(p ++ text).take maxLine], by simpa using hqueue, ?_, ?_⟩
    · exact rel_append hdone (Forall₂.cons hline .nil)
    · rw [filter_append, filter_append, hqs]

/-- Every infix of a stream that consists of a text and CR/LF bytes fits a line buffer: no line
with its terminator is longer than `BUF_DATA_SIZE - 1` bytes, the unterminated one at the end
included. -/
def LinesFit (s : List UInt8) : Prop :=
  ∀ text eol, text ++ eol <:+: s → (∀ b ∈ text, isCrlf b = false) →
    (∀ b ∈ eol, isCrlf b = true) → text.length + eol.length ≤ maxLine

theorem LinesFit.mono {s t : List UInt8} (hs : LinesFit s) (ht : t <:+: s) : LinesFit t :=
  fun text eol hte => hs text eol (hte.trans ht)

/-- The reader that the receive queue amounts to. -/
abbrev reader : Reader UInt8 → List UInt8 → Reader UInt8 × List (List UInt8) :=
  feed isCrlf maxLine

/-- The two outcomes of copying the chunk `data` into the line that keeps `p` open, when `n` bytes
are used up: the line is still open and the chunk is at its end, or the line is ready and the
reader starts afresh on the rest. -/
inductive CopyCase (tight : Prop) (w : World) (h : ℕ) (given : List (List UInt8))
    (p data : List UInt8) (n : ℕ) : Prop
  | opened (l : BufLine) (hl : IsOpen l (p ++ data)) (front : Front tight w h given [l])
      (hn : n = data.length) (hread : reader (.opened p) data = (.opened (p ++ data), []))
  | ended (q : List UInt8) (front : Front tight w h (given ++ [q]) []) (hn : n ≤ data.length)
      (hpos : data ≠ [] → 0 < n)
      (hstate : forget (reader (.opened p) data).1 = forget (reader (.opened []) (data.drop n)).1)
      (hread : (reader (.opened p) data).2.filter (· ≠ []) =
        (q :: (reader (.opened []) (data.drop n)).2).filter (· ≠ []))

theorem Front.copyCase (hw : Front tight w h given [l])
    (hl : IsOpen l p) (data : List UInt8) (hfit : tight → LinesFit (p ++ data))
    (ha : (w.head h).list.getLast? = some a) :
    CopyCase tight (Linebuf.copyInto w h a false data).1 h given p data
      (Linebuf.copyInto w h a false data).2 := by
  obtain ⟨text, eol, rest, rfl, ht, he, hskip, hrest⟩ := exists_run data
  have hfits : tight → p.length + (text.length + eol.length) ≤ maxLine := fun h => by
    have := hfit h (p ++ text) eol ⟨[], rest, by simp⟩
      (by simpa [or_imp, forall_and] using ⟨hl.text, ht⟩) he
    simpa [Nat.add_assoc] using this
  obtain ⟨hcons, hfront⟩ := hw.copyInto hl ht he hskip hfits ha
  have hdrop : (text ++ (eol ++ rest)).drop (text.length + eol.length) = rest := by
    rw [← append_assoc, ← length_append, drop_left]
  rw [hcons]
  split_ifs at hfront with hopen
  · obtain ⟨l', hl', hfront⟩ := hfront
    obtain ⟨rfl, hle⟩ := hopen
    obtain rfl := hrest rfl
    refine .opened l' (by simpa using hl') hfront (by simp) ?_
    rw [append_nil, append_nil, reader, feed_opened_text hl.le ht, if_pos hle]
  · obtain ⟨hstate, hread⟩ := feed_line_run hl.le ht he hrest hopen
    refine .ended _ hfront (by simp) (fun hne => ?_) (by rw [hdrop]; exact hstate)
      (by rw [hdrop]; exact hread)
    -- without text and run nothing is left
    by_contra hzero
    obtain ⟨h1, h2⟩ : text = [] ∧ eol = [] := by simpa using hzero
    exact hne (by simp [h1, h2, hrest h2])

/-- The loop of `rb_linebuf_parse` reads the rest of a chunk into new lines. -/
theorem Front.parseLoop (hw : Front tight w h given []) (data : List UInt8)
    (hn : data.length ≤ n) (hfit : tight → LinesFit data) (linecnt : ℕ) :
    ∃ p' given', Reads tight (parseLoop n w h false data linecnt).1 h p' given' ∧
      forget (reader (.opened []) data).1 = .opened p' ∧
      given'.filter (· ≠ []) = (given ++ (reader (.opened []) data).2).filter (· ≠ []) := by
  have hnil : ∀ w given, Front tight w h given [] → ∃ p' given', Reads tight w h p' given' ∧
      forget (reader (.opened []) []).1 = .opened p' ∧
      given'.filter (· ≠ []) = (given ++ (reader (.opened []) []).2).filter (· ≠ []) :=
    fun w given hw => ⟨[], given, Or.inl ⟨rfl, hw⟩, rfl, by simp [feed]⟩
  induction n generalizing w given data linecnt with
  | zero =>
    obtain rfl : data = [] := eq_nil_of_length_eq_zero (by omega)
    exact hnil w given hw
  | succ n ih =>
    by_cases hd : data = []
    · subst hd
      exact hnil w given hw
    · have ha : ((Linebuf.newLine w h).1.head h).list.getLast? = some (Linebuf.newLine w h).2 := by
        simp [Linebuf.newLine]
      rw [parseLoop, if_neg hd]
      cases hw.newLine.copyCase isOpen_fresh data hfit ha with
      | opened l hl front hlen hread =>
        simp only [hlen, drop_length]
        have hstop : ∀ w, (parseLoop n w h false [] (linecnt + 1)).1 = w := by
          intro w
          cases n <;> simp [parseLoop]
        rw [hstop, hread]
        exact ⟨data, given, Or.inr ⟨hd, l, hl, front⟩, rfl, by simp⟩
      | ended q front hle hpos hstate hread =>
        have hpos := hpos hd
        obtain ⟨p', given', hreads, hp', hgiven⟩ := ih front
          (data.drop (Linebuf.copyInto (Linebuf.newLine w h).1 h
            (Linebuf.newLine w h).2 false data).2)
          (by simp; omega) (fun h => (hfit h).mono (drop_suffix _ _).isInfix) (linecnt + 1)
        refine ⟨p', given', hreads, hstate.trans hp', ?_⟩
        rw [hgiven, append_assoc, singleton_append, filter_append, ← hread,
          ← filter_append]

theorem ready_of_holds {qs : List (List UInt8)} (hdone : Forall₂ (Holds tight) done qs) :
    ∀ l ∈ done, l.terminated = true ∧ l.raw = false := by
  induction hdone with
  | nil => simp
  | cons hl _ ih => simpa using ⟨⟨hl.terminated, hl.raw⟩, fun l hl => ih l hl⟩

/-- The last line of a queue without an open line rejects the chunk. -/
theorem Front.copyInto_rejected (hw : Front tight w h given [])
    (ha : (w.head h).list.getLast? = some a) (data : List UInt8) :
    (Linebuf.copyInto w h a false data).2 = 0 ∧
      Front tight (Linebuf.copyInto w h a false data).1 h given [] := by
  obtain ⟨done, qs, hq, hdone, hqs⟩ := hw.queue
  rw [append_nil] at hq
  obtain ⟨ids, hlist⟩ := getLast?_eq_some_iff.mp ha
  have hmem : w.line a ∈ done := by
    rw [← hq, World.queue, hlist]
    simp
  obtain ⟨hterm, hraw⟩ := ready_of_holds hdone _ hmem
  have hcopy : copyLine (w.line a) data = ⟨w.line a, 0, 0⟩ := by
    cases hl : w.line a with
    | mk buf terminated raw len refcount =>
      rw [hl] at hterm hraw
      simp only at hterm hraw
      simp [copyLine, hterm, hraw]
  have hqueue : (Linebuf.copyInto w h a false data).1.queue h = w.queue h := by
    rw [queue_copyInto false data hlist hw.nodup, show copy false = copyLine from rfl, hcopy,
      World.queue, hlist]
    simp
  refine ⟨by simp [Linebuf.copyInto, copy, hcopy], ?_, ?_, done, qs, ?_, hdone, hqs⟩
  · exact (list_copyInto ..).symm ▸ hw.nodup
  · exact (list_copyInto ..).symm ▸ hw.lt_fresh
  · rw [hqueue, hq, append_nil]

/-- **A chunk.** `rb_linebuf_parse` does with the queue what the forgetful reader does with the
open line. -/
theorem Reads.parse (hw : Reads tight w h p given) (data : List UInt8)
    (hfit : tight → LinesFit (p ++ data)) :
    ∃ p' given', Reads tight (parse w h false data).1 h p' given' ∧
      forget (reader (.opened p) data).1 = .opened p' ∧
      given'.filter (· ≠ []) = (given ++ (reader (.opened p) data).2).filter (· ≠ []) := by
  rcases hw with ⟨rfl, hw⟩ | ⟨hne, l, hl, hw⟩
  · cases ha : (w.head h).list.getLast? with
    | none =>
      simp only [Linebuf.parse, ha]
      exact hw.parseLoop data le_rfl hfit 0
    | some a =>
      obtain ⟨hcons, hfront⟩ := hw.copyInto_rejected ha data
      simp only [Linebuf.parse, ha, hcons, drop_zero]
      split_ifs with hzero
      · obtain rfl : data = [] := eq_nil_of_length_eq_zero hzero.symm
        exact ⟨[], given, Or.inl ⟨rfl, hfront⟩, rfl, by simp [feed]⟩
      · exact hfront.parseLoop data le_rfl hfit 1
  · obtain ⟨done, qs, hq, -⟩ := hw.queue
    obtain ⟨ids, a, hlist, -, -⟩ := list_of_queue hq
    have ha : (w.head h).list.getLast? = some a := by simp [hlist]
    simp only [Linebuf.parse, ha]
    cases hw.copyCase hl data hfit ha with
    | opened l' hl' front hlen hread =>
      rw [if_pos hlen, hread]
      exact ⟨p ++ data, given, Or.inr ⟨by simp [hne], l', hl', front⟩, rfl, by simp⟩
    | ended q front hle hpos hstate hread =>
      split_ifs with hlen
      · rw [hlen, drop_length] at hstate hread
        refine ⟨[], given ++ [q], Or.inl ⟨rfl, front⟩, hstate, ?_⟩
        rw [filter_append, filter_append, hread]
        rfl
      · obtain ⟨p', given', hreads, hp', hgiven⟩ := front.parseLoop
          (data.drop (copyInto w h a false data).2) (n := data.length) (by simp)
          (fun h => (hfit h).mono ((drop_suffix _ _).isInfix.trans
            (suffix_append p data).isInfix)) 1
        refine ⟨p', given', hreads, hstate.trans hp', ?_⟩
        rw [hgiven, append_assoc, singleton_append, filter_append, ← hread,
          ← filter_append]

/-! ### Taking lines out -/

/-- How the receiver sees a string that `rb_linebuf_get` gives, when it sees it at all: neither
empty lines nor, unless `tight`, NULs at the end of a line make a difference. -/
structure IsView (tight : Prop) (view : List UInt8 → Option (List UInt8)) : Prop where
  nil : view [] = none
  append_nul : ∀ q k, (tight → k = 0) → view (q ++ replicate k 0) = view q

theorem IsView.filterMap_filter (hv : IsView tight view) (qs : List (List UInt8)) :
    (qs.filter (· ≠ [])).filterMap view = qs.filterMap view := by
  rw [List.filterMap_filter]
  refine List.filterMap_congr fun q _ => ?_
  by_cases hq : q = []
  · simp [hq, hv.nil]
  · simp [hq]

theorem IsView.filterMap_congr (hv : IsView tight view) {qs qs' : List (List UInt8)}
    (h : qs.filter (· ≠ []) = qs'.filter (· ≠ [])) : qs.filterMap view = qs'.filterMap view := by
  rw [← hv.filterMap_filter qs, h, hv.filterMap_filter]

/-- A buffer that has room for every line gets the whole line. -/
theorem getBytes_of_holds {q : List UInt8} (hl : Holds tight l q)
    (hbuf : bufDataSize ≤ buflen) : getBytes l buflen false = l.buf := by
  have hle : l.buf.length ≤ buflen := by
    have := hl.le
    simp only [maxLine, bufDataSize] at this hbuf
    omega
  simp [getBytes, hl.len, hl.raw, Nat.not_lt.mpr hle]

/-- A get leaves an unfinished line alone. -/
private theorem get_of_open (hq : w.queue h = opn)
    (hopn : ∀ l ∈ opn, l.terminated = false) : get w h buflen false false = (w, []) := by
  cases hl : (w.head h).list with
  | nil => simp [get, hl]
  | cons a rest =>
    have : (w.line a).terminated = false :=
      hopn _ (by rw [← hq, World.queue, hl]; exact mem_cons_self)
    simp [get, hl, this]

/-- Releasing the first line does not touch the others. -/
theorem queue_doneLine {rest : List ℕ} (hl : (w.head h).list = a :: rest) (ha : a ∉ rest) :
    ((doneLine w h).head h).list = rest ∧ (doneLine w h).fresh = w.fresh ∧
      (doneLine w h).queue h = rest.map w.line := by
  have hmap : ∀ l : BufLine, rest.map (update w.line a l) = rest.map w.line :=
    fun l => map_congr_left fun b hb =>
      update_of_ne (by rintro rfl; exact ha hb) _ _
  unfold doneLine
  simp only [hl]
  split_ifs <;> simp [World.queue, World.setLine, World.setHead, hmap]

/-- **One get.** It takes the first complete line and gives what the line holds. -/
theorem Front.get (hv : IsView tight view)
    (hw : Front tight w h given opn) (hopn : ∀ l ∈ opn, l.terminated = false)
    (hbuf : bufDataSize ≤ buflen) :
    ∃ given', Front tight (get w h buflen false false).1 h given' opn ∧
      given.filterMap view =
        [(get w h buflen false false).2].filterMap view ++ given'.filterMap view ∧
      (((get w h buflen false false).1.head h).list.length < (w.head h).list.length ∨
        given.filterMap view = [] ∧ get w h buflen false false = (w, [])) := by
  obtain ⟨done, qs, hq, hdone, hqs⟩ := hw.queue
  cases hdone with
  | nil =>
    rw [get_of_open hq hopn]
    refine ⟨given, hw, by simp [hv.nil], Or.inr ⟨?_, rfl⟩⟩
    rw [hv.filterMap_congr hqs.symm, filterMap_nil]
  | @cons l q done qs hl hdone =>
    obtain ⟨a, rest, hlist, hal, hrest⟩ := map_eq_cons_iff.mp hq
    have hnd := hw.nodup
    have hlt := hw.lt_fresh
    rw [hlist] at hnd hlt
    obtain ⟨hlist', hfresh', hqueue'⟩ := queue_doneLine hlist (nodup_cons.mp hnd).1
    have hget : Linebuf.get w h buflen false false = (doneLine w h, l.buf) := by
      simp [Linebuf.get, hlist, hal, hl.terminated, getBytes_of_holds hl hbuf]
    obtain ⟨k, hk, hbytes⟩ := hl.buf
    rw [hget]
    refine ⟨qs, ⟨?_, ?_, done, qs, hqueue'.trans hrest, hdone, rfl⟩, ?_, Or.inl ?_⟩
    · rw [hlist']
      exact (nodup_cons.mp hnd).2
    · rw [hlist', hfresh']
      exact fun b hb => hlt b (mem_cons_of_mem a hb)
    · rw [← hv.filterMap_congr hqs, ← filterMap_append, hbytes]
      simp only [singleton_append, filterMap_cons, hv.append_nul q k hk]
    · rw [hlist', hlist]
      exact Nat.lt_succ_self _

theorem Reads.get (hv : IsView tight view) (hw : Reads tight w h p given)
    (hbuf : bufDataSize ≤ buflen) :
    ∃ given', Reads tight (get w h buflen false false).1 h p given' ∧
      given.filterMap view =
        [(get w h buflen false false).2].filterMap view ++ given'.filterMap view ∧
      (((get w h buflen false false).1.head h).list.length < (w.head h).list.length ∨
        given.filterMap view = [] ∧ get w h buflen false false = (w, [])) := by
  rcases hw with ⟨rfl, hw⟩ | ⟨hne, l, hl, hw⟩
  · obtain ⟨given', hfront, hgives⟩ := hw.get hv (by simp) hbuf
    exact ⟨given', Or.inl ⟨rfl, hfront⟩, hgives⟩
  · obtain ⟨given', hfront, hgives⟩ := hw.get hv (by simpa using hl.terminated) hbuf
    exact ⟨given', Or.inr ⟨hne, l, hl, hfront⟩, hgives⟩

/-! ### Runs -/

/-- A call on a receive queue. -/
inductive ReadOp
  | parse (chunk : List UInt8)
  | get
  deriving DecidableEq

/-- The bytes that a call receives. -/
def ReadOp.chunk : ReadOp → Option (List UInt8)
  | .parse chunk => some chunk
  | .get => none

/-- Make the calls on the queue `h`, with a buffer of size `buflen`; the strings that the gets
give are collected. -/
def runReads (h buflen : ℕ) : World → List ReadOp → World × List (List UInt8)
  | w, [] => (w, [])
  | w, .parse chunk :: ops => runReads h buflen (parse w h false chunk).1 ops
  | w, .get :: ops =>
    let (w, s) := get w h buflen false false
    let (w, ss) := runReads h buflen w ops
    (w, s :: ss)

/-- The strings delivered by a run and the gets that empty the queue after it. -/
def delivered (w : World) (h buflen : ℕ) (ops : List ReadOp) : List (List UInt8) :=
  let (w, ss) := runReads h buflen w ops
  ss ++ (runReads h buflen w (replicate (w.head h).list.length .get)).2

/-- A queue without lines holds nothing. -/
theorem reads_empty (tight : Prop) (hlist : (w.head h).list = []) : Reads tight w h [] [] :=
  Or.inl ⟨rfl, by simp [hlist], by simp [hlist], [], [], by simp [World.queue, hlist], .nil, rfl⟩

/-- **A run.** The strings given so far and those the queue holds are what the forgetful reader
gives on the chunks. -/
theorem Reads.run (hv : IsView tight view) (hbuf : bufDataSize ≤ buflen)
    (ops : List ReadOp) (hw : Reads tight w h p given)
    (hfit : tight → LinesFit (p ++ (ops.filterMap ReadOp.chunk).flatten)) :
    ∃ p' given', Reads tight (runReads h buflen w ops).1 h p' given' ∧
      (runReads h buflen w ops).2.filterMap view ++ given'.filterMap view =
        given.filterMap view ++
          (feedChunks isCrlf maxLine (.opened p) (ops.filterMap ReadOp.chunk)).2.filterMap
            view := by
  induction ops generalizing w p given with
  | nil => exact ⟨p, given, hw, by simp [runReads, feedChunks]⟩
  | cons op ops ih =>
    cases op with
    | parse chunk =>
      obtain ⟨p', given', hw', hstate, hgiven⟩ := hw.parse chunk fun h =>
        (hfit h).mono ⟨[], (ops.filterMap ReadOp.chunk).flatten, by simp [ReadOp.chunk]⟩
      have hsuf : p' <:+ p ++ chunk := by
        obtain ⟨q, hq, hsuf⟩ := forget_feed_suffix isCrlf maxLine (.opened p) chunk
        rw [reader, hq] at hstate
        injection hstate with heq
        exact heq ▸ hsuf
      obtain ⟨v, hv'⟩ := hsuf
      have hrest : v ++ (p' ++ (ops.filterMap ReadOp.chunk).flatten) =
          p ++ (chunk ++ (ops.filterMap ReadOp.chunk).flatten) := by
        rw [← append_assoc, hv', append_assoc]
      obtain ⟨p'', given'', hw'', hrun⟩ := ih hw' fun h => (hfit h).mono
        ⟨v, [], by simpa [ReadOp.chunk] using hrest⟩
      refine ⟨p'', given'', hw'', ?_⟩
      rw [runReads, hrun, hv.filterMap_congr hgiven]
      simp [ReadOp.chunk, feedChunks, ← hstate, reader]
    | get =>
      obtain ⟨given', hw', hgives, -⟩ := hw.get hv hbuf
      obtain ⟨p'', given'', hw'', hrun⟩ := ih hw' hfit
      refine ⟨p'', given'', hw'', ?_⟩
      have hcons : (runReads h buflen w (.get :: ops)).2 =
          [(Linebuf.get w h buflen false false).2] ++
            (runReads h buflen (Linebuf.get w h buflen false false).1 ops).2 := rfl
      rw [hcons, filterMap_append, append_assoc]
      exact (congrArg _ hrun).trans (by rw [hgives, append_assoc]; rfl)

/-- Enough gets take out all that a queue holds. -/
theorem Reads.drain (hv : IsView tight view) (hbuf : bufDataSize ≤ buflen)
    (hw : Reads tight w h p given) (hn : (w.head h).list.length ≤ n) :
    (runReads h buflen w (replicate n .get)).2.filterMap view = given.filterMap view := by
  induction n generalizing w given with
  | zero =>
    obtain ⟨given', -, -, hlt | ⟨hnone, -⟩⟩ := hw.get hv hbuf
    · omega
    · rw [hnone]
      rfl
  | succ n ih =>
    obtain ⟨given', hw', hgives, hlt | ⟨hnone, hstuck⟩⟩ := hw.get hv hbuf
    · have hcons : (runReads h buflen w (replicate (n + 1) .get)).2 =
          [(Linebuf.get w h buflen false false).2] ++ (runReads h buflen
            (Linebuf.get w h buflen false false).1 (replicate n .get)).2 := rfl
      rw [hcons, filterMap_append, ih hw' (by omega), hgives]
    · -- nothing but an unfinished line is left
      have hall : ∀ m, (runReads h buflen w (replicate m .get)).2 = replicate m [] := by
        intro m
        induction m with
        | zero => rfl
        | succ m ihm => simp only [replicate_succ, runReads, hstuck, ihm]
      rw [hall, hnone]
      simp [hv.nil]

/-- **What a receive queue delivers.** It is what the forgetful reader gives on the chunks. -/
theorem filterMap_delivered (hv : IsView tight view) (hbuf : bufDataSize ≤ buflen)
    (hlist : (w.head h).list = []) (ops : List ReadOp)
    (hfit : tight → LinesFit (ops.filterMap ReadOp.chunk).flatten) :
    (delivered w h buflen ops).filterMap view =
      (feedChunks isCrlf maxLine (.opened []) (ops.filterMap ReadOp.chunk)).2.filterMap view := by
  obtain ⟨p', given', hw', hrun⟩ :=
    (reads_empty tight hlist).run hv hbuf ops hfit
  rw [filterMap_nil, nil_append] at hrun
  simp only [delivered]
  rw [filterMap_append, hw'.drain hv hbuf le_rfl, hrun]

/-! ### Lines that fit -/

/-- Every string with a byte in it is seen. -/
private theorem isView_nonempty :
    IsView True fun s : List UInt8 => if s = [] then none else some s where
  nil := rfl
  append_nul q k hk := by simp [hk trivial]

private theorem filterMap_nonempty (qs : List (List UInt8)) :
    qs.filterMap (fun s => if s = [] then none else some s) = qs.filter (· ≠ []) := by
  induction qs with
  | nil => rfl
  | cons q qs ih =>
    by_cases hq : q = []
    · simpa [hq] using ih
    · simpa [hq] using ih

/-- **Every chunking gives the lines of the stream.** When the lines of a stream fit the line
buffers, the non-empty strings delivered are its non-empty terminated lines, however the stream is
cut into chunks and whenever the gets are made. -/
theorem delivered_eq_lines {buflen : ℕ} (hbuf : bufDataSize ≤ buflen)
    (hlist : (w.head h).list = []) (ops : List ReadOp)
    (hfit : LinesFit (ops.filterMap ReadOp.chunk).flatten) :
    (delivered w h buflen ops).filter (· ≠ []) =
      (((ops.filterMap ReadOp.chunk).flatten.splitOnP isCrlf).dropLast).filter (· ≠ []) := by
  have hle : ∀ t, t <:+: (ops.filterMap ReadOp.chunk).flatten → (∀ b ∈ t, isCrlf b = false) →
      t.length ≤ maxLine := fun t ht htext => by
    simpa using hfit t [] (by simpa using ht) htext (by simp)
  rw [← filterMap_nonempty, filterMap_delivered isView_nonempty hbuf hlist ops fun _ => hfit,
    feedChunks_eq_of_le (by simp) (by simpa using hle), feed_opened_nil, cutLines_eq_of_le hle,
    filterMap_nonempty]

theorem delivered_eq_lines_split :
    (delivered World.init 0 512 [.parse [97, 13], .get, .parse [10, 98], .parse [13, 10]]).filter
      (· ≠ []) = [[97], [98]] := by
  have hfit : LinesFit [97, 13, 10, 98, 13, 10] := by
    intro text eol h _ _
    have := h.length_le
    simp only [length_append, length_cons, length_nil, maxLine, bufDataSize] at *
    omega
  exact delivered_eq_lines (by decide) rfl _ hfit

/-! ### Lines that overflow -/

/-- The C string in a buffer. -/
def cstr (s : List UInt8) : List UInt8 := s.takeWhile (· ≠ 0)

/-- The C string in a buffer, unless it is empty. -/
def seen (s : List UInt8) : Option (List UInt8) := if cstr s = [] then none else some (cstr s)

private theorem isView_seen : IsView False seen where
  nil := rfl
  append_nul q k _ := by
    have hnul : (replicate k (0 : UInt8)).takeWhile (· ≠ 0) = [] := by
      cases k <;> simp [replicate_succ]
    have hcstr : cstr (q ++ replicate k 0) = cstr q := by
      rw [cstr, cstr, takeWhile_append, hnul]
      split_ifs with hlen
      · rw [append_nil, (List.takeWhile_prefix _).eq_of_length hlen]
      · rfl
    simp [seen, hcstr]

theorem seen_eq_none_iff (s : List UInt8) : seen s = none ↔ cstr s = [] := by
  simp [seen]

/-- **When the excess of a line is dropped.** The non-empty C strings delivered are the lines of
the stream, each cut to `BUF_DATA_SIZE - 1` bytes, exactly when no piece of the excess that arrives
after the chunk in which its line overflows shows as a string of its own. -/
theorem delivered_eq_cutLines_iff {buflen : ℕ} (hbuf : bufDataSize ≤ buflen)
    (hlist : (w.head h).list = []) (ops : List ReadOp) :
    (delivered w h buflen ops).filterMap seen =
        (cutLines isCrlf maxLine (ops.filterMap ReadOp.chunk).flatten).filterMap seen ↔
      ∀ s ∈ leaked isCrlf maxLine (ops.filterMap ReadOp.chunk), cstr s = [] := by
  rw [filterMap_delivered isView_seen hbuf hlist ops False.elim,
    filterMap_feedChunks_eq_iff seen (ops.filterMap ReadOp.chunk)]
  simp [seen_eq_none_iff]

/-- A line of 511 bytes whose CR/LF arrives in a second chunk, behind the bytes `QUIT`: they are
delivered as a line of their own. -/
theorem excess_delivered :
    delivered World.init 0 512 [.parse (replicate 511 97 ++ [81, 85, 73, 84, 13, 10])] =
        [replicate 510 97] ∧
      delivered World.init 0 512 [.parse (replicate 511 97),
        .parse [81, 85, 73, 84, 13, 10]] = [replicate 510 97, [81, 85, 73, 84]] := by
  decide +kernel

/-- A long line in three chunks, and a short one. -/
def threeChunks : List ReadOp :=
  [.parse (replicate 300 97), .parse (replicate 250 97 ++ [13]), .get, .parse [10, 98, 10]]

theorem delivered_eq_cutLines_iff_excess :
    (delivered World.init 0 512 threeChunks).filterMap seen =
        (cutLines isCrlf maxLine (threeChunks.filterMap ReadOp.chunk).flatten).filterMap seen ↔
      ∀ s ∈ leaked isCrlf maxLine (threeChunks.filterMap ReadOp.chunk), cstr s = [] :=
  delivered_eq_cutLines_iff (by decide) rfl threeChunks

end Ratbox.Linebuf
