import Ratbox.Linebuf.Reading
import Ratbox.Lib.Run

/-!
# Line endings

A chunk is received with or without its CR/LF bytes, which may differ from call to call, and a
string that is handed out for parsing has none. The mark that tells the getter to strip them is
overwritten by the next chunk before the copy finds that the line is complete.

Source: `libratbox/src/linebuf.c`, lines 164–330 and 412–470, and `src/packet.c`, lines 262–300.

## Main definitions

* `Linebuf.Shaped`: all lines of a queue but the last are complete.
* `Linebuf.Call`, `Linebuf.serve`: a call on a receive queue, and the strings that were handed out.
* `Linebuf.KeepsMark`: the mark of the last line is not lost.

## Main results

* `Linebuf.Shaped.parse`, `Linebuf.Shaped.get`: what the calls do to the lines.
* `Linebuf.handed_out_bare`: when no string with CR or LF is handed out.
-/

namespace Ratbox.Linebuf

open List

/-! ### The lines of a queue -/

/-- The lines of the queue of `h` have a property, but for those at the end that are given. -/
structure Ranks (done : BufLine → Prop) (w : World) (h : ℕ) (opn : List BufLine) : Prop where
  nodup : (w.head h).list.Nodup
  lt_fresh : ∀ a ∈ (w.head h).list, a < w.fresh
  queue : ∃ ls, w.queue h = ls ++ opn ∧ ∀ l ∈ ls, done l

/-- The lines of the queue of `h` have a property, but for the last, which may have another. -/
def Shaped (done opn : BufLine → Prop) (w : World) (h : ℕ) : Prop :=
  Ranks done w h [] ∨ ∃ l, opn l ∧ Ranks done w h [l]

/-- A copy into a line that waits completes it, or uses up the chunk. -/
structure Copies (raw : Bool) (done opn : BufLine → Prop) : Prop where
  terminated : ∀ l, done l → l.terminated = true
  fresh : opn BufLine.fresh
  copy : ∀ l data, opn l →
    done (copy raw l data).line ∨ (opn (copy raw l data).line ∧ (copy raw l data).consumed =
      data.length)

section Shaped

variable {done opn : BufLine → Prop} {w : World} {h : ℕ} {raw : Bool} {l : BufLine}
  {data : List UInt8}

theorem Ranks.close (hw : Ranks done w h [l]) (hl : done l) : Ranks done w h [] := by
  obtain ⟨ls, hq, hls⟩ := hw.queue
  refine ⟨hw.nodup, hw.lt_fresh, ls ++ [l], hq.trans (append_nil _).symm, fun l' hl' => ?_⟩
  obtain hl' | hl' := mem_append.mp hl'
  · exact hls l' hl'
  · exact mem_singleton.mp hl' ▸ hl

theorem Ranks.newLine (hw : Ranks done w h []) : Ranks done (newLine w h).1 h [BufLine.fresh] := by
  obtain ⟨ls, hq, hls⟩ := hw.queue
  have hfresh : w.fresh ∉ (w.head h).list := fun hmem => lt_irrefl _ (hw.lt_fresh _ hmem)
  have hlist : ((Linebuf.newLine w h).1.head h).list = (w.head h).list ++ [w.fresh] := by
    simp [Linebuf.newLine]
  refine ⟨?_, ?_, ls, by rw [queue_newLine hfresh, hq, append_nil], hls⟩
  · rw [hlist]
    exact hw.nodup.append (nodup_singleton _) (by simpa using hfresh)
  · rw [hlist]
    intro a ha
    obtain ha | ha := mem_append.mp ha
    · exact (hw.lt_fresh a ha).trans (Nat.lt_succ_self _)
    · exact mem_singleton.mp ha ▸ Nat.lt_succ_self _

theorem Ranks.copyInto (hw : Ranks done w h [l]) {a : ℕ} (ha : (w.head h).list.getLast? = some a)
    (raw : Bool) (data : List UInt8) :
    (copyInto w h a raw data).2 = (copy raw l data).consumed ∧
      Ranks done (copyInto w h a raw data).1 h [(copy raw l data).line] := by
  obtain ⟨ls, hq, hls⟩ := hw.queue
  obtain ⟨ids, a', hlist, hids, hal⟩ := list_of_queue hq
  obtain rfl : a' = a := by simpa [hlist] using ha
  refine ⟨by rw [Linebuf.copyInto, hal], ?_, ?_, ls, ?_, hls⟩
  · exact (list_copyInto ..).symm ▸ hw.nodup
  · exact (list_copyInto ..).symm ▸ hw.lt_fresh
  · rw [queue_copyInto raw data hlist hw.nodup, hids, hal]

theorem Ranks.parseLoop (hcopy : Copies raw done opn) (hw : Ranks done w h []) (n : ℕ)
    (data : List UInt8) (linecnt : ℕ) : Shaped done opn (parseLoop n w h raw data linecnt).1 h := by
  induction n generalizing w data linecnt with
  | zero => exact .inl hw
  | succ n ih =>
    rw [Linebuf.parseLoop]
    split_ifs with hdata
    · exact .inl hw
    · have ha : ((Linebuf.newLine w h).1.head h).list.getLast? = some (Linebuf.newLine w h).2 := by
        simp [Linebuf.newLine]
      obtain ⟨hcons, hranks⟩ := hw.newLine.copyInto ha raw data
      obtain hdone | ⟨hopn, hall⟩ := hcopy.copy _ data hcopy.fresh
      · exact ih (hranks.close hdone) _ _
      · have hstop : ∀ w, (Linebuf.parseLoop n w h raw [] (linecnt + 1)).1 = w := by
          intro w
          cases n <;> simp [Linebuf.parseLoop]
        dsimp only
        rw [hcons, hall, drop_length, hstop]
        exact .inr ⟨_, hopn, hranks⟩

theorem consumed_of_terminated (hl : l.terminated = true) (raw : Bool) (data : List UInt8) :
    (copy raw l data).consumed = 0 := by
  cases raw <;> simp [copy, copyRaw, copyLine, hl]

theorem terminated_of_terminated (hl : l.terminated = true) (raw : Bool) (data : List UInt8) :
    (copy raw l data).line.terminated = true := by
  cases raw <;> simp [copy, copyRaw, copyLine, hl]

/-- **A chunk.** All lines but the last are complete after it, if a complete last line is left in
order. -/
theorem Shaped.parse (hcopy : Copies raw done opn) (hw : Shaped done opn w h)
    (hlast : ∀ l, (w.queue h).getLast? = some l → done l → done (copy raw l data).line) :
    Shaped done opn (parse w h raw data).1 h := by
  rw [Linebuf.parse]
  cases ha : (w.head h).list.getLast? with
  | none =>
    have hlist : (w.head h).list = [] := getLast?_eq_none_iff.mp ha
    refine Ranks.parseLoop hcopy ⟨by simp [hlist], by simp [hlist], [], ?_, by simp⟩ _ _ _
    simp [World.queue, hlist]
  | some a =>
    dsimp only
    obtain hw | ⟨l, hopn, hw⟩ := hw
    · obtain ⟨ls, hq, hls⟩ := hw.queue
      rw [append_nil] at hq
      obtain ⟨ids, hlist⟩ := getLast?_eq_some_iff.mp ha
      have hq' : w.queue h = ids.map w.line ++ [w.line a] := by
        rw [World.queue, hlist, map_append]; rfl
      have hl : done (w.line a) := hls _ (by rw [← hq, hq']; simp)
      have hranks : Ranks done w h [w.line a] :=
        ⟨hw.nodup, hw.lt_fresh, ids.map w.line, hq',
          fun l hl => hls l (by rw [← hq, hq']; simp [hl])⟩
      obtain ⟨hcons, hranks⟩ := hranks.copyInto ha raw data
      have hclosed := hranks.close (hlast _ (by rw [hq']; simp) hl)
      rw [hcons, consumed_of_terminated (hcopy.terminated _ hl)]
      split_ifs
      · exact .inl hclosed
      · exact hclosed.parseLoop hcopy _ _ _
    · obtain ⟨hcons, hranks⟩ := hw.copyInto ha raw data
      rw [hcons]
      obtain hdone | ⟨hopn, hall⟩ := hcopy.copy _ data hopn
      · split_ifs
        · exact .inl (hranks.close hdone)
        · exact (hranks.close hdone).parseLoop hcopy _ _ _
      · rw [if_pos hall]
        exact .inr ⟨_, hopn, hranks⟩

/-- What a get does: the first line is taken, unless it has to wait. -/
theorem Ranks.get {opns : List BufLine} (hw : Ranks done w h opns) (buflen : ℕ)
    (partl raw' : Bool) :
    (get w h buflen partl raw' = (w, []) ∧
        ∀ l, (w.queue h).head? = some l → (partl || l.terminated) = false) ∨
      ∃ l rest, w.queue h = l :: rest ∧ (partl || l.terminated) = true ∧
        get w h buflen partl raw' = (doneLine w h, getBytes l buflen raw') ∧
        (doneLine w h).queue h = rest ∧ ((doneLine w h).head h).list.Nodup ∧
        ∀ a ∈ ((doneLine w h).head h).list, a < (doneLine w h).fresh := by
  rw [Linebuf.get]
  cases hlist : (w.head h).list with
  | nil => exact .inl ⟨rfl, by simp [World.queue, hlist]⟩
  | cons a rest =>
    dsimp only
    have hnd := hw.nodup
    have hlt := hw.lt_fresh
    rw [hlist] at hnd hlt
    obtain ⟨hlist', hfresh', hqueue'⟩ := queue_doneLine hlist (nodup_cons.mp hnd).1
    have hq : w.queue h = w.line a :: rest.map w.line := by rw [World.queue, hlist, map_cons]
    cases hterm : partl || (w.line a).terminated with
    | false =>
      refine .inl ⟨by simp, fun l hl => ?_⟩
      rw [hq, head?_cons] at hl
      exact Option.some.inj hl ▸ hterm
    | true =>
      refine .inr ⟨w.line a, rest.map w.line, hq, hterm, by simp, hqueue',
        hlist' ▸ (nodup_cons.mp hnd).2, ?_⟩
      rw [hlist', hfresh']
      exact fun b hb => hlt b (mem_cons_of_mem a hb)

/-- Where the first line is not complete, there is no other. -/
theorem Shaped.eq_of_head? (hw : Shaped done opn w h) (hterm : ∀ l, done l → l.terminated = true)
    (hopn : ∀ l, opn l → l.terminated = false)
    (hhead : ∀ l, (w.queue h).head? = some l → l.terminated = false) :
    ∀ l ∈ w.queue h, l.terminated = false := by
  have hnil : ∀ ls rest, w.queue h = ls ++ rest → (∀ l ∈ ls, done l) → ls = [] := by
    intro ls rest hq hls
    cases ls with
    | nil => rfl
    | cons l ls =>
      have hl := hhead l (by rw [hq]; rfl)
      rw [hterm l (hls l mem_cons_self)] at hl
      cases hl
  obtain ⟨-, -, ls, hq, hls⟩ | ⟨o, ho, -, -, ls, hq, hls⟩ := hw
  · rw [hq, hnil ls [] hq hls]
    simp
  · rw [hq, hnil ls [o] hq hls]
    simpa using hopn o ho

/-- **One get.** What is left keeps its shape. -/
theorem Shaped.get (hw : Shaped done opn w h) (buflen : ℕ) (partl raw' : Bool) :
    Shaped done opn (get w h buflen partl raw').1 h ∧
      ((Linebuf.get w h buflen partl raw').2 = [] ∨
        ∃ l, (done l ∨ opn l) ∧ (Linebuf.get w h buflen partl raw').2 =
        getBytes l buflen raw') := by
  obtain hranks | ⟨l, hopn, hranks⟩ := hw
  · obtain ⟨heq, -⟩ | ⟨l', rest, hq, -, heq, hrest, hnd, hlt⟩ := hranks.get buflen partl raw'
    · rw [heq]
      exact ⟨Or.inl hranks, Or.inl rfl⟩
    · rw [heq]
      obtain ⟨ls, hls, hdone⟩ := hranks.queue
      rw [append_nil] at hls
      rw [← hls, hq] at hdone
      refine ⟨Or.inl ⟨hnd, hlt, rest, hrest.trans (append_nil _).symm, fun l hl => ?_⟩,
        Or.inr ⟨l', ?_, rfl⟩⟩
      · exact hdone l (mem_cons_of_mem _ hl)
      · exact .inl (hdone l' mem_cons_self)
  · obtain ⟨heq, -⟩ | ⟨l', rest, hq, -, heq, hrest, hnd, hlt⟩ := hranks.get buflen partl raw'
    · rw [heq]
      exact ⟨Or.inr ⟨l, hopn, hranks⟩, Or.inl rfl⟩
    · rw [heq]
      obtain ⟨ls, hls, hdone⟩ := hranks.queue
      rw [hq] at hls
      cases ls with
      | nil =>
        obtain ⟨rfl, rfl⟩ := cons.inj hls
        exact ⟨Or.inl ⟨hnd, hlt, [], hrest, by simp⟩, Or.inr ⟨_, Or.inr hopn, rfl⟩⟩
      | cons l'' ls =>
        obtain ⟨rfl, rfl⟩ := cons.inj hls
        refine ⟨Or.inr ⟨l, hopn, hnd, hlt, ls, hrest, fun l hl => ?_⟩, Or.inr ⟨_, Or.inl ?_, rfl⟩⟩
        · exact hdone l (mem_cons_of_mem _ hl)
        · exact hdone _ mem_cons_self

end Shaped

/-! ### CR and LF -/

/-- No byte is CR or LF. -/
def Bare (s : List UInt8) : Prop := ∀ b ∈ s, isCrlf b = false

instance (s : List UInt8) : Decidable (Bare s) :=
  inferInstanceAs (Decidable (∀ b ∈ s, isCrlf b = false))

/-- Bytes CR and LF are only at the start and at the end. -/
def Wrapped (s : List UInt8) : Prop :=
  ∃ e t e', s = e ++ (t ++ e') ∧ (∀ b ∈ e, isCrlf b = true) ∧ Bare t ∧ ∀ b ∈ e', isCrlf b = true

/-- What is known of a complete line. -/
structure Ended (l : BufLine) : Prop where
  terminated : l.terminated = true
  wrapped : Wrapped l.buf
  bare : l.raw = false → Bare l.buf

/-- What is known of a line that waits for more bytes. -/
structure Opened (l : BufLine) : Prop where
  terminated : l.terminated = false
  bare : Bare l.buf

section Bytes

variable {s t : List UInt8} {l : BufLine} {data : List UInt8}

theorem Bare.append (hs : Bare s) (ht : Bare t) : Bare (s ++ t) := fun b hb =>
  (mem_append.mp hb).elim (hs b) (ht b)

theorem Bare.take (hs : Bare s) (n : ℕ) : Bare (s.take n) := fun b hb => hs b (mem_of_mem_take hb)

theorem Bare.wrapped (hs : Bare s) : Wrapped s := ⟨[], s, [], by simp, by simp, hs, by simp⟩

theorem Wrapped.take (hs : Wrapped s) (n : ℕ) : Wrapped (s.take n) := by
  obtain ⟨e, t, e', rfl, he, ht, he'⟩ := hs
  refine ⟨e.take n, t.take (n - e.length), e'.take (n - e.length - t.length), ?_, ?_, ht.take _, ?_⟩
  · rw [take_append, take_append]
  · exact fun b hb => he b (mem_of_mem_take hb)
  · exact fun b hb => he' b (mem_of_mem_take hb)

/-- Both ends are stripped. -/
theorem Wrapped.strip (hs : Wrapped s) : Bare ((s.dropWhile isCrlf).rdropWhile isCrlf) := by
  obtain ⟨e, t, e', rfl, he, ht, he'⟩ := hs
  rw [dropWhile_append_of_pos he]
  cases t with
  | nil =>
    have hnil : e'.dropWhile isCrlf = [] := dropWhile_eq_nil_iff.mpr he'
    rw [nil_append, hnil]
    exact fun b hb => absurd hb not_mem_nil
  | cons b t =>
    rw [cons_append, dropWhile_cons_of_neg (by simp [ht b mem_cons_self]), ← cons_append,
      rdropWhile_run ht he']
    exact ht

theorem bare_getBytes {buflen : ℕ} (hl : Ended l ∨ Opened l) : Bare (getBytes l buflen false) := by
  have hwrapped : Wrapped l.buf := hl.elim Ended.wrapped fun h => h.bare.wrapped
  have hbare : l.raw = false → Bare l.buf := fun hraw => hl.elim (fun h => h.bare hraw) Opened.bare
  rw [getBytes]
  cases hraw : l.raw with
  | true => exact (hwrapped.take _).strip
  | false => exact (hbare hraw).take _

theorem opened_fresh : Opened BufLine.fresh := ⟨rfl, by simp [Bare, BufLine.fresh, BufLine.empty]⟩

/-- What is taken of a text and a run. -/
theorem exists_take_run {text eol : List UInt8} (ht : Bare text) (he : ∀ b ∈ eol, isCrlf b = true)
    (rest : List UInt8) {n : ℕ} (hn : n ≤ text.length + eol.length) :
    ∃ t e, (text ++ (eol ++ rest)).take n = t ++ e ∧ Bare t ∧ (∀ b ∈ e, isCrlf b = true) ∧
    e.length ≤ n := by
  refine ⟨text.take n, eol.take (n - text.length), ?_, ht.take n,
    fun b hb => he b (mem_of_mem_take hb), ?_⟩
  · rw [take_append, take_append, show n - text.length - eol.length = 0 by omega, take_zero,
      append_nil]
  · rw [length_take]
    omega

/-- What a copy leaves without an overflow: where no CR or LF is at the end, there is no run. -/
theorem run_of_getLast? {text eol rest : List UInt8}
    (he : ∀ b ∈ eol, isCrlf b = true) (hrest : eol = [] → rest = [])
    (hlast : ∀ b, (l.buf ++ (text ++ eol)).getLast? = some b → isCrlf b = false) :
    eol = [] ∧ rest = [] := by
  have hnil : eol = [] := by
    rcases eq_nil_or_concat eol with hnil | ⟨init, b, rfl⟩
    · exact hnil
    · have hb := hlast b (by simp)
      rw [he b (by simp)] at hb
      cases hb
  exact ⟨hnil, hrest hnil⟩

/-- Nothing is in the buffer behind a copy only when nothing was to be copied. -/
theorem run_of_getLast?_none {text eol rest : List UInt8} (hrest : eol = [] → rest = [])
    (hlast : (l.buf ++ (text ++ eol)).getLast? = none) : text = [] ∧ eol = [] ∧ rest = [] := by
  obtain ⟨-, hcpy⟩ := append_eq_nil_iff.mp (getLast?_eq_none_iff.mp hlast)
  obtain ⟨htext, heol⟩ := append_eq_nil_iff.mp hcpy
  exact ⟨htext, heol, hrest heol⟩

/-- A copy into a line that waits completes it, or uses up the chunk, whatever is in the line. -/
theorem copies_terminated (raw : Bool) :
    Copies raw (fun l => l.terminated = true) fun l => l.terminated = false := by
  refine ⟨fun _ hl => hl, rfl, fun l data hl => ?_⟩
  obtain ⟨text, eol, rest, rfl, ht, he, hskip, hrest⟩ := exists_run data
  have hall : (∀ b, (l.buf ++ (text ++ eol)).getLast? = some b → isCrlf b = false) →
      text.length + eol.length = (text ++ (eol ++ rest)).length := by
    intro hlast
    obtain ⟨rfl, rfl⟩ := run_of_getLast? he hrest hlast
    simp
  cases raw with
  | true =>
    rw [show copy true = copyRaw from rfl, copyRaw, if_neg (by simp [hl])]
    dsimp only
    rw [hskip, take_run]
    split_ifs
    · exact .inl rfl
    · cases hlast : (l.buf ++ (text ++ eol)).getLast? with
      | none => exact .inr ⟨rfl, hall (by simp [hlast])⟩
      | some b =>
        cases hb : isCrlf b with
        | true => exact .inl hb
        | false => exact .inr ⟨hb, hall (by simp [hlast, hb])⟩
  | false =>
    rw [show copy false = copyLine from rfl, copyLine, if_neg (by simp [hl])]
    dsimp only
    rw [hskip, take_run]
    split_ifs
    · exact .inl rfl
    · cases hlast : (l.buf ++ (text ++ eol)).getLast? with
      | none => exact .inr ⟨rfl, hall (by simp [hlast])⟩
      | some b =>
        dsimp only
        split_ifs with hb
        · exact .inl rfl
        · exact .inr ⟨rfl, hall (by simpa [hlast] using hb)⟩

theorem copies_line : Copies false Ended Opened := by
  refine ⟨fun l hl => hl.terminated, opened_fresh, fun l data hl => ?_⟩
  obtain ⟨text, eol, rest, rfl, ht, he, hskip, hrest⟩ := exists_run data
  rw [show copy false = copyLine from rfl, copyLine, if_neg (by simp [hl.terminated])]
  dsimp only
  rw [hskip, take_run]
  split_ifs with hover
  · -- overflow: the cleared bytes are NULs
    obtain ⟨t, e, htake, ht', he', hlen⟩ := exists_take_run ht he rest
      (n := ((bufDataSize : ℤ) - l.len - 1).toNat) (by omega)
    have hclear : (clearEol (text.length + eol.length) (l.buf ++ (t ++ e)).reverse).reverse =
        (l.buf ++ t) ++ replicate e.length 0 := by
      rw [← append_assoc, reverse_append, clearEol_append (by simpa using he')
        (by rw [length_reverse]; omega) fun b hb => hl.bare.append ht' b (mem_reverse.mp hb)]
      simp
    have hbare : Bare ((l.buf ++ t) ++ replicate e.length 0) := by
      refine (hl.bare.append ht').append fun b hb => ?_
      rw [eq_of_mem_replicate hb]
      rfl
    rw [htake, hclear]
    exact .inl ⟨rfl, hbare.wrapped, fun _ => hbare⟩
  · cases hlast : (l.buf ++ (text ++ eol)).getLast? with
    | none =>
      obtain ⟨rfl, rfl, rfl⟩ := run_of_getLast?_none hrest hlast
      exact .inr ⟨⟨rfl, hl.bare⟩, rfl⟩
    | some b =>
      dsimp only
      split_ifs with hb
      · have hbare : Bare (l.buf ++ (text ++ eol).rdropWhile isCrlf) := by
          rw [rdropWhile_run ht he]
          exact hl.bare.append ht
        exact .inl ⟨rfl, hbare.wrapped, fun _ => hbare⟩
      · obtain ⟨rfl, rfl⟩ := run_of_getLast? he hrest fun c hc => by
          cases hlast.symm.trans hc
          simpa using hb
        refine .inr ⟨⟨rfl, ?_⟩, by simp⟩
        rw [append_nil]
        exact hl.bare.append ht

theorem copies_raw : Copies true Ended Opened := by
  refine ⟨fun l hl => hl.terminated, opened_fresh, fun l data hl => ?_⟩
  obtain ⟨text, eol, rest, rfl, ht, he, hskip, hrest⟩ := exists_run data
  rw [show copy true = copyRaw from rfl, copyRaw, if_neg (by simp [hl.terminated])]
  dsimp only
  rw [hskip, take_run]
  split_ifs with hover
  · obtain ⟨t, e, htake, ht', he', -⟩ := exists_take_run ht he rest
      (n := ((bufDataSize : ℤ) - l.len - 1).toNat) (by omega)
    rw [htake, ← append_assoc]
    exact .inl ⟨rfl, ⟨[], l.buf ++ t, e, by simp, by simp, hl.bare.append ht', he'⟩, nofun⟩
  · cases hlast : (l.buf ++ (text ++ eol)).getLast? with
    | none =>
      obtain ⟨rfl, rfl, rfl⟩ := run_of_getLast?_none hrest hlast
      exact .inr ⟨⟨rfl, hl.bare⟩, rfl⟩
    | some b =>
      cases hb : isCrlf b with
      | true =>
        refine .inl ⟨hb, ⟨[], l.buf ++ text, eol, by simp, by simp, hl.bare.append ht, he⟩,
          fun hraw => ?_⟩
        cases hraw
      | false =>
        obtain ⟨rfl, rfl⟩ := run_of_getLast? he hrest fun c hc => by
          cases hlast.symm.trans hc
          exact hb
        refine .inr ⟨⟨hb, ?_⟩, by simp⟩
        rw [append_nil]
        exact hl.bare.append ht

end Bytes

/-! ### Runs -/

/-- A call on a receive queue. -/
inductive Call
  | parse (raw : Bool) (data : List UInt8)
  | get (buflen : ℕ) (partl : Bool)
  deriving DecidableEq

/-- Make a call on the queue `h`. The strings that were handed out are collected. -/
def serve (h : ℕ) (s : World × List (List UInt8)) : Call → Option (World × List (List UInt8))
  | .parse raw data => some ((parse s.1 h raw data).1, s.2)
  | .get buflen partl =>
    let (w, str) := get s.1 h buflen partl false
    some (w, s.2 ++ [str])

/-- A chunk that is stripped does not find a complete line with CR or LF at the end of the queue. -/
def KeepsMark (h : ℕ) (s : World × List (List UInt8)) : Call → Prop
  | .parse raw _ => raw = false → ∀ l, (s.1.queue h).getLast? = some l → l.terminated = true →
    Bare l.buf
  | .get _ _ => True

/-- The lines are in order, and no string with CR or LF was handed out. -/
def InOrder (h : ℕ) (s : World × List (List UInt8)) : Prop :=
  Shaped Ended Opened s.1 h ∧ ∀ str ∈ s.2, Bare str

theorem InOrder.serve {h : ℕ} {s s' : World × List (List UInt8)} {call : Call} (hs : InOrder h s)
    (hcall : KeepsMark h s call) (hstep : serve h s call = some s') : InOrder h s' := by
  obtain ⟨hshape, hgiven⟩ := hs
  cases call with
  | parse raw data =>
    cases hstep
    refine ⟨?_, hgiven⟩
    cases raw with
    | true =>
      refine hshape.parse copies_raw fun l _ hl => ?_
      rw [show copy true = copyRaw from rfl, copyRaw, if_pos hl.terminated]
      exact ⟨hl.terminated, hl.wrapped, nofun⟩
    | false =>
      refine hshape.parse copies_line fun l hlast hl => ?_
      rw [show copy false = copyLine from rfl, copyLine, if_pos hl.terminated]
      exact ⟨hl.terminated, hl.wrapped, fun _ => hcall rfl l hlast hl.terminated⟩
  | get buflen partl =>
    obtain ⟨hshape', hstr⟩ := hshape.get buflen partl false
    rw [Linebuf.serve] at hstep
    generalize get s.1 h buflen partl false = taken at hstep hshape' hstr
    cases hstep
    refine ⟨hshape', fun str hmem => ?_⟩
    obtain hmem | hmem := mem_append.mp hmem
    · exact hgiven str hmem
    · obtain rfl := mem_singleton.mp hmem
      obtain hnil | ⟨l, hl, heq⟩ := hstr
      · rw [hnil]
        exact fun b hb => absurd hb not_mem_nil
      · rw [heq]
        exact bare_getBytes hl

/-- **No CR or LF is handed out**, in a run from an empty queue, when no chunk is stripped while the
last line of the queue is complete and has a CR or LF in it. -/
theorem handed_out_bare {w : World} {h : ℕ} (hlist : (w.head h).list = []) {calls : List Call}
    {s : World × List (List UInt8)} (hcalls : Run.StepsMeet (serve h) (KeepsMark h) (w, []) calls)
    (hrun : Run.run (serve h) (w, []) calls = some s) : ∀ str ∈ s.2, Bare str := by
  have hstart : InOrder h (w, []) :=
    ⟨Or.inl ⟨by simp [hlist], by simp [hlist], [], by simp [World.queue, hlist], by simp⟩, by simp⟩
  exact (Run.invariant (InOrder h) (fun _ _ _ hs hcall hstep => hs.serve hcall hstep) hstart hcalls
    hrun).2

/-- A line that was received with its CR/LF is handed out with it, when a stripped chunk comes
before that. -/
theorem crlf_handed_out : ∃ s, Run.run (serve 0) (World.init, [])
    [.parse true [81, 85, 73, 84, 13, 10], .parse false [97, 13, 10], .get 512 false] = some s ∧
      [81, 85, 73, 84, 13, 10] ∈ s.2 :=
  ⟨_, rfl, by decide +kernel⟩

/-- The same chunks, where the line is taken before the second one comes. -/
theorem handed_out_bare_small : ∃ s, Run.run (serve 0) (World.init, [])
    [.parse true [97, 13, 10], .get 512 false, .parse false [98, 10], .get 512 false] = some s ∧
      ∀ str ∈ s.2, Bare str := by
  have hmeet : Run.StepsMeet (serve 0) (KeepsMark 0) (World.init, [])
      [.parse true [97, 13, 10], .get 512 false, .parse false [98, 10], .get 512 false] := by
    refine ⟨by simp [KeepsMark], fun s hs => ⟨trivial, fun s' hs' => ⟨fun _ l hl => ?_,
        fun s'' hs'' =>
      ⟨trivial, fun _ _ => trivial⟩⟩⟩⟩
    cases hs
    cases hs'
    exact absurd (Option.isSome_iff_exists.mpr ⟨l, hl⟩) (by decide +kernel)
  exact ⟨_, rfl, handed_out_bare (w := World.init) rfl hmeet rfl⟩

end Ratbox.Linebuf
