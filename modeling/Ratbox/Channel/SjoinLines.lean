import Ratbox.Channel.Forwarding
import Ratbox.Words

/-!
# The lines a SJOIN is passed on with

The names of the clients fill one buffer and their ids another. Each is sent when it has no room for
another word, with its last space cut off, and is filled again behind the same front. The lines have
all clients in their order, and none is too long, as long as the front leaves room for a word. For
a front that leaves none the buffer is sent as it is: the NUL that cuts it off takes the place of
the colon and stays there, and no client is seen on any line. And the room that is kept for an id is
not enough for the name of a client that has no id (`Channel.whole_iff`).

Source: `modules/core/m_join.c`, lines 629–722 and 790–833.

## Main definitions

* `Channel.SjoinBuf`: the bytes of a buffer, the pointer into it and its lengths.
* `Channel.Inside`: nothing is written past the end of a buffer.
* `Channel.LongFit`: the words that are longer than the room that is kept fit where they come.

## Main results

* `Channel.texts_passedOn`: the bytes that are sent are the lines of the model, when nothing is
  written past the end.
* `Channel.whole_iff`: when the lines have all clients and are not too long.
-/

namespace Ratbox.Channel

open Text Dlink Run List Packing

variable {w : World}

/-! ### The bytes -/

/-- `buf_nick` with `mlen_nick`, `ptr_nick` and `len_nick`, or `buf_uid` with its own. -/
structure SjoinBuf where
  buf : Str
  mlen : ℕ
  ptr : ℕ
  len : ℕ

/-- Write into a buffer, over what is there. -/
def overwrite (buf : Str) (i : ℕ) (s : Str) : Str := buf.take i ++ s ++ buf.drop (i + s.length)

/-- The string that a buffer holds. -/
def cstr (buf : Str) : Str := buf.takeWhile (· != '\x00')

/-- Write into the array, which has `IRCD_BUFSIZE` bytes. -/
def SjoinBuf.write (b : SjoinBuf) (i : ℕ) (s : Str) : Option SjoinBuf :=
  if i + s.length ≤ ircdBufsize then some { b with buf := overwrite b.buf i s } else none

/-- The buffer after its front is printed. -/
def SjoinBuf.start (front : Str) : Option SjoinBuf :=
  SjoinBuf.write ⟨[], front.length, front.length, 0⟩ 0 (front ++ ['\x00'])

/-- Cut off the last character and send the buffer. -/
def SjoinBuf.send (b : SjoinBuf) : Option (SjoinBuf × Str) :=
  (b.write (b.ptr - 1) ['\x00']).map fun b => ({ b with ptr := b.mlen, len := 0 }, cstr b.buf)

/-- Put a character of a status. -/
def SjoinBuf.putChar (b : SjoinBuf) (c : Char) : Option SjoinBuf :=
  (b.write b.ptr [c]).map fun b => { b with ptr := b.ptr + 1, len := b.len + 1 }

/-- Print a name and a space. -/
def SjoinBuf.print (b : SjoinBuf) (name : Str) : Option SjoinBuf :=
  (b.write b.ptr (name ++ [' ', '\x00'])).map fun b =>
    { b with ptr := b.ptr + (name.length + 1), len := b.len + (name.length + 1) }

/-- Put a status and a name. -/
def SjoinBuf.word (b : SjoinBuf) (p : Str × Str) : Option SjoinBuf :=
  (p.1.foldlM SjoinBuf.putChar b).bind fun b => b.print p.2

/-- What a turn of the loop does to a buffer, and the strings that were sent. -/
def SjoinBuf.turn (size : ℕ) (s : SjoinBuf × List Str) (p : Str × Str) :
    Option (SjoinBuf × List Str) :=
  if s.1.mlen + s.1.len + size + 3 > ircdBufsize - 3 then
    s.1.send.bind fun t => (t.1.word p).map (·, s.2 ++ [t.2])
  else (s.1.word p).map (·, s.2)

/-- The front of a line, as the buffer has it. -/
def NickBuf.shown (l : NickBuf) : Str :=
  if l.cut then l.front.dropLast ++ ['\x00'] else l.front

/-- The buffer has the bytes of a line. -/
structure Shows (b : SjoinBuf) (l : NickBuf) : Prop where
  mlen : b.mlen = l.mlen
  len : b.len = l.len
  ptr : b.ptr = b.mlen + b.len
  buf : ∃ rest, b.buf = l.shown ++ Text.spaced l.nicks ++ rest

theorem overwrite_append (s t rest : Str) :
    overwrite (s ++ rest) s.length t = s ++ t ++ rest.drop t.length := by
  rw [overwrite, take_left, drop_append, drop_of_length_le (Nat.le_add_right ..),
    nil_append, Nat.add_sub_cancel_left]

theorem cstr_append {s : Str} (hs : '\x00' ∉ s) (rest : Str) : cstr (s ++ '\x00' :: rest) = s := by
  have hpass : ∀ c ∈ s, (c != '\x00') = true := fun c hc => bne_iff_ne.mpr fun h => hs (h ▸ hc)
  rw [cstr, takeWhile_append_of_pos hpass, takeWhile_cons_of_neg (by simp),
    append_nil]

theorem length_spaced (ws : List Str) : (Text.spaced ws).length = spaced ws := by
  induction ws with
  | nil => rfl
  | cons x ws ih =>
    rw [spaced_cons, length_append, length_cons, ih, spaced, spaced, map_cons,
      sum_cons]
    omega

section Bytes

variable {b : SjoinBuf} {l : NickBuf} {s rest : Str} {ts6 : Bool}

/-- A line is in the array, with the NUL behind it. -/
def NickBuf.Inside (l : NickBuf) : Prop := l.mlen + l.len < ircdBufsize

instance (l : NickBuf) : Decidable l.Inside := inferInstanceAs (Decidable (_ < _))

theorem write_append (s rest : Str) (m ptr len : ℕ) (t : Str) :
    (⟨s ++ rest, m, ptr, len⟩ : SjoinBuf).write s.length t =
      if s.length + t.length ≤ ircdBufsize then
        some ⟨s ++ t ++ rest.drop t.length, m, ptr, len⟩
      else none := by
  rw [SjoinBuf.write]
  dsimp only
  rw [overwrite_append]

/-- The status is put behind what is there, if there is room for it. -/
theorem foldlM_putChar (status s rest : Str) (hs : s.length ≤ ircdBufsize) (m len : ℕ) :
    ∃ rest', status.foldlM SjoinBuf.putChar ⟨s ++ rest, m, s.length, len⟩ =
      if s.length + status.length ≤ ircdBufsize then
        some ⟨s ++ status ++ rest', m, (s ++ status).length, len + status.length⟩
      else none := by
  induction status generalizing s rest len with
  | nil =>
    refine ⟨rest, ?_⟩
    rw [if_pos (by simpa using hs), append_nil]
    rfl
  | cons c status ih =>
    have hput : SjoinBuf.putChar ⟨s ++ rest, m, s.length, len⟩ c =
        if s.length + 1 ≤ ircdBufsize then
          some ⟨s ++ [c] ++ rest.drop 1, m, (s ++ [c]).length, len + 1⟩
        else none := by
      rw [SjoinBuf.putChar, write_append, length_append, length_singleton]
      split_ifs <;> rfl
    rw [foldlM_cons, hput, length_cons]
    by_cases hroom : s.length + 1 ≤ ircdBufsize
    · obtain ⟨rest', h⟩ := ih (s ++ [c]) (rest.drop 1) (by simpa using hroom) (len + 1)
      refine ⟨rest', ?_⟩
      rw [if_pos hroom]
      refine h.trans ?_
      simp [Nat.add_assoc, Nat.add_comm 1]
    · refine ⟨[], ?_⟩
      rw [if_neg hroom, if_neg (by omega)]
      rfl

/-- So is a word, with the space and the NUL behind it. -/
theorem word_eq (p : Str × Str) (s rest : Str) (hs : s.length ≤ ircdBufsize) (m len : ℕ) :
    ∃ rest', SjoinBuf.word ⟨s ++ rest, m, s.length, len⟩ p =
      if s.length + ((p.1 ++ p.2).length + 1) < ircdBufsize then
        some ⟨s ++ Text.spaced [p.1 ++ p.2] ++ rest', m, s.length + ((p.1 ++ p.2).length + 1),
          len + ((p.1 ++ p.2).length + 1)⟩
      else none := by
  obtain ⟨rest', h⟩ := foldlM_putChar p.1 s rest hs m len
  have hprint : SjoinBuf.print ⟨s ++ p.1 ++ rest', m, (s ++ p.1).length, len + p.1.length⟩ p.2 =
      if s.length + ((p.1 ++ p.2).length + 1) < ircdBufsize then
        some ⟨s ++ Text.spaced [p.1 ++ p.2] ++ '\x00' :: rest'.drop (p.2.length + 2), m,
          s.length + ((p.1 ++ p.2).length + 1), len + ((p.1 ++ p.2).length + 1)⟩
      else none := by
    have hlen : (s ++ p.1).length + (p.2 ++ [' ', '\x00']).length =
        s.length + ((p.1 ++ p.2).length + 1) + 1 := by
      simp only [length_append, length_cons, length_nil]
      omega
    rw [SjoinBuf.print, write_append, hlen]
    by_cases hroom : s.length + ((p.1 ++ p.2).length + 1) < ircdBufsize
    · rw [if_pos hroom, if_pos (Nat.succ_le_of_lt hroom)]
      simp [spaced_cons, spaced_nil, Nat.add_assoc]
    · rw [if_neg hroom, if_neg fun h => hroom (Nat.lt_of_succ_le h)]
      rfl
  refine ⟨'\x00' :: rest'.drop (p.2.length + 2), ?_⟩
  rw [SjoinBuf.word, h]
  by_cases hroom : s.length + p.1.length ≤ ircdBufsize
  · rw [if_pos hroom, Option.bind_some, hprint]
  · rw [if_neg hroom, if_neg (by rw [length_append]; omega)]
    rfl

theorem front_ne_nil (l : SjoinLine) : l.front ≠ [] := by
  simp [SjoinLine.front]

theorem length_shown (l : NickBuf) : l.shown.length = l.mlen := by
  have hpos := length_pos_of_ne_nil (front_ne_nil l.toSjoinLine)
  rw [NickBuf.shown, SjoinLine.mlen]
  split_ifs
  · rw [length_append, length_dropLast, length_singleton]
    omega
  · rfl

/-- The front is there but for its last character. -/
theorem shown_eq (l : NickBuf) : ∃ c, l.shown = l.front.dropLast ++ [c] := by
  rw [NickBuf.shown]
  split_ifs
  · exact ⟨'\x00', rfl⟩
  · exact ⟨_, (dropLast_append_getLast (front_ne_nil l.toSjoinLine)).symm⟩

/-- No NUL is in the line. -/
structure Printed (l : SjoinLine) : Prop where
  front : '\x00' ∉ l.front
  nicks : ∀ word ∈ l.nicks, '\x00' ∉ word

theorem Printed.intercalate (h : Printed l.toSjoinLine) : '\x00' ∉ [' '].intercalate l.nicks := by
  by_cases hnil : l.nicks = []
  · rw [hnil]
    exact not_mem_nil
  · intro hmem
    have hspaced : '\x00' ∈ Text.spaced l.nicks := by
      rw [spaced_eq_intercalate hnil]
      exact mem_append_left _ hmem
    obtain ⟨word, hword, hc⟩ := mem_flatMap.mp hspaced
    rcases mem_append.mp hc with hc | hc
    · exact h.nicks word hword hc
    · cases mem_singleton.mp hc

/-- The buffer is sent as the line is, and keeps the front as the line does. -/
theorem Shows.send (h : Shows b l) (hl : Printed l.toSjoinLine) (hin : l.Inside) :
    ∃ b', b.send = some (b', l.sent.text) ∧
      Shows b' { l with nicks := [], cut := l.cut || l.nicks.isEmpty } := by
  obtain ⟨rest, hbuf⟩ := h.buf
  have hpos := length_pos_of_ne_nil (front_ne_nil l.toSjoinLine)
  have hfront : '\x00' ∉ l.front.dropLast := fun hmem => hl.front (mem_of_mem_dropLast hmem)
  have hptr : b.ptr = l.shown.length + (Text.spaced l.nicks).length := by
    rw [h.ptr, h.mlen, h.len, length_shown, length_spaced]
    rfl
  have hroom : b.ptr - 1 + ['\x00'].length ≤ ircdBufsize := by
    rw [h.ptr, h.mlen, h.len, length_singleton]
    rw [NickBuf.Inside] at hin
    omega
  rw [SjoinBuf.send, SjoinBuf.write, if_pos hroom]
  by_cases hnil : l.nicks = []
  · -- the colon is cut off, and stays so
    obtain ⟨c, hc⟩ := shown_eq l
    have hlast : b.ptr - 1 = l.front.dropLast.length := by
      rw [hptr, hnil, hc, length_append]
      rfl
    have hsend : overwrite b.buf (b.ptr - 1) ['\x00'] = l.front.dropLast ++ '\x00' :: rest := by
      rw [hbuf, hnil, hc, spaced_nil, append_nil, append_assoc, hlast, overwrite_append,
        append_assoc]
      rfl
    have hsent : l.sent.text = l.front.dropLast := by
      rw [NickBuf.sent]
      split_ifs
      · rfl
      · exact if_pos hnil
    refine ⟨⟨overwrite b.buf (b.ptr - 1) ['\x00'], b.mlen, b.mlen, 0⟩, ?_,
      ⟨h.mlen, rfl, rfl, rest, ?_⟩⟩
    · rw [hsent, ← cstr_append hfront rest, ← hsend]
      rfl
    · have hcut : (l.cut || l.nicks.isEmpty) = true := by simp [hnil]
      refine hsend.trans ?_
      rw [hcut, NickBuf.shown, if_pos rfl, spaced_nil, append_nil, append_assoc]
      rfl
  · -- the space behind the last word is cut off
    have hspaced := spaced_eq_intercalate hnil
    have hcut : (l.cut || l.nicks.isEmpty) = l.cut := by simp [hnil]
    have hlast : b.ptr - 1 = (l.shown ++ [' '].intercalate l.nicks).length := by
      rw [hptr, hspaced, length_append, length_append, length_singleton]
      omega
    have hsend : overwrite b.buf (b.ptr - 1) ['\x00'] =
        l.shown ++ [' '].intercalate l.nicks ++ '\x00' :: rest := by
      rw [hbuf, hspaced, ← append_assoc, append_assoc _ [' '] rest, hlast,
        overwrite_append, append_assoc _ ['\x00']]
      rfl
    have htext : cstr (l.shown ++ [' '].intercalate l.nicks ++ '\x00' :: rest) = l.sent.text := by
      rw [NickBuf.shown, NickBuf.sent]
      split_ifs
      · rw [append_assoc, append_assoc]
        exact (cstr_append hfront _).trans (if_pos rfl).symm
      · rw [SjoinLine.text, if_neg hnil]
        refine cstr_append (fun hmem => ?_) rest
        exact (mem_append.mp hmem).elim hl.front hl.intercalate
    refine ⟨⟨overwrite b.buf (b.ptr - 1) ['\x00'], b.mlen, b.mlen, 0⟩, ?_,
      ⟨h.mlen, rfl, rfl, [' '].intercalate l.nicks ++ '\x00' :: rest, ?_⟩⟩
    · rw [← htext, ← hsend]
      rfl
    · refine hsend.trans ?_
      rw [hcut, spaced_nil, append_nil, append_assoc]
      rfl

theorem len_append (l : SjoinLine) (nicks : List Str) (word : Str) :
    SjoinLine.len { l with nicks := nicks ++ [word] } =
      SjoinLine.len { l with nicks := nicks } + (word.length + 1) := by
  simp [SjoinLine.len]

/-- A word is put on the buffer as on the line, if the line stays inside. -/
theorem Shows.word (h : Shows b l) (hin : l.Inside) (p : Str × Str) :
    (∃ b', b.word p = some b' ∧ Shows b' { l with nicks := l.nicks ++ [p.1 ++ p.2] } ∧
        NickBuf.Inside { l with nicks := l.nicks ++ [p.1 ++ p.2] }) ∨
      b.word p = none ∧ ¬NickBuf.Inside { l with nicks := l.nicks ++ [p.1 ++ p.2] } := by
  obtain ⟨rest, hbuf⟩ := h.buf
  obtain ⟨buf, m, ptr, len⟩ := b
  obtain rfl : buf = l.shown ++ Text.spaced l.nicks ++ rest := hbuf
  obtain rfl : m = l.mlen := h.mlen
  obtain rfl : len = l.len := h.len
  obtain rfl : ptr = l.mlen + l.len := h.ptr
  have hlen : (l.shown ++ Text.spaced l.nicks).length = l.mlen + l.len := by
    rw [length_append, length_shown, length_spaced]
    rfl
  have hinside : NickBuf.Inside { l with nicks := l.nicks ++ [p.1 ++ p.2] } ↔
      l.mlen + l.len + ((p.1 ++ p.2).length + 1) < ircdBufsize := by
    rw [NickBuf.Inside, len_append, ← Nat.add_assoc]
    rfl
  rw [NickBuf.Inside] at hin
  obtain ⟨rest', hput⟩ := word_eq p _ rest (by rw [hlen]; exact hin.le) l.mlen l.len
  rw [hlen] at hput
  rw [hput, hinside]
  split_ifs with hroom
  · refine .inl ⟨_, rfl, ⟨rfl, ?_, Nat.add_assoc .., rest', ?_⟩, hroom⟩
    · rw [len_append]
    · rw [spaced_append, ← append_assoc]
      rfl
  · exact .inr ⟨rfl, hroom⟩

/-- A turn of the loop does to the buffer what it does to the line, if the line stays inside. -/
theorem turn_eq (ts6 : Bool) (sent : List SjoinLine) (h : Shows b l)
    (hl : Printed l.toSjoinLine) (hin : l.Inside) (p : Str × Str) :
    (∃ b', SjoinBuf.turn (wordSize ts6) (b, sent.map SjoinLine.text) p =
        some (b', (putWord ts6 (l, sent) (p.1 ++ p.2)).2.map SjoinLine.text) ∧
        Shows b' (putWord ts6 (l, sent) (p.1 ++ p.2)).1 ∧
        (putWord ts6 (l, sent) (p.1 ++ p.2)).1.Inside) ∨
      SjoinBuf.turn (wordSize ts6) (b, sent.map SjoinLine.text) p = none ∧
        ¬(putWord ts6 (l, sent) (p.1 ++ p.2)).1.Inside := by
  have hfull : b.mlen + b.len + wordSize ts6 + 3 > ircdBufsize - 3 ↔ l.Full (wordSize ts6) := by
    rw [h.mlen, h.len]
    rfl
  rw [putWord, SjoinBuf.turn]
  by_cases hlong : l.Full (wordSize ts6)
  · obtain ⟨b', hsend, hshows⟩ := h.send hl hin
    have hempty : NickBuf.Inside { l with nicks := [], cut := l.cut || l.nicks.isEmpty } :=
      Nat.lt_of_le_of_lt (Nat.add_le_add_left (Nat.zero_le _) _) hin
    rw [if_pos hlong, if_pos (hfull.mpr hlong), hsend, Option.bind_some, map_append]
    rcases hshows.word hempty p with ⟨b'', hword, hshows', hin'⟩ | ⟨hword, hout⟩
    · rw [hword]
      exact .inl ⟨b'', rfl, hshows', hin'⟩
    · rw [hword]
      exact .inr ⟨rfl, hout⟩
  · rw [if_neg hlong, if_neg (mt hfull.mp hlong)]
    rcases h.word hin p with ⟨b', hword, hshows, hin'⟩ | ⟨hword, hout⟩
    · rw [hword]
      exact .inl ⟨b', rfl, hshows, hin'⟩
    · rw [hword]
      exact .inr ⟨rfl, hout⟩

end Bytes

/-! ### The lines -/

section Lines

variable {ts6 : Bool} {front : SjoinLine}

/-- The strings that a loop over the words sends, with the last one. -/
def SjoinBuf.lines (size : ℕ) (front : Str) (ps : List (Str × Str)) : Option (List Str) := do
  let b ← SjoinBuf.start front
  let s ← ps.foldlM (SjoinBuf.turn size) (b, [])
  let last ← s.1.send
  some (s.2 ++ [last.2])

/-- **Nothing is written past the end** of a buffer: the line is inside it at first, and after each
word. -/
def Inside (ts6 : Bool) : NickBuf → List Str → Prop
  | l, [] => l.Inside
  | l, word :: ws => l.Inside ∧ Inside ts6 (putWord ts6 (l, []) word).1 ws

instance decidableInside (ts6 : Bool) : ∀ (l : NickBuf) (ws : List Str),
    Decidable (Inside ts6 l ws)
  | l, [] => inferInstanceAs (Decidable l.Inside)
  | l, word :: ws =>
    have := decidableInside ts6 (putWord ts6 (l, []) word).1 ws
    inferInstanceAs (Decidable (_ ∧ _))

theorem putWord_fst (l : NickBuf) (sent : List SjoinLine) (word : Str) :
    (putWord ts6 (l, sent) word).1 = (putWord ts6 (l, []) word).1 := by
  rw [putWord, putWord]
  split_ifs <;> rfl

theorem start_eq (hfront : front.nicks = []) :
    (∃ b, SjoinBuf.start front.front = some b ∧ Shows b ⟨front, false⟩ ∧
        NickBuf.Inside ⟨front, false⟩) ∨
      SjoinBuf.start front.front = none ∧ ¬NickBuf.Inside ⟨front, false⟩ := by
  have hlen : front.len = 0 := by
    rw [SjoinLine.len, hfront]
    rfl
  have hinside : NickBuf.Inside ⟨front, false⟩ ↔
      0 + (front.front ++ ['\x00']).length ≤ ircdBufsize := by
    rw [NickBuf.Inside, hlen, length_append, Nat.zero_add]
    rfl
  rw [hinside, SjoinBuf.start, SjoinBuf.write]
  split_ifs with hroom
  · refine .inl ⟨_, rfl, ⟨rfl, hlen.symm, rfl, ['\x00'], ?_⟩, hroom⟩
    simp [overwrite, NickBuf.shown, hfront, spaced_nil]
  · exact .inr ⟨rfl, hroom⟩

theorem printed_putWord {s : NickBuf × List SjoinLine} {word : Str}
    (h : Printed s.1.toSjoinLine) (hword : '\x00' ∉ word) :
    Printed (putWord ts6 s word).1.toSjoinLine := by
  rw [putWord]
  split_ifs
  · exact ⟨h.front, by simpa using hword⟩
  · refine ⟨h.front, fun word' hmem => ?_⟩
    rcases mem_append.mp hmem with hmem | hmem
    · exact h.nicks word' hmem
    · exact mem_singleton.mp hmem ▸ hword

/-- **The strings that are sent** are the texts of the lines, as long as these stay inside. -/
theorem texts_foldlM {b : SjoinBuf} {l : NickBuf} (h : Shows b l) (hl : Printed l.toSjoinLine)
    (hin : l.Inside) (ps : List (Str × Str)) (hps : ∀ p ∈ ps, '\x00' ∉ p.1 ++ p.2)
    (sent : List SjoinLine) (out : List Str) :
    (ps.foldlM (SjoinBuf.turn (wordSize ts6)) (b, sent.map SjoinLine.text) >>= fun s =>
        s.1.send >>= fun last => some (s.2 ++ [last.2])) = some out ↔
      Inside ts6 l (ps.map fun p => p.1 ++ p.2) ∧
        out = (((ps.map fun p => p.1 ++ p.2).foldl (putWord ts6) (l, sent)).2 ++
          [((ps.map fun p => p.1 ++ p.2).foldl (putWord ts6) (l, sent)).1.sent]).map
            SjoinLine.text := by
  induction ps generalizing b l sent with
  | nil =>
    obtain ⟨b', hsend, -⟩ := h.send hl hin
    simp [hsend, Inside, hin, eq_comm]
  | cons p ps ih =>
    obtain ⟨hword, hps⟩ := forall_mem_cons.mp hps
    rw [foldlM_cons, map_cons, foldl_cons, Inside, ← putWord_fst l sent]
    rcases turn_eq ts6 sent h hl hin p with ⟨b', hturn, hshows, hin'⟩ | ⟨hturn, hout⟩
    · rw [hturn, and_iff_right hin]
      exact ih hshows (printed_putWord hl hword) hin' hps _
    · rw [hturn]
      refine iff_of_false nofun fun ⟨⟨_, hinside⟩, _⟩ => hout ?_
      cases ps with
      | nil => exact hinside
      | cons q ps => exact hinside.1

/-- A line is as long as its front and its words, with the spaces between these. -/
theorem length_text (l : SjoinLine) : l.text.length = l.mlen + spaced l.nicks - 1 := by
  rw [SjoinLine.text, SjoinLine.mlen]
  split_ifs with hnil
  · rw [length_dropLast, hnil]
    rfl
  · rw [← length_spaced, spaced_eq_intercalate hnil, length_append, length_append,
      length_singleton]
    omega

/-- Each word that is longer than the room that is kept for it fits on the line it comes to. -/
def LongFit (front : SjoinLine) (ts6 : Bool) (ws : List Str) : Prop :=
  ∀ pre word suf, ws = pre ++ word :: suf → wordSize ts6 + 3 < word.length →
    front.mlen + spaced (onto (room ts6 front) (pre.foldl
      (put (room ts6 front)) ([], [])) word) + word.length ≤ ircdBufsize - 3

/-- The lines of a packing are not too long exactly when the long words fit. -/
theorem forall_length_pack_iff
    (hroom : ¬SjoinLine.Full { front with nicks := [] } (wordSize ts6)) (ws : List Str) :
    (∀ ns ∈ pack (room ts6 front) ws,
        (SjoinLine.text { front with nicks := ns }).length ≤ ircdBufsize - 3) ↔
      LongFit front ts6 ws := by
  have hlen : ∀ ns, (SjoinLine.text { front with nicks := ns }).length =
      front.mlen + spaced ns - 1 := fun ns => length_text _
  have hone : ∀ ns word, spaced (ns ++ [word]) = spaced ns + (word.length + 1) := by
    intro ns word
    simp [spaced]
  simp only [hlen]
  rw [forall_pack_iff]
  · refine forall₄_congr fun pre word suf hws => ?_
    set line := onto (room ts6 front) (pre.foldl (put (room ts6 front)) ([], []))
      word with hline
    have hfree : ¬SjoinLine.Full { front with nicks := line } (wordSize ts6) := by
      rw [hline, onto]
      split_ifs with hfits
      · simpa [room] using hfits
      · exact hroom
    rw [full_iff] at hfree
    rw [hone]
    omega
  · rw [full_iff] at hroom
    have hzero : spaced [] = 0 := rfl
    omega
  · intro ns word h
    rw [hone] at h
    omega

/-- The lines have all words, each once, and are not too long. -/
def Whole (lines : List SjoinLine) (ws : List Str) : Prop :=
  lines.flatMap SjoinLine.nicks = ws ∧ ∀ l ∈ lines, l.text.length ≤ ircdBufsize - 3

instance (lines : List SjoinLine) (ws : List Str) : Decidable (Whole lines ws) :=
  inferInstanceAs (Decidable (_ ∧ _))

/-- When the lines that a loop over words fills are whole. -/
theorem whole_foldl_iff {ws : List Str} (hws : ws ≠ []) :
    Whole ((ws.foldl (putWord ts6) (filled front ([], []))).2 ++
        [(ws.foldl (putWord ts6) (filled front ([], []))).1.sent]) ws ↔
      ¬SjoinLine.Full { front with nicks := [] } (wordSize ts6) ∧ LongFit front ts6 ws := by
  by_cases hfull : SjoinLine.Full { front with nicks := [] } (wordSize ts6)
  · -- no word is on a line
    refine iff_of_false (fun h => hws ?_) fun h => h.1 hfull
    rw [← h.1]
    refine flatMap_eq_nil_iff.mpr fun l hl => ?_
    by_contra hne
    exact (sent_last_iff hws).mp ⟨l, hl, hne⟩ hfull
  · have hlines : (ws.foldl (putWord ts6) (filled front ([], []))).2 ++
        [(ws.foldl (putWord ts6) (filled front ([], []))).1.sent] =
        (pack (room ts6 front) ws).map fun ns => { front with nicks := ns } := by
      rw [foldl_putWord_filled hfull, pack, map_append]
      rfl
    have hwords : ((pack (room ts6 front) ws).map fun ns =>
        ({ front with nicks := ns } : SjoinLine)).flatMap SjoinLine.nicks = ws := by
      rw [flatMap_map]
      exact flatMap_id.trans (flatten_pack (room ts6 front) ws)
    rw [hlines, Whole, and_iff_right hwords, and_iff_right hfull, ← forall_length_pack_iff hfull]
    simp

end Lines

/-! ### What is passed on -/

/-- Lines that are whole are inside the buffers. -/
theorem inside_of_longFit {front : SjoinLine} {ts6 : Bool} (hnicks : front.nicks = [])
    (hroom : ¬front.Full (wordSize ts6)) {ws : List Str} (h : LongFit front ts6 ws) :
    Inside ts6 ⟨front, false⟩ ws := by
  have hempty : { front with nicks := [] } = front := by rw [← hnicks]
  rw [← hempty] at hroom
  -- the line that the words `pre` leave is one of their packing
  have hline : ∀ pre suf, ws = pre ++ suf → NickBuf.Inside (filled front
      (pre.foldl (put (room ts6 front)) ([], []))).1 := by
    intro pre suf hws
    have hpre : LongFit front ts6 pre := fun a word b heq =>
      h a word (b ++ suf) (by rw [hws, heq, append_assoc, cons_append])
    have hlen := (forall_length_pack_iff hroom pre).mpr hpre _
      (mem_append_right _ mem_cons_self)
    rw [length_text] at hlen
    have hsize : ircdBufsize = 512 := rfl
    change front.mlen + spaced (pre.foldl (put (room ts6 front)) ([], [])).2 - 1 ≤
      ircdBufsize - 3 at hlen
    change front.mlen + spaced (pre.foldl (put (room ts6 front)) ([], [])).2 < ircdBufsize
    omega
  suffices hrun : ∀ suf pre, ws = pre ++ suf →
      Inside ts6 (filled front (pre.foldl (put (room ts6 front)) ([], []))).1 suf by
    have hstart := hrun ws [] rfl
    rwa [foldl_nil, filled, hempty] at hstart
  intro suf
  induction suf with
  | nil => exact fun pre hws => hline pre [] hws
  | cons word suf ih =>
    intro pre hws
    refine ⟨hline pre _ hws, ?_⟩
    have hnext := ih (pre ++ [word]) (by rw [hws, append_assoc]; rfl)
    rw [foldl_append, foldl_cons, foldl_nil, ← putWord_filled hroom] at hnext
    exact (putWord_fst _ _ word) ▸ hnext

/-- **The strings that are sent** for a message are the texts of the lines, for a front and names
without a NUL, exactly when nothing is written past the end of the buffer; and nothing is where the
lines are whole. -/
theorem texts_passedOn {net : Net} {parv : List Str} {msg : Sjoin} (hw : Linked w)
    (hread : readSjoin net.services parv = some msg) (now : ℤ) (client_p : ℕ) {source_p : ℕ}
    (hsource : (w.client source_p).kind.myClient = false) (hjoins : Joins net w client_p msg)
    (ts6 : Bool) (hfront : '\x00' ∉ ((nicksFor net w client_p source_p msg now).front ts6).front)
    (hname : ∀ u, '\x00' ∉ (w.client u).name ∧ '\x00' ∉ (w.client u).id) :
    let front := (nicksFor net w client_p source_p msg now).front ts6
    let words := wordsFor net w client_p source_p msg now ts6
    (∀ out, SjoinBuf.lines (wordSize ts6) front.front
        ((namedIn net w.client client_p msg.nicks).map fun p =>
          (if (nicksFor net w client_p source_p msg now).keepNew then statusPrefix p.2 else [],
            if ts6 then (w.client p.1).useId else (w.client p.1).name)) = some out ↔
      Inside ts6 ⟨front, false⟩ words ∧
        out = (sjoinsTo ts6 (msSjoin net now w client_p source_p parv).2).map SjoinLine.text) ∧
    (¬front.Full (wordSize ts6) ∧ LongFit front ts6 words → Inside ts6 ⟨front, false⟩ words) := by
  set k := nicksFor net w client_p source_p msg now with hk
  have hnicks : (k.front ts6).nicks = [] := by
    cases ts6 <;> rfl
  have hprinted : Printed (k.front ts6) := ⟨hfront, by simp [hnicks]⟩
  have hwords : ((namedIn net w.client client_p msg.nicks).map fun p =>
      (if k.keepNew then statusPrefix p.2 else [],
        if ts6 then (w.client p.1).useId else (w.client p.1).name)).map (fun p => p.1 ++ p.2) =
      wordsFor net w client_p source_p msg now ts6 := by
    rw [wordsFor, map_map]
    rfl
  refine ⟨fun out => ?_, fun h => inside_of_longFit hnicks h.1 h.2⟩
  have hps : ∀ p ∈ (namedIn net w.client client_p msg.nicks).map (fun p =>
      (if k.keepNew then statusPrefix p.2 else [],
        if ts6 then (w.client p.1).useId else (w.client p.1).name)), '\x00' ∉ p.1 ++ p.2 := by
    intro p hp
    obtain ⟨q, -, rfl⟩ := mem_map.mp hp
    have hstatus : '\x00' ∉ if k.keepNew then statusPrefix q.2 else [] := by
      rw [statusPrefix]
      split_ifs <;> simp
    have hword : '\x00' ∉ if ts6 then (w.client q.1).useId else (w.client q.1).name := by
      rw [Client.useId]
      split_ifs
      · exact (hname q.1).1
      · exact (hname q.1).2
      · exact (hname q.1).1
    exact fun hmem => (mem_append.mp hmem).elim hstatus hword
  rw [(sjoinsTo_msSjoin hw hread now client_p hsource ts6).1 hjoins, SjoinBuf.lines, ← hwords]
  rcases start_eq hnicks with ⟨b, hstart, hshows, hin⟩ | ⟨hstart, hout⟩
  · rw [hstart]
    refine (texts_foldlM hshows hprinted hin _ hps [] out).trans ?_
    rw [hwords]
    rfl
  · rw [hstart]
    refine iff_of_false nofun fun h => hout ?_
    have hinside := h.1
    rw [hwords] at hinside
    cases hws : wordsFor net w client_p source_p msg now ts6 with
    | nil => exact (hws ▸ hinside :)
    | cons word ws => exact (hws ▸ hinside :).1

/-- A message that brings the user 1 to a channel. -/
def bringsA : List Str := [['s'], ['5'], ['#'], ['+'], ['a']]

theorem texts_passedOn_bringsA :
    SjoinBuf.lines (wordSize true) ":b SJOIN 5 # + :".toList [([], ['a'])] =
      some ((sjoinsTo true (msSjoin smallNet 0 (World.init behindServer) 0 0 bringsA).2).map
        SjoinLine.text) := by
  have hread : readSjoin smallNet.services bringsA = some ⟨5, ['#'], ['+'], .empty, ['a']⟩ := by
    decide
  have hjoins : Joins smallNet (World.init behindServer) 0 ⟨5, ['#'], ['+'], .empty, ['a']⟩ :=
    ⟨(1, .peon), by decide, fun ⟨_, _, h, _⟩ => nomatch h⟩
  have hsource : ((World.init behindServer).client 0).kind.myClient = false := rfl
  obtain ⟨h, -⟩ := texts_passedOn (linked_init behindServer) hread 0 0 hsource hjoins true
    (by decide) fun u => by
      dsimp only [World.init, behindServer]
      split_ifs <;> decide
  refine Eq.trans ?_ ((h _).mpr ⟨by decide, rfl⟩)
  exact congrArg₂ (SjoinBuf.lines (wordSize true)) (by decide) (by decide)

/-- **When the lines are whole.** For a message that is passed on, the lines to the servers with
`CAP_TS6`, and those to the others, have all clients that are named and are not too long exactly
when their front leaves room for a word, and the words that are longer than the room that is kept
fit where they come. -/
theorem whole_iff {net : Net} {parv : List Str} {msg : Sjoin} (hw : Linked w)
    (hread : readSjoin net.services parv = some msg) (now : ℤ) (client_p : ℕ) {source_p : ℕ}
    (hsource : (w.client source_p).kind.myClient = false) (hjoins : Joins net w client_p msg) :
    (∀ ts6, Whole (sjoinsTo ts6 (msSjoin net now w client_p source_p parv).2)
        (wordsFor net w client_p source_p msg now ts6)) ↔
      ∀ ts6, ¬((nicksFor net w client_p source_p msg now).front ts6).Full (wordSize ts6) ∧
        LongFit ((nicksFor net w client_p source_p msg now).front ts6) ts6
          (wordsFor net w client_p source_p msg now ts6) := by
  refine forall_congr' fun ts6 => ?_
  rw [(sjoinsTo_msSjoin hw hread now client_p hsource ts6).1 hjoins, passedOn_eq,
    whole_foldl_iff (wordsFor_ne_nil hjoins source_p now ts6), front_nicksFor]

theorem whole_iff_bringsA :
    (∀ ts6, Whole (sjoinsTo ts6 (msSjoin smallNet 0 (World.init behindServer) 0 0 bringsA).2)
        (wordsFor smallNet (World.init behindServer) 0 0 ⟨5, ['#'], ['+'], .empty, ['a']⟩ 0 ts6)) ↔
      ∀ ts6, ¬((nicksFor smallNet (World.init behindServer) 0 0
            ⟨5, ['#'], ['+'], .empty, ['a']⟩ 0).front ts6).Full (wordSize ts6) ∧
        LongFit ((nicksFor smallNet (World.init behindServer) 0 0
            ⟨5, ['#'], ['+'], .empty, ['a']⟩ 0).front ts6) ts6
          (wordsFor smallNet (World.init behindServer) 0 0
            ⟨5, ['#'], ['+'], .empty, ['a']⟩ 0 ts6) := by
  have hread : readSjoin smallNet.services bringsA = some ⟨5, ['#'], ['+'], .empty, ['a']⟩ := by
    decide
  have hjoins : Joins smallNet (World.init behindServer) 0 ⟨5, ['#'], ['+'], .empty, ['a']⟩ := by
    refine ⟨(1, .peon), by decide, ?_⟩
    rintro ⟨m, ms, hms, -⟩
    exact absurd hms (by simp [World.init])
  exact whole_iff (linked_init behindServer) hread 0 0 rfl hjoins

/-- A message for a channel with a name of 482 characters. -/
def longName : List Str := [['s'], ['5'], '#' :: replicate 481 'c', ['+'], ['a']]

/-- A user whose name has twenty characters, and who has no id. -/
def longUser (u : ℕ) : Client :=
  { behindServer u with name := if u = 1 then replicate 20 'x' else (behindServer u).name }

/-- A server that knows the users 1 and 2, of whom the first has the long name. -/
def longNet : Net where
  me := ['m']
  services := false
  hashClient s := if s = replicate 20 'X' then some 1 else if s = ['B'] then some 2 else none
  hashId _ := none

/-- A channel with a limit and a key. -/
def limited : World :=
  (msSjoin longNet 0 (World.init longUser) 0 0
    [['s'], ['5'], ['#'], "+lk".toList, "1234".toList, "abcd".toList, ['b']]).1

/-- A message that names the first user 23 times. -/
def longNicks : Str := [' '].intercalate (replicate 23 (replicate 20 'x'))

/-- Behind a long front nobody is named although a client joins, and the name of a user without an
id goes over the end of a line. -/
theorem not_whole :
    (.joined 1 ('#' :: replicate 481 'c') ∈
        (msSjoin smallNet 0 (World.init behindServer) 0 0 longName).2 ∧
      ∀ ts6, ¬Whole (sjoinsTo ts6 (msSjoin smallNet 0 (World.init behindServer) 0 0 longName).2)
        (wordsFor smallNet (World.init behindServer) 0 0
          ⟨5, '#' :: replicate 481 'c', ['+'], .empty, ['a']⟩ 0 ts6)) ∧
    (.joined 1 ['#'] ∈ (msSjoin longNet 0 limited 0 0 [['s'], ['5'], ['#'], ['+'], longNicks]).2 ∧
      ¬Whole (sjoinsTo true
          (msSjoin longNet 0 limited 0 0 [['s'], ['5'], ['#'], ['+'], longNicks]).2)
        (wordsFor longNet limited 0 0 ⟨5, ['#'], ['+'], .empty, longNicks⟩ 0 true)) := by
  decide +kernel

end Ratbox.Channel
