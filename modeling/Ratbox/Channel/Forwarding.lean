import Ratbox.Channel.Joining
import Ratbox.Lib.Packing

/-!
# The messages that are passed on

The other servers learn of the new time and modes of a channel from the message that `ms_sjoin`
passes on. It is passed on with the clients that are named, and only when one of them joins, or
when their names fill a line before the end. A message that changes the channel and brings nobody
new is therefore not passed on, although the channel has changed. And modes behind a leading `0`
are taken, but are passed on as none (`Channel.informed_iff`).

Source: `modules/core/m_join.c`, lines 566–645, 656–739 and 811–833.

## Main definitions

* `Channel.heard`: the time and modes that a server with the old ones comes to from a line.
* `Channel.Informed`: the other servers come to the new time and modes.

## Main results

* `Channel.informed_iff`: when the other servers do.
-/

namespace Ratbox.Channel

open Text Dlink Run List Option

variable {w : World} {c : Str} {ch : Chan} {net : Net} {source_p : ℕ} {parv : List Str}
  {msg : Sjoin} {newts : ℤ} {old : ℤ × Mode} {services : Bool} {mode : Mode}

/-! ### The lines to the servers -/

/-- The line, when it is for the servers with `CAP_TS6`, or for those without. -/
def Out.sjoinTo (ts6 : Bool) : Out → List SjoinLine
  | .sjoin b l => if b = ts6 then [l] else []
  | _ => []

/-- The lines that are sent to the servers with `CAP_TS6`, or to those without. -/
def sjoinsTo (ts6 : Bool) (out : List Out) : List SjoinLine := out.flatMap (Out.sjoinTo ts6)

@[simp] theorem sjoinsTo_append (ts6 : Bool) (out out' : List Out) :
    sjoinsTo ts6 (out ++ out') = sjoinsTo ts6 out ++ sjoinsTo ts6 out' :=
  flatMap_append

@[simp] theorem sjoinsTo_nil (ts6 : Bool) : sjoinsTo ts6 [] = [] := rfl

@[simp] theorem sjoinsTo_cons (ts6 : Bool) (o : Out) (out : List Out) :
    sjoinsTo ts6 (o :: out) = o.sjoinTo ts6 ++ sjoinsTo ts6 out :=
  flatMap_cons

/-- The room that is kept for a nick, or for an id. -/
def wordSize (ts6 : Bool) : ℕ := if ts6 then idLen else nickLen

/-- The word for a client: its name, or its id where it has one, behind its status. -/
def wordOf (k : Nicks) (client : ℕ → Client) (ts6 : Bool) (p : ℕ × MemberFlags) : Str :=
  (if k.keepNew then statusPrefix p.2 else []) ++
    if ts6 then (client p.1).useId else (client p.1).name

/-- The line that is being filled. -/
def Joining.lineTo (st : Joining) (ts6 : Bool) : NickBuf := if ts6 then st.uids else st.names

/-- Put a word on a line, behind sending it where it is full: the line, and the lines sent. -/
def putWord (ts6 : Bool) (s : NickBuf × List SjoinLine) (word : Str) : NickBuf × List SjoinLine :=
  if s.1.Full (wordSize ts6) then
    ({ s.1 with nicks := [word], cut := s.1.cut || s.1.nicks.isEmpty }, s.2 ++ [s.1.sent])
  else ({ s.1 with nicks := s.1.nicks ++ [word] }, s.2)

section Loop

variable (k : Nicks) (st : Joining) (ts6 : Bool)

theorem sjoinsTo_makeRoom (b : Bool) (size : ℕ) (l : NickBuf) :
    sjoinsTo ts6 (makeRoom b size l).2 = if b = ts6 ∧ l.Full size then [l.sent] else [] := by
  rw [makeRoom]
  by_cases hfull : l.Full size <;> by_cases hb : b = ts6 <;> simp [Out.sjoinTo, hfull, hb]

theorem copyNick_lines (u : ℕ) (fl : MemberFlags) :
    ((st.copyNick k u fl).lineTo ts6, sjoinsTo ts6 (st.copyNick k u fl).out) =
      putWord ts6 (st.lineTo ts6, sjoinsTo ts6 st.out) (wordOf k st.w.client ts6 (u, fl)) := by
  have hlineTo : (st.copyNick k u fl).lineTo ts6 =
      { (makeRoom ts6 (wordSize ts6) (st.lineTo ts6)).1 with
        nicks := (makeRoom ts6 (wordSize ts6) (st.lineTo ts6)).1.nicks ++
          [wordOf k st.w.client ts6 (u, fl)] } := by
    cases ts6 <;> rfl
  have hout : sjoinsTo ts6 (st.copyNick k u fl).out = sjoinsTo ts6 st.out ++
      if (st.lineTo ts6).Full (wordSize ts6) then [(st.lineTo ts6).sent] else [] := by
    cases ts6 <;> simp [Joining.copyNick, Joining.lineTo, sjoinsTo_makeRoom, wordSize]
  rw [hlineTo, hout, makeRoom, putWord]
  by_cases hfull : (st.lineTo ts6).Full (wordSize ts6) <;> simp [hfull]

theorem join_lines (u : ℕ) (fl : MemberFlags) :
    (st.join k u fl).lineTo ts6 = st.lineTo ts6 ∧
      sjoinsTo ts6 (st.join k u fl).out = sjoinsTo ts6 st.out := by
  rw [Joining.join]
  split_ifs
  · exact ⟨rfl, rfl⟩
  · exact ⟨rfl, by simp [Out.sjoinTo]⟩

theorem announce_lines (u : ℕ) (fl : MemberFlags) :
    (st.announce k u fl).lineTo ts6 = st.lineTo ts6 ∧
      sjoinsTo ts6 (st.announce k u fl).out = sjoinsTo ts6 st.out := by
  obtain ⟨-, -, hnames, huids⟩ := announce_frame k st u fl
  have hflush : ∀ st : Joining, sjoinsTo ts6 (st.flush k).out = sjoinsTo ts6 st.out := by
    intro st
    rw [Joining.flush]
    split_ifs <;> simp [Out.sjoinTo]
  refine ⟨by rw [Joining.lineTo, Joining.lineTo, hnames, huids], ?_⟩
  simp only [Joining.announce, hflush]
  split_ifs <;> simp [Joining.put, hflush]

theorem take_lines (p : ℕ × MemberFlags) :
    ((st.take k p).lineTo ts6, sjoinsTo ts6 (st.take k p).out) =
      putWord ts6 (st.lineTo ts6, sjoinsTo ts6 st.out) (wordOf k st.w.client ts6 p) := by
  rw [Joining.take]
  have hannounce := announce_lines k ((st.copyNick k p.1 p.2).join k p.1 (k.status p.2)) ts6 p.1
    (k.status p.2)
  have hjoin := join_lines k (st.copyNick k p.1 p.2) ts6 p.1 (k.status p.2)
  rw [hannounce.1, hannounce.2, hjoin.1, hjoin.2, copyNick_lines]

end Loop

/-- The lines after the words `words` were put on a line. -/
theorem foldl_take_lines (k : Nicks) (st : Joining) (ts6 : Bool) (ps : List (ℕ × MemberFlags)) :
    ((ps.foldl (Joining.take k) st).lineTo ts6,
        sjoinsTo ts6 (ps.foldl (Joining.take k) st).out) =
      (ps.map (wordOf k st.w.client ts6)).foldl (putWord ts6)
        (st.lineTo ts6, sjoinsTo ts6 st.out) := by
  induction ps generalizing st with
  | nil => rfl
  | cons p ps ih =>
    have hsame : SameClients st.w.client (st.take k p).w.client := by
      rw [w_take]
      exact sameClients_joinOne _ _ _
    have hword : wordOf k (st.take k p).w.client ts6 = wordOf k st.w.client ts6 := by
      funext q
      obtain ⟨l, hl⟩ := hsame q.1
      rw [wordOf, wordOf, hl]
      rfl
    rw [foldl_cons, ih, take_lines, hword, map_cons, foldl_cons]

/-! ### Filling lines -/

section Fill

variable {ts6 : Bool} {front : SjoinLine} {ws : List Str}

/-- The length of words, with a space behind each. -/
def spaced (ws : List Str) : ℕ := (ws.map fun s => s.length + 1).sum

/-- The words do not leave room for another one on the line. -/
def Overflows (front : SjoinLine) (ts6 : Bool) (ws : List Str) : Prop :=
  ws ≠ [] ∧ SjoinLine.Full { front with nicks := ws } (wordSize ts6)

theorem full_iff (front : SjoinLine) (ws : List Str) (size : ℕ) :
    SjoinLine.Full { front with nicks := ws } size ↔
      front.mlen + spaced ws + size + 3 > ircdBufsize - 3 :=
  Iff.rfl

@[simp] theorem nicks_putWord (s : NickBuf × List SjoinLine) (word : Str) :
    (putWord ts6 s word).1.nicks ≠ [] := by
  rw [putWord]
  split_ifs <;> simp

/-- The line that is being filled has the last word on it. -/
theorem nicks_foldl_putWord {s : NickBuf × List SjoinLine}
    (h : s.1.nicks ≠ [] ∨ ws ≠ []) : (ws.foldl (putWord ts6) s).1.nicks ≠ [] := by
  induction ws generalizing s with
  | nil => exact h.resolve_right (not_not.mpr rfl)
  | cons x ws ih => exact ih (.inl (nicks_putWord s x))

/-- There is room on the line for another word. -/
def room (ts6 : Bool) (front : SjoinLine) (ws : List Str) (_word : Str) : Bool :=
  !decide (SjoinLine.Full { front with nicks := ws } (wordSize ts6))

/-- The line that is being filled and the lines sent, with their words. -/
def filled (front : SjoinLine) (s : List (List Str) × List Str) : NickBuf × List SjoinLine :=
  (⟨{ front with nicks := s.2 }, false⟩, s.1.map fun ws => { front with nicks := ws })

theorem putWord_filled (hroom : ¬SjoinLine.Full { front with nicks := [] } (wordSize ts6))
    (s : List (List Str) × List Str) (word : Str) :
    putWord ts6 (filled front s) word = filled front (Packing.put (room ts6 front) s word) := by
  by_cases hfull : SjoinLine.Full { front with nicks := s.2 } (wordSize ts6)
  · -- the line has words on it, as an empty one has room
    have hnicks : s.2 ≠ [] := fun hnil => hroom (hnil ▸ hfull)
    simp [putWord, filled, Packing.put, room, hfull, hnicks, NickBuf.sent]
  · simp [putWord, filled, Packing.put, room, hfull]

/-- Where the front leaves room, the lines are those of a packing. -/
theorem foldl_putWord_filled (hroom : ¬SjoinLine.Full { front with nicks := [] } (wordSize ts6))
    (ws : List Str) (s : List (List Str) × List Str) :
    ws.foldl (putWord ts6) (filled front s) =
      filled front (ws.foldl (Packing.put (room ts6 front)) s) := by
  induction ws generalizing s with
  | nil => rfl
  | cons x ws ih => rw [foldl_cons, putWord_filled hroom, ih, foldl_cons]

theorem full_of_full (hfull : SjoinLine.Full { front with nicks := [] } (wordSize ts6))
    (ws : List Str) : SjoinLine.Full { front with nicks := ws } (wordSize ts6) := by
  rw [full_iff] at hfull ⊢
  have hzero : spaced [] = 0 := rfl
  omega

/-- Where it leaves none, all lines are cut off. -/
theorem foldl_putWord_of_full (hfull : SjoinLine.Full { front with nicks := [] } (wordSize ts6))
    (x : Str) (ws : List Str) (sent : List SjoinLine) :
    ∃ word, (x :: ws).foldl (putWord ts6) (⟨{ front with nicks := [] }, false⟩, sent) =
      (⟨{ front with nicks := [word] }, true⟩,
        sent ++ replicate (ws.length + 1) { front with nicks := [] }) := by
  have hcut : ∀ (ws : List Str) word sent, ∃ word',
      ws.foldl (putWord ts6) (⟨{ front with nicks := [word] }, true⟩, sent) =
        (⟨{ front with nicks := [word'] }, true⟩,
          sent ++ replicate ws.length { front with nicks := [] }) := by
    intro ws
    induction ws with
    | nil => exact fun word sent => ⟨word, by simp⟩
    | cons y ws ih =>
      intro word sent
      obtain ⟨word', h⟩ := ih y (sent ++ [{ front with nicks := [] }])
      refine ⟨word', ?_⟩
      have hput : putWord ts6 (⟨{ front with nicks := [word] }, true⟩, sent) y =
          (⟨{ front with nicks := [y] }, true⟩, sent ++ [{ front with nicks := [] }]) :=
        if_pos (full_of_full hfull [word])
      rw [foldl_cons, hput, h, append_assoc, length_cons, replicate_succ]
      rfl
  obtain ⟨word, h⟩ := hcut ws x (sent ++ [{ front with nicks := [] }])
  refine ⟨word, ?_⟩
  have hput : putWord ts6 (⟨{ front with nicks := [] }, false⟩, sent) x =
      (⟨{ front with nicks := [x] }, true⟩, sent ++ [{ front with nicks := [] }]) :=
    if_pos hfull
  rw [foldl_cons, hput, h, append_assoc, replicate_succ]
  rfl

/-- A line with words is sent when a word does not fit behind others. -/
theorem sent_foldl_putWord (hroom : ¬SjoinLine.Full { front with nicks := [] } (wordSize ts6))
    (ws nicks : List Str) (sent : List SjoinLine) :
    (∃ l ∈ (ws.foldl (putWord ts6) (⟨{ front with nicks := nicks }, false⟩, sent)).2,
        l.nicks ≠ []) ↔
      (∃ l ∈ sent, l.nicks ≠ []) ∨
        ∃ pre suf, ws = pre ++ suf ∧ suf ≠ [] ∧ Overflows front ts6 (nicks ++ pre) := by
  induction ws generalizing nicks sent with
  | nil =>
    refine (or_iff_left ?_).symm
    rintro ⟨pre, suf, hws, hsuf, -⟩
    exact hsuf (append_eq_nil_iff.mp hws.symm).2
  | cons x ws ih =>
    -- the words before one that does not fit are none, or begin with `x`
    have hsplit : (∃ pre suf, x :: ws = pre ++ suf ∧ suf ≠ [] ∧
        Overflows front ts6 (nicks ++ pre)) ↔ Overflows front ts6 nicks ∨
          ∃ pre suf, ws = pre ++ suf ∧ suf ≠ [] ∧
            Overflows front ts6 (nicks ++ [x] ++ pre) := by
      constructor
      · rintro ⟨pre, suf, hws, hsuf, hover⟩
        rcases pre with _ | ⟨y, pre⟩
        · rw [append_nil] at hover
          exact .inl hover
        · obtain ⟨rfl, rfl⟩ := cons.inj hws
          exact .inr ⟨pre, suf, rfl, hsuf, by simpa using hover⟩
      · rintro (hover | ⟨pre, suf, rfl, hsuf, hover⟩)
        · exact ⟨[], x :: ws, rfl, by simp, by simpa using hover⟩
        · exact ⟨x :: pre, suf, rfl, hsuf, by simpa using hover⟩
    rw [hsplit, foldl_cons, putWord]
    by_cases hfull : SjoinLine.Full { front with nicks := nicks } (wordSize ts6)
    · have hnicks : nicks ≠ [] := by
        rintro rfl
        exact hroom hfull
      have hover : Overflows front ts6 nicks := ⟨hnicks, hfull⟩
      have hcut : (false || nicks.isEmpty) = false := by simp [hnicks]
      rw [if_pos hfull]
      dsimp only
      rw [hcut, ih [x]]
      refine iff_of_true (.inl ?_) (.inr (.inl hover))
      exact ⟨{ front with nicks := nicks }, by simp [NickBuf.sent], hnicks⟩
    · have hnot : ¬Overflows front ts6 nicks := fun h => hfull h.2
      rw [if_neg hfull, ih (nicks ++ [x])]
      simp [hnot]

theorem spaced_le_of_prefix {ws' : List Str} (h : ws <+: ws') : spaced ws ≤ spaced ws' := by
  obtain ⟨suf, rfl⟩ := h
  simp [spaced]

/-- The longest words that have one behind them are all but the last. -/
theorem exists_overflows_iff (ws : List Str) :
    (∃ pre suf, ws = pre ++ suf ∧ suf ≠ [] ∧ Overflows front ts6 ([] ++ pre)) ↔
      Overflows front ts6 ws.dropLast := by
  constructor
  · rintro ⟨pre, suf, rfl, hsuf, hne, hfull⟩
    rw [nil_append] at hne hfull
    have hprefix : pre <+: (pre ++ suf).dropLast := by
      rw [dropLast_append_of_ne_nil hsuf]
      exact prefix_append ..
    refine ⟨fun hnil => hne ?_, ?_⟩
    · rw [hnil] at hprefix
      exact prefix_nil.mp hprefix
    · have hle := spaced_le_of_prefix hprefix
      rw [full_iff] at hfull ⊢
      omega
  · intro h
    have hne : ws ≠ [] := by
      rintro rfl
      exact h.1 rfl
    exact ⟨ws.dropLast, [ws.getLast hne], (dropLast_append_getLast hne).symm, by simp, h⟩

/-- What is sent before the last line. -/
theorem sent_iff (ws : List Str) :
    (∃ l ∈ (ws.foldl (putWord ts6) (filled front ([], []))).2, l.nicks ≠ []) ↔
      ¬SjoinLine.Full { front with nicks := [] } (wordSize ts6) ∧
        Overflows front ts6 ws.dropLast := by
  by_cases hfull : SjoinLine.Full { front with nicks := [] } (wordSize ts6)
  · refine iff_of_false ?_ fun h => h.1 hfull
    rcases ws with _ | ⟨x, ws⟩
    · simp [filled]
    · obtain ⟨word, h⟩ := foldl_putWord_of_full hfull x ws []
      rw [show filled front ([], []) = (⟨{ front with nicks := [] }, false⟩, []) from rfl, h]
      rintro ⟨l, hl, hne⟩
      rw [nil_append] at hl
      rw [eq_of_mem_replicate hl] at hne
      exact hne rfl
  · have h := sent_foldl_putWord hfull ws [] []
    rw [exists_overflows_iff] at h
    simpa [hfull, filled] using h

/-- The lines that are sent when a client joins have its word, if there is room for one. -/
theorem sent_last_iff (hws : ws ≠ []) :
    (∃ l ∈ (ws.foldl (putWord ts6) (filled front ([], []))).2 ++
        [(ws.foldl (putWord ts6) (filled front ([], []))).1.sent], l.nicks ≠ []) ↔
      ¬SjoinLine.Full { front with nicks := [] } (wordSize ts6) := by
  obtain ⟨x, xs, rfl⟩ := exists_cons_of_ne_nil hws
  by_cases hfull : SjoinLine.Full { front with nicks := [] } (wordSize ts6)
  · obtain ⟨word, h⟩ := foldl_putWord_of_full hfull x xs []
    rw [show filled front ([], []) = (⟨{ front with nicks := [] }, false⟩, []) from rfl, h]
    refine iff_of_false ?_ (not_not.mpr hfull)
    rintro ⟨l, hl, hne⟩
    rcases mem_append.mp hl with hl | hl
    · rw [nil_append] at hl
      rw [eq_of_mem_replicate hl] at hne
      exact hne rfl
    · rw [mem_singleton.mp hl] at hne
      exact hne rfl
  · refine iff_of_true ⟨_, mem_append_right _ (mem_singleton_self _), ?_⟩ hfull
    have hne : ((x :: xs).foldl (putWord ts6) (filled front ([], []))).1.nicks ≠ [] :=
      nicks_foldl_putWord (.inr hws)
    rw [foldl_putWord_filled hfull] at hne ⊢
    exact hne

/-- All lines have the same front. -/
theorem front_of_mem {l : SjoinLine}
    (hl : l ∈ (ws.foldl (putWord ts6) (filled front ([], []))).2 ++
      [(ws.foldl (putWord ts6) (filled front ([], []))).1.sent]) :
    l = { front with nicks := l.nicks } := by
  by_cases hfull : SjoinLine.Full { front with nicks := [] } (wordSize ts6)
  · rcases ws with _ | ⟨x, ws⟩
    · rw [mem_singleton.mp hl]
      rfl
    · obtain ⟨word, h⟩ := foldl_putWord_of_full hfull x ws []
      rw [show filled front ([], []) = (⟨{ front with nicks := [] }, false⟩, []) from rfl, h] at hl
      rcases mem_append.mp hl with hl | hl
      · rw [nil_append] at hl
        rw [eq_of_mem_replicate hl]
      · rw [mem_singleton.mp hl]
        rfl
  · rw [foldl_putWord_filled hfull] at hl
    rcases mem_append.mp hl with hl | hl
    · obtain ⟨ns, -, rfl⟩ := mem_map.mp hl
      rfl
    · rw [mem_singleton.mp hl]
      rfl

end Fill

/-! ### What is passed on -/

/-- What the loop is called with, for a message in the memory `w`. -/
def nicksFor (net : Net) (w : World) (client_p source_p : ℕ) (msg : Sjoin) (now : ℤ) : Nicks :=
  nicksOf net w (chanPtr w msg.chname) (chanFor w msg now).1 (chanFor w msg now).2 client_p source_p
    msg

/-- The front of the lines. -/
def Nicks.front (k : Nicks) (ts6 : Bool) : SjoinLine := if ts6 then k.uids else k.names

/-- The words for the clients that are named. -/
def wordsFor (net : Net) (w : World) (client_p source_p : ℕ) (msg : Sjoin) (now : ℤ) (ts6 : Bool) :
    List Str :=
  (namedIn net w.client client_p msg.nicks).map
    (wordOf (nicksFor net w client_p source_p msg now) w.client ts6)

theorem sjoinsTo_takeModes (net : Net) (w : World) (c : Str) (ch : Chan) (isnew : Bool)
    (source : Str) (msg : Sjoin) (ts6 : Bool) :
    sjoinsTo ts6 (takeModes net w c ch isnew source msg).2 = [] := by
  have hfinal : ∀ mode oldmode, sjoinsTo ts6
      (setFinalMode net.services source ch.chname mode oldmode) = [] := by
    intro mode oldmode
    simp only [setFinalMode]
    split_ifs <;> rfl
  have hlost : ∀ lines : List ModeLine, sjoinsTo ts6 (lines.map .modes) = [] := by
    intro lines
    refine flatMap_eq_nil_iff.mpr fun o ho => ?_
    obtain ⟨l, -, rfl⟩ := mem_map.mp ho
    rfl
  have hnotice : ∀ chname oldts newts, (Out.notice chname oldts newts).sjoinTo ts6 = [] :=
    fun _ _ _ => rfl
  simp only [takeModes]
  split_ifs <;> simp [hfinal, hlost, hnotice]

/-- The lines to the servers, as far as the loop sends them, and the line it leaves. -/
theorem lines_takeNicks (net : Net) (k : Nicks) (w : World) (nicks : Str) (ts6 : Bool) :
    ((takeNicks net k w nicks).lineTo ts6, sjoinsTo ts6 (takeNicks net k w nicks).out) =
      ((namedIn net w.client k.client_p nicks).map (wordOf k w.client ts6)).foldl (putWord ts6)
        (⟨k.front ts6, false⟩, []) := by
  have hfold := foldl_take_lines k (k.start w) ts6 (namedIn net w.client k.client_p nicks)
  have hstart : (k.start w).lineTo ts6 = ⟨k.front ts6, false⟩ := by cases ts6 <;> rfl
  rw [hstart] at hfold
  rw [takeNicks_eq]
  dsimp only
  split_ifs
  · exact hfold
  · rw [sjoinsTo_append]
    have hmodes : ∀ l, sjoinsTo ts6 [.modes l] = [] := fun _ => rfl
    rw [hmodes, append_nil]
    exact hfold

theorem nicksOf_congr {w₁ : World} (hclient : w₁.client = w.client)
    (hsource : (w.client source_p).kind.myClient = false) (c : Str) (ch : Chan) (isnew : Bool)
    (client_p : ℕ) (msg : Sjoin) :
    nicksOf net w₁ c ch isnew client_p source_p msg =
      nicksOf net w c ch isnew client_p source_p msg := by
  simp [nicksOf, hclient, hsource]

/-- The line that the loop leaves, and the lines it sends. -/
def passedOn (net : Net) (w : World) (client_p source_p : ℕ) (msg : Sjoin) (now : ℤ) (ts6 : Bool) :
    NickBuf × List SjoinLine :=
  (wordsFor net w client_p source_p msg now ts6).foldl (putWord ts6)
    (⟨(nicksFor net w client_p source_p msg now).front ts6, false⟩, [])

/-- Somebody who is not a member is named. -/
def Joins (net : Net) (w : World) (client_p : ℕ) (msg : Sjoin) : Prop :=
  ∃ p ∈ namedIn net w.client client_p msg.nicks, ¬Member w (chanPtr w msg.chname) p.1

/-- **The lines to the servers** are those of the loop, and the last one when a client joins. -/
theorem sjoinsTo_msSjoin (hw : Linked w)
    (hread : readSjoin net.services parv = some msg) (now : ℤ) (client_p : ℕ)
    (hsource : (w.client source_p).kind.myClient = false) (ts6 : Bool) :
    (Joins net w client_p msg → sjoinsTo ts6 (msSjoin net now w client_p source_p parv).2 =
        (passedOn net w client_p source_p msg now ts6).2 ++
          [(passedOn net w client_p source_p msg now ts6).1.sent]) ∧
      (¬Joins net w client_p msg → sjoinsTo ts6 (msSjoin net now w client_p source_p parv).2 =
        (passedOn net w client_p source_p msg now ts6).2) := by
  obtain ⟨hget, hlinked, hch, hm, -⟩ := hw.worldFor msg now (chname_of_readSjoin hread)
  have hquiet := sjoinsTo_takeModes net (worldFor w msg now) (chanPtr w msg.chname)
    (chanFor w msg now).1 (chanFor w msg now).2 ((worldFor w msg now).client source_p).name msg ts6
  rw [msSjoin_eq hread hget hch]
  cases htm : takeModes net (worldFor w msg now) (chanPtr w msg.chname) (chanFor w msg now).1
    (chanFor w msg now).2 ((worldFor w msg now).client source_p).name msg with
  | mk w₁ out₁ =>
  obtain ⟨hw₁, hclient, hmem, ⟨ch₁, hch₁, -, -⟩, -⟩ := hlinked.takeModes hm net _ _ msg htm
  rw [client_worldFor] at hclient
  rw [htm] at hquiet
  have hk : nicksOf net w₁ (chanPtr w msg.chname) (chanFor w msg now).1 (chanFor w msg now).2
      client_p source_p msg = nicksFor net w client_p source_p msg now :=
    nicksOf_congr hclient hsource ..
  dsimp only at hquiet ⊢
  rw [hk]
  set k := nicksFor net w client_p source_p msg now with hkdef
  have hkc : k.c = chanPtr w msg.chname := rfl
  obtain ⟨-, hjoins⟩ := hw₁.takeNicks net k (hkc ▸ hch₁) msg.nicks
  have hlines := lines_takeNicks net k w₁ msg.nicks ts6
  have hmember : ∀ u, Member w₁ (chanPtr w msg.chname) u ↔ Member w (chanPtr w msg.chname) u := by
    intro u
    rw [member_of_leftMem hmem]
    simp [Member, IsMember, mem_worldFor]
  have hlink : k.client_p = client_p := rfl
  rw [hlink, hclient] at hjoins hlines
  simp only [hkc, hmember] at hjoins
  set st := takeNicks net k w₁ msg.nicks with hst
  have hpassed : (st.lineTo ts6, sjoinsTo ts6 st.out) =
      passedOn net w client_p source_p msg now ts6 := hlines
  have hzero : st.joins = 0 ↔ ¬Joins net w client_p msg := by
    rw [hjoins, Joins]
    push Not
    rfl
  have hlast : sjoinsTo ts6 [.sjoin true st.uids.sent, .sjoin false st.names.sent] =
      [(st.lineTo ts6).sent] := by
    cases ts6 <;> rfl
  rw [← hpassed]
  constructor
  · intro hsome
    rw [if_neg fun h => hzero.mp h hsome]
    simp [sjoinsTo_append, hquiet, hlast]
  · intro hnone
    rw [if_pos (hzero.mpr hnone)]
    simp [sjoinsTo_append, hquiet]

theorem passedOn_eq (net : Net) (w : World) (client_p source_p : ℕ) (msg : Sjoin) (now : ℤ)
    (ts6 : Bool) :
    passedOn net w client_p source_p msg now ts6 =
      (wordsFor net w client_p source_p msg now ts6).foldl (putWord ts6)
        (filled ((nicksFor net w client_p source_p msg now).front ts6) ([], [])) := by
  cases ts6 <;> rfl

/-- The front of the message has no nicks. -/
theorem front_nicksFor (net : Net) (w : World) (client_p source_p : ℕ) (msg : Sjoin) (now : ℤ)
    (ts6 : Bool) :
    { (nicksFor net w client_p source_p msg now).front ts6 with nicks := [] } =
      (nicksFor net w client_p source_p msg now).front ts6 := by
  cases ts6 <;> rfl

theorem wordsFor_ne_nil {client_p : ℕ} (hjoins : Joins net w client_p msg)
    (source_p : ℕ) (now : ℤ) (ts6 : Bool) : wordsFor net w client_p source_p msg now ts6 ≠ [] := by
  obtain ⟨p, hp, -⟩ := hjoins
  exact ne_nil_of_mem (mem_map_of_mem hp)

/-- A line with clients is sent exactly when the front leaves room for one, and a client joins or
the clients do not fit one line. -/
theorem passes_iff (hw : Linked w)
    (hread : readSjoin net.services parv = some msg) (now : ℤ) (client_p : ℕ)
    (hsource : (w.client source_p).kind.myClient = false) (ts6 : Bool) :
    (∃ l ∈ sjoinsTo ts6 (msSjoin net now w client_p source_p parv).2, l.nicks ≠ []) ↔
      ¬((nicksFor net w client_p source_p msg now).front ts6).Full (wordSize ts6) ∧
        (Joins net w client_p msg ∨
          Overflows ((nicksFor net w client_p source_p msg now).front ts6) ts6
            (wordsFor net w client_p source_p msg now ts6).dropLast) := by
  obtain ⟨hsome, hnone⟩ := sjoinsTo_msSjoin hw hread now client_p hsource ts6
  by_cases hjoins : Joins net w client_p msg
  · rw [hsome hjoins, passedOn_eq, sent_last_iff (wordsFor_ne_nil hjoins source_p now ts6),
      front_nicksFor]
    exact (and_iff_left (.inl hjoins)).symm
  · rw [hnone hjoins, passedOn_eq, sent_iff, front_nicksFor, or_iff_right hjoins]

/-- All lines have the front of the message. -/
theorem front_sjoinsTo (hw : Linked w)
    (hread : readSjoin net.services parv = some msg) (now : ℤ) (client_p : ℕ)
    (hsource : (w.client source_p).kind.myClient = false) (ts6 : Bool) :
    ∀ l ∈ sjoinsTo ts6 (msSjoin net now w client_p source_p parv).2,
      l = { (nicksFor net w client_p source_p msg now).front ts6 with nicks := l.nicks } := by
  obtain ⟨hsome, hnone⟩ := sjoinsTo_msSjoin hw hread now client_p hsource ts6
  intro l hl
  suffices hmem : l ∈ (passedOn net w client_p source_p msg now ts6).2 ++
      [(passedOn net w client_p source_p msg now ts6).1.sent] by
    rw [passedOn_eq] at hmem
    exact front_of_mem hmem
  by_cases hjoins : Joins net w client_p msg
  · rwa [hsome hjoins] at hl
  · rw [hnone hjoins] at hl
    exact mem_append_left _ hl

/-! ### What the other servers come to -/

/-- The time and the modes that a server with `old` comes to from a message with a time and
modes. -/
def taken (old : ℤ × Mode) (newts : ℤ) (mode : Mode) : ℤ × Mode :=
  let r := resolve false old.1 newts
  (r.channelts, r.mode mode old.2)

/-- The time and the modes that a server with `old` comes to from a line. -/
def heard (services : Bool) (old : ℤ × Mode) (l : SjoinLine) : Option (ℤ × Mode) :=
  match l.modes with
  | [] => none
  | letters :: args =>
    (readModes services letters (args ++ [[' '].intercalate l.nicks]) .empty).map fun m =>
      taken old l.channelts m.1

/-- The other servers, those with `CAP_TS6` and those without, come to `new` from a line with
clients. -/
def Informed (services : Bool) (old new : ℤ × Mode) (out : List Out) : Prop :=
  ∀ ts6, ∃ l ∈ sjoinsTo ts6 out, l.nicks ≠ [] ∧ heard services old l = some new

/-- When the modes of the message are kept, its time is as good as the one that is passed on. -/
theorem resolve_channelts {oldts : ℤ} (hkeep : (resolve false oldts newts).keepNew = true) :
    resolve false oldts (resolve false oldts newts).channelts = resolve false oldts newts := by
  by_cases hzero : newts = 0 ∨ oldts = 0
  · have hresolve : resolve false oldts newts = ⟨0, true, true⟩ := by simp [resolve, hzero]
    rw [hresolve]
    simp [resolve]
  · rcases lt_trichotomy newts oldts with hlt | heq | hgt
    · have hresolve : resolve false oldts newts = ⟨newts, false, true⟩ := by
        simp [resolve, hzero, hlt.ne, hlt]
      rw [hresolve]
      exact hresolve
    · subst heq
      have hresolve : resolve false newts newts = ⟨newts, true, true⟩ := by
        simp only [resolve, hzero]
        simp
      rw [hresolve]
      exact hresolve
    · simp [resolve, hzero, hgt.ne', hgt.not_gt] at hkeep

theorem taken_taken (hkeep : (resolve false old.1 newts).keepNew = true) (mode mode' : Mode) :
    taken old (taken old newts mode).1 mode' = taken old newts mode' := by
  simp [taken, resolve_channelts hkeep]

/-- The modes that are passed on have the same effect as those of the message. -/
theorem taken_lettered (hmode : mode.lettered services = mode)
    (hkeep : (resolve false old.1 newts).keepNew = true) :
    taken old newts ((taken old newts mode).2.lettered services) = taken old newts mode := by
  simp only [taken, Resolved.mode, hkeep, Bool.not_true, Bool.false_eq_true, ↓reduceIte]
  split_ifs
  · rw [Mode.merge_lettered hmode]
  · rw [hmode]

/-- A message whose modes are ignored changes nothing. -/
theorem taken_of_not_keepNew (hkeep : (resolve false old.1 newts).keepNew = false) (mode : Mode) :
    taken old newts mode = old := by
  have hts : (resolve false old.1 newts).channelts = old.1 := by
    rw [resolve] at hkeep ⊢
    split_ifs at hkeep ⊢ <;> simp at hkeep ⊢
  simp [taken, Resolved.mode, hkeep, hts]

/-- The modes of a message, read in the parameters, have letters. -/
theorem lettered_of_readSjoin
    (h : readSjoin services parv = some msg) : msg.mode.lettered services = msg.mode := by
  have hempty : Mode.empty.lettered services = .empty := by
    rw [lettered_eq_iff]
    simp [Mode.empty]
  simp only [readSjoin] at h
  split at h
  · split_ifs at h
    split at h
    · split_ifs at h
      cases h
      exact lettered_of_readModes hempty ‹_›
    · cases h
  · cases h

/-- What a line with the front of the message comes to. -/
theorem heard_eq {head : Bool} (hmode : mode.lettered services = mode)
    (hkeep : (resolve false old.1 newts).keepNew = true) {l : SjoinLine}
    (hts : l.channelts = (taken old newts mode).1)
    (hmodes : l.modes =
      if head then channelModes services (taken old newts mode).2 true else emptyModes) :
    heard services old l =
      some (if head then taken old newts mode else taken old newts .empty) := by
  cases head with
  | true =>
    obtain ⟨letters, args, hwords, hread⟩ := readModes_channelModes services
      (taken old newts mode).2 ([' '].intercalate l.nicks)
    simp only [↓reduceIte] at hmodes ⊢
    rw [heard, hmodes, hwords]
    dsimp only
    rw [hread, map_some, hts, taken_taken hkeep, taken_lettered hmode hkeep]
  | false =>
    simp only [Bool.false_eq_true, ↓reduceIte] at hmodes ⊢
    have hread : readModes services ['0'] [[' '].intercalate l.nicks] .empty =
        some (.empty, [[' '].intercalate l.nicks]) := by
      simp [readModes, modeBit]
    rw [heard, hmodes, emptyModes]
    dsimp only
    rw [nil_append, hread, map_some, hts, taken_taken hkeep]

/-- **When the other servers are informed.** A message for a channel that exists, from a server,
that is accepted changes the channel here and on the other servers alike exactly when it changes
nothing, or brings a client that is not a member or names that do not fit one line, leaves room for
a name on a line, and has its modes not behind a `0` or only such as change nothing. -/
theorem informed_iff {net : Net} {parv : List Str} {msg : Sjoin} (hw : Linked w)
    (hread : readSjoin net.services parv = some msg) (hch : w.chan (chanPtr w msg.chname) = some ch)
    (now : ℤ) (client_p : ℕ) {source_p : ℕ} (hsource : (w.client source_p).kind.myClient = false) :
    (∃ ch', (msSjoin net now w client_p source_p parv).1.chan (chanPtr w msg.chname) = some ch' ∧
      ((ch'.channelts, ch'.mode) ≠ (ch.channelts, ch.mode) →
        Informed net.services (ch.channelts, ch.mode) (ch'.channelts, ch'.mode)
          (msSjoin net now w client_p source_p parv).2)) ↔
      taken (ch.channelts, ch.mode) msg.newts msg.mode = (ch.channelts, ch.mode) ∨
        (∀ ts6, ¬((nicksFor net w client_p source_p msg now).front ts6).Full (wordSize ts6)) ∧
        (Joins net w client_p msg ∨
          ∀ ts6, Overflows ((nicksFor net w client_p source_p msg now).front ts6) ts6
            (wordsFor net w client_p source_p msg now ts6).dropLast) ∧
        (msg.letters.head? ≠ some '0' ∨ taken (ch.channelts, ch.mode) msg.newts .empty =
          taken (ch.channelts, ch.mode) msg.newts msg.mode) := by
  set old : ℤ × Mode := (ch.channelts, ch.mode) with hold
  have hfor : chanFor w msg now = (ch, false) := by simp [chanFor, hch]
  have hs := hw.sjoined hread now client_p source_p
  obtain ⟨ch', hch', hts, hmode⟩ := hs.chan fun h => by simp [hfor] at h
  rw [hfor] at hts hmode
  have hnew : (ch'.channelts, ch'.mode) = taken old msg.newts msg.mode := by
    rw [hts, hmode]
    rfl
  have hex : ∀ P : Chan → Prop, (∃ ch', (msSjoin net now w client_p source_p parv).1.chan
      (chanPtr w msg.chname) = some ch' ∧ P ch') ↔ P ch' := by
    simp [hch']
  rw [hex, hnew]
  by_cases hsame : taken old msg.newts msg.mode = old
  · simp [hsame]
  have hkeep : (resolve false old.1 msg.newts).keepNew = true := by
    by_contra hnot
    exact hsame (taken_of_not_keepNew (by simpa using hnot) msg.mode)
  -- all lines come to the same
  have hheard : ∀ ts6, ∀ l ∈ sjoinsTo ts6 (msSjoin net now w client_p source_p parv).2,
      heard net.services old l = some (if decide (msg.letters.head? ≠ some '0') then
        taken old msg.newts msg.mode else taken old msg.newts .empty) := by
    intro ts6 l hl
    have hfront := front_sjoinsTo hw hread now client_p hsource ts6 l hl
    refine heard_eq (lettered_of_readSjoin hread) hkeep ?_ ?_
    · rw [hfront]
      cases ts6 <;> simp [Nicks.front, nicksFor, nicksOf, hfor, taken, hold]
    · rw [hfront]
      have hkeep' : (resolve false ch.channelts msg.newts).keepNew = true := hkeep
      cases ts6 <;> simp [Nicks.front, nicksFor, nicksOf, hfor, taken, hold, hsource, hkeep']
  have hsent := passes_iff hw hread now client_p hsource
  have hsome : (if decide (msg.letters.head? ≠ some '0') then taken old msg.newts msg.mode
      else taken old msg.newts .empty) = taken old msg.newts msg.mode ↔
      msg.letters.head? ≠ some '0' ∨
        taken old msg.newts .empty = taken old msg.newts msg.mode := by
    by_cases hhead : msg.letters.head? = some '0' <;> simp [hhead]
  have hinformed : Informed net.services old (taken old msg.newts msg.mode)
      (msSjoin net now w client_p source_p parv).2 ↔
      (∀ ts6, ∃ l ∈ sjoinsTo ts6 (msSjoin net now w client_p source_p parv).2, l.nicks ≠ []) ∧
        (msg.letters.head? ≠ some '0' ∨
          taken old msg.newts .empty = taken old msg.newts msg.mode) := by
    rw [← hsome]
    constructor
    · intro h
      refine ⟨fun ts6 => ?_, ?_⟩
      · obtain ⟨l, hl, hne, -⟩ := h ts6
        exact ⟨l, hl, hne⟩
      · obtain ⟨l, hl, -, hnew⟩ := h true
        rw [hheard true l hl] at hnew
        exact some.inj hnew
    · rintro ⟨hlines, heq⟩ ts6
      obtain ⟨l, hl, hne⟩ := hlines ts6
      exact ⟨l, hl, hne, by rw [hheard ts6 l hl, heq]⟩
  rw [hinformed]
  simp only [ne_eq, hsame, not_false_eq_true, forall_const, false_or] at hsent ⊢
  simp only [hsent, forall_and, forall_or_left, and_assoc]

/-- A message that is older than the channel and brings nobody who is not a member. -/
def olderA : List Str := [['s'], ['3'], ['#'], ['+', 'n'], ['a']]

theorem informed_iff_olderA :
    (∃ ch', (msSjoin smallNet 0 oneMember 0 0 olderA).1.chan ['#'] = some ch' ∧
      ((ch'.channelts, ch'.mode) ≠ (5, .empty) → Informed false (5, .empty)
        (ch'.channelts, ch'.mode) (msSjoin smallNet 0 oneMember 0 0 olderA).2)) ↔
      taken (5, .empty) 3 (Mode.empty.addFlag modeNoPrivMsgs) = (5, .empty) ∨
        (∀ ts6, ¬((nicksFor smallNet oneMember 0 0 ⟨3, ['#'], ['+', 'n'],
            Mode.empty.addFlag modeNoPrivMsgs, ['a']⟩ 0).front ts6).Full (wordSize ts6)) ∧
        (Joins smallNet oneMember 0 ⟨3, ['#'], ['+', 'n'], Mode.empty.addFlag modeNoPrivMsgs,
            ['a']⟩ ∨
          ∀ ts6, Overflows ((nicksFor smallNet oneMember 0 0 ⟨3, ['#'], ['+', 'n'],
              Mode.empty.addFlag modeNoPrivMsgs, ['a']⟩ 0).front ts6) ts6
            (wordsFor smallNet oneMember 0 0 ⟨3, ['#'], ['+', 'n'],
              Mode.empty.addFlag modeNoPrivMsgs, ['a']⟩ 0 ts6).dropLast) ∧
        (some '+' ≠ some '0' ∨ taken (5, .empty) 3 .empty =
          taken (5, .empty) 3 (Mode.empty.addFlag modeNoPrivMsgs)) := by
  have hread : readSjoin smallNet.services olderA =
      some ⟨3, ['#'], ['+', 'n'], Mode.empty.addFlag modeNoPrivMsgs, ['a']⟩ := by
    decide
  exact informed_iff linked_oneMember hread rfl 0 0 rfl

/-- The channel takes the time and the modes of the message, and no server is told. -/
theorem older_not_passed_on :
    ((msSjoin smallNet 0 oneMember 0 0 olderA).1.chan ['#']).map
        (fun ch => (ch.channelts, ch.mode)) =
        some (3, Mode.empty.addFlag modeNoPrivMsgs) ∧
      ∀ ts6, sjoinsTo ts6 (msSjoin smallNet 0 oneMember 0 0 olderA).2 = [] := by
  decide

end Ratbox.Channel
