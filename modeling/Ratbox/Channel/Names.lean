import Ratbox.Banlist.Basic
import Ratbox.Channel.Listed
import Ratbox.Channel.SjoinLines

/-!
# The names of the members of a channel

The operators and the other members of a channel are printed into one buffer, each behind the
characters of its status and with a space behind it. When the room that is kept for the next name is
not there, the last space is cut off and the buffer is sent. Who is no member is not shown the
invisible ones, and sees nothing of a channel that is private or secret.

Source: `src/channel.c`, lines 144–170 and 383–468, `include/channel.h`, lines 168–177, and
`include/numeric.h`, line 122.

## Main definitions

* `Channel.Namer`: what is read beside the channels.
* `Channel.Namer.channelMemberNames`: what a client is sent.

## Main results

* `Channel.names_shown`: the lines name the members that the client may see.
-/

namespace Ratbox.Channel

open Text Dlink Run List Function

/-! ### The function -/

/-- `find_channel_status`. -/
def findChannelStatus (flags : MemberFlags) (combine : Bool) : Str :=
  if flags.chanop && !combine then ['@']
  else (if flags.chanop then ['@'] else []) ++ if flags.voice then ['+'] else []

/-- `PubChannel`. -/
def pubChannel (ch : Chan) : Bool := ch.mode.mode &&& (modePrivate ||| modeSecret) = 0

/-- `SecretChannel`. -/
def secretChannel (ch : Chan) : Bool := ch.mode.mode &&& modeSecret ≠ 0

/-- `channel_pub_or_secret`. -/
def channelPubOrSecret (ch : Chan) :
    Str := if pubChannel ch then ['='] else if secretChannel ch then ['@'] else ['*']

/-- A text in an array of `n + 1` characters. -/
structure InArray (n : ℕ) (text : Str) : Prop where
  length_le : text.length ≤ n
  nul : '\x00' ∉ text

/-- The memory, `me.name`, `IsInvisible`, and whether a client has `CLICAP_MULTI_PREFIX`. -/
structure Namer where
  w : World
  me : Str
  invisible : ℕ → Bool
  multiPrefix : ℕ → Bool
  me_inArray : InArray hostLen me
  name_inArray : ∀ u, InArray hostLen (w.client u).name
  chname_inArray : ∀ c ch, w.chan c = some ch → InArray channelLen ch.chname

/-- `lbuf`, the pointer `t` into it, and `cur_len`. -/
structure NamesBuf where
  lbuf : Str
  t : ℕ
  curLen : ℕ

/-- What a client is sent. -/
inductive NamesOut
  | namReply (line : Str)
  | endOfNames (chname : Str)
  deriving DecidableEq

/-- The last character is cut off, and the buffer is sent. -/
def NamesBuf.send (mlen : ℕ) (b : NamesBuf) : NamesBuf × Str :=
  let lbuf := overwrite b.lbuf (b.t - 1) ['\x00']
  (⟨lbuf, mlen, mlen⟩, cstr lbuf)

/-- A name is printed behind its status, with a space. -/
def NamesBuf.print (b : NamesBuf) (status name : Str) : NamesBuf :=
  let tlen := status.length + name.length + 1
  ⟨overwrite b.lbuf b.t (status ++ name ++ [' ', '\x00']), b.t + tlen, b.curLen + tlen⟩

namespace Namer

variable (s : Namer) (client_p : ℕ)

/-- `IsMember`. -/
def isMember (c : Str) : Bool := (findChannelMembership s.w c client_p).isSome

/-- `ShowChannel`. -/
def showChannel (c : Str) (ch : Chan) : Bool := pubChannel ch || s.isMember client_p c

/-- `RPL_NAMREPLY`, as it is printed into the buffer. -/
def front (ch : Chan) : Str :=
  ':' :: s.me ++ " 353 ".toList ++ (s.w.client client_p).name ++
    ' ' :: channelPubOrSecret ch ++ ' ' :: ch.chname ++ " :".toList

/-- The body of the loop over the members, for the membership at an address. -/
def turn (mlen : ℕ) (isMember : Bool) (b : NamesBuf × List Str) (msptr : ℕ) : NamesBuf × List Str :=
  match s.w.mem msptr with
  | none => b
  | some ms =>
    let name := (s.w.client ms.client_p).name
    if s.invisible ms.client_p && !isMember then b
    else
      let (b, sent) :=
        if b.1.curLen + name.length + 3 ≥ ircdBufsize - 3 then ((b.1.send mlen).1, b.2 ++
          [(b.1.send mlen).2]) else b
      (b.print (findChannelStatus ms.flags (s.multiPrefix client_p)) name, sent)

/-- The loop over the two lists of members. -/
def loop (c : Str) (ch : Chan) : NamesBuf × List Str :=
  let front := s.front client_p ch
  [MemberList.op, .noop].foldl
    (fun b i => (walk s.w.channode s.w.fresh (ch.members i).head).foldl
      (s.turn client_p front.length (s.isMember client_p c)) b)
    (⟨front ++ ['\x00'], front.length, front.length⟩, [])

/-- The lines that name members. -/
def lines (c : Str) (ch : Chan) : List Str :=
  if s.showChannel client_p c ch then
    let mlen := (s.front client_p ch).length
    let (b, sent) := s.loop client_p c ch
    if b.curLen ≠ mlen then sent ++ [(b.send mlen).2] else sent
  else []

/-- `channel_member_names`, for the channel with the key `c`. -/
def channelMemberNames (c : Str) (ch : Chan) (showEon : Bool) : List NamesOut :=
  (s.lines client_p c ch).map .namReply ++ if showEon then [.endOfNames ch.chname] else []

end Namer

/-! ### Who is named -/

namespace Namer

variable (s : Namer) (client_p : ℕ)

/-- **A member that the client may see**: the channel is not hidden from it, and the member is not
invisible to it. -/
def Sees (c : Str) (ch : Chan) (ms : Membership) : Prop :=
  (∃ m, s.w.mem m = some ms) ∧ ms.chptr = c ∧
    (pubChannel ch = true ∨ ∃ m, IsMember s.w c client_p m) ∧
      (s.invisible ms.client_p = false ∨ ∃ m, IsMember s.w c client_p m)

/-- A member as it is named: its status and its name. -/
def word (ms : Membership) : Str :=
  findChannelStatus ms.flags (s.multiPrefix client_p) ++ (s.w.client ms.client_p).name

/-- The line that names some members. -/
def line (ch : Chan) (members : List Membership) : Str :=
  s.front client_p ch ++ [' '].intercalate (members.map (s.word client_p))

/-- The memberships of the channel, in the order of the loop. -/
def memberships (ch : Chan) : List Membership :=
  (walk s.w.channode s.w.fresh (ch.members .op).head ++ walk s.w.channode s.w.fresh
    (ch.members .noop).head).filterMap s.w.mem

/-- Those that are shown in the loop. -/
def shown (c : Str) (ch : Chan) : List Membership :=
  (s.memberships ch).filter fun ms => !(s.invisible ms.client_p && !s.isMember client_p c)

/-- A line has room for a member. -/
def room (ch : Chan) (members : List Membership) (ms : Membership) : Bool :=
  !decide (((s.front client_p ch).length + (Text.spaced (members.map (s.word client_p))).length) +
    (s.w.client ms.client_p).name.length + 3 ≥ ircdBufsize - 3)

end Namer

section Names

variable {s : Namer} {client_p : ℕ} {c : Str} {ch : Chan} {ms : Membership}
  {b : NamesBuf × List Str} {l : List (List Membership) × List Membership}

theorem length_findChannelStatus_le (flags : MemberFlags) (combine : Bool) :
    (findChannelStatus flags combine).length ≤ 2 := by
  obtain ⟨chanop, voice, deopped⟩ := flags
  cases chanop <;> cases voice <;> cases combine <;> simp [findChannelStatus]

theorem not_mem_findChannelStatus (flags : MemberFlags) (combine : Bool) :
    '\x00' ∉ findChannelStatus flags combine := by
  rw [findChannelStatus]
  split_ifs <;> simp

theorem channelPubOrSecret_cases (ch : Chan) : channelPubOrSecret ch ∈ [['='], ['@'], ['*']] := by
  rw [channelPubOrSecret]
  split_ifs <;> simp

/-- The front leaves room for a name. -/
theorem length_front_le (hch : s.w.chan c = some ch) (client_p : ℕ) :
    (s.front client_p ch).length ≤ 337 := by
  have hme := s.me_inArray.length_le
  have hname := (s.name_inArray client_p).length_le
  have hchname := (s.chname_inArray c ch hch).length_le
  have hkind : (channelPubOrSecret ch).length = 1 := by
    have hcases := channelPubOrSecret_cases ch
    simp only [mem_cons, not_mem_nil, or_false] at hcases
    rcases hcases with h | h | h <;> rw [h] <;> rfl
  rw [hostLen] at hme hname
  rw [channelLen] at hchname
  have hnum : " 353 ".toList.length = 5 := by decide
  have hcolon : " :".toList.length = 2 := by decide
  rw [Namer.front]
  simp only [length_append, length_cons]
  omega

theorem not_mem_front (hch : s.w.chan c = some ch) : '\x00' ∉ s.front client_p ch := by
  have hme := s.me_inArray.nul
  have hname := (s.name_inArray client_p).nul
  have hchname := (s.chname_inArray c ch hch).nul
  have hkind : '\x00' ∉ channelPubOrSecret ch := by
    have hcases := channelPubOrSecret_cases ch
    simp only [mem_cons, not_mem_nil, or_false] at hcases
    rcases hcases with h | h | h <;> rw [h] <;> decide
  simp [Namer.front, hme, hname, hchname, hkind]

theorem not_mem_word (ms : Membership) : '\x00' ∉ s.word client_p ms := by
  rw [Namer.word, mem_append, not_or]
  exact ⟨not_mem_findChannelStatus _ _, (s.name_inArray _).nul⟩

/-- A line without names has room for each. -/
theorem room_nil (hch : s.w.chan c = some ch) (ms : Membership) :
    s.room client_p ch [] ms = true := by
  have hfront := length_front_le hch client_p
  have hname := (s.name_inArray ms.client_p).length_le
  rw [hostLen] at hname
  rw [Namer.room, map_nil, spaced_nil, length_nil, Bool.not_eq_true', decide_eq_false_iff_not,
    ircdBufsize]
  omega

variable {members : List Membership}

/-- A line with a member that it had room for. -/
theorem length_line_le (hroom : s.room client_p ch members ms = true) :
    (s.front client_p ch).length + (Text.spaced ((members ++ [ms]).map (s.word client_p))).length +
    3 < ircdBufsize := by
  have hstatus := length_findChannelStatus_le ms.flags (s.multiPrefix client_p)
  rw [Namer.room, Bool.not_eq_true', decide_eq_false_iff_not] at hroom
  rw [map_append, spaced_append, length_append, map_singleton, spaced_cons, spaced_nil,
    length_append, length_singleton, Namer.word, length_append]
  rw [ircdBufsize] at hroom ⊢
  omega

/-! ### The loop -/

/-- The buffer has a line, and the others have been sent. -/
structure Prints (s : Namer) (client_p : ℕ) (ch : Chan) (b : NamesBuf × List Str)
    (l : List (List Membership) × List Membership) : Prop where
  curLen : b.1.curLen = (s.front client_p ch).length +
    (Text.spaced (l.2.map (s.word client_p))).length
  t : b.1.t = b.1.curLen
  lbuf : ∃ rest, b.1.lbuf = s.front client_p ch ++ Text.spaced (l.2.map (s.word client_p)) ++ rest
  sent : b.2 = l.1.map (s.line client_p ch)

theorem prints_start (s : Namer) (client_p : ℕ) (ch : Chan) : Prints s client_p ch
    (⟨s.front client_p ch ++ ['\x00'], (s.front client_p ch).length, (s.front client_p ch).length⟩,
      []) ([], []) :=
  ⟨rfl, rfl, ⟨['\x00'], by rw [map_nil, spaced_nil, append_nil]⟩, rfl⟩

section

variable (h : Prints s client_p ch b l)
include h

/-- **A line is sent** with its last space cut off. -/
theorem Prints.send (hch : s.w.chan c = some ch) (hne : l.2 ≠ []) :
    (b.1.send (s.front client_p ch).length).2 = s.line client_p ch l.2 ∧
      Prints s client_p ch ((b.1.send (s.front client_p ch).length).1, b.2 ++
        [(b.1.send (s.front client_p ch).length).2]) (l.1 ++ [l.2], []) := by
  obtain ⟨rest, hbuf⟩ := h.lbuf
  have hnames : l.2.map (s.word client_p) ≠ [] := mt map_eq_nil_iff.mp hne
  have hspaced := spaced_eq_intercalate hnames
  have hline : s.front client_p ch ++ [' '].intercalate (l.2.map (s.word client_p)) =
    s.line client_p ch l.2 := rfl
  have hlast : b.1.t - 1 = (s.line client_p ch l.2).length := by
    rw [h.t, h.curLen, hspaced, ← hline, length_append, length_append, length_singleton]
    omega
  have hsend : overwrite b.1.lbuf (b.1.t - 1) ['\x00'] = s.line client_p ch l.2 ++ '\x00' ::
      rest := by
    rw [hbuf, hspaced, ← append_assoc, hline, append_assoc _ [' '] rest, hlast, overwrite_append,
      append_assoc]
    rfl
  have hnul : '\x00' ∉ s.line client_p ch l.2 := by
    intro hmem
    rcases mem_append.mp hmem with hmem | hmem
    · exact not_mem_front hch hmem
    · have hword : '\x00' ∈ Text.spaced (l.2.map (s.word client_p)) :=
        hspaced ▸ mem_append_left _ hmem
      obtain ⟨word, hword, hc⟩ := mem_flatMap.mp hword
      obtain ⟨ms, -, rfl⟩ := mem_map.mp hword
      rcases mem_append.mp hc with hc | hc
      · exact not_mem_word ms hc
      · cases mem_singleton.mp hc
  have htext : (b.1.send (s.front client_p ch).length).2 = s.line client_p ch l.2 :=
    (congrArg cstr hsend).trans (cstr_append hnul rest)
  refine ⟨htext, rfl, rfl, ⟨[' '].intercalate (l.2.map (s.word client_p)) ++ '\x00' :: rest, ?_⟩,
    ?_⟩
  · rw [map_nil, spaced_nil, append_nil, ← append_assoc, hline]
    exact hsend
  · rw [htext, h.sent, map_append, map_singleton]

/-- **A name is printed.** -/
theorem Prints.print (ms : Membership) :
    Prints s client_p ch (b.1.print (findChannelStatus ms.flags (s.multiPrefix client_p))
      (s.w.client ms.client_p).name, b.2) (l.1, l.2 ++ [ms]) := by
  obtain ⟨rest, hbuf⟩ := h.lbuf
  have hspaced : Text.spaced ((l.2 ++ [ms]).map (s.word client_p)) =
      Text.spaced (l.2.map (s.word client_p)) ++ (s.word client_p ms ++ [' ']) := by
    rw [map_append, spaced_append, map_singleton, spaced_cons, spaced_nil]
  have htlen : (findChannelStatus ms.flags (s.multiPrefix client_p)).length +
      (s.w.client ms.client_p).name.length + 1 = (s.word client_p ms ++ [' ']).length := by
    rw [length_append, length_singleton, Namer.word, length_append]
  refine ⟨?_, ?_, ⟨'\x00' :: rest.drop ((s.word client_p ms ++ [' ', '\x00']).length), ?_⟩, h.sent⟩
  · rw [NamesBuf.print]
    dsimp only
    rw [htlen, h.curLen, hspaced]
    simp only [length_append]
    omega
  · rw [NamesBuf.print]
    dsimp only
    rw [h.t]
  · have ht : b.1.t = (s.front client_p ch ++ Text.spaced (l.2.map (s.word client_p))).length := by
      rw [h.t, h.curLen, length_append]
    have hprint : (b.1.print (findChannelStatus ms.flags (s.multiPrefix client_p))
        (s.w.client ms.client_p).name).lbuf = overwrite b.1.lbuf b.1.t (s.word client_p ms ++
          [' ', '\x00']) := rfl
    rw [hprint, hbuf, ht, overwrite_append, hspaced]
    simp

/-- **A turn of the loop** puts a member that is shown on the line. -/
theorem Prints.turn (hch : s.w.chan c = some ch) {m : ℕ} (hms : s.w.mem m = some ms)
    (isMember : Bool) : Prints s client_p ch
      (s.turn client_p (s.front client_p ch).length isMember b m)
      (if s.invisible ms.client_p && !isMember then l else Packing.put (s.room client_p ch) l
        ms) := by
  rw [Namer.turn, hms]
  dsimp only
  by_cases hinvisible : (s.invisible ms.client_p && !isMember) = true
  · rw [if_pos hinvisible, if_pos hinvisible]
    exact h
  rw [if_neg hinvisible, if_neg hinvisible, Packing.put]
  have hroom : s.room client_p ch l.2 ms = true ↔
      ¬b.1.curLen + (s.w.client ms.client_p).name.length + 3 ≥ ircdBufsize - 3 := by
    rw [Namer.room, Bool.not_eq_true', decide_eq_false_iff_not, h.curLen]
  by_cases hfull : b.1.curLen + (s.w.client ms.client_p).name.length + 3 ≥ ircdBufsize - 3
  · have hnot : ¬s.room client_p ch l.2 ms = true := fun hyes => hroom.mp hyes hfull
    have hne : l.2 ≠ [] := fun hnil => hnot (hnil ▸ room_nil hch ms)
    rw [if_pos hfull, if_neg hnot]
    exact (h.send hch hne).2.print ms
  · rw [if_neg hfull, if_pos (hroom.mpr hfull)]
    exact h.print ms

/-- A walk puts the members that it meets and that are shown on lines. -/
theorem Prints.walk (hch : s.w.chan c = some ch) (isMember : Bool) {ids : List ℕ}
    (hids : ∀ m ∈ ids, ∃ ms, s.w.mem m = some ms) :
    Prints s client_p ch (ids.foldl (s.turn client_p (s.front client_p ch).length isMember) b)
      (((ids.filterMap s.w.mem).filter fun ms => !(s.invisible ms.client_p && !isMember)).foldl
        (Packing.put (s.room client_p ch)) l) := by
  induction ids generalizing b l with
  | nil => exact h
  | cons m ids ih =>
    obtain ⟨⟨ms, hms⟩, hids⟩ := forall_mem_cons.mp hids
    have hturn := h.turn hch hms isMember
    rw [foldl_cons, filterMap_cons_some hms, filter_cons]
    cases hinvisible : s.invisible ms.client_p && !isMember with
    | true =>
      rw [hinvisible, if_pos rfl] at hturn
      exact ih hturn hids
    | false =>
      rw [hinvisible, if_neg Bool.false_ne_true] at hturn
      rw [Bool.not_false, if_pos rfl, foldl_cons]
      exact ih hturn hids

end

/-- **The loop** puts the members that are shown on lines. -/
theorem prints_loop (hw : Listed s.w) (hch : s.w.chan c = some ch) (client_p : ℕ) :
    Prints s client_p ch (s.loop client_p c ch)
    ((s.shown client_p c ch).foldl (Packing.put (s.room client_p ch)) ([], [])) := by
  have hids : ∀ k, ∀ m ∈ Dlink.walk s.w.channode s.w.fresh (ch.members k).head, ∃ ms,
      s.w.mem m = some ms := by
    intro k m hm
    obtain ⟨ms, hms, -⟩ := ((hw.walk_members hch k).2 m).mp hm
    exact ⟨ms, hms⟩
  have hop := (prints_start s client_p ch).walk hch (s.isMember client_p c) (hids .op)
  have hnoop := hop.walk hch (s.isMember client_p c) (hids .noop)
  rw [Namer.shown, Namer.memberships, filterMap_append, filter_append, foldl_append]
  exact hnoop

/-! ### The lines -/

/-- The members that each line names. -/
def Namer.chunks (s : Namer) (client_p : ℕ) (c : Str) (ch : Chan) : List (List Membership) :=
  if s.showChannel client_p c ch && !(s.shown client_p c ch).isEmpty then
    Packing.pack (s.room client_p ch) (s.shown client_p c ch)
  else []

section

variable (hw : Listed s.w)
include hw

theorem lines_eq (hch : s.w.chan c = some ch) :
    s.lines client_p c ch = (s.chunks client_p c ch).map (s.line client_p ch) := by
  have hloop := prints_loop hw hch client_p
  rw [Namer.lines, Namer.chunks]
  cases s.showChannel client_p c ch with
  | false => rfl
  | true =>
    rw [if_pos rfl, Bool.true_and]
    cases hshown : s.shown client_p c ch with
    | nil =>
      rw [hshown, foldl_nil] at hloop
      have hcur : (s.loop client_p c ch).1.curLen = (s.front client_p ch).length := by
        rw [hloop.curLen, map_nil, spaced_nil, length_nil, Nat.add_zero]
      dsimp only
      rw [if_neg (not_not_intro hcur), hloop.sent]
      rfl
    | cons ms members =>
      rw [hshown] at hloop
      have hlast : ((ms :: members).foldl (Packing.put (s.room client_p ch)) ([], [])).2 ≠ [] :=
        Packing.foldl_put_ne_nil (cons_ne_nil ms members) _
      have hcur : (s.loop client_p c ch).1.curLen ≠ (s.front client_p ch).length := by
        obtain ⟨word, words, hwords⟩ := exists_cons_of_ne_nil (mt map_eq_nil_iff.mp hlast)
        rw [hloop.curLen, hwords, spaced_cons, length_append, length_cons]
        omega
      dsimp only
      rw [if_pos hcur, (hloop.send hch hlast).1, hloop.sent, isEmpty_cons, Bool.not_false,
        if_pos rfl, Packing.pack, map_append, map_singleton]

theorem mem_memberships_iff (hch : s.w.chan c = some ch) (ms : Membership) :
    ms ∈ s.memberships ch ↔ (∃ m, s.w.mem m = some ms) ∧ ms.chptr = c := by
  have hwalk := fun k => (hw.walk_members hch k).2
  simp only [Namer.memberships, mem_filterMap, mem_append, hwalk]
  constructor
  · rintro ⟨m, ⟨ms', hms', hc, -⟩ | ⟨ms', hms', hc, -⟩, hms⟩ <;>
    · obtain rfl : ms' = ms := Option.some.inj (hms'.symm.trans hms)
      exact ⟨⟨m, hms⟩, hc⟩
  · rintro ⟨⟨m, hms⟩, hc⟩
    refine ⟨m, ?_, hms⟩
    cases hk : memlist ms.flags with
    | op => exact .inl ⟨ms, hms, hc, hk⟩
    | noop => exact .inr ⟨ms, hms, hc, hk⟩

/-- No client is named twice. -/
theorem nodup_memberships (hch : s.w.chan c = some ch) :
    ((s.memberships ch).map Membership.client_p).Nodup := by
  have hwalk := hw.walk_members hch
  have hids : (Dlink.walk s.w.channode s.w.fresh (ch.members .op).head ++
      Dlink.walk s.w.channode s.w.fresh (ch.members .noop).head).Nodup := by
    refine (hwalk .op).1.append (hwalk .noop).1 ?_
    intro m hop hnoop
    exact absurd ((((hwalk .op).2 m).mp hop).ne (((hwalk .noop).2 m).mp hnoop)).2 (by decide)
  have hmemberships : (s.memberships ch).Nodup := by
    refine Nodup.filterMap ?_ hids
    intro m m' ms hms hms'
    exact hw.isMember_unique ⟨ms, hms, rfl, rfl⟩ ⟨ms, hms', rfl, rfl⟩
  refine hmemberships.map_on ?_
  intro ms hms ms' hms' hclient
  obtain ⟨⟨m, hm⟩, hc⟩ := (mem_memberships_iff hw hch ms).mp hms
  obtain ⟨⟨m', hm'⟩, hc'⟩ := (mem_memberships_iff hw hch ms').mp hms'
  obtain rfl := hw.isMember_unique ⟨ms, hm, hc, rfl⟩ ⟨ms', hm', hc', hclient.symm⟩
  exact Option.some.inj (hm.symm.trans hm')

/-- `IsMember` finds whether the client is a member. -/
theorem isMember_iff (hclient : (s.w.client client_p).kind.isClient = true) :
    s.isMember client_p c = true ↔ ∃ m, IsMember s.w c client_p m := by
  rw [Namer.isMember, Option.isSome_iff_exists]
  exact exists_congr fun m => hw.findChannelMembership_eq_some_iff hclient m

/-- **Those who are named** are the members that the client may see. -/
theorem mem_chunks_iff (hch : s.w.chan c = some ch)
    (hclient : (s.w.client client_p).kind.isClient = true) (ms : Membership) :
    ms ∈ (s.chunks client_p c ch).flatten ↔ s.Sees client_p c ch ms := by
  have hshown : ms ∈ s.shown client_p c ch ↔ ((∃ m, s.w.mem m = some ms) ∧ ms.chptr = c) ∧
      (s.invisible ms.client_p = false ∨ ∃ m, IsMember s.w c client_p m) := by
    rw [Namer.shown, mem_filter, mem_memberships_iff hw hch, ← isMember_iff hw hclient]
    cases s.invisible ms.client_p <;> cases s.isMember client_p c <;> simp
  have hshow : s.showChannel client_p c ch = true ↔ pubChannel ch = true ∨
      ∃ m, IsMember s.w c client_p m := by
    rw [Namer.showChannel, Bool.or_eq_true, isMember_iff hw hclient]
  have hflatten : ms ∈ (s.chunks client_p c ch).flatten ↔
      s.showChannel client_p c ch = true ∧ ms ∈ s.shown client_p c ch := by
    rw [Namer.chunks]
    generalize s.shown client_p c ch = members
    cases s.showChannel client_p c ch with
    | false => simp
    | true => cases members with
      | nil => simp
      | cons first members =>
        rw [isEmpty_cons, Bool.not_false, Bool.and_self, if_pos rfl, Packing.flatten_pack]
        exact (and_iff_right rfl).symm
  rw [hflatten, hshow, hshown, Namer.Sees]
  constructor
  · rintro ⟨hpub, ⟨hmem, hc⟩, hvisible⟩
    exact ⟨hmem, hc, hpub, hvisible⟩
  · rintro ⟨hmem, hc, hpub, hvisible⟩
    exact ⟨hpub, ⟨hmem, hc⟩, hvisible⟩

end

theorem chunks_sublist (s : Namer) (client_p : ℕ) (c : Str) (ch : Chan) :
    (s.chunks client_p c ch).flatten.Sublist (s.memberships ch) := by
  rw [Namer.chunks]
  split_ifs
  · rw [Packing.flatten_pack]
    exact filter_sublist
  · exact nil_sublist _

/-- **No line is too long.** -/
theorem length_line_lt (hch : s.w.chan c = some ch) (h : members ∈ s.chunks client_p c ch) :
    members ≠ [] ∧ (s.line client_p ch members).length + 2 < ircdBufsize := by
  rw [Namer.chunks] at h
  split_ifs at h with hshow
  · have hne : s.shown client_p c ch ≠ [] := by
      intro hnil
      rw [hnil] at hshow
      simp at hshow
    refine Packing.forall_pack (P := fun l => l ≠ [] ∧ (s.line client_p ch l).length +
      2 < ircdBufsize) hne (fun ms _ => room_nil hch ms) ?_ members h
    intro l ms _ hroom
    refine ⟨concat_ne_nil ms l, ?_⟩
    have hlength := length_line_le hroom
    rw [spaced_eq_intercalate (mt map_eq_nil_iff.mp (concat_ne_nil ms l)), length_append] at hlength
    rw [Namer.line, length_append]
    omega
  · exact absurd h not_mem_nil

/-- **A client is told the members of a channel that it may see**, each once and behind its status,
on lines that are not cut. -/
theorem names_shown (hw : Listed s.w) (hch : s.w.chan c = some ch)
    (hclient : (s.w.client client_p).kind.isClient = true) (showEon : Bool) :
    ∃ chunks : List (List Membership),
      s.channelMemberNames client_p c ch showEon =
        chunks.map (fun members =>
          .namReply (s.front client_p ch ++ [' '].intercalate (members.map fun ms =>
          findChannelStatus ms.flags (s.multiPrefix client_p) ++ (s.w.client ms.client_p).name))) ++
          (if showEon then [.endOfNames ch.chname] else []) ∧
      (chunks.flatten.map Membership.client_p).Nodup ∧
      (∀ ms, ms ∈ chunks.flatten ↔ s.Sees client_p c ch ms) ∧
      ∀ line, NamesOut.namReply line ∈ s.channelMemberNames client_p c ch showEon →
      line.length ≤ 510 := by
  have hlines : s.channelMemberNames client_p c ch showEon =
      (s.chunks client_p c ch).map (fun members => .namReply (s.line client_p ch members)) ++
        (if showEon then [.endOfNames ch.chname] else []) := by
    rw [Namer.channelMemberNames, lines_eq hw hch, map_map]
    rfl
  refine ⟨s.chunks client_p c ch, hlines, ?_, mem_chunks_iff hw hch hclient, ?_⟩
  · exact (nodup_memberships hw hch).sublist ((chunks_sublist s client_p c ch).map _)
  · intro line hline
    rw [hlines, mem_append] at hline
    rcases hline with hline | hline
    · obtain ⟨members, hmembers, heq⟩ := mem_map.mp hline
      obtain rfl := NamesOut.namReply.inj heq
      have hlt := (length_line_lt hch hmembers).2
      rw [ircdBufsize] at hlt
      omega
    · split_ifs at hline
      · simp at hline
      · exact absurd hline not_mem_nil

end Names

/-- Who joins keeps its name, and so do the others. -/
theorem name_addUserToChannel (w : World) (c : Str) (u : ℕ) (flags : MemberFlags) (v : ℕ) :
    ((addUserToChannel w c u flags).client v).name = (w.client v).name := by
  cases hch : w.chan c with
  | none => rw [addUserToChannel, hch]
  | some ch =>
    rw [addUserToChannel_eq hch]
    by_cases hv : v = u
    · subst hv
      dsimp only
      rw [update_self]
    · dsimp only
      rw [update_of_ne hv]

/-- Who joins a channel leaves the names of the channels. -/
theorem chname_addUserToChannel {w : World} {c c' : Str} {u : ℕ} {flags : MemberFlags} {ch : Chan}
    (hch : (addUserToChannel w c u flags).chan c' = some ch) :
    ∃ ch', w.chan c' = some ch' ∧ ch.chname = ch'.chname := by
  cases hold : w.chan c with
  | none =>
    rw [addUserToChannel, hold] at hch
    exact ⟨ch, hch, rfl⟩
  | some old =>
    rw [addUserToChannel_eq hold] at hch
    by_cases hc : c' = c
    · subst hc
      dsimp only at hch
      rw [update_self] at hch
      cases hch
      exact ⟨old, hold, rfl⟩
    · dsimp only at hch
      rw [update_of_ne hc] at hch
      exact ⟨ch, hch, rfl⟩

/-- An operator and another member, who has a voice. -/
def opAndVoice : World :=
  addUserToChannel
    (addUserToChannel ((World.init behindServer).setChan ['#'] (.fresh ['#'] 5)) ['#'] 1 ⟨true,
      true, false⟩) ['#'] 2
    ⟨false, true, false⟩

/-- A server on which the names of its members are asked for. -/
def namesAsked : Namer where
  w := opAndVoice
  me := ['m']
  invisible u := u == 2
  multiPrefix _ := true
  me_inArray := ⟨by decide, by decide⟩
  name_inArray u := by
    rw [opAndVoice, name_addUserToChannel, name_addUserToChannel]
    change InArray _ (if u = 1 then ['a'] else ['b'])
    split_ifs
    · exact ⟨by decide, by decide⟩
    · exact ⟨by decide, by decide⟩
  chname_inArray c ch hch := by
    obtain ⟨ch', hch', hname'⟩ := chname_addUserToChannel hch
    obtain ⟨ch₀, hch₀, hname₀⟩ := chname_addUserToChannel hch'
    by_cases hc : c = ['#']
    · subst hc
      cases hch₀
      rw [hname', hname₀]
      exact ⟨by decide, by decide⟩
    · have hnone : (World.setChan (World.init behindServer) ['#'] (.fresh ['#'] 5)).chan c = none :=
        update_of_ne hc _ _
      cases hnone.symm.trans hch₀

theorem names_shown_opAndVoice : ∃ ch, opAndVoice.chan ['#'] = some ch ∧
    ∃ chunks : List (List Membership),
      namesAsked.channelMemberNames 1 ['#'] ch true =
        chunks.map (fun members =>
          .namReply (namesAsked.front 1 ch ++ [' '].intercalate (members.map fun ms =>
          findChannelStatus ms.flags true ++ (opAndVoice.client ms.client_p).name))) ++
          [.endOfNames ch.chname] ∧
      (chunks.flatten.map Membership.client_p).Nodup ∧
      (∀ ms, ms ∈ chunks.flatten ↔ namesAsked.Sees 1 ['#'] ch ms) ∧
      ∀ line, NamesOut.namReply line ∈ namesAsked.channelMemberNames 1 ['#'] ch true →
      line.length ≤ 510 := by
  have hrun : run step (World.init behindServer)
      [.join ['#'] 5 1 ⟨true, true, false⟩, .join ['#'] 5 2 ⟨false, true, false⟩] = some
          opAndVoice := by
    rfl
  exact ⟨_, rfl, names_shown (listed_of_run behindServer hrun) rfl rfl true⟩

example : (opAndVoice.chan ['#']).map (fun ch => namesAsked.channelMemberNames 1 ['#'] ch true) =
    some [.namReply ":m 353 a = # :@+a +b".toList, .endOfNames ['#']] := by
  decide

end Ratbox.Channel
