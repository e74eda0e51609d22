import Ratbox.Channel.BurstMasks

/-!
# The lines of a burst are read

A line with `SJOIN` is taken apart into the time, the name and the modes of the channel and the
words for its members, and these are read as what they were written for; a line with `BMASK` into
the time, the name, the character of the list and the masks.

Source: `modules/core/m_server.c`, lines 847–893 and 1079–1134, `modules/core/m_join.c`, lines
490–565, and `modules/core/m_mode.c`, lines 252–345.

## Main definitions

* `Burst.Sendable`: a channel that is sent, and the words for its members.

## Main results

* `Burst.Sendable.parse_sjoin`, `Burst.Sendable.parse_bmask`: a line is taken apart.
* `Burst.Sendable.readSjoin`: the time, the name and the modes are read back.
* `Burst.Sendable.fits`, `Burst.Sendable.fits_mask`: a line has room in its buffer.
* `Burst.Sendable.bmask`: the masks are put on their list.
-/

namespace Ratbox.Burst

open Text Channel List Option
open Banlist (ModeType banLen modebufLen)

/-! ### The words in front -/

section Modes

variable {m : Mode}

theorem channelModes_ne_nil (services : Bool) (m : Mode) (shown : Bool) :
    channelModes services m shown ≠ [] := by
  rw [channelModes]
  split_ifs <;> simp

theorem space_lettersOf (services : Bool) (flags : BitVec 32) :
    ' ' ∉ lettersOf (modeLetters services) flags := by
  have hall : ∀ p ∈ modeLetters services, p.1 ≠ ' ' := by cases services <;> decide
  intro hmem
  obtain ⟨⟨c, flag⟩, hp, heq⟩ := mem_filterMap.mp hmem
  dsimp only at heq
  split_ifs at heq
  exact hall _ hp (some.inj heq)

theorem length_lettersOf_le (services : Bool) (flags : BitVec 32) :
    (lettersOf (modeLetters services) flags).length ≤ 8 :=
  (length_filterMap_le _ _).trans (by cases services <;> decide)

/-- A word of letters. -/
theorem word_letters {s : Str} (hs : ' ' ∉ s) : Word ('+' :: s) :=
  ⟨cons_ne_nil _ _, fun hmem => (mem_cons.mp hmem).elim (by decide) hs, by simp⟩

/-- **The modes are words.** -/
theorem word_of_channelModes (services : Bool) (hkey : m.key = [] ∨ Word m.key) :
    (∀ word ∈ channelModes services m true, Word word) ∧ (channelModes services m true).length ≤
    3 := by
  have hspace := space_lettersOf services m.mode
  have hword : ∀ s : Str, ' ' ∉ s → Word ('+' :: lettersOf (modeLetters services) m.mode ++
      s) := fun s hs =>
    word_letters fun hmem => (mem_append.mp hmem).elim hspace hs
  have hlimit := word_decimal m.limit
  simp only [channelModes, ↓reduceIte]
  split_ifs with hboth honly hkeyonly
  · have hk := hkey.resolve_left hboth.2
    refine ⟨?_, le_rfl⟩
    rintro word (_ | ⟨_, _ | ⟨_, _ | ⟨_, ⟨⟩⟩⟩⟩)
    · exact hword ['l', 'k'] (by decide)
    · exact hlimit
    · exact hk
  · refine ⟨?_, by simp⟩
    rintro word (_ | ⟨_, _ | ⟨_, ⟨⟩⟩⟩)
    · exact hword ['l'] (by decide)
    · exact hlimit
  · have hk := hkey.resolve_left hkeyonly
    refine ⟨?_, by simp⟩
    rintro word (_ | ⟨_, _ | ⟨_, ⟨⟩⟩⟩)
    · exact hword ['k'] (by decide)
    · exact hk
  · refine ⟨?_, by simp⟩
    rintro word (_ | ⟨_, ⟨⟩⟩)
    exact word_letters hspace

/-- They have room. -/
theorem length_channelModes_le (services : Bool) (m : Mode) :
    ([' '].intercalate (channelModes services m true)).length ≤ 60 := by
  have hletters := length_lettersOf_le services m.mode
  have hlimit : (decimal m.limit).length ≤ 20 := length_decimal_le (by have := m.limit_int; omega)
  have hkey := m.key_lt
  rw [keyLen] at hkey
  simp only [channelModes, ↓reduceIte]
  split_ifs <;>
    simp only [intercalate_cons_of_ne_nil, intercalate_singleton, ne_eq, reduceCtorEq,
      not_false_eq_true, length_append, length_cons, length_nil] <;>
    omega

end Modes

/-! ### Channels that are sent -/

/-- The word that a client is sent as: it is found again behind its status. -/
structure IsName (s : Str) : Prop where
  ne_nil : s ≠ []
  space : ' ' ∉ s
  at_sign : s.head? ≠ some '@'
  plus : s.head? ≠ some '+'
  lt : s.length < nickLen

/-- **A channel that is sent**: its modes have letters and its limit is not negative; the name, the
key and the ids of the members are such that they can stand on a line. -/
structure Sendable (services : Bool) (id : Str) (w : World) (c : Str) (ch : Chan) : Prop where
  linked : Linked w
  chan : w.chan c = some ch
  count : chanMemberCount ch ≠ 0
  hash : ch.chname.head? = some '#'
  chname : checkChannelName ch.chname = true
  chname_lt : ch.chname.length < channelLen
  ts : -2 ^ 63 ≤ ch.channelts ∧ ch.channelts < 2 ^ 63
  lettered : ch.mode.lettered services = ch.mode
  limit : 0 ≤ ch.mode.limit
  key : ch.mode.key = [] ∨ Word ch.mode.key
  id_ne : id ≠ []
  id_space : ' ' ∉ id
  id_lt : id.length < idLen
  names : ∀ ms ∈ memberships w c, IsName (w.client ms.client_p).useId

variable {services : Bool} {id c : Str} {w : World} {ch : Chan} {flag : Char} {ws : List Str}

theorem Sendable.word_chname (h : Sendable services id w c ch) : Word ch.chname where
  ne_nil hnil := by
    have hhash := h.hash
    rw [hnil] at hhash
    cases hhash
  space hmem := absurd (all_eq_true.mp h.chname ' ' hmem) (by decide)
  colon := by
    rw [h.hash]
    decide

/-- The words for the members have no spaces. -/
theorem Sendable.memberWord (h : Sendable services id w c ch) {word : Str}
    (hword : word ∈ (memberships w c).map (memberWord w.client)) :
    word ≠ [] ∧ ' ' ∉ word ∧ word.length < nickLen + 2 := by
  obtain ⟨ms, hms, rfl⟩ := mem_map.mp hword
  have hname := h.names ms hms
  have hstatus : ' ' ∉ statusPrefix ms.flags ∧ (statusPrefix ms.flags).length ≤ 2 := by
    rw [statusPrefix]
    cases ms.flags.chanop <;> cases ms.flags.voice <;> decide
  have hlt := hname.lt
  refine ⟨append_ne_nil_of_right_ne_nil _ hname.ne_nil, fun hmem => ?_, ?_⟩
  · exact (mem_append.mp hmem).elim hstatus.1 hname.space
  · rw [Burst.memberWord, length_append]
    omega

/-! ### Lines with members -/

/-- The parameters of a line with `SJOIN`, but for the last one. -/
def sjoinPara (services : Bool) (ch : Chan) : List Str :=
  decimal ch.channelts :: ch.chname :: channelModes services ch.mode true

theorem sjoinFront_append (services : Bool) (id : Str) (ch : Chan) (s : Str) :
    sjoinFront services id ch ++ s = ':' :: (id ++ ' ' :: ("SJOIN".toList ++
      ' ' :: (Text.spaced (sjoinPara services ch) ++ ':' :: s))) := by
  have hmodes := front_eq (channelModes services ch.mode true) s (channelModes_ne_nil _ _ _)
  have hsjoin : " SJOIN ".toList = ' ' :: ("SJOIN".toList ++ [' ']) := rfl
  rw [sjoinPara, spaced_cons, spaced_cons, sjoinFront, hsjoin]
  simp only [append_assoc, cons_append, nil_append] at hmodes ⊢
  rw [hmodes]

/-- **A line with members is taken apart.** -/
theorem Sendable.parse_sjoin (h : Sendable services id w c ch) (hws : ws ≠ []) :
    parse (lineOf (sjoinFront services id ch) ws) =
      some (some id, "SJOIN".toList, sjoinPara services ch ++ [[' '].intercalate ws]) := by
  obtain ⟨hmodes, hlen⟩ := word_of_channelModes services h.key
  rw [lineOf_eq hws, sjoinFront_append]
  refine parse_message h.id_space (by decide) (fun word hword => ?_) ?_
  · obtain rfl | hword := mem_cons.mp hword
    · exact word_decimal _
    · obtain rfl | hword := mem_cons.mp hword
      · exact h.word_chname
      · exact hmodes word hword
  · rw [sjoinPara, length_cons, length_cons, maxpara]
    omega

/-- What a line with members says. -/
def sjoinMsg (services : Bool) (ch : Chan) (nicks : Str) : Sjoin :=
  ⟨ch.channelts, ch.chname, (channelModes services ch.mode true).headI, ch.mode, nicks⟩

/-- **The time, the name and the modes are read back.** -/
theorem Sendable.readSjoin (h : Sendable services id w c ch) (source nicks : Str) (hne : nicks ≠ [])
    (hhead : nicks.head? ≠ some ' ') :
    Channel.readSjoin services (source :: (sjoinPara services ch ++ [nicks])) =
    some (sjoinMsg services ch nicks) := by
  obtain ⟨letters, args, hmodes, hread⟩ := readModes_channelModes services ch.mode nicks
  obtain ⟨hwords, -⟩ := word_of_channelModes services h.key
  rw [h.lettered] at hread
  have harg : ∃ arg rest, args ++ [nicks] = arg :: rest ∧ arg ≠ [] := by
    cases args with
    | nil => exact ⟨nicks, [], rfl, hne⟩
    | cons arg args => exact ⟨arg, args ++ [nicks], rfl, (hwords arg (by rw [hmodes]; simp)).ne_nil⟩
  obtain ⟨arg, rest, hargs, hargne⟩ := harg
  rw [hargs] at hread
  have hname : isChannelName ch.chname = true := by
    rw [isChannelName, h.hash]
    rfl
  have hlocal : ch.chname.head? ≠ some '&' := by
    rw [h.hash]
    decide
  rw [sjoinPara, hmodes, cons_append, cons_append, cons_append, hargs, Channel.readSjoin,
    if_neg hargne, hname, h.chname, if_neg (by decide), if_neg hlocal, hread]
  dsimp only
  rw [dropWhile_space_of_head hhead, if_neg hne, atol_decimal h.ts, sjoinMsg, hmodes]
  rfl

/-- **A line with members has room** in its buffer. -/
theorem Sendable.fits (h : Sendable services id w c ch) {word : Str}
    (hword : word ∈ (memberships w c).map (Burst.memberWord w.client)) :
    Burst.fits 508 (sjoinFront services id ch) [] word = true := by
  have hmodes := length_channelModes_le services ch.mode
  have hts := length_decimal_le h.ts
  have hname := h.chname_lt
  have hid := h.id_lt
  have hlen := (h.memberWord hword).2.2
  have hsjoin : " SJOIN ".toList.length = 7 := by decide
  have hcolon : " :".toList.length = 2 := by decide
  rw [channelLen] at hname
  rw [idLen] at hid
  rw [nickLen] at hlen
  refine decide_eq_true ?_
  rw [sjoinFront, spaced_nil]
  simp only [length_append, length_cons, length_nil]
  omega

/-! ### Lines with masks -/

/-- The parameters of a line with `BMASK`, but for the last one. -/
def bmaskPara (ch : Chan) (flag : Char) : List Str := [decimal ch.channelts, ch.chname, [flag]]

theorem bmaskFront_append (id : Str) (ch : Chan) (flag : Char) (s : Str) :
    bmaskFront id ch flag ++ s = ':' :: (id ++ ' ' :: ("BMASK".toList ++
      ' ' :: (Text.spaced (bmaskPara ch flag) ++ ':' :: s))) := by
  have hbmask : " BMASK ".toList = ' ' :: ("BMASK".toList ++ [' ']) := rfl
  have hcolon : " :".toList = [' ', ':'] := rfl
  rw [bmaskPara, bmaskFront, hbmask, hcolon]
  simp [spaced_cons, spaced_nil]

/-- **A line with masks is taken apart.** -/
theorem Sendable.parse_bmask (h : Sendable services id w c ch) (hflag : flag ≠ ' ' ∧ flag ≠ ':')
    (hws : ws ≠ []) :
    parse (lineOf (bmaskFront id ch flag) ws) =
      some (some id, "BMASK".toList, bmaskPara ch flag ++ [[' '].intercalate ws]) := by
  rw [lineOf_eq hws, bmaskFront_append]
  refine parse_message h.id_space (by decide) (fun word hword => ?_) (by simp [bmaskPara, maxpara])
  obtain rfl | hword := mem_cons.mp hword
  · exact word_decimal _
  · obtain rfl | hword := mem_cons.mp hword
    · exact h.word_chname
    · rw [mem_singleton.mp hword]
      exact ⟨cons_ne_nil _ _, fun hmem => hflag.1
        (mem_singleton.mp hmem).symm, by simpa using hflag.2⟩

/-- A line with masks has room. -/
theorem Sendable.fits_mask (h : Sendable services id w c ch) (flag : Char) {mask : Str}
    (hmask : IsMask mask) :
    Burst.fits 509 (bmaskFront id ch flag) [] mask = true := by
  have hts := length_decimal_le h.ts
  have hname := h.chname_lt
  have hid := h.id_lt
  have hlt := hmask.lt
  have hbmask : " BMASK ".toList.length = 7 := by decide
  have hcolon : " :".toList.length = 2 := by decide
  have hban : banLen ≤ 200 := by decide
  rw [channelLen] at hname
  rw [idLen] at hid
  refine decide_eq_true ?_
  rw [bmaskFront, spaced_nil]
  simp only [length_append, length_cons, length_nil]
  omega

/-- The masks are put on the list one after the other. -/
theorem addMasks_eq (hws : ∀ mask ∈ ws, IsMask mask) (list : List Str) :
    addMasks list ws = ws.foldl addRemoteId list := by
  induction ws generalizing list with
  | nil => rfl
  | cons mask ws ih =>
    obtain ⟨hmask, hws⟩ := forall_mem_cons.mp hws
    have hlen : ¬mask.length > modebufLen := by
      have hlt := hmask.lt
      have hban : banLen ≤ modebufLen := by decide
      omega
    rw [addMasks, if_neg hmask.word.colon, if_neg hlen, ih hws, foldl_cons]

theorem typeOf_flagOf (type : ModeType) : typeOf [flagOf type] = some type := by
  cases type <;> rfl

/-- **What `ms_bmask` does** about a line with masks. -/
theorem Sendable.bmask (h : Sendable services id w c ch) (type : ModeType) (source : Str)
    (hws : ∀ mask ∈ ws, IsMask mask) {p : Peer} {ch' : Chan}
    (hch' : p.w.chan (chanKey ch.chname) = some ch')
    (halone : Alone p.w (chanKey ch.chname)) (hts : ch'.channelts = ch.channelts) :
      p.bmask (source :: (bmaskPara ch (flagOf type) ++ [[' '].intercalate ws])) = { p with
        lists := Function.update p.lists (chanKey ch.chname)
          (Function.update (p.lists (chanKey ch.chname)) type
            (ws.foldl addRemoteId (p.lists (chanKey ch.chname) type))) } := by
  have hname : isChannelName ch.chname = true := by
    rw [isChannelName, h.hash]
    rfl
  have hwords : (words ([' '].intercalate ws)).filter (· ≠ []) = ws := by
    rw [words_intercalate fun mask hmask => ⟨(hws mask hmask).word.ne_nil,
      (hws mask hmask).word.space⟩]
    exact filter_eq_self.mpr fun mask hmask => decide_eq_true (hws mask hmask).word.ne_nil
  have hparv : source :: (bmaskPara ch (flagOf type) ++ [[' '].intercalate ws]) =
      [source, decimal ch.channelts, ch.chname, [flagOf type], [' '].intercalate ws] := rfl
  rw [hparv, Peer.bmask]
  rw [hname, h.chname, if_neg (by decide), halone.findChannel h.chname_lt, hch', typeOf_flagOf]
  simp only [isSome_some, if_true]
  rw [hch', all_some, hts, atol_decimal h.ts, if_neg (by simp), hwords, addMasks_eq hws]

end Ratbox.Burst
