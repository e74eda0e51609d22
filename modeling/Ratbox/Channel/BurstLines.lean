import Ratbox.Channel.Burst
import Ratbox.Lib.Packing

/-!
# The lines of a burst

The two loops of `burst_TS6` put words on lines in the same way: a word that has no room begins
another line. So the lines have the words in their order, no line is longer than its buffer, and
what is behind the colon of a line are whole words.

Source: `modules/core/m_server.c`, lines 847–893 and 1079–1134, and `src/parse.c`, lines 60–205.

## Main definitions

* `Burst.lineOf`: a line with its words.
* `Burst.fits`: a line has room for a word.

## Main results

* `Burst.burstMembers_eq`, `Burst.burstModes_eq`: the lines are those of a packing.
* `Burst.parse_message`: a line is taken apart into what it was put together from.
-/

namespace Ratbox.Burst

open Text Channel List
open Banlist (ModeType banLen modebufLen)

variable {front id command text word : Str} {ws items : List Str} {n : ℕ}

/-! ### Lines that are put together -/

/-- A line with its words, and the trailing space chopped off. -/
def lineOf (front : Str) (ws : List Str) : Str := (front ++ Text.spaced ws).dropLast

/-- The line has room for a word and the space behind it, in `n` bytes. -/
def fits (n : ℕ) (front : Str) (ws : List Str) (word : Str) : Bool :=
  front.length + (Text.spaced ws).length + (word.length + 1) ≤ n

/-- The buffer when some lines were sent and one is being filled. -/
def Buf.of (front : Str) (s : List (List Str) × List Str) : Buf :=
  ⟨s.1.map (lineOf front), Text.spaced s.2⟩

theorem send_of (front : Str) (s : List (List Str) × List Str) :
    (Buf.of front s).send front = .of front (s.1 ++ [s.2], []) := by
  rw [Buf.send, Buf.of, Buf.of, map_append, map_singleton]
  rfl

theorem print_of (front : Str) (sent : List (List Str)) (line : List Str) (word : Str) :
    (Buf.of front (sent, line)).print word = .of front (sent, line ++ [word]) := by
  rw [Buf.print, Buf.of, Buf.of, spaced_append, spaced_cons]
  rfl

/-- A member is put on a line. -/
theorem putMember_of (front : Str) (s : List (List Str) × List Str) (word : Str) :
    putMember front (.of front s) word = .of front (Packing.put (fits 508 front) s word) := by
  have hfull : front.length + (Buf.of front s).body.length + (word.length + 1) ≥ ircdBufsize - 3 ↔
      ¬fits 508 front s.2 word = true := by
    simp only [Buf.of, fits, ircdBufsize, decide_eq_true_eq]
    omega
  rw [putMember, Packing.put]
  by_cases hroom : fits 508 front s.2 word = true
  · rw [if_pos hroom, if_neg (not_not.mpr hroom ∘ hfull.mp)]
    exact print_of front s.1 s.2 word
  · rw [if_neg hroom, if_pos (hfull.mpr hroom), send_of]
    exact print_of front (s.1 ++ [s.2]) [] word

/-- A mask is put on a line, if there is a line it fits on. -/
theorem putMask_of (front : Str) (s : List (List Str) × List Str)
    (hword : fits 509 front [] word = true) :
    putMask front (.of front s) word = .of front (Packing.put (fits 509 front) s word) := by
  have hfull : front.length + (Buf.of front s).body.length + (word.length + 1) > ircdBufsize - 3 ↔
      ¬fits 509 front s.2 word = true := by
    simp only [Buf.of, fits, ircdBufsize, decide_eq_true_eq]
    omega
  rw [putMask, Packing.put]
  by_cases hroom : fits 509 front s.2 word = true
  · rw [if_pos hroom, if_neg (not_not.mpr hroom ∘ hfull.mp)]
    exact print_of front s.1 s.2 word
  · -- an empty line has room, so there is something on this one
    have hbody : (Buf.of front s).body.length ≠ 0 := by
      intro hzero
      have hnil : Text.spaced s.2 = [] := length_eq_zero_iff.mp hzero
      rw [fits, hnil] at hroom
      exact hroom hword
    rw [if_neg hroom, if_pos (hfull.mpr hroom), if_neg hbody, send_of]
    exact print_of front (s.1 ++ [s.2]) [] word

/-- A loop that puts its words as a packing does sends the lines of the packing. -/
theorem sent_foldl {step : Buf → Str → Buf} {room : List Str → Str → Bool}
    (hstep : ∀ s, ∀ word ∈ items, step (.of front s) word = .of front (Packing.put room s word)) :
    ((items.foldl step ⟨[], []⟩).send front).sent = (Packing.pack room items).map
    (lineOf front) := by
  have hfoldl : ∀ s, items.foldl step (.of front s) =
      .of front (items.foldl (Packing.put room) s) := by
    induction items with
    | nil => exact fun s => rfl
    | cons word items ih =>
      intro s
      rw [foldl_cons, hstep s word mem_cons_self, foldl_cons]
      exact ih (fun s v hv => hstep s v (mem_cons_of_mem word hv)) _
  rw [show (⟨[], []⟩ : Buf) = .of front ([], []) from rfl, hfoldl, send_of]
  rfl

/-- **The lines with the members** are those of a packing. -/
theorem burstMembers_eq (services : Bool) (id : Str) (w : World) (c : Str) (ch : Chan) :
    burstMembers services id w c ch =
      (Packing.pack (fits 508 (sjoinFront services id ch))
        ((memberships w c).map (memberWord w.client))).map (lineOf (sjoinFront services id ch)) :=
  sent_foldl fun s word _ => putMember_of _ s word

/-- **The lines with masks** are those of a packing, if each mask fits on a line. -/
theorem burstModes_eq {ch : Chan} {flag : Char}
    (hitems : ∀ word ∈ items, fits 509 (bmaskFront id ch flag) [] word = true) :
    burstModes id ch items flag =
      (Packing.pack (fits 509 (bmaskFront id ch flag)) items).map
      (lineOf (bmaskFront id ch flag)) :=
  sent_foldl fun s word hword => putMask_of _ s (hitems word hword)

/-! ### The words on a line -/

theorem lineOf_eq (hws : ws ≠ []) : lineOf front ws = front ++ [' '].intercalate ws := by
  rw [lineOf, spaced_eq_intercalate hws, ← append_assoc, dropLast_concat]

/-- What a line has: some of the words, and no more than there is room for. -/
structure Filled (n : ℕ) (front : Str) (items ws : List Str) : Prop where
  ne_nil : ws ≠ []
  mem : ∀ word ∈ ws, word ∈ items
  length_le : (lineOf front ws).length + 1 ≤ n

theorem filled_pack (hne : items ≠ []) (hitems : ∀ word ∈ items, fits n front [] word = true) :
    ∀ ws ∈ Packing.pack (fits n front) items, Filled n front items ws := by
  intro ws hws
  have hroom : ws ≠ [] ∧ (lineOf front ws).length + 1 ≤ n := by
    refine Packing.forall_pack (P := fun ws => ws ≠ [] ∧ (lineOf front ws).length + 1 ≤ n) hne
      hitems (fun ws word _ hfits => ?_) ws hws
    refine ⟨by simp, ?_⟩
    have hle : front.length + (Text.spaced ws).length + (word.length + 1) ≤ n :=
      of_decide_eq_true hfits
    rw [lineOf, length_dropLast, spaced_append, spaced_cons, length_append, length_append,
      length_append, length_cons, spaced_nil, length_nil]
    omega
  refine ⟨hroom.1, fun word hword => ?_, hroom.2⟩
  rw [← Packing.flatten_pack (fits n front) items]
  exact mem_flatten_of_mem hws hword

/-- A text without spaces, in front of the rest. -/
theorem words_append_space (hword : ' ' ∉ word) (s : Str) :
    words (word ++ ' ' :: s) = word :: words s := by
  induction word with
  | nil => rfl
  | cons c word ih =>
    obtain ⟨hc, hword⟩ := not_or.mp (mt mem_cons.mpr hword)
    rw [cons_append, words, if_neg (Ne.symm hc), ih hword]

theorem words_of_ne_nil (hne : word ≠ []) (hword : ' ' ∉ word) : words word = [word] := by
  induction word with
  | nil => exact absurd rfl hne
  | cons c word ih =>
    obtain ⟨hc, hword⟩ := not_or.mp (mt mem_cons.mpr hword)
    rw [words, if_neg (Ne.symm hc)]
    cases word with
    | nil => rfl
    | cons d word => rw [ih (by simp) hword]

/-- **The words that were put on a line are met.** -/
theorem words_intercalate (hws : ∀ word ∈ ws, word ≠ [] ∧ ' ' ∉ word) :
    words ([' '].intercalate ws) = ws := by
  induction ws with
  | nil => rfl
  | cons word ws ih =>
    obtain ⟨⟨hne, hspace⟩, hrest⟩ := forall_mem_cons.mp hws
    by_cases hnil : ws = []
    · rw [hnil, intercalate_singleton, words_of_ne_nil hne hspace]
    · rw [intercalate_cons_of_ne_nil hnil, append_assoc, singleton_append,
        words_append_space hspace, ih hrest]

theorem intercalate_head (hws : ws ≠ []) (hwords : ∀ word ∈ ws, word ≠ [] ∧ ' ' ∉ word) :
    ∃ c s, [' '].intercalate ws = c :: s ∧ c ≠ ' ' := by
  obtain ⟨word, ws, rfl⟩ := exists_cons_of_ne_nil hws
  obtain ⟨⟨hne, hspace⟩, -⟩ := forall_mem_cons.mp hwords
  obtain ⟨c, s, rfl⟩ := exists_cons_of_ne_nil hne
  have hc : c ≠ ' ' := fun h => hspace (h ▸ mem_cons_self)
  by_cases hnil : ws = []
  · exact ⟨c, s, by rw [hnil, intercalate_singleton], hc⟩
  · exact ⟨c, _, by rw [intercalate_cons_of_ne_nil hnil, append_assoc, cons_append], hc⟩

/-! ### Taking a line apart -/

theorem takeWhile_word (hword : ' ' ∉ word) (s : Str) :
    (word ++ ' ' :: s).takeWhile (· != ' ') = word := by
  have hall : ∀ c ∈ word, (c != ' ') = true := fun c hc => bne_iff_ne.mpr fun h => hword (h ▸ hc)
  rw [takeWhile_append_of_pos hall, takeWhile_cons_of_neg (by simp), append_nil]

theorem dropWhile_word (hword : ' ' ∉ word) (s : Str) : (word ++ ' ' :: s).dropWhile (· != ' ') =
    ' ' :: s := by
  have hall : ∀ c ∈ word, (c != ' ') = true := fun c hc => bne_iff_ne.mpr fun h => hword (h ▸ hc)
  rw [dropWhile_append_of_pos hall, dropWhile_cons_of_neg (by simp)]

/-- **A line is taken apart** into what it was put together from. -/
theorem parse_message (hid : ' ' ∉ id) (hcommand : Word command) (hws : ∀ word ∈ ws, Word word)
    (hlen : ws.length + 2 ≤ maxpara) :
    parse (':' :: (id ++ ' ' :: (command ++ ' ' :: (Text.spaced ws ++ ':' :: text)))) =
      some (some id, command, ws ++ [text]) := by
  set rest := Text.spaced ws ++ ':' :: text with hrest
  have hskip : (command ++ ' ' :: rest).dropWhile (· == ' ') = command ++ ' ' :: rest := by
    obtain ⟨c, s, hc⟩ := exists_cons_of_ne_nil hcommand.ne_nil
    refine dropWhile_space_of_head ?_
    have hhead := hcommand.head_ne_space
    rw [hc] at hhead ⊢
    exact hhead
  have hpara : stringToArray maxpara rest = ws ++ [text] := by
    rw [hrest, stringToArray_append hws hlen, stringToArray_colon (by omega)]
  rw [parse, dropWhile_space_of_head (by simp)]
  simp only [head?_cons, if_true, tail_cons, takeWhile_word hid, dropWhile_word hid, hskip,
    mem_append, mem_cons, true_or, or_true, takeWhile_word hcommand.space,
      dropWhile_word hcommand.space,
    hpara]
  rw [if_neg (by simp)]

/-- The front of a line is the sender, the command and the words in front of the colon. -/
theorem front_eq (ws : List Str) (s : Str) (hws : ws ≠ []) :
    [' '].intercalate ws ++ " :".toList ++ s = Text.spaced ws ++ ':' :: s := by
  rw [spaced_eq_intercalate hws, append_assoc, append_assoc]
  rfl

end Ratbox.Burst
