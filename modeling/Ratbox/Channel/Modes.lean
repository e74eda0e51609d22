import Ratbox.Channel.Basic
import Mathlib.Data.List.Lex
import Mathlib.Data.Char

/-!
# The modes of a channel

Servers tell each other the modes of a channel in a word of letters, followed by a word for the
limit and one for the key where it has them. What `channel_modes` writes, the loop at the start of
`ms_sjoin` reads back (`Channel.readModes_channelModes`).

Source: `modules/core/m_join.c`, lines 506–555, `src/channel.c`, lines 811–863, and
`include/channel.h`, lines 151–158.

## Main definitions

* `Channel.readModes`: the loop that reads modes.
* `Channel.channelModes`: the words for the modes of a channel.
* `Channel.Mode.merge`: the modes of both sides.

## Main results

* `Channel.readModes_channelModes`: the modes that are written are read.
-/

namespace Ratbox.Channel

open Text List

/-! ### Reading -/

/-- `MODE_PRIVATE` and so on. -/
def modePrivate : BitVec 32 := 0x0001
@[inherit_doc modePrivate] def modeSecret : BitVec 32 := 0x0002
@[inherit_doc modePrivate] def modeModerated : BitVec 32 := 0x0004
@[inherit_doc modePrivate] def modeTopicLimit : BitVec 32 := 0x0008
@[inherit_doc modePrivate] def modeInviteOnly : BitVec 32 := 0x0010
@[inherit_doc modePrivate] def modeNoPrivMsgs : BitVec 32 := 0x0020
@[inherit_doc modePrivate] def modeRegOnly : BitVec 32 := 0x0040
@[inherit_doc modePrivate] def modeSslOnly : BitVec 32 := 0x0080

/-- The flag of a letter. The letter `r` counts when the server is built with `ENABLE_SERVICES`. -/
def modeBit (services : Bool) : Char → Option (BitVec 32)
  | 'i' => some modeInviteOnly
  | 'n' => some modeNoPrivMsgs
  | 'p' => some modePrivate
  | 's' => some modeSecret
  | 'm' => some modeModerated
  | 't' => some modeTopicLimit
  | 'r' => if services then some modeRegOnly else none
  | 'S' => some modeSslOnly
  | _ => none

/-- A key that is copied fits its array. -/
theorem length_key_lt (s : Str) : (strlcpy s keyLen).length < keyLen :=
  (length_take_le _ _).trans_lt (by decide)

namespace Mode

/-- `mode.mode |= flag`. -/
def addFlag (m : Mode) (flag : BitVec 32) : Mode := { m with mode := m.mode ||| flag }

/-- `rb_strlcpy(mode.key, s, sizeof(mode.key))`. -/
def setKey (m : Mode) (s : Str) : Mode :=
  { m with
    key := strlcpy s keyLen
    key_lt := length_key_lt s }

/-- `mode.limit = atoi(s)`. -/
def setLimit (m : Mode) (s : Str) : Mode := { m with limit := atoi s, limit_int := atoi_int s }

/-- The modes of both sides, when they are as old as each other: `m` are the modes in the message,
and `old` those of the channel. -/
def merge (m old : Mode) : Mode where
  mode := m.mode ||| old.mode
  limit := if m.limit < old.limit then old.limit else m.limit
  key := if m.key < old.key then old.key else m.key
  limit_int := by
    split_ifs
    · exact old.limit_int
    · exact m.limit_int
  key_lt := by
    split_ifs
    · exact old.key_lt
    · exact m.key_lt

end Mode

/-- The loop over the letters in `parv[3]`. The list `rest` begins at `parv[4 + args]`; a letter
that takes a parameter is refused when no parameter would be left for the nicks. -/
def readModes (services : Bool) : Str → List Str → Mode → Option (Mode × List Str)
  | [], rest, m => some (m, rest)
  | c :: s, rest, m =>
    match modeBit services c with
    | some flag => readModes services s rest (m.addFlag flag)
    | none =>
      if c = 'k' ∨ c = 'l' then
        match rest with
        | arg :: arg' :: rest =>
          readModes services s (arg' :: rest) (if c = 'k' then m.setKey arg else m.setLimit arg)
        | _ => none
      else readModes services s rest m

/-! ### Writing -/

/-- The letters in the order of `channel_modes`. -/
def modeLetters (services : Bool) : List (Char × BitVec 32) :=
  [('s', modeSecret), ('p', modePrivate), ('m', modeModerated), ('t', modeTopicLimit),
    ('i', modeInviteOnly), ('n', modeNoPrivMsgs)] ++
    (if services then [('r', modeRegOnly)] else []) ++ [('S', modeSslOnly)]

/-- The letters of the flags that are set. -/
def lettersOf (table : List (Char × BitVec 32)) (flags : BitVec 32) : Str :=
  table.filterMap fun (c, flag) => if flags &&& flag ≠ 0 then some c else none

/-- `channel_modes`, as a list of words; `shown` says whether the client may see the parameters. -/
def channelModes (services : Bool) (m : Mode) (shown : Bool) : List Str :=
  let letters := '+' :: lettersOf (modeLetters services) m.mode
  if m.limit ≠ 0 ∧ m.key ≠ [] then
    (letters ++ ['l', 'k']) :: if shown then [decimal m.limit, m.key] else []
  else if m.limit ≠ 0 then (letters ++ ['l']) :: if shown then [decimal m.limit] else []
  else if m.key ≠ [] then (letters ++ ['k']) :: if shown then [m.key] else []
  else [letters]

/-! ### What is written is read -/

@[simp] theorem readModes_nil (services : Bool) (rest : List Str) (m : Mode) :
    readModes services [] rest m = some (m, rest) := rfl

variable {services : Bool} {c : Char} {flag : BitVec 32}

theorem readModes_flag
    (hc : modeBit services c = some flag) (s : Str) (rest : List Str) (m : Mode) :
    readModes services (c :: s) rest m = readModes services s rest (m.addFlag flag) := by
  simp [readModes, hc]

@[simp] theorem readModes_plus (services : Bool) (s : Str) (rest : List Str) (m : Mode) :
    readModes services ('+' :: s) rest m = readModes services s rest m := by
  simp [readModes, modeBit]

@[simp] theorem readModes_key (services : Bool) (s : Str) (arg arg' : Str) (rest : List Str)
    (m : Mode) : readModes services ('k' :: s) (arg :: arg' :: rest) m =
      readModes services s (arg' :: rest) (m.setKey arg) := by
  simp [readModes, modeBit]

@[simp] theorem readModes_limit (services : Bool) (s : Str) (arg arg' : Str) (rest : List Str)
    (m : Mode) : readModes services ('l' :: s) (arg :: arg' :: rest) m =
      readModes services s (arg' :: rest) (m.setLimit arg) := by
  simp [readModes, modeBit]

/-- The flags of a table of letters. -/
def tableMask (table : List (Char × BitVec 32)) : BitVec 32 :=
  table.foldr (fun p acc => p.2 ||| acc) 0

/-- A table in which each letter has a flag of one bit, which is the one it is read as. -/
def IsTable (services : Bool) (table : List (Char × BitVec 32)) : Prop :=
  ∀ p ∈ table, modeBit services p.1 = some p.2 ∧ ∃ i, p.2 = BitVec.twoPow 32 i

theorem and_twoPow_eq_self {x : BitVec 32} {i : ℕ} (h : x &&& BitVec.twoPow 32 i ≠ 0) :
    x &&& BitVec.twoPow 32 i = BitVec.twoPow 32 i := by
  rw [BitVec.and_twoPow] at h ⊢
  split_ifs at h ⊢
  · rfl
  · exact absurd rfl h

/-- The first letter of a table is one of the letters of flags when its bit is set in them. -/
theorem lettersOf_cons_cases {p : Char × BitVec 32} (hp : ∃ i, p.2 = BitVec.twoPow 32 i)
    (table : List (Char × BitVec 32)) (flags : BitVec 32) :
    flags &&& p.2 = 0 ∧ lettersOf (p :: table) flags = lettersOf table flags ∨
      flags &&& p.2 = p.2 ∧ lettersOf (p :: table) flags = p.1 :: lettersOf table flags := by
  obtain ⟨i, hi⟩ := hp
  by_cases hset : flags &&& p.2 = 0
  · exact .inl ⟨hset, filterMap_cons_none (by simpa using hset)⟩
  · refine .inr ⟨?_, filterMap_cons_some (by simpa using hset)⟩
    rw [hi] at hset ⊢
    exact and_twoPow_eq_self hset

/-- Letters that were written for flags are read as these flags. -/
theorem readModes_lettersOf {table : List (Char × BitVec 32)}
    (ht : IsTable services table) (flags : BitVec 32) (s : Str) (rest : List Str) (m : Mode) :
    readModes services (lettersOf table flags ++ s) rest m =
      readModes services s rest (m.addFlag (flags &&& tableMask table)) := by
  induction table generalizing m with
  | nil => simp [lettersOf, tableMask, Mode.addFlag]
  | cons p table ih =>
    obtain ⟨hbit, hbits⟩ := ht p mem_cons_self
    have ih := ih (fun q hq => ht q (mem_cons_of_mem p hq))
    have hmask : tableMask (p :: table) = p.2 ||| tableMask table := rfl
    obtain ⟨hand, hletters⟩ | ⟨hand, hletters⟩ := lettersOf_cons_cases hbits table flags
    · rw [hletters, ih, hmask, BitVec.and_or_distrib_left, hand]
      simp
    · rw [hletters, cons_append, readModes_flag hbit, ih, hmask,
        BitVec.and_or_distrib_left, hand]
      simp [Mode.addFlag, BitVec.or_assoc]

theorem isTable_modeLetters (services : Bool) : IsTable services (modeLetters services) := by
  have hbits : ∀ p ∈ modeLetters services, modeBit services p.1 = some p.2 ∧
      ∃ i < 8, p.2 = BitVec.twoPow 32 i := by
    cases services <;> decide
  intro p hp
  obtain ⟨hbit, i, -, hi⟩ := hbits p hp
  exact ⟨hbit, i, hi⟩

/-- The flags that have a letter. -/
def modeMask (services : Bool) : BitVec 32 := tableMask (modeLetters services)

/-- The modes that have a letter. -/
def Mode.lettered (services : Bool) (m : Mode) : Mode :=
  { m with mode := m.mode &&& modeMask services }

/-- **What is written is read.** The words of `channel_modes`, with a parameter `nicks` behind
them, are read as the modes they were written for. -/
theorem readModes_channelModes (services : Bool) (m : Mode) (nicks : Str) :
    ∃ letters args, channelModes services m true = letters :: args ∧
      readModes services letters (args ++ [nicks]) .empty =
      some (m.lettered services, [nicks]) := by
  have hread := fun s rest => readModes_lettersOf (isTable_modeLetters services) m.mode s rest
    .empty
  have hlimit := atoi_decimal m.limit_int
  have hkey : strlcpy m.key keyLen = m.key :=
    take_of_length_le (Nat.le_pred_of_lt m.key_lt)
  simp only [channelModes, ↓reduceIte]
  split_ifs with h₁ h₂ h₃
  · refine ⟨_, _, rfl, ?_⟩
    rw [cons_append, readModes_plus, hread]
    simp [Mode.addFlag, Mode.setLimit, Mode.setKey, Mode.lettered, Mode.empty, modeMask, hlimit,
      hkey]
  · have hnokey : m.key = [] := by tauto
    refine ⟨_, _, rfl, ?_⟩
    rw [cons_append, readModes_plus, hread]
    simp [Mode.addFlag, Mode.setLimit, Mode.lettered, Mode.empty, modeMask, hlimit, hnokey]
  · have hnolimit : m.limit = 0 := not_not.mp h₂
    refine ⟨_, _, rfl, ?_⟩
    rw [cons_append, readModes_plus, hread]
    simp [Mode.addFlag, Mode.setKey, Mode.lettered, Mode.empty, modeMask, hkey, hnolimit]
  · have hnolimit : m.limit = 0 := not_not.mp h₂
    have hnokey : m.key = [] := not_not.mp h₃
    refine ⟨_, _, rfl, ?_⟩
    have hread := hread [] [nicks]
    rw [append_nil] at hread
    rw [readModes_plus, nil_append, hread]
    simp [Mode.addFlag, Mode.lettered, Mode.empty, modeMask, hnolimit, hnokey]

theorem lettered_eq_iff (services : Bool) (m : Mode) :
    m.lettered services = m ↔ m.mode &&& modeMask services = m.mode :=
  ⟨congrArg Mode.mode, fun h => Mode.ext h rfl rfl⟩

/-- The flag of a letter is one of those that have a letter. -/
theorem modeBit_and_mask
    (h : modeBit services c = some flag) : flag &&& modeMask services = flag := by
  have hmem : flag ∈ (modeLetters services).map Prod.snd := by
    unfold modeBit at h
    split at h
    all_goals try split_ifs at h
    all_goals simp_all [modeLetters]
  obtain ⟨p, hp, rfl⟩ := mem_map.mp hmem
  have hall : ∀ p ∈ modeLetters services, p.2 &&& modeMask services = p.2 := by
    cases services <;> decide
  exact hall p hp

/-- What is read has a letter. -/
theorem lettered_of_readModes {s : Str} {rest rest' : List Str} {m m' : Mode}
    (hm : m.lettered services = m) (h : readModes services s rest m = some (m', rest')) :
    m'.lettered services = m' := by
  induction s generalizing m rest with
  | nil =>
    simp only [readModes_nil, Option.some.injEq, Prod.mk.injEq] at h
    rw [← h.1, hm]
  | cons c s ih =>
    rw [lettered_eq_iff] at hm
    cases hbit : modeBit services c with
    | some flag =>
      rw [readModes_flag hbit] at h
      refine ih ?_ h
      rw [lettered_eq_iff, Mode.addFlag, BitVec.and_or_distrib_right, hm, modeBit_and_mask hbit]
    | none =>
      simp only [readModes, hbit] at h
      by_cases hparam : c = 'k' ∨ c = 'l'
      · rw [if_pos hparam] at h
        rcases rest with _ | ⟨arg, _ | ⟨arg', rest⟩⟩
        · simp at h
        · simp at h
        · refine ih ?_ h
          rw [lettered_eq_iff]
          split_ifs <;> exact hm
      · rw [if_neg hparam] at h
        exact ih ((lettered_eq_iff services m).mpr hm) h

/-! ### Merging -/

/-- A server that has the old modes and merges in those that are written for the merged ones has
the merged ones. -/
theorem Mode.merge_lettered {m : Mode} (hm : m.lettered services = m)
    (old : Mode) : ((m.merge old).lettered services).merge old = m.merge old := by
  have hmode : m.mode &&& modeMask services = m.mode := congrArg Mode.mode hm
  refine Mode.ext ?_ ?_ ?_
  · have hold : old.mode &&& modeMask services ||| old.mode = old.mode := by
      ext i
      simp only [BitVec.getElem_or, BitVec.getElem_and]
      cases old.mode[i] <;> simp
    simp only [merge, lettered, BitVec.and_or_distrib_right, hmode, BitVec.or_assoc, hold]
  · simp only [merge, lettered]
    split_ifs <;> omega
  · simp only [merge, lettered]
    split_ifs <;> rfl

end Ratbox.Channel
