import Ratbox.Lib.Odometer
import Ratbox.Lib.Run
import Ratbox.Nick.Commands

/-!
# Generating UIDs

Each user of a server has a UID, which begins with the SID of the server. The rest is counted up:
its last five characters go from `A` to `Z`, from `0` to `9` and round to `A`, with a carry, and the
first one goes over the letters. From the time the counter has come round on, a candidate that is in
use is left out.

Source: `src/client.c`, lines 1643–1698, `src/s_user.c`, lines 502–503, `src/services.c`, lines
531–533, `src/newconf.c`, lines 1056–1073, and `src/ircd.c`, lines 670–677.

## Main definitions

* `Uid.Counter`: the static variables.
* `Uid.generateUid`: `generate_uid`.
* `Uid.step`: a UID is generated, or a key is put in the table of ids or taken out.

## Main results

* `Uid.counts_nextUid`: the candidates are counted.
* `Uid.generated_fresh`: the UIDs that are generated are well formed and not in use.
-/

namespace Ratbox.Uid

open Text Run Odometer List
open Nick (isIdChar cleanUid digitName)

/-! ### The counter -/

/-- The variables `current_uid` and `flipped`. -/
structure Counter where
  currentUid : Str
  flipped : Bool
  deriving DecidableEq

/-- `init_uid`, with `me.id`. -/
def initUid (id : Str) : Counter := ⟨id.take 3 ++ replicate 6 'A', false⟩

/-- `current_uid[i]++`. -/
def succ (c : Char) : Char := Char.ofNat (c.toNat + 1)

/-- The loop from the position `i + 3` down to the fourth, and whether it comes to its end. -/
def carry : ℕ → Str → Str × Bool
  | 0, uid => (uid, true)
  | i + 1, uid =>
    let c := uid.getD (i + 4) '\x00'
    if c = 'Z' then (uid.set (i + 4) '0', false)
    else if c ≠ '9' then (uid.set (i + 4) (succ c), false)
    else carry i (uid.set (i + 4) 'A')

/-- What is done up to the label `out`. -/
def Counter.next (st : Counter) : Counter :=
  let (uid, ended) := carry 5 st.currentUid
  if !ended then { st with currentUid := uid }
  else if uid.getD 3 '\x00' = 'Z' then ⟨uid.set 3 'A', true⟩
  else { st with currentUid := uid.set 3 (succ (uid.getD 3 '\x00')) }

/-- `generate_uid`, with what `find_id` finds, for as many turns as there is fuel. -/
def generateUid (findId : Str → Bool) : ℕ → Counter → Option Counter
  | 0, _ => none
  | n + 1, st =>
    let st := st.next
    if st.flipped && findId st.currentUid then generateUid findId n st else some st

/-! ### UIDs -/

/-- The characters in the order in which they are counted. -/
def symbols : Str := "ABCDEFGHIJKLMNOPQRSTUVWXYZ0123456789".toList

/-- What `conf_set_serverinfo_sid` lets pass. -/
def ValidSid (sid : Str) :
    Prop := digitName sid = true ∧ sid.tail.all isIdChar = true ∧ sid.length = 3

instance (sid : Str) : Decidable (ValidSid sid) := inferInstanceAs (Decidable (_ ∧ _))

/-- What stands behind the SID: a letter, and five letters or digits. -/
def IsSuffix (t : Str) :
    Prop := t.length = 6 ∧ (∀ c ∈ t, c ∈ symbols) ∧ ∀ c ∈ t.head?, isDigit c = false

instance (t : Str) : Decidable (IsSuffix t) := inferInstanceAs (Decidable (_ ∧ _))

/-- A UID of the server. -/
def WellFormed (sid uid : Str) : Prop := ∃ t, IsSuffix t ∧ uid = sid ++ t

theorem isSuffix_start : IsSuffix (replicate 6 'A') :=
  ⟨rfl, fun _ hc => eq_of_mem_replicate hc ▸ mem_cons_self, fun _ hc => Option.some.inj hc ▸ rfl⟩

/-- The number of the UIDs. -/
def suffixes : ℕ := 26 * 36 ^ 5

/-! ### Reading a UID as a number -/

/-- The place of a character in the order. -/
def rank (c : Char) : ℕ := symbols.idxOf c

/-- The numbers of characters that stand at the six places, from the last one on. -/
def radices : List ℕ := replicate 5 36 ++ [26]

/-- The number of a UID. -/
def number (uid : Str) : ℕ := value radices ((uid.drop 3).reverse.map rank)

theorem prod_radices : radices.prod = suffixes := by decide +kernel

variable {c : Char}

theorem mem_symbols_iff : c ∈ symbols ↔ rank c < 36 := idxOf_lt_length_iff.symm

theorem rank_inj {c' : Char} (h : rank c < 36) (heq : rank c = rank c') : c = c' :=
  (idxOf_inj (mem_symbols_iff.mpr h)).mp heq

/-- A character that is neither `Z` nor `9` is followed by the next one. -/
theorem rank_succ (h : rank c < 36) (hz : c ≠ 'Z') (h9 : c ≠ '9') : rank (succ c) = rank c + 1 := by
  have hall : symbols.all (fun c => c == 'Z' || c == '9' || rank (succ c) == rank c + 1) =
    true := by decide +kernel
  have hone := all_eq_true.mp hall c (mem_symbols_iff.mpr h)
  simpa [hz, h9] using hone

theorem rank_lt_26_iff (h : rank c < 36) : rank c < 26 ↔ isDigit c = false := by
  have hall : symbols.all (fun c => decide (rank c < 26) == !isDigit c) = true := by decide +kernel
  have hone : decide (rank c < 26) = !isDigit c :=
    beq_iff_eq.mp (all_eq_true.mp hall c (mem_symbols_iff.mpr h))
  rw [← Bool.not_eq_true', ← hone, decide_eq_true_iff]

/-- The characters are got back from their places. -/
theorem map_rank {t : Str} (h : ∀ c ∈ t, c ∈ symbols) :
    (t.reverse.map rank).map (symbols.getD · '\x00') = t.reverse := by
  rw [map_map]
  refine (map_congr_left fun c hc => ?_).trans (map_id _)
  have hlt := mem_symbols_iff.mp (h c (mem_reverse.mp hc))
  have hget : symbols[rank c]? = some c :=
    List.getElem?_eq_some_iff.mpr ⟨hlt, List.getElem_idxOf hlt⟩
  change symbols.getD (rank c) '\x00' = c
  rw [getD_eq_getElem?_getD, hget, Option.getD_some]

theorem isSuffix_iff {t : Str} : IsSuffix t ↔ Fits radices (t.reverse.map rank) := by
  have hsix : t.length = 6 → (IsSuffix t ↔ Fits radices (t.reverse.map rank)) := by
    intro hlen
    match t, hlen with
    | [a, b, c, d, e, f], _ =>
      have hradices : radices = [36, 36, 36, 36, 36, 26] := rfl
      have hnil : Fits [] [] := .nil
      simp only [IsSuffix, length_cons, length_nil, Nat.reduceAdd, forall_mem_cons, mem_symbols_iff,
        head?_cons, Option.mem_some_iff, forall_eq', hradices, reverse_cons, reverse_nil,
          nil_append,
        cons_append, map_cons, map_nil, fits_cons, hnil, true_and, and_true, not_mem_nil,
          false_imp_iff,
        implies_true]
      constructor
      · rintro ⟨⟨ha, hb, hc, hd, he, hf⟩, hdigit⟩
        exact ⟨hf, he, hd, hc, hb, (rank_lt_26_iff ha).mpr hdigit⟩
      · rintro ⟨hf, he, hd, hc, hb, ha⟩
        have ha' : rank a < 36 := by omega
        exact ⟨⟨ha', hb, hc, hd, he, hf⟩, (rank_lt_26_iff ha').mp ha⟩
  refine ⟨fun h => (hsix h.1).mp h, fun h => (hsix ?_).mpr h⟩
  have hlen := Forall₂.length_eq h
  simpa [radices] using hlen.symm

/-! ### Counting -/

/-- **The loop turns the wheels**: on a text with the characters `low` behind the fourth one, from
the last one on. -/
theorem carry_eq {front : Str} (hfront : front.length = 4) (low post : Str)
    (hlow : ∀ c ∈ low, rank c < 36) :
    ∃ low' : Str, low'.map rank = (advance (replicate low.length 36) (low.map rank)).1 ∧
      carry low.length (front ++ low.reverse ++ post) =
        (front ++ low'.reverse ++ post, (advance (replicate low.length 36) (low.map rank)).2) := by
  induction low generalizing post with
  | nil => exact ⟨[], rfl, rfl⟩
  | cons c low ih =>
    have hc := hlow c mem_cons_self
    have hlow' : ∀ c ∈ low, rank c < 36 := fun c' hc' => hlow c' (mem_cons_of_mem _ hc')
    have hpos : (front ++ low.reverse).length = low.length + 4 := by
      rw [length_append, hfront, length_reverse, Nat.add_comm]
    have htext (c : Char) : front ++ (c :: low).reverse ++ post = front ++ low.reverse ++
      c :: post := by simp
    have hget : (front ++ low.reverse ++ c :: post).getD (low.length + 4) '\x00' = c := by
      rw [← hpos]
      simp
    have hset (c' : Char) :
        (front ++ low.reverse ++ c :: post).set (low.length + 4) c' = front ++ low.reverse ++
            c' :: post := by
      rw [← hpos]
      simp
    rw [htext, length_cons, replicate_succ, map_cons, carry]
    simp only [hget, hset]
    by_cases hz : c = 'Z'
    · subst hz
      rw [if_pos rfl, advance_of_lt (by decide)]
      exact ⟨'0' :: low, rfl, by rw [htext]⟩
    rw [if_neg hz]
    by_cases h9 : c = '9'
    · subst h9
      obtain ⟨low', hmap, heq⟩ := ih ('A' :: post) hlow'
      rw [if_neg (by simp), advance_of_eq (by decide)]
      exact ⟨'A' :: low', by rw [map_cons, hmap]; rfl, by rw [heq]; simp⟩
    · have hnext := rank_succ hc hz h9
      have hlt : rank c + 1 < 36 := by
        refine lt_of_le_of_ne hc fun heq => h9 (rank_inj hc ?_)
        rw [show rank '9' = 35 by decide]
        omega
      rw [if_pos h9, advance_of_lt hlt]
      exact ⟨succ c :: low, by rw [map_cons, hnext], by rw [htext]⟩

/-- The UID after a turn. -/
def nextUid (uid : Str) : Str := (Counter.next ⟨uid, false⟩).currentUid

theorem currentUid_next (st : Counter) : st.next.currentUid = nextUid st.currentUid := by
  rw [nextUid, Counter.next, Counter.next]
  dsimp only
  split_ifs <;> rfl

/-- A turn, by the characters: the loop turns the last five of them, and the letter in front of them
when it comes to its end. -/
theorem next_eq {sid : Str} (hsid : sid.length = 3) (a : Char) {low : Str} (hfive : low.length = 5)
    (hlow : ∀ c ∈ low, rank c < 36) (flipped : Bool) :
    ∃ low' : Str, low'.map rank = (advance (replicate 5 36) (low.map rank)).1 ∧
      Counter.next ⟨sid ++ a :: low.reverse, flipped⟩ =
        if !(advance (replicate 5 36) (low.map rank)).2 then ⟨sid ++ a :: low'.reverse, flipped⟩
        else if a = 'Z' then ⟨sid ++ 'A' :: low'.reverse, true⟩
        else ⟨sid ++ succ a :: low'.reverse, flipped⟩ := by
  have hfront : (sid ++ [a]).length = 4 := by simp [hsid]
  obtain ⟨low', hmap, hcarry⟩ := carry_eq hfront low [] hlow
  rw [hfive] at hmap hcarry
  have hget (c : Char) : (sid ++ c :: low'.reverse).getD 3 '\x00' = c := by
    rw [← hsid]
    simp
  have hset (c c' : Char) : (sid ++ c :: low'.reverse).set 3 c' = sid ++ c' :: low'.reverse := by
    rw [← hsid]
    simp
  have htext (low : Str) : sid ++ [a] ++ low.reverse ++ [] = sid ++ a :: low.reverse := by simp
  refine ⟨low', hmap, ?_⟩
  rw [Counter.next]
  dsimp only
  rw [← htext, hcarry, htext]
  dsimp only
  rw [hget, hset, hset]

/-- **A turn counts**, on a UID of the server, and sets the flag when the wheels come round. -/
theorem next_spec {sid t : Str} (hsid : sid.length = 3) (ht : IsSuffix t) (flipped : Bool) :
    ∃ t', IsSuffix t' ∧ t'.reverse.map rank = (advance radices (t.reverse.map rank)).1 ∧
      Counter.next ⟨sid ++ t, flipped⟩ =
      ⟨sid ++ t', flipped || (advance radices (t.reverse.map rank)).2⟩ := by
  have hfits := isSuffix_iff.mp ht
  obtain ⟨hlen, hmem, hhead⟩ := ht
  match t, hlen with
  | a :: rest, hlen =>
    obtain ⟨low, rfl⟩ : ∃ low, rest = low.reverse := ⟨rest.reverse, rest.reverse_reverse.symm⟩
    have hfive : low.length = 5 := by simpa using hlen
    have hlow : ∀ c ∈ low, rank c < 36 := fun c hc =>
      mem_symbols_iff.mp (hmem c (mem_cons_of_mem _ (mem_reverse.mpr hc)))
    have ha : rank a < 36 := mem_symbols_iff.mp (hmem a mem_cons_self)
    have ha' : rank a < 26 := (rank_lt_26_iff ha).mpr (hhead a rfl)
    have hlowFits : Fits (replicate 5 36) (low.map rank) := by
      have hall : ∀ d ∈ low.map rank, d < 36 := forall_mem_map.mpr hlow
      have hfits := fits_replicate.mpr hall
      rwa [length_map, hfive] at hfits
    obtain ⟨low', hmap, hnext⟩ := next_eq hsid a hfive hlow flipped
    have hranks (c : Char) (low : Str) : (c :: low.reverse).reverse.map rank = low.map rank ++
      [rank c] := by simp
    have hturned (c : Char) (heq : low'.map rank ++ [rank c] =
      (advance radices (low.map rank ++ [rank a])).1) :
        IsSuffix (c :: low'.reverse) ∧ (c :: low'.reverse).reverse.map rank =
            (advance radices (low.map rank ++ [rank a])).1 := by
      rw [hranks] at hfits
      rw [isSuffix_iff, hranks, heq]
      exact ⟨fits_advance hfits, rfl⟩
    have happend := advance_append hlowFits [26] [rank a]
    rw [← radices] at happend
    rw [hranks, hnext]
    cases hended : (advance (replicate 5 36) (low.map rank)).2 with
    | false =>
      rw [hended, if_neg (by simp)] at happend
      obtain ⟨hsuffix, hrank⟩ := hturned a (by rw [happend, hmap])
      exact ⟨_, hsuffix, hrank, by rw [happend, Bool.or_false]; rfl⟩
    | true =>
      rw [hended, if_pos rfl] at happend
      simp only [Bool.not_true, Bool.false_eq_true, ↓reduceIte]
      by_cases hz : a = 'Z'
      · have hlast : advance [26] [rank a] = ([0], true) := by rw [hz]; decide
        rw [hlast] at happend
        obtain ⟨hsuffix, hrank⟩ := hturned 'A' (by rw [happend, hmap]; rfl)
        exact ⟨_, hsuffix, hrank, by rw [if_pos hz, happend, Bool.or_true]⟩
      · have h9 : a ≠ '9' := fun heq => absurd ha' (by rw [heq]; decide)
        have hlt : rank a + 1 < 26 := by
          refine lt_of_le_of_ne ha' fun heq => hz (rank_inj ha ?_)
          rw [show rank 'Z' = 25 by decide]
          omega
        rw [advance_of_lt hlt] at happend
        obtain ⟨hsuffix, hrank⟩ := hturned (succ a) (by rw [happend, hmap, rank_succ ha hz h9])
        exact ⟨_, hsuffix, hrank, by rw [if_neg hz, happend, Bool.or_false]⟩

section Numbers

variable {sid uid uid' t : Str}

theorem number_append (hsid : sid.length = 3) (t : Str) :
    number (sid ++ t) = value radices (t.reverse.map rank) := by
  rw [number, ← hsid, drop_left]

/-- The number of a UID goes up by one, and the flag is set where it does not. -/
theorem number_next (hsid : sid.length = 3) (h : WellFormed sid uid) (flipped : Bool) :
    WellFormed sid (nextUid uid) ∧ number (nextUid uid) = (number uid + 1) % suffixes ∧
      (Counter.next ⟨uid, flipped⟩).flipped = (flipped || decide (number uid + 1 = suffixes)) := by
  obtain ⟨t, ht, rfl⟩ := h
  have hfits := isSuffix_iff.mp ht
  obtain ⟨t', ht', hrank, hnext⟩ := next_spec hsid ht flipped
  have huid : nextUid (sid ++ t) = sid ++ t' := by
    rw [← currentUid_next ⟨sid ++ t, flipped⟩, hnext]
  have hcarry : (advance radices (t.reverse.map rank)).2 = decide (number (sid ++ t) +
      1 = suffixes) := by
    rw [Bool.eq_iff_iff, carry_iff hfits, decide_eq_true_iff, number_append hsid, prod_radices]
  refine ⟨⟨t', ht', huid⟩, ?_, by rw [hnext, hcarry]⟩
  rw [huid, number_append hsid, number_append hsid, hrank, value_advance hfits, prod_radices]

/-- **The candidates are counted.** -/
theorem counts_nextUid (hsid : sid.length = 3) :
    Counts nextUid (WellFormed sid) number suffixes where
  step uid h := (number_next hsid h false).1
  lt uid h := by
    obtain ⟨t, ht, rfl⟩ := h
    rw [number_append hsid, ← prod_radices]
    exact value_lt (isSuffix_iff.mp ht)
  next uid h := (number_next hsid h false).2.1
  inj uid uid' h h' heq := by
    obtain ⟨t, ht, rfl⟩ := h
    obtain ⟨t', ht', rfl⟩ := h'
    rw [number_append hsid, number_append hsid] at heq
    have hranks := value_inj (isSuffix_iff.mp ht) (isSuffix_iff.mp ht') heq
    have hback := congrArg (map (symbols.getD · '\x00')) hranks
    rw [map_rank ht.2.1, map_rank ht'.2.1] at hback
    rw [reverse_injective hback]

theorem currentUid_iterate (st : Counter) (k : ℕ) :
    (Counter.next^[k] st).currentUid = nextUid^[k] st.currentUid := by
  induction k with
  | zero => rfl
  | succ k ih => rw [Function.iterate_succ_apply', Function.iterate_succ_apply', currentUid_next,
    ih]

theorem WellFormed.clean (hsid : ValidSid sid) (h : WellFormed sid uid) : cleanUid uid = true := by
  obtain ⟨t, ⟨hlen, hmem, -⟩, rfl⟩ := h
  obtain ⟨hdigit, hid, hthree⟩ := hsid
  match sid, hthree with
  | d :: ids, hthree =>
    have hall : ∀ c ∈ symbols, isIdChar c = true := all_eq_true.mp (by decide +kernel)
    simp only [cleanUid, cons_append, tail_cons, all_append, Bool.and_eq_true, decide_eq_true_iff]
    refine ⟨⟨hdigit, hid, all_eq_true.mpr fun c hc => hall c (hmem c hc)⟩, ?_⟩
    simp only [length_cons, length_append] at hthree ⊢
    omega

end Numbers

/-! ### Generating -/

/-- What is returned: where the flag is not set, the candidate after one turn; else one that is not
found. -/
theorem generateUid_spec {findId : Str → Bool} {n : ℕ} {st : Counter}
    (h : ∃ k < n, findId (Counter.next^[k + 1] st).currentUid = false) :
    ∃ st', generateUid findId n st = some st' ∧
      ((st'.flipped = true ∧ findId st'.currentUid = false ∧ ∃ k, st' = Counter.next^[k + 1] st) ∨
        (st'.flipped = false ∧ st' = st.next)) := by
  induction n generalizing st with
  | zero =>
    obtain ⟨k, hk, -⟩ := h
    exact absurd hk (Nat.not_lt_zero k)
  | succ n ih =>
    rw [generateUid]
    by_cases hloop : (st.next.flipped && findId st.next.currentUid) = true
    · obtain ⟨hflipped, hfound⟩ := Bool.and_eq_true_iff.mp hloop
      obtain ⟨k, hk, hfree⟩ := h
      have hlater : ∃ k < n, findId (Counter.next^[k + 1] st.next).currentUid = false := by
        cases k with
        | zero => cases hfound.symm.trans hfree
        | succ k => exact ⟨k, by omega, hfree⟩
      obtain ⟨st', heq, hst'⟩ := ih hlater
      rw [if_pos hloop]
      refine ⟨st', heq, .inl ?_⟩
      rcases hst' with ⟨hset, hnot, k, hk⟩ | ⟨hunset, rfl⟩
      · exact ⟨hset, hnot, k + 1, hk⟩
      · -- The flag stays set.
        have hstays : st.next.next.flipped = true := by
          rw [Counter.next]
          dsimp only
          split_ifs <;> first | exact hflipped | rfl
        cases hstays.symm.trans hunset
    · rw [if_neg hloop]
      refine ⟨st.next, rfl, ?_⟩
      cases hflipped : st.next.flipped with
      | false => exact .inr ⟨rfl, rfl⟩
      | true =>
        rw [hflipped, Bool.true_and] at hloop
        exact .inl ⟨rfl, Bool.eq_false_iff.mpr hloop, 0, rfl⟩

/-! ### Runs -/

/-- The counter, the keys in `HASH_ID`, and the UIDs that were generated so far. -/
structure Server where
  counter : Counter
  ids : List Str
  generated : List Str

/-- A UID is generated, or a key is added to the table or removed from it. -/
inductive Op
  | generate
  | add (id : Str)
  | del (id : Str)

namespace Server

/-- A server that starts with a SID. -/
def start (sid : Str) : Server := ⟨initUid sid, [], []⟩

/-- `find_id(id) != NULL`. -/
def findId (sv : Server) (id : Str) : Bool := sv.ids.contains id

/-- `generate_uid`; as many turns as there are UIDs are enough. -/
def generate (sv : Server) : Option Counter := generateUid sv.findId suffixes sv.counter

end Server

/-- The body of an operation. -/
def step (sv : Server) : Op → Option Server
  | .generate => sv.generate.map fun st => { sv with counter := st, generated := sv.generated ++
    [st.currentUid] }
  | .add id => some { sv with ids := id :: sv.ids }
  | .del id => some { sv with ids := sv.ids.erase id }

/-- A UID that carries the SID. -/
def Carries (sid id : Str) : Prop := id.take 3 = sid ∧ id.length = 9

instance (sid id : Str) : Decidable (Carries sid id) := inferInstanceAs (Decidable (_ ∧ _))

/-- The UIDs in use that carry the SID. -/
def inUse (sid : Str) (sv : Server) : Finset Str :=
  (sv.ids.filter fun id => Carries sid id).toFinset

/-- What is put in use with the SID was generated, and UIDs are generated when one is left. -/
def Fair (sid : Str) (sv : Server) : Op → Prop
  | .generate => (inUse sid sv).card < suffixes
  | .add id => Carries sid id → id ∈ sv.generated
  | .del _ => True

instance (sid : Str) (sv : Server) (o : Op) : Decidable (Fair sid sv o) := by
  cases o <;> unfold Fair <;> infer_instance

/-- The counter is at a UID of the server, and has not come round before the flag is set. -/
structure Sound (sid : Str) (sv : Server) : Prop where
  current : WellFormed sid sv.counter.currentUid
  generated : ∀ id ∈ sv.generated, WellFormed sid id
  early : sv.counter.flipped = false → ∀ id ∈ sv.generated, number id ≤ number sv.counter.currentUid
  carries : ∀ id ∈ sv.ids, Carries sid id → id ∈ sv.generated

section Runs

variable {sid : Str} {sv sv' : Server}

theorem sound_start (hsid : sid.length = 3) : Sound sid (.start sid) where
  current := ⟨replicate 6 'A', isSuffix_start, by rw [Server.start, initUid, ← hsid, take_length]⟩
  generated := by simp [Server.start]
  early := by simp [Server.start]
  carries := by simp [Server.start]

theorem WellFormed.carries {uid : Str} (hsid : sid.length = 3) (h : WellFormed sid uid) :
    Carries sid uid := by
  obtain ⟨t, ht, rfl⟩ := h
  refine ⟨by rw [← hsid, take_left], ?_⟩
  rw [length_append, hsid, ht.1]

/-- **A UID is generated**, and is not in use. -/
theorem Sound.generate (h : Sound sid sv) (hsid : sid.length = 3)
    (hfew : (inUse sid sv).card < suffixes) :
    ∃ st, sv.generate = some st ∧ WellFormed sid st.currentUid ∧ st.currentUid ∉ sv.ids ∧
      (st.flipped = false → ∀ id ∈ sv.generated, number id < number st.currentUid) := by
  have hcounts := counts_nextUid hsid
  obtain ⟨k, hk, hfree⟩ := hcounts.exists_notMem h.current hfew
  have hnotFound : sv.findId (Counter.next^[k + 1] sv.counter).currentUid = false := by
    rw [currentUid_iterate, Server.findId, Bool.eq_false_iff, ne_eq, contains_iff_mem]
    intro hmem
    refine hfree (mem_toFinset.mpr (mem_filter.mpr ⟨hmem, ?_⟩))
    exact decide_eq_true ((hcounts.iterate_inv h.current (k + 1)).carries hsid)
  obtain ⟨st, hst, hcases⟩ := generateUid_spec ⟨k, hk, hnotFound⟩
  refine ⟨st, hst, ?_⟩
  rcases hcases with ⟨hset, hnot, j, rfl⟩ | ⟨hunset, rfl⟩
  · rw [currentUid_iterate] at hnot ⊢
    refine ⟨hcounts.iterate_inv h.current (j + 1), fun hmem => ?_, fun hunset => absurd
      (hset.symm.trans hunset) (by simp)⟩
    rw [Server.findId, Bool.eq_false_iff, ne_eq, contains_iff_mem] at hnot
    exact hnot hmem
  · -- The wheels have not come round, so that the number is greater than those before.
    obtain ⟨hwell, hnumber, hflag⟩ := number_next hsid h.current sv.counter.flipped
    have hflag : sv.counter.next.flipped =
        (sv.counter.flipped || decide (number sv.counter.currentUid + 1 = suffixes)) := hflag
    rw [hunset, eq_comm, Bool.or_eq_false_iff, decide_eq_false_iff_not] at hflag
    have hlt := hcounts.lt _ h.current
    rw [Nat.mod_eq_of_lt (by omega)] at hnumber
    have hgreater : ∀ id ∈ sv.generated, number id < number (nextUid sv.counter.currentUid) :=
        fun id hid => by
      have hle := h.early hflag.1 id hid
      omega
    rw [currentUid_next]
    refine ⟨hwell, fun hmem => ?_, fun _ => hgreater⟩
    exact lt_irrefl _ (hgreater _ (h.carries _ hmem (hwell.carries hsid)))

theorem Sound.step (h : Sound sid sv) (hsid : sid.length = 3) {o : Op} (hfair : Fair sid sv o) :
    ∃ sv', step sv o = some sv' ∧ Sound sid sv' := by
  cases o with
  | generate =>
    obtain ⟨st, hst, hwell, -, hgreater⟩ := h.generate hsid hfair
    refine ⟨_, by rw [Uid.step, hst, Option.map_some], hwell, ?_, fun hunset => ?_,
      fun id hid hcarries => ?_⟩
    · exact forall_mem_append.mpr ⟨h.generated, forall_mem_singleton.mpr hwell⟩
    · exact forall_mem_append.mpr
        ⟨fun id hid => (hgreater hunset id hid).le, forall_mem_singleton.mpr le_rfl⟩
    · exact mem_append_left _ (h.carries id hid hcarries)
  | add id =>
    exact ⟨_, rfl, h.current, h.generated, h.early, forall_mem_cons.mpr ⟨hfair, h.carries⟩⟩
  | del id =>
    exact ⟨_, rfl, h.current, h.generated, h.early, fun id' hid' => h.carries id'
      (mem_of_mem_erase hid')⟩

end Runs

/-- **UIDs that are generated** are well formed and not in use, in every run in which those in use
with the SID were generated and one is left whenever one is generated; and the candidates that
follow are all the UIDs, each of them once, before they repeat. -/
theorem generated_fresh {sid : Str} (hsid : ValidSid sid) {ops : List Op}
    (hops : StepsMeet step (Fair sid) (.start sid) ops) :
    ∃ sv, run step (.start sid) ops = some sv ∧
      ((inUse sid sv).card < suffixes → ∃ st, sv.generate = some st ∧ WellFormed sid st.currentUid ∧
        cleanUid st.currentUid = true ∧ st.currentUid ∉ sv.ids) ∧
      (∀ t, IsSuffix t → ∃! k, k < suffixes ∧ (Counter.next^[k + 1] sv.counter).currentUid = sid ++
        t) ∧
      (Counter.next^[suffixes] sv.counter).currentUid = sv.counter.currentUid := by
  have hthree := hsid.2.2
  obtain ⟨sv, hrun, hsound⟩ := progress (Sound sid) (fun sv o h hfair => h.step hthree hfair)
    (sound_start hthree) hops
  have hcounts := counts_nextUid hthree
  simp only [currentUid_iterate]
  refine ⟨sv, hrun, fun hfew => ?_, fun t ht => hcounts.exists_unique hsound.current ⟨t, ht, rfl⟩,
    hcounts.iterate_period hsound.current⟩
  obtain ⟨st, hst, hwell, hfree, -⟩ := hsound.generate hthree hfew
  exact ⟨st, hst, hwell, hwell.clean hsid, hfree⟩

theorem generated_fresh_two :
    ∃ sv, run step (.start "0AA".toList) [.add "0AA".toList, .generate, .add "0AAAAAAAB".toList,
      .generate] = some sv ∧
      ((inUse "0AA".toList sv).card < suffixes → ∃ st, sv.generate = some st ∧
        WellFormed "0AA".toList st.currentUid ∧ cleanUid st.currentUid = true ∧
        st.currentUid ∉ sv.ids) ∧
      (∀ t, IsSuffix t → ∃! k, k < suffixes ∧ (Counter.next^[k + 1] sv.counter).currentUid =
        "0AA".toList ++ t) ∧
      (Counter.next^[suffixes] sv.counter).currentUid = sv.counter.currentUid :=
  generated_fresh (by decide) (by decide +kernel)

end Ratbox.Uid
