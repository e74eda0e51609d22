import Ratbox.Res.Reads

/-!
# The records of an answer

A reply has answer records of several types in any order, each with the length of its data.
`proc_answer` looks for the first one of the type that was asked for. It goes on behind an alias,
but not behind the data of a record of a type that it does not know, gives up at an address or a
name of another type, and reports success when the records run out.

Source: `resolver/res.c`, lines 665–796.

## Main definitions

* `Res.recordAt`, `Res.place`: the records of an answer, one behind the other.
* `Res.cursors`: the places at which the loop of `proc_answer` looks for a record.
* `Res.Right`: success is reported for a record of the right type only, and the other records are
  skipped.
* `Res.Leads`: the records lead to one of the right type.

## Main results

* `Res.procAnswer_right_iff`: when `proc_answer` is right.
-/

namespace Ratbox.Res

open Text Address Option

section Records

variable (env : Env)

/-- A record: its type, the length of its data, and where the data is. -/
structure Record where
  type : ℕ
  rdLength : ℕ
  rdata : ℕ

/-- The place behind a record. -/
def Record.next (rec : Record) : ℕ := rec.rdata + rec.rdLength

/-- The name of the record at a place is broken. -/
abbrev NameBroken (p : Packet) (c : ℕ) : Prop := (env.dnExpand p c (resolverHostlen + 100)).1 ≤ 0

/-- The record at a place, if its name and its fixed fields are there. -/
def recordAt (p : Packet) (c : ℕ) : Option Record :=
  let fixed := c + (env.dnExpand p c (resolverHostlen + 100)).1.toNat
  if c < p.rc ∧ ¬NameBroken env p c ∧ fixed + 10 < p.rc then some ⟨p.get16 fixed,
    p.get16 (fixed + 8), fixed + 10⟩ else none

/-- The place of a record, counted from a place: each record is behind the data of the one
before. -/
def place (p : Packet) : ℕ → ℕ → Option ℕ
  | 0, c => some c
  | k + 1, c => (recordAt env p c).bind fun rec => place p k rec.next

/-- The request with the address or the name of a record. -/
def Record.taken (p : Packet) (rec : Record) (r : Reslist) : Reslist :=
  if rec.type = tA then { r with addr := some (p.ipAt .inet rec.rdata) }
  else if rec.type = tAaaa then { r with addr := some (p.ipAt .inet6 rec.rdata) }
  else { r with name := some (strlcpy (env.dnExpand p rec.rdata (resolverHostlen + 100)).2
    (resolverHostlen + 1)) }

/-- `proc_answer` looks at a record of the type for its data. -/
def IsSought (type : ℕ) : Prop := type = tA ∨ type = tAaaa ∨ type = tPtr

instance (type : ℕ) : Decidable (IsSought type) := inferInstanceAs (Decidable (_ ∨ _))

/-- The values of `current` whenever the test of the loop of `proc_answer` over the answers is
made. -/
def cursors (p : Packet) : ℕ → ℕ → List ℕ
  | 0, current => [current]
  | ancount + 1, current =>
    match recordAt env p current with
    | none => [current]
    | some rec =>
      if IsSought rec.type then [current]
      else current :: cursors p ancount (if rec.type = tCname then rec.next else rec.rdata)

/-! ### What is to hold, and when -/

/-- **`proc_answer` is right** for the answers that begin at a place: success is reported only when
an address or a name was stored from an answer of the type that was asked for, and while the answers
are of other types, it goes on behind the data of each of them. -/
structure RightFrom (p : Packet) (r : Reslist) (ancount start : ℕ) : Prop where
  success : ∀ r', readAnswers env p ancount start r = (true, r') →
    ∃ k < ancount, ∃ c rec, place env p k start = some c ∧ recordAt env p c = some rec ∧
      rec.type = r.type ∧ r' = rec.taken env p r
  skipped : ∀ k ≤ ancount, ∀ c, place env p k start = some c →
    (∀ j < k, ∀ c' rec, place env p j start = some c' → recordAt env p c' = some rec →
      rec.type ≠ r.type) →
    (cursors env p ancount start)[k]? = some c

/-- A record that the loop goes on behind: an alias, or one of an unknown type with no data. -/
def Record.Passed (rec : Record) : Prop := rec.type = tCname ∨ ¬IsSought rec.type ∧ rec.rdLength = 0

instance (rec : Record) : Decidable rec.Passed := inferInstanceAs (Decidable (_ ∨ _))

/-- **The answers lead** to one of the type, or to a broken name, over records that the loop goes on
behind. -/
def Leads (p : Packet) (type : ℕ) : ℕ → ℕ → Prop
  | 0, _ => False
  | ancount + 1, c => c < p.rc ∧ NameBroken env p c ∨
    ∃ rec, recordAt env p c = some rec ∧ (rec.type = type ∨ rec.Passed ∧
      Leads p type ancount rec.next)

/-- `proc_answer` is right for a reply. -/
structure Right (r : Reslist) (p : Packet) : Prop where
  success : ∀ r', procAnswer env r p = (true, r') → ∃ start,
    skipQuestions env p p.qdcount headerSize = some start ∧
    ∃ k < p.ancount, ∃ c rec, place env p k start = some c ∧ recordAt env p c = some rec ∧
      rec.type = r.type ∧ r' = rec.taken env p r
  skipped : ∀ start, skipQuestions env p p.qdcount headerSize = some start → ∀ k ≤ p.ancount, ∀ c,
    place env p k start = some c →
    (∀ j < k, ∀ c' rec, place env p j start = some c' → recordAt env p c' = some rec →
      rec.type ≠ r.type) →
    (cursors env p p.ancount start)[k]? = some c

end Records

/-! ### The loop, record by record -/

section Loop

variable {env : Env} {p : Packet} {r : Reslist} {n c k : ℕ} {rec : Record}

/-- The data of a record that is looked at is as it should be. -/
abbrev Record.Good (env : Env) (p : Packet) (rec : Record) : Prop :=
  (rec.type = tA → rec.rdLength = 4) ∧ (rec.type = tAaaa → rec.rdLength = 16) ∧
    (rec.type = tPtr → ¬NameBroken env p rec.rdata)

theorem good_tA {rdLength rdata : ℕ} : Record.Good env p ⟨tA, rdLength, rdata⟩ ↔ rdLength = 4 := by
  simp [Record.Good, tA, tAaaa, tPtr]

theorem good_tAaaa {rdLength rdata : ℕ} :
    Record.Good env p ⟨tAaaa, rdLength, rdata⟩ ↔ rdLength = 16 := by
  simp [Record.Good, tA, tAaaa, tPtr]

theorem good_tPtr {rdLength rdata : ℕ} :
    Record.Good env p ⟨tPtr, rdLength, rdata⟩ ↔ ¬NameBroken env p rdata := by
  simp [Record.Good, tA, tAaaa, tPtr]

/-- A turn of the loop at a place without a record. -/
theorem readAnswers_of_none (h : recordAt env p c = none) :
    readAnswers env p (n + 1) c r = (!decide (c < p.rc ∧ NameBroken env p c), r) := by
  rw [recordAt] at h
  rw [readAnswers]
  by_cases hend : p.rc ≤ c
  · simp [hend]
  by_cases hbroken : NameBroken env p c
  · rw [if_neg hend, if_pos hbroken]
    simp [not_le.mp hend, hbroken]
  · have hcut : ¬c + (env.dnExpand p c (resolverHostlen + 100)).1.toNat + 10 < p.rc := by
      intro hfits
      simp [not_le.mp hend, hbroken, hfits] at h
    rw [if_neg hend, if_neg hbroken]
    simp [hbroken, hcut]

/-- A turn of the loop at a record. -/
theorem readAnswers_of_some (h : recordAt env p c = some rec) : readAnswers env p (n + 1) c r =
    if IsSought rec.type then if r.type = rec.type ∧ rec.Good env p then
    (true, rec.taken env p r) else (false, r) else readAnswers env p n
    (if rec.type = tCname then rec.next else rec.rdata) r := by
  rw [recordAt] at h
  split_ifs at h with hthere
  obtain ⟨hinside, hname, hfits⟩ := hthere
  cases h
  rw [readAnswers, if_neg (not_le.mpr hinside), if_neg hname]
  dsimp only
  rw [if_neg (not_not.mpr hfits)]
  generalize p.get16 (c + (env.dnExpand p c (resolverHostlen + 100)).1.toNat) = type
  generalize p.get16 (c + (env.dnExpand p c (resolverHostlen + 100)).1.toNat + 8) = rdLength
  generalize c + (env.dnExpand p c (resolverHostlen + 100)).1.toNat + 10 = rdata
  by_cases hA : type = tA
  · subst hA
    simp only [good_tA, if_true, IsSought, true_or, ← ite_not (r.type = tA ∧ rdLength = 4),
      not_and_or]
    rfl
  by_cases hAaaa : type = tAaaa
  · subst hAaaa
    simp only [good_tAaaa, if_neg hA, if_true, IsSought, true_or, or_true,
      ← ite_not (r.type = tAaaa ∧ rdLength = 16), not_and_or]
    rfl
  by_cases hPtr : type = tPtr
  · subst hPtr
    simp only [good_tPtr, if_neg hA, if_neg hAaaa, if_true, IsSought, or_true]
    by_cases htype : r.type = tPtr
    · by_cases hbroken : NameBroken env p rdata
      · simp [htype, hbroken]
      · simp [htype, hbroken, Record.taken, hA, hAaaa]
    · simp [htype]
  · rw [if_neg hA, if_neg hAaaa, if_neg hPtr, if_neg (show ¬IsSought _ from fun h => h.elim hA
      fun h => h.elim hAaaa hPtr)]
    split_ifs <;> rfl

theorem place_succ_of_some (h : recordAt env p c = some rec) (k : ℕ) :
    place env p (k + 1) c = place env p k rec.next := by
  rw [place, h, bind_some]

theorem place_succ_of_none (h : recordAt env p c = none) (k : ℕ) :
    place env p (k + 1) c = none := by
  rw [place, h, bind_none]

theorem cursors_zero (n c : ℕ) : (cursors env p n c)[0]? = some c := by
  cases n with
  | zero => rfl
  | succ n =>
    rw [cursors]
    split
    · rfl
    · split_ifs <;> rfl

/-! ### The condition -/

/-- No answers are left. -/
theorem rightFrom_zero : ¬RightFrom env p r 0 c := by
  intro h
  obtain ⟨k, hk, -⟩ := h.success r rfl
  exact absurd hk (Nat.not_lt_zero k)

/-- There is no record at the place: nothing was stored. -/
theorem rightFrom_of_none (h : recordAt env p c = none) :
    RightFrom env p r (n + 1) c ↔ c < p.rc ∧ NameBroken env p c := by
  constructor
  · intro hright
    by_contra hnot
    obtain ⟨k, -, c', rec, hplace, hrec, -⟩ :=
      hright.success r (by rw [readAnswers_of_none h, decide_eq_false hnot]; rfl)
    cases k with
    | zero =>
      cases hplace
      cases h.symm.trans hrec
    | succ k => cases (place_succ_of_none h k).symm.trans hplace
  · intro hbroken
    refine ⟨fun r' hsuccess => ?_, fun k _ c' hplace _ => ?_⟩
    · rw [readAnswers_of_none h, decide_eq_true hbroken] at hsuccess
      exact absurd (Prod.mk.inj hsuccess).1 (by simp)
    · cases k with
      | zero =>
        cases hplace
        exact cursors_zero _ _
      | succ k => cases (place_succ_of_none h k).symm.trans hplace

section

variable (h : recordAt env p c = some rec)
include h

/-- The record is of the type that was asked for. -/
theorem rightFrom_of_type (htype : rec.type = r.type) (hsought : IsSought rec.type) :
    RightFrom env p r (n + 1) c := by
  refine ⟨fun r' hsuccess => ?_, fun k _ c' hplace hbefore => ?_⟩
  · rw [readAnswers_of_some h, if_pos hsought] at hsuccess
    split_ifs at hsuccess
    · exact ⟨0, Nat.succ_pos n, c, rec, rfl, h, htype, (Prod.mk.inj hsuccess).2.symm⟩
    · exact absurd (Prod.mk.inj hsuccess).1 (by simp)
  · cases k with
    | zero =>
      cases hplace
      exact cursors_zero _ _
    | succ k => exact absurd htype (hbefore 0 (Nat.succ_pos k) c rec rfl h)

/-- The records in front of a place, with one more of another type. -/
theorem before_succ_iff (hne : rec.type ≠ r.type) :
    (∀ j < k + 1, ∀ c' rec, place env p j c = some c' → recordAt env p c' = some rec →
      rec.type ≠ r.type) ↔
      ∀ j < k, ∀ c' rec', place env p j rec.next = some c' → recordAt env p c' = some rec' →
      rec'.type ≠ r.type := by
  constructor
  · intro hall j hj c' rec' hplace
    exact hall (j + 1) (Nat.succ_lt_succ hj) c' rec' ((place_succ_of_some h j).trans hplace)
  · intro hall j hj c' rec' hplace hrec
    cases j with
    | zero =>
      cases hplace
      cases h.symm.trans hrec
      exact hne
    | succ j => exact hall j (Nat.lt_of_succ_lt_succ hj) c' rec' ((place_succ_of_some h
      j).symm.trans hplace) hrec

/-- The loop goes on behind a record of another type. -/
theorem rightFrom_of_passed (hne : rec.type ≠ r.type)
    (hread : readAnswers env p (n + 1) c r = readAnswers env p n rec.next r)
    (hcursors : ∀ k, (cursors env p (n + 1) c)[k + 1]? = (cursors env p n rec.next)[k]?) :
    RightFrom env p r (n + 1) c ↔ RightFrom env p r n rec.next := by
  constructor
  · intro hright
    refine ⟨fun r' hsuccess => ?_, fun k hk c' hplace hbefore => ?_⟩
    · obtain ⟨k, hk, c', rec', hplace, hrec, htype, htaken⟩ :=
        hright.success r' (hread.trans hsuccess)
      cases k with
      | zero =>
        cases hplace
        cases h.symm.trans hrec
        exact absurd htype hne
      | succ k =>
        exact ⟨k, Nat.lt_of_succ_lt_succ hk, c', rec', (place_succ_of_some h k).symm.trans hplace,
          hrec, htype, htaken⟩
    · rw [← hcursors]
      exact hright.skipped (k + 1) (Nat.succ_le_succ hk) c' ((place_succ_of_some h k).trans hplace)
        ((before_succ_iff h hne).mpr hbefore)
  · intro hright
    refine ⟨fun r' hsuccess => ?_, fun k hk c' hplace hbefore => ?_⟩
    · obtain ⟨k, hk, c', rec', hplace, hrec⟩ := hright.success r' (hread.symm.trans hsuccess)
      exact ⟨k + 1, Nat.succ_lt_succ hk, c', rec', (place_succ_of_some h k).trans hplace, hrec⟩
    · cases k with
      | zero =>
        cases hplace
        exact cursors_zero _ _
      | succ k =>
        rw [hcursors]
        exact hright.skipped k (Nat.le_of_succ_le_succ hk) c' ((place_succ_of_some h k).symm.trans
          hplace) ((before_succ_iff h hne).mp hbefore)

/-- The record is of another type: the loop is to go on behind its data. -/
theorem rightFrom_of_ne (hne : rec.type ≠ r.type) :
    RightFrom env p r (n + 1) c ↔ rec.Passed ∧ RightFrom env p r n rec.next := by
  have hcursor : RightFrom env p r (n + 1) c → (cursors env p (n + 1) c)[1]? = some rec.next := by
    refine fun hright => hright.skipped 1 (Nat.succ_pos n) rec.next (place_succ_of_some h 0)
      fun j hj c' rec' hplace hrec => ?_
    obtain rfl := Nat.lt_one_iff.mp hj
    cases hplace
    obtain rfl := some.inj (h.symm.trans hrec)
    exact hne
  rw [cursors, h] at hcursor
  dsimp only at hcursor
  by_cases hsought : IsSought rec.type
  · -- The loop gives up.
    rw [if_pos hsought] at hcursor
    refine iff_of_false (fun hright => absurd (hcursor hright) (by simp)) fun hpassed => ?_
    rcases hpassed.1 with hcname | ⟨hnot, -⟩
    · rw [hcname] at hsought
      exact absurd hsought (by decide)
    · exact hnot hsought
  rw [if_neg hsought, List.getElem?_cons_succ, cursors_zero] at hcursor
  by_cases hpassed : rec.Passed
  · have hnext : (if rec.type = tCname then rec.next else rec.rdata) = rec.next := by
      split_ifs with hcname
      · rfl
      · rw [Record.next, (hpassed.resolve_left hcname).2, Nat.add_zero]
    rw [and_iff_right hpassed]
    refine rightFrom_of_passed h hne ?_ fun k => ?_
    · rw [readAnswers_of_some h, if_neg hsought, hnext]
    · rw [cursors, h]
      dsimp only
      rw [if_neg hsought, List.getElem?_cons_succ, hnext]
  · refine iff_of_false (fun hright => ?_) fun h => hpassed h.1
    have hsame := some.inj (hcursor hright)
    split_ifs at hsame with hcname
    · exact hpassed (Or.inl hcname)
    · rw [Record.next] at hsame
      exact hpassed (Or.inr ⟨hsought, by omega⟩)

end

/-- **From a place**, `proc_answer` is right exactly when the answers lead to one of the type. -/
theorem rightFrom_iff (htype : IsSought r.type) (n c : ℕ) :
    RightFrom env p r n c ↔ Leads env p r.type n c := by
  induction n generalizing c with
  | zero => exact iff_of_false rightFrom_zero id
  | succ n ih =>
    rw [Leads]
    cases hrec : recordAt env p c with
    | none =>
      rw [rightFrom_of_none hrec]
      simp
    | some rec =>
      have hname : ¬(c < p.rc ∧ NameBroken env p c) := by
        intro hbroken
        simp [recordAt, hbroken] at hrec
      rw [or_iff_right hname]
      simp only [some.injEq, exists_eq_left']
      by_cases hsame : rec.type = r.type
      · exact iff_of_true (rightFrom_of_type hrec hsame (hsame ▸ htype)) (.inl hsame)
      · rw [rightFrom_of_ne hrec hsame, ih, or_iff_right hsame]

/-- **`proc_answer` is right** for a reply to a request for an address or a name exactly when the
answers behind the questions lead to one of the type that was asked for, or to a broken name, over
aliases and records of unknown types with no data. -/
theorem procAnswer_right_iff (env : Env) (r : Reslist) (p : Packet) (htype : IsSought r.type) :
    Right env r p ↔ ∀ start, skipQuestions env p p.qdcount headerSize = some start →
    Leads env p r.type p.ancount start := by
  have hproc : ∀ start, skipQuestions env p p.qdcount headerSize = some start →
      procAnswer env r p = readAnswers env p p.ancount start r := by
    intro start hstart
    rw [procAnswer, hstart]
  constructor
  · intro hright start hstart
    refine (rightFrom_iff htype _ _).mp ⟨fun r' hsuccess => ?_, hright.skipped start hstart⟩
    obtain ⟨start', hstart', hfound⟩ := hright.success r' ((hproc start hstart).trans hsuccess)
    cases hstart.symm.trans hstart'
    exact hfound
  · intro hleads
    refine ⟨fun r' hsuccess => ?_, fun start hstart => ((rightFrom_iff htype _ _).mpr
      (hleads start hstart)).skipped⟩
    cases hstart : skipQuestions env p p.qdcount headerSize with
    | none =>
      rw [procAnswer, hstart] at hsuccess
      exact absurd (Prod.mk.inj hsuccess).1 (by simp)
    | some start =>
      exact ⟨start, rfl, ((rightFrom_iff htype _ _).mpr (hleads start hstart)).success r'
        ((hproc start hstart).symm.trans hsuccess)⟩

end Loop

/-- A record of another type with two bytes of data. -/
def someText : List UInt8 := [0xc0, 12, 0, 16, 0, 1, 0, 0, 0, 60, 0, 2, 0, 0]

/-- A reply with such a record in front of the address. -/
def mixedReply : Packet := someReply 2 (someText ++ someAnswer)

theorem procAnswer_right_iff_one : Right (reslib [] fun _ _ => true) someRequest mixedReply ↔
    ∀ start, skipQuestions (reslib [] fun _ _ => true) mixedReply mixedReply.qdcount headerSize =
        some start →
      Leads (reslib [] fun _ _ => true) mixedReply someRequest.type mixedReply.ancount start :=
  procAnswer_right_iff (reslib [] fun _ _ => true) someRequest mixedReply (by decide)

/-- Success is reported for a record of another type alone, and nothing is stored; and the address
behind such a record is not found. -/
theorem not_right : procAnswer (reslib [] fun _ _ => true) someRequest (someReply 1 someText) =
    (true, someRequest) ∧
    (procAnswer (reslib [] fun _ _ => true) someRequest
      (someReply 2 (someText ++ someAnswer))).2.addr ≠ some ⟨.inet, [10, 0, 0, 1]⟩ ∧
    (procAnswer (reslib [] fun _ _ => true) someRequest (someReply 1 someAnswer)).2.addr = some
    ⟨.inet, [10, 0, 0, 1]⟩ := by
  decide +kernel

end Ratbox.Res
