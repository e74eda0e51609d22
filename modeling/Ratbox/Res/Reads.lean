import Ratbox.Res.Names

/-!
# What is read of a reply

`check_question` and `proc_answer` take a message apart that anybody may have sent. All counts,
lengths and pointers in it are compared with the end of the message before a byte is read, but for
two: the length of a bit string, and the bytes of an address, for which only the first one is known
to be there.

Source: `resolver/res.c`, lines 643–796 and 802–870, and `resolver/reslib.c`, lines 295–410 and
505–590.

## Main definitions

* `Res.checkQuestionReads`, `Res.procAnswerReads`: the two functions, with the places that they
  read.
* `Res.AnswersInside`: no name that is come to has a stray byte, and no address that is come to is
  cut off.

## Main results

* `Res.procAnswerReads_spec`, `Res.checkQuestionReads_spec`: what they read, and that the results
  are those of `procAnswer` and `checkQuestion`.
* `Res.reads_inside_iff`: both functions end, and read inside the message, exactly under this
  condition.
-/

namespace Ratbox.Res

open Text Address Scanner List Option

/-! ### The functions -/

/-- What `irc_dn_expand` returns and writes. -/
def dnExpand (p : Packet) (src dstsiz : ℕ) : ℤ × Str :=
  ((ircDnExpand p src dstsiz).map (·.2)).getD (-1, [])

/-- What `irc_dn_skipname` returns. -/
def dnSkipname (p : Packet) (ptr : ℕ) : ℤ := ((ircDnSkipname p ptr).map (·.2)).getD (-1)

/-- The resolver with the functions of `reslib.c`. -/
def reslib (nsaddrList : List Sockaddr) (mkquery : Str → ℕ → Bool) : Env :=
  ⟨nsaddrList, mkquery, dnExpand, dnSkipname⟩

/-- `check_question`, with what it reads. -/
def checkQuestionReads (r : Reslist) (p : Packet) : Option (List ℕ × Bool) :=
  if p.qdcount = 1 then
    (ircDnExpand p headerSize 128).map fun (reads, n, hostbuf) =>
      ([4, 5] ++ reads, decide (0 < n) && strcasecmp hostbuf r.queryname)
  else some ([4, 5], false)

/-- The loop of `proc_answer` over the questions, with what it reads. -/
def skipQuestionsReads (p : Packet) : ℕ → ℕ → Option (List ℕ × Option ℕ)
  | 0, current => some ([], some current)
  | qdcount + 1, current => do
    let (reads, n) ← ircDnSkipname p current
    if n < 0 then some (reads, none)
    else
      let (more, res) ← skipQuestionsReads p qdcount (current + n.toNat + 4)
      some (reads ++ more, res)

/-- The loop of `proc_answer` over the answers, with what it reads. -/
def readAnswersReads (p : Packet) : ℕ → ℕ → Reslist → Option (List ℕ × Bool × Reslist)
  | 0, _, r => some ([], true, r)
  | ancount + 1, current, r =>
    if p.rc ≤ current then some ([], true, r)
    else do
      let (reads, n, _) ← ircDnExpand p current (resolverHostlen + 100)
      if n ≤ 0 then some (reads, false, r)
      else
        let current := current + n.toNat
        if ¬current + 10 < p.rc then some (reads, true, r)
        else
          let type := p.get16 current
          let rdLength := p.get16 (current + 8)
          let reads := reads ++ range' current 10
          let current := current + 10
          if type = tA then
            if r.type ≠ tA ∨ rdLength ≠ 4 then some (reads, false, r)
            else some (reads ++ range' current 4, true, { r with addr := some (p.ipAt .inet current)
              })
          else if type = tAaaa then
            if r.type ≠ tAaaa ∨ rdLength ≠ 16 then some (reads, false, r)
            else some (reads ++ range' current 16, true,
              { r with addr := some (p.ipAt .inet6 current) })
          else if type = tPtr then
            if r.type ≠ tPtr then some (reads, false, r)
            else
              let (more, n, hostbuf) ← ircDnExpand p current (resolverHostlen + 100)
              if n ≤ 0 then some (reads ++ more, false, r)
              else some (reads ++ more, true,
                { r with name := some (strlcpy hostbuf (resolverHostlen + 1)) })
          else
            let (more, res) ← readAnswersReads p ancount (if type = tCname then current + rdLength
              else current) r
            some (reads ++ more, res)

/-- `proc_answer`, with what it reads. -/
def procAnswerReads (r : Reslist) (p : Packet) : Option (List ℕ × Bool × Reslist) := do
  let (reads, current) ← skipQuestionsReads p p.qdcount headerSize
  match current with
  | none => some ([4, 5] ++ reads, false, r)
  | some current =>
    let (more, res) ← readAnswersReads p p.ancount current r
    some ([4, 5] ++ reads ++ ([6, 7] ++ more), res)

/-! ### The condition -/

/-- No question name that is skipped has a stray byte. -/
def QuestionsInside (p : Packet) : ℕ → ℕ → Prop
  | 0, _ => True
  | qdcount + 1, current => SkipInside p current ∧
    (0 ≤ dnSkipname p current → QuestionsInside p qdcount (current + (dnSkipname p current).toNat +
      4))

/-- **The answers are inside.** No name that is expanded has a stray byte, and the address of a
record of the type that was asked for, with the length that an address has, is not cut off; in the
records that are come to. -/
def AnswersInside (p : Packet) (type : ℕ) : ℕ → ℕ → Prop
  | 0, _ => True
  | ancount + 1, current => current < p.rc → UnpackInside p current ∧
    let n := (dnExpand p current (resolverHostlen + 100)).1
    let fixed := current + n.toNat
    let rdata := fixed + 10
    (0 < n → rdata < p.rc →
      if p.get16 fixed = tA then type = tA → p.get16 (fixed + 8) = 4 → rdata + 4 ≤ p.rc
      else if p.get16 fixed = tAaaa then type = tAaaa → p.get16 (fixed + 8) = 16 → rdata + 16 ≤ p.rc
      else if p.get16 fixed = tPtr then type = tPtr → UnpackInside p rdata
      else AnswersInside p type ancount (if p.get16 fixed = tCname then rdata + p.get16 (fixed + 8)
        else rdata))

/-- The condition for a reply to a request. -/
structure ReplyInside (r : Reslist) (p : Packet) : Prop where
  question : p.qdcount = 1 → UnpackInside p headerSize
  questions : QuestionsInside p p.qdcount headerSize
  answers : ∀ current, skipQuestions (reslib [] fun _ _ => true) p p.qdcount headerSize =
    some current → AnswersInside p r.type p.ancount current

/-- A function ends, and all that it reads is inside the message. -/
def EndsInside {ρ : Type} (p : Packet) (result : Option (List ℕ × ρ)) : Prop :=
  ∃ reads r, result = some (reads, r) ∧ ∀ i ∈ reads, i < p.rc

/-! ### The proof -/

section Inside

variable {p : Packet} {r : Reslist} {src dstsiz current n : ℕ}

/-- What `irc_dn_expand` reads and gives. -/
theorem ircDnExpand_spec (p : Packet) (src dstsiz : ℕ) : ∃ reads, ircDnExpand p src dstsiz = some
    (reads, dnExpand p src dstsiz) ∧ ((∀ i ∈ reads, i < p.rc) ↔ UnpackInside p src) := by
  obtain ⟨reads, name, hunpack⟩ := exists_unpack p src
  have hreads : ∃ res, ircDnExpand p src dstsiz = some (reads, res) := by
    rw [ircDnExpand, hunpack, map_some]
    rcases name with - | ⟨n, tmp⟩
    · exact ⟨_, rfl⟩
    · dsimp only
      cases ircNsNameNtop tmp dstsiz <;> exact ⟨_, rfl⟩
  obtain ⟨res, hres⟩ := hreads
  refine ⟨reads, ?_, unpack_inside_iff hunpack⟩
  rw [dnExpand, hres, map_some, getD_some]

/-- What `irc_dn_skipname` reads and gives. -/
theorem ircDnSkipname_spec (p : Packet) (ptr : ℕ) : ∃ reads, ircDnSkipname p ptr = some
    (reads, dnSkipname p ptr) ∧ ((∀ i ∈ reads, i < p.rc) ↔ SkipInside p ptr) := by
  obtain ⟨reads, n, hskip⟩ := exists_skip p ptr
  refine ⟨reads, ?_, skip_inside_iff hskip⟩
  rw [dnSkipname, hskip, map_some, getD_some]

/-- The loop over the questions. -/
theorem skipQuestionsReads_spec (env : Env) (hskip : env.dnSkipname = dnSkipname) (p : Packet)
    (n current : ℕ) :
    ∃ reads, skipQuestionsReads p n current = some (reads, skipQuestions env p n current) ∧
      ((∀ i ∈ reads, i < p.rc) ↔ QuestionsInside p n current) := by
  induction n generalizing current with
  | zero => exact ⟨[], rfl, by simp [QuestionsInside]⟩
  | succ n ih =>
    obtain ⟨reads, hreads, hinside⟩ := ircDnSkipname_spec p current
    rw [skipQuestionsReads, skipQuestions, hreads, hskip, QuestionsInside, ← hinside]
    by_cases hneg : dnSkipname p current < 0
    · refine ⟨reads, ?_, ?_⟩
      · rw [if_pos hneg]
        exact if_pos hneg
      · rw [forall_prop_of_false (Int.not_le.mpr hneg), and_true]
    · obtain ⟨more, hmore, hrest⟩ := ih (current + (dnSkipname p current).toNat + 4)
      refine ⟨reads ++ more, ?_, ?_⟩
      · rw [if_neg hneg]
        refine (if_neg hneg).trans ?_
        rw [hmore]
        rfl
      · rw [forall_prop_of_true (Int.not_lt.mp hneg), forall_mem_append, hrest]

/-- Bytes in a row that begin inside. -/
theorem forall_mem_range'_iff {i k : ℕ} (hk : 0 < k) :
    (∀ j ∈ range' i k, j < p.rc) ↔ i + k ≤ p.rc := by
  simp only [mem_range'_1]
  constructor
  · intro hall
    have := hall (i + k - 1) (by omega)
    omega
  · intro hle j hj
    omega

/-- A record with an address: it is read when the type and the length are right. -/
theorem address_spec {type k rdLength : ℕ} (here : List ℕ) (rdata : ℕ) (hk : 0 < k)
    (wrong right : Bool × Reslist) :
    ∃ reads, (if r.type ≠ type ∨ rdLength ≠ k then some (here, wrong)
        else some (here ++ range' rdata k, right)) =
        some (reads, if r.type ≠ type ∨ rdLength ≠ k then wrong else right) ∧
      ((∀ i ∈ reads, i < p.rc) ↔ (∀ i ∈ here, i < p.rc) ∧
        (r.type = type → rdLength = k → rdata + k ≤ p.rc)) := by
  by_cases hwrong : r.type ≠ type ∨ rdLength ≠ k
  · rw [if_pos hwrong, if_pos hwrong]
    exact ⟨here, rfl, (and_iff_left fun htype hlength => absurd hwrong
      (by simp [htype, hlength])).symm⟩
  · rw [if_neg hwrong, if_neg hwrong]
    rw [not_or, not_not, not_not] at hwrong
    refine ⟨_, rfl, ?_⟩
    rw [forall_mem_append, forall_mem_range'_iff hk, forall_prop_of_true hwrong.1,
      forall_prop_of_true hwrong.2]

/-- The loop over the answers. -/
theorem readAnswersReads_spec (env : Env) (hexpand : env.dnExpand = dnExpand) (p : Packet)
    (r : Reslist) (n current : ℕ) :
    ∃ reads, readAnswersReads p n current r = some (reads, readAnswers env p n current r) ∧
      ((∀ i ∈ reads, i < p.rc) ↔ AnswersInside p r.type n current) := by
  induction n generalizing current with
  | zero => exact ⟨[], rfl, by simp [AnswersInside]⟩
  | succ n ih =>
    obtain ⟨reads, hreads, hinside⟩ := ircDnExpand_spec p current (resolverHostlen + 100)
    rw [readAnswersReads, readAnswers, AnswersInside, hexpand]
    by_cases hend : p.rc ≤ current
    · rw [if_pos hend, if_pos hend]
      exact ⟨[], rfl, iff_of_true (fun i hi => nomatch hi) fun hlt => absurd hlt (not_lt.mpr hend)⟩
    rw [if_neg hend, if_neg hend, hreads, bind_eq_bind, bind_some,
      forall_prop_of_true (not_le.mp hend), ← hinside]
    dsimp only
    generalize (dnExpand p current (resolverHostlen + 100)).1 = m
    by_cases hname : m ≤ 0
    · rw [if_pos hname, if_pos hname]
      exact ⟨reads, rfl, by rw [forall_prop_of_false (Int.not_lt.mpr hname), and_true]⟩
    rw [if_neg hname, if_neg hname, forall_prop_of_true (Int.not_le.mp hname)]
    by_cases hfits : current + m.toNat + 10 < p.rc
    swap
    · rw [if_pos hfits, if_pos hfits]
      exact ⟨reads, rfl, by rw [forall_prop_of_false hfits, and_true]⟩
    rw [if_neg (not_not.mpr hfits), if_neg (not_not.mpr hfits), forall_prop_of_true hfits]
    -- The fixed fields are inside.
    have hfixed : (∀ i ∈ reads ++ range' (current + m.toNat) 10, i < p.rc) ↔
        ∀ i ∈ reads, i < p.rc := by
      rw [forall_mem_append, forall_mem_range'_iff (by omega)]
      exact and_iff_left hfits.le
    rw [← hfixed]
    generalize reads ++ range' (current + m.toNat) 10 = here
    by_cases hA : p.get16 (current + m.toNat) = tA
    · rw [if_pos hA, if_pos hA, if_pos hA]
      exact address_spec here _ (by omega) _ _
    rw [if_neg hA, if_neg hA, if_neg hA]
    by_cases hAaaa : p.get16 (current + m.toNat) = tAaaa
    · rw [if_pos hAaaa, if_pos hAaaa, if_pos hAaaa]
      exact address_spec here _ (by omega) _ _
    rw [if_neg hAaaa, if_neg hAaaa, if_neg hAaaa]
    by_cases hPtr : p.get16 (current + m.toNat) = tPtr
    · rw [if_pos hPtr, if_pos hPtr, if_pos hPtr]
      by_cases htype : r.type = tPtr
      · obtain ⟨more, hmore, hinside'⟩ := ircDnExpand_spec p (current + m.toNat + 10)
          (resolverHostlen + 100)
        rw [if_neg (not_not.mpr htype), if_neg (not_not.mpr htype), hmore, bind_some,
          forall_prop_of_true htype, ← hinside', ← forall_mem_append]
        rcases dnExpand p (current + m.toNat + 10) (resolverHostlen + 100) with ⟨m', hostbuf⟩
        dsimp only
        split_ifs <;> exact ⟨_, rfl, Iff.rfl⟩
      · rw [if_pos htype, if_pos htype]
        exact ⟨here, rfl, by rw [forall_prop_of_false htype, and_true]⟩
    rw [if_neg hPtr, if_neg hPtr, if_neg hPtr]
    -- Another record: the loop goes on.
    obtain ⟨more, hmore, hrest⟩ := ih (if p.get16 (current + m.toNat) = tCname then
      current + m.toNat + 10 + p.get16 (current + m.toNat + 8) else current + m.toNat + 10)
    refine ⟨here ++ more, ?_, by rw [forall_mem_append, hrest]⟩
    rw [hmore, bind_eq_bind, bind_some]
    split_ifs <;> rfl

/-- **The results** are those of the functions that do not say what they read. -/
theorem procAnswerReads_spec (nsaddrList : List Sockaddr) (mkquery : Str → ℕ → Bool) (r : Reslist)
    (p : Packet) (hrc : headerSize < p.rc) :
    ∃ reads, procAnswerReads r p = some (reads, procAnswer (reslib nsaddrList mkquery) r p) ∧
      ((∀ i ∈ reads, i < p.rc) ↔ QuestionsInside p p.qdcount headerSize ∧
        ∀ current, skipQuestions (reslib nsaddrList mkquery) p p.qdcount headerSize = some current →
          AnswersInside p r.type p.ancount current) := by
  obtain ⟨reads, hreads, hquestions⟩ := skipQuestionsReads_spec (reslib nsaddrList mkquery) rfl p
    p.qdcount headerSize
  have hheader : ∀ i, i < 12 → i < p.rc := fun i hi => lt_trans hi hrc
  rw [procAnswerReads, procAnswer, hreads, bind_eq_bind, bind_some, ← hquestions]
  cases hcurrent : skipQuestions (reslib nsaddrList mkquery) p p.qdcount headerSize with
  | none => exact ⟨_, rfl, by simp [hheader]⟩
  | some current =>
    obtain ⟨more, hmore, hanswers⟩ := readAnswersReads_spec (reslib nsaddrList mkquery) rfl p r
      p.ancount current
    dsimp only
    rw [hmore]
    refine ⟨_, rfl, ?_⟩
    simp only [forall_mem_append, hanswers]
    simp [hheader]

theorem checkQuestionReads_spec (nsaddrList : List Sockaddr) (mkquery : Str → ℕ → Bool)
    (r : Reslist) (p : Packet) (hrc : headerSize < p.rc) : ∃ reads, checkQuestionReads r p = some
      (reads, checkQuestion (reslib nsaddrList mkquery) r p) ∧
      ((∀ i ∈ reads, i < p.rc) ↔ (p.qdcount = 1 → UnpackInside p headerSize)) := by
  have hheader : ∀ i, i < 12 → i < p.rc := fun i hi => lt_trans hi hrc
  rw [checkQuestionReads, checkQuestion]
  by_cases hone : p.qdcount = 1
  · obtain ⟨reads, hreads, hinside⟩ := ircDnExpand_spec p headerSize 128
    rw [if_pos hone, hreads, forall_prop_of_true hone, ← hinside]
    refine ⟨[4, 5] ++ reads, ?_, by simp [hheader]⟩
    simp only [hone, decide_true, Bool.true_and]
    rfl
  · rw [if_neg hone, forall_prop_of_false hone]
    exact ⟨[4, 5], by simp [hone], by simp [hheader]⟩

/-- **A reply is read inside.** For each message that is longer than a header, `check_question` and
`proc_answer` end, and read inside the message, exactly when no name that is come to has a stray
byte and no address that is come to is cut off. -/
theorem reads_inside_iff (r : Reslist) (p : Packet) (hrc : headerSize < p.rc) :
    EndsInside p (checkQuestionReads r p) ∧ EndsInside p (procAnswerReads r p) ↔
    ReplyInside r p := by
  obtain ⟨reads, hreads, hquestion⟩ := checkQuestionReads_spec [] (fun _ _ => true) r p hrc
  obtain ⟨reads', hreads', hanswer⟩ := procAnswerReads_spec [] (fun _ _ => true) r p hrc
  have hends : ∀ {ρ : Type} {reads : List ℕ} {x : ρ}, EndsInside p (some (reads, x)) ↔ ∀ i ∈ reads,
      i < p.rc := by
    intro ρ reads x
    constructor
    · rintro ⟨_, _, heq, hall⟩
      cases heq
      exact hall
    · exact fun hall => ⟨reads, x, rfl, hall⟩
  rw [hreads, hreads', hends, hends, hquestion, hanswer]
  exact ⟨fun h => ⟨h.1, h.2.1, h.2.2⟩, fun h => ⟨h.question, h.questions, h.answers⟩⟩

end Inside

/-- A request for the address of `a`. -/
def someRequest : Reslist := ⟨7, tA, ['a'], 3, 1, 1000, 4, none, some ['a'], 0⟩

/-- A reply to the request: the header with the numbers of questions and answers, the question, and
what follows. -/
def someReply (ancount : UInt8) (answers : List UInt8) : Packet :=
  let bytes := [0, 7, 0x81, 0x80, 0, 1, 0, ancount, 0, 0, 0, 0] ++ [1, 97, 0, 0, 1, 0, 1] ++ answers
  ⟨⟨⟨.inet, [127, 0, 0, 1]⟩, 53⟩, fun i => bytes.getD i 0, bytes.length⟩

/-- An answer with the address 10.0.0.1. -/
def someAnswer : List UInt8 := [0xc0, 12, 0, 1, 0, 1, 0, 0, 0, 60, 0, 4, 10, 0, 0, 1]

theorem reads_inside_iff_one :
    EndsInside (someReply 1 someAnswer) (checkQuestionReads someRequest (someReply 1 someAnswer)) ∧
      EndsInside (someReply 1 someAnswer) (procAnswerReads someRequest (someReply 1 someAnswer)) ↔
        ReplyInside someRequest (someReply 1 someAnswer) :=
  reads_inside_iff someRequest (someReply 1 someAnswer) (by decide)

/-- An answer with one byte of an address: three bytes behind the message are read; and a name that
ends with the type of a bit string: the byte behind the message is read. -/
theorem reads_outside :
    checkQuestion (reslib [] fun _ _ => true) someRequest
      (someReply 1 [0xc0, 12, 0, 1, 0, 1, 0, 0, 0, 60, 0, 4, 10]) = true ∧
        (procAnswerReads someRequest
          (someReply 1 [0xc0, 12, 0, 1, 0, 1, 0, 0, 0, 60, 0, 4, 10])).map
          (fun res => res.1.filter (32 ≤ ·)) = some [32, 33, 34] ∧
      (someReply 1 [0xc0, 12, 0, 1, 0, 1, 0, 0, 0, 60, 0, 4, 10]).rc = 32 ∧
      (procAnswerReads someRequest (someReply 1 [0x41])).map (fun res => res.1.filter (20 ≤ ·)) =
      some [20] ∧ (someReply 1 [0x41]).rc = 20 := by
  decide +kernel

end Ratbox.Res
