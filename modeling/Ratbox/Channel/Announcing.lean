import Ratbox.Channel.Joining

/-!
# The status that SJOIN announces

The loop over the nicks announces the status of each client that is named, to the local members of
the channel. A client that is a member already does not get the status, and one that is named
again keeps that of its first naming, but what is announced does not depend on it. The
announcements are right exactly when the members that are named with a status have it already, and
no client that joins is named again with one (`Channel.announced_iff`).

Source: `modules/core/m_join.c`, lines 656–819.

## Main definitions

* `Channel.plusChanges`: what the lines of `+o` and `+v` announce.
* `Channel.Announced`: the announcements are right.
* `Channel.NamedRight`: the condition under which they are.

## Main results

* `Channel.plusChanges_msSjoin`: what is announced.
* `Channel.announced_iff`: when the announcements are right.
-/

namespace Ratbox.Channel

open Text Dlink Run List

variable {w : World} {c : Str} {ch : Chan} {fl : MemberFlags}

/-! ### What is announced -/

/-- The letter stands for a status that the flags have. -/
def MemberFlags.has (fl : MemberFlags) (a : Char) : Bool :=
  (a == 'o' && fl.chanop) || (a == 'v' && fl.voice)

/-- The letters of a status, with the client that has it. -/
def MemberFlags.letters (fl : MemberFlags) (u : ℕ) : List (Char × ℕ) :=
  (if fl.chanop then [('o', u)] else []) ++ (if fl.voice then [('v', u)] else [])

/-- What a line of `+o` and `+v` announces. -/
def Out.plus : Out → List (Char × ℕ)
  | .modes l => if l.dir = '+' then l.changes else []
  | _ => []

/-- What the lines of `+o` and `+v` announce. -/
def plusChanges (out : List Out) : List (Char × ℕ) := out.flatMap Out.plus

@[simp] theorem plusChanges_append (out out' : List Out) :
    plusChanges (out ++ out') = plusChanges out ++ plusChanges out' :=
  flatMap_append

@[simp] theorem plusChanges_nil : plusChanges [] = [] := rfl

@[simp] theorem plusChanges_cons (o : Out) (out : List Out) :
    plusChanges (o :: out) = o.plus ++ plusChanges out :=
  flatMap_cons

section Loop

variable (k : Nicks) (st : Joining)

/-- What was put on lines of modes so far. -/
def Joining.announced (st : Joining) : List (Char × ℕ) := plusChanges st.out ++ st.line

theorem plusChanges_makeRoom (ts6 : Bool) (size : ℕ) (l : NickBuf) :
    plusChanges (makeRoom ts6 size l).2 = [] := by
  rw [makeRoom]
  split_ifs <;> rfl

theorem announced_copyNick (u : ℕ) (fl : MemberFlags) :
    (st.copyNick k u fl).announced = st.announced := by
  simp [Joining.announced, Joining.copyNick, plusChanges_makeRoom]

theorem announced_join (u : ℕ) (fl : MemberFlags) : (st.join k u fl).announced = st.announced := by
  rw [Joining.join]
  split_ifs
  · rfl
  · simp [Joining.announced, plusChanges, Out.plus]

@[simp] theorem announced_flush : (st.flush k).announced = st.announced := by
  rw [Joining.flush]
  split_ifs
  · simp [Joining.announced, plusChanges, Out.plus]
  · rfl

@[simp] theorem announced_put (a : Char) (u : ℕ) :
    (st.put a u).announced = st.announced ++ [(a, u)] := by
  simp [Joining.announced, Joining.put]

theorem announced_announce (u : ℕ) (fl : MemberFlags) :
    (st.announce k u fl).announced = st.announced ++ fl.letters u := by
  simp only [Joining.announce, announced_flush, MemberFlags.letters]
  cases fl.chanop <;> cases fl.voice <;> simp

theorem announced_take (p : ℕ × MemberFlags) :
    (st.take k p).announced = st.announced ++ (k.given p).2.letters p.1 := by
  rw [Joining.take, announced_announce, announced_join, announced_copyNick, Nicks.given]

theorem announced_foldl_take (ps : List (ℕ × MemberFlags)) :
    (ps.foldl (Joining.take k) st).announced =
      st.announced ++ (ps.map k.given).flatMap fun p => p.2.letters p.1 := by
  induction ps generalizing st with
  | nil => simp
  | cons p ps ih =>
    rw [foldl_cons, ih, announced_take, map_cons, flatMap_cons,
      append_assoc]
    rfl

end Loop

theorem plusChanges_takeNicks (net : Net) (k : Nicks) (w : World) (nicks : Str) :
    plusChanges (takeNicks net k w nicks).out =
      ((namedIn net w.client k.client_p nicks).map k.given).flatMap fun p => p.2.letters p.1 := by
  have hfold := announced_foldl_take k (k.start w) (namedIn net w.client k.client_p nicks)
  have hstart : (k.start w).announced = [] := rfl
  rw [hstart, nil_append] at hfold
  rw [takeNicks_eq, ← hfold, Joining.announced]
  dsimp only
  split_ifs with hline
  · rw [hline, append_nil]
  · simp [plusChanges, Out.plus]

/-- What is done about the modes announces no status. -/
theorem plusChanges_takeModes (net : Net) (w : World) (c : Str) (ch : Chan) (isnew : Bool)
    (source : Str) (msg : Sjoin) :
    plusChanges (takeModes net w c ch isnew source msg).2 = [] := by
  have hfinal : ∀ mode oldmode, plusChanges
      (setFinalMode net.services source ch.chname mode oldmode) = [] := by
    intro mode oldmode
    simp only [setFinalMode]
    split_ifs <;> rfl
  have hlost : ∀ w, plusChanges ((removeOurModes net.me w c).2.map .modes) = [] := by
    intro w
    refine flatMap_eq_nil_iff.mpr fun o ho => ?_
    obtain ⟨l, hl, rfl⟩ := mem_map.mp ho
    have hdir := dir_removeOurModes net.me w c l hl
    simp [Out.plus, hdir]
  have hnotice : ∀ chname oldts newts, (Out.notice chname oldts newts).plus = [] :=
    fun _ _ _ => rfl
  simp only [takeModes]
  split_ifs <;> simp [hfinal, hlost, hnotice]

/-- **What is announced.** Each client that is named is announced with the status that the message
gives it. -/
theorem plusChanges_msSjoin {net : Net} {parv : List Str} {msg : Sjoin} (hw : Linked w)
    (hread : readSjoin net.services parv = some msg) (now : ℤ) (client_p source_p : ℕ) :
    plusChanges (msSjoin net now w client_p source_p parv).2 =
      ((namedIn net w.client client_p msg.nicks).map (givenBy w msg now)).flatMap
        fun p => p.2.letters p.1 := by
  obtain ⟨hget, hlinked, hch, -⟩ := hw.worldFor msg now (chname_of_readSjoin hread)
  set w₀ := worldFor w msg now with hw₀
  obtain ⟨noops, ops, hm⟩ := hlinked.exists_members hch
  have hquiet := plusChanges_takeModes net w₀ (chanPtr w msg.chname) (chanFor w msg now).1
    (chanFor w msg now).2 (w₀.client source_p).name msg
  rw [msSjoin_eq hread hget hch]
  cases htm : takeModes net w₀ (chanPtr w msg.chname) (chanFor w msg now).1
    (chanFor w msg now).2 (w₀.client source_p).name msg with
  | mk w₁ out₁ =>
  obtain ⟨-, hclient, -⟩ := hlinked.takeModes hm net _ _ msg htm
  have hnicks := plusChanges_takeNicks net (nicksOf net w₁ (chanPtr w msg.chname)
    (chanFor w msg now).1 (chanFor w msg now).2 client_p source_p msg) w₁ msg.nicks
  rw [hclient, client_worldFor] at hnicks
  rw [htm] at hquiet
  dsimp only at hquiet ⊢
  split_ifs <;> simp [hquiet, hnicks, Out.plus] <;> rfl

/-! ### When the announcements are right -/

/-- Each announcement names a client that has the status, and each client that has joined is
announced once with each status that it has. -/
structure Announced (w w' : World) (c : Str) (out : List Out) : Prop where
  carried : ∀ a u, (a, u) ∈ plusChanges out → ∃ fl, HasStatus w'.mem c u fl ∧ fl.has a = true
  once : ∀ u fl, HasStatus w'.mem c u fl → ¬Member w c u → ∀ a, fl.has a = true →
    (plusChanges out).count (a, u) = 1

/-- The members that are named with a status have it, and no client that joins is named again with
one. -/
structure NamedRight (w : World) (c : Str) (left : ℕ → Option Membership)
    (ps : List (ℕ × MemberFlags)) : Prop where
  members : ∀ p ∈ ps, Member w c p.1 → ∀ a, p.2.has a = true →
    ∃ fl, HasStatus left c p.1 fl ∧ fl.has a = true
  again : ∀ u, ¬Member w c u → ∀ p ∈ (ps.filter fun p => p.1 == u).tail, ∀ a, p.2.has a = false

theorem mem_letters {u u' : ℕ} {a : Char} : (a, u) ∈ fl.letters u' ↔ u' = u ∧ fl.has a = true := by
  rw [MemberFlags.letters, MemberFlags.has]
  cases fl.chanop <;> cases fl.voice <;> simp <;> grind

theorem count_letters (fl : MemberFlags) (u u' : ℕ) (a : Char) :
    (fl.letters u').count (a, u) = if u' = u ∧ fl.has a = true then 1 else 0 := by
  have hnd : (fl.letters u').Nodup := by
    rw [MemberFlags.letters]
    cases fl.chanop <;> cases fl.voice <;> simp
  rw [hnd.count]
  simp [mem_letters]

/-- The announcements of a client, from the times that it is named. -/
theorem count_announced (ps : List (ℕ × MemberFlags)) (u : ℕ) (a : Char) :
    (ps.flatMap fun p => p.2.letters p.1).count (a, u) =
      (ps.filter fun p => p.1 == u).countP fun p => p.2.has a := by
  induction ps with
  | nil => rfl
  | cons p ps ih =>
    rw [flatMap_cons, count_append, ih, count_letters]
    by_cases hu : p.1 = u
    · rw [filter_cons_of_pos (by simpa using hu), countP_cons, Nat.add_comm]
      simp [hu]
    · rw [filter_cons_of_neg (by simpa using hu)]
      simp [hu]

theorem mem_announced (ps : List (ℕ × MemberFlags)) (u : ℕ) (a : Char) :
    (a, u) ∈ ps.flatMap (fun p => p.2.letters p.1) ↔ ∃ p ∈ ps, p.1 = u ∧ p.2.has a = true := by
  simp [mem_letters]

/-- The announcements are right, for the clients that are named and the status they are given. -/
theorem announced_iff_namedRight {w' : World} {out : List Out} {left : ℕ → Option Membership}
    {ps : List (ℕ × MemberFlags)} (hplus : plusChanges out = ps.flatMap fun p => p.2.letters p.1)
    (hleft : ∀ u fl, HasStatus left c u fl → Member w c u)
    (hstatus : ∀ u fl, HasStatus w'.mem c u fl ↔ HasStatus left c u fl ∨
      ¬Member w c u ∧ (ps.find? fun p => p.1 == u).map Prod.snd = some fl) :
    Announced w w' c out ↔ NamedRight w c left ps := by
  have hfind : ∀ u fl, (ps.find? fun p => p.1 == u).map Prod.snd = some fl ↔
      ∃ qs, ps.filter (fun p => p.1 == u) = (u, fl) :: qs := by
    intro u fl
    rw [← head?_filter, Option.map_eq_some_iff]
    cases hq : ps.filter (fun p => p.1 == u) with
    | nil => simp
    | cons q qs =>
      have hqu : q.1 = u := by
        have hmem : q ∈ ps.filter (fun p => p.1 == u) := hq ▸ mem_cons_self
        simpa using (mem_filter.mp hmem).2
      constructor
      · rintro ⟨p, hp, rfl⟩
        cases hp
        exact ⟨qs, by rw [← hqu]⟩
      · rintro ⟨qs', hqs⟩
        exact ⟨q, rfl, by rw [(cons.inj hqs).1]⟩
  have hof : ∀ {u p}, p ∈ ps.filter (fun p => p.1 == u) → p ∈ ps ∧ p.1 = u := by
    intro u p hp
    simpa using hp
  constructor
  · intro h
    refine ⟨fun p hp hmember a ha => ?_, fun u hnot p hp a => ?_⟩
    · obtain ⟨fl, hfl, hhas⟩ := h.carried a p.1
        (hplus ▸ (mem_announced ps p.1 a).mpr ⟨p, hp, rfl, ha⟩)
      rcases (hstatus p.1 fl).mp hfl with hfl | ⟨hnot, -⟩
      · exact ⟨fl, hfl, hhas⟩
      · exact absurd hmember hnot
    · -- a second announcement would be one too many, or one of a status not given
      by_contra hhas
      have ha : p.2.has a = true := by simpa using hhas
      have hpu := hof (mem_of_mem_tail hp)
      obtain ⟨fl, hfl, hfla⟩ := h.carried a u
        (hplus ▸ (mem_announced ps u a).mpr ⟨p, hpu.1, hpu.2, ha⟩)
      have hfirst := ((hstatus u fl).mp hfl).resolve_left fun h => hnot (hleft u fl h)
      obtain ⟨qs, hqs⟩ := (hfind u fl).mp hfirst.2
      have honce := h.once u fl hfl hnot a hfla
      rw [hplus, count_announced, hqs, countP_cons, hfla] at honce
      rw [hqs, tail_cons] at hp
      have hpos : 0 < qs.countP fun p => p.2.has a := countP_pos_iff.mpr ⟨p, hp, ha⟩
      simp only [↓reduceIte] at honce
      omega
  · intro h
    refine ⟨fun a u hmem => ?_, fun u fl hfl hnot a ha => ?_⟩
    · rw [hplus, mem_announced] at hmem
      obtain ⟨p, hp, rfl, ha⟩ := hmem
      by_cases hmember : Member w c p.1
      · obtain ⟨fl, hfl, hhas⟩ := h.members p hp hmember a ha
        exact ⟨fl, (hstatus p.1 fl).mpr (.inl hfl), hhas⟩
      · have hpf : p ∈ ps.filter (fun q => q.1 == p.1) := mem_filter.mpr ⟨hp, by simp⟩
        cases hq : ps.filter (fun q => q.1 == p.1) with
        | nil => simp [hq] at hpf
        | cons q qs =>
          have hqu : q.1 = p.1 := (hof (hq ▸ mem_cons_self)).2
          have hfirst : HasStatus w'.mem c p.1 q.2 :=
            (hstatus p.1 q.2).mpr (.inr ⟨hmember, (hfind p.1 q.2).mpr ⟨qs, by rw [hq, ← hqu]⟩⟩)
          rw [hq] at hpf
          rcases mem_cons.mp hpf with rfl | hpt
          · exact ⟨p.2, hfirst, ha⟩
          · have hnone := h.again p.1 hmember p (by rw [hq]; exact hpt) a
            rw [ha] at hnone
            cases hnone
    · have hfirst := ((hstatus u fl).mp hfl).resolve_left fun h => hnot (hleft u fl h)
      obtain ⟨qs, hqs⟩ := (hfind u fl).mp hfirst.2
      have hzero : (qs.countP fun p => p.2.has a) = 0 := by
        refine countP_eq_zero.mpr fun p hp => ?_
        rw [h.again u hnot p (by rw [hqs]; exact hp) a]
        exact Bool.false_ne_true
      rw [hplus, count_announced, hqs, countP_cons, ha, hzero]
      rfl

theorem member_of_memAtNicks {msg : Sjoin} {now : ℤ} {u : ℕ}
    (h : HasStatus (memAtNicks w msg now) c u fl) : Member w c u := by
  have hmember : Member { w with mem := memAtNicks w msg now } c u ↔ Member w c u :=
    member_of_leftMem (fun _ => rfl) c u
  exact hmember.mp h.member

/-- **When the announcements are right.** A message announces the status that its clients have,
and each status once, exactly when its own modes are ignored, or the members that it names with a
status have it already, after `remove_our_modes` where the message wins, and it names no client
that joins a second time with a status. -/
theorem announced_iff {net : Net} {parv : List Str} {msg : Sjoin} (hw : Linked w)
    (hread : readSjoin net.services parv = some msg) (now : ℤ) (client_p source_p : ℕ) :
    Announced w (msSjoin net now w client_p source_p parv).1 (chanPtr w msg.chname)
        (msSjoin net now w client_p source_p parv).2 ↔
      ((resolvedFor w msg now).keepNew = true →
        NamedRight w (chanPtr w msg.chname) (memAtNicks w msg now)
          (namedIn net w.client client_p msg.nicks)) := by
  have hs := hw.sjoined hread now client_p source_p
  rw [announced_iff_namedRight (plusChanges_msSjoin hw hread now client_p source_p)
    (fun u fl => member_of_memAtNicks) hs.status]
  cases hkeep : (resolvedFor w msg now).keepNew with
  | true =>
    have hgiven : givenBy w msg now = id := by
      funext p
      simp [givenBy, hkeep]
    rw [hgiven, map_id]
    exact ⟨fun h _ => h, fun h => h rfl⟩
  | false =>
    -- what is announced is nothing
    have hnone : ∀ p ∈ (namedIn net w.client client_p msg.nicks).map (givenBy w msg now),
        ∀ a, p.2.has a = false := by
      intro p hp a
      obtain ⟨q, -, rfl⟩ := mem_map.mp hp
      simp [givenBy, hkeep, MemberFlags.has]
    refine iff_of_true ⟨fun p hp _ a ha => ?_, fun u _ p hp a => ?_⟩ nofun
    · rw [hnone p hp a] at ha
      cases ha
    · exact hnone p (mem_of_mem_filter (mem_of_mem_tail hp)) a

/-- A message that names a member without status and a client that joins as an operator. -/
def joinB : List Str := [['s'], ['5'], ['#'], ['+'], ['a', ' ', '@', 'b']]

theorem announced_iff_oneMember :
    Announced oneMember (msSjoin smallNet 0 oneMember 0 0 joinB).1 ['#']
        (msSjoin smallNet 0 oneMember 0 0 joinB).2 ↔
      ((resolvedFor oneMember ⟨5, ['#'], ['+'], .empty, ['a', ' ', '@', 'b']⟩ 0).keepNew = true →
        NamedRight oneMember ['#']
          (memAtNicks oneMember ⟨5, ['#'], ['+'], .empty, ['a', ' ', '@', 'b']⟩ 0)
          (namedIn smallNet oneMember.client 0 ['a', ' ', '@', 'b'])) := by
  have hread : readSjoin smallNet.services joinB =
      some ⟨5, ['#'], ['+'], .empty, ['a', ' ', '@', 'b']⟩ := by
    decide
  exact announced_iff linked_oneMember hread 0 0 0

/-- A member without status is named as an operator: `+o` is announced, and it has no status. -/
theorem member_announced :
    plusChanges (msSjoin smallNet 0 oneMember 0 0
        [['s'], ['5'], ['#'], ['+'], ['@', 'a']]).2 = [('o', 1)] ∧
      (msSjoin smallNet 0 oneMember 0 0 [['s'], ['5'], ['#'], ['+'], ['@', 'a']]).1.mem 0 =
        some ⟨['#'], 1, .peon⟩ := by
  decide

end Ratbox.Channel
