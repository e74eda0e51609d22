import Ratbox.Gline.Basic

/-!
# Three votes for each G-line

Whatever commands, events and changes of the time follow each other, each G-line that is in force
was asked for by three clients of three servers, no two of whom are the same, and each within ten
minutes of the one before. The third vote is the one that placed it, and the mask was not glined
between the first vote and the third one, nor since, so that no vote counts twice.

## Main definitions

* `Gline.Entry`, `Gline.log`: the votes and the G-lines that are placed, in order.
* `Gline.SameVoter`: two votes are of one client, or of one server.
* `Gline.Backed`, `Gline.Agreed`: the votes behind a request, and behind a G-line.

## Main results

* `Gline.glined_agreed`: each G-line has its three votes.

The first vote counts for its mask cut to the lengths of `struct gline_pending`, the others for the
mask as it is. That a client is an oper is checked where it is local only.
-/

namespace Ratbox.Gline

open Text List

/-- What masks have in common that are equal up to case. -/
def key (user host : Str) : Str × Str := (user.map toUpper, host.map toUpper)

theorem sameMask_iff {user host user' host' : Str} :
    sameMask user host user' host' = true ↔ key user host = key user' host' := by
  rw [sameMask, Bool.and_eq_true, irccmp, irccmp, beq_iff_eq, beq_iff_eq, key, key, Prod.mk.injEq]

/-- The mask that a request for the vote is for. -/
def Vote.cutKey (v : Vote) : Str × Str := key (v.user.take userLen) (v.host.take hostLen)

/-- The mask of a vote. -/
def Vote.key (v : Vote) : Str × Str := Gline.key v.user v.host

/-- The mask of a request. -/
def Pending.key (p : Pending) : Str × Str := Gline.key p.user p.host

/-- The mask of a G-line. -/
def Conf.key (g : Conf) : Str × Str := Gline.key g.user g.host

/-- Two votes are of one client, told by the user and the host, or of one server. -/
def SameVoter (v w : Vote) : Prop :=
  (irccmp v.source.username w.source.username ∧ irccmp v.source.host w.source.host) ∨
    irccmp v.source.server w.source.server

instance (v w : Vote) : Decidable (SameVoter v w) := inferInstanceAs (Decidable (_ ∨ _))

/-- A vote at a time, with the text of the date, or a G-line that is placed. -/
inductive Entry
  | vote (v : Vote) (now : ℤ) (date : Str)
  | placed (user host : Str)
  deriving DecidableEq

/-- What an operation adds to the log. -/
def entries (u : Setup) (s : State) (op : Op) : List Entry :=
  match op.vote? u with
  | none => []
  | some (v, date) =>
    .vote v s.now date ::
      if (s.majorityGline u v.source v.user v.host v.reason date).2 then [.placed v.user v.host]
      else []

/-- The state after some operations. -/
def run (u : Setup) (s : State) (ops : List Op) : State := ops.foldl (step u) s

/-- The votes and the G-lines of a run. -/
def log (u : Setup) (s : State) (ops : List Op) : List Entry :=
  Run.emitted (entries u) (fun s op => some (step u s op)) s ops

/-- No G-line for the mask is placed. -/
def NotPlaced (k : Str × Str) (l : List Entry) : Prop :=
  ∀ user host, .placed user host ∈ l → key user host ≠ k

/-- The first vote of a request. -/
structure IsFirst (p : Pending) (v : Vote) : Prop where
  user : p.operUser1 = v.source.username
  host : p.operHost1 = v.source.host
  server : p.operServer1 = v.source.server
  reason : p.reason1 = v.reason
  key : v.cutKey = p.key

/-- The second vote of a request. -/
structure IsSecond (p : Pending) (w : Vote) : Prop where
  user : p.operUser2 = w.source.username
  host : p.operHost2 = w.source.host
  server : p.operServer2 = w.source.server
  key : w.key = p.key

/-- **The votes behind a request**: one, or two that are not of one voter. -/
inductive Backed (l : List Entry) (p : Pending) : Prop
  | one (a b : List Entry) (v : Vote) (date : Str)
      (hlog : l = a ++ .vote v p.lastGlineTime date :: b) (hfirst : IsFirst p v)
      (hnone : p.operUser2 = []) (hnot : NotPlaced p.key b) : Backed l p
  | two (a b c : List Entry) (v w : Vote) (t : ℤ) (date date' : Str)
      (hlog : l = a ++ .vote v t date :: b ++ .vote w p.lastGlineTime date' :: c)
      (hfirst : IsFirst p v) (hsecond : IsSecond p w) (hother : ¬SameVoter v w)
      (htime : p.lastGlineTime < t + pendingExpire) (hnot : NotPlaced p.key (b ++ c)) : Backed l p

/-- **A G-line that three votes make**, the third of them at a time with the text of the date. -/
structure OfVotes (u : Setup) (g : Conf) (v w x : Vote) (now : ℤ) (date : Str) : Prop where
  first : v.cutKey = g.key
  second : w.key = g.key
  user : g.user = x.user
  host : g.host = x.host
  passwd : g.passwd = strlcpy (v.reason ++ " (".toList ++ date ++ ")".toList) 512
  spasswd : g.spasswd = operReason v.reason
  hold : g.hold = now + u.glineTime
  others : ¬SameVoter v w ∧ ¬SameVoter v x ∧ ¬SameVoter w x

/-- **The votes behind a G-line**: three of different voters, each in time after the one before. The
third placed it, and its mask was not glined between the first and the third, nor since. -/
def Agreed (u : Setup) (l : List Entry) (g : Conf) : Prop :=
  ∃ (a b c d : List Entry) (v w x : Vote) (t t' t'' : ℤ) (date date' date'' : Str),
    l = a ++ .vote v t date :: b ++ .vote w t' date' :: c ++
      .vote x t'' date'' :: .placed x.user x.host :: d ∧
    OfVotes u g v w x t'' date'' ∧ t' < t + pendingExpire ∧ t'' < t' + pendingExpire ∧
    NotPlaced g.key (b ++ c ++ d)

variable {u : Setup} {s : State} {l l' : List Entry} {p : Pending} {g : Conf} {k : Str × Str}
  {v : Vote} {date : Str} {op : Op} {ops : List Op}

theorem isFor_iff {user host : Str} : p.isFor user host = true ↔ p.key = key user host :=
  sameMask_iff

theorem NotPlaced.append (h : NotPlaced k l) (h' : NotPlaced k l') : NotPlaced k (l ++ l') :=
  fun user host hmem => (mem_append.mp hmem).elim (h user host) (h' user host)

theorem notPlaced_vote (k : Str × Str) (v : Vote) (t : ℤ) (date : Str) :
    NotPlaced k [.vote v t date] := fun user host hmem => by simp at hmem

theorem Backed.append (h : Backed l p) (hnot : NotPlaced p.key l') : Backed (l ++ l') p := by
  cases h with
  | one a b v date hlog hfirst hnone hb =>
    exact .one a (b ++ l') v date (by rw [hlog]; simp) hfirst hnone (hb.append hnot)
  | two a b c v w t date date' hlog hfirst hsecond hother htime hbc =>
    refine .two a b (c ++ l') v w t date date' (by rw [hlog]; simp) hfirst hsecond hother htime ?_
    rw [← append_assoc]
    exact hbc.append hnot

theorem Agreed.append (h : Agreed u l g) (hnot : NotPlaced g.key l') : Agreed u (l ++ l') g := by
  obtain ⟨a, b, c, d, v, w, x, t, t', t'', date, date', date'', hlog, h, ht, ht', hplaced⟩ := h
  refine ⟨a, b, c, d ++ l', v, w, x, t, t', t'', date, date', date'', by rw [hlog]; simp, h, ht,
    ht', ?_⟩
  rw [← append_assoc]
  exact hplaced.append hnot

theorem take_field {s : Str} {n : ℕ} (h : s.length ≤ n) : strlcpy s (n + 1) = s :=
  take_of_length_le h

/-- The vote of the first voter of a request is of the same voter as another one. -/
theorem IsFirst.voted1_iff (hp : IsFirst p v) (w : Vote) :
    p.voted1 w.source = true ↔ SameVoter v w := by
  simp [Pending.voted1, SameVoter, hp.user, hp.host, hp.server]

theorem IsSecond.voted2_iff (hp : IsSecond p v) (w : Vote) :
    p.voted2 w.source = true ↔ SameVoter v w := by
  simp [Pending.voted2, SameVoter, hp.user, hp.host, hp.server]

theorem isFirst_first (v : Vote) (now : ℤ) :
    IsFirst (.first v.source v.user v.host v.reason now) v where
  user := take_field v.source.length_username
  host := take_field v.source.length_host
  server := rfl
  reason := rfl
  key := rfl

theorem isSecond_second (w : Vote) (reason : Str) (now : ℤ) (hkey : w.key = p.key) :
    IsSecond (p.second w.source reason now) w where
  user := take_field w.source.length_username
  host := take_field w.source.length_host
  server := rfl
  key := hkey

theorem mem_updateFirst {user host : Str} {f : Pending → Pending} {q : Pending} {ps : List Pending}
    (h : q ∈ updateFirst user host f ps) :
    q ∈ ps ∨ ∃ p, ps.find? (·.isFor user host) = some p ∧ q = f p := by
  induction ps with
  | nil => exact absurd h not_mem_nil
  | cons p ps ih =>
    rw [updateFirst] at h
    split_ifs at h with hp
    · rcases mem_cons.mp h with rfl | hq
      · exact .inr ⟨p, find?_cons_of_pos hp, rfl⟩
      · exact .inl (mem_cons_of_mem _ hq)
    · rw [find?_cons_of_neg hp]
      rcases mem_cons.mp h with rfl | hq
      · exact .inl mem_cons_self
      · exact (ih hq).imp_left (mem_cons_of_mem _)

/-! ### What a vote does -/

/-- What can come of a vote: nothing, a new request, a second vote, or a G-line. -/
theorem majorityGline_cases (u : Setup) (s : State) (v : Vote) (date : Str) :
    (s.majorityGline u v.source v.user v.host v.reason date = (s.expirePendingGlines, false)) ∨
    s.majorityGline u v.source v.user v.host v.reason date = ({ s.expirePendingGlines with
      pending := .first v.source v.user v.host v.reason s.now ::
        s.expirePendingGlines.pending }, false) ∨
    (∃ p, s.expirePendingGlines.pending.find? (·.isFor v.user v.host) = some p ∧
      ¬p.voted1 v.source ∧ p.operUser2 = [] ∧
      s.majorityGline u v.source v.user v.host v.reason date = ({ s.expirePendingGlines with
        pending := updateFirst v.user v.host (·.second v.source v.reason s.now)
          s.expirePendingGlines.pending }, false)) ∨
    (∃ p, s.expirePendingGlines.findIsGlined v.host v.user = none ∧
      s.expirePendingGlines.pending.find? (·.isFor v.user v.host) = some p ∧
      ¬p.voted1 v.source ∧ p.operUser2 ≠ [] ∧ ¬p.voted2 v.source ∧
      s.majorityGline u v.source v.user v.host v.reason date =
        ((s.expirePendingGlines.setLocalGline u v.user v.host p.reason1 date).expirePendingGlines,
          true)) := by
  rw [State.majorityGline]
  dsimp only
  split_ifs with hglined
  · exact .inl rfl
  · have hglined' : s.expirePendingGlines.findIsGlined v.host v.user = none := by
      simpa using hglined
    split
    · exact .inr (.inl rfl)
    · next p hfind =>
      split_ifs with h1 h2 h3
      · exact .inl rfl
      · exact .inl rfl
      · exact .inr (.inr (.inr ⟨p, hglined', hfind, h1, h2, h3, rfl⟩))
      · exact .inr (.inr (.inl ⟨p, hfind, h1, not_not.mp h2, rfl⟩))

/-- A request that is kept was not too old, and is for no mask that is glined. -/
theorem mem_expirePendingGlines (hp : p ∈ s.expirePendingGlines.pending) :
    p ∈ s.pending ∧ s.now < p.lastGlineTime + pendingExpire ∧ ∀ g ∈ s.glines, g.key ≠ p.key := by
  obtain ⟨hmem, hkeep⟩ := mem_filter.mp hp
  simp only [Bool.not_eq_true', Bool.or_eq_false_iff, decide_eq_false_iff_not, not_le,
    Option.isSome_eq_false_iff, Option.isNone_iff_eq_none, State.findIsGlined,
    find?_eq_none] at hkeep
  exact ⟨hmem, hkeep.1, fun g hg heq => hkeep.2 g hg (sameMask_iff.mpr heq)⟩

/-! ### The votes of a run -/

/-- **Requests and G-lines have their votes.** -/
structure Inv (u : Setup) (s : State) (l : List Entry) : Prop where
  backed : ∀ p ∈ s.pending, Backed l p
  agreed : ∀ g ∈ s.glines, Agreed u l g

theorem Inv.mono {s' : State} (h : Inv u s l) (hpending : s'.pending ⊆ s.pending)
    (hglines : s'.glines ⊆ s.glines) : Inv u s' l :=
  ⟨fun p hp => h.backed p (hpending hp), fun g hg => h.agreed g (hglines hg)⟩

theorem Inv.expirePendingGlines (h : Inv u s l) : Inv u s.expirePendingGlines l :=
  h.mono (fun _ hp => (mem_filter.mp hp).1) fun _ hg => hg

/-- A vote that places no G-line. -/
theorem Inv.vote (h : Inv u s l) (v : Vote) (t : ℤ) (date : Str) :
    Inv u s (l ++ [.vote v t date]) :=
  ⟨fun p hp => (h.backed p hp).append (notPlaced_vote _ v t date),
    fun g hg => (h.agreed g hg).append (notPlaced_vote _ v t date)⟩

/-- The request that a vote is for. -/
theorem exists_of_find? {user host : Str}
    (hfind : s.expirePendingGlines.pending.find? (·.isFor user host) = some p) :
    p ∈ s.expirePendingGlines.pending ∧ p.key = key user host ∧
      s.now < p.lastGlineTime + pendingExpire := by
  have hmem := mem_of_find?_eq_some hfind
  exact ⟨hmem, isFor_iff.mp (by simpa using find?_some hfind),
    (mem_expirePendingGlines hmem).2.1⟩

/-- **A vote** keeps the votes of requests and G-lines. -/
theorem Inv.majorityGline (h : Inv u s l) (v : Vote) (date : Str) :
    Inv u (s.majorityGline u v.source v.user v.host v.reason date).1 (l ++ .vote v s.now date ::
      if (s.majorityGline u v.source v.user v.host v.reason date).2 then [.placed v.user v.host]
      else []) := by
  have hvote := h.expirePendingGlines.vote v s.now date
  rcases majorityGline_cases u s v date with heq | heq | ⟨p, hfind, hvoted, hnone, heq⟩ |
    ⟨p, hglined, hfind, hvoted1, hsome, hvoted2, heq⟩
  · rw [heq]
    exact hvote
  · -- a new request
    rw [heq]
    refine ⟨fun q hq => ?_, hvote.agreed⟩
    rcases mem_cons.mp hq with rfl | hq
    · exact .one l [] v date rfl (isFirst_first v s.now) rfl fun _ _ hmem =>
        absurd hmem not_mem_nil
    · exact hvote.backed q hq
  · -- the second vote
    rw [heq]
    refine ⟨fun q hq => ?_, hvote.agreed⟩
    rcases mem_updateFirst hq with hq | ⟨p', hfind', rfl⟩
    · exact hvote.backed q hq
    · cases hfind.symm.trans hfind'
      obtain ⟨hmem, hkey, htime⟩ := exists_of_find? hfind
      have hbacked := h.backed p (mem_expirePendingGlines hmem).1
      cases hbacked with
      | one a b w date' hlog hfirst _ hnot =>
        refine .two a b [] w v p.lastGlineTime date' date ?_
          ⟨hfirst.user, hfirst.host, hfirst.server, hfirst.reason, hfirst.key⟩
          (isSecond_second v v.reason s.now hkey.symm)
          (fun hsame => hvoted ((hfirst.voted1_iff v).mpr hsame)) htime ?_
        · rw [hlog]
          rfl
        · rwa [append_nil]
      | two a b c w x t _ _ hlog hfirst hsecond _ _ _ =>
        exact absurd (hsecond.user.symm.trans hnone) x.source.username_ne_nil
  · -- the third vote
    rw [heq]
    obtain ⟨hmem, hkey, htime⟩ := exists_of_find? hfind
    have hbacked := h.backed p (mem_expirePendingGlines hmem).1
    have hplaced : ∀ k, key v.user v.host ≠ k →
        NotPlaced k [.vote v s.now date, .placed v.user v.host] := by
      intro k hne user host hin
      have hin : user = v.user ∧ host = v.host := by simpa using hin
      rw [hin.1, hin.2]
      exact hne
    refine ⟨fun q hq => ?_, fun g hg => ?_⟩
    · obtain ⟨hq, -, hother⟩ := mem_expirePendingGlines hq
      exact (h.expirePendingGlines.backed q hq).append
        (hplaced _ (hother _ (mem_append_right _ mem_cons_self)))
    · rcases mem_append.mp hg with hg | hg
      · -- those in force are for other masks
        refine (h.agreed g hg).append (hplaced _ fun heq => ?_)
        exact find?_eq_none.mp hglined g hg (sameMask_iff.mpr heq.symm)
      · obtain rfl := mem_singleton.mp hg
        cases hbacked with
        | one a b w _ hlog hfirst hnone _ => exact absurd hnone hsome
        | two a b c w x t date' date'' hlog hfirst hsecond hother hgap hnot =>
          refine ⟨a, b, c, [], w, x, v, t, p.lastGlineTime, s.now, date', date'', date, ?_,
            ⟨hfirst.key.trans hkey, hsecond.key.trans hkey, rfl, rfl, ?_, ?_, rfl, hother,
              fun hsame => hvoted1 ((hfirst.voted1_iff v).mpr hsame),
              fun hsame => hvoted2 ((hsecond.voted2_iff v).mpr hsame)⟩, hgap, htime, ?_⟩
          · rw [hlog]
            rfl
          · rw [← hfirst.reason]
          · rw [← hfirst.reason]
          · rw [append_nil]
            exact show NotPlaced (key v.user v.host) (b ++ c) from hkey ▸ hnot

theorem glines_removeTempGline_subset (s : State) (user host : Str) :
    (s.removeTempGline user host).1.glines ⊆ s.glines := by
  rw [State.removeTempGline]
  split_ifs
  · exact eraseP_subset
  · exact fun _ hg => hg

theorem pending_removeTempGline (s : State) (user host : Str) :
    (s.removeTempGline user host).1.pending = s.pending := by
  rw [State.removeTempGline]
  split_ifs
  · rfl
  · rfl

/-- `UNGLINE` does nothing, or removes a G-line. -/
theorem moUngline_cases (u : Setup) (s : State) (source : Source) (parv1 : Str) :
    (s.moUngline u source parv1).1 = s ∨
      ∃ user host, (s.moUngline u source parv1).1 = (s.removeTempGline user host).1 := by
  rw [State.moUngline]
  split_ifs
  · exact .inl rfl
  · exact .inl rfl
  · split
    · exact .inl rfl
    · next user host _ => exact .inr ⟨user, host, rfl⟩

theorem Inv.step (h : Inv u s l) (op : Op) : Inv u (step u s op) (l ++ entries u s op) := by
  unfold Gline.step entries
  cases hvote : op.vote? u with
  | some x => exact h.majorityGline x.1 x.2
  | none =>
    rw [append_nil]
    cases op with
    | ungline source parv1 =>
      dsimp only
      rcases moUngline_cases u s source parv1 with heq | ⟨user, host, heq⟩
      · rwa [heq]
      · rw [heq]
        exact h.mono (by rw [pending_removeTempGline]; exact Subset.refl _)
          (glines_removeTempGline_subset s user host)
    | expirePending => exact h.expirePendingGlines
    | expire => exact h.mono (Subset.refl _) fun _ hg => (mem_filter.mp hg).1
    | setTime now => exact ⟨h.backed, h.agreed⟩
    | mo source parv1 parv2 date => exact h
    | mc source user host reason date => exact h
    | ms server acptr user host reason date => exact h

/-- **Three votes for each G-line.** In every run from an empty state, each G-line in force was
asked for by three clients, no two of whom have one user and host or one server, each within ten
minutes of the one before. The third vote placed it, with the reason of the first one, and nobody
else glined its mask since the first vote. -/
theorem glined_agreed (u : Setup) (now : ℤ) (ops : List Op) :
    ∀ g ∈ (run u (start now) ops).glines, Agreed u (log u (start now) ops) g := by
  have hinv : Inv u (run u (start now) ops) ([] ++ log u (start now) ops) := by
    refine Run.emitted_invariant (Inv u) (fun s out op s' hs hstep => ?_) ⟨?_, ?_⟩
      (Run.run_total (Gline.step u) (start now) ops)
    · cases hstep
      exact hs.step op
    · exact fun p hp => absurd hp not_mem_nil
    · exact fun g hg => absurd hg not_mem_nil
  rw [nil_append] at hinv
  exact hinv.agreed

/-- A client whose name, and that of its server, have one character. -/
def oper (name server : Char) : Source where
  name := [name]
  username := [name]
  host := ['h']
  server := [server]
  operGline := true
  operUnkline := true
  username_ne_nil := cons_ne_nil _ _
  length_name := Nat.succ_le_succ (Nat.zero_le 29)
  length_username := Nat.succ_le_succ (Nat.zero_le 9)
  length_host := Nat.succ_le_succ (Nat.zero_le 62)

/-- Three clients of three servers ask for a G-line, and again after it was removed. -/
def threeVotes : List Op :=
  [.mo (oper 'a' 'x') "*@evil".toList ['r'] ['d'], .setTime 1500,
    .mc (oper 'b' 'y') ['*'] "Evil".toList ['s'] ['e'], .setTime 2000,
    .mc (oper 'c' 'z') ['*'] "EVIL".toList ['t'] ['f'], .ungline (oper 'a' 'x') "*@evil".toList,
    .mc (oper 'b' 'y') ['*'] "evil".toList "p|q".toList ['f'], .setTime 2100,
    .mc (oper 'b' 'z') ['*'] "evil".toList ['s'] ['g'],
    .mo (oper 'a' 'x') "*@eviL".toList ['r'] ['g'], .setTime 2600,
    .mc (oper 'd' 'z') ['*'] "evIl".toList ['t'] ['h']]

/-- The G-line is placed with the reason of the first one. -/
theorem glined_agreed_three : Agreed ⟨true, 4, 16, 48, 600⟩
    (log ⟨true, 4, 16, 48, 600⟩ (start 1000) threeVotes)
      ⟨['*'], "evIl".toList, "p|q (h)".toList, some ['q'], 3200⟩ :=
  glined_agreed ⟨true, 4, 16, 48, 600⟩ 1000 threeVotes _ (by decide)

end Ratbox.Gline
