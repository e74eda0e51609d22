import Ratbox.Banlist.Basic
import Ratbox.Lib.Stamp

/-!
# The status that is kept in memberships

What `can_send` takes from a membership is what the lists say about the client, as long as the
serial number of the channel is not used up. The number goes up with the lists, a new nick resets
the memberships of a local client, and a nick that is the same up to case changes no match.

Source: `src/channel.c`, lines 284–305 and 483–644, `modules/core/m_mode.c`, lines 394–493, and
`modules/core/m_nick.c`, lines 628–770.

## Main definitions

* `Banlist.freshlyBanned`: what the lists say.
* `Banlist.Coherent`: the memberships of a channel are behind the lists, or right.

## Main results

* `Banlist.cache_coherent`: the status that is kept, after every run.
-/

namespace Ratbox.Banlist

open Text Address Match Channel Hostmask Run Versioned List Option Function

/-- The lists say that the client is banned, by its nick, user name, host and address now. -/
def freshlyBanned (conf : Conf) (ch : Chan) (who : User) : Bool :=
  (isBanned conf ch who none none).1 = .ban

/-! ### Nicks up to case -/

theorem SameCase.refl (s : Str) : SameCase s s := forall₂_same.mpr fun _ _ => rfl

theorem sameCase_splitLast {s t : Str} (h : SameCase s t) :
    (splitLast '@' s = none ∧ splitLast '@' t = none) ∨ ∃ p q p' q', splitLast '@' s = some (p, q) ∧
      splitLast '@' t = some (p', q') ∧ SameCase p p' ∧ SameCase q q' := by
  have hat : ∀ c d, SameChar c d → (c != '@') = (d != '@') := fun c d hcd =>
    hcd.congr (f := fun c => c != '@') fun n hge hle => by interval_cases n <;> decide
  have hrev := rel_reverse h
  rw [splitLast, splitLast]
  by_cases hs : '@' ∈ s
  · rw [if_pos hs, if_pos ((h.mem_iff (by simp)).mp hs)]
    exact .inr ⟨_, _, _, _, rfl, rfl,
      rel_reverse (forall₂_drop 1 (SameCase.dropWhile hrev hat)),
      rel_reverse (SameCase.takeWhile hrev hat)⟩
  · rw [if_neg hs, if_neg (mt (h.mem_iff (by simp)).mpr hs)]
    exact .inl ⟨rfl, rfl⟩

theorem inetPton_congr {s t : Str} (h : SameCase s t) (family : Family) :
    inetPton family s = inetPton family t := by
  have hlong : SameCase ("::ffff:".toList ++ s) ("::ffff:".toList ++ t) :=
    rel_append (SameCase.refl _) h
  cases family with
  | inet => exact h.pton4
  | inet6 => rw [inetPton, inetPton, h.pton4, h.pton6, hlong.pton6]

theorem cidrMatches_congr {ip ip' address address' : Str} (hip : SameCase ip ip')
    (haddress : SameCase address address') (family : Family) (cidrlen : ℤ) (ipmask mask : Str) :
    cidrMatches family cidrlen ip ipmask mask address = cidrMatches family cidrlen ip' ipmask mask
    address' := by
  simp [cidrMatches, inetPton_congr hip, matchMask_congr haddress.map_toLower]

theorem matchCidr_congr {s t : Str} (h : SameCase s t) (banstr : Str) :
    matchCidr banstr s = matchCidr banstr t := by
  have htake : SameCase (strlcpy s banLen) (strlcpy t banLen) := forall₂_take (banLen - 1) h
  rw [matchCidr, matchCidr]
  obtain ⟨hs, ht⟩ | ⟨p, q, p', q', hs, ht, hp, hq⟩ := sameCase_splitLast htake
  · rw [hs, ht]
  · have hcolon : (':' ∈ q) = (':' ∈ q') := propext (hq.mem_iff (by simp))
    rw [hs, ht]
    cases splitLast '@' (strlcpy banstr ircdBufsize) with
    | none => rfl
    | some m => simp [cidrMatches_congr hq hp, hcolon]

/-- Two nicks that are the same up to case are banned by the same lists. -/
theorem freshlyBanned_congr (conf : Conf) (ch : Chan) {who : User} {nick : Str}
    (h : irccmp who.name nick = true) :
    freshlyBanned conf ch { who with name := nick } = freshlyBanned conf ch who := by
  have hpre : ∀ host, SameCase (prefixOf who host) (prefixOf { who with name := nick } host) := by
    intro host
    refine forall₂_take _ (rel_append (rel_append (sameCase_iff.mpr h) ?_) ?_)
    · exact SameCase.refl ('!' :: who.username)
    · exact SameCase.refl ('@' :: host)
  have hhits : ∀ banstr, hits (prefixOf { who with name := nick } who.host)
      (prefixOf { who with name := nick } who.sockhost) banstr =
        hits (prefixOf who who.host) (prefixOf who who.sockhost) banstr := fun banstr => by
    rw [hits, hits, matchMask_congr (hpre who.host).map_toLower,
      matchMask_congr (hpre who.sockhost).map_toLower, matchCidr_congr (hpre who.sockhost)]
  have hfun := funext hhits
  simp [freshlyBanned, isBanned, verdict, hfun]

/-! ### The invariant -/

/-- The serial number is at most the number of changes, it is zero at first only, when no ban is on
the list yet, and what the memberships of local clients keep is behind it, or right. -/
structure Coherent (conf : Conf) (client : ℕ → User) (ch : Chan) (n : ℕ) : Prop where
  le : ch.banSerial ≤ n
  empty : ch.banSerial = 0 → ch.banlist = []
  kept : ∀ ms ∈ ch.members, (client ms.client_p).kind.myClient = true →
    Versioned.Coherent ms.banSerial ms.banned ch.banSerial (freshlyBanned conf ch
      (client ms.client_p))

section Coherent

variable {conf : Conf} {client : ℕ → User} {ch : Chan} {n : ℕ}

theorem freshlyBanned_eq_false (h : ch.banlist = []) (who : User) :
    freshlyBanned conf ch who = false := by
  rw [freshlyBanned, isBanned]
  split_ifs
  · rfl
  · simp [verdict, h]

/-- A membership without a status. -/
theorem Coherent.reset (h : Coherent conf client ch n) (who : User) :
    Versioned.Coherent 0 false ch.banSerial (freshlyBanned conf ch who) :=
  coherent_reset fun hzero => (freshlyBanned_eq_false (h.empty hzero) who).symm

theorem Coherent.mono {m : ℕ} (h : Coherent conf client ch n) (hle : n ≤ m) :
    Coherent conf client ch m :=
  ⟨h.le.trans hle, h.empty, h.kept⟩

theorem coherent_fresh (conf : Conf) (client : ℕ → User) (c : Str) (n : ℕ) :
    Coherent conf client (.fresh c) n :=
  ⟨Nat.zero_le n, fun _ => rfl, fun _ hms => absurd hms not_mem_nil⟩

section

variable (h : Coherent conf client ch n)
include h

/-- The lists change with the serial number. -/
theorem Coherent.change (hlt : n + 1 < 2 ^ 32) (banlist exceptlist invexlist : List Str) :
    Coherent conf client { ch with
      banlist := banlist
      exceptlist := exceptlist
      invexlist := invexlist
      banSerial := (ch.banSerial + 1) % 2 ^ 32 } (n + 1) := by
  have hle := h.le
  have hserial : (ch.banSerial + 1) % 2 ^ 32 = ch.banSerial + 1 := Nat.mod_eq_of_lt (by omega)
  rw [hserial]
  refine ⟨Nat.succ_le_succ hle, fun hzero => absurd hzero (Nat.succ_ne_zero _), fun ms hms hmy =>
    ?_⟩
  exact (h.kept ms hms hmy).change (Nat.lt_succ_self _) _

theorem Coherent.setList (hlt : n + 1 < 2 ^ 32) (l : List Str) (type : ModeType) :
    Coherent conf client ((ch.setList l type).bumpFor type) (n + 1) := by
  cases type with
  | ban => exact h.change hlt l ch.exceptlist ch.invexlist
  | exception => exact h.change hlt ch.banlist l ch.invexlist
  | invex => exact ⟨h.le.trans (Nat.le_succ n), h.empty, h.kept⟩

theorem Coherent.addUser (u : ℕ) (flags : MemberFlags) :
    Coherent conf client (ch.addUser u flags) n := by
  refine ⟨h.le, h.empty, fun ms hms hmy => ?_⟩
  rcases mem_cons.mp hms with rfl | hms
  · exact h.reset _
  · exact h.kept ms hms hmy

theorem Coherent.joinOne {s : State} (p : ℕ × MemberFlags) :
    Coherent conf client (joinOne s ch p) n := by
  rw [Banlist.joinOne]
  split_ifs
  · exact h.addUser p.1 p.2
  · exact h

theorem Coherent.foldl_joinOne {s : State} (ps : List (ℕ × MemberFlags)) :
    Coherent conf client (ps.foldl (Banlist.joinOne s) ch) n := by
  induction ps generalizing ch with
  | nil => exact h
  | cons p ps ih => exact ih (h.joinOne p)

theorem Coherent.removeUser (u : ℕ) : Coherent conf client (ch.removeUser u) n :=
  ⟨h.le, h.empty, fun ms hms => h.kept ms (mem_of_mem_filter hms)⟩

end

/-- What `can_send` writes is what `is_banned` finds out now. -/
theorem canSend_membership (conf : Conf) (ch : Chan) (who : User) (ms : Membership) :
    (canSend conf ch who (some ms)).2 = some ms ∨ (who.kind.myClient = true ∧
      (canSend conf ch who (some ms)).2 = some
      (ms.keep ch (isBanned conf ch who none none).1)) := by
  rw [canSend]
  dsimp only
  split_ifs with hserver hresv hop hmod hquiet hserial
  all_goals first | exact .inl rfl | skip
  -- the status is not known yet
  all_goals
    have hmy : who.kind.myClient = true := (Bool.and_eq_true_iff.mp hquiet).2
    refine .inr ⟨hmy, ?_⟩
    rw [isBanned, isBanned, if_neg (by simp [hmy]), if_neg (by simp [hmy])]
    rfl

/-- What `can_send` finds out is right. -/
theorem Coherent.canSend (h : Coherent conf client ch n) {u : ℕ} {ms : Membership}
    (hms : (Banlist.canSend conf ch (client u) (ch.findMembership u)).2 = some ms) :
    Coherent conf client (ch.setMembership ms) n := by
  have hkept : (client ms.client_p).kind.myClient = true →
      Versioned.Coherent ms.banSerial ms.banned ch.banSerial (freshlyBanned conf ch
          (client ms.client_p)) := by
    intro hmy
    cases hfind : ch.findMembership u with
    | none =>
      rw [hfind, Banlist.canSend] at hms
      split_ifs at hms
    | some ms₀ =>
      have hu : ms₀.client_p = u := by simpa using find?_some hfind
      rw [hfind] at hms
      obtain hsame | ⟨-, hkeep⟩ := canSend_membership conf ch (client u) ms₀
      · obtain rfl := some.inj (hsame.symm.trans hms)
        exact h.kept ms₀ (mem_of_find?_eq_some hfind) hmy
      · cases hkeep.symm.trans hms
        rw [show (ms₀.keep ch (isBanned conf ch (client u) none none).1).client_p = u from hu]
        exact coherent_self _ _
  refine ⟨h.le, h.empty, fun ms' hms' hmy => ?_⟩
  obtain ⟨ms₁, hms₁, rfl⟩ := mem_map.mp hms'
  split_ifs at hmy ⊢
  · exact hkept hmy
  · exact h.kept ms₁ hms₁ hmy

/-- A local client has a new nick. -/
theorem Coherent.changeNick (h : Coherent conf client ch n) (u : ℕ) (nick : Str) :
    Coherent conf (update client u { client u with name := nick })
      (if irccmp (client u).name nick then ch else ch.invalidate u) n := by
  have hother : ∀ ms ∈ ch.members, ms.client_p ≠ u → (client ms.client_p).kind.myClient = true →
      Versioned.Coherent ms.banSerial ms.banned ch.banSerial (freshlyBanned conf ch
        (update client u { client u with name := nick } ms.client_p)) := by
    intro ms hms hu hmy
    rw [update_of_ne hu]
    exact h.kept ms hms hmy
  by_cases hsame : irccmp (client u).name nick = true
  · rw [if_pos hsame]
    refine ⟨h.le, h.empty, fun ms hms hmy => ?_⟩
    by_cases hu : ms.client_p = u
    · rw [hu, update_self] at hmy ⊢
      rw [freshlyBanned_congr conf ch hsame]
      exact hu ▸ h.kept ms hms (hu ▸ hmy)
    · exact hother ms hms hu (by rwa [update_of_ne hu] at hmy)
  · rw [if_neg hsame]
    refine ⟨h.le, h.empty, fun ms' hms' hmy => ?_⟩
    obtain ⟨ms, hms, rfl⟩ := mem_map.mp hms'
    by_cases hu : ms.client_p = u
    · rw [if_pos hu]
      exact h.reset _
    · rw [if_neg hu] at hmy ⊢
      exact hother ms hms hu (by rwa [update_of_ne hu] at hmy)

/-- A remote client has a new nick. -/
theorem Coherent.remoteNick (h : Coherent conf client ch n) {u : ℕ}
    (hu : (client u).kind.myClient = false) (nick : Str) :
    Coherent conf (update client u { client u with name := nick }) ch n := by
  refine ⟨h.le, h.empty, fun ms hms hmy => ?_⟩
  have hne : ms.client_p ≠ u := by
    intro heq
    rw [heq, update_self, hu] at hmy
    cases hmy
  rw [update_of_ne hne] at hmy ⊢
  exact h.kept ms hms hmy

end Coherent

/-! ### Runs -/

/-- The lists of a channel are changed. -/
def Op.changes (c : Str) : Op → Bool
  | .addId _ chptr _ _ => chptr = c
  | .delId chptr _ _ => chptr = c
  | .sjoin chname _ _ _ => chname = c
  | _ => false

/-- The memberships of a channel are right, as far as it exists. -/
def ChanCoherent (conf : Conf) (c : Str) (s : State) (n : ℕ) : Prop :=
  ∀ ch, s.chan c = some ch → Coherent conf s.client ch n

section Runs

variable {conf : Conf} {c : Str} {s s' : State} {n : ℕ}

section

variable (h : ChanCoherent conf c s n)
include h

theorem ChanCoherent.getD : Coherent conf s.client ((s.chan c).getD (.fresh c)) n := by
  cases hch : s.chan c with
  | none => exact coherent_fresh conf s.client c n
  | some ch => exact h ch hch

/-- Another channel is written, or this one, and is right after it. -/
theorem ChanCoherent.setChan {m : ℕ} (hle : n ≤ m) {c' : Str} {ch : Chan}
    (hch : c' = c → Coherent conf s.client ch m) : ChanCoherent conf c (s.setChan c' ch) m := by
  intro ch' hch'
  rw [State.setChan] at hch'
  dsimp only at hch'
  by_cases hc : c' = c
  · rw [hc, update_self] at hch'
    split_ifs at hch'
    exact some.inj hch' ▸ hch hc
  · rw [update_of_ne (Ne.symm hc)] at hch'
    exact (h ch' hch').mono hle

/-- A step keeps the memberships right. -/
theorem ChanCoherent.step {o : Op} (hs' : step conf s o = some s')
    (hlt : n + (if o.changes c then 1 else 0) < 2 ^ 32) :
    ChanCoherent conf c s' (n + if o.changes c then 1 else 0) := by
  have hle : n ≤ n + if o.changes c then 1 else 0 := Nat.le_add_right _ _
  cases o with
  | join chname u flags =>
    cases hs'
    refine h.setChan hle fun hc => ?_
    subst hc
    exact (h.getD.joinOne (u, flags)).mono hle
  | part chptr u =>
    obtain ⟨ch, hch, rfl⟩ := map_eq_some_iff.mp hs'
    exact h.setChan hle fun hc => ((h ch (hc ▸ hch)).removeUser u).mono hle
  | quit u =>
    cases hs'
    intro ch' hch'
    obtain ⟨ch, hch, hch'⟩ := bind_eq_some_iff.mp hch'
    split_ifs at hch'
    exact some.inj hch' ▸ ((h ch hch).removeUser u).mono hle
  | addId source_p chptr banid type =>
    obtain ⟨ch, hch, rfl⟩ := map_eq_some_iff.mp hs'
    refine h.setChan hle fun hc => ?_
    have hold := h ch (hc ▸ hch)
    rw [show Op.changes c (.addId source_p chptr banid type) = true by simp [Op.changes, hc],
      if_pos rfl] at hlt ⊢
    rw [addId]
    split_ifs
    · exact hold.mono (Nat.le_succ n)
    · exact hold.setList hlt _ type
    · exact hold.mono (Nat.le_succ n)
    · exact hold.setList hlt _ type
  | delId chptr banid type =>
    obtain ⟨ch, hch, rfl⟩ := map_eq_some_iff.mp hs'
    refine h.setChan hle fun hc => ?_
    have hold := h ch (hc ▸ hch)
    rw [show Op.changes c (.delId chptr banid type) = true by simp [Op.changes, hc],
      if_pos rfl] at hlt ⊢
    rw [delId]
    split_ifs
    · exact hold.mono (Nat.le_succ n)
    · exact hold.setList hlt _ type
    · exact hold.mono (Nat.le_succ n)
  | sjoin chname joins keepOurModes id =>
    cases hs'
    refine h.setChan hle fun hc => ?_
    subst hc
    have hold := h.getD.foldl_joinOne (s := s) joins
    rw [show Op.changes chname (.sjoin chname joins keepOurModes id) = true by simp [Op.changes],
      if_pos rfl] at hlt ⊢
    rw [removeBanLists]
    split_ifs
    · exact hold.mono (Nat.le_succ n)
    · exact hold.change hlt [] [] []
    · exact hold.mono (Nat.le_succ n)
  | nick source_p nick =>
    cases hs'
    cases hmy : (s.client source_p).kind.myClient with
    | false =>
      rw [if_neg (by simp)]
      exact fun ch hch => ((h ch hch).remoteNick hmy nick).mono hle
    | true =>
      rw [if_pos rfl]
      intro ch' hch'
      by_cases hsame : irccmp (s.client source_p).name nick = true
      · rw [changeLocalNick, if_pos hsame] at hch' ⊢
        have hnew := (h ch' hch').changeNick source_p nick
        rw [if_pos hsame] at hnew
        exact hnew.mono hle
      · rw [changeLocalNick, if_neg hsame] at hch' ⊢
        obtain ⟨ch, hch, rfl⟩ := map_eq_some_iff.mp hch'
        have hnew := (h ch hch).changeNick source_p nick
        rw [if_neg hsame] at hnew
        exact hnew.mono hle
  | canSend chptr source_p =>
    obtain ⟨ch, hch, rfl⟩ := map_eq_some_iff.mp hs'
    cases hms : (canSend conf ch (s.client source_p) (ch.findMembership source_p)).2 with
    | none => exact fun ch hch => (h ch hch).mono hle
    | some ms => exact h.setChan hle fun hc => ((h ch (hc ▸ hch)).canSend hms).mono hle

/-- A run keeps the memberships right, as long as there are fewer than 2³² changes. -/
theorem ChanCoherent.run {ops : List Op} (hrun : run (Banlist.step conf) s ops = some s')
    (hlt : n + ops.countP (Op.changes c) < 2 ^ 32) :
    ChanCoherent conf c s' (n + ops.countP (Op.changes c)) := by
  induction ops generalizing s n with
  | nil => exact some.inj hrun ▸ h
  | cons o ops ih =>
    obtain ⟨t, ht, hrun⟩ := bind_eq_some_iff.mp hrun
    rw [countP_cons, Nat.add_comm (countP _ ops), ← Nat.add_assoc] at hlt ⊢
    exact ih (h.step ht (by omega)) hrun hlt

end

/-- **The status that is kept.** After every run in which the lists of a channel were changed fewer
than 2³² times, the status in the membership of a local client is what the lists say about it now,
if its serial number is the one of the channel, and `can_send` uses it. -/
theorem cache_coherent {client : ℕ → User} {ops : List Op}
    (hrun : run (step conf) (start client) ops = some s) (hlt : ops.countP (Op.changes c) < 2 ^ 32)
    {ch : Chan} (hch : s.chan c = some ch) :
    ∀ ms ∈ ch.members, (s.client ms.client_p).kind.myClient = true → ms.banSerial = ch.banSerial →
      ms.banned = freshlyBanned conf ch (s.client ms.client_p) := by
  have hstart : ChanCoherent conf c (start client) 0 := fun ch hch => absurd hch (by simp [start])
  intro ms hms hmy hserial
  exact ((hstart.run hrun (by omega) ch hch).kept ms hms hmy).eq hserial

end Runs

/-- The local client 0, whose nick changes from `a` to `b`. -/
def localUser : User := ⟨.localUser, ['a'], ['u'], ['h'], ['1'], false, false⟩

/-- Bans and exceptions are used, for five masks at most. -/
def usualConf : Conf := ⟨true, true, 5, fun _ => false⟩

theorem cache_coherent_small :
    ∃ (s : State) (ch : Chan), run (step usualConf) (start fun _ => localUser)
      [.join ['#'] 0 .peon, .addId 1 ['#'] ['b', '!', '*'] .ban, .canSend ['#'] 0, .nick 0 ['b'],
        .canSend ['#'] 0] = some s ∧ s.chan ['#'] = some ch ∧
    ∀ ms ∈ ch.members, (s.client ms.client_p).kind.myClient = true → ms.banSerial = ch.banSerial →
      ms.banned = freshlyBanned usualConf ch (s.client ms.client_p) :=
  ⟨_, _, rfl, rfl, @cache_coherent usualConf ['#'] _ (fun _ => localUser) [.join ['#'] 0 .peon,
    .addId 1 ['#'] ['b', '!', '*'] .ban, .canSend ['#'] 0, .nick 0 ['b'], .canSend ['#'] 0] rfl (by
      decide) _ rfl⟩

end Ratbox.Banlist
