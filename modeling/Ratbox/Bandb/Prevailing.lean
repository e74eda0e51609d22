import Ratbox.Bandb.Replacing

/-!
# Bans that prevail

When the helper is done, the bans of its list are looked at in turn, the one that came last first. A
ban prevails if its mask can be one, and nothing is in its way among the temporary bans and those of
the list that prevail already.

Source: `src/bandbi.c`, lines 220–390, and `src/hostmask.c`, lines 112–318.

## Main definitions

* `Bandb.Ready`: the state when a list begins.
* `Bandb.State.free`: nothing is in the way of a ban.
* `Bandb.prevailing`: the bans of a list that prevail.

## Main results

* `Bandb.handleFinish_any`: the end of a list, for any bans.
* `Bandb.mem_accepted_iff`: the bans that pass their check are those that prevail.
-/

namespace Ratbox.Bandb

open Text Match Run List Option Hostmask State
open Dlines hiding step

/-! ### The end of the list -/

/-- The bans of a list that are no D-lines. -/
def others (ps : List Pending) : List Pending := ps.filter fun p => p.status ≠ .dline

/-- The state with other D-lines. -/
def State.setDlines (s : State) (d : Dlines.State) : State := { s with dlines := d }

/-- The state when a list begins: the table `HASH_RESV` has one conf for a name, its permanent confs
are those of their list, and every node of the tree of D-lines has a D-line. -/
structure Ready (s : State) : Prop where
  dlines : Held s.dlines
  names : s.resvs.Pairwise fun c d => irccmp c.ban.host d.ban.host = false
  perm : ∀ c, c ∈ s.resvChannelPermList ↔ c ∈ s.resvs ∧ c.temporary = false
  nodup : s.resvChannelPermList.Nodup

theorem Inv.ready {s : State} (h : Inv s) : Ready s := ⟨h.dlines.held, h.names, h.perm, h.nodup⟩

theorem Ready.inv {s : State} (h : Ready s) : Inv (s.setDlines Dlines.init) :=
  ⟨good_init, h.names, h.perm, h.nodup⟩

section Finish

variable {s t : State} {p q : Pending} {ps : List Pending} {d d' : Dlines.State}

/-- A ban that is no D-line is put where the bans of its kind are. -/
def State.put (s : State) (p : Pending) : State :=
  match p.status with
  | .kill => { s with atable := s.atable.addConfByAddress (some p.ban.host) .kill p.ban.user ⟨p.ban,
    false⟩ }
  | .dline => s
  | .xline => { s with xlineConfList := ⟨p.ban, false⟩ :: s.xlineConfList }
  | .resvChannel => s.addChannelHashResv ⟨p.ban, false⟩
  | .resvNick => { s with resvNickList := ⟨p.ban, false⟩ :: s.resvNickList }

theorem finishOne_put (hp : p.status ≠ .dline) (s : State) :
    s.finishOne p = some (if s.accepts p then s.put p else s) := by
  cases hstatus : p.status with
  | dline => exact absurd hstatus hp
  | kill | xline | resvChannel | resvNick => simp [finishOne, accepts, put, hstatus]

/-- A ban that is no D-line is added without a look at the D-lines. -/
theorem finishOne_other (hp : p.status ≠ .dline) (s : State) :
    ∃ s' : State, ∀ d, (s.setDlines d).finishOne p = some (s'.setDlines d) := by
  refine ⟨if s.accepts p then s.put p else s, fun d => ?_⟩
  have haccepts : (s.setDlines d).accepts p = s.accepts p := by
    cases hstatus : p.status with
    | dline => exact absurd hstatus hp
    | kill | xline | resvChannel | resvNick => simp [accepts, hstatus, setDlines]
  have hput : (s.setDlines d).put p = (s.put p).setDlines d := by
    cases hstatus : p.status <;> simp [put, hstatus, setDlines, addChannelHashResv]
  rw [finishOne_put hp, haccepts, hput]
  split_ifs <;> rfl

/-- The other bans of a list are added without a look at the D-lines. -/
theorem foldlM_others (s : State) (ps : List Pending) :
    ∃ t : State, ∀ d, (others ps).foldlM finishOne (s.setDlines d) = some (t.setDlines d) := by
  induction ps generalizing s with
  | nil => exact ⟨s, fun d => rfl⟩
  | cons p ps ih =>
    by_cases hp : p.status = .dline
    · obtain ⟨t, ht⟩ := ih s
      exact ⟨t, fun d => by rw [others, filter_cons_of_neg (by simp [hp])]; exact ht d⟩
    · obtain ⟨s', hs'⟩ := finishOne_other hp s
      obtain ⟨t, ht⟩ := ih s'
      refine ⟨t, fun d => ?_⟩
      rw [others, filter_cons_of_pos (by simp [hp]), foldlM_cons, hs', bind_eq_bind, bind_some]
      exact ht d

/-- **The D-lines of a list and its other bans are added apart.** -/
theorem foldlM_finishOne_apart
    (ht : ∀ d, (others ps).foldlM finishOne (s.setDlines d) = some (t.setDlines d)) :
    ps.foldlM finishOne s = ((dlinesOf ps).foldlM Dlines.State.finishOne s.dlines).map
    t.setDlines := by
  induction ps generalizing s with
  | nil => exact ht s.dlines
  | cons p ps ih =>
    by_cases hp : p.status = .dline
    · have hothers : others (p :: ps) = others ps := filter_cons_of_neg (by simp [hp])
      have hdlines : dlinesOf (p :: ps) = p.ban :: dlinesOf ps := by simp [dlinesOf, hp]
      rw [hothers] at ht
      rw [hdlines, foldlM_cons, foldlM_cons, finishOne, hp]
      dsimp only
      cases s.dlines.finishOne p.ban with
      | none => rfl
      | some d => exact ih (s := s.setDlines d) ht
    · obtain ⟨s', hs'⟩ := finishOne_other hp s
      have hothers : others (p :: ps) = p :: others ps := filter_cons_of_pos (by simp [hp])
      have hdlines : dlinesOf (p :: ps) = dlinesOf ps := by simp [dlinesOf, hp]
      have hone : s.finishOne p = some (s'.setDlines s.dlines) := hs' s.dlines
      rw [hothers] at ht
      rw [hdlines, foldlM_cons, hone, bind_eq_bind, bind_some]
      refine ih (s := s'.setDlines s.dlines) fun d => ?_
      have h := ht d
      rwa [foldlM_cons, hs', bind_eq_bind, bind_some] at h

/-- What is in force beside D-lines does not depend on them. -/
theorem inForce_setDlines (hq : q.status ≠ .dline) : (s.setDlines d).InForce q ↔ s.InForce q := by
  obtain ⟨status, ban⟩ := q
  cases status with
  | dline => exact absurd rfl hq
  | kill | xline | resvChannel | resvNick => exact Iff.rfl

/-- The bans at the end of a list are looked at after those in front of them. -/
theorem accepted_append (ps qs : List Pending) : s.accepted (ps ++ qs) =
    s.accepted ps ++ ((ps.foldlM finishOne s).map (·.accepted qs)).getD [] := by
  induction ps generalizing s with
  | nil => rfl
  | cons p ps ih =>
    rw [cons_append, accepted, accepted, append_assoc, foldlM_cons]
    cases hone : s.finishOne p with
    | none => simp
    | some s₁ => simp only [map_some, getD_some, ih, bind_eq_bind, bind_some]

/-- The checks of other bans do not look at the D-lines. -/
theorem accepted_setDlines (s : State) (d : Dlines.State) (ps : List Pending) :
    (s.setDlines d).accepted (others ps) = s.accepted (others ps) := by
  induction ps generalizing s d with
  | nil => rfl
  | cons p ps ih =>
    by_cases hp : p.status = .dline
    · have hothers : others (p :: ps) = others ps := filter_cons_of_neg (by simp [hp])
      rw [hothers, ih]
    · obtain ⟨s', hs'⟩ := finishOne_other hp s
      have hothers : others (p :: ps) = p :: others ps := filter_cons_of_pos (by simp [hp])
      have hone : s.finishOne p = some (s'.setDlines s.dlines) := hs' s.dlines
      have haccepts : (s.setDlines d).accepts p = s.accepts p := by
        cases hstatus : p.status with
        | dline => exact absurd hstatus hp
        | kill | xline | resvChannel | resvNick => simp [accepts, hstatus, setDlines]
      rw [hothers, accepted, accepted, hs', hone, haccepts]
      simp only [map_some, getD_some, ih]

/-- The state without the permanent bans, where no D-line is one of them. -/
def State.temporaries (s : State) : State := { s with
  atable := s.atable.clearOutAddressConfBans (·.temporary)
  xlineConfList := s.xlineConfList.filter (·.temporary)
  resvNickList := s.resvNickList.filter (·.temporary)
  resvs := s.resvs.filter (·.temporary)
  resvChannelPermList := []
  pending := [] }

theorem cleared_iff (h : Ready s) :
    s.cleared = some t ↔ (∀ ban, ¬s.Holds ban .dline) ∧ t = s.temporaries := by
  have hclear := clearSNewconfBans_eq (s :=
    { s with atable := s.atable.clearOutAddressConfBans (·.temporary) }) h.names h.perm h.nodup
  rw [cleared, hclear]
  dsimp only
  rw [map_eq_some_iff]
  constructor
  · rintro ⟨d, hd, rfl⟩
    obtain ⟨hnone, rfl⟩ := h.dlines.removePermDlines.mp hd
    exact ⟨hnone, rfl⟩
  · rintro ⟨hnone, rfl⟩
    exact ⟨s.dlines, h.dlines.removePermDlines.mpr ⟨hnone, rfl⟩, rfl⟩

theorem handleFinish_ready (h : Ready s) :
    s.handleFinish = s.cleared.bind fun s₀ => s.pending.foldlM finishOne s₀ := by
  have hclear := clearSNewconfBans_eq (s :=
    { s with atable := s.atable.clearOutAddressConfBans (·.temporary) }) h.names h.perm h.nodup
  rw [handleFinish, cleared, hclear]
  dsimp only
  cases s.dlines.removePermDlines <;> rfl

/-- No permanent ban is left. -/
theorem Ready.temporaries (h : Ready s) (hnone : ∀ ban, ¬s.Holds ban .dline) :
    Ready s.temporaries ∧ ∀ q, ¬s.temporaries.InForce q := by
  refine ⟨⟨h.dlines, h.names.sublist filter_sublist, fun c => ?_, nodup_nil⟩, fun q => ?_⟩
  · rw [State.temporaries, mem_filter]
    simp
  · obtain ⟨status, ban⟩ := q
    cases status with
    | kill =>
      rintro ⟨hv, r, hr, htype, -, -, haconf⟩
      obtain ⟨-, hkept⟩ := mem_filter.mp hr
      simp [Table.keptBans, htype, haconf] at hkept
    | dline => exact hnone ban
    | xline | resvChannel | resvNick => simp [State.InForce, State.Holds, State.temporaries]

/-- What is cleared again does not change. -/
theorem temporaries_temporaries (ps : List Pending) :
    ({ s.temporaries with pending := ps } : State).temporaries = s.temporaries := by
  simp [temporaries, Table.clearOutAddressConfBans]

/-- **The end of a list**, for any bans. Of the D-lines those are in force that no later one of the
list takes the node of; of the other bans, those that pass their check. -/
theorem handleFinish_any (h : Ready s) (hnone : ∀ ban, ¬s.Holds ban .dline) :
    ∃ s', s.handleFinish = some s' ∧ Ready s' ∧ ∀ q, s'.InForce q ↔
      if q.status = .dline then Last (dlinesOf s.pending) q.ban
      else q ∈ s.temporaries.accepted (others s.pending) := by
  obtain ⟨hready, hempty⟩ := h.temporaries hnone
  obtain ⟨t, ht⟩ := foldlM_others s.temporaries s.pending
  obtain ⟨d', hd', hheld, hdlines⟩ := hready.dlines.foldlM_finishOne (dlinesOf s.pending)
  -- The other bans are added as they are when there are no D-lines.
  have hno : dlinesOf (others s.pending) = [] := by
    refine filterMap_eq_nil_iff.mpr fun p hp => ?_
    rw [if_neg (by simpa using (mem_filter.mp hp).2)]
  have hplain : ∀ ban ∈ dlinesOf (others s.pending), Plain ban.host := fun ban hban =>
    absurd (hno ▸ hban) not_mem_nil
  obtain ⟨t', ht', hinv, -, hforce⟩ :=
    foldlM_finishOne hready.inv hplain (by rw [hno]; exact nodup_nil) fun ban hban => absurd
      (hno ▸ hban) not_mem_nil
  obtain rfl : t' = t.setDlines Dlines.init := some.inj (ht'.symm.trans (ht Dlines.init))
  refine ⟨t.setDlines d', ?_, ⟨hheld, hinv.names, hinv.perm, hinv.nodup⟩, fun q => ?_⟩
  · rw [handleFinish_ready h, (cleared_iff h).mpr ⟨hnone, rfl⟩, bind_some, foldlM_finishOne_apart
      ht, hd', map_some]
  split_ifs with hq
  · have hnot : ¬InTree s.temporaries.dlines q.ban := fun hin => by
      refine hempty q ?_
      rw [InForce, hq]
      exact hin
    rw [InForce, hq]
    exact (hdlines q.ban).trans (or_iff_right fun hin => hnot hin.1)
  · rw [inForce_setDlines hq, ← inForce_setDlines (d := Dlines.init) hq, hforce,
      inForce_setDlines hq, accepted_setDlines]
    exact or_iff_right (hempty q)

end Finish

/-! ### What is in the way -/

/-- The bans of a list that prevail; the last one is looked at first. A ban prevails if nothing is
in its way, when it is known which of those behind it prevail. -/
def prevailing (free : List Pending → Pending → Bool) : List Pending → List Pending
  | [] => []
  | p :: later => if free (prevailing free later) p then p :: prevailing free later
    else prevailing free later

/-- The record of a K-line. -/
def klineRec (ban : Ban) :
    Hostmask.Rec Conf := Hostmask.init.makeRec (some ban.host) .kill ban.user ⟨ban, false⟩

/-- The buckets that the search for the mask of a K-line comes to, with the records that it takes
there. -/
def places (ban : Ban) : List (ℕ × (Rec Conf → Bool)) :=
  let addr := (netmask ban.host).map (·.1)
  let ok := fun r : Rec Conf => decide (r.type = .kill) && r.userMatches ⟨some ban.host, none, addr,
    ban.user⟩
  (match addr with
    | none => []
    | some addr => match addr.family with
      | .inet6 => [128, 112, 96, 80, 64, 48, 32, 16, 0].map fun b =>
          (hashIpv6 addr.bytes b, fun r => ok r && r.coversIpv6 addr)
      | .inet => [32, 24, 16, 8, 0].map fun b =>
          (hashIpv4 addr.bytes b, fun r => ok r && r.coversIpv4 addr)) ++
    ((domains ban.host).map fun p => (hashText p, fun r => ok r && r.matchesName ban.host)) ++
    [(0, fun r => ok r && r.matchesName ban.host)]

/-- In the places of a search, a K-line of a list is met before a temporary one is. -/
def met (t : Table Conf) (ks : List Pending) : List (ℕ × (Rec Conf → Bool)) → Bool
  | [] => false
  | (hv, takes) :: rest =>
    ks.any (fun q => decide (q.status = .kill ∧ bucketOf q.ban.host = hv) &&
      takes (klineRec q.ban)) || !(t.atable hv).any (fun r => r.aconf.temporary && takes r) &&
        met t ks rest

/-- **Nothing is in the way of a ban**, where the bans `ks` of its list prevail. A K-line has
characters of masks only, and the search for its mask meets no prevailing one first; an X-line has
not the text of one that prevails; a RESV can be the name of a channel, or a mask for nicks, and no
temporary one and none that prevails has the name, or matches the mask. -/
def State.free (s : State) (ks : List Pending) (p : Pending) : Bool :=
  match p.status with
  | .kill => !met s.atable ks (places p.ban) &&
      (p.ban.user.getD []).all (fun c => Nick.isUserChar c || isKWildChar c) &&
      p.ban.host.all fun c => Nick.isHostChar c || isKWildChar c
  | .dline => false
  | .xline => !ks.any fun q => decide (q.status = .xline) && irccmp q.ban.host p.ban.host
  | .resvChannel => decide (p.ban.host.length ≤ Channel.channelLen) &&
      p.ban.host.all Channel.isChanChar && !s.resvs.any (fun c => c.temporary &&
        irccmp p.ban.host c.ban.host) &&
      !ks.any fun q => decide (q.status = .resvChannel) && irccmp p.ban.host q.ban.host
  | .resvNick => cleanResvNick p.ban.host &&
      !s.resvNickList.any (fun c => c.temporary && matchEsc c.ban.host p.ban.host) &&
      !ks.any fun q => decide (q.status = .resvNick) && matchEsc q.ban.host p.ban.host

section Prevailing

variable {s : State} {p q : Pending} {ks ps : List Pending} {status : Status}

/-- The confs of the bans of a list. -/
def confsOf (status : Status) (ks : List Pending) : List Conf :=
  (ks.filter (·.status = status)).map fun q => ⟨q.ban, false⟩

theorem any_confsOf (f : Conf → Bool) : (confsOf status ks).any f =
    ks.any fun q => decide (q.status = status) && f ⟨q.ban, false⟩ := by
  rw [confsOf, List.any_map, List.any_filter]
  rfl

/-- The state in which bans of a list prevail. -/
def State.withPrevailing (s : State) (ks : List Pending) : State := ks.foldr (fun p s => s.put p) s

theorem lists_put (s : State) (p : Pending) : (s.put p).xlineConfList = confsOf .xline [p] ++
    s.xlineConfList ∧ (s.put p).resvs = confsOf .resvChannel [p] ++ s.resvs ∧
      (s.put p).resvNickList = confsOf .resvNick [p] ++ s.resvNickList := by
  cases hstatus : p.status <;> simp [put, hstatus, confsOf, addChannelHashResv]

/-- The bans that prevail are in front of the others. -/
theorem lists_withPrevailing (s : State) (ks : List Pending) :
    (s.withPrevailing ks).xlineConfList = confsOf .xline ks ++ s.xlineConfList ∧
      (s.withPrevailing ks).resvs = confsOf .resvChannel ks ++ s.resvs ∧
        (s.withPrevailing ks).resvNickList = confsOf .resvNick ks ++ s.resvNickList := by
  induction ks with
  | nil => exact ⟨rfl, rfl, rfl⟩
  | cons p ks ih =>
    obtain ⟨hxlines, hresvs, hnicks⟩ := lists_put (s.withPrevailing ks) p
    have hcons : ∀ status, confsOf status (p :: ks) = confsOf status [p] ++ confsOf status ks :=
        fun status => by
      rw [confsOf, ← singleton_append, filter_append, map_append]
      rfl
    rw [hcons, hcons, hcons, append_assoc, append_assoc, append_assoc, ← ih.1, ← ih.2.1, ← ih.2.2]
    exact ⟨hxlines, hresvs, hnicks⟩

theorem atable_withPrevailing (s : State) (ks : List Pending) (hv : ℕ) :
    (s.withPrevailing ks).atable.atable hv =
    ((ks.filter fun q => q.status = .kill ∧ Hostmask.bucketOf q.ban.host = hv).map fun q =>
      klineRec q.ban) ++ s.atable.atable hv := by
  induction ks with
  | nil => rfl
  | cons p ks ih =>
    rw [show s.withPrevailing (p :: ks) = (s.withPrevailing ks).put p from rfl, put]
    cases hstatus : p.status with
    | dline | xline | resvChannel | resvNick => simpa [hstatus, addChannelHashResv] using ih
    | kill =>
      dsimp only [Hostmask.Table.addConfByAddress]
      rw [show ∀ t : Hostmask.Table Conf, (t.makeRec (some p.ban.host) .kill p.ban.user ⟨p.ban,
        false⟩).address = p.ban.host from fun _ => rfl]
      by_cases hhv : Hostmask.bucketOf p.ban.host = hv
      · subst hhv
        rw [Function.update_self, ih, filter_cons_of_pos (by simp [hstatus])]
        rfl
      · rw [Function.update_of_ne (fun heq => hhv heq.symm), ih, filter_cons_of_neg (by simp [hhv])]

/-- The first conf that is found is a permanent one if one of those in front is found. -/
theorem any_find_append {l l' : List Conf} (hl : ∀ c ∈ l, c.temporary = false)
    (hl' : ∀ c ∈ l', c.temporary = true) (f : Conf → Bool) :
    (((l ++ l').find? f).any fun c => !c.temporary) = l.any f := by
  induction l with
  | nil =>
    cases hfind : l'.find? f with
    | none => simp [hfind]
    | some c => simp [hfind, hl' c (mem_of_find?_eq_some hfind)]
  | cons c l ih =>
    rw [cons_append, find?_cons, any_cons]
    cases hc : f c with
    | true => simp [hl c mem_cons_self]
    | false => exact ih fun d hd => hl d (mem_cons_of_mem c hd)

theorem confsOf_permanent : ∀ c ∈ confsOf status ks, c.temporary = false := by
  intro c hc
  obtain ⟨q, -, rfl⟩ := mem_map.mp hc
  rfl

/-- A conf is found among those of the list, or among the temporary ones. -/
theorem isSome_find_append (l : List Conf) (f : Conf → Bool) :
    ((confsOf status ks ++ l.filter (·.temporary)).find? f).isSome =
      ((ks.any fun q => decide (q.status = status) && f ⟨q.ban, false⟩) ||
        l.any fun c => c.temporary && f c) := by
  rw [List.isSome_find?, List.any_append, any_confsOf, List.any_filter]

/-! ### The search for the mask of a K-line -/

theorem probe_places (t : Table Conf) (ban : Ban) :
    t.probe .kill ⟨some ban.host, none, (netmask ban.host).map (·.1), ban.user⟩ =
      (places ban).flatMap fun l => (t.atable l.1).filter l.2 := by
  rw [Table.probe, places]
  simp only [flatMap_append, flatMap_map, flatMap_singleton, Table.probeName, any_none,
    Bool.or_false, ← append_assoc]
  congr 2
  cases (netmask ban.host).map (·.1) with
  | none => rfl
  | some addr =>
    simp only [Table.probeAddr]
    cases addr.family <;> simp

theorem type_of_places {ban : Ban} {l : ℕ × (Rec Conf → Bool)} (hl : l ∈ places ban) {r : Rec Conf}
    (hr : l.2 r = true) : r.type = .kill := by
  rw [places] at hl
  cases haddr : (netmask ban.host).map (·.1) with
  | none =>
    simp only [haddr, List.nil_append, List.mem_append, List.mem_map, List.mem_singleton] at hl
    obtain ⟨d, -, rfl⟩ | rfl := hl <;> simp at hr <;> exact hr.1.1
  | some addr =>
    cases hfamily : addr.family <;>
    · simp only [haddr, hfamily, List.mem_append, List.mem_map, List.mem_singleton] at hl
      obtain (⟨d, -, rfl⟩ | ⟨d, -, rfl⟩) | rfl := hl <;> simp at hr <;> exact hr.1.1

/-- The first record that a search takes is one of the list if one is met before the temporary
ones. -/
theorem any_probe_eq_met (t : Hostmask.Table Conf) {t' : Hostmask.Table Conf}
    (ht' : ∀ hv, t'.atable hv =
      ((ks.filter fun q => q.status = .kill ∧ Hostmask.bucketOf q.ban.host = hv).map fun q =>
        klineRec q.ban) ++ (t.atable hv).filter (Hostmask.Table.keptBans (·.temporary)))
    {ls : List (ℕ × (Hostmask.Rec Conf → Bool))}
    (hls : ∀ l ∈ ls, ∀ r, l.2 r = true → r.type = .kill) :
    ((((ls.flatMap fun l => (t'.atable l.1).filter l.2).head?.map (·.aconf)).any fun c =>
      !c.temporary) = met t ks ls) := by
  induction ls with
  | nil => rfl
  | cons l ls ih =>
    obtain ⟨hv, takes⟩ := l
    have ih := ih fun l hl => hls l (mem_cons_of_mem _ hl)
    have htype := hls _ mem_cons_self
    rw [met, flatMap_cons, ht', filter_append, append_assoc]
    -- The records of the list in this bucket are in front.
    have hany : (ks.any fun q => decide (q.status = .kill ∧ Hostmask.bucketOf q.ban.host = hv) &&
        takes (klineRec q.ban)) = (((ks.filter fun q => q.status = .kill ∧
          Hostmask.bucketOf q.ban.host = hv).map fun q => klineRec q.ban).any takes) := by
      rw [List.any_map, List.any_filter]
      rfl
    have htemp : (t.atable hv).any (fun r => r.aconf.temporary && takes r) =
        ((t.atable hv).filter (Hostmask.Table.keptBans (·.temporary))).any takes := by
      rw [List.any_filter]
      refine congrArg (any (t.atable hv)) (funext fun r => ?_)
      cases hr : takes r with
      | false => simp
      | true => simp [Hostmask.Table.keptBans, htype r hr]
    rw [hany, htemp]
    generalize hrs : ((ks.filter fun q => q.status = .kill ∧ Hostmask.bucketOf q.ban.host = hv).map
      fun q => klineRec q.ban) = rs
    have hperm : ∀ r ∈ rs, r.aconf.temporary = false := by
      intro r hr
      rw [← hrs] at hr
      obtain ⟨q, -, rfl⟩ := mem_map.mp hr
      rfl
    cases hfirst : rs.filter takes with
    | cons r rest =>
      have hr : r ∈ rs.filter takes := by simp [hfirst]
      have hmet : rs.any takes = true := any_eq_true.mpr ⟨r, mem_filter.mp hr⟩
      simp [hmet, hperm r (mem_filter.mp hr).1]
    | nil =>
      have hmet : rs.any takes = false := by
        rw [List.any_eq_false]
        exact fun r hr => by simpa using filter_eq_nil_iff.mp hfirst r hr
      rw [hmet, Bool.false_or, nil_append]
      cases hsecond : ((t.atable hv).filter (Hostmask.Table.keptBans (·.temporary))).filter
        takes with
      | cons r rest =>
        have hr : r ∈ ((t.atable hv).filter (Hostmask.Table.keptBans (·.temporary))).filter
          takes := by simp [hsecond]
        obtain ⟨hkept, htakes⟩ := mem_filter.mp hr
        have hlast : ((t.atable hv).filter (Hostmask.Table.keptBans (·.temporary))).any takes =
          true :=
          any_eq_true.mpr ⟨r, hkept, htakes⟩
        have hr' : r.aconf.temporary = true := by
          simpa [Hostmask.Table.keptBans, htype r htakes] using (mem_filter.mp hkept).2
        simp [hlast, hr']
      | nil =>
        have hlast : ((t.atable hv).filter (Hostmask.Table.keptBans (·.temporary))).any takes =
            false := by
          rw [List.any_eq_false]
          exact fun r hr => by simpa using filter_eq_nil_iff.mp hsecond r hr
        rw [hlast, nil_append, Bool.not_false, Bool.true_and]
        exact ih

/-! ### The bans that pass their check -/

/-- The check of a ban is passed if nothing is in its way. -/
theorem accepts_withPrevailing (s : State) (ks : List Pending) (hp : p.status ≠ .dline) :
    (s.temporaries.withPrevailing ks).accepts p = s.free ks p := by
  cases hstatus : p.status with
  | dline => exact absurd hstatus hp
  | kill =>
    simp only [accepts, free, hstatus, checkKline, findKline, Table.findConfByAddress, probe_places]
    rw [any_probe_eq_met s.atable (atable_withPrevailing s.temporaries ks) fun l hl r hr =>
      type_of_places hl hr]
  | xline =>
    simp only [accepts, free, hstatus, checkXline, findXlineMask, (lists_withPrevailing _ ks).1]
    rw [any_find_append confsOf_permanent fun c (hc : c ∈ s.temporaries.xlineConfList) =>
      (mem_filter.mp hc).2, any_confsOf]
  | resvChannel =>
    simp only [accepts, free, hstatus, checkResvChannel, hashFindResv,
      (lists_withPrevailing _ ks).2.1, temporaries, isSome_find_append]
    grind
  | resvNick =>
    simp only [accepts, free, hstatus, checkResvNick, findNickResv, (lists_withPrevailing _ ks).2.2,
      temporaries, isSome_find_append, ← not_isSome]
    grind

/-- **The bans that pass their check** are those that prevail. -/
theorem mem_accepted_iff (s : State) {ps : List Pending} (hps : ∀ p ∈ ps, p.status ≠ .dline) :
    ps.reverse.foldlM finishOne s.temporaries =
      some (s.temporaries.withPrevailing (prevailing s.free ps)) ∧
      ∀ q, q ∈ s.temporaries.accepted ps.reverse ↔ q ∈ prevailing s.free ps := by
  induction ps with
  | nil => exact ⟨rfl, fun q => Iff.rfl⟩
  | cons p ps ih =>
    obtain ⟨hfold, hmem⟩ := ih fun q hq => hps q (mem_cons_of_mem p hq)
    have hp := hps p mem_cons_self
    have hone := finishOne_put hp (s.temporaries.withPrevailing (prevailing s.free ps))
    rw [accepts_withPrevailing s _ hp] at hone
    rw [reverse_cons, prevailing, foldlM_append, hfold, bind_eq_bind, bind_some,
      foldlM_cons, hone, accepted_append, hfold]
    simp only [map_some, getD_some, accepted, accepts_withPrevailing s _ hp, hone,
      List.foldlM_nil, Option.bind_eq_bind, Option.bind_some, Option.pure_def]
    split_ifs
    · refine ⟨rfl, fun q => ?_⟩
      simp [hmem, or_comm]
    · refine ⟨rfl, fun q => ?_⟩
      simp [hmem]

end Prevailing

end Ratbox.Bandb
