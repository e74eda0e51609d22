import Ratbox.Bandb.Basic
import Ratbox.Dlines.Runs

/-!
# Replacing the permanent bans

When the helper is done, the permanent bans that were in force are gone, and those that are pending
and pass their check are in force. A message that clears what is pending does the same, with nothing
pending: the bans in force are gone as soon as the helper starts to send a new list.

Source: `src/bandbi.c`, lines 180–441, and `src/s_newconf.c`, lines 129–163 and 856–903.

## Main definitions

* `Bandb.State.InForce`: a permanent ban is in force.
* `Bandb.State.accepted`: the bans of a list that pass their check.
* `Bandb.Fine`: the condition on a message.

## Main results

* `Bandb.replaced`: which bans are in force after a message.
-/

namespace Ratbox.Bandb

open Text Address Dlines Run List Function State

/-! ### Bans in force -/

/-- A permanent ban is in force: a record of the table of masks, a D-line in its tree, or a conf on
the list or in the table for it. -/
def State.Holds (s : State) (ban : Ban) : Status → Prop
  | .kill => ∃ hv, ∃ r ∈ s.atable.atable hv, r.type = .kill ∧ r.address = ban.host ∧
      r.username = ban.user.getD [] ∧ r.aconf = ⟨ban, false⟩
  | .dline => ∃ id c a, s.dlines.confs id = some c ∧ c.pnode = some a ∧ s.dlines.tree.dataAt a =
      some id ∧ c.temporary = false ∧ c.ban = ban
  | .xline => ⟨ban, false⟩ ∈ s.xlineConfList
  | .resvChannel => ⟨ban, false⟩ ∈ s.resvs
  | .resvNick => ⟨ban, false⟩ ∈ s.resvNickList

/-- The ban is in force, with its status. -/
def State.InForce (s : State) (p : Pending) : Prop := s.Holds p.ban p.status

/-- The check for a ban is passed. -/
def State.accepts (s : State) (p : Pending) : Bool :=
  match p.status with
  | .kill => checkKline s.atable p.ban
  | .dline => (netmask p.ban.host).isSome
  | .xline => checkXline s.xlineConfList p.ban
  | .resvChannel => checkResvChannel s.resvs p.ban
  | .resvNick => checkResvNick s.resvNickList p.ban

/-- The bans of a list that pass their check, each with those in front of it in force. -/
def State.accepted (s : State) : List Pending → List Pending
  | [] => []
  | p :: ps => (if s.accepts p then [p] else []) ++ ((s.finishOne p).map (·.accepted ps)).getD []

/-- The state without the permanent bans. -/
def State.cleared (s : State) : Option State :=
  let s := { s with atable := s.atable.clearOutAddressConfBans (·.temporary) }.clearSNewconfBans
  s.dlines.removePermDlines.map fun d => { s with dlines := d, pending := [] }

/-! ### The invariant -/

/-- The table `HASH_RESV` has one conf for a name, and its permanent confs are those of their list;
and the D-lines are good. -/
structure Inv (s : State) : Prop where
  dlines : Good s.dlines
  names : s.resvs.Pairwise fun c d => irccmp c.ban.host d.ban.host = false
  perm : ∀ c, c ∈ s.resvChannelPermList ↔ c ∈ s.resvs ∧ c.temporary = false
  nodup : s.resvChannelPermList.Nodup

theorem inv_init : Inv init :=
  ⟨good_init, Pairwise.nil, by simp [init], nodup_nil⟩

/-! ### RESVs of channels -/

section Resv

variable {s : State} {l : List Conf}

theorem find_of_names (h : l.Pairwise fun c d => irccmp c.ban.host d.ban.host = false)
    {c : Conf} (hc : c ∈ l) : hashFindResv l c.ban.host = some c := by
  rw [hashFindResv]
  induction l with
  | nil => exact absurd hc not_mem_nil
  | cons d l ih =>
    obtain ⟨hd, hl⟩ := pairwise_cons.mp h
    rcases mem_cons.mp hc with rfl | hc
    · simp [irccmp_refl]
    · have hne : irccmp c.ban.host d.ban.host = false := by rw [irccmp_comm, hd c hc]
      simp only [find?_cons, hne]
      exact ih hl hc

theorem nodup_of_names (h : l.Pairwise fun c d => irccmp c.ban.host d.ban.host = false) :
    l.Nodup := by
  refine h.imp fun hcd heq => ?_
  rw [heq, irccmp_refl] at hcd
  cases hcd

/-- The permanent confs of a list are deleted. -/
theorem foldl_delChannelHashResv (hl : l.Nodup) (hnames : s.resvs.Pairwise
    fun c d => irccmp c.ban.host d.ban.host = false) (hmem : ∀ c ∈ l, c ∈ s.resvs ∧
    c.temporary = false) :
    l.foldl delChannelHashResv s = { s with
      resvs := s.resvs.filter (· ∉ l)
      resvChannelPermList := l.foldl List.erase s.resvChannelPermList } := by
  induction l generalizing s with
  | nil =>
    rw [List.foldl_nil, List.foldl_nil, List.filter_eq_self.mpr (by simp)]
  | cons c l ih =>
    obtain ⟨hc, hl⟩ := List.nodup_cons.mp hl
    obtain ⟨hcmem, htemp⟩ := hmem c List.mem_cons_self
    have hone : s.delChannelHashResv c = { s with
        resvs := s.resvs.erase c
        resvChannelPermList := s.resvChannelPermList.erase c } := by
      rw [delChannelHashResv, find_of_names hnames hcmem]
      dsimp only
      rw [htemp, if_neg (by simp)]
    have hfilter : s.resvs.erase c = s.resvs.filter (· ≠ c) := by
      rw [(nodup_of_names hnames).erase_eq_filter]
      exact List.filter_congr fun d _ => by rw [Bool.eq_iff_iff]; simp
    rw [List.foldl_cons, hone, ih hl]
    · simp only [hfilter, List.filter_filter, List.foldl_cons]
      congr 1
      refine List.filter_congr fun d _ => ?_
      simp [Bool.and_comm]
    · exact hnames.sublist List.erase_sublist
    · intro d hd
      obtain ⟨hdmem, hdtemp⟩ := hmem d (List.mem_cons_of_mem c hd)
      refine ⟨?_, hdtemp⟩
      dsimp only
      rw [hfilter, List.mem_filter]
      exact ⟨hdmem, by simpa using ne_of_mem_of_not_mem hd hc⟩

/-- What `clear_s_newconf_bans` leaves. -/
theorem clearSNewconfBans_eq (hnames : s.resvs.Pairwise fun c d => irccmp c.ban.host d.ban.host =
    false) (hperm : ∀ c, c ∈ s.resvChannelPermList ↔ c ∈ s.resvs ∧ c.temporary = false)
    (hnodup : s.resvChannelPermList.Nodup) : s.clearSNewconfBans = { s with
    xlineConfList := s.xlineConfList.filter (·.temporary)
    resvNickList := s.resvNickList.filter (·.temporary)
    resvs := s.resvs.filter (·.temporary)
    resvChannelPermList := [] } := by
  have hnil : s.resvChannelPermList.foldl List.erase s.resvChannelPermList = [] := by
    rw [← List.diff_eq_foldl]
    refine List.eq_nil_iff_forall_not_mem.mpr fun c hc => ?_
    exact ((hnodup.mem_sdiff_iff).mp hc).2 ((hnodup.mem_sdiff_iff).mp hc).1
  have hresvs : s.resvs.filter (· ∉ s.resvChannelPermList) = s.resvs.filter (·.temporary) := by
    refine List.filter_congr fun c hc => ?_
    rw [Bool.eq_iff_iff, decide_eq_true_eq, hperm, not_and, Bool.not_eq_false]
    exact ⟨fun himp => himp hc, fun htemp _ => htemp⟩
  rw [clearSNewconfBans]
  refine (foldl_delChannelHashResv (s := { s with
    xlineConfList := s.xlineConfList.filter (·.temporary)
    resvNickList := s.resvNickList.filter (·.temporary) }) hnodup hnames
      fun c hc => (hperm c).mp hc).trans ?_
  dsimp only
  rw [hnil, hresvs]

theorem Inv.clearSNewconfBans (h : Inv s) : s.clearSNewconfBans = { s with
    xlineConfList := s.xlineConfList.filter (·.temporary)
    resvNickList := s.resvNickList.filter (·.temporary)
    resvs := s.resvs.filter (·.temporary)
    resvChannelPermList := [] } :=
  clearSNewconfBans_eq h.names h.perm h.nodup

end Resv

/-! ### D-lines -/

section Dlines

variable {d : Dlines.State} {ban : Ban}

/-- A permanent D-line of a state. -/
def IsPerm (d : Dlines.State) (ban : Ban) : Prop :=
  ∃ id c, d.confs id = some c ∧ c.temporary = false ∧ c.ban = ban

/-- The permanent D-lines of a good state are its permanent confs. -/
theorem holds_dline_iff {s : State} (h : Good s.dlines) :
    s.Holds ban .dline ↔ IsPerm s.dlines ban := by
  constructor
  · rintro ⟨id, c, a, hc, -, -, hperm, hban⟩
    exact ⟨id, c, hc, hperm, hban⟩
  · rintro ⟨id, c, hc, hperm, hban⟩
    obtain ⟨a, k, hpnode, hdata, -, -⟩ := h.tied.conf id c hc
    exact ⟨id, c, a, hc, hpnode, hdata, hperm, hban⟩

/-- A D-line of the helper is made, if it has an address. -/
theorem finishOne_dline (h : Good d) (hplain : Plain ban.host)
    (hfree : netmask ban.host ≠ none → d.Free ban.host) :
    ∃ d', d.finishOne ban = some d' ∧ Good d' ∧
      (∀ q, IsPerm d' q ↔ IsPerm d q ∨ (netmask ban.host ≠ none ∧ q = ban)) ∧
      ∀ id c, d'.confs id = some c → d.confs id = some c ∨ c.ban = ban := by
  obtain ⟨d', hd', hgood, -, hconfs, -⟩ := h.finishOne hplain hfree
  refine ⟨d', hd', hgood, fun q => ?_, fun id c hc => (hconfs id c hc).imp_right And.right⟩
  rw [Dlines.State.finishOne] at hd'
  cases hmask : netmask ban.host with
  | none =>
    rw [hmask] at hd'
    cases hd'
    have hsame : ((d.makeConf ⟨ban, false, false, 0, .min, none⟩).freeConf d.fresh).confs =
        d.confs := by
      dsimp only [makeConf, freeConf]
      rw [update_idem, ← h.not_fresh, update_eq_self]
    rw [IsPerm, hsame]
    simp [IsPerm]
  | some mask =>
    obtain ⟨t', a, hadd, -⟩ := h.addDline (d.makeConf ⟨ban, false, false, 0, .min, none⟩)
      (c := ⟨ban, false, false, 0, .min, none⟩) rfl h.not_fresh rfl hmask hplain
        (hfree (by simp [hmask]))
    rw [hmask] at hd'
    dsimp only at hd'
    rw [hadd] at hd'
    cases hd'
    constructor
    · rintro ⟨id, c, hc, hperm, rfl⟩
      by_cases hid : id = d.fresh
      · dsimp only at hc
        rw [hid, update_self] at hc
        exact .inr ⟨by simp, (congrArg Dlines.Conf.ban (Option.some.inj hc)).symm⟩
      · dsimp only at hc
        rw [update_of_ne hid] at hc
        exact .inl ⟨id, c, hc, hperm, rfl⟩
    · rintro (⟨id, c, hc, hperm, rfl⟩ | ⟨-, rfl⟩)
      · refine ⟨id, c, ?_, hperm, rfl⟩
        dsimp only
        rw [update_of_ne (h.fresh id c hc).ne, hc]
      · exact ⟨d.fresh, _, update_self .., rfl, rfl⟩

end Dlines

/-! ### Steps of the loop -/

/-- The D-lines of a list. -/
def dlinesOf (ps : List Pending) :
    List Ban := ps.filterMap fun p => if p.status = .dline then some p.ban else none

/-- A D-line has a mask that can be added. -/
def Addable (d : Dlines.State) (p : Pending) : Prop :=
  p.status = .dline → Plain p.ban.host ∧ (netmask p.ban.host ≠ none → d.Free p.ban.host)

section Loop

variable {s s' : State} {p q : Pending}

/-- The effect of the body of the loop of `bandb_handle_finish`. -/
structure Finished (s s' : State) (p : Pending) : Prop where
  inv : Inv s'
  pending : s'.pending = s.pending
  inForce : ∀ q, s'.InForce q ↔ s.InForce q ∨ (s.accepts p = true ∧ q = p)
  confs : ∀ id c, s'.dlines.confs id = some c →
    s.dlines.confs id = some c ∨ (p.status = .dline ∧ c.ban = p.ban)

/-- A ban that is refused changes nothing. -/
theorem finished_refused (h : Inv s) (hp : s.accepts p = false) : Finished s s p :=
  ⟨h, rfl, fun q => by simp [hp], fun _ _ hc => .inl hc⟩

theorem pending_ext_iff : q = p ↔ q.status = p.status ∧ q.ban = p.ban := by
  cases p
  cases q
  simp

/-- A ban is put into a list that is not the one of the D-lines. -/
theorem finished_added (hinv : Inv s') (hpending : s'.pending = s.pending)
    (hdlines : s'.dlines = s.dlines) (haccepts : s.accepts p = true)
      (hforce : ∀ status ban, s'.InForce ⟨status, ban⟩ ↔ s.InForce ⟨status, ban⟩ ∨
        (status = p.status ∧ ban = p.ban)) : Finished s s' p where
  inv := hinv
  pending := hpending
  inForce q := by
    rw [haccepts, pending_ext_iff, eq_self_iff_true, true_and]
    exact hforce q.status q.ban
  confs _ _ hc := Or.inl (hdlines ▸ hc)

section

variable (h : Inv s)
include h

/-- A ban that passes its check is put into a list, and one that does not is left out. -/
theorem finishOne_of_check {check : Bool} (hcheck : s.accepts p = check)
    (hone : s.finishOne p = some (if check then s' else s))
    (hadded : check = true → Finished s s' p) :
    ∃ s'', s.finishOne p = some s'' ∧ Finished s s'' p := by
  cases check with
  | true => exact ⟨s', hone, hadded rfl⟩
  | false => exact ⟨s, hone, finished_refused h hcheck⟩

theorem finishOne_kill (hstatus : p.status = .kill) :
    ∃ s', s.finishOne p = some s' ∧ Finished s s' p := by
  have haccepts : s.accepts p = checkKline s.atable p.ban := by rw [State.accepts, hstatus]
  refine finishOne_of_check h haccepts (by rw [State.finishOne, hstatus]) fun hcheck => ?_
  refine finished_added ⟨h.dlines, h.names, h.perm, h.nodup⟩ rfl rfl (haccepts.trans hcheck)
    fun status ban => ?_
  rw [hstatus]
  cases status with
  | dline | xline | resvChannel | resvNick => simp [State.InForce, State.Holds]
  | kill =>
    simp only [State.InForce, State.Holds, Hostmask.Table.addConfByAddress, true_and]
    constructor
    · rintro ⟨hv, r, hr, htype, haddress, huser, haconf⟩
      by_cases hhv : hv = Hostmask.bucketOf (s.atable.makeRec (some p.ban.host) .kill p.ban.user
          ⟨p.ban, false⟩).address
      · rw [hhv, update_self] at hr
        rcases mem_cons.mp hr with rfl | hr
        · exact .inr (congrArg Conf.ban haconf).symm
        · exact .inl ⟨_, r, hr, htype, haddress, huser, haconf⟩
      · rw [update_of_ne hhv] at hr
        exact .inl ⟨hv, r, hr, htype, haddress, huser, haconf⟩
    · rintro (⟨hv, r, hr, hrest⟩ | rfl)
      · refine ⟨hv, r, ?_, hrest⟩
        by_cases hhv : hv = Hostmask.bucketOf (s.atable.makeRec (some p.ban.host) .kill p.ban.user
            ⟨p.ban, false⟩).address
        · rw [hhv, update_self]
          exact mem_cons_of_mem _ (hhv ▸ hr)
        · rwa [update_of_ne hhv]
      · refine ⟨Hostmask.bucketOf p.ban.host, s.atable.makeRec (some p.ban.host) .kill p.ban.user
          ⟨p.ban, false⟩, ?_, rfl, rfl, rfl, rfl⟩
        rw [show Hostmask.bucketOf p.ban.host = Hostmask.bucketOf
          (s.atable.makeRec (some p.ban.host) .kill p.ban.user ⟨p.ban, false⟩).address from rfl,
            update_self]
        exact mem_cons_self

theorem finishOne_xline (hstatus : p.status = .xline) :
    ∃ s', s.finishOne p = some s' ∧ Finished s s' p := by
  have haccepts : s.accepts p = checkXline s.xlineConfList p.ban := by rw [State.accepts, hstatus]
  refine finishOne_of_check h haccepts (by rw [State.finishOne, hstatus]) fun hcheck => ?_
  refine finished_added ⟨h.dlines, h.names, h.perm, h.nodup⟩ rfl rfl (haccepts.trans hcheck)
    fun status ban => ?_
  rw [hstatus]
  cases status <;> simp [State.InForce, State.Holds, or_comm]

theorem finishOne_resvNick (hstatus : p.status = .resvNick) :
    ∃ s', s.finishOne p = some s' ∧ Finished s s' p := by
  have haccepts : s.accepts p = checkResvNick s.resvNickList p.ban := by rw [State.accepts, hstatus]
  refine finishOne_of_check h haccepts (by rw [State.finishOne, hstatus]) fun hcheck => ?_
  refine finished_added ⟨h.dlines, h.names, h.perm, h.nodup⟩ rfl rfl (haccepts.trans hcheck)
    fun status ban => ?_
  rw [hstatus]
  cases status <;> simp [State.InForce, State.Holds, or_comm]

theorem finishOne_resvChannel (hstatus : p.status = .resvChannel) :
    ∃ s', s.finishOne p = some s' ∧ Finished s s' p := by
  have haccepts : s.accepts p = checkResvChannel s.resvs p.ban := by rw [State.accepts, hstatus]
  refine finishOne_of_check h haccepts (by rw [State.finishOne, hstatus]) fun hcheck => ?_
  have hnone : hashFindResv s.resvs p.ban.host = none := by
    rw [checkResvChannel, Bool.and_eq_true, Bool.not_eq_true', Bool.or_eq_false_iff] at hcheck
    exact Option.not_isSome_iff_eq_none.mp (by simp [hcheck.1.1])
  have hnew : ∀ c ∈ s.resvs, irccmp p.ban.host c.ban.host = false := fun c hc =>
    Bool.eq_false_iff.mpr (find?_eq_none.mp hnone c hc)
  have hfresh : (⟨p.ban, false⟩ : Conf) ∉ s.resvs := fun hmem => by
    have hsame := hnew _ hmem
    rw [irccmp_refl] at hsame
    cases hsame
  refine finished_added ⟨h.dlines, pairwise_cons.mpr ⟨hnew, h.names⟩, fun c => ?_, ?_⟩ rfl rfl
    (haccepts.trans hcheck) fun status ban => ?_
  · dsimp only [State.addChannelHashResv]
    rw [mem_cons, mem_cons, h.perm]
    constructor
    · rintro (rfl | hc)
      · exact ⟨Or.inl rfl, rfl⟩
      · exact ⟨Or.inr hc.1, hc.2⟩
    · rintro ⟨rfl | hc, htemp⟩
      · exact .inl rfl
      · exact .inr ⟨hc, htemp⟩
  · exact nodup_cons.mpr ⟨fun hmem => hfresh ((h.perm _).mp hmem).1, h.nodup⟩
  · rw [hstatus]
    cases status <;> simp [State.InForce, State.Holds, State.addChannelHashResv, or_comm]

theorem finishOne_dlineConf (hstatus : p.status = .dline) (hadd : Addable s.dlines p) :
    ∃ s', s.finishOne p = some s' ∧ Finished s s' p := by
  obtain ⟨hplain, hfree⟩ := hadd hstatus
  obtain ⟨d', hd', hgood, hperm, hconfs⟩ := finishOne_dline h.dlines hplain hfree
  rw [State.finishOne, hstatus]
  dsimp only
  rw [hd']
  refine ⟨_, rfl, ⟨hgood, h.names, h.perm, h.nodup⟩, rfl, fun q => ?_,
    fun id c hc => (hconfs id c hc).imp_right fun hban => ⟨hstatus, hban⟩⟩
  rw [State.accepts, hstatus, pending_ext_iff, hstatus]
  obtain ⟨status, ban⟩ := q
  cases status with
  | kill | xline | resvChannel | resvNick => simp [State.InForce, State.Holds]
  | dline =>
    rw [State.InForce, State.InForce, holds_dline_iff h.dlines,
      holds_dline_iff (s := { s with dlines := d' }) hgood, hperm]
    simp [Option.isSome_iff_ne_none]

theorem finishOne_spec (hadd : Addable s.dlines p) :
    ∃ s', s.finishOne p = some s' ∧ Finished s s' p := by
  cases hstatus : p.status with
  | kill => exact finishOne_kill h hstatus
  | dline => exact finishOne_dlineConf h hstatus hadd
  | xline => exact finishOne_xline h hstatus
  | resvChannel => exact finishOne_resvChannel h hstatus
  | resvNick => exact finishOne_resvNick h hstatus

/-- The loop of `bandb_handle_finish`. -/
theorem foldlM_finishOne {ps : List Pending} (hplain : ∀ ban ∈ dlinesOf ps, Plain ban.host)
    (hdistinct : ((dlinesOf ps).filterMap fun ban => addKey ban.host).Nodup)
    (hfree : ∀ ban ∈ dlinesOf ps, netmask ban.host ≠ none → s.dlines.Free ban.host) :
    ∃ s', ps.foldlM State.finishOne s = some s' ∧ Inv s' ∧ s'.pending = s.pending ∧
      ∀ q, s'.InForce q ↔ s.InForce q ∨ q ∈ s.accepted ps := by
  induction ps generalizing s with
  | nil => exact ⟨s, rfl, h, rfl, fun q => by simp [accepted]⟩
  | cons p ps ih =>
    have hcons : p.status = .dline → dlinesOf (p :: ps) = p.ban :: dlinesOf ps := fun hstatus => by
      simp [dlinesOf, hstatus]
    have hsublist : (dlinesOf ps).Sublist (dlinesOf (p :: ps)) :=
      (List.sublist_cons_self p ps).filterMap _
    have hsub : ∀ ban ∈ dlinesOf ps, ban ∈ dlinesOf (p :: ps) := fun ban hban => hsublist.mem hban
    have hdistinct' : ((dlinesOf ps).filterMap fun ban => addKey ban.host).Nodup :=
      hdistinct.sublist (hsublist.filterMap _)
    obtain ⟨s₁, hs₁, hfin⟩ := finishOne_spec h (p := p) fun hstatus => by
      have hmem : p.ban ∈ dlinesOf (p :: ps) := hcons hstatus ▸ List.mem_cons_self
      exact ⟨hplain _ hmem, hfree _ hmem⟩
    obtain ⟨s', hs', hinv, hpending, hforce⟩ :=
      ih hfin.inv (fun ban hban => hplain ban (hsub ban hban)) hdistinct'
          fun ban hban hmask id c hc heq => by
        rcases hfin.confs id c hc with hc | ⟨hstatus, hsame⟩
        · exact hfree ban (hsub ban hban) hmask id c hc heq
        · -- The D-lines of the list have different bits.
          obtain ⟨mask, hmask'⟩ := Option.ne_none_iff_exists'.mp hmask
          have hkey : addKey ban.host = some (mask.1.pfx (newBitlen mask.2)).key := by
            rw [addKey, hmask']
            rfl
          rw [hsame] at heq
          rw [hcons hstatus] at hdistinct
          simp only [List.filterMap_cons, heq.trans hkey] at hdistinct
          exact (List.nodup_cons.mp hdistinct).1 (List.mem_filterMap.mpr ⟨ban, hban, hkey⟩)
    refine ⟨s', by rw [List.foldlM_cons, hs₁, Option.bind_eq_bind, Option.bind_some, hs'], hinv,
      hpending.trans hfin.pending, fun q => ?_⟩
    rw [hforce, hfin.inForce, accepted, hs₁, Option.map_some, Option.getD_some, List.mem_append,
      or_assoc]
    by_cases haccepts : s.accepts p = true
    · simp [haccepts]
    · simp [haccepts]

/-- The table of masks is not read when the other bans are cleared. -/
theorem Inv.clearAtable : Inv { s with atable := s.atable.clearOutAddressConfBans (·.temporary) } :=
  ⟨h.dlines, h.names, h.perm, h.nodup⟩

theorem handleFinish_eq :
    s.handleFinish = s.cleared.bind fun s₀ => s.pending.foldlM State.finishOne s₀ := by
  rw [handleFinish, cleared, h.clearAtable.clearSNewconfBans]
  dsimp only
  cases s.dlines.removePermDlines <;> rfl

/-- What is left without the permanent bans, where no D-line is one of them. -/
theorem cleared_spec (htemp : ∀ id c, s.dlines.confs id = some c → c.temporary = true) :
    ∃ s', s.cleared = some s' ∧ Inv s' ∧ s'.pending = [] ∧ s'.dlines = s.dlines ∧
    ∀ q, ¬s'.InForce q := by
  rw [cleared, h.clearAtable.clearSNewconfBans]
  dsimp only
  rw [h.dlines.removePermDlines htemp]
  refine ⟨_, rfl, ⟨h.dlines, h.names.sublist filter_sublist, fun c => ?_, nodup_nil⟩, rfl, rfl,
    fun q => ?_⟩
  · rw [mem_filter]
    simp
  · obtain ⟨status, ban⟩ := q
    cases status with
    | kill =>
      rintro ⟨hv, r, hr, htype, -, -, haconf⟩
      obtain ⟨-, hkept⟩ := mem_filter.mp hr
      simp [Hostmask.Table.keptBans, htype, haconf] at hkept
    | dline =>
      rintro ⟨id, c, a, hc, -, -, hperm, -⟩
      cases hperm.symm.trans (htemp id c hc)
    | xline | resvChannel | resvNick => simp [InForce, Holds]

end

/-- The D-lines that are pending can be put into the tree, and no permanent one is there. -/
def DlinesApart (s : State) (ps : List Pending) : Prop :=
  (Dlines.Op.finish (dlinesOf ps)).Apart ⟨s.dlines, fun _ => none⟩

/-- **The end of a list.** The permanent bans are those of the list that pass their check. -/
theorem handleFinish_spec (h : Inv s) (hapart : DlinesApart s s.pending) :
    ∃ s₀ s', s.cleared = some s₀ ∧ s.handleFinish = some s' ∧ Inv s' ∧ s'.pending = [] ∧
      ∀ q, s'.InForce q ↔ q ∈ s₀.accepted s.pending := by
  obtain ⟨htemp, hplain, hdistinct, hfree⟩ := hapart
  obtain ⟨s₀, hs₀, hinv, hpending, hsame, hnone⟩ := cleared_spec h htemp
  obtain ⟨s', hs', hinv', hpending', hforce⟩ := foldlM_finishOne hinv hplain hdistinct
    fun ban hban hmask => hsame ▸ hfree ban hban hmask
  refine ⟨s₀, s', hs₀, ?_, hinv', hpending'.trans hpending, fun q => ?_⟩
  · rw [handleFinish_eq h, hs₀, Option.bind_some, hs']
  · rw [hforce]
    exact or_iff_right (hnone q)

end Loop

/-! ### Messages -/

/-- The letter of a message. -/
def letter (parv : List Str) : Option Char := parv.head?.bind head?

/-- The ban that a message has. -/
def banOf (parv : List Str) : Option Pending :=
  (letter parv).bind fun c => if c ∈ ['K', 'D', 'X', 'R'] then handleBan c parv else none

/-- The bans that were received since the last message that clears what is pending, or ends a list;
the last one first. -/
def received (old : List Pending) (msgs : List (List Str)) : List Pending :=
  msgs.foldl (fun ps parv =>
    if letter parv = some 'C' ∨ letter parv = some 'F' then [] else (banOf parv).toList ++ ps) old

/-- A message has all texts of a ban, and does not end the server. What is pending is cleared only
while no permanent ban is in force, a list is ended only while no permanent D-line is in force, and
no D-line of it is added for bits that another one has. -/
def Fine (s : State) (parv : List Str) : Prop :=
  (∀ c, letter parv = some c → c ∈ ['K', 'D', 'X', 'R'] → (handleBan c parv).isSome) ∧
  (letter parv = some 'C' → ∀ q, ¬s.InForce q) ∧
  (letter parv = some 'F' → DlinesApart s s.pending) ∧
  letter parv ≠ some '!'

/-- What a message does: the permanent bans change at the end of a list only, and then they are
those of the list that pass their check. -/
structure Replaces (s s' : State) (parv : List Str) : Prop where
  kept : letter parv ≠ some 'F' → ∀ q, s'.InForce q ↔ s.InForce q
  replaced : letter parv = some 'F' →
    ∃ s₀, s.cleared = some s₀ ∧ ∀ q, s'.InForce q ↔ q ∈ s₀.accepted s.pending

section Messages

variable {s : State} {parv : List Str}

/-- `parse` looks at the letter. -/
theorem parse_letter (s : State) (parv : List Str) : parse s parv = match letter parv with
    | some 'K' => (handleBan 'K' parv).map fun p => { s with pending := p :: s.pending }
    | some 'D' => (handleBan 'D' parv).map fun p => { s with pending := p :: s.pending }
    | some 'X' => (handleBan 'X' parv).map fun p => { s with pending := p :: s.pending }
    | some 'R' => (handleBan 'R' parv).map fun p => { s with pending := p :: s.pending }
    | some 'C' => s.handleClear.handleFinish
    | some 'F' => s.handleFinish
    | some '!' => none
    | _ => some s := by
  rw [parse, letter]
  cases parv.head? <;> rfl

/-- A ban is received. -/
theorem parse_ban {c : Char} (hletter : letter parv = some c) (hc : c ∈ ['K', 'D', 'X', 'R'])
    {p : Pending} (hp : handleBan c parv = some p) (h : Inv s) :
    ∃ s', parse s parv = some s' ∧ Inv s' ∧ Replaces s s' parv ∧
    s'.pending = received s.pending [parv] := by
  have hban : banOf parv = some p := by rw [banOf, hletter, Option.bind_some, if_pos hc, hp]
  have hparse : parse s parv = some { s with pending := p :: s.pending } := by
    rw [parse_letter, hletter]
    simp only [mem_cons, not_mem_nil, or_false] at hc
    rcases hc with rfl | rfl | rfl | rfl <;> simp [hp]
  have hnot : letter parv ≠ some 'C' ∧ letter parv ≠ some 'F' := by
    rw [hletter]
    simp only [mem_cons, not_mem_nil, or_false] at hc
    rcases hc with rfl | rfl | rfl | rfl <;> decide
  refine ⟨_, hparse, ⟨h.dlines, h.names, h.perm, h.nodup⟩,
    ⟨fun _ q => ?_, fun hf => absurd hf hnot.2⟩, ?_⟩
  · obtain ⟨status, ban⟩ := q
    cases status <;> exact Iff.rfl
  · rw [received, foldl_cons, foldl_nil, if_neg (not_or.mpr hnot), hban]
    rfl

/-- **A message.** -/
theorem parse_spec (h : Inv s) (hfine : Fine s parv) :
    ∃ s', parse s parv = some s' ∧ Inv s' ∧ Replaces s s' parv ∧
    s'.pending = received s.pending [parv] := by
  obtain ⟨htexts, hclear, hfinish, hexit⟩ := hfine
  by_cases hban : ∃ c, letter parv = some c ∧ c ∈ ['K', 'D', 'X', 'R']
  · obtain ⟨c, hletter, hc⟩ := hban
    obtain ⟨p, hp⟩ := Option.isSome_iff_exists.mp (htexts c hletter hc)
    exact parse_ban hletter hc hp h
  by_cases hC : letter parv = some 'C'
  · have htemp : ∀ id c, s.dlines.confs id = some c → c.temporary = true := fun id c hc => by
      by_contra hperm
      exact hclear hC ⟨.dline, c.ban⟩ ((holds_dline_iff h.dlines).mpr ⟨id, c,
        hc, by simpa using hperm, rfl⟩)
    have hapart : DlinesApart s.handleClear s.handleClear.pending :=
      ⟨htemp, fun ban hban => absurd hban not_mem_nil, nodup_nil,
        fun ban hban => absurd hban not_mem_nil⟩
    obtain ⟨s₀, s', -, hs', hinv, hpending, hforce⟩ := handleFinish_spec (s := s.handleClear)
      ⟨h.dlines, h.names, h.perm, h.nodup⟩ hapart
    refine ⟨s', by rw [parse_letter, hC]; exact hs', hinv, ⟨fun _ q => ?_, fun hf => ?_⟩, ?_⟩
    · rw [hforce]
      exact iff_of_false not_mem_nil (hclear hC q)
    · cases hC.symm.trans hf
    · rw [hpending, received, foldl_cons, foldl_nil, if_pos (.inl hC)]
  by_cases hF : letter parv = some 'F'
  · obtain ⟨s₀, s', hs₀, hs', hinv, hpending, hforce⟩ := handleFinish_spec h (hfinish hF)
    refine ⟨s', by rw [parse_letter, hF]; exact hs', hinv, ⟨fun hf => absurd hF hf,
      fun _ => ⟨s₀, hs₀, hforce⟩⟩, ?_⟩
    rw [hpending, received, foldl_cons, foldl_nil, if_pos (.inr hF)]
  · have hnone : banOf parv = none := by
      rw [banOf]
      cases hletter : letter parv with
      | none => rfl
      | some c => rw [Option.bind_some, if_neg fun hc => hban ⟨c, hletter, hc⟩]
    refine ⟨s, ?_, h, ⟨fun _ _ => Iff.rfl, fun hf => absurd hf hF⟩, ?_⟩
    · rw [parse_letter]
      split
      all_goals first | rfl | skip
      all_goals rename_i heq
      all_goals first | exact absurd heq hC | exact absurd heq hF | exact absurd heq hexit | skip
      all_goals exact absurd ⟨_, heq, by decide⟩ hban
    · rw [received, foldl_cons, foldl_nil, if_neg (not_or.mpr ⟨hC, hF⟩), hnone]
      rfl

/-- The messages so far. -/
theorem parse_run {msgs : List (List Str)} (h : Inv s) (hfine : StepsMeet parse Fine s msgs) :
    ∃ s', run parse s msgs = some s' ∧ Inv s' ∧ s'.pending = received s.pending msgs := by
  induction msgs generalizing s with
  | nil => exact ⟨s, rfl, h, rfl⟩
  | cons parv msgs ih =>
    obtain ⟨t, ht, hinv, -, hpending⟩ := parse_spec h hfine.1
    obtain ⟨s', hrun, hinv', hpending'⟩ := ih hinv (hfine.2 t ht)
    refine ⟨s', by rw [run, ht, Option.bind_some, hrun], hinv', ?_⟩
    rw [hpending', hpending]
    rfl

/-- **Replacing the permanent bans.** In every run in which what is pending is cleared only while no
permanent ban is in force, a list is ended only while no permanent D-line is in force, and no D-line
of it is added for bits that another one has, the bans that are pending are those that were received
since the last end of a list, or the last clearing; and each message changes the permanent bans only
if it ends a list, and then to those of the list that pass their check. -/
theorem replaced {msgs : List (List Str)} (h : Inv s)
    (hfine : StepsMeet parse Fine s (msgs ++ [parv])) :
    ∃ s₁ s₂, run parse s msgs = some s₁ ∧ s₁.pending = received s.pending msgs ∧
      parse s₁ parv = some s₂ ∧ Replaces s₁ s₂ parv := by
  obtain ⟨hmeet, hlast⟩ := (stepsMeet_append s msgs [parv]).mp hfine
  obtain ⟨s₁, hrun, hinv, hpending⟩ := parse_run h hmeet
  obtain ⟨s₂, hs₂, -, hreplaces, -⟩ := parse_spec hinv (hlast s₁ hrun).1
  exact ⟨s₁, s₂, hrun, hpending, hs₂, hreplaces⟩

end Messages

/-- An X-line of the database. -/
def xlineMsg : List Str := ["X".toList, "spam*".toList, "oper".toList, "no|secret".toList]

/-- A list of an X-line is received and ended. -/
theorem replaced_small : ∃ s₁ s₂, run parse init [xlineMsg] = some s₁ ∧ s₁.pending = received []
    [xlineMsg] ∧ parse s₁ ["F".toList] = some s₂ ∧ Replaces s₁ s₂ ["F".toList] := by
  refine replaced inv_init ⟨⟨?_, ?_, ?_, ?_⟩, fun s hs => ⟨⟨?_, ?_, ?_, ?_⟩, fun _ _ => trivial⟩⟩
  · rintro c ⟨⟩ -
    rfl
  · exact fun hletter => absurd hletter (by decide)
  · exact fun hletter => absurd hletter (by decide)
  · decide
  · intro c hletter hc
    cases hletter
    exact absurd hc (by decide)
  · exact fun hletter => absurd hletter (by decide)
  · cases hs
    intro _
    refine ⟨?_, fun ban hban => absurd hban not_mem_nil, nodup_nil,
      fun ban hban => absurd hban not_mem_nil⟩
    rintro id c ⟨⟩
  · decide

/-- A list of an X-line is received and ended, and the helper starts to send another list: the
X-line is not in force any more. -/
theorem cleared_at_once : ∃ s₁ s₂ q, run parse init [xlineMsg, ["F".toList]] = some s₁ ∧
    parse s₁ ["C".toList] = some s₂ ∧ s₁.InForce q ∧ ¬s₂.InForce q := by
  refine ⟨_, _, ⟨.xline, ⟨none, "spam*".toList, "no".toList, some "secret".toList, "oper".toList⟩⟩,
    rfl, rfl, mem_cons_self, ?_⟩
  exact not_mem_nil

end Ratbox.Bandb
