import Ratbox.Dlines.Overwriting

/-!
# Runs of the D-lines

A D-line that is added for the bits of another one takes over its node, and the first of the two
that is removed takes the node away from the other one. As long as this does not happen, every
D-line that was added and not removed is found by its own mask, and nothing points to a conf that is
freed.

Source: `src/reject.c`, `src/s_conf.c`, `src/bandbi.c`, `modules/m_dline.c` and
`modules/m_rehash.c`.

## Main definitions

* `Dlines.active`: the D-lines that were added and not removed.
* `Dlines.Sound`: these D-lines are found, and nothing else is left.
* `Dlines.Op.Apart`: no D-line is added for bits that another one has, and the helper sends its list
  while there is no permanent one.

## Main results

* `Dlines.dlines_sound`: the D-lines are sound after every such run.
-/

namespace Ratbox.Dlines

open Text Address Patricia Run List Option Function

/-! ### What is in force -/

/-- The D-lines that a command or an event is to remove. -/
def Op.removes : Op → Conf → Bool
  | .dline .., _ => false
  | .undline cidr operAdmin _ _, c =>
    (exactKey cidr).isSome && exactKey c.ban.host == exactKey cidr && (!c.locked || operAdmin)
  | .finish _, c => !c.temporary
  | .expire now, c => c.temporary && c.port = .min && c.hold ≤ now
  | .reorganise .., _ => false
  | .rehash, c => c.temporary

/-- The confs that a command or an event makes. -/
def Op.makes : Op → List Ban
  | .dline ban _ _ _ operAdmin => if State.validDline ban.host operAdmin then [ban] else []
  | .finish bans => bans
  | _ => []

/-- The D-lines that were added and not removed, after a command or an event. A conf whose mask is
the mask of a host name is no D-line. -/
def active (removes : Conf → Bool) (makes : List Ban) (s : State) (old : ConfId → Option Ban) :
    ConfId → Option Ban := fun id =>
  if id < s.fresh then if (s.confs id).any removes then none else old id
  else makes[id - s.fresh]?.filter fun ban => (netmask ban.host).isSome

/-- The state, with the D-lines that were added and not removed. -/
structure Ghost where
  state : State
  active : ConfId → Option Ban

/-- A step. -/
def step (g : Ghost) (o : Op) : Option Ghost :=
  (g.state.exec o).map fun s => ⟨s, active o.removes o.makes g.state g.active⟩

/-- At first there is no D-line. -/
def start : Ghost := ⟨init, fun _ => none⟩

/-- Each D-line that was added and not removed is found by the address and the bits of its own mask;
and the nodes and the lists have no other confs. -/
structure Sound (g : Ghost) : Prop where
  found : ∀ id ban, g.active id = some ban → ∃ addr bits, netmask ban.host = some (addr, bits) ∧
    g.state.findDlineExact addr (unsigned bits) = some (some id)
  conf : ∀ id, (g.state.confs id).map (·.ban) = g.active id
  nodes : ∀ a q, g.state.tree.pfxAt a = some q → ∃ id c, g.state.tree.dataAt a = some id ∧
    g.state.confs id = some c ∧ c.pnode = some a
  temps : ∀ i id, id ∈ g.state.temps i ↔
    ∃ c, g.state.confs id = some c ∧ c.temporary = true ∧ c.port = i

/-- No D-line has the bits of the mask. -/
def State.Free (s : State) (host : Str) : Prop :=
  ∀ id c, s.confs id = some c → addKey c.ban.host ≠ addKey host

/-- No D-line is added for bits that another one has; the masks that are added for IPv4 addresses
have between zero and 32 bits; UNDLINE reads the flags and the port that the conf had; and the list
of the helper ends while there is no permanent D-line. -/
def Op.Apart (g : Ghost) : Op → Prop
  | .dline ban .. => Plain ban.host ∧ (netmask ban.host ≠ none → g.state.Free ban.host)
  | .undline cidr _ temporary port => ∀ id c, g.state.confs id = some c →
      exactKey c.ban.host = exactKey cidr → temporary = c.temporary ∧ (c.temporary → port = c.port)
  | .finish bans => (∀ id c, g.state.confs id = some c → c.temporary = true) ∧
      (∀ ban ∈ bans, Plain ban.host) ∧ (bans.filterMap fun ban => addKey ban.host).Nodup ∧
      ∀ ban ∈ bans, netmask ban.host ≠ none → g.state.Free ban.host
  | _ => True

/-! ### The effect of a step -/

/-- The invariant is kept, and the confs are those of the D-lines that were added and not
removed. -/
structure Effect (removes : Conf → Bool) (makes : List Ban) (s s' : State) : Prop where
  good : Good s'
  ban : ∀ id, (s'.confs id).map (·.ban) =
    active removes makes s (fun id => (s.confs id).map (·.ban)) id

section Effect

variable {s s' : State} {removes : Conf → Bool} {P : ConfId → Conf → Prop} {ban : Ban}
  {bans : List Ban}

theorem Removed.effect (h : Good s) (hremoved : Removed P s s')
    (hP : ∀ id c, s.confs id = some c → (P id c ↔ removes c = true)) : Effect removes [] s s' := by
  refine ⟨hremoved.good, fun id => ?_⟩
  rw [active]
  cases hc : s.confs id with
  | none =>
    have hc' : s'.confs id = none := by
      by_contra hne
      obtain ⟨c, hc'⟩ := ne_none_iff_exists'.mp hne
      cases hc.symm.trans ((hremoved.confs id c).mp hc').1
    rw [hc']
    simp
  | some c =>
    rw [if_pos (h.fresh id c hc), any_some]
    cases hr : removes c with
    | true =>
      have hc' : s'.confs id = none := by
        by_contra hne
        obtain ⟨c', hc'⟩ := ne_none_iff_exists'.mp hne
        obtain ⟨hc'', hnot⟩ := (hremoved.confs id c').mp hc'
        cases hc.symm.trans hc''
        exact hnot ((hP id c hc).mpr hr)
      rw [hc']
      rfl
    | false =>
      have hc' := (hremoved.confs id c).mpr ⟨hc, fun hp => absurd ((hP id c hc).mp hp)
        (by simp [hr])⟩
      rw [hc']
      rfl

theorem Effect.of_same (hgood : Good s') (hfresh : s'.fresh = s.fresh)
    (hban : ∀ id, (s'.confs id).map (·.ban) = (s.confs id).map (·.ban))
    (hnone : ∀ id c, s.confs id = some c → removes c = false) : Effect removes [] s s' := by
  refine ⟨hgood, fun id => (hban id).trans ?_⟩
  rw [active]
  cases hc : s.confs id with
  | none => simp
  | some c =>
    have hlt : id < s.fresh := by
      cases hc' : s'.confs id with
      | none => exact absurd (hban id) (by simp [hc, hc'])
      | some c' => exact hfresh ▸ hgood.fresh id c' hc'
    rw [if_pos hlt, any_some, hnone id c hc]
    rfl

/-- A conf is made. -/
theorem active_make (h : Good s) {c : Conf} (hmask : netmask c.ban.host ≠ none) (id : ConfId) :
    (update s.confs s.fresh (some c) id).map (·.ban) =
      active (fun _ => false) [c.ban] s (fun id => (s.confs id).map (·.ban)) id := by
  rw [active]
  by_cases hne : id = s.fresh
  · subst hne
    rw [update_self, if_neg (lt_irrefl _), Nat.sub_self, getElem?_cons_zero,
      filter_some, if_pos (isSome_iff_ne_none.mpr hmask)]
    rfl
  · rw [update_of_ne hne]
    by_cases hlt : id < s.fresh
    · rw [if_pos hlt]
      cases s.confs id <;> rfl
    · have hlen : 1 ≤ id - s.fresh :=
        Nat.sub_pos_of_lt (Nat.lt_of_le_of_ne (Nat.not_lt.mp hlt) (Ne.symm hne))
      rw [if_neg hlt, h.not_made hlt, getElem?_eq_none (by simpa using hlen)]
      rfl

/-! ### The commands and events -/

theorem validDline_netmask {host : Str} {operAdmin : Bool}
    (h : State.validDline host operAdmin = true) :
    ∃ mask, netmask host = some mask := by
  rw [State.validDline] at h
  cases hmask : netmask host with
  | none => simp [hmask] at h
  | some mask => exact ⟨mask, rfl⟩

section

variable (h : Good s)
include h

theorem Good.setDline {mask : Ip × ℤ} (hmask : netmask ban.host = some mask)
    (hplain : Plain ban.host) (hfree : s.Free ban.host) (tdlineTime now : ℤ) (admin : Bool) :
    ∃ s', s.setDline ban tdlineTime now admin = some s' ∧ Effect (fun _ => false) [ban] s s' := by
  rw [State.setDline]
  split_ifs with htemp
  · have hc : (s.makeConf ⟨ban, false, admin, now + tdlineTime, .min, none⟩).confs s.fresh =
        some ⟨ban, false, admin, now + tdlineTime, .min, none⟩ := update_self ..
    obtain ⟨t', a, hadd, htied⟩ := h.addDline
      ((s.makeConf ⟨ban, false, admin, now + tdlineTime, .min, none⟩).enlist
        (State.tempFor (now + tdlineTime) now) s.fresh ⟨ban, true, admin, now + tdlineTime, .min,
          none⟩)
      (c := ⟨ban, true, admin, now + tdlineTime, State.tempFor (now + tdlineTime) now, none⟩)
      rfl h.not_fresh (update_idem ..) hmask hplain hfree
    refine ⟨_, ?_, h.makeTemp rfl htied, active_make h (by simp [hmask])⟩
    rw [State.addTempDline, hc, bind_eq_bind, bind_some]
    exact congrArg (Option.map (·.1)) hadd
  · obtain ⟨t', a, hadd, htied⟩ := h.addDline (s.makeConf ⟨ban, false, admin, 0, .min, none⟩)
      (c := ⟨ban, false, admin, 0, .min, none⟩) rfl h.not_fresh rfl hmask hplain hfree
    refine ⟨_, by rw [hadd]; rfl, h.makePerm rfl htied, active_make h (by simp [hmask])⟩

theorem Good.dline (hplain : Plain ban.host)
    (hfree : netmask ban.host ≠ none → s.Free ban.host) (tdlineTime now : ℤ)
    (admin operAdmin : Bool) :
    ∃ s', s.dline ban tdlineTime now admin operAdmin = some s' ∧
      Effect (fun _ => false) (Op.dline ban tdlineTime now admin operAdmin).makes s s' := by
  rw [State.dline, Op.makes]
  split_ifs with hvalid
  · obtain ⟨mask, hmask⟩ := validDline_netmask hvalid
    exact h.setDline hmask hplain (hfree (by simp [hmask])) tdlineTime now admin
  · exact ⟨s, rfl, Effect.of_same h rfl (fun _ => rfl) fun _ _ _ => rfl⟩

/-- The exact lookup finds the D-line of the mask. -/
theorem Good.findDlineExact (addr : Ip) (len : ℕ) :
    ∃ r, s.findDlineExact addr len = some r ∧ ∀ id, r = some id ↔
      ∃ c, s.confs id = some c ∧
        exactKey c.ban.host = some (addr.pfx (min len addr.family.bits)).key := by
  obtain ⟨label, hinv⟩ := h.tied.inv
  have hmax : (addr.pfx (min len addr.family.bits)).bitlen ≤ s.tree.maxbits := by
    rw [h.tied.bits]
    exact (Nat.min_le_right _ _).trans (Mixed.bits_le _)
  obtain ⟨r, hr, hfound⟩ := hinv.searchExact hmax
  have hmatch : s.tree.matchIpExact addr len = some r := hr
  rw [State.findDlineExact, hmatch, bind_eq_bind, bind_some]
  have hconf : ∀ id c, s.confs id = some c →
      exactKey c.ban.host = some (addr.pfx (min len addr.family.bits)).key →
      ∃ a, r = some a ∧ s.tree.dataAt a = some id := by
    intro id c hc hkey
    obtain ⟨a, k, -, hdata, hk, hadd⟩ := h.tied.conf id c hc
    rw [(h.tied.plain id c hc).key, hadd] at hkey
    exact ⟨a, (hfound a).mpr (hk.trans hkey), hdata⟩
  cases r with
  | none =>
    refine ⟨none, rfl, fun id => ⟨by simp, ?_⟩⟩
    rintro ⟨c, hc, hkey⟩
    obtain ⟨a, ha, -⟩ := hconf id c hc hkey
    cases ha
  | some a =>
    have hk := (hfound a).mp rfl
    obtain ⟨id₀, c₀, hdata₀, hc₀, hpnode₀⟩ := h.tied.node a _ hk
    refine ⟨some id₀, hdata₀ ▸ rfl, fun id => ⟨?_, ?_⟩⟩
    · intro hid
      cases hid
      obtain ⟨a', k, hpnode, -, hk', hadd⟩ := h.tied.conf id₀ c₀ hc₀
      cases hpnode₀.symm.trans hpnode
      refine ⟨c₀, hc₀, ?_⟩
      rw [(h.tied.plain id₀ c₀ hc₀).key, hadd, ← hk', hk]
    · rintro ⟨c, hc, hkey⟩
      obtain ⟨a', ha', hdata⟩ := hconf id c hc hkey
      cases ha'
      exact hdata₀.symm.trans hdata

theorem Good.undline {cidr : Str} {operAdmin temporary : Bool} {port : Temp}
    (hread : ∀ id c, s.confs id = some c → exactKey c.ban.host = exactKey cidr →
      temporary = c.temporary ∧ (c.temporary → port = c.port)) :
    ∃ s', s.undline cidr operAdmin temporary port = some s' ∧
      Effect (Op.undline cidr operAdmin temporary port).removes [] s s' := by
  rw [State.undline]
  cases hmask : netmask cidr with
  | none =>
    refine ⟨s, rfl, Effect.of_same h rfl (fun _ => rfl) fun id c hc => ?_⟩
    simp [Op.removes, exactKey, hmask]
  | some mask =>
    obtain ⟨addr, b⟩ := mask
    have hkey : exactKey cidr = some (addr.pfx (min (unsigned b) addr.family.bits)).key := by
      rw [exactKey, hmask]
      rfl
    obtain ⟨r, hr, hfound⟩ := h.findDlineExact addr (unsigned b)
    rw [← hkey] at hfound
    dsimp only
    rw [hr, bind_eq_bind, bind_some]
    cases r with
    | none =>
      refine ⟨s, rfl, Effect.of_same h rfl (fun _ => rfl) fun id c hc => ?_⟩
      have hne : exactKey c.ban.host ≠ exactKey cidr := fun heq =>
        absurd ((hfound id).mpr ⟨c, hc, heq⟩) (by simp)
      simp [Op.removes, hne]
    | some id =>
      obtain ⟨c, hc, heq⟩ := (hfound id).mp rfl
      have honly : ∀ id' c', s.confs id' = some c' →
          (id' = id ↔ exactKey c'.ban.host = exactKey cidr) := by
        intro id' c' hc'
        constructor
        · rintro rfl
          exact some.inj (hc.symm.trans hc') ▸ heq
        · exact fun heq' => (some.inj ((hfound id').mpr ⟨c', hc', heq'⟩)).symm
      dsimp only
      rw [hc, bind_eq_bind, bind_some]
      by_cases hlocked : c.locked = true ∧ ¬operAdmin = true
      · rw [if_pos hlocked]
        refine ⟨s, rfl, Effect.of_same h rfl (fun _ => rfl) fun id' c' hc' => ?_⟩
        by_cases hid : id' = id
        · subst hid
          cases hc.symm.trans hc'
          simpa [Op.removes, hlocked.1] using fun _ _ => hlocked.2
        · have hne := mt (honly id' c' hc').mpr hid
          simp [Op.removes, hne]
      · have hremoves : ∀ id' c', s.confs id' = some c' →
            (id' = id ↔ (Op.undline cidr operAdmin temporary port).removes c' = true) := by
          intro id' c' hc'
          rw [honly id' c' hc']
          simp only [Op.removes, hkey, isSome_some, Bool.true_and, Bool.and_eq_true, beq_iff_eq,
            Bool.or_eq_true, Bool.not_eq_true']
          refine (and_iff_left_of_imp fun heq' => ?_).symm
          rw [← hkey] at heq'
          obtain rfl := (honly id' c' hc').mpr heq'
          cases hc.symm.trans hc'
          cases hl : c.locked with
          | false => exact .inl rfl
          | true => exact .inr (by simpa [hl] using hlocked)
        obtain ⟨htemp, hport⟩ := hread id c hc heq
        rw [if_neg hlocked]
        cases temporary with
        | true =>
          obtain ⟨s', hs', hremoved⟩ := h.removeListed hc
          exact ⟨s', by simpa [hport htemp.symm] using hs', hremoved.effect h hremoves⟩
        | false =>
          obtain ⟨s', hs', hremoved⟩ := h.removePerm hc htemp.symm
          exact ⟨s', by simpa using hs', hremoved.effect h hremoves⟩

theorem Good.finishOne (hplain : Plain ban.host)
    (hfree : netmask ban.host ≠ none → s.Free ban.host) :
    ∃ s', s.finishOne ban = some s' ∧ Good s' ∧ s'.fresh = s.fresh + 1 ∧
      (∀ id c, s'.confs id = some c → s.confs id = some c ∨ (id = s.fresh ∧ c.ban = ban)) ∧
      ∀ id, (s'.confs id).map (·.ban) =
        active (fun _ => false) [ban] s (fun id => (s.confs id).map (·.ban)) id := by
  rw [State.finishOne]
  cases hmask : netmask ban.host with
  | none =>
    have hconfs : ((s.makeConf ⟨ban, false, false, 0, .min, none⟩).freeConf s.fresh).confs =
        s.confs := by
      dsimp only [State.makeConf, State.freeConf]
      rw [update_idem, ← h.not_fresh, update_eq_self]
    refine ⟨_, rfl, ⟨hconfs ▸ h.tied, fun i id => ?_, h.nodup, fun id c hc => ?_⟩, rfl,
      fun id c hc => ?_, fun id => ?_⟩
    · rw [hconfs]
      exact h.mem i id
    · rw [hconfs] at hc
      exact (h.fresh id c hc).trans (Nat.lt_succ_self _)
    · rw [hconfs] at hc
      exact .inl hc
    · rw [hconfs, active]
      by_cases hlt : id < s.fresh
      · rw [if_pos hlt]
        cases s.confs id <;> rfl
      · rw [if_neg hlt, h.not_made hlt]
        cases hd : id - s.fresh with
        | zero => rw [getElem?_cons_zero, filter_some, hmask]; rfl
        | succ n => simp
  | some mask =>
    obtain ⟨t', a, hadd, htied⟩ := h.addDline (s.makeConf ⟨ban, false, false, 0, .min, none⟩)
      (c := ⟨ban, false, false, 0, .min, none⟩) rfl h.not_fresh rfl hmask hplain
      (hfree (by simp [hmask]))
    refine ⟨_, by dsimp only; rw [hadd]; rfl, h.makePerm rfl htied, rfl, fun id c hc => ?_,
      active_make h (by simp [hmask])⟩
    dsimp only at hc
    by_cases hne : id = s.fresh
    · rw [hne, update_self] at hc
      exact .inr ⟨hne, some.inj hc ▸ rfl⟩
    · rw [update_of_ne hne] at hc
      exact .inl hc

/-- D-lines of the database are added. -/
theorem Good.finishAll (hplain : ∀ ban ∈ bans, Plain ban.host)
    (hdistinct : (bans.filterMap fun ban => addKey ban.host).Nodup)
    (hfree : ∀ ban ∈ bans, netmask ban.host ≠ none → s.Free ban.host) :
    ∃ s', bans.foldlM State.finishOne s = some s' ∧ Effect (fun _ => false) bans s s' := by
  induction bans generalizing s with
  | nil => exact ⟨s, rfl, Effect.of_same h rfl (fun _ => rfl) fun _ _ _ => rfl⟩
  | cons ban bans ih =>
    obtain ⟨s₁, hs₁, hgood, hfresh, hconfs, hban⟩ := h.finishOne (hplain ban mem_cons_self)
      (hfree ban mem_cons_self)
    have hdistinct' : (bans.filterMap fun ban => addKey ban.host).Nodup := by
      cases hkey : addKey ban.host with
      | none =>
        simp only [filterMap_cons, hkey] at hdistinct
        exact hdistinct
      | some k =>
        simp only [filterMap_cons, hkey] at hdistinct
        exact (nodup_cons.mp hdistinct).2
    obtain ⟨s', hs', heffect⟩ := ih hgood (fun b hb => hplain b (mem_cons_of_mem _ hb)) hdistinct'
      fun b hb hmask id c hc heq => by
        rcases hconfs id c hc with hc | ⟨-, rfl⟩
        · exact hfree b (mem_cons_of_mem _ hb) hmask id c hc heq
        · -- The bans of the list have different bits.
          obtain ⟨mask, hmask'⟩ := ne_none_iff_exists'.mp hmask
          have hkey : addKey b.host = some (mask.1.pfx (newBitlen mask.2)).key := by
            rw [addKey, hmask']
            rfl
          simp only [filterMap_cons, heq.trans hkey] at hdistinct
          exact (nodup_cons.mp hdistinct).1 (mem_filterMap.mpr ⟨b, hb, hkey⟩)
    refine ⟨s', by rw [foldlM_cons, hs₁, bind_eq_bind, bind_some, hs'],
      heffect.good, fun id => (heffect.ban id).trans ?_⟩
    have hone := hban id
    rw [active, hfresh]
    rw [active] at hone ⊢
    by_cases hlt : id < s.fresh
    · rw [if_pos hlt] at hone ⊢
      rw [if_pos (hlt.trans (Nat.lt_succ_self _)), hone]
      cases s₁.confs id <;> rfl
    · rw [if_neg hlt] at hone ⊢
      by_cases heq : id = s.fresh
      · subst heq
        rw [if_pos (Nat.lt_succ_self _), hone, Nat.sub_self, getElem?_cons_zero,
          getElem?_cons_zero]
        cases s₁.confs s.fresh <;> rfl
      · have hsub : id - s.fresh = (id - (s.fresh + 1)) + 1 := by
          have hlt' := Nat.lt_of_le_of_ne (Nat.not_lt.mp hlt) (Ne.symm heq)
          exact (Nat.sub_add_cancel (Nat.sub_pos_of_lt hlt')).symm
        rw [if_neg (fun hlt' => hlt (Nat.lt_of_le_of_ne (Nat.lt_succ_iff.mp hlt') heq)), hsub,
          getElem?_cons_succ]

/-- The end of a list goes on if there is no permanent D-line. -/
theorem Good.removePermDlines (htemp : ∀ id c, s.confs id = some c → c.temporary = true) :
    s.removePermDlines = some s := by
  refine h.held.removePermDlines.mpr ⟨?_, rfl⟩
  rintro q ⟨id, c, a, hc, -, -, hperm, -⟩
  cases hperm.symm.trans (htemp id c hc)

theorem Good.finish (htemp : ∀ id c, s.confs id = some c → c.temporary = true)
    (hplain : ∀ ban ∈ bans, Plain ban.host)
    (hdistinct : (bans.filterMap fun ban => addKey ban.host).Nodup)
    (hfree : ∀ ban ∈ bans, netmask ban.host ≠ none → s.Free ban.host) :
    ∃ s', s.finish bans = some s' ∧ Effect (Op.finish bans).removes bans s s' := by
  obtain ⟨s', hs', heffect⟩ := h.finishAll hplain hdistinct hfree
  refine ⟨s', by rw [State.finish, h.removePermDlines htemp, bind_eq_bind, bind_some, hs'],
    heffect.good, fun id => (heffect.ban id).trans ?_⟩
  -- Nothing is to be removed.
  rw [active, active]
  refine if_congr Iff.rfl ?_ rfl
  cases hc : s.confs id with
  | none => rfl
  | some c => simp [Op.removes, htemp id c hc]

end

end Effect

/-! ### Runs -/

/-- The state is good, and the confs are those of the D-lines that were added and not removed. -/
structure Tracked (g : Ghost) : Prop where
  good : Good g.state
  active : ∀ id, (g.state.confs id).map (·.ban) = g.active id

variable {g : Ghost}

theorem Tracked.step (h : Tracked g) {o : Op} (ho : o.Apart g) :
    ∃ g', step g o = some g' ∧ Tracked g' := by
  have hsame : (fun id => (g.state.confs id).map (·.ban)) = g.active := funext h.active
  suffices heffect : ∃ s', g.state.exec o = some s' ∧ Effect o.removes o.makes g.state s' by
    obtain ⟨s', hs', heffect⟩ := heffect
    refine ⟨_, by rw [Dlines.step, hs']; rfl, heffect.good, fun id => ?_⟩
    rw [heffect.ban, hsame]
  cases o with
  | dline ban tdlineTime now admin operAdmin =>
    exact h.good.dline ho.1 ho.2 tdlineTime now admin operAdmin
  | undline cidr operAdmin temporary port => exact h.good.undline ho
  | finish bans => exact h.good.finish ho.1 ho.2.1 ho.2.2.1 ho.2.2.2
  | expire now =>
    obtain ⟨s', hs', hremoved⟩ := h.good.expireTempKd .min now
    refine ⟨s', hs', hremoved.effect h.good fun id c _ => ?_⟩
    simp [Op.removes, and_assoc]
  | reorganise i now =>
    obtain ⟨s', hs', hgood, hfresh, hban⟩ := h.good.reorganiseAll now (h.good.nodup i)
      fun id => (h.good.mem i id).mp
    exact ⟨s', hs', Effect.of_same hgood hfresh hban fun _ _ _ => rfl⟩
  | rehash =>
    obtain ⟨s', hs', hremoved⟩ := h.good.rehashTdlines
    exact ⟨s', hs', hremoved.effect h.good fun id c _ => Iff.rfl⟩

theorem Tracked.sound (h : Tracked g) : Sound g := by
  refine ⟨fun id ban hban => ?_, h.active, fun a q hq => ?_, h.good.mem⟩
  · obtain ⟨c, hc, rfl⟩ := map_eq_some_iff.mp ((h.active id).trans hban)
    obtain ⟨a, k, -, -, -, hadd⟩ := h.good.tied.conf id c hc
    obtain ⟨⟨addr, bits⟩, hmask, -⟩ := map_eq_some_iff.mp hadd
    refine ⟨addr, bits, hmask, ?_⟩
    obtain ⟨r, hr, hfound⟩ := h.good.findDlineExact addr (unsigned bits)
    rw [hr, (hfound id).mpr ⟨c, hc, by rw [exactKey, hmask]; rfl⟩]
  · exact h.good.tied.node a q.key (by rw [Tree.key_pfxAt, hq, map_some])

/-- **D-lines.** As long as no D-line is added for bits that another one has, and the helper sends
its list while there is no permanent D-line, no command and no event fails, each D-line that was
added and not removed is found by its own mask, and nothing points to a conf that was freed. -/
theorem dlines_sound {ops : List Op} (hops : StepsMeet step (fun g o => o.Apart g) start ops) :
    ∃ g, run step start ops = some g ∧ Sound g := by
  obtain ⟨g, hrun, hg⟩ := Run.progress Tracked (fun _ _ h ho => h.step ho)
    (show Tracked start from ⟨good_init, fun _ => rfl⟩) hops
  exact ⟨g, hrun, hg.sound⟩

/-- A ban of `10.0.0.0/24`. -/
def someBan : Ban := ⟨none, "10.0.0.0/24".toList, "spam".toList, none, "oper".toList⟩

theorem netmask_someBan : netmask someBan.host = some (⟨.inet, [10, 0, 0, 0]⟩, 24) := by
  decide +kernel

/-- A ban of `10.0.1.0/24`. -/
def otherBan : Ban := ⟨none, "10.0.1.0/24".toList, "flood".toList, some "botnet".toList,
    "oper".toList⟩

theorem netmask_otherBan : netmask otherBan.host = some (⟨.inet, [10, 0, 1, 0]⟩, 24) := by
  decide +kernel

theorem addKey_ne : addKey someBan.host ≠ addKey otherBan.host := by
  rw [addKey, addKey, netmask_someBan, netmask_otherBan]
  decide

/-- The state after a D-line for ten minutes has its conf only. -/
theorem confs_dline (hg : step start (.dline someBan 600 1000 false false) = some g) {id : ConfId}
    {c : Conf} (hc : g.state.confs id = some c) : c.temporary = true ∧ c.ban = someBan := by
  have heval : (init.exec (.dline someBan 600 1000 false false)).all fun s =>
      s.fresh == 1 && (s.confs 0).all fun c => c.temporary && c.ban == someBan := by decide +kernel
  obtain ⟨s, hs, rfl⟩ := map_eq_some_iff.mp hg
  have hplain : Plain someBan.host := fun addr bits hmask _ => by
    rw [netmask_someBan] at hmask
    cases hmask
    decide
  obtain ⟨s', hs', heffect⟩ :=
    good_init.dline hplain (fun _ _ _ hnone => absurd hnone (by simp [init])) 600 1000 false false
  obtain rfl := some.inj (hs'.symm.trans hs)
  have hexec : init.exec (.dline someBan 600 1000 false false) = some s' := hs
  simp only [hexec, all_some, Bool.and_eq_true, beq_iff_eq] at heval
  have hlt : id < 1 := heval.1 ▸ heffect.good.fresh id c hc
  obtain rfl := Nat.lt_one_iff.mp hlt
  have hall := heval.2
  dsimp only at hc
  rw [hc] at hall
  simpa using hall

/-- A D-line is set for ten minutes, the helper sends another one, and the first one ends. -/
theorem dlines_sound_small : ∃ g, run step start
    [.dline someBan 600 1000 false false, .finish [otherBan], .expire 2000] = some g ∧ Sound g := by
  refine dlines_sound ⟨⟨?_, fun _ id c => ?_⟩,
    fun g hg => ⟨⟨fun id c hc => (confs_dline hg hc).1, ?_, ?_, ?_⟩, fun _ _ => ⟨trivial,
      fun _ _ => trivial⟩⟩⟩
  · intro addr bits hmask _
    rw [netmask_someBan] at hmask
    cases hmask
    decide
  · rintro ⟨⟩
  · intro ban hban addr bits hmask _
    rw [mem_singleton.mp hban, netmask_otherBan] at hmask
    cases hmask
    decide
  · cases hkey : addKey otherBan.host <;> simp [hkey]
  · intro ban hban _ id c hc
    rw [mem_singleton.mp hban, (confs_dline hg hc).2]
    exact addKey_ne

/-- A D-line is set for ten minutes, and the helper sends one with the same mask: the first one is
not found any more. -/
theorem dlines_taken_over : ∃ g, run step start
    [.dline someBan 600 1000 false false, .finish [someBan]] = some g ∧ ¬Sound g := by
  have heval : ((init.exec (.dline someBan 600 1000 false false)).bind
      fun s => s.exec (.finish [someBan])).any fun s =>
        (s.confs 0).map (·.ban) == some someBan &&
          s.findDlineExact ⟨.inet, [10, 0, 0, 0]⟩ 24 == some (some 1) := by
    decide +kernel
  cases hfirst : init.exec (.dline someBan 600 1000 false false) with
  | none => simp [hfirst] at heval
  | some s₁ =>
    cases hsecond : s₁.exec (.finish [someBan]) with
    | none => simp [hfirst, hsecond] at heval
    | some s₂ =>
      simp only [hfirst, hsecond, bind_some, any_some, Bool.and_eq_true,
        beq_iff_eq] at heval
      refine ⟨_, by rw [run, step, start, hfirst, map_some, bind_some, run, step, hsecond]; rfl,
        fun hsound => ?_⟩
      have hactive := (hsound.conf 0).symm.trans heval.1
      obtain ⟨addr, bits, hmask, hfound⟩ := hsound.found 0 someBan hactive
      obtain ⟨rfl, rfl⟩ : (⟨.inet, [10, 0, 0, 0]⟩ : Ip) = addr ∧ (24 : ℤ) = bits := by
        simpa [netmask_someBan] using hmask
      cases hfound.symm.trans heval.2

end Ratbox.Dlines
