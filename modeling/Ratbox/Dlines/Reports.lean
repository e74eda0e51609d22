import Ratbox.Dlines.Runs
import Ratbox.Patricia.Break

/-!
# Reports of D-lines

`STATS D` lists the permanent D-lines and `STATS d` the temporary ones. Both walk the tree, and
leave out a D-line of the other kind with `RB_PATRICIA_WALK_BREAK`: the walk then leaves out all
that is below its node, which are the D-lines for parts of its network.

Source: `src/reject.c`, lines 395–431, `src/s_conf.c`, lines 1124–1147, `include/numeric.h`, line
68, and `libratbox/include/rb_patricia.h`, lines 102–140.

## Main definitions

* `Dlines.State.reportDlines`, `Dlines.State.reportTdlines`: the lines that are sent.
* `Dlines.State.Lists`: the lines are those of the D-lines of a kind.
* `Dlines.State.Unmixed`: no D-line is for a part of the network of one of the other kind.

## Main results

* `Dlines.report_iff`: when a report has the D-lines of its kind.
* `Dlines.reports_iff`: both reports are right exactly when the D-lines are unmixed.
-/

namespace Ratbox.Dlines

open Text Address Patricia CritBit List Option

/-! ### The lines -/

/-- `EmptyString`. -/
def emptyString (s : Option Str) : Bool := (s.getD []).isEmpty

/-- `get_printable_kline`: the host, the reason, the user and the reason for operators. -/
def getPrintableKline (ban : Ban) (oper : Bool) : Str × Str × Str × Option Str :=
  let null := "<NULL>".toList
  (if ban.host.isEmpty then null else ban.host, if ban.passwd.isEmpty then null else ban.passwd,
    if emptyString ban.user then null else ban.user.getD [],
    if emptyString ban.spasswd || !oper then none else ban.spasswd)

/-- `RPL_STATSDLINE`. -/
def rplStatsdline (letter : Char) (ban : Ban) (oper : Bool) : Str :=
  let (host, pass, _, operReason) := getPrintableKline ban oper
  letter :: ' ' :: host ++ " :".toList ++ pass ++ (if operReason.isSome then ['|'] else []) ++
    operReason.getD []

namespace State

/-- The line for a D-line. -/
def statsLine (s : State) (letter : Char) (oper : Bool) (id : ConfId) : Option Str :=
  (s.confs id).map fun c => rplStatsdline letter c.ban oper

/-- A node has a D-line of the kind: the body of the loops goes on. -/
def ofKind (s : State) (temporary : Bool) (a : Addr) : Option Bool := do
  let id ← s.tree.dataAt a
  let c ← s.confs id
  some (c.temporary == temporary)

/-- The loop that `report_dlines` and `report_tdlines` share. -/
def report (s : State) (letter : Char) (temporary oper : Bool) : Option (List Str) := do
  let nodes ← s.tree.walkBreak (s.ofKind temporary)
  nodes.mapM fun a => do
    let id ← s.tree.dataAt a
    s.statsLine letter oper id

/-- `report_dlines`, with the lines that it sends to an operator or to somebody else. -/
def reportDlines (s : State) (oper : Bool) : Option (List Str) := s.report 'D' false oper

/-- `report_tdlines`. -/
def reportTdlines (s : State) (oper : Bool) : Option (List Str) := s.report 'd' true oper

/-- A D-line in the tree, for the bits of a network. -/
structure Dline (s : State) (k : List Bool) (id : ConfId) (c : Conf) : Prop where
  node : ∃ a, s.tree.links.key a = some k ∧ s.tree.dataAt a = some id ∧ c.pnode = some a
  conf : s.confs id = some c

/-- **A list of the D-lines** of one kind: there is one line for each of them, and no other. -/
def Lists (s : State) (letter : Char) (temporary oper : Bool) (lines : Option (List Str)) : Prop :=
  ∃ ids : List ConfId, ids.Nodup ∧ (∀ id, id ∈ ids ↔ ∃ k c, s.Dline k id c ∧
    c.temporary = temporary) ∧ ∃ ls, lines = some ls ∧
      Forall₂ (fun id l => s.statsLine letter oper id = some l) ids ls

/-- No D-line of the kind is for a part of the network of one of the other kind. -/
def Uncovered (s : State) (temporary : Bool) : Prop :=
  ∀ k k' id id' c c', s.Dline k id c → s.Dline k' id' c' → c'.temporary = temporary → k <+: k' →
    c.temporary = temporary

/-- **Unmixed D-lines.** -/
def Unmixed (s : State) : Prop := ∀ temporary, s.Uncovered temporary

end State

/-- Every node with a prefix has a D-line, that points to it. -/
structure Planted (s : State) : Prop where
  inv : ∃ label, Tree.Inv s.tree label
  node : ∀ a k, s.tree.links.key a = some k →
    ∃ id c, s.tree.dataAt a = some id ∧ s.confs id = some c ∧ c.pnode = some a

/-- The tree is so in every state that is good. -/
theorem Good.planted {s : State} (h : Good s) : Planted s := ⟨h.tied.inv, h.tied.node⟩

section Reports

variable {s : State} {letter : Char} {temporary oper : Bool} {a : Addr} {k : List Bool}

theorem Planted.dline (h : Planted s) (hk : s.tree.links.key a = some k) :
    ∃ id c, s.Dline k id c ∧ s.tree.dataAt a = some id ∧ c.pnode = some a := by
  obtain ⟨id, c, hdata, hc, hpnode⟩ := h.node a k hk
  exact ⟨id, c, ⟨⟨a, hk, hdata, hpnode⟩, hc⟩, hdata, hpnode⟩

/-- The node of a D-line. -/
theorem State.Dline.unique {id : ConfId} {c c' : Conf} {k' : List Bool} (h : s.Dline k id c)
    (h' : s.Dline k' id c') :
    k = k' ∧ c = c' := by
  obtain ⟨⟨a, hk, -, hpnode⟩, hc⟩ := h
  obtain ⟨⟨a', hk', -, hpnode'⟩, hc'⟩ := h'
  cases hc.symm.trans hc'
  cases hpnode.symm.trans hpnode'
  exact ⟨some.inj (hk.symm.trans hk'), rfl⟩

/-- The lines for some nodes. -/
theorem Planted.lines (h : Planted s) {nodes : List Addr}
    (hnodes : ∀ a ∈ nodes, ∃ k, s.tree.links.key a = some k) :
    ∃ ids ls, (nodes.mapM fun a => (s.tree.dataAt a).bind (s.statsLine letter oper)) = some ls ∧
      ids.map some = nodes.map s.tree.dataAt ∧
      Forall₂ (fun id l => s.statsLine letter oper id = some l) ids ls := by
  induction nodes with
  | nil => exact ⟨[], [], rfl, rfl, .nil⟩
  | cons a nodes ih =>
    obtain ⟨ids, ls, hmap, hids, hlines⟩ := ih fun b hb => hnodes b (mem_cons_of_mem a hb)
    obtain ⟨k, hk⟩ := hnodes a mem_cons_self
    obtain ⟨id, c, hdata, hc, -⟩ := h.node a k hk
    have hline : s.statsLine letter oper id = some (rplStatsdline letter c.ban oper) := by
      rw [State.statsLine, hc, map_some]
    refine ⟨id :: ids, rplStatsdline letter c.ban oper :: ls, ?_, ?_, .cons hline hlines⟩
    · rw [mapM_cons, hmap, hdata, bind_some, hline]
      rfl
    · rw [map_cons, map_cons, hids, hdata]

theorem ofKind_eq {id : ConfId} {c : Conf} (hdata : s.tree.dataAt a = some id)
    (hc : s.confs id = some c) :
    s.ofKind temporary a = some (c.temporary == temporary) := by
  rw [State.ofKind, hdata, bind_eq_bind, bind_some, hc]
  rfl

/-- The body of the loop goes on at a node when its D-line is of the kind. -/
theorem Planted.keeps_iff (h : Planted s) (hk : s.tree.links.key a = some k) :
    (s.ofKind temporary a == some true) = true ↔ ∀ id c, s.Dline k id c →
    c.temporary = temporary := by
  obtain ⟨id, c, hdline, hdata, -⟩ := h.dline hk
  obtain ⟨label, hinv⟩ := h.inv
  rw [ofKind_eq hdata hdline.conf]
  constructor
  · rintro hkeep id' c' ⟨⟨a', hk', hdata', -⟩, hc'⟩
    obtain rfl := hinv.shape.key_inj hk hk'
    cases hdata.symm.trans hdata'
    cases hdline.conf.symm.trans hc'
    simpa using hkeep
  · intro hall
    simp [hall id c hdline]

/-- **A report** has a line for each D-line whose network and the networks around it have D-lines of
the kind. -/
theorem Planted.report (h : Planted s) (letter : Char) (temporary oper : Bool) :
    ∃ ids ls, s.report letter temporary oper = some ls ∧ ids.Nodup ∧
      (∀ id, id ∈ ids ↔ ∃ k' c', s.Dline k' id c' ∧ ∀ k id c, s.Dline k id c → k <+: k' →
        c.temporary = temporary) ∧
      Forall₂ (fun id l => s.statsLine letter oper id = some l) ids ls := by
  obtain ⟨label, hinv⟩ := h.inv
  have hbody : ∀ a k, s.tree.links.key a = some k → s.ofKind temporary a =
      some (s.ofKind temporary a == some true) := by
    intro a k hk
    obtain ⟨id, c, hdline, hdata, -⟩ := h.dline hk
    rw [ofKind_eq hdata hdline.conf]
    cases c.temporary == temporary <;> rfl
  obtain ⟨nodes, hwalk, hnodup, hmem⟩ := hinv.walkBreak hbody
  have hnodes : ∀ a ∈ nodes, ∃ k, s.tree.links.key a = some k :=
    fun a ha => ((hmem a).mp ha).imp fun _ => And.left
  obtain ⟨ids, ls, hls, hids, hlines⟩ := h.lines hnodes
  refine ⟨ids, ls, ?_, ?_, fun id => ?_, hlines⟩
  · rw [State.report, hwalk]
    exact hls
  · -- A D-line points to its node.
    refine Nodup.of_map some (hids ▸ Nodup.map_on (fun a ha b hb hab => ?_) hnodup)
    obtain ⟨k, hk⟩ := hnodes a ha
    obtain ⟨k', hk'⟩ := hnodes b hb
    obtain ⟨id, c, hdata, hc, hpnode⟩ := h.node a k hk
    obtain ⟨id', c', hdata', hc', hpnode'⟩ := h.node b k' hk'
    cases hdata.symm.trans (hab.trans hdata')
    cases hc.symm.trans hc'
    exact some.inj (hpnode.symm.trans hpnode')
  · rw [← List.mem_map_of_injective (Option.some_injective _), hids, List.mem_map]
    constructor
    · rintro ⟨a, ha, hdata⟩
      obtain ⟨k', hk', hkeep⟩ := (hmem a).mp ha
      obtain ⟨id', c, hdline, hdata', -⟩ := h.dline hk'
      cases hdata.symm.trans hdata'
      refine ⟨k', c, hdline, fun k id c hdline hle => ?_⟩
      obtain ⟨b, hb, -⟩ := hdline.node
      exact (h.keeps_iff hb).mp (hkeep b k hb hle) id c hdline
    · rintro ⟨k', c', ⟨⟨a, ha, hdata, -⟩, -⟩, hall⟩
      refine ⟨a, (hmem a).mpr ⟨k', ha, fun b k hb hle => (h.keeps_iff hb).mpr fun id c hdline =>
        ?_⟩, hdata⟩
      exact hall k id c hdline hle

/-- A report is right when no D-line of its kind is below one of the other kind. -/
theorem report_iff (h : Planted s) :
    s.Lists letter temporary oper (s.report letter temporary oper) ↔ s.Uncovered temporary := by
  obtain ⟨ids, ls, hreport, hnodup, hmem, hlines⟩ := h.report letter temporary oper
  have hsub : ∀ id ∈ ids, ∃ k c, s.Dline k id c ∧ c.temporary = temporary := by
    intro id hid
    obtain ⟨k, c, hdline, hall⟩ := (hmem id).mp hid
    exact ⟨k, c, hdline, hall k id c hdline prefix_rfl⟩
  constructor
  · rintro ⟨all, hnodup', hmem', ls', hls', hlines'⟩ k k' id id' c c' hdline hdline' htemp hle
    cases hreport.symm.trans hls'
    -- There are as many lines as D-lines, so none is left out.
    have hlength : all.length ≤ ids.length := by rw [hlines'.length_eq, hlines.length_eq]
    have hperm := (subperm_of_subset hnodup fun id hid => (hmem' id).mpr
      (hsub id hid)).perm_of_length_le hlength
    obtain ⟨k'', c'', hdline'', hall⟩ :=
      (hmem id').mp (hperm.mem_iff.mpr ((hmem' id').mpr ⟨k', c', hdline', htemp⟩))
    obtain ⟨rfl, rfl⟩ := hdline'.unique hdline''
    exact hall k id c hdline hle
  · intro huncovered
    refine ⟨ids, hnodup, fun id => ⟨hsub id, ?_⟩, ls, hreport, hlines⟩
    rintro ⟨k', c', hdline', htemp⟩
    exact (hmem id).mpr ⟨k', c', hdline', fun k id' c hdline hle => huncovered k k' id' id c c'
      hdline hdline' htemp hle⟩

/-- **Both reports** are right exactly when the D-lines are unmixed. -/
theorem reports_iff (h : Planted s) (oper : Bool) :
    s.Lists 'D' false oper (s.reportDlines oper) ∧ s.Lists 'd' true oper (s.reportTdlines oper) ↔
    s.Unmixed := by
  rw [State.reportDlines, State.reportTdlines, report_iff h, report_iff h]
  exact Bool.forall_bool.symm

end Reports

/-- A ban of `10.0.0.0/16`. -/
def wideBan : Ban := ⟨none, "10.0.0.0/16".toList, "spam".toList, none, "oper".toList⟩

/-- A temporary D-line and a permanent one for a network around it. -/
theorem reports_iff_two : ∃ s, (init.exec (.dline someBan 600 1000 false false)).bind
      (fun s => s.exec (.dline wideBan 0 1000 false false)) = some s ∧
    (s.Lists 'D' false true (s.reportDlines true) ∧ s.Lists 'd' true true (s.reportTdlines true) ↔
      s.Unmixed) := by
  have hplain : Plain someBan.host ∧ Plain wideBan.host := by
    have hsome : netmask someBan.host = some (⟨.inet, [10, 0, 0, 0]⟩, 24) := by decide +kernel
    have hwide : netmask wideBan.host = some (⟨.inet, [10, 0, 0, 0]⟩, 16) := by decide +kernel
    constructor
    · intro addr bits hmask _
      obtain ⟨-, rfl⟩ := Prod.mk.inj (some.inj (hsome.symm.trans hmask))
      decide
    · intro addr bits hmask _
      obtain ⟨-, rfl⟩ := Prod.mk.inj (some.inj (hwide.symm.trans hmask))
      decide
  have hapart : addKey someBan.host ≠ addKey wideBan.host := by decide +kernel
  obtain ⟨s₁, h₁, heffect⟩ := good_init.dline hplain.1 (fun _ id c hc => nomatch hc) 600 1000 false
    false
  have hfree : s₁.Free wideBan.host := by
    intro id c hc
    -- The conf is that of the first D-line.
    have hban := heffect.ban id
    rw [hc, map_some, active, if_neg (show ¬id < init.fresh from Nat.not_lt_zero id)] at hban
    have hmade := (filter_eq_some_iff.mp hban.symm).1
    rw [show (Op.dline someBan 600 1000 false false).makes = [someBan] from rfl] at hmade
    rw [mem_singleton.mp (mem_of_getElem? hmade)]
    exact hapart
  obtain ⟨s₂, h₂, heffect'⟩ := heffect.good.dline hplain.2 (fun _ => hfree) 0 1000 false false
  refine ⟨s₂, ?_, reports_iff heffect'.good.planted true⟩
  rw [show init.exec (.dline someBan 600 1000 false false) = some s₁ from h₁]
  exact h₂

/-- A permanent D-line for a part of the network of a temporary one is not reported. -/
theorem dline_left_out : ∃ s, (init.exec (.dline wideBan 600 1000 false false)).bind
      (fun s => s.exec (.dline someBan 0 1000 false false)) = some s ∧
    s.reportDlines true = some [] ∧ ∃ k c, s.Dline k 1 c ∧ c.temporary = false := by
  have heval : ((init.exec (.dline wideBan 600 1000 false false)).bind
      fun s => s.exec (.dline someBan 0 1000 false false)).any fun s => s.reportDlines true ==
        some [] && (s.confs 1).any fun c => !c.temporary && c.pnode.any fun a =>
          s.tree.dataAt a == some 1 && (s.tree.pfxAt a).isSome := by
    decide +kernel
  obtain ⟨s, hs, heval⟩ := (any_eq_true _ _).mp heval
  simp only [Bool.and_eq_true, Option.any_eq_true, beq_iff_eq, Bool.not_eq_true',
    Option.isSome_iff_exists] at heval
  obtain ⟨hreport, c, hc, htemp, a, hpnode, hdata, q, hq⟩ := heval
  exact ⟨s, hs, hreport, q.key, c, ⟨⟨a, by rw [Tree.key_pfxAt, hq, Option.map_some], hdata, hpnode⟩,
    hc⟩, htemp⟩

end Ratbox.Dlines
