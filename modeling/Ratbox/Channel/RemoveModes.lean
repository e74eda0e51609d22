import Ratbox.Channel.Membership

/-!
# Losing on the TS

A server whose channel turns out to be the younger one takes the operator and voice status off all
members before it accepts those of the other side, and tells its local members so.
`remove_our_modes` walks the two lists of members and moves the operators to the other list as it
goes. Two slips keep it from its purpose. The walk goes on from the node it has just moved, hence
on the other list, so that only the first operator is met; and the counter of the outer loop is
used again to clear the parameters of a full line, so that after a full line of voices the
operators are not walked at all. All status is removed exactly when there is no operator, or a
single one and fewer than four voices (`Channel.modesRemoved_iff`).

Source: `modules/core/m_join.c`, lines 1114–1214.

## Main definitions

* `Channel.removeOurModes`: the function.
* `Channel.ModesRemoved`: what it is for.

## Main results

* `Channel.removeOurModes_eq`: what the function does.
* `Channel.modesRemoved_iff`: when it does what it is for.
-/

namespace Ratbox.Channel

open Text Dlink Run List Option Function

/-! ### The function -/

/-- `MAXMODEPARAMS`. -/
def maxModeParams : ℕ := 4

/-- A line `:source MODE channel` to the local members of a channel: the letters after the sign
`dir`, each with the client whose name is its parameter. -/
structure ModeLine where
  source : Str
  chname : Str
  dir : Char
  changes : List (Char × ℕ)
  deriving DecidableEq

/-- The locals of `remove_our_modes`: the counter `i`, the line in `lmodebuf` and `lpara`, the
lines that were sent; and the memory. -/
structure Removing where
  w : World
  i : ℕ
  line : List (Char × ℕ)
  sent : List ModeLine

section RemoveOurModes

variable (me : Str) (c : Str) (chname : Str)

/-- Send a full line. The loop that clears `lpara` leaves `i` at `MAXMODEPARAMS`. -/
def Removing.flush (st : Removing) : Removing :=
  if st.line.length ≥ maxModeParams then
    { st with sent := st.sent ++ [⟨me, chname, '-', st.line⟩], line := [], i := maxModeParams }
  else st

/-- Put a letter and its parameter on the line. -/
def Removing.put (st : Removing) (letter : Char) (client_p : ℕ) : Removing :=
  { st with line := st.line ++ [(letter, client_p)] }

/-- The body of the inner loop. -/
def Removing.turn (st : Removing) (msptr : ℕ) : Removing :=
  match st.w.mem msptr with
  | none => st
  | some ms =>
    if ms.flags.chanop then
      let deopped := { ms with flags := { ms.flags with chanop := false } }
      let st := st.put 'o' ms.client_p
      let st := { st with w := moveChannode (st.w.setMem msptr deopped) msptr c .op .noop }
      if ms.flags.voice then
        let st := st.flush me chname
        let peon := { ms with flags := { ms.flags with chanop := false, voice := false } }
        let st := { st with w := st.w.setMem msptr peon }
        (st.put 'v' ms.client_p).flush me chname
      else st.flush me chname
    else if ms.flags.voice then
      let devoiced := { ms with flags := { ms.flags with voice := false } }
      let st := { st with w := st.w.setMem msptr devoiced }
      (st.put 'v' ms.client_p).flush me chname
    else st

/-- The inner loop, which goes on from where the node is after the turn. -/
def Removing.loop : ℕ → Removing → Option ℕ → Removing
  | 0, st, _ => st
  | _, st, none => st
  | n + 1, st, some msptr =>
    let st := st.turn me c chname msptr
    Removing.loop n st (st.w.channode msptr).next

/-- The outer loop, over the two lists. -/
def Removing.lists : ℕ → Removing → Removing
  | 0, st => st
  | n + 1, st =>
    if st.i ≤ 1 then
      let head := (st.w.chan c).bind fun ch => (ch.members (if st.i = 0 then .noop else .op)).head
      let st := Removing.loop me c chname st.w.fresh st head
      Removing.lists n { st with i := st.i + 1 }
    else st

end RemoveOurModes

/-- `remove_our_modes`: the memory after it and the lines sent to the local members. -/
def removeOurModes (me : Str) (w : World) (c : Str) : World × List ModeLine :=
  match w.chan c with
  | none => (w, [])
  | some ch =>
    let st := Removing.lists me c ch.chname 2 ⟨w, 0, [], []⟩
    (st.w, st.sent ++ if st.line ≠ [] then [⟨me, ch.chname, '-', st.line⟩] else [])

/-! ### The lines -/

section Lines

variable {me : Str} {c : Str} {chname : Str} {st : Removing}

/-- What was put on lines so far. -/
def Removing.announced (st : Removing) : List (Char × ℕ) :=
  st.sent.flatMap (·.changes) ++ st.line

/-- The lines are sent when they are full, and `i` keeps its value until one is. -/
structure Removing.Lines (st : Removing) (i : ℕ) : Prop where
  short : st.line.length < maxModeParams
  counter : (st.i = i ∧ st.sent = []) ∨
    (st.i = maxModeParams ∧ maxModeParams ≤ st.announced.length)

@[simp] theorem Removing.w_put (st : Removing) (a : Char) (u : ℕ) : (st.put a u).w = st.w := rfl

@[simp] theorem Removing.w_flush (st : Removing) : (st.flush me chname).w = st.w := by
  rw [Removing.flush]
  split_ifs <;> rfl

@[simp] theorem Removing.announced_setW (st : Removing) (w : World) :
    Removing.announced { st with w := w } = st.announced := rfl

@[simp] theorem Removing.announced_put (st : Removing) (a : Char) (u : ℕ) :
    (st.put a u).announced = st.announced ++ [(a, u)] := by
  simp [Removing.announced, Removing.put]

@[simp] theorem Removing.announced_flush (st : Removing) :
    (st.flush me chname).announced = st.announced := by
  rw [Removing.flush]
  split_ifs <;> simp [Removing.announced]

theorem Removing.Lines.put_flush {i : ℕ} (h : st.Lines i) (a : Char) (u : ℕ) :
    ((st.put a u).flush me chname).Lines i := by
  have hannounced : ((st.put a u).flush me chname).announced = st.announced ++ [(a, u)] := by
    rw [Removing.announced_flush, Removing.announced_put]
  have hle : st.line.length ≤ st.announced.length := by simp [Removing.announced]
  by_cases hfull : (st.put a u).line.length ≥ maxModeParams
  · have hflush : (st.put a u).flush me chname = { st.put a u with
        sent := st.sent ++ [⟨me, chname, '-', (st.put a u).line⟩]
        line := []
        i := maxModeParams } := if_pos hfull
    refine ⟨by simp [hflush, maxModeParams], Or.inr ⟨by rw [hflush], ?_⟩⟩
    rw [hannounced, length_append]
    have : (st.put a u).line.length = st.line.length + 1 := by simp [Removing.put]
    simp only [length_singleton]
    omega
  · have hflush : (st.put a u).flush me chname = st.put a u := if_neg hfull
    refine ⟨by rw [hflush]; omega, ?_⟩
    rw [hannounced, length_append, hflush]
    exact h.counter.imp id fun ⟨hi, hlen⟩ => ⟨hi, by omega⟩

end Lines

/-! ### The sign of the lines -/

section Sign

variable (me c chname : Str) {st : Removing}

/-- Every line sent takes status away. -/
def Removing.Minus (st : Removing) : Prop := ∀ l ∈ st.sent, l.dir = '-'

theorem Removing.Minus.flush (h : st.Minus) : (st.flush me chname).Minus := by
  rw [Removing.flush]
  split_ifs
  · intro l hl
    rcases mem_append.mp hl with hl | hl
    · exact h l hl
    · rw [mem_singleton.mp hl]
  · exact h

theorem Removing.Minus.turn (h : st.Minus) (m : ℕ) : (st.turn me c chname m).Minus := by
  rw [Removing.turn]
  cases st.w.mem m with
  | none => exact h
  | some ms =>
    simp only
    split_ifs
    · exact Removing.Minus.flush me chname (Removing.Minus.flush me chname h)
    · exact Removing.Minus.flush me chname h
    · exact Removing.Minus.flush me chname h
    · exact h

theorem Removing.Minus.loop (h : st.Minus) (n : ℕ) (pos : Option ℕ) :
    (st.loop me c chname n pos).Minus := by
  induction n generalizing st pos with
  | zero => exact h
  | succ n ih =>
    cases pos with
    | none => exact h
    | some m => exact ih (h.turn me c chname m) _

theorem Removing.Minus.lists (h : st.Minus) (n : ℕ) : (st.lists me c chname n).Minus := by
  induction n generalizing st with
  | zero => exact h
  | succ n ih =>
    by_cases hi : st.i ≤ 1
    · rw [Removing.lists, if_pos hi]
      exact ih (h.loop me c chname _ _)
    · rw [Removing.lists, if_neg hi]
      exact h

end Sign

theorem dir_removeOurModes (me : Str) (w : World) (c : Str) :
    ∀ l ∈ (removeOurModes me w c).2, l.dir = '-' := by
  rw [removeOurModes]
  cases w.chan c with
  | none => simp
  | some ch =>
    intro l hl
    rcases mem_append.mp hl with hl | hl
    · exact Removing.Minus.lists me c ch.chname (fun l hl => absurd hl not_mem_nil) 2 l hl
    · split_ifs at hl
      · rw [mem_singleton.mp hl]
      · exact absurd hl not_mem_nil

/-! ### The loops -/

/-- The members of a channel: the nodes of its two lists, which are those of its memberships. -/
structure Members (w : World) (c : Str) (ch : Chan) (noops ops : List ℕ) : Prop where
  chan : w.chan c = some ch
  isList_noop : IsList w.channode (ch.members .noop) noops
  isList_op : IsList w.channode (ch.members .op) ops
  mem_noops : ∀ m, m ∈ noops ↔ OnMembers w c .noop m
  mem_ops : ∀ m, m ∈ ops ↔ OnMembers w c .op m
  unique : ∀ m m' ms ms', w.mem m = some ms → w.mem m' = some ms' → ms.chptr = c →
    ms'.chptr = c → ms.client_p = ms'.client_p → m = m'
  lt_fresh : ∀ m ms, w.mem m = some ms → m < w.fresh

variable {w w : World} {c : Str} {ch : Chan} {noops ops : List ℕ} {m : ℕ} {ms : Membership}

/-- The members of a channel, from the invariant of the lists. -/
theorem Linked.exists_members {c : Str} {ch : Chan} (hw : Linked w)
    (hch : w.chan c = some ch) : ∃ noops ops, Members w c ch noops ops := by
  obtain ⟨noops, hnoops, hmem_noops⟩ := hw.members c ch hch .noop
  obtain ⟨ops, hops, hmem_ops⟩ := hw.members c ch hch .op
  exact ⟨noops, ops, hch, hnoops, hops, hmem_noops, hmem_ops,
    fun m m' ms ms' hms hms' hc hc' => hw.unique m m' ms ms' hms hms' (hc.trans hc'.symm),
    hw.lt_fresh⟩

/-- The voice is taken off a membership. -/
def Membership.devoiced (ms : Membership) : Membership :=
  { ms with flags := { ms.flags with voice := false } }

/-- The changes that announce the voices among the memberships `ids`. -/
def voices (w : World) (ids : List ℕ) : List (Char × ℕ) :=
  ids.filterMap fun m => (w.mem m).bind fun ms =>
    if ms.flags.voice then some ('v', ms.client_p) else none

section Loops

variable {me : Str} {c : Str} {chname : Str} {st : Removing} {i : ℕ} {ids : List ℕ} {pr : Option ℕ}

/-- The turn for a member that is not an operator. -/
theorem turn_noop (me c chname : Str) {m : ℕ} {ms : Membership} (hms : st.w.mem m = some ms)
    (hnoop : ms.flags.chanop = false) (hlines : st.Lines i) :
    (st.turn me c chname m).w = { st.w with mem := update st.w.mem m (some ms.devoiced) } ∧
      (st.turn me c chname m).announced = st.announced ++ voices st.w [m] ∧
      (st.turn me c chname m).Lines i := by
  cases hvoice : ms.flags.voice with
  | true =>
    have hturn : st.turn me c chname m =
        ({ st with w := st.w.setMem m ms.devoiced }.put 'v' ms.client_p).flush me chname := by
      simp [Removing.turn, hms, hnoop, hvoice, Membership.devoiced]
    rw [hturn]
    refine ⟨by simp [World.setMem], ?_, ?_⟩
    · rw [Removing.announced_flush, Removing.announced_put]
      simp [voices, hms, hvoice, Removing.announced]
    · have hlines' : ({ st with w := st.w.setMem m ms.devoiced } : Removing).Lines i :=
        ⟨hlines.short, hlines.counter⟩
      exact hlines'.put_flush ..
  | false =>
    have hturn : st.turn me c chname m = st := by simp [Removing.turn, hms, hnoop, hvoice]
    have hsame : ms.devoiced = ms := by
      rw [Membership.devoiced, ← hvoice]
    rw [hturn, hsame]
    refine ⟨?_, by simp [voices, hms, hvoice], hlines⟩
    rw [← hms, update_eq_self]

/-- The memberships `ids` without voice. -/
def devoice (w : World) (ids : List ℕ) : World :=
  { w with mem := fun m => if m ∈ ids then (w.mem m).map Membership.devoiced else w.mem m }

theorem voices_cons (w : World) (m : ℕ) (ids : List ℕ) :
    voices w (m :: ids) = voices w [m] ++ voices w ids := by
  rw [voices, voices, voices, ← filterMap_append, singleton_append]

theorem voices_congr {w w' : World} (h : ∀ m ∈ ids, w'.mem m = w.mem m) :
    voices w' ids = voices w ids :=
  filterMap_congr fun m hm => by rw [h m hm]

/-- The pass over the members that are not operators takes the voices off them. -/
theorem loop_noops (me c chname : Str) (hchain : Chain st.w.channode pr ids none) (hnd : ids.Nodup)
    (hids : ∀ m ∈ ids, ∃ ms, st.w.mem m = some ms ∧ ms.flags.chanop = false) {n : ℕ}
    (hn : ids.length ≤ n) (hlines : st.Lines i) :
    (st.loop me c chname n ids.head?).w = devoice st.w ids ∧
      (st.loop me c chname n ids.head?).announced = st.announced ++ voices st.w ids ∧
      (st.loop me c chname n ids.head?).Lines i := by
  induction ids generalizing st pr n with
  | nil =>
    have hloop : st.loop me c chname n ([] : List ℕ).head? = st := by
      cases n <;> rfl
    rw [hloop]
    exact ⟨by simp [devoice], by simp [voices], hlines⟩
  | cons m ids ih =>
    obtain ⟨n, rfl⟩ : ∃ k, n = k + 1 := ⟨n - 1, by simp at hn; omega⟩
    obtain ⟨hm, hnd⟩ := nodup_cons.mp hnd
    obtain ⟨ms, hms, hnoop⟩ := hids m mem_cons_self
    obtain ⟨hw, hann, hlines'⟩ := turn_noop me c chname hms hnoop hlines
    have hchannode : (st.turn me c chname m).w.channode = st.w.channode := by rw [hw]
    have hmem : ∀ x, x ≠ m → (st.turn me c chname m).w.mem x = st.w.mem x := fun x hx => by
      rw [hw]
      exact update_of_ne hx ..
    have hnext : ((st.turn me c chname m).w.channode m).next = ids.head? := by
      rw [hchannode, hchain.1, or_none]
    have hids' : ∀ x ∈ ids, (st.turn me c chname m).w.mem x = st.w.mem x := fun x hx =>
      hmem x (ne_of_mem_of_not_mem hx hm)
    obtain ⟨h₁, h₂, h₃⟩ := ih (hchannode ▸ hchain.2) hnd
      (fun x hx => by rw [hids' x hx]; exact hids x (mem_cons_of_mem m hx))
      (by simpa using hn) hlines'
    rw [head?_cons, Removing.loop, hnext]
    refine ⟨?_, ?_, h₃⟩
    · rw [h₁, devoice, devoice, hw]
      congr 1
      funext x
      by_cases hx : x = m
      · subst hx
        simp [hm, hms]
      · simp [hx]
    · rw [h₂, hann, voices_congr hids', voices_cons st.w m ids, append_assoc]

/-- A pass over members without status does nothing. -/
theorem loop_idle (hchain : Chain st.w.channode pr ids none)
    (hids : ∀ m ∈ ids, ∃ ms, st.w.mem m = some ms ∧ ms.flags.chanop = false ∧
      ms.flags.voice = false) (n : ℕ) : st.loop me c chname n ids.head? = st := by
  induction ids generalizing pr n with
  | nil => cases n <;> rfl
  | cons m ids ih =>
    cases n with
    | zero => rfl
    | succ n =>
      obtain ⟨ms, hms, hnoop, hvoice⟩ := hids m mem_cons_self
      have hturn : st.turn me c chname m = st := by simp [Removing.turn, hms, hnoop, hvoice]
      rw [head?_cons, Removing.loop, hturn, hchain.1, or_none]
      exact ih hchain.2 (fun x hx => hids x (mem_cons_of_mem m hx)) n

end Loops

/-- A membership without status. -/
def Membership.peon (ms : Membership) : Membership :=
  { ms with flags := { ms.flags with chanop := false, voice := false } }

/-- An operator loses its status and goes to the other list. -/
def deop (c : Str) (w : World) (m : ℕ) : World :=
  match w.mem m with
  | none => w
  | some ms => (moveChannode w m c .op .noop).setMem m ms.peon

/-- The changes that announce the status of an operator. -/
def opChanges (w : World) (m : ℕ) : List (Char × ℕ) :=
  ((w.mem m).map fun ms => ('o', ms.client_p)).toList ++ voices w [m]

theorem moveChannode_setMem (w : World) (m : ℕ) (ms : Membership) (c : Str) (k k' : MemberList) :
    moveChannode (w.setMem m ms) m c k k' = (moveChannode w m c k k').setMem m ms := by
  cases hch : w.chan c with
  | none => simp [moveChannode, World.setMem, hch]
  | some ch => simp [moveChannode, World.setMem, World.setChan, hch]

theorem setMem_setMem (w : World) (m : ℕ) (ms ms' : Membership) :
    (w.setMem m ms).setMem m ms' = w.setMem m ms' := by
  simp [World.setMem]

section Loops

variable {me : Str} {c : Str} {chname : Str} {st : Removing}

/-- The turn for an operator. -/
theorem turn_op (me c chname : Str) {m : ℕ} {ms : Membership} (hms : st.w.mem m = some ms)
    (hop : ms.flags.chanop = true) :
    (st.turn me c chname m).w = deop c st.w m ∧
      (st.turn me c chname m).announced = st.announced ++ opChanges st.w m := by
  have hpeon : ms.flags.voice = false →
      ({ ms with flags := { ms.flags with chanop := false } } : Membership) = ms.peon := by
    intro hvoice
    rw [Membership.peon, ← hvoice]
  cases hvoice : ms.flags.voice with
  | true =>
    simp only [Removing.turn, hms, hop, hvoice, ↓reduceIte]
    exact ⟨by simp [deop, hms, Membership.peon, moveChannode_setMem, setMem_setMem],
      by simp [opChanges, voices, hms, hvoice]⟩
  | false =>
    simp only [Removing.turn, hms, hop, hvoice, Bool.false_eq_true, ↓reduceIte]
    exact ⟨by simp [deop, hms, moveChannode_setMem, ← hpeon hvoice, hvoice],
      by simp [opChanges, voices, hms, hvoice]⟩

end Loops

/-! ### What the function does -/

/-- The operators that are met: the first one, unless the voices have filled a line. -/
def metOps (w : World) (noops ops : List ℕ) : List ℕ :=
  if (voices w noops).length < maxModeParams then ops.take 1 else []

theorem mem_devoice (w : World) (ids : List ℕ) (m : ℕ) :
    (devoice w ids).mem m = if m ∈ ids then (w.mem m).map Membership.devoiced else w.mem m := rfl

section

variable (hm : Members w c ch noops ops)
include hm

theorem Members.noop (h : m ∈ noops) :
    ∃ ms, w.mem m = some ms ∧ ms.chptr = c ∧ ms.flags.chanop = false := by
  obtain ⟨ms, hms, hc, hk⟩ := (hm.mem_noops m).mp h
  refine ⟨ms, hms, hc, ?_⟩
  by_contra hop
  simp [memlist, hop] at hk

theorem Members.op (h : m ∈ ops) :
    ∃ ms, w.mem m = some ms ∧ ms.chptr = c ∧ ms.flags.chanop = true := by
  obtain ⟨ms, hms, hc, hk⟩ := (hm.mem_ops m).mp h
  refine ⟨ms, hms, hc, ?_⟩
  by_contra hop
  simp [memlist, hop] at hk

theorem Members.disjoint (h : m ∈ ops) : m ∉ noops := by
  intro hn
  obtain ⟨ms, hms, -, hop⟩ := hm.op h
  obtain ⟨ms', hms', -, hnoop⟩ := hm.noop hn
  rw [some.inj (hms.symm.trans hms'), hnoop] at hop
  exact Bool.noConfusion hop

theorem Members.length_le : noops.length ≤ w.fresh :=
  length_le_of_lt hm.isList_noop.nodup fun m h => by
    obtain ⟨ms, hms, -, -⟩ := hm.noop h
    exact hm.lt_fresh m ms hms

/-- The pass over the operators, when the counter lets it happen: after the first one it goes on
over the other list, where there is no status left. -/
private theorem loop_ops (me : Str) (st : Removing) (hw : st.w = devoice w noops) :
    (st.loop me c ch.chname w.fresh ops.head?).w = (ops.take 1).foldl (deop c) (devoice w noops) ∧
      (st.loop me c ch.chname w.fresh ops.head?).announced =
        st.announced ++ (ops.take 1).flatMap (opChanges w) := by
  cases ops with
  | nil =>
    have hloop : st.loop me c ch.chname w.fresh ([] : List ℕ).head? = st := by
      cases w.fresh <;> rfl
    rw [hloop]
    exact ⟨hw, by simp⟩
  | cons m rest =>
    obtain ⟨ms, hms, -, hop⟩ := hm.op mem_cons_self
    have hnot := hm.disjoint (m := m) mem_cons_self
    have hms₁ : st.w.mem m = some ms := by rw [hw, mem_devoice, if_neg hnot, hms]
    have hlt := hm.lt_fresh m ms hms
    obtain ⟨n, hn⟩ : ∃ n, w.fresh = n + 1 := ⟨w.fresh - 1, by omega⟩
    obtain ⟨hw₂, hann⟩ := turn_op me c ch.chname hms₁ hop
    have hop_list : IsList w.channode (ch.members .op) ([] ++ m :: rest) := hm.isList_op
    have hdisj : ∀ x ∈ noops, x ∉ [] ++ m :: rest := fun x hx hx' => hm.disjoint hx' hx
    have hmove := (hop_list.moveNode hm.isList_noop hdisj).2
    have hchan₁ : st.w.chan c = some ch := by rw [hw]; exact hm.chan
    have hchannode : (st.turn me c ch.chname m).w.channode =
        (moveNode w.channode m (ch.members .op) (ch.members .noop)).1 := by
      rw [hw₂, deop, hms₁]
      simp only [moveChannode_eq hchan₁]
      rw [hw]
      rfl
    have hchain : Chain (st.turn me c ch.chname m).w.channode none (m :: noops) none := by
      rw [hchannode]
      exact hmove.chain
    have hnext : ((st.turn me c ch.chname m).w.channode m).next = noops.head? := by
      rw [hchain.1, or_none]
    -- the members on the other list have no status
    have hidle : ∀ x ∈ noops, ∃ y, (st.turn me c ch.chname m).w.mem x = some y ∧
        y.flags.chanop = false ∧ y.flags.voice = false := by
      intro x hx
      obtain ⟨y, hy, -, hnoop⟩ := hm.noop hx
      have hxm : x ≠ m := ne_of_mem_of_not_mem hx hnot
      refine ⟨y.devoiced, ?_, hnoop, rfl⟩
      rw [hw₂, deop, hms₁]
      simp only [World.setMem, moveChannode_eq hchan₁, update_of_ne hxm]
      rw [hw, mem_devoice, if_pos hx, hy]
      rfl
    rw [head?_cons, hn, Removing.loop, hnext, loop_idle hchain.2 hidle, hann]
    refine ⟨by simp [hw₂, hw], ?_⟩
    have hsingle : ∀ x ∈ [m], st.w.mem x = w.mem x := fun x hx => by
      rw [mem_singleton.mp hx, hms₁, hms]
    have hsame : opChanges st.w m = opChanges w m := by
      rw [opChanges, opChanges, hms₁, hms,
        voices_congr hsingle]
    simp [hsame]

/-- **What `remove_our_modes` does.** The voices are taken off the members that are not operators,
and then the operators that are met lose their status. -/
theorem removeOurModes_eq (me : Str) :
    (removeOurModes me w c).1 = (metOps w noops ops).foldl (deop c) (devoice w noops) ∧
      (removeOurModes me w c).2.flatMap (·.changes) =
        voices w noops ++ (metOps w noops ops).flatMap (opChanges w) := by
  set st₀ : Removing := ⟨w, 0, [], []⟩ with hst₀
  have hlines₀ : st₀.Lines 0 := ⟨by simp [hst₀, maxModeParams], Or.inl ⟨rfl, rfl⟩⟩
  obtain ⟨hw₁, hann₁, hlines₁⟩ := loop_noops me c ch.chname
    hm.isList_noop.chain hm.isList_noop.nodup
    (fun m h => by
      obtain ⟨ms, hms, -, hnoop⟩ := hm.noop h
      exact ⟨ms, hms, hnoop⟩) hm.length_le hlines₀
  set st₁ := st₀.loop me c ch.chname w.fresh noops.head? with hst₁
  have hann₁ : st₁.announced = voices w noops := by simpa [hst₀, Removing.announced] using hann₁
  have hlists : Removing.lists me c ch.chname 2 st₀ =
      Removing.lists me c ch.chname 1 { st₁ with i := st₁.i + 1 } := by
    simp [Removing.lists, hst₀, hm.chan, hm.isList_noop.head, hst₁]
  have hfinal : (Removing.lists me c ch.chname 2 st₀).w =
      (metOps w noops ops).foldl (deop c) (devoice w noops) ∧
      (Removing.lists me c ch.chname 2 st₀).announced =
        voices w noops ++ (metOps w noops ops).flatMap (opChanges w) := by
    rw [hlists]
    rcases hlines₁.counter with ⟨hi, hsent⟩ | ⟨hi, hfull⟩
    · have hlt : (voices w noops).length < maxModeParams := by
        rw [← hann₁, Removing.announced, hsent]
        exact hlines₁.short
      have hchan₁ : st₁.w.chan c = some ch := by rw [hw₁]; exact hm.chan
      have hfresh₁ : st₁.w.fresh = w.fresh := by rw [hw₁]; rfl
      obtain ⟨hw₂, hann₂⟩ := loop_ops hm me { st₁ with i := 1 } hw₁
      rw [metOps, if_pos hlt]
      simp only [Removing.lists, hi, Nat.zero_add, le_refl, ↓reduceIte, Nat.one_ne_zero, hchan₁,
        bind_some, hm.isList_op.head, hfresh₁]
      refine ⟨hw₂, ?_⟩
      rw [← hann₁]
      exact hann₂
    · have hnot : ¬(voices w noops).length < maxModeParams := by
        rw [← hann₁]
        omega
      rw [metOps, if_neg hnot]
      simp only [Removing.lists, hi, maxModeParams]
      exact ⟨by simpa using hw₁, by simpa [Removing.announced] using hann₁⟩
  simp only [removeOurModes, hm.chan, ← hst₀]
  refine ⟨hfinal.1, ?_⟩
  rw [← hfinal.2, Removing.announced, flatMap_append]
  split_ifs with hline
  · simp
  · simp only [ne_eq, not_not] at hline
    simp [hline]

end

/-! ### The lists after the function -/

/-- The memory after the operator `m` is met. -/
theorem deop_devoice (hm : Members w c ch noops ops) (hmem : m ∈ ops) (hms : w.mem m = some ms) :
    deop c (devoice w noops) m =
      (moveChannode (devoice w noops) m c .op .noop).setMem m ms.peon := by
  rw [deop, mem_devoice, if_neg (hm.disjoint hmem), hms]

/-- At most one operator is met. -/
theorem metOps_cases (w : World) (noops ops : List ℕ) :
    metOps w noops ops = [] ∨ ∃ o ∈ ops, metOps w noops ops = [o] := by
  rw [metOps]
  split_ifs
  · rcases ops with _ | ⟨o, ops⟩
    · exact .inl rfl
    · exact .inr ⟨o, mem_cons_self, rfl⟩
  · exact .inl rfl

/-- The memberships after the function: those that are not operators, and the operators that are
met, have no status left. -/
theorem mem_removeOurModes (hm : Members w c ch noops ops) (me : Str) (m : ℕ) :
    (removeOurModes me w c).1.mem m =
      if m ∈ noops ∨ m ∈ metOps w noops ops then (w.mem m).map Membership.peon else w.mem m := by
  have hdevoice : (devoice w noops).mem m =
      if m ∈ noops then (w.mem m).map Membership.peon else w.mem m := by
    rw [mem_devoice]
    split_ifs with hmem
    · obtain ⟨ms, hms, -, hnoop⟩ := hm.noop hmem
      simp [hms, Membership.devoiced, Membership.peon, hnoop]
    · rfl
  rw [(removeOurModes_eq hm me).1]
  rcases metOps_cases w noops ops with hmet | ⟨o, ho, hmet⟩
  · rw [hmet, foldl_nil, hdevoice]
    simp
  · obtain ⟨y, hy, -, -⟩ := hm.op ho
    rw [hmet, foldl_cons, foldl_nil, deop_devoice hm ho hy]
    by_cases hmo : m = o
    · subst hmo
      simp [World.setMem, hy]
    · simp only [World.setMem, update_of_ne hmo]
      rw [(chan_moveChannode (devoice w noops) o c _ _ c).1, hdevoice]
      simp [hmo]

/-- The channels after the function: only the lists of members have changed. -/
theorem chan_removeOurModes (hm : Members w c ch noops ops) (me : Str) :
    (removeOurModes me w c).1.client = w.client ∧ (removeOurModes me w c).1.cuts = w.cuts ∧
      ∃ members, (removeOurModes me w c).1.chan =
        update w.chan c (some { ch with members := members }) := by
  rw [(removeOurModes_eq hm me).1]
  rcases metOps_cases w noops ops with hmet | ⟨o, ho, hmet⟩
  · rw [hmet, foldl_nil]
    refine ⟨rfl, rfl, ch.members, ?_⟩
    rw [← hm.chan]
    exact (update_eq_self c w.chan).symm
  · obtain ⟨y, hy, -, -⟩ := hm.op ho
    have hchan : (devoice w noops).chan c = some ch := hm.chan
    rw [hmet, foldl_cons, foldl_nil, deop_devoice hm ho hy, moveChannode_eq hchan]
    exact ⟨rfl, rfl, _, rfl⟩

/-- A membership without voice is on the lists that it was on. -/
theorem Linked.devoice (hw : Linked w) (ids : List ℕ) : Linked (devoice w ids) := by
  have hold : ∀ {m y}, (Channel.devoice w ids).mem m = some y → ∃ y', w.mem m = some y' ∧
      y'.chptr = y.chptr ∧ y'.client_p = y.client_p ∧ memlist y'.flags = memlist y.flags := by
    intro m y hy
    rw [mem_devoice] at hy
    split_ifs at hy
    · obtain ⟨y', hy', rfl⟩ := map_eq_some_iff.mp hy
      exact ⟨y', hy', rfl, rfl, rfl⟩
    · exact ⟨y, hy, rfl, rfl, rfl⟩
  have hnew : ∀ {m y}, w.mem m = some y → ∃ y', (Channel.devoice w ids).mem m = some y' ∧
      y'.chptr = y.chptr ∧ y'.client_p = y.client_p ∧ memlist y'.flags = memlist y.flags := by
    intro m y hy
    rw [mem_devoice, hy]
    split_ifs
    · exact ⟨_, rfl, rfl, rfl, rfl⟩
    · exact ⟨_, rfl, rfl, rfl, rfl⟩
  refine ⟨⟨fun c ch hch k => ?_, fun c ch hch => ?_, fun m y hy hmy => ?_,
    fun m m' y y' hy hy' hc hu => ?_, fun m y hy => ?_, fun m y hy => ?_, hw.length_lt⟩,
    fun u => ?_⟩
  · refine (hw.members c ch hch k).congr (fun m => ⟨?_, ?_⟩) fun _ _ => rfl
    · rintro ⟨y, hy, rfl, rfl⟩
      obtain ⟨y', hy', hc, -, hk⟩ := hnew hy
      exact ⟨y', hy', hc, hk⟩
    · rintro ⟨y, hy, rfl, rfl⟩
      obtain ⟨y', hy', hc, -, hk⟩ := hold hy
      exact ⟨y', hy', hc, hk⟩
  · refine (hw.locmembers c ch hch).congr (fun m => ⟨?_, ?_⟩) fun _ _ => rfl
    · rintro ⟨y, hy, rfl, hmy⟩
      obtain ⟨y', hy', hc, hu, -⟩ := hnew hy
      exact ⟨y', hy', hc, hu ▸ hmy⟩
    · rintro ⟨y, hy, rfl, hmy⟩
      obtain ⟨y', hy', hc, hu, -⟩ := hold hy
      exact ⟨y', hy', hc, hu ▸ hmy⟩
  · obtain ⟨y', hy', -, hu, -⟩ := hold hy
    exact hw.unlinked m y' hy' (hu ▸ hmy)
  · obtain ⟨z, hz, hzc, hzu, -⟩ := hold hy
    obtain ⟨z', hz', hzc', hzu', -⟩ := hold hy'
    exact hw.unique m m' z z' hz hz' (by rw [hzc, hzc', hc]) (by rw [hzu, hzu', hu])
  · obtain ⟨z, hz, hzc, -, -⟩ := hold hy
    exact hzc ▸ hw.chan m z hz
  · obtain ⟨z, hz, -, -, -⟩ := hold hy
    exact hw.lt_fresh m z hz
  · refine (hw.userChannel u).congr (fun m => ⟨?_, ?_⟩) fun _ _ => rfl
    · rintro ⟨y, hy, rfl⟩
      obtain ⟨y', hy', -, hu, -⟩ := hnew hy
      exact ⟨y', hy', hu⟩
    · rintro ⟨y, hy, rfl⟩
      obtain ⟨y', hy', -, hu, -⟩ := hold hy
      exact ⟨y', hy', hu⟩

/-- **The lists after `remove_our_modes`.** Whatever status is left, the lists are right. -/
theorem Linked.removeOurModes (hw : Linked w) (me : Str) (c : Str) :
    Linked (removeOurModes me w c).1 := by
  cases hch : w.chan c with
  | none => simpa [Channel.removeOurModes, hch] using hw
  | some ch =>
    obtain ⟨noops, ops, hm⟩ := hw.exists_members hch
    rw [(removeOurModes_eq hm me).1]
    rcases metOps_cases w noops ops with hmet | ⟨o, ho, hmet⟩
    · rw [hmet]
      exact hw.devoice noops
    · obtain ⟨y, hy, rfl, hop⟩ := hm.op ho
      have hy' : (Channel.devoice w noops).mem o = some y := by
        rw [mem_devoice, if_neg (hm.disjoint ho), hy]
      have hlist : memlist y.flags = .op := by simp [memlist, hop]
      have hmove := (hw.devoice noops).moveMember hy'
        { y.flags with chanop := false, voice := false } (by rw [hlist]; simp [memlist])
      rw [hmet, foldl_cons, foldl_nil, deop_devoice hm ho hy]
      rw [hlist] at hmove
      exact hmove
/-! ### What the function is for -/

/-- All status is removed: no member that there was has any left, all are on the list of members
that are not operators, and the lines sent name each operator once with `-o` and each voice once
with `-v`. -/
structure ModesRemoved (w w' : World) (c : Str) (lines : List ModeLine) : Prop where
  status : ∀ m ms, w.mem m = some ms → ms.chptr = c →
    ∃ ms', w'.mem m = some ms' ∧ ms'.flags.chanop = false ∧ ms'.flags.voice = false
  lists : ∃ ch', w'.chan c = some ch' ∧
    Holds w'.channode (ch'.members .noop) (fun m => ∃ ms, w'.mem m = some ms ∧ ms.chptr = c) ∧
    Holds w'.channode (ch'.members .op) fun _ => False
  dir : ∀ l ∈ lines, l.dir = '-'
  ops : ∀ m ms, w.mem m = some ms → ms.chptr = c →
    (lines.flatMap (·.changes)).count ('o', ms.client_p) = if ms.flags.chanop then 1 else 0
  voices : ∀ m ms, w.mem m = some ms → ms.chptr = c →
    (lines.flatMap (·.changes)).count ('v', ms.client_p) = if ms.flags.voice then 1 else 0

/-- Whether a membership has voice. -/
def voiced (w : World) (m : ℕ) : Bool := (w.mem m).any (·.flags.voice)

theorem length_voices (w : World) (ids : List ℕ) :
    (voices w ids).length = ids.countP (voiced w) := by
  induction ids with
  | nil => rfl
  | cons m ids ih =>
    rw [voices_cons, length_append, ih, countP_cons, Nat.add_comm]
    congr 1
    cases hms : w.mem m with
    | none => simp [voices, voiced, hms]
    | some ms => cases hv : ms.flags.voice <;> simp [voices, voiced, hms, hv]

theorem voices_eq_flatMap (w : World) (ids : List ℕ) :
    voices w ids = ids.flatMap fun m => voices w [m] := by
  induction ids with
  | nil => rfl
  | cons m ids ih => rw [voices_cons, ih, flatMap_cons]

/-- Counting in a list that is put together from parts of which one matters. -/
theorem count_flatMap_of_unique {α β : Type*} [DecidableEq α] [BEq β] [LawfulBEq β] {ids : List α}
    (hnd : ids.Nodup) (f : α → List β) (x : β) (m : α) (h : ∀ i ∈ ids, i ≠ m → x ∉ f i) :
    (ids.flatMap f).count x = if m ∈ ids then (f m).count x else 0 := by
  induction ids with
  | nil => simp
  | cons i ids ih =>
    obtain ⟨hi, hnd⟩ := nodup_cons.mp hnd
    have ih := ih hnd fun j hj => h j (mem_cons_of_mem i hj)
    rw [flatMap_cons, count_append, ih]
    by_cases him : i = m
    · subst him
      simp [hi]
    · have hzero : (f i).count x = 0 := count_eq_zero_of_not_mem (h i mem_cons_self him)
      simp [hzero, Ne.symm him]

theorem mem_voices {a : Char} {u : ℕ} (h : (a, u) ∈ voices w [m]) :
    a = 'v' ∧ ∃ ms, w.mem m = some ms ∧ ms.client_p = u := by
  cases hms : w.mem m with
  | none => simp [voices, hms] at h
  | some ms =>
    cases hv : ms.flags.voice with
    | false => simp [voices, hms, hv] at h
    | true =>
      simp only [voices, hms, hv, filterMap_cons, bind_some, ↓reduceIte,
        filterMap_nil, mem_singleton, Prod.mk.injEq] at h
      exact ⟨h.1, ms, rfl, h.2.symm⟩

theorem mem_opChanges {a : Char} {u : ℕ} (h : (a, u) ∈ opChanges w m) :
    ∃ ms, w.mem m = some ms ∧ ms.client_p = u := by
  rcases mem_append.mp h with h | h
  · cases hms : w.mem m with
    | none => simp [hms] at h
    | some ms =>
      simp only [hms, map_some, toList_some, mem_singleton,
        Prod.mk.injEq] at h
      exact ⟨ms, rfl, h.2.symm⟩
  · exact (mem_voices h).2

/-- Each member is announced by its own status. -/
theorem Members.count_changes (hm : Members w c ch noops ops)
    (hms : w.mem m = some ms) (hc : ms.chptr = c) (a : Char) :
    (voices w noops ++ ops.flatMap (opChanges w)).count (a, ms.client_p) =
      if ms.flags.chanop then (opChanges w m).count (a, ms.client_p)
      else (voices w [m]).count (a, ms.client_p) := by
  have hother : ∀ {i y}, w.mem i = some y → y.chptr = c → y.client_p = ms.client_p → i = m :=
    fun hy hyc hu => hm.unique _ m _ ms hy hms hyc hc hu
  have hnoops := count_flatMap_of_unique hm.isList_noop.nodup (fun i => voices w [i])
    (a, ms.client_p) m fun i hi hne hmem => by
      obtain ⟨y, hy, hyc, -⟩ := hm.noop hi
      obtain ⟨-, y', hy', hu⟩ := mem_voices hmem
      cases hy.symm.trans hy'
      exact hne (hother hy hyc hu)
  have hops := count_flatMap_of_unique hm.isList_op.nodup (opChanges w)
    (a, ms.client_p) m fun i hi hne hmem => by
      obtain ⟨y, hy, hyc, -⟩ := hm.op hi
      obtain ⟨y', hy', hu⟩ := mem_opChanges hmem
      cases hy.symm.trans hy'
      exact hne (hother hy hyc hu)
  rw [count_append, voices_eq_flatMap, hnoops, hops]
  cases hop : ms.flags.chanop with
  | true =>
    have hmem : m ∈ ops := (hm.mem_ops m).mpr ⟨ms, hms, hc, by simp [memlist, hop]⟩
    simp [hmem, hm.disjoint hmem]
  | false =>
    have hmem : m ∈ noops := (hm.mem_noops m).mpr ⟨ms, hms, hc, by simp [memlist, hop]⟩
    have hnot : m ∉ ops := fun h => hm.disjoint h hmem
    simp [hmem, hnot]

/-- All operators are met when there is none, or a single one and the voices do not fill a line. -/
theorem metOps_eq_iff (w : World) (noops ops : List ℕ) :
    metOps w noops ops = ops ↔
      ops = [] ∨ ops.length = 1 ∧ noops.countP (voiced w) < maxModeParams := by
  rw [metOps, length_voices]
  rcases ops with _ | ⟨o, _ | ⟨p, rest⟩⟩
  · simp
  · split_ifs with h <;> simp [h]
  · split_ifs <;> simp

/-- When all operators are met, there is at most one. -/
private theorem ops_of_met (hmet : metOps w noops ops = ops) : ops = [] ∨ ∃ o, ops = [o] := by
  rcases (metOps_eq_iff w noops ops).mp hmet with h | ⟨h, -⟩
  · exact .inl h
  · exact .inr (length_eq_one_iff.mp h)

/-- When all operators are met, all members are on the other list. -/
private theorem lists_foldl_deop_of_met (hm : Members w c ch noops ops)
    (hmet : metOps w noops ops = ops) :
    ∃ ch', (ops.foldl (deop c) (devoice w noops)).chan c = some ch' ∧
      IsList (ops.foldl (deop c) (devoice w noops)).channode (ch'.members .noop) (ops ++ noops) ∧
      IsList (ops.foldl (deop c) (devoice w noops)).channode (ch'.members .op) [] := by
  rcases ops_of_met hmet with rfl | ⟨o, rfl⟩
  · exact ⟨ch, hm.chan, hm.isList_noop, hm.isList_op⟩
  · obtain ⟨y, hy, hc, -⟩ := hm.op (mem_singleton_self o)
    have hdisj : ∀ x ∈ noops, x ∉ [] ++ o :: [] := fun x hx hx' => hm.disjoint hx' hx
    have hop_list : IsList w.channode (ch.members .op) ([] ++ o :: []) := hm.isList_op
    obtain ⟨hold, hnew⟩ := hop_list.moveNode hm.isList_noop hdisj
    have hchan : (devoice w noops).chan c = some ch := hm.chan
    rw [foldl_cons, foldl_nil, deop_devoice hm (mem_singleton_self o) hy,
      moveChannode_eq hchan]
    exact ⟨_, update_self .., hnew, hold⟩

/-- **When all status is removed.** -/
theorem modesRemoved_iff (hm : Members w c ch noops ops) (me : Str) :
    ModesRemoved w (removeOurModes me w c).1 c (removeOurModes me w c).2 ↔
      ops = [] ∨ ops.length = 1 ∧ noops.countP (voiced w) < maxModeParams := by
  obtain ⟨hworld, hchanges⟩ := removeOurModes_eq hm me
  have hmem := mem_removeOurModes hm me
  rw [← metOps_eq_iff]
  constructor
  · -- an operator that is not met keeps its status
    intro h
    have hmet : ∀ m ∈ ops, m ∈ metOps w noops ops := by
      intro m hop
      by_contra hmet
      obtain ⟨ms, hms, hc, hchanop⟩ := hm.op hop
      obtain ⟨ms', hms', hnoop, -⟩ := h.status m ms hms hc
      rw [hmem, if_neg (not_or_intro (hm.disjoint hop) hmet), hms] at hms'
      rw [← some.inj hms', hchanop] at hnoop
      exact Bool.noConfusion hnoop
    have hlen : ops.length ≤ (metOps w noops ops).length :=
      (Nodup.subperm hm.isList_op.nodup hmet).length_le
    have hpre : metOps w noops ops <+: ops := by
      rw [metOps]
      split_ifs
      · exact take_prefix 1 ops
      · exact nil_prefix
    exact hpre.eq_of_length_le hlen
  · intro hmet
    obtain ⟨ch', hch', hnoop, hop⟩ := lists_foldl_deop_of_met hm hmet
    rw [hmet] at hworld hchanges
    rw [← hworld] at hch' hnoop hop
    -- a member of the channel is on one of the lists
    have hmem : ∀ m, (removeOurModes me w c).1.mem m =
        (w.mem m).map fun ms => if ms.chptr = c then ms.peon else ms := by
      intro m
      rw [hmem, hmet]
      cases hms : w.mem m with
      | none => simp
      | some ms =>
        have hon : m ∈ noops ∨ m ∈ ops ↔ ms.chptr = c := by
          rw [hm.mem_noops, hm.mem_ops]
          cases hk : memlist ms.flags <;> simp [OnMembers, hms, hk]
        by_cases hc : ms.chptr = c
        · rw [if_pos (hon.mpr hc), map_some, map_some, if_pos hc]
        · rw [if_neg (mt hon.mp hc), map_some, if_neg hc]
    refine ⟨fun m ms hms hc => ?_, ⟨ch', hch', ⟨_, hnoop, fun m => ?_⟩, ⟨[], hop, by simp⟩⟩,
      dir_removeOurModes me w c, fun m ms hms hc => ?_, fun m ms hms hc => ?_⟩
    · exact ⟨ms.peon, by rw [hmem, hms]; simp [hc], rfl, rfl⟩
    · rw [mem_append, hm.mem_ops, hm.mem_noops]
      constructor
      · rintro (⟨ms, hms, hc, -⟩ | ⟨ms, hms, hc, -⟩) <;>
          exact ⟨ms.peon, by rw [hmem, hms]; simp [hc], hc⟩
      · rintro ⟨ms', hms', hc⟩
        rw [hmem] at hms'
        obtain ⟨ms, hms, rfl⟩ := map_eq_some_iff.mp hms'
        have hc : ms.chptr = c := by
          by_contra hne
          simp [hne] at hc
        cases hk : memlist ms.flags with
        | noop => exact .inr ⟨ms, hms, hc, hk⟩
        | op => exact .inl ⟨ms, hms, hc, hk⟩
    · rw [hchanges, hm.count_changes hms hc]
      cases hop : ms.flags.chanop <;> cases hv : ms.flags.voice <;>
        simp [opChanges, voices, hms, hv]
    · rw [hchanges, hm.count_changes hms hc]
      cases hop : ms.flags.chanop <;> cases hv : ms.flags.voice <;>
        simp [opChanges, voices, hms, hv]

/-- A channel with two operators, the first of whom has a voice, and a member with a voice. -/
def twoOps : World :=
  addUserToChannel (addUserToChannel (addUserToChannel
    ((World.init localAndFake).setChan ['#'] (.fresh ['#'] 1)) ['#'] 1 ⟨true, true, false⟩)
    ['#'] 2 ⟨true, false, false⟩) ['#'] 3 ⟨false, true, false⟩

theorem modesRemoved_iff_twoOps :
    ModesRemoved twoOps (removeOurModes ['s'] twoOps ['#']).1 ['#']
        (removeOurModes ['s'] twoOps ['#']).2 ↔
      ([1, 0] : List ℕ) = [] ∨
        ([1, 0] : List ℕ).length = 1 ∧ [2].countP (voiced twoOps) < maxModeParams := by
  have hmem : ∀ m ms, twoOps.mem m = some ms ↔ m = 0 ∧ ms = ⟨['#'], 1, ⟨true, true, false⟩⟩ ∨
      m = 1 ∧ ms = ⟨['#'], 2, ⟨true, false, false⟩⟩ ∨
      m = 2 ∧ ms = ⟨['#'], 3, ⟨false, true, false⟩⟩ := by
    intro m ms
    change update (update (update (fun _ => none) 0 (some _)) 1
      (some _)) 2 (some _) m = some ms ↔ _
    simp only [update_apply]
    split_ifs with h2 h1 h0 <;> simp_all [eq_comm]
  have hon : ∀ k m, OnMembers twoOps ['#'] k m ↔ m ∈ if k = .noop then [2] else [1, 0] := by
    intro k m
    constructor
    · rintro ⟨ms, hms, -, rfl⟩
      rcases (hmem m ms).mp hms with ⟨rfl, rfl⟩ | ⟨rfl, rfl⟩ | ⟨rfl, rfl⟩ <;> decide
    · cases k <;> simp only [reduceCtorEq, if_true, if_false, mem_cons, not_mem_nil,
        or_false]
      · rintro rfl
        exact ⟨_, rfl, rfl, rfl⟩
      · rintro (rfl | rfl) <;> exact ⟨_, rfl, rfl, rfl⟩
  have hnoop : IsList twoOps.channode (((twoOps.chan ['#']).get rfl).members .noop) [2] :=
    ⟨nodup_singleton 2, rfl, rfl, rfl, ⟨rfl, trivial⟩⟩
  have hop : IsList twoOps.channode (((twoOps.chan ['#']).get rfl).members .op) [1, 0] :=
    ⟨by decide, rfl, rfl, rfl, ⟨rfl, rfl, trivial⟩⟩
  refine modesRemoved_iff ⟨rfl, hnoop, hop, fun m => (hon .noop m).symm,
    fun m => (hon .op m).symm, ?_, ?_⟩ ['s']
  · intro m m' ms ms' h h' _ _ hclient
    rcases (hmem m ms).mp h with ⟨rfl, rfl⟩ | ⟨rfl, rfl⟩ | ⟨rfl, rfl⟩ <;>
      rcases (hmem m' ms').mp h' with ⟨rfl, rfl⟩ | ⟨rfl, rfl⟩ | ⟨rfl, rfl⟩ <;>
        first | rfl | cases hclient
  · intro m ms h
    rcases (hmem m ms).mp h with ⟨rfl, -⟩ | ⟨rfl, -⟩ | ⟨rfl, -⟩ <;> decide

/-- Of two operators the one that joined first keeps its status, and is not named. -/
theorem second_op_kept :
    (run step (World.init localAndFake)
      [.join ['#'] 1 1 ⟨true, false, false⟩, .join ['#'] 1 2 ⟨true, false, false⟩]).map
      (fun w => ((removeOurModes ['s'] w ['#']).1.mem 0, (removeOurModes ['s'] w ['#']).2)) =
    some (some ⟨['#'], 1, ⟨true, false, false⟩⟩, [⟨['s'], ['#'], '-', [('o', 2)]⟩]) := by
  decide

end Ratbox.Channel
