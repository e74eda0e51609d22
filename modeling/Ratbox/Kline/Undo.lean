import Ratbox.Kline.Basic
import Ratbox.Hostmask.Case

/-!
# Removing the K-line that was placed

`UNKLINE` looks for a K-line by its text. `KLINE` cuts the text and writes an address with wildcards
as a network, so that the K-line that it places is not the one that `UNKLINE` with the same text
looks for.

Source: `modules/m_kline.c`, lines 104–303, 440–574 and 707–792.

## Main definitions

* `Kline.Good`: the invariant of the runs.
* `Kline.Undoable`: the condition under which the K-line is found.

## Main results

* `Kline.undo_iff`: the K-line that was placed is removed with the same text, and no other one,
  exactly if the text is neither cut nor written in another way, and no temporary K-line with the
  same masks is come to before.
-/

namespace Ratbox.Kline

open Text Address Hostmask Dlines Bandb Run List Option Function State
open Dlines.State (tempFor)
open Bandb.Helper (bandbDel)

/-! ### Masks -/

theorem irccmp_take {s : Str} {n : ℕ} : irccmp s (s.take n) = true ↔ s.length ≤ n := by
  constructor
  · intro h
    have hlen := congrArg length (eq_of_beq h)
    simp only [length_map, length_take] at hlen
    omega
  · intro h
    rw [take_of_length_le h]
    exact irccmp_refl s

section Mangle

variable {text m : Str} {s : Str}

theorem isDigit_of_isIpNumber (h : isIpNumber s = true) :
    s.length ≤ 3 ∧ ∀ c ∈ s, isDigit c = true := by
  simpa [isIpNumber] using h

theorem pieces_append {rest : Str} (hs : s ≠ []) (hdot : '.' ∉ s) :
    pieces (s ++ '.' :: rest) = s :: pieces rest := by
  have hne : ∀ c ∈ s, (c == '.') = false := fun c hc => beq_false_of_ne fun heq => hdot (heq ▸ hc)
  rw [pieces, splitOnP_append_cons_of_forall_mem hne '.' (by rfl) rest,
    filter_cons_of_pos (by simpa using hs)]
  rfl

theorem pieces_of_dot (hs : s ≠ []) (hdot : '.' ∉ s) : pieces s = [s] := by
  have hne : ∀ c ∈ s, (c == '.') = false := fun c hc => beq_false_of_ne fun heq => hdot (heq ▸ hc)
  rw [pieces, splitOnP_eq_singleton hne, filter_cons_of_pos (by simpa using hs)]
  rfl

/-- No piece is empty. -/
theorem ne_nil_of_mem_pieces (h : s ∈ pieces text) : s ≠ [] := by
  simpa using (mem_filter.mp h).2

/-- A number of an address, as a piece. -/
structure IsNumber (s : Str) : Prop where
  ne : s ≠ []
  length : s.length ≤ 3
  digits : ∀ c ∈ s, isDigit c = true

namespace IsNumber

variable {s : Str}

theorem zero : IsNumber ['0'] := ⟨by simp, by simp, by simp [isDigit]⟩

theorem of_mem (hmem : s ∈ pieces text) (hip : isIpNumber s = true) : IsNumber s :=
  ⟨ne_nil_of_mem_pieces hmem, (isDigit_of_isIpNumber hip).1, (isDigit_of_isIpNumber hip).2⟩

theorem notMem (h : IsNumber s) {c : Char} (hc : isDigit c = false) : c ∉ s := fun hmem => by
  rw [h.digits c hmem] at hc
  exact Bool.noConfusion hc

theorem ne_splat (h : IsNumber s) : s ≠ ['*'] := by
  rintro rfl
  exact h.notMem (c := '*') (by rfl) (by simp)

theorem isIpNumber (h : IsNumber s) : isIpNumber s = true := by
  simpa [Kline.isIpNumber] using ⟨h.length, h.digits⟩

end IsNumber

/-- The last piece of a network that is written out. -/
def lastPiece (bits : Str) : Str := '0' :: '/' :: bits

/-- What is written for an address with wildcards is a network of three numbers. -/
theorem mangle_eq_some (h : mangleWildcardToCidr text = some m) :
    ∃ a b c bits : Str, IsNumber a ∧ IsNumber b ∧ IsNumber c ∧ bits.length ≤ 2 ∧
      (∀ d ∈ bits, isDigit d = true) ∧
      m = a ++ '.' :: (b ++ '.' :: (c ++ '.' :: lastPiece bits)) := by
  have hpiece : ∀ n ∈ pieces text, Kline.isIpNumber n = true → IsNumber n := fun n => .of_mem
  rw [mangleWildcardToCidr] at h
  dsimp only at h
  split_ifs at h with h1 hip1 h2 hip2 h3 hip3 h4
  all_goals
    obtain ⟨-, hip1⟩ : _ ∧ Kline.isIpNumber ((pieces text)[0]?.getD []) = true := by
      simpa using hip1
    obtain ⟨a, ha⟩ := ne_none_iff_exists'.mp h1
    have hmem := hpiece a (mem_of_getElem? ha) (by simpa [ha] using hip1)
  · exact ⟨a, ['0'], ['0'], ['8'], hmem, .zero, .zero, by decide, all_eq_true.mp rfl,
      by simpa [ha, lastPiece] using (some.inj h).symm⟩
  all_goals
    have hsecond : (pieces text)[1]? ≠ none := fun heq => h2 <| by
      have hlen : (pieces text).length ≤ 1 := getElem?_eq_none_iff.mp heq
      have hthird : (pieces text)[2]? = none := getElem?_eq_none_iff.mpr (by omega)
      simp [isOpen, heq, hthird]
    obtain ⟨b, hb⟩ := ne_none_iff_exists'.mp hsecond
    have hmem2 := hpiece b (mem_of_getElem? hb) (by simpa [hb] using hip2)
  · exact ⟨a, b, ['0'], ['1', '6'], hmem, hmem2, .zero, by decide, all_eq_true.mp rfl,
      by simpa [ha, hb, lastPiece] using (some.inj h).symm⟩
  · have hthird : (pieces text)[2]? ≠ none := fun heq => h3 <| by
      have hlen : (pieces text).length ≤ 2 := getElem?_eq_none_iff.mp heq
      have hfourth : (pieces text)[3]? = none := getElem?_eq_none_iff.mpr (by omega)
      simp [isOpen, heq, hfourth]
    obtain ⟨c, hc⟩ := ne_none_iff_exists'.mp hthird
    exact ⟨a, b, c, ['2', '4'], hmem, hmem2, hpiece c (mem_of_getElem? hc)
      (by simpa [hc] using hip3), by decide, all_eq_true.mp rfl, by
        simpa [ha, hb, hc, lastPiece] using (some.inj h).symm⟩

/-- A network that is written out is left as it is. -/
theorem mangle_network {a b c bits : Str} (ha : IsNumber a) (hb : IsNumber b) (hc : IsNumber c)
    (hbits : ∀ d ∈ bits, isDigit d = true) :
    mangleWildcardToCidr (a ++ '.' :: (b ++ '.' :: (c ++ '.' :: lastPiece bits))) = none := by
  have hlast : '.' ∉ lastPiece bits := by
    have hdot : '.' ∉ bits := fun hmem => absurd (hbits '.' hmem) (by decide)
    simp [lastPiece, hdot]
  have hpieces : pieces (a ++ '.' :: (b ++ '.' :: (c ++ '.' :: lastPiece bits))) =
      [a, b, c, lastPiece bits] := by
    have hdot : isDigit '.' = false := rfl
    rw [pieces_append ha.ne (ha.notMem hdot), pieces_append hb.ne (hb.notMem hdot),
      pieces_append hc.ne (hc.notMem hdot), pieces_of_dot (by simp [lastPiece]) hlast]
  have hsplat : lastPiece bits ≠ ['*'] := by simp [lastPiece]
  rw [mangleWildcardToCidr, hpieces]
  simp [isOpen, ha.ne_splat, hb.ne_splat, hc.ne_splat, ha.isIpNumber, hb.isIpNumber, hc.isIpNumber,
    hsplat]

/-- A text of digits, dots and strokes is only equal to itself. -/
theorem eq_of_sameCase {t : Str} (h : SameCase s t)
    (ht : ∀ d ∈ t, isDigit d = true ∨ d = '.' ∨ d = '/') : s = t := by
  induction h with
  | nil => rfl
  | @cons c d s t hcd _ ih =>
    obtain ⟨hd, ht⟩ := forall_mem_cons.mp ht
    have hc : c = d := by
      rcases hd with hd | rfl | rfl
      · exact (SameChar.eq_of_isDigit hcd.symm hd).symm
      · exact (hcd.eq_iff (ne_special (by decide))).mpr rfl
      · exact (hcd.eq_iff (ne_special (by decide))).mpr rfl
    rw [hc, ih ht]

/-- A network that is written out is not the text it is written for, up to case. -/
theorem irccmp_mangle (h : mangleWildcardToCidr text = some m) : irccmp text m = false := by
  obtain ⟨a, b, c, bits, ha, hb, hc, -, hbits, rfl⟩ := mangle_eq_some h
  refine Bool.eq_false_iff.mpr fun hcmp => ?_
  have hplain : ∀ d ∈ a ++ '.' :: (b ++ '.' :: (c ++ '.' :: lastPiece bits)), isDigit d = true ∨
      d = '.' ∨ d = '/' := by
    simp only [mem_append, mem_cons, lastPiece]
    rintro d (hd | rfl | hd | rfl | hd | rfl | rfl | rfl | hd)
    · exact .inl (ha.digits d hd)
    · exact .inr (.inl rfl)
    · exact .inl (hb.digits d hd)
    · exact .inr (.inl rfl)
    · exact .inl (hc.digits d hd)
    · exact .inr (.inl rfl)
    · exact .inl (by rfl)
    · exact .inr (.inr rfl)
    · exact .inl (hbits d hd)
  have heq := eq_of_sameCase (sameCase_iff.mpr hcmp) hplain
  rw [heq, mangle_network ha hb hc hbits] at h
  cases h

/-- The host of a K-line is the text exactly if the text is short enough and no address with
wildcards. -/
theorem irccmp_lhost :
    irccmp text (lhost text) = true ↔ text.length ≤ hostLen ∧ mangleWildcardToCidr text = none := by
  rw [lhost, strlcpy, Nat.add_sub_cancel]
  cases hm : mangleWildcardToCidr text with
  | none =>
    rw [getD_none, irccmp_take]
    simp
  | some m =>
    obtain ⟨a, b, c, bits, ha, hb, hc, hbits, -, rfl⟩ := mangle_eq_some hm
    have hlen : (a ++ '.' :: (b ++ '.' :: (c ++ '.' :: lastPiece bits))).length ≤ hostLen := by
      have ha' := ha.length
      have hb' := hb.length
      have hc' := hc.length
      simp only [length_append, length_cons, lastPiece, hostLen]
      omega
    rw [getD_some, take_of_length_le hlen, irccmp_mangle hm]
    simp

end Mangle

theorem take_orSplat (s : Str) :
    (orSplat s).take userLen = if s = [] then ['*'] else strlcpy s (userLen + 1) := by
  rw [orSplat]
  split
  · rfl
  · rfl

theorem lhost_orSplat (s : Str) : lhost (orSplat s) = if s = [] then ['*'] else lhost s := by
  rw [orSplat]
  split
  · decide
  · rfl

/-- What `KLINE` and `UNKLINE` read from a text. -/
theorem findUserHost_eq_some {text user host : Str} (h : findUserHost text = some (user, host)) :
    ∃ user' host', unklineMask text = some (user', host') ∧ user = user'.take userLen ∧
    host = lhost host' := by
  rw [findUserHost] at h
  split_ifs at h with hat hplain
  · cases h
    exact ⟨orSplat (splitAt text).1, orSplat (splitAt text).2, by rw [unklineMask, if_pos hat],
      (take_orSplat _).symm, (lhost_orSplat _).symm⟩
  · cases h
    rw [not_and_or, not_not, not_not] at hplain
    exact ⟨['*'], text, by rw [unklineMask, if_neg hat, if_pos (.inr hplain)], rfl, rfl⟩

/-! ### The invariant -/

/-- The records are in the buckets of their masks, those of K-lines have the hosts of their confs,
and the numbers of the confs are used. -/
structure Good (s : State) : Prop where
  place : ∀ hv, ∀ r ∈ s.atable.atable hv, bucketOf r.address = hv
  host : ∀ hv, ∀ r ∈ s.atable.atable hv, r.type = .kill → r.address = r.aconf.ban.host
  below : ∀ hv, ∀ r ∈ s.atable.atable hv, r.aconf.id < s.fresh
  temps : ∀ i, ∀ c ∈ s.tempKlines i, c.id < s.fresh

/-- Records and entries of lists are removed, and entries are moved. -/
structure Shrinks (s s' : State) : Prop where
  atable : ∀ hv, ∀ r ∈ s'.atable.atable hv, r ∈ s.atable.atable hv
  temps : ∀ i, ∀ c ∈ s'.tempKlines i, ∃ j, c ∈ s.tempKlines j
  fresh : s'.fresh = s.fresh

section Steps

variable {s s' : State} {c : Conf} {t : Table Conf} {u : Setup}

theorem Good.start : Good start where
  place _ _ hr := nomatch hr
  host _ _ hr := nomatch hr
  below _ _ hr := nomatch hr
  temps _ _ hc := nomatch hc

theorem Good.shrinks (h : Good s) (hs : Shrinks s s') : Good s' where
  place hv r hr := h.place hv r (hs.atable hv r hr)
  host hv r hr := h.host hv r (hs.atable hv r hr)
  below hv r hr := hs.fresh ▸ h.below hv r (hs.atable hv r hr)
  temps i c hc := by
    obtain ⟨j, hj⟩ := hs.temps i c hc
    exact hs.fresh ▸ h.temps j c hj

theorem Shrinks.refl (s : State) : Shrinks s s := ⟨fun _ _ hr => hr, fun i _ hc => ⟨i, hc⟩, rfl⟩

theorem mem_of_mem_delete {address : Str} {hv : ℕ} {r : Rec Conf}
    (hr : r ∈ (t.deleteOneAddressConf address c).atable hv) : r ∈ t.atable hv := by
  dsimp only [Table.deleteOneAddressConf] at hr
  by_cases hhv : hv = bucketOf address
  · subst hhv
    rw [update_self] at hr
    exact eraseP_subset hr
  · rwa [update_of_ne hhv] at hr

theorem Shrinks.delete (h : Shrinks s s') (address : Str) (c : Conf) (helper : List Str) :
    Shrinks s { s' with atable := s'.atable.deleteOneAddressConf address c, helper := helper } :=
  ⟨fun hv r hr => h.atable hv r (mem_of_mem_delete hr), h.temps, h.fresh⟩

/-- What is left of a list after an entry is destroyed. -/
theorem mem_update_eraseP {temps : Temp → List Conf} {i j : Temp} {p : Conf → Bool} {d : Conf}
    (hd : d ∈ update temps i ((temps i).eraseP p) j) : d ∈ temps j := by
  by_cases hij : j = i
  · subst hij
    rw [update_self] at hd
    exact eraseP_subset hd
  · rwa [update_of_ne hij] at hd

theorem Shrinks.dropTemp (h : Shrinks s s') (i : Temp) (c : Conf) : Shrinks s (s'.dropTemp i c) :=
  ⟨fun hv r hr => h.atable hv r (mem_of_mem_delete hr), fun j d hd => h.temps j d
    (mem_update_eraseP hd), h.fresh⟩

theorem Shrinks.moveNode (h : Shrinks s s') {i j k : Temp} (hc : c ∈ s.tempKlines k) :
    Shrinks s (s'.moveNode i j c) := by
  refine ⟨h.atable, fun l d hd => ?_, h.fresh⟩
  dsimp only [State.moveNode] at hd
  by_cases hl : l = j
  · subst hl
    rw [update_self] at hd
    obtain rfl | hd := mem_cons.mp hd
    · exact ⟨k, hc⟩
    · exact h.temps l d (mem_update_eraseP hd)
  · rw [update_of_ne hl] at hd
    exact h.temps l d (mem_update_eraseP hd)

theorem Good.addConf (h : Good s) {type : RecType} {address username : Option Str}
    (hc : c.id = s.fresh) (hhost : type = .kill → address = some c.ban.host)
    (temps : Temp → List Conf) (htemps : ∀ i, ∀ d ∈ temps i, d.id < s.fresh + 1)
    (helper : List Str) :
    Good ⟨s.atable.addConfByAddress address type username c, temps, s.fresh + 1, helper⟩ := by
  have hmem : ∀ hv, ∀ r ∈ (s.atable.addConfByAddress address type username c).atable hv,
      r ∈ s.atable.atable hv ∨
        (r = s.atable.makeRec address type username c ∧
            hv = bucketOf (address.getD "/NOMATCH!/".toList)) := by
    intro hv r hr
    dsimp only [Table.addConfByAddress] at hr
    by_cases hhv : hv = bucketOf (s.atable.makeRec address type username c).address
    · subst hhv
      rw [update_self] at hr
      obtain rfl | hr := mem_cons.mp hr
      · exact .inr ⟨rfl, rfl⟩
      · exact .inl hr
    · rw [update_of_ne hhv] at hr
      exact .inl hr
  refine ⟨fun hv r hr => ?_, fun hv r hr hkill => ?_, fun hv r hr => ?_, htemps⟩
  · obtain hr | ⟨rfl, rfl⟩ := hmem hv r hr
    · exact h.place hv r hr
    · rfl
  · obtain hr | ⟨rfl, rfl⟩ := hmem hv r hr
    · exact h.host hv r hr hkill
    · rw [Table.makeRec, hhost hkill, getD_some]
  · obtain hr | ⟨rfl, rfl⟩ := hmem hv r hr
    · exact Nat.lt_succ_of_lt (h.below hv r hr)
    · exact hc ▸ Nat.lt_succ_self _

theorem id_of_makeKline {source : Oper} {q : Request} {now : ℤ} {date : Str} {admin : Bool}
    (h : makeKline u s source q now date admin = some c) :
    c.id = s.fresh ∧ c.ban.user = some q.user ∧ c.ban.host = q.host ∧
      c.temporary = decide (0 < q.tklineTime) ∧ c.hold = now + q.tklineTime ∧
      c.locked = (admin && decide (q.tklineTime ≤ 0)) := by
  rw [makeKline] at h
  split at h
  · rw [← some.inj h]
    exact ⟨rfl, rfl, rfl, rfl, rfl, rfl⟩
  · cases h

theorem Good.setKline (h : Good s) (u : Setup) (source : Oper) (q : Request) (now : ℤ) (date : Str)
    (admin : Bool) :
    Good (s.setKline u source q now date admin) := by
  have hold : ∀ i, ∀ d ∈ s.tempKlines i, d.id < s.fresh + 1 :=
    fun i d hd => Nat.lt_succ_of_lt (h.temps i d hd)
  rw [State.setKline]
  cases hc : makeKline u s source q now date admin with
  | none => exact h
  | some c =>
    have hid := (id_of_makeKline hc).1
    dsimp only
    split
    · refine h.addConf hid (fun _ => rfl) _ (fun i d hd => ?_) _
      by_cases hi : i = tempFor c.hold now
      · subst hi
        rw [update_self] at hd
        obtain rfl | hd := mem_cons.mp hd
        · exact hid ▸ Nat.lt_succ_self _
        · exact hold _ d hd
      · rw [update_of_ne hi] at hd
        exact hold _ d hd
    · exact h.addConf hid (fun _ => rfl) _ hold _

theorem Shrinks.unkline (s : State) (source : Oper) (user host : Str) :
    Shrinks s (s.unkline source user host) := by
  have hperm : Shrinks s (s.removePermKline source user host) := by
    rw [removePermKline]
    cases s.findPerm user host with
    | none => exact .refl s
    | some c =>
      dsimp only
      split_ifs
      · exact .refl s
      · exact (Shrinks.refl s).delete host _ _
  rw [State.unkline, State.removeTempKline]
  cases s.findTemp user host with
  | none => exact hperm
  | some p => exact (Shrinks.refl s).dropTemp p.1 p.2

theorem Shrinks.filter (s : State) {p : Rec Conf → Bool}
    (ht : ∀ hv, t.atable hv = (s.atable.atable hv).filter p) : Shrinks s { s with atable := t } :=
  ⟨fun hv _ hr => mem_of_mem_filter (ht hv ▸ hr), fun i _ hc => ⟨i, hc⟩, rfl⟩

theorem Shrinks.foldl_dropTemp {l : List Conf} {i : Temp} (p : Conf → Prop) [DecidablePred p]
    (h : Shrinks s s') :
    Shrinks s (l.foldl (fun s c => if p c then s.dropTemp i c else s) s') := by
  refine foldlRecOn l _ h fun t ht c _ => ?_
  split
  · exact ht.dropTemp i c
  · exact ht

theorem Shrinks.reorganiseTempKd (s : State) (i : Temp) (now : ℤ) :
    Shrinks s (s.reorganiseTempKd i now) := by
  refine foldlRecOn _ _ (Shrinks.refl s) fun t ht c hc => ?_
  cases moveTo i c now with
  | none => exact ht
  | some j => exact ht.moveNode hc

theorem Shrinks.rehashTklines (s : State) : Shrinks s s.rehashTklines := by
  refine foldlRecOn _ _ (Shrinks.refl s) fun t ht i _ => ?_
  exact foldlRecOn _ _ ht fun t ht c _ => ht.dropTemp i c

/-- A step keeps the invariant. -/
theorem Good.step {o : Op} (h : Good s) (hs' : step u s o = some s') : Good s' := by
  cases o with
  | kline source parv now date =>
    cases hs'
    rw [moKline]
    split
    · exact h
    · exact h.setKline ..
  | adminkline source parv now date =>
    cases hs'
    rw [moAdminkline]
    split
    · exact h
    · split
      · exact h.setKline ..
      · exact h
  | klineFrom source shared parv now date =>
    cases hs'
    rw [meKline]
    split
    · exact h.setKline ..
    · exact h
  | unkline source parv =>
    cases hs'
    rw [moUnkline]
    split
    · exact h
    · dsimp only
      split
      · exact h.shrinks (.unkline ..)
      · exact h
  | unklineFrom source shared parv =>
    cases hs'
    rw [meUnkline]
    split
    · exact h.shrinks (.unkline ..)
    · exact h
  | expire i now =>
    cases hs'
    exact h.shrinks ((Shrinks.refl s).foldl_dropTemp _)
  | reorganise i now =>
    cases hs'
    exact h.shrinks (.reorganiseTempKd ..)
  | rehashTklines =>
    cases hs'
    exact h.shrinks (.rehashTklines s)
  | replace bans =>
    cases hs'
    refine foldlRecOn _ _ (h.shrinks (.filter s fun _ => rfl)) fun t ht ban _ => ?_
    exact ht.addConf rfl (fun _ => rfl) _ (fun i d hd => Nat.lt_succ_of_lt (ht.temps i d hd)) _
  | addOther type address username ban =>
    rw [Kline.step] at hs'
    split at hs'
    · cases hs'
    · next hkill =>
      cases hs'
      exact h.addConf rfl (fun heq => absurd heq hkill) _ (fun i d hd => Nat.lt_succ_of_lt
        (h.temps i d hd)) _
  | rehash =>
    cases hs'
    exact h.shrinks (.filter s fun _ => rfl)

theorem Good.of_run {ops : List Op} (hrun : run (Kline.step u) Kline.start ops = some s) :
    Good s := by
  have hok : StepsMeet (Kline.step u) (fun _ _ => True) Kline.start ops :=
    .of_forall (fun _ _ => trivial) ..
  exact invariant Good (fun _ _ _ h _ hs' => h.step hs') .start hok hrun

end Steps

/-! ### What is found -/

section Found

variable {s : State} {user host : Str} {c : Conf} {i : Temp}

/-- The lists in the order in which they are searched. -/
theorem temps_eq_append {before behind : List Temp}
    (h : [Temp.min, .hour, .day, .week] = before ++ i :: behind) (j : Temp) :
    j ∈ before ↔ j.index < i.index := by
  rcases before with _ | ⟨a, _ | ⟨b, _ | ⟨d, _ | ⟨e, before⟩⟩⟩⟩
  all_goals simp only [cons_append, nil_append, cons.injEq] at h
  · obtain ⟨rfl, -⟩ := h
    cases j <;> decide
  · obtain ⟨rfl, rfl, -⟩ := h
    cases j <;> decide
  · obtain ⟨rfl, rfl, rfl, -⟩ := h
    cases j <;> decide
  · obtain ⟨rfl, rfl, rfl, rfl, -⟩ := h
    cases j <;> decide
  · simp at h

theorem findTemp_eq_some : s.findTemp user host = some (i, c) ↔
    (∀ j, j.index < i.index → ∀ d ∈ s.tempKlines j, d.hasMasks user host = false) ∧
      (s.tempKlines i).find? (fun c => c.hasMasks user host) = some c := by
  rw [findTemp, findSome?_eq_some_iff]
  constructor
  · rintro ⟨before, j, behind, heq, hj, hbefore⟩
    obtain ⟨d, hd, hpair⟩ := map_eq_some_iff.mp hj
    cases hpair
    refine ⟨fun k hk d hd => ?_, hd⟩
    have hnone := hbefore k ((temps_eq_append heq k).mpr hk)
    simpa using find?_eq_none.mp (map_eq_none_iff.mp hnone) d hd
  · rintro ⟨hbefore, hfind⟩
    obtain ⟨before, behind, heq⟩ :=
      append_of_mem (show i ∈ [Temp.min, .hour, .day, .week] by cases i <;> decide)
    refine ⟨before, i, behind, heq, by rw [hfind]; rfl, fun j hj => ?_⟩
    have hnone := hbefore j ((temps_eq_append heq j).mp hj)
    exact map_eq_none_iff.mpr (find?_eq_none.mpr fun d hd => by simp [hnone d hd])

theorem findTemp_eq_none :
    s.findTemp user host = none ↔ ∀ i, ∀ d ∈ s.tempKlines i, d.hasMasks user host = false := by
  rw [findTemp, findSome?_eq_none_iff]
  refine ⟨fun h i d hd => ?_, fun h i _ => ?_⟩
  · have hnone := h i (by cases i <;> decide)
    simpa using find?_eq_none.mp (map_eq_none_iff.mp hnone) d hd
  · exact map_eq_none_iff.mpr (find?_eq_none.mpr fun d hd => by simp [h i d hd])
/-- A conf that `remove_perm_kline` comes to is the first one of a bucket that has the masks. -/
theorem findPerm_eq_some (h : s.findPerm user host = some c) : ∃ hv r,
    (s.atable.atable hv).find? (fun r =>
      decide (r.type = .kill) && !r.aconf.temporary && r.aconf.hasMasks user host) = some r ∧
      r.aconf = c := by
  unfold findPerm at h
  obtain ⟨r, hr, rfl⟩ := map_eq_some_iff.mp h
  obtain ⟨hv, -, hfind⟩ := exists_of_findSome?_eq_some hr
  exact ⟨hv, r, hfind, rfl⟩

/-- A permanent K-line is come to in the bucket of its mask, if it is the first one there. -/
theorem findPerm_head (h : Good s) {r : Rec Conf} {l : List (Rec Conf)} (htype : r.type = .kill)
    (htemp : r.aconf.temporary = false) (hmasks : r.aconf.hasMasks user host = true)
    (hl : s.atable.atable (bucketOf r.address) = r :: l) : s.findPerm user host = some r.aconf := by
  have hr : r ∈ s.atable.atable (bucketOf r.address) := hl ▸ mem_cons_self
  have hhost : ∀ {r' : Rec Conf}, r'.aconf.hasMasks user host = true →
      irccmp host r'.aconf.ban.host = true := by
    intro r' hr'
    rw [Conf.hasMasks, Bool.and_eq_true] at hr'
    exact hr'.2
  cases hfind : s.findPerm user host with
  | none =>
    unfold findPerm at hfind
    rw [map_eq_none_iff, findSome?_eq_none_iff] at hfind
    have hnone := hfind _ (mem_range.mpr (bucketOf_lt r.address))
    have hnot := find?_eq_none.mp hnone r hr
    simp [htype, htemp, hmasks] at hnot
  | some c =>
    obtain ⟨hv, r', hr', rfl⟩ := findPerm_eq_some hfind
    have hmem := mem_of_find?_eq_some hr'
    have hok := find?_some hr'
    simp only [Bool.and_eq_true, decide_eq_true_eq] at hok
    obtain ⟨⟨htype', -⟩, hmasks'⟩ := hok
    have hcase : irccmp r'.address r.address = true := by
      rw [h.host hv r' hmem htype', h.host _ r hr htype]
      exact beq_iff_eq.mpr ((eq_of_beq (hhost hmasks')).symm.trans (eq_of_beq (hhost hmasks)))
    have hbucket : hv = bucketOf r.address := (h.place hv r' hmem).symm.trans (bucketOf_congr hcase)
    rw [hbucket, hl, find?_cons_of_pos (by simp [htype, htemp, hmasks])] at hr'
    rw [some.inj hr']

/-- A record that is removed is that of the conf that was found. -/
theorem found_of_removed {source : Oper} {hv : ℕ} {r : Rec Conf} (hr : r ∈ s.atable.atable hv)
    (hgone : r ∉ (s.unkline source user host).atable.atable hv) :
    (∃ i, s.findTemp user host = some (i, r.aconf)) ∨
      (s.findTemp user host = none ∧ s.findPerm user host = some r.aconf) := by
  have hdelete : ∀ {address : Str} {c : Conf}, r ∉ (s.atable.deleteOneAddressConf address c).atable
      hv → c = r.aconf := by
    intro address c hnot
    by_contra hne
    refine hnot ?_
    dsimp only [Table.deleteOneAddressConf]
    by_cases hhv : hv = bucketOf address
    · subst hhv
      rw [update_self]
      exact (mem_eraseP_of_neg (by simpa using Ne.symm hne)).mpr hr
    · rwa [update_of_ne hhv]
  rw [unkline, removeTempKline] at hgone
  cases htemp : s.findTemp user host with
  | some p =>
    rw [htemp] at hgone
    exact .inl ⟨p.1, by rw [← hdelete hgone]⟩
  | none =>
    rw [htemp, map_none, getD_none, removePermKline] at hgone
    cases hperm : s.findPerm user host with
    | none =>
      rw [hperm] at hgone
      exact absurd hr hgone
    | some c =>
      rw [hperm] at hgone
      dsimp only at hgone
      split at hgone
      · exact absurd hr hgone
      · obtain rfl := hdelete hgone
        exact .inr ⟨rfl, rfl⟩

end Found

/-! ### Undoing -/

/-- The K-line that `mo_kline` places. -/
def placed (u : Setup) (s : State) (source : Oper) (parv : List Str) (now : ℤ) (date : Str) :
    Option Conf :=
  (klineRequest u source parv).bind fun q => makeKline u s source q now date false

/-- The K-lines are as they were, and for a permanent one the helper is told that it is removed. -/
structure Undone (s s' s'' : State) (c : Conf) : Prop where
  atable : s''.atable = s.atable
  temps : s''.tempKlines = s.tempKlines
  helper : s''.helper = s'.helper ++
    if c.temporary then [] else [bandbDel (.kline (c.ban.user.getD []) c.ban.host)]

/-- The user and the host of the text are neither cut nor written in another way, and
`remove_temp_kline` comes to no K-line with these masks before the new one. -/
def Undoable (s : State) (tklineTime now : ℤ) (text : Str) : Prop :=
  ∃ user host, unklineMask text = some (user, host) ∧ user.length ≤ userLen ∧
    host.length ≤ hostLen ∧ mangleWildcardToCidr host = none ∧
      ∀ i : Temp, (0 < tklineTime → i.index < (tempFor (now + tklineTime) now).index) →
        ∀ d ∈ s.tempKlines i, d.hasMasks user host = false

theorem klineRequest_eq_some {u : Setup} {source : Oper} {parv : List Str} {q : Request}
    {text : Str} (htext : parv[maskLoc parv]? = some text)
    (h : klineRequest u source parv = some q) :
    findUserHost text = some (q.user, q.host) ∧ q.tklineTime = tklineTime parv := by
  rw [klineRequest, htext] at h
  cases hmask : findUserHost text with
  | none => simp [hmask] at h
  | some p =>
    simp only [hmask, bind_eq_bind, bind_some, bind_eq_some_iff] at h
    obtain ⟨-, -, -, -, -, -, -, -, h⟩ := h
    rw [← some.inj h]
    exact ⟨rfl, rfl⟩

theorem delete_addConf {t : Table Conf} {c : Conf} {user : Option Str} {address : Str}
    (h : bucketOf address = bucketOf c.ban.host) :
    (t.addConfByAddress (some c.ban.host) .kill user c).deleteOneAddressConf address c = t := by
  have hat : (t.makeRec (some c.ban.host) .kill user c).address = c.ban.host := rfl
  rw [Table.deleteOneAddressConf, Table.addConfByAddress, hat, h]
  simp only [update_self, update_idem, reduceCtorEq, if_false]
  rw [eraseP_cons_of_pos (by simp [Table.makeRec]), update_eq_self]

section Placed

variable {s : State} {c : Conf} {user host : Str} {source : Oper}

theorem bucketOf_of_hasMasks (h : c.hasMasks user host = true) :
    bucketOf host = bucketOf c.ban.host := by
  rw [Conf.hasMasks, Bool.and_eq_true] at h
  exact bucketOf_congr h.2

/-- The record of a conf that was just added is the first one of its bucket. -/
theorem atable_addConf (s : State) (c : Conf) :
    ∃ r : Rec Conf, r.aconf = c ∧ r.type = .kill ∧ r.address = c.ban.host ∧
    (s.addConf c).atable.atable (bucketOf c.ban.host) = r :: s.atable.atable
    (bucketOf c.ban.host) :=
  ⟨s.atable.makeRec (some c.ban.host) .kill c.ban.user c, rfl, rfl, rfl, update_self ..⟩

/-- If the K-lines are as they were, then the new one was found. -/
theorem found_of_undone (h : Good s) (hid : c.id = s.fresh) {s' : State}
    (hundone : (s'.unkline source user host).atable = s.atable)
    (hs' : s'.atable = (s.addConf c).atable) :
    (∃ i, s'.findTemp user host = some (i, c)) ∨
    (s'.findTemp user host = none ∧ s'.findPerm user host = some c) := by
  obtain ⟨r, hconf, -, -, hbucket⟩ := atable_addConf s c
  have hr : r ∈ s'.atable.atable (bucketOf c.ban.host) := by rw [hs', hbucket]; exact mem_cons_self
  have hgone : r ∉ (s'.unkline source user host).atable.atable (bucketOf c.ban.host) := by
    rw [hundone]
    intro hmem
    have hlt := h.below _ r hmem
    rw [hconf, hid] at hlt
    exact lt_irrefl _ hlt
  have hfound := found_of_removed hr hgone
  rwa [hconf] at hfound

/-- A temporary K-line is removed again exactly if it has the masks, and none in an earlier list
has. -/
theorem undone_temp (h : Good s) (hid : c.id = s.fresh) (htemp : c.temporary = true) {now : ℤ} :
    Undone s (s.addTempKline c now) ((s.addTempKline c now).unkline source user host) c ↔
      c.hasMasks user host = true ∧ ∀ i : Temp, i.index < (tempFor c.hold now).index →
        ∀ d ∈ s.tempKlines i, d.hasMasks user host = false := by
  have hother : ∀ {j}, j ≠ tempFor c.hold now → (s.addTempKline c now).tempKlines j =
    s.tempKlines j :=
    fun hj => update_of_ne hj ..
  have hself : (s.addTempKline c now).tempKlines (tempFor c.hold now) = c ::
    s.tempKlines (tempFor c.hold now) :=
    update_self ..
  constructor
  · intro hundone
    obtain ⟨i, hfind⟩ | ⟨-, hfind⟩ := found_of_undone h hid hundone.atable rfl
    · obtain ⟨hbefore, hfind⟩ := findTemp_eq_some.mp hfind
      have hi : i = tempFor c.hold now := by
        by_contra hi
        have hmem := mem_of_find?_eq_some hfind
        rw [hother hi] at hmem
        exact lt_irrefl _ (hid ▸ h.temps i c hmem)
      subst hi
      have hmasks : c.hasMasks user host = true := by simpa using find?_some hfind
      refine ⟨hmasks, fun j hj d hd => hbefore j hj d ?_⟩
      rwa [hother (fun heq => lt_irrefl _ (heq ▸ hj))]
    · obtain ⟨hv, r, hr, rfl⟩ := findPerm_eq_some hfind
      have hok := find?_some hr
      simp [htemp] at hok
  · rintro ⟨hmasks, hbefore⟩
    have hfind : (s.addTempKline c now).findTemp user host = some (tempFor c.hold now, c) := by
      refine findTemp_eq_some.mpr ⟨fun j hj d hd => hbefore j hj d ?_, ?_⟩
      · rwa [hother (fun heq => lt_irrefl _ (heq ▸ hj))] at hd
      · rw [hself, find?_cons_of_pos (by exact hmasks)]
    rw [unkline, removeTempKline, hfind, map_some, getD_some]
    refine ⟨delete_addConf rfl, ?_, by simp [htemp, dropTemp]⟩
    rw [dropTemp, hself, eraseP_cons_of_pos (by simp), addTempKline]
    dsimp only
    rw [update_idem, update_eq_self]

/-- A permanent K-line is removed again exactly if it has the masks, and no temporary one has. -/
theorem undone_perm (h : Good s) (hid : c.id = s.fresh) (htemp : c.temporary = false)
    (hlocked : c.locked = false) {line : Str} :
    Undone s (s.applyKline c line) ((s.applyKline c line).unkline source user host) c ↔
      c.hasMasks user host = true ∧ ∀ i, ∀ d ∈ s.tempKlines i, d.hasMasks user host = false := by
  constructor
  · intro hundone
    obtain ⟨i, hfind⟩ | ⟨hnone, hfind⟩ := found_of_undone h hid hundone.atable rfl
    · have hmem : c ∈ s.tempKlines i := mem_of_find?_eq_some (findTemp_eq_some.mp hfind).2
      exact absurd (hid ▸ h.temps i c hmem) (lt_irrefl _)
    · obtain ⟨hv, r, hr, rfl⟩ := findPerm_eq_some hfind
      have hok := find?_some hr
      rw [Bool.and_eq_true] at hok
      exact ⟨hok.2, findTemp_eq_none.mp hnone⟩
  · rintro ⟨hmasks, hnone⟩
    have hgood : Good (s.applyKline c line) :=
      h.addConf hid (fun _ => rfl) _ (fun i d hd => Nat.lt_succ_of_lt (h.temps i d hd)) _
    obtain ⟨r, rfl, htype, haddress, hbucket⟩ := atable_addConf s c
    rw [← haddress] at hbucket
    have hfind : (s.applyKline r.aconf line).findPerm user host = some r.aconf :=
      findPerm_head hgood htype htemp hmasks hbucket
    have htempfind : (s.applyKline r.aconf line).findTemp user host = none :=
      findTemp_eq_none.mpr hnone
    rw [unkline, removeTempKline, htempfind, map_none, getD_none, removePermKline, hfind]
    simp only [hlocked, Bool.false_and, Bool.false_eq_true, if_false]
    exact ⟨delete_addConf (bucketOf_of_hasMasks hmasks), rfl, by simp [htemp]⟩

end Placed

/-- **Undoing.** After any run, the K-line that `KLINE` places is removed by `UNKLINE` with the same
text, and no other one is, exactly if the text is neither cut nor written in another way, and no
temporary K-line with its masks is come to before. -/
theorem undo_iff {u : Setup} {ops : List Op} {s : State} (hrun : run (step u) start ops = some s)
    {source : Oper}
    {parv : List Str} {text : Str} (htext : parv[maskLoc parv]? = some text) {now : ℤ} {date : Str}
    {c : Conf} (hplaced : placed u s source parv now date = some c) {source' : Oper}
    (hunkline : source'.unkline = true) (name : Str) :
    Undone s (s.moKline u source parv now date)
        ((s.moKline u source parv now date).moUnkline u source' [name, text]) c ↔
      Undoable s (tklineTime parv) now text := by
  have hgood := Good.of_run hrun
  obtain ⟨q, hq, hc⟩ := bind_eq_some_iff.mp hplaced
  obtain ⟨hid, huser, hhost, htemp, hhold, hlocked⟩ := id_of_makeKline hc
  obtain ⟨hmask, htime⟩ := klineRequest_eq_some htext hq
  obtain ⟨user, host, hunmask, hcut, hwritten⟩ := findUserHost_eq_some hmask
  have hmasks : c.hasMasks user host = true ↔
      user.length ≤ userLen ∧ host.length ≤ hostLen ∧ mangleWildcardToCidr host = none := by
    rw [Conf.hasMasks, huser, hhost, hcut, hwritten, all_some, Bool.and_eq_true, irccmp_take,
      irccmp_lhost]
  have hundo : Undoable s (tklineTime parv) now text ↔ c.hasMasks user host = true ∧
      ∀ i : Temp, (c.temporary = true → i.index < (tempFor c.hold now).index) →
        ∀ d ∈ s.tempKlines i, d.hasMasks user host = false := by
    simp only [Undoable, hunmask, some.injEq, Prod.mk.injEq, htemp, hhold, htime, decide_eq_true_eq,
      hmasks]
    constructor
    · rintro ⟨_, _, ⟨rfl, rfl⟩, huser, hhost, hmangle, hlists⟩
      exact ⟨⟨huser, hhost, hmangle⟩, hlists⟩
    · rintro ⟨⟨huser, hhost, hmangle⟩, hlists⟩
      exact ⟨user, host, ⟨rfl, rfl⟩, huser, hhost, hmangle, hlists⟩
  have hun : ∀ s' : State, s'.moUnkline u source' [name, text] = s'.unkline source' user host := by
    intro s'
    simp [moUnkline, hunmask, hunkline]
  rw [hun, hundo, moKline, hq]
  dsimp only [setKline]
  rw [hc]
  dsimp only
  cases htemporary : c.temporary with
  | true =>
    rw [if_pos rfl, undone_temp hgood hid htemporary]
    simp
  | false =>
    rw [if_neg (by simp), undone_perm hgood hid htemporary (by simpa using hlocked)]
    simp

/-- An oper with every privilege. -/
def someOper : Oper := ⟨"oper".toList, true, true, true, true⟩

/-- The usual configuration. -/
def someSetup : Setup := ⟨"irc.example".toList, 4, true⟩

/-- The conf of `KLINE text :away`. -/
def away (user host : Str) : Conf where
  id := 0
  ban :=
    { user := some user
      host := host
      passwd := "away (today)".toList
      spasswd := none
      oper := "oper".toList }
  hold := 0
  temporary := false
  locked := false

/-- The arguments of `KLINE text :away`. -/
def awayParv (text : Str) : List Str := ["KLINE".toList, text, "away".toList]

theorem undo_small : Undone start
    (start.moKline someSetup someOper (awayParv "bob@example.net".toList) 0 "today".toList)
    ((start.moKline someSetup someOper (awayParv "bob@example.net".toList) 0
      "today".toList).moUnkline someSetup someOper ["UNKLINE".toList, "bob@example.net".toList])
      (away "bob".toList "example.net".toList) := by
  have hrun : run (step someSetup) start [] = some start := rfl
  refine (undo_iff hrun (by rfl) (by decide +kernel) (by rfl) _).mpr ?_
  exact ⟨"bob".toList,
    "example.net".toList, by decide +kernel, by decide, by decide, by decide +kernel,
      fun _ _ _ hd => nomatch hd⟩

/-- `KLINE *@1.2.*` places a K-line on `1.2.0.0/16`, and `UNKLINE *@1.2.*` removes nothing. -/
theorem kline_stays :
    placed someSetup start someOper (awayParv "*@1.2.*".toList) 0 "today".toList =
        some (away "*".toList "1.2.0.0/16".toList) ∧
      ¬Undone start (start.moKline someSetup someOper (awayParv "*@1.2.*".toList) 0 "today".toList)
        ((start.moKline someSetup someOper (awayParv "*@1.2.*".toList) 0 "today".toList).moUnkline
          someSetup someOper ["UNKLINE".toList, "*@1.2.*".toList])
          (away "*".toList "1.2.0.0/16".toList) := by
  refine ⟨by decide +kernel, fun h => ?_⟩
  have hlen := congrArg (fun t => (t.atable (bucketOf "1.2.0.0/16".toList)).length) h.atable
  revert hlen
  decide +kernel

end Ratbox.Kline
