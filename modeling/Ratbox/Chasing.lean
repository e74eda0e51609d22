import Mathlib.Data.Nat.Find
import Ratbox.Whowas

/-!
# Chasing a nick

A client that changed its nick a short time ago can be found by the old nick in the history. The
list of a nick has the newest entry in front, and the search begins at the other end: what it finds
is the oldest entry within the time limit, also if the client of this entry is gone and another one
had the nick later.

Source: `src/whowas.c`, lines 99–187, and `src/client.c`, lines 680–711.

## Main definitions

* `Whowas.findChasing`: `find_chasing`.
* `Whowas.Oldest`, `Whowas.Latest`: the oldest entry of a nick, and the latest one whose client is
  online.

## Main results

* `Whowas.Sorted.step`: newer entries stay in front.
* `Whowas.Tied.getHistory_eq`: the oldest entry is found.
* `Whowas.finds_oldest`: what is found in a run.
* `Whowas.chases_iff`: when the client that had the nick last is found.
-/

namespace Ratbox.Whowas

open Text Hash Nick List Option

/-- `KILLCHASETIMELIMIT`. -/
def killChaseTimeLimit : ℤ := 90

/-- `find_chasing`, with what `find_named_person` or `find_person` finds. -/
def findChasing (s : State) (who : Option Addr) (user : Str) (now : ℤ) : Option Addr :=
  if who ≠ none ∨ user.head?.any isDigit then who else getHistory s user killChaseTimeLimit now

section Entries

variable (s : State) (nick : Str) (timelimit now : ℤ)

/-- An entry of the nick within the time limit. Entries are allocated one after the other, so that a
newer one has a higher address. -/
def Within (e : ℕ) (w : Who) : Prop :=
  s.who e = some w ∧ irccmp nick w.name = true ∧ now - timelimit ≤ w.logoff

/-- The oldest entry of the nick within the time limit. -/
def Oldest (e : ℕ) (w : Who) : Prop :=
  Within s nick timelimit now e w ∧ ∀ e' w', Within s nick timelimit now e' w' → e ≤ e'

/-- The latest entry of the nick within the time limit whose client is online. -/
def Latest (e : ℕ) (w : Who) : Prop :=
  (Within s nick timelimit now e w ∧ w.online ≠ none) ∧
    ∀ e' w', Within s nick timelimit now e' w' → w'.online ≠ none → e' ≤ e

/-- The client that had the nick last is found. -/
def HitsLast (found : Option Addr) : Prop :=
  (∀ c, found = some c ↔ ∃ e w, Latest s nick timelimit now e w ∧ w.online = some c) ∧
    (found = none ↔ ¬∃ e w, Latest s nick timelimit now e w)

/-- The oldest entry is one of the same client as the latest entry whose client is online. -/
def SameClient : Prop :=
  ∀ e w e' w', Oldest s nick timelimit now e w → Latest s nick timelimit now e' w' →
    w.online = w'.online

end Entries

/-! ### Newer entries are in front -/

/-- In the list of a nick, newer entries are in front of older ones. -/
def Sorted (s : State) : Prop :=
  ∀ t p, s.wtop t = some p → p.wwlist.Pairwise (· > ·) ∧ ∀ e ∈ p.wwlist, e < s.fresh

section Sorted

variable {s s' : State} {e t n : ℕ} {p : Wtop} {c : Addr} {now : ℤ}

theorem Sorted.congr (h : Sorted s) (hwtop : s'.wtop = s.wtop) (hfresh : s'.fresh = s.fresh) :
    Sorted s' := by
  rw [Sorted, hwtop, hfresh]
  exact h

/-- The list of a nick is written. -/
theorem Sorted.update (h : Sorted s) {o : Option Wtop} (hfresh : s.fresh ≤ s'.fresh)
    (hwtop : s'.wtop = Function.update s.wtop t o)
    (ho : ∀ p, o = some p → p.wwlist.Pairwise (· > ·) ∧ ∀ e ∈ p.wwlist, e < s'.fresh) :
    Sorted s' := by
  intro t' p' hp'
  rw [hwtop] at hp'
  obtain ⟨-, hp'⟩ | ⟨-, hp'⟩ := update_eq_some.mp hp'
  · exact ho p' hp'
  · exact ⟨(h t' p' hp').1, fun e he => ((h t' p' hp').2 e he).trans_le hfresh⟩

theorem dropClist_wtop (hs : dropClist s c e = some s') :
    s'.wtop = s.wtop ∧ s'.fresh = s.fresh := by
  obtain ⟨client, -, hs⟩ := bind_eq_some_iff.mp hs
  obtain ⟨clist, -, rfl⟩ := map_eq_some_iff.mp hs
  exact ⟨rfl, rfl⟩

section

variable (h : Sorted s)
include h

theorem Sorted.dropWwlist (hs : dropWwlist s t e = some s') : Sorted s' := by
  obtain ⟨p, hp, hs⟩ := bind_eq_some_iff.mp hs
  obtain ⟨wwlist, hwwlist, rfl⟩ := map_eq_some_iff.mp hs
  refine h.update le_rfl rfl fun p' hp' => ?_
  cases hp'
  rw [unlink] at hwwlist
  split_ifs at hwwlist
  cases hwwlist
  exact ⟨(h t p hp).1.sublist erase_sublist, fun x hx => (h t p hp).2 x (mem_of_mem_erase hx)⟩

theorem Sorted.freeWtop (hs : freeWtop s t = some s') : Sorted s' := by
  obtain ⟨p, -, hs⟩ := bind_eq_some_iff.mp hs
  split_ifs at hs
  · obtain ⟨table, -, rfl⟩ := map_eq_some_iff.mp hs
    exact h.update le_rfl rfl (by simp)
  · exact some.inj hs ▸ h

theorem Sorted.trimOne (hs : trimOne s = some s') : Sorted s' := by
  rw [Whowas.trimOne] at hs
  split at hs
  · exact some.inj hs ▸ h
  · obtain ⟨twho, -, hs⟩ := bind_eq_some_iff.mp hs
    obtain ⟨s₁, hs₁, hs⟩ := bind_eq_some_iff.mp hs
    obtain ⟨s₂, hs₂, hs⟩ := bind_eq_some_iff.mp hs
    obtain ⟨s₃, hs₃, hs⟩ := bind_eq_some_iff.mp hs
    obtain ⟨s₄, hs₄, rfl⟩ := map_eq_some_iff.mp hs
    have h₁ : Sorted s₁ := by
      split at hs₁
      · exact some.inj hs₁ ▸ h
      · exact h.congr (dropClist_wtop hs₁).1 (dropClist_wtop hs₁).2
    obtain ⟨whowasList, -, rfl⟩ := map_eq_some_iff.mp hs₃
    have h₃ : Sorted { s₂ with whowasList := whowasList } := (h₁.dropWwlist hs₂).congr rfl rfl
    exact (h₃.freeWtop hs₄).congr rfl rfl

theorem Sorted.trimLoop (hs : trimLoop n s = some s') : Sorted s' := by
  induction n generalizing s with
  | zero => exact some.inj hs ▸ h
  | succ n ih =>
    obtain ⟨s₁, hs₁, hs⟩ := bind_eq_some_iff.mp hs
    exact ih (h.trimOne hs₁) hs

theorem Sorted.trim (hs : trim s = some s') : Sorted s' := by
  rw [Whowas.trim] at hs
  split_ifs at hs
  · exact some.inj hs ▸ h
  · exact h.trimLoop hs

theorem Sorted.getTop (name : Str) : Sorted (getTop s name).2 := by
  rw [Whowas.getTop]
  split
  · exact h
  · refine h.update (Nat.le_succ _) rfl fun p hp => ?_
    cases hp
    exact ⟨.nil, by simp⟩

/-- A new entry is in front of the others. -/
theorem Sorted.addHistory {online : Bool} (hs : addHistory s c online now = some s') :
    Sorted s' := by
  obtain ⟨s₁, hs₁, hs⟩ := bind_eq_some_iff.mp hs
  obtain ⟨client, -, hs⟩ := bind_eq_some_iff.mp hs
  obtain ⟨p, hp, rfl⟩ := map_eq_some_iff.mp hs
  have h₁ : Sorted s₁ := by
    split_ifs at hs₁
    · exact h.trim hs₁
    · exact some.inj hs₁ ▸ h
  have htop := h₁.getTop client.user.name
  refine htop.update (Nat.le_succ _) rfl fun p' hp' => ?_
  cases hp'
  refine ⟨pairwise_cons.mpr ⟨(htop _ p hp).2, (htop _ p hp).1⟩, forall_mem_cons.mpr
    ⟨Nat.lt_succ_self _, ?_⟩⟩
  exact fun e he => ((htop _ p hp).2 e he).trans (Nat.lt_succ_self _)

theorem Sorted.offLoop {es : List ℕ} (hs : offLoop c es s = some s') : Sorted s' := by
  induction es generalizing s with
  | nil => exact some.inj hs ▸ h
  | cons e es ih =>
    obtain ⟨who, -, hs⟩ := bind_eq_some_iff.mp hs
    obtain ⟨s₁, hs₁, hs⟩ := bind_eq_some_iff.mp hs
    exact ih (h.congr (dropClist_wtop hs₁).1 (dropClist_wtop hs₁).2) hs

theorem Sorted.offHistory (hs : offHistory s c = some s') : Sorted s' := by
  obtain ⟨client, -, hs⟩ := bind_eq_some_iff.mp hs
  exact h.offLoop hs

/-- **A step.** -/
theorem Sorted.step {op : Op} (hs : step s op = some s') : Sorted s' := by
  cases op with
  | introduce c user =>
    rw [Whowas.step] at hs
    split_ifs at hs
    exact some.inj hs ▸ h.congr rfl rfl
  | change c user =>
    obtain ⟨client, -, rfl⟩ := map_eq_some_iff.mp hs
    exact h.congr rfl rfl
  | add c online now => exact h.addHistory hs
  | off c => exact h.offHistory hs
  | exit c now =>
    obtain ⟨s₁, hs₁, hs⟩ := bind_eq_some_iff.mp hs
    obtain ⟨s₂, hs₂, rfl⟩ := map_eq_some_iff.mp hs
    exact ((h.addHistory hs₁).offHistory hs₂).congr rfl rfl
  | trim => exact h.trim hs
  | setSize len =>
    have hsize : Sorted { s with size := (len % 2 ^ 32).toNat } := h.congr rfl rfl
    exact hsize.trim hs

end

theorem sorted_init : Sorted State.init := nofun

end Sorted

/-! ### What is found -/

section Found

variable {s : State} {nick : Str} {timelimit now : ℤ} {e t : ℕ} {w : Who} {p : Wtop}

/-- The entries of the nick are on its list. -/
theorem Tied.within_iff (h : Tied s) (ht : findTop s nick = some t) (hp : s.wtop t = some p) :
    Within s nick timelimit now e w ↔ e ∈ p.wwlist ∧ s.who e = some w ∧
    now - timelimit ≤ w.logoff := by
  have hname : nick ≠ [] := by
    rintro rfl
    simp [findTop, hashFind] at ht
  obtain ⟨p', hp', hnick⟩ := (h.findTop_eq_some_iff hname).mp ht
  cases hp.symm.trans hp'
  rw [Within, (h.wwlist t p hp).mem_iff]
  constructor
  · rintro ⟨hw, hsame, hlimit⟩
    obtain ⟨q, hq, hqname⟩ := h.top e w hw
    have hfound := (h.findTop_eq_some_iff hname).mpr
      ⟨q, hq, irccmp_trans hsame (irccmp_symm hqname)⟩
    exact ⟨⟨w, hw, some.inj (hfound.symm.trans ht)⟩, hw, hlimit⟩
  · rintro ⟨⟨w', hw', rfl⟩, hw, hlimit⟩
    cases hw.symm.trans hw'
    obtain ⟨q, hq, hqname⟩ := h.top e w hw
    cases hp.symm.trans hq
    exact ⟨hw, irccmp_trans hnick hqname, hlimit⟩

/-- The nick has no entry if its list is not found. -/
theorem Tied.not_within (h : Tied s) (ht : findTop s nick = none) :
    ¬Within s nick timelimit now e w := by
  rintro ⟨hw, hsame, -⟩
  obtain ⟨q, hq, hqname⟩ := h.top e w hw
  have hname : nick ≠ [] := by
    rintro rfl
    obtain ⟨-, hne⟩ := h.indexes.data w.wtop q.hnode (by rw [State.node, Function.comp_apply, hq,
      map_some])
    rw [h.key _ q hq] at hne
    exact hne ((eq_nil_iff_of_irccmp hqname).mpr ((eq_nil_iff_of_irccmp hsame).mp rfl))
  have hfound := (h.findTop_eq_some_iff hname).mpr ⟨q, hq, irccmp_trans hsame (irccmp_symm hqname)⟩
  rw [ht] at hfound
  cases hfound

/-- **The oldest entry is found**, or there is none. -/
theorem Tied.getHistory_eq (h : Tied s) (hsorted : Sorted s) (nick : Str) (timelimit now : ℤ) :
    (∃ e w, Oldest s nick timelimit now e w ∧ Whowas.getHistory s nick timelimit now = w.online) ∨
      (∀ e w, ¬Within s nick timelimit now e w) ∧ Whowas.getHistory s nick timelimit now =
      none := by
  rw [Whowas.getHistory]
  cases ht : findTop s nick with
  | none => exact .inr ⟨fun e w => h.not_within ht, rfl⟩
  | some t =>
    have hname : nick ≠ [] := by
      rintro rfl
      simp [findTop, hashFind] at ht
    obtain ⟨p, hp, -⟩ := (h.findTop_eq_some_iff hname).mp ht
    rw [bind_some, hp, bind_some, find?_filterMap]
    have hany : ∀ e, (s.who e).any (fun who => decide (now - timelimit ≤ who.logoff)) = true ↔
        ∃ w, s.who e = some w ∧ now - timelimit ≤ w.logoff := by simp [Option.any_eq_true]
    cases hfind : p.wwlist.reverse.find? fun e => (s.who e).any fun who => decide (now - timelimit ≤
      who.logoff) with
    | none =>
      refine .inr ⟨fun e w hw => ?_, rfl⟩
      obtain ⟨hmem, hwho⟩ := (h.within_iff ht hp).mp hw
      exact find?_eq_none.mp hfind e (mem_reverse.mpr hmem) ((hany e).mpr ⟨w, hwho⟩)
    | some e =>
      obtain ⟨hgood, older, newer, heq, holder⟩ := find?_eq_some_iff_append.mp hfind
      obtain ⟨w, hw, hlimit⟩ := (hany e).mp hgood
      have hmem : ∀ x, x ∈ p.wwlist ↔ x ∈ older ∨ x = e ∨ x ∈ newer := fun x => by
        rw [← mem_reverse, heq, mem_append, mem_cons]
      refine .inl ⟨e, w, ⟨(h.within_iff ht hp).mpr ⟨(hmem e).mpr (.inr (.inl rfl)), hw, hlimit⟩,
        ?_⟩, ?_⟩
      · intro e' w' hw'
        obtain ⟨hmem', hwho'⟩ := (h.within_iff ht hp).mp hw'
        obtain holder' | rfl | hnewer := (hmem e').mp hmem'
        · exact absurd ((hany e').mpr ⟨w', hwho'⟩) (by simpa using holder e' holder')
        · exact le_rfl
        · have hascending := pairwise_reverse.mpr (hsorted t p hp).1
          rw [heq, pairwise_append, pairwise_cons] at hascending
          exact (hascending.2.1.1 e' hnewer).le
      · rw [bind_some, hw, bind_some]

theorem Latest.unique {e' : ℕ} {w' : Who} (h : Latest s nick timelimit now e w)
    (h' : Latest s nick timelimit now e' w') :
    w = w' := by
  have heq : e = e' := le_antisymm (h'.2 e w h.1.1 h.1.2) (h.2 e' w' h'.1.1 h'.1.2)
  subst heq
  exact some.inj (h.1.1.1.symm.trans h'.1.1.1)

theorem Oldest.unique {e' : ℕ} {w' : Who} (h : Oldest s nick timelimit now e w)
    (h' : Oldest s nick timelimit now e' w') :
    w = w' := by
  have heq : e = e' := le_antisymm (h.2 e' w' h'.1) (h'.2 e w h.1)
  subst heq
  exact some.inj (h.1.1.symm.trans h'.1.1)

/-- If there is an entry whose client is online, there is a latest one. -/
theorem Tied.exists_latest (h : Tied s) (hw : Within s nick timelimit now e w)
    (honline : w.online ≠ none) :
    ∃ e w, Latest s nick timelimit now e w := by
  classical
  have hfresh : ∀ e w, Within s nick timelimit now e w → e ≤ s.fresh := by
    intro e w hw
    by_contra hlt
    have hnone := (h.fresh e (not_le.mp hlt).le).2
    rw [hw.1] at hnone
    cases hnone
  obtain ⟨w', hlatest⟩ := Nat.findGreatest_spec (P := fun e => ∃ w, Within s nick timelimit now e
    w ∧ w.online ≠ none) (hfresh e w hw) ⟨w, hw, honline⟩
  exact ⟨_, w', hlatest, fun e' w' hw' honline' => Nat.le_findGreatest (hfresh e' w' hw')
    ⟨w', hw', honline'⟩⟩

/-- **The client that had the nick last** is found if the oldest entry is one of the same client. -/
theorem Tied.hitsLast_iff (h : Tied s) (hsorted : Sorted s) (nick : Str) (timelimit now : ℤ) :
    HitsLast s nick timelimit now (Whowas.getHistory s nick timelimit now) ↔
    SameClient s nick timelimit now := by
  obtain ⟨e, w, holdest, hfound⟩ | ⟨hnone, hfound⟩ := h.getHistory_eq hsorted nick timelimit now
  · rw [hfound]
    constructor
    · intro hits e₁ w₁ e₂ w₂ hold hlatest
      obtain ⟨c, hc⟩ := ne_none_iff_exists'.mp hlatest.1.2
      rw [hold.unique holdest, hc]
      exact (hits.1 c).mpr ⟨e₂, w₂, hlatest, hc⟩
    · intro hsame
      by_cases honline : w.online = none
      · have hno : ¬∃ e w, Latest s nick timelimit now e w := fun ⟨e', w', hlatest⟩ =>
          hlatest.1.2 ((hsame e w e' w' holdest hlatest).symm.trans honline)
        refine ⟨fun c => ?_, iff_of_true honline hno⟩
        rw [honline]
        exact iff_of_false (by simp) fun ⟨e', w', hlatest, _⟩ => hno ⟨e', w', hlatest⟩
      · obtain ⟨e', w', hlatest⟩ := h.exists_latest holdest.1 honline
        rw [hsame e w e' w' holdest hlatest]
        refine ⟨fun c => ⟨fun hc => ⟨e', w', hlatest, hc⟩, fun ⟨e₂, w₂, hlatest₂, hc⟩ => ?_⟩,
          iff_of_false hlatest.1.2 fun hno => hno ⟨e', w', hlatest⟩⟩
        rw [hlatest.unique hlatest₂, hc]
  · have hno : ¬∃ e w, Latest s nick timelimit now e w :=
      fun ⟨e, w, hlatest⟩ => hnone e w hlatest.1.1
    rw [hfound]
    refine iff_of_true ⟨fun c => iff_of_false (by simp) ?_, iff_of_true rfl hno⟩ fun e w _ _ hold =>
      absurd hold.1 (hnone e w)
    exact fun ⟨e, w, hlatest, _⟩ => hno ⟨e, w, hlatest⟩

end Found

/-- **What a lookup finds.** In all runs it is what the oldest entry of the nick within the time
limit says of its client, and a client that is found exists. -/
theorem finds_oldest (ops : List Op)
    (hops : Run.StepsMeet step (fun s op => op.Live s) State.init ops) :
    ∃ s, Run.run step State.init ops = some s ∧ ∀ nick timelimit now,
      ((∃ e w, Oldest s nick timelimit now e w ∧ getHistory s nick timelimit now = w.online) ∨
        (∀ e w, ¬Within s nick timelimit now e w) ∧ getHistory s nick timelimit now = none) ∧
      ∀ c, getHistory s nick timelimit now = some c → s.client c ≠ none := by
  obtain ⟨s, hrun, hkept, hsorted⟩ := Run.progress (fun s => Kept s ∧ Sorted s)
    (fun s op h hop => (h.1.step hop).imp fun s' h' => ⟨h'.1, h'.2, h.2.step h'.1⟩) ⟨kept_init,
      sorted_init⟩ hops
  refine ⟨s, hrun, fun nick timelimit now => ⟨hkept.1.tied.getHistory_eq hsorted nick timelimit now,
    fun c hfound => ?_⟩⟩
  obtain ⟨-, -, -, -, -, -, r, hr⟩ := hkept.1.tied.getHistory hfound
  exact hr ▸ some_ne_none r

theorem finds_oldest_small : ∃ s, Run.run step State.init
    [.introduce 1 (userOf ['a'] (by decide)), .add 1 true 10] = some s ∧
      getHistory s ['A'] 90 20 = some 1 ∧ s.client 1 ≠ none := by
  obtain ⟨s, hrun, hall⟩ := finds_oldest [.introduce 1 (userOf ['a'] (by decide)), .add 1 true 10]
    ⟨rfl, fun _ hs => ⟨some.inj hs ▸ some_ne_none _, fun _ _ => trivial⟩⟩
  cases hrun
  exact ⟨_, rfl, rfl, (hall ['A'] 90 20).2 1 rfl⟩

/-- **Chasing.** In all runs whose operations are made with clients that exist, the client that had
the nick last is found if and only if the oldest entry within the time limit is one of this client;
so it is for what a command follows. -/
theorem chases_iff (ops : List Op)
    (hops : Run.StepsMeet step (fun s op => op.Live s) State.init ops) :
    ∃ s, Run.run step State.init ops = some s ∧ ∀ nick now,
      (∀ timelimit, HitsLast s nick timelimit now (getHistory s nick timelimit now) ↔
        SameClient s nick timelimit now) ∧
      (nick.head?.any isDigit = false →
        (HitsLast s nick killChaseTimeLimit now (findChasing s none nick now) ↔
          SameClient s nick killChaseTimeLimit now)) := by
  obtain ⟨s, hrun, hkept, hsorted⟩ := Run.progress (fun s => Kept s ∧ Sorted s)
    (fun s op h hop => by
      obtain ⟨s', hs', hkept⟩ := h.1.step hop
      exact ⟨s', hs', hkept, h.2.step hs'⟩) ⟨kept_init, sorted_init⟩ hops
  refine ⟨s, hrun, fun nick now => ⟨fun timelimit => hkept.1.tied.hitsLast_iff hsorted nick
    timelimit now, fun hdigit => ?_⟩⟩
  rw [findChasing, if_neg (by simp [hdigit])]
  exact hkept.1.tied.hitsLast_iff hsorted nick killChaseTimeLimit now

/-- Two clients have a nick one after the other, and the first one exits. -/
def twoUsers : List Op :=
  [.introduce 1 (userOf ['a'] (by decide)), .add 1 true 10, .change 1 (userOf ['b'] (by decide)),
    .introduce 2 (userOf ['a'] (by decide)), .add 2 true 200, .exit 1 210]

theorem chases_small : ∃ s, Run.run step State.init twoUsers = some s ∧
    (HitsLast s ['A'] 90 220 (getHistory s ['A'] 90 220) ↔ SameClient s ['A'] 90 220) := by
  have hops : Run.StepsMeet step (fun s op => op.Live s) State.init twoUsers := by
    refine ⟨rfl, fun s hs => ?_⟩
    cases hs
    refine ⟨some_ne_none _, fun s hs => ?_⟩
    cases hs
    refine ⟨some_ne_none _, fun s hs => ?_⟩
    cases hs
    refine ⟨rfl, fun s hs => ?_⟩
    cases hs
    refine ⟨some_ne_none _, fun s hs => ?_⟩
    cases hs
    exact ⟨some_ne_none _, fun _ _ => trivial⟩
  obtain ⟨s, hrun, hall⟩ := chases_iff _ hops
  exact ⟨s, hrun, (hall ['A'] 220).1 90⟩

/-- Two clients had the nick within the time limit: the one that had it first is found. If it has
exited, nobody is. -/
theorem chases_wrong :
    (∃ s, Run.run step State.init
      [.introduce 1 (userOf ['a'] (by decide)), .add 1 true 10,
        .change 1 (userOf ['b'] (by decide)),
        .introduce 2 (userOf ['a'] (by decide)), .add 2 true 20,
        .change 2 (userOf ['c'] (by decide))] = some s ∧
      getHistory s ['a'] 90 25 = some 1 ∧ ¬HitsLast s ['a'] 90 25 (getHistory s ['a'] 90 25)) ∧
    ∃ s, Run.run step State.init
      [.introduce 1 (userOf ['a'] (by decide)), .exit 1 10, .introduce 2 (userOf ['a'] (by decide)),
        .add 2 true 20, .change 2 (userOf ['c'] (by decide))] = some s ∧
      getHistory s ['a'] 90 25 = none ∧ ¬HitsLast s ['a'] 90 25 (getHistory s ['a'] 90 25) := by
  refine ⟨⟨_, rfl, rfl, fun hits => ?_⟩, _, rfl, rfl, fun hits => ?_⟩
  · -- the entries are at the addresses 1 and 2
    obtain ⟨e, w, hlatest, hc⟩ := (hits.1 1).mp rfl
    have hle : 2 ≤ e := hlatest.2 2 _ ⟨rfl, by decide, by decide⟩ (by decide)
    obtain ⟨rfl, hq⟩ | ⟨hne, hw⟩ := update_eq_some.mp hlatest.1.1.1
    · rw [← some.inj hq] at hc
      cases hc
    · obtain ⟨rfl, -⟩ | ⟨-, hw⟩ := update_eq_some.mp hw
      · exact absurd hle (by decide)
      · exact absurd (show none = some w from hw) (by simp)
  · refine hits.2.mp rfl ⟨2, _, ⟨⟨rfl, by decide, by decide⟩, by decide⟩, fun e w hw honline => ?_⟩
    obtain ⟨rfl, -⟩ | ⟨-, hw⟩ := update_eq_some.mp hw.1
    · exact le_rfl
    · obtain ⟨rfl, -⟩ | ⟨-, hw⟩ := update_eq_some.mp hw
      · decide
      · exact absurd (show none = some w from hw) (by simp)

end Ratbox.Whowas
