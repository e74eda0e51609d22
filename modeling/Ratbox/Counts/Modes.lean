import Ratbox.Counts.Basic
import Ratbox.Lib.Tally

/-!
# How modes change the numbers

Every change of a mode, every registration and every exit changes the numbers by what the client
counts then, less what it counted before. The operators are counted where the mode changes, and the
invisible users at the end, from the modes that there were at first.

Source: `src/s_user.c`, lines 682–860, `modules/core/m_nick.c`, lines 1149–1192, `modules/m_oper.c`,
lines 235–280, and `src/client.c`, lines 575–600.

## Main definitions

* `Counts.Counted`: the numbers are those of the users that have registered.
* `Counts.Moves`: the numbers change with a client.

## Main results

* `Counts.Counted.update`: the numbers stay right when they change with a client.
* `Counts.userMode_moves`, `Counts.operUp_moves`, `Counts.updateClientExitStats_moves`,
  `Counts.introducedModes_moves`: the numbers change with the modes, and with the clients that come
  and go.
-/

namespace Ratbox.Counts

open Text Flags Tally Client

/-! ### What the numbers should be -/

/-- A user that has registered and is no service. -/
abbrev Client.Registered (c : Client) : Prop := c.IsClient ∧ c.fake = false ∧ c.closing = false

/-- The numbers are those of the users that have registered, of the invisible ones and of the
operators. -/
structure Counted (s : State) : Prop where
  total : s.count.total = tally s.client Registered
  invisi : s.count.invisi = tally s.client fun c => c.Registered ∧ c.IsInvisible
  oper : s.count.oper = tally s.client fun c => c.Registered ∧ c.IsOper

/-- The numbers change with what there is of a client, before and then. -/
structure Moves (o o' : Option Client) (n n' : Counter) : Prop where
  total : n'.total = n.total - weight Registered o + weight Registered o'
  invisi : n'.invisi = n.invisi - weight (fun c => c.Registered ∧ c.IsInvisible) o +
    weight (fun c => c.Registered ∧ c.IsInvisible) o'
  oper : n'.oper = n.oper - weight (fun c => c.Registered ∧ c.IsOper) o +
    weight (fun c => c.Registered ∧ c.IsOper) o'

/-- The numbers change with a client. -/
theorem Counted.update {s : State} (h : Counted s) (hf : {p | (s.client p).isSome}.Finite) {p : ℕ}
    {o : Option Client} {n : Counter} (hmoves : Moves (s.client p) o s.count n) (l : List ℕ)
    (conf : Conf) :
    Counted ⟨Function.update s.client p o, l, n, conf⟩ where
  total := by rw [tally_update hf, ← h.total, hmoves.total]
  invisi := by rw [tally_update hf, ← h.invisi, hmoves.invisi]
  oper := by rw [tally_update hf, ← h.oper, hmoves.oper]

/-- What a condition counts. -/
def one (P : Prop) [Decidable P] : ℤ := if P then 1 else 0

theorem one_of {P : Prop} [Decidable P] (h : P) : one P = 1 := if_pos h

theorem one_of_not {P : Prop} [Decidable P] (h : ¬P) : one P = 0 := if_neg h

theorem one_congr {P Q : Prop} [Decidable P] [Decidable Q] (h : P ↔ Q) : one P = one Q :=
  if_congr h rfl rfl

section Weights

variable {c c' : Client} {n n' : Counter} {P : Client → Prop} {o : Option Client}

theorem weight_registered (hc : c.Registered) [DecidablePred P] :
    weight (fun c => c.Registered ∧ P c) (some c) = one (P c) := by
  rw [weight, one]
  exact if_congr (and_iff_right hc) rfl rfl

theorem weight_of_not (hc : ¬c.Registered) [DecidablePred P] :
    weight (fun c => c.Registered ∧ P c) (some c) = 0 :=
  if_neg fun h => hc h.1

/-- The modes of a user change. -/
theorem Moves.of_registered (hc : c.Registered) (hc' : c'.Registered) (htotal : n'.total = n.total)
    (hinvisi : n'.invisi - one c'.IsInvisible = n.invisi - one c.IsInvisible)
    (hoper : n'.oper - one c'.IsOper = n.oper - one c.IsOper) : Moves (some c) (some c') n n' where
  total := by rw [htotal, weight, weight, if_pos hc, if_pos hc', sub_add_cancel]
  invisi := by
    rw [weight_registered hc, weight_registered hc']
    omega
  oper := by
    rw [weight_registered hc, weight_registered hc']
    omega

/-- What counts nothing. -/
def Idle (o : Option Client) : Prop := ∀ c, o = some c → ¬c.Registered

theorem idle_none : Idle none := fun _ h => nomatch h

theorem idle_some (hc : ¬c.Registered) : Idle (some c) := fun _ h => Option.some.inj h ▸ hc

theorem Idle.weight_eq (ho : Idle o) : weight Registered o = 0 := by
  cases o with
  | none => rfl
  | some c => exact if_neg (ho c rfl)

theorem Idle.weight_and_eq (ho : Idle o) [DecidablePred P] :
    weight (fun c => c.Registered ∧ P c) o = 0 := by
  cases o with
  | none => rfl
  | some c => exact weight_of_not (ho c rfl)

/-- What counts nothing becomes something else that counts nothing. -/
theorem Moves.idle {o' : Option Client} (ho : Idle o) (ho' : Idle o') : Moves o o' n n where
  total := by rw [ho.weight_eq, ho'.weight_eq, sub_zero, add_zero]
  invisi := by rw [ho.weight_and_eq, ho'.weight_and_eq, sub_zero, add_zero]
  oper := by rw [ho.weight_and_eq, ho'.weight_and_eq, sub_zero, add_zero]

/-- A user registers. -/
theorem Moves.register (ho : Idle o) (hc' : c'.Registered) (htotal : n'.total = n.total + 1)
    (hinvisi : n'.invisi = n.invisi + one c'.IsInvisible)
    (hoper : n'.oper = n.oper + one c'.IsOper) :
    Moves o (some c') n n' where
  total := by rw [ho.weight_eq, weight, if_pos hc', htotal, sub_zero]
  invisi := by rw [ho.weight_and_eq, weight_registered hc', hinvisi, sub_zero]
  oper := by rw [ho.weight_and_eq, weight_registered hc', hoper, sub_zero]

end Weights

/-! ### Flags -/

theorem isFlag_umodeOper : IsFlag umodeOper := ⟨20, by omega, by decide⟩

theorem isFlag_umodeInvisible : IsFlag umodeInvisible := ⟨10, by omega, by decide⟩

/-- Only the letter `o` stands for operators. -/
theorem not_has_userModeBitmask {services : Bool} {c : Char} (hc : c ≠ 'o') :
    ¬Has (userModeBitmask services c) umodeOper := by
  unfold userModeBitmask
  split <;> first
    | exact absurd rfl hc
    | decide
    | split <;> decide

namespace Client

variable (c : Client) (flag : BitVec 32)

/-- What the modes do not change. -/
def kind : Status × Bool × Bool × Bool := (c.status, c.fake, c.myConnect, c.closing)

variable {c} {c' : Client}

theorem kind_eq_iff :
    c'.kind = c.kind ↔ c'.status = c.status ∧ c'.fake = c.fake ∧ c'.myConnect = c.myConnect ∧
    c'.closing = c.closing := by
  rw [kind, kind, Prod.mk.injEq, Prod.mk.injEq, Prod.mk.injEq]

theorem Registered.of_kind (hc : c.Registered) (h : c'.kind = c.kind) : c'.Registered := by
  obtain ⟨hstatus, hfake, -, hclosing⟩ := kind_eq_iff.mp h
  exact ⟨hstatus.trans hc.1, hfake.trans hc.2.1, hclosing.trans hc.2.2⟩

@[simp] theorem kind_setOper : c.setOper.kind = c.kind := rfl

@[simp]
theorem isOper_addUmodes : (c.addUmodes flag).IsOper ↔ c.IsOper ∨ Has flag umodeOper :=
  isFlag_umodeOper.has_or

@[simp]
theorem isOper_clearUmodes : (c.clearUmodes flag).IsOper ↔ c.IsOper ∧ ¬Has flag umodeOper :=
  isFlag_umodeOper.has_clear

@[simp]
theorem isOper_setOper : c.setOper.IsOper := isFlag_umodeOper.has_or.mpr (.inr (by decide))

@[simp]
theorem not_isOper_clearOper : ¬c.clearOper.IsOper :=
  fun h => (isFlag_umodeOper.has_clear.mp h).2 (by decide)

@[simp]
theorem isInvisible_addUmodes :
    (c.addUmodes flag).IsInvisible ↔ c.IsInvisible ∨ Has flag umodeInvisible :=
  isFlag_umodeInvisible.has_or

end Client

/-! ### The letters -/

/-- The modes of a client change, and the numbers are followed up as far as `Count.oper` goes. -/
structure Follows (c c' : Client) (n n' : Counter) : Prop where
  kind : c'.kind = c.kind
  total : n'.total = n.total
  invisi : n'.invisi = n.invisi
  oper : n'.oper - one c'.IsOper = n.oper - one c.IsOper

namespace Follows

variable {c c' c'' : Client} {n n' n'' : Counter}

theorem refl (c : Client) (n : Counter) : Follows c c n n := ⟨rfl, rfl, rfl, rfl⟩

theorem trans (h : Follows c c' n n') (h' : Follows c' c'' n' n'') : Follows c c'' n n'' :=
  ⟨h'.kind.trans h.kind, h'.total.trans h.total, h'.invisi.trans h.invisi, h'.oper.trans h.oper⟩

/-- A change that leaves an operator one. -/
theorem of_isOper_iff (hkind : c'.kind = c.kind) (h : c'.IsOper ↔ c.IsOper) : Follows c c' n n :=
  ⟨hkind, rfl, rfl, by rw [one_congr h]⟩

/-- An operator more. -/
theorem gain (hkind : c'.kind = c.kind) (h : ¬c.IsOper) (h' : c'.IsOper) :
    Follows c c' n { n with oper := n.oper + 1 } :=
  ⟨hkind, rfl, rfl, by rw [one_of h', one_of_not h, add_sub_cancel_right, sub_zero]⟩

/-- An operator less. -/
theorem lose (hkind : c'.kind = c.kind) (h : c.IsOper) (h' : ¬c'.IsOper) :
    Follows c c' n { n with oper := n.oper - 1 } :=
  ⟨hkind, rfl, rfl, by rw [one_of h, one_of_not h', sub_zero]⟩

end Follows

namespace Letters

variable {conf : Conf} {services : Bool} {l l' : Letters}

/-- The numbers are followed up over some letters. -/
abbrev Keeps (l l' : Letters) : Prop := Follows l.client l'.client l.count l'.count

theorem keeps_plusOper : l.Keeps l.plusOper := by
  rw [plusOper]
  split_ifs with h
  · exact .gain (kind_setOper) h.2 isOper_setOper
  · exact .refl _ _

theorem keeps_minusOper : l.Keeps (l.minusOper conf) := by
  rw [minusOper]
  by_cases h : l.client.IsOper
  · rw [if_neg (not_not_intro h)]
    refine .lose ?_ h ?_
    · dsimp only
      split_ifs <;> rfl
    · dsimp only
      split_ifs
      · exact fun hoper => not_isOper_clearOper ((isOper_clearUmodes _).mp hoper).1
      · exact not_isOper_clearOper
  · rw [if_pos h]
    exact .refl _ _

theorem keeps_other {flag : BitVec 32} (hflag : ¬Has flag umodeOper) :
    l.Keeps (l.other conf flag) := by
  have hadd : (l.client.addUmodes flag).IsOper ↔ l.client.IsOper :=
    (isOper_addUmodes flag).trans (or_iff_left hflag)
  have hclear : (l.client.clearUmodes flag).IsOper ↔ l.client.IsOper :=
    (isOper_clearUmodes flag).trans (and_iff_left hflag)
  rw [other]
  split_ifs
  · exact .refl _ _
  · exact .of_isOper_iff rfl hadd
  · exact .of_isOper_iff rfl hclear
  · exact .refl _ _
  · exact .refl _ _

/-- A letter. -/
theorem keeps_letter (c : Char) : l.Keeps (l.letter conf services c) := by
  unfold letter
  split
  · exact .refl _ _
  · exact .refl _ _
  · split_ifs
    · exact keeps_plusOper
    · exact keeps_minusOper
  · split_ifs
    · exact .refl _ _
    · exact keeps_other (not_has_userModeBitmask (by decide))
  · exact .refl _ _
  · exact .refl _ _
  · exact .refl _ _
  · exact .refl _ _
  · rename_i hoper _ _ _ _ _
    exact keeps_other (not_has_userModeBitmask hoper)

/-- All letters. -/
theorem keeps_letters (conf : Conf) (services : Bool) (l : Letters) (s : Str) :
    l.Keeps (s.foldl (letter conf services) l) := by
  induction s generalizing l with
  | nil => exact .refl _ _
  | cons c s ih => exact (keeps_letter c).trans (ih _)

end Letters

/-! ### The functions -/

section Functions

variable {conf : Conf} {c c' : Client} {n n' : Counter}

/-- Modes that are not those of operators are taken away. -/
theorem follows_clearUmodes {flag : BitVec 32} (hflag : ¬Has flag umodeOper) :
    Follows c (c.clearUmodes flag) n n :=
  .of_isOper_iff rfl ((isOper_clearUmodes flag).trans (and_iff_left hflag))

theorem stripUmodes_follows (c : Client) (n : Counter) : Follows c (stripUmodes c) n n := by
  have hclear : ∀ {c : Client} {P : Prop} [Decidable P] {flag : BitVec 32}, ¬Has flag umodeOper →
      Follows c (if P then c.clearUmodes flag else c) n n := by
    intro c P _ flag hflag
    split_ifs
    · exact follows_clearUmodes hflag
    · exact .refl c n
  rw [stripUmodes]
  exact ((hclear (by decide)).trans (hclear (by decide))).trans (hclear (by decide))

/-- The invisible users are followed up at the end. -/
theorem countInvisible_invisi (setflags : BitVec 32) (c : Client) (n : Counter) :
    (countInvisible setflags c n).invisi - one c.IsInvisible = n.invisi - one
    (Has setflags umodeInvisible) := by
  rw [countInvisible]
  by_cases hold : Has setflags umodeInvisible
  · by_cases hnew : c.IsInvisible
    · rw [if_neg fun h => h.2 hnew, if_neg fun h => h.1 hold, one_of hold, one_of hnew]
    · rw [if_pos ⟨hold, hnew⟩, if_neg fun h => h.1 hold, one_of hold, one_of_not hnew, sub_zero]
  · by_cases hnew : c.IsInvisible
    · rw [if_neg fun h => hold h.1, if_pos ⟨hold, hnew⟩, one_of_not hold, one_of hnew,
        add_sub_cancel_right, sub_zero]
    · rw [if_neg fun h => hold h.1, if_neg fun h => hnew h.2, one_of_not hold, one_of_not hnew]

theorem countInvisible_total (setflags : BitVec 32) (c : Client) (n : Counter) :
    (countInvisible setflags c n).total = n.total := by
  unfold countInvisible
  dsimp only
  split_ifs <;> rfl

theorem countInvisible_oper (setflags : BitVec 32) (c : Client) (n : Counter) :
    (countInvisible setflags c n).oper = n.oper := by
  unfold countInvisible
  dsimp only
  split_ifs <;> rfl

/-- The numbers are followed up to the end. -/
theorem Follows.moves (h : Follows c c' n n') (hc : c.Registered) {setflags : BitVec 32}
    (hset : Has setflags umodeInvisible ↔ c.IsInvisible) :
    Moves (some c) (some c') n (countInvisible setflags c' n') := by
  refine .of_registered hc (hc.of_kind h.kind) ?_ ?_ ?_
  · rw [countInvisible_total, h.total]
  · rw [countInvisible_invisi, h.invisi, one_congr hset]
  · rw [countInvisible_oper, h.oper]

theorem userMode_follows (services : Bool) (parv : List Str) :
    ∃ n', Follows c (userMode conf services c n parv).1 n n' ∧
    (userMode conf services c n parv).2 = countInvisible c.umodes
    (userMode conf services c n parv).1 n' := by
  have hletters := Letters.keeps_letters conf services ⟨c, n, true, false⟩ parv.flatten
  exact ⟨_, hletters.trans (stripUmodes_follows _ _), rfl⟩

/-- **`user_mode`.** -/
theorem userMode_moves (hc : c.Registered) (services : Bool) (parv : List Str) :
    Moves (some c) (some (userMode conf services c n parv).1) n
    (userMode conf services c n parv).2 := by
  obtain ⟨n', hfollows, hcount⟩ := userMode_follows services parv
  rw [hcount]
  exact hfollows.moves hc Iff.rfl

/-- A user becomes an operator; modes are added, and some are taken away again. -/
theorem operUp_follows (hoper : ¬c.IsOper) (umodes flags : BitVec 32) :
    ∃ n', Follows c (operUp conf c n umodes flags).1 n n' ∧
      (operUp conf c n umodes flags).2 = countInvisible (c.umodes &&& allUmodes)
      (operUp conf c n umodes flags).1 n' := by
  have hadd : ∀ {c : Client} {flag : BitVec 32}, c.IsOper → (c.addUmodes flag).IsOper := fun h =>
    (isOper_addUmodes _).mpr (.inl h)
  have hclear : ∀ {c : Client} {P : Prop} [Decidable P] {flag : BitVec 32}, ¬Has flag umodeOper →
      c.IsOper → (if P then c.clearUmodes flag else c).IsOper := by
    intro c P _ flag hflag h
    split_ifs
    · exact (isOper_clearUmodes flag).mpr ⟨h, hflag⟩
    · exact h
  have hkind : ∀ {c : Client} {P : Prop} [Decidable P] {flag : BitVec 32},
      (if P then c.clearUmodes flag else c).kind = c.kind := by
    intro c P _ flag
    split_ifs <;> rfl
  refine ⟨{ n with oper := n.oper + 1 }, .gain ?_ hoper ?_, rfl⟩
  · rw [operUp]
    refine hkind.trans (hkind.trans ?_)
    split_ifs <;> rfl
  · rw [operUp]
    refine hclear (by decide) (hclear (by decide) ?_)
    have hset : ∀ flag, (c.setOper.addUmodes flag).IsOper := fun flag => hadd isOper_setOper
    split_ifs
    · exact hadd (hset _)
    · exact hset _
    · exact hadd (hset _)
    · exact hset _
    · exact hadd (hset _)
    · exact hset _

/-- **`oper_up`.** -/
theorem operUp_moves (hc : c.Registered) (hoper : ¬c.IsOper) (umodes flags : BitVec 32) :
    Moves (some c) (some (operUp conf c n umodes flags).1) n (operUp conf c n umodes flags).2 := by
  obtain ⟨n', hfollows, hcount⟩ := operUp_follows hoper umodes flags
  rw [hcount]
  exact hfollows.moves hc (isFlag_umodeInvisible.has_and.trans (and_iff_left (by decide)))

/-- What a letter adds to the modes of a user that is introduced is counted. -/
theorem introducedMode_counts (services onServiceList : Bool) (x : Client × Counter)
    (letter : Char) :
    let y := introducedMode services onServiceList x letter
    y.1.kind = x.1.kind ∧ y.2.total = x.2.total ∧ y.2.invisi - one y.1.IsInvisible =
      x.2.invisi - one x.1.IsInvisible ∧ y.2.oper - one y.1.IsOper = x.2.oper - one x.1.IsOper := by
  obtain ⟨c, n⟩ := x
  have hinvisible : ∀ flag, (c.addUmodes (flag &&& sendUmodes)).IsInvisible ↔ c.IsInvisible ∨
    Has flag umodeInvisible :=
    fun flag => (isInvisible_addUmodes _).trans
      (or_congr_right (isFlag_umodeInvisible.has_and.trans (and_iff_left (by decide))))
  have hoper : ∀ flag, (c.addUmodes (flag &&& sendUmodes)).IsOper ↔ c.IsOper ∨ Has flag umodeOper :=
    fun flag => (isOper_addUmodes _).trans
      (or_congr_right (isFlag_umodeOper.has_and.trans (and_iff_left (by decide))))
  rw [introducedMode]
  split_ifs with hservice hi ho ho
  · exact ⟨rfl, rfl, rfl, rfl⟩
  all_goals refine ⟨rfl, rfl, ?_, ?_⟩
  all_goals simp only [one, hinvisible, hoper]
  all_goals split_ifs <;> first | omega | tauto

/-- All letters. -/
theorem introducedModes_counts (services onServiceList : Bool) (x : Client × Counter) (s : Str) :
    let y := s.foldl (introducedMode services onServiceList) x
    y.1.kind = x.1.kind ∧ y.2.total = x.2.total ∧ y.2.invisi - one y.1.IsInvisible =
      x.2.invisi - one x.1.IsInvisible ∧ y.2.oper - one y.1.IsOper = x.2.oper - one x.1.IsOper := by
  induction s generalizing x with
  | nil => exact ⟨rfl, rfl, rfl, rfl⟩
  | cons letter s ih =>
    obtain ⟨hkind, htotal, hinvisi, hoper⟩ := introducedMode_counts services onServiceList x letter
    obtain ⟨hkind', htotal', hinvisi', hoper'⟩ :=
      ih (introducedMode services onServiceList x letter)
    exact ⟨hkind'.trans hkind, htotal'.trans htotal, hinvisi'.trans hinvisi, hoper'.trans hoper⟩

/-- **The letters of a user that is introduced**, who has no modes at first. -/
theorem introducedModes_moves {o : Option Client} (ho : Idle o) (services onServiceList : Bool)
    (n : Counter) (s : Str) :
    let y := s.foldl (introducedMode services onServiceList) (⟨.unknown, false, false, 0, 0, false⟩,
      n)
    Moves o (some { y.1 with status := .client }) n { y.2 with total := y.2.total + 1 } := by
  obtain ⟨hkind, htotal, hinvisi, hoper⟩ :=
    introducedModes_counts services onServiceList (⟨.unknown, false, false, 0, 0, false⟩, n) s
  obtain ⟨-, hfake, -, hclosing⟩ := kind_eq_iff.mp hkind
  have hnone : ∀ flag : BitVec 32, one (Has 0 flag) = 0 := fun flag => one_of_not not_has_zero
  rw [hnone, sub_zero] at hinvisi hoper
  exact .register ho ⟨rfl, hfake, hclosing⟩ (congrArg (· + 1) htotal) (eq_add_of_sub_eq hinvisi)
    (eq_add_of_sub_eq hoper)

/-- **`update_client_exit_stats`** of a user that is no service. -/
theorem updateClientExitStats_moves (hfake : c.fake = false) (hclosing : c.closing = false) :
    Moves (some c) (some { c with closing := true }) n
    (updateClientExitStats { c with closing := true } n) := by
  have hexit : Idle (some { c with closing := true }) := idle_some fun h => Bool.noConfusion h.2.2
  rw [updateClientExitStats]
  by_cases hclient : c.IsClient
  · have hc : c.Registered := ⟨hclient, hfake, hclosing⟩
    have hserver : c.status ≠ .server := fun h => Status.noConfusion (h.symm.trans hclient)
    rw [if_neg hserver, if_pos hclient]
    refine ⟨?_, ?_, ?_⟩
    · rw [hexit.weight_eq, weight, if_pos hc, add_zero]
      split_ifs <;> rfl
    · rw [hexit.weight_and_eq, weight_registered hc, add_zero, one]
      split_ifs <;> simp
    · rw [hexit.weight_and_eq, weight_registered hc, add_zero, one]
      split_ifs <;> simp
  · have hidle : Idle (some c) := idle_some fun h => hclient h.1
    rw [if_neg hclient, ite_self]
    exact .idle hidle hexit

end Functions

end Ratbox.Counts
