import Ratbox.Lib.Combos
import Ratbox.SetMode.Lines
import Ratbox.SetMode.Made

/-!
# The servers that are told of mode changes

Servers differ in the capabilities that mode changes need. For each combination of these there is a
number of the linked servers that have exactly them, which goes up when a server is linked and down
when it exits. The lines are built once for each combination that some server has, and sent to the
servers that have it: so each server is told by one call only.

Source: `src/channel.c`, lines 50–62, 883–957 and 971–1080, `src/send.c`, lines 443–487,
`src/client.c`, lines 1241–1251, `modules/core/m_server.c`, lines 1254–1262, `include/s_serv.h`,
lines 74–75, and `modules/core/m_mode.c`, as in `Ratbox.SetMode.Basic`.

## Main definitions

* `SetMode.Links`: the linked servers, and the numbers of `chcap_combos`.
* `SetMode.Links.step`: a server is linked, or exits.
* `SetMode.sendCapModeChanges`: the lines that servers are sent.
* `SetMode.Links.Counted`: the numbers are those of the linked servers.

## Main results

* `SetMode.Env.comboFor_eq_some`: each server is in exactly one combination.
* `SetMode.Call.relevant_run`: the capabilities that mode changes need are those of
  `channel_capabs`.
* `SetMode.Links.inv_run`: the numbers are right.
* `SetMode.toldTo_sendCapModeChanges`: what a server is told.
-/

namespace Ratbox.SetMode

open Text List Function
open Banlist (ModeType modebufLen)
open Flags (Has IsFlag)

/-! ### The combinations -/

/-- `IsCapable`. -/
def isCapable (caps cap : BitVec 32) : Bool := caps &&& cap = cap

/-- `NotCapable`. -/
def notCapable (caps cap : BitVec 32) : Bool := caps &&& cap = 0

namespace Env

variable (env : Env)

/-- `NCHCAP_COMBOS`. -/
def combos : ℕ := 2 ^ env.channelCapabs.length

/-- The server has the capabilities of a combination, and none of the others. -/
def inCombo (caps : BitVec 32) (m : ℕ) :
    Bool := isCapable caps (env.combo m).1 && notCapable caps (env.combo m).2

/-- The loop of `set_chcap_usage_counts` and `unset_chcap_usage_counts`. -/
def comboFor (caps : BitVec 32) : Option ℕ := (range env.combos).find? (env.inCombo caps)

/-- The capabilities that mode changes need. -/
def chcaps : BitVec 32 := Combos.all env.channelCapabs

variable {env} {caps : BitVec 32} {m m' : ℕ}

theorem isFlag_channelCapabs : ∀ flag ∈ env.channelCapabs, IsFlag flag := by
  have hex : IsFlag capEx := ⟨2, by omega, by decide⟩
  have hie : IsFlag capIe := ⟨4, by omega, by decide⟩
  have hts6 : IsFlag capTs6 := ⟨15, by omega, by decide⟩
  have hservice : IsFlag capService := ⟨16, by omega, by decide⟩
  rw [channelCapabs]
  cases env.services with
  | false => exact forall_mem_cons.mpr ⟨hex, forall_mem_cons.mpr ⟨hie, forall_mem_singleton.mpr
    hts6⟩⟩
  | true =>
    exact forall_mem_cons.mpr ⟨hex, forall_mem_cons.mpr ⟨hie, forall_mem_cons.mpr
      ⟨hservice, forall_mem_singleton.mpr hts6⟩⟩⟩

theorem inCombo_iff : env.inCombo caps m = true ↔ Combos.Matches env.channelCapabs caps m := by
  rw [inCombo, isCapable, notCapable, Bool.and_eq_true, decide_eq_true_iff, decide_eq_true_iff]
  exact Iff.rfl

/-- **Each server is in exactly one combination.** -/
theorem comboFor_eq_some :
    env.comboFor caps = some m ↔ m < env.combos ∧ env.inCombo caps m = true := by
  obtain ⟨m', ⟨hlt, hmatches⟩, hunique⟩ := Combos.existsUnique_matches isFlag_channelCapabs caps
  have hiff : ∀ m, m < env.combos ∧ env.inCombo caps m = true ↔ m = m' := by
    intro m
    rw [inCombo_iff]
    exact ⟨hunique m, fun h => h ▸ ⟨hlt, hmatches⟩⟩
  rw [hiff, comboFor]
  constructor
  · intro h
    exact (hiff m).mp ⟨mem_range.mp (mem_of_find?_eq_some h), find?_some h⟩
  · rintro rfl
    cases hfind : (range env.combos).find? (env.inCombo caps) with
    | none =>
      have hnone := find?_eq_none.mp hfind m (mem_range.mpr hlt)
      exact absurd (inCombo_iff.mpr hmatches) hnone
    | some k =>
      exact congrArg some ((hiff k).mp ⟨mem_range.mp (mem_of_find?_eq_some hfind),
        find?_some hfind⟩)

end Env

/-! ### The changes that are put down -/

/-- The change depends on capabilities of `channel_capabs` only. -/
def Env.Relevant (env : Env) (change : ChModeChange) : Prop :=
  env.chcaps &&& change.caps = change.caps ∧ env.chcaps &&& change.nocaps = change.nocaps

/-- The changes that were put down depend on capabilities of `channel_capabs` only. -/
def Setting.Relevant (env : Env) (st : Setting) : Prop := ∀ change ∈ st.changes, env.Relevant change

section Relevant

variable {env : Env} {source_p : ℕ} {alevel : Bool} {parv : List Str} {st st' : Setting} {c : Char}
  {change : ChModeChange}

theorem Env.relevant_of_nocaps (hcaps : env.chcaps &&& change.caps = change.caps)
    (hnocaps : change.nocaps = 0) :
    env.Relevant change :=
  ⟨hcaps, by rw [hnocaps]; exact BitVec.and_zero⟩

/-- A change that depends on no capability. -/
theorem Env.relevant_of_caps (hcaps : change.caps = 0) (hnocaps : change.nocaps = 0) :
    env.Relevant change :=
  relevant_of_nocaps (by rw [hcaps]; exact BitVec.and_zero) hnocaps

theorem chcaps_and_capsOf (env : Env) (type : ModeType) :
    env.chcaps &&& capsOf type = capsOf type := by
  rw [Env.chcaps, Env.channelCapabs]
  cases env.services <;> cases type <;> decide

theorem chcaps_and_capService (hservices : env.services = true) :
    env.chcaps &&& capService = capService := by
  rw [Env.chcaps, Env.channelCapabs, hservices]
  decide

/-- A change is put down behind others. -/
theorem Setting.Relevant.of_append {changes : List ChModeChange}
    (h : ∀ change ∈ changes, env.Relevant change)
    (hchanges : st'.changes = changes ++ [change]) (hchange : env.Relevant change) :
    st'.Relevant env := by
  rw [Setting.Relevant, hchanges]
  exact forall_mem_append.mpr ⟨h, forall_mem_singleton.mpr hchange⟩

/-- **A letter** puts down changes that depend on capabilities of `channel_capabs` only. -/
theorem Setting.Relevant.made (h : st.Relevant env)
    (hmade : Made env source_p alevel parv c st st') : st'.Relevant env := by
  cases hmade with
  | nothing ch changes limitstr =>
    rw [Setting.Relevant, changes]
    exact h
  | flag dir hflag hdir hcaps ch changes limitstr =>
    refine of_append h changes (Env.relevant_of_nocaps ?_ rfl)
    obtain rfl | ⟨hservices, rfl⟩ := hcaps
    · exact BitVec.and_zero
    · exact chcaps_and_capService hservices
  | added htype hdir hword hlen hlocal hremote hadd ch changes limitstr =>
    exact of_append h changes (Env.relevant_of_nocaps (chcaps_and_capsOf env _) rfl)
  | removed htype hne hspace ch changes limitstr =>
    exact of_append h changes (Env.relevant_of_nocaps (chcaps_and_capsOf env _) rfl)
  | noKey hc ch changes limitstr =>
    exact of_append (forall_splatKeys h fun _ hchange => hchange) changes (Env.relevant_of_caps rfl
      rfl)
  | _ =>
    rename_i changes _
    exact of_append h changes (Env.relevant_of_caps rfl rfl)

/-- **The changes of a call** depend on capabilities of `channel_capabs` only. -/
theorem Call.relevant_run {call : Call} (hrun : call.run env source_p = some st) :
    st.Relevant env :=
  Run.invariant (Setting.Relevant env) (fun _ _ _ h _ hst => h.made (made_of_step hst))
    (fun _ h => absurd h not_mem_nil) (Run.StepsMeet.of_forall (fun _ _ => trivial) _ _) hrun

theorem Call.relevant_run_somewhere :
    ∃ st, Call.run somehow 0 ⟨somewhere, some ⟨0, ⟨true, false, false⟩, false, 0⟩, ['+', 'm'], []⟩ =
      some st ∧ st.changes ≠ [] ∧ st.Relevant somehow :=
  ⟨_, rfl, nofun, relevant_run <| show Call.run _ 0 ⟨_, some ⟨0, ⟨true, _, _⟩, _, 0⟩, ['+', 'm'],
    []⟩ = _ from rfl⟩

end Relevant

/-! ### Links -/

/-- `serv_list`, the servers with their capabilities, and the numbers in `chcap_combos`. -/
structure Links where
  servList : List (ℕ × BitVec 32)
  count : ℕ → ℕ

/-- A server is linked with its capabilities, or exits. -/
inductive LinkOp
  | estab (p : ℕ) (caps : BitVec 32)
  | exit (p : ℕ)
  deriving DecidableEq

namespace Links

variable (env : Env) (links : Links)

/-- `set_chcap_usage_counts`. -/
def setUsage (caps : BitVec 32) : Links :=
  match env.comboFor caps with
  | some n => { links with count := update links.count n (links.count n + 1) }
  | none => links

/-- `unset_chcap_usage_counts`. -/
def unsetUsage (caps : BitVec 32) : Links :=
  match env.comboFor caps with
  | some n =>
    if 0 < links.count n then { links with count := update links.count n (links.count n - 1) }
      else links
  | none => links

/-- `server_estab`. -/
def estab (p : ℕ) (caps : BitVec 32) : Links :=
  let links := links.setUsage env caps
  { links with servList := (p, caps) :: links.servList }

/-- `exit_local_server`. -/
def exit (server : ℕ × BitVec 32) : Links :=
  { links with servList := links.servList.erase server }.unsetUsage env server.2

/-- A step; a server is linked once, and exits when it is linked. -/
def step : LinkOp → Links
  | .estab p caps => if p ∈ links.servList.map Prod.fst then links else links.estab env p caps
  | .exit p =>
    match links.servList.find? (·.1 = p) with
    | some server => links.exit env server
    | none => links

/-- No server is linked. -/
def init : Links := ⟨[], fun _ => 0⟩

/-- **The numbers** are those of the linked servers with exactly the capabilities of each
combination. -/
def Counted : Prop := ∀ m < env.combos, links.count m = links.servList.countP fun server =>
    env.inCombo server.2 m

/-- The numbers are right, and each server is linked once. -/
structure Inv : Prop where
  counted : links.Counted env
  nodup : (links.servList.map Prod.fst).Nodup

variable {env links} {server : ℕ × BitVec 32} {p : ℕ} {caps : BitVec 32}

@[simp]
theorem setUsage_servList : (links.setUsage env caps).servList = links.servList := by
  rw [setUsage]
  split <;> rfl

@[simp]
theorem unsetUsage_servList : (links.unsetUsage env caps).servList = links.servList := by
  rw [unsetUsage]
  split
  · split_ifs <;> rfl
  · rfl

theorem setUsage_count {n : ℕ} (hn : n < env.combos) : (links.setUsage env caps).count n =
    links.count n + if env.inCombo caps n then 1 else 0 := by
  obtain ⟨m, ⟨hlt, hmatches⟩, hunique⟩ := Combos.existsUnique_matches Env.isFlag_channelCapabs caps
  rw [setUsage, Env.comboFor_eq_some.mpr ⟨hlt, Env.inCombo_iff.mpr hmatches⟩]
  by_cases hm : n = m
  · subst hm
    rw [if_pos (Env.inCombo_iff.mpr hmatches)]
    exact update_self _ _ _
  · rw [if_neg fun h => hm (hunique n ⟨hn, Env.inCombo_iff.mp h⟩)]
    exact update_of_ne hm _ _

theorem unsetUsage_count {n : ℕ} (hn : n < env.combos) : (links.unsetUsage env caps).count n =
    links.count n - if env.inCombo caps n then 1 else 0 := by
  obtain ⟨m, ⟨hlt, hmatches⟩, hunique⟩ := Combos.existsUnique_matches Env.isFlag_channelCapabs caps
  rw [unsetUsage, Env.comboFor_eq_some.mpr ⟨hlt, Env.inCombo_iff.mpr hmatches⟩]
  by_cases hm : n = m
  · subst hm
    rw [if_pos (Env.inCombo_iff.mpr hmatches)]
    dsimp only
    split_ifs with hpos
    · exact update_self _ _ _
    · omega
  · rw [if_neg fun h => hm (hunique n ⟨hn, Env.inCombo_iff.mp h⟩)]
    dsimp only
    split_ifs
    · exact update_of_ne hm _ _
    · rfl

theorem inv_init : init.Inv env := ⟨fun _ _ => rfl, nodup_nil⟩

namespace Inv

/-- **A server is linked.** -/
theorem estab (h : links.Inv env) (hp : p ∉ links.servList.map Prod.fst) :
    (links.estab env p caps).Inv env where
  counted m hm := by
    rw [Links.estab]
    dsimp only
    rw [setUsage_count hm, h.counted m hm, setUsage_servList, countP_cons]
  nodup := by
    rw [Links.estab, setUsage_servList, map_cons]
    exact nodup_cons.mpr ⟨hp, h.nodup⟩

/-- **A server exits.** -/
theorem exit (h : links.Inv env) (hserver : server ∈ links.servList) :
    (links.exit env server).Inv env where
  counted m hm := by
    rw [Links.exit, unsetUsage_count hm, unsetUsage_servList]
    dsimp only
    have hperm := (perm_cons_erase hserver).countP_eq fun server => env.inCombo server.2 m
    rw [countP_cons] at hperm
    rw [h.counted m hm, hperm, Nat.add_sub_cancel]
  nodup := by
    rw [Links.exit, unsetUsage_servList]
    exact h.nodup.sublist (erase_sublist.map Prod.fst)

theorem step (h : links.Inv env) (op : LinkOp) : (links.step env op).Inv env := by
  cases op with
  | estab p caps =>
    rw [Links.step]
    split_ifs with hp
    · exact h
    · exact h.estab hp
  | exit p =>
    rw [Links.step]
    split
    · rename_i server hfind
      exact h.exit (mem_of_find?_eq_some hfind)
    · exact h

end Inv

/-- **The numbers are right** after any servers were linked and have exited. -/
theorem inv_run (env : Env) (ops : List LinkOp) : (ops.foldl (step env) init).Inv env := by
  suffices hrun : ∀ links : Links, links.Inv env → (ops.foldl (step env) links).Inv env from hrun
    init inv_init
  induction ops with
  | nil => exact fun links h => h
  | cons op ops ih => exact fun links h => ih _ (h.step op)

end Links

/-! ### Sending -/

/-- The length to which `rb_linebuf_putmsg` cuts a text. -/
def lineLen : ℕ := 510

/-- `sendto_server`, to servers whose links are in `servList`. A channel with another front than `#`
is known to this server only. -/
def sendtoServer (servList : List (ℕ × BitVec 32)) (one : Option ℕ) (chname : Str)
    (caps nocaps : BitVec 32) (line : Str) : List (ℕ × Str) :=
  if chname.head? ≠ some '#' then []
  else
    (servList.filter fun target => some target.1 ≠ one ∧ isCapable target.2 caps ∧
      notCapable target.2 nocaps).map fun target => (target.1, line.take lineLen)

/-- `send_cap_mode_changes`: the lines, and the servers to which they are sent. The first argument
is that of `client_p->from`, if it is a server. -/
def sendCapModeChanges (env : Env) (links : Links) (one : Option ℕ) (source_p : ℕ) (st : Setting) :
    List (ℕ × Str) :=
  (range env.combos).flatMap fun j =>
    if links.count j = 0 then []
    else
      let (cap, nocap) := env.combo j
      (sendServer (serverFront env source_p st cap) (st.shownWith cap nocap)).sent.flatMap
        (sendtoServer links.servList one st.ch.chname cap nocap)

/-- The lines that are sent to a server. -/
def toldTo (p : ℕ) (messages : List (ℕ × Str)) : List Str :=
  messages.filterMap fun message => if message.1 = p then some message.2 else none

section Sending

variable {env : Env} {links : Links} {one : Option ℕ} {source_p p m : ℕ} {st : Setting}
  {caps : BitVec 32}

theorem toldTo_flatMap {α : Type*} (l : List α) (f : α → List (ℕ × Str)) :
    toldTo p (l.flatMap f) = l.flatMap fun a => toldTo p (f a) :=
  filterMap_flatMap

/-- Of the items of a list without repetitions one has something. -/
theorem flatMap_eq_of_unique {α β : Type*} {l : List α} {a : α} {f : α → List β} (hl : l.Nodup)
    (ha : a ∈ l) (hf : ∀ b ∈ l, b ≠ a → f b = []) : l.flatMap f = f a := by
  induction l with
  | nil => exact absurd ha not_mem_nil
  | cons b l ih =>
    obtain ⟨hb, hl⟩ := nodup_cons.mp hl
    rw [flatMap_cons]
    by_cases hab : b = a
    · subst hab
      have hrest : l.flatMap f = [] := flatMap_eq_nil_iff.mpr fun c hc =>
        hf c (mem_cons_of_mem b hc) fun h => hb (h ▸ hc)
      rw [hrest, append_nil]
    · rw [hf b mem_cons_self hab, nil_append]
      exact ih hl ((mem_cons.mp ha).resolve_left (Ne.symm hab)) fun c hc => hf c
        (mem_cons_of_mem b hc)

theorem toldTo_map_filter (q : ℕ × BitVec 32 → Bool) (line : Str) (l : List (ℕ × BitVec 32)) :
    toldTo p ((l.filter q).map fun target => (target.1, line)) =
      l.flatMap fun target => if target.1 = p ∧ q target = true then [line] else [] := by
  induction l with
  | nil => rfl
  | cons target l ih =>
    rw [flatMap_cons, ← ih, filter_cons]
    by_cases hq : q target = true
    · by_cases hp : target.1 = p
      · simp [toldTo, hq, hp]
      · simp [toldTo, hq, hp]
    · simp [hq]

/-- What `sendto_server` sends to a linked server. -/
theorem toldTo_sendtoServer (h : (links.servList.map Prod.fst).Nodup)
    (hp : (p, caps) ∈ links.servList) (hchan : st.ch.chname.head? = some '#') (line : Str) :
    toldTo p (sendtoServer links.servList one st.ch.chname (env.combo m).1 (env.combo m).2 line) =
      if some p ≠ one ∧ env.inCombo caps m = true then [line.take lineLen] else [] := by
  have hothers : ∀ target ∈ links.servList, target ≠ (p, caps) →
      target.1 ≠ p := fun target htarget hne heq =>
    hne (inj_on_of_nodup_map h htarget hp heq)
  rw [sendtoServer, if_neg (not_not_intro hchan), toldTo_map_filter,
    flatMap_eq_of_unique h.of_map hp fun target htarget hne => if_neg fun hand => hothers target
      htarget hne hand.1]
  refine if_congr ?_ rfl rfl
  rw [Env.inCombo, decide_eq_true_iff, Bool.and_eq_true]
  exact and_iff_right rfl

/-- **What a server is told** are the lines for its combination. -/
theorem toldTo_sendCapModeChanges (h : links.Inv env) (hp : (p, caps) ∈ links.servList)
    (hone : some p ≠ one) (hchan : st.ch.chname.head? = some '#')
    (hm : env.comboFor caps = some m) :
    toldTo p (sendCapModeChanges env links one source_p st) =
      (sendServer (serverFront env source_p st (env.combo m).1)
        (st.shownWith (env.combo m).1 (env.combo m).2)).sent.map (take lineLen) := by
  obtain ⟨hlt, hin⟩ := Env.comboFor_eq_some.mp hm
  have hpass : ∀ j, toldTo p (if links.count j = 0 then [] else
      (sendServer (serverFront env source_p st (env.combo j).1)
        (st.shownWith (env.combo j).1 (env.combo j).2)).sent.flatMap (sendtoServer links.servList
          one st.ch.chname (env.combo j).1 (env.combo j).2)) =
      if links.count j ≠ 0 ∧ env.inCombo caps j = true then
        (sendServer (serverFront env source_p st (env.combo j).1)
          (st.shownWith (env.combo j).1 (env.combo j).2)).sent.map (take lineLen)
      else [] := by
    intro j
    by_cases hcount : links.count j = 0
    · rw [if_pos hcount, if_neg fun hand => hand.1 hcount]
      rfl
    · rw [if_neg hcount, toldTo_flatMap]
      simp only [toldTo_sendtoServer h.nodup hp hchan]
      by_cases hj : env.inCombo caps j = true
      · rw [if_pos ⟨hcount, hj⟩]
        simp only [hone, hj, ne_eq, not_false_eq_true, and_self, if_true]
        exact map_eq_flatMap.symm
      · rw [if_neg fun hand => hj hand.2]
        exact flatMap_eq_nil_iff.mpr fun _ _ => if_neg fun hand => hj hand.2
  have hcount : links.count m ≠ 0 := by
    rw [h.counted m hlt]
    exact (countP_pos_iff.mpr ⟨(p, caps), hp, hin⟩).ne'
  rw [sendCapModeChanges, toldTo_flatMap]
  refine (flatMap_eq_of_unique nodup_range (mem_range.mpr hlt) ?_).trans ?_
  · intro j hj hne
    refine (hpass j).trans (if_neg fun hand => hne ?_)
    exact Option.some.inj ((Env.comboFor_eq_some.mpr ⟨mem_range.mp hj, hand.2⟩).symm.trans hm)
  · exact (hpass m).trans (if_pos ⟨hcount, hin⟩)

end Sending

end Ratbox.SetMode
