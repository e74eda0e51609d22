import Ratbox.Accept.Basic
import Mathlib.Data.Finset.Card

/-!
# Accept lists in all runs

Whatever clients come, change their nicks, use the command and go, a client is on the accept list of
another exactly when it has that one on its own list, no list gets too long, and no list has a
client that exited. A command counts the nicks that it passes over, so that it may say that the list
is full when it is not.

## Main definitions

* `Accept.Sound`: the lists as they should be.
* `Accept.RefusesRightly`: a command says that the list is full only when it is.
* `Accept.Meets`: the condition on the nicks of a command.

## Main results

* `Accept.Inv.step`: every step keeps the lists sound.
* `Accept.addLoop_right_iff`: the loop says that the list is full when it is, exactly under the
  condition.
* `Accept.accepts_iff`: the runs.
-/

namespace Ratbox.Accept

open Text Hash Mutual Run List Option Function
open Nick (update_eq_some)

/-- **The lists are sound**: they belong together, nobody is on one twice, none is too long, and who
has exited is on none. -/
structure Sound (cfg : Config) (s : State) : Prop where
  mem_iff : ∀ a b, b ∈ s.allowList a ↔ a ∈ s.onAllowList b
  nodup_allowList : ∀ a, (s.allowList a).Nodup
  nodup_onAllowList : ∀ b, (s.onAllowList b).Nodup
  length_le : ∀ a, (s.allowList a).length ≤ cfg.maxAccept
  live : ∀ a b, b ∈ s.allowList a → (s.client a).isSome ∧ (s.client b).isSome

/-- The nicks of the clients. -/
def State.key (s : State) : ℕ → Option Str :=
  (fun o : Option Client => o.bind fun c => Nick.key c.name) ∘ s.client

/-- Only a client of this server has an accept list, and only clients that are registered are on
it. -/
structure Inv (cfg : Config) (s : State) : Prop where
  placed : Placed hashClient s.table s.key
  tied : Tied s.accepts
  length_le : ∀ a, (s.allowList a).length ≤ cfg.maxAccept
  source : ∀ a b, b ∈ s.allowList a → ∃ c, s.client a = some c ∧ c.myClient = true
  target : ∀ a b, b ∈ s.allowList a → ∃ c, s.client b = some c ∧ c.isClient = true

section Lists

variable {cfg : Config} {s s' : State} {p : ℕ} {c c' : Client} {nick : Str} {o : Option Client}

theorem Inv.sound (h : Inv cfg s) : Sound cfg s where
  mem_iff := h.tied.mem_iff
  nodup_allowList := h.tied.nodup_left
  nodup_onAllowList := h.tied.nodup_right
  length_le := h.length_le
  live a b hb := by
    obtain ⟨c, hc, -⟩ := h.source a b hb
    obtain ⟨d, hd, -⟩ := h.target a b hb
    exact ⟨by rw [hc]; rfl, by rw [hd]; rfl⟩

theorem hashlen_hashClient : hashClient.cmptype = .memcmp → 0 < hashClient.hashlen := by decide

theorem key_of_client (hc : s.client p = some c) : s.key p = Nick.key c.name := by
  rw [State.key, comp_apply, hc, bind_some]

theorem key_of_none (hp : s.client p = none) : s.key p = none := by
  rw [State.key, comp_apply, hp, bind_none]

theorem key_update (h : s'.client = update s.client p o) :
    s'.key = update s.key p (o.bind fun c => Nick.key c.name) := by
  rw [State.key, h, comp_update]
  rfl

theorem findNamedPerson_some {q : ℕ} (h : findNamedPerson s nick = some q) :
    ∃ c, s.client q = some c ∧ c.isClient = true := by
  obtain ⟨n, -, h⟩ := bind_eq_some_iff.mp h
  obtain ⟨c, hc, h⟩ := bind_eq_some_iff.mp h
  split_ifs at h with hclient
  cases h
  exact ⟨c, hc, hclient⟩

/-! ### Changes of the lists -/

section

variable (h : Inv cfg s)
include h

theorem Inv.unlink (a b : ℕ) : Inv cfg { s with accepts := s.accepts.unlink a b } where
  placed := h.placed
  tied := h.tied.unlink a b
  length_le a' := (left_unlink_sublist ..).length_le.trans (h.length_le a')
  source a' b' hb := h.source a' b' ((left_unlink_sublist ..).subset hb)
  target a' b' hb := h.target a' b' ((left_unlink_sublist ..).subset hb)

theorem Inv.cut (ps : List (ℕ × ℕ)) : Inv cfg { s with accepts := s.accepts.cut ps } where
  placed := h.placed
  tied := h.tied.cut
  length_le a := (Tied.cut_sublist ps).length_le.trans (h.length_le a)
  source a b hb := h.source a b ((Tied.cut_sublist ps).subset hb)
  target a b hb := h.target a b ((Tied.cut_sublist ps).subset hb)

theorem Inv.addAccept {a b : ℕ} {c d : Client} (ha : s.client a = some c) (hc : c.myClient = true)
    (hb : s.client b = some d) (hd : d.isClient = true) (hnot : b ∉ s.allowList a)
    (hlt : (s.allowList a).length < cfg.maxAccept) : Inv cfg (addAccept s a b) where
  placed := h.placed
  tied := h.tied.link hnot
  length_le a' := by
    change ((s.accepts.link a b).left a').length ≤ _
    rw [left_link]
    split_ifs
    · exact hlt
    · exact h.length_le a'
  source a' b' hmem := by
    obtain ⟨rfl, -⟩ | hold := (mem_left_link ..).mp hmem
    · exact ⟨c, ha, hc⟩
    · exact h.source a' b' hold
  target a' b' hmem := by
    obtain ⟨-, rfl⟩ | hold := (mem_left_link ..).mp hmem
    · exact ⟨d, hb, hd⟩
    · exact h.target a' b' hold

/-- A client changes, and with it the table; a client on whose side there are lists stays
registered. -/
theorem Inv.setClient (hclient : s'.client = update s.client p o)
    (htable : Placed hashClient s'.table (update s.key p (o.bind fun c => Nick.key c.name)))
    (haccepts : s'.accepts = s.accepts) (hsource : s.allowList p ≠ [] → ∃ c, o = some c ∧
      c.myClient = true)
    (htarget : s.onAllowList p ≠ [] → ∃ c, o = some c ∧ c.isClient = true) : Inv cfg s' where
  placed := by
    rw [key_update hclient]
    exact htable
  tied := haccepts ▸ h.tied
  length_le a := by
    rw [State.allowList, haccepts]
    exact h.length_le a
  source a b hb := by
    rw [State.allowList, haccepts] at hb
    by_cases ha : a = p
    · subst ha
      obtain ⟨c, hc, hmy⟩ := hsource (ne_nil_of_mem hb)
      exact ⟨c, by rw [hclient, update_self, hc], hmy⟩
    · obtain ⟨c, hc, hmy⟩ := h.source a b hb
      exact ⟨c, by rw [hclient, update_of_ne ha, hc], hmy⟩
  target a b hb := by
    rw [State.allowList, haccepts] at hb
    by_cases hbp : b = p
    · subst hbp
      obtain ⟨c, hc, hmy⟩ := htarget (ne_nil_of_mem ((h.tied.mem_iff a b).mp hb))
      exact ⟨c, by rw [hclient, update_self, hc], hmy⟩
    · obtain ⟨c, hc, hmy⟩ := h.target a b hb
      exact ⟨c, by rw [hclient, update_of_ne hbp, hc], hmy⟩

/-- Who has an accept list is a client of this server. -/
theorem Inv.myClient_of_ne (hc : s.client p = some c) (hne : s.allowList p ≠ []) :
    c.myClient = true := by
  obtain ⟨b, hb⟩ := exists_mem_of_ne_nil _ hne
  obtain ⟨d, hd, hmy⟩ := h.source p b hb
  exact some.inj (hd.symm.trans hc) ▸ hmy

/-- Who is on an accept list is registered. -/
theorem Inv.isClient_of_ne (hc : s.client p = some c) (hne : s.onAllowList p ≠ []) :
    c.isClient = true := by
  obtain ⟨a, ha⟩ := exists_mem_of_ne_nil _ hne
  obtain ⟨d, hd, hclient⟩ := h.target a p ((h.tied.mem_iff a p).mpr ha)
  exact some.inj (hd.symm.trans hc) ▸ hclient

/-- Who is not there has no lists. -/
theorem Inv.lists_of_none (hp : s.client p = none) : s.allowList p = [] ∧ s.onAllowList p = [] := by
  refine ⟨eq_nil_iff_forall_not_mem.mpr fun b hb => ?_, eq_nil_iff_forall_not_mem.mpr fun a ha =>
    ?_⟩
  · obtain ⟨c, hc, -⟩ := h.source p b hb
    cases hp.symm.trans hc
  · obtain ⟨c, hc, -⟩ := h.target a p ((h.tied.mem_iff a p).mpr ha)
    cases hp.symm.trans hc

end

/-! ### Clients come, are renamed, and go -/

section

variable (h : Inv cfg s)
include h

theorem Inv.malloc (hs' : s.malloc p c = some s') : Inv cfg s' := by
  rw [State.malloc] at hs'
  split_ifs at hs' with hp
  cases hs'
  obtain ⟨hleft, hright⟩ := h.lists_of_none hp
  refine h.setClient (p := p) (o := some c) rfl (h.placed.add hashlen_hashClient (key_of_none hp)
    c.name) ?_ (fun hne => absurd hleft hne) (fun hne => absurd hright hne)
  have hleft' : update s.allowList p [] = s.allowList := by rw [← hleft, update_eq_self]
  have hright' : update s.onAllowList p [] = s.onAllowList := by rw [← hright, update_eq_self]
  change (⟨update s.allowList p [], update s.onAllowList p []⟩ : Lists ℕ ℕ) = s.accepts
  rw [hleft', hright']

theorem Inv.placed_del (hc : s.client p = some c) :
    Placed hashClient (hashDel hashClient s.table c.name p) (update s.key p none) :=
  h.placed.del fun _ hk' => (Nick.key_eq_some.mp ((key_of_client hc).symm.trans hk')).imp_left
    Eq.symm

theorem Inv.rename (hc : s.client p = some c) (nick : Str) : Inv cfg (s.rename p c nick) := by
  refine h.setClient (o := some { c with name := nick }) rfl ?_ rfl
    (fun hne => ⟨{ c with name := nick }, rfl, show c.myClient = true from h.myClient_of_ne hc hne⟩)
    (fun hne => ⟨{ c with name := nick }, rfl, show c.isClient = true from h.isClient_of_ne hc hne⟩)
  have hadd := (h.placed_del hc).add hashlen_hashClient (update_self ..) nick
  rwa [update_idem] at hadd

theorem Inv.register (hc : s.client p = some c) :
    Inv cfg { s with client := update s.client p (some { c with isClient := true }) } := by
  refine h.setClient (o := some { c with isClient := true }) rfl ?_ rfl (fun hne => ⟨_, rfl, ?_⟩)
    fun _ => ⟨_, rfl, rfl⟩
  · rw [bind_some, ← key_of_client hc, update_eq_self]
    exact h.placed
  · have hmy := h.myClient_of_ne hc hne
    rw [Client.myClient, Bool.and_eq_true] at hmy ⊢
    exact ⟨hmy.1, rfl⟩

theorem Inv.clearOnAllowList (p : ℕ) : Inv cfg (clearOnAllowList s p) := h.cut _

theorem Inv.delAllAccepts (p : ℕ) (c : Client) : Inv cfg (delAllAccepts s p c) := by
  rw [Accept.delAllAccepts]
  split_ifs
  · exact (h.cut _).clearOnAllowList p
  · exact h.clearOnAllowList p

theorem clearOnAllowList_nil (p : ℕ) : (clearOnAllowList s p).onAllowList p = [] :=
  h.tied.right_cut_eq_nil fun a ha => mem_map.mpr ⟨a, ha, rfl⟩

end

theorem allowList_clearOnAllowList (hnil : s.allowList p = []) :
    (clearOnAllowList s p).allowList p = [] :=
  sublist_nil.mp (hnil ▸ Tied.cut_sublist _)

/-- **Nothing is left on the lists** of a client for which `del_all_accepts` was called. -/
theorem Inv.delAllAccepts_nil (h : Inv cfg s) (hc : s.client p = some c) :
    (Accept.delAllAccepts s p c).allowList p = [] ∧ (Accept.delAllAccepts s p c).onAllowList p =
    [] := by
  rw [Accept.delAllAccepts]
  split_ifs with hmy
  · refine ⟨allowList_clearOnAllowList ?_, clearOnAllowList_nil (h.cut _) p⟩
    exact h.tied.left_cut_eq_nil fun b hb => mem_map.mpr ⟨b, hb, rfl⟩
  · refine ⟨allowList_clearOnAllowList ?_, clearOnAllowList_nil h p⟩
    by_contra hne
    exact hmy (h.myClient_of_ne hc hne)

theorem client_delAllAccepts (s : State) (p : ℕ) (c : Client) :
    (Accept.delAllAccepts s p c).client = s.client := by
  rw [Accept.delAllAccepts]
  split_ifs <;> rfl

/-- **A client exits.** -/
theorem Inv.exit (h : Inv cfg s) (hc : s.client p = some c) : Inv cfg (exit s p c) := by
  rw [Accept.exit]
  split_ifs with hclient
  · have hd := h.delAllAccepts p c
    obtain ⟨hleft, hright⟩ := h.delAllAccepts_nil hc
    have hc' : (Accept.delAllAccepts s p c).client p = some c := by rw [client_delAllAccepts, hc]
    exact hd.setClient (o := none) rfl (hd.placed_del hc') rfl (fun hne => absurd hleft hne)
      (fun hne => absurd hright hne)
  · refine h.setClient (o := none) rfl (h.placed_del hc) rfl (fun hne => absurd ?_ hclient)
      (fun hne => absurd (h.isClient_of_ne hc hne) hclient)
    have hmy := h.myClient_of_ne hc hne
    rw [Client.myClient, Bool.and_eq_true] at hmy
    exact hmy.2

end Lists

/-! ### The loops -/

section Loops

variable {cfg : Config} {s : State} {p : ℕ} {nicks : List Str}

/-- The clients that nicks are found for do not depend on the lists. -/
theorem findNamedPerson_accepts (s : State) (l : Lists ℕ ℕ) (nick : Str) :
    findNamedPerson { s with accepts := l } nick = findNamedPerson s nick := rfl

theorem acceptMessage_iff {t : ℕ} : acceptMessage s t p = true ↔ t = p ∨ t ∈ s.allowList p := by
  simp [acceptMessage]

/-- **The delete list.** The clients on it are taken off, and the rest of the state stays. -/
theorem delLoop_spec (h : Inv cfg s) : Inv cfg (delLoop p nicks s).1 ∧
    (delLoop p nicks s).1 = { s with accepts := (delLoop p nicks s).1.accepts } ∧
    (delLoop p nicks s).1.allowList p = (s.allowList p).filter
    (fun t => t ∉ nicks.filterMap (findNamedPerson s)) ∧
    Reply.acceptFull ∉ (delLoop p nicks s).2 := by
  induction nicks generalizing s with
  | nil => exact ⟨h, rfl, by simp [delLoop], by simp [delLoop]⟩
  | cons nick nicks ih =>
    rw [delLoop]
    cases hfind : findNamedPerson s nick with
    | none =>
      rw [filterMap_cons_none hfind]
      obtain ⟨hinv, hstate, hlist, hfull⟩ := ih h
      exact ⟨hinv, hstate, hlist, by simpa using hfull⟩
    | some t =>
      rw [filterMap_cons_some hfind]
      dsimp only
      -- Who is taken off, and who is not on the list, is not in the rest of it.
      have hfilter : ∀ l : List ℕ, ((s.allowList p).filter (· ≠ t)).filter (fun u => u ∉ l) =
          (s.allowList p).filter (fun u => u ∉ t :: l) := by
        intro l
        rw [List.filter_filter]
        refine filter_congr fun u _ => ?_
        simp only [mem_cons, not_or, Bool.decide_and, Bool.and_comm]
      split_ifs with haccept
      · obtain ⟨hinv, hstate, hlist, hfull⟩ := ih (h.unlink p t)
        refine ⟨hinv, hstate, ?_, hfull⟩
        have herase : (s.accepts.unlink p t).left p = (s.allowList p).filter (· ≠ t) := by
          rw [left_unlink, if_pos rfl, (h.tied.nodup_left p).erase_eq_filter]
          exact filter_congr fun u _ => by by_cases hu : u = t <;> simp [hu]
        rw [hlist, State.allowList, herase]
        exact hfilter _
      · obtain ⟨hinv, hstate, hlist, hfull⟩ := ih h
        refine ⟨hinv, hstate, ?_, by simpa using hfull⟩
        have hnot : t ∉ s.allowList p := fun hmem => haccept (acceptMessage_iff.mpr (.inr hmem))
        have hkeep : (s.allowList p).filter (· ≠ t) = s.allowList p :=
          filter_eq_self.mpr fun u hu => decide_eq_true (ne_of_mem_of_not_mem hu hnot)
        rw [hlist, ← hfilter, hkeep]

/-- **The condition on the add list.** Where a client that is new on the list comes after so many
nicks that the count says that the list is full, so many of them were new that it is. -/
def Plain (maxAccept source_p : ℕ) (allowed : List ℕ) (acceptNum : ℕ) (ts : List ℕ) : Prop :=
  ∀ pre t post, ts = pre ++ t :: post → t ≠ source_p → t ∉ allowed → t ∉ pre →
    maxAccept ≤ acceptNum + pre.length → maxAccept ≤ allowed.length + (pre.toFinset.filter fun u =>
      u ≠ source_p ∧ u ∉ allowed).card

theorem forall_split_cons {α : Type*} {a : α} {l : List α} {P : List α → α → Prop} :
    (∀ pre t post, a :: l = pre ++ t :: post → P pre t) ↔ P [] a ∧ ∀ pre t post, l = pre ++
    t :: post → P (a :: pre) t := by
  refine ⟨fun h => ⟨h [] a l rfl, fun pre t post hl => h (a :: pre) t post (by rw [hl]; rfl)⟩, ?_⟩
  rintro ⟨hhead, htail⟩ pre t post hsplit
  cases pre with
  | nil => exact (cons.inj hsplit).1 ▸ hhead
  | cons b pre =>
    obtain ⟨rfl, hl⟩ := cons.inj hsplit
    exact htail pre t post hl

section Plain

variable {maxAccept acceptNum t : ℕ} {allowed ts : List ℕ}

/-- A client that is passed over is counted. -/
theorem plain_cons_skip (h : t = p ∨ t ∈ allowed) :
    Plain maxAccept p allowed acceptNum (t :: ts) ↔
    Plain maxAccept p allowed (acceptNum + 1) ts := by
  rw [Plain, forall_split_cons, Plain]
  have hold : ∀ u, u ≠ p → u ∉ allowed → u ≠ t := fun u hu hu' hut => h.elim (hut ▸ hu) (hut ▸ hu')
  have hnew : ∀ pre : List ℕ, ((t :: pre).toFinset.filter fun u => u ≠ p ∧ u ∉ allowed) =
      pre.toFinset.filter fun u => u ≠ p ∧ u ∉ allowed := by
    intro pre
    rw [toFinset_cons, Finset.filter_insert, if_neg fun hboth => hold t hboth.1 hboth.2 rfl]
  refine ⟨fun ⟨_, hrest⟩ pre u post hsplit hu hu' hpre hle => ?_,
    fun hrest => ⟨fun hu hu' => absurd rfl (hold t hu hu'), fun pre u post hsplit hu hu' hpre hle =>
      ?_⟩⟩
  · have := hrest pre u post hsplit hu hu' (by rw [mem_cons, not_or]; exact ⟨hold u hu hu', hpre⟩)
      (by rw [length_cons]; omega)
    rwa [hnew] at this
  · rw [hnew]
    rw [mem_cons, not_or] at hpre
    rw [length_cons] at hle
    exact hrest pre u post hsplit hu hu' hpre.2 (by omega)

/-- A client that is put on the list is counted, and the list is longer. -/
theorem plain_cons_add (hp : t ≠ p) (hnot : t ∉ allowed) (hlt : acceptNum < maxAccept) :
    Plain maxAccept p allowed acceptNum (t :: ts) ↔
    Plain maxAccept p (t :: allowed) (acceptNum + 1) ts := by
  rw [Plain, forall_split_cons, Plain]
  have hcard : ∀ pre : List ℕ, allowed.length + ((t :: pre).toFinset.filter fun u => u ≠ p ∧
      u ∉ allowed).card = (t :: allowed).length + (pre.toFinset.filter fun u => u ≠ p ∧
          u ∉ t :: allowed).card := by
    intro pre
    have hsplit : ((t :: pre).toFinset.filter fun u => u ≠ p ∧ u ∉ allowed) =
        insert t (pre.toFinset.filter fun u => u ≠ p ∧ u ∉ t :: allowed) := by
      ext u
      by_cases hu : u = t
      · simp [hu, hp, hnot]
      · simp [hu]
    rw [hsplit, Finset.card_insert_of_notMem (by simp), length_cons]
    omega
  refine ⟨fun ⟨_, hrest⟩ pre u post hsplit hu hu' hpre hle => ?_,
    fun hrest => ⟨fun _ _ _ hle => absurd hle (by rw [length_nil]; omega),
      fun pre u post hsplit hu hu' hpre hle => ?_⟩⟩
  · rw [mem_cons, not_or] at hu'
    rw [← hcard]
    exact hrest pre u post hsplit hu hu'.2 (by rw [mem_cons, not_or]; exact ⟨hu'.1, hpre⟩)
      (by rw [length_cons]; omega)
  · rw [mem_cons, not_or] at hpre
    rw [length_cons] at hle
    rw [hcard]
    exact hrest pre u post hsplit hu (by rw [mem_cons, not_or]; exact ⟨hpre.1, hu'⟩) hpre.2
      (by omega)

/-- A client that is new, where the count says that the list is full. -/
theorem plain_cons_full (hp : t ≠ p) (hnot : t ∉ allowed) (hle : maxAccept ≤ acceptNum) :
    Plain maxAccept p allowed acceptNum (t :: ts) ↔ maxAccept ≤ allowed.length := by
  refine ⟨fun h => ?_, fun h _ _ _ _ _ _ _ _ => h.trans (Nat.le_add_right ..)⟩
  exact h [] t ts rfl hp hnot not_mem_nil hle

end Plain

/-- **The add list.** The loop keeps the lists sound, and it says that the list is full when it is,
exactly under the condition. -/
theorem addLoop_right_iff {acceptNum : ℕ} {c : Client} (h : Inv cfg s) (hc : s.client p = some c)
    (hmy : c.myClient = true) (hle : (s.allowList p).length ≤ acceptNum)
    (hfound : ∀ nick ∈ nicks, (findNamedPerson s nick).isSome) :
    Inv cfg (addLoop cfg p nicks acceptNum s).1 ∧
      ((Reply.acceptFull ∈ (addLoop cfg p nicks acceptNum s).2 →
          cfg.maxAccept ≤ ((addLoop cfg p nicks acceptNum s).1.allowList p).length) ↔
        Plain cfg.maxAccept p (s.allowList p) acceptNum (nicks.filterMap (findNamedPerson s))) := by
  induction nicks generalizing s acceptNum with
  | nil => exact ⟨h, iff_of_true (by simp [addLoop]) (by simp [Plain])⟩
  | cons nick nicks ih =>
    obtain ⟨hnick, hfound⟩ := forall_mem_cons.mp hfound
    obtain ⟨t, hfind⟩ := isSome_iff_exists.mp hnick
    obtain ⟨d, hd, hclient⟩ := findNamedPerson_some hfind
    rw [addLoop, hfind, filterMap_cons_some hfind]
    dsimp only
    split_ifs with haccept hfull
    · obtain ⟨hinv, hright⟩ := ih h hc (hle.trans (Nat.le_succ _)) hfound
      refine ⟨hinv, ?_⟩
      rw [plain_cons_skip (acceptMessage_iff.mp haccept), ← hright, mem_cons]
      simp
    · rw [acceptMessage_iff, not_or] at haccept
      refine ⟨h, ?_⟩
      rw [plain_cons_full haccept.1 haccept.2 hfull]
      simp
    · rw [acceptMessage_iff, not_or] at haccept
      have hleft : (addAccept s p t).allowList p = t :: s.allowList p :=
        (left_link ..).trans (if_pos rfl)
      have hlen : ((addAccept s p t).allowList p).length ≤ acceptNum + 1 := by
        rw [hleft, length_cons]
        omega
      obtain ⟨hinv, hright⟩ := ih (h.addAccept hc hmy hd hclient haccept.2 (by omega)) hc hlen
        hfound
      refine ⟨hinv, hright.trans ?_⟩
      rw [hleft, plain_cons_add haccept.1 haccept.2 (by omega)]
      rfl

theorem acceptFull_not_mem_buildLoop (toks : List Str) (b : Bufs) :
    Reply.acceptFull ∉ (buildLoop s toks b).2 := by
  induction toks generalizing b with
  | nil => simp [buildLoop]
  | cons tok toks ih =>
    rw [buildLoop]
    split
    · simpa using ih b
    · exact ih _

theorem acceptFull_not_mem_listLoop (maxcount : ℕ) (l : List ℕ) (buf : Str) (count : ℕ) :
    Reply.acceptFull ∉ listLoop s maxcount l buf count := by
  induction l generalizing buf count with
  | nil =>
    rw [listLoop]
    split_ifs <;> simp
  | cons t l ih =>
    rw [listLoop, mem_append, not_or]
    exact ⟨by split_ifs <;> simp, ih _ _⟩

/-- A nick for which a client is found. -/
theorem named_isSome {part : Str → Option Str} {toks : List Str} :
    ∀ nick ∈ named s part toks, (findNamedPerson s nick).isSome := fun _ h => (mem_filter.mp h).2

theorem filterMap_named (part : Str → Option Str) (toks : List Str) :
    (named s part toks).filterMap (findNamedPerson s) = targets s part toks := by
  rw [named, targets, filterMap_filter]
  refine filterMap_congr fun nick _ => ?_
  split_ifs with hsome
  · rfl
  · exact (not_isSome_iff_eq_none.mp hsome).symm

/-- The condition on a command. What its nicks without a dash name is added to the list, after what
those with a dash name is taken off. -/
def MeetsNicks (cfg : Config) (s : State) (p : ℕ) (parv1 : Str) : Prop :=
  parv1.head? = some '*' ∨
    let kept := (s.allowList p).filter fun t => t ∉ targets s delName (tokens parv1)
    Plain cfg.maxAccept p kept kept.length (targets s addName (tokens parv1))

/-- **The command.** It keeps the lists sound, and says that the list is full when it is, exactly
under the condition. -/
theorem mAccept_right_iff {c : Client} {parv1 : Str} (h : Inv cfg s) (hc : s.client p = some c)
    (hmy : c.myClient = true) (hlength : parv1.length < ircdBufsize) :
      Inv cfg (mAccept cfg s p parv1).1 ∧ ((Reply.acceptFull ∈ (mAccept cfg s p parv1).2 →
        cfg.maxAccept ≤ ((mAccept cfg s p parv1).1.allowList p).length) ↔
        MeetsNicks cfg s p parv1) := by
  rw [mAccept, MeetsNicks]
  split_ifs with hstar
  · refine ⟨h, iff_of_true (fun hfull => ?_) (.inl hstar)⟩
    rw [listAccepts, mem_append] at hfull
    exact absurd hfull (by simp [acceptFull_not_mem_listLoop])
  · dsimp only
    obtain ⟨hadd, hdel⟩ := tokens_buildNicklist (s := s) hlength
    rw [hadd, hdel]
    obtain ⟨hinv, hstate, hlist, hnone⟩ := delLoop_spec (p := p) h
    rw [filterMap_named] at hlist
    have hfind : ∀ nick, findNamedPerson (delLoop p (named s delName (tokens parv1)) s).1 nick =
        findNamedPerson s nick := by
      intro nick
      rw [hstate]
      exact findNamedPerson_accepts ..
    have hc' : (delLoop p (named s delName (tokens parv1)) s).1.client p = some c := by rw [hstate,
      hc]
    obtain ⟨hinv', hright⟩ := addLoop_right_iff hinv hc' hmy le_rfl
      fun nick (hnick : nick ∈ named s addName (tokens parv1)) => by
        rw [hfind]; exact named_isSome nick hnick
    refine ⟨hinv', Iff.trans ?_ (hright.trans ?_)⟩
    · rw [mem_append, mem_append]
      simp [buildNicklist, acceptFull_not_mem_buildLoop, hnone]
    · rw [funext hfind, filterMap_named, hlist]
      exact (or_iff_right hstar).symm

end Loops

/-! ### The runs -/

section Runs

variable {cfg : Config} {s s' : State} {op : Op}

/-- **Every step keeps the lists sound.** -/
theorem Inv.step (h : Inv cfg s) (hs' : step cfg s op = some s') : Inv cfg s' := by
  obtain ⟨r, hr, rfl⟩ := map_eq_some_iff.mp hs'
  cases op with
  | connect p =>
    obtain ⟨t, ht, rfl⟩ := map_eq_some_iff.mp hr
    exact h.malloc ht
  | introduce p nick =>
    obtain ⟨t, ht, rfl⟩ := map_eq_some_iff.mp hr
    exact h.malloc ht
  | setInitialNick p nick =>
    obtain ⟨c, hc, hr⟩ := bind_eq_some_iff.mp hr
    split_ifs at hr
    cases hr
    exact h.rename hc nick
  | registerLocalUser p =>
    obtain ⟨c, hc, hr⟩ := bind_eq_some_iff.mp hr
    split_ifs at hr
    cases hr
    exact h.register hc
  | accept p parv1 =>
    obtain ⟨c, hc, hr⟩ := bind_eq_some_iff.mp hr
    split_ifs at hr with hcond
    cases hr
    rw [Bool.and_eq_true, decide_eq_true_iff] at hcond
    exact (mAccept_right_iff h hc hcond.1 hcond.2).1
  | nick p nick =>
    obtain ⟨c, hc, hr⟩ := bind_eq_some_iff.mp hr
    split_ifs at hr
    · cases hr
      exact (h.rename hc nick).clearOnAllowList p
    · cases hr
      exact (h.rename hc nick).delAllAccepts p _
  | exit p =>
    obtain ⟨c, hc, rfl⟩ := map_eq_some_iff.mp hr
    exact h.exit hc

theorem inv_empty (cfg : Config) : Inv cfg State.empty where
  placed := Placed.empty _
  tied := tied_empty
  length_le _ := Nat.zero_le _
  source _ _ hb := absurd hb not_mem_nil
  target _ _ hb := absurd hb not_mem_nil

/-- **A command is told that the list is full only when it is.** The list is the one at the end of
the command, which ends then. -/
def RefusesRightly (cfg : Config) (s : State) (op : Op) : Prop :=
  ∀ p parv1 r, op = .accept p parv1 → act cfg s op = some r → Reply.acceptFull ∈ r.2 →
    cfg.maxAccept ≤ (r.1.allowList p).length

/-- The condition on a step. -/
def Meets (cfg : Config) (s : State) (op : Op) : Prop :=
  ∀ p parv1, op = .accept p parv1 → (step cfg s op).isSome → MeetsNicks cfg s p parv1

theorem refusesRightly_iff (h : Inv cfg s) : RefusesRightly cfg s op ↔ Meets cfg s op := by
  refine forall_congr' fun p => forall_congr' fun parv1 => ?_
  have hiff : ∀ r, act cfg s (.accept p parv1) = some r →
      ((Reply.acceptFull ∈ r.2 → cfg.maxAccept ≤ (r.1.allowList p).length) ↔
          MeetsNicks cfg s p parv1) := by
    intro r hr
    obtain ⟨c, hc, hr⟩ := bind_eq_some_iff.mp hr
    split_ifs at hr with hcond
    cases hr
    rw [Bool.and_eq_true, decide_eq_true_iff] at hcond
    exact (mAccept_right_iff h hc hcond.1 hcond.2).2
  constructor
  · rintro hright rfl hsome
    obtain ⟨r, hr⟩ := isSome_iff_exists.mp (by simpa [step] using hsome)
    exact (hiff r hr).mp (hright r rfl hr)
  · rintro hmeets r rfl hr
    exact (hiff r hr).mpr (hmeets rfl (by rw [step, hr]; rfl))

/-- **Accept lists.** In every run the lists are sound, and every client that is told that its list
is full has a full list exactly if every command of the run meets the condition. -/
theorem accepts_iff {ops : List Op} (hrun : run (step cfg) State.empty ops = some s) :
    Sound cfg s ∧ (StepsMeet (step cfg) (RefusesRightly cfg) State.empty ops ↔
      StepsMeet (step cfg) (Meets cfg) State.empty ops) := by
  refine ⟨(invariant (Inv cfg) (fun _ _ _ h _ hs' => h.step hs') (inv_empty cfg)
    (StepsMeet.of_forall (fun _ _ => trivial) _ _) hrun).sound, ?_⟩
  exact stepsMeet_congr (Inv cfg) (fun _ _ _ h hs' => h.step hs') (fun _ _ h => refusesRightly_iff
    h) (inv_empty cfg)

end Runs

/-- Two clients are accepted at most. -/
def twoAccepts : Config := ⟨['i'], 2⟩

/-- A client of this server, and two of another one. -/
def three : List Op :=
  [.introduce 1 ['b'], .introduce 2 ['c'], .connect 0, .setInitialNick 0 ['a'],
    .registerLocalUser 0]

/-- A run with all steps of the lists. -/
def allSteps : List Op :=
  three ++ [.accept 0 "b,c".toList, .nick 2 ['d'], .accept 0 "-b,d".toList, .exit 1]

theorem accepts_iff_small : ∃ s, run (step twoAccepts) State.empty allSteps = some s ∧
    s.allowList 0 = [2] ∧ Sound twoAccepts s ∧
      (StepsMeet (step twoAccepts) (RefusesRightly twoAccepts) State.empty allSteps ↔
        StepsMeet (step twoAccepts) (Meets twoAccepts) State.empty allSteps) := by
  have hrun : (run (step twoAccepts) State.empty allSteps).map (fun s => s.allowList 0) =
      some [2] := rfl
  obtain ⟨s, hs, hlist⟩ := map_eq_some_iff.mp hrun
  exact ⟨s, hs, hlist, accepts_iff hs⟩

/-- A nick that is given twice is counted twice: the list has one client, and is said to be full. -/
theorem full_too_early : ((run (step twoAccepts) State.empty three).bind fun s =>
    act twoAccepts s (.accept 0 "b,b,c".toList)).map (fun r => (r.1.allowList 0, r.2)) =
      some ([1], [.acceptExist ['b'], .acceptFull]) := rfl

end Ratbox.Accept
