import Mathlib.Data.Set.Card
import Ratbox.Limits.Basic

/-!
# The clients of the classes

The number of clients of an I-line and of a class, and the counters of the blocks of a class, are
those of the clients that are attached, as long as no client is counted in a block and then turned
away because the I-line is full, and the block that is found for a client is of its family.

Source: `src/s_conf.c`, lines 384–453 and 525–621.

## Main definitions

* `Limits.Tied`: the numbers are those of the clients, where the blocks may count others.
* `Limits.Leaves`, `Limits.Joins`: what becomes of everything when a client is detached and
  attached.
* `Limits.Meets`: the I-line is not full behind the block, and the block that is found is of the
  family.
* `Limits.Unchanged`: an error leaves everything as it was.

## Main results

* `Limits.Good.detach`, `Limits.Good.attach`: the operations keep the numbers.
* `Limits.limits`: all runs.
* `Limits.Good.meets_of_family`: clients of one family.
* `Limits.attachConf_leaks`: a client that is turned away stays counted.
-/

namespace Ratbox.Limits

open Address Patricia Option Function Finset State

/-- The class that a client is attached to. -/
def State.classOf (s : State) (c : Client) : Option ℕ :=
  (s.attConf c).bind fun a => (s.conf a).bind (·.cClass)

/-- The clients of a class. -/
def State.members (s : State) (clients : Finset Client) (k : ℕ) : Finset Client :=
  clients.filter fun c => s.classOf c = some k

/-- The I-lines and classes that are used exist, the numbers of clients are right, and the blocks
count certain clients. -/
structure Tied (s : State) (clients : Finset Client) (counted : ℕ → Multiset Client) : Prop where
  valid : ∀ c, (s.ip c).Valid
  mem_iff : ∀ c, c ∈ clients ↔ s.attConf c ≠ none
  att : ∀ c a, s.attConf c = some a → ∃ f k cls, s.conf a = some f ∧ f.cClass = some k ∧
    s.cls k = some cls
  legal : ∀ a f, s.conf a = some f → f.illegal = false →
    ∃ k cls, f.cClass = some k ∧ s.cls k = some cls ∧ cls.maxTotal ≠ -1
  ofConf : ∀ a f, s.conf a = some f → f.clients = (clients.filter fun c => s.attConf c =
    some a).card
  total : ∀ k cls, s.cls k = some cls → cls.total = (s.members clients k).card
  blocks : ∀ k cls, s.cls k = some cls → Blocks s.ip (counted k) cls

/-- The blocks count the clients of the class. -/
def Good (s : State) : Prop := ∃ clients, Tied s clients fun k => (s.members clients k).val

section Tied

variable {s s' : State} {clients : Finset Client} {counted : ℕ → Multiset Client} {c : Client}
  {a k : ℕ} {f : Conf} {cls : Class}

theorem mem_members : c ∈ s.members clients k ↔ c ∈ clients ∧ s.classOf c = some k := mem_filter

theorem classOf_eq (ha : s.attConf c = some a) (hf : s.conf a = some f) :
    s.classOf c = f.cClass := by
  rw [classOf, ha, bind_some, hf, bind_some]

/-- A client leaves its I-line and its class; both may be freed. -/
structure Leaves (s s' : State) (c : Client) (a : ℕ) (f : Conf) (k : ℕ) (cls : Class)
    (left : Multiset Client) :
    Prop where
  attached : s.attConf c = some a
  conf : s.conf a = some f
  cClass : f.cClass = some k
  class_eq : s.cls k = some cls
  ip : s'.ip = s.ip
  att : s'.attConf = update s.attConf c none
  conf_of_ne : ∀ b, b ≠ a → s'.conf b = s.conf b
  class_of_ne : ∀ k', k' ≠ k → s'.cls k' = s.cls k'
  leftConf : ∀ g, s'.conf a = some g →
    g.clients = f.clients - 1 ∧ g.illegal = f.illegal ∧ (s'.cls k ≠ none → g.cClass = some k)
  freed : s'.conf a = none → f.clients - 1 = 0 ∧ f.illegal = true
  leftClass : ∀ g, s'.cls k = some g → g.maxTotal = cls.maxTotal ∧ g.total = cls.total - 1 ∧
    Blocks s.ip left g
  gone : s'.cls k = none → cls.maxTotal = -1 ∧ cls.total - 1 = 0

variable {left : Multiset Client} {c' : Client}

theorem Leaves.att_of_ne (hl : Leaves s s' c a f k cls left) (hne : c' ≠ c) :
    s'.attConf c' = s.attConf c' := by rw [hl.att, update_of_ne hne]

theorem Leaves.classOf (hl : Leaves s s' c a f k cls left) : s.classOf c = some k :=
  (classOf_eq hl.attached hl.conf).trans hl.cClass

section

variable (h : Tied s clients counted)
include h

theorem Tied.mem_members_of_leaves (hl : Leaves s s' c a f k cls left) : c ∈ s.members clients k :=
  mem_members.mpr ⟨(h.mem_iff c).mpr (by simp [hl.attached]), hl.classOf⟩

/-- The others keep their I-lines, and their classes. -/
theorem Tied.other_of_leaves
    (hl : Leaves s s' c a f k cls left) (hc' : c' ∈ clients) (hne : c' ≠ c) :
    ∃ a' g k' cls', s.attConf c' = some a' ∧ s'.conf a' = some g ∧ g.cClass = some k' ∧
      s'.cls k' = some cls' ∧ s.classOf c' = some k' := by
  have hclass : s.classOf c' = some k → s'.cls k ≠ none := by
    intro hc'k hnone
    have htwo := one_lt_card.mpr ⟨c, h.mem_members_of_leaves hl, c', mem_members.mpr ⟨hc', hc'k⟩,
      hne.symm⟩
    have htotal := h.total k cls hl.class_eq
    have hgone := (hl.gone hnone).2
    omega
  obtain ⟨a', ha'⟩ := ne_none_iff_exists'.mp ((h.mem_iff c').mp hc')
  obtain ⟨f', k', cls', hf', hk', hcls'⟩ := h.att c' a' ha'
  have hc'k : s.classOf c' = some k' := (classOf_eq ha' hf').trans hk'
  have hstill : ∃ cls', s'.cls k' = some cls' := by
    by_cases hkk : k' = k
    · exact ne_none_iff_exists'.mp (hkk ▸ hclass (hkk ▸ hc'k))
    · exact ⟨cls', (hl.class_of_ne k' hkk).trans hcls'⟩
  obtain ⟨cls₁, hcls₁⟩ := hstill
  by_cases haa : a' = a
  · subst haa
    cases hl.conf.symm.trans hf'
    cases hl.cClass.symm.trans hk'
    have htwo : 1 < (clients.filter fun c => s.attConf c = some a').card :=
      one_lt_card.mpr ⟨c, mem_filter.mpr ⟨(h.mem_iff c).mpr (by simp [hl.attached]), hl.attached⟩,
        c', mem_filter.mpr ⟨hc', ha'⟩, hne.symm⟩
    have hclients := h.ofConf a' f hf'
    cases hg : s'.conf a' with
    | none =>
      have hlast := (hl.freed hg).1
      omega
    | some g => exact ⟨a', g, k, cls₁, ha', hg, (hl.leftConf g hg).2.2 (hclass hc'k), hcls₁, hc'k⟩
  · exact ⟨a', f', k', cls₁, ha', (hl.conf_of_ne a' haa).trans hf', hk', hcls₁, hc'k⟩

/-- The classes lose the client. -/
theorem Tied.members_of_leaves (hl : Leaves s s' c a f k cls left) (k' : ℕ) :
    s'.members (clients.erase c) k' = (s.members clients k').erase c := by
  ext c'
  rw [mem_erase, mem_members, mem_members, mem_erase]
  by_cases hne : c' = c
  · simp [hne]
  · by_cases hc' : c' ∈ clients
    · obtain ⟨a', g, k'', cls', ha', hg, hk'', -, hc'k⟩ := h.other_of_leaves hl hc' hne
      rw [classOf_eq ((hl.att_of_ne hne).trans ha') hg, hk'', hc'k]
      simp [hne, hc']
    · simp [hc']

/-- A legal I-line has a class that is not about to be deleted, so both are kept. -/
theorem Tied.legal_of_leaves
    (hl : Leaves s s' c a f k cls left) {b : ℕ} {g : Conf} (hg : s.conf b = some g)
    (hlegal : g.illegal = false) :
    ∃ g' k' cls', s'.conf b = some g' ∧ g'.illegal = false ∧ g'.cClass = some k' ∧
      g.cClass = some k' ∧ s'.cls k' = some cls' ∧ cls'.maxTotal ≠ -1 := by
  obtain ⟨k', cls', hk', hcls', hmax⟩ := h.legal b g hg hlegal
  have hkept : ∃ cls₂, s'.cls k' = some cls₂ ∧ cls₂.maxTotal ≠ -1 := by
    by_cases hkk : k' = k
    · subst hkk
      cases hl.class_eq.symm.trans hcls'
      obtain ⟨cls₂, hcls₂⟩ := ne_none_iff_exists'.mp fun hnone => hmax (hl.gone hnone).1
      exact ⟨cls₂, hcls₂, (hl.leftClass cls₂ hcls₂).1 ▸ hmax⟩
    · exact ⟨cls', (hl.class_of_ne k' hkk).trans hcls', hmax⟩
  obtain ⟨cls₂, hcls₂, hmax₂⟩ := hkept
  by_cases hb : b = a
  · subst hb
    cases hl.conf.symm.trans hg
    cases hl.cClass.symm.trans hk'
    cases hg' : s'.conf b with
    | none => cases hlegal.symm.trans (hl.freed hg').2
    | some g' =>
      obtain ⟨-, hillegal, hclass⟩ := hl.leftConf g' hg'
      exact ⟨g', k, cls₂, rfl, hillegal.trans hlegal, hclass (by simp [hcls₂]), hk', hcls₂, hmax₂⟩
  · exact ⟨g, k', cls₂, (hl.conf_of_ne b hb).trans hg, hlegal, hk', hk', hcls₂, hmax₂⟩

/-- Without the client, the numbers are right. -/
theorem Tied.of_leaves (hl : Leaves s s' c a f k cls ((counted k).erase c)) :
    Tied s' (clients.erase c) (update counted k ((counted k).erase c)) := by
  refine ⟨fun c' => hl.ip ▸ h.valid c', fun c' => ?_, fun c' a' ha' => ?_, fun b g hg hlegal => ?_,
    fun b g hg => ?_, fun k' g hg => ?_, fun k' g hg => ?_⟩
  · rw [mem_erase, h.mem_iff, hl.att, update_apply]
    split_ifs with hne
    · simp [hne]
    · simp [hne]
  · have hne : c' ≠ c := by
      rintro rfl
      rw [hl.att, update_self] at ha'
      cases ha'
    rw [hl.att_of_ne hne] at ha'
    obtain ⟨a₁, g, k', cls', ha₁, hg, hk', hcls', -⟩ :=
      h.other_of_leaves hl ((h.mem_iff c').mpr (by simp [ha'])) hne
    cases ha'.symm.trans ha₁
    exact ⟨g, k', cls', hg, hk', hcls'⟩
  · have hbefore : ∃ g₀, s.conf b = some g₀ ∧ g₀.illegal = false := by
      by_cases hb : b = a
      · subst hb
        exact ⟨f, hl.conf, (hl.leftConf g hg).2.1 ▸ hlegal⟩
      · exact ⟨g, (hl.conf_of_ne b hb).symm.trans hg, hlegal⟩
    obtain ⟨g₀, hg₀, hlegal₀⟩ := hbefore
    obtain ⟨g', k', cls', hg', -, hk', -, hcls', hmax⟩ := h.legal_of_leaves hl hg₀ hlegal₀
    cases hg.symm.trans hg'
    exact ⟨k', cls', hk', hcls', hmax⟩
  · have hfilter : (clients.erase c).filter (fun c' => s'.attConf c' = some b) =
        (clients.filter fun c' => s.attConf c' = some b).erase c := by
      rw [filter_erase]
      ext c'
      rw [mem_erase, mem_erase, mem_filter, mem_filter]
      exact and_congr_right fun hne => by rw [hl.att_of_ne hne]
    rw [hfilter]
    by_cases hb : b = a
    · subst hb
      have hin : c ∈ clients.filter fun c' => s.attConf c' = some b :=
        mem_filter.mpr ⟨(h.mem_iff c).mpr (by simp [hl.attached]), hl.attached⟩
      rw [(hl.leftConf g hg).1, h.ofConf b f hl.conf, card_erase_of_mem hin,
        Nat.cast_sub (card_pos.mpr ⟨c, hin⟩), Nat.cast_one]
    · rw [erase_eq_of_notMem, h.ofConf b g ((hl.conf_of_ne b hb).symm.trans hg)]
      exact fun hin => hb (some.inj ((mem_filter.mp hin).2.symm.trans hl.attached))
  · rw [h.members_of_leaves hl]
    by_cases hkk : k' = k
    · subst hkk
      have hin := h.mem_members_of_leaves hl
      rw [(hl.leftClass g hg).2.1, h.total _ cls hl.class_eq, card_erase_of_mem hin,
        Nat.cast_sub (card_pos.mpr ⟨c, hin⟩), Nat.cast_one]
    · rw [erase_eq_of_notMem, h.total k' g ((hl.class_of_ne k' hkk).symm.trans hg)]
      exact fun hin => hkk (some.inj ((mem_members.mp hin).2.symm.trans hl.classOf))
  · by_cases hkk : k' = k
    · subst hkk
      rw [update_self]
      exact hl.ip ▸ (hl.leftClass g hg).2.2
    · rw [update_of_ne hkk]
      exact hl.ip ▸ h.blocks k' g ((hl.class_of_ne k' hkk).symm.trans hg)

/-- A client leaves its class, which is freed when it is about to be deleted and this was its last
client. -/
theorem Tied.leaveClass (ha : s.attConf c = some a) (hf : s.conf a = some f)
    (hk : f.cClass = some k) (hcls : s.cls k = some cls) (hin : c ∈ counted k)
    (hown : Own cls.ipLimits (s.ip c)) :
    ∃ s₁ f₁, leaveClass s c a f = some s₁ ∧ s₁.ip = s.ip ∧ s₁.attConf = s.attConf ∧
      s₁.conf a = some f₁ ∧ (∀ b, b ≠ a → s₁.conf b = s.conf b) ∧
      (∀ k', k' ≠ k → s₁.cls k' = s.cls k') ∧
      (f₁.clients = f.clients ∧ f₁.illegal = f.illegal ∧ (s₁.cls k ≠ none → f₁.cClass = some k)) ∧
        (∀ g, s₁.cls k = some g → g.maxTotal = cls.maxTotal ∧ g.total = cls.total - 1 ∧
        Blocks s.ip ((counted k).erase c) g) ∧
        (s₁.cls k = none → cls.maxTotal = -1 ∧ cls.total - 1 = 0) := by
  obtain ⟨t, hremove, hblocks⟩ := (h.blocks k cls hcls).remove hown hin
  have hmem : c ∈ s.members clients k :=
    mem_members.mpr ⟨(h.mem_iff c).mpr (by simp [ha]), (classOf_eq ha hf).trans hk⟩
  have hpos : 0 < (cls.setLimits t).total := by
    rw [Class.setLimits, h.total k cls hcls]
    exact_mod_cast card_pos.mpr ⟨c, hmem⟩
  rw [Limits.leaveClass, hk]
  dsimp only
  rw [hcls, bind_eq_bind, bind_some, hremove, bind_some, if_pos hpos]
  split_ifs with hgone
  · refine ⟨_, { f with cClass := none }, rfl, rfl, rfl, update_self .., fun b hb => update_of_ne hb
      .., fun k' hk' => update_of_ne hk' .., ⟨rfl, rfl, fun hne => absurd (update_self ..) hne⟩,
      fun g hg => ?_, fun _ => hgone⟩
    cases (update_self ..).symm.trans hg
  · refine ⟨_, f, rfl, rfl, rfl, hf, fun b _ => rfl, fun k' hk' => update_of_ne hk' ..,
      ⟨rfl, rfl, fun _ => hk⟩, fun g hg => ?_, fun hnone => ?_⟩
    · rw [setClass_cls, update_self] at hg
      cases hg
      exact ⟨rfl, rfl, hblocks.inv, hblocks.maxbits, hblocks.fits, hblocks.counted, hblocks.found⟩
    · rw [setClass_cls, update_self] at hnone
      cases hnone

/-- **A client is detached** from its I-line. -/
theorem Tied.detach (ha : s.attConf c = some a) (hf : s.conf a = some f)
    (hk : f.cClass = some k) (hcls : s.cls k = some cls) (hin : c ∈ counted k)
    (hown : Own cls.ipLimits (s.ip c)) :
    ∃ s', detachConf s c = some (true, s') ∧ Leaves s s' c a f k cls ((counted k).erase c) := by
  obtain ⟨s₁, f₁, hs₁, hip, hatt, hf₁, hconf, hother, ⟨hclients, hillegal, hclass⟩, hleft, hgone⟩ :=
    h.leaveClass ha hf hk hcls hin hown
  have hleave : ∃ o, leaveConf s₁ c a = some ((s₁.setConf a o).setAtt c none) ∧
      o = if f₁.clients - 1 = 0 ∧ f₁.illegal = true then none else some { f₁ with
        clients := f₁.clients - 1 } :=
    ⟨_, by rw [leaveConf, hf₁, map_some], rfl⟩
  obtain ⟨o, hs', ho⟩ := hleave
  have hself : ((s₁.setConf a o).setAtt c none).conf a = o := by rw [setAtt_conf, setConf_conf,
    update_self]
  have hdetach : detachConf s c = some (true, (s₁.setConf a o).setAtt c none) := by
    rw [detachConf, ha]
    dsimp only
    rw [hf, bind_eq_bind, bind_some, hs₁, bind_eq_bind, bind_some, hs',
      bind_some]
  refine ⟨_, hdetach, ⟨ha, hf, hk, hcls, hip, ?_, fun b hb => ?_, hother, fun g hg => ?_,
    fun hnone => ?_, hleft, hgone⟩⟩
  · rw [setAtt_attConf, setConf_attConf, hatt]
  · rw [setAtt_conf, setConf_conf, update_of_ne hb, hconf b hb]
  · rw [hself, ho] at hg
    split_ifs at hg
    cases hg
    exact ⟨by rw [← hclients], hillegal, hclass⟩
  · rw [hself, ho] at hnone
    split_ifs at hnone with hlast
    exact ⟨by rw [← hclients, hlast.1], hillegal ▸ hlast.2⟩

end

/-- The numbers of clients of the blocks are not those of the class. -/
theorem Blocks.setTotal {ip : Client → Ip} {members : Multiset Client} (h : Blocks ip members cls)
    (n : ℤ) :
    Blocks ip members (cls.setTotal n) := ⟨h.inv, h.maxbits, h.fits, h.counted, h.found⟩

/-- The blocks of a class count others. -/
theorem Tied.setLimits (h : Tied s clients counted) (hcls : s.cls k = some cls)
    {t : Patricia.Tree ℤ} (hblocks : Blocks s.ip left (cls.setLimits t)) :
    Tied (s.setClass k (some (cls.setLimits t))) clients (update counted k left) := by
  have hclass : ∀ {k' cls'}, s.cls k' = some cls' →
      ∃ cls₂, (s.setClass k (some (cls.setLimits t))).cls k' = some cls₂ ∧
          cls₂.maxTotal = cls'.maxTotal := by
    intro k' cls' hcls'
    rw [setClass_cls, update_apply]
    split_ifs with hkk
    · subst hkk
      cases hcls.symm.trans hcls'
      exact ⟨_, rfl, rfl⟩
    · exact ⟨cls', hcls', rfl⟩
  refine ⟨h.valid, h.mem_iff, fun c' a' ha' => ?_, fun b g hg hlegal => ?_, h.ofConf,
    fun k' g hg => ?_, fun k' g hg => ?_⟩
  · obtain ⟨f', k', cls', hf', hk', hcls'⟩ := h.att c' a' ha'
    obtain ⟨cls₂, hcls₂, -⟩ := hclass hcls'
    exact ⟨f', k', cls₂, hf', hk', hcls₂⟩
  · obtain ⟨k', cls', hk', hcls', hmax⟩ := h.legal b g hg hlegal
    obtain ⟨cls₂, hcls₂, hsame⟩ := hclass hcls'
    exact ⟨k', cls₂, hk', hcls₂, hsame ▸ hmax⟩
  · rw [setClass_cls, update_apply] at hg
    split_ifs at hg with hkk
    · subst hkk
      cases hg
      exact h.total k' cls hcls
    · exact h.total k' g hg
  · rw [setClass_cls, update_apply] at hg
    rw [update_apply]
    split_ifs at hg ⊢ with hkk
    · cases hg
      exact hblocks
    · exact h.blocks k' g hg

theorem Tied.setExempt (h : Tied s clients counted) (c : Client) :
    Tied (s.setExempt c) clients counted :=
  ⟨h.valid, h.mem_iff, h.att, h.legal, h.ofConf, h.total, h.blocks⟩

/-- A client joins an I-line and its class. -/
structure Joins (s s' : State) (c : Client) (a : ℕ) (f : Conf) (k : ℕ) (cls : Class) : Prop where
  conf_eq : s.conf a = some f
  cClass : f.cClass = some k
  class_eq : s.cls k = some cls
  ip : s'.ip = s.ip
  att : s'.attConf = update s.attConf c (some a)
  conf : s'.conf = update s.conf a (some { f with clients := f.clients + 1 })
  cls : s'.cls = update s.cls k (some (cls.setTotal (cls.total + 1)))

theorem joinConf_spec (c : Client) (hf : s.conf a = some f) (hk : f.cClass = some k)
    (hcls : s.cls k = some cls) :
    ∃ s', joinConf s c a = some s' ∧ Joins s s' c a f k cls := by
  have hjoin : joinConf s c a =
      some (((s.setAtt c (some a)).setConf a (some { f with clients := f.clients + 1 })).setClass k
          (some (cls.setTotal (cls.total + 1)))) := by
    rw [joinConf, hf, bind_eq_bind, bind_some, hk, bind_eq_bind, bind_some, hcls,
      bind_eq_bind, bind_some]
  exact ⟨_, hjoin, hf, hk, hcls, rfl, rfl, rfl, rfl⟩

section

variable (hj : Joins s s' c a f k cls)
include hj

theorem Joins.att_self : s'.attConf c = some a := by rw [hj.att, update_self]

theorem Joins.att_of_ne (hne : c' ≠ c) : s'.attConf c' = s.attConf c' := by
  rw [hj.att, update_of_ne hne]

theorem Joins.conf_of_some {b : ℕ} {g : Conf} (hg : s.conf b = some g) :
    ∃ g', s'.conf b = some g' ∧ g'.cClass = g.cClass ∧ g'.illegal = g.illegal := by
  rw [hj.conf, update_apply]
  split_ifs with hb
  · subst hb
    cases hj.conf_eq.symm.trans hg
    exact ⟨_, rfl, rfl, rfl⟩
  · exact ⟨g, hg, rfl, rfl⟩

theorem Joins.class_of_some {k' : ℕ} {cls' : Class} (hcls' : s.cls k' = some cls') :
    ∃ cls₂, s'.cls k' = some cls₂ ∧ cls₂.maxTotal = cls'.maxTotal := by
  rw [hj.cls, update_apply]
  split_ifs with hkk
  · subst hkk
    cases hj.class_eq.symm.trans hcls'
    exact ⟨_, rfl, rfl⟩
  · exact ⟨cls', hcls', rfl⟩

end

/-- The class has the client. -/
theorem Tied.members_of_joins (h : Tied s clients counted) (hj : Joins s s' c a f k cls)
    (hc : c ∉ clients) (k' : ℕ) :
    s'.members (insert c clients) k' = if k' = k then insert c (s.members clients k')
    else s.members clients k' := by
  ext c'
  by_cases hne : c' = c
  · subst hne
    obtain ⟨g, hg, hgk, -⟩ := hj.conf_of_some hj.conf_eq
    rw [mem_members, classOf_eq hj.att_self hg, hgk, hj.cClass]
    split_ifs with hkk
    · simp [hkk]
    · have hout : c' ∉ s.members clients k' := fun hin => hc (mem_members.mp hin).1
      simp [hout, Ne.symm hkk]
  · have hsame : c' ∈ clients → s'.classOf c' = s.classOf c' := by
      intro hc'
      obtain ⟨a', ha'⟩ := ne_none_iff_exists'.mp ((h.mem_iff c').mp hc')
      obtain ⟨f', k'', cls', hf', -, -⟩ := h.att c' a' ha'
      obtain ⟨g, hg, hgk, -⟩ := hj.conf_of_some hf'
      rw [classOf_eq ((hj.att_of_ne hne).trans ha') hg, classOf_eq ha' hf', hgk]
    have hiff : c' ∈ s'.members (insert c clients) k' ↔ c' ∈ s.members clients k' := by
      rw [mem_members, mem_members, mem_insert, or_iff_right hne]
      exact and_congr_right fun hc' => by rw [hsame hc']
    rw [hiff]
    split_ifs
    · rw [mem_insert, or_iff_right hne]
    · exact Iff.rfl

/-- The I-line has the client. -/
theorem Joins.filter (hj : Joins s s' c a f k cls) (hc : c ∉ clients) (b : ℕ) :
    (insert c clients).filter (fun c' => s'.attConf c' = some b) =
      if b = a then insert c (clients.filter fun c' => s.attConf c' = some b)
      else clients.filter fun c' => s.attConf c' = some b := by
  have hsame : (clients.filter fun c' => s'.attConf c' = some b) = clients.filter fun c' =>
    s.attConf c' = some b :=
    filter_congr fun c' hc' => by rw [hj.att_of_ne fun hne => hc (hne ▸ hc')]
  rw [filter_insert, hsame]
  exact if_congr (by rw [hj.att_self, some_inj, eq_comm]) rfl rfl

section

variable (h : Tied s clients counted)
include h

/-- With the client, the numbers are right. -/
theorem Tied.of_joins (hj : Joins s s' c a f k cls) (hc : c ∉ clients) :
    Tied s' (insert c clients) counted := by
  refine ⟨fun c' => hj.ip ▸ h.valid c', fun c' => ?_, fun c' a' ha' => ?_, fun b g hg hlegal => ?_,
    fun b g hg => ?_, fun k' g hg => ?_, fun k' g hg => ?_⟩
  · by_cases hne : c' = c
    · simp [hne, hj.att_self]
    · rw [mem_insert, or_iff_right hne, h.mem_iff, hj.att_of_ne hne]
  · have hbefore : ∃ f' k' cls', s.conf a' = some f' ∧ f'.cClass = some k' ∧
        s.cls k' = some cls' := by
      by_cases hne : c' = c
      · subst hne
        cases hj.att_self.symm.trans ha'
        exact ⟨f, k, cls, hj.conf_eq, hj.cClass, hj.class_eq⟩
      · exact h.att c' a' ((hj.att_of_ne hne).symm.trans ha')
    obtain ⟨f', k', cls', hf', hk', hcls'⟩ := hbefore
    obtain ⟨g, hg, hgk, -⟩ := hj.conf_of_some hf'
    obtain ⟨cls₂, hcls₂, -⟩ := hj.class_of_some hcls'
    exact ⟨g, k', cls₂, hg, hgk.trans hk', hcls₂⟩
  · have hbefore : ∃ g₀, s.conf b = some g₀ := by
      by_cases hb : b = a
      · exact ⟨f, hb ▸ hj.conf_eq⟩
      · exact ⟨g, by rwa [hj.conf, update_of_ne hb] at hg⟩
    obtain ⟨g₀, hg₀⟩ := hbefore
    obtain ⟨g', hg', hgk, hgi⟩ := hj.conf_of_some hg₀
    cases hg.symm.trans hg'
    obtain ⟨k', cls', hk', hcls', hmax⟩ := h.legal b g₀ hg₀ (hgi ▸ hlegal)
    obtain ⟨cls₂, hcls₂, hsame⟩ := hj.class_of_some hcls'
    exact ⟨k', cls₂, hgk.trans hk', hcls₂, hsame ▸ hmax⟩
  · rw [hj.filter hc]
    rw [hj.conf, update_apply] at hg
    split_ifs at hg ⊢ with hb
    · subst hb
      cases hg
      rw [card_insert_of_notMem fun hin => hc (mem_filter.mp hin).1, Nat.cast_succ,
        ← h.ofConf b f hj.conf_eq]
    · exact h.ofConf b g hg
  · rw [h.members_of_joins hj hc]
    rw [hj.cls, update_apply] at hg
    split_ifs at hg ⊢ with hkk
    · subst hkk
      cases hg
      rw [card_insert_of_notMem fun hin => hc (mem_members.mp hin).1, Class.setTotal, Nat.cast_succ,
        ← h.total k' cls hj.class_eq]
    · exact h.total k' g hg
  · rw [hj.ip]
    rw [hj.cls, update_apply] at hg
    split_ifs at hg with hkk
    · subst hkk
      cases hg
      exact (h.blocks k' cls hj.class_eq).setTotal _
    · exact h.blocks k' g hg

/-- A client is detached from its I-line, if it is attached. -/
theorem Tied.detach_any (c : Client)
    (hown : ∀ a f k cls, s.attConf c = some a → s.conf a = some f → f.cClass = some k →
      s.cls k = some cls → c ∈ counted k ∧ Own cls.ipLimits (s.ip c)) :
    ∃ b s' counted', detachConf s c = some (b, s') ∧ Tied s' (clients.erase c) counted' ∧
      (∀ k', s'.members (clients.erase c) k' = (s.members clients k').erase c) ∧
      (∀ k', counted' k' = if s.classOf c = some k' then (counted k').erase c else counted k') ∧
      ∀ b g, s.conf b = some g → g.illegal = false → ∃ g' k' cls', s'.conf b = some g' ∧
        g'.cClass = some k' ∧ g.cClass = some k' ∧ s'.cls k' = some cls' := by
  cases ha : s.attConf c with
  | none =>
    have hout : c ∉ clients := fun hin => (h.mem_iff c).mp hin ha
    refine ⟨false, s, counted, by rw [detachConf, ha], (erase_eq_of_notMem hout).symm ▸ h,
      fun k' => ?_, fun k' => ?_, fun b g hg hlegal => ?_⟩
    · rw [erase_eq_of_notMem hout, erase_eq_of_notMem fun hin => hout (mem_members.mp hin).1]
    · rw [classOf, ha, bind_none, if_neg (by simp)]
    · obtain ⟨k', cls', hk', hcls', -⟩ := h.legal b g hg hlegal
      exact ⟨g, k', cls', hg, hk', hk', hcls'⟩
  | some a =>
    obtain ⟨f, k, cls, hf, hk, hcls⟩ := h.att c a ha
    obtain ⟨hin, hown⟩ := hown a f k cls ha hf hk hcls
    obtain ⟨s', hs', hl⟩ := h.detach ha hf hk hcls hin hown
    refine ⟨true, s', _, hs', h.of_leaves hl, h.members_of_leaves hl, fun k' => ?_,
      fun b g hg hlegal => ?_⟩
    · by_cases hkk : k' = k
      · subst hkk
        rw [update_self, if_pos hl.classOf]
      · rw [update_of_ne hkk, if_neg fun hk' => hkk (some.inj (hk'.symm.trans hl.classOf))]
    · obtain ⟨g', k', cls', hg', -, hk', hgk, hcls', -⟩ := h.legal_of_leaves hl hg hlegal
      exact ⟨g', k', cls', hg', hk', hgk, hcls'⟩

theorem Tied.congr {counted' : ℕ → Multiset Client} (heq : ∀ k, counted k = counted' k) :
    Tied s clients counted' := funext heq ▸ h

theorem Tied.mem_members_iff : c ∈ s.members clients k ↔ s.classOf c = some k := by
  rw [mem_members, and_iff_right_iff_imp, h.mem_iff]
  intro hk hnone
  rw [classOf, hnone] at hk
  cases hk

end

end Tied

/-! ### The operations -/

section Operations

variable {s : State} {c : Client} {a k : ℕ} {f : Conf} {cls : Class} {clients : Finset Client}

/-- The block that is found for a client in its class is of its family. -/
def OwnBlock (s : State) (c : Client) : Prop :=
  ∀ a f k cls, s.attConf c = some a → s.conf a = some f → f.cClass = some k → s.cls k = some cls →
    Own cls.ipLimits (s.ip c)

/-- The condition on an operation. -/
def Meets (s : State) : Op → Prop
  | .attach c a => ∀ f k cls, s.conf a = some f → f.illegal = false → f.cClass = some k →
      s.cls k = some cls → Rejects cls (s.ip c) f.exemptLimits ∨
        if full f cls ∧ f.exemptLimits = false then cls.limited = false
        else Own cls.ipLimits (s.ip c) ∧ OwnBlock s c
  | .detach c => OwnBlock s c

/-- The numbers of clients of a class and of its blocks. -/
def Class.numbers (cls : Class) : ℤ × (Addr → Option Prefix) × (Addr → Option ℤ) :=
  (cls.total, cls.ipLimits.pfxAt, cls.ipLimits.dataAt)

/-- Nothing is counted, attached or detached. -/
structure Unchanged (s s' : State) : Prop where
  ip : s'.ip = s.ip
  attConf : s'.attConf = s.attConf
  exempt : s'.exempt = s.exempt
  conf : s'.conf = s.conf
  cls : ∀ k, (s'.cls k).map Class.numbers = (s.cls k).map Class.numbers

theorem Unchanged.refl (s : State) : Unchanged s s := ⟨rfl, rfl, rfl, rfl, fun _ => rfl⟩

/-- **A client is detached**, and the numbers are right. -/
theorem Good.detach (h : Good s) (hown : OwnBlock s c) : ∃ b s', detachConf s c = some (b, s') ∧
    Good s' := by
  obtain ⟨clients, h⟩ := h
  obtain ⟨b, s', counted', hs', htied, hmembers, hcounted, -⟩ := h.detach_any c
      fun a f k cls ha hf hk hcls =>
    ⟨h.mem_members_iff.mpr ((classOf_eq ha hf).trans hk), hown a f k cls ha hf hk hcls⟩
  refine ⟨b, s', hs', clients.erase c, htied.congr fun k => ?_⟩
  rw [hmembers, hcounted, erase_val]
  split_ifs with hk
  · rfl
  · exact (Multiset.erase_of_notMem fun hin => hk (h.mem_members_iff.mp hin)).symm

/-- A client is counted in the blocks of its new class. -/
theorem Tied.count (h : Tied s clients fun k => (s.members clients k).val)
    (hcls : s.cls k = some cls) (hown : Own cls.ipLimits (s.ip c)) (hownOld : OwnBlock s c)
    {ex : Bool} {t : Patricia.Tree ℤ}
    (hadd : addIpLimit cls (s.ip c) ex = some (true, cls.setLimits t)) :
    Tied (s.setClass k (some (cls.setLimits t))) clients
        (update (fun k' => (s.members clients k').val) k (c ::ₘ (s.members clients k).val)) ∧
      OwnBlock (s.setClass k (some (cls.setLimits t))) c := by
  have hblocks := h.blocks k cls hcls
  refine ⟨h.setLimits hcls (hblocks.add (h.valid c) hown hadd),
    fun a' f' k' cls' ha' hf' hk' hcls' => ?_⟩
  rw [setClass_cls, update_apply] at hcls'
  split_ifs at hcls' with hkk
  · -- A client that was in the class has its block there already.
    cases hcls'
    have hin : c ∈ (s.members clients k).val :=
      h.mem_members_iff.mpr (hkk ▸ (classOf_eq ha' hf').trans hk')
    exact hown.congr (hblocks.pfxAt_of_add hin hadd)
  · exact hownOld a' f' k' cls' ha' hf' hk' hcls'

/-- A client that is counted in its new class already leaves the old one and joins the new one. -/
theorem Tied.enter (h : Tied s clients
      (update (fun k' => (s.members clients k').val) k (c ::ₘ (s.members clients k).val)))
    (hf : s.conf a = some f) (hlegal : f.illegal = false) (hk : f.cClass = some k)
    (hown : OwnBlock s c) :
    ∃ b s₁ s', detachConf s c = some (b, s₁) ∧ joinConf s₁ c a = some s' ∧ Good s' := by
  obtain ⟨b, s₁, counted', hs₁, htied, hmembers, hcounted, hkept⟩ :=
      h.detach_any c fun a' f' k' cls' ha' hf' hk' hcls' => by
    refine ⟨?_, hown a' f' k' cls' ha' hf' hk' hcls'⟩
    rw [update_apply]
    split_ifs
    · exact Multiset.mem_cons_self ..
    · exact h.mem_members_iff.mpr ((classOf_eq ha' hf').trans hk')
  obtain ⟨g, k', cls', hg, hgk, hfk, hcls'⟩ := hkept a f hf hlegal
  cases hk.symm.trans hfk
  obtain ⟨s', hs', hj⟩ := joinConf_spec c hg hgk hcls'
  have hout : c ∉ clients.erase c := notMem_erase c clients
  refine ⟨b, s₁, s', hs₁, hs', insert c (clients.erase c), (htied.of_joins hj hout).congr fun k' =>
    ?_⟩
  rw [htied.members_of_joins hj hout, hmembers, hcounted]
  have hin : c ∈ s.members clients k' ↔ s.classOf c = some k' := h.mem_members_iff
  -- The client is counted once in the new class, and in no other.
  by_cases hkk : k' = k
  · subst hkk
    rw [if_pos rfl, update_self]
    split_ifs with hclass
    · rw [Multiset.erase_cons_head, insert_erase (hin.mpr hclass)]
    · rw [erase_eq_of_notMem (mt hin.mp hclass), insert_val_of_notMem (mt hin.mp hclass)]
  · rw [if_neg hkk, update_of_ne hkk, erase_val]
    split_ifs with hclass
    · rfl
    · exact (Multiset.erase_of_notMem (mt hin.mp hclass)).symm

/-- **A client is attached**, and the numbers are right; an error changes nothing. -/
theorem Good.attach (h : Good s) (hf : s.conf a = some f) (hmeets : Meets s (.attach c a)) :
    ∃ r s', attachConf s c a = some (r, s') ∧ Good s' ∧ (r ≠ .success → Unchanged s s') := by
  obtain ⟨clients, h⟩ := h
  rw [attachConf, hf, bind_eq_bind, bind_some]
  split_ifs with hlegal
  · exact ⟨.notAuthorised, s, rfl, ⟨clients, h⟩, fun _ => Unchanged.refl s⟩
  replace hlegal : f.illegal = false := by simpa using hlegal
  obtain ⟨k, cls, hk, hcls, hmax⟩ := h.legal a f hf hlegal
  have hblocks := h.blocks k cls hcls
  obtain ⟨ok, cls', hadd, hiff, hsame, t, rfl⟩ := hblocks.addIpLimit_iff (s.ip c) f.exemptLimits
  have hjoin : joinBlock s c f = some (ok, s.setClass k (some (cls.setLimits t))) := by
    rw [joinBlock, hk]
    dsimp only
    rw [hcls, bind_eq_bind, bind_some, hadd]
    rfl
  rw [hjoin, bind_eq_bind, bind_some]
  dsimp only
  cases ok with
  | false =>
    have htied := h.setLimits hcls ((hsame rfl).blocks hblocks)
    rw [update_eq_self] at htied
    refine ⟨.tooManyLocal, _, rfl, ⟨clients, htied⟩, fun _ => ⟨rfl, rfl, rfl, rfl, fun k' => ?_⟩⟩
    rw [setClass_cls, update_apply]
    split_ifs with hkk
    · rw [hkk, hcls, map_some, map_some, Class.numbers, Class.numbers, (hsame rfl).pfxAt,
        (hsame rfl).dataAt]
      rfl
    · rfl
  | true =>
    have hmeets := (hmeets f k cls hf hlegal hk hcls).resolve_left fun hreject => absurd
      (hiff.mpr hreject) (by simp)
    have hfull : full f (cls.setLimits t) = full f cls := rfl
    rw [if_neg (by simp), hk, bind_eq_bind, bind_some, setClass_cls, update_self, bind_eq_bind,
      bind_some, hfull]
    split_ifs at hmeets ⊢ with hline hexempt
    · -- Nothing was counted, as the class has no blocks.
      rw [addIpLimit, hmeets, if_pos (by simp)] at hadd
      obtain ⟨-, ht⟩ := Prod.mk.inj (some.inj hadd)
      have hsame : s.setClass k (some (cls.setLimits t)) = s := by
        rw [← ht, ← hcls, setClass, update_eq_self]
      rw [hsame]
      exact ⟨.iLineFull, s, rfl, ⟨clients, h⟩, fun _ => Unchanged.refl s⟩
    · obtain ⟨htied, hown⟩ := h.count hcls hmeets.1 hmeets.2 hadd
      obtain ⟨b, s₁, s', hs₁, hs', hgood⟩ := (htied.setExempt c).enter hf hlegal hk hown
      exact ⟨.success, s', by rw [hs₁, bind_some]; dsimp only; rw [hs']; rfl, hgood, by simp⟩
    · obtain ⟨htied, hown⟩ := h.count hcls hmeets.1 hmeets.2 hadd
      obtain ⟨b, s₁, s', hs₁, hs', hgood⟩ := htied.enter hf hlegal hk hown
      exact ⟨.success, s', by rw [hs₁, bind_some]; dsimp only; rw [hs']; rfl, hgood, by simp⟩

/-- **Steps** keep the numbers. -/
theorem Good.step (h : Good s) {op : Op} (hmeets : Meets s op) {s' : State}
    (hs' : Limits.step s op = some s') :
    Good s' := by
  cases op with
  | attach c a =>
    obtain ⟨⟨r, s₁⟩, hs₁, rfl⟩ := map_eq_some_iff.mp hs'
    rw [attachConf] at hs₁
    obtain ⟨f, hf, -⟩ := bind_eq_some_iff.mp hs₁
    obtain ⟨r', s₂, hs₂, hgood, -⟩ := h.attach hf hmeets
    rw [attachConf, hs₁] at hs₂
    obtain ⟨-, rfl⟩ := Prod.mk.inj (some.inj hs₂)
    exact hgood
  | detach c =>
    obtain ⟨⟨b, s₁⟩, hs₁, rfl⟩ := map_eq_some_iff.mp hs'
    obtain ⟨b', s₂, hs₂, hgood⟩ := h.detach hmeets
    obtain ⟨-, rfl⟩ := Prod.mk.inj (some.inj (hs₁.symm.trans hs₂))
    exact hgood

end Operations

/-! ### All runs -/

/-- No client is attached, and the classes are as they are made. -/
structure Start (s : State) : Prop where
  valid : ∀ c, (s.ip c).Valid
  attConf : ∀ c, s.attConf c = none
  conf : ∀ a f, s.conf a = some f → f.clients = 0 ∧
    (f.illegal = false → ∃ k cls, f.cClass = some k ∧ s.cls k = some cls ∧ cls.maxTotal ≠ -1)
  cls : ∀ k cls, s.cls k = some cls → cls.total = 0 ∧ cls.ipLimits = new 128

theorem Start.good {s : State} (h : Start s) : Good s := by
  have hmembers : ∀ k, s.members ∅ k = ∅ := fun k => filter_empty ..
  refine ⟨∅, h.valid, fun c => by simp [h.attConf c], fun c a ha => absurd ((h.attConf c).symm.trans
    ha) (by simp),
    fun a f hf hlegal => (h.conf a f hf).2 hlegal, fun a f hf => ?_, fun k cls hcls => ?_,
      fun k cls hcls => ?_⟩
  · rw [filter_empty, card_empty, (h.conf a f hf).1, Nat.cast_zero]
  · rw [hmembers, card_empty, (h.cls k cls hcls).1, Nat.cast_zero]
  · rw [hmembers]
    have hnone : ∀ a q, cls.ipLimits.pfxAt a ≠ some q := by
      rw [(h.cls k cls hcls).2]
      rintro a q ⟨⟩
    exact ⟨⟨_, (h.cls k cls hcls).2 ▸ inv_new 128⟩, by rw [(h.cls k cls hcls).2]; rfl,
      fun a q hq => absurd hq (hnone a q), fun a q hq => absurd hq (hnone a q),
      fun _ c hc => absurd hc (notMem_empty c)⟩

/-- **The numbers are right.** As long as no client is turned away because its I-line is full after
it was counted in its block, and the block that is found for a client is of its family: the numbers
of clients of the classes and the I-lines, and the counter of each block, are those of the clients
that are attached, and everyone in a class with a limit has a block; a client can be attached and
detached; and an error changes none of the numbers, and the I-line of no client. -/
theorem limits {s₀ s : State} {ops : List Op} (hs₀ : Good s₀)
    (hops : Run.StepsMeet step Meets s₀ ops) (hrun : Run.run step s₀ ops = some s) :
    ∃ clients : Finset Client, (∀ c, c ∈ clients ↔ s.attConf c ≠ none) ∧
      (∀ a f, s.conf a = some f → f.clients = (clients.filter fun c => s.attConf c = some a).card) ∧
      (∀ k cls, s.cls k = some cls → cls.total = (s.members clients k).card ∧
        (∀ a q, cls.ipLimits.pfxAt a = some q →
          counter cls.ipLimits a = ((s.members clients k).filter fun c =>
            InBlock (s.ip c) q).card) ∧
        (cls.limited = true → ∀ c ∈ s.members clients k, ∃ a q, cls.ipLimits.pfxAt a = some q ∧
          InBlock (s.ip c) q)) ∧
      (∀ c, Meets s (.detach c) → ∃ b s', detachConf s c = some (b, s')) ∧
      ∀ c a f, s.conf a = some f → Meets s (.attach c a) →
        ∃ r s', attachConf s c a = some (r, s') ∧ (r ≠ .success → Unchanged s s') := by
  have hgood : Good s := Run.invariant Good (fun _ _ _ h hmeets hs' => h.step hmeets hs') hs₀ hops
    hrun
  obtain ⟨clients, htied⟩ := hgood
  refine ⟨clients, htied.mem_iff, htied.ofConf, fun k cls hcls => ⟨htied.total k cls hcls,
    fun a q hq => ?_, ?_⟩, fun c hmeets => ?_, fun c a f hf hmeets => ?_⟩
  · rw [((htied.blocks k cls hcls).counted a q hq).1, Multiset.countP_eq_card_filter]
    rfl
  · exact (htied.blocks k cls hcls).found
  · obtain ⟨b, s', hs', -⟩ := Good.detach ⟨clients, htied⟩ hmeets
    exact ⟨b, s', hs'⟩
  · obtain ⟨r, s', hs', -, hsame⟩ := Good.attach ⟨clients, htied⟩ hf hmeets
    exact ⟨r, s', hs', hsame⟩

/-- The blocks of clients of one family are of this family. -/
theorem Blocks.own_of_family {ip : Client → Ip} {members : Multiset Client} {cls : Class}
    (h : Blocks ip members cls) {x : Ip} (hfamily : ∀ c ∈ members, (ip c).family = x.family) :
    Own cls.ipLimits x := by
  refine Limits.own_of_family (fun a q hq => (h.fits a q hq).1) fun a q hq => ?_
  obtain ⟨hcount, hpos⟩ := h.counted a q hq
  rw [hcount, Nat.cast_pos, Multiset.countP_pos] at hpos
  obtain ⟨c, hc, hin⟩ := hpos
  rw [← hin.1, hfamily c hc]

/-- With clients of one family, it is enough that no client is turned away after it was counted. -/
theorem Good.meets_of_family {s : State} (h : Good s)
    (hfamily : ∀ c c', (s.ip c).family = (s.ip c').family) {op : Op}
    (hop : ∀ c a, op = .attach c a → ∀ f k cls, s.conf a = some f → f.cClass = some k →
      s.cls k = some cls → full f cls = true → f.exemptLimits = true) : Meets s op := by
  obtain ⟨clients, h⟩ := h
  have hown : ∀ c k cls, s.cls k = some cls → Own cls.ipLimits (s.ip c) := fun c k cls hcls =>
    (h.blocks k cls hcls).own_of_family fun c' _ => hfamily c' c
  cases op with
  | detach c => exact fun a f k cls _ _ _ hcls => hown c k cls hcls
  | attach c a =>
    intro f k cls hf _ hk hcls
    right
    rw [if_neg]
    · exact ⟨hown c k cls hcls, fun _ _ k' cls' _ _ _ hcls' => hown c k' cls' hcls'⟩
    · rintro ⟨hfull, hexempt⟩
      cases hexempt.symm.trans (hop c a rfl f k cls hf hk hcls hfull)

/-- A class for `n` clients, and two of a network of 24 bits. -/
def someClass (n : ℤ) : Class := ⟨n, 0, new 128, 24, 64, 2, by decide, by decide⟩

/-- An I-line of this class, and clients of `10.0.0.0/24`. -/
def someState (n : ℤ) : State where
  ip c := ⟨.inet, [10, 0, 0, UInt8.ofNat c]⟩
  attConf _ := none
  exempt _ := false
  conf a := if a = 0 then some ⟨false, true, false, 0, some 0⟩ else none
  cls k := if k = 0 then some (someClass n) else none

theorem start_someState {n : ℤ} (hn : n ≠ -1) : Start (someState n) := by
  refine ⟨fun c => rfl, fun c => rfl, fun a f hf => ?_, fun k cls hcls => ?_⟩
  · dsimp only [someState] at hf
    split_ifs at hf
    cases hf
    exact ⟨rfl, fun _ => ⟨0, someClass n, rfl, rfl, hn⟩⟩
  · dsimp only [someState] at hcls
    split_ifs at hcls
    cases hcls
    exact ⟨rfl, rfl⟩

/-- Two clients are attached, and one is detached. -/
theorem limits_small : ∃ s, Run.run step (someState 10) [.attach 1 0, .attach 2 0, .detach 1] =
    some s ∧ ∃ clients : Finset Client, (∀ c, c ∈ clients ↔ s.attConf c ≠ none) ∧
      ∀ k cls, s.cls k = some cls → cls.total = (s.members clients k).card := by
  have hgood₀ : Good (someState 10) := (start_someState (by decide)).good
  have hmeets₀ : Meets (someState 10) (.attach 1 0) := by
    refine hgood₀.meets_of_family (fun _ _ => rfl) ?_
    rintro _ _ ⟨⟩ f k cls hf hk hcls
    cases hf
    cases hk
    cases hcls
    decide
  have hops : Run.StepsMeet step Meets (someState 10) [.attach 1 0, .attach 2 0, .detach 1] := by
    refine ⟨hmeets₀, fun s hs => ?_⟩
    have hgood := hgood₀.step hmeets₀ hs
    have hmeets : Meets s (.attach 2 0) := by
      cases hs
      refine hgood.meets_of_family (fun _ _ => rfl) ?_
      rintro _ _ ⟨⟩ f k cls hf hk hcls
      cases hf
      cases hk
      cases hcls
      decide +kernel
    cases hs
    refine ⟨hmeets, fun s hs => ?_⟩
    have hgood := hgood.step hmeets hs
    cases hs
    exact ⟨hgood.meets_of_family (fun _ _ => rfl) (by simp), fun _ _ => trivial⟩
  obtain ⟨clients, hclients, -, hclass, -⟩ := limits hgood₀ hops rfl
  exact ⟨_, rfl, clients, hclients, fun k cls hcls => (hclass k cls hcls).1⟩

/-- A class for one client is full. A second client is turned away, and stays counted in its
block. -/
theorem attachConf_leaks : ∃ s s' cls q, Good (someState 1) ∧ Run.run step (someState 1)
    [.attach 1 0] = some s ∧ attachConf s 2 0 = some (.iLineFull, s') ∧ ¬Unchanged s s' ∧
    s'.attConf 2 = none ∧
    s'.cls 0 = some cls ∧ cls.ipLimits.pfxAt 0 = some q ∧ counter cls.ipLimits 0 = 2 ∧
    cls.total = 1 := by
  refine ⟨_, _, _, _, (start_someState (by decide)).good, rfl, rfl, fun hsame => ?_, rfl, rfl, rfl,
    rfl, rfl⟩
  have hcls := hsame.cls 0
  have hdata := congrArg (fun n : ℤ × (Addr → Option Prefix) × (Addr → Option ℤ) => n.2.2 0)
    (some.inj hcls)
  exact absurd hdata (by decide +kernel)

end Ratbox.Limits
