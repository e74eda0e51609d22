import Ratbox.Nick.Commands
import Ratbox.Lib.Run

/-!
# The delay of nicks

When a server splits, the nicks of its users are delayed: for a time nobody here may take them.
A nick that another server says is used is not delayed any more. So no nick is delayed and used at
the same time, as long as a client here is refused the nicks that are delayed. `mr_nick` does so;
`m_nick` looks the nick up in the table of clients instead.

Source: `modules/core/m_nick.c`, lines 110–253, 747–791 and 1088–1149, `src/s_newconf.c`, lines
752–796, and `src/client.c`, lines 941–982.

## Main definitions

* `Nick.Op`, `Nick.step`: what happens at a server.
* `Nick.Tables.Sound`: the tables are well formed and no client has a nick that is delayed.
* `Nick.Available`: when a change of the nick is to be made.
* `Nick.StepOk`: the condition on the steps.

## Main results

* `Nick.sound_step`: a step that meets the condition keeps the tables sound.
* `Nick.delay_respected`: in a run whose steps meet the condition no nick is delayed and used, and
  `m_nick` makes the changes that it is to make.
-/

namespace Ratbox.Nick

open Text HashTable Run List Option Function

/-! ### No client has a nick that is delayed -/

namespace Tables

/-- No client has a nick that is delayed. -/
def Clear (t : Tables) : Prop :=
  ∀ p c, t.client p = some c → c.name ≠ [] → t.delayed c.name = false

/-- **Sound tables.** -/
structure Sound (t : Tables) : Prop where
  wf : t.WellFormed
  clear : t.Clear

/-- One client changes, and no nick is delayed that was not. -/
theorem Clear.update {t t' : Tables} {p : Addr} {o : Option Client} (h : t.Clear)
    (hdelayed : ∀ k, t'.delayed k = true → t.delayed k = true)
    (hclient : t'.client = update t.client p o)
    (ho : ∀ c, o = some c → c.name ≠ [] → t'.delayed c.name = false) : t'.Clear := by
  intro q d hq hd
  rw [hclient] at hq
  obtain ⟨-, rfl⟩ | ⟨-, hq⟩ := update_eq_some.mp hq
  · exact ho d rfl hd
  · by_contra hnd
    rw [Bool.not_eq_false] at hnd
    exact absurd (h q d hq hd) (by simp [hdelayed _ hnd])

namespace Sound

variable {t : Tables} {p : Addr} {c c' : Client}

section

variable (h : t.Sound)
include h

theorem rename (hp : t.client p = some c) (hname : c'.name = c.name)
    (hid : c'.id = c.id) {nick : Str}
    (hfree : nick = [] ∨ digitName nick = true ∨ FreeBut t.client nick p)
    (hdelayed : nick = [] ∨ t.delayed nick = false) : (t.rename p c' nick).Sound where
  wf := h.wf.rename hp hname hid hfree
  clear := by
    refine h.clear.update (fun _ hk => hk) rfl ?_
    rintro _ ⟨⟩ hd
    exact hdelayed.resolve_left hd

theorem enter (hid : c.id = [] ∨ digitName c.id = true)
    (hfree : c.name = [] ∨ digitName c.name = true ∨ FreeBut t.client c.name t.fresh)
    (hdelayed : c.name = [] ∨ t.delayed c.name = false) : (t.enter c).Sound where
  wf := h.wf.enter hid hfree
  clear := by
    refine h.clear.update (fun _ hk => hk) rfl ?_
    rintro _ ⟨⟩ hd
    exact hdelayed.resolve_left hd

theorem remove (hp : t.client p = some c) : (t.remove p c).Sound where
  wf := h.wf.remove hp
  clear := h.clear.update (fun _ hk => hk) rfl (by simp)

theorem set (hp : t.client p = some c) (hname : irccmp c.name c'.name = true)
    (hid : c'.id = c.id) : (t.set p c').Sound where
  wf := h.wf.set hp hname hid
  clear := by
    refine h.clear.update (fun _ hk => hk) rfl ?_
    rintro _ ⟨⟩ hd
    rw [← delayed_congr (t.set p _) hname]
    exact h.clear p c hp fun hnil => hd ((eq_nil_iff_of_irccmp hname).mp hnil)

theorem identify (hp : t.client p = some c) (hname : c'.name = c.name)
    (hnil : c.id = []) (hid : digitName c'.id = true) : (t.identify p c').Sound where
  wf := h.wf.identify hp hname hnil hid
  clear := by
    refine h.clear.update (fun _ hk => hk) rfl ?_
    rintro _ ⟨⟩ hd
    rw [hname] at hd ⊢
    exact h.clear p c hp hd

theorem freeNdEntry (nick : Str) : (t.freeNdEntry nick).Sound where
  wf := h.wf.freeNdEntry nick
  clear := by
    intro q d hq hd
    by_contra hnd
    rw [Bool.not_eq_false] at hnd
    exact absurd (h.wf.delayed_freeNdEntry hnd).1 (by simp [h.clear q d hq hd])

theorem expireNdEntries (now : ℤ) : (t.expireNdEntries now).Sound where
  wf := h.wf.expireNdEntries now
  clear := by
    intro q d hq hd
    by_contra hnd
    rw [Bool.not_eq_false] at hnd
    exact absurd (delayed_expireNdEntries hnd) (by simp [h.clear q d hq hd])

end

end Sound

/-- A nick whose delay was ended is not delayed. -/
theorem WellFormed.not_delayed_freeNdEntry {t : Tables} (h : t.WellFormed) (nick : Str) :
    (t.freeNdEntry nick).delayed nick = false := by
  by_contra hnd
  rw [Bool.not_eq_false] at hnd
  have hdiffer := (h.delayed_freeNdEntry hnd).2
  rw [irccmp_refl] at hdiffer
  cases hdiffer

end Tables

/-! ### What the functions keep -/

/-- No client has the nick, or it is an id, and ids are looked up elsewhere. -/
def Vacant (client : Addr → Option Client) (nick : Str) : Prop :=
  digitName nick = true ∨ ∀ q c, client q = some c → irccmp c.name nick = false

theorem Vacant.freeBut {client : Addr → Option Client} {nick : Str} (h : Vacant client nick)
    (p : Addr) : nick = [] ∨ digitName nick = true ∨ FreeBut client nick p := by
  rcases h with hdigit | hno
  · exact .inr (.inl hdigit)
  · refine .inr (.inr fun q c hq hsame => ?_)
    rw [hno q c hq] at hsame
    cases hsame

namespace Server

variable {s : Server} {one : Option Serv} {link : Serv} {p : Addr} {c : Client} {nick : Str}

theorem sound_exitClient (h : s.toTables.Sound) (one : Option Serv) (p : Addr) (killed : Bool) :
    (s.exitClient one p killed).toTables.Sound := by
  cases hp : s.client p with
  | none =>
    rw [exitClient, hp]
    exact h
  | some c =>
    rw [toTables_exitClient one hp]
    exact h.remove hp

theorem sound_addClient (h : s.toTables.Sound) (hid : c.id = [] ∨ digitName c.id = true)
    (hvacant : Vacant s.client c.name) : (s.addClient link c).toTables.Sound := by
  have hfree := hvacant.freeBut s.fresh
  have henter : ((s.toTables.freeNdEntry c.name).enter c).Sound :=
    (h.freeNdEntry c.name).enter hid hfree (.inr (h.wf.not_delayed_freeNdEntry c.name))
  rw [addClient]
  dsimp only
  split_ifs
  · exact sound_exitClient (by exact henter) _ _ _
  · rw [toTables_introduceClient]
    exact henter

theorem digit_uid_of_cleanIntro {conf : Conf} {parv : Intro} {sockhost uid : Str}
    (hclean : cleanIntro conf parv = true) (horigin : parv.origin = .uid sockhost uid) :
    digitName uid = true := by
  rw [cleanIntro, horigin, Bool.and_eq_true] at hclean
  have huid : cleanUid uid = true := hclean.2
  rw [cleanUid, Bool.and_eq_true, Bool.and_eq_true] at huid
  exact huid.1.1

theorem sound_registerClient (h : s.toTables.Sound) (server : List Serv)
    (newts : ℤ) {parv : Intro} {conf : Conf} (hclean : cleanIntro conf parv = true)
    (hvacant : Vacant s.client nick) :
    (s.registerClient link server nick newts parv).toTables.Sound := by
  rw [registerClient]
  cases horigin : parv.origin with
  | uid sockhost uid =>
    exact sound_addClient h (.inr (digit_uid_of_cleanIntro hclean horigin)) hvacant
  | server name =>
    dsimp only
    cases s.findServer name with
    | none => exact h
    | some way => exact sound_addClient h (.inl rfl) hvacant

theorem sound_changeRemoteNick (h : s.toTables.Sound) (hp : s.client p = some c) (newts : ℤ)
    (hfree : nick = [] ∨ digitName nick = true ∨ FreeBut s.client nick p)
    (dosend : Bool) : (s.changeRemoteNick one p newts nick dosend).toTables.Sound := by
  rw [toTables_changeRemoteNick one hp]
  exact (h.freeNdEntry nick).rename hp (retime_name _ _) (retime_id _ _) hfree
    (.inr (h.wf.not_delayed_freeNdEntry nick))

theorem id_free (h : s.toTables.WellFormed) (hp : s.client p = some c) :
    c.id = [] ∨ digitName c.id = true ∨ FreeBut s.client c.id p := by
  by_cases hnil : c.id = []
  · exact .inl hnil
  · exact .inr (.inl (h.digitId p c hp hnil))

/-- A client that is saved is put under its id; if it is a client of this server its id must not be
delayed. -/
theorem sound_saveUser (h : s.toTables.Sound) (source : Str)
    (hid : ∀ c, s.client p = some c → c.myClient = true → s.delayed c.id = false) :
    (s.saveUser one source p).toTables.Sound := by
  cases hp : s.client p with
  | none =>
    rw [saveUser, hp]
    exact h
  | some c =>
    by_cases hkill : (!c.myConnect && (!c.hasId || !c.link.any (·.save))) = true
    · rw [toTables_saveUser_kill one hp source hkill]
      exact h.remove hp
    · rw [Bool.not_eq_true] at hkill
      by_cases hmine : c.myClient = true
      · rw [toTables_saveUser_mine one hp source hmine]
        exact h.rename hp (by rfl) (by rfl) (id_free h.wf hp) (.inr (hid c hp hmine))
      · rw [toTables_saveUser_remote one hp source hkill (by simpa using hmine)]
        exact (h.freeNdEntry c.id).rename hp (retime_name _ _) (retime_id _ _) (id_free h.wf hp)
          (.inr (h.wf.not_delayed_freeNdEntry c.id))

/-- After a client was saved it is under its id, if it was not killed, and the others are as
before. -/
theorem client_saveUser (hp : s.client p = some c) (source : Str) {q : Addr} {d : Client}
    (hq : (s.saveUser one source p).client q = some d) :
    q ≠ p ∧ s.client q = some d ∨ q = p ∧ d.name = c.id := by
  by_cases hkill : (!c.myConnect && (!c.hasId || !c.link.any (·.save))) = true
  · rw [toTables_saveUser_kill one hp source hkill] at hq
    obtain ⟨-, hnone⟩ | hold := update_eq_some.mp hq
    · cases hnone
    · exact .inl hold
  · rw [Bool.not_eq_true] at hkill
    by_cases hmine : c.myClient = true
    · rw [toTables_saveUser_mine one hp source hmine] at hq
      obtain ⟨hqp, ⟨⟩⟩ | hold := update_eq_some.mp hq
      · exact .inr ⟨hqp, rfl⟩
      · exact .inl hold
    · rw [toTables_saveUser_remote one hp source hkill (by simpa using hmine)] at hq
      obtain ⟨hqp, ⟨⟩⟩ | hold := update_eq_some.mp hq
      · exact .inr ⟨hqp, rfl⟩
      · exact .inl hold

theorem client_exitClient (hp : s.client p = some c) (killed : Bool) {q : Addr} {d : Client}
    (hq : (s.exitClient one p killed).client q = some d) : q ≠ p ∧ s.client q = some d := by
  rw [toTables_exitClient one hp] at hq
  obtain ⟨-, hnone⟩ | hold := update_eq_some.mp hq
  · cases hnone
  · exact hold

section

variable (h : s.toTables.WellFormed)
include h

/-- When the client that has a nick goes, or is put under its id, the nick is free. -/
theorem vacant_of_left (hnick : nick ≠ [])
    (hfind : s.findClient nick = some p) {client : Addr → Option Client}
    (hleft : ∀ q d, client q = some d →
      q ≠ p ∧ s.client q = some d ∨ q = p ∧ ∃ c, s.client p = some c ∧ d.name = c.id) :
    Vacant client nick := by
  obtain ⟨c, hc, ⟨hdigit, -⟩ | ⟨hdigit, hsame⟩⟩ := h.findClient_eq_some hfind
  · exact .inl hdigit
  · refine .inr fun q d hq => ?_
    by_contra htaken
    rw [Bool.not_eq_false] at htaken
    have hcnil : c.name ≠ [] := fun hnil => hnick ((eq_nil_iff_of_irccmp hsame).mp hnil)
    rcases hleft q d hq with ⟨hqp, hold⟩ | ⟨-, c', hc', hname⟩
    · exact hqp (h.unique p c hc hcnil ((digitName_congr hsame).trans hdigit) q d hold
        (irccmp_trans htaken (irccmp_symm hsame)))
    · obtain rfl : c = c' := by simpa [hc] using hc'
      rw [hname] at htaken
      have hid : c.id ≠ [] := fun hnil => hnick ((eq_nil_iff_of_irccmp htaken).mp hnil)
      have hcdigit := h.digitId p c hc hid
      rw [digitName_congr htaken, hdigit] at hcdigit
      cases hcdigit

theorem vacant_saveUser (hnick : nick ≠ []) (hfind : s.findClient nick = some p) (source : Str) :
    Vacant (s.saveUser one source p).client nick := by
  obtain ⟨c, hc, -⟩ := h.findClient_eq_some hfind
  refine vacant_of_left h hnick hfind fun q d hq => ?_
  rcases client_saveUser hc source hq with hold | ⟨hqp, hname⟩
  · exact .inl hold
  · exact .inr ⟨hqp, c, hc, hname⟩

theorem vacant_exitClient (hnick : nick ≠ []) (hfind : s.findClient nick = some p) (killed : Bool) :
    Vacant (s.exitClient one p killed).client nick := by
  obtain ⟨c, hc, -⟩ := h.findClient_eq_some hfind
  exact vacant_of_left h hnick hfind fun q d hq => .inl (client_exitClient hc killed hq)

/-- A nick that is not found is free. -/
theorem vacant_of_not_found (hnick : nick ≠ [])
    (hfind : s.findClient nick = none) : Vacant s.client nick := by
  by_cases hdigit : digitName nick = true
  · exact .inl hdigit
  · rw [Tables.findClient, if_neg hdigit] at hfind
    exact .inr ((h.findNick_eq_none_iff hnick).mp hfind)

end

end Server

/-! ### Collisions -/

open Server

/-- The client that has a nick is saved when another one takes it. -/
def savesTarget (conf : Conf) (target : Client) (sourceCan sameuser : Bool) (newts : ℤ) : Bool :=
  conf.collisionFnc && canSave target && sourceCan &&
    (bothLose newts target.tsinfo || !newLoses sameuser newts target.tsinfo)

/-- The user and host of a client are those of another one. -/
def sameUser (target : Client) (username host : Str) : Bool :=
  irccmp target.username username && irccmp target.host host

/-- Whether a client that is introduced can be saved. -/
def canSaveIntro (source : List Serv) (parv : Intro) : Bool :=
  match parv.origin with
  | .uid _ _ => canSaveServer source
  | .server _ => false

namespace Server

variable {s : Server} {link : Serv} {p : Addr} {c : Client}

theorem sound_performNickCollides (h : s.toTables.Sound) (source : List Serv) {parv : Intro}
    (hclean : cleanIntro s.conf parv = true) (hfind : s.findClient parv.nick = some p)
    (hsafe : ∀ c, s.client p = some c → c.myClient = true →
      savesTarget s.conf c (canSaveIntro source parv) (sameUser c parv.username parv.host)
        parv.newts = true → s.delayed c.id = false) :
    (s.performNickCollides source link p parv).toTables.Sound := by
  have hnick : parv.nick ≠ [] := by
    rintro hnil
    rw [cleanIntro, hnil] at hclean
    simp [cleanNick] at hclean
  obtain ⟨c, hp, -⟩ := h.wf.findClient_eq_some hfind
  have hsave : ∀ one source', savesTarget s.conf c (canSaveIntro source parv)
      (sameUser c parv.username parv.host) parv.newts = true →
      (s.saveUser one source' p).toTables.Sound := by
    intro one source' hsaves
    refine sound_saveUser h source' fun d hd hmine => ?_
    obtain rfl : c = d := by simpa [hp] using hd
    exact hsafe c hp hmine hsaves
  rw [performNickCollides, hp]
  cases horigin : parv.origin with
  | uid sockhost uid =>
    have huid : digitName uid = true := digit_uid_of_cleanIntro hclean horigin
    simp only [isSome_some, Bool.and_true, getD_some]
    split_ifs with hboth hfake huse hnew huse hfake huse
    · rw [toTables_reintroduce]
      exact h
    · have hsaved : (s.saveUser none s.me.id p).toTables.Sound :=
        hsave none _ (by simpa [savesTarget, canSaveIntro, horigin, hboth] using huse)
      exact sound_registerClient (by exact hsaved) source _ hclean (.inl huid)
    · exact sound_exitClient (by exact h) _ _ _
    · exact sound_registerClient (by exact h) source _ hclean (.inl huid)
    · exact h
    · rw [toTables_reintroduce]
      exact h
    · have hsaved : (s.saveUser none s.me.id p).toTables.Sound := by
        rw [Bool.not_eq_true] at hnew
        exact hsave none _ (by simpa [savesTarget, canSaveIntro, sameUser, horigin,
          hnew] using huse)
      exact sound_registerClient hsaved source _ hclean (vacant_saveUser h.wf hnick hfind _)
    · refine sound_registerClient (by exact sound_exitClient (by exact h) _ _ _) source _ hclean ?_
      exact vacant_exitClient (by exact h.wf) hnick (by exact hfind) _
  | server name =>
    simp only [isSome_none, Bool.and_false, Bool.false_and, Bool.false_eq_true, if_false]
    split_ifs with hboth hfake hnew hfake
    · rw [toTables_reintroduce]
      exact h
    · exact sound_exitClient (by exact h) _ _ _
    · exact h
    · rw [toTables_reintroduce]
      exact h
    · refine sound_registerClient (by exact sound_exitClient (by exact h) _ _ _) source _ hclean ?_
      exact vacant_exitClient (by exact h.wf) hnick (by exact hfind) _

theorem sound_performNickchangeCollides (h : s.toTables.Sound) {source_p : Addr} {source : Client}
    (hsource : s.client source_p = some source) {nick : Str} (hnick : nick ≠ [])
    (hfind : s.findClient nick = some p) (hne : source_p ≠ p) (newts : ℤ)
    (hsafe : ∀ c, s.client p = some c → c.myClient = true →
      savesTarget s.conf c (canSave source) (sameUser c source.username source.host) newts = true →
        s.delayed c.id = false) :
    (s.performNickchangeCollides source_p link p newts nick).toTables.Sound := by
  obtain ⟨c, hp, -⟩ := h.wf.findClient_eq_some hfind
  have hsave : savesTarget s.conf c (canSave source) (sameUser c source.username source.host)
      newts = true → (s.saveUser none s.me.id p).toTables.Sound := by
    intro hsaves
    refine sound_saveUser h _ fun d hd hmine => ?_
    obtain rfl : c = d := by simpa [hp] using hd
    exact hsafe c hp hmine hsaves
  have hsource' : (s.saveUser none s.me.id p).client source_p = some source := by
    rw [client_saveUser_of_ne none _ hne, hsource]
  rw [performNickchangeCollides, hsource, hp]
  dsimp only
  split_ifs with hboth huse hdigit hfake hnew huse hdigit huse
  · rw [Bool.and_eq_true] at huse
    exact hsave (by simpa [savesTarget, hboth] using huse.1)
  · rw [Bool.and_eq_true] at huse
    have hsaved : (s.saveUser none s.me.id p).toTables.Sound :=
      hsave (by simpa [savesTarget, hboth] using huse.1)
    exact sound_changeRemoteNick (by exact hsaved) (by exact hsource') _
      (by exact id_free hsaved.wf hsource') true
  · have hagain : (s.reintroduce c).toTables.Sound := by
      rw [toTables_reintroduce]
      exact h
    exact sound_exitClient (by exact sound_exitClient (by exact hagain) _ _ _) _ _ _
  · exact sound_exitClient (by exact sound_exitClient (by exact h) _ _ _) _ _ _
  · exact h
  · exact sound_changeRemoteNick (by exact h) (by exact hsource) _ (by exact id_free h.wf hsource)
      true
  · exact sound_exitClient (by exact h) _ _ _
  · have hsaved : (s.saveUser none s.me.id p).toTables.Sound := by
      rw [Bool.not_eq_true] at hnew
      exact hsave (by simpa [savesTarget, sameUser, hnew] using huse)
    exact sound_changeRemoteNick hsaved hsource' _
      ((vacant_saveUser h.wf hnick hfind _).freeBut _) true
  · refine sound_changeRemoteNick (c := source) (by exact sound_exitClient (by exact h) _ _ _) ?_ _
      ?_ true
    · rw [client_exitClient_of_ne _ _ hne]
      exact hsource
    · exact (vacant_exitClient (by exact h.wf) hnick (by exact hfind) _).freeBut _

end Server

/-! ### The commands of servers -/

section Servers

variable {s : Server} {link : Serv} {p : Addr} {c : Client} {conf : Conf}

theorem ne_nil_of_cleanNick {nick : Str} {locClient : Bool}
    (hclean : cleanNick conf nick locClient = true) : nick ≠ [] := by
  rintro rfl
  simp [cleanNick] at hclean

theorem clean_of_cleanIntro {parv : Intro} (hclean : cleanIntro conf parv = true) :
    cleanNick conf parv.nick false = true := by
  simp only [cleanIntro, Bool.and_eq_true] at hclean
  exact hclean.1.1.1

section

variable (h : s.toTables.Sound)
include h

theorem sound_msNick (source : List Serv) (parv : Intro)
    (hsafe : cleanIntro s.conf parv = true → ∀ p c, s.findClient parv.nick = some p →
      s.client p = some c → c.myClient = true →
        savesTarget s.conf c (canSaveIntro source parv) (sameUser c parv.username parv.host)
          parv.newts = true → s.delayed c.id = false) :
    (msNick s link source parv).toTables.Sound := by
  rw [msNick]
  split_ifs with hclean
  · have hnick : parv.nick ≠ [] := ne_nil_of_cleanNick (clean_of_cleanIntro hclean)
    dsimp only
    rw [takeNick]
    cases hfind : s.findClient parv.nick with
    | none => exact sound_registerClient h source _ hclean (vacant_of_not_found h.wf hnick hfind)
    | some p =>
      obtain ⟨c, hp, -⟩ := h.wf.findClient_eq_some hfind
      simp only [hp, reduceCtorEq, if_false]
      split_ifs
      · exact sound_registerClient (sound_exitClient h _ _ _) source _ hclean
          (vacant_exitClient h.wf hnick hfind _)
      · exact sound_performNickCollides h source (by exact hclean) (by exact hfind)
          fun d hd hmine hsaves => hsafe hclean p d hfind hd hmine hsaves
  · split <;> exact h

theorem sound_mcNick {source_p : Addr} {source : Client}
    (hsource : s.client source_p = some source) (hstatus : source.status = .client) (nick : Str)
    (newts : ℤ)
    (hsafe : cleanNick s.conf nick false = true → ∀ p c, s.findClient nick = some p →
      source_p ≠ p → s.client p = some c → c.myClient = true →
        savesTarget s.conf c (canSave source) (sameUser c source.username source.host) newts =
          true → s.delayed c.id = false) :
    (mcNick s link source_p nick newts).toTables.Sound := by
  rw [mcNick, hsource]
  dsimp only
  split_ifs with hclean
  · exact sound_exitClient (by exact h) _ _ _
  · have hclean' : cleanNick s.conf nick false = true := by simpa using hclean
    have hnick : nick ≠ [] := ne_nil_of_cleanNick hclean'
    rw [takeNick]
    cases hfind : s.findClient nick with
    | none =>
      exact sound_changeRemoteNick h hsource _
        ((vacant_of_not_found h.wf hnick hfind).freeBut _) true
    | some p =>
      obtain ⟨c, hp, hname⟩ := h.wf.findClient_eq_some hfind
      simp only [hp]
      split_ifs with hunknown hself hchanged
      · have hne : source_p ≠ p := by
          rintro rfl
          obtain rfl : source = c := by simpa [hsource] using hp
          rw [hstatus] at hunknown
          cases hunknown
        refine sound_changeRemoteNick (c := source) (sound_exitClient h _ _ _) ?_ _
          ((vacant_exitClient h.wf hnick hfind _).freeBut _) true
        rw [client_exitClient_of_ne _ _ hne]
        exact hsource
      · obtain rfl : source_p = p := by simpa using hself
        refine sound_changeRemoteNick h hsource _ ?_ true
        rcases hname with ⟨hdigit, -⟩ | ⟨hdigit, hsame⟩
        · exact .inr (.inl hdigit)
        · refine .inr (.inr fun q d hq htaken => ?_)
          exact h.wf.unique source_p c hp (fun hnil => hnick ((eq_nil_iff_of_irccmp hsame).mp hnil))
            ((digitName_congr hsame).trans hdigit) q d hq (irccmp_trans htaken (irccmp_symm hsame))
      · exact h
      · have hne : source_p ≠ p := fun heq => hself (congrArg some heq)
        exact sound_performNickchangeCollides h hsource hnick hfind hne newts
          fun d hd hmine hsaves => hsafe hclean' p d hfind hne hd hmine hsaves

theorem sound_msSave (source uid : Str) (ts : ℤ)
    (hsafe : ∀ p c, s.findId uid = some p → s.client p = some c → c.status = .client →
      digitName c.name = false → c.tsinfo = ts → c.myClient = true → s.delayed c.id = false) :
    (msSave s link source uid ts).toTables.Sound := by
  rw [msSave]
  cases hfind : s.findId uid with
  | none => exact h
  | some p =>
    obtain ⟨c, hp, -⟩ := h.wf.findId_eq_some hfind
    simp only [hp]
    split_ifs with hstatus hdigit hts
    · exact h
    · exact h
    · refine sound_saveUser h source fun d hd hmine => ?_
      obtain rfl : c = d := by simpa [hp] using hd
      exact hsafe p c hfind hp (not_not.mp hstatus) (by simpa using hdigit) hts hmine
    · exact h

theorem sound_msKill (source : Str × Str) (user : Str) :
    (msKill s link source user).toTables.Sound := by
  rw [msKill]
  cases hfind : s.findClient user with
  | none => exact h
  | some p =>
    obtain ⟨c, hp, -⟩ := h.wf.findClient_eq_some hfind
    simp only [hp]
    split_ifs
    · exact h
    · rw [toTables_introduceClient]
      exact h
    · exact sound_exitClient (by exact h) _ _ _

end

end Servers

/-! ### The commands of clients -/

/-- The nick that a client asks for. -/
def asked (conf : Conf) (parv : Str) : Str := strlcpy (parv.takeWhile (· ≠ '~')) conf.nicklen

/-- A valid, unreserved nick is asked for. -/
structure Acceptable (conf : Conf) (parv : Str) : Prop where
  given : parv.takeWhile (· ≠ '~') ≠ []
  clean : cleanNick conf (asked conf parv) true = true
  unreserved : conf.resv (asked conf parv) = false

/-- The nick is the client's own, in another case. -/
def OwnInOtherCase (s : Server) (source_p : Addr) (nick : Str) : Prop :=
  s.findNick nick = some source_p ∧ ∃ c, s.client source_p = some c ∧ c.name ≠ nick

/-- The nick is held by an unregistered connection. -/
def HeldUnregistered (s : Server) (nick : Str) (q : Addr) : Prop :=
  s.findNick nick = some q ∧ ∃ c, s.client q = some c ∧ c.status = .unknown

/-- **When a change is to be made**: the nick is not delayed, and it is free, the client's own in
another case, or held by an unregistered connection. -/
def Available (s : Server) (source_p : Addr) (nick : Str) : Prop :=
  s.delayed nick = false ∧
    (s.findNick nick = none ∨ OwnInOtherCase s source_p nick ∨ ∃ q, HeldUnregistered s nick q)

/-- `m_nick` makes a change: it is left to the flood limit only. -/
def Performs (s : Server) (source_p : Addr) (parv : Str) : Prop :=
  ∃ overridden, mNickVerdict s source_p parv = .change (asked s.conf parv) overridden

/-- The condition on a step of `m_nick`: a nick that is free is not delayed, and one that is the
client's own in another case or is held by an unregistered connection is. -/
def MNickOk (s : Server) (source_p : Addr) (nick : Str) : Prop :=
  (s.findNick nick = none → s.delayed nick = false) ∧
    (OwnInOtherCase s source_p nick ∨ (∃ q, HeldUnregistered s nick q) → s.delayed nick = true)

section Clients

variable {s : Server} {p : Addr} {c : Client} {parv : Str} {nick : Str}

theorem digit_of_cleanNick {conf : Conf} (hclean : cleanNick conf nick true = true) :
    digitName nick = false := by
  simp only [cleanNick, Bool.and_eq_true, Bool.true_and, Bool.not_eq_true'] at hclean
  exact hclean.1.1.1.2

/-- What `m_nick` does with a nick that is acceptable depends on `HASH_CLIENT` only. -/
theorem mNickVerdict_eq (hok : Acceptable s.conf parv) (p : Addr) :
    mNickVerdict s p parv = if s.findNick (asked s.conf parv) = none
      then .change (asked s.conf parv) none
      else .refuse (.unavailResource (asked s.conf parv)) := by
  have hclient : s.findClient (asked s.conf parv) = s.findNick (asked s.conf parv) := by
    rw [Tables.findClient, digit_of_cleanNick hok.clean]
    rfl
  have hgiven : ¬(parv.takeWhile (· ≠ '~')).isEmpty = true := by
    rw [List.isEmpty_iff]
    exact hok.given
  have hasked : strlcpy (parv.takeWhile (· ≠ '~')) s.conf.nicklen = asked s.conf parv := rfl
  rw [mNickVerdict, if_neg hgiven, hasked, hok.clean, hok.unreserved, hclient]
  cases s.findNick (asked s.conf parv) <;> rfl

theorem performs_iff (hok : Acceptable s.conf parv) (p : Addr) :
    Performs s p parv ↔ s.findNick (asked s.conf parv) = none := by
  rw [Performs, mNickVerdict_eq hok]
  split_ifs with hfree <;> simp [hfree]

/-- **`m_nick` makes the changes it is to make exactly under the condition.** -/
theorem performs_iff_available (hok : Acceptable s.conf parv) (p : Addr) :
    (Performs s p parv ↔ Available s p (asked s.conf parv)) ↔ MNickOk s p (asked s.conf parv) := by
  have hown : OwnInOtherCase s p (asked s.conf parv) → s.findNick (asked s.conf parv) ≠ none := by
    rintro ⟨hfind, -⟩
    simp [hfind]
  have hheld : (∃ q, HeldUnregistered s (asked s.conf parv) q) →
      s.findNick (asked s.conf parv) ≠ none := by
    rintro ⟨q, hfind, -⟩
    simp [hfind]
  rw [performs_iff hok, Available, MNickOk]
  cases s.delayed (asked s.conf parv) with
  | false =>
    simp only [true_and, imp_true_iff, Bool.false_eq_true, imp_false]
    tauto
  | true =>
    simp

theorem sound_changeLocalNick (h : s.toTables.Sound) (hp : s.client p = some c)
    (hfree : nick = [] ∨ digitName nick = true ∨ FreeBut s.client nick p)
    (hdelayed : nick = [] ∨ s.delayed nick = false) :
    (s.changeLocalNick p nick true).toTables.Sound := by
  have hreset : (s.resetChanges c).name = c.name ∧ (s.resetChanges c).id = c.id := by
    rw [resetChanges]
    split <;> exact ⟨rfl, rfl⟩
  cases hfast : s.tooFast (s.resetChanges c) with
  | true =>
    rw [toTables_changeLocalNick_tooFast hp hfast]
    exact h.set hp (hreset.1.symm ▸ irccmp_refl c.name) hreset.2
  | false =>
    obtain ⟨c', hname, hid, htables⟩ := toTables_changeLocalNick hp (fun _ => hfast) nick
    rw [htables]
    exact h.rename hp hname hid hfree hdelayed

/-- A nick that is refused changes nothing, and one that is taken is free. -/
theorem sound_mNick (h : s.toTables.Sound) (hp : s.client p = some c)
    (hok : Acceptable s.conf parv → MNickOk s p (asked s.conf parv)) :
    (mNick s p parv).toTables.Sound := by
  rw [mNick]
  by_cases hacc : Acceptable s.conf parv
  · rw [mNickVerdict_eq hacc]
    split_ifs with hfree
    · have hnick : asked s.conf parv ≠ [] := ne_nil_of_cleanNick hacc.clean
      have hvacant : Vacant s.client (asked s.conf parv) :=
        Or.inr ((h.wf.findNick_eq_none_iff hnick).mp hfree)
      exact sound_changeLocalNick h hp (hvacant.freeBut p) (.inr ((hok hacc).1 hfree))
    · exact h
  · -- Without an acceptable nick the checks refuse it.
    have hrefuse : ∃ n, mNickVerdict s p parv = .refuse n := by
      rw [mNickVerdict]
      split_ifs with hgiven hclean hresv
      · exact ⟨_, rfl⟩
      · exact ⟨_, rfl⟩
      · exact ⟨_, rfl⟩
      · exact ⟨_, rfl⟩
      · refine absurd ⟨?_, ?_, ?_⟩ hacc
        · simpa using hgiven
        · simpa [asked] using hclean
        · simpa [asked] using hresv
    obtain ⟨n, hn⟩ := hrefuse
    rw [hn]
    exact h

/-- A change that is made gives the client the nick, unless the flood limit refuses it. -/
theorem name_mNick (hp : s.client p = some c) (hok : Acceptable s.conf parv)
    (hperf : Performs s p parv) :
    ∃ c', (mNick s p parv).client p = some c' ∧
      c'.name = if s.tooFast (s.resetChanges c) then c.name else asked s.conf parv := by
  rw [mNick, mNickVerdict_eq hok, if_pos ((performs_iff hok p).mp hperf)]
  dsimp only
  cases hfast : s.tooFast (s.resetChanges c) with
  | true =>
    rw [toTables_changeLocalNick_tooFast hp hfast]
    refine ⟨_, update_self .., ?_⟩
    rw [resetChanges]
    split <;> rfl
  | false =>
    obtain ⟨c', -, -, htables⟩ := toTables_changeLocalNick hp (fun _ => hfast) (asked s.conf parv)
    rw [htables]
    exact ⟨_, update_self .., rfl⟩

/-- `mr_nick` refuses the nicks that are delayed. -/
theorem sound_mrNick (h : s.toTables.Sound) (p : Addr) (parv : Str) :
    (mrNick s p parv).toTables.Sound := by
  rw [mrNick]
  cases hp : s.client p with
  | none => exact h
  | some c =>
    dsimp only
    split_ifs with hgiven hclean hresv hdelayed
    · exact h
    · exact h
    · exact h
    · exact h
    · rw [Bool.not_eq_true, Bool.not_eq_false'] at hclean
      have hnick := ne_nil_of_cleanNick hclean
      have hclient : s.findClient (strlcpy (parv.takeWhile (· ≠ '~')) s.conf.nicklen) =
          s.findNick (strlcpy (parv.takeWhile (· ≠ '~')) s.conf.nicklen) := by
        rw [Tables.findClient, digit_of_cleanNick hclean]
        rfl
      rw [hclient]
      cases hfind : s.findNick (strlcpy (parv.takeWhile (· ≠ '~')) s.conf.nicklen) with
      | none =>
        have hvacant : Vacant s.client (strlcpy (parv.takeWhile (· ≠ '~')) s.conf.nicklen) :=
          Or.inr ((h.wf.findNick_eq_none_iff hnick).mp hfind)
        rw [setInitialNick, hp]
        exact h.rename hp (by rfl) (by rfl) (hvacant.freeBut p) (.inr (by simpa using hdelayed))
      | some q =>
        dsimp only
        split_ifs with hself
        · obtain ⟨d, hd, hsame⟩ := h.wf.findNick_eq_some hfind
          obtain rfl : c = d := by simpa [← hself, hp] using hd
          exact h.set hp hsame rfl
        · exact h

end Clients

/-! ### A split -/

/-- The users of a server, those that came last first. -/
def usersOf (s : Server) (serv : Serv) : List Addr :=
  (range s.fresh).reverse.filter fun p =>
    (s.client p).any fun c => decide (c.status = .client) && decide (c.way.head? = some serv)

/-- A user of a server that is split off: its nick is delayed, and it exits. -/
def removeUser (s : Server) (p : Addr) : Server :=
  match s.client p with
  | none => s
  | some c =>
    let s := if 0 < s.conf.nickDelay then
        { s with toTables := s.toTables.addNdEntry c.name (s.now + s.conf.nickDelay) }
      else s
    s.exitClient none p true

/-- `recurse_remove_clients`, for one server of those that are split off. -/
def recurseRemoveClients (s : Server) (serv : Serv) : Server :=
  (usersOf s serv).foldl removeUser s

section Split

variable {s : Server} {p : Addr} {c : Client} {ps : List Addr}

/-- Only clients that are still to go have a nick that is delayed, and those that share with them a
nick that begins with a digit are to go too, if their nicks are to be delayed. -/
structure Going (delays : Prop) (t : Tables) (ps : List Addr) : Prop where
  wf : t.WellFormed
  clear : ∀ q d, t.client q = some d → q ∉ ps → d.name ≠ [] → t.delayed d.name = false
  shared : delays → ∀ p c q d, p ∈ ps → t.client p = some c → t.client q = some d →
    digitName c.name = true → irccmp c.name d.name = true → q ∈ ps

theorem conf_removeUser (s : Server) (p : Addr) : (removeUser s p).conf = s.conf := by
  rw [removeUser]
  cases s.client p with
  | none => rfl
  | some c =>
    dsimp only [exitClient]
    split_ifs <;> split <;> simp

theorem going_removeUser (h : Going (0 < s.conf.nickDelay) s.toTables (p :: ps)) :
    Going (0 < s.conf.nickDelay) (removeUser s p).toTables ps := by
  rw [removeUser]
  cases hp : s.client p with
  | none =>
    have hne : ∀ {q d}, s.client q = some d → q ≠ p := by
      rintro q d hq rfl
      rw [hp] at hq
      cases hq
    refine ⟨h.wf, ?_, ?_⟩
    · intro q d hq hmem
      exact h.clear q d hq (not_mem_cons_of_ne_of_not_mem (hne hq) hmem)
    · intro hdelays r c q d hr hc hd hdigit hsame
      exact (mem_cons.mp (h.shared hdelays r c q d (mem_cons_of_mem _ hr) hc hd hdigit
        hsame)).resolve_left (hne hd)
  | some c =>
    -- Whether or not its nick is delayed now, the client goes, and no other client has the nick
    -- unless it is to go too.
    have hstep : ∀ t : Tables, t.WellFormed → t.client = s.client →
        (∀ k, t.delayed k = true → s.delayed k = true ∨ 0 < s.conf.nickDelay ∧
          irccmp c.name k = true) → Going (0 < s.conf.nickDelay) (t.remove p c) ps := by
      intro t ht hclient hdelayed
      have hold : ∀ {q d}, (t.remove p c).client q = some d → q ≠ p ∧ s.client q = some d := by
        intro q d hq
        obtain ⟨-, hnone⟩ | ⟨hqp, hq⟩ := update_eq_some.mp hq
        · cases hnone
        · exact ⟨hqp, hclient ▸ hq⟩
      refine ⟨ht.remove (hclient ▸ hp), ?_, ?_⟩
      · intro q d hq hmem hname
        obtain ⟨hqp, hq⟩ := hold hq
        by_contra hnd
        rw [Bool.not_eq_false] at hnd
        rcases hdelayed d.name hnd with hwas | ⟨hdelays, hsame⟩
        · rw [h.clear q d hq (not_mem_cons_of_ne_of_not_mem hqp hmem) hname] at hwas
          cases hwas
        · cases hdigit : digitName c.name with
          | true =>
            have hin := h.shared hdelays p c q d mem_cons_self hp hq hdigit hsame
            exact absurd ((mem_cons.mp hin).resolve_left hqp) hmem
          | false =>
            exact hqp (h.wf.unique p c hp
              (fun hnil => hname ((eq_nil_iff_of_irccmp hsame).mp hnil)) hdigit q d hq
              (irccmp_symm hsame))
      · intro hdelays r e q d hr he hd hdigit hsame
        obtain ⟨-, he⟩ := hold he
        obtain ⟨hqp, hd⟩ := hold hd
        exact (mem_cons.mp (h.shared hdelays r e q d (mem_cons_of_mem _ hr) he hd hdigit
          hsame)).resolve_left hqp
    dsimp only
    split_ifs with hdelays
    · have hclient : (s.toTables.addNdEntry c.name (s.now + s.conf.nickDelay)).client =
          s.client := by
        rw [Tables.addNdEntry]
        split_ifs <;> rfl
      have hp' : (s.toTables.addNdEntry c.name (s.now + s.conf.nickDelay)).client p = some c := by
        rw [hclient, hp]
      rw [toTables_exitClient none hp']
      exact hstep _ (h.wf.addNdEntry _ _) hclient fun k hk =>
        (Tables.delayed_addNdEntry hk).imp_right fun hsame => ⟨hdelays, hsame⟩
    · rw [toTables_exitClient none hp]
      exact hstep _ h.wf rfl fun k hk => .inl hk

theorem going_foldl (h : Going (0 < s.conf.nickDelay) s.toTables ps) :
    Going (0 < s.conf.nickDelay) (ps.foldl removeUser s).toTables [] := by
  induction ps generalizing s with
  | nil => exact h
  | cons p ps ih =>
    have hgoing := going_removeUser h
    rw [← conf_removeUser s p] at hgoing ⊢
    exact ih hgoing

/-- **A split keeps the tables sound**, unless nicks are delayed and a client that stays shares with
one that goes a nick that begins with a digit. -/
theorem sound_recurseRemoveClients (h : s.toTables.Sound) (serv : Serv)
    (hshared : 0 < s.conf.nickDelay → ∀ p c q d, p ∈ usersOf s serv → s.client p = some c →
      s.client q = some d → digitName c.name = true → irccmp c.name d.name = true →
        q ∈ usersOf s serv) :
    (recurseRemoveClients s serv).toTables.Sound := by
  have hgoing : Going (0 < s.conf.nickDelay) (recurseRemoveClients s serv).toTables [] :=
    going_foldl ⟨h.wf, fun q d hq _ hname => h.clear q d hq hname, hshared⟩
  exact ⟨hgoing.wf, fun q d hq hname => hgoing.clear q d hq not_mem_nil hname⟩

end Split

/-! ### What happens at a server -/

/-- A connection that has come in. -/
def connection (exemptResv : Bool) : Client :=
  { name := [], username := [], host := [], sockhost := [], info := [], id := [], tsinfo := 0,
    hopcount := 0, status := .unknown, way := [], fake := false, exemptResv := exemptResv,
    oper := false, lastNickChange := 0, numberOfNickChanges := 0 }

/-- What happens: time passes, a server is linked, a connection comes in, takes a nick and is
registered under an id that `generate_uid` gives, a client becomes an operator, and changes its
nick; a server sends `NICK`, `UID`, `SAVE` and `KILL`; a client exits, a server splits, and delays
end. -/
inductive Op
  | tick (d : ℕ)
  | server (way : List Serv)
  | connect (exemptResv : Bool)
  | mrNick (p : Addr) (parv : Str)
  | register (p : Addr) (uid username host sockhost info : Str)
  | oper (p : Addr)
  | mNick (p : Addr) (parv : Str)
  | msNick (link : Serv) (source : List Serv) (parv : Intro)
  | mcNick (link : Serv) (source_p : Addr) (nick : Str) (newts : ℤ)
  | msSave (link : Serv) (source uid : Str) (ts : ℤ)
  | msKill (link : Serv) (source : Str × Str) (user : Str)
  | exit (p : Addr) (killed : Bool)
  | split (serv : Serv)
  | expire

/-- One thing happens; nothing that cannot. -/
def step (s : Server) : Op → Option Server
  | .tick d => some { s with now := s.now + d }
  | .server way =>
    some { s with
      servers := way :: s.servers
      servList := match way with
        | [link] => link :: s.servList
        | _ => s.servList }
  | .connect exemptResv => some { s with toTables := s.toTables.enter (connection exemptResv) }
  | .mrNick p parv => do
    let c ← s.client p
    if c.status = .unknown then some (mrNick s p parv) else none
  | .register p uid username host sockhost info => do
    let c ← s.client p
    if c.status = .unknown ∧ c.name ≠ [] ∧ c.id = [] ∧ digitName uid ∧ s.findId uid = none then
      let c := { c with
        id := uid, username := username, host := host, sockhost := sockhost, info := info,
        status := .client }
      some ({ s with toTables := s.toTables.identify p c }.introduceClient none c)
    else none
  | .oper p => do
    let c ← s.client p
    some { s with toTables := s.toTables.set p { c with oper := true } }
  | .mNick p parv => do
    let c ← s.client p
    if c.myClient then some (mNick s p parv) else none
  | .msNick link source parv =>
    if source.getLast? = some link then some (msNick s link source parv) else none
  | .mcNick link source_p nick newts => do
    let c ← s.client source_p
    if c.status = .client ∧ c.link = some link then some (mcNick s link source_p nick newts)
    else none
  | .msSave link source uid ts => some (msSave s link source uid ts)
  | .msKill link source user => some (msKill s link source user)
  | .exit p killed => do
    let _ ← s.client p
    some (s.exitClient none p killed)
  | .split serv =>
    let s := recurseRemoveClients s serv
    some { s with
      servers := s.servers.filter fun way => way.head? ≠ some serv
      servList := s.servList.filter fun link => link ≠ serv }
  | .expire => some { s with toTables := s.toTables.expireNdEntries s.now }

/-- **The condition on the steps.** A change of the nick meets the condition of `m_nick`; no client
of this server that is saved has an id that is delayed; and, where nicks are delayed, no client that
stays shares a nick that begins with a digit with one that a split takes away. -/
def StepOk (s : Server) : Op → Prop
  | .mNick p parv => Acceptable s.conf parv → MNickOk s p (asked s.conf parv)
  | .msNick _ source parv =>
    cleanIntro s.conf parv = true → ∀ p c, s.findClient parv.nick = some p →
      s.client p = some c → c.myClient = true →
        savesTarget s.conf c (canSaveIntro source parv) (sameUser c parv.username parv.host)
          parv.newts = true → s.delayed c.id = false
  | .mcNick _ source_p nick newts =>
    cleanNick s.conf nick false = true → ∀ source p c, s.client source_p = some source →
      s.findClient nick = some p → source_p ≠ p → s.client p = some c → c.myClient = true →
        savesTarget s.conf c (canSave source) (sameUser c source.username source.host) newts =
          true → s.delayed c.id = false
  | .msSave _ _ uid ts =>
    ∀ p c, s.findId uid = some p → s.client p = some c → c.status = .client →
      digitName c.name = false → c.tsinfo = ts → c.myClient = true → s.delayed c.id = false
  | .split serv =>
    0 < s.conf.nickDelay → ∀ p c q d, p ∈ usersOf s serv → s.client p = some c →
      s.client q = some d → digitName c.name = true → irccmp c.name d.name = true →
        q ∈ usersOf s serv
  | _ => True

/-- A server that has just been started. -/
def start (conf : Conf) (me : Serv) (now : ℤ) : Server :=
  { client := fun _ => none, fresh := 0, hashClient := [], hashId := [], ndList := [],
    conf := conf, me := me, servList := [], servers := [], now := now, sent := [], told := [] }

theorem sound_start (conf : Conf) (me : Serv) (now : ℤ) : (start conf me now).toTables.Sound where
  wf := Tables.wellFormed_empty
  clear := by simp [start, Tables.Clear]

/-- **A step that meets the condition keeps the tables sound.** -/
theorem sound_step {s s' : Server} {op : Op} (h : s.toTables.Sound) (hok : StepOk s op)
    (hstep : step s op = some s') : s'.toTables.Sound := by
  cases op with
  | tick d =>
    cases hstep
    exact h
  | server way =>
    cases hstep
    exact h
  | connect exemptResv =>
    cases hstep
    exact h.enter (.inl rfl) (.inl rfl) (.inl rfl)
  | mrNick p parv =>
    simp only [step, bind_eq_bind, bind_eq_some_iff] at hstep
    obtain ⟨c, -, hstep⟩ := hstep
    split_ifs at hstep
    cases hstep
    exact sound_mrNick h p parv
  | register p uid username host sockhost info =>
    simp only [step, bind_eq_bind, bind_eq_some_iff] at hstep
    obtain ⟨c, hp, hstep⟩ := hstep
    split_ifs at hstep with hc
    cases hstep
    rw [toTables_introduceClient]
    exact h.identify hp (by rfl) hc.2.2.1 hc.2.2.2.1
  | oper p =>
    simp only [step, bind_eq_bind, bind_eq_some_iff] at hstep
    obtain ⟨c, hp, hstep⟩ := hstep
    cases hstep
    exact h.set hp (irccmp_refl _) rfl
  | mNick p parv =>
    simp only [step, bind_eq_bind, bind_eq_some_iff] at hstep
    obtain ⟨c, hp, hstep⟩ := hstep
    split_ifs at hstep
    cases hstep
    exact sound_mNick h hp hok
  | msNick link source parv =>
    simp only [step] at hstep
    split_ifs at hstep
    cases hstep
    exact sound_msNick h source parv hok
  | mcNick link source_p nick newts =>
    simp only [step, bind_eq_bind, bind_eq_some_iff] at hstep
    obtain ⟨c, hp, hstep⟩ := hstep
    split_ifs at hstep with hc
    cases hstep
    exact sound_mcNick h hp hc.1 nick newts fun hclean q d => hok hclean c q d hp
  | msSave link source uid ts =>
    cases hstep
    exact sound_msSave h source uid ts hok
  | msKill link source user =>
    cases hstep
    exact sound_msKill h source user
  | exit p killed =>
    simp only [step, bind_eq_bind, bind_eq_some_iff] at hstep
    obtain ⟨c, -, hstep⟩ := hstep
    cases hstep
    exact sound_exitClient h none p killed
  | split serv =>
    cases hstep
    exact sound_recurseRemoveClients h serv hok
  | expire =>
    cases hstep
    exact h.expireNdEntries s.now

/-- Sound tables have no nick that is delayed and used. -/
theorem not_delayed_of_owned {t : Tables} (h : t.Sound) {nick : Str} {p : Addr}
    (hfind : t.findNick nick = some p) : t.delayed nick = false := by
  obtain ⟨c, hc, hsame⟩ := h.wf.findNick_eq_some hfind
  have hname : c.name ≠ [] := by
    intro hnil
    rw [(eq_nil_iff_of_irccmp hsame).mp hnil, Tables.findNick, if_pos rfl] at hfind
    cases hfind
  rw [← Tables.delayed_congr t hsame]
  exact h.clear p c hc hname

/-- **The delay of nicks is respected.** In every run from the start of a server whose steps meet
the condition, no nick is delayed and owned by a client; and when a registered client of the server
asks for a valid, unreserved nick, `m_nick` makes the change exactly if the nick is not delayed and
is free, the client's own in another case, or held by an unregistered connection, which exits; the
change is then made unless the flood limit refuses it. -/
theorem delay_respected {conf : Conf} {me : Serv} {now : ℤ} {ops : List Op} {s : Server}
    (hok : StepsMeet step StepOk (start conf me now) ops)
    (hrun : run step (start conf me now) ops = some s) :
    (∀ nick, ¬(s.delayed nick = true ∧ (s.findNick nick).isSome = true)) ∧
      ∀ p c parv, s.client p = some c → c.myClient = true → Acceptable s.conf parv →
        StepOk s (.mNick p parv) →
          (Performs s p parv ↔ Available s p (asked s.conf parv)) ∧
          (∀ q, HeldUnregistered s (asked s.conf parv) q → Performs s p parv →
            mNickVerdict s p parv = .change (asked s.conf parv) (some q)) ∧
          (Performs s p parv → ∃ c', (mNick s p parv).client p = some c' ∧
            c'.name = if s.tooFast (s.resetChanges c) then c.name else asked s.conf parv) := by
  have hsound : s.toTables.Sound :=
    invariant (fun s : Server => s.toTables.Sound)
      (fun _ _ _ h hstepok hstep => sound_step h hstepok hstep) (sound_start conf me now) hok hrun
  refine ⟨?_, ?_⟩
  · rintro nick ⟨hdelayed, howned⟩
    obtain ⟨p, hp⟩ := isSome_iff_exists.mp howned
    rw [not_delayed_of_owned hsound hp] at hdelayed
    cases hdelayed
  · intro p c parv hp _ hacc hstep
    refine ⟨(performs_iff_available hacc p).mpr (hstep hacc), ?_, name_mNick hp hacc⟩
    rintro q ⟨hfind, -⟩ hperf
    rw [(performs_iff hacc p).mp hperf] at hfind
    cases hfind

/-! ### A delayed nick that is taken -/

/-- Nicks are delayed for a minute, up to nine characters long, and none is reserved. -/
def smallConf : Conf :=
  { collisionFnc := true, antiNickFlood := false, maxNickTime := 20, maxNickChanges := 5,
    nickDelay := 60, nicklen := 10, nicklenMin := 1, resv := fun _ => false }

def hubServ : Serv := ⟨['h', '.'], ['1', 'H', 'U'], true, true⟩

def leafServ : Serv := ⟨['l', '.'], ['2', 'L', 'F'], true, true⟩

/-- A user `foo` of another server is introduced, and the server splits, so that `foo` is delayed;
then a client `bob` of this server is registered. -/
def splitOps : List Op :=
  [.server [leafServ],
   .msNick hubServ [leafServ, hubServ]
    ⟨['f', 'o', 'o'], 1, 10, ['u'], ['x'], [],
      .uid ['1'] ['2', 'L', 'F', 'A', 'A', 'A', 'A', 'A', 'A']⟩,
   .split leafServ,
   .connect false,
   .mrNick 1 ['b', 'o', 'b'],
   .register 1 ['3', 'M', 'E', 'A', 'A', 'A', 'A', 'A', 'A'] ['u'] ['y'] ['2'] []]

/-- The server after it. -/
def afterSplit : Option Server :=
  run step (start smallConf ⟨['m', '.'], ['3', 'M', 'E'], true, true⟩ 100) splitOps

/-- The client `bob` takes the nick `foo`, which is delayed and owned then; and it may not write its
own nick in another case. -/
theorem delayed_nick_taken :
    ∃ s, afterSplit = some s ∧ (∃ s', step s (.mNick 1 ['f', 'o', 'o']) = some s' ∧
      s'.delayed ['f', 'o', 'o'] = true ∧ (s'.findNick ['f', 'o', 'o']).isSome = true) ∧
      (Acceptable s.conf ['B', 'O', 'B'] ∧ Available s 1 (asked s.conf ['B', 'O', 'B']) ∧
        ¬Performs s 1 ['B', 'O', 'B']) := by
  have hrun : (afterSplit.any fun s =>
      ((step s (.mNick 1 ['f', 'o', 'o'])).any fun s' =>
        s'.delayed ['f', 'o', 'o'] && (s'.findNick ['f', 'o', 'o']).isSome) &&
      cleanNick s.conf (asked s.conf ['B', 'O', 'B']) true &&
      !s.conf.resv (asked s.conf ['B', 'O', 'B']) &&
      !s.delayed (asked s.conf ['B', 'O', 'B']) &&
      decide (s.findNick (asked s.conf ['B', 'O', 'B']) = some 1) &&
      (s.client 1).any fun c => decide (c.name ≠ asked s.conf ['B', 'O', 'B'])) = true := by
    decide
  obtain ⟨s, hs, hchecks⟩ := (any_eq_true _ _).mp hrun
  simp only [Bool.and_eq_true, Bool.not_eq_true', decide_eq_true_eq] at hchecks
  obtain ⟨⟨⟨⟨⟨htaken, hclean⟩, hresv⟩, hdelayed⟩, hfind⟩, hname⟩ := hchecks
  obtain ⟨s', hs', hboth⟩ := (any_eq_true _ _).mp htaken
  obtain ⟨c, hc, hother⟩ := (any_eq_true _ _).mp hname
  have hacc : Acceptable s.conf ['B', 'O', 'B'] := ⟨by decide, hclean, hresv⟩
  refine ⟨s, hs, ⟨s', hs', (Bool.and_eq_true _ _ ▸ hboth)⟩, hacc, ⟨hdelayed, ?_⟩, ?_⟩
  · exact .inr (.inl ⟨hfind, c, hc, of_decide_eq_true hother⟩)
  · rw [performs_iff hacc, hfind]
    simp

/-- After the split `bob` takes a nick that is free and not delayed. -/
theorem delay_respected_split :
    ∃ s, run step (start smallConf ⟨['m', '.'], ['3', 'M', 'E'], true, true⟩ 100)
        (splitOps ++ [.mNick 1 ['a', 'n', 'n']]) = some s ∧
      s.delayed ['f', 'o', 'o'] = true ∧ s.findNick ['a', 'n', 'n'] = some 1 ∧
      ∀ nick, ¬(s.delayed nick = true ∧ (s.findNick nick).isSome = true) := by
  have hok : StepsMeet step StepOk (start smallConf ⟨['m', '.'], ['3', 'M', 'E'], true, true⟩ 100)
      (splitOps ++ [.mNick 1 ['a', 'n', 'n']]) := by
    refine ⟨trivial, ?_⟩
    rintro _ ⟨⟩
    refine ⟨?_, ?_⟩
    · intro _ p c hfind
      cases isSome_of_eq_some hfind
    rintro _ ⟨⟩
    refine ⟨?_, ?_⟩
    · intro _ p c q d hmem hp _ hdigit
      obtain rfl : p = 0 := (show ∀ x ∈ usersOf _ leafServ, x = 0 by decide) p hmem
      cases hp
      cases hdigit
    rintro _ ⟨⟩
    refine ⟨trivial, ?_⟩
    rintro _ ⟨⟩
    refine ⟨trivial, ?_⟩
    rintro _ ⟨⟩
    refine ⟨trivial, ?_⟩
    rintro _ ⟨⟩
    refine ⟨fun _ => ⟨fun _ => by decide, ?_⟩, fun _ _ => trivial⟩
    rintro (⟨hfind, -⟩ | ⟨q, hfind, -⟩)
    · exact absurd ((show _ = none by decide).symm.trans hfind) (by simp)
    · exact absurd ((show _ = none by decide).symm.trans hfind) (by simp)
  have hchecks : ((run step (start smallConf ⟨['m', '.'], ['3', 'M', 'E'], true, true⟩ 100)
      (splitOps ++ [.mNick 1 ['a', 'n', 'n']])).any fun s =>
        s.delayed ['f', 'o', 'o'] && decide (s.findNick ['a', 'n', 'n'] = some 1)) = true := by
    decide
  obtain ⟨s, hrun, hs⟩ := (any_eq_true _ _).mp hchecks
  rw [Bool.and_eq_true, decide_eq_true_eq] at hs
  exact ⟨s, hrun, hs.1, hs.2, (delay_respected hok hrun).1⟩

end Ratbox.Nick
