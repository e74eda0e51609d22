import Ratbox.Netsplit.Announcing

/-!
# A server exits

What `exit_client` does to a server, on this server or on another one: it is removed with all that
is behind it, and the other servers are told.

Source: `src/client.c`, lines 986–1005, 1171–1305 and 1401–1453.

## Main definitions

* `Netsplit.Calm`: the marks of a client that is there.
* `Netsplit.Split`: a server was removed with all that is behind it, and the other links were told.

## Main results

* `Netsplit.Inv.exitRemoteServer`, `Netsplit.Inv.exitLocalServer`: the exits of servers.
-/

namespace Ratbox.Netsplit

open Text Hash Uplinks Option
open Channel (Kind World)
open Services (HashType me)

/-! ### Marks -/

/-- The marks of a client that is there: only connections to this server can be dead, and then they
have an error. -/
structure Calm (s : State) (p : ℕ) : Prop where
  remote : (s.world.client p).kind = .remoteUser → s.dead p = false ∧ s.closing p = false
  server : s.isServer p = true → s.killed p = false
  marked : s.dead p = true ∨ s.closing p = true → s.ioError p = true

section Marks

variable {t : Uplinks ℕ} {out : ℕ → Prop} {s s' s₁ : State} {p x n : ℕ} {lines : List Line}

section

variable (h : Inv t out s)
include h

theorem Inv.of_same (hs : Same s s') : Inv t out s' := by
  rw [hs]
  exact { h with }

/-- Sending removes nobody. -/
theorem Removed.of_same (hs : Same s s') : Removed s (fun _ => False) (fun _ => False) s' := by
  rw [hs]
  exact { (Quiet.refl h).toRemoved with }

/-- The link that a client is behind. -/
theorem Inv.fromLink (hp : p ∈ s.globalClientList) (hne : p ≠ me) :
    t.Below (s.fromLink p) p ∧ s.fromLink p ∈ s.globalClientList ∧ s.servptr (s.fromLink p) =
      some me ∧ (s.fromLink p ≠ p → s.isServer (s.fromLink p) = true) := by
  obtain ⟨d, hd⟩ : ∃ d, t.depth p = d := ⟨_, rfl⟩
  induction d using Nat.strong_induction_on generalizing p with
  | _ d ih =>
    obtain ⟨k, hk, hservptr, hkind, hfrom⟩ := h.parent p hp hne
    have hup := h.up_of_servptr hp hne hservptr
    by_cases hkme : k = me
    · rw [if_pos hkme] at hfrom
      rw [hfrom]
      exact ⟨.refl, hp, hkme ▸ hservptr, fun heq => absurd rfl heq⟩
    · rw [if_neg hkme] at hfrom
      have hlt : t.depth k < d := by
        rw [← hd, t.depth_up p k hup]
        exact Nat.lt_succ_self _
      obtain ⟨hbelow, hmem, hme, hserver⟩ := ih _ hlt hk hkme rfl
      rw [hfrom]
      refine ⟨hbelow.down hup, hmem, hme, fun _ => ?_⟩
      by_cases hlink : s.fromLink k = k
      · rw [hlink]
        exact decide_eq_true ⟨hkind, hkme⟩
      · exact hserver hlink

/-- A client behind a server is on another server. -/
theorem Inv.remote_of_below (hx : s.isServer x = true) (hp : p ∈ s.globalClientList)
    (hbelow : t.Below x p) (hclient : s.isClient p = true) :
    (s.world.client p).kind = .remoteUser := by
  have hpx : p ≠ x := by
    rintro rfl
    rw [isClient_of_isServer hx] at hclient
    cases hclient
  obtain hkind | hkind := h.kind p hp
  · rw [State.isClient, hkind] at hclient
    cases hclient
  · rw [hkind, if_neg]
    intro hservptr
    obtain heq | ⟨k, hup, hk⟩ := below_iff.mp hbelow
    · exact hpx heq
    · cases (h.up_eq_some hp hup).2.1.symm.trans hservptr
      exact h.not_me_of_below (ne_me_of_isServer hx) hk

/-- The links to servers can be sent to. -/
theorem Inv.link (hp : p ∈ s.servList) (hcalm : Calm s p) : Link s p := by
  obtain ⟨hp, hserver, hservptr, -⟩ := (h.servList p).mp hp
  have hne := ne_me_of_isServer hserver
  obtain ⟨k, -, hk, -, hfrom⟩ := h.parent p hp hne
  cases hservptr.symm.trans hk
  rw [if_pos rfl] at hfrom
  exact ⟨hne, hfrom, hcalm.marked⟩

/-- **The others are told, and what is behind a server is removed.** -/
theorem Inv.removeDependents (hx : Ready t out s n x) (hlinks : ∀ dest ∈ s.servList, Link s dest)
    (client_p : Option ℕ) (comment comment1 : Str) :
    ∃ s₁ s₂, removeDependents n s client_p x comment comment1 = some s₂ ∧
      Told t s client_p x s.servList s₁ ∧ Inv t out s₁ ∧ Quiet s₁ (Behind t x) (Behind t x) s₂ ∧
      Inv t out s₂ := by
  have hstart : Told t s client_p x [] s := by
    refine ⟨rfl, fun _ hq => ?_, fun _ _ => ⟨rfl, rfl, rfl, rfl⟩, fun _ hq => ?_, fun _ => id⟩
    · cases hq
    · cases hq
  obtain ⟨s₁, hrun, htold⟩ := hstart.foldlM h hx hlinks h.servList_nodup comment comment1
  rw [List.nil_append] at htold
  have hs₁ := h.of_same htold.same
  have hmoved := Removed.of_same h htold.same
  have hx₁ : Ready t out s₁ n x := by
    refine ⟨?_, (hmoved.isServer x).trans hx.isServer, fun p hp => ?_, fun p hp hbelow hclient =>
      ?_, hx.out⟩
    · exact (hmoved.globalClientList.mem x).mpr ⟨hx.mem, not_false⟩
    · exact hx.depth p ((hmoved.globalClientList.mem p).mp hp).1
    · rw [hmoved.isClient] at hclient
      have hnot : p ∉ s.servList := by
        intro hmem
        rw [isClient_of_isServer ((h.servList p).mp hmem).2.1] at hclient
        cases hclient
      obtain ⟨-, -, hdead, hclosing⟩ := htold.other p (.inl hnot)
      rw [hdead, hclosing]
      exact hx.flags p ((hmoved.globalClientList.mem p).mp hp).1 hbelow hclient
  obtain ⟨s₂, hremove, hr, hs₂⟩ := hs₁.recurseRemoveClients comment1 hx₁
  refine ⟨s₁, s₂, ?_, htold, hs₁, hr, hs₂⟩
  rw [Netsplit.removeDependents, hrun]
  exact hremove

end

/-- The exit came from the link, and its server knows of it: it can handle a SQUIT, or the server
that exits is behind it. -/
def Knows (s : State) (client_p : Option ℕ) (x dest : ℕ) : Prop :=
  client_p = some dest ∧ (s.capQS dest = true ∨ dest = s.fromLink x)

/-- A server was removed with all that is behind it. Each other link was told in a way that makes
its server remove the same, or has an error; nothing was sent over the link that the exit came from,
if its server knows of it. -/
structure Split (t : Uplinks ℕ) (s : State) (client_p : Option ℕ) (x : ℕ) (s' : State) : Prop
    extends Removed s (t.Below x) (t.Below x) s' where
  told : ∀ dest ∈ s'.servList, ¬Knows s client_p x dest → s'.ioError dest = true ∨
    ∃ lines, s'.sent dest = s.sent dest ++ lines ∧ Makes t s (s.capQS dest || dest = s.fromLink x) x
      lines
  silent : ∀ dest ∈ s'.servList, Knows s client_p x dest → s'.sent dest = s.sent dest
  killed : ∀ p ∈ s.globalClientList, ¬t.Below x p → s'.killed p = s.killed p
  flags : ∀ p ∈ s.globalClientList, ¬t.Below x p → p ∉ s.servList → s'.dead p = s.dead p ∧
    s'.closing p = s.closing p ∧ s'.ioError p = s.ioError p
  marked : ∀ dest ∈ s'.servList, s'.dead dest = true ∨ s'.closing dest = true →
    s'.ioError dest = true

theorem Makes.mono {qs qs' : Bool} (h : Makes t s qs x lines) (hqs : qs = true → qs' = true) :
    Makes t s qs' x lines := fun peer hpeer => h peer fun hq => hpeer (hqs hq)

/-- One SQUIT. -/
theorem makes_squit (hx : x ∈ s.globalClientList) (hne : x ≠ me) (source : Option Str) (target : ℕ)
    (comment : Str) :
    Makes t s true x [.squit source (getId s x target) comment] := by
  intro peer hpeer p hp
  simp only [List.mem_singleton, exists_eq_left, Peer.removes, peer.find_getId hx hne, some.injEq,
    exists_eq_left']
  exact ⟨peer.squit_below x p, hpeer rfl x p⟩

theorem behind_or {p x : ℕ} : Behind t x p ∨ p = x ↔ t.Below x p := by
  constructor
  · rintro (⟨hbelow, -⟩ | rfl)
    · exact hbelow
    · exact .refl
  · intro hbelow
    by_cases hpx : p = x
    · exact .inr hpx
    · exact .inl ⟨hbelow, hpx⟩

/-- The other servers know the clients that are there. -/
theorem Makes.of_removed {outs : ℕ → Prop} {qs : Bool} (hr : Removed s (fun _ => False) outs s')
    (h : Makes t s' qs x lines) : Makes t s qs x lines := by
  intro peer hpeer p hp
  have hlive : ∀ q, q ∈ s'.globalClientList ↔ q ∈ s.globalClientList :=
    fun q => by simp [hr.globalClientList.mem]
  let peer' : Peer t s' :=
    { peer with
      find_name := fun q hq hne => (congrArg peer.find (hr.field q .client)).trans
        (peer.find_name q ((hlive q).mp hq) hne)
      find_id := fun q hq hne hid => by
        have heq : s'.id q = s.id q := hr.field q .id
        rw [heq] at hid ⊢
        exact peer.find_id q ((hlive q).mp hq) hne hid }
  exact h peer' hpeer p ((hlive p).mpr hp)

theorem Removed.getId {gone outs : ℕ → Prop} (h : Removed s gone outs s') (source target : ℕ) :
    getId s' source target = getId s source target := by
  have hname : ∀ q, s'.name q = s.name q := fun q => h.field q .client
  have hid : ∀ q, s'.id q = s.id q := fun q => h.field q .id
  rw [Netsplit.getId, Netsplit.getId, useId, useId, h.fromLink, h.isServer, hname, hid, hid]

/-- Who is behind a server that exits is removed, and so is the server. -/
theorem Inv.split (h : Inv t (fun _ => False) s) (hxme : x ≠ me)
    (hr : Removed s (t.Below x) (t.Below x) s') :
    Inv t (fun _ => False) s' := by
  refine h.removed hr (h.not_me_of_below hxme) (fun p hp hne k hk hbelow => ?_) (fun _ _ _ => .inr)
    fun p _ hbelow => ?_
  · exact hbelow.down (h.up_of_servptr hp hne hk)
  · simp [hbelow]

/-- The link that the server is behind is told, if the exit did not come from it. -/
theorem tellUplink_eq (hserver : s.isServer (s.fromLink x) = true) (hkilled : s.killed x = false)
    (hlink : Link s (s.fromLink x)) (client_p : Option ℕ) (source : ℕ) (comment : Str) :
    (client_p = some (s.fromLink x) → tellUplink s client_p x source comment = s) ∧
      (client_p ≠ some (s.fromLink x) → Sent s (s.fromLink x)
        [.squit (some (Netsplit.getId s source (s.fromLink x))) (Netsplit.getId s x (s.fromLink x))
          comment]
        (tellUplink s client_p x source comment)) := by
  rw [tellUplink]
  constructor
  · intro hclient
    rw [if_neg (by simp [hclient])]
  · intro hclient
    rw [if_pos ⟨hserver, hclient, hkilled⟩]
    exact hlink.sendtoOne _

/-- **A server behind a link exits.** -/
theorem Inv.exitRemoteServer (h : Inv t (fun _ => False) s)
    (hcalm : ∀ p ∈ s.globalClientList, p ≠ x → Calm s p)
    (hkilled : s.killed x = false) (hx : Ready t (fun _ => False) s n x)
    (hremote : s.fromLink x ≠ x) (client_p : Option ℕ) (source : ℕ) (comment : Str) :
    ∃ s', exitRemoteServer n s client_p x source comment = some s' ∧ Split t s client_p x s' ∧
    Inv t (fun _ => False) s' := by
  have hxme := ne_me_of_isServer hx.isServer
  obtain ⟨k, hk, hservptr, -, hfrom⟩ := h.parent x hx.mem hxme
  obtain ⟨-, hlinkmem, hlinkup, hlinkserver⟩ := h.fromLink hx.mem hxme
  have hupper : s.fromLink x ∈ s.servList :=
    (h.servList _).mpr ⟨hlinkmem, hlinkserver hremote, hlinkup, not_false⟩
  have hnot : x ∉ s.servList := by
    intro hmem
    have hme := some.inj (hservptr.symm.trans ((h.servList x).mp hmem).2.2.1)
    rw [if_pos hme] at hfrom
    exact hremote hfrom
  have hlinks : ∀ dest ∈ s.servList, Link s dest := fun dest hdest =>
    h.link hdest (hcalm dest ((h.servList dest).mp hdest).1 fun heq => hnot (heq ▸ hdest))
  obtain ⟨s₁, s₂, hrun, htold, hs₁, hr₂, hs₂⟩ := h.removeDependents hx hlinks client_p
    (if s.isClient source then newcomment (s.name source) comment else comment) (splitComment s x)
  have hr₁ := Removed.of_same h htold.same
  have hservptr₂ : s₂.servptr x = some k := by rw [hr₂.servptr, hr₁.servptr, hservptr]
  have hnot₂ : x ∉ s₂.servList :=
    fun hmem => hnot ((hr₁.servList.trans hr₂.servList).sublist.subset hmem)
  have hr₃ := hs₂.offLists hservptr₂ (.inr ⟨rfl, hnot₂⟩)
  have hs₃ := hs₂.off hr₃.toRemoved
  obtain ⟨s₃, hs₃eq⟩ : ∃ s₃ : State, s₃ = { s₂ with
    servers := Function.update s₂.servers k ((s₂.servers k).erase x)
    globalServList := s₂.globalServList.erase x
    servList := s₂.servList } := ⟨_, rfl⟩
  rw [← hs₃eq] at hr₃ hs₃
  have hexit : Netsplit.exitRemoteServer n s client_p x source comment =
      some (Netsplit.forgetServer (tellUplink s₃ client_p x source comment) x) := by
    rw [Netsplit.exitRemoteServer]
    dsimp only
    rw [hrun, bind_eq_bind, bind_some, deleteServer_eq hservptr₂, hs₃eq]
  have hr := (hr₁.trans hr₂.toRemoved).trans hr₃.toRemoved
  have hfrom₃ : s₃.fromLink x = s.fromLink x := hr.fromLink x
  have hlive₃ : ∀ p ∈ s.globalClientList, ¬t.Below x p →
      p ∈ s₃.globalClientList := fun p hp hbelow =>
    (hr.globalClientList.mem p).mpr ⟨hp, by simp [Behind, hbelow]⟩
  have hflags : ∀ p ∈ s.globalClientList, p = x ∨ ¬t.Below x p → s₃.killed p = s.killed p ∧
      s₃.closing p = s₁.closing p ∧ s₃.dead p = s₁.dead p := by
    intro p hp hpx
    have hbehind : ¬Behind t x p := fun hb => hpx.elim hb.2 fun hnot => hnot hb.1
    have hp₁ := (hr₁.globalClientList.mem p).mpr ⟨hp, not_false⟩
    obtain ⟨hk₂, hc₂, hd₂⟩ := hr₂.flags p hp₁ hbehind
    obtain ⟨hk₃, hc₃, hd₃⟩ := hr₃.flags p ((hr₂.globalClientList.mem p).mpr ⟨hp₁, hbehind⟩)
      not_false
    have hk₁ : s₁.killed p = s.killed p := by rw [htold.same]
    exact ⟨(hk₃.trans hk₂).trans hk₁, hc₃.trans hc₂, hd₃.trans hd₂⟩
  have hio : s₃.ioError = s₁.ioError := hr₃.links.1.trans hr₂.links.1
  have hsent : s₃.sent = s₁.sent := hr₃.links.2.trans hr₂.links.2
  have hupnot : ¬t.Below x (s.fromLink x) := by
    intro hbelow
    obtain heq | ⟨q, hup, hq⟩ := below_iff.mp hbelow
    · exact hremote heq
    · cases (h.up_eq_some hlinkmem hup).2.1.symm.trans hlinkup
      exact h.not_me_of_below hxme hq
  obtain ⟨hsent₁, hio₁, hdead₁, hclosing₁⟩ := htold.other (s.fromLink x) (.inr (.inl rfl))
  have hlink : Link s₃ (s₃.fromLink x) := by
    obtain ⟨hne, hown, hmarked⟩ := hlinks _ hupper
    obtain ⟨-, hclosing, hdead⟩ := hflags _ hlinkmem (.inr hupnot)
    rw [hfrom₃]
    refine ⟨hne, (hr.fromLink _).trans hown, ?_⟩
    rw [hio, hdead, hclosing, hio₁, hdead₁, hclosing₁]
    exact hmarked
  obtain ⟨hquiet, htell⟩ := tellUplink_eq (by rw [hfrom₃, hr.isServer, hlinkserver hremote])
    ((hflags x hx.mem (.inl rfl)).1.trans hkilled) hlink client_p source comment
  rw [hfrom₃] at hquiet htell
  generalize tellUplink s₃ client_p x source comment = s₄ at hexit hquiet htell
  have hsame₄ : Same s₃ s₄ := by
    by_cases hcp : client_p = some (s.fromLink x)
    · rw [hquiet hcp]
      rfl
    · exact (htell hcp).same
  have hother₄ : ∀ q, q ≠ s.fromLink x →
      s₄.sent q = s₃.sent q ∧ s₄.ioError q = s₃.ioError q ∧ s₄.dead q = s₃.dead q ∧
          s₄.closing q = s₃.closing q := by
    intro q hq
    by_cases hcp : client_p = some (s.fromLink x)
    · rw [hquiet hcp]
      exact ⟨rfl, rfl, rfl, rfl⟩
    · exact (htell hcp).other q hq
  have hs₄ := hs₃.of_same hsame₄
  have hr₄ := Removed.of_same hs₃ hsame₄
  have hx₄ : x ∈ s₄.globalClientList := by
    refine ((hr.trans hr₄).globalClientList.mem x).mpr ⟨hx.mem, ?_⟩
    simp [Behind]
  have hr₅ := hs₄.forgetServer hx₄ (((hr.trans hr₄).isServer x).trans hx.isServer)
  generalize Netsplit.forgetServer s₄ x = s₅ at hexit hr₅
  have hremoved : Removed s (t.Below x) (t.Below x) s₅ := by
    refine ((hr.trans hr₄).trans hr₅.toRemoved).congr h (fun p _ => ?_) fun p _ _ => ?_
    · simp [behind_or]
    · simp [behind_or]
  have hkept : ∀ p ∈ s.globalClientList, ¬t.Below x p →
      s₅.killed p = s.killed p ∧ s₅.closing p = s₄.closing p ∧ s₅.dead p = s₄.dead p := by
    intro p hp hbelow
    have hpx : p ≠ x := fun heq => hbelow (heq ▸ .refl)
    have hp₄ := (hr₄.globalClientList.mem p).mpr ⟨hlive₃ p hp hbelow, not_false⟩
    obtain ⟨hk₅, hc₅, hd₅⟩ := hr₅.flags p hp₄ hpx
    have hk₄ : s₄.killed p = s₃.killed p := by rw [hsame₄]
    exact ⟨(hk₅.trans hk₄).trans (hflags p hp (.inr hbelow)).1, hc₅, hd₅⟩
  have hservList : ∀ dest ∈ s₅.servList, dest ∈ s.servList ∧ dest ∈ s.globalClientList ∧
      ¬t.Below x dest := by
    intro dest hdest
    obtain ⟨hmem, hbelow⟩ := (hremoved.servList.mem dest).mp hdest
    exact ⟨hmem, ((h.servList dest).mp hmem).1, hbelow⟩
  refine ⟨s₅, hexit, ⟨hremoved, fun dest hdest hnot => ?_, fun dest hdest hknows => ?_,
    fun p hp hbelow => ?_, fun p hp hbelow hlink => ?_, fun dest hdest => ?_⟩,
      h.split hxme hremoved⟩
  · obtain ⟨hmem, -, -⟩ := hservList dest hdest
    rw [hr₅.links.1, hr₅.links.2]
    by_cases hd : dest = s.fromLink x
    · subst hd
      have hcp : client_p ≠ some (s.fromLink x) := fun hcp => hnot ⟨hcp, .inr rfl⟩
      refine (htell hcp).got.imp_right fun hgot => ⟨_, by rw [hgot, hsent, hsent₁], ?_⟩
      rw [hr.getId x]
      exact (makes_squit hx.mem hxme _ _ comment).mono (by simp)
    · obtain ⟨hsent₄, hio₄, -⟩ := hother₄ dest hd
      rw [hsent₄, hio₄, hsent, hio]
      refine (htold.told dest hmem fun hskip => hnot ?_).imp_right fun ⟨lines, hlines, hmakes⟩ =>
        ⟨lines, hlines, hmakes.mono (by simp +contextual)⟩
      obtain heq | ⟨hcp, hqs⟩ := hskip
      · exact absurd heq hd
      · exact ⟨hcp, .inl hqs⟩
  · obtain ⟨hmem, -, -⟩ := hservList dest hdest
    obtain ⟨hcp, hor⟩ := hknows
    rw [hr₅.links.2]
    by_cases hd : dest = s.fromLink x
    · subst hd
      rw [hquiet hcp, hsent, hsent₁]
    · rw [(hother₄ dest hd).1, hsent]
      exact (htold.other dest (.inr (.inr ⟨hcp, hor.resolve_right hd⟩))).1
  · exact (hkept p hp hbelow).1
  · have hd : p ≠ s.fromLink x := fun heq => hlink (heq ▸ hupper)
    obtain ⟨-, hclosing, hdead⟩ := hkept p hp hbelow
    obtain ⟨-, hio₄, hdead₄, hclosing₄⟩ := hother₄ p hd
    obtain ⟨-, hclosing₃, hdead₃⟩ := hflags p hp (.inr hbelow)
    obtain ⟨-, hio₁', hdead₁', hclosing₁'⟩ := htold.other p (.inl hlink)
    rw [hdead, hclosing, hdead₄, hclosing₄, hdead₃, hclosing₃, hr₅.links.1, hio₄, hio]
    exact ⟨hdead₁', hclosing₁', hio₁'⟩
  · obtain ⟨hmem, hp, hbelow⟩ := hservList dest hdest
    obtain ⟨-, hclosing, hdead⟩ := hkept dest hp hbelow
    rw [hdead, hclosing, hr₅.links.1]
    by_cases hd : dest = s.fromLink x
    · subst hd
      by_cases hcp : client_p = some (s.fromLink x)
      · rw [hquiet hcp, ← hfrom₃]
        exact hlink.marked
      · exact (htell hcp).marked
    · obtain ⟨-, hio₄, hdead₄, hclosing₄⟩ := hother₄ dest hd
      obtain ⟨-, hclosing₃, hdead₃⟩ := hflags dest hp (.inr hbelow)
      rw [hdead₄, hclosing₄, hdead₃, hclosing₃, hio₄, hio]
      exact htold.marked dest hmem

/-- The lists of servers make no difference to a line. -/
theorem sendLinebuf_lists (s : State) (dest : ℕ) (line : Line) (l l' : List ℕ) :
    sendLinebuf { s with servList := l, globalServList := l' } dest line =
      { sendLinebuf s dest line with servList := l, globalServList := l' } := by
  unfold sendLinebuf deadLink
  dsimp only
  by_cases hpass : (decide (dest = me) || s.ioError dest) = true
  · simp only [if_pos hpass]
  by_cases hroom : s.room dest (s.sent dest) = true
  · simp only [if_neg hpass, if_pos hroom]
  by_cases hmarked : (s.dead dest || s.closing dest || decide (dest = me)) = true
  · simp only [if_neg hpass, if_neg hroom, if_pos hmarked]
  · simp only [if_neg hpass, if_neg hroom, if_neg hmarked]

theorem sendClosing_lists (s : State) (client_p : Option ℕ) (p : ℕ) (comment : Str)
    (l l' : List ℕ) :
    sendClosing { s with servList := l, globalServList := l' } client_p p comment =
      { sendClosing s client_p p comment with servList := l, globalServList := l' } := by
  unfold sendClosing
  dsimp only
  by_cases hsend : client_p ≠ none ∧ client_p ≠ some p ∧ s.ioError p = false
  · simp only [if_pos hsend]
    exact sendLinebuf_lists s (s.fromLink p) _ l l'
  · simp [if_neg hsend]

theorem sendClosing_frame (hown : s.fromLink x = x) (client_p : Option ℕ) (comment : Str) :
    Same s (sendClosing s client_p x comment) ∧ ∀ q, q ≠ x →
      (sendClosing s client_p x comment).sent q = s.sent q ∧
        (sendClosing s client_p x comment).ioError q = s.ioError q ∧
        (sendClosing s client_p x comment).dead q = s.dead q ∧
        (sendClosing s client_p x comment).closing q = s.closing q := by
  rw [sendClosing]
  split_ifs
  · exact sendtoOne_frame hown _
  · exact ⟨rfl, fun _ _ => ⟨rfl, rfl, rfl, rfl⟩⟩

/-- **A server with a link of its own exits.** -/
theorem Inv.exitLocalServer (h : Inv t (fun _ => False) s)
    (hcalm : ∀ p ∈ s.globalClientList, p ≠ x → Calm s p)
    (hx : Ready t (fun _ => False) s n x) (hlocal : s.fromLink x = x) (client_p : Option ℕ)
    (source : ℕ) (comment : Str) :
    ∃ s', exitLocalServer n s client_p x source comment = some s' ∧ Split t s client_p x s' ∧
    Inv t (fun _ => False) s' := by
  have hxme := ne_me_of_isServer hx.isServer
  have hservptr : s.servptr x = some me := hlocal ▸ (h.fromLink hx.mem hxme).2.2.1
  obtain ⟨hsame₁, hother₁⟩ := sendClosing_frame hlocal client_p comment
  have hlists := sendClosing_lists s client_p x comment (s.servList.erase x)
    (s.globalServList.erase x)
  generalize sendClosing s client_p x comment = s₁ at hsame₁ hother₁ hlists
  have hs₁ := h.of_same hsame₁
  have hr₁ := Removed.of_same h hsame₁
  have hservptr₁ : s₁.servptr x = some me := by rw [hr₁.servptr, hservptr]
  have hr₂ := hs₁.offLists hservptr₁ (.inl rfl)
  obtain ⟨s₂, hs₂eq⟩ : ∃ s₂ : State, s₂ = { s₁ with
    servers := Function.update s₁.servers me ((s₁.servers me).erase x)
    globalServList := s₁.globalServList.erase x
    servList := s₁.servList.erase x } := ⟨_, rfl⟩
  rw [← hs₂eq] at hr₂
  have hs₂ := hs₁.off hr₂.toRemoved
  have hdelete :
      ({ s₁ with servList := s.servList.erase x, globalServList := s.globalServList.erase x
          } : State).deleteServer x = s₂ := by
    have hold : s.servList = s₁.servList ∧ s.globalServList = s₁.globalServList := by
      rw [hsame₁]
      exact ⟨rfl, rfl⟩
    rw [hold.1, hold.2, hs₂eq]
    exact deleteServer_eq hservptr₁
  have hr := hr₁.trans hr₂.toRemoved
  have hlive₂ : ∀ p, p ∈ s₂.globalClientList ↔ p ∈ s.globalClientList :=
    fun p => by simp [hr.globalClientList.mem]
  have hmarks₂ : ∀ p ∈ s.globalClientList, p ≠ x → s₂.killed p = s.killed p ∧ s₂.sent p = s.sent p ∧
      s₂.ioError p = s.ioError p ∧ s₂.dead p = s.dead p ∧ s₂.closing p = s.closing p := by
    intro p hp hpx
    obtain ⟨hsent, hio, hdead, hclosing⟩ := hother₁ p hpx
    obtain ⟨hk₂, hc₂, hd₂⟩ := hr₂.flags p ((hr₁.globalClientList.mem p).mpr ⟨hp, not_false⟩)
      not_false
    have hk₁ : s₁.killed p = s.killed p := by rw [hsame₁]
    exact ⟨hk₂.trans hk₁, (congrFun hr₂.links.2 p).trans hsent, (congrFun hr₂.links.1 p).trans hio,
      hd₂.trans hdead, hc₂.trans hclosing⟩
  have hx₂ : Ready t (fun q => False ∨ q = x) s₂ n x := by
    refine ⟨(hlive₂ x).mpr hx.mem, (hr.isServer x).trans hx.isServer, fun p hp => hx.depth p
      ((hlive₂ p).mp hp), fun p hp hbelow hclient => ?_, fun p hout _ => hout.resolve_left id⟩
    rw [hr.isClient] at hclient
    have hpx : p ≠ x := by
      rintro rfl
      rw [isClient_of_isServer hx.isServer] at hclient
      cases hclient
    obtain ⟨-, -, -, hdead, hclosing⟩ := hmarks₂ p ((hlive₂ p).mp hp) hpx
    rw [hdead, hclosing]
    exact hx.flags p ((hlive₂ p).mp hp) hbelow hclient
  have hservList : ∀ dest ∈ s₂.servList, dest ∈ s.servList ∧ dest ∈ s.globalClientList ∧
      dest ≠ x := by
    intro dest hdest
    obtain ⟨hmem, hnot⟩ := (hr.servList.mem dest).mp hdest
    exact ⟨hmem, ((h.servList dest).mp hmem).1, fun heq => hnot (.inr heq)⟩
  have hlinks : ∀ dest ∈ s₂.servList, Link s₂ dest := by
    intro dest hdest
    obtain ⟨hmem, hlive, hdx⟩ := hservList dest hdest
    obtain ⟨hne, hown, hmarked⟩ := h.link hmem (hcalm dest hlive hdx)
    obtain ⟨-, -, hio, hdead, hclosing⟩ := hmarks₂ dest hlive hdx
    refine ⟨hne, (hr.fromLink dest).trans hown, ?_⟩
    rw [hio, hdead, hclosing]
    exact hmarked
  obtain ⟨s₃, s₄, hrun, htold, hs₃, hr₄, hs₄⟩ :=
    hs₂.removeDependents hx₂ hlinks client_p (localComment s₂ x source comment) (splitComment s₂ x)
  have hexit : Netsplit.exitLocalServer n s client_p x source comment =
      some (Netsplit.forgetServer s₄ x) := by
    rw [Netsplit.exitLocalServer, hlists, hdelete, hrun]
    rfl
  have hr₃ := Removed.of_same hs₂ htold.same
  have hr' := (hr.trans hr₃).trans hr₄.toRemoved
  have hx₄ : x ∈ s₄.globalClientList := by
    refine (hr'.globalClientList.mem x).mpr ⟨hx.mem, ?_⟩
    simp [Behind]
  have hr₅ := hs₄.forgetServer hx₄ ((hr'.isServer x).trans hx.isServer)
  generalize Netsplit.forgetServer s₄ x = s₅ at hexit hr₅
  have hremoved : Removed s (t.Below x) (t.Below x) s₅ := by
    refine (hr'.trans hr₅.toRemoved).congr h (fun p _ => ?_) fun p _ _ => ?_
    · simp [behind_or]
    · simp only [false_or, or_comm, ← behind_or]
  have hkept : ∀ p ∈ s.globalClientList, ¬t.Below x p →
      s₅.killed p = s.killed p ∧ s₅.closing p = s₃.closing p ∧ s₅.dead p = s₃.dead p := by
    intro p hp hbelow
    have hpx : p ≠ x := fun heq => hbelow (heq ▸ .refl)
    have hp₃ := ((hr.trans hr₃).globalClientList.mem p).mpr ⟨hp, by simp⟩
    have hbehind : ¬Behind t x p := fun hb => hbelow hb.1
    obtain ⟨hk₄, hc₄, hd₄⟩ := hr₄.flags p hp₃ hbehind
    obtain ⟨hk₅, hc₅, hd₅⟩ := hr₅.flags p ((hr₄.globalClientList.mem p).mpr ⟨hp₃, hbehind⟩) hpx
    have hk₃ : s₃.killed p = s₂.killed p := by rw [htold.same]
    exact ⟨(hk₅.trans (hk₄.trans hk₃)).trans (hmarks₂ p hp hpx).1, hc₅.trans hc₄, hd₅.trans hd₄⟩
  have hio : s₅.ioError = s₃.ioError := hr₅.links.1.trans hr₄.links.1
  have hsent : s₅.sent = s₃.sent := hr₅.links.2.trans hr₄.links.2
  have hcap : s₂.capQS = s.capQS := hr.params.1
  have hfrom₂ : s₂.fromLink x = x := (hr.fromLink x).trans hlocal
  have hlast : ∀ dest ∈ s₅.servList, dest ∈ s₂.servList := by
    intro dest hdest
    obtain ⟨hmem, hbelow⟩ := (hremoved.servList.mem dest).mp hdest
    refine (hr.servList.mem dest).mpr ⟨hmem, ?_⟩
    rintro (hfalse | rfl)
    · exact hfalse
    · exact hbelow .refl
  refine ⟨s₅, hexit, ⟨hremoved, fun dest hdest hnot => ?_, fun dest hdest hknows => ?_,
    fun p hp hbelow => ?_, fun p hp hbelow hlink => ?_, fun dest hdest => ?_⟩,
      h.split hxme hremoved⟩
  · obtain ⟨-, hlive, hdx⟩ := hservList dest (hlast dest hdest)
    obtain ⟨-, hsent₂, -⟩ := hmarks₂ dest hlive hdx
    rw [hio, hsent, ← hsent₂]
    refine (htold.told dest (hlast dest hdest) fun hskip => hnot ?_).imp_right
        fun ⟨lines, hlines, hmakes⟩ =>
      ⟨lines, hlines, ?_⟩
    · obtain heq | ⟨hcp, hqs⟩ := hskip
      · exact absurd (heq.trans hfrom₂) hdx
      · exact ⟨hcp, .inl (hcap ▸ hqs)⟩
    · rw [hcap] at hmakes
      exact (hmakes.mono (by simp +contextual)).of_removed
        ((hr.congr h (fun p _ => by simp) fun _ _ _ => Iff.rfl))
  · obtain ⟨-, hlive, hdx⟩ := hservList dest (hlast dest hdest)
    obtain ⟨-, hsent₂, -⟩ := hmarks₂ dest hlive hdx
    obtain ⟨hcp, hor⟩ := hknows
    have hqs : s₂.capQS dest = true := by
      rw [hcap]
      exact hor.resolve_right fun heq => hdx (heq.trans hlocal)
    rw [hsent, (htold.other dest (.inr (.inr ⟨hcp, hqs⟩))).1, hsent₂]
  · exact (hkept p hp hbelow).1
  · have hpx : p ≠ x := fun heq => hbelow (heq ▸ .refl)
    obtain ⟨-, hclosing, hdead⟩ := hkept p hp hbelow
    obtain ⟨-, hio₃, hdead₃, hclosing₃⟩ :=
      htold.other p (.inl fun hmem => hlink (hservList p hmem).1)
    obtain ⟨-, -, hio₂, hdead₂, hclosing₂⟩ := hmarks₂ p hp hpx
    rw [hdead, hclosing, hio, hdead₃, hclosing₃, hio₃]
    exact ⟨hdead₂, hclosing₂, hio₂⟩
  · obtain ⟨hmem, hbelow⟩ := (hremoved.servList.mem dest).mp hdest
    obtain ⟨-, hclosing, hdead⟩ := hkept dest ((h.servList dest).mp hmem).1 hbelow
    rw [hdead, hclosing, hio]
    exact htold.marked dest (hlast dest hdest)

end Marks

end Ratbox.Netsplit
