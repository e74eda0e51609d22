import Ratbox.Netsplit.Splitting

/-!
# Clients that come

Servers link and introduce others, users come, and they join channels and leave. The tables, the
lists and the channels stay those of a tree of servers with their users.

Source: as for `Ratbox.Netsplit.Basic`.

## Main definitions

* `Netsplit.Good`: what holds in every state.

## Main results

* `Netsplit.Inv.added`: a client comes.
* `Netsplit.Good.serverEstab`, `Netsplit.Good.msSid`, `Netsplit.Good.registerClient`,
  `Netsplit.Good.registerLocalUser`, `Netsplit.Good.channel`: the steps keep what holds.
-/

namespace Ratbox.Netsplit

open Text Hash Uplinks List Option Function State
open Channel (Kind World Linked Populated)
open Services (HashType me)

/-- The tables, the lists and the channels are those of a tree, and the marks are in order. -/
def Good (s : State) : Prop := ∃ t, Inv t (fun _ => False) s ∧ ∀ p ∈ s.globalClientList, Calm s p

/-! ### Clients that come -/

/-- The fields of a client that comes. -/
def fieldOf (c : Channel.Client) : HashType → Str
  | .client => c.name
  | .id => c.id
  | .hostname => c.host

/-- The client `p` was added on the server `k`. -/
structure Added (s : State) (p k : ℕ) (c : Channel.Client) (s' : State) : Prop where
  globalClientList : s'.globalClientList = s.globalClientList ++ [p]
  world : s'.world = { s.world with client := update s.world.client p c }
  servptr : s'.servptr = update s.servptr p (some k)
  allocated : s'.allocated = update s.allocated p true
  deadList : s'.deadList = s.deadList
  table : ∀ type, s'.table type = Hash.hashAdd type.hf (s.table type) (fieldOf c type) p
  users : ∀ q, s'.users q = if c.kind.isClient = true ∧ q = k then p :: s.users q else s.users q
  servers : ∀ q, s'.servers q = if c.kind = .server ∧ q = k then p :: s.servers q else s.servers q
  servList : s'.servList = if c.kind = .server ∧ k = me then p :: s.servList else s.servList
  globalServList : s'.globalServList = if c.kind = .server then s.globalServList ++ [p]
    else s.globalServList
  marks : ∀ q, q ≠ p → s'.killed q = s.killed q ∧ s'.closing q = s.closing q ∧
    s'.dead q = s.dead q ∧ s'.ioError q = s.ioError q
  fresh : s'.killed p = false ∧ s'.closing p = false ∧ s'.dead p = false

/-- A client that may be added on a server. -/
structure Fits (s : State) (p k : ℕ) (c : Channel.Client) : Prop where
  allocated : s.allocated p = false
  mem : k ∈ s.globalClientList
  server : (s.world.client k).kind = .server
  kind : c.kind = .server ∨ c.kind = if k = me then .localUser else .remoteUser
  host : c.kind = .server → c.host = []
  fromLink : c.fromLink = if k = me then p else s.fromLink k
  channel : c.channel = .empty

section Added

variable {t : Uplinks ℕ} {s s' : State} {p k q : ℕ} {c : Channel.Client}

theorem Inv.not_mem (h : Inv t (fun _ => False) s) (hp : s.allocated p = false) :
    p ∉ s.globalClientList := fun hmem =>
  absurd ((h.allocated p hmem).symm.trans hp) (by simp)

/-- No one is on a client that is not there. -/
theorem Inv.lists_nil (h : Inv t (fun _ => False) s) (hp : p ∉ s.globalClientList) :
    s.users p = [] ∧ s.servers p = [] := by
  have hnone : ∀ q ∈ s.globalClientList, q ≠ me → s.servptr q ≠ some p := by
    intro q hq hne heq
    obtain ⟨k, hk, hservptr, -⟩ := h.parent q hq hne
    cases hservptr.symm.trans heq
    exact hp hk
  constructor
  · refine eq_nil_iff_forall_not_mem.mpr fun q hq => ?_
    obtain ⟨hq, hclient, hservptr⟩ := (h.users p q).mp hq
    exact hnone q hq (h.ne_me hclient) hservptr
  · refine eq_nil_iff_forall_not_mem.mpr fun q hq => ?_
    obtain ⟨hq, hserver, hservptr, -⟩ := (h.servers p q).mp hq
    exact hnone q hq (ne_me_of_isServer hserver) hservptr

theorem Added.client_of_ne (h : Added s p k c s') (hq : q ≠ p) :
    s'.world.client q = s.world.client q := by
  rw [h.world]
  exact update_of_ne hq ..

theorem Added.client_self (h : Added s p k c s') : s'.world.client p = c := by
  rw [h.world]
  exact update_self ..

/-- The tree with a client added. -/
def grow (t : Uplinks ℕ) (h : Inv t (fun _ => False) s) (hp : p ∉ s.globalClientList)
    (hk : k ∈ s.globalClientList) :
    Uplinks ℕ where
  up q := if q = p then some k else if q ∈ s.globalClientList then t.up q else none
  depth q := if q = p then t.depth k + 1 else t.depth q
  depth_up x y hup := by
    have hkp : k ≠ p := fun heq => hp (heq ▸ hk)
    by_cases hx : x = p
    · rw [if_pos hx] at hup
      cases hup
      rw [if_pos hx, if_neg hkp]
    · rw [if_neg hx] at hup
      split_ifs at hup with hmem
      have hyp : y ≠ p := by
        rintro rfl
        exact hp (h.up_eq_some hmem hup).2.2.1
      rw [if_neg hx, if_neg hyp]
      exact t.depth_up x y hup

/-- **A client comes.** -/
theorem Inv.added (h : Inv t (fun _ => False) s) (hfits : Fits s p k c) (ha : Added s p k c s') :
    ∃ t', Inv t' (fun _ => False) s' := by
  have hp := h.not_mem hfits.allocated
  have hkp : k ≠ p := fun heq => hp (heq ▸ hfits.mem)
  have hmep : me ≠ p := fun heq => hp (heq ▸ h.me_mem)
  have hold : ∀ {q}, q ∈ s.globalClientList → q ≠ p := fun hq heq => hp (heq ▸ hq)
  have hlive : ∀ q, q ∈ s'.globalClientList ↔ q ∈ s.globalClientList ∨ q = p := fun q => by
    rw [ha.globalClientList, mem_append, mem_singleton]
  have hisClient : ∀ q, q ≠ p → s'.isClient q = s.isClient q := fun q hq => by
    rw [isClient, ha.client_of_ne hq, isClient]
  have hisServer : ∀ q, q ≠ p → s'.isServer q = s.isServer q := fun q hq => by
    rw [isServer, ha.client_of_ne hq, isServer]
  have hself : s'.isClient p = c.kind.isClient ∧ (s'.isServer p = true ↔ c.kind = .server) := by
    rw [isClient, isServer, ha.client_self, decide_eq_true_iff]
    exact ⟨rfl, and_iff_left hmep.symm⟩
  have hservptr : ∀ q, q ≠ p → s'.servptr q = s.servptr q := fun q hq => by
    rw [ha.servptr, update_of_ne hq]
  have hservptr_self : s'.servptr p = some k := by rw [ha.servptr, update_self]
  have hmem : ∀ m ms, s.world.mem m = some ms → ms.client_p ≠ p :=
    fun m ms hms => hold (h.members m ms hms).1
  refine ⟨grow t h hp hfits.mem, ⟨?_, (hlive me).mpr (.inl h.me_mem),
    (congrArg _ (ha.client_of_ne hmep)).trans h.kind_me,
    fun q hq => ?_, fun q hq => ?_, fun q hq => ?_, fun q hq hne => ?_, fun q hq => ?_,
      fun type => ?_, fun j => ?_,
    fun j q => ?_, fun j => ?_, fun j q => ?_, ?_, fun q => ?_, ?_, fun q => ?_, ?_, ?_,
      fun m ms hms => ?_⟩⟩
  · rw [ha.globalClientList]
    exact nodup_append_comm.mp (nodup_cons.mpr ⟨hp, h.nodup⟩)
  · rw [ha.allocated, update_apply]
    split_ifs with hqp
    · rfl
    · exact h.allocated q (((hlive q).mp hq).resolve_right hqp)
  · rw [ha.deadList] at hq
    obtain ⟨hallocated, hnot⟩ := h.deadList q hq
    have hqp : q ≠ p := by
      rintro rfl
      cases hallocated.symm.trans hfits.allocated
    rw [ha.allocated, update_of_ne hqp, hlive]
    exact ⟨hallocated, not_or.mpr ⟨hnot, hqp⟩⟩
  · obtain hq | rfl := (hlive q).mp hq
    · rw [State.up, hservptr q (hold hq)]
      exact (if_neg (hold hq)).trans ((if_pos hq).trans (h.up q hq))
    · rw [State.up, if_neg hmep.symm, hservptr_self]
      exact if_pos rfl
  · obtain hq | rfl := (hlive q).mp hq
    · obtain ⟨j, hj, hup, hkind, hfrom⟩ := h.parent q hq hne
      refine ⟨j, (hlive j).mpr (.inl hj), (hservptr q (hold hq)).trans hup, ?_, ?_⟩
      · rw [ha.client_of_ne (hold hj), hkind]
      · rw [State.fromLink, State.fromLink, ha.client_of_ne (hold hq), ha.client_of_ne (hold hj)]
        exact hfrom
    · refine ⟨k, (hlive k).mpr (.inl hfits.mem), hservptr_self, ?_, ?_⟩
      · rw [ha.client_of_ne hkp, hfits.server]
      · rw [State.fromLink, State.fromLink, ha.client_self, ha.client_of_ne hkp]
        exact hfits.fromLink
  · obtain hq | rfl := (hlive q).mp hq
    · rw [ha.client_of_ne (hold hq), hservptr q (hold hq)]
      exact h.kind q hq
    · rw [ha.client_self, hservptr_self]
      simpa using hfits.kind
  · have hfield : ∀ q, q ≠ p → s'.field q type = s.field q type := fun q hq => by
      cases type with
      | client => rw [field, field, name, name, ha.client_of_ne hq]
      | id => rw [State.field, State.field, State.id, State.id, ha.client_of_ne hq]
      | hostname => rw [field, field, host, host, ha.client_of_ne hq]
    have hnew : s'.field p type = fieldOf c type := by
      cases type with
      | client => rw [field, name, ha.client_self, fieldOf]
      | id => rw [State.field, State.id, ha.client_self, fieldOf]
      | hostname => rw [field, host, ha.client_self, fieldOf]
    have hkey : s'.key type = update (s.key type) p (Nick.key (fieldOf c type)) := by
      funext q
      by_cases hqp : q = p
      · rw [hqp, update_self, key]
        split_ifs with hon
        · rw [hnew]
        · -- only servers, which have no host, are in a table but for their hosts
          rw [not_and, Classical.not_imp] at hon
          obtain ⟨rfl, hnot⟩ := hon ((hlive p).mpr (.inr rfl))
          have hserver : c.kind = .server := by
            refine hfits.kind.resolve_right fun hkind => hnot ?_
            rw [hself.1, hkind]
            split_ifs <;> rfl
          rw [fieldOf, hfits.host hserver]
          rfl
      · rw [update_of_ne hqp, key, key, hisClient q hqp, hfield q hqp]
        simp [hlive, hqp]
    have hnone : s.key type p = none := if_neg fun hkey => hp hkey.1
    rw [hkey, ha.table]
    exact (h.placed type).add type.hashlen hnone _
  · rw [ha.users]
    split_ifs
    · exact nodup_cons.mpr ⟨fun hmem => hp ((h.users j p).mp hmem).1, h.users_nodup j⟩
    · exact h.users_nodup j
  · have hcons : q ∈ s'.users j ↔ q ∈ s.users j ∨ (q = p ∧ c.kind.isClient = true ∧ j = k) := by
      rw [ha.users]
      split_ifs with hadd
      · simp [hadd, or_comm]
      · simp [hadd]
    rw [hcons, h.users, hlive]
    by_cases hqp : q = p
    · subst hqp
      simp [hp, hself, hservptr_self, @eq_comm _ j k]
    · simp [hqp, hisClient q hqp, hservptr q hqp]
  · rw [ha.servers]
    split_ifs
    · exact nodup_cons.mpr ⟨fun hmem => hp ((h.servers j p).mp hmem).1, h.servers_nodup j⟩
    · exact h.servers_nodup j
  · have hcons : q ∈ s'.servers j ↔ q ∈ s.servers j ∨ (q = p ∧ c.kind = .server ∧ j = k) := by
      rw [ha.servers]
      split_ifs with hadd
      · simp [hadd, or_comm]
      · simp [hadd]
    rw [hcons, h.servers, hlive]
    by_cases hqp : q = p
    · subst hqp
      simp [hp, hself, hservptr_self, @eq_comm _ j k]
    · simp [hqp, hisServer q hqp, hservptr q hqp]
  · rw [ha.servList]
    split_ifs
    · exact nodup_cons.mpr ⟨fun hmem => hp ((h.servList p).mp hmem).1, h.servList_nodup⟩
    · exact h.servList_nodup
  · have hcons : q ∈ s'.servList ↔ q ∈ s.servList ∨ (q = p ∧ c.kind = .server ∧ k = me) := by
      rw [ha.servList]
      split_ifs with hadd
      · simp [hadd, or_comm]
      · simp [hadd]
    rw [hcons, h.servList, hlive]
    by_cases hqp : q = p
    · subst hqp
      simp [hp, hself, hservptr_self]
    · simp [hqp, hisServer q hqp, hservptr q hqp]
  · rw [ha.globalServList]
    split_ifs
    · exact nodup_append_comm.mp
        (nodup_cons.mpr ⟨fun hmem => hp ((h.globalServList p).mp hmem).1, h.globalServList_nodup⟩)
    · exact h.globalServList_nodup
  · have hcons : q ∈ s'.globalServList ↔ q ∈ s.globalServList ∨ (q = p ∧ c.kind = .server) := by
      rw [ha.globalServList]
      split_ifs with hadd
      · simp [hadd]
      · simp [hadd]
    rw [hcons, h.globalServList, hlive]
    by_cases hqp : q = p
    · subst hqp
      simp [hp, ha.client_self]
    · simp [hqp, ha.client_of_ne hqp]
  · rw [ha.world]
    exact h.linked.setClient hmem hfits.channel
  · rw [ha.world]
    exact h.populated
  · rw [ha.world] at hms
    obtain ⟨hq, hclient⟩ := h.members m ms hms
    exact ⟨(hlive _).mpr (.inl hq), (hisClient _ (hold hq)).trans hclient⟩

theorem Calm.of_eq (h : Calm s p) (hkind : (s'.world.client p).kind = (s.world.client p).kind)
    (hmarks : s'.killed p = s.killed p ∧ s'.closing p = s.closing p ∧ s'.dead p = s.dead p ∧
      s'.ioError p = s.ioError p) :
    Calm s' p := by
  obtain ⟨hkilled, hclosing, hdead, hio⟩ := hmarks
  refine ⟨fun hremote => ?_, fun hserver => ?_, ?_⟩
  · rw [hdead, hclosing]
    exact h.remote (hkind.symm.trans hremote)
  · rw [isServer, hkind] at hserver
    rw [hkilled]
    exact h.server hserver
  · rw [hdead, hclosing, hio]
    exact h.marked

theorem Good.added (h : Good s) (hfits : Fits s p k c) (ha : Added s p k c s') : Good s' := by
  obtain ⟨t, h, hcalm⟩ := h
  obtain ⟨t', h'⟩ := h.added hfits ha
  refine ⟨t', h', fun q hq => ?_⟩
  by_cases hqp : q = p
  · subst hqp
    obtain ⟨hkilled, hclosing, hdead⟩ := ha.fresh
    exact ⟨fun _ => ⟨hdead, hclosing⟩, fun _ => hkilled, fun hmarked => by simp [hdead,
      hclosing] at hmarked⟩
  · rw [ha.globalClientList, mem_append, mem_singleton, or_iff_left hqp] at hq
    exact (hcalm q hq).of_eq (congrArg _ (ha.client_of_ne hqp)) (ha.marks q hqp)

/-- A client without an id is not added to `HASH_ID`. -/
theorem hashAdd_of_id (s : State) (id : Str) (p : ℕ) :
    (if id ≠ [] then s.hashAdd .id id p else s) = s.hashAdd .id id p := by
  split_ifs with hid
  · rfl
  · rw [not_not] at hid
    rw [State.hashAdd, hid, Hash.hashAdd, if_pos rfl, update_eq_self]

/-- The marks of a client that is allocated. -/
theorem malloc_marks (s : State) (p : ℕ) :
    (∀ q, q ≠ p → update s.killed p false q = s.killed q ∧ update s.closing p false q =
      s.closing q ∧ update s.dead p false q = s.dead q ∧ update s.ioError p false q = s.ioError q) ∧
    update s.killed p false p = false ∧ update s.closing p false p = false ∧
      update s.dead p false p = false := by
  refine ⟨fun q hq => ?_, ?_⟩
  · exact ⟨update_of_ne hq .., update_of_ne hq .., update_of_ne hq .., update_of_ne hq ..⟩
  · exact ⟨update_self .., update_self .., update_self ..⟩

/-- `make_server`, of a server that no one is on. -/
theorem update_nil {f : ℕ → List ℕ} (h : f p = []) : update f p [] = f := by
  rw [← h, update_eq_self]

theorem update_cons (f : ℕ → List ℕ) (k p q : ℕ) :
    update f k (p :: f k) q = if q = k then p :: f q else f q := by
  by_cases hq : q = k
  · rw [hq, update_self, if_pos rfl]
  · rw [update_of_ne hq, if_neg hq]

/-- A server links. -/
theorem Good.serverEstab (hgood : Good s) {name id : Str} {qs ts6 : Bool}
    (hs' : serverEstab s p name id qs ts6 = some s') : Good s' := by
  obtain ⟨t, h, hcalm⟩ := hgood
  simp only [Netsplit.serverEstab, hashAdd_of_id, ite_none_left_eq_some, some.injEq,
    Bool.not_eq_true] at hs'
  obtain ⟨hp, rfl⟩ := hs'
  obtain ⟨husers, hservers⟩ := h.lists_nil (h.not_mem hp)
  have hmep : p ≠ me := fun heq => h.not_mem hp (heq ▸ h.me_mem)
  refine Good.added (k := me) (c := ⟨.server, name, id, [], [], p, .empty⟩) ⟨t, h, hcalm⟩
    ⟨hp, h.me_mem, h.kind_me, .inl rfl, fun _ => rfl, (if_pos rfl).symm, rfl⟩
    ⟨rfl, rfl, rfl, rfl, rfl, fun type => ?_, fun q => ?_, fun q => ?_, rfl, rfl,
      (malloc_marks s p).1, (malloc_marks s p).2⟩
  · cases type with
    | client => rfl
    | id => rfl
    | hostname => rfl
  · exact congrFun (update_nil husers) q
  · have hnil : update s.servers me (p :: s.servers me) p = [] :=
      (update_of_ne hmep ..).trans hservers
    exact (congrFun (update_nil hnil) q).trans ((update_cons s.servers me p q).trans (by simp))

/-- A server introduces another one. -/
theorem Good.msSid (hgood : Good s) {name id : Str} (hs' : msSid s p k name id = some s') :
    Good s' := by
  obtain ⟨t, h, hcalm⟩ := hgood
  simp only [Netsplit.msSid, hashAdd_of_id, ite_none_left_eq_some, some.injEq, not_or,
    Bool.not_eq_true, not_not] at hs'
  obtain ⟨⟨hp, hk, hkme⟩, rfl⟩ := hs'
  obtain ⟨hk, hkind, -⟩ := (h.globalServList k).mp hk
  obtain ⟨husers, hservers⟩ := h.lists_nil (h.not_mem hp)
  refine Good.added (k := k) (c := ⟨.server, name, id, [], [], s.fromLink k, .empty⟩) ⟨t, h, hcalm⟩
    ⟨hp, hk, hkind, .inl rfl, fun _ => rfl, (if_neg hkme).symm, rfl⟩
    ⟨rfl, rfl, rfl, rfl, rfl, fun type => ?_, fun q => ?_, fun q => ?_, ?_, rfl,
      (malloc_marks s p).1, (malloc_marks s p).2⟩
  · cases type with
    | client => rfl
    | id => rfl
    | hostname => rfl
  · exact congrFun (update_nil husers) q
  · refine Eq.trans ?_ ((update_cons s.servers k p q).trans (by simp))
    exact congrFun (congrArg (fun f : ℕ → List ℕ => update f k (p :: f k)) (update_nil hservers)) q
  · exact (if_neg fun hme => hkme hme.2).symm

/-- A server introduces a user. -/
theorem Good.registerClient (hgood : Good s) {nick host uid : Str}
    (hs' : registerClient s p k nick host uid = some s') :
    Good s' := by
  obtain ⟨t, h, hcalm⟩ := hgood
  simp only [Netsplit.registerClient, hashAdd_of_id, ite_none_left_eq_some, some.injEq, not_or,
    Bool.not_eq_true, not_not] at hs'
  obtain ⟨⟨hp, hk, hkme⟩, rfl⟩ := hs'
  obtain ⟨hk, hkind, -⟩ := (h.globalServList k).mp hk
  refine Good.added (k := k) (c := ⟨.remoteUser, nick, uid, [], host, s.fromLink k, .empty⟩)
    ⟨t, h, hcalm⟩ ⟨hp, hk, hkind, .inr (if_neg hkme).symm, nofun, (if_neg hkme).symm, rfl⟩
    ⟨rfl, rfl, rfl, rfl, rfl, fun type => ?_, fun q => ?_, fun q => rfl, rfl, rfl,
      (malloc_marks s p).1, (malloc_marks s p).2⟩
  · cases type with
    | client => rfl
    | id => rfl
    | hostname => rfl
  · exact (update_cons s.users k p q).trans (by simp [Kind.isClient])

/-- A connection becomes a user. -/
theorem Good.registerLocalUser (hgood : Good s) {nick host uid : Str}
    (hs' : registerLocalUser s p nick host uid = some s') : Good s' := by
  obtain ⟨t, h, hcalm⟩ := hgood
  simp only [Netsplit.registerLocalUser, hashAdd_of_id, ite_none_left_eq_some, some.injEq,
    Bool.not_eq_true] at hs'
  obtain ⟨hp, rfl⟩ := hs'
  refine Good.added (k := me) (c := ⟨.localUser, nick, uid, [], host, p, .empty⟩) ⟨t, h, hcalm⟩
    ⟨hp, h.me_mem, h.kind_me, .inr (if_pos rfl).symm, nofun, (if_pos rfl).symm, rfl⟩
    ⟨rfl, rfl, rfl, rfl, rfl, fun type => ?_, fun q => ?_, fun q => rfl, rfl, rfl,
      (malloc_marks s p).1, (malloc_marks s p).2⟩
  · cases type with
    | client => rfl
    | id => rfl
    | hostname => rfl
  · exact (update_cons s.users me p q).trans (by simp [Kind.isClient])

end Added

/-! ### Channels and nicks -/

section World

variable {t : Uplinks ℕ} {s : State} {p : ℕ} {world : World}

/-- The channels and the tables change, and the clients stay what they are and where they are. -/
theorem Inv.setWorld (h : Inv t (fun _ => False) s) {table : HashType → Table}
    (hkind : ∀ q, (world.client q).kind = (s.world.client q).kind)
    (hfrom : ∀ q, (world.client q).fromLink = (s.world.client q).fromLink) (hlinked : Linked world)
    (hpopulated : Populated world)
    (hmembers : ∀ m ms, world.mem m = some ms → ms.client_p ∈ s.globalClientList ∧
      s.isClient ms.client_p = true)
    (hplaced : ∀ type, Placed type.hf (table type)
      (({ s with world := world, table := table } : State).key type)) :
    Inv t (fun _ => False) { s with world := world, table := table } := by
  have hisClient : ∀ q, ({ s with world := world, table := table } : State).isClient q =
      s.isClient q := fun q =>
    congrArg Kind.isClient (hkind q)
  have hisServer : ∀ q, ({ s with world := world, table := table } : State).isServer q =
      s.isServer q := fun q => by
    rw [isServer, isServer, hkind]
  refine ⟨h.nodup, h.me_mem, (hkind me).trans h.kind_me, h.allocated, h.deadList, h.up,
    fun q hq hne => ?_, fun q hq => ?_,
    hplaced, h.users_nodup, fun k q => ?_, h.servers_nodup, fun k q => ?_, h.servList_nodup,
      fun q => ?_,
    h.globalServList_nodup, fun q => ?_, hlinked, hpopulated, fun m ms hms => ?_⟩
  · obtain ⟨k, hk, hservptr, hserver, hlink⟩ := h.parent q hq hne
    refine ⟨k, hk, hservptr, (hkind k).trans hserver, ?_⟩
    rw [State.fromLink, State.fromLink, hfrom, hfrom]
    exact hlink
  · rw [hkind]
    exact h.kind q hq
  · rw [hisClient]
    exact h.users k q
  · rw [hisServer]
    exact h.servers k q
  · rw [hisServer]
    exact h.servList q
  · rw [hkind]
    exact h.globalServList q
  · rw [hisClient]
    exact hmembers m ms hms

/-- A client joins or leaves a channel, or is opped or deopped. -/
theorem Good.channel (hgood : Good s) {op : Channel.Op} (hop : op.client ∈ s.globalClientList)
    (hstep : Channel.step s.world op = some world) : Good { s with world := world } := by
  obtain ⟨t, h, hcalm⟩ := hgood
  have hfake := h.ne_fakeUser hop
  have hok : Channel.LeavesLists s.world op := by
    cases op with
    | join chname now c flags => trivial
    | part chptr c => exact fun hkind => absurd hkind hfake
    | quit c => exact fun hkind => absurd hkind hfake
    | chmOp chptr c add => trivial
  obtain ⟨hlinked, hpopulated⟩ := h.linked.step h.populated hok hstep
  have hclient := h.linked.client_step h.populated hfake hstep
  have hkind : ∀ q, (world.client q).kind = (s.world.client q).kind := fun q => by rw [hclient q]
  refine ⟨t, h.setWorld hkind (fun q => by rw [hclient q]) hlinked hpopulated (fun m ms hms => ?_)
    fun type => ?_, fun q hq => (hcalm q hq).of_eq (hkind q) ⟨rfl, rfl, rfl, rfl⟩⟩
  · obtain ⟨m₀, ms₀, hms₀, heq⟩ | ⟨heq, hc⟩ := h.linked.mem_step h.populated hfake hstep hms
    · exact heq ▸ h.members m₀ ms₀ hms₀
    · exact heq ▸ ⟨hop, hc⟩
  · have hfield : ∀ q, ({ s with world := world } : State).field q type = s.field q type :=
        fun q => by
      cases type with
      | client => rw [field, field, name, name, hclient q]
      | id => rw [State.field, State.field, State.id, State.id, hclient q]
      | hostname => rw [field, field, host, host, hclient q]
    have hkey : ({ s with world := world } : State).key type = s.key type := by
      funext q
      rw [key, key, hfield, isClient, hkind, isClient]
    exact hkey ▸ h.placed type

theorem field_setName (s : State) (p q : ℕ) (nick : Str) (type : HashType) :
    (s.setName p nick).field q type = if q = p ∧ type = .client then nick else s.field q type := by
  by_cases hq : q = p
  · subst hq
    cases type with
    | client => simp [field, name]
    | id => simp [State.field, State.id]
    | hostname => simp [field, host]
  · rw [if_neg fun h => hq h.1]
    cases type with
    | client => simp [field, name, update_of_ne hq]
    | id => simp [State.field, State.id, update_of_ne hq]
    | hostname => simp [field, host, update_of_ne hq]

theorem kind_setName (s : State) (p q : ℕ) (nick : Str) :
    ((s.setName p nick).world.client q).kind = (s.world.client q).kind ∧
      ((s.setName p nick).world.client q).fromLink = (s.world.client q).fromLink := by
  rw [setName_world_client]
  by_cases hq : q = p
  · rw [hq, update_self]
    exact ⟨rfl, rfl⟩
  · rw [update_of_ne hq]
    exact ⟨rfl, rfl⟩

/-- The keys of a client that has another name. -/
theorem key_setName (hp : p ∈ s.globalClientList) (nick : Str) (type : HashType) :
    (s.setName p nick).key type =
      if type = .client then update (s.key type) p (Nick.key nick) else s.key type := by
  funext q
  have hisClient : (s.setName p nick).isClient q = s.isClient q :=
    congrArg Kind.isClient (kind_setName s p q nick).1
  rw [key, field_setName, hisClient, setName_globalClientList]
  by_cases htype : type = .client
  · by_cases hq : q = p
    · simp [htype, hq, hp]
    · simp [htype, hq, key]
  · simp [htype, key]

/-- A client gets another name. -/
theorem Good.renameClient (hgood : Good s) (hp : p ∈ s.globalClientList) (nick : Str) :
    Good (renameClient s p nick) := by
  obtain ⟨t, h, hcalm⟩ := hgood
  have hkind : ∀ q, ((s.setName p nick).world.client q).kind = (s.world.client q).kind :=
    fun q => (kind_setName s p q nick).1
  refine ⟨t, h.setWorld hkind (fun q => (kind_setName s p q nick).2) (h.linked.setName p nick)
    h.populated h.members fun type => ?_, fun q hq => (hcalm q hq).of_eq (hkind q) ⟨rfl, rfl, rfl,
      rfl⟩⟩
  suffices hplaced : Placed type.hf ((Netsplit.renameClient s p nick).table type)
    ((s.setName p nick).key type) from hplaced
  rw [key_setName hp, Netsplit.renameClient, hashAdd_table, setName_table, hashDel_table]
  by_cases htype : type = .client
  · subst htype
    have hdel := (h.placed .client).del (p := p) (k := s.name p) fun k hk => by
      rw [key, if_pos ⟨hp, fun htype => HashType.noConfusion htype⟩] at hk
      obtain ⟨hname, hne⟩ := Nick.key_eq_some.mp hk
      exact ⟨hname.symm, hne⟩
    have hadd := hdel.add HashType.client.hashlen (update_self ..) nick
    rw [update_idem] at hadd
    rw [if_pos rfl, update_self, update_self]
    exact hadd
  · rw [if_neg htype, update_of_ne htype, update_of_ne htype]
    exact h.placed type

end World

end Ratbox.Netsplit
