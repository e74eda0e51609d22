import Ratbox.Services.Basic

/-!
# Services that are forgotten

What refers to a service when it is destroyed: it is in the tables `HASH_ID` and `HASH_CLIENT` under
its id and its name, in `HASH_HOSTNAME` under its host, and on `global_client_list`. It is on no
list of users, although one is told to delete it when it exits.

Source: `src/services.c`, lines 487–560, and `src/hash.c`, lines 404–480.

## Main definitions

* `Services.Inv`: the tables and the lists are those of the clients that have not exited.
* `Services.Forgotten`: nothing refers to a client, and all else is as before.
* `Services.Meets`: the condition on a step.

## Main results

* `Services.Inv.step`: the steps keep the invariant.
* `Services.forgets`: when a service that is destroyed is forgotten.
* `Services.destroyFakeClient_hostname`: the hostname of a service still leads to it.
-/

namespace Ratbox.Services

open Text Hash Dlink List Option Function Client

/-- The field of a client for a table. -/
def Client.field (c : Client) : HashType → Str
  | .client => c.name
  | .id => c.id
  | .hostname => c.host

/-- A client of this kind is entered in the table. -/
def Client.entered (c : Client) : HashType → Bool
  | .client => true
  | .id => c.status ≠ .unknown
  | .hostname => c.status ≠ .unknown ∧ c.status ≠ .me ∧ c.status ≠ .server

/-- The key under which a client is in a table. -/
def Client.key (c : Client) (type : HashType) : Option Str :=
  if c.closing = false ∧ c.entered type = true then Nick.key (c.field type) else none

theorem Client.key_eq_some {c : Client} {type : HashType} {k : Str} (h : c.key type = some k) :
    k = c.field type ∧ c.field type ≠ [] := by
  rw [key] at h
  split_ifs at h
  obtain ⟨rfl, hne⟩ := Nick.key_eq_some.mp h
  exact ⟨rfl, hne⟩

/-- The server whose list of users a client is on. -/
def Client.server (c : Client) : Option ℕ :=
  if c.closing then none
  else match c.status with
    | .myClient => some me
    | .remote => some c.servptr
    | _ => none

/-- The keys of the clients. -/
def State.key (s : State) (type : HashType) : ℕ → Option Str :=
  (fun o : Option Client => o.bind (·.key type)) ∘ s.client

/-- The servers of the clients. -/
def State.server (s : State) :
    ℕ → Option ℕ := (fun o : Option Client => o.bind Client.server) ∘ s.client

/-- The nodes of `global_client_list`: `me` is on it, all on it have not exited, and who is not on
it has no links. -/
structure Listed (client : ℕ → Option Client) (node : Heap ℕ) (l : DList ℕ) (xs : List ℕ) :
    Prop where
  isList : IsList node l xs
  me_mem : me ∈ xs
  live : ∀ q ∈ xs, ∃ c, client q = some c ∧ c.closing = false
  others : ∀ q c, client q = some c → q ∉ xs → node q = ⟨none, none⟩

/-- The tables and the lists are those of the clients. -/
structure Inv (s : State) : Prop where
  placed : ∀ type, Placed type.hf (s.table type) (s.key type)
  listed : ∃ xs, Listed s.client s.node s.globalClientList xs ∧
    ∀ q c, s.client q = some c → c.status = .fake → c.closing = false → q ∈ xs
  coherent : Coherent s.lnode s.users s.server
  unlinked : ∀ q c, s.client q = some c → c.server = none → s.lnode q = ⟨none, none⟩
  self : ∃ c, s.client me = some c ∧ c.status = .me

/-- Nothing refers to the client any more, and all else is as before. -/
structure Forgotten (s : State) (p : ℕ) (s' : State) : Prop where
  client : s'.client = update s.client p none
  table : ∀ type i, (s'.table type).bucket i = ((s.table type).bucket i).filter fun n => n.data ≠ p
  list : ∀ xs, IsList s.node s.globalClientList xs →
    IsList s'.node s'.globalClientList (xs.filter (· ≠ p))
  users : s'.users = s.users ∧ s'.lnode = s.lnode
  ends : ∀ k, (s'.users k).head ≠ some p ∧ (s'.users k).tail ≠ some p
  links : ∀ q c, s'.client q = some c → (s'.lnode q).next ≠ some p ∧ (s'.lnode q).prev ≠ some p

section Lists

variable {s s' : State} {p : ℕ} {c : Client} {xs : List ℕ} {o : Option Client}

theorem State.key_update (h : s'.client = update s.client p o) (type : HashType) :
    s'.key type = update (s.key type) p (o.bind (·.key type)) := by
  rw [State.key, h, comp_update]
  rfl

theorem State.server_update (h : s'.client = update s.client p o) :
    s'.server = update s.server p (o.bind Client.server) := by
  rw [State.server, h, comp_update]
  rfl

theorem key_of_client (hc : s.client p = some c) (type : HashType) : s.key type p = c.key type := by
  rw [State.key, comp_apply, hc, bind_some]

theorem server_of_client (hc : s.client p = some c) : s.server p = c.server := by
  rw [State.server, comp_apply, hc, bind_some]

end Lists

/-! ### The list of clients -/

namespace Listed

variable {client : ℕ → Option Client} {node : Heap ℕ} {l : DList ℕ} {xs : List ℕ} {p : ℕ}
  {c : Client}

section

variable (h : Listed client node l xs)
include h

/-- Who is on the list has a link, as `me` is on it too. -/
theorem mem_iff (hne : me ≠ p) (hc : client p = some c) : p ∈ xs ↔ node p ≠ ⟨none, none⟩ := by
  constructor
  · intro hp hnull
    obtain ⟨a, b, rfl⟩ := append_of_mem hp
    obtain ⟨-, ⟨hnode, -⟩⟩ := (chain_append ..).mp h.isList.chain
    obtain ⟨hprev, hnext⟩ := Node.mk.inj (hnode.symm.trans hnull)
    have ha : a = [] := by simpa using hprev
    have hb : b = [] := by simpa using hnext
    have hme := h.me_mem
    simp [ha, hb, hne] at hme
  · intro hnode
    by_contra hp
    exact hnode (h.others p c hc hp)

theorem not_mem (hp : ∀ c, client p = some c → c.closing = true) : p ∉ xs := fun hmem => by
  obtain ⟨c, hc, hlive⟩ := h.live p hmem
  cases hlive.symm.trans (hp c hc)

/-- A client is put on the list. -/
theorem append (hp : p ∉ xs) (hlive : c.closing = false) :
    Listed (update client p (some c)) (Dlink.addTail (update node p ⟨none, none⟩) p l).1
      (Dlink.addTail (update node p ⟨none, none⟩) p l).2 (xs ++ [p]) := by
  have hisList : IsList (update node p ⟨none, none⟩) l xs :=
    h.isList.congr fun x hx => update_of_ne (ne_of_mem_of_not_mem hx hp) ..
  refine ⟨hisList.addTail hp, mem_append_left _ h.me_mem, fun q hq => ?_, fun q c' hc' hq => ?_⟩
  · by_cases hqp : q = p
    · exact ⟨c, by rw [hqp, update_self], hlive⟩
    · rw [update_of_ne hqp]
      exact h.live q ((mem_append.mp hq).resolve_right (by simpa using hqp))
  · rw [mem_append, mem_singleton, not_or] at hq
    rw [update_of_ne hq.2] at hc'
    rw [addTail_frame hisList.tail hq.2 hq.1, update_of_ne hq.2]
    exact h.others q c' hc' hq.1

/-- Who is not on the list changes. -/
theorem set (hp : p ∉ xs) (o : Option Client) :
    Listed (update client p o) (update node p ⟨none, none⟩) l xs := by
  refine ⟨h.isList.congr fun x hx => update_of_ne (ne_of_mem_of_not_mem hx hp) .., h.me_mem,
    fun q hq => ?_, fun q c' hc' hq => ?_⟩
  · rw [update_of_ne (ne_of_mem_of_not_mem hq hp)]
    exact h.live q hq
  · by_cases hqp : q = p
    · rw [hqp, update_self]
    · rw [update_of_ne hqp] at hc' ⊢
      exact h.others q c' hc' hq

/-- Who is on the list changes, and does not exit. -/
theorem congr (hc : client p = some c) {c' : Client} (hlive : c'.closing = c.closing) :
    Listed (update client p (some c')) node l xs := by
  refine ⟨h.isList, h.me_mem, fun q hq => ?_, fun q d hd hq => ?_⟩
  · obtain ⟨d, hd, hdlive⟩ := h.live q hq
    by_cases hqp : q = p
    · subst hqp
      cases hc.symm.trans hd
      exact ⟨c', update_self .., hlive.trans hdlive⟩
    · exact ⟨d, by rw [update_of_ne hqp, hd], hdlive⟩
  · by_cases hqp : q = p
    · subst hqp
      exact h.others q c hc hq
    · rw [update_of_ne hqp] at hd
      exact h.others q d hd hq

/-- A client is taken off the list. -/
theorem delete (hne : me ≠ p) (hp : p ∈ xs) (o : Option Client) :
    Listed (update client p o) (Dlink.delete node p l).1 (Dlink.delete node p l).2
    (xs.filter (· ≠ p)) := by
  have hnd := h.isList.nodup
  obtain ⟨a, b, rfl⟩ := append_of_mem hp
  obtain ⟨hpab, -⟩ := nodup_cons.mp ((perm_middle.nodup_iff).mp hnd)
  have hfilter : (a ++ p :: b).filter (· ≠ p) = a ++ b := by
    rw [filter_append, filter_cons_of_neg (by simp), ← filter_append, filter_eq_self]
    exact fun q hq => decide_eq_true (ne_of_mem_of_not_mem hq hpab)
  rw [hfilter]
  refine ⟨h.isList.delete, ?_, fun q hq => ?_, fun q c' hc' hq => ?_⟩
  · exact (mem_cons.mp (perm_middle.mem_iff.mp h.me_mem)).resolve_left hne
  · rw [update_of_ne (ne_of_mem_of_not_mem hq hpab)]
    exact h.live q (perm_middle.mem_iff.mpr (mem_cons_of_mem p hq))
  · by_cases hqp : q = p
    · rw [hqp, delete_self]
    · have hout : q ∉ a ++ p :: b :=
        fun hmem => hq ((mem_cons.mp (perm_middle.mem_iff.mp hmem)).resolve_left hqp)
      rw [h.isList.delete_frame hout]
      rw [update_of_ne hqp] at hc'
      exact h.others q c' hc' hout

end

end Listed

/-! ### The invariant -/

section Inv

variable {s s' : State} {p : ℕ} {c : Client} {xs xs' : List ℕ} {type : HashType}

/-- A client changes, and with it the tables and lists. -/
theorem Inv.change (h : Inv s) (hne : me ≠ p) {o : Option Client}
    (hclient : s'.client = update s.client p o)
    (hplaced : ∀ type, Placed type.hf (s'.table type) (update (s.key type) p (o.bind (·.key type))))
    (hfakes : ∀ q c, s.client q = some c → c.status = .fake → c.closing = false → q ∈ xs)
    (hlisted : Listed (update s.client p o) s'.node s'.globalClientList xs')
    (hkept : ∀ q ∈ xs, q ≠ p → q ∈ xs')
    (hown : ∀ c, o = some c → c.status = .fake → c.closing = false → p ∈ xs')
    (hcoherent : Coherent s'.lnode s'.users (update s.server p (o.bind server)))
    (hframe : ∀ q, q ≠ p → s.server q = none → s'.lnode q = s.lnode q)
    (hnull : o.bind server = none → s'.lnode p = ⟨none, none⟩) : Inv s' := by
  have hold : ∀ {q}, q ≠ p → s'.client q = s.client q := fun hq => by rw [hclient, update_of_ne hq]
  refine ⟨fun type => ?_, ⟨xs', hclient ▸ hlisted, fun q c hc hfake hlive => ?_⟩, ?_,
    fun q c hc hserver => ?_, ?_⟩
  · rw [State.key_update hclient]
    exact hplaced type
  · by_cases hq : q = p
    · subst hq
      exact hown c (by rw [← hc, hclient, update_self]) hfake hlive
    · rw [hold hq] at hc
      exact hkept q (hfakes q c hc hfake hlive) hq
  · rw [State.server_update hclient]
    exact hcoherent
  · by_cases hq : q = p
    · subst hq
      refine hnull ?_
      rw [hclient, update_self] at hc
      rw [hc, bind_some, hserver]
    · rw [hold hq] at hc
      rw [hframe q hq ((server_of_client hc).trans hserver)]
      exact h.unlinked q c hc hserver
  · obtain ⟨c, hc, hstatus⟩ := h.self
    exact ⟨c, (hold hne).trans hc, hstatus⟩

/-- A client is deleted from a table. -/
theorem Inv.placed_del (h : Inv s) (hc : s.client p = some c) (type : HashType) :
    Placed type.hf (Hash.hashDel type.hf (s.table type) (c.field type) p)
    (update (s.key type) p none) :=
  (h.placed type).del fun _ hk' => key_eq_some ((key_of_client hc type).symm.trans hk')

/-- A client that has no key in a table. -/
theorem Inv.placed_none (h : Inv s) (hkey : s.key type p = none) :
    Placed type.hf (s.table type) (update (s.key type) p none) := by
  rw [← hkey, update_eq_self]
  exact h.placed type

/-- A client that has no key in a table gets one. -/
theorem Inv.placed_add (h : Inv s) (hkey : s.key type p = none) (k : Str) :
    Placed type.hf (Hash.hashAdd type.hf (s.table type) k p) (update (s.key type) p (Nick.key k)) :=
  (h.placed type).add type.hashlen hkey k

theorem key_of_none (hp : s.client p = none) (type : HashType) : s.key type p = none := by
  rw [State.key, comp_apply, hp, bind_none]

theorem server_of_none (hp : s.client p = none) : s.server p = none := by
  rw [State.server, comp_apply, hp, bind_none]

section

variable (h : Inv s)
include h

theorem Inv.me_ne (hp : ∀ c, s.client p = some c → c.status ≠ .me) : me ≠ p := by
  rintro rfl
  obtain ⟨c, hc, hstatus⟩ := h.self
  exact hp c hc hstatus

theorem Inv.me_ne_of_client (hc : s.client p = some c) (hstatus : c.status ≠ .me) : me ≠ p :=
  h.me_ne fun _ hc' => some.inj (hc.symm.trans hc') ▸ hstatus

/-- The users, when a client that was and is on no list changes. -/
theorem Inv.coherent_off (hp : s.server p = none) :
    Coherent (update s.lnode p ⟨none, none⟩) s.users (update s.server p none) := by
  rw [← hp, update_eq_self]
  refine h.coherent.congr fun q hq => update_of_ne ?_ ..
  rintro rfl
  exact hq hp

/-- **A service is entered.** -/
theorem Inv.enterFakeClient {name host uid : Str}
    (hs' : enterFakeClient s p name host uid = some s') :
    Inv s' := by
  rw [Services.enterFakeClient] at hs'
  split_ifs at hs' with hp
  replace hp : s.client p = none := by simpa using hp
  cases hs'
  obtain ⟨xs, hlisted, hfakes⟩ := h.listed
  have hout : p ∉ xs := hlisted.not_mem fun c hc => absurd (hp.symm.trans hc) (by simp)
  refine h.change (h.me_ne fun c hc => absurd (hp.symm.trans hc) (by simp)) rfl (fun type => ?_)
    hfakes (hlisted.append hout rfl) (fun q hq _ => mem_append_left _ hq) (fun _ _ _ _ => by simp)
    (h.coherent_off (server_of_none hp)) (fun q hq _ => update_of_ne hq ..)
      (fun _ => update_self ..)
  cases type with
  | client => exact h.placed_add (key_of_none hp _) _
  | id => exact h.placed_add (key_of_none hp _) _
  | hostname => exact h.placed_add (key_of_none hp _) _

/-- A user of another server is introduced. -/
theorem Inv.registerClient {server : ℕ} {nick host uid : Str}
    (hs' : registerClient s p server nick host uid = some s') : Inv s' := by
  obtain ⟨srv, -, hs'⟩ := bind_eq_some_iff.mp hs'
  split_ifs at hs' with hcond
  obtain ⟨-, hp⟩ := hcond
  cases hs'
  obtain ⟨xs, hlisted, hfakes⟩ := h.listed
  have hout : p ∉ xs := hlisted.not_mem fun c hc => absurd (hp.symm.trans hc) (by simp)
  have hoff := h.coherent_off (server_of_none hp)
  refine h.change (h.me_ne fun c hc => absurd (hp.symm.trans hc) (by simp)) rfl (fun type => ?_)
    hfakes (hlisted.append hout rfl) (fun q hq _ => mem_append_left _ hq) (fun _ _ _ _ => by simp)
      ?_
    (fun q hq hq' => ?_) (fun hnone => absurd hnone (by simp [Client.server]))
  · cases type with
    | client => exact h.placed_add (key_of_none hp _) _
    | id => exact h.placed_add (key_of_none hp _) _
    | hostname => exact h.placed_add (key_of_none hp _) _
  · have hadd := hoff.add (update_self ..) server
    rw [update_idem] at hadd
    exact hadd
  · exact (hoff.add_frame (update_self ..) ((update_of_ne hq ..).trans hq') hq server).trans
      (update_of_ne hq ..)

/-- A connection is accepted. -/
theorem Inv.makeClient {host : Str} (hs' : makeClient s p host = some s') : Inv s' := by
  rw [Services.makeClient] at hs'
  split_ifs at hs' with hp
  replace hp : s.client p = none := by simpa using hp
  cases hs'
  obtain ⟨xs, hlisted, hfakes⟩ := h.listed
  have hout : p ∉ xs := hlisted.not_mem fun c hc => absurd (hp.symm.trans hc) (by simp)
  refine h.change (h.me_ne fun c hc => absurd (hp.symm.trans hc) (by simp)) rfl (fun type => ?_)
    hfakes (hlisted.set hout _) (fun q hq _ => hq) (fun c hc hfake => ?_)
    (h.coherent_off (server_of_none hp)) (fun q hq _ => update_of_ne hq ..)
      (fun _ => update_self ..)
  · cases type with
    | client => exact h.placed_none (key_of_none hp _)
    | id => exact h.placed_none (key_of_none hp _)
    | hostname => exact h.placed_none (key_of_none hp _)
  · cases hc
    cases hfake

/-- A server is introduced. -/
theorem Inv.introduceServer {name id : Str} (hs' : introduceServer s p name id = some s') :
    Inv s' := by
  rw [Services.introduceServer] at hs'
  split_ifs at hs' with hp
  replace hp : s.client p = none := by simpa using hp
  cases hs'
  obtain ⟨xs, hlisted, hfakes⟩ := h.listed
  have hout : p ∉ xs := hlisted.not_mem fun c hc => absurd (hp.symm.trans hc) (by simp)
  have hoff := h.coherent_off (server_of_none hp)
  refine h.change (h.me_ne fun c hc => absurd (hp.symm.trans hc) (by simp)) rfl (fun type => ?_)
    hfakes (hlisted.append hout rfl) (fun q hq _ => mem_append_left _ hq) (fun _ _ _ _ => by simp)
    ⟨hoff.next, hoff.prev, fun k x hx => ?_, fun k x hx => ?_⟩ (fun q hq _ => update_of_ne hq ..)
    (fun _ => update_self ..)
  · cases type with
    | client => exact h.placed_add (key_of_none hp _) _
    | id => exact h.placed_add (key_of_none hp _) _
    | hostname => exact h.placed_none (key_of_none hp _)
  · dsimp only at hx
    rw [update_apply] at hx
    split_ifs at hx
    · exact absurd hx (by simp [DList.empty])
    · exact hoff.head k x hx
  · dsimp only at hx
    rw [update_apply] at hx
    split_ifs at hx
    · exact absurd hx (by simp [DList.empty])
    · exact hoff.tail k x hx

/-- A connection is put on the list of clients. -/
theorem Inv.releaseAuthClient (hs' : releaseAuthClient s p = some s') : Inv s' := by
  obtain ⟨c, hc, hs'⟩ := bind_eq_some_iff.mp hs'
  split_ifs at hs' with hcond
  obtain ⟨hstatus, hlive, hnode⟩ := hcond
  cases hs'
  obtain ⟨xs, hlisted, hfakes⟩ := h.listed
  have hne : me ≠ p := h.me_ne_of_client hc (by simp [hstatus])
  have hout : p ∉ xs := fun hmem => (hlisted.mem_iff hne hc).mp hmem hnode
  have happend := hlisted.append hout hlive
  rw [← hnode, update_eq_self, ← hc, update_eq_self] at happend
  exact ⟨h.placed, ⟨xs ++ [p], happend, fun q c hc hfake hlive => mem_append_left _
    (hfakes q c hc hfake hlive)⟩, h.coherent, h.unlinked, h.self⟩

/-- A client gets a nick. -/
theorem Inv.setNick {nick : Str} (hs' : setNick s p nick = some s') : Inv s' := by
  obtain ⟨c, hc, hs'⟩ := Option.bind_eq_some_iff.mp hs'
  split_ifs at hs' with hcond
  obtain ⟨hstatus, hlive⟩ := hcond
  cases hs'
  obtain ⟨xs, hlisted, hfakes⟩ := h.listed
  have hne : me ≠ p := h.me_ne_of_client hc fun hme => by simp [hme] at hstatus
  refine h.change (p := p) (o := some { c with name := nick }) hne rfl (fun type => ?_) hfakes
    (hlisted.congr hc rfl)
    (fun q hq _ => hq) (fun d hd hfake hlive => ?_) ?_ (fun _ _ _ => rfl)
      (fun hnone => h.unlinked p c hc hnone)
  · cases type with
    | client =>
      have hadd := (h.placed_del hc .client).add HashType.client.hashlen (Function.update_self ..)
        nick
      rw [Function.update_idem] at hadd
      rw [Option.bind_some, key, if_pos ⟨hlive, rfl⟩]
      exact hadd
    | id =>
      have hkey : (Option.bind (some { c with name := nick }) fun d : Client => d.key .id) =
        s.key .id p :=
        (key_of_client hc .id).symm
      rw [hkey, Function.update_eq_self]
      exact h.placed .id
    | hostname =>
      have hkey : (Option.bind (some { c with name := nick }) fun d : Client => d.key .hostname) =
        s.key .hostname p :=
        (key_of_client hc .hostname).symm
      rw [hkey, Function.update_eq_self]
      exact h.placed .hostname
  · cases hd
    exact hfakes p c hc hfake hlive
  · have hserver : Option.bind (some { c with name := nick }) server = s.server p :=
      (server_of_client hc).symm
    rw [hserver, Function.update_eq_self]
    exact h.coherent

/-- A connection is registered. -/
theorem Inv.registerLocalUser {host uid : Str}
    (hs' : registerLocalUser s p host uid = some s') : Inv s' := by
  obtain ⟨c, hc, hs'⟩ := Option.bind_eq_some_iff.mp hs'
  split_ifs at hs' with hcond
  obtain ⟨hstatus, hlive⟩ := hcond
  cases hs'
  obtain ⟨xs, hlisted, hfakes⟩ := h.listed
  have hne : me ≠ p := h.me_ne_of_client hc (by simp [hstatus])
  have hkey : ∀ type, type ≠ .client → s.key type p = none := by
    intro type htype
    rw [key_of_client hc, key, if_neg]
    cases type with
    | client => exact absurd rfl htype
    | id => simp [entered, hstatus]
    | hostname => simp [entered, hstatus]
  have hserver : s.server p = none := by
    rw [server_of_client hc]
    simp [server, hstatus]
  let c' : Client :=
    { c with host := host, id := uid, status := .myClient, servptr := Services.me }
  refine h.change (p := p) (o := some c') hne rfl (fun type => ?_) hfakes
    (hlisted.congr hc rfl) (fun q hq _ => hq) (fun d hd hfake => ?_) ?_
    (fun q hq hq' => h.coherent.add_frame hserver hq' hq _) (fun hnone => ?_)
  · cases type with
    | client =>
      have hsame : (Option.bind (some c') fun d : Client => d.key .client) = s.key .client p :=
        (key_of_client hc .client).symm
      rw [hsame, Function.update_eq_self]
      exact h.placed .client
    | id =>
      rw [Option.bind_some, key, if_pos ⟨hlive, rfl⟩]
      exact h.placed_add (hkey .id (by simp)) uid
    | hostname =>
      rw [Option.bind_some, key, if_pos ⟨hlive, rfl⟩]
      exact h.placed_add (hkey .hostname (by simp)) host
  · cases hd
    cases hfake
  · rw [Option.bind_some, server, if_neg (by simp [c', hlive])]
    exact h.coherent.add hserver Services.me
  · rw [Option.bind_some, server, if_neg (by simp [c', hlive])] at hnone
    cases hnone

/-- The clients that have exited are freed. -/
theorem Inv.freeExitedClients : Inv (freeExitedClients s) := by
  have hkey : ∀ type, (Services.freeExitedClients s).key type = s.key type := by
    intro type
    funext q
    rw [State.key, State.key, comp_apply, comp_apply, Services.freeExitedClients]
    cases hc : s.client q with
    | none => simp [hc]
    | some c =>
      cases hclosing : c.closing with
      | true => simp [hc, hclosing, key]
      | false => simp [hc, hclosing, Option.filter]
  have hserver : (Services.freeExitedClients s).server = s.server := by
    funext q
    rw [State.server, State.server, comp_apply, comp_apply, Services.freeExitedClients]
    cases hc : s.client q with
    | none => simp [hc]
    | some c =>
      cases hclosing : c.closing with
      | true => simp [hc, hclosing, Client.server]
      | false => simp [hc, hclosing, Option.filter]
  have hold : ∀ {q c}, (Services.freeExitedClients s).client q = some c → s.client q = some c ∧
      c.closing = false := by
    intro q c hc
    obtain ⟨hc, hlive⟩ := filter_eq_some_iff.mp hc
    exact ⟨hc, by simpa using hlive⟩
  have hnew : ∀ {q c}, s.client q = some c → c.closing = false →
    (Services.freeExitedClients s).client q = some c :=
    fun hc hlive => filter_eq_some_iff.mpr ⟨hc, by simp [hlive]⟩
  obtain ⟨xs, hlisted, hfakes⟩ := h.listed
  refine ⟨fun type => hkey type ▸ h.placed type,
    ⟨xs, ⟨hlisted.isList, hlisted.me_mem, fun q hq => ?_,
    fun q c hc => hlisted.others q c (hold hc).1⟩, fun q c hc => hfakes q c (hold hc).1⟩,
      hserver ▸ h.coherent,
    fun q c hc => h.unlinked q c (hold hc).1, ?_⟩
  · obtain ⟨c, hc, hlive⟩ := hlisted.live q hq
    exact ⟨c, hnew hc hlive, hlive⟩
  · obtain ⟨c, hc, hstatus⟩ := h.self
    obtain ⟨c', hc', hlive⟩ := hlisted.live me hlisted.me_mem
    cases hc.symm.trans hc'
    exact ⟨c, hnew hc hlive, hstatus⟩

end

/-- A client is taken off the list, if it is on it. -/
theorem Listed.removeClientFromList {client : ℕ → Option Client} {s : State}
    (hlisted : Listed client s.node s.globalClientList xs) (hne : me ≠ p) (hc : client p = some c)
    (o : Option Client) :
    ∃ node l, removeClientFromList s p = { s with node := node, globalClientList := l } ∧
      Listed (update client p o) node l (xs.filter (· ≠ p)) := by
  rw [Services.removeClientFromList]
  split_ifs with hnull
  · have hnode : s.node p = ⟨none, none⟩ := congrArg₂ Dlink.Node.mk hnull.1 hnull.2
    have hout : p ∉ xs := fun hmem => (hlisted.mem_iff hne hc).mp hmem hnode
    have hset := hlisted.set hout o
    rw [← hnode, update_eq_self] at hset
    rw [filter_eq_self.mpr fun q hq => decide_eq_true (ne_of_mem_of_not_mem hq hout)]
    exact ⟨s.node, s.globalClientList, rfl, hset⟩
  · have hmem : p ∈ xs := (hlisted.mem_iff hne hc).mpr fun hnode => hnull (by simp [hnode])
    exact ⟨_, _, rfl, hlisted.delete hne hmem o⟩

/-- A client that exits is taken out of the tables and off the list. -/
theorem Inv.exitGenericClient (h : Inv s) (hlisted : Listed s.client s.node s.globalClientList xs)
    (hne : me ≠ p) (hc : s.client p = some c) (o : Option Client) : ∃ table node l,
    exitGenericClient (s.setClient p o) p c =
        { s.setClient p o with table := table, node := node, globalClientList := l } ∧
      (∀ type, Placed type.hf (table type) (update (s.key type) p none)) ∧
      Listed (update s.client p o) node l (xs.filter (· ≠ p)) := by
  have hid : (if c.id ≠ [] then (s.setClient p o).hashDel .id c.id p else s.setClient p o) =
      (s.setClient p o).hashDel .id c.id p := by
    split_ifs with hnil
    · rfl
    · have hdel : Hash.hashDel HashType.id.hf (s.table .id) c.id p = s.table .id :=
        if_pos (not_not.mp hnil)
      rw [State.hashDel, State.setClient_table, hdel, update_eq_self]
      rfl
  rw [Services.exitGenericClient, hid]
  dsimp only
  obtain ⟨node, l, hremove, hlisted'⟩ := Listed.removeClientFromList
    (s := (((s.setClient p o).hashDel .id c.id p).hashDel .hostname c.host p).hashDel .client c.name
      p) hlisted hne hc o
  refine ⟨_, node, l, hremove, fun type => ?_, hlisted'⟩
  cases type with
  | client => exact h.placed_del hc .client
  | id => exact h.placed_del hc .id
  | hostname => exact h.placed_del hc .hostname

/-- **A client exits.** -/
theorem Inv.exitClient (h : Inv s) (hs' : exitClient s p = some s') : Inv s' := by
  obtain ⟨c, hc, hs'⟩ := bind_eq_some_iff.mp hs'
  split_ifs at hs' with hclosing
  · exact some.inj hs' ▸ h
  replace hclosing : c.closing = false := by simpa using hclosing
  obtain ⟨xs, hlisted, hfakes⟩ := h.listed
  have hne : c.status ≠ .me → me ≠ p := h.me_ne_of_client hc
  have hkept : ∀ q ∈ xs, q ≠ p → q ∈ xs.filter (· ≠ p) :=
    fun q hq hqp => mem_filter.mpr ⟨hq, by simpa using hqp⟩
  have hdead : ∀ d, some { c with closing := true } = some d → d.status = .fake →
      d.closing = false → p ∈ xs.filter (· ≠ p) := by
    rintro d hd - hlive
    cases hd
    cases hlive
  have hserver : s.server p = c.server := server_of_client hc
  -- A client that has exited has no keys and is on no list.
  have hkey : ∀ type, (some { c with closing := true }).bind (fun d : Client => d.key type) =
      none := fun type => by
    rw [bind_some, key, if_neg (by simp)]
  have hnone : (some { c with closing := true }).bind server = none := by
    rw [bind_some, server, if_pos rfl]
  dsimp only at hs'
  generalize some { c with closing := true } = o at hs' hdead hkey hnone
  have hdone : ∀ {s₁ : State}, s₁.client = update s.client p o → c.status ≠ .me →
      (∀ type, Placed type.hf (s₁.table type) (update (s.key type) p none)) →
      Listed (update s.client p o) s₁.node s₁.globalClientList (xs.filter (· ≠ p)) →
      Coherent s₁.lnode s₁.users (update s.server p none) →
      (∀ q, q ≠ p → s.server q = none → s₁.lnode q = s.lnode q) → s₁.lnode p = ⟨none, none⟩ →
        Inv s₁ :=
    fun hclient hme hplaced hlisted' hcoherent hframe hnull =>
      h.change (hne hme) hclient (fun type => (hkey type).symm ▸ hplaced type) hfakes hlisted' hkept
        hdead (hnone.symm ▸ hcoherent) hframe fun _ => hnull
  cases hstatus : c.status with
  | me => simp [hstatus] at hs'
  | server => simp [hstatus] at hs'
  | unknown =>
    rw [hstatus] at hs'
    cases hs'
    replace hserver : s.server p = none := by rw [hserver, server, if_neg (by simp [hclosing]),
      hstatus]
    have hnull : s.lnode p = ⟨none, none⟩ :=
      h.unlinked p c hc ((server_of_client hc).symm.trans hserver)
    obtain ⟨node, l, heq, hlisted'⟩ := Listed.removeClientFromList
      (s := ((s.setClient p o).hashDel .hostname c.host p).hashDel .client c.name p) hlisted
        (hne (by simp [hstatus])) hc o
    rw [exitUnknownClient, heq]
    refine hdone rfl (by simp [hstatus]) (fun type => ?_) hlisted' ?_ (fun _ _ _ => rfl) hnull
    · cases type with
      | client => exact h.placed_del hc .client
      | id => exact h.placed_none (by rw [key_of_client hc, key,
        if_neg (by simp [entered, hstatus])])
      | hostname => exact h.placed_del hc .hostname
    · rw [← hserver, update_eq_self]
      exact h.coherent
  | myClient =>
    rw [hstatus] at hs'
    cases hs'
    replace hserver : s.server p = some Services.me := by
      rw [hserver, server, if_neg (by simp [hclosing]), hstatus]
    obtain ⟨table, node, l, heq, hplaced, hlisted'⟩ :=
      h.exitGenericClient hlisted (hne (by simp [hstatus])) hc o
    rw [exitLocalClient, heq]
    exact hdone rfl (by simp [hstatus]) hplaced hlisted' (h.coherent.delete hserver)
      (fun q _ hq => h.coherent.delete_frame hserver hq _) delete_self
  | remote =>
    rw [hstatus] at hs'
    cases hs'
    replace hserver : s.server p = some c.servptr := by
      rw [hserver, server, if_neg (by simp [hclosing]), hstatus]
    obtain ⟨table, node, l, heq, hplaced, hlisted'⟩ :=
      h.exitGenericClient hlisted (hne (by simp [hstatus])) hc o
    rw [exitRemoteClient, heq]
    exact hdone rfl (by simp [hstatus]) hplaced hlisted' (h.coherent.delete hserver)
      (fun q _ hq => h.coherent.delete_frame hserver hq _) delete_self
  | fake =>
    -- A service is on no list of users, but is deleted from one.
    rw [hstatus] at hs'
    cases hs'
    replace hserver : s.server p = none := by rw [hserver, server, if_neg (by simp [hclosing]),
      hstatus]
    have hnull : s.lnode p = ⟨none, none⟩ :=
      h.unlinked p c hc ((server_of_client hc).symm.trans hserver)
    obtain ⟨table, node, l, heq, hplaced, hlisted'⟩ :=
      h.exitGenericClient hlisted (hne (by simp [hstatus])) hc o
    rw [exitRemoteClient, heq]
    refine hdone rfl (by simp [hstatus]) hplaced hlisted' ?_ (fun q hq _ => delete_frame_of_unlinked
      hnull _ hq) delete_self
    rw [← hserver, update_eq_self]
    exact h.coherent.delete_unlinked hnull c.servptr

/-! ### Services that are destroyed -/

/-- What is left of a service that is destroyed. -/
theorem destroyFakeClient_eq (hc : s.client p = some c) (hfake : c.status = .fake) :
    destroyFakeClient s p =
      some ((((s.hashDel .id c.id p).hashDel .client c.name p).delete p).setClient p none) := by
  rw [destroyFakeClient, hc, bind_some, if_neg (by simp [hfake])]

/-- A service is on no list of users. -/
theorem server_of_fake (hc : s.client p = some c) (hfake : c.status = .fake) :
    s.server p = none := by
  rw [server_of_client hc, server, hfake]
  split_ifs
  · rfl
  · rfl

/-- A service without a host is in no table of hostnames. -/
theorem key_hostname_of_nil (hc : s.client p = some c) (hhost : c.host = []) :
    s.key .hostname p = none := by
  rw [key_of_client hc, key, field, hhost]
  split_ifs
  · rfl
  · rfl

/-- **A service without a host is destroyed.** -/
theorem Inv.destroyFakeClient (h : Inv s) (hc : s.client p = some c) (hlive : c.closing = false)
    (hhost : c.host = []) (hs' : destroyFakeClient s p = some s') : Inv s' := by
  have hfake : c.status = .fake := by
    by_contra hstatus
    rw [Services.destroyFakeClient, hc, bind_some, if_pos hstatus] at hs'
    cases hs'
  rw [destroyFakeClient_eq hc hfake] at hs'
  cases hs'
  obtain ⟨xs, hlisted, hfakes⟩ := h.listed
  have hserver := server_of_fake hc hfake
  have hne : me ≠ p := h.me_ne_of_client hc (by simp [hfake])
  refine h.change hne rfl (fun type => ?_) hfakes (hlisted.delete hne (hfakes p c hc hfake hlive)
    none) (fun q hq hqp => mem_filter.mpr ⟨hq, by simpa using hqp⟩) nofun ?_ (fun _ _ _ => rfl)
    (fun _ => h.unlinked p c hc ((server_of_client hc).symm.trans hserver))
  · cases type with
    | client => exact h.placed_del hc .client
    | id => exact h.placed_del hc .id
    | hostname => exact h.placed_none (key_hostname_of_nil hc hhost)
  · rw [bind_none, ← hserver, update_eq_self]
    exact h.coherent

/-- **When a service is forgotten.** -/
theorem Inv.forgotten_iff (h : Inv s) (hc : s.client p = some c) (hfake : c.status = .fake) :
    ∃ s', Services.destroyFakeClient s p = some s' ∧
    (Forgotten s p s' ↔ c.closing = false ∧ c.host = []) := by
  refine ⟨_, destroyFakeClient_eq hc hfake, ?_⟩
  obtain ⟨xs, hlisted, hfakes⟩ := h.listed
  have hserver := server_of_fake hc hfake
  have hne : me ≠ p := h.me_ne_of_client hc (by simp [hfake])
  obtain ⟨hends, hlinks⟩ := h.coherent.not_linked hserver
  constructor
  · intro hforgotten
    have hlive : c.closing = false := by
      -- The list loses all its nodes when a service that has exited is deleted from it.
      by_contra hclosing
      replace hclosing : c.closing = true := by simpa using hclosing
      have hout : p ∉ xs := hlisted.not_mem fun c' hc' => some.inj (hc.symm.trans hc') ▸ hclosing
      have hlist := (hforgotten.list xs hlisted.isList).head
      rw [State.setClient_globalClientList, State.delete_globalClientList] at hlist
      have hdelete : Dlink.delete s.node p s.globalClientList =
        (s.node, ⟨none, none, dec s.globalClientList.length⟩) :=
        delete_unlinked (hlisted.others p c hc hout) _
      have hnil : xs.filter (· ≠ p) = [] :=
        head?_eq_none_iff.mp (hlist.symm.trans (congrArg (fun x => x.2.head) hdelete))
      exact absurd (mem_filter.mpr ⟨hlisted.me_mem, by simpa using hne⟩) (hnil ▸ not_mem_nil)
    refine ⟨hlive, ?_⟩
    -- The node of the table of hostnames is still there.
    by_contra hhost
    have hkey : s.key .hostname p = some c.host := by
      rw [key_of_client hc, key, if_pos ⟨hlive, by simp [entered, hfake]⟩]
      exact Nick.key_eq_some.mpr ⟨rfl, hhost⟩
    obtain ⟨n, hn, hdata⟩ := (h.placed .hostname).complete p c.host hkey
    have htable := hforgotten.table .hostname (HashType.hostname.hf.index c.host)
    have hsame : ((((s.hashDel .id c.id p).hashDel .client c.name p).delete p).setClient p
        none).table .hostname = s.table .hostname := rfl
    rw [hsame] at htable
    rw [htable, mem_filter] at hn
    exact absurd hdata (of_decide_eq_true hn.2)
  · rintro ⟨hlive, hhost⟩
    have hmem := hfakes p c hc hfake hlive
    refine ⟨rfl, fun type i => ?_, fun xs' hxs' => ?_, ⟨rfl, rfl⟩, hends, fun q c' hc' => ?_⟩
    · cases type with
      | client =>
        exact (h.placed .client).bucket_hashDel (fun _ hk => key_eq_some
          ((key_of_client hc _).symm.trans hk)) i
      | id =>
        exact (h.placed .id).bucket_hashDel (fun _ hk => key_eq_some
          ((key_of_client hc _).symm.trans hk)) i
      | hostname =>
        refine (filter_eq_self.mpr fun n hn => decide_eq_true ?_).symm
        exact (h.placed .hostname).not_mem_of_none (key_hostname_of_nil hc hhost) hn
    · obtain rfl : xs' = xs := hxs'.unique hlisted.isList
      exact (hlisted.delete hne hmem none).isList
    · obtain ⟨-, hq⟩ | ⟨hqp, hq⟩ := Nick.update_eq_some.mp hc'
      · cases hq
      · cases hq' : s.server q with
        | none =>
          have hnull := h.unlinked q c' hq ((server_of_client hq).symm.trans hq')
          exact ⟨by simp [hnull], by simp [hnull]⟩
        | some k => exact hlinks q (by simp [hq'])

end Inv

/-! ### All runs -/

/-- A service that is destroyed has not exited, and has no host. -/
def Meets (s : State) : Op → Prop
  | .destroy p => ∀ c, s.client p = some c → c.closing = false ∧ c.host = []
  | _ => True

/-- **Steps** keep the invariant. -/
theorem Inv.step {s s' : State} (h : Inv s) {op : Op} (hmeets : Meets s op)
    (hs' : Services.step s op = some s') :
    Inv s' := by
  cases op with
  | create p name host uid =>
    obtain ⟨s₁, hs₁, hs'⟩ := bind_eq_some_iff.mp hs'
    have h₁ : Inv s₁ := by
      rw [clearName] at hs₁
      cases hfind : findClient s name with
      | none =>
        rw [hfind] at hs₁
        exact some.inj hs₁ ▸ h
      | some q =>
        rw [hfind] at hs₁
        exact h.exitClient hs₁
    exact h₁.enterFakeClient hs'
  | destroy p =>
    obtain ⟨c, hc, -⟩ := bind_eq_some_iff.mp hs'
    obtain ⟨hlive, hhost⟩ := hmeets c hc
    exact h.destroyFakeClient hc hlive hhost hs'
  | accept p host => exact h.makeClient hs'
  | release p => exact h.releaseAuthClient hs'
  | nick p nick => exact h.setNick hs'
  | register p host uid => exact h.registerLocalUser hs'
  | introduce p server nick host uid => exact h.registerClient hs'
  | server p name id => exact h.introduceServer hs'
  | exit p => exact h.exitClient hs'
  | free => exact some.inj hs' ▸ h.freeExitedClients

theorem inv_start (name id : Str) : Inv (start name id) := by
  have hkey : ∀ type, (start name id).key type =
      update (fun _ => none) me (key ⟨name, [], id, .me, me, false⟩ type) := fun type =>
    (comp_update ..).trans rfl
  have hadd : ∀ (type : HashType) (k : Str), Placed type.hf (Hash.hashAdd type.hf Table.empty k me)
      (update (fun _ => none) me (Nick.key k)) := fun type k =>
    (Placed.empty type.hf).add type.hashlen rfl k
  have hclient : ∀ {q c}, (start name id).client q = some c → q = me ∧
      c = ⟨name, [], id, .me, me, false⟩ := by
    intro q c hc
    obtain ⟨rfl, hc⟩ | ⟨-, hc⟩ := Nick.update_eq_some.mp hc
    · exact ⟨rfl, (some.inj hc).symm⟩
    · cases hc
  refine ⟨fun type => ?_, ⟨[me], ⟨?_, by simp, fun q hq => ?_, fun q c hc hq => ?_⟩,
    fun q c hc hfake => ?_⟩, ?_, fun q c hc _ => ?_, ⟨_, rfl, rfl⟩⟩
  · rw [hkey]
    cases type with
    | client => exact hadd .client name
    | id => exact hadd .id id
    | hostname =>
      have hnone : key ⟨name, [], id, .me, me, false⟩ .hostname = none := rfl
      rw [hnone, update_eq_self_iff.mpr rfl]
      exact Placed.empty _
  · exact (isList_empty _).addTail not_mem_nil
  · rw [mem_singleton.mp hq]
    exact ⟨_, rfl, rfl⟩
  · exact absurd (mem_singleton.mpr (hclient hc).1) hq
  · rw [(hclient hc).2] at hfake
    cases hfake
  · have hnone : ∀ q, (start name id).server q = none := by
      intro q
      rw [State.server, comp_apply]
      cases hc : (start name id).client q with
      | none => rfl
      | some c =>
        rw [(hclient hc).2]
        rfl
    exact ⟨fun k x y hx => absurd ((hnone x).symm.trans hx) (by simp),
      fun k x y hx => absurd ((hnone x).symm.trans hx) (by simp), nofun, nofun⟩
  · rw [(hclient hc).1]
    rfl

/-- **When services are forgotten.** In every run in which only services without a host are
destroyed, and none that has exited: who is in a table or on the list of clients has not exited; and
a service that is destroyed is forgotten, with all else as before, exactly when it has not exited
and has no host. -/
theorem forgets {name id : Str} {ops : List Op} {s : State}
    (hops : Run.StepsMeet step Meets (start name id) ops)
    (hrun : Run.run step (start name id) ops = some s) :
    (∀ type i, ∀ n ∈ (s.table type).bucket i, ∃ c, s.client n.data = some c ∧ c.closing = false) ∧
      (∃ xs, IsList s.node s.globalClientList xs ∧ me ∈ xs ∧ ∀ q ∈ xs, ∃ c, s.client q = some c ∧
        c.closing = false) ∧
      ∀ p c, s.client p = some c → c.status = .fake →
        ∃ s', destroyFakeClient s p = some s' ∧
        (Forgotten s p s' ↔ c.closing = false ∧ c.host = []) := by
  have h : Inv s := Run.invariant Inv (fun _ _ _ h hmeets hs' => h.step hmeets hs')
    (inv_start name id) hops hrun
  refine ⟨fun type i n hn => ?_, ?_, fun p c hc hfake => h.forgotten_iff hc hfake⟩
  · obtain ⟨k, hk, -⟩ := (h.placed type).index i n hn
    obtain ⟨c, hc, hkey⟩ := bind_eq_some_iff.mp hk
    rw [key] at hkey
    split_ifs at hkey with hentered
    exact ⟨c, hc, hentered.1⟩
  · obtain ⟨xs, hlisted, -⟩ := h.listed
    exact ⟨xs, hlisted.isList, hlisted.me_mem, hlisted.live⟩

/-- A service without a host is created and destroyed, beside a user. -/
theorem forgets_small : ∃ s, Run.run step (start ['i'] ['0'])
    [.create 1 ['x'] [] ['0', 'A'], .introduce 2 me ['y'] ['h'] ['0', 'B'], .destroy 1] = some s ∧
      ∃ xs, IsList s.node s.globalClientList xs ∧ me ∈ xs := by
  have hops : Run.StepsMeet step Meets (start ['i'] ['0'])
      [.create 1 ['x'] [] ['0', 'A'], .introduce 2 me ['y'] ['h'] ['0', 'B'], .destroy 1] := by
    refine ⟨trivial, fun s hs => ⟨trivial, fun s' hs' => ⟨fun c hc => ?_, fun _ _ => trivial⟩⟩⟩
    cases hs
    cases hs'
    cases hc
    exact ⟨rfl, rfl⟩
  obtain ⟨-, ⟨xs, hxs, hme, -⟩, -⟩ := forgets hops rfl
  exact ⟨_, rfl, xs, hxs, hme⟩

/-- A service with a host is destroyed: its address is freed, and still in the table of
hostnames. -/
theorem destroyFakeClient_hostname :
    ∃ s s', Run.run step (start ['i'] ['0']) [.create 1 ['x'] ['h'] ['0', 'A']] = some s ∧
      destroyFakeClient s 1 = some s' ∧ ¬Forgotten s 1 s' ∧ s'.client 1 = none ∧
      (hashFind HashType.hostname.hf (s'.table .hostname) ['h']).map (·.data) = some 1 := by
  refine ⟨_, _, rfl, rfl, fun hforgotten => ?_, rfl, by decide +kernel⟩
  have htable := hforgotten.table .hostname (HashType.hostname.hf.index ['h'])
  exact absurd (congrArg length htable) (by decide +kernel)

end Ratbox.Services
