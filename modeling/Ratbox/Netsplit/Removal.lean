import Ratbox.Lib.Enumerates
import Ratbox.Lib.Uplinks
import Ratbox.Netsplit.Basic

/-!
# What is removed

A client or server that exits is taken out of the tables and off the lists, and users leave their
channels. When the servers behind it, and their users, went before, nothing on the lists is behind
it any more.

Source: `src/client.c`, lines 630–647, 938–984, 1076–1131 and 1219–1239.

## Main definitions

* `Netsplit.Inv`: the tables, the lists and the channels are those of a tree of servers with their
  users.
* `Netsplit.Removed`: some clients and servers were removed, and all else is as before.
* `Netsplit.Quiet`: and nothing was sent.

## Main results

* `Netsplit.Inv.removed`: what is left is a tree, when no one is left behind who was removed.
* `Netsplit.Inv.recurseRemoveClients`: all that is behind a server is removed.
-/

namespace Ratbox.Netsplit

open Text Hash Uplinks List Option Function State
open Channel (Kind World Linked Populated)
open Services (HashType me)

/-! ### The tree -/

/-- The fields of a client for the tables. -/
def State.field (s : State) (p : ℕ) : HashType → Str
  | .client => s.name p
  | .id => s.id p
  | .hostname => s.host p

/-- The key under which a client is in a table. Servers have no host. -/
def State.key (s : State) (type : HashType) (p : ℕ) : Option Str :=
  if p ∈ s.globalClientList ∧ (type = .hostname → s.isClient p = true) then
    Nick.key (s.field p type) else none

/-- The uplink of a client. -/
def State.up (s : State) (p : ℕ) : Option ℕ := if p = me then none else s.servptr p

/-- The tables and the lists are those of a tree of servers with their users. The servers in `out`
were taken off the lists of servers already. -/
structure Inv (t : Uplinks ℕ) (out : ℕ → Prop) (s : State) : Prop where
  nodup : s.globalClientList.Nodup
  me_mem : me ∈ s.globalClientList
  kind_me : (s.world.client me).kind = .server
  allocated : ∀ p ∈ s.globalClientList, s.allocated p = true
  deadList : ∀ p ∈ s.deadList, s.allocated p = true ∧ p ∉ s.globalClientList
  up : ∀ p ∈ s.globalClientList, t.up p = s.up p
  parent : ∀ p ∈ s.globalClientList, p ≠ me → ∃ k ∈ s.globalClientList, s.servptr p = some k ∧
    (s.world.client k).kind = .server ∧ s.fromLink p = if k = me then p else s.fromLink k
  kind : ∀ p ∈ s.globalClientList, (s.world.client p).kind = .server ∨
    (s.world.client p).kind = if s.servptr p = some me then .localUser else .remoteUser
  placed : ∀ type, Placed type.hf (s.table type) (s.key type)
  users_nodup : ∀ k, (s.users k).Nodup
  users : ∀ k p, p ∈ s.users k ↔ p ∈ s.globalClientList ∧ s.isClient p = true ∧ s.servptr p = some k
  servers_nodup : ∀ k, (s.servers k).Nodup
  servers : ∀ k p, p ∈ s.servers k ↔ p ∈ s.globalClientList ∧ s.isServer p = true ∧
    s.servptr p = some k ∧ ¬out p
  servList_nodup : s.servList.Nodup
  servList : ∀ p, p ∈ s.servList ↔ p ∈ s.globalClientList ∧ s.isServer p = true ∧
    s.servptr p = some me ∧ ¬out p
  globalServList_nodup : s.globalServList.Nodup
  globalServList : ∀ p, p ∈ s.globalServList ↔ p ∈ s.globalClientList ∧ (s.world.client p).kind =
    .server ∧ ¬out p
  linked : Linked s.world
  populated : Populated s.world
  members : ∀ m ms, s.world.mem m = some ms → ms.client_p ∈ s.globalClientList ∧
    s.isClient ms.client_p = true

/-- The clients in `gone` were removed, and the servers in `outs` taken off the lists of servers;
all else is as before. -/
structure Removed (s : State) (gone outs : ℕ → Prop) (s' : State) : Prop where
  globalClientList : Without gone s.globalClientList s'.globalClientList
  users : ∀ k, Without gone (s.users k) (s'.users k)
  servers : ∀ k, Without outs (s.servers k) (s'.servers k)
  servList : Without outs s.servList s'.servList
  globalServList : Without outs s.globalServList s'.globalServList
  table : ∀ type i, Without (fun n => gone n.data) ((s.table type).bucket i)
    ((s'.table type).bucket i)
  mem : ∀ m ms, s'.world.mem m = some ms ↔ s.world.mem m = some ms ∧ ¬gone ms.client_p
  client : ∀ p ∈ s.globalClientList, ¬gone p → s'.world.client p = s.world.client p
  record : ∀ p, s'.world.client p = { s.world.client p with channel := (s'.world.client p).channel }
  deadList : ∀ p ∈ s'.deadList, p ∈ s.deadList ∨ (p ∈ s.globalClientList ∧ gone p)
  linked : Linked s'.world ∧ Populated s'.world
  servptr : s'.servptr = s.servptr
  allocated : s'.allocated = s.allocated
  params : s'.capQS = s.capQS ∧ s'.capTS6 = s.capTS6 ∧ s'.room = s.room

/-- Clients were removed, and nothing was sent. -/
structure Quiet (s : State) (gone outs : ℕ → Prop) (s' : State) : Prop extends Removed s gone outs
    s' where
  flags : ∀ p ∈ s.globalClientList, ¬gone p → s'.killed p = s.killed p ∧
    s'.closing p = s.closing p ∧ s'.dead p = s.dead p
  links : s'.ioError = s.ioError ∧ s'.sent = s.sent

section Removed

variable {t : Uplinks ℕ} {out out' gone gone' outs outs' : ℕ → Prop} {s s' s'' : State} {p k : ℕ}

theorem ne_me_of_isServer (hserver : s.isServer p = true) : p ≠ me := by
  rw [isServer, decide_eq_true_iff] at hserver
  exact hserver.2

theorem kind_of_isServer (hserver : s.isServer p = true) : (s.world.client p).kind = .server := by
  rw [isServer, decide_eq_true_iff] at hserver
  exact hserver.1

theorem isClient_of_isServer (hserver : s.isServer p = true) : s.isClient p = false := by
  rw [isClient, kind_of_isServer hserver]
  rfl

theorem Removed.trans (h : Removed s gone outs s') (h' : Removed s' gone' outs' s'') :
    Removed s (fun p => gone p ∨ gone' p) (fun p => outs p ∨ outs' p) s'' where
  globalClientList := h.globalClientList.trans h'.globalClientList
  users k := (h.users k).trans (h'.users k)
  servers k := (h.servers k).trans (h'.servers k)
  servList := h.servList.trans h'.servList
  globalServList := h.globalServList.trans h'.globalServList
  table type i := (h.table type i).trans (h'.table type i)
  mem m ms := by rw [h'.mem, h.mem, not_or, and_assoc]
  client p hp hg := by
    obtain ⟨hg, hg'⟩ := not_or.mp hg
    rw [h'.client p ((h.globalClientList.mem p).mpr ⟨hp, hg⟩) hg', h.client p hp hg]
  record p := by rw [h'.record p, h.record p]
  deadList p hp := by
    obtain hdead | ⟨hp, hg⟩ := h'.deadList p hp
    · exact (h.deadList p hdead).imp_right fun hp => ⟨hp.1, .inl hp.2⟩
    · exact .inr ⟨((h.globalClientList.mem p).mp hp).1, .inr hg⟩
  linked := h'.linked
  servptr := h'.servptr.trans h.servptr
  allocated := h'.allocated.trans h.allocated
  params := by
    obtain ⟨h₁, h₂, h₃⟩ := h.params
    obtain ⟨h₁', h₂', h₃'⟩ := h'.params
    exact ⟨h₁'.trans h₁, h₂'.trans h₂, h₃'.trans h₃⟩

theorem Quiet.trans (h : Quiet s gone outs s') (h' : Quiet s' gone' outs' s'') :
    Quiet s (fun p => gone p ∨ gone' p) (fun p => outs p ∨ outs' p) s'' where
  toRemoved := h.toRemoved.trans h'.toRemoved
  flags p hp hg := by
    obtain ⟨hg, hg'⟩ := not_or.mp hg
    obtain ⟨hk, hc, hd⟩ := h.flags p hp hg
    obtain ⟨hk', hc', hd'⟩ := h'.flags p ((h.globalClientList.mem p).mpr ⟨hp, hg⟩) hg'
    exact ⟨hk'.trans hk, hc'.trans hc, hd'.trans hd⟩
  links := ⟨h'.links.1.trans h.links.1, h'.links.2.trans h.links.2⟩

theorem Quiet.refl (h : Inv t out s) : Quiet s (fun _ => False) (fun _ => False) s where
  globalClientList := .refl fun _ _ => not_false
  users _ := .refl fun _ _ => not_false
  servers _ := .refl fun _ _ => not_false
  servList := .refl fun _ _ => not_false
  globalServList := .refl fun _ _ => not_false
  table _ _ := .refl fun _ _ => not_false
  mem m ms := by simp
  client _ _ _ := rfl
  record _ := rfl
  params := ⟨rfl, rfl, rfl⟩
  flags _ _ _ := ⟨rfl, rfl, rfl⟩
  deadList _ := .inl
  linked := ⟨h.linked, h.populated⟩
  servptr := rfl
  allocated := rfl
  links := ⟨rfl, rfl⟩

theorem Inv.key_eq_some (h : Inv t out s) {type : HashType} {i : ℕ} {n : Hash.Node}
    (hn : n ∈ (s.table type).bucket i) :
    n.data ∈ s.globalClientList := by
  obtain ⟨k, hk, -⟩ := (h.placed type).index i n hn
  rw [key] at hk
  split_ifs at hk with hkey
  exact hkey.1

/-- Only what is said about clients and servers that are there counts. -/
theorem Removed.congr (h : Removed s gone outs s') (hs : Inv t out s)
    (hgone : ∀ p ∈ s.globalClientList, gone' p ↔ gone p)
    (houts : ∀ p ∈ s.globalClientList, (s.world.client p).kind = .server → (outs' p ↔ outs p)) :
    Removed s gone' outs' s' where
  globalClientList := h.globalClientList.congr hgone
  users k := (h.users k).congr fun p hp => hgone p ((hs.users k p).mp hp).1
  servers k := (h.servers k).congr fun p hp =>
    houts p ((hs.servers k p).mp hp).1 (kind_of_isServer ((hs.servers k p).mp hp).2.1)
  servList := h.servList.congr fun p hp => houts p ((hs.servList p).mp hp).1
    (kind_of_isServer ((hs.servList p).mp hp).2.1)
  globalServList := h.globalServList.congr fun p hp =>
    houts p ((hs.globalServList p).mp hp).1 ((hs.globalServList p).mp hp).2.1
  table type i := (h.table type i).congr fun n hn => hgone n.data (hs.key_eq_some hn)
  mem m ms := by
    rw [h.mem]
    exact and_congr_right fun hms => not_congr (hgone _ (hs.members m ms hms).1).symm
  client p hp hg := h.client p hp fun hg' => hg ((hgone p hp).mpr hg')
  record := h.record
  deadList p hp := (h.deadList p hp).imp_right fun hp => ⟨hp.1, (hgone p hp.1).mpr hp.2⟩
  linked := h.linked
  servptr := h.servptr
  allocated := h.allocated
  params := h.params

theorem Quiet.congr (h : Quiet s gone outs s') (hs : Inv t out s)
    (hgone : ∀ p ∈ s.globalClientList, gone' p ↔ gone p)
    (houts : ∀ p ∈ s.globalClientList, (s.world.client p).kind = .server → (outs' p ↔ outs p)) :
    Quiet s gone' outs' s' where
  toRemoved := h.toRemoved.congr hs hgone houts
  flags p hp hg := h.flags p hp fun hg' => hg ((hgone p hp).mpr hg')
  links := h.links

section

variable (h : Removed s gone outs s')
include h

theorem Removed.kind (p : ℕ) : (s'.world.client p).kind = (s.world.client p).kind := by
  rw [h.record p]

theorem Removed.fromLink (p : ℕ) : s'.fromLink p = s.fromLink p := by
  rw [State.fromLink, h.record p, State.fromLink]

theorem Removed.isClient (p : ℕ) : s'.isClient p = s.isClient p := by
  rw [State.isClient, h.kind p, State.isClient]

theorem Removed.isServer (p : ℕ) : s'.isServer p = s.isServer p := by
  rw [State.isServer, h.kind p, State.isServer]

theorem Removed.field (p : ℕ) (type : HashType) : s'.field p type = s.field p type := by
  cases type with
  | client => rw [State.field, State.field, State.name, State.name, h.record p]
  | id => rw [State.field, State.field, State.id, State.id, h.record p]
  | hostname => rw [State.field, State.field, State.host, State.host, h.record p]

theorem Removed.up (p : ℕ) : s'.up p = s.up p := by
  rw [State.up, State.up, h.servptr]

end

/-- **What is left is a tree**, when those behind a client that was removed were removed too. -/
theorem Inv.removed (h : Inv t out s) (hr : Removed s gone outs s') (hme : ¬gone me)
    (hclosed : ∀ p ∈ s.globalClientList, p ≠ me → ∀ k, s.servptr p = some k → gone k → gone p)
    (houts : ∀ p ∈ s.globalClientList, (s.world.client p).kind = .server → gone p → out p ∨ outs p)
    (hout : ∀ p ∈ s.globalClientList, ¬gone p → (out' p ↔ out p ∨ outs p)) : Inv t out' s' := by
  have hlive : ∀ p, p ∈ s'.globalClientList ↔ p ∈ s.globalClientList ∧ ¬gone p :=
    hr.globalClientList.mem
  -- a server is off the lists of servers if it is gone or out
  have hoff : ∀ p ∈ s.globalClientList, (s.world.client p).kind = .server →
      (¬out p ∧ ¬outs p ↔ ¬gone p ∧ ¬out' p) := by
    intro p hp hkind
    by_cases hg : gone p
    · simpa [hg, imp_iff_not_or, not_or] using houts p hp hkind hg
    · rw [hout p hp hg, not_or]
      simp [hg]
  have hserver : ∀ p, s.isServer p = true → (s.world.client p).kind = .server :=
    fun _ => kind_of_isServer
  refine ⟨hr.globalClientList.nodup h.nodup, (hlive me).mpr ⟨h.me_mem, hme⟩,
    (hr.kind me).trans h.kind_me, fun p hp => ?_,
    fun p hp => ?_, fun p hp => ?_, fun p hp hne => ?_, fun p hp => ?_, fun type => ?_, fun k => ?_,
      fun k p => ?_,
    fun k => ?_, fun k p => ?_, ?_, fun p => ?_, ?_, fun p => ?_, hr.linked.1, hr.linked.2,
      fun m ms hms => ?_⟩
  · rw [hr.allocated]
    exact h.allocated p ((hlive p).mp hp).1
  · rw [hr.allocated, hlive]
    obtain hdead | ⟨hmem, hg⟩ := hr.deadList p hp
    · exact ⟨(h.deadList p hdead).1, fun hp' => (h.deadList p hdead).2 hp'.1⟩
    · exact ⟨h.allocated p hmem, fun hp' => hp'.2 hg⟩
  · rw [hr.up]
    exact h.up p ((hlive p).mp hp).1
  · obtain ⟨hp, hg⟩ := (hlive p).mp hp
    obtain ⟨k, hk, hservptr, hkind, hfrom⟩ := h.parent p hp hne
    refine ⟨k, (hlive k).mpr ⟨hk, fun hgk => hg (hclosed p hp hne k hservptr hgk)⟩, ?_, ?_, ?_⟩
    · rw [hr.servptr, hservptr]
    · rw [hr.kind, hkind]
    · rw [hr.fromLink, hr.fromLink, hfrom]
  · rw [hr.kind, hr.servptr]
    exact h.kind p ((hlive p).mp hp).1
  · have hkey : ∀ p k, s'.key type p = some k ↔ s.key type p = some k ∧ ¬gone p := by
      intro p k
      have hlive := hlive p
      rw [key, key, hr.isClient, hr.field]
      by_cases hg : gone p
      · simp [hg, hlive]
      · simp [hg, hlive]
    have hplaced := h.placed type
    refine ⟨fun i n hn => ?_, fun i => ?_, fun p k hk => ?_⟩
    · obtain ⟨hn, hg⟩ := ((hr.table type i).mem n).mp hn
      obtain ⟨k, hk, hindex⟩ := hplaced.index i n hn
      exact ⟨k, (hkey _ _).mpr ⟨hk, hg⟩, hindex⟩
    · exact (hplaced.nodup i).sublist ((hr.table type i).sublist.map _)
    · obtain ⟨hk, hg⟩ := (hkey p k).mp hk
      obtain ⟨n, hn, rfl⟩ := hplaced.complete p k hk
      exact ⟨n, ((hr.table type _).mem n).mpr ⟨hn, hg⟩, rfl⟩
  · exact (hr.users k).nodup (h.users_nodup k)
  · rw [(hr.users k).mem, h.users, hlive, hr.isClient, hr.servptr]
    tauto
  · exact (hr.servers k).nodup (h.servers_nodup k)
  · rw [(hr.servers k).mem, h.servers, hlive, hr.isServer, hr.servptr]
    have hoff := hoff p
    have hserver := hserver p
    tauto
  · exact hr.servList.nodup h.servList_nodup
  · rw [hr.servList.mem, h.servList, hlive, hr.isServer, hr.servptr]
    have hoff := hoff p
    have hserver := hserver p
    tauto
  · exact hr.globalServList.nodup h.globalServList_nodup
  · rw [hr.globalServList.mem, h.globalServList, hlive, hr.kind]
    have hoff := hoff p
    tauto
  · obtain ⟨hms, hg⟩ := (hr.mem m ms).mp hms
    obtain ⟨hp, hclient⟩ := h.members m ms hms
    exact ⟨(hlive _).mpr ⟨hp, hg⟩, by rw [hr.isClient, hclient]⟩

theorem Quiet.setDead (h : Quiet s gone outs s') (hp : p ∈ s.globalClientList) (hg : gone p) :
    Quiet s gone outs (s'.setDead p) :=
  { h with
    flags := fun q hq hgq => by
      obtain ⟨hk, hc, hd⟩ := h.flags q hq hgq
      have hne : q ≠ p := fun heq => hgq (heq ▸ hg)
      exact ⟨hk, hc, (update_of_ne hne ..).trans hd⟩
    deadList := fun q hq => by
      obtain rfl | hq := mem_cons.mp hq
      · exact .inr ⟨hp, hg⟩
      · exact h.deadList q hq }

end Removed

/-! ### One client or server -/

section One

variable {t : Uplinks ℕ} {out out' : ℕ → Prop} {s : State} {p k : ℕ}

theorem delId_eq (s : State) (p : ℕ) : delId s p = s.hashDel .id (s.id p) p := by
  rw [delId]
  split_ifs with hid
  · rfl
  · rw [not_not] at hid
    rw [State.hashDel, hid, Hash.hashDel, if_pos rfl, update_eq_self]

theorem removeClientFromList_eq (hme : me ∈ s.globalClientList) (hne : p ≠ me) :
    removeClientFromList s p = { s with globalClientList := s.globalClientList.erase p } := by
  rw [removeClientFromList]
  split_ifs with hp
  · obtain hp | hp := hp
    · rw [erase_of_not_mem hp]
    · rw [hp, mem_singleton] at hme
      exact absurd hme.symm hne
  · rfl

section

variable (h : Inv t out s)
include h

theorem Inv.ne_me (hclient : s.isClient p = true) : p ≠ me := by
  rintro rfl
  rw [isClient, h.kind_me] at hclient
  cases hclient

/-- The nodes of a client in a table. -/
theorem Inv.table_hashDel (type : HashType) (i : ℕ) :
    Without (fun n : Hash.Node => n.data = p) ((s.table type).bucket i)
      ((Hash.hashDel type.hf (s.table type) (s.field p type) p).bucket i) := by
  rw [(h.placed type).bucket_hashDel fun k hk => ?_]
  · exact Without.filter fun n _ => by simp
  · rw [key] at hk
    split_ifs at hk
    obtain ⟨rfl, hne⟩ := Nick.key_eq_some.mp hk
    exact ⟨rfl, hne⟩

theorem Inv.ne_fakeUser (hp : p ∈ s.globalClientList) : (s.world.client p).kind ≠ .fakeUser := by
  obtain hkind | hkind := h.kind p hp
  · simp [hkind]
  · rw [hkind]
    split_ifs <;> simp

/-- The channel lists do not change the other fields. -/
theorem Inv.leave (hp : p ∈ s.globalClientList) :
    (∀ m ms, (Channel.removeUserFromChannels s.world p).mem m = some ms ↔ s.world.mem m = some ms ∧
      ms.client_p ≠ p) ∧ (Channel.removeUserFromChannels s.world p).client =
        update s.world.client p { s.world.client p with channel := .empty } ∧
      Linked (Channel.removeUserFromChannels s.world p) ∧
      Populated (Channel.removeUserFromChannels s.world p) := by
  have hfake := h.ne_fakeUser hp
  obtain ⟨hmem, hworld⟩ := h.linked.mem_removeUserFromChannels h.populated hfake
  exact ⟨hmem, hworld, h.linked.removeUserFromChannels h.populated fun heq => absurd heq hfake⟩

/-- **A user is removed.** -/
theorem Inv.exitGenericClient (hp : p ∈ s.globalClientList) (hclient : s.isClient p = true)
    {killed closing : ℕ → Bool} (hkilled : ∀ q, q ≠ p → killed q = s.killed q)
    (hclosing : ∀ q, q ≠ p → closing q = s.closing q) :
    Quiet s (· = p) (fun _ => False)
      ((Netsplit.exitGenericClient { s with killed := killed, closing := closing } p).deleteUser
        p) := by
  obtain ⟨hmem, hworld, hlinked⟩ := h.leave hp
  obtain ⟨k, -, hk, -⟩ := h.parent p hp (h.ne_me hclient)
  have hrecord : ∀ q, (Channel.removeUserFromChannels s.world p).client q =
      { s.world.client q with channel := ((Channel.removeUserFromChannels s.world p).client
          q).channel } := by
    intro q
    rw [hworld]
    by_cases hq : q = p
    · subst hq
      rw [update_self]
    · rw [update_of_ne hq]
  have hexit : (Netsplit.exitGenericClient { s with killed := killed, closing := closing }
      p).deleteUser p = { s with
        world := Channel.removeUserFromChannels s.world p
        killed := killed
        closing := closing
        table := fun type => Hash.hashDel type.hf (s.table type) (s.field p type) p
        globalClientList := s.globalClientList.erase p
        users := update s.users k ((s.users k).erase p) } := by
    rw [Netsplit.exitGenericClient, delId_eq]
    rw [removeClientFromList_eq (by exact h.me_mem) (h.ne_me hclient), State.deleteUser]
    dsimp only [State.hashDel, State.name, State.id, State.host]
    rw [hk, hrecord p]
    dsimp only
    congr 1
    funext type
    cases type <;> rfl
  rw [hexit]
  refine ⟨⟨.erase h.nodup p, fun q => ?_, fun _ => .refl fun _ _ => not_false, .refl fun _ _ =>
    not_false,
    .refl fun _ _ => not_false, fun type i => h.table_hashDel type i, hmem, fun q _ hq => ?_,
      hrecord, fun _ => .inl,
    hlinked, rfl, rfl, ⟨rfl, rfl, rfl⟩⟩, fun q _ hq => ?_, ⟨rfl, rfl⟩⟩
  · dsimp only
    by_cases hq : q = k
    · subst hq
      rw [update_self]
      exact .erase (h.users_nodup _) p
    · rw [update_of_ne hq]
      refine .refl fun a ha => ?_
      rintro rfl
      exact hq (some.inj (((h.users q a).mp ha).2.2.symm.trans hk))
  · dsimp only
    rw [hworld, update_of_ne hq]
  · exact ⟨hkilled q hq, hclosing q hq, rfl⟩

end

theorem deleteServer_eq (hk : s.servptr p = some k) :
    s.deleteServer p = { s with servers := update s.servers k ((s.servers k).erase p) } := by
  rw [deleteServer, hk]

/-- A server is taken off the lists of servers. -/
theorem Inv.offLists (h : Inv t out s) (hk : s.servptr p = some k) {l : List ℕ}
    (hl : l = s.servList.erase p ∨ (l = s.servList ∧ p ∉ s.servList)) :
    Quiet s (fun _ => False) (· = p)
      { s with
        servers := update s.servers k ((s.servers k).erase p)
        globalServList := s.globalServList.erase p
        servList := l } := by
  refine ⟨⟨.refl fun _ _ => not_false, fun _ => .refl fun _ _ => not_false, fun q => ?_, ?_,
    .erase h.globalServList_nodup p,
    fun _ _ => .refl fun _ _ => not_false, fun m ms => by simp, fun _ _ _ => rfl, fun _ => rfl,
      fun _ => .inl,
    ⟨h.linked, h.populated⟩, rfl, rfl, ⟨rfl, rfl, rfl⟩⟩, fun _ _ _ => ⟨rfl, rfl, rfl⟩, ⟨rfl, rfl⟩⟩
  · dsimp only
    by_cases hq : q = k
    · subst hq
      rw [update_self]
      exact .erase (h.servers_nodup _) p
    · rw [update_of_ne hq]
      refine .refl fun a ha => ?_
      rintro rfl
      exact hq (some.inj (((h.servers q a).mp ha).2.2.1.symm.trans hk))
  · obtain rfl | ⟨rfl, hnot⟩ := hl
    · exact .erase h.servList_nodup p
    · exact .refl fun a ha heq => hnot (heq ▸ ha)

/-- A server is taken out of the tables. -/
theorem Inv.forgetServer (h : Inv t out s) (hp : p ∈ s.globalClientList)
    (hserver : s.isServer p = true) :
    Quiet s (· = p) (fun _ => False) (Netsplit.forgetServer s p) := by
  have hclient := isClient_of_isServer hserver
  have hforget : Netsplit.forgetServer s p =
      { s with
        table := fun type => if type = .hostname then s.table type else Hash.hashDel type.hf
          (s.table type) (s.field p type) p
        globalClientList := s.globalClientList.erase p
        dead := update s.dead p true
        deadList := p :: s.deadList } := by
    rw [Netsplit.forgetServer, delId_eq]
    rw [removeClientFromList_eq (by exact h.me_mem) (ne_me_of_isServer hserver)]
    rw [setDead]
    dsimp only [State.hashDel, State.name, State.id]
    congr 1
    funext type
    cases type <;> rfl
  rw [hforget]
  refine ⟨⟨.erase h.nodup p, fun k => .refl ?_, fun _ => .refl fun _ _ => not_false,
    .refl fun _ _ => not_false,
    .refl fun _ _ => not_false, fun type i => ?_, fun m ms => ?_, fun _ _ _ => rfl, fun _ => rfl,
      fun q hq => ?_,
    ⟨h.linked, h.populated⟩, rfl, rfl, ⟨rfl, rfl, rfl⟩⟩, fun q _ hq => ?_, ⟨rfl, rfl⟩⟩
  · rintro a ha rfl
    rw [((h.users k a).mp ha).2.1] at hclient
    cases hclient
  · dsimp only
    split_ifs with htype
    · refine .refl ?_
      rintro n hn rfl
      obtain ⟨key, hkey, -⟩ := (h.placed type).index i n hn
      rw [State.key, if_neg (by simp [htype, hclient])] at hkey
      cases hkey
    · exact h.table_hashDel type i
  · refine (and_iff_left_of_imp ?_).symm
    rintro hms rfl
    rw [(h.members m ms hms).2] at hclient
    cases hclient
  · obtain rfl | hq := mem_cons.mp hq
    · exact .inr ⟨hp, rfl⟩
    · exact .inl hq
  · exact ⟨rfl, rfl, update_of_ne hq ..⟩

end One

/-! ### All that is behind a server -/

section Below

variable {t : Uplinks ℕ} {out : ℕ → Prop} {s s' : State} {p x y k : ℕ}

section

variable (h : Inv t out s)
include h

theorem Inv.up_eq_some (hp : p ∈ s.globalClientList) (hup : t.up p = some k) :
    p ≠ me ∧ s.servptr p = some k ∧ k ∈ s.globalClientList ∧ (s.world.client k).kind = .server := by
  rw [h.up p hp, State.up] at hup
  split_ifs at hup with hne
  obtain ⟨k', hk', hservptr, hkind, -⟩ := h.parent p hp hne
  cases hup.symm.trans hservptr
  exact ⟨hne, hup, hk', hkind⟩

theorem Inv.up_of_servptr (hp : p ∈ s.globalClientList) (hne : p ≠ me) (hk : s.servptr p = some k) :
    t.up p = some k := by
  rw [h.up p hp, State.up, if_neg hne, hk]

/-- What is above a client is there. -/
theorem Inv.mem_of_below (hp : p ∈ s.globalClientList) (hbelow : t.Below x p) :
    x ∈ s.globalClientList := by
  induction hbelow with
  | refl => exact hp
  | down _ hup ih => exact ih (h.up_eq_some hp hup).2.2.1

/-- What is above another client is a server. -/
theorem Inv.kind_of_below (hp : p ∈ s.globalClientList) (hbelow : t.Below x p) (hne : p ≠ x) :
    (s.world.client x).kind = .server := by
  induction hbelow with
  | refl => exact absurd rfl hne
  | @down y z hbelow hup ih =>
    obtain ⟨-, -, hy, hkind⟩ := h.up_eq_some hp hup
    by_cases hyx : y = x
    · rwa [← hyx]
    · exact ih hy hyx

theorem Inv.not_me_of_below (hx : x ≠ me) : ¬t.Below x me := by
  intro hbelow
  obtain heq | ⟨y, hup, -⟩ := below_iff.mp hbelow
  · exact hx heq.symm
  · exact (h.up_eq_some h.me_mem hup).1 rfl

end

theorem killed_exitGenericClient (s : State) (p : ℕ) :
    ((exitGenericClient s p).deleteUser p).killed = s.killed := by
  have hexit : (exitGenericClient s p).killed = s.killed := by
    rw [exitGenericClient, delId_eq, removeClientFromList]
    split_ifs <;> rfl
  rw [deleteUser]
  split
  · exact hexit
  · exact hexit

section

variable (h : Inv t out s)
include h

/-- A client that is removed leaves a tree, when no one is behind it. -/
theorem Inv.removed_one {outs : ℕ → Prop} (hr : Removed s (· = p) outs s') (hne : p ≠ me)
    (houts : ∀ q, outs q → q = p) (hserver : (s.world.client p).kind = .server → out p ∨ outs p)
    (hleaf : ∀ q ∈ s.globalClientList, t.up q ≠ some p) : Inv t out s' := by
  refine h.removed hr hne.symm ?_ ?_ ?_
  · rintro q hq hqme k hk rfl
    exact absurd (h.up_of_servptr hq hqme hk) (hleaf q hq)
  · rintro q - hkind rfl
    exact hserver hkind
  · exact fun q _ hq => (or_iff_left fun ho => hq (houts q ho)).symm

/-- No one is behind a user. -/
theorem Inv.removed_user (hr : Removed s (· = p) (fun _ => False) s')
    (hclient : s.isClient p = true) : Inv t out s' := by
  have hnot : (s.world.client p).kind ≠ .server := by
    intro hkind
    rw [isClient, hkind] at hclient
    cases hclient
  refine h.removed_one hr (h.ne_me hclient) (fun _ => False.elim) (fun hkind => absurd hkind hnot)
    fun q hq hup => ?_
  exact hnot (h.up_eq_some hq hup).2.2.2

/-- The loop over the users removes one. -/
theorem Inv.removeUser (hp : p ∈ s.globalClientList) (hclient : s.isClient p = true)
    (hdead : s.dead p = false) (hclosing : s.closing p = false) (comment : Str) :
    Quiet s (· = p) (fun _ => False) (removeUser comment s p) ∧
    Inv t out (removeUser comment s p) := by
  have hr : Quiet s (· = p) (fun _ => False) (Netsplit.removeUser comment s p) := by
    rw [Netsplit.removeUser, if_pos (by simp [hdead, hclosing]), exitRemoteClient, sendQuit,
      killed_exitGenericClient, if_pos (update_self ..)]
    exact (h.exitGenericClient hp hclient (fun q hq => update_of_ne hq ..) fun _ _ => rfl).setDead
      hp rfl
  exact ⟨hr, h.removed_user hr.toRemoved hclient⟩

/-- A server that is off the lists of servers. -/
theorem Inv.off (hr : Removed s (fun _ => False) (· = p) s') : Inv t (fun q => out q ∨ q = p) s' :=
  h.removed hr not_false (fun _ _ _ _ _ => id) (fun _ _ _ => False.elim) fun _ _ _ => Iff.rfl

/-- A server without users and servers is removed. -/
theorem Inv.qsServer (hp : p ∈ s.globalClientList) (hserver : s.isServer p = true)
    (hlink : p ∉ s.servList) (hleaf : ∀ q ∈ s.globalClientList, t.up q ≠ some p) :
    Quiet s (· = p) (· = p) (qsServer s p) ∧ Inv t out (qsServer s p) := by
  obtain ⟨k, -, hk, -⟩ := h.parent p hp (ne_me_of_isServer hserver)
  have hoff := h.offLists hk (.inr ⟨rfl, hlink⟩)
  have hr : Quiet s (· = p) (· = p) (Netsplit.qsServer s p) := by
    rw [Netsplit.qsServer, deleteServer_eq hk]
    exact (hoff.trans ((h.off hoff.toRemoved).forgetServer hp hserver)).congr h (fun _ _ => by simp)
      fun _ _ _ => by simp
  exact ⟨hr, h.removed_one hr.toRemoved (ne_me_of_isServer hserver) (fun _ => id)
    (fun _ => .inr rfl) hleaf⟩

end

/-- The clients behind a server. -/
def Behind (t : Uplinks ℕ) (x p : ℕ) : Prop := t.Below x p ∧ p ≠ x

/-- The users of a server are removed. -/
theorem Inv.removeUsers (h : Inv t out s) (comment : Str)
    (hflags : ∀ p ∈ s.users x, s.dead p = false ∧ s.closing p = false) :
    ∃ s', SavedNext.walk (fun s => s.users x) (fun s p => some (Netsplit.removeUser comment s p))
        (s.users x).length s (s.users x).head? = some (s', s.users x) ∧
      Quiet s (fun p => p ∈ s.users x) (fun _ => False) s' ∧ Inv t out s' := by
  have hwalk : ∃ s', SavedNext.walk (fun s : State => s.users x)
        (fun s p => some (Netsplit.removeUser comment s p)) (s.users x).length s (s.users x).head? =
          some (s', s.users x) ∧ s'.users x = [] ∧
      Quiet s (fun p => p ∈ s.users x ∧ p ∉ []) (fun _ => False) s' ∧ Inv t out s' := by
    refine SavedNext.walk_takes
      (fun q s' => Quiet s (fun p => p ∈ s.users x ∧ p ∉ q) (fun _ => False) s' ∧ Inv t out s') ?_
        (h.users_nodup x)
      ⟨(Quiet.refl h).congr h (fun p _ => by simp) fun _ _ _ => Iff.rfl, h⟩ rfl (le_refl _)
    rintro s₁ a q ⟨hr, hs₁⟩ hitems
    have ha : a ∈ s₁.users x := by rw [hitems]; exact mem_cons_self
    obtain ⟨ha₁, hclient, -⟩ := (hs₁.users x a).mp ha
    have hold : a ∈ s.users x := (((hr.users x).mem a).mp ha).1
    have hlive := ((h.users x a).mp hold).1
    obtain ⟨-, hclosing, hdead⟩ := hr.flags a hlive fun hg => hg.2 mem_cons_self
    obtain ⟨hdead₀, hclosing₀⟩ := hflags a hold
    obtain ⟨hr', hs'⟩ := hs₁.removeUser ha₁ hclient (hdead.trans hdead₀) (hclosing.trans hclosing₀)
      comment
    have hnd : (a :: q).Nodup := hitems ▸ hs₁.users_nodup x
    have hitems' := hr'.users x
    rw [hitems] at hitems'
    refine ⟨_, rfl, hitems'.tail hnd, (hr.trans hr').congr h (fun p _ => ?_) fun _ _ _ => by simp,
      hs'⟩
    rw [mem_cons, not_or]
    by_cases hpa : p = a
    · subst hpa
      simp [hold, (nodup_cons.mp hnd).1]
    · simp [hpa]
  obtain ⟨s', hwalk, -, hr, hs'⟩ := hwalk
  exact ⟨s', hwalk, hr.congr h (fun p _ => by simp) fun _ _ _ => Iff.rfl, hs'⟩

/-- A server whose clients can be removed, with a number of levels. -/
structure Ready (t : Uplinks ℕ) (out : ℕ → Prop) (s : State) (n x : ℕ) : Prop where
  mem : x ∈ s.globalClientList
  isServer : s.isServer x = true
  depth : ∀ p ∈ s.globalClientList, t.Below x p → t.depth p < t.depth x + n
  flags : ∀ p ∈ s.globalClientList, t.Below x p → s.isClient p = true → s.dead p = false ∧
    s.closing p = false
  out : ∀ p, out p → t.Below x p → p = x

/-- A server behind the first one, when something was removed. -/
theorem Ready.child {n y : ℕ} {gone outs : ℕ → Prop} (hx : Ready t out s (n + 1) x)
    (hr : Quiet s gone outs s') (hup : t.up y = some x) (hy : y ∈ s'.globalClientList)
    (hserver : s'.isServer y = true) (hgone : ∀ p, t.Below y p → ¬gone p) : Ready t out s' n y := by
  have hlive : ∀ p ∈ s'.globalClientList, p ∈ s.globalClientList :=
    fun p hp => ((hr.globalClientList.mem p).mp hp).1
  have hbelow : ∀ {p}, t.Below y p → t.Below x p := fun h => (Below.of_up hup).trans h
  refine ⟨hy, hserver, fun p hp hyp => ?_, fun p hp hyp hclient => ?_, fun p ho hyp => ?_⟩
  · have hlt := hx.depth p (hlive p hp) (hbelow hyp)
    have hdepth := t.depth_up y x hup
    omega
  · rw [hr.isClient] at hclient
    obtain ⟨-, hclosing, hdead⟩ := hr.flags p (hlive p hp) (hgone p hyp)
    rw [hdead, hclosing]
    exact hx.flags p (hlive p hp) (hbelow hyp) hclient
  · obtain rfl := hx.out p ho (hbelow hyp)
    exact absurd hyp (not_below_up hup)

/-- A client behind a server is one of its users, or behind one of its servers. -/
theorem Inv.behind_iff (h : Inv t out s) (hx : x ≠ me) (hout : ∀ p, out p → t.Below x p → p = x)
    (hp : p ∈ s.globalClientList) :
    Behind t x p ↔ p ∈ s.users x ∨ ∃ y ∈ s.servers x, t.Below y p := by
  constructor
  · rintro ⟨hbelow, hne⟩
    obtain ⟨y, hup, hyp⟩ := hbelow.exists_child hne
    have hy := h.mem_of_below hp hyp
    obtain ⟨hyme, hk, -⟩ := h.up_eq_some hy hup
    by_cases hkind : (s.world.client y).kind = .server
    · have hnot : ¬out y := fun ho => up_ne hup (hout y ho (.of_up hup))
      exact .inr ⟨y, (h.servers x y).mpr ⟨hy, decide_eq_true ⟨hkind, hyme⟩, hk, hnot⟩, hyp⟩
    · have hpy : p = y := by
        by_contra hpy
        exact hkind (h.kind_of_below hp hyp hpy)
      have hclient : s.isClient y = true := by
        rw [isClient, (h.kind y hy).resolve_left hkind]
        split_ifs <;> rfl
      exact .inl ((h.users x p).mpr ⟨hp, hpy ▸ hclient, hpy ▸ hk⟩)
  · rintro (hmem | ⟨y, hy, hyp⟩)
    · obtain ⟨hp, hclient, hk⟩ := (h.users x p).mp hmem
      have hup := h.up_of_servptr hp (h.ne_me hclient) hk
      exact ⟨.of_up hup, up_ne hup⟩
    · obtain ⟨hy, hserver, hk, -⟩ := (h.servers x y).mp hy
      have hup := h.up_of_servptr hy (ne_me_of_isServer hserver) hk
      refine ⟨(Below.of_up hup).trans hyp, ?_⟩
      rintro rfl
      exact not_below_up hup hyp

/-- **What is behind a server is removed.** -/
theorem Inv.recurseRemoveClients (comment : Str) {n : ℕ} (h : Inv t out s)
    (hx : Ready t out s n x) :
    ∃ s', recurseRemoveClients comment n s x = some s' ∧ Quiet s (Behind t x) (Behind t x) s' ∧
    Inv t out s' := by
  induction n generalizing s x with
  | zero => exact absurd (hx.depth x hx.mem .refl) (by simp)
  | succ n ih =>
    have hxme := ne_me_of_isServer hx.isServer
    have hup : ∀ {p k}, p ∈ s.globalClientList → p ≠ me → s.servptr p = some k → t.up p = some k :=
      h.up_of_servptr
    have husers : ∀ p ∈ s.users x, t.up p = some x := fun p hp => by
      obtain ⟨hp, hclient, hk⟩ := (h.users x p).mp hp
      exact hup hp (h.ne_me hclient) hk
    obtain ⟨s₁, hwalk₁, hr₁, hs₁⟩ := h.removeUsers comment fun p hp => by
      obtain ⟨hp', hclient, -⟩ := (h.users x p).mp hp
      exact hx.flags p hp' (.of_up (husers p hp)) hclient
    have hlive₁ : ∀ p ∈ s₁.globalClientList, p ∈ s.globalClientList :=
      fun p hp => ((hr₁.globalClientList.mem p).mp hp).1
    have hservers : ∀ y ∈ s₁.servers x, t.up y = some x ∧ y ∈ s.globalClientList ∧
        s.isServer y = true := fun y hy => by
      obtain ⟨hy, hserver, hk, -⟩ := (hs₁.servers x y).mp hy
      exact ⟨hs₁.up_of_servptr hy (ne_me_of_isServer hserver) hk, hlive₁ y hy,
        (hr₁.isServer y).symm.trans hserver⟩
    have hwalk₂ : ∃ s', SavedNext.walk (fun s : State => s.servers x)
          (fun s p => (Netsplit.recurseRemoveClients comment n s p).map fun s => Netsplit.qsServer s
            p)
          (s₁.servers x).length s₁ (s₁.servers x).head? = some (s', s₁.servers x) ∧
            s'.servers x = [] ∧
        Quiet s₁ (fun p => ∃ y ∈ s₁.servers x, y ∉ [] ∧ t.Below y p)
          (fun p => ∃ y ∈ s₁.servers x, y ∉ [] ∧ t.Below y p) s' ∧ Inv t out s' := by
      refine SavedNext.walk_takes
        (fun q s' => Quiet s₁ (fun p => ∃ y ∈ s₁.servers x, y ∉ q ∧ t.Below y p)
          (fun p => ∃ y ∈ s₁.servers x, y ∉ q ∧ t.Below y p) s' ∧ Inv t out s') ?_
            (hs₁.servers_nodup x)
        ⟨(Quiet.refl hs₁).congr hs₁ ?_ ?_, hs₁⟩ rfl (le_refl _)
      · rintro s₂ y q ⟨hr₂, hs₂⟩ hitems
        have hy : y ∈ s₂.servers x := by rw [hitems]; exact mem_cons_self
        have hnd : (y :: q).Nodup := hitems ▸ hs₂.servers_nodup x
        obtain ⟨hy₂, hserver, hk, -⟩ := (hs₂.servers x y).mp hy
        have hy₁ := (((hr₂.servers x).mem y).mp hy).1
        obtain ⟨hupy, -, -⟩ := hservers y hy₁
        -- what is behind this server is still there
        have hkept : ∀ p, t.Below y p → ¬(p ∈ s.users x ∨ ∃ z ∈ s₁.servers x, z ∉ y :: q ∧
            t.Below z p) := by
          rintro p hyp (hp | ⟨z, hz, hzq, hzp⟩)
          · have hpy : p = y := by
              obtain hpy | ⟨v, hv, hyv⟩ := below_iff.mp hyp
              · exact hpy
              · cases hv.symm.trans (husers p hp)
                exact absurd hyv (not_below_up hupy)
            rw [hpy] at hp
            have hclient := ((h.users x y).mp hp).2.1
            rw [isClient_of_isServer (hservers y hy₁).2.2] at hclient
            cases hclient
          · obtain rfl := child_unique (hservers z hz).1 hupy hzp hyp
            exact hzq mem_cons_self
        obtain ⟨s₃, hrun, hr₃, hs₃⟩ :=
            ih hs₂ (hx.child (hr₁.trans hr₂) hupy hy₂ hserver fun p hyp hg => by
          exact hkept p hyp hg)
        have hy₃ : y ∈ s₃.globalClientList :=
          (hr₃.globalClientList.mem y).mpr ⟨hy₂, fun hb => hb.2 rfl⟩
        have hlink : y ∉ s₃.servList := by
          intro hmem
          have hme := ((hs₃.servList y).mp hmem).2.2.1
          rw [hr₃.servptr, hk] at hme
          exact hxme (some.inj hme)
        obtain ⟨hr₄, hs₄⟩ := hs₃.qsServer hy₃ ((hr₃.isServer y).trans hserver) hlink
            fun p hp hupp => by
          exact ((hr₃.globalClientList.mem p).mp hp).2 ⟨.of_up hupp, up_ne hupp⟩
        have hitems' := (hr₃.servers x).trans (hr₄.servers x)
        rw [hitems] at hitems'
        refine ⟨_, by rw [hrun]; rfl, (hitems'.congr fun p hp => ?_).tail hnd, ?_, hs₄⟩
        · refine ⟨fun heq => .inr heq, ?_⟩
          rintro (⟨hyp, hne⟩ | heq)
          · have hp' := (((hr₂.servers x).mem p).mp (hitems ▸ hp)).1
            exact absurd (child_unique (hservers p hp').1 hupy .refl hyp) hne
          · exact heq
        · have hiff : ∀ p, (∃ z ∈ s₁.servers x, z ∉ q ∧ t.Below z p) ↔
              ((∃ z ∈ s₁.servers x, z ∉ y :: q ∧ t.Below z p) ∨ Behind t y p) ∨ p = y := by
            intro p
            constructor
            · rintro ⟨z, hz, hzq, hzp⟩
              by_cases hzy : z = y
              · subst hzy
                by_cases hpz : p = z
                · exact .inr hpz
                · exact .inl (.inr ⟨hzp, hpz⟩)
              · exact .inl (.inl ⟨z, hz, by simp [hzy, hzq], hzp⟩)
            · rintro ((⟨z, hz, hzq, hzp⟩ | ⟨hyp, -⟩) | rfl)
              · exact ⟨z, hz, fun hmem => hzq (mem_cons_of_mem y hmem), hzp⟩
              · exact ⟨y, hy₁, (nodup_cons.mp hnd).1, hyp⟩
              · exact ⟨p, hy₁, (nodup_cons.mp hnd).1, .refl⟩
          exact ((hr₂.trans hr₃).trans hr₄).congr hs₁ (fun p _ => hiff p) fun p _ _ => hiff p
      · rintro p -
        exact iff_false_intro fun ⟨y, hy, hnot, _⟩ => hnot hy
      · rintro p - -
        exact iff_false_intro fun ⟨y, hy, hnot, _⟩ => hnot hy
    obtain ⟨s₂, hwalk₂, -, hr₂, hs₂⟩ := hwalk₂
    have hsplit : ∀ p ∈ s.globalClientList, Behind t x p ↔ p ∈ s.users x ∨ ∃ y ∈ s₁.servers x,
        y ∉ [] ∧ t.Below y p := by
      intro p hp
      rw [h.behind_iff hxme hx.out hp]
      refine or_congr_right (exists_congr fun y => ?_)
      rw [(hr₁.servers x).mem]
      simp
    refine ⟨s₂, ?_, (hr₁.trans hr₂).congr h (fun p hp => ?_) (fun p hp hkind => ?_), hs₂⟩
    · rw [Netsplit.recurseRemoveClients, if_neg hxme, hwalk₁]
      simp [hwalk₂]
    · rw [hsplit p hp]
    · rw [hsplit p hp]
      refine or_congr_left (iff_false_intro fun hmem => ?_)
      have hclient := ((h.users x p).mp hmem).2.1
      rw [isClient, hkind] at hclient
      cases hclient

end Below

end Ratbox.Netsplit
