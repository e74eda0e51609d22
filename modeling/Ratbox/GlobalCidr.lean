import Mathlib.Algebra.Order.Group.Multiset
import Ratbox.Dlink
import Ratbox.Limits.Counting

/-!
# The global limit of addresses

The users of the whole network are counted in blocks of addresses, and a connection is not
registered as a user when there are as many in its block as the configuration allows. A user is
counted when it is registered or introduced, and counted no more when it exits. When the lengths of
the blocks change, everyone in the list of clients is counted again.

Counting again takes everyone whose address is known, and not the users only: the test that was to
leave out servers asks that a client is this server and has the status of another one. The links of
servers and the connections that are not registered are counted then, and stay counted when they
exit.

Before the limit is looked at, the users with the host of a connection are counted, and the list of
them that was made for this is freed. Its nodes are pieces of a block, so the second user with a
host ends the server.

Source: `src/reject.c`, lines 524–680, with `src/client.c`, lines 1077–1102, `src/s_user.c`, lines
500–545, `src/s_conf.c`, lines 464–531 and 629–690, `src/hash.c`, lines 285–342, `src/s_serv.c`,
lines 405–497, and `modules/core/m_nick.c`, lines 1090–1146.

## Main definitions

* `GlobalCidr.incGlobalCidrCount`, `GlobalCidr.decGlobalCidrCount`,
  `GlobalCidr.checkGlobalCidrCount`: the functions of the same names.
* `GlobalCidr.attachIline`: `attach_iline`, up to `attach_conf`.
* `GlobalCidr.rehashGlobalCidrTree`: everyone is counted again.
* `GlobalCidr.Right`: the numbers are those of the users.

## Main results

* `GlobalCidr.Good.step`: the operations keep the numbers.
* `GlobalCidr.global_cidr`: all runs.
* `GlobalCidr.rehash_counts_links`: the link of a server is counted.
* `GlobalCidr.attachIline_eq_none`: the second user with a host ends the server.

The numbers do not overflow. A service of this server is in the list as a user without an address,
like a user of another server that hides its address, and a fake server is there like another
server. What else may turn a connection away is an exit.
-/

namespace Ratbox.GlobalCidr

open Address Patricia Text List Option Function
open Limits (counter blockNode InBlock Own Counts)

/-- `STAT_ME`, `STAT_UNKNOWN` with those that connect to a server, `STAT_SERVER` and
`STAT_CLIENT`. -/
inductive Status
  | me
  | unknown
  | server
  | client
  deriving DecidableEq

/-- The address of a socket. -/
abbrev SockIp := { ip : Ip // ip.Valid }

/-- The names of a client: `username` and `host`. -/
structure Names where
  username : Str
  host : Str
  deriving DecidableEq

/-- A `struct Client`: its status, the field `localClient->ip` of a connection of this server, its
address in text, which is empty or `0` when it is not known, and its names. -/
structure Client where
  status : Status
  myConnect : Option SockIp
  sockhost : Str
  names : Names
  deriving DecidableEq

/-- The limits of an I-line: `IsConfExemptLimits`, and those of its class. -/
structure Iline where
  exemptLimits : Bool
  maxLocal : ℤ
  maxGlobal : ℤ
  maxIdent : ℤ
  deriving DecidableEq

/-- The values of `chk_res` that `attach_iline` returns itself. -/
inductive ChkRes
  | success
  | tooManyLocal
  | tooManyGlobal
  | tooManyIdent
  | tooManyGlobalCidr
  deriving DecidableEq

/-- The settings in `ConfigFileEntry`. -/
structure Conf where
  globalCidrIpv4Bitlen : ℕ
  globalCidrIpv4Count : ℤ
  globalCidrIpv6Bitlen : ℕ
  globalCidrIpv6Count : ℤ
  globalCidr : Bool
  deriving DecidableEq

/-- The clients, `global_client_list`, the keys and the clients of `HASH_HOSTNAME`, `global_tree`
and the configuration. -/
structure State where
  client : Addr → Client
  globalClientList : List Addr
  hashHostname : List (Str × Addr)
  globalTree : Patricia.Tree ℤ
  conf : Conf

/-- The length of the blocks of a family. -/
def Conf.bitlen (conf : Conf) : Family → ℕ
  | .inet => conf.globalCidrIpv4Bitlen
  | .inet6 => conf.globalCidrIpv6Bitlen

/-- The number of users that a block of a family may have. -/
def Conf.most (conf : Conf) : Family → ℤ
  | .inet => conf.globalCidrIpv4Count
  | .inet6 => conf.globalCidrIpv6Count

/-! ### The functions -/

/-- The address in the text. -/
def Client.sockIp (c : Client) : Option Ip :=
  if c.sockhost = [] ∨ c.sockhost = ['0'] then none else inetPtonSock c.sockhost

/-- The field `host`. -/
def Client.host (c : Client) : Str := c.names.host

/-- `MyClient`, with the address of the connection. -/
def Client.myClient (c : Client) : Option SockIp := if c.status = .client then c.myConnect else none

/-- The address at which a client is counted. -/
def Client.addr (c : Client) : Option Ip :=
  match c.myClient with
  | some ip => some ip.1
  | none => c.sockIp

/-- `get_global_count`. -/
def getGlobalCount (t : Patricia.Tree ℤ) (ip : Ip) : Option ℤ :=
  (t.matchIp ip).map fun r => (r.map (counter t)).getD 0

/-- `inc_global_ip`. -/
def incGlobalIp (t : Patricia.Tree ℤ) (bitlen : Family → ℕ) (ip : Ip) : Option (Patricia.Tree ℤ) :=
  do
  let (t, a) ← blockNode t bitlen ip
  some (t.write a (some (counter t a + 1)))

/-- `dec_global_ip`. -/
def decGlobalIp (t : Patricia.Tree ℤ) (ip : Ip) : Option (Patricia.Tree ℤ) := do
  match ← t.matchIp ip with
  | none => some t
  | some a =>
    let count := counter t a - 1
    let t := t.write a (some count)
    if count = 0 then t.remove a else some t

/-- `inc_global_cidr_count`. -/
def incGlobalCidrCount (bitlen : Family → ℕ) (t : Patricia.Tree ℤ) (c : Client) :
    Option (Patricia.Tree ℤ) :=
  match c.addr with
  | none => some t
  | some ip => incGlobalIp t bitlen ip

/-- `dec_global_cidr_count`. -/
def decGlobalCidrCount (t : Patricia.Tree ℤ) (c : Client) : Option (Patricia.Tree ℤ) :=
  match c.addr with
  | none => some t
  | some ip => decGlobalIp t ip

/-- `check_global_cidr_count`. -/
def checkGlobalCidrCount (s : State) (c : Client) : Option ℤ :=
  match c.addr with
  | none => some (-1)
  | some ip => (getGlobalCount s.globalTree ip).map fun count => if s.conf.most ip.family ≤
    count then 1 else 0

/-- `hash_find_list`, in `HASH_HOSTNAME`. The list is made for the caller. -/
def hashFindList (s : State) (host : Str) : List Addr :=
  if host = [] then [] else (s.hashHostname.filter fun e => irccmp host e.1).map Prod.snd

/-- `hash_free_list`. `rb_dlinkAddAlloc` made the nodes. -/
def hashFreeList (s : State) : List Addr → Option State
  | [] => some s
  | _ :: rest => (Dlink.freeNode s).bind fun s => hashFreeList s rest

/-- The loop of `attach_iline`, for a client with the names and what was counted before. -/
def hostLoop (iline : Iline) (names : Names) (client : Addr → Client) :
    List Addr → ℤ → ℤ → ℤ → ChkRes
  | [], _, _, _ => .success
  | x :: rest, localCount, globalCount, identCount =>
    let localCount := if (client x).myConnect.isSome then localCount + 1 else localCount
    let globalCount := globalCount + 1
    let same := if names.username.head? = some '~' then (client x).names.username.head? = some '~'
      else irccmp (client x).names.username names.username = true
    let identCount := if same then identCount + 1 else identCount
    if iline.maxLocal ≠ 0 ∧ iline.maxLocal ≤ localCount then .tooManyLocal
    else if iline.maxGlobal ≠ 0 ∧ iline.maxGlobal ≤ globalCount then .tooManyGlobal
    else if iline.maxIdent ≠ 0 ∧ iline.maxIdent ≤ identCount then .tooManyIdent
    else hostLoop iline names client rest localCount globalCount identCount

/-- `attach_iline`, up to `attach_conf`. -/
def attachIline (s : State) (c : Client) (iline : Iline) : Option ChkRes :=
  if iline.exemptLimits then some .success
  else do
    let hostlist := hashFindList s c.host
    let retval := hostLoop iline c.names s.client hostlist 0 0 0
    let s ← hashFreeList s hostlist
    if retval ≠ .success then some retval
    else if s.conf.globalCidr then
      (checkGlobalCidrCount s c).map fun r => if 0 < r then .tooManyGlobalCidr else .success
    else some .success

/-- The body of the loop of `rehash_global_cidr_tree`. -/
def recount (bitlen : Family → ℕ) (t : Patricia.Tree ℤ) (c : Client) : Option (Patricia.Tree ℤ) :=
  if c.status = .me ∧ c.status = .server then some t else incGlobalCidrCount bitlen t c

/-- `rehash_global_cidr_tree`. -/
def rehashGlobalCidrTree (s : State) : Option State :=
  (Run.run (recount s.conf.bitlen) (new 128) (s.globalClientList.map s.client)).map fun t =>
    { s with globalTree := t }

/-! ### Steps -/

/-- `SetClient` and `SetServer`. -/
def Client.setStatus (c : Client) (status : Status) : Client := { c with status := status }

/-- Write the names of a client. -/
def Client.setNames (c : Client) (names : Names) : Client := { c with names := names }

/-- Write a client. -/
def State.setClient (s : State) (p : Addr) (c : Client) : State :=
  { s with client := update s.client p c }

/-- A new client at the end of the list. -/
def State.addClient (s : State) (p : Addr) (c : Client) : State :=
  { s with client := update s.client p c, globalClientList := s.globalClientList ++ [p] }

/-- What happens: a connection, which this server or the other side makes; it is registered as a
user, with the names that `verify_access` leaves it and those that it has then, or as a server; a
user and a server that another server introduces; an exit; and a new configuration. -/
inductive Op
  | connect (p : Addr) (ip : SockIp) (sockhost : Str)
  | registerUser (p : Addr) (iline : Iline) (seen named : Names)
  | registerServer (p : Addr)
  | introduceUser (p : Addr) (sockhost : Str) (names : Names)
  | introduceServer (p : Addr)
  | exit (p : Addr)
  | rehash (conf : Conf)

/-- The client is a connection that is not registered. -/
def State.unregistered (s : State) (p : Addr) : Bool :=
  p ∈ s.globalClientList ∧ (s.client p).status = .unknown ∧ (s.client p).myConnect.isSome

/-- What `exit_client` does with a client of the list. -/
def exitClient (s : State) (p : Addr) : Option State := do
  let t ← if (s.client p).status = .client then decGlobalCidrCount s.globalTree (s.client p)
    else some s.globalTree
  some { s with
    globalClientList := s.globalClientList.erase p
    hashHostname := s.hashHostname.erase ((s.client p).host, p)
    globalTree := t }

/-- `register_local_user`, where a client that is one too many exits. -/
def registerLocalUser (s : State) (p : Addr) (iline : Iline) (seen named : Names) : Option State :=
  do
  let s := s.setClient p ((s.client p).setNames seen)
  if (← attachIline s (s.client p) iline) ≠ .success then exitClient s p
  else
    let c := ((s.client p).setNames named).setStatus .client
    let t ← incGlobalCidrCount s.conf.bitlen s.globalTree c
    some { s.setClient p c with hashHostname := (c.host, p) :: s.hashHostname, globalTree := t }

/-- `register_client`. -/
def registerClient (s : State) (p : Addr) (sockhost : Str) (names : Names) : Option State := do
  let t ← incGlobalCidrCount s.conf.bitlen s.globalTree ⟨.client, none, sockhost, names⟩
  some { s.addClient p ⟨.client, none, sockhost, names⟩ with
    hashHostname := (names.host, p) :: s.hashHostname, globalTree := t }

/-- The lengths of the blocks are others. -/
def Conf.LengthsChange (old conf : Conf) : Prop :=
  old.globalCidrIpv4Bitlen ≠ conf.globalCidrIpv4Bitlen ∨ old.globalCidrIpv6Bitlen ≠
    conf.globalCidrIpv6Bitlen

instance (old conf : Conf) : Decidable (old.LengthsChange conf) :=
  inferInstanceAs (Decidable (_ ∨ _))

/-- `rehash`. -/
def rehash (s : State) (conf : Conf) : Option State :=
  if s.conf.LengthsChange conf then rehashGlobalCidrTree { s with conf := conf }
    else some { s with conf := conf }

/-- A step. Nothing happens to a client that is not in the list, or is in another state, and to this
server. -/
def step (s : State) : Op → Option State
  | .connect p ip sockhost =>
    some (if p ∈ s.globalClientList then s else s.addClient p ⟨.unknown, some ip, sockhost,
      ⟨[], sockhost⟩⟩)
  | .registerUser p iline seen named => if s.unregistered p then registerLocalUser s p iline seen
    named else some s
  | .registerServer p => some (if s.unregistered p then s.setClient p ((s.client p).setStatus
    .server) else s)
  | .introduceUser p sockhost names => if p ∈ s.globalClientList then some s else registerClient s p
    sockhost names
  | .introduceServer p => some (if p ∈ s.globalClientList then s else s.addClient p ⟨.server, none,
    [], ⟨[], []⟩⟩)
  | .exit p => if p ∈ s.globalClientList ∧ (s.client p).status ≠ .me then exitClient s p else some s
  | .rehash conf => rehash s conf

/-- This server is alone. -/
def start (conf : Conf) : State := ⟨fun _ => ⟨.me, none, [], ⟨[], []⟩⟩, [0], [], new 128, conf⟩

/-! ### The numbers of users -/

/-- The client is a user, and its address is known and in the block. -/
def Client.InBlock (c : Client) (q : Prefix) :
    Prop := c.status = .client ∧ ∃ ip ∈ c.addr, Limits.InBlock ip q

instance (c : Client) (q : Prefix) : Decidable (c.InBlock q) := inferInstanceAs (Decidable (_ ∧ _))

/-- The number of the users in a block. -/
def State.users (s : State) (q : Prefix) : ℕ :=
  s.globalClientList.countP fun p => (s.client p).InBlock q

/-- **The numbers are right**: the blocks have the lengths of the configuration, the number of each
is that of the users in it, and not 0, and every user whose address is known is in a block. -/
structure Right (s : State) : Prop where
  counted : ∀ a q, s.globalTree.pfxAt a = some q →
    q.bitlen = s.conf.bitlen q.family ∧ counter s.globalTree a = s.users q ∧
      0 < counter s.globalTree a
  found : ∀ p ∈ s.globalClientList, (s.client p).status = .client → ∀ ip, (s.client p).addr =
    some ip → ∃ a q, s.globalTree.pfxAt a = some q ∧ InBlock ip q

/-- An address is counted in a block of its family, which is not longer than an address. -/
structure Countable (bitlen : Family → ℕ) (t : Patricia.Tree ℤ) (c : Client) : Prop where
  length : ∀ ip, c.addr = some ip → bitlen ip.family ≤ ip.family.bits
  own : ∀ ip, c.addr = some ip → Own t ip

/-- The condition: nobody has the host of a connection that is registered with limits; the block
that is found for an address is of its family; the text of a connection is that of its address; and
when the lengths of the blocks change, the clients in the list with an address are the users. -/
def Meets (s : State) : Op → Prop
  | .registerUser p iline seen _ => s.unregistered p = true →
    (iline.exemptLimits = false → hashFindList s seen.host = []) ∧
      Countable s.conf.bitlen s.globalTree ((s.client p).setStatus .client) ∧
        ∀ x ip, (s.client p).sockIp = some x → (s.client p).myConnect = some ip → x = ip.1
  | .introduceUser p sockhost names =>
    p ∉ s.globalClientList → Countable s.conf.bitlen s.globalTree ⟨.client, none, sockhost, names⟩
  | .exit p => p ∈ s.globalClientList → (s.client p).status = .client → ∀ ip, (s.client p).addr =
    some ip → Own s.globalTree ip
  | .rehash conf => s.conf.LengthsChange conf →
    (∀ p ∈ s.globalClientList, (s.client p).status ≠ .client → (s.client p).addr = none) ∧
      Run.StepsMeet (recount conf.bitlen) (Countable conf.bitlen) (new 128)
        (s.globalClientList.map s.client)
  | _ => True

/-- The address at which a user is counted. -/
def Client.counted (c : Client) : Option Ip := if c.status = .client then c.addr else none

/-- The addresses of the users. -/
def State.ips (s : State) : Multiset Ip :=
  ↑(s.globalClientList.filterMap fun p => (s.client p).counted)

/-- Nobody is in the list twice, and the tree counts the addresses of the users. -/
structure Good (s : State) : Prop where
  nodup : s.globalClientList.Nodup
  counts : Counts s.globalTree s.conf.bitlen s.ips

theorem filterMap_cons_eq {α β : Type*} (f : α → Option β) (x : α) (l : List α) :
    (x :: l).filterMap f = (f x).toList ++ l.filterMap f := by
  rw [filterMap_cons]
  cases f x with
  | none => rfl
  | some y => rfl

section Clients

variable {c : Client} {t : Patricia.Tree ℤ} {bitlen : Family → ℕ} {ips : Multiset Ip} {q : Prefix}
  {ip : Ip}

theorem Client.sockIp_valid (h : c.sockIp = some ip) : ip.Valid := by
  rw [Client.sockIp] at h
  split_ifs at h
  exact inetPtonSock_valid h

theorem Client.addr_valid (h : c.addr = some ip) : ip.Valid := by
  rw [Client.addr] at h
  split at h
  · rename_i x _
    exact some.inj h ▸ x.2
  · exact Client.sockIp_valid h

theorem Client.counted_client (h : c.status = .client) : c.counted = c.addr := if_pos h

theorem Client.counted_of_ne (h : c.status ≠ .client) : c.counted = none := if_neg h

/-- A client that is not a user of this server is counted at the address in its text. -/
theorem Client.addr_of_ne (h : c.status ≠ .client) : c.addr = c.sockIp := by
  rw [Client.addr, Client.myClient, if_neg h]

theorem Client.inBlock_iff : c.InBlock q ↔ ∃ ip ∈ c.counted, Limits.InBlock ip q := by
  rw [Client.InBlock, Client.counted]
  split_ifs with h
  · exact and_iff_right h
  · simp [h]

/-- **A client is counted** at its address. -/
theorem incGlobalCidrCount_spec (h : Counts t bitlen ips) (hc : Countable bitlen t c) :
    ∃ t', incGlobalCidrCount bitlen t c = some t' ∧ Counts t' bitlen (↑c.addr.toList + ips) := by
  rw [incGlobalCidrCount]
  cases haddr : c.addr with
  | none => exact ⟨t, rfl, by simpa using h⟩
  | some ip =>
    obtain ⟨t', a, hnode, hcounts⟩ := h.inc (hc.length ip haddr) (Client.addr_valid haddr)
      (hc.own ip haddr)
    exact ⟨_, by simp only [incGlobalIp, hnode, bind_eq_bind, bind_some], hcounts⟩

/-- **A client is counted no more** at its address. -/
theorem decGlobalCidrCount_spec (h : Counts t bitlen (↑c.addr.toList + ips))
    (hown : ∀ ip, c.addr = some ip → Own t ip) :
    ∃ t', decGlobalCidrCount t c = some t' ∧ Counts t' bitlen ips := by
  rw [decGlobalCidrCount]
  cases haddr : c.addr with
  | none => exact ⟨t, rfl, by simpa [haddr] using h⟩
  | some ip =>
    rw [haddr, toList_some, Multiset.coe_singleton, Multiset.singleton_add] at h
    obtain ⟨a, hmatch, hlast, hmore⟩ := h.dec (hown ip haddr) (Multiset.mem_cons_self ip ips)
    rw [Multiset.erase_cons_head] at hlast hmore
    dsimp only
    rw [decGlobalIp, hmatch, bind_eq_bind, bind_some]
    dsimp only
    split_ifs with hzero
    · exact hlast hzero
    · exact ⟨_, rfl, hmore hzero⟩

/-- No client has two states. -/
theorem recount_eq : recount bitlen t c = incGlobalCidrCount bitlen t c := by
  rw [recount, if_neg]
  rintro ⟨hme, hserver⟩
  cases hme.symm.trans hserver

/-- **Counting again** takes everyone with an address. -/
theorem run_recount {cs : List Client} (h : Counts t bitlen ips)
    (hcs : Run.StepsMeet (recount bitlen) (Countable bitlen) t cs) :
    ∃ t', Run.run (recount bitlen) t cs = some t' ∧
    Counts t' bitlen (↑(cs.filterMap Client.addr) + ips) := by
  induction cs generalizing t ips with
  | nil => exact ⟨t, rfl, by simpa using h⟩
  | cons c cs ih =>
    obtain ⟨t₁, ht₁, hcounts⟩ := incGlobalCidrCount_spec h hcs.1
    rw [← recount_eq] at ht₁
    obtain ⟨t', ht', hcounts'⟩ := ih hcounts (hcs.2 t₁ ht₁)
    refine ⟨t', by rw [Run.run, ht₁, bind_some, ht'], ?_⟩
    have hips : (↑((c :: cs).filterMap Client.addr) : Multiset Ip) + ips =
        ↑(cs.filterMap Client.addr) + (↑c.addr.toList + ips) := by
      rw [add_left_comm, ← add_assoc, Multiset.coe_add, filterMap_cons_eq]
    rw [hips]
    exact hcounts'

end Clients

section States

variable {s s' : State} {p : Addr} {c : Client} {q : Prefix} {iline : Iline}

/-- The number of the users in a block is that of their addresses. -/
theorem users_eq (s : State) (q : Prefix) : s.users q = s.ips.countP fun ip => InBlock ip q := by
  rw [State.users, State.ips, Multiset.coe_countP, countP_filterMap]
  refine countP_congr fun p _ => ?_
  rw [decide_eq_true_iff, Client.inBlock_iff]
  cases (s.client p).counted with
  | none => simp
  | some ip => simp

/-- The addresses of the users, one client taken apart. -/
theorem ips_of_mem (hp : p ∈ s.globalClientList) :
    s.ips = ↑(s.client p).counted.toList +
    ↑((s.globalClientList.erase p).filterMap fun p => (s.client p).counted) := by
  rw [Multiset.coe_add, State.ips, ← filterMap_cons_eq fun p => (s.client p).counted]
  exact Multiset.coe_eq_coe.mpr ((perm_cons_erase hp).filterMap _)

/-- The others keep their addresses. -/
theorem filterMap_update {l : List Addr} (hp : p ∉ l) :
    (l.filterMap fun x => (update s.client p c x).counted) = l.filterMap fun x =>
    (s.client x).counted := by
  refine filterMap_congr fun x hx => ?_
  rw [update_of_ne fun heq : x = p => hp (heq ▸ hx)]

theorem ips_setClient (hnodup : s.globalClientList.Nodup) (hp : p ∈ s.globalClientList)
    (hold : (s.client p).status ≠ .client) : (s.setClient p c).ips = ↑c.counted.toList + s.ips := by
  have hrest := filterMap_update (s := s) (c := c) (p := p) (l := s.globalClientList.erase p)
    hnodup.not_mem_erase
  rw [ips_of_mem (s := s.setClient p c) hp, ips_of_mem hp, Client.counted_of_ne hold]
  simp only [State.setClient, update_self, hrest, toList_none]
  rw [Multiset.coe_nil, zero_add]

theorem ips_addClient (hp : p ∉ s.globalClientList) :
    (s.addClient p c).ips = ↑c.counted.toList + s.ips := by
  have hrest := filterMap_update (s := s) (c := c) hp
  rw [State.ips, State.addClient, State.ips]
  simp only [filterMap_append, hrest, filterMap_cons_eq, filterMap_nil, update_self, append_nil]
  rw [Multiset.coe_add, Multiset.coe_eq_coe]
  exact perm_append_comm

theorem Good.right (h : Good s) : Right s where
  counted a q hq := ⟨(h.counts.fits a q hq).2, by rw [users_eq]; exact h.counts.counted a q hq⟩
  found p hp hstatus ip haddr :=
    h.counts.found ip (mem_filterMap.mpr ⟨p, hp, (Client.counted_client hstatus).trans haddr⟩)

theorem good_start (conf : Conf) : Good (start conf) := ⟨nodup_singleton 0, Limits.counts_new _⟩

/-- **A new client** in the list that is not counted. -/
theorem Good.addClient (h : Good s) (hp : p ∉ s.globalClientList) {t : Patricia.Tree ℤ}
    (ht : Counts t s.conf.bitlen (↑c.counted.toList + s.ips)) :
    Good { s.addClient p c with globalTree := t } where
  nodup := (nodup_append_comm.mp (nodup_cons.mpr ⟨hp, h.nodup⟩))
  counts := by
    have hips := ips_addClient (c := c) hp
    exact hips ▸ ht

/-- A client that is no user is counted nowhere. -/
theorem Good.counts_of_ne (h : Good s) (hc : c.status ≠ .client) :
    Counts s.globalTree s.conf.bitlen (↑c.counted.toList + s.ips) := by
  rw [Client.counted_of_ne hc, toList_none, Multiset.coe_nil, zero_add]
  exact h.counts

/-- **A client of the list that was not a user** is written. -/
theorem Good.setClient (h : Good s) (hp : p ∈ s.globalClientList)
    (hold : (s.client p).status ≠ .client) {t : Patricia.Tree ℤ}
    (ht : Counts t s.conf.bitlen (↑c.counted.toList + s.ips)) :
    Good { s.setClient p c with globalTree := t } where
  nodup := h.nodup
  counts := by
    have hips := ips_setClient (c := c) h.nodup hp hold
    exact hips ▸ ht

/-- **An exit** of a user takes it out of its block. -/
theorem Good.exitClient (h : Good s) (hp : p ∈ s.globalClientList)
    (hown : (s.client p).status = .client → ∀ ip, (s.client p).addr = some ip →
      Own s.globalTree ip) :
    ∃ s', exitClient s p = some s' ∧ Good s' := by
  have hcounts := h.counts
  rw [ips_of_mem hp] at hcounts
  have hnodup := h.nodup.erase p
  rw [GlobalCidr.exitClient]
  split_ifs with hstatus
  · rw [Client.counted_client hstatus] at hcounts
    obtain ⟨t, ht, hleft⟩ := decGlobalCidrCount_spec hcounts (hown hstatus)
    exact ⟨_, by rw [ht]; rfl, hnodup, hleft⟩
  · rw [Client.counted_of_ne hstatus, toList_none, Multiset.coe_nil, zero_add] at hcounts
    exact ⟨_, rfl, hnodup, hcounts⟩

theorem Good.getGlobalCount (h : Good s) (ip : Ip) :
    ∃ n, getGlobalCount s.globalTree ip = some n := by
  obtain ⟨label, hinv⟩ := h.counts.inv
  obtain ⟨r, hr, -⟩ := Limits.matchIp_spec hinv h.counts.maxbits ip
  exact ⟨_, by rw [GlobalCidr.getGlobalCount, hr, map_some]⟩

/-- **An I-line is attached** to a connection whose host nobody has, or with which no limit is
looked at. -/
theorem attachIline_eq (c : Client)
    (hhost : iline.exemptLimits = false → hashFindList s c.host = []) :
    attachIline s c iline = if iline.exemptLimits = true ∨ s.conf.globalCidr = false then
      some .success
      else (checkGlobalCidrCount s c).map fun r => if 0 < r then .tooManyGlobalCidr
      else .success := by
  rw [attachIline]
  cases hexempt : iline.exemptLimits with
  | true => simp
  | false =>
    rw [hhost hexempt]
    cases hcidr : s.conf.globalCidr <;> simp [hashFreeList, hostLoop, hcidr]

/-- Nobody gets in whose host a user has. -/
theorem attachIline_eq_none {c : Client} {iline : Iline} (hexempt : iline.exemptLimits = false)
    (hhost : hashFindList s c.host ≠ []) : attachIline s c iline = none := by
  obtain ⟨x, rest, hlist⟩ := exists_cons_of_ne_nil hhost
  rw [attachIline, hexempt, hlist]
  rfl

theorem Good.attachIline (h : Good s) (c : Client) (iline : Iline)
    (hhost : iline.exemptLimits = false → hashFindList s c.host = []) :
    ∃ r, attachIline s c iline = some r := by
  rw [attachIline_eq c hhost]
  split_ifs with hlimit
  · exact ⟨.success, rfl⟩
  · rw [checkGlobalCidrCount]
    cases haddr : c.addr with
    | none => exact ⟨_, rfl⟩
    | some ip =>
      obtain ⟨n, hn⟩ := h.getGlobalCount ip
      exact ⟨_, by dsimp only; rw [hn, map_some, map_some]⟩

theorem unregistered_iff : s.unregistered p = true ↔
    p ∈ s.globalClientList ∧ (s.client p).status = .unknown ∧ (s.client p).myConnect.isSome =
    true := by
  rw [State.unregistered, decide_eq_true_iff]

/-- **A connection is registered** as a user, and counted, or it exits. -/
theorem Good.registerLocalUser (h : Good s) (hp : s.unregistered p = true) {seen : Names}
    (hhost : iline.exemptLimits = false → hashFindList s seen.host = [])
    (hc : Countable s.conf.bitlen s.globalTree ((s.client p).setStatus .client)) (named : Names) :
    ∃ s', registerLocalUser s p iline seen named = some s' ∧ Good s' := by
  obtain ⟨hmem, hunknown, -⟩ := unregistered_iff.mp hp
  have hnot : (s.client p).status ≠ .client := by rw [hunknown]; decide
  -- The names that are seen are written first.
  have hseen : Good (s.setClient p ((s.client p).setNames seen)) :=
    h.setClient hmem hnot (h.counts_of_ne hnot)
  have hclient : (s.setClient p ((s.client p).setNames seen)).client p =
    (s.client p).setNames seen :=
    update_self ..
  have hnot' : ((s.setClient p ((s.client p).setNames seen)).client p).status ≠ .client := by
    rw [hclient]
    exact hnot
  obtain ⟨r, hr⟩ := hseen.attachIline ((s.client p).setNames seen) iline hhost
  rw [GlobalCidr.registerLocalUser]
  dsimp only
  rw [hclient, hr, bind_eq_bind, bind_some]
  split_ifs with htoo
  · exact hseen.exitClient hmem fun hstatus => absurd hstatus hnot'
  · have hc' : Countable s.conf.bitlen s.globalTree
      ((((s.client p).setNames seen).setNames named).setStatus .client) :=
      ⟨hc.length, hc.own⟩
    obtain ⟨t, ht, hcounts⟩ := incGlobalCidrCount_spec hseen.counts hc'
    refine ⟨_, by rw [ht, bind_eq_bind, bind_some], ?_⟩
    have hgood := hseen.setClient (p := p) (c :=
      (((s.client p).setNames seen).setNames named).setStatus .client) hmem hnot' (t :=
        t) (by rw [Client.counted_client rfl]; exact hcounts)
    exact ⟨hgood.nodup, hgood.counts⟩

/-- **A user is introduced** by another server. -/
theorem Good.registerClient (h : Good s) (hp : p ∉ s.globalClientList) {sockhost : Str}
    {names : Names} (hc : Countable s.conf.bitlen s.globalTree ⟨.client, none, sockhost, names⟩) :
    ∃ s', registerClient s p sockhost names = some s' ∧ Good s' := by
  obtain ⟨t, ht, hcounts⟩ := incGlobalCidrCount_spec h.counts hc
  refine ⟨_, by rw [GlobalCidr.registerClient, ht]; rfl, ?_⟩
  have hgood := h.addClient (c := ⟨.client, none, sockhost, names⟩) hp (t := t) (by
    rw [Client.counted_client rfl]
    exact hcounts)
  exact ⟨hgood.nodup, hgood.counts⟩

/-- **A new configuration**: with other lengths everyone is counted again. -/
theorem Good.rehash (h : Good s) {conf : Conf} (hmeets : Meets s (.rehash conf)) :
    ∃ s', rehash s conf = some s' ∧ Good s' := by
  rw [GlobalCidr.rehash]
  split_ifs with hlengths
  · obtain ⟨hothers, hsteps⟩ := hmeets hlengths
    obtain ⟨t, ht, hcounts⟩ := run_recount (Limits.counts_new conf.bitlen) hsteps
    refine ⟨{ s with conf := conf, globalTree := t }, by rw [rehashGlobalCidrTree, ht, map_some],
      h.nodup, ?_⟩
    -- Only users have addresses, so those that are counted are the addresses of the users.
    have hips : (s.globalClientList.map s.client).filterMap Client.addr =
        s.globalClientList.filterMap fun p => (s.client p).counted := by
      rw [filterMap_map]
      refine filterMap_congr fun p hp => ?_
      rw [comp_apply, Client.counted]
      split_ifs with hstatus
      · rfl
      · exact hothers p hp hstatus
    rw [add_zero, hips] at hcounts
    exact hcounts
  · have heq : s.conf.bitlen = conf.bitlen := by
      rw [Conf.LengthsChange, not_or, not_ne_iff, not_ne_iff] at hlengths
      funext f
      cases f with
      | inet => exact hlengths.1
      | inet6 => exact hlengths.2
    exact ⟨_, rfl, h.nodup, heq ▸ h.counts⟩

/-- **Steps** keep the numbers. -/
theorem Good.step (h : Good s) {op : Op} (hmeets : Meets s op) :
    ∃ s', step s op = some s' ∧ Good s' := by
  cases op with
  | connect p ip sockhost =>
    refine ⟨_, rfl, ?_⟩
    split_ifs with hp
    · exact h
    · exact h.addClient hp (h.counts_of_ne (by simp))
  | registerUser p iline seen named =>
    rw [GlobalCidr.step]
    split_ifs with hp
    · exact h.registerLocalUser hp (hmeets hp).1 (hmeets hp).2.1 named
    · exact ⟨s, rfl, h⟩
  | registerServer p =>
    refine ⟨_, rfl, ?_⟩
    split_ifs with hp
    · obtain ⟨hmem, hunknown, -⟩ := unregistered_iff.mp hp
      exact h.setClient hmem (by rw [hunknown]; decide)
        (h.counts_of_ne (by simp [Client.setStatus]))
    · exact h
  | introduceUser p sockhost names =>
    rw [GlobalCidr.step]
    split_ifs with hp
    · exact ⟨s, rfl, h⟩
    · exact h.registerClient hp (hmeets hp)
  | introduceServer p =>
    refine ⟨_, rfl, ?_⟩
    split_ifs with hp
    · exact h
    · exact h.addClient hp (h.counts_of_ne (by simp))
  | exit p =>
    rw [GlobalCidr.step]
    split_ifs with hp
    · exact h.exitClient hp.1 (hmeets hp.1)
    · exact ⟨s, rfl, h⟩
  | rehash conf => exact h.rehash hmeets

/-- A connection is turned away only when as many users as are allowed are in the block of its
address. -/
def RefusesRightly (s : State) : Prop :=
  ∀ p iline seen named, s.unregistered p = true → Meets s (.registerUser p iline seen named) →
    attachIline s ((s.client p).setNames seen) iline = some .tooManyGlobalCidr →
      ∀ ip, (s.client p).myConnect = some ip → s.conf.most ip.1.family ≤ s.users
        (ip.1.pfx (s.conf.bitlen ip.1.family))

theorem Good.refusesRightly (h : Good s) : RefusesRightly s := by
  intro p iline seen named hp hmeets htoo ip hip
  obtain ⟨-, hunknown, -⟩ := unregistered_iff.mp hp
  obtain ⟨hhost, hc, htext⟩ := hmeets hp
  have haddr : ((s.client p).setNames seen).addr = (s.client p).sockIp :=
    Client.addr_of_ne (c := (s.client p).setNames seen) (by rw [Client.setNames, hunknown]; decide)
  rw [attachIline_eq ((s.client p).setNames seen) hhost] at htoo
  split_ifs at htoo with hlimit
  · cases htoo
  rw [checkGlobalCidrCount, haddr] at htoo
  cases hsock : (s.client p).sockIp with
  | none => exact absurd (hsock ▸ htoo) (by simp)
  | some x =>
    obtain rfl := htext x ip hsock hip
    have hregistered : ((s.client p).setStatus .client).addr = some ip.1 := by
      rw [Client.addr, Client.myClient, Client.setStatus, if_pos rfl, hip]
    obtain ⟨r, hr, hcount⟩ := h.counts.count (hc.length _ hregistered) (hc.own _ hregistered)
    rw [hsock] at htoo
    dsimp only at htoo
    rw [GlobalCidr.getGlobalCount, hr, map_some, map_some, map_some, hcount] at htoo
    rw [users_eq]
    by_contra hfew
    rw [if_neg hfew] at htoo
    cases htoo

end States

/-! ### All runs -/

/-- **The numbers of the users.** As long as no connection that is registered with limits has the
host of a user, the block that is found for an address is of its family and not longer than an
address, the text of a connection is that of its address, and only users in the list have an address
when the lengths of the blocks change: everything can be done, and in every state that is reached
the number of each block is that of the users in it, and a connection is turned away by the limit
only when that many users are in its block. -/
theorem global_cidr {conf : Conf} {ops : List Op}
    (hops : Run.StepsMeet step Meets (start conf) ops) :
    (∃ s, Run.run step (start conf) ops = some s) ∧
    Run.Always step (fun s => Right s ∧ RefusesRightly s) (start conf) ops := by
  refine ⟨?_, Run.always_of_stepsMeet Good (fun s h => ⟨h.right, h.refusesRightly⟩)
    (fun s op s' h hmeets hs' => ?_) (good_start conf) hops⟩
  · obtain ⟨s, hrun, -⟩ := Run.progress Good (fun s op h hmeets => h.step hmeets) (good_start conf)
      hops
    exact ⟨s, hrun⟩
  · obtain ⟨s₁, hs₁, hgood⟩ := h.step hmeets
    exact some.inj (hs₁.symm.trans hs') ▸ hgood

/-! ### One family -/

section Family

variable {s : State} {p : Addr} {c : Client} {t : Patricia.Tree ℤ} {bitlen : Family → ℕ}
  {ips : Multiset Ip} {f : Family}

/-- With addresses of one family, the blocks are of this family. -/
theorem countable_of_family (h : Counts t bitlen ips) (hips : ∀ ip ∈ ips, ip.family = f)
    (hlen : bitlen f ≤ f.bits) (hc : ∀ ip, c.addr = some ip → ip.family = f) :
    Countable bitlen t c := by
  refine ⟨fun ip hip => hc ip hip ▸ hlen, fun ip hip => ?_⟩
  refine Limits.own_of_family (fun a q hq => (h.fits a q hq).1) fun a q hq => ?_
  obtain ⟨hcount, hpos⟩ := h.counted a q hq
  rw [hcount, Nat.cast_pos, Multiset.countP_pos] at hpos
  obtain ⟨x, hx, hin⟩ := hpos
  rw [← hin.1, hips x hx, hc ip hip]

theorem stepsMeet_recount_of_family {cs : List Client} (h : Counts t bitlen ips)
    (hips : ∀ ip ∈ ips, ip.family = f) (hlen : bitlen f ≤ f.bits)
    (hcs : ∀ c ∈ cs, ∀ ip, c.addr = some ip → ip.family = f) :
    Run.StepsMeet (recount bitlen) (Countable bitlen) t cs := by
  induction cs generalizing t ips with
  | nil => trivial
  | cons c cs ih =>
    have hc := countable_of_family h hips hlen (hcs c (mem_cons_self ..))
    refine ⟨hc, fun t' ht' => ?_⟩
    obtain ⟨t₁, ht₁, hcounts⟩ := incGlobalCidrCount_spec h hc
    rw [recount_eq, ht₁] at ht'
    cases ht'
    refine ih hcounts (fun ip hip => ?_) fun c' hc' => hcs c' (mem_cons_of_mem c hc')
    obtain hip | hip := Multiset.mem_add.mp hip
    · exact hcs c (mem_cons_self ..) ip (mem_toList.mp hip)
    · exact hips ip hip

/-- With addresses of one family: the condition that is left. -/
def OneFamily (f : Family) (s : State) (op : Op) : Prop :=
  s.conf.bitlen f ≤ f.bits ∧ (∀ p ∈ s.globalClientList, ∀ ip ∈ (s.client p).counted,
    ip.family = f) ∧ match op with
    | .registerUser p iline seen _ => (iline.exemptLimits = false → hashFindList s seen.host = []) ∧
      ∀ ip ∈ (s.client p).myConnect, ip.1.family = f ∧ ∀ x ∈ (s.client p).sockIp, x = ip.1
    | .introduceUser _ sockhost names => ∀ ip ∈ (⟨.client, none, sockhost, names⟩ : Client).addr,
      ip.family = f
    | .rehash conf => s.conf.LengthsChange conf →
      conf.bitlen f ≤ f.bits ∧ ∀ p ∈ s.globalClientList, (s.client p).status ≠ .client →
        (s.client p).addr = none
    | _ => True

instance (f : Family) (s : State) (op : Op) : Decidable (OneFamily f s op) := by
  cases op <;> exact inferInstanceAs (Decidable (_ ∧ _))

/-- **With addresses of one family**, it is enough that only users have an address when the lengths
of the blocks change, that the lengths are those of addresses, that the text of a connection is that
of its address, and that its host is nobody's. -/
theorem Good.meets_of_family (h : Good s) {op : Op} (hop : OneFamily f s op) : Meets s op := by
  obtain ⟨hlen, hlist, hop⟩ := hop
  have hips : ∀ ip ∈ s.ips, ip.family = f := by
    intro ip hip
    obtain ⟨p, hp, hcounted⟩ := mem_filterMap.mp hip
    exact hlist p hp ip hcounted
  cases op with
  | registerUser p iline seen named =>
    obtain ⟨hhost, hop⟩ := hop
    intro hp
    obtain ⟨-, -, hconnect⟩ := unregistered_iff.mp hp
    obtain ⟨ip, hip⟩ := isSome_iff_exists.mp hconnect
    obtain ⟨hfamily, htext⟩ := hop ip hip
    refine ⟨hhost, countable_of_family h.counts hips hlen fun x hx => ?_, fun x ip' hx hip' => ?_⟩
    · rw [Client.addr, Client.myClient, Client.setStatus, if_pos rfl, hip] at hx
      exact some.inj hx ▸ hfamily
    · exact some.inj (hip.symm.trans hip') ▸ htext x hx
  | introduceUser p sockhost names => exact fun _ => countable_of_family h.counts hips hlen hop
  | exit p =>
    intro hp hstatus ip hip
    refine (countable_of_family (c := s.client p) h.counts hips hlen fun x hx => ?_).own ip hip
    exact hlist p hp x ((Client.counted_client hstatus).trans hx)
  | rehash conf =>
    intro hlengths
    obtain ⟨hlen', hothers⟩ := hop hlengths
    refine ⟨hothers, stepsMeet_recount_of_family (Limits.counts_new _) (fun ip hip => ?_) hlen'
      fun c hc ip hip => ?_⟩
    · exact absurd hip (Multiset.notMem_zero ip)
    · obtain ⟨p, hp, rfl⟩ := mem_map.mp hc
      by_cases hstatus : (s.client p).status = .client
      · exact hlist p hp ip ((Client.counted_client hstatus).trans hip)
      · cases (hothers p hp hstatus).symm.trans hip
  | connect p ip sockhost => trivial
  | registerServer p => trivial
  | introduceServer p => trivial

/-- Runs with addresses of one family. -/
theorem stepsMeet_of_family (h : Good s) {ops : List Op}
    (hops : Run.StepsMeet step (OneFamily f) s ops) :
    Run.StepsMeet step Meets s ops := by
  induction ops generalizing s with
  | nil => trivial
  | cons op ops ih =>
    have hmeets := h.meets_of_family hops.1
    refine ⟨hmeets, fun s' hs' => ih ?_ (hops.2 s' hs')⟩
    obtain ⟨s₁, hs₁, hgood⟩ := h.step hmeets
    exact some.inj (hs₁.symm.trans hs') ▸ hgood

end Family

/-- Blocks of `n` bits, in which two users may be. -/
def someConf (n : ℕ) : Conf := ⟨n, 2, 64, 2, true⟩

/-- An address of the network `10.0.0.0/24`. -/
def someIp (n : UInt8) : SockIp := ⟨⟨.inet, [10, 0, 0, n]⟩, rfl⟩

/-- The names of a user of a host. -/
def someNames (host : String) : Names := ⟨"~joe".toList, host.toList⟩

/-- An I-line with limits. -/
def someIline : Iline := ⟨false, 2, 3, 1⟩

/-- A user registers, another is introduced, the lengths change, and the first one exits. -/
theorem global_cidr_small :
    (∃ s, Run.run step (start (someConf 24)) [.connect 1 (someIp 1) "10.0.0.1".toList,
      .registerUser 1 someIline (someNames "a.example") (someNames "a.example"),
      .introduceUser 2 "10.0.0.2".toList (someNames "b.example"), .rehash (someConf 16), .exit 1] =
      some s) ∧
    Run.Always step (fun s => Right s ∧ RefusesRightly s) (start (someConf 24))
      [.connect 1 (someIp 1) "10.0.0.1".toList,
        .registerUser 1 someIline (someNames "a.example") (someNames "a.example"),
        .introduceUser 2 "10.0.0.2".toList (someNames "b.example"), .rehash (someConf 16),
        .exit 1] :=
  global_cidr (stepsMeet_of_family (f := .inet) (good_start _) (by decide +kernel))

/-- The link of a server is counted when the lengths change. Then one user is in its block, and
another is one too many. -/
theorem rehash_counts_links : ∃ s q, Run.run step (start (someConf 24))
      [.connect 1 (someIp 1) "10.0.0.1".toList,
      .registerServer 1, .rehash (someConf 16),
      .introduceUser 2 "10.0.0.2".toList (someNames "b.example"),
      .connect 3 (someIp 3) "10.0.0.3".toList] = some s ∧
    s.globalTree.pfxAt 0 = some q ∧ counter s.globalTree 0 = 2 ∧ s.users q = 1 ∧ ¬Right s ∧
    attachIline s ((s.client 3).setNames (someNames "c.example")) someIline =
    some .tooManyGlobalCidr := by
  have hrun : (Run.run step (start (someConf 24)) [.connect 1 (someIp 1) "10.0.0.1".toList,
      .registerServer 1, .rehash (someConf 16), .introduceUser 2 "10.0.0.2".toList
        (someNames "b.example"),
      .connect 3 (someIp 3) "10.0.0.3".toList]).map
      (fun s => (s.globalTree.pfxAt 0, counter s.globalTree 0, s.users ((someIp 1).1.pfx 16),
        attachIline s ((s.client 3).setNames (someNames "c.example")) someIline)) =
      some (some ((someIp 1).1.pfx 16), 2, 1, some .tooManyGlobalCidr) := by
    decide +kernel
  obtain ⟨s, hs, h⟩ := map_eq_some_iff.mp hrun
  simp only [Prod.mk.injEq] at h
  obtain ⟨hpfx, hcounter, husers, htoo⟩ := h
  refine ⟨s, _, hs, hpfx, hcounter, husers, fun hright => ?_, htoo⟩
  have hcount := (hright.counted 0 _ hpfx).2.1
  rw [hcounter, husers] at hcount
  cases hcount

end Ratbox.GlobalCidr
