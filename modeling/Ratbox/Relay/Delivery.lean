import Ratbox.Lib.Run
import Ratbox.Lib.Uplinks
import Ratbox.Relay.Sending

/-!
# Messages to a channel over a tree of servers

A server that takes a message sends it to its own members, and on over its links, but not over the
link it came from. In a tree of servers that know the same of the channel, each member gets one
copy.

Source: `src/send.c`, lines 489–672, and `modules/core/m_message.c`, lines 154–510.

## Main definitions

* `Relay.World`: the tree of servers, seen from that of the source, and what they know of the
  channel.
* `Relay.Agrees`: what a server knows is so.
* `Relay.Net`: the servers, and the copies that are on their way.

## Main results

* `Relay.exactly_once`: each member that a message is for gets one copy, and each client that shares
  a channel with a user.
-/

namespace Ratbox.Relay

open Channel (MemberFlags MemberList)
open Run Uplinks List Option Function

/-! ### The network -/

/-- The servers, the copies that are on their way over links, all copies that were sent over links,
and the clients that got a copy. -/
structure Net where
  server : ServerId → Server
  flight : List (ServerId × ServerId)
  relayed : List (ServerId × ServerId)
  delivered : List ClientId

/-- The link over which a line is sent. -/
def linkOf (x : ServerId) : Conn → Option (ServerId × ServerId)
  | .server y => some (x, y)
  | .client _ => none

/-- The client that a line is sent to. -/
def clientOf : Conn → Option ClientId
  | .client c => some c
  | .server _ => none

/-- A server has sent a message. -/
def Net.post (n : Net) (x : ServerId) (r : Sending) : Net where
  server := update n.server x r.1
  flight := n.flight ++ r.2.filterMap (linkOf x)
  relayed := n.relayed ++ r.2.filterMap (linkOf x)
  delivered := n.delivered ++ r.2.filterMap clientOf

/-- The source has sent the message to its server. -/
def Net.start (server : ServerId → Server) (root : ServerId) (source : ClientId) (type : MsgType) :
    Net :=
  (⟨server, [], [], []⟩ : Net).post root (mMessage (server root) (.client source) source type)

/-- A copy comes to the end of its link, or a server sends another message, and stamps
connections. -/
inductive Op
  | receive (i : ℕ)
  | other (x : ServerId) (stamped : List Conn)

/-- Another message is sent. -/
def Server.other (s : Server) (stamped : List Conn) : Server :=
  { s.nextSerial with serial := fun c => if c ∈ stamped then
    s.nextSerial.currentSerial else s.serial c }

/-- A step. -/
def step (source : ClientId) (type : MsgType) (n : Net) : Op → Option Net
  | .receive i => do
    let (x, y) ← n.flight[i]?
    some (({ n with flight := n.flight.eraseIdx i } : Net).post y (mMessage (n.server y) (.server x)
      source type))
  | .other x stamped => some { n with server := update n.server x ((n.server x).other stamped) }

/-! ### The specification -/

/-- A tree of servers with the server of the source at its root; and, for the channel, the server of
each member, its status and whether it is deaf, and whether only members with a status may send. -/
structure World where
  tree : Uplinks ServerId
  servers : Finset ServerId
  root : ServerId
  source : ClientId
  home : ClientId → ServerId
  flags : ClientId → Option MemberFlags
  deaf : ClientId → Bool
  moderated : Bool
  root_mem : root ∈ servers
  up_root : tree.up root = none
  up_mem : ∀ x ∈ servers, ∀ y, tree.up x = some y → y ∈ servers
  below_root : ∀ x ∈ servers, tree.Below root x
  home_mem : ∀ c, (flags c).isSome → home c ∈ servers
  home_source : home source = root
  member_source : (flags source).isSome

/-- The message is for the client: it is a member other than the source, has the status, and is not
deaf. -/
def World.Eligible (w : World) (type : MsgType) (c : ClientId) : Prop :=
  ∃ flags, w.flags c = some flags ∧ type.wants flags = true ∧ w.deaf c = false ∧ c ≠ w.source

/-- What a server knows is so: its members have their statuses, those of other servers are behind
the link that leads to them, deaf clients are known, and `+m`. Its links are alive, have `CAP_CHW`,
and it takes messages with a target. -/
structure Agrees (w : World) (x : ServerId) (s : Server) : Prop where
  members : ∀ c flags, ⟨c, flags⟩ ∈ s.allMembers ↔ w.flags c = some flags
  wellFormed : s.Members
  own : s.OwnConns
  fresh : s.Fresh
  here : ∀ c, (w.flags c).isSome → w.home c = x → s.fromLink c = .client c
  there : ∀ c, (w.flags c).isSome → w.home c ≠ x → ∃ y, s.fromLink c = .server y ∧
    ((w.tree.up y = some x ∧ w.tree.Below y (w.home c)) ∨ (w.tree.up x = some y ∧
      ¬w.tree.Below x (w.home c)))
  deaf : ∀ c, (w.flags c).isSome → s.deaf c = w.deaf c
  moderated : s.moderated = w.moderated
  chw : ∀ y, s.chw y = true
  links : ∀ y, s.Alive (.server y)
  targets : 0 < s.maxTargets

section Agrees

variable {w : World} {x : ServerId} {s : Server} {type : MsgType}

/-- The connection that a message comes to a server from. -/
def World.cameFrom (w : World) (x : ServerId) : Conn :=
  match w.tree.up x with
  | none => .client w.source
  | some y => .server y

section

variable (h : Agrees w x s)
include h

theorem Agrees.flags_of_mem {m : Member} (hm : m ∈ s.allMembers) :
    w.flags m.client = some m.flags :=
  (h.members m.client m.flags).mp hm

/-- A server knows each member. -/
theorem Agrees.findMember {c : ClientId} {flags : MemberFlags} (hc : w.flags c = some flags) :
    s.findMember c = some ⟨c, flags⟩ := by
  have hmem := (h.members c flags).mpr hc
  cases hfind : s.findMember c with
  | none => simpa using find?_eq_none.mp hfind _ hmem
  | some m =>
    have hm := h.flags_of_mem (mem_of_find?_eq_some hfind)
    have hclient : m.client = c := by simpa using find?_some hfind
    rw [hclient, hc] at hm
    rw [← hclient, some.inj hm]

/-- A client of the server is reached exactly if the message is for it. -/
theorem Agrees.leads_client (c : ClientId) :
    Leads s (w.cameFrom x) type s.allMembers (.client c) ↔ w.Eligible type c ∧ w.home c = x := by
  constructor
  · rintro ⟨m, hm, hw, hfrom⟩
    have hclient := h.own _ _ hfrom
    have hflags := h.flags_of_mem hm
    subst hclient
    have hsome : (w.flags m.client).isSome := by rw [hflags]; rfl
    have hhome : w.home m.client = x := by
      by_contra hne
      obtain ⟨y, hy, -⟩ := h.there m.client hsome hne
      rw [hfrom] at hy
      cases hy
    refine ⟨⟨m.flags, hflags, hw.status, h.deaf m.client hsome ▸ hw.deaf, fun hsource => ?_⟩, hhome⟩
    have hup : w.tree.up x = none := by rw [← hhome, hsource, w.home_source, w.up_root]
    refine hw.one ?_
    rw [hfrom, hsource, World.cameFrom, hup]
  · rintro ⟨⟨flags, hflags, hstatus, hdeaf, hsource⟩, hhome⟩
    have hsome : (w.flags c).isSome := by rw [hflags]; rfl
    have hfrom := h.here c hsome hhome
    refine ⟨⟨c, flags⟩, (h.members c flags).mpr hflags, ⟨?_, hstatus, (h.deaf c hsome).trans hdeaf,
      ?_⟩, hfrom⟩
    · rw [hfrom, World.cameFrom]
      split
      · exact fun heq => hsource (Conn.client.inj heq)
      · simp
    · intro y hy
      rw [hfrom] at hy
      cases hy

/-- A message is sent over a link exactly if it is for a member behind it. -/
theorem Agrees.leads_server (y : ServerId) :
    Leads s (w.cameFrom x) type s.allMembers (.server y) ↔
      w.tree.up y = some x ∧ ∃ c, w.Eligible type c ∧ w.tree.Below y (w.home c) := by
  constructor
  · rintro ⟨m, hm, hw, hfrom⟩
    have hflags := h.flags_of_mem hm
    have hsome : (w.flags m.client).isSome := by rw [hflags]; rfl
    have hhome : w.home m.client ≠ x := by
      intro heq
      rw [h.here m.client hsome heq] at hfrom
      cases hfrom
    obtain ⟨y', hy', hroute⟩ := h.there m.client hsome hhome
    obtain rfl := Conn.server.inj (hy'.symm.trans hfrom)
    obtain ⟨hup, hbelow⟩ | ⟨hup, -⟩ := hroute
    · refine ⟨hup, m.client, ⟨m.flags, hflags, hw.status, h.deaf m.client hsome ▸ hw.deaf,
        fun hsource => ?_⟩, hbelow⟩
      rw [hsource, w.home_source] at hbelow
      obtain rfl | ⟨z, hz, -⟩ := below_iff.mp hbelow
      · rw [w.up_root] at hup
        cases hup
      · rw [w.up_root] at hz
        cases hz
    · refine absurd ?_ hw.one
      rw [hfrom, World.cameFrom, hup]
  · rintro ⟨hup, c, ⟨flags, hflags, hstatus, hdeaf, -⟩, hbelow⟩
    have hsome : (w.flags c).isSome := by rw [hflags]; rfl
    have hhome : w.home c ≠ x := fun heq => not_below_up hup (heq ▸ hbelow)
    obtain ⟨y', hy', hroute⟩ := h.there c hsome hhome
    have hsame : y' = y := by
      obtain ⟨hup', hbelow'⟩ | ⟨-, hnot⟩ := hroute
      · exact child_unique hup' hup hbelow' hbelow
      · exact absurd ((Below.of_up hup).trans hbelow) hnot
    subst hsame
    refine ⟨⟨c, flags⟩, (h.members c flags).mpr hflags, ⟨?_, hstatus, (h.deaf c hsome).trans hdeaf,
      ?_⟩, hy'⟩
    · rw [hy', World.cameFrom]
      split
      · simp
      · next z hz =>
        intro heq
        obtain rfl := Conn.server.inj heq
        exact not_below_up hup (Below.of_up hz)
    · exact fun z _ => .inr (h.chw z)

/-- A server that is not that of the source takes the message that the server of the source took. -/
theorem Agrees.accepts {s₀ : Server} (h₀ : Agrees w w.root s₀) (hx : x ≠ w.root)
    (haccepts : accepts s₀ w.source type = true) : Relay.accepts s w.source type = true := by
  obtain ⟨flags, hflags⟩ := isSome_iff_exists.mp w.member_source
  have hmine : s.myClient w.source = false := by
    obtain ⟨y, hy, -⟩ := h.there w.source w.member_source (by rw [w.home_source]; exact hx.symm)
    simp [Server.myClient, hy]
  rw [Relay.accepts, Bool.and_eq_true] at haccepts ⊢
  refine ⟨decide_eq_true h.targets, ?_⟩
  replace haccepts := haccepts.2
  rw [canSend, floodAttackChannel, h₀.findMember hflags, h₀.moderated] at haccepts
  rw [canSend, floodAttackChannel, h.findMember hflags, h.moderated, hmine]
  by_cases htype : type = .all
  · rw [if_pos htype] at haccepts ⊢
    by_cases hvoiced : isChanopVoiced (some ⟨w.source, flags⟩) = true
    · simp [hvoiced]
    · cases hmoderated : w.moderated with
      | true =>
        by_cases hresv : s₀.myClient w.source && s₀.resvBlocks w.source
        · simp [hresv] at haccepts
        · simp [hresv, hvoiced, hmoderated] at haccepts
      | false => simp [hvoiced]
  · rw [if_neg htype] at haccepts ⊢
    exact haccepts

end

end Agrees

/-! ### One server -/

/-- What comes of a message that a server takes. -/
structure Handled (w : World) (type : MsgType) (x : ServerId) (s : Server) (r : Sending) :
    Prop where
  agrees : Agrees w x r.1
  alive : ∀ c, r.1.Alive c ↔ s.Alive c
  nodup : r.2.Nodup
  client : ∀ c, .client c ∈ r.2 ↔ s.Alive (.client c) ∧ w.Eligible type c ∧ w.home c = x
  server : ∀ y, .server y ∈ r.2 ↔ w.tree.up y = some x ∧ ∃ c, w.Eligible type c ∧
    w.tree.Below y (w.home c)

section Handled

variable {w : World} {x : ServerId} {s : Server} {type : MsgType}

/-- A server whose numbers and errors change knows the same. -/
theorem Agrees.of_same (h : Agrees w x s) {s' : Server}
    (hsame : s' = { s with
      ioError := s'.ioError, serial := s'.serial, currentSerial := s'.currentSerial })
    (hfresh : s'.Fresh) (halive : ∀ y, s'.Alive (.server y)) : Agrees w x s' := by
  have hall : s'.allMembers = s.allMembers := by rw [hsame]; rfl
  refine ⟨fun c flags => hall ▸ h.members c flags, ⟨hall ▸ h.wellFormed.nodup, ?_⟩, ?_, hfresh, ?_,
    ?_, ?_, ?_, ?_, halive, ?_⟩
  · rw [hsame]
    exact h.wellFormed.op
  · rw [hsame]
    exact h.own
  · rw [hsame]
    exact h.here
  · rw [hsame]
    exact h.there
  · rw [hsame]
    exact h.deaf
  · rw [hsame]
    exact h.moderated
  · rw [hsame]
    exact h.chw
  · rw [hsame]
    exact h.targets

/-- A server that takes a message sends it on, and to its own members. -/
theorem Agrees.handled (h : Agrees w x s) (haccepts : Relay.accepts s w.source type = true) :
    Handled w type x s (mMessage s (w.cameFrom x) w.source type) := by
  rw [mMessage, if_pos haccepts]
  have hspec := sendtoChannelFlags_spec h.fresh h.own h.wellFormed (w.cameFrom x) type
  generalize sendtoChannelFlags s (w.cameFrom x) type = r at hspec
  have hroom : r.1.room = s.room := by rw [hspec.same]; rfl
  have halive : ∀ c, r.1.Alive c ↔ s.Alive c := by
    intro c
    have hio := hspec.ioError c
    rw [Server.Alive, Server.Alive, hroom]
    refine and_congr_left fun hc => ?_
    rw [← Bool.not_eq_true, ← Bool.not_eq_true, hio]
    simp [Server.nextSerial, hc]
  refine ⟨h.of_same ?_ hspec.fresh fun y => (halive _).mpr (h.links y), halive, hspec.nodup,
    fun c => ?_, fun y => ?_⟩
  · rw [hspec.same]
    rfl
  · rw [hspec.mem, h.leads_client]
    rfl
  · rw [hspec.mem, h.leads_server]
    exact and_iff_right (h.links y)

theorem Agrees.other (h : Agrees w x s) (stamped : List Conn) : Agrees w x (s.other stamped) := by
  refine h.of_same rfl (fun c => ?_) h.links
  dsimp only [Server.other]
  split
  · exact le_refl _
  · exact Nat.le_succ_of_le (h.fresh c)

end Handled

/-! ### Runs -/

/-- The invariant of the runs, with the servers that took the message. -/
structure Inv (w : World) (type : MsgType) (server : ServerId → Server) (took : ServerId → Prop)
    (n : Net) : Prop where
  agrees : ∀ x ∈ w.servers, Agrees w x (n.server x)
  alive : ∀ x c, (n.server x).Alive c ↔ (server x).Alive c
  closed : ∀ x y, w.tree.up y = some x → took y → took x
  flight : ∀ x y, (x, y) ∈ n.flight ↔ (x, y) ∈ n.relayed ∧ ¬took y
  relayed : ∀ x y, (x, y) ∈ n.relayed ↔
    took x ∧ w.tree.up y = some x ∧ ∃ c, w.Eligible type c ∧ w.tree.Below y (w.home c)
  delivered : ∀ c, c ∈ n.delivered ↔
    took (w.home c) ∧ w.Eligible type c ∧ (server (w.home c)).Alive (.client c)
  flight_nodup : n.flight.Nodup
  relayed_nodup : n.relayed.Nodup
  delivered_nodup : n.delivered.Nodup

section Runs

variable {w : World} {type : MsgType} {server : ServerId → Server} {took : ServerId → Prop}
  {n n' : Net} {out : List Conn} {x y : ServerId}

theorem mem_links {z : ServerId} : (y, z) ∈ out.filterMap (linkOf x) ↔ y = x ∧ .server z ∈ out := by
  rw [mem_filterMap]
  constructor
  · rintro ⟨c, hc, heq⟩
    cases c with
    | client c => cases heq
    | server u =>
      cases heq
      exact ⟨rfl, hc⟩
  · rintro ⟨rfl, hz⟩
    exact ⟨_, hz, rfl⟩

theorem mem_clients {c : ClientId} : c ∈ out.filterMap clientOf ↔ .client c ∈ out := by
  rw [mem_filterMap]
  constructor
  · rintro ⟨d, hd, heq⟩
    cases d with
    | client d =>
      cases heq
      exact hd
    | server u => cases heq
  · exact fun hc => ⟨_, hc, rfl⟩

theorem nodup_links (h : out.Nodup) : (out.filterMap (linkOf x)).Nodup := by
  refine h.filterMap fun c c' e hc hc' => ?_
  cases c with
  | client c => cases hc
  | server y =>
    cases c' with
    | client c => cases hc'
    | server z => exact congrArg Conn.server (Prod.mk.inj (some.inj (hc.trans hc'.symm))).2

theorem nodup_clients (h : out.Nodup) : (out.filterMap clientOf).Nodup := by
  refine h.filterMap fun c c' e hc hc' => ?_
  cases c with
  | server y => cases hc
  | client c =>
    cases c' with
    | server z => cases hc'
    | client c' => exact congrArg Conn.client (some.inj (hc.trans hc'.symm))

/-- A server takes the message: the copies that were on their way to it are gone, and those that it
sends are on theirs. -/
theorem Inv.post (h : Inv w type server took n) (hup : ∀ x, w.tree.up y = some x → took x)
    (hnew : ¬took y) {flight : List (ServerId × ServerId)} (hnodup : flight.Nodup)
    (hflight : ∀ u z, (u, z) ∈ flight ↔ (u, z) ∈ n.flight ∧ z ≠ y) {r : Sending}
    (hr : Handled w type y (n.server y) r) :
    Inv w type server (fun x => took x ∨ x = y) (({ n with flight := flight } : Net).post y r) := by
  have hlink : ∀ u z, (u, z) ∈ r.2.filterMap (linkOf y) ↔
      u = y ∧ w.tree.up z = some y ∧ ∃ c, w.Eligible type c ∧ w.tree.Below z (w.home c) := by
    intro u z
    rw [mem_links, hr.server]
  -- what the server sends on was not sent before, as it had not taken the message
  have hrelayed : ∀ e ∈ r.2.filterMap (linkOf y), e ∉ n.relayed := by
    rintro ⟨u, z⟩ he hold
    obtain ⟨rfl, -⟩ := (hlink u z).mp he
    exact hnew ((h.relayed u z).mp hold).1
  have hdelivered : ∀ c ∈ r.2.filterMap clientOf, c ∉ n.delivered := by
    intro c hc hold
    obtain ⟨-, -, hhome⟩ := (hr.client c).mp (mem_clients.mp hc)
    exact hnew (hhome ▸ ((h.delivered c).mp hold).1)
  refine ⟨fun x hx => ?_, fun x c => ?_, fun x z hz => ?_, fun u z => ?_, fun u z => ?_,
    fun c => ?_, ?_, ?_, ?_⟩
  · dsimp only [Net.post]
    by_cases hxy : x = y
    · subst hxy
      rw [update_self]
      exact hr.agrees
    · rw [update_of_ne hxy]
      exact h.agrees x hx
  · dsimp only [Net.post]
    by_cases hxy : x = y
    · subst hxy
      rw [update_self, hr.alive, h.alive]
    · rw [update_of_ne hxy, h.alive]
  · rintro (htook | rfl)
    · exact .inl (h.closed x z hz htook)
    · exact .inl (hup x hz)
  · dsimp only [Net.post]
    rw [mem_append, mem_append, hflight, h.flight, hlink, not_or]
    constructor
    · rintro (⟨⟨hold, htook⟩, hne⟩ | hsent)
      · exact ⟨.inl hold, htook, hne⟩
      · exact ⟨.inr hsent, fun htook => hnew (h.closed y z hsent.2.1 htook), up_ne hsent.2.1⟩
    · rintro ⟨hold | hsent, htook, hne⟩
      · exact .inl ⟨⟨hold, htook⟩, hne⟩
      · exact .inr hsent
  · dsimp only [Net.post]
    rw [mem_append, h.relayed, hlink, or_and_right]
    refine or_congr_right (and_congr_right ?_)
    rintro rfl
    rfl
  · dsimp only [Net.post]
    rw [mem_append, h.delivered, mem_clients, hr.client, h.alive, or_and_right]
    refine or_congr_right ⟨?_, ?_⟩
    · rintro ⟨halive, heligible, rfl⟩
      exact ⟨rfl, heligible, halive⟩
    · rintro ⟨rfl, heligible, halive⟩
      exact ⟨halive, heligible, rfl⟩
  · refine nodup_append'.mpr ⟨hnodup, nodup_links hr.nodup, fun e hold hsent => hrelayed e hsent ?_⟩
    obtain ⟨u, z⟩ := e
    exact ((h.flight u z).mp ((hflight u z).mp hold).1).1
  · exact nodup_append'.mpr ⟨h.relayed_nodup, nodup_links hr.nodup, fun e hold hsent => hrelayed e
      hsent hold⟩
  · exact nodup_append'.mpr ⟨h.delivered_nodup, nodup_clients hr.nodup, fun c hold hsent =>
      hdelivered c hsent hold⟩

/-- The server of the source takes the message. -/
theorem Inv.start (hagree : ∀ x ∈ w.servers, Agrees w x (server x))
    (haccepts : accepts (server w.root) w.source type = true) :
    Inv w type server (fun x => x = w.root) (Net.start server w.root w.source type) := by
  have hempty : Inv w type server (fun _ => False) ⟨server, [], [], []⟩ := by
    refine ⟨hagree, fun _ _ => Iff.rfl, fun _ _ _ => id, ?_, ?_, ?_, .nil, .nil, .nil⟩ <;> simp
  have hfrom : w.cameFrom w.root = .client w.source := by rw [World.cameFrom, w.up_root]
  have hhandled := (hagree _ w.root_mem).handled haccepts
  rw [hfrom] at hhandled
  have hpost := hempty.post (by simp [w.up_root]) not_false .nil (by simp) hhandled
  simp only [false_or] at hpost
  exact hpost

/-- A server above one of the tree is one of the tree. -/
theorem World.mem_of_below (hbelow : w.tree.Below x y) (hy : y ∈ w.servers) : x ∈ w.servers := by
  induction hbelow with
  | refl => exact hy
  | down _ hup ih => exact ih (w.up_mem _ hy _ hup)

/-- The copy on its way comes to a server of the tree that took none before. -/
theorem Inv.arrives (h : Inv w type server took n) (hmem : (x, y) ∈ n.flight) :
    y ∈ w.servers ∧ w.tree.up y = some x ∧ took x ∧ ¬took y := by
  obtain ⟨hrelayed, hnew⟩ := (h.flight x y).mp hmem
  obtain ⟨htook, hup, c, ⟨flags, hflags, -⟩, hbelow⟩ := (h.relayed x y).mp hrelayed
  exact ⟨w.mem_of_below hbelow (w.home_mem c (by rw [hflags]; rfl)), hup, htook, hnew⟩

/-- A copy that comes to the end of its link is taken. -/
theorem Inv.receive (hagree : Agrees w w.root (server w.root))
    (haccepts : accepts (server w.root) w.source type = true) (h : Inv w type server took n) {i : ℕ}
    (hi : n.flight[i]? = some (x, y)) :
    Inv w type server (fun z => took z ∨ z = y)
      (({ n with flight := n.flight.eraseIdx i } : Net).post y
        (mMessage (n.server y) (.server x) w.source type)) := by
  obtain ⟨hy, hup, htook, hnew⟩ := h.arrives (mem_of_getElem? hi)
  have hroot : y ≠ w.root := by
    rintro rfl
    rw [w.up_root] at hup
    cases hup
  have hhandled := (h.agrees y hy).handled ((h.agrees y hy).accepts hagree hroot haccepts)
  have hfrom : w.cameFrom y = .server x := by rw [World.cameFrom, hup]
  rw [hfrom] at hhandled
  refine h.post (fun z hz => ?_) hnew (h.flight_nodup.eraseIdx i) (fun u z => ?_) hhandled
  · cases hup.symm.trans hz
    exact htook
  · obtain ⟨hlt, hget⟩ := List.getElem?_eq_some_iff.mp hi
    rw [← h.flight_nodup.erase_getElem i hlt, hget, h.flight_nodup.mem_erase_iff, and_comm]
    refine and_congr_right fun hmem => ⟨?_, ?_⟩
    · rintro hne rfl
      cases (h.arrives hmem).2.1.symm.trans hup
      exact hne rfl
    · rintro hne heq
      exact hne (Prod.mk.inj heq).2

/-- Another message changes nothing. -/
theorem Inv.other (h : Inv w type server took n) (x : ServerId) (stamped : List Conn) :
    Inv w type server took { n with server := update n.server x ((n.server x).other stamped) } := by
  refine { h with agrees := fun y hy => ?_, alive := fun y c => ?_ }
  · dsimp only
    by_cases hyx : y = x
    · subst hyx
      rw [update_self]
      exact (h.agrees y hy).other stamped
    · rw [update_of_ne hyx]
      exact h.agrees y hy
  · dsimp only
    by_cases hyx : y = x
    · subst hyx
      rw [update_self]
      exact h.alive y c
    · rw [update_of_ne hyx]
      exact h.alive y c

/-- The steps keep the invariant. -/
theorem Inv.step (hagree : Agrees w w.root (server w.root))
    (haccepts : accepts (server w.root) w.source type = true) (h : Inv w type server took n)
    {op : Op} (hstep : step w.source type n op = some n') :
    ∃ took', (∀ x, took x → took' x) ∧ Inv w type server took' n' := by
  cases op with
  | receive i =>
    obtain ⟨⟨x, y⟩, hi, hn⟩ := bind_eq_some_iff.mp hstep
    cases hn
    exact ⟨_, fun _ => .inl, h.receive hagree haccepts hi⟩
  | other x stamped =>
    cases hstep
    exact ⟨took, fun _ => id, h.other x stamped⟩

/-- Every link with a member behind it that the message is for was passed, when no copy is on its
way. -/
theorem Inv.took_of_below (h : Inv w type server took n) (hdone : n.flight = []) {c : ClientId}
    (hc : w.Eligible type c) (hx : took x) (hbelow : w.tree.Below x y)
    (hy : w.tree.Below y (w.home c)) : took y := by
  induction hbelow with
  | refl => exact hx
  | @down y z _ hup ih =>
    have hrelayed := (h.relayed y z).mpr ⟨ih ((Below.of_up hup).trans hy), hup, c, hc, hy⟩
    by_contra hnot
    have hflight := (h.flight y z).mpr ⟨hrelayed, hnot⟩
    rw [hdone] at hflight
    cases hflight

/-- At most one copy comes to a server over a link. -/
theorem Inv.length_le (h : Inv w type server took n) : n.relayed.length ≤ w.servers.card := by
  have hnodup : (n.relayed.map Prod.snd).Nodup := by
    refine h.relayed_nodup.map_on ?_
    rintro ⟨x, y⟩ he ⟨x', y'⟩ he' heq
    obtain rfl : y = y' := heq
    cases ((h.relayed x y).mp he).2.1.symm.trans ((h.relayed x' y).mp he').2.1
    rfl
  rw [← length_map Prod.snd, ← toFinset_card_of_nodup hnodup]
  refine Finset.card_le_card fun y hy => ?_
  obtain ⟨⟨x, y⟩, he, rfl⟩ := mem_map.mp (mem_toFinset.mp hy)
  obtain ⟨-, -, c, ⟨flags, hflags, -⟩, hbelow⟩ := (h.relayed x y).mp he
  exact w.mem_of_below hbelow (w.home_mem c (by rw [hflags]; rfl))

/-- The copies that are on their way come to an end. -/
theorem Inv.exists_done (hagree : Agrees w w.root (server w.root))
    (haccepts : accepts (server w.root) w.source type = true) (h : Inv w type server took n) :
    ∃ ops n', run (Relay.step w.source type) n ops = some n' ∧ n'.flight = [] := by
  -- each copy that comes to the end of its link was sent, and no more are sent than there are
  -- servers
  obtain ⟨left, hleft⟩ : ∃ left, left + n.relayed.length = w.servers.card + n.flight.length :=
    ⟨_, Nat.sub_add_cancel (h.length_le.trans (Nat.le_add_right _ _))⟩
  induction left using Nat.strong_induction_on generalizing n took with
  | _ left ih =>
    by_cases hdone : n.flight = []
    · exact ⟨[], n, rfl, hdone⟩
    obtain ⟨e, rest, hflight⟩ := exists_cons_of_ne_nil hdone
    have hi : n.flight[0]? = some (e.1, e.2) := by rw [hflight, getElem?_cons_zero]
    have hinv := h.receive hagree haccepts hi
    obtain ⟨ops, n', hrun, hempty⟩ := ih (left - 1) (by
      have hpos := length_pos_of_mem (mem_of_getElem? hi)
      have hle := h.length_le
      omega) hinv (by
      have hpos := length_pos_of_mem (mem_of_getElem? hi)
      have hle := h.length_le
      simp only [Net.post, length_append, length_eraseIdx, hpos, if_true]
      omega)
    refine ⟨.receive 0 :: ops, n', ?_, hempty⟩
    rw [run, Relay.step, hi]
    exact hrun

end Runs

/-! ### Deliveries -/

/-- Each member that the message is for gets one copy, at most one is sent over each link, and none
comes back. -/
structure ExactlyOnce (w : World) (type : MsgType) (server : ServerId → Server) (n : Net) :
    Prop where
  relayed_nodup : n.relayed.Nodup
  no_return : ∀ x y, (x, y) ∈ n.relayed → (y, x) ∉ n.relayed
  delivered_nodup : n.delivered.Nodup
  eligible : ∀ c ∈ n.delivered, w.Eligible type c
  delivered : n.flight = [] → ∀ c, c ∈ n.delivered ↔ w.Eligible type c ∧
    (server (w.home c)).Alive (.client c)
  ends : ∃ ops n', run (step w.source type) n ops = some n' ∧ n'.flight = []

theorem Inv.exactlyOnce {w : World} {type : MsgType} {server : ServerId → Server}
    {took : ServerId → Prop} {n : Net} (hagree : Agrees w w.root (server w.root))
    (haccepts : accepts (server w.root) w.source type = true) (h : Inv w type server took n)
    (hroot : took w.root) : ExactlyOnce w type server n where
  relayed_nodup := h.relayed_nodup
  no_return x y hxy hyx := not_below_up ((h.relayed x y).mp hxy).2.1
    (.of_up ((h.relayed y x).mp hyx).2.1)
  delivered_nodup := h.delivered_nodup
  eligible c hc := ((h.delivered c).mp hc).2.1
  delivered hdone c := by
    rw [h.delivered]
    refine and_iff_right_of_imp fun hc => ?_
    obtain ⟨flags, hflags, -⟩ := hc.1
    have hhome := w.home_mem c (by rw [hflags]; rfl)
    exact h.took_of_below hdone hc.1 hroot (w.below_root _ hhome) .refl
  ends := h.exists_done hagree haccepts

/-- **One copy each.** In a tree of servers that know the same of a channel, each member that a
message is for gets one copy, and nobody else does; no link carries two copies. A message to the
clients that share a channel with a user comes to each of them once. -/
theorem exactly_once :
    (∀ (w : World) (type : MsgType) (server : ServerId → Server),
      (∀ x ∈ w.servers, Agrees w x (server x)) → accepts (server w.root) w.source type = true →
        ∀ ops n, run (step w.source type) (Net.start server w.root w.source type) ops = some n →
          ExactlyOnce w type server n) ∧
    (∀ s : Server, s.Fresh → ∀ user channels,
      (sendtoCommonChannelsLocal s user channels).2.Nodup ∧
        ∀ c, c ∈ (sendtoCommonChannelsLocal s user channels).2 ↔
          s.Alive c ∧
          (Shares channels.flatten c ∨ (s.myClient user = true ∧ c = .client user))) := by
  refine ⟨fun w type server hagree haccepts ops n hrun => ?_, fun s hfresh user channels => ?_⟩
  · have hroot := hagree _ w.root_mem
    have hok : StepsMeet (step w.source type) (fun _ _ => True)
      (Net.start server w.root w.source type) ops :=
      StepsMeet.of_forall (fun _ _ => trivial) _ ops
    obtain ⟨took, htook, hinv⟩ : ∃ took : ServerId → Prop, took w.root ∧
        Inv w type server took n := by
      refine invariant (fun n => ∃ took : ServerId → Prop, took w.root ∧ Inv w type server took n)
        ?_ ⟨fun x => x = w.root, rfl, .start hagree haccepts⟩ hok hrun
      rintro m op m' ⟨took, htook, hinv⟩ - hstep
      obtain ⟨took', hsub, hinv'⟩ := hinv.step hroot haccepts hstep
      exact ⟨took', hsub _ htook, hinv'⟩
    exact hinv.exactlyOnce hroot haccepts htook
  · have hspec := sendtoCommonChannelsLocal_spec hfresh user channels
    exact ⟨hspec.nodup, hspec.mem⟩

/-! ### Two servers -/

/-- Clients 1 and 3 on server 0, and client 2 on server 1. -/
def pair : World where
  tree :=
    { up := fun x => if x = 1 then some 0 else none
      depth := fun x => if x = 1 then 1 else 0
      depth_up := by
        intro x y hup
        split_ifs at hup with hx
        cases hup
        simp [hx] }
  servers := {0, 1}
  root := 0
  source := 1
  home := fun c => if c = 2 then 1 else 0
  flags := fun c => if c ∈ [1, 2, 3] then some MemberFlags.peon else none
  deaf := fun _ => false
  moderated := false
  root_mem := by decide
  up_root := rfl
  up_mem := by decide
  below_root := by
    intro x hx
    obtain rfl | rfl : x = 0 ∨ x = 1 := by simpa using hx
    · exact .refl
    · exact .of_up rfl
  home_mem := by
    intro c _
    split_ifs <;> decide
  home_source := rfl
  member_source := rfl

/-- The servers. -/
def pairServer (x : ServerId) : Server where
  members := fun l =>
    match l with
    | .noop => [⟨1, MemberFlags.peon⟩, ⟨2, MemberFlags.peon⟩, ⟨3, MemberFlags.peon⟩]
    | .op => []
  noprivmsgs := false
  moderated := false
  resvBlocks := fun _ => false
  quieted := fun _ => false
  flooded := false
  maxTargets := 4
  fromLink := fun c => if c = 2 then (if x = 1 then .client 2 else .server 1) else if x = 1 then
    .server 0 else .client c
  deaf := fun _ => false
  ioError := fun _ => false
  room := fun _ => true
  chw := fun _ => true
  serial := fun _ => 0
  currentSerial := 0

theorem agrees_pair (x : ServerId) (hx : x ∈ pair.servers) : Agrees pair x (pairServer x) := by
  have hx : x = 0 ∨ x = 1 := by simpa [pair] using hx
  have hmembers : (pairServer x).Members := by
    refine ⟨show [1, 2, 3].Nodup by decide, fun m hm => ?_⟩
    obtain rfl | rfl | rfl : m = ⟨1, .peon⟩ ∨ m = ⟨2, .peon⟩ ∨ m = ⟨3, .peon⟩ := by
      simpa [pairServer] using hm
    all_goals rfl
  refine ⟨fun c flags => ?_, hmembers, fun c c' hc => ?_, fun _ => Nat.zero_le _, fun c _ hhome =>
    ?_,
    fun c _ hhome => ?_, fun _ _ => rfl, rfl, fun _ => rfl, fun _ => ⟨rfl, rfl⟩, show (0 : ℤ) < 4 by
      decide⟩
  · simp only [Server.allMembers, pairServer, pair, append_nil, mem_cons, not_mem_nil, or_false,
      Member.mk.injEq]
    by_cases hc : c = 1 ∨ c = 2 ∨ c = 3
    · simp [hc, ← or_and_right, eq_comm]
    · simp [hc, ← or_and_right]
  · simp only [pairServer] at hc
    split_ifs at hc with h₁ h₂ h₂
    · exact (Conn.client.inj hc).symm.trans h₁.symm
    · exact (Conn.client.inj hc).symm
  · obtain rfl | rfl := hx
    · have hc : c ≠ 2 := by
        rintro rfl
        cases hhome
      simp [pairServer, hc]
    · have hc : c = 2 := by
        by_contra hne
        simp [pair, hne] at hhome
      simp [pairServer, hc]
  · obtain rfl | rfl := hx
    · have hc : c = 2 := by
        by_contra hne
        exact hhome (if_neg hne)
      exact ⟨1, by simp [pairServer, hc], .inl ⟨rfl, by simpa [pair, hc] using .refl⟩⟩
    · have hc : c ≠ 2 := fun heq => hhome (if_pos heq)
      refine ⟨0, by simp [pairServer, hc], .inr ⟨rfl, ?_⟩⟩
      rw [show pair.home c = 0 from if_neg hc]
      exact not_below_up rfl

/-- The message of client 1 comes to clients 2 and 3. -/
theorem exactly_once_pair :
    (∃ n, run (step 1 .all) (Net.start pairServer 0 1 .all) [.receive 0] = some n ∧
      n.delivered = [3, 2] ∧ n.relayed = [(0, 1)] ∧ ExactlyOnce pair .all pairServer n) ∧
    (sendtoCommonChannelsLocal (pairServer 0) 1 [[1, 3], [3]]).2 = [.client 1, .client 3] ∧
      (sendtoCommonChannelsLocal (pairServer 0) 1 [[1, 3], [3]]).2.Nodup := by
  refine ⟨⟨_, rfl, by decide +kernel, by decide +kernel, ?_⟩, by decide +kernel, ?_⟩
  · exact exactly_once.1 pair .all pairServer agrees_pair (by decide +kernel) [.receive 0] _ rfl
  · exact (exactly_once.2 (pairServer 0) (fun _ => Nat.zero_le _) 1 [[1, 3], [3]]).1

/-- The servers, where server 1 has the mode `+m`. -/
def lostServer (x : ServerId) : Server := { pairServer x with moderated := x = 1 }

/-- Two servers know the same members with the same statuses, and the message that one of them took
does not come to the member on the other, where the channel has the mode `+m`. -/
theorem lost_moderated :
    (∀ x y, (lostServer x).allMembers = (lostServer y).allMembers) ∧
      (∀ x y, (lostServer x).chw y = true) ∧ accepts (lostServer 0) 1 .all = true ∧
        pair.Eligible .all 2 ∧
        ∃ n, run (step 1 .all) (Net.start lostServer 0 1 .all) [.receive 0] = some n ∧
        n.flight = [] ∧ 2 ∉ n.delivered := by
  refine ⟨fun _ _ => rfl, fun _ _ => rfl, by decide +kernel, ⟨.peon, rfl, rfl, rfl, by decide⟩, _,
    rfl, ?_, ?_⟩
  · decide +kernel
  · decide +kernel

end Ratbox.Relay
