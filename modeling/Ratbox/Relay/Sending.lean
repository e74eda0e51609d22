import Ratbox.Relay.Basic

/-!
# One copy to each connection

The functions that send a message walk over members, and come to one connection several times. Some
connections are stamped when a line is attached to them, and these are passed over when they are
stamped; the others are come to once.

Source: `src/send.c`, lines 489–672.

## Main definitions

* `Relay.Reached`: the connections that were come to, when a part of the members was walked over.

## Main results

* `Relay.sendtoChannelFlags_spec`: each connection with a member that the message is for gets one
  copy.
* `Relay.sendtoCommonChannelsLocal_spec`: each client that shares a channel with the user gets one
  copy.
-/

namespace Ratbox.Relay

open List Function

open Channel (MemberFlags MemberList)

/-! ### Walks -/

/-- A line can be attached to the connection. -/
def Server.Alive (s : Server) (c : Conn) : Prop := s.ioError c = false ∧ s.room c = true

/-- No connection has the number of a message to come. -/
def Server.Fresh (s : Server) : Prop := ∀ c, s.serial c ≤ s.currentSerial

/-- From a server with a new number, a walk came to the connections in `R`, with lines attached to
those that are alive. The connections in `K` are stamped. -/
structure Reached (s : Server) (K R : Conn → Prop) (p : Sending) : Prop where
  same : p.1 = { s with ioError := p.1.ioError, serial := p.1.serial }
  ioError : ∀ c, p.1.ioError c = true ↔ s.ioError c = true ∨ (s.room c = false ∧ R c)
  serial : ∀ c, K c → (p.1.serial c = s.currentSerial ↔ s.ioError c = false ∧ R c)
  fresh : p.1.Fresh
  nodup : p.2.Nodup
  mem : ∀ c, c ∈ p.2 ↔ s.Alive c ∧ R c

section Walk

variable {s : Server} {K R : Conn → Prop} {p : Sending} {d : Conn}

theorem Reached.start (h : s.Fresh) :
    Reached s.nextSerial K (fun _ => False) (s.nextSerial, []) where
  same := rfl
  ioError c := by simp
  serial c _ := by
    have hle := h c
    simp only [Server.nextSerial, and_false, iff_false]
    omega
  fresh c := Nat.le_succ_of_le (h c)
  nodup := nodup_nil
  mem c := by simp

section

variable (h : Reached s K R p)
include h

theorem Reached.congr {R' : Conn → Prop} (hR : ∀ c, R' c ↔ R c) : Reached s K R' p := by
  rwa [show R' = R from funext fun c => propext (hR c)]

theorem Reached.currentSerial : p.1.currentSerial = s.currentSerial := by rw [h.same]

theorem Reached.room : p.1.room = s.room := by rw [h.same]

theorem Reached.ioError_eq_false (hio : p.1.ioError d = false) : s.ioError d = false := by
  by_contra hold
  rw [(h.ioError d).mpr (.inl (by simpa using hold))] at hio
  cases hio

/-- No connection is stamped. -/
theorem Reached.forget : Reached s (fun _ => False) R p :=
  ⟨h.same, h.ioError, fun _ hnever => hnever.elim, h.fresh, h.nodup, h.mem⟩

/-- A connection that is dead is passed over. -/
theorem Reached.dead (hio : p.1.ioError d = true) : Reached s K (fun c => R c ∨ c = d) p := by
  have hdead := (h.ioError d).mp hio
  refine ⟨h.same, fun c => ?_, fun c hc => ?_, h.fresh, h.nodup, fun c => ?_⟩
  · rw [h.ioError c]
    by_cases hcd : c = d
    · subst hcd
      exact iff_of_true hdead (hdead.imp_right fun hroom => ⟨hroom.1, .inr rfl⟩)
    · simp [hcd]
  · rw [h.serial c hc]
    by_cases hcd : c = d
    · subst hcd
      obtain hold | ⟨-, hR⟩ := hdead
      · simp [hold]
      · simp [hR]
    · simp [hcd]
  · rw [h.mem c]
    by_cases hcd : c = d
    · subst hcd
      have hnot : ¬s.Alive c := by
        rintro ⟨halive, hroom⟩
        obtain hold | ⟨hfull, -⟩ := hdead
        · exact Bool.false_ne_true (halive.symm.trans hold)
        · exact Bool.false_ne_true (hfull.symm.trans hroom)
      simp [hnot]
    · simp [hcd]

/-- A connection that was not come to before gets a line, if it is alive. -/
theorem Reached.send (hio : p.1.ioError d = false) (hnew : ¬R d) :
    (∀ c, (sendLinebuf p d).1.ioError c = true ↔ s.ioError c = true ∨
      (s.room c = false ∧ (R c ∨ c = d))) ∧
      (sendLinebuf p d).1 = { s with ioError := (sendLinebuf p d).1.ioError, serial :=
        p.1.serial } ∧ (sendLinebuf p d).2.Nodup ∧ ∀ c, c ∈ (sendLinebuf p d).2 ↔ s.Alive c ∧
        (R c ∨ c = d) := by
  have hold := h.ioError_eq_false hio
  have hnotmem : d ∉ p.2 := fun hmem => hnew ((h.mem d).mp hmem).2
  rw [sendLinebuf, if_neg (by simp [hio]), h.room]
  cases hroom : s.room d with
  | true =>
    rw [if_pos rfl]
    refine ⟨fun c => ?_, h.same, ?_, fun c => ?_⟩
    · rw [h.ioError c]
      by_cases hcd : c = d
      · subst hcd
        simp [hold, hroom]
      · simp [hcd]
    · refine nodup_append.mpr ⟨h.nodup, nodup_singleton d, fun c hc c' hc' heq => hnotmem ?_⟩
      rwa [← mem_singleton.mp hc', ← heq]
    · rw [mem_append, mem_singleton, h.mem c]
      by_cases hcd : c = d
      · subst hcd
        simp [Server.Alive, hold, hroom]
      · simp [hcd]
  | false =>
    rw [if_neg (by simp)]
    refine ⟨fun c => ?_, ?_, h.nodup, fun c => ?_⟩
    · by_cases hcd : c = d
      · subst hcd
        simp [hroom]
      · simp [hcd, h.ioError c]
    · rw [h.same]
    · rw [h.mem c]
      by_cases hcd : c = d
      · subst hcd
        simp [Server.Alive, hroom]
      · simp [hcd]

theorem Reached.sendLinebuf (hio : p.1.ioError d = false) (hnew : ¬R d) (hd : ¬K d) :
    Reached s K (fun c => R c ∨ c = d) (sendLinebuf p d) := by
  obtain ⟨hioError, hsame, hnodup, hmem⟩ := h.send hio hnew
  have hserial : (Relay.sendLinebuf p d).1.serial = p.1.serial := by rw [hsame]
  refine ⟨by rw [hserial]; exact hsame, hioError, fun c hc => ?_, fun c => ?_, hnodup, hmem⟩
  · have hcd : c ≠ d := fun heq => hd (heq ▸ hc)
    rw [hserial, h.serial c hc]
    simp [hcd]
  · rw [hserial, hsame, ← h.currentSerial]
    exact h.fresh c

theorem Reached.stamp (hio : p.1.ioError d = false) (hnew : ¬R d) :
    Reached s K (fun c => R c ∨ c = d) (stamp (Relay.sendLinebuf p d) d) := by
  obtain ⟨hioError, hsame, hnodup, hmem⟩ := h.send hio hnew
  have hserial : (Relay.sendLinebuf p d).1.serial = p.1.serial := by rw [hsame]
  have hcurrent : (Relay.sendLinebuf p d).1.currentSerial = s.currentSerial := by rw [hsame]
  have hold := h.ioError_eq_false hio
  refine ⟨?_, hioError, fun c hc => ?_, fun c => ?_, hnodup, hmem⟩
  · rw [Relay.stamp, hsame]
  · rw [Relay.stamp, hserial, hcurrent]
    dsimp only
    by_cases hcd : c = d
    · subst hcd
      rw [update_self]
      simp [hold]
    · rw [update_of_ne hcd, h.serial c hc]
      simp [hcd]
  · rw [Relay.stamp, hserial, hcurrent]
    dsimp only
    by_cases hcd : c = d
    · subst hcd
      rw [update_self]
    · rw [update_of_ne hcd, ← h.currentSerial]
      exact h.fresh c

/-- A connection that is stamped was come to before. -/
theorem Reached.again (hd : K d) (hserial : p.1.serial d = p.1.currentSerial) :
    ∀ c, R c ∨ c = d ↔ R c := by
  have hR := ((h.serial d hd).mp (hserial.trans h.currentSerial)).2
  exact fun c => or_iff_left_of_imp fun heq => heq ▸ hR

/-- A connection that is not stamped was not come to before. -/
theorem Reached.not_reached (hd : K d) (hio : p.1.ioError d = false)
    (hserial : p.1.serial d ≠ p.1.currentSerial) : ¬R d := fun hR =>
  hserial (((h.serial d hd).mpr ⟨h.ioError_eq_false hio, hR⟩).trans h.currentSerial.symm)

end

end Walk

/-! ### Members of a channel -/

/-- The message is for the member: it is not behind the connection that the message came from, has
the status, and is not deaf; and its server gets messages for a status, if it is not this one. -/
structure Wanted (s : Server) (one : Conn) (type : MsgType) (m : Member) : Prop where
  one : s.fromLink m.client ≠ one
  status : type.wants m.flags = true
  deaf : s.deaf m.client = false
  chw : ∀ x, s.fromLink m.client = .server x → type = .all ∨ s.chw x = true

/-- The message is for a member of the list that is behind the connection. -/
def Leads (s : Server) (one : Conn) (type : MsgType) (l : List Member) (c : Conn) : Prop :=
  ∃ m ∈ l, Wanted s one type m ∧ s.fromLink m.client = c

/-- The connection is a link. -/
def IsLink (c : Conn) : Prop := ∃ x, c = .server x

section Members

variable {s : Server} {one : Conn} {type : MsgType} {l : List Member} {m : Member} {p : Sending}

theorem leads_concat (c : Conn) :
    Leads s one type (l ++ [m]) c ↔ Leads s one type l c ∨
    (Wanted s one type m ∧ c = s.fromLink m.client) := by
  simp only [Leads, mem_append, mem_singleton, or_and_right, exists_or, exists_eq_left]
  refine or_congr_right (and_congr_right fun _ => eq_comm)

/-- A member that the message is not for leads nowhere. -/
theorem leads_of_not (h : ¬Wanted s one type m) (c : Conn) :
    Leads s one type (l ++ [m]) c ↔ Leads s one type l c := by
  rw [leads_concat]
  exact or_iff_left fun hw => h hw.1

/-- Each client has a connection of its own. -/
def Server.OwnConns (s : Server) : Prop := ∀ c c', s.fromLink c = .client c' → c' = c

/-- The body of the loop comes to the connection of the member. -/
theorem Reached.sendMember (hown : s.OwnConns) (h : Reached s IsLink (Leads s one type l) p)
    (hnew : m.client ∉ l.map (·.client)) :
    Reached s IsLink (Leads s one type (l ++ [m])) (sendMember one type p m) := by
  have hfrom : p.1.fromLink = s.fromLink := by rw [h.same]
  have hdeafs : p.1.deaf = s.deaf := by rw [h.same]
  have hchws : p.1.chw = s.chw := by rw [h.same]
  have hreach : Wanted s one type m →
      ∀ c, Leads s one type (l ++ [m]) c ↔ Leads s one type l c ∨ c = s.fromLink m.client := by
    intro hw c
    rw [leads_concat]
    simp [hw]
  rw [Relay.sendMember, hfrom, hdeafs, hchws]
  by_cases hskip : (p.1.ioError (s.fromLink m.client) || decide (s.fromLink m.client = one)) = true
  · rw [if_pos hskip]
    by_cases hw : Wanted s one type m
    · have hio : p.1.ioError (s.fromLink m.client) = true := by simpa [hw.one] using hskip
      exact (h.dead hio).congr (hreach hw)
    · exact h.congr (leads_of_not hw)
  rw [if_neg hskip]
  by_cases hstatus : type.wants m.flags = true
  swap
  · rw [if_pos (by simpa using hstatus)]
    exact h.congr (leads_of_not fun hw => hstatus hw.status)
  rw [if_neg (by simpa using hstatus)]
  by_cases hdeaf : s.deaf m.client = true
  · rw [if_pos hdeaf]
    exact h.congr (leads_of_not fun hw => Bool.false_ne_true (hw.deaf.symm.trans hdeaf))
  rw [if_neg hdeaf]
  obtain ⟨hio, hone⟩ := not_or.mp fun hor => hskip (Bool.or_eq_true_iff.mpr
    (hor.imp_right decide_eq_true))
  rw [Bool.not_eq_true] at hio hdeaf
  have hwanted : (∀ x, s.fromLink m.client = .server x → type = .all ∨ s.chw x = true) →
    Wanted s one type m :=
    fun hchw => ⟨hone, hstatus, hdeaf, hchw⟩
  cases hd : s.fromLink m.client with
  | client c =>
    have hw := hwanted (by simp [hd])
    have hnot : ¬Leads s one type l (s.fromLink m.client) := by
      rintro ⟨m', hm', -, heq⟩
      have hsame : m'.client = m.client := (hown _ _ (heq.trans hd)).symm.trans (hown _ _ hd)
      exact hnew (mem_map.mpr ⟨m', hm', hsame⟩)
    have hsent := (h.sendLinebuf hio hnot (by simp [IsLink, hd])).congr (hreach hw)
    rwa [hd] at hsent
  | server x =>
    rw [hd] at hio
    by_cases hchw : type = .all ∨ s.chw x = true
    · have hw := hwanted fun y hy => (Conn.server.inj (hd.symm.trans hy)) ▸ hchw
      have hreach := hreach hw
      rw [hd] at hreach
      dsimp only
      rw [if_neg (by simpa [or_iff_not_imp_left] using hchw)]
      by_cases hserial : p.1.serial (.server x) = p.1.currentSerial
      · rw [if_pos hserial]
        exact h.congr fun c => (hreach c).trans (h.again ⟨x, rfl⟩ hserial c)
      · rw [if_neg hserial]
        exact (h.stamp hio (h.not_reached ⟨x, rfl⟩ hio hserial)).congr hreach
    · dsimp only
      rw [if_pos (by simpa [not_or] using hchw)]
      exact h.congr (leads_of_not fun hw => hchw (hw.chw x hd))

/-- The loop comes to the connections of the members that the message is for. -/
theorem Reached.foldl_sendMember (hown : s.OwnConns) {rest : List Member}
    (h : Reached s IsLink (Leads s one type l) p) (hnodup : ((l ++ rest).map (·.client)).Nodup) :
    Reached s IsLink (Leads s one type (l ++ rest)) (rest.foldl (Relay.sendMember one type) p) := by
  induction rest generalizing l p with
  | nil => rwa [append_nil]
  | cons m rest ih =>
    have hnew : m.client ∉ l.map (·.client) := by
      rw [map_append, map_cons, nodup_append] at hnodup
      exact fun hmem => hnodup.2.2 _ hmem _ mem_cons_self rfl
    rw [append_cons] at hnodup ⊢
    exact ih (h.sendMember hown hnew) hnodup

/-- The members of the two lists are different clients, and the operators are in the list of
operators. -/
structure Server.Members (s : Server) : Prop where
  nodup : (s.allMembers.map Member.client).Nodup
  op : ∀ m ∈ s.members .noop, m.flags.chanop = false

/-- **Messages to a channel.** A connection gets one copy if the message is for a member that is
behind it, and it is alive, and else none. -/
theorem sendtoChannelFlags_spec (hfresh : s.Fresh) (hown : s.OwnConns) (hmembers : s.Members)
    (one : Conn) (type : MsgType) :
    Reached s.nextSerial IsLink (Leads s one type s.allMembers)
    (sendtoChannelFlags s one type) := by
  have hstart : Reached s.nextSerial IsLink (Leads s.nextSerial one type []) (s.nextSerial, []) :=
    (Reached.start hfresh).congr fun c => by simp [Leads]
  have hown' : s.nextSerial.OwnConns := hown
  have hwanted : ∀ {m}, Wanted s.nextSerial one type m ↔ Wanted s one type m :=
    ⟨fun hw => ⟨hw.one, hw.status, hw.deaf, hw.chw⟩, fun hw => ⟨hw.one, hw.status, hw.deaf, hw.chw⟩⟩
  rw [sendtoChannelFlags]
  split_ifs with htype
  · have hnodup : (([] ++ s.members .op).map Member.client).Nodup := by
      have hall := hmembers.nodup
      rw [Server.allMembers, map_append] at hall
      exact (nodup_append.mp hall).2.1
    refine (hstart.foldl_sendMember hown' hnodup).congr fun c => ?_
    constructor
    · rintro ⟨m, hm, hw, hd⟩
      refine ⟨m, (mem_append.mp hm).resolve_left fun hnoop => ?_, hwanted.mpr hw, hd⟩
      have hstatus := hw.status
      rw [htype, MsgType.wants, hmembers.op m hnoop] at hstatus
      cases hstatus
    · rintro ⟨m, hm, hw, hd⟩
      exact ⟨m, mem_append_right _ hm, hwanted.mp hw, hd⟩
  · refine (hstart.foldl_sendMember hown' hmembers.nodup).congr fun c => ?_
    exact exists_congr fun m => and_congr_right fun _ => and_congr_left fun _ => hwanted.symm

end Members

/-! ### Clients that share a channel -/

section Common

variable {s : Server} {l : List ClientId} {k : ClientId} {p : Sending}

/-- The connection is that of a client. -/
def IsClient (c : Conn) : Prop := ∃ k, c = .client k

/-- The connection is that of a client in the list. -/
def Shares (l : List ClientId) (c : Conn) : Prop := ∃ k ∈ l, c = .client k

theorem shares_concat (c : Conn) : Shares (l ++ [k]) c ↔ Shares l c ∨ c = .client k := by
  simp [Shares]

theorem sendLinebuf_stamp (p : Sending) (d : Conn) :
    sendLinebuf (stamp p d) d = stamp (sendLinebuf p d) d := by
  by_cases hio : p.1.ioError d = true
  · simp [sendLinebuf, stamp, hio]
  · by_cases hroom : p.1.room d = true
    · simp [sendLinebuf, stamp, hio, hroom]
    · simp [sendLinebuf, stamp, hio, hroom]

theorem Reached.sendCommon (h : Reached s IsClient (Shares l) p) :
    Reached s IsClient (Shares (l ++ [k])) (sendCommon p k) := by
  have hstep : ∀ c, Shares (l ++ [k]) c ↔ Shares l c ∨ c = .client k := shares_concat
  rw [Relay.sendCommon]
  by_cases hio : p.1.ioError (.client k) = true
  · rw [if_pos (by simp [hio])]
    exact (h.dead hio).congr hstep
  rw [Bool.not_eq_true] at hio
  by_cases hserial : p.1.serial (.client k) = p.1.currentSerial
  · rw [if_pos (by simp [hserial])]
    exact h.congr fun c => (hstep c).trans (h.again ⟨k, rfl⟩ hserial c)
  · rw [if_neg (by simp [hio, hserial]), sendLinebuf_stamp]
    exact (h.stamp hio (h.not_reached ⟨k, rfl⟩ hio hserial)).congr hstep

theorem Reached.foldl_sendCommon {rest : List ClientId} (h : Reached s IsClient (Shares l) p) :
    Reached s IsClient (Shares (l ++ rest)) (rest.foldl Relay.sendCommon p) := by
  induction rest generalizing l p with
  | nil => rwa [append_nil]
  | cons k rest ih =>
    rw [append_cons]
    exact ih h.sendCommon

/-- **Clients that share a channel.** A client gets one copy if it shares a channel with the user,
or is the user, and its connection is alive, and else none. -/
theorem sendtoCommonChannelsLocal_spec (hfresh : s.Fresh) (user : ClientId)
    (channels : List (List ClientId)) :
    Reached s.nextSerial (fun _ => False) (fun c => Shares channels.flatten c ∨
      (s.myClient user = true ∧ c = .client user)) (sendtoCommonChannelsLocal s user channels) := by
  have hstart : Reached s.nextSerial IsClient (Shares []) (s.nextSerial, []) :=
    (Reached.start hfresh).congr fun c => by simp [Shares]
  have hwalk : Reached s.nextSerial IsClient (Shares ([] ++ channels.flatten))
      (channels.flatten.foldl Relay.sendCommon (s.nextSerial, [])) := hstart.foldl_sendCommon
  rw [nil_append, foldl_flatten] at hwalk
  rw [sendtoCommonChannelsLocal]
  generalize channels.foldl (fun p locmembers => locmembers.foldl Relay.sendCommon p) (s.nextSerial,
    []) = p at hwalk
  have hmine : p.1.myClient user = s.myClient user := by
    rw [hwalk.same]
    rfl
  rw [hmine]
  cases huser : s.myClient user with
  | false => exact hwalk.forget.congr fun c => by simp
  | true =>
    by_cases hserial : p.1.serial (.client user) = p.1.currentSerial
    · rw [if_neg (by simp [hserial])]
      refine hwalk.forget.congr fun c => ?_
      simpa using hwalk.again ⟨user, rfl⟩ hserial c
    · rw [if_pos (by simp [hserial])]
      by_cases hio : p.1.ioError (.client user) = true
      · rw [sendLinebuf, if_pos hio]
        exact (hwalk.dead hio).forget.congr fun c => by simp
      · rw [Bool.not_eq_true] at hio
        have hnew := hwalk.not_reached ⟨user, rfl⟩ hio hserial
        exact (hwalk.forget.sendLinebuf hio hnew not_false).congr fun c => by simp

end Common

end Ratbox.Relay
