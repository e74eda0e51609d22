import Ratbox.Channel.BurstRead
import Ratbox.Channel.Convergence

/-!
# A burst reproduces a channel

A server that does not have a channel, and knows its members as clients behind the link, has it
after the burst: the time and the modes, the members with their status, and the masks. Each line
with members is read as the channel itself with some of its members, so the modes are merged with
themselves; each line with masks puts some of the masks on a list.

Source: `modules/core/m_server.c`, lines 847–893 and 1079–1134, `modules/core/m_join.c`, lines
461–627, and `modules/core/m_mode.c`, lines 253–393.

## Main definitions

* `Burst.Knows`: the server knows the members, and has no such channel.
* `Burst.Reached`: some of the members have come.
* `Burst.Storable`: lists of masks that local operators can store.

## Main results

* `Burst.Reached.step`: a line with members is received.
* `Burst.putList_burstList`: so are the lines with the masks of a list.
* `Burst.burst_round_trip`: the channel after the burst.
-/

namespace Ratbox.Burst

open Text Channel List Option Function
open Banlist (ModeType banLen modebufLen)

variable {services : Bool} {id c : Str} {w : World} {ch : Chan} {net : Net} {now : ℤ} {client_p : ℕ}
  {σ : ℕ → ℕ} {p p' : Peer} {ws : List Str}

/-! ### The members -/

variable {ms : Membership} {p₀ : Peer} {done : List (ℕ × MemberFlags)} {wss : List (List Str)}
  {type type' : ModeType} {masks list : List Str} {lists : Lists}

/-- The loops over the members meet the memberships of the channel. -/
theorem mem_memberships (hw : Linked w) (hch : w.chan c = some ch) :
    ms ∈ memberships w c ↔ ∃ m, w.mem m = some ms ∧ ms.chptr = c := by
  obtain ⟨noops, ops, hm⟩ := hw.exists_members hch
  obtain ⟨hnoops, hops⟩ := hw.listOf hm
  rw [memberships, hnoops, hops, mem_filterMap]
  constructor
  · rintro ⟨m, hmem, hms⟩
    refine ⟨m, hms, ?_⟩
    obtain hmem | hmem := mem_append.mp hmem
    · obtain ⟨ms', hms', hc, -⟩ := hm.noop hmem
      rwa [some.inj (hms.symm.trans hms')]
    · obtain ⟨ms', hms', hc, -⟩ := hm.op hmem
      rwa [some.inj (hms.symm.trans hms')]
  · rintro ⟨m, hms, hc⟩
    refine ⟨m, mem_append.mpr ?_, hms⟩
    cases hlist : memlist ms.flags with
    | noop => exact .inl ((hm.mem_noops m).mpr ⟨ms, hms, hc, hlist⟩)
    | op => exact .inr ((hm.mem_ops m).mpr ⟨ms, hms, hc, hlist⟩)

/-- They meet each client once. -/
theorem nodup_memberships (hw : Linked w) (hch : w.chan c = some ch) :
    (memberships w c).Pairwise fun ms ms' => ms.client_p ≠ ms'.client_p := by
  obtain ⟨noops, ops, hm⟩ := hw.exists_members hch
  obtain ⟨hnoops, hops⟩ := hw.listOf hm
  have hnodup : (noops ++ ops).Nodup :=
    nodup_append.mpr ⟨hm.isList_noop.nodup, hm.isList_op.nodup, fun m hn m' ho heq => hm.disjoint ho
      (heq ▸ hn)⟩
  have hc : ∀ m ∈ noops ++ ops, ∀ ms, w.mem m = some ms → ms.chptr = c := by
    intro m hmem ms hms
    obtain hmem | hmem := mem_append.mp hmem
    · obtain ⟨ms', hms', hc, -⟩ := hm.noop hmem
      rwa [some.inj (hms.symm.trans hms')]
    · obtain ⟨ms', hms', hc, -⟩ := hm.op hmem
      rwa [some.inj (hms.symm.trans hms')]
  rw [memberships, hnoops, hops, pairwise_filterMap]
  refine hnodup.imp_of_mem fun {m m'} hmem hmem' hne ms hms ms' hms' hu => hne ?_
  exact hm.unique m m' ms ms' hms hms' (hc m hmem ms hms) (hc m' hmem' ms' hms') hu

theorem Sendable.memberships_ne_nil (h : Sendable services id w c ch) : memberships w c ≠ [] := by
  intro hnil
  obtain ⟨noops, ops, hm⟩ := h.linked.exists_members h.chan
  have hnone : ∀ m, ¬∃ ms, w.mem m = some ms ∧ ms.chptr = c := fun m ⟨ms, hms⟩ =>
    not_mem_nil (hnil ▸ (mem_memberships h.linked h.chan).mpr ⟨m, hms⟩)
  have hnoops : noops = [] := eq_nil_iff_forall_not_mem.mpr fun m hmem =>
    hnone m ((hm.noop hmem).imp fun ms hms => ⟨hms.1, hms.2.1⟩)
  have hops : ops = [] := eq_nil_iff_forall_not_mem.mpr fun m hmem =>
    hnone m ((hm.op hmem).imp fun ms hms => ⟨hms.1, hms.2.1⟩)
  refine h.count ?_
  rw [chanMemberCount, hm.isList_noop.length, hm.isList_op.length, hnoops, hops]
  rfl

/-! ### The words are read -/

theorem takePrefix_of_isName {s : Str} (h : IsName s) (fl : MemberFlags) :
    takePrefix s fl = (s, fl) := by
  have hop : ∀ s', s = '@' :: s' → False := fun s' heq => h.at_sign (by rw [heq]; rfl)
  have hvoice : ∀ s', s = '+' :: s' → False := fun s' heq => h.plus (by rw [heq]; rfl)
  exact takePrefix.eq_3 s fl hop hvoice

/-- **The server knows the members** as clients behind the link: `σ` tells which. -/
structure Knows (net : Net) (client_p : ℕ) (σ : ℕ → ℕ) (id : Str) (w : World) (c : Str) (ch : Chan)
    (p : Peer) : Prop where
  linked : Linked p.w
  absent : findChannel p.w ch.chname = none
  link : net.findClient id = some client_p
  from_link : (p.w.client client_p).fromLink = client_p
  found : ∀ ms ∈ memberships w c, net.findClient (w.client ms.client_p).useId = some (σ ms.client_p)
  behind : ∀ ms ∈ memberships w c, (p.w.client (σ ms.client_p)).fromLink = client_p
  isClient : ∀ ms ∈ memberships w c, (p.w.client (σ ms.client_p)).kind.isClient = true
  inj : ∀ ms ∈ memberships w c, ∀ ms' ∈ memberships w c, σ ms.client_p = σ ms'.client_p →
    ms.client_p = ms'.client_p

/-- A member as the other server has it. -/
def member (σ : ℕ → ℕ) (ms : Membership) : ℕ × MemberFlags :=
  (σ ms.client_p, { ms.flags with deopped := false })

/-- **The word for a member is read** as the member. -/
theorem Knows.named (hk : Knows net client_p σ id w c ch p) (h : Sendable services id w c ch)
    (hms : ms ∈ memberships w c) :
    named net p.w.client client_p (memberWord w.client ms) = some (member σ ms) := by
  have hname := h.names ms hms
  have hskip := takePrefix_of_isName hname
  have htaken : takePrefix (takePrefix (memberWord w.client ms) .peon).1
      (takePrefix (memberWord w.client ms) .peon).2 = ((w.client ms.client_p).useId,
          { ms.flags with deopped := false }) := by
    rw [memberWord, statusPrefix]
    have hop : ∀ s fl, takePrefix ('@' :: s) fl = (s, { fl with chanop := true }) := fun _ _ => rfl
    have hvoice : ∀ s fl, takePrefix ('+' :: s) fl = (s, { fl with voice := true }) :=
      fun _ _ => rfl
    rcases ms.flags with ⟨chanop, voice, deopped⟩
    cases chanop <;> cases voice <;>
      simp only [Bool.false_eq_true, if_false, if_true, nil_append, cons_append, hop, hvoice,
        hskip] <;>
      rfl
  rw [Channel.named]
  dsimp only
  rw [htaken, hk.found ms hms]
  dsimp only
  rw [hk.behind ms hms, hk.isClient ms hms, if_neg (by simp)]
  rfl

/-! ### A line with members -/

/-- What comes over the link has the server that sends as its source. -/
structure Linking (net : Net) (client_p : ℕ) (id : Str) (p : Peer) : Prop where
  link : net.findClient id = some client_p
  from_link : (p.w.client client_p).fromLink = client_p

theorem Linking.senderOf (h : Linking net client_p id p) (hid : id ≠ []) :
    Burst.senderOf net client_p (some id) = some client_p := by
  obtain ⟨d, id, rfl⟩ := exists_cons_of_ne_nil hid
  exact h.link

theorem Sendable.receive_sjoin (h : Sendable services id w c ch) (hl : Linking net client_p id p)
    (hws : ws ≠ []) :
    p.receive net now client_p (lineOf (sjoinFront services id ch) ws) =
      p.sjoin net now client_p client_p
        ((p.w.client client_p).name :: (sjoinPara services ch ++ [[' '].intercalate ws])) := by
  rw [Peer.receive, h.parse_sjoin hws]
  dsimp only
  rw [hl.senderOf h.id_ne]
  dsimp only
  rw [if_neg (not_not.mpr hl.from_link), if_pos (by decide)]

theorem Sendable.receive_bmask (h : Sendable services id w c ch) (hl : Linking net client_p id p)
    (type : ModeType) (hws : ws ≠ []) : p.receive net now client_p
      (lineOf (bmaskFront id ch (flagOf type)) ws) =
      p.bmask ((p.w.client client_p).name ::
        (bmaskPara ch (flagOf type) ++ [[' '].intercalate ws])) := by
  rw [Peer.receive, h.parse_bmask (by cases type <;> decide) hws]
  dsimp only
  rw [hl.senderOf h.id_ne]
  dsimp only
  rw [if_neg (not_not.mpr hl.from_link), if_neg (by decide), if_pos (by decide)]

/-- The modes of a channel are merged with themselves, or those of a new one with none. -/
theorem merge_self (m : Mode) : m.merge m = m := by
  refine Mode.ext ?_ ?_ ?_
  · exact BitVec.or_self
  · exact if_neg (lt_irrefl _)
  · exact if_neg (lt_irrefl _)

/-- The times are the same, or the channel is new: both modes are kept. -/
theorem resolve_same (isnew : Bool) {oldts ts : ℤ} (h : isnew = false → oldts = ts) :
    resolve isnew oldts ts = ⟨ts, true, true⟩ := by
  cases isnew with
  | true => rfl
  | false =>
    rw [h rfl, resolve, if_neg Bool.false_ne_true, if_pos rfl]
    split_ifs with hzero
    · rw [or_self_iff.mp hzero]
    · rfl

/-- A client is found with what it is listed with, if it is listed once. -/
theorem find?_eq_some_iff_of_nodup {qs : List (ℕ × MemberFlags)} (h : (qs.map Prod.fst).Nodup)
    (u : ℕ) (fl : MemberFlags) :
    (qs.find? fun q => q.1 == u).map Prod.snd = some fl ↔ (u, fl) ∈ qs := by
  induction qs with
  | nil => simp
  | cons q qs ih =>
    rw [map_cons, nodup_cons] at h
    rw [find?_cons]
    by_cases hq : q.1 = u
    · have hnot : (u, fl) ∉ qs := fun hmem => h.1 (mem_map.mpr ⟨(u, fl), hmem, hq.symm⟩)
      rw [beq_iff_eq.mpr hq, mem_cons, or_iff_left hnot, ← hq]
      exact ⟨fun heq => Prod.ext rfl (some.inj heq).symm, fun heq => by rw [← heq]; rfl⟩
    · rw [beq_eq_false_iff_ne.mpr hq, ih h.2, mem_cons, or_iff_right]
      exact fun heq => hq (by rw [← heq])

/-- **Some of the members have come**, with the time and the modes of the channel. -/
structure Reached (p₀ : Peer) (ch : Chan) (done : List (ℕ × MemberFlags)) (p : Peer) : Prop where
  linked : Linked p.w
  clients : SameClients p₀.w.client p.w.client
  status : ∀ u fl, HasStatus p.w.mem (chanKey ch.chname) u fl ↔ (u, fl) ∈ done
  alone : Alone p.w (chanKey ch.chname)
  absent : done = [] → p.w.chan (chanKey ch.chname) = none
  chan : done ≠ [] → ∃ ch', p.w.chan (chanKey ch.chname) = some ch' ∧ ch'.channelts = ch.channelts ∧
    ch'.mode = ch.mode
  lists : done ≠ [] → ∀ type, p.lists (chanKey ch.chname) type = []

theorem Reached.start (h : Sendable services id w c ch) (hk : Knows net client_p σ id w c ch p) :
    Reached p ch [] p where
  linked := hk.linked
  clients := .refl _
  status u fl := by
    refine iff_of_false ?_ not_mem_nil
    rintro ⟨m, ms, hms, hc, -⟩
    obtain ⟨ch', hch'⟩ := hk.linked.chan m ms hms
    rw [hc, (hk.linked.alone h.chname_lt hk.absent).2] at hch'
    cases hch'
  alone := (hk.linked.alone h.chname_lt hk.absent).1
  absent _ := (hk.linked.alone h.chname_lt hk.absent).2
  chan hne := absurd rfl hne
  lists hne := absurd rfl hne

theorem Reached.linking (hr : Reached p₀ ch done p)
    (hk : Knows net client_p σ id w c ch p₀) : Linking net client_p id p := by
  refine ⟨hk.link, ?_⟩
  obtain ⟨l, hl⟩ := hr.clients client_p
  rw [hl]
  exact hk.from_link

/-- The lists of a channel that is made are empty, and others are left alone when both modes are
kept. -/
theorem sjoin_eq {source_p : ℕ} {parv : List Str} {msg : Sjoin}
    (hread : readSjoin net.services parv = some msg)
      (hkeep : (resolvedFor p.w msg now).keepOurs = true) : p.sjoin net now client_p source_p parv =
        ⟨(msSjoin net now p.w client_p source_p parv).1, if (chanFor p.w msg now).2 then
          update p.lists (chanPtr p.w msg.chname) fun _ => []
        else p.lists⟩ := by
  rw [Peer.sjoin]
  cases msSjoin net now p.w client_p source_p parv with
  | mk w' out =>
    dsimp only
    rw [hread]
    dsimp only
    rw [hkeep, Bool.not_true, Bool.false_and, Bool.false_and, Bool.or_false]
    split_ifs <;> rfl

/-- **A line with members is received**: they join, and the time and the modes are those of the
channel. -/
theorem Reached.step (hr : Reached p₀ ch done p)
    (h : Sendable net.services id w c ch) (hk : Knows net client_p σ id w c ch p₀) (hws : ws ≠ [])
    (hwords : ∀ word ∈ ws, word ∈ (memberships w c).map (memberWord w.client))
    (hnodup : ((done ++ ws.filterMap (named net p₀.w.client client_p)).map Prod.fst).Nodup) :
    Reached p₀ ch (done ++ ws.filterMap (named net p₀.w.client client_p))
      (p.receive net now client_p (lineOf (sjoinFront net.services id ch) ws)) := by
  set qs := ws.filterMap (named net p₀.w.client client_p) with hqs
  set msg := sjoinMsg net.services ch ([' '].intercalate ws) with hmsg
  have hplain : ∀ word ∈ ws, word ≠ [] ∧ ' ' ∉ word := fun word hword =>
    ⟨(h.memberWord (hwords word hword)).1, (h.memberWord (hwords word hword)).2.1⟩
  obtain ⟨d, rest, hnicks, hd⟩ := intercalate_head hws hplain
  have hread := h.readSjoin (p.w.client client_p).name ([' '].intercalate ws) (by rw [hnicks]; simp)
    (by rw [hnicks]; simpa using hd)
  have hqsne : qs ≠ [] := by
    obtain ⟨word, rest, rfl⟩ := List.exists_cons_of_ne_nil hws
    obtain ⟨ms, hms, rfl⟩ := List.mem_map.mp (hwords word List.mem_cons_self)
    rw [hqs, List.filterMap_cons_some (hk.named h hms)]
    exact List.cons_ne_nil _ _
  have hptr : chanPtr p.w msg.chname = chanKey ch.chname := hr.alone.chanPtr h.chname_lt
  -- the channel is new for the first line, and as the line says for the others
  obtain ⟨ch₀, isnew, hfor, hisnew, hts, hmode⟩ : ∃ ch₀ isnew, chanFor p.w msg now = (ch₀, isnew) ∧
      (isnew = true ↔ done = []) ∧ (isnew = false → ch₀.channelts = ch.channelts) ∧
          ch.mode.merge ch₀.mode = ch.mode := by
    rw [chanFor, hptr]
    by_cases hdone : done = []
    · rw [hr.absent hdone]
      exact ⟨_, true, rfl, by simp [hdone], by simp, merge_empty h.limit⟩
    · obtain ⟨ch', hch', hts', hmode'⟩ := hr.chan hdone
      rw [hch']
      exact ⟨ch', false, rfl, by simp [hdone], fun _ => hts', by rw [hmode', merge_self]⟩
  have hresolve : resolvedFor p.w msg now = ⟨ch.channelts, true, true⟩ := by
    rw [resolvedFor, hfor]
    exact resolve_same isnew hts
  have hgiven : givenBy p.w msg now = fun q => q := by
    funext q
    rw [givenBy, hresolve]
    rfl
  have hnamed : namedIn net p.w.client client_p msg.nicks = qs := by
    rw [namedIn_congr net hr.clients, namedIn]
    exact congrArg (List.filterMap _) (words_intercalate hplain)
  have hs := hr.linked.sjoined hread now client_p client_p
  rw [hnamed, hgiven, List.map_id', hptr] at hs
  rw [h.receive_sjoin (hr.linking hk) hws, sjoin_eq hread (by rw [hresolve])]
  -- who is named on this line has not come before
  have hfresh : ∀ u ∈ qs.map Prod.fst, ¬Member p.w (chanKey ch.chname) u := by
    intro u hu hmember
    obtain ⟨fl, hfl⟩ := hmember.hasStatus
    rw [List.map_append, List.nodup_append] at hnodup
    exact hnodup.2.2 u (List.mem_map.mpr ⟨_, (hr.status u fl).mp hfl, rfl⟩) u hu rfl
  have hqsnodup : (qs.map Prod.fst).Nodup := by
    rw [List.map_append, List.nodup_append] at hnodup
    exact hnodup.2.1
  have hne : done ++ qs ≠ [] := List.append_ne_nil_of_right_ne_nil _ hqsne
  refine ⟨hs.linked, hr.clients.trans hs.clients, fun u fl => ?_,
    hr.linked.alone_msSjoin hread now client_p client_p hr.alone h.chname_lt,
    fun hnil => absurd hnil hne, fun _ => ?_, fun _ type => ?_⟩
  · have hleft : (resolve (chanFor p.w msg now).2 (chanFor p.w msg now).1.channelts
        msg.newts).keepOurs = true := by
      rw [← resolvedFor, hresolve]
    have hstatus := hs.status u fl
    rw [hleft, find?_eq_some_iff_of_nodup hqsnodup] at hstatus
    rw [List.mem_append, ← hr.status]
    refine hstatus.trans (or_congr_right ⟨And.right, fun hmem => ⟨?_, hmem⟩⟩)
    exact hfresh u (List.mem_map.mpr ⟨_, hmem, rfl⟩)
  · obtain ⟨q, hq⟩ := List.exists_mem_of_ne_nil qs hqsne
    have hu : q.1 ∈ qs.map Prod.fst := List.mem_map_of_mem hq
    obtain ⟨ch', hch', hts', hmode'⟩ := hs.chan fun _ => ⟨q.1, hu, hfresh q.1 hu⟩
    rw [← resolvedFor, hresolve] at hts' hmode'
    refine ⟨ch', hch', hts', hmode'.trans ?_⟩
    rw [hfor]
    exact hmode
  · rw [hfor, hptr]
    cases isnew with
    | true =>
      rw [if_pos rfl]
      have hnil : Function.update p.lists (chanKey ch.chname) (fun _ => []) (chanKey ch.chname) =
        fun _ => [] :=
        Function.update_self _ _ _
      exact congrFun hnil type
    | false =>
      rw [if_neg Bool.false_ne_true]
      exact hr.lists (fun hdone => Bool.false_ne_true (hisnew.mpr hdone)) type

/-- **The lines with members are received.** -/
theorem Reached.foldl {ds : List Str}
    (hr : Reached p₀ ch (ds.filterMap (named net p₀.w.client client_p)) p)
    (h : Sendable net.services id w c ch) (hk : Knows net client_p σ id w c ch p₀)
    (hwss : ∀ ws ∈ wss, ws ≠ [] ∧ ∀ word ∈ ws, word ∈ (memberships w c).map (memberWord w.client))
    (hnodup :
      (((ds ++ wss.flatten).filterMap (named net p₀.w.client client_p)).map Prod.fst).Nodup) :
    Reached p₀ ch ((ds ++ wss.flatten).filterMap (named net p₀.w.client client_p))
      ((wss.map (lineOf (sjoinFront net.services id ch))).foldl (Peer.receive net now client_p)
        p) := by
  induction wss generalizing ds p with
  | nil =>
    rw [flatten_nil, append_nil]
    exact hr
  | cons ws wss ih =>
    obtain ⟨⟨hws, hwords⟩, hwss⟩ := forall_mem_cons.mp hwss
    rw [flatten_cons, ← append_assoc] at hnodup ⊢
    have hone : (((ds ++ ws).filterMap (named net p₀.w.client client_p)).map Prod.fst).Nodup := by
      rw [filterMap_append, map_append] at hnodup
      exact (nodup_append.mp hnodup).1
    rw [filterMap_append] at hone
    have hstep : Reached p₀ ch _ (p.receive net now client_p (lineOf (sjoinFront net.services id ch)
      ws)) :=
      hr.step h hk hws hwords hone
    rw [← filterMap_append] at hstep
    rw [map_cons, foldl_cons]
    exact ih hstep hwss hnodup

/-! ### The masks -/

/-- Masks are put on a list of a channel. -/
def Peer.putMasks (p : Peer) (c : Str) (type : ModeType) (masks : List Str) : Peer :=
  { p with
    lists := update p.lists c (update (p.lists c) type (masks.foldl addRemoteId (p.lists c type))) }

theorem putMasks_nil (p : Peer) (c : Str) (type : ModeType) : p.putMasks c type [] = p := by
  rw [Peer.putMasks, foldl_nil, update_eq_self, update_eq_self]

theorem lists_putMasks (p : Peer) (c : Str) (type type' : ModeType) (masks : List Str) :
    (p.putMasks c type masks).lists c type' =
      if type' = type then masks.foldl addRemoteId (p.lists c type) else p.lists c type' := by
  rw [Peer.putMasks]
  dsimp only
  rw [update_self, update_apply]

theorem putMasks_append (p : Peer) (c : Str) (type : ModeType) (masks masks' : List Str) :
    (p.putMasks c type masks).putMasks c type masks' = p.putMasks c type (masks ++ masks') := by
  rw [Peer.putMasks, lists_putMasks, if_pos rfl, ← foldl_append, Peer.putMasks, Peer.putMasks]
  dsimp only
  rw [update_self, update_idem, update_idem]

/-- **Lines with masks are received**: the masks are put on their list. -/
theorem foldl_bmask (h : Sendable services id w c ch) (hl : Linking net client_p id p) {ch' : Chan}
    (hch' : p.w.chan (chanKey ch.chname) = some ch') (halone : Alone p.w (chanKey ch.chname))
    (hts : ch'.channelts = ch.channelts) (hwss : ∀ ws ∈ wss, ws ≠ [] ∧ ∀ mask ∈ ws, IsMask mask) :
    (wss.map (lineOf (bmaskFront id ch (flagOf type)))).foldl (Peer.receive net now client_p) p =
      p.putMasks (chanKey ch.chname) type wss.flatten := by
  induction wss generalizing p with
  | nil => exact (putMasks_nil p _ type).symm
  | cons ws wss ih =>
    obtain ⟨⟨hws, hmasks⟩, hwss⟩ := forall_mem_cons.mp hwss
    have hone : p.receive net now client_p (lineOf (bmaskFront id ch (flagOf type)) ws) =
        p.putMasks (chanKey ch.chname) type ws :=
      (h.receive_bmask hl type hws).trans (h.bmask type _ hmasks hch' halone hts)
    have hrest := ih (p := p.putMasks (chanKey ch.chname) type ws) ⟨hl.link, hl.from_link⟩ hch'
      halone hwss
    rw [map_cons, foldl_cons, hone, hrest, putMasks_append, flatten_cons]

/-- Whether the list is sent, and what is received of it. -/
def Peer.putList (p : Peer) (caps : Caps) (c : Str) (lists : Lists) (type : ModeType) : Peer :=
  if caps.has type then p.putMasks c type (lists type) else p

@[simp] theorem w_putList (p : Peer) (caps : Caps) (c : Str) (lists : Lists) (type : ModeType) :
    (p.putList caps c lists type).w = p.w := by
  rw [Peer.putList]
  split_ifs <;> rfl

theorem lists_putList (p : Peer) (caps : Caps) (c : Str) (lists : Lists) (type type' : ModeType) :
    (p.putList caps c lists type).lists c type' =
      if type' = type ∧ caps.has type = true then (lists type).foldl addRemoteId (p.lists c type)
      else p.lists c type' := by
  rw [Peer.putList]
  by_cases hhas : caps.has type = true
  · rw [if_pos hhas, lists_putMasks]
    simp [hhas]
  · rw [if_neg hhas, if_neg fun hand => hhas hand.2]

theorem Linking.putList (hl : Linking net client_p id p) (caps : Caps) (c : Str) (lists : Lists)
    (type : ModeType) :
    Linking net client_p id (p.putList caps c lists type) :=
  ⟨hl.link, by rw [w_putList]; exact hl.from_link⟩

theorem putList_burstList (h : Sendable services id w c ch) (hl : Linking net client_p id p)
    {ch' : Chan} (hch' : p.w.chan (chanKey ch.chname) = some ch')
    (halone : Alone p.w (chanKey ch.chname)) (hts : ch'.channelts = ch.channelts)
    (hmasks : ∀ mask ∈ lists type, IsMask mask) (caps : Caps) :
    (burstList caps id ch lists type).foldl (Peer.receive net now client_p) p =
      p.putList caps (chanKey ch.chname) lists type := by
  rw [burstList, Peer.putList]
  by_cases hhas : caps.has type = true
  · by_cases hnil : lists type = []
    · rw [if_neg fun hand => hand.2 hnil, if_pos hhas, hnil, putMasks_nil]
      rfl
    · have hfits : ∀ mask ∈ lists type, fits 509 (bmaskFront id ch (flagOf type)) [] mask =
          true := fun mask hmask =>
        h.fits_mask (flagOf type) (hmasks mask hmask)
      have hfilled := filled_pack hnil hfits
      rw [if_pos ⟨hhas, hnil⟩, if_pos hhas, burstModes_eq hfits, foldl_bmask h hl hch' halone hts,
        Packing.flatten_pack]
      exact fun ws hws => ⟨(hfilled ws hws).ne_nil, fun mask hmask => hmasks mask
        ((hfilled ws hws).mem mask hmask)⟩
  · rw [if_neg fun hand => hhas hand.1, if_neg hhas]
    rfl

/-- Masks that are different up to case are all put on the list. -/
theorem foldl_addRemoteId (hlt : ∀ mask ∈ masks, mask.length < banLen)
    (hmasks : masks.Pairwise fun m m' => irccmp m m' = false)
    (hlist : ∀ mask ∈ masks, ∀ m ∈ list, irccmp m mask = false) :
    masks.foldl addRemoteId list = masks.reverse ++ list := by
  induction masks generalizing list with
  | nil => rfl
  | cons mask masks ih =>
    obtain ⟨hmask, hmasks⟩ := pairwise_cons.mp hmasks
    obtain ⟨hnew, hlist⟩ := forall_mem_cons.mp hlist
    obtain ⟨hone, hlt⟩ := forall_mem_cons.mp hlt
    have hadd : addRemoteId list mask = mask :: list := by
      have hany : ¬(list.any fun banstr => irccmp banstr mask) = true := fun hany => by
        obtain ⟨m, hm, hsame⟩ := any_eq_true.mp hany
        exact Bool.false_ne_true ((hnew m hm).symm.trans hsame)
      rw [addRemoteId, if_neg hany, Banlist.strlcpy_of_lt hone]
    rw [foldl_cons, hadd, ih hlt hmasks, reverse_cons, append_assoc]
    · rfl
    · intro m hm m' hm'
      obtain rfl | hm' := mem_cons.mp hm'
      · exact hmask m hm
      · exact hlist m hm m' hm'

/-- A change of a list that a local operator makes. -/
def OfLocal : Banlist.Change → Prop
  | .add source_p banid _ =>
    source_p.kind.myClient = true ∧ ∃ maskPos raw, Banlist.chmBanMask true maskPos raw = some banid
  | .del _ _ => True

/-- **Lists that local operators can store**: those of a channel after changes that they made. -/
def Storable (lists : Lists) : Prop :=
  ∃ conf chname, ∃ changes : List Banlist.Change, (∀ x ∈ changes, OfLocal x) ∧
    ∀ type, lists type = (changes.foldl (Banlist.change conf) (.fresh chname)).list type

/-- The masks on the lists stay words. -/
theorem Storable.isMask (h : Storable lists) (type : ModeType) :
    ∀ mask ∈ lists type, IsMask mask := by
  obtain ⟨conf, chname, changes, hlocal, hlists⟩ := h
  have hrun : ∀ type, ∀ mask ∈ (changes.foldl (Banlist.change conf) (.fresh chname)).list type,
      IsMask mask := by
    refine foldlRecOn (motive := fun ch => ∀ type, ∀ mask ∈ ch.list type, IsMask mask) changes
      (Banlist.change conf) (fun type mask hmask => ?_) fun ch h x hx type mask hmask => ?_
    · cases type <;> exact absurd hmask not_mem_nil
    · cases x with
      | add source_p banid type' =>
        obtain ⟨-, maskPos, raw, hraw⟩ := hlocal _ hx
        rw [Banlist.change] at hmask
        obtain heq | ⟨heq, -⟩ := Banlist.addId_cases conf source_p ch banid type'
        · rw [heq] at hmask
          exact h type mask hmask
        · rw [heq, Banlist.list_bumpFor, Banlist.list_setList, Banlist.strlcpy_of_lt
            (isMask_chmBanMask hraw).lt] at hmask
          split_ifs at hmask with htype
          · obtain rfl | hmask := mem_cons.mp hmask
            · exact isMask_chmBanMask hraw
            · exact h type' mask hmask
          · exact h type mask hmask
      | del banid type' => exact h type mask ((Banlist.list_delId_subset ch banid type' type).subset
        hmask)
  rw [hlists]
  exact hrun type

/-- They are different up to case. -/
theorem Storable.distinct (h : Storable lists) (type : ModeType) :
    (lists type).Pairwise fun m m' => irccmp m m' = false := by
  obtain ⟨conf, chname, changes, hlocal, hlists⟩ := h
  rw [hlists]
  refine Banlist.distinct_run conf chname changes (fun x hx => ?_) (fun x hx => ?_) type
  · have hx := hlocal x hx
    cases x with
    | add source_p banid type' =>
      refine .inl ?_
      rw [hx.1]
      exact hx.2
    | del banid type' => trivial
  · have hx := hlocal x hx
    cases x with
    | add source_p banid type' => exact fun hnot => absurd (hx.1.symm.trans hnot) (by decide)
    | del banid type' => trivial

/-! ### The burst -/

/-- The words for the members are read as the members. -/
theorem Knows.readMembers (hk : Knows net client_p σ id w c ch p)
    (h : Sendable services id w c ch) :
    ((memberships w c).map (memberWord w.client)).filterMap
      (Channel.named net p.w.client client_p) = (memberships w c).map (member σ) := by
  rw [filterMap_map, ← filterMap_eq_map]
  exact filterMap_congr fun ms hms => hk.named h hms

theorem Knows.nodup (hk : Knows net client_p σ id w c ch p) (h : Sendable services id w c ch) :
    (((memberships w c).map (member σ)).map Prod.fst).Nodup := by
  rw [List.map_map, List.Nodup, List.pairwise_map]
  exact (nodup_memberships h.linked h.chan).imp_of_mem fun {ms ms'} hms hms' hne heq =>
    hne (hk.inj ms hms ms' hms' heq)

/-- **All members have come** after the lines with members. -/
theorem Reached.burstMembers (h : Sendable net.services id w c ch)
    (hk : Knows net client_p σ id w c ch p) :
    Reached p ch ((memberships w c).map (member σ))
      ((burstMembers net.services id w c ch).foldl (Peer.receive net now client_p) p) := by
  have hne : (memberships w c).map (memberWord w.client) ≠ [] :=
    mt map_eq_nil_iff.mp h.memberships_ne_nil
  have hfilled := filled_pack hne fun word hword => h.fits hword
  have hflatten := Packing.flatten_pack (fits 508 (sjoinFront net.services id ch))
    ((memberships w c).map (memberWord w.client))
  have hstart : Reached p ch (([] : List Str).filterMap (named net p.w.client client_p)) p :=
    .start h hk
  have hnodup := hk.nodup h
  rw [← hk.readMembers h, ← hflatten] at hnodup ⊢
  rw [burstMembers_eq]
  exact hstart.foldl h hk (fun ws hws => ⟨(hfilled ws hws).ne_nil, (hfilled ws hws).mem⟩) hnodup

/-- **The lines of a burst have room** in their buffers, with the space that is chopped off and the
final NUL. -/
theorem length_burstChannel (h : Sendable services id w c ch)
    (hmasks : ∀ type, ∀ mask ∈ lists type, IsMask mask) (caps : Caps) :
    ∀ line ∈ burstChannel services id caps w lists c, line.length + 2 ≤ ircdBufsize := by
  have hlist : ∀ type, ∀ line ∈ burstList caps id ch lists type, line.length + 2 ≤ ircdBufsize := by
    intro type line hline
    rw [burstList] at hline
    split_ifs at hline with hsent
    · have hfits : ∀ mask ∈ lists type, fits 509 (bmaskFront id ch (flagOf type)) [] mask =
          true := fun mask hmask =>
        h.fits_mask (flagOf type) (hmasks type mask hmask)
      rw [burstModes_eq hfits] at hline
      obtain ⟨ws, hws, rfl⟩ := mem_map.mp hline
      have hle := (filled_pack hsent.2 hfits ws hws).length_le
      rw [ircdBufsize]
      omega
    · exact absurd hline not_mem_nil
  have hmembers : ∀ line ∈ Burst.burstMembers services id w c ch, line.length +
      2 ≤ ircdBufsize := by
    intro line hline
    have hne : (memberships w c).map (memberWord w.client) ≠ [] :=
      mt map_eq_nil_iff.mp h.memberships_ne_nil
    rw [burstMembers_eq] at hline
    obtain ⟨ws, hws, rfl⟩ := mem_map.mp hline
    have hle := (filled_pack hne (fun word hword => h.fits hword) ws hws).length_le
    rw [ircdBufsize]
    omega
  rw [burstChannel, h.chan]
  dsimp only
  rw [if_neg (by rw [h.hash]; exact fun hor => hor.elim h.count (absurd rfl))]
  simp only [forall_mem_append]
  exact ⟨⟨⟨hmembers, hlist _⟩, hlist _⟩, hlist _⟩

/-- **A burst reproduces a channel.** -/
theorem burst_round_trip {lists : Lists} (h : Sendable net.services id w c ch)
    (hlists : Storable lists) (hk : Knows net client_p σ id w c ch p) (caps : Caps) (now : ℤ)
    (hp' : p' = (burstChannel net.services id caps w lists c).foldl (Peer.receive net now client_p)
      p) :
    findChannel p'.w ch.chname = some (chanKey ch.chname) ∧
      (∃ ch', p'.w.chan (chanKey ch.chname) = some ch' ∧ ch'.channelts = ch.channelts ∧
        ch'.mode = ch.mode) ∧
      (∀ x fl, HasStatus p'.w.mem (chanKey ch.chname) x fl ↔
        ∃ u fl', HasStatus w.mem c u fl' ∧ σ u = x ∧ { fl' with deopped := false } = fl) ∧
      (∀ type, caps.has type = true → ∀ mask, mask ∈ p'.lists (chanKey ch.chname) type ↔
        mask ∈ lists type) ∧
      ∀ line ∈ burstChannel net.services id caps w lists c, line.length + 2 ≤ ircdBufsize := by
  have hmasks := hlists.isMask
  have hr : Reached p ch ((memberships w c).map (member σ))
      ((burstMembers net.services id w c ch).foldl (Peer.receive net now client_p) p) :=
        .burstMembers h hk
  have hne : (memberships w c).map (member σ) ≠ [] := mt map_eq_nil_iff.mp h.memberships_ne_nil
  obtain ⟨ch', hch', hts, hmode⟩ := hr.chan hne
  have hl := hr.linking hk
  have hnil := hr.lists hne
  set p₁ := (burstMembers net.services id w c ch).foldl (Peer.receive net now client_p) p with hp₁
  have hput : p' = ((p₁.putList caps (chanKey ch.chname) lists .ban).putList caps
      (chanKey ch.chname) lists .exception).putList caps (chanKey ch.chname) lists .invex := by
    rw [hp', burstChannel, h.chan]
    dsimp only
    rw [if_neg (by rw [h.hash]; exact fun hor => hor.elim h.count (absurd rfl))]
    rw [foldl_append, foldl_append, foldl_append, ← hp₁]
    rw [putList_burstList h hl hch' hr.alone hts (hmasks .ban),
      putList_burstList h (hl.putList ..) (by rw [w_putList, hch'])
        (by rw [w_putList]; exact hr.alone) hts (hmasks .exception),
      putList_burstList h ((hl.putList ..).putList ..) (by rw [w_putList, w_putList, hch'])
        (by rw [w_putList, w_putList]; exact hr.alone) hts (hmasks .invex)]
  have hw : p'.w = p₁.w := by rw [hput, w_putList, w_putList, w_putList]
  have hfound : findChannel p₁.w ch.chname = some (chanKey ch.chname) := by
    rw [hr.alone.findChannel h.chname_lt, hch']
    rfl
  refine ⟨hw ▸ hfound, ⟨ch', by rw [hw, hch'], hts, hmode⟩, fun x fl => ?_, fun type hhas mask =>
    ?_, length_burstChannel h hmasks caps⟩
  · rw [hw, hr.status, List.mem_map]
    constructor
    · rintro ⟨ms, hms, heq⟩
      obtain ⟨m, hm, hc⟩ := (mem_memberships h.linked h.chan).mp hms
      exact ⟨ms.client_p, ms.flags, ⟨m, ms, hm, hc, rfl, rfl⟩, congrArg Prod.fst heq,
        congrArg Prod.snd heq⟩
    · rintro ⟨u, fl', ⟨m, ms, hm, hc, rfl, rfl⟩, hx, hfl⟩
      exact ⟨ms, (mem_memberships h.linked h.chan).mpr ⟨m, hm, hc⟩, Prod.ext hx hfl⟩
  · have hlist : p'.lists (chanKey ch.chname) type = (lists type).reverse := by
      have hfoldl : (lists type).foldl addRemoteId [] = (lists type).reverse := by
        rw [foldl_addRemoteId (fun mask hmask => (hmasks type mask hmask).lt) (hlists.distinct type)
          fun _ _ _ hm => absurd hm not_mem_nil, append_nil]
      rw [hput, ← hfoldl]
      cases type <;> simp [lists_putList, hhas, hnil]
    rw [hlist, mem_reverse]

/-- The server knows the users 1 and 2, and the id of the link. -/
def burstNet : Net := { smallNet with hashId := fun s => if s = ['0', 'A'] then some 0 else none }

/-- The message of a server with an older channel. -/
def olderB (limit : Str) : List Str :=
  [['s'], ['3'], ['#'], ['+', 'n', 'l', 'k'], limit, ['x'], ['@', 'b']]

/-- The channel of the user 1 after this message. -/
def twoMembers (limit : Str) : World := (msSjoin smallNet 0 oneMember 0 0 (olderB limit)).1

/-- The changes of a local operator. -/
def threeMasks : List Banlist.Change :=
  [.add Banlist.localUser "a!*@*".toList .ban, .add Banlist.localUser "a!*@*".toList .exception,
    .add Banlist.localUser "b!*@*".toList .ban]

/-- The lists after them. -/
def listsOf : Lists := (threeMasks.foldl (Banlist.change Banlist.usualConf) (.fresh ['#'])).list

/-- The server that the burst comes to. -/
def newPeer : Peer := ⟨World.init behindServer, fun _ _ => []⟩

/-- It, after the burst. -/
def afterBurst (caps : Caps) (limit : Str) : Peer :=
  (burstChannel false ['0', 'A'] caps (twoMembers limit) listsOf ['#']).foldl (Peer.receive burstNet
    0 0) newPeer

theorem storable_listsOf : Storable listsOf := by
  refine ⟨Banlist.usualConf, ['#'], threeMasks, fun x hx => ?_, fun _ => rfl⟩
  obtain rfl | hx := mem_cons.mp hx
  · exact ⟨rfl, 0, ['a'], by decide +kernel⟩
  · obtain rfl | hx := mem_cons.mp hx
    · exact ⟨rfl, 0, ['a'], by decide +kernel⟩
    · rw [mem_singleton.mp hx]
      exact ⟨rfl, 0, ['b'], by decide +kernel⟩

/-- A channel with two members is sent. -/
theorem burst_round_trip_two : ∃ ch, (twoMembers ['3']).chan ['#'] = some ch ∧
    findChannel (afterBurst ⟨true, true⟩ ['3']).w ch.chname = some ['#'] ∧
    (∃ ch', (afterBurst ⟨true, true⟩ ['3']).w.chan ['#'] = some ch' ∧ ch'.channelts = ch.channelts ∧
      ch'.mode = ch.mode) ∧
    (∀ x fl, HasStatus (afterBurst ⟨true, true⟩ ['3']).w.mem ['#'] x fl ↔
      ∃ u fl', HasStatus (twoMembers ['3']).mem ['#'] u fl' ∧ u = x ∧
      { fl' with deopped := false } = fl) ∧
    (∀ type mask, mask ∈ (afterBurst ⟨true, true⟩ ['3']).lists ['#'] type ↔ mask ∈ listsOf type) ∧
    ∀ line ∈ burstChannel false ['0', 'A'] ⟨true, true⟩ (twoMembers ['3']) listsOf ['#'],
    line.length + 2 ≤ ircdBufsize := by
  have hread : readSjoin smallNet.services (olderB ['3']) =
      some ⟨3, ['#'], ['+', 'n', 'l', 'k'], ⟨modeNoPrivMsgs, 3, ['x'], by decide, by decide⟩,
          ['@', 'b']⟩ := by
    decide
  have hfields : ((twoMembers ['3']).chan ['#']).map (fun ch => (ch.chname, ch.channelts, ch.mode,
      chanMemberCount ch)) = some (['#'], 3, ⟨modeNoPrivMsgs, 3, ['x'], by decide, by decide⟩,
          2) := by
    decide
  obtain ⟨ch, hch, hfields⟩ := map_eq_some_iff.mp hfields
  simp only [Prod.mk.injEq] at hfields
  obtain ⟨hname, hts, hmode, hcount⟩ := hfields
  have hms : memberships (twoMembers ['3']) ['#'] =
      [⟨['#'], 1, .peon⟩, ⟨['#'], 2, ⟨true, false, false⟩⟩] := by
    decide
  have hkey : chanKey ch.chname = ['#'] := by
    rw [hname]
    decide
  have h : Sendable burstNet.services ['0', 'A'] (twoMembers ['3']) ['#'] ch :=
    { linked := (linked_oneMember.sjoined hread 0 0 0).linked
      chan := hch
      count := by rw [hcount]; decide
      hash := by rw [hname]; rfl
      chname := by rw [hname]; decide
      chname_lt := by rw [hname]; decide
      ts := by rw [hts]; decide
      lettered := by rw [hmode]; decide
      limit := by rw [hmode]; decide
      key := by rw [hmode]; exact .inr ⟨by decide, by decide, by decide⟩
      id_ne := by decide
      id_space := by decide
      id_lt := by decide
      names := by
        rw [hms]
        intro ms hmem
        obtain rfl | hmem := mem_cons.mp hmem
        · exact ⟨by decide, by decide, by decide, by decide, by decide⟩
        · rw [mem_singleton.mp hmem]
          exact ⟨by decide, by decide, by decide, by decide, by decide⟩ }
  have hk : Knows burstNet 0 id ['0', 'A'] (twoMembers ['3']) ['#'] ch newPeer :=
    { linked := linked_init behindServer
      absent := by rw [hname]; rfl
      link := by decide
      from_link := rfl
      found := by rw [hms]; decide
      behind := by rw [hms]; decide
      isClient := by rw [hms]; decide
      inj := fun _ _ _ _ heq => heq }
  have hafter : afterBurst ⟨true, true⟩ ['3'] = _ := rfl
  obtain ⟨hfound, hchan, hstatus, hmasks, hlen⟩ :=
    burst_round_trip h storable_listsOf hk ⟨true, true⟩ 0 hafter
  rw [hkey] at hfound hchan hstatus hmasks
  exact ⟨ch, hch, hfound, hchan, hstatus, fun type => hmasks type (by cases type <;> rfl), hlen⟩

/-- The exceptions do not come without `CAP_EX`, and a limit below zero does not come. -/
theorem burst_loses :
    ((twoMembers ['-', '1']).chan ['#']).map (fun ch => ch.mode.limit) = some (-1) ∧
      ((afterBurst ⟨true, true⟩ ['-', '1']).w.chan ['#']).map (fun ch => ch.mode.limit) = some 0 ∧
      listsOf .exception = ["a!*@*".toList] ∧
      (afterBurst ⟨false, true⟩ ['3']).lists ['#'] .exception = [] := by
  decide +kernel

end Ratbox.Burst
