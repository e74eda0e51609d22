import Ratbox.Nick.Commands
import Ratbox.Lib.Duplex
import Mathlib.Data.Fintype.Option

/-!
# Two servers whose clients collide

Two servers that are linked introduce a client each under one nick, before either has heard of the
other's. Each finds the collision, decides who loses, and says so by `SAVE` and `KILL`. The servers
come to the same decision: who loses is put under its id by both, or killed by both, also when only
one of them can save; and the `SAVE` and `KILL` of one find nothing left to do at the other, or
bring it in line.

What a server has of the two clients is told by the places of the clients: whether the server knows
a client, and whether it is under the nick, under its id, or, before its change of the nick came,
under another nick. The messages act on the places, and the servers do to their tables what they do
to the places.

Source: `modules/core/m_nick.c`, lines 256–516 and 793–1273, and `modules/core/m_kill.c`, lines
155–330.

## Main definitions

* `Nick.receive`: a message of a linked server.
* `Nick.Place`, `Nick.View`: where a server has the two clients.
* `Nick.Start`, `Nick.crossing`: two linked servers, with the nicks of their clients on the way.
* `Nick.Agree`: two servers agree on the nick and the clients.

## Main results

* `Nick.collision_agrees`: whatever the order of the messages, they are consumed after finitely
  many deliveries, and then the servers agree.
-/

namespace Ratbox.Nick

open Text HashTable Duplex Server List Option Function

/-! ### Messages of a linked server -/

/-- The way to the server that is named as the source of a message of a link. -/
def sourceServer (s : Server) (link : Serv) (source : Str) : Option (List Serv) :=
  (s.findServer source).filter fun way => way.getLast? = some link

/-- A message of a link. It is dropped when its source is not known, or is not behind the link. -/
def receive (s : Server) (link : Serv) : Msg → Server
  | .intro source parv =>
    match parv.origin with
    | .uid _ _ =>
      match sourceServer s link source with
      | some way => msNick s link way parv
      | none => s
    | .server _ => msNick s link [link] parv
  | .nick source nick newts =>
    match s.findClient source with
    | some p => if (s.client p).any (·.link = some link) then mcNick s link p nick newts else s
    | none => s
  | .save source uid ts =>
    match sourceServer s link source with
    | some way => msSave s link (way.headD link).id uid ts
    | none => s
  | .kill source target =>
    match sourceServer s link source with
    | some way => msKill s link ((way.headD link).name, (way.headD link).id) target
    | none => s
  | .quit source =>
    match s.findClient source with
    | some p =>
      if (s.client p).any (·.link = some link) then s.exitClient (some link) p false else s
    | none => s

/-- What a server has sent to a link. -/
def toLink (link : Serv) (sent : List (Serv × Msg)) : List Msg :=
  sent.filterMap fun x => if x.1 = link then some x.2 else none

/-- A server takes a message of a link, and sends back what it has for the link. -/
def recv (link : Serv) (s : Server) (m : Msg) : Server × List Msg :=
  let t := receive { s with sent := [] } link m
  ({ t with sent := [] }, toLink link t.sent)

/-! ### Where a server has a client -/

/-- The server does not know the client, has it under another nick, under the nick, or under its
id. -/
inductive Place
  | absent
  | other
  | nick
  | uid
  deriving DecidableEq

/-- A record is that of a client, which is behind the way. -/
structure IsUser (d c : Client) (way : List Serv) : Prop where
  id : d.id = c.id
  username : d.username = c.username
  host : d.host = c.host
  status : d.status = .client
  fake : d.fake = false
  way : d.way = way

/-- The name and the time in a record, at a place. -/
def Place.Fits : Place → Client → Client → Prop
  | .absent, _, _ => False
  | .other, d, c => irccmp d.name c.name = false ∧ digitName d.name = false
  | .nick, d, c => d.name = c.name ∧ d.tsinfo = c.tsinfo
  | .uid, d, c => d.name = c.id

/-- The record at an address is the only one of a client. -/
structure Record (t : Tables) (c : Client) (way : List Serv) (place : Place) (p : Addr)
    (d : Client) : Prop where
  client : t.client p = some d
  user : IsUser d c way
  fits : place.Fits d c
  only : ∀ q e, t.client q = some e → e.id = c.id → q = p

/-- The clients that collide: each of a server, under one nick up to case, with ids of their own. -/
structure Colliding (c : Bool → Client) : Prop where
  sameNick : irccmp (c false).name (c true).name = true
  digitNick : digitName (c false).name = false
  nickNil : (c false).name ≠ []
  digitId : ∀ i, digitName (c i).id = true
  idsDiffer : (c false).id ≠ (c true).id

/-- **Where a server has the clients.** Each client is at its place, and no other client has the
nick. -/
structure View (c : Bool → Client) (way : Bool → List Serv) (t : Tables) (v : Bool → Place) :
    Prop where
  wf : t.WellFormed
  absent : ∀ i, v i = .absent → ∀ p d, t.client p = some d → d.id ≠ (c i).id
  known : ∀ i, v i ≠ .absent → ∃ p d, Record t (c i) (way i) (v i) p d
  others : ∀ p d, t.client p = some d → irccmp d.name (c false).name = true → ∃ i, d.id = (c i).id

namespace Colliding

variable {c : Bool → Client}

section

variable (h : Colliding c)
include h

theorem irccmp_nick (i j : Bool) : irccmp (c i).name (c j).name = true := by
  cases i <;> cases j
  · exact irccmp_refl _
  · exact h.sameNick
  · exact irccmp_symm h.sameNick
  · exact irccmp_refl _

theorem nick_ne_nil (i : Bool) : (c i).name ≠ [] :=
  fun hnil => h.nickNil ((eq_nil_iff_of_irccmp (h.irccmp_nick false i)).mpr hnil)

theorem digit_nick (i : Bool) : digitName (c i).name = false :=
  (digitName_congr (h.irccmp_nick i false)).trans h.digitNick

theorem id_ne_nil (i : Bool) : (c i).id ≠ [] := by
  intro hnil
  have hdigit := h.digitId i
  rw [hnil] at hdigit
  cases hdigit

theorem id_inj {i j : Bool} (hid : (c i).id = (c j).id) : i = j := by
  cases i <;> cases j
  · rfl
  · exact absurd hid h.idsDiffer
  · exact absurd hid.symm h.idsDiffer
  · rfl

end

end Colliding

section Views

variable {c : Bool → Client} {way : Bool → List Serv} {t t' : Tables} {v : Bool → Place}
  {j : Bool} {p : Addr} {d : Client}

variable {place : Place}

/-- **One of the clients goes, or takes another place.** -/
theorem View.update (hc : Colliding c) (h : View c way t v) (hwf : t'.WellFormed)
    {o : Option Client} (hclient : t'.client = update t.client p o)
    (hold : ∀ d, t.client p = some d → d.id = (c j).id) (hnone : t.client p = none → v j = .absent)
    (hnew : ∀ d, o = some d → IsUser d (c j) (way j) ∧ place.Fits d (c j))
    (hgone : o = none → place = .absent) (hplace : ∀ d, o = some d → place ≠ .absent) :
    View c way t' (update v j place) where
  wf := hwf
  absent := by
    intro i hi q d hq
    rw [hclient] at hq
    by_cases hij : i = j
    · subst hij
      rw [update_self] at hi
      obtain ⟨-, ho⟩ | ⟨hqp, hq⟩ := update_eq_some.mp hq
      · exact absurd hi (hplace d ho)
      · intro hid
        -- Another record of the client would be the one at `p`.
        cases hv : v i with
        | absent => exact h.absent i hv q d hq hid
        | _ =>
          obtain ⟨r, e, hr⟩ := h.known i (by simp [hv])
          have hp : t.client p ≠ none := fun hnone' => by simp [hnone hnone'] at hv
          obtain ⟨e', he'⟩ := ne_none_iff_exists'.mp hp
          have hpr : p = r := hr.only p e' he' (hold e' he')
          exact hqp ((hr.only q d hq hid).trans hpr.symm)
    · rw [update_of_ne hij] at hi
      obtain ⟨-, ho⟩ | ⟨-, hq⟩ := update_eq_some.mp hq
      · rw [(hnew d ho).1.id]
        exact fun hid => hij (hc.id_inj hid.symm)
      · exact h.absent i hi q d hq
  known := by
    intro i hi
    by_cases hij : i = j
    · subst hij
      rw [update_self] at hi ⊢
      cases ho : o with
      | none => exact absurd (hgone ho) hi
      | some d =>
        refine ⟨p, d, ?_, (hnew d ho).1, (hnew d ho).2, ?_⟩
        · rw [hclient, update_self, ho]
        · intro q e hq hid
          rw [hclient] at hq
          obtain ⟨hqp, -⟩ | ⟨hqp, hq⟩ := update_eq_some.mp hq
          · exact hqp
          · cases hv : v i with
            | absent => exact absurd hid (h.absent i hv q e hq)
            | _ =>
              obtain ⟨r, e', hr⟩ := h.known i (by simp [hv])
              have hp : t.client p ≠ none := fun hnone' => by simp [hnone hnone'] at hv
              obtain ⟨e', he'⟩ := ne_none_iff_exists'.mp hp
              have hpr : p = r := hr.only p e' he' (hold e' he')
              exact (hr.only q e hq hid).trans hpr.symm
    · rw [update_of_ne hij] at hi ⊢
      obtain ⟨q, e, hq⟩ := h.known i hi
      have hqp : q ≠ p := by
        rintro rfl
        exact hij (hc.id_inj (hq.user.id.symm.trans (hold e hq.client)))
      refine ⟨q, e, ?_, hq.user, hq.fits, ?_⟩
      · rw [hclient, update_of_ne hqp, hq.client]
      · intro r e' hr hid
        rw [hclient] at hr
        obtain ⟨-, ho⟩ | ⟨-, hr⟩ := update_eq_some.mp hr
        · exact absurd (hc.id_inj (hid.symm.trans (hnew e' ho).1.id)) hij
        · exact hq.only r e' hr hid
  others := by
    intro q e hq hsame
    rw [hclient] at hq
    obtain ⟨-, ho⟩ | ⟨-, hq⟩ := update_eq_some.mp hq
    · exact ⟨j, (hnew e ho).1.id⟩
    · exact h.others q e hq hsame

/-- The record with the id of a client is its record. -/
theorem View.record (h : View c way t v) (hp : t.client p = some d) (hid : d.id = (c j).id) :
    Record t (c j) (way j) (v j) p d := by
  have hpresent : v j ≠ .absent := fun habs => h.absent j habs p d hp hid
  obtain ⟨q, e, hq⟩ := h.known j hpresent
  obtain rfl := hq.only p d hp hid
  obtain rfl : d = e := by simpa [hp] using hq.client
  exact hq

section

variable (hc : Colliding c)
include hc

/-- A client that is known is found by its id. -/
theorem Record.findId (hwf : t.WellFormed)
    (h : Record t (c j) (way j) (v j) p d) : t.findId (c j).id = some p := by
  cases hfind : t.findId (c j).id with
  | none =>
    exact absurd h.user.id ((hwf.findId_eq_none_iff (hc.id_ne_nil j)).mp hfind p d h.client)
  | some q =>
    obtain ⟨e, he, hid⟩ := hwf.findId_eq_some hfind
    rw [h.only q e he hid]

theorem View.findId_absent (h : View c way t v) (hv : v j = .absent) : t.findId (c j).id = none :=
  (h.wf.findId_eq_none_iff (hc.id_ne_nil j)).mpr (h.absent j hv)

theorem findClient_id (j : Bool) : t.findClient (c j).id = t.findId (c j).id := by
  rw [Tables.findClient, if_pos (hc.digitId j)]

theorem findClient_nick (j : Bool) : t.findClient (c j).name = t.findNick (c j).name := by
  rw [Tables.findClient, hc.digit_nick j]
  rfl

/-- A client that is under the nick is found by it. -/
theorem Record.findNick (hwf : t.WellFormed)
    (h : Record t (c j) (way j) .nick p d) (i : Bool) : t.findNick (c i).name = some p :=
  hwf.findNick_of_name h.client (h.fits.1 ▸ hc.irccmp_nick j i) (hc.nick_ne_nil i)
    (hc.digit_nick i)

/-- When neither client is under the nick, nobody is. -/
theorem View.findNick_none (h : View c way t v) (hv : ∀ i, v i ≠ .nick)
    (i : Bool) : t.findNick (c i).name = none := by
  refine (h.wf.findNick_eq_none_iff (hc.nick_ne_nil i)).mpr fun q e hq => ?_
  by_contra hsame
  rw [Bool.not_eq_false] at hsame
  obtain ⟨k, hk⟩ := h.others q e hq (irccmp_trans hsame (hc.irccmp_nick i false))
  have hpresent : v k ≠ .absent := fun habs => h.absent k habs q e hq hk
  obtain ⟨p, d, hp⟩ := h.known k hpresent
  obtain rfl := hp.only q e hq hk
  obtain rfl : e = d := by simpa [hq] using hp.client
  have hfits := hp.fits
  cases hvk : v k with
  | absent => exact hpresent hvk
  | other =>
    rw [hvk] at hfits
    have hdiffer : irccmp e.name (c k).name = false := hfits.1
    rw [irccmp_trans hsame (hc.irccmp_nick i k)] at hdiffer
    cases hdiffer
  | nick => exact hv k hvk
  | uid =>
    rw [hvk] at hfits
    have hname : e.name = (c k).id := hfits
    have hdigit := digitName_congr hsame
    rw [hname, hc.digitId k, hc.digit_nick i] at hdigit
    cases hdigit

end

/-! ### What changes the places -/

theorem View.remove (hc : Colliding c) (h : View c way t v)
    (hp : Record t (c j) (way j) (v j) p d) :
    View c way (t.remove p d) (Function.update v j .absent) := by
  refine h.update hc (h.wf.remove hp.client) rfl ?_ ?_ ?_ ?_ ?_
  · intro e he
    obtain rfl : d = e := by simpa [hp.client] using he
    exact hp.user.id
  · intro hnone
    rw [hp.client] at hnone
    cases hnone
  · rintro _ ⟨⟩
  · exact fun _ => rfl
  · rintro _ ⟨⟩

theorem View.freeNdEntry (h : View c way t v) (nick : Str) : View c way (t.freeNdEntry nick) v :=
  ⟨h.wf.freeNdEntry nick, h.absent, fun i hi => by
    obtain ⟨p, d, hp⟩ := h.known i hi
    exact ⟨p, d, hp.client, hp.user, hp.fits, hp.only⟩, h.others⟩

/-- A client is put under its id. -/
theorem View.rename_id (hc : Colliding c) (h : View c way t v)
    (hp : Record t (c j) (way j) place p d) {d' : Client}
    (hname : d'.name = d.name) (huser : IsUser d' (c j) (way j)) :
    View c way (t.rename p d' d.id) (Function.update v j .uid) := by
  refine h.update hc (h.wf.rename hp.client hname (huser.id.trans hp.user.id.symm)
    (.inr (.inl (hp.user.id ▸ hc.digitId j)))) rfl ?_ ?_ ?_ ?_ ?_
  · intro e he
    obtain rfl : d = e := by simpa [hp.client] using he
    exact hp.user.id
  · intro hnone
    rw [hp.client] at hnone
    cases hnone
  · rintro _ ⟨⟩
    exact ⟨⟨huser.id, huser.username, huser.host, huser.status, huser.fake, huser.way⟩, hp.user.id⟩
  · rintro ⟨⟩
  · rintro _ _ ⟨⟩

theorem View.freeBut (hc : Colliding c) (h : View c way t v)
    (hp : ∀ q e, t.client q = some e → e.id = (c j).id → q = p) (hv : v (!j) ≠ .nick) :
    FreeBut t.client (c j).name p := by
  intro q e hq hsame
  obtain ⟨k, hk⟩ := h.others q e hq (irccmp_trans hsame (hc.irccmp_nick j false))
  by_cases hkj : k = j
  · subst hkj
    exact hp q e hq hk
  · obtain rfl : k = !j := by cases k <;> cases j <;> simp_all
    have hpresent : v (!j) ≠ .absent := fun habs => h.absent _ habs q e hq hk
    obtain ⟨r, d, hr⟩ := h.known _ hpresent
    obtain rfl := hr.only q e hq hk
    obtain rfl : e = d := by simpa [hq] using hr.client
    have hfits := hr.fits
    cases hvk : v (!j) with
    | absent => exact absurd hvk hpresent
    | other =>
      rw [hvk] at hfits
      have hdiffer : irccmp e.name (c (!j)).name = false := hfits.1
      rw [irccmp_trans hsame (hc.irccmp_nick j (!j))] at hdiffer
      cases hdiffer
    | nick => exact absurd hvk hv
    | uid =>
      rw [hvk] at hfits
      have hname : e.name = (c (!j)).id := hfits
      have hdigit := digitName_congr hsame
      rw [hname, hc.digitId, hc.digit_nick] at hdigit
      cases hdigit

/-- A client takes the nick, which the other one does not have. -/
theorem View.rename_nick (hc : Colliding c) (h : View c way t v)
    (hp : Record t (c j) (way j) place p d) (hother : v (!j) ≠ .nick)
    {d' : Client} (hname : d'.name = d.name) (huser : IsUser d' (c j) (way j))
    (hts : d'.tsinfo = (c j).tsinfo) :
    View c way (t.rename p d' (c j).name) (Function.update v j .nick) := by
  refine h.update hc (h.wf.rename hp.client hname (huser.id.trans hp.user.id.symm)
    (.inr (.inr (h.freeBut hc hp.only hother)))) rfl ?_ ?_ ?_ ?_ ?_
  · intro e he
    obtain rfl : d = e := by simpa [hp.client] using he
    exact hp.user.id
  · intro hnone
    rw [hp.client] at hnone
    cases hnone
  · rintro _ ⟨⟩
    exact ⟨⟨huser.id, huser.username, huser.host, huser.status, huser.fake, huser.way⟩, rfl, hts⟩
  · rintro ⟨⟩
  · rintro _ _ ⟨⟩

/-- A client comes in, under its id or under the nick, which the other one does not have. -/
theorem View.enter (hc : Colliding c) (h : View c way t v) (hv : v j = .absent) {d : Client}
    (huser : IsUser d (c j) (way j)) (hfits : place.Fits d (c j))
    (hplace : place = .uid ∨ place = .nick ∧ v (!j) ≠ .nick) :
    View c way (t.enter d) (Function.update v j place) := by
  have hfree : d.name = [] ∨ digitName d.name = true ∨ FreeBut t.client d.name t.fresh := by
    rcases hplace with rfl | ⟨rfl, hother⟩
    · have hname : d.name = (c j).id := hfits
      exact .inr (.inl (hname ▸ hc.digitId j))
    · rw [hfits.1]
      refine .inr (.inr (h.freeBut hc (fun q e hq hid => ?_) hother))
      exact absurd hid (h.absent j hv q e hq)
  refine h.update hc (h.wf.enter (.inr (huser.id ▸ hc.digitId j)) hfree) rfl ?_ ?_ ?_ ?_ ?_
  · intro e he
    rw [h.wf.client_fresh] at he
    cases he
  · exact fun _ => hv
  · rintro _ ⟨⟩
    exact ⟨huser, hfits⟩
  · rintro ⟨⟩
  · rintro _ _ rfl
    rcases hplace with ⟨⟨⟩⟩ | ⟨⟨⟩, -⟩

end Views

/-! ### What a server does and says -/

/-- A server has a link, and both have ids. -/
structure Linked (u : Setup) (link : Serv) : Prop where
  listed : link ∈ u.servList
  nodup : u.servList.Nodup
  ts6 : link.ts6 = true
  id : link.id ≠ []
  meId : u.me.id ≠ []
  found : u.findServer link.id = some [link]

/-- The ways to the clients: one is of this server, the other one behind the link. -/
def ways (home : Bool) (link : Serv) (i : Bool) : List Serv := if i = home then [] else [link]

/-- What a server is set up as, what it has sent to the link, and where it has the clients. -/
structure Shows (c : Bool → Client) (home : Bool) (link : Serv) (u : Setup) (s : Server)
    (out : List Msg) (v : Bool → Place) : Prop where
  setup : s.toSetup = u
  sent : toLink link s.sent = out
  view : View c (ways home link) s.toTables v

theorem toLink_append (link : Serv) (xs ys : List (Serv × Msg)) :
    toLink link (xs ++ ys) = toLink link xs ++ toLink link ys := filterMap_append

/-- Of what is sent to each server of a list, a link gets its own. -/
theorem toLink_map {link : Serv} {servers : List Serv} (hnodup : servers.Nodup) (f : Serv → Msg) :
    toLink link (servers.map fun x => (x, f x)) = if link ∈ servers then [f link] else [] := by
  induction servers with
  | nil => rfl
  | cons x xs ih =>
    obtain ⟨hx, hxs⟩ := nodup_cons.mp hnodup
    have hcons : toLink link ((x :: xs).map fun x => (x, f x)) =
        (if x = link then [f x] else []) ++ toLink link (xs.map fun x => (x, f x)) := by
      rw [toLink, toLink, map_cons, filterMap_cons]
      by_cases hxl : x = link <;> simp [hxl]
    rw [hcons, ih hxs]
    by_cases hxl : x = link
    · subst hxl
      simp [hx]
    · simp [hxl, Ne.symm hxl]

section Effects

variable {c : Bool → Client} {home : Bool} {link : Serv} {u : Setup} {s : Server}
  {out : List Msg} {v : Bool → Place} {j : Bool} {p : Addr} {d : Client}

theorem Shows.sendtoOne (h : Shows c home link u s out v) (m : Msg) :
    Shows c home link u (s.sendtoOne link m) (out ++ [m]) v where
  setup := h.setup
  sent := by
    rw [Server.sendtoOne, toLink_append, h.sent]
    simp [toLink]
  view := h.view

theorem Shows.tell (h : Shows c home link u s out v) (q : Addr) (n : Numeric) :
    Shows c home link u (s.tell q n) out v := ⟨h.setup, h.sent, h.view⟩

theorem Shows.sendtoServer (hl : Linked u link) (h : Shows c home link u s out v)
    (one : Option Serv) (caps : Serv → Bool) (m : Msg) :
    Shows c home link u (s.sendtoServer one caps m)
      (out ++ if one ≠ some link ∧ caps link = true then [m] else []) v where
  setup := h.setup
  sent := by
    have hlist : s.servList = u.servList := by rw [← h.setup]
    rw [Server.sendtoServer, toLink_append, h.sent, toLink_map (hlist ▸ hl.nodup.filter _)
      (fun _ => m)]
    simp [hlist, hl.listed]
  view := h.view

theorem Shows.killClientServButone (hl : Linked u link) (h : Shows c home link u s out v)
    (one : Option Serv) {target : Client} (hid : target.id ≠ []) :
    Shows c home link u (s.killClientServButone one target)
      (out ++ [.kill u.me.id target.id]) v where
  setup := h.setup
  sent := by
    have hlist : s.servList = u.servList := by rw [← h.setup]
    have hme : s.me = u.me := by rw [← h.setup]
    rw [Server.killClientServButone, toLink_append, h.sent, toLink_map (hlist ▸ hl.nodup.filter _)]
    simp [hlist, hl.listed, hl.id, hme, hl.meId, hid, Client.useId, Client.hasId]
  view := h.view

theorem Shows.relayKill (hl : Linked u link) (h : Shows c home link u s out v)
    (source : Str × Str) (target : Client) :
    Shows c home link u (s.relayKill link source target) out v where
  setup := h.setup
  sent := by
    have hlist : s.servList = u.servList := by rw [← h.setup]
    rw [Server.relayKill, toLink_append, h.sent, toLink_map (hlist ▸ hl.nodup.filter _)]
    simp
  view := h.view

/-- The link is not told what came from it. -/
theorem Shows.introduceClient (hl : Linked u link) (h : Shows c home link u s out v)
    (d : Client) : Shows c home link u (s.introduceClient (some link) d) out v := by
  have hno : ∀ {s}, Shows c home link u s out v → ∀ caps m,
      Shows c home link u (s.sendtoServer (some link) caps m) out v := by
    intro s h caps m
    simpa using h.sendtoServer hl (some link) caps m
  rw [Server.introduceClient]
  split
  · exact hno (hno h _ _) _ _
  · exact hno h _ _

/-- A client that is killed is gone, and nothing more is said. -/
theorem Shows.exitClient (hc : Colliding c) (h : Shows c home link u s out v)
    (hp : Record s.toTables (c j) (ways home link j) (v j) p d) (one : Option Serv) :
    Shows c home link u (s.exitClient one p true) out (update v j .absent) where
  setup := by rw [toSetup_exitClient, h.setup]
  sent := by
    rw [← h.sent, Server.exitClient, hp.client]
    simp
  view := by
    rw [toTables_exitClient one hp.client]
    exact h.view.remove hc hp

theorem retime_user {way : List Serv} {e : Client} (h : IsUser d e way) (nick : Str) (ts : ℤ) :
    IsUser (retime d nick ts) e way := by
  rw [retime]
  split
  · exact h
  · exact ⟨h.id, h.username, h.host, h.status, h.fake, h.way⟩

variable {one : Option Serv} {dosend : Bool} {sockhost : Str}

theorem sent_changeRemoteNick (hl : Linked u link) (hsetup : s.toSetup = u)
    (hone : one = some link ∨ dosend = false) (newts : ℤ) (nick : Str) :
    toLink link (s.changeRemoteNick one p newts nick dosend).sent = toLink link s.sent := by
  have hlist : s.servList = u.servList := by rw [← hsetup]
  have hno : ∀ (sent : List (Serv × Msg)) (caps : Serv → Bool) (m : Msg), toLink link (sent ++
      (s.servList.filter fun x => decide ((some link : Option Serv) ≠ some x) && caps x).map
        fun x => (x, m)) = toLink link sent := by
    intro sent caps m
    rw [toLink_append, toLink_map (hlist ▸ hl.nodup.filter _) (fun _ => m)]
    simp
  rw [Server.changeRemoteNick]
  cases s.client p with
  | none => rfl
  | some d =>
    cases dosend with
    | false => rfl
    | true =>
      obtain rfl := hone.resolve_right (by simp)
      exact (hno _ _ _).trans (hno _ _ _)

section

variable (hc : Colliding c)
include hc

/-- A client is put under its id. -/
theorem Shows.changeRemoteNick_id (hl : Linked u link) (h : Shows c home link u s out v)
    (hp : Record s.toTables (c j) (ways home link j) (v j) p d)
    (hone : one = some link ∨ dosend = false) (newts : ℤ) :
    Shows c home link u (s.changeRemoteNick one p newts d.id dosend) out
      (update v j .uid) where
  setup := by rw [toSetup_changeRemoteNick, h.setup]
  sent := by rw [sent_changeRemoteNick hl h.setup hone, h.sent]
  view := by
    rw [toTables_changeRemoteNick one hp.client]
    exact (h.view.freeNdEntry d.id).rename_id hc ⟨hp.client, hp.user, hp.fits, hp.only⟩
      (retime_name _ _) (retime_user hp.user _ _)

/-- A client takes the nick. -/
theorem Shows.changeRemoteNick_nick (hl : Linked u link) (h : Shows c home link u s out v)
    (hp : Record s.toTables (c j) (ways home link j) (v j) p d) (hv : v j = .other ∨ v j = .uid)
    (hother : v (!j) ≠ .nick) (hts : (c j).tsinfo ≠ 0) :
    Shows c home link u (s.changeRemoteNick (some link) p (c j).tsinfo (c j).name true) out
      (update v j .nick) where
  setup := by rw [toSetup_changeRemoteNick, h.setup]
  sent := by rw [sent_changeRemoteNick hl h.setup (.inl rfl), h.sent]
  view := by
    have hdiffer : irccmp d.name (c j).name = false := by
      have hfits := hp.fits
      rcases hv with hv | hv
      · rw [hv] at hfits
        exact hfits.1
      · rw [hv] at hfits
        have hname : d.name = (c j).id := hfits
        by_contra hsame
        rw [Bool.not_eq_false] at hsame
        have hdigit := digitName_congr hsame
        rw [hname, hc.digitId, hc.digit_nick] at hdigit
        cases hdigit
    rw [toTables_changeRemoteNick (some link) hp.client]
    refine (h.view.freeNdEntry (c j).name).rename_nick hc
      ⟨hp.client, hp.user, hp.fits, hp.only⟩ hother
      (retime_name _ _) (retime_user hp.user _ _) ?_
    rw [retime, hdiffer, if_pos hts]
    rfl

/-- A client that is introduced comes in, under its id or under the nick. -/
theorem Shows.addClient (hl : Linked u link)
    (h : Shows c home link u s out v) (hv : v (!home) = .absent)
    (huser : IsUser d (c (!home)) [link]) {place : Place} (hfits : place.Fits d (c (!home)))
    (hplace : place = .uid ∨ place = .nick ∧ v home ≠ .nick) :
    Shows c home link u (s.addClient link d) out (update v (!home) place) := by
  have hway : ways home link (!home) = [link] := by
    rw [ways, if_neg (by cases home <;> decide)]
  rw [Server.addClient]
  dsimp only
  rw [if_neg (by simp [Client.link, huser.way])]
  refine Shows.introduceClient hl (?_ : Shows c home link u _ out _) _
  refine ⟨h.setup, h.sent, ?_⟩
  exact (h.view.freeNdEntry _).enter hc hv (hway ▸ huser) hfits (by rwa [Bool.not_not])

theorem Shows.registerClient_id (hl : Linked u link)
    (h : Shows c home link u s out v) (hv : v (!home) = .absent) {newts : ℤ}
    {parv : Intro} (horigin : parv.origin = .uid sockhost (c (!home)).id)
    (husername : parv.username = (c (!home)).username) (hhost : parv.host = (c (!home)).host) :
    Shows c home link u (s.registerClient link [link] (c (!home)).id newts parv) out
      (update v (!home) .uid) := by
  rw [Server.registerClient, horigin]
  refine h.addClient hc hl hv ?_ ?_ (.inl rfl)
  · exact ⟨rfl, husername, hhost, rfl, rfl, rfl⟩
  · rfl

theorem Shows.registerClient_nick (hl : Linked u link)
    (h : Shows c home link u s out v) (hv : v (!home) = .absent) (hother : v home ≠ .nick)
    {parv : Intro} (horigin : parv.origin = .uid sockhost (c (!home)).id)
    (husername : parv.username = (c (!home)).username) (hhost : parv.host = (c (!home)).host)
    (hnick : parv.nick = (c (!home)).name) (hts : parv.newts = (c (!home)).tsinfo) :
    Shows c home link u (s.registerClient link [link] parv.nick parv.newts parv) out
      (update v (!home) .nick) := by
  rw [Server.registerClient, horigin]
  refine h.addClient hc hl hv ?_ ?_ (.inr ⟨rfl, hother⟩)
  · exact ⟨rfl, husername, hhost, rfl, rfl, rfl⟩
  · exact ⟨hnick, hts⟩

/-- The client of this server is put under its id. -/
theorem Shows.saveUser (hl : Linked u link) (h : Shows c home link u s out v)
    (hp : Record s.toTables (c home) (ways home link home) (v home) p d) (hv : v home = .nick)
    (one : Option Serv) (hsave : one = some link ∨ link.save = true) (source : Str) :
    Shows c home link u (s.saveUser one source p)
      (out ++ if one = some link then [] else [.save source (c home).id (c home).tsinfo])
      (update v home .uid) := by
  have hway : d.way = [] := by
    rw [hp.user.way, ways, if_pos rfl]
  have hconn : d.myConnect = true := by
    rw [Client.myConnect, hway, hp.user.fake]
    rfl
  have hmine : d.myClient = true := by
    rw [Client.myClient, hconn, hp.user.status]
    rfl
  have hts : d.tsinfo = (c home).tsinfo := by
    have hfits := hp.fits
    rw [hv] at hfits
    exact hfits.2
  -- What is sent before the nick is changed.
  have hsend := ((h.sendtoServer hl one (fun x => x.save && x.ts6)
    (.save source d.id d.tsinfo)).sendtoServer hl one (fun x => x.ts6 && !x.save)
    (.nick d.id d.id saveNickts)).sendtoServer hl one (fun x => !x.ts6)
    (.nick d.name d.id saveNickts)
  refine ⟨?_, ?_, ?_⟩
  · rw [toSetup_saveUser_mine one hp.client source hmine, h.setup]
  · rw [sent_saveUser_mine one hp.client source hmine, hsend.sent, hp.user.id, hts]
    rcases hsave with rfl | hsave
    · simp
    · by_cases hone : one = some link <;> simp [hone, hsave, hl.ts6]
  · rw [toTables_saveUser_mine one hp.client source hmine]
    refine h.view.rename_id hc hp (by rfl) ?_
    exact ⟨hp.user.id, hp.user.username, hp.user.host, hp.user.status, hp.user.fake, hp.user.way⟩

end

end Effects

/-! ### The decision -/

/-- Who loses: one of the clients, or both. -/
def loser (c : Bool → Client) : Option Bool :=
  if bothLose (c false).tsinfo (c true).tsinfo then none
  else if newLoses (irccmp (c true).username (c false).username &&
      irccmp (c true).host (c false).host) (c false).tsinfo (c true).tsinfo then some false
  else some true

/-- Both servers see whether both clients lose. -/
theorem bothLose_eq (c : Bool → Client) (home : Bool) :
    bothLose (c (!home)).tsinfo (c home).tsinfo = decide (loser c = none) := by
  have hcomm : ∀ x y : ℤ, bothLose x y = bothLose y x := by
    intro x y
    rw [bothLose, bothLose, Bool.eq_iff_iff]
    simp only [Bool.or_eq_true, beq_iff_eq]
    constructor <;> (rintro ((h | h) | h) <;> simp [h])
  have hnone : loser c = none ↔ bothLose (c false).tsinfo (c true).tsinfo = true := by
    rw [loser]
    split_ifs with h <;> simp [h]
  cases home with
  | false =>
    rw [Bool.not_false, hcomm, Bool.eq_iff_iff, decide_eq_true_eq, hnone]
  | true =>
    rw [Bool.not_true, Bool.eq_iff_iff, decide_eq_true_eq, hnone]

/-- Both servers see which one loses. -/
theorem newLoses_eq (c : Bool → Client) (home : Bool) (h : loser c ≠ none) :
    newLoses (irccmp (c home).username (c (!home)).username &&
      irccmp (c home).host (c (!home)).host) (c (!home)).tsinfo (c home).tsinfo =
        decide (loser c = some (!home)) := by
  have hboth : bothLose (c false).tsinfo (c true).tsinfo = false := by
    have heq := bothLose_eq c true
    rw [Bool.not_true, decide_eq_false h] at heq
    exact heq
  have hne : (c false).tsinfo ≠ (c true).tsinfo := by
    intro hts
    rw [bothLose, hts] at hboth
    simp at hboth
  have hsome : loser c = some false ↔ newLoses (irccmp (c true).username (c false).username &&
      irccmp (c true).host (c false).host) (c false).tsinfo (c true).tsinfo = true := by
    rw [loser, if_neg (by simp [hboth])]
    split_ifs with hnew <;> simp [hnew]
  have htrue : loser c = some true ↔ loser c ≠ some false := by
    cases hl : loser c with
    | none => exact absurd hl h
    | some i => cases i <;> simp
  cases home with
  | true =>
    rw [Bool.not_true, Bool.eq_iff_iff, decide_eq_true_eq, hsome]
  | false =>
    rw [Bool.not_false, Bool.eq_iff_iff, decide_eq_true_eq, htrue, Ne, hsome,
      irccmp_comm (c false).username, irccmp_comm (c false).host]
    cases irccmp (c true).username (c false).username && irccmp (c true).host (c false).host <;>
      simp [newLoses] <;> omega

/-- Whether a client loses. -/
def loses (l : Option Bool) (j : Bool) : Bool := decide (l = none ∨ l = some j)

/-- A `SAVE` or a `KILL` for one of the clients. -/
inductive Word
  | save (j : Bool)
  | kill (j : Bool)

/-- The places after a collision: who loses is put under its id, or is gone; a client whose
introduction is refused is not known. -/
def after (l : Option Bool) (saves refused home : Bool) (j : Bool) : Place :=
  if refused then if j = home then .nick else .absent
  else if loses l j then if saves then .uid else .absent
  else .nick

/-- What the server says of it. -/
def answer (l : Option Bool) (saves refused home : Bool) : List Word :=
  if refused then [.kill (!home)]
  else match l with
    | some j => [if saves then .save j else .kill j]
    | none => if saves then [.save home, .save (!home)] else [.kill (!home), .kill home]

/-- What a server with a client at home does to the places when it is told so. A client of the other
server that is under the nick it does not expect to be saved. -/
def act (home : Bool) (v : Bool → Place) : Word → Option (Bool → Place)
  | .save j =>
    if v j = .nick then if j = home then some (update v j .uid) else none else some v
  | .kill j => some (update v j .absent)

/-- What it does when it is told several things. -/
def acts (home : Bool) (v : Bool → Place) : List Word → Option (Bool → Place)
  | [] => some v
  | w :: ws => (act home v w).bind fun v => acts home v ws

/-- The message that says so. -/
def Word.msg (me : Str) (c : Bool → Client) : Word → Msg
  | .save j => .save me (c j).id (c j).tsinfo
  | .kill j => .kill me (c j).id

/-- The places of the two clients. -/
def places (v : Bool → Place) : Place × Place := (v false, v true)

theorem places_inj {v w : Bool → Place} (h : places v = places w) : v = w := by
  obtain ⟨hfalse, htrue⟩ := Prod.ext_iff.mp h
  funext i
  cases i
  · exact hfalse
  · exact htrue

/-- **The servers come to the same places.** Whoever loses, whichever of the servers can save, and
whichever refuses the other's client. -/
theorem acts_answer (l : Option Bool) (savesA savesB refusedA refusedB : Bool) :
    ∃ v, acts false (after l savesA refusedA false) (answer l savesB refusedB true) = some v ∧
      acts true (after l savesB refusedB true) (answer l savesA refusedA false) = some v ∧
      ∀ j, v j ≠ .other := by
  have hcheck : ∀ l : Option Bool, ∀ sA sB rA rB : Bool,
      ((acts false (after l sA rA false) (answer l sB rB true)).map places).any (fun x =>
        decide ((acts true (after l sB rB true) (answer l sA rA false)).map places = some x) &&
          decide (x.1 ≠ .other) && decide (x.2 ≠ .other)) = true := by
    decide
  obtain ⟨x, hx, hsame⟩ := (any_eq_true _ _).mp (hcheck l savesA savesB refusedA refusedB)
  simp only [Bool.and_eq_true, decide_eq_true_eq] at hsame
  obtain ⟨v, hv, rfl⟩ := map_eq_some_iff.mp hx
  obtain ⟨w, hw, hvw⟩ := map_eq_some_iff.mp hsame.1.1
  obtain rfl := places_inj hvw
  refine ⟨w, hv, hw, fun j => ?_⟩
  cases j
  · exact hsame.1.2
  · exact hsame.2

/-! ### The servers do so -/

section Handlers

variable {c : Bool → Client} {home : Bool} {link : Serv} {u : Setup} {s : Server}
  {out : List Msg} {v : Bool → Place} {p : Addr} {d : Client}

/-- The server saves who loses. -/
def saves (u : Setup) (link : Serv) : Bool := u.conf.collisionFnc && link.save

theorem Shows.cast (h : Shows c home link u s out v) {out' : List Msg} {w : Bool → Place}
    (hout : out = out') (hv : ∀ j, v j = w j) : Shows c home link u s out' w := by
  obtain rfl : v = w := funext hv
  exact hout ▸ h

theorem canSave_home (hp : IsUser d (c home) (ways home link home)) : canSave d = true := by
  have hway : d.way = [] := by rw [hp.way, ways, if_pos rfl]
  rw [canSave, Client.myClient, Client.myConnect, hway, hp.fake, hp.status]
  rfl

/-- The record of the client of this server, which is under the nick. -/
theorem Shows.homeRecord (h : Shows c home link u s out v) (hv : v home = .nick) :
    ∃ p d, Record s.toTables (c home) (ways home link home) (v home) p d ∧
      d.tsinfo = (c home).tsinfo := by
  obtain ⟨p, d, hp⟩ := h.view.known home (by simp [hv])
  have hfits := hp.fits
  rw [hv] at hfits
  exact ⟨p, d, hp, hfits.2⟩

/-- **A client is introduced under the nick.** -/
theorem Shows.performNickCollides (hc : Colliding c) (hl : Linked u link)
    (h : Shows c home link u s out v) (hv : v home = .nick) (hother : v (!home) = .absent)
    (hp : Record s.toTables (c home) (ways home link home) (v home) p d)
    (hdts : d.tsinfo = (c home).tsinfo) {parv : Intro} {sockhost : Str}
    (horigin : parv.origin = .uid sockhost (c (!home)).id)
    (husername : parv.username = (c (!home)).username) (hhost : parv.host = (c (!home)).host)
    (hnick : parv.nick = (c (!home)).name) (hts : parv.newts = (c (!home)).tsinfo) :
    Shows c home link u (s.performNickCollides [link] link p parv)
      (out ++ (answer (loser c) (saves u link) false home).map (Word.msg u.me.id c))
      (after (loser c) (saves u link) false home) := by
  have hconf : s.conf = u.conf := by rw [← h.setup]
  have hme : s.me = u.me := by rw [← h.setup]
  have huse : (s.conf.collisionFnc && canSave d && (some (c (!home)).id).isSome &&
      canSaveServer [link]) = saves u link := by
    have hid : link.id.isEmpty = false := by simpa using hl.id
    rw [canSave_home hp.user, hconf, saves, canSaveServer]
    simp [hid]
  have hboth := bothLose_eq c home
  rw [← hts, ← hdts] at hboth
  rw [Server.performNickCollides, hp.client, horigin]
  dsimp only
  rw [huse, hboth, hp.user.fake, hme]
  have hne : home ≠ !home := by cases home <;> decide
  have hother' : update v home .uid (!home) = .absent :=
    (update_of_ne hne.symm ..).trans hother
  have hgone : update v home .absent (!home) = .absent :=
    (update_of_ne hne.symm ..).trans hother
  have hsave : saves u link = true → link.save = true := by
    intro hsaves
    rw [saves, Bool.and_eq_true] at hsaves
    exact hsaves.2
  cases hloser : loser c with
  | none =>
    simp only [decide_true, if_true, Bool.false_eq_true, if_false, getD_some]
    cases hsaves : saves u link with
    | true =>
      rw [if_pos rfl]
      refine ((((h.saveUser hc hl hp hv none (.inr (hsave hsaves)) u.me.id).sendtoOne _)
        ).registerClient_id hc hl hother' horigin husername hhost).cast ?_ ?_
      · simp [answer, Word.msg, hts]
      · intro j
        cases home <;> cases j <;> rfl
    | false =>
      rw [if_neg (by simp)]
      refine ((((h.tell p _).sendtoOne _).killClientServButone hl none
        (hp.user.id ▸ hc.id_ne_nil home)).exitClient hc (by exact hp) _).cast ?_ ?_
      · simp [answer, Word.msg, hp.user.id, Server.tell, hme]
      · intro j
        cases home <;> cases j <;> simp_all [after, loses]
  | some i =>
    have hnew := newLoses_eq c home (by simp [hloser])
    rw [hloser, ← hp.user.username, ← hp.user.host, ← husername, ← hhost, ← hts, ← hdts] at hnew
    simp only [reduceCtorEq, decide_false, Bool.false_eq_true, if_false, getD_some, hnew]
    by_cases hi : i = !home
    · subst hi
      rw [decide_eq_true rfl, if_pos rfl]
      cases hsaves : saves u link with
      | true =>
        rw [if_pos rfl]
        refine ((h.sendtoOne _).registerClient_id hc hl hother horigin husername hhost).cast ?_ ?_
        · simp [answer, Word.msg, hts]
        · intro j
          cases home <;> cases j <;> simp_all [after, loses]
      | false =>
        rw [if_neg (by simp)]
        refine (h.sendtoOne _).cast ?_ ?_
        · simp [answer, Word.msg]
        · intro j
          cases home <;> cases j <;> simp_all [after, loses]
    · obtain rfl : i = home := by cases i <;> cases home <;> simp_all
      rw [decide_eq_false (by simp), if_neg (by simp)]
      cases hsaves : saves u link with
      | true =>
        rw [if_pos rfl]
        refine ((h.saveUser hc hl hp hv none (.inr (hsave hsaves)) u.me.id).registerClient_nick
          hc hl hother' (by simp) horigin husername hhost hnick hts).cast ?_ ?_
        · simp [answer, Word.msg]
        · intro j
          cases i <;> cases j <;> rfl
      | false =>
        rw [if_neg (by simp)]
        refine ((((h.tell p _).killClientServButone hl _
          (hp.user.id ▸ hc.id_ne_nil i)).exitClient hc (by exact hp) _).registerClient_nick
          hc hl hgone (by simp) horigin husername hhost hnick hts).cast ?_ ?_
        · simp [answer, Word.msg, hp.user.id]
        · intro j
          cases i <;> cases j <;> rfl

variable {source_p : Addr} {source : Client}

/-- **A client changes its nick to the nick.** -/
theorem Shows.performNickchangeCollides (hc : Colliding c) (hl : Linked u link)
    (h : Shows c home link u s out v) (hv : v home = .nick)
    (hother : v (!home) = .other ∨ v (!home) = .uid)
    (hp : Record s.toTables (c home) (ways home link home) (v home) p d)
    (hdts : d.tsinfo = (c home).tsinfo)
    (hsource : Record s.toTables (c (!home)) (ways home link (!home)) (v (!home)) source_p source) :
    Shows c home link u
      (s.performNickchangeCollides source_p link p (c (!home)).tsinfo (c (!home)).name)
      (out ++ (answer (loser c) (saves u link) false home).map (Word.msg u.me.id c))
      (after (loser c) (saves u link) false home) := by
  have hconf : s.conf = u.conf := by rw [← h.setup]
  have hme : s.me = u.me := by rw [← h.setup]
  have hne : home ≠ !home := by cases home <;> decide
  have hway : source.way = [link] := by
    rw [hsource.user.way, ways, if_neg hne.symm]
  have huse : (s.conf.collisionFnc && canSave d && canSave source) = saves u link := by
    have hid : source.id.isEmpty = false := by simpa using hsource.user.id ▸ hc.id_ne_nil (!home)
    rw [canSave_home hp.user, hconf, saves, canSave, Client.myClient, Client.myConnect, hway]
    simp [Client.hasId, hid]
  have hboth := bothLose_eq c home
  rw [← hdts] at hboth
  have hstays : ∀ place, update v home place (!home) = v (!home) :=
    fun place => update_of_ne hne.symm ..
  -- A client that is under its id already is not put there again.
  have hdigit : digitName source.name = decide (v (!home) = .uid) := by
    have hfits := hsource.fits
    rcases hother with ho | ho
    · rw [ho] at hfits
      rw [ho, hfits.2]
      rfl
    · rw [ho] at hfits
      have hname : source.name = (c (!home)).id := hfits
      rw [ho, hname, hc.digitId]
      rfl
  have hsourceid : source.id ≠ [] := hsource.user.id ▸ hc.id_ne_nil (!home)
  have hsave : saves u link = true → link.save = true := by
    intro hsaves
    rw [saves, Bool.and_eq_true] at hsaves
    exact hsaves.2
  have hpne : source_p ≠ p := by
    rintro rfl
    have hsame : source = d := by simpa [hsource.client] using hp.client
    exact hne (hc.id_inj (by rw [← hp.user.id, ← hsource.user.id, hsame]))
  rw [Server.performNickchangeCollides, hsource.client, hp.client]
  dsimp only
  rw [huse, hboth, hp.user.fake, hdigit, hme]
  cases hloser : loser c with
  | none =>
    simp only [decide_true, if_true, Bool.false_eq_true, if_false, Bool.not_false, Bool.and_true,
      decide_eq_true_eq]
    cases hsaves : saves u link with
    | true =>
      rw [if_pos rfl]
      have hsaved := (h.saveUser hc hl hp hv none (.inr (hsave hsaves)) u.me.id).sendtoOne
        (.save u.me.id source.id (c (!home)).tsinfo)
      have hrecord := hsaved.view.record (j := !home)
        ((client_saveUser_of_ne none _ hpne).trans hsource.client) hsource.user.id
      split_ifs with huid
      · refine hsaved.cast ?_ ?_
        · simp [answer, Word.msg, hsource.user.id]
        · intro j
          cases home <;> cases j <;> simp_all [after, loses]
      · refine (hsaved.changeRemoteNick_id hc hl hrecord (.inl rfl) _).cast ?_ ?_
        · simp [answer, Word.msg, hsource.user.id]
        · intro j
          cases home <;> cases j <;> rfl
    | false =>
      rw [if_neg (by simp)]
      have hkilled := (((h.tell p (.nickCollision d.name)).killClientServButone hl none
        hsourceid).killClientServButone hl none (hp.user.id ▸ hc.id_ne_nil home)).exitClient hc
        (by exact hp) none
      have hrecord := hkilled.view.record (j := !home)
        ((client_exitClient_of_ne none _ hpne).trans hsource.client) hsource.user.id
      refine (hkilled.exitClient hc hrecord _).cast ?_ ?_
      · simp [answer, Word.msg, hsource.user.id, hp.user.id]
      · intro j
        cases home <;> cases j <;> simp_all [after, loses]
  | some i =>
    have hts : (c (!home)).tsinfo ≠ 0 := by
      intro hzero
      rw [hloser, hzero, bothLose] at hboth
      simp at hboth
    have hnew := newLoses_eq c home (by simp [hloser])
    rw [hloser, ← hp.user.username, ← hp.user.host, ← hsource.user.username,
      ← hsource.user.host, ← hdts] at hnew
    simp only [reduceCtorEq, decide_false, Bool.false_eq_true, if_false, hnew]
    by_cases hi : i = !home
    · subst hi
      rw [decide_eq_true rfl, if_pos rfl]
      cases hsaves : saves u link with
      | true =>
        simp only [if_true, decide_eq_true_eq]
        split_ifs with huid
        · refine (h.sendtoOne _).cast ?_ ?_
          · simp [answer, Word.msg, hsource.user.id]
          · intro j
            cases home <;> cases j <;> simp_all [after, loses]
        · refine ((h.sendtoOne _).changeRemoteNick_id hc hl (by exact hsource) (.inl rfl)
            _).cast ?_ ?_
          · simp [answer, Word.msg, hsource.user.id]
          · intro j
            cases home <;> cases j <;> simp_all [after, loses]
      | false =>
        rw [if_neg (by simp)]
        refine (((h.tell source_p _).killClientServButone hl _ hsourceid).exitClient hc
          (by exact hsource) _).cast ?_ ?_
        · simp [answer, Word.msg, hsource.user.id]
        · intro j
          cases home <;> cases j <;> simp_all [after, loses]
    · obtain rfl : i = home := by cases i <;> cases home <;> simp_all
      rw [decide_eq_false (by simp), if_neg (by simp)]
      cases hsaves : saves u link with
      | true =>
        rw [if_pos rfl]
        have hsaved := h.saveUser hc hl hp hv none (.inr (hsave hsaves)) u.me.id
        have hrecord := hsaved.view.record (j := !i)
          ((client_saveUser_of_ne none _ hpne).trans hsource.client) hsource.user.id
        refine (hsaved.changeRemoteNick_nick hc hl hrecord (by rwa [hstays]) (by simp)
          hts).cast ?_ ?_
        · simp [answer, Word.msg]
        · intro j
          cases i <;> cases j <;> rfl
      | false =>
        rw [if_neg (by simp)]
        have hkilled := ((h.tell p (.nickCollision d.name)).killClientServButone hl (some link)
          (hp.user.id ▸ hc.id_ne_nil i)).exitClient hc (by exact hp) (some link)
        have hrecord := hkilled.view.record (j := !i)
          ((client_exitClient_of_ne _ _ hpne).trans hsource.client) hsource.user.id
        refine (hkilled.changeRemoteNick_nick hc hl hrecord (by rwa [hstays]) (by simp)
          hts).cast ?_ ?_
        · simp [answer, Word.msg, hp.user.id]
        · intro j
          cases i <;> cases j <;> rfl

/-- The parameters of `UID` for a client. -/
def introParv (d : Client) : Intro :=
  ⟨d.name, d.hopcount + 1, d.tsinfo, d.username, d.host, d.info, .uid d.sockhost d.id⟩

/-- The user, the host or the id of a client is not accepted. -/
def refused (d : Client) : Bool := !(cleanUsername d.username && cleanHost d.host && cleanUid d.id)

/-- A nick that is clean for a client here is clean when another server says it. -/
theorem cleanNick_other {conf conf' : Conf} {a b : Str} (hsame : irccmp a b = true)
    (ha : cleanNick conf a true = true) (hb : cleanNick conf' b true = true) :
    cleanNick conf b false = true := by
  have hlength : a.length = b.length := by
    simpa using congrArg length (irccmp_iff.mp hsame)
  simp only [cleanNick, Bool.and_eq_true, Bool.not_eq_true', decide_eq_true_eq, Bool.true_and,
    Bool.false_and, Bool.not_false, and_true] at ha hb ⊢
  exact ⟨⟨hb.1.1.1.1, hb.1.1.2⟩, hlength ▸ ha.2⟩

theorem Shows.msNick (hc : Colliding c) (hl : Linked u link) (h : Shows c home link u s out v)
    (hv : v home = .nick) (hother : v (!home) = .absent)
    (hclean : cleanNick u.conf (c (!home)).name false = true) :
    Shows c home link u (msNick s link [link] (introParv (c (!home))))
      (out ++ (answer (loser c) (saves u link) (refused (c (!home))) home).map
        (Word.msg u.me.id c))
      (after (loser c) (saves u link) (refused (c (!home))) home) := by
  have hconf : s.conf = u.conf := by rw [← h.setup]
  have hme : s.me = u.me := by rw [← h.setup]
  have hrefused : cleanIntro s.conf (introParv (c (!home))) = !refused (c (!home)) := by
    simp [cleanIntro, introParv, refused, hconf, hclean, Bool.and_assoc]
  obtain ⟨p, d, hp, hdts⟩ := h.homeRecord hv
  have hfind : s.findClient (introParv (c (!home))).nick = some p := by
    refine (findClient_nick hc (!home)).trans ?_
    have hp' := hp
    rw [hv] at hp'
    exact hp'.findNick hc h.view.wf (!home)
  rw [Nick.msNick, hrefused]
  cases hrej : refused (c (!home)) with
  | true =>
    rw [if_neg (by simp), hme]
    refine (h.sendtoOne _).cast ?_ ?_
    · simp [answer, Word.msg]
    · intro j
      cases home <;> cases j <;> simp_all [after]
  | false =>
    rw [Bool.not_false, if_pos rfl]
    dsimp only
    rw [takeNick, hfind]
    dsimp only
    rw [hp.client]
    dsimp only
    rw [if_neg (by simp [hp.user.status]), if_neg (by simp)]
    exact h.performNickCollides hc hl hv hother hp hdts rfl rfl rfl rfl rfl

theorem Shows.mcNick (hc : Colliding c) (hl : Linked u link) (h : Shows c home link u s out v)
    (hv : v home = .nick) (hother : v (!home) = .other ∨ v (!home) = .uid)
    (hclean : cleanNick u.conf (c (!home)).name false = true)
    (hsource :
      Record s.toTables (c (!home)) (ways home link (!home)) (v (!home)) source_p source) :
    Shows c home link u (mcNick s link source_p (c (!home)).name (c (!home)).tsinfo)
      (out ++ (answer (loser c) (saves u link) false home).map (Word.msg u.me.id c))
      (after (loser c) (saves u link) false home) := by
  have hconf : s.conf = u.conf := by rw [← h.setup]
  have hne : home ≠ !home := by cases home <;> decide
  obtain ⟨p, d, hp, hdts⟩ := h.homeRecord hv
  have hfind : s.findClient (c (!home)).name = some p := by
    refine (findClient_nick hc (!home)).trans ?_
    have hp' := hp
    rw [hv] at hp'
    exact hp'.findNick hc h.view.wf (!home)
  have hpne : source_p ≠ p := by
    rintro rfl
    have hsame : source = d := by simpa [hsource.client] using hp.client
    exact hne (hc.id_inj (by rw [← hp.user.id, ← hsource.user.id, hsame]))
  rw [Nick.mcNick, hsource.client]
  dsimp only
  rw [if_neg (by simp [hconf, hclean]), takeNick, hfind]
  dsimp only
  rw [hp.client]
  dsimp only
  rw [if_neg (by simp [hp.user.status]), if_neg (by simpa using hpne)]
  exact h.performNickchangeCollides hc hl hv hother hp hdts hsource

/-- **A `SAVE` or a `KILL`** is done, or finds nothing to do, and nothing is answered. -/
theorem Shows.act (hc : Colliding c) (hl : Linked u link) (h : Shows c home link u s out v)
    (hknown : ∀ j, v j ≠ .other) {w : Word} {v' : Bool → Place} (hact : act home v w = some v')
    (source : Str × Str) :
    (∀ j, v' j ≠ .other) ∧ match w with
      | .save j => Shows c home link u (msSave s link source.2 (c j).id (c j).tsinfo) out v'
      | .kill j => Shows c home link u (msKill s link source (c j).id) out v' := by
  cases w with
  | save j =>
    rw [Nick.act] at hact
    dsimp only
    rw [Nick.msSave]
    cases hvj : v j with
    | absent =>
      rw [hvj, if_neg (by simp)] at hact
      cases hact
      rw [h.view.findId_absent hc hvj]
      exact ⟨hknown, h⟩
    | other => exact absurd hvj (hknown j)
    | uid =>
      rw [hvj, if_neg (by simp)] at hact
      cases hact
      obtain ⟨p, d, hp⟩ := h.view.known j (by simp [hvj])
      have hname : d.name = (c j).id := by
        have hfits := hp.fits
        rw [hvj] at hfits
        exact hfits
      rw [hp.findId hc h.view.wf]
      dsimp only
      rw [hp.client]
      dsimp only
      rw [if_neg (by simp [hp.user.status]), if_pos (by rw [hname, hc.digitId])]
      exact ⟨hknown, h⟩
    | nick =>
      rw [hvj, if_pos rfl] at hact
      obtain ⟨rfl, rfl⟩ : j = home ∧ update v j .uid = v' := by
        by_cases hj : j = home
        · exact ⟨hj, by simpa [hj] using hact⟩
        · rw [if_neg hj] at hact
          cases hact
      obtain ⟨p, d, hp, hdts⟩ := h.homeRecord hvj
      have hname : digitName d.name = false := by
        have hfits := hp.fits
        rw [hvj] at hfits
        rw [hfits.1, hc.digit_nick]
      rw [hp.findId hc h.view.wf]
      dsimp only
      rw [hp.client]
      dsimp only
      rw [if_neg (by simp [hp.user.status]), if_neg (by simp [hname]), if_pos hdts]
      refine ⟨fun i => ?_, (h.saveUser hc hl hp hvj (some link) (.inl rfl) source.2).cast
        (by simp) fun _ => rfl⟩
      by_cases hij : i = j
      · simp [hij]
      · rw [update_of_ne hij]
        exact hknown i
  | kill j =>
    cases hact
    have hgone : ∀ i, update v j .absent i ≠ .other := by
      intro i
      by_cases hij : i = j
      · simp [hij]
      · rw [update_of_ne hij]
        exact hknown i
    dsimp only
    refine ⟨hgone, ?_⟩
    rw [Nick.msKill, findClient_id hc]
    cases hvj : v j with
    | absent =>
      rw [h.view.findId_absent hc hvj, ← hvj, update_eq_self]
      exact h
    | _ =>
      obtain ⟨p, d, hp⟩ := h.view.known j (by simp [hvj])
      rw [hp.findId hc h.view.wf]
      dsimp only
      rw [hp.client]
      dsimp only
      rw [if_neg (by simp [hp.user.status]), hp.user.fake, if_neg (by simp)]
      exact (h.relayKill hl source d).exitClient hc (by exact hp) (some link)

end Handlers

/-! ### A server with a client of its own -/

section Exchange

variable {c : Bool → Client} {home : Bool} {link : Serv} {u : Setup} {s : Server}
  {v : Bool → Place}

/-- A server is set up as it was, and has the clients at places. -/
structure Held (c : Bool → Client) (home : Bool) (link : Serv) (u : Setup) (v : Bool → Place)
    (s : Server) : Prop where
  setup : s.toSetup = u
  view : View c (ways home link) s.toTables v

/-- The message that brings the nick of a client: the client is introduced, or changes its nick. -/
def announce (me : Str) (d : Client) (byUid : Bool) : Msg :=
  if byUid then .intro me (introParv d) else .nick d.id d.name d.tsinfo

/-- Where a server has the client of the other one before its nick comes. -/
def Unheard (byUid : Bool) (place : Place) : Prop :=
  if byUid then place = .absent else place = .other ∨ place = .uid

theorem Held.shows (h : Held c home link u v s) :
    Shows c home link u { s with sent := [] } [] v := ⟨h.setup, rfl, h.view⟩

theorem Shows.held {m : Msg} {out : List Msg}
    (h : Shows c home link u (receive { s with sent := [] } link m) out v) :
    (recv link s m).2 = out ∧ Held c home link u v (recv link s m).1 :=
  ⟨h.sent, h.setup, h.view⟩

theorem sourceServer_link (hl : Linked u link) (hs : s.toSetup = u) :
    sourceServer s link link.id = some [link] := by
  have hfound : s.findServer link.id = some [link] := hs ▸ hl.found
  rw [sourceServer, hfound]
  simp

/-- **The nick of the other client comes**, and the server answers. -/
theorem Held.announced (hc : Colliding c) (hl : Linked u link) (h : Held c home link u v s)
    (hv : v home = .nick) {byUid : Bool} (hother : Unheard byUid (v (!home)))
    (hclean : cleanNick u.conf (c (!home)).name false = true) :
    (recv link s (announce link.id (c (!home)) byUid)).2 =
        (answer (loser c) (saves u link) (byUid && refused (c (!home))) home).map
          (Word.msg u.me.id c) ∧
      Held c home link u
        (after (loser c) (saves u link) (byUid && refused (c (!home))) home)
        (recv link s (announce link.id (c (!home)) byUid)).1 := by
  refine Shows.held ?_
  have hshows := h.shows
  cases byUid with
  | true =>
    have hcoll := hshows.msNick hc hl hv (by exact hother) hclean
    rw [announce, if_pos rfl, receive]
    dsimp only [introParv]
    rw [sourceServer_link hl hshows.setup]
    exact hcoll
  | false =>
    have hplace : v (!home) = .other ∨ v (!home) = .uid := hother
    obtain ⟨p, d, hp⟩ := hshows.view.known (!home) (by rcases hplace with h | h <;> simp [h])
    have hfind : Tables.findClient { s with sent := [] }.toTables (c (!home)).id = some p :=
      (findClient_id hc (!home)).trans (hp.findId hc hshows.view.wf)
    have hway : d.way = [link] := by
      rw [hp.user.way, ways, if_neg (by cases home <;> decide)]
    rw [announce, if_neg (by simp), receive]
    rw [hfind]
    dsimp only
    rw [if_pos (by rw [hp.client]; simp [Client.link, hway])]
    exact hshows.mcNick hc hl hv hplace hclean hp

/-- A `SAVE` or a `KILL` of the other server comes, and nothing is answered. -/
theorem Held.told (hc : Colliding c) (hl : Linked u link) (h : Held c home link u v s)
    (hknown : ∀ j, v j ≠ .other) {w : Word} {v' : Bool → Place} (hact : act home v w = some v') :
    (recv link s (w.msg link.id c)).2 = [] ∧ (∀ j, v' j ≠ .other) ∧
      Held c home link u v' (recv link s (w.msg link.id c)).1 := by
  obtain ⟨hknown', hdone⟩ := h.shows.act hc hl hknown hact (link.name, link.id)
  have hsource := sourceServer_link hl h.shows.setup
  suffices hshows : Shows c home link u (receive { s with sent := [] } link (w.msg link.id c)) [] v'
    from ⟨hshows.held.1, hknown', hshows.held.2⟩
  cases w with
  | save j =>
    rw [Word.msg, receive, hsource]
    exact hdone
  | kill j =>
    rw [Word.msg, receive, hsource]
    exact hdone

/-- What is left to come leads to the places. -/
def LeadsTo (c : Bool → Client) (home : Bool) (link : Serv) (u : Setup) (final : Bool → Place)
    (ms : List Msg) (s : Server) : Prop :=
  ∃ ws v, ms = ws.map (Word.msg link.id c) ∧ acts home v ws = some final ∧ (∀ j, v j ≠ .other) ∧
    Held c home link u v s

variable {final : Bool → Place}

theorem LeadsTo.recv (hc : Colliding c) (hl : Linked u link) {m : Msg}
    {ms : List Msg} (h : LeadsTo c home link u final (m :: ms) s) :
    LeadsTo c home link u final ms (recv link s m).1 ∧ (Nick.recv link s m).2 = [] := by
  obtain ⟨ws, v, hms, hacts, hknown, hheld⟩ := h
  cases ws with
  | nil => cases hms
  | cons w ws =>
    obtain ⟨rfl, rfl⟩ := cons.inj hms
    obtain ⟨v', hact, hrest⟩ := bind_eq_some_iff.mp hacts
    obtain ⟨hout, hknown', hheld'⟩ := hheld.told hc hl hknown hact
    exact ⟨⟨ws, v', rfl, hrest, hknown', hheld'⟩, hout⟩

theorem LeadsTo.held (h : LeadsTo c home link u final [] s) : Held c home link u final s := by
  obtain ⟨ws, v, hms, hacts, -, hheld⟩ := h
  obtain rfl : ws = [] := map_eq_nil_iff.mp hms.symm
  cases hacts
  exact hheld

end Exchange

/-! ### The two servers agree -/

/-- The nick that a server knows the client with an id under. -/
def knownAs (s : Server) (id : Str) : Option Str :=
  (s.findId id).bind fun p => (s.client p).map (·.name)

/-- The id of the client that a server has under a nick. -/
def owner (s : Server) (nick : Str) : Option Str :=
  (s.findNick nick).bind fun p => (s.client p).map (·.id)

/-- Two servers agree on who has the nick, and on the nick of each of the clients. -/
structure Agree (c : Bool → Client) (a b : Server) : Prop where
  owner : ∀ i, owner a (c i).name = Nick.owner b (c i).name
  knownAs : ∀ i, knownAs a (c i).id = Nick.knownAs b (c i).id

section Agreement

variable {c : Bool → Client} {way : Bool → List Serv} {s : Server} {v : Bool → Place}

/-- The nick of a client, at a place. -/
def Place.name (c : Client) : Place → Option Str
  | .absent | .other => none
  | .nick => some c.name
  | .uid => some c.id

theorem View.knownAs (hc : Colliding c) (h : View c way s.toTables v) {i : Bool}
    (hv : v i ≠ .other) : knownAs s (c i).id = (v i).name (c i) := by
  rw [Nick.knownAs]
  cases hvi : v i with
  | absent =>
    rw [h.findId_absent hc hvi]
    rfl
  | other => exact absurd hvi hv
  | nick =>
    obtain ⟨p, d, hp⟩ := h.known i (by simp [hvi])
    have hfits := hp.fits
    rw [hvi] at hfits
    rw [hp.findId hc h.wf, bind_some, hp.client, map_some, hfits.1, Place.name]
  | uid =>
    obtain ⟨p, d, hp⟩ := h.known i (by simp [hvi])
    have hname : d.name = (c i).id := by
      have hfits := hp.fits
      rw [hvi] at hfits
      exact hfits
    rw [hp.findId hc h.wf, bind_some, hp.client, map_some, hname, Place.name]

theorem View.owner_nick (hc : Colliding c) (h : View c way s.toTables v) {i : Bool}
    (hv : v i = .nick) (j : Bool) : owner s (c j).name = some (c i).id := by
  obtain ⟨p, d, hp⟩ := h.known i (by simp [hv])
  have hid := hp.user.id
  have hclient := hp.client
  rw [hv] at hp
  rw [owner, hp.findNick hc h.wf j, bind_some, hclient, map_some, hid]

theorem View.owner_none (hc : Colliding c) (h : View c way s.toTables v) (hv : ∀ i, v i ≠ .nick)
    (j : Bool) : owner s (c j).name = none := by
  rw [owner, h.findNick_none hc hv j]
  rfl

/-- Servers with the clients at the same places agree. -/
theorem View.agree (hc : Colliding c) {way' : Bool → List Serv} {s' : Server}
    (h : View c way s.toTables v) (h' : View c way' s'.toTables v) (hv : ∀ i, v i ≠ .other) :
    Agree c s s' where
  owner := by
    intro j
    by_cases hnick : ∃ i, v i = .nick
    · obtain ⟨i, hi⟩ := hnick
      rw [h.owner_nick hc hi, h'.owner_nick hc hi]
    · rw [not_exists] at hnick
      rw [h.owner_none hc hnick, h'.owner_none hc hnick]
  knownAs := fun i => by rw [h.knownAs hc (hv i), h'.knownAs hc (hv i)]

end Agreement

/-- **Two linked servers, each with a client of its own under the nick.** The nick of the other
one's client has not come yet. -/
structure Start (c : Bool → Client) (link : Bool → Serv) (byUid : Bool → Bool)
    (s : Bool → Server) : Prop where
  colliding : Colliding c
  linked : ∀ i, Linked (s i).toSetup (link i)
  peer : ∀ i, (link i).id = (s (!i)).me.id
  clean : ∀ i, cleanNick (s i).conf (c i).name true = true
  here : ∀ i, ∃ v, Held c i (link i) (s i).toSetup v (s i) ∧ v i = .nick ∧
    Unheard (byUid (!i)) (v (!i))

/-- The nicks of the clients are on the way. -/
def crossing (c : Bool → Client) (byUid : Bool → Bool) (s : Bool → Server) :
    Config Server Msg where
  party := s
  inbox i := [announce (s (!i)).me.id (c (!i)) (byUid (!i))]

section Run

variable {c : Bool → Client} {link : Bool → Serv} {byUid : Bool → Bool} {s : Bool → Server}

/-- A server takes the nick of the other one's client. -/
theorem Start.announced (h : Start c link byUid s) (i : Bool) :
    (recv (link i) (s i) (announce (s (!i)).me.id (c (!i)) (byUid (!i)))).2 =
        (answer (loser c) (saves (s i).toSetup (link i)) (byUid (!i) && refused (c (!i))) i).map
          (Word.msg (s i).me.id c) ∧
      Held c i (link i) (s i).toSetup
        (after (loser c) (saves (s i).toSetup (link i)) (byUid (!i) && refused (c (!i))) i)
        (recv (link i) (s i) (announce (s (!i)).me.id (c (!i)) (byUid (!i)))).1 := by
  obtain ⟨v, hheld, hv, hother⟩ := h.here i
  have hclean := cleanNick_other (h.colliding.irccmp_nick i (!i)) (h.clean i) (h.clean (!i))
  have hclean' : cleanNick (s i).conf (c (!i)).name false = true := hclean
  rw [← h.peer i]
  exact hheld.announced h.colliding (h.linked i) hv hother hclean'

/-- One run: both servers take the nicks, then what they say of them. -/
theorem Start.run (h : Start c link byUid s) :
    ∃ n q, Steps (fun i => recv (link i)) n (crossing c byUid s) q ∧ Quiet q ∧
      Agree c (q.party false) (q.party true) := by
  let took (i : Bool) : Server × List Msg :=
    recv (link i) (s i) (announce (s (!i)).me.id (c (!i)) (byUid (!i)))
  obtain ⟨v, hactsA, hactsB, hv⟩ := acts_answer (loser c) (saves (s false).toSetup (link false))
    (saves (s true).toSetup (link true)) (byUid true && refused (c true))
    (byUid false && refused (c false))
  have hknown : ∀ (l : Option Bool) (saves refused home j : Bool),
      after l saves refused home j ≠ .other := by decide
  -- What each answers leads the other to the places.
  have hleads : ∀ i, LeadsTo c i (link i) (s i).toSetup v (took (!i)).2 (took i).1 := by
    intro i
    refine ⟨answer (loser c) (saves (s (!i)).toSetup (link (!i)))
      (byUid i && refused (c i)) (!i), _, ?_, ?_, hknown _ _ _ _, (h.announced i).2⟩
    · rw [h.peer i]
      simpa [took] using (h.announced (!i)).1
    · cases i
      · exact hactsA
      · exact hactsB
  have hnicks : Steps (fun i => recv (link i)) 2 (crossing c byUid s)
      ⟨fun i => (took i).1, fun i => (took (!i)).2⟩ := by
    have hfirst : deliver (fun i => recv (link i)) false (crossing c byUid s) =
        some ⟨update s false (took false).1, fun i => if i then
          announce (s false).me.id (c false) (byUid false) :: (took false).2 else []⟩ := by
      refine deliver_eq_some.mpr ⟨_, [], rfl, rfl, ?_⟩
      funext i
      cases i <;> rfl
    refine Steps.head false hfirst (Steps.head true
      (deliver_eq_some.mpr ⟨_, (took false).2, rfl, ?_, ?_⟩) (Steps.refl _))
    · funext i
      cases i <;> rfl
    · funext i
      cases i <;> rfl
  have hdrain : ∀ (i : Bool) (d : Config Server Msg), d.inbox i = (took (!i)).2 →
      d.party i = (took i).1 → ∃ t, Held c i (link i) (s i).toSetup v t ∧
        Steps (fun i => recv (link i)) (took (!i)).2.length d
          ⟨update d.party i t, update d.inbox i []⟩ := by
    intro i d hin hparty
    obtain ⟨t, hend, hsteps⟩ := @Steps.drain _ _ (fun i => recv (link i)) i
      (LeadsTo c i (link i) (s i).toSetup v)
      (fun _ _ _ hleads => hleads.recv h.colliding (h.linked i)) _ _ hin (hparty ▸ hleads i)
    exact ⟨t, hend.held, hsteps⟩
  obtain ⟨a, ha, hdrainA⟩ :=
    hdrain false ⟨fun i => (took i).1, fun i => (took (!i)).2⟩ rfl rfl
  obtain ⟨b, hb, hdrainB⟩ := hdrain true
    ⟨update (fun i => (took i).1) false a,
      update (fun i => (took (!i)).2) false []⟩ rfl rfl
  refine ⟨_, _, hnicks.trans (hdrainA.trans hdrainB), ?_, ha.view.agree h.colliding hb.view hv⟩
  intro i
  cases i <;> rfl

/-- **Two servers whose clients collide come to agree.** Whatever the order of the messages, all are
consumed after finitely many deliveries, and then the servers agree on who has the nick, and on the
nick of each of the clients. -/
theorem collision_agrees (h : Start c link byUid s) :
    ∃ n, ∀ m d, Steps (fun i => recv (link i)) m (crossing c byUid s) d →
      m ≤ n ∧ (∃ k q, Steps (fun i => recv (link i)) k d q ∧ Quiet q) ∧
        (Quiet d → Agree c (d.party false) (d.party true)) := by
  obtain ⟨n, q, hrun, hquiet, hagree⟩ := h.run
  refine ⟨n, fun m d hd => ?_⟩
  obtain ⟨k, rfl, hk⟩ := hrun.descent hquiet hd
  refine ⟨Nat.le_add_right m k, ⟨k, q, hk, hquiet⟩, fun hdq => ?_⟩
  rw [hrun.eq_of_quiet hquiet hd hdq]
  exact hagree

end Run

/-- Two clients with one nick, of different users. -/
def twoAnns (i : Bool) : Client :=
  { name := ['a', 'n', 'n'], username := [if i then 'x' else 'y'], host := ['h'], sockhost := ['0'],
    info := [], id := if i then ['1', 'B', 'A', 'A', 'A', 'A', 'A', 'A', 'A']
      else ['0', 'A', 'A', 'A', 'A', 'A', 'A', 'A', 'A'],
    tsinfo := if i then 90 else 80, hopcount := 0, status := .client, way := [], fake := false,
    exemptResv := false, oper := false, lastNickChange := 0, numberOfNickChanges := 0 }

/-- Two servers; one of them cannot save. -/
def twoServs (i : Bool) : Serv :=
  if i then ⟨['b', '.'], ['1', 'B', 'B'], true, true⟩ else ⟨['a', '.'], ['0', 'A', 'A'], false,
    true⟩

/-- Each server has a client and a link to the other one. -/
def twoServers (i : Bool) : Server :=
  { toTables := Tables.empty.enter (twoAnns i),
    conf := ⟨true, false, 20, 5, 60, 10, 1, fun _ => false⟩, me := twoServs i,
    servList := [twoServs (!i)], servers := [[twoServs (!i)]], now := 100, sent := [], told := [] }

theorem collision_agrees_anns :
    Colliding twoAnns ∧ ∃ n, ∀ m d, Steps (fun i => recv (twoServs (!i))) m
      (crossing twoAnns (fun _ => true) twoServers) d →
        m ≤ n ∧ (∃ k q, Steps (fun i => recv (twoServs (!i))) k d q ∧ Quiet q) ∧
          (Quiet d → Agree twoAnns (d.party false) (d.party true)) := by
  have hc : Colliding twoAnns := by
    refine ⟨by decide, by decide, by decide, by decide, by decide⟩
  refine ⟨hc, collision_agrees
    { colliding := hc
      linked := fun i => by
        cases i <;> exact ⟨by decide, by decide, by decide, by decide, by decide, by decide⟩
      peer := fun _ => rfl
      clean := by decide
      here := fun i => ?_ }⟩
  have hempty : View twoAnns (ways i (twoServs (!i))) Tables.empty fun _ => .absent :=
    ⟨Tables.wellFormed_empty, fun _ _ p d hp => by simp [Tables.empty] at hp,
      fun _ h => absurd rfl h, fun p d hp => by simp [Tables.empty] at hp⟩
  have huser : IsUser (twoAnns i) (twoAnns i) (ways i (twoServs (!i)) i) := by
    refine ⟨rfl, rfl, rfl, rfl, rfl, ?_⟩
    rw [ways, if_pos rfl]
    rfl
  refine ⟨_, ⟨rfl, hempty.enter (j := i) hc rfl huser (show Place.nick.Fits _ _ from ⟨rfl, rfl⟩)
    (.inr ⟨rfl, by simp⟩)⟩, Function.update_self .., ?_⟩
  cases i <;> rfl

end Ratbox.Nick
