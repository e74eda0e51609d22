import Ratbox.Hostmask.Runs
import Ratbox.Kline.Basic
import Ratbox.Masks

/-!
# Redundant K-lines

A K-line is not placed if the text of its masks, and the first address of its network, are matched
by a K-line that is in force. The masks are compared with `match`, where a `?` of the old mask takes
a `*` of the new one for a character, and of the networks only the first addresses are compared: the
old K-line need not match all that the new one would.

Source: `modules/m_kline.c`, lines 660–705, `src/bandbi.c`, lines 220–261, and `src/hostmask.c`,
lines 217–318.

## Main definitions

* `Kline.Rejected`: the K-line is found to be redundant.
* `Kline.wouldMatch`: the K-line would match a client.
* `Kline.CoversMasks`: a K-line in force covers the masks of the new one.

## Main results

* `Kline.redundant_sound`: if a K-line in force covers the masks of a new one, wherever one matches
  their text, then a client that the new one would match is matched.
-/

namespace Ratbox.Kline

open Text Address Match Hostmask Patricia CritBit Dlines Run List

variable {κ : Type}

/-! ### Clients -/

/-- The user name, the host name, the text of the address and the address of a client. -/
structure Client where
  username : Str
  host : Str
  sockhost : Str
  ip : Ip
  deriving DecidableEq

/-- What is searched for a client. -/
def Client.query (c : Client) : Query := ⟨some c.host, some c.sockhost, some c.ip, some c.username⟩

/-- What is searched for the masks of a new K-line. -/
def maskQuery (user host : Str) : Query := ⟨some host, none, (netmask host).map (·.1), some user⟩

/-- A K-line in the table matches the client. -/
def isMatched (t : Table κ) (c : Client) : Bool := (t.findConfByAddress .kill c.query).isSome

/-- The K-line would match the client, if it was the only one. -/
def wouldMatch (user host : Str) (c : Client) : Bool :=
  isMatched ((init : Table Unit).addConfByAddress (some host) .kill (some user) ()) c

/-! ### Checks -/

/-- The search of `bandb_check_kline`: a K-line is found that is not temporary. -/
def alreadyPermanent (temporary : κ → Bool) (t : Table κ) (user host : Str) : Bool :=
  (t.findConfByAddress .kill (maskQuery user host)).any fun kconf => !temporary kconf

/-- The K-line is found to be redundant, by `already_placed_kline` or by `bandb_check_kline`. -/
def Rejected (u : Setup) (temporary : κ → Bool) (t : Table κ) (user host : Str) : Prop :=
  alreadyPlacedKline u t user host = true ∨ alreadyPermanent temporary t user host = true

/-! ### Covering -/

/-- The K-line covers the masks: it has a network with no more bits, which the first address is in,
or its masks match those by `mask_match`. A mask of host names that is compared with texts of
addresses is covered by one that is compared with them too. -/
def CoversMasks (r : Rec κ) (user host : Str) : Prop :=
  (r.skipUser = true ∨ maskMatch r.username (orSplat user) = true) ∧
    match r.mask, parseNetmask host with
    | .ipv4 dest bits, .ipv4 addr bits' => bits ≤ bits' ∧ Agree bits.toNat (bitTest addr.bytes)
      (bitTest dest.bytes)
    | .ipv6 dest bits, .ipv6 addr bits' => bits ≤ bits' ∧ Agree bits.toNat (bitTest addr.bytes)
      (bitTest dest.bytes)
    | .host, .host => maskMatch r.address host = true ∧ (bucketOf host = 0 → bucketOf r.address = 0)
    | .host, _ => maskMatch r.address ['*'] = true
    | _, _ => False

/-- `match` does not give up when the masks of the K-line are compared with the names of the
client. -/
def EndsOn (r : Rec κ) (c : Client) : Prop :=
  (r.skipUser = true ∨ Ends r.username c.username) ∧
    (r.mask = .host → Ends r.address c.host ∧ Ends r.address c.sockhost)

/-- If a K-line in force matches the text of the masks, then one covers them, for the client. -/
def Sound (s : Hostmask.State κ) (user host : Str) (c : Client) : Prop :=
  (∃ r ∈ s.live, r.Matches .kill (maskQuery user host)) →
    ∃ r ∈ s.live, r.type = .kill ∧ CoversMasks r user host ∧ EndsOn r c

section Single

variable {user host : Str} {c : Client}

/-- The record of the new K-line. -/
def newRec (user host : Str) :
    Rec Unit := (init : Table Unit).makeRec (some host) .kill (some user) ()

/-- The table with the new K-line only. -/
theorem held_single (hhost : WellFormed host) : Held
    (⟨(init : Table Unit).addConfByAddress (some host) .kill (some user) (), [newRec user host],
      0⟩ :
      Hostmask.State Unit) := by
  have hvalid : (Op.add (some host) .kill (some user) ()).Valid (Hostmask.start :
    Hostmask.State Unit) :=
    ⟨hhost, by simp [Hostmask.start]⟩
  exact held_start.step (fun _ => false) hvalid rfl

/-- The user name is one that the mask stands for. -/
theorem standsFor_user (h : (newRec user host).userMatches c.query = true) :
    StandsFor (orSplat user) c.username := by
  rw [Rec.userMatches, Bool.or_eq_true] at h
  rw [orSplat]
  split_ifs with huser
  · exact stands_star c.username
  · obtain hskip | hmatch := h
    · obtain rfl : user = ['*'] := by simpa [newRec, Table.makeRec, huser] using hskip
      exact stands_star c.username
    · exact .of_matchMask hmatch

/-- What the new K-line would match. -/
theorem of_wouldMatch (hhost : WellFormed host) (h : wouldMatch user host c = true) :
    StandsFor (orSplat user) c.username ∧ ((newRec user host).Covers c.query ∨
      (bucketOf host = 0 ∧ (newRec user host).matchesName c.sockhost = true)) := by
  rw [wouldMatch, isMatched, Table.findConfByAddress, Option.isSome_map, isSome_head?] at h
  obtain ⟨r, hr⟩ := exists_mem_of_ne_nil _ h
  obtain ⟨hr, -, huser, hcovers⟩ := (held_single hhost).mem_probe.mp hr
  obtain rfl := mem_singleton.mp hr
  exact ⟨standsFor_user huser, hcovers.imp_right fun h => ⟨h.2.1, h.2.2⟩⟩

end Single

section Sound

variable {s : Hostmask.State κ} {user host : Str} {c : Client} {r : Rec κ}

/-- A K-line that matches is found. -/
theorem isMatched_of_mem (h : Held s) (hr : r ∈ s.live) (htype : r.type = .kill)
    (huser : r.userMatches c.query = true)
    (hmatch : r.Covers c.query ∨ (bucketOf r.address = 0 ∧ r.matchesName c.sockhost = true)) :
    isMatched s.table c = true := by
  rw [isMatched, Table.findConfByAddress, Option.isSome_map, isSome_head?]
  exact ne_nil_of_mem (h.mem_probe.mpr ⟨hr, htype, huser, hmatch.imp_right fun h => ⟨rfl, h.1,
    h.2⟩⟩)

/-- The user mask of a K-line that covers the masks matches the user name. -/
theorem userMatches_of_covers (hcovers : CoversMasks r user host) (hends : EndsOn r c)
    (huser : StandsFor (orSplat user) c.username) : r.userMatches c.query = true := by
  rw [Rec.userMatches, Bool.or_eq_true]
  by_cases hskip : r.skipUser = true
  · exact .inl hskip
  · have hmask := hcovers.1.resolve_left hskip
    exact .inr ((matchMask_iff (hends.1.resolve_left hskip)).mpr (.of_maskMatch hmask huser))

theorem mask_newRec : (newRec user host).mask = parseNetmask host := rfl

/-- The host mask of a K-line that covers the masks matches what that of the new one does. -/
theorem covers_of_covers (hcovers : CoversMasks r user host) (hends : EndsOn r c)
    (hnew : (newRec user host).Covers c.query ∨
      (bucketOf host = 0 ∧ (newRec user host).matchesName c.sockhost = true)) :
    r.Covers c.query ∨ (bucketOf r.address = 0 ∧ r.matchesName c.sockhost = true) := by
  have hhost := hcovers.2
  rw [Rec.Covers, matchesName_iff, mask_newRec] at hnew
  rw [Rec.Covers, matchesName_iff]
  cases hold : r.mask with
  | host =>
    obtain ⟨hname, hsock⟩ := hends.2 hold
    cases hmask : parseNetmask host with
    | host =>
      rw [hold, hmask] at hhost
      rw [hmask] at hnew
      obtain ⟨name, hquery, hmatch⟩ | ⟨hbucket, -, hmatch⟩ := hnew
      · cases hquery
        exact .inl ⟨_, rfl, (matchMask_iff hname).mpr (.of_maskMatch hhost.1
          (.of_matchMask hmatch))⟩
      · exact .inr ⟨hhost.2 hbucket, rfl, (matchMask_iff hsock).mpr (.of_maskMatch hhost.1
          (.of_matchMask hmatch))⟩
    | ipv4 addr bits =>
      rw [hold, hmask] at hhost
      exact .inl ⟨c.host, rfl, (matchMask_iff hname).mpr (.of_maskMatch hhost (stands_star c.host))⟩
    | ipv6 addr bits =>
      rw [hold, hmask] at hhost
      exact .inl ⟨c.host, rfl, (matchMask_iff hname).mpr (.of_maskMatch hhost (stands_star c.host))⟩
  | ipv4 dest bits =>
    cases hmask : parseNetmask host with
    | host => simp [hold, hmask] at hhost
    | ipv6 addr bits' => simp [hold, hmask] at hhost
    | ipv4 addr bits' =>
      rw [hold, hmask] at hhost
      simp only [hmask, reduceCtorEq, false_and, and_false, or_false] at hnew
      obtain ⟨ip, hip, hfamily, hagree⟩ := hnew
      exact .inl ⟨ip, hip, hfamily, (hagree.mono (Int.toNat_le_toNat hhost.1)).trans hhost.2⟩
  | ipv6 dest bits =>
    cases hmask : parseNetmask host with
    | host => simp [hold, hmask] at hhost
    | ipv4 addr bits' => simp [hold, hmask] at hhost
    | ipv6 addr bits' =>
      rw [hold, hmask] at hhost
      simp only [hmask, reduceCtorEq, false_and, and_false, or_false] at hnew
      obtain ⟨ip, hip, hfamily, hagree⟩ := hnew
      exact .inl ⟨ip, hip, hfamily, (hagree.mono (Int.toNat_le_toNat hhost.1)).trans hhost.2⟩

/-- A K-line that is found to be redundant has a K-line in force that matches the text of its
masks. -/
theorem exists_of_rejected (h : Held s) {u : Setup} {temporary : κ → Bool}
    (hrejected : Rejected u temporary s.table user host) :
    ∃ r ∈ s.live, r.Matches .kill (maskQuery user host) := by
  refine (h.findsMatching.found .kill (maskQuery user host) rfl).mp ?_
  obtain hplaced | hpermanent := hrejected
  · rw [alreadyPlacedKline, Bool.and_eq_true] at hplaced
    exact hplaced.2
  · rw [alreadyPermanent] at hpermanent
    cases hkconf : s.table.findConfByAddress .kill (maskQuery user host) with
    | none => simp [hkconf] at hpermanent
    | some kconf => rfl

end Sound

/-- **Redundancy.** After any run, a client that a K-line would match, which is found to be
redundant, is matched by a K-line in force, if one of those covers the masks of the new one,
wherever one matches their text. -/
theorem redundant_sound [DecidableEq κ] {temporary : κ → Bool} {ops : List (Hostmask.Op κ)}
    {s : Hostmask.State κ} (hops : StepsMeet (Hostmask.step temporary) Op.Valid Hostmask.start ops)
    (hrun : run (Hostmask.step temporary) Hostmask.start ops = some s) {user host : Str}
    (hhost : WellFormed host)
    {u : Setup} (hrejected : Rejected u temporary s.table user host) {c : Client}
    (hsound : Sound s user host c) (hmatch : wouldMatch user host c = true) :
    isMatched s.table c = true := by
  obtain ⟨s', hs', hheld, -⟩ := held_run hops
  cases hs'.symm.trans hrun
  obtain ⟨r, hr, htype, hcovers, hends⟩ := hsound (exists_of_rejected hheld hrejected)
  obtain ⟨huser, hnew⟩ := of_wouldMatch hhost hmatch
  exact isMatched_of_mem hheld hr htype (userMatches_of_covers hcovers hends huser)
    (covers_of_covers hcovers hends hnew)

/-- A table with one K-line. -/
def oneKline (user host : Str) : Hostmask.State ℕ where
  table := (init : Table ℕ).addConfByAddress (some host) .kill (some user) 0
  live := [(init : Table ℕ).makeRec (some host) .kill (some user) 0]
  ilines := 0

/-- `*@*.example.net` covers `bob@*.shells.example.net`. -/
theorem redundant_small :
    let c : Client := ⟨"bob".toList, "a.shells.example.net".toList, "10.0.0.1".toList,
      ⟨.inet, [10, 0, 0, 1]⟩⟩
    Rejected ⟨"irc.example".toList, 4, true⟩ (fun _ => false)
    (oneKline "*".toList "*.example.net".toList).table "bob".toList
        "*.shells.example.net".toList ∧
      wouldMatch "bob".toList "*.shells.example.net".toList c = true ∧
        isMatched (oneKline "*".toList "*.example.net".toList).table c = true := by
  intro c
  have hhost : WellFormed "*.shells.example.net".toList := by decide +kernel
  have hops : StepsMeet (Hostmask.step fun _ => false) Op.Valid Hostmask.start
      [.add (some "*.example.net".toList) .kill (some "*".toList) (0 : ℕ)] :=
    ⟨⟨by decide +kernel, by simp [Hostmask.start]⟩, fun _ _ => trivial⟩
  have hrejected : Rejected ⟨"irc.example".toList, 4, true⟩ (fun _ => false)
      (oneKline "*".toList "*.example.net".toList).table "bob".toList
        "*.shells.example.net".toList :=
    .inl (by decide +kernel)
  have hmatch : wouldMatch "bob".toList "*.shells.example.net".toList c = true := by decide +kernel
  have hold : parseNetmask "*.example.net".toList = .host := by decide +kernel
  have hnew : parseNetmask "*.shells.example.net".toList = .host := by decide +kernel
  have hsound : Sound (oneKline "*".toList "*.example.net".toList) "bob".toList
      "*.shells.example.net".toList c := by
    refine fun _ => ⟨_, mem_singleton_self _, rfl, ⟨.inl (by decide), ?_⟩, .inl (by decide),
      fun _ => ?_⟩
    · rw [Rec.mask, show (Rec.address _ : Str) = "*.example.net".toList from rfl, hold, hnew]
      exact ⟨by decide +kernel, fun hzero => absurd hzero (by decide +kernel)⟩
    · exact ⟨by decide +kernel, by decide +kernel⟩
  exact ⟨hrejected, hmatch, redundant_sound hops rfl hhost hrejected hsound hmatch⟩

/-- With a K-line on `10.0.0.0/24` in force, `KLINE *@10.*`, which is on `10.0.0.0/8`, is found to
be redundant, but a client at `10.5.5.5` is not matched. -/
theorem network_dropped : let c : Client :=
      ⟨"bob".toList, "host.example.net".toList, "10.5.5.5".toList, ⟨.inet, [10, 5, 5, 5]⟩⟩
    findUserHost "*@10.*".toList = some ("*".toList, "10.0.0.0/8".toList) ∧
      alreadyPlacedKline ⟨"irc.example".toList, 4, true⟩
          (oneKline "*".toList "10.0.0.0/24".toList).table "*".toList "10.0.0.0/8".toList = true ∧
        alreadyPermanent (fun _ => false) (oneKline "*".toList "10.0.0.0/24".toList).table
            "*".toList "10.0.0.0/8".toList = true ∧
          wouldMatch "*".toList "10.0.0.0/8".toList c = true ∧
            isMatched (oneKline "*".toList "10.0.0.0/24".toList).table c = false := by
  decide +kernel

end Ratbox.Kline
