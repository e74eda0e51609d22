import Ratbox.Channel.Joining
import Ratbox.Lib.Stamp
import Mathlib.Order.ConditionallyCompleteLattice.Basic

/-!
# Servers agree on a channel

When servers link, each may receive what the others have of a channel in another order. The order
does not matter: the time of the channel becomes the least one of the messages, and its modes are
those of the messages with this time, put together. A message whose clients are all members already
would not count as one that makes the channel, hence each message must bring a client of its own.

A name of `CHANNELLEN` bytes or more is stored without its last byte and is not found again. Each
message for it makes a channel, and the last one is what the servers find (`Channel.converges_iff`).

Source: `modules/core/m_join.c`, lines 506–627 and 1291–1330.

## Main definitions

* `Channel.Arrival`: a message that arrives.
* `Channel.Burst`: messages for one channel that each bring a client of their own.
* `Channel.Settled`: the time and the modes that messages come to.
* `Channel.Converges`: they come to them in any order.

## Main results

* `Channel.converges_iff`: the names, and the messages, for which they do.
-/

namespace Ratbox.Channel

open Text Run Stamp

/-! ### The messages -/

/-- A message that arrives: when, over which link, from which server, and its parameters. -/
structure Arrival where
  now : ℤ
  client_p : ℕ
  source_p : ℕ
  parv : List Str
  deriving DecidableEq

/-- A message is processed. -/
def Arrival.take (net : Net) (w : World) (a : Arrival) : World :=
  (msSjoin net a.now w a.client_p a.source_p a.parv).1

/-- The message `msg`, which `a` is read as, names the client `u`. -/
def Introduces (net : Net) (client : ℕ → Client) (a : Arrival) (msg : Sjoin) (u : ℕ) : Prop :=
  u ∈ (namedIn net client a.client_p msg.nicks).map Prod.fst

instance (net : Net) (client : ℕ → Client) (a : Arrival) (msg : Sjoin) (u : ℕ) :
    Decidable (Introduces net client a msg u) :=
  inferInstanceAs (Decidable (u ∈ _))

/-- Messages for the channel `chname` that are accepted, carry a time and no negative limit, and
each name a client that no other one names. -/
structure Burst (net : Net) (w : World) (chname : Str) (arrivals : List Arrival)
    (msg : Arrival → Sjoin) : Prop where
  nodup : arrivals.Nodup
  read : ∀ a ∈ arrivals, readSjoin net.services a.parv = some (msg a)
  name : ∀ a ∈ arrivals,
    ((msg a).chname.take channelLen).map toUpper = (chname.take channelLen).map toUpper
  ts : ∀ a ∈ arrivals, (msg a).newts ≠ 0
  limit : ∀ a ∈ arrivals, 0 ≤ (msg a).mode.limit
  own : ∀ a ∈ arrivals, ∃ u, Introduces net w.client a (msg a) u ∧
    ∀ b ∈ arrivals, b ≠ a → ¬Introduces net w.client b (msg b) u

/-- What the messages come to: the least time, the flags of the messages that carry it, and the
greatest limit and key among these. -/
structure Settled (arrivals : List Arrival) (msg : Arrival → Sjoin) (ts : ℤ) (mode : Mode) :
    Prop where
  channelts : IsLeast {t | ∃ a ∈ arrivals, (msg a).newts = t} ts
  flags : ∀ i, mode.mode.getLsbD i = true ↔
    ∃ a ∈ arrivals, (msg a).newts = ts ∧ (msg a).mode.mode.getLsbD i = true
  limit : IsGreatest {l | ∃ a ∈ arrivals, (msg a).newts = ts ∧ (msg a).mode.limit = l} mode.limit
  key : IsGreatest {k | ∃ a ∈ arrivals, (msg a).newts = ts ∧ (msg a).mode.key = k} mode.key

/-- **The order of the messages does not matter**: whatever it is, the channel that is found has
what the messages come to. -/
def Converges (net : Net) (w : World) (chname : Str) (arrivals : List Arrival)
    (msg : Arrival → Sjoin) : Prop :=
  ∃ ts mode, Settled arrivals msg ts mode ∧ ∀ order : List Arrival, order.Perm arrivals →
    ∃ c ch, findChannel (order.foldl (Arrival.take net) w) (storedName chname) = some c ∧
      (order.foldl (Arrival.take net) w).chan c = some ch ∧ ch.channelts = ts ∧ ch.mode = mode

variable {net : Net} {w : World} {chname : Str} {arrivals order : List Arrival}
  {msg : Arrival → Sjoin}

theorem Burst.perm (h : Burst net w chname arrivals msg) (hperm : order.Perm arrivals) :
    Burst net w chname order msg where
  nodup := hperm.nodup_iff.mpr h.nodup
  read a ha := h.read a (hperm.mem_iff.mp ha)
  name a ha := h.name a (hperm.mem_iff.mp ha)
  ts a ha := h.ts a (hperm.mem_iff.mp ha)
  limit a ha := h.limit a (hperm.mem_iff.mp ha)
  own a ha := by
    obtain ⟨u, hu, hother⟩ := h.own a (hperm.mem_iff.mp ha)
    exact ⟨u, hu, fun b hb => hother b (hperm.mem_iff.mp hb)⟩

theorem Burst.of_append {more : List Arrival} (h : Burst net w chname (arrivals ++ more) msg) :
    Burst net w chname arrivals msg := by
  have hmem : ∀ a ∈ arrivals, a ∈ arrivals ++ more := fun a ha => List.mem_append_left _ ha
  refine ⟨(List.nodup_append.mp h.nodup).1, fun a ha => h.read a (hmem a ha),
    fun a ha => h.name a (hmem a ha), fun a ha => h.ts a (hmem a ha),
    fun a ha => h.limit a (hmem a ha), fun a ha => ?_⟩
  obtain ⟨u, hu, hother⟩ := h.own a (hmem a ha)
  exact ⟨u, hu, fun b hb => hother b (hmem b hb)⟩

variable {a : Arrival} {mode : Mode} {ts : ℤ} {done : List Arrival} {w' : World}

/-- The messages are for one key, and for names that fit or for ones that do not. -/
theorem Burst.chanKey_eq (h : Burst net w chname arrivals msg) (ha : a ∈ arrivals) :
    chanKey (msg a).chname = chanKey chname ∧
      min channelLen (msg a).chname.length = min channelLen chname.length := by
  have hname := h.name a ha
  refine ⟨?_, by simpa only [List.length_map, List.length_take] using congrArg List.length hname⟩
  have hcut : ∀ s : Str, chanKey s = ((s.take channelLen).map toUpper).take (channelLen - 1) := by
    intro s
    rw [chanKey, storedName, List.map_take, List.map_take, List.take_take]
    rfl
  rw [hcut, hcut, hname]

theorem Settled.perm (h : Settled order msg ts mode)
    (hperm : order.Perm arrivals) : Settled arrivals msg ts mode := by
  have hmem : ∀ a, a ∈ arrivals ↔ a ∈ order := fun a => hperm.mem_iff.symm
  refine ⟨?_, ?_, ?_, ?_⟩ <;> simp only [hmem]
  · exact h.channelts
  · exact h.flags
  · exact h.limit
  · exact h.key

/-- Messages come to one time and one mode. -/
theorem Settled.unique {ts' : ℤ} {mode' : Mode} (h : Settled arrivals msg ts mode)
    (h' : Settled arrivals msg ts' mode') : ts = ts' ∧ mode = mode' := by
  obtain rfl := h.channelts.unique h'.channelts
  refine ⟨rfl, Mode.ext ?_ (h.limit.unique h'.limit) (h.key.unique h'.key)⟩
  refine BitVec.eq_of_getLsbD_eq fun i _ => ?_
  rw [Bool.eq_iff_iff, h.flags, h'.flags]

/-! ### One message -/

/-- The modes of a message are merged into those of the channel. -/
def mergeInto (old new : Mode) : Mode := new.merge old

/-- The time and the modes of a message. -/
def Sjoin.stamped (msg : Sjoin) : ℤ × Mode := (msg.newts, msg.mode)

/-- The comparison of the times is that of values with stamps. -/
theorem resolve_eq_join {oldts newts : ℤ} (hold : oldts ≠ 0) (hnew : newts ≠ 0) (mode old : Mode) :
    ((resolve false oldts newts).channelts, (resolve false oldts newts).mode mode old) =
      join mergeInto (oldts, old) (newts, mode) := by
  rcases lt_trichotomy oldts newts with hlt | heq | hgt
  · have hresolve : resolve false oldts newts = ⟨oldts, true, false⟩ := by
      simp [resolve, hold, hnew, hlt.ne', hlt.not_gt]
    simp [hresolve, Resolved.mode, join, hlt]
  · subst heq
    have hresolve : resolve false oldts oldts = ⟨oldts, true, true⟩ := by simp [resolve, hold]
    simp [hresolve, Resolved.mode, join, mergeInto]
  · have hresolve : resolve false oldts newts = ⟨newts, false, true⟩ := by
      simp [resolve, hold, hnew, hgt.ne, hgt]
    simp [hresolve, Resolved.mode, join, hgt, hgt.not_gt]

/-- A channel that is new takes the modes of the message. -/
theorem merge_empty (hlimit : 0 ≤ mode.limit) : mode.merge .empty = mode := by
  refine Mode.ext ?_ ?_ ?_
  · simp [Mode.merge, Mode.empty]
  · simp only [Mode.merge, Mode.empty]
    split_ifs <;> omega
  · exact if_neg (List.not_lt_nil mode.key)

theorem namedIn_congr (net : Net) {f g : ℕ → Client} (h : SameClients f g) (client_p : ℕ)
    (nicks : Str) : namedIn net g client_p nicks = namedIn net f client_p nicks :=
  List.filterMap_congr fun s _ => named_congr net h client_p s

/-- The channel `chname`, whose name fits, after the messages `done`. -/
def HasMerged (chname : Str) (msg : Arrival → Sjoin) (w : World) : List Arrival → Prop
  | [] => w.chan (chanKey chname) = none
  | a :: as => ∃ ch, w.chan (chanKey chname) = some ch ∧ (ch.channelts, ch.mode) =
      (as.map fun b => (msg b).stamped).foldl (join mergeInto) (msg a).stamped

/-- The memory after the messages `done` for a name that fits. -/
structure Reached (net : Net) (w : World) (chname : Str) (msg : Arrival → Sjoin)
    (done : List Arrival) (w' : World) : Prop where
  linked : Linked w'
  clients : SameClients w.client w'.client
  alone : Alone w' (chanKey chname)
  members : ∀ u, Member w' (chanKey chname) u → ∃ a ∈ done, Introduces net w.client a (msg a) u
  chan : HasMerged chname msg w' done

/-- A message of the burst is processed after others. -/
theorem Reached.take (h : Reached net w chname msg done w')
    (hlt : chname.length < channelLen) (hb : Burst net w chname (done ++ [a]) msg) :
    Reached net w chname msg (done ++ [a]) (a.take net w') := by
  have hmem : a ∈ done ++ [a] := List.mem_append_right _ (List.mem_singleton_self a)
  have hread := hb.read a hmem
  obtain ⟨hkey, hlen⟩ := hb.chanKey_eq hmem
  have hfits : (msg a).chname.length < channelLen := by omega
  have halone : Alone w' (chanKey (msg a).chname) := hkey ▸ h.alone
  have hptr : chanPtr w' (msg a).chname = chanKey chname := (halone.chanPtr hfits).trans hkey
  obtain ⟨u, hu, hown⟩ := hb.own a hmem
  -- the client that only this message names is not a member
  have hnot : ¬Member w' (chanKey chname) u := by
    intro hu'
    obtain ⟨b, hbm, hbu⟩ := h.members u hu'
    refine hown b (List.mem_append_left _ hbm) ?_ hbu
    rintro rfl
    exact (List.nodup_append.mp hb.nodup).2.2 b hbm b (List.mem_singleton_self b) rfl
  have hnamed : namedIn net w'.client a.client_p (msg a).nicks =
      namedIn net w.client a.client_p (msg a).nicks := namedIn_congr net h.clients ..
  have hmembers : ∀ x, Member w' (chanKey chname) x ∨
      x ∈ (namedIn net w.client a.client_p (msg a).nicks).map Prod.fst →
      ∃ b ∈ done ++ [a], Introduces net w.client b (msg b) x := by
    rintro x (hx | hx)
    · obtain ⟨b, hbm, hbx⟩ := h.members x hx
      exact ⟨b, List.mem_append_left _ hbm, hbx⟩
    · exact ⟨a, hmem, hx⟩
  have hs := h.linked.sjoined hread a.now a.client_p a.source_p
  rw [hptr] at hs
  have hmember := hs.member
  have hchan := hs.chan
  rw [map_fst_givenBy, hnamed] at hmember hchan
  obtain ⟨ch', hch', hts, hmode⟩ := hchan fun _ => ⟨u, hu, hnot⟩
  refine ⟨hs.linked, h.clients.trans hs.clients,
    hkey ▸ h.linked.alone_msSjoin hread a.now a.client_p a.source_p halone hfits,
    fun x hx => hmembers x ((hmember x).mp hx), ?_⟩
  rcases done with _ | ⟨b, bs⟩
  · -- the first message makes the channel
    have hfor : chanFor w' (msg a) a.now = (madeChan (msg a) a.now, true) := by
      have hnone : w'.chan (chanKey chname) = none := h.chan
      simp [chanFor, hptr, hnone]
    have hmerge : (msg a).mode.merge .empty = (msg a).mode := merge_empty (hb.limit a hmem)
    refine ⟨ch', hch', ?_⟩
    rw [hts, hmode, hfor]
    exact Prod.ext rfl hmerge
  · obtain ⟨ch, hch, hfold⟩ := h.chan
    have hfor : chanFor w' (msg a) a.now = (ch, false) := by simp [chanFor, hptr, hch]
    -- the time of the channel is that of a message
    have hold : ch.channelts ≠ 0 := by
      obtain ⟨d, hd, hdts⟩ := stamp_foldl_mem mergeInto (msg b).stamped
        (bs.map fun b => (msg b).stamped)
      rw [← hfold] at hdts
      rw [← List.map_cons (f := fun b => (msg b).stamped)] at hd
      obtain ⟨e, he, rfl⟩ := List.mem_map.mp hd
      rw [show ch.channelts = (msg e).newts from hdts]
      exact hb.ts e (List.mem_append_left _ he)
    refine ⟨ch', hch', ?_⟩
    change _ = ((bs ++ [a]).map fun b => (msg b).stamped).foldl (join mergeInto) (msg b).stamped
    rw [hts, hmode, hfor, resolve_eq_join hold (hb.ts a hmem), List.map_append, List.foldl_append,
      ← hfold]
    rfl

/-- The memory after the messages of the burst. -/
theorem Reached.foldl (h : Reached net w chname msg done w')
    (hlt : chname.length < channelLen) (rest : List Arrival)
    (hb : Burst net w chname (done ++ rest) msg) :
    Reached net w chname msg (done ++ rest) (rest.foldl (Arrival.take net) w') := by
  induction rest generalizing done w' with
  | nil =>
    rw [List.append_nil]
    exact h
  | cons a rest ih =>
    have hsplit : done ++ a :: rest = (done ++ [a]) ++ rest := by simp
    rw [hsplit] at hb ⊢
    exact ih (h.take hlt hb.of_append) hb

/-! ### Names that are cut -/

/-- The memory after messages for a name that is cut: what is found is the channel that the last of
them has made. -/
structure Overlaid (w : World) (chname : Str) (msg : Arrival → Sjoin) (done : List Arrival)
    (w' : World) : Prop where
  linked : Linked w'
  clients : SameClients w.client w'.client
  chan : ∀ a ∈ done.getLast?, ∃ c ch, findChannel w' (storedName chname) = some c ∧
    w'.chan c = some ch ∧ (ch.channelts, ch.mode) = (msg a).stamped

theorem Overlaid.take (h : Overlaid w chname msg done w')
    (hlong : channelLen ≤ chname.length) (hb : Burst net w chname arrivals msg)
    (hmem : a ∈ arrivals) : Overlaid w chname msg (done ++ [a]) (a.take net w') := by
  have hread := hb.read a hmem
  obtain ⟨hkey, hlen⟩ := hb.chanKey_eq hmem
  have hlong' : channelLen ≤ (msg a).chname.length := by omega
  -- the name is not found
  have hfind : findChannel w' ((msg a).chname.take channelLen) = none := by
    rw [findChannel, if_pos]
    rw [List.length_take]
    omega
  have hptr : chanPtr w' (msg a).chname = cutPtr (chanKey chname) (w'.cuts + 1) := by
    rw [chanPtr_of_none hfind, if_pos hlong', hkey]
  have hnone : w'.chan (chanPtr w' (msg a).chname) = none := by
    rcases h.linked.chan_chanPtr (msg a).chname with ⟨ch, -, hfound⟩ | ⟨hnone, -⟩
    · cases hfind.symm.trans hfound
    · exact hnone
  have hfor : chanFor w' (msg a) a.now = (madeChan (msg a) a.now, true) := by simp [chanFor, hnone]
  have hs := h.linked.sjoined hread a.now a.client_p a.source_p
  have hnew := (h.linked.worldFor (msg a) a.now (chname_of_readSjoin hread)).2.2.2.2 (by rw [hfor])
  obtain ⟨u, hu, -⟩ := hb.own a hmem
  rw [Introduces, ← namedIn_congr net h.clients] at hu
  obtain ⟨ch, hch, hts, hmode⟩ := hs.chan fun _ => ⟨u, by rwa [map_fst_givenBy], hnew u⟩
  have hcuts := (h.linked.elsewhere hread a.now a.client_p a.source_p).1
  have hmade : (Channel.worldFor w' (msg a) a.now).cuts = w'.cuts + 1 := by
    simp [Channel.worldFor, hnone, World.makeChan, if_pos hlong']
  refine ⟨hs.linked, h.clients.trans hs.clients, fun b hb' => ?_⟩
  obtain rfl : a = b := by simpa using hb'
  refine ⟨_, ch, ?_, hptr ▸ hch, ?_⟩
  · have hstored : (storedName chname).length + 1 = channelLen := by
      rw [storedName, List.length_take, min_eq_left (by omega)]
      rfl
    have hkey' : chanKey (storedName chname) = chanKey chname := by
      rw [chanKey, chanKey, storedName, storedName, List.take_take, min_self]
    rw [findChannel, if_neg (by omega), if_pos hstored, hkey', Arrival.take, hcuts, hmade, newest,
      ← hptr, hch]
    rfl
  · rw [hts, hmode, hfor]
    exact Prod.ext rfl (merge_empty (hb.limit a hmem))

theorem Overlaid.foldl (h : Overlaid w chname msg done w')
    (hlong : channelLen ≤ chname.length) (hb : Burst net w chname arrivals msg)
    (rest : List Arrival) (hrest : ∀ a ∈ rest, a ∈ arrivals) :
    Overlaid w chname msg (done ++ rest) (rest.foldl (Arrival.take net) w') := by
  induction rest generalizing done w' with
  | nil =>
    rw [List.append_nil]
    exact h
  | cons a rest ih =>
    obtain ⟨ha, hrest⟩ := List.forall_mem_cons.mp hrest
    rw [List.append_cons]
    exact ih (h.take hlong hb ha) hrest

/-! ### All messages -/

/-- The flags that are set. -/
def flagSet (m : Mode) : Set ℕ := {i | m.mode.getLsbD i = true}

theorem flagSet_mergeInto (old new : Mode) :
    flagSet (mergeInto old new) = flagSet old ⊔ flagSet new := by
  ext i
  simp [flagSet, mergeInto, Mode.merge, or_comm]

theorem limit_mergeInto (old new : Mode) : (mergeInto old new).limit = old.limit ⊔ new.limit := by
  simp only [mergeInto, Mode.merge]
  split_ifs <;> omega

theorem key_mergeInto (old new : Mode) : (mergeInto old new).key = old.key ⊔ new.key := by
  simp only [mergeInto, Mode.merge]
  split_ifs with h
  · exact (max_eq_left h.le).symm
  · exact (max_eq_right (not_lt.mp h)).symm

/-- What a list of messages comes to. -/
theorem settled_foldl (msg : Arrival → Sjoin) (a : Arrival) (as : List Arrival)

    (h : (ts, mode) = (as.map fun b => (msg b).stamped).foldl (join mergeInto) (msg a).stamped) :
    Settled (a :: as) msg ts mode := by
  set xs := as.map fun b => (msg b).stamped with hxs
  have hmem : ∀ {W : Type} (f : Mode → W) (t : ℤ) (v : W),
      (t, v) ∈ view f '' {y | y ∈ (msg a).stamped :: xs} ↔
        ∃ b ∈ a :: as, (msg b).newts = t ∧ f (msg b).mode = v := by
    intro W f t v
    rw [hxs, ← List.map_cons (f := fun b => (msg b).stamped)]
    simp only [Set.mem_image, Set.mem_ofPred_eq, List.mem_map, view, Sjoin.stamped]
    constructor
    · rintro ⟨_, ⟨b, hb, rfl⟩, heq⟩
      exact ⟨b, hb, Prod.ext_iff.mp heq⟩
    · rintro ⟨b, hb, heq⟩
      exact ⟨_, ⟨b, hb, rfl⟩, Prod.ext_iff.mpr heq⟩
  have hflags := isOldest_foldl mergeInto flagSet_mergeInto (msg a).stamped xs
  have hlimit := isGreatest_foldl mergeInto limit_mergeInto (msg a).stamped xs
  have hkey := isGreatest_foldl mergeInto key_mergeInto (msg a).stamped xs
  rw [← h] at hflags hlimit hkey
  simp only [hmem] at hlimit hkey
  refine ⟨?_, fun i => ?_, hlimit, hkey⟩
  · have hset : Prod.fst '' (view flagSet '' {y | y ∈ (msg a).stamped :: xs}) =
        {t | ∃ b ∈ a :: as, (msg b).newts = t} := by
      ext t
      constructor
      · rintro ⟨⟨t, v⟩, hv, rfl⟩
        obtain ⟨b, hb, hts, -⟩ := (hmem ..).mp hv
        exact ⟨b, hb, hts⟩
      · rintro ⟨b, hb, hts⟩
        exact ⟨(t, flagSet (msg b).mode), (hmem ..).mpr ⟨b, hb, hts, rfl⟩, rfl⟩
    rw [← hset]
    exact hflags.least
  · -- a flag is in the least upper bound when it is in one of the sets
    have hlub := hflags.lub
    simp only [view, hmem] at hlub
    constructor
    · intro hi
      have hle : flagSet mode ≤
          {i | ∃ b ∈ a :: as, (msg b).newts = ts ∧ (msg b).mode.mode.getLsbD i = true} := by
        refine hlub.2 ?_
        rintro v ⟨b, hb, hts, rfl⟩ i hi
        exact ⟨b, hb, hts, hi⟩
      exact hle hi
    · rintro ⟨b, hb, hts, hi⟩
      have hle : flagSet (msg b).mode ≤ flagSet mode := hlub.1 ⟨b, hb, hts, rfl⟩
      exact hle hi

/-- Messages that are alike come to what each of them has. -/
theorem settled_of_alike (ha : a ∈ arrivals)
    (h : ∀ b ∈ arrivals, (msg b).stamped = (msg a).stamped) :
    Settled arrivals msg (msg a).newts (msg a).mode := by
  have hts : ∀ b ∈ arrivals, (msg b).newts = (msg a).newts := fun b hb => congrArg Prod.fst (h b hb)
  have hmode : ∀ b ∈ arrivals, (msg b).mode = (msg a).mode := fun b hb => congrArg Prod.snd (h b hb)
  refine ⟨⟨⟨a, ha, rfl⟩, ?_⟩, fun i => ⟨fun hi => ⟨a, ha, rfl, hi⟩, ?_⟩, ⟨⟨a, ha, rfl, rfl⟩, ?_⟩,
    ⟨⟨a, ha, rfl, rfl⟩, ?_⟩⟩
  · rintro _ ⟨b, hb, rfl⟩
    exact (hts b hb).ge
  · rintro ⟨b, hb, -, hi⟩
    exact hmode b hb ▸ hi
  · rintro _ ⟨b, hb, -, rfl⟩
    rw [hmode b hb]
  · rintro _ ⟨b, hb, -, rfl⟩
    rw [hmode b hb]

/-- Messages for a name that fits. -/
theorem converges_of_lt (hw : Linked w) (hlt : chname.length < channelLen)
    (habsent : findChannel w chname = none) (hb : Burst net w chname arrivals msg)
    (hne : arrivals ≠ []) : Converges net w chname arrivals msg := by
  obtain ⟨halone, hnone⟩ := hw.alone hlt habsent
  have hstart : Reached net w chname msg [] w := by
    refine ⟨hw, .refl _, halone, fun u ⟨m, ms, hms, hc, _⟩ => ?_, hnone⟩
    obtain ⟨ch, hch⟩ := hw.chan m ms hms
    rw [hc, hnone] at hch
    cases hch
  have hstored : storedName chname = chname := List.take_of_length_le (Nat.le_pred_of_lt hlt)
  have hall : ∀ order : List Arrival, order.Perm arrivals → ∃ c ch,
      findChannel (order.foldl (Arrival.take net) w) (storedName chname) = some c ∧
      (order.foldl (Arrival.take net) w).chan c = some ch ∧
        Settled arrivals msg ch.channelts ch.mode := by
    intro order hperm
    have hreached := hstart.foldl hlt order (hb.perm hperm)
    rcases order with _ | ⟨a, as⟩
    · exact absurd hperm.nil_eq.symm hne
    · obtain ⟨ch, hch, hfold⟩ := hreached.chan
      refine ⟨_, ch, ?_, hch, (settled_foldl msg a as hfold).perm hperm⟩
      rw [hstored, hreached.alone.findChannel hlt, hch]
      rfl
  obtain ⟨_, ch₀, -, -, hsettled₀⟩ := hall arrivals (List.Perm.refl _)
  refine ⟨ch₀.channelts, ch₀.mode, hsettled₀, fun order hperm => ?_⟩
  obtain ⟨c, ch, hfind, hch, hsettled⟩ := hall order hperm
  obtain ⟨hts, hmode⟩ := hsettled.unique hsettled₀
  exact ⟨c, ch, hfind, hch, hts, hmode⟩

/-- Messages for a name that is cut. -/
theorem converges_long_iff (hw : Linked w) (hlong : channelLen ≤ chname.length)
    (hb : Burst net w chname arrivals msg) (hne : arrivals ≠ []) :
    Converges net w chname arrivals msg ↔
      ∀ a ∈ arrivals, ∀ b ∈ arrivals, (msg a).stamped = (msg b).stamped := by
  have hstart : Overlaid w chname msg [] w := ⟨hw, .refl _, nofun⟩
  have hall : ∀ (order : List Arrival) (a : Arrival), (order ++ [a]).Perm arrivals → ∃ c ch,
      findChannel ((order ++ [a]).foldl (Arrival.take net) w) (storedName chname) = some c ∧
      ((order ++ [a]).foldl (Arrival.take net) w).chan c = some ch ∧
        (ch.channelts, ch.mode) = (msg a).stamped := fun order a hperm =>
    (hstart.foldl hlong hb (order ++ [a]) fun b => hperm.mem_iff.mp).chan a (by simp)
  constructor
  · rintro ⟨ts, mode, -, hconv⟩
    -- each message can be the last
    have hlast : ∀ a ∈ arrivals, (msg a).stamped = (ts, mode) := by
      intro a ha
      have hperm : (arrivals.erase a ++ [a]).Perm arrivals :=
        List.perm_append_comm.trans (List.perm_cons_erase ha).symm
      obtain ⟨c, ch, hfind, hch, hstamped⟩ := hall (arrivals.erase a) a hperm
      obtain ⟨c', ch', hfind', hch', hts, hmode⟩ := hconv _ hperm
      cases hfind.symm.trans hfind'
      cases hch.symm.trans hch'
      rw [← hstamped, hts, hmode]
    exact fun a ha b hb => (hlast a ha).trans (hlast b hb).symm
  · intro halike
    obtain ⟨a, ha⟩ := List.exists_mem_of_ne_nil arrivals hne
    refine ⟨_, _, settled_of_alike ha fun b hb => halike b hb a ha, fun order hperm => ?_⟩
    obtain rfl | ⟨order, b, rfl⟩ := order.eq_nil_or_concat
    · exact absurd hperm.nil_eq.symm hne
    · rw [List.concat_eq_append] at hperm ⊢
      obtain ⟨c, ch, hfind, hch, hstamped⟩ := hall order b hperm
      have hb' : b ∈ arrivals := hperm.mem_iff.mp (by simp)
      rw [halike b hb' a ha] at hstamped
      exact ⟨c, ch, hfind, hch, congrArg Prod.fst hstamped, congrArg Prod.snd hstamped⟩

/-- **Servers agree on a channel** when its name fits, and also when all messages have the same time
and the same modes. -/
theorem converges_iff (hw : Linked w) (habsent : findChannel w (storedName chname) = none)
    (hb : Burst net w chname arrivals msg) (hne : arrivals ≠ []) :
    Converges net w chname arrivals msg ↔ chname.length < channelLen ∨
      ∀ a ∈ arrivals, ∀ b ∈ arrivals, (msg a).stamped = (msg b).stamped := by
  by_cases hlt : chname.length < channelLen
  · have hstored : storedName chname = chname := List.take_of_length_le (Nat.le_pred_of_lt hlt)
    exact iff_of_true (converges_of_lt hw hlt (hstored ▸ habsent) hb hne) (.inl hlt)
  · rw [converges_long_iff hw (not_lt.mp hlt) hb hne, or_iff_right hlt]

/-- Two messages for one channel. -/
def twoArrivals (chname : Str) : List Arrival :=
  [⟨0, 0, 0, [['s'], ['5'], chname, ['+', 'n', 'l'], ['3'], ['@', 'a']]⟩,
    ⟨0, 0, 0, [['s'], ['4'], chname, ['+', 't', 'k'], ['x'], ['b']]⟩]

/-- What the messages are read as. -/
def readArrival (a : Arrival) : Sjoin :=
  (readSjoin false a.parv).getD ⟨0, [], [], .empty, []⟩

/-- A name of `CHANNELLEN` bytes. -/
def longChannel : Str := '#' :: List.replicate 199 'a'

theorem converges_iff_two : Converges smallNet (World.init behindServer) ['#'] (twoArrivals ['#'])
    readArrival ↔ ['#'].length < channelLen ∨ ∀ a ∈ twoArrivals ['#'], ∀ b ∈ twoArrivals ['#'],
      (readArrival a).stamped = (readArrival b).stamped := by
  have hown : ∀ a ∈ twoArrivals ['#'], ∃ u ∈ [1, 2],
      Introduces smallNet behindServer a (readArrival a) u ∧ ∀ b ∈ twoArrivals ['#'], b ≠ a →
        ¬Introduces smallNet behindServer b (readArrival b) u := by
    decide
  exact converges_iff (linked_init behindServer) rfl
    ⟨by decide, by decide, by decide, by decide, by decide, fun a ha =>
      (hown a ha).imp fun _ h => h.2⟩ (by decide)

/-- For a name of 200 bytes the message that comes last decides, and the name itself is not
found. -/
theorem last_decides :
    Burst smallNet (World.init behindServer) longChannel (twoArrivals longChannel) readArrival ∧
      ¬Converges smallNet (World.init behindServer) longChannel (twoArrivals longChannel)
      readArrival ∧
      findChannel ((twoArrivals longChannel).foldl (Arrival.take smallNet)
        (World.init behindServer)) longChannel = none := by
  have hown : ∀ a ∈ twoArrivals longChannel, ∃ u ∈ [1, 2],
      Introduces smallNet behindServer a (readArrival a) u ∧ ∀ b ∈ twoArrivals longChannel, b ≠ a →
        ¬Introduces smallNet behindServer b (readArrival b) u := by
    decide +kernel
  have htimes : ∀ order ∈ [twoArrivals longChannel, (twoArrivals longChannel).reverse],
      ((findChannel (order.foldl (Arrival.take smallNet) (World.init behindServer))
        (storedName longChannel)).bind (order.foldl (Arrival.take smallNet)
          (World.init behindServer)).chan).map Chan.channelts =
      order.getLast?.map fun a => (readArrival a).newts := by
    decide +kernel
  refine ⟨⟨by decide +kernel, by decide +kernel, by decide +kernel, by decide +kernel,
    by decide +kernel, fun a ha => (hown a ha).imp fun _ h => h.2⟩, ?_, by decide +kernel⟩
  rintro ⟨ts, mode, -, hconv⟩
  obtain ⟨c, ch, hfind, hch, hts, -⟩ := hconv _ (List.Perm.refl _)
  obtain ⟨c', ch', hfind', hch', hts', -⟩ := hconv _ (List.reverse_perm _)
  have hone := htimes _ List.mem_cons_self
  have htwo := htimes _ (List.mem_cons_of_mem _ List.mem_cons_self)
  rw [hfind, Option.bind_some, hch, Option.map_some, hts] at hone
  rw [hfind', Option.bind_some, hch', Option.map_some, hts'] at htwo
  exact absurd (hone.symm.trans htwo) (by decide +kernel)

end Ratbox.Channel
