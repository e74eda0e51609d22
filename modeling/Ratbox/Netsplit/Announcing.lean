import Ratbox.Netsplit.Removal

/-!
# What the other servers are told

A server that knows the same clients and gets the lines of a split removes the same ones. With
`CAP_QS` a single SQUIT does it: such a server removes all that is behind the one that is named.
Else each user and each server is named.

Source: `src/client.c`, lines 894–936 and 990–1005, and `src/send.c`, lines 48–112 and 213–240.

## Main definitions

* `Netsplit.Peer`: another server, which knows the same clients.
* `Netsplit.Makes`: lines that make each such server remove what is behind a server, and the server.
* `Netsplit.Sent`: what was sent over a link.

## Main results

* `Netsplit.Inv.recurseSendQuits`: the lines that are sent make the other server remove the same.
-/

namespace Ratbox.Netsplit

open Text Hash Uplinks List Function
open Channel (Kind World)
open Services (HashType me)

/-! ### Other servers -/

/-- Another server knows the clients by their names and ids. With a server that it is told to
remove, it may remove what it knows to be behind it. -/
structure Peer (t : Uplinks ℕ) (s : State) where
  find : Str → Option ℕ
  squit : ℕ → ℕ → Prop
  find_name : ∀ p ∈ s.globalClientList, p ≠ me → find (s.name p) = some p
  find_id : ∀ p ∈ s.globalClientList, p ≠ me → s.id p ≠ [] → find (s.id p) = some p
  squit_self : ∀ x, squit x x
  squit_below : ∀ x p, squit x p → t.Below x p

/-- What the other server removes when it gets a line. -/
def Peer.removes {t : Uplinks ℕ} {s : State} (peer : Peer t s) : Line → ℕ → Prop
  | .squit _ server _, p => ∃ x, peer.find server = some x ∧ peer.squit x p
  | .quit source _, p => peer.find source = some p
  | .nick _ _, _ => False
  | .error _, _ => False

/-- The lines make another server remove the server `x` and what is behind it; one that is told with
a SQUIT only (`qs`) if it removes all that is behind a server. -/
def Makes (t : Uplinks ℕ) (s : State) (qs : Bool) (x : ℕ) (lines : List Line) : Prop :=
  ∀ peer : Peer t s, (qs = true → ∀ x p, t.Below x p → peer.squit x p) →
    ∀ p ∈ s.globalClientList, (∃ line ∈ lines, peer.removes line p) ↔ t.Below x p

/-- A link can be sent to: it is not `me`, and a link that is marked as dead has an error. -/
structure Link (s : State) (dest : ℕ) : Prop where
  ne_me : dest ≠ me
  own : s.fromLink dest = dest
  marked : s.dead dest = true ∨ s.closing dest = true → s.ioError dest = true

/-- Only what was sent has changed, and the marks of links. -/
def Same (s s' : State) : Prop :=
  s' = { s with sent := s'.sent, ioError := s'.ioError, dead := s'.dead, closing := s'.closing }

/-- The lines were sent over the link, or it has an error; and nothing else has changed. -/
structure Sent (s : State) (dest : ℕ) (lines : List Line) (s' : State) : Prop where
  same : Same s s'
  other : ∀ q, q ≠ dest → s'.sent q = s.sent q ∧ s'.ioError q = s.ioError q ∧ s'.dead q = s.dead q ∧
    s'.closing q = s.closing q
  got : s'.ioError dest = true ∨ s'.sent dest = s.sent dest ++ lines
  marked : s'.dead dest = true ∨ s'.closing dest = true → s'.ioError dest = true
  ioError : s.ioError dest = true → s'.ioError dest = true

section Sent

variable {t : Uplinks ℕ} {out : ℕ → Prop} {s s' s'' : State} {dest p x : ℕ} {line : Line}
  {lines lines' : List Line}

theorem Same.trans (h : Same s s') (h' : Same s' s'') : Same s s'' := by
  rw [Same, h', h]

theorem Link.sent_nil (h : Link s dest) : Sent s dest [] s where
  same := rfl
  other _ _ := ⟨rfl, rfl, rfl, rfl⟩
  got := .inr (append_nil _).symm
  marked := h.marked
  ioError := id

theorem Sent.trans (h : Sent s dest lines s') (h' : Sent s' dest lines' s'') :
    Sent s dest (lines ++ lines') s'' where
  same := h.same.trans h'.same
  other q hq := by
    obtain ⟨h₁, h₂, h₃, h₄⟩ := h.other q hq
    obtain ⟨h₁', h₂', h₃', h₄'⟩ := h'.other q hq
    exact ⟨h₁'.trans h₁, h₂'.trans h₂, h₃'.trans h₃, h₄'.trans h₄⟩
  got := by
    obtain hio | hsent := h'.got
    · exact .inl hio
    · refine h.got.imp h'.ioError fun hsent' => ?_
      rw [hsent, hsent', append_assoc]
  marked := h'.marked
  ioError hio := h'.ioError (h.ioError hio)

theorem Sent.link (h : Sent s dest lines s') (hlink : Link s dest) : Link s' dest where
  ne_me := hlink.ne_me
  own := by
    rw [h.same]
    exact hlink.own
  marked := h.marked

/-- A line changes the marks of its link only. -/
theorem sendtoOne_frame (hown : s.fromLink dest = dest) (line : Line) :
    Same s (sendtoOne s dest line) ∧ ∀ q, q ≠ dest → (sendtoOne s dest line).sent q = s.sent q ∧
      (sendtoOne s dest line).ioError q = s.ioError q ∧ (sendtoOne s dest line).dead q = s.dead q ∧
        (sendtoOne s dest line).closing q = s.closing q := by
  rw [sendtoOne, hown, sendLinebuf, deadLink]
  split_ifs
  · exact ⟨rfl, fun _ _ => ⟨rfl, rfl, rfl, rfl⟩⟩
  · exact ⟨rfl, fun q hq => ⟨update_of_ne hq .., rfl, rfl, rfl⟩⟩
  · exact ⟨rfl, fun _ _ => ⟨rfl, rfl, rfl, rfl⟩⟩
  · exact ⟨rfl, fun q hq =>
      ⟨rfl, update_of_ne hq .., update_of_ne hq .., update_of_ne hq ..⟩⟩

/-- One line. -/
theorem Link.sendtoOne (h : Link s dest) (line : Line) :
    Sent s dest [line] (sendtoOne s dest line) := by
  obtain ⟨hsame, hother⟩ := sendtoOne_frame h.own line
  suffices hgot : ((Netsplit.sendtoOne s dest line).ioError dest = true ∨
      (Netsplit.sendtoOne s dest line).sent dest = s.sent dest ++ [line]) ∧
    ((Netsplit.sendtoOne s dest line).dead dest = true ∨ (Netsplit.sendtoOne s dest line).closing
      dest = true → (Netsplit.sendtoOne s dest line).ioError dest = true) ∧
    (s.ioError dest = true → (Netsplit.sendtoOne s dest line).ioError dest = true) from
    ⟨hsame, hother, hgot.1, hgot.2.1, hgot.2.2⟩
  rw [Netsplit.sendtoOne, h.own, sendLinebuf]
  by_cases hio : s.ioError dest = true
  · rw [if_pos (by simp [hio])]
    exact ⟨.inl hio, fun _ => hio, id⟩
  rw [if_neg (by simp [hio, h.ne_me])]
  by_cases hroom : s.room dest (s.sent dest) = true
  · rw [if_pos hroom]
    exact ⟨.inr (update_self ..), h.marked, id⟩
  · have hmark : ¬(s.dead dest = true ∨ s.closing dest = true) := fun hmark => hio (h.marked hmark)
    rw [not_or, Bool.not_eq_true, Bool.not_eq_true] at hmark
    rw [if_neg hroom, deadLink, if_neg (by simp [hmark, h.ne_me])]
    have hself : update s.ioError dest true dest = true := update_self ..
    exact ⟨.inl hself, fun _ => hself, fun _ => hself⟩

/-- One more line. -/
theorem Sent.sendtoOne (h : Sent s dest lines s') (hlink : Link s dest) (line : Line) :
    Sent s dest (lines ++ [line]) (Netsplit.sendtoOne s' dest line) :=
  h.trans ((h.link hlink).sendtoOne line)

end Sent

/-! ### The lines of a split -/

section Lines

variable {t : Uplinks ℕ} {out : ℕ → Prop} {s₀ s₁ s s' : State} {dest p x n : ℕ} {lines pre :
  List Line} {comment1 comment : Str} {client_p : Option ℕ}

theorem Peer.find_getId (peer : Peer t s₀) (hp : p ∈ s₀.globalClientList) (hne : p ≠ me)
    (target : ℕ) :
    peer.find (getId s₀ p target) = some p := by
  rw [getId, useId]
  split_ifs with _ hid
  · exact peer.find_id p hp hne hid
  · exact peer.find_name p hp hne
  · exact peer.find_name p hp hne

/-- The QUITs of some users. -/
theorem Sent.quits (hbase : Same s₀ s₁) (hs : Sent s₁ dest pre s) (hlink : Link s₁ dest)
    (comment1 : Str) (l : List ℕ) :
    Sent s₁ dest (pre ++ l.map fun p => .quit (s₀.name p) comment1)
      (l.foldl (fun s p => Netsplit.sendtoOne s dest (.quit (s.name p) comment1)) s) := by
  induction l generalizing pre s with
  | nil => rwa [map_nil, append_nil]
  | cons p l ih =>
    have hname : s.name p = s₀.name p := by
      rw [hbase.trans hs.same]
      rfl
    rw [foldl_cons, map_cons, append_cons, hname]
    exact ih (hs.sendtoOne hlink _)

/-- The lines for the servers of a list, when those for each of them are right. -/
theorem Sent.servers (hs : Sent s₁ dest pre s)
    (hone : ∀ y pre s, Ready t out s₀ n y → Sent s₁ dest pre s → ∃ s' lines,
      recurseSendQuits dest comment1 comment n s y = some s' ∧ Sent s₁ dest (pre ++ lines) s' ∧
        Makes t s₀ (s₀.capQS dest) y lines) (l : List ℕ) (hl : ∀ y ∈ l, Ready t out s₀ n y) :
    ∃ s' lines, l.foldlM (fun s p => recurseSendQuits dest comment1 comment n s p) s = some s' ∧
      Sent s₁ dest (pre ++ lines) s' ∧ ∀ peer : Peer t s₀,
        (s₀.capQS dest = true → ∀ x p, t.Below x p → peer.squit x p) →
        ∀ p ∈ s₀.globalClientList, (∃ line ∈ lines, peer.removes line p) ↔
        ∃ y ∈ l, t.Below y p := by
  induction l generalizing pre s with
  | nil => exact ⟨s, [], rfl, by rwa [append_nil], fun _ _ _ _ => by simp⟩
  | cons y l ih =>
    obtain ⟨s', lines₁, hrun₁, hs', hmakes₁⟩ := hone y pre s (hl y mem_cons_self) hs
    obtain ⟨s₂, lines₂, hrun₂, hs₂, hmakes₂⟩ := ih hs' fun z hz => hl z (mem_cons_of_mem y hz)
    refine ⟨s₂, lines₁ ++ lines₂, ?_, by rwa [← append_assoc], fun peer hqs p hp => ?_⟩
    · rw [foldlM_cons, hrun₁]
      exact hrun₂
    · simp only [mem_append, or_and_right, exists_or, mem_cons, exists_eq_left]
      rw [hmakes₁ peer hqs p hp, hmakes₂ peer hqs p hp]

/-- **The lines of a split.** -/
theorem Inv.recurseSendQuits (h : Inv t out s₀) (hbase : Same s₀ s₁) (hlink : Link s₁ dest)
    (comment1 comment : Str) {n x : ℕ} {pre : List Line} {s : State} (hx : Ready t out s₀ n x)
    (hs : Sent s₁ dest pre s) :
    ∃ s' lines, recurseSendQuits dest comment1 comment n s x = some s' ∧
      Sent s₁ dest (pre ++ lines) s' ∧ Makes t s₀ (s₀.capQS dest) x lines := by
  induction n generalizing s x pre with
  | zero => exact absurd (hx.depth x hx.mem .refl) (by simp)
  | succ n ih =>
    have hxme := ne_me_of_isServer hx.isServer
    have hsame := hbase.trans hs.same
    have hcap : s.capQS = s₀.capQS := by rw [hsame]
    have husers : s.users = s₀.users := by rw [hsame]
    have hget : ∀ target, getId s x target = getId s₀ x target := fun target => by
      rw [hsame]
      rfl
    rw [Netsplit.recurseSendQuits, hcap, husers, hget]
    by_cases hqs : s₀.capQS dest = true
    · rw [if_pos hqs]
      refine ⟨_, [_], rfl, hs.sendtoOne hlink _, fun peer hpeer p hp => ?_⟩
      simp only [mem_singleton, exists_eq_left, Peer.removes, peer.find_getId hx.mem hxme,
        Option.some.injEq, exists_eq_left']
      exact ⟨peer.squit_below x p, hpeer hqs x p⟩
    · rw [if_neg hqs]
      have hquit := hs.quits hbase hlink comment1 (s₀.users x)
      have hservers : (((s₀.users x).foldl
          (fun s p => Netsplit.sendtoOne s dest (.quit (s.name p) comment1)) s).servers x) =
              s₀.servers x := by
        rw [hbase.trans hquit.same]
      obtain ⟨s₂, lines, hrun, hs₂, hmakes⟩ := hquit.servers (fun y pre s hy hs => ih hy hs)
          (s₀.servers x) fun y hy => by
        obtain ⟨hy, hserver, hk, -⟩ := (h.servers x y).mp hy
        have hup := h.up_of_servptr hy (ne_me_of_isServer hserver) hk
        exact hx.child (Quiet.refl h) hup hy hserver fun _ _ => not_false
      have hname : s₂.name x = s₀.name x := by
        rw [hbase.trans hs₂.same]
        rfl
      refine ⟨Netsplit.sendtoOne s₂ dest (.squit none (s₀.name x) comment),
        (s₀.users x).map (fun p => .quit (s₀.name p) comment1) ++ lines ++
          [.squit none (s₀.name x) comment], ?_, ?_,
        fun peer hpeer p hp => ?_⟩
      · dsimp only
        rw [hservers, hrun, ← hname]
        rfl
      · have hsent := hs₂.sendtoOne hlink (.squit none (s₀.name x) comment)
        simpa only [append_assoc] using hsent
      · have hself : peer.removes (.squit none (s₀.name x) comment) p ↔ peer.squit x p := by
          simp [Peer.removes, peer.find_name x hx.mem hxme]
        have hquits : (∃ line ∈ (s₀.users x).map (fun p => Line.quit (s₀.name p) comment1),
            peer.removes line p) ↔ p ∈ s₀.users x := by
          constructor
          · rintro ⟨line, hline, hfind⟩
            obtain ⟨q, hq, rfl⟩ := mem_map.mp hline
            obtain ⟨hq', hclient, -⟩ := (h.users x q).mp hq
            rwa [← Option.some.inj ((peer.find_name q hq' (h.ne_me hclient)).symm.trans hfind)]
          · intro hmem
            exact ⟨_, mem_map_of_mem hmem,
              peer.find_name p hp (h.ne_me ((h.users x p).mp hmem).2.1)⟩
        have hbehind := h.behind_iff hxme hx.out hp
        simp only [mem_append, mem_singleton, or_and_right, exists_or, exists_eq_left]
        rw [hquits, hmakes peer hpeer p hp, hself, ← hbehind]
        constructor
        · rintro (⟨hbelow, -⟩ | hsquit)
          · exact hbelow
          · exact peer.squit_below x p hsquit
        · intro hbelow
          by_cases hpx : p = x
          · exact .inr (hpx ▸ peer.squit_self p)
          · exact .inl ⟨hbelow, hpx⟩

/-- The link is passed over: the server that exits is behind it, or the exit came from it, and it
has `CAP_QS`. -/
def Skipped (s : State) (client_p : Option ℕ) (x dest : ℕ) : Prop :=
  dest = s.fromLink x ∨ (client_p = some dest ∧ s.capQS dest = true)

/-- The servers of a list of links, but for those that are passed over, were told that `x` exits. -/
structure Told (t : Uplinks ℕ) (s₀ : State) (client_p : Option ℕ) (x : ℕ) (l : List ℕ) (s : State) :
    Prop where
  same : Same s₀ s
  told : ∀ dest ∈ l, ¬Skipped s₀ client_p x dest → s.ioError dest = true ∨
    ∃ lines, s.sent dest = s₀.sent dest ++ lines ∧ Makes t s₀ (s₀.capQS dest) x lines
  other : ∀ q, q ∉ l ∨ Skipped s₀ client_p x q →
    s.sent q = s₀.sent q ∧ s.ioError q = s₀.ioError q ∧ s.dead q = s₀.dead q ∧
      s.closing q = s₀.closing q
  marked : ∀ dest ∈ l, s.dead dest = true ∨ s.closing dest = true → s.ioError dest = true
  ioError : ∀ q, s₀.ioError q = true → s.ioError q = true

/-- One link after the others. -/
theorem Told.sendDependents (h : Inv t out s₀) (hx : Ready t out s₀ n x) {l : List ℕ} {dest : ℕ}
    (hs : Told t s₀ client_p x l s) (hlink : Link s₀ dest) (hnew : dest ∉ l)
    (comment comment1 : Str) :
    ∃ s', sendDependents n client_p x comment comment1 s dest = some s' ∧
    Told t s₀ client_p x (l ++ [dest]) s' := by
  have hfrom : s.fromLink x = s₀.fromLink x := by
    rw [hs.same]
    rfl
  have hcap : s.capQS = s₀.capQS := by rw [hs.same]
  obtain ⟨hsent, hio, hdead, hclosing⟩ := hs.other dest (.inl hnew)
  have hmarked : s.dead dest = true ∨ s.closing dest = true → s.ioError dest = true := by
    rw [hdead, hclosing, hio]
    exact hlink.marked
  rw [Netsplit.sendDependents, hfrom, hcap]
  by_cases hskip : Skipped s₀ client_p x dest
  · rw [if_pos (by simpa [hlink.ne_me, Skipped] using hskip)]
    refine ⟨s, rfl, hs.same, fun q hq hnot => ?_, fun q hq => ?_, fun q hq => ?_, hs.ioError⟩
    · obtain hq | hq := mem_append.mp hq
      · exact hs.told q hq hnot
      · exact absurd (mem_singleton.mp hq ▸ hskip) hnot
    · refine hs.other q (hq.imp_left fun hq hmem => hq (mem_append_left _ hmem))
    · obtain hq | hq := mem_append.mp hq
      · exact hs.marked q hq
      · exact mem_singleton.mp hq ▸ hmarked
  · rw [if_neg (by simpa [hlink.ne_me, Skipped] using hskip)]
    have hlink' : Link s dest := by
      refine ⟨hlink.ne_me, ?_, hmarked⟩
      rw [hs.same]
      exact hlink.own
    obtain ⟨s', lines, hrun, hs', hmakes⟩ := h.recurseSendQuits hs.same hlink' comment1 comment hx
      hlink'.sent_nil
    have hne : ∀ q ∈ l, q ≠ dest := fun q hq heq => hnew (heq ▸ hq)
    refine ⟨s', hrun, hs.same.trans hs'.same, fun q hq hnot => ?_, fun q hq => ?_, fun q hq => ?_,
      fun q hq => ?_⟩
    · obtain hq | hq := mem_append.mp hq
      · obtain ⟨hsent', hio', -⟩ := hs'.other q (hne q hq)
        rw [hsent', hio']
        exact hs.told q hq hnot
      · obtain rfl := mem_singleton.mp hq
        exact hs'.got.imp_right fun hgot => ⟨lines, by rw [hgot, hsent]; rfl, hmakes⟩
    · have hqd : q ≠ dest := by
        rintro rfl
        exact hq.elim (fun hq => hq (by simp)) hskip
      obtain ⟨h₁, h₂, h₃, h₄⟩ := hs'.other q hqd
      rw [h₁, h₂, h₃, h₄]
      exact hs.other q (hq.imp_left fun hq hmem => hq (mem_append_left _ hmem))
    · obtain hq | hq := mem_append.mp hq
      · obtain ⟨-, h₂, h₃, h₄⟩ := hs'.other q (hne q hq)
        rw [h₂, h₃, h₄]
        exact hs.marked q hq
      · exact mem_singleton.mp hq ▸ hs'.marked
    · by_cases hqd : q = dest
      · subst hqd
        exact hs'.ioError (hs.ioError q hq)
      · rw [(hs'.other q hqd).2.1]
        exact hs.ioError q hq

/-- All links in turn. -/
theorem Told.foldlM (h : Inv t out s₀) (hx : Ready t out s₀ n x) {l rest : List ℕ}
    (hs : Told t s₀ client_p x l s) (hlinks : ∀ dest ∈ rest, Link s₀ dest)
    (hnodup : (l ++ rest).Nodup) (comment comment1 : Str) :
    ∃ s', rest.foldlM (Netsplit.sendDependents n client_p x comment comment1) s = some s' ∧
      Told t s₀ client_p x (l ++ rest) s' := by
  induction rest generalizing l s with
  | nil => exact ⟨s, rfl, by rwa [append_nil]⟩
  | cons dest rest ih =>
    have hnew : dest ∉ l := fun hmem => (nodup_append.mp hnodup).2.2 dest hmem dest mem_cons_self
      rfl
    obtain ⟨s', hrun, hs'⟩ := hs.sendDependents h hx (hlinks dest mem_cons_self) hnew comment
      comment1
    rw [append_cons] at hnodup ⊢
    obtain ⟨s'', hrun', hs''⟩ := ih hs' (fun q hq => hlinks q (mem_cons_of_mem dest hq)) hnodup
    refine ⟨s'', ?_, hs''⟩
    rw [foldlM_cons, hrun]
    exact hrun'

end Lines

end Ratbox.Netsplit
