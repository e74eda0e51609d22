import Ratbox.Hash
import Ratbox.Lib.Enumerates

/-!
# The history of nicks

When a client changes its nick or exits, an entry is written to the history, in which the old nick
can be looked up for a time. An entry is on the list of all entries, on the list of its nick, which
is found in a hash table, and, as long as the client is online, on a list of the client. When there
are too many entries the oldest ones are taken away.

Source: `src/whowas.c`, lines 40–231, and `src/client.c`, lines 1077–1102.

## Main definitions

* `Whowas.Who`, `Whowas.Wtop`, `Whowas.Client`, `Whowas.State`: entries, the lists of nicks,
  clients, and all.
* `Whowas.addHistory`, `Whowas.offHistory`, `Whowas.trim`, `Whowas.setSize`: the operations.
* `Whowas.getHistory`: the client that had a nick.
* `Whowas.Tied`: the entries and the lists belong together.

## Main results

* `Whowas.Good.addHistory`, `Whowas.Good.offHistory`, `Whowas.Good.trim`: the operations keep this.
* `Whowas.history`: it holds in all runs.
* `Whowas.Tied.getHistory`: the client that is found is online.
-/

namespace Ratbox.Whowas

open Text Hash Nick List Option Function

/-- The hash table of `whowas_init`. -/
def whowasHash : HashF := ⟨.irccmp, 17, 0⟩

/-- The address of a `struct Client`. -/
abbrev Addr := ℕ

/-- What the history reads of a client, with `servptr->name`, `MyClient` and `IsIPSpoof`. The nick
fits. -/
structure User where
  name : Str
  username : Str
  host : Str
  info : Str
  sockhost : Str
  servername : Str
  myClient : Bool
  ipSpoof : Bool
  nick : name ≠ [] ∧ name.length ≤ 30
  deriving DecidableEq

/-- A client, with the field `whowas_clist`. -/
structure Client where
  user : User
  clist : List ℕ
  deriving DecidableEq

/-- `whowas_t`. -/
structure Who where
  wtop : ℕ
  name : Str
  username : Str
  hostname : Str
  servername : Str
  realname : Str
  sockhost : Str
  spoof : Bool
  logoff : ℤ
  online : Option Addr
  deriving DecidableEq

/-- `struct whowas_top`. -/
structure Wtop where
  name : Str
  wwlist : List ℕ
  hnode : Node
  deriving DecidableEq

/-- The table, what is allocated, the list of all entries, `whowas_list_length`, the clients, and
the next address. -/
structure State where
  table : Table
  wtop : ℕ → Option Wtop
  who : ℕ → Option Who
  whowasList : List ℕ
  size : ℕ
  client : Addr → Option Client
  fresh : ℕ

/-- At first there are no entries and no clients. -/
def State.init : State := ⟨Table.empty, fun _ => none, fun _ => none, [], 30000, fun _ => none, 0⟩

/-! ### Lists of nicks -/

/-- `hash_find_data(whowas_hash, name)`. -/
def findTop (s : State) (name : Str) : Option ℕ := (hashFind whowasHash s.table name).map (·.data)

/-- `whowas_get_top`. -/
def getTop (s : State) (name : Str) : ℕ × State :=
  match findTop s name with
  | some t => (t, s)
  | none => (s.fresh, { s with
      table := hashAdd whowasHash s.table name s.fresh
      wtop := update s.wtop s.fresh (some ⟨name, [], added whowasHash s.table name s.fresh⟩)
      fresh := s.fresh + 1 })

/-- `whowas_free_wtop`. -/
def freeWtop (s : State) (t : ℕ) : Option State :=
  (s.wtop t).bind fun wtop =>
    if wtop.wwlist.length = 0 then
      (hashDelHnode s.table wtop.hnode).map fun table =>
        { s with table := table, wtop := update s.wtop t none }
    else some s

/-! ### Entries -/

/-- `rb_dlinkDelete` of a node that is on the list. -/
def unlink (l : List ℕ) (e : ℕ) : Option (List ℕ) := if e ∈ l then some (l.erase e) else none

/-- `rb_dlinkDelete(&who->cnode, &client->whowas_clist)`. -/
def dropClist (s : State) (c : Addr) (e : ℕ) : Option State :=
  (s.client c).bind fun client => (unlink client.clist e).map fun clist =>
    { s with client := update s.client c (some { client with clist := clist }) }

/-- `rb_dlinkDelete(&who->wnode, &wtop->wwlist)`. -/
def dropWwlist (s : State) (t e : ℕ) : Option State :=
  (s.wtop t).bind fun wtop => (unlink wtop.wwlist e).map fun wwlist =>
    { s with wtop := update s.wtop t (some { wtop with wwlist := wwlist }) }

/-- `rb_dlinkDelete(&who->whowas_node, whowas_list)`. -/
def dropList (s : State) (e : ℕ) : Option State :=
  (unlink s.whowasList e).map fun whowasList => { s with whowasList := whowasList }

/-- `rb_free(twho)`. -/
def freeWho (s : State) (e : ℕ) : State := { s with who := update s.who e none }

/-- The body of the loop of `whowas_trim`. -/
def trimOne (s : State) : Option State :=
  match s.whowasList.getLast? with
  | none => some s
  | some e =>
    (s.who e).bind fun twho =>
    (match twho.online with | none => some s | some c => dropClist s c e).bind fun s =>
    (dropWwlist s twho.wtop e).bind fun s =>
    (dropList s e).bind fun s =>
    (freeWtop s twho.wtop).map fun s => freeWho s e

/-- The loop of `whowas_trim`. -/
def trimLoop : ℕ → State → Option State
  | 0, s => some s
  | n + 1, s => (trimOne s).bind (trimLoop n)

/-- `whowas_trim`. -/
def trim (s : State) : Option State :=
  if s.whowasList.length < s.size then some s else trimLoop (s.whowasList.length - s.size) s

/-- The entry that `whowas_add_history` fills in. -/
def newWho (t : ℕ) (c : Addr) (user : User) (online : Bool) (now : ℤ) : Who where
  wtop := t
  name := strlcpy user.name (30 + 1)
  username := strlcpy user.username (10 + 1)
  hostname := strlcpy user.host (63 + 1)
  servername := user.servername
  realname := strlcpy user.info (50 + 1)
  sockhost :=
    if user.myClient then strlcpy user.sockhost (53 + 1)
    else if user.sockhost = [] ∨ user.sockhost = ['0'] then []
    else strlcpy user.sockhost (53 + 1)
  spoof := if user.myClient then user.ipSpoof else false
  logoff := now
  online := if online then some c else none

/-- The entry is put on the lists. -/
def enlist (s : State) (t : ℕ) (wtop : Wtop) (c : Addr) (client : Client) (online : Bool)
    (now : ℤ) : State :=
  { s with
    who := update s.who s.fresh (some (newWho t c client.user online now))
    client :=
      if online then update s.client c (some { client with clist := s.fresh :: client.clist })
        else s.client
    wtop := update s.wtop t (some { wtop with wwlist := s.fresh :: wtop.wwlist })
    whowasList := s.fresh :: s.whowasList
    fresh := s.fresh + 1 }

/-- `whowas_add_history`. -/
def addHistory (s : State) (c : Addr) (online : Bool) (now : ℤ) : Option State :=
  (if (s.size + 100) % 2 ^ 32 < s.whowasList.length then trim s else some s).bind fun s =>
    (s.client c).bind fun client =>
      let top := getTop s client.user.name
      (top.2.wtop top.1).map fun wtop => enlist top.2 top.1 wtop c client online now

/-- The loop of `whowas_off_history`. -/
def offLoop (c : Addr) : List ℕ → State → Option State
  | [], s => some s
  | e :: es, s =>
    (s.who e).bind fun who =>
    (dropClist { s with who := update s.who e (some { who with online := none }) } c e).bind
      (offLoop c es)

/-- `whowas_off_history`. -/
def offHistory (s : State) (c : Addr) : Option State :=
  (s.client c).bind fun client => offLoop c client.clist s

/-- `whowas_set_size`. -/
def setSize (s : State) (len : ℤ) : Option State := trim { s with size := (len % 2 ^ 32).toNat }

/-- `whowas_get_history`. -/
def getHistory (s : State) (nick : Str) (timelimit now : ℤ) : Option Addr :=
  (findTop s nick).bind fun t => (s.wtop t).bind fun wtop =>
    ((wtop.wwlist.reverse.filterMap s.who).find? fun who => now - timelimit ≤ who.logoff).bind
      (·.online)

/-! ### Clients -/

/-- What happens: a client comes, its data change, the operations, and it exits. -/
inductive Op
  | introduce (c : Addr) (user : User)
  | change (c : Addr) (user : User)
  | add (c : Addr) (online : Bool) (now : ℤ)
  | off (c : Addr)
  | exit (c : Addr) (now : ℤ)
  | trim
  | setSize (len : ℤ)
  deriving DecidableEq

/-- What `exit_generic_client` does to the history; the client is then gone. -/
def exitGenericClient (s : State) (c : Addr) (now : ℤ) : Option State :=
  (addHistory s c false now).bind fun s => (offHistory s c).map fun s =>
    { s with client := update s.client c none }

/-- A step. -/
def step (s : State) : Op → Option State
  | .introduce c user =>
    if s.client c = none then some { s with client := update s.client c (some ⟨user, []⟩) }
      else none
  | .change c user => (s.client c).map fun client =>
    { s with client := update s.client c (some { client with user := user }) }
  | .add c online now => addHistory s c online now
  | .off c => offHistory s c
  | .exit c now => exitGenericClient s c now
  | .trim => trim s
  | .setSize len => setSize s len

/-- The operation is made with a client that exists, or with a new one. -/
def Op.Live (s : State) : Op → Prop
  | .introduce c _ => s.client c = none
  | .change c _ | .add c _ _ | .off c | .exit c _ => s.client c ≠ none
  | .trim | .setSize _ => True

/-! ### The entries and the lists -/

/-- The nodes of the lists of nicks. -/
def State.node (s : State) : ℕ → Option Node := Option.map Wtop.hnode ∘ s.wtop

/-- The table has the nodes of the lists of nicks; each entry is on the list of all entries, the
list of its nick, and the list of the client if this is online. -/
structure Tied (s : State) : Prop where
  indexes : Hash.Indexes whowasHash s.table s.node
  key : ∀ t p, s.wtop t = some p → p.hnode.key = p.name
  list : Enumerates s.whowasList fun e => ∃ w, s.who e = some w
  wwlist : ∀ t p, s.wtop t = some p → Enumerates p.wwlist fun e => ∃ w, s.who e = some w ∧
    w.wtop = t
  clist : ∀ c r, s.client c = some r → Enumerates r.clist fun e => ∃ w, s.who e = some w ∧
    w.online = some c
  top : ∀ e w, s.who e = some w → ∃ p, s.wtop w.wtop = some p ∧ irccmp p.name w.name = true
  live : ∀ e w c, s.who e = some w → w.online = some c → ∃ r, s.client c = some r
  fresh : ∀ a, s.fresh ≤ a → s.wtop a = none ∧ s.who a = none

/-- Moreover, no list of a nick is empty. -/
structure Good (s : State) : Prop where
  tied : Tied s
  used : ∀ t p, s.wtop t = some p → p.wwlist ≠ []

section Tied

variable {s s' : State} {e t : ℕ} {w : Who} {p : Wtop} {c : Addr} {r : Client} {name : Str}

theorem key_whowasHash (k : Str) : whowasHash.Key k := nofun

/-- What has an entry with a property, after one entry was written. -/
theorem exists_update_iff {β : Type*} {f : ℕ → Option β} {o : Option β} {x : ℕ} {q : β → Prop} :
    (∃ w, update f e o x = some w ∧ q w) ↔
      (x = e ∧ ∃ w, o = some w ∧ q w) ∨ x ≠ e ∧ ∃ w, f x = some w ∧ q w := by
  simp only [update_eq_some, or_and_right, exists_or, and_assoc, exists_and_left]

/-- A search finds the list of the nick. -/
theorem Tied.findTop_eq_some_iff (h : Tied s) (hname : name ≠ []) :
    findTop s name = some t ↔ ∃ p, s.wtop t = some p ∧ irccmp name p.name = true := by
  rw [findTop, h.indexes.find (key_whowasHash name) hname]
  constructor
  · rintro ⟨n, hn, hsame⟩
    obtain ⟨p, hp, rfl⟩ := Option.map_eq_some_iff.mp hn
    exact ⟨p, hp, h.key t p hp ▸ hsame⟩
  · rintro ⟨p, hp, hsame⟩
    exact ⟨p.hnode, by rw [State.node, comp_apply, hp, map_some], (h.key t p hp).symm ▸ hsame⟩

/-- `whowas_get_top` gives the list of the nick, which may be new and empty. -/
theorem Tied.getTop (h : Tied s) (hname : name ≠ []) :
    Tied (getTop s name).2 ∧ ∃ p, (getTop s name).2.wtop (getTop s name).1 = some p ∧
      irccmp p.name name = true ∧ ∀ t q, (getTop s name).2.wtop t = some q → t = (getTop s name).1 ∨
      s.wtop t = some q := by
  rw [Whowas.getTop]
  cases hfind : findTop s name with
  | some t =>
    obtain ⟨p, hp, hsame⟩ := (h.findTop_eq_some_iff hname).mp hfind
    exact ⟨h, p, hp, irccmp_symm hsame, fun t q hq => .inr hq⟩
  | none =>
    obtain ⟨hwtop, hwho⟩ := h.fresh s.fresh le_rfl
    refine ⟨⟨?_, fun t p hp => ?_, h.list, fun t p hp => ?_, h.clist, fun e w hw => ?_, h.live,
      fun a ha => ?_⟩, _, update_self .., irccmp_refl _, fun t q hq => ?_⟩
    · have hindexes := h.indexes.add (by decide) (key_whowasHash name) hname hfind
        (by rw [State.node, comp_apply, hwtop, map_none])
      rw [State.node, ← map_some (f := Wtop.hnode)
        (a := ⟨name, [], added whowasHash s.table name s.fresh⟩), ← comp_update] at hindexes
      exact hindexes
    · obtain ⟨rfl, hq⟩ | ⟨-, hp⟩ := update_eq_some.mp hp
      · cases hq
        rfl
      · exact h.key t p hp
    · obtain ⟨rfl, hq⟩ | ⟨-, hp⟩ := update_eq_some.mp hp
      · cases hq
        refine Enumerates.nil ?_
        rintro e ⟨w, hw, ht⟩
        obtain ⟨p, hp, -⟩ := h.top e w hw
        rw [ht, hwtop] at hp
        cases hp
      · exact h.wwlist t p hp
    · obtain ⟨p, hp, hsame⟩ := h.top e w hw
      refine ⟨p, update_eq_some.mpr (.inr ⟨fun heq => ?_, hp⟩), hsame⟩
      rw [heq, hwtop] at hp
      cases hp
    · obtain ⟨hnone, hwho⟩ := h.fresh a (Nat.le_of_succ_le ha)
      exact ⟨(update_of_ne (Nat.ne_of_gt ha) _ _).trans hnone, hwho⟩
    · obtain ⟨heq, -⟩ | ⟨-, hq⟩ := update_eq_some.mp hq
      · exact .inl heq
      · exact .inr hq

theorem strlcpy_of_le {str : Str} {n : ℕ} (h : str.length ≤ n) : strlcpy str (n + 1) = str :=
  take_of_length_le h

/-- A new entry. -/
theorem Tied.enlist (h : Tied s) (hp : s.wtop t = some p) (hr : s.client c = some r)
    (hsame : irccmp p.name r.user.name = true) (online : Bool) (now : ℤ) :
    Tied (enlist s t p c r online now) := by
  obtain ⟨-, hwho⟩ := h.fresh s.fresh le_rfl
  have hnew : ∀ {q : Who → Prop}, ¬ ∃ w, s.who s.fresh = some w ∧ q w := by simp [hwho]
  refine ⟨?_, fun t' p' hp' => ?_, ?_, fun t' p' hp' => ?_, fun c' r' hr' => ?_, fun e w hw => ?_,
    fun e w c' hw hc' => ?_, fun a ha => ?_⟩
  · have hnode : (Whowas.enlist s t p c r online now).node = s.node := by
      have hsame : s.node t = some p.hnode := by rw [State.node, comp_apply, hp, map_some]
      rw [State.node, Whowas.enlist, Function.comp_update, Option.map_some, ← State.node, ← hsame,
        update_eq_self]
    exact hnode ▸ h.indexes
  · obtain ⟨rfl, hq⟩ | ⟨-, hp'⟩ := update_eq_some.mp hp'
    · cases hq
      exact h.key _ p hp
    · exact h.key t' p' hp'
  · refine h.list.cons (by simp [hwho]) fun x => ?_
    simp only [Whowas.enlist, update_eq_some, exists_or]
    by_cases hx : x = s.fresh
    · simp [hx]
    · simp [hx]
  · obtain ⟨rfl, hq⟩ | ⟨hne, hp'⟩ := update_eq_some.mp hp'
    · cases hq
      refine (h.wwlist _ p hp).cons hnew fun x => ?_
      rw [Whowas.enlist, exists_update_iff]
      by_cases hx : x = s.fresh
      · simp [hx, newWho]
      · simp [hx]
    · refine (h.wwlist t' p' hp').congr fun x => ?_
      rw [Whowas.enlist, exists_update_iff]
      by_cases hx : x = s.fresh
      · simp [hx, hwho, newWho, Ne.symm hne]
      · simp [hx]
  · rw [Whowas.enlist] at hr' ⊢
    cases online with
    | true =>
      obtain ⟨rfl, hq⟩ | ⟨hne, hr'⟩ := update_eq_some.mp hr'
      · cases hq
        refine (h.clist _ r hr).cons hnew fun x => ?_
        rw [exists_update_iff]
        by_cases hx : x = s.fresh
        · simp [hx, newWho]
        · simp [hx]
      · refine (h.clist c' r' hr').congr fun x => ?_
        rw [exists_update_iff]
        by_cases hx : x = s.fresh
        · simp [hx, hwho, newWho, Ne.symm hne]
        · simp [hx]
    | false =>
      refine (h.clist c' r' hr').congr fun x => ?_
      rw [exists_update_iff]
      by_cases hx : x = s.fresh
      · simp [hx, hwho, newWho]
      · simp [hx]
  · have htop : ∀ t' q, s.wtop t' = some q → ∃ q', (Whowas.enlist s t p c r online now).wtop t' =
        some q' ∧ q'.name = q.name := by
      intro t' q hq
      by_cases ht : t' = t
      · subst ht
        cases hp.symm.trans hq
        exact ⟨_, update_self .., rfl⟩
      · exact ⟨q, (update_of_ne ht _ _).trans hq, rfl⟩
    have hold : ∃ q, s.wtop w.wtop = some q ∧ irccmp q.name w.name = true := by
      obtain ⟨-, heq⟩ | ⟨-, hw⟩ := update_eq_some.mp hw
      · cases heq
        have hname : (newWho t c r.user online now).name = r.user.name :=
          strlcpy_of_le r.user.nick.2
        exact ⟨p, hp, hname.symm ▸ hsame⟩
      · exact h.top e w hw
    obtain ⟨q, hq, hname⟩ := hold
    obtain ⟨q', hq', heq⟩ := htop _ q hq
    exact ⟨q', hq', heq ▸ hname⟩
  · have hlive : ∃ q, s.client c' = some q := by
      obtain ⟨-, heq⟩ | ⟨-, hw⟩ := update_eq_some.mp hw
      · cases heq
        have honline : (newWho t c r.user online now).online = if online then some c else none :=
          rfl
        rw [honline] at hc'
        split_ifs at hc'
        exact ⟨r, some.inj hc' ▸ hr⟩
      · exact h.live e w c' hw hc'
    obtain ⟨q, hq⟩ := hlive
    rw [Whowas.enlist]
    cases online with
    | true =>
      by_cases heq : c' = c
      · subst heq
        exact ⟨_, update_self ..⟩
      · exact ⟨q, (update_of_ne heq _ _).trans hq⟩
    | false => exact ⟨q, hq⟩
  · obtain ⟨hnone, hwho'⟩ := h.fresh a (Nat.le_of_succ_le ha)
    have hne : a ≠ t := by
      rintro rfl
      cases hnone.symm.trans hp
    exact ⟨(update_of_ne hne _ _).trans hnone, (update_of_ne (Nat.ne_of_gt ha) _ _).trans hwho'⟩

/-- An entry is taken off the lists and freed. -/
theorem Tied.unlist {u : State} (h : Tied s) (htable : u.table = s.table)
    (hwho : u.who = update s.who e none) (hlist : u.whowasList = s.whowasList.erase e)
    (hwtop : ∀ t, u.wtop t = (s.wtop t).map fun p => { p with wwlist := p.wwlist.erase e })
    (hclient : ∀ c, u.client c = (s.client c).map fun r => { r with clist := r.clist.erase e })
    (hfresh : u.fresh = s.fresh) : Tied u := by
  have hwrote : ∀ {x : ℕ} {q : Who → Prop},
      (∃ w, u.who x = some w ∧ q w) ↔ x ≠ e ∧ ∃ w, s.who x = some w ∧ q w := by
    intro x q
    rw [hwho, exists_update_iff]
    simp
  have hold : ∀ {x w}, u.who x = some w → s.who x = some w := by
    intro x w hx
    obtain ⟨-, w', hw', rfl⟩ := hwrote.mp ⟨w, hx, rfl⟩
    exact hw'
  refine ⟨?_, fun t p hp => ?_, ?_, fun t p hp => ?_, fun c r hr => ?_, fun x w hx => ?_,
    fun x w c hx hc => ?_, fun a ha => ?_⟩
  · have hnode : u.node = s.node := by
      funext t
      rw [State.node, State.node, Function.comp_apply, Function.comp_apply, hwtop, Option.map_map]
      rfl
    exact hnode ▸ htable ▸ h.indexes
  · obtain ⟨q, hq, rfl⟩ := map_eq_some_iff.mp ((hwtop t).symm.trans hp)
    exact h.key t q hq
  · rw [hlist]
    exact h.list.erase fun x => by simpa using hwrote (x := x) (q := fun _ => True)
  · obtain ⟨q, hq, rfl⟩ := map_eq_some_iff.mp ((hwtop t).symm.trans hp)
    exact (h.wwlist t q hq).erase fun x => hwrote
  · obtain ⟨q, hq, rfl⟩ := map_eq_some_iff.mp ((hclient c).symm.trans hr)
    exact (h.clist c q hq).erase fun x => hwrote
  · obtain ⟨p, hp, hname⟩ := h.top x w (hold hx)
    exact ⟨{ p with wwlist := p.wwlist.erase e }, by rw [hwtop, hp, map_some], hname⟩
  · obtain ⟨r, hr⟩ := h.live x w c (hold hx) hc
    exact ⟨_, by rw [hclient, hr, map_some]⟩
  · obtain ⟨hnone, hwho'⟩ := h.fresh a (hfresh ▸ ha)
    refine ⟨by rw [hwtop, hnone, map_none], ?_⟩
    rw [hwho, update_apply]
    split_ifs
    · rfl
    · exact hwho'

/-- A list without entries is freed. -/
theorem Tied.freeWtop (h : Tied s) (hp : s.wtop t = some p) :
    ∃ s', freeWtop s t = some s' ∧ Tied s' ∧ s'.who = s.who ∧ s'.whowasList = s.whowasList ∧
      s'.client = s.client ∧
      s'.size = s.size ∧ s'.fresh = s.fresh ∧ ∀ t' q, s'.wtop t' = some q → s.wtop t' = some q ∧
      (t' = t → q.wwlist ≠ []) := by
  rw [Whowas.freeWtop, hp, bind_some]
  split_ifs with hlen
  · obtain ⟨table, hdel, hindexes⟩ :=
      h.indexes.del (a := t) (by rw [State.node, comp_apply, hp, map_some])
    have hnone : ∀ e w, s.who e = some w → w.wtop ≠ t := by
      intro e w hw ht
      exact (h.wwlist t p hp).eq_nil_iff.mp (length_eq_zero_iff.mp hlen) e ⟨w, hw, ht⟩
    have hold : ∀ {t' q}, update s.wtop t none t' = some q → t' ≠ t ∧ s.wtop t' = some q := by
      intro t' q hq
      obtain ⟨-, heq⟩ | hq := update_eq_some.mp hq
      · cases heq
      · exact hq
    rw [hdel, map_some]
    refine ⟨_, rfl, ⟨?_, fun t' q hq => h.key t' q (hold hq).2, h.list, fun t' q hq => h.wwlist t' q
      (hold hq).2, h.clist, fun e w hw => ?_, h.live, fun a ha => ?_⟩, rfl, rfl, rfl, rfl, rfl,
      fun t' q hq => ⟨(hold hq).2, fun heq => absurd heq (hold hq).1⟩⟩
    · rw [← show Option.map Wtop.hnode ∘ Function.update s.wtop t none = Function.update s.node t
        none from comp_update ..] at hindexes
      exact hindexes
    · obtain ⟨q, hq, hname⟩ := h.top e w hw
      exact ⟨q, update_eq_some.mpr (.inr ⟨hnone e w hw, hq⟩), hname⟩
    · refine ⟨?_, (h.fresh a ha).2⟩
      refine (update_apply ..).trans ?_
      split_ifs
      · rfl
      · exact (h.fresh a ha).1
  · refine ⟨s, rfl, h, rfl, rfl, rfl, rfl, rfl, fun t' q hq => ⟨hq, fun heq hnil => hlen ?_⟩⟩
    rw [heq, hp] at hq
    rw [some.inj hq, hnil, length_nil]

theorem freeWtop_freeWho (s : State) (t e : ℕ) :
    freeWtop (freeWho s e) t = (freeWtop s t).map fun s => freeWho s e := by
  rw [Whowas.freeWtop, Whowas.freeWtop, freeWho]
  dsimp only
  cases s.wtop t with
  | none => rfl
  | some p =>
    rw [bind_some, bind_some]
    split_ifs
    · rw [Option.map_map]
      rfl
    · rfl

/-- An entry is not online any more. -/
theorem Tied.offline (h : Tied s) (hw : s.who e = some w) (hr : s.client c = some r)
    (hc : w.online = some c) :
    Tied { s with
      who := Function.update s.who e (some { w with online := none })
      client := Function.update s.client c (some { r with clist := r.clist.erase e }) } := by
  have hold : ∀ {x v}, Function.update s.who e (some { w with online := none }) x = some v →
      ∃ u, s.who x = some u ∧ v.wtop = u.wtop ∧ v.name = u.name ∧ ∀ c, v.online = some c →
          u.online = some c := by
    intro x v hv
    obtain ⟨rfl, heq⟩ | ⟨-, hv⟩ := update_eq_some.mp hv
    · cases heq
      exact ⟨w, hw, rfl, rfl, nofun⟩
    · exact ⟨v, hv, rfl, rfl, fun _ => id⟩
  refine ⟨h.indexes, h.key, h.list.congr fun x => ?_, fun t p hp => (h.wwlist t p hp).congr fun x =>
    ?_, fun c' r' hr' => ?_, fun x v hv => ?_, fun x v c' hv hc' => ?_, fun a ha => ?_⟩
  · by_cases hx : x = e
    · simp [hx, hw]
    · simp [hx]
  · by_cases hx : x = e
    · simp [hx, hw]
    · simp [hx]
  · obtain ⟨rfl, hq⟩ | ⟨hne, hr'⟩ := update_eq_some.mp hr'
    · cases hq
      refine (h.clist _ r hr).erase fun x => ?_
      by_cases hx : x = e
      · simp [hx]
      · simp [hx]
    · refine (h.clist c' r' hr').congr fun x => ?_
      by_cases hx : x = e
      · simp [hx, hw, hc, Ne.symm hne]
      · simp [hx]
  · obtain ⟨u, hu, htop, hname, -⟩ := hold hv
    obtain ⟨p, hp, hsame⟩ := h.top x u hu
    exact ⟨p, htop ▸ hp, hname ▸ hsame⟩
  · obtain ⟨u, hu, -, -, honline⟩ := hold hv
    obtain ⟨q, hq⟩ := h.live x u c' hu (honline c' hc')
    by_cases heq : c' = c
    · subst heq
      exact ⟨_, Function.update_self ..⟩
    · exact ⟨q, (Function.update_of_ne heq _ _).trans hq⟩
  · obtain ⟨hnone, hwho⟩ := h.fresh a ha
    have hne : a ≠ e := by
      rintro rfl
      cases hwho.symm.trans hw
    exact ⟨hnone, (Function.update_of_ne hne _ _).trans hwho⟩

theorem unlink_of_mem {l : List ℕ} (he : e ∈ l) : unlink l e = some (l.erase e) := if_pos he

/-- An operation leaves the size and what else is known of the clients. -/
structure Same (s s' : State) : Prop where
  size : s'.size = s.size
  user : ∀ c, (s'.client c).map (·.user) = (s.client c).map (·.user)

theorem Same.refl (s : State) : Same s s := ⟨rfl, fun _ => rfl⟩

theorem Same.trans {s₁ s₂ s₃ : State} (h : Same s₁ s₂) (h' : Same s₂ s₃) : Same s₁ s₃ :=
  ⟨h'.size.trans h.size, fun c => (h'.user c).trans (h.user c)⟩

/-- The node of an entry on the list of its client is taken out, if there is one. -/
theorem Tied.dropOnline (h : Tied s) (hw : s.who e = some w) :
    ∃ client, (match w.online with | none => some s | some c => dropClist s c e) = some
      { s with client := client } ∧ ∀ c, client c = (s.client c).map fun r =>
      { r with clist := r.clist.erase e } := by
  have hother : ∀ c r, s.client c = some r → w.online ≠ some c → r.clist.erase e = r.clist := by
    intro c r hr hne
    refine erase_of_not_mem fun hmem => hne ?_
    obtain ⟨w', hw', hc⟩ := ((h.clist c r hr).mem_iff e).mp hmem
    rw [some.inj (hw.symm.trans hw')]
    exact hc
  cases honline : w.online with
  | none =>
    refine ⟨s.client, rfl, fun c => ?_⟩
    cases hr : s.client c with
    | none => rfl
    | some r => rw [map_some, hother c r hr (by simp [honline])]
  | some c =>
    obtain ⟨r, hr⟩ := h.live e w c hw honline
    have hmem : e ∈ r.clist := ((h.clist c r hr).mem_iff e).mpr ⟨w, hw, honline⟩
    refine ⟨update s.client c (some { r with clist := r.clist.erase e }), ?_, fun c' => ?_⟩
    · dsimp only
      rw [dropClist, hr, bind_some, unlink_of_mem hmem, map_some]
    · rw [update_apply]
      split_ifs with hc'
      · rw [hc', hr, map_some]
      · cases hr' : s.client c' with
        | none => rfl
        | some r' => rw [map_some, hother c' r' hr' (by simpa [honline] using Ne.symm hc')]

/-- The oldest entry is trimmed. -/
theorem Good.trimOne (h : Good s) : ∃ s', trimOne s = some s' ∧ Good s' ∧ Same s s' ∧
    s'.whowasList.length = s.whowasList.length - 1 := by
  rw [Whowas.trimOne]
  cases hlast : s.whowasList.getLast? with
  | none =>
    have hnil : s.whowasList = [] := getLast?_eq_none_iff.mp hlast
    exact ⟨s, rfl, h, Same.refl s, by rw [hnil, length_nil]⟩
  | some e =>
    have hmem : e ∈ s.whowasList := mem_of_getLast? hlast
    obtain ⟨w, hw⟩ := (h.tied.list.mem_iff e).mp hmem
    obtain ⟨p, hp, -⟩ := h.tied.top e w hw
    have hmemTop : e ∈ p.wwlist := ((h.tied.wwlist _ p hp).mem_iff e).mpr ⟨w, hw, rfl⟩
    obtain ⟨client, hdrop, hclient⟩ := h.tied.dropOnline hw
    have hwtop : ∀ t, update s.wtop w.wtop (some { p with wwlist := p.wwlist.erase e }) t =
        (s.wtop t).map fun p => { p with wwlist := p.wwlist.erase e } := by
      intro t
      rw [update_apply]
      split_ifs with ht
      · rw [ht, hp, map_some]
      · cases hq : s.wtop t with
        | none => rfl
        | some q =>
          have hout : e ∉ q.wwlist := by
            intro hin
            obtain ⟨w', hw', ht'⟩ := ((h.tied.wwlist t q hq).mem_iff e).mp hin
            exact ht (by rw [some.inj (hw.symm.trans hw'), ht'])
          rw [map_some, erase_of_not_mem hout]
    have hunlisted := h.tied.unlist (u := freeWho
      { s with
        client := client
        wtop := update s.wtop w.wtop (some { p with wwlist := p.wwlist.erase e })
        whowasList := s.whowasList.erase e } e) rfl rfl rfl hwtop hclient rfl
    obtain ⟨s', hfree, htied, hwho, hlist, hclient', hsize, -, hused⟩ :=
      hunlisted.freeWtop (t := w.wtop) (update_self ..)
    refine ⟨s', ?_, ⟨htied, fun t q hq hnil => ?_⟩, ⟨hsize, fun c => ?_⟩, ?_⟩
    · dsimp only
      rw [hw, bind_some, hdrop, bind_some, dropWwlist]
      dsimp only
      rw [hp, bind_some, unlink_of_mem hmemTop, map_some, bind_some, dropList,
        unlink_of_mem hmem, map_some, bind_some, ← freeWtop_freeWho]
      exact hfree
    · obtain ⟨hq', hne⟩ := hused t q hq
      by_cases ht : t = w.wtop
      · exact hne ht hnil
      · exact h.used t q ((update_of_ne ht _ _).symm.trans hq') hnil
    · rw [hclient']
      dsimp only [freeWho]
      rw [hclient, Option.map_map]
      rfl
    · rw [hlist]
      exact length_erase_of_mem hmem

theorem Good.trimLoop (h : Good s) (n : ℕ) : ∃ s', trimLoop n s = some s' ∧ Good s' ∧ Same s s' ∧
    s'.whowasList.length = s.whowasList.length - n := by
  induction n generalizing s with
  | zero => exact ⟨s, rfl, h, Same.refl s, rfl⟩
  | succ n ih =>
    obtain ⟨s₁, hs₁, hgood₁, hsame₁, hlen₁⟩ := h.trimOne
    obtain ⟨s', hs', hgood, hsame, hlen⟩ := ih hgood₁
    refine ⟨s', by rw [Whowas.trimLoop, hs₁, bind_some, hs'], hgood, hsame₁.trans hsame, ?_⟩
    rw [hlen, hlen₁, Nat.sub_sub, Nat.add_comm 1]

/-- **Trimming** leaves no more entries than the size. -/
theorem Good.trim (h : Good s) : ∃ s', trim s = some s' ∧ Good s' ∧ Same s s' ∧
    s'.whowasList.length = min s.whowasList.length s.size := by
  rw [Whowas.trim]
  split_ifs with hlt
  · exact ⟨s, rfl, h, Same.refl s, (Nat.min_eq_left hlt.le).symm⟩
  · obtain ⟨s', hs', hgood, hsame, hlen⟩ := h.trimLoop (s.whowasList.length - s.size)
    refine ⟨s', hs', hgood, hsame, ?_⟩
    omega

theorem Same.exists_client (h : Same s s') (hr : s.client c = some r) :
    ∃ r', s'.client c = some r' ∧ r'.user = r.user := by
  have huser := h.user c
  rw [hr, map_some] at huser
  exact map_eq_some_iff.mp huser

/-- **A new entry.** There are at most 101 entries more than the size. -/
theorem Good.addHistory (h : Good s) (hr : s.client c = some r) (online : Bool) (now : ℤ) :
    ∃ s', addHistory s c online now = some s' ∧ Good s' ∧ Same s s' ∧
      s'.whowasList.length ≤ s'.size + 101 := by
  have htrim : ∃ s₁, (if (s.size + 100) % 2 ^ 32 < s.whowasList.length then Whowas.trim s
      else some s) = some s₁ ∧ Good s₁ ∧ Same s s₁ ∧ s₁.whowasList.length ≤ s₁.size + 100 := by
    split_ifs with hover
    · obtain ⟨s₁, hs₁, hgood₁, hsame₁, hlen₁⟩ := h.trim
      refine ⟨s₁, hs₁, hgood₁, hsame₁, ?_⟩
      rw [hlen₁, hsame₁.size]
      omega
    · exact ⟨s, rfl, h, Same.refl s, (Nat.le_of_not_lt hover).trans (Nat.mod_le _ _)⟩
  obtain ⟨s₁, hs₁, hgood₁, hsame₁, hlen₁⟩ := htrim
  obtain ⟨r₁, hr₁, -⟩ := hsame₁.exists_client hr
  obtain ⟨htied, p, hp, hname, hold⟩ := hgood₁.tied.getTop r₁.user.nick.1
  have hgetTop : (getTop s₁ r₁.user.name).2.client = s₁.client ∧ (getTop s₁ r₁.user.name).2.size =
      s₁.size ∧ (getTop s₁ r₁.user.name).2.whowasList = s₁.whowasList := by
    rw [Whowas.getTop]
    split
    · exact ⟨rfl, rfl, rfl⟩
    · exact ⟨rfl, rfl, rfl⟩
  obtain ⟨hclient, hsize, hlist⟩ := hgetTop
  have hr₂ := hr₁
  rw [← hclient] at hr₂
  refine ⟨_, ?_, ⟨htied.enlist hp hr₂ hname online now, fun t q hq => ?_⟩, ⟨hsize.trans hsame₁.size,
    fun c' => ?_⟩, ?_⟩
  · rw [Whowas.addHistory, hs₁, bind_some, hr₁, bind_some]
    dsimp only
    rw [hp, map_some]
  · obtain ⟨-, heq⟩ | ⟨hne, hq⟩ := update_eq_some.mp hq
    · cases heq
      exact cons_ne_nil _ _
    · exact hgood₁.used t q ((hold t q hq).resolve_left hne)
  · rw [← hsame₁.user c', ← hclient, enlist]
    cases online with
    | true =>
      by_cases hc' : c' = c
      · subst hc'
        simp [hr₂]
      · simp [hc']
    | false => rfl
  · rw [enlist]
    dsimp only
    rw [length_cons, hlist, hsize]
    exact Nat.succ_le_succ hlen₁

/-- The entries of a client are taken off its list one after the other. -/
theorem Good.offLoop {es : List ℕ} (h : Good s) (hr : s.client c = some r) (hes : r.clist = es) :
    ∃ s', offLoop c es s = some s' ∧ Good s' ∧ Same s s' ∧ s'.whowasList = s.whowasList ∧
      s'.client c = some { r with clist := [] } := by
  induction es generalizing s r with
  | nil => exact ⟨s, rfl, h, Same.refl s, rfl, hes ▸ hr⟩
  | cons e es ih =>
    have hmem : e ∈ r.clist := hes ▸ mem_cons_self
    obtain ⟨w, hw, hc⟩ := ((h.tied.clist c r hr).mem_iff e).mp hmem
    have hoff := h.tied.offline hw hr hc
    obtain ⟨s', hs', hgood, hsame, hlist, hclient⟩ := ih (r := { r with clist := r.clist.erase e })
      ⟨hoff, h.used⟩ (update_self ..) (by simp [hes])
    have hfirst : Same s { s with
        who := update s.who e (some { w with online := none })
        client := update s.client c (some { r with clist := r.clist.erase e }) } := by
      refine ⟨rfl, fun c' => ?_⟩
      dsimp only
      rw [update_apply]
      split_ifs with hc'
      · rw [hc', hr, map_some, map_some]
      · rfl
    refine ⟨s', ?_, hgood, hfirst.trans hsame, hlist, hclient⟩
    rw [Whowas.offLoop, hw, bind_some, dropClist]
    dsimp only
    rw [hr, bind_some, unlink_of_mem hmem, map_some, bind_some]
    exact hs'

theorem Good.offHistory (h : Good s) (hr : s.client c = some r) :
    ∃ s', offHistory s c = some s' ∧ Good s' ∧ Same s s' ∧ s'.whowasList = s.whowasList ∧
    s'.client c = some { r with clist := [] } := by
  rw [Whowas.offHistory, hr, bind_some]
  exact h.offLoop hr rfl

/-- A client without entries comes or goes, or its data change. -/
theorem Good.setClient (h : Good s) {o : Option Client}
    (ho : ∀ r, o = some r → Enumerates r.clist fun e => ∃ w, s.who e = some w ∧ w.online = some c)
    (hlive : ∀ e w, s.who e = some w → w.online = some c → ∃ r, o = some r) :
    Good { s with client := Function.update s.client c o } := by
  refine ⟨⟨h.tied.indexes, h.tied.key, h.tied.list, h.tied.wwlist, fun c' r' hr' => ?_, h.tied.top,
    fun e w c' hw hc' => ?_, h.tied.fresh⟩, h.used⟩
  · obtain ⟨rfl, hq⟩ | ⟨-, hr'⟩ := update_eq_some.mp hr'
    · exact ho r' hq
    · exact h.tied.clist c' r' hr'
  · by_cases heq : c' = c
    · subst heq
      obtain ⟨r, hr⟩ := hlive e w hw hc'
      exact ⟨r, (Function.update_self ..).trans hr⟩
    · obtain ⟨r, hr⟩ := h.tied.live e w c' hw hc'
      exact ⟨r, (Function.update_of_ne heq _ _).trans hr⟩

theorem Good.setSize (h : Good s) (len : ℤ) : ∃ s', setSize s len = some s' ∧ Good s' ∧
    s'.size = (len % 2 ^ 32).toNat ∧ s'.whowasList.length ≤ s'.size := by
  have hgood : Good { s with size := (len % 2 ^ 32).toNat } :=
    ⟨⟨h.tied.indexes, h.tied.key, h.tied.list, h.tied.wwlist, h.tied.clist, h.tied.top, h.tied.live,
      h.tied.fresh⟩, h.used⟩
  obtain ⟨s', hs', hgood', hsame, hlen⟩ := hgood.trim
  refine ⟨s', hs', hgood', hsame.size, ?_⟩
  rw [hlen, hsame.size]
  exact Nat.min_le_right _ _

/-- What holds between the operations. -/
def Kept (s : State) : Prop := Good s ∧ s.whowasList.length ≤ s.size + 101

/-- **A step.** -/
theorem Kept.step (h : Kept s) {op : Op} (hop : op.Live s) :
    ∃ s', step s op = some s' ∧ Kept s' := by
  obtain ⟨hgood, hbound⟩ := h
  cases op with
  | introduce c user =>
    rw [Op.Live] at hop
    rw [Whowas.step, if_pos hop]
    have hnone : ∀ e w, s.who e = some w → w.online ≠ some c := by
      intro e w hw hc
      obtain ⟨r, hr⟩ := hgood.tied.live e w c hw hc
      cases hop.symm.trans hr
    refine ⟨_, rfl, hgood.setClient (fun r hr => ?_) fun e w hw hc => absurd hc (hnone e w hw),
      hbound⟩
    cases hr
    exact Enumerates.nil fun e ⟨w, hw, hc⟩ => hnone e w hw hc
  | change c user =>
    obtain ⟨r, hr⟩ := ne_none_iff_exists'.mp hop
    refine ⟨_, by rw [Whowas.step, hr, map_some], hgood.setClient (fun r' hr' => ?_)
      fun _ _ _ _ => ⟨_, rfl⟩, hbound⟩
    cases hr'
    exact hgood.tied.clist c r hr
  | add c online now =>
    obtain ⟨r, hr⟩ := ne_none_iff_exists'.mp hop
    obtain ⟨s', hs', hgood', -, hbound'⟩ := hgood.addHistory hr online now
    exact ⟨s', hs', hgood', hbound'⟩
  | off c =>
    obtain ⟨r, hr⟩ := ne_none_iff_exists'.mp hop
    obtain ⟨s', hs', hgood', hsame, hlist, -⟩ := hgood.offHistory hr
    exact ⟨s', hs', hgood', by rw [hlist, hsame.size]; exact hbound⟩
  | exit c now =>
    obtain ⟨r, hr⟩ := ne_none_iff_exists'.mp hop
    obtain ⟨s₁, hs₁, hgood₁, hsame₁, hbound₁⟩ := hgood.addHistory hr false now
    obtain ⟨r₁, hr₁, -⟩ := hsame₁.exists_client hr
    obtain ⟨s₂, hs₂, hgood₂, hsame₂, hlist₂, hclient₂⟩ := hgood₁.offHistory hr₁
    refine ⟨_, by rw [Whowas.step, exitGenericClient, hs₁, bind_some, hs₂, map_some],
      hgood₂.setClient (o := none) nofun fun e w hw hc => ?_, ?_⟩
    · exact absurd ⟨w, hw, hc⟩ ((hgood₂.tied.clist c _ hclient₂).eq_nil_iff.mp rfl e)
    · dsimp only
      rw [hlist₂, hsame₂.size]
      exact hbound₁
  | trim =>
    obtain ⟨s', hs', hgood', hsame, hlen⟩ := hgood.trim
    refine ⟨s', hs', hgood', ?_⟩
    rw [hlen, hsame.size]
    omega
  | setSize len =>
    obtain ⟨s', hs', hgood', -, hlen⟩ := hgood.setSize len
    exact ⟨s', hs', hgood', hlen.trans (Nat.le_add_right _ _)⟩

/-- Nobody is found who is not there. -/
theorem Tied.getHistory (h : Tied s) {nick : Str} {timelimit now : ℤ}
    (hfound : getHistory s nick timelimit now = some c) :
    ∃ e w, s.who e = some w ∧ irccmp nick w.name = true ∧ now - timelimit ≤ w.logoff ∧
      w.online = some c ∧ ∃ r, s.client c = some r := by
  obtain ⟨t, ht, hfound⟩ := bind_eq_some_iff.mp hfound
  obtain ⟨p, hp, hfound⟩ := bind_eq_some_iff.mp hfound
  obtain ⟨w, hfind, hc⟩ := bind_eq_some_iff.mp hfound
  have hname : nick ≠ [] := by
    rintro rfl
    simp [findTop, hashFind] at ht
  obtain ⟨e, he, hw⟩ := mem_filterMap.mp (mem_of_find?_eq_some hfind)
  obtain ⟨w', hw', rfl⟩ := ((h.wwlist t p hp).mem_iff e).mp (mem_reverse.mp he)
  cases hw.symm.trans hw'
  obtain ⟨p', hp', hsame⟩ := h.top e w hw
  cases hp.symm.trans hp'
  obtain ⟨q, hq, hnick⟩ := (h.findTop_eq_some_iff hname).mp ht
  cases hp.symm.trans hq
  exact ⟨e, w, hw, irccmp_trans hnick hsame, by simpa using find?_some hfind, hc,
    h.live e w c hw hc⟩

end Tied

theorem kept_init : Kept State.init :=
  ⟨⟨⟨Hash.Indexes.empty whowasHash, nofun, Enumerates.nil (by simp [State.init]), nofun, nofun,
    nofun, nofun, fun _ _ => ⟨rfl, rfl⟩⟩, nofun⟩, Nat.zero_le _⟩

/-- **The history.** In all runs whose operations are made with clients that exist: no memory is
used that was freed; each entry is on the list of all entries, on the list of its nick and on no
other such list, and on the list of the client that it says is online; a client that is online
according to an entry exists; a list of a nick exists as long as there are entries on it; and after
a trim there are no more entries than the size. -/
theorem history (ops : List Op) (hops : Run.StepsMeet step (fun s op => op.Live s) State.init ops) :
    ∃ s, Run.run step State.init ops = some s ∧
      (∀ e w, s.who e = some w → e ∈ s.whowasList ∧
        (∃ p, s.wtop w.wtop = some p ∧ irccmp p.name w.name = true ∧ e ∈ p.wwlist) ∧
        findTop s w.name = some w.wtop ∧ ∀ t p, s.wtop t = some p → e ∈ p.wwlist → t = w.wtop) ∧
      s.whowasList.Nodup ∧ (∀ e ∈ s.whowasList, ∃ w, s.who e = some w) ∧
      (∀ t p, s.wtop t = some p → p.wwlist.Nodup ∧ p.wwlist ≠ [] ∧ ∀ e ∈ p.wwlist, ∃ w,
        s.who e = some w) ∧
      (∀ i, ∀ n ∈ s.table.bucket i, ∃ p, s.wtop n.data = some p ∧ p.hnode = n ∧ p.name = n.key) ∧
      (∀ c r, s.client c = some r → r.clist.Nodup ∧
        ∀ e, e ∈ r.clist ↔ ∃ w, s.who e = some w ∧ w.online = some c) ∧
      (∀ e w c, s.who e = some w → w.online = some c → ∃ r, s.client c = some r) ∧
      s.whowasList.length ≤ s.size + 101 ∧
      (∃ s', trim s = some s' ∧ s'.size = s.size ∧ s'.whowasList.length ≤ s.size) ∧
      ∀ len, ∃ s', setSize s len = some s' ∧ s'.size = (len % 2 ^ 32).toNat ∧
      s'.whowasList.length ≤ s'.size := by
  obtain ⟨s, hrun, hgood, hbound⟩ := Run.progress Kept (fun s op h hop => h.step hop) kept_init hops
  have htied := hgood.tied
  refine ⟨s, hrun, fun e w hw => ⟨(htied.list.mem_iff e).mpr ⟨w, hw⟩, ?_, ?_, fun t p hp he => ?_⟩,
    htied.list.nodup,
    fun e he => (htied.list.mem_iff e).mp he, fun t p hp => ⟨(htied.wwlist t p hp).nodup,
      hgood.used t p hp,
      fun e he => ?_⟩, fun i n hn => ?_, fun c r hr => ⟨(htied.clist c r hr).nodup,
        (htied.clist c r hr).mem_iff⟩,
    htied.live, hbound, ?_, fun len => ?_⟩
  · obtain ⟨p, hp, hsame⟩ := htied.top e w hw
    exact ⟨p, hp, hsame, ((htied.wwlist _ p hp).mem_iff e).mpr ⟨w, hw, rfl⟩⟩
  · obtain ⟨p, hp, hsame⟩ := htied.top e w hw
    have hnode : s.node w.wtop = some p.hnode := by rw [State.node, comp_apply, hp, map_some]
    have hne : p.name ≠ [] := htied.key _ p hp ▸ (htied.indexes.data _ _ hnode).2
    have hname : w.name ≠ [] := fun hnil => hne ((eq_nil_iff_of_irccmp hsame).mpr hnil)
    exact (htied.findTop_eq_some_iff hname).mpr ⟨p, hp, irccmp_symm hsame⟩
  · obtain ⟨w', hw', rfl⟩ := ((htied.wwlist t p hp).mem_iff e).mp he
    rw [some.inj (hw.symm.trans hw')]
  · obtain ⟨w, hw, -⟩ := ((htied.wwlist t p hp).mem_iff e).mp he
    exact ⟨w, hw⟩
  · obtain ⟨p, hp, rfl⟩ := Option.map_eq_some_iff.mp (htied.indexes.node_of_bucket hn)
    exact ⟨p, hp, rfl, (htied.key _ p hp).symm⟩
  · obtain ⟨s', hs', -, hsame, hlen⟩ := hgood.trim
    exact ⟨s', hs', hsame.size, hlen ▸ Nat.min_le_right _ _⟩
  · obtain ⟨s', hs', -, hsize, hlen⟩ := hgood.setSize len
    exact ⟨s', hs', hsize, hlen⟩

/-- A user. -/
def userOf (name : Str) (h : name ≠ [] ∧ name.length ≤ 30) : User :=
  ⟨name, ['u'], ['h'], [], [], ['s'], true, false, h⟩

/-- A client changes its nick, and exits. -/
theorem history_small : ∃ s, Run.run step State.init
    [.introduce 1 (userOf ['a'] (by decide)), .add 1 true 10, .change 1 (userOf ['b'] (by decide)),
      .exit 1 20] = some s ∧ s.whowasList.Nodup := by
  have hops : Run.StepsMeet step (fun s op => op.Live s) State.init
      [.introduce 1 (userOf ['a'] (by decide)), .add 1 true 10,
          .change 1 (userOf ['b'] (by decide)), .exit 1 20] := by
    refine ⟨rfl, fun s hs => ?_⟩
    cases hs
    refine ⟨some_ne_none _, fun s hs => ?_⟩
    cases hs
    refine ⟨some_ne_none _, fun s hs => ?_⟩
    cases hs
    exact ⟨some_ne_none _, fun _ _ => trivial⟩
  obtain ⟨s, hrun, -, hnodup, -⟩ := history _ hops
  exact ⟨s, hrun, hnodup⟩

end Ratbox.Whowas
