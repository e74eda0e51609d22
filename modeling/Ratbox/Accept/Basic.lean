import Ratbox.Hash
import Ratbox.Lib.Mutual
import Mathlib.Algebra.Order.BigOperators.Group.List
import Mathlib.Algebra.Order.Group.Nat

/-!
# Accept lists

A client that takes no messages from strangers has a list of the clients that it does take them
from, which it changes with the command ACCEPT. Each client has the list of those that accept it, so
that it can be taken off their lists when it changes its nick or exits.

Source: `modules/m_accept.c`, lines 67–280, `src/client.c`, lines 627–678, 1076–1102 and 1478–1530,
`modules/core/m_nick.c`, lines 602–627, 650–798 and 1079–1145, `include/client.h`, line 358, and
`libratbox/src/ratbox_lib.c`, lines 254–289.

## Main definitions

* `Accept.State`: the clients, the table of their nicks, and the lists.
* `Accept.buildNicklist`, `Accept.mAccept`: the command.
* `Accept.delAllAccepts`, `Accept.changeLocalNick`, `Accept.changeRemoteNick`, `Accept.exit`: what
  takes a client off lists.
* `Accept.step`: the steps.

## Main results

* `Accept.tokens_buildNicklist`: the nicks that are left in the buffers.

## Implementation notes

An address that is allocated is one that is not in use. A client cannot send a line as long as a
buffer.
-/

namespace Ratbox.Accept

open Text Hash Mutual Run List Function

/-! ### Clients -/

/-- A `struct Client`: its name, `IsClient`, and `MyConnect`. -/
structure Client where
  name : Str
  isClient : Bool
  myConnect : Bool
  deriving DecidableEq

/-- `MyClient`. -/
def Client.myClient (c : Client) : Bool := c.myConnect && c.isClient

/-- `HASH_CLIENT`. -/
def hashClient : HashF := ⟨.irccmp, 17, 0⟩

/-- The clients that are allocated, the table of their nicks, and the fields `allow_list` and
`on_allow_list` of each. -/
structure State where
  client : ℕ → Option Client
  table : Table
  accepts : Lists ℕ ℕ

namespace State

/-- `allow_list`. -/
abbrev allowList (s : State) : ℕ → List ℕ := s.accepts.left

/-- `on_allow_list`. -/
abbrev onAllowList (s : State) : ℕ → List ℕ := s.accepts.right

/-- No clients. -/
def empty : State := ⟨fun _ => none, Table.empty, Lists.empty⟩

/-- A client is put in the table under a nick, and taken out under its name. -/
def rename (s : State) (p : ℕ) (c : Client) (nick : Str) : State :=
  { s with
    client := update s.client p (some { c with name := nick })
    table := hashAdd hashClient (hashDel hashClient s.table c.name p) nick p }

/-- The name of a client. -/
def name (s : State) (p : ℕ) : Str := ((s.client p).map Client.name).getD []

end State

/-- The settings `me.name` and `max_accept`. -/
structure Config where
  me : Str
  maxAccept : ℕ

/-- `find_named_person`. -/
def findNamedPerson (s : State) (name : Str) : Option ℕ :=
  (hashFind hashClient s.table name).bind fun hnode =>
    (s.client hnode.data).bind fun c => if c.isClient then some hnode.data else none

/-! ### The command -/

/-- The numerics that are sent, with what is put in their texts. -/
inductive Reply
  | noSuchNick (nick : Str)
  | acceptNot (name : Str)
  | acceptExist (name : Str)
  | acceptFull
  | acceptList (nicks : Str)
  | endOfAccept
  deriving DecidableEq

/-- The tokens that `rb_strtok_r` gives with a comma. -/
def tokens (s : Str) : List Str := (s.splitOnP (· == ',')).filter (· ≠ [])

/-- A buffer, and the length of it that is counted. -/
structure Buf where
  text : Str
  len : ℕ
  deriving DecidableEq

/-- A name is put on a buffer. -/
def Buf.put (b : Buf) (name : Str) : Buf :=
  ⟨(if b.text = [] then [] else b.text ++ [',']) ++ name.take (ircdBufsize - b.len - 1),
    b.len + (name.length + 1)⟩

/-- `addbuf` and `delbuf`. -/
structure Bufs where
  add : Buf
  del : Buf
  deriving DecidableEq

/-- The loop of `build_nicklist`. -/
def buildLoop (s : State) : List Str → Bufs → Bufs × List Reply
  | [], b => (b, [])
  | tok :: toks, b =>
    let del := tok.head? = some '-'
    let name := if del then tok.drop 1 else tok
    match findNamedPerson s name with
    | none =>
      let r := buildLoop s toks b
      (r.1, .noSuchNick name :: r.2)
    | some _ => buildLoop s toks (if del then { b with del := b.del.put name }
      else { b with add := b.add.put name })

/-- `build_nicklist`. -/
def buildNicklist (s : State) (nicks : Str) : Bufs × List Reply :=
  buildLoop s (tokens nicks) ⟨⟨[], 0⟩, ⟨[], 0⟩⟩

/-- `accept_message`. -/
def acceptMessage (s : State) (p t : ℕ) : Bool := p == t || (s.allowList t).contains p

/-- The loop over the delete list. -/
def delLoop (source_p : ℕ) : List Str → State → State × List Reply
  | [], s => (s, [])
  | nick :: nicks, s =>
    match findNamedPerson s nick with
    | none =>
      let r := delLoop source_p nicks s
      (r.1, .noSuchNick nick :: r.2)
    | some target_p =>
      if acceptMessage s target_p source_p then
        delLoop source_p nicks { s with accepts := s.accepts.unlink source_p target_p }
      else
        let r := delLoop source_p nicks s
        (r.1, .acceptNot (s.name target_p) :: r.2)

/-- `add_accept`. -/
def addAccept (s : State) (source_p target_p : ℕ) : State :=
  { s with accepts := s.accepts.link source_p target_p }

/-- The loop over the add list. Each nick is counted, also one that is passed over. -/
def addLoop (cfg : Config) (source_p : ℕ) : List Str → ℕ → State → State × List Reply
  | [], _, s => (s, [])
  | nick :: nicks, acceptNum, s =>
    match findNamedPerson s nick with
    | none =>
      let r := addLoop cfg source_p nicks (acceptNum + 1) s
      (r.1, .noSuchNick nick :: r.2)
    | some target_p =>
      if acceptMessage s target_p source_p then
        let r := addLoop cfg source_p nicks (acceptNum + 1) s
        (r.1, .acceptExist (s.name target_p) :: r.2)
      else if cfg.maxAccept ≤ acceptNum then (s, [.acceptFull])
      else addLoop cfg source_p nicks (acceptNum + 1) (addAccept s source_p target_p)

/-- `rb_strlcat`. -/
def strlcat (dst src : Str) : Str := dst ++ src.take (ircdBufsize - 1 - dst.length)

/-- The loop of `list_accepts`. -/
def listLoop (s : State) (maxcount : ℕ) : List ℕ → Str → ℕ → List Reply
  | [], nicks, _ => if nicks = [] then [] else [.acceptList nicks]
  | target_p :: rest, nicks, count =>
    let full := maxcount < count
    let old := if full then [] else nicks
    (if full then [.acceptList nicks] else []) ++
      listLoop s maxcount rest (strlcat (strlcat old (s.name target_p)) [' '])
        ((if full then 0 else count) + 1)

/-- `list_accepts`. -/
def listAccepts (cfg : Config) (s : State) (source_p : ℕ) : List Reply :=
  listLoop s ((ircdBufsize - ((s.name source_p).length + cfg.me.length + 10)) / (nickLen + 1) - 1)
    (s.allowList source_p) [] 0 ++ [.endOfAccept]

/-- `m_accept`. -/
def mAccept (cfg : Config) (s : State) (source_p : ℕ) (parv1 : Str) : State × List Reply :=
  if parv1.head? = some '*' then (s, listAccepts cfg s source_p)
  else
    let b := buildNicklist s parv1
    let d := delLoop source_p (tokens b.1.del.text) s
    let a := addLoop cfg source_p (tokens b.1.add.text) (d.1.allowList source_p).length d.1
    (a.1, b.2 ++ d.2 ++ a.2)

/-! ### What takes a client off lists -/

/-- A client is taken off the lists that it is on. -/
def clearOnAllowList (s : State) (p : ℕ) : State :=
  { s with accepts := s.accepts.cut ((s.onAllowList p).map fun target_p => (target_p, p)) }

/-- `del_all_accepts`. -/
def delAllAccepts (s : State) (p : ℕ) (c : Client) : State :=
  clearOnAllowList
    (if c.myClient then { s with accepts := s.accepts.cut ((s.allowList p).map fun target_p =>
      (p, target_p)) } else s) p

/-- `change_local_nick`. -/
def changeLocalNick (s : State) (p : ℕ) (c : Client) (nick : Str) : State :=
  clearOnAllowList (s.rename p c nick) p

/-- `change_remote_nick`. -/
def changeRemoteNick (s : State) (p : ℕ) (c : Client) (nick : Str) : State :=
  delAllAccepts (s.rename p c nick) p { c with name := nick }

/-- `exit_generic_client` for a client that is registered, and the same without lists for another
one; the client is freed later. -/
def exit (s : State) (p : ℕ) (c : Client) : State :=
  let s := if c.isClient then delAllAccepts s p c else s
  { s with table := hashDel hashClient s.table c.name p, client := update s.client p none }

/-! ### The steps -/

/-- The steps: a client connects, gets a nick, and is registered; another server introduces one; a
client uses the command, changes its nick, or exits. -/
inductive Op
  | connect (p : ℕ)
  | setInitialNick (p : ℕ) (nick : Str)
  | registerLocalUser (p : ℕ)
  | introduce (p : ℕ) (nick : Str)
  | accept (p : ℕ) (parv1 : Str)
  | nick (p : ℕ) (nick : Str)
  | exit (p : ℕ)
  deriving DecidableEq

/-- A new client, whose memory is zeroed, at an address that is not in use. -/
def State.malloc (s : State) (p : ℕ) (c : Client) : Option State :=
  if s.client p = none then
    some
      { client := update s.client p (some c)
        table := hashAdd hashClient s.table c.name p
        accepts := ⟨update s.allowList p [], update s.onAllowList p []⟩ }
  else none

/-- A step, and what is sent to the client that makes it. -/
def act (cfg : Config) (s : State) : Op → Option (State × List Reply)
  | .connect p => (s.malloc p ⟨[], false, true⟩).map fun s => (s, [])
  | .setInitialNick p nick =>
    (s.client p).bind fun c => if c.isClient then none else some (s.rename p c nick, [])
  | .registerLocalUser p =>
    (s.client p).bind fun c =>
      if c.isClient then none
      else some ({ s with client := update s.client p (some { c with isClient := true }) }, [])
  | .introduce p nick => (s.malloc p ⟨nick, true, false⟩).map fun s => (s, [])
  | .accept p parv1 =>
    (s.client p).bind fun c =>
      if c.myClient && decide (parv1.length < ircdBufsize) then some (mAccept cfg s p parv1)
        else none
  | .nick p nick =>
    (s.client p).bind fun c =>
      if c.isClient then some (if c.myConnect then changeLocalNick s p c nick else changeRemoteNick
        s p c nick, [])
      else none
  | .exit p => (s.client p).map fun c => (exit s p c, [])

/-- The state after a step. -/
def step (cfg : Config) (s : State) (op : Op) : Option State := (act cfg s op).map Prod.fst

/-! ### Tokens -/

/-- A name in a list of names that are separated by commas. -/
def IsName (name : Str) : Prop := name ≠ [] ∧ ',' ∉ name

theorem isName_of_mem_tokens {str t : Str} (h : t ∈ tokens str) : IsName t := by
  obtain ⟨hmem, hne⟩ := mem_filter.mp h
  exact ⟨by simpa using hne, not_mem_splitOnP ',' str t hmem⟩

theorem sum_tokens_le (str : Str) :
    ((tokens str).map fun t => t.length + 1).sum ≤ str.length + 1 := by
  rw [← sum_splitOnP ',' str]
  exact (filter_sublist.map _).sum_le_sum fun _ _ => Nat.zero_le _

variable {names : List Str}

/-- The names that are put together are the tokens. -/
theorem tokens_intercalate (h : ∀ x ∈ names, IsName x) :
    tokens ([','].intercalate names) = names := by
  by_cases hnil : names = []
  · rw [hnil]
    rfl
  · rw [tokens, ← splitOn_eq_splitOnP, splitOn_intercalate ',' (fun x hx => (h x hx).2) hnil,
      filter_eq_self]
    exact fun x hx => by simpa using (h x hx).1

/-! ### The buffers -/

/-- A buffer has some names, separated by commas. -/
structure Buf.Holds (b : Buf) (names : List Str) : Prop where
  text : b.text = [','].intercalate names
  len : b.len = (names.map fun x => x.length + 1).sum
  isName : ∀ x ∈ names, IsName x

theorem intercalate_concat {name : Str} (h : ∀ x ∈ names, IsName x) :
    [','].intercalate (names ++ [name]) =
      (if [','].intercalate names = [] then [] else [','].intercalate names ++ [',']) ++ name := by
  induction names with
  | nil => simp
  | cons x names ih =>
    obtain ⟨hx, hnames⟩ := forall_mem_cons.mp h
    have hne : [','].intercalate (x :: names) ≠ [] := by
      obtain ⟨c, x, rfl⟩ := exists_cons_of_ne_nil hx.1
      simp
    rw [if_neg hne, cons_append, intercalate_cons_of_ne_nil (by simp), ih hnames]
    cases names with
    | nil => simp
    | cons y names =>
      have hy : [','].intercalate (y :: names) ≠ [] := by
        obtain ⟨c, y, rfl⟩ := exists_cons_of_ne_nil (hnames y mem_cons_self).1
        simp
      rw [if_neg hy, intercalate_cons_cons]
      simp

/-- A name is put on a buffer where it has room. -/
theorem Buf.Holds.put {b : Buf} (h : b.Holds names) {name : Str} (hname : IsName name)
    (hroom : b.len + (name.length + 1) ≤ ircdBufsize) : (b.put name).Holds (names ++ [name]) where
  text := by
    rw [Buf.put, take_of_length_le (by omega), intercalate_concat h.isName, h.text]
  len := by
    rw [Buf.put, h.len, map_append, sum_append]
    rfl
  isName x hx := by
    obtain hx | hx := mem_append.mp hx
    · exact h.isName x hx
    · exact mem_singleton.mp hx ▸ hname

/-- A buffer that holds names is split into them. -/
theorem Buf.Holds.tokens {b : Buf} (h : b.Holds names) : tokens b.text = names := by
  rw [h.text, tokens_intercalate h.isName]

/-- The nick in a token, if it is not to be deleted. -/
def addName (tok : Str) : Option Str := if tok.head? = some '-' then none else some tok

/-- The nick in a token that is to be deleted. -/
def delName (tok : Str) : Option Str := if tok.head? = some '-' then some (tok.drop 1) else none

/-- The nicks of clients among the tokens. -/
def named (s : State) (part : Str → Option Str) (toks : List Str) : List Str :=
  (toks.filterMap part).filter fun nick => (findNamedPerson s nick).isSome

/-- The clients that the tokens name. -/
def targets (s : State) (part : Str → Option Str) (toks : List Str) : List ℕ :=
  (toks.filterMap part).filterMap (findNamedPerson s)

section Building

variable {s : State} {p : ℕ} {c : Client}

theorem findNamedPerson_nil : findNamedPerson s [] = none := by
  rw [findNamedPerson, hashFind, if_pos rfl, Option.bind_none]

/-- **The buffers** get the nicks of clients. -/
theorem buildLoop_holds {toks adds dels : List Str} {b : Bufs} (hadd : b.add.Holds adds)
    (hdel : b.del.Holds dels) (htoks : ∀ t ∈ toks, IsName t)
    (haddRoom : b.add.len + (toks.map fun t => t.length + 1).sum ≤ ircdBufsize)
    (hdelRoom : b.del.len + (toks.map fun t => t.length + 1).sum ≤ ircdBufsize) :
    (buildLoop s toks b).1.add.Holds (adds ++ named s addName toks) ∧
      (buildLoop s toks b).1.del.Holds (dels ++ named s delName toks) := by
  induction toks generalizing adds dels b with
  | nil => simpa [buildLoop, named] using ⟨hadd, hdel⟩
  | cons tok toks ih =>
    obtain ⟨htok, hothers⟩ := forall_mem_cons.mp htoks
    rw [map_cons, sum_cons] at haddRoom hdelRoom
    by_cases hdash : tok.head? = some '-'
    · have hnames : named s addName (tok :: toks) = named s addName toks := by
        simp [named, addName, hdash]
      obtain ⟨rest, rfl⟩ : ∃ rest, tok = '-' :: rest := by
        cases tok with
        | nil => cases hdash
        | cons x rest => exact ⟨rest, by rw [Option.some.inj hdash]⟩
      have hfilter : named s delName (('-' :: rest) :: toks) =
          (if (findNamedPerson s rest).isSome then [rest] else []) ++ named s delName toks := by
        simp only [named, delName, filterMap_cons, head?_cons, if_true, drop_succ_cons, drop_zero,
          filter_cons]
        split_ifs <;> rfl
      rw [hnames, hfilter, buildLoop, if_pos hdash]
      simp only [drop_succ_cons, drop_zero, if_pos hdash]
      cases hfind : findNamedPerson s rest with
      | none => exact ih hadd hdel hothers (by omega) (by omega)
      | some target_p =>
        have hrest : IsName rest :=
          ⟨fun hnil => by rw [hnil, findNamedPerson_nil] at hfind; exact absurd hfind (by simp),
            fun hmem => htok.2 (mem_cons_of_mem _ hmem)⟩
        rw [length_cons] at hdelRoom
        have hput := hdel.put hrest (by omega)
        have hall := ih (b := { b with del := b.del.put rest }) hadd hput hothers
          (by dsimp only; omega) (by dsimp only [Buf.put]; omega)
        rwa [append_assoc] at hall
    · have hnames : named s delName (tok :: toks) = named s delName toks := by
        simp [named, delName, hdash]
      have hfilter : named s addName (tok :: toks) =
          (if (findNamedPerson s tok).isSome then [tok] else []) ++ named s addName toks := by
        simp only [named, addName, filterMap_cons, if_neg hdash, filter_cons]
        split_ifs <;> rfl
      rw [hnames, hfilter, buildLoop, if_neg hdash]
      simp only [if_neg hdash]
      cases hfind : findNamedPerson s tok with
      | none => exact ih hadd hdel hothers (by omega) (by omega)
      | some target_p =>
        have hput := hadd.put htok (by omega)
        have hall := ih (b := { b with add := b.add.put tok }) hput hdel hothers
          (by dsimp only [Buf.put]; omega)
          (by dsimp only; omega)
        rwa [append_assoc] at hall

/-- What the loops get. -/
theorem tokens_buildNicklist {parv1 : Str} (hlength : parv1.length < ircdBufsize) :
    tokens (buildNicklist s parv1).1.add.text = named s addName (tokens parv1) ∧
      tokens (buildNicklist s parv1).1.del.text = named s delName (tokens parv1) := by
  have hstart : (⟨[], 0⟩ : Buf).Holds [] := ⟨rfl, rfl, by simp⟩
  have hsum := sum_tokens_le parv1
  obtain ⟨hadd, hdel⟩ := buildLoop_holds (s := s) (b := ⟨⟨[], 0⟩, ⟨[], 0⟩⟩) hstart hstart
    (fun t (ht : t ∈ tokens parv1) => isName_of_mem_tokens ht) (by dsimp only; omega)
      (by dsimp only; omega)
  exact ⟨hadd.tokens, hdel.tokens⟩

end Building

end Ratbox.Accept
