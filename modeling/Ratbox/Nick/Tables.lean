import Ratbox.Lib.HashTable
import Ratbox.Text

/-!
# The tables of nicks

A server finds a client by its nick in `HASH_CLIENT` and by its id in `HASH_ID`. The nicks of the
clients that a split has taken away are delayed for a time: they stand in `HASH_ND`, and on a list
in the order in which they were put there.

Source: `src/hash.c`, lines 44–145 and 344–480, `src/s_newconf.c`, lines 752–796, `src/client.c`,
lines 1080–1103 and 1190–1240, and `include/match.h`.

## Main definitions

* `Nick.Client`, `Nick.Tables`: a client, and the tables.
* `Nick.Tables.findClient`, `Nick.Tables.findId`, `Nick.Tables.delayed`: searches.
* `Nick.Tables.rename`, `Nick.Tables.enter`, `Nick.Tables.remove`: a client changes its nick, comes
  and goes.
* `Nick.Tables.WellFormed`: the tables index the clients.

## Main results

* `Nick.Tables.WellFormed.rename`, `Nick.Tables.WellFormed.enter`,
  `Nick.Tables.WellFormed.remove`: the changes keep the tables well formed.
* `Nick.Tables.WellFormed.findNick_eq_none_iff`, `Nick.Tables.WellFormed.findNick_of_name`: what a
  search gives.
-/

namespace Ratbox.Nick

open Text HashTable List Option Function

/-- The address of a `struct Client`. -/
abbrev Addr := ℕ

/-! ### Clients -/

/-- A server that is linked, its id (empty if it has none), and whether it has `CAP_SAVE` and
`CAP_TS6`. -/
structure Serv where
  name : Str
  id : Str
  save : Bool
  ts6 : Bool
  deriving DecidableEq

/-- `IsUnknown`: not registered yet; and `IsClient`. -/
inductive Status
  | unknown
  | client
  deriving DecidableEq

/-- A `struct Client`, with the user it has. The way to it is the list of the servers between, its
own first (`servptr`) and the one that is linked here last (`from`); it is empty for a client of
this server. A service has no connection. -/
structure Client where
  name : Str
  username : Str
  host : Str
  sockhost : Str
  info : Str
  id : Str
  tsinfo : ℤ
  hopcount : ℤ
  status : Status
  way : List Serv
  fake : Bool
  exemptResv : Bool
  oper : Bool
  lastNickChange : ℤ
  numberOfNickChanges : ℤ
  deriving DecidableEq

namespace Client

/-- `MyConnect`. -/
def myConnect (c : Client) : Bool := c.way.isEmpty && !c.fake

/-- `MyClient`. -/
def myClient (c : Client) : Bool := c.myConnect && decide (c.status = .client)

/-- `has_id`. -/
def hasId (c : Client) : Bool := !c.id.isEmpty

/-- `use_id`. -/
def useId (c : Client) : Str := if c.hasId then c.id else c.name

/-- `from`. -/
def link (c : Client) : Option Serv := c.way.getLast?

end Client

/-- `IsDigit` of the first character. -/
def digitName (name : Str) : Bool := name.head?.any isDigit

/-! ### The tables -/

/-- One byte of the hash of Fowler, Noll and Vo. -/
def fnvByte (h : ℕ) (c : Char) : ℕ :=
  let h := h ^^^ c.toNat
  (h + (h <<< 1) + (h <<< 4) + (h <<< 7) + (h <<< 8) + (h <<< 24)) % 2 ^ 32

/-- `fnv_hash`. In the last line the source has the exclusive or of 2 and the number of bits. -/
def fnvHash (bits : ℕ) (s : Str) : ℕ :=
  let h := s.foldl fnvByte 0x811c9dc5
  let bits := 32 - bits
  (h >>> bits) ^^^ (h &&& ((2 ^^^ bits) - 1))

/-- `fnv_hash_upper`. -/
def fnvHashUpper (bits : ℕ) (s : Str) : ℕ := fnvHash bits (s.map toUpper)

/-- `struct nd_entry`. -/
structure NdEntry where
  name : Str
  expire : ℤ
  deriving DecidableEq

/-- The clients, the first address that was never used, `HASH_CLIENT`, `HASH_ID`, and `nd_list`,
whose entries are those of `HASH_ND`. -/
structure Tables where
  client : Addr → Option Client
  fresh : Addr
  hashClient : Table Str Addr
  hashId : Table Str Addr
  ndList : List NdEntry

namespace Tables

/-- `hash_find_data` in `HASH_CLIENT`. -/
def findNick (t : Tables) (nick : Str) : Option Addr :=
  if nick = [] then none else find (map toUpper) t.hashClient nick

/-- `find_id`. -/
def findId (t : Tables) (id : Str) : Option Addr :=
  if id = [] then none else find (fun k => k) t.hashId id

/-- `find_client`. -/
def findClient (t : Tables) (name : Str) : Option Addr :=
  if digitName name then t.findId name else t.findNick name

/-- `hash_find` in `HASH_ND`. -/
def delayed (t : Tables) (nick : Str) : Bool := t.ndList.any fun nd => irccmp nd.name nick

/-- `hash_add` to `HASH_CLIENT`. -/
def addNick (table : Table Str Addr) (nick : Str) (p : Addr) : Table Str Addr :=
  if nick = [] then table else add table nick p

/-- `hash_del` from `HASH_CLIENT`. -/
def delNick (table : Table Str Addr) (nick : Str) (p : Addr) : Table Str Addr :=
  if nick = [] then table else del (fnvHashUpper 17) table nick p

/-- `hash_add` to `HASH_ID`. -/
def addId (table : Table Str Addr) (id : Str) (p : Addr) : Table Str Addr :=
  if id = [] then table else add table id p

/-- `hash_del` from `HASH_ID`. -/
def delId (table : Table Str Addr) (id : Str) (p : Addr) : Table Str Addr :=
  if id = [] then table else del (fnvHash 17) table id p

/-- The fields of a client are set. -/
def set (t : Tables) (p : Addr) (c : Client) : Tables :=
  { t with client := update t.client p (some c) }

/-- A client is put under a nick: it is taken out of `HASH_CLIENT` under its name, gets the nick,
and is put in under it. -/
def rename (t : Tables) (p : Addr) (c : Client) (nick : Str) : Tables :=
  { t with
    hashClient := addNick (delNick t.hashClient c.name p) nick p
    client := update t.client p (some { c with name := nick }) }

/-- A client that is new is put in `HASH_ID` and `HASH_CLIENT`. -/
def enter (t : Tables) (c : Client) : Tables :=
  { t with
    client := update t.client t.fresh (some c)
    fresh := t.fresh + 1
    hashId := addId t.hashId c.id t.fresh
    hashClient := addNick t.hashClient c.name t.fresh }

/-- A client that exits is taken out of `HASH_ID` and `HASH_CLIENT`. -/
def remove (t : Tables) (p : Addr) (c : Client) : Tables :=
  { t with
    hashId := delId t.hashId c.id p
    hashClient := delNick t.hashClient c.name p
    client := update t.client p none }

/-- A client gets an id, under which it is put in `HASH_ID`. -/
def identify (t : Tables) (p : Addr) (c : Client) : Tables :=
  { t with
    hashId := addId t.hashId c.id p
    client := update t.client p (some c) }

/-- `add_nd_entry`. -/
def addNdEntry (t : Tables) (name : Str) (expire : ℤ) : Tables :=
  if t.delayed name then t else { t with ndList := t.ndList ++ [⟨name, expire⟩] }

/-- `free_nd_entry` of the entry of a nick, if it has one. -/
def freeNdEntry (t : Tables) (nick : Str) : Tables :=
  { t with ndList := t.ndList.eraseP fun nd => irccmp nd.name nick }

/-- `expire_nd_entries`. -/
def expireNdEntries (t : Tables) (now : ℤ) : Tables :=
  { t with ndList := t.ndList.dropWhile fun nd => nd.expire ≤ now }

end Tables

/-! ### Names up to case -/

theorem irccmp_iff {a b : Str} : irccmp a b = true ↔ a.map toUpper = b.map toUpper := by
  simp [irccmp]

theorem irccmp_symm {a b : Str} (h : irccmp a b = true) : irccmp b a = true :=
  irccmp_iff.mpr (irccmp_iff.mp h).symm

theorem irccmp_trans {a b c : Str} (h : irccmp a b = true) (h' : irccmp b c = true) :
    irccmp a c = true :=
  irccmp_iff.mpr ((irccmp_iff.mp h).trans (irccmp_iff.mp h'))

theorem irccmp_congr_right {a b : Str} (h : irccmp a b = true) (c : Str) :
    irccmp c a = irccmp c b := by
  rw [Bool.eq_iff_iff]
  exact ⟨fun hc => irccmp_trans hc h, fun hc => irccmp_trans hc (irccmp_symm h)⟩

theorem irccmp_nil_right {a : Str} : irccmp a [] = true ↔ a = [] := by
  rw [irccmp_iff, map_nil, map_eq_nil_iff]

theorem eq_nil_iff_of_irccmp {a b : Str} (h : irccmp a b = true) : a = [] ↔ b = [] := by
  constructor
  · rintro rfl
    exact irccmp_nil_right.mp (irccmp_symm h)
  · rintro rfl
    exact irccmp_nil_right.mp h

theorem isDigit_toUpper (c : Char) : isDigit (toUpper c) = isDigit c := by
  unfold toUpper
  by_cases hlower : 'a' ≤ c ∧ c ≤ 'z'
  · rw [if_pos hlower]
    have hlo : 97 ≤ c.toNat := hlower.1
    have hhi : c.toNat ≤ 122 := hlower.2
    have hvalid : (c.toNat - 32).isValidChar := by
      left
      omega
    have hval : (Char.ofNat (c.toNat - 32)).toNat = c.toNat - 32 := by
      rw [Char.ofNat, dif_pos hvalid]
      rfl
    have hup : ¬(Char.ofNat (c.toNat - 32)).toNat ≤ 57 := by omega
    have hc : ¬c.toNat ≤ 57 := by omega
    rw [Bool.eq_iff_iff, isDigit, isDigit, Bool.and_eq_true, Bool.and_eq_true, decide_eq_true_eq,
      decide_eq_true_eq, decide_eq_true_eq, decide_eq_true_eq]
    exact ⟨fun h => absurd h.2 hup, fun h => absurd h.2 hc⟩
  · rw [if_neg hlower]
    split <;> rfl

theorem digitName_congr {a b : Str} (h : irccmp a b = true) : digitName a = digitName b := by
  have hhead : (a.map toUpper).head? = (b.map toUpper).head? := by rw [irccmp_iff.mp h]
  rw [head?_map, head?_map] at hhead
  have hdigit : ∀ o : Option Char, o.any isDigit = (o.map toUpper).any isDigit := by
    intro o
    cases o with
    | none => rfl
    | some c => exact (isDigit_toUpper c).symm
  rw [digitName, digitName, hdigit a.head?, hdigit b.head?, hhead]

/-! ### Well-formed tables -/

/-- The key that a string is, if it is not empty. -/
def key (s : Str) : Option Str := if s = [] then none else some s

theorem key_eq_some {s k : Str} : key s = some k ↔ s = k ∧ s ≠ [] := by
  rw [key]
  split_ifs with h <;> simp [h]

namespace Tables

/-- The names under which the clients stand in `HASH_CLIENT`. -/
def nickOf (t : Tables) : Addr → Option Str :=
  (fun o : Option Client => o.bind fun c => key c.name) ∘ t.client

/-- The ids under which they stand in `HASH_ID`. -/
def idOf (t : Tables) : Addr → Option Str :=
  (fun o : Option Client => o.bind fun c => key c.id) ∘ t.client

end Tables

theorem update_eq_some {β : Type*} {m : Addr → Option β} {p q : Addr} {o : Option β} {d : β} :
    update m p o q = some d ↔ q = p ∧ o = some d ∨ q ≠ p ∧ m q = some d := by
  by_cases hqp : q = p
  · simp [hqp]
  · simp [hqp]

/-- No client but one has the nick. -/
def FreeBut (client : Addr → Option Client) (nick : Str) (p : Addr) : Prop :=
  ∀ q c, client q = some c → irccmp c.name nick = true → q = p

/-- A nick that does not begin with a digit is the nick of one client only. -/
def Unique (client : Addr → Option Client) : Prop :=
  ∀ p c, client p = some c → c.name ≠ [] → digitName c.name = false → FreeBut client c.name p

/-- **Well-formed tables.** The tables index the clients by their names and ids, ids begin with a
digit, and nicks that do not are not shared; `HASH_ND` holds a nick once. -/
structure Tables.WellFormed (t : Tables) : Prop where
  nicks : Indexes (map toUpper) t.hashClient t.nickOf
  ids : Indexes (fun k => k) t.hashId t.idOf
  fresh : ∀ p c, t.client p = some c → p < t.fresh
  digitId : ∀ p c, t.client p = some c → c.id ≠ [] → digitName c.id = true
  unique : Unique t.client
  delayedOnce : t.ndList.Pairwise fun a b => irccmp a.name b.name = false

/-- No clients. -/
def Tables.empty : Tables :=
  { client := fun _ => none, fresh := 0, hashClient := [], hashId := [], ndList := [] }

theorem Tables.wellFormed_empty : Tables.empty.WellFormed where
  nicks := ⟨nodup_nil, by simp [empty], by simp [empty, Tables.nickOf]⟩
  ids := ⟨nodup_nil, by simp [empty], by simp [empty, Tables.idOf]⟩
  fresh := by simp [empty]
  digitId := by simp [empty]
  unique := by simp [empty, Unique]
  delayedOnce := Pairwise.nil

variable {m : Addr → Option Client}

/-- A client may take a nick that is free. -/
theorem Unique.update {p : Addr} {c : Client} (h : Unique m)
    (hfree : c.name = [] ∨ digitName c.name = true ∨ FreeBut m c.name p) :
    Unique (update m p (some c)) := by
  -- A client that has the nick of `c` up to case, without a digit, is at `p`.
  have htaken : ∀ q d, m q = some d → d.name ≠ [] → digitName d.name = false →
      irccmp d.name c.name = true → q = p := by
    intro q d hq hd hdigit hsame
    rcases hfree with hnil | hc | hfree
    · exact absurd ((eq_nil_iff_of_irccmp hsame).mpr hnil) hd
    · rw [digitName_congr hsame, hc] at hdigit
      cases hdigit
    · exact hfree q d hq hsame
  intro q d hq hd hdigit r e hr hsame
  obtain ⟨rfl, hcd⟩ | ⟨hqp, hold⟩ := update_eq_some.mp hq <;>
    obtain ⟨rfl, hce⟩ | ⟨hrp, hold'⟩ := update_eq_some.mp hr
  · rfl
  · obtain rfl : c = d := by simpa using hcd
    have he : e.name ≠ [] := fun hnil => hd ((eq_nil_iff_of_irccmp hsame).mp hnil)
    exact htaken r e hold' he ((digitName_congr hsame).trans hdigit) hsame
  · obtain rfl : c = e := by simpa using hce
    exact absurd (htaken q d hold hd hdigit (irccmp_symm hsame)) hqp
  · exact h q d hold hd hdigit r e hold' hsame

theorem Unique.update_none (h : Unique m) (p : Addr) : Unique (Function.update m p none) := by
  have hold : ∀ {q d}, Function.update m p none q = some d → m q = some d := by
    intro q d hq
    obtain ⟨-, hnone⟩ | ⟨-, hq⟩ := update_eq_some.mp hq
    · cases hnone
    · exact hq
  intro q d hq hd hdigit r e hr
  exact h q d (hold hq) hd hdigit r e (hold hr)

/-! ### The changes keep the tables well formed -/

section Indexes

variable {T : Table Str Addr} {name : Addr → Option Str} {p : Addr} {k : Str}

theorem indexes_addNick (h : Indexes (map toUpper) T name) (hp : name p = none) :
    Indexes (map toUpper) (Tables.addNick T k p) (update name p (key k)) := by
  rw [Tables.addNick, key]
  split_ifs
  · rwa [← hp, update_eq_self]
  · exact h.add hp k

theorem indexes_delNick (h : Indexes (map toUpper) T name) (hp : name p = key k) :
    Indexes (map toUpper) (Tables.delNick T k p) (update name p none) := by
  rw [key] at hp
  rw [Tables.delNick]
  split_ifs at hp ⊢ with hk
  · rwa [← hp, update_eq_self]
  · exact h.del (fun x y hxy => congrArg (fnvHash 17) hxy) hp

theorem indexes_addId (h : Indexes (fun k => k) T name) (hp : name p = none) :
    Indexes (fun k => k) (Tables.addId T k p) (update name p (key k)) := by
  rw [Tables.addId, key]
  split_ifs
  · rwa [← hp, update_eq_self]
  · exact h.add hp k

theorem indexes_delId (h : Indexes (fun k => k) T name) (hp : name p = key k) :
    Indexes (fun k => k) (Tables.delId T k p) (update name p none) := by
  rw [key] at hp
  rw [Tables.delId]
  split_ifs at hp ⊢ with hk
  · rwa [← hp, update_eq_self]
  · exact h.del (fun x y hxy => congrArg (fnvHash 17) hxy) hp

end Indexes

namespace Tables

variable {t : Tables} {p : Addr} {k : Str}

theorem nickOf_eq_some :
    t.nickOf p = some k ↔ ∃ c, t.client p = some c ∧ c.name = k ∧ c.name ≠ [] := by
  rw [nickOf, comp_apply, bind_eq_some_iff]
  simp [key_eq_some]

theorem idOf_eq_some : t.idOf p = some k ↔ ∃ c, t.client p = some c ∧ c.id = k ∧ c.id ≠ [] := by
  rw [idOf, comp_apply, bind_eq_some_iff]
  simp [key_eq_some]

theorem nickOf_of_client {c : Client} (h : t.client p = some c) : t.nickOf p = key c.name := by
  rw [nickOf, comp_apply, h, bind_some]

theorem idOf_of_client {c : Client} (h : t.client p = some c) : t.idOf p = key c.id := by
  rw [idOf, comp_apply, h, bind_some]

namespace WellFormed

variable {t : Tables} {p : Addr} {c c' : Client} {nick : Str}

section

variable (h : t.WellFormed)
include h

theorem client_fresh : t.client t.fresh = none := by
  cases hc : t.client t.fresh with
  | none => rfl
  | some c => exact absurd (h.fresh _ c hc) (lt_irrefl _)

/-- **A client takes a nick that is free, or that is an id.** -/
theorem rename (hp : t.client p = some c) (hname : c'.name = c.name) (hid : c'.id = c.id)
    (hfree : nick = [] ∨ digitName nick = true ∨ FreeBut t.client nick p) :
    (t.rename p c' nick).WellFormed where
  nicks := by
    have hdel := indexes_delNick (k := c'.name) h.nicks (by rw [nickOf_of_client hp, hname])
    have hadd := indexes_addNick (k := nick) hdel (update_self ..)
    rw [update_idem] at hadd
    rwa [nickOf, Tables.rename, comp_update]
  ids := by
    have hself : key c'.id = t.idOf p := by rw [idOf_of_client hp, hid]
    rw [idOf, Tables.rename, comp_update]
    change Indexes _ _ (update t.idOf p (key c'.id))
    rw [hself, update_eq_self]
    exact h.ids
  fresh := by
    intro q d hq
    obtain ⟨rfl, -⟩ | ⟨-, hq⟩ := update_eq_some.mp hq
    · exact h.fresh q c hp
    · exact h.fresh q d hq
  digitId := by
    intro q d hq hd
    obtain ⟨rfl, hcd⟩ | ⟨-, hq⟩ := update_eq_some.mp hq
    · cases hcd
      change c'.id ≠ [] at hd
      change digitName c'.id = true
      rw [hid] at hd ⊢
      exact h.digitId q c hp hd
    · exact h.digitId q d hq hd
  unique := h.unique.update hfree
  delayedOnce := h.delayedOnce

/-- **A new client comes in under a nick that is free, or that is an id.** -/
theorem enter (hid : c.id = [] ∨ digitName c.id = true)
    (hfree : c.name = [] ∨ digitName c.name = true ∨ FreeBut t.client c.name t.fresh) :
    (t.enter c).WellFormed where
  nicks := by
    have hnone : t.nickOf t.fresh = none := by
      rw [nickOf, comp_apply, h.client_fresh, bind_none]
    rw [nickOf, Tables.enter, comp_update]
    exact indexes_addNick h.nicks hnone
  ids := by
    have hnone : t.idOf t.fresh = none := by
      rw [idOf, comp_apply, h.client_fresh, bind_none]
    rw [idOf, Tables.enter, comp_update]
    exact indexes_addId h.ids hnone
  fresh := by
    intro q d hq
    obtain ⟨rfl, -⟩ | ⟨-, hq⟩ := update_eq_some.mp hq
    · exact Nat.lt_succ_self _
    · exact Nat.lt_succ_of_lt (h.fresh q d hq)
  digitId := by
    intro q d hq hd
    obtain ⟨-, hcd⟩ | ⟨-, hq⟩ := update_eq_some.mp hq
    · cases hcd
      exact hid.resolve_left hd
    · exact h.digitId q d hq hd
  unique := h.unique.update hfree
  delayedOnce := h.delayedOnce

/-- **A client goes.** -/
theorem remove (hp : t.client p = some c) : (t.remove p c).WellFormed where
  nicks := by
    rw [nickOf, Tables.remove, comp_update]
    exact indexes_delNick h.nicks (nickOf_of_client hp)
  ids := by
    rw [idOf, Tables.remove, comp_update]
    exact indexes_delId h.ids (idOf_of_client hp)
  fresh := by
    intro q d hq
    obtain ⟨-, hnone⟩ | ⟨-, hq⟩ := update_eq_some.mp hq
    · cases hnone
    · exact h.fresh q d hq
  digitId := by
    intro q d hq
    obtain ⟨-, hnone⟩ | ⟨-, hq⟩ := update_eq_some.mp hq
    · cases hnone
    · exact h.digitId q d hq
  unique := h.unique.update_none p
  delayedOnce := h.delayedOnce

/-- The fields of a client may change, its name in case only. -/
theorem set (hp : t.client p = some c) (hname : irccmp c.name c'.name = true)
    (hid : c'.id = c.id) : (t.set p c').WellFormed where
  nicks := by
    rw [nickOf, Tables.set, comp_update]
    change Indexes _ t.hashClient (update t.nickOf p (key c'.name))
    have hkey := nickOf_of_client hp
    rw [key] at hkey ⊢
    split_ifs at hkey ⊢ with hnil hnil' hnil'
    · rw [← hkey, update_eq_self]
      exact h.nicks
    · exact absurd ((eq_nil_iff_of_irccmp hname).mpr hnil) hnil'
    · exact absurd ((eq_nil_iff_of_irccmp hname).mp hnil') hnil
    · exact h.nicks.rename hkey (irccmp_iff.mp hname)
  ids := by
    have hself : key c'.id = t.idOf p := by rw [idOf_of_client hp, hid]
    rw [idOf, Tables.set, comp_update]
    change Indexes _ _ (update t.idOf p (key c'.id))
    rw [hself, update_eq_self]
    exact h.ids
  fresh := by
    intro q d hq
    obtain ⟨rfl, -⟩ | ⟨-, hq⟩ := update_eq_some.mp hq
    · exact h.fresh q c hp
    · exact h.fresh q d hq
  digitId := by
    intro q d hq hd
    obtain ⟨rfl, hcd⟩ | ⟨-, hq⟩ := update_eq_some.mp hq
    · cases hcd
      rw [hid] at hd ⊢
      exact h.digitId q c hp hd
    · exact h.digitId q d hq hd
  unique := by
    refine h.unique.update ?_
    by_cases hnil : c.name = []
    · exact .inl ((eq_nil_iff_of_irccmp hname).mp hnil)
    · by_cases hdigit : digitName c.name = true
      · exact .inr (.inl ((digitName_congr hname).symm.trans hdigit))
      · refine .inr (.inr fun q d hq hsame => ?_)
        exact h.unique p c hp hnil (by simpa using hdigit) q d hq
          (irccmp_trans hsame (irccmp_symm hname))
  delayedOnce := h.delayedOnce

/-- A client without an id gets one. -/
theorem identify (hp : t.client p = some c) (hname : c'.name = c.name)
    (hnil : c.id = []) (hid : digitName c'.id = true) : (t.identify p c').WellFormed where
  nicks := by
    have hself : key c'.name = t.nickOf p := by rw [nickOf_of_client hp, hname]
    rw [nickOf, Tables.identify, comp_update]
    change Indexes _ _ (update t.nickOf p (key c'.name))
    rw [hself, update_eq_self]
    exact h.nicks
  ids := by
    have hnone : t.idOf p = none := by rw [idOf_of_client hp, hnil, key, if_pos rfl]
    rw [idOf, Tables.identify, comp_update]
    exact indexes_addId h.ids hnone
  fresh := by
    intro q d hq
    obtain ⟨rfl, -⟩ | ⟨-, hq⟩ := update_eq_some.mp hq
    · exact h.fresh q c hp
    · exact h.fresh q d hq
  digitId := by
    intro q d hq hd
    obtain ⟨-, hcd⟩ | ⟨-, hq⟩ := update_eq_some.mp hq
    · cases hcd
      exact hid
    · exact h.digitId q d hq hd
  unique := by
    refine h.unique.update ?_
    rw [hname]
    by_cases hnil : c.name = []
    · exact .inl hnil
    · by_cases hdigit : digitName c.name = true
      · exact .inr (.inl hdigit)
      · exact .inr (.inr (h.unique p c hp hnil (by simpa using hdigit)))
  delayedOnce := h.delayedOnce

end

/-! ### Searches -/

section

variable (h : t.WellFormed)
include h

/-- Nothing is found in `HASH_CLIENT` exactly if no client has the nick. -/
theorem findNick_eq_none_iff (hnick : nick ≠ []) :
    t.findNick nick = none ↔ ∀ q c, t.client q = some c → irccmp c.name nick = false := by
  rw [findNick, if_neg hnick, h.nicks.find_eq_none_iff]
  constructor
  · intro hnone q d hq
    by_contra hsame
    rw [Bool.not_eq_false] at hsame
    have hd : d.name ≠ [] := fun hnil => hnick ((eq_nil_iff_of_irccmp hsame).mp hnil)
    exact hnone q d.name (nickOf_eq_some.mpr ⟨d, hq, rfl, hd⟩) (irccmp_iff.mp hsame)
  · intro hno q k hq hcanon
    obtain ⟨d, hd, rfl, -⟩ := nickOf_eq_some.mp hq
    have hdiffer := hno q d hd
    rw [irccmp_iff.mpr hcanon] at hdiffer
    cases hdiffer

/-- A client that is found in `HASH_CLIENT` has the nick. -/
theorem findNick_eq_some (hfind : t.findNick nick = some p) :
    ∃ c, t.client p = some c ∧ irccmp c.name nick = true := by
  rw [findNick] at hfind
  split_ifs at hfind
  obtain ⟨k, hk, hcanon⟩ := h.nicks.find_eq_some hfind
  obtain ⟨c, hc, rfl, -⟩ := nickOf_eq_some.mp hk
  exact ⟨c, hc, irccmp_iff.mpr hcanon⟩

/-- A client with a nick that is not shared is found. -/
theorem findNick_of_name (hp : t.client p = some c)
    (hsame : irccmp c.name nick = true) (hnick : nick ≠ []) (hdigit : digitName nick = false) :
    t.findNick nick = some p := by
  have hc : c.name ≠ [] := fun hnil => hnick ((eq_nil_iff_of_irccmp hsame).mp hnil)
  rw [findNick, if_neg hnick]
  refine h.nicks.find_of_unique (nickOf_eq_some.mpr ⟨c, hp, rfl, hc⟩) (irccmp_iff.mp hsame) ?_
  intro q k hq hcanon
  obtain ⟨d, hd, rfl, -⟩ := nickOf_eq_some.mp hq
  exact h.unique p c hp hc ((digitName_congr hsame).trans hdigit) q d hd
    (irccmp_trans (irccmp_iff.mpr hcanon) (irccmp_symm hsame))

/-- Nothing is found in `HASH_ID` exactly if no client has the id. -/
theorem findId_eq_none_iff {id : Str} (hid : id ≠ []) :
    t.findId id = none ↔ ∀ q c, t.client q = some c → c.id ≠ id := by
  rw [findId, if_neg hid, h.ids.find_eq_none_iff]
  constructor
  · rintro hnone q d hq rfl
    exact hnone q d.id (idOf_eq_some.mpr ⟨d, hq, rfl, hid⟩) rfl
  · intro hno q k hq
    obtain ⟨d, hd, rfl, -⟩ := idOf_eq_some.mp hq
    exact hno q d hd

/-- A client that is found in `HASH_ID` has the id. -/
theorem findId_eq_some {id : Str} (hfind : t.findId id = some p) :
    ∃ c, t.client p = some c ∧ c.id = id := by
  rw [findId] at hfind
  split_ifs at hfind
  obtain ⟨k, hk, hcanon⟩ := h.ids.find_eq_some hfind
  obtain ⟨c, hc, rfl, -⟩ := idOf_eq_some.mp hk
  exact ⟨c, hc, hcanon⟩

/-- A client that is found by a name has it as its nick or its id. -/
theorem findClient_eq_some {name : Str} (hfind : t.findClient name = some p) :
    ∃ c, t.client p = some c ∧
      (digitName name = true ∧ c.id = name ∨ digitName name = false ∧
        irccmp c.name name = true) := by
  rw [findClient] at hfind
  split_ifs at hfind with hdigit
  · obtain ⟨c, hc, hid⟩ := h.findId_eq_some hfind
    exact ⟨c, hc, Or.inl ⟨hdigit, hid⟩⟩
  · obtain ⟨c, hc, hsame⟩ := h.findNick_eq_some hfind
    exact ⟨c, hc, Or.inr ⟨by simpa using hdigit, hsame⟩⟩

end

/-! ### Delayed nicks -/

theorem addNdEntry (h : t.WellFormed) (name : Str) (expire : ℤ) :
    (t.addNdEntry name expire).WellFormed := by
  rw [Tables.addNdEntry]
  split_ifs with hdelayed
  · exact h
  · refine ⟨h.nicks, h.ids, h.fresh, h.digitId, h.unique, ?_⟩
    refine List.pairwise_append.mpr ⟨h.delayedOnce, List.pairwise_singleton _ _, ?_⟩
    intro nd hnd e he
    obtain rfl := List.mem_singleton.mp he
    simp only [delayed, List.any_eq_true, not_exists, not_and] at hdelayed
    simpa using hdelayed nd hnd

theorem freeNdEntry (h : t.WellFormed) (nick : Str) : (t.freeNdEntry nick).WellFormed :=
  ⟨h.nicks, h.ids, h.fresh, h.digitId, h.unique, h.delayedOnce.eraseP _⟩

theorem expireNdEntries (h : t.WellFormed) (now : ℤ) : (t.expireNdEntries now).WellFormed :=
  ⟨h.nicks, h.ids, h.fresh, h.digitId, h.unique,
    h.delayedOnce.sublist (dropWhile_sublist _)⟩

end WellFormed

theorem delayed_addNdEntry {name : Str} {expire : ℤ}
    (h : (t.addNdEntry name expire).delayed k = true) :
    t.delayed k = true ∨ irccmp name k = true := by
  rw [addNdEntry] at h
  split_ifs at h
  · exact .inl h
  · rwa [delayed, any_append, Bool.or_eq_true, any_cons, any_nil, Bool.or_false]
      at h

/-- The nick is not delayed any more, and the others are as before. -/
theorem WellFormed.delayed_freeNdEntry (h : t.WellFormed) {nick : Str}
    (hk : (t.freeNdEntry nick).delayed k = true) :
    t.delayed k = true ∧ irccmp nick k = false := by
  obtain ⟨nd, hnd, hsame⟩ := any_eq_true.mp hk
  refine ⟨any_eq_true.mpr ⟨nd, mem_of_mem_eraseP hnd, hsame⟩, ?_⟩
  by_contra hnick
  rw [Bool.not_eq_false] at hnick
  -- The entry that remains and the one that was freed would have one nick.
  have hmatch : irccmp nd.name nick = true := irccmp_trans hsame (irccmp_symm hnick)
  obtain ⟨e, l₁, l₂, -, he, hlist, herase⟩ :=
    exists_of_eraseP (p := fun nd => irccmp nd.name nick) (mem_of_mem_eraseP hnd) hmatch
  have hnd' : nd ∈ l₁ ++ l₂ := herase ▸ hnd
  have hpairs := h.delayedOnce
  rw [hlist, pairwise_append, pairwise_cons] at hpairs
  have hdiffer : irccmp e.name nd.name = false := by
    rcases mem_append.mp hnd' with hin | hin
    · rw [irccmp_comm]
      exact hpairs.2.2 nd hin e mem_cons_self
    · exact hpairs.2.1.1 nd hin
  rw [irccmp_trans he (irccmp_symm hmatch)] at hdiffer
  cases hdiffer

theorem delayed_expireNdEntries {now : ℤ}
    (h : (t.expireNdEntries now).delayed k = true) : t.delayed k = true := by
  obtain ⟨nd, hnd, hsame⟩ := any_eq_true.mp h
  exact any_eq_true.mpr ⟨nd, (dropWhile_sublist _).subset hnd, hsame⟩

theorem delayed_congr (t : Tables) {a b : Str} (h : irccmp a b = true) :
    t.delayed a = t.delayed b := by
  simp [delayed, irccmp_congr_right h]

end Tables

end Ratbox.Nick
