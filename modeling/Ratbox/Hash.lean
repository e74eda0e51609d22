import Ratbox.Lib.Buckets
import Ratbox.Lib.Run
import Ratbox.Nick.Tables

/-!
# Hash tables

Clients, channels and other things are kept in hash tables. A table is made with a way to compare
keys, a number of bits for its size, and a length beyond which keys are not hashed.

Source: `src/hash.c`, lines 83–512, `include/hash.h`, and `src/match.c`, lines 680–713.

## Main definitions

* `Hash.HashF`, `Hash.initHash`: the kinds of tables, and those that `init_hash` makes.
* `Hash.hashFind`, `Hash.hashFindList`, `Hash.hashAdd`, `Hash.hashDel`, `Hash.hashDelHnode`: the
  operations.
* `Hash.Entry`, `Hash.Op.store`: what the operations are for, on a list of entries.
* `Hash.FindsOwn`: a key that is deleted is the key of the entry that is taken out.
* `Hash.Indexes`: the table has one node for each of some objects.
* `Hash.Placed`: the same for objects that are deleted by their keys, which they may share.

## Main results

* `Hash.index_lt`, `Hash.index_eq_of_same`: the number of a bucket.
* `Hash.Refines.step`: the table follows the list of entries.
* `Hash.Indexes.find`, `Hash.Indexes.add`, `Hash.Indexes.del`: objects that know their nodes.
* `Hash.Placed.add`, `Hash.Placed.del`: objects that know their keys.
* `Hash.table_spec`: what the searches give after any operations.

The keys of tables that compare strings are strings, and those of the others have the length of the
table, as all callers have it; the functions with lengths and those without are then one. Pointers
are not null.
-/

namespace Ratbox.Hash

open Text Nick Buckets List Option Function

/-! ### The kinds of tables -/

/-- `hash_cmptype`. -/
inductive CmpType
  | irccmp
  | strcmp
  | memcmp
  deriving DecidableEq

/-- `struct _hash_function`, without its table. -/
structure HashF where
  cmptype : CmpType
  hashbits : ℕ
  hashlen : ℕ
  deriving DecidableEq

/-- `fnv_hash_len`. -/
def fnvHashLen (bits : ℕ) (s : Str) (len : ℕ) : ℕ := fnvHash bits (s.take len)

/-- `fnv_hash_upper_len`. -/
def fnvHashUpperLen (bits : ℕ) (s : Str) (len : ℕ) : ℕ := fnvHashUpper bits (s.take len)

/-- `fnv_hash_len_data`. -/
def fnvHashLenData (bits : ℕ) (s : Str) (len : ℕ) : ℕ := fnvHash bits (s.take len)

/-- The function that `hash_create` puts in the field `func`, called by `do_hfunc`. -/
def HashF.func (hf : HashF) (hashindex : Str) (hashlen : ℕ) : ℕ :=
  match hf.cmptype with
  | .irccmp =>
    if 0 < hf.hashlen then fnvHashUpperLen hf.hashbits hashindex hashlen
      else fnvHashUpper hf.hashbits hashindex
  | .strcmp => if 0 < hf.hashlen then fnvHashLen hf.hashbits hashindex hashlen
    else fnvHash hf.hashbits hashindex
  | .memcmp => fnvHashLenData hf.hashbits hashindex hashlen

/-- `hash_do_cmp(hfunc, x, y, len) == 0`. -/
def HashF.cmp (hf : HashF) (x y : Str) (len : ℕ) : Bool :=
  match hf.cmptype with
  | .irccmp => irccmp x y
  | .strcmp => x == y
  | .memcmp => x.take len == y.take len

/-- `hash_create`. -/
def hashCreate (cmptype : CmpType) (hashbits maxkeylen : ℕ) : Option HashF :=
  if cmptype = .memcmp ∧ maxkeylen = 0 then none else some ⟨cmptype, hashbits, maxkeylen⟩

/-- `init_hash`: the tables of nicks, ids, channels, hostnames, RESVs, operators, server names, help
texts for users and for operators, delayed nicks, connections, compressed connections, monitored
nicks and commands. -/
def initHash : List (Option HashF) :=
  [hashCreate .irccmp 17 0, hashCreate .strcmp 17 0, hashCreate .irccmp 16 30, hashCreate .irccmp 17
    30,
    hashCreate .irccmp 10 30, hashCreate .irccmp 10 0, hashCreate .irccmp 8 0, hashCreate .irccmp 7
      10,
    hashCreate .irccmp 7 10, hashCreate .irccmp 17 0, hashCreate .memcmp 12 4, hashCreate .memcmp 7
      4,
    hashCreate .irccmp 16 0, hashCreate .irccmp 9 10]

/-- The keys of a table. -/
def HashF.Key (hf : HashF) (k : Str) : Prop := hf.cmptype = .memcmp → k.length = hf.hashlen

/-- The size of a key, with the NUL at the end of a string. -/
def HashF.size (hf : HashF) (k : Str) : ℕ := if hf.cmptype = .memcmp then k.length else k.length + 1

/-- The length that is hashed in a search. -/
def HashF.len (hf : HashF) (k : Str) :
    ℕ := if hf.hashlen = 0 then hf.size k else min (hf.size k) hf.hashlen

/-- The number of the bucket in which a key is searched. -/
def HashF.index (hf : HashF) (k : Str) : ℕ := hf.func k (hf.len k)

/-- Keys are equal. -/
def HashF.same (hf : HashF) (k k' : Str) : Bool := hf.cmp k k' (hf.len k)

/-! ### The operations -/

/-- `struct _hash_node`, with its address. -/
structure Node where
  addr : ℕ
  key : Str
  data : ℕ
  hashv : ℕ
  deriving DecidableEq

/-- The field `htable`, and the next address to allocate a node at. -/
structure Table where
  htable : ℕ → Option (List Node)
  fresh : ℕ

/-- A table as `hash_create` makes it. -/
def Table.empty : Table := ⟨fun _ => none, 0⟩

/-- The nodes of a bucket. -/
def Table.bucket (t : Table) (hashv : ℕ) : List Node := (t.htable hashv).getD []

/-- Write a bucket; `hash_free_bucket` frees one without nodes. -/
def Table.setBucket (t : Table) (hashv : ℕ) (bucket : List Node) : Table :=
  { t with htable := update t.htable hashv (if bucket = [] then none else some bucket) }

section

variable (hf : HashF)

/-- `hash_find_len` and `hash_find`. -/
def hashFind (t : Table) (hashindex : Str) : Option Node :=
  if hashindex = [] then none
  else (t.htable (hf.index hashindex)).bind fun bucket =>
    bucket.find? fun hnode => hf.cmp hashindex hnode.key (hf.len hashindex)

/-- `hash_find_list_len` and `hash_find_list`. Each result is put in front of the others. -/
def hashFindList (t : Table) (hashindex : Str) : Option (List ℕ) :=
  if hashindex = [] then none
  else (t.htable (hf.index hashindex)).bind fun bucket =>
    let results := ((bucket.filter fun hnode => hf.cmp hashindex hnode.key (hf.len hashindex)).map
      (·.data)).reverse
    if results = [] then none else some results

/-- `hash_add_len` and `hash_add`. -/
def hashAdd (t : Table) (hashindex : Str) (pointer : ℕ) : Table :=
  if hashindex = [] then t
  else
    let hashv := hf.func hashindex (min (hf.size hashindex) hf.hashlen)
    { t.setBucket hashv (⟨t.fresh, hashindex, pointer, hashv⟩ :: t.bucket hashv) with
      fresh := t.fresh + 1 }

/-- The node that `hash_add` returns. -/
def added (t : Table) (hashindex : Str) (pointer : ℕ) : Node :=
  ⟨t.fresh, hashindex, pointer, hf.func hashindex (min (hf.size hashindex) hf.hashlen)⟩

/-- `hash_del_len` and `hash_del`. -/
def hashDel (t : Table) (hashindex : Str) (pointer : ℕ) : Table :=
  if hashindex = [] then t
  else
    let hashv := hf.index hashindex
    t.setBucket hashv ((t.bucket hashv).eraseP fun hnode => hnode.data = pointer)

/-- `hash_del_hnode`, of a node that was not freed. -/
def hashDelHnode (t : Table) (hnode : Node) : Option Table :=
  if hnode ∈ t.bucket hnode.hashv then
    some (t.setBucket hnode.hashv ((t.bucket hnode.hashv).eraseP fun n => n = hnode))
  else none

/-- The operations on a table. -/
inductive Op
  | add (hashindex : Str) (pointer : ℕ)
  | del (hashindex : Str) (pointer : ℕ)
  | delHnode (hnode : Node)
  deriving DecidableEq

/-- A step. -/
def step (t : Table) : Op → Option Table
  | .add hashindex pointer => some (hashAdd hf t hashindex pointer)
  | .del hashindex pointer => some (hashDel hf t hashindex pointer)
  | .delHnode hnode => hashDelHnode t hnode

/-- The keys of an operation are keys of the table. -/
def Op.Key : Op → Prop
  | .add hashindex _ => hf.Key hashindex
  | .del hashindex _ => hf.Key hashindex
  | .delHnode _ => True

/-! ### What the operations are for -/

/-- What was added, numbered. -/
structure Entry where
  addr : ℕ
  key : Str
  data : ℕ
  deriving DecidableEq

/-- The entries, the newest first, and the next number. -/
structure Store where
  entries : List Entry
  fresh : ℕ
  deriving DecidableEq

/-- An operation on the entries. An empty string is no key. The newest of several equal entries is
deleted. -/
def Op.store (st : Store) : Op → Store
  | .add k data => if k = [] then st else ⟨⟨st.fresh, k, data⟩ :: st.entries, st.fresh + 1⟩
  | .del k data =>
    if k = [] then st else ⟨st.entries.eraseP fun e => hf.same k e.key ∧ e.data = data, st.fresh⟩
  | .delHnode hnode => ⟨st.entries.eraseP fun e => e.addr = hnode.addr, st.fresh⟩

/-- What a node is for. -/
def Node.entry (n : Node) : Entry := ⟨n.addr, n.key, n.data⟩

/-- The first node with the pointer in the bucket of the key has this key, if there is one. -/
def FindsOwn (t : Table) : Op → Prop
  | .del hashindex pointer => ∀ n, (t.bucket (hf.index hashindex)).find? (fun n => n.data =
    pointer) = some n → hf.same hashindex n.key = true
  | _ => True

end

/-! ### The numbers of buckets -/

section Index

variable {hf : HashF} {k k' : Str}

theorem fnvByte_lt (h : ℕ) (c : Char) : fnvByte h c < 2 ^ 32 := Nat.mod_lt _ (by decide)

theorem fnvFold_lt (s : Str) : s.foldl fnvByte 0x811c9dc5 < 2 ^ 32 := by
  rcases eq_nil_or_concat s with rfl | ⟨s, c, rfl⟩
  · decide
  · rw [concat_eq_append, foldl_append]
    exact fnvByte_lt _ c

/-- The number fits when the mask in the last line of the function does. -/
theorem fnvHash_lt {bits : ℕ} (hbits : bits ≤ 32) (hmask : (2 ^^^ (32 - bits)) - 1 < 2 ^ bits)
    (s : Str) :
    fnvHash bits s < 2 ^ bits := by
  refine Nat.xor_lt_two_pow ?_ (lt_of_le_of_lt Nat.and_le_right hmask)
  rw [Nat.shiftRight_eq_div_pow, Nat.div_lt_iff_lt_mul (Nat.two_pow_pos _), ← Nat.pow_add,
    Nat.add_sub_cancel' hbits]
  exact fnvFold_lt s

theorem bits_of_initHash (h : some hf ∈ initHash) :
    hf.hashbits ≤ 32 ∧ (2 ^^^ (32 - hf.hashbits)) - 1 < 2 ^ hf.hashbits ∧
      (hf.cmptype = .memcmp → 0 < hf.hashlen) := by
  have hall : ∀ o ∈ initHash, ∀ hf, o = some hf → hf.hashbits ≤ 32 ∧
      (2 ^^^ (32 - hf.hashbits)) - 1 < 2 ^ hf.hashbits ∧ (hf.cmptype = .memcmp →
          0 < hf.hashlen) := by
    simp only [initHash, hashCreate, forall_mem_cons, not_mem_nil, false_imp_iff, implies_true]
    refine ⟨?_, ?_, ?_, ?_, ?_, ?_, ?_, ?_, ?_, ?_, ?_, ?_, ?_, ?_, trivial⟩ <;>
      · rintro hf h
        cases h
        decide
  exact hall _ h hf rfl

/-- **The number of a bucket** is below the size of the table. -/
theorem index_lt (h : some hf ∈ initHash) (k : Str) : hf.index k < 2 ^ hf.hashbits := by
  obtain ⟨hbits, hmask, -⟩ := bits_of_initHash h
  have hlt := fnvHash_lt hbits hmask
  rw [HashF.index, HashF.func]
  split
  · split_ifs
    · exact hlt _
    · exact hlt _
  · split_ifs
    · exact hlt _
    · exact hlt _
  · exact hlt _

/-- What of a key is compared. -/
def HashF.canon (hf : HashF) (k : Str) : Str := if hf.cmptype = .irccmp then k.map toUpper else k

theorem same_iff (hk : hf.Key k) (hk' : hf.Key k') :
    hf.same k k' = true ↔ hf.canon k = hf.canon k' := by
  rw [HashF.same, HashF.cmp, HashF.canon, HashF.canon]
  cases htype : hf.cmptype with
  | irccmp => simp [irccmp]
  | strcmp => simp
  | memcmp =>
    have hlen : hf.len k = hf.hashlen := by
      rw [HashF.len, HashF.size, if_pos htype, hk htype, Nat.min_self, ite_self]
    simp [hlen, take_of_length_le (hk htype).le, take_of_length_le (hk' htype).le]

/-- **Equal keys** are in one bucket. -/
theorem index_eq_of_same (hk : hf.Key k) (hk' : hf.Key k') (h : hf.same k k' = true) :
    hf.index k = hf.index k' := by
  have hcanon := (same_iff hk hk').mp h
  rw [HashF.canon, HashF.canon] at hcanon
  by_cases htype : hf.cmptype = .irccmp
  · rw [if_pos htype, if_pos htype] at hcanon
    have hlen : hf.len k = hf.len k' := by
      have hlength : k.length = k'.length := by simpa using congrArg length hcanon
      rw [HashF.len, HashF.len, HashF.size, HashF.size, hlength]
    simp [HashF.index, HashF.func, htype, hlen, fnvHashUpperLen, fnvHashUpper, hcanon]
  · rw [if_neg htype, if_neg htype] at hcanon
    rw [hcanon]

/-- A key is added to the bucket in which it is searched. -/
theorem func_eq_index (hlen : hf.cmptype = .memcmp → 0 < hf.hashlen) (k : Str) :
    hf.func k (min (hf.size k) hf.hashlen) = hf.index k := by
  rw [HashF.index, HashF.len, HashF.func, HashF.func]
  by_cases hzero : hf.hashlen = 0
  · cases htype : hf.cmptype with
    | irccmp => simp [hzero]
    | strcmp => simp [hzero]
    | memcmp => exact absurd hzero (hlen htype).ne'
  · rw [if_neg hzero]

end Index

/-! ### The table and the entries -/

/-- The nodes of a table, the newest first. -/
structure Follows (hf : HashF) (t : Table) (nodes : List Node) : Prop where
  splits : Splits Node.hashv t.bucket nodes
  hashv : ∀ n ∈ nodes, n.hashv = hf.index n.key
  key : ∀ n ∈ nodes, hf.Key n.key
  addr : ∀ n ∈ nodes, n.addr < t.fresh
  nodup : (nodes.map Node.addr).Nodup

/-- The nodes of the table are for the entries. -/
def Refines (hf : HashF) (t : Table) (st : Store) : Prop :=
  ∃ nodes, Follows hf t nodes ∧ nodes.map Node.entry = st.entries ∧ t.fresh = st.fresh

section Refines

variable {hf : HashF} {t t' : Table} {st : Store} {nodes : List Node} {k : Str}

theorem bucket_setBucket (t : Table) (hashv : ℕ) (bucket : List Node) :
    (t.setBucket hashv bucket).bucket = update t.bucket hashv bucket := by
  funext i
  rw [Table.bucket, Table.setBucket]
  dsimp only
  by_cases hi : i = hashv
  · subst hi
    rw [update_self, update_self]
    split_ifs with hnil
    · exact hnil.symm
    · rfl
  · rw [update_of_ne hi, update_of_ne hi, Table.bucket]

theorem eraseP_congr {ν : Type*} {l : List ν} {p q : ν → Bool} (h : ∀ n ∈ l, p n = q n) :
    l.eraseP p = l.eraseP q := by
  induction l with
  | nil => rfl
  | cons n l ih =>
    rw [eraseP_cons, eraseP_cons, h n mem_cons_self, ih fun n' hn => h n' (mem_cons_of_mem n hn)]

/-- With one node at most for a pointer, the first one is all. -/
theorem eraseP_eq_filter {l : List Node} {p : ℕ} (hnd : (l.map (·.data)).Nodup) :
    l.eraseP (fun n => n.data = p) = l.filter fun n => n.data ≠ p := by
  induction l with
  | nil => rfl
  | cons n l ih =>
    obtain ⟨hn, hnd⟩ := nodup_cons.mp hnd
    by_cases hp : n.data = p
    · have hrest : ∀ n' ∈ l, n'.data ≠ p :=
        fun n' hn' heq => hn (mem_map.mpr ⟨n', hn', heq.trans hp.symm⟩)
      rw [eraseP_cons_of_pos (by simpa using hp), filter_cons_of_neg (by simpa using hp),
        filter_eq_self.mpr fun n' hn' => decide_eq_true (hrest n' hn')]
    · rw [eraseP_cons_of_neg (by simpa using hp), filter_cons_of_pos (by simpa using hp), ih hnd]

section

variable (h : Follows hf t nodes)
include h

/-- Nodes are taken out. -/
theorem Follows.sublist {nodes' : List Node} (hsub : nodes'.Sublist nodes)
    {hashv : ℕ} {bucket : List Node}
    (hsplits : Splits Node.hashv (update t.bucket hashv bucket) nodes') :
    Follows hf (t.setBucket hashv bucket) nodes' :=
  ⟨bucket_setBucket t hashv bucket ▸ hsplits, fun n hn => h.hashv n (hsub.subset hn),
    fun n hn => h.key n (hsub.subset hn), fun n hn => h.addr n (hsub.subset hn),
      h.nodup.sublist (hsub.map _)⟩

theorem Follows.add (hlen : hf.cmptype = .memcmp → 0 < hf.hashlen) (hk : hf.Key k)
    (hne : k ≠ []) (pointer : ℕ) :
    Follows hf (hashAdd hf t k pointer) (added hf t k pointer :: nodes) := by
  rw [hashAdd, if_neg hne, added]
  dsimp only
  rw [func_eq_index hlen]
  refine ⟨?_, ?_, ?_, ?_, ?_⟩
  · have hsplits := h.splits.cons ⟨t.fresh, k, pointer, hf.index k⟩
    rw [← bucket_setBucket] at hsplits
    exact hsplits
  · simpa using h.hashv
  · exact forall_mem_cons.mpr ⟨hk, h.key⟩
  · exact forall_mem_cons.mpr ⟨Nat.lt_succ_self _, fun n hn => (h.addr n hn).trans
      (Nat.lt_succ_self _)⟩
  · refine nodup_cons.mpr ⟨fun hmem => ?_, h.nodup⟩
    obtain ⟨n, hn, heq⟩ := mem_map.mp hmem
    exact absurd (h.addr n hn) (heq ▸ lt_irrefl _)

/-- What a search looks at in the bucket are the nodes with the key. -/
theorem Follows.cmp_iff (hk : hf.Key k) : ∀ n ∈ nodes,
    hf.same k n.key = (decide (n.hashv = hf.index k) && hf.cmp k n.key (hf.len k)) := by
  intro n hn
  change hf.same k n.key = (_ && hf.same k n.key)
  cases hsame : hf.same k n.key with
  | false => simp
  | true =>
    have hindex := index_eq_of_same hk (h.key n hn) hsame
    simp [h.hashv n hn, hindex]

/-- A search of the table is a search of its nodes. -/
theorem Follows.find (hk : hf.Key k) (hne : k ≠ []) :
    hashFind hf t k = nodes.find? fun n => hf.same k n.key := by
  rw [← h.splits.find? (h.cmp_iff hk), hashFind, if_neg hne, Table.bucket]
  cases t.htable (hf.index k) with
  | none => simp
  | some bucket => rfl

/-- A node that is in the table is taken out. -/
theorem Follows.delHnode {hnode : Node} (hmem : hnode ∈ nodes) :
    ∃ t', hashDelHnode t hnode = some t' ∧ t'.fresh = t.fresh ∧
    Follows hf t' (nodes.erase hnode) := by
  rw [hashDelHnode, if_pos (h.splits.mem_iff.mpr ⟨hmem, rfl⟩)]
  refine ⟨_, rfl, rfl, ?_⟩
  have herase : nodes.erase hnode =
      nodes.eraseP fun n => decide (n.hashv = hnode.hashv) && decide (n = hnode) := by
    rw [erase_eq_eraseP]
    refine eraseP_congr fun n _ => ?_
    rw [Bool.eq_iff_iff, beq_iff_eq, Bool.and_eq_true, decide_eq_true_iff, decide_eq_true_iff]
    exact ⟨fun heq => ⟨heq ▸ rfl, heq.symm⟩, fun heq => heq.2.symm⟩
  rw [herase]
  exact h.sublist eraseP_sublist (h.splits.eraseP _ _)

end

section

variable (h : Refines hf t st)
include h

theorem Refines.add (hlen : hf.cmptype = .memcmp → 0 < hf.hashlen) (hk : hf.Key k)
    (pointer : ℕ) : Refines hf (hashAdd hf t k pointer) (Op.store hf st (.add k pointer)) := by
  obtain ⟨nodes, hnodes, hentries, hfresh⟩ := h
  rw [Op.store]
  split_ifs with hne
  · rw [hashAdd, if_pos hne]
    exact ⟨nodes, hnodes, hentries, hfresh⟩
  · refine ⟨_, hnodes.add hlen hk hne pointer, ?_, ?_⟩
    · rw [map_cons, hentries, Node.entry, added, hfresh]
    · rw [hashAdd, if_neg hne, ← hfresh]

theorem Refines.del (hk : hf.Key k) {pointer : ℕ} (hown : FindsOwn hf t (.del k pointer)) :
    Refines hf (hashDel hf t k pointer) (Op.store hf st (.del k pointer)) := by
  obtain ⟨nodes, hnodes, hentries, hfresh⟩ := h
  rw [Op.store, hashDel]
  split_ifs with hne
  · exact ⟨nodes, hnodes, hentries, hfresh⟩
  · have hfind := hnodes.splits.find? (i := hf.index k) (p := fun n => n.data = pointer)
      (q := fun n => decide (n.hashv = hf.index k) && decide (n.data = pointer)) fun n _ => rfl
    -- In the bucket only the key of the first node with the pointer matters.
    have hsame : nodes.eraseP (fun n => decide (n.hashv = hf.index k) &&
        decide (n.data = pointer)) = nodes.eraseP fun n => decide (hf.same k n.key = true ∧
            n.data = pointer) := by
      have hstrong : nodes.eraseP (fun n => decide (hf.same k n.key = true ∧ n.data = pointer)) =
          nodes.eraseP fun n => decide (n.hashv = hf.index k) && decide (n.data = pointer) &&
              hf.same k n.key := by
        refine eraseP_congr fun n hn => ?_
        have hcmp := hnodes.cmp_iff hk n hn
        rw [Bool.eq_iff_iff] at hcmp ⊢
        simp only [Bool.and_eq_true, decide_eq_true_eq] at hcmp ⊢
        tauto
      rw [hstrong]
      refine (eraseP_congr_iff (fun n hn => ?_) (Nodup.of_map _ hnodes.nodup)).mpr fun n hn => ?_
      · exact (Bool.and_eq_true_iff.mp hn).1
      · rw [Bool.and_eq_true_iff]
        have hfound := find?_some hn
        exact ⟨hfound, hown n (hfind.trans hn)⟩
    refine ⟨_, hnodes.sublist eraseP_sublist (hnodes.splits.eraseP _ _), ?_, hfresh⟩
    rw [hsame, ← hentries, eraseP_map]
    rfl

theorem Refines.delHnode {hnode : Node} (hdel : hashDelHnode t hnode = some t') :
    Refines hf t' (Op.store hf st (.delHnode hnode)) := by
  obtain ⟨nodes, hnodes, hentries, hfresh⟩ := h
  have hin : hnode ∈ nodes := by
    rw [hashDelHnode] at hdel
    split_ifs at hdel with hmem
    exact (hnodes.splits.mem_iff.mp hmem).1
  obtain ⟨t₁, hdel₁, hfresh₁, hnodes₁⟩ := hnodes.delHnode hin
  cases hdel₁.symm.trans hdel
  refine ⟨_, hnodes₁, ?_, hfresh₁.trans hfresh⟩
  have haddr : nodes.erase hnode = nodes.eraseP fun n => decide (n.addr = hnode.addr) := by
    rw [erase_eq_eraseP]
    refine eraseP_congr fun n hn => ?_
    rw [Bool.eq_iff_iff, beq_iff_eq, decide_eq_true_iff]
    exact ⟨fun heq => heq ▸ rfl, fun heq => (inj_on_of_nodup_map hnodes.nodup hn hin heq).symm⟩
  rw [haddr, Op.store, ← hentries, eraseP_map]
  rfl

/-- **A step.** The table follows the entries, if a key that is deleted finds its own node. -/
theorem Refines.step (hlen : hf.cmptype = .memcmp → 0 < hf.hashlen) {op : Op}
    (hkey : op.Key hf) (hown : FindsOwn hf t op) (hstep : step hf t op = some t') :
    Refines hf t' (op.store hf st) := by
  cases op with
  | add k pointer =>
    cases hstep
    exact h.add hlen hkey pointer
  | del k pointer =>
    cases hstep
    exact h.del hkey hown
  | delHnode hnode => exact h.delHnode hstep

theorem Refines.run {ops : List Op} (hlen : hf.cmptype = .memcmp → 0 < hf.hashlen)
    (hkeys : ∀ op ∈ ops, op.Key hf) (hown : Run.StepsMeet (Hash.step hf) (FindsOwn hf) t ops)
    (hrun : Run.run (Hash.step hf) t ops = some t') :
    Refines hf t' (ops.foldl (Op.store hf) st) := by
  induction ops generalizing t st with
  | nil =>
    cases hrun
    exact h
  | cons op ops ih =>
    obtain ⟨t₁, hstep, hrun⟩ := bind_eq_some_iff.mp hrun
    exact ih (h.step hlen (hkeys op mem_cons_self) hown.1 hstep)
      (fun op hop => hkeys op (mem_cons_of_mem _ hop)) (hown.2 t₁ hstep) hrun

/-- **The searches** find the newest entry with an equal key, and all entries with one. -/
theorem Refines.find (hk : hf.Key k) (hne : k ≠ []) :
    (hashFind hf t k).map Node.entry = st.entries.find? (fun e => hf.same k e.key) ∧
      (hashFindList hf t k).getD [] =
      ((st.entries.filter fun e => hf.same k e.key).map (·.data)).reverse ∧
      hashFindList hf t k ≠ some [] := by
  obtain ⟨nodes, hnodes, hentries, -⟩ := h
  refine ⟨?_, ?_⟩
  · rw [hnodes.find hk hne, ← hentries, find?_map]
    rfl
  · have hfilter := hnodes.splits.filter (hnodes.cmp_iff hk)
    have hlist : (st.entries.filter fun e => hf.same k e.key).map (·.data) =
        (nodes.filter fun n => hf.same k n.key).map (·.data) := by
      rw [← hentries, List.filter_map, List.map_map]
      rfl
    rw [hashFindList, if_neg hne, hlist, ← hfilter, Table.bucket]
    cases t.htable (hf.index k) with
    | none => simp
    | some bucket =>
      rw [bind_some, getD_some]
      dsimp only
      split_ifs with hnil
      · exact ⟨by rw [hnil, getD_none], by simp⟩
      · exact ⟨rfl, fun heq => hnil (some.inj heq)⟩

end

end Refines

/-! ### Objects that know their nodes -/

/-- The table has one node for each object, which the object knows, and the keys of objects are
different. -/
structure Indexes (hf : HashF) (t : Table) (node : ℕ → Option Node) : Prop where
  follows : ∃ nodes, Follows hf t nodes ∧ ∀ n, n ∈ nodes ↔ node n.data = some n
  data : ∀ a n, node a = some n → n.data = a ∧ n.key ≠ []
  unique : ∀ a b n n', node a = some n → node b = some n' → hf.same n.key n'.key = true → a = b

namespace Indexes

variable {hf : HashF} {t : Table} {node : ℕ → Option Node} {a : ℕ} {n : Node} {k : Str}

theorem empty (hf : HashF) : Indexes hf Table.empty fun _ => none where
  follows := ⟨[], ⟨splits_nil, by simp, by simp, by simp, nodup_nil⟩, by simp⟩
  data := nofun
  unique := nofun

section

variable (h : Indexes hf t node)
include h

theorem node_of_bucket {i : ℕ} (hn : n ∈ t.bucket i) : node n.data = some n := by
  obtain ⟨nodes, hnodes, hmem⟩ := h.follows
  exact (hmem n).mp (hnodes.splits.mem_iff.mp hn).1

/-- A search finds the object with the key. -/
theorem find (hk : hf.Key k) (hne : k ≠ []) :
    (hashFind hf t k).map (·.data) = some a ↔ ∃ n, node a = some n ∧ hf.same k n.key = true := by
  obtain ⟨nodes, hnodes, hmem⟩ := h.follows
  rw [hnodes.find hk hne, map_eq_some_iff]
  constructor
  · rintro ⟨n, hfind, rfl⟩
    exact ⟨n, (hmem n).mp (mem_of_find?_eq_some hfind), by simpa using find?_some hfind⟩
  · rintro ⟨n, hn, hsame⟩
    have hin : n ∈ nodes := (hmem n).mpr ((h.data a n hn).1.symm ▸ hn)
    cases hfind : nodes.find? fun n => hf.same k n.key with
    | none => exact absurd hsame (find?_eq_none.mp hfind n hin)
    | some n' =>
      have hin' := mem_of_find?_eq_some hfind
      have hsame' : hf.same k n'.key = true := by simpa using find?_some hfind
      refine ⟨n', rfl, h.unique _ _ n' n ((hmem n').mp hin') hn ?_⟩
      rw [same_iff hk (hnodes.key n hin)] at hsame
      rw [same_iff hk (hnodes.key n' hin')] at hsame'
      exact (same_iff (hnodes.key n' hin') (hnodes.key n hin)).mpr (hsame'.symm.trans hsame)

/-- A new object is added with a new key. -/
theorem add (hlen : hf.cmptype = .memcmp → 0 < hf.hashlen) (hk : hf.Key k) (hne : k ≠ [])
    (hnone : (hashFind hf t k).map (·.data) = none) (ha : node a = none) :
    Indexes hf (hashAdd hf t k a) (update node a (some (added hf t k a))) := by
  obtain ⟨nodes, hnodes, hmem⟩ := h.follows
  have hother : ∀ b n, node b = some n → ¬ hf.same k n.key = true := by
    intro b n hn hsame
    have hfound := (h.find hk hne).mpr ⟨n, hn, hsame⟩
    cases hnone.symm.trans hfound
  have hkey : ∀ b n, node b = some n → hf.Key n.key := fun b n hn =>
    hnodes.key n ((hmem n).mpr ((h.data b n hn).1.symm ▸ hn))
  refine ⟨⟨_, hnodes.add hlen hk hne a, fun n => ?_⟩, fun b n hn => ?_, fun b c n n' hn hn' hsame =>
    ?_⟩
  · rw [mem_cons, hmem, update_eq_some]
    constructor
    · rintro (rfl | hn)
      · exact .inl ⟨rfl, rfl⟩
      · exact .inr ⟨fun heq => absurd ((heq ▸ ha).symm.trans hn) (by simp), hn⟩
    · rintro (⟨-, hn⟩ | ⟨-, hn⟩)
      · exact .inl (some.inj hn).symm
      · exact .inr hn
  · obtain ⟨rfl, hn⟩ | ⟨-, hn⟩ := update_eq_some.mp hn
    · cases hn
      exact ⟨rfl, hne⟩
    · exact h.data b n hn
  · obtain ⟨rfl, hq⟩ | ⟨-, hq⟩ := update_eq_some.mp hn <;> obtain ⟨rfl, hq'⟩ | ⟨-, hq'⟩ :=
      update_eq_some.mp hn'
    · rfl
    · cases hq
      exact absurd hsame (hother c n' hq')
    · cases hq'
      have hnk := hkey b n hq
      exact absurd ((same_iff hk hnk).mpr ((same_iff hnk hk).mp hsame).symm) (hother b n hq)
    · exact h.unique b c n n' hq hq' hsame

/-- The node of an object is deleted. -/
theorem del (hn : node a = some n) :
    ∃ t', hashDelHnode t n = some t' ∧ Indexes hf t' (update node a none) := by
  obtain ⟨nodes, hnodes, hmem⟩ := h.follows
  obtain ⟨hdata, -⟩ := h.data a n hn
  have hold : ∀ {b n'}, update node a none b = some n' → b ≠ a ∧ node b = some n' := by
    intro b n' hn'
    obtain ⟨-, hnone⟩ | hn' := update_eq_some.mp hn'
    · cases hnone
    · exact hn'
  obtain ⟨t', hdel, -, hfollows⟩ := hnodes.delHnode ((hmem n).mpr (hdata.symm ▸ hn))
  refine ⟨t', hdel, ⟨_, hfollows, fun n' => ?_⟩, fun b n' hn' => h.data b n' (hold hn').2,
    fun b c n₁ n₂ h₁ h₂ => h.unique b c n₁ n₂ (hold h₁).2 (hold h₂).2⟩
  rw [(Nodup.of_map _ hnodes.nodup).mem_erase_iff, hmem]
  constructor
  · rintro ⟨hne, hn'⟩
    refine update_eq_some.mpr (.inr ⟨fun heq => hne ?_, hn'⟩)
    rw [heq] at hn'
    exact some.inj (hn'.symm.trans hn)
  · intro hn'
    obtain ⟨hne, hn'⟩ := hold hn'
    exact ⟨fun heq => hne (heq ▸ hdata), hn'⟩

end

end Indexes

/-! ### Objects and their keys -/

/-- Each object with a key has one node, in the bucket of its key, and no other object has a
node. -/
structure Placed (hf : HashF) (t : Table) (key : ℕ → Option Str) : Prop where
  index : ∀ i, ∀ n ∈ t.bucket i, ∃ k, key n.data = some k ∧ hf.index k = i
  nodup : ∀ i, ((t.bucket i).map (·.data)).Nodup
  complete : ∀ p k, key p = some k → ∃ n ∈ t.bucket (hf.index k), n.data = p

namespace Placed

variable {hf : HashF} {t : Table} {key : ℕ → Option Str} {p : ℕ} {k : Str}

theorem empty (hf : HashF) : Placed hf Table.empty fun _ => none where
  index := by simp [Table.bucket, Table.empty]
  nodup := by simp [Table.bucket, Table.empty]
  complete := nofun

theorem not_mem_of_none (h : Placed hf t key) (hp : key p = none) {i : ℕ} {n : Node}
    (hn : n ∈ t.bucket i) :
    n.data ≠ p := by
  rintro rfl
  obtain ⟨k, hk, -⟩ := h.index i n hn
  cases hp.symm.trans hk

/-- An object without a key gets one. -/
theorem add (h : Placed hf t key) (hlen : hf.cmptype = .memcmp → 0 < hf.hashlen) (hp : key p = none)
    (k : Str) :
    Placed hf (hashAdd hf t k p) (update key p (Nick.key k)) := by
  rw [hashAdd, Nick.key]
  split_ifs with hnil
  · rwa [← hp, update_eq_self]
  have hbucket : ∀ i, Table.bucket { t.setBucket (hf.index k) (⟨t.fresh, k, p, hf.index k⟩ ::
      t.bucket (hf.index k)) with fresh := t.fresh + 1 } i =
      update t.bucket (hf.index k) (⟨t.fresh, k, p, hf.index k⟩ :: t.bucket (hf.index k))
          i := fun i =>
    congrFun (bucket_setBucket t _ _) i
  dsimp only
  rw [func_eq_index hlen]
  refine ⟨fun i n hn => ?_, fun i => ?_, fun q k' hq => ?_⟩
  · rw [hbucket] at hn
    have hcases : n.data = p ∧ i = hf.index k ∨ n ∈ t.bucket i := by
      rw [update_apply] at hn
      split_ifs at hn with hi
      · obtain rfl | hn := mem_cons.mp hn
        · exact .inl ⟨rfl, hi⟩
        · exact .inr (hi ▸ hn)
      · exact .inr hn
    obtain ⟨hdata, hi⟩ | hold := hcases
    · exact ⟨k, by rw [hdata, update_self], hi.symm⟩
    · rw [update_of_ne (h.not_mem_of_none hp hold)]
      exact h.index i n hold
  · rw [hbucket, update_apply]
    split_ifs
    · rw [map_cons, nodup_cons]
      refine ⟨fun hmem => ?_, h.nodup _⟩
      obtain ⟨n, hn, hdata⟩ := mem_map.mp hmem
      exact h.not_mem_of_none hp hn hdata
    · exact h.nodup i
  · obtain ⟨rfl, hk⟩ | ⟨-, hk⟩ := update_eq_some.mp hq
    · cases hk
      exact ⟨_, by rw [hbucket, update_self]; exact mem_cons_self, rfl⟩
    · obtain ⟨n, hn, hdata⟩ := h.complete q k' hk
      refine ⟨n, ?_, hdata⟩
      rw [hbucket, update_apply]
      split_ifs with hi
      · exact mem_cons_of_mem _ (hi ▸ hn)
      · exact hn

/-- What is left after the first node of an object in the bucket of its key is deleted. -/
theorem bucket_hashDel (h : Placed hf t key) (hp : ∀ k', key p = some k' → k' = k ∧ k ≠ [])
    (i : ℕ) :
    (hashDel hf t k p).bucket i = (t.bucket i).filter fun n => n.data ≠ p := by
  have hother : i ≠ hf.index k ∨ k = [] → ∀ n ∈ t.bucket i, n.data ≠ p := by
    rintro hi n hn rfl
    obtain ⟨k', hk', hindex⟩ := h.index i n hn
    obtain ⟨rfl, hne⟩ := hp k' hk'
    exact hi.elim (fun hi => hi hindex.symm) hne
  rw [hashDel]
  split_ifs with hnil
  · rw [filter_eq_self.mpr fun n hn => decide_eq_true (hother (.inr hnil) n hn)]
  · rw [bucket_setBucket]
    by_cases hi : i = hf.index k
    · subst hi
      rw [update_self]
      exact eraseP_eq_filter (h.nodup _)
    · rw [update_of_ne hi, filter_eq_self.mpr fun n hn => decide_eq_true (hother (.inl hi) n hn)]

/-- An object loses its key. -/
theorem del (h : Placed hf t key) (hp : ∀ k', key p = some k' → k' = k ∧ k ≠ []) :
    Placed hf (hashDel hf t k p) (update key p none) := by
  have hbucket := h.bucket_hashDel hp
  refine ⟨fun i n hn => ?_, fun i => ?_, fun q k' hq => ?_⟩
  · rw [hbucket, mem_filter, decide_eq_true_iff] at hn
    rw [update_of_ne hn.2]
    exact h.index i n hn.1
  · rw [hbucket]
    exact (h.nodup i).sublist (filter_sublist.map _)
  · obtain ⟨-, hk⟩ | ⟨hqp, hk⟩ := update_eq_some.mp hq
    · cases hk
    · obtain ⟨n, hn, rfl⟩ := h.complete q k' hk
      exact ⟨n, by rw [hbucket, mem_filter, decide_eq_true_iff]; exact ⟨hn, hqp⟩, rfl⟩

end Placed

/-- **The tables.** For each table that `init_hash` makes: the number of a bucket is below the size,
equal keys are in one bucket, and after any operations in which each key that is deleted finds its
own node, a search gives the newest entry with an equal key that was not removed, or all of them. -/
theorem table_spec {hf : HashF} (h : some hf ∈ initHash) :
    (∀ k, hf.index k < 2 ^ hf.hashbits) ∧
    (∀ k k', hf.Key k → hf.Key k' → hf.same k k' = true → hf.index k = hf.index k') ∧
    ∀ ops t, (∀ op ∈ ops, op.Key hf) → Run.StepsMeet (step hf) (FindsOwn hf) Table.empty ops →
      Run.run (step hf) Table.empty ops = some t →
      hashFind hf t [] = none ∧ hashFindList hf t [] = none ∧
      ∀ k, hf.Key k → k ≠ [] →
        (hashFind hf t k).map Node.entry =
          (ops.foldl (Op.store hf) ⟨[], 0⟩).entries.find? (fun e => hf.same k e.key) ∧
        (hashFindList hf t k).getD [] =
          (((ops.foldl (Op.store hf) ⟨[], 0⟩).entries.filter fun e => hf.same k e.key).map
            (·.data)).reverse ∧
        hashFindList hf t k ≠ some [] := by
  refine ⟨index_lt h, fun k k' hk hk' => index_eq_of_same hk hk', fun ops t hkeys hown hrun => ⟨?_,
    ?_, ?_⟩⟩
  · rw [hashFind, if_pos rfl]
  · rw [hashFindList, if_pos rfl]
  · have hempty : Refines hf Table.empty ⟨[], 0⟩ :=
      ⟨[], ⟨splits_nil, by simp, by simp, by simp, nodup_nil⟩, rfl, rfl⟩
    exact fun k hk hne => (hempty.run (bits_of_initHash h).2.2 hkeys hown hrun).find hk hne

/-- The table of channels. -/
def channels : HashF := ⟨.irccmp, 16, 30⟩

/-- Two long names in one bucket. -/
def long (c : Char) : Str := replicate 30 'a' ++ [c]

/-- One pointer is added with two keys of a bucket, and the older one is deleted: the newer one is
missing, and the older one is still found. -/
theorem hashDel_other : some channels ∈ initHash ∧ channels.same (long 'x') (long 'y') = false ∧
    ∃ t, Run.run (step channels) Table.empty [.add (long 'x') 5, .add (long 'y') 5,
      .del (long 'x') 5] = some t ∧ hashFind channels t (long 'y') = none ∧
      (hashFind channels t (long 'x')).isSome = true ∧
      ([.add (long 'x') 5, .add (long 'y') 5, .del (long 'x') 5].foldl (Op.store channels)
        ⟨[], 0⟩).entries = [⟨1, long 'y', 5⟩] :=
  ⟨by decide, by decide +kernel, _, rfl, by decide +kernel, by decide +kernel, by decide +kernel⟩

/-- A channel is added twice and deleted once. -/
theorem table_spec_small : ∃ t,
    Run.run (step channels) Table.empty [.add ['#', 'a'] 5, .add ['#', 'A'] 6, .del ['#', 'a'] 6] =
      some t ∧ (hashFind channels t ['#', 'A']).map Node.entry = some ⟨0, ['#', 'a'], 5⟩ := by
  refine ⟨_, rfl, ?_⟩
  have hkey : ∀ k, channels.Key k := nofun
  have hspec := (@table_spec channels (by decide)).2.2
    [.add ['#', 'a'] 5, .add ['#', 'A'] 6, .del ['#', 'a'] 6] _ ?_ ?_ rfl
  · exact (hspec.2.2 ['#', 'A'] (hkey _) (by decide)).1.trans (by decide +kernel)
  · simp [Op.Key, hkey]
  · refine ⟨trivial, fun t ht => ⟨trivial, fun t' ht' => ⟨fun n hn => ?_, fun _ _ => trivial⟩⟩⟩
    cases ht
    cases ht'
    have hfound :
        (((hashAdd channels (hashAdd channels Table.empty ['#', 'a'] 5) ['#', 'A'] 6).bucket
        (channels.index ['#', 'a'])).find? fun n => n.data = 6).map Node.entry = some ⟨1,
            ['#', 'A'], 6⟩ := by
      decide +kernel
    obtain ⟨n', hn', hentry⟩ := map_eq_some_iff.mp hfound
    obtain rfl := some.inj (hn'.symm.trans hn)
    rw [show n'.key = ['#', 'A'] from congrArg Entry.key hentry]
    decide +kernel

end Ratbox.Hash
