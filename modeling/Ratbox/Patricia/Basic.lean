import Ratbox.Address
import Ratbox.Lib.CritBit
import Mathlib.Data.List.Basic

/-!
# Patricia trees

A `rb_patricia_tree_t` holds prefixes of addresses. A node has the number of the bit that it tests,
links to its children and its parent, and a prefix, unless it is glue, which only tests a bit. The
functions go down a tree by the bits of an address, and up again by the links to the parents.

Source: `libratbox/src/patricia.c` and `libratbox/include/rb_patricia.h`.

## Main definitions

* `Patricia.Prefix`, `Patricia.Node`, `Patricia.Tree`: `rb_prefix_t`, `rb_patricia_node_t` and
  `rb_patricia_tree_t`, with the memory that holds the nodes.
* `Patricia.Tree.searchExact`, `Patricia.Tree.searchBest2`: `rb_patricia_search_exact` and
  `rb_patricia_search_best2`.
* `Patricia.Tree.lookup`, `Patricia.Tree.remove`: `rb_patricia_lookup` and `rb_patricia_remove`.

A function fails (`none`) where the C function follows a pointer to nothing or an assertion fails.
The loops go down or up the tree, and are bounded by the number of bits. The reference counts of
prefixes are left out.
-/

namespace Ratbox.Patricia

open Address Function

/-! ### Prefixes -/

/-- `rb_prefix_t`. The list `add` has the bytes of the address: four or sixteen. -/
structure Prefix where
  family : Family
  bitlen : ℕ
  add : List UInt8
  deriving DecidableEq

/-- `rb_prefix_touchar`. The memory of a prefix is zero behind the bytes of the address. -/
def Prefix.touchar (p : Prefix) : Bytes := fun i => p.add.getD i 0

/-- `BIT_TEST(addr[b >> 3], 0x80 >> (b & 0x07))`. -/
def bitTest (addr : Bytes) (b : ℕ) : Bool := addr (b / 8) &&& (0x80 >>> UInt8.ofNat (b % 8)) != 0

/-- `comp_with_mask`. -/
def compWithMask (addr dest : Bytes) (mask : ℕ) : Bool :=
  let n := mask / 8
  let m := UInt8.ofNat (0xff <<< (8 - mask % 8))
  (List.range n).all (fun i => addr i == dest i) &&
    (mask % 8 == 0 || addr n &&& m == dest n &&& m)

/-! ### Nodes -/

/-- The address of a node. -/
abbrev Addr := ℕ

/-- `rb_patricia_node_t`, with data of a type. -/
structure Node (δ : Type) where
  bit : ℕ
  pfx : Option Prefix
  l : Option Addr
  r : Option Addr
  parent : Option Addr
  data : Option δ
  deriving DecidableEq

/-- `rb_patricia_tree_t`, the memory of its nodes, and the next address to allocate a node at. A
freed address is not used again. -/
structure Tree (δ : Type) where
  node : Addr → Option (Node δ)
  fresh : Addr
  head : Option Addr
  maxbits : ℕ
  numActiveNode : ℤ

variable {δ : Type}

/-- `rb_new_patricia`. -/
def new (maxbits : ℕ) : Tree δ := ⟨fun _ => none, 0, none, maxbits, 0⟩

/-- The child on a side. -/
def Node.child (n : Node δ) (d : Bool) : Option Addr := if d then n.r else n.l

/-- A side has another child. -/
def Node.setChild (n : Node δ) (d : Bool) (c : Option Addr) : Node δ :=
  if d then { n with r := c } else { n with l := c }

section SetChild

variable (n : Node δ) (d e : Bool) (c : Option Addr)

theorem Node.child_setChild : (n.setChild d c).child e = if e = d then c else n.child e := by
  cases d <;> cases e <;> rfl

@[simp] theorem Node.bit_setChild : (n.setChild d c).bit = n.bit := by cases d <;> rfl

@[simp] theorem Node.pfx_setChild : (n.setChild d c).pfx = n.pfx := by cases d <;> rfl

@[simp] theorem Node.parent_setChild : (n.setChild d c).parent = n.parent := by cases d <;> rfl

@[simp] theorem Node.data_setChild : (n.setChild d c).data = n.data := by cases d <;> rfl

end SetChild

namespace Tree

/-- A node is allocated. -/
def alloc (t : Tree δ) (n : Node δ) : Tree δ :=
  { t with
    node := update t.node t.fresh (some n)
    fresh := t.fresh + 1
    numActiveNode := t.numActiveNode + 1 }

/-- A node is freed. -/
def free (t : Tree δ) (a : Addr) : Tree δ :=
  { t with node := update t.node a none, numActiveNode := t.numActiveNode - 1 }

/-- A node is written. -/
def modify (t : Tree δ) (a : Addr) (f : Node δ → Node δ) : Tree δ :=
  { t with node := update t.node a ((t.node a).map f) }

/-- Where a node is the child of its parent, or the head, there is another one. -/
def replaceChild (t : Tree δ) (parent : Option Addr) (a : Addr) (c : Option Addr) :
    Option (Tree δ) :=
  match parent with
  | none => if t.head = some a then some { t with head := c } else none
  | some q => do
    let n ← t.node q
    if n.r = some a then some (t.modify q (·.setChild true c))
    else if n.l = some a then some (t.modify q (·.setChild false c))
    else none

/-! ### Searching -/

/-- The loop of `rb_patricia_search_exact`. It ends at a node, or at a missing child. -/
def exactLoop (t : Tree δ) (addr : Bytes) (bitlen : ℕ) : ℕ → Addr → Option (Option Addr)
  | 0, _ => none
  | fuel + 1, a => do
    let node ← t.node a
    if node.bit < bitlen then
      match node.child (bitTest addr node.bit) with
      | none => some none
      | some c => exactLoop t addr bitlen fuel c
    else some (some a)

/-- `rb_patricia_search_exact`. -/
def searchExact (t : Tree δ) (p : Prefix) : Option (Option Addr) :=
  if t.maxbits < p.bitlen then none
  else
    match t.head with
    | none => some none
    | some head => do
      match ← t.exactLoop p.touchar p.bitlen (t.maxbits + 1) head with
      | none => some none
      | some a =>
        let node ← t.node a
        match node.pfx with
        | none => some none
        | some q =>
          if p.bitlen < node.bit then some none
          else if compWithMask q.touchar p.touchar p.bitlen then some (some a)
          else some none

/-- The loop of `rb_patricia_search_best2`. It ends at a node, or at a missing child, with the nodes
on the stack, the last one first. -/
def bestLoop (t : Tree δ) (addr : Bytes) (bitlen : ℕ) :
    ℕ → List Addr → Addr → Option (List Addr × Option Addr)
  | 0, _, _ => none
  | fuel + 1, stack, a => do
    let node ← t.node a
    if node.bit < bitlen then
      let stack := if node.pfx.isSome then a :: stack else stack
      match node.child (bitTest addr node.bit) with
      | none => some (stack, none)
      | some c => bestLoop t addr bitlen fuel stack c
    else some (stack, some a)

/-- The nodes of the stack are tried, the last one first. -/
def popLoop (t : Tree δ) (addr : Bytes) : List Addr → Option (Option Addr)
  | [] => some none
  | a :: stack => do
    let node ← t.node a
    let q ← node.pfx
    if compWithMask q.touchar addr q.bitlen then some (some a) else popLoop t addr stack

/-- `rb_patricia_search_best2`. -/
def searchBest2 (t : Tree δ) (p : Prefix) (inclusive : Bool) : Option (Option Addr) :=
  if t.maxbits < p.bitlen then none
  else
    match t.head with
    | none => some none
    | some head => do
      let (stack, stop) ← t.bestLoop p.touchar p.bitlen (t.maxbits + 1) [] head
      match stop with
      | none => t.popLoop p.touchar stack
      | some a =>
        let node ← t.node a
        t.popLoop p.touchar (if inclusive && node.pfx.isSome then a :: stack else stack)

/-- `rb_patricia_search_best`. -/
def searchBest (t : Tree δ) (p : Prefix) : Option (Option Addr) := t.searchBest2 p true

/-! ### Inserting -/

/-- The first bit of a byte that is set. -/
def firstBit (r : UInt8) : ℕ :=
  ((List.range 8).find? fun j => r &&& (0x80 >>> UInt8.ofNat j) != 0).getD 8

/-- The loop of `rb_patricia_lookup` that compares bytes. -/
def differLoop (addr test : Bytes) (check : ℕ) : ℕ → ℕ → ℕ → ℕ
  | 0, _, differ => differ
  | fuel + 1, i, differ =>
    if i * 8 < check then
      let r := addr i ^^^ test i
      if r = 0 then differLoop addr test check fuel (i + 1) ((i + 1) * 8)
      else i * 8 + firstBit r
    else differ

/-- `differ_bit`. -/
def differBit (addr test : Bytes) (check : ℕ) : ℕ :=
  let differ := differLoop addr test check (check + 1) 0 0
  if check < differ then check else differ

/-- The side of a node that an address is on. -/
def side (t : Tree δ) (addr : Bytes) (bit : ℕ) : Bool :=
  decide (bit < t.maxbits) && bitTest addr bit

/-- The loop of `rb_patricia_lookup` that goes down. -/
def downLoop (t : Tree δ) (addr : Bytes) (bitlen : ℕ) : ℕ → Addr → Option Addr
  | 0, _ => none
  | fuel + 1, a => do
    let node ← t.node a
    if node.bit < bitlen ∨ node.pfx = none then
      match node.child (t.side addr node.bit) with
      | none => some a
      | some c => downLoop t addr bitlen fuel c
    else some a

/-- The loop of `rb_patricia_lookup` that goes up. -/
def upLoop (t : Tree δ) (differ : ℕ) : ℕ → Addr → Option Addr
  | 0, _ => none
  | fuel + 1, a => do
    let node ← t.node a
    match node.parent with
    | none => some a
    | some q =>
      let parent ← t.node q
      if differ ≤ parent.bit then upLoop t differ fuel q else some a

/-- A node for a prefix, without children. -/
def leaf (p : Prefix) (parent : Option Addr) : Node δ :=
  ⟨p.bitlen, some p, none, none, parent, none⟩

/-- `rb_patricia_lookup`. -/
def lookup (t : Tree δ) (p : Prefix) : Option (Tree δ × Addr) :=
  if t.maxbits < p.bitlen then none
  else
    match t.head with
    | none => some ({ t.alloc (leaf p none) with head := some t.fresh }, t.fresh)
    | some head => do
      let addr := p.touchar
      let stop ← t.downLoop addr p.bitlen (t.maxbits + 1) head
      let node ← t.node stop
      let test := (← node.pfx).touchar
      let differ := differBit addr test (if node.bit < p.bitlen then node.bit else p.bitlen)
      let a ← t.upLoop differ (t.maxbits + 1) stop
      let node ← t.node a
      if differ = p.bitlen ∧ node.bit = p.bitlen then
        if node.pfx.isSome then some (t, a)
        else if node.data.isSome then none
        else some (t.modify a fun n => { n with pfx := some p }, a)
      else
        let new := t.fresh
        if node.bit = differ then
          let d := t.side addr node.bit
          if (node.child d).isSome then none
          else some ((t.alloc (leaf p (some a))).modify a (·.setChild d (some new)), new)
        else if p.bitlen = differ then
          let t ← (t.alloc ((leaf p node.parent).setChild (t.side test p.bitlen)
            (some a))).replaceChild node.parent a (some new)
          some (t.modify a fun n => { n with parent := some new }, new)
        else
          let glue := t.fresh + 1
          let d := t.side addr differ
          let t ← ((t.alloc (leaf p (some glue))).alloc
            (((⟨differ, none, none, none, node.parent, none⟩ : Node δ).setChild d
              (some new)).setChild (!d) (some a))).replaceChild node.parent a (some glue)
          some (t.modify a fun n => { n with parent := some glue }, new)

/-! ### Removing -/

/-- A node that has one child, or none, is taken out: its child stands in its place. -/
def bypass (t : Tree δ) (a : Addr) (parent child : Option Addr) : Option (Tree δ) := do
  let t ← t.replaceChild parent a child
  match child with
  | none => some (t.free a)
  | some c =>
    let _ ← t.node c
    some ((t.modify c fun n => { n with parent := parent }).free a)

/-- `rb_patricia_remove`. -/
def remove (t : Tree δ) (a : Addr) : Option (Tree δ) := do
  let node ← t.node a
  match node.l, node.r with
  | some _, some _ => some (t.modify a fun n => { n with pfx := none, data := none })
  | none, none =>
    let t ← t.bypass a node.parent none
    match node.parent with
    | none => some t
    | some q =>
      let parent ← t.node q
      if parent.pfx.isSome then some t
      else
        -- the parent was glue, and goes too
        let child ← if parent.r = none then parent.l else parent.r
        t.bypass q parent.parent (some child)
  | some c, none | none, some c => t.bypass a node.parent (some c)

end Tree

end Ratbox.Patricia
