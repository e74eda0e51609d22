import Mathlib.Data.List.Nodup
import Mathlib.Data.List.Perm.Subperm
import Mathlib.Algebra.Group.Nat.Defs

/-!
# Intrusive doubly linked lists

The lists of the daemon are chains of `rb_dlink_node`s that are embedded in the objects they link.
An object that is on several lists has a node for each, so that a node is on at most one list. The
operations trust their caller: deleting a node from a list it is not on writes the ends of that
list.

The links of all nodes of one kind form a `Heap`; `IsList` says which nodes a list has, in order.
Every operation has a theorem about `IsList`, and one that says which links it leaves alone.

Source: `libratbox/include/rb_tools.h`, lines 50–240, and `libratbox/src/tools.c`, lines 40–79.

## Main definitions

* `Dlink.Node`, `Dlink.Heap`, `Dlink.DList`: `rb_dlink_node` and `rb_dlink_list`.
* `Dlink.add`, `Dlink.addTail`, `Dlink.delete`, `Dlink.moveNode`: the operations.
* `Dlink.IsList`: the nodes of a list.
* `Dlink.Coherent`: the links of nodes go both ways, although a list may have lost some of its
  nodes.

## Main results

* `Dlink.IsList.add`, `Dlink.IsList.addTail`, `Dlink.IsList.delete`, `Dlink.IsList.moveNode`: the
  operations on lists that the nodes are on.
* `Dlink.Coherent.add`, `Dlink.Coherent.delete`, `Dlink.Coherent.delete_unlinked`: what they keep
  otherwise.
* `Dlink.IsList.walk`: walking a list meets its nodes in order.
-/

namespace Ratbox.Dlink

open Dlink

variable {ν : Type*} {n : ℕ} {y : ν}

/-- The links of an `rb_dlink_node`. -/
structure Node (ν : Type*) where
  prev : Option ν
  next : Option ν
  deriving DecidableEq

/-- The links of the nodes of one kind. -/
abbrev Heap (ν : Type*) := ν → Node ν

/-- `rb_dlink_list`. -/
structure DList (ν : Type*) where
  head : Option ν
  tail : Option ν
  length : ℕ
  deriving DecidableEq

/-- `rb_free`, for a node that `rb_dlinkAddAlloc` made. The node is a piece of a block of
`dnode_heap`, and `free` ends the program for what `malloc` did not return. -/
def freeNode {σ : Type*} (_ : σ) : Option σ := none

/-- A zeroed list. -/
def DList.empty : DList ν := ⟨none, none, 0⟩

/-- `length--` on an `unsigned long` of 64 bits. No list has `2 ^ 64` nodes, so that `length++`
does not wrap. -/
def dec (n : ℕ) : ℕ := if n = 0 then 2 ^ 64 - 1 else n - 1

section Operations

variable [DecidableEq ν]

/-- Write the `prev` of a node. -/
def setPrev (h : Heap ν) (m : ν) (p : Option ν) : Heap ν :=
  Function.update h m { h m with prev := p }

/-- Write the `next` of a node. -/
def setNext (h : Heap ν) (m : ν) (n : Option ν) : Heap ν :=
  Function.update h m { h m with next := n }

/-- `rb_dlinkAdd`: put a node in front. -/
def add (h : Heap ν) (m : ν) (l : DList ν) : Heap ν × DList ν :=
  let h := Function.update h m ⟨none, l.head⟩
  match l.head with
  | some x => (setPrev h x (some m), { l with head := some m, length := l.length + 1 })
  | none =>
    (h, { head := some m, tail := if l.tail = none then some m else l.tail,
          length := l.length + 1 })

/-- `rb_dlinkAddTail`: put a node behind the others. -/
def addTail (h : Heap ν) (m : ν) (l : DList ν) : Heap ν × DList ν :=
  let h := Function.update h m ⟨l.tail, none⟩
  match l.tail with
  | some x => (setNext h x (some m), { l with tail := some m, length := l.length + 1 })
  | none =>
    (h, { head := if l.head = none then some m else l.head, tail := some m,
          length := l.length + 1 })

/-- The first half of `rb_dlinkDelete` and `rb_dlinkMoveNode`: the neighbours of a node, or the
ends of the list, are linked past it. -/
def unlink (h : Heap ν) (m : ν) (l : DList ν) : Heap ν × DList ν :=
  let (h, l) := match (h m).next with
    | some n => (setPrev h n (h m).prev, l)
    | none => (h, { l with tail := (h m).prev })
  match (h m).prev with
  | some p => (setNext h p (h m).next, l)
  | none => (h, { l with head := (h m).next })

/-- `rb_dlinkDelete`. -/
def delete (h : Heap ν) (m : ν) (l : DList ν) : Heap ν × DList ν :=
  let (h, l) := unlink h m l
  (Function.update h m ⟨none, none⟩, { l with length := dec l.length })

/-- `rb_dlinkMoveNode`: take a node off a list and put it in front of another one. -/
def moveNode (h : Heap ν) (m : ν) (oldlist newlist : DList ν) : Heap ν × DList ν × DList ν :=
  let (h, oldlist) := unlink h m oldlist
  let (h, newlist) := add h m newlist
  (h, { oldlist with length := dec oldlist.length }, newlist)

end Operations

/-- `RB_DLINK_FOREACH`: the nodes met from `pos` on, at most `n` of them. -/
def walk (h : Heap ν) : ℕ → Option ν → List ν
  | 0, _ => []
  | _, none => []
  | n + 1, some m => m :: walk h n (h m).next

/-! ### Chains -/

/-- The nodes `xs` are linked in order, the first one to `pr` before it and the last one to `nx`
behind it. -/
def Chain (h : Heap ν) (pr : Option ν) : List ν → Option ν → Prop
  | [], _ => True
  | x :: xs, nx => h x = ⟨pr, xs.head?.or nx⟩ ∧ Chain h (some x) xs nx

theorem chain_append (h : Heap ν) (pr : Option ν) (xs ys : List ν) (nx : Option ν) :
    Chain h pr (xs ++ ys) nx ↔
      Chain h pr xs (ys.head?.or nx) ∧ Chain h (xs.getLast?.or pr) ys nx := by
  induction xs generalizing pr with
  | nil => simp [Chain]
  | cons x xs ih =>
    have hhead : ((xs ++ ys).head?.or nx) = xs.head?.or (ys.head?.or nx) := by
      rw [List.head?_append, Option.or_assoc]
    have hlast : ((x :: xs).getLast?.or pr) = xs.getLast?.or (some x) := by
      cases hx : xs.getLast? with
      | none => simp [List.getLast?_eq_none_iff.mp hx]
      | some y => simp [List.getLast?_cons, hx]
    simp only [List.cons_append, Chain, hhead, ih, hlast, and_assoc]

variable {h h : Heap ν} {xs : List ν} {h' : Heap ν} {pr : Option ν} {l l newlist : DList ν} {m : ν}
  {P Q : ν → Prop} {l' : DList ν}

theorem Chain.congr {nx : Option ν} (hc : Chain h pr xs nx)
    (heq : ∀ x ∈ xs, h' x = h x) : Chain h' pr xs nx := by
  induction xs generalizing pr with
  | nil => trivial
  | cons x xs ih =>
    exact ⟨(heq x List.mem_cons_self).trans hc.1,
      ih hc.2 fun y hy => heq y (List.mem_cons_of_mem x hy)⟩

/-- Walking a chain meets its nodes in order. -/
theorem Chain.walk (hc : Chain h pr xs none) (hn : xs.length ≤ n) : walk h n xs.head? = xs := by
  induction xs generalizing pr n with
  | nil => cases n <;> simp [Dlink.walk]
  | cons x xs ih =>
    obtain ⟨n, rfl⟩ : ∃ m, n = m + 1 := ⟨n - 1, by simp at hn; omega⟩
    have hnext : (h x).next = xs.head? := by
      rw [hc.1, Option.or_none]
    rw [List.head?_cons, Dlink.walk, hnext, ih hc.2 (by simpa using hn)]

/-! ### Lists -/

/-- The nodes of the list `l` are `xs`, in order. -/
structure IsList (h : Heap ν) (l : DList ν) (xs : List ν) : Prop where
  nodup : xs.Nodup
  head : l.head = xs.head?
  tail : l.tail = xs.getLast?
  length : l.length = xs.length
  chain : Chain h none xs none

theorem isList_empty (h : Heap ν) : IsList h DList.empty [] :=
  ⟨List.nodup_nil, rfl, rfl, rfl, trivial⟩

theorem IsList.congr (hl : IsList h l xs) (heq : ∀ x ∈ xs, h' x = h x) : IsList h' l xs :=
  { hl with chain := hl.chain.congr heq }

/-- Walking a list meets its nodes in order. -/
theorem IsList.walk (hl : IsList h l xs) (hn : xs.length ≤ n) : walk h n l.head = xs := by
  rw [hl.head, hl.chain.walk hn]

/-- The nodes of a list are determined. -/
theorem IsList.unique {ys : List ν} (hx : IsList h l xs) (hy : IsList h l ys) : xs = ys :=
  (hx.walk (Nat.le_max_left _ ys.length)).symm.trans (hy.walk (Nat.le_max_right xs.length _))

/-! ### The operations -/

variable [DecidableEq ν] {x : ν}

/-- Writing the `prev` of the first node. -/
theorem Chain.setPrev {nx : Option ν}
    (hc : Chain h pr (x :: xs) nx) (hx : x ∉ xs) (pr' : Option ν) :
    Chain (setPrev h x pr') pr' (x :: xs) nx := by
  refine ⟨by simp [Dlink.setPrev, hc.1], hc.2.congr fun y hy => ?_⟩
  exact Function.update_of_ne (ne_of_mem_of_not_mem hy hx) ..

/-- Writing the `next` of the last node. -/
theorem Chain.setNext {nx : Option ν}
    (hc : Chain h pr (xs ++ [x]) nx) (hx : x ∉ xs) (nx' : Option ν) :
    Chain (setNext h x nx') pr (xs ++ [x]) nx' := by
  rw [chain_append] at hc ⊢
  refine ⟨hc.1.congr fun y hy => Function.update_of_ne (ne_of_mem_of_not_mem hy hx) .., ?_, ?_⟩
  · simp [Dlink.setNext, hc.2.1]
  · trivial

theorem IsList.add (hl : IsList h l xs) (hm : m ∉ xs) :
    IsList (add h m l).1 (add h m l).2 (m :: xs) := by
  obtain ⟨hnd, hhead, htail, hlen, hchain⟩ := hl
  have hframe : Chain (Function.update h m ⟨none, l.head⟩) none xs none :=
    hchain.congr fun x hx => Function.update_of_ne (ne_of_mem_of_not_mem hx hm) ..
  cases xs with
  | nil =>
    simp only [Dlink.add, hhead, htail, List.head?_nil, List.getLast?_nil, ↓reduceIte]
    exact ⟨by simp, rfl, rfl, by simp [hlen], by simp [Chain]⟩
  | cons x xs =>
    have hx : x ∉ xs := (List.nodup_cons.mp hnd).1
    have hmx : m ≠ x := fun hmx => hm (hmx ▸ List.mem_cons_self)
    simp only [Dlink.add, hhead, List.head?_cons] at hframe ⊢
    refine ⟨List.nodup_cons.mpr ⟨hm, hnd⟩, rfl, ?_, by simp [hlen], ?_, ?_⟩
    · simp [htail, List.getLast?_cons_cons]
    · simp [Dlink.setPrev, Function.update_of_ne hmx]
    · exact hframe.setPrev hx (some m)

/-- Adding a node writes only its links and those of the first node. -/
theorem add_frame (hhead : l.head = xs.head?) (hm : y ≠ m) (hy : y ∉ xs) :
    (add h m l).1 y = h y := by
  rw [add]
  cases hl : l.head with
  | none => exact Function.update_of_ne hm ..
  | some x =>
    have hx : x ∈ xs := List.mem_of_head? (hhead ▸ hl)
    simp only [setPrev]
    rw [Function.update_of_ne (ne_of_mem_of_not_mem hx hy).symm, Function.update_of_ne hm]

theorem IsList.addTail (hl : IsList h l xs) (hm : m ∉ xs) :
    IsList (addTail h m l).1 (addTail h m l).2 (xs ++ [m]) := by
  obtain ⟨hnd, hhead, htail, hlen, hchain⟩ := hl
  have hframe : Chain (Function.update h m ⟨l.tail, none⟩) none xs none :=
    hchain.congr fun x hx => Function.update_of_ne (ne_of_mem_of_not_mem hx hm) ..
  have hnd' : (xs ++ [m]).Nodup := List.nodup_append'.mpr
    ⟨hnd, List.nodup_singleton m, fun x hx hxm => hm (List.mem_singleton.mp hxm ▸ hx)⟩
  rcases List.eq_nil_or_concat xs with rfl | ⟨xs, x, rfl⟩
  · simp only [Dlink.addTail, hhead, htail, List.head?_nil, List.getLast?_nil, ↓reduceIte]
    exact ⟨by simp, rfl, rfl, by simp [hlen], by simp [Chain]⟩
  · rw [List.concat_eq_append] at *
    have hx : x ∉ xs := fun hx => (List.nodup_append'.mp hnd).2.2 hx List.mem_cons_self
    have hmx : m ≠ x := fun hmx => hm (by simp [hmx])
    have hlast : l.tail = some x := by simp [htail]
    simp only [Dlink.addTail, hlast] at hframe ⊢
    refine ⟨hnd', ?_, by simp, by simp [hlen], ?_⟩
    · simp [hhead]
    · rw [chain_append]
      refine ⟨hframe.setNext hx _, ?_⟩
      simp [Chain, Dlink.setNext, Function.update_of_ne hmx]

/-- Adding a node at the end writes only its links and those of the last node. -/
theorem addTail_frame (htail : l.tail = xs.getLast?) (hm : y ≠ m) (hy : y ∉ xs) :
    (addTail h m l).1 y = h y := by
  rw [addTail]
  cases hl : l.tail with
  | none => exact Function.update_of_ne hm ..
  | some x =>
    have hx : x ∈ xs := List.mem_of_getLast? (htail ▸ hl)
    simp only [setNext]
    rw [Function.update_of_ne (ne_of_mem_of_not_mem hx hy).symm, Function.update_of_ne hm]

/-- The nodes left after one is linked past. -/
theorem IsList.unlink {a b : List ν} (hl : IsList h l (a ++ m :: b)) :
    Chain (unlink h m l).1 none (a ++ b) none ∧
      (unlink h m l).2 = { l with head := (a ++ b).head?, tail := (a ++ b).getLast? } ∧
      ∀ y ∉ a ++ b, (unlink h m l).1 y = h y := by
  obtain ⟨hnd, hhead, htail, -, hchain⟩ := hl
  obtain ⟨hchain_a, hm, hchain_b⟩ := (chain_append ..).mp hchain
  obtain ⟨hnd_a, hnd_mb, hab⟩ := List.nodup_append'.mp hnd
  obtain ⟨hmb, hnd_b⟩ := List.nodup_cons.mp hnd_mb
  have hma : m ∉ a := fun hma => hab hma List.mem_cons_self
  have hdisj : ∀ y ∈ a, y ∉ b := fun y hya hyb => hab hya (List.mem_cons_of_mem m hyb)
  simp only [Option.or_none] at hm
  -- the next node, or the tail
  obtain ⟨h₁, l₁, hstep, hl₁, hb₁, hframe₁⟩ : ∃ h₁ l₁,
      (match (h m).next with
        | some n => (setPrev h n (h m).prev, l)
        | none => (h, { l with tail := (h m).prev })) = (h₁, l₁) ∧
      l₁ = { l with tail := (a ++ b).getLast? } ∧ Chain h₁ a.getLast? b none ∧
      ∀ y ∉ b, h₁ y = h y := by
    rw [hm]
    cases b with
    | nil => exact ⟨h, _, rfl, by simp, trivial, fun y _ => rfl⟩
    | cons n b =>
      refine ⟨_, l, rfl, ?_, hchain_b.setPrev (List.nodup_cons.mp hnd_b).1 _, fun y hy => ?_⟩
      · have : l.tail = (a ++ n :: b).getLast? := by rw [htail]; simp
        rw [← this]
      · exact Function.update_of_ne (ne_of_mem_of_not_mem List.mem_cons_self hy).symm ..
  have hm₁ : h₁ m = ⟨a.getLast?, b.head?⟩ := (hframe₁ m hmb).trans hm
  have ha₁ : Chain h₁ none a (some m) := hchain_a.congr fun y hy => hframe₁ y (hdisj y hy)
  rw [Dlink.unlink, hstep]
  simp only [hm₁, hl₁]
  -- the previous node, or the head
  rcases List.eq_nil_or_concat a with rfl | ⟨a, p, rfl⟩
  · refine ⟨by simpa using hb₁, by simp, fun y hy => hframe₁ y (by simpa using hy)⟩
  · rw [List.concat_eq_append] at *
    have hp : p ∉ a := fun hpa => (List.nodup_append'.mp hnd_a).2.2 hpa List.mem_cons_self
    have hpb : p ∉ b := hdisj p (by simp)
    simp only [List.getLast?_append, List.getLast?_singleton, Option.some_or]
    refine ⟨?_, ?_, fun y hy => ?_⟩
    · rw [chain_append, Option.or_none]
      refine ⟨ha₁.setNext hp _, ?_⟩
      simpa using hb₁.congr fun y hy => Function.update_of_ne (ne_of_mem_of_not_mem hy hpb) ..
    · have : l.head = (a ++ [p] ++ b).head? := by rw [hhead]; simp
      rw [← this]
    · simp only [List.mem_append, not_or] at hy
      rw [← hframe₁ y hy.2]
      exact Function.update_of_ne (ne_of_mem_of_not_mem List.mem_cons_self hy.1.2).symm ..

/-- Deleting a node from the list it is on. -/
theorem IsList.delete {a b : List ν} (hl : IsList h l (a ++ m :: b)) :
    IsList (delete h m l).1 (delete h m l).2 (a ++ b) := by
  obtain ⟨hchain, hl', hframe⟩ := hl.unlink
  have hnd : (m :: (a ++ b)).Nodup := (List.perm_middle.nodup_iff).mp hl.nodup
  obtain ⟨hm, hnd'⟩ := List.nodup_cons.mp hnd
  refine ⟨hnd', ?_, ?_, ?_, hchain.congr fun y hy => ?_⟩
  · simp [Dlink.delete, hl']
  · simp [Dlink.delete, hl']
  · simp [Dlink.delete, hl', hl.length, dec]
  · exact Function.update_of_ne (ne_of_mem_of_not_mem hy hm) ..

/-- Deleting a node writes only the links of nodes on the list. -/
theorem IsList.delete_frame {a b : List ν} (hl : IsList h l (a ++ m :: b))
    (hy : y ∉ a ++ m :: b) : (Dlink.delete h m l).1 y = h y := by
  obtain ⟨-, -, hframe⟩ := hl.unlink
  simp only [List.mem_append, List.mem_cons, not_or] at hy
  exact (Function.update_of_ne hy.2.1 ..).trans (hframe y (by simp [hy.1, hy.2.2]))

/-- Moving a node from the list it is on to another one. -/
theorem IsList.moveNode {a b ys : List ν} (hl : IsList h l (a ++ m :: b))
    (hnew : IsList h newlist ys) (hdisj : ∀ y ∈ ys, y ∉ a ++ m :: b) :
    IsList (moveNode h m l newlist).1 (moveNode h m l newlist).2.1 (a ++ b) ∧
      IsList (moveNode h m l newlist).1 (moveNode h m l newlist).2.2 (m :: ys) := by
  obtain ⟨hchain, hl', hframe⟩ := hl.unlink
  have hnd : (m :: (a ++ b)).Nodup := (List.perm_middle.nodup_iff).mp hl.nodup
  obtain ⟨hm, hnd'⟩ := List.nodup_cons.mp hnd
  have hys : ∀ y ∈ ys, y ∉ a ++ b := fun y hy hyab =>
    hdisj y hy (List.perm_middle.mem_iff.mpr (List.mem_cons_of_mem m hyab))
  have hmys : m ∉ ys := fun hmy => hdisj m hmy (by simp)
  have hnew' : IsList (Dlink.unlink h m l).1 newlist ys :=
    hnew.congr fun y hy => hframe y (hys y hy)
  refine ⟨⟨hnd', ?_, ?_, ?_, hchain.congr fun y hy => ?_⟩, hnew'.add hmys⟩
  · simp [Dlink.moveNode, hl']
  · simp [Dlink.moveNode, hl']
  · simp [Dlink.moveNode, hl', hl.length, dec]
  · exact add_frame hnew.head (ne_of_mem_of_not_mem hy hm) fun hyy => hys y hyy hy

/-- Moving a node writes only the links of nodes on the two lists. -/
theorem IsList.moveNode_frame {a b ys : List ν}
    (hl : IsList h l (a ++ m :: b)) (hnew : IsList h newlist ys)
    (hy : y ∉ a ++ m :: b) (hyy : y ∉ ys) : (Dlink.moveNode h m l newlist).1 y = h y := by
  obtain ⟨-, -, hframe⟩ := hl.unlink
  simp only [List.mem_append, List.mem_cons, not_or] at hy
  exact (add_frame hnew.head hy.2.1 hyy).trans (hframe y (by simp [hy.1, hy.2.2]))

/-! ### The nodes of a list as a set -/

/-- The nodes of the list `l` are those that satisfy `P`. -/
def Holds (h : Heap ν) (l : DList ν) (P : ν → Prop) : Prop :=
  ∃ xs, IsList h l xs ∧ ∀ x, x ∈ xs ↔ P x

omit [DecidableEq ν] in
theorem holds_empty (h : Heap ν) (hP : ∀ x, ¬P x) : Holds h DList.empty P :=
  ⟨[], isList_empty h, fun x => by simp [hP x]⟩

omit [DecidableEq ν] in
theorem Holds.congr (hl : Holds h l P) (hPQ : ∀ x, P x ↔ Q x)
    (heq : ∀ x, P x → h' x = h x) : Holds h' l Q := by
  obtain ⟨xs, hxs, hmem⟩ := hl
  exact ⟨xs, hxs.congr fun x hx => heq x ((hmem x).mp hx), fun x => (hmem x).trans (hPQ x)⟩

omit [DecidableEq ν] in
theorem Holds.length_eq_zero_iff (hl : Holds h l P) : l.length = 0 ↔ ∀ x, ¬P x := by
  obtain ⟨xs, hxs, hmem⟩ := hl
  rw [hxs.length, List.length_eq_zero_iff, List.eq_nil_iff_forall_not_mem]
  simp [hmem]

omit [DecidableEq ν] in
/-- A list of different numbers below `n` has at most `n` of them. -/
theorem length_le_of_lt {xs : List ℕ} (hnd : xs.Nodup) (hlt : ∀ x ∈ xs, x < n) : xs.length ≤ n := by
  have hsub : xs ⊆ List.range n := fun y hy => List.mem_range.mpr (hlt y hy)
  simpa using (List.Nodup.subperm hnd hsub).length_le

omit [DecidableEq ν] in
/-- Walking a list of numbered nodes meets those that satisfy `P`. -/
theorem Holds.mem_walk {h : Heap ℕ} {l : DList ℕ} {P : ℕ → Prop} (hl : Holds h l P)
    (hn : ∀ x, P x → x < n) (x : ℕ) : x ∈ walk h n l.head ↔ P x := by
  obtain ⟨xs, hxs, hmem⟩ := hl
  rw [hxs.walk (length_le_of_lt hxs.nodup fun y hy => hn y ((hmem y).mp hy)), hmem]

omit [DecidableEq ν] in
/-- The nodes left when one is taken out of the middle. -/
private theorem mem_iff_of_mem_middle {a b : List ν} (hnd : (a ++ m :: b).Nodup)
    (hmem : ∀ x, x ∈ a ++ m :: b ↔ P x) (x : ν) : x ∈ a ++ b ↔ P x ∧ x ≠ m := by
  have hmab : m ∉ a ++ b := (List.nodup_cons.mp ((List.perm_middle.nodup_iff).mp hnd)).1
  rw [← hmem, List.perm_middle.mem_iff, List.mem_cons]
  constructor
  · exact fun hx => ⟨Or.inr hx, ne_of_mem_of_not_mem hx hmab⟩
  · exact fun ⟨hx, hne⟩ => hx.resolve_left hne

section

variable (hl : Holds h l P)
include hl

theorem Holds.add (hm : ¬P m) : Holds (add h m l).1 (add h m l).2 fun x => x = m ∨ P x := by
  obtain ⟨xs, hxs, hmem⟩ := hl
  exact ⟨m :: xs, hxs.add fun hmx => hm ((hmem m).mp hmx), fun x => by simp [hmem]⟩

theorem Holds.add_frame (hm : x ≠ m) (hx : ¬P x) : (Dlink.add h m l).1 x = h x := by
  obtain ⟨xs, hxs, hmem⟩ := hl
  exact Dlink.add_frame hxs.head hm fun hxx => hx ((hmem x).mp hxx)

/-- Adding to one list leaves the others alone. -/
theorem Holds.add_other (hl' : Holds h l' Q) (hm : ¬Q m)
    (hdisj : ∀ x, Q x → ¬P x) : Holds (Dlink.add h m l).1 l' Q := by
  refine hl'.congr (fun _ => Iff.rfl) fun x hx => hl.add_frame ?_ (hdisj x hx)
  rintro rfl
  exact hm hx

theorem Holds.delete (hm : P m) : Holds (delete h m l).1 (delete h m l).2 fun x => P x ∧ x ≠ m := by
  obtain ⟨xs, hxs, hmem⟩ := hl
  obtain ⟨a, b, rfl⟩ := List.append_of_mem ((hmem m).mpr hm)
  exact ⟨a ++ b, hxs.delete, mem_iff_of_mem_middle hxs.nodup hmem⟩

theorem Holds.delete_frame (hm : P m) (hx : ¬P x) : (Dlink.delete h m l).1 x = h x := by
  obtain ⟨xs, hxs, hmem⟩ := hl
  obtain ⟨a, b, rfl⟩ := List.append_of_mem ((hmem m).mpr hm)
  exact hxs.delete_frame fun hxx => hx ((hmem x).mp hxx)

/-- Deleting from one list leaves the others alone. -/
theorem Holds.delete_other (hm : P m) (hl' : Holds h l' Q)
    (hdisj : ∀ x, Q x → ¬P x) : Holds (Dlink.delete h m l).1 l' Q :=
  hl'.congr (fun _ => Iff.rfl) fun x hx => hl.delete_frame hm (hdisj x hx)

end

/-- Deleting a node that is on no list writes no other node. -/
theorem delete_frame_of_unlinked (hnull : h m = ⟨none, none⟩) (l : DList ν)
    (hx : x ≠ m) : (delete h m l).1 x = h x := by
  simp [delete, unlink, hnull, Function.update_of_ne hx]

theorem Holds.moveNode (hl : Holds h l P) (hm : P m)
    (hnew : Holds h newlist Q) (hdisj : ∀ x, Q x → ¬P x) :
    Holds (moveNode h m l newlist).1 (moveNode h m l newlist).2.1 (fun x => P x ∧ x ≠ m) ∧
      Holds (moveNode h m l newlist).1 (moveNode h m l newlist).2.2 fun x => x = m ∨ Q x := by
  obtain ⟨xs, hxs, hmem⟩ := hl
  obtain ⟨ys, hys, hmemQ⟩ := hnew
  obtain ⟨a, b, rfl⟩ := List.append_of_mem ((hmem m).mpr hm)
  obtain ⟨hold, hnew⟩ := hxs.moveNode hys fun y hy hyx =>
    hdisj y ((hmemQ y).mp hy) ((hmem y).mp hyx)
  exact ⟨⟨a ++ b, hold, mem_iff_of_mem_middle hxs.nodup hmem⟩,
    ⟨m :: ys, hnew, fun x => by simp [hmemQ]⟩⟩

/-- Moving between two lists leaves the others alone. -/
theorem Holds.moveNode_other {R : ν → Prop} (hl : Holds h l P) (hm : P m)
    (hnew : Holds h newlist Q) (hl' : Holds h l' R) (hdisj : ∀ x, R x → ¬P x ∧ ¬Q x) :
    Holds (Dlink.moveNode h m l newlist).1 l' R := by
  obtain ⟨xs, hxs, hmem⟩ := hl
  obtain ⟨ys, hys, hmemQ⟩ := hnew
  obtain ⟨a, b, rfl⟩ := List.append_of_mem ((hmem m).mpr hm)
  exact hl'.congr (fun _ => Iff.rfl) fun x hx => hxs.moveNode_frame hys
    (fun hxx => (hdisj x hx).1 ((hmem x).mp hxx)) fun hxx => (hdisj x hx).2 ((hmemQ x).mp hxx)

/-! ### Links that go both ways

A list from which a node is deleted that is on no list loses its ends, and with them its nodes. The
nodes are then still linked to each other. -/

/-- Each node was put on a list, or on none. The links of those on a list go both ways, and the ends
of a list are ends of its nodes; some nodes may not be met in a walk. -/
structure Coherent {κ : Type*} (h : Heap ν) (l : κ → DList ν) (on : ν → Option κ) : Prop where
  next : ∀ k x y, on x = some k → (h x).next = some y → on y = some k ∧ (h y).prev = some x
  prev : ∀ k x y, on x = some k → (h x).prev = some y → on y = some k ∧ (h y).next = some x
  head : ∀ k x, (l k).head = some x → on x = some k ∧ (h x).prev = none
  tail : ∀ k x, (l k).tail = some x → on x = some k ∧ (h x).next = none

section Coherent

variable {κ : Type*} {lists : κ → DList ν} {on : ν → Option κ} {k : κ} {x : ν}

omit [DecidableEq ν] in
/-- No node that is on a list is linked to one that is on none. -/
theorem Coherent.not_linked (hc : Coherent h lists on) (hm : on m = none) :
    (∀ k, (lists k).head ≠ some m ∧ (lists k).tail ≠ some m) ∧
      ∀ x, on x ≠ none → (h x).next ≠ some m ∧ (h x).prev ≠ some m := by
  have hno : ∀ {k}, on m ≠ some k := fun hk => absurd (hm.symm.trans hk) (by simp)
  refine ⟨fun k => ⟨fun hx => hno (hc.head k m hx).1, fun hx => hno (hc.tail k m hx).1⟩,
    fun x hx => ?_⟩
  obtain ⟨k, hk⟩ := Option.ne_none_iff_exists'.mp hx
  exact ⟨fun hxm => hno (hc.next k x m hk hxm).1, fun hxm => hno (hc.prev k x m hk hxm).1⟩

omit [DecidableEq ν] in
theorem Coherent.congr (hc : Coherent h lists on) {h' : Heap ν}
    (heq : ∀ x, on x ≠ none → h' x = h x) :
    Coherent h' lists on := by
  have heq' : ∀ {x k}, on x = some k → h' x = h x := fun hk => heq _ (by simp [hk])
  refine ⟨fun k x y hx hy => ?_, fun k x y hx hy => ?_, fun k x hx => ?_, fun k x hx => ?_⟩
  · rw [heq' hx] at hy
    obtain ⟨hky, hprev⟩ := hc.next k x y hx hy
    exact ⟨hky, by rw [heq' hky, hprev]⟩
  · rw [heq' hx] at hy
    obtain ⟨hky, hnext⟩ := hc.prev k x y hx hy
    exact ⟨hky, by rw [heq' hky, hnext]⟩
  · obtain ⟨hk, hprev⟩ := hc.head k x hx
    exact ⟨hk, by rw [heq' hk, hprev]⟩
  · obtain ⟨hk, hnext⟩ := hc.tail k x hx
    exact ⟨hk, by rw [heq' hk, hnext]⟩

/-- The links after a node is put in front. -/
theorem add_apply (hhead : l.head ≠ some m) (x : ν) :
    (add h m l).1 x = if x = m then ⟨none, l.head⟩
    else ⟨if l.head = some x then some m else (h x).prev, (h x).next⟩ := by
  rw [add]
  cases hl : l.head with
  | none => simp [Function.update_apply]
  | some y =>
    have hym : y ≠ m := fun hym => hhead (hym ▸ hl)
    by_cases hxy : x = y
    · subst hxy
      simp [setPrev, hym]
    · have hyx : y ≠ x := Ne.symm hxy
      simp [setPrev, Function.update_apply, hxy, hyx]

theorem add_head : (add h m l).2.head = some m := by
  rw [add]
  cases l.head <;> rfl

theorem add_tail :
    (add h m l).2.tail = if l.head = none ∧ l.tail = none then some m else l.tail := by
  rw [add]
  cases l.head with
  | none => simp
  | some x => simp

/-- A node is put in front of a list. -/
theorem Coherent.add [DecidableEq κ] (hc : Coherent h lists on) (hm : on m = none) (k : κ) :
    Coherent (Dlink.add h m (lists k)).1 (Function.update lists k (Dlink.add h m (lists k)).2)
      (Function.update on m (some k)) := by
  have happly := add_apply (h := h) ((hc.not_linked hm).1 k).1
  have hself : (Dlink.add h m (lists k)).1 m = ⟨none, (lists k).head⟩ := by rw [happly, if_pos rfl]
  have hother : ∀ {x}, x ≠ m → (Dlink.add h m (lists k)).1 x =
      ⟨if (lists k).head = some x then some m else (h x).prev, (h x).next⟩ :=
        fun hx => by rw [happly, if_neg hx]
  have hne : ∀ {x k'}, on x = some k' → x ≠ m := fun hx heq => absurd (hm.symm.trans (heq ▸ hx))
    (by simp)
  refine ⟨fun k' x y hx hy => ?_, fun k' x y hx hy => ?_, fun k' x hx => ?_, fun k' x hx => ?_⟩
  · by_cases hxm : x = m
    · -- The node is linked to what was the head.
      subst hxm
      rw [hself] at hy
      obtain ⟨hky, -⟩ := hc.head k y hy
      rw [Function.update_self] at hx
      rw [Function.update_of_ne (hne hky), hother (hne hky), if_pos hy]
      exact ⟨hky.trans hx, rfl⟩
    · rw [Function.update_of_ne hxm] at hx
      rw [hother hxm] at hy
      obtain ⟨hky, hprev⟩ := hc.next k' x y hx hy
      rw [Function.update_of_ne (hne hky), hother (hne hky), if_neg]
      · exact ⟨hky, hprev⟩
      · exact fun hhead => absurd ((hc.head k y hhead).2.symm.trans hprev) (by simp)
  · by_cases hxm : x = m
    · subst hxm
      rw [hself] at hy
      cases hy
    · rw [Function.update_of_ne hxm] at hx
      rw [hother hxm] at hy
      dsimp only at hy
      split_ifs at hy with hhead
      · cases hy
        rw [Function.update_self, hself]
        exact ⟨(hc.head k x hhead).1.symm.trans hx, hhead⟩
      · obtain ⟨hky, hnext⟩ := hc.prev k' x y hx hy
        rw [Function.update_of_ne (hne hky), hother (hne hky)]
        exact ⟨hky, hnext⟩
  · by_cases hk : k' = k
    · subst hk
      rw [Function.update_self, add_head] at hx
      cases hx
      rw [Function.update_self, hself]
      exact ⟨rfl, rfl⟩
    · rw [Function.update_of_ne hk] at hx
      obtain ⟨hkx, hprev⟩ := hc.head k' x hx
      rw [Function.update_of_ne (hne hkx), hother (hne hkx), if_neg]
      · exact ⟨hkx, hprev⟩
      · exact fun hhead => hk (Option.some.inj (hkx.symm.trans (hc.head k x hhead).1))
  · have hold : ∀ {k'}, (lists k').tail = some x → Function.update on m (some k) x = some k' ∧
        ((Dlink.add h m (lists k)).1 x).next = none := by
      intro k' htail
      obtain ⟨hkx, hnext⟩ := hc.tail k' x htail
      rw [Function.update_of_ne (hne hkx), hother (hne hkx)]
      exact ⟨hkx, hnext⟩
    by_cases hk : k' = k
    · subst hk
      rw [Function.update_self, add_tail] at hx
      split_ifs at hx with hnil
      · cases hx
        rw [Function.update_self, hself]
        exact ⟨rfl, hnil.1⟩
      · exact hold hx
    · rw [Function.update_of_ne hk] at hx
      exact hold hx

theorem setPrev_apply (n : ν) (p : Option ν) (x : ν) :
    setPrev h n p x = if n = x then ⟨p, (h x).next⟩ else h x := by
  rw [setPrev, Function.update_apply]
  by_cases hx : n = x
  · rw [if_pos hx, if_pos hx.symm, hx]
  · rw [if_neg hx, if_neg (Ne.symm hx)]

theorem setNext_apply (p : ν) (n : Option ν) (x : ν) :
    setNext h p n x = if p = x then ⟨(h x).prev, n⟩ else h x := by
  rw [setNext, Function.update_apply]
  by_cases hx : p = x
  · rw [if_pos hx, if_pos hx.symm, hx]
  · rw [if_neg hx, if_neg (Ne.symm hx)]

/-- The links and the ends after a node is linked past. -/
theorem unlink_eq (h : Heap ν) (m : ν) (l : DList ν) :
    (∀ x, (unlink h m l).1 x =
      ⟨if (h m).next = some x then (h m).prev else (h x).prev,
        if (h m).prev = some x then (h m).next else (h x).next⟩) ∧
      (unlink h m l).2.head = (if (h m).prev = none then (h m).next else l.head) ∧
      (unlink h m l).2.tail = if (h m).next = none then (h m).prev else l.tail := by
  rw [unlink]
  -- The first write does not change the links of the node itself.
  cases hnext : (h m).next with
  | none =>
    dsimp only
    cases hprev : (h m).prev with
    | none => simp [hnext]
    | some p =>
      refine ⟨fun x => ?_, by simp, by simp⟩
      dsimp only
      rw [setNext_apply, hnext]
      by_cases hx : p = x
      · simp [hx]
      · simp [hx]
  | some n =>
    have hm : setPrev h n (h m).prev m = h m := by
      rw [setPrev_apply]
      split_ifs
      · rfl
      · rfl
    dsimp only
    rw [hm]
    cases hprev : (h m).prev with
    | none =>
      refine ⟨fun x => ?_, by simp [hnext], by simp⟩
      dsimp only
      rw [setPrev_apply]
      by_cases hx : n = x
      · simp [hx]
      · simp [hx]
    | some p =>
      refine ⟨fun x => ?_, by simp, by simp⟩
      dsimp only
      rw [setNext_apply, setPrev_apply, hnext]
      by_cases hn : n = x <;> by_cases hp : p = x
      · simp [hn, hp]
      · simp [hn, hp]
      · simp [hn, hp]
      · simp [hn, hp]

theorem delete_self : (delete h m l).1 m = ⟨none, none⟩ := Function.update_self ..

theorem delete_prev (hx : x ≠ m) : ((delete h m l).1 x).prev =
    if (h m).next = some x then (h m).prev else (h x).prev :=
  congrArg Node.prev ((Function.update_of_ne hx ..).trans ((unlink_eq h m l).1 x))

theorem delete_next (hx : x ≠ m) : ((delete h m l).1 x).next =
    if (h m).prev = some x then (h m).next else (h x).next :=
  congrArg Node.next ((Function.update_of_ne hx ..).trans ((unlink_eq h m l).1 x))

/-- A node is deleted from the list that it was put on. -/
theorem Coherent.delete [DecidableEq κ] (hc : Coherent h lists on) (hm : on m = some k) :
    Coherent (delete h m (lists k)).1 (Function.update lists k (delete h m (lists k)).2)
      (Function.update on m none) := by
  have hold : ∀ {x k'}, Function.update on m none x = some k' → x ≠ m ∧ on x = some k' := by
    intro x k' hx
    rw [Function.update_apply] at hx
    split_ifs at hx with hxm
    exact ⟨hxm, hx⟩
  have hnext_iff : ∀ {x}, (h m).next = some x → on x = some k ∧ (h x).prev = some m :=
    fun hx => hc.next k m _ hm hx
  have hprev_iff : ∀ {x}, (h m).prev = some x → on x = some k ∧ (h x).next = some m :=
    fun hx => hc.prev k m _ hm hx
  refine ⟨fun k' x y hx hy => ?_, fun k' x y hx hy => ?_, fun k' x hx => ?_, fun k' x hx => ?_⟩
  · obtain ⟨hxm, hx⟩ := hold hx
    rw [delete_next hxm] at hy
    split_ifs at hy with hbefore
    · -- The neighbours of the node are linked.
      obtain ⟨hky, hprev⟩ := hnext_iff hy
      have hym : y ≠ m := by
        rintro rfl
        exact hxm (Option.some.inj (hbefore.symm.trans hprev))
      rw [Function.update_of_ne hym, delete_prev hym, if_pos hy]
      exact ⟨hky.trans ((hprev_iff hbefore).1.symm.trans hx), hbefore⟩
    · obtain ⟨hky, hprev⟩ := hc.next k' x y hx hy
      have hym : y ≠ m := by
        rintro rfl
        exact hbefore hprev
      rw [Function.update_of_ne hym, delete_prev hym, if_neg]
      · exact ⟨hky, hprev⟩
      · exact fun hafter => hxm (Option.some.inj (hprev.symm.trans (hnext_iff hafter).2))
  · obtain ⟨hxm, hx⟩ := hold hx
    rw [delete_prev hxm] at hy
    split_ifs at hy with hafter
    · obtain ⟨hky, hnext⟩ := hprev_iff hy
      have hym : y ≠ m := by
        rintro rfl
        exact hxm (Option.some.inj (hafter.symm.trans hnext))
      rw [Function.update_of_ne hym, delete_next hym, if_pos hy]
      exact ⟨hky.trans ((hnext_iff hafter).1.symm.trans hx), hafter⟩
    · obtain ⟨hky, hnext⟩ := hc.prev k' x y hx hy
      have hym : y ≠ m := by
        rintro rfl
        exact hafter hnext
      rw [Function.update_of_ne hym, delete_next hym, if_neg]
      · exact ⟨hky, hnext⟩
      · exact fun hbefore => hxm (Option.some.inj (hnext.symm.trans (hprev_iff hbefore).2))
  · by_cases hk : k' = k
    · subst hk
      rw [Function.update_self, delete] at hx
      dsimp only at hx
      rw [(unlink_eq h m (lists k')).2.1] at hx
      split_ifs at hx with hfirst
      · obtain ⟨hkx, hprev⟩ := hnext_iff hx
        have hxm : x ≠ m := by
          rintro rfl
          cases hfirst.symm.trans hprev
        rw [Function.update_of_ne hxm, delete_prev hxm, if_pos hx]
        exact ⟨hkx, hfirst⟩
      · obtain ⟨hkx, hprev⟩ := hc.head k' x hx
        have hxm : x ≠ m := by
          rintro rfl
          exact hfirst hprev
        rw [Function.update_of_ne hxm, delete_prev hxm, if_neg]
        · exact ⟨hkx, hprev⟩
        · exact fun hafter => absurd (hprev.symm.trans (hnext_iff hafter).2) (by simp)
    · rw [Function.update_of_ne hk] at hx
      obtain ⟨hkx, hprev⟩ := hc.head k' x hx
      have hother : on x ≠ some k := fun hkx' => hk (Option.some.inj (hkx.symm.trans hkx'))
      have hxm : x ≠ m := fun hxm => hother (hxm ▸ hm)
      rw [Function.update_of_ne hxm, delete_prev hxm, if_neg fun hafter => hother
        (hnext_iff hafter).1]
      exact ⟨hkx, hprev⟩
  · by_cases hk : k' = k
    · subst hk
      rw [Function.update_self, delete] at hx
      dsimp only at hx
      rw [(unlink_eq h m (lists k')).2.2] at hx
      split_ifs at hx with hlast
      · obtain ⟨hkx, hnext⟩ := hprev_iff hx
        have hxm : x ≠ m := by
          rintro rfl
          cases hlast.symm.trans hnext
        rw [Function.update_of_ne hxm, delete_next hxm, if_pos hx]
        exact ⟨hkx, hlast⟩
      · obtain ⟨hkx, hnext⟩ := hc.tail k' x hx
        have hxm : x ≠ m := by
          rintro rfl
          exact hlast hnext
        rw [Function.update_of_ne hxm, delete_next hxm, if_neg]
        · exact ⟨hkx, hnext⟩
        · exact fun hbefore => absurd (hnext.symm.trans (hprev_iff hbefore).2) (by simp)
    · rw [Function.update_of_ne hk] at hx
      obtain ⟨hkx, hnext⟩ := hc.tail k' x hx
      have hother : on x ≠ some k := fun hkx' => hk (Option.some.inj (hkx.symm.trans hkx'))
      have hxm : x ≠ m := fun hxm => hother (hxm ▸ hm)
      rw [Function.update_of_ne hxm, delete_next hxm, if_neg fun hbefore => hother
        (hprev_iff hbefore).1]
      exact ⟨hkx, hnext⟩

/-- Putting a node on a list does not write the others that are on none. -/
theorem Coherent.add_frame (hc : Coherent h lists on) (hm : on m = none) (hx : on x = none)
    (hxm : x ≠ m) (k : κ) :
    (Dlink.add h m (lists k)).1 x = h x := by
  rw [add_apply ((hc.not_linked hm).1 k).1, if_neg hxm, if_neg ((hc.not_linked hx).1 k).1]

/-- Deleting a node from a list does not write those that are on none. -/
theorem Coherent.delete_frame (hc : Coherent h lists on) (hm : on m = some k) (hx : on x = none)
    (l : DList ν) :
    (Dlink.delete h m l).1 x = h x := by
  have hxm : x ≠ m := fun hxm => absurd (hx.symm.trans (hxm ▸ hm)) (by simp)
  obtain ⟨hnext, hprev⟩ := (hc.not_linked hx).2 m (by simp [hm])
  have hnode : (Dlink.delete h m l).1 x =
      ⟨((Dlink.delete h m l).1 x).prev, ((Dlink.delete h m l).1 x).next⟩ := rfl
  rw [hnode, delete_prev hxm, delete_next hxm, if_neg hnext, if_neg hprev]

/-- A node without links is deleted from a list that it is not on: the list has no ends any more. -/
theorem delete_unlinked (hnull : h m = ⟨none, none⟩) (l : DList ν) :
    delete h m l = (h, ⟨none, none, dec l.length⟩) := by
  have hunlink : unlink h m l = (h, ⟨none, none, l.length⟩) := by simp [unlink, hnull]
  rw [delete, hunlink]
  dsimp only
  rw [← hnull, Function.update_eq_self]

theorem Coherent.delete_unlinked [DecidableEq κ] (hc : Coherent h lists on)
    (hnull : h m = ⟨none, none⟩) (k : κ) :
    Coherent (Dlink.delete h m (lists k)).1
    (Function.update lists k (Dlink.delete h m (lists k)).2) on := by
  rw [Dlink.delete_unlinked hnull]
  refine ⟨hc.next, hc.prev, fun k' x hx => ?_, fun k' x hx => ?_⟩
  · rw [Function.update_apply] at hx
    split_ifs at hx
    exact hc.head k' x hx
  · rw [Function.update_apply] at hx
    split_ifs at hx
    exact hc.tail k' x hx

end Coherent

end Ratbox.Dlink
