import Ratbox.Patricia.Update

/-!
# Walking a patricia tree

`RB_PATRICIA_WALK` visits the nodes with prefixes from the top to the bottom, the left one of two
children first; the right one is put on a stack.

Source: `libratbox/include/rb_patricia.h`, lines 102–140.

## Main definitions

* `Patricia.Tree.walk`: the nodes that are visited.
* `Patricia.Tree.preorder`: the nodes below a node.

## Main results

* `Patricia.Tree.Inv.walk`: every node with a prefix is visited once.
-/

namespace Ratbox.Patricia

open CritBit List Option

variable {δ : Type}

/-- The end of the body of `RB_PATRICIA_WALK`: the node that is next, and the stack. -/
def Node.walkNext (node : Node δ) (stack : List Addr) : Option Addr × List Addr :=
  match node.l, node.r with
  | some l, some r => (some l, r :: stack)
  | some l, none => (some l, stack)
  | none, some r => (some r, stack)
  | none, none => (stack.head?, stack.tail)

namespace Tree

/-- The loop of `RB_PATRICIA_WALK`, with the stack. -/
def walkLoop (t : Tree δ) : ℕ → List Addr → Option Addr → Option (List Addr)
  | _, _, none => some []
  | 0, _, some _ => none
  | fuel + 1, stack, some a => do
    let node ← t.node a
    let rest ← walkLoop t fuel (node.walkNext stack).2 (node.walkNext stack).1
    some (if node.pfx.isSome then a :: rest else rest)

/-- `RB_PATRICIA_WALK`: the nodes for which its body is run. -/
def walk (t : Tree δ) : Option (List Addr) := t.walkLoop t.fresh [] t.head

/-! ### The nodes below a node -/

/-- The nodes below a node, down to a depth, the node first and its left side before the right
one. -/
def preorder (t : Tree δ) : ℕ → Addr → List Addr
  | 0, _ => []
  | depth + 1, a =>
    match t.node a with
    | none => []
    | some n =>
      a :: ((n.l.elim [] (preorder t depth)) ++ n.r.elim [] (preorder t depth))

/-- A node has a prefix. -/
def hasPfx (t : Tree δ) (a : Addr) : Bool := (t.pfxAt a).isSome

section Preorder

variable {t : Tree δ} {label : Addr → ℕ → Bool} {a b : Addr} {n : Node δ} {depth : ℕ}
  {stack : List Addr}

theorem preorder_succ (hn : t.node a = some n) (depth : ℕ) :
    t.preorder (depth + 1) a =
      a :: (n.l.elim [] (t.preorder depth) ++ n.r.elim [] (t.preorder depth)) := by
  rw [preorder, hn]

/-- The nodes in the order are those below the node. -/
theorem Inv.mem_preorder (h : Inv t label) (ha : t.links.live a)
    (hdepth : t.maxbits < t.links.bit a + depth) :
    b ∈ t.preorder depth a ↔ Below t.links.edge a b := by
  induction depth generalizing a with
  | zero => exact absurd (h.shape.bit_le ha) (by omega)
  | succ depth ih =>
    obtain ⟨n, hn⟩ := exists_node ha
    -- The nodes below a child.
    have hchild : ∀ d, b ∈ (n.child d).elim [] (t.preorder depth) ↔
        ∃ c, t.links.edge a d c ∧ Below t.links.edge c b := by
      intro d
      simp only [edge_iff hn]
      cases hc : n.child d with
      | none => simp
      | some c =>
        have hedge : t.links.edge a d c := (edge_iff hn).mpr hc
        have hdeeper := h.shape.routed.bit_lt hedge
        simpa using ih (h.shape.live_edge hedge).2 (by omega)
    have hl := hchild false
    have hr := hchild true
    rw [preorder_succ hn, mem_cons, mem_append,
      show n.l = n.child false from rfl, show n.r = n.child true from rfl, hl, hr]
    constructor
    · rintro (rfl | ⟨c, hc, hcb⟩ | ⟨c, hc, hcb⟩)
      · exact Relation.ReflTransGen.refl
      · exact Relation.ReflTransGen.head ⟨_, hc⟩ hcb
      · exact Relation.ReflTransGen.head ⟨_, hc⟩ hcb
    · intro hab
      obtain rfl | ⟨c, ⟨d, hc⟩, hcb⟩ := Relation.ReflTransGen.cases_head hab
      · exact .inl rfl
      · cases d with
        | false => exact .inr (.inl ⟨c, hc, hcb⟩)
        | true => exact .inr (.inr ⟨c, hc, hcb⟩)

theorem Inv.nodup_preorder (h : Inv t label) (ha : t.links.live a)
    (hdepth : t.maxbits < t.links.bit a + depth) : (t.preorder depth a).Nodup := by
  induction depth generalizing a with
  | zero => exact absurd (h.shape.bit_le ha) (by omega)
  | succ depth ih =>
    obtain ⟨n, hn⟩ := exists_node ha
    -- A node below a child is on its side.
    have hside : ∀ d b, b ∈ (n.child d).elim [] (t.preorder depth) →
        label b (t.links.bit a) = d ∧ b ≠ a := by
      intro d b hb
      cases hc : n.child d with
      | none =>
        rw [hc] at hb
        simp at hb
      | some c =>
        have hedge : t.links.edge a d c := (edge_iff hn).mpr hc
        have hdeeper := h.shape.routed.bit_lt hedge
        rw [hc] at hb
        have hbelow := (h.mem_preorder (h.shape.live_edge hedge).2 (by omega)).mp hb
        refine ⟨(h.shape.routed.agree_below hbelow _ hdeeper).trans (h.shape.routed.turn hedge), ?_⟩
        rintro rfl
        exact absurd (h.shape.routed.bit_le hbelow) (by omega)
    have hnodup : ∀ d, ((n.child d).elim [] (t.preorder depth)).Nodup := by
      intro d
      cases hc : n.child d with
      | none => exact nodup_nil
      | some c =>
        have hedge : t.links.edge a d c := (edge_iff hn).mpr hc
        have hdeeper := h.shape.routed.bit_lt hedge
        exact ih (h.shape.live_edge hedge).2 (by omega)
    rw [preorder_succ hn, show n.l = n.child false from rfl, show n.r = n.child true from rfl]
    refine nodup_cons.mpr ⟨fun hmem => ?_, nodup_append.mpr ⟨hnodup _, hnodup _, ?_⟩⟩
    · rcases mem_append.mp hmem with hmem | hmem
      · exact (hside _ _ hmem).2 rfl
      · exact (hside _ _ hmem).2 rfl
    · rintro b hb _ hb' rfl
      cases (hside _ _ hb).1.symm.trans (hside _ _ hb').1

/-- More depth than there are bits makes no difference. -/
theorem Inv.preorder_stable (h : Inv t label) (ha : t.links.live a)
    (hdepth : t.maxbits < t.links.bit a + depth) :
    t.preorder (depth + 1) a = t.preorder depth a := by
  induction depth generalizing a with
  | zero => exact absurd (h.shape.bit_le ha) (by omega)
  | succ depth ih =>
    obtain ⟨n, hn⟩ := exists_node ha
    have hchild : ∀ d, (n.child d).elim [] (t.preorder (depth + 1)) =
        (n.child d).elim [] (t.preorder depth) := by
      intro d
      cases hc : n.child d with
      | none => rfl
      | some c =>
        have hedge : t.links.edge a d c := (edge_iff hn).mpr hc
        have hdeeper := h.shape.routed.bit_lt hedge
        exact ih (h.shape.live_edge hedge).2 (by omega)
    rw [preorder_succ hn, preorder_succ hn, show n.l = n.child false from rfl,
      show n.r = n.child true from rfl, hchild, hchild]

/-! ### The walk -/

/-- What is still to visit: what is below the node, and then what is below the nodes on the
stack. -/
def ahead (t : Tree δ) (next : Option Addr) (stack : List Addr) : List Addr :=
  (next.toList ++ stack).flatMap (t.preorder (t.maxbits + 1))

/-- The nodes that are still to come: the children are put in front. -/
theorem toList_walkNext (n : Node δ) (stack : List Addr) :
    (n.walkNext stack).1.toList ++ (n.walkNext stack).2 = n.l.toList ++ n.r.toList ++ stack := by
  rw [Node.walkNext]
  cases n.l <;> cases n.r <;> cases stack <;> rfl

theorem walkNext_empty (h : (n.walkNext stack).1 = none) : (n.walkNext stack).2 = [] := by
  rw [Node.walkNext] at h ⊢
  cases hl : n.l <;> cases hr : n.r <;> cases stack <;> simp_all

/-- The nodes that come next are children, or on the stack. -/
theorem Inv.live_walkNext (h : Inv t label) (hn : t.node a = some n)
    (hlive : ∀ b ∈ stack, t.links.live b) :
    ∀ b ∈ (n.walkNext stack).1.toList ++ (n.walkNext stack).2, t.links.live b := by
  intro b hb
  rw [toList_walkNext, append_assoc, mem_append, mem_append, mem_toList, mem_toList] at hb
  rcases hb with hl | hr | hb
  · exact (h.shape.live_edge ((edge_iff (d := false) hn).mpr hl)).2
  · exact (h.shape.live_edge ((edge_iff (d := true) hn).mpr hr)).2
  · exact hlive b hb

/-- A step of the walk: the node is next, and what is below it is ahead. -/
theorem Inv.ahead_cons (h : Inv t label) (hn : t.node a = some n) (stack : List Addr) :
    t.ahead (some a) stack = a :: t.ahead (n.walkNext stack).1 (n.walkNext stack).2 := by
  have hstable : ∀ d, (n.child d).toList.flatMap (t.preorder (t.maxbits + 1)) =
      (n.child d).elim [] (t.preorder t.maxbits) := by
    intro d
    cases hc : n.child d with
    | none => rfl
    | some c =>
      have hedge : t.links.edge a d c := (edge_iff hn).mpr hc
      have hdeeper := h.shape.routed.bit_lt hedge
      rw [toList_some, flatMap_singleton, h.preorder_stable (h.shape.live_edge hedge).2 (by omega)]
      rfl
  have hl := hstable false
  have hr := hstable true
  rw [show n.child false = n.l from rfl] at hl
  rw [show n.child true = n.r from rfl] at hr
  rw [ahead, ahead, toList_walkNext, toList_some, singleton_append, flatMap_cons, preorder_succ hn,
    flatMap_append, flatMap_append, hl, hr, cons_append]

/-- The loop visits what is ahead. -/
theorem Inv.walkLoop (h : Inv t label) {fuel : ℕ} {next : Option Addr}
    (hlive : ∀ a ∈ next.toList ++ stack, t.links.live a) (hempty : next = none → stack = [])
    (hfuel : (t.ahead next stack).length ≤ fuel) :
    t.walkLoop fuel stack next = some ((t.ahead next stack).filter t.hasPfx) := by
  induction fuel generalizing stack next with
  | zero =>
    cases next with
    | none =>
      obtain rfl := hempty rfl
      rfl
    | some a =>
      obtain ⟨n, hn⟩ := exists_node (hlive a (by simp))
      rw [h.ahead_cons hn] at hfuel
      simp at hfuel
  | succ fuel ih =>
    cases next with
    | none =>
      obtain rfl := hempty rfl
      rfl
    | some a =>
      obtain ⟨n, hn⟩ := exists_node (hlive a (by simp))
      have hpfx : t.hasPfx a = n.pfx.isSome := by rw [hasPfx, pfxAt_node hn]
      rw [h.ahead_cons hn, length_cons] at hfuel
      have hrest : t.walkLoop fuel (n.walkNext stack).2 (n.walkNext stack).1 =
          some ((t.ahead (n.walkNext stack).1 (n.walkNext stack).2).filter t.hasPfx) := by
        refine ih ?_ walkNext_empty (by omega)
        exact h.live_walkNext hn fun b hb => hlive b (mem_append_right _ hb)
      rw [Tree.walkLoop, hn, bind_eq_bind, bind_some, hrest, h.ahead_cons hn, filter_cons, hpfx]
      rfl

/-! ### From the head -/

section

variable (h : Inv t label)
include h

theorem Inv.live_ahead_head : ∀ a ∈ t.head.toList ++ [], t.links.live a := by
  intro a ha
  have hhead : t.head = some a := by simpa using ha
  exact h.shape.live_head hhead

/-- All nodes are ahead at first. -/
theorem Inv.mem_ahead_head (b : Addr) : b ∈ t.ahead t.head [] ↔ t.links.live b := by
  rw [ahead, append_nil]
  cases hhead : t.head with
  | none => simpa using h.shape.not_live_of_head hhead b
  | some a =>
    have ha := h.shape.live_head hhead
    rw [toList_some, flatMap_singleton, h.mem_preorder ha (by omega)]
    constructor
    · exact fun hab => h.shape.live_below hab ha
    · intro hb
      obtain ⟨y, hy, hyb⟩ := h.shape.below_head hb
      obtain rfl : a = y := some.inj (hhead.symm.trans hy)
      exact hyb

theorem Inv.nodup_ahead_head : (t.ahead t.head []).Nodup := by
  rw [ahead, append_nil]
  cases hhead : t.head with
  | none => exact nodup_nil
  | some a =>
    rw [toList_some, flatMap_singleton]
    exact h.nodup_preorder (h.shape.live_head hhead) (by omega)

theorem Inv.length_ahead_head : (t.ahead t.head []).length ≤ t.fresh := by
  rw [← toFinset_card_of_nodup h.nodup_ahead_head, ← Finset.card_range t.fresh]
  refine Finset.card_le_card fun b hb => ?_
  obtain ⟨n, hn⟩ := exists_node ((h.mem_ahead_head b).mp (mem_toFinset.mp hb))
  exact Finset.mem_range.mpr (h.sane.fresh b n hn)

/-- **The walk** visits every node with a prefix once. -/
theorem Inv.walk : ∃ as, t.walk = some as ∧ as.Nodup ∧ ∀ b, b ∈ as ↔ ∃ q, t.pfxAt b = some q := by
  refine ⟨_, h.walkLoop h.live_ahead_head (by simp) h.length_ahead_head, h.nodup_ahead_head.filter
    _, fun b => ?_⟩
  rw [mem_filter, h.mem_ahead_head, hasPfx, isSome_iff_exists]
  refine and_iff_right_of_imp ?_
  rintro ⟨q, hq⟩
  obtain ⟨n, hn, -⟩ := bind_eq_some_iff.mp hq
  exact live_iff hn

end

end Preorder

end Tree

end Ratbox.Patricia
