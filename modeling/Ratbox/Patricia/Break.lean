import Ratbox.Patricia.Walk

/-!
# Breaking off a walk

The body of `RB_PATRICIA_WALK` may use `RB_PATRICIA_WALK_BREAK`. This is no `break`: the walk goes
on with the node that is on top of the stack, so that everything below the node is left out.

Source: `libratbox/include/rb_patricia.h`, lines 102–140.

## Main definitions

* `Patricia.Tree.walkBreak`: the nodes whose body does not break off.
* `Patricia.Tree.Open`: no node on the way down breaks off.

## Main results

* `Patricia.Tree.Inv.walkBreak`: the walk visits the nodes with prefixes to which the way is open,
  each of them once.
* `Patricia.Tree.Inv.open_iff`: the way to a node is open when no node with a shorter prefix of it
  breaks off.
-/

namespace Ratbox.Patricia

open CritBit

variable {δ : Type}

namespace Tree

/-- The loop of `RB_PATRICIA_WALK` with a body that may use `RB_PATRICIA_WALK_BREAK`. -/
def walkBreakLoop (t : Tree δ) (body : Addr → Option Bool) :
    ℕ → List Addr → Option Addr → Option (List Addr)
  | _, _, none => some []
  | 0, _, some _ => none
  | fuel + 1, stack, some a => do
    let node ← t.node a
    if node.pfx.isSome then
      if ← body a then
        let rest ← walkBreakLoop t body fuel (node.walkNext stack).2 (node.walkNext stack).1
        some (a :: rest)
      else walkBreakLoop t body fuel stack.tail stack.head?
    else walkBreakLoop t body fuel (node.walkNext stack).2 (node.walkNext stack).1

/-- `RB_PATRICIA_WALK` with a body that says for a node whether it goes through (`false`:
`RB_PATRICIA_WALK_BREAK`). -/
def walkBreak (t : Tree δ) (body : Addr → Option Bool) : Option (List Addr) :=
  t.walkBreakLoop body t.fresh [] t.head

/-- The body does not break off at a node. -/
def Passes (t : Tree δ) (keep : Addr → Bool) (a : Addr) : Prop := t.hasPfx a = true → keep a = true

/-- No node on the way from one node down to another breaks off. -/
def Open (t : Tree δ) (keep : Addr → Bool) (a b : Addr) : Prop :=
  Below t.links.edge a b ∧ ∀ c, Below t.links.edge a c → Below t.links.edge c b → t.Passes keep c

section Walk

variable {t : Tree δ} {label : Addr → ℕ → Bool} {keep : Addr → Bool} {a b c : Addr} {n : Node δ}
  {body : Addr → Option Bool}

/-- The way down from a node begins with one of its children. -/
theorem Inv.open_cases (h : Inv t label) (hn : t.node a = some n) :
    t.Open keep a b ↔ t.Passes keep a ∧
    (b = a ∨ ∃ c ∈ n.l.toList ++ n.r.toList, t.Open keep c b) := by
  have hchild : ∀ c, c ∈ n.l.toList ++ n.r.toList ↔ ∃ d, t.links.edge a d c := by
    intro c
    simp only [edge_iff hn, Bool.exists_bool, List.mem_append, Option.mem_toList]
    rfl
  simp only [hchild]
  constructor
  · rintro ⟨hab, hopen⟩
    refine ⟨hopen a Relation.ReflTransGen.refl hab, ?_⟩
    obtain rfl | ⟨c, ⟨d, hc⟩, hcb⟩ := Relation.ReflTransGen.cases_head hab
    · exact .inl rfl
    · refine .inr ⟨c, ⟨d, hc⟩, hcb, fun e hce => hopen e (Relation.ReflTransGen.head ⟨d, hc⟩ hce)⟩
  · rintro ⟨hpass, rfl | ⟨c, ⟨d, hc⟩, hcb, hopen⟩⟩
    · refine ⟨Relation.ReflTransGen.refl, fun e hbe heb => ?_⟩
      rwa [← h.shape.routed.eq_of_bit_le hbe (h.shape.routed.bit_le heb)]
    · refine ⟨Relation.ReflTransGen.head ⟨d, hc⟩ hcb, fun e hae heb => ?_⟩
      obtain rfl | ⟨c', ⟨d', hc'⟩, hce⟩ := Relation.ReflTransGen.cases_head hae
      · exact hpass
      · -- Both children are on the side of `b`.
        have hside : ∀ d c, t.links.edge a d c → Below t.links.edge c b → label b (t.links.bit a) =
            d := fun d c hc hcb =>
          (h.shape.routed.agree_below hcb _ (h.shape.routed.bit_lt hc)).trans (h.shape.routed.turn
            hc)
        obtain rfl : d' = d := (hside d' c' hc' (hce.trans heb)).symm.trans (hside d c hc hcb)
        obtain rfl := h.shape.functional hc' hc
        exact hopen e hce heb

/-- The nodes ahead to which the way is open, from a node that does not break off. -/
theorem Inv.open_ahead (h : Inv t label) (hn : t.node a = some n) (hpass : t.Passes keep a)
    (stack : List Addr) :
    (∃ c ∈ (some a).toList ++ stack, t.Open keep c b) ↔
      b = a ∨ ∃ c ∈ (n.walkNext stack).1.toList ++ (n.walkNext stack).2, t.Open keep c b := by
  simp only [toList_walkNext, Option.toList_some, List.singleton_append, List.mem_cons,
    exists_eq_or_imp]
  rw [h.open_cases hn, and_iff_right hpass, or_assoc]
  simp only [List.mem_append, or_and_right, exists_or]

/-- What the loop has visited when it is done: the nodes with prefixes below those that are ahead to
which the way is open, each of them once. -/
theorem Inv.walkBreakLoop (h : Inv t label)
    (hbody : ∀ a, t.hasPfx a = true → body a = some (keep a))
    {fuel : ℕ} {stack : List Addr} {next : Option Addr}
    (hlive : ∀ a ∈ next.toList ++ stack, t.links.live a) (hempty : next = none → stack = [])
    (hfuel : (t.ahead next stack).length ≤ fuel) :
    ∃ as, t.walkBreakLoop body fuel stack next = some as ∧ as.Sublist (t.ahead next stack) ∧
      ∀ b, b ∈ as ↔ t.hasPfx b = true ∧ ∃ a ∈ next.toList ++ stack, t.Open keep a b := by
  induction fuel generalizing stack next with
  | zero =>
    cases next with
    | none =>
      obtain rfl := hempty rfl
      exact ⟨[], rfl, List.Sublist.refl _, by simp⟩
    | some a =>
      obtain ⟨n, hn⟩ := exists_node (hlive a (by simp))
      rw [h.ahead_cons hn] at hfuel
      simp at hfuel
  | succ fuel ih =>
    cases next with
    | none =>
      obtain rfl := hempty rfl
      exact ⟨[], rfl, List.Sublist.refl _, by simp⟩
    | some a =>
      obtain ⟨n, hn⟩ := exists_node (hlive a (by simp))
      have hpfx : t.hasPfx a = n.pfx.isSome := by rw [hasPfx, pfxAt_node hn]
      have hstack : ∀ b ∈ stack, t.links.live b := fun b hb => hlive b (List.mem_append_right _ hb)
      have hahead := h.ahead_cons hn stack
      -- The walk goes on below the node.
      obtain ⟨below, hbelow, hsub, hmem⟩ := ih (h.live_walkNext hn hstack) walkNext_empty (by
        rw [hahead, List.length_cons] at hfuel
        omega)
      cases hsome : n.pfx.isSome with
      | false =>
        refine ⟨below, ?_, hahead ▸ hsub.trans (List.sublist_cons_self _ _), fun b => ?_⟩
        · rw [Tree.walkBreakLoop, hn, Option.bind_eq_bind, Option.bind_some, hsome,
            if_neg Bool.false_ne_true, hbelow]
        · have hnot : ¬(t.hasPfx b = true ∧ b = a) := by
            rintro ⟨hb, rfl⟩
            cases hb.symm.trans (hpfx.trans hsome)
          rw [hmem, h.open_ahead hn fun ha => absurd (ha.symm.trans (hpfx.trans hsome)) (by simp),
            and_or_left, or_iff_right hnot]
      | true =>
        have ha := hpfx.trans hsome
        cases hkeep : keep a with
        | true =>
          refine ⟨a :: below, ?_, hahead ▸ hsub.cons_cons a, fun b => ?_⟩
          · rw [Tree.walkBreakLoop, hn, Option.bind_eq_bind, Option.bind_some, hsome, if_pos rfl,
              hbody a ha, hkeep, hbelow]
            rfl
          · rw [List.mem_cons, hmem, h.open_ahead hn fun _ => hkeep, and_or_left]
            exact or_congr_left ⟨fun hb => ⟨hb ▸ ha, hb⟩, And.right⟩
        | false =>
          -- The walk goes on with the stack.
          have hnext : stack.head?.toList ++ stack.tail = stack := by cases stack <;> rfl
          have hrest : t.ahead (some a) stack = t.preorder (t.maxbits + 1) a ++
              t.ahead stack.head? stack.tail := by
            rw [ahead, ahead, hnext, Option.toList_some, List.singleton_append, List.flatMap_cons]
          have hfuel' : (t.ahead stack.head? stack.tail).length ≤ fuel := by
            rw [hrest, List.length_append, preorder_succ hn, List.length_cons] at hfuel
            omega
          obtain ⟨rest, hloop, hsub, hmem⟩ := ih (by rwa [hnext]) (by cases stack <;> simp) hfuel'
          refine ⟨rest, ?_, hrest ▸ hsub.trans (List.sublist_append_right _ _), fun b => ?_⟩
          · rw [Tree.walkBreakLoop, hn, Option.bind_eq_bind, Option.bind_some, hsome, if_pos rfl,
              hbody a ha, hkeep]
            exact hloop
          · have hclosed : ¬t.Open keep a b := fun hopen =>
              absurd ((hopen.2 a Relation.ReflTransGen.refl hopen.1 ha).symm.trans hkeep) (by simp)
            rw [hmem, hnext]
            simp [hclosed]

/-- The way down to a prefix goes through every node with a shorter one. -/
theorem Inv.below_iff (h : Inv t label) {k k' : List Bool} (ha : t.links.key a = some k)
    (hb : t.links.key b = some k') :
    Below t.links.edge a b ↔ k <+: k' := by
  obtain ⟨hlivea, hka⟩ := h.shape.key ha
  obtain ⟨hliveb, hkb⟩ := h.shape.key hb
  rw [hka, hkb, take_prefix_iff]
  constructor
  · exact fun hab => ⟨h.shape.routed.bit_le hab, (h.shape.routed.agree_below hab).symm⟩
  · rintro ⟨hle, hagree⟩
    obtain ⟨z, hz, hza⟩ := h.shape.below_head hlivea
    obtain ⟨z', hz', hzb⟩ := h.shape.below_head hliveb
    obtain rfl : z = z' := Option.some.inj (hz.symm.trans hz')
    exact h.shape.below_of_agree hza hzb hle hagree

theorem hasPfx_iff : t.hasPfx a = true ↔ ∃ k, t.links.key a = some k := by
  rw [hasPfx, key_pfxAt, ← Option.isSome_map (f := Prefix.key), Option.isSome_iff_exists]

/-- **The way to a prefix is open** when no node with a shorter prefix of it breaks off. -/
theorem Inv.open_iff (h : Inv t label) {k' : List Bool} (hb : t.links.key b = some k') :
    (∃ a, t.head = some a ∧ t.Open keep a b) ↔ ∀ a k, t.links.key a = some k → k <+: k' →
    keep a = true := by
  obtain ⟨z, hz, hzb⟩ := h.shape.below_head (h.shape.key hb).1
  constructor
  · rintro ⟨z', hz', -, hopen⟩ a k ha hle
    obtain ⟨y, hy, hya⟩ := h.shape.below_head (h.shape.key ha).1
    obtain rfl : z' = y := Option.some.inj (hz'.symm.trans hy)
    exact hopen a hya ((h.below_iff ha hb).mpr hle) (hasPfx_iff.mpr ⟨k, ha⟩)
  · refine fun hkeep => ⟨z, hz, hzb, fun c _ hcb hc => ?_⟩
    obtain ⟨k, hk⟩ := hasPfx_iff.mp hc
    exact hkeep c k hk ((h.below_iff hk hb).mp hcb)

/-- **The walk** visits each node with a prefix once, if none of those with a shorter prefix of it
breaks off. -/
theorem Inv.walkBreak (h : Inv t label)
    (hbody : ∀ a k, t.links.key a = some k → body a = some (keep a)) :
    ∃ as, t.walkBreak body = some as ∧ as.Nodup ∧
      ∀ b, b ∈ as ↔ ∃ k', t.links.key b = some k' ∧ ∀ a k, t.links.key a = some k → k <+: k' →
      keep a = true := by
  have hbody' : ∀ a, t.hasPfx a = true → body a = some (keep a) :=
    fun a ha => (hasPfx_iff.mp ha).elim (hbody a)
  obtain ⟨as, hwalk, hsub, hmem⟩ := h.walkBreakLoop hbody' h.live_ahead_head (by simp)
    h.length_ahead_head
  refine ⟨as, hwalk, h.nodup_ahead_head.sublist hsub, fun b => ?_⟩
  rw [hmem, hasPfx_iff, List.append_nil]
  constructor
  · rintro ⟨⟨k', hk'⟩, a, ha, hopen⟩
    exact ⟨k', hk', (h.open_iff hk').mp ⟨a, Option.mem_toList.mp ha, hopen⟩⟩
  · rintro ⟨k', hk', hkeep⟩
    obtain ⟨a, ha, hopen⟩ := (h.open_iff hk').mpr hkeep
    exact ⟨⟨k', hk'⟩, a, Option.mem_toList.mpr ha, hopen⟩

end Walk

end Tree

end Ratbox.Patricia
