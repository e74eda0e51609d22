import Ratbox.Patricia.Search

/-!
# Changing a patricia tree

`rb_patricia_lookup` puts a prefix into a tree: at the glue node that tests the bit behind it, as a
leaf, above another node, or next to one under new glue. `rb_patricia_remove` takes one out: it
leaves glue behind, takes off a leaf and the glue above it, or puts the only child in the place of
the node. All of them keep the invariant, and change the stored prefixes by the one prefix.

Source: `libratbox/src/patricia.c`, lines 555–916.

## Main results

* `Patricia.Tree.Inv.lookup`, `Patricia.Tree.Inv.remove`: inserting and removing.
-/

namespace Ratbox.Patricia

open Address CritBit Option Function

variable {δ : Type}

namespace Tree

section Steps

variable {t : Tree δ} {a q : Addr} {n : Node δ} {f : Node δ → Node δ}

/-! ### What is written -/

theorem node_modify (hn : t.node a = some n) (f : Node δ → Node δ) :
    (t.modify a f).node = update t.node a (some (f n)) := by
  rw [modify, hn, map_some]

theorem links_alloc (hfree : t.node t.fresh = none) (n : Node δ) :
    (t.alloc n).links =
      { live := fun a => t.links.live a ∨ a = t.fresh
        edge := fun a d c => t.links.edge a d c ∨ (a = t.fresh ∧ n.child d = some c)
        parent := update t.links.parent t.fresh n.parent
        key := update t.links.key t.fresh (n.pfx.map (·.key))
        bit := update t.links.bit t.fresh n.bit
        head := t.head } := by
  have hnode : ∀ b, b ≠ t.fresh → (t.alloc n).node b = t.node b := fun b hb =>
    update_of_ne hb ..
  have hnew : (t.alloc n).node t.fresh = some n := update_self ..
  refine Links.ext ?_ ?_ ?_ ?_ ?_ rfl
  · funext b
    by_cases hb : b = t.fresh
    · subst hb
      simp [links, hnew]
    · simp [links, hnode b hb, hb]
  · funext b d c
    by_cases hb : b = t.fresh
    · subst hb
      simp [links, hnew, hfree]
    · simp [links, hnode b hb, hb]
  all_goals
    funext b
    by_cases hb : b = t.fresh
    · subst hb
      simp [links, hnew]
    · simp [links, hnode b hb, hb]

theorem links_free (a : Addr) :
    (t.free a).links =
      { live := fun b => t.links.live b ∧ b ≠ a
        edge := fun b d c => t.links.edge b d c ∧ b ≠ a
        parent := update t.links.parent a none
        key := update t.links.key a none
        bit := update t.links.bit a 0
        head := t.head } := by
  have hnode : ∀ b, b ≠ a → (t.free a).node b = t.node b := fun b hb => update_of_ne hb ..
  have hgone : (t.free a).node a = none := update_self ..
  refine Links.ext ?_ ?_ ?_ ?_ ?_ rfl
  · funext b
    by_cases hb : b = a
    · subst hb
      simp [links, hgone]
    · simp [links, hnode b hb, hb]
  · funext b d c
    by_cases hb : b = a
    · subst hb
      simp [links, hgone]
    · simp [links, hnode b hb, hb]
  all_goals
    funext b
    by_cases hb : b = a
    · subst hb
      simp [links, hgone]
    · simp [links, hnode b hb, hb]

theorem fresh_alloc (n : Node δ) : (t.alloc n).fresh = t.fresh + 1 := rfl

/-- A node is written, but for its children. -/
theorem links_modify (hn : t.node a = some n) (hbit : (f n).bit = n.bit)
    (hchild : (f n).child = n.child) :
    (t.modify a f).links =
      { t.links with
        parent := update t.links.parent a (f n).parent
        key := update t.links.key a ((f n).pfx.map (·.key)) } := by
  have hnode : ∀ b, b ≠ a → (t.modify a f).node b = t.node b := fun b hb =>
    update_of_ne hb ..
  have hself : (t.modify a f).node a = some (f n) := by
    rw [node_modify hn, update_self]
  refine Links.ext ?_ ?_ ?_ ?_ ?_ rfl
  · funext b
    by_cases hb : b = a
    · subst hb
      simp [links, hself, hn]
    · simp [links, hnode b hb]
  · funext b d c
    by_cases hb : b = a
    · subst hb
      simp [links, hself, hn, hchild]
    · simp [links, hnode b hb]
  · funext b
    by_cases hb : b = a
    · subst hb
      simp [links, hself]
    · simp [links, hnode b hb, hb]
  · funext b
    by_cases hb : b = a
    · subst hb
      simp [links, hself]
    · simp [links, hnode b hb, hb]
  · funext b
    by_cases hb : b = a
    · subst hb
      simp [links, hself, hn, hbit]
    · simp [links, hnode b hb]

theorem links_setChild (hn : t.node q = some n) (e : Bool) (c : Option Addr) :
    (t.modify q (·.setChild e c)).links =
      { t.links with
        edge := fun x d y =>
          (t.links.edge x d y ∧ ¬(x = q ∧ d = e)) ∨ (x = q ∧ d = e ∧ c = some y) } := by
  have hnode : ∀ b, b ≠ q → (t.modify q (·.setChild e c)).node b = t.node b := fun b hb =>
    update_of_ne hb ..
  have hself : (t.modify q (·.setChild e c)).node q = some (n.setChild e c) := by
    rw [node_modify hn, update_self]
  refine Links.ext ?_ ?_ ?_ ?_ ?_ rfl
  · funext b
    by_cases hb : b = q
    · subst hb
      simp [links, hself, hn]
    · simp [links, hnode b hb]
  · funext b d y
    by_cases hb : b = q
    · subst hb
      by_cases hd : d = e
      · subst hd
        simp [links, hself, hn, Node.child_setChild]
      · simp [links, hself, hn, Node.child_setChild, hd]
    · simp [links, hnode b hb, hb]
  all_goals
    funext b
    by_cases hb : b = q
    · subst hb
      simp [links, hself, hn]
    · simp [links, hnode b hb]

theorem pfxAt_alloc (n : Node δ) : (t.alloc n).pfxAt = update t.pfxAt t.fresh n.pfx := by
  funext b
  by_cases hb : b = t.fresh
  · subst hb
    simp [pfxAt, alloc]
  · simp [pfxAt, alloc, hb]

theorem dataAt_alloc (n : Node δ) : (t.alloc n).dataAt = update t.dataAt t.fresh n.data := by
  funext b
  by_cases hb : b = t.fresh
  · subst hb
    simp [dataAt, alloc]
  · simp [dataAt, alloc, hb]

theorem pfxAt_free (a : Addr) : (t.free a).pfxAt = update t.pfxAt a none := by
  funext b
  by_cases hb : b = a
  · subst hb
    simp [pfxAt, free]
  · simp [pfxAt, free, hb]

theorem dataAt_free (a : Addr) : (t.free a).dataAt = update t.dataAt a none := by
  funext b
  by_cases hb : b = a
  · subst hb
    simp [dataAt, free]
  · simp [dataAt, free, hb]

section

variable (hn : t.node a = some n)
include hn

theorem pfxAt_modify (f : Node δ → Node δ) : (t.modify a f).pfxAt = update t.pfxAt a (f n).pfx := by
  funext b
  by_cases hb : b = a
  · subst hb
    simp [pfxAt, node_modify hn]
  · simp [pfxAt, node_modify hn, hb]

theorem dataAt_modify (f : Node δ → Node δ) :
    (t.modify a f).dataAt = update t.dataAt a (f n).data := by
  funext b
  by_cases hb : b = a
  · subst hb
    simp [dataAt, node_modify hn]
  · simp [dataAt, node_modify hn, hb]

theorem pfxAt_node : t.pfxAt a = n.pfx := by
  rw [pfxAt, hn, bind_some]

theorem dataAt_node : t.dataAt a = n.data := by
  rw [dataAt, hn, bind_some]

end

/-! ### The nodes are counted -/

theorem Sane.not_fresh (h : t.Sane) : t.node t.fresh = none := by
  cases hn : t.node t.fresh with
  | none => rfl
  | some n => exact absurd (h.fresh _ n hn) (lt_irrefl _)

theorem Sane.alloc (h : t.Sane) {n : Node δ} (hdata : n.pfx = none → n.data = none) :
    (t.alloc n).Sane := by
  have hnode : ∀ b, b ≠ t.fresh → (t.alloc n).node b = t.node b := fun b hb =>
    update_of_ne hb ..
  have hnew : (t.alloc n).node t.fresh = some n := update_self ..
  refine ⟨?_, ?_, ?_⟩
  · intro b m hb
    by_cases hbf : b = t.fresh
    · exact hbf ▸ Nat.lt_succ_self _
    · rw [hnode b hbf] at hb
      exact (h.fresh b m hb).trans (Nat.lt_succ_self _)
  · intro b m hb
    by_cases hbf : b = t.fresh
    · subst hbf
      cases hnew.symm.trans hb
      exact hdata
    · rw [hnode b hbf] at hb
      exact h.data b m hb
  · have hnodes : (t.alloc n).nodes = t.nodes + 1 := by
      have hfilter : ((Finset.range (t.alloc n).fresh).filter fun a =>
          ((t.alloc n).node a).isSome) = insert t.fresh ((Finset.range t.fresh).filter fun a =>
              (t.node a).isSome) := by
        ext b
        rw [show (t.alloc n).fresh = t.fresh + 1 from rfl, Finset.mem_insert, Finset.mem_filter,
          Finset.mem_filter, Finset.mem_range, Finset.mem_range, Nat.lt_succ_iff_lt_or_eq]
        by_cases hb : b = t.fresh
        · subst hb
          simp [hnew]
        · simp [hnode b hb, hb]
      rw [nodes, hfilter, Finset.card_insert_of_notMem (by simp), nodes]
    rw [hnodes, show (t.alloc n).numActiveNode = t.numActiveNode + 1 from rfl, h.count]
    rfl

theorem Sane.free (h : t.Sane) (hn : t.node a = some n) : (t.free a).Sane := by
  have hnode : ∀ b, b ≠ a → (t.free a).node b = t.node b := fun b hb => update_of_ne hb ..
  have hgone : (t.free a).node a = none := update_self ..
  have hof : ∀ b m, (t.free a).node b = some m → t.node b = some m := by
    intro b m hb
    by_cases hba : b = a
    · subst hba
      simp [hgone] at hb
    · rwa [hnode b hba] at hb
  refine ⟨fun b m hb => h.fresh b m (hof b m hb), fun b m hb => h.data b m (hof b m hb), ?_⟩
  have hmem : a ∈ (Finset.range t.fresh).filter fun a => (t.node a).isSome := by
    simp [hn, h.fresh a n hn]
  have hfilter : ((Finset.range (t.free a).fresh).filter fun b => ((t.free a).node b).isSome) =
      ((Finset.range t.fresh).filter fun b => (t.node b).isSome).erase a := by
    ext b
    by_cases hb : b = a
    · subst hb
      simp [hgone]
    · simp [hnode b hb, hb, show (t.free a).fresh = t.fresh from rfl]
  have hcard := Finset.card_erase_add_one hmem
  rw [nodes, hfilter, show (t.free a).numActiveNode = t.numActiveNode - 1 from rfl, h.count, nodes]
  omega

theorem Sane.modify (h : t.Sane) (hn : t.node a = some n)
    (hdata : (f n).pfx = none → (f n).data = none) : (t.modify a f).Sane := by
  have hnode : ∀ b, b ≠ a → (t.modify a f).node b = t.node b := fun b hb =>
    update_of_ne hb ..
  have hself : (t.modify a f).node a = some (f n) := by
    rw [node_modify hn, update_self]
  refine ⟨?_, ?_, ?_⟩
  · intro b m hb
    by_cases hba : b = a
    · exact hba ▸ h.fresh a n hn
    · rw [hnode b hba] at hb
      exact h.fresh b m hb
  · intro b m hb
    by_cases hba : b = a
    · subst hba
      cases hself.symm.trans hb
      exact hdata
    · rw [hnode b hba] at hb
      exact h.data b m hb
  · have hsome : ∀ b, ((t.modify a f).node b).isSome = (t.node b).isSome := by
      intro b
      by_cases hba : b = a
      · subst hba
        rw [hself, hn]
        rfl
      · rw [hnode b hba]
    have hnodes : (t.modify a f).nodes = t.nodes := by
      rw [nodes, nodes]
      simp only [hsome]
      rfl
    rw [hnodes]
    exact h.count

/-! ### A node is replaced at its parent -/

theorem replaceChild_spec {parent c : Option Addr} (hroot : parent = none → t.head = some a)
    (hchild : ∀ q, parent = some q → ∃ n e, t.node q = some n ∧ n.child e = some a)
    (hone : ∀ q n, parent = some q → t.node q = some n → ¬(n.l = some a ∧ n.r = some a)) :
    ∃ t', t.replaceChild parent a c = some t' ∧
      t'.links =
        { t.links with
          edge := fun x d y => (t.links.edge x d y ∧ ¬(parent = some x ∧ y = a)) ∨
            (parent = some x ∧ t.links.edge x d a ∧ c = some y)
          head := if parent = none then c else t.head } ∧
      (t.Sane → t'.Sane) ∧ t'.maxbits = t.maxbits ∧ t'.pfxAt = t.pfxAt ∧ t'.dataAt = t.dataAt ∧
      ∀ b, parent ≠ some b → t'.node b = t.node b := by
  cases parent with
  | none =>
    refine ⟨{ t with head := c }, ?_, ?_, fun h => ⟨h.fresh, h.data, h.count⟩, rfl, rfl, rfl,
      fun _ _ => rfl⟩
    · rw [replaceChild, if_pos (hroot rfl)]
    · refine Links.ext rfl ?_ rfl rfl rfl (by simp [links])
      funext x d y
      simp [links]
  | some q =>
    obtain ⟨n, e, hn, he⟩ := hchild q rfl
    -- The child is on one side only.
    have hside : ∀ d, n.child d = some a → d = e := by
      intro d hd
      by_contra hne
      refine hone q n rfl hn ?_
      cases d <;> cases e <;> simp_all [Node.child]
    have hresult : t.replaceChild (some q) a c = some (t.modify q (·.setChild e c)) := by
      rw [replaceChild, hn, bind_eq_bind, bind_some]
      cases e with
      | true => rw [if_pos (by simpa [Node.child] using he)]
      | false =>
        rw [if_neg fun hr => absurd (hside true (by simpa [Node.child] using hr)) (by simp),
          if_pos (by simpa [Node.child] using he)]
    refine ⟨_, hresult, ?_, fun h => h.modify hn fun hp => ?_, rfl, ?_, ?_, fun b hb => ?_⟩
    · rw [links_setChild hn]
      refine Links.ext rfl ?_ rfl rfl rfl (by simp [links])
      funext x d y
      refine propext (or_congr (and_congr_right fun hxy => not_congr ?_) ?_)
      · constructor
        · rintro ⟨rfl, rfl⟩
          rw [edge_iff hn, he] at hxy
          exact ⟨rfl, (some.inj hxy).symm⟩
        · rintro ⟨hx, rfl⟩
          cases hx
          exact ⟨rfl, hside d ((edge_iff hn).mp hxy)⟩
      · constructor
        · rintro ⟨rfl, rfl, hc⟩
          exact ⟨rfl, (edge_iff hn).mpr he, hc⟩
        · rintro ⟨hx, hxa, hc⟩
          cases hx
          exact ⟨rfl, hside d ((edge_iff hn).mp hxa), hc⟩
    · rw [Node.pfx_setChild] at hp
      rw [Node.data_setChild]
      exact h.data q n hn hp
    · rw [pfxAt_modify hn, Node.pfx_setChild, ← pfxAt_node hn, update_eq_self]
    · rw [dataAt_modify hn, Node.data_setChild, ← dataAt_node hn, update_eq_self]
    · exact update_of_ne (fun hbq => hb (by rw [hbq])) ..

end Steps

section Shape

variable {t : Tree δ} {label : Addr → ℕ → Bool} {u c : Addr} {n : Node δ}
  (h : Shape t.links label t.maxbits)
include h

/-- The parent of a node has it as a child, also after other nodes are allocated. -/
theorem replaceChild_of_shape (hn : t.node u = some n) {t₀ : Tree δ} (hhead : t₀.head = t.head)
    (hsame : ∀ q, t.links.live q → t₀.node q = t.node q) (c : Option Addr) :
    ∃ t', t₀.replaceChild n.parent u c = some t' ∧
      t'.links =
        { t₀.links with
          edge := fun x d y => (t₀.links.edge x d y ∧ ¬(n.parent = some x ∧ y = u)) ∨
            (n.parent = some x ∧ t₀.links.edge x d u ∧ c = some y)
          head := if n.parent = none then c else t₀.head } ∧
      (t₀.Sane → t'.Sane) ∧ t'.maxbits = t₀.maxbits ∧ t'.pfxAt = t₀.pfxAt ∧ t'.dataAt = t₀.dataAt ∧
      ∀ b, n.parent ≠ some b → t'.node b = t₀.node b := by
  have hparent := parent_eq hn
  refine replaceChild_spec ?_ ?_ ?_
  · intro hnone
    rw [hhead]
    exact (h.root_iff (live_iff hn)).mp (hparent.trans hnone)
  · intro q hq
    obtain ⟨e, he⟩ := h.parent_iff.mp (hparent.trans hq)
    obtain ⟨m, hm, hc⟩ := he
    exact ⟨m, e, (hsame q (live_iff hm)).trans hm, hc⟩
  · rintro q m hq hm ⟨hl, hr⟩
    obtain ⟨e, he⟩ := h.parent_iff.mp (hparent.trans hq)
    rw [hsame q (h.live_edge he).1] at hm
    have hleft := h.routed.turn ((edge_iff hm).mpr (show m.child false = some u from hl))
    have hright := h.routed.turn ((edge_iff hm).mpr (show m.child true = some u from hr))
    rw [hleft] at hright
    cases hright

/-- A leaf is taken out. -/
theorem bypass_leaf (hn : t.node u = some n) (hleaf : ∀ d, n.child d = none) :
    ∃ t', t.bypass u n.parent none = some t' ∧ t'.links = t.links.detach u ∧
      (t.Sane → t'.Sane) ∧ t'.maxbits = t.maxbits ∧
      t'.pfxAt = update t.pfxAt u none ∧ t'.dataAt = update t.dataAt u none := by
  obtain ⟨t₁, hreplace, hlinks, hsane, hmax, hpfx, hdata, hrest⟩ :=
    replaceChild_of_shape h hn rfl (fun _ _ => rfl) none
  have hparent := parent_eq hn
  have hself : n.parent ≠ some u := by
    intro hu
    obtain ⟨e, he⟩ := h.parent_iff.mp (hparent.trans hu)
    exact lt_irrefl _ (h.routed.bit_lt he)
  refine ⟨t₁.free u, by rw [Tree.bypass, hreplace]; rfl, ?_,
    fun hs => (hsane hs).free ((hrest u hself).trans hn), hmax, ?_, ?_⟩
  · rw [links_free, show t₁.head = t₁.links.head from rfl, hlinks]
    refine Links.ext rfl ?_ rfl rfl rfl ?_
    · funext x d y
      simp only [Links.detach, reduceCtorEq, and_false, or_false, eq_iff_iff]
      constructor
      · rintro ⟨⟨he, hnot⟩, -⟩
        refine ⟨he, fun hy => hnot ⟨?_, hy⟩⟩
        subst hy
        exact hparent.symm.trans (h.parent_iff.mpr ⟨d, he⟩)
      · rintro ⟨he, hy⟩
        refine ⟨⟨he, fun hnot => hy hnot.2⟩, ?_⟩
        rintro rfl
        rw [edge_iff hn, hleaf] at he
        cases he
    · dsimp only [Links.detach]
      rw [← hparent]
      exact if_congr (h.root_iff (live_iff hn)) rfl rfl
  · rw [pfxAt_free, hpfx]
  · rw [dataAt_free, hdata]

/-- A node with one child is taken out. -/
theorem bypass_child (hn : t.node u = some n) {d : Bool} (hc : n.child d = some c)
    (honly : ∀ e y, n.child e = some y → y = c) :
    ∃ t', t.bypass u n.parent (some c) = some t' ∧ t'.links = t.links.bypass u c ∧
      (t.Sane → t'.Sane) ∧ t'.maxbits = t.maxbits ∧
      t'.pfxAt = update t.pfxAt u none ∧ t'.dataAt = update t.dataAt u none := by
  obtain ⟨t₁, hreplace, hlinks, hsane, hmax, hpfx, hdata, hrest⟩ :=
    replaceChild_of_shape h hn rfl (fun _ _ => rfl) (some c)
  have hparent := parent_eq hn
  have hedge : t.links.edge u d c := (edge_iff hn).mpr hc
  have hlt := h.routed.bit_lt hedge
  have hup : ∀ x, n.parent = some x → t.links.bit x < t.links.bit u := by
    intro x hx
    obtain ⟨e, he⟩ := h.parent_iff.mp (hparent.trans hx)
    exact h.routed.bit_lt he
  have hself : n.parent ≠ some u := fun hu => lt_irrefl _ (hup u hu)
  have hnotc : n.parent ≠ some c := fun hu => lt_irrefl _ ((hup c hu).trans hlt)
  have hcu : c ≠ u := by
    rintro rfl
    exact lt_irrefl _ hlt
  obtain ⟨m, hm⟩ := exists_node (h.live_edge hedge).2
  have hm₁ : t₁.node c = some m := (hrest c hnotc).trans hm
  have hn₂ : (t₁.modify c fun n' => { n' with parent := n.parent }).node u = some n :=
    (update_of_ne hcu.symm ..).trans ((hrest u hself).trans hn)
  refine ⟨(t₁.modify c fun n' => { n' with parent := n.parent }).free u,
    by rw [Tree.bypass, hreplace, bind_eq_bind, bind_some]; dsimp only; rw [hm₁]; rfl,
    ?_, fun hs => Sane.free ((hsane hs).modify hm₁ fun hp => (hsane hs).data c m hm₁ hp) hn₂, hmax,
    ?_, ?_⟩
  · rw [links_free, show (t₁.modify c fun n' => { n' with parent := n.parent }).head = t₁.links.head
      from rfl, links_modify hm₁ rfl rfl, hlinks]
    refine Links.ext rfl ?_ ?_ ?_ rfl ?_
    · funext x e y
      simp only [Links.bypass, some.injEq, eq_iff_iff]
      constructor
      · rintro ⟨⟨he, hnot⟩ | ⟨hx, he, rfl⟩, hxu⟩
        · refine .inl ⟨he, hxu, fun hy => hnot ⟨?_, hy⟩⟩
          subst hy
          exact hparent.symm.trans (h.parent_iff.mpr ⟨e, he⟩)
        · exact .inr ⟨he, rfl⟩
      · rintro (⟨he, hxu, hyu⟩ | ⟨he, rfl⟩)
        · exact ⟨Or.inl ⟨he, fun hnot => hyu hnot.2⟩, hxu⟩
        · have hx : n.parent = some x := hparent.symm.trans (h.parent_iff.mpr ⟨e, he⟩)
          refine ⟨Or.inr ⟨hx, he, rfl⟩, ?_⟩
          rintro rfl
          exact hself hx
    · dsimp only [Links.bypass]
      rw [hparent, update_comm hcu]
    · have hkey : t.links.key c = m.pfx.map (·.key) := key_eq hm
      dsimp only [Links.bypass]
      rw [← hkey, update_eq_self]
    · dsimp only [Links.bypass]
      rw [← hparent]
      exact if_congr (h.root_iff (live_iff hn)) rfl rfl
  · rw [pfxAt_free, pfxAt_modify hm₁, ← pfxAt_node hm₁, update_eq_self, hpfx]
  · rw [dataAt_free, dataAt_modify hm₁, ← dataAt_node hm₁, update_eq_self, hdata]

end Shape

section Insert

variable {t : Tree δ} {label : Addr → ℕ → Bool} {u : Addr} {n : Node δ} {p : Prefix} {d : Bool}

theorem not_live_fresh (h : t.Sane) : ¬t.links.live t.fresh := by
  simp [links, h.not_fresh]

section

variable (h : Inv t label)
include h

/-- Glue gets a prefix. -/
theorem Inv.setPfx (hn : t.node u = some n) (hbit : n.bit = p.bitlen)
    (hdata : n.data = none) (hagree : Agree p.bitlen p.bits (label u)) :
    Inv (t.modify u fun n => { n with pfx := some p }) label := by
  have hlinks : (t.modify u fun n => { n with pfx := some p }).links =
      t.links.setKey u (some p.key) := by
    rw [links_modify hn rfl rfl, Links.setKey]
    refine Links.ext rfl rfl ?_ rfl rfl rfl
    rw [← parent_eq hn, update_eq_self]
  refine ⟨?_, ?_, h.sane.modify hn fun _ => hdata⟩
  · rw [hlinks]
    refine h.shape.setKey (live_iff hn) ?_
    rintro _ ⟨⟩
    rw [bit_eq hn, hbit]
    exact take_inj.mpr ⟨rfl, hagree⟩
  · rw [hlinks]
    exact h.full.setKey (by rintro ⟨⟩)

/-- A prefix is put below a node. -/
theorem Inv.addLeaf (hn : t.node u = some n) (hchild : n.child d = none)
    (hbit : n.bit < p.bitlen) (hmax : p.bitlen ≤ t.maxbits)
    (hagree : Agree n.bit p.bits (label u)) (hturn : p.bits n.bit = d) :
    Inv ((t.alloc (leaf p (some u))).modify u (·.setChild d (some t.fresh)))
        (update label t.fresh p.bits) ∧
      ((t.alloc (leaf p (some u))).modify u (·.setChild d (some t.fresh))).pfxAt =
        update t.pfxAt t.fresh (some p) ∧
      ((t.alloc (leaf p (some u))).modify u (·.setChild d (some t.fresh))).dataAt = t.dataAt := by
  have hfresh := not_live_fresh h.sane
  have hne : u ≠ t.fresh := fun hu => hfresh (hu ▸ live_iff hn)
  have hn' : (t.alloc (leaf p (some u))).node u = some n :=
    (update_of_ne hne ..).trans hn
  have hfree : ∀ z, ¬t.links.edge u d z := fun z hz => by
    rw [edge_iff hn, hchild] at hz
    cases hz
  have hleaf : ∀ e y, (leaf p (some u) : Node δ).child e ≠ some y := by
    intro e y
    cases e <;> simp [leaf, Node.child]
  have hlinks : ((t.alloc (leaf p (some u))).modify u (·.setChild d (some t.fresh))).links =
      t.links.attach u d t.fresh p.bitlen p.key := by
    rw [links_setChild hn', links_alloc h.sane.not_fresh]
    refine Links.ext rfl ?_ rfl rfl rfl rfl
    funext x e y
    simp only [Links.attach, hleaf, and_false, or_false, some.injEq, eq_iff_iff]
    constructor
    · rintro (⟨he, -⟩ | ⟨hx, he, hy⟩)
      · exact .inl he
      · exact .inr ⟨hx, he, hy.symm⟩
    · rintro (he | ⟨hx, he, hy⟩)
      · refine .inl ⟨he, ?_⟩
        rintro ⟨rfl, rfl⟩
        exact hfree y he
      · exact .inr ⟨hx, he, hy.symm⟩
  refine ⟨⟨?_, ?_, ?_⟩, ?_, ?_⟩
  · rw [hlinks]
    have hb := bit_eq hn
    refine h.shape.attach (live_iff hn) hfresh hfree (by omega) hmax ?_ ?_ rfl
    · rw [hb]
      exact hagree
    · rw [hb]
      exact hturn
  · rw [hlinks]
    have hbut := (h.full.but t.fresh).attach (x := u) (d := d) (y := t.fresh) (k := p.key) p.bitlen
    refine hbut.full fun _ hk => ?_
    simp [Links.attach] at hk
  · refine (h.sane.alloc (by simp [leaf])).modify hn' fun hp => ?_
    rw [Node.pfx_setChild] at hp
    rw [Node.data_setChild]
    exact h.sane.data u n hn hp
  · rw [pfxAt_modify hn', Node.pfx_setChild, pfxAt_alloc, ← pfxAt_node hn]
    refine update_eq_iff.mpr ⟨?_, fun _ _ => rfl⟩
    rw [update_of_ne hne]
  · rw [dataAt_modify hn', Node.data_setChild, dataAt_alloc, ← dataAt_node hn]
    have hnone : t.dataAt t.fresh = none := by rw [dataAt, h.sane.not_fresh]; rfl
    rw [show (leaf p (some u) : Node δ).data = none from rfl, ← hnone, update_eq_self,
      update_eq_self]

/-- Another node is put where a node was, above it. -/
theorem Inv.above (hn : t.node u = some n) (t₀ : Tree δ)
    (hhead : t₀.head = t.head) (hsame : ∀ q, t.links.live q → t₀.node q = t.node q) (y : Addr) :
    ∃ t₁, t₀.replaceChild n.parent u (some y) = some t₁ ∧
      (t₁.modify u fun n => { n with parent := some y }).links =
        { t₀.links with
          edge := fun a e b => (t₀.links.edge a e b ∧ (b = u → ¬t.links.live a)) ∨
            (t.links.edge a e u ∧ b = y)
          parent := update t₀.links.parent u (some y)
          head := if t.head = some u then some y else t.head } ∧
      (t₀.Sane → (t₁.modify u fun n => { n with parent := some y }).Sane) ∧
      t₁.maxbits = t₀.maxbits ∧
      (t₁.modify u fun n => { n with parent := some y }).pfxAt = t₀.pfxAt ∧
      (t₁.modify u fun n => { n with parent := some y }).dataAt = t₀.dataAt := by
  obtain ⟨t₁, hreplace, hlinks, hsane, hmax, hpfx, hdata, hrest⟩ :=
    replaceChild_of_shape h.shape hn hhead hsame (some y)
  have hparent := parent_eq hn
  have hself : n.parent ≠ some u := by
    intro hu
    obtain ⟨e, he⟩ := h.shape.parent_iff.mp (hparent.trans hu)
    exact lt_irrefl _ (h.shape.routed.bit_lt he)
  have hn₁ : t₁.node u = some n := (hrest u hself).trans ((hsame u (live_iff hn)).trans hn)
  have hedge : ∀ {a e b}, t.links.live a → (t₀.links.edge a e b ↔ t.links.edge a e b) := by
    intro a e b ha
    obtain ⟨m, hm⟩ := exists_node ha
    rw [edge_iff hm, edge_iff ((hsame a ha).trans hm)]
  have hup : ∀ {a}, n.parent = some a → t.links.live a := by
    intro a ha
    obtain ⟨e, he⟩ := h.shape.parent_iff.mp (hparent.trans ha)
    exact (h.shape.live_edge he).1
  have hof : ∀ {a e}, t.links.edge a e u → n.parent = some a := fun he =>
    hparent.symm.trans (h.shape.parent_iff.mpr ⟨_, he⟩)
  refine ⟨t₁, hreplace, ?_, ?_, hmax, ?_, ?_⟩
  · rw [links_modify hn₁ rfl rfl, hlinks]
    refine Links.ext rfl ?_ rfl ?_ rfl ?_
    · funext a e b
      refine propext (or_congr ?_ ?_)
      · refine and_congr_right fun hab => ?_
        constructor
        · rintro hnot rfl hlive
          exact hnot ⟨hof ((hedge hlive).mp hab), rfl⟩
        · rintro hnot ⟨ha, hb⟩
          exact hnot hb (hup ha)
      · constructor
        · rintro ⟨ha, hab, hy⟩
          exact ⟨(hedge (hup ha)).mp hab, (some.inj hy).symm⟩
        · rintro ⟨hab, rfl⟩
          exact ⟨hof hab, (hedge (hup (hof hab))).mpr hab, rfl⟩
    · have hkey : t₀.links.key u = n.pfx.map (·.key) := by
        rw [key_eq ((hsame u (live_iff hn)).trans hn)]
      dsimp only
      rw [← hkey, update_eq_self]
    · dsimp only
      rw [← hparent, hhead]
      exact if_congr (h.shape.root_iff (live_iff hn)) rfl rfl
  · exact fun hs => (hsane hs).modify hn₁ fun hp => (hsane hs).data u n hn₁ hp
  · rw [pfxAt_modify hn₁, ← pfxAt_node hn₁, update_eq_self, hpfx]
  · rw [dataAt_modify hn₁, ← dataAt_node hn₁, update_eq_self, hdata]

/-- A prefix is put above a node. -/
theorem Inv.addAbove (hn : t.node u = some n) (hbit : p.bitlen < n.bit)
    (hparent : ∀ q m, n.parent = some q → t.node q = some m → m.bit < p.bitlen)
    (hagree : Agree p.bitlen (label u) p.bits) (hturn : label u p.bitlen = d) :
    ∃ t₁, (t.alloc ((leaf p n.parent).setChild d (some u))).replaceChild n.parent u (some t.fresh) =
        some t₁ ∧
      Inv (t₁.modify u fun n => { n with parent := some t.fresh })
        (update label t.fresh p.bits) ∧
      t₁.maxbits = t.maxbits ∧
      (t₁.modify u fun n => { n with parent := some t.fresh }).pfxAt =
        update t.pfxAt t.fresh (some p) ∧
      (t₁.modify u fun n => { n with parent := some t.fresh }).dataAt = t.dataAt := by
  have hfresh := not_live_fresh h.sane
  have hsame : ∀ q, t.links.live q →
      (t.alloc ((leaf p n.parent).setChild d (some u))).node q = t.node q := by
    intro q hq
    refine update_of_ne ?_ ..
    rintro rfl
    exact hfresh hq
  have hchild : ∀ e y, ((leaf p n.parent : Node δ).setChild d (some u)).child e = some y ↔
      e = d ∧ y = u := by
    intro e y
    rw [Node.child_setChild]
    split_ifs with hed
    · simp [hed, eq_comm]
    · cases e <;> simp [leaf, Node.child, hed]
  obtain ⟨t₁, hreplace, hlinks, hsane, hmax, hpfx, hdata⟩ :=
    h.above hn (t.alloc ((leaf p n.parent).setChild d (some u))) rfl hsame t.fresh
  have hsplice : (t₁.modify u fun n => { n with parent := some t.fresh }).links =
      t.links.splice u t.fresh d p.bitlen (some p.key) := by
    rw [hlinks, links_alloc h.sane.not_fresh]
    refine Links.ext rfl ?_ ?_ ?_ ?_ rfl
    · funext a e b
      simp only [Links.splice, hchild, eq_iff_iff]
      constructor
      · rintro (⟨he | ⟨rfl, rfl, rfl⟩, hb⟩ | he)
        · exact .inl ⟨he, fun hbu => hb hbu (h.shape.live_edge he).1⟩
        · exact .inr (.inr ⟨rfl, rfl, rfl⟩)
        · exact .inr (.inl he)
      · rintro (⟨he, hb⟩ | he | ⟨rfl, rfl, rfl⟩)
        · exact .inl ⟨Or.inl he, fun hbu => absurd hbu hb⟩
        · exact .inr he
        · exact .inl ⟨Or.inr ⟨rfl, rfl, rfl⟩, fun _ => hfresh⟩
    · dsimp only [Links.splice]
      rw [parent_eq hn, Node.parent_setChild]
      rfl
    · dsimp only [Links.splice]
      rw [Node.pfx_setChild]
      rfl
    · dsimp only [Links.splice]
      rw [Node.bit_setChild]
      rfl
  refine ⟨t₁, hreplace, ⟨?_, ?_, hsane (h.sane.alloc ?_)⟩, hmax, ?_, ?_⟩
  · rw [hsplice, show (t₁.modify u fun n => { n with parent := some t.fresh }).maxbits =
      t.maxbits from hmax]
    refine h.shape.splice (live_iff hn) hfresh (by rwa [bit_eq hn]) ?_ hagree hturn ?_
    · intro q hq
      obtain ⟨e, he⟩ := h.shape.parent_iff.mp hq
      obtain ⟨m, hm⟩ := exists_node (h.shape.live_edge he).1
      rw [bit_eq hm]
      exact hparent q m ((parent_eq hn).symm.trans hq) hm
    · rintro _ ⟨⟩
      rfl
  · rw [hsplice]
    refine (h.full.splice p.bitlen (some p.key)).full fun _ hk => ?_
    simp [Links.splice] at hk
  · simp [leaf]
  · rw [hpfx, pfxAt_alloc, Node.pfx_setChild]
    rfl
  · have hnone : t.dataAt t.fresh = none := by rw [dataAt, h.sane.not_fresh]; rfl
    rw [hdata, dataAt_alloc, Node.data_setChild, show (leaf p n.parent : Node δ).data =
      none from rfl, ← hnone, update_eq_self]

/-- A prefix is put next to a node, under new glue. -/
theorem Inv.addBeside {differ : ℕ} (hn : t.node u = some n)
    (hbit : differ < n.bit) (hlen : differ < p.bitlen) (hmax : p.bitlen ≤ t.maxbits)
    (hparent : ∀ q m, n.parent = some q → t.node q = some m → m.bit < differ)
    (hagree : Agree differ (label u) p.bits) (hside : p.bits differ = d)
    (hturn : label u differ = !d) {t₀ : Tree δ}
    (ht₀ : t₀ = (t.alloc (leaf p (some (t.fresh + 1)))).alloc
      (((⟨differ, none, none, none, n.parent, none⟩ : Node δ).setChild d (some t.fresh)).setChild
        (!d) (some u))) :
    ∃ t₁, t₀.replaceChild n.parent u (some (t.fresh + 1)) = some t₁ ∧
      Inv (t₁.modify u fun n => { n with parent := some (t.fresh + 1) })
        (update (update label (t.fresh + 1) p.bits) t.fresh p.bits) ∧
      t₁.maxbits = t.maxbits ∧
      (t₁.modify u fun n => { n with parent := some (t.fresh + 1) }).pfxAt =
        update t.pfxAt t.fresh (some p) ∧
      (t₁.modify u fun n => { n with parent := some (t.fresh + 1) }).dataAt = t.dataAt := by
  have hfresh := not_live_fresh h.sane
  have hsane₁ : (t.alloc (leaf p (some (t.fresh + 1)))).Sane := h.sane.alloc (by simp [leaf])
  have hfresh₁ : ¬t.links.live (t.fresh + 1) := by
    intro hlive
    obtain ⟨m, hm⟩ := exists_node hlive
    exact Nat.not_succ_lt_self (h.sane.fresh _ m hm)
  have hne : t.fresh ≠ t.fresh + 1 := (Nat.succ_ne_self _).symm
  have hneu : t.fresh ≠ u := by
    rintro rfl
    exact hfresh (live_iff hn)
  have hsame : ∀ q, t.links.live q → t₀.node q = t.node q := by
    intro q hq
    rw [ht₀]
    refine (update_of_ne ?_ ..).trans (update_of_ne ?_ ..)
    · rintro rfl
      exact hfresh₁ hq
    · rintro rfl
      exact hfresh hq
  have hleaf : ∀ e y, (leaf p (some (t.fresh + 1)) : Node δ).child e ≠ some y := by
    intro e y
    cases e <;> simp [leaf, Node.child]
  have hchild : ∀ e y, (((⟨differ, none, none, none, n.parent, none⟩ : Node δ).setChild d
      (some t.fresh)).setChild (!d) (some u)).child e = some y ↔
        (e = !d ∧ y = u) ∨ (e = d ∧ y = t.fresh) := by
    intro e y
    rw [Node.child_setChild, Node.child_setChild]
    cases d <;> cases e <;> simp [eq_comm]
  obtain ⟨t₁, hreplace, hlinks, hsane, hmax₁, hpfx, hdata⟩ :=
    h.above hn t₀ (by rw [ht₀]; rfl) hsame (t.fresh + 1)
  have hsplice : (t₁.modify u fun n => { n with parent := some (t.fresh + 1) }).links =
      (t.links.splice u (t.fresh + 1) (!d) differ none).attach (t.fresh + 1) d t.fresh p.bitlen
        p.key := by
    rw [hlinks, ht₀, links_alloc hsane₁.not_fresh, links_alloc h.sane.not_fresh]
    refine Links.ext ?_ ?_ ?_ ?_ ?_ rfl
    · funext a
      simp only [Links.attach, Links.splice, eq_iff_iff]
      exact or_right_comm
    · funext a e b
      simp only [Links.attach, Links.splice, hchild, hleaf, and_false, or_false, eq_iff_iff]
      constructor
      · rintro (⟨he | ⟨rfl, ⟨rfl, rfl⟩ | ⟨rfl, rfl⟩⟩, hb⟩ | he)
        · exact .inl (.inl ⟨he, fun hbu => hb hbu (h.shape.live_edge he).1⟩)
        · exact .inl (.inr (.inr ⟨rfl, rfl, rfl⟩))
        · exact .inr ⟨rfl, rfl, rfl⟩
        · exact .inl (.inr (.inl he))
      · rintro ((⟨he, hb⟩ | he | ⟨rfl, rfl, rfl⟩) | ⟨rfl, rfl, rfl⟩)
        · exact .inl ⟨Or.inl he, fun hbu => absurd hbu hb⟩
        · exact .inr he
        · exact .inl ⟨Or.inr ⟨rfl, Or.inl ⟨rfl, rfl⟩⟩, fun _ => hfresh₁⟩
        · exact .inl ⟨Or.inr ⟨rfl, Or.inr ⟨rfl, rfl⟩⟩, fun _ => hfresh₁⟩
    · dsimp only [Links.attach, Links.splice, fresh_alloc]
      rw [parent_eq hn, Node.parent_setChild, Node.parent_setChild,
        update_comm hne, update_comm hneu]
      rfl
    · dsimp only [Links.attach, Links.splice, fresh_alloc]
      rw [Node.pfx_setChild, Node.pfx_setChild, update_comm hne]
      rfl
    · dsimp only [Links.attach, Links.splice, fresh_alloc]
      rw [Node.bit_setChild, Node.bit_setChild, update_comm hne]
      rfl
  have hspliced : Shape (t.links.splice u (t.fresh + 1) (!d) differ none)
      (update label (t.fresh + 1) p.bits) t.maxbits := by
    refine h.shape.splice (live_iff hn) hfresh₁ (by rwa [bit_eq hn]) ?_ hagree hturn (by simp)
    intro q hq
    obtain ⟨e, he⟩ := h.shape.parent_iff.mp hq
    obtain ⟨m, hm⟩ := exists_node (h.shape.live_edge he).1
    rw [bit_eq hm]
    exact hparent q m ((parent_eq hn).symm.trans hq) hm
  have hglue : (t.links.splice u (t.fresh + 1) (!d) differ none).bit (t.fresh + 1) = differ :=
    update_self ..
  have hlabel : update label (t.fresh + 1) p.bits (t.fresh + 1) = p.bits :=
    update_self ..
  have hdrop : ∀ z, ¬(t.links.splice u (t.fresh + 1) (!d) differ none).edge (t.fresh + 1) d z := by
    rintro z (⟨he, -⟩ | ⟨he, -⟩ | ⟨-, hd, -⟩)
    · exact hfresh₁ (h.shape.live_edge he).1
    · exact hfresh₁ (h.shape.live_edge he).1
    · exact absurd hd (by simp)
  refine ⟨t₁, hreplace, ⟨?_, ?_, hsane ?_⟩, hmax₁.trans (by rw [ht₀]; rfl), ?_, ?_⟩
  · rw [hsplice, show (t₁.modify u fun n => { n with parent := some (t.fresh + 1) }).maxbits =
      t.maxbits from hmax₁.trans (by rw [ht₀]; rfl)]
    refine hspliced.attach (.inr rfl) ?_ hdrop (by rwa [hglue]) hmax ?_ ?_ rfl
    · rintro (hlive | heq)
      · exact hfresh hlive
      · exact hne heq
    · rw [hlabel]
      exact Agree.refl _ _
    · rw [hglue]
      exact hside
  · rw [hsplice]
    refine ((h.full.splice differ none).attach p.bitlen).full fun _ _ e => ?_
    by_cases hed : e = d
    · exact ⟨t.fresh, Or.inr ⟨rfl, hed, rfl⟩⟩
    · exact ⟨u, Or.inl (.inr (.inr ⟨rfl, by cases e <;> cases d <;> simp_all, rfl⟩))⟩
  · rw [ht₀]
    exact hsane₁.alloc (by simp)
  · have hnone : t.pfxAt (t.fresh + 1) = none := by
      cases hm : t.node (t.fresh + 1) with
      | none => rw [pfxAt, hm, bind_none]
      | some m => exact absurd (live_iff hm) hfresh₁
    rw [hpfx, ht₀, pfxAt_alloc, pfxAt_alloc, Node.pfx_setChild, Node.pfx_setChild,
      fresh_alloc,
      update_comm hne]
    dsimp only
    rw [← hnone, update_eq_self]
    rfl
  · have hnone : ∀ b, ¬t.links.live b → t.dataAt b = none := by
      intro b hb
      cases hm : t.node b with
      | none => rw [dataAt, hm, bind_none]
      | some m => exact absurd (live_iff hm) hb
    rw [hdata, ht₀, dataAt_alloc, dataAt_alloc, Node.data_setChild, Node.data_setChild,
      fresh_alloc,
      show (leaf p (some (t.fresh + 1)) : Node δ).data = none from rfl, ← hnone _ hfresh,
      update_eq_self]
    dsimp only
    rw [hnone _ hfresh, ← hnone _ hfresh₁, update_eq_self]

/-- An empty tree gets a prefix. -/
theorem Inv.addFirst (hhead : t.head = none) (hmax : p.bitlen ≤ t.maxbits) :
    Inv { t.alloc (leaf p none) with head := some t.fresh } (update label t.fresh p.bits) ∧
      (t.alloc (leaf p none)).pfxAt = update t.pfxAt t.fresh (some p) ∧
      (t.alloc (leaf p none)).dataAt = t.dataAt := by
  have hleaf : ∀ e y, (leaf p none : Node δ).child e ≠ some y := by
    intro e y
    cases e <;> simp [leaf, Node.child]
  have hlinks : ({ t.alloc (leaf p none) with head := some t.fresh } : Tree δ).links =
      t.links.plant t.fresh p.bitlen p.key := by
    rw [show ({ t.alloc (leaf p none) with head := some t.fresh } : Tree δ).links =
      { (t.alloc (leaf p none)).links with head := some t.fresh } from rfl,
      links_alloc h.sane.not_fresh]
    refine Links.ext rfl ?_ rfl rfl rfl rfl
    funext a e b
    simp [Links.plant, hleaf]
  have hsane : (t.alloc (leaf p none)).Sane := h.sane.alloc (by simp [leaf])
  refine ⟨⟨?_, ?_, ⟨hsane.fresh, hsane.data, hsane.count⟩⟩, pfxAt_alloc _, ?_⟩
  · rw [hlinks]
    exact h.shape.plant hhead hmax rfl
  · rw [hlinks]
    rintro a (ha | rfl) hk
    · exact absurd ha (h.shape.not_live_of_head hhead a)
    · simp [Links.plant] at hk
  · have hnone : t.dataAt t.fresh = none := by rw [dataAt, h.sane.not_fresh]; rfl
    rw [dataAt_alloc, show (leaf p none : Node δ).data = none from rfl, ← hnone,
      update_eq_self]

end

/-! ### The way to the place of a prefix -/

/-- The loop that goes down ends at a prefix; the address is on the side of it at every node on the
way, and the prefix is not shorter or has no child on the side of the address. -/
theorem Inv.downLoop {fuel : ℕ} {a : Addr} (h : Inv t label) (addr : Bytes) (bitlen : ℕ)
    (ha : t.links.live a) (hfuel : t.maxbits < t.links.bit a + fuel) :
    ∃ s n q, t.downLoop addr bitlen fuel a = some s ∧ t.node s = some n ∧ n.pfx = some q ∧
      Below t.links.edge a s ∧
      (∀ x, Below t.links.edge a x → Below t.links.edge x s → x ≠ s →
        label s (t.links.bit x) = t.side addr (t.links.bit x)) ∧
      (n.bit < bitlen → n.child (t.side addr n.bit) = none) := by
  induction fuel generalizing a with
  | zero => exact absurd (h.shape.bit_le ha) (by omega)
  | succ fuel ih =>
    obtain ⟨n, hn⟩ := exists_node ha
    have hbit := bit_eq hn
    have hirrefl : ∀ x, Below t.links.edge a x → Below t.links.edge x a → x = a := by
      intro x hax hxa
      exact (h.shape.routed.eq_of_bit_le hax (h.shape.routed.bit_le hxa)).symm
    rw [Tree.downLoop, hn, bind_eq_bind, bind_some]
    by_cases hdown : n.bit < bitlen ∨ n.pfx = none
    · rw [if_pos hdown]
      cases hc : n.child (t.side addr n.bit) with
      | none =>
        cases hq : n.pfx with
        | none =>
          obtain ⟨c, hc'⟩ := h.full a ha (by rw [key_eq hn, hq, map_none]) (t.side addr n.bit)
          rw [edge_iff hn, hc] at hc'
          cases hc'
        | some q =>
          refine ⟨a, n, q, rfl, hn, hq, Relation.ReflTransGen.refl, ?_, fun _ => hc⟩
          exact fun x hax hxa hne => absurd (hirrefl x hax hxa) hne
      | some c =>
        have hedge : t.links.edge a (t.side addr n.bit) c := (edge_iff hn).mpr hc
        have hdeeper := h.shape.routed.bit_lt hedge
        obtain ⟨s, m, q, hs, hm, hq, hcs, hway, hstop⟩ := ih (h.shape.live_edge hedge).2 (by omega)
        refine ⟨s, m, q, hs, hm, hq, Relation.ReflTransGen.head ⟨_, hedge⟩ hcs, ?_, hstop⟩
        intro x hax hxs hne
        by_cases hxa : a = x
        · subst hxa
          rw [hbit, h.shape.routed.agree_below hcs _ (hbit ▸ hdeeper), ← hbit,
            h.shape.routed.turn hedge, hbit]
        · -- A node between the head and the stop is below the child.
          obtain ⟨-, c', hc', hcx⟩ := h.shape.routed.next hax hxa
          have hturn : label x (t.links.bit a) = t.side addr n.bit := by
            have hlt := (h.shape.routed.next hax hxa).1
            rw [← h.shape.routed.agree_below hxs _ hlt, h.shape.routed.agree_below hcs _ hdeeper,
              h.shape.routed.turn hedge]
          rw [hturn] at hc'
          exact hway x (h.shape.functional hedge hc' ▸ hcx) hxs hne
    · rw [if_neg hdown]
      obtain ⟨hlong, hpfx⟩ := not_or.mp hdown
      obtain ⟨q, hq⟩ := ne_none_iff_exists'.mp hpfx
      refine ⟨a, n, q, rfl, hn, hq, Relation.ReflTransGen.refl, ?_, fun hlt => absurd hlt hlong⟩
      exact fun x hax hxa hne => absurd (hirrefl x hax hxa) hne

/-- The loop that goes up ends at the first node under a parent with a bit before the one where the
addresses differ. -/
theorem Inv.upLoop {fuel : ℕ} {a : Addr} (h : Inv t label) (differ : ℕ) (ha : t.links.live a)
    (hfuel : t.links.bit a < fuel) :
    ∃ u n, t.upLoop differ fuel a = some u ∧ t.node u = some n ∧ Below t.links.edge u a ∧
      (u = a ∨ differ ≤ n.bit) ∧
      ∀ q m, n.parent = some q → t.node q = some m → m.bit < differ := by
  induction fuel generalizing a with
  | zero => exact absurd hfuel (by omega)
  | succ fuel ih =>
    obtain ⟨n, hn⟩ := exists_node ha
    rw [Tree.upLoop, hn, bind_eq_bind, bind_some]
    cases hp : n.parent with
    | none =>
      refine ⟨a, n, rfl, hn, Relation.ReflTransGen.refl, Or.inl rfl, fun q m hq => ?_⟩
      cases hp.symm.trans hq
    | some q =>
      obtain ⟨d, hd⟩ := h.shape.parent_iff.mp ((parent_eq hn).trans hp)
      obtain ⟨m, hm⟩ := exists_node (h.shape.live_edge hd).1
      have hlt := h.shape.routed.bit_lt hd
      dsimp only
      rw [hm, bind_some]
      split_ifs with hup
      · obtain ⟨u, n', hu, hn', huq, hle, hparent⟩ := ih (h.shape.live_edge hd).1 (by omega)
        refine ⟨u, n', hu, hn', huq.step hd, Or.inr ?_, hparent⟩
        rcases hle with rfl | hle
        · cases hm.symm.trans hn'
          exact hup
        · exact hle
      · refine ⟨a, n, rfl, hn, Relation.ReflTransGen.refl, Or.inl rfl, fun q' m' hq' hm' => ?_⟩
        obtain rfl : q = q' := some.inj (hp.symm.trans hq')
        cases hm.symm.trans hm'
        omega

/-- **Inserting** finds the node of the prefix, or makes one. -/
theorem Inv.lookup (h : Inv t label) (hp : p.bitlen ≤ t.maxbits) :
    ∃ t' a label', t.lookup p = some (t', a) ∧ Inv t' label' ∧ t'.maxbits = t.maxbits ∧
      t'.dataAt = t.dataAt ∧
      ((∃ q, t.pfxAt a = some q ∧ q.key = p.key ∧ t' = t) ∨
        (t.pfxAt a = none ∧ t'.pfxAt = update t.pfxAt a (some p))) := by
  have hnew : t.pfxAt t.fresh = none := by rw [pfxAt, h.sane.not_fresh]; rfl
  rw [Tree.lookup, if_neg (by omega)]
  cases hhead : t.head with
  | none =>
    obtain ⟨hinv, hpfx, hdata⟩ := h.addFirst hhead hp
    exact ⟨_, _, _, rfl, hinv, rfl, hdata, Or.inr ⟨hnew, hpfx⟩⟩
  | some head =>
    obtain ⟨s, m, test, hs, hm, htest, hheads, hway, hstop⟩ :=
      h.downLoop p.touchar p.bitlen (h.shape.live_head hhead)
        (show t.maxbits < t.links.bit head + (t.maxbits + 1) by omega)
    have hmbit := bit_eq hm
    have hmmax := h.shape.bit_le (live_iff hm)
    obtain ⟨-, htestlabel⟩ := h.pfx hm htest
    have hside : ∀ i < t.maxbits, ∀ addr : Bytes, t.side addr i = bitTest addr i := by
      intro i hi addr
      rw [side, decide_eq_true hi, Bool.true_and]
    simp only [bind_eq_bind, hs, hm, htest, bind_some]
    obtain ⟨hDle, hDagree, hDdiffer⟩ := differBit_spec p.touchar test.touchar
      (if m.bit < p.bitlen then m.bit else p.bitlen)
    generalize hD : differBit p.touchar test.touchar (if m.bit < p.bitlen then m.bit
      else p.bitlen) = differ at hDle hDagree hDdiffer ⊢
    have hDs : differ ≤ m.bit := by split_ifs at hDle <;> omega
    have hDp : differ ≤ p.bitlen := by split_ifs at hDle <;> omega
    -- The prefix agrees with the label of the stop up to the bit, and not at it.
    have hagrees : Agree differ p.bits (label s) := hDagree.trans (htestlabel.mono hDs)
    have hdiffers : differ < m.bit → differ < p.bitlen → p.bits differ ≠ label s differ := by
      intro hltm hltp
      rw [← htestlabel _ hltm]
      exact hDdiffer (by split_ifs <;> omega)
    obtain ⟨u, n, hu, hn, hus, hup, hparent⟩ :=
      h.upLoop differ (live_iff hm) (show t.links.bit s < t.maxbits + 1 by omega)
    have hnbit := bit_eq hn
    have hnm : n.bit ≤ m.bit := by
      rw [← hnbit, ← hmbit]
      exact h.shape.routed.bit_le hus
    have hDu : differ ≤ n.bit := by
      rcases hup with rfl | hle
      · cases hm.symm.trans hn
        exact hDs
      · exact hle
    have hlabels : Agree n.bit (label s) (label u) := hnbit ▸ h.shape.routed.agree_below hus
    have hagreeu : Agree differ p.bits (label u) := hagrees.trans (hlabels.mono hDu)
    have hnmax := h.shape.bit_le (live_iff hn)
    have hfree : ¬(differ = p.bitlen ∧ n.bit = p.bitlen) → n.bit = differ →
        n.child (t.side p.touchar n.bit) = none := by
      intro hnot hsame
      have hlt : differ < p.bitlen := by omega
      have hsu : u = s := by
        by_contra hne
        obtain ⟨hltm, -⟩ := h.shape.routed.next hus hne
        rw [hnbit, hmbit, hsame] at hltm
        refine hdiffers hltm hlt ?_
        obtain ⟨y, hy, hyu⟩ := h.shape.below_head (live_iff hn)
        obtain rfl : head = y := some.inj (hhead.symm.trans hy)
        have hside' := hway u hyu hus hne
        rw [hnbit, hsame, hside _ (by omega)] at hside'
        exact hside'.symm
      subst hsu
      cases hm.symm.trans hn
      exact hstop (by omega)
    simp only [hu, hn, bind_some]
    split_ifs with hfound hpfx hdata hsame hchild habove
    · -- The prefix is there.
      obtain ⟨q, hq⟩ := isSome_iff_exists.mp hpfx
      obtain ⟨hqbit, hqlabel⟩ := h.pfx hn hq
      refine ⟨t, u, label, rfl, h, rfl, rfl, Or.inl ⟨q, (pfxAt_node hn).trans hq, ?_, rfl⟩⟩
      exact Prefix.key_inj.mpr
        ⟨by omega, hqbit ▸ hqlabel.trans ((hfound.2.trans hfound.1.symm) ▸ hagreeu.symm)⟩
    · -- Glue has no data.
      have hnone := h.sane.data u n hn (by simpa using hpfx)
      rw [hnone] at hdata
      cases hdata
    · refine ⟨_, u, label, rfl, h.setPfx hn hfound.2 (by simpa using hdata) (hfound.1 ▸ hagreeu),
        rfl, ?_, Or.inr ⟨(pfxAt_node hn).trans (by simpa using hpfx), pfxAt_modify hn _⟩⟩
      rw [dataAt_modify hn, ← dataAt_node hn, update_eq_self]
    · -- The stop is the node, and has no child on the side of the prefix.
      rw [hfree hfound hsame] at hchild
      cases hchild
    · obtain ⟨hinv, hpfxs, hdatas⟩ :=
        h.addLeaf hn (hfree hfound hsame) (by omega) hp (hsame ▸ hagreeu)
          (hside _ (by omega) _).symm
      exact ⟨_, _, _, rfl, hinv, rfl, hdatas, Or.inr ⟨hnew, hpfxs⟩⟩
    · have hlt : p.bitlen < n.bit := by omega
      have hturn : label u p.bitlen = t.side test.touchar p.bitlen := by
        rw [hside _ (by omega), ← hlabels _ hlt]
        exact (htestlabel _ (by omega)).symm
      obtain ⟨t₁, hreplace, hinv, hmax, hpfxs, hdatas⟩ := h.addAbove hn hlt (habove ▸ hparent)
        (habove ▸ hagreeu.symm) hturn
      refine ⟨_, _, _, by rw [hreplace]; rfl, hinv, hmax, hdatas, Or.inr ⟨hnew, hpfxs⟩⟩
    · have hlt : differ < n.bit := by omega
      have hlp : differ < p.bitlen := by omega
      have hdside : p.bits differ = t.side p.touchar differ := (hside _ (by omega) _).symm
      have hturn : label u differ = !t.side p.touchar differ := by
        rw [← hdside, ← hlabels _ hlt]
        exact Bool.eq_not.mpr (hdiffers (by omega) hlp).symm
      obtain ⟨t₁, hreplace, hinv, hmax, hpfxs, hdatas⟩ := h.addBeside hn hlt hlp hp hparent
        hagreeu.symm hdside hturn rfl
      refine ⟨_, _, _, by rw [hreplace]; rfl, hinv, hmax, hdatas, Or.inr ⟨hnew, hpfxs⟩⟩

end Insert

section Remove

variable {t : Tree δ} {label : Addr → ℕ → Bool} {u c : Addr} {n : Node δ}

/-- A node with two children becomes glue. -/
theorem Inv.clear (h : Inv t label) (hn : t.node u = some n)
    (hboth : ∀ d, ∃ c, n.child d = some c) :
    Inv (t.modify u fun n => { n with pfx := none, data := none }) label := by
  have hlinks : (t.modify u fun n => { n with pfx := none, data := none }).links =
      t.links.setKey u none := by
    rw [links_modify hn rfl rfl, Links.setKey]
    refine Links.ext rfl rfl ?_ rfl rfl rfl
    dsimp only
    rw [← parent_eq hn, update_eq_self]
  refine ⟨?_, ?_, h.sane.modify hn fun _ => rfl⟩
  · rw [hlinks]
    exact h.shape.setKey (live_iff hn) (by simp)
  · rw [hlinks]
    refine h.full.setKey fun _ d => ?_
    obtain ⟨c, hc⟩ := hboth d
    exact ⟨c, (edge_iff hn).mpr hc⟩

/-- A node with a prefix and one child is taken out. -/
theorem Inv.bypass (h : Inv t label) (hn : t.node u = some n) {d : Bool} (hc : n.child d = some c)
    (hother : n.child (!d) = none) :
    ∃ t', t.bypass u n.parent (some c) = some t' ∧ Inv t' label ∧ t'.maxbits = t.maxbits ∧
      t'.pfxAt = update t.pfxAt u none ∧ t'.dataAt = update t.dataAt u none := by
  have honly : ∀ e y, n.child e = some y → y = c := by
    intro e y hy
    by_cases hed : e = d
    · subst hed
      exact some.inj (hy.symm.trans hc)
    · rw [Bool.eq_not.mpr hed, hother] at hy
      cases hy
  obtain ⟨t', hbypass, hlinks, hsane, hmax, hpfx, hdata⟩ := bypass_child h.shape hn hc honly
  refine ⟨t', hbypass, ⟨?_, ?_, hsane h.sane⟩, hmax, hpfx, hdata⟩
  · rw [hlinks, hmax]
    exact h.shape.bypass ((edge_iff hn).mpr hc) fun e z hz => honly e z ((edge_iff hn).mp hz)
  · rw [hlinks]
    exact (h.full.but u).bypass c

/-- **Removing** takes out the node of a prefix, or leaves glue. -/
theorem Inv.remove (h : Inv t label) (hn : t.node u = some n) :
    ∃ t', t.remove u = some t' ∧ Inv t' label ∧ t'.maxbits = t.maxbits ∧
      t'.pfxAt = update t.pfxAt u none ∧ t'.dataAt = update t.dataAt u none := by
  rw [Tree.remove, hn, bind_eq_bind, bind_some]
  cases hl : n.l with
  | some c =>
    cases hr : n.r with
    | some c' =>
      refine ⟨_, rfl, h.clear hn ?_, rfl, pfxAt_modify hn _, dataAt_modify hn _⟩
      intro d
      cases d with
      | false => exact ⟨c, hl⟩
      | true => exact ⟨c', hr⟩
    | none => exact h.bypass hn (d := false) hl hr
  | none =>
    cases hr : n.r with
    | some c' => exact h.bypass hn (d := true) hr hl
    | none =>
      have hleaf : ∀ d, n.child d = none := by
        intro d
        cases d with
        | false => exact hl
        | true => exact hr
      have hleafL : ∀ d z, ¬t.links.edge u d z := by
        intro d z hz
        rw [edge_iff hn, hleaf] at hz
        cases hz
      obtain ⟨t₁, hbypass, hlinks, hsane, hmax, hpfx, hdata⟩ := bypass_leaf h.shape hn hleaf
      have hshape : Shape t₁.links label t₁.maxbits := by
        rw [hlinks, hmax]
        exact h.shape.detach hleafL
      dsimp only
      rw [hbypass, bind_eq_bind, bind_some]
      have hparent := parent_eq hn
      cases hq : n.parent with
      | none =>
        refine ⟨t₁, rfl, ⟨hshape, ?_, hsane h.sane⟩, hmax, hpfx, hdata⟩
        rw [hlinks]
        have hno : ∀ a e, t.links.edge a e u → a = u := by
          intro a e he
          rw [h.shape.parent_iff.mpr ⟨e, he⟩, hq] at hparent
          cases hparent
        exact (h.full.detach hno).full fun hlive => absurd rfl hlive.2
      | some q =>
        have hof : ∀ a e, t.links.edge a e u → a = q := by
          intro a e he
          rw [h.shape.parent_iff.mpr ⟨e, he⟩, hq] at hparent
          exact some.inj hparent
        obtain ⟨d, hd⟩ := h.shape.parent_iff.mp (hparent.trans hq)
        have hqu : q ≠ u := by
          rintro rfl
          exact hleafL _ _ hd
        have hbut := h.full.detach hof
        rw [← hlinks] at hbut
        have hlive₁ : t₁.links.live q := by
          rw [hlinks]
          exact ⟨(h.shape.live_edge hd).1, hqu⟩
        obtain ⟨m, hm⟩ := exists_node hlive₁
        dsimp only
        rw [hm, bind_some]
        by_cases hpfxm : m.pfx.isSome
        · rw [if_pos hpfxm]
          refine ⟨t₁, rfl, ⟨hshape, hbut.full fun _ hk => ?_, hsane h.sane⟩, hmax, hpfx, hdata⟩
          rw [key_eq hm] at hk
          simp_all
        · rw [if_neg hpfxm]
          have hpfxm : m.pfx = none := by simpa using hpfxm
          -- The glue has its other child only.
          have hkey : t.links.key q = none := by
            have hk₁ : t₁.links.key q = none := by rw [key_eq hm, hpfxm, map_none]
            rw [hlinks, show (t.links.detach u).key q = t.links.key q from
              update_of_ne hqu ..] at hk₁
            exact hk₁
          obtain ⟨c, hc⟩ := h.full q (h.shape.live_edge hd).1 hkey (!d)
          have hcu : c ≠ u := by
            rintro rfl
            have hturn := (h.shape.routed.turn hd).symm.trans (h.shape.routed.turn hc)
            exact absurd hturn (by cases d <;> simp)
          have hc₁ : m.child (!d) = some c := by
            rw [← edge_iff hm, hlinks]
            exact ⟨hc, hcu⟩
          have hd₁ : m.child d = none := by
            cases hmd : m.child d with
            | none => rfl
            | some y =>
              rw [← edge_iff hm, hlinks] at hmd
              exact absurd (h.shape.functional hmd.1 hd) hmd.2
          have hchild : ∀ f : Addr → Option (Tree δ),
              (if m.r = none then m.l >>= f else m.r >>= f) = f c := by
            intro f
            cases d with
            | false => rw [show m.r = some c from hc₁, if_neg (by simp)]; rfl
            | true => rw [show m.r = none from hd₁, if_pos rfl, show m.l = some c from hc₁]; rfl
          have honly : ∀ e y, m.child e = some y → y = c := by
            intro e y hy
            by_cases hed : e = d
            · rw [hed, hd₁] at hy
              cases hy
            · rw [Bool.eq_not.mpr hed, hc₁] at hy
              exact (some.inj hy).symm
          obtain ⟨t₂, hbypass₂, hlinks₂, hsane₂, hmax₂, hpfx₂, hdata₂⟩ :=
            bypass_child hshape hm hc₁ honly
          rw [hchild]
          refine ⟨t₂, hbypass₂, ⟨?_, ?_, hsane₂ (hsane h.sane)⟩, hmax₂.trans hmax, ?_, ?_⟩
          · rw [hlinks₂, hmax₂]
            exact hshape.bypass ((edge_iff hm).mpr hc₁) fun e z hz => honly e z
              ((edge_iff hm).mp hz)
          · rw [hlinks₂]
            exact hbut.bypass c
          · rw [hpfx₂, update_eq_self_iff.mpr ((pfxAt_node hm).trans hpfxm).symm, hpfx]
          · have hdatam : m.data = none := (hsane h.sane).data q m hm hpfxm
            rw [hdata₂, update_eq_self_iff.mpr ((dataAt_node hm).trans hdatam).symm, hdata]

end Remove

end Tree

end Ratbox.Patricia
