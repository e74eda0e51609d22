import Mathlib.Data.List.Basic

/-!
# Items on lines

Items are put on a line one after the other. A line that has no room for an item is sent, and the
item begins the next one.

## Main definitions

* `Packing.put`: an item is put on the line.
* `Packing.pack`: the lines for a list of items.
* `Packing.onto`: what is on the line that an item is put on.

## Main results

* `Packing.flatten_pack`: no item is lost, and none is on two lines.
* `Packing.forall_pack`: what holds of the lines that had room for their last item.
* `Packing.forall_pack_iff`: what holds of all lines, by the items that are put on them.
-/

namespace Ratbox.Packing

open List

variable {α : Type*} {room : List α → α → Bool} {s : List (List α) × List α} {items : List α}
  {P : List α → Prop}

/-- The lines that were sent and the one that is being filled, after an item is put on it. -/
def put (room : List α → α → Bool) (s : List (List α) × List α) (a : α) : List (List α) × List α :=
  if room s.2 a then (s.1, s.2 ++ [a]) else (s.1 ++ [s.2], [a])

/-- All lines, with the last one. -/
def pack (room : List α → α → Bool) (items : List α) : List (List α) :=
  (items.foldl (put room) ([], [])).1 ++ [(items.foldl (put room) ([], [])).2]

theorem flatten_put (s : List (List α) × List α) (a : α) :
    ((put room s a).1 ++ [(put room s a).2]).flatten = (s.1 ++ [s.2]).flatten ++ [a] := by
  rw [put]
  split_ifs <;> simp

theorem flatten_foldl_put (s : List (List α) × List α) (items : List α) :
    ((items.foldl (put room) s).1 ++ [(items.foldl (put room) s).2]).flatten =
    (s.1 ++ [s.2]).flatten ++ items := by
  induction items generalizing s with
  | nil => rw [foldl_nil, append_nil]
  | cons a items ih => rw [foldl_cons, ih, flatten_put, append_assoc, singleton_append]

/-- The last line has the last item. -/
theorem foldl_put_ne_nil (hitems : items ≠ []) (s : List (List α) × List α) :
    (items.foldl (put room) s).2 ≠ [] := by
  obtain ⟨pre, a, rfl⟩ := (eq_nil_or_concat' items).resolve_left hitems
  rw [foldl_append, foldl_cons, foldl_nil, put]
  split_ifs <;> simp

/-- **The lines have the items**, in their order. -/
theorem flatten_pack (room : List α → α → Bool) (items : List α) :
    (pack room items).flatten = items :=
  flatten_foldl_put ([], []) items

/-- What holds of each line that had room for its last item holds of all lines, the last one being
there when there are items. -/
theorem forall_foldl_put (hempty : ∀ a ∈ items, room [] a = true)
    (hput : ∀ l, ∀ a ∈ items, room l a = true → P (l ++ [a])) (hsent : ∀ l ∈ s.1, P l)
    (hline : s.2 = [] ∨ P s.2) :
    (∀ l ∈ (items.foldl (put room) s).1, P l) ∧
      ((s.2 = [] ∧ items = []) ∨ P (items.foldl (put room) s).2) := by
  induction items generalizing s with
  | nil => exact ⟨hsent, hline.imp_left fun hnil => ⟨hnil, rfl⟩⟩
  | cons a items ih =>
    obtain ⟨hroom, hempty⟩ := forall_mem_cons.mp hempty
    have hone : P [a] := hput [] a mem_cons_self hroom
    have hstep : (∀ l ∈ (put room s a).1, P l) ∧ P (put room s a).2 := by
      rw [put]
      split_ifs with hfits
      · exact ⟨hsent, hput s.2 a mem_cons_self hfits⟩
      · refine ⟨fun l hl => ?_, hone⟩
        obtain hl | hl := mem_append.mp hl
        · exact hsent l hl
        · -- the line has items on it, as an empty one has room
          rw [mem_singleton.mp hl]
          exact hline.resolve_left fun hnil => hfits (hnil ▸ hroom)
    obtain ⟨hsent', hline'⟩ :=
      ih hempty (fun l b hb => hput l b (mem_cons_of_mem a hb)) hstep.1 (.inr hstep.2)
    refine ⟨hsent', .inr (hline'.elim (fun hnil => ?_) id)⟩
    rw [foldl_cons, hnil.2]
    exact hstep.2

/-- **The lines** have what holds of each line that had room for its last item. -/
theorem forall_pack (hne : items ≠ []) (hempty : ∀ a ∈ items, room [] a = true)
    (hput : ∀ l, ∀ a ∈ items, room l a = true → P (l ++ [a])) : ∀ l ∈ pack room items, P l := by
  obtain ⟨hsent, hline⟩ := forall_foldl_put (s := ([], [])) hempty hput nofun (.inl rfl)
  intro l hl
  obtain hl | hl := mem_append.mp hl
  · exact hsent l hl
  · rw [mem_singleton.mp hl]
    exact hline.resolve_left fun h => hne h.2

/-- What is on the line that an item is put on. -/
def onto (room : List α → α → Bool) (s : List (List α) × List α) (a : α) : List α :=
  if room s.2 a then s.2 else []

theorem forall_put_iff (hP : ∀ l a, P (l ++ [a]) → P l) (s : List (List α) × List α) (a : α) :
    (∀ l ∈ (put room s a).1 ++ [(put room s a).2], P l) ↔ (∀ l ∈ s.1 ++ [s.2], P l) ∧
    P (onto room s a ++ [a]) := by
  rw [put, onto]
  split_ifs
  · simp only [forall_mem_append, forall_mem_singleton]
    exact ⟨fun h => ⟨⟨h.1, hP _ a h.2⟩, h.2⟩, fun h => ⟨h.1.1, h.2⟩⟩
  · simp only [forall_mem_append, forall_mem_singleton, nil_append]

/-- What holds of a line when it holds of the line with another item holds of all lines exactly when
it holds of each line when an item is put on it. -/
theorem forall_foldl_put_iff (hP : ∀ l a, P (l ++ [a]) → P l) (s : List (List α) × List α)
    (items : List α) :
    (∀ l ∈ (items.foldl (put room) s).1 ++ [(items.foldl (put room) s).2], P l) ↔
      (∀ l ∈ s.1 ++ [s.2], P l) ∧ ∀ pre a suf, items = pre ++ a :: suf →
      P (onto room (pre.foldl (put room) s) a ++ [a]) := by
  induction items generalizing s with
  | nil => simp
  | cons x items ih =>
    have hsplit : (∀ pre a suf, x :: items = pre ++ a :: suf →
        P (onto room (pre.foldl (put room) s) a ++ [a])) ↔ P (onto room s x ++ [x]) ∧ ∀ pre a suf,
          items = pre ++ a :: suf → P (onto room (pre.foldl (put room) (put room s x)) a ++
              [a]) := by
      constructor
      · exact fun h => ⟨h [] x items rfl, fun pre a suf heq => h (x :: pre) a suf
          (by rw [heq, cons_append])⟩
      · rintro ⟨hfirst, hrest⟩ (_ | ⟨y, pre⟩) a suf heq
        · obtain ⟨rfl, -⟩ := cons.inj heq
          exact hfirst
        · obtain ⟨rfl, htail⟩ := cons.inj heq
          exact hrest pre a suf htail
    rw [foldl_cons, ih, forall_put_iff hP, hsplit, and_assoc]

/-- **What holds of all lines**, by the items that are put on them. -/
theorem forall_pack_iff (hnil : P []) (hP : ∀ l a, P (l ++ [a]) → P l) (items : List α) :
    (∀ l ∈ pack room items, P l) ↔
      ∀ pre a suf, items = pre ++ a :: suf →
      P (onto room (pre.foldl (put room) ([], [])) a ++ [a]) := by
  rw [pack, forall_foldl_put_iff hP]
  exact and_iff_right fun l hl => mem_singleton.mp hl ▸ hnil

end Ratbox.Packing
