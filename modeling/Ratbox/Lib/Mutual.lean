import Mathlib.Data.List.Nodup

/-!
# Two kinds of objects that are on each other's lists

Each object of one kind has a list of objects of another one, and the other way round; an object is
on the list of another exactly when that one is on its own. The lists are changed on both sides: a
link puts each in front of the other's list, and when it is cut each is taken off.

## Main definitions

* `Mutual.Lists`: the lists of all objects.
* `Mutual.Lists.link`, `Mutual.Lists.unlink`: a link, and a cut.
* `Mutual.Tied`: who is on whose list, on both sides and once.

## Main results

* `Mutual.Tied.link`, `Mutual.Tied.unlink`: this is kept.
* `Mutual.Tied.mem_cut`: what is left after several cuts.
-/

namespace Ratbox.Mutual

open List Function

variable {α β : Type*}

/-- The lists of the objects of two kinds. -/
structure Lists (α β : Type*) where
  left : α → List β
  right : β → List α

/-- No links. -/
def Lists.empty : Lists α β := ⟨fun _ => [], fun _ => []⟩

/-- **The lists belong together.** -/
structure Tied (l : Lists α β) : Prop where
  mem_iff : ∀ a b, b ∈ l.left a ↔ a ∈ l.right b
  nodup_left : ∀ a, (l.left a).Nodup
  nodup_right : ∀ b, (l.right b).Nodup

theorem tied_empty : Tied (Lists.empty : Lists α β) where
  mem_iff _ _ := iff_of_false not_mem_nil not_mem_nil
  nodup_left _ := nodup_nil
  nodup_right _ := nodup_nil

/-- The list of a new object on the left is zeroed. -/
def Lists.zeroLeft [DecidableEq α] (l : Lists α β) (a : α) : Lists α β :=
  { l with left := update l.left a [] }

/-- The list of a new object on the right is zeroed. -/
def Lists.zeroRight [DecidableEq β] (l : Lists α β) (b : β) : Lists α β :=
  { l with right := update l.right b [] }

variable {l : Lists α β}

theorem zeroLeft_of_nil [DecidableEq α] {a : α} (h : l.left a = []) : l.zeroLeft a = l := by
  rw [Lists.zeroLeft, ← h, update_eq_self]

theorem zeroRight_of_nil [DecidableEq β] {b : β} (h : l.right b = []) : l.zeroRight b = l := by
  rw [Lists.zeroRight, ← h, update_eq_self]

variable [DecidableEq α] [DecidableEq β]

/-- Two objects are put on each other's list. -/
def Lists.link (l : Lists α β) (a : α) (b : β) : Lists α β :=
  ⟨update l.left a (b :: l.left a), update l.right b (a :: l.right b)⟩

/-- Two objects are taken off each other's list. -/
def Lists.unlink (l : Lists α β) (a : α) (b : β) : Lists α β :=
  ⟨update l.left a ((l.left a).erase b), update l.right b ((l.right b).erase a)⟩

/-- Several links are cut. -/
def Lists.cut (l : Lists α β) (ps : List (α × β)) : Lists α β :=
  ps.foldl (fun l p => l.unlink p.1 p.2) l

section Writes

variable (l : Lists α β) (a a' : α) (b b' : β)

theorem left_link : (l.link a b).left a' = if a' = a then b :: l.left a else l.left a' :=
  update_apply ..

theorem right_link : (l.link a b).right b' = if b' = b then a :: l.right b else l.right b' :=
  update_apply ..

theorem left_unlink : (l.unlink a b).left a' = if a' = a then (l.left a).erase b else l.left a' :=
  update_apply ..

theorem right_unlink :
    (l.unlink a b).right b' = if b' = b then (l.right b).erase a else l.right b' :=
  update_apply ..

theorem mem_left_link : b' ∈ (l.link a b).left a' ↔ a' = a ∧ b' = b ∨ b' ∈ l.left a' := by
  rw [left_link]
  split_ifs with ha
  · simp [ha]
  · simp [ha]

theorem mem_right_link : a' ∈ (l.link a b).right b' ↔ a' = a ∧ b' = b ∨ a' ∈ l.right b' := by
  rw [right_link]
  split_ifs with hb
  · simp [hb]
  · simp [hb]

/-- A list gets no longer by cuts. -/
theorem left_unlink_sublist : ((l.unlink a b).left a').Sublist (l.left a') := by
  rw [left_unlink]
  split_ifs with ha
  · exact ha ▸ erase_sublist
  · exact Sublist.refl _

end Writes

namespace Tied

variable {l : Lists α β} {a a' : α} {b b' : β} {ps : List (α × β)}

/-- **A new link.** -/
theorem link (h : Tied l) (hnot : b ∉ l.left a) : Tied (l.link a b) where
  mem_iff a' b' := by rw [mem_left_link, mem_right_link, h.mem_iff]
  nodup_left a' := by
    rw [left_link]
    split_ifs
    · exact nodup_cons.mpr ⟨hnot, h.nodup_left a⟩
    · exact h.nodup_left a'
  nodup_right b' := by
    rw [right_link]
    split_ifs
    · exact nodup_cons.mpr ⟨fun hmem => hnot ((h.mem_iff a b).mpr hmem), h.nodup_right b⟩
    · exact h.nodup_right b'

theorem mem_left_unlink (h : Tied l) :
    b' ∈ (l.unlink a b).left a' ↔ b' ∈ l.left a' ∧ (a', b') ≠ (a, b) := by
  rw [left_unlink, Ne, Prod.mk.injEq]
  split_ifs with ha
  · rw [(h.nodup_left a).mem_erase_iff, and_comm, ha, not_and]
    exact and_congr_right fun _ => ⟨fun hb _ => hb, fun hb => hb rfl⟩
  · exact (and_iff_left fun hboth => ha hboth.1).symm

theorem mem_right_unlink (h : Tied l) :
    a' ∈ (l.unlink a b).right b' ↔ a' ∈ l.right b' ∧ (a', b') ≠ (a, b) := by
  rw [right_unlink, Ne, Prod.mk.injEq]
  split_ifs with hb
  · rw [(h.nodup_right b).mem_erase_iff, and_comm, hb, not_and']
    exact and_congr_right fun _ => ⟨fun ha _ => ha, fun ha => ha rfl⟩
  · exact (and_iff_left fun hboth => hb hboth.2).symm

/-- **A link is cut.** -/
theorem unlink (h : Tied l) (a : α) (b : β) : Tied (l.unlink a b) where
  mem_iff a' b' := by rw [h.mem_left_unlink, h.mem_right_unlink, h.mem_iff]
  nodup_left a' := (h.nodup_left a').sublist (left_unlink_sublist l a a' b)
  nodup_right b' := by
    rw [right_unlink]
    split_ifs
    · exact (h.nodup_right b).erase a
    · exact h.nodup_right b'

/-- **Several links are cut.** -/
theorem cut (h : Tied l) : Tied (l.cut ps) := by
  induction ps generalizing l with
  | nil => exact h
  | cons p ps ih => exact ih (h.unlink p.1 p.2)

/-- What is left after several cuts. -/
theorem mem_cut (h : Tied l) : b ∈ (l.cut ps).left a ↔ b ∈ l.left a ∧ (a, b) ∉ ps := by
  induction ps generalizing l with
  | nil => simp [Lists.cut]
  | cons p ps ih =>
    change b ∈ ((l.unlink p.1 p.2).cut ps).left a ↔ _
    rw [ih (h.unlink p.1 p.2), h.mem_left_unlink, mem_cons, not_or, and_assoc]

theorem cut_sublist (ps : List (α × β)) : ((l.cut ps).left a).Sublist (l.left a) := by
  induction ps generalizing l with
  | nil => exact Sublist.refl _
  | cons p ps ih => exact ih.trans (left_unlink_sublist l p.1 a p.2)

/-- An object whose links are all cut on the left side. -/
theorem left_cut_eq_nil (h : Tied l) (hall : ∀ b ∈ l.left a, (a, b) ∈ ps) :
    (l.cut ps).left a = [] :=
  eq_nil_iff_forall_not_mem.mpr fun b hb =>
    (h.mem_cut.mp hb).2 (hall b (h.mem_cut.mp hb).1)

/-- And on the right side. -/
theorem right_cut_eq_nil (h : Tied l) (hall : ∀ a ∈ l.right b, (a, b) ∈ ps) :
    (l.cut ps).right b = [] :=
  eq_nil_iff_forall_not_mem.mpr fun a ha => by
    obtain ⟨hmem, hnot⟩ := h.mem_cut.mp ((h.cut.mem_iff a b).mpr ha)
    exact hnot (hall a ((h.mem_iff a b).mp hmem))

end Tied

end Ratbox.Mutual
