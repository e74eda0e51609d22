import Mathlib.Data.List.Nodup

/-!
# Hash tables that index objects

A hash table with chained buckets, in which a key may stand more than once. A node is put at the
head of its bucket; a search gives the first node of the bucket with the key; to delete an object,
the first node of the bucket of a key that holds it is taken out. Keys are compared by a canonical
form (as names are that are compared up to case), and keys with one form are in one bucket.

A table is given by its nodes, those that were put in last first; the order in a bucket is the
order of its nodes in the list.

The table *indexes* a family of objects when each object that has a name has one node, whose key is
the name up to the canonical form, and no other object has a node.

## Main definitions

* `HashTable.find`, `HashTable.add`, `HashTable.del`: the operations.
* `HashTable.Indexes`: the table indexes the objects.

## Main results

* `HashTable.Indexes.add`, `HashTable.Indexes.del`, `HashTable.Indexes.rename`: what the operations
  do to the names that are indexed.
* `HashTable.Indexes.find_eq_none_iff`, `HashTable.Indexes.find_eq_some`: what a search gives.
-/

namespace Ratbox.HashTable

open List Function

variable {κ ι β α : Type*}

/-- The nodes, the newest first. -/
abbrev Table (κ α : Type*) := List (κ × α)

/-- The object of the first node with the key. -/
def find [DecidableEq ι] (canon : κ → ι) (t : Table κ α) (k : κ) : Option α :=
  (t.find? fun n => canon n.1 = canon k).map Prod.snd

/-- A node is put in. -/
def add (t : Table κ α) (k : κ) (a : α) : Table κ α := (k, a) :: t

/-- The first node in the bucket of the key that holds the object is taken out. -/
def del [DecidableEq β] [DecidableEq α] (bucket : κ → β) (t : Table κ α) (k : κ) (a : α) :
    Table κ α :=
  t.eraseP fun n => bucket n.1 = bucket k ∧ n.2 = a

/-- **The table indexes the objects by their names.** -/
structure Indexes (canon : κ → ι) (t : Table κ α) (name : α → Option κ) : Prop where
  nodup : (t.map Prod.snd).Nodup
  sound : ∀ n ∈ t, ∃ k, name n.2 = some k ∧ canon n.1 = canon k
  complete : ∀ a k, name a = some k → ∃ n ∈ t, n.2 = a

namespace Indexes

variable {canon : κ → ι} {bucket : κ → β} {t : Table κ α} {name : α → Option κ} {a : α} {k : κ}

section Nodes

variable [DecidableEq α]

/-- A new object is put in under its name. -/
theorem add (h : Indexes canon t name) (ha : name a = none) (k : κ) :
    Indexes canon (add t k a) (update name a (some k)) where
  nodup := by
    refine nodup_cons.mpr ⟨?_, h.nodup⟩
    intro hmem
    obtain ⟨n, hn, rfl⟩ := mem_map.mp hmem
    obtain ⟨k', hk', -⟩ := h.sound n hn
    rw [ha] at hk'
    cases hk'
  sound := by
    rintro n hn
    obtain rfl | hn := mem_cons.mp hn
    · exact ⟨k, by simp, rfl⟩
    · obtain ⟨k', hk', hcanon⟩ := h.sound n hn
      have hne : n.2 ≠ a := by
        rintro rfl
        rw [ha] at hk'
        cases hk'
      exact ⟨k', by rwa [update_of_ne hne], hcanon⟩
  complete := by
    intro b k' hb
    by_cases hba : b = a
    · exact ⟨(k, a), mem_cons_self, hba.symm⟩
    · rw [update_of_ne hba] at hb
      obtain ⟨n, hn, hnb⟩ := h.complete b k' hb
      exact ⟨n, mem_cons_of_mem _ hn, hnb⟩

/-- An object is taken out by its name. -/
theorem del [DecidableEq β] (h : Indexes canon t name)
    (hb : ∀ x y, canon x = canon y → bucket x = bucket y) (ha : name a = some k) :
    Indexes canon (del bucket t k a) (update name a none) := by
  obtain ⟨n, hn, rfl⟩ := h.complete a k ha
  have hin : bucket n.1 = bucket k := by
    obtain ⟨k', hk', hcanon⟩ := h.sound n hn
    obtain rfl : k = k' := by simpa [ha] using hk'
    exact hb _ _ hcanon
  obtain ⟨m, l₁, l₂, hnot, hm, ht, hdel⟩ :=
    exists_of_eraseP (p := fun x => decide (bucket x.1 = bucket k ∧ x.2 = n.2)) hn
      (by simp [hin])
  have hmn : m.2 = n.2 := (of_decide_eq_true hm).2
  have hnodup := h.nodup
  rw [ht, map_append, map_cons, nodup_middle] at hnodup
  have hother : ∀ x ∈ l₁ ++ l₂, x.2 ≠ n.2 := by
    intro x hx hxn
    refine (nodup_cons.mp hnodup).1 ?_
    rw [← map_append, hmn, ← hxn]
    exact mem_map_of_mem hx
  rw [HashTable.del, hdel]
  refine ⟨?_, ?_, ?_⟩
  · rw [map_append]
    exact (nodup_cons.mp hnodup).2
  · intro x hx
    have hxt : x ∈ t := by
      rw [ht]
      rcases mem_append.mp hx with hx | hx
      · exact mem_append_left _ hx
      · exact mem_append_right _ (mem_cons_of_mem _ hx)
    obtain ⟨k', hk', hcanon⟩ := h.sound x hxt
    exact ⟨k', by rwa [update_of_ne (hother x hx)], hcanon⟩
  · intro b k' hb'
    by_cases hbn : b = n.2
    · rw [hbn, update_self] at hb'
      cases hb'
    · rw [update_of_ne hbn] at hb'
      obtain ⟨x, hx, hxb⟩ := h.complete b k' hb'
      refine ⟨x, ?_, hxb⟩
      rw [ht] at hx
      have hxm : x ≠ m := by
        rintro rfl
        exact hbn (hxb.symm.trans hmn)
      simpa [hxm] using hx

/-- The name of an object may change in the letters that the canonical form does not see. -/
theorem rename (h : Indexes canon t name) {k' : κ} (ha : name a = some k)
    (hcanon : canon k = canon k') : Indexes canon t (update name a (some k')) where
  nodup := h.nodup
  sound := by
    intro n hn
    obtain ⟨k₀, hk₀, hc⟩ := h.sound n hn
    by_cases hna : n.2 = a
    · obtain rfl : k = k₀ := by simpa [hna, ha] using hk₀
      exact ⟨k', by rw [hna, update_self], hc.trans hcanon⟩
    · exact ⟨k₀, by rwa [update_of_ne hna], hc⟩
  complete := by
    intro b k₀ hb
    by_cases hba : b = a
    · exact h.complete b k (hba ▸ ha)
    · rw [update_of_ne hba] at hb
      exact h.complete b k₀ hb

end Nodes

section Searches

variable [DecidableEq ι]

/-- Nothing is found exactly if no object has the name. -/
theorem find_eq_none_iff (h : Indexes canon t name) :
    find canon t k = none ↔ ∀ a k', name a = some k' → canon k' ≠ canon k := by
  rw [find, Option.map_eq_none_iff, find?_eq_none]
  constructor
  · intro hnone a k' ha hcanon
    obtain ⟨n, hn, rfl⟩ := h.complete a k' ha
    obtain ⟨k₀, hk₀, hc⟩ := h.sound n hn
    obtain rfl : k' = k₀ := by simpa [ha] using hk₀
    exact hnone n hn (by simpa using hc.trans hcanon)
  · intro hno n hn hcanon
    obtain ⟨k₀, hk₀, hc⟩ := h.sound n hn
    exact hno n.2 k₀ hk₀ (hc.symm.trans (of_decide_eq_true hcanon))

/-- An object that is found has the name. -/
theorem find_eq_some (h : Indexes canon t name) (hfind : find canon t k = some a) :
    ∃ k', name a = some k' ∧ canon k' = canon k := by
  obtain ⟨n, hn, rfl⟩ := Option.map_eq_some_iff.mp hfind
  obtain ⟨k', hk', hc⟩ := h.sound n (mem_of_find?_eq_some hn)
  have hcanon : canon n.1 = canon k := by simpa using find?_some hn
  exact ⟨k', hk', hc.symm.trans hcanon⟩

/-- The only object with the name is found. -/
theorem find_of_unique (h : Indexes canon t name) {k' : κ} (ha : name a = some k')
    (hcanon : canon k' = canon k)
    (hunique : ∀ b k₀, name b = some k₀ → canon k₀ = canon k → b = a) :
    find canon t k = some a := by
  cases hfind : find canon t k with
  | none => exact absurd hcanon (h.find_eq_none_iff.mp hfind a k' ha)
  | some b =>
    obtain ⟨k₀, hk₀, hc⟩ := h.find_eq_some hfind
    rw [hunique b k₀ hk₀ hc]

end Searches

end Indexes

end Ratbox.HashTable
