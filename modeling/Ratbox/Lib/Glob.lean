import Mathlib.Computability.Language
import Mathlib.Data.List.Destutter

/-!
# Patterns with a star

A pattern is a list of symbols, one of which, the star, stands for any list. Every other symbol
stands for some letters. A pattern can be read as a list of letters too, in which the star is a
letter: if a pattern stands for another one in this sense, and no other symbol takes the star, then
it stands for all that the other one stands for.

## Main definitions

* `Glob.Stands`: a pattern stands for a list.
* `Glob.language`: the language of a pattern, which is the product of those of its symbols.
* `Glob.squeeze`: a pattern whose adjacent stars are put together.

## Main results

* `Glob.mem_language`: a pattern stands for the lists of its language.
* `Glob.language_squeeze`: putting stars together does not change the language.
* `Glob.Stands.trans`: a pattern that stands for another pattern stands for what that one stands
  for.
* `Glob.stands_iff_splitOn`: a pattern with as many separators as the list stands for it part by
  part.
-/

namespace Ratbox.Glob

open List

variable {α β : Type*} {star c : α} {ok : α → β → Prop} {d : β} {m : List α} {s : List β}

/-- The pattern stands for the list: `ok` says which letters a symbol stands for. -/
inductive Stands (star : α) (ok : α → β → Prop) : List α → List β → Prop
  | nil : Stands star ok [] []
  | skip {m : List α} {s : List β} (h : Stands star ok m s) : Stands star ok (star :: m) s
  | take {m : List α} {d : β} {s : List β} (h : Stands star ok (star :: m) s) :
      Stands star ok (star :: m) (d :: s)
  | one {c : α} {d : β} {m : List α} {s : List β} (hc : c ≠ star) (hd : ok c d)
      (h : Stands star ok m s) : Stands star ok (c :: m) (d :: s)

theorem nil_iff : Stands star ok [] s ↔ s = [] := by
  constructor
  · intro h
    cases h
    rfl
  · rintro rfl
    exact .nil

theorem cons_iff (hc : c ≠ star) :
    Stands star ok (c :: m) (d :: s) ↔ ok c d ∧ Stands star ok m s := by
  constructor
  · intro h
    cases h with
    | skip => exact absurd rfl hc
    | take => exact absurd rfl hc
    | one _ hd h => exact ⟨hd, h⟩
  · exact fun h => .one hc h.1 h.2

theorem not_cons_nil (hc : c ≠ star) : ¬Stands star ok (c :: m) [] := by
  intro h
  cases h
  exact hc rfl

/-- A star takes some letters, and the rest of the pattern stands for the others. -/
theorem star_iff :
    Stands star ok (star :: m) s ↔ ∃ j, j ≤ s.length ∧ Stands star ok m (s.drop j) := by
  constructor
  · intro h
    generalize hp : star :: m = p at h
    induction h with
    | nil => cases hp
    | skip h =>
      obtain ⟨-, rfl⟩ := cons.inj hp
      exact ⟨0, Nat.zero_le _, h⟩
    | take h ih =>
      obtain ⟨-, rfl⟩ := cons.inj hp
      obtain ⟨j, hj, h⟩ := ih rfl
      exact ⟨j + 1, Nat.succ_le_succ hj, h⟩
    | one hc => exact absurd (cons.inj hp).1.symm hc
  · rintro ⟨j, hj, h⟩
    induction j generalizing s with
    | zero => exact .skip h
    | succ j ih =>
      cases s with
      | nil => simp at hj
      | cons d s => exact .take (ih (Nat.le_of_succ_le_succ hj) h)

/-- What is taken in front is taken by the star. -/
theorem Stands.of_drop {j : ℕ} (h : Stands star ok (star :: m) (s.drop j)) :
    Stands star ok (star :: m) s := by
  obtain ⟨k, hk, h⟩ := star_iff.mp h
  rw [drop_drop] at h
  rw [length_drop] at hk
  by_cases hj : j ≤ s.length
  · exact star_iff.mpr ⟨j + k, by omega, h⟩
  · rw [drop_eq_nil_of_le (by omega)] at h
    exact star_iff.mpr ⟨s.length, Nat.le_refl _, by rwa [drop_length]⟩

theorem star_star : Stands star ok (star :: star :: m) s ↔ Stands star ok (star :: m) s := by
  constructor
  · intro h
    obtain ⟨j, -, h⟩ := star_iff.mp h
    exact h.of_drop
  · exact .skip

/-- Several stars are one star. -/
theorem replicate_star (n : ℕ) :
    Stands star ok (replicate (n + 1) star ++ m) s ↔ Stands star ok (star :: m) s := by
  induction n with
  | zero => rfl
  | succ n ih => exact star_star.trans ih

/-- Symbols in front that are no stars are compared one by one. -/
theorem Stands.drop {k : ℕ} (hk : k ≤ m.length) (hm : ∀ i < k, m[i]? ≠ some star)
    (h : Stands star ok m s) :
    k ≤ s.length ∧ Stands star ok (m.drop k) (s.drop k) := by
  induction k generalizing m s with
  | zero => exact ⟨Nat.zero_le _, h⟩
  | succ k ih =>
    cases m with
    | nil => simp at hk
    | cons c m =>
      have hc : c ≠ star := fun heq => hm 0 (Nat.succ_pos k) (by rw [heq]; rfl)
      cases s with
      | nil => exact absurd h (not_cons_nil hc)
      | cons d s =>
        obtain ⟨hle, h⟩ := ih (Nat.le_of_succ_le_succ hk) (fun i hi => hm (i + 1)
          (Nat.succ_lt_succ hi)) ((cons_iff hc).mp h).2
        exact ⟨Nat.succ_le_succ hle, h⟩

/-- **Patterns for patterns.** If a pattern stands for another pattern, without taking its stars for
letters, then it stands for what that one stands for. -/
theorem Stands.trans {γ : Type*} {ok₁ : α → α → Prop} {ok₂ : α → γ → Prop} {ok₃ : α → γ → Prop}
    {p : List α} {n : List γ} (hok : ∀ c d, c ≠ star → ok₁ c d → d ≠ star ∧ ∀ e, ok₂ d e → ok₃ c e)
    (hp : Stands star ok₁ m p) (hn : Stands star ok₂ p n) : Stands star ok₃ m n := by
  induction hp generalizing n with
  | nil =>
    obtain rfl := nil_iff.mp hn
    exact .nil
  | skip _ ih => exact .skip (ih hn)
  | @take m d p _ ih =>
    by_cases hd : d = star
    · subst hd
      obtain ⟨j, -, hn⟩ := star_iff.mp hn
      exact (ih hn).of_drop
    · cases n with
      | nil => exact absurd hn (not_cons_nil hd)
      | cons e n => exact .take (ih ((cons_iff hd).mp hn).2)
  | @one c d m p hc hcd _ ih =>
    obtain ⟨hd, hde⟩ := hok c d hc hcd
    cases n with
    | nil => exact absurd hn (not_cons_nil hd)
    | cons e n =>
      obtain ⟨he, hn⟩ := (cons_iff hd).mp hn
      exact .one hc (hde e he) (ih hn)

/-! ### The language of a pattern -/

section Language

/-- The language of a symbol. -/
def symbol (star : α) (ok : α → β → Prop) (c : α) : Language β :=
  ({s | c = star ∨ c ≠ star ∧ ∃ d, ok c d ∧ s = [d]} : Set (List β))

/-- **The language of a pattern**: what its symbols stand for, one after the other. -/
def language (star : α) (ok : α → β → Prop) (m : List α) : Language β :=
  (m.map (symbol star ok)).prod

theorem mem_symbol : s ∈ symbol star ok c ↔ c = star ∨ c ≠ star ∧ ∃ d, ok c d ∧ s = [d] := Iff.rfl

@[simp] theorem language_nil : language star ok [] = 1 := rfl

@[simp] theorem language_cons (c : α) (m : List α) :
    language star ok (c :: m) = symbol star ok c * language star ok m := by
  rw [language, map_cons, prod_cons, language]

/-- **A pattern stands for the lists of its language.** -/
theorem mem_language : s ∈ language star ok m ↔ Stands star ok m s := by
  induction m generalizing s with
  | nil => rw [language_nil, Language.mem_one, nil_iff]
  | cons c m ih =>
    rw [language_cons, Language.mem_mul]
    by_cases hc : c = star
    · subst hc
      rw [star_iff]
      constructor
      · rintro ⟨a, -, b, hb, rfl⟩
        refine ⟨a.length, by simp, ?_⟩
        rw [drop_left]
        exact ih.mp hb
      · rintro ⟨j, -, h⟩
        exact ⟨s.take j, mem_symbol.mpr (.inl rfl), s.drop j, ih.mpr h, take_append_drop j s⟩
    · constructor
      · rintro ⟨a, ha, b, hb, rfl⟩
        obtain ⟨-, d, hd, rfl⟩ := (mem_symbol.mp ha).resolve_left hc
        exact (cons_iff hc).mpr ⟨hd, ih.mp hb⟩
      · intro h
        cases s with
        | nil => exact absurd h (not_cons_nil hc)
        | cons d s =>
          obtain ⟨hd, h⟩ := (cons_iff hc).mp h
          exact ⟨[d], mem_symbol.mpr (.inr ⟨hc, d, hd, rfl⟩), s, ih.mpr h, rfl⟩

theorem language_append (m m' : List α) :
    language star ok (m ++ m') = language star ok m * language star ok m' := by
  rw [language, map_append, prod_append, language, language]

/-- A pattern with another one behind it. -/
theorem stands_append_iff {m' : List α} :
    Stands star ok (m ++ m') s ↔ ∃ k ≤ s.length, Stands star ok m (s.take k) ∧
    Stands star ok m' (s.drop k) := by
  rw [← mem_language, language_append, Language.mem_mul]
  constructor
  · rintro ⟨a, ha, b, hb, rfl⟩
    refine ⟨a.length, by simp, ?_, ?_⟩
    · rw [take_left]
      exact mem_language.mp ha
    · rw [drop_left]
      exact mem_language.mp hb
  · rintro ⟨k, -, ha, hb⟩
    exact ⟨s.take k, mem_language.mpr ha, s.drop k, mem_language.mpr hb, take_append_drop k s⟩

end Language

/-! ### Adjacent stars -/

section Squeeze

/-- The symbols are not both stars. -/
def Apart (star : α) (c d : α) : Prop := ¬(c = star ∧ d = star)

theorem apart_of_ne (hc : c ≠ star) (d : α) : Apart star c d := fun h => hc h.1

variable [DecidableEq α]

instance (star c d : α) : Decidable (Apart star c d) := inferInstanceAs (Decidable (¬_))

/-- Adjacent stars are put together. -/
def squeeze (star : α) (m : List α) : List α := m.destutter (Apart star)

theorem language_destutter' (c : α) (m : List α) :
    language star ok (m.destutter' (Apart star) c) = language star ok (c :: m) := by
  induction m generalizing c with
  | nil => rfl
  | cons d m ih =>
    by_cases h : Apart star c d
    · rw [destutter'_cons_pos m h, language_cons, ih, language_cons c (d :: m)]
    · obtain ⟨rfl, rfl⟩ := not_not.mp h
      rw [destutter'_cons_neg m h, ih]
      ext s
      rw [mem_language, mem_language, star_star]

/-- **Putting stars together** does not change the language. -/
theorem language_squeeze (m : List α) : language star ok (squeeze star m) = language star ok m := by
  cases m with
  | nil => rfl
  | cons c m => rw [squeeze, destutter_cons', language_destutter']

theorem isChain_squeeze (m : List α) : (squeeze star m).IsChain (Apart star) :=
  isChain_destutter _ m

theorem squeeze_of_isChain (h : m.IsChain (Apart star)) : squeeze star m = m :=
  destutter_of_isChain _ m h

/-- The symbols that are no stars are as they were. -/
theorem filter_squeeze (m : List α) : (squeeze star m).filter (· ≠ star) = m.filter (· ≠ star) := by
  have h : ∀ (c : α) (m : List α), (m.destutter' (Apart star) c).filter (· ≠ star) =
      (c :: m).filter (· ≠ star) := by
    intro c m
    induction m generalizing c with
    | nil => rfl
    | cons d m ih =>
      by_cases hapart : Apart star c d
      · rw [destutter'_cons_pos m hapart, filter_cons, ih, filter_cons (x := c)]
      · obtain ⟨rfl, rfl⟩ := not_not.mp hapart
        rw [destutter'_cons_neg m hapart, ih]
        simp
  cases m with
  | nil => rfl
  | cons c m => exact h c m

end Squeeze

/-! ### Pieces without stars -/

section Pieces

variable {p : List α}

/-- The number of symbols in front that take the letters in front. -/
def common (ok : α → β → Prop) [DecidableRel ok] : List α → List β → ℕ
  | c :: p, d :: s => if ok c d then common ok p s + 1 else 0
  | _, _ => 0

theorem common_le (ok : α → β → Prop) [DecidableRel ok] (p : List α) (s : List β) :
    common ok p s ≤ p.length ∧ common ok p s ≤ s.length := by
  induction p generalizing s with
  | nil => simp [common]
  | cons c p ih =>
    cases s with
    | nil => simp [common]
    | cons d s =>
      rw [common]
      split_ifs
      · exact ⟨Nat.succ_le_succ (ih s).1, Nat.succ_le_succ (ih s).2⟩
      · exact ⟨Nat.zero_le _, Nat.zero_le _⟩

theorem common_append {d : β} [DecidableRel ok] {t : List β} (h : common ok p s = p.length)
    (hc : ok c d) (hs : s.drop p.length = d :: t) : common ok (p ++ [c]) s = (p ++ [c]).length := by
  induction p generalizing s with
  | nil =>
    obtain rfl : s = d :: t := hs
    simp [common, hc]
  | cons e p ih =>
    cases s with
    | nil => simp at hs
    | cons f s =>
      rw [common] at h
      split_ifs at h with hok
      rw [cons_append, common, if_pos hok, ih (Nat.succ_injective h) hs, length_cons]

/-- The symbols of a piece that takes letters take something. -/
theorem exists_of_common [DecidableRel ok] (h : common ok p s = p.length) :
    ∀ c ∈ p, ∃ d, ok c d := by
  induction p generalizing s with
  | nil => simp
  | cons e p ih =>
    cases s with
    | nil => simp [common] at h
    | cons f s =>
      rw [common] at h
      split_ifs at h with hok
      exact forall_mem_cons.mpr ⟨⟨f, hok⟩, ih (Nat.succ_injective h)⟩

/-- A piece without stars takes as many letters as it has symbols. -/
theorem stands_append [DecidableRel ok] (hp : star ∉ p) :
    Stands star ok (p ++ m) s ↔ common ok p s = p.length ∧ Stands star ok m (s.drop p.length) := by
  induction p generalizing s with
  | nil => simp [common]
  | cons c p ih =>
    obtain ⟨hc, hp⟩ := not_or.mp (mem_cons.not.mp hp)
    cases s with
    | nil => exact iff_of_false (not_cons_nil (Ne.symm hc)) (by simp [common])
    | cons d s =>
      rw [cons_append, cons_iff (Ne.symm hc), ih hp, common]
      by_cases hok : ok c d <;> simp [hok]

end Pieces

/-! ### Separators -/

section Separators

theorem Stands.append {a a' : List α} {b b' : List β} (h : Stands star ok a b)
    (h' : Stands star ok a' b') :
    Stands star ok (a ++ a') (b ++ b') := by
  induction h with
  | nil => exact h'
  | skip _ ih => exact .skip ih
  | take _ ih => exact .take ih
  | one hc hd _ ih => exact .one hc hd ih

/-- Parts that stand for parts stand together for the list. -/
theorem Stands.intercalate {sep : α} {sep' : β} (hne : sep ≠ star) (hsep : ok sep sep')
    {ps : List (List α)} {ts : List (List β)} (h : Forall₂ (Stands star ok) ps ts) :
    Stands star ok ([sep].intercalate ps) ([sep'].intercalate ts) := by
  induction h with
  | nil => exact .nil
  | cons hp hrest ih =>
    cases hrest with
    | nil =>
      rw [intercalate_singleton, intercalate_singleton]
      exact hp
    | cons =>
      rw [intercalate_cons_cons, intercalate_cons_cons, append_assoc, append_assoc]
      exact hp.append (.one hne hsep ih)

variable [DecidableEq α] [DecidableEq β] {sep : α} {sep' : β} {γ : Type*}

/-- Each separator of the pattern takes one of the list. -/
theorem Stands.count_le (hne : sep ≠ star) (hsep : ∀ d, ok sep d → d = sep')
    (h : Stands star ok m s) :
    m.count sep ≤ s.count sep' := by
  induction h with
  | nil => exact le_rfl
  | skip _ ih => rwa [count_cons_of_ne hne.symm]
  | take _ ih => exact ih.trans count_le_count_cons
  | @one c d m s _ hd _ ih =>
    by_cases hc : c = sep
    · subst hc
      rw [hsep d hd, count_cons_self, count_cons_self]
      exact Nat.succ_le_succ ih
    · rw [count_cons_of_ne hc]
      exact ih.trans count_le_count_cons

/-- The first part of a list, with the part for a letter in front of it. -/
theorem splitOn_cons_of_ne [DecidableEq γ] {a c : γ} (hc : c ≠ a) {l : List γ} :
    ∃ p ps, l.splitOn a = p :: ps ∧ (c :: l).splitOn a = (c :: p) :: ps := by
  obtain ⟨p, ps, hps⟩ := exists_cons_of_ne_nil (splitOn_ne_nil a l)
  refine ⟨p, ps, hps, ?_⟩
  rw [splitOn_cons_eq_if_modifyHead, if_neg (by simpa using hc), hps, modifyHead_cons]

theorem splitOn_cons_self [DecidableEq γ] (a : γ) (l : List γ) :
    (a :: l).splitOn a = [] :: l.splitOn a := by
  rw [splitOn_cons_eq_if_modifyHead, if_pos (by simp)]

/-- **Where there are as many separators**, each stands for one, and each part of the pattern for a
part of the list. -/
theorem Stands.splitOn (hne : sep ≠ star) (hsep : ∀ d, ok sep d → d = sep') (h : Stands star ok m s)
    (hcount : m.count sep = s.count sep') :
    Forall₂ (Stands star ok) (m.splitOn sep) (s.splitOn sep') := by
  induction h with
  | nil => exact .cons .nil .nil
  | @skip m s h ih =>
    obtain ⟨p, ps, hps, hcons⟩ := splitOn_cons_of_ne hne.symm (l := m)
    obtain ⟨t, ts, hts⟩ := exists_cons_of_ne_nil (splitOn_ne_nil sep' s)
    rw [count_cons_of_ne hne.symm] at hcount
    have ih := ih hcount
    rw [hps, hts] at ih
    obtain ⟨hp, hrest⟩ := forall₂_cons.mp ih
    rw [hcons, hts]
    exact .cons (.skip hp) hrest
  | @take m d s h ih =>
    have hle := h.count_le hne hsep
    by_cases hd : d = sep'
    · -- A star that takes a separator leaves too few of them.
      subst hd
      rw [count_cons_self] at hcount
      omega
    · obtain ⟨p, ps, -, hcons⟩ := splitOn_cons_of_ne hne.symm (l := m)
      obtain ⟨t, ts, hts, hcons'⟩ := splitOn_cons_of_ne hd (l := s)
      rw [count_cons_of_ne hd] at hcount
      have ih := ih hcount
      rw [hcons, hts] at ih
      obtain ⟨hp, hrest⟩ := forall₂_cons.mp ih
      rw [hcons, hcons']
      exact .cons (.take hp) hrest
  | @one c d m s hstar hd h ih =>
    have hle := h.count_le hne hsep
    by_cases hc : c = sep
    · subst hc
      obtain rfl := hsep d hd
      rw [count_cons_self, count_cons_self] at hcount
      rw [splitOn_cons_self, splitOn_cons_self]
      exact .cons .nil (ih (Nat.succ_injective hcount))
    · have hd' : d ≠ sep' := by
        rintro rfl
        rw [count_cons_of_ne hc, count_cons_self] at hcount
        omega
      obtain ⟨p, ps, hps, hcons⟩ := splitOn_cons_of_ne hc (l := m)
      obtain ⟨t, ts, hts, hcons'⟩ := splitOn_cons_of_ne hd' (l := s)
      rw [count_cons_of_ne hc, count_cons_of_ne hd'] at hcount
      have ih := ih hcount
      rw [hps, hts] at ih
      obtain ⟨hp, hrest⟩ := forall₂_cons.mp ih
      rw [hcons, hcons']
      exact .cons (.one hstar hd hp) hrest

theorem length_splitOn [DecidableEq γ] (a : γ) (l : List γ) :
    (l.splitOn a).length = l.count a + 1 := by
  induction l with
  | nil => rfl
  | cons c l ih =>
    by_cases hc : c = a
    · subst hc
      rw [splitOn_cons_self, count_cons_self, length_cons, ih]
    · obtain ⟨p, ps, hps, hcons⟩ := splitOn_cons_of_ne hc (l := l)
      rw [hps] at ih
      rw [hcons, count_cons_of_ne hc, ← ih, length_cons, length_cons]

/-- **A pattern with the separators of the list** stands for the list when its parts stand for the
parts. -/
theorem stands_iff_splitOn (hne : sep ≠ star) (hsep : ∀ d, ok sep d ↔ d = sep')
    (hlen : (m.splitOn sep).length = (s.splitOn sep').length) :
    Stands star ok m s ↔ Forall₂ (Stands star ok) (m.splitOn sep) (s.splitOn sep') := by
  constructor
  · intro h
    rw [length_splitOn, length_splitOn] at hlen
    exact h.splitOn hne (fun d => (hsep d).mp) (Nat.succ_injective hlen)
  · intro h
    have hwhole := Stands.intercalate hne ((hsep sep').mpr rfl) h
    rwa [intercalate_splitOn, intercalate_splitOn] at hwhole

end Separators

end Ratbox.Glob
