import Ratbox.Hostmask.Buckets
import Mathlib.Data.List.Forall2

/-!
# Masks up to case

The bucket of a mask is the same for texts that are equal up to case, by which masks are compared
when they are removed.

Source: `src/hostmask.c`, lines 51–208, and `modules/m_kline.c`, lines 707–749.

## Main definitions

* `Hostmask.SameCase`: texts are equal up to case.

## Main results

* `Hostmask.bucketOf_congr`: texts that are equal up to case have the same bucket.
-/

namespace Ratbox.Hostmask

open Text Address Match List Option

/-- Characters are equal up to case. -/
def SameChar (c d : Char) : Prop := toUpper c = toUpper d

/-- Texts are equal up to case. -/
def SameCase : Str → Str → Prop := Forall₂ SameChar

theorem sameCase_iff {s t : Str} : SameCase s t ↔ irccmp s t = true := by
  rw [irccmp, beq_iff_eq, ← forall₂_eq_eq_eq, forall₂_map_left_iff, forall₂_map_right_iff]
  rfl

theorem toNat_toUpper (c : Char) :
    (toUpper c).toNat = if 97 ≤ c.toNat ∧ c.toNat ≤ 126 then c.toNat - 32 else c.toNat := by
  unfold toUpper
  by_cases hletter : 'a' ≤ c ∧ c ≤ 'z'
  · have hge : 97 ≤ c.toNat := hletter.1
    have hle : c.toNat ≤ 122 := hletter.2
    have hlower : ∀ n, 97 ≤ n → n ≤ 122 → (Char.ofNat (n - 32)).toNat = n - 32 := by
      intro n hge hle
      interval_cases n <;> rfl
    rw [if_pos hletter, if_pos (by omega), hlower c.toNat hge hle]
  · rw [if_neg hletter]
    by_cases h123 : c = '\x7b'
    · rw [h123]
      decide
    by_cases h124 : c = '|'
    · rw [h124]
      decide
    by_cases h125 : c = '\x7d'
    · rw [h125]
      decide
    by_cases h126 : c = '~'
    · rw [h126]
      decide
    have hrange : ¬(97 ≤ c.toNat ∧ c.toNat ≤ 126) := by
      rintro ⟨hge, hle⟩
      obtain hgt | hlt := Nat.lt_or_ge 122 c.toNat
      · have hfour : ∀ n, 122 < n → n ≤ 126 → c.toNat = n → False := by
          intro n hgt hmost hn
          rw [← Char.ofNat_toNat c, hn] at h123 h124 h125 h126
          interval_cases n
          · exact h123 rfl
          · exact h124 rfl
          · exact h125 rfl
          · exact h126 rfl
        exact hfour c.toNat hgt hle rfl
      · exact hletter ⟨hge, hlt⟩
    rw [if_neg hrange]
    split
    · exact absurd rfl h123
    · exact absurd rfl h124
    · exact absurd rfl h125
    · exact absurd rfl h126
    · rfl

/-- Characters that are equal up to case are equal, or are two of a letter. -/
theorem SameChar.cases {c d : Char} (h : SameChar c d) :
    c = d ∨ ∃ n, 65 ≤ n ∧ n ≤ 94 ∧ ((c = Char.ofNat n ∧ d = Char.ofNat (n + 32)) ∨
      (c = Char.ofNat (n + 32) ∧ d = Char.ofNat n)) := by
  have hnat := congrArg Char.toNat h
  rw [toNat_toUpper, toNat_toUpper] at hnat
  split_ifs at hnat with hc hd hd
  · exact .inl (Char.toNat_inj.mp (by omega))
  · refine .inr ⟨d.toNat, by omega, by omega, Or.inr ⟨?_, (Char.ofNat_toNat d).symm⟩⟩
    rw [show d.toNat + 32 = c.toNat by omega, Char.ofNat_toNat]
  · refine .inr ⟨c.toNat, by omega, by omega, Or.inl ⟨(Char.ofNat_toNat c).symm, ?_⟩⟩
    rw [show c.toNat + 32 = d.toNat by omega, Char.ofNat_toNat]
  · exact .inl (Char.toNat_inj.mp hnat)

/-- What is the same for two of a letter is the same up to case. -/
theorem SameChar.congr {α : Type} {f : Char → α}
    (hf : ∀ n, 65 ≤ n → n ≤ 94 → f (Char.ofNat n) = f (Char.ofNat (n + 32))) {c d : Char}
    (h : SameChar c d) : f c = f d := by
  obtain rfl | ⟨n, hge, hle, ⟨rfl, rfl⟩ | ⟨rfl, rfl⟩⟩ := h.cases
  · rfl
  · exact hf n hge hle
  · exact (hf n hge hle).symm

/-- A character that is no letter is only equal to itself. -/
theorem SameChar.eq_iff {p : Char}
    (hp : ∀ n, 65 ≤ n → n ≤ 94 → Char.ofNat n ≠ p ∧ Char.ofNat (n + 32) ≠ p) {c d : Char}
    (h : SameChar c d) : c = p ↔ d = p := by
  refine iff_of_eq (h.congr (f := fun c => c = p) fun n hge hle => ?_)
  rw [eq_false (hp n hge hle).1, eq_false (hp n hge hle).2]

theorem ne_special {p : Char} (hp : p ∈ ['*', '?', ':', '.', '/', '-', '+', '@']) :
    ∀ n, 65 ≤ n → n ≤ 94 → Char.ofNat n ≠ p ∧ Char.ofNat (n + 32) ≠ p := by
  intro n hge hle
  simp only [mem_cons, not_mem_nil, or_false] at hp
  rcases hp with rfl | rfl | rfl | rfl | rfl | rfl | rfl | rfl <;> interval_cases n <;> decide

theorem isDigit_congr {c d : Char} (h : SameChar c d) : isDigit c = isDigit d :=
  h.congr fun n hge hle => by interval_cases n <;> decide

theorem isSpace_congr {c d : Char} (h : SameChar c d) : isSpace c = isSpace d :=
  h.congr fun n hge hle => by interval_cases n <;> decide

theorem isWild_congr {c d : Char} (h : SameChar c d) : isWild c = isWild d :=
  h.congr fun n hge hle => by interval_cases n <;> decide

theorem xdigit_congr {c d : Char} (h : SameChar c d) : xdigit c = xdigit d :=
  h.congr fun n hge hle => by interval_cases n <;> decide

theorem toLower_congr {c d : Char} (h : SameChar c d) : toLower c = toLower d :=
  h.congr fun n hge hle => by interval_cases n <;> decide

theorem toNat_toLower (c : Char) :
    (toLower c).toNat = if 65 ≤ c.toNat ∧ c.toNat ≤ 94 then c.toNat + 32 else c.toNat := by
  have hlower : ∀ n, 65 ≤ n → n ≤ 94 → (Char.ofNat (n + 32)).toNat = n + 32 := by
    intro n hge hle
    interval_cases n <;> rfl
  rw [toLower]
  by_cases hletter : 'A' ≤ c ∧ c ≤ '^'
  · have hge : 65 ≤ c.toNat := hletter.1
    have hle : c.toNat ≤ 94 := hletter.2
    rw [if_pos hletter, if_pos ⟨hge, hle⟩, hlower _ hge hle]
  · rw [if_neg hletter, if_neg (show ¬(65 ≤ c.toNat ∧ c.toNat ≤ 94) from hletter)]

theorem sameChar_of_toLower {c d : Char} (h : toLower c = toLower d) : SameChar c d := by
  have hnat := congrArg Char.toNat h
  rw [toNat_toLower, toNat_toLower] at hnat
  rw [SameChar, ← Char.toNat_inj, toNat_toUpper, toNat_toUpper]
  split_ifs at hnat ⊢ <;> omega

/-- Digits are only equal to themselves. -/
theorem SameChar.eq_of_isDigit {c d : Char} (h : SameChar c d) (hc : isDigit c = true) : c = d := by
  obtain rfl | ⟨n, hge, hle, ⟨rfl, rfl⟩ | ⟨rfl, rfl⟩⟩ := h.cases
  · rfl
  · exact absurd hc (by interval_cases n <;> decide)
  · exact absurd hc (by interval_cases n <;> decide)

section Texts

variable {s t : Str} {p : Char → Bool}

theorem SameCase.map_toLower (h : SameCase s t) : s.map toLower = t.map toLower := by
  induction h with
  | nil => rfl
  | cons hc _ ih => rw [map_cons, map_cons, toLower_congr hc, ih]

theorem sameCase_of_map_toLower (h : s.map toLower = t.map toLower) : SameCase s t := by
  rw [← forall₂_eq_eq_eq, forall₂_map_left_iff, forall₂_map_right_iff] at h
  exact h.imp fun _ _ => sameChar_of_toLower

/-- A mask without wildcards matches only itself, up to case. -/
theorem irccmp_of_matchMask (h : matchMask s t = true) (hwild : ∀ c ∈ s, isWild c = false) :
    irccmp s t = true := by
  obtain ⟨p, r, rfl, hr, hp⟩ := ends_of_matchMask (u := []) h rfl hwild
  rw [hp rfl, nil_append, ← sameCase_iff]
  exact sameCase_of_map_toLower hr.symm

theorem SameCase.mem_iff (h : SameCase s t) {p : Char}
    (hp : p ∈ ['*', '?', ':', '.', '/', '-', '+', '@']) :
    p ∈ s ↔ p ∈ t := by
  induction h with
  | nil => exact Iff.rfl
  | cons hc _ ih =>
    rw [mem_cons, mem_cons, ih, eq_comm, hc.eq_iff (ne_special hp), eq_comm]

theorem SameCase.takeWhile (h : SameCase s t) (hp : ∀ c d, SameChar c d → p c = p d) :
    SameCase (s.takeWhile p) (t.takeWhile p) := by
  induction h with
  | nil => exact Forall₂.nil
  | cons hc _ ih =>
    rw [takeWhile_cons, takeWhile_cons, hp _ _ hc]
    split
    · exact Forall₂.cons hc ih
    · exact Forall₂.nil

theorem SameCase.dropWhile (h : SameCase s t) (hp : ∀ c d, SameChar c d → p c = p d) :
    SameCase (s.dropWhile p) (t.dropWhile p) := by
  induction h with
  | nil => exact Forall₂.nil
  | cons hc hs ih =>
    rw [dropWhile_cons, dropWhile_cons, hp _ _ hc]
    split
    · exact ih
    · exact Forall₂.cons hc hs

/-! ### Numbers and addresses -/

section

variable (h : SameCase s t)
include h

theorem SameCase.takeWhile_isDigit : s.takeWhile isDigit = t.takeWhile isDigit := by
  induction h with
  | nil => rfl
  | @cons c d s t hc _ ih =>
    rw [takeWhile_cons, takeWhile_cons, ← isDigit_congr hc]
    cases hdigit : isDigit c with
    | true => rw [if_pos rfl, if_pos rfl, hc.eq_of_isDigit hdigit, ih]
    | false => rfl

theorem SameCase.digits : digits s = digits t := by
  rw [Text.digits, Text.digits, h.takeWhile_isDigit]

theorem SameCase.number : number s = number t := by
  rw [Text.number, Text.number]
  have hdrop := h.dropWhile fun c d => isSpace_congr
  generalize s.dropWhile isSpace = s at hdrop
  generalize t.dropWhile isSpace = t at hdrop
  cases hdrop with
  | nil => rfl
  | @cons c d s t hc hst =>
    by_cases hminus : c = '-'
    · obtain rfl := (hc.eq_iff (ne_special (by simp))).mp hminus
      rw [hminus]
      exact congrArg (fun n : ℕ => -(n : ℤ)) (SameCase.digits hst)
    · by_cases hplus : c = '+'
      · obtain rfl := (hc.eq_iff (ne_special (by simp))).mp hplus
        rw [hplus]
        exact congrArg (fun n : ℕ => (n : ℤ)) (SameCase.digits hst)
      · have hminus' : d ≠ '-' := mt (hc.eq_iff (ne_special (by simp))).mpr hminus
        have hplus' : d ≠ '+' := mt (hc.eq_iff (ne_special (by simp))).mpr hplus
        have hdigits := SameCase.digits (Forall₂.cons hc hst)
        split
        · rename_i heq
          exact absurd (cons.inj heq).1 hminus
        · rename_i heq
          exact absurd (cons.inj heq).1 hplus
        · split
          · rename_i heq
            exact absurd (cons.inj heq).1 hminus'
          · rename_i heq
            exact absurd (cons.inj heq).1 hplus'
          · rw [hdigits]

theorem SameCase.atoi : atoi s = atoi t := by
  rw [Text.atoi, Text.atoi, Text.atol, Text.atol, h.number]

theorem SameCase.pton4Loop (sawDigit : Bool) (octets : ℕ) (done : List ℕ) (tp : ℕ) :
    pton4Loop s sawDigit octets done tp = pton4Loop t sawDigit octets done tp := by
  induction h generalizing sawDigit octets done tp with
  | nil => rfl
  | @cons c d s t hc _ ih =>
    rw [Address.pton4Loop, Address.pton4Loop, ← isDigit_congr hc]
    cases hdigit : isDigit c with
    | true =>
      obtain rfl := hc.eq_of_isDigit hdigit
      rw [if_pos rfl, if_pos rfl]
      dsimp only
      rw [ih, ih]
    | false =>
      have hdot : (c = '.') = (d = '.') := propext (hc.eq_iff (ne_special (by simp)))
      simp only [Bool.false_eq_true, if_false, ih, hdot]

theorem SameCase.pton4 : pton4 s = pton4 t := h.pton4Loop ..

theorem SameCase.pton6Loop {curtok curtok' : Str} (hcur : SameCase curtok curtok')
    (tmp : List UInt8) (colonp : Option ℕ) (sawXdigit : Bool) (val : ℕ) :
    pton6Loop s tmp colonp curtok sawXdigit val = pton6Loop t tmp colonp curtok' sawXdigit val := by
  induction h generalizing tmp colonp curtok curtok' sawXdigit val with
  | nil => rfl
  | @cons c d s t hc hst ih =>
    have hnil : (s = []) = (t = []) := by
      rw [← length_eq_zero_iff, ← length_eq_zero_iff, hst.length_eq]
    have hcolon : (c = ':') = (d = ':') := propext (hc.eq_iff (ne_special (by simp)))
    have hdot : (c = '.') = (d = '.') := propext (hc.eq_iff (ne_special (by simp)))
    rw [Address.pton6Loop, Address.pton6Loop, ← xdigit_congr hc]
    cases xdigit c with
    | some x =>
      dsimp only
      rw [ih hcur]
    | none =>
      dsimp only
      rw [ih hst, ih hst, ih hcur, hcur.pton4]
      simp [hnil, hcolon, hdot]

theorem SameCase.pton6Start :
    (pton6Start s = none ∧ pton6Start t = none) ∨
      ∃ s' t', pton6Start s = some s' ∧ pton6Start t = some t' ∧ SameCase s' t' := by
  cases h with
  | nil => exact .inr ⟨[], [], rfl, rfl, Forall₂.nil⟩
  | @cons c d s t hc hst =>
    by_cases hcolon : c = ':'
    · obtain rfl := (hc.eq_iff (ne_special (by simp))).mp hcolon
      rw [hcolon]
      cases hst with
      | nil => exact .inl ⟨rfl, rfl⟩
      | @cons c' d' s t hc' hst =>
        by_cases hcolon' : c' = ':'
        · obtain rfl := (hc'.eq_iff (ne_special (by simp))).mp hcolon'
          rw [hcolon']
          exact .inr ⟨_, _, rfl, rfl, Forall₂.cons rfl hst⟩
        · have hcolon'' : d' ≠ ':' := mt (hc'.eq_iff (ne_special (by simp))).mpr hcolon'
          refine .inl ⟨?_, ?_⟩
          · rw [Address.pton6Start]
            rintro _ heq
            exact hcolon' (cons.inj heq).1
          · rw [Address.pton6Start]
            rintro _ heq
            exact hcolon'' (cons.inj heq).1
    · have hcolon' : d ≠ ':' := mt (hc.eq_iff (ne_special (by simp))).mpr hcolon
      refine .inr ⟨c :: s, d :: t, ?_, ?_, Forall₂.cons hc hst⟩
      · rw [Address.pton6Start]
        · rintro _ heq
          exact hcolon (cons.inj heq).1
        · rintro _ heq
          exact hcolon (cons.inj heq).1
      · rw [Address.pton6Start]
        · rintro _ heq
          exact hcolon' (cons.inj heq).1
        · rintro _ heq
          exact hcolon' (cons.inj heq).1

theorem SameCase.pton6 : pton6 s = pton6 t := by
  rw [Address.pton6, Address.pton6]
  obtain ⟨hs, ht⟩ | ⟨s', t', hs, ht, hst⟩ := h.pton6Start
  · rw [hs, ht]
  · rw [hs, ht, bind_eq_bind, bind_some, bind_eq_bind, bind_some,
      hst.pton6Loop hst]

theorem SameCase.inetPtonSock : inetPtonSock s = inetPtonSock t := by
  have hlong : SameCase ("::ffff:".toList ++ s) ("::ffff:".toList ++ t) := by
    refine rel_append ?_ h
    exact forall₂_same.mpr fun _ _ => rfl
  simp only [Address.inetPtonSock, inetPton, h.pton4, h.pton6, hlong.pton6]

end

/-! ### Masks -/

theorem SameCase.splitBits (h : SameCase s t) (most : ℤ) :
    SameCase (splitBits s most).1 (splitBits t most).1 ∧
    (splitBits s most).2 = (splitBits t most).2 := by
  have hslash : ∀ c d, SameChar c d → (c != '/') = (d != '/') := fun c d hcd =>
    hcd.congr (f := fun c => c != '/') fun n hge hle => by interval_cases n <;> decide
  rw [Address.splitBits, Address.splitBits]
  by_cases hs : '/' ∈ s
  · rw [if_pos hs, if_pos ((h.mem_iff (by simp)).mp hs)]
    refine ⟨h.takeWhile hslash, ?_⟩
    dsimp only
    rw [SameCase.atoi (forall₂_drop 1 (h.dropWhile hslash))]
  · rw [if_neg hs, if_neg (mt (h.mem_iff (by simp)).mpr hs)]
    exact ⟨h, rfl⟩

/-- A mask is read up to case. -/
theorem SameCase.parseNetmask (h : SameCase s t) : parseNetmask s = parseNetmask t := by
  have hmem : ∀ p ∈ ['*', '?', ':', '.', '/', '-', '+', '@'], (p ∈ s) = (p ∈ t) := fun p hp =>
    propext (h.mem_iff hp)
  obtain ⟨h6, h6'⟩ := h.splitBits 128
  obtain ⟨h4, h4'⟩ := h.splitBits 32
  simp only [Address.parseNetmask, hmem '*' (by simp), hmem '?' (by simp), hmem ':' (by simp),
    hmem '.' (by simp), h6', h4', h6.inetPtonSock, h4.inetPtonSock]

theorem SameCase.maskHashLoop {text text' rest rest' behind behind' hp hp' : Str}
    (htext : SameCase text text') (hrest : SameCase rest rest') (hbehind : SameCase behind behind')
    (hhp : SameCase hp hp') :
    maskHashLoop text rest behind hp = maskHashLoop text' rest' behind' hp' := by
  induction hrest generalizing behind behind' hp hp' with
  | nil => exact hashText_congr htext.map_toLower
  | @cons c d s t hc _ ih =>
    have hdot : (c = '.') = (d = '.') := propext (hc.eq_iff (ne_special (by simp)))
    rw [Hostmask.maskHashLoop, Hostmask.maskHashLoop, ← isWild_congr hc,
      hashText_congr hhp.map_toLower, ih (Forall₂.cons hc hbehind) hbehind,
        ih (Forall₂.cons hc hbehind) hhp]
    simp [hdot]

theorem SameCase.getMaskHash (h : SameCase s t) : getMaskHash s = getMaskHash t :=
  h.maskHashLoop (rel_reverse h) Forall₂.nil Forall₂.nil

/-- **Buckets of masks.** Masks that are equal up to case have the same bucket. -/
theorem bucketOf_congr (h : irccmp s t = true) : bucketOf s = bucketOf t := by
  have hsame := sameCase_iff.mpr h
  rw [bucketOf, bucketOf, hsame.parseNetmask, hsame.getMaskHash]

end Texts

end Ratbox.Hostmask
