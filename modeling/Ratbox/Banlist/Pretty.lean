import Ratbox.Escapes.Basic

/-!
# Masks of local operators

The masks that local operators give are made into masks `nick!user@host`: what is missing becomes a
`*`, what is too long is cut, what is behind white space is dropped, and adjacent stars are put
together. What comes out stays as it is when it goes through this once more.

Source: `modules/core/m_mode.c`, lines 460–631.

## Main definitions

* `Banlist.InForm`: a mask `nick!user@host` whose parts are within the limits.
* `Banlist.Tidy`: a mask without white space and adjacent stars.

## Main results

* `Banlist.parts_maskParts`: where the three parts come from.
* `Banlist.prettyMask_spec`: what `pretty_mask` returns, and what it leaves as it is.
-/

namespace Ratbox.Banlist

open Text Channel Match Glob List

/-- A mask `nick!user@host` whose parts are not empty and within the limits. The first `@` ends the
user name, and the first `!` the nick. -/
def InForm (mask : Str) : Prop :=
  ∃ nick user host, mask = nick ++ '!' :: user ++ '@' :: host ∧
    (nick ≠ [] ∧ nick.length ≤ nickLen - 1 ∧ '!' ∉ nick ∧ '@' ∉ nick) ∧
    (user ≠ [] ∧ user.length ≤ userLen ∧ '@' ∉ user) ∧ host ≠ [] ∧ host.length ≤ hostLen

/-- A mask without white space and adjacent stars. -/
structure Tidy (mask : Str) : Prop where
  space : ∀ c ∈ mask, isSpace c = false
  stars : mask.IsChain (Apart '*')

/-! ### The parts of a mask -/

section Parts

variable {mask s a b nick user host : Str} {c : Char}

theorem splitFirst_eq_some (h : splitFirst c s = some (a, b)) : s = a ++ c :: b ∧ c ∉ a := by
  rw [splitFirst] at h
  split_ifs at h with hc
  cases h
  have hne : s.dropWhile (· != c) ≠ [] := fun hnil => by
    simpa using dropWhile_eq_nil_iff.mp hnil c hc
  obtain ⟨d, t, ht⟩ := exists_cons_of_ne_nil hne
  obtain rfl : d = c := by
    have hhead := head_dropWhile_not (· != c) hne
    simp only [ht, head_cons] at hhead
    simpa using hhead
  refine ⟨?_, fun hmem => absurd (mem_takeWhile_imp hmem) (by simp)⟩
  rw [ht, drop_one, tail_cons, ← ht, takeWhile_append_dropWhile]

theorem splitFirst_eq_none (h : splitFirst c s = none) : c ∉ s := by
  rw [splitFirst] at h
  split_ifs at h with hc
  exact hc

theorem splitFirst_append (ha : c ∉ a) (b : Str) : splitFirst c (a ++ c :: b) = some (a, b) := by
  have hall : ∀ d ∈ a, (d != c) = true := fun d hd => bne_iff_ne.mpr fun h => ha (h ▸ hd)
  rw [splitFirst, if_pos (by simp), takeWhile_append_of_pos hall, dropWhile_append_of_pos hall,
    takeWhile_cons_of_neg (by simp), dropWhile_cons_of_neg (by simp), append_nil]
  rfl

theorem orSplat_ne_nil (s : Str) : orSplat s ≠ [] := by
  rw [orSplat]
  split_ifs with hs
  · exact cons_ne_nil _ _
  · exact hs

theorem orSplat_of_ne_nil (hs : s ≠ []) : orSplat s = s := if_neg hs

theorem orSplat_cases (s : Str) : orSplat s = ['*'] ∨ orSplat s = s := by
  rw [orSplat]
  split_ifs
  · exact .inl rfl
  · exact .inr rfl

theorem not_mem_orSplat (hc : c ≠ '*') (hs : c ∉ s) : c ∉ orSplat s := by
  obtain h | h := orSplat_cases s
  · rw [h]
    simpa using hc
  · rwa [h]

/-- Where the parts of a mask come from. -/
structure Parts (mask nick user host : Str) : Prop where
  nick_ne : nick ≠ []
  user_ne : user ≠ []
  host_ne : host ≠ []
  nick_ex : '!' ∉ nick
  nick_at : '@' ∉ nick
  user_at : '@' ∉ user
  nick_prefix : nick = ['*'] ∨ nick <+: mask
  user_infix : user = ['*'] ∨ user <:+: mask
  host_infix : host = ['*'] ∨ host <:+: mask

/-- **The parts of a mask.** -/
theorem parts_maskParts (h : maskParts mask = (nick, user, host)) : Parts mask nick user host := by
  have hstar : ∀ c, c ≠ '*' → c ∉ ['*'] := by simp
  rw [maskParts] at h
  split at h
  · rename_i front host' hat
    obtain ⟨hmask, hfront⟩ := splitFirst_eq_some hat
    have hhost : orSplat host' = ['*'] ∨ orSplat host' <:+: mask :=
      (orSplat_cases host').imp_right fun heq => by
        rw [heq, hmask]
        exact ⟨front ++ ['@'], [], by simp⟩
    split at h
    · rename_i nick' user' hex
      obtain ⟨rfl, rfl, rfl⟩ := h
      obtain ⟨hsplit, hnick⟩ := splitFirst_eq_some hex
      have hat' : '@' ∉ nick' ∧ '@' ∉ user' := by
        rw [hsplit] at hfront
        simp only [mem_append, mem_cons, not_or] at hfront
        exact ⟨hfront.1, hfront.2.2⟩
      refine ⟨orSplat_ne_nil _, orSplat_ne_nil _, orSplat_ne_nil _, not_mem_orSplat (by decide)
        hnick, not_mem_orSplat (by decide) hat'.1, not_mem_orSplat (by decide) hat'.2,
        (orSplat_cases nick').imp_right fun heq => ?_, (orSplat_cases user').imp_right fun heq =>
          ?_, hhost⟩
      · rw [heq, hmask, hsplit]
        exact ⟨'!' :: user' ++ '@' :: host', by simp⟩
      · rw [heq, hmask, hsplit]
        exact ⟨nick' ++ ['!'], '@' :: host', by simp⟩
    · obtain ⟨rfl, rfl, rfl⟩ := h
      refine ⟨by simp, orSplat_ne_nil _, orSplat_ne_nil _, hstar _ (by decide), hstar _ (by decide),
        not_mem_orSplat (by decide) hfront, .inl rfl, (orSplat_cases front).imp_right fun heq => ?_,
          hhost⟩
      rw [heq, hmask]
      exact ⟨[], '@' :: host', by simp⟩
  · rename_i hat
    have hnone := splitFirst_eq_none hat
    split at h
    · rename_i nick' user' hex
      obtain ⟨rfl, rfl, rfl⟩ := h
      obtain ⟨hmask, hnick⟩ := splitFirst_eq_some hex
      have hat' : '@' ∉ nick' ∧ '@' ∉ user' := by
        rw [hmask] at hnone
        simp only [mem_append, mem_cons, not_or] at hnone
        exact ⟨hnone.1, hnone.2.2⟩
      refine ⟨orSplat_ne_nil _, orSplat_ne_nil _, by simp, not_mem_orSplat (by decide) hnick,
        not_mem_orSplat (by decide) hat'.1, not_mem_orSplat (by decide) hat'.2,
        (orSplat_cases nick').imp_right fun heq => ?_, (orSplat_cases user').imp_right fun heq =>
          ?_, .inl rfl⟩
      · rw [heq, hmask]
        exact ⟨'!' :: user', by simp⟩
      · rw [heq, hmask]
        exact ⟨nick' ++ ['!'], [], by simp⟩
    · rename_i hex
      have hmask : orSplat mask = ['*'] ∨ orSplat mask = mask := orSplat_cases mask
      split_ifs at h
      · obtain ⟨rfl, rfl, rfl⟩ := h
        exact ⟨by simp, by simp, orSplat_ne_nil _, hstar _ (by decide), hstar _ (by decide),
          hstar _ (by decide), .inl rfl, .inl rfl, hmask.imp_right fun heq => by rw [heq]⟩
      · obtain ⟨rfl, rfl, rfl⟩ := h
        exact ⟨orSplat_ne_nil _, by simp, by simp, not_mem_orSplat (by decide)
          (splitFirst_eq_none hex),
          not_mem_orSplat (by decide) hnone, hstar _ (by decide), hmask.imp_right fun heq => by
            rw [heq],
          .inl rfl, .inl rfl⟩

end Parts

/-! ### Tidy masks -/

section Tidy

variable {mask a b : Str} {c : Char}

theorem tidy_star : Tidy ['*'] :=
  ⟨forall_mem_singleton.mpr (by decide), isChain_singleton _⟩

theorem Tidy.of_infix (h : Tidy mask) (hpart : a <:+: mask) : Tidy a :=
  ⟨fun c hc => h.space c (hpart.subset hc), h.stars.infix hpart⟩

theorem Tidy.take (h : Tidy mask) (n : ℕ) : Tidy (mask.take n) :=
  h.of_infix (List.take_prefix n mask).isInfix

/-- Tidy texts stay tidy when they are joined by a character. -/
theorem Tidy.join (ha : Tidy a) (hb : Tidy b) (hc : c ≠ '*') (hspace : isSpace c = false) :
    Tidy (a ++ c :: b) := by
  refine ⟨fun d hd => ?_, ?_⟩
  · obtain hd | rfl | hd := (mem_append.mp hd).imp_right mem_cons.mp
    · exact ha.space d hd
    · exact hspace
    · exact hb.space d hd
  · refine isChain_append.mpr ⟨ha.stars, isChain_cons.mpr ⟨fun d _ => apart_of_ne hc d, hb.stars⟩,
      ?_⟩
    intro d _ e he
    obtain rfl : c = e := by simpa using he
    exact fun h => hc h.2

/-- What `check_string` and `collapse` leave of a mask is tidy. -/
theorem tidy_collapse (s : Str) : Tidy (collapse (checkString s) false) := by
  rw [Escapes.collapse_eq_squeeze]
  refine ⟨fun c hc => ?_, isChain_squeeze _⟩
  have hmem : c ∈ checkString s := (destutter_sublist _ _).subset hc
  rw [checkString] at hmem
  split_ifs at hmem
  · rw [mem_singleton.mp hmem]
    decide
  · simpa using mem_takeWhile_imp hmem

/-- A tidy mask is left as it is by `check_string` and `collapse`. -/
theorem Tidy.collapse_eq (h : Tidy mask) (hne : mask ≠ []) :
    collapse (checkString mask) false = mask := by
  have hcheck : checkString mask = mask := by
    rw [checkString, if_neg hne, takeWhile_eq_self_iff]
    exact fun c hc => by simpa using h.space c hc
  rw [hcheck, Escapes.collapse_eq_squeeze, squeeze_of_isChain h.stars]

end Tidy

/-! ### What `pretty_mask` returns -/

section Pretty

variable {mask idmask nick user host : Str} {maskPos : ℕ}

/-- What comes out of `pretty_mask` has the form of a mask, and is tidy. -/
theorem inForm_prettyMask (h : prettyMask maskPos idmask = some mask) :
    InForm mask ∧ Tidy mask := by
  rw [prettyMask] at h
  dsimp only at h
  split_ifs at h
  have htidy := tidy_collapse idmask
  rcases hparts : maskParts (collapse (checkString idmask) false) with ⟨nick, user, host⟩
  rw [hparts] at h
  cases h
  have hp := parts_maskParts hparts
  have htake : ∀ {n : ℕ} {s : Str}, s ≠ [] → 0 < n → s.take n ≠ [] := fun hs hn htake =>
    (take_eq_nil_iff.mp htake).elim hn.ne' hs
  have hmem : ∀ {n : ℕ} {s : Str} {c : Char}, c ∉ s → c ∉ s.take n :=
    fun hc hmem => hc (mem_of_mem_take hmem)
  have hnick : Tidy nick := hp.nick_prefix.elim (fun heq => heq ▸ tidy_star) fun hpre =>
    htidy.of_infix hpre.isInfix
  have huser : Tidy user := hp.user_infix.elim (fun heq => heq ▸ tidy_star) htidy.of_infix
  have hhost : Tidy host := hp.host_infix.elim (fun heq => heq ▸ tidy_star) htidy.of_infix
  refine ⟨⟨nick.take (nickLen - 1), user.take userLen, host.take hostLen, rfl, ?_, ?_, ?_⟩, ?_⟩
  · exact ⟨htake hp.nick_ne (by decide), length_take_le _ _, hmem hp.nick_ex, hmem hp.nick_at⟩
  · exact ⟨htake hp.user_ne (by decide), length_take_le _ _, hmem hp.user_at⟩
  · exact ⟨htake hp.host_ne (by decide), length_take_le _ _⟩
  · exact ((hnick.take _).join (huser.take _) (by decide) (by decide)).join (hhost.take _)
      (by decide) (by decide)

/-- The parts of a mask in the form are found again. -/
theorem maskParts_form (hnick : nick ≠ [] ∧ '!' ∉ nick ∧ '@' ∉ nick)
    (huser : user ≠ [] ∧ '@' ∉ user) (hhost : host ≠ []) :
    maskParts (nick ++ '!' :: user ++ '@' :: host) = (nick, user, host) := by
  have hat : '@' ∉ nick ++ '!' :: user := by
    simp only [mem_append, mem_cons, not_or]
    exact ⟨hnick.2.2, by decide, huser.2⟩
  rw [maskParts, splitFirst_append hat]
  dsimp only
  rw [splitFirst_append hnick.2.1]
  dsimp only
  rw [orSplat_of_ne_nil hnick.1, orSplat_of_ne_nil huser.1, orSplat_of_ne_nil hhost]

/-- A tidy mask in the form comes out of `pretty_mask` as it is, if there is room. -/
theorem prettyMask_of_inForm (hform : InForm mask) (htidy : Tidy mask) (maskPos : ℕ) :
    prettyMask maskPos mask = if maskPos + mask.length + 5 ≤ ircdBufsize then some mask
    else none := by
  obtain ⟨nick, user, host, rfl, ⟨hnick, hnicklen, hex, hat⟩, ⟨huser, huserlen, hat'⟩, hhost,
    hhostlen⟩ := hform
  rw [prettyMask]
  dsimp only
  rw [htidy.collapse_eq (by simp), maskParts_form ⟨hnick, hex, hat⟩ ⟨huser, hat'⟩ hhost]
  dsimp only
  rw [take_of_length_le hnicklen, take_of_length_le huserlen, take_of_length_le hhostlen]
  split_ifs with hfull hroom hroom
  · omega
  · rfl
  · rfl
  · omega

/-- **Masks of local operators.** What `pretty_mask` returns is a mask `nick!user@host` whose parts
are not empty and within the limits, and goes through `pretty_mask` once more as it is. The masks
that stay as they are when there is room are those in this form that have no white space and no
adjacent stars. -/
theorem prettyMask_spec (maskPos : ℕ) (idmask : Str) :
    (∀ mask, prettyMask maskPos idmask = some mask →
        InForm mask ∧ ∀ pos, prettyMask pos mask = if pos + mask.length + 5 ≤ ircdBufsize then
        some mask else none) ∧
      (prettyMask maskPos idmask = some idmask ↔
        InForm idmask ∧ Tidy idmask ∧ maskPos + idmask.length + 5 ≤ ircdBufsize) := by
  refine ⟨fun mask h => ?_, fun h => ?_, fun ⟨hform, htidy, hroom⟩ => ?_⟩
  · obtain ⟨hform, htidy⟩ := inForm_prettyMask h
    exact ⟨hform, prettyMask_of_inForm hform htidy⟩
  · obtain ⟨hform, htidy⟩ := inForm_prettyMask h
    rw [prettyMask_of_inForm hform htidy] at h
    refine ⟨hform, htidy, ?_⟩
    by_contra hroom
    simp [hroom] at h
  · rw [prettyMask_of_inForm hform htidy, if_pos hroom]

/-- Adjacent stars are put together in a mask that has the form already. -/
theorem prettyMask_stars :
    InForm "a**!b@c".toList ∧ prettyMask 0 "a**!b@c".toList = some "a*!b@c".toList ∧
    "a*!b@c".toList ≠ "a**!b@c".toList :=
  ⟨⟨"a**".toList, "b".toList, "c".toList, by decide⟩, by decide, by decide⟩

end Pretty

end Ratbox.Banlist
