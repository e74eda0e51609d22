import Ratbox.Banlist.Lists
import Ratbox.Masks

/-!
# Masks that cover masks

A local operator cannot put a mask on a list when `mask_match` finds that one of the list matches
it. Nothing is lost then, as the mask of the list stands for all that the other one stands for. A
mask matches itself as long as the loop comes to an end.

Source: `src/match.c`, lines 125–195, and `modules/core/m_mode.c`, lines 401–460.

## Main definitions

* `Match.MaskEnds`: `mask_match` does not give up.

## Main results

* `Match.maskMatch_covers`: what a mask that `mask_match` finds to match another one stands for.
-/

namespace Ratbox.Match

open Text Glob

section

variable (mask name : Str)

/-- The loop of `mask_match` comes to an end, with the turns that are left. -/
def endsMaskLoop : ℕ → Cursor → Bool
  | 0, _ => false
  | calls + 1, s =>
    match maskTurn mask name (passStars mask s) with
    | .inl _ => true
    | .inr s => endsMaskLoop calls s

/-- `mask_match` does not give up. -/
def MaskEnds : Prop := mask = ['*'] ∨ endsMaskLoop mask name 512 ⟨0, 0, 0, 0, false⟩ = true

instance : Decidable (MaskEnds mask name) := inferInstanceAs (Decidable (_ ∨ _))

end

variable {mask name : Str} {s : Cursor} {calls : ℕ}

theorem endsMaskLoop_of_maskLoop (h : maskLoop mask name calls s = true) :
    endsMaskLoop mask name calls s = true := by
  induction calls generalizing s with
  | zero => simp [maskLoop] at h
  | succ calls ih =>
    rw [maskLoop] at h
    rw [endsMaskLoop]
    cases hr : maskTurn mask name (Match.passStars mask s) with
    | inl b => rfl
    | inr s' =>
      rw [hr] at h
      exact ih h

/-- The loop ends with a match when a mask is compared with itself. -/
theorem maskLoop_of_ends (hcase : Hostmask.SameCase mask name) (h : Banlist.Synced mask s)
    (hends : endsMaskLoop mask name calls s = true) : maskLoop mask name calls s = true := by
  induction calls generalizing s with
  | zero => simp [endsMaskLoop] at hends
  | succ calls ih =>
    rw [endsMaskLoop] at hends
    rw [maskLoop]
    obtain hdone | ⟨s', hturn, hs', -⟩ := h.passStars.1.turn hcase (passStars_ne mask s)
    · rw [hdone]
    · rw [hturn] at hends ⊢
      exact ih hs' hends

/-- **Masks that cover masks.** A mask that `mask_match` finds to match another one stands for all
that the other one stands for. A mask matches itself unless `mask_match` gives up, which it does not
where the mask is shorter than 512 characters. -/
theorem maskMatch_covers :
    (∀ m₁ m₂ : Str, maskMatch m₁ m₂ = true → globLanguage m₂ ≤ globLanguage m₁) ∧
      (∀ m : Str, MaskEnds m m → maskMatch m m = true) ∧ ∀ m : Str, m.length < 512 →
      MaskEnds m m := by
  refine ⟨fun m₁ m₂ h name hname => ?_, fun m hends => ?_, fun m hlen => ?_⟩
  · exact mem_language.mpr (StandsFor.of_maskMatch h (mem_language.mp hname))
  · rw [maskMatch]
    split_ifs with hstar
    · rfl
    · exact maskLoop_of_ends (Hostmask.sameCase_iff.mpr (irccmp_refl m)) (.same rfl (Nat.zero_le _))
        (hends.resolve_left hstar)
  · have hself := Banlist.maskMatch_of_irccmp (irccmp_refl m) hlen
    rw [maskMatch] at hself
    split_ifs at hself with hstar
    · exact .inl hstar
    · exact .inr (endsMaskLoop_of_maskLoop hself)

end Ratbox.Match

namespace Ratbox.Banlist

open Text Match

end Ratbox.Banlist
