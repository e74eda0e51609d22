import Ratbox.Banlist.Pretty
import Ratbox.Channel.BurstLines

/-!
# The masks of a burst

The masks that local operators give to `chm_ban` stay words in the middle of a message, and they
have room in a ban. So they stand on the lines that `burst_modes_TS6` sends as `ms_bmask` takes
them.

Source: `modules/core/m_mode.c`, lines 252–345, 394–631 and 872–930, and `modules/core/m_server.c`,
lines 847–893.

## Main definitions

* `Burst.IsMask`: a mask that `ms_bmask` takes as it is.

## Main results

* `Burst.isMask_chmBanMask`: what `chm_ban` stores for a local operator is such a mask.
-/

namespace Ratbox.Burst

open Text Channel Banlist List
open Banlist (ModeType banLen modebufLen)

/-! ### Masks that stay words -/

theorem head_collapse (s : Str) : (collapse s false).head? = s.head? := by
  cases s with
  | nil => rfl
  | cons c s =>
    rw [collapse, if_neg Bool.false_ne_true]
    split_ifs with hc
    · rw [hc, head?_cons, head?_cons]
    · rfl

theorem head_checkString {s : Str} (h : s.head? ≠ some ':') : (checkString s).head? ≠ some ':' := by
  rw [checkString]
  split_ifs
  · decide
  · rw [head?_takeWhile]
    exact fun hhead => h (Option.filter_eq_some_iff.mp hhead).1

variable {maskPos : ℕ}

/-- **The masks of local clients stay words** in the middle of a message. -/
theorem word_prettyMask {idmask mask : Str} (hcolon : idmask.head? ≠ some ':')
    (h : prettyMask maskPos idmask = some mask) : Word mask := by
  obtain ⟨-, htidy⟩ := inForm_prettyMask h
  refine ⟨(length_prettyMask h).1, fun hmem => absurd (htidy.space _ hmem) (by decide), ?_⟩
  rw [prettyMask] at h
  dsimp only at h
  split_ifs at h
  rcases hparts : maskParts (collapse (checkString idmask) false) with ⟨nick, user, host⟩
  have hp := parts_maskParts hparts
  rw [hparts] at h
  cases h
  obtain ⟨c, nick, rfl⟩ := exists_cons_of_ne_nil hp.nick_ne
  -- the first character is that of the mask, if it is no star
  rintro ⟨⟩
  obtain heq | ⟨rest, heq⟩ := hp.nick_prefix
  · cases heq
  · refine head_checkString hcolon ?_
    rw [← head_collapse, ← heq]
    rfl

/-- A mask that `ms_bmask` puts on a list as it is. -/
structure IsMask (mask : Str) : Prop where
  word : Word mask
  lt : mask.length < banLen

theorem isMask_chmBanMask {raw mask : Str} (h : chmBanMask true maskPos raw = some mask) :
    IsMask mask := by
  refine ⟨?_, (length_chmBanMask h).2⟩
  rw [chmBanMask] at h
  split_ifs at h with hraw
  · exact word_prettyMask (not_or.mp hraw).2 (Option.filter_eq_some_iff.mp h).1
  · simp at *

end Ratbox.Burst
