import Mathlib.Data.List.Nodup
import Mathlib.Data.List.Perm.Basic

/-!
# Handles

A component opens handles and closes them. The handles that it holds are those that it can still
close: as long as each handle that was opened is held or closed, and not both, it can close all of
them at the end. A handle that is neither is lost for good.

## Main definitions

* `Handles.acquire`, `Handles.release`: a handle is opened, and closed.
* `Handles.Accounts`: each handle that was opened is held or closed.
* `Handles.Lost`: some handle is neither.

## Main results

* `Handles.Accounts.closed`: when nothing is held any more, all handles are closed, each of them
  once.
* `Handles.Accounts.lost`: a handle that is not held any more, and was not closed, is lost.
-/

namespace Ratbox

open List

/-- The handles that were opened and closed, the newest first. Handles are numbered as they are
opened. -/
structure Handles where
  opened : List ℕ
  closed : List ℕ
  deriving DecidableEq

namespace Handles

/-- The handle that is opened next. -/
def next (h : Handles) : ℕ := h.opened.length

/-- A handle is opened. -/
def acquire (h : Handles) : Handles := { h with opened := h.next :: h.opened }

/-- A handle is closed. -/
def release (h : Handles) (x : ℕ) : Handles := { h with closed := x :: h.closed }

/-- The next handle is new. -/
structure Sound (h : Handles) : Prop where
  lt_next : ∀ x ∈ h.opened, x < h.next
  nodup : h.opened.Nodup

/-- **Each handle that was opened is held or closed**, and not both. -/
structure Accounts (h : Handles) (held : List ℕ) : Prop where
  sound : h.Sound
  perm : (held ++ h.closed).Perm h.opened

/-- A handle was opened that is neither held nor closed. -/
structure Lost (h : Handles) (held : List ℕ) : Prop where
  sound : h.Sound
  lost : ∃ x ∈ h.opened, x ∉ held ∧ x ∉ h.closed

variable {h : Handles} {held held' : List ℕ} {x : ℕ}

/-- No handles. -/
theorem accounts_nil : Accounts ⟨[], []⟩ [] :=
  ⟨⟨fun _ hx => absurd hx not_mem_nil, nodup_nil⟩, Perm.nil⟩

theorem Sound.acquire (hs : h.Sound) : h.acquire.Sound where
  lt_next x hx := by
    have hnext : h.acquire.next = h.next + 1 := rfl
    rcases mem_cons.mp hx with rfl | hx
    · omega
    · have := hs.lt_next x hx
      omega
  nodup := nodup_cons.mpr ⟨fun hmem => (Nat.lt_irrefl _) (hs.lt_next _ hmem), hs.nodup⟩

theorem Sound.release (hs : h.Sound) (x : ℕ) : (h.release x).Sound := ⟨hs.lt_next, hs.nodup⟩

namespace Accounts

theorem congr (ha : h.Accounts held) (hperm : held'.Perm held) : h.Accounts held' :=
  ⟨ha.sound, (hperm.append_right _).trans ha.perm⟩

theorem acquire (ha : h.Accounts held) : h.acquire.Accounts (h.next :: held) :=
  ⟨ha.sound.acquire, ha.perm.cons _⟩

theorem release (ha : h.Accounts (x :: held)) : (h.release x).Accounts held :=
  ⟨ha.sound.release x, perm_middle.trans ha.perm⟩

/-- A handle that is opened and closed. -/
theorem acquire_release (ha : h.Accounts held) : (h.acquire.release h.next).Accounts held :=
  ha.acquire.release

/-- **At the end**, when nothing is held, all handles are closed, each of them once. -/
theorem closed (ha : h.Accounts []) : h.closed.Nodup ∧ ∀ x ∈ h.opened, x ∈ h.closed :=
  ⟨(Perm.nodup_iff ha.perm).mpr ha.sound.nodup, fun _ hx => ha.perm.mem_iff.mpr hx⟩

/-- **A handle that is let go** without being closed is lost. -/
theorem lost (ha : h.Accounts (x :: held)) : h.Lost held where
  sound := ha.sound
  lost := by
    have hnodup := (Perm.nodup_iff ha.perm).mpr ha.sound.nodup
    rw [cons_append, nodup_cons, mem_append, not_or] at hnodup
    exact ⟨x, ha.perm.mem_iff.mp mem_cons_self, hnodup.1⟩

end Accounts

namespace Lost

theorem mono (hl : h.Lost held) (hsub : held' ⊆ held) : h.Lost held' :=
  ⟨hl.sound, hl.lost.imp fun _ ⟨hopened, hnot, hopen⟩ => ⟨hopened, fun hx => hnot (hsub hx), hopen⟩⟩

theorem acquire (hl : h.Lost held) : h.acquire.Lost (h.next :: held) := by
  obtain ⟨x, hx, hnot, hopen⟩ := hl.lost
  refine ⟨hl.sound.acquire, x, mem_cons_of_mem _ hx, ?_, hopen⟩
  have hlt := hl.sound.lt_next x hx
  rw [mem_cons, not_or]
  exact ⟨Nat.ne_of_lt hlt, hnot⟩

theorem release (hl : h.Lost (x :: held)) : (h.release x).Lost held := by
  obtain ⟨y, hy, hnot, hopen⟩ := hl.lost
  rw [mem_cons, not_or] at hnot
  refine ⟨hl.sound.release x, y, hy, hnot.2, ?_⟩
  exact fun hclosed => (mem_cons.mp hclosed).elim hnot.1 hopen

theorem not_accounts (hl : h.Lost held) : ¬h.Accounts held := by
  obtain ⟨x, hx, hnot, hopen⟩ := hl.lost
  exact fun ha => (mem_append.mp (ha.perm.mem_iff.mpr hx)).elim hnot hopen

/-- What is lost is never closed. -/
theorem not_closed (hl : h.Lost held) : ¬∀ x ∈ h.opened, x ∈ h.closed := by
  obtain ⟨x, hx, -, hopen⟩ := hl.lost
  exact fun hall => hopen (hall x hx)

end Lost

end Handles

end Ratbox
