import Ratbox.Text

/-!
# Descriptions of servers

The description of a server is sent to other servers with the mark `(H)` in front of it when the
server is hidden. What comes in is read from the front: a first word with a bracket is left out, as
it may be an address that an old server sends, and then the mark. SERVER copies the text into an
array of the size of a description first; SID does not.

Source: `modules/core/m_server.c`, lines 99–110, 268–285, 415–435, 550–570 and 580–652, and
`src/s_serv.c`, line 671.

## Main definitions

* `Gecos.Described`: what a server keeps of another one.
* `Gecos.setServerGecos`: `set_server_gecos`.
* `Gecos.hop`: a description is sent to the next server.
* `Gecos.Kept`: the descriptions that are not changed.

## Main results

* `Gecos.hop_eq_self_iff`: one hop.
* `Gecos.hops_eq_self_iff`: any number of hops.
-/

namespace Ratbox.Gecos

open Text List

/-- `REALLEN`. -/
def realLen : ℕ := 50

/-- The field `info` of a server, and whether `SetHidden` was called for it. -/
@[ext] structure Described where
  hidden : Bool
  info : Str
  length_le : info.length ≤ realLen
  deriving DecidableEq

/-- The characters in front of the first space. -/
def firstWord (s : Str) : Str := s.takeWhile (· ≠ ' ')

/-- What is behind the first space, if there is one. -/
def afterSpace (s : Str) : Option Str :=
  match s.dropWhile (· ≠ ' ') with
  | [] => none
  | _ :: rest => some rest

/-- The first word is left out when it has a `]`. -/
def skipAddress (info : Str) : Option Str := if ']' ∈ firstWord info then afterSpace info
    else some info

/-- The mark is left out. -/
def skipMark (s : Str) : Bool × Option Str := if firstWord s = "(H)".toList then
    (true, afterSpace s) else (false, some s)

/-- `rb_strlcpy` into the field, or `(Unknown Location)` when nothing is left. -/
def location (s : Option Str) : Str :=
  match s with
  | some (c :: s) => strlcpy (c :: s) (realLen + 1)
  | _ => "(Unknown Location)".toList

theorem length_location_le (s : Option Str) : (location s).length ≤ realLen := by
  rcases s with _ | _ | ⟨c, s⟩
  · decide
  · decide
  · exact length_take_le ..

/-- `set_server_gecos`. -/
def setServerGecos (info : Str) : Described :=
  match skipAddress info with
  | none => ⟨false, location none, length_location_le _⟩
  | some s => ⟨(skipMark s).1, location (skipMark s).2, length_location_le _⟩

/-- The ways on which a description comes in: SERVER, in `mr_server` and `ms_server`, and SID. -/
inductive Path
  | server
  | sid
  deriving DecidableEq

/-- The text is copied into `info`, or taken as it is. -/
def Path.read : Path → Str → Described
  | .server, text => setServerGecos (strlcpy text (realLen + 1))
  | .sid, text => setServerGecos text

/-- The last parameter of SERVER and SID. -/
def Described.text (d : Described) : Str := (if d.hidden then "(H) ".toList else []) ++ d.info

/-- The description that the next server has. -/
def hop (d : Described) (path : Path) : Described := path.read d.text

/-- **The descriptions that are not changed.** They are not empty. With the mark in front they fit,
unless SID is used; without it, the first word has no `]` and is not the mark. -/
def Kept (d : Described) (path : Path) : Prop :=
  d.info ≠ [] ∧
    if d.hidden then path = .sid ∨ d.info.length + 4 ≤ realLen
    else ']' ∉ firstWord d.info ∧ firstWord d.info ≠ "(H)".toList

instance (d : Described) (path : Path) : Decidable (Kept d path) := by
  unfold Kept
  infer_instance

/-! ### One hop -/

section Hop

variable {d : Described} {s rest : Str} {path : Path}

theorem length_of_afterSpace (h : afterSpace s = some rest) : rest.length < s.length := by
  rw [afterSpace] at h
  have hle := length_dropWhile_le (· ≠ ' ') s
  cases hdrop : s.dropWhile (· ≠ ' ') with
  | nil =>
    rw [hdrop] at h
    cases h
  | cons c s' =>
    rw [hdrop] at h hle
    cases h
    rw [length_cons] at hle
    omega

theorem location_of_ne_nil (hne : s ≠ []) : location (some s) = s.take realLen := by
  cases s with
  | nil => exact absurd rfl hne
  | cons c s => rfl

/-- What is found is shorter than a text, or there is nothing. -/
theorem location_ne (h : rest.length < s.length) (hs : s ≠ "(Unknown Location)".toList) :
    location (some rest) ≠ s := by
  rintro rfl
  cases rest with
  | nil => exact hs rfl
  | cons c rest =>
    rw [location_of_ne_nil (cons_ne_nil c rest), length_take] at h
    omega

theorem text_of_hidden (h : d.hidden = true) : d.text = "(H) ".toList ++ d.info := by
  rw [Described.text, h, if_pos rfl]

theorem text_of_not_hidden (h : d.hidden = false) : d.text = d.info := by
  rw [Described.text, h]
  rfl

/-- A text with the mark in front. -/
theorem setServerGecos_mark (info : Str) :
    (setServerGecos ("(H) ".toList ++ info)).hidden = true ∧
      (setServerGecos ("(H) ".toList ++ info)).info = location (some info) := ⟨rfl, rfl⟩

theorem hop_hidden_iff (h : d.hidden = true) : hop d path = d ↔ Kept d path := by
  have hread : path.read d.text = setServerGecos ("(H) ".toList ++
      if path = .sid then d.info else d.info.take (realLen - 4)) := by
    rw [text_of_hidden h]
    cases path <;> rfl
  rw [hop, hread, Kept, h, if_pos rfl, Described.ext_iff, (setServerGecos_mark _).1,
    (setServerGecos_mark _).2, h, eq_self_iff_true, true_and]
  have hle := d.length_le
  by_cases hnil : d.info = []
  · simp [hnil, location]
  · cases path with
    | sid => simp [hnil, location_of_ne_nil, take_of_length_le hle]
    | server =>
      have hne : d.info.take (realLen - 4) ≠ [] := by simp [hnil, realLen]
      rw [if_neg (by simp), location_of_ne_nil hne, take_take]
      simp only [reduceCtorEq, false_or, ne_eq, hnil, not_false_eq_true, true_and]
      rw [show min realLen (realLen - 4) = 46 from rfl, realLen]
      constructor
      · intro hsame
        have hlength := congrArg length hsame
        rw [length_take] at hlength
        omega
      · exact fun hshort => take_of_length_le (by omega)

theorem hop_not_hidden_iff (h : d.hidden = false) : hop d path = d ↔ Kept d path := by
  have hread : path.read d.text = setServerGecos d.info := by
    rw [text_of_not_hidden h]
    cases path with
    | sid => rfl
    | server => rw [Path.read, strlcpy, Nat.add_sub_cancel, take_of_length_le d.length_le]
  rw [hop, hread, Kept, h, Described.ext_iff, h, setServerGecos, skipAddress]
  simp only [Bool.false_eq_true, if_false]
  by_cases hbracket : ']' ∈ firstWord d.info
  · -- The first word is lost.
    have hunknown : d.info ≠ "(Unknown Location)".toList := by
      intro heq
      rw [heq] at hbracket
      exact absurd hbracket (by decide)
    rw [if_pos hbracket]
    refine iff_of_false (fun hsame => ?_) fun hkept => hkept.2.1 hbracket
    cases hafter : afterSpace d.info with
    | none =>
      rw [hafter] at hsame
      exact hunknown hsame.2.symm
    | some rest =>
      rw [hafter] at hsame
      dsimp only at hsame
      have hlt := length_of_afterSpace hafter
      rw [skipMark] at hsame
      split_ifs at hsame
      · exact absurd hsame.1 (by simp)
      · exact location_ne hlt hunknown hsame.2
  · rw [if_neg hbracket]
    dsimp only
    by_cases hmark : firstWord d.info = "(H)".toList
    · rw [skipMark, if_pos hmark]
      simp [hmark]
    · rw [skipMark, if_neg hmark]
      by_cases hnil : d.info = []
      · simp [hnil, location]
      · rw [location_of_ne_nil hnil, take_of_length_le d.length_le]
        exact iff_of_true ⟨rfl, rfl⟩ ⟨hnil, hbracket, hmark⟩

/-- **One hop** keeps a description exactly when it is one of those that are kept. -/
theorem hop_eq_self_iff (d : Described) (path : Path) : hop d path = d ↔ Kept d path := by
  cases h : d.hidden with
  | true => exact hop_hidden_iff h
  | false => exact hop_not_hidden_iff h

end Hop

/-! ### Any number of hops -/

/-- **The description is the same** at every server on the way exactly when each of the hops keeps
it. -/
theorem hops_eq_self_iff (d : Described) (paths : List Path) :
    (∀ way, way <+: paths → way.foldl hop d = d) ↔ ∀ path ∈ paths, Kept d path := by
  induction paths with
  | nil => simp [prefix_nil]
  | cons path paths ih =>
    rw [forall_mem_cons, ← hop_eq_self_iff, ← ih]
    constructor
    · intro h
      have hfirst : hop d path = d := h [path] (by simp)
      refine ⟨hfirst, fun way hway => ?_⟩
      have hrest := h (path :: way) (prefix_cons_inj path |>.mpr hway)
      rwa [foldl_cons, hfirst] at hrest
    · rintro ⟨hfirst, hrest⟩ way hway
      rcases prefix_cons_iff.mp hway with rfl | ⟨way', rfl, hway'⟩
      · rfl
      · rw [foldl_cons, hfirst]
        exact hrest way' hway'

/-- A word with a bracket is lost, and the end of a long description of a hidden server. -/
theorem not_kept :
    hop (setServerGecos "[x] a] b".toList) .sid = ⟨false, ['b'], by decide⟩ ∧
      (setServerGecos "[x] a] b".toList).info = "a] b".toList ∧
      (hop ⟨true, replicate 50 'a', by decide⟩ .server).info = replicate 46 'a' := by
  decide

end Ratbox.Gecos
