import Mathlib.Data.List.Basic

/-!
# Reading lines of bounded length from a stream

A reader is fed the elements of a stream and gives the lines that end at a separator. At most
`limit` elements of a line are kept; a longer line is given when it overflows, and the elements
up to its separator are skipped. Fed a whole stream, the reader gives the lines of the stream cut
to `limit` (`feed_opened_nil`).

A *forgetful* reader is fed the stream in chunks and does not remember, from one chunk to the
next, that it was skipping: the next chunk starts a new line. `track` runs both readers and marks
what only the forgetful one gives, so that the two agree exactly when the marked pieces do not
count (`filterMap_feedChunks_eq_iff`).

## Main definitions

* `LineReader.Reader`, `LineReader.feed`: the reader.
* `LineReader.cutLines`: the lines of a stream, cut to `limit`.
* `LineReader.feedChunks`, `LineReader.leaked`: the forgetful reader, and the pieces of skipped
  elements that it gives as lines of their own.

## Main results

* `LineReader.feed_opened_nil`: what the reader gives is `cutLines`.
* `LineReader.filterMap_feedChunks_eq_iff`: when chunks make no difference.
-/

namespace Ratbox.LineReader

open List Function

variable {α β : Type*}

/-- A reader: the elements of the open line, or skipping to the next separator. -/
inductive Reader (α : Type*)
  | opened (p : List α)
  | skipping

section Feed

variable (sep : α → Bool) (limit : ℕ) {p : List α}

/-- One element. -/
def step : Reader α → α → Reader α × List (List α)
  | .opened p, a =>
    if sep a then (.opened [], [p])
    else if p.length < limit then (.opened (p ++ [a]), [])
    else (.skipping, [p])
  | .skipping, a => if sep a then (.opened [], []) else (.skipping, [])

/-- Feed a list of elements, collecting the lines given. -/
def feed : Reader α → List α → Reader α × List (List α)
  | r, [] => (r, [])
  | r, a :: s => ((feed (step sep limit r a).1 s).1,
      (step sep limit r a).2 ++ (feed (step sep limit r a).1 s).2)

/-- The lines of a stream, each cut to `limit` elements. The elements after the last separator
are a line only when they overflow. -/
def cutLines (s : List α) : List (List α) :=
  (s.splitOnP sep).dropLast.map (take limit) ++
    if limit < ((s.splitOnP sep).getLastD []).length
      then [((s.splitOnP sep).getLastD []).take limit] else []

theorem feed_append (r : Reader α) (s t : List α) :
    feed sep limit r (s ++ t) =
      ((feed sep limit (feed sep limit r s).1 t).1,
        (feed sep limit r s).2 ++ (feed sep limit (feed sep limit r s).1 t).2) := by
  induction s generalizing r with
  | nil => simp [feed]
  | cons a s ih => simp [feed, ih]

variable {sep limit} {s : List α}

/-- Elements that are not separators, while skipping. -/
theorem feed_skipping_text (hs : ∀ a ∈ s, sep a = false) :
    feed sep limit .skipping s = (.skipping, []) := by
  induction s with
  | nil => rfl
  | cons a s ih =>
    have ha : sep a = false := hs a mem_cons_self
    simp [feed, step, ha, ih fun b hb => hs b (mem_cons_of_mem a hb)]

/-- Elements that are not separators extend the open line up to `limit`. -/
theorem feed_opened_text (hp : p.length ≤ limit) (hs : ∀ a ∈ s, sep a = false) :
    feed sep limit (.opened p) s =
      if p.length + s.length ≤ limit then (.opened (p ++ s), [])
      else (.skipping, [(p ++ s).take limit]) := by
  induction s generalizing p with
  | nil => simp [feed, hp]
  | cons a s ih =>
    have ha : sep a = false := hs a mem_cons_self
    have hs' : ∀ b ∈ s, sep b = false := fun b hb => hs b (mem_cons_of_mem a hb)
    by_cases hlt : p.length < limit
    · have hlen : (p ++ [a]).length ≤ limit := by simp; omega
      have hsum : (p ++ [a]).length + s.length = p.length + (a :: s).length := by simp; omega
      simp only [feed, step, ha, Bool.false_eq_true, ↓reduceIte, hlt, ih hlen hs', hsum,
        append_assoc, cons_append, nil_append]
    · have hpl : p.length = limit := by omega
      simp [feed, step, ha, feed_skipping_text hs', hpl.symm]

/-- A run of separators ends the open line, and gives an empty line for each further one. -/
theorem feed_opened_seps (hs : ∀ a ∈ s, sep a = true) (hne : s ≠ []) :
    feed sep limit (.opened p) s = (.opened [], p :: replicate (s.length - 1) []) := by
  induction s generalizing p with
  | nil => exact absurd rfl hne
  | cons a s ih =>
    have ha : sep a = true := hs a mem_cons_self
    rcases s with _ | ⟨b, s⟩
    · simp [feed, step, ha]
    · rw [feed, step]
      simp only [ha, ↓reduceIte]
      rw [ih (fun c hc => hs c (mem_cons_of_mem a hc)) (cons_ne_nil b s)]
      simp [replicate_succ]

/-- A run of separators, while skipping. -/
theorem feed_skipping_seps (hs : ∀ a ∈ s, sep a = true) (hne : s ≠ []) :
    feed sep limit .skipping s = (.opened [], replicate (s.length - 1) []) := by
  rcases s with _ | ⟨a, s⟩
  · exact absurd rfl hne
  have ha : sep a = true := hs a mem_cons_self
  rcases s with _ | ⟨b, s⟩
  · simp [feed, step, ha]
  · rw [feed, step]
    simp only [ha, ↓reduceIte]
    rw [feed_opened_seps (fun c hc => hs c (mem_cons_of_mem a hc)) (cons_ne_nil b s)]
    simp [replicate_succ]

/-- The open line has no separator. -/
theorem feed_opened_noSep {q : List α} (hp : ∀ a ∈ p, sep a = false)
    (h : (feed sep limit (.opened p) s).1 = .opened q) : ∀ a ∈ q, sep a = false := by
  suffices ∀ r : Reader α, (∀ p, r = .opened p → ∀ a ∈ p, sep a = false) →
      (feed sep limit r s).1 = .opened q → ∀ a ∈ q, sep a = false from
    this (.opened p) (fun p' hp' => by injection hp' with e; rwa [← e]) h
  clear h hp
  induction s with
  | nil => exact fun r hr h => hr q h
  | cons b s ih =>
    refine fun r hr h => ih (step sep limit r b).1 (fun p' hp' => ?_) h
    cases r with
    | opened p0 =>
      simp only [step] at hp'
      split_ifs at hp' with hb hlt
      · simp_all
      · injection hp' with e
        subst e
        intro a ha
        rcases mem_append.mp ha with ha | ha
        · exact hr p0 rfl a ha
        · rw [mem_singleton.mp ha]
          exact Bool.not_eq_true _ ▸ hb
    | skipping =>
      simp only [step] at hp'
      split_ifs at hp'
      injection hp' with e
      simp [← e]

/-! ### The lines of a stream -/

/-- A list either has no separator, or it is a text without one, a separator, and a rest. -/
theorem exists_sep_or_text (sep : α → Bool) (s : List α) :
    (∀ a ∈ s, sep a = false) ∨
      ∃ t a u, s = t ++ a :: u ∧ (∀ b ∈ t, sep b = false) ∧ sep a = true := by
  induction s with
  | nil => exact .inl (by simp)
  | cons a s ih =>
    cases ha : sep a with
    | true => exact .inr ⟨[], a, s, rfl, by simp, ha⟩
    | false =>
      rcases ih with h | ⟨t, b, u, rfl, ht, hb⟩
      · exact .inl (by simpa [ha] using h)
      · exact .inr ⟨a :: t, b, u, rfl, by simpa [ha] using ht, hb⟩

/-- Induction over the lines of a stream. -/
theorem line_induction {motive : List α → Prop} (sep : α → Bool)
    (text : ∀ s, (∀ a ∈ s, sep a = false) → motive s)
    (line : ∀ t a u, (∀ b ∈ t, sep b = false) → sep a = true → motive u →
      motive (t ++ a :: u)) (s : List α) : motive s := by
  induction hn : s.length using Nat.strongRecOn generalizing s with
  | _ n ih =>
    rcases exists_sep_or_text sep s with h | ⟨t, a, u, rfl, ht, ha⟩
    · exact text s h
    · exact line t a u ht ha (ih u.length (by simp at hn; omega) u rfl)

/-- The elements after the last separator are a line only when they overflow. -/
theorem cutLines_text (hs : ∀ a ∈ s, sep a = false) :
    cutLines sep limit s = if limit < s.length then [s.take limit] else [] := by
  simp [cutLines, splitOnP_eq_singleton hs]

/-- The first line of a stream is cut to `limit`. -/
theorem cutLines_line {t u : List α} {a : α} (ht : ∀ b ∈ t, sep b = false) (ha : sep a = true) :
    cutLines sep limit (t ++ a :: u) = t.take limit :: cutLines sep limit u := by
  have hne : u.splitOnP sep ≠ [] := splitOnP_ne_nil sep u
  simp only [cutLines, splitOnP_append_cons_of_forall_mem ht a ha u]
  rw [dropLast_cons_of_ne_nil hne, map_cons, cons_append]
  rcases eq_nil_or_concat (u.splitOnP sep) with h | ⟨l, b, h⟩
  · exact absurd h hne
  · simp [h, getLastD_eq_getLast?, getLast?_cons]

/-- **The reader gives the lines of the stream.** -/
theorem feed_opened_nil (s : List α) :
    (feed sep limit (.opened []) s).2 = cutLines sep limit s := by
  induction s using line_induction sep with
  | text s hs =>
    rw [feed_opened_text (Nat.zero_le _) hs, cutLines_text hs]
    simp only [length_nil, Nat.zero_add, nil_append, apply_ite Prod.snd]
    split_ifs <;> first | rfl | omega
  | line t a u ht ha ih =>
    rw [feed_append, feed_opened_text (Nat.zero_le _) ht, cutLines_line ht ha, ← ih]
    simp only [length_nil, Nat.zero_add, nil_append]
    split_ifs with h
    · simp [feed, step, ha, take_of_length_le h]
    · simp [feed, step, ha]

end Feed

/-! ### Chunks -/

section Chunks

variable (sep : α → Bool) (limit : ℕ)

/-- A forgetful reader at the end of a chunk: it no longer knows that it was skipping. -/
def forget : Reader α → Reader α
  | .opened p => .opened p
  | .skipping => .opened []

@[simp] theorem forget_opened (p : List α) : forget (.opened p) = .opened p := rfl

@[simp] theorem forget_skipping : forget (.skipping : Reader α) = .opened [] := rfl

/-- A text and a run of separators that end a line give the line, cut to `limit`, and the reader
starts afresh on the rest. Empty lines apart, the length of the run does not matter. -/
theorem feed_line_run {sep : α → Bool} {limit : ℕ} [DecidableEq α] {p t e u : List α}
    (hp : p.length ≤ limit)
    (ht : ∀ a ∈ t, sep a = false) (he : ∀ a ∈ e, sep a = true) (hu : e = [] → u = [])
    (hend : ¬ (e = [] ∧ p.length + t.length ≤ limit)) :
    forget (feed sep limit (.opened p) (t ++ (e ++ u))).1 =
        forget (feed sep limit (.opened []) u).1 ∧
      (feed sep limit (.opened p) (t ++ (e ++ u))).2.filter (· ≠ []) =
        ((p ++ t).take limit :: (feed sep limit (.opened []) u).2).filter (· ≠ []) := by
  have hrep : ∀ n, (replicate n ([] : List α)).filter (· ≠ []) = [] := by simp
  rw [feed_append, feed_opened_text hp ht]
  by_cases hle : p.length + t.length ≤ limit
  · have hne : e ≠ [] := fun h => hend ⟨h, hle⟩
    rw [if_pos hle, feed_append, feed_opened_seps he hne, take_of_length_le (by simpa)]
    refine ⟨rfl, ?_⟩
    rw [nil_append, cons_append, filter_cons, filter_append, hrep,
      nil_append, filter_cons]
  · rw [if_neg hle]
    by_cases hne : e = []
    · simp [hne, hu hne, feed]
    · rw [feed_append, feed_skipping_seps he hne]
      refine ⟨rfl, ?_⟩
      rw [filter_append, filter_append, hrep, nil_append, ← filter_append]
      rfl

/-- Feed a stream in chunks to a forgetful reader. -/
def feedChunks : Reader α → List (List α) → Reader α × List (List α)
  | r, [] => (r, [])
  | r, c :: cs =>
    ((feedChunks (forget (feed sep limit r c).1) cs).1,
      (feed sep limit r c).2 ++ (feedChunks (forget (feed sep limit r c).1) cs).2)

/-- The two readers: in the same state, or only the forgetful one has an open line. -/
inductive Track (α : Type*)
  | sync (r : Reader α)
  | late (r : Reader α)

/-- One element for both readers. What is given is marked `true` when only the forgetful reader
gives it. -/
def trackStep : Track α → α → Track α × List (Bool × List α)
  | .sync r, a => (.sync (step sep limit r a).1, (step sep limit r a).2.map (false, ·))
  | .late r, a =>
    (if sep a then .sync (.opened []) else .late (step sep limit r a).1,
      (step sep limit r a).2.map (true, ·))

/-- The end of a chunk for both readers. -/
def trackCut : Track α → Track α
  | .sync (.opened p) => .sync (.opened p)
  | .sync .skipping => .late (.opened [])
  | .late r => .late (forget r)

/-- A chunk for both readers. -/
def trackChunk : Track α → List α → Track α × List (Bool × List α)
  | t, [] => (trackCut t, [])
  | t, a :: s => ((trackChunk (trackStep sep limit t a).1 s).1,
      (trackStep sep limit t a).2 ++ (trackChunk (trackStep sep limit t a).1 s).2)

/-- A stream in chunks for both readers. -/
def track : Track α → List (List α) → List (Bool × List α)
  | _, [] => []
  | t, c :: cs => (trackChunk sep limit t c).2 ++ track (trackChunk sep limit t c).1 cs

/-- The pieces of skipped elements that a forgetful reader gives as lines of their own. -/
def leaked (cs : List (List α)) : List (List α) :=
  ((track sep limit (.sync (.opened [])) cs).filter (·.1)).map (·.2)

/-- The state of the forgetful reader. -/
def Track.forgetful : Track α → Reader α
  | .sync r => r
  | .late r => r

/-- The state of the reader that remembers. -/
def Track.remembering : Track α → Reader α
  | .sync r => r
  | .late _ => .skipping

variable {sep limit}

theorem trackChunk_forgetful (t : Track α) (c : List α) :
    (trackChunk sep limit t c).1.forgetful = forget (feed sep limit t.forgetful c).1 ∧
      (trackChunk sep limit t c).2.map (·.2) = (feed sep limit t.forgetful c).2 := by
  induction c generalizing t with
  | nil => rcases t with (_ | _) | r <;> simp [trackChunk, trackCut, feed, Track.forgetful, forget]
  | cons a s ih =>
    have hstep : (trackStep sep limit t a).1.forgetful = (step sep limit t.forgetful a).1 ∧
        (trackStep sep limit t a).2.map (·.2) = (step sep limit t.forgetful a).2 := by
      rcases t with r | r
      · simp [trackStep, Track.forgetful, comp_def]
      · cases ha : sep a <;> rcases r with _ | _ <;>
          simp [trackStep, Track.forgetful, comp_def, step, ha]
    rw [trackChunk, feed, ← hstep.1, ← hstep.2]
    exact ⟨(ih _).1, by rw [map_append, (ih _).2]⟩

theorem trackChunk_remembering (t : Track α) (c : List α) :
    (trackChunk sep limit t c).1.remembering = (feed sep limit t.remembering c).1 ∧
      ((trackChunk sep limit t c).2.filter (!·.1)).map (·.2) =
        (feed sep limit t.remembering c).2 := by
  induction c generalizing t with
  | nil => rcases t with (_ | _) | r <;> simp [trackChunk, trackCut, feed, Track.remembering]
  | cons a s ih =>
    have hstep : (trackStep sep limit t a).1.remembering = (step sep limit t.remembering a).1 ∧
        ((trackStep sep limit t a).2.filter (!·.1)).map (·.2) =
          (step sep limit t.remembering a).2 := by
      rcases t with r | r
      · simp [trackStep, Track.remembering, filter_map, comp_def]
      · cases ha : sep a <;>
          simp [trackStep, Track.remembering, filter_map, comp_def, step, ha]
    rw [trackChunk, feed, ← hstep.1, ← hstep.2]
    exact ⟨(ih _).1, by rw [filter_append, map_append, (ih _).2]⟩

/-- All that the two readers give is what the forgetful one gives. -/
theorem map_snd_track (sep : α → Bool) (limit : ℕ) (t : Track α) (cs : List (List α)) :
    (track sep limit t cs).map (·.2) = (feedChunks sep limit t.forgetful cs).2 := by
  induction cs generalizing t with
  | nil => rfl
  | cons c cs ih =>
    rw [track, map_append, ih, (trackChunk_forgetful t c).1, (trackChunk_forgetful t c).2,
      feedChunks]

/-- What is not marked is what the reader gives that remembers. -/
theorem filter_not_track (sep : α → Bool) (limit : ℕ) (t : Track α) (cs : List (List α)) :
    ((track sep limit t cs).filter (!·.1)).map (·.2) =
      (feed sep limit t.remembering cs.flatten).2 := by
  induction cs generalizing t with
  | nil => rfl
  | cons c cs ih =>
    rw [track, filter_append, map_append, ih, (trackChunk_remembering t c).1,
      (trackChunk_remembering t c).2, flatten_cons, feed_append]

/-- Taking the marked elements out of a list changes what it is mapped to exactly when one of
them counts. -/
theorem filterMap_filter_not_eq_iff (view : α → Option β) (l : List (Bool × α)) :
    (l.map (·.2)).filterMap view = ((l.filter (!·.1)).map (·.2)).filterMap view ↔
      ∀ x ∈ (l.filter (·.1)).map (·.2), view x = none := by
  induction l with
  | nil => simp
  | cons x l ih =>
    obtain ⟨m, a⟩ := x
    cases m with
    | false =>
      cases ha : view a with
      | none => simpa [ha] using ih
      | some b => simpa [ha] using ih
    | true =>
      cases ha : view a with
      | none => simpa [ha] using ih
      | some b =>
        -- one element more on the left
        have hlen : (((l.filter (!·.1)).map (·.2)).filterMap view).length ≤
            ((l.map (·.2)).filterMap view).length :=
          ((filter_sublist.map _).filterMap view).length_le
        refine iff_of_false (fun h => ?_) (fun h => by simpa [ha] using h a)
        have := congrArg length h
        simp [ha] at this hlen
        omega

/-- **When chunks make no difference.** Seen through `view`, the forgetful reader gives the lines
of the stream exactly when no piece that it leaks is seen. -/
theorem filterMap_feedChunks_eq_iff (view : List α → Option β) (cs : List (List α)) :
    (feedChunks sep limit (.opened []) cs).2.filterMap view =
        (cutLines sep limit cs.flatten).filterMap view ↔
      ∀ p ∈ leaked sep limit cs, view p = none := by
  have h1 := map_snd_track sep limit (.sync (.opened [])) cs
  have h2 := filter_not_track sep limit (.sync (.opened [])) cs
  rw [← feed_opened_nil]
  simp only [Track.forgetful, Track.remembering] at h1 h2
  rw [← h1, ← h2]
  exact filterMap_filter_not_eq_iff view _

/-! ### Streams without overlong lines -/

/-- A reader that is skipping has seen more than `limit` elements without a separator. -/
theorem exists_overlong_of_skipping {p s : List α} (hp : p.length ≤ limit)
    (hps : ∀ a ∈ p, sep a = false) (h : (feed sep limit (.opened p) s).1 = .skipping) :
    ∃ t, t <:+: p ++ s ∧ (∀ a ∈ t, sep a = false) ∧ limit < t.length := by
  induction s using line_induction sep generalizing p with
  | text s hs =>
    rw [feed_opened_text hp hs] at h
    split_ifs at h with hle
    exact ⟨p ++ s, infix_refl _, by simpa [or_imp, forall_and] using ⟨hps, hs⟩,
      by simp; omega⟩
  | line t a u ht ha ih =>
    have hmid : (feed sep limit (.opened p) (t ++ a :: u)).1 =
        (feed sep limit (.opened []) u).1 := by
      rw [feed_append, feed_opened_text hp ht]
      split_ifs <;> simp [feed, step, ha]
    rw [hmid] at h
    obtain ⟨v, hv, hvs, hlen⟩ := ih (Nat.zero_le _) (by simp) h
    refine ⟨v, hv.trans ?_, hvs, hlen⟩
    exact ⟨p ++ t ++ [a], [], by simp⟩

/-- What a forgetful reader keeps open at the end of a chunk is the end of what it was fed. -/
theorem forget_feed_suffix (sep : α → Bool) (limit : ℕ) (r : Reader α) (s : List α) :
    ∃ p, forget (feed sep limit r s).1 = .opened p ∧
      p <:+ (match r with | .opened q => q ++ s | .skipping => s) := by
  induction s generalizing r with
  | nil =>
    cases r with
    | opened q => exact ⟨q, rfl, by simp⟩
    | skipping => exact ⟨[], rfl, nil_suffix⟩
  | cons a s ih =>
    obtain ⟨p, hp, hsuf⟩ := ih (step sep limit r a).1
    refine ⟨p, hp, hsuf.trans ?_⟩
    cases r with
    | opened q =>
      simp only [step]
      split_ifs
      · exact ⟨q ++ [a], by simp⟩
      · simp
      · exact ⟨q ++ [a], by simp⟩
    | skipping =>
      simp only [step]
      split_ifs <;> exact ⟨[a], rfl⟩

/-- Without overlong lines the forgetful reader gives the lines of the stream. -/
theorem feedChunks_eq_of_le {p : List α} {cs : List (List α)} (hps : ∀ a ∈ p, sep a = false)
    (h : ∀ t, t <:+: p ++ cs.flatten → (∀ a ∈ t, sep a = false) → t.length ≤ limit) :
    feedChunks sep limit (.opened p) cs = feed sep limit (.opened p) cs.flatten := by
  induction cs generalizing p with
  | nil => rfl
  | cons c cs ih =>
    have hp : p.length ≤ limit := h p ⟨[], (c :: cs).flatten, by simp⟩ hps
    have hc : (feed sep limit (.opened p) c).1 = forget (feed sep limit (.opened p) c).1 := by
      cases hr : (feed sep limit (.opened p) c).1 with
      | opened q => rfl
      | skipping =>
        obtain ⟨t, ht, hts, hlen⟩ := exists_overlong_of_skipping hp hps hr
        exact absurd (h t (ht.trans ⟨[], cs.flatten, by simp⟩) hts) (by omega)
    obtain ⟨q, hq, hsuf⟩ := forget_feed_suffix sep limit (.opened p) c
    have hfeed : (feed sep limit (.opened p) c).1 = .opened q := hc.trans hq
    have hq' : q ++ cs.flatten <:+: p ++ (c :: cs).flatten := by
      obtain ⟨v, hv⟩ := hsuf
      exact ⟨v, [], by simpa using congrArg (· ++ cs.flatten) hv⟩
    rw [feedChunks, flatten_cons, feed_append, hfeed, forget_opened,
      ih (feed_opened_noSep hps hfeed) fun t ht hts => h t (ht.trans hq') hts]

/-- Without overlong lines nothing is cut. -/
theorem cutLines_eq_of_le {s : List α}
    (h : ∀ t, t <:+: s → (∀ a ∈ t, sep a = false) → t.length ≤ limit) :
    cutLines sep limit s = (s.splitOnP sep).dropLast := by
  induction s using line_induction sep with
  | text s hs =>
    have := h s (infix_refl s) hs
    rw [cutLines_text hs, splitOnP_eq_singleton hs]
    simp; omega
  | line t a u ht ha ih =>
    rw [cutLines_line ht ha, splitOnP_append_cons_of_forall_mem ht a ha u,
      dropLast_cons_of_ne_nil (splitOnP_ne_nil sep u),
      take_of_length_le (h t ⟨[], a :: u, by simp⟩ ht),
      ih fun v hv hvs => h v (hv.trans ⟨t ++ [a], [], by simp⟩) hvs]

end Chunks

end Ratbox.LineReader
