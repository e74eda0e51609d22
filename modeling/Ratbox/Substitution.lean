import Ratbox.Channel.SjoinLines

/-!
# The markup of a reason

The text that a client is refused with has markup for what is known of the client: `${name}` stands
for the value of a variable. The text is copied character for character, and the value of a variable
is copied in place of its markup. A `$` that begins no markup and markup of no variable are left
out. Markup that is not closed takes the reader past the end of the text, and a value that is too
long takes the writer past the end of the result.

Source: `src/substitution.c`, lines 52–155, and `src/s_auth.c`, lines 763–776.

## Main definitions

* `Substitution.substitutionParse`: the copy, unless something outside the text and the buffers is
  read or written.
* `Substitution.substitute`: the text with the values of the variables.
* `Substitution.Reads`: the pieces of a text.
* `Substitution.Fits`: the condition under which the text is what is returned.

## Main results

* `Substitution.substitutionParse_iff`: when the copy is the text with the values.
* `Substitution.not_all_substituted`: it is not for markup that is not closed.
-/

namespace Ratbox.Substitution

open Text List Option
open Channel (overwrite cstr overwrite_append cstr_append)

/-! ### The function -/

/-- A text without a NUL. -/
abbrev Template := { fmt : Str // '\x00' ∉ fmt }

/-- `struct substitution_variable`. -/
structure Variable where
  name : Str
  value : Str
  nul : '\x00' ∉ value

/-- `substitution_append_var`: the list begins with the variable that was appended last. -/
def substitutionAppendVar (varlist : List Variable) (name : Str) (value : Template) :
    List Variable :=
  ⟨name, value.1, value.2⟩ :: varlist

/-- What lies outside: the memory around the text, the buffer of the result, or that of the name. -/
inductive Outside
  | fmt
  | buf
  | varname
  deriving DecidableEq

/-- The two static buffers, and the offset of `bptr`. -/
structure Buffers where
  buf : Str
  bptr : ℕ
  varname : Str

/-- Read a character of the text, or its NUL. -/
def fetch (fmt : Str) (ptr : ℕ) : Except Outside Char :=
  if ptr ≤ fmt.length then .ok (fmt.getD ptr '\x00') else .error .fmt

/-- Write into one of the buffers. -/
def store (outside : Outside) (array : Str) (i : ℕ) (s : Str) : Except Outside Str :=
  if i + s.length ≤ ircdBufsize then .ok (overwrite array i s) else .error outside

/-- `break out ${var}`: the loop over the text behind the brace, and the length of the name. -/
def breakOut : Str → ℕ → Str → Except Outside (ℕ × Str)
  | [], vptr, varname => .ok (vptr, varname)
  | c :: pptr, vptr, varname =>
    if c ≠ '}' then do
      let varname ← store .varname varname vptr [c]
      breakOut pptr (vptr + 1) varname
    else do
      let varname ← store .varname varname vptr ['\x00']
      .ok (vptr, varname)

/-- The branch for markup, with how far `ptr` is moved. -/
def markup (fmt : Str) (varlist : List Variable) (ptr : ℕ) (b : Buffers) :
    Except Outside (ℕ × Buffers) := do
  let varname ← store .varname b.varname 0 ['\x00']
  let (len, varname) ← breakOut (fmt.drop (ptr + 2)) 0 varname
  match varlist.find? fun val => strcasecmp (cstr varname) val.name with
  | some val =>
    -- `rb_strlcpy` cuts the value, and `bptr` is moved by the whole of it
    let buf ← store .buf b.buf b.bptr (val.value.take (ircdBufsize - b.bptr - 1) ++ ['\x00'])
    .ok (len + 2, ⟨buf, b.bptr + val.value.length, varname⟩)
  | none => .ok (len + 2, { b with varname := varname })

/-- The body of the loop. -/
def turn (fmt : Str) (varlist : List Variable) (ptr : ℕ) (c : Char) (b : Buffers) :
    Except Outside (ℕ × Buffers) :=
  if c ≠ '$' then do
    let buf ← store .buf b.buf b.bptr [c]
    .ok (0, { b with buf := buf, bptr := b.bptr + 1 })
  else do
    if (← fetch fmt (ptr + 1)) = '{' then markup fmt varlist ptr b else .ok (0, b)

theorem le_of_fetch {fmt : Str} {ptr : ℕ} {c : Char} (h : fetch fmt ptr = .ok c) :
    ptr ≤ fmt.length := by
  rw [fetch] at h
  split_ifs at h with hle
  exact hle

/-- The loop over the text. -/
def loop (fmt : Str) (varlist : List Variable) (ptr : ℕ) (b : Buffers) : Except Outside Buffers :=
  match _hfetch : fetch fmt ptr with
  | .error outside => .error outside
  | .ok c =>
    if c ≠ '\x00' ∧ b.bptr < ircdBufsize then
      match turn fmt varlist ptr c b with
      | .error outside => .error outside
      | .ok (moved, b) => loop fmt varlist (ptr + moved + 1) b
    else .ok b
termination_by fmt.length + 1 - ptr
decreasing_by
  have hle := le_of_fetch _hfetch
  omega

/-- The result, after its NUL is written. -/
def finish (b : Buffers) : Except Outside Str := do
  let buf ← store .buf b.buf b.bptr ['\x00']
  .ok (cstr buf)

/-- `substitution_parse`, with what earlier calls left in the buffers. -/
def substitutionParse (fmt : Template) (varlist : List Variable) (buf varname : Str) :
    Except Outside Str := do
  let b ← loop fmt.1 varlist 0 ⟨buf, 0, varname⟩
  finish b

/-- The fields of a client that a reason can have. -/
structure RblClient where
  name : Template
  sockhost : Template
  host : Template

/-- The variables that `rbl_set_banned` lists. -/
def rblVariables (source_p : RblClient) (rblname networkName : Template) : List Variable :=
  let varlist := []
  let varlist := substitutionAppendVar varlist "nick".toList
    (if source_p.name.1 = [] then ⟨"(unset)".toList, by decide⟩ else source_p.name)
  let varlist := substitutionAppendVar varlist "ip".toList source_p.sockhost
  let varlist := substitutionAppendVar varlist "host".toList
    (if source_p.host.1 = [] then source_p.sockhost else source_p.host)
  let varlist := substitutionAppendVar varlist "dnsbl-host".toList rblname
  substitutionAppendVar varlist "network-name".toList networkName

/-- The reason that `rbl_set_banned` sets. -/
def rblSetBanned (source_p : RblClient) (rblname networkName answer : Template)
    (buf varname : Str) : Except Outside Str :=
  substitutionParse answer (rblVariables source_p rblname networkName) buf varname

/-! ### What is meant -/

/-- The value of the first variable that has a name. -/
def valueOf (varlist : List Variable) (name : Str) : Option Str :=
  (varlist.find? fun val => strcasecmp name val.name).map Variable.value

/-- The value of the variable whose markup a text begins with, and what is behind the markup. -/
def variableAt (varlist : List Variable) : Str → Option (Str × Str)
  | '$' :: '{' :: rest =>
    match rest.dropWhile (· ≠ '}') with
    | [] => none
    | _ :: after => (valueOf varlist (rest.takeWhile (· ≠ '}'))).map fun value => (value, after)
  | _ => none

theorem length_variableAt {varlist : List Variable} {fmt value after : Str}
    (h : variableAt varlist fmt = some (value, after)) : after.length < fmt.length := by
  unfold variableAt at h
  split at h
  · rename_i rest
    split at h
    · cases h
    · rename_i c after' hdrop
      obtain ⟨value', -, heq⟩ := map_eq_some_iff.mp h
      obtain ⟨-, rfl⟩ := Prod.mk.inj heq
      have hlength := length_dropWhile_le (· ≠ '}') rest
      rw [hdrop, length_cons] at hlength
      rw [length_cons, length_cons]
      omega
  · cases h

/-- **The text with the values**: markup of a variable is replaced by its value, and all else is
kept. -/
def substitute (varlist : List Variable) : Str → Str
  | [] => []
  | c :: rest =>
    match _hvar : variableAt varlist (c :: rest) with
    | some (value, after) => value ++ substitute varlist after
    | none => c :: substitute varlist rest
termination_by fmt => fmt.length
decreasing_by
  · exact length_variableAt _hvar
  · exact Nat.lt_succ_self _

/-! ### The pieces of a text -/

/-- A piece of a text: a character, a `$` that begins no markup, markup, or markup that is not
closed. -/
inductive Piece
  | text (c : Char)
  | dollar
  | markup (name : Str)
  | unclosed (name : Str)
  deriving DecidableEq

/-- **The pieces that a text is read as.** -/
inductive Reads : Str → List Piece → Prop
  | done : Reads [] []
  | text {c rest pieces} (hc : c ≠ '$') : Reads rest pieces → Reads (c :: rest) (.text c :: pieces)
  | dollar {rest pieces} (hrest : rest.head? ≠ some '{') :
      Reads rest pieces → Reads ('$' :: rest) (.dollar :: pieces)
  | markup {name rest pieces} (hname : '}' ∉ name) :
      Reads rest pieces → Reads ('$' :: '{' :: (name ++ '}' :: rest)) (.markup name :: pieces)
  | unclosed {name} (hname : '}' ∉ name) : Reads ('$' :: '{' :: name) [.unclosed name]

section Spec

variable {varlist : List Variable} {fmt name rest value : Str} {pieces : List Piece} {c : Char}

theorem dropWhile_name (hname : '}' ∉ name) (rest : Str) :
    (name ++ '}' :: rest).dropWhile (· ≠ '}') = '}' :: rest ∧ (name ++ '}' :: rest).takeWhile
    (· ≠ '}') = name := by
  have hpass : ∀ c ∈ name, decide (c ≠ '}') = true :=
    fun c hc => decide_eq_true fun h => hname (h ▸ hc)
  constructor
  · rw [dropWhile_append_of_pos hpass, dropWhile_cons_of_neg (by simp)]
  · rw [takeWhile_append_of_pos hpass, takeWhile_cons_of_neg (by simp), append_nil]

/-- A text is closed at its first brace, or has none. -/
theorem exists_name (rest : Str) : '}' ∉ rest ∨ ∃ name after, '}' ∉ name ∧
    rest = name ++ '}' :: after := by
  by_cases hmem : '}' ∈ rest
  · obtain ⟨name, after, rfl, hname⟩ := eq_append_cons_of_mem hmem
    exact .inr ⟨name, after, hname, rfl⟩
  · exact .inl hmem

/-- **Every text is read.** -/
theorem exists_reads (fmt : Str) : ∃ pieces, Reads fmt pieces := by
  match fmt with
  | [] => exact ⟨[], .done⟩
  | c :: rest =>
    by_cases hc : c = '$'
    · subst hc
      by_cases hbrace : rest.head? = some '{'
      · obtain ⟨rest, rfl⟩ := head?_eq_some_iff.mp hbrace
        rcases exists_name rest with hname | ⟨name, after, hname, rfl⟩
        · exact ⟨_, .unclosed hname⟩
        · obtain ⟨pieces, hpieces⟩ := exists_reads after
          exact ⟨_, .markup hname hpieces⟩
      · obtain ⟨pieces, hpieces⟩ := exists_reads rest
        exact ⟨_, .dollar hbrace hpieces⟩
    · obtain ⟨pieces, hpieces⟩ := exists_reads rest
      exact ⟨_, .text hc hpieces⟩
termination_by fmt.length

@[simp] theorem substitute_nil (varlist : List Variable) : substitute varlist [] = [] := by
  rw [substitute]

theorem substitute_cons_of_none (h : variableAt varlist (c :: rest) = none) :
    substitute varlist (c :: rest) = c :: substitute varlist rest := by
  rw [substitute]
  split
  · rename_i hvar
    cases h.symm.trans hvar
  · rfl

theorem substitute_cons_of_some {after : Str}
    (h : variableAt varlist (c :: rest) = some (value, after)) :
    substitute varlist (c :: rest) = value ++ substitute varlist after := by
  rw [substitute]
  split
  · rename_i hvar
    cases h.symm.trans hvar
    rfl
  · rename_i hvar
    cases h.symm.trans hvar

theorem variableAt_text (hc : c ≠ '$') (rest : Str) : variableAt varlist (c :: rest) = none := by
  unfold variableAt
  split
  · rename_i heq
    exact absurd (cons.inj heq).1 hc
  · rfl

theorem variableAt_dollar (hrest : rest.head? ≠ some '{') : variableAt varlist ('$' :: rest) =
    none := by
  unfold variableAt
  split
  · rename_i heq
    rw [(cons.inj heq).2] at hrest
    exact absurd rfl hrest
  · rfl

theorem variableAt_markup (hname : '}' ∉ name) (rest : Str) :
    variableAt varlist ('$' :: '{' :: (name ++ '}' :: rest)) = (valueOf varlist name).map
    fun value => (value, rest) := by
  obtain ⟨hdrop, htake⟩ := dropWhile_name hname rest
  rw [variableAt, hdrop, htake]

theorem variableAt_unclosed (hname : '}' ∉ name) : variableAt varlist ('$' :: '{' :: name) =
    none := by
  have hdrop : name.dropWhile (· ≠ '}') = [] :=
    dropWhile_eq_nil_iff.mpr fun c hc => decide_eq_true fun h => hname (h ▸ hc)
  rw [variableAt, hdrop]

theorem substitute_markup_of_some (hname : '}' ∉ name) (hvalue : valueOf varlist name = some value)
    (rest : Str) :
    substitute varlist ('$' :: '{' :: (name ++ '}' :: rest)) = value ++ substitute varlist rest :=
  substitute_cons_of_some (by rw [variableAt_markup hname, hvalue, map_some])

theorem substitute_markup_of_none (hname : '}' ∉ name) (hvalue : valueOf varlist name = none)
    (rest : Str) :
    substitute varlist ('$' :: '{' :: (name ++ '}' :: rest)) =
      '$' :: substitute varlist ('{' :: (name ++ '}' :: rest)) :=
  substitute_cons_of_none (by rw [variableAt_markup hname, hvalue, map_none])

/-- Markup ends at its brace, and what is behind a brace is replaced on its own. -/
theorem substitute_append_brace (s rest : Str) :
    substitute varlist (s ++ '}' :: rest) = substitute varlist (s ++ ['}']) ++
    substitute varlist rest := by
  induction hlength : s.length using Nat.strong_induction_on generalizing s with
  | _ n ih =>
    cases s with
    | nil =>
      rw [nil_append, nil_append, substitute_cons_of_none (variableAt_text (by decide) rest),
        substitute_cons_of_none (variableAt_text (by decide) []), substitute_nil]
      rfl
    | cons c s =>
      rw [length_cons] at hlength
      -- what is not replaced at the front goes on behind its first character
      have hnone (h : variableAt varlist (c :: (s ++ '}' :: rest)) = none)
          (h' : variableAt varlist (c :: (s ++ ['}'])) = none) :
          substitute varlist (c :: s ++ '}' :: rest) = substitute varlist (c :: s ++ ['}']) ++
              substitute varlist rest := by
        rw [cons_append, cons_append, substitute_cons_of_none h, substitute_cons_of_none h',
          ih s.length (by omega) s rfl, cons_append]
      by_cases hc : c = '$'
      · subst hc
        by_cases hbrace : s.head? = some '{'
        · obtain ⟨s, rfl⟩ := head?_eq_some_iff.mp hbrace
          rcases exists_name s with hname | ⟨name, after, hname, rfl⟩
          · cases hvalue : valueOf varlist s with
            | none =>
              refine hnone ?_ ?_ <;>
                rw [cons_append, variableAt_markup hname, hvalue, map_none]
            | some value =>
              simp only [cons_append]
              rw [substitute_markup_of_some hname hvalue, substitute_markup_of_some hname hvalue,
                substitute_nil, append_nil]
          · cases hvalue : valueOf varlist name with
            | none =>
              refine hnone ?_ ?_ <;>
                rw [cons_append, append_assoc, cons_append, variableAt_markup hname, hvalue,
                  map_none]
            | some value =>
              have hafter : after.length < n := by
                rw [length_cons, length_append, length_cons] at hlength
                omega
              simp only [cons_append, append_assoc]
              rw [substitute_markup_of_some hname hvalue, substitute_markup_of_some hname hvalue,
                ih after.length hafter after rfl, append_assoc]
        · have hbrace' (rest' : Str) : (s ++ '}' :: rest').head? ≠ some '{' := by
            cases s with
            | nil => simp
            | cons d s => exact hbrace
          exact hnone (variableAt_dollar (hbrace' rest)) (variableAt_dollar (hbrace' []))
      · exact hnone (variableAt_text hc _) (variableAt_text hc _)

/-- What a piece stands for. -/
def Piece.meant (varlist : List Variable) : Piece → Str
  | .text c => [c]
  | .dollar => ['$']
  | .markup name => (valueOf varlist name).getD ('$' :: substitute varlist ('{' :: (name ++ ['}'])))
  | .unclosed name => '$' :: substitute varlist ('{' :: name)

/-- A piece that is not left out: a character, or the markup of a variable. -/
def Piece.isKept (varlist : List Variable) : Piece → Bool
  | .text _ => true
  | .markup name => (valueOf varlist name).isSome
  | .dollar | .unclosed _ => false

/-- The pieces that are kept, with the values of the variables. -/
def kept (varlist : List Variable) (pieces : List Piece) : Str :=
  (pieces.filter (Piece.isKept varlist)).flatMap (Piece.meant varlist)

/-- **A text with the values** is what its pieces stand for. -/
theorem Reads.substitute_eq (h : Reads fmt pieces) :
    substitute varlist fmt = pieces.flatMap (Piece.meant varlist) := by
  induction h with
  | done => rw [substitute_nil, flatMap_nil]
  | text hc _ ih => rw [substitute_cons_of_none (variableAt_text hc _), ih, flatMap_cons]; rfl
  | dollar hrest _ ih => rw [substitute_cons_of_none
    (variableAt_dollar hrest), ih, flatMap_cons]; rfl
  | @markup name rest pieces hname _ ih =>
    rw [flatMap_cons, Piece.meant]
    cases hvalue : valueOf varlist name with
    | none =>
      rw [substitute_markup_of_none hname hvalue, ← cons_append, substitute_append_brace, ih,
        getD_none]
      rfl
    | some value => rw [substitute_markup_of_some hname hvalue, ih, getD_some]
  | unclosed hname =>
    rw [substitute_cons_of_none (variableAt_unclosed hname), flatMap_cons, flatMap_nil, append_nil]
    rfl

/-- What is left out is not empty. -/
theorem Piece.meant_ne_nil {piece : Piece} (h : piece.isKept varlist = false) :
    piece.meant varlist ≠ [] := by
  cases piece with
  | text c => cases h
  | dollar => exact cons_ne_nil _ _
  | markup name =>
    rw [Piece.isKept, isSome_eq_false_iff, isNone_iff_eq_none] at h
    rw [Piece.meant, h]
    exact cons_ne_nil _ _
  | unclosed name => exact cons_ne_nil _ _

end Spec

/-! ### The name of a variable -/

section Run

variable {varlist : List Variable} {fmt name rest pre out tail t : Str} {pieces : List Piece}
  {ptr : ℕ} {c : Char} {b b' : Buffers} {outside : Outside}

theorem store_of_le {array : Str} {i : ℕ} (h : i + t.length ≤ ircdBufsize) :
    store outside array i t = .ok (overwrite array i t) :=
  if_pos h

theorem store_of_lt {array : Str} {i : ℕ} (h : ircdBufsize < i + t.length) :
    store outside array i t = .error outside :=
  if_neg (Nat.not_le.mpr h)

/-- **A name is broken out** when there is room for it and its NUL. -/
theorem breakOut_of_lt (hname : '}' ∉ name) (rest : Str)
    (hlt : pre.length + name.length < ircdBufsize) (tail : Str) :
    breakOut (name ++ '}' :: rest) pre.length (pre ++ tail) =
      .ok (pre.length + name.length, pre ++ name ++ '\x00' :: tail.drop (name.length + 1)) := by
  induction name generalizing pre tail with
  | nil =>
    rw [nil_append, breakOut, if_neg (not_not_intro rfl), store_of_le hlt, overwrite_append,
      append_nil, append_assoc]
    rfl
  | cons c name ih =>
    obtain ⟨hc, hname⟩ := not_or.mp (mt mem_cons.mpr hname)
    rw [length_cons] at hlt
    have hlength : (pre ++ [c]).length = pre.length + 1 := by rw [length_append, length_singleton]
    have hroom : (pre ++ [c]).length + name.length < ircdBufsize := by
      rw [hlength]
      omega
    have hih := ih hname hroom (tail.drop 1)
    rw [hlength] at hih
    rw [cons_append, breakOut, if_pos (Ne.symm hc), store_of_le (by rw [length_singleton]; omega),
      overwrite_append]
    refine hih.trans ?_
    rw [drop_drop, length_cons, append_assoc pre [c] name, Nat.add_assoc,
      Nat.add_comm 1 name.length, Nat.add_comm 1]
    rfl

/-- A name for which there is no room goes on behind its buffer. -/
theorem breakOut_of_le (hname : '}' ∉ name) (rest : Str) {vptr : ℕ}
    (hle : ircdBufsize ≤ vptr + name.length) (varname : Str) :
    breakOut (name ++ '}' :: rest) vptr varname = .error .varname := by
  induction name generalizing vptr varname with
  | nil =>
    rw [nil_append, breakOut, if_neg (not_not_intro rfl), store_of_lt (Nat.lt_succ_of_le hle)]
    rfl
  | cons c name ih =>
    obtain ⟨hc, hname⟩ := not_or.mp (mt mem_cons.mpr hname)
    rw [length_cons] at hle
    rw [cons_append, breakOut, if_pos (Ne.symm hc)]
    by_cases hlt : vptr < ircdBufsize
    · rw [store_of_le hlt]
      exact ih hname (by omega) _
    · rw [store_of_lt (by rw [length_singleton]; omega)]
      rfl

/-- A name that is not closed goes on to the end of the text. -/
theorem fst_breakOut_unclosed (hname : '}' ∉ name) {vptr len : ℕ} {varname varname' : Str}
    (h : breakOut name vptr varname = .ok (len, varname')) : len = vptr + name.length := by
  induction name generalizing vptr varname with
  | nil =>
    cases Except.ok.inj h
    rfl
  | cons c name ih =>
    obtain ⟨hc, hname⟩ := not_or.mp (mt mem_cons.mpr hname)
    rw [breakOut, if_pos (Ne.symm hc)] at h
    cases hstore : store .varname varname vptr [c] with
    | error outside =>
      rw [hstore] at h
      cases h
    | ok stored =>
      rw [hstore] at h
      have hlen := ih hname h
      rw [length_cons]
      omega

/-! ### Turns -/

theorem fetch_append (pre rest : Str) :
    fetch (pre ++ rest) pre.length = .ok (rest.headD '\x00') := by
  have hle : pre.length ≤ (pre ++ rest).length := by
    rw [length_append]
    omega
  rw [fetch, if_pos hle]
  cases rest <;> simp

theorem loop_of_turn (hfetch : fetch fmt ptr = .ok c) (hc : c ≠ '\x00') (hlt : b.bptr < ircdBufsize)
    {moved : ℕ} (hturn : turn fmt varlist ptr c b = .ok (moved, b')) :
    loop fmt varlist ptr b = loop fmt varlist (ptr + moved + 1) b' := by
  rw [loop]
  split
  · rename_i h
    cases h.symm.trans hfetch
  · rename_i c' h
    obtain rfl := Except.ok.inj (h.symm.trans hfetch)
    rw [if_pos ⟨hc, hlt⟩, hturn]

theorem loop_of_turn_error (hfetch : fetch fmt ptr = .ok c) (hc : c ≠ '\x00')
    (hlt : b.bptr < ircdBufsize) (hturn : turn fmt varlist ptr c b = .error outside) :
    loop fmt varlist ptr b = .error outside := by
  rw [loop]
  split
  · rename_i h
    cases h.symm.trans hfetch
  · rename_i c' h
    obtain rfl := Except.ok.inj (h.symm.trans hfetch)
    rw [if_pos ⟨hc, hlt⟩, hturn]

theorem loop_of_fetch_error (hfetch : fetch fmt ptr = .error outside) :
    loop fmt varlist ptr b = .error outside := by
  rw [loop]
  split
  · rename_i outside' h
    obtain rfl := Except.error.inj (h.symm.trans hfetch)
    rfl
  · rename_i h
    cases h.symm.trans hfetch

theorem loop_of_end (hfetch : fetch fmt ptr = .ok c) (hend : ¬(c ≠ '\x00' ∧ b.bptr < ircdBufsize)) :
    loop fmt varlist ptr b = .ok b := by
  rw [loop]
  split
  · rename_i h
    cases h.symm.trans hfetch
  · rename_i c' h
    obtain rfl := Except.ok.inj (h.symm.trans hfetch)
    rw [if_neg hend]

/-- The result of the loop from a state on. -/
def finished (fmt : Str) (varlist : List Variable) (ptr : ℕ) (b : Buffers) : Except Outside Str :=
  loop fmt varlist ptr b >>= finish

/-- When the buffer is full, the NUL is written behind it. -/
theorem finished_full (hfull : ircdBufsize ≤ b.bptr) : finished fmt varlist ptr b ≠ .ok t := by
  rw [finished]
  cases hfetch : fetch fmt ptr with
  | error outside =>
    rw [loop_of_fetch_error hfetch]
    exact nofun
  | ok c =>
    rw [loop_of_end hfetch fun h => Nat.not_lt.mpr hfull h.2]
    change finish b ≠ _
    rw [finish, store_of_lt (Nat.lt_succ_of_le hfull)]
    exact nofun

theorem turn_text (hc : c ≠ '$') (hlt : b.bptr < ircdBufsize) : turn fmt varlist ptr c b =
    .ok (0, { b with buf := overwrite b.buf b.bptr [c], bptr := b.bptr + 1 }) := by
  rw [turn, if_pos hc, store_of_le hlt]
  rfl

variable {piece : Piece}

theorem turn_dollar (hnext : fetch fmt (ptr + 1) = .ok c) (hc : c ≠ '{') :
    turn fmt varlist ptr '$' b = .ok (0, b) := by
  rw [turn, if_neg (not_not_intro rfl), hnext]
  exact if_neg hc

theorem turn_markup (hnext : fetch fmt (ptr + 1) = .ok '{') :
    turn fmt varlist ptr '$' b = markup fmt varlist ptr b := by
  rw [turn, if_neg (not_not_intro rfl), hnext]
  change (if '{' = '{' then markup fmt varlist ptr b else .ok (0, b)) = _
  exact if_pos rfl

/-- The search for a variable whose name has been broken out. -/
def expand (varlist : List Variable) (len : ℕ) (varname : Str) (b : Buffers) :
    Except Outside (ℕ × Buffers) :=
  match varlist.find? fun val => strcasecmp (cstr varname) val.name with
  | some val => do
    let buf ← store .buf b.buf b.bptr (val.value.take (ircdBufsize - b.bptr - 1) ++ ['\x00'])
    .ok (len + 2, ⟨buf, b.bptr + val.value.length, varname⟩)
  | none => .ok (len + 2, { b with varname := varname })

theorem markup_eq (fmt : Str) (varlist : List Variable) (ptr : ℕ) (b : Buffers) :
    markup fmt varlist ptr b =
    breakOut (fmt.drop (ptr + 2)) 0 (overwrite b.varname 0 ['\x00']) >>= fun r =>
    expand varlist r.1 r.2 b := by
  rw [markup, store_of_le (by rw [length_singleton, ircdBufsize]; omega)]
  rfl

theorem store_value (hlt : b.bptr < ircdBufsize) (value : Str) :
    store .buf b.buf b.bptr (value.take (ircdBufsize - b.bptr - 1) ++ ['\x00']) =
      .ok (overwrite b.buf b.bptr (value.take (ircdBufsize - b.bptr - 1) ++ ['\x00'])) := by
  refine store_of_le ?_
  have htake := length_take_le (ircdBufsize - b.bptr - 1) value
  rw [length_append, length_singleton]
  omega

theorem expand_of_none {varname : Str} (hname : cstr varname = name)
    (hvalue : valueOf varlist name = none) (len : ℕ) :
    expand varlist len varname b = .ok (len + 2, { b with varname := varname }) := by
  rw [expand, hname, map_eq_none_iff.mp hvalue]

theorem expand_of_some {varname value : Str} (hname : cstr varname = name)
    (hvalue : valueOf varlist name = some value) (hlt : b.bptr < ircdBufsize) (len : ℕ) :
      expand varlist len varname b =
      .ok (len + 2, ⟨overwrite b.buf b.bptr (value.take (ircdBufsize - b.bptr - 1) ++ ['\x00']),
        b.bptr + value.length, varname⟩) := by
  obtain ⟨val, hfind, rfl⟩ := map_eq_some_iff.mp hvalue
  rw [expand, hname, hfind]
  dsimp only
  rw [store_value hlt]
  rfl

/-- Whatever is found, `ptr` is moved behind the name. -/
theorem exists_expand (hlt : b.bptr < ircdBufsize) (varlist : List Variable) (len : ℕ)
    (varname : Str) :
    ∃ b', expand varlist len varname b = .ok (len + 2, b') := by
  cases hvalue : valueOf varlist (cstr varname) with
  | none => exact ⟨_, expand_of_none rfl hvalue len⟩
  | some value => exact ⟨_, expand_of_some rfl hvalue hlt len⟩

/-! ### The run -/

/-- A piece that the reader gets over: markup that is closed, and whose name there is room for. -/
def Piece.IsClosed : Piece → Prop
  | .text _ | .dollar => True
  | .markup name => name.length < ircdBufsize
  | .unclosed _ => False

theorem nul_not_mem_value (hvalue : valueOf varlist name = some t) : '\x00' ∉ t := by
  obtain ⟨val, -, rfl⟩ := map_eq_some_iff.mp hvalue
  exact val.nul

theorem finish_eq_ok_iff (hbuf : b.buf = out ++ tail) (hbptr : b.bptr = out.length)
    (hout : '\x00' ∉ out) :
    finish b = .ok t ↔ out.length < ircdBufsize ∧ t = out := by
  rw [finish, hbptr, hbuf]
  by_cases hlt : out.length < ircdBufsize
  · rw [store_of_le hlt, overwrite_append, append_assoc]
    change Except.ok (cstr (out ++ '\x00' :: _)) = _ ↔ _
    rw [cstr_append hout, Except.ok.injEq, eq_comm]
    exact (and_iff_right hlt).symm
  · rw [store_of_lt (Nat.lt_succ_of_le (Nat.le_of_not_lt hlt))]
    exact ⟨nofun, fun h => absurd h.1 hlt⟩

theorem kept_cons (varlist : List Variable) (piece : Piece) (pieces : List Piece) :
    kept varlist (piece :: pieces) =
      (if piece.isKept varlist then piece.meant varlist else []) ++ kept varlist pieces := by
  rw [kept, filter_cons]
  split_ifs
  · rw [flatMap_cons]
    rfl
  · rfl

/-- A turn that copies what is kept of a piece. -/
theorem finished_step {shown : Str} {moved : ℕ} (hloop : finished fmt varlist ptr b =
      finished fmt varlist (ptr + moved + 1) b')
    (hkept : (if piece.isKept varlist then piece.meant varlist else []) = shown)
    (hclosed : piece.IsClosed) (hih : finished fmt varlist (ptr + moved + 1) b' = .ok t ↔
      (∀ piece ∈ pieces, piece.IsClosed) ∧
      (out ++ shown ++ kept varlist pieces).length < ircdBufsize ∧ t = out ++ shown ++
      kept varlist pieces) :
    finished fmt varlist ptr b = .ok t ↔ (∀ piece' ∈ piece :: pieces, piece'.IsClosed) ∧
      (out ++ kept varlist (piece :: pieces)).length < ircdBufsize ∧
      t = out ++ kept varlist (piece :: pieces) := by
  rw [hloop, hih, kept_cons, hkept, append_assoc, forall_mem_cons, and_iff_right hclosed]

theorem finished_iff_of_full (hbptr : b.bptr = out.length) (hfull : ircdBufsize ≤ b.bptr) (P : Prop)
    (more : Str) :
    finished fmt varlist ptr b = .ok t ↔ P ∧ (out ++ more).length < ircdBufsize ∧
    t = out ++ more := by
  refine ⟨fun hok => absurd hok (finished_full hfull), fun ⟨_, hlength, _⟩ => ?_⟩
  rw [length_append] at hlength
  omega

/-- At markup, a name is broken out and looked for. -/
theorem turn_brace (hfmt : fmt = pre ++ '$' :: '{' :: rest) (varlist : List Variable)
    (b : Buffers) :
    fetch fmt pre.length = .ok '$' ∧
    turn fmt varlist pre.length '$' b =
      breakOut rest 0 (overwrite b.varname 0 ['\x00']) >>= fun r => expand varlist r.1 r.2 b := by
  have hpre : (pre ++ ['$']).length = pre.length + 1 := by rw [length_append, length_singleton]
  have hnext : fetch fmt (pre.length + 1) = .ok '{' := by
    rw [hfmt, append_cons, ← hpre]
    exact fetch_append _ _
  have hdrop : fmt.drop (pre.length + 2) = rest := by
    rw [hfmt, ← drop_drop, drop_left]
    rfl
  refine ⟨hfmt ▸ fetch_append pre ('$' :: '{' :: rest), ?_⟩
  rw [turn_markup hnext, markup_eq, hdrop]

/-- **From a place in the text on**, what is returned is what was copied with what is kept of the
rest, when the rest is closed and there is room. -/
theorem finished_eq_ok_iff (h : Reads rest pieces) (hfmt : fmt = pre ++ rest)
    (hrest : '\x00' ∉ rest) (hbuf : b.buf = out ++ tail) (hbptr : b.bptr = out.length)
    (hout : '\x00' ∉ out) :
    finished fmt varlist pre.length b = .ok t ↔
      (∀ piece ∈ pieces, piece.IsClosed) ∧ (out ++ kept varlist pieces).length < ircdBufsize ∧
        t = out ++ kept varlist pieces := by
  induction h generalizing pre b out tail with
  | done =>
    have hfetch : fetch fmt pre.length = .ok '\x00' := hfmt ▸ fetch_append pre []
    have hkept : kept varlist [] = [] := rfl
    rw [finished, loop_of_end hfetch fun h => h.1 rfl, hkept, append_nil]
    change finish b = _ ↔ _
    rw [finish_eq_ok_iff hbuf hbptr hout]
    exact (and_iff_right fun piece hpiece => absurd hpiece not_mem_nil).symm
  | @text c rest pieces hc _ ih =>
    by_cases hfull : ircdBufsize ≤ b.bptr
    · exact finished_iff_of_full hbptr hfull _ _
    have hlt := Nat.lt_of_not_le hfull
    obtain ⟨hnul, hrest⟩ := not_or.mp (mt mem_cons.mpr hrest)
    have hfetch : fetch fmt pre.length = .ok c := hfmt ▸ fetch_append pre (c :: rest)
    have hpre : (pre ++ [c]).length = pre.length + 0 + 1 := by rw [length_append, length_singleton]
    have hstored : overwrite b.buf b.bptr [c] = out ++ [c] ++ tail.drop 1 := by
      rw [hbuf, hbptr, overwrite_append]; rfl
    have hbptr' : b.bptr + 1 = (out ++ [c]).length := by rw [hbptr, length_append, length_singleton]
    have hout' : '\x00' ∉ out ++ [c] := by
      rw [mem_append, mem_singleton, not_or]
      exact ⟨hout, hnul⟩
    refine finished_step (congrArg (· >>= finish) (loop_of_turn hfetch (Ne.symm hnul) hlt
      (turn_text hc hlt))) rfl trivial ?_
    rw [← hpre]
    exact ih (hfmt.trans (append_cons pre c rest)) hrest hstored hbptr' hout'
  | @dollar rest pieces hbrace _ ih =>
    by_cases hfull : ircdBufsize ≤ b.bptr
    · exact finished_iff_of_full hbptr hfull _ _
    have hlt := Nat.lt_of_not_le hfull
    have hrest := (not_or.mp (mt mem_cons.mpr hrest)).2
    have hfetch : fetch fmt pre.length = .ok '$' := hfmt ▸ fetch_append pre ('$' :: rest)
    have hpre : (pre ++ ['$']).length = pre.length + 0 + 1 := by
      rw [length_append, length_singleton]
    have hfmt := hfmt.trans (append_cons pre '$' rest)
    have hnext : fetch fmt (pre.length + 1) = .ok (rest.headD '\x00') := by
      rw [hfmt]
      exact hpre ▸ fetch_append (pre ++ ['$']) rest
    have hbrace : rest.headD '\x00' ≠ '{' := by
      cases rest with
      | nil => decide
      | cons d rest => exact fun h => hbrace (congrArg some h)
    have hshown : (if Piece.dollar.isKept varlist then Piece.dollar.meant varlist else []) = [] :=
      rfl
    refine finished_step (congrArg (· >>= finish) (loop_of_turn hfetch (by decide) hlt
      (turn_dollar hnext hbrace))) hshown trivial ?_
    rw [← hpre, append_nil]
    exact ih hfmt hrest hbuf hbptr hout
  | @markup name rest pieces hname _ ih =>
    by_cases hfull : ircdBufsize ≤ b.bptr
    · exact finished_iff_of_full hbptr hfull _ _
    have hlt := Nat.lt_of_not_le hfull
    obtain ⟨hfetch, hturn⟩ := turn_brace hfmt varlist b
    simp only [mem_cons, mem_append, not_or] at hrest
    obtain ⟨-, -, hnul, -, hrest⟩ := hrest
    by_cases hroom : name.length < ircdBufsize
    · -- the name is broken out as it is
      have hbroken : breakOut (name ++ '}' :: rest) 0 (overwrite b.varname 0 ['\x00']) =
          .ok (name.length, name ++ '\x00' :: (overwrite b.varname 0 ['\x00']).drop (name.length +
              1)) := by
        have hlength : ([] : Str).length + name.length < ircdBufsize := by
          rwa [length_nil, Nat.zero_add]
        have h := breakOut_of_lt hname rest hlength (overwrite b.varname 0 ['\x00'])
        rw [nil_append, nil_append, length_nil, Nat.zero_add] at h
        exact h
      rw [hbroken] at hturn
      have hcstr := cstr_append hnul ((overwrite b.varname 0 ['\x00']).drop (name.length + 1))
      have hpre : (pre ++ ('$' :: '{' :: (name ++ ['}']))).length = pre.length + (name.length + 2) +
          1 := by
        simp only [length_append, length_cons, length_nil]
        omega
      have hfmt : fmt = pre ++ ('$' :: '{' :: (name ++ ['}'])) ++ rest := by
        rw [hfmt]
        simp
      cases hvalue : valueOf varlist name with
      | none =>
        have hturn := hturn.trans (expand_of_none hcstr hvalue name.length)
        have hshown : (if (Piece.markup name).isKept varlist then
            (Piece.markup name).meant varlist else []) = [] := by
          rw [Piece.isKept, hvalue]
          rfl
        refine finished_step (congrArg (· >>= finish) (loop_of_turn hfetch (by decide) hlt hturn))
          hshown hroom ?_
        rw [← hpre, append_nil]
        exact ih hfmt hrest hbuf hbptr hout
      | some value =>
        have hturn := hturn.trans (expand_of_some hcstr hvalue hlt name.length)
        have hshown : (if (Piece.markup name).isKept varlist then
            (Piece.markup name).meant varlist else []) = value := by
          rw [Piece.isKept, Piece.meant, hvalue]
          rfl
        have hbptr' : b.bptr + value.length = (out ++ value).length := by rw [hbptr, length_append]
        refine finished_step (congrArg (· >>= finish) (loop_of_turn hfetch (by decide) hlt hturn))
          hshown hroom ?_
        by_cases hsize : ircdBufsize ≤ b.bptr + value.length
        · exact finished_iff_of_full hbptr' hsize _ _
        · have htake : value.take (ircdBufsize - b.bptr - 1) = value := take_of_length_le (by omega)
          have hstored : overwrite b.buf b.bptr (value.take (ircdBufsize - b.bptr - 1) ++
              ['\x00']) = out ++ value ++ '\x00' :: tail.drop (value ++ ['\x00']).length := by
            rw [htake, hbuf, hbptr, overwrite_append]
            simp
          have hnul' : '\x00' ∉ out ++ value := by
            rw [mem_append, not_or]
            exact ⟨hout, nul_not_mem_value hvalue⟩
          rw [← hpre]
          exact ih hfmt hrest hstored hbptr' hnul'
    · have herror := hturn.trans (by rw [breakOut_of_le hname rest (by omega)])
      rw [finished, loop_of_turn_error hfetch (by decide) hlt herror]
      exact ⟨nofun, fun h => absurd (h.1 _ mem_cons_self) hroom⟩
  | @unclosed name hname =>
    by_cases hfull : ircdBufsize ≤ b.bptr
    · exact finished_iff_of_full hbptr hfull _ _
    have hlt := Nat.lt_of_not_le hfull
    obtain ⟨hfetch, hturn⟩ := turn_brace hfmt varlist b
    refine ⟨fun hok => ?_, fun h => absurd (h.1 _ mem_cons_self) id⟩
    cases hbroken : breakOut name 0 (overwrite b.varname 0 ['\x00']) with
    | error outside =>
      rw [hbroken] at hturn
      rw [finished, loop_of_turn_error hfetch (by decide) hlt hturn] at hok
      cases hok
    | ok r =>
      obtain ⟨len, varname⟩ := r
      have hlen := fst_breakOut_unclosed hname hbroken
      obtain ⟨b', hexpand⟩ := exists_expand hlt varlist len varname
      rw [hbroken] at hturn
      have houtside : fetch fmt (pre.length + (len + 2) + 1) = .error .fmt := by
        rw [fetch, if_neg]
        rw [hfmt, length_append, length_cons, length_cons]
        omega
      rw [finished, loop_of_turn hfetch (by decide) hlt (hturn.trans hexpand),
        loop_of_fetch_error houtside] at hok
      cases hok

/-- **What is returned** is what is kept, when all markup is closed and there is room. -/
theorem substitutionParse_eq_ok_iff {fmt : Template} (h : Reads fmt.1 pieces)
    (varlist : List Variable) (buf varname : Str) :
    substitutionParse fmt varlist buf varname = .ok t ↔
      (∀ piece ∈ pieces, piece.IsClosed) ∧ (kept varlist pieces).length < ircdBufsize ∧
      t = kept varlist pieces := by
  have hbuf : buf = [] ++ buf := rfl
  exact finished_eq_ok_iff h (nil_append fmt.1).symm fmt.2 hbuf rfl not_mem_nil

end Run

/-! ### When the text is returned -/

section Fits

variable {varlist : List Variable} {pieces : List Piece}

theorem kept_eq_of_forall (h : ∀ piece ∈ pieces, piece.isKept varlist = true) :
    kept varlist pieces = pieces.flatMap (Piece.meant varlist) := by
  rw [kept, filter_eq_self.mpr h]

theorem length_kept_le (varlist : List Variable) (pieces : List Piece) :
    (kept varlist pieces).length ≤ (pieces.flatMap (Piece.meant varlist)).length := by
  induction pieces with
  | nil => exact le_rfl
  | cons piece pieces ih =>
    rw [kept_cons, flatMap_cons, length_append, length_append]
    refine Nat.add_le_add ?_ ih
    split_ifs
    · exact le_rfl
    · exact Nat.zero_le _

/-- What is left out is missing. -/
theorem length_kept_lt (hpiece : piece ∈ pieces) (h : piece.isKept varlist = false) :
    (kept varlist pieces).length < (pieces.flatMap (Piece.meant varlist)).length := by
  obtain ⟨pre, suf, rfl⟩ := append_of_mem hpiece
  have hpre := length_kept_le varlist pre
  have hsuf := length_kept_le varlist suf
  have hmeant := length_pos_of_ne_nil (Piece.meant_ne_nil h)
  have hkept : kept varlist (pre ++ piece :: suf) = kept varlist pre ++ kept varlist suf := by
    rw [kept, filter_append, filter_cons, h, if_neg Bool.false_ne_true, flatMap_append]
    rfl
  rw [hkept, flatMap_append, flatMap_cons]
  simp only [length_append]
  omega

/-- **A text whose copy is right**: all its markup is closed, with names that there is room for,
what is kept fits, and nothing is left out, or only what would be cut off. -/
structure Fits (varlist : List Variable) (pieces : List Piece) : Prop where
  closed : ∀ piece ∈ pieces, piece.IsClosed
  room : (kept varlist pieces).length < ircdBufsize
  all_kept : (∀ piece ∈ pieces, piece.isKept varlist = true) ∨
    (kept varlist pieces).length + 1 = ircdBufsize ∧ kept varlist pieces <+: pieces.flatMap
      (Piece.meant varlist)

/-- What is kept is the text with the values, cut to the size of the buffer. -/
theorem kept_eq_take_iff (hroom : (kept varlist pieces).length < ircdBufsize) :
    (pieces.flatMap (Piece.meant varlist)).take (ircdBufsize - 1) = kept varlist pieces ↔
      (∀ piece ∈ pieces, piece.isKept varlist = true) ∨
        (kept varlist pieces).length + 1 = ircdBufsize ∧ kept varlist pieces <+: pieces.flatMap
        (Piece.meant varlist) := by
  constructor
  · intro htake
    by_cases hlong : (pieces.flatMap (Piece.meant varlist)).length ≤ ircdBufsize - 1
    · rw [take_of_length_le hlong] at htake
      refine .inl fun piece hpiece => ?_
      by_contra hleft
      have hlt := length_kept_lt hpiece (Bool.eq_false_of_not_eq_true hleft)
      rw [htake] at hlt
      exact absurd hlt (lt_irrefl _)
    · have hlength := congrArg length htake
      rw [length_take] at hlength
      exact .inr ⟨by omega, htake ▸ take_prefix _ _⟩
  · rintro (hall | ⟨hlength, hprefix⟩)
    · rw [← kept_eq_of_forall hall, take_of_length_le (by omega)]
    · have hcut : ircdBufsize - 1 = (kept varlist pieces).length := by omega
      rw [hcut]
      exact (prefix_iff_eq_take.mp hprefix).symm

/-- **The text with the values is returned**, and nothing outside is read or written, when the text
fits, and not otherwise. -/
theorem substitutionParse_iff (fmt : Template) (varlist : List Variable) (buf varname : Str) :
    substitutionParse fmt varlist buf varname =
      .ok ((substitute varlist fmt.1).take (ircdBufsize - 1)) ↔ ∃ pieces, Reads fmt.1 pieces ∧
      Fits varlist pieces := by
  constructor
  · intro hok
    obtain ⟨pieces, hpieces⟩ := exists_reads fmt.1
    obtain ⟨hclosed, hroom, htake⟩ := (substitutionParse_eq_ok_iff hpieces varlist buf varname).mp
      hok
    rw [hpieces.substitute_eq] at htake
    exact ⟨pieces, hpieces, hclosed, hroom, (kept_eq_take_iff hroom).mp htake⟩
  · rintro ⟨pieces, hpieces, hfits⟩
    rw [substitutionParse_eq_ok_iff hpieces, hpieces.substitute_eq]
    exact ⟨hfits.closed, hfits.room, (kept_eq_take_iff hfits.room).mpr hfits.all_kept⟩

end Fits

/-! ### Markup that is not closed -/

/-- A reason with a brace missing. -/
def unclosedAnswer : Template := ⟨"$\x7bip".toList, by decide⟩

/-- Whoever is refused with it, the reader passes its NUL. -/
theorem rblSetBanned_unclosed (source_p : RblClient) (rblname networkName : Template)
    (buf varname : Str) :
    rblSetBanned source_p rblname networkName unclosedAnswer buf varname = .error .fmt := by
  have hfmt : unclosedAnswer.1 = [] ++ '$' :: '{' :: "ip".toList := rfl
  have hlt : (⟨buf, 0, varname⟩ : Buffers).bptr < ircdBufsize := Nat.zero_lt_succ 511
  have hbroken : breakOut "ip".toList 0 (overwrite varname 0 ['\x00']) =
      .ok (2, overwrite (overwrite (overwrite varname 0 ['\x00']) 0 ['i']) 1 ['p']) := rfl
  obtain ⟨hfetch, hturn⟩ := turn_brace hfmt (rblVariables source_p rblname networkName)
    ⟨buf, 0, varname⟩
  obtain ⟨b', hexpand⟩ := exists_expand hlt (rblVariables source_p rblname networkName) 2
    (overwrite (overwrite (overwrite varname 0 ['\x00']) 0 ['i']) 1 ['p'])
  have hloop := loop_of_turn hfetch (by decide) hlt
    (hturn.trans ((congrArg (· >>= _) hbroken).trans hexpand))
  have houtside : fetch unclosedAnswer.1 5 = .error .fmt := rfl
  exact congrArg (· >>= finish) (hloop.trans (loop_of_fetch_error houtside))

theorem not_all_substituted : ¬∀ (fmt : Template) (varlist : List Variable) (buf varname : Str),
    substitutionParse fmt varlist buf varname =
    .ok ((substitute varlist fmt.1).take (ircdBufsize - 1)) := by
  intro h
  have herror := rblSetBanned_unclosed ⟨⟨[], by decide⟩, ⟨"10.0.0.1".toList, by decide⟩,
    ⟨[], by decide⟩⟩ ⟨['r'], by decide⟩ ⟨['n'], by decide⟩ [] []
  cases herror.symm.trans (h unclosedAnswer _ [] [])

end Ratbox.Substitution
