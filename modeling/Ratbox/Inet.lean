import Ratbox.Banlist.Banned

/-!
# Addresses that are shown

The text that is shown for an address is read as the address again. It begins with no colon, as it
may be a parameter of a message: where the longest run of zeroes is the first one, a zero stands in
front of it.

Source: `libratbox/src/commio.c`, lines 1188–1390.

## Main definitions

* `Address.bestRun`, `Address.print6`: the two loops of `inet_ntop6`.
* `Address.inetNtop`: `rb_inet_ntop`.

## Main results

* `Address.inetPtonSock_inetNtop`: what is read is what was shown.
-/

namespace Ratbox.Address

open Text List Option Nat
open Banlist (inetNtop4)

/-- `words` of `inet_ntop6`. -/
def words : List UInt8 → List ℕ
  | a :: b :: src => (a.toNat * 256 + b.toNat) :: words src
  | _ => []

/-- A run of words that are zero: `best` and `cur`, while their base is not -1. -/
structure ZeroRun where
  base : ℕ
  len : ℕ
  deriving DecidableEq

/-- `best`, when `cur` has ended. -/
def longer (best cur : Option ZeroRun) : Option ZeroRun :=
  match cur with
  | none => best
  | some c => if best.all fun b => b.len < c.len then some c else best

/-- The loop of `inet_ntop6` that looks for the longest run of zeroes, from a word on. -/
def bestRun : ℕ → List ℕ → Option ZeroRun → Option ZeroRun → Option ZeroRun
  | _, [], best, cur => longer best cur
  | i, w :: ws, best, cur =>
    if w = 0 then bestRun (i + 1) ws best (some (cur.elim ⟨i, 1⟩ fun c => ⟨c.base, c.len + 1⟩))
    else bestRun (i + 1) ws (longer best cur) none

/-- The address is an encapsulated IPv4 address. -/
def encapsulated (ws : List ℕ) (best : Option ZeroRun) : Bool :=
  best.any fun r => r.base = 0 ∧ (r.len = 6 ∨ r.len = 5 ∧ ws.getD 5 0 = 0xffff)

/-- The loop of `inet_ntop6` that prints the words, from a word on, with the end of the function. -/
def print6 (src : List UInt8) (best : Option ZeroRun) : ℕ → List ℕ → Str
  | _, [] => if best.any fun r => r.base + r.len = 8 then [':'] else []
  | i, w :: ws =>
    if best.any fun r => r.base ≤ i ∧ i < r.base + r.len then
      (if best.any fun r => i = r.base then if i = 0 then ['0', ':'] else [':'] else []) ++
        print6 src best (i + 1) ws
    else
      (if i = 0 then [] else [':']) ++
        -- The loop is left here, and the run of zeroes is no trailing one.
        if i = 6 ∧ encapsulated (words src) best then inetNtop4 (src.drop 12)
        else toDigits 16 w ++ print6 src best (i + 1) ws

/-- `inet_ntop4`, with the size of the buffer. -/
def ntop4 (src : List UInt8) (size : ℕ) : Option Str :=
  if size < 16 then none else some (inetNtop4 src)

/-- `inet_ntop6`. -/
def ntop6 (src : List UInt8) (size : ℕ) : Option Str :=
  let text := print6 src ((bestRun 0 (words src) none none).filter (2 ≤ ·.len)) 0 (words src)
  if size < text.length + 1 then none else some text

/-- `IN6_IS_ADDR_V4MAPPED`. -/
def v4Mapped (src : List UInt8) : Bool := (words src).take 6 = [0, 0, 0, 0, 0, 0xffff]

/-- `IN6_IS_ADDR_V4COMPAT`. -/
def v4Compat (src : List UInt8) : Bool :=
  (words src).take 6 = [0, 0, 0, 0, 0, 0] ∧ 1 < (words src).getD 6 0 * 65536 + (words src).getD 7 0

/-- `rb_inet_ntop`, and `rb_inet_ntop_sock`. -/
def inetNtop : Family → List UInt8 → ℕ → Option Str
  | .inet, src, size => ntop4 src size
  | .inet6, src, size => if v4Mapped src || v4Compat src then ntop4 (src.drop 12) size
    else ntop6 src size

/-! ### Numbers that are read -/

variable {rest cur : Str} {tmp src : List UInt8} {colonp : Option ℕ} {v w n i : ℕ} {ws : List ℕ}
  {r : ZeroRun}

theorem xdigit_digitChar : ∀ d < 16, xdigit d.digitChar = some d := by decide

/-- A word that is printed is read. -/
theorem pton6Loop_toDigits (hw : w ≤ 0xffff) (rest : Str) (saw : Bool) :
    pton6Loop (toDigits 16 w ++ rest) tmp colonp cur saw 0 = pton6Loop rest tmp colonp cur true
    w := by
  induction w using Nat.strongRecOn generalizing rest saw with
  | ind w ih =>
    by_cases hlt : w < 16
    · rw [toDigits_of_lt_base hlt, singleton_append, pton6Loop, xdigit_digitChar w hlt]
      simp [not_lt.mpr hw]
    · have hmod : w % 16 < 16 := mod_lt w (by decide)
      have hsum : w / 16 * 16 + w % 16 = w := div_add_mod' w 16
      rw [toDigits_of_base_le (by decide) (not_lt.mp hlt), append_assoc,
        ih (w / 16) (by omega) (by omega), singleton_append, pton6Loop, xdigit_digitChar _ hmod]
      simp [hsum, not_lt.mpr hw]

/-- An octet that is printed is read. -/
theorem pton4Loop_toDigits {octets : ℕ} {done : List ℕ} (hn : n ≤ 255) (hoctets : octets < 4)
    (rest : Str) :
    pton4Loop (toDigits 10 n ++ rest) false octets done 0 = pton4Loop rest true (octets + 1) done
    n := by
  have hdigit : ∀ d < 10, isDigit d.digitChar = true ∧ d.digitChar.toNat - '0'.toNat = d := by
    decide
  induction n using Nat.strongRecOn generalizing rest with
  | ind n ih =>
    by_cases hlt : n < 10
    · rw [toDigits_of_lt_base hlt, singleton_append, pton4Loop, if_pos (hdigit n hlt).1,
        (hdigit n hlt).2]
      simp [not_lt.mpr hn, not_lt.mpr (succ_le_of_lt hoctets)]
    · have hmod : n % 10 < 10 := mod_lt n (by decide)
      have hsum : n / 10 * 10 + n % 10 = n := div_add_mod' n 10
      rw [toDigits_of_base_le (by decide) (not_lt.mp hlt), append_assoc,
        ih (n / 10) (by omega) (by omega), singleton_append, pton4Loop, if_pos (hdigit _ hmod).1,
          (hdigit _ hmod).2]
      simp [hsum, not_lt.mpr hn]

/-- An IPv4 address that is shown is read. -/
theorem pton4_inetNtop4 {src : List UInt8} (hsrc : src.length = 4) :
    pton4 (inetNtop4 src) = some src := by
  obtain ⟨a, b, c, d, rfl⟩ := length_eq_four.mp hsrc
  have hle : ∀ x : UInt8, x.toNat ≤ 255 := fun x => le_of_lt_succ x.toNat_lt
  have hdot : isDigit '.' = false := by decide
  have hlast : pton4Loop (toDigits 10 d.toNat) false 3 [c.toNat, b.toNat, a.toNat] 0 =
      some [a, b, c, d] := by
    rw [← append_nil (toDigits 10 d.toNat), pton4Loop_toDigits (hle d) (by decide)]
    simp [pton4Loop]
  simp [inetNtop4, intercalate, pton4, decimal, pton4Loop_toDigits, hle, pton4Loop, hdot, hlast]

/-! ### The words that are read -/

/-- Words with a colon in front of each. -/
def tail (ws : List ℕ) : Str := ws.flatMap fun w => ':' :: toDigits 16 w

/-- What is printed behind a run of zeroes and its first colon. -/
def behind (ws : List ℕ) : Str := if ws = [] then [':'] else tail ws

/-- The bytes of words. -/
def bytesOf (ws : List ℕ) : List UInt8 := ws.flatMap group

@[simp] theorem length_bytesOf (ws : List ℕ) : (bytesOf ws).length = 2 * ws.length := by
  simp [bytesOf, length_flatMap, group, mul_comm]

theorem bytesOf_append (ws ws' : List ℕ) : bytesOf (ws ++ ws') = bytesOf ws ++ bytesOf ws' :=
  flatMap_append

theorem bytesOf_replicate (n : ℕ) : bytesOf (replicate n 0) = replicate (2 * n) 0 := by
  induction n with
  | zero => rfl
  | succ n ih =>
    have hgroup : bytesOf (replicate (n + 1) 0) = [0, 0] ++ bytesOf (replicate n 0) := rfl
    rw [hgroup, ih]
    rfl

/-- **Words that are printed are read**, while there is room for them. -/
theorem pton6Loop_tail (hws : ∀ w ∈ ws, w ≤ 0xffff) (hroom : tmp.length + 2 * ws.length ≤ 16)
    (rest : Str) :
    ∃ tmp' cur' v', pton6Loop (tail ws ++ rest) tmp colonp cur true v = pton6Loop rest tmp' colonp
      cur' true v' ∧ tmp' ++ group v' = tmp ++ bytesOf (v :: ws) ∧ tmp'.length = tmp.length + 2 *
      ws.length := by
  induction ws generalizing tmp cur v with
  | nil => exact ⟨tmp, cur, v, rfl, by simp [bytesOf], rfl⟩
  | cons w ws ih =>
    rw [forall_mem_cons] at hws
    rw [length_cons] at hroom
    have hgroup : (tmp ++ group v).length = tmp.length + 2 := by simp [group]
    have hcolon : xdigit ':' = none := by decide
    obtain ⟨tmp', cur', v', heq, hbytes, hlen⟩ := @ih (toDigits 16 w ++ (tail ws ++ rest))
      (tmp ++ group v) w hws.2 (by omega)
    refine ⟨tmp', cur', v',
      ?_, by simpa [bytesOf] using hbytes, by rw [hlen, hgroup, length_cons]; omega⟩
    have htext : tail (w :: ws) ++ rest = ':' :: (toDigits 16 w ++ (tail ws ++ rest)) := by
      simp [tail]
    have hne : toDigits 16 w ++ (tail ws ++ rest) ≠ [] := by simp
    rw [htext, pton6Loop, hcolon]
    dsimp only
    rw [if_pos rfl, if_neg (by simp), if_neg hne, if_neg (by omega)]
    exact (pton6Loop_toDigits hws.1 _ false).trans heq

/-- The first words are read. -/
theorem pton6Loop_words (hw : w ≤ 0xffff) (hws : ∀ w ∈ ws, w ≤ 0xffff) (tmp : List UInt8)
    (colonp : Option ℕ) (cur rest : Str) (hroom : tmp.length + 2 * ws.length ≤ 16) : ∃ tmp' cur' v',
      pton6Loop (toDigits 16 w ++ tail ws ++ rest) tmp colonp cur false 0 =
      pton6Loop rest tmp' colonp cur' true v' ∧ tmp' ++ group v' = tmp ++ bytesOf (w :: ws) ∧
      tmp'.length = tmp.length + 2 * ws.length := by
  rw [append_assoc, pton6Loop_toDigits hw]
  exact pton6Loop_tail hws hroom rest

theorem ne_colon_of_mem_toDigits {c : Char} (hc : c ∈ toDigits 16 w) : c ≠ ':' := by
  have hdigit : ∀ d < 16, d.digitChar ≠ ':' := by decide
  induction w using Nat.strongRecOn with
  | ind w ih =>
    by_cases hlt : w < 16
    · rw [toDigits_of_lt_base hlt, mem_singleton] at hc
      exact hc ▸ hdigit w hlt
    · rw [toDigits_of_base_le (by decide) (not_lt.mp hlt), mem_append, mem_singleton] at hc
      rcases hc with hc | rfl
      · exact ih (w / 16) (by omega) hc
      · exact hdigit _ (mod_lt w (by decide))

/-- A leading digit is no colon. -/
theorem pton6Start_toDigits (w : ℕ) (rest : Str) : pton6Start (toDigits 16 w ++ rest) = some
    (toDigits 16 w ++ rest) ∧ (toDigits 16 w ++ rest).head? ≠ some ':' := by
  obtain ⟨c, ds, hds⟩ := exists_cons_of_ne_nil (toDigits_ne_nil (n := w) (b := 16))
  have hc : c ≠ ':' := ne_colon_of_mem_toDigits (w := w) (hds ▸ mem_cons_self)
  rw [hds, cons_append, head?_cons]
  refine ⟨?_, fun h => hc (some.inj h)⟩
  rw [pton6Start]
  · exact fun src h => hc (cons.inj h).1
  · exact fun src h => hc (cons.inj h).1

/-- **All words are printed.** -/
theorem pton6_all (hw : w ≤ 0xffff) (hws : ∀ w ∈ ws, w ≤ 0xffff) (hlen : ws.length = 7) :
    pton6 (toDigits 16 w ++ tail ws) = some (bytesOf (w :: ws)) := by
  obtain ⟨tmp, cur, v, heq, hbytes, htmp⟩ :=
    pton6Loop_words hw hws [] none (toDigits 16 w ++ tail ws) [] (by simp [hlen])
  rw [append_nil] at heq
  rw [pton6, (pton6Start_toDigits w (tail ws)).1, bind_eq_bind, bind_some, heq, pton6Loop]
  have hfull : (tmp ++ group v).length = 16 := by simp [hbytes, hlen]
  simp [pton6Last, htmp, hlen, pton6Fill, hbytes]

/-- The zeroes are filled in. -/
theorem pton6Fill_bytesOf {front back : List ℕ} (hn : n ≠ 0)
    (hlen : front.length + n + back.length = 8) :
    pton6Fill (bytesOf front ++ bytesOf back) (some (bytesOf front).length) =
      some (bytesOf (front ++ replicate n 0 ++ back)) := by
  have hroom : 16 - (2 * front.length + 2 * back.length) = 2 * n := by omega
  rw [pton6Fill, length_append, take_left, drop_left, length_bytesOf, length_bytesOf,
    if_neg (by omega), hroom, bytesOf_append, bytesOf_append, bytesOf_replicate]

/-- **Words are printed in front of a run of zeroes, and behind it.** -/
theorem pton6_run {front back : List ℕ} (hn : n ≠ 0)
    (hlen : (w :: front).length + n + back.length = 8)
    (hws : ∀ v ∈ w :: front ++ replicate n 0 ++ back, v ≤ 0xffff) :
    pton6 (toDigits 16 w ++ tail front ++ ':' :: behind back) =
      some (bytesOf (w :: front ++ replicate n 0 ++ back)) := by
  have hcolon : xdigit ':' = none := by decide
  have hne : behind back ≠ [] := by
    cases back with
    | nil => simp [behind]
    | cons x back => simp [behind, tail]
  rw [forall_mem_append, forall_mem_append, forall_mem_cons] at hws
  have hfill := pton6Fill_bytesOf hn hlen
  rw [length_cons] at hlen
  obtain ⟨tmp, cur, v, heq, hbytes, htmp⟩ := pton6Loop_words hws.1.1.1 hws.1.1.2 [] none
    (toDigits 16 w ++ tail front ++ ':' :: behind back) (':' :: behind back)
      (by rw [length_nil]; omega)
  have hstart := (pton6Start_toDigits w (tail front ++ ':' :: behind back)).1
  rw [← append_assoc] at hstart
  rw [nil_append] at hbytes
  rw [length_nil] at htmp
  rw [pton6, hstart, bind_eq_bind, bind_some, heq, pton6Loop, hcolon]
  dsimp only
  rw [if_pos rfl, if_neg (by simp), if_neg hne, if_neg (by omega), hbytes]
  cases back with
  | nil =>
    rw [behind, if_pos rfl, pton6Loop, hcolon]
    dsimp only
    rw [if_pos rfl, if_pos rfl, if_neg (by simp), pton6Loop, ← hfill, bytesOf, bytesOf, flatMap_nil,
      append_nil]
    rfl
  | cons x back =>
    rw [length_cons] at hlen
    rw [forall_mem_cons] at hws
    obtain ⟨tmp', cur', v', heq', hbytes', htmp'⟩ :=
      pton6Loop_words hws.2.1 hws.2.2 (bytesOf (w :: front)) (some (bytesOf (w :: front)).length)
        (toDigits 16 x ++ tail back) [] (by simp; omega)
    have htext : behind (x :: back) = ':' :: (toDigits 16 x ++ tail back) := rfl
    rw [length_bytesOf, length_cons] at htmp'
    rw [append_nil] at heq'
    rw [htext, pton6Loop, hcolon]
    dsimp only
    rw [if_pos rfl, if_pos rfl, if_neg (by simp), heq', pton6Loop, bind_eq_bind, bind_some]
    dsimp only
    rw [pton6Last, if_pos rfl, if_neg (by omega), hbytes', bind_eq_bind, bind_some, hfill]

/-! ### The text of an address -/

/-- The words of the run are zero, and the word behind it is not. -/
def IsRun (ws : List ℕ) (r : ZeroRun) : Prop :=
  ∃ front back, ws = front ++ replicate r.len 0 ++ back ∧ front.length = r.base ∧
    back.head? ≠ some 0

theorem longer_eq_some {best cur : Option ZeroRun} (h : longer best cur = some r) :
    best = some r ∨ cur = some r := by
  cases cur with
  | none => exact .inl h
  | some c =>
    rw [longer] at h
    split_ifs at h
    · exact .inr h
    · exact .inl h

/-- **The run that is found** is one of zeroes. -/
theorem isRun_bestRun (done : List ℕ) {best cur : Option ZeroRun}
    (hbest : ∀ r ∈ best, IsRun (done ++ ws) r)
    (hcur : ∀ c ∈ cur, ∃ front, done = front ++ replicate c.len 0 ∧ front.length = c.base)
    (h : bestRun done.length ws best cur = some r) : IsRun (done ++ ws) r := by
  induction ws generalizing done best cur with
  | nil =>
    rcases longer_eq_some h with h | h
    · exact hbest r h
    · obtain ⟨front, hdone, hlen⟩ := hcur r h
      exact ⟨front, [], by rw [hdone], hlen, by simp⟩
  | cons w ws ih =>
    have hsplit : done ++ w :: ws = (done ++ [w]) ++ ws := by simp
    have hlength : (done ++ [w]).length = done.length + 1 := by simp
    rw [bestRun, ← hlength] at h
    rw [hsplit] at hbest ⊢
    split_ifs at h with hw
    · refine ih _ hbest (fun c hc => ?_) h
      cases hc
      cases cur with
      | none => exact ⟨done, by simp [hw], rfl⟩
      | some c =>
        obtain ⟨front, hdone, hlen⟩ := hcur c rfl
        exact ⟨front, by simp [hdone, hw, List.replicate_succ', Option.elim], hlen⟩
    · refine ih _ (fun r hr => ?_) (fun c hc => absurd hc (by simp)) h
      rcases longer_eq_some hr with hr | hr
      · exact hbest r hr
      · obtain ⟨front, hdone, hlen⟩ := hcur r hr
        exact ⟨front, w :: ws, by simp [hdone], hlen, by simpa using hw⟩

/-- Without a run all words are printed. -/
theorem print6_none (hi : i ≠ 0) : print6 src none i ws = tail ws := by
  induction ws generalizing i with
  | nil => rfl
  | cons w ws ih => simp [print6, encapsulated, hi, ih (succ_ne_zero i), tail]

/-- Behind the run. -/
theorem print6_back (hcaps : encapsulated (words src) (some r) = false) (hi : r.base + r.len ≤ i)
    (hpos : i ≠ 0) :
    print6 src (some r) i ws = tail ws ++ if r.base + r.len = 8 then [':'] else [] := by
  induction ws generalizing i with
  | nil => simp [print6, tail]
  | cons w ws ih =>
    have hout : ¬(r.base ≤ i ∧ i < r.base + r.len) := by omega
    simp [print6, hcaps, hout, hpos, ih (le_succ_of_le hi) (succ_ne_zero i), tail]

/-- In the run. -/
theorem print6_run (hi : r.base < i) (hn : i + n = r.base + r.len) (back : List ℕ) :
    print6 src (some r) i (replicate n 0 ++ back) = print6 src (some r) (i + n) back := by
  induction n generalizing i with
  | zero => rfl
  | succ n ih =>
    have hin : r.base ≤ i ∧ i < r.base + r.len := by omega
    have hne : i ≠ r.base := by omega
    rw [replicate_succ, cons_append, print6]
    simp only [any_some, hin, hne, and_self, decide_true, decide_false, if_true, Bool.false_eq_true,
      if_false, nil_append]
    rw [ih (by omega) (by omega)]
    congr 1
    omega

/-- In front of the run. -/
theorem print6_front {front : List ℕ} (hcaps : encapsulated (words src) (some r) = false)
    (hi : i ≠ 0) (hn : i + front.length = r.base) (rest : List ℕ) :
    print6 src (some r) i (front ++ rest) = tail front ++ print6 src (some r) r.base rest := by
  induction front generalizing i with
  | nil => rw [← hn]; rfl
  | cons w front ih =>
    rw [length_cons] at hn
    have hout : ¬(r.base ≤ i ∧ i < r.base + r.len) := by omega
    simp [print6, hcaps, hout, hi, ih (succ_ne_zero i) (by omega), tail]

/-- The bytes of the words are those of the address. -/
theorem bytesOf_words (hsrc : src.length = 2 * n) :
    bytesOf (words src) = src ∧ (words src).length = n ∧ ∀ w ∈ words src, w ≤ 0xffff := by
  induction n generalizing src with
  | zero => simp [eq_nil_of_length_eq_zero hsrc, words, bytesOf]
  | succ n ih =>
    match src, hsrc with
    | a :: b :: src, hsrc =>
      obtain ⟨hbytes, hlen, hle⟩ := ih (Nat.add_right_cancel (m := 2) (hsrc.trans (by omega)))
      have ha := a.toNat_lt
      have hb := b.toNat_lt
      have hdiv : (a.toNat * 256 + b.toNat) / 256 = a.toNat := by omega
      have hgroup : group (a.toNat * 256 + b.toNat) = [a, b] := by
        rw [group, hdiv, UInt8.ofNat_toNat]
        congr 2
        exact UInt8.toNat_inj.mp (by simp)
      refine ⟨?_, by rw [words, length_cons, hlen], forall_mem_cons.mpr ⟨by omega, hle⟩⟩
      rw [words, bytesOf, flatMap_cons, hgroup, ← bytesOf, hbytes]
      rfl

/-- The text of words is not long. -/
theorem length_tail_le (hws : ∀ w ∈ ws, w ≤ 0xffff) : (tail ws).length ≤ 5 * ws.length := by
  induction ws with
  | nil => simp [tail]
  | cons w ws ih =>
    rw [forall_mem_cons] at hws
    have hdigits : (toDigits 16 w).length ≤ 4 :=
      (length_toDigits_le_iff (by decide) (by decide)).mpr (by omega)
    have := ih hws.2
    rw [tail, flatMap_cons, length_append, length_cons, length_cons]
    rw [tail] at this
    omega

/-- **With a run of zeroes**, the words in front of it and those behind it are printed. -/
theorem print6_eq (hrun : IsRun ws r) (hlen : ws.length = 8) (htwo : 2 ≤ r.len)
    (hcaps : encapsulated (words src) (some r) = false) : ∃ w front n back, n ≠ 0 ∧
      w :: front ++ replicate n 0 ++ back = ws ∧
      print6 src (some r) 0 ws = toDigits 16 w ++ tail front ++ ':' :: behind back := by
  obtain ⟨front, back, rfl, hfront, -⟩ := hrun
  rw [length_append, length_append, length_replicate, hfront] at hlen
  obtain ⟨n, hn⟩ := Nat.exists_eq_add_of_le' htwo
  have hback : print6 src (some r) (r.base + r.len) back = behind back := by
    rw [print6_back hcaps le_rfl (by omega)]
    cases back with
    | nil => exact if_pos (by simpa using hlen)
    | cons x back =>
      rw [length_cons] at hlen
      rw [if_neg (by omega), append_nil]
      rfl
  -- The run, from its first word on.
  have hmiddle : print6 src (some r) r.base (replicate r.len 0 ++ back) =
      (if r.base = 0 then ['0', ':'] else [':']) ++ behind back := by
    have hin : r.base ≤ r.base ∧ r.base < r.base + r.len := by omega
    have hend : r.base + 1 + (n + 1) = r.base + r.len := by omega
    rw [hn, replicate_succ, cons_append, print6, print6_run (lt_succ_self _) (by omega)]
    simp [hin, hend, hback]
  cases front with
  | nil =>
    have hbase : r.base = 0 := hfront.symm
    rw [hbase, if_pos rfl] at hmiddle
    exact ⟨0, [], n + 1, back, succ_ne_zero n, by rw [hn]; rfl, hmiddle⟩
  | cons w front =>
    rw [length_cons] at hfront
    have hout : ¬(r.base ≤ 0 ∧ 0 < r.base + r.len) := by omega
    rw [if_neg (by omega)] at hmiddle
    refine ⟨w, front, r.len, back, by omega, rfl, ?_⟩
    rw [append_assoc, cons_append, print6]
    simp only [any_some, hout, decide_false, Bool.false_eq_true, if_false, if_true, nil_append]
    rw [if_neg (by simp), print6_front hcaps (by decide) (by omega), hmiddle]
    simp

/-- Which addresses are shown as IPv4 addresses. -/
def ShownAsV4 (ip : Ip) : Prop := ip.family = .inet6 ∧ (v4Mapped ip.add || v4Compat ip.add) = true

instance (ip : Ip) : Decidable (ShownAsV4 ip) := inferInstanceAs (Decidable (_ ∧ _))

/-- The run that is chosen is no encapsulated IPv4 address, where the address is none. -/
theorem encapsulated_eq_false (hrun : IsRun (words src) r) (hlen : (words src).length = 8)
    (hv4 : (v4Mapped src || v4Compat src) = false) : encapsulated (words src) (some r) = false := by
  obtain ⟨front, back, hwords, hfront, hback⟩ := hrun
  rw [Bool.or_eq_false_iff, v4Mapped, v4Compat, decide_eq_false_iff_not,
    decide_eq_false_iff_not] at hv4
  rw [Bool.eq_false_iff, encapsulated, any_some, ne_eq, decide_eq_true_eq]
  rintro ⟨hbase, hsix | ⟨hfive, hmapped⟩⟩
  · rw [hwords, hsix, eq_nil_of_length_eq_zero (hfront.trans hbase)] at hlen hv4
    have htwo : back.length = 2 := by simpa using hlen
    obtain ⟨x, y, rfl⟩ := length_eq_two.mp htwo
    have hx : x ≠ 0 := by simpa using hback
    refine hv4.2 ⟨rfl, ?_⟩
    simp only [nil_append, replicate, cons_append, getD_cons_succ, getD_cons_zero]
    omega
  · rw [hwords, hfive, eq_nil_of_length_eq_zero (hfront.trans hbase)] at hlen hv4 hmapped
    have hthree : back.length = 3 := by simpa using hlen
    obtain ⟨z, x, y, rfl⟩ := length_eq_three.mp hthree
    have hz : z = 0xffff := by simpa using hmapped
    exact hv4.1 (by simp [hz])

/-- **An IPv6 address that is shown is read.** -/
theorem pton6_print6 (hsrc : src.length = 16) (hv4 : (v4Mapped src || v4Compat src) = false) :
    ∃ w rest, print6 src ((bestRun 0 (words src) none none).filter (2 ≤ ·.len)) 0 (words src) =
      toDigits 16 w ++ rest ∧ pton6 (toDigits 16 w ++ rest) = some src ∧ w ≤ 0xffff ∧ ':' ∈ rest ∧
      rest.length ≤ 41 := by
  obtain ⟨hbytes, hlen, hle⟩ := bytesOf_words (n := 8) hsrc
  cases hbest : (bestRun 0 (words src) none none).filter (2 ≤ ·.len) with
  | none =>
    obtain ⟨w, ws, hws⟩ := exists_cons_of_length_pos (hlen ▸ zero_lt_succ 7 :
      0 < (words src).length)
    have htext : print6 src none 0 (words src) = toDigits 16 w ++ tail ws := by
      rw [hws, print6, print6_none (by decide)]
      simp [encapsulated]
    rw [hws] at hlen hle hbytes
    rw [forall_mem_cons] at hle
    have hseven : ws.length = 7 := by simpa using hlen
    refine ⟨w, tail ws, htext, (pton6_all hle.1 hle.2 hseven).trans (congrArg some hbytes), hle.1,
      ?_, ?_⟩
    · cases ws with
      | nil => cases hseven
      | cons x ws => simp [tail]
    · have := length_tail_le hle.2
      omega
  | some r =>
    obtain ⟨hfound, htwo⟩ := filter_eq_some_iff.mp hbest
    have hrun : IsRun (words src) r := isRun_bestRun [] (by simp) (by simp) hfound
    obtain ⟨w, front, n, back, hn, hsplit, htext⟩ :=
      print6_eq hrun hlen (by simpa using htwo) (encapsulated_eq_false hrun hlen hv4)
    rw [← hsplit] at hle hlen hbytes
    rw [length_append, length_append, length_replicate] at hlen
    have hread := pton6_run hn hlen hle
    rw [hbytes, append_assoc] at hread
    rw [append_assoc] at htext
    rw [forall_mem_append, forall_mem_append, forall_mem_cons] at hle
    refine ⟨w, _, htext, hread, hle.1.1.1, by simp, ?_⟩
    · have hfront := length_tail_le hle.1.1.2
      have hback := length_tail_le hle.2
      rw [length_cons] at hlen
      have hbehind : (behind back).length ≤ 1 + (tail back).length := by
        rw [behind]
        split_ifs
        · exact Nat.le_add_right ..
        · exact Nat.le_add_left ..
      rw [length_append, length_cons]
      omega

/-- **What is read is what was shown.** The text of an address is that of the address again, and
begins with no colon. Of an IPv6 address that is shown as an IPv4 address the IPv4 address is
read. -/
theorem inetPtonSock_inetNtop (ip : Ip) (hip : ip.Valid) {size : ℕ} (hsize : 46 ≤ size) :
    ∃ text, inetNtop ip.family ip.add size = some text ∧ text.head? ≠ some ':' ∧
      inetPtonSock text = some (if ShownAsV4 ip then ⟨.inet, ip.add.drop 12⟩ else ip) := by
  obtain ⟨family, add⟩ := ip
  -- An IPv4 address is shown.
  have hinet : ∀ src : List UInt8, src.length = 4 → ∃ text, ntop4 src size = some text ∧
      text.head? ≠ some ':' ∧ inetPtonSock text = some ⟨.inet, src⟩ := by
    intro src hsrc
    have hread := pton4_inetNtop4 hsrc
    have hcolon : ':' ∉ inetNtop4 src := fun hmem => by
      rw [pton4, pton4Loop_of_colon hmem] at hread
      cases hread
    refine ⟨inetNtop4 src, if_neg (by omega), fun hhead => hcolon (mem_of_mem_head? hhead), ?_⟩
    exact Banlist.inetPtonSock_iff.mpr ⟨hread, iff_of_false hcolon (by simp)⟩
  cases family with
  | inet =>
    have hadd : add.length = 4 := eq_of_mul_eq_mul_right (by decide) (hip : add.length * 8 = 32)
    have hnot : ¬ShownAsV4 ⟨.inet, add⟩ := fun h => nomatch h.1
    rw [if_neg hnot]
    exact hinet add hadd
  | inet6 =>
    have hadd : add.length = 16 := eq_of_mul_eq_mul_right (by decide) (hip : add.length * 8 = 128)
    rw [inetNtop]
    by_cases hv4 : (v4Mapped add || v4Compat add) = true
    · rw [if_pos hv4, if_pos (show ShownAsV4 ⟨.inet6, add⟩ from ⟨rfl, hv4⟩)]
      exact hinet _ (by simp [hadd])
    · rw [if_neg hv4, if_neg (show ¬ShownAsV4 ⟨.inet6, add⟩ from fun h => hv4 h.2), ntop6]
      obtain ⟨w, rest, htext, hread, hw, hcolon, hlength⟩ :=
        pton6_print6 hadd (Bool.eq_false_iff.mpr hv4)
      have hdigits : (toDigits 16 w).length ≤ 4 :=
        (length_toDigits_le_iff (by decide) (by decide)).mpr (by omega)
      have hmem : ':' ∈ toDigits 16 w ++ rest := mem_append_right _ hcolon
      have hnone : pton4 (toDigits 16 w ++ rest) = none := pton4Loop_of_colon hmem
      rw [htext]
      refine ⟨_, if_neg ?_, (pton6Start_toDigits w rest).2, Banlist.inetPtonSock_iff.mpr ⟨?_,
        iff_of_true hmem rfl⟩⟩
      · rw [length_append]
        omega
      · rw [inetPton, hnone]
        exact hread

/-- A run of zeroes at the front, and one at the end. -/
theorem inetPtonSock_inetNtop_runs :
    inetPtonSock "0::1:0:0:1".toList =
    some ⟨.inet6, [0, 0, 0, 0, 0, 0, 0, 0, 0, 1, 0, 0, 0, 0, 0, 1]⟩ := by
  obtain ⟨text, htext, -, hread⟩ := inetPtonSock_inetNtop
    ⟨.inet6, [0, 0, 0, 0, 0, 0, 0, 0, 0, 1, 0, 0, 0, 0, 0, 1]⟩ (by decide) (le_refl 46)
  have hshown : inetNtop .inet6 [0, 0, 0, 0, 0, 0, 0, 0, 0, 1, 0, 0, 0, 0, 0, 1] 46 =
      some "0::1:0:0:1".toList := by
    decide +kernel
  have heq : text = "0::1:0:0:1".toList := some.inj (htext.symm.trans hshown)
  rw [← heq, hread, if_neg (by decide)]

end Ratbox.Address
