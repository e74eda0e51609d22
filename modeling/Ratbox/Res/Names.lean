import Ratbox.Lib.Scanner
import Ratbox.Res.Basic

/-!
# Names in messages

A name in a DNS message is a list of labels, each with its length in front; two bytes with the
highest bits set point to the rest of the name in another place of the message. A label may also be
a bit string; its type is in front, its length in the next byte.

Source: `resolver/reslib.c`, lines 295–480, 505–590 and 620–720, and `resolver/reslib.h`, lines
11–17.

## Main definitions

* `Res.ircNsNameUnpack`, `Res.ircNsNameNtop`, `Res.ircDnExpand`: a name is unpacked, and written as
  text.
* `Res.ircDnSkipname`: the place behind a name.
* `Res.Stray`: the scan is at the type of a bit string that is the last byte of the message.

## Main results

* `Res.exists_unpack`, `Res.exists_skip`: both scans end.
* `Res.unpack_inside_iff`, `Res.skip_inside_iff`: they read inside the message, unless they come to
  such a byte.

## Implementation notes

The functions that read the message give the places that they read, in the order in which they do. A
`char` is signed.
-/

namespace Ratbox.Res

open Text Address Scanner List

/-! ### Labels -/

/-- `NS_CMPRSFLGS`, `NS_TYPE_ELT` and `DNS_LABELTYPE_BITSTRING`. -/
def nsCmprsflgs : UInt8 := 0xc0
@[inherit_doc nsCmprsflgs] def nsTypeElt : UInt8 := 0x40
@[inherit_doc nsCmprsflgs] def dnsLabeltypeBitstring : UInt8 := 0x41

/-- `labellen` of a label: its first byte, and the next one, which is read for a bit string only. -/
def labellen (l next : UInt8) : Option ℕ :=
  if l &&& nsCmprsflgs = nsCmprsflgs then none
  else if l &&& nsCmprsflgs = nsTypeElt then
    if l = dnsLabeltypeBitstring then some (((if next = 0 then 256 else next.toNat) + 7) / 8 + 1)
      else none
  else some l.toNat

/-- What `labellen` reads. -/
def labellenReads (buf : Bytes) (i : ℕ) :
    List ℕ := if buf i = dnsLabeltypeBitstring then [i, i + 1] else [i]

/-- Bytes of a message. -/
def Packet.slice (p : Packet) (i n : ℕ) : List UInt8 := (range' i n).map p.buf

/-! ### Unpacking -/

/-- `NS_MAXCDNAME`, the size of the buffer for a name that is unpacked. -/
def nsMaxcdname : ℕ := 255

/-- The variables of `irc_ns_name_unpack`: `len` is `none` while it is -1, and `dst` has the bytes
in front of `dstp`. -/
structure Unpack where
  srcp : ℕ
  checked : ℕ
  len : Option ℕ
  dst : List UInt8

/-- A turn of the loop of `irc_ns_name_unpack` for the name at `src`. The result is what it returns,
with the name. -/
def unpackTurn (p : Packet) (src : ℕ) (s : Unpack) :
    List ℕ × Turn Unpack (Option (ℕ × List UInt8)) :=
  let n := p.buf s.srcp
  if n = 0 then ([s.srcp], .stop (some (s.len.getD (s.srcp + 1 - src), s.dst ++ [0])))
  else if n &&& nsCmprsflgs = nsCmprsflgs then
    if p.rc ≤ s.srcp + 1 then ([s.srcp], .stop none)
    else
      let srcp := (n &&& 0x3f).toNat <<< 8 ||| (p.buf (s.srcp + 1)).toNat
      if p.rc ≤ srcp ∨ p.rc ≤ s.checked + 2 then ([s.srcp, s.srcp + 1], .stop none)
      else ([s.srcp, s.srcp + 1], .go ⟨srcp, s.checked + 2, some (s.len.getD (s.srcp + 2 - src)),
        s.dst⟩)
  else if n &&& nsCmprsflgs = 0 ∨ n &&& nsCmprsflgs = nsTypeElt then
    match labellen n (p.buf (s.srcp + 1)) with
    | none => (s.srcp :: labellenReads p.buf s.srcp, .stop none)
    | some l =>
      if nsMaxcdname ≤ s.dst.length + l + 1 ∨ p.rc ≤ s.srcp + 1 + l then
        (s.srcp :: labellenReads p.buf s.srcp, .stop none)
      else
        (s.srcp :: labellenReads p.buf s.srcp ++ range' (s.srcp + 1) l,
          .go ⟨s.srcp + 1 + l, s.checked + l + 1, s.len, s.dst ++ n :: p.slice (s.srcp + 1) l⟩)
  else ([s.srcp], .stop none)

/-- `irc_ns_name_unpack`: what is read, and the result. -/
def ircNsNameUnpack (p : Packet) (src : ℕ) : Option (List ℕ × Option (ℕ × List UInt8)) :=
  if p.rc ≤ src then some ([], none) else scan (unpackTurn p src) (p.rc + nsMaxcdname + 1)
    ⟨src, 0, none, []⟩

/-! ### Printing -/

/-- `special`. -/
def special (ch : UInt8) : Bool := [0x22, 0x2e, 0x3b, 0x5c, 0x28, 0x29, 0x40, 0x24].contains ch

/-- `printable`. -/
def printable (ch : UInt8) : Bool := 0x20 < ch && ch < 0x7f

/-- A digit of `digits`. -/
def digit (n : ℕ) : Char := Char.ofNat ('0'.toNat + n)

/-- `%02x`. -/
def hex2 (n : ℕ) : Str := if n < 16 then '0' :: hex n else hex n

/-- The loop of `irc_ns_name_ntop` over a label, with a buffer of some size: the text behind it. -/
def ntopLabel (dstsiz : ℕ) : List UInt8 → Str → Option Str
  | [], dn => some dn
  | c :: cp, dn =>
    if special c then
      if dstsiz ≤ dn.length + 1 then none else ntopLabel dstsiz cp (dn ++
        ['\\', Char.ofNat c.toNat])
    else if !printable c then
      if dstsiz ≤ dn.length + 3 then none
      else
        let c := c.toNat
        ntopLabel dstsiz cp (dn ++ ['\\', digit (c / 100), digit (c % 100 / 10), digit (c % 10)])
    else if dstsiz ≤ dn.length then none
    else ntopLabel dstsiz cp (dn ++ [Char.ofNat c.toNat])

/-- A `char` as an `int`, of which the low 16 bits are kept. -/
def signed (c : UInt8) : ℕ := if c < 0x80 then c.toNat else 0xff00 + c.toNat

/-- `irc_decode_bitstring`: what it writes, and the bytes behind the bit string. The length is the
first byte. -/
def ircDecodeBitstring (dstsiz : ℕ) (cp : List UInt8) (dn : Str) : Option (Str × List UInt8) :=
  let blen := if cp.headD 0 = 0 then 256 else (cp.headD 0).toNat
  let plen := (blen + 3) / 4 + ("\\[x/]".length + 1) + if 99 < blen then 3 else if 9 < blen then
    2 else 1
  if dstsiz ≤ dn.length + plen then none
  else
    let bytes := cp.tail.take (blen / 8)
    let rest := cp.tail.drop (blen / 8)
    let b := blen % 8
    let tc := rest.headD 0
    let last := if 4 < b then hex2 (signed tc &&& 0xff <<< (8 - b))
      else if 0 < b then hex ((tc.toNat / 16) &&& 0x0f &&& 0x0f <<< (4 - b)) else []
    some ("\\[x".toList ++ bytes.flatMap (fun c => hex2 c.toNat) ++ last ++ '/' :: decimal blen ++
      [']'], if 0 < b then rest.tail else rest)

/-- The end of `irc_ns_name_ntop`. -/
def ntopEnd (dstsiz : ℕ) (dn : Str) : Option Str :=
  if dn = [] then if dstsiz ≤ 1 then none else some ['.']
  else if dstsiz ≤ dn.length then none
  else some dn

/-- The loop of `irc_ns_name_ntop` over the labels. -/
def ntopLoop (dstsiz : ℕ) : ℕ → List UInt8 → Str → Option Str
  | 0, _, _ => none
  | _ + 1, [], _ => none
  | fuel + 1, n :: cp, dn =>
    if n = 0 then ntopEnd dstsiz dn
    else if n &&& nsCmprsflgs = nsCmprsflgs then none
    else if dn ≠ [] ∧ dstsiz ≤ dn.length then none
    else do
      let dn := if dn = [] then [] else dn ++ ['.']
      let l ← labellen n (cp.headD 0)
      if dstsiz ≤ dn.length + l then none
      else if n &&& nsCmprsflgs = nsTypeElt then
        let (text, cp) ← ircDecodeBitstring dstsiz cp dn
        ntopLoop dstsiz fuel cp (dn ++ text)
      else
        let dn ← ntopLabel dstsiz (cp.take l) dn
        ntopLoop dstsiz fuel (cp.drop l) dn

/-- `irc_ns_name_ntop`: the text, if it fits. -/
def ircNsNameNtop (src : List UInt8) (dstsiz : ℕ) : Option Str :=
  ntopLoop dstsiz (src.length + 1) src []

/-- `irc_dn_expand`, with `irc_ns_name_uncompress`: what is read, what it returns, and the text. -/
def ircDnExpand (p : Packet) (src dstsiz : ℕ) : Option (List ℕ × ℤ × Str) :=
  (ircNsNameUnpack p src).map fun (reads, name) =>
    match name with
    | none => (reads, -1, [])
    | some (n, tmp) =>
      match ircNsNameNtop tmp dstsiz with
      | none => (reads, -1, [])
      | some dst => (reads, n, if dst.head? = some '.' then [] else dst)

/-! ### Skipping -/

/-- A turn of the loop of `irc_ns_name_skip`, with what follows the loop. -/
def skipTurn (p : Packet) (cp : ℕ) : List ℕ × Turn ℕ (Option ℕ) :=
  if p.rc ≤ cp then ([], .stop (if p.rc < cp then none else some cp))
  else
    let n := p.buf cp
    if n = 0 then ([cp], .stop (some (cp + 1)))
    else if n &&& nsCmprsflgs = 0 then ([cp], .go (cp + 1 + n.toNat))
    else if n &&& nsCmprsflgs = nsTypeElt then
      match labellen n (p.buf (cp + 1)) with
      | none => (cp :: labellenReads p.buf cp, .stop none)
      | some l => (cp :: labellenReads p.buf cp, .go (cp + 1 + l))
    else if n &&& nsCmprsflgs = nsCmprsflgs then ([cp], .stop (if p.rc < cp + 2 then none
      else some (cp + 2)))
    else ([cp], .stop none)

/-- `irc_dn_skipname`: what is read, and what it returns. -/
def ircDnSkipname (p : Packet) (ptr : ℕ) : Option (List ℕ × ℤ) :=
  (scan (skipTurn p) (p.rc + 1) ptr).map fun (reads, cp) => (reads, cp.elim (-1) fun cp =>
    (cp - ptr : ℤ))

/-! ### The scans end -/

section Ends

variable {p : Packet} {src : ℕ} {s s' : Unpack} {cp cp' : ℕ}

/-- How the loop of `irc_ns_name_unpack` goes on: behind a label, or where two bytes point to. -/
theorem unpackTurn_go (h : (unpackTurn p src s).2 = .go s') :
    s'.srcp < p.rc ∧ (s'.checked < p.rc ∧ s'.checked = s.checked + 2 ∧ s'.dst = s.dst ∨
      s.checked < s'.checked ∧ s.dst.length < s'.dst.length ∧ s'.dst.length < nsMaxcdname) := by
  rw [unpackTurn] at h
  dsimp only at h
  split_ifs at h with hzero hflags hend hloop hlabel
  · obtain rfl := Turn.go.inj h
    rw [not_or, not_le, not_le] at hloop
    exact ⟨hloop.1, Or.inl ⟨hloop.2, rfl, rfl⟩⟩
  · cases hl : labellen (p.buf s.srcp) (p.buf (s.srcp + 1)) with
    | none => simp [hl] at h
    | some l =>
      rw [hl] at h
      dsimp only at h
      split_ifs at h with hfull
      obtain rfl := Turn.go.inj h
      rw [not_or, not_le, not_le] at hfull
      have hlength : (s.dst ++ p.buf s.srcp :: p.slice (s.srcp + 1) l).length = s.dst.length + l +
          1 := by
        simp [Packet.slice, Nat.add_assoc]
      exact ⟨hfull.2, Or.inr ⟨by dsimp only; omega, by dsimp only; omega, by dsimp only; omega⟩⟩

/-- **Unpacking ends**, whatever the message has. -/
theorem exists_unpack (p : Packet) (src : ℕ) :
    ∃ reads name, ircNsNameUnpack p src = some (reads, name) := by
  rw [ircNsNameUnpack]
  split_ifs with hsrc
  · exact ⟨[], none, rfl⟩
  · -- A pointer lowers what is left to check, a label what is left of the buffer.
    refine exists_scan (fun _ => True) (fun s => (p.rc - s.checked) + (nsMaxcdname - s.dst.length))
      ?_ trivial ?_
    · intro s s' _ hgo
      obtain ⟨-, ⟨hlt, hchecked, hdst⟩ | ⟨hchecked, hdst, hlt⟩⟩ := unpackTurn_go hgo
      · refine ⟨trivial, ?_⟩
        rw [hdst]
        omega
      · refine ⟨trivial, ?_⟩
        omega
    · simp [nsMaxcdname]

/-- The loop of `irc_ns_name_skip` goes on behind the byte, inside the message. -/
theorem skipTurn_go (h : (skipTurn p cp).2 = .go cp') : cp < p.rc ∧ cp < cp' := by
  rw [skipTurn] at h
  dsimp only at h
  split_ifs at h with hend hzero hnormal helt
  · obtain rfl := Turn.go.inj h
    exact ⟨not_le.mp hend, by omega⟩
  · cases hl : labellen (p.buf cp) (p.buf (cp + 1)) with
    | none => simp [hl] at h
    | some l =>
      rw [hl] at h
      obtain rfl := Turn.go.inj h
      exact ⟨not_le.mp hend, by omega⟩

/-- **Skipping ends.** -/
theorem exists_skip (p : Packet) (ptr : ℕ) : ∃ reads n, ircDnSkipname p ptr = some (reads, n) := by
  have hscan : ∃ reads r, scan (skipTurn p) (p.rc + 1) ptr = some (reads, r) := by
    refine exists_scan (fun _ => True) (fun cp => p.rc - cp) (fun cp cp' _ hgo => ?_) trivial
      (by omega)
    obtain ⟨hinside, hlt⟩ := skipTurn_go hgo
    exact ⟨trivial, by omega⟩
  obtain ⟨reads, r, hscan⟩ := hscan
  exact ⟨reads, _, by rw [ircDnSkipname, hscan]; rfl⟩

end Ends

/-! ### What the scans read -/

section Inside

variable {p : Packet} {src i : ℕ} {s : Unpack} {reads : List ℕ}

/-- The byte is the type of a bit string, and the last one of the message: its length would be
behind the message. -/
def Stray (p : Packet) (i : ℕ) : Prop := p.buf i = dnsLabeltypeBitstring ∧ i + 1 = p.rc

/-- `irc_ns_name_unpack` comes to no such byte. -/
def UnpackInside (p : Packet) (src : ℕ) : Prop :=
  src < p.rc → ∀ s, Comes (unpackTurn p src) ⟨src, 0, none, []⟩ s → ¬Stray p s.srcp

/-- `irc_ns_name_skip` comes to no such byte. -/
def SkipInside (p : Packet) (ptr : ℕ) : Prop := ∀ cp, Comes (skipTurn p) ptr cp → ¬Stray p cp

/-- What `labellen` reads. -/
theorem forall_labellenReads_iff (hi : i < p.rc) :
    (∀ j ∈ labellenReads p.buf i, j < p.rc) ↔ ¬Stray p i := by
  rw [labellenReads, Stray]
  split_ifs with hbit
  · simp only [forall_mem_cons, not_mem_nil, false_implies, implies_true, and_true, hbit, true_and]
    omega
  · simp [hi, hbit]

/-- The type of a bit string has the bits of an extended label. -/
theorem flags_of_stray (h : Stray p i) : p.buf i ≠ 0 ∧ p.buf i &&& nsCmprsflgs = nsTypeElt := by
  rw [h.1]
  decide

/-- What a turn of `irc_ns_name_unpack` reads. -/
theorem forall_unpackTurn_iff (hs : s.srcp < p.rc) :
    (∀ j ∈ (unpackTurn p src s).1, j < p.rc) ↔ ¬Stray p s.srcp := by
  rw [unpackTurn]
  dsimp only
  split_ifs with hzero hflags hend hloop hlabel
  · exact iff_of_true (by simpa using hs) fun h => (flags_of_stray h).1 hzero
  · exact iff_of_true (by simpa using hs) fun h => absurd ((flags_of_stray h).2.symm.trans hflags)
      (by decide)
  · exact iff_of_true (by simp; omega) fun h => absurd ((flags_of_stray h).2.symm.trans hflags)
      (by decide)
  · exact iff_of_true (by simp; omega) fun h => absurd ((flags_of_stray h).2.symm.trans hflags)
      (by decide)
  · rw [← forall_labellenReads_iff hs]
    cases labellen (p.buf s.srcp) (p.buf (s.srcp + 1)) with
    | none => simp [hs]
    | some l =>
      dsimp only
      split_ifs with hfull
      · simp [hs]
      · rw [not_or, not_le, not_le] at hfull
        simp only [cons_append, forall_mem_cons, forall_mem_append, hs, true_and,
          and_iff_left_iff_imp, mem_range'_1]
        omega
  · exact iff_of_true (by simpa using hs) fun h => hlabel (.inr (flags_of_stray h).2)

/-- **Unpacking reads inside the message** exactly when it comes to no stray byte. -/
theorem unpack_inside_iff {name : Option (ℕ × List UInt8)}
    (h : ircNsNameUnpack p src = some (reads, name)) :
    (∀ j ∈ reads, j < p.rc) ↔ UnpackInside p src := by
  rw [ircNsNameUnpack] at h
  rw [UnpackInside]
  split_ifs at h with hsrc
  · cases h
    exact iff_of_true (fun j hj => nomatch hj) fun hlt => absurd hlt (not_lt.mpr hsrc)
  · rw [forall_prop_of_true (not_le.mp hsrc)]
    exact forall_reads_iff_of_invariant (fun s => s.srcp < p.rc) h (fun _ _ _ hgo =>
      (unpackTurn_go hgo).1) (not_le.mp hsrc) fun _ => forall_unpackTurn_iff

/-- What a turn of `irc_ns_name_skip` reads. -/
theorem forall_skipTurn_iff (cp : ℕ) :
    (∀ j ∈ (skipTurn p cp).1, j < p.rc) ↔ ¬(cp < p.rc ∧ Stray p cp) := by
  rw [skipTurn]
  dsimp only
  split_ifs with hend hbehind hzero hnormal helt hflags hcut
  · exact iff_of_true (fun j hj => nomatch hj) fun h => absurd h.1 (not_lt.mpr hend)
  · exact iff_of_true (fun j hj => nomatch hj) fun h => absurd h.1 (not_lt.mpr hend)
  all_goals rw [not_le] at hend
  all_goals rw [and_iff_right hend]
  · exact iff_of_true (by simpa using hend) fun h => (flags_of_stray h).1 hzero
  · exact iff_of_true (by simpa using hend) fun h => absurd ((flags_of_stray h).2.symm.trans
      hnormal) (by decide)
  · rw [← forall_labellenReads_iff hend]
    cases labellen (p.buf cp) (p.buf (cp + 1)) <;> simp [hend]
  · exact iff_of_true (by simpa using hend) fun h => absurd ((flags_of_stray h).2.symm.trans hflags)
      (by decide)
  · exact iff_of_true (by simpa using hend) fun h => absurd ((flags_of_stray h).2.symm.trans hflags)
      (by decide)
  · exact iff_of_true (by simpa using hend) fun h => helt (flags_of_stray h).2

/-- **Skipping reads inside the message** exactly when it comes to no stray byte. -/
theorem skip_inside_iff {ptr : ℕ} {n : ℤ} (h : ircDnSkipname p ptr = some (reads, n)) :
    (∀ j ∈ reads, j < p.rc) ↔ SkipInside p ptr := by
  obtain ⟨⟨reads', r⟩, hscan, heq⟩ := Option.map_eq_some_iff.mp h
  cases heq
  rw [forall_reads_iff_of_invariant (fun _ => True) hscan (fun _ _ _ _ => trivial) trivial
    fun cp _ => forall_skipTurn_iff cp]
  refine forall_congr' fun cp => imp_congr_right fun _ => not_congr (and_iff_right_of_imp fun h =>
    ?_)
  have := h.2
  omega

end Inside

end Ratbox.Res
