import Ratbox.Text

/-!
# Addresses and netmasks

The address in a `struct sockaddr`, how it is read from text, and the netmasks: an address, or an
address with a number of bits. A text that is neither, or has wildcards, is the mask of a host name.

Source: `libratbox/src/commio.c`, lines 1317–1596, and `src/hostmask.c`, lines 44–112.

## Main definitions

* `Address.Family`, `Address.Ip`: the families, and an address.
* `Address.pton4`, `Address.pton6`, `Address.inetPtonSock`: `inet_pton4`, `inet_pton6` and
  `rb_inet_pton_sock`.
* `Address.parseNetmask`: `parse_netmask`.

## Main results

* `Address.parseNetmask_ipv4`, `Address.parseNetmask_ipv6`: a netmask has an address of its family.
-/

namespace Ratbox.Address

open Text List Option

/-- `AF_INET` and `AF_INET6`. -/
inductive Family
  | inet
  | inet6
  deriving DecidableEq

/-- The bits of an address. -/
def Family.bits : Family → ℕ
  | .inet => 32
  | .inet6 => 128

/-- The bytes at a pointer. -/
abbrev Bytes := ℕ → UInt8

/-- The address in a `struct sockaddr`. The list `add` has its bytes: four or sixteen. -/
structure Ip where
  family : Family
  add : List UInt8
  deriving DecidableEq

/-- An address has the bytes of its family. -/
def Ip.Valid (ip : Ip) : Prop := ip.add.length * 8 = ip.family.bits

instance (ip : Ip) : Decidable ip.Valid := inferInstanceAs (Decidable (_ = _))

/-- The bytes at `sin_addr` or `sin6_addr`. -/
def Ip.bytes (ip : Ip) : Bytes := fun i => ip.add.getD i 0

/-! ### Addresses in text -/

/-- The loop of `inet_pton4`: the octets that are done, last first, and the one that is read. -/
def pton4Loop : Str → Bool → ℕ → List ℕ → ℕ → Option (List UInt8)
  | [], _, octets, done, tp =>
    if octets < 4 then none else some ((tp :: done).reverse.map UInt8.ofNat)
  | ch :: src, sawDigit, octets, done, tp =>
    if isDigit ch then
      let new := tp * 10 + (ch.toNat - '0'.toNat)
      if 255 < new then none
      else if sawDigit then pton4Loop src true octets done new
      else if 4 < octets + 1 then none
      else pton4Loop src true (octets + 1) done new
    else if ch = '.' ∧ sawDigit = true then
      if octets = 4 then none else pton4Loop src false octets (tp :: done) 0
    else none

/-- `inet_pton4`. -/
def pton4 (src : Str) : Option (List UInt8) := pton4Loop src false 0 [] 0

/-- `strchr(xdigits, tolower(ch)) - xdigits`. -/
def xdigit (ch : Char) : Option ℕ := "0123456789abcdef".toList.idxOf? ch.toLower

/-- Two bytes of a group. -/
def group (val : ℕ) : List UInt8 := [UInt8.ofNat (val / 256), UInt8.ofNat val]

/-- The loop of `inet_pton6`: the bytes that are written, where the `::` was, where the group
starts, whether it has a digit, and its value. A character that no address has is passed over. -/
def pton6Loop : Str → List UInt8 → Option ℕ → Str → Bool → ℕ →
    Option (List UInt8 × Option ℕ × Bool × ℕ)
  | [], tmp, colonp, _, sawXdigit, val => some (tmp, colonp, sawXdigit, val)
  | ch :: src, tmp, colonp, curtok, sawXdigit, val =>
    match xdigit ch with
    | some d =>
      if 0xffff < val * 16 + d then none else pton6Loop src tmp colonp curtok true (val * 16 + d)
    | none =>
      if ch = ':' then
        if sawXdigit = false then
          if colonp.isSome then none else pton6Loop src tmp (some tmp.length) src false val
        else if src = [] then none
        else if 16 < tmp.length + 2 then none
        else pton6Loop src (tmp ++ group val) colonp src false 0
      else if src ≠ [] ∧ ch = '.' then
        if tmp.length + 4 ≤ 16 then
          (pton4 curtok).map fun a => (tmp ++ a, colonp, false, val)
        else none
      else pton6Loop src tmp colonp curtok sawXdigit val

/-- A leading colon is one of two. -/
def pton6Start : Str → Option Str
  | ':' :: ':' :: src => some (':' :: src)
  | ':' :: _ => none
  | src => some src

/-- The last group is written. -/
def pton6Last (tmp : List UInt8) (sawXdigit : Bool) (val : ℕ) : Option (List UInt8) :=
  if sawXdigit = true then if 16 < tmp.length + 2 then none else some (tmp ++ group val)
  else some tmp

/-- The bytes behind the `::` are moved to the end. -/
def pton6Fill (tmp : List UInt8) : Option ℕ → Option (List UInt8)
  | some c =>
    if tmp.length = 16 then none
    else some (tmp.take c ++ replicate (16 - tmp.length) 0 ++ tmp.drop c)
  | none => if tmp.length = 16 then some tmp else none

/-- `inet_pton6`. -/
def pton6 (src : Str) : Option (List UInt8) := do
  let src ← pton6Start src
  let (tmp, colonp, sawXdigit, val) ← pton6Loop src [] none src false 0
  let tmp ← pton6Last tmp sawXdigit val
  pton6Fill tmp colonp

/-- `rb_inet_pton`. -/
def inetPton : Family → Str → Option (List UInt8)
  | .inet, src => pton4 src
  | .inet6, src => if (pton4 src).isSome then pton6 ("::ffff:".toList ++ src) else pton6 src

/-- `rb_inet_pton_sock`. -/
def inetPtonSock (src : Str) : Option Ip :=
  match inetPton .inet src with
  | some a => some ⟨.inet, a⟩
  | none => (inetPton .inet6 src).map (⟨.inet6, ·⟩)

/-! ### Netmasks -/

/-- What `parse_netmask` returns: `HM_HOST`, `HM_IPV4` and `HM_IPV6`, the last two with an address
and a number of bits. -/
inductive Netmask
  | host
  | ipv4 (addr : Ip) (bits : ℤ)
  | ipv6 (addr : Ip) (bits : ℤ)
  deriving DecidableEq

/-- The address in front of a slash, and the number behind it, cut to a maximum. -/
def splitBits (ip : Str) (most : ℤ) : Str × ℤ :=
  if '/' ∈ ip then
    (ip.takeWhile (· != '/'), min most (atoi ((ip.dropWhile (· != '/')).drop 1)))
  else (ip, most)

/-- `parse_netmask`. -/
def parseNetmask (text : Str) : Netmask :=
  if '*' ∈ text ∨ '?' ∈ text then .host
  else if ':' ∈ text then
    let (ip, b) := splitBits text 128
    match inetPtonSock ip with
    | some addr => .ipv6 addr b
    | none => .host
  else if '.' ∈ text then
    let (ip, b) := splitBits text 32
    match inetPtonSock ip with
    | some addr => .ipv4 addr b
    | none => .host
  else .host

/-! ### What is read is an address -/

variable {src curtok : Str} {a tmp : List UInt8} {sawDigit : Bool} {octets tp : ℕ} {done : List ℕ}
  {colonp : Option ℕ} {sawXdigit : Bool} {val : ℕ} {text : Str} {addr : Ip} {bits : ℤ}

theorem pton4Loop_length (h : pton4Loop src sawDigit octets done tp = some a)
    (hoctets : octets = done.length + sawDigit.toNat) (hmost : octets ≤ 4)
    (hdot : sawDigit = false → octets < 4) : a.length = 4 := by
  induction src generalizing sawDigit octets done tp with
  | nil =>
    rw [pton4Loop] at h
    split_ifs at h with hlt
    cases h
    cases sawDigit with
    | false => exact absurd (hdot rfl) hlt
    | true =>
      rw [length_map, length_reverse, length_cons]
      simp only [Bool.toNat_true] at hoctets
      omega
  | cons ch src ih =>
    rw [pton4Loop] at h
    dsimp only at h
    split_ifs at h with hdigit hbig hsaw hmany hdot' hfour
    · exact ih h (by simpa [hsaw] using hoctets) hmost (by simp)
    · exact ih h (by simpa [hsaw] using hoctets) (by omega) (by simp)
    · exact ih h (by simpa [hdot'.2] using hoctets) hmost fun _ => by omega

theorem pton4_length (h : pton4 src = some a) : a.length = 4 :=
  pton4Loop_length h rfl (by omega) fun _ => by omega

/-- The bytes that are written are not more than an address has, and the `::` is among them. -/
theorem pton6Loop_length {tmp' : List UInt8} {colonp' : Option ℕ} {sawXdigit' : Bool} {val' : ℕ}
    (h : pton6Loop src tmp colonp curtok sawXdigit val = some (tmp', colonp', sawXdigit', val'))
    (hlen : tmp.length ≤ 16) (hcolonp : ∀ c ∈ colonp, c ≤ tmp.length) :
    tmp'.length ≤ 16 ∧ ∀ c ∈ colonp', c ≤ tmp'.length := by
  induction src generalizing tmp colonp curtok sawXdigit val with
  | nil =>
    rw [pton6Loop] at h
    obtain ⟨rfl, rfl, -, -⟩ := by simpa using h
    exact ⟨hlen, hcolonp⟩
  | cons ch src ih =>
    rw [pton6Loop] at h
    cases hd : xdigit ch with
    | some d =>
      rw [hd] at h
      dsimp only at h
      split_ifs at h with hbig
      exact ih h hlen hcolonp
    | none =>
      rw [hd] at h
      dsimp only at h
      split_ifs at h with hcolon hsaw hsome hnil hfull hdot hroom
      · exact ih h hlen (by simp)
      · refine ih h (by simp [group]; omega) fun c hc => ?_
        have hle := hcolonp c hc
        simp only [length_append]
        omega
      · obtain ⟨a, ha, heq⟩ := map_eq_some_iff.mp h
        obtain ⟨rfl, rfl, -, -⟩ := by simpa using heq
        have hfour := pton4_length ha
        refine ⟨by rw [length_append]; omega, fun c hc => ?_⟩
        have hle := hcolonp c hc
        simp only [length_append]
        omega
      · exact ih h hlen hcolonp

theorem pton6Last_length {tmp' : List UInt8}
    (h : pton6Last tmp sawXdigit val = some tmp') (hlen : tmp.length ≤ 16) :
    tmp'.length ≤ 16 ∧ tmp.length ≤ tmp'.length ∧ tmp'.length ≤ tmp.length + 2 := by
  rw [pton6Last] at h
  split_ifs at h with hsaw hfull
  · cases h
    simp only [length_append, group, length_cons, length_nil]
    omega
  · cases h
    exact ⟨hlen, le_rfl, by omega⟩

theorem pton6Fill_length (h : pton6Fill tmp colonp = some a)
    (hlen : tmp.length ≤ 16) (hcolonp : ∀ c ∈ colonp, c ≤ tmp.length) : a.length = 16 := by
  cases colonp with
  | none =>
    rw [pton6Fill] at h
    split_ifs at h with hfull
    exact some.inj h ▸ hfull
  | some c =>
    rw [pton6Fill] at h
    split_ifs at h with hfull
    cases h
    have hc := hcolonp c rfl
    simp only [length_append, length_take, length_replicate, length_drop]
    omega

theorem pton6_length (h : pton6 src = some a) : a.length = 16 := by
  rw [pton6, bind_eq_bind] at h
  obtain ⟨src', -, h⟩ := bind_eq_some_iff.mp h
  rw [bind_eq_bind] at h
  obtain ⟨⟨tmp, colonp, sawXdigit, val⟩, hloop, h⟩ := bind_eq_some_iff.mp h
  dsimp only at h
  rw [bind_eq_bind] at h
  obtain ⟨tmp', hlast, hfill⟩ := bind_eq_some_iff.mp h
  obtain ⟨hlen, hcolonp⟩ := pton6Loop_length hloop (by simp) (by simp)
  obtain ⟨hlen', hle, -⟩ := pton6Last_length hlast hlen
  exact pton6Fill_length hfill hlen' fun c hc => (hcolonp c hc).trans hle

/-- Without a colon only one group is written. -/
theorem pton6Loop_of_no_colon
    {sawXdigit' : Bool} {val' : ℕ} (hcolon : ':' ∉ src) (h4 : pton4 curtok = none)
    (h : pton6Loop src [] none curtok sawXdigit val = some (tmp, colonp, sawXdigit', val')) :
    tmp = [] ∧ colonp = none := by
  induction src generalizing sawXdigit val with
  | nil =>
    rw [pton6Loop] at h
    obtain ⟨rfl, rfl, -, -⟩ := by simpa using h
    exact ⟨rfl, rfl⟩
  | cons ch src ih =>
    obtain ⟨hch, hsrc⟩ := not_or.mp fun h => hcolon (mem_cons.mpr h)
    rw [pton6Loop] at h
    cases hd : xdigit ch with
    | some d =>
      rw [hd] at h
      dsimp only at h
      split_ifs at h with hbig
      exact ih hsrc h
    | none =>
      rw [hd] at h
      dsimp only at h
      rw [if_neg (Ne.symm hch), h4] at h
      split_ifs at h with hdot hroom
      · simp at h
      · exact ih hsrc h

/-- A text without a colon is no IPv6 address. -/
theorem pton6_of_no_colon (hcolon : ':' ∉ src) (h4 : pton4 src = none) : pton6 src = none := by
  have hstart : pton6Start src = some src := by
    cases src with
    | nil => rfl
    | cons ch src =>
      obtain ⟨hch, -⟩ := not_or.mp fun h => hcolon (mem_cons.mpr h)
      rw [pton6Start]
      · rintro _ ⟨⟩
        exact absurd rfl hch
      · rintro _ ⟨⟩
        exact absurd rfl hch
  by_contra hne
  obtain ⟨a, h⟩ := ne_none_iff_exists'.mp hne
  rw [pton6, bind_eq_bind, hstart, bind_some, bind_eq_bind] at h
  obtain ⟨⟨tmp, colonp, sawXdigit, val⟩, hloop, h⟩ := bind_eq_some_iff.mp h
  dsimp only at h
  rw [bind_eq_bind] at h
  obtain ⟨tmp', hlast, hfill⟩ := bind_eq_some_iff.mp h
  obtain ⟨rfl, rfl⟩ := pton6Loop_of_no_colon hcolon h4 hloop
  obtain ⟨-, -, hle⟩ := pton6Last_length hlast (by simp)
  rw [pton6Fill] at hfill
  split_ifs at hfill with hfull
  simp at hle
  omega

theorem inetPtonSock_valid {ip : Ip} (h : inetPtonSock src = some ip) : ip.Valid := by
  rw [inetPtonSock] at h
  cases h4 : inetPton .inet src with
  | some a =>
    rw [h4] at h
    cases h
    have hlen := pton4_length (show pton4 src = some a from h4)
    rw [Ip.Valid, hlen]
    rfl
  | none =>
    rw [h4] at h
    obtain ⟨a, ha, rfl⟩ := map_eq_some_iff.mp h
    rw [inetPton] at ha
    have hlen : a.length = 16 := by split_ifs at ha <;> exact pton6_length ha
    rw [Ip.Valid, hlen]
    rfl

theorem inetPtonSock_inet {ip : Ip} (hcolon : ':' ∉ src)
    (h : inetPtonSock src = some ip) : ip.family = .inet := by
  rw [inetPtonSock] at h
  cases h4 : inetPton .inet src with
  | some a =>
    rw [h4] at h
    exact (some.inj h) ▸ rfl
  | none =>
    rw [h4] at h
    obtain ⟨a, ha, rfl⟩ := map_eq_some_iff.mp h
    have hnone : pton4 src = none := h4
    rw [inetPton, hnone, pton6_of_no_colon hcolon hnone] at ha
    simp at ha

/-- A text with a colon is no IPv4 address. -/
theorem pton4Loop_of_colon (hcolon : ':' ∈ src) : pton4Loop src sawDigit octets done tp = none := by
  induction src generalizing sawDigit octets done tp with
  | nil => simp at hcolon
  | cons ch src ih =>
    rw [pton4Loop]
    rcases mem_cons.mp hcolon with rfl | hsrc
    · rw [if_neg (by decide), if_neg (by simp)]
    · dsimp only
      split_ifs <;> first | rfl | exact ih hsrc

theorem splitBits_le (ip : Str) (most : ℤ) : (splitBits ip most).2 ≤ most := by
  rw [splitBits]
  split_ifs
  · exact Int.min_le_left _ _
  · exact Int.le_refl most

theorem mem_splitBits {ip : Str} {most : ℤ} {c : Char} (h : c ∈ (splitBits ip most).1) :
    c ∈ ip := by
  rw [splitBits] at h
  split_ifs at h
  · exact takeWhile_prefix _ |>.subset h
  · exact h

/-- **An IPv4 netmask** has an IPv4 address and at most 32 bits. -/
theorem parseNetmask_ipv4 (h : parseNetmask text = .ipv4 addr bits) :
    addr.family = .inet ∧ addr.Valid ∧ bits ≤ 32 := by
  rw [parseNetmask] at h
  split_ifs at h with hwild hcolon hdot
  · dsimp only at h
    split at h <;> simp at h
  · dsimp only at h
    split at h
    · rename_i a ha
      obtain ⟨rfl, rfl⟩ := by simpa using h
      exact ⟨inetPtonSock_inet (fun hc => hcolon (mem_splitBits hc)) ha, inetPtonSock_valid ha,
        splitBits_le _ _⟩
    · simp at h

/-- **An IPv6 netmask** has an address of sixteen bytes and at most 128 bits. -/
theorem parseNetmask_ipv6 (h : parseNetmask text = .ipv6 addr bits) : addr.Valid ∧ bits ≤ 128 := by
  rw [parseNetmask] at h
  split_ifs at h with hwild hcolon hdot
  · dsimp only at h
    split at h
    · rename_i a ha
      obtain ⟨rfl, rfl⟩ := by simpa using h
      exact ⟨inetPtonSock_valid ha, splitBits_le _ _⟩
    · simp at h
  · dsimp only at h
    split at h <;> simp at h

/-- The number of bits is an `int`. -/
theorem parseNetmask_int
    (h : parseNetmask text = .ipv4 addr bits ∨ parseNetmask text = .ipv6 addr bits) :
    -2 ^ 31 ≤ bits := by
  have hsplit : ∀ most : ℤ, 0 ≤ most → -2 ^ 31 ≤ (splitBits text most).2 := by
    intro most hmost
    rw [splitBits]
    split_ifs
    · have hint := (atoi_int ((text.dropWhile (· != '/')).drop 1)).1
      dsimp only
      omega
    · dsimp only
      omega
  rw [parseNetmask] at h
  split_ifs at h with hwild hcolon hdot
  · simp at h
  · dsimp only at h
    split at h
    · obtain ⟨-, rfl⟩ : _ ∧ (splitBits text 128).2 = bits := by simpa using h
      exact hsplit 128 (by decide)
    · simp at h
  · dsimp only at h
    split at h
    · obtain ⟨-, rfl⟩ : _ ∧ (splitBits text 32).2 = bits := by simpa using h
      exact hsplit 32 (by decide)
    · simp at h
  · simp at h

end Ratbox.Address
