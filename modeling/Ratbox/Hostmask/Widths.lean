import Ratbox.Hostmask.Basic

/-!
# The bits of a netmask

`parse_netmask` cuts the number behind the slash to the width of the address, but not to zero, and
tells the families by a colon anywhere in the text. The number goes on to `hash_ipv4` or
`hash_ipv6`, rounded towards zero, and to `comp_with_mask`, as an `unsigned int`; they shift by it,
and index the bytes of the address with it.

Source: `src/hostmask.c`, lines 44–169 and 491–620, and `src/match.c`, lines 317–355.

## Main definitions

* `Hostmask.hashIpv4Shift`, `Hostmask.hashIpv6Reads`, `Hostmask.compReads`: the distances of the
  shifts, and the indices.
* `Hostmask.Classified`: a netmask is an address of its family, and its bits are used inside the
  address.
* `Hostmask.Proper`: the texts for which it is.

## Main results

* `Hostmask.classified_iff`: the texts that are classified.
-/

namespace Ratbox.Hostmask

open Text Address Patricia List Option

/-! ### What the bits are used for -/

/-- The distance of the shift of `hash_ipv4`. -/
def hashIpv4Shift (bits : ℤ) : Option ℤ := if bits ≠ 0 then some (32 - bits) else none

/-- The loop of `hash_ipv6`: the bytes that are read, and the distance of the shift. -/
def hashIpv6Reads : ℕ → ℕ → ℤ → List ℕ × Option ℤ
  | 0, _, _ => ([], none)
  | turns + 1, n, bits =>
    if 8 ≤ bits then
      let (reads, shift) := hashIpv6Reads turns (n + 1) (bits - 8)
      (n :: reads, shift)
    else if bits ≠ 0 then ([n], some (8 - bits))
    else ([], none)

/-- The bytes that `comp_with_mask` reads. -/
def compReads (mask : ℕ) : List ℕ := range (mask / 8) ++ if mask % 8 = 0 then [] else [mask / 8]

/-- An argument of type `unsigned int`. -/
def unsigned (bits : ℤ) : ℕ := (bits % 2 ^ 32).toNat

/-- `bits -= bits % step`. -/
def rounded (bits step : ℤ) : ℤ := bits - bits.tmod step

/-- The bits are used inside an IPv4 address. -/
structure UsedIn4 (bits : ℤ) : Prop where
  shift : ∀ s ∈ hashIpv4Shift (rounded bits 8), 0 ≤ s ∧ s < 32
  comp : ∀ i ∈ compReads (unsigned bits), i < 4

/-- The bits are used inside an IPv6 address. -/
structure UsedIn6 (bits : ℤ) : Prop where
  reads : ∀ i ∈ (hashIpv6Reads 16 0 (rounded bits 16)).1, i < 16
  shift : ∀ s ∈ (hashIpv6Reads 16 0 (rounded bits 16)).2, 0 ≤ s ∧ s < 8
  comp : ∀ i ∈ compReads (unsigned bits), i < 16

/-! ### The bits that are used inside -/

theorem compReads_lt {mask width : ℕ} (h : mask ≤ width * 8) : ∀ i ∈ compReads mask, i < width := by
  intro i hi
  rw [compReads, mem_append, mem_range] at hi
  rcases hi with hi | hi
  · omega
  · split_ifs at hi with hzero
    · simp at hi
    · obtain rfl := mem_singleton.mp hi
      omega

variable {bits : ℤ}

theorem unsigned_of_nonneg (h : 0 ≤ bits) (hle : bits ≤ 128) : unsigned bits = bits.toNat := by
  rw [unsigned, Int.emod_eq_of_lt h (by omega)]

theorem hashIpv6Reads_inside (turns n : ℕ) (h : bits % 8 = 0) (hpos : 0 ≤ bits) :
    (∀ i ∈ (hashIpv6Reads turns n bits).1, i < n + turns) ∧ (hashIpv6Reads turns n bits).2 =
    none := by
  induction turns generalizing n bits with
  | zero => simp [hashIpv6Reads]
  | succ turns ih =>
    rw [hashIpv6Reads]
    split_ifs with hbyte hzero
    · have hless : (bits - 8) % 8 = 0 := by omega
      obtain ⟨hreads, hshift⟩ := ih (n + 1) hless (by omega)
      refine ⟨forall_mem_cons.mpr ⟨by omega, fun i hi => ?_⟩, hshift⟩
      have hlt := hreads i hi
      omega
    · omega
    · simp

theorem usedIn4 (h : 0 ≤ bits) (hle : bits ≤ 32) : UsedIn4 bits := by
  refine ⟨fun s hs => ?_, ?_⟩
  · rw [rounded, Int.tmod_eq_emod_of_nonneg h, hashIpv4Shift] at hs
    split_ifs at hs with hzero
    · cases hs
      omega
    · simp at hs
  · rw [unsigned_of_nonneg h (by omega)]
    exact compReads_lt (by omega)

theorem usedIn6 (h : 0 ≤ bits) (hle : bits ≤ 128) : UsedIn6 bits := by
  have hwhole : rounded bits 16 % 8 = 0 ∧ 0 ≤ rounded bits 16 := by
    rw [rounded, Int.tmod_eq_emod_of_nonneg h]
    omega
  obtain ⟨hreads, hshift⟩ := hashIpv6Reads_inside 16 0 hwhole.1 hwhole.2
  refine ⟨by simpa using hreads, by simp [hshift], ?_⟩
  rw [unsigned_of_nonneg h hle]
  exact compReads_lt (by omega)

/-! ### The texts that are classified -/

/-- The text in front of the first slash. -/
def addressPart (text : Str) : Str := text.takeWhile (· != '/')

/-- The number behind the first slash. -/
def bitsPart (text : Str) : ℤ := atoi ((text.dropWhile (· != '/')).drop 1)

/-- **A netmask is an address of its family**, that of the text in front of the slash, and its bits
are used inside the address. The bucket of a host name does not depend on bits. -/
def Classified (text : Str) : Prop :=
  match parseNetmask text with
  | .host => True
  | .ipv4 addr bits =>
    (0 ≤ bits ∧ bits ≤ 32) ∧ (addr.family = .inet ∧ pton4 (addressPart text) = some addr.add) ∧
      UsedIn4 bits
  | .ipv6 addr bits =>
    (0 ≤ bits ∧ bits ≤ 128) ∧ (addr.family = .inet6 ∧ pton6 (addressPart text) = some addr.add) ∧
      UsedIn6 bits

/-- **The proper texts.** In a text without wildcards, with a dot or a colon, and an address in
front of the slash, a colon is in front of the slash as well, and the number behind the slash is not
negative. -/
def Proper (text : Str) : Prop :=
  '*' ∉ text → '?' ∉ text → ('.' ∈ text ∨ ':' ∈ text) → (inetPtonSock (addressPart text)).isSome →
    (':' ∈ text → ':' ∈ addressPart text) ∧ ('/' ∈ text → 0 ≤ bitsPart text)

instance (text : Str) : Decidable (Proper text) := by
  unfold Proper
  infer_instance

theorem splitBits_eq (text : Str) (most : ℤ) :
    splitBits text most = (addressPart text, if '/' ∈ text then min most (bitsPart text)
      else most) := by
  rw [splitBits]
  split_ifs with hslash
  · rfl
  · have hall : ∀ c ∈ text, (c != '/') = true := fun c hc => by
      rw [bne_iff_ne]
      rintro rfl
      exact hslash hc
    rw [addressPart, takeWhile_eq_self_iff.mpr hall]

/-- The address of a text with a colon, and that of one without. -/
theorem inetPtonSock_eq_some {src : Str} {addr : Ip} (h : inetPtonSock src = some addr) :
    (':' ∈ src ∧ addr.family = .inet6 ∧ pton6 src = some addr.add) ∨
      (':' ∉ src ∧ addr.family = .inet ∧ pton4 src = some addr.add) := by
  by_cases hcolon : ':' ∈ src
  · left
    have h4 : pton4 src = none := pton4Loop_of_colon hcolon
    rw [inetPtonSock, inetPton, h4, map_eq_some_iff] at h
    obtain ⟨a, ha, rfl⟩ := h
    rw [inetPton, h4] at ha
    exact ⟨hcolon, rfl, ha⟩
  · right
    have hfamily := inetPtonSock_inet hcolon h
    rw [inetPtonSock] at h
    cases h4 : inetPton .inet src with
    | some a =>
      rw [h4] at h
      cases h
      exact ⟨hcolon, rfl, h4⟩
    | none =>
      rw [h4] at h
      obtain ⟨a, -, rfl⟩ := map_eq_some_iff.mp h
      simp at hfamily

/-- The bits of a netmask are not negative when the number behind the slash is not. -/
theorem bits_nonneg_iff {text : Str} {most : ℤ} (hmost : 0 ≤ most) :
    0 ≤ (if '/' ∈ text then min most (bitsPart text) else most) ↔
    ('/' ∈ text → 0 ≤ bitsPart text) := by
  split_ifs with hslash
  · simp [hslash, hmost]
  · simp [hslash, hmost]

/-- **The texts that are classified** are the proper ones. -/
theorem classified_iff (text : Str) : Classified text ↔ Proper text := by
  rw [Classified, Proper, parseNetmask]
  by_cases hwild : '*' ∈ text ∨ '?' ∈ text
  · rw [if_pos hwild]
    tauto
  obtain ⟨hstar, hquestion⟩ := not_or.mp hwild
  rw [if_neg hwild]
  have hle : ∀ most : ℤ, (if '/' ∈ text then min most (bitsPart text) else most) ≤ most := by
    intro most
    split_ifs
    · exact min_le_left ..
    · exact le_rfl
  by_cases hcolon : ':' ∈ text
  · rw [if_pos hcolon, splitBits_eq]
    dsimp only
    cases haddr : inetPtonSock (addressPart text) with
    | none => simp
    | some addr =>
      simp only [hstar, hquestion, hcolon, or_true, not_false_eq_true, isSome_some, forall_const,
        ← bits_nonneg_iff (show (0 : ℤ) ≤ 128 by decide)]
      rcases inetPtonSock_eq_some haddr with ⟨hpart, hfamily, hpton⟩ | ⟨hpart, hfamily, -⟩
      · constructor
        · exact fun h => ⟨hpart, h.1.1⟩
        · exact fun h => ⟨⟨h.2, hle 128⟩, ⟨hfamily, hpton⟩, usedIn6 h.2 (hle 128)⟩
      · refine iff_of_false (fun h => ?_) fun h => hpart h.1
        rw [hfamily] at h
        cases h.2.1.1
  rw [if_neg hcolon]
  by_cases hdot : '.' ∈ text
  · rw [if_pos hdot, splitBits_eq]
    dsimp only
    cases haddr : inetPtonSock (addressPart text) with
    | none => simp
    | some addr =>
      simp only [hstar, hquestion, hcolon, hdot, or_false, not_false_eq_true, isSome_some,
        forall_const, IsEmpty.forall_iff, true_and, ← bits_nonneg_iff (show (0 : ℤ) ≤ 32 by decide)]
      have hpart : ':' ∉ addressPart text := fun h => hcolon ((List.takeWhile_prefix _).mem h)
      obtain ⟨-, hfamily, hpton⟩ := (inetPtonSock_eq_some haddr).resolve_left fun h => hpart h.1
      constructor
      · exact fun h => h.1.1
      · exact fun h => ⟨⟨h, hle 32⟩, ⟨hfamily, hpton⟩, usedIn4 h (hle 32)⟩
  · rw [if_neg hdot]
    simp [hdot, hcolon]

/-- A negative number of bits: `hash_ipv4` shifts by 40 bits, and `comp_with_mask` reads half a
gigabyte. The text with a colon behind the slash is an IPv4 address that is taken for an IPv6
one. -/
theorem not_classified :
    parseNetmask "1.2.3.4/-9".toList = .ipv4 ⟨.inet, [1, 2, 3, 4]⟩ (-9) ∧
      hashIpv4Shift (rounded (-9) 8) = some 40 ∧ 536870910 ∈ compReads (unsigned (-9)) ∧
      ¬Classified "1.2.3.4/-9".toList ∧
      parseNetmask "1.2.3.4/64:".toList = .ipv6 ⟨.inet, [1, 2, 3, 4]⟩ 64 ∧
      ¬Classified "1.2.3.4/64:".toList := by
  have h4 : parseNetmask "1.2.3.4/-9".toList = .ipv4 ⟨.inet, [1, 2, 3, 4]⟩ (-9) := by decide +kernel
  have h6 : parseNetmask "1.2.3.4/64:".toList = .ipv6 ⟨.inet, [1, 2, 3, 4]⟩ 64 := by decide +kernel
  refine ⟨h4, by decide, ?_, ?_, h6, ?_⟩
  · rw [compReads, show unsigned (-9) = 4294967287 by decide]
    exact mem_append_right _ (by decide)
  · rw [Classified, h4]
    exact nofun
  · rw [Classified, h6]
    exact nofun

end Ratbox.Hostmask
