import Ratbox.Patricia.Basic
import Mathlib.Data.Nat.Bitwise
import Mathlib.Tactic.IntervalCases

/-!
# The bits of a prefix

The functions compare addresses by bytes; what they find out is whether the addresses agree on their
first bits, and where they first differ.

Source: `libratbox/src/patricia.c`, lines 52–67 and 640–662.

## Main definitions

* `Patricia.Prefix.bits`, `Patricia.Prefix.key`: the bits of the address, and those that the prefix
  has.

## Main results

* `Patricia.compWithMask_iff`: what `comp_with_mask` finds out.
* `Patricia.Tree.differBit_spec`: what the loop over the bytes finds out.
-/

namespace Ratbox.Patricia

open Address CritBit List

/-- The bits of the address. -/
def Prefix.bits (p : Prefix) : ℕ → Bool := bitTest p.touchar

/-- The bits that the prefix has. -/
def Prefix.key (p : Prefix) : List Bool := take p.bitlen p.bits

/-- `q` is the start of the address of `p`. -/
theorem Prefix.key_prefix_iff {p q : Prefix} :
    q.key <+: p.key ↔ q.bitlen ≤ p.bitlen ∧ Agree q.bitlen q.bits p.bits := take_prefix_iff

theorem Prefix.key_inj {p q : Prefix} :
    q.key = p.key ↔ q.bitlen = p.bitlen ∧ Agree q.bitlen q.bits p.bits := take_inj

/-! ### Bytes -/

/-- A bit of a byte, the highest one first. -/
def byteBit (x : UInt8) (j : ℕ) : Bool := x &&& (0x80 >>> UInt8.ofNat j) != 0

theorem bitTest_eq (addr : Bytes) (b : ℕ) : bitTest addr b = byteBit (addr (b / 8)) (b % 8) := rfl

theorem byteBit_eq {j : ℕ} (hj : j < 8) (x : UInt8) : byteBit x j = x.toNat.testBit (7 - j) := by
  have hmask : ((0x80 : UInt8) >>> UInt8.ofNat j).toNat = 2 ^ (7 - j) := by
    interval_cases j <;> rfl
  have hand : (x &&& (0x80 >>> UInt8.ofNat j)).toNat =
      (x.toNat.testBit (7 - j)).toNat * 2 ^ (7 - j) := by
    rw [UInt8.toNat_and, hmask, Nat.and_two_pow]
  rw [byteBit, Bool.eq_iff_iff, bne_iff_ne, ne_eq, ← UInt8.toNat_inj, hand]
  cases x.toNat.testBit (7 - j) <;> simp

/-- Bytes are equal when their bits are. -/
theorem byte_eq_iff {x y : UInt8} : x = y ↔ ∀ j < 8, byteBit x j = byteBit y j := by
  constructor
  · rintro rfl j -
    rfl
  · intro h
    refine UInt8.toNat_inj.mp (Nat.eq_of_testBit_eq fun i => ?_)
    by_cases hi : i < 8
    · have hbit := h (7 - i) (by omega)
      rwa [byteBit_eq (by omega), byteBit_eq (by omega), Nat.sub_sub_self (by omega)] at hbit
    · have hle : 2 ^ 8 ≤ 2 ^ i := Nat.pow_le_pow_right (by omega) (by omega)
      rw [Nat.testBit_lt_two_pow (x.toNat_lt.trans_le hle),
        Nat.testBit_lt_two_pow (y.toNat_lt.trans_le hle)]

theorem byteBit_xor {j : ℕ} (hj : j < 8) (x y : UInt8) :
    byteBit (x ^^^ y) j = (byteBit x j ^^ byteBit y j) := by
  rw [byteBit_eq hj, byteBit_eq hj, byteBit_eq hj, UInt8.toNat_xor, Nat.testBit_xor]

/-- Bytes are equal under a mask when the bits under the mask are. -/
theorem masked_eq_iff {k : ℕ} (hk : k < 8) {x y : UInt8} :
    x &&& UInt8.ofNat (0xff <<< (8 - k)) = y &&& UInt8.ofNat (0xff <<< (8 - k)) ↔
      ∀ j < k, byteBit x j = byteBit y j := by
  have hmask : ∀ j < 8, byteBit (UInt8.ofNat (0xff <<< (8 - k))) j = decide (j < k) := by
    interval_cases k <;> decide
  have hand : ∀ j < 8, ∀ z : UInt8,
      byteBit (z &&& UInt8.ofNat (0xff <<< (8 - k))) j = (byteBit z j && decide (j < k)) := by
    intro j hj z
    rw [← hmask j hj, byteBit_eq hj, byteBit_eq hj, byteBit_eq hj, UInt8.toNat_and, Nat.testBit_and]
  rw [byte_eq_iff]
  constructor
  · intro h j hj
    simpa [hand j (hj.trans hk), hj] using h j (hj.trans hk)
  · intro h j hj
    rw [hand j hj, hand j hj]
    by_cases hjk : j < k
    · rw [h j hjk]
    · simp [hjk]

/-- Addresses agree on whole bytes when the bytes are equal. -/
theorem agree_mul_iff {a b : Bytes} {n : ℕ} :
    Agree (n * 8) (bitTest a) (bitTest b) ↔ ∀ i < n, a i = b i := by
  constructor
  · intro h i hi
    refine byte_eq_iff.mpr fun j hj => ?_
    have hbit := h (i * 8 + j) (by omega)
    rw [bitTest_eq, bitTest_eq, show (i * 8 + j) / 8 = i by omega,
      show (i * 8 + j) % 8 = j by omega] at hbit
    exact hbit
  · intro h i hi
    rw [bitTest_eq, bitTest_eq, h (i / 8) (by omega)]

/-- **`comp_with_mask`** finds out whether addresses agree on their first bits. -/
theorem compWithMask_iff {a b : Bytes} {mask : ℕ} :
    compWithMask a b mask = true ↔ Agree mask (bitTest a) (bitTest b) := by
  have hsplit : Agree mask (bitTest a) (bitTest b) ↔
      (∀ i < mask / 8, a i = b i) ∧
        ∀ j < mask % 8, byteBit (a (mask / 8)) j = byteBit (b (mask / 8)) j := by
    constructor
    · intro h
      refine ⟨agree_mul_iff.mp (h.mono (by omega)), fun j hj => ?_⟩
      have hbit := h (mask / 8 * 8 + j) (by omega)
      rw [bitTest_eq, bitTest_eq, show (mask / 8 * 8 + j) / 8 = mask / 8 by omega,
        show (mask / 8 * 8 + j) % 8 = j by omega] at hbit
      exact hbit
    · rintro ⟨hbytes, hbits⟩ i hi
      by_cases hlt : i < mask / 8 * 8
      · exact agree_mul_iff.mpr hbytes i hlt
      · rw [bitTest_eq, bitTest_eq, show i / 8 = mask / 8 by omega]
        exact hbits (i % 8) (by omega)
  have hmasked := masked_eq_iff (Nat.mod_lt mask (show 8 > 0 by omega)) (x := a (mask / 8))
    (y := b (mask / 8))
  rw [hsplit, ← hmasked, compWithMask]
  simp only [Bool.and_eq_true, all_eq_true, mem_range, beq_iff_eq, Bool.or_eq_true]
  refine and_congr_right fun _ => ⟨?_, Or.inr⟩
  rintro (hzero | heq)
  · rw [hmasked, hzero]
    rintro j ⟨⟩
  · exact heq

namespace Tree

/-- The first bit of a byte that is set. -/
theorem firstBit_spec {r : UInt8} (hr : r ≠ 0) :
    firstBit r < 8 ∧ byteBit r (firstBit r) = true ∧ ∀ j < firstBit r, byteBit r j = false := by
  rw [firstBit]
  cases hfind : (range 8).find? fun j => r &&& (0x80 >>> UInt8.ofNat j) != 0 with
  | none =>
    refine absurd (byte_eq_iff.mpr fun j hj => ?_) hr
    have hzero : byteBit 0 j = false := by
      rw [byteBit_eq hj]
      exact Nat.zero_testBit _
    rw [hzero]
    simpa [byteBit] using find?_eq_none.mp hfind j (by simpa using hj)
  | some i =>
    obtain ⟨hset, hmem, hfirst⟩ := find?_range_eq_some.mp hfind
    refine ⟨by simpa using hmem, hset, fun j hj => ?_⟩
    simpa [byteBit] using hfirst j hj

theorem differLoop_spec {a b : Bytes} {check fuel i : ℕ} (hfuel : check ≤ (i + fuel) * 8)
    (hagree : Agree (i * 8) (bitTest a) (bitTest b)) :
    Agree (differLoop a b check fuel i (i * 8)) (bitTest a) (bitTest b) ∧
      (differLoop a b check fuel i (i * 8) < check →
        bitTest a (differLoop a b check fuel i (i * 8)) ≠
          bitTest b (differLoop a b check fuel i (i * 8))) := by
  induction fuel generalizing i with
  | zero =>
    rw [differLoop]
    exact ⟨hagree, fun hlt => absurd hlt (by omega)⟩
  | succ fuel ih =>
    rw [differLoop]
    split_ifs with hmore
    · dsimp only
      split_ifs with hsame
      · refine ih (by omega) (agree_mul_iff.mpr fun k hk => ?_)
        rcases Nat.lt_succ_iff_lt_or_eq.mp hk with hlt | rfl
        · exact agree_mul_iff.mp hagree k hlt
        · exact UInt8.xor_eq_zero_iff.mp hsame
      · obtain ⟨hlt, hset, hbefore⟩ := firstBit_spec hsame
        have hbit : ∀ j < 8, bitTest a (i * 8 + j) = byteBit (a i) j ∧
            bitTest b (i * 8 + j) = byteBit (b i) j := by
          intro j hj
          rw [bitTest_eq, bitTest_eq, show (i * 8 + j) / 8 = i by omega,
            show (i * 8 + j) % 8 = j by omega]
          exact ⟨rfl, rfl⟩
        refine ⟨fun k hk => ?_, fun _ => ?_⟩
        · by_cases hki : k < i * 8
          · exact hagree k hki
          · obtain ⟨j, rfl⟩ := Nat.exists_eq_add_of_le (Nat.le_of_not_lt hki)
            have hxor := hbefore j (by omega)
            rw [byteBit_xor (by omega)] at hxor
            rw [(hbit j (by omega)).1, (hbit j (by omega)).2]
            simpa using hxor
        · rw [byteBit_xor hlt] at hset
          rw [(hbit _ hlt).1, (hbit _ hlt).2]
          simpa using hset
    · exact ⟨hagree, fun hlt => absurd hlt hmore⟩

/-- **`differ_bit`** is the first bit on which the addresses differ, if that is before `check`. -/
theorem differBit_spec (a b : Bytes) (check : ℕ) :
    differBit a b check ≤ check ∧ Agree (differBit a b check) (bitTest a) (bitTest b) ∧
      (differBit a b check < check →
        bitTest a (differBit a b check) ≠ bitTest b (differBit a b check)) := by
  obtain ⟨hagree, hdiffer⟩ := differLoop_spec (a := a) (b := b) (i := 0)
    (show check ≤ (0 + (check + 1)) * 8 by omega) (fun _ h => absurd h (by omega))
  rw [Nat.zero_mul] at hagree hdiffer
  rw [differBit]
  split_ifs with hlt
  · exact ⟨le_rfl, hagree.mono hlt.le, fun h => absurd h (lt_irrefl _)⟩
  · exact ⟨Nat.le_of_not_lt hlt, hagree, hdiffer⟩

end Tree

end Ratbox.Patricia
