import Ratbox.Hostmask.Basic
import Ratbox.Patricia.Bits

/-!
# The buckets of the masks

A mask that covers an address, or matches a host name, is in one of the buckets that a search for
the address and the name goes through.

Source: `src/hostmask.c`, lines 128–208.

## Main results

* `Hostmask.hashIpv4_congr`, `Hostmask.hashIpv6_congr`: the bucket of an address goes by its first
  bytes.
* `Hostmask.exists_domain`: a mask that matches a name is in the bucket of a domain of the name, or
  in the first bucket.
-/

namespace Ratbox.Hostmask

open Text Address Match Patricia CritBit List

/-! ### Addresses -/

variable {k : ℕ}

theorem clearLow_ntohl {a b : Bytes} (hpos : 0 < k) (hk : k ≤ 4) (h : ∀ i < k, a i = b i) :
    clearLow (ntohl a) (32 - 8 * k) = clearLow (ntohl b) (32 - 8 * k) := by
  have ha : ∀ i, (a i).toNat < 256 := fun i => (a i).toNat_lt
  have hb : ∀ i, (b i).toNat < 256 := fun i => (b i).toNat_lt
  have ha1 := ha 1
  have ha2 := ha 2
  have ha3 := ha 3
  have hb1 := hb 1
  have hb2 := hb 2
  have hb3 := hb 3
  rw [clearLow, clearLow, ntohl, ntohl, h 0 hpos]
  interval_cases k
  · omega
  · rw [h 1 (by omega)]
    omega
  · rw [h 1 (by omega), h 2 (by omega)]
    omega
  · rw [h 1 (by omega), h 2 (by omega), h 3 (by omega)]

/-- The bucket of an IPv4 address goes by its first bytes. -/
theorem hashIpv4_congr {a b : Bytes} (hk : k ≤ 4) (h : ∀ i < k, a i = b i) :
    hashIpv4 a (8 * k) = hashIpv4 b (8 * k) := by
  rw [hashIpv4, hashIpv4]
  split_ifs with hzero
  · rw [clearLow_ntohl (by omega) hk h]
  · rfl

theorem hashIpv6Loop_congr {a b : Bytes} {turns n v : ℕ} (h : ∀ i < k, a (n + i) = b (n + i)) :
    hashIpv6Loop a turns n (8 * k) v = hashIpv6Loop b turns n (8 * k) v := by
  induction turns generalizing n k v with
  | zero => rfl
  | succ turns ih =>
    rw [hashIpv6Loop, hashIpv6Loop]
    cases k with
    | zero => rfl
    | succ k =>
      rw [if_pos (by omega), if_pos (by omega), show a n = b n from h 0 (Nat.succ_pos k),
        show 8 * (k + 1) - 8 = 8 * k by omega]
      refine ih fun i hi => ?_
      rw [Nat.add_assoc, Nat.add_comm 1 i]
      exact h (i + 1) (by omega)

/-- The bucket of an IPv6 address goes by its first bytes. -/
theorem hashIpv6_congr {a b : Bytes} (h : ∀ i < k, a i = b i) :
    hashIpv6 a (8 * k) = hashIpv6 b (8 * k) :=
  hashIpv6Loop_congr fun i hi => by rw [Nat.zero_add]; exact h i hi

theorem roundBits_eq {bits : ℤ} (hbits : 0 ≤ bits) (step : ℕ) :
    roundBits bits step = step * (bits.toNat / step) := by
  obtain ⟨n, rfl⟩ := Int.eq_ofNat_of_zero_le hbits
  rw [roundBits, Int.toNat_natCast, ← Int.ofNat_tmod, ← Int.natCast_sub (Nat.mod_le n step),
    Int.toNat_natCast]
  have hsplit := Nat.div_add_mod n step
  omega

/-- Every mask has a bucket. -/
theorem bucketOf_lt (address : Str) : bucketOf address < atableSize := by
  have htext : ∀ s, hashText s < atableSize := fun s => Nat.mod_lt _ (by decide)
  have hhost : ∀ text rest behind hp, maskHashLoop text rest behind hp < atableSize := by
    intro text rest
    induction rest with
    | nil => exact fun behind hp => htext text
    | cons p rest ih =>
      intro behind hp
      rw [maskHashLoop]
      split_ifs
      · exact htext hp
      · exact ih ..
      · exact ih ..
  have hipv6 : ∀ addr turns n bits v, hashIpv6Loop addr turns n bits v < atableSize := by
    intro addr turns
    induction turns with
    | zero => exact fun n bits v => Nat.mod_lt _ (by decide)
    | succ turns ih =>
      intro n bits v
      rw [hashIpv6Loop]
      split_ifs
      · exact ih ..
      · exact Nat.mod_lt _ (by decide)
      · exact Nat.mod_lt _ (by decide)
  rw [bucketOf]
  cases parseNetmask address with
  | host => exact hhost ..
  | ipv4 addr bits =>
    dsimp only [hashIpv4]
    split_ifs
    · exact Nat.mod_lt _ (by decide)
    · decide
  | ipv6 addr bits => exact hipv6 ..

section Covers

variable {addr dest : Bytes} {bits : ℤ}

/-- An IPv4 mask that covers an address is in a bucket of the address. -/
theorem exists_bits_ipv4 (hbits : 0 ≤ bits) (hmost : bits ≤ 32)
    (hcovers : Agree bits.toNat (bitTest addr) (bitTest dest)) :
    ∃ b ∈ [32, 24, 16, 8, 0], hashIpv4 addr b = hashIpv4 dest (roundBits bits 8) := by
  have hround : roundBits bits 8 = 8 * (bits.toNat / 8) := roundBits_eq hbits 8
  have hle : bits.toNat / 8 ≤ 4 := by omega
  refine ⟨8 * (bits.toNat / 8), ?_, ?_⟩
  · generalize bits.toNat / 8 = k at hle
    interval_cases k <;> simp
  · rw [hround]
    exact hashIpv4_congr hle (agree_mul_iff.mp (hcovers.mono (by omega)))

/-- An IPv6 mask that covers an address is in a bucket of the address. -/
theorem exists_bits_ipv6 (hbits : 0 ≤ bits) (hmost : bits ≤ 128)
    (hcovers : Agree bits.toNat (bitTest addr) (bitTest dest)) :
    ∃ b ∈ [128, 112, 96, 80, 64, 48, 32, 16, 0], hashIpv6 addr b =
    hashIpv6 dest (roundBits bits 16) := by
  have hround : roundBits bits 16 = 16 * (bits.toNat / 16) := roundBits_eq hbits 16
  have hle : bits.toNat / 16 ≤ 8 := by omega
  refine ⟨16 * (bits.toNat / 16), ?_, ?_⟩
  · generalize bits.toNat / 16 = k at hle
    interval_cases k <;> simp
  · rw [hround, show 16 * (bits.toNat / 16) = 8 * (2 * (bits.toNat / 16)) by omega]
    exact hashIpv6_congr (agree_mul_iff.mp (hcovers.mono (by omega)))

end Covers

/-! ### Host names -/

theorem hashText_congr {s t : Str} (h : s.map toLower = t.map toLower) :
    hashText s = hashText t := by
  have hfold : ∀ (l : Str) (h₀ : UInt32),
      l.foldl (fun (h : UInt32) p => (h <<< 4) - (h + UInt32.ofNat (toLower p).toNat)) h₀ =
        (l.map toLower).foldl (fun (h : UInt32) p => (h <<< 4) - (h + UInt32.ofNat p.toNat))
            h₀ := by
    intro l h₀
    rw [foldl_map]
  rw [hashText, hashText, hfold, hfold, h]

/-- Only a dot is a dot in lower case. -/
theorem eq_dot_of_toLower {c : Char} (h : toLower c = '.') : c = '.' := by
  rw [toLower] at h
  split_ifs at h with hupper
  · have hrange : ∀ n, 65 ≤ n → n ≤ 94 → Char.ofNat (n + 32) ≠ '.' := by
      intro n hge hle
      interval_cases n <;> decide
    exact absurd h (hrange c.toNat hupper.1 hupper.2)
  · exact h

theorem maskHashLoop_spec {text rest behind hp : Str} (htext : text = rest.reverse ++ behind)
    (hbehind : ∀ c ∈ behind, isWild c = false) (hhp : hp = [] ∨ ∃ x, behind = x ++ '.' :: hp) :
    ((∀ c ∈ text, isWild c = false) ∧ maskHashLoop text rest behind hp = hashText text) ∨
      ∃ u v hp', text = u ++ v ∧ (∀ c ∈ v, isWild c = false) ∧
        (∃ c, u.getLast? = some c ∧ isWild c = true) ∧
        (hp' = [] ∨ ∃ x, v = x ++ '.' :: hp') ∧ maskHashLoop text rest behind hp =
        hashText hp' := by
  induction rest generalizing behind hp with
  | nil =>
    refine .inl ⟨?_, rfl⟩
    rw [htext]
    exact hbehind
  | cons p rest ih =>
    rw [maskHashLoop]
    rw [reverse_cons] at htext
    cases hp' : isWild p with
    | true =>
      rw [if_pos rfl]
      exact .inr ⟨rest.reverse ++ [p], behind, hp, htext, hbehind, ⟨p, getLast?_concat, hp'⟩, hhp,
        rfl⟩
    | false =>
      have htext' : text = rest.reverse ++ (p :: behind) := by
        rw [htext, append_assoc]
        rfl
      have hbehind' : ∀ c ∈ p :: behind, isWild c = false := by
        intro c hc
        rcases mem_cons.mp hc with rfl | hc
        · exact hp'
        · exact hbehind c hc
      rw [if_neg (by simp)]
      by_cases hdot : p = '.'
      · rw [if_pos hdot]
        exact ih htext' hbehind' (.inr ⟨[], by rw [hdot]; rfl⟩)
      · rw [if_neg hdot]
        refine ih htext' hbehind' (hhp.imp_right ?_)
        rintro ⟨x, hx⟩
        exact ⟨p :: x, by rw [hx]; rfl⟩

theorem mem_domains (p hp : Str) : hp ∈ domains (p ++ '.' :: hp) := by
  refine mem_cons_of_mem _ ?_
  induction p with
  | nil => exact mem_cons_self
  | cons c p ih =>
    rw [cons_append, domains.behindDots]
    split_ifs
    · exact mem_cons_of_mem _ ih
    · exact ih

/-- **Buckets of names.** A mask that matches a name is in the bucket of a domain of the name, or in
the first bucket. -/
theorem exists_domain {address name : Str} (h : matchMask address name = true) :
    getMaskHash address = 0 ∨ ∃ p ∈ domains name, hashText p = getMaskHash address := by
  have hsplit : address = address.reverse.reverse ++ [] := by simp
  obtain ⟨hplain, heq⟩ | ⟨u, v, hp, htext, hv, -, hhp, heq⟩ :=
    maskHashLoop_spec hsplit (by simp) (.inl rfl)
  · obtain ⟨p, r, rfl, hr, hp⟩ := ends_of_matchMask h (nil_append address).symm hplain
    obtain rfl := hp rfl
    exact .inr ⟨r, mem_cons_self, (hashText_congr hr).trans heq.symm⟩
  · obtain rfl | ⟨x, rfl⟩ := hhp
    · exact .inl heq
    · obtain ⟨p, r, rfl, hr, -⟩ := ends_of_matchMask h htext hv
      rw [map_append, map_cons] at hr
      obtain ⟨x', r', rfl, -, hr'⟩ := map_eq_append_iff.mp hr
      obtain ⟨d, hp', rfl, hd, hhp⟩ := map_eq_cons_iff.mp hr'
      obtain rfl := eq_dot_of_toLower hd
      refine .inr ⟨hp', ?_, (hashText_congr hhp).trans heq.symm⟩
      rw [← append_assoc]
      exact mem_domains _ _

end Ratbox.Hostmask
