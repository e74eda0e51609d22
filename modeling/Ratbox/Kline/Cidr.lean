import Ratbox.Banlist.Banned
import Ratbox.Budget
import Ratbox.Kline.Undo

/-!
# Networks for addresses with wildcards

`KLINE` writes a host like `10.20.*` as the network 10.20.0.0/16. The text is cut at its dots by
`rb_strtok_r`, which goes over empty labels, and no more than four labels are looked at. The numbers
may have zeros in front, which no address has when it is compared with a mask as a text.

Source: `modules/m_kline.c`, lines 453–574, `src/hostmask.c`, lines 44–110, and
`libratbox/src/ratbox_lib.c`, lines 253–288.

## Main definitions

* `Kline.expansion`: the pattern that a host stands for.
* `Kline.SameAddresses`: a network has the addresses that the pattern matches.
* `Kline.Regular`, `Kline.Wide`: a host is written as an address is; one of its numbers is none of
  an address.

## Main results

* `Kline.sameAddresses_iff`: the hosts for which the network has the same addresses.
-/

namespace Ratbox.Kline

open Text Address Match Glob List
open Patricia (compWithMask compWithMask_iff agree_mul_iff)
open Banlist (inetNtop4)

/-! ### Hosts and their networks -/

/-- The labels of a host, between its dots. -/
def labels (text : Str) : List Str := text.splitOn '.'

/-- The pattern of a host: splats stand for the labels that it lacks. -/
def expansion (text : Str) : Str :=
  ['.'].intercalate (labels text ++ replicate (4 - (labels text).length) ['*'])

/-- A mask is a network that has the address. -/
def InBlock (m : Str) (ip : Ip) : Prop :=
  ∃ dest bits, parseNetmask m = .ipv4 dest bits ∧ compWithMask ip.bytes dest.bytes bits.toNat = true

/-- The network has the addresses whose text the pattern matches. -/
def SameAddresses (text m : Str) : Prop :=
  ∀ ip : Ip, ip.family = .inet → ip.Valid → (InBlock m ip ↔ matchMask (expansion text)
    (inetNtop4 ip.add) = true)

/-- The numbers in front of the wildcards, which are written in the network. -/
def numbers (text : Str) : List Str := (pieces text).takeWhile isIpNumber

/-- One of the numbers is too great for an address. -/
def Wide (text : Str) : Prop := ∃ s ∈ numbers text, 255 < digits s

/-- There are at most four labels, and each is a splat, or a number as it is printed. -/
def Regular (text : Str) :
    Prop := (labels text).length ≤ 4 ∧ ∀ s ∈ labels text, s = ['*'] ∨ decimal (digits s) = s

instance (text : Str) : Decidable (Wide text) := inferInstanceAs (Decidable (∃ s ∈ _, _))

instance (text : Str) : Decidable (Regular text) := inferInstanceAs (Decidable (_ ∧ _))

/-- The network that is written for numbers. -/
def network (ns : List Str) : Str :=
  ['.'].intercalate (ns ++ replicate (4 - ns.length) ['0']) ++ '/' :: decimal (8 * ns.length : ℕ)

/-- What is known of a text for which a network is written. -/
structure Shape (text : Str) : Prop where
  pos : 0 < (numbers text).length
  le : (numbers text).length ≤ 3
  number : ∀ s ∈ numbers text, IsNumber s
  stars : ∀ i, (numbers text).length ≤ i → i < 4 → isOpen (pieces text)[i]? = true

section Shape

variable {text m : Str}

theorem takeWhile_numbers {ns rest : List Str} (hns : ∀ s ∈ ns, isIpNumber s = true)
    (hrest : isOpen rest.head? = true) :
    (ns ++ rest).takeWhile isIpNumber = ns := by
  have hnil : rest.takeWhile isIpNumber = [] := by
    cases rest with
    | nil => rfl
    | cons s rest =>
      have hs : s = ['*'] := by simpa [isOpen] using hrest
      rw [takeWhile_cons_of_neg (by rw [hs]; decide)]
  rw [takeWhile_append_of_pos hns, hnil, append_nil]

/-- The shape of a text whose pieces are numbers with splats behind them. -/
theorem Shape.of_pieces {ns rest : List Str} (hpieces : pieces text = ns ++ rest)
    (hpos : 0 < ns.length) (hle : ns.length ≤ 3) (hns : ∀ s ∈ ns, isIpNumber s = true)
    (hrest : ∀ i, i + ns.length < 4 → isOpen rest[i]? = true) :
    Shape text ∧ numbers text = ns := by
  have hnumbers : numbers text = ns := by
    rw [numbers, hpieces]
    exact takeWhile_numbers hns (head?_eq_getElem? ▸ hrest 0 (by omega))
  refine ⟨⟨hnumbers ▸ hpos, hnumbers ▸ hle, hnumbers ▸ fun s hs => ?_, hnumbers ▸ fun i hi hlt =>
    ?_⟩, hnumbers⟩
  · exact .of_mem (hpieces ▸ mem_append_left _ hs) (hns s hs)
  · rw [hpieces, getElem?_append_right hi]
    exact hrest _ (by omega)

/-- **The network that is written** is that of the numbers, with only splats behind them. -/
theorem mangle_shape (h : mangleWildcardToCidr text = some m) :
    Shape text ∧ m = network (numbers text) := by
  have hmissing (ps : List Str) (i j : ℕ) (hij : i ≤ j) (hi : ps[i]? = none) : isOpen ps[j]? =
      true := by
    rw [getElem?_eq_none_iff] at hi
    rw [getElem?_eq_none (by omega)]
    rfl
  rw [mangleWildcardToCidr] at h
  cases hpieces : pieces text with
  | nil => simp [hpieces] at h
  | cons a rest =>
    simp only [hpieces, getElem?_cons_zero, getElem?_cons_succ, Option.getD_some, reduceCtorEq,
      ↓reduceIte] at h
    split_ifs at h with hip1 h2 hip2 h3 hip3 h4
    all_goals
      obtain ⟨-, hip1⟩ : _ ∧ isIpNumber a = true := by simpa using hip1
      cases h
    · -- A single number.
      obtain ⟨hb, hcd⟩ := Bool.and_eq_true_iff.mp h2
      have hopen : ∀ i, i + [a].length < 4 → isOpen rest[i]? = true := by
        intro i hi
        have hlt : i < 3 := Nat.lt_of_add_lt_add_right hi
        rcases Bool.or_eq_true_iff.mp hcd with hc | hcd
        · have hc : rest[1]? = none := by simpa using hc
          interval_cases i
          · exact hb
          · exact hmissing rest 1 1 le_rfl hc
          · exact hmissing rest 1 2 (by decide) hc
        · obtain ⟨hc, hd⟩ := Bool.and_eq_true_iff.mp hcd
          interval_cases i
          · exact hb
          · rw [isOpen, hc, Bool.or_true]
          · exact hd
      have hsplit : pieces text = [a] ++ rest := hpieces
      obtain ⟨hshape, hnumbers⟩ := Shape.of_pieces hsplit (Nat.succ_pos _) (Nat.le_add_left 1 2)
        (forall_mem_singleton.mpr hip1) hopen
      exact ⟨hshape, by rw [hnumbers]; simp [network]; rfl⟩
    all_goals
      obtain ⟨b, rest, rfl⟩ : ∃ b rest', rest = b :: rest' := by
        cases rest with
        | nil => exact absurd rfl h2
        | cons b rest => exact ⟨b, rest, rfl⟩
      simp only [getElem?_cons_zero, getElem?_cons_succ, Option.getD_some, Bool.not_eq_true',
        Bool.not_eq_false] at h3 hip2 ⊢
    · -- Two numbers.
      obtain ⟨hc, hd⟩ := Bool.and_eq_true_iff.mp h3
      have hopen : ∀ i, i + [a, b].length < 4 → isOpen rest[i]? = true := by
        intro i hi
        have hlt : i < 2 := Nat.lt_of_add_lt_add_right hi
        interval_cases i
        · exact hc
        · exact hd
      have hsplit : pieces text = [a, b] ++ rest := hpieces
      obtain ⟨hshape, hnumbers⟩ := Shape.of_pieces hsplit (Nat.succ_pos _) (Nat.le_add_left 2 1)
        (forall_mem_cons.mpr ⟨hip1, forall_mem_singleton.mpr hip2⟩) hopen
      exact ⟨hshape, by rw [hnumbers]; simp [network]; rfl⟩
    · obtain ⟨c, rest, rfl⟩ : ∃ c rest', rest = c :: rest' := by
        cases rest with
        | nil => exact absurd rfl h3
        | cons c rest => exact ⟨c, rest, rfl⟩
      simp only [getElem?_cons_zero, getElem?_cons_succ, Option.getD_some, Bool.not_eq_true',
        Bool.not_eq_false] at h4 hip3 ⊢
      have hopen : ∀ i, i + [a, b, c].length < 4 → isOpen rest[i]? = true := by
        intro i hi
        obtain rfl : i = 0 := Nat.lt_one_iff.mp (Nat.lt_of_add_lt_add_right hi)
        exact h4
      have hsplit : pieces text = [a, b, c] ++ rest := hpieces
      obtain ⟨hshape, hnumbers⟩ := Shape.of_pieces hsplit (Nat.succ_pos _) le_rfl
        (forall_mem_cons.mpr ⟨hip1, forall_mem_cons.mpr ⟨hip2, forall_mem_singleton.mpr hip3⟩⟩)
          hopen
      exact ⟨hshape, by rw [hnumbers]; simp [network]; rfl⟩

end Shape

/-! ### Numbers of an address -/

section Octets

theorem digits_eq {s : Str} (hs : ∀ c ∈ s, isDigit c = true) :
    digits s = Nat.ofDigitChars 10 s 0 := by
  rw [digits, takeWhile_eq_self_iff.mpr hs, Nat.ofDigitChars_eq_foldl]

theorem le_ofDigitChars (s : Str) (n : ℕ) : n ≤ Nat.ofDigitChars 10 s n := by
  induction s generalizing n with
  | nil => rw [Nat.ofDigitChars_nil]
  | cons c s ih =>
    rw [Nat.ofDigitChars_cons]
    exact le_trans (by omega) (ih _)

/-- The loop of `inet_pton4` on more digits of a number. -/
theorem pton4Loop_more {s rest : Str} (hs : ∀ c ∈ s, isDigit c = true) {tp : ℕ} (htp : tp ≤ 255)
    (octets : ℕ) (done : List ℕ) :
    pton4Loop (s ++ rest) true octets done tp =
      if Nat.ofDigitChars 10 s tp ≤ 255 then
      pton4Loop rest true octets done (Nat.ofDigitChars 10 s tp) else none := by
  induction s generalizing tp with
  | nil => rw [Nat.ofDigitChars_nil, if_pos htp, nil_append]
  | cons c s ih =>
    obtain ⟨hc, hs⟩ := forall_mem_cons.mp hs
    rw [cons_append, pton4Loop, if_pos hc, Nat.ofDigitChars_cons, Nat.mul_comm 10 tp]
    simp only [↓reduceIte]
    by_cases hbig : 255 < tp * 10 + (c.toNat - '0'.toNat)
    · have hgrows := le_ofDigitChars s (tp * 10 + (c.toNat - '0'.toNat))
      rw [if_pos hbig, if_neg (by omega)]
    · rw [if_neg hbig, ih hs (by omega)]

/-- The loop of `inet_pton4` on a number. -/
theorem pton4Loop_number {s rest : Str} (hs : IsNumber s) {octets : ℕ} (hoctets : octets < 4)
    (done : List ℕ) :
    pton4Loop (s ++ rest) false octets done 0 =
      if digits s ≤ 255 then pton4Loop rest true (octets + 1) done (digits s) else none := by
  obtain ⟨hne, -, hdigits⟩ := hs
  rw [digits_eq hdigits]
  cases s with
  | nil => exact absurd rfl hne
  | cons c s =>
    obtain ⟨hc, hs⟩ := forall_mem_cons.mp hdigits
    have hlow : c.toNat - '0'.toNat ≤ 9 := by
      simp only [isDigit, Bool.and_eq_true, decide_eq_true_eq, Char.le_def,
        UInt32.le_iff_toNat_le] at hc
      have hhigh : c.toNat ≤ 57 := hc.2
      have hzero : '0'.toNat = 48 := rfl
      omega
    rw [cons_append, pton4Loop, if_pos hc, Nat.ofDigitChars_cons]
    simp only [Nat.zero_mul, Nat.mul_zero, Nat.zero_add, Bool.false_eq_true, ↓reduceIte]
    rw [if_neg (by omega), if_neg (by omega), pton4Loop_more hs (by omega)]

/-- The loop of `inet_pton4` on numbers with dots between them. -/
theorem pton4Loop_numbers {ls : List Str} (hne : ls ≠ []) (hls : ∀ s ∈ ls, IsNumber s) {octets : ℕ}
    (hoctets : octets + ls.length ≤ 4) (done : List ℕ) :
    pton4Loop (['.'].intercalate ls) false octets done 0 =
      if ∀ s ∈ ls, digits s ≤ 255 then
        if octets + ls.length < 4 then none
        else some ((done.reverse ++ ls.map digits).map UInt8.ofNat)
      else none := by
  induction ls generalizing octets done with
  | nil => exact absurd rfl hne
  | cons s ls ih =>
    obtain ⟨hs, hls⟩ := forall_mem_cons.mp hls
    rw [length_cons] at hoctets
    by_cases hbig : digits s ≤ 255
    · simp only [forall_mem_cons, hbig, true_and]
      cases ls with
      | nil =>
        rw [intercalate_singleton, ← append_nil s, pton4Loop_number hs (by omega), if_pos hbig,
          pton4Loop, append_nil]
        simp
      | cons s' ls =>
        have hmore : octets + 1 < 4 := by
          rw [length_cons] at hoctets
          omega
        rw [intercalate_cons_cons, append_assoc, pton4Loop_number hs (by omega), if_pos hbig,
          cons_append, nil_append, pton4Loop, if_neg (by decide), if_pos ⟨rfl, rfl⟩,
            if_neg (by omega),
          ih (cons_ne_nil _ _) hls (by omega)]
        simp [Nat.add_assoc, Nat.add_comm 1]
    · have hnot : ¬∀ s' ∈ s :: ls, digits s' ≤ 255 := fun h => hbig (h s mem_cons_self)
      rw [if_neg hnot]
      cases ls with
      | nil => rw [intercalate_singleton, ← append_nil s, pton4Loop_number hs (by omega),
        if_neg hbig]
      | cons s' ls =>
        rw [intercalate_cons_cons, append_assoc, pton4Loop_number hs (by omega), if_neg hbig]

end Octets

/-! ### The addresses of the network -/

section Network

variable {ns : List Str}

/-- The numbers of the network, with the zeros behind them. -/
theorem isNumber_filled (hns : ∀ s ∈ ns, IsNumber s) :
    ∀ s ∈ ns ++ replicate (4 - ns.length) ['0'], IsNumber s :=
  forall_mem_append.mpr ⟨hns, fun _ hs => (eq_of_mem_replicate hs) ▸ .zero⟩

theorem notMem_intercalate {ls : List Str} (hls : ∀ s ∈ ls, IsNumber s) {c : Char} (hdot : c ≠ '.')
    (hc : isDigit c = false) :
    c ∉ ['.'].intercalate ls := by
  induction ls with
  | nil => simp
  | cons s ls ih =>
    obtain ⟨hs, hls⟩ := forall_mem_cons.mp hls
    cases ls with
    | nil =>
      rw [intercalate_singleton]
      exact hs.notMem hc
    | cons s' ls =>
      rw [intercalate_cons_cons, mem_append, mem_append, mem_singleton, not_or, not_or]
      exact ⟨⟨hs.notMem hc, hdot⟩, ih hls⟩

/-- What is read of the network. -/
theorem parseNetmask_network (hpos : 0 < ns.length) (hle : ns.length ≤ 3)
    (hns : ∀ s ∈ ns, IsNumber s) :
    parseNetmask (network ns) =
      if ∀ s ∈ ns, digits s ≤ 255 then
        .ipv4 ⟨.inet, (ns.map digits ++ replicate (4 - ns.length) 0).map UInt8.ofNat⟩
        (8 * ns.length : ℕ)
      else .host := by
  have hfilled := isNumber_filled hns
  have hbits : ∀ c ∈ decimal (8 * ns.length : ℕ), isDigit c = true :=
    fun c hc => isDigit_of_mem_toDigits hc
  have hnot {c : Char} (hdot : c ≠ '.') (hslash : c ≠ '/') (hc : isDigit c = false) :
      c ∉ network ns := by
    rw [network, mem_append, mem_cons, not_or, not_or]
    exact ⟨notMem_intercalate hfilled hdot hc, hslash, fun hmem => absurd (hbits c hmem)
      (by simp [hc])⟩
  have hdot : '.' ∈ network ns := by
    cases ns with
    | nil => simp at hpos
    | cons s ns =>
      have hrest : ns ++ replicate (4 - (s :: ns).length) ['0'] ≠ [] := by
        rw [ne_eq, append_eq_nil_iff, replicate_eq_nil_iff]
        omega
      rw [network, cons_append, intercalate_cons_of_ne_nil hrest]
      simp
  have hsplit : splitBits (network ns) 32 =
      (['.'].intercalate (ns ++ replicate (4 - ns.length) ['0']), ((8 * ns.length : ℕ) : ℤ)) := by
    have hslash : ∀ c ∈ ['.'].intercalate (ns ++ replicate (4 - ns.length) ['0']),
        (c != '/') = true := fun c hc => by
      simp only [bne_iff_ne, ne_eq]
      rintro rfl
      exact notMem_intercalate hfilled (by decide) (by decide) hc
    have hread : atoi (decimal (8 * ns.length : ℕ)) = (8 * ns.length : ℕ) := atoi_decimal (by omega)
    rw [splitBits, if_pos (by simp [network]), network, takeWhile_append_of_pos hslash,
      dropWhile_append_of_pos hslash, takeWhile_cons_of_neg (by simp), dropWhile_cons_of_neg
        (by simp), drop_one, tail_cons, hread,
      append_nil, min_eq_right (by omega)]
  have hlen : (ns ++ replicate (4 - ns.length) ['0']).length = 4 := by
    rw [length_append, length_replicate]
    omega
  have hzero : digits ['0'] = 0 := rfl
  have hall : (∀ s ∈ ns ++ replicate (4 - ns.length) ['0'], digits s ≤ 255) ↔
      ∀ s ∈ ns, digits s ≤ 255 := by
    rw [forall_mem_append]
    exact and_iff_left fun s hs => by rw [eq_of_mem_replicate hs, hzero]; exact Nat.zero_le _
  have hpton : pton4 (['.'].intercalate (ns ++ replicate (4 - ns.length) ['0'])) =
      if ∀ s ∈ ns, digits s ≤ 255 then some ((ns.map digits ++ replicate (4 - ns.length) 0).map
          UInt8.ofNat) else none := by
    have hne : ns ++ replicate (4 - ns.length) ['0'] ≠ [] := ne_nil_of_length_pos (by omega)
    rw [pton4, pton4Loop_numbers hne hfilled (by omega)]
    simp only [hall, hlen, Nat.zero_add, lt_irrefl, ↓reduceIte, reverse_nil, nil_append, map_append,
      map_replicate, hzero]
  have hcolon : ':' ∉ ['.'].intercalate (ns ++ replicate (4 - ns.length) ['0']) :=
    notMem_intercalate hfilled (by decide) (by decide)
  rw [parseNetmask, if_neg (not_or.mpr ⟨hnot (by decide) (by decide) (by decide), hnot (by decide)
    (by decide) (by decide)⟩), if_neg (hnot (by decide) (by decide) (by decide)), if_pos hdot,
      hsplit]
  dsimp only
  rw [inetPtonSock, inetPton, hpton]
  split_ifs with hle255
  · rfl
  · have hnone : pton4 (['.'].intercalate (ns ++ replicate (4 - ns.length) ['0'])) = none := by
      rw [hpton, if_neg hle255]
    dsimp only
    rw [inetPton, hnone, pton6_of_no_colon hcolon hnone]
    rfl

theorem take_eq_iff {α : Type*} (d : α) {us a : List α} (h : us.length ≤ a.length) (vs : List α) :
    a.take us.length = us ↔ ∀ i < us.length, a.getD i d = (us ++ vs).getD i d := by
  induction us generalizing a with
  | nil => simp
  | cons u us ih =>
    cases a with
    | nil => simp at h
    | cons x a =>
      rw [length_cons, length_cons] at h
      rw [length_cons, take_succ_cons, cons.injEq, ih (by omega), Nat.forall_lt_succ_left]
      rfl

/-- **The addresses of the network** begin with its numbers, where these are not too great. -/
theorem inBlock_network (hpos : 0 < ns.length) (hle : ns.length ≤ 3) (hns : ∀ s ∈ ns, IsNumber s)
    {ip : Ip} (hip : ip.add.length = 4) : InBlock (network ns) ip ↔
      (∀ s ∈ ns, digits s ≤ 255) ∧ ip.add.take ns.length = ns.map fun s => UInt8.ofNat
      (digits s) := by
  have hmap : ns.map (fun s => UInt8.ofNat (digits s)) = (ns.map digits).map UInt8.ofNat := by
    rw [map_map]
    rfl
  have hbits : ((8 * ns.length : ℕ) : ℤ).toNat = ns.length * 8 := by
    rw [Int.toNat_natCast, Nat.mul_comm]
  have hshort : ((ns.map digits).map UInt8.ofNat).length ≤ ip.add.length := by
    simp
    omega
  have htake := take_eq_iff 0 hshort (replicate (4 - ns.length) (UInt8.ofNat 0))
  rw [length_map, length_map] at htake
  rw [InBlock, parseNetmask_network hpos hle hns, hmap, htake]
  split_ifs with hall
  · rw [and_iff_right hall]
    constructor
    · rintro ⟨dest, bits, heq, hcomp⟩
      obtain ⟨rfl, rfl⟩ := Netmask.ipv4.inj heq
      rw [hbits, compWithMask_iff, agree_mul_iff, map_append, map_replicate] at hcomp
      exact hcomp
    · intro h
      refine ⟨_, _, rfl, ?_⟩
      rw [hbits, compWithMask_iff, agree_mul_iff, map_append, map_replicate]
      exact h
  · simp [hall]

end Network

/-! ### The addresses that the pattern matches -/

section Pattern

variable {text : Str} {ip : Ip}

theorem toLower_of_isDigit {c : Char} (h : isDigit c = true) : toLower c = c := by
  rw [toLower, if_neg]
  rintro ⟨hA, -⟩
  simp only [isDigit, Bool.and_eq_true, decide_eq_true_eq] at h
  exact absurd (Char.le_trans hA h.2) (by decide)

/-- Digits are only compared with digits. -/
theorem standsFor_digits {s t : Str} (hs : ∀ c ∈ s, isDigit c = true)
    (ht : ∀ c ∈ t, isDigit c = true) :
    StandsFor s t ↔ s = t := by
  induction s generalizing t with
  | nil => exact nil_iff.trans eq_comm
  | cons c s ih =>
    obtain ⟨hc, hs⟩ := forall_mem_cons.mp hs
    have hstar : c ≠ '*' := by
      rintro rfl
      cases hc
    have hquestion : c ≠ '?' := by
      rintro rfl
      cases hc
    cases t with
    | nil => exact iff_of_false (not_cons_nil hstar) (by simp)
    | cons d t =>
      obtain ⟨hd, ht⟩ := forall_mem_cons.mp ht
      rw [StandsFor, cons_iff hstar, Takes, toLower_of_isDigit hc, toLower_of_isDigit hd,
        or_iff_left hquestion]
      exact (and_congr_right fun _ => ih hs ht).trans cons_eq_cons.symm

/-- A dot is only compared with a dot. -/
theorem takes_dot (d : Char) : Takes '.' d ↔ d = '.' := by
  have hdot : toLower '.' = '.' := by decide
  rw [Takes, hdot, or_iff_left (by decide)]
  constructor
  · exact fun h => Hostmask.eq_dot_of_toLower h.symm
  · rintro rfl
    exact hdot.symm

/-- The numbers of an address as texts. -/
def octets (ip : Ip) : List Str := ip.add.map fun b => decimal b.toNat

theorem isDigit_of_mem_octets : ∀ t ∈ octets ip, ∀ c ∈ t, isDigit c = true := by
  intro t ht c hc
  obtain ⟨b, -, rfl⟩ := mem_map.mp ht
  exact isDigit_of_mem_toDigits hc

theorem length_of_mem_octets : ∀ t ∈ octets ip, t.length ≤ 3 := by
  intro t ht
  obtain ⟨b, -, rfl⟩ := mem_map.mp ht
  exact (Nat.length_toDigits_le_iff (by decide) (by decide)).mpr (by have hlt := b.toNat_lt; omega)

theorem splitOn_inetNtop4 (hip : ip.add.length = 4) :
    (inetNtop4 ip.add).splitOn '.' = octets ip := by
  have hne : octets ip ≠ [] := by
    intro h
    have hlen := congrArg length h
    rw [octets, length_map, hip] at hlen
    cases hlen
  exact splitOn_intercalate '.' (fun t ht hdot => absurd (isDigit_of_mem_octets t ht '.' hdot)
    (by decide)) hne

theorem splitOn_expansion (text : Str) :
    (expansion text).splitOn '.' = labels text ++ replicate (4 - (labels text).length) ['*'] := by
  refine splitOn_intercalate '.' (forall_mem_append.mpr ⟨not_mem_splitOnP '.' text, ?_⟩) ?_
  · intro s hs
    rw [eq_of_mem_replicate hs]
    decide
  · exact fun h => splitOn_ne_nil '.' text (append_eq_nil_iff.mp h).1

theorem length_intercalate_le {ls : List Str} {n : ℕ} (h : ∀ s ∈ ls, s.length ≤ n) (c : Char) :
    ([c].intercalate ls).length ≤ ls.length * (n + 1) := by
  induction ls with
  | nil => simp
  | cons s ls ih =>
    obtain ⟨hs, hls⟩ := forall_mem_cons.mp h
    have ih := ih hls
    rw [length_cons, Nat.succ_mul]
    cases ls with
    | nil =>
      rw [intercalate_singleton]
      omega
    | cons s' ls =>
      rw [intercalate_cons_cons, length_append, length_append, length_singleton]
      omega

theorem exists_of_forall₂ {α β : Type*} {R : α → β → Prop} {as : List α} {bs : List β}
    (h : Forall₂ R as bs) {a : α} (ha : a ∈ as) : ∃ b ∈ bs, R a b := by
  obtain ⟨i, hi, rfl⟩ := getElem_of_mem ha
  have hi' : i < bs.length := h.length_eq ▸ hi
  exact ⟨bs[i], getElem_mem hi', h.get hi hi'⟩

/-- Numbers with splats behind them stand for the texts that begin with the numbers. -/
theorem forall₂_numbers {ns ts : List Str} {n : ℕ} (hns : ∀ s ∈ ns, ∀ c ∈ s, isDigit c = true)
    (hts : ∀ t ∈ ts, ∀ c ∈ t, isDigit c = true) (hlen : ts.length = ns.length + n) :
    Forall₂ StandsFor (ns ++ replicate n ['*']) ts ↔ ts.take ns.length = ns := by
  induction ns generalizing ts with
  | nil =>
    refine iff_of_true (forall₂_iff_get.mpr ⟨by simpa using hlen.symm, fun i hi hi' => ?_⟩) rfl
    have hstar : ([] ++ replicate n ['*']).get ⟨i, hi⟩ = ['*'] := by simp
    rw [hstar]
    exact stands_star _
  | cons s ns ih =>
    obtain ⟨hs, hns⟩ := forall_mem_cons.mp hns
    cases ts with
    | nil => simp at hlen; omega
    | cons t ts =>
      obtain ⟨ht, hts⟩ := forall_mem_cons.mp hts
      rw [length_cons, length_cons, Nat.add_right_comm] at hlen
      rw [cons_append, forall₂_cons, standsFor_digits hs ht, ih hns hts (Nat.succ_injective hlen),
        length_cons, take_succ_cons, cons.injEq, eq_comm]

/-- Where there are not more than four labels, each is empty, a splat, or one of the numbers. -/
theorem Shape.label (h : Shape text) (hle : (labels text).length ≤ 4) :
    ∀ s ∈ labels text, s = [] ∨ s = ['*'] ∨ s ∈ numbers text := by
  intro s hs
  by_cases hne : s = []
  · exact .inl hne
  have hmem : s ∈ pieces text := mem_filter.mpr ⟨hs, by simpa using hne⟩
  obtain ⟨i, hi, rfl⟩ := getElem_of_mem hmem
  have hlt : i < 4 := hi.trans_le ((length_filter_le _ _).trans hle)
  refine .inr ?_
  by_cases hnumber : i < (numbers text).length
  · have hprefix : numbers text <+: pieces text := takeWhile_prefix _
    rw [← hprefix.getElem hnumber]
    exact .inr (getElem_mem hnumber)
  · have hopen := h.stars i (by omega) hlt
    rw [getElem?_eq_getElem hi] at hopen
    exact .inl (by simpa [isOpen] using hopen)

/-- **What the pattern matches**: an address whose numbers the labels stand for. -/
theorem Shape.matchMask_iff (h : Shape text) (hip : ip.add.length = 4) :
    matchMask (expansion text) (inetNtop4 ip.add) = true ↔ (labels text).length ≤ 4 ∧
      Forall₂ StandsFor (labels text ++ replicate (4 - (labels text).length) ['*'])
      (octets ip) := by
  have hname := splitOn_inetNtop4 hip
  have hoctets : (octets ip).length = 4 := by rw [octets, length_map, hip]
  rw [matchMask_iff_turns]
  by_cases hle : (labels text).length ≤ 4
  · have hpattern := splitOn_expansion text
    have hfour : (labels text ++ replicate (4 - (labels text).length) ['*']).length = 4 := by
      rw [length_append, length_replicate]
      omega
    have hshort : ∀ s ∈ labels text ++ replicate (4 - (labels text).length) ['*'], s.length ≤
        3 := by
      refine forall_mem_append.mpr ⟨fun s hs => ?_,
        fun s hs => by rw [eq_of_mem_replicate hs]; decide⟩
      rcases h.label hle s hs with rfl | rfl | hs
      · decide
      · decide
      · exact (h.number s hs).length
    have hmask : (expansion text).length ≤ 4 * (3 + 1) := hfour ▸ length_intercalate_le hshort '.'
    have hname' : (inetNtop4 ip.add).length ≤ 4 * (3 + 1) :=
      hoctets ▸ length_intercalate_le length_of_mem_octets '.'
    have hturns : turnsOf (expansion text) (inetNtop4 ip.add) ≤ 512 :=
      (turnsOf_le _ _).trans (Nat.mul_le_mul (Nat.add_le_add_right hmask 1)
        (Nat.add_le_add_right hname' 1) |>.trans (by decide))
    rw [and_iff_left hturns, and_iff_right hle, StandsFor,
      stands_iff_splitOn (by decide) takes_dot (by rw [hpattern, hname, hfour, hoctets]), hpattern,
        hname]
  · refine iff_of_false (fun hmatch => hle ?_) fun hmatch => hle hmatch.1
    have hcount := hmatch.1.count_le (by decide) fun d => (takes_dot d).mp
    have htext : expansion text = text := by
      rw [expansion, show 4 - (labels text).length = 0 by omega, replicate_zero, append_nil]
      exact intercalate_splitOn '.'
    have hlen := length_splitOn '.' text
    have hlen' := length_splitOn '.' (inetNtop4 ip.add)
    rw [hname, hoctets] at hlen'
    rw [htext] at hcount
    rw [labels]
    omega

/-- A text whose pattern matches an address is written as an address is. -/
theorem Shape.regular (h : Shape text) (hip : ip.add.length = 4)
    (hmatch : matchMask (expansion text) (inetNtop4 ip.add) = true) : Regular text := by
  obtain ⟨hle, hlabels⟩ := (h.matchMask_iff hip).mp hmatch
  refine ⟨hle, fun s hs => ?_⟩
  obtain ⟨t, ht, hst⟩ := exists_of_forall₂ hlabels (mem_append_left _ hs)
  obtain ⟨b, -, rfl⟩ := mem_map.mp ht
  rcases h.label hle s hs with rfl | rfl | hs
  · exact absurd (nil_iff.mp hst) (toDigits_ne_nil _)
  · exact .inl rfl
  · obtain rfl := (standsFor_digits (h.number s hs).digits (isDigit_of_mem_octets _ ht)).mp hst
    have hread : digits (decimal b.toNat) = b.toNat := digits_toDigits _
    exact .inr (by rw [hread])

/-- The labels of a text that is written as an address is. -/
theorem Shape.labels_eq (h : Shape text) (hregular : Regular text) :
    labels text = numbers text ++ replicate ((labels text).length - (numbers text).length)
    ['*'] := by
  have hpieces : pieces text = labels text := by
    refine filter_eq_self.mpr fun s hs => ?_
    rcases hregular.2 s hs with rfl | heq
    · rfl
    · have hne : decimal (digits s) ≠ [] := toDigits_ne_nil _
      rw [heq] at hne
      simpa using hne
  have hsplit : numbers text ++ (labels text).dropWhile isIpNumber = labels text := by
    rw [numbers, hpieces, takeWhile_append_dropWhile]
  have hlen := congrArg length hsplit
  rw [length_append] at hlen
  have hstars : (labels text).dropWhile isIpNumber =
      replicate ((labels text).length - (numbers text).length) ['*'] := by
    refine eq_replicate_iff.mpr ⟨by omega, fun s hs => ?_⟩
    obtain ⟨i, hi, rfl⟩ := getElem_of_mem hs
    have hle := hregular.1
    have hopen := h.stars ((numbers text).length + i) (by omega) (by omega)
    rw [hpieces, ← hsplit, getElem?_append_right (by omega), Nat.add_sub_cancel_left,
      getElem?_eq_getElem hi] at hopen
    simpa [isOpen] using hopen
  rw [← hstars, hsplit]

/-- **What the pattern matches**, where the text is written as an address is: the addresses that
begin with its numbers. -/
theorem Shape.matchMask_iff_take (h : Shape text) (hregular : Regular text)
    (hip : ip.add.length = 4) :
    matchMask (expansion text) (inetNtop4 ip.add) = true ↔ (octets ip).take (numbers text).length =
    numbers text := by
  have hle := hregular.1
  have hle' := h.le
  have hsub : (numbers text).length ≤ (labels text).length := by
    rw [h.labels_eq hregular, length_append]
    omega
  have hpattern : labels text ++ replicate (4 - (labels text).length) ['*'] =
      numbers text ++ replicate (4 - (numbers text).length) ['*'] := by
    rw [h.labels_eq hregular, append_assoc, replicate_append_replicate, length_append,
      length_replicate]
    congr 2
    omega
  have hoctets : (octets ip).length = (numbers text).length + (4 - (numbers text).length) := by
    rw [octets, length_map, hip]
    omega
  rw [h.matchMask_iff hip, and_iff_right hle, hpattern]
  exact forall₂_numbers (fun s hs => (h.number s hs).digits) isDigit_of_mem_octets hoctets

/-- The numbers of an address are not too great. -/
theorem digits_le_of_take {ns : List Str} (h : (octets ip).take ns.length = ns) :
    ∀ s ∈ ns, digits s ≤ 255 := by
  intro s hs
  rw [← h] at hs
  obtain ⟨b, -, rfl⟩ := mem_map.mp (mem_of_mem_take hs)
  have hread : digits (decimal b.toNat) = b.toNat := digits_toDigits _
  have hlt := b.toNat_lt
  omega

end Pattern

/-! ### When the addresses are the same -/

/-- **The hosts for which the network has the same addresses**: those that are written as an address
is, and those with a number that is too great, for which there are no addresses. -/
theorem sameAddresses_iff {text m : Str} (h : mangleWildcardToCidr text = some m) :
    SameAddresses text m ↔ Wide text ∨ Regular text := by
  obtain ⟨hshape, rfl⟩ := mangle_shape h
  have hvalid : ∀ ip : Ip, ip.family = .inet → ip.Valid → ip.add.length = 4 := by
    intro ip hfamily hip
    rw [Ip.Valid, hfamily] at hip
    have hbits : Family.inet.bits = 32 := rfl
    omega
  constructor
  · -- The first address of the network is told from all others by its text.
    intro hsame
    by_contra hnot
    obtain ⟨hwide, hregular⟩ := not_or.mp hnot
    have hall : ∀ s ∈ numbers text, digits s ≤ 255 :=
      fun s hs => not_lt.mp fun hlt => hwide ⟨s, hs, hlt⟩
    have hle := hshape.le
    set ip : Ip := ⟨.inet, (numbers text).map (fun s => UInt8.ofNat (digits s)) ++
      replicate (4 - (numbers text).length) 0⟩
    have hlen : ip.add.length = 4 := by
      rw [length_append, length_map, length_replicate]
      omega
    have hblock := (inBlock_network hshape.pos hshape.le hshape.number
      hlen).mpr ⟨hall, take_left' (length_map _)⟩
    exact hregular (hshape.regular hlen ((hsame _ rfl (by rw [Ip.Valid, hlen]; rfl)).mp hblock))
  · intro hcases ip hfamily hip
    have hfour := hvalid ip hfamily hip
    rw [inBlock_network hshape.pos hshape.le hshape.number hfour]
    rcases hcases with ⟨s, hs, hbig⟩ | hregular
    · refine iff_of_false (fun hblock => absurd (hblock.1 s hs) (by omega)) fun hmatch => ?_
      have htake := (hshape.matchMask_iff_take (hshape.regular hfour hmatch) hfour).mp hmatch
      exact absurd (digits_le_of_take htake s hs) (by omega)
    · rw [hshape.matchMask_iff_take hregular hfour]
      refine ⟨fun hblock => ?_, fun htake => ⟨digits_le_of_take htake, ?_⟩⟩
      · rw [octets, ← map_take, hblock.2, map_map]
        refine (map_congr_left fun s hs => ?_).trans (map_id _)
        have hlow := hblock.1 s hs
        have hmem : s ∈ labels text := by
          rw [hshape.labels_eq hregular]
          exact mem_append_left _ hs
        have hprinted := (hregular.2 s hmem).resolve_left (hshape.number s hs).ne_splat
        have hbyte : (UInt8.ofNat (digits s)).toNat = digits s :=
          UInt8.toNat_ofNat_of_lt (Nat.lt_succ_of_le hlow)
        exact (congrArg (fun n : ℕ => decimal n) hbyte).trans hprinted
      · conv_rhs => rw [← htake]
        rw [octets, ← map_take, map_map]
        refine ((map_congr_left fun b _ => ?_).trans (map_id _)).symm
        have hread : digits (decimal b.toNat) = b.toNat := digits_toDigits _
        exact (congrArg UInt8.ofNat hread).trans (UInt8.ofNat_toNat)

theorem sameAddresses_two : SameAddresses "10.20.*".toList "10.20.0.0/16".toList ↔
    Wide "10.20.*".toList ∨ Regular "10.20.*".toList :=
  sameAddresses_iff (by decide)

/-- A number with a zero in front, a fifth label, and an empty one: the network has the address
10.0.0.0, which the pattern does not match. -/
theorem not_sameAddresses :
    (mangleWildcardToCidr "010.*".toList = some "010.0.0.0/8".toList ∧
      ¬SameAddresses "010.*".toList "010.0.0.0/8".toList) ∧
    (mangleWildcardToCidr "10.*.*.*.foo".toList = some "10.0.0.0/8".toList ∧
      ¬SameAddresses "10.*.*.*.foo".toList "10.0.0.0/8".toList) ∧
    mangleWildcardToCidr "10..*".toList = some "10.0.0.0/8".toList ∧
      ¬SameAddresses "10..*".toList "10.0.0.0/8".toList := by
  have hnot : ∀ text m : Str, InBlock m ⟨.inet, [10, 0, 0, 0]⟩ →
      matchMask (expansion text) (inetNtop4 [10, 0, 0, 0]) = false → ¬SameAddresses text m := by
    intro text m hblock hmatch hsame
    have hmatched := (hsame ⟨.inet, [10, 0, 0, 0]⟩ rfl rfl).mp hblock
    cases hmatch.symm.trans hmatched
  have hten : InBlock "10.0.0.0/8".toList ⟨.inet, [10, 0, 0, 0]⟩ :=
    ⟨⟨.inet, [10, 0, 0, 0]⟩, 8, by decide, by decide⟩
  have hzero : InBlock "010.0.0.0/8".toList ⟨.inet, [10, 0, 0, 0]⟩ :=
    ⟨⟨.inet, [10, 0, 0, 0]⟩, 8, by decide, by decide⟩
  exact ⟨⟨by decide +kernel, hnot _ _ hzero (by decide +kernel)⟩,
    ⟨by decide +kernel, hnot _ _ hten (by decide +kernel)⟩,
    by decide +kernel, hnot _ _ hten (by decide +kernel)⟩

end Ratbox.Kline
