import Ratbox.Text
import Mathlib.Data.List.Range

/-!
# Fingerprints of certificates

After the handshake with a client ssld sends its server the fingerprint of the certificate, in
binary, in a message that begins with `F` and the number of the connection. The server keeps it as
hexadecimal text.

Source: `ssld/ssld.c`, lines 151–164 and 688–698, and `src/sslproc.c`, lines 78–91, 315–327, 354–382
and 506–540.

## Main definitions

* `Ssld.sslSendCertfp`: `ssl_send_certfp`.
* `Ssld.Received`: a message in the buffer of the server.
* `Ssld.sslProcessCertfp`: `ssl_process_certfp`, with the offsets of the buffer that it reads.

## Main results

* `Ssld.hexString_injective`: the text determines the fingerprint.
* `Ssld.certfp_iff`: the messages that are dealt with as they should be.

## Implementation notes

`RB_SSL_CERTFP_LEN` and `rb_ssl_get_certfp` are not in the repository: the number of bytes of a
fingerprint is a parameter, which is positive, and such that a message fits the buffer. The bytes of
a number are those of a little-endian machine, which both programs run on.
-/

namespace Ratbox.Ssld

open Text List Option

/-! ### Bytes -/

/-- `uint32_to_buf`. -/
def uint32ToBuf (x : UInt32) : List UInt8 :=
  [UInt8.ofNat x.toNat, UInt8.ofNat (x.toNat / 2 ^ 8), UInt8.ofNat (x.toNat / 2 ^ 16),
    UInt8.ofNat (x.toNat / 2 ^ 24)]

/-- `buf_to_uint32`. -/
def bufToUint32 (b₀ b₁ b₂ b₃ : UInt8) : UInt32 :=
  UInt32.ofNat (b₀.toNat + 2 ^ 8 * b₁.toNat + 2 ^ 16 * b₂.toNat + 2 ^ 24 * b₃.toNat)

/-- The number that is written is read. -/
theorem bufToUint32_uint32ToBuf (x : UInt32) : bufToUint32 (UInt8.ofNat x.toNat)
    (UInt8.ofNat (x.toNat / 2 ^ 8)) (UInt8.ofNat (x.toNat / 2 ^ 16))
    (UInt8.ofNat (x.toNat / 2 ^ 24)) = x := by
  have hx := x.toNat_lt
  rw [bufToUint32, ← UInt32.toNat_inj]
  simp only [UInt8.toNat_ofNat', UInt32.toNat_ofNat']
  omega

/-- A digit of `%x`. -/
def xdigit (n : ℕ) : Char := "0123456789abcdef".toList.getD n '0'

/-- `%02x`. -/
def hexByte (b : UInt8) : Str := [xdigit (b.toNat / 16), xdigit (b.toNat % 16)]

/-- The bytes in hexadecimal. -/
def hexString (bytes : List UInt8) : Str := bytes.flatMap hexByte

theorem xdigit_inj : ∀ m < 16, ∀ n < 16, xdigit m = xdigit n → m = n := by decide

theorem hexByte_inj {a b : UInt8} (h : hexByte a = hexByte b) : a = b := by
  obtain ⟨hdiv, hmod⟩ : xdigit (a.toNat / 16) = xdigit (b.toNat / 16) ∧
      xdigit (a.toNat % 16) = xdigit (b.toNat % 16) := by
    simpa [hexByte] using h
  have ha := a.toNat_lt
  have hb := b.toNat_lt
  have hdiv := xdigit_inj _ (by omega) _ (by omega) hdiv
  have hmod := xdigit_inj _ (Nat.mod_lt _ (by omega)) _ (Nat.mod_lt _ (by omega)) hmod
  exact UInt8.toNat_inj.mp (by omega)

/-- **The text determines the bytes.** -/
theorem hexString_injective {as bs : List UInt8} (h : hexString as = hexString bs) : as = bs := by
  induction as generalizing bs with
  | nil =>
    cases bs with
    | nil => rfl
    | cons b bs => exact absurd h (by simp [hexString, hexByte])
  | cons a as ih =>
    cases bs with
    | nil => exact absurd h (by simp [hexString, hexByte])
    | cons b bs =>
      obtain ⟨hbyte, hrest⟩ := append_inj (show hexByte a ++ hexString as = hexByte b ++
        hexString bs from h) rfl
      rw [hexByte_inj hbyte, ih hrest]

/-! ### The two programs -/

/-- `READSIZE`. -/
def readSize : ℕ := 1024

/-- A message that the server received. Its buffer was all zero. -/
structure Received where
  bytes : List UInt8
  length_pos : 0 < bytes.length
  length_le : bytes.length ≤ readSize

/-- A byte of the buffer. -/
def Received.at (m : Received) (i : ℕ) : UInt8 := m.bytes.getD i 0

/-- The number of the connection. -/
def Received.connid (m : Received) : UInt32 := bufToUint32 (m.at 1) (m.at 2) (m.at 3) (m.at 4)

/-- The clients by `HASH_CONNID` and by `HASH_ZCONNID`, and their fingerprints. -/
structure State where
  connid : UInt32 → Option ℕ
  zconnid : UInt32 → Option ℕ
  certfp : ℕ → Option Str

/-- `find_cli_connid_hash`. -/
def State.findCliConnidHash (s : State) (connid : UInt32) : Option ℕ :=
  match s.connid connid with
  | some target_p => some target_p
  | none => s.zconnid connid

/-- What `ssl_process_certfp` does: the offsets that it reads, and the client for which it stores a
text. -/
structure Processed where
  reads : List ℕ
  stored : Option (ℕ × Str)
  deriving DecidableEq

/-- `ssl_process_certfp`, with `RB_SSL_CERTFP_LEN`. -/
def sslProcessCertfp (certfpLen : ℕ) (s : State) (m : Received) : Processed :=
  if m.bytes.length < 6 then ⟨[], none⟩
  else if m.at 5 = 0 then ⟨[1, 2, 3, 4, 5], none⟩
  else
    match s.findCliConnidHash m.connid with
    | none => ⟨[1, 2, 3, 4, 5], none⟩
    | some client_p =>
      ⟨[1, 2, 3, 4, 5] ++ range' 5 certfpLen,
        some (client_p, hexString ((range' 5 certfpLen).map m.at))⟩

/-- `ssl_send_certfp`. -/
def sslSendCertfp (id : UInt32) (certfp : List UInt8) : List UInt8 :=
  70 :: (uint32ToBuf id ++ certfp)

/-! ### What should be stored -/

/-- **A message is dealt with as it should be**: one with a fingerprint is stored for the client, if
there is one; of any other one nothing is stored, and nothing behind its end is read. -/
def Right (certfpLen : ℕ) (s : State) (m : Received) : Prop :=
  if m.bytes.length = 5 + certfpLen then
    (sslProcessCertfp certfpLen s m).stored =
      (s.findCliConnidHash m.connid).map fun client_p => (client_p, hexString (m.bytes.drop 5))
  else (∀ i ∈ (sslProcessCertfp certfpLen s m).reads, i < m.bytes.length) ∧
    (sslProcessCertfp certfpLen s m).stored = none

/-- A fingerprint does not begin with a zero byte; a message that has none is short, or what is at
the place of the first byte is zero. Else there is no client. -/
def Plain (certfpLen : ℕ) (s : State) (m : Received) : Prop :=
  s.findCliConnidHash m.connid = none ∨
    if m.bytes.length = 5 + certfpLen then m.at 5 ≠ 0 else m.bytes.length < 6 ∨ m.at 5 = 0

section Certfp

variable {certfpLen : ℕ} {s : State} {m m' : Received} {client_p client_p' : ℕ} {t : Str}

/-- The bytes of the fingerprint. -/
theorem map_at (h : m.bytes.length = 5 + certfpLen) :
    (range' 5 certfpLen).map m.at = m.bytes.drop 5 := by
  refine ext_getElem (by simp [h]) fun i hi _ => ?_
  rw [length_map, length_range'] at hi
  rw [getElem_map, getElem_range', Nat.one_mul, getElem_drop, Received.at,
    getD_eq_getElem?_getD, getElem?_eq_getElem (by omega), getD_some]

/-- **The messages that are dealt with as they should be.** -/
theorem right_iff (hpos : 0 < certfpLen) : Right certfpLen s m ↔ Plain certfpLen s m := by
  rw [Right, Plain, sslProcessCertfp]
  by_cases hlen : m.bytes.length = 5 + certfpLen
  · rw [if_pos hlen, if_pos hlen, if_neg (by omega)]
    by_cases hzero : m.at 5 = 0
    · rw [if_pos hzero, eq_comm, map_eq_none_iff]
      exact (or_iff_left (not_not_intro hzero)).symm
    · rw [if_neg hzero]
      cases s.findCliConnidHash m.connid with
      | none => simp
      | some client_p => simp [map_at hlen, hzero]
  · rw [if_neg hlen, if_neg hlen]
    by_cases hshort : m.bytes.length < 6
    · rw [if_pos hshort]
      simp [hshort]
    · rw [if_neg hshort]
      have hreads : ∀ i ∈ [1, 2, 3, 4, 5], i < m.bytes.length := by
        intro i hi
        have : i ≤ 5 := by
          simp only [mem_cons, not_mem_nil, or_false] at hi
          omega
        omega
      by_cases hzero : m.at 5 = 0
      · rw [if_pos hzero]
        exact iff_of_true ⟨hreads, rfl⟩ (.inr (.inr hzero))
      · rw [if_neg hzero]
        cases s.findCliConnidHash m.connid with
        | none => exact iff_of_true ⟨hreads, rfl⟩ (.inl rfl)
        | some client_p => simp [hshort, hzero]

/-- What is stored of a message with a fingerprint. -/
theorem stored_eq (hlen : m.bytes.length = 5 + certfpLen)
    (h : (sslProcessCertfp certfpLen s m).stored = some (client_p, t)) :
    t = hexString (m.bytes.drop 5) := by
  rw [sslProcessCertfp] at h
  split_ifs at h with hshort hzero
  cases hfind : s.findCliConnidHash m.connid with
  | none =>
    rw [hfind] at h
    cases h
  | some _ =>
    rw [hfind] at h
    rw [← map_at hlen]
    exact (Prod.mk.inj (some.inj h)).2.symm

/-- The message that `ssl_send_certfp` sends. -/
theorem connid_send {id : UInt32} {certfp : List UInt8} (hm : m.bytes = sslSendCertfp id certfp) :
    m.connid = id := by
  rw [Received.connid, Received.at, Received.at, Received.at, Received.at, hm]
  exact bufToUint32_uint32ToBuf id

/-- **Fingerprints.** A message is dealt with as it should be exactly when its fingerprint does not
begin with a zero byte, or it has none and is short, or what is at its place begins with a zero
byte, or there is no such client. So the fingerprint of a client that ssld sends is stored exactly
when it does not begin with a zero byte. Two fingerprints with the same text are the same. -/
theorem certfp_iff (hpos : 0 < certfpLen) :
    (∀ m : Received, Right certfpLen s m ↔ Plain certfpLen s m) ∧
      (∀ (m : Received) (id : UInt32) (certfp : List UInt8) (client_p : ℕ), certfp.length =
        certfpLen → m.bytes = sslSendCertfp id certfp → s.findCliConnidHash id = some client_p →
        ((sslProcessCertfp certfpLen s m).stored = some (client_p, hexString certfp) ↔
          certfp.head? ≠ some 0)) ∧
      ∀ (m m' : Received) (client_p client_p' : ℕ) (t : Str), m.bytes.length = 5 + certfpLen →
        m'.bytes.length = 5 + certfpLen → (sslProcessCertfp certfpLen s m).stored =
        some (client_p, t) →
        (sslProcessCertfp certfpLen s m').stored = some (client_p', t) →
        m.bytes.drop 5 = m'.bytes.drop 5 := by
  refine ⟨fun m => right_iff hpos, fun m id certfp client_p hlength hm hfind => ?_,
    fun m m' client_p client_p' t hlen hlen' hstored hstored' => ?_⟩
  · have hlen : m.bytes.length = 5 + certfpLen := by
      rw [hm, sslSendCertfp, length_cons, length_append, hlength]
      exact Nat.add_right_comm 4 certfpLen 1
    have hright := right_iff (s := s) (m := m) hpos
    rw [Right, Plain, if_pos hlen, if_pos hlen, connid_send hm, hfind, map_some] at hright
    have hdrop : m.bytes.drop 5 = certfp := by rw [hm]; rfl
    have hfirst : m.at 5 = certfp.headD 0 := by
      rw [Received.at, hm]
      cases certfp with
      | nil => rfl
      | cons b bs => rfl
    rw [hdrop, hfirst] at hright
    rw [hright]
    cases certfp with
    | nil => exact absurd hlength hpos.ne
    | cons b bs => simp
  · exact hexString_injective ((stored_eq hlen hstored).symm.trans (stored_eq hlen' hstored'))

end Certfp

/-- A connection with a client. -/
def oneClient : State := ⟨fun id => if id = 7 then some 1 else none, fun _ => none, fun _ => none⟩

/-- A message of that connection, in front of the fingerprint. -/
def header : List UInt8 := [70, 7, 0, 0, 0]

theorem certfp_iff_small :
    (sslProcessCertfp 20 oneClient ⟨header ++ replicate 20 0x1f, by decide, by decide⟩).stored =
      some (1, hexString (replicate 20 0x1f)) :=
  ((certfp_iff (s := oneClient) (show 0 < 20 by decide)).2.1 _ 7 _ 1 rfl rfl rfl).mpr (by decide)

/-- A fingerprint that begins with a zero byte is dropped, and of a message of six bytes twenty are
stored. -/
theorem certfp_lost :
    (sslProcessCertfp 20 oneClient
      ⟨header ++ 0 :: replicate 19 0x1f, by decide, by decide⟩).stored = none ∧
      24 ∈ (sslProcessCertfp 20 oneClient ⟨header ++ [0x1f], by decide, by decide⟩).reads ∧
      (sslProcessCertfp 20 oneClient ⟨header ++ [0x1f], by decide, by decide⟩).stored ≠ none := by
  decide

end Ratbox.Ssld
