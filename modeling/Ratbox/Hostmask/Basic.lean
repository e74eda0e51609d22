import Ratbox.Lib.Run
import Ratbox.Match
import Ratbox.Patricia.Basic

/-!
# The table of address masks

The masks of I-lines, K-lines and G-lines are in one table with 4096 buckets. A mask for addresses
is in the bucket of its first bits, in steps of 8 or 16; a mask for host names is in the bucket of
the text behind the first `.` that is behind its last wildcard. A search goes through the buckets
that a mask for the address, or the host name, may be in.

Source: `src/hostmask.c`, lines 112–318 and 491–720, and `include/hostmask.h`.

## Main definitions

* `Hostmask.getMaskHash`, `Hostmask.hashIpv4`, `Hostmask.hashIpv6`: the numbers of the buckets.
* `Hostmask.Rec`, `Hostmask.Table`: `struct AddressRec` and `atable`.
* `Hostmask.Table.findConfByAddress`, `Hostmask.Table.findAuth`: `find_conf_by_address` and
  `find_auth`.
* `Hostmask.Table.addConfByAddress`, `Hostmask.Table.deleteOneAddressConf`,
  `Hostmask.Table.clearOutAddressConf`: `add_conf_by_address`, `delete_one_address_conf` and
  `clear_out_address_conf`.

The type of the confs is a parameter: a record has a conf, which is told from others, and is
temporary or not.
-/

namespace Ratbox.Hostmask

open Text Address Match Patricia

/-! ### The buckets -/

/-- `ATABLE_SIZE`. -/
def atableSize : ℕ := 4096

/-- `ntohl` of the bytes of an IPv4 address. -/
def ntohl (addr : Bytes) : ℕ :=
  (addr 0).toNat * 2 ^ 24 + (addr 1).toNat * 2 ^ 16 + (addr 2).toNat * 2 ^ 8 + (addr 3).toNat

/-- `v & ~((1 << low) - 1)`: the low bits are cleared. -/
def clearLow (v low : ℕ) : ℕ := v - v % 2 ^ low

/-- `hash_ipv4`. -/
def hashIpv4 (addr : Bytes) (bits : ℕ) : ℕ :=
  if bits ≠ 0 then
    let av := clearLow (ntohl addr) (32 - bits)
    (av ^^^ (av >>> 12) ^^^ (av >>> 24)) % atableSize
  else 0

/-- The loop of `hash_ipv6`, at a byte. -/
def hashIpv6Loop (addr : Bytes) : ℕ → ℕ → ℕ → ℕ → ℕ
  | 0, _, _, v => v % atableSize
  | turns + 1, n, bits, v =>
    if 8 ≤ bits then hashIpv6Loop addr turns (n + 1) (bits - 8) (v ^^^ (addr n).toNat)
    else if bits ≠ 0 then (v ^^^ clearLow (addr n).toNat (8 - bits)) % atableSize
    else v % atableSize

/-- `hash_ipv6`. -/
def hashIpv6 (addr : Bytes) (bits : ℕ) : ℕ := hashIpv6Loop addr 16 0 bits 0

/-- `hash_text`. -/
def hashText (start : Str) : ℕ :=
  (start.foldl (fun (h : UInt32) p => (h <<< 4) - (h + UInt32.ofNat (toLower p).toNat)) 0).toNat %
    atableSize

/-- The loop of `get_mask_hash`, from the end of the text: the characters that are left, those
behind them, and `hp`. -/
def maskHashLoop (text : Str) : Str → Str → Str → ℕ
  | [], _, _ => hashText text
  | p :: rest, behind, hp =>
    if isWild p then hashText hp
    else if p = '.' then maskHashLoop text rest (p :: behind) behind
    else maskHashLoop text rest (p :: behind) hp

/-- `get_mask_hash`. -/
def getMaskHash (text : Str) : ℕ := maskHashLoop text text.reverse [] []

/-- A number of bits, less the rest of a division, as `bits -= bits % step`. -/
def roundBits (bits : ℤ) (step : ℤ) : ℕ := (bits - bits.tmod step).toNat

/-- The bucket of a mask. -/
def bucketOf (address : Str) : ℕ :=
  match parseNetmask address with
  | .ipv6 addr bits => hashIpv6 addr.bytes (roundBits bits 16)
  | .ipv4 addr bits => hashIpv4 addr.bytes (roundBits bits 8)
  | .host => getMaskHash address

/-! ### The table -/

/-- The types of records: `CONF_CLIENT`, `CONF_KILL`, `CONF_GLINE` and `CONF_EXEMPTDLINE`. -/
inductive RecType
  | client
  | kill
  | gline
  | exemptDline
  deriving DecidableEq

/-- `struct AddressRec`. The mask is the text, and what `parse_netmask` reads from it; `skipUser` is
`CONF_SKIPUSER`. -/
structure Rec (κ : Type) where
  address : Str
  type : RecType
  skipUser : Bool
  precedence : ℕ
  username : Str
  aconf : κ
  deriving DecidableEq

/-- `masktype` and `Mask.ipa`. -/
def Rec.mask {κ : Type} (r : Rec κ) : Netmask := parseNetmask r.address

/-- `atable`, and the `prec_value` of `add_conf_by_address`. -/
structure Table (κ : Type) where
  atable : ℕ → List (Rec κ)
  precValue : ℕ

variable {κ : Type}

/-- `init_host_hash`. -/
def init : Table κ := ⟨fun _ => [], 0xFFFFFFFF⟩

/-! ### Searching -/

/-- What a search is for: the host name, the address as text, the address and the user name. -/
structure Query where
  name : Option Str
  sockhost : Option Str
  addr : Option Ip
  username : Option Str
  deriving DecidableEq

/-- The user name, where `NULL` is the empty one. -/
def Query.user (q : Query) : Str := q.username.getD []

/-- `arec->type & CONF_SKIPUSER || match(arec->username, username)`. -/
def Rec.userMatches (r : Rec κ) (q : Query) : Bool := r.skipUser || matchMask r.username q.user

/-- The record is for IPv6 addresses, and has the first bits of the address. -/
def Rec.coversIpv6 (r : Rec κ) (addr : Ip) : Bool :=
  match r.mask with
  | .ipv6 dest bits => compWithMask addr.bytes dest.bytes bits.toNat
  | _ => false

/-- The record is for IPv4 addresses, and has the first bits of the address. -/
def Rec.coversIpv4 (r : Rec κ) (addr : Ip) : Bool :=
  match r.mask with
  | .ipv4 dest bits => compWithMask addr.bytes dest.bytes bits.toNat
  | _ => false

/-- The record is for host names, and its mask matches the name. -/
def Rec.matchesName (r : Rec κ) (name : Str) : Bool :=
  match r.mask with
  | .host => matchMask r.address name
  | _ => false

/-- A name, and what is behind each of its dots. -/
def domains (name : Str) : List Str := name :: behindDots name
where
  /-- What is behind each dot. -/
  behindDots : Str → List Str
    | [] => []
    | c :: name => if c = '.' then name :: behindDots name else behindDots name

namespace Table

/-- The records that the loops over the bits of the address come to and take. -/
def probeAddr (t : Table κ) (ok : Rec κ → Bool) : Option Ip → List (Rec κ)
  | none => []
  | some addr =>
    match addr.family with
    | .inet6 => [128, 112, 96, 80, 64, 48, 32, 16, 0].flatMap fun b =>
        (t.atable (hashIpv6 addr.bytes b)).filter fun r => ok r && r.coversIpv6 addr
    | .inet => [32, 24, 16, 8, 0].flatMap fun b =>
        (t.atable (hashIpv4 addr.bytes b)).filter fun r => ok r && r.coversIpv4 addr

/-- The records that the loop over the domains of the name comes to and takes, and those of the
first bucket. -/
def probeName (t : Table κ) (ok : Rec κ → Bool) (sockhost : Option Str) : Option Str → List (Rec κ)
  | none => []
  | some name =>
    ((domains name).flatMap fun p => (t.atable (hashText p)).filter fun r => ok r &&
      r.matchesName name) ++ (t.atable 0).filter fun r => ok r && (r.matchesName name ||
        sockhost.any r.matchesName)

/-- The records of a type that a search comes to and takes. -/
def probe (t : Table κ) (type : RecType) (q : Query) : List (Rec κ) :=
  let ok := fun r : Rec κ => decide (r.type = type) && r.userMatches q
  t.probeAddr ok q.addr ++ t.probeName ok q.sockhost q.name

/-- `find_conf_by_address`. It returns the first conf that it takes. -/
def findConfByAddress (t : Table κ) (type : RecType) (q : Query) : Option κ :=
  (t.probe type q).head?.map (·.aconf)

/-- The loops of `find_auth`: a record is kept when its precedence is higher than the one before. -/
def keepHigher (best : ℕ × Option κ) (r : Rec κ) : ℕ × Option κ :=
  if best.1 < r.precedence then (r.precedence, some r.aconf) else best

/-- `find_auth`. -/
def findAuth (t : Table κ) (q : Query) : Option κ :=
  ((t.probe .client q).foldl keepHigher (0, none)).2

/-! ### Adding and removing -/

/-- The record of `add_conf_by_address`. -/
def makeRec (t : Table κ) (address : Option Str) (type : RecType) (username : Option Str)
    (aconf : κ) :
    Rec κ where
  address := address.getD "/NOMATCH!/".toList
  type := type
  skipUser := username = none ∨ username = some [] ∨ username = some ['*']
  precedence := if type = .client then t.precValue else 0
  username := username.getD []
  aconf := aconf

/-- `add_conf_by_address`. -/
def addConfByAddress (t : Table κ) (address : Option Str) (type : RecType) (username : Option Str)
    (aconf : κ) : Table κ :=
  let arec := t.makeRec address type username aconf
  let hv := bucketOf arec.address
  { atable := Function.update t.atable hv (arec :: t.atable hv)
    precValue := if type = .client then (t.precValue + (2 ^ 32 - 1)) % 2 ^ 32 else t.precValue }

/-- `delete_one_address_conf`. -/
def deleteOneAddressConf [DecidableEq κ] (t : Table κ) (address : Str) (aconf : κ) : Table κ :=
  let hv := bucketOf address
  { t with atable := Function.update t.atable hv ((t.atable hv).eraseP fun r => r.aconf = aconf) }

/-- The record is kept by `clear_out_address_conf`. -/
def keptConf (temporary : κ → Bool) (r : Rec κ) : Bool :=
  temporary r.aconf || (r.type ≠ .client && r.type ≠ .exemptDline)

/-- The record is kept by `clear_out_address_conf_bans`. -/
def keptBans (temporary : κ → Bool) (r : Rec κ) : Bool :=
  temporary r.aconf || (r.type = .client || r.type = .exemptDline)

/-- `clear_out_address_conf`. -/
def clearOutAddressConf (t : Table κ) (temporary : κ → Bool) : Table κ :=
  { t with atable := fun i => (t.atable i).filter (keptConf temporary) }

/-- `clear_out_address_conf_bans`. -/
def clearOutAddressConfBans (t : Table κ) (temporary : κ → Bool) : Table κ :=
  { t with atable := fun i => (t.atable i).filter (keptBans temporary) }

end Table

end Ratbox.Hostmask
