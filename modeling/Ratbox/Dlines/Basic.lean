import Ratbox.Dlink
import Ratbox.Patricia.Families
import Ratbox.Patricia.Walk

/-!
# D-lines

A D-line is a `struct ConfItem` with a mask. The tree of D-lines has a node for the bits of the
mask, which points to one conf; the conf points to the node. A temporary D-line is also on one of
the lists of temporary D-lines, by the time that it has left. Permanent D-lines are replaced by
those of the database when the helper is done with sending them.

Source: `src/reject.c`, lines 78–101 and 287–392, `src/s_conf.c`, lines 939–1064,
`src/bandbi.c`, lines 263–390, `modules/m_dline.c`, and `modules/m_rehash.c`, lines 166–182.

## Main definitions

* `Dlines.Ban`, `Dlines.Conf`: the fields of a conf.
* `Dlines.State`: the tree, the confs, and the lists of temporary D-lines.
* `Dlines.State.addDline`, `Dlines.State.removeDline`, `Dlines.State.removePermDlines`: `add_dline`,
  `remove_dline` and `remove_perm_dlines`.
* `Dlines.State.exec`: the commands and events that add and remove D-lines.

A function fails (`none`) where the C function follows a pointer to nothing or to a conf that was
freed, or frees a node of the heap of list nodes. No client is attached to a D-line, so
`delete_ipline` frees the conf.
-/

namespace Ratbox.Dlines

open Text Address Patricia Function

/-! ### Confs -/

/-- The texts of a ban in a `struct ConfItem`: `user`, `host`, `passwd`, `spasswd` and
`info.oper`. -/
structure Ban where
  user : Option Str
  host : Str
  passwd : Str
  spasswd : Option Str
  oper : Str
  deriving DecidableEq

/-- The places of `temp_dlines`. -/
inductive Temp
  | min
  | hour
  | day
  | week
  deriving DecidableEq

/-- The number of a place. -/
def Temp.index : Temp → ℕ
  | .min => 0
  | .hour => 1
  | .day => 2
  | .week => 3

/-- The conf of a D-line. The flags are `CONF_FLAGS_TEMPORARY` and `CONF_FLAGS_LOCKED`. -/
structure Conf where
  ban : Ban
  temporary : Bool
  locked : Bool
  hold : ℤ
  port : Temp
  pnode : Option Addr
  deriving DecidableEq

/-- The address of a conf. -/
abbrev ConfId := ℕ

/-- The address and the bits that `parse_netmask` reads, unless it returns `HM_HOST`. -/
def netmask (host : Str) : Option (Ip × ℤ) :=
  match parseNetmask host with
  | .host => none
  | .ipv4 addr bits => some (addr, bits)
  | .ipv6 addr bits => some (addr, bits)

/-- The `bitlen` of `New_Prefix` for a number of bits. -/
def newBitlen (bits : ℤ) : ℕ := if 0 ≤ bits then bits.toNat else 128

/-- A number of bits as an `unsigned int`. -/
def unsigned (bits : ℤ) : ℕ := (bits % 2 ^ 32).toNat

/-! ### The tree -/

/-- `dline_tree`, the confs that are not freed, and `temp_dlines`. A freed address is not used
again. -/
structure State where
  tree : Patricia.Tree ConfId
  confs : ConfId → Option Conf
  fresh : ConfId
  temps : Temp → List ConfId

/-- `init_reject`. -/
def init : State := ⟨new 128, fun _ => none, 0, fun _ => []⟩

namespace State

/-- `make_conf`. -/
def makeConf (s : State) (c : Conf) : State :=
  { s with confs := update s.confs s.fresh (some c), fresh := s.fresh + 1 }

/-- A conf is written. -/
def setConf (s : State) (id : ConfId) (c : Conf) : State :=
  { s with confs := update s.confs id (some c) }

/-- `free_conf`. -/
def freeConf (s : State) (id : ConfId) : State :=
  { s with confs := update s.confs id none }

/-- `add_ipline`. -/
def addIpline (s : State) (id : ConfId) (addr : Ip) (cidr : ℤ) : Option State := do
  let (t, a) ← s.tree.makeAndLookupIp addr (newBitlen cidr)
  let c ← s.confs id
  some { s.setConf id { c with pnode := some a } with tree := t.write a (some id) }

/-- `add_dline`, with what it returns. -/
def addDline (s : State) (id : ConfId) : Option (State × Bool) := do
  let c ← s.confs id
  match netmask c.ban.host with
  | none => some (s, false)
  | some (addr, bits) => (s.addIpline id addr bits).map (·, true)

/-- `delete_ipline`, which `remove_dline` is. -/
def removeDline (s : State) (id : ConfId) : Option State := do
  let c ← s.confs id
  let a ← c.pnode
  let t ← s.tree.remove a
  some { s.freeConf id with tree := t }

/-- `find_dline_exact`. -/
def findDlineExact (s : State) (addr : Ip) (bitlen : ℕ) : Option (Option ConfId) := do
  match ← s.tree.matchIpExact addr bitlen with
  | none => some none
  | some a => some (s.tree.dataAt a)

/-- The list that `remove_perm_dlines` makes. -/
def permDlines (s : State) (nodes : List Addr) : Option (List ConfId) :=
  nodes.foldlM (fun list a => do
    let id ← s.tree.dataAt a
    let c ← s.confs id
    some (if c.temporary then list else id :: list)) []

/-- `remove_perm_dlines`. -/
def removePermDlines (s : State) : Option State := do
  let nodes ← s.tree.walk
  let list ← s.permDlines nodes
  list.foldlM (fun s id => (s.removeDline id).bind Dlink.freeNode) s

/-! ### The lists of temporary D-lines -/

/-- `rb_dlinkDestroy` and `rb_dlinkFindDestroy`. -/
def unlist (s : State) (i : Temp) (id : ConfId) : State :=
  { s with temps := update s.temps i ((s.temps i).erase id) }

/-- `rb_dlinkAddAlloc`, with the `port` for the list. -/
def enlist (s : State) (i : Temp) (id : ConfId) (c : Conf) : State :=
  { s.setConf id { c with port := i } with temps := update s.temps i (id :: s.temps i) }

/-- The list of `add_temp_dline` for the end of a D-line. -/
def tempFor (hold now : ℤ) : Temp :=
  if now + 10080 * 60 ≤ hold then .week
  else if now + 1440 * 60 ≤ hold then .day
  else if now + 60 * 60 ≤ hold then .hour
  else .min

/-- `add_temp_dline`. -/
def addTempDline (s : State) (id : ConfId) (now : ℤ) : Option State := do
  let c ← s.confs id
  let s := s.enlist (tempFor c.hold now) id { c with temporary := true }
  (s.addDline id).map (·.1)

/-- The body of the loop of `expire_temp_kd`, for D-lines. -/
def expireOne (i : Temp) (now : ℤ) (s : State) (id : ConfId) : Option State := do
  let c ← s.confs id
  if c.hold ≤ now then
    match c.pnode with
    | none => some (s.unlist i id)
    | some _ => (s.removeDline id).map (·.unlist i id)
  else some s

/-- `expire_temp_kd`, for D-lines. -/
def expireTempKd (s : State) (i : Temp) (now : ℤ) : Option State :=
  (s.temps i).foldlM (expireOne i now) s

/-- The list that `reorganise_temp_kd` moves a D-line to. -/
def moveTo (c : Conf) (now : ℤ) : Option Temp :=
  if c.hold < now + 60 * 60 then some .min
  else if Temp.hour.index < c.port.index then
    if c.hold < now + 1440 * 60 then some .hour
    else if Temp.day.index < c.port.index ∧ c.hold < now + 10080 * 60 then some .day
    else none
  else none

/-- The body of the loop of `reorganise_temp_kd`, for D-lines. -/
def reorganiseOne (i : Temp) (now : ℤ) (s : State) (id : ConfId) : Option State := do
  let c ← s.confs id
  match moveTo c now with
  | none => some s
  | some j => some ((s.unlist i id).enlist j id c)

/-- `reorganise_temp_kd`, for D-lines. -/
def reorganiseTempKd (s : State) (i : Temp) (now : ℤ) : Option State :=
  (s.temps i).foldlM (reorganiseOne i now) s

/-- The body of the loops of `rehash_tdlines`. -/
def rehashOne (i : Temp) (s : State) (id : ConfId) : Option State :=
  (s.removeDline id).map (·.unlist i id)

/-- `rehash_tdlines`. -/
def rehashTdlines (s : State) : Option State :=
  [Temp.min, .hour, .day, .week].foldlM (fun s i => (s.temps i).foldlM (rehashOne i) s) s

/-! ### Commands and events -/

/-- `valid_dline`. -/
def validDline (dlhost : Str) (operAdmin : Bool) : Bool :=
  match netmask dlhost with
  | none => false
  | some (_, bits) => if operAdmin then 8 ≤ bits else 16 ≤ bits

/-- `set_dline`. -/
def setDline (s : State) (ban : Ban) (tdlineTime now : ℤ) (admin : Bool) : Option State :=
  if 0 < tdlineTime then
    (s.makeConf ⟨ban, false, admin, now + tdlineTime, .min, none⟩).addTempDline s.fresh now
  else ((s.makeConf ⟨ban, false, admin, 0, .min, none⟩).addDline s.fresh).map (·.1)

/-- `mo_dline` and `mo_admindline`, for a D-line that is not refused as already placed. -/
def dline (s : State) (ban : Ban) (tdlineTime now : ℤ) (admin operAdmin : Bool) : Option State :=
  if validDline ban.host operAdmin then s.setDline ban tdlineTime now admin else some s

/-- `mo_undline`. It reads the flags and the port of the conf when it is freed: `temporary` and
`port` are what the reads give. -/
def undline (s : State) (cidr : Str) (operAdmin temporary : Bool) (port : Temp) : Option State :=
  match netmask cidr with
  | none => some s
  | some (addr, b) => do
    match ← s.findDlineExact addr (unsigned b) with
    | none => some s
    | some id =>
      let c ← s.confs id
      if c.locked ∧ ¬operAdmin then some s
      else (s.removeDline id).map fun s => if temporary then s.unlist port id else s

/-- A D-line of the database, in `bandb_handle_finish`; the check is `bandb_check_dline`. -/
def finishOne (s : State) (ban : Ban) : Option State :=
  let made := s.makeConf ⟨ban, false, false, 0, .min, none⟩
  match netmask ban.host with
  | none => some (made.freeConf s.fresh)
  | some _ => (made.addDline s.fresh).map (·.1)

/-- `bandb_handle_finish`, for the D-lines that are pending. -/
def finish (s : State) (bans : List Ban) : Option State := do
  let s ← s.removePermDlines
  bans.foldlM finishOne s

end State

/-- The commands and events that add and remove D-lines: DLINE and ADMINDLINE, UNDLINE, the end of
the list that the helper sends, the events for the lists of temporary D-lines, and REHASH
TDLINES. -/
inductive Op
  | dline (ban : Ban) (tdlineTime now : ℤ) (admin operAdmin : Bool)
  | undline (cidr : Str) (operAdmin temporary : Bool) (port : Temp)
  | finish (bans : List Ban)
  | expire (now : ℤ)
  | reorganise (i : Temp) (now : ℤ)
  | rehash

/-- What is done. -/
def State.exec (s : State) : Op → Option State
  | .dline ban tdlineTime now admin operAdmin => s.dline ban tdlineTime now admin operAdmin
  | .undline cidr operAdmin temporary port => s.undline cidr operAdmin temporary port
  | .finish bans => s.finish bans
  | .expire now => s.expireTempKd .min now
  | .reorganise i now => s.reorganiseTempKd i now
  | .rehash => s.rehashTdlines

end Ratbox.Dlines
