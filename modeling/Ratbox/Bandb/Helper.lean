import Ratbox.Lib.Run
import Ratbox.Words

/-!
# The database of bans

The server tells a helper of each permanent ban that is added or removed. The helper has a database
with one table for each type of bans, and lists what is in them when it is asked to.

A row that is added for a D-line, an X-line or a RESV has no second mask, and a row is only deleted
if its second mask is that of the removal: these rows stay.

Source: `bandb/bandb.c`, lines 36–218, `bandb/rsdb_sqlite3.c`, lines 92–145, `src/bandbi.c`, lines
38–62 and 134–168, and `libratbox/src/helper.c`, lines 213–260.

## Main definitions

* `Helper.bandbAdd`, `Helper.bandbDel`: `bandb_add` and `bandb_del`.
* `Helper.parseRequest`, `Helper.listBans`: `parse_request` and `list_bans`.
* `Helper.standing`: the bans that were added and not removed since.
* `Helper.Request.Meets`: the condition under which a message does what it is meant to do.

## Main results

* `Helper.listed_iff`: the list has the bans that were added and not removed.
-/

namespace Ratbox.Bandb.Helper

open Text Run List Option Function

/-! ### Bans -/

/-- `bandb_type`. -/
inductive BandType
  | kline
  | dline
  | xline
  | resv
  deriving DecidableEq

/-- The types, in their order. -/
def BandType.all : List BandType := [.kline, .dline, .xline, .resv]

/-- `bandb_letter` and `bandb_add_letter`. -/
def BandType.letter : BandType → Char
  | .kline => 'K'
  | .dline => 'D'
  | .xline => 'X'
  | .resv => 'R'

/-- `bandb_del_letter`. -/
def BandType.delLetter : BandType → Char
  | .kline => 'k'
  | .dline => 'd'
  | .xline => 'x'
  | .resv => 'r'

/-- The masks of a ban: a K-line has two. -/
inductive Masks
  | kline (user host : Str)
  | dline (host : Str)
  | xline (gecos : Str)
  | resv (name : Str)
  deriving DecidableEq

namespace Masks

/-- The type of the ban. -/
def type : Masks → BandType
  | kline _ _ => .kline
  | dline _ => .dline
  | xline _ => .xline
  | resv _ => .resv

/-- The first mask. -/
def mask1 : Masks → Str
  | kline user _ => user
  | dline host => host
  | xline gecos => gecos
  | resv name => name

/-- The second mask. It is empty where it is a null pointer. -/
def mask2 : Masks → Str
  | kline _ host => host
  | _ => []

/-- The second mask as it is in a table. -/
def column2 : Masks → Option Str
  | kline _ host => some host
  | _ => none

/-- The masks that are there. -/
def toList : Masks → List Str
  | kline user host => [user, host]
  | dline host => [host]
  | xline gecos => [gecos]
  | resv name => [name]

end Masks

/-- A ban that is added: the arguments of `bandb_add`, with the name of the oper and the time. -/
structure Added where
  masks : Masks
  oper : Str
  time : ℤ
  perm : ℤ
  reason : Str
  operReason : Str
  deriving DecidableEq

/-- The reason, with that for opers behind a bar. -/
def Added.text (b : Added) :
    Str := b.reason ++ if b.operReason = [] then [] else '|' :: b.operReason

/-! ### Messages -/

/-- `bandb_add`: what is written into a buffer of 512 bytes. -/
def bandbAdd (b : Added) : Str :=
  ([b.masks.type.letter] ++ " ".toList ++ b.masks.mask1 ++ " ".toList ++
    (if b.masks.mask2 = [] then [] else b.masks.mask2 ++ " ".toList) ++
    (b.oper ++ " ".toList ++ decimal b.time ++ " ".toList ++ decimal b.perm ++ " :".toList ++
      b.reason) ++
    if b.operReason = [] then [] else "|".toList ++ b.operReason).take 511

/-- `bandb_del`. -/
def bandbDel (m : Masks) : Str :=
  ([m.type.delLetter] ++ " ".toList ++ m.mask1 ++
    if m.mask2 = [] then [] else " ".toList ++ m.mask2).take 511

/-- `rb_helper_write`: of a line, 510 bytes reach the other side. -/
def helperWrite (buf : Str) : Str := buf.take 510

/-! ### The database -/

/-- The columns of a table. The second mask is `NULL` where it is none. -/
structure Row where
  mask1 : Str
  mask2 : Option Str
  oper : Str
  time : Str
  perm : Str
  reason : Str
  deriving DecidableEq

/-- The rows of the tables, in the order in which they were inserted. -/
abbrev Db := BandType → List Row

/-- The text is a number. -/
def isNumber (s : Str) : Bool :=
  let s := if s.head? = some '-' then s.tail else s
  !s.isEmpty && s.all isDigit

/-- `INSERT`. The time and the flag are not quoted: texts that are no numbers make no statement, and
the helper ends. -/
def Db.insert (db : Db) (type : BandType) (row : Row) : Option Db :=
  if isNumber row.time && isNumber row.perm then some (update db type (db type ++ [row])) else none

/-- `DELETE`. What is compared with `NULL` is not equal. -/
def Db.delete (db : Db) (type : BandType) (mask1 mask2 : Str) : Db :=
  update db type ((db type).filter fun row => !(row.mask1 == mask1 && row.mask2 == some mask2))

/-- `parse_ban`. -/
def parseBan (db : Db) (type : BandType) (parv : List Str) : Option Db :=
  match type, parv with
  | .kline, [_, mask1, mask2, oper, curtime, perm, reason] =>
    db.insert .kline ⟨mask1, some mask2, oper, curtime, perm, reason⟩
  | .kline, _ => some db
  | type, [_, mask1, oper, curtime, perm, reason] => db.insert type ⟨mask1, none, oper, curtime,
    perm, reason⟩
  | _, _ => some db

/-- `parse_unban`. -/
def parseUnban (db : Db) (type : BandType) (parv : List Str) : Db :=
  match type, parv with
  | .kline, [_, mask1, mask2] => db.delete .kline mask1 mask2
  | .kline, _ => db
  | type, [_, mask1] => db.delete type mask1 []
  | _, _ => db

/-- The line of `list_bans` for a row, in a buffer of 512 bytes. -/
def listLine (type : BandType) (row : Row) : Str :=
  (if type = .kline then
    [type.letter] ++ " ".toList ++ row.mask1 ++ " ".toList ++ row.mask2.getD "(null)".toList ++
      " ".toList ++ row.oper ++ " :".toList ++ row.reason
  else [type.letter] ++ " ".toList ++ row.mask1 ++ " ".toList ++ row.oper ++ " :".toList ++
    row.reason).take 511

/-- `list_bans`: the lines that are written. -/
def listBans (db : Db) : List Str :=
  "C".toList ::
    BandType.all.flatMap (fun type => (db type).map fun row => helperWrite (listLine type row)) ++
      ["F".toList]

/-- `parse_request`, for a message: the database, and the lines that are written. It fails where the
helper ends. -/
def parseRequest (db : Db) (readbuf : Str) : Option (Db × List Str) :=
  let parv := stringToArray 10 readbuf
  match parv.head?.bind head? with
  | some 'K' => (parseBan db .kline parv).map (·, [])
  | some 'D' => (parseBan db .dline parv).map (·, [])
  | some 'X' => (parseBan db .xline parv).map (·, [])
  | some 'R' => (parseBan db .resv parv).map (·, [])
  | some 'k' => some (parseUnban db .kline parv, [])
  | some 'd' => some (parseUnban db .dline parv, [])
  | some 'x' => some (parseUnban db .xline parv, [])
  | some 'r' => some (parseUnban db .resv parv, [])
  | some 'L' => some (db, listBans db)
  | _ => some (db, [])

/-! ### Requests -/

/-- What the server asks for. -/
inductive Request
  | add (b : Added)
  | del (m : Masks)
  deriving DecidableEq

/-- The message that reaches the helper. -/
def Request.line : Request → Str
  | add b => helperWrite (bandbAdd b)
  | del m => helperWrite (bandbDel m)

/-- A request is made of the helper. -/
def step (db : Db) (r : Request) : Option Db := (parseRequest db r.line).map (·.1)

/-- A database without bans. -/
def empty : Db := fun _ => []

/-! ### Bans that were added and not removed -/

/-- The bans that stand after a request. -/
def Request.apply (bs : List Added) : Request → List Added
  | add b => bs ++ [b]
  | del m => bs.filter fun b => b.masks ≠ m

/-- **The bans that were added and not removed since.** -/
def standing (rs : List Request) : List Added := rs.foldl Request.apply []

/-- The row of a ban. -/
def Added.row (b : Added) : Row where
  mask1 := b.masks.mask1
  mask2 := b.masks.column2
  oper := b.oper
  time := decimal b.time
  perm := decimal b.perm
  reason := b.text

/-- The rows of bans, by their types. -/
def rowsOf (bs : List Added) : Db := fun type => (bs.filter (·.masks.type = type)).map Added.row

/-- The columns that `list_bans` selects. -/
def Row.listed (row : Row) : Str × Option Str × Str × Str :=
  (row.mask1, row.mask2, row.oper, row.reason)

/-- **The tables have just these bans**, in what is listed of them. -/
def Lists (db : Db) (bs : List Added) : Prop :=
  ∀ type, (db type).map Row.listed = (rowsOf bs type).map Row.listed

/-- The lines of a list of bans. -/
def listing (bs : List Added) : List Str :=
  "C".toList :: BandType.all.flatMap (fun type => (bs.filter (·.masks.type = type)).map fun b =>
    spaced ([type.letter] :: b.masks.toList ++ [b.oper]) ++ ':' :: b.text) ++ ["F".toList]

/-! ### Conditions -/

/-- The words in front of the reason. -/
def Added.words (b : Added) : List Str :=
  [b.masks.type.letter] :: b.masks.toList ++ [b.oper, decimal b.time, decimal b.perm]

/-- The masks and the name of the oper are words, and the line is not cut. -/
structure Added.Fits (b : Added) : Prop where
  masks : ∀ w ∈ b.masks.toList, Word w
  oper : Word b.oper
  length : (spaced b.words ++ ':' :: b.text).length ≤ 510

/-- The masks of a K-line that is removed are words and not cut, or neither they nor what is read of
them is in the database. Other bans that are removed are not in the database. -/
def Request.Meets (db : Db) : Request → Prop
  | add b => b.Fits
  | del (.kline user host) =>
    (Word user ∧ Word host ∧ user.length + host.length ≤ 507) ∨
      ∀ row ∈ db .kline, (row.mask1 ≠ user ∨ row.mask2 ≠ some host) ∧
        ∀ mask2, row.mask2 = some mask2 → stringToArray 10 (del (.kline user host)).line ≠ [['k'],
          row.mask1, mask2]
  | del m => ∀ row ∈ db m.type, row.mask1 ≠ m.mask1

/-! ### Numbers -/

theorem all_isDigit_toDigits (n : ℕ) : (Nat.toDigits 10 n).all isDigit = true :=
  all_eq_true.mpr fun _ hc => isDigit_of_mem_toDigits hc

@[simp] theorem isNumber_decimal (z : ℤ) : isNumber (decimal z) = true := by
  cases z with
  | ofNat n =>
    obtain ⟨c, hc, hhead⟩ := head_toDigits n
    have hminus : (Nat.toDigits 10 n).head? ≠ some '-' := by
      rw [hhead]
      exact fun heq => (ne_of_isDigit hc).2.1 (some.inj heq)
    rw [decimal, isNumber, if_neg hminus]
    simp [all_isDigit_toDigits]
  | negSucc n =>
    rw [decimal, isNumber, head?_cons, if_pos rfl, tail_cons]
    simp [all_isDigit_toDigits]

/-! ### Messages that are read -/

section Messages

variable {db db' : Db} {b : Added} {m : Masks} {type : BandType} {tail : List Str} {w : Str}
  {bs : List Added}

/-- The first mask and the second one are the masks. -/
theorem Masks.toList_eq (m : Masks) : m.toList = m.mask1 :: m.column2.toList := by
  cases m <;> rfl

/-- The line of a ban, whose masks are not empty. -/
theorem line_add (h : [] ∉ b.masks.toList) :
    (Request.add b).line = (spaced b.words ++ ':' :: b.text).take 510 := by
  have htext : b.text = b.reason ++ if b.operReason = [] then [] else "|".toList ++ b.operReason :=
    rfl
  rw [Request.line, helperWrite, bandbAdd, take_take, Nat.min_eq_left (by decide), htext]
  congr 1
  generalize (if b.operReason = [] then [] else "|".toList ++ b.operReason) = bar
  rw [Added.words]
  cases hm : b.masks with
  | kline user host =>
    have hhost : host ≠ [] := fun hnil => h (by simp [hm, Masks.toList, hnil])
    simp [Masks.toList, Masks.mask1, Masks.mask2, hhost]
  | dline host => simp [Masks.toList, Masks.mask1, Masks.mask2]
  | xline gecos => simp [Masks.toList, Masks.mask1, Masks.mask2]
  | resv name => simp [Masks.toList, Masks.mask1, Masks.mask2]

/-- The letter is the first word of a message. -/
theorem stringToArray_letter {c : Char} (hspace : c ≠ ' ') (hcolon : c ≠ ':') (rest : Str) :
    stringToArray 10 (helperWrite ((c :: ' ' :: rest).take 511)) = [c] ::
    stringToArray 9 (rest.take 508) := by
  have hword : Word [c] := ⟨by simp, by simpa using hspace.symm, by simpa using hcolon⟩
  rw [helperWrite, take_take, Nat.min_eq_left (by decide), take_succ_cons, take_succ_cons]
  exact stringToArray_word hword (by decide) _

/-- A ban is added by `parse_ban`. -/
theorem step_add (db : Db) (b : Added) : ∃ tail, stringToArray 10 (Request.add b).line =
    [b.masks.type.letter] :: tail ∧ step db (.add b) = parseBan db b.masks.type
    ([b.masks.type.letter] :: tail) := by
  obtain ⟨rest, hrest⟩ : ∃ rest, bandbAdd b = (b.masks.type.letter :: ' ' :: rest).take 511 :=
    ⟨_, rfl⟩
  have hparv : stringToArray 10 (Request.add b).line = [b.masks.type.letter] ::
      stringToArray 9 (rest.take 508) := by
    rw [Request.line, hrest]
    exact stringToArray_letter (by cases b.masks.type <;> decide) (by cases b.masks.type <;> decide)
      rest
  refine ⟨_, hparv, ?_⟩
  rw [step, parseRequest, hparv]
  cases b.masks.type <;>
    simp only [BandType.letter, List.head?_cons, Option.bind_some, Option.map_map] <;>
      exact congrFun Option.map_id _

/-- A ban is removed by `parse_unban`. -/
theorem step_del (db : Db) (m : Masks) :
    ∃ tail, stringToArray 10 (Request.del m).line = [m.type.delLetter] :: tail ∧
    step db (.del m) = some (parseUnban db m.type ([m.type.delLetter] :: tail)) := by
  obtain ⟨rest, hrest⟩ : ∃ rest, bandbDel m = (m.type.delLetter :: ' ' :: rest).take 511 := ⟨_, rfl⟩
  have hparv : stringToArray 10 (Request.del m).line = [m.type.delLetter] ::
      stringToArray 9 (rest.take 508) := by
    rw [Request.line, hrest]
    exact stringToArray_letter (by cases m.type <;> decide) (by cases m.type <;> decide) rest
  refine ⟨_, hparv, ?_⟩
  rw [step, parseRequest, hparv]
  cases m.type <;> rfl

/-! ### Adding -/

/-- `parse_ban` inserts a row when the number of words is right. -/
theorem parseBan_words (db : Db) (b : Added) : parseBan db b.masks.type (w :: b.masks.toList ++
    [b.oper, decimal b.time, decimal b.perm, b.text]) =
      some (update db b.masks.type (db b.masks.type ++ [b.row])) := by
  have hinsert : ∀ type, db.insert type b.row = some (update db type (db type ++ [b.row])) := by
    intro type
    rw [Db.insert, if_pos]
    simp [Added.row]
  obtain ⟨masks, oper, time, perm, reason, operReason⟩ := b
  cases masks <;> exact hinsert _

/-- What `parse_ban` does: nothing, or it inserts the row of the words. -/
theorem parseBan_cases (h : parseBan db type (w :: tail) = some db') : db' = db ∨
    ∃ row, db' = update db type (db type ++ [row]) ∧
      tail = row.mask1 :: row.mask2.toList ++ [row.oper, row.time, row.perm, row.reason] ∧
      (row.mask2.isSome ↔ type = .kline) := by
  have hinsert : ∀ type row, db.insert type row = some db' →
      db' = update db type (db type ++ [row]) := by
    intro type row hrow
    rw [Db.insert] at hrow
    split_ifs at hrow
    exact (some.inj hrow).symm
  rw [parseBan.eq_def] at h
  split at h
  · next heq =>
    obtain ⟨-, rfl⟩ := cons.inj heq
    exact .inr ⟨_, hinsert _ _ h, rfl, by simp⟩
  · exact .inl (some.inj h).symm
  · next hother heq =>
    obtain ⟨-, rfl⟩ := cons.inj heq
    exact .inr ⟨_, hinsert _ _ h, rfl, by simpa using hother⟩
  · exact .inl (some.inj h).symm

theorem rowsOf_append (bs : List Added) (b : Added) :
    rowsOf (bs ++ [b]) = update (rowsOf bs) b.masks.type (rowsOf bs b.masks.type ++ [b.row]) := by
  funext type
  by_cases htype : b.masks.type = type
  · subst htype
    simp [rowsOf]
  · rw [update_of_ne (Ne.symm htype)]
    simp [rowsOf, htype]

/-- The words in front of the reason are words if the masks and the name of the oper are. -/
theorem word_of_mem_words (hmasks : ∀ w ∈ b.masks.toList, Word w) (hoper : Word b.oper)
    (hw : w ∈ b.words) :
    Word w := by
  simp only [Added.words, cons_append, mem_cons, mem_append, not_mem_nil, or_false] at hw
  rcases hw with rfl | hw | rfl | rfl | rfl
  · cases b.masks.type <;> decide
  · exact hmasks w hw
  · exact hoper
  · exact word_decimal _
  · exact word_decimal _

theorem length_words (b : Added) : b.words.length + 2 ≤ 10 := by
  rw [Added.words]
  cases b.masks <;> simp [Masks.toList]

/-- The words of the message of a ban. -/
theorem Added.Fits.parv (h : b.Fits) :
    stringToArray 10 (Request.add b).line = b.words ++ [b.text] := by
  have hall : ∀ w ∈ b.words, Word w := fun w hw => word_of_mem_words h.masks h.oper hw
  have hlength := length_words b
  rw [line_add fun hnil => (h.masks [] hnil).ne_nil rfl, take_of_length_le h.length,
    stringToArray_append hall hlength, stringToArray_colon (by omega)]

/-- When the message has the masks, the name of the oper and the reason of the ban, nothing was
lost. -/
theorem fits_of_parv {time perm : Str} (h : stringToArray 10 (Request.add b).line =
    ([b.masks.type.letter] :: b.masks.toList ++ [b.oper, time, perm]) ++ [b.text]) : b.Fits := by
  have hwords : ∀ w ∈ [b.masks.type.letter] :: b.masks.toList ++ [b.oper, time, perm], Word w := by
    intro w hw
    refine word_of_stringToArray (m := 10) (s := (Request.add b).line) ?_
    rwa [h, dropLast_concat]
  have hmasks : ∀ w ∈ b.masks.toList, Word w := fun w hw => hwords w (by simp [hw])
  have hoper : Word b.oper := hwords b.oper (by simp)
  refine ⟨hmasks, hoper, ?_⟩
  have hlength := length_words b
  rw [line_add fun hnil => (hmasks [] hnil).ne_nil rfl] at h
  rcases stringToArray_take (fun w hw => word_of_mem_words hmasks hoper hw) hlength (':' :: b.text)
    510 with hcut | ⟨j, hj, hrest⟩
  · rw [h] at hcut
    simp [Added.words] at hcut
  · have htext : stringToArray (10 - b.words.length) ((':' :: b.text).take j) = [b.text] :=
      (append_inj (hrest.symm.trans h) (by simp [Added.words])).2
    cases j with
    | zero => exact absurd htext (by simp [stringToArray])
    | succ j =>
      rw [take_succ_cons, stringToArray_colon (by omega), cons.injEq] at htext
      have hshort : b.text.length ≤ j := by
        rw [← htext.1]
        exact length_take_le _ _
      rw [length_append, length_cons]
      omega

/-- A ban that is made of words and not cut is added. -/
theorem step_add_row (db : Db) (hfits : b.Fits) :
    step db (.add b) = some (update db b.masks.type (db b.masks.type ++ [b.row])) := by
  obtain ⟨tail, hparv, hstep⟩ := step_add db b
  have htail : tail = b.masks.toList ++ [b.oper, decimal b.time, decimal b.perm, b.text] := by
    have heq := hparv.symm.trans hfits.parv
    simpa [Added.words] using heq
  rw [hstep, htail, ← cons_append, parseBan_words]

theorem step_add_fits (h : db = rowsOf bs) (hfits : b.Fits) :
    step db (.add b) = some (rowsOf (bs ++ [b])) := by
  rw [step_add_row db hfits, rowsOf_append, h]

/-- When the row has the masks, the name of the oper and the reason of the ban, nothing was lost. -/
theorem fits_of_step_add (h : step db (.add b) = some db')
    (hrows : (db' b.masks.type).map Row.listed = (db b.masks.type).map Row.listed ++
      [b.row.listed]) : b.Fits := by
  obtain ⟨tail, hparv, hstep⟩ := step_add db b
  rw [hstep] at h
  rcases parseBan_cases h with rfl | ⟨row, rfl, rfl, -⟩
  · exact absurd (congrArg length hrows) (by simp)
  · -- The row has the texts of the ban, so that these are the words of the message.
    rw [update_self, map_append, append_cancel_left_eq] at hrows
    obtain ⟨hmask1, hmask2, hoper, hreason⟩ : row.mask1 = b.row.mask1 ∧ row.mask2 = b.row.mask2 ∧
        row.oper = b.row.oper ∧ row.reason = b.row.reason := by
      simpa [Row.listed] using hrows
    have hmasks : row.mask1 :: row.mask2.toList = b.masks.toList := by
      rw [Masks.toList_eq, hmask1, hmask2]
      rfl
    have hwords : stringToArray 10 (Request.add b).line =
        ([b.masks.type.letter] :: b.masks.toList ++ [b.oper, row.time, row.perm]) ++ [b.text] := by
      rw [hparv, hmasks, hoper, hreason]
      simp [Added.row]
    exact fits_of_parv hwords

/-- **A ban is added** if and only if it is made of words, and is not cut. -/
theorem step_add_iff (h : db = rowsOf bs) (b : Added) :
    (∃ db', step db (.add b) = some db' ∧ Lists db' (bs ++ [b])) ↔ b.Fits := by
  refine ⟨?_, fun hfits => ⟨_, step_add_fits h hfits, fun _ => rfl⟩⟩
  rintro ⟨db', hdb', hlists⟩
  have hlisted := hlists b.masks.type
  rw [rowsOf_append, update_self, map_append, ← h] at hlisted
  exact fits_of_step_add hdb' hlisted

/-! ### Removing -/

/-- The row has the masks. -/
def Row.has (row : Row) (m : Masks) : Bool := row.mask1 == m.mask1 && row.mask2 == m.column2

/-- The row has the two masks that are read of a message. -/
def Row.read (row : Row) (tail : List Str) : Bool :=
  row.mask2.any fun mask2 => tail == [row.mask1, mask2]

theorem parseUnban_kline (db : Db) (w : Str) (tail : List Str) : parseUnban db .kline (w :: tail) =
    update db .kline ((db .kline).filter fun row => !row.read tail) := by
  have hnone : (∀ mask1 mask2, tail ≠ [mask1, mask2]) →
      db = update db .kline ((db .kline).filter fun row => !row.read tail) := by
    intro hne
    have hall : (db .kline).filter (fun row => !row.read tail) = db .kline := by
      refine filter_eq_self.mpr fun row _ => ?_
      cases hmask2 : row.mask2 with
      | none => simp [Row.read, hmask2]
      | some mask => simp [Row.read, hmask2, hne]
    rw [hall, update_eq_self]
  match tail with
  | [] => exact hnone (by simp)
  | [_] => exact hnone (by simp)
  | [mask1, mask2] =>
    rw [parseUnban, Db.delete]
    congr 1
    refine filter_congr fun row _ => ?_
    cases hmask2 : row.mask2 with
    | none => simp [Row.read, hmask2]
    | some mask => simp [Row.read, hmask2, BEq.comm]
  | _ :: _ :: _ :: _ => exact hnone (by simp)

/-- Rows without a second mask are not deleted. -/
theorem parseUnban_other (htype : type ≠ .kline) (hnull : ∀ row ∈ db type, row.mask2 = none)
    (parv : List Str) :
    parseUnban db type parv = db := by
  have hdelete : ∀ mask1, db.delete type mask1 [] = db := by
    intro mask1
    have hall : (db type).filter (fun row => !(row.mask1 == mask1 && row.mask2 == some [])) =
        db type := by
      refine filter_eq_self.mpr fun row hrow => ?_
      simp [hnull row hrow]
    rw [Db.delete, hall, update_eq_self]
  rw [parseUnban.eq_def]
  split
  · exact absurd rfl htype
  · exact absurd rfl htype
  · exact hdelete _
  · rfl

/-- Rows are only deleted. -/
theorem mem_of_parseUnban {parv : List Str} {type' : BandType} {row : Row}
    (h : row ∈ parseUnban db type parv type') :
    row ∈ db type' := by
  have hdelete : ∀ t mask1 mask2, row ∈ db.delete t mask1 mask2 type' → row ∈ db type' := by
    intro t mask1 mask2 hrow
    rw [Db.delete] at hrow
    by_cases htype : type' = t
    · subst htype
      rw [update_self] at hrow
      exact (mem_filter.mp hrow).1
    · rwa [update_of_ne htype] at hrow
  rw [parseUnban.eq_def] at h
  split at h
  · exact hdelete _ _ _ h
  · exact h
  · exact hdelete _ _ _ h
  · exact h

/-- The rows of the bans without those that are removed. -/
theorem rowsOf_filter (bs : List Added) (m : Masks) : rowsOf (bs.filter fun b => b.masks ≠ m) =
    update (rowsOf bs) m.type ((rowsOf bs m.type).filter fun row => !row.has m) := by
  have hhas : ∀ b : Added, b.masks.type = m.type → (b.row.has m = true ↔ b.masks = m) := by
    rintro ⟨masks, _⟩ htype
    cases masks <;> cases m <;> simp_all [Added.row, Row.has, Masks.mask1, Masks.column2,
      Masks.type]
  funext type
  by_cases htype : type = m.type
  · subst htype
    rw [Function.update_self, rowsOf, rowsOf, List.filter_map, List.filter_filter,
      List.filter_filter]
    congr 1
    refine filter_congr fun b _ => ?_
    by_cases hb : b.masks.type = m.type
    · simp [hb, ← hhas b hb]
    · simp [hb]
  · rw [Function.update_of_ne htype, rowsOf, rowsOf, List.filter_filter]
    congr 1
    refine filter_congr fun b _ => ?_
    by_cases hb : b.masks.type = type
    · have hne : b.masks ≠ m := fun heq => htype (by rw [← hb, heq])
      simp [hb, hne]
    · simp [hb]

/-- Rows that are listed alike are kept alike. -/
theorem map_filter_eq_iff {l : List Row} {p q : Row → Bool}
    (hp : ∀ r r', r.listed = r'.listed → p r = p r')
    (hq : ∀ r r', r.listed = r'.listed → q r = q r') :
    (l.filter p).map Row.listed = (l.filter q).map Row.listed ↔ ∀ r ∈ l, p r = q r := by
  refine ⟨fun h r hr => ?_, fun h => by rw [filter_congr h]⟩
  rw [Bool.eq_iff_iff]
  constructor
  · intro hpr
    have hmem : r.listed ∈ (l.filter q).map Row.listed :=
      h ▸ mem_map_of_mem (mem_filter.mpr ⟨hr, hpr⟩)
    obtain ⟨r', hr', heq⟩ := mem_map.mp hmem
    rw [← hq r' r heq]
    exact (mem_filter.mp hr').2
  · intro hqr
    have hmem : r.listed ∈ (l.filter p).map Row.listed :=
      h ▸ mem_map_of_mem (mem_filter.mpr ⟨hr, hqr⟩)
    obtain ⟨r', hr', heq⟩ := mem_map.mp hmem
    rw [← hp r' r heq]
    exact (mem_filter.mp hr').2

theorem masks_of_listed {r r' : Row} (h : r.listed = r'.listed) :
    r.mask1 = r'.mask1 ∧ r.mask2 = r'.mask2 := by
  simp only [Row.listed, Prod.mk.injEq] at h
  exact ⟨h.1, h.2.1⟩

theorem has_of_listed {r r' : Row} (h : r.listed = r'.listed) : r.has m = r'.has m := by
  obtain ⟨hmask1, hmask2⟩ := masks_of_listed h
  rw [Row.has, Row.has, hmask1, hmask2]

theorem read_of_listed {r r' : Row} (h : r.listed = r'.listed) : r.read tail = r'.read tail := by
  obtain ⟨hmask1, hmask2⟩ := masks_of_listed h
  rw [Row.read, Row.read, hmask1, hmask2]

/-- The tables have the bans that stand if and only if the right rows are deleted. -/
theorem lists_filter_iff (h : db = rowsOf bs) {p : Row → Bool}
    (hp : ∀ r r', r.listed = r'.listed → p r = p r') :
    Lists (update db m.type ((db m.type).filter p)) (bs.filter fun b => b.masks ≠ m) ↔
      ∀ row ∈ db m.type, p row = !row.has m := by
  rw [Lists, rowsOf_filter, ← h, ← map_filter_eq_iff hp fun r r' heq => by rw [has_of_listed heq]]
  refine ⟨fun hlists => by simpa using hlists m.type, fun hrows type => ?_⟩
  by_cases htype : type = m.type
  · subst htype
    simpa using hrows
  · rw [update_of_ne htype, update_of_ne htype]

/-- The masks of a K-line are read as they are if and only if they are words and not cut. -/
theorem parv_del_iff {user host : Str} : stringToArray 10 (Request.del (.kline user host)).line =
    [['k'], user, host] ↔ Word user ∧ Word host ∧ user.length + host.length ≤ 507 := by
  have hk : Word ['k'] := by decide
  have hline : host ≠ [] → (Request.del (.kline user host)).line = (spaced [['k'], user] ++
      host).take 510 := by
    intro hhost
    rw [Request.line, helperWrite, bandbDel, take_take, Nat.min_eq_left (by decide)]
    simp [Masks.type, BandType.delLetter, Masks.mask1, Masks.mask2, hhost]
  constructor
  · intro h
    have huser : Word user := by
      refine word_of_stringToArray (m := 10) (s := (Request.del (.kline user host)).line) ?_
      rw [h]
      simp
    have hhost : host ≠ [] := by
      rintro rfl
      have hempty : bandbDel (.kline user []) = ('k' :: ' ' :: user).take 511 := by
        simp [bandbDel, Masks.type, BandType.delLetter, Masks.mask1, Masks.mask2]
      rw [Request.line, hempty, stringToArray_letter (by decide) (by decide), cons.injEq] at h
      have hle : (stringToArray 9 (user.take 508)).length ≤ 1 :=
        length_stringToArray_le fun hmem => huser.space (mem_of_mem_take hmem)
      rw [h.2] at hle
      simp at hle
    rw [hline hhost] at h
    have hws : ∀ w ∈ [['k'], user], Word w := by simp [hk, huser]
    have hm : [['k'], user].length + 2 ≤ 10 := by simp
    rcases stringToArray_take hws hm host 510 with hcut | ⟨j, hj, hrest⟩
    · rw [h] at hcut
      simp at hcut
    · rw [hrest] at h
      have hfound : stringToArray 8 (host.take j) = [host] := by simpa using h
      obtain ⟨hword, hshort⟩ := stringToArray_take_eq_self hfound
      refine ⟨huser, hword, ?_⟩
      simp at hj
      omega
  · rintro ⟨huser, hhost, hshort⟩
    have hlength : (spaced [['k'], user] ++ host).length ≤ 510 := by
      simp
      omega
    rw [hline hhost.ne_nil, take_of_length_le hlength, stringToArray_append (by simp [hk, huser])
      (by simp), stringToArray_of_word hhost (by simp)]
    rfl

/-- A removal deletes rows by their masks; these are the right ones if and only if it meets the
condition. -/
theorem step_del_filter (h : db = rowsOf bs) (m : Masks) : ∃ p : Row → Bool,
    (∀ r r', r.listed = r'.listed → p r = p r') ∧
      step db (.del m) = some (update db m.type ((db m.type).filter p)) ∧
      ((∀ row ∈ db m.type, p row = !row.has m) ↔ (Request.del m).Meets db) := by
  obtain ⟨tail, hparv, hstep⟩ := step_del db m
  -- Other bans than K-lines stay.
  have hother : m.type ≠ .kline → m.column2 = none → ∃ p : Row → Bool,
      (∀ r r', r.listed = r'.listed → p r = p r') ∧
        step db (.del m) = some (update db m.type ((db m.type).filter p)) ∧
      ((∀ row ∈ db m.type, p row = !row.has m) ↔ ∀ row ∈ db m.type, row.mask1 ≠ m.mask1) := by
    intro htype hcolumn
    have hnull : ∀ row ∈ db m.type, row.mask2 = none := by
      intro row hrow
      rw [h, rowsOf] at hrow
      obtain ⟨b, hb, rfl⟩ := mem_map.mp hrow
      have hb' : b.masks.type = m.type := by simpa using (mem_filter.mp hb).2
      rw [Added.row]
      cases hm : b.masks with
      | kline user host => exact absurd (by rw [← hb', hm]; rfl) htype
      | dline | xline | resv => rfl
    refine ⟨fun _ => true, fun _ _ _ => rfl, ?_, forall₂_congr fun row hrow => ?_⟩
    · rw [hstep, parseUnban_other htype hnull, filter_eq_self.mpr fun _ _ => rfl, update_eq_self]
    · simp [Row.has, hnull row hrow, hcolumn]
  cases m with
  | kline user host =>
    refine ⟨fun row => !row.read tail, fun r r' heq => congrArg (! ·) (read_of_listed heq), ?_, ?_⟩
    · rw [hstep]
      exact congrArg some (parseUnban_kline db _ tail)
    simp only [Request.Meets]
    rw [← parv_del_iff, hparv]
    have hread : ∀ row : Row, row.read tail = true ↔ ∃ mask2, row.mask2 = some mask2 ∧
      tail = [row.mask1, mask2] :=
      fun row => by simp [Row.read, Option.any_eq_true]
    have hhas : ∀ row : Row, row.has (.kline user host) = true ↔ row.mask1 = user ∧
      row.mask2 = some host :=
      fun row => by simp [Row.has, Masks.mask1, Masks.column2]
    by_cases htail : tail = [user, host]
    · refine iff_of_true (fun row _ => ?_) (.inl (by rw [htail]; rfl))
      rw [Bool.not_inj_iff, Bool.eq_iff_iff, hread, hhas, htail]
      constructor
      · rintro ⟨mask2, hmask2, heq⟩
        simp only [cons.injEq, and_true] at heq
        exact ⟨heq.1.symm, by rw [hmask2, heq.2]⟩
      · rintro ⟨rfl, hmask2⟩
        exact ⟨host, hmask2, rfl⟩
    · have hne : ¬[(Masks.kline user host).type.delLetter] :: tail = [['k'], user,
          host] := fun heq =>
        htail (cons.inj heq).2
      rw [or_iff_right hne]
      refine forall₂_congr fun row _ => ?_
      rw [Bool.not_inj_iff, Bool.eq_iff_iff, hread, hhas]
      constructor
      · intro heq
        have hnot : ¬(row.mask1 = user ∧ row.mask2 = some host) := by
          intro hmasks
          obtain ⟨mask2, hmask2, hfound⟩ := heq.mpr hmasks
          cases hmask2.symm.trans hmasks.2
          exact htail (by rw [hfound, hmasks.1])
        refine ⟨not_and_or.mp hnot, fun mask2 hmask2 hfound => ?_⟩
        exact hnot (heq.mp ⟨mask2, hmask2, (cons.inj hfound).2⟩)
      · rintro ⟨hnot, hnone⟩
        refine iff_of_false ?_ (not_and_or.mpr hnot)
        rintro ⟨mask2, hmask2, rfl⟩
        exact hnone mask2 hmask2 rfl
  | dline host => exact hother (by simp [Masks.type]) rfl
  | xline gecos => exact hother (by simp [Masks.type]) rfl
  | resv name => exact hother (by simp [Masks.type]) rfl

/-- **What a request does** is what it is meant to do if and only if it meets the condition. -/
theorem step_iff (h : db = rowsOf bs) (r : Request) :
    (∃ db', step db r = some db' ∧ Lists db' (r.apply bs)) ↔ r.Meets db := by
  cases r with
  | add b => exact step_add_iff h b
  | del m =>
    obtain ⟨p, hp, hstep, hmeets⟩ := step_del_filter h m
    rw [hstep, ← hmeets, ← lists_filter_iff h hp]
    simp [Request.apply]

/-- A request that meets the condition. -/
theorem step_spec (h : db = rowsOf bs) {r : Request} (hmeets : r.Meets db) :
    step db r = some (rowsOf (r.apply bs)) := by
  cases r with
  | add b => exact step_add_fits h hmeets
  | del m =>
    obtain ⟨p, -, hstep, hiff⟩ := step_del_filter h m
    rw [hstep, Request.apply, rowsOf_filter, ← h, filter_congr (hiff.mpr hmeets)]

/-! ### Runs -/

theorem standing_concat (rs : List Request) (r : Request) :
    standing (rs ++ [r]) = r.apply (standing rs) := by
  rw [standing, foldl_append, foldl_cons, foldl_nil, ← standing]

/-- The tables have the bans that stand, which are made of words and were not cut. -/
theorem run_spec {rs : List Request} (h : StepsMeet step Request.Meets empty rs) :
    run step empty rs = some (rowsOf (standing rs)) ∧ ∀ b ∈ standing rs, b.Fits := by
  induction rs using reverseRecOn with
  | nil => exact ⟨rfl, fun b hb => absurd hb not_mem_nil⟩
  | append_singleton rs r ih =>
    obtain ⟨hmeet, hlast⟩ := (stepsMeet_append empty rs [r]).mp h
    obtain ⟨hrun, hfits⟩ := ih hmeet
    have hmeets := (hlast _ hrun).1
    rw [run_append, hrun, standing_concat, bind_some, run, step_spec rfl hmeets]
    refine ⟨rfl, fun b hb => ?_⟩
    cases r with
    | add b' =>
      rcases mem_append.mp hb with hb | hb
      · exact hfits b hb
      · rw [mem_singleton.mp hb]
        exact hmeets
    | del m => exact hfits b (mem_filter.mp hb).1

/-- The line of a ban is not cut when that with which it was added was not. -/
theorem listLine_row (h : b.Fits) : helperWrite (listLine b.masks.type b.row) =
    spaced ([b.masks.type.letter] :: b.masks.toList ++ [b.oper]) ++ ':' :: b.text := by
  have hlength := h.length
  have hline : spaced ([b.masks.type.letter] :: b.masks.toList ++ [b.oper]) ++ ':' :: b.text =
      if b.masks.type = .kline then
        [b.masks.type.letter] ++ " ".toList ++ b.row.mask1 ++ " ".toList ++ b.row.mask2.getD
          "(null)".toList ++
          " ".toList ++ b.row.oper ++ " :".toList ++ b.row.reason
      else [b.masks.type.letter] ++ " ".toList ++ b.row.mask1 ++ " ".toList ++ b.row.oper ++
        " :".toList ++ b.row.reason := by
    cases hm : b.masks <;> simp [Masks.type, Masks.toList, Added.row, hm, Masks.mask1,
      Masks.column2]
  rw [helperWrite, listLine, take_take, Nat.min_eq_left (by decide), ← hline]
  refine take_of_length_le (le_trans ?_ hlength)
  simp only [Added.words, spaced_append, length_append, length_cons, spaced_cons]
  omega

/-- **The list has the bans that were added and not removed since**, after every run whose requests
meet the condition; and it has them after one more request if and only if that one meets it. -/
theorem listed_iff {rs : List Request} (h : StepsMeet step Request.Meets empty rs) :
    ∃ db, run step empty rs = some db ∧ listBans db = listing (standing rs) ∧
      ∀ r, (∃ db', step db r = some db' ∧ Lists db' (standing (rs ++ [r]))) ↔ r.Meets db := by
  obtain ⟨hrun, hfits⟩ := run_spec h
  refine ⟨_, hrun, ?_, fun r => ?_⟩
  · have hlines : ∀ type, (rowsOf (standing rs) type).map (fun row =>
        helperWrite (listLine type row)) = ((standing rs).filter (·.masks.type = type)).map fun b =>
          spaced ([type.letter] :: b.masks.toList ++ [b.oper]) ++ ':' :: b.text := by
      intro type
      rw [rowsOf, List.map_map]
      refine map_congr_left fun b hb => ?_
      obtain ⟨hmem, htype⟩ := mem_filter.mp hb
      obtain rfl : b.masks.type = type := by simpa using htype
      exact listLine_row (hfits b hmem)
    simp [listBans, listing, hlines]
  · rw [standing_concat]
    exact step_iff rfl r

end Messages

/-- A K-line. -/
def spamKline : Added := ⟨.kline "*".toList "*.spam.example".toList, "oper".toList, 100, 1,
    "no".toList, []⟩

/-- An X-line. -/
def spamXline : Added := ⟨.xline "spam*".toList, "oper".toList, 100, 1, "no".toList, []⟩

/-- A K-line and an X-line are added, and the K-line is removed. -/
theorem listed_kline : ∃ db,
    run step empty [.add spamKline, .add spamXline, .del spamKline.masks] = some db ∧
      listBans db = listing (standing [.add spamKline, .add spamXline, .del spamKline.masks]) ∧
      ∀ r, (∃ db', step db r = some db' ∧ Lists db'
          (standing ([.add spamKline, .add spamXline, .del spamKline.masks] ++ [r]))) ↔
          r.Meets db := by
  refine listed_iff ⟨⟨by decide, by decide, by decide⟩, fun db _ => ?_⟩
  refine ⟨⟨by decide, by decide, by decide⟩, fun db' _ => ⟨?_, fun _ _ => trivial⟩⟩
  exact .inl (by decide)

/-- An X-line is added and removed, and it is still listed. -/
theorem xline_comes_back :
    (run step empty [.add spamXline, .del spamXline.masks]).map listBans =
        some ["C".toList, "X spam* oper :no".toList, "F".toList] ∧
      listing (standing [.add spamXline, .del spamXline.masks]) = ["C".toList, "F".toList] := by
  decide +kernel

end Ratbox.Bandb.Helper
