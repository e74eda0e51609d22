import Ratbox.Bandb.Helper
import Ratbox.Bandb.Prevailing

/-!
# Restoring the bans of the database

When the server starts or rehashes, the helper lists the bans in its database, and the server puts
those in force that it makes of the list. A ban comes back as it was if it got into the database
whole, its reason for users has no bar, nothing is in its way when the list ends, and no permanent
D-line is in force when the list begins.

Source: `src/bandbi.c`, lines 134–441, `bandb/bandb.c`, lines 62–156, and `libratbox/src/tools.c`,
lines 82–139.

## Main definitions

* `Bandb.rebuilt`: the ban that the server makes of the line for a row.
* `Helper.Added.pending`: the ban that `bandb_add` is told of.
* `Bandb.Installs`: nothing is in the way of a ban.

## Main results

* `Bandb.survives_iff`: when a ban that was added is in force after the list.
-/

namespace Ratbox.Bandb

open Text Run Helper List Option Function Masks
open Dlines hiding step

/-! ### The list that is received -/

/-- The messages of the helper, as `bandb_parse` takes them apart. -/
def messages (db : Db) : List (List Str) := (listBans db).map (stringToArray 15)

/-- The ban that is made of the line for a row. -/
def rebuilt (type : BandType) (row : Row) : Option Pending :=
  handleBan type.letter (stringToArray 15 (helperWrite (listLine type row)))

/-- The status of a ban. -/
def Helper.Masks.status : Masks → Status
  | .kline _ _ => .kill
  | .dline _ => .dline
  | .xline _ => .xline
  | .resv name => if Channel.isChannelName name then .resvChannel else .resvNick

/-- The user of a K-line. -/
def Helper.Masks.user : Masks → Option Str
  | .kline user _ => some user
  | _ => none

/-- The mask that is the host of a conf. -/
def Helper.Masks.host : Masks → Str
  | .kline _ host => host
  | .dline host => host
  | .xline gecos => gecos
  | .resv name => name

/-- The ban that `bandb_add` is told of. -/
def Helper.Added.pending (b : Added) : Pending :=
  ⟨b.masks.status, b.masks.user, b.masks.host, b.reason, if b.operReason = [] then none
    else some b.operReason, b.oper⟩

/-! ### Rows that are stored -/

/-- A row of the database: its masks and the name of the oper are words, and its line is not cut. -/
structure Sound (type : BandType) (row : Row) : Prop where
  words : ∀ w ∈ row.mask1 :: row.mask2.toList ++ [row.oper], Word w
  kline : row.mask2.isSome ↔ type = .kline
  length : (spaced ([type.letter] :: row.mask1 :: row.mask2.toList ++ [row.oper]) ++ ':' ::
    row.reason).length ≤ 510

section Rows

variable {type : BandType} {row : Row} {db db' : Db} {b : Added} {r : Request}

/-- A line for a row is taken apart into what is in the row. -/
theorem Sound.parv (h : Sound type row) : stringToArray 15 (helperWrite (listLine type row)) =
    [type.letter] :: row.mask1 :: row.mask2.toList ++ [row.oper, row.reason] := by
  have hline : spaced ([type.letter] :: row.mask1 :: row.mask2.toList ++ [row.oper]) ++ ':' ::
      row.reason = if type = .kline then
        [type.letter] ++ " ".toList ++ row.mask1 ++ " ".toList ++ row.mask2.getD "(null)".toList ++
          " ".toList ++ row.oper ++ " :".toList ++ row.reason
      else [type.letter] ++ " ".toList ++ row.mask1 ++ " ".toList ++ row.oper ++ " :".toList ++
          row.reason := by
    have hkline := h.kline
    cases hmask2 : row.mask2 with
    | none =>
      rw [if_neg fun htype => by simp [hmask2, htype] at hkline]
      simp
    | some mask2 =>
      rw [if_pos (hkline.mp (by simp [hmask2]))]
      simp
  have hletter : Word [type.letter] := by cases type <;> decide
  have hws : ∀ w ∈ [type.letter] :: row.mask1 :: row.mask2.toList ++ [row.oper], Word w := by
    rw [cons_append]
    exact forall_mem_cons.mpr ⟨hletter, h.words⟩
  have hlength : ([type.letter] :: row.mask1 :: row.mask2.toList ++ [row.oper]).length +
      2 ≤ 15 := by
    cases row.mask2 <;> simp
  rw [helperWrite, listLine, take_take, Nat.min_eq_left (by decide), ← hline,
    take_of_length_le h.length, stringToArray_append hws hlength, stringToArray_colon (by omega)]
  simp

/-- A ban is made of each line for a row. -/
theorem Sound.rebuilt (h : Sound type row) : rebuilt type row = some (makePending type.letter
    (if type = .kline then some row.mask1 else none) (row.mask2.getD row.mask1) row.oper
    row.reason) := by
  have hkline := h.kline
  rw [Bandb.rebuilt, h.parv]
  cases hmask2 : row.mask2 with
  | none =>
    have htype : type ≠ .kline := fun heq => by simp [hmask2, heq] at hkline
    rw [if_neg htype]
    cases type with
    | kline => exact absurd rfl htype
    | dline | xline | resv => rfl
  | some mask2 =>
    obtain rfl := hkline.mp (by simp [hmask2])
    rfl

/-- The row that is made of the words of a message is sound. -/
theorem sound_of_parv {s : Str} (hs : s.length ≤ 510) (hkline : row.mask2.isSome ↔ type = .kline)
    (hparv : stringToArray 10 s =
      [type.letter] :: (row.mask1 :: row.mask2.toList ++
        [row.oper, row.time, row.perm, row.reason])) :
    Sound type row := by
  have hsplit : stringToArray 10 s = ([type.letter] :: (row.mask1 :: row.mask2.toList ++
      [row.oper]) ++ [row.time, row.perm]) ++ [row.reason] := by
    rw [hparv]
    simp
  have hwords :
      ∀ w ∈ [type.letter] :: (row.mask1 :: row.mask2.toList ++ [row.oper]) ++ [row.time, row.perm],
          Word w := by
    intro w hw
    refine word_of_stringToArray (m := 10) (s := s) ?_
    rwa [hsplit, dropLast_concat]
  refine ⟨fun w hw => hwords w (mem_append_left _ (mem_cons_of_mem _ hw)), hkline, ?_⟩
  have hle := length_spaced_le hsplit
  have htime := length_pos_iff.mpr (hwords row.time (by simp)).ne_nil
  simp only [cons_append, spaced_cons, spaced_append, spaced_nil, length_append, length_cons,
    length_nil] at hle ⊢
  omega

/-- A request keeps the rows of the database sound. -/
theorem sound_step (h : ∀ type, ∀ row ∈ db type, Sound type row) (hstep : step db r = some db') :
    ∀ type, ∀ row ∈ db' type, Sound type row := by
  cases r with
  | add b =>
    obtain ⟨tail, hparv, hadd⟩ := step_add db b
    rw [hadd] at hstep
    rcases parseBan_cases hstep with rfl | ⟨row, rfl, rfl, hkline⟩
    · exact h
    · intro type row' hrow'
      by_cases htype : type = b.masks.type
      · subst htype
        rw [update_self] at hrow'
        rcases mem_append.mp hrow' with hrow' | hrow'
        · exact h _ _ hrow'
        · rw [mem_singleton.mp hrow']
          exact sound_of_parv (length_take_le _ _) hkline hparv
      · rw [update_of_ne htype] at hrow'
        exact h type row' hrow'
  | del m =>
    obtain ⟨tail, -, hdel⟩ := step_del db m
    rw [hdel] at hstep
    cases hstep
    exact fun type row hrow => h type row (mem_of_parseUnban hrow)

/-- The rows of the database are sound. -/
theorem sound_run {rs : List Request} (hrun : run step empty rs = some db) :
    ∀ type, ∀ row ∈ db type, Sound type row := by
  have hok : StepsMeet step (fun _ _ => True) empty rs :=
    StepsMeet.of_forall (fun _ _ => trivial) _ _
  exact Run.invariant (fun db => ∀ type, ∀ row ∈ db type, Sound type row)
    (fun _ _ _ h _ hstep => sound_step h hstep) (fun _ _ hrow => absurd hrow not_mem_nil) hok hrun

/-! ### Reasons -/

/-- A reason is cut at its first bar into those that were written if and only if the first one has
no bar. -/
theorem bar_iff (text reason operReason : Str) :
    (text.takeWhile (· != '|') = reason ∧
      (if '|' ∈ text then some ((text.dropWhile (· != '|')).drop 1) else none) =
      (if operReason = [] then none else some operReason)) ↔
    '|' ∉ reason ∧ text = reason ++ if operReason = [] then [] else '|' :: operReason := by
  constructor
  · rintro ⟨rfl, hoper⟩
    refine ⟨fun hmem => by simpa using mem_takeWhile_imp hmem, ?_⟩
    by_cases hbar : '|' ∈ text
    · rw [if_pos hbar] at hoper
      obtain ⟨c, rest, hdrop⟩ := exists_cons_of_ne_nil (l := text.dropWhile (· != '|'))
          fun hnil => by
        simpa using dropWhile_eq_nil_iff.mp hnil '|' hbar
      have hc : c = '|' := by
        have hhead := head?_dropWhile_not (· != '|') text
        rw [hdrop] at hhead
        simpa using hhead
      subst hc
      have hsplit := takeWhile_append_dropWhile (p := (· != '|')) (l := text)
      rw [hdrop, drop_succ_cons, drop_zero] at hoper
      by_cases hempty : operReason = []
      · rw [if_pos hempty] at hoper
        cases hoper
      · rw [if_neg hempty] at hoper ⊢
        rw [← some.inj hoper, ← hdrop, hsplit]
    · rw [if_neg hbar] at hoper
      by_cases hempty : operReason = []
      · rw [if_pos hempty, append_nil]
        refine (takeWhile_eq_self_iff.mpr fun c hc => ?_).symm
        rw [bne_iff_ne]
        rintro rfl
        exact hbar hc
      · rw [if_neg hempty] at hoper
        cases hoper
  · rintro ⟨hbar, rfl⟩
    have hne : ∀ c ∈ reason, (c != '|') = true := fun c hc => by
      rw [bne_iff_ne]
      rintro rfl
      exact hbar hc
    rw [takeWhile_append_of_pos hne, dropWhile_append_of_pos hne]
    by_cases hempty : operReason = []
    · simp [hempty, hbar]
    · simp [hempty]

/-- The masks of a row make the status, the user and the host of a ban if and only if they are its
masks. -/
theorem masks_iff {m : Masks} (hkline : row.mask2.isSome ↔ m.type = .kline) (oper reason : Str) :
    ((makePending m.type.letter (if m.type = .kline then some row.mask1 else none)
        (row.mask2.getD row.mask1) oper reason).status = m.status ∧
      (if m.type = .kline then some row.mask1 else none) = m.user ∧ row.mask2.getD row.mask1 =
      m.host) ↔
    row.mask1 = m.mask1 ∧ row.mask2 = m.column2 := by
  cases m with
  | kline user host =>
    obtain ⟨mask2, hmask2⟩ := isSome_iff_exists.mp (hkline.mpr rfl)
    simp [hmask2, makePending, Masks.type, BandType.letter, Masks.status, Masks.user, Masks.host,
      Masks.mask1, Masks.column2]
  | dline host =>
    have hmask2 : row.mask2 = none := by simpa [Masks.type] using hkline
    simp [hmask2, makePending, Masks.type, BandType.letter, Masks.status, Masks.user, Masks.host,
      Masks.mask1, Masks.column2]
  | xline gecos =>
    have hmask2 : row.mask2 = none := by simpa [Masks.type] using hkline
    simp [hmask2, makePending, type, BandType.letter, status, user, host, mask1,
      column2]
  | resv name =>
    have hmask2 : row.mask2 = none := by simpa [type] using hkline
    have hstatus : row.mask1 = name → (makePending 'R' none row.mask1 oper reason).status =
        (resv name).status := by
      rintro rfl
      rfl
    simpa [hmask2, type, BandType.letter, user, host, mask1, column2] using hstatus

/-- The ban that is made of the line for a row is a ban that was added if and only if it has the
texts of it, and the reason has no bar. -/
theorem rebuilt_eq_iff (h : Sound b.masks.type row) : rebuilt b.masks.type row = some b.pending ↔
    row.listed = b.row.listed ∧ '|' ∉ b.reason := by
  have hmasks := masks_iff h.kline row.oper row.reason
  have hbar := bar_iff row.reason b.reason b.operReason
  have htext : b.text = b.reason ++ if b.operReason = [] then [] else '|' :: b.operReason := rfl
  rw [h.rebuilt, some.injEq, Added.pending]
  simp only [makePending, Pending.mk.injEq, Ban.mk.injEq, Row.listed, Added.row, Prod.mk.injEq,
    htext] at hmasks ⊢
  constructor
  · rintro ⟨hstatus, huser, hhost, hpasswd, hspasswd, hoper⟩
    obtain ⟨hmask1, hmask2⟩ := hmasks.mp ⟨hstatus, huser, hhost⟩
    obtain ⟨hnone, hreason⟩ := hbar.mp ⟨hpasswd, hspasswd⟩
    exact ⟨⟨hmask1, hmask2, hoper, hreason⟩, hnone⟩
  · rintro ⟨⟨hmask1, hmask2, hoper, hreason⟩, hnone⟩
    obtain ⟨hstatus, huser, hhost⟩ := hmasks.mpr ⟨hmask1, hmask2⟩
    obtain ⟨hpasswd, hspasswd⟩ := hbar.mpr ⟨hnone, hreason⟩
    exact ⟨hstatus, huser, hhost, hpasswd, hspasswd, hoper⟩

/-- **A ban is stored whole**, and made again of its row, if and only if it is made of words and not
cut, and its reason has no bar. -/
theorem stored_iff (hsound : ∀ type, ∀ row ∈ db' type, Sound type row)
    (hadd : step db (.add b) = some db') :
    (∃ row, db' b.masks.type = db b.masks.type ++ [row] ∧ rebuilt b.masks.type row =
      some b.pending) ↔ b.Fits ∧ '|' ∉ b.reason := by
  constructor
  · rintro ⟨row, hrows, hrebuilt⟩
    have hrow : Sound b.masks.type row := hsound _ row (by simp [hrows])
    obtain ⟨hlisted, hbar⟩ := (rebuilt_eq_iff hrow).mp hrebuilt
    exact ⟨fits_of_step_add hadd (by rw [hrows, map_append, ← hlisted]; rfl), hbar⟩
  · rintro ⟨hfits, hbar⟩
    cases hadd.symm.trans (step_add_row db hfits)
    have hrows : update db b.masks.type (db b.masks.type ++ [b.row]) b.masks.type =
        db b.masks.type ++ [b.row] := update_self ..
    exact ⟨b.row, hrows, (rebuilt_eq_iff (hsound _ b.row (by simp))).mpr ⟨rfl, hbar⟩⟩

end Rows

/-! ### Bans that come back -/

/-- The bans of a list, in the order in which they are sent. -/
def listed (db : Db) :
    List Pending := BandType.all.flatMap fun type => (db type).filterMap (rebuilt type)

/-- The bans of a list, in the order in which they are looked at: the last one first. -/
def pendings (db : Db) : List Pending := (listed db).reverse

/-- **Nothing is in the way of a ban.** For a D-line: no other one that is listed before it is for
its bits. Another ban prevails among those of the list. -/
def Installs (s : State) (db : Db) (p : Pending) : Prop :=
  if p.status = .dline then Last (dlinesOf (pendings db)) p.ban else p ∈ prevailing s.free
    (others (listed db))

section Restoring

variable {s s' : State} {db db' db'' : Db} {b : Added} {type : BandType} {row : Row} {p q : Pending}
  {ps : List Pending}

/-- A line for a row is received. -/
theorem parse_row (h : Sound type row) (hp : rebuilt type row = some p) (s : State) :
    parse s (stringToArray 15 (helperWrite (listLine type row))) =
    some { s with pending := p :: s.pending } := by
  have hletter : letter (stringToArray 15 (helperWrite (listLine type row))) =
      some type.letter := by
    rw [h.parv]
    rfl
  rw [parse_letter, hletter]
  rw [rebuilt] at hp
  cases type <;> exact congrArg (Option.map _) hp

/-- The lines for the rows of a table are received. -/
theorem run_rows {rows : List Row} (h : ∀ row ∈ rows, Sound type row) (s : State) :
    run parse s (rows.map fun row => stringToArray 15 (helperWrite (listLine type row))) =
      some { s with pending := (rows.filterMap (rebuilt type)).reverse ++ s.pending } := by
  induction rows generalizing s with
  | nil => rfl
  | cons row rows ih =>
    have hrow := h row mem_cons_self
    have hp := hrow.rebuilt
    rw [map_cons, run, parse_row hrow hp, bind_some, ih fun r hr => h r (mem_cons_of_mem row hr),
      filterMap_cons_some hp]
    simp

/-- The lines for the rows of all tables are received. -/
theorem run_tables (h : ∀ type, ∀ row ∈ db type, Sound type row) (s : State) :
    run parse s
      ((BandType.all.flatMap fun type => (db type).map fun row =>
        helperWrite (listLine type row)).map (stringToArray 15)) =
        some { s with pending := pendings db ++ s.pending } := by
  rw [pendings, listed]
  generalize BandType.all = types
  induction types generalizing s with
  | nil => rfl
  | cons type types ih =>
    rw [List.flatMap_cons, List.map_append, run_append, List.map_map]
    have hrows := run_rows (h type) s
    rw [show ((stringToArray 15) ∘ fun row => helperWrite (listLine type row)) =
      fun row => stringToArray 15 (helperWrite (listLine type row)) from rfl, hrows, bind_some, ih]
    simp

/-- A list that begins while a permanent D-line is in force ends the server. -/
theorem run_messages_none (h : Ready s) {ban : Dlines.Ban} (hban : s.Holds ban .dline) (db : Db) :
    run parse s (messages db) = none := by
  have hclear : parse s ["C".toList] = none := by
    have hready : Ready s.handleClear := ⟨h.dlines, h.names, h.perm, h.nodup⟩
    refine (handleFinish_ready hready).trans ?_
    cases hcleared : s.handleClear.cleared with
    | none => rfl
    | some t => exact absurd hban (((cleared_iff hready).mp hcleared).1 ban)
  rw [messages, listBans, map_append, map_cons]
  exact congrArg (bind · _) hclear

/-- **A list is received.** -/
theorem run_messages (h : Ready s) (hnone : ∀ ban, ¬s.Holds ban .dline)
    (hsound : ∀ type, ∀ row ∈ db type, Sound type row) :
    ∃ s', run parse s (messages db) = some s' ∧ Ready s' ∧ ∀ q, s'.InForce q ↔ Installs s db q := by
  obtain ⟨hready, -⟩ := h.temporaries hnone
  -- The letter that clears what is pending also ends a list without bans.
  have hclear : parse s ["C".toList] = some s.temporaries := by
    have hready' : Ready s.handleClear := ⟨h.dlines, h.names, h.perm, h.nodup⟩
    exact (handleFinish_ready hready').trans (by rw [(cleared_iff hready').mpr ⟨hnone, rfl⟩]; rfl)
  have hready' : Ready { s.temporaries with pending := pendings db } :=
    ⟨hready.dlines, hready.names, hready.perm, hready.nodup⟩
  obtain ⟨s', hfinish, hready'', hforce⟩ := handleFinish_any hready' hnone
  refine ⟨s', ?_, hready'', fun q => ?_⟩
  · have hmessages : messages db = ["C".toList] :: (BandType.all.flatMap fun type =>
        (db type).map fun row =>
        helperWrite (listLine type row)).map (stringToArray 15) ++ [["F".toList]] := by
      rw [messages, listBans, map_append, map_cons]
      rfl
    rw [hmessages, cons_append, run, hclear, bind_some, run_append, run_tables hsound, bind_some,
      State.temporaries, append_nil, run]
    exact congrArg (bind · _) hfinish
  · rw [hforce, Installs]
    split_ifs
    · exact Iff.rfl
    rw [temporaries_temporaries]
    dsimp only
    rw [pendings, others, filter_reverse]
    exact (mem_accepted_iff s fun p hp => by simpa using (mem_filter.mp hp).2).2 q

/-- **A ban that was added comes back** as it was, after any other requests, if and only if its
masks and the name of the oper are words, its line is not cut, its reason for users has no bar, no
permanent D-line is in force when the list begins, and nothing is in its way. -/
theorem survives_iff (h : Ready s) {rs later : List Request} (hrun : run step empty rs = some db)
    (hadd : step db (.add b) = some db') (hlater : run step db' later = some db'') :
    ((∃ row, db' b.masks.type = db b.masks.type ++ [row] ∧ rebuilt b.masks.type row =
      some b.pending) ∧ ∃ s', run parse s (messages db'') = some s' ∧ s'.InForce b.pending) ↔
    (b.Fits ∧ '|' ∉ b.reason) ∧ (∀ ban, ¬s.Holds ban .dline) ∧ Installs s db'' b.pending := by
  have hsound : ∀ type, ∀ row ∈ db' type, Sound type row := sound_step (sound_run hrun) hadd
  have hall : ∀ type, ∀ row ∈ db'' type, Sound type row := by
    have hwhole : run step empty (rs ++ .add b :: later) = some db'' := by
      rw [run_append, hrun, bind_some, run, hadd, bind_some, hlater]
    exact sound_run hwhole
  refine and_congr (stored_iff hsound hadd) ?_
  by_cases hnone : ∀ ban, ¬s.Holds ban .dline
  · obtain ⟨s', hs', -, hforce⟩ := run_messages h hnone hall
    rw [hs', ← hforce]
    simp only [some.injEq, exists_eq_left']
    exact (and_iff_right hnone).symm
  · obtain ⟨ban, hban⟩ := not_forall_not.mp hnone
    rw [run_messages_none h hban]
    simp [hnone]

end Restoring

/-- At first there is no D-line. -/
theorem init_holds (ban : Dlines.Ban) : ¬init.Holds ban .dline := by
  rintro ⟨id, c, a, hc, -⟩
  exact absurd hc (by simp [init, Dlines.init])

/-- A K-line is added, and comes back. -/
theorem survives_kline : ∃ db', step empty (.add spamKline) = some db' ∧
    ∃ s', run parse init (messages db') = some s' ∧ s'.InForce spamKline.pending := by
  have hfits : spamKline.Fits := ⟨by decide, by decide, by decide⟩
  have hadd := step_add_row empty hfits
  have hrun : run step empty [] = some empty := rfl
  have hlater : run step (update empty .kline [spamKline.row]) [] =
      some (update empty .kline [spamKline.row]) := rfl
  refine ⟨_, hadd, ((survives_iff inv_init.ready hrun hadd hlater).mpr ⟨⟨hfits, by decide⟩,
    init_holds, ?_⟩).2⟩
  rw [Installs, if_neg (by decide)]
  decide +kernel

/-- A K-line whose host begins with a colon. -/
def colonKline : Added :=
  ⟨.kline "*".toList "::cafe".toList, "oper".toList, 100, 1, "no".toList, []⟩

/-- The helper does not store a K-line whose host begins with a colon, and it is not in force after
the list. -/
theorem colonKline_lost : step empty (.add colonKline) = some empty ∧
    ∃ s', run parse init (messages empty) = some s' ∧ ¬s'.InForce colonKline.pending := by
  refine ⟨rfl, ?_⟩
  have hsound : ∀ type, ∀ row ∈ empty type, Sound type row :=
    fun _ _ hrow => absurd hrow not_mem_nil
  obtain ⟨s', hs', -, hforce⟩ := run_messages inv_init.ready init_holds hsound
  refine ⟨s', hs', fun hin => ?_⟩
  have hinstalls := (hforce _).mp hin
  rw [Installs, if_neg (by decide)] at hinstalls
  exact absurd hinstalls (by decide +kernel)

end Ratbox.Bandb
