import Ratbox.Hash
import Ratbox.Hostmask.Case
import Ratbox.Nick.Commands

/-!
# Servers that connect

A connection that is not registered becomes a server when it gives a server name and a password that
a `connect` block has, and comes from the host of the block. The name it gives is taken for a mask:
it is enough that it matches the name of the block.

Source: `modules/core/m_server.c`, lines 103–259 and 654–782, `src/match.c`, lines 656–677, and
`src/s_newconf.c`, lines 471–486.

## Main definitions

* `Connect.ServerConf`, `Connect.Client`, `Connect.State`: `connect` blocks, a connection, and what
  is there.
* `Connect.checkServer`, `Connect.mrServer`: `check_server` and `mr_server`.
* `Connect.Configured`: a block of the name that is given lets the connection in.

## Main results

* `Connect.irccmp_of_chosen`: without wildcards a name matches only itself.
* `Connect.estab_configured_iff`: when a server is only let in under the name of a block.
-/

namespace Ratbox.Connect

open Text Match List

/-! ### The structures -/

/-- What is read of `struct server_conf`, with its flags. A certificate fingerprint that is not set
is empty. -/
structure ServerConf where
  name : Str
  host : Str
  passwd : Str
  certfp : Str
  illegal : Bool
  encrypted : Bool
  ssl : Bool
  compressed : Bool
  tb : Bool
  deriving DecidableEq

/-- A connection: the fields of `struct Client` and its `localClient`, the flags of `CAP_TS6`,
`CAP_ZIP` and `CAP_TB`, whether it does TS, and the block that is attached. -/
structure Client where
  name : Str
  id : Str
  host : Str
  sockhost : Str
  hopcount : ℤ
  passwd : Option Str
  certfp : Str
  ssl : Bool
  doesTs : Bool
  ts6 : Bool
  zip : Bool
  tb : Bool
  attSconf : Option ServerConf
  deriving DecidableEq

/-- `server_conf_list`, the names on `global_serv_list`, and the table `HASH_ID`. -/
structure State where
  serverConfList : List ServerConf
  globalServList : List Str
  hashId : Hash.Table

/-- The errors of `check_server`. -/
inductive Error
  | noNline
  | invalidPass
  | invalidHost
  | invalidServername
  | needSsl
  | invalidCertfp
  deriving DecidableEq

/-- What becomes of the connection: `exit_client` with a comment, or `server_estab`. -/
inductive Outcome
  | exit (comment : String)
  | estab (client : Client)
  deriving DecidableEq

/-- `IsServChar`. -/
def isServChar (c : Char) : Bool := Nick.isNickChar c || c == '*' || c == '.'

/-- `valid_servername`. -/
def validServername (servername : Str) :
    Bool := servername.all isServChar && servername.contains '.'

/-! ### Checking a server -/

section

variable (crypt : Str → Str → Option Str)

/-- The password is right. For an encrypted one, `rb_crypt` has to give the password of the
block. -/
def ServerConf.passwordOk (conf : ServerConf) (passwd : Str) : Bool :=
  if conf.encrypted then crypt passwd conf.passwd == some conf.passwd else conf.passwd == passwd

/-- The host or the address of the connection matches the host of the block. -/
def ServerConf.hostOk (conf : ServerConf) (c : Client) : Bool :=
  matchMask conf.host c.host || matchMask conf.host c.sockhost

/-- The loop of `check_server`, with the error so far. -/
def findConf (name passwd : Str) (c : Client) : Error → List ServerConf → Error ⊕ ServerConf
  | error, [] => .inl error
  | error, tmp :: confs =>
    if tmp.illegal then findConf name passwd c error confs
    else if !matchMask name tmp.name then findConf name passwd c error confs
    else if tmp.hostOk c then
      if tmp.passwordOk crypt passwd then .inr tmp else findConf name passwd c .invalidPass confs
    else findConf name passwd c .invalidHost confs

/-- `check_server`. -/
def checkServer (s : State) (name : Str) (c : Client) : Error ⊕ Client :=
  match c.passwd with
  | none => .inl .invalidPass
  | some passwd =>
    if hostLen < name.length then .inl .invalidServername
    else
      match findConf crypt name passwd c .noNline s.serverConfList with
      | .inl error => .inl error
      | .inr conf =>
        if conf.ssl && !c.ssl then .inl .needSsl
        else if conf.certfp ≠ [] ∧ (c.certfp = [] ∨ strcasecmp conf.certfp c.certfp = false) then
          .inl .invalidCertfp
        else .inr { c with attSconf := some conf, zip := c.zip && conf.compressed, tb := c.tb &&
          conf.tb }

/-- The comment of the exit for an error of `check_server`. -/
def Error.comment : Error → String
  | .noNline => "Invalid servername."
  | .invalidPass => "Invalid password."
  | .invalidHost => "Invalid host."
  | .invalidServername => "Invalid servername."
  | .needSsl => "Access denied, requires SSL/TLS but is plaintext"
  | .invalidCertfp => "Access denied, invalid certificate"

/-- `server_exists`. -/
def serverExists (s : State) (servername : Str) : Bool :=
  s.globalServList.any fun target => matchMask target servername || matchMask servername target

/-- The id of the connection is in `HASH_ID`. -/
def idExists (s : State) (c : Client) : Bool :=
  (Hash.hashFind ⟨.strcmp, 17, 0⟩ s.hashId c.id).isSome

/-- `mr_server`. -/
def mrServer (s : State) (name hopcount : Str) (c : Client) : Outcome :=
  if !c.doesTs then .exit "Non-TS server"
  else if !validServername name then .exit "Invalid servername."
  else
    match checkServer crypt s name c with
    | .inl error => .exit error.comment
    | .inr c =>
      if !c.ts6 then .exit "Incompatible TS version"
      else if serverExists s name then .exit "Server Exists"
      else if !c.id.isEmpty && idExists s c then .exit "SID Exists"
      else .estab { c with name := name, hopcount := atoi hopcount }

/-! ### Blocks that let a connection in -/

/-- What a block asks of a connection beside its name: its host and password, and SSL and a
certificate if it says so. -/
structure ServerConf.Fits (conf : ServerConf) (c : Client) : Prop where
  legal : conf.illegal = false
  host : conf.hostOk c = true
  password : ∃ passwd, c.passwd = some passwd ∧ conf.passwordOk crypt passwd = true
  ssl : conf.ssl = true → c.ssl = true
  certfp : conf.certfp ≠ [] → c.certfp ≠ [] ∧ strcasecmp conf.certfp c.certfp = true

/-- **A block of the name that is given lets the connection in.** -/
def Configured (s : State) (name : Str) (c : Client) : Prop :=
  ∃ conf ∈ s.serverConfList, irccmp conf.name name = true ∧ conf.Fits crypt c

/-- The name is taken for a mask of the name of a block, whose host and password are right. -/
structure Chosen (name : Str) (c : Client) (conf : ServerConf) : Prop where
  legal : conf.illegal = false
  name : matchMask name conf.name = true
  host : conf.hostOk c = true
  password : ∃ passwd, c.passwd = some passwd ∧ conf.passwordOk crypt passwd = true

/-- The rest of what `mr_server` asks. -/
structure Acceptable (s : State) (name : Str) (c : Client) : Prop where
  doesTs : c.doesTs = true
  valid : validServername name = true
  short : name.length ≤ hostLen
  ts6 : c.ts6 = true
  unknown : serverExists s name = false
  sid : c.id = [] ∨ idExists s c = false

variable {crypt} {s : State} {name passwd : Str} {c c' : Client} {conf : ServerConf} {error : Error}
  {confs : List ServerConf}

theorem findConf_eq_inr (hpasswd : c.passwd = some passwd) :
    findConf crypt name passwd c error confs = .inr conf ↔
      Chosen crypt name c conf ∧ ∃ first others, confs = first ++ conf :: others ∧
        ∀ d ∈ first, ¬Chosen crypt name c d := by
  have hchosen : ∀ d : ServerConf, Chosen crypt name c d ↔ d.illegal = false ∧
      matchMask name d.name = true ∧ d.hostOk c = true ∧ d.passwordOk crypt passwd = true := by
    intro d
    refine ⟨fun h => ?_, fun ⟨hlegal, hname, hhost, hpass⟩ => ⟨hlegal, hname, hhost, passwd,
      hpasswd, hpass⟩⟩
    obtain ⟨passwd', hsome, hpass⟩ := h.password
    cases hpasswd.symm.trans hsome
    exact ⟨h.legal, h.name, h.host, hpass⟩
  -- A block that is passed over is not chosen.
  have hpassed : ∀ {tmp confs}, ¬Chosen crypt name c tmp →
      ((Chosen crypt name c conf ∧ ∃ first others, confs = first ++ conf :: others ∧
        ∀ d ∈ first, ¬Chosen crypt name c d) ↔
      (Chosen crypt name c conf ∧ ∃ first others, tmp :: confs = first ++ conf :: others ∧
        ∀ d ∈ first, ¬Chosen crypt name c d)) := by
    intro tmp confs hnot
    refine and_congr_right fun hconf => ⟨?_, ?_⟩
    · rintro ⟨first, others, rfl, hfirst⟩
      exact ⟨tmp :: first, others, rfl, forall_mem_cons.mpr ⟨hnot, hfirst⟩⟩
    · rintro ⟨first, others, heq, hfirst⟩
      cases first with
      | nil => exact absurd ((cons.inj heq).1 ▸ hconf) hnot
      | cons d first => exact ⟨first, others, (cons.inj heq).2, (forall_mem_cons.mp hfirst).2⟩
  induction confs generalizing error with
  | nil => simp [findConf]
  | cons tmp confs ih =>
    rw [findConf]
    by_cases hnot : Chosen crypt name c tmp
    · obtain ⟨hlegal, hname, hhost, hpass⟩ := (hchosen tmp).mp hnot
      simp only [hlegal, hname, hhost, hpass, Bool.not_true, Bool.false_eq_true, if_false, if_true,
        Sum.inr.injEq]
      constructor
      · rintro rfl
        exact ⟨hnot, [], confs, rfl, fun d hd => absurd hd not_mem_nil⟩
      · rintro ⟨-, first, others, heq, hfirst⟩
        cases first with
        | nil => exact (cons.inj heq).1
        | cons d first => exact absurd ((cons.inj heq).1 ▸ hnot) (hfirst d mem_cons_self)
    · rw [← hpassed hnot]
      have hcond := mt (hchosen tmp).mpr hnot
      split_ifs with hillegal hname hhost hpass
      · exact ih
      · exact ih
      · exact absurd ⟨by simpa using hillegal, by simpa using hname, hhost, hpass⟩ hcond
      · exact ih
      · exact ih

/-- `check_server` lets a connection in by the first block that is chosen, if it has what the block
asks. -/
theorem checkServer_eq_inr : (∃ c', checkServer crypt s name c = .inr c') ↔
    name.length ≤ hostLen ∧ ∃ first conf others, s.serverConfList = first ++ conf :: others ∧
      Chosen crypt name c conf ∧ (∀ d ∈ first, ¬Chosen crypt name c d) ∧ conf.Fits crypt c := by
  rw [checkServer]
  cases hpasswd : c.passwd with
  | none =>
    simp only [reduceCtorEq, exists_false, false_iff]
    rintro ⟨-, first, conf, others, -, hconf, -⟩
    obtain ⟨passwd, hsome, -⟩ := hconf.password
    cases hpasswd.symm.trans hsome
  | some passwd =>
    dsimp only
    split_ifs with hlong
    · simp only [exists_false, false_iff]
      rintro ⟨hshort, -⟩
      exact absurd hlong (Nat.not_lt.mpr hshort)
    · have hshort := Nat.not_lt.mp hlong
      simp only [hshort, true_and]
      cases hfind : findConf crypt name passwd c .noNline s.serverConfList with
      | inl error =>
        simp only [reduceCtorEq, exists_false, false_iff]
        rintro ⟨first, conf, others, hlist, hconf, hfirst, -⟩
        have hinr : findConf crypt name passwd c .noNline s.serverConfList = .inr conf :=
          (findConf_eq_inr hpasswd).mpr ⟨hconf, first, others, hlist, hfirst⟩
        cases hfind.symm.trans hinr
      | inr conf =>
        obtain ⟨hconf, first, others, hlist, hfirst⟩ := (findConf_eq_inr hpasswd).mp hfind
        -- The block that is found is the only one that is chosen first.
        have honly : (∃ first conf others, s.serverConfList = first ++ conf :: others ∧
            Chosen crypt name c conf ∧ (∀ d ∈ first, ¬Chosen crypt name c d) ∧ conf.Fits crypt c) ↔
            conf.Fits crypt c := by
          refine ⟨?_, fun hfits => ⟨first, conf, others, hlist, hconf, hfirst, hfits⟩⟩
          rintro ⟨first', conf', others', hlist', hconf', hfirst', hfits⟩
          have hinr : findConf crypt name passwd c .noNline s.serverConfList = .inr conf' :=
            (findConf_eq_inr hpasswd).mpr ⟨hconf', first', others', hlist', hfirst'⟩
          rwa [Sum.inr.inj (hfind.symm.trans hinr)]
        rw [honly]
        dsimp only
        split_ifs with hssl hcertfp
        · simp only [exists_false, false_iff]
          intro hfits
          obtain ⟨hneeds, hplain⟩ := Bool.and_eq_true_iff.mp hssl
          exact absurd hplain (by simp [hfits.ssl hneeds])
        · simp only [exists_false, false_iff]
          intro hfits
          obtain ⟨hne, hsame⟩ := hfits.certfp hcertfp.1
          exact hcertfp.2.elim hne fun hother => absurd (hother.symm.trans hsame) (by simp)
        · refine iff_of_true ⟨_, rfl⟩ ⟨hconf.legal, hconf.host, hconf.password, fun hneeds => ?_,
            fun hset => ?_⟩
          · simpa [hneeds] using hssl
          · obtain ⟨hne, hsame⟩ := not_or.mp (not_and.mp hcertfp hset)
            exact ⟨hne, by simpa using hsame⟩

/-- When a server is let in. -/
theorem estab_iff {hopcount : Str} : (∃ c', mrServer crypt s name hopcount c = .estab c') ↔
    Acceptable s name c ∧ ∃ first conf others, s.serverConfList = first ++ conf :: others ∧
      Chosen crypt name c conf ∧ (∀ d ∈ first, ¬Chosen crypt name c d) ∧ conf.Fits crypt c := by
  have hcheck : (∃ c', checkServer crypt s name c = .inr c') ↔
      name.length ≤ hostLen ∧ ∃ first conf others, s.serverConfList = first ++ conf :: others ∧
        Chosen crypt name c conf ∧ (∀ d ∈ first, ¬Chosen crypt name c d) ∧ conf.Fits crypt c :=
    checkServer_eq_inr
  rw [mrServer]
  by_cases hts : c.doesTs = true
  · rw [if_neg (by simp [hts])]
    by_cases hvalid : validServername name = true
    · rw [if_neg (by simp [hvalid])]
      cases hresult : checkServer crypt s name c with
      | inl error =>
        simp only [reduceCtorEq, exists_false, false_iff]
        rintro ⟨hok, hfound⟩
        obtain ⟨c', hc'⟩ := hcheck.mpr ⟨hok.short, hfound⟩
        cases hresult.symm.trans hc'
      | inr c' =>
        obtain ⟨hshort, hfound⟩ := hcheck.mp ⟨c', hresult⟩
        -- The fields that are read here are those of the connection.
        obtain ⟨hts6, hid⟩ : c'.ts6 = c.ts6 ∧ c'.id = c.id := by
          rw [checkServer] at hresult
          cases hpasswd : c.passwd with
          | none => simp [hpasswd] at hresult
          | some passwd =>
            rw [hpasswd] at hresult
            dsimp only at hresult
            split_ifs at hresult
            cases hfind : findConf crypt name passwd c .noNline s.serverConfList with
            | inl error => simp [hfind] at hresult
            | inr conf =>
              rw [hfind] at hresult
              dsimp only at hresult
              split_ifs at hresult
              cases hresult
              exact ⟨rfl, rfl⟩
        have hsid : idExists s c' = idExists s c := by rw [idExists, hid, idExists]
        dsimp only
        rw [hts6, hid, hsid]
        split_ifs with hno hexists hused
        · exact iff_of_false (by simp) fun h => by simp [h.1.ts6] at hno
        · exact iff_of_false (by simp) fun h => by simp [h.1.unknown] at hexists
        · refine iff_of_false (by simp) fun h => ?_
          rcases h.1.sid with hempty | hfree
          · simp [hempty] at hused
          · simp [hfree] at hused
        · refine iff_of_true ⟨_, rfl⟩
            ⟨⟨hts, hvalid, hshort, by simpa using hno, by simpa using hexists, ?_⟩, hfound⟩
          rw [Bool.and_eq_true_iff, not_and_or] at hused
          exact hused.imp (by simp) (by simp)
    · rw [if_pos (by simpa using hvalid)]
      exact iff_of_false (by simp) fun h => hvalid h.1.valid
  · rw [if_pos (by simpa using hts)]
    exact iff_of_false (by simp) fun h => hts h.1.doesTs

/-- **A name without `*` that is valid only matches itself.** -/
theorem irccmp_of_chosen (hvalid : validServername name = true) (hstar : '*' ∉ name)
    (h : Chosen crypt name c conf) : irccmp conf.name name = true := by
  have hwild : ∀ ch ∈ name, isWild ch = false := by
    intro ch hch
    have hserv := all_eq_true.mp (Bool.and_eq_true_iff.mp hvalid).1 ch hch
    rw [isWild, Bool.or_eq_false_iff]
    rw [beq_eq_false_iff_ne, beq_eq_false_iff_ne]
    constructor
    · rintro rfl
      exact hstar hch
    · rintro rfl
      cases hserv
  rw [irccmp_comm]
  exact Hostmask.irccmp_of_matchMask h.name hwild

/-- The name has no `*`. Or it has one, and the connection is refused, or the first block that the
name matches as a mask, with the right host and password, refuses it; or there is a block that has
this very name, with the `*`, and fits. -/
def Named (crypt : Str → Str → Option Str) (s : State) (name : Str) (c : Client) : Prop :=
  '*' ∉ name ∨ ¬Acceptable s name c ∨
    (∀ first conf others, s.serverConfList = first ++ conf :: others → Chosen crypt name c conf →
      (∀ d ∈ first, ¬Chosen crypt name c d) → ¬conf.Fits crypt c) ∨
    ∃ d ∈ s.serverConfList, '*' ∈ d.name ∧ irccmp d.name name = true ∧ d.Fits crypt c

/-- **A server is only let in under the name of a block** if and only if its name has no `*`, or it
is refused, or a block has the name with the `*`. -/
theorem estab_configured_iff (crypt : Str → Str → Option Str) (s : State) (name hopcount : Str)
    (c : Client) :
    ((∃ c', mrServer crypt s name hopcount c = .estab c') → Configured crypt s name c) ↔
    Named crypt s name c := by
  rw [estab_iff, Named]
  constructor
  · intro h
    by_cases hstar : '*' ∈ name
    · by_cases hok : Acceptable s name c
      · by_cases hfound : ∃ first conf others, s.serverConfList = first ++ conf :: others ∧
          Chosen crypt name c conf ∧ (∀ d ∈ first, ¬Chosen crypt name c d) ∧ conf.Fits crypt c
        · obtain ⟨d, hd, hname, hfits⟩ := h ⟨hok, hfound⟩
          have hmem : '*' ∈ d.name :=
            ((Hostmask.sameCase_iff.mpr hname).mem_iff (by simp)).mpr hstar
          exact .inr (.inr (.inr ⟨d, hd, hmem, hname, hfits⟩))
        · refine .inr (.inr (.inl fun first conf others hlist hconf hfirst hfits => ?_))
          exact hfound ⟨first, conf, others, hlist, hconf, hfirst, hfits⟩
      · exact .inr (.inl hok)
    · exact .inl hstar
  · rintro h ⟨hok, first, conf, others, hlist, hconf, hfirst, hfits⟩
    rcases h with hstar | hnot | hrefused | ⟨d, hd, -, hname, hfits⟩
    · exact ⟨conf, by simp [hlist], irccmp_of_chosen hok.valid hstar hconf, hfits⟩
    · exact absurd hok hnot
    · exact absurd hfits (hrefused first conf others hlist hconf hfirst)
    · exact ⟨d, hd, hname, hfits⟩

/-- A block for `hub.x`. -/
def hubConf : ServerConf :=
  ⟨"hub.x".toList, "*".toList, "secret".toList, [], false, false, false, false, false⟩

/-- A connection that gives the password of the block. -/
def connection : Client :=
  ⟨[], "1AA".toList, "h".toList, "10.0.0.1".toList, 0, some "secret".toList, [], false, true, true,
    false, false, none⟩

/-- A server is let in under the name `*.x`, which no block has. -/
theorem mrServer_wildcard :
    (∃ c', mrServer (fun _ _ => none) ⟨[hubConf], [], Hash.Table.empty⟩ "*.x".toList "1".toList
        connection = .estab c') ∧
      ¬Configured (fun _ _ => none) ⟨[hubConf], [], Hash.Table.empty⟩ "*.x".toList connection := by
  refine ⟨⟨{ connection with name := "*.x".toList, hopcount := 1, attSconf := some hubConf
    }, by decide +kernel⟩, ?_⟩
  rintro ⟨d, hd, hname, -⟩
  rw [mem_singleton.mp hd] at hname
  cases hname

end

end Ratbox.Connect
