import Ratbox.Resolver
import Ratbox.Banlist.Basic
import Ratbox.Lib.SavedNext

/-!
# Checks of a new connection

Before a connection may register, the server looks up the name of its address, asks its host who the
user is, and asks the lists of banned addresses. An answer comes from the resolver or over a
connection, after the function that asks or while it runs: a lookup fails at once when there is no
helper, and the answers of other lookups are read when a helper is started. The request is freed,
and the client added to the list of clients, by what clears the last of the three flags; a client
that exits has its request freed too.

Source: `src/s_auth.c`, lines 77–258, 274–614 and 686–877, `src/client.c`, lines 1138–1169, and
`src/dns.c`, as in `Ratbox.Resolver`.

## Main definitions

* `Auth.AuthRequest`, `Auth.State`: the requests, what the server is in the middle of, and what
  happened.
* `Auth.releaseAuthClient`, `Auth.deleteAuthQueries`: what frees a request.
* `Auth.callback`: what an answer of the resolver does.
* `Auth.step`: all steps.

## Implementation notes

`start_auth` makes a step for each call that may call something back, and the event that looks for
requests whose time is over a step for each request. In between other steps may be made; those that
only the main loop makes are made when neither is running. A request that was freed is no longer in
the table; what still uses it is in the list of what happened. A query to a list of banned addresses
may be freed before its number is written to it; this write, and the use of a helper that was freed
when it was restarted, are not modelled, nor are the lists' reference counts, the closing of
descriptors, and what a client that was added then sends.
-/

namespace Ratbox.Auth

open Text Address Match Banlist SavedNext Function

/-! ### What the checks find -/

/-- `HeaderMessages`. -/
inductive Report
  | doDns | finDns | failDns | doId | finId | failId | hostTooLong | doRbl | finRbl
  deriving DecidableEq

/-- A list of banned addresses: its zone, its flags, the answers with their masks, and what to say
for any other answer. -/
structure Rbl where
  rblname : Str
  flags : BitVec 8
  answers : List (Str × Str)
  moAnswer : Str
  deriving DecidableEq

/-- `RBL_FLAG_ISV4` and so on. -/
def rblFlagIsv4 : BitVec 8 := 0x1
@[inherit_doc rblFlagIsv4] def rblFlagIsv6 : BitVec 8 := 0x2
@[inherit_doc rblFlagIsv4] def rblFlagMatchOther : BitVec 8 := 0x8

/-- `rbl_isv4`. -/
def Rbl.isv4 (t : Rbl) : BitVec 8 := t.flags &&& rblFlagIsv4

/-- `rbl_isv6`. -/
def Rbl.isv6 (t : Rbl) : BitVec 8 := t.flags &&& rblFlagIsv6

/-- `rbl_ismatchother`. -/
def Rbl.matchOther (t : Rbl) : Bool := t.flags &&& rblFlagMatchOther ≠ 0

/-- `match_ips`, for addresses of a family. -/
def ipsMatch (family : Family) (cidrlen : ℤ) (mask address : Str) : Bool :=
  if (family.bits : ℤ) < cidrlen then false
  else
    match inetPton family address, inetPton family mask with
    | some addr, some dest =>
      Patricia.compWithMask (Ip.bytes ⟨family, addr⟩) (Ip.bytes ⟨family, dest⟩) cidrlen.toNat
    | _, _ => false

/-- `match_ips`. -/
def matchIps (s1 s2 : Str) : Bool :=
  let address := strlcpy s2 (hostLen + 1)
  match splitLast '/' (strlcpy s1 ircdBufsize) with
  | none => false
  | some (mask, len) =>
    if atoi len ≤ 0 then false
    else if ':' ∈ mask ∧ ':' ∈ address then ipsMatch .inet6 (atoi len) mask address
    else if ':' ∉ mask ∧ ':' ∉ address then ipsMatch .inet (atoi len) mask address
    else false

/-- A mask of one digit is the last octet. -/
def lastOctet (mask : Str) (addr : List UInt8) : Bool :=
  match mask with
  | [c] => isDigit c && addr[3]? == some (UInt8.ofInt (atoi [c]))
  | _ => false

/-- The reason with which `rbl_dns_callback` bans the client. -/
def Rbl.reason (t : Rbl) (result : Str) (status : ℤ) (aftype : Option Family) : Option Str :=
  if status ≠ 1 ∨ aftype ≠ some .inet then none
  else
    match inetPton .inet result with
    | none => none
    | some addr =>
      match t.answers.find? fun res => lastOctet res.1 addr || matchMask res.1 result ||
        matchIps res.1 result with
      | some res => some res.2
      | none =>
        if t.matchOther then
          some (if t.moAnswer = [] then "IP Address: ${ip} banned by RBL".toList else t.moAnswer)
        else none

/-- `RBL_HOSTLEN`. -/
def rblHostlen : ℕ := 255

/-- `rbl_string`: the text that is left in `hostbuf`. -/
def rblString (addr : Ip) (domain : Str) : Str :=
  let text := addr.add.reverse.flatMap fun b =>
    match addr.family with
    | .inet => Nat.toDigits 10 b.toNat ++ ['.']
    | .inet6 => Nat.toDigits 16 (b.toNat % 16) ++ '.' :: Nat.toDigits 16 (b.toNat / 16) ++ ['.']
  (text ++ domain).take (rblHostlen - 1)

/-- The text in front of the first character of a kind, which `strchr` finds, and the text behind
it. -/
def splitFirst (c : Char) (s : Str) : Option (Str × Str) :=
  if c ∈ s then some (s.takeWhile (· != c), (s.dropWhile (· != c)).tail) else none

/-- `get_valid_ident`. -/
def getValidIdent (xbuf : Str) : Option Str := do
  let (remotePort, rest) ← splitFirst ':' xbuf
  let (colon1, rest) ← splitFirst ':' rest
  let (remp, locp) ← splitFirst ',' remotePort
  if atoi remp = 0 ∨ atoi locp = 0 ∨ ¬"USERID".toList <:+: colon1 then none
  else (splitFirst ':' rest).map Prod.snd

/-- The user name that `read_auth` takes from an answer. -/
def identName (s : Str) : Str :=
  (((s.dropWhile fun c => c == '~' || c == '^').takeWhile (· != '@')).filter
    fun c => !isSpace c && c != ':' && c != '[').take userLen

/-! ### The state -/

/-- What is read of `struct Client`. -/
structure Client where
  sockhost : Str
  ip : Ip
  deriving DecidableEq

/-- `rblquery_t`, with a number of its own. -/
structure RblQuery where
  query : ℕ
  rbl : Rbl
  queryid : ℕ
  deriving DecidableEq

/-- `struct AuthRequest`, with the flags that `IsDNS`, `IsAuth` and `IsRBL` read, and whether there
is a connection to the host. -/
structure AuthRequest where
  dns : Bool
  auth : Bool
  rbl : Bool
  dnsQuery : ℕ
  rblQueries : List RblQuery
  authF : Bool
  timeout : ℕ
  deriving DecidableEq

/-- One of the flags is set. -/
def AuthRequest.pending (auth : AuthRequest) : Bool := auth.dns || auth.auth || auth.rbl

/-- The callback of a lookup, with its data. -/
inductive Callback
  | authDns (client : ℕ)
  | rblDns (client query : ℕ)
  deriving DecidableEq

/-- The client whose request a callback is for. -/
def Callback.client : Callback → ℕ
  | .authDns client => client
  | .rblDns client _ => client

/-- Where `start_auth` is: at the next list of banned addresses; before and after the lookup for
one; before `start_auth_query`; before and after the lookup of the address. -/
inductive Stage
  | rbls (left : List Rbl)
  | rblLookup (query : ℕ) (hostbuf : Str) (left : List Rbl)
  | rblReturn (query queryid : ℕ) (left : List Rbl)
  | ident
  | dnsLookup
  | dnsReturn (queryid : ℕ)
  deriving DecidableEq

/-- What happens to a client: its request is read or written, or freed, it is added to the list of
clients, with a flag set or none, and it exits. -/
inductive Event
  | touched (client : ℕ)
  | freed (client : ℕ)
  | added (client : ℕ) (pending : Bool)
  | exited (client : ℕ)
  deriving DecidableEq

/-- The client that something happens to. -/
def Event.client : Event → ℕ
  | .touched client => client
  | .freed client => client
  | .added client _ => client
  | .exited client => client

/-- What the client is told, or is known about it. -/
inductive Output
  | header (client : ℕ) (report : Report)
  | host (client : ℕ) (host : Str)
  | username (client : ℕ) (username : Str)
  | banned (client : ℕ) (rblname answer : Str)
  deriving DecidableEq

/-- The resolver, with the callbacks of its queries, the clients, their requests, `auth_poll_list`,
the next query to a list of banned addresses, where `start_auth` is, where the event for the
requests whose time is over is, and what happened, the newest first. -/
structure State where
  resolver : Resolver.State
  callbacks : ℕ → Option Callback
  clients : List Client
  auths : ℕ → Option AuthRequest
  authPollList : List ℕ
  queries : ℕ
  starting : Option (ℕ × Stage)
  sweeping : Option (ℕ × Option ℕ)
  log : List Event
  outputs : List Output

/-- The server has started. -/
def State.start (dnsHelper : Bool) : State :=
  ⟨.start dnsHelper, fun _ => none, [], fun _ => none, [], 0, none, none, [], []⟩

/-- `auth->client`. -/
def State.client (s : State) (a : ℕ) : Client := s.clients.getD a ⟨[], ⟨.inet, []⟩⟩

/-- The request of a client is read or written. -/
def State.touch (s : State) (a : ℕ) : State := { s with log := .touched a :: s.log }

/-- What is sent. -/
def State.output (s : State) (outputs : List Output) : State :=
  { s with outputs := outputs ++ s.outputs }

/-- The request of a client is written. -/
def State.set (s : State) (a : ℕ) (auth : AuthRequest) : State :=
  { s with auths := update s.auths a (some auth) }

/-- What is done with the request of a client. Nothing follows when it was freed. -/
def State.withAuth (s : State) (a : ℕ) (f : State → AuthRequest → State) : State :=
  match s.auths a with
  | none => s.touch a
  | some auth => f (s.touch a) auth

/-! ### The end of a request -/

/-- `rb_free`, with `rb_dlinkDelete`. -/
def State.free (s : State) (a : ℕ) : State :=
  { s with
    auths := update s.auths a none
    authPollList := s.authPollList.erase a
    log := .freed a :: s.log }

/-- `release_auth_client`. -/
def releaseAuthClient (s : State) (a : ℕ) : State :=
  s.withAuth a fun s auth =>
    if auth.pending then s else { s.free a with log := .added a auth.pending :: (s.free a).log }

/-- `rbl_cancel_lookups`, for the resolver. -/
def rblCancelLookups (queries : List RblQuery) (r : Resolver.State) : Resolver.State :=
  queries.foldl (fun r query => Resolver.cancelLookup r query.queryid) r

/-- `delete_auth_queries`. -/
def deleteAuthQueries (s : State) (a : ℕ) : State :=
  match s.auths a with
  | none => s
  | some auth =>
    let r := if auth.dns ∧ 0 < auth.dnsQuery then Resolver.cancelLookup s.resolver auth.dnsQuery
      else s.resolver
    let r := if auth.rbl then rblCancelLookups auth.rblQueries r else r
    { (s.touch a).free a with resolver := r }

/-- `exit_unknown_client`, as far as the request goes. -/
def exitClient (s : State) (a : ℕ) : State :=
  let s := deleteAuthQueries s a
  { s with log := .exited a :: s.log }

/-! ### Answers -/

/-- What `auth_dns_callback` finds. -/
def dnsOutputs (a : ℕ) (res : Str) (status : ℤ) : List Output :=
  if status = 1 ∧ res.length < hostLen then [.header a .finDns, .host a res]
  else .header a .failDns :: if res = "HOSTTOOLONG".toList then [.header a .hostTooLong] else []

/-- `auth_dns_callback`. -/
def authDnsCallback (s : State) (a : ℕ) (res : Str) (status : ℤ) : State :=
  s.withAuth a fun s auth =>
    releaseAuthClient ((s.output (dnsOutputs a res status)).set a
      { auth with dns := false, dnsQuery := 0 }) a

/-- `rbl_release_auth`. -/
def rblReleaseAuth (s : State) (a : ℕ) : State :=
  s.withAuth a fun s auth =>
    if auth.rblQueries ≠ [] then s
    else releaseAuthClient ((s.output [.header a .finRbl]).set a { auth with rbl := false }) a

/-- What `rbl_dns_callback` finds. -/
def rblOutputs (a : ℕ) (t : Rbl) (result : Str) (status : ℤ) (aftype : Option Family) :
    List Output :=
  ((t.reason result status aftype).map (.banned a t.rblname)).toList

/-- `rbl_dns_callback`. -/
def rblDnsCallback (s : State) (a query : ℕ) (result : Str) (status : ℤ) (aftype : Option Family) :
    State :=
  s.withAuth a fun s auth =>
    match auth.rblQueries.find? (·.query = query) with
    | none => s
    | some q =>
      rblReleaseAuth
        ((s.output (rblOutputs a q.rbl result status aftype)).set a
          { auth with rblQueries := auth.rblQueries.filter (·.query ≠ query) }) a

/-- A callback of the resolver. -/
def callback (s : State) : Resolver.Event → State
  | .ran q results status aftype =>
    match s.callbacks q with
    | none => s
    | some (.authDns a) => authDnsCallback s a results status
    | some (.rblDns a query) => rblDnsCallback s a query results status aftype
  | _ => s

/-- The resolver has done something, and the callbacks that it called. -/
def State.follow (s : State) (r : Resolver.State) : State :=
  (r.log.take (r.log.length - s.resolver.log.length)).foldr (fun e s => callback s e)
    { s with resolver := r }

/-- A lookup with a callback, which is in the table if there was a number. -/
def State.lookup (s : State) (type : Char) (family : Family) (name : Str) (c : Callback) : State :=
  let callbacks :=
    if (Resolver.assignDnsId s.resolver).2 = 0 then s.callbacks
    else update s.callbacks s.resolver.fresh (some c)
  { s with callbacks := callbacks }.follow (Resolver.lookup s.resolver type family name)

/-- `auth_error`. -/
def authError (s : State) (a : ℕ) : State :=
  s.withAuth a fun s auth =>
    releaseAuthClient ((s.output [.header a .failId]).set a { auth with
      authF := false, auth := false }) a

/-- What `read_auth` finds in what it read. -/
def identOutputs (a : ℕ) (buf : Option Str) : List Output :=
  match buf.bind getValidIdent with
  | some s => [.header a .finId, .username a (identName s)]
  | none => [.header a .failId, .username a "unknown".toList]

/-- `read_auth`, when it read something or the connection is over. -/
def readAuth (s : State) (a : ℕ) (buf : Option Str) : State :=
  s.withAuth a fun s auth =>
    releaseAuthClient ((s.output (identOutputs a buf)).set a { auth with
      authF := false, auth := false }) a

/-! ### `start_auth` -/

/-- `rbl_check_rbls` asks a list of banned addresses. The bits are compared with `true`. -/
def Rbl.asks (t : Rbl) : Family → Bool
  | .inet6 => t.isv6 = 1
  | .inet => t.isv4 = 1

/-- `start_auth`, up to the loop of `rbl_check_rbls`. -/
def startAuth (s : State) (client : Client) (rblLists : List Rbl) (timeout : ℕ) : State :=
  let a := s.clients.length
  let s := { s with clients := s.clients ++ [client], authPollList := a :: s.authPollList }
  if rblLists = [] then
    { (s.output [.header a .doDns]).set a ⟨true, true, false, 0, [], false,
      timeout⟩ with starting := some (a, .ident) }
  else
    { (s.output [.header a .doRbl, .header a .doDns]).set a ⟨true, true, true, 0, [], false,
      timeout⟩ with starting := some (a, .rbls (rblLists.filter (·.asks client.ip.family))) }

/-- How `start_auth_query` goes: identification is not asked for, the client is dead, the connection
fails at once, it is answered at once, or it is waited for. -/
inductive IdentStart
  | disabled
  | dead
  | failed
  | answered (buf : Option Str)
  | waits
  deriving DecidableEq

/-- `start_auth_query`, or what `start_auth` does in its place. -/
def startAuthQuery (s : State) (a : ℕ) : IdentStart → State
  | .disabled => s.withAuth a fun s auth => s.set a { auth with auth := false }
  | .dead => s.touch a
  | .failed => authError (s.output [.header a .doId]) a
  | .answered buf => readAuth (s.output [.header a .doId]) a buf
  | .waits => s.withAuth a fun s auth => (s.output [.header a .doId]).set a { auth with
    authF := true }

/-- The end of `rbl_check_rbls`. -/
def rblChecked (s : State) (a : ℕ) : State :=
  s.withAuth a fun s auth =>
    if auth.rblQueries = [] then (s.output [.header a .finRbl]).set a { auth with rbl := false }
      else s

/-- A query for a list of banned addresses is put in the list of its request. -/
def rblAttach (s : State) (a : ℕ) (t : Rbl) : State :=
  let s := s.withAuth a fun s auth => s.set a { auth with rblQueries := ⟨s.queries, t, 0⟩ ::
    auth.rblQueries }
  { s with queries := s.queries + 1 }

/-- The number of a query is written. -/
def setQueryid (query queryid : ℕ) (q : RblQuery) : RblQuery :=
  if q.query = query then { q with queryid := queryid } else q

/-- The number of a lookup for a list of banned addresses is written, if the query is still
there. -/
def rblReturn (s : State) (a query queryid : ℕ) : State :=
  match s.auths a with
  | none => s
  | some auth => s.set a { auth with rblQueries := auth.rblQueries.map (setQueryid query queryid) }

/-- `start_auth` goes on, with how `start_auth_query` goes if that is next. -/
def startAuthNext (s : State) (a : ℕ) (ident : IdentStart) : Stage → State
  | .rbls [] => { rblChecked s a with starting := some (a, .ident) }
  | .rbls (t :: left) =>
    { rblAttach s a t with
      starting := some (a, .rblLookup s.queries (rblString (s.client a).ip t.rblname) left) }
  | .rblLookup query hostbuf left =>
    { s with starting := some (a, .rblReturn query (Resolver.assignDnsId s.resolver).2 left)
      }.lookup 'H' .inet hostbuf (.rblDns a query)
  | .rblReturn query queryid left => { rblReturn s a query queryid with starting := some (a,
    .rbls left) }
  | .ident => { startAuthQuery s a ident with starting := some (a, .dnsLookup) }
  | .dnsLookup =>
    { s with starting := some (a, .dnsReturn (Resolver.assignDnsId s.resolver).2) }.lookup 'I'
      (s.client a).ip.family (s.client a).sockhost (.authDns a)
  | .dnsReturn queryid =>
    { s.withAuth a fun s auth => s.set a { auth with dnsQuery := queryid } with starting := none }

/-! ### Requests whose time is over -/

/-- What the client of a request is told when its time is over. -/
def timeoutOutputs (a : ℕ) (auth : AuthRequest) : List Output :=
  (if auth.rbl then [.header a .finRbl] else []) ++ (if auth.dns then [.header a .failDns]
    else []) ++ if auth.auth then [.header a .failId] else []

/-- The time of a request is over. -/
def timeoutAuth (s : State) (a : ℕ) (auth : AuthRequest) : State :=
  let r := if auth.dns then Resolver.cancelLookup s.resolver auth.dnsQuery else s.resolver
  let r := if auth.rbl then rblCancelLookups auth.rblQueries r else r
  releaseAuthClient
    { (s.output (timeoutOutputs a auth)).set a
        { auth with
          authF := false
          auth := false
          dns := false
          dnsQuery := if auth.dns then 0 else auth.dnsQuery
          rbl := false
          rblQueries := if auth.rbl then [] else auth.rblQueries } with
      resolver := r } a

/-- A turn of `timeout_auth_queries_event`. -/
def timeoutAuthQueries (s : State) (now a : ℕ) : State :=
  { s with sweeping := some (now, (behind s.authPollList a).head?) }.withAuth a fun s auth =>
    if auth.timeout < now then timeoutAuth s a auth else s

/-! ### The steps -/

/-- The steps. -/
inductive Op
  | startAuth (client : Client) (rblLists : List Rbl) (timeout : ℕ)
  | startAuthNext (ident : IdentStart)
  | authError (client : ℕ)
  | readAuth (client : ℕ) (buf : Option Str)
  | timeout (now : ℕ)
  | timeoutNext
  | exit (client : ℕ)
  | resolver (op : Resolver.Op)
  deriving DecidableEq

/-- What the main loop calls is running: it calls nothing else. -/
def State.busy (s : State) : Bool := s.starting.isSome || s.sweeping.isSome

/-- There is a connection to the host of a client. -/
def State.connected (s : State) (a : ℕ) : Bool := (s.auths a).any (·.authF)

/-- A step. -/
def step (s : State) : Op → Option State
  | .startAuth client rblLists timeout => if s.busy then none else some (startAuth s client rblLists
    timeout)
  | .startAuthNext ident => s.starting.map fun p => startAuthNext s p.1 ident p.2
  | .authError a => if s.busy ∨ ¬s.connected a then none else some (authError s a)
  | .readAuth a buf => if s.busy ∨ ¬s.connected a then none else some (readAuth s a buf)
  | .timeout now => if s.busy then none else some { s with sweeping := some (now,
    s.authPollList.head?) }
  | .timeoutNext => s.sweeping.map fun p =>
    match p.2 with
    | none => { s with sweeping := none }
    | some a => timeoutAuthQueries s p.1 a
  | .exit a => if a < s.clients.length ∧ .exited a ∉ s.log then some (exitClient s a) else none
  | .resolver op => (Resolver.step s.resolver op).map s.follow

end Ratbox.Auth
