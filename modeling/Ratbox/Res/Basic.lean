import Ratbox.Address
import Ratbox.Lib.Arena
import Ratbox.Lib.Run

/-!
# The requests of the resolver

The helper that looks up names keeps a list of requests. Each has the query it was made for, whose
callback is to be called once, and an id, which name servers send back in their replies. A request
that gets no reply in time is sent again with a new id, twice, and then given up. When an address is
looked up, the reply has a name, and the address of this name is looked up by another request for
the same query.

Source: `resolver/res.c`, lines 66–200, 275–305, 417–470 and 473–935.

## Main definitions

* `Res.Reslist`, `Res.State`: `struct reslist`, and the list with what happened.
* `Res.generateRandomId`, `Res.queryName`: a request gets an id.
* `Res.timeoutQueryList`: `timeout_query_list`.
* `Res.resReadSingleReply`: `res_read_single_reply`.
* `Res.step`: the calls from outside, in any order.

## Implementation notes

What is sent, and over which sockets, is left out. A call that draws ids has the numbers with it
that are drawn, and is not made if they run out: `generate_random_id` goes on until it draws an id
that is free. The functions that put together and take apart messages are parameters.
-/

namespace Ratbox.Res

open Text Address

/-! ### The structures -/

/-- `T_A`, `T_CNAME`, `T_PTR` and `T_AAAA`. -/
def tA : ℕ := 1
@[inherit_doc tA] def tCname : ℕ := 5
@[inherit_doc tA] def tPtr : ℕ := 12
@[inherit_doc tA] def tAaaa : ℕ := 28

/-- `RESOLVER_HOSTLEN`. -/
def resolverHostlen : ℕ := 255

/-- `struct reslist`. The address and the name are `none` as long as they are zeroed. -/
structure Reslist where
  id : ℕ
  type : ℕ
  queryname : Str
  retries : ℤ
  sends : ℕ
  sentat : ℤ
  timeout : ℤ
  addr : Option Ip
  name : Option Str
  query : ℕ
  deriving DecidableEq

/-- `struct DNSReply`. -/
structure DNSReply where
  hName : Str
  addr : Option Ip
  deriving DecidableEq

/-- What happens: the callback of a query is called, a reply with an id is credited to a request
with an id, or a request is used that is not there. -/
inductive Event
  | called (query : ℕ) (reply : Option DNSReply)
  | credited (request id replyId : ℕ)
  | fault (request : ℕ)
  deriving DecidableEq

/-- The requests on `request_list`, the number of queries that were submitted, the numbers that are
drawn, and what happened, the newest first. A query is a number. -/
structure State where
  requests : Arena Reslist
  queries : ℕ
  rand : List UInt16
  log : List Event

/-- The resolver has started. -/
def State.start : State := ⟨.empty, 0, [], []⟩

/-- An address with a port. -/
structure Sockaddr where
  ip : Ip
  port : ℕ
  deriving DecidableEq

/-- A message: where it came from, the buffer, and the number of bytes that were read into it. -/
structure Packet where
  src : Sockaddr
  buf : Bytes
  rc : ℕ

/-- `irc_nsaddr_list`, whether `irc_res_mkquery` makes a query for a name and a type, what
`irc_dn_expand` returns and writes to a buffer of some size, and what `irc_dn_skipname` returns, for
the place in a message. -/
structure Env where
  nsaddrList : List Sockaddr
  mkquery : Str → ℕ → Bool
  dnExpand : Packet → ℕ → ℕ → ℤ × Str
  dnSkipname : Packet → ℕ → ℤ

namespace State

/-- Something happened. -/
def note (s : State) (e : Event) : State := { s with log := e :: s.log }

/-- Read a request. -/
def read (s : State) (a : ℕ) (f : Reslist → Option State) : Option State :=
  match s.requests.cell a with
  | none => some (s.note (.fault a))
  | some r => f r

/-- Write a request. -/
def write (s : State) (a : ℕ) (f : Reslist → Reslist) : State :=
  match s.requests.cell a with
  | none => s.note (.fault a)
  | some r => { s with requests := s.requests.set a (f r) }

end State

/-! ### Requests -/

/-- `rem_request`. -/
def remRequest (a : ℕ) (s : State) : State :=
  match s.requests.cell a with
  | none => s.note (.fault a)
  | some _ => { s with requests := s.requests.remove a }

/-- A callback is called, and the request is removed. -/
def finish (a query : ℕ) (reply : Option DNSReply) (s : State) : State :=
  remRequest a (s.note (.called query reply))

/-- A request that `make_request` has filled in. -/
def Reslist.made (query : ℕ) (now : ℤ) : Reslist := ⟨0, 0, [], 3, 0, now, 4, none, none, query⟩

/-- `make_request`. -/
def makeRequest (query : ℕ) (now : ℤ) (s : State) : State :=
  { s with requests := s.requests.make (.made query now) }

/-- `find_id`. -/
def findId (s : State) (id : ℕ) :
    Option ℕ := s.requests.list.find? fun a => (s.requests.cell a).any (·.id = id)

/-- `generate_random_id`. The `continue` for `0xffff` goes to the test of the loop, so that this id
is drawn like others. -/
def generateRandomId (s : State) : Option (ℕ × State) :=
  match s.rand.dropWhile fun id => (findId s id.toNat).isSome with
  | [] => none
  | id :: rand => some (id.toNat, { s with rand := rand })

section Queries

variable (env : Env) (now : ℤ)

/-- `query_name`. -/
def queryName (a : ℕ) (s : State) : Option State :=
  s.read a fun r =>
    if env.mkquery r.queryname r.type then
      (generateRandomId s).map fun (id, s) => s.write a fun r => { r with
        id := id, sends := r.sends + 1 }
    else some s

/-- The arguments `query` and `request` of a lookup: the query of a new request, or a request that
is there. -/
inductive Target
  | new (query : ℕ)
  | old (request : ℕ)

/-- `do_query_name`. -/
def doQueryName (target : Target) (name : Str) (type : ℕ) (s : State) : Option State :=
  let hostName := strlcpy name (resolverHostlen + 1)
  let (s, a) := match target with
    | .new query =>
      ((makeRequest query now s).write s.requests.fresh fun r => { r with name := some hostName },
        s.requests.fresh)
    | .old a => (s, a)
  queryName env a (s.write a fun r => { r with queryname := strlcpy hostName 128, type := type })

/-- `%x`. -/
def hex (n : ℕ) : Str := Nat.toDigits 16 n

/-- The name that is looked up for an address. -/
def arpa (ip : Ip) : Str :=
  match ip.family with
  | .inet =>
    ([3, 2, 1, 0].flatMap fun i => decimal (ip.bytes i).toNat ++ ['.']) ++ "in-addr.arpa".toList
  | .inet6 =>
    ((List.range 16).reverse.flatMap fun i =>
      hex ((ip.bytes i).toNat % 16) ++ '.' :: hex ((ip.bytes i).toNat / 16) ++ ['.']) ++
        "ip6.arpa".toList

/-- `do_query_number`. -/
def doQueryNumber (target : Target) (addr : Option Ip) (s : State) : Option State :=
  let (s, a) := match target with
    | .new query =>
      ((makeRequest query now s).write s.requests.fresh fun r =>
        { r with addr := addr, name := some [] }, s.requests.fresh)
    | .old a => (s, a)
  queryName env a (s.write a fun r =>
    { r with queryname := (addr.map arpa).getD r.queryname, type := tPtr })

/-- `resend_query`. -/
def resendQuery (a : ℕ) (s : State) : Option State :=
  s.read a fun r =>
    if r.type = tPtr then doQueryNumber env now (.old a) r.addr s
    else if r.type = tA ∨ r.type = tAaaa then
      match r.name with
      | none => some (s.note (.fault a))
      | some name => doQueryName env now (.old a) name r.type s
    else some s

/-! ### Timeouts -/

/-- The body of the loop of `timeout_query_list`. -/
def timeoutRequest (a : ℕ) (s : State) : Option State :=
  s.read a fun r =>
    if r.sentat + r.timeout ≤ now then
      let s := s.write a fun r => { r with retries := r.retries - 1 }
      if r.retries - 1 ≤ 0 then some (finish a r.query none s)
      else resendQuery env now a (s.write a fun r => { r with
        sentat := now, timeout := r.timeout + r.timeout })
    else some s

/-- The loop of `timeout_query_list`. The next node is saved before the body, and requests that are
made are in front. -/
def timeoutLoop : List ℕ → State → Option State
  | [], s => some s
  | a :: as, s => (timeoutRequest env now a s).bind (timeoutLoop as)

/-- `timeout_query_list`. -/
def timeoutQueryList (s : State) : Option State := timeoutLoop env now s.requests.list s

/-! ### Replies -/

/-- `res_ourserver`. -/
def resOurserver (inp : Sockaddr) : Bool :=
  env.nsaddrList.any fun srv =>
    srv.ip.family = inp.ip.family && srv.port = inp.port && (srv.ip.add.all (· = 0) ||
      srv.ip.add = inp.ip.add)

/-- `irc_ns_get16`. -/
def Packet.get16 (p : Packet) (i : ℕ) : ℕ := (p.buf i).toNat * 256 + (p.buf (i + 1)).toNat

/-- `header->id`, `header->rcode`, `header->qdcount` and `header->ancount`. -/
def Packet.id (p : Packet) : ℕ := p.get16 0
@[inherit_doc Packet.id] def Packet.rcode (p : Packet) : ℕ := (p.buf 3).toNat % 16
@[inherit_doc Packet.id] def Packet.qdcount (p : Packet) : ℕ := p.get16 4
@[inherit_doc Packet.id] def Packet.ancount (p : Packet) : ℕ := p.get16 6

/-- `sizeof(HEADER)`. -/
def headerSize : ℕ := 12

/-- `check_question`. -/
def checkQuestion (r : Reslist) (p : Packet) : Bool :=
  p.qdcount = 1 &&
    match env.dnExpand p headerSize 128 with
    | (n, hostbuf) => decide (0 < n) && strcasecmp hostbuf r.queryname

/-- The loop of `proc_answer` over the questions: the place behind them. -/
def skipQuestions (p : Packet) : ℕ → ℕ → Option ℕ
  | 0, current => some current
  | qdcount + 1, current =>
    if env.dnSkipname p current < 0 then none
    else skipQuestions p qdcount (current + (env.dnSkipname p current).toNat + 4)

/-- The bytes of an address in a message. -/
def Packet.ipAt (p : Packet) (family : Family) (i : ℕ) : Ip :=
  ⟨family, (List.range (family.bits / 8)).map fun j => p.buf (i + j)⟩

/-- The loop of `proc_answer` over the answers: what it returns, and the request after it. -/
def readAnswers (p : Packet) : ℕ → ℕ → Reslist → Bool × Reslist
  | 0, _, r => (true, r)
  | ancount + 1, current, r =>
    if p.rc ≤ current then (true, r)
    else if (env.dnExpand p current (resolverHostlen + 100)).1 ≤ 0 then (false, r)
    else
      let current := current + (env.dnExpand p current (resolverHostlen + 100)).1.toNat
      if ¬current + 10 < p.rc then (true, r)
      else
        let type := p.get16 current
        let rdLength := p.get16 (current + 8)
        let current := current + 10
        if type = tA then
          if r.type ≠ tA ∨ rdLength ≠ 4 then (false, r)
            else (true, { r with addr := some (p.ipAt .inet current) })
        else if type = tAaaa then
          if r.type ≠ tAaaa ∨ rdLength ≠ 16 then (false, r)
            else (true, { r with addr := some (p.ipAt .inet6 current) })
        else if type = tPtr then
          if r.type ≠ tPtr then (false, r)
          else
            match env.dnExpand p current (resolverHostlen + 100) with
            | (n, hostbuf) =>
              if n ≤ 0 then (false, r)
                else (true, { r with name := some (strlcpy hostbuf (resolverHostlen + 1)) })
        else if type = tCname then readAnswers p ancount (current + rdLength) r
        else readAnswers p ancount current r

/-- `proc_answer`. -/
def procAnswer (r : Reslist) (p : Packet) : Bool × Reslist :=
  match skipQuestions env p p.qdcount headerSize with
  | none => (false, r)
  | some current => readAnswers env p p.ancount current r

/-- `make_dnsreply`. -/
def makeDnsreply (r : Reslist) : DNSReply := ⟨r.name.getD [], r.addr⟩

/-- `res_read_single_reply`, from where a message was read. -/
def resReadSingleReply (p : Packet) (s : State) : Option State :=
  if p.rc ≤ headerSize then some s
  else
    match findId s p.id with
    | none => some s
    | some a =>
      if !resOurserver env p.src then some s
      else
        s.read a fun r =>
          if !checkQuestion env r p then some s
          else
            let s := s.note (.credited a r.id p.id)
            if p.rcode ≠ 0 ∨ p.ancount = 0 then some (finish a r.query none s)
            else
              let (answerCount, r) := procAnswer env r p
              let s := s.write a fun _ => r
              if answerCount then
                if r.type = tPtr then
                  match r.name with
                  | none => some (finish a r.query none s)
                  | some name =>
                    let type := if r.addr.any (·.family = .inet6) then tAaaa else tA
                    (doQueryName env now (.new r.query) name type s).map (remRequest a)
                else some (finish a r.query (some (makeDnsreply r)) s)
              else some (finish a r.query none s)

end Queries

/-! ### Calls -/

/-- The calls from outside: `gethost_byname_type` and `gethost_byaddr` for a new query, the timer,
and a message. -/
inductive Op
  | gethostByname (name : Str) (type : ℕ) (now : ℤ)
  | gethostByaddr (addr : Ip) (now : ℤ)
  | timeout (now : ℤ)
  | reply (p : Packet) (now : ℤ)

/-- What a call does. -/
def serve (env : Env) (s : State) : Op → Option State
  | .gethostByname name type now =>
    doQueryName env now (.new s.queries) name type { s with queries := s.queries + 1 }
  | .gethostByaddr addr now => doQueryNumber env now (.new s.queries) addr {
    s with queries := s.queries + 1 }
  | .timeout now => timeoutQueryList env now s
  | .reply p now => resReadSingleReply env now p s

/-- A call, with the numbers that are drawn. -/
def step (env : Env) (s : State) (call : Op × List UInt16) : Option State :=
  serve env { s with rand := call.2 } call.1

end Ratbox.Res
