import Sfcc.Session

-- What a client does, by what happened in each of its transfers alone.
namespace Sfcc.Session

open Xml Requests

-- An operation with what has happened in its transfer.
structure Exchange where
  op     : Operation
  cop    : CMPIObjectPath
  out    : Option CMPIArgs
  events : List Event := []

def Event.line : Event → Option Text
  | .header line => some line
  | _            => none

def Event.data : Event → Text
  | .block data => data
  | _           => []

def Event.call : Event → Option Progress
  | .progress p => some p
  | _           => none

-- The timer behind some calls, with whether the last of them ends the transfer.
def timer (calls : List Progress) : TimeoutControl × Bool :=
  calls.foldl (fun t p => ((t.1.checkProgress p).2, (t.1.checkProgress p).1 ≠ 0)) ({}, false)

namespace Exchange

variable (x : Exchange)

def body : Text :=
  x.events.flatMap Event.data

def status : CMPIStatus :=
  (x.events.filterMap Event.line).foldl writeHeaders {}

def aborted : Bool :=
  (timer (x.events.filterMap Event.call)).2

-- The error of the transfer.
def error (env : Environment) (rv : ℕ) (responseCode : ℤ) : Option Text :=
  if x.aborted ∨ rv ≠ 0 then
    some (if responseCode = 401 then bytes "Invalid username/password"
      else env.strerror (if x.aborted ∨ rv = CURLE_ABORTED_BY_CALLBACK then CURLE_OPERATION_TIMEOUTED else rv))
  else if x.body = [] then some (bytes "No data received from server")
  else none

-- The response, if there is one to be parsed.
def response (env : Environment) : Except Stop ResponseHdr :=
  scanResponse ⟨some x.cop, env.bytesOf⟩ (tokens (x.body.takeWhile (· ≠ 0)))

def answer (env : Environment) (rv : ℕ) (responseCode : ℤ) : Except Stop Result :=
  match x.error env rv responseCode with
  | some error => return x.op.failed x.out (transferError error)
  | none       =>
    if x.status.rc ≠ 0 then return x.op.failed x.out x.status
    else do fault (x.op.received x.out (← x.response env))

end Exchange

def CMCIClientData.url (cld : CMCIClientData) : Text :=
  cld.scheme ++ bytes "://" ++ cld.hostName ++ (if cld.port.head? = some 47 then [] else 58 :: cld.port) ++ bytes "/cimom"

def CMCIClientData.userpwd (cld : CMCIClientData) : Option Text :=
  cld.user.map fun user => user ++ cld.pwd.elim [] (58 :: ·)

def CMCIClientData.socket (cld : CMCIClientData) : Option Text :=
  if cld.port.head? = some 47 then some cld.port else none

-- How an operation begins, with the exchange that it leads to.
def CMCIClientData.request (cld : CMCIClientData) (env : Environment) (op : Operation) (cop : CMPIObjectPath)
    (out : Option CMPIArgs) (rv : ℕ) : Except Fault (Option Exchange × Output) := do
  let hs ← env.headersOf (← deref op.method) cop op.classWithKeys
  match ← op.body env.printg cop with
  | none      => return (none, .reply (op.failed out unsupported))
  | some body =>
    if rv ≠ 0 then return (none, .reply (op.failed out (transferError (env.strerror rv))))
    else return (some { op, cop, out }, .sent {
      url        := cld.url
      socket     := cld.socket
      userpwd    := cld.userpwd
      httpheader := env.headers ++ hs
      postfields := body })

-- Each client, with its exchange that is not over.
abbrev Exchanges := List (CMCIClientData × Option Exchange)

namespace Exchanges

def step (env : Environment) (s : Exchanges) : Action → Except Stop (Exchanges × Output)
  | .connect hn scheme port user pwd => return (s ++ [(xmlConnect2 hn scheme port user pwd, none)], .none)
  | .request i op cop out rv         =>
    match s[i]? with
    | some (data, none) => do
      let (x, o) ← fault (data.request env op cop out rv)
      return (s.set i (data, x), o)
    | _                 => return (s, .none)
  | .event i e                       =>
    match s[i]? with
    | some (data, some x) =>
      if x.aborted then return (s, .none)
      else return (s.set i (data, some { x with events := x.events ++ [e] }), .none)
    | _                   => return (s, .none)
  | .finish i rv responseCode        =>
    match s[i]? with
    | some (data, some x) => do
      let result ← x.answer env rv responseCode
      return (s.set i (data, none), .reply result)
    | _                   => return (s, .none)

end Exchanges

def exchanges (env : Environment) : Machine Exchanges Action Output Stop where
  init := []
  step := Exchanges.step env

end Sfcc.Session
