import Sfcc.Client
import Sfcc.Headers
import Sfcc.Lib.Machine
import Sfcc.Progress
import Sfcc.Requests
import Sfcc.UtilStringBuffer
import Sfcc.Xml.Response

open Descent (Failure)

-- The connections of a process to its servers, with the callbacks that curl runs during a transfer.
namespace Sfcc.Session

open Xml Requests

-- What `sprintf` makes of a number with `%g`, what `curl_easy_strerror` returns, the text where the
-- bytes of an instance are taken for one, and whether `HAVE_HTTP_CHUNKING` is defined.
structure Environment where
  printg   : Text → Text
  strerror : ℕ → Text
  bytesOf  : XtokInstance → Text
  chunking : Bool

abbrev Stop := Failure Tok Fault

def fault {α : Type} : Except Fault α → Except Stop α :=
  Except.mapError .fault

def defined {α : Type} : Except Undefined α → Except Fault α :=
  Except.mapError fun _ => .wild

def CURLE_OPERATION_TIMEOUTED : ℕ := 28
def CURLE_ABORTED_BY_CALLBACK : ℕ := 42
def CMPI_RC_ERR_FAILED : Int32 := 1

structure CMCIClientData where
  hostName : Text
  user     : Option Text
  pwd      : Option Text
  scheme   : Text
  port     : Text

def xmlConnect2 (hn scheme port user pwd : Option Text) : CMCIClientData where
  hostName := hn.getD (bytes "localhost")
  user     := user
  pwd      := pwd
  scheme   := scheme.getD (bytes "http")
  port     := port.getD (bytes (if scheme = some (bytes "https") then "5989" else "5988"))

-- The options of a curl handle that a request sets. They stay as they are until they are set again.
structure Handle where
  url        : Text := []
  socket     : Option Text := none
  userpwd    : Option Text := none
  httpheader : List Text := []
  postfields : Text := []

structure CMCIConnection where
  mHandle   : Handle := {}
  mHeaders  : List Text := []
  mUri      : UtilStringBuffer
  mUserPass : UtilStringBuffer
  mResponse : UtilStringBuffer
  mStatus   : CMPIStatus := {}
  mTimeout  : TimeoutControl := {}

def initConnection : Except Fault CMCIConnection := do
  return {
    mUri      := ← defined (UtilStringBuffer.newStringBuffer 256)
    mUserPass := ← defined (UtilStringBuffer.newStringBuffer 64)
    mResponse := ← defined (UtilStringBuffer.newStringBuffer 2048) }

-- What happens in the course of a transfer.
inductive Event
  | header (line : Text)
  | block (data : Text)
  | progress (p : Progress)

def writeHeaders (status : CMPIStatus) (line : Text) : CMPIStatus :=
  let str := line.takeWhile (· ≠ 0)
  if 58 ∈ str then
    let name := str.takeWhile (· ≠ 58)
    let value := (str.dropWhile (· ≠ 58)).tail
    if sameIgnoringCase name (bytes "cimstatuscode") then { status with rc := Xml.atoi value }
    else if sameIgnoringCase name (bytes "cimstatuscodedescription") then { status with msg := some value }
    else status
  else status

def Environment.headers (env : Environment) : List Text :=
  (["Content-type: application/xml; charset=\"utf-8\"", "Accept:", "Expect:", "CIMProtocolVersion: 1.0",
    "CIMOperation: MethodCall"] ++ if env.chunking then ["TE: trailers"] else []).map bytes

-- The two headers of an operation. They are put together in blocks on the stack.
def Environment.headersOf (env : Environment) (op : Text) (cop : CMPIObjectPath) (classWithKeys : Bool) :
    Except Fault (List Text) := do
  let hs ← Sfcc.genRequest env.printg op cop classWithKeys
  if hs.writes.all fun w => w.InBounds then return [hs.method, hs.CimObject] else throw .wild

namespace CMCIConnection

def initializeHeaders (con : CMCIConnection) (env : Environment) : CMCIConnection :=
  { con with mHeaders := env.headers }

-- The string in a buffer.
def chars (sb : UtilStringBuffer) : Except Fault Text :=
  sb.getCharPtr.elim (throw .wild) pure

def setUri (con : CMCIConnection) (cld : CMCIClientData) : Except Fault CMCIConnection := do
  let mUri ← defined con.mUri.reset
  if cld.port.head? = some 47 then
    let mUri ← defined (mUri.append3Chars (some cld.scheme) (some (bytes "://")) (some cld.hostName))
    let mUri ← defined (mUri.appendChars (some (bytes "/cimom")))
    return { con with mUri, mHandle := { con.mHandle with url := ← chars mUri, socket := some cld.port } }
  else
    let mUri ← defined (mUri.append6Chars (some cld.scheme) (some (bytes "://")) (some cld.hostName) (some [58])
      (some cld.port) (some (bytes "/cimom")))
    return { con with mUri, mHandle := { con.mHandle with url := ← chars mUri } }

def setUserPass (con : CMCIConnection) (cld : CMCIClientData) : Except Fault CMCIConnection :=
  match cld.user with
  | none      => return con
  | some user => do
    let mUserPass ← defined con.mUserPass.reset
    let mUserPass ← defined (mUserPass.appendChars (some user))
    let mUserPass ← match cld.pwd with
      | none     => pure mUserPass
      | some pwd => defined (mUserPass.append3Chars (some [58]) (some pwd) none)
    return { con with mUserPass, mHandle := { con.mHandle with userpwd := some (← chars mUserPass) } }

def genRequest (con : CMCIConnection) (env : Environment) (cld : CMCIClientData) (op : Text) (cop : CMPIObjectPath)
    (classWithKeys : Bool) : Except Fault CMCIConnection := do
  let con := { con with mResponse := ← defined con.mResponse.reset }
  let con ← con.setUri cld
  let con := { con with mTimeout := {} }
  let con ← con.setUserPass cld
  let con := { con with mStatus := {} }
  let con := con.initializeHeaders env
  let con := { con with mHeaders := con.mHeaders ++ (← env.headersOf op cop classWithKeys) }
  return { con with mHandle := { con.mHandle with httpheader := con.mHeaders } }

def addPayload (con : CMCIConnection) (pl : Text) : CMCIConnection :=
  { con with mHandle := { con.mHandle with postfields := pl } }

def writeCb (con : CMCIConnection) (data : Text) : Except Fault CMCIConnection := do
  return { con with mResponse := ← defined (con.mResponse.appendBlock (some data) (data.length % 2 ^ 32)) }

-- A callback, with whether it aborts the transfer.
def callback (con : CMCIConnection) : Event → Except Fault (CMCIConnection × Bool)
  | .header line => return ({ con with mStatus := writeHeaders con.mStatus line }, false)
  | .block data  => do return (← con.writeCb data, false)
  | .progress p  =>
    let (aborts, mTimeout) := con.mTimeout.checkProgress p
    return ({ con with mTimeout }, aborts ≠ 0)

-- The error message behind a transfer that came to `rv`, if there is one.
def getResponse (con : CMCIConnection) (strerror : ℕ → Text) (rv : ℕ) (responseCode : ℤ) : Option Text :=
  let rv := if rv = CURLE_ABORTED_BY_CALLBACK then CURLE_OPERATION_TIMEOUTED else rv
  if rv ≠ 0 then some (if responseCode = 401 then bytes "Invalid username/password" else strerror rv)
  else if con.mResponse.getSize = 0 then some (bytes "No data received from server")
  else none

end CMCIConnection

-- What an operation returns to its caller, with what it leaves in the status and the arguments.
inductive Result
  | status (st : CMPIStatus)
  | pointer (st : CMPIStatus) (value : CMPIValue)
  | data (st : CMPIStatus) (data : CMPIData)
  | method (st : CMPIStatus) (data : CMPIData) (out : Option CMPIArgs)
  | enumeration (st : CMPIStatus) (enumeration : Option NativeEnum)

def notFound : CMPIData where
  type  := .null
  state := .notFound ||| .null
  value := .zero

end Session

namespace Requests.Operation

open Session Xml

-- The name of the method, which is a null pointer where the caller gives one.
def method : Operation → Option Text
  | enumInstanceNames           => bytes "EnumerateInstanceNames"
  | getInstance _ _             => bytes "GetInstance"
  | createInstance _            => bytes "CreateInstance"
  | setInstance _ _ _           => bytes "ModifyInstance"
  | deleteInstance              => bytes "DeleteInstance"
  | execQuery _ _               => bytes "ExecQuery"
  | enumInstances _ _           => bytes "EnumerateInstances"
  | associators _ _ _ _ _ _     => bytes "Associators"
  | associatorNames _ _ _ _     => bytes "AssociatorNames"
  | references _ _ _ _          => bytes "References"
  | referenceNames _ _          => bytes "ReferenceNames"
  | invokeMethod name _         => name
  | setProperty _ _ _           => bytes "SetProperty"
  | getProperty _               => bytes "GetProperty"
  | getClass _ _                => bytes "GetClass"
  | enumClassNames _            => bytes "EnumerateClassNames"
  | enumClasses _               => bytes "EnumerateClasses"

def classWithKeys : Operation → Bool
  | invokeMethod _ _ => true
  | _                => false

-- What is returned with a status other than `CMPI_RC_OK`.
def failed (op : Operation) (out : Option CMPIArgs) (st : CMPIStatus) : Result :=
  match op with
  | getInstance _ _ | createInstance _ | getClass _ _           => .pointer st .zero
  | setInstance _ _ _ | deleteInstance | setProperty _ _ _      => .status st
  | getProperty _                                               => .data st notFound
  | invokeMethod _ _                                            => .method st notFound out
  | enumInstanceNames | execQuery _ _ | enumInstances _ _ | associators _ _ _ _ _ _ | associatorNames _ _ _ _
  | references _ _ _ _ | referenceNames _ _ | enumClassNames _ | enumClasses _ => .enumeration st none

-- What is returned for a response that was parsed.
def received (op : Operation) (out : Option CMPIArgs) (rh : ResponseHdr) : Except Fault Result :=
  match op with
  | getInstance _ _           => (fun r => .pointer r.1 r.2) <$> Client.getInstance rh
  | getClass _ _              => (fun r => .pointer r.1 r.2) <$> Client.getClass rh
  | createInstance _          => return .pointer (Client.createInstance rh).1 (Client.createInstance rh).2
  | setInstance _ _ _         => return .status (Client.setInstance rh)
  | deleteInstance            => return .status (Client.deleteInstance rh)
  | setProperty _ _ _         => return .status (Client.setProperty rh)
  | getProperty _             => return .data (Client.getProperty rh).1 (Client.getProperty rh).2
  | invokeMethod _ _          => (fun r => .method r.1 r.2.1 r.2.2) <$> Client.invokeMethod rh out
  | enumInstanceNames         => return .enumeration (Client.enumInstanceNames rh).1 (Client.enumInstanceNames rh).2
  | execQuery _ _             => return .enumeration (Client.execQuery rh).1 (Client.execQuery rh).2
  | enumInstances _ _         => return .enumeration (Client.enumInstances rh).1 (Client.enumInstances rh).2
  | associators _ _ _ _ _ _   => return .enumeration (Client.associators rh).1 (Client.associators rh).2
  | associatorNames _ _ _ _   => return .enumeration (Client.associatorNames rh).1 (Client.associatorNames rh).2
  | references _ _ _ _        => return .enumeration (Client.references rh).1 (Client.references rh).2
  | referenceNames _ _        => return .enumeration (Client.referenceNames rh).1 (Client.referenceNames rh).2
  | enumClassNames _          => return .enumeration (Client.enumClassNames rh).1 (Client.enumClassNames rh).2
  | enumClasses _             => return .enumeration (Client.enumClasses rh).1 (Client.enumClasses rh).2

end Requests.Operation

namespace Session

open Xml Requests

-- An operation whose transfer is not over.
structure Pending where
  op      : Operation
  cop     : CMPIObjectPath
  out     : Option CMPIArgs
  aborted : Bool := false

structure Client where
  data       : CMCIClientData
  connection : CMCIConnection
  pending    : Option Pending := none

-- `ct` and `dontLex` of the parser are shared by all clients. A mutex makes each parse one step.
structure State where
  clients : List Client := []
  ct      : Tok := .none
  dontLex : Bool := false

inductive Action
  | connect (hn scheme port user pwd : Option Text)
  | request (i : ℕ) (op : Operation) (cop : CMPIObjectPath) (out : Option CMPIArgs) (rv : ℕ)
  | event (i : ℕ) (e : Event)
  | finish (i : ℕ) (rv : ℕ) (responseCode : ℤ)

-- What curl is asked to send, or what an operation returns.
inductive Output
  | none
  | sent (handle : Handle)
  | reply (result : Result)

def unsupported : CMPIStatus where
  rc  := CMPI_RC_ERR_FAILED
  msg := bytes "Unsupported IN argument type"

def transferError (error : Text) : CMPIStatus where
  rc  := CMPI_RC_ERR_FAILED
  msg := error

namespace Client

-- The part of an operation up to `curl_easy_perform`. `rv` is what `curl_easy_setopt` returns.
def request (c : Client) (env : Environment) (op : Operation) (cop : CMPIObjectPath) (out : Option CMPIArgs) (rv : ℕ) :
    Except Fault (Client × Output) := do
  let connection ← c.connection.genRequest env c.data (← deref op.method) cop op.classWithKeys
  match ← op.body env.printg cop with
  | none      => return ({ c with connection }, .reply (op.failed out unsupported))
  | some body =>
    if rv ≠ 0 then return ({ c with connection }, .reply (op.failed out (transferError (env.strerror rv))))
    else
      let connection := connection.addPayload body
      return ({ c with connection, pending := some { op, cop, out } }, .sent connection.mHandle)

-- There are no callbacks behind one that aborts the transfer.
def event (c : Client) (e : Event) : Except Fault Client :=
  match c.pending with
  | none         => return c
  | some pending =>
    if pending.aborted then return c
    else do
      let (connection, aborted) ← c.connection.callback e
      return { c with connection, pending := some { pending with aborted } }

end Client

namespace State

def parse (s : State) (env : Environment) (cop : CMPIObjectPath) (text : Text) : Except Stop (ResponseHdr × State) := do
  let (rh, r) ← Grammar.start ⟨some cop, env.bytesOf⟩ {} ⟨tokens text, s.ct, s.dontLex⟩
  return (rh, { s with ct := r.current, dontLex := r.pushedBack })

-- The part of an operation behind `curl_easy_perform`, which came to `rv` if nothing aborted it.
def finish (s : State) (env : Environment) (con : CMCIConnection) (p : Pending) (rv : ℕ) (responseCode : ℤ) :
    Except Stop (State × Output) := do
  match con.getResponse env.strerror (if p.aborted then CURLE_ABORTED_BY_CALLBACK else rv) responseCode with
  | some error => return (s, .reply (p.op.failed p.out (transferError error)))
  | none       =>
    if con.mStatus.rc ≠ 0 then return (s, .reply (p.op.failed p.out con.mStatus))
    else
      let (rh, s) ← s.parse env p.cop (← fault (CMCIConnection.chars con.mResponse))
      return (s, .reply (← fault (p.op.received p.out rh)))

-- A client with an operation that is not over takes no other one.
def step (env : Environment) (s : State) : Action → Except Stop (State × Output)
  | .connect hn scheme port user pwd => do
    let connection ← fault initConnection
    return ({ s with clients := s.clients ++ [⟨xmlConnect2 hn scheme port user pwd, connection, none⟩] }, .none)
  | .request i op cop out rv         =>
    match s.clients[i]? with
    | some ⟨data, connection, none⟩ => do
      let (c, o) ← fault (Client.request ⟨data, connection, none⟩ env op cop out rv)
      return ({ s with clients := s.clients.set i c }, o)
    | _                             => return (s, .none)
  | .event i e                       =>
    match s.clients[i]? with
    | some c => do return ({ s with clients := s.clients.set i (← fault (c.event e)) }, .none)
    | none   => return (s, .none)
  | .finish i rv responseCode        =>
    match s.clients[i]? with
    | some ⟨data, connection, some p⟩ => do
      let (s, o) ← s.finish env connection p rv responseCode
      return ({ s with clients := s.clients.set i ⟨data, connection, none⟩ }, o)
    | _                               => return (s, .none)

end State

def machine (env : Environment) : Machine State Action Output Stop where
  init := {}
  step := State.step env

end Session
end Sfcc
