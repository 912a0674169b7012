import Mathlib.Algebra.Group.Int.Defs
import Mathlib.Algebra.Group.Nat.Defs
import Sfcc.Lib.Segments
import Sfcc.Xml.Response

-- The connections of the indication listener.
namespace Sfcc.Listener

def hdrBufsize : ℕ := 5000
def hdrLimmit : ℕ := 5000

-- Up to the first NUL.
def cstr (t : Text) : Text :=
  t.takeWhile (· ≠ 0)

-- Whether `strncasecmp` with the length of the first text is zero.
def begins (s t : Text) : Bool :=
  sameIgnoringCase (t.take s.length) s

def strstr (t s : Text) : Bool :=
  t.tails.any s.isPrefixOf

def isBlank (c : UInt8) : Bool :=
  c = 32 ∨ c = 9

def isEol (c : UInt8) : Bool :=
  c = 10 ∨ c = 13

def hdrsEnd (data : Text) : Bool :=
  strstr (cstr data) (bytes "\r\n\r\n") || strstr (cstr data) (bytes "\n\n")

-- The loop of `getHdrs`. The method is looked for in `buf` when it was read to first, which holds
-- `stale` behind what was read. `total` is the length of the data.
def readHdrs (cmd stale : Text) (state : ℕ) (first : Bool) (data : Text) (conn : List Text) :
    ℕ × Text × List Text :=
  let r := Segments.read hdrBufsize conn
  if r.1 = [] then (state, data, r.2)
  else
    let data := data ++ r.1
    let state := if first ∧ ¬ begins cmd (r.1 ++ stale.drop r.1.length) then 1 else state
    if hdrsEnd data then (state, data, r.2)
    else if data.length ≥ hdrLimmit then (2, data, r.2)
    else readHdrs cmd stale state false data r.2
termination_by conn.flatten.length
decreasing_by exact Segments.read_length_lt ‹_›

-- On a connection on which something arrives in time.
def getHdrs (stale : Text) (conn : List Text) (cmd : Text) : ℕ × Text × List Text :=
  readHdrs cmd stale 0 true [] conn

-- The next line, and what follows it.
def getNextHdr (data : Text) : Option (Text × Text) :=
  match data.dropWhile (¬ isEol ·) with
  | []        => none
  | c :: rest =>
    some (cstr (data.takeWhile (¬ isEol ·)), if c = 13 ∧ rest.head? = some 10 then rest.tail else rest)

theorem getNextHdr_length_lt {data hdr rest : Text} (h : getNextHdr data = some (hdr, rest)) :
    rest.length < data.length := by
  have hs : (data.dropWhile (¬ isEol ·)).length ≤ data.length :=
    (List.dropWhile_suffix _).length_le
  unfold getNextHdr at h
  split at h
  · cases h
  · rename_i c rest' hd
    rw [hd, List.length_cons] at hs
    cases h
    split
    · rw [List.length_tail]
      omega
    · omega

-- What the headers are read to. The others are never looked at.
structure Buffer where
  protocol       : Text := bytes "HTTP/1.1"
  content_length : Int32 := -1
  discardInput   : ℕ := 0
  responses      : List (Text × ℕ) := []

namespace Buffer

def genError (b : Buffer) (status : ℕ) : Buffer :=
  { b with responses := b.responses ++ [(b.protocol, status)] }

-- A response that is given only if there was none before.
def refuse (b : Buffer) (status : ℕ) : Buffer :=
  if b.discardInput = 0 then { b.genError status with discardInput := 2 } else b

def header (b : Buffer) (hdr : Text) : Buffer :=
  if begins (bytes "Content-Length:") hdr then
    { b with content_length := Xml.atoi ((hdr.drop 15).dropWhile isBlank) }
  else if begins (bytes "Host:") hdr then
    let host := (hdr.drop 5).dropWhile isBlank
    if 47 ∈ host ∨ host.head? = some 46 then b.refuse 400 else b
  else if begins (bytes "Expect:") hdr then b.refuse 417
  else b

-- `none` when `NULL` is written to.
def requestLine (b : Buffer) (hdr : Text) : Option Buffer :=
  let word t := t.dropWhile fun c => ¬ (isBlank c ∨ isEol c)
  match word hdr with
  | []        => b
  | _ :: path =>
    match word (path.dropWhile fun c => isBlank c ∨ isEol c) with
    | []            => none
    | _ :: protocol => some { b with protocol }

end Buffer

def readLines (b : Buffer) (data : Text) : Buffer × Text :=
  match _h : getNextHdr data with
  | none             => (b, [])
  | some (hdr, rest) => if hdr = [] then (b, rest) else readLines (b.header hdr) rest
termination_by data.length
decreasing_by exact getNextHdr_length_lt _h

-- How the connection ends, after some responses.
inductive Handled
  | exits (responses : List (Text × ℕ))
  | faults (responses : List (Text × ℕ))
  | hangs (responses : List (Text × ℕ))
  | discards (responses : List (Text × ℕ))
  | processes (responses : List (Text × ℕ)) (xml : Text)

-- What `getPayload` leaves in `content`, of which `data` was read already.
def getPayload (b : Buffer) (data : Text) (conn : List Text) : Except Fault (Option Text) :=
  let length := b.content_length.toInt.toNat
  if length + 8 ≥ 2 ^ 31 ∨ data.length > length + 8 then throw .wild
  else return (Segments.readAll (length - data.length) conn).map fun r => cstr ((data ++ r.1).take length)

def handleConnection (stale : Text) (conn : List Text) : Handled :=
  let (rc, data, conn) := getHdrs stale conn (bytes "POST ")
  let b : Buffer := {}
  let b := if rc = 1 then { b.genError 501 with discardInput := 1 } else b
  let b := if rc = 2 then { b.genError 400 with discardInput := 2 } else b
  if data = [] then .exits b.responses
  else
    let (hdr, data) := (getNextHdr data).getD ([], [])
    match b.requestLine hdr with
    | none   => .faults b.responses
    | some b =>
      let (b, data) := readLines b data
      if b.content_length < 0 then .exits (b.refuse 411).responses
      else match getPayload b data conn with
        | .error _          => .faults b.responses
        | .ok none          => .hangs b.responses
        | .ok (some content) =>
          if b.discardInput ≠ 0 then .discards b.responses
          else .processes (b.genError 200).responses content

end Sfcc.Listener
