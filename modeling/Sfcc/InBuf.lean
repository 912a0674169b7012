import Sfcc.Lib.Cells
import Sfcc.Listener

-- The buffer of a connection, byte by byte.
namespace Sfcc.Listener

-- `size` is the number of the cells that are allocated.
structure InBuf where
  data   : List (Option UInt8) := []
  length : ℕ := 0
  ptr    : ℕ := 0

-- A size is an `int`. There is nothing of a negative one.
def realloc (data : List (Option UInt8)) (size : ℕ) : Except Fault (List (Option UInt8)) :=
  if size % 2 ^ 32 < 2 ^ 31 then return Cells.resize data (size % 2 ^ 32) else throw .null

def store (data : List (Option UInt8)) (i : ℕ) (t : Text) : Except Fault (List (Option UInt8)) :=
  (Cells.store data i t).elim (throw .wild) pure

namespace InBuf

def add2buffer (b : InBuf) (str : Text) : Except Fault InBuf := do
  let b : InBuf ←
    if b.data.length = 0 then
      pure { b with data := ← realloc [] (str.length + 500), length := 0 }
    else if b.length + str.length ≥ b.data.length then
      pure { b with data := ← realloc b.data (b.length + str.length + 500) }
    else pure b
  let data ← store b.data b.length str
  let data ← store data (b.length + str.length) [0]
  return { b with data, length := b.length + str.length }

-- The bytes up to the NUL behind the last one, from an offset on.
def since (b : InBuf) (i : ℕ) : List (Option UInt8) :=
  (b.data.take (b.length + 1)).drop i

def get (b : InBuf) (i : ℕ) : Except Fault UInt8 :=
  match b.since i with
  | some c :: _ => return c
  | _           => throw .wild

def set (b : InBuf) (i : ℕ) (c : UInt8) : Except Fault InBuf := do
  if i ≤ b.length then return { b with data := ← store b.data i [c] } else throw .wild

-- What the functions of the C library look at, from an offset on.
def string (b : InBuf) (i : ℕ) : Except Fault Text :=
  (Cells.upTo 0 (b.since i)).elim (throw .wild) pure

-- The loop of `getNextHdr`, for a line that begins at `i`.
def nextHdr (i : ℕ) (b : InBuf) : Except Fault (Option ℕ × InBuf) :=
  if _h : b.ptr < b.length then do
    let c ← b.get b.ptr
    if isEol c then do
      let b ← b.set b.ptr 0
      let b := { b with ptr := b.ptr + 1 }
      if c = 13 ∧ b.ptr < b.length then do
        if (← b.get b.ptr) = 10 then do
          let b ← b.set b.ptr 0
          return (some i, { b with ptr := b.ptr + 1 })
        else return (some i, b)
      else return (some i, b)
    else nextHdr i { b with ptr := b.ptr + 1 }
  else return (none, b)
termination_by b.length - b.ptr
decreasing_by omega

def getNextHdr (b : InBuf) : Except Fault (Option ℕ × InBuf) :=
  nextHdr b.ptr b

-- Some calls of it, one after the other.
def nextHdrs : ℕ → InBuf → Except Fault (List (Option ℕ) × InBuf)
  | 0, b     => return ([], b)
  | k + 1, b => do
    let (hdr, b) ← b.getNextHdr
    let (hdrs, b) ← nextHdrs k b
    return (hdr :: hdrs, b)

end InBuf

-- The variables of `handleConnection` that are looked at. `protocol` is an offset unless it is still the
-- text that was there at first.
structure Conn where
  buf            : InBuf
  protocol       : Option ℕ := none
  content_length : Int32 := -1
  discardInput   : ℕ := 0
  responses      : List (Text × ℕ) := []

-- Nothing comes of a loop that takes more turns than it is given.
abbrev Turns := ExceptT Fault Option

def once {α : Type} (x : Except Fault α) : Turns α :=
  ExceptT.mk (some x)

def isSeparator (c : UInt8) : Bool :=
  isBlank c ∨ isEol c

namespace Conn

def protocolText (s : Conn) : Except Fault Text :=
  s.protocol.elim (return bytes "HTTP/1.1") s.buf.string

def genError (s : Conn) (status : ℕ) : Except Fault Conn := do
  return { s with responses := s.responses ++ [(← s.protocolText, status)] }

def refuse (s : Conn) (status : ℕ) : Except Fault Conn := do
  if s.discardInput = 0 then return { ← s.genError status with discardInput := 2 } else return s

-- A turn of the loop over the request line, and whether there is one more.
def lineTurn (httpHdr : ℕ) (s : Conn) : Except Fault (Bool × Conn) := do
  match (← s.buf.string httpHdr).findIdx? isSeparator with
  | none   => return (false, s)
  | some i =>
    let buf ← s.buf.set (httpHdr + i) 0
    let path := httpHdr + i + 1
    let path := path + ((← buf.string path).takeWhile isSeparator).length
    match (← buf.string path).findIdx? isSeparator with
    | none   => throw .null
    | some j => return (true, { s with buf := ← buf.set (path + j) 0, protocol := some (path + j + 1) })

def lineLoop : ℕ → ℕ → Conn → Turns Conn
  | 0, _, _             => none
  | turns + 1, httpHdr, s => do
    match ← once (s.lineTurn httpHdr) with
    | (false, s) => return s
    | (true, s)  => lineLoop turns httpHdr s

-- Behind the name of a header and blanks.
def value (s : Conn) (cp : ℕ) : Except Fault Text := do
  s.buf.string (cp + ((← s.buf.string cp).takeWhile isBlank).length)

def header (hdr : ℕ) (s : Conn) : Except Fault Conn := do
  let text ← s.buf.string hdr
  if begins (bytes "Authorization:") text then do
    let _ ← s.value (hdr + 14)
    return s
  else if begins (bytes "Content-Length:") text then
    return { s with content_length := Xml.atoi (← s.value (hdr + 15)) }
  else if begins (bytes "Content-Type:") text then do
    let _ ← s.value (hdr + 13)
    return s
  else if begins (bytes "Host:") text then do
    let host ← s.value (hdr + 5)
    if 47 ∈ host ∨ host.head? = some 46 then s.refuse 400 else return s
  else if begins (bytes "User-Agent:") text then do
    let _ ← s.value (hdr + 11)
    return s
  else if begins (bytes "TE:") text then do
    let _ ← s.value (hdr + 3)
    return s
  else if begins (bytes "Expect:") text then s.refuse 417
  else return s

def headerLoop : ℕ → Conn → Turns Conn
  | 0, _         => none
  | turns + 1, s => do
    let (hdr, buf) ← once s.buf.getNextHdr
    let s := { s with buf }
    match hdr with
    | none     => return s
    | some hdr =>
      if (← once (s.buf.get hdr)) = 0 then return s else headerLoop turns (← once (s.header hdr))

-- From the first line to the test of `content_length`. `rc` is what `getHdrs` returned.
def parse (turns rc : ℕ) (buf : InBuf) : Turns Conn := do
  let s : Conn := { buf }
  let s ← if rc = 1 then pure { ← once (s.genError 501) with discardInput := 1 } else pure s
  let s ← if rc = 2 then pure { ← once (s.genError 400) with discardInput := 2 } else pure s
  let (httpHdr, buf) ← once s.buf.getNextHdr
  let s := { s with buf }
  let s ← httpHdr.elim (pure s) (lineLoop turns · s)
  let s ← headerLoop turns s
  if s.content_length < 0 then once (s.refuse 411) else return s

end Conn
end Sfcc.Listener
