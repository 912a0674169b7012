import Sfcc.Lib.Transition
import Sfcc.Listener

-- How the payload of a request is read.
namespace Sfcc.Listener

-- What a call of `read` comes to: some bytes, the end of the stream, `EINTR` or `EAGAIN`, or another error.
inductive Read
  | bytes (b : UInt8) (bs : Text)
  | closed
  | interrupted
  | failed
  deriving DecidableEq

def Read.data : Read → Text
  | .bytes b bs => b :: bs
  | _           => []

def received (rs : List Read) : Text :=
  rs.flatMap Read.data

-- The bytes of a text, from an offset on.
def placed : ℤ → Text → List (ℤ × UInt8)
  | _, []      => []
  | i, b :: bs => (i, b) :: placed (i + 1) bs

-- The counter of `readData`, and what was stored to which offsets of `into`.
structure Reading where
  c      : ℤ := 0
  stored : List (ℤ × UInt8) := []
  deriving DecidableEq

-- What a turn of the loop makes of what `read` comes to.
def Reading.next (length : ℤ) (s : Reading) : Read → Reading
  | .bytes b bs            =>
    let block := (b :: bs).take (length - s.c).toNat
    { c := s.c + block.length, stored := s.stored ++ placed s.c block }
  | .failed                => { s with c := s.c - 1 }
  | .closed | .interrupted => s

-- There is no more turn, or the number of bytes that `read` is asked for is no `int`.
def Reading.turn (length : ℤ) (s : Reading) (r : Read) : Option Reading :=
  if length ≤ s.c ∨ 2 ^ 31 ≤ length - s.c then none else some (s.next length r)

def readData (length : ℤ) : Transition.System Reading Read where
  init := {}
  step := Reading.turn length

-- After some reads, if the loop does not end before.
def readDataAfter (length : ℤ) (rs : List Read) : Option Reading :=
  (readData length).exec {} rs

-- What all reads behind the last one come to: they do not return, or the stream is over or broken.
inductive Ending
  | silent
  | closed
  | broken
  deriving DecidableEq

def Ending.reads : Ending → ℕ → List Read
  | .silent, _ => []
  | .closed, k => .replicate k .closed
  | .broken, k => .replicate k .failed

structure Socket where
  reads  : List Read
  ending : Ending

namespace Socket

-- What the first reads may come to.
def Gives (socket : Socket) (rs : List Read) : Prop :=
  ∃ k, rs <+: socket.reads ++ socket.ending.reads k

def delivered (socket : Socket) : Text :=
  received socket.reads

-- Up to the first error that is none of an interruption.
def sound (socket : Socket) : List Read :=
  socket.reads.takeWhile (· ≠ .failed)

end Socket

-- Every byte that `getPayload` writes to `content`, after some reads: what was read with the headers,
-- what `readData` stores behind it and the NUL, once `readData` returns.
def payloadWrites (content_length : ℤ) (data : Text) (rs : List Read) : Option (List (ℤ × UInt8)) :=
  (readDataAfter (content_length - data.length) rs).map fun s =>
    placed 0 data ++ s.stored.map (fun w => ((data.length : ℤ) + w.1, w.2)) ++
      if content_length - data.length ≤ s.c then [(content_length, 0)] else []

-- What the headers leave for `getPayload`.
def beforePayload (stale : Text) (conn : List Text) : Option (Buffer × Text × List Text) :=
  let (rc, data, conn) := getHdrs stale conn (bytes "POST ")
  let b : Buffer := {}
  let b := if rc = 1 then { b.genError 501 with discardInput := 1 } else b
  let b := if rc = 2 then { b.genError 400 with discardInput := 2 } else b
  if data = [] then none
  else
    let (hdr, data) := (getNextHdr data).getD ([], [])
    match b.requestLine hdr with
    | none   => none
    | some b =>
      let (b, data) := readLines b data
      if b.content_length < 0 then none else some (b, data, conn)

end Sfcc.Listener
