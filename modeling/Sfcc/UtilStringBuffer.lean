import Sfcc.Lib.Cells
import Sfcc.Lib.Transition
import Sfcc.Memory

-- The string buffers that requests and responses are put together in.
namespace Sfcc

inductive Undefined
  | overflow
  | outside
  | endless
  deriving DecidableEq, Repr

def IsInt (n : ℤ) : Prop :=
  -(2 ^ 31) ≤ n ∧ n < 2 ^ 31

instance (n : ℤ) : Decidable (IsInt n) :=
  inferInstanceAs (Decidable (_ ∧ _))

-- The result of an operation on numbers of type `int`.
def checked (n : ℤ) : Except Undefined ℤ :=
  if IsInt n then return n else throw .overflow

def memcpy (m : List (Option UInt8)) (i : ℤ) (t : Text) (n : ℤ) : Except Undefined (List (Option UInt8)) :=
  if 0 ≤ i ∧ n ≤ t.length then (Cells.store m i.toNat (t.take n.toNat)).elim (throw .outside) pure
  else throw .outside

-- What `hdl` points to is a block of its own.
structure UtilStringBuffer where
  hdl : List (Option UInt8)
  max : ℤ
  len : ℤ
  deriving DecidableEq

namespace UtilStringBuffer

-- The loop that both of the appending functions double `max` in.
def doubled (need max : ℤ) : Except Undefined ℤ :=
  if need < max then return max
  else if _h₀ : max = 0 then throw .endless
  else if _h : IsInt (max * 2) then doubled need (max * 2)
  else throw .overflow
termination_by 2 ^ 31 - max.natAbs
decreasing_by
  have ⟨_, _⟩ := _h
  omega

-- How both of them make room for `sl` bytes.
def reserve (sb : UtilStringBuffer) (sl : ℤ) : Except Undefined UtilStringBuffer := do
  let need ← checked ((← checked (sl + sb.len)) + 1)
  if need ≥ sb.max then
    let max ← doubled need (if sb.max = 0 then 8 else sb.max)
    let size := size_t (← checked (max + 2))
    return { sb with max, hdl := Cells.resize sb.hdl size.toNat }
  else return sb

def appendChars (sb : UtilStringBuffer) : Option Text → Except Undefined UtilStringBuffer
  | none       => return sb
  | some chars => do
    let sl := int chars.length
    let sb ← sb.reserve sl
    let hdl ← memcpy sb.hdl sb.len (chars ++ [0]) (size_t (← checked (sl + 1)))
    return { sb with hdl, len := ← checked (sb.len + sl) }

def appendBlock (sb : UtilStringBuffer) (data : Option Text) (size : ℕ) : Except Undefined UtilStringBuffer :=
  match data with
  | none      => return sb
  | some data => do
    let sl := int size
    let sb ← sb.reserve sl
    let hdl ← memcpy sb.hdl sb.len data (size_t sl)
    let len ← checked (sb.len + sl)
    return { sb with hdl := ← memcpy hdl len [0] 1, len }

def append6Chars (sb : UtilStringBuffer) (chars1 chars2 chars3 chars4 chars5 chars6 : Option Text) :
    Except Undefined UtilStringBuffer := do
  let sb ← sb.appendChars chars1
  let sb ← sb.appendChars chars2
  let sb ← sb.appendChars chars3
  let sb ← sb.appendChars chars4
  let sb ← sb.appendChars chars5
  sb.appendChars chars6

def append5Chars (sb : UtilStringBuffer) (chars1 chars2 chars3 chars4 chars5 : Option Text) :
    Except Undefined UtilStringBuffer := do
  let sb ← sb.appendChars chars1
  let sb ← sb.appendChars chars2
  let sb ← sb.appendChars chars3
  let sb ← sb.appendChars chars4
  sb.appendChars chars5

def append3Chars (sb : UtilStringBuffer) (chars1 chars2 chars3 : Option Text) :
    Except Undefined UtilStringBuffer := do
  let sb ← sb.appendChars chars1
  let sb ← sb.appendChars chars2
  sb.appendChars chars3

def reset (sb : UtilStringBuffer) : Except Undefined UtilStringBuffer := do
  if sb.max ≠ 0 then return { sb with hdl := ← memcpy sb.hdl 0 [0] 1, len := 0 }
  else return { sb with len := 0 }

-- The C string that `getCharPtr` returns.
def getCharPtr (sb : UtilStringBuffer) : Option Text :=
  Cells.upTo 0 sb.hdl

def getSize (sb : UtilStringBuffer) : ℤ :=
  sb.len % 2 ^ 32

def clone (sb : UtilStringBuffer) : Except Undefined UtilStringBuffer := do
  match sb.getCharPtr with
  | some t => return { hdl := (t ++ [0]).map some, max := sb.len, len := sb.len }
  | none   => throw .outside

def newStringBuffer (s : ℤ) : Except Undefined UtilStringBuffer := do
  let s := if s = 0 then 32 else s
  return { hdl := ← memcpy (Cells.resize [] s.toNat) 0 [0] 1, max := s, len := 0 }

inductive Call
  | appendChars (chars : Option Text)
  | append3Chars (chars1 chars2 chars3 : Option Text)
  | append5Chars (chars1 chars2 chars3 chars4 chars5 : Option Text)
  | append6Chars (chars1 chars2 chars3 chars4 chars5 chars6 : Option Text)
  | appendBlock (data : Option Text) (size : ℕ)
  | reset
  deriving DecidableEq

def call (sb : UtilStringBuffer) : Call → Except Undefined UtilStringBuffer
  | .appendChars c                => sb.appendChars c
  | .append3Chars c₁ c₂ c₃          => sb.append3Chars c₁ c₂ c₃
  | .append5Chars c₁ c₂ c₃ c₄ c₅    => sb.append5Chars c₁ c₂ c₃ c₄ c₅
  | .append6Chars c₁ c₂ c₃ c₄ c₅ c₆ => sb.append6Chars c₁ c₂ c₃ c₄ c₅ c₆
  | .appendBlock data size         => sb.appendBlock data size
  | .reset                         => sb.reset

-- What a call makes of a text. A null pointer adds nothing.
def Call.content (c : Call) (t : Text) : Text :=
  match c with
  | .appendChars c                => t ++ c.getD []
  | .append3Chars c₁ c₂ c₃          => t ++ [c₁, c₂, c₃].flatMap (·.getD [])
  | .append5Chars c₁ c₂ c₃ c₄ c₅    => t ++ [c₁, c₂, c₃, c₄, c₅].flatMap (·.getD [])
  | .append6Chars c₁ c₂ c₃ c₄ c₅ c₆ => t ++ [c₁, c₂, c₃, c₄, c₅, c₆].flatMap (·.getD [])
  | .appendBlock data size         => t ++ (data.getD []).take size
  | .reset                         => []

-- A buffer with all that was appended to it since it was created or reset.
structure Use where
  sb   : UtilStringBuffer
  text : Text
  deriving DecidableEq

inductive Action
  | create (s : ℤ)
  | call (i : ℕ) (c : Call)
  | clone (i : ℕ)
  deriving DecidableEq

-- Some buffers. One of them is created, changed or cloned.
def step (l : List Use) : Action → Except Undefined (List Use)
  | .create s => return l ++ [⟨← newStringBuffer s, []⟩]
  | .call i c =>
    match l[i]? with
    | some u => return l.set i ⟨← u.sb.call c, c.content u.text⟩
    | none   => return l
  | .clone i  =>
    match l[i]? with
    | some u => return l ++ [⟨← u.sb.clone, u.text⟩]
    | none   => return l

def system : Transition.System (List Use) Action where
  init     := []
  step l a := (step l a).toOption

end UtilStringBuffer
end Sfcc
