import Sfcc.Lib.Allocation
import Sfcc.Memory

-- The lists that come with the library, whose elements are linked with each other.
namespace Sfcc

open Allocation

-- A pointer to one of the three elements of `Generic_list_info`, to a block of the heap, or one that was
-- never set.
inductive Ref
  | pre
  | post
  | deleted
  | element (address : ℕ)
  | indeterminate
  deriving DecidableEq

structure GenericListElement (P : Type) where
  pointer  : Option P
  previous : Ref
  next     : Ref

-- `memory` has the elements that are allocated, and `allocated` is how many these are.
structure GenericList (P : Type) where
  current       : Ref
  memory        : Ref → Option (GenericListElement P)
  allocated     : ℕ := 0
  numOfElements : UInt32 := 0

namespace GenericList

variable {P : Type}

def initializeList : GenericList P where
  current := .pre
  memory
    | .pre     => some { pointer := none, previous := .pre, next := .post }
    | .post    => some { pointer := none, previous := .pre, next := .post }
    | .deleted => some { pointer := none, previous := .indeterminate, next := .indeterminate }
    | _        => none

section

variable (l : GenericList P)

def load (r : Ref) : Except Misuse (GenericListElement P) :=
  (l.memory r).elim (throw .dangling) pure

def store (r : Ref) (e : GenericListElement P) : GenericList P :=
  { l with memory := Function.update l.memory r (some e) }

def setNext (r next : Ref) : Except Misuse (GenericList P) := do
  return l.store r { ← l.load r with next }

def setPrevious (r previous : Ref) : Except Misuse (GenericList P) := do
  return l.store r { ← l.load r with previous }

-- `a` is what `malloc` returns.
def new (a : ℕ) (e : GenericListElement P) : Except Misuse (GenericList P) :=
  if (l.memory (.element a)).isNone then
    return { l.store (.element a) e with allocated := l.allocated + 1 }
  else throw .taken

def free (r : Ref) : Except Misuse (GenericList P) := do
  let _ ← l.load r
  match r with
  | .element _ =>
    return { l with memory := Function.update l.memory r none, allocated := l.allocated - 1 }
  | _          => throw .outside

-- What `addToBeginning` and `addToEnd` share: a new element between two others.
def add (previous next : Ref) (pointer : P) (a : ℕ) : Except Misuse (GenericList P) := do
  let l ← l.new a { pointer := some pointer, previous, next }
  let l ← l.setPrevious next (.element a)
  let l ← l.setNext previous (.element a)
  return { l with numOfElements := l.numOfElements + 1 }

-- A null pointer is not added.
def addToBeginning (pointer : Option P) (a : ℕ) : Except Misuse (GenericList P) := do
  match pointer with
  | none         => return l
  | some pointer => l.add .pre (← l.load .pre).next pointer a

def addToEnd (pointer : Option P) (a : ℕ) : Except Misuse (GenericList P) := do
  match pointer with
  | none         => return l
  | some pointer => l.add (← l.load .post).previous .post pointer a

-- What the functions share that take an element out, which stands between two others.
def unlink (previous next element : Ref) : Except Misuse (GenericList P) := do
  let l ← l.setNext previous next
  let l ← l.setPrevious next previous
  let l ← l.free element
  return { l with numOfElements := l.numOfElements - 1 }

-- The cursor goes to `deletedElement`, which keeps the links of an element.
def leave (e : GenericListElement P) : Except Misuse (GenericList P) := do
  let l ← l.setPrevious .deleted e.previous
  let l ← l.setNext .deleted e.next
  return { l with current := .deleted }

def removeFromBeginning : Except Misuse (Option P × GenericList P) := do
  if l.numOfElements = 0 then return (none, l)
  else
    let element := (← l.load .pre).next
    let l := if element = l.current then { l with current := .pre } else l
    let e ← l.load element
    return (e.pointer, ← l.unlink .pre e.next element)

def removeFromEnd : Except Misuse (Option P × GenericList P) := do
  if l.numOfElements = 0 then return (none, l)
  else
    let element := (← l.load .post).previous
    let l := if element = l.current then { l with current := .post } else l
    let e ← l.load element
    return (e.pointer, ← l.unlink e.previous .post element)

def removeCurrent : Except Misuse (Option P × GenericList P) := do
  let element := l.current
  let e ← l.load element
  if e.pointer.isNone then return (none, l)
  else
    let l ← l.leave e
    return (e.pointer, ← l.unlink e.previous e.next element)

-- The loop of `removeAll` from an element on. The number bounds its turns.
def freeAll : ℕ → Ref → GenericList P → Except Misuse (GenericList P)
  | 0, _, _               => throw .outside
  | turns + 1, element, l => do
    if element = .post then return l
    else
      let element := (← l.load element).next
      freeAll turns element (← l.free (← l.load element).previous)

def removeAll : Except Misuse (GenericList P) := do
  let l ← freeAll (l.allocated + 1) (← l.load .pre).next l
  let l ← l.setNext .pre .post
  let l ← l.setPrevious .post .pre
  return { l with numOfElements := 0 }

def goto (r : Ref) : Except Misuse (Option P × GenericList P) := do
  return ((← l.load r).pointer, { l with current := r })

def firstInList : Except Misuse (Option P × GenericList P) := do
  l.goto (← l.load (← l.load (← l.load .pre).next).next).previous

def lastInList : Except Misuse (Option P × GenericList P) := do
  l.goto (← l.load (← l.load (← l.load .post).previous).previous).next

def nextInList : Except Misuse (Option P × GenericList P) := do
  l.goto (← l.load l.current).next

def previousInList : Except Misuse (Option P × GenericList P) := do
  l.goto (← l.load l.current).previous

def currentInList : Except Misuse (Option P × GenericList P) := do
  return ((← l.load l.current).pointer, l)

-- The `unsigned int` is returned as an `int`, and then as an `unsigned long`.

def numOfObjects : ℤ :=
  int l.numOfElements.toNat

def listSize : ℤ :=
  size_t l.numOfObjects

def isEmpty : Bool :=
  l.numOfElements = 0

end

section

variable [DecidableEq P] (l : GenericList P)

-- The loops of `removeFromList` and of `isInList`.

def findBackward (pointer : Option P) : ℕ → Ref → Except Misuse Ref
  | 0, _               => throw .outside
  | turns + 1, element => do
    if element = .pre then return element
    else
      let e ← l.load element
      if e.pointer = pointer then return element else findBackward pointer turns e.previous

def findForward (pointer : Option P) : ℕ → Ref → Except Misuse Ref
  | 0, _               => throw .outside
  | turns + 1, element => do
    if element = .post then return element
    else
      let e ← l.load element
      if e.pointer = pointer then return element else findForward pointer turns e.next

def removeFromList (pointer : Option P) : Except Misuse (Option P × GenericList P) := do
  let element ← l.findBackward pointer (l.allocated + 1) (← l.load .post).previous
  if element = .pre then return (none, l)
  else
    let e ← l.load element
    let l ← if element = l.current then l.leave e else pure l
    return (pointer, ← l.unlink e.previous e.next element)

def isInList (pointer : Option P) : Except Misuse Bool := do
  return (← l.findForward pointer (l.allocated + 1) (← l.load .pre).next) ≠ .post

end

-- The loop of `copyList`, with what `malloc` returns for the elements.
def copyFrom (l : GenericList P) : List ℕ → Ref → GenericList P → Except Misuse (GenericList P)
  | as, element, copy => do
    if element = .post then return copy
    else match as with
      | []      => throw .outside
      | a :: as =>
        let e ← l.load element
        copyFrom l as e.next (← copy.addToEnd e.pointer a)

def copyList (l : GenericList P) (as : List ℕ) : Except Misuse (GenericList P) := do
  copyFrom l as (← l.load .pre).next initializeList

-- The calls of the function table that change a list or its cursor.
inductive ListCall (P : Type)
  | clear
  | append (pointer : Option P) (a : ℕ)
  | prepend (pointer : Option P) (a : ℕ)
  | getFirst
  | getLast
  | getNext
  | getPrevious
  | getCurrent
  | removeFirst
  | removeLast
  | removeCurrent
  | removeThis (pointer : Option P)

-- `listAdd` is `listPrepend`.
def call [DecidableEq P] (l : GenericList P) : ListCall P → Except Misuse (Option P × GenericList P)
  | .clear              => do return (none, ← l.removeAll)
  | .append pointer a   => do return (none, ← l.addToEnd pointer a)
  | .prepend pointer a  => do return (none, ← l.addToBeginning pointer a)
  | .getFirst           => { l with current := .pre : GenericList P }.firstInList
  | .getLast            => l.lastInList
  | .getNext            => l.nextInList
  | .getPrevious        => l.previousInList
  | .getCurrent         => l.currentInList
  | .removeFirst        => l.removeFromBeginning
  | .removeLast         => l.removeFromEnd
  | .removeCurrent      => l.removeCurrent
  | .removeThis pointer => l.removeFromList pointer

-- The results are those of the calls.
def run [DecidableEq P] : GenericList P → List (ListCall P) → Except Misuse (List (Option P) × GenericList P)
  | l, []      => return ([], l)
  | l, c :: cs => do
    let (o, l) ← l.call c
    let (os, l) ← run l cs
    return (o :: os, l)

end GenericList
end Sfcc
