import Mathlib.Data.Int.Notation
import Sfcc.Lib.Allocation
import Sfcc.Lib.Cells
import Sfcc.Lib.Transition
import Sfcc.Memory

-- The blocks that the parser allocates for a document, and how they are freed behind it.
namespace Sfcc

open Allocation

abbrev Address := ℕ

-- What `blocks` points to is in `table`, one cell for every pointer.
structure ParserHeap where
  capacity  : ℤ := 0
  numBlocks : ℤ := 0
  blocks    : Option Address := none
  table     : List (Option (Option Address)) := []

def PARSER_HEAP_INCREMENT : ℤ := 100

-- What the C library returns in a call of the functions below, for the table and for the block.
structure Answers where
  table : Option Address
  block : Option Address
  deriving DecidableEq

-- The heap of the parser within the heap of the C library.
structure Heaps extends ParserHeap where
  memory : Address → Option ℕ

namespace Heaps

def parserHeapInit (memory : Address → Option ℕ) (self : Address) : Except Misuse Heaps := do
  return { memory := ← malloc memory self 24 }

def load (t : List (Option (Option Address))) (i : ℕ) : Except Misuse (Option Address) :=
  match t[i]? with
  | some (some q) => return q
  | _             => throw .outside

def store (t : List (Option (Option Address))) (i : ℕ) (q : Option Address) :
    Except Misuse (List (Option (Option Address))) :=
  (Cells.store t i [q]).elim (throw .outside) pure

-- The loop of `parserHeapTerm` from the `i`-th entry downwards, with what is freed.
def freeBlocks (t : List (Option (Option Address))) :
    ℕ → (Address → Option ℕ) → Except Misuse (List Address × (Address → Option ℕ))
  | 0, m     => return ([], m)
  | i + 1, m => do
    let q ← load t i
    let (freed, m) ← freeBlocks t i (← free m q)
    return (q.toList ++ freed, m)

-- The number of turns of a loop that begins with this `i` and ends with zero.
def turns (h : Heaps) : ℕ :=
  (int (size_t (h.numBlocks - 1)) + 1).toNat

def parserHeapTerm (h : Heaps) (self : Address) : Except Misuse (List Address × (Address → Option ℕ)) := do
  let (freed, memory) ← freeBlocks h.table h.turns h.memory
  let memory ← free memory h.blocks
  return (freed ++ h.blocks.toList ++ [self], ← free memory self)

def parserHeapGrow (h : Heaps) (a : Answers) : Except Misuse (ℤ × Heaps) :=
  if h.numBlocks ≥ h.capacity then do
    let capacity := size_t (h.capacity + PARSER_HEAP_INCREMENT)
    let memory ← realloc h.memory h.blocks a.table (size_t (8 * capacity)).toNat
    match a.table with
    | some _ =>
      let table := Cells.resize h.table ((size_t (8 * capacity)).toNat / 8)
      return count { h with blocks := a.table, capacity, table, memory }
    | none   => return (-1, { h with blocks := none, table := [], memory })
  else return count h
where
  count (h : Heaps) : ℤ × Heaps :=
    let numBlocks := size_t (h.numBlocks + 1)
    (int (size_t (numBlocks - 1)), { h with numBlocks })

-- What the allocating functions share: an entry for what the C library returns.
def register (h : Heaps) (a : Answers)
    (allocate : (Address → Option ℕ) → Except Misuse (Address → Option ℕ)) :
    Except Misuse (Option Address × Heaps) := do
  let (idx, h) ← h.parserHeapGrow a
  if idx ≥ 0 then
    let memory ← allocate h.memory
    return (a.block, { h with memory, table := ← store h.table idx.toNat a.block })
  else return (none, h)

def parserMalloc (h : Heaps) (a : Answers) (sz : ℕ) : Except Misuse (Option Address × Heaps) :=
  h.register a (malloc · a.block sz)

def parserCalloc (h : Heaps) (a : Answers) (num sz : ℕ) : Except Misuse (Option Address × Heaps) :=
  h.register a (malloc · a.block (num * sz))

-- The loop of `parserRealloc` from the `i`-th entry downwards.
def clear (p : Option Address) : ℕ → List (Option (Option Address)) → Except Misuse (List (Option (Option Address)))
  | 0, t     => return t
  | i + 1, t => do
    if (← load t i) = p then clear p i (← store t i none) else clear p i t

def parserRealloc (h : Heaps) (a : Answers) (p : Option Address) (sz : ℕ) :
    Except Misuse (Option Address × Heaps) := do
  let h := { h with table := ← clear p h.turns h.table }
  h.register a (realloc · p a.block sz)

def parserStrdup (h : Heaps) (a : Answers) (s : Text) : Except Misuse (Option Address × Heaps) :=
  h.register a (malloc · a.block (s.length + 1))

inductive Call
  | malloc (sz : ℕ)
  | calloc (num sz : ℕ)
  | realloc (p : Option Address) (sz : ℕ)
  | strdup (s : Text)
  deriving DecidableEq

-- The block that a call takes away from the caller.
def Call.moved : Call → Option Address
  | .realloc p _ => p
  | _            => none

def call (h : Heaps) (a : Answers) : Call → Except Misuse (Option Address × Heaps)
  | .malloc sz     => h.parserMalloc a sz
  | .calloc num sz => h.parserCalloc a num sz
  | .realloc p sz  => h.parserRealloc a p sz
  | .strdup s      => h.parserStrdup a s

end Heaps

-- The blocks that were returned and not reallocated since.
structure Parsing extends Heaps where
  live : List Address := []

namespace Parsing

-- A call that returns no block changes none.
def call (s : Parsing) (a : Answers) (c : Heaps.Call) : Except Misuse Parsing := do
  match ← s.toHeaps.call a c with
  | (some q, h) => return { h with live := s.live.filter (some · ≠ c.moved) ++ [q] }
  | (none, h)   => return { h with live := s.live }

def system (h : Heaps) : Transition.System Parsing (Answers × Heaps.Call) where
  init       := { h with }
  step s act := (s.call act.1 act.2).toOption

end Parsing
end Sfcc
