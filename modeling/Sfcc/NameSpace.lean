import Sfcc.Lib.Cells
import Sfcc.Memory

-- A namespace is split into its components and joined again, byte by byte.
namespace Sfcc.NameSpace

abbrev Block := List (Option UInt8)

def write (m : Block) (i : ℤ) (t : Text) : Except Fault Block :=
  if 0 ≤ i then (Cells.store m i.toNat t).elim (throw .wild) pure else throw .wild

-- The string that begins at an offset.
def string (m : Block) (i : ℕ) : Except Fault Text :=
  (Cells.upTo 0 (m.drop i)).elim (throw .wild) pure

-- The loop of `getNameSpaceComponents` over the bytes that are left, with what is stored to `nsc`. The first
-- argument is what `nsc` holds.
def components (nsc : Text) : Text → List Text × List Write
  | []      => (if nsc = [] then [] else [nsc], [⟨nsc.length, [0], 256⟩])
  | c :: ns =>
    if c = 47 then
      let (ul, writes) := components [] ns
      (nsc :: ul, ⟨nsc.length, [0], 256⟩ :: writes)
    else
      let (ul, writes) := components (nsc ++ [c]) ns
      (ul, ⟨nsc.length, [c], 256⟩ :: writes)

-- The length of the string is kept as an `int`.
def split (nameSpace : Option Text) : List Text × List Write :=
  nameSpace.elim ([], []) fun ns => components [] (ns.take (int ns.length).toNat)

-- The list, where nothing was stored beside `nsc`.
def getNameSpaceComponents (nameSpace : Option Text) : Except Fault (List Text) :=
  if (split nameSpace).2.all fun w => w.InBounds then return (split nameSpace).1 else throw .wild

-- The loop of `pathToXml`, from the offset `p1` on. Every turn leaves a byte behind.
def cut : ℕ → Block → ℕ → Except Fault (List Text)
  | 0, _, _      => throw .wild
  | n + 1, m, p1 => do
    match (← string m p1).findIdx? (· = 47) with
    | some k =>
      let m ← write m (p1 + k) [0]
      return (← string m p1) :: (← cut n m (p1 + k + 1))
    | none   => return [← string m p1]

-- The string is a copy that the loop may write to.
def pathToXml (ns : Text) : Except Fault (List Text) :=
  cut (ns.length + 1) ((ns ++ [0]).map some) 0

def strcat (m : Block) (t : Text) : Except Fault Block := do
  write m (← string m 0).length (t ++ [0])

-- What `localNameSpacePath` makes of one more name.
def addNameSpace (value : Option Block) (ns : Text) : Except Fault Block :=
  match value with
  | some value => do
    let value := Cells.resize value ((← string value 0).length + ns.length + 2)
    strcat (← strcat value (bytes "/")) ns
  | none       => write (Cells.resize [] (ns.length + 1)) 0 (ns ++ [0])

def localNameSpacePath (names : List Text) : Except Fault (Option Block) :=
  names.foldlM (fun value ns => return some (← addNameSpace value ns)) none

end Sfcc.NameSpace
