import Sfcc.Cmpi.Native

-- The property filter of an instance, with the memory its lists are kept in.
namespace Sfcc

-- A word of a list of names. What was in memory before is `garbage`, unless it happens to be `NULL`.
inductive Word
  | null
  | name (t : Text)
  | garbage
  deriving DecidableEq, Repr

-- The words from the first one of a list to the end of the memory that belongs to it.
abbrev Block := List Word

namespace Block

-- The names up to the `NULL`, which the loops over a list look for.
def names : Block → Except Fault (List Text)
  | []              => throw .wild
  | .null :: _      => return []
  | .name t :: list => do return t :: (← names list)
  | .garbage :: _   => throw .wild

-- A list that ends in `NULL`, as the caller of `setPropertyFilter` has it.
def terminated (list : List Text) : Block :=
  list.map .name ++ [.null]

end Block

def release_list (list : Option Block) : Except Fault Unit :=
  match list with
  | none      => return ()
  | some list => do let _ ← list.names

-- The last word of the copy is not written. `last` is what `malloc` left there.
def duplicate_list (last : Word) (list : Option Block) : Except Fault (Option Block) :=
  match list with
  | none      => return none
  | some list => do return some ((← list.names).map .name ++ [last])

def contained (name : Option Text) : Block → Except Fault Bool
  | []              => throw .wild
  | .null :: _      => return false
  | .name t :: list => do
    if sameIgnoringCase t (← deref name) then return true else contained name list
  | .garbage :: _   => throw .wild

def contained_list (list : Option Block) (name : Option Text) : Except Fault Bool :=
  match list with
  | none      => return false
  | some list => contained name list

structure FilteredInstance extends NativeInstance CMPIValue where
  filtered      : Bool := false
  property_list : Option Block := none
  key_list      : Option Block := none

namespace FilteredInstance

def new (cop : Option CMPIObjectPath) : Except Fault FilteredInstance := do
  return { toNativeInstance := ← newCMPIInstance cop }

def accepts (i : FilteredInstance) (name : Option Text) : Except Fault Bool := do
  if ¬ i.filtered ∨ i.property_list.isNone then return true
  else if ← contained_list i.property_list name then return true
  else contained_list i.key_list name

def setProperty (i : FilteredInstance) (name : Option Text) (value : Option CMPIValue) (type : CMPIType) :
    Except Fault FilteredInstance := do
  if ← i.accepts name then
    return { i with toNativeInstance := ← i.toNativeInstance.setProperty name value type }
  else return i

-- `lastProperty` and `lastKey` are what `malloc` leaves at the ends of the copies.
def setPropertyFilter (i : FilteredInstance) (propertyList keys : Option (List Text))
    (lastProperty lastKey : Word) : Except Fault FilteredInstance := do
  if i.filtered then
    release_list i.property_list
    release_list i.key_list
  return { i with
    filtered      := true
    property_list := ← duplicate_list lastProperty (propertyList.map Block.terminated)
    key_list      := ← duplicate_list lastKey (keys.map Block.terminated) }

-- `filtered` is not copied.
def clone (i : FilteredInstance) (lastProperty lastKey : Word) : Except Fault FilteredInstance := do
  return {
    toNativeInstance := i.toNativeInstance.clone
    property_list    := ← duplicate_list lastProperty i.property_list
    key_list         := ← duplicate_list lastKey i.key_list }

end FilteredInstance
end Sfcc
