import Sfcc.Cmpi.Native

-- Arrays with the memory their elements are kept in.
namespace Sfcc

-- The memory of an element. `none` was not written since it was allocated.
abbrev Slot := Option (NativeArrayItem CMPIValue)

-- `struct native_array`, where `data` has `max` slots and the elements are in the first `size` ones.
structure ArrayBlock where
  type        : CMPIType
  size        : ℕ
  max         : ℕ
  dynamic     : Bool
  data        : List Slot
  length_data : data.length = max
  size_le     : size ≤ max
  max_pos     : 0 < max

namespace ArrayBlock

def new (size : ℕ) (type : CMPIType) : ArrayBlock where
  type        := if type.element = .chars then .string else type.element
  size        := size
  max         := if size = 0 then 8 else size
  dynamic     := size = 0
  data        := .replicate (if size = 0 then 8 else size) (some NativeArray.nullItem)
  length_data := List.length_replicate
  size_le     := by split <;> omega
  max_pos     := by split <;> omega

-- The bytes of `memset`.
def cleared : NativeArrayItem CMPIValue where
  state := .good
  value := .zero

-- `native_array_increase_size` by one element. Doubling `max` once is enough, and `realloc` does not
-- write to what it adds.
def increaseSize (a : ArrayBlock) : ArrayBlock :=
  if h : a.size + 1 > a.max then
    { a with
      size        := a.size + 1
      max         := 2 * a.max
      data        := (a.data ++ .replicate a.max none).set a.size (some cleared)
      length_data := by rw [List.length_set, List.length_append, List.length_replicate, a.length_data]; omega
      size_le     := by have := a.size_le; have := a.max_pos; omega
      max_pos     := by have := a.max_pos; omega }
  else { a with size := a.size + 1, size_le := Nat.le_of_not_gt h }

-- Reading a slot that was not written.
def read (a : ArrayBlock) (index : ℕ) : Except Fault (NativeArrayItem CMPIValue) :=
  match a.data[index]? with
  | some (some item) => return item
  | _                => throw .wild

def write (a : ArrayBlock) (index : ℕ) (item : NativeArrayItem CMPIValue) : ArrayBlock :=
  { a with
    data        := a.data.set index (some item)
    length_data := by rw [List.length_set, a.length_data] }

-- The type and the value that are set: where the array holds strings, a text becomes a string, and
-- `NULL` becomes null.
def converted (a : ArrayBlock) (val : Option CMPIValue) (type : CMPIType) : Option CMPIValue × CMPIType :=
  if type = .chars ∧ a.type = .string then
    match val with
    | some v => (some (charsValue (some v)), .string)
    | none   => (none, .null)
  else (val, type)

-- The status is `CMPI_RC_OK` or not.
def setElementAt (a : ArrayBlock) (index : ℕ) (val : Option CMPIValue) (type : CMPIType) (opt : Bool) :
    Except Fault (ArrayBlock × Bool) := do
  let a := if a.dynamic ∧ index = a.size then a.increaseSize else a
  if index < a.size then
    let (val, type) := a.converted val type
    if type = .null then
      let item ← a.read index
      return (if item.state.isNull then a else a.write index { item with state := .null }, true)
    else if opt ∨ type = a.type then
      let value ← if opt then deref val else native_clone type val
      return (a.write index { state := .good, value }, true)
    else return (a, false)
  else return (a, false)

def simpleArrayAdd (a : ArrayBlock) (val : Option CMPIValue) (type : CMPIType) :
    Except Fault (ArrayBlock × Bool) := do
  if a.dynamic then
    let a := if a.size = 0 then { a with type } else a
    let (a, _) ← a.setElementAt a.size val type true
    return (a, false)
  else return (a, false)

def getElementAt (a : ArrayBlock) (index : ℕ) : Except Fault CMPIData := do
  if index < a.size then
    let item ← a.read index
    return { type := a.type, state := item.state, value := item.value }
  else return { type := a.type, state := .bad, value := .zero }

-- What the loops of `__aft_release` and `__aft_clone` read.
def items (a : ArrayBlock) : Except Fault (List (NativeArrayItem CMPIValue)) :=
  (List.range a.size).mapM a.read

def release (a : ArrayBlock) : Except Fault Unit := do
  let _ ← a.items

def clone (a : ArrayBlock) : Except Fault CMPIArray := do
  let items ← a.items
  return { newCMPIArray a.size a.type with data := cloneItems a.type items }

end ArrayBlock
end Sfcc
