import Sfcc.Cmpi.Value

namespace Sfcc

-- Reading what a pointer points to.
def deref {α : Type} : Option α → Except Fault α
  | none   => .error .null
  | some a => .ok a

-- The lists of the native objects, which are searched for a name without regard to its case.
namespace Named

variable {P : Type} (name : P → Text)

def get (l : List P) (n : Text) : Option P :=
  l.find? fun p => sameIgnoringCase (name p) n

def add (new : P) (l : List P) (n : Text) : List P :=
  if (get name l n).isSome then l else l ++ [new]

-- `none` is the return value -1.
def set (f : P → P) : List P → Text → Option (List P)
  | [], _     => none
  | p :: l, n => if sameIgnoringCase (name p) n then some (f p :: l) else (set f l n).map (p :: ·)

def setOrAdd (f : P → P) (new : P) (l : List P) (n : Text) : List P :=
  (set name f l n).getD (add name new l n)

end Named

def NativeArray.nullItem : NativeArrayItem CMPIValue where
  state := .null
  value := .zero

def newCMPIArray (size : ℕ) (type : CMPIType) : CMPIArray where
  type    := if type.element = .chars then .string else type.element
  max     := if size = 0 then 8 else size
  dynamic := size = 0
  data    := .replicate size NativeArray.nullItem

-- The copy of a value of a type, given the one of the object it refers to.
def CMPIType.cloneWith (type : CMPIType) (value cloned : CMPIValue) : CMPIValue :=
  match type.cloning with
  | .object => cloned
  | .value  => value
  | .lost   => .zero

mutual

-- `CMClone` of the object that a value refers to, which goes through the function table of the object.
def CMPIValue.clone : CMPIValue → CMPIValue
  | .ref ⟨nameSpace, classname, keys⟩                 => .ref ⟨nameSpace, classname, cloneProperties keys⟩
  | .inst ⟨classname, nameSpace, props, qualifiers⟩   =>
    .inst ⟨classname, nameSpace, cloneProperties props, cloneQualifiers qualifiers⟩
  | .cls ⟨classname, props, qualifiers, methods⟩      =>
    .cls ⟨classname, cloneProperties props, cloneQualifiers qualifiers, cloneMethods methods⟩
  | .array ⟨type, _, _, data⟩                         =>
    .array { newCMPIArray data.length type with data := cloneItems type data }
  | value                                             => value

-- A null or bad property is copied without its value.
def cloneProperties : List (NativeProperty CMPIValue) → List (NativeProperty CMPIValue)
  | []                                              => []
  | ⟨name, type, state, value, qualifiers⟩ :: props =>
    ⟨name, type, state, if state = .null ∨ state = .bad then .zero else type.cloneWith value value.clone,
      cloneQualifiers qualifiers⟩ :: cloneProperties props

def cloneQualifiers : List (NativeQualifier CMPIValue) → List (NativeQualifier CMPIValue)
  | []                                   => []
  | ⟨name, type, state, value⟩ :: quals =>
    ⟨name, type, state, type.cloneWith value value.clone⟩ :: cloneQualifiers quals

def cloneMethods : List (NativeMethod CMPIValue) → List (NativeMethod CMPIValue)
  | []                                                            => []
  | ⟨name, type, state, value, parameters, qualifiers⟩ :: methods =>
    ⟨name, type, state, type.cloneWith value value.clone, parameters, cloneQualifiers qualifiers⟩ ::
      cloneMethods methods

-- What is null in an array is not copied.
def cloneItems (type : CMPIType) : List (NativeArrayItem CMPIValue) → List (NativeArrayItem CMPIValue)
  | []                      => []
  | ⟨state, value⟩ :: items =>
    ⟨state, if state.isNull then .zero else type.cloneWith value value.clone⟩ :: cloneItems type items

end

def native_clone_CMPIValue (type : CMPIType) (value : CMPIValue) : CMPIValue :=
  type.cloneWith value value.clone

-- The same with a pointer to the value. `NULL` is followed where the type is that of an object or an array.
def native_clone (type : CMPIType) : Option CMPIValue → Except Fault CMPIValue
  | some value => return native_clone_CMPIValue type value
  | none       => if type.cloning = .value then return .zero else throw .null

def NativeArray.clone (a : CMPIArray) : CMPIArray :=
  { newCMPIArray a.data.length a.type with data := cloneItems a.type a.data }

def NativeCop.clone (cop : CMPIObjectPath) : CMPIObjectPath :=
  { cop with keys := cloneProperties cop.keys }

def NativeInstance.clone (ci : CMPIInstance) : CMPIInstance :=
  { ci with props := cloneProperties ci.props, qualifiers := cloneQualifiers ci.qualifiers }

def NativeConstClass.clone (cc : CMPIConstClass) : CMPIConstClass :=
  { cc with
    props      := cloneProperties cc.props
    qualifiers := cloneQualifiers cc.qualifiers
    methods    := cloneMethods cc.methods }

-- With `CMPI_chars` the `CMPIValue *` is the text itself.
def charsValue : Option CMPIValue → CMPIValue
  | none               => .string none
  | some (.chars text) => .string text
  | some _             => .indeterminate

namespace NativeProperty

-- A new item in `__addProperty`. `value` is a pointer.
def create (name : Text) (type : CMPIType) (state : CMPIValueState) (value : Option CMPIValue) :
    Except Fault (NativeProperty CMPIValue) := do
  if type ≠ .null ∧ state ≠ .null then
    if type = .chars then return { name, type := .string, state, value := charsValue value }
    else return { name, type, state, value := ← native_clone type value }
  else return { name, type, state := .null, value := .zero }

-- The item that a value is made one with.
def new (name : Text) (type : CMPIType) (state : CMPIValueState) (value : CMPIValue) : NativeProperty CMPIValue :=
  if type ≠ .null ∧ state ≠ .null then
    if type = .chars then { name, type := .string, state, value := charsValue (some value) }
    else { name, type, state, value := native_clone_CMPIValue type value }
  else { name, type, state := .null, value := .zero }

def replace (type : CMPIType) (value : Option CMPIValue) (p : NativeProperty CMPIValue) :
    NativeProperty CMPIValue :=
  if type = .chars then { p with type := .string, value := charsValue value }
  else match value with
    | none   => { p with type, state := .null }
    | some v =>
      if type ≠ .null then { p with type, value := native_clone_CMPIValue type v }
      else { p with type, state := .null }

end NativeProperty

def addProperty (props : List (NativeProperty CMPIValue)) (name : Text) (type : CMPIType)
    (state : CMPIValueState) (value : CMPIValue) : List (NativeProperty CMPIValue) :=
  Named.add NativeProperty.name (.new name type state value) props name

-- The same with a pointer to the value, which is not read if there is one of this name.
def addPropertyPtr (props : List (NativeProperty CMPIValue)) (name : Text) (type : CMPIType)
    (state : CMPIValueState) (value : Option CMPIValue) : Except Fault (List (NativeProperty CMPIValue)) := do
  if (Named.get NativeProperty.name props name).isSome then return props
  else return props ++ [← NativeProperty.create name type state value]

def setProperty (props : List (NativeProperty CMPIValue)) (name : Text) (type : CMPIType)
    (value : Option CMPIValue) : Option (List (NativeProperty CMPIValue)) :=
  Named.set NativeProperty.name (.replace type value) props name

def getProperty (props : List (NativeProperty CMPIValue)) (name : Text) :
    Option (NativeProperty CMPIValue) :=
  Named.get NativeProperty.name props name

namespace NativeQualifier

def new (name : Text) (type : CMPIType) (state : CMPIValueState) (value : CMPIValue) :
    NativeQualifier CMPIValue :=
  if type ≠ .null ∧ state ≠ .null then
    if type = .chars then { name, type := .string, state, value := charsValue (some value) }
    else { name, type, state, value := native_clone_CMPIValue type value }
  else { name, type, state := .null, value := .zero }

def replace (type : CMPIType) (value : CMPIValue) (q : NativeQualifier CMPIValue) :
    NativeQualifier CMPIValue :=
  if type = .chars then { q with type := .string, value := charsValue (some value) }
  else if type ≠ .null then { q with type, value := native_clone_CMPIValue type value }
  else { q with type, state := .null }

end NativeQualifier

-- `setQualifier`, and `addQualifier` when there was nothing to set.
def setOrAddQualifier (qualifiers : List (NativeQualifier CMPIValue)) (name : Text)
    (value : CMPIValue) (type : CMPIType) : List (NativeQualifier CMPIValue) :=
  Named.setOrAdd NativeQualifier.name (.replace type value) (.new name type .good value) qualifiers name

namespace NativeMethod

def new (name : Text) (type : CMPIType) (state : CMPIValueState) (value : CMPIValue) :
    NativeMethod CMPIValue :=
  if type ≠ .null ∧ state ≠ .null then
    if type = .chars then { name, type := .string, state, value := charsValue (some value) }
    else { name, type, state, value := native_clone_CMPIValue type value }
  else { name, type, state := .null, value := .zero }

def replace (type : CMPIType) (value : CMPIValue) (m : NativeMethod CMPIValue) :
    NativeMethod CMPIValue :=
  if type = .chars then { m with type := .string, value := charsValue (some value) }
  else if type ≠ .null then { m with type, value := native_clone_CMPIValue type value }
  else { m with type, state := .null }

end NativeMethod

namespace NativeArray

-- The block starts with eight items that are null. When it grows, only the next item is cleared.
def fresh (a : CMPIArray) : NativeArrayItem CMPIValue :=
  if a.data.length + 1 > a.max then { state := .good, value := .zero }
  else if a.data.length < 8 then nullItem
  else { state := .good, value := .indeterminate }

def increaseSize (a : CMPIArray) : CMPIArray :=
  { a with
    max  := if a.data.length + 1 > a.max then 2 * a.max else a.max
    data := a.data ++ [a.fresh] }

def setElementAt (a : CMPIArray) (index : ℕ) (value : CMPIValue) (type : CMPIType) (opt : Bool) :
    CMPIArray :=
  let a := if a.dynamic ∧ index = a.data.length then a.increaseSize else a
  -- The text of `CMPI_chars` becomes a string where the array holds strings.
  let asString := type = .chars ∧ a.type = .string
  let value := if asString then charsValue (some value) else value
  let type := if asString then .string else type
  if type = .null then
    { a with data := a.data.modify index fun item =>
        if item.state.isNull then item else { item with state := .null } }
  else if opt ∨ type = a.type then
    { a with data := a.data.set index {
        state := .good
        value := if opt then value else native_clone_CMPIValue type value } }
  else a

def setArrayElementAt (a : CMPIArray) (index : ℕ) (value : CMPIValue) (type : CMPIType) : CMPIArray :=
  a.setElementAt index value type false

def simpleAdd (a : CMPIArray) (value : CMPIValue) (type : CMPIType) : CMPIArray :=
  if a.dynamic then
    let a := if a.data.length = 0 then { a with type } else a
    a.setElementAt a.data.length value type true
  else a

def elementAt (a : CMPIArray) (index : ℕ) : CMPIData :=
  match a.data[index]? with
  | none      => { type := a.type, state := .bad, value := .zero }
  | some item => { type := a.type, state := item.state, value := item.value }

end NativeArray

-- `current` counts the elements that were taken out.
structure NativeEnum where
  current : ℕ := 0
  data    : CMPIArray

def newCMPIEnumeration (array : CMPIArray) : NativeEnum where
  data := array

def NativeEnum.clone (e : NativeEnum) : NativeEnum :=
  newCMPIEnumeration e.data.clone

def newCMPIObjectPath (nameSpace classname : Option Text) : CMPIObjectPath where
  nameSpace := nameSpace
  classname := classname

namespace NativeCop

def addKey (cop : CMPIObjectPath) (name : Option Text) (value : Option CMPIValue) (type : CMPIType) :
    Except Fault CMPIObjectPath := do
  return { cop with keys := ← addPropertyPtr cop.keys (← deref name) type .key value }

def setNameSpace (cop : CMPIObjectPath) (nameSpace : Option Text) : CMPIObjectPath :=
  { cop with nameSpace }

-- `CMPI_RC_ERR_NOT_SUPPORTED`
def setHostname (cop : CMPIObjectPath) (_ : Option Text) : CMPIObjectPath :=
  cop

end NativeCop

namespace NativeInstance

def setProperty (ci : CMPIInstance) (name : Option Text) (value : Option CMPIValue) (type : CMPIType) :
    Except Fault CMPIInstance := do
  let name ← deref name
  match Sfcc.setProperty ci.props name type value with
  | some props => return { ci with props }
  | none       =>
    let state := if value.isNone then .null else .good
    return { ci with props := ← addPropertyPtr ci.props name type state value }

def setNsAndCn (ci : CMPIInstance) (ns cn : Option Text) : CMPIInstance :=
  { ci with classname := cn.or ci.classname, nameSpace := ns.or ci.nameSpace }

def addQualifier (ci : CMPIInstance) (name : Option Text) (value : CMPIValue) (type : CMPIType) :
    Except Fault CMPIInstance := do
  return { ci with qualifiers := setOrAddQualifier ci.qualifiers (← deref name) value type }

end NativeInstance

-- A qualifier for the item that is found under a name. Nothing is found under `NULL`.
def addQualifierTo {P : Type} (name : P → Text) (add : P → Text → P) (l : List P)
    (pname qname : Option Text) : Except Fault (List P) :=
  match pname with
  | none       => return l
  | some pname =>
    if (Named.get name l pname).isSome then do
      let qname ← deref qname
      return (Named.set name (add · qname) l pname).getD l
    else return l

def addInstPropertyQualifier (ci : CMPIInstance) (pname qname : Option Text) (value : CMPIValue)
    (type : CMPIType) : Except Fault CMPIInstance := do
  let add p qname := { p with qualifiers := setOrAddQualifier p.qualifiers qname value type }
  return { ci with props := ← addQualifierTo NativeProperty.name add ci.props pname qname }

-- The properties of a new instance are the keys, from the last to the first.
def newCMPIInstance : Option CMPIObjectPath → Except Fault CMPIInstance
  | none     => return {}
  | some cop => do
    let classname ← deref cop.classname
    return {
      classname := classname
      nameSpace := cop.nameSpace
      props     := cop.keys.reverse.foldl
        (fun props key => addProperty props key.name key.type key.state key.value) [] }

-- The keys of the path are the properties that are keys, from the last to the first.
def NativeInstance.getObjectPath (ci : CMPIInstance) : Except Fault CMPIObjectPath :=
  ci.props.reverse.foldlM
    (fun cop d =>
      if d.state.isKey then cop.addKey (some d.name) (some d.value) d.type else return cop)
    (newCMPIObjectPath ci.nameSpace ci.classname)

namespace NativeConstClass

def addProperty (cc : CMPIConstClass) (name : Option Text) (value : CMPIValue) (type : CMPIType)
    (state : CMPIValueState) : Except Fault CMPIConstClass := do
  let name ← deref name
  match setProperty cc.props name type (some value) with
  | some props => return { cc with props }
  | none       => return { cc with props := Sfcc.addProperty cc.props name type state value }

def addQualifier (cc : CMPIConstClass) (name : Option Text) (value : CMPIValue) (type : CMPIType) :
    Except Fault CMPIConstClass := do
  return { cc with qualifiers := setOrAddQualifier cc.qualifiers (← deref name) value type }

def addPropertyQualifier (cc : CMPIConstClass) (pname qname : Option Text) (value : CMPIValue)
    (type : CMPIType) : Except Fault CMPIConstClass := do
  let add p qname := { p with qualifiers := setOrAddQualifier p.qualifiers qname value type }
  return { cc with props := ← addQualifierTo NativeProperty.name add cc.props pname qname }

def addMethod (cc : CMPIConstClass) (name : Option Text) (value : CMPIValue) (type : CMPIType)
    (state : CMPIValueState) : Except Fault CMPIConstClass := do
  let name ← deref name
  return { cc with
    methods := Named.setOrAdd NativeMethod.name (.replace type value) (.new name type state value)
      cc.methods name }

def addMethodQualifier (cc : CMPIConstClass) (mname qname : Option Text) (value : CMPIValue)
    (type : CMPIType) : Except Fault CMPIConstClass := do
  let add m qname := { m with qualifiers := setOrAddQualifier m.qualifiers qname value type }
  return { cc with methods := ← addQualifierTo NativeMethod.name add cc.methods mname qname }

def addMethodParameter (cc : CMPIConstClass) (mname pname : Option Text) (type : CMPIType) :
    Except Fault CMPIConstClass := do
  let add m pname := { m with
    parameters := Named.setOrAdd NativeParameter.name ({ · with type }) { name := pname, type }
      m.parameters pname }
  return { cc with methods := ← addQualifierTo NativeMethod.name add cc.methods mname pname }

end NativeConstClass

def newCMPIConstClass (cn : Option Text) : Except Fault CMPIConstClass := do
  return { classname := ← deref cn }

-- An argument is not replaced when there is one of its name already.
def addArg (args : CMPIArgs) (name : Option Text) (value : CMPIValue) (type : CMPIType) :
    Except Fault CMPIArgs := do
  return addProperty args (← deref name) type .good value

-- A text is taken for a date by its length and its sign.
def newCMPIDateTimeFromChars (text : Option Text) : Option Text :=
  text.filter fun t => t.length = 25 ∧ t[21]?.any (· ∈ bytes "-+:")

end Sfcc
