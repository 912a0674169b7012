import Mathlib.Algebra.Group.Int.Defs
import Mathlib.Algebra.Group.Nat.Defs
import Mathlib.Data.Int.Notation
import Sfcc.Cmpi.Native
import Sfcc.Xml.Xtok

namespace Sfcc

def XmlEscapes : List (UInt8 × Text) :=
  [(0x22, bytes "&quot;"), (0x26, bytes "&amp;"), (0x27, bytes "&apos;"), (0x3c, bytes "&lt;"),
    (0x3e, bytes "&gt;")]

-- What stands for an escape at the beginning of the text, and how long the escape is.
def xmlEscape (t : Text) : Option (UInt8 × ℕ) :=
  (XmlEscapes.find? fun e => e.2.isPrefixOf t).map fun e => (e.1, e.2.length)

-- Steps over what is left of an escape first.
def xmlToAscii : ℕ → Text → Text
  | _, []         => []
  | n + 1, _ :: t => xmlToAscii n t
  | 0, c :: t     =>
    match xmlEscape (c :: t) with
    | some (a, n) => a :: xmlToAscii (n - 1) t
    | none        => c :: xmlToAscii 0 t

def XmlToAsciiStr (t : Text) : Text :=
  xmlToAscii 0 t

def isdigit (b : UInt8) : Bool :=
  48 ≤ b ∧ b ≤ 57

def isspace (b : UInt8) : Bool :=
  b = 32 ∨ 9 ≤ b ∧ b ≤ 13

def isSign (b : UInt8) : Bool :=
  b = 43 ∨ b = 45

def digits (t : Text) : ℕ :=
  t.foldl (fun n b => 10 * n + (b.toNat - 48)) 0

-- The sign and the digits a number begins with, or `none` if there are no digits.
def scanNumber (t : Text) : Option (Bool × ℕ) :=
  let t := t.dropWhile isspace
  let ds := (if t.head?.any isSign then t.tail else t).takeWhile isdigit
  if ds = [] then none else some (t.head? = some 45, digits ds)

-- `strtoll` stops at the bounds of its type.
def strtoll (negative : Bool) (n : ℕ) : ℤ :=
  if negative then max (-(2 ^ 63)) (-n) else min (2 ^ 63 - 1) n

def strtoull (negative : Bool) (n : ℕ) : ℕ :=
  if n ≥ 2 ^ 64 then 2 ^ 64 - 1
  else if negative then (2 ^ 64 - n) % 2 ^ 64
  else n

-- `sscanf` with a signed or an unsigned conversion. Without a number it leaves the value alone.
def scanSigned (f : ℤ → CMPIValue) (t : Text) : CMPIValue :=
  (scanNumber t).elim .indeterminate fun s => f (strtoll s.1 s.2)

def scanUnsigned (f : ℕ → CMPIValue) (t : Text) : CMPIValue :=
  (scanNumber t).elim .indeterminate fun s => f (strtoull s.1 s.2)

def guessType : Text → CMPIType
  | []     => .string
  | c :: t =>
    if isSign c ∧ t ≠ [] ∨ isdigit c then
      if t.all isdigit then (if isdigit c then .uint64 else .sint64) else .string
    else if sameIgnoringCase (c :: t) (bytes "true") ∨ sameIgnoringCase (c :: t) (bytes "false") then
      .boolean
    else .string

-- `CMPI_char16` takes one `char`, which is signed.
def char16 : Text → UInt16
  | []     => 0
  | c :: _ => c.toInt8.toInt16.toUInt16

namespace Xml

-- The types of `str2CMPIValue` whose value is read from the text.
def scanners : List (CMPIType × (Text → CMPIValue)) :=
  [(.char16, fun t => .char16 (char16 t)),
    (.chars, fun t => .chars t),
    (.sint64, scanSigned fun n => .sint64 (.ofInt n)),
    (.uint64, scanUnsigned fun n => .uint64 (.ofNat n)),
    (.sint32, scanSigned fun n => .sint32 (.ofInt n)),
    (.uint32, scanUnsigned fun n => .uint32 (.ofNat n)),
    (.sint16, scanSigned fun n => .sint16 (.ofInt n)),
    (.uint16, scanUnsigned fun n => .uint16 (.ofNat n)),
    (.uint8, scanUnsigned fun n => .uint8 (.ofNat n)),
    (.sint8, scanSigned fun n => .sint8 (.ofInt n)),
    (.boolean, fun t => .boolean !sameIgnoringCase t (bytes "false")),
    (.real32, fun t => .real32 t),
    (.real64, fun t => .real64 t)]

def scanner (type : CMPIType) : Option (Text → CMPIValue) :=
  (scanners.find? (·.1 = type)).map (·.2)

-- A key that is not a reference. The text of a boolean key is not looked at.
def keyValuePtr (type value : Option Text) : Except Fault (Option CMPIValue × CMPIType) :=
  let is s := type.any (sameIgnoringCase · (bytes s))
  if is "string" then return (some (.chars value), .chars)
  else if is "boolean" then return (some (.boolean (is "true")), .boolean)
  else if is "numeric" then do
    let value ← deref value
    if value.head?.any isSign then return (some (scanSigned (.sint64 <| .ofInt ·) value), .sint64)
    else return (some (scanUnsigned (.uint64 <| .ofNat ·) value), .uint64)
  else return (some (.chars value), .chars)

def isRef (type : Option Text) : Bool :=
  type.any (sameIgnoringCase · (bytes "ref"))

mutual

def getKeyValueTypePtr (type : Option Text) :
    XtokKeyUnion XtokInstanceName → Except Fault (Option CMPIValue × CMPIType)
  | .keyValue v => if isRef type then throw .wild else keyValuePtr type v.value
  | .ref r      => if isRef type then return (some (.ref (← referencePath r)), .ref) else keyValuePtr type none

def referencePath : XtokValueReference XtokInstanceName → Except Fault CMPIObjectPath
  | ⟨⟨.instancePath ⟨path, ⟨cn, bs⟩⟩, _⟩, .InstancePath⟩           =>
    addKeys ((newCMPIObjectPath path.nameSpacePath.value cn).setHostname path.host.host) bs
  | ⟨⟨.instanceName ⟨cn, bs⟩, _⟩, .InstanceName⟩                   =>
    addKeys ((newCMPIObjectPath (bytes "") cn).setHostname (bytes "")) bs
  | ⟨⟨.localInstancePath ⟨path, ⟨cn, bs⟩⟩, _⟩, .LocalInstancePath⟩ =>
    addKeys ((newCMPIObjectPath path.value cn).setHostname (bytes "")) bs
  | ⟨_, .Unknown⟩                                                  => throw .abort
  | _                                                              => throw .wild

def addKeys (op : CMPIObjectPath) :
    List (XtokKeyBinding XtokInstanceName) → Except Fault CMPIObjectPath
  | []                       => return op
  | ⟨name, type, ⟨u, _⟩⟩ :: bs => do
    let (value, type) ← getKeyValueTypePtr type u
    addKeys (← op.addKey name value type) bs

end

def createPath (p : XtokInstanceName) : Except Fault CMPIObjectPath :=
  addKeys (newCMPIObjectPath none p.className) p.bindings

-- `str2CMPIValue` for a type that is not an array, on a text and without a reference.
def str2CMPIText (type : CMPIType) (val : Option Text) : Except Fault CMPIValue := do
  let type ← if type = .null then guessType <$> deref val else pure type
  if type = .string then return .string val
  else if type = .dateTime then return .dateTime (newCMPIDateTimeFromChars val)
  else if type = .ref then throw .null
  else if type = .inst then val.elim (throw .null) fun _ => throw .wild
  else match scanner type with
    | some scan => return scan (← deref val)
    | none      => throw .abort

-- The same on the bytes of an `XtokInstance`, which make a text of some kind.
def str2CMPIBytes (type : CMPIType) : Except Fault CMPIValue :=
  if type = .ref then throw .null
  else if type = .null ∨ type = .string ∨ type = .dateTime ∨ (scanner type).isSome then
    return .indeterminate
  else throw .abort

mutual

def str2CMPIPointer (type : CMPIType) : XtokPointer XtokInstance → Except Fault CMPIValue
  | .value text => str2CMPIText type text
  | .inst inst  => if type = .inst then return .inst (← getInstFromEmbedded inst) else str2CMPIBytes type

-- The escapes are taken out of the text of a string.
def str2CMPIDecoded (type : CMPIType) : XtokPointer XtokInstance → Except Fault CMPIValue
  | .value text =>
    if type = .string ∨ type = .chars then do str2CMPIText type (XmlToAsciiStr (← deref text))
    else str2CMPIText type text
  | .inst inst  => if type = .inst then return .inst (← getInstFromEmbedded inst) else str2CMPIBytes type

def arrayElements (type : CMPIType) (arr : CMPIArray) (i : ℕ) :
    List (XtokPointer XtokInstance) → Except Fault CMPIArray
  | []          => return arr
  | val :: vals => do
    arrayElements type (arr.setArrayElementAt i (← str2CMPIPointer type val) type) (i + 1) vals

def arrayElementsDecoded (type : CMPIType) (arr : CMPIArray) (i : ℕ) :
    List (XtokPointer XtokInstance) → Except Fault CMPIArray
  | []          => return arr
  | val :: vals => do
    arrayElementsDecoded type (arr.setArrayElementAt i (← str2CMPIDecoded type val) type) (i + 1) vals

-- The array of a qualifier, whose elements do not have to be of the type of the array.
def qualifierArray (type : CMPIType) (arr : CMPIArray) :
    XtokQualifierData XtokInstance → Except Fault CMPIArray
  | ⟨.array ⟨max, vals⟩, _⟩ => if max ≠ 0 then arrayElements type arr 0 vals else return arr
  | ⟨.value _, _⟩           => return arr

def qualifierValue (type : CMPIType) : XtokQualifierData XtokInstance → Except Fault CMPIValue
  | ⟨.value ⟨⟨ptr, _⟩, _⟩, _⟩ => str2CMPIPointer type ptr
  | ⟨.array _, _⟩             => throw .wild

-- `type` is a variable of `setInstProperties` that outlives the property it was set for.
def setInstPropertyQualifiers (ci : CMPIInstance) (name : Option Text) (type : CMPIType) :
    List (XtokQualifier XtokInstance) → Except Fault (CMPIInstance × CMPIType)
  | []                                    => return (ci, type)
  | ⟨qname, qtype, data, _, _, _, _, _⟩ :: qs =>
    if qtype.isArray then do
      let arr ← qualifierArray qtype.element (newCMPIArray 0 type) data
      let ci ← addInstPropertyQualifier ci name qname (.array arr) qtype
      setInstPropertyQualifiers ci name qtype.element qs
    else do
      let val ← qualifierValue qtype data
      let ci ← addInstPropertyQualifier ci name qname val qtype
      setInstPropertyQualifiers ci name type qs

-- The qualifiers of a property without a value are left out.
def setInstProperty (ci : CMPIInstance) (type : CMPIType) :
    XtokProperty XtokInstance → Except Fault (CMPIInstance × CMPIType)
  | ⟨name, _, _, _, valueType, ⟨.value ⟨⟨ptr, _⟩, _⟩, qs, null⟩, .Value⟩ => do
    if ptr.isNull ∨ null then return (← ci.setProperty name none valueType, valueType)
    else
      let val ← str2CMPIDecoded valueType ptr
      setInstPropertyQualifiers (← ci.setProperty name (some val) valueType) name valueType qs
  | ⟨name, _, _, _, _, ⟨.ref r, qs, _⟩, .Reference⟩                     => do
    let val := .ref (← referencePath r)
    setInstPropertyQualifiers (← ci.setProperty name (some val) .ref) name type qs
  | ⟨_, _, _, _, _, ⟨.value _, _, _⟩, .Reference⟩                       => throw .abort
  | ⟨name, _, _, _, valueType, ⟨.array ⟨max, vals⟩, qs, _⟩, .Array⟩     => do
    if vals.length > 0 then
      let arr := newCMPIArray 0 valueType
      let arr ← if max > 0 then arrayElementsDecoded valueType arr 0 vals else pure arr
      let ci ← ci.setProperty name (some (.array arr)) (valueType ||| .array)
      setInstPropertyQualifiers ci name valueType qs
    else return (← ci.setProperty name none (valueType ||| .array), valueType)
  | ⟨name, _, _, _, valueType, ⟨.value _, _, _⟩, .Array⟩                =>
    return (← ci.setProperty name none (valueType ||| .array), valueType)
  | ⟨name, _, _, _, _, ⟨_, qs, _⟩, .Unknown⟩                            =>
    setInstPropertyQualifiers ci name type qs
  | _                                                                   => throw .wild

def setInstPropertiesFrom (ci : CMPIInstance) (type : CMPIType) :
    List (XtokProperty XtokInstance) → Except Fault CMPIInstance
  | []      => return ci
  | p :: ps => do
    let (ci, type) ← setInstProperty ci type p
    setInstPropertiesFrom ci type ps

def getInstFromEmbedded : XtokInstance → Except Fault CMPIInstance
  | ⟨className, ps, _⟩ =>
    setInstPropertiesFrom (NativeInstance.setNsAndCn {} none className) .null ps

end

def setInstProperties (ci : CMPIInstance) (ps : List (XtokProperty XtokInstance)) :
    Except Fault CMPIInstance :=
  setInstPropertiesFrom ci .null ps

-- A qualifier of a property or of a method.
def qualifierToValue (q : XtokQualifier XtokInstance) : Except Fault CMPIValue :=
  if q.type.isArray then
    .array <$> qualifierArray q.type.element (newCMPIArray 0 q.type.element) q.data
  else qualifierValue q.type q.data

-- A qualifier of an instance or of a class, which is left out if its array was never made.
def qualifierToValue? (pointer : CMPIType → XtokPointer XtokInstance → Except Fault CMPIValue)
    (elements : CMPIType → CMPIArray → ℕ → List (XtokPointer XtokInstance) → Except Fault CMPIArray)
    (q : XtokQualifier XtokInstance) : Except Fault (Option CMPIValue) :=
  if q.type.isArray then
    match q.data.u with
    | .array a =>
      if a.max ≠ 0 then do
        return some (.array (← elements q.type.element (newCMPIArray 0 q.type.element) 0 a.values))
      else return none
    | .value _ => return none
  else
    match q.data.u with
    | .value v => some <$> pointer q.type v.data.ptr
    | .array _ => throw .wild

def setInstQualifiers (ci : CMPIInstance) (qs : List (XtokQualifier XtokInstance)) :
    Except Fault CMPIInstance :=
  qs.foldlM (fun ci q => do
    match ← qualifierToValue? str2CMPIPointer arrayElements q with
    | some val => ci.addQualifier q.name val q.type
    | none     => return ci) ci

def setClassQualifiers (cls : CMPIConstClass) (qs : List (XtokQualifier XtokInstance)) :
    Except Fault CMPIConstClass :=
  qs.foldlM (fun cls q => do
    match ← qualifierToValue? str2CMPIDecoded arrayElementsDecoded q with
    | some val => cls.addQualifier q.name val q.type
    | none     => return cls) cls

-- What the bytes of a value are as the address of an object: that of one, or `NULL`. Some types write to a
-- part of the bytes only.
def objectOf : CMPIValue → Except Fault CMPIValue
  | .uint8 n  => if n = 0 then return .zero else throw .wild
  | .sint8 n  => if n = 0 then return .zero else throw .wild
  | .uint32 n => if n = 0 then return .zero else throw .wild
  | .sint32 n => if n = 0 then return .zero else throw .wild
  | .uint64 n => if n = 0 then return .zero else throw .wild
  | .sint64 n => if n = 0 then return .zero else throw .wild
  | .indeterminate | .boolean _ | .char16 _ | .uint16 _ | .sint16 _ | .real32 _ | .real64 _ => throw .wild
  | value     => return value

-- What a variable holds: a value, or the address of an object that was released.
inductive Held
  | value (v : CMPIValue)
  | released

-- `native_release_CMPIValue` leaves the address where it was.
def Held.release (type : CMPIType) : CMPIValue → Held
  | .dateTime none => .value .zero
  | v              => if type.cloning = .object then .released else .value v

-- What is cloned as a value of a type.
def Held.read (type : CMPIType) : Held → Except Fault CMPIValue
  | .value v  => if type.cloning = .object then objectOf v else return v
  | .released => if type.cloning = .object then throw .wild else return .indeterminate

-- The variables of `setClassProperties` and `setClassMethods`, which outlive what they were set for.
structure ClassVars where
  cls : CMPIConstClass
  val : Held := .value .zero
  arr : Held := .value .zero

-- `val` is read if there is one of this name already. A new one is null.
def ClassVars.read (s : ClassVars) (found : Bool) (type : CMPIType) : Except Fault CMPIValue :=
  if found then s.val.read type else return .zero

def ClassVars.addProperty (s : ClassVars) (name : Option Text) (type : CMPIType) : Except Fault CMPIConstClass := do
  let value ← s.read (name.bind (getProperty s.cls.props)).isSome type
  s.cls.addProperty name value type .null

def ClassVars.addMethod (s : ClassVars) (name : Option Text) (type : CMPIType) : Except Fault CMPIConstClass := do
  let value ← s.read (name.bind (Named.get NativeMethod.name s.cls.methods)).isSome type
  s.cls.addMethod name value type .null

def setClassMethod (s : ClassVars) (m : XtokMethod) : Except Fault ClassVars := do
  let cls ← s.addMethod m.name m.type
  let s ← m.qualifiers.foldlM (fun s q => do
    let val ← qualifierToValue q
    return { s with cls := ← s.cls.addMethodQualifier m.name q.name val q.type, val := .release q.type val })
    ({ s with cls } : ClassVars)
  return { s with
    cls := ← m.params.foldlM (fun cls p => cls.addMethodParameter m.name p.name p.type) s.cls }

def setClassMethods (cls : CMPIConstClass) (ms : List XtokMethod) : Except Fault CMPIConstClass :=
  ClassVars.cls <$> ms.foldlM setClassMethod { cls }

def setClassProperty (s : ClassVars) (p : XtokProperty XtokInstance) : Except Fault ClassVars := do
  let s ← match p.propType with
    | .Value     => pure { s with cls := ← s.addProperty p.name p.valueType }
    | .Reference => pure { s with cls := ← s.addProperty p.name .ref }
    | .Array     =>
      let s := { s with val := s.arr }
      pure { s with cls := ← s.addProperty p.name (p.valueType ||| .array) }
    | .Unknown   => pure s
  p.val.qualifiers.foldlM (fun s q => do
    let val ← qualifierToValue q
    return {
      cls := ← s.cls.addPropertyQualifier p.name q.name val q.type
      val := .release q.type val
      arr := if q.type.isArray then .released else s.arr }) s

def setClassProperties (cls : CMPIConstClass) (ps : List (XtokProperty XtokInstance)) :
    Except Fault CMPIConstClass :=
  ClassVars.cls <$> ps.foldlM setClassProperty { cls }

-- The pointer that the bytes of a reference begin with.
def XtokValueReference.pointer (r : XtokValueReference XtokInstanceName) : Option Text :=
  match r.data.u with
  | .zero                => none
  | .instancePath p      => p.path.host.host
  | .localInstancePath p => p.path.value
  | .instanceName n      => n.className

-- What lies 24 bytes into a reference, where the data of a parameter begins when a `RETURNVALUE` left
-- it there: a list of key bindings, if there are any.
def XtokValueReference.overlaid (r : XtokValueReference XtokInstanceName) : Option (XtokPointer XtokInstance) :=
  match r.data.u with
  | .instancePath p      => if p.instanceName.bindings = [] then some (.value none) else none
  | .localInstancePath p => if p.instanceName.bindings = [] then some (.value none) else none
  | _                    => some (.value none)

namespace XtokParamValueUnion

-- `data.value.data.value`, unless it is made of other bytes than those of a pointer.
def pointer : XtokParamValueUnion → Option (XtokPointer XtokInstance)
  | .zero                        => some (.value none)
  | .value v                     => some v.data.ptr
  | .valueRef r                  => some (.value r.pointer)
  | .returnValue ⟨⟨.ref r, _⟩, _⟩ => r.overlaid
  | .returnValue _               => some (.value none)
  | _                            => none

-- The data as a reference. The type of one is zero where the other members are, but the type of a
-- `RETURNVALUE` lies at the same place.
def path : XtokParamValueUnion → Except Fault CMPIObjectPath
  | .valueRef r          => referencePath r
  | .returnValue ⟨d, type⟩ =>
    if type = .boolean ∨ type = .char16 then
      match d.u with
      | .ref _ => throw .wild
      | _      => return newCMPIObjectPath none none
    else throw .abort
  | _                    => throw .abort

-- The elements as references, and as texts with the type to take them for.
def refs : XtokParamValueUnion → Except Fault (List (XtokValueReference XtokInstanceName))
  | .valueRefArray a              => return a.values
  | .valueArray a                 => if a.values.isEmpty then return [] else throw .wild
  | .returnValue ⟨⟨.ref _, _⟩, _⟩ => throw .wild
  | .zero | .returnValue _        => return []
  | _                             => throw .wild

def texts (type : CMPIType) :
    XtokParamValueUnion → Except Fault (CMPIType × List (XtokPointer XtokInstance))
  | .valueArray a =>
    if type.element ≠ .null then return (type.element, a.values)
    else match a.values with
      | .value text :: _ => return (guessType (← deref text), a.values)
      | _                => throw .wild
  | .returnValue ⟨⟨.ref _, _⟩, _⟩ => throw .wild
  | .zero | .returnValue _ =>
    if type.element ≠ .null then return (type.element, []) else throw .null
  | _ => throw .wild

end XtokParamValueUnion

def newCMPIArrayOf (type : CMPIType) (vals : List CMPIValue) : CMPIArray :=
  vals.zipIdx.foldl (fun arr v => arr.setArrayElementAt v.2 v.1 type) (newCMPIArray vals.length type)

-- `str2CMPIValue` on the data of a parameter, which holds the value and the reference.
def str2CMPIValue (type : CMPIType) (u : XtokParamValueUnion) : Except Fault CMPIValue := do
  if type.isArray then
    if type &&& .ref = .ref then
      let vals ← (← u.refs).mapM referencePath
      return .array (newCMPIArrayOf .ref (vals.map .ref))
    else
      let (t, vals) ← u.texts type
      let vals ← vals.mapM (str2CMPIPointer t)
      return .array (newCMPIArrayOf t vals)
  else if type = .ref then
    return .ref (← u.path)
  else
    match u.pointer with
    | some ptr => str2CMPIPointer type ptr
    | none     => if (str2CMPIBytes type).isOk ∨ type = .inst then throw .wild else throw .abort

-- `addArg` takes the bytes of the value for the text if the type is `CMPI_chars`.
def addReturnArg (args : CMPIArgs) (p : XtokParamValue) : Except Fault CMPIArgs := do
  let value ← str2CMPIValue p.type p.data.u
  addArg args p.name (if p.type = .chars then .indeterminate else value) p.type

def setReturnArgs (ps : List XtokParamValue) : Except Fault CMPIArgs :=
  ps.foldlM addReturnArg []

end Xml
end Sfcc
