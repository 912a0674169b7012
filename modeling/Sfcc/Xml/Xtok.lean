import Sfcc.Cmpi.Type

namespace Sfcc.Xml

inductive TypeValRef
  | Unknown
  | InstanceName
  | InstancePath
  | LocalInstancePath
  deriving DecidableEq, Repr

inductive TypeProperty
  | Unknown
  | Value
  | Reference
  | Array
  deriving DecidableEq, Repr

inductive TypeValue
  | Unknown
  | Instance
  | Class
  | charP
  deriving DecidableEq, Repr

structure XtokNameSpace where
  ns : Option Text := none

structure XtokClassName where
  value : Option Text := none

structure XtokLocalNameSpacePath where
  value : Option Text := none

structure XtokHost where
  host : Option Text := none

structure XtokNameSpacePath where
  host          : XtokHost := {}
  nameSpacePath : XtokLocalNameSpacePath := {}

structure XtokKeyValue where
  valueType : Option Text := none
  value     : Option Text := none

structure XtokErrorResp where
  code        : Option Text := none
  description : Option Text := none

-- The structures below refer to each other through pointers. `ν` stands for the instance name and
-- `ι` for the instance that is pointed to.
structure XtokInstancePath (ν : Type) where
  path         : XtokNameSpacePath := {}
  instanceName : ν

structure XtokLocalInstancePath (ν : Type) where
  path         : XtokLocalNameSpacePath := {}
  instanceName : ν

-- The union in `XtokValueReferenceData`, by the member that was written last.
inductive XtokReferenceUnion (ν : Type)
  | zero
  | instancePath (path : XtokInstancePath ν)
  | localInstancePath (path : XtokLocalInstancePath ν)
  | instanceName (name : ν)

structure XtokValueReferenceData (ν : Type) where
  u    : XtokReferenceUnion ν := .zero
  type : TypeValRef := .Unknown

structure XtokValueReference (ν : Type) where
  data : XtokValueReferenceData ν := {}
  type : TypeValRef := .Unknown

inductive XtokKeyUnion (ν : Type)
  | keyValue (value : XtokKeyValue)
  | ref (ref : XtokValueReference ν)

structure XtokKeyBindingContent (ν : Type) where
  u    : XtokKeyUnion ν := .keyValue {}
  type : Option Text := none

structure XtokKeyBinding (ν : Type) where
  name : Option Text := none
  type : Option Text := none
  val  : XtokKeyBindingContent ν := {}

structure XtokInstanceName where
  className : Option Text := none
  bindings  : List (XtokKeyBinding XtokInstanceName) := []

-- The pointer in `XtokValueData`, by the member it was written to last.
inductive XtokPointer (ι : Type)
  | value (text : Option Text)
  | inst (inst : ι)

def XtokPointer.isNull {ι : Type} : XtokPointer ι → Bool
  | .value text => text.isNone
  | .inst _     => false

structure XtokValueData (ι : Type) where
  ptr  : XtokPointer ι := .value none
  type : TypeValue := .Unknown

structure XtokValue (ι : Type) where
  data : XtokValueData ι := {}
  type : TypeValue := .Unknown

-- `next` is the length of `values`.
structure XtokValueArray (ι : Type) where
  max    : ℕ := 0
  values : List (XtokPointer ι) := []

structure XtokValueRefArray where
  max    : ℕ := 0
  values : List (XtokValueReference XtokInstanceName) := []

inductive XtokQualifierUnion (ι : Type)
  | value (value : XtokValue ι)
  | array (array : XtokValueArray ι)

structure XtokQualifierData (ι : Type) where
  u       : XtokQualifierUnion ι := .value {}
  isArray : Bool := false

structure XtokQualifier (ι : Type) where
  name         : Option Text := none
  type         : CMPIType := CMPIType.null
  data         : XtokQualifierData ι := {}
  propagated   : Bool := false
  overridable  : Bool := false
  tosubclass   : Bool := false
  toinstance   : Bool := false
  translatable : Bool := false

inductive XtokPropertyUnion (ι : Type)
  | value (value : XtokValue ι)
  | ref (ref : XtokValueReference XtokInstanceName)
  | array (array : XtokValueArray ι)

structure XtokPropertyData (ι : Type) where
  u          : XtokPropertyUnion ι := .value {}
  qualifiers : List (XtokQualifier ι) := []
  null       : Bool := false

structure XtokProperty (ι : Type) where
  name           : Option Text := none
  classOrigin    : Option Text := none
  propagated     : Bool := false
  referenceClass : Option Text := none
  valueType      : CMPIType := CMPIType.null
  val            : XtokPropertyData ι := {}
  propType       : TypeProperty := .Unknown

structure XtokInstance where
  className  : Option Text := none
  properties : List (XtokProperty XtokInstance) := []
  qualifiers : List (XtokQualifier XtokInstance) := []

inductive ParamType
  | Unknown
  | PARAM
  | PARAMARRAY
  | PARAMREF
  | PARAMREFARRAY
  deriving DecidableEq, Repr

structure XtokParam where
  pType     : ParamType := .Unknown
  name      : Option Text := none
  refClass  : Option Text := none
  arraySize : Option Text := none
  type      : CMPIType := CMPIType.null

structure XtokMethod where
  qualifiers  : List (XtokQualifier XtokInstance) := []
  params      : List XtokParam := []
  name        : Option Text := none
  classOrigin : Option Text := none
  propagated  : Bool := false
  type        : CMPIType := CMPIType.null

structure XtokClass where
  className  : Option Text := none
  superClass : Option Text := none
  properties : List (XtokProperty XtokInstance) := []
  qualifiers : List (XtokQualifier XtokInstance) := []
  methods    : List XtokMethod := []

structure XtokClassPath where
  name      : XtokNameSpacePath := {}
  className : XtokClassName := {}

inductive XtokReturnUnion
  | zero
  | value (value : XtokValue XtokInstance)
  | ref (ref : XtokValueReference XtokInstanceName)

structure XtokReturnValueData where
  u    : XtokReturnUnion := .zero
  type : CMPIType := CMPIType.null

structure XtokReturnValue where
  data : XtokReturnValueData := {}
  type : CMPIType := CMPIType.null

-- `returnValue` stands for what a `RETURNVALUE` leaves in these bytes when it shares a union with
-- the data.
inductive XtokParamValueUnion
  | zero
  | value (value : XtokValue XtokInstance)
  | valueRef (ref : XtokValueReference XtokInstanceName)
  | valueArray (array : XtokValueArray XtokInstance)
  | valueRefArray (array : XtokValueRefArray)
  | returnValue (ret : XtokReturnValue)

structure XtokParamValueData where
  u    : XtokParamValueUnion := .zero
  type : CMPIType := CMPIType.null

structure XtokParamValue where
  name : Option Text := none
  type : CMPIType := CMPIType.null
  data : XtokParamValueData := {}

-- Of a method response, only the parameters are ever filled in.
structure XtokMethodRespContent where
  values : List XtokParamValue := []

structure XtokNamedInstance where
  path      : XtokInstanceName := {}
  instance_ : XtokInstance := {}

structure XtokObjectPath where
  path : XtokInstancePath XtokInstanceName := { instanceName := {} }

structure XtokInstanceWithPath where
  path : XtokInstancePath XtokInstanceName := { instanceName := {} }
  inst : XtokInstance := {}

structure XtokClassWithPath where
  path : XtokClassPath := {}
  cls  : XtokClass := {}

inductive XtokObjectUnion
  | zero
  | inst (inst : XtokInstanceWithPath)
  | cls (cls : XtokClassWithPath)

structure XtokObjectWithPathData where
  u    : XtokObjectUnion := .zero
  type : ℕ := 0

structure XtokObjectWithPath where
  object : XtokObjectWithPathData := {}
  type   : ℕ := 0

-- The members of a union; one that is not the last written reads as zero.

namespace XtokReferenceUnion

def asInstancePath : XtokReferenceUnion XtokInstanceName → XtokInstancePath XtokInstanceName
  | .instancePath p => p
  | _               => { instanceName := {} }

def asLocalInstancePath : XtokReferenceUnion XtokInstanceName → XtokLocalInstancePath XtokInstanceName
  | .localInstancePath p => p
  | _                    => { instanceName := {} }

def asInstanceName : XtokReferenceUnion XtokInstanceName → XtokInstanceName
  | .instanceName n => n
  | _               => {}

end XtokReferenceUnion

namespace XtokKeyUnion

def asKeyValue {ν : Type} : XtokKeyUnion ν → XtokKeyValue
  | .keyValue v => v
  | .ref _      => {}

def asRef {ν : Type} : XtokKeyUnion ν → XtokValueReference ν
  | .keyValue _ => {}
  | .ref r      => r

end XtokKeyUnion

namespace XtokQualifierUnion

variable {ι : Type}

def asValue : XtokQualifierUnion ι → XtokValue ι
  | .value v => v
  | .array _ => {}

def asArray : XtokQualifierUnion ι → XtokValueArray ι
  | .value _ => {}
  | .array a => a

end XtokQualifierUnion

namespace XtokPropertyUnion

variable {ι : Type}

def asValue : XtokPropertyUnion ι → XtokValue ι
  | .value v => v
  | _        => {}

def asArray : XtokPropertyUnion ι → XtokValueArray ι
  | .array a => a
  | _        => {}

def asRef : XtokPropertyUnion ι → XtokValueReference XtokInstanceName
  | .ref r => r
  | _      => {}

end XtokPropertyUnion

namespace XtokReturnUnion

def asValue : XtokReturnUnion → XtokValue XtokInstance
  | .value v => v
  | _        => {}

def asRef : XtokReturnUnion → XtokValueReference XtokInstanceName
  | .ref r => r
  | _      => {}

end XtokReturnUnion

namespace XtokParamValueUnion

def asValue : XtokParamValueUnion → XtokValue XtokInstance
  | .value v => v
  | _        => {}

def asValueRef : XtokParamValueUnion → XtokValueReference XtokInstanceName
  | .valueRef r => r
  | _           => {}

def asValueArray : XtokParamValueUnion → XtokValueArray XtokInstance
  | .valueArray a => a
  | _             => {}

def asValueRefArray : XtokParamValueUnion → XtokValueRefArray
  | .valueRefArray a => a
  | _                => {}

end XtokParamValueUnion

namespace XtokObjectUnion

def asInst : XtokObjectUnion → XtokInstanceWithPath
  | .inst i => i
  | _       => {}

def asCls : XtokObjectUnion → XtokClassWithPath
  | .cls c => c
  | _      => {}

end XtokObjectUnion

-- How the productions add to what they fill.

section

variable {ι : Type}

def XtokInstanceName.addKeyBinding (n : XtokInstanceName) (b : XtokKeyBinding XtokInstanceName) :
    XtokInstanceName :=
  { n with bindings := n.bindings ++ [b] }

def XtokValueArray.add (a : XtokValueArray ι) (v : XtokPointer ι) : XtokValueArray ι where
  max    := if a.max ≤ a.values.length then a.max * 2 else a.max
  values := a.values ++ [v]

-- An array that grew from the sixteen elements it starts with.
def XtokValueArray.ofList (vs : List (XtokPointer ι)) : XtokValueArray ι :=
  vs.foldl XtokValueArray.add { max := 16 }

def XtokValueRefArray.add (a : XtokValueRefArray) (r : XtokValueReference XtokInstanceName) :
    XtokValueRefArray where
  max    := if a.max ≤ a.values.length then a.max * 2 else a.max
  values := a.values ++ [r]

def XtokValueRefArray.ofList (rs : List (XtokValueReference XtokInstanceName)) : XtokValueRefArray :=
  rs.foldl XtokValueRefArray.add { max := 16 }

def XtokQualifier.setData (q : XtokQualifier ι) (data : XtokQualifierData ι) : XtokQualifier ι :=
  { q with data := data, type := if data.isArray then q.type ||| CMPIType.array else q.type }

def XtokPropertyData.addQualifier (q : XtokQualifier ι) (p : XtokPropertyData ι) :
    XtokPropertyData ι :=
  { p with qualifiers := p.qualifiers ++ [q] }

-- An embedded instance decides the type of the property.
def XtokProperty.setValue (p : XtokProperty ι) (val : XtokPropertyData ι) : XtokProperty ι :=
  { p with
    val       := val
    valueType := if val.u.asValue.type = .Instance then CMPIType.inst else p.valueType }

def XtokInstance.addQualifier (q : XtokQualifier XtokInstance) (i : XtokInstance) : XtokInstance :=
  { i with qualifiers := i.qualifiers ++ [q] }

def XtokInstance.addProperty (p : XtokProperty XtokInstance) (i : XtokInstance) : XtokInstance :=
  { i with properties := i.properties ++ [p] }

def XtokMethod.addQualifier (q : XtokQualifier XtokInstance) (m : XtokMethod) : XtokMethod :=
  { m with qualifiers := m.qualifiers ++ [q] }

def XtokMethod.addParam (p : XtokParam) (m : XtokMethod) : XtokMethod :=
  { m with params := m.params ++ [p] }

def XtokClass.addQualifier (q : XtokQualifier XtokInstance) (c : XtokClass) : XtokClass :=
  { c with qualifiers := c.qualifiers ++ [q] }

def XtokClass.addProperty (p : XtokProperty XtokInstance) (c : XtokClass) : XtokClass :=
  { c with properties := c.properties ++ [p] }

def XtokMethodRespContent.addParamValue (p : XtokParamValue) (r : XtokMethodRespContent) :
    XtokMethodRespContent where
  values := r.values ++ [p]

def XtokParamValue.setData (p : XtokParamValue) (data : XtokParamValueData) : XtokParamValue :=
  { p with
    data := data
    type := if data.type = .inst then .inst else p.type ||| data.type }

def XtokClass.addMethod (m : XtokMethod) (c : XtokClass) : XtokClass :=
  { c with methods := c.methods ++ [m] }

end

end Sfcc.Xml
