import Mathlib.Data.List.Forall2
import Sfcc.Lib.Markup
import Sfcc.Requests

open Markup (Node)

-- What the operations of the client ask for, as elements.
namespace Sfcc.Requests

open Xml

namespace Asked

-- The elements that have characters.
def isLeaf (name : Text) : Bool :=
  name = bytes "VALUE" ∨ name = bytes "KEYVALUE" ∨ name = bytes "HOST"

def value (t : Text) : Node :=
  .leaf (bytes "VALUE") [] (.chars t)

def attr (name : String) (t : Text) : Text × Text :=
  (bytes name, t)

def element (name : String) (as : List (Text × Text)) (cs : List Node) : Node :=
  .element (bytes name) as cs

def nameSpaceNode (name : Text) : Node :=
  element "NAMESPACE" [attr "NAME" name] []

def localNameSpacePath (cop : CMPIObjectPath) : Except Fault (List Node) := do
  return [element "LOCALNAMESPACEPATH" [] ((← NameSpace.getNameSpaceComponents cop.nameSpace).map nameSpaceNode)]

section

variable (printg : Text → Text)

mutual

def keyNodes : List (NativeProperty CMPIValue) → Except Fault (List Node)
  | []                                => return []
  | ⟨name, type, _, value, _⟩ :: keys => do
    let cv ← keyNode type value
    return element "KEYBINDING" [attr "NAME" name] [cv] :: (← keyNodes keys)

def keyNode (type : CMPIType) : CMPIValue → Except Fault Node
  | .ref ⟨nameSpace, classname, keys⟩ =>
    if type = .ref then do
      return element "VALUE.REFERENCE" [] [element "INSTANCEPATH" [] [
        element "NAMESPACEPATH" [] [.leaf (bytes "HOST") [] (.chars (bytes "localhost")),
          element "LOCALNAMESPACEPATH" [] (nameSpace.elim [] fun ns => (ns.splitOn 47).map nameSpaceNode)],
        element "INSTANCENAME" [attr "CLASSNAME" (chars classname)] (← keyNodes keys)]]
    else do
      return .leaf (bytes "KEYVALUE") [attr "VALUETYPE" (keytype2Chars type)]
        (.chars (← value2Chars printg type (.ref ⟨nameSpace, classname, keys⟩)))
  | value =>
    if type = .ref then throw .null
    else do
      return .leaf (bytes "KEYVALUE") [attr "VALUETYPE" (keytype2Chars type)] (.chars (← value2Chars printg type value))

end

def instanceName (cop : CMPIObjectPath) : Except Fault Node := do
  return element "INSTANCENAME" [attr "CLASSNAME" (chars cop.classname)] (← keyNodes printg cop.keys)

def reference (cop : CMPIObjectPath) : Except Fault Node := do
  let name ← instanceName printg cop
  let path ← match cop.nameSpace with
    | none   => pure name
    | some _ => do pure (element "LOCALINSTANCEPATH" [] ((← localNameSpacePath cop) ++ [name]))
  return element "VALUE.REFERENCE" [] [path]

-- The element of a value with a name. There is none where the value is null or empty.
def valueNodes (tag : String) (typed : Option String) (name : Text) (data : CMPIData) : Except Fault (List Node) := do
  let valtyp := data.type.element
  let as := attr "NAME" name :: (typed.bind fun c => (cmpiToXmlType valtyp).map (attr c)).toList
  if data.state.isNull then return []
  else if data.type.isArray then
    match data.value with
    | .array a =>
      if a.data = [] then return []
      else
        let cvs ← a.data.mapM fun ele => valueText printg valtyp ele.value
        return [.element (bytes tag ++ if sameIgnoringCase (bytes tag) (bytes "PARAMVALUE") then [] else bytes ".ARRAY") as
          [element "VALUE.ARRAY" [] (cvs.map value)]]
    | .zero    => throw .null
    | _        => throw .wild
  else if data.type = .ref then
    match data.value with
    | .ref path => return [element tag as [← reference printg path]]
    | .zero     => throw .null
    | _         => throw .wild
  else return [element tag as [value (← valueText printg valtyp data.value)]]

def property (p : NativeProperty CMPIValue) : Except Fault (List Node) :=
  if p.type = .ref then valueNodes printg "PROPERTY.REFERENCE" none p.name p.data
  else valueNodes printg "PROPERTY" (some "TYPE") p.name p.data

def instanceNode (cop : CMPIObjectPath) (inst : CMPIInstance) : Except Fault Node := do
  return element "INSTANCE" [attr "CLASSNAME" (chars cop.classname)] (← inst.props.mapM (property printg)).flatten

-- An instance in an argument is the data of a value.
def instanceArg : CMPIValue → Except Fault Node
  | .inst inst => do return .leaf (bytes "VALUE") [] (.data (bytes "\n" ++ (← addXmlInstance printg none inst)))
  | .zero      => throw .null
  | _          => throw .wild

def refArg : CMPIValue → Except Fault Node
  | .ref path => reference printg path
  | .zero     => throw .null
  | _         => throw .wild

def objectArg (arg : NativeProperty CMPIValue) (tag : String) (node : CMPIValue → Except Fault Node) : Except Fault Node :=
  if arg.type.isArray then
    match arg.value with
    | .array a => do return element tag [] (← a.data.mapM fun ele => node ele.value)
    | .zero    => throw .null
    | _        => throw .wild
  else node arg.value

-- What is sent for an argument of a type that is supported.
def argument (arg : NativeProperty CMPIValue) : Except Fault (List Node) :=
  if arg.type.element = .inst then do
    return [element "PARAMVALUE" [attr "NAME" arg.name] [← objectArg arg "VALUE.ARRAY" (instanceArg printg)]]
  else if arg.type.element = .ref then do
    return [element "PARAMVALUE" [attr "NAME" arg.name, attr "PARAMTYPE" (bytes "reference")]
      [← objectArg arg "VALUE.REFARRAY" (refArg printg)]]
  else valueNodes printg "PARAMVALUE" (some "PARAMTYPE") arg.name arg.data

def param (name : String) (c : Node) : Node :=
  element "IPARAMVALUE" [attr "NAME" (bytes name)] [c]

def className (c : Text) : Node :=
  element "CLASSNAME" [attr "NAME" c] []

def flag (name : String) (f : UInt32) : List Node :=
  [param name (value (bytes (if f ≠ 0 then "TRUE" else "FALSE")))]

def classNameParam (cop : CMPIObjectPath) : List Node :=
  if chars cop.classname = [] then [] else [param "ClassName" (className (chars cop.classname))]

def propertyList (properties : Option (List Text)) : List Node :=
  (properties.map fun ps => param "PropertyList" (element "VALUE.ARRAY" [] (ps.map value))).toList

def classFilter (name : String) (c : Option Text) : List Node :=
  (c.map fun c => param name (className c)).toList

def roleFilter (name : String) (r : Option Text) : List Node :=
  (r.map fun r => param name (value r)).toList

def stringParam (name : String) (t : Option Text) : List Node :=
  [param name (value (chars t))]

-- The name of the object that an operation is about.
def objectParam (name : String) (cop : CMPIObjectPath) : Except Fault (List Node) := do
  return [param name (← instanceName printg cop)]

-- The element of a call in its message.
def message (call : Node) : List Node :=
  [element "CIM" [attr "CIMVERSION" (bytes "2.0"), attr "DTDVERSION" (bytes "2.0")] [
    element "MESSAGE" [attr "ID" (bytes "4711"), attr "PROTOCOLVERSION" (bytes "1.0")] [
      element "SIMPLEREQ" [] [call]]]]

def intrinsic (name : String) (params : List Node) : List Node :=
  message (element "IMETHODCALL" [attr "NAME" (bytes name)] params)

end

end Asked

open Asked

namespace Operation

variable (printg : Text → Text) (cop : CMPIObjectPath)

-- What the operation asks for.
def asks : Operation → Except Fault (List Node)
  | enumInstanceNames                                                   => do
    return intrinsic "EnumerateInstanceNames" ((← localNameSpacePath cop) ++ classNameParam cop)
  | getInstance flags properties                                        => do
    return intrinsic "GetInstance" ((← localNameSpacePath cop) ++ flag "LocalOnly" (flags &&& CMPI_FLAG_LocalOnly) ++
      flag "IncludeClassOrigin" (flags &&& CMPI_FLAG_IncludeClassOrigin) ++
      flag "IncludeQualifiers" (flags &&& CMPI_FLAG_IncludeQualifiers) ++ propertyList properties ++
      (← objectParam printg "InstanceName" cop))
  | createInstance inst                                                 => do
    return intrinsic "CreateInstance" ((← localNameSpacePath cop) ++ [param "NewInstance" (← instanceNode printg cop inst)])
  | setInstance inst flags properties                                   => do
    return intrinsic "ModifyInstance" ((← localNameSpacePath cop) ++
      flag "IncludeQualifiers" (flags &&& CMPI_FLAG_IncludeQualifiers) ++ propertyList properties ++
      [param "ModifiedInstance" (element "VALUE.NAMEDINSTANCE" []
        [← instanceName printg cop, ← instanceNode printg cop inst])])
  | deleteInstance                                                      => do
    return intrinsic "DeleteInstance" ((← localNameSpacePath cop) ++ (← objectParam printg "InstanceName" cop))
  | execQuery query lang                                                => do
    return intrinsic "ExecQuery" ((← localNameSpacePath cop) ++ stringParam "QueryLanguage" lang ++
      stringParam "Query" query)
  | enumInstances flags properties                                      => do
    return intrinsic "EnumerateInstances" ((← localNameSpacePath cop) ++ classNameParam cop ++
      flag "DeepInheritance" (flags &&& CMPI_FLAG_DeepInheritance) ++
      flag "LocalOnly" (flags &&& CMPI_FLAG_LocalOnly) ++
      flag "IncludeQualifiers" (flags &&& CMPI_FLAG_IncludeQualifiers) ++
      flag "IncludeClassOrigin" (flags &&& CMPI_FLAG_IncludeClassOrigin) ++ propertyList properties)
  | associators assocClass resultClass role resultRole flags properties => do
    return intrinsic "Associators" ((← localNameSpacePath cop) ++ (← objectParam printg "ObjectName" cop) ++
      classFilter "AssocClass" assocClass ++ classFilter "ResultClass" resultClass ++ roleFilter "Role" role ++
      roleFilter "ResultRole" resultRole ++ flag "IncludeClassOrigin" (flags &&& CMPI_FLAG_IncludeClassOrigin) ++
      flag "IncludeQualifiers" (flags &&& CMPI_FLAG_IncludeQualifiers) ++ propertyList properties)
  | associatorNames assocClass resultClass role resultRole              => do
    return intrinsic "AssociatorNames" ((← localNameSpacePath cop) ++ (← objectParam printg "ObjectName" cop) ++
      classFilter "AssocClass" assocClass ++ classFilter "ResultClass" resultClass ++ roleFilter "Role" role ++
      roleFilter "ResultRole" resultRole)
  | references resultClass role flags properties                        => do
    return intrinsic "References" ((← localNameSpacePath cop) ++ (← objectParam printg "ObjectName" cop) ++
      classFilter "ResultClass" resultClass ++ roleFilter "Role" role ++
      flag "IncludeClassOrigin" (flags &&& CMPI_FLAG_IncludeClassOrigin) ++
      flag "IncludeQualifiers" (flags &&& CMPI_FLAG_IncludeQualifiers) ++ propertyList properties)
  | referenceNames resultClass role                                     => do
    return intrinsic "ReferenceNames" ((← localNameSpacePath cop) ++ (← objectParam printg "ObjectName" cop) ++
      classFilter "ResultClass" resultClass ++ roleFilter "Role" role)
  | setProperty name v type                                             => do
    return intrinsic "SetProperty" ((← localNameSpacePath cop) ++ stringParam "PropertyName" name ++
      stringParam "NewValue" (some (← value2Chars printg type v)) ++ (← objectParam printg "InstanceName" cop))
  | getProperty name                                                    => do
    return intrinsic "GetProperty" ((← localNameSpacePath cop) ++ stringParam "PropertyName" name ++
      (← objectParam printg "InstanceName" cop))
  | getClass flags properties                                           => do
    return intrinsic "GetClass" ((← localNameSpacePath cop) ++ flag "LocalOnly" (flags &&& CMPI_FLAG_LocalOnly) ++
      flag "IncludeClassOrigin" (flags &&& CMPI_FLAG_IncludeClassOrigin) ++
      flag "IncludeQualifiers" (flags &&& CMPI_FLAG_IncludeQualifiers) ++ propertyList properties ++ classNameParam cop)
  | enumClassNames flags                                                => do
    return intrinsic "EnumerateClassNames" ((← localNameSpacePath cop) ++
      flag "DeepInheritance" (flags &&& CMPI_FLAG_DeepInheritance) ++ classNameParam cop)
  | enumClasses flags                                                   => do
    return intrinsic "EnumerateClasses" ((← localNameSpacePath cop) ++
      flag "DeepInheritance" (flags &&& CMPI_FLAG_DeepInheritance) ++
      flag "LocalOnly" (flags &&& CMPI_FLAG_LocalOnly) ++
      flag "IncludeQualifiers" (flags &&& CMPI_FLAG_IncludeQualifiers) ++
      flag "IncludeClassOrigin" (flags &&& CMPI_FLAG_IncludeClassOrigin) ++ classNameParam cop)
  | invokeMethod method args                                            => do
    let ns ← localNameSpacePath cop
    let name ← instanceName printg cop
    return message (element "METHODCALL" [attr "NAME" (chars method)]
      (element "LOCALINSTANCEPATH" [] (ns ++ [name]) :: (← (args.getD []).mapM (argument printg)).flatten))

end Operation

-- The declaration in front of a request.
def declaration : Text :=
  bytes "<?xml version=\"1.0\" encoding=\"utf-8\" ?>\n"

-- Two properties, or arguments, that differ in the strings they have.
structure Alike (p q : NativeProperty CMPIValue) : Prop where
  name  : p.name = q.name
  type  : p.type = q.type
  state : p.state = q.state
  text  : p.type.element = .string ∨ p.type.element = .chars
  array : ∀ a b, p.value = .array a → q.value = .array b → a.data.length = b.data.length

def AllAlike : List (NativeProperty CMPIValue) → List (NativeProperty CMPIValue) → Prop :=
  List.Forall₂ fun p q => p = q ∨ Alike p q

-- Two operations that differ in strings of an instance, or of the arguments.
inductive Operation.Alike : Operation → Operation → Prop
  | createInstance {i j} : AllAlike i.props j.props → Alike (.createInstance i) (.createInstance j)
  | setInstance {i j flags properties} :
    AllAlike i.props j.props → Alike (.setInstance i flags properties) (.setInstance j flags properties)
  | invokeMethod {method as bs} : AllAlike as bs → Alike (.invokeMethod method (some as)) (.invokeMethod method (some bs))

end Sfcc.Requests
