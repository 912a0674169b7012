import Sfcc.Cmpi.Chars
import Sfcc.NameSpace
import Sfcc.Xml.Lexer

namespace Sfcc

def AsciiToXmlStr (t : Text) : Text :=
  t.flatMap fun b => (XmlEscapes.find? (·.1 = b)).elim [b] (·.2)

def keytype2Chars (type : CMPIType) : Text :=
  if type = .boolean then bytes "boolean"
  else if type &&& (.integer ||| .real) ≠ 0 then bytes "numeric"
  else bytes "string"

-- `NULL` appends nothing.
def chars (t : Option Text) : Text :=
  t.getD []

namespace Xml

def namespaceElement (name : Text) : Text :=
  bytes "<NAMESPACE NAME=\"" ++ name ++ bytes "\"></NAMESPACE>\n"

def addXmlNamespace (cop : CMPIObjectPath) : Except Fault Text := do
  let nsc ← NameSpace.getNameSpaceComponents cop.nameSpace
  return bytes "<LOCALNAMESPACEPATH>\n" ++ nsc.flatMap namespaceElement ++ bytes "</LOCALNAMESPACEPATH>\n"

section

variable (printg : Text → Text)

mutual

-- A path is written with the name of its host, which it never has.
def pathToXml : List (NativeProperty CMPIValue) → Except Fault Text
  | []                             => return []
  | ⟨name, type, _, value, _⟩ :: keys => do
    let cv ← keyToXml type value
    return bytes "<KEYBINDING NAME=\"" ++ name ++ bytes "\">" ++ cv ++ bytes "</KEYBINDING>\n" ++
      (← pathToXml keys)

def keyToXml (type : CMPIType) : CMPIValue → Except Fault Text
  | .ref ⟨nameSpace, classname, keys⟩ =>
    if type = .ref then do
      let nss := nameSpace.elim [] fun ns => (ns.splitOn 47).flatMap namespaceElement
      return bytes "<VALUE.REFERENCE><INSTANCEPATH>\n" ++
        bytes "<NAMESPACEPATH><HOST>localhost</HOST>\n" ++ bytes "<LOCALNAMESPACEPATH>\n" ++ nss ++
        bytes "</LOCALNAMESPACEPATH></NAMESPACEPATH>\n" ++ bytes "<INSTANCENAME CLASSNAME=\"" ++
        chars classname ++ bytes "\">" ++ (← pathToXml keys) ++
        bytes "</INSTANCENAME></INSTANCEPATH></VALUE.REFERENCE>"
    else do
      let cv ← value2Chars printg type (.ref ⟨nameSpace, classname, keys⟩)
      return bytes "<KEYVALUE VALUETYPE=\"" ++ keytype2Chars type ++ bytes "\">" ++ cv ++ bytes "</KEYVALUE>"
  | value =>
    if type = .ref then throw .null
    else do
      let cv ← value2Chars printg type value
      return bytes "<KEYVALUE VALUETYPE=\"" ++ keytype2Chars type ++ bytes "\">" ++ cv ++ bytes "</KEYVALUE>"

end

-- The element of a path in `addXmlObjectName`, and in the requests that do without it.
def instanceNameElement (cop : CMPIObjectPath) : Except Fault Text := do
  return bytes "<INSTANCENAME CLASSNAME=\"" ++ chars cop.classname ++ bytes "\">\n" ++
    (← pathToXml printg cop.keys) ++ bytes "</INSTANCENAME>\n"

def addXmlReference (cop : CMPIObjectPath) : Except Fault Text := do
  let name := bytes "<INSTANCENAME CLASSNAME=\"" ++ chars cop.classname ++ bytes "\">\n" ++
    (← pathToXml printg cop.keys) ++ bytes "</INSTANCENAME>\n"
  let path ← match cop.nameSpace with
    | none   => pure name
    | some _ =>
      let ns ← addXmlNamespace cop
      pure (bytes "<LOCALINSTANCEPATH>\n" ++ ns ++ name ++ bytes "</LOCALINSTANCEPATH>\n")
  return bytes "<VALUE.REFERENCE>\n" ++ path ++ bytes "</VALUE.REFERENCE>\n"

-- The text between the tags of a `VALUE`.
def valueText (valtyp : CMPIType) (value : CMPIValue) : Except Fault Text := do
  let cv ← value2Chars printg valtyp value
  return if valtyp = .string ∨ valtyp = .chars then AsciiToXmlStr cv else cv

def valueElement (cv : Text) : Text :=
  bytes "<VALUE>" ++ cv ++ bytes "</VALUE>\n"

-- A null or empty value is left out.
def addXmlValue (containerTag : Text) (containerType : Option Text) (valueName : Text)
    (data : CMPIData) : Except Fault Text := do
  let valtyp := data.type.element
  let attr := (containerType.bind fun c => (cmpiToXmlType valtyp).map fun t => (c, t)).elim []
    fun (c, t) => bytes " " ++ c ++ bytes "=\"" ++ t ++ bytes "\""
  let element (arrayStr content : Text) :=
    let tag := if sameIgnoringCase containerTag (bytes "PARAMVALUE") then containerTag else containerTag ++ arrayStr
    bytes "<" ++ tag ++ bytes " NAME=\"" ++ valueName ++ bytes "\"" ++ attr ++ bytes ">\n" ++ content ++
      bytes "</" ++ tag ++ bytes ">\n"
  if data.state.isNull then return []
  else if data.type.isArray then
    match data.value with
    | .array a =>
      if a.data = [] then return []
      else
        let cvs ← a.data.mapM fun ele => valueText printg valtyp ele.value
        return element (bytes ".ARRAY")
          (bytes "<VALUE.ARRAY>\n" ++ cvs.flatMap valueElement ++ bytes "</VALUE.ARRAY>\n")
    | .zero    => throw .null
    | _        => throw .wild
  else if data.type = .ref then
    match data.value with
    | .ref path => return element [] (← addXmlReference printg path)
    | .zero     => throw .null
    | _         => throw .wild
  else return element [] (valueElement (← valueText printg valtyp data.value))

def addXmlProperty (p : NativeProperty CMPIValue) : Except Fault Text :=
  if p.type = .ref then addXmlValue printg (bytes "PROPERTY.REFERENCE") none p.name p.data
  else addXmlValue printg (bytes "PROPERTY") (bytes "TYPE") p.name p.data

def addXmlInstance (cop : Option CMPIObjectPath) (inst : CMPIInstance) : Except Fault Text := do
  let cop ← match cop with
    | some cop => pure cop
    | none     => inst.getObjectPath
  let props ← inst.props.mapM (addXmlProperty printg)
  return bytes "<INSTANCE CLASSNAME=\"" ++ chars cop.classname ++ bytes "\">\n" ++ props.flatten ++
    bytes "</INSTANCE>\n"

def embedded (inst : CMPIInstance) : Except Fault Text := do
  return bytes "<VALUE>\n<![CDATA[\n" ++ (← addXmlInstance printg none inst) ++ bytes "]]>\n</VALUE>\n"

-- The elements of an array of objects.
def objects (tag : String) (element : CMPIValue → Except Fault Text) (a : CMPIArray) : Except Fault Text := do
  return bytes "<" ++ bytes tag ++ bytes ">\n" ++
    (← a.data.mapM fun ele => element ele.value).flatten ++ bytes "</" ++ bytes tag ++ bytes ">\n"

def instanceValue : CMPIValue → Except Fault Text
  | .inst inst => embedded printg inst
  | .zero      => throw .null
  | _          => throw .wild

def refValue : CMPIValue → Except Fault Text
  | .ref path => addXmlReference printg path
  | .zero     => throw .null
  | _         => throw .wild

-- The loop of `invokeMethod` over the arguments, where `none` is an unsupported type. Whether an
-- object is null is not looked at.
def addXmlArg (arg : NativeProperty CMPIValue) : Except Fault (Option Text) := do
  let array (tag : String) (element : CMPIValue → Except Fault Text) : Except Fault Text :=
    if arg.type.isArray then
      match arg.value with
      | .array a => objects tag element a
      | .zero    => throw .null
      | _        => throw .wild
    else element arg.value
  if arg.type.element ∈ [CMPIType.boolean, .char16, .real32, .real64, .uint8, .uint16, .uint32, .uint64,
      .sint8, .sint16, .sint32, .sint64, .string, .chars, .dateTime] then
    some <$> addXmlValue printg (bytes "PARAMVALUE") (bytes "PARAMTYPE") arg.name arg.data
  else if arg.type.element = .inst then do
    return some (bytes "<PARAMVALUE NAME=\"" ++ arg.name ++ bytes "\">\n" ++
      (← array "VALUE.ARRAY" (instanceValue printg)) ++ bytes "</PARAMVALUE>\n")
  else if arg.type.element = .ref then do
    return some (bytes "<PARAMVALUE NAME=\"" ++ arg.name ++ bytes "\" PARAMTYPE=\"reference\">\n" ++
      (← array "VALUE.REFARRAY" (refValue printg)) ++ bytes "</PARAMVALUE>\n")
  else return none

def addXmlArgs : CMPIArgs → Except Fault (Option Text)
  | []        => return some []
  | arg :: args => do
    match ← addXmlArg printg arg with
    | none   => return none
    | some t => return (← addXmlArgs args).map (t ++ ·)

end

end Xml
end Sfcc
