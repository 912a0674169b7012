import Sfcc.Lib.Descent.Basic
import Sfcc.Xml.Xtok

open Descent

namespace Sfcc.Xml

-- The elements the lexer knows, under the names of their tokens. `EXPMETHODCALL` and
-- `EXPPARAMVALUE` are opened by `XTOK_EXPORTINDICATION` and `XTOK_EP_INSTANCE`.
inductive Tag
  | XML | CIM | MESSAGE | SIMPLERSP | SIMPLEEXPREQ | EXPMETHODCALL | EXPPARAMVALUE | IMETHODRESP
  | METHODRESP | ERROR | IRETVALUE | RETVALUE | NAMESPACEPATH | LOCALNAMESPACEPATH | NAMESPACE | HOST
  | VALUE | VALUEARRAY | VALUEREFERENCE | VALUEREFARRAY | CLASSNAME | INSTANCENAME | KEYBINDING
  | KEYVALUE | VALUENAMEDINSTANCE | QUALIFIER | PROPERTY | PROPERTYARRAY | PROPERTYREFERENCE | PARAM
  | PARAMARRAY | PARAMREF | PARAMREFARRAY | METHOD | CLASS | INSTANCE | VALUEOBJECTWITHPATH
  | PARAMVALUE | INSTANCEPATH | OBJECTPATH | LOCALINSTANCEPATH | LOCALCLASSPATH | CLASSPATH | CDATA
  deriving DecidableEq, Repr

structure QualifierAttr where
  name         : Option Text := none
  type         : CMPIType := CMPIType.null
  propagated   : Bool := false
  overridable  : Bool := false
  tosubclass   : Bool := false
  toinstance   : Bool := false
  translatable : Bool := false

structure PropertyAttr where
  name           : Option Text := none
  valueType      : CMPIType := CMPIType.null
  classOrigin    : Option Text := none
  propagated     : Bool := false
  referenceClass : Option Text := none

structure MethodAttr where
  name        : Option Text := none
  type        : CMPIType := CMPIType.null
  classOrigin : Option Text := none
  propagated  : Bool := false

structure ParamAttr where
  name      : Option Text := none
  type      : CMPIType := CMPIType.null
  refClass  : Option Text := none
  arraySize : Option Text := none

structure ClassAttr where
  name       : Option Text := none
  superClass : Option Text := none

structure ParamValueAttr where
  name : Option Text := none
  type : CMPIType := CMPIType.null

-- What the opening token of an element carries.
def Payload : Tag → Type
  | .ERROR                                          => XtokErrorResp
  | .RETVALUE                                       => CMPIType
  | .PARAMVALUE                                     => ParamValueAttr
  | .NAMESPACE | .CLASSNAME | .INSTANCENAME         => Option Text
  | .KEYBINDING | .INSTANCE | .HOST | .VALUE        => Option Text
  | .KEYVALUE                                       => XtokKeyValue
  | .QUALIFIER                                      => QualifierAttr
  | .PROPERTY | .PROPERTYARRAY | .PROPERTYREFERENCE => PropertyAttr
  | .METHOD                                         => MethodAttr
  | .PARAM | .PARAMARRAY | .PARAMREF | .PARAMREFARRAY => ParamAttr
  | .CLASS                                          => ClassAttr
  | _                                               => Unit

-- The tokens, with the number 0 as `none`.
inductive Tok
  | none
  | X (tag : Tag) (payload : Payload tag)
  | Z (tag : Tag)

inductive Kind
  | none
  | X (tag : Tag)
  | Z (tag : Tag)
  deriving DecidableEq, Repr

def Tok.kind : Tok → Kind
  | .none    => .none
  | .X tag _ => .X tag
  | .Z tag   => .Z tag

instance : Token Tok Kind where
  kind := Tok.kind
  eof  := .none

-- What the `proc` functions write, by the structure they write it to.

def XtokQualifier.lexed {ι : Type} (a : QualifierAttr) : XtokQualifier ι where
  name         := a.name
  type         := a.type
  propagated   := a.propagated
  overridable  := a.overridable
  tosubclass   := a.tosubclass
  toinstance   := a.toinstance
  translatable := a.translatable

def XtokProperty.lexed {ι : Type} (a : PropertyAttr) : TypeProperty → XtokProperty ι
  | .Reference => {
      name           := a.name
      valueType      := CMPIType.ref
      classOrigin    := a.classOrigin
      propagated     := a.propagated
      referenceClass := a.referenceClass
      propType       := .Reference }
  | propType => {
      name        := a.name
      valueType   := a.valueType
      classOrigin := a.classOrigin
      propagated  := a.propagated
      propType    := propType }

def XtokMethod.lexed (a : MethodAttr) : XtokMethod where
  name        := a.name
  type        := a.type
  classOrigin := a.classOrigin
  propagated  := a.propagated

def XtokParam.lexed (a : ParamAttr) (pType : ParamType) : XtokParam where
  pType     := pType
  name      := a.name
  refClass  := a.refClass
  arraySize := a.arraySize
  type      := a.type

section Stores

variable {ι : Type}

instance : Store Tok XtokClassName where
  store
    | .X .CLASSNAME name, _ => { value := name }
    | _, su                 => su

instance : Store Tok XtokHost where
  store
    | .X .HOST content, _ => { host := content }
    | _, su               => su

instance : Store Tok XtokNameSpace where
  store
    | .X .NAMESPACE name, _ => { ns := name }
    | _, su                 => su

instance : Store Tok XtokLocalNameSpacePath where
  store
    | .X .LOCALNAMESPACEPATH _, _ => { value := none }
    | _, su                       => su

instance : Store Tok XtokNameSpacePath where
  store _ su := su

instance : Store Tok XtokClassPath where
  store _ su := su

instance {ν : Type} : Store Tok (XtokInstancePath ν) where
  store _ su := su

instance {ν : Type} : Store Tok (XtokLocalInstancePath ν) where
  store _ su := su

instance : Store Tok XtokInstanceName where
  store
    | .X .INSTANCENAME name, _ => { className := name }
    | _, su                    => su

instance : Store Tok XtokKeyValue where
  store
    | .X .KEYVALUE a, _ => a
    | _, su             => su

instance {ν : Type} : Store Tok (XtokKeyBinding ν) where
  store
    | .X .KEYBINDING name, su => { su with name := name }
    | _, su                   => su

instance {ν : Type} : Store Tok (XtokKeyBindingContent ν) where
  store
    | .X .KEYVALUE a, su => { su with u := .keyValue a }
    | _, su              => su

instance {ν : Type} : Store Tok (XtokValueReference ν) where
  store _ su := su

instance : Store Tok (XtokValueReferenceData XtokInstanceName) where
  store
    | .X .INSTANCENAME name, su => { su with u := .instanceName { className := name } }
    | _, su                     => su

instance : Store Tok (XtokValueData ι) where
  store
    | .X .VALUE text, su => { su with ptr := .value text }
    | _, su              => su

instance : Store Tok (XtokValue ι) where
  store
    | .X .VALUE text, su => { su with data.ptr := .value text }
    | _, su              => su

instance : Store Tok (XtokValueArray ι) where
  store
    | .X .VALUEARRAY _, _ => { max := 16 }
    | _, su               => su

instance : Store Tok XtokValueRefArray where
  store
    | .X .VALUEREFARRAY _, _ => { max := 16 }
    | _, su                  => su

instance : Store Tok (XtokQualifierData ι) where
  store
    | .X .VALUE text, su   => { su with u := .value (store (Tok.X .VALUE text) su.u.asValue) }
    | .X .VALUEARRAY _, su => { su with u := .array { max := 16 } }
    | _, su                => su

instance : Store Tok (XtokQualifier ι) where
  store
    | .X .QUALIFIER a, _ => .lexed a
    | _, su              => su

instance : Store Tok (XtokProperty ι) where
  store
    | .X .PROPERTY a, _          => .lexed a .Value
    | .X .PROPERTYARRAY a, _     => .lexed a .Array
    | .X .PROPERTYREFERENCE a, _ => .lexed a .Reference
    | _, su                      => su

-- The tokens of a property are lexed into the `XtokProperty` around this member, which they zero.
instance : Store Tok (XtokPropertyData ι) where
  store
    | .X .PROPERTY _, _          => {}
    | .X .PROPERTYARRAY _, _     => {}
    | .X .PROPERTYREFERENCE _, _ => {}
    | _, su                      => su

instance : Store Tok XtokInstance where
  store
    | .X .INSTANCE name, _ => { className := name }
    | _, su                => su

-- A parameter is lexed into the `lvalp` of `method`, never into what its own production is given.
instance : Store Tok XtokParam where
  store _ su := su

instance : Store Tok XtokMethod where
  store
    | .X .METHOD a, _ => .lexed a
    | _, su           => su

instance : Store Tok XtokClass where
  store
    | .X .CLASS a, _ => { className := a.name, superClass := a.superClass }
    | _, su          => su

instance : Store Tok XtokObjectPath where
  store _ su := su

instance : Store Tok XtokNamedInstance where
  store _ su := su

instance : Store Tok XtokInstanceWithPath where
  store _ su := su

instance : Store Tok XtokClassWithPath where
  store _ su := su

instance : Store Tok XtokObjectWithPathData where
  store _ su := su

instance : Store Tok XtokObjectWithPath where
  store _ su := su

instance : Store Tok XtokErrorResp where
  store
    | .X .ERROR a, _ => a
    | _, su          => su

instance : Store Tok XtokReturnValueData where
  store
    | .X .VALUE text, su => { su with u := .value (store (Tok.X .VALUE text) su.u.asValue) }
    | _, su              => su

instance : Store Tok XtokReturnValue where
  store
    | .X .RETVALUE type, su => { su with type := type }
    | _, su                 => su

instance : Store Tok XtokParamValueData where
  store
    | .X .VALUE text, su    => { su with u := .value (store (Tok.X .VALUE text) su.u.asValue) }
    | .X .VALUEARRAY _, su    => { su with u := .valueArray { max := 16 } }
    | .X .VALUEREFARRAY _, su => { su with u := .valueRefArray { max := 16 } }
    | _, su                   => su

instance : Store Tok XtokParamValue where
  store
    | .X .PARAMVALUE a, su => { su with name := a.name, type := a.type }
    | _, su                => su

end Stores

-- The local unions `lvalp`, by the member that was written last. A member that was not reads as
-- zero: what the bytes of another one hold there is written over before it is read.
inductive ParseUnion
  | zero
  | nameSpace (ns : XtokNameSpace)
  | keyBinding (binding : XtokKeyBinding XtokInstanceName)
  | value (value : XtokValue XtokInstance)
  | valueArray (array : XtokValueArray XtokInstance)
  | valueReference (ref : XtokValueReference XtokInstanceName)
  | qualifier (qualifier : XtokQualifier XtokInstance)
  | qualifierData (data : XtokQualifierData XtokInstance)
  | property (property : XtokProperty XtokInstance)
  | param (param : XtokParam)
  | method (method : XtokMethod)
  | cls (cls : XtokClass)
  | className (name : XtokClassName)
  | inst (inst : XtokInstance)
  | instanceName (name : XtokInstanceName)
  | namedInstance (inst : XtokNamedInstance)
  | objectPath (path : XtokObjectPath)
  | objectWithPath (object : XtokObjectWithPath)
  | errorResp (error : XtokErrorResp)
  | returnValue (ret : XtokReturnValue)
  | paramValue (param : XtokParamValue)

namespace ParseUnion

def xtokNameSpace : ParseUnion → XtokNameSpace
  | .nameSpace ns => ns
  | _             => {}

def xtokKeyBinding : ParseUnion → XtokKeyBinding XtokInstanceName
  | .keyBinding b => b
  | _             => {}

def xtokValue : ParseUnion → XtokValue XtokInstance
  | .value v         => v
  | .qualifierData d => d.u.asValue
  | _                => {}

def xtokValueArray : ParseUnion → XtokValueArray XtokInstance
  | .valueArray a    => a
  | .qualifierData d => d.u.asArray
  | _                => {}

def xtokValueReference : ParseUnion → XtokValueReference XtokInstanceName
  | .valueReference r => r
  | _                 => {}

def xtokQualifier : ParseUnion → XtokQualifier XtokInstance
  | .qualifier q => q
  | _            => {}

def xtokQualifierData : ParseUnion → XtokQualifierData XtokInstance
  | .qualifierData d => d
  | .value v         => { u := .value v }
  | .valueArray a    => { u := .array a }
  | _                => {}

def xtokProperty : ParseUnion → XtokProperty XtokInstance
  | .property p => p
  | _           => {}

def xtokParam : ParseUnion → XtokParam
  | .param p => p
  | _        => {}

def xtokMethod : ParseUnion → XtokMethod
  | .method m => m
  | _         => {}

def xtokClass : ParseUnion → XtokClass
  | .cls c => c
  | _      => {}

def xtokClassName : ParseUnion → XtokClassName
  | .className n => n
  | _            => {}

def xtokInstance : ParseUnion → XtokInstance
  | .inst i => i
  | _       => {}

def xtokInstanceName : ParseUnion → XtokInstanceName
  | .instanceName n => n
  | _               => {}

def xtokNamedInstance : ParseUnion → XtokNamedInstance
  | .namedInstance n => n
  | _                => {}

def xtokObjectPath : ParseUnion → XtokObjectPath
  | .objectPath p => p
  | _             => {}

def xtokObjectWithPath : ParseUnion → XtokObjectWithPath
  | .objectWithPath o => o
  | _                 => {}

def xtokErrorResp : ParseUnion → XtokErrorResp
  | .errorResp e => e
  | _            => {}

def xtokReturnValue : ParseUnion → XtokReturnValue
  | .returnValue r => r
  | _              => {}

-- Nothing clears the data of a parameter before the next one, nor after a `RETURNVALUE`.
def xtokParamValue : ParseUnion → XtokParamValue
  | .paramValue p  => p
  | .returnValue r => { data.u := .returnValue r }
  | _              => {}

end ParseUnion

instance : Store Tok ParseUnion where
  store
    | t@(.X .NAMESPACE _), u         => .nameSpace (store t u.xtokNameSpace)
    | t@(.X .KEYBINDING _), u        => .keyBinding (store t u.xtokKeyBinding)
    | t@(.X .VALUE _), u             => .qualifierData (store t u.xtokQualifierData)
    | t@(.X .VALUEARRAY _), u        => .qualifierData (store t u.xtokQualifierData)
    | t@(.X .QUALIFIER _), u         => .qualifier (store t u.xtokQualifier)
    | t@(.X .PROPERTY _), u          => .property (store t u.xtokProperty)
    | t@(.X .PROPERTYARRAY _), u     => .property (store t u.xtokProperty)
    | t@(.X .PROPERTYREFERENCE _), u => .property (store t u.xtokProperty)
    | .X .PARAM a, _                 => .param (.lexed a .PARAM)
    | .X .PARAMARRAY a, _            => .param (.lexed a .PARAMARRAY)
    | .X .PARAMREF a, _              => .param (.lexed a .PARAMREF)
    | .X .PARAMREFARRAY a, _         => .param (.lexed a .PARAMREFARRAY)
    | t@(.X .METHOD _), u            => .method (store t u.xtokMethod)
    | t@(.X .CLASS _), u             => .cls (store t u.xtokClass)
    | t@(.X .CLASSNAME _), u         => .className (store t u.xtokClassName)
    | t@(.X .INSTANCE _), u          => .inst (store t u.xtokInstance)
    | t@(.X .INSTANCENAME _), u      => .instanceName (store t u.xtokInstanceName)
    | t@(.X .ERROR _), u             => .errorResp (store t u.xtokErrorResp)
    | t@(.X .RETVALUE _), u          => .returnValue (store t u.xtokReturnValue)
    | t@(.X .PARAMVALUE _), u        => .paramValue (store t u.xtokParamValue)
    | _, u                           => u

end Sfcc.Xml
