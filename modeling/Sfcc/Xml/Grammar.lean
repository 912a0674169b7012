import Sfcc.Xml.Token

open Descent

namespace Sfcc.Xml

-- `Failure.parseError` is `parseError`, which exits; `dontLex` is the reader's push-back flag.
abbrev Parse := Parser Tok Fault

abbrev Production (σ : Type) := σ → Parse σ

-- An element whose production has no local union.
def bare {σ : Type} [Store Tok σ] (tag : Tag) (expOpening expClosing : String)
    (content : Production (σ × Unit)) : Production σ :=
  element (.X tag) (.Z tag) expOpening expClosing () content

-- An element whose production has a local union `lvalp`.
def withLocal {σ : Type} [Store Tok σ] (tag : Tag) (expOpening expClosing : String)
    (content : Production (σ × ParseUnion)) : Production σ :=
  element (.X tag) (.Z tag) expOpening expClosing .zero content

namespace Grammar

def className : Production XtokClassName :=
  bare .CLASSNAME "XTOK_CLASSNAME" "ZTOK_CLASSNAME" pure

def host : Production XtokHost :=
  bare .HOST "XTOK_HOST" "ZTOK_HOST" pure

def nameSpace : Production XtokNameSpace :=
  bare .NAMESPACE "XTOK_NAMESPACE" "ZTOK_NAMESPACE" pure

def keyValue : Production XtokKeyValue :=
  bare .KEYVALUE "XTOK_KEYVALUE" "ZTOK_KEYVALUE" pure

def joinNameSpace (path : Option Text) (ns : Text) : Text :=
  match path with
  | none      => ns
  | some path => path ++ bytes "/" ++ ns

-- Before anything else, `strlen` is taken of the name.
def addNameSpace (su : XtokLocalNameSpacePath) (ns : XtokNameSpace) :
    Except Fault XtokLocalNameSpacePath :=
  match ns.ns with
  | none    => .error .null
  | some ns => .ok { value := joinNameSpace su.value ns }

def localNameSpacePath : Production XtokLocalNameSpacePath :=
  withLocal .LOCALNAMESPACEPATH "XTOK_LOCALNAMESPACEPATH"
    "ZTOK_LOCALNAMESPACEPATH or XTOK_NAMESPACE" <| many (· = .X .NAMESPACE) fun p => do
      let p ← focus (·.2.xtokNameSpace) (fun ns p => (p.1, .nameSpace ns)) nameSpace p
      act (fun p => return (← addNameSpace p.1 p.2.xtokNameSpace, p.2)) p

def nameSpacePath : Production XtokNameSpacePath :=
  bare .NAMESPACEPATH "XTOK_NAMESPACEPATH" "ZTOK_NAMESPACEPATH" fun p => do
    let p ← focus (·.1.host) (fun host p => ({ p.1 with host := host }, p.2)) host p
    focus (·.1.nameSpacePath) (fun path p => ({ p.1 with nameSpacePath := path }, p.2))
      localNameSpacePath p

def classPath : Production XtokClassPath :=
  bare .CLASSPATH "XTOK_CLASSPATH" "ZTOK_CLASSPATH" fun p => do
    let p ← focus (·.1.name) (fun name p => ({ p.1 with name := name }, p.2)) nameSpacePath p
    focus (·.1.className) (fun name p => ({ p.1 with className := name }, p.2)) className p

-- The productions around `instanceName`, which they are given.
section Reference

variable (instanceName : Production XtokInstanceName)

def instancePath : Production (XtokInstancePath XtokInstanceName) :=
  bare .INSTANCEPATH "XTOK_INSTANCEPATH" "ZTOK_INSTANCEPATH" fun p => do
    let p ← focus (·.1.path) (fun path p => ({ p.1 with path := path }, p.2)) nameSpacePath p
    focus (·.1.instanceName) (fun name p => ({ p.1 with instanceName := name }, p.2)) instanceName p

def localInstancePath : Production (XtokLocalInstancePath XtokInstanceName) :=
  bare .LOCALINSTANCEPATH "XTOK_LOCALINSTANCEPATH" "ZTOK_LOCALINSTANCEPATH" fun p => do
    let p ← focus (·.1.path) (fun path p => ({ p.1 with path := path }, p.2)) localNameSpacePath p
    focus (·.1.instanceName) (fun name p => ({ p.1 with instanceName := name }, p.2)) instanceName p

def valueReferenceData : Production (XtokValueReferenceData XtokInstanceName) :=
  choice <|
    arm (· = .X .INSTANCEPATH)
      (focus (·.u.asInstancePath) (fun p _ => { u := .instancePath p, type := .InstancePath })
        (instancePath instanceName)) <|
    arm (· = .X .LOCALINSTANCEPATH)
      (focus (·.u.asLocalInstancePath)
        (fun p _ => { u := .localInstancePath p, type := .LocalInstancePath })
        (localInstancePath instanceName)) <|
    arm (· = .X .INSTANCENAME)
      (focus (·.u.asInstanceName) (fun n _ => { u := .instanceName n, type := .InstanceName })
        instanceName) <|
    fun _ => parseError "XTOK_INSTANCEPATH or XTOK_LOCALINSTANCEPATH or XTOK_INSTANCENAME"

def valueReference : Production (XtokValueReference XtokInstanceName) :=
  bare .VALUEREFERENCE "XTOK_VALUEREFERENCE" "ZTOK_VALUEREFERENCE" <|
    focus (·.1.data) (fun data p => ({ p.1 with data := data, type := data.type }, p.2))
      (valueReferenceData instanceName)

def keyBindingContent : Production (XtokKeyBindingContent XtokInstanceName) :=
  choice <|
    arm (· = .X .KEYVALUE)
      (focus (·.u.asKeyValue) (fun v _ => { u := .keyValue v, type := v.valueType }) keyValue) <|
    arm (· = .X .VALUEREFERENCE)
      (focus (·.u.asRef) (fun r _ => { u := .ref r, type := bytes "ref" })
        (valueReference instanceName)) <|
    fun _ => parseError "XTOK_KEYVALUE or XTOK_VALUEREFERENCE"

def keyBinding : Production (XtokKeyBinding XtokInstanceName) :=
  bare .KEYBINDING "XTOK_KEYBINDING" "ZTOK_KEYBINDING" <|
    focus (·.1.val) (fun val p => ({ p.1 with val := val, type := val.type }, p.2))
      (keyBindingContent instanceName)

def instanceNameStep : Production XtokInstanceName :=
  withLocal .INSTANCENAME "XTOK_INSTANCENAME" "ZTOK_INSTANCENAME or XTOK_KEYBINDING" <|
    many (· = .X .KEYBINDING) <|
      focus (·.2.xtokKeyBinding) (fun b p => (p.1.addKeyBinding b, .keyBinding b))
        (keyBinding instanceName)

end Reference

def instanceNameN : ℕ → Production XtokInstanceName
  | 0     => fun _ => outOfFuel
  | n + 1 => instanceNameStep (instanceNameN n)

def instanceName : Production XtokInstanceName :=
  fueled instanceNameN

def objectPath : Production XtokObjectPath :=
  bare .OBJECTPATH "XTOK_OBJECTPATH" "ZTOK_OBJECTPATH" <|
    focus (·.1.path) (fun path p => ({ p.1 with path := path }, p.2)) (instancePath instanceName)

def valueRefArray : Production XtokValueRefArray :=
  withLocal .VALUEREFARRAY "XTOK_VALUEREFARRAY" "ZTOK_VALUEREFARRAY or XTOK_VALUEREFERENCE" <|
    many (· = .X .VALUEREFERENCE) <|
      focus (·.2.xtokValueReference) (fun r p => (p.1.add r, .valueReference r))
        (valueReference instanceName)

-- The productions around `instance`, which they are given.
section Value

variable (inst : Production XtokInstance)

-- `ZTOK_VALUE` is left to `value`.
def valueData : Production (XtokValueData XtokInstance) := fun su => do
  let su ← lex su
  if kind (← current) = .Z .VALUE then
    pushBack
    pure { su with type := .charP }
  else if kind (← current) = .X .CDATA then
    let i ← inst {}
    let su ← lex { su with ptr := .inst i, type := .Instance }
    if kind (← current) = .Z .CDATA then pure su else parseError "ZTOK_CDATA"
  else parseError "ZTOK_VALUE"

def value : Production (XtokValue XtokInstance) :=
  bare .VALUE "XTOK_VALUE" "ZTOK_VALUE" <|
    focus (·.1.data) (fun data p => ({ p.1 with data := data, type := data.type }, p.2))
      (valueData inst)

def valueArray : Production (XtokValueArray XtokInstance) :=
  withLocal .VALUEARRAY "XTOK_VALUEARRAY" "ZTOK_VALUEARRAY or XTOK_VALUE" <|
    many (· = .X .VALUE) <|
      focus (·.2.xtokValue) (fun v p => (p.1.add v.data.ptr, .value v)) (value inst)

def qualifierData : Production (XtokQualifierData XtokInstance) :=
  choice <|
    arm (· = .X .VALUE)
      (focus (·.u.asValue) (fun v _ => { u := .value v, isArray := false }) (value inst)) <|
    arm (· = .X .VALUEARRAY)
      (focus (·.u.asArray) (fun a _ => { u := .array a, isArray := true }) (valueArray inst)) <|
    fun _ => parseError "XTOK_VALUE or XTOK_VALUEARRAY"

def qualifier : Production (XtokQualifier XtokInstance) :=
  withLocal .QUALIFIER "XTOK_QUALIFIER" "ZTOK_QUALIFIER or XTOK_VALUE or XTOK_VALUEARRAY" <|
    optional (· ∈ [.X .VALUE, .X .VALUEARRAY]) <|
      focus (·.2.xtokQualifierData) (fun d p => (p.1.setData d, .qualifierData d))
        (qualifierData inst)

-- The loop over the qualifiers at the beginning of an element.
def qualifiers {σ : Type} (add : XtokQualifier XtokInstance → σ → σ) : Production (σ × ParseUnion) :=
  many (· = .X .QUALIFIER) <|
    focus (·.2.xtokQualifier) (fun q p => (add q p.1, .qualifier q)) (qualifier inst)

def property : Production (XtokPropertyData XtokInstance) :=
  withLocal .PROPERTY "XTOK_PROPERTY" "ZTOK_PROPERTY or XTOK_VALUE or XTOK_QUALIFIER" fun p => do
    let p ← qualifiers inst XtokPropertyData.addQualifier p
    optional (· = .X .VALUE)
      (focus (·.2.xtokValue) (fun v p => ({ p.1 with u := .value v }, .value v)) (value inst)) p

def propertyArray : Production (XtokPropertyData XtokInstance) :=
  withLocal .PROPERTYARRAY "XTOK_PROPERTYARRAY" "ZTOK_PROPERTYARRAY or XTOK_VALUEARRAY or XTOK_QUALIFIER"
    fun p => do
      let p ← qualifiers inst XtokPropertyData.addQualifier p
      optional (· = .X .VALUEARRAY)
        (focus (·.2.xtokValueArray) (fun a p => ({ p.1 with u := .array a }, .valueArray a))
          (valueArray inst)) p

def propertyReference : Production (XtokPropertyData XtokInstance) :=
  withLocal .PROPERTYREFERENCE "XTOK_PROPERTYREFERENCE"
    "ZTOK_PROPERTYREFERENCE or XTOK_VALUEREFERENCE or XTOK_QUALIFIER" fun p => do
      let p ← qualifiers inst XtokPropertyData.addQualifier p
      optional (· = .X .VALUEREFERENCE)
        (focus (·.2.xtokValueReference) (fun r p => ({ p.1 with u := .ref r }, .valueReference r))
          (valueReference instanceName)) p

def isProperty : Kind → Bool :=
  (· ∈ [.X .PROPERTY, .X .PROPERTYARRAY, .X .PROPERTYREFERENCE])

def genProperty : Production (XtokProperty XtokInstance) :=
  choice <|
    arm (· = .X .PROPERTY)
      (focus (·.val) (fun val p => p.setValue val) (property inst)) <|
    arm (· = .X .PROPERTYARRAY)
      (focus (·.val) (fun val p => { p with val := val }) (propertyArray inst)) <|
    arm (· = .X .PROPERTYREFERENCE)
      (focus (·.val) (fun val p => { p with val := val }) (propertyReference inst)) <|
    fun _ => parseError "XTOK_PROPERTY or XTOK_PROPERTYARRAY or XTOK_PROPERTYREFERENCE"

def properties {σ : Type} (add : XtokProperty XtokInstance → σ → σ) : Production (σ × ParseUnion) :=
  many isProperty <|
    focus (·.2.xtokProperty) (fun q p => (add q p.1, .property q)) (genProperty inst)

def instanceStep : Production XtokInstance :=
  withLocal .INSTANCE "XTOK_INSTANCE"
    "ZTOK_INSTANCE or XTOK_PROPERTY or XTOK_PROPERTYARRAY or XTOK_PROPERTYREFERENCE or XTOK_QUALIFIER"
    fun p => do
      let p ← qualifiers inst XtokInstance.addQualifier p
      properties inst XtokInstance.addProperty p

end Value

def instanceN : ℕ → Production XtokInstance
  | 0     => fun _ => outOfFuel
  | n + 1 => instanceStep (instanceN n)

def instance_ : Production XtokInstance :=
  fueled instanceN

-- The four kinds of parameters. Their qualifiers are parsed and dropped.
def parameterOf (tag : Tag) (expOpening expClosing : String) : Production XtokParam :=
  withLocal tag expOpening expClosing <| qualifiers instance_ fun _ p => p

def parameter : Production XtokParam :=
  parameterOf .PARAM "XTOK_PARAM" "ZTOK_PARAM or XTOK_QUALIFIER"

def parameterReference : Production XtokParam :=
  parameterOf .PARAMREF "XTOK_PARAMREF" "ZTOK_PARAMREF or XTOK_QUALIFIER"

def parameterRefArray : Production XtokParam :=
  parameterOf .PARAMREFARRAY "XTOK_PARAMREFARRAY" "ZTOK_PARAMREFARRAY or XTOK_QUALIFIER"

def parameterArray : Production XtokParam :=
  parameterOf .PARAMARRAY "XTOK_PARAMARRAY" "ZTOK_PARAMARRAY or XTOK_QUALIFIER"

-- Parses into an `lvalp` of its own, which is zero and is dropped.
def methodData : Production Unit :=
  arm (· = .X .PARAM) (focus (fun _ => {}) (fun _ u => u) parameter) <|
  arm (· = .X .PARAMREF) (focus (fun _ => {}) (fun _ u => u) parameterReference) <|
  arm (· = .X .PARAMARRAY) (focus (fun _ => {}) (fun _ u => u) parameterArray) <|
  arm (· = .X .PARAMREFARRAY) (focus (fun _ => {}) (fun _ u => u) parameterRefArray) <|
  fun _ => parseError "XTOK_PARAM or XTOK_PARAMREF or XTOK_PARAMARRAY or XTOK_PARAMREFARRAY"

def isParam : Kind → Bool :=
  (· ∈ [.X .PARAM, .X .PARAMREF, .X .PARAMARRAY, .X .PARAMREFARRAY])

def method : Production XtokMethod :=
  withLocal .METHOD "XTOK_METHOD"
    "ZTOK_METHOD or XTOK_PARAM or XTOK_PARAMREF or XTOK_PARAMARRAY or XTOK_PARAMREFARRAY or XTOK_QUALIFIER"
    fun p => do
      let p ← qualifiers instance_ XtokMethod.addQualifier p
      many isParam
        (focus (fun _ => ()) (fun _ p => (p.1.addParam p.2.xtokParam, p.2)) methodData) p

def class_ : Production XtokClass :=
  withLocal .CLASS "XTOK_CLASS"
    "ZTOK_CLASS or XTOK_METHOD or XTOK_PROPERTY or XTOK_PROPERTYARRAY or XTOK_PROPERTYREFERENCE or XTOK_QUALIFIER"
    fun p => do
      let p ← qualifiers instance_ XtokClass.addQualifier p
      let p ← properties instance_ XtokClass.addProperty p
      many (· = .X .METHOD) (focus (·.2.xtokMethod) (fun m p => (p.1.addMethod m, .method m)) method) p

end Grammar
end Sfcc.Xml
