import Sfcc.Xml.Grammar

-- The trees of the grammar, with the tokens they are written as and the structures they stand for.
namespace Sfcc.Xml.Tree

-- The components of a name space are joined by slashes.
def joined : List Text → Option Text
  | []           => none
  | name :: rest => some (rest.foldl (fun path name => path ++ bytes "/" ++ name) name)

structure NameSpacePath where
  host  : Option Text
  names : List Text

mutual

inductive InstanceName
  | mk (className : Option Text) (bindings : List KeyBinding)

inductive KeyBinding
  | keyValue (name : Option Text) (value : XtokKeyValue)
  | reference (name : Option Text) (ref : Reference)

inductive Reference
  | instancePath (path : NameSpacePath) (name : InstanceName)
  | localInstancePath (path : List Text) (name : InstanceName)
  | instanceName (name : InstanceName)

end

mutual

inductive Instance
  | mk (className : Option Text) (qualifiers : List Qualifier) (properties : List Property)

-- The text of a `VALUE` with a `CDATA` section is what stands in front of the section.
inductive Value
  | text (text : Option Text)
  | cdata (text : Option Text) (inst : Instance)

inductive Qualifier
  | empty (attr : QualifierAttr)
  | value (attr : QualifierAttr) (value : Value)
  | array (attr : QualifierAttr) (values : List Value)

inductive Property
  | value (attr : PropertyAttr) (qualifiers : List Qualifier) (value : Option Value)
  | array (attr : PropertyAttr) (qualifiers : List Qualifier) (values : Option (List Value))
  | reference (attr : PropertyAttr) (qualifiers : List Qualifier) (ref : Option Reference)

end

inductive Param
  | param (attr : ParamAttr) (qualifiers : List Qualifier)
  | paramRef (attr : ParamAttr) (qualifiers : List Qualifier)
  | paramArray (attr : ParamAttr) (qualifiers : List Qualifier)
  | paramRefArray (attr : ParamAttr) (qualifiers : List Qualifier)

structure Method where
  attr       : MethodAttr
  qualifiers : List Qualifier
  params     : List Param

structure Class where
  attr       : ClassAttr
  qualifiers : List Qualifier
  properties : List Property
  methods    : List Method

-- An element around the tokens of its content.
def tagged (tag : Tag) (payload : Payload tag) (content : List Tok) : List Tok :=
  .X tag payload :: (content ++ [.Z tag])

namespace NameSpacePath

def yieldLocal (names : List Text) : List Tok :=
  tagged .LOCALNAMESPACEPATH () (names.flatMap fun name => tagged .NAMESPACE (some name) [])

def yield (p : NameSpacePath) : List Tok :=
  tagged .NAMESPACEPATH () (tagged .HOST p.host [] ++ yieldLocal p.names)

def xtok (p : NameSpacePath) : XtokNameSpacePath where
  host          := { host := p.host }
  nameSpacePath := { value := joined p.names }

end NameSpacePath

mutual

def InstanceName.yield : InstanceName → List Tok
  | .mk className bindings => tagged .INSTANCENAME className (KeyBinding.yields bindings)

def KeyBinding.yields : List KeyBinding → List Tok
  | []      => []
  | b :: bs => b.yield ++ KeyBinding.yields bs

def KeyBinding.yield : KeyBinding → List Tok
  | .keyValue name value => tagged .KEYBINDING name (tagged .KEYVALUE value [])
  | .reference name ref  => tagged .KEYBINDING name (tagged .VALUEREFERENCE () ref.content)

def Reference.content : Reference → List Tok
  | .instancePath path name      => tagged .INSTANCEPATH () (path.yield ++ name.yield)
  | .localInstancePath path name =>
    tagged .LOCALINSTANCEPATH () (NameSpacePath.yieldLocal path ++ name.yield)
  | .instanceName name           => name.yield

end

def Reference.yield (ref : Reference) : List Tok :=
  tagged .VALUEREFERENCE () ref.content

mutual

def InstanceName.xtok : InstanceName → XtokInstanceName
  | .mk className bindings => { className := className, bindings := KeyBinding.xtoks bindings }

def KeyBinding.xtoks : List KeyBinding → List (XtokKeyBinding XtokInstanceName)
  | []      => []
  | b :: bs => b.xtok :: KeyBinding.xtoks bs

def KeyBinding.xtok : KeyBinding → XtokKeyBinding XtokInstanceName
  | .keyValue name value => {
      name := name
      type := value.valueType
      val  := { u := .keyValue value, type := value.valueType } }
  | .reference name ref  => {
      name := name
      type := bytes "ref"
      val  := { u := .ref ref.xtok, type := bytes "ref" } }

def Reference.xtok : Reference → XtokValueReference XtokInstanceName
  | .instancePath path name      => {
      data.u    := .instancePath { path := path.xtok, instanceName := name.xtok }
      data.type := .InstancePath
      type      := .InstancePath }
  | .localInstancePath path name => {
      data.u    := .localInstancePath
        { path := { value := joined path }, instanceName := name.xtok }
      data.type := .LocalInstancePath
      type      := .LocalInstancePath }
  | .instanceName name           => {
      data.u    := .instanceName name.xtok
      data.type := .InstanceName
      type      := .InstanceName }

end

mutual

def Instance.yield : Instance → List Tok
  | .mk className qualifiers properties =>
    tagged .INSTANCE className (Qualifier.yields qualifiers ++ Property.yields properties)

def Value.yield : Value → List Tok
  | .text text       => tagged .VALUE text []
  | .cdata text inst => tagged .VALUE text (tagged .CDATA () inst.yield)

def Value.yields : List Value → List Tok
  | []      => []
  | v :: vs => v.yield ++ Value.yields vs

def Qualifier.yield : Qualifier → List Tok
  | .empty attr        => tagged .QUALIFIER attr []
  | .value attr value  => tagged .QUALIFIER attr value.yield
  | .array attr values => tagged .QUALIFIER attr (tagged .VALUEARRAY () (Value.yields values))

def Qualifier.yields : List Qualifier → List Tok
  | []      => []
  | q :: qs => q.yield ++ Qualifier.yields qs

def Property.yield : Property → List Tok
  | .value attr qualifiers value     =>
    tagged .PROPERTY attr (Qualifier.yields qualifiers ++ Property.yieldValue value)
  | .array attr qualifiers values    =>
    tagged .PROPERTYARRAY attr (Qualifier.yields qualifiers ++ Property.yieldArray values)
  | .reference attr qualifiers ref =>
    tagged .PROPERTYREFERENCE attr (Qualifier.yields qualifiers ++ ref.elim [] Reference.yield)

def Property.yieldValue : Option Value → List Tok
  | none   => []
  | some v => v.yield

def Property.yieldArray : Option (List Value) → List Tok
  | none    => []
  | some vs => tagged .VALUEARRAY () (Value.yields vs)

def Property.yields : List Property → List Tok
  | []      => []
  | p :: ps => p.yield ++ Property.yields ps

end

mutual

def Instance.xtok : Instance → XtokInstance
  | .mk className qualifiers properties => {
      className  := className
      properties := Property.xtoks properties
      qualifiers := Qualifier.xtoks qualifiers }

def Value.pointer : Value → XtokPointer XtokInstance
  | .text text    => .value text
  | .cdata _ inst => .inst inst.xtok

def Value.pointers : List Value → List (XtokPointer XtokInstance)
  | []      => []
  | v :: vs => v.pointer :: Value.pointers vs

def Value.xtok : Value → XtokValue XtokInstance
  | .text text    => { data.ptr := .value text, data.type := .charP, type := .charP }
  | .cdata _ inst => { data.ptr := .inst inst.xtok, data.type := .Instance, type := .Instance }

def Qualifier.xtok : Qualifier → XtokQualifier XtokInstance
  | .empty attr        => .lexed attr
  | .value attr value  =>
    { (.lexed attr : XtokQualifier XtokInstance) with data := { u := .value value.xtok, isArray := false } }
  | .array attr values =>
    { (.lexed attr : XtokQualifier XtokInstance) with
      type := attr.type ||| CMPIType.array
      data := { u := .array (.ofList (Value.pointers values)), isArray := true } }

def Qualifier.xtoks : List Qualifier → List (XtokQualifier XtokInstance)
  | []      => []
  | q :: qs => q.xtok :: Qualifier.xtoks qs

def Property.xtok : Property → XtokProperty XtokInstance
  | .value attr qualifiers value   =>
    { (.lexed attr .Value : XtokProperty XtokInstance) with
      valueType := if Property.isInstance value then CMPIType.inst else attr.valueType
      val       := { u := Property.valueUnion value, qualifiers := Qualifier.xtoks qualifiers } }
  | .array attr qualifiers values  =>
    { (.lexed attr .Array : XtokProperty XtokInstance) with
      val := { u := Property.arrayUnion values, qualifiers := Qualifier.xtoks qualifiers } }
  | .reference attr qualifiers ref =>
    { (.lexed attr .Reference : XtokProperty XtokInstance) with
      val := {
        u          := ref.elim (.value {}) fun ref => .ref ref.xtok
        qualifiers := Qualifier.xtoks qualifiers } }

def Property.isInstance : Option Value → Bool
  | some (.cdata _ _) => true
  | _                 => false

def Property.valueUnion : Option Value → XtokPropertyUnion XtokInstance
  | none   => .value {}
  | some v => .value v.xtok

def Property.arrayUnion : Option (List Value) → XtokPropertyUnion XtokInstance
  | none    => .value {}
  | some vs => .array (.ofList (Value.pointers vs))

def Property.xtoks : List Property → List (XtokProperty XtokInstance)
  | []      => []
  | p :: ps => p.xtok :: Property.xtoks ps

end

namespace Param

def yield : Param → List Tok
  | .param attr qualifiers         => tagged .PARAM attr (Qualifier.yields qualifiers)
  | .paramRef attr qualifiers      => tagged .PARAMREF attr (Qualifier.yields qualifiers)
  | .paramArray attr qualifiers    => tagged .PARAMARRAY attr (Qualifier.yields qualifiers)
  | .paramRefArray attr qualifiers => tagged .PARAMREFARRAY attr (Qualifier.yields qualifiers)

def xtok : Param → XtokParam
  | .param attr _         => .lexed attr .PARAM
  | .paramRef attr _      => .lexed attr .PARAMREF
  | .paramArray attr _    => .lexed attr .PARAMARRAY
  | .paramRefArray attr _ => .lexed attr .PARAMREFARRAY

end Param

def Method.yield (m : Method) : List Tok :=
  tagged .METHOD m.attr (Qualifier.yields m.qualifiers ++ m.params.flatMap Param.yield)

def Method.xtok (m : Method) : XtokMethod :=
  { XtokMethod.lexed m.attr with
    qualifiers := Qualifier.xtoks m.qualifiers
    params     := m.params.map Param.xtok }

def Class.yield (c : Class) : List Tok :=
  tagged .CLASS c.attr
    (Qualifier.yields c.qualifiers ++ (Property.yields c.properties ++ c.methods.flatMap Method.yield))

def Class.xtok (c : Class) : XtokClass where
  className  := c.attr.name
  superClass := c.attr.superClass
  properties := Property.xtoks c.properties
  qualifiers := Qualifier.xtoks c.qualifiers
  methods    := c.methods.map Method.xtok

end Sfcc.Xml.Tree
