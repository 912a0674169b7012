import Sfcc.Xml.Response
import Sfcc.Xml.Tree

-- The trees of a response, with the tokens they are written as and what the productions make of them.
namespace Sfcc.Xml.Tree

inductive ReturnValue
  | value (type : CMPIType) (value : Value)
  | reference (type : CMPIType) (ref : Reference)

inductive ParamValue
  | empty (attr : ParamValueAttr)
  | value (attr : ParamValueAttr) (value : Value)
  | reference (attr : ParamValueAttr) (ref : Reference)
  | array (attr : ParamValueAttr) (values : List Value)
  | refArray (attr : ParamValueAttr) (refs : List Reference)

inductive MethodContent
  | error (error : XtokErrorResp)
  | values (ret : Option ReturnValue) (params : List ParamValue)

inductive ObjectWithPath
  | cls (path : NameSpacePath) (className : Option Text) (cls : Class)
  | inst (path : NameSpacePath) (name : InstanceName) (inst : Instance)

-- The children are all of one kind, and there is only one if it is the value of a property.
inductive ReturnContent
  | classes (classes : List Class)
  | classNames (names : List (Option Text))
  | instances (insts : List Instance)
  | instanceNames (names : List InstanceName)
  | namedInstances (insts : List (InstanceName × Instance))
  | objectPaths (paths : List (NameSpacePath × InstanceName))
  | objectsWithPath (objects : List ObjectWithPath)
  | value (value : Value)
  | valueArray (values : List Value)
  | valueReference (ref : Reference)

inductive IMethodContent
  | error (error : XtokErrorResp)
  | content (content : ReturnContent)

inductive Message
  | method (content : MethodContent)
  | iMethod (content : IMethodContent)
  | indication (inst : Option Instance)

namespace ReturnValue

def yield : ReturnValue → List Tok
  | .value type v       => tagged .RETVALUE type v.yield
  | .reference type ref => tagged .RETVALUE type ref.yield

def xtok : ReturnValue → XtokReturnValue
  | .value type v       => { data := { u := .value v.xtok }, type := type }
  | .reference type ref => { data := { u := .ref ref.xtok, type := .ref }, type := type }

end ReturnValue

namespace ParamValue

def attr : ParamValue → ParamValueAttr
  | .empty a | .value a _ | .reference a _ | .array a _ | .refArray a _ => a

def content : ParamValue → List Tok
  | .empty _         => []
  | .value _ v       => v.yield
  | .reference _ ref => ref.yield
  | .array _ values  => tagged .VALUEARRAY () (Value.yields values)
  | .refArray _ refs => tagged .VALUEREFARRAY () (refs.flatMap Reference.yield)

def yield (p : ParamValue) : List Tok :=
  tagged .PARAMVALUE p.attr p.content

-- What the child is read as, if there is one.
def data : ParamValue → Option XtokParamValueData
  | .empty _         => none
  | .value _ v       => some {
      u    := .value v.xtok
      type := if v.xtok.type = .Instance then .inst else .null }
  | .reference _ ref => some { u := .valueRef ref.xtok, type := .ref }
  | .array _ values  => some { u := .valueArray (.ofList (Value.pointers values)), type := .array }
  | .refArray _ refs => some { u := .valueRefArray (.ofList (refs.map Reference.xtok)), type := .refA }

-- What is recorded when the bytes of the data were `old` before.
def xtok (old : XtokParamValueData) (p : ParamValue) : XtokParamValue :=
  let param : XtokParamValue := { name := p.attr.name, type := p.attr.type, data := old }
  p.data.elim param param.setData

-- The data of an element is what the next one finds.
def xtoks : XtokParamValueData → List ParamValue → List XtokParamValue
  | _, []        => []
  | old, p :: ps => p.xtok old :: xtoks (p.xtok old).data ps

end ParamValue

namespace MethodContent

def yield : MethodContent → List Tok
  | .error e           => tagged .ERROR e []
  | .values ret params => ret.elim [] ReturnValue.yield ++ params.flatMap ParamValue.yield

-- What lies where the data of the first parameter is going to be.
def initial (ret : Option ReturnValue) : XtokParamValueData :=
  ret.elim {} fun ret => { u := .returnValue ret.xtok }

def result (req : Request) (hdr : ResponseHdr) : MethodContent → Except Fault ResponseHdr
  | .error e           => hdr.setError e
  | .values ret params => do
    let hdr ← match ret with
      | none     => pure hdr
      | some ret => pure (hdr.simpleArrayAdd (← returned req ret.xtok))
    hdr.setReturnArgs { values := ParamValue.xtoks (initial ret) params }

end MethodContent

namespace ObjectWithPath

def yield : ObjectWithPath → List Tok
  | .cls path className c => tagged .VALUEOBJECTWITHPATH ()
      (tagged .CLASSPATH () (path.yield ++ tagged .CLASSNAME className []) ++ c.yield)
  | .inst path name i     => tagged .VALUEOBJECTWITHPATH ()
      (tagged .INSTANCEPATH () (path.yield ++ name.yield) ++ i.yield)

-- A class is dropped.
def result (hdr : ResponseHdr) : ObjectWithPath → Except Fault ResponseHdr
  | .cls _ _ _        => return hdr
  | .inst path name i => do
    let path := { path := path.xtok, instanceName := name.xtok }
    return hdr.simpleArrayAdd (← instanceWithPathResult { path := path, inst := i.xtok })

end ObjectWithPath

namespace ReturnContent

def yield : ReturnContent → List Tok
  | .classes l         => l.flatMap Class.yield
  | .classNames l      => l.flatMap (tagged .CLASSNAME · [])
  | .instances l       => l.flatMap Instance.yield
  | .instanceNames l   => l.flatMap InstanceName.yield
  | .namedInstances l  => l.flatMap fun t => tagged .VALUENAMEDINSTANCE () (t.1.yield ++ t.2.yield)
  | .objectPaths l     => l.flatMap fun t =>
      tagged .OBJECTPATH () (tagged .INSTANCEPATH () (t.1.yield ++ t.2.yield))
  | .objectsWithPath l => l.flatMap ObjectWithPath.yield
  | .value v           => v.yield
  | .valueArray values => tagged .VALUEARRAY () (Value.yields values)
  | .valueReference r  => r.yield

-- Adds what is made of each element.
def add {T : Type} (f : T → Except Fault (CMPIValue × CMPIType)) (hdr : ResponseHdr) (l : List T) :
    Except Fault ResponseHdr :=
  l.foldlM (fun hdr t => return hdr.simpleArrayAdd (← f t)) hdr

def result (req : Request) (hdr : ResponseHdr) : ReturnContent → Except Fault ResponseHdr
  | .classes l         => add (fun c => classResult c.xtok) hdr l
  | .classNames l      => add (fun n => classNameResult { value := n }) hdr l
  | .instances l       => add (fun i => instanceResult req i.xtok) hdr l
  | .instanceNames l   => add (fun n => instanceNameResult n.xtok) hdr l
  | .namedInstances l  =>
    add (fun t => namedInstanceResult req { path := t.1.xtok, instance_ := t.2.xtok }) hdr l
  | .objectPaths l     =>
    add (fun t => objectPathResult { path := { path := t.1.xtok, instanceName := t.2.xtok } }) hdr l
  | .objectsWithPath l => l.foldlM ObjectWithPath.result hdr
  | .value v           => do return hdr.simpleArrayAdd (← propertyResult req v.xtok)
  | .valueArray _      => return hdr
  | .valueReference _  => return hdr

end ReturnContent

namespace IMethodContent

def yield : IMethodContent → List Tok
  | .error e   => tagged .ERROR e []
  | .content c => tagged .IRETVALUE () c.yield

def result (req : Request) (hdr : ResponseHdr) : IMethodContent → Except Fault ResponseHdr
  | .error e   => hdr.setError e
  | .content c => c.result req hdr

end IMethodContent

namespace Message

def yield : Message → List Tok
  | .method content  => tagged .SIMPLERSP () (tagged .METHODRESP () content.yield)
  | .iMethod content => tagged .SIMPLERSP () (tagged .IMETHODRESP () content.yield)
  | .indication inst => tagged .SIMPLEEXPREQ ()
      (tagged .EXPMETHODCALL () (tagged .EXPPARAMVALUE () (inst.elim [] Instance.yield)))

def document (m : Message) : List Tok :=
  tagged .XML () [] ++ tagged .CIM () (tagged .MESSAGE () m.yield)

def result (req : Request) (hdr : ResponseHdr) : Message → Except Fault ResponseHdr
  | .method content  => content.result req hdr
  | .iMethod content => content.result req hdr
  | .indication inst =>
    inst.elim (return hdr) fun inst => do return hdr.simpleArrayAdd (← exported req inst.xtok)

end Message

end Sfcc.Xml.Tree
