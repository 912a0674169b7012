import Sfcc.Xml.Convert
import Sfcc.Xml.Grammar

open Descent

namespace Sfcc.Xml

-- What a response leaves for the client.
structure ResponseHdr where
  errCode     : Int32 := 0
  description : Option Text := none
  rvArray     : CMPIArray := newCMPIArray 0 .null
  outArgs     : Option CMPIArgs := none

-- The tokens only write an `id` to it, which nothing reads.
instance : Store Tok ResponseHdr where
  store _ su := su

-- `atoi` goes through `strtol`, which has 64 bits here.
def atoi (t : Text) : Int32 :=
  (scanNumber t).elim 0 fun s => .ofInt (strtoll s.1 s.2)

namespace ResponseHdr

def setError (hdr : ResponseHdr) (e : XtokErrorResp) : Except Fault ResponseHdr := do
  return { hdr with
    errCode     := atoi (← deref e.code)
    description := XmlToAsciiStr (← deref e.description) }

def setReturnArgs (hdr : ResponseHdr) (resp : XtokMethodRespContent) : Except Fault ResponseHdr :=
  if resp.values.isEmpty then return hdr
  else return { hdr with outArgs := ← Xml.setReturnArgs resp.values }

def simpleArrayAdd (hdr : ResponseHdr) (v : CMPIValue × CMPIType) : ResponseHdr :=
  { hdr with rvArray := hdr.rvArray.simpleAdd v.1 v.2 }

end ResponseHdr

-- `requestObjectPath`, and the text that is read where the bytes of an `XtokInstance` are taken for
-- one.
structure Request where
  objectPath : Option CMPIObjectPath := none
  bytesOf    : XtokInstance → Text

def Request.nameSpace (req : Request) : Option Text :=
  req.objectPath.bind (·.nameSpace)

-- What the productions make of the elements they add to `rvArray`.

section

variable (req : Request)

def instanceIn (ns : Option Text) (i : XtokInstance) : Except Fault CMPIInstance :=
  setInstProperties (NativeInstance.setNsAndCn {} ns i.className) i.properties

-- `str2CMPIValue` without a reference, which is where the array of an array type would be.
def str2CMPIValueOf (type : CMPIType) (val : Option Text) : Except Fault CMPIValue :=
  if type.isArray then throw .null else str2CMPIText type val

def XtokPointer.text : XtokPointer XtokInstance → Option Text
  | .value text => text
  | .inst i     => req.bytesOf i

def returned (ret : XtokReturnValue) : Except Fault (CMPIValue × CMPIType) :=
  if ret.data.type = .ref then do
    return (.ref (← referencePath ret.data.u.asRef), .ref)
  else match ret.data.u.asValue with
    | ⟨⟨.inst i, _⟩, .Instance⟩ => return (.inst (← instanceIn req.nameSpace i), .inst)
    | v                        => do
      let text := v.data.ptr.text req
      let t ← if ret.type = .null then guessType <$> deref text else pure ret.type
      return (← str2CMPIValueOf t text, t)

def exported (i : XtokInstance) : Except Fault (CMPIValue × CMPIType) := do
  return (.inst (← instanceIn req.nameSpace i), .inst)

def classResult (c : XtokClass) : Except Fault (CMPIValue × CMPIType) := do
  let cls ← newCMPIConstClass c.className
  let cls ← setClassQualifiers cls c.qualifiers
  let cls ← setClassProperties cls c.properties
  return (.cls (← setClassMethods cls c.methods), .cls)

def classNameResult (n : XtokClassName) : Except Fault (CMPIValue × CMPIType) :=
  return (.ref (newCMPIObjectPath none n.value), .ref)

def instanceResult (i : XtokInstance) : Except Fault (CMPIValue × CMPIType) := do
  return (.inst (← setInstProperties (← newCMPIInstance req.objectPath) i.properties), .inst)

def instanceNameResult (n : XtokInstanceName) : Except Fault (CMPIValue × CMPIType) := do
  return (.ref (← createPath n), .ref)

def namedInstanceResult (n : XtokNamedInstance) : Except Fault (CMPIValue × CMPIType) := do
  let op := (← createPath n.path).setNameSpace req.nameSpace
  return (.inst (← setInstProperties (← newCMPIInstance op) n.instance_.properties), .inst)

def pathOf (p : XtokInstancePath XtokInstanceName) : Except Fault CMPIObjectPath := do
  return ((← createPath p.instanceName).setNameSpace p.path.nameSpacePath.value).setHostname
    p.path.host.host

def objectPathResult (p : XtokObjectPath) : Except Fault (CMPIValue × CMPIType) := do
  return (.ref (← pathOf p.path), .ref)

def instanceWithPathResult (i : XtokInstanceWithPath) : Except Fault (CMPIValue × CMPIType) := do
  let inst ← setInstQualifiers (← newCMPIInstance (← pathOf i.path)) i.inst.qualifiers
  return (.inst (← setInstProperties inst i.inst.properties), .inst)

def propertyResult (v : XtokValue XtokInstance) : Except Fault (CMPIValue × CMPIType) := do
  let text := v.data.ptr.text req
  let t := guessType (← deref text)
  return (← str2CMPIValueOf t text, t)

end

-- Adds what was made of the structure that was filled last.
def addResult {σ : Type} (result : σ → Except Fault (CMPIValue × CMPIType)) (p : ResponseHdr × σ) :
    Except Fault (ResponseHdr × σ) := do
  return (p.1.simpleArrayAdd (← result p.2), p.2)

namespace Grammar

-- An element around another production on the same structure.
def around {σ : Type} [Store Tok σ] (tag : Tag) (expOpening expClosing : String)
    (p : Production σ) : Production σ :=
  bare tag expOpening expClosing <| focus (·.1) (fun su p => (su, p.2)) p

def error : Production (ResponseHdr × XtokErrorResp) :=
  bare .ERROR "XTOK_ERROR" "ZTOK_ERROR" <|
    act fun p => return ((← p.1.1.setError p.1.2, p.1.2), p.2)

def returnValueData : Production XtokReturnValueData :=
  choice <|
    arm (· = .X .VALUE)
      (focus (·.u.asValue) (fun v d => { d with u := .value v }) (value instance_)) <|
    arm (· = .X .VALUEREFERENCE)
      (focus (·.u.asRef) (fun r _ => { u := .ref r, type := .ref }) (valueReference instanceName)) <|
    fun _ => parseError "XTOK_VALUE or XTOK_VALUEREFERENCE"

def paramValueData : Production XtokParamValueData :=
  choice <|
    arm (· = .X .VALUE)
      (focus (·.u.asValue)
        (fun v d => { u := .value v, type := if v.type = .Instance then .inst else d.type })
        (value instance_)) <|
    arm (· = .X .VALUEREFERENCE)
      (focus (·.u.asValueRef) (fun r _ => { u := .valueRef r, type := .ref })
        (valueReference instanceName)) <|
    arm (· = .X .VALUEARRAY)
      (focus (·.u.asValueArray) (fun a d => { u := .valueArray a, type := d.type ||| .array })
        (valueArray instance_)) <|
    arm (· = .X .VALUEREFARRAY)
      (focus (·.u.asValueRefArray) (fun a _ => { u := .valueRefArray a, type := .refA })
        valueRefArray) <|
    fun _ => parseError "XTOK_VALUE or XTOK_VALUEREFERENCE or XTOK_VALUEARRAY or XTOK_VALUEREFARRAY"

-- Of its local union, only the data of a parameter is used.
def paramValue : Production XtokParamValue :=
  element (.X .PARAMVALUE) (.Z .PARAMVALUE) "XTOK_PARAMVALUE"
    "ZTOK_PARAMVALUE or XTOK_VALUE or XTOK_VALUEREFERENCE or XTOK_VALUEARRAY or XTOK_VALUEREFARRAY"
    ({} : XtokParamValueData) <|
    optional (· ∈ [.X .VALUE, .X .VALUEREFERENCE, .X .VALUEARRAY, .X .VALUEREFARRAY]) <|
      focus (·.2) (fun d p => (p.1.setData d, d)) paramValueData

def classWithPath : Production XtokClassWithPath :=
  choice <|
    arm (· = .X .CLASSPATH)
      (fun su => do
        let su ← focus (·.path) (fun path su => { su with path := path }) classPath su
        focus (·.cls) (fun cls su => { su with cls := cls }) class_ su) <|
    fun _ => parseError "XTOK_CLASSPATH or XTOK_CLASS"

def instanceWithPath : Production XtokInstanceWithPath :=
  choice <|
    arm (· = .X .INSTANCEPATH)
      (fun su => do
        let su ← focus (·.path) (fun path su => { su with path := path })
          (instancePath instanceName) su
        focus (·.inst) (fun inst su => { su with inst := inst }) instance_ su) <|
    fun _ => parseError "XTOK_INSTANCEPATH or XTOK_INSTANCE"

def valueNamedInstance : Production XtokNamedInstance :=
  bare .VALUENAMEDINSTANCE "XTOK_VALUENAMEDINSTANCE" "ZTOK_VALUENAMEDINSTANCE" fun p => do
    let p ← focus (·.1.path) (fun path p => ({ p.1 with path := path }, p.2)) instanceName p
    focus (·.1.instance_) (fun inst p => ({ p.1 with instance_ := inst }, p.2)) instance_ p

-- A class is parsed and dropped.
def valueObjectWithPathData : Production (ResponseHdr × XtokObjectWithPathData) :=
  choice <|
    arm (· = .X .CLASSPATH)
      (focus (·.2.u.asCls) (fun c p => (p.1, { u := .cls c, type := 1 })) classWithPath) <|
    arm (· = .X .INSTANCEPATH)
      (fun p => do
        let p ← focus (·.2.u.asInst) (fun i p => (p.1, { u := .inst i, type := 0 })) instanceWithPath p
        act (addResult fun d => instanceWithPathResult d.u.asInst) p) <|
    fun _ => parseError "XTOK_CLASSPATH or XTOK_INSTANCEPATH"

def valueObjectWithPath : Production (ResponseHdr × XtokObjectWithPath) :=
  bare .VALUEOBJECTWITHPATH "XTOK_VALUEOBJECTWITHPATH" "ZTOK_VALUEOBJECTWITHPATH" <|
    focus (fun p => (p.1.1, p.1.2.object))
      (fun d p => ((d.1, { object := d.2, type := d.2.type }), p.2)) valueObjectWithPathData

section Response

variable (req : Request)

def returnValue : Production (ResponseHdr × XtokReturnValue) :=
  bare .RETVALUE "XTOK_RETVALUE" "ZTOK_RETVALUE" fun p => do
    let p ← focus (·.1.2.data) (fun d p => ((p.1.1, { p.1.2 with data := d }), p.2))
      returnValueData p
    act (fun p => return (← addResult (returned req) p.1, p.2)) p

-- Fills the response beside its local union.
def methodRespContent : Production (ResponseHdr × XtokMethodRespContent × ParseUnion) :=
  choice <|
    arm (· = .X .ERROR)
      (focus (fun p => (p.1, p.2.2.xtokErrorResp)) (fun d p => (d.1, p.2.1, .errorResp d.2)) error) <|
    arm (· ∈ [.X .RETVALUE, .X .PARAMVALUE])
      (fun p => do
        let p ← optional (· = .X .RETVALUE)
          (focus (fun p => (p.1, p.2.2.xtokReturnValue))
            (fun d p => (d.1, p.2.1, .returnValue d.2)) (returnValue req)) p
        many (· = .X .PARAMVALUE)
          (focus (·.2.2.xtokParamValue)
            (fun v p => (p.1, p.2.1.addParamValue v, .paramValue v)) paramValue) p) <|
    arm (· = .Z .METHODRESP) (fun p => pure p) <|
    fun _ => parseError "XTOK_ERROR or XTOK_RETVALUE or XTOK_PARAMVALUE or ZTOK_METHODRESP"

-- An element of `rvArray` for each of the elements of one kind.
def results {σ : Type} [Store Tok σ] (tag : Tag) (get : ParseUnion → σ) (set : σ → ParseUnion)
    (p : Production σ) (result : σ → Except Fault (CMPIValue × CMPIType)) :
    Production (ResponseHdr × ParseUnion) :=
  loop (· = .X tag) fun su => do
    let su ← focus (fun su => get su.2) (fun x su => (su.1, set x)) p su
    act (addResult fun u => result (get u)) su

def getPropertyRetValue : Production (ResponseHdr × ParseUnion) :=
  choice <|
    arm (· = .X .VALUE)
      (fun p => do
        let p ← focus (·.2.xtokValue) (fun v p => (p.1, .value v)) (value instance_) p
        act (addResult fun u => propertyResult req u.xtokValue) p) <|
    arm (· = .X .VALUEARRAY)
      (focus (·.2.xtokValueArray) (fun a p => (p.1, .valueArray a)) (valueArray instance_)) <|
    arm (· = .X .VALUEREFERENCE)
      (focus (·.2.xtokValueReference) (fun r p => (p.1, .valueReference r))
        (valueReference instanceName)) <|
    fun _ => parseError "XTOK_VALUE or XTOK_VALUEARRAY or XTOK_VALUEREFERENCE"

def iReturnValueContent : Production (ResponseHdr × ParseUnion) :=
  choice <|
    arm (· = .X .CLASS) (results .CLASS (·.xtokClass) .cls class_ classResult) <|
    arm (· = .X .CLASSNAME)
      (results .CLASSNAME (·.xtokClassName) .className className classNameResult) <|
    arm (· = .X .INSTANCE)
      (results .INSTANCE (·.xtokInstance) .inst instance_ (instanceResult req)) <|
    arm (· = .X .INSTANCENAME)
      (results .INSTANCENAME (·.xtokInstanceName) .instanceName instanceName instanceNameResult) <|
    arm (· = .X .VALUENAMEDINSTANCE)
      (results .VALUENAMEDINSTANCE (·.xtokNamedInstance) .namedInstance valueNamedInstance
        (namedInstanceResult req)) <|
    arm (· = .X .OBJECTPATH)
      (results .OBJECTPATH (·.xtokObjectPath) .objectPath objectPath objectPathResult) <|
    arm (· = .X .VALUEOBJECTWITHPATH)
      (loop (· = .X .VALUEOBJECTWITHPATH) <|
        focus (fun p => (p.1, p.2.xtokObjectWithPath)) (fun d _ => (d.1, .objectWithPath d.2))
          valueObjectWithPath) <|
    arm (· ∈ [.X .VALUE, .X .VALUEARRAY, .X .VALUEREFERENCE]) (getPropertyRetValue req) <|
    arm (· = .Z .IRETVALUE) (fun p => pure p) <|
    fun _ => parseError
      "XTOK_CLASS or XTOK_CLASSNAME or XTOK_INSTANCE or XTOK_INSTANCENAME or XTOK_VALUENAMEDINSTANCE or XTOK_OBJECTPATH or XTOK_VALUEOBJECTWITHPATH or XTOK_VALUE or ZTOK_IRETVALUE"

def iReturnValue : Production ResponseHdr :=
  withLocal .IRETVALUE "XTOK_IRETVALUE" "ZTOK_IRETVALUE" (iReturnValueContent req)

def iMethodRespContent : Production (ResponseHdr × ParseUnion) :=
  choice <|
    arm (· = .X .ERROR)
      (focus (fun p => (p.1, p.2.xtokErrorResp)) (fun d _ => (d.1, .errorResp d.2)) error) <|
    arm (· = .X .IRETVALUE) (focus (·.1) (fun hdr p => (hdr, p.2)) (iReturnValue req)) <|
    fun _ => parseError "XTOK_ERROR or XTOK_IRETVALUE"

def exParamValue : Production ResponseHdr :=
  withLocal .EXPPARAMVALUE "XTOK_EP_INSTANCE" "ZTOK_EXPPARAMVALUE or XTOK_INSTANCE" <|
    optional (· = .X .INSTANCE) fun p => do
      let p ← focus (·.2.xtokInstance) (fun i p => (p.1, .inst i)) instance_ p
      act (addResult fun u => exported req u.xtokInstance) p

def exportIndication : Production ResponseHdr :=
  around .EXPMETHODCALL "XTOK_EXPORTINDICATION" "ZTOK_EXPMETHODCALL" (exParamValue req)

-- `METHODRESP` clears the member of `stateUnion` that is filled here. The token that decides is
-- pushed back for the element it opens.
def simpleRspContent : Production ResponseHdr :=
  choice <|
    arm (· = .X .METHODRESP)
      (element (.X .METHODRESP) (.Z .METHODRESP) "XTOK_METHODRESP" "ZTOK_METHODRESP" ({}, .zero)
        fun p => do
          let p ← methodRespContent req p
          act (fun p => return (← p.1.setReturnArgs p.2.1, p.2)) p) <|
    arm (· = .X .IMETHODRESP)
      (withLocal .IMETHODRESP "XTOK_IMETHODRESP" "ZTOK_IMETHODRESP" (iMethodRespContent req)) <|
    fun _ => parseError "XTOK_METHODRESP"

def messageContent : Production ResponseHdr :=
  choice <|
    arm (· = .X .SIMPLERSP)
      (around .SIMPLERSP "XTOK_SIMPLERSP" "ZTOK_SIMPLERSP" (simpleRspContent req)) <|
    arm (· = .X .SIMPLEEXPREQ)
      (around .SIMPLEEXPREQ "XTOK_SIMPLEEXPREQ" "ZTOK_SIMPLEEXPREQ" (exportIndication req)) <|
    fun _ => parseError "XTOK_SIMPLERSP"

def message : Production ResponseHdr :=
  around .MESSAGE "XTOK_MESSAGE" "ZTOK_MESSAGE" (messageContent req)

def cim : Production ResponseHdr :=
  around .CIM "XTOK_CIM" "ZTOK_CIM" (message req)

def start : Production ResponseHdr := fun hdr => do
  let hdr ← bare .XML "XTOK_XML" "ZTOK_XML" pure hdr
  cim req hdr

end Response
end Grammar

-- The response that is parsed from what `sfccLex` returns.
def scanResponse (req : Request) (ts : List Tok) : Except (Failure Tok Fault) ResponseHdr :=
  (Grammar.start req {} ⟨ts, .none, false⟩).map Prod.fst

end Sfcc.Xml
