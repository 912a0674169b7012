import Mathlib.Data.List.DropRight
import Sfcc.Xml.Convert
import Sfcc.Xml.Token

namespace Sfcc

def isalpha (b : UInt8) : Bool :=
  65 ≤ b ∧ b ≤ 90 ∨ 97 ≤ b ∧ b ≤ 122

def isalnum (b : UInt8) : Bool :=
  isalpha b ∨ isdigit b

namespace Xml

-- Where a text occurs first.
def strstr (s : Text) : Text → Option Text
  | []     => none
  | c :: t => if s.isPrefixOf (c :: t) then some (c :: t) else strstr s t

-- What ends a run in the lexer: `Throw`, an access outside of the buffer, a cursor that does not point
-- into it, or `NULL` where a text is read.
inductive LexEnd
  | exit
  | outside
  | lost
  | null
  deriving DecidableEq, Repr

-- The bytes before the cursor, from the last to the first, and the ones from the cursor on, without
-- the NUL at `last`.
structure XmlBuffer where
  before     : Text := []
  rest       : Text
  nulledChar : Bool := false
  eTagFound  : Bool := false
  etag       : Tok := .none

def newXmlBuffer (s : Text) : XmlBuffer where
  rest := s

-- `*xb->cur <= ' '`, where `char` is signed.
def isWS (b : UInt8) : Bool :=
  b ≤ 32 ∨ 128 ≤ b

def trimmed (t : Text) : Text :=
  (t.dropWhile isWS).rdropWhile isWS

namespace XmlBuffer

def advance (n : ℕ) (xb : XmlBuffer) : XmlBuffer :=
  { xb with before := (xb.rest.take n).reverse ++ xb.before, rest := xb.rest.drop n }

def skipWS (xb : XmlBuffer) : XmlBuffer :=
  xb.advance (xb.rest.takeWhile isWS).length

-- `getChar` for a text of one byte.
def getChars (s : Text) (xb : XmlBuffer) : Option XmlBuffer :=
  if s.isPrefixOf xb.rest then some (xb.advance s.length) else none

def nextTag (xb : XmlBuffer) : Option Text × XmlBuffer :=
  if xb.nulledChar then (some xb.rest.tail, { xb with nulledChar := false })
  else
    let xb := xb.skipWS
    if xb.rest.head? = some 60 then (some xb.rest.tail, xb) else (none, xb)

-- The byte behind the tag is read as well.
def skipTag (xb : XmlBuffer) : Except LexEnd XmlBuffer :=
  let n := (xb.rest.takeWhile (· ≠ 62)).length
  if n < xb.rest.length then return xb.advance (n + 1) else throw .outside

def getWord (w : Text) (xCase : Bool) (xb : XmlBuffer) : Option XmlBuffer :=
  let word := xb.rest.take w.length
  if (if xCase then word = w else sameIgnoringCase word w) ∧ ¬ (xb.rest.drop w.length).head?.any isalnum then
    some (xb.advance w.length)
  else none

-- Behind a `<` that was overwritten there is nothing to go back to.
def tagEquals (t : Text) (xb : XmlBuffer) : Except LexEnd (Option XmlBuffer) :=
  match xb.rest with
  | []     => throw .outside
  | 0 :: _ => (((xb.advance 1).skipWS.skipWS.getWord t true).elim (throw .lost) fun xb => return some xb)
  | _      => return (xb.skipWS.getChars [60]).bind fun xb => xb.skipWS.getWord t true

-- Nothing ends the search for the quote that closes the value.
def getValue (xb : XmlBuffer) : Except LexEnd (Option Text × XmlBuffer) :=
  let xb := xb.skipWS
  match xb.rest with
  | []          => return (none, xb)
  | dlm :: rest =>
    if dlm = 34 ∨ dlm = 39 then
      let value := rest.takeWhile (· ≠ dlm)
      if value.length < rest.length then
        return (some value, { xb with
          before := 0 :: (value.reverse ++ dlm :: xb.before)
          rest   := rest.drop (value.length + 1) })
      else throw .outside
    else return (none, xb)

end XmlBuffer

-- An attribute an element can have, whether it was there, and its value.
structure XmlAttr where
  name : Text
  seen : Bool := false
  attr : Option Text := none

namespace XmlBuffer

-- The first attribute that was not there yet and whose name is next.
def attrOk : List XmlAttr → XmlBuffer → Except LexEnd (List XmlAttr × XmlBuffer)
  | [], _       => throw .exit
  | a :: as, xb =>
    match if a.seen then none else xb.getWord a.name false with
    | some xb => do
      match xb.skipWS.getChars [61] with
      | some xb =>
        let (value, xb) ← xb.getValue
        return ({ a with seen := true, attr := value } :: as, xb)
      | none    => throw .exit
    | none    => do
      let (as, xb) ← attrOk as xb
      return (a :: as, xb)

-- There are at most as many attributes as the element can have.
def attributes : ℕ → List XmlAttr → XmlBuffer → Except LexEnd (List XmlAttr × XmlBuffer)
  | n, as, xb =>
    let xb := xb.skipWS
    if xb.rest.head?.any isalpha then
      match n with
      | 0     => throw .exit
      | n + 1 => do
        let (as, xb) ← xb.attrOk as
        attributes n as xb
    else return (as, xb)

def attrsOk (elm : List Text) (tag : Text) (etag : Tok) (xb : XmlBuffer) : Except LexEnd ((ℕ → Option Text) × XmlBuffer) := do
  let (as, xb) ← attributes elm.length (elm.map ({ name := · })) { xb with eTagFound := false }
  let attr n := as[n]?.bind (·.attr)
  match xb.getChars (bytes "/>") with
  | some xb => return (attr, { xb with eTagFound := true, etag })
  | none    =>
    match xb.getChars (bytes ">") with
    | some xb => return (attr, xb)
    | none    =>
      match if tag = bytes "?xml" then xb.getChars (bytes "?>") else none with
      | some xb => return (attr, { xb with eTagFound := true, etag })
      | none    => throw .exit

-- The white space before `end` is overwritten, without a test for the beginning of the buffer.
def nullWS : Text → Except LexEnd Text
  | []          => throw .outside
  | c :: before => if c ≠ 0 ∧ isWS c then (0 :: ·) <$> nullWS before else return c :: before

def getContent (xb : XmlBuffer) : Except LexEnd (Option Text × XmlBuffer) := do
  let text := xb.rest.takeWhile (· ≠ 60)
  if xb.eTagFound then return (none, xb)
  else if text = [] then return (some [], xb)
  else
    let xb := xb.advance text.length
    let before ← nullWS xb.before
    match xb.rest with
    | []        => return (some (trimmed text), { xb with before, nulledChar := false })
    | _ :: rest => return (some (trimmed text), { xb with before, rest := 0 :: rest, nulledChar := true })

end XmlBuffer

-- The names of `xmlCmpiTypes`. `chars` never comes out of a name.
def xmlCmpiTypes : List (Text × CMPIType) :=
  [(bytes "boolean", .boolean), (bytes "char16", .char16), (bytes "real32", .real32),
    (bytes "real64", .real64), (bytes "uint8", .uint8), (bytes "uint16", .uint16),
    (bytes "uint32", .uint32), (bytes "uint64", .uint64), (bytes "sint8", .sint8),
    (bytes "sint16", .sint16), (bytes "sint32", .sint32), (bytes "sint64", .sint64),
    (bytes "string", .string), (bytes "string", .chars), (bytes "datetime", .dateTime),
    (bytes "reference", .ref), (bytes "instance", .inst)]

def xmlToCmpiType (xmlTypeStr : Option Text) : CMPIType :=
  (xmlTypeStr.bind fun s => xmlCmpiTypes.find? fun t => sameIgnoringCase s t.1).elim .null (·.2)

def cmpiToXmlType (cmpiType : CMPIType) : Option Text :=
  (xmlCmpiTypes.find? fun t => cmpiType = t.2).map (·.1)

abbrev Proc := XmlBuffer → Except LexEnd (Tok × XmlBuffer)

def isTrue (attr : Option Text) : Bool :=
  attr.any (sameIgnoringCase · (bytes "true"))

-- What the `proc` functions have in common. `0` is returned for another tag.
def procTag (tag : String) (elm : List String) (etag : Tok)
    (token : (ℕ → Option Text) → Proc) (xb : XmlBuffer) : Except LexEnd (Tok × XmlBuffer) := do
  match ← xb.tagEquals (bytes tag) with
  | none    => return (.none, xb)
  | some xb =>
    let (attr, xb) ← xb.attrsOk (elm.map bytes) (bytes tag) etag
    token attr xb

def procElement (tag : String) (elm : List String) (etag : Tok) (token : (ℕ → Option Text) → Tok) :
    Proc :=
  procTag tag elm etag fun attr xb => return (token attr, xb)

def procContent (tag : String) (elm : List String) (etag : Tok)
    (token : (ℕ → Option Text) → Option Text → Tok) : Proc :=
  procTag tag elm etag fun attr xb => do
    let (content, xb) ← xb.getContent
    return (token attr content, xb)

def procXml : Proc :=
  procElement "?xml" ["version", "encoding"] (.Z .XML) fun _ => .X .XML ()

def procCim : Proc :=
  procElement "CIM" ["CIMVERSION", "DTDVERSION"] (.Z .CIM) fun _ => .X .CIM ()

def procMessage : Proc :=
  procElement "MESSAGE" ["ID", "PROTOCOLVERSION"] (.Z .MESSAGE) fun _ => .X .MESSAGE ()

def procSimpleResp : Proc :=
  procElement "SIMPLERSP" [] (.Z .SIMPLERSP) fun _ => .X .SIMPLERSP ()

def procIMethodResp : Proc :=
  procElement "IMETHODRESPONSE" ["NAME"] (.Z .IMETHODRESP) fun _ => .X .IMETHODRESP ()

def procMethodResp : Proc :=
  procElement "METHODRESPONSE" ["NAME"] (.Z .METHODRESP) fun _ => .X .METHODRESP ()

def procErrorResp : Proc :=
  procElement "ERROR" ["CODE", "DESCRIPTION"] (.Z .ERROR) fun attr =>
    .X .ERROR { code := attr 0, description := attr 1 }

def procIRetValue : Proc :=
  procElement "IRETURNVALUE" [] (.Z .IRETVALUE) fun _ => .X .IRETVALUE ()

def procRetValue : Proc :=
  procElement "RETURNVALUE" ["PARAMTYPE", "EMBEDDEDOBJECT"] (.Z .RETVALUE) fun attr =>
    .X .RETVALUE (xmlToCmpiType (attr 0))

def procLocalNameSpacePath : Proc :=
  procElement "LOCALNAMESPACEPATH" [] (.Z .LOCALNAMESPACEPATH) fun _ => .X .LOCALNAMESPACEPATH ()

def procClassPath : Proc :=
  procElement "CLASSPATH" [] (.Z .CLASSPATH) fun _ => .X .CLASSPATH ()

def procLocalClassPath : Proc :=
  procElement "LOCALCLASSPATH" [] (.Z .LOCALCLASSPATH) fun _ => .X .LOCALCLASSPATH ()

def procLocalInstancePath : Proc :=
  procElement "LOCALINSTANCEPATH" [] (.Z .LOCALINSTANCEPATH) fun _ => .X .LOCALINSTANCEPATH ()

def procObjectPath : Proc :=
  procElement "OBJECTPATH" [] (.Z .OBJECTPATH) fun _ => .X .OBJECTPATH ()

def procNameSpace : Proc :=
  procElement "NAMESPACE" ["NAME"] (.Z .NAMESPACE) fun attr => .X .NAMESPACE (attr 0)

-- An embedded object decides the type.
def procParamValue : Proc :=
  procTag "PARAMVALUE" ["NAME", "PARAMTYPE", "EMBEDDEDOBJECT"] (.Z .PARAMVALUE) fun attr xb =>
    let token type := .X .PARAMVALUE { name := attr 0, type }
    match attr 2 with
    | none   => return (token (xmlToCmpiType (attr 1)), xb)
    | some a =>
      if sameIgnoringCase a (bytes "instance") ∨ sameIgnoringCase a (bytes "object") then
        return (token .inst, xb)
      else throw .exit

def procClassName : Proc :=
  procElement "CLASSNAME" ["NAME"] (.Z .CLASSNAME) fun attr => .X .CLASSNAME (attr 0)

def procInstanceName : Proc :=
  procElement "INSTANCENAME" ["CLASSNAME"] (.Z .INSTANCENAME) fun attr => .X .INSTANCENAME (attr 0)

def procKeyBinding : Proc :=
  procElement "KEYBINDING" ["NAME"] (.Z .KEYBINDING) fun attr => .X .KEYBINDING (attr 0)

def procInstance : Proc :=
  procElement "INSTANCE" ["CLASSNAME"] (.Z .INSTANCE) fun attr => .X .INSTANCE (attr 0)

def procClass : Proc :=
  procElement "CLASS" ["NAME", "SUPERCLASS"] (.Z .CLASS) fun attr =>
    .X .CLASS { name := attr 0, superClass := attr 1 }

def procKeyValue : Proc :=
  procContent "KEYVALUE" ["VALUETYPE", "TYPE"] (.Z .KEYVALUE) fun attr val =>
    .X .KEYVALUE { valueType := attr 0, value := val }

def procHost : Proc :=
  procContent "HOST" [] (.Z .HOST) fun _ content => .X .HOST content

def procValue : Proc :=
  procContent "VALUE" [] (.Z .VALUE) fun _ v => .X .VALUE v

def procValueArray : Proc :=
  procElement "VALUE.ARRAY" [] (.Z .VALUEARRAY) fun _ => .X .VALUEARRAY ()

-- Ends as an array of values.
def procValueRefArray : Proc :=
  procElement "VALUE.REFARRAY" [] (.Z .VALUEARRAY) fun _ => .X .VALUEREFARRAY ()

def procValueNamedInstance : Proc :=
  procElement "VALUE.NAMEDINSTANCE" [] (.Z .VALUENAMEDINSTANCE) fun _ => .X .VALUENAMEDINSTANCE ()

def procInstancePath : Proc :=
  procElement "INSTANCEPATH" [] (.Z .INSTANCEPATH) fun _ => .X .INSTANCEPATH ()

def procNameSpacePath : Proc :=
  procElement "NAMESPACEPATH" [] (.Z .NAMESPACEPATH) fun _ => .X .NAMESPACEPATH ()

def procValueReference : Proc :=
  procElement "VALUE.REFERENCE" [] (.Z .VALUEREFERENCE) fun _ => .X .VALUEREFERENCE ()

-- Ends with the token it begins with.
def procValueObjectWithPath : Proc :=
  procElement "VALUE.OBJECTWITHPATH" [] (.X .VALUEOBJECTWITHPATH ()) fun _ =>
    .X .VALUEOBJECTWITHPATH ()

def procQualifier : Proc :=
  procElement "QUALIFIER"
    ["NAME", "TYPE", "PROPAGATED", "OVERRIDABLE", "TOSUBCLASS", "TOINSTANCE", "TRANSLATABLE"]
    (.Z .QUALIFIER) fun attr => .X .QUALIFIER {
      name         := attr 0
      type         := xmlToCmpiType (attr 1)
      propagated   := isTrue (attr 2)
      overridable  := isTrue (attr 3)
      tosubclass   := isTrue (attr 4)
      toinstance   := isTrue (attr 5)
      translatable := isTrue (attr 6) }

-- `EMBEDDEDOBJECT` is not looked at.
def procProperty : Proc :=
  procElement "PROPERTY" ["NAME", "TYPE", "CLASSORIGIN", "PROPAGATED", "EMBEDDEDOBJECT"]
    (.Z .PROPERTY) fun attr => .X .PROPERTY {
      name        := attr 0
      valueType   := xmlToCmpiType (attr 1)
      classOrigin := attr 2
      propagated  := isTrue (attr 3) }

def procPropertyArray : Proc :=
  procElement "PROPERTY.ARRAY"
    ["NAME", "TYPE", "CLASSORIGIN", "PROPAGATED", "ARRAYSIZE", "EMBEDDEDOBJECT"]
    (.Z .PROPERTYARRAY) fun attr => .X .PROPERTYARRAY {
      name        := attr 0
      valueType   := xmlToCmpiType (attr 1)
      classOrigin := attr 2
      propagated  := isTrue (attr 3) }

def procPropertyReference : Proc :=
  procElement "PROPERTY.REFERENCE" ["NAME", "REFERENCECLASS", "CLASSORIGIN", "PROPAGATED"]
    (.Z .PROPERTYREFERENCE) fun attr => .X .PROPERTYREFERENCE {
      name           := attr 0
      referenceClass := attr 1
      classOrigin    := attr 2
      propagated     := isTrue (attr 3) }

def procMethod : Proc :=
  procElement "METHOD" ["NAME", "TYPE", "CLASSORIGIN", "PROPAGATED"] (.Z .METHOD) fun attr =>
    .X .METHOD {
      name        := attr 0
      type        := xmlToCmpiType (attr 1)
      classOrigin := attr 2
      propagated  := isTrue (attr 3) }

def procParam : Proc :=
  procElement "PARAMETER" ["NAME", "TYPE"] (.Z .PARAM) fun attr =>
    .X .PARAM { name := attr 0, type := xmlToCmpiType (attr 1) }

-- Only a type that is stated becomes one of an array.
def procParamArray : Proc :=
  procElement "PARAMETER.ARRAY" ["NAME", "TYPE", "ARRAYSIZE"] (.Z .PARAMARRAY) fun attr =>
    .X .PARAMARRAY {
      name      := attr 0
      type      := (attr 1).elim CMPIType.null fun t => xmlToCmpiType t ||| CMPIType.array
      arraySize := attr 2 }

def procParamRef : Proc :=
  procElement "PARAMETER.REFERENCE" ["NAME", "REFERENCECLASS"] (.Z .PARAMREF) fun attr =>
    .X .PARAMREF { name := attr 0, refClass := attr 1, type := CMPIType.ref }

def procParamRefArray : Proc :=
  procElement "PARAMETER.REFARRAY" ["NAME", "REFERENCECLASS", "ARRAYSIZE"] (.Z .PARAMREFARRAY)
    fun attr => .X .PARAMREFARRAY {
      name      := attr 0
      refClass  := attr 1
      arraySize := attr 2
      type      := CMPIType.refA }

def procSimpleExpReq : Proc :=
  procElement "SIMPLEEXPREQ" [] (.Z .SIMPLEEXPREQ) fun _ => .X .SIMPLEEXPREQ ()

-- `strcasecmp` is given the name whether there is one or not.
def procNamed (tag name : String) (etag token : Tok) : Proc :=
  procTag tag ["NAME"] etag fun attr xb =>
    match attr 0 with
    | none   => throw .null
    | some n => return (if sameIgnoringCase n (bytes name) then token else .none, xb)

def procExportMethodCall : Proc :=
  procNamed "EXPMETHODCALL" "ExportIndication" (.Z .EXPMETHODCALL) (.X .EXPMETHODCALL ())

def procExParamValue : Proc :=
  procNamed "EXPPARAMVALUE" "NewIndication" (.Z .EXPPARAMVALUE) (.X .EXPPARAMVALUE ())

-- The second `[` becomes the `>` of a tag, and the end of the section an end tag without a name.
def procCdata (xb : XmlBuffer) : Except LexEnd (Tok × XmlBuffer) := do
  match ← xb.tagEquals (bytes "![CDATA[") with
  | none    => return (.none, xb)
  | some xb =>
    let (_, xb) ← { xb with before := xb.before.tail, rest := 62 :: xb.rest }.attrsOk []
      (bytes "![CDATA[") (.Z .CDATA)
    match strstr (bytes "]]>") xb.rest with
    | none   => return (.none, xb)
    | some v =>
      let inside := xb.rest.take (xb.rest.length - v.length)
      return (.X .CDATA (), { xb with rest := inside ++ bytes "</" ++ v.drop 2 })

structure Tags where
  tag     : Text
  process : Proc
  etag    : Tok

def tags : List Tags :=
  [⟨bytes "?xml", procXml, .Z .XML⟩,
    ⟨bytes "CIM", procCim, .Z .CIM⟩,
    ⟨bytes "MESSAGE", procMessage, .Z .MESSAGE⟩,
    ⟨bytes "SIMPLERSP", procSimpleResp, .Z .SIMPLERSP⟩,
    ⟨bytes "ERROR", procErrorResp, .Z .ERROR⟩,
    ⟨bytes "IMETHODRESPONSE", procIMethodResp, .Z .IMETHODRESP⟩,
    ⟨bytes "IRETURNVALUE", procIRetValue, .Z .IRETVALUE⟩,
    ⟨bytes "LOCALNAMESPACEPATH", procLocalNameSpacePath, .Z .LOCALNAMESPACEPATH⟩,
    ⟨bytes "LOCALINSTANCEPATH", procLocalInstancePath, .Z .LOCALINSTANCEPATH⟩,
    ⟨bytes "LOCALCLASSPATH", procLocalClassPath, .Z .LOCALCLASSPATH⟩,
    ⟨bytes "NAMESPACEPATH", procNameSpacePath, .Z .NAMESPACEPATH⟩,
    ⟨bytes "NAMESPACE", procNameSpace, .Z .NAMESPACE⟩,
    ⟨bytes "PARAMVALUE", procParamValue, .Z .PARAMVALUE⟩,
    ⟨bytes "CLASSNAME", procClassName, .Z .CLASSNAME⟩,
    ⟨bytes "VALUE.ARRAY", procValueArray, .Z .VALUEARRAY⟩,
    ⟨bytes "VALUE.NAMEDINSTANCE", procValueNamedInstance, .Z .VALUENAMEDINSTANCE⟩,
    ⟨bytes "VALUE.REFERENCE", procValueReference, .Z .VALUEREFERENCE⟩,
    ⟨bytes "VALUE.REFARRAY", procValueRefArray, .Z .VALUEREFARRAY⟩,
    ⟨bytes "VALUE.OBJECTWITHPATH", procValueObjectWithPath, .Z .VALUEOBJECTWITHPATH⟩,
    ⟨bytes "VALUE", procValue, .Z .VALUE⟩,
    ⟨bytes "HOST", procHost, .Z .HOST⟩,
    ⟨bytes "KEYVALUE", procKeyValue, .Z .KEYVALUE⟩,
    ⟨bytes "KEYBINDING", procKeyBinding, .Z .KEYBINDING⟩,
    ⟨bytes "INSTANCEPATH", procInstancePath, .Z .INSTANCEPATH⟩,
    ⟨bytes "INSTANCENAME", procInstanceName, .Z .INSTANCENAME⟩,
    ⟨bytes "INSTANCE", procInstance, .Z .INSTANCE⟩,
    ⟨bytes "PROPERTY.REFERENCE", procPropertyReference, .Z .PROPERTYREFERENCE⟩,
    ⟨bytes "PROPERTY.ARRAY", procPropertyArray, .Z .PROPERTYARRAY⟩,
    ⟨bytes "PROPERTY", procProperty, .Z .PROPERTY⟩,
    ⟨bytes "QUALIFIER", procQualifier, .Z .QUALIFIER⟩,
    ⟨bytes "PARAMETER.ARRAY", procParamArray, .Z .PARAMARRAY⟩,
    ⟨bytes "PARAMETER.REFERENCE", procParamRef, .Z .PARAMREF⟩,
    ⟨bytes "PARAMETER.REFARRAY", procParamRefArray, .Z .PARAMREFARRAY⟩,
    ⟨bytes "PARAMETER", procParam, .Z .PARAM⟩,
    ⟨bytes "METHOD", procMethod, .Z .METHOD⟩,
    ⟨bytes "CLASS", procClass, .Z .CLASS⟩,
    ⟨bytes "OBJECTPATH", procObjectPath, .Z .OBJECTPATH⟩,
    ⟨bytes "METHODRESPONSE", procMethodResp, .Z .METHODRESP⟩,
    ⟨bytes "RETURNVALUE", procRetValue, .Z .RETVALUE⟩,
    ⟨bytes "CLASSPATH", procClassPath, .Z .CLASSPATH⟩,
    ⟨bytes "SIMPLEEXPREQ", procSimpleExpReq, .Z .SIMPLEEXPREQ⟩,
    ⟨bytes "EXPMETHODCALL", procExportMethodCall, .Z .EXPMETHODCALL⟩,
    ⟨bytes "EXPPARAMVALUE", procExParamValue, .Z .EXPPARAMVALUE⟩,
    ⟨bytes "![CDATA[", procCdata, .Z .CDATA⟩,
    ⟨[], procCdata, .Z .CDATA⟩]

def nextEquals (n t : Text) : Bool :=
  t.isPrefixOf n ∧ ¬ (n.drop t.length).head?.any isalnum

-- Without the end of the comment the cursor is taken from `NULL`.
def skipComment (xb : XmlBuffer) : Except LexEnd XmlBuffer :=
  match strstr (bytes "-->") xb.rest with
  | none   => throw .lost
  | some v => return xb.advance (xb.rest.length - v.length + 3)

-- Each comment that is passed makes the rest shorter.
def sfccLexN : ℕ → Proc
  | 0, _      => throw .outside
  | n + 1, xb => do
    match xb.nextTag with
    | (none, xb)      => return (.none, xb)
    | (some next, xb) =>
      if xb.eTagFound then return (xb.etag, { xb with eTagFound := false })
      else if next.head? = some 47 then
        match tags.find? (nextEquals next.tail ·.tag) with
        | some t => return (t.etag, ← xb.skipTag)
        | none   => return (.none, xb)
      else if (bytes "<!--").isPrefixOf xb.rest then sfccLexN n (← skipComment xb)
      else
        match tags.find? (nextEquals next ·.tag) with
        | some t => t.process xb
        | none   => return (.none, xb)

def sfccLex (xb : XmlBuffer) : Except LexEnd (Tok × XmlBuffer) :=
  sfccLexN (xb.rest.length + 1) xb

-- The tokens of the first calls, up to the one that returns 0 or ends the run.
def sfccLexs : ℕ → XmlBuffer → List Tok
  | 0, _      => []
  | n + 1, xb =>
    match sfccLex xb with
    | .ok (.none, _)  => []
    | .ok (token, xb) => token :: sfccLexs n xb
    | .error _        => []

-- An element without content makes two tokens.
def tokens (text : Text) : List Tok :=
  sfccLexs (2 * text.length) (newXmlBuffer text)

end Xml
end Sfcc
