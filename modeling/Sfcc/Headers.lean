import Sfcc.Cmpi.Chars
import Sfcc.NameSpace

-- The headers of a request, with the buffers that they are put together in.
namespace Sfcc

-- A block on the stack, the string that begins at an offset in it, and all that was stored so far.
structure CharBuffer where
  size   : ℕ
  base   : ℕ := 0
  text   : Text := []
  writes : List Write := []

namespace CharBuffer

-- `*str = 0`
def clear (str : CharBuffer) : CharBuffer :=
  { str with text := [], writes := str.writes ++ [⟨str.base, [0], str.size⟩] }

def strcpy (str : CharBuffer) (t : Text) : CharBuffer :=
  { str with text := t, writes := str.writes ++ [⟨str.base, t ++ [0], str.size⟩] }

def strcat (str : CharBuffer) (t : Text) : CharBuffer :=
  { str with
    text   := str.text ++ t
    writes := str.writes ++ [⟨str.base + str.text.length, t ++ [0], str.size⟩] }

-- Bytes behind the others, without a NUL.
def store (str : CharBuffer) (t : Text) : CharBuffer :=
  { str with
    text   := str.text ++ t
    writes := str.writes ++ [⟨str.base + str.text.length, t, str.size⟩] }

def terminate (str : CharBuffer) : CharBuffer :=
  { str with writes := str.writes ++ [⟨str.base + str.text.length, [0], str.size⟩] }

-- What was stored to another block in the meantime.
def log (str : CharBuffer) (writes : List Write) : CharBuffer :=
  { str with writes := str.writes ++ writes }

-- A namespace in a URI. Its length is kept as an `unsigned int`.
def copyUri (str : CharBuffer) (cns : Text) : CharBuffer :=
  ((cns.take (cns.length % 2 ^ 32)).foldl (fun str c => str.store (if c = 47 then bytes "%2F" else [c])) str).terminate

def setNameSpace (uri : Bool) (str : CharBuffer) (ns : Text) : CharBuffer :=
  if ns = [] then str
  else if uri then (str.copyUri ns).strcat (bytes "%3A")
  else (str.strcpy ns).strcat [58]

section

variable (printg : Text → Text)

mutual

-- What is printed, and what was stored while the path of a reference was.
def value2CharsUri (type : CMPIType) : CMPIValue → Except Fault (Text × List Write)
  | .ref path =>
    if type = .ref then do
      let str ← pathToChars false { size := 2048, writes := [⟨0, [0], 2048⟩] } path
      return (str.text, str.writes)
    else do return (← plain2Chars printg type (.ref path), [])
  | value     => do return (← plain2Chars printg type value, [])

-- The number of keys is far from the bounds of an `unsigned int`.
def pathToChars (uri : Bool) (str : CharBuffer) : CMPIObjectPath → Except Fault CharBuffer
  | ⟨nameSpace, classname, keys⟩ => do
    let str := str.clear.setNameSpace uri (nameSpace.getD [])
    keysToChars uri [46] (str.strcat (← deref classname)) keys

def keysToChars (uri : Bool) (separator : Text) (str : CharBuffer) :
    List (NativeProperty CMPIValue) → Except Fault CharBuffer
  | []                                => return str
  | ⟨name, type, _, value, _⟩ :: keys => do
    let str := ((str.strcat separator).strcat name).strcat (if uri then bytes "%3D" else [61])
    let (v, writes) ← value2CharsUri type value
    let str := str.log writes
    let str := if type &&& (.integer ||| .real) ≠ 0 then str.strcat v else ((str.strcat [34]).strcat v).strcat [34]
    keysToChars uri [44] str keys

end

end

def joinComponents (str : CharBuffer) : List Text → CharBuffer
  | []        => str
  | [nsp]     => str.strcat nsp
  | nsp :: ul => joinComponents ((str.strcat nsp).strcat (bytes "%2F")) ul

end CharBuffer

structure Headers where
  method    : Text
  CimObject : Text
  writes    : List Write

-- The part of `genRequest` that depends on the operation and the path.
def genRequest (printg : Text → Text) (op : Text) (cop : CMPIObjectPath) (classWithKeys : Bool) : Except Fault Headers := do
  let method := CharBuffer.strcat { size := 256, text := bytes "CIMMethod: " } op
  if classWithKeys then
    let CimObject ← CharBuffer.pathToChars printg true { size := 512, base := 11 } cop
    return ⟨method.text, bytes "CIMObject: " ++ CimObject.text, method.writes ++ CimObject.writes⟩
  else
    let (ul, writes) := NameSpace.split cop.nameSpace
    let CimObject := CharBuffer.joinComponents { size := 512, text := bytes "CIMObject: " } ul
    return ⟨method.text, CimObject.text, method.writes ++ writes ++ CimObject.writes⟩

end Sfcc
