import Sfcc.Xml.Response

-- What the operations of the client make of a response.
namespace Sfcc

structure CMPIStatus where
  rc  : Int32 := 0
  msg : Option Text := none

-- `CMClone` goes through the function table of the object, whatever kind it is of.
def CMClone : CMPIValue → Except Fault CMPIValue
  | .zero       => throw .null
  | .array a    => return .array a.clone
  | .inst i     => return .inst i.clone
  | .cls c      => return .cls c.clone
  | .ref p      => return .ref p.clone
  | .string s   => return .string s
  | .dateTime d => return .dateTime d
  | _           => throw .wild

namespace Client

open Xml (ResponseHdr)

-- The status for a response with an error.
def failed (rh : ResponseHdr) : CMPIStatus where
  rc  := rh.errCode
  msg := rh.description

-- A pointer to a copy of the first result, with `NULL` as `zero`.
def cloneFirst (rh : ResponseHdr) : Except Fault (CMPIStatus × CMPIValue) := do
  if rh.errCode ≠ 0 then return (failed rh, .zero)
  else return ({}, ← CMClone (rh.rvArray.elementAt 0).value)

def getInstance (rh : ResponseHdr) : Except Fault (CMPIStatus × CMPIValue) :=
  cloneFirst rh

def getClass (rh : ResponseHdr) : Except Fault (CMPIStatus × CMPIValue) :=
  cloneFirst rh

def createInstance (rh : ResponseHdr) : CMPIStatus × CMPIValue :=
  if rh.errCode ≠ 0 then (failed rh, .zero)
  else ({}, (rh.rvArray.elementAt 0).value)

def getProperty (rh : ResponseHdr) : CMPIStatus × CMPIData :=
  if rh.errCode ≠ 0 then
    (failed rh, { type := .null, state := .notFound ||| .null, value := .zero })
  else
    let retval := rh.rvArray.elementAt 0
    ({}, { retval with value := native_clone_CMPIValue rh.rvArray.type retval.value })

-- The loop of `invokeMethod` over the arguments that were parsed.
def addOutArgs (out : CMPIArgs) (args : CMPIArgs) : Except Fault CMPIArgs :=
  args.foldlM (fun out arg => addArg out (some arg.name) arg.value arg.type) out

def invokeMethod (rh : ResponseHdr) (out : Option CMPIArgs) :
    Except Fault (CMPIStatus × CMPIData × Option CMPIArgs) := do
  if rh.errCode ≠ 0 then
    return (failed rh, { type := .null, state := .notFound ||| .null, value := .zero }, out)
  else
    let out ← match rh.outArgs, out with
      | some args, some out => some <$> addOutArgs out args
      | _,         out      => pure out
    let retval := rh.rvArray.elementAt 0
    return ({}, { retval with value := native_clone_CMPIValue rh.rvArray.type retval.value }, out)

-- The operations without a result.
def statusOnly (rh : ResponseHdr) : CMPIStatus :=
  if rh.errCode ≠ 0 then failed rh else {}

def setInstance := statusOnly
def deleteInstance := statusOnly
def setProperty := statusOnly

-- An enumeration of all results, with `none` as `NULL`.
def enumeration (rh : ResponseHdr) : CMPIStatus × Option NativeEnum :=
  if rh.errCode ≠ 0 then (failed rh, none) else ({}, newCMPIEnumeration rh.rvArray)

def enumInstanceNames := enumeration
def execQuery := enumeration
def enumInstances := enumeration
def associators := enumeration
def references := enumeration
def associatorNames := enumeration
def referenceNames := enumeration
def enumClassNames := enumeration
def enumClasses := enumeration

end Client
end Sfcc
