import Mathlib.Data.Int.Notation
import Sfcc.Cmpi.Native

-- The functions of a list of properties, which go from one property to the next.
namespace Sfcc

inductive CMPIrc
  | OK
  | ERR_NO_SUCH_PROPERTY
  deriving DecidableEq, Repr

namespace PropertyFT

-- Non-zero is returned if there is one of this name: the `||` ends the search then.
def addProperty (name : Text) (type : CMPIType) (state : CMPIValueState) (value : Option CMPIValue) :
    List (NativeProperty CMPIValue) → Except Fault (ℤ × List (NativeProperty CMPIValue))
  | []            => return (0, [← NativeProperty.create name type state value])
  | prop :: props =>
    if sameIgnoringCase prop.name name then return (1, prop :: props)
    else do
      let (rc, props) ← addProperty name type state value props
      return (if rc ≠ 0 then 1 else 0, prop :: props)

def setProperty (name : Text) (type : CMPIType) (value : Option CMPIValue) :
    List (NativeProperty CMPIValue) → ℤ × List (NativeProperty CMPIValue)
  | []            => (-1, [])
  | prop :: props =>
    if sameIgnoringCase prop.name name then (0, prop.replace type value :: props)
    else
      let (rc, props) := setProperty name type value props
      (rc, prop :: props)

def getProperty : List (NativeProperty CMPIValue) → Option Text → Option (NativeProperty CMPIValue)
  | [], _                 => none
  | _, none               => none
  | prop :: props, some name => if sameIgnoringCase prop.name name then some prop else getProperty props name

def getPropertyAt : List (NativeProperty CMPIValue) → ℕ → Option (NativeProperty CMPIValue)
  | [], _               => none
  | prop :: _, 0        => some prop
  | _ :: props, pos + 1 => getPropertyAt props pos

-- Without a property the data is null, and `propname` is left alone.
def convert2CMPIData : Option (NativeProperty CMPIValue) → CMPIData × Option Text
  | none      => ({ type := .null, state := .null, value := .zero }, none)
  | some prop => (prop.data, some prop.name)

def status (prop : Option (NativeProperty CMPIValue)) : CMPIrc :=
  if prop.isSome then .OK else .ERR_NO_SUCH_PROPERTY

def getDataProperty (props : List (NativeProperty CMPIValue)) (name : Option Text) : CMPIrc × CMPIData :=
  let p := getProperty props name
  (status p, (convert2CMPIData p).1)

def getDataPropertyAt (props : List (NativeProperty CMPIValue)) (pos : ℕ) : CMPIrc × CMPIData × Option Text :=
  let p := getPropertyAt props pos
  (status p, convert2CMPIData p)

-- The loop over the properties, with what was counted so far.
def count : ℕ → List (NativeProperty CMPIValue) → ℕ
  | c, []         => c
  | c, _ :: props => count (c + 1) props

def getPropertyCount (props : List (NativeProperty CMPIValue)) : ℕ :=
  count 0 props

end PropertyFT
end Sfcc
