import Mathlib.Data.Nat.Digits.Defs
import Sfcc.Cmpi.Native

namespace Sfcc

def decimal (n : ℕ) : Text :=
  if n = 0 then [48] else (Nat.digits 10 n).reverse.map fun d => d.toUInt8 + 48

def signedDecimal (n : ℤ) : Text :=
  if n < 0 then 45 :: decimal n.natAbs else decimal n.natAbs

-- The integer in a value, with the type of the member it is in.
def CMPIValue.integer : CMPIValue → Option (CMPIType × ℤ)
  | .uint8 n  => some (.uint8, n.toNat)
  | .uint16 n => some (.uint16, n.toNat)
  | .uint32 n => some (.uint32, n.toNat)
  | .uint64 n => some (.uint64, n.toNat)
  | .sint8 n  => some (.sint8, n.toInt)
  | .sint16 n => some (.sint16, n.toInt)
  | .sint32 n => some (.sint32, n.toInt)
  | .sint64 n => some (.sint64, n.toInt)
  | _         => none

section Printers

def printString : CMPIValue → Except Fault Text
  | .string hdl => deref hdl
  | .zero       => return bytes "NULL"
  | _           => throw .wild

def printChars : CMPIValue → Except Fault Text
  | .chars text => return text.getD (bytes "NULL")
  | .zero       => return bytes "NULL"
  | _           => throw .wild

def printDateTime : CMPIValue → Except Fault Text
  | .dateTime cimDt => return cimDt.getD (bytes "NULL")
  | .zero           => return bytes "NULL"
  | _               => throw .wild

def printBoolean : CMPIValue → Except Fault Text
  | .boolean b => return bytes (if b then "true" else "false")
  | .zero      => return bytes "false"
  | _          => throw .wild

def printInteger (type : CMPIType) : CMPIValue → Except Fault Text
  | .zero => return [48]
  | v     =>
    match v.integer with
    | some (t, n) => if t = type then return signedDecimal n else throw .wild
    | none        => throw .wild

-- `printg` is what `sprintf` makes of the number that a text is scanned as, with `%g`.
def printReal (printg : Text → Text) (type : CMPIType) : CMPIValue → Except Fault Text
  | .zero        => return [48]
  | .real32 text => if type = .real32 then return printg text else throw .wild
  | .real64 text => if type = .real64 then return printg text else throw .wild
  | _            => throw .wild

end Printers

section

variable (printg : Text → Text)

-- The types that `value2Chars` has a text for, with the one of a value that is not a path.
def printers : List (CMPIType × (CMPIValue → Except Fault Text)) :=
  [(.ref, fun | .zero => return bytes "NULL" | _ => throw .wild),
    (.chars, printChars),
    (.string, printString),
    (.numericString, printString),
    (.booleanString, printString),
    (.dateTimeString, printString),
    (.dateTime, printDateTime),
    (.boolean, printBoolean),
    (.uint8, printInteger .uint8),
    (.sint8, printInteger .sint8),
    (.uint16, printInteger .uint16),
    (.sint16, printInteger .sint16),
    (.uint32, printInteger .uint32),
    (.sint32, printInteger .sint32),
    (.uint64, printInteger .uint64),
    (.sint64, printInteger .sint64),
    (.real32, printReal printg .real32),
    (.real64, printReal printg .real64)]

def plain2Chars (type : CMPIType) (value : CMPIValue) : Except Fault Text :=
  match (printers printg).find? (·.1 = type) with
  | some (_, print) => print value
  | none            => return []

def quoted (type : CMPIType) (v : Text) : Text :=
  if type &&& (.integer ||| .real) ≠ 0 then v else [34] ++ v ++ [34]

mutual

-- The buffer a path is printed to is taken to be long enough.
def value2Chars (type : CMPIType) : CMPIValue → Except Fault Text
  | .ref path => if type = .ref then pathToChars path else plain2Chars printg type (.ref path)
  | value     => plain2Chars printg type value

def pathToChars : CMPIObjectPath → Except Fault Text
  | ⟨nameSpace, classname, keys⟩ => do
    let ns := nameSpace.getD []
    return (if ns = [] then [] else ns ++ [58]) ++ (← deref classname) ++ (← keysToChars [46] keys)

def keysToChars (separator : Text) : List (NativeProperty CMPIValue) → Except Fault Text
  | []                             => return []
  | ⟨name, type, _, value, _⟩ :: keys => do
    let v ← value2Chars type value
    return separator ++ name ++ [61] ++ quoted type v ++ (← keysToChars [44] keys)

end

-- The keys of the first path, which are looked for among those of the second.
def sameKeys (keys : List (NativeProperty CMPIValue)) :
    List (NativeProperty CMPIValue) → Except Fault Bool
  | []          => return true
  | data1 :: ks =>
    match getProperty keys data1.name with
    | none       => return false
    | some data2 =>
      if data1.type ≠ data2.type ∨ data1.state ≠ data2.state then return false
      else do
        let cv1 ← value2Chars printg data1.type data1.value
        let cv2 ← value2Chars printg data2.type data2.value
        if cv1 = cv2 then sameKeys keys ks else return false

def sameCMPIObjectPath (cop1 cop2 : CMPIObjectPath) : Except Fault Bool := do
  if ¬ sameIgnoringCase (← deref cop1.nameSpace) (← deref cop2.nameSpace) then return false
  if ¬ sameIgnoringCase (← deref cop1.classname) (← deref cop2.classname) then return false
  if cop1.keys.length ≠ cop2.keys.length then return false
  sameKeys printg cop2.keys cop1.keys

end

end Sfcc
