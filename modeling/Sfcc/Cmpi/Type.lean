import Mathlib.Data.List.Basic

namespace Sfcc

-- A NUL-terminated string, without the NUL; a `char *` is an `Option Text`.
abbrev Text := List UInt8

def bytes (s : String) : Text :=
  s.toList.map fun c => c.toNat.toUInt8

-- What is said of the elements of a list is decided by going through the list, also where there are
-- finitely many values only.
instance (priority := 2000) decidableForallMem {α : Type*} (l : List α) (p : α → Prop) [DecidablePred p] :
    Decidable (∀ x, x ∈ l → p x) :=
  List.decidableBAll p l

instance (priority := 2000) decidableExistsMem {α : Type*} (l : List α) (p : α → Prop) [DecidablePred p] :
    Decidable (∃ x, x ∈ l ∧ p x) :=
  List.decidableBEx p l

instance (priority := 2000) decidableForallOption {α : Type*} (o : Option α) (p : α → Prop) [DecidablePred p] :
    Decidable (∀ x, x ∈ o → p x) :=
  Option.decidableForallMem o

-- What makes a run of the program end: `NULL` is read or `abort` is called, or a pointer is followed
-- that stands in the bytes of something else.
inductive Fault
  | null
  | abort
  | wild
  deriving DecidableEq, Repr

def Text.lower (t : Text) : Text :=
  t.map fun b => if 65 ≤ b ∧ b ≤ 90 then b + 32 else b

-- Whether `strcasecmp` is zero, in the C locale.
def sameIgnoringCase (a b : Text) : Bool :=
  Text.lower a == Text.lower b

abbrev CMPIType := UInt16

namespace CMPIType

def null : CMPIType := 0
def simple : CMPIType := 0x0002
def boolean : CMPIType := 0x0002
def char16 : CMPIType := 0x0003
def real : CMPIType := 0x0008
def real32 : CMPIType := 0x0008
def real64 : CMPIType := 0x000C
def uint8 : CMPIType := 0x0080
def uint16 : CMPIType := 0x0090
def uint32 : CMPIType := 0x00A0
def uint64 : CMPIType := 0x00B0
def sint8 : CMPIType := 0x00C0
def sint16 : CMPIType := 0x00D0
def sint32 : CMPIType := 0x00E0
def sint64 : CMPIType := 0x00F0
def integer : CMPIType := 0x00C0
def enc : CMPIType := 0x1000
def inst : CMPIType := 0x1000
def ref : CMPIType := 0x1100
def args : CMPIType := 0x1200
def cls : CMPIType := 0x1300
def enumeration : CMPIType := 0x1500
def string : CMPIType := 0x1600
def chars : CMPIType := 0x1700
def dateTime : CMPIType := 0x1800
def numericString : CMPIType := 0x16FC
def booleanString : CMPIType := 0x1602
def dateTimeString : CMPIType := 0x1E00
def array : CMPIType := 0x2000
def refA : CMPIType := 0x3100

def isArray (t : CMPIType) : Bool :=
  t &&& array != 0

-- `t & ~CMPI_ARRAY`
def element (t : CMPIType) : CMPIType :=
  t &&& ~~~array

-- How `native_clone_CMPIValue` copies a value of a type: it clones the object the value refers to, or
-- copies the value itself. A reference of any other type is lost.
inductive Cloning
  | object
  | value
  | lost
  deriving DecidableEq, Repr

def cloning (t : CMPIType) : Cloning :=
  if t.isArray then .object
  else if t &&& enc = 0 then .value
  else if t ∈ [inst, ref, args, enumeration, string, chars, dateTime] then .object
  else .lost

end CMPIType
end Sfcc
