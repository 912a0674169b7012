import Sfcc.Cmpi.Type

namespace Sfcc

abbrev CMPIValueState := UInt16

namespace CMPIValueState

def good : CMPIValueState := 0
def null : CMPIValueState := 0x100
def key : CMPIValueState := 0x200
def notFound : CMPIValueState := 0x400
def bad : CMPIValueState := 0x8000

def isNull (s : CMPIValueState) : Bool :=
  s &&& null != 0

def isKey (s : CMPIValueState) : Bool :=
  s &&& key != 0

end CMPIValueState

-- The native objects refer to values, which refer to objects again. `V` stands for the value.

structure NativeQualifier (V : Type) where
  name  : Text
  type  : CMPIType
  state : CMPIValueState
  value : V

structure NativeProperty (V : Type) where
  name       : Text
  type       : CMPIType
  state      : CMPIValueState
  value      : V
  qualifiers : List (NativeQualifier V) := []

structure NativeParameter where
  name : Text
  type : CMPIType

structure NativeMethod (V : Type) where
  name       : Text
  type       : CMPIType
  state      : CMPIValueState
  value      : V
  parameters : List NativeParameter := []
  qualifiers : List (NativeQualifier V) := []

structure NativeArrayItem (V : Type) where
  state : CMPIValueState
  value : V

-- `size` is the length of `data`, and `max` the number of items that fit into the block behind it.
structure NativeArray (V : Type) where
  type    : CMPIType
  max     : ℕ
  dynamic : Bool
  data    : List (NativeArrayItem V)

structure NativeCop (V : Type) where
  nameSpace : Option Text := none
  classname : Option Text := none
  keys      : List (NativeProperty V) := []

structure NativeInstance (V : Type) where
  classname  : Option Text := none
  nameSpace  : Option Text := none
  props      : List (NativeProperty V) := []
  qualifiers : List (NativeQualifier V) := []

structure NativeConstClass (V : Type) where
  classname  : Text
  props      : List (NativeProperty V) := []
  qualifiers : List (NativeQualifier V) := []
  methods    : List (NativeMethod V) := []

-- The union `CMPIValue`, by the member that was written last. `long` has 64 bits. A floating point
-- number is the text it was read from. What was never written is `indeterminate`.
inductive CMPIValue
  | indeterminate
  | zero
  | boolean (b : Bool)
  | char16 (c : UInt16)
  | uint8 (n : UInt8)
  | uint16 (n : UInt16)
  | uint32 (n : UInt64)
  | uint64 (n : UInt64)
  | sint8 (n : Int8)
  | sint16 (n : Int16)
  | sint32 (n : Int64)
  | sint64 (n : Int64)
  | real32 (text : Text)
  | real64 (text : Text)
  | chars (text : Option Text)
  | string (hdl : Option Text)
  | dateTime (cimDt : Option Text)
  | ref (path : NativeCop CMPIValue)
  | inst (inst : NativeInstance CMPIValue)
  | cls (cls : NativeConstClass CMPIValue)
  | array (array : NativeArray CMPIValue)

abbrev CMPIArray := NativeArray CMPIValue
abbrev CMPIObjectPath := NativeCop CMPIValue
abbrev CMPIInstance := NativeInstance CMPIValue
abbrev CMPIConstClass := NativeConstClass CMPIValue

-- Only the arguments that were added are part of it.
abbrev CMPIArgs := List (NativeProperty CMPIValue)

structure CMPIData where
  type  : CMPIType
  state : CMPIValueState
  value : CMPIValue

def NativeProperty.data (p : NativeProperty CMPIValue) : CMPIData where
  type  := p.type
  state := p.state
  value := p.value

end Sfcc
