import Sfcc.Cmpi.Native

-- What a class tells of itself.
namespace Sfcc

namespace Named

-- The data of the item at an index, and its name if there is one.
def dataAt {P : Type} (name : P → Text) (data : P → CMPIData) (l : List P) (index : ℕ) :
    CMPIData × Option Text :=
  match l[index]? with
  | none   => ({ type := .null, state := .null, value := .zero }, none)
  | some p => (data p, some (name p))

end Named

def NativeQualifier.data (q : NativeQualifier CMPIValue) : CMPIData where
  type  := q.type
  state := q.state
  value := q.value

def NativeMethod.data (m : NativeMethod CMPIValue) : CMPIData where
  type  := m.type
  state := m.state
  value := m.value

-- Nothing is ever written to the state and the value.
def NativeParameter.data (p : NativeParameter) : CMPIData where
  type  := p.type
  state := .good
  value := .zero

def getDataPropertyAt : List (NativeProperty CMPIValue) → ℕ → CMPIData × Option Text :=
  Named.dataAt NativeProperty.name NativeProperty.data

def getDataQualifierAt : List (NativeQualifier CMPIValue) → ℕ → CMPIData × Option Text :=
  Named.dataAt NativeQualifier.name NativeQualifier.data

def getDataMethodAt : List (NativeMethod CMPIValue) → ℕ → CMPIData × Option Text :=
  Named.dataAt NativeMethod.name NativeMethod.data

def getDataParameterAt : List NativeParameter → ℕ → CMPIData × Option Text :=
  Named.dataAt NativeParameter.name NativeParameter.data

def getMethod (methods : List (NativeMethod CMPIValue)) (name : Text) : Option (NativeMethod CMPIValue) :=
  Named.get NativeMethod.name methods name

namespace NativeConstClass

def getPropertyAt (cc : CMPIConstClass) (index : ℕ) : CMPIData × Option Text :=
  getDataPropertyAt cc.props index

def getPropertyCount (cc : CMPIConstClass) : ℕ :=
  cc.props.length

def getQualifierAt (cc : CMPIConstClass) (index : ℕ) : CMPIData × Option Text :=
  getDataQualifierAt cc.qualifiers index

def getQualifierCount (cc : CMPIConstClass) : ℕ :=
  cc.qualifiers.length

-- Of an owner that is not there, there is the same as of a list without items.

def getPropertyQualifierAt (cc : CMPIConstClass) (pname : Text) (index : ℕ) : CMPIData × Option Text :=
  getDataQualifierAt ((getProperty cc.props pname).elim [] (·.qualifiers)) index

def getPropertyQualifierCount (cc : CMPIConstClass) (pname : Text) : ℕ :=
  ((getProperty cc.props pname).elim [] (·.qualifiers)).length

def getMethodAt (cc : CMPIConstClass) (index : ℕ) : CMPIData × Option Text :=
  getDataMethodAt cc.methods index

def getMethodCount (cc : CMPIConstClass) : ℕ :=
  cc.methods.length

def getMethodQualifierAt (cc : CMPIConstClass) (mname : Text) (index : ℕ) : CMPIData × Option Text :=
  getDataQualifierAt ((getMethod cc.methods mname).elim [] (·.qualifiers)) index

def getMethodQualifierCount (cc : CMPIConstClass) (mname : Text) : ℕ :=
  ((getMethod cc.methods mname).elim [] (·.qualifiers)).length

def getMethodParameterAt (cc : CMPIConstClass) (mname : Text) (index : ℕ) : CMPIData × Option Text :=
  getDataParameterAt ((getMethod cc.methods mname).elim [] (·.parameters)) index

def getMethodParameterCount (cc : CMPIConstClass) (mname : Text) : ℕ :=
  ((getMethod cc.methods mname).elim [] (·.parameters)).length

end NativeConstClass
end Sfcc
