import Sfcc.Cmpi.Native

namespace Sfcc.NativeArray

variable {a : CMPIArray} {v : CMPIValue} {type : CMPIType}

@[simp]
theorem increaseSize_data (a : CMPIArray) : a.increaseSize.data = a.data ++ [a.fresh] :=
  rfl

@[simp]
theorem increaseSize_type (a : CMPIArray) : a.increaseSize.type = a.type :=
  rfl

@[simp]
theorem increaseSize_dynamic (a : CMPIArray) : a.increaseSize.dynamic = a.dynamic :=
  rfl

@[simp]
theorem newCMPIArray_data_nil (type : CMPIType) : (newCMPIArray 0 type).data = [] :=
  rfl

@[simp]
theorem newCMPIArray_dynamic (type : CMPIType) : (newCMPIArray 0 type).dynamic = true :=
  rfl

@[simp]
theorem setElementAt_type {i : ℕ} {opt : Bool} : (a.setElementAt i v type opt).type = a.type := by
  simp only [setElementAt]
  split_ifs <;> rfl

@[simp]
theorem setElementAt_dynamic {i : ℕ} {opt : Bool} :
    (a.setElementAt i v type opt).dynamic = a.dynamic := by
  simp only [setElementAt]
  split_ifs <;> rfl

@[simp]
theorem setArrayElementAt_type {i : ℕ} : (a.setArrayElementAt i v type).type = a.type :=
  setElementAt_type

@[simp]
theorem setArrayElementAt_dynamic {i : ℕ} : (a.setArrayElementAt i v type).dynamic = a.dynamic :=
  setElementAt_dynamic

theorem simpleAdd_dynamic (hd : a.dynamic) : (a.simpleAdd v type).dynamic := by
  rw [simpleAdd, if_pos hd]
  split_ifs <;> simpa using hd

-- The first element decides the type.
theorem simpleAdd_type (hd : a.dynamic) :
    (a.simpleAdd v type).type = if a.data.length = 0 then type else a.type := by
  rw [simpleAdd, if_pos hd]
  split_ifs <;> simp

-- An element of another type than text is stored as it is.
theorem simpleAdd_data (hd : a.dynamic) (hn : type ≠ .null) (hc : type ≠ .chars) :
    (a.simpleAdd v type).data = a.data ++ [{ state := .good, value := v }] := by
  have hs : ∀ b : CMPIArray, b.dynamic →
      (b.setElementAt b.data.length v type true).data = b.data ++ [{ state := .good, value := v }] := by
    intro b hb
    simp [setElementAt, hb, hn, hc]
  rw [simpleAdd, if_pos hd]
  split_ifs
  case pos => exact hs { a with type := type } hd
  case neg => exact hs a hd

theorem simpleAdd_data_length (hd : a.dynamic) :
    (a.simpleAdd v type).data.length = a.data.length + 1 := by
  have hs : ∀ b : CMPIArray, b.dynamic →
      (b.setElementAt b.data.length v type true).data.length = b.data.length + 1 := by
    intro b hb
    simp only [setElementAt, hb]
    split_ifs <;> simp_all
  rw [simpleAdd, if_pos hd]
  split_ifs
  case pos => exact hs { a with type := type } hd
  case neg => exact hs a hd

-- A value in an array, of which the array has a copy.
def item (type : CMPIType) (v : CMPIValue) : NativeArrayItem CMPIValue where
  state := .good
  value := native_clone_CMPIValue type v

-- Elements are set from an index on.
def setFrom (type : CMPIType) (a : CMPIArray) (i : ℕ) : List CMPIValue → CMPIArray
  | []      => a
  | v :: vs => setFrom type (a.setArrayElementAt i v type) (i + 1) vs

@[simp]
theorem setFrom_type {i : ℕ} {vs : List CMPIValue} : (a.setFrom type i vs).type = a.type := by
  induction vs generalizing a i with
  | nil          => rfl
  | cons v vs hi =>
    rw [setFrom, hi, setArrayElementAt_type]

@[simp]
theorem setFrom_dynamic {i : ℕ} {vs : List CMPIValue} : (a.setFrom type i vs).dynamic = a.dynamic := by
  induction vs generalizing a i with
  | nil          => rfl
  | cons v vs hi =>
    rw [setFrom, hi, setArrayElementAt_dynamic]

-- An array that grows gets an element for each value, if it is made for their type.
theorem setFrom_data (hd : a.dynamic) (ht : a.type = type) (hn : type ≠ .null) (hc : type ≠ .chars)
    (vs : List CMPIValue) : (a.setFrom type a.data.length vs).data = a.data ++ vs.map (item type) := by
  induction vs generalizing a with
  | nil          => simp [setFrom]
  | cons v vs hi =>
    have hs : (a.setArrayElementAt a.data.length v type).data = a.data ++ [item type v] := by
      simp [setArrayElementAt, setElementAt, hd, hn, hc, ht, item]
    have hl : (a.setArrayElementAt a.data.length v type).data.length = a.data.length + 1 := by
      simp [hs]
    rw [setFrom, ← hl, hi (setArrayElementAt_dynamic.trans hd) (setArrayElementAt_type.trans ht), hs]
    simp

-- So does one that was made for their number.
theorem setFrom_data_of_size {i : ℕ} (hd : a.dynamic = false) (ht : a.type = type) (hn : type ≠ .null)
    (hc : type ≠ .chars) (vs : List CMPIValue) (hl : a.data.length = i + vs.length) :
    (a.setFrom type i vs).data = a.data.take i ++ vs.map (item type) := by
  induction vs generalizing a i with
  | nil          =>
    simp only [List.length_nil, Nat.add_zero] at hl
    simp [setFrom, ← hl]
  | cons v vs hi =>
    rw [List.length_cons] at hl
    have hs : (a.setArrayElementAt i v type).data = a.data.set i (item type v) := by
      simp [setArrayElementAt, setElementAt, hd, hn, hc, ht, item]
    have hlen : (a.setArrayElementAt i v type).data.length = (i + 1) + vs.length := by
      rw [hs, List.length_set, hl]
      omega
    rw [setFrom, hi (setArrayElementAt_dynamic.trans hd) (setArrayElementAt_type.trans ht) hlen, hs,
      List.take_succ_eq_append_getElem (by simp; omega), List.take_set_of_le (Nat.le_refl i)]
    simp

end Sfcc.NativeArray
