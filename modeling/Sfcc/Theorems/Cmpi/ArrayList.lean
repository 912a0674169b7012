import Sfcc.Theorems.Cmpi.Slots

-- An array as the list of the elements it shows, and what `setElementAt` does to that list.
namespace Sfcc

-- What `getElementAt` shows of an element.
inductive Element
  | unwritten
  | null
  | value (v : CMPIValue)

def Element.of : Except Fault CMPIData → Element
  | .error _ => .unwritten
  | .ok data => if data.state.isNull then .null else .value data.value

structure SetElement where
  index : ℕ
  val   : Option CMPIValue
  type  : CMPIType

namespace ArrayBlock

def elements (a : ArrayBlock) : List Element :=
  (List.range a.size).map fun index => .of (a.getElementAt index)

-- Setting an element of the list, or adding one at its end.
def put (a : ArrayBlock) (index : ℕ) (e : Element) : List Element :=
  if index < a.size then a.elements.set index e else a.elements ++ [e]

-- Whether there is an element to set, or one can be added.
def Settable (a : ArrayBlock) (index : ℕ) : Prop :=
  index < a.size ∨ a.dynamic ∧ index = a.size

-- The elements that a type and a value stand for. A text is one where the array holds strings, and `NULL`
-- is zero where the type is not one of objects.
inductive Denotes (a : ArrayBlock) : Option CMPIValue → CMPIType → Element → Prop
  | null (val : Option CMPIValue) : Denotes a val .null .null
  | noText (hs : a.type = .string) : Denotes a none .chars .null
  | text (hs : a.type = .string) {v w : CMPIValue} (hw : w ∈ [charsValue (some v), (charsValue (some v)).clone]) :
    Denotes a (some v) .chars (.value w)
  | value {type : CMPIType} (hn : type ≠ .null) (hc : ¬ (type = .chars ∧ a.type = .string)) {v w : CMPIValue}
    (hw : w ∈ [v, v.clone]) : Denotes a (some v) type (.value w)
  | zero {type : CMPIType} (hn : type ≠ .null) (hv : type.cloning = .value) : Denotes a none type (.value .zero)

-- What a call does to the list. `NULL` must not be given for an object.
def SetsOne (a : ArrayBlock) (s : SetElement) : Except Fault (ArrayBlock × Bool) → Prop
  | .ok (a', true)  => a.Settable s.index ∧ ∃ e, a.Denotes s.val s.type e ∧ a'.elements = a.put s.index e
  | .ok (a', false) => a'.elements = a.elements
  | .error fault    => fault = .null

def set (a : ArrayBlock) (s : SetElement) : Except Fault (ArrayBlock × Bool) :=
  a.setElementAt s.index s.val s.type false

def Refines : ArrayBlock → List SetElement → Prop
  | _, []      => True
  | a, s :: ss => a.SetsOne s (a.set s) ∧
    match a.set s with
    | .ok (a', _) => Refines a' ss
    | .error _    => True

-- What is added is taken, null is not set where nothing was written, and the value can be copied.
structure Fits (a : ArrayBlock) (s : SetElement) : Prop where
  kind : a.dynamic → s.index = a.size →
    (a.converted s.val s.type).2 = .null ∨ (a.converted s.val s.type).2 = a.type
  slot : a.Settable s.index → (a.converted s.val s.type).2 = .null → a.data[s.index]? ≠ some none
  copy : a.Settable s.index → (a.converted s.val s.type).2 ≠ .null → (a.converted s.val s.type).2 = a.type →
    ∀ v, (a.converted s.val s.type).1 = some v → a.type.cloning = .lost → .zero ∈ [v, v.clone]

def AllFit : ArrayBlock → List SetElement → Prop
  | _, []      => True
  | a, s :: ss => a.Fits s ∧
    match a.set s with
    | .ok (a', _) => AllFit a' ss
    | .error _    => True

section

variable {a b : ArrayBlock} {index i : ℕ} {val : Option CMPIValue} {type : CMPIType} {e : Element}
variable {item : NativeArrayItem CMPIValue} {s : SetElement}

@[simp]
theorem elements_length (a : ArrayBlock) : a.elements.length = a.size := by
  rw [elements, List.length_map, List.length_range]

theorem getElementAt_of_lt (h : index < a.size) :
    a.getElementAt index =
      a.read index >>= fun item => pure { type := a.type, state := item.state, value := item.value } := by
  rw [getElementAt, if_pos h]

theorem element_congr (ha : index < a.size) (hb : index < b.size) (h : b.data[index]? = a.data[index]?) :
    Element.of (b.getElementAt index) = Element.of (a.getElementAt index) := by
  rw [getElementAt_of_lt ha, getElementAt_of_lt hb, read, read, h]
  split <;> rfl

theorem element_written (hi : index < a.size) (h : a.data[index]? = some (some item)) :
    Element.of (a.getElementAt index) = if item.state.isNull then .null else .value item.value := by
  rw [getElementAt_of_lt hi, read_ok h]
  rfl

theorem lt_grown_iff : index < (a.grown index).size ↔ a.Settable index := by
  rw [grown, Settable]
  split
  case isTrue hg  =>
    rw [increaseSize_size]
    exact iff_of_true (by omega) (.inr hg)
  case isFalse hg => exact ⟨.inl, fun h => h.resolve_right hg⟩

-- Arrays that differ in the slot of one element only.
theorem elements_put (hi : index < (a.grown index).size) (hs : b.size = (a.grown index).size)
    (hd : ∀ i, i ≠ index → b.data[i]? = (a.grown index).data[i]?)
    (he : Element.of (b.getElementAt index) = e) : b.elements = a.put index e := by
  have hold : ∀ i < a.size, i ≠ index → Element.of (b.getElementAt i) = Element.of (a.getElementAt i) := by
    intro i hlt hne
    by_cases hg : a.dynamic ∧ index = a.size
    · rw [grown, if_pos hg] at hd hs
      rw [increaseSize_size] at hs
      exact element_congr hlt (by omega) ((hd i hne).trans (increaseSize_data_of_lt hlt))
    · rw [grown, if_neg hg] at hd hs
      exact element_congr hlt (by omega) (hd i hne)
  apply List.ext_getElem?
  intro i
  by_cases hg : a.dynamic ∧ index = a.size
  · rw [grown, if_pos hg, increaseSize_size] at hs
    rw [put, if_neg (by omega), elements, hs, List.range_succ, List.map_append, List.map_singleton, ← hg.2, he]
    congr 2
    rw [elements, ← hg.2]
    apply List.map_congr_left
    intro i hmem
    have hlt := List.mem_range.mp hmem
    exact hold i (by omega) (by omega)
  · rw [grown, if_neg hg] at hi hs
    rw [put, if_pos hi, List.getElem?_set, elements, hs, elements_length]
    by_cases hne : index = i
    · rw [if_pos hne, if_pos hi, ← hne, List.getElem?_map, List.getElem?_range hi]
      exact congrArg some he
    · rw [if_neg hne, elements, List.getElem?_map, List.getElem?_map]
      by_cases hlt : i < a.size
      · rw [List.getElem?_range hlt]
        exact congrArg some (hold i hlt (Ne.symm hne))
      · rw [List.getElem?_eq_none (by rw [List.length_range]; omega)]
        rfl

theorem elements_write (hi : index < (a.grown index).size) (item : NativeArrayItem CMPIValue) :
    ((a.grown index).write index item).elements =
      a.put index (if item.state.isNull then .null else .value item.value) := by
  refine elements_put hi rfl (fun i hne => ?_) (element_written hi ?_)
  · rw [write_data, List.getElem?_set_ne (Ne.symm hne)]
  · exact List.getElem?_set_self (lt_length hi)

theorem elements_write_null (hi : index < (a.grown index).size) (v : CMPIValue) :
    ((a.grown index).write index { state := .null, value := v }).elements = a.put index .null := by
  have he := elements_write hi { state := .null, value := v }
  rw [Assignment.null_isNull] at he
  exact he

theorem elements_write_good (hi : index < (a.grown index).size) (v : CMPIValue) :
    ((a.grown index).write index { state := .good, value := v }).elements = a.put index (.value v) := by
  have he := elements_write hi { state := .good, value := v }
  rw [Assignment.good_isNull] at he
  exact he

-- An element that is null already.
theorem elements_grown (hi : index < (a.grown index).size) (hx : (a.grown index).data[index]? = some (some item)) :
    (a.grown index).elements = a.put index (if item.state.isNull then .null else .value item.value) :=
  elements_put hi rfl (fun _ _ => rfl) (element_written hi hx)

theorem put_injective {e' : Element} (he : a.put index e = a.put index e') : e = e' := by
  rw [put, put] at he
  split at he
  case isTrue hlt =>
    have hx := congrArg (·[index]?) he
    rw [List.getElem?_set_self (by rwa [elements_length]), List.getElem?_set_self (by rwa [elements_length])] at hx
    exact Option.some.inj hx
  case isFalse    => exact List.singleton_inj.mp (List.append_cancel_left he)

-- When nothing was taken, the elements are what they were unless the array has grown.
theorem elements_grown_iff : (a.grown index).elements = a.elements ↔ ¬ (a.dynamic ∧ index = a.size) := by
  constructor
  · intro he hg
    have hl := congrArg List.length he
    rw [elements_length, elements_length, grown, if_pos hg, increaseSize_size] at hl
    omega
  · intro hg
    rw [grown, if_neg hg]

-- The slot of an element that is set, before the array grows and after it.
theorem grown_bare_iff :
    (a.grown index).data[index]? = some none ↔ a.data[index]? = some none := by
  by_cases hg : a.dynamic ∧ index = a.size
  · have hs := a.size_le
    rw [grown, if_pos hg, increaseSize]
    split
    case isTrue hm  =>
      have hn : a.data[index]? = none := List.getElem?_eq_none (by rw [a.length_data]; omega)
      have hl : a.size < (a.data ++ List.replicate a.max (none : Slot)).length := by
        have := a.max_pos
        rw [List.length_append, List.length_replicate, a.length_data]
        omega
      rw [hn, hg.2, List.getElem?_set_self hl]
      simp
    case isFalse hm => exact Iff.rfl
  · rw [grown, if_neg hg]

theorem read_eq (hi : index < a.size) :
    a.data[index]? = some none ∧ a.read index = .error .wild ∨
      ∃ item, a.data[index]? = some (some item) ∧ a.read index = .ok item := by
  have hx := List.getElem?_eq_getElem (lt_length hi)
  cases hd : a.data.get ⟨index, lt_length hi⟩ with
  | none      => exact .inl ⟨hx.trans (congrArg some hd), read_bare (hx.trans (congrArg some hd))⟩
  | some item => exact .inr ⟨item, hx.trans (congrArg some hd), read_ok (hx.trans (congrArg some hd))⟩

theorem converted_asString (hs : type = .chars ∧ a.type = .string) :
    a.converted val type = match val with
      | some v => (some (charsValue (some v)), .string)
      | none   => (none, .null) :=
  if_pos hs

theorem converted_self (hs : ¬ (type = .chars ∧ a.type = .string)) : a.converted val type = (val, type) :=
  if_neg hs

theorem denotes_null (hn : (a.converted val type).2 = .null) : a.Denotes val type .null := by
  by_cases hs : type = .chars ∧ a.type = .string
  · rw [converted_asString hs] at hn
    cases val with
    | none   => exact hs.1 ▸ .noText hs.2
    | some v =>
      have hn : CMPIType.string = .null := hn
      exact absurd hn (by decide)
  · rw [converted_self hs] at hn
    have hn : type = .null := hn
    exact hn ▸ .null val

theorem denotes_value_iff {v w : CMPIValue} (hn : (a.converted val type).2 ≠ .null)
    (hv : (a.converted val type).1 = some v) : a.Denotes val type (.value w) ↔ w ∈ [v, v.clone] := by
  by_cases hs : type = .chars ∧ a.type = .string
  · rw [converted_asString hs] at hv
    cases val with
    | none   => cases hv
    | some u =>
      have hv := Option.some.inj hv
      constructor
      · intro hd
        cases hd with
        | text _ hw      => exact hv ▸ hw
        | value _ hc _   => exact absurd hs hc
      · intro hw
        exact hs.1 ▸ .text hs.2 (hv.symm ▸ hw)
  · rw [converted_self hs] at hn hv
    have hv : val = some v := hv
    constructor
    · intro hd
      rw [hv] at hd
      cases hd with
      | text ht _     => exact absurd ⟨rfl, ht⟩ hs
      | value _ _ hw  => exact hw
    · intro hw
      exact hv ▸ .value hn hs hw

theorem denotes_zero (hn : (a.converted val type).2 ≠ .null) (hv : (a.converted val type).1 = none)
    (hc : (a.converted val type).2.cloning = .value) : a.Denotes val type (.value .zero) := by
  by_cases hs : type = .chars ∧ a.type = .string
  · rw [converted_asString hs] at hn hv
    cases val with
    | none   => exact absurd rfl hn
    | some v => cases hv
  · rw [converted_self hs] at hn hv hc
    have hv : val = none := hv
    exact hv ▸ .zero hn hc

-- A call, by what is set: null, a value that is taken, or a value that is not.
theorem set_null (hi : a.Settable s.index) (hn : (a.converted s.val s.type).2 = .null) :
    a.SetsOne s (a.set s) ↔ a.data[s.index]? ≠ some none := by
  have hlt := lt_grown_iff.mpr hi
  rw [set, setElementAt_eq, if_pos hlt, if_pos hn]
  cases read_eq hlt with
  | inl hr =>
    rw [hr.2]
    refine iff_of_false (fun h => nomatch h) fun hb => hb (grown_bare_iff.mp hr.1)
  | inr hr =>
    have ⟨item, hx, hr⟩ := hr
    have hb : a.data[s.index]? ≠ some none := fun hb => by
      rw [grown_bare_iff.mpr hb] at hx
      cases hx
    rw [hr]
    refine iff_of_true ⟨hi, .null, denotes_null hn, ?_⟩ hb
    cases hnull : item.state.isNull with
    | true  =>
      have he := elements_grown hlt hx
      rw [hnull] at he
      exact he
    | false => exact elements_write_null hlt item.value

theorem set_value (hi : a.Settable s.index) (hn : (a.converted s.val s.type).2 ≠ .null)
    (ht : (a.converted s.val s.type).2 = a.type) :
    a.SetsOne s (a.set s) ↔
      ∀ v, (a.converted s.val s.type).1 = some v → a.type.cloning = .lost → .zero ∈ [v, v.clone] := by
  have hlt := lt_grown_iff.mpr hi
  rw [set, setElementAt_eq, if_pos hlt, if_neg hn, if_pos (.inr ht)]
  cases hv : (a.converted s.val s.type).1 with
  | none   =>
    refine iff_of_true ?_ (by simp)
    rw [stored, if_neg (by simp), native_clone]
    split
    case isTrue hc  => exact ⟨hi, _, denotes_zero hn hv hc, elements_write_good hlt .zero⟩
    case isFalse hc => exact rfl
  | some v =>
    have he := elements_write_good hlt (native_clone_CMPIValue a.type v)
    have hcopy := @Assignment.native_clone_mem_iff a.type v
    rw [ht]
    constructor
    · intro h u hu
      obtain ⟨_, e, hd, hput⟩ := h
      have heq : Element.value (native_clone_CMPIValue a.type v) = e := put_injective (he.symm.trans hput)
      rw [← heq] at hd
      exact Option.some.inj hu ▸ hcopy.mp ((denotes_value_iff hn hv).mp hd)
    · intro h
      exact ⟨hi, _, (denotes_value_iff hn hv).mpr (hcopy.mpr (h v rfl)), he⟩

theorem set_refused (hn : (a.converted s.val s.type).2 ≠ .null) (ht : (a.converted s.val s.type).2 ≠ a.type) :
    a.SetsOne s (a.set s) ↔ ¬ (a.dynamic ∧ s.index = a.size) := by
  have hnot : ¬ ((false : Bool) ∨ (a.converted s.val s.type).2 = a.type) := by
    intro h
    exact h.elim (fun h => nomatch h) ht
  rw [set, setElementAt_eq, if_neg hn, if_neg hnot, ite_self]
  exact elements_grown_iff

theorem set_outside (hi : ¬ a.Settable s.index) : a.SetsOne s (a.set s) := by
  rw [set, setElementAt_eq, if_neg fun h => hi (lt_grown_iff.mp h)]
  exact elements_grown_iff.mpr fun hg => hi (.inr hg)

-- One call.
theorem setsOne_iff (a : ArrayBlock) (s : SetElement) : a.SetsOne s (a.set s) ↔ a.Fits s := by
  by_cases hn : (a.converted s.val s.type).2 = .null
  · by_cases hi : a.Settable s.index
    · rw [set_null hi hn]
      exact ⟨fun h => ⟨fun _ _ => .inl hn, fun _ _ => h, fun _ h => absurd hn h⟩, fun h => h.slot hi hn⟩
    · exact iff_of_true (set_outside hi) ⟨fun _ _ => .inl hn, fun h => absurd h hi, fun h => absurd h hi⟩
  · by_cases ht : (a.converted s.val s.type).2 = a.type
    · by_cases hi : a.Settable s.index
      · rw [set_value hi hn ht]
        exact ⟨fun h => ⟨fun _ _ => .inr ht, fun _ h => absurd h hn, fun _ _ _ => h⟩, fun h => h.copy hi hn ht⟩
      · exact iff_of_true (set_outside hi) ⟨fun _ _ => .inr ht, fun h => absurd h hi, fun h => absurd h hi⟩
    · rw [set_refused hn ht]
      constructor
      · intro h
        exact ⟨fun hd he => absurd ⟨hd, he⟩ h, fun _ h => absurd h hn, fun _ _ h => absurd h ht⟩
      · intro h hg
        exact (h.kind hg.1 hg.2).elim hn ht

end

end ArrayBlock

end Sfcc
