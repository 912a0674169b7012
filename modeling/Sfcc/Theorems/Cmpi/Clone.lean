import Mathlib.Data.List.Forall2
import Sfcc.Theorems.Cmpi.Named

namespace Sfcc

-- When two objects are the same, given when their values are. What is null has no value, and neither
-- has a property in one of the states `lost`.

section

variable {V W : Type} (lost : CMPIValueState → Prop) (R : V → W → Prop)

inductive NativeQualifier.Same : NativeQualifier V → NativeQualifier W → Prop
  | mk {name type state v w} : (state.isNull = false → R v w) →
    Same ⟨name, type, state, v⟩ ⟨name, type, state, w⟩

inductive NativeProperty.Same : NativeProperty V → NativeProperty W → Prop
  | mk {name type state v w quals quals'} : (state.isNull = false → ¬ lost state → R v w) →
    List.Forall₂ (NativeQualifier.Same R) quals quals' →
    Same ⟨name, type, state, v, quals⟩ ⟨name, type, state, w, quals'⟩

inductive NativeMethod.Same : NativeMethod V → NativeMethod W → Prop
  | mk {name type state v w params quals quals'} : (state.isNull = false → R v w) →
    List.Forall₂ (NativeQualifier.Same R) quals quals' →
    Same ⟨name, type, state, v, params, quals⟩ ⟨name, type, state, w, params, quals'⟩

inductive NativeArrayItem.Same : NativeArrayItem V → NativeArrayItem W → Prop
  | mk {state v w} : (state.isNull = false → R v w) → Same ⟨state, v⟩ ⟨state, w⟩

end

inductive CMPIValue.Same (lost : CMPIValueState → Prop) : CMPIValue → CMPIValue → Prop
  | refl (v : CMPIValue) : Same lost v v
  | ref {ns cn keys keys'} :
    List.Forall₂ (NativeProperty.Same lost (CMPIValue.Same lost)) keys keys' →
    Same lost (.ref ⟨ns, cn, keys⟩) (.ref ⟨ns, cn, keys'⟩)
  | inst {cn ns props props' quals quals'} :
    List.Forall₂ (NativeProperty.Same lost (CMPIValue.Same lost)) props props' →
    List.Forall₂ (NativeQualifier.Same (CMPIValue.Same lost)) quals quals' →
    Same lost (.inst ⟨cn, ns, props, quals⟩) (.inst ⟨cn, ns, props', quals'⟩)
  | cls {cn props props' quals quals' methods methods'} :
    List.Forall₂ (NativeProperty.Same lost (CMPIValue.Same lost)) props props' →
    List.Forall₂ (NativeQualifier.Same (CMPIValue.Same lost)) quals quals' →
    List.Forall₂ (NativeMethod.Same (CMPIValue.Same lost)) methods methods' →
    Same lost (.cls ⟨cn, props, quals, methods⟩) (.cls ⟨cn, props', quals', methods'⟩)
  | array {type max max' dyn dyn' data data'} :
    List.Forall₂ (NativeArrayItem.Same (CMPIValue.Same lost)) data data' →
    Same lost (.array ⟨type, max, dyn, data⟩) (.array ⟨type, max', dyn', data'⟩)

-- The type of an array is that of an element, in the arrays that a value is made of.
mutual

def CMPIValue.Flat : CMPIValue → Prop
  | .ref ⟨_, _, keys⟩               => flatProperties keys
  | .inst ⟨_, _, props, quals⟩      => flatProperties props ∧ flatQualifiers quals
  | .cls ⟨_, props, quals, methods⟩ =>
    flatProperties props ∧ flatQualifiers quals ∧ flatMethods methods
  | .array ⟨type, _, _, data⟩       => (type.isArray = false ∧ type ≠ .chars) ∧ flatItems data
  | _                               => True

def flatProperties : List (NativeProperty CMPIValue) → Prop
  | []                             => True
  | ⟨_, _, _, value, quals⟩ :: props => (value.Flat ∧ flatQualifiers quals) ∧ flatProperties props

def flatQualifiers : List (NativeQualifier CMPIValue) → Prop
  | []                      => True
  | ⟨_, _, _, value⟩ :: quals => value.Flat ∧ flatQualifiers quals

def flatMethods : List (NativeMethod CMPIValue) → Prop
  | []                                    => True
  | ⟨_, _, _, value, _, quals⟩ :: methods => (value.Flat ∧ flatQualifiers quals) ∧ flatMethods methods

def flatItems : List (NativeArrayItem CMPIValue) → Prop
  | []                  => True
  | ⟨_, value⟩ :: items => value.Flat ∧ flatItems items

end

namespace CMPIType

theorem element_of_not_isArray {t : CMPIType} (h : t.isArray = false) : t.element = t := by
  have ha : t &&& array = 0 := by simpa [isArray] using h
  have hb : t.toBitVec &&& array.toBitVec = 0#16 := congrArg UInt16.toBitVec ha
  refine UInt16.toBitVec_inj.mp ?_
  ext i hi
  have hbi := congrArg (·.getLsbD i) hb
  simp [element] at hbi ⊢
  grind

@[simp]
theorem element_not_isArray (t : CMPIType) : t.element.isArray = false := by
  simp [isArray, element, UInt16.and_assoc]

end CMPIType

theorem newCMPIArray_type {n : ℕ} {type : CMPIType} (h : type.isArray = false ∧ type ≠ .chars) :
    (newCMPIArray n type).type = type := by
  simp only [newCMPIArray, CMPIType.element_of_not_isArray h.left, if_neg h.right]

theorem newCMPIArray_flat (n : ℕ) (type : CMPIType) :
    (newCMPIArray n type).type.isArray = false ∧ (newCMPIArray n type).type ≠ .chars := by
  simp only [newCMPIArray]
  split
  · decide
  · exact ⟨CMPIType.element_not_isArray type, ‹_›⟩

theorem native_clone_inst (i : CMPIInstance) : native_clone_CMPIValue .inst (.inst i) = .inst i.clone := by
  rw [native_clone_CMPIValue, CMPIType.cloneWith, show CMPIType.cloning .inst = .object by decide]
  cases i
  rfl

theorem native_clone_ref (p : CMPIObjectPath) : native_clone_CMPIValue .ref (.ref p) = .ref p.clone := by
  rw [native_clone_CMPIValue, CMPIType.cloneWith, show CMPIType.cloning .ref = .object by decide]
  cases p
  rfl

section Flat

variable {type : CMPIType} {v w : CMPIValue}

theorem cloneWith_flat (hv : v.Flat) (hw : w.Flat) : (type.cloneWith v w).Flat := by
  rw [CMPIType.cloneWith]
  split
  · exact hw
  · exact hv
  · trivial

theorem ite_zero_flat {p : Prop} [Decidable p] (hv : v.Flat) :
    (if p then CMPIValue.zero else v).Flat := by
  split
  · trivial
  · exact hv

end Flat

mutual

theorem CMPIValue.clone_flat : ∀ v : CMPIValue, v.Flat → v.clone.Flat
  | .ref ⟨_, _, keys⟩, h               => cloneProperties_flat keys h
  | .inst ⟨_, _, props, quals⟩, h      =>
    ⟨cloneProperties_flat props h.left, cloneQualifiers_flat quals h.right⟩
  | .cls ⟨_, props, quals, methods⟩, h =>
    ⟨cloneProperties_flat props h.left, cloneQualifiers_flat quals h.right.left,
      cloneMethods_flat methods h.right.right⟩
  | .array ⟨type, _, _, data⟩, h       =>
    ⟨newCMPIArray_flat data.length type, cloneItems_flat type data h.right⟩
  | .indeterminate, _ | .zero, _ | .boolean _, _ | .char16 _, _ | .uint8 _, _ | .uint16 _, _
  | .uint32 _, _ | .uint64 _, _ | .sint8 _, _ | .sint16 _, _ | .sint32 _, _ | .sint64 _, _
  | .real32 _, _ | .real64 _, _ | .chars _, _ | .string _, _ | .dateTime _, _ => trivial

theorem cloneProperties_flat : ∀ props, flatProperties props → flatProperties (cloneProperties props)
  | [], _                              => trivial
  | ⟨_, _, _, value, quals⟩ :: props, h =>
    ⟨⟨ite_zero_flat (cloneWith_flat h.left.left (value.clone_flat h.left.left)),
      cloneQualifiers_flat quals h.left.right⟩, cloneProperties_flat props h.right⟩

theorem cloneQualifiers_flat : ∀ quals, flatQualifiers quals → flatQualifiers (cloneQualifiers quals)
  | [], _                       => trivial
  | ⟨_, _, _, value⟩ :: quals, h =>
    ⟨cloneWith_flat h.left (value.clone_flat h.left), cloneQualifiers_flat quals h.right⟩

theorem cloneMethods_flat : ∀ methods, flatMethods methods → flatMethods (cloneMethods methods)
  | [], _                                   => trivial
  | ⟨_, _, _, value, _, quals⟩ :: methods, h =>
    ⟨⟨cloneWith_flat h.left.left (value.clone_flat h.left.left),
      cloneQualifiers_flat quals h.left.right⟩, cloneMethods_flat methods h.right⟩

theorem cloneItems_flat (type : CMPIType) : ∀ items, flatItems items → flatItems (cloneItems type items)
  | [], _                 => trivial
  | ⟨_, value⟩ :: items, h =>
    ⟨ite_zero_flat (cloneWith_flat h.left (value.clone_flat h.left)), cloneItems_flat type items h.right⟩

end

@[simp]
theorem cloneItems_length (type : CMPIType) (items : List (NativeArrayItem CMPIValue)) :
    (cloneItems type items).length = items.length := by
  induction items with
  | nil              => simp [cloneItems]
  | cons item its hi => simp [cloneItems, hi]

section Again

variable {type : CMPIType} {v : CMPIValue}

-- A copy of a copy is the copy, whichever way values of the type are copied.
theorem cloneWith_again (h : v.clone.clone = v.clone) :
    type.cloneWith (type.cloneWith v v.clone) (type.cloneWith v v.clone).clone =
      type.cloneWith v v.clone := by
  simp only [CMPIType.cloneWith]
  cases type.cloning with
  | object => exact h
  | value  => rfl
  | lost   => rfl

theorem ite_cloneWith_again {p : Prop} [Decidable p] (h : v.clone.clone = v.clone) :
    (if p then CMPIValue.zero else
      type.cloneWith (if p then .zero else type.cloneWith v v.clone)
        (if p then .zero else type.cloneWith v v.clone).clone) =
      if p then .zero else type.cloneWith v v.clone := by
  split
  · rfl
  · exact cloneWith_again h

end Again

mutual

theorem CMPIValue.clone_clone : ∀ v : CMPIValue, v.Flat → v.clone.clone = v.clone
  | .ref ⟨_, _, keys⟩, h               => by
    simp only [CMPIValue.clone, cloneProperties_again keys h]
  | .inst ⟨_, _, props, quals⟩, h      => by
    simp only [CMPIValue.clone, cloneProperties_again props h.left, cloneQualifiers_again quals h.right]
  | .cls ⟨_, props, quals, methods⟩, h => by
    simp only [CMPIValue.clone, cloneProperties_again props h.left,
      cloneQualifiers_again quals h.right.left, cloneMethods_again methods h.right.right]
  | .array ⟨type, _, _, data⟩, h       => by
    have hl : (cloneItems type data).length = data.length := cloneItems_length type data
    simp only [CMPIValue.clone, newCMPIArray_type h.left, hl, cloneItems_again type data h.right]
  | .indeterminate, _ | .zero, _ | .boolean _, _ | .char16 _, _ | .uint8 _, _ | .uint16 _, _
  | .uint32 _, _ | .uint64 _, _ | .sint8 _, _ | .sint16 _, _ | .sint32 _, _ | .sint64 _, _
  | .real32 _, _ | .real64 _, _ | .chars _, _ | .string _, _ | .dateTime _, _ => rfl

theorem cloneProperties_again : ∀ props, flatProperties props →
    cloneProperties (cloneProperties props) = cloneProperties props
  | [], _                              => rfl
  | ⟨_, _, state, value, quals⟩ :: props, h => by
    simp only [cloneProperties, ite_cloneWith_again (value.clone_clone h.left.left),
      cloneQualifiers_again quals h.left.right, cloneProperties_again props h.right]

theorem cloneQualifiers_again : ∀ quals, flatQualifiers quals →
    cloneQualifiers (cloneQualifiers quals) = cloneQualifiers quals
  | [], _                       => rfl
  | ⟨_, _, _, value⟩ :: quals, h => by
    simp only [cloneQualifiers, cloneWith_again (value.clone_clone h.left),
      cloneQualifiers_again quals h.right]

theorem cloneMethods_again : ∀ methods, flatMethods methods →
    cloneMethods (cloneMethods methods) = cloneMethods methods
  | [], _                                   => rfl
  | ⟨_, _, _, value, _, quals⟩ :: methods, h => by
    simp only [cloneMethods, cloneWith_again (value.clone_clone h.left.left),
      cloneQualifiers_again quals h.left.right, cloneMethods_again methods h.right]

theorem cloneItems_again (type : CMPIType) : ∀ items, flatItems items →
    cloneItems type (cloneItems type items) = cloneItems type items
  | [], _                     => rfl
  | ⟨state, value⟩ :: items, h => by
    simp only [cloneItems, ite_cloneWith_again (value.clone_clone h.left),
      cloneItems_again type items h.right]

end

-- The entries of an object that was built from copies: a further copy is the same.

section Kept

variable (lost : CMPIValueState → Prop)

structure NativeQualifier.Kept (q : NativeQualifier CMPIValue) : Prop where
  flat : q.value.Flat
  same : q.value.Same lost (native_clone_CMPIValue q.type q.value)

structure NativeProperty.Kept (p : NativeProperty CMPIValue) : Prop where
  flat  : p.value.Flat
  same  : p.state ≠ .null → p.value.Same lost (native_clone_CMPIValue p.type p.value)
  bad   : p.state = .bad → lost .bad
  quals : ∀ q ∈ p.qualifiers, q.Kept lost

structure NativeMethod.Kept (m : NativeMethod CMPIValue) : Prop where
  flat  : m.value.Flat
  same  : m.value.Same lost (native_clone_CMPIValue m.type m.value)
  quals : ∀ q ∈ m.qualifiers, q.Kept lost

structure NativeCop.Kept (p : CMPIObjectPath) : Prop where
  keys : ∀ k ∈ p.keys, k.Kept lost

structure NativeInstance.Kept (i : CMPIInstance) : Prop where
  props : ∀ p ∈ i.props, p.Kept lost
  quals : ∀ q ∈ i.qualifiers, q.Kept lost

structure NativeConstClass.Kept (cc : CMPIConstClass) : Prop where
  props   : ∀ p ∈ cc.props, p.Kept lost
  quals   : ∀ q ∈ cc.qualifiers, q.Kept lost
  methods : ∀ m ∈ cc.methods, m.Kept lost

end Kept

section

variable {lost : CMPIValueState → Prop} {name : Text} {type : CMPIType} {state : CMPIValueState}
variable {v : CMPIValue} {value : Option CMPIValue}

-- Neither null nor the text of a `CMPI_chars` is an object.
theorem charsValue_flat (value : Option CMPIValue) : (charsValue value).Flat := by
  cases value with
  | none   => trivial
  | some v => cases v <;> trivial

theorem native_clone_charsValue (value : Option CMPIValue) :
    native_clone_CMPIValue .string (charsValue value) = charsValue value := by
  cases value with
  | none   => rfl
  | some v => cases v <;> rfl

theorem charsValue_same (value : Option CMPIValue) :
    (charsValue value).Same lost (native_clone_CMPIValue .string (charsValue value)) := by
  rw [native_clone_charsValue]
  exact .refl _

theorem native_clone_flat (h : v.Flat) : (native_clone_CMPIValue type v).Flat :=
  cloneWith_flat h (v.clone_flat h)

theorem native_clone_again (h : v.Flat) :
    native_clone_CMPIValue type (native_clone_CMPIValue type v) = native_clone_CMPIValue type v :=
  cloneWith_again (v.clone_clone h)

theorem native_clone_same (h : v.Flat) : (native_clone_CMPIValue type v).Same lost
    (native_clone_CMPIValue type (native_clone_CMPIValue type v)) := by
  rw [native_clone_again h]
  exact .refl _

theorem same_native_clone_null : v.Same lost (native_clone_CMPIValue .null v) := by
  have h : native_clone_CMPIValue .null v = v := rfl
  rw [h]
  exact .refl v

theorem same_native_clone_zero : CMPIValue.zero.Same lost (native_clone_CMPIValue type .zero) := by
  rw [native_clone_CMPIValue, CMPIType.cloneWith]
  cases type.cloning <;> exact .refl _

theorem NativeProperty.new_kept (h : v.Flat) (hb : state = .bad → lost .bad) :
    (NativeProperty.new name type state v).Kept lost := by
  rw [NativeProperty.new]
  split
  · split
    · exact ⟨charsValue_flat _, fun _ => charsValue_same _, hb, fun _ hq => absurd hq List.not_mem_nil⟩
    · exact ⟨native_clone_flat h, fun _ => native_clone_same h, hb, fun _ hq => absurd hq List.not_mem_nil⟩
  · exact ⟨trivial, fun hn => absurd rfl hn, fun hs => (by cases hs), fun _ hq => absurd hq List.not_mem_nil⟩

theorem NativeProperty.replace_kept {p : NativeProperty CMPIValue} (hp : p.Kept lost)
    (h : ∀ v ∈ value, v.Flat) : (p.replace type value).Kept lost := by
  unfold NativeProperty.replace
  split
  · exact ⟨charsValue_flat value, fun _ => charsValue_same value, hp.bad, hp.quals⟩
  · cases value with
    | none   => exact ⟨hp.flat, fun hn => absurd rfl hn, nofun, hp.quals⟩
    | some v =>
      have hv := h v rfl
      simp only
      split
      · exact ⟨native_clone_flat hv, fun _ => native_clone_same hv, hp.bad, hp.quals⟩
      · exact ⟨hp.flat, fun hn => absurd rfl hn, nofun, hp.quals⟩

theorem NativeQualifier.new_kept (h : v.Flat) : (NativeQualifier.new name type state v).Kept lost := by
  rw [NativeQualifier.new]
  split
  · split
    · exact ⟨charsValue_flat _, charsValue_same _⟩
    · exact ⟨native_clone_flat h, native_clone_same h⟩
  · exact ⟨trivial, same_native_clone_zero⟩

theorem NativeQualifier.replace_kept {q : NativeQualifier CMPIValue} (hq : q.Kept lost) (h : v.Flat) :
    (q.replace type v).Kept lost := by
  rw [NativeQualifier.replace]
  split
  · exact ⟨charsValue_flat _, charsValue_same _⟩
  · split
    · exact ⟨native_clone_flat h, native_clone_same h⟩
    · rename_i hn
      rw [Classical.not_not.mp hn]
      exact ⟨hq.flat, same_native_clone_null⟩

theorem NativeMethod.new_kept (h : v.Flat) : (NativeMethod.new name type state v).Kept lost := by
  rw [NativeMethod.new]
  split
  · split
    · exact ⟨charsValue_flat _, charsValue_same _, nofun⟩
    · exact ⟨native_clone_flat h, native_clone_same h, nofun⟩
  · exact ⟨trivial, same_native_clone_zero, nofun⟩

theorem NativeMethod.replace_kept {m : NativeMethod CMPIValue} (hm : m.Kept lost) (h : v.Flat) :
    (m.replace type v).Kept lost := by
  rw [NativeMethod.replace]
  split
  · exact ⟨charsValue_flat _, charsValue_same _, hm.quals⟩
  · split
    · exact ⟨native_clone_flat h, native_clone_same h, hm.quals⟩
    · rename_i hn
      rw [Classical.not_not.mp hn]
      exact ⟨hm.flat, same_native_clone_null, hm.quals⟩

theorem setOrAddQualifier_kept {quals : List (NativeQualifier CMPIValue)}
    (hq : ∀ q ∈ quals, q.Kept lost) (h : v.Flat) :
    ∀ q ∈ setOrAddQualifier quals name v type, q.Kept lost :=
  Named.forall_setOrAdd hq (fun _ hq => NativeQualifier.replace_kept hq h)
    (NativeQualifier.new_kept h)

theorem addProperty_kept {props : List (NativeProperty CMPIValue)} (hp : ∀ p ∈ props, p.Kept lost)
    (h : v.Flat) (hb : state = .bad → lost .bad) :
    ∀ p ∈ addProperty props name type state v, p.Kept lost :=
  Named.forall_add hp (NativeProperty.new_kept h hb)

-- What is stored for `NULL` is flat, too.
theorem addPropertyPtr_kept {props props' : List (NativeProperty CMPIValue)} (hp : ∀ p ∈ props, p.Kept lost)
    (h : ∀ v ∈ value, v.Flat) (ha : addPropertyPtr props name type state value = .ok props') (hb : state = .bad → lost .bad) :
    ∀ p ∈ props', p.Kept lost := by
  obtain ⟨v, rfl, hv | rfl | rfl⟩ := addPropertyPtr_ok ha
  · exact addProperty_kept hp (h v hv) hb
  · exact addProperty_kept hp trivial hb
  · exact addProperty_kept hp trivial hb

theorem addQualifierTo_kept {P : Type} {nameOf : P → Text} {add : P → Text → P} {l l' : List P}
    {Q : P → Prop} {pname qname : Option Text} (hl : ∀ p ∈ l, Q p) (ha : ∀ p n, Q p → Q (add p n))
    (h : addQualifierTo nameOf add l pname qname = .ok l') : ∀ p ∈ l', Q p := by
  unfold addQualifierTo at h
  cases pname with
  | none       =>
    cases h
    exact hl
  | some pname =>
    simp only at h
    split at h
    · cases qname with
      | none       => cases h
      | some qname =>
        cases h
        cases hs : Named.set nameOf (add · qname) l pname with
        | none    => exact hl
        | some l₁ => exact Named.forall_set hl (fun p => ha p qname) hs
    · cases h
      exact hl

end

-- Objects made of such entries are flat, and the same as their copies.
section

variable {lost : CMPIValueState → Prop}

theorem flatQualifiers_of_kept {quals : List (NativeQualifier CMPIValue)}
    (h : ∀ q ∈ quals, q.Kept lost) : flatQualifiers quals := by
  induction quals with
  | nil          => trivial
  | cons q qs hi =>
    have ⟨hq, hqs⟩ := List.forall_mem_cons.mp h
    exact ⟨hq.flat, hi hqs⟩

theorem flatProperties_of_kept {props : List (NativeProperty CMPIValue)}
    (h : ∀ p ∈ props, p.Kept lost) : flatProperties props := by
  induction props with
  | nil          => trivial
  | cons p ps hi =>
    have ⟨hp, hps⟩ := List.forall_mem_cons.mp h
    exact ⟨⟨hp.flat, flatQualifiers_of_kept hp.quals⟩, hi hps⟩

theorem qualifiers_same {quals : List (NativeQualifier CMPIValue)} (h : ∀ q ∈ quals, q.Kept lost) :
    List.Forall₂ (NativeQualifier.Same (CMPIValue.Same lost)) quals (cloneQualifiers quals) := by
  induction quals with
  | nil          => exact .nil
  | cons q qs hi =>
    have ⟨hq, hqs⟩ := List.forall_mem_cons.mp h
    exact .cons (.mk fun _ => hq.same) (hi hqs)

theorem properties_same {props : List (NativeProperty CMPIValue)} (h : ∀ p ∈ props, p.Kept lost) :
    List.Forall₂ (NativeProperty.Same lost (CMPIValue.Same lost)) props (cloneProperties props) := by
  induction props with
  | nil          => exact .nil
  | cons p ps hi =>
    have ⟨hp, hps⟩ := List.forall_mem_cons.mp h
    refine .cons (.mk (fun hn hl => ?_) (qualifiers_same hp.quals)) (hi hps)
    have hnull : p.state ≠ .null := by
      intro he
      rw [he] at hn
      cases hn
    have hbad : p.state ≠ .bad := fun he => hl (he ▸ hp.bad he)
    rw [if_neg (by tauto)]
    exact hp.same hnull

theorem methods_same {methods : List (NativeMethod CMPIValue)} (h : ∀ m ∈ methods, m.Kept lost) :
    List.Forall₂ (NativeMethod.Same (CMPIValue.Same lost)) methods (cloneMethods methods) := by
  induction methods with
  | nil          => exact .nil
  | cons m ms hi =>
    have ⟨hm, hms⟩ := List.forall_mem_cons.mp h
    exact .cons (.mk (fun _ => hm.same) (qualifiers_same hm.quals)) (hi hms)

theorem NativeCop.Kept.same {p : CMPIObjectPath} (h : p.Kept lost) :
    CMPIValue.Same lost (.ref p) (.ref p.clone) :=
  .ref (properties_same h.keys)

theorem NativeInstance.Kept.same {i : CMPIInstance} (h : i.Kept lost) :
    CMPIValue.Same lost (.inst i) (.inst i.clone) :=
  .inst (properties_same h.props) (qualifiers_same h.quals)

theorem NativeConstClass.Kept.same {cc : CMPIConstClass} (h : cc.Kept lost) :
    CMPIValue.Same lost (.cls cc) (.cls cc.clone) :=
  .cls (properties_same h.props) (qualifiers_same h.quals) (methods_same h.methods)

end

end Sfcc
