import Sfcc.Theorems.Xml.Elements
import Sfcc.Theorems.Xml.Scalar

-- The tokens of the elements that values are written as.
namespace Sfcc.Xml

-- A name of a class or a property.
def IsName (t : Text) : Prop :=
  ∀ c ∈ t, isalnum c ∨ c = 95

theorem IsName.not_mem {t : Text} (h : IsName t) : ∀ c ∈ ([34, 60, 62, 93] : Text), c ∉ t := by
  have hall : ∀ c ∈ ([34, 60, 62, 93] : Text), ¬ (isalnum c ∨ c = 95) := by decide
  exact fun c hc hm => hall c hc (h c hm)

-- An element with a name, and a type if there is one.
def container (tag typeName name : Text) (type : Option Text) (body : Text) : Text :=
  bytes "<" ++ tag ++ bytes " NAME=\"" ++ name ++ bytes "\"" ++
    type.elim [] (fun t => bytes " " ++ typeName ++ bytes "=\"" ++ t ++ bytes "\"") ++ bytes ">\n" ++ body ++
    bytes "</" ++ tag ++ bytes ">\n"

def valueArrayElement (cvs : List Text) : Text :=
  bytes "<VALUE.ARRAY>\n" ++ cvs.flatMap valueElement ++ bytes "</VALUE.ARRAY>\n"

section

variable {printg : Text → Text} {tag typeName name cv : Text} {cvs : List Text} {data : CMPIData} {type : CMPIType}

theorem container_eq {elm : List Text} {body : Text} {t : Option Text} :
    container tag typeName name t body =
      startTag tag (bytes "NAME" :: typeName :: elm) (name :: t.toList) ++ ([10] ++ body) ++ endTag tag ++ [10] := by
  cases t with
  | none   => simp [container, startTag, endTag, attrText, bytes]
  | some t => simp [container, startTag, endTag, attrText, bytes]

theorem addXmlValue_null {ct : Option Text} (h : data.state.isNull) : addXmlValue printg tag ct name data = .ok [] := by
  rw [addXmlValue]
  simp only [h, if_true]
  rfl

theorem addXmlValue_value (hs : data.state.isNull = false) (ha : data.type.isArray = false) (hr : data.type ≠ .ref) :
    addXmlValue printg tag (some typeName) name data = (valueText printg data.type.element data.value).map fun cv =>
      container tag typeName name (cmpiToXmlType data.type.element) (valueElement cv) := by
  rw [addXmlValue]
  simp only [hs, ha, hr, Bool.false_eq_true, if_false, List.append_nil, ite_self]
  cases valueText printg data.type.element data.value with
  | error e => rfl
  | ok cv   =>
    simp only [Except.map, bind, Except.bind, pure, Except.pure, container]
    cases cmpiToXmlType data.type.element <;> rfl

theorem addXmlValue_array {a : CMPIArray} (hs : data.state.isNull = false) (ha : data.type.isArray)
    (hv : data.value = .array a) (hn : a.data ≠ []) (ht : sameIgnoringCase tag (bytes "PARAMVALUE") = false) :
    addXmlValue printg tag (some typeName) name data =
      (a.data.mapM fun ele => valueText printg data.type.element ele.value).map fun cvs =>
        container (tag ++ bytes ".ARRAY") typeName name (cmpiToXmlType data.type.element) (valueArrayElement cvs) := by
  rw [addXmlValue]
  simp only [hs, ha, hv, hn, ht, Bool.false_eq_true, if_false, if_true]
  cases a.data.mapM fun ele => valueText printg data.type.element ele.value with
  | error e => rfl
  | ok cvs  =>
    simp only [Except.map, bind, Except.bind, pure, Except.pure, container, valueArrayElement]
    cases cmpiToXmlType data.type.element <;> rfl

theorem addXmlValue_empty {a : CMPIArray} (hs : data.state.isNull = false) (ha : data.type.isArray)
    (hv : data.value = .array a) (hn : a.data = []) : addXmlValue printg tag (some typeName) name data = .ok [] := by
  rw [addXmlValue]
  simp only [hs, ha, hv, hn, Bool.false_eq_true, if_false, if_true]
  rfl

-- The names of types are texts that can stand in an attribute.
theorem cmpiToXmlType_open {t : Text} (h : t ∈ cmpiToXmlType type) : ∀ c ∈ ([34, 62, 93] : Text), c ∉ t := by
  have hall : ∀ e ∈ xmlCmpiTypes, ∀ c ∈ ([34, 62, 93] : Text), c ∉ e.1 := by decide
  have ⟨e, he, ht⟩ := Option.map_eq_some_iff.mp h
  exact ht ▸ hall e (List.mem_of_find?_eq_some he)

theorem valueElement_lexes (h : 60 ∉ cv) : Lexes (valueElement cv) (Tree.Value.text (trimmed cv)).yield := by
  have hl := (value_lexes h).line
  exact hl.of_eq (by simp [valueElement, bytes])

theorem texts_yields (cvs : List Text) : Tree.Value.yields (cvs.map fun cv => .text (trimmed cv)) =
    cvs.flatMap fun cv => (Tree.Value.text (trimmed cv)).yield := by
  induction cvs with
  | nil            => rfl
  | cons cv cvs hi => rw [List.map_cons, Tree.Value.yields, hi, List.flatMap_cons]

theorem valueArrayElement_lexes (h : ∀ cv ∈ cvs, 60 ∉ cv) : Lexes (valueArrayElement cvs)
    (Tree.tagged .VALUEARRAY () (Tree.Value.yields (cvs.map fun cv => .text (trimmed cv)))) := by
  have hk : Known ⟨bytes "VALUE.ARRAY", procValueArray, .Z .VALUEARRAY⟩ := known (List.mem_of_getElem? (i := 14) rfl)
  have hb := Lexes.flatMap fun cv hm => valueElement_lexes (h cv hm)
  rw [texts_yields]
  apply (Lexes.element .VALUEARRAY () hk .none rfl hb.indented).line.of_eq
  simp [valueArrayElement, startTag, endTag, attrText, bytes]

theorem property_lexes {body : Text} {ts : List Tok} (hn : 34 ∉ name) (hb : Lexes body ts) :
    Lexes (container (bytes "PROPERTY") (bytes "TYPE") name (cmpiToXmlType type) body)
      (Tree.tagged .PROPERTY { name := name, valueType := xmlToCmpiType (cmpiToXmlType type) } ts) := by
  have hk : Known ⟨bytes "PROPERTY", procProperty, .Z .PROPERTY⟩ := known (List.mem_of_getElem? (i := 28) rfl)
  have ht : ∀ t ∈ cmpiToXmlType type, 34 ∉ t := fun t ht => cmpiToXmlType_open ht 34 (by simp)
  have ha := @Attributes.typed name "NAME" "TYPE" ["CLASSORIGIN", "PROPAGATED", "EMBEDDEDOBJECT"] _ (by decide) hn ht
  refine (Lexes.element .PROPERTY { name := name, valueType := _ } hk ha ?_ hb.indented).line.of_eq container_eq
  cases cmpiToXmlType type <;> rfl

theorem propertyArray_lexes {body : Text} {ts : List Tok} (hn : 34 ∉ name) (hb : Lexes body ts) :
    Lexes (container (bytes "PROPERTY" ++ bytes ".ARRAY") (bytes "TYPE") name (cmpiToXmlType type) body)
      (Tree.tagged .PROPERTYARRAY { name := name, valueType := xmlToCmpiType (cmpiToXmlType type) } ts) := by
  have hk : Known ⟨bytes "PROPERTY.ARRAY", procPropertyArray, .Z .PROPERTYARRAY⟩ :=
    known (List.mem_of_getElem? (i := 27) rfl)
  have ht : ∀ t ∈ cmpiToXmlType type, 34 ∉ t := fun t ht => cmpiToXmlType_open ht 34 (by simp)
  have ha := @Attributes.typed name "NAME" "TYPE" ["CLASSORIGIN", "PROPAGATED", "ARRAYSIZE", "EMBEDDEDOBJECT"] _
    (by decide) hn ht
  refine (Lexes.element .PROPERTYARRAY { name := name, valueType := _ } hk ha ?_ hb.indented).line.of_eq container_eq
  cases cmpiToXmlType type <;> rfl

theorem mapM_mem {T α : Type} {f : T → Except Fault α} {l : List T} {vs : List α}
    (h : List.Forall₂ (fun t v => f t = .ok v) l vs) {v : α} (hv : v ∈ vs) : ∃ t ∈ l, f t = .ok v := by
  induction h with
  | nil          => cases hv
  | cons ht _ hi =>
    cases List.mem_cons.mp hv with
    | inl he => exact ⟨_, List.mem_cons_self .., he ▸ ht⟩
    | inr hv =>
      have ⟨t, hm, ht⟩ := hi hv
      exact ⟨t, List.mem_cons_of_mem _ hm, ht⟩

-- The path of an instance has its class name.
theorem getObjectPath_classname (inst : CMPIInstance) :
    ∃ p, inst.getObjectPath = .ok p ∧ p.classname = inst.classname := by
  have hfold (l : List (NativeProperty CMPIValue)) (cop : CMPIObjectPath) : ∃ p, l.foldlM (fun cop d =>
      if d.state.isKey then cop.addKey (some d.name) (some d.value) d.type else return cop) cop = .ok p ∧
      p.classname = cop.classname := by
    induction l generalizing cop with
    | nil         => exact ⟨cop, rfl, rfl⟩
    | cons d l hi =>
      rw [List.foldlM_cons]
      by_cases hk : d.state.isKey
      · rw [if_pos hk, NativeCop.addKey_some]
        exact hi { cop with keys := addProperty cop.keys d.name d.type .key d.value }
      · rw [if_neg hk]
        exact hi cop
  exact hfold _ _

-- The types of scalar values.
theorem Scalar.type_eq {S : Text → Prop} {v : CMPIValue} (h : Scalar S type v) :
    type.isArray = false ∧ type.element = type ∧ type ≠ .ref ∧ type ≠ .null ∧ type ≠ .chars ∧ type.cloning ≠ .lost := by
  cases h with
  | string _ | boolean _ | dateTime _ => decide
  | integer h                         => cases v <;> cases h <;> decide

theorem Scalar.array_type {S : Text → Prop} {v : CMPIValue} (h : Scalar S type v) :
    (type ||| .array).isArray ∧ (type ||| .array).element = type ∧ type ||| .array ≠ .ref ∧ type ||| .array ≠ .null ∧
      type ||| .array ≠ .chars := by
  cases h with
  | string _ | boolean _ | dateTime _ => decide
  | integer h                         => cases v <;> cases h <;> decide

theorem Scalar.type_read {S : Text → Prop} {v : CMPIValue} (h : Scalar S type v) :
    xmlToCmpiType (cmpiToXmlType type) = type := by
  cases h with
  | string _ | boolean _ | dateTime _ => decide
  | integer h                         => cases v <;> cases h <;> decide

end

end Sfcc.Xml
