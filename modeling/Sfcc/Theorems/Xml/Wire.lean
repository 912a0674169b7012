import Sfcc.Theorems.Xml.Values

-- What is written and read again.
namespace Sfcc

mutual

-- What a value consists of, without what only tells how it is kept: states, qualifiers, the room in an array,
-- and the namespace of an instance.
def CMPIValue.content : CMPIValue → CMPIValue
  | .ref ⟨nameSpace, classname, keys⟩ => .ref ⟨nameSpace, classname, contents keys⟩
  | .inst ⟨classname, _, props, _⟩    => .inst ⟨classname, none, contents props, []⟩
  | .array ⟨type, _, _, data⟩         => .array ⟨type, 0, false, itemContents data⟩
  | value                             => value

def contents : List (NativeProperty CMPIValue) → List (NativeProperty CMPIValue)
  | []                                 => []
  | ⟨name, type, _, value, _⟩ :: props => ⟨name, type, .good, value.content, []⟩ :: contents props

def itemContents : List (NativeArrayItem CMPIValue) → List (NativeArrayItem CMPIValue)
  | []                  => []
  | ⟨_, value⟩ :: items => ⟨.good, value.content⟩ :: itemContents items

end

theorem contents_append (ps qs : List (NativeProperty CMPIValue)) : contents (ps ++ qs) = contents ps ++ contents qs := by
  induction ps with
  | nil          => rfl
  | cons p ps hi => rw [List.cons_append, contents, contents, hi, List.cons_append]

namespace Xml

theorem Scalar.leaf {S : Text → Prop} {type : CMPIType} {v : CMPIValue} (h : Scalar S type v) : v.Leaf := by
  cases h with
  | string _ | boolean _ | dateTime _ => trivial
  | integer h                         => cases v <;> cases h <;> trivial

-- What a property can hold that gets to the other side: a value, or an array of values.
inductive Carried (S : Text → Prop) : CMPIType → CMPIValue → Prop
  | scalar {type v} (h : Scalar S type v) : Carried S type v
  | array {type} {a : CMPIArray} (ht : a.type = type) (hn : a.data ≠ [])
    (h : ∀ e ∈ a.data, e.state.isNull = false ∧ Scalar S type e.value) : Carried S (type ||| .array) (.array a)

section

variable {printg : Text → Text} {type : CMPIType} {v : CMPIValue}

-- A property is written as a tree that it is read from.
structure Wires (printg : Text → Text) (p : NativeProperty CMPIValue) (text : Text) (t : Tree.Property) : Prop where
  xml   : addXmlProperty printg p = .ok text
  lexes : Lexes text t.yield
  read  : ∀ (ci : CMPIInstance) (type : CMPIType), (∀ q ∈ ci.props, q.name.lower ≠ p.name.lower) →
    ∃ q type', setInstProperty ci type t.xtok = .ok ({ ci with props := ci.props ++ [q] }, type') ∧
      q.name = p.name ∧ cloneProperties [q] = [q] ∧ contents [q] = contents [p]

theorem setProperty_new {ci : CMPIInstance} {name : Text} (h : ∀ q ∈ ci.props, q.name.lower ≠ name.lower) (type : CMPIType)
    (v : CMPIValue) : ci.setProperty (some name) (some v) type =
      .ok { ci with props := ci.props ++ [.new name type .good v] } := by
  have hs : setProperty ci.props name type (some v) = none := by
    rw [setProperty, Named.set_none_iff, Named.get_none_iff]
    exact h
  simp only [NativeInstance.setProperty, deref, hs, bind, Except.bind, pure, Except.pure, addPropertyPtr_some,
    addProperty, Named.add_of_not_mem h, Option.isNone_some, Bool.false_eq_true, if_false]

theorem new_value (name : Text) (ht : type ≠ .null) (hc : type ≠ .chars) (v : CMPIValue) :
    NativeProperty.new name type .good v = ⟨name, type, .good, native_clone_CMPIValue type v, []⟩ := by
  have hs : CMPIValueState.good ≠ .null := by decide
  rw [NativeProperty.new, if_pos ⟨ht, hs⟩, if_neg hc]

-- A property that was made of a value is copied as it is.
theorem cloneProperties_new (name : Text) (ht : type ≠ .null) (hc : type ≠ .chars) (hv : v.Flat) :
    cloneProperties [.new name type .good v] = [.new name type .good v] := by
  have hs : ¬ (CMPIValueState.good = .null ∨ CMPIValueState.good = .bad) := by decide
  rw [new_value name ht hc, cloneProperties, if_neg hs, ← native_clone_CMPIValue, native_clone_again hv]
  rfl

-- The attributes of a property of a type, as they are read.
def attrOf (name : Text) (type : CMPIType) : PropertyAttr where
  name      := name
  valueType := type

theorem contents_singleton {p q : NativeProperty CMPIValue} (hn : q.name = p.name) (ht : q.type = p.type)
    (hv : q.value.content = p.value.content) : contents [q] = contents [p] := by
  simp only [contents, hn, ht, hv]

theorem scalar_wires {p : NativeProperty CMPIValue} (hn : 34 ∉ p.name) (hs : p.state.isNull = false)
    (h : Scalar Content p.type p.value) : ∃ text t, Wires printg p text t := by
  have ⟨cv, hcv⟩ := h.decoded
  have ⟨ha, he, hr, hnull, hc, hl⟩ := h.type_eq
  have hlex := @property_lexes _ p.type _ _ hn (valueElement_lexes hcv.open_)
  rw [h.type_read, hcv.framed.trimmed_eq] at hlex
  refine ⟨_, .value (attrOf p.name p.type) [] (some (.text cv)), ?_, hlex, fun ci type hnew => ?_⟩
  · have hv : valueText printg p.data.type.element p.data.value = .ok cv := by
      show valueText printg p.type.element p.value = .ok cv
      rw [he, hcv.print]
    have hd : p.data.type.element = p.type := he
    rw [addXmlProperty, if_neg hr, addXmlValue_value hs ha hr, hv, hd]
    rfl
  · refine ⟨.new p.name p.type .good p.value, p.type, ?_, NativeProperty.new_name ..,
      cloneProperties_new p.name hnull hc h.leaf.flat, ?_⟩
    · simp only [Tree.Property.xtok, Tree.Property.isInstance, Tree.Property.valueUnion, Tree.Value.xtok,
        XtokProperty.lexed, attrOf, setInstProperty, XtokPointer.isNull, Option.isNone_some, Bool.false_eq_true,
        if_false, or_self, hcv.read, setProperty_new hnew, bind, Except.bind, Tree.Qualifier.xtoks,
        setInstPropertyQualifiers]
      rfl
    · rw [new_value p.name hnull hc, native_clone_leaf h.leaf hl]
      exact contents_singleton rfl rfl rfl

-- The elements of an array, as they are written and read.
theorem elements_wire {conv : CMPIType → XtokPointer XtokInstance → Except Fault CMPIValue}
    {items : List (NativeArrayItem CMPIValue)} (h : ∀ e ∈ items, ∃ cv, Printed conv type e.value cv) :
    ∃ cvs : List Text, items.mapM (fun e => valueText printg type e.value) = .ok cvs ∧ (∀ cv ∈ cvs, 60 ∉ cv) ∧
      cvs.map trimmed = cvs ∧ cvs.length = items.length ∧
      (cvs.map fun cv => XtokPointer.value (some cv)).mapM (conv type) = .ok (items.map (·.value)) := by
  induction items with
  | nil             => exact ⟨[], rfl, fun _ h => absurd h List.not_mem_nil, rfl, rfl, rfl⟩
  | cons e items hi =>
    have ⟨he, hitems⟩ := List.forall_mem_cons.mp h
    have ⟨cvs, hp, ho, ht, hl, hr⟩ := hi hitems
    have ⟨cv, hcv⟩ := he
    refine ⟨cv :: cvs, ?_, List.forall_mem_cons.mpr ⟨hcv.open_, ho⟩, ?_, ?_, ?_⟩
    · rw [List.mapM_cons, hcv.print, hp]
      rfl
    · rw [List.map_cons, hcv.framed.trimmed_eq, ht]
    · rw [List.length_cons, List.length_cons, hl]
    · rw [List.map_cons, List.mapM_cons, hcv.read, hr]
      rfl

-- An array that was made of values with the content of another one.
theorem stored_content {a b : CMPIArray} {ws : List CMPIValue} (ht : type.isArray)
    (ha : a.type.isArray = false ∧ a.type ≠ .chars) (hb : b.type = a.type) (hd : b.data = ws.map (NativeArray.item a.type))
    (hw : ∀ w ∈ ws, native_clone_CMPIValue a.type w = w)
    (hc : ws.map CMPIValue.content = a.data.map fun e => e.value.content) :
    (native_clone_CMPIValue type (.array b)).content = (CMPIValue.array a).content := by
  have hitems : ∀ items : List (NativeArrayItem CMPIValue),
      itemContents items = (items.map fun e => e.value.content).map fun v => ⟨.good, v⟩ := by
    intro items
    induction items with
    | nil             => rfl
    | cons e items hi => rw [itemContents, hi, List.map_cons, List.map_cons]
  have hstored : (ws.map fun w => (⟨.good, w⟩ : NativeArrayItem CMPIValue)).map (fun e => e.value.content) =
      a.data.map fun e => e.value.content := by
    rw [List.map_map, ← hc]
    rfl
  have hn : (newCMPIArray ws.length b.type).type = a.type := by
    rw [hb]
    exact newCMPIArray_type ha
  rw [native_clone_array ht (hb ▸ hw) (hb ▸ hd), CMPIValue.content, CMPIValue.content, hitems, hitems, hstored, hn]

theorem stored_flat {b : CMPIArray} {ws : List CMPIValue} (hb : b.type.isArray = false ∧ b.type ≠ .chars)
    (hd : b.data = ws.map (NativeArray.item type)) (hw : ∀ w ∈ ws, w.Flat) : (CMPIValue.array b).Flat := by
  refine ⟨hb, flatItems_iff.mpr fun i hi => ?_⟩
  have ⟨w, hm, he⟩ := List.mem_map.mp (hd ▸ hi)
  exact he ▸ native_clone_flat (hw w hm)

theorem stored_scalars {a b : CMPIArray} (ht : type.isArray) (ha : a.type.isArray = false ∧ a.type ≠ .chars)
    (hb : b.type = a.type) (hd : b.data = (a.data.map (·.value)).map (NativeArray.item a.type))
    (h : ∀ e ∈ a.data, e.value.Leaf) (hl : a.type.cloning ≠ .lost) :
    (native_clone_CMPIValue type (.array b)).content = (CMPIValue.array a).content := by
  apply stored_content ht ha hb hd
  · intro w hw
    have ⟨e, he, hw⟩ := List.mem_map.mp hw
    exact hw ▸ native_clone_leaf (h e he) hl
  · rw [List.map_map]
    rfl

theorem array_wires {p : NativeProperty CMPIValue} {a : CMPIArray} (hn : 34 ∉ p.name) (hs : p.state.isNull = false)
    (hv : p.value = .array a) (ht : p.type = a.type ||| .array) (hne : a.data ≠ [])
    (h : ∀ e ∈ a.data, Scalar Content a.type e.value) : ∃ text t, Wires printg p text t := by
  have ⟨e, he⟩ := List.exists_mem_of_ne_nil _ hne
  have ⟨hta, hte, htr, htn, htc⟩ := (h e he).array_type
  have ⟨hna, _, _, hnull, hc, hl⟩ := (h e he).type_eq
  have ⟨cvs, hp, ho, htrim, hlen, hr⟩ := @elements_wire printg _ _ _ fun e he => (h e he).decoded
  have hlex := @propertyArray_lexes _ a.type _ _ hn (valueArrayElement_lexes ho)
  have htexts : cvs.map (fun cv => Tree.Value.text (some (trimmed cv))) = cvs.map fun cv => .text (some cv) := by
    have hm := congrArg (List.map fun cv => Tree.Value.text (some cv)) htrim
    rwa [List.map_map] at hm
  rw [(h e he).type_read, htexts] at hlex
  refine ⟨_, .array (attrOf p.name a.type) [] (some (cvs.map fun cv => .text (some cv))), ?_, hlex, fun ci type hnew => ?_⟩
  · have hd : p.data.type = a.type ||| .array := ht
    have hda : p.data.type.isArray := hd.symm ▸ hta
    rw [addXmlProperty, if_neg (ht ▸ htr), addXmlValue_array hs hda hv hne (by decide), hd, hte, hp]
    rfl
  · have hvs : cvs.map (fun cv => Tree.Value.text (some cv)) ≠ [] := by
      rw [ne_eq, List.map_eq_nil_iff, ← List.length_eq_zero_iff, hlen, List.length_eq_zero_iff]
      exact hne
    have hr' : ((cvs.map fun cv => Tree.Value.text (some cv)).map Tree.Value.pointer).mapM (str2CMPIDecoded a.type) =
        .ok (a.data.map (·.value)) := by
      rw [List.map_map]
      exact hr
    have hb : (newCMPIArray 0 a.type).type = a.type := newCMPIArray_type ⟨hna, hc⟩
    have hdata := @NativeArray.setFrom_data (newCMPIArray 0 a.type) a.type rfl hb hnull hc (a.data.map (·.value))
    let b := (newCMPIArray 0 a.type).setFrom a.type 0 (a.data.map (·.value))
    have hbt : b.type = a.type := NativeArray.setFrom_type.trans hb
    have hflat : (CMPIValue.array b).Flat := by
      apply stored_flat (hbt.symm ▸ ⟨hna, hc⟩) hdata
      intro w hw
      have ⟨e, he, hw⟩ := List.mem_map.mp hw
      exact hw ▸ (h e he).leaf.flat
    refine ⟨.new p.name p.type .good (.array b), a.type, ?_, NativeProperty.new_name ..,
      cloneProperties_new p.name (ht ▸ htn) (ht ▸ htc) hflat, ?_⟩
    · rw [setInstProperty_array hvs]
      simp only [attrOf, hr', setProperty_new hnew, ← ht, bind, Except.bind, Tree.Qualifier.xtoks,
        setInstPropertyQualifiers]
      rfl
    · rw [new_value p.name (ht ▸ htn) (ht ▸ htc)]
      refine @contents_singleton p _ rfl rfl ?_
      rw [hv]
      exact stored_scalars (ht ▸ hta) ⟨hna, hc⟩ hbt hdata (fun e he => (h e he).leaf) hl

theorem Carried.wires {p : NativeProperty CMPIValue} (hn : 34 ∉ p.name) (hs : p.state.isNull = false)
    (h : Carried Content p.type p.value) : ∃ text t, Wires printg p text t := by
  generalize ht : p.type = type, hv : p.value = v at h
  cases h with
  | scalar h        =>
    subst ht hv
    exact scalar_wires hn hs h
  | array he hne h =>
    subst he
    exact array_wires hn hs hv ht hne fun e he => (h e he).right

-- All properties, in their order.
theorem properties_wire {props : List (NativeProperty CMPIValue)} (hd : Named.Distinct NativeProperty.name props)
    (h : ∀ p ∈ props, ∃ text t, Wires printg p text t) : ∃ texts ts,
      props.mapM (addXmlProperty printg) = .ok texts ∧ Lexes texts.flatten (Tree.Property.yields ts) ∧
      ∀ (ci : CMPIInstance) (type : CMPIType), (∀ p ∈ props, ∀ q ∈ ci.props, q.name.lower ≠ p.name.lower) →
        ∃ qs, setInstPropertiesFrom ci type (Tree.Property.xtoks ts) = .ok { ci with props := ci.props ++ qs } ∧
          cloneProperties qs = qs ∧ contents qs = contents props := by
  induction props with
  | nil           =>
    refine ⟨[], [], rfl, .nil, fun ci type _ => ⟨[], ?_, rfl, rfl⟩⟩
    rw [Tree.Property.xtoks, setInstPropertiesFrom, List.append_nil]
    rfl
  | cons p props hi =>
    obtain ⟨hp, hprops⟩ := List.forall_mem_cons.mp h
    obtain ⟨hne, hd⟩ := List.nodup_cons.mp hd
    obtain ⟨text, t, hw⟩ := hp
    obtain ⟨texts, ts, hx, hl, hr⟩ := hi hd hprops
    refine ⟨text :: texts, t :: ts, ?_, ?_, fun ci type hnew => ?_⟩
    · rw [List.mapM_cons, hw.xml, hx]
      rfl
    · rw [List.flatten_cons, Tree.Property.yields]
      exact hw.lexes.append hl
    · obtain ⟨hnp, hnps⟩ := List.forall_mem_cons.mp hnew
      obtain ⟨q, type', hq, hname, hq', hc⟩ := hw.read ci type hnp
      have hnew' : ∀ p' ∈ props, ∀ q' ∈ ci.props ++ [q], q'.name.lower ≠ p'.name.lower := by
        intro p' hp' q' hq'
        cases List.mem_append.mp hq' with
        | inl hq' => exact hnps p' hp' q' hq'
        | inr hq' =>
          rw [List.mem_singleton.mp hq', hname]
          exact fun he => hne (List.mem_map.mpr ⟨p', hp', he.symm⟩)
      obtain ⟨qs, hqs, hqs', hcs⟩ := hr { ci with props := ci.props ++ [q] } type' hnew'
      refine ⟨q :: qs, ?_, ?_, ?_⟩
      · rw [Tree.Property.xtoks, setInstPropertiesFrom, hq]
        simpa [bind, Except.bind] using hqs
      · have hcons : cloneProperties (q :: qs) = cloneProperties [q] ++ cloneProperties qs := by
          cases q
          rfl
        rw [hcons, hq', hqs']
        rfl
      · have hcons (p : NativeProperty CMPIValue) (ps : List (NativeProperty CMPIValue)) :
            contents (p :: ps) = contents [p] ++ contents ps := contents_append [p] ps
        rw [hcons, hcons p props, hc, hcs]

-- An instance is written as a tree whose properties are read in their order.
theorem instance_wire {i : CMPIInstance} {cn : Text} (hcn : i.classname = some cn) (hq : 34 ∉ cn)
    (hd : Named.Distinct NativeProperty.name i.props) (hw : ∀ p ∈ i.props, ∃ text t, Wires printg p text t)
    {cop : Option CMPIObjectPath} (hc : ∀ p ∈ cop, p.classname = i.classname) : ∃ text, ∃ t : Tree.Instance,
      addXmlInstance printg cop i = .ok text ∧ Lexes text t.yield ∧ t.xtok.className = some cn ∧
      ∀ (ci : CMPIInstance) (type : CMPIType), ci.props = [] → ∃ qs, cloneProperties qs = qs ∧ contents qs = contents i.props ∧
        setInstPropertiesFrom ci type t.xtok.properties = .ok { ci with props := qs } := by
  have ⟨texts, ts, hx, hl, hr⟩ := properties_wire hd hw
  have ⟨path, hpath, hpcn⟩ : ∃ path : CMPIObjectPath,
      addXmlInstance printg cop i = addXmlInstance printg (some path) i ∧ path.classname = some cn := by
    cases cop with
    | none      =>
      have ⟨path, hpath, hpcn⟩ := getObjectPath_classname i
      refine ⟨path, ?_, hpcn.trans hcn⟩
      rw [addXmlInstance, addXmlInstance]
      simp only [hpath, bind, Except.bind, pure, Except.pure]
    | some path => exact ⟨path, rfl, (hc path rfl).trans hcn⟩
  refine ⟨_, .mk (some cn) [] ts, ?_, instance_lexes hq hl, rfl, fun ci type he => ?_⟩
  · rw [hpath, addXmlInstance]
    simp only [hx, hpcn, bind, Except.bind, pure, Except.pure]
    rfl
  · have ⟨qs, hqs, hq', hcs⟩ := hr ci type fun _ _ _ hq => absurd (he ▸ hq) List.not_mem_nil
    rw [he] at hqs
    exact ⟨qs, hq', hcs, hqs⟩

-- An instance whose values all get to the other side.
structure Transferable (S : Text → Prop) (i : CMPIInstance) : Prop where
  classname : ∃ cn, i.classname = some cn ∧ IsName cn
  distinct  : Named.Distinct NativeProperty.name i.props
  names     : ∀ p ∈ i.props, IsName p.name
  values    : ∀ p ∈ i.props, p.state.isNull = false ∧ Carried S p.type p.value

-- An instance is written, and read into a new one, with its class, its properties and their order.
theorem instance_round_trip {i : CMPIInstance} (h : Transferable Content i) {cop : Option CMPIObjectPath}
    (hc : ∀ p ∈ cop, p.classname = i.classname) (ns : Option Text) : ∃ text x r,
      addXmlInstance printg cop i = .ok text ∧ parsed Grammar.instance_ {} text = .ok x ∧
      setInstProperties (NativeInstance.setNsAndCn {} ns x.className) x.properties = .ok r ∧
      r.classname = i.classname ∧ contents r.props = contents i.props := by
  have ⟨cn, hcn, hname⟩ := h.classname
  have hw : ∀ p ∈ i.props, ∃ text t, Wires printg p text t := fun p hp =>
    (h.values p hp).right.wires ((h.names p hp).not_mem 34 (by simp)) (h.values p hp).left
  have ⟨text, t, hx, hl, htc, hr⟩ := instance_wire hcn (hname.not_mem 34 (by simp)) h.distinct hw hc
  have ⟨qs, _, hcs, hqs⟩ := hr (NativeInstance.setNsAndCn {} ns t.xtok.className) .null rfl
  refine ⟨text, t.xtok, _, hx, hl.parsed_eq (fun _ => Grammar.instance_reads) {}, hqs, ?_, hcs⟩
  rw [htc]
  exact hcn.symm

end

def diskInstance : CMPIInstance where
  classname := bytes "Disk"
  props     := [⟨bytes "Label", .string, .key, .string (bytes "a < b"), []⟩,
    ⟨bytes "Sizes", .uint8 ||| .array, .good, .array { newCMPIArray 0 .uint8 with
      data := [⟨.good, .uint8 7⟩, ⟨.good, .uint8 255⟩] }, []⟩]

theorem transferable_disk : Transferable Content diskInstance where
  classname := by
    refine ⟨bytes "Disk", rfl, ?_⟩
    unfold IsName
    decide
  distinct  := by
    unfold Named.Distinct
    decide
  names     := by
    refine List.forall_mem_cons.mpr ⟨?_, List.forall_mem_singleton.mpr ?_⟩
    all_goals
      unfold IsName
      decide
  values    := by
    refine List.forall_mem_cons.mpr ⟨⟨by decide, .scalar (.string ?_)⟩, List.forall_mem_singleton.mpr ⟨by decide, ?_⟩⟩
    · exact ⟨by decide, by decide, by decide⟩
    · refine .array rfl (List.cons_ne_nil _ _) (List.forall_mem_cons.mpr ⟨⟨by decide, ?_⟩, List.forall_mem_singleton.mpr ⟨by decide, ?_⟩⟩)
      all_goals exact .integer rfl

theorem instance_round_trip_disk : ∃ text x r,
    addXmlInstance id none diskInstance = .ok text ∧ parsed Grammar.instance_ {} text = .ok x ∧
    setInstProperties (NativeInstance.setNsAndCn {} none x.className) x.properties = .ok r ∧
    r.classname = diskInstance.classname ∧ contents r.props = contents diskInstance.props :=
  instance_round_trip transferable_disk (fun _ h => absurd h (by simp)) none

end Xml
end Sfcc
