import Sfcc.Theorems.Xml.Embedded
import Sfcc.Theorems.Xml.Reference

open Descent

-- The arguments of a method, as they are written and returned.
namespace Sfcc.Xml

-- A name without bytes that are escaped and without control bytes.
def Clean (t : Text) : Prop :=
  ∀ c ∈ t, isSpecial c = false ∧ 32 ≤ c ∧ c ≠ 127

theorem Clean.not_mem {t : Text} (h : Clean t) {c : UInt8} (hc : isSpecial c) : c ∉ t :=
  fun hm => absurd ((h c hm).left.symm.trans hc) Bool.false_ne_true

theorem Clean.unquoted {t : Text} (h : Clean t) : Unquoted t :=
  h.not_mem rfl

theorem Clean.quotable {t : Text} (h : Clean t) : Quotable t :=
  ⟨h.not_mem rfl, h.not_mem rfl⟩

-- An instance of values, each of which gets to the other side.
structure PlainInstance (i : CMPIInstance) : Prop where
  classname : ∃ cn, i.classname = some cn ∧ Clean cn
  distinct  : Named.Distinct NativeProperty.name i.props
  names     : ∀ p ∈ i.props, Clean p.name
  values    : ∀ p ∈ i.props, p.state.isNull = false ∧ Scalar Content p.type p.value

structure PlainPath (p : CMPIObjectPath) : Prop where
  located : Located Clean Clean p
  keys    : ∀ k ∈ p.keys, KeyValue Clean Clean Content k.type k.value

-- The paths that an argument refers to.

def refPath : CMPIValue → List CMPIObjectPath
  | .ref p => [p]
  | _      => []

def refPaths : CMPIValue → List CMPIObjectPath
  | .array a => a.data.flatMap fun e => refPath e.value
  | v        => refPath v

-- An argument with what is left of their namespaces on the way.

def seenRef : CMPIValue → CMPIValue
  | .ref p => .ref (seen p)
  | v      => v

def seenValue : CMPIValue → CMPIValue
  | .array a => .array { a with data := a.data.map fun e => { e with value := seenRef e.value } }
  | v        => seenRef v

def seenArg (arg : NativeProperty CMPIValue) : NativeProperty CMPIValue :=
  { arg with value := seenValue arg.value }

-- What an argument can be.
inductive Argument : CMPIType → CMPIValue → Prop
  | scalar {type v} (h : Scalar Word type v) : Argument type v
  | array {a : CMPIArray} (hn : a.data ≠ []) (h : ∀ e ∈ a.data, e.state.isNull = false ∧ Scalar Word a.type e.value) :
    Argument (a.type ||| .array) (.array a)
  | ref {p} (h : PlainPath p) : Argument .ref (.ref p)
  | refArray {a : CMPIArray} (ht : a.type = .ref) (hn : a.data ≠ [])
    (h : ∀ e ∈ a.data, e.state.isNull = false ∧ ∃ p, e.value = .ref p ∧ PlainPath p) : Argument .refA (.array a)
  | inst {i} (h : PlainInstance i) : Argument .inst (.inst i)

section

variable {printg : Text → Text} {arg : NativeProperty CMPIValue} {name body : Text} {ts : List Tok} {type : CMPIType}

-- The elements of arguments.

theorem paramValue_lexes {t : Option Text} (hn : 34 ∉ name) (ht : ∀ w ∈ t, 34 ∉ w) (hb : Lexes body ts) :
    Lexes (container (bytes "PARAMVALUE") (bytes "PARAMTYPE") name t body)
      (Tree.tagged .PARAMVALUE { name := name, type := xmlToCmpiType t } ts) := by
  have hk : Known ⟨bytes "PARAMVALUE", procParamValue, .Z .PARAMVALUE⟩ := known (List.mem_of_getElem? (i := 12) rfl)
  have ha := @Attributes.typed name "NAME" "PARAMTYPE" ["EMBEDDEDOBJECT"] _ (by decide) hn ht
  refine (Lexes.around .PARAMVALUE { name := name, type := xmlToCmpiType t } hk ha ?_ hb.indented).line.of_eq container_eq
  cases t <;> exact fun _ => rfl

theorem valueRefArray_lexes (hb : Lexes body ts) :
    Lexes (bytes "<VALUE.REFARRAY>\n" ++ body ++ bytes "</VALUE.REFARRAY>\n") (Tree.tagged .VALUEREFARRAY () ts) := by
  have hk : Known ⟨bytes "VALUE.REFARRAY", procTag "VALUE.REFARRAY" [] (.Z .VALUEARRAY) fun _ xb =>
      .ok (.X .VALUEREFARRAY (), xb), .Z .VALUEREFARRAY⟩ := known (List.mem_of_getElem? (i := 17) rfl)
  apply (Lexes.around .VALUEREFARRAY () hk .none (fun _ => rfl) hb.indented).line.of_eq
  simp [startTag, endTag, attrText, bytes]

theorem addXmlValue_paramArray {data : CMPIData} {a : CMPIArray} (hs : data.state.isNull = false) (ha : data.type.isArray)
    (hv : data.value = .array a) (hn : a.data ≠ []) :
    addXmlValue printg (bytes "PARAMVALUE") (some (bytes "PARAMTYPE")) name data =
      (a.data.mapM fun ele => valueText printg data.type.element ele.value).map fun cvs =>
        container (bytes "PARAMVALUE") (bytes "PARAMTYPE") name (cmpiToXmlType data.type.element) (valueArrayElement cvs) := by
  have ht : sameIgnoringCase (bytes "PARAMVALUE") (bytes "PARAMVALUE") = true := by decide
  rw [addXmlValue]
  simp only [hs, ha, hv, hn, ht, Bool.false_eq_true, if_false, if_true]
  cases a.data.mapM fun ele => valueText printg data.type.element ele.value with
  | error e => rfl
  | ok cvs  =>
    simp only [Except.map, bind, Except.bind, pure, Except.pure, container, valueArrayElement]
    cases cmpiToXmlType data.type.element <;> rfl

-- An argument is written as a tree with a child, which it is read from but for the namespaces.
structure Passes (printg : Text → Text) (arg : NativeProperty CMPIValue) (text : Text) (t : Tree.ParamValue) : Prop where
  xml   : addXmlArg printg arg = .ok (some text)
  lexes : Lexes text t.yield
  named : t.attr.name = some arg.name
  child : ∃ d, t.data = some d
  read  : ∃ a, t.argument = .ok a ∧ contents [a] = contents [seenArg arg]

-- The types whose values are written by `addXmlValue`.
theorem Scalar.mem_types {S : Text → Prop} {v : CMPIValue} (h : Scalar S type v) :
    type ∈ [CMPIType.boolean, .char16, .real32, .real64, .uint8, .uint16, .uint32, .uint64,
      .sint8, .sint16, .sint32, .sint64, .string, .chars, .dateTime] := by
  cases h with
  | string _ | boolean _ | dateTime _ => decide
  | integer h                         => cases v <;> cases h <;> decide

theorem addXmlArg_value (h : arg.type.element ∈ [CMPIType.boolean, .char16, .real32, .real64, .uint8, .uint16, .uint32, .uint64,
      .sint8, .sint16, .sint32, .sint64, .string, .chars, .dateTime]) :
    addXmlArg printg arg = some <$> addXmlValue printg (bytes "PARAMVALUE") (bytes "PARAMTYPE") arg.name arg.data := by
  rw [addXmlArg]
  simp only [if_pos h]

theorem Scalar.seen {S : Text → Prop} {v : CMPIValue} (h : Scalar S type v) : seenRef v = v ∧ seenValue v = v ∧ refPath v = [] := by
  cases h with
  | string _ | boolean _ | dateTime _ => exact ⟨rfl, rfl, rfl⟩
  | integer h                         => cases v <;> cases h <;> exact ⟨rfl, rfl, rfl⟩

theorem seenArg_eq (h : seenValue arg.value = arg.value) : seenArg arg = arg := by
  rw [seenArg, h]

theorem seenValue_scalars {S : Text → Prop} {a : CMPIArray} (h : ∀ e ∈ a.data, Scalar S a.type e.value) :
    seenValue (.array a) = .array a := by
  have hdata : a.data.map (fun e => { e with value := seenRef e.value }) = a.data.map id := by
    apply List.map_congr_left
    intro e he
    rw [(h e he).seen.left]
    rfl
  rw [seenValue, hdata, List.map_id]

theorem scalar_passes (hn : 34 ∉ arg.name) (hs : arg.state.isNull = false) (h : Scalar Word arg.type arg.value) :
    ∃ text t, Passes printg arg text t := by
  have ⟨cv, hcv⟩ := h.pointed
  have ⟨ha, he, hr, hnull, hc, hl⟩ := h.type_eq
  have hq : ∀ w ∈ cmpiToXmlType arg.type, 34 ∉ w := fun w hw => cmpiToXmlType_open hw 34 (by simp)
  have hlex := paramValue_lexes hn hq (valueElement_lexes hcv.open_)
  rw [h.type_read, hcv.framed.trimmed_eq] at hlex
  refine ⟨_, .value { name := arg.name, type := arg.type } (.text cv), ?_, hlex, rfl, ⟨_, rfl⟩, ?_⟩
  · have hv : valueText printg arg.data.type.element arg.data.value = .ok cv := by
      show valueText printg arg.type.element arg.value = .ok cv
      rw [he, hcv.print]
    have hd : arg.data.type.element = arg.type := he
    rw [addXmlArg_value (he.symm ▸ h.mem_types), addXmlValue_value hs ha hr, hv, hd]
    rfl
  · refine ⟨.new arg.name arg.type .good arg.value, ?_, ?_⟩
    · have hread : str2CMPIText arg.type (some cv) = .ok arg.value := by
        rw [← hcv.read, str2CMPIPointer]
      rw [argument_value arg.name cv ha hr hc, hread]
      rfl
    · rw [new_value arg.name hnull hc, native_clone_leaf h.leaf hl, seenArg_eq h.seen.right.left]
      exact contents_singleton rfl rfl rfl

theorem Scalar.array_ne_ref {S : Text → Prop} {v : CMPIValue} (h : Scalar S type v) : (type ||| .array) &&& .ref ≠ .ref := by
  cases h with
  | string _ | boolean _ | dateTime _ => decide
  | integer h                         => cases v <;> cases h <;> decide

theorem array_passes {a : CMPIArray} (hn : 34 ∉ arg.name) (hs : arg.state.isNull = false) (hv : arg.value = .array a)
    (ht : arg.type = a.type ||| .array) (hne : a.data ≠ []) (h : ∀ e ∈ a.data, Scalar Word a.type e.value) :
    ∃ text t, Passes printg arg text t := by
  have ⟨e, he⟩ := List.exists_mem_of_ne_nil _ hne
  have ⟨hta, hte, _, htn, htc⟩ := (h e he).array_type
  have ⟨hna, _, _, hnull, hc, hl⟩ := (h e he).type_eq
  have ⟨cvs, hp, ho, htrim, _, hr⟩ := @elements_wire printg _ _ _ fun e he => (h e he).pointed
  have hq : ∀ w ∈ cmpiToXmlType a.type, 34 ∉ w := fun w hw => cmpiToXmlType_open hw 34 (by simp)
  have hlex := paramValue_lexes hn hq (valueArrayElement_lexes ho)
  have htexts : cvs.map (fun cv => Tree.Value.text (some (trimmed cv))) = cvs.map fun cv => .text (some cv) := by
    have hm := congrArg (List.map fun cv => Tree.Value.text (some cv)) htrim
    rwa [List.map_map] at hm
  rw [(h e he).type_read, htexts] at hlex
  refine ⟨_, .array { name := arg.name, type := a.type } (cvs.map fun cv => .text (some cv)), ?_, hlex, rfl, ⟨_, rfl⟩, ?_⟩
  · have hd : arg.data.type = a.type ||| .array := ht
    have hda : arg.data.type.isArray := hd.symm ▸ hta
    have hel : arg.type.element = a.type := ht ▸ hte
    rw [addXmlArg_value (hel.symm ▸ (h e he).mem_types), addXmlValue_paramArray hs hda hv hne, hd, hte, hp]
    rfl
  · have hr' : ((cvs.map fun cv => Tree.Value.text (some cv)).map Tree.Value.pointer).mapM (str2CMPIPointer a.type) =
        .ok (a.data.map (·.value)) := by
      rw [List.map_map]
      exact hr
    have hb : (newCMPIArrayOf a.type (a.data.map (·.value))).type = a.type := by
      rw [newCMPIArrayOf_eq]
      exact NativeArray.setFrom_type.trans (newCMPIArray_type ⟨hna, hc⟩)
    have hdata := newCMPIArrayOf_data hna hnull hc (a.data.map (·.value))
    refine ⟨.new arg.name arg.type .good (.array (newCMPIArrayOf a.type (a.data.map (·.value)))), ?_, ?_⟩
    · rw [argument_array arg.name _ hta hte (h e he).array_ne_ref hnull htc, hr', ht]
      rfl
    · rw [new_value arg.name (ht ▸ htn) (ht ▸ htc), seenArg_eq (by rw [hv, seenValue_scalars h])]
      refine @contents_singleton arg _ rfl rfl ?_
      rw [hv]
      exact stored_scalars (ht ▸ hta) ⟨hna, hc⟩ hb hdata (fun e he => (h e he).leaf) hl

-- References.

theorem reference_container {text : Text} : bytes "<PARAMVALUE NAME=\"" ++ name ++ bytes "\" PARAMTYPE=\"reference\">\n" ++ text ++
    bytes "</PARAMVALUE>\n" = container (bytes "PARAMVALUE") (bytes "PARAMTYPE") name (some (bytes "reference")) text := by
  simp [container, bytes]

theorem reference_lexes (hn : 34 ∉ name) (hb : Lexes body ts) :
    Lexes (container (bytes "PARAMVALUE") (bytes "PARAMTYPE") name (some (bytes "reference")) body)
      (Tree.tagged .PARAMVALUE { name := name, type := .ref } ts) := by
  have ht : xmlToCmpiType (some (bytes "reference")) = .ref := by decide
  rw [← ht]
  apply paramValue_lexes hn _ hb
  rintro w ⟨⟩
  decide

theorem argument_reference (name : Text) (r : Tree.Reference) :
    (Tree.ParamValue.reference { name := some name, type := .ref } r).argument =
      referencePath r.xtok >>= fun p => .ok (.new name .ref .good (.ref p)) := by
  have hi : ¬ CMPIType.ref = .inst := by decide
  have ho : CMPIType.ref ||| CMPIType.ref = .ref := by decide
  have ha : CMPIType.ref.isArray = false := by decide
  have hc : ¬ CMPIType.ref = .chars := by decide
  simp only [Tree.ParamValue.argument, XtokParamValue.argument, Tree.ParamValue.xtok, Tree.ParamValue.data,
    Tree.ParamValue.attr, Option.elim_some, XtokParamValue.setData, if_neg hi, ho, str2CMPIValue, ha, Bool.false_eq_true,
    if_false, if_true, if_neg hc, XtokParamValueUnion.path]
  cases referencePath r.xtok <;> rfl

theorem refArray_values (rs : List (XtokValueReference XtokInstanceName)) : (XtokValueRefArray.ofList rs).values = rs := by
  have h (a : XtokValueRefArray) : (rs.foldl XtokValueRefArray.add a).values = a.values ++ rs := by
    induction rs generalizing a with
    | nil          => simp
    | cons r rs hi => simp [hi, XtokValueRefArray.add]
  exact (h { max := 16 }).trans (List.nil_append rs)

theorem argument_refArray (name : Text) (rs : List Tree.Reference) :
    (Tree.ParamValue.refArray { name := some name, type := .ref } rs).argument =
      (rs.map Tree.Reference.xtok).mapM referencePath >>= fun ps =>
        .ok (.new name .refA .good (.array (newCMPIArrayOf .ref (ps.map .ref)))) := by
  have hi : ¬ CMPIType.refA = .inst := by decide
  have ho : CMPIType.ref ||| CMPIType.refA = .refA := by decide
  have ha : CMPIType.refA.isArray = true := by decide
  have hr : CMPIType.refA &&& .ref = .ref := by decide
  have hc : ¬ CMPIType.refA = .chars := by decide
  simp only [Tree.ParamValue.argument, XtokParamValue.argument, Tree.ParamValue.xtok, Tree.ParamValue.data,
    Tree.ParamValue.attr, Option.elim_some, XtokParamValue.setData, if_neg hi, ho, str2CMPIValue, ha,
    if_true, hr, if_neg hc, XtokParamValueUnion.refs, refArray_values, bind, Except.bind, pure, Except.pure, deref]
  cases (rs.map Tree.Reference.xtok).mapM referencePath <;> rfl

theorem addXmlArg_ref {p : CMPIObjectPath} {text : Text} (ht : arg.type = .ref) (hv : arg.value = .ref p)
    (hx : addXmlReference printg p = .ok text) : addXmlArg printg arg =
      .ok (some (container (bytes "PARAMVALUE") (bytes "PARAMTYPE") arg.name (some (bytes "reference")) text)) := by
  have he : CMPIType.ref.element = .ref ∧ CMPIType.ref.isArray = false := by decide
  have hn : ¬ CMPIType.ref ∈ [CMPIType.boolean, .char16, .real32, .real64, .uint8, .uint16, .uint32, .uint64,
      .sint8, .sint16, .sint32, .sint64, .string, .chars, .dateTime] := by decide
  have hi : ¬ CMPIType.ref = .inst := by decide
  rw [addXmlArg]
  simp only [ht, he, hv, hn, hi, if_false, if_true, Bool.false_eq_true, refValue, hx, bind, Except.bind, pure, Except.pure]
  rw [reference_container]

theorem addXmlArg_refArray {a : CMPIArray} {texts : List Text} (ht : arg.type = .refA) (hv : arg.value = .array a)
    (hx : (a.data.mapM fun ele => refValue printg ele.value) = .ok texts) : addXmlArg printg arg =
      .ok (some (container (bytes "PARAMVALUE") (bytes "PARAMTYPE") arg.name (some (bytes "reference"))
        (bytes "<VALUE.REFARRAY>\n" ++ texts.flatten ++ bytes "</VALUE.REFARRAY>\n"))) := by
  have he : CMPIType.refA.element = .ref ∧ CMPIType.refA.isArray = true := by decide
  have hn : ¬ CMPIType.ref ∈ [CMPIType.boolean, .char16, .real32, .real64, .uint8, .uint16, .uint32, .uint64,
      .sint8, .sint16, .sint32, .sint64, .string, .chars, .dateTime] := by decide
  have hi : ¬ CMPIType.ref = .inst := by decide
  rw [addXmlArg]
  have hopen : bytes "<VALUE.REFARRAY>\n" = bytes "<" ++ bytes "VALUE.REFARRAY" ++ bytes ">\n" := rfl
  have hclose : bytes "</VALUE.REFARRAY>\n" = bytes "</" ++ bytes "VALUE.REFARRAY" ++ bytes ">\n" := rfl
  simp only [ht, he, hv, hn, hi, if_false, if_true, objects, hx, bind, Except.bind, pure, Except.pure]
  rw [reference_container, hopen, hclose]
  simp only [List.append_assoc]

theorem PlainPath.lexes {p : CMPIObjectPath} (h : PlainPath p) :
    ∃ text, ∃ t : Tree.Reference, addXmlReference printg p = .ok text ∧ Lexes text t.yield ∧
      ∃ q : CMPIObjectPath, referencePath t.xtok = .ok q ∧ q.clone = q ∧
        (CMPIValue.ref q).content = (CMPIValue.ref (seen p)).content :=
  addXmlReference_lexes (h.located.imp (fun _ h => h.unquoted) fun _ h => h.unquoted) fun k hk =>
    (h.keys k hk).imp (fun _ h => h.unquoted) fun _ h => h.unquoted

theorem ref_passes {p : CMPIObjectPath} (hn : 34 ∉ arg.name) (ht : arg.type = .ref) (hv : arg.value = .ref p)
    (h : PlainPath p) : ∃ text t, Passes printg arg text t := by
  have ⟨text, t, hx, hl, q, hr, hq, hc⟩ := @PlainPath.lexes printg p h
  refine ⟨_, .reference { name := arg.name, type := .ref } t, addXmlArg_ref ht hv hx, reference_lexes hn hl, rfl, ⟨_, rfl⟩, ?_⟩
  refine ⟨.new arg.name .ref .good (.ref q), ?_, ?_⟩
  · rw [argument_reference, hr]
    rfl
  · have hs : (seenArg arg).value = .ref (seen p) := by
      rw [seenArg, hv]
      rfl
    rw [new_value arg.name (by decide) (by decide), native_clone_ref, hq]
    exact @contents_singleton (seenArg arg) _ rfl ht.symm (hs ▸ hc)

-- The elements of an array of references, as they are written and read.
theorem references_wire {items : List (NativeArrayItem CMPIValue)} (h : ∀ e ∈ items, ∃ p, e.value = .ref p ∧ PlainPath p) :
    ∃ texts, ∃ rs : List Tree.Reference, (items.mapM fun e => refValue printg e.value) = .ok texts ∧
      Lexes texts.flatten (rs.flatMap Tree.Reference.yield) ∧
      ∃ qs : List CMPIObjectPath, (rs.map Tree.Reference.xtok).mapM referencePath = .ok qs ∧ (∀ q ∈ qs, q.clone = q) ∧
        (qs.map CMPIValue.ref).map CMPIValue.content = items.map fun e => (seenRef e.value).content := by
  induction items with
  | nil             => exact ⟨[], [], rfl, .nil, [], rfl, fun _ h => absurd h List.not_mem_nil, rfl⟩
  | cons e items hi =>
    have ⟨⟨p, hv, hp⟩, hitems⟩ := List.forall_mem_cons.mp h
    have ⟨texts, rs, hx, hl, qs, hr, hq, hc⟩ := hi hitems
    have ⟨text, t, hxt, hlt, q, hrt, hqt, hct⟩ := @PlainPath.lexes printg p hp
    refine ⟨text :: texts, t :: rs, ?_, ?_, q :: qs, ?_, List.forall_mem_cons.mpr ⟨hqt, hq⟩, ?_⟩
    · rw [List.mapM_cons, hv, refValue, hxt, hx]
      rfl
    · exact hlt.append hl
    · rw [List.map_cons, List.mapM_cons, hrt, hr]
      rfl
    · rw [List.map_cons, List.map_cons, hc, hct, List.map_cons, hv]
      rfl

theorem refArray_passes {a : CMPIArray} (hn : 34 ∉ arg.name) (ht : arg.type = .refA) (hv : arg.value = .array a)
    (hat : a.type = .ref) (h : ∀ e ∈ a.data, ∃ p, e.value = .ref p ∧ PlainPath p) : ∃ text t, Passes printg arg text t := by
  have ⟨texts, rs, hx, hl, qs, hr, hq, hc⟩ := @references_wire printg _ h
  have hlex := reference_lexes hn (valueRefArray_lexes hl)
  refine ⟨_, .refArray { name := arg.name, type := .ref } rs, addXmlArg_refArray ht hv hx, hlex, rfl, ⟨_, rfl⟩, ?_⟩
  refine ⟨.new arg.name .refA .good (.array (newCMPIArrayOf .ref (qs.map .ref))), ?_, ?_⟩
  · rw [argument_refArray, hr]
    rfl
  · have hb : (newCMPIArrayOf .ref (qs.map .ref)).type = .ref := by
      rw [newCMPIArrayOf_eq]
      exact NativeArray.setFrom_type.trans (newCMPIArray_type (by decide))
    have hdata := @newCMPIArrayOf_data .ref (by decide) (by decide) (by decide) (qs.map .ref)
    have hw : ∀ w ∈ qs.map CMPIValue.ref, native_clone_CMPIValue .ref w = w := by
      intro w hw
      have ⟨q, hm, he⟩ := List.mem_map.mp hw
      rw [← he, native_clone_ref, hq q hm]
    let b : CMPIArray := { a with data := a.data.map fun e => { e with value := seenRef e.value } }
    have hs : (seenArg arg).value = .array b := by
      rw [seenArg, hv]
      rfl
    have hc' : (qs.map CMPIValue.ref).map CMPIValue.content = b.data.map fun e => e.value.content := by
      rw [hc, List.map_map]
      rfl
    rw [new_value arg.name (by decide) (by decide)]
    refine @contents_singleton (seenArg arg) _ rfl ht.symm ?_
    rw [hs]
    exact stored_content (by decide : CMPIType.refA.isArray) (hat ▸ by decide) (hb.trans hat.symm) (hat ▸ hdata) (hat ▸ hw) hc'

-- Instances.

theorem addXmlArg_inst {i : CMPIInstance} {text : Text} (ht : arg.type = .inst) (hv : arg.value = .inst i)
    (hx : embedded printg i = .ok text) : addXmlArg printg arg =
      .ok (some (container (bytes "PARAMVALUE") (bytes "PARAMTYPE") arg.name none text)) := by
  have he : CMPIType.inst.element = .inst ∧ CMPIType.inst.isArray = false := by decide
  have hn : ¬ CMPIType.inst ∈ [CMPIType.boolean, .char16, .real32, .real64, .uint8, .uint16, .uint32, .uint64,
      .sint8, .sint16, .sint32, .sint64, .string, .chars, .dateTime] := by decide
  have hcontainer : bytes "<PARAMVALUE NAME=\"" ++ arg.name ++ bytes "\">\n" ++ text ++ bytes "</PARAMVALUE>\n" =
      container (bytes "PARAMVALUE") (bytes "PARAMTYPE") arg.name none text := by
    simp [container, bytes]
  rw [addXmlArg]
  simp only [ht, he, hv, hn, if_false, if_true, Bool.false_eq_true, instanceValue, hx, bind, Except.bind, pure, Except.pure]
  rw [hcontainer]

theorem argument_inst (name : Text) (text : Option Text) (i : Tree.Instance) :
    (Tree.ParamValue.value { name := some name, type := .null } (.cdata text i)).argument =
      getInstFromEmbedded i.xtok >>= fun i => .ok (.new name .inst .good (.inst i)) := by
  have ha : CMPIType.inst.isArray = false := by decide
  have hr : ¬ CMPIType.inst = .ref := by decide
  have hc : ¬ CMPIType.inst = .chars := by decide
  simp only [Tree.ParamValue.argument, XtokParamValue.argument, Tree.ParamValue.xtok, Tree.ParamValue.data,
    Tree.ParamValue.attr, Option.elim_some, XtokParamValue.setData, Tree.Value.xtok, if_true, str2CMPIValue, ha,
    Bool.false_eq_true, if_false, if_neg hr, XtokParamValueUnion.pointer, str2CMPIPointer, if_neg hc, deref]
  cases getInstFromEmbedded i.xtok <;> rfl

theorem inst_passes {i : CMPIInstance} (hn : 34 ∉ arg.name) (ht : arg.type = .inst) (hv : arg.value = .inst i)
    (h : PlainInstance i) : ∃ text t, Passes printg arg text t := by
  have ⟨cn, hcn, hname⟩ := h.classname
  have hw : ∀ p ∈ i.props, ∃ text t, Wires printg p text t := fun p hp =>
    scalar_wires (h.names p hp).unquoted (h.values p hp).left (h.values p hp).right
  have ⟨text, t, hx, hl, htc, hr⟩ := @instance_wire printg i cn hcn hname.unquoted h.distinct hw none fun _ h => absurd h (by simp)
  have hi : ∀ cn ∈ i.classname, Quotable cn := by
    intro cn' hcn'
    cases hcn.symm.trans hcn'
    exact hname.quotable
  have hp : ∀ p ∈ i.props, Quotable p.name ∧ Embeddable p := fun p hp =>
    ⟨(h.names p hp).quotable, .value ((h.values p hp).right.imp fun _ ht => ht.nulFree)⟩
  have ⟨text', hx', hl'⟩ := embedded_lexes hi hp hx hl
  have hlex := paramValue_lexes (t := none) hn (fun _ h => absurd h (by simp)) hl'
  have ⟨qs, hq, hc, hqs⟩ := hr (NativeInstance.setNsAndCn {} none t.xtok.className) .null rfl
  let r : CMPIInstance := { NativeInstance.setNsAndCn {} none t.xtok.className with props := qs }
  have hread : getInstFromEmbedded t.xtok = .ok r := by
    rw [← hqs]
    cases t.xtok
    rw [getInstFromEmbedded]
  refine ⟨_, .value { name := arg.name, type := .null } (.cdata (some []) t), addXmlArg_inst ht hv hx', ?_, rfl, ⟨_, rfl⟩, ?_⟩
  · have hy : (Tree.Value.cdata (some []) t).yield = .X .VALUE (some []) :: .X .CDATA () :: (t.yield ++ [.Z .CDATA, .Z .VALUE]) := by
      rw [Tree.Value.yield]
      simp [Tree.tagged]
    rw [← hy] at hlex
    exact hlex
  refine ⟨.new arg.name .inst .good (.inst r), ?_, ?_⟩
  · rw [argument_inst, hread]
    rfl
  · have hclone : r.clone = r := by
      show (⟨_, _, cloneProperties qs, _⟩ : CMPIInstance) = _
      rw [hq]
      rfl
    have hrc : r.classname = some cn := by
      show (t.xtok.className.or none) = _
      rw [htc]
      rfl
    rw [new_value arg.name (by decide) (by decide), native_clone_inst, hclone, seenArg_eq (by rw [hv]; rfl)]
    refine contents_singleton rfl ht.symm ?_
    have hcontent (i : CMPIInstance) : (CMPIValue.inst i).content = .inst ⟨i.classname, none, contents i.props, []⟩ := by
      cases i
      rw [CMPIValue.content]
    rw [hv, hcontent, hcontent, hrc, hcn, hc]

theorem Argument.passes (hn : IsName arg.name) (hs : arg.state.isNull = false) (h : Argument arg.type arg.value) :
    ∃ text t, Passes printg arg text t := by
  have hq := hn.unquoted
  generalize ht : arg.type = type, hv : arg.value = v at h
  cases h with
  | scalar h         =>
    subst ht hv
    exact scalar_passes hq hs h
  | array hne h      => exact array_passes hq hs hv ht hne fun e he => (h e he).right
  | ref h            => exact ref_passes hq ht hv h
  | refArray hat _ h => exact refArray_passes hq ht hv hat fun e he => (h e he).right
  | inst h           => exact inst_passes hq ht hv h

-- All arguments, in their order. None of them leaves anything to the next one.
theorem arguments_pass {args : CMPIArgs} (hd : Named.Distinct NativeProperty.name args)
    (h : ∀ arg ∈ args, ∃ text t, Passes printg arg text t) : ∃ text, ∃ ts : List Tree.ParamValue,
      addXmlArgs printg args = .ok (some text) ∧ Lexes text (ts.flatMap Tree.ParamValue.yield) ∧ (ts = [] → args = []) ∧
      ∀ (old : XtokParamValueData) (before : CMPIArgs), (∀ a ∈ args, ∀ b ∈ before, b.name.lower ≠ a.name.lower) →
        ∃ out, (Tree.ParamValue.xtoks old ts).foldlM addReturnArg before = .ok (before ++ out) ∧
          contents out = contents (args.map seenArg) := by
  induction args with
  | nil           =>
    refine ⟨[], [], rfl, .nil, fun _ => rfl, fun old before _ => ⟨[], ?_, rfl⟩⟩
    rw [List.append_nil]
    rfl
  | cons arg args hi =>
    obtain ⟨⟨text, t, ht⟩, hargs⟩ := List.forall_mem_cons.mp h
    obtain ⟨hne, hd⟩ := List.nodup_cons.mp hd
    obtain ⟨texts, ts, hx, hl, _, hr⟩ := hi hd hargs
    obtain ⟨a, ha, hc⟩ := ht.read
    obtain ⟨d, hchild⟩ := ht.child
    refine ⟨text ++ texts, t :: ts, ?_, ht.lexes.append hl, fun hn => absurd hn (List.cons_ne_nil _ _), fun old before hnew => ?_⟩
    · rw [addXmlArgs, ht.xml]
      simp only [bind, Except.bind, hx]
      rfl
    · obtain ⟨hnb, hnbs⟩ := List.forall_mem_cons.mp hnew
      have hname : a.name = arg.name := by
        simp only [contents, List.cons.injEq, NativeProperty.mk.injEq] at hc
        exact hc.left.left
      have hadd : addReturnArg before (t.xtok old) = .ok (before ++ [a]) := by
        have hname' : (t.xtok {}).name = some arg.name := by
          rw [← ht.named, Tree.ParamValue.xtok]
          cases t.data <;> rfl
        obtain ⟨value, hv, hnew⟩ := ok_bind.mp ha
        rw [Tree.ParamValue.xtok_of_some hchild, addReturnArg, hv, hname']
        rw [hname'] at hnew
        cases hnew
        have hnb' : ∀ b ∈ before, b.name.lower ≠ arg.name.lower := hnb
        simp only [bind, Except.bind, addArg, deref, addProperty, Named.add_of_not_mem hnb']
        rfl
      have hnew' : ∀ a' ∈ args, ∀ b ∈ before ++ [a], b.name.lower ≠ a'.name.lower := by
        intro a' ha' b hb
        cases List.mem_append.mp hb with
        | inl hb => exact hnbs a' ha' b hb
        | inr hb =>
          rw [List.mem_singleton.mp hb, hname]
          exact fun he => hne (List.mem_map.mpr ⟨a', ha', he.symm⟩)
      obtain ⟨out, hout, hcs⟩ := hr (t.xtok old).data (before ++ [a]) hnew'
      refine ⟨a :: out, ?_, ?_⟩
      · rw [Tree.ParamValue.xtoks, List.foldlM_cons, hadd]
        simpa [bind, Except.bind] using hout
      · have hcons (p : NativeProperty CMPIValue) (ps : List (NativeProperty CMPIValue)) :
            contents (p :: ps) = contents [p] ++ contents ps := contents_append [p] ps
        rw [hcons, List.map_cons, hcons (seenArg arg), hc, hcs]

end

-- A response with parameters.
def methodResponse (method params : Text) : Text :=
  bytes "<METHODRESPONSE NAME=\"" ++ method ++ bytes "\">\n" ++ params ++ bytes "</METHODRESPONSE>\n"

theorem methodResponse_lexes {method params : Text} {ts : List Tok} (hm : 34 ∉ method) (hb : Lexes params ts) :
    Lexes (methodResponse method params) (Tree.tagged .METHODRESP () ts) := by
  have hk : Known ⟨bytes "METHODRESPONSE", procMethodResp, .Z .METHODRESP⟩ := known (List.mem_of_getElem? (i := 37) rfl)
  apply (Lexes.element .METHODRESP () hk (.one (by decide) hm) rfl hb.indented).line.of_eq
  simp [methodResponse, startTag, endTag, attrText, bytes]

-- The arguments that are written for a method come back in a response, in their order.
def ArgumentsSurvive (printg : Text → Text) (req : Request) (method : Text) (args : CMPIArgs) : Prop :=
  ∃ params hdr, addXmlArgs printg args = .ok (some params) ∧
    parsed (Grammar.simpleRspContent req) {} (methodResponse method params) = .ok hdr ∧
    contents (hdr.outArgs.getD []) = contents args

section

variable {printg : Text → Text} {args : CMPIArgs} {type : CMPIType} {v : CMPIValue} {method : Text}

-- Whatever their namespaces are, they come back with what is left of them.
theorem arguments_return (hd : Named.Distinct NativeProperty.name args) (hn : ∀ a ∈ args, IsName a.name)
    (h : ∀ a ∈ args, a.state.isNull = false ∧ Argument a.type a.value) (req : Request) (hm : 34 ∉ method) :
    ∃ params hdr, addXmlArgs printg args = .ok (some params) ∧
      parsed (Grammar.simpleRspContent req) {} (methodResponse method params) = .ok hdr ∧
      contents (hdr.outArgs.getD []) = contents (args.map seenArg) := by
  have hp : ∀ a ∈ args, ∃ text t, Passes printg a text t := fun a ha => (h a ha).right.passes (hn a ha) (h a ha).left
  have ⟨params, ts, hx, hl, hnil, hr⟩ := arguments_pass hd hp
  have ⟨out, hout, hc⟩ := hr {} [] fun _ _ _ hb => absurd hb List.not_mem_nil
  have hset : setReturnArgs (Tree.ParamValue.xtoks {} ts) = .ok out := hout
  let hdr : ResponseHdr := if ts = [] then {} else { outArgs := some out }
  have hres : (Tree.MethodContent.values none ts).result req {} = .ok hdr := by
    cases ts with
    | nil       => rfl
    | cons t ts =>
      show ResponseHdr.setReturnArgs {} { values := Tree.ParamValue.xtoks {} (t :: ts) } = _
      simp only [ResponseHdr.setReturnArgs, hset, hdr]
      rfl
  refine ⟨params, hdr, hx, ?_, ?_⟩
  · let content : Tree.MethodContent ⊕ Tree.IMethodContent := .inl (.values none ts)
    have hreads n : Reads .any .fresh (Grammar.simpleRspContent req) n never _ _ := Grammar.simpleRspContent_reads
    exact Lexes.parsed_out (t := content) (methodResponse_lexes hm hl) hreads hres
  · cases ts with
    | nil       =>
      rw [hnil rfl]
      rfl
    | cons t ts => exact hc

-- Which arguments are the same with what is left of their namespaces.

def Short (p : CMPIObjectPath) : Prop :=
  ∀ ns ∈ p.nameSpace, ns.length < 2 ^ 31

theorem PlainPath.seen_iff {p : CMPIObjectPath} (h : PlainPath p) :
    (CMPIValue.ref (seen p)).content = (CMPIValue.ref p).content ↔ Short p := by
  obtain ⟨ns, hns, _, hcs⟩ := h.located.nameSpace
  have hs := Xml.seen_iff hns fun c hc => (hcs c hc).left
  rw [content_ref, content_ref]
  constructor
  · intro hc ns' hns'
    cases hns.symm.trans hns'
    have hp := congrArg NativeCop.nameSpace (CMPIValue.ref.inj hc)
    exact hs.mp hp
  · intro hl
    rw [hs.mpr (hl ns hns)]
    rfl

theorem itemContents_iff {f : CMPIValue → CMPIValue} {items : List (NativeArrayItem CMPIValue)} :
    itemContents (items.map fun e => { e with value := f e.value }) = itemContents items ↔
      ∀ e ∈ items, (f e.value).content = e.value.content := by
  induction items with
  | nil             => simp
  | cons e items hi =>
    rw [List.map_cons, itemContents, itemContents, List.cons.injEq, hi, List.forall_mem_cons, NativeArrayItem.mk.injEq]
    simp only [true_and]

theorem contents_map_iff {f : CMPIValue → CMPIValue} :
    contents (args.map fun a => { a with value := f a.value }) = contents args ↔
      ∀ a ∈ args, (f a.value).content = a.value.content := by
  induction args with
  | nil          => simp
  | cons a as hi =>
    rw [List.map_cons, contents, contents, List.cons.injEq, hi, List.forall_mem_cons, NativeProperty.mk.injEq]
    simp only [true_and, and_true]

theorem Argument.seen_iff (h : Argument type v) : (seenValue v).content = v.content ↔ ∀ p ∈ refPaths v, Short p := by
  cases h with
  | scalar h              =>
    have hp : refPaths v = [] := by
      cases h with
      | string _ | boolean _ | dateTime _ => rfl
      | integer h                         => cases v <;> cases h <;> rfl
    rw [h.seen.right.left, hp]
    exact iff_of_true rfl (List.forall_mem_nil _)
  | @array a _ h          =>
    rw [seenValue_scalars fun e he => (h e he).right, refPaths]
    refine iff_of_true rfl fun p hp => ?_
    obtain ⟨e, he, hp⟩ := List.mem_flatMap.mp hp
    rw [(h e he).right.seen.right.right] at hp
    cases hp
  | @ref p h              =>
    have hp : refPaths (.ref p) = [p] := rfl
    rw [hp, List.forall_mem_singleton]
    exact h.seen_iff
  | @refArray a _ _ h     =>
    have hpaths : (∀ p ∈ refPaths (.array a), Short p) ↔ ∀ e ∈ a.data, ∀ p ∈ refPath e.value, Short p := by
      simp only [refPaths, List.mem_flatMap]
      exact ⟨fun hp e he p hm => hp p ⟨e, he, hm⟩, fun hp p ⟨e, he, hm⟩ => hp e he p hm⟩
    have hcontent : (seenValue (.array a)).content = (CMPIValue.array a).content ↔
        itemContents (a.data.map fun e => { e with value := seenRef e.value }) = itemContents a.data := by
      rw [seenValue, CMPIValue.content, CMPIValue.content]
      simp only [CMPIValue.array.injEq, NativeArray.mk.injEq, true_and]
    rw [hpaths, hcontent, itemContents_iff]
    refine forall₂_congr fun e he => ?_
    obtain ⟨p, hv, hp⟩ := (h e he).right
    rw [hv, refPath, List.forall_mem_singleton]
    exact hp.seen_iff
  | inst _                => exact iff_of_true rfl (List.forall_mem_nil _)

end

theorem clean_of {t : Text} (h : t.all fun c => isSpecial c = false ∧ 32 ≤ c ∧ c ≠ 127) : Clean t := by
  simpa [Clean] using h

theorem plainPath_system : PlainPath systemPath where
  located := ⟨⟨_, rfl, clean_of (by decide), by decide⟩, ⟨_, rfl, clean_of (by decide)⟩, List.nodup_singleton _,
    List.forall_mem_singleton.mpr (clean_of (by decide))⟩
  keys    := List.forall_mem_singleton.mpr (.uint64 5)

def noteOf (text : Text) : CMPIInstance where
  classname := bytes "Note"
  props     := [⟨bytes "Text", .string, .good, .string text, []⟩]

theorem plainInstance_note : PlainInstance (noteOf (bytes "a < b")) where
  classname := ⟨_, rfl, clean_of (by decide)⟩
  distinct  := List.nodup_singleton _
  names     := List.forall_mem_singleton.mpr (clean_of (by decide))
  values    := List.forall_mem_singleton.mpr ⟨by decide, .string ⟨by decide, by decide, by decide⟩⟩

def startArgs : CMPIArgs :=
  [⟨bytes "Force", .boolean, .good, .boolean true, []⟩,
    ⟨bytes "Sizes", .uint8 ||| .array, .good, .array { newCMPIArray 0 .uint8 with data := [⟨.good, .uint8 7⟩] }, []⟩,
    ⟨bytes "System", .ref, .good, .ref systemPath, []⟩,
    ⟨bytes "Systems", .refA, .good, .array { newCMPIArray 0 .ref with data := [⟨.good, .ref systemPath⟩] }, []⟩,
    ⟨bytes "Note", .inst, .good, .inst (noteOf (bytes "a < b")), []⟩]

end Sfcc.Xml
