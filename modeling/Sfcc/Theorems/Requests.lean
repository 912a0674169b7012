import Sfcc.RequestTree
import Sfcc.Theorems.Xml.Keys

open Markup (Node Writes)

namespace Sfcc.Requests

open Xml Asked

variable {printg : Text → Text} {ns cs : List Node} {as : List (Text × Text)} {s t b d name tag : Text}

-- An element is written with blanks in it and behind it.
theorem element_writes (hl : isLeaf tag = false) (hn : Markup.Named tag as) (h : Writes isLeaf cs s)
    (hb : ∀ c ∈ b, Markup.isBlank c) (hd : ∀ c ∈ d, Markup.isBlank c)
    (ht : t = Markup.startTag tag as ++ (b ++ s ++ (Markup.endTag tag ++ d))) :
    Writes isLeaf [.element tag as cs] t := by
  rw [ht]
  exact .element hl hn (h.indented hb) (.blanks hd)

theorem leaf_writes (hl : isLeaf tag) (hn : Markup.Named tag as) (hd : ∀ c ∈ d, Markup.isBlank c)
    (ht : t = Markup.startTag tag as ++ (s ++ (Markup.endTag tag ++ d))) :
    Writes isLeaf [.leaf tag as (.chars s)] t := by
  rw [ht]
  exact .leaf hl hn (.chars s) (.blanks hd)

theorem nameSpaceNode_writes (name : Text) : Writes isLeaf [nameSpaceNode name] (namespaceElement name) :=
  element_writes (b := []) (d := [10]) (by decide) ⟨by decide, by simp [attr]; decide⟩ .nil (by decide) (by decide)
    (by simp [namespaceElement, Markup.startTag, Markup.endTag, Markup.attributes, attr, bytes])

theorem nameSpaceNodes_write (names : List Text) :
    Writes isLeaf (names.map nameSpaceNode) (names.flatMap namespaceElement) := by
  induction names with
  | nil             => exact .nil
  | cons name names hi => exact (nameSpaceNode_writes name).append hi

theorem localNameSpacePath_writes {cop : CMPIObjectPath} (h : addXmlNamespace cop = .ok t) :
    ∃ ns, localNameSpacePath cop = .ok ns ∧ Writes isLeaf ns t := by
  have ⟨nsc, hc, ht⟩ := ok_bind.mp h
  cases ht
  refine ⟨_, by rw [localNameSpacePath, hc]; rfl, ?_⟩
  exact element_writes (b := [10]) (d := [10]) (by decide) ⟨by decide, by simp⟩ (nameSpaceNodes_write nsc) (by decide) (by decide)
    (by simp [Markup.startTag, Markup.endTag, Markup.attributes, bytes])

theorem keyValue_writes (type : CMPIType) (cv : Text) :
    Writes isLeaf [.leaf (bytes "KEYVALUE") [attr "VALUETYPE" (keytype2Chars type)] (.chars cv)]
      (bytes "<KEYVALUE VALUETYPE=\"" ++ keytype2Chars type ++ bytes "\">" ++ cv ++ bytes "</KEYVALUE>") :=
  leaf_writes (d := []) (by decide) ⟨by decide, by simp [attr]; decide⟩ (by decide)
    (by simp [Markup.startTag, Markup.endTag, Markup.attributes, attr, bytes])

theorem keyNode_plain {type : CMPIType} {value : CMPIValue} (hv : value.Plain) (h : keyToXml printg type value = .ok t) :
    ∃ n, keyNode printg type value = .ok n ∧ Writes isLeaf [n] t := by
  have hne : ∀ ns cn keys, value = .ref ⟨ns, cn, keys⟩ → False := by
    rintro _ _ _ rfl
    exact hv
  rw [keyToXml.eq_2 _ _ _ hne] at h
  rw [keyNode.eq_2 _ _ _ hne]
  split at h
  case isTrue     => cases h
  case isFalse hr =>
    obtain ⟨cv, hcv, h⟩ := ok_bind.mp h
    cases h
    exact ⟨_, by rw [if_neg hr, hcv]; rfl, keyValue_writes type cv⟩

theorem instancePath_writes (nameSpace : Option Text) (classname : Text) (h : Writes isLeaf ns t) :
    Writes isLeaf [element "VALUE.REFERENCE" [] [element "INSTANCEPATH" [] [
        element "NAMESPACEPATH" [] [.leaf (bytes "HOST") [] (.chars (bytes "localhost")),
          element "LOCALNAMESPACEPATH" [] (nameSpace.elim [] fun ns => (ns.splitOn 47).map nameSpaceNode)],
        element "INSTANCENAME" [attr "CLASSNAME" classname] ns]]]
      (bytes "<VALUE.REFERENCE><INSTANCEPATH>\n" ++ bytes "<NAMESPACEPATH><HOST>localhost</HOST>\n" ++
        bytes "<LOCALNAMESPACEPATH>\n" ++ (nameSpace.elim [] fun ns => (ns.splitOn 47).flatMap namespaceElement) ++
        bytes "</LOCALNAMESPACEPATH></NAMESPACEPATH>\n" ++ bytes "<INSTANCENAME CLASSNAME=\"" ++ classname ++ bytes "\">" ++ t ++
        bytes "</INSTANCENAME></INSTANCEPATH></VALUE.REFERENCE>") := by
  have hns : Writes isLeaf (nameSpace.elim [] fun ns => (ns.splitOn 47).map nameSpaceNode)
      (nameSpace.elim [] fun ns => (ns.splitOn 47).flatMap namespaceElement) := by
    cases nameSpace with
    | none    => exact .nil
    | some ns => exact nameSpaceNodes_write _
  have hl : Writes isLeaf [element "LOCALNAMESPACEPATH" [] (nameSpace.elim [] fun ns => (ns.splitOn 47).map nameSpaceNode)] _ :=
    element_writes (b := [10]) (d := []) (by decide) ⟨by decide, nofun⟩ hns (by decide) (by decide) rfl
  have hh : Writes isLeaf [.leaf (bytes "HOST") [] (.chars (bytes "localhost"))] _ :=
    leaf_writes (d := [10]) (by decide) ⟨by decide, nofun⟩ (by decide) rfl
  have hp : Writes isLeaf [element "NAMESPACEPATH" [] _] _ :=
    element_writes (b := []) (d := [10]) (by decide) ⟨by decide, nofun⟩ (hh.append hl) (by decide) (by decide) rfl
  have hi : Writes isLeaf [element "INSTANCENAME" [attr "CLASSNAME" classname] ns] _ :=
    element_writes (b := []) (d := []) (by decide) ⟨by decide, by simp [attr]; decide⟩ h (by decide) (by decide) rfl
  have hq : Writes isLeaf [element "INSTANCEPATH" [] _] _ :=
    element_writes (b := [10]) (d := []) (by decide) ⟨by decide, nofun⟩ (hp.append hi) (by decide) (by decide) rfl
  refine element_writes (b := []) (d := []) (by decide) ⟨by decide, nofun⟩ hq (by decide) (by decide) ?_
  have h₁ : bytes "<VALUE.REFERENCE><INSTANCEPATH>\n" =
      Markup.startTag (bytes "VALUE.REFERENCE") [] ++ (Markup.startTag (bytes "INSTANCEPATH") [] ++ [10]) := rfl
  have h₂ : bytes "<NAMESPACEPATH><HOST>localhost</HOST>\n" = Markup.startTag (bytes "NAMESPACEPATH") [] ++
      (Markup.startTag (bytes "HOST") [] ++ (bytes "localhost" ++ (Markup.endTag (bytes "HOST") ++ [10]))) := rfl
  have h₃ : bytes "<LOCALNAMESPACEPATH>\n" = Markup.startTag (bytes "LOCALNAMESPACEPATH") [] ++ [10] := rfl
  have h₄ : bytes "</LOCALNAMESPACEPATH></NAMESPACEPATH>\n" =
      Markup.endTag (bytes "LOCALNAMESPACEPATH") ++ (Markup.endTag (bytes "NAMESPACEPATH") ++ [10]) := rfl
  have h₅ : bytes "<INSTANCENAME CLASSNAME=\"" ++ classname ++ bytes "\">" =
      Markup.startTag (bytes "INSTANCENAME") [attr "CLASSNAME" classname] := by
    simp [Markup.startTag, Markup.attributes, attr, bytes]
  have h₆ : bytes "</INSTANCENAME></INSTANCEPATH></VALUE.REFERENCE>" = Markup.endTag (bytes "INSTANCENAME") ++
      (Markup.endTag (bytes "INSTANCEPATH") ++ Markup.endTag (bytes "VALUE.REFERENCE")) := rfl
  rw [h₁, h₂, h₃, h₄, h₆, ← h₅]
  simp only [List.append_assoc, List.append_nil, List.nil_append]

mutual

theorem keyNodes_write {keys : List (NativeProperty CMPIValue)} {t : Text} (h : pathToXml printg keys = .ok t) :
    ∃ ns, keyNodes printg keys = .ok ns ∧ Writes isLeaf ns t := by
  match keys with
  | []                                =>
    cases h
    exact ⟨[], by rw [keyNodes]; rfl, .nil⟩
  | ⟨name, type, _, value, _⟩ :: keys =>
    rw [pathToXml] at h
    have ⟨cv, hcv, h⟩ := ok_bind.mp h
    have ⟨s, hs, h⟩ := ok_bind.mp h
    cases h
    have ⟨n, hn, hw⟩ := keyNode_writes hcv
    have ⟨ns, hns, hws⟩ := keyNodes_write hs
    refine ⟨_, by rw [keyNodes, hn, hns]; rfl, ?_⟩
    have hk : Writes isLeaf [element "KEYBINDING" [attr "NAME" name] [n]] (bytes "<KEYBINDING NAME=\"" ++ name ++
        bytes "\">" ++ cv ++ bytes "</KEYBINDING>\n") :=
      element_writes (b := []) (d := [10]) (by decide) ⟨by decide, by simp [attr]; decide⟩ hw (by decide) (by decide)
        (by simp [Markup.startTag, Markup.endTag, Markup.attributes, attr, bytes])
    exact hk.append hws

theorem keyNode_writes {type : CMPIType} {value : CMPIValue} {t : Text} (h : keyToXml printg type value = .ok t) :
    ∃ n, keyNode printg type value = .ok n ∧ Writes isLeaf [n] t := by
  match value, h with
  | .ref ⟨nameSpace, classname, keys⟩, h =>
    rw [keyToXml] at h
    split at h
    case isTrue hr  =>
      have ⟨s, hs, h⟩ := ok_bind.mp h
      cases h
      have ⟨ns, hns, hw⟩ := keyNodes_write hs
      exact ⟨_, by rw [keyNode, if_pos hr, hns]; rfl, instancePath_writes nameSpace (chars classname) hw⟩
    case isFalse hr =>
      have ⟨cv, hcv, h⟩ := ok_bind.mp h
      cases h
      exact ⟨_, by rw [keyNode, if_neg hr, hcv]; rfl, keyValue_writes type cv⟩
  | .indeterminate, h | .zero, h | .boolean _, h | .char16 _, h | .uint8 _, h | .uint16 _, h | .uint32 _, h
  | .uint64 _, h | .sint8 _, h | .sint16 _, h | .sint32 _, h | .sint64 _, h | .real32 _, h | .real64 _, h
  | .chars _, h | .string _, h | .dateTime _, h | .inst _, h | .cls _, h | .array _, h => exact keyNode_plain trivial h

end

theorem instanceName_writes {cop : CMPIObjectPath} (h : instanceNameElement printg cop = .ok t) :
    ∃ n, instanceName printg cop = .ok n ∧ Writes isLeaf [n] t := by
  have ⟨s, hs, h⟩ := ok_bind.mp h
  cases h
  have ⟨ns, hns, hw⟩ := keyNodes_write hs
  refine ⟨_, by rw [instanceName, hns]; rfl, ?_⟩
  exact element_writes (b := [10]) (d := [10]) (by decide) ⟨by decide, by simp [attr]; decide⟩ hw (by decide) (by decide)
    (by simp [Markup.startTag, Markup.endTag, Markup.attributes, attr, bytes])

theorem valueReference_writes {n : Node} (h : Writes isLeaf [n] t) : Writes isLeaf [element "VALUE.REFERENCE" [] [n]]
    (bytes "<VALUE.REFERENCE>\n" ++ t ++ bytes "</VALUE.REFERENCE>\n") :=
  element_writes (b := [10]) (d := [10]) (by decide) ⟨by decide, nofun⟩ h (by decide) (by decide)
    (by simp [Markup.startTag, Markup.endTag, Markup.attributes, bytes])

theorem reference_writes {cop : CMPIObjectPath} (h : addXmlReference printg cop = .ok t) :
    ∃ n, reference printg cop = .ok n ∧ Writes isLeaf [n] t := by
  have ⟨s, hs, h⟩ := ok_bind.mp h
  have ⟨n, hn, hw⟩ : ∃ n, instanceName printg cop = .ok n ∧ Writes isLeaf [n]
      (bytes "<INSTANCENAME CLASSNAME=\"" ++ chars cop.classname ++ bytes "\">\n" ++ s ++ bytes "</INSTANCENAME>\n") :=
    instanceName_writes (ok_bind.mpr ⟨s, hs, rfl⟩)
  cases hc : cop.nameSpace with
  | none    =>
    simp only [hc] at h
    cases h
    exact ⟨_, by simp only [reference, hn, hc]; rfl, valueReference_writes hw⟩
  | some ns =>
    simp only [hc] at h
    have ⟨l, hl, h⟩ := ok_bind.mp h
    cases h
    have ⟨ms, hms, hwl⟩ := localNameSpacePath_writes hl
    refine ⟨_, by simp only [reference, hn, hc, hms]; rfl, valueReference_writes ?_⟩
    exact element_writes (b := [10]) (d := [10]) (by decide) ⟨by decide, nofun⟩ (hwl.append hw) (by decide) (by decide)
      (by simp [Markup.startTag, Markup.endTag, Markup.attributes, bytes])

theorem value_writes (cv : Text) (hb : ∀ c ∈ b, Markup.isBlank c) :
    Writes isLeaf [value cv] (bytes "<VALUE>" ++ cv ++ (bytes "</VALUE>" ++ b)) :=
  leaf_writes (d := b) (by decide) ⟨by decide, nofun⟩ hb
    (by simp [Markup.startTag, Markup.endTag, Markup.attributes, bytes])

theorem valueElement_writes (cv : Text) : Writes isLeaf [value cv] (valueElement cv) :=
  value_writes (b := [10]) cv (by decide)

theorem values_write (cvs : List Text) : Writes isLeaf (cvs.map value) (cvs.flatMap valueElement) := by
  induction cvs with
  | nil         => exact .nil
  | cons cv cvs hi => exact (valueElement_writes cv).append hi

theorem valueArray_writes (cvs : List Text) : Writes isLeaf [element "VALUE.ARRAY" [] (cvs.map value)]
    (bytes "<VALUE.ARRAY>\n" ++ cvs.flatMap valueElement ++ bytes "</VALUE.ARRAY>\n") :=
  element_writes (b := [10]) (d := [10]) (by decide) ⟨by decide, nofun⟩ (values_write cvs) (by decide) (by decide)
    (by simp [Markup.startTag, Markup.endTag, Markup.attributes, bytes])

-- The tags of `addXmlValue`.
theorem typed_writes {typed : Option String} {type : CMPIType} (hl : isLeaf tag = false) (hn : Markup.IsName tag)
    (ht : ∀ c ∈ typed, Markup.IsName (bytes c)) (h : Writes isLeaf cs s) :
    Writes isLeaf [.element tag (attr "NAME" name :: (typed.bind fun c => (cmpiToXmlType type).map (attr c)).toList) cs]
      (bytes "<" ++ tag ++ bytes " NAME=\"" ++ name ++ bytes "\"" ++
        (((typed.map bytes).bind fun c => (cmpiToXmlType type).map fun t => (c, t)).elim []
          fun (c, t) => bytes " " ++ c ++ bytes "=\"" ++ t ++ bytes "\"") ++
        bytes ">\n" ++ s ++ bytes "</" ++ tag ++ bytes ">\n") := by
  refine element_writes (b := [10]) (d := [10]) hl ⟨hn, ?_⟩ h (by decide) (by decide) ?_
  · rintro a (_ | ⟨_, ha⟩)
    · exact (by decide : Markup.IsName (bytes "NAME"))
    · have ⟨c, hc, ha⟩ := Option.bind_eq_some_iff.mp (Option.mem_toList.mp ha)
      have ⟨t, _, ha⟩ := Option.map_eq_some_iff.mp ha
      cases ha
      exact ht c hc
  · cases typed <;> cases cmpiToXmlType type <;>
      simp [Markup.startTag, Markup.endTag, Markup.attributes, attr, bytes]

theorem valueNodes_write (tag : String) (typed : Option String) {data : CMPIData}
    (hl : isLeaf (bytes tag) = false ∧ isLeaf (bytes tag ++ bytes ".ARRAY") = false)
    (hn : Markup.IsName (bytes tag) ∧ Markup.IsName (bytes tag ++ bytes ".ARRAY"))
    (ht : ∀ c ∈ typed, Markup.IsName (bytes c))
    (h : addXmlValue printg (bytes tag) (typed.map bytes) name data = .ok t) :
    ∃ ns, valueNodes printg tag typed name data = .ok ns ∧ Writes isLeaf ns t := by
  rw [addXmlValue] at h
  rw [valueNodes]
  split at h
  case isTrue hs  =>
    cases h
    exact ⟨[], if_pos hs, .nil⟩
  case isFalse hs =>
    rw [if_neg hs]
    split at h
    case isTrue ha  =>
      rw [if_pos ha]
      revert h
      cases data.value with
      | array a =>
        intro h
        dsimp only at h ⊢
        split at h
        case isTrue he  =>
          cases h
          exact ⟨[], if_pos he, .nil⟩
        case isFalse he =>
          have ⟨cvs, hcvs, h⟩ := ok_bind.mp h
          cases h
          rw [if_neg he, hcvs]
          refine ⟨_, rfl, ?_⟩
          split
          case isTrue hp =>
            rw [List.append_nil]
            exact typed_writes hl.left hn.left ht (valueArray_writes cvs)
          case isFalse =>
            exact typed_writes hl.right hn.right ht (valueArray_writes cvs)
      | zero    => nofun
      | _       => nofun
    case isFalse ha =>
      rw [if_neg ha]
      split at h
      case isTrue hr  =>
        rw [if_pos hr]
        revert h
        cases data.value with
        | ref path =>
          intro h
          have ⟨s, hs, h⟩ := ok_bind.mp h
          cases h
          have ⟨n, hn', hw⟩ := reference_writes hs
          dsimp only
          rw [hn']
          refine ⟨_, rfl, ?_⟩
          rw [List.append_nil, ite_self]
          exact typed_writes hl.left hn.left ht hw
        | zero     => nofun
        | _        => nofun
      case isFalse hr =>
        rw [if_neg hr]
        have ⟨cv, hcv, h⟩ := ok_bind.mp h
        cases h
        rw [hcv]
        refine ⟨_, rfl, ?_⟩
        dsimp only
        rw [List.append_nil, ite_self]
        exact typed_writes hl.left hn.left ht (valueElement_writes cv)

-- The elements of a list are written one after the other.
theorem mapM_writes {α β : Type} {f : α → Except Fault Text} {g : α → Except Fault β} {l : List α} {ts : List Text}
    (w : β → List Node) (hg : ∀ a ∈ l, ∀ t, f a = .ok t → ∃ b, g a = .ok b ∧ Writes isLeaf (w b) t)
    (h : l.mapM f = .ok ts) : ∃ bs, l.mapM g = .ok bs ∧ Writes isLeaf (bs.flatMap w) ts.flatten := by
  induction l generalizing ts with
  | nil       =>
    cases h
    exact ⟨[], rfl, .nil⟩
  | cons a l hi =>
    rw [List.mapM_cons] at h
    have ⟨t, ht, h⟩ := ok_bind.mp h
    have ⟨ts', hts, h⟩ := ok_bind.mp h
    cases h
    have ⟨b, hb, hw⟩ := hg a List.mem_cons_self t ht
    have ⟨bs, hbs, hws⟩ := hi (fun a ha => hg a (List.mem_cons_of_mem _ ha)) hts
    refine ⟨b :: bs, by rw [List.mapM_cons, hb, hbs]; rfl, ?_⟩
    rw [List.flatMap_cons, List.flatten_cons]
    exact hw.append hws

theorem property_writes {p : NativeProperty CMPIValue} (h : addXmlProperty printg p = .ok t) :
    ∃ ns, property printg p = .ok ns ∧ Writes isLeaf ns t := by
  rw [addXmlProperty] at h
  rw [property]
  split at h
  case isTrue hr  =>
    rw [if_pos hr]
    exact valueNodes_write "PROPERTY.REFERENCE" none (by decide) (by decide) nofun h
  case isFalse hr =>
    rw [if_neg hr]
    refine valueNodes_write "PROPERTY" (some "TYPE") (by decide) (by decide) ?_ h
    rintro _ ⟨⟩
    decide

theorem instanceNode_writes {cop : CMPIObjectPath} {inst : CMPIInstance} (h : addXmlInstance printg (some cop) inst = .ok t) :
    ∃ n, instanceNode printg cop inst = .ok n ∧ Writes isLeaf [n] t := by
  have ⟨_, hc, h⟩ := ok_bind.mp h
  cases hc
  have ⟨props, hp, h⟩ := ok_bind.mp h
  cases h
  have ⟨nss, hnss, hw⟩ := mapM_writes id (fun p _ _ => property_writes) hp
  rw [List.flatMap_id] at hw
  refine ⟨_, by rw [instanceNode, hnss]; rfl, ?_⟩
  exact element_writes (b := [10]) (d := [10]) (by decide) ⟨by decide, by simp [attr]; decide⟩ hw (by decide) (by decide)
    (by simp [Markup.startTag, Markup.endTag, Markup.attributes, attr, bytes])

-- The instance in an argument is data, with blanks around it.
theorem instanceArg_writes {v : CMPIValue} (h : instanceValue printg v = .ok t) :
    ∃ n, instanceArg printg v = .ok n ∧ Writes isLeaf [n] t := by
  cases v with
  | inst inst =>
    obtain ⟨s, hs, h⟩ := ok_bind.mp h
    cases h
    refine ⟨_, by rw [instanceArg, hs]; rfl, ?_⟩
    have hb : ∀ c ∈ ([10] : Text), Markup.isBlank c := by decide
    have ht : bytes "<VALUE>\n<![CDATA[\n" ++ s ++ bytes "]]>\n</VALUE>\n" = Markup.startTag (bytes "VALUE") [] ++
        ([10] ++ (Markup.dataStart ++ ((bytes "\n" ++ s) ++ (Markup.dataEnd ++ [10]))) ++
          (Markup.endTag (bytes "VALUE") ++ [10])) := by
      simp [Markup.startTag, Markup.endTag, Markup.attributes, Markup.dataStart, Markup.dataEnd, bytes]
    rw [ht]
    exact .leaf (by decide) ⟨by decide, by simp⟩ (.data hb hb) (.blanks hb)
  | zero      => cases h
  | _         => cases h

theorem refArg_writes {v : CMPIValue} (h : refValue printg v = .ok t) :
    ∃ n, refArg printg v = .ok n ∧ Writes isLeaf [n] t := by
  cases v with
  | ref path =>
    have ⟨n, hn, hw⟩ := reference_writes h
    exact ⟨n, by rw [refArg, hn], hw⟩
  | zero     => cases h
  | _        => cases h

-- An object, or the objects of an array.
theorem objectArg_writes (tag : String) {arg : NativeProperty CMPIValue} {element : CMPIValue → Except Fault Text}
    {node : CMPIValue → Except Fault Node} (hl : isLeaf (bytes tag) = false) (hn : Markup.IsName (bytes tag))
    (he : ∀ v t, element v = .ok t → ∃ n, node v = .ok n ∧ Writes isLeaf [n] t)
    (h : (if arg.type.isArray then
      match arg.value with
      | .array a => objects tag element a
      | .zero    => throw .null
      | _        => throw .wild
    else element arg.value) = .ok t) : ∃ n, objectArg arg tag node = .ok n ∧ Writes isLeaf [n] t := by
  rw [objectArg]
  split at h
  case isTrue ha  =>
    rw [if_pos ha]
    revert h
    cases arg.value with
    | array a =>
      intro h
      have ⟨ts, hts, h⟩ := ok_bind.mp h
      cases h
      have ⟨ns, hns, hw⟩ := mapM_writes (fun n => [n]) (fun ele _ => he ele.value) hts
      rw [List.flatMap_singleton'] at hw
      dsimp only
      rw [hns]
      refine ⟨_, rfl, ?_⟩
      exact element_writes (b := [10]) (d := [10]) hl ⟨hn, nofun⟩ hw (by decide) (by decide)
        (by simp [Markup.startTag, Markup.endTag, Markup.attributes, bytes])
    | zero    => nofun
    | _       => nofun
  case isFalse ha =>
    rw [if_neg ha]
    exact he _ _ h

-- The elements of the arguments, unless one of them has a type that is not supported.
theorem argument_writes {arg : NativeProperty CMPIValue} (h : addXmlArg printg arg = .ok (some t)) :
    ∃ ns, argument printg arg = .ok ns ∧ Writes isLeaf ns t := by
  rw [addXmlArg] at h
  rw [argument]
  dsimp only at h
  split at h
  case isTrue ht  =>
    have hi : arg.type.element ≠ .inst := by
      intro he
      rw [he] at ht
      exact absurd ht (by decide)
    have hr : arg.type.element ≠ .ref := by
      intro he
      rw [he] at ht
      exact absurd ht (by decide)
    rw [if_neg hi, if_neg hr]
    have ⟨s, hs, h⟩ := ok_bind.mp h
    cases h
    refine valueNodes_write "PARAMVALUE" (some "PARAMTYPE") (by decide) (by decide) ?_ hs
    rintro _ ⟨⟩
    decide
  case isFalse ht =>
    split at h
    case isTrue hi  =>
      rw [if_pos hi]
      have ⟨s, hs, h⟩ := ok_bind.mp h
      cases h
      have ⟨n, hn, hw⟩ := objectArg_writes "VALUE.ARRAY" (by decide) (by decide) (fun _ _ => instanceArg_writes) hs
      rw [hn]
      refine ⟨_, rfl, ?_⟩
      exact element_writes (b := [10]) (d := [10]) (by decide) ⟨by decide, by simp [attr]; decide⟩ hw (by decide) (by decide)
        (by simp [Markup.startTag, Markup.endTag, Markup.attributes, attr, bytes])
    case isFalse hi =>
      rw [if_neg hi]
      split at h
      case isTrue hr  =>
        rw [if_pos hr]
        have ⟨s, hs, h⟩ := ok_bind.mp h
        cases h
        have ⟨n, hn, hw⟩ := objectArg_writes "VALUE.REFARRAY" (by decide) (by decide) (fun _ _ => refArg_writes) hs
        rw [hn]
        refine ⟨_, rfl, ?_⟩
        exact element_writes (b := [10]) (d := [10]) (by decide) ⟨by decide, by simp [attr]; decide⟩ hw (by decide) (by decide)
          (by simp [Markup.startTag, Markup.endTag, Markup.attributes, attr, bytes])
      case isFalse hr => cases h

theorem arguments_write {args : CMPIArgs} (h : addXmlArgs printg args = .ok (some t)) :
    ∃ nss, args.mapM (argument printg) = .ok nss ∧ Writes isLeaf nss.flatten t := by
  induction args generalizing t with
  | nil           =>
    cases h
    exact ⟨[], rfl, .nil⟩
  | cons arg args hi =>
    have ⟨o, ho, h⟩ := ok_bind.mp h
    cases o with
    | none   => cases h
    | some s =>
      have ⟨o', ho', h⟩ := ok_bind.mp h
      cases o' with
      | none    => cases h
      | some s' =>
        cases h
        have ⟨ns, hns, hw⟩ := argument_writes ho
        have ⟨nss, hnss, hws⟩ := hi ho'
        refine ⟨ns :: nss, by rw [List.mapM_cons, hns, hnss]; rfl, ?_⟩
        rw [List.flatten_cons]
        exact hw.append hws

-- The parameters of the intrinsic methods.

theorem param_writes {name : String} {n : Node} (hb : ∀ c ∈ b, Markup.isBlank c) (hd : ∀ c ∈ d, Markup.isBlank c)
    (h : Writes isLeaf [n] s)
    (ht : t = bytes "<IPARAMVALUE NAME=\"" ++ bytes name ++ bytes "\">" ++ (b ++ s ++ (bytes "</IPARAMVALUE>" ++ d))) :
    Writes isLeaf [param name n] t :=
  element_writes (by decide) ⟨by decide, by simp [attr]; decide⟩ h hb hd
    (by rw [ht]; simp [Markup.startTag, Markup.endTag, Markup.attributes, attr, bytes])

theorem flag_writes (name : String) (f : UInt32) : Writes isLeaf (flag name f) (emit name f) :=
  param_writes (b := []) (d := [10]) (by decide) (by decide) (value_writes (b := []) _ (by decide)) (by simp [emit, bytes])

theorem className_writes (c : Text) : Writes isLeaf [className c] (bytes "<CLASSNAME NAME=\"" ++ c ++ bytes "\"/>") := by
  have h : bytes "<CLASSNAME NAME=\"" ++ c ++ bytes "\"/>" =
      Markup.emptyTag (bytes "CLASSNAME") [attr "NAME" c] ++ [] := by
    simp [Markup.emptyTag, Markup.attributes, attr, bytes]
  rw [h]
  exact .empty (by decide) ⟨by decide, by simp [attr]; decide⟩ .nil

theorem classNameParam_writes (cop : CMPIObjectPath) : Writes isLeaf (classNameParam cop) (addXmlClassnameParam cop) := by
  rw [classNameParam, addXmlClassnameParam]
  split
  · exact .nil
  · exact param_writes (b := []) (d := [10]) (by decide) (by decide) (className_writes (chars cop.classname)) (by simp [bytes])

theorem classFilter_writes (name : String) (c : Option Text) :
    Writes isLeaf (classFilter name c) (classParam name c) := by
  cases c with
  | none   => exact .nil
  | some c =>
    exact param_writes (b := []) (d := [10]) (by decide) (by decide) (className_writes c) (by simp [classParam, bytes])

theorem roleFilter_writes (name : String) (r : Option Text) : Writes isLeaf (roleFilter name r) (roleParam name r) := by
  cases r with
  | none   => exact .nil
  | some r =>
    exact param_writes (b := []) (d := [10]) (by decide) (by decide) (value_writes (b := []) r (by decide))
      (by simp [roleParam, bytes])

theorem stringParam_writes (name : String) (t : Option Text) : Writes isLeaf (stringParam name t) (valueParam name t) :=
  param_writes (b := [10]) (d := []) (by decide) (by decide) (value_writes (b := [10]) (chars t) (by decide))
    (by simp [valueParam, bytes])

theorem propertyList_writes (properties : Option (List Text)) :
    Writes isLeaf (propertyList properties) (addXmlPropertyListParam properties) := by
  cases properties with
  | none    => exact .nil
  | some ps =>
    have hv : Writes isLeaf (ps.map value) (ps.flatMap fun p => bytes "<VALUE>" ++ p ++ bytes "</VALUE>") := by
      induction ps with
      | nil          => exact .nil
      | cons p ps hi =>
        have hp := value_writes (b := []) p (by decide)
        rw [List.append_nil] at hp
        exact hp.append hi
    have ha : Writes isLeaf [element "VALUE.ARRAY" [] (ps.map value)] _ :=
      element_writes (b := []) (d := []) (by decide) ⟨by decide, nofun⟩ hv (by decide) (by decide) rfl
    refine param_writes (b := []) (d := [10]) (by decide) (by decide) ha ?_
    simp [addXmlPropertyListParam, Markup.startTag, Markup.endTag, Markup.attributes, bytes]

theorem objectParam_writes {name : String} {cop : CMPIObjectPath} (h : addXmlObjectName printg cop name = .ok t) :
    ∃ ns, objectParam printg name cop = .ok ns ∧ Writes isLeaf ns t := by
  have ⟨s, hs, h⟩ := ok_bind.mp h
  cases h
  have ⟨n, hn, hw⟩ := instanceName_writes hs
  refine ⟨_, by rw [objectParam, hn]; rfl, ?_⟩
  exact param_writes (b := [10]) (d := [10]) (by decide) (by decide) hw (by simp [bytes])

theorem message_writes {call : Node} (h : Writes isLeaf [call] s) :
    ∃ u, addXmlHeader ++ s ++ addXmlFooter = declaration ++ u ∧ Writes isLeaf (message call) u := by
  have hs : Writes isLeaf [element "SIMPLEREQ" [] [call]] _ :=
    element_writes (b := [10]) (d := [10]) (by decide) ⟨by decide, nofun⟩ h (by decide) (by decide) rfl
  have hm : Writes isLeaf [element "MESSAGE" [attr "ID" (bytes "4711"), attr "PROTOCOLVERSION" (bytes "1.0")] _] _ :=
    element_writes (b := [10]) (d := [10]) (by decide) ⟨by decide, by simp [attr]; decide⟩ hs (by decide) (by decide) rfl
  have hc : Writes isLeaf (message call) _ :=
    element_writes (b := [10]) (d := [10]) (by decide) ⟨by decide, by simp [attr]; decide⟩ hm (by decide) (by decide) rfl
  refine ⟨_, ?_, hc⟩
  have h₁ : addXmlHeader = declaration ++
      (Markup.startTag (bytes "CIM") [attr "CIMVERSION" (bytes "2.0"), attr "DTDVERSION" (bytes "2.0")] ++ [10] ++
        (Markup.startTag (bytes "MESSAGE") [attr "ID" (bytes "4711"), attr "PROTOCOLVERSION" (bytes "1.0")] ++ [10] ++
          (Markup.startTag (bytes "SIMPLEREQ") [] ++ [10]))) := rfl
  have h₂ : addXmlFooter = Markup.endTag (bytes "SIMPLEREQ") ++ [10] ++ (Markup.endTag (bytes "MESSAGE") ++ [10] ++
      (Markup.endTag (bytes "CIM") ++ [10])) := rfl
  rw [h₁, h₂]
  simp only [List.append_assoc]

theorem imethodcall_writes (name : String) {ns : List Node} (h : Writes isLeaf ns s) :
    ∃ u, imethodcall name s = declaration ++ u ∧ Writes isLeaf (intrinsic name ns) u := by
  have hc : Writes isLeaf [element "IMETHODCALL" [attr "NAME" (bytes name)] ns] _ :=
    element_writes (b := []) (d := [10]) (by decide) ⟨by decide, by simp [attr]; decide⟩ h (by decide) (by decide) rfl
  have ⟨u, hu, hw⟩ := message_writes hc
  refine ⟨u, ?_, hw⟩
  rw [← hu, imethodcall]
  simp [Markup.startTag, Markup.endTag, Markup.attributes, attr, bytes]

theorem namedInstance_writes {cop : CMPIObjectPath} {inst : CMPIInstance} (h : addXmlNamedInstance printg cop inst = .ok t) :
    ∃ n m, instanceName printg cop = .ok n ∧ instanceNode printg cop inst = .ok m ∧
      Writes isLeaf [element "VALUE.NAMEDINSTANCE" [] [n, m]] t := by
  have ⟨s, hs, h⟩ := ok_bind.mp h
  have ⟨s', hs', h⟩ := ok_bind.mp h
  cases h
  have ⟨n, hn, hw⟩ := instanceName_writes hs
  have ⟨m, hm, hw'⟩ := instanceNode_writes hs'
  refine ⟨n, m, hn, hm, ?_⟩
  exact element_writes (b := [10]) (d := [10]) (by decide) ⟨by decide, nofun⟩ (hw.append hw') (by decide) (by decide)
    (by simp [Markup.startTag, Markup.endTag, Markup.attributes, bytes])

theorem methodcall_writes (method : Text) {args ns name : Text} {nn : Node} {ms as : List Node} (hns : Writes isLeaf ms ns)
    (hn : Writes isLeaf [nn] name) (ha : Writes isLeaf as args) :
    ∃ u, addXmlHeader ++ bytes "<METHODCALL NAME=\"" ++ method ++ bytes "\">" ++ bytes "<LOCALINSTANCEPATH>" ++ ns ++
        name ++ bytes "</LOCALINSTANCEPATH>\n" ++ args ++ bytes "</METHODCALL>\n" ++ addXmlFooter = declaration ++ u ∧
      Writes isLeaf (message (element "METHODCALL" [attr "NAME" method]
        (element "LOCALINSTANCEPATH" [] (ms ++ [nn]) :: as))) u := by
  have hl : Writes isLeaf [element "LOCALINSTANCEPATH" [] (ms ++ [nn])] _ :=
    element_writes (b := []) (d := [10]) (by decide) ⟨by decide, nofun⟩ (hns.append hn) (by decide) (by decide) rfl
  have hc : Writes isLeaf [element "METHODCALL" [attr "NAME" method] ([element "LOCALINSTANCEPATH" [] (ms ++ [nn])] ++ as)] _ :=
    element_writes (b := []) (d := [10]) (by decide) ⟨by decide, by simp [attr]; decide⟩ (hl.append ha) (by decide)
      (by decide) rfl
  have ⟨u, hu, hw⟩ := message_writes hc
  refine ⟨u, ?_, hw⟩
  rw [← hu]
  simp [Markup.startTag, Markup.endTag, Markup.attributes, attr, bytes]

namespace Operation

variable {cop : CMPIObjectPath} {op : Operation}

-- A request is the declaration, and the text of what is asked for.
theorem body_writes (h : op.body printg cop = .ok (some t)) :
    ∃ n u, op.asks printg cop = .ok [n] ∧ t = declaration ++ u ∧ Writes isLeaf [n] u := by
  cases op with
  | enumInstanceNames =>
    have ⟨s, hs, h⟩ := ok_bind.mp h
    cases h
    have ⟨ns, hns, hw⟩ := localNameSpacePath_writes hs
    have hw := hw.append (classNameParam_writes cop)
    have ⟨u, hu, hw⟩ := imethodcall_writes "EnumerateInstanceNames" hw
    exact ⟨_, u, by rw [asks, hns]; rfl, hu, hw⟩
  | getInstance flags properties =>
    have ⟨s, hs, h⟩ := ok_bind.mp h
    have ⟨o, ho, h⟩ := ok_bind.mp h
    cases h
    have ⟨ns, hns, hw⟩ := localNameSpacePath_writes hs
    have ⟨os, hos, hwo⟩ := objectParam_writes ho
    have hw := hw.append (flag_writes "LocalOnly" (flags &&& CMPI_FLAG_LocalOnly))
    have hw := hw.append (flag_writes "IncludeClassOrigin" (flags &&& CMPI_FLAG_IncludeClassOrigin))
    have hw := hw.append (flag_writes "IncludeQualifiers" (flags &&& CMPI_FLAG_IncludeQualifiers))
    have hw := hw.append (propertyList_writes properties)
    have hw := hw.append hwo
    have ⟨u, hu, hw⟩ := imethodcall_writes "GetInstance" hw
    exact ⟨_, u, by rw [asks, hns, hos]; rfl, hu, hw⟩
  | createInstance inst =>
    have ⟨s, hs, h⟩ := ok_bind.mp h
    have ⟨i, hi, h⟩ := ok_bind.mp h
    cases h
    have ⟨ns, hns, hw⟩ := localNameSpacePath_writes hs
    have ⟨n, hn, hwi⟩ := instanceNode_writes hi
    have hp : Writes isLeaf [param "NewInstance" n] (bytes "<IPARAMVALUE NAME=\"NewInstance\">\n" ++ (i ++
        bytes "</IPARAMVALUE>\n")) :=
      param_writes (b := [10]) (d := [10]) (by decide) (by decide) hwi (by simp [bytes])
    have hw := hw.append hp
    have ⟨u, hu, hw⟩ := imethodcall_writes "CreateInstance" hw
    exact ⟨_, u, by rw [asks, hns, hn]; rfl, by simpa only [List.append_assoc] using hu, hw⟩
  | setInstance inst flags properties =>
    have ⟨s, hs, h⟩ := ok_bind.mp h
    have ⟨i, hi, h⟩ := ok_bind.mp h
    cases h
    have ⟨ns, hns, hw⟩ := localNameSpacePath_writes hs
    have ⟨n, m, hn, hm, hwi⟩ := namedInstance_writes hi
    have hp : Writes isLeaf [param "ModifiedInstance" _] (bytes "<IPARAMVALUE NAME=\"ModifiedInstance\">\n" ++ (i ++
        bytes "</IPARAMVALUE>\n")) :=
      param_writes (b := [10]) (d := [10]) (by decide) (by decide) hwi (by simp [bytes])
    have hb : ∀ c ∈ bytes "\n", Markup.isBlank c := by decide
    have hw := hw.indented hb
    have hw := hw.append (flag_writes "IncludeQualifiers" (flags &&& CMPI_FLAG_IncludeQualifiers))
    have hw := hw.append (propertyList_writes properties)
    have hw := hw.append hp
    have ⟨u, hu, hw⟩ := imethodcall_writes "ModifyInstance" hw
    exact ⟨_, u, by rw [asks, hns, hn, hm]; rfl, by simpa only [emitqual, List.append_assoc] using hu, hw⟩
  | deleteInstance =>
    have ⟨s, hs, h⟩ := ok_bind.mp h
    have ⟨o, ho, h⟩ := ok_bind.mp h
    cases h
    have ⟨ns, hns, hw⟩ := localNameSpacePath_writes hs
    have ⟨os, hos, hwo⟩ := objectParam_writes ho
    have hw := hw.append hwo
    have ⟨u, hu, hw⟩ := imethodcall_writes "DeleteInstance" hw
    exact ⟨_, u, by rw [asks, hns, hos]; rfl, hu, hw⟩
  | execQuery query lang =>
    have ⟨s, hs, h⟩ := ok_bind.mp h
    cases h
    have ⟨ns, hns, hw⟩ := localNameSpacePath_writes hs
    have hw := hw.append (stringParam_writes "QueryLanguage" lang)
    have hw := hw.append (stringParam_writes "Query" query)
    have ⟨u, hu, hw⟩ := imethodcall_writes "ExecQuery" hw
    exact ⟨_, u, by rw [asks, hns]; rfl, hu, hw⟩
  | enumInstances flags properties =>
    have ⟨s, hs, h⟩ := ok_bind.mp h
    cases h
    have ⟨ns, hns, hw⟩ := localNameSpacePath_writes hs
    have hw := hw.append (classNameParam_writes cop)
    have hw := hw.append (flag_writes "DeepInheritance" (flags &&& CMPI_FLAG_DeepInheritance))
    have hw := hw.append (flag_writes "LocalOnly" (flags &&& CMPI_FLAG_LocalOnly))
    have hw := hw.append (flag_writes "IncludeQualifiers" (flags &&& CMPI_FLAG_IncludeQualifiers))
    have hw := hw.append (flag_writes "IncludeClassOrigin" (flags &&& CMPI_FLAG_IncludeClassOrigin))
    have hw := hw.append (propertyList_writes properties)
    have ⟨u, hu, hw⟩ := imethodcall_writes "EnumerateInstances" hw
    exact ⟨_, u, by rw [asks, hns]; rfl, hu, hw⟩
  | associators assocClass resultClass role resultRole flags properties =>
    have ⟨s, hs, h⟩ := ok_bind.mp h
    have ⟨o, ho, h⟩ := ok_bind.mp h
    cases h
    have ⟨ns, hns, hw⟩ := localNameSpacePath_writes hs
    have ⟨os, hos, hwo⟩ := objectParam_writes ho
    have hw := hw.append hwo
    have hw := hw.append (classFilter_writes "AssocClass" assocClass)
    have hw := hw.append (classFilter_writes "ResultClass" resultClass)
    have hw := hw.append (roleFilter_writes "Role" role)
    have hw := hw.append (roleFilter_writes "ResultRole" resultRole)
    have hw := hw.append (flag_writes "IncludeClassOrigin" (flags &&& CMPI_FLAG_IncludeClassOrigin))
    have hw := hw.append (flag_writes "IncludeQualifiers" (flags &&& CMPI_FLAG_IncludeQualifiers))
    have hw := hw.append (propertyList_writes properties)
    have ⟨u, hu, hw⟩ := imethodcall_writes "Associators" hw
    exact ⟨_, u, by rw [asks, hns, hos]; rfl, hu, hw⟩
  | associatorNames assocClass resultClass role resultRole =>
    have ⟨s, hs, h⟩ := ok_bind.mp h
    have ⟨o, ho, h⟩ := ok_bind.mp h
    cases h
    have ⟨ns, hns, hw⟩ := localNameSpacePath_writes hs
    have ⟨os, hos, hwo⟩ := objectParam_writes ho
    have hw := hw.append hwo
    have hw := hw.append (classFilter_writes "AssocClass" assocClass)
    have hw := hw.append (classFilter_writes "ResultClass" resultClass)
    have hw := hw.append (roleFilter_writes "Role" role)
    have hw := hw.append (roleFilter_writes "ResultRole" resultRole)
    have ⟨u, hu, hw⟩ := imethodcall_writes "AssociatorNames" hw
    exact ⟨_, u, by rw [asks, hns, hos]; rfl, hu, hw⟩
  | references resultClass role flags properties =>
    have ⟨s, hs, h⟩ := ok_bind.mp h
    have ⟨o, ho, h⟩ := ok_bind.mp h
    cases h
    have ⟨ns, hns, hw⟩ := localNameSpacePath_writes hs
    have ⟨os, hos, hwo⟩ := objectParam_writes ho
    have hw := hw.append hwo
    have hw := hw.append (classFilter_writes "ResultClass" resultClass)
    have hw := hw.append (roleFilter_writes "Role" role)
    have hw := hw.append (flag_writes "IncludeClassOrigin" (flags &&& CMPI_FLAG_IncludeClassOrigin))
    have hw := hw.append (flag_writes "IncludeQualifiers" (flags &&& CMPI_FLAG_IncludeQualifiers))
    have hw := hw.append (propertyList_writes properties)
    have ⟨u, hu, hw⟩ := imethodcall_writes "References" hw
    exact ⟨_, u, by rw [asks, hns, hos]; rfl, hu, hw⟩
  | referenceNames resultClass role =>
    have ⟨s, hs, h⟩ := ok_bind.mp h
    have ⟨o, ho, h⟩ := ok_bind.mp h
    cases h
    have ⟨ns, hns, hw⟩ := localNameSpacePath_writes hs
    have ⟨os, hos, hwo⟩ := objectParam_writes ho
    have hw := hw.append hwo
    have hw := hw.append (classFilter_writes "ResultClass" resultClass)
    have hw := hw.append (roleFilter_writes "Role" role)
    have ⟨u, hu, hw⟩ := imethodcall_writes "ReferenceNames" hw
    exact ⟨_, u, by rw [asks, hns, hos]; rfl, hu, hw⟩
  | invokeMethod method args =>
    have ⟨s, hs, h⟩ := ok_bind.mp h
    have ⟨n, hn, h⟩ := ok_bind.mp h
    have ⟨o, ho, h⟩ := ok_bind.mp h
    cases o with
    | none   => cases h
    | some a =>
      cases h
      have ⟨ns, hns, hw⟩ := localNameSpacePath_writes hs
      have ⟨nn, hnn, hwn⟩ := instanceName_writes hn
      have ⟨as, has, hwa⟩ := arguments_write ho
      have ⟨u, hu, hw⟩ := methodcall_writes (chars method) hw hwn hwa
      exact ⟨_, u, by rw [asks, hns, hnn, has]; rfl, hu, hw⟩
  | setProperty name value type =>
    have ⟨s, hs, h⟩ := ok_bind.mp h
    have ⟨v, hv, h⟩ := ok_bind.mp h
    have ⟨o, ho, h⟩ := ok_bind.mp h
    cases h
    have ⟨ns, hns, hw⟩ := localNameSpacePath_writes hs
    have ⟨os, hos, hwo⟩ := objectParam_writes ho
    have hw := hw.append (stringParam_writes "PropertyName" name)
    have hw := hw.append (stringParam_writes "NewValue" (some v))
    have hw := hw.append hwo
    have ⟨u, hu, hw⟩ := imethodcall_writes "SetProperty" hw
    exact ⟨_, u, by rw [asks, hns, hv, hos]; rfl, hu, hw⟩
  | getProperty name =>
    have ⟨s, hs, h⟩ := ok_bind.mp h
    have ⟨o, ho, h⟩ := ok_bind.mp h
    cases h
    have ⟨ns, hns, hw⟩ := localNameSpacePath_writes hs
    have ⟨os, hos, hwo⟩ := objectParam_writes ho
    have hw := hw.append (stringParam_writes "PropertyName" name)
    have hw := hw.append hwo
    have ⟨u, hu, hw⟩ := imethodcall_writes "GetProperty" hw
    exact ⟨_, u, by rw [asks, hns, hos]; rfl, hu, hw⟩
  | getClass flags properties =>
    have ⟨s, hs, h⟩ := ok_bind.mp h
    cases h
    have ⟨ns, hns, hw⟩ := localNameSpacePath_writes hs
    have hw := hw.append (flag_writes "LocalOnly" (flags &&& CMPI_FLAG_LocalOnly))
    have hw := hw.append (flag_writes "IncludeClassOrigin" (flags &&& CMPI_FLAG_IncludeClassOrigin))
    have hw := hw.append (flag_writes "IncludeQualifiers" (flags &&& CMPI_FLAG_IncludeQualifiers))
    have hw := hw.append (propertyList_writes properties)
    have hw := hw.append (classNameParam_writes cop)
    have ⟨u, hu, hw⟩ := imethodcall_writes "GetClass" hw
    exact ⟨_, u, by rw [asks, hns]; rfl, hu, hw⟩
  | enumClassNames flags =>
    have ⟨s, hs, h⟩ := ok_bind.mp h
    cases h
    have ⟨ns, hns, hw⟩ := localNameSpacePath_writes hs
    have hw := hw.append (flag_writes "DeepInheritance" (flags &&& CMPI_FLAG_DeepInheritance))
    have hw := hw.append (classNameParam_writes cop)
    have ⟨u, hu, hw⟩ := imethodcall_writes "EnumerateClassNames" hw
    exact ⟨_, u, by rw [asks, hns]; rfl, hu, hw⟩
  | enumClasses flags =>
    have ⟨s, hs, h⟩ := ok_bind.mp h
    cases h
    have ⟨ns, hns, hw⟩ := localNameSpacePath_writes hs
    have hw := hw.append (flag_writes "DeepInheritance" (flags &&& CMPI_FLAG_DeepInheritance))
    have hw := hw.append (flag_writes "LocalOnly" (flags &&& CMPI_FLAG_LocalOnly))
    have hw := hw.append (flag_writes "IncludeQualifiers" (flags &&& CMPI_FLAG_IncludeQualifiers))
    have hw := hw.append (flag_writes "IncludeClassOrigin" (flags &&& CMPI_FLAG_IncludeClassOrigin))
    have hw := hw.append (classNameParam_writes cop)
    have ⟨u, hu, hw⟩ := imethodcall_writes "EnumerateClasses" hw
    exact ⟨_, u, by rw [asks, hns]; rfl, hu, hw⟩

def queryPath : CMPIObjectPath where
  nameSpace := some (bytes "root/cimv2")

end Operation
end Sfcc.Requests
