import Sfcc.Theorems.Xml.Elements
import Sfcc.Theorems.Xml.Path
import Sfcc.Theorems.Xml.Scalar

-- What a path is read as after it was written.
namespace Sfcc.Xml

section

variable (printg : Text → Text)

-- A key with the text of a value, which is always `false` for a boolean.
def keyRead (type : CMPIType) (t : Text) : CMPIType × CMPIValue :=
  if type = .boolean then (.boolean, .boolean false)
  else if type &&& (.integer ||| .real) ≠ 0 then
    if t.head?.any isSign then (.sint64, scanSigned (.sint64 <| .ofInt ·) t)
    else (.uint64, scanUnsigned (.uint64 <| .ofNat ·) t)
  else (.string, .string t)

mutual

def valueRead (type : CMPIType) : CMPIValue → CMPIType × CMPIValue
  | .ref path =>
    if type = .ref then (.ref, .ref (pathRead path)) else keyRead type (trimmed (plainText printg type (.ref path)))
  | value     => keyRead type (trimmed (plainText printg type value))

def pathRead : CMPIObjectPath → CMPIObjectPath
  | ⟨nameSpace, classname, keys⟩ => ⟨nameSpace, some (chars classname), keysRead keys⟩

def keysRead : List (NativeProperty CMPIValue) → List (NativeProperty CMPIValue)
  | []                                => []
  | ⟨name, type, _, value, _⟩ :: keys =>
    ⟨name, (valueRead type value).1, .key, (valueRead type value).2, []⟩ :: keysRead keys

end

-- A key that is written so that it does not end an element or an attribute.
inductive Writable : CMPIType → CMPIValue → Prop
  | text {type v t} : v.Plain → type ≠ .ref → plain2Chars printg type v = .ok t → 60 ∉ t → Writable type v
  | ref {p : CMPIObjectPath} : (∀ ns ∈ p.nameSpace, 34 ∉ ns) → (∀ cn ∈ p.classname, 34 ∉ cn) →
    Named.Distinct NativeProperty.name p.keys → (∀ k ∈ p.keys, 34 ∉ k.name) →
    (∀ k ∈ p.keys, Writable k.type k.value) → Writable .ref (.ref p)

-- The tree of a key.
def binding (name : Text) : XtokKeyValue ⊕ Tree.Reference → Tree.KeyBinding :=
  Sum.elim (.keyValue (some name)) (.reference (some name))

def bound : XtokKeyValue ⊕ Tree.Reference → List Tok :=
  Sum.elim (Tree.tagged .KEYVALUE · []) Tree.Reference.yield

-- A value is written as a tree that it is read from.
structure Binds (type : CMPIType) (v : CMPIValue) (cv : Text) (c : XtokKeyValue ⊕ Tree.Reference) : Prop where
  xml   : keyToXml printg type v = .ok cv
  lexes : Lexes cv (bound c)
  read  : ∀ name, ∃ w t, getKeyValueTypePtr (binding name c).xtok.type (binding name c).xtok.val.u = .ok (some w, t) ∧
    NativeProperty.new name t .key w = ⟨name, (valueRead printg type v).1, .key, (valueRead printg type v).2, []⟩

variable {printg} {type : CMPIType} {v : CMPIValue}

theorem keyValuePtr_read (type : CMPIType) (t : Text) : ∃ w ty,
    keyValuePtr (some (keytype2Chars type)) (some t) = .ok (some w, ty) ∧
      ∀ name, NativeProperty.new name ty .key w = ⟨name, (keyRead type t).1, .key, (keyRead type t).2, []⟩ := by
  rw [keytype2Chars, keyRead]
  split
  · exact ⟨_, _, rfl, fun _ => rfl⟩
  · split
    · have hk : keyValuePtr (some (bytes "numeric")) (some t) =
          if t.head?.any isSign then .ok (some (scanSigned (.sint64 <| .ofInt ·) t), .sint64)
          else .ok (some (scanUnsigned (.uint64 <| .ofNat ·) t), .uint64) :=
        rfl
      rw [hk]
      split <;> exact ⟨_, _, rfl, fun _ => rfl⟩
    · exact ⟨_, _, rfl, fun _ => rfl⟩

theorem isRef_keytype2Chars (type : CMPIType) : isRef (some (keytype2Chars type)) = false := by
  rw [keytype2Chars]
  split
  · rfl
  · split <;> rfl

theorem keytype2Chars_quote (type : CMPIType) : 34 ∉ keytype2Chars type := by
  rw [keytype2Chars]
  split
  · decide
  · split <;> decide

theorem binds_text {t : Text} (hv : v.Plain) (hr : type ≠ .ref) (ht : plain2Chars printg type v = .ok t) (h60 : 60 ∉ t) :
    ∃ cv c, Binds printg type v cv c := by
  have hplain : plainText printg type v = t := by rw [plainText, ht]
  have hchars : value2Chars printg type v = .ok t := (value2Chars_plain printg hv).trans ht
  obtain ⟨w, ty, hk, hn⟩ := keyValuePtr_read type (trimmed t)
  refine ⟨_, .inl { valueType := keytype2Chars type, value := trimmed t }, ?_, keyValue_lexes (keytype2Chars_quote type) h60,
    fun name => ⟨w, ty, ?_, ?_⟩⟩
  · cases v
    case ref p => cases hv
    all_goals
      rw [keyToXml, if_neg hr, hchars]
      · rfl
      · exact nofun
  · show getKeyValueTypePtr (some (keytype2Chars type)) (.keyValue _) = _
    rw [getKeyValueTypePtr, isRef_keytype2Chars]
    exact hk
  · rw [hn name]
    cases v
    case ref p => cases hv
    all_goals
      rw [valueRead, hplain]
      exact nofun

-- The keys of a path are written as trees that they are read from, in the same order.
structure BindsAll (printg : Text → Text) (keys : List (NativeProperty CMPIValue)) (text : Text)
    (bs : List Tree.KeyBinding) : Prop where
  xml   : pathToXml printg keys = .ok text
  lexes : Lexes text (Tree.KeyBinding.yields bs)
  read  : ∀ op : CMPIObjectPath, (∀ k ∈ keys, ∀ k' ∈ op.keys, k'.name.lower ≠ k.name.lower) →
    addKeys op (Tree.KeyBinding.xtoks bs) = .ok { op with keys := op.keys ++ keysRead printg keys }

theorem binding_yield (name : Text) (c : XtokKeyValue ⊕ Tree.Reference) :
    (binding name c).yield = Tree.tagged .KEYBINDING (some name) (bound c) := by
  cases c <;> rfl

theorem bindsAll_of {keys : List (NativeProperty CMPIValue)} (hd : Named.Distinct NativeProperty.name keys)
    (hn : ∀ k ∈ keys, 34 ∉ k.name) (h : ∀ k ∈ keys, ∃ cv c, Binds printg k.type k.value cv c) :
    ∃ text bs, BindsAll printg keys text bs := by
  induction keys with
  | nil          =>
    refine ⟨[], [], rfl, .nil, fun op _ => ?_⟩
    rw [Tree.KeyBinding.xtoks, addKeys, keysRead, List.append_nil]
    rfl
  | cons k keys hi =>
    obtain ⟨hk, hkeys⟩ := List.forall_mem_cons.mp h
    obtain ⟨hkn, hkeysn⟩ := List.forall_mem_cons.mp hn
    obtain ⟨cv, c, hc⟩ := hk
    obtain ⟨hne, hd⟩ := List.nodup_cons.mp hd
    obtain ⟨text, bs, hbs⟩ := hi hd hkeysn hkeys
    refine ⟨bytes "<KEYBINDING NAME=\"" ++ k.name ++ bytes "\">" ++ cv ++ bytes "</KEYBINDING>\n" ++ text,
      binding k.name c :: bs, ?_, ?_, fun op ho => ?_⟩
    · rw [pathToXml, hc.xml, hbs.xml]
      rfl
    · rw [Tree.KeyBinding.yields, binding_yield]
      exact (keyBinding_lexes hkn hc.lexes).append hbs.lexes
    · obtain ⟨w, t, hw, hnew⟩ := hc.read k.name
      have hadd : op.addKey (some k.name) (some w) t = .ok { op with keys := op.keys ++
          [⟨k.name, (valueRead printg k.type k.value).1, .key, (valueRead printg k.type k.value).2, []⟩] } := by
        have hf : ∀ k' ∈ op.keys, k'.name.lower ≠ k.name.lower := ho k (List.mem_cons_self ..)
        rw [NativeCop.addKey_some, addProperty, Named.add_of_not_mem hf, hnew]
      have hop : ∀ k₂ ∈ keys, ∀ k' ∈ op.keys ++
          [⟨k.name, (valueRead printg k.type k.value).1, .key, (valueRead printg k.type k.value).2, []⟩],
          k'.name.lower ≠ k₂.name.lower := by
        intro k₂ hk₂ k' hk'
        cases List.mem_append.mp hk' with
        | inl hk' => exact ho k₂ (List.mem_cons_of_mem _ hk₂) k' hk'
        | inr hk' =>
          rw [List.mem_singleton.mp hk']
          exact fun he => hne (List.mem_map.mpr ⟨k₂, hk₂, he.symm⟩)
      have hrest := hbs.read { op with keys := op.keys ++
        [⟨k.name, (valueRead printg k.type k.value).1, .key, (valueRead printg k.type k.value).2, []⟩] } hop
      simp only [List.append_assoc, List.singleton_append] at hrest
      rw [keysRead, ← hrest, Tree.KeyBinding.xtoks]
      cases c
      all_goals
        simp only [binding, Sum.elim_inl, Sum.elim_inr, Tree.KeyBinding.xtok] at hw ⊢
        simp only [addKeys, hw, hadd, bind, Except.bind]

-- A path that was read is copied as it is.

theorem keyRead_leaf (type : CMPIType) (t : Text) : (keyRead type t).2.Leaf ∧ (keyRead type t).1.cloning ≠ .lost := by
  have ht : CMPIType.boolean.cloning ≠ .lost ∧ CMPIType.sint64.cloning ≠ .lost ∧ CMPIType.uint64.cloning ≠ .lost ∧
      CMPIType.string.cloning ≠ .lost := by
    decide
  rw [keyRead]
  split
  · exact ⟨trivial, ht.1⟩
  · split
    · split
      · exact ⟨@scanSigned_leaf (.sint64 <| .ofInt ·) (fun _ => trivial) t, ht.2.1⟩
      · exact ⟨@scanUnsigned_leaf (.uint64 <| .ofNat ·) (fun _ => trivial) t, ht.2.2.1⟩
    · exact ⟨trivial, ht.2.2.2⟩

theorem keyRead_clone (type : CMPIType) (t : Text) :
    native_clone_CMPIValue (keyRead type t).1 (keyRead type t).2 = (keyRead type t).2 := by
  have ⟨hl, ht⟩ := keyRead_leaf type t
  exact native_clone_leaf hl ht

mutual

theorem valueRead_clone : ∀ (type : CMPIType) (v : CMPIValue),
    native_clone_CMPIValue (valueRead printg type v).1 (valueRead printg type v).2 = (valueRead printg type v).2
  | type, .ref ⟨ns, cn, keys⟩ => by
    rw [valueRead]
    split
    · rw [native_clone_ref, pathRead, NativeCop.clone, keysRead_clone keys]
    · exact keyRead_clone ..
  | _, .indeterminate | _, .zero | _, .boolean _ | _, .char16 _ | _, .uint8 _ | _, .uint16 _ | _, .uint32 _
  | _, .uint64 _ | _, .sint8 _ | _, .sint16 _ | _, .sint32 _ | _, .sint64 _ | _, .real32 _ | _, .real64 _
  | _, .chars _ | _, .string _ | _, .dateTime _ | _, .inst _ | _, .cls _ | _, .array _ => by
    rw [valueRead]
    · exact keyRead_clone ..
    · exact nofun

theorem keysRead_clone : ∀ keys : List (NativeProperty CMPIValue),
    cloneProperties (keysRead printg keys) = keysRead printg keys
  | []                              => rfl
  | ⟨_, type, _, value, _⟩ :: keys => by
    have hn : ¬ (CMPIValueState.key = .null ∨ CMPIValueState.key = .bad) := by decide
    rw [keysRead, cloneProperties, if_neg hn, ← native_clone_CMPIValue, valueRead_clone type value, keysRead_clone keys]
    rfl

end

theorem joined_cons (name : Text) (names : List Text) :
    Tree.joined (name :: names) = some (List.intercalate (bytes "/") (name :: names)) := by
  have h (path : Text) : names.foldl (fun path name => path ++ bytes "/" ++ name) path =
      List.intercalate (bytes "/") (path :: names) := by
    induction names generalizing path with
    | nil             => simp [List.intercalate]
    | cons n names hi =>
      rw [List.foldl_cons, hi]
      cases names <;> simp [List.intercalate]
  exact congrArg some (h name)

theorem joined_splitOn (ns : Text) : Tree.joined (ns.splitOn 47) = some ns := by
  have h : List.intercalate (bytes "/") (ns.splitOn 47) = ns := List.intercalate_splitOn 47
  cases hs : ns.splitOn 47 with
  | nil             => exact absurd hs (List.splitOnP_ne_nil _ _)
  | cons name names => rw [joined_cons, ← hs, h]

theorem mem_intercalate {c : UInt8} {sep name : Text} {names : List Text} (h : name ∈ names) (hc : c ∈ name) :
    c ∈ List.intercalate sep names := by
  induction names with
  | nil             => cases h
  | cons n names hi =>
    cases names with
    | nil        =>
      rw [List.mem_singleton.mp h] at hc
      simpa using hc
    | cons m ms =>
      rw [List.intercalate_cons_cons]
      cases List.mem_cons.mp h with
      | inl h => simp [← h, hc]
      | inr h => simp [hi h]

theorem mem_splitOn {ns name : Text} {c : UInt8} (h : name ∈ ns.splitOn 47) (hc : c ∈ name) : c ∈ ns := by
  have hm := @mem_intercalate c [47] name _ h hc
  rwa [List.intercalate_splitOn] at hm

-- The components of the namespace of a path in a key.
def components (p : CMPIObjectPath) : List Text :=
  p.nameSpace.elim [] (·.splitOn 47)

theorem joined_components (p : CMPIObjectPath) : Tree.joined (components p) = p.nameSpace := by
  rw [components]
  cases p.nameSpace with
  | none    => rfl
  | some ns => exact joined_splitOn ns

theorem components_quote {p : CMPIObjectPath} (h : ∀ ns ∈ p.nameSpace, 34 ∉ ns) : ∀ name ∈ components p, 34 ∉ name := by
  intro name hn hq
  rw [components] at hn
  cases hns : p.nameSpace with
  | none    =>
    rw [hns] at hn
    cases hn
  | some ns =>
    rw [hns] at hn
    exact h ns hns (mem_splitOn hn hq)

theorem chars_quote {t : Option Text} (h : ∀ cn ∈ t, 34 ∉ cn) : 34 ∉ chars t := by
  cases t with
  | none   => nofun
  | some t => exact h t rfl

theorem binds_ref {p : CMPIObjectPath} {text : Text} {bs : List Tree.KeyBinding} (hns : ∀ ns ∈ p.nameSpace, 34 ∉ ns)
    (hcn : ∀ cn ∈ p.classname, 34 ∉ cn) (h : BindsAll printg p.keys text bs) : ∃ cv c, Binds printg .ref (.ref p) cv c := by
  have hl := valueReference_lexes (instancePath_lexes ((nameSpacePath_lexes
    ((host_lexes (v := bytes "localhost") (by decide)).line.append (nameSpaces_lexes (components_quote hns)))).line.append
      (instanceName_lexes (chars_quote hcn) h.lexes)).indented)
  refine ⟨_, .inr (.instancePath ⟨some (bytes "localhost"), components p⟩ (.mk (some (chars p.classname)) bs)), ?_,
    hl, fun name => ⟨.ref (pathRead printg p), .ref, ?_, ?_⟩⟩
  · have hx := h.xml
    have h₁ : bytes "<VALUE.REFERENCE><INSTANCEPATH>\n" = bytes "<VALUE.REFERENCE>" ++ bytes "<INSTANCEPATH>" ++ [10] := rfl
    have h₂ : bytes "<NAMESPACEPATH><HOST>localhost</HOST>\n" =
        bytes "<NAMESPACEPATH>" ++ bytes "<HOST>" ++ bytes "localhost" ++ bytes "</HOST>" ++ [10] := rfl
    have h₃ : bytes "</LOCALNAMESPACEPATH></NAMESPACEPATH>\n" =
        bytes "</LOCALNAMESPACEPATH>" ++ bytes "</NAMESPACEPATH>" ++ [10] := rfl
    have h₄ : bytes "</INSTANCENAME></INSTANCEPATH></VALUE.REFERENCE>" =
        bytes "</INSTANCENAME>" ++ bytes "</INSTANCEPATH>" ++ bytes "</VALUE.REFERENCE>" := rfl
    cases p with
    | mk ns cn keys =>
      have hnss : (ns.elim [] fun ns => (ns.splitOn 47).flatMap namespaceElement) =
          (components ⟨ns, cn, keys⟩).flatMap namespaceElement := by
        cases ns <;> rfl
      simp only [keyToXml, if_pos, hx, hnss, h₁, h₂, h₃, h₄, bind, Except.bind, pure, Except.pure, List.append_assoc,
        List.cons_append, List.nil_append]
  · have hread := h.read (newCMPIObjectPath p.nameSpace (some (chars p.classname))) (by simp [newCMPIObjectPath])
    cases p with
    | mk ns cn keys =>
      have hjoined := joined_components ⟨ns, cn, keys⟩
      have hpath : referencePath (Tree.Reference.instancePath ⟨some (bytes "localhost"), components ⟨ns, cn, keys⟩⟩
          (.mk (some (chars cn)) bs)).xtok = .ok (pathRead printg ⟨ns, cn, keys⟩) := by
        simp only [Tree.Reference.xtok, Tree.NameSpacePath.xtok, Tree.InstanceName.xtok, hjoined]
        rw [referencePath]
        exact hread
      have hi : isRef (some (bytes "ref")) = true := rfl
      simp only [binding, Sum.elim_inr, Tree.KeyBinding.xtok]
      rw [getKeyValueTypePtr, if_pos hi, hpath]
      rfl
  · have hp : NativeCop.clone (pathRead printg p) = pathRead printg p := by
      cases p with
      | mk ns cn keys => rw [pathRead, NativeCop.clone, keysRead_clone keys]
    have hv : valueRead printg .ref (.ref p) = (.ref, .ref (pathRead printg p)) := by rw [valueRead, if_pos rfl]
    have hc : native_clone_CMPIValue .ref (.ref (pathRead printg p)) = .ref (pathRead printg p) := by rw [native_clone_ref, hp]
    have ht : CMPIType.ref ≠ .null ∧ CMPIValueState.key ≠ .null := by decide
    have hs : CMPIType.ref ≠ .chars := by decide
    rw [hv, NativeProperty.new, if_pos ht, if_neg hs, hc]

theorem Writable.binds (h : Writable printg type v) : ∃ cv c, Binds printg type v cv c := by
  induction h with
  | text hv hr ht h60                 => exact binds_text hv hr ht h60
  | ref hns hcn hd hn _ hi            =>
    have ⟨_, _, hb⟩ := bindsAll_of hd hn hi
    exact binds_ref hns hcn hb

-- A path whose keys are written as what they are, as an instance name.
structure Writes (printg : Text → Text) (p : CMPIObjectPath) : Prop where
  classname : ∀ cn ∈ p.classname, 34 ∉ cn
  distinct  : Named.Distinct NativeProperty.name p.keys
  names     : ∀ k ∈ p.keys, 34 ∉ k.name
  keys      : ∀ k ∈ p.keys, Writable printg k.type k.value

theorem Writes.binds {p : CMPIObjectPath} (h : Writes printg p) : ∃ text bs, BindsAll printg p.keys text bs :=
  bindsAll_of h.distinct h.names fun k hk => (h.keys k hk).binds

theorem instanceNameElement_lexes {p : CMPIObjectPath} {text : Text} {bs : List Tree.KeyBinding}
    (hcn : ∀ cn ∈ p.classname, 34 ∉ cn) (h : BindsAll printg p.keys text bs) : ∃ element,
      instanceNameElement printg p = .ok element ∧ Lexes element (Tree.InstanceName.mk (some (chars p.classname)) bs).yield := by
  have hl := (instanceName_lexes (chars_quote hcn) h.lexes.indented).line
  refine ⟨_, ?_, hl⟩
  have h₁ : bytes "\">\n" = bytes "\">" ++ [10] := rfl
  have h₂ : bytes "</INSTANCENAME>\n" = bytes "</INSTANCENAME>" ++ [10] := rfl
  simp only [instanceNameElement, h.xml, h₁, h₂, bind, Except.bind, pure, Except.pure, List.append_assoc, List.cons_append,
    List.nil_append]

end

end Sfcc.Xml
