import Sfcc.Theorems.Cmpi.Built
import Sfcc.Theorems.Xml.Convert
import Sfcc.Xml.Response

-- What the conversions make is built by the construction operations.
namespace Sfcc.Xml

-- The type that is returned fits the value.
def Keyed (r : Option CMPIValue × CMPIType) : Prop :=
  ∀ v, r.1 = some v → v.Made

theorem Keyed.leaf {v : CMPIValue} {type : CMPIType} (h : v.Leaf) : Keyed (some v, type) := by
  intro w hw
  cases hw
  exact .leaf h

theorem scanSigned_leaf {f : ℤ → CMPIValue} (h : ∀ n, (f n).Leaf) (t : Text) : (scanSigned f t).Leaf := by
  unfold scanSigned
  cases scanNumber t with
  | none   => trivial
  | some s => exact h _

theorem scanUnsigned_leaf {f : ℕ → CMPIValue} (h : ∀ n, (f n).Leaf) (t : Text) :
    (scanUnsigned f t).Leaf := by
  unfold scanUnsigned
  cases scanNumber t with
  | none   => trivial
  | some s => exact h _

theorem keyValuePtr_keyed {type value : Option Text} {r : Option CMPIValue × CMPIType}
    (h : keyValuePtr type value = .ok r) : Keyed r := by
  simp only [keyValuePtr] at h
  split at h
  · cases h
    exact .leaf trivial
  · split at h
    · cases h
      exact .leaf trivial
    · split at h
      · have ⟨t, _, h⟩ := deref_bind h
        split at h
        · cases h
          have hl (n : ℤ) : (CMPIValue.sint64 (.ofInt n)).Leaf := trivial
          exact .leaf (scanSigned_leaf hl t)
        · cases h
          have hl (n : ℕ) : (CMPIValue.uint64 (.ofNat n)).Leaf := trivial
          exact .leaf (scanUnsigned_leaf hl t)
      · cases h
        exact .leaf trivial

mutual

theorem getKeyValueTypePtr_keyed (type : Option Text) : ∀ (u : XtokKeyUnion XtokInstanceName)
    {r : Option CMPIValue × CMPIType}, getKeyValueTypePtr type u = .ok r → Keyed r
  | .keyValue v, r, h => by
    rw [getKeyValueTypePtr] at h
    split at h
    · cases h
    · exact keyValuePtr_keyed h
  | .ref ref, r, h    => by
    rw [getKeyValueTypePtr] at h
    split at h
    · have ⟨p, hp, h⟩ := ok_bind.mp h
      cases h
      intro v hv
      cases hv
      exact .ref (referencePath_built ref hp)
    · exact keyValuePtr_keyed h

theorem referencePath_built : ∀ (r : XtokValueReference XtokInstanceName) {p : CMPIObjectPath},
    referencePath r = .ok p → p.Built
  | ⟨⟨.instancePath ⟨path, ⟨cn, bs⟩⟩, _⟩, .InstancePath⟩, p, h           => by
    rw [referencePath] at h
    exact addKeys_built bs (.new _ _) h
  | ⟨⟨.instanceName ⟨cn, bs⟩, _⟩, .InstanceName⟩, p, h                   => by
    rw [referencePath] at h
    exact addKeys_built bs (.new _ _) h
  | ⟨⟨.localInstancePath ⟨path, ⟨cn, bs⟩⟩, _⟩, .LocalInstancePath⟩, p, h => by
    rw [referencePath] at h
    exact addKeys_built bs (.new _ _) h
  | ⟨_, .Unknown⟩, p, h | ⟨⟨.zero, _⟩, .InstanceName⟩, p, h | ⟨⟨.zero, _⟩, .InstancePath⟩, p, h
  | ⟨⟨.zero, _⟩, .LocalInstancePath⟩, p, h | ⟨⟨.instancePath _, _⟩, .InstanceName⟩, p, h
  | ⟨⟨.instancePath _, _⟩, .LocalInstancePath⟩, p, h | ⟨⟨.instanceName _, _⟩, .InstancePath⟩, p, h
  | ⟨⟨.instanceName _, _⟩, .LocalInstancePath⟩, p, h
  | ⟨⟨.localInstancePath _, _⟩, .InstanceName⟩, p, h
  | ⟨⟨.localInstancePath _, _⟩, .InstancePath⟩, p, h                     => by
    rw [referencePath] at h
    all_goals first | cases h | exact nofun

theorem addKeys_built : ∀ (bs : List (XtokKeyBinding XtokInstanceName)) {op p : CMPIObjectPath},
    op.Built → addKeys op bs = .ok p → p.Built
  | [], op, p, ho, h                            => by
    rw [addKeys] at h
    cases h
    exact ho
  | ⟨name, type, ⟨u, _⟩⟩ :: bs, op, p, ho, h => by
    rw [addKeys] at h
    have ⟨r, hr, h⟩ := ok_bind.mp h
    have ⟨op', hop, h⟩ := ok_bind.mp h
    exact addKeys_built bs (.addKey ho (getKeyValueTypePtr_keyed type u hr) hop) h

end

theorem createPath_built {n : XtokInstanceName} {p : CMPIObjectPath} (h : createPath n = .ok p) :
    p.Built :=
  addKeys_built n.bindings (.new _ _) h

theorem scanner_leaf {type : CMPIType} {scan : Text → CMPIValue} (h : scanner type = some scan)
    (t : Text) : (scan t).Leaf := by
  obtain ⟨s, hs, he⟩ := Option.map_eq_some_iff.mp h
  have hall : ∀ s ∈ scanners, ∀ t, (s.2 t).Leaf := by
    simp only [scanners, List.forall_mem_cons, List.not_mem_nil]
    refine ⟨?_, ?_, ?_, ?_, ?_, ?_, ?_, ?_, ?_, ?_, ?_, ?_, ?_, fun _ h => h.elim⟩
    all_goals first
      | exact fun _ => trivial
      | exact scanSigned_leaf fun _ => trivial
      | exact scanUnsigned_leaf fun _ => trivial
  exact he ▸ hall s (List.mem_of_find?_eq_some hs) t

theorem str2CMPIText_leaf {type : CMPIType} {val : Option Text} {v : CMPIValue}
    (h : str2CMPIText type val = .ok v) : v.Leaf := by
  have of_ne {type : CMPIType} (hn : type ≠ .null) (h : str2CMPIText type val = .ok v) : v.Leaf := by
    rw [str2CMPIText_of_ne_null hn] at h
    split at h
    · cases h
      trivial
    · split at h
      · cases h
        trivial
      · split at h
        · cases h
        · split at h
          · cases val <;> cases h
          · cases hs : scanner type with
            | none      => rw [hs] at h; cases h
            | some scan =>
              rw [hs] at h
              cases val with
              | none   => cases h
              | some t =>
                cases h
                exact scanner_leaf hs t
  by_cases hn : type = .null
  · cases val with
    | none   => rw [hn] at h; cases h
    | some t =>
      rw [hn, str2CMPIText_null] at h
      exact of_ne (guessType_ne_null t) h
  · exact of_ne hn h

theorem str2CMPIBytes_leaf {type : CMPIType} {v : CMPIValue} (h : str2CMPIBytes type = .ok v) :
    v.Leaf := by
  unfold str2CMPIBytes at h
  split at h
  · cases h
  · split at h
    · cases h
      trivial
    · cases h

-- What is made of the elements of an instance, and the instance itself.
mutual

theorem str2CMPIPointer_made (type : CMPIType) : ∀ (ptr : XtokPointer XtokInstance) {v : CMPIValue},
    str2CMPIPointer type ptr = .ok v → v.Made
  | .value text, v, h => by
    rw [str2CMPIPointer] at h
    exact .leaf (str2CMPIText_leaf h)
  | .inst i, v, h     => by
    rw [str2CMPIPointer] at h
    split at h
    · have ⟨i', hi, h⟩ := ok_bind.mp h
      cases h
      exact .inst (getInstFromEmbedded_built i hi)
    · exact .leaf (str2CMPIBytes_leaf h)

theorem str2CMPIDecoded_made (type : CMPIType) : ∀ (ptr : XtokPointer XtokInstance) {v : CMPIValue},
    str2CMPIDecoded type ptr = .ok v → v.Made
  | .value text, v, h => by
    rw [str2CMPIDecoded] at h
    split at h
    · have ⟨t, _, h⟩ := deref_bind h
      exact .leaf (str2CMPIText_leaf h)
    · exact .leaf (str2CMPIText_leaf h)
  | .inst i, v, h     => by
    rw [str2CMPIDecoded] at h
    split at h
    · have ⟨i', hi, h⟩ := ok_bind.mp h
      cases h
      exact .inst (getInstFromEmbedded_built i hi)
    · exact .leaf (str2CMPIBytes_leaf h)

theorem arrayElements_built (type : CMPIType) : ∀ (vals : List (XtokPointer XtokInstance))
    {arr arr' : CMPIArray} {i : ℕ}, arr.Built → arrayElements type arr i vals = .ok arr' → arr'.Built
  | [], arr, arr', i, ha, h          => by
    rw [arrayElements] at h
    cases h
    exact ha
  | val :: vals, arr, arr', i, ha, h => by
    rw [arrayElements] at h
    have ⟨v, hv, h⟩ := ok_bind.mp h
    exact arrayElements_built type vals (.set ha (str2CMPIPointer_made type val hv)) h

theorem arrayElementsDecoded_built (type : CMPIType) : ∀ (vals : List (XtokPointer XtokInstance))
    {arr arr' : CMPIArray} {i : ℕ}, arr.Built → arrayElementsDecoded type arr i vals = .ok arr' →
    arr'.Built
  | [], arr, arr', i, ha, h          => by
    rw [arrayElementsDecoded] at h
    cases h
    exact ha
  | val :: vals, arr, arr', i, ha, h => by
    rw [arrayElementsDecoded] at h
    have ⟨v, hv, h⟩ := ok_bind.mp h
    exact arrayElementsDecoded_built type vals (.set ha (str2CMPIDecoded_made type val hv)) h

theorem qualifierArray_built (type : CMPIType) : ∀ (d : XtokQualifierData XtokInstance)
    {arr arr' : CMPIArray}, arr.Built → qualifierArray type arr d = .ok arr' → arr'.Built
  | ⟨.array ⟨max, vals⟩, _⟩, arr, arr', ha, h => by
    rw [qualifierArray] at h
    split at h
    · exact arrayElements_built type vals ha h
    · cases h
      exact ha
  | ⟨.value _, _⟩, arr, arr', ha, h           => by
    rw [qualifierArray] at h
    cases h
    exact ha

theorem qualifierValue_made (type : CMPIType) : ∀ (d : XtokQualifierData XtokInstance)
    {v : CMPIValue}, qualifierValue type d = .ok v → v.Made
  | ⟨.value ⟨⟨ptr, _⟩, _⟩, _⟩, v, h => by
    rw [qualifierValue] at h
    exact str2CMPIPointer_made type ptr h
  | ⟨.array _, _⟩, v, h             => by
    rw [qualifierValue] at h
    cases h

theorem setInstPropertyQualifiers_built : ∀ (qs : List (XtokQualifier XtokInstance))
    {ci : CMPIInstance} {name : Option Text} {type : CMPIType} {r : CMPIInstance × CMPIType},
    ci.Built → setInstPropertyQualifiers ci name type qs = .ok r → r.1.Built
  | [], ci, name, type, r, hc, h                                       => by
    rw [setInstPropertyQualifiers] at h
    cases h
    exact hc
  | ⟨qname, qtype, data, _, _, _, _, _⟩ :: qs, ci, name, type, r, hc, h => by
    rw [setInstPropertyQualifiers] at h
    split at h
    · have ⟨arr, ha, h⟩ := ok_bind.mp h
      have ⟨ci', hi, h⟩ := ok_bind.mp h
      have hm := CMPIValue.Made.array (qualifierArray_built qtype.element data (.new 0 type) ha)
      exact setInstPropertyQualifiers_built qs (.addPropertyQualifier hc hm hi) h
    · have ⟨v, hv, h⟩ := ok_bind.mp h
      have ⟨ci', hi, h⟩ := ok_bind.mp h
      have hm := qualifierValue_made qtype data hv
      exact setInstPropertyQualifiers_built qs (.addPropertyQualifier hc hm hi) h

theorem setInstProperty_built : ∀ (p : XtokProperty XtokInstance) {ci : CMPIInstance}
    {type : CMPIType} {r : CMPIInstance × CMPIType}, ci.Built → setInstProperty ci type p = .ok r →
    r.1.Built
  | ⟨name, _, _, _, valueType, ⟨.value ⟨⟨ptr, _⟩, _⟩, qs, null⟩, .Value⟩, ci, type, r, hc, h => by
    rw [setInstProperty] at h
    split at h
    · have ⟨ci', hi, h⟩ := ok_bind.mp h
      cases h
      exact .setProperty hc (by nofun) hi
    · have ⟨v, hv, h⟩ := ok_bind.mp h
      have ⟨ci', hi, h⟩ := ok_bind.mp h
      refine setInstPropertyQualifiers_built qs (.setProperty hc (fun w hw => ?_) hi) h
      cases hw
      exact str2CMPIDecoded_made valueType ptr hv
  | ⟨name, _, _, _, _, ⟨.ref ref, qs, _⟩, .Reference⟩, ci, type, r, hc, h                  => by
    rw [setInstProperty] at h
    have ⟨p, hp, h⟩ := ok_bind.mp h
    have ⟨ci', hi, h⟩ := ok_bind.mp h
    refine setInstPropertyQualifiers_built qs (.setProperty hc (fun w hw => ?_) hi) h
    cases hw
    exact .ref (referencePath_built ref hp)
  | ⟨_, _, _, _, _, ⟨.value _, _, _⟩, .Reference⟩, ci, type, r, hc, h                      => by
    rw [setInstProperty] at h
    cases h
  | ⟨name, _, _, _, valueType, ⟨.array ⟨max, vals⟩, qs, _⟩, .Array⟩, ci, type, r, hc, h    => by
    rw [setInstProperty] at h
    split at h
    · simp only at h
      split at h
      · have ⟨arr, ha, h⟩ := ok_bind.mp h
        have ⟨ci', hi, h⟩ := ok_bind.mp h
        refine setInstPropertyQualifiers_built qs (.setProperty hc (fun w hw => ?_) hi) h
        cases hw
        exact .array (arrayElementsDecoded_built valueType vals (.new 0 valueType) ha)
      · have ⟨arr, ha, h⟩ := ok_bind.mp h
        have ⟨ci', hi, h⟩ := ok_bind.mp h
        refine setInstPropertyQualifiers_built qs (.setProperty hc (fun w hw => ?_) hi) h
        cases hw
        cases ha
        exact .array (.new 0 valueType)
    · have ⟨ci', hi, h⟩ := ok_bind.mp h
      cases h
      exact .setProperty hc (by nofun) hi
  | ⟨name, _, _, _, valueType, ⟨.value _, _, _⟩, .Array⟩, ci, type, r, hc, h               => by
    rw [setInstProperty] at h
    have ⟨ci', hi, h⟩ := ok_bind.mp h
    cases h
    exact .setProperty hc (by nofun) hi
  | ⟨name, _, _, _, _, ⟨_, qs, _⟩, .Unknown⟩, ci, type, r, hc, h                           => by
    rw [setInstProperty] at h
    exact setInstPropertyQualifiers_built qs hc h
  | ⟨_, _, _, _, _, ⟨.ref _, _, _⟩, .Value⟩, ci, type, r, hc, h
  | ⟨_, _, _, _, _, ⟨.array _, _, _⟩, .Value⟩, ci, type, r, hc, h
  | ⟨_, _, _, _, _, ⟨.array _, _, _⟩, .Reference⟩, ci, type, r, hc, h
  | ⟨_, _, _, _, _, ⟨.ref _, _, _⟩, .Array⟩, ci, type, r, hc, h                            => by
    rw [setInstProperty] at h
    all_goals cases h

theorem setInstPropertiesFrom_built : ∀ (ps : List (XtokProperty XtokInstance)) {ci ci' : CMPIInstance}
    {type : CMPIType}, ci.Built → setInstPropertiesFrom ci type ps = .ok ci' → ci'.Built
  | [], ci, ci', type, hc, h      => by
    rw [setInstPropertiesFrom] at h
    cases h
    exact hc
  | p :: ps, ci, ci', type, hc, h => by
    rw [setInstPropertiesFrom] at h
    have ⟨r, hr, h⟩ := ok_bind.mp h
    exact setInstPropertiesFrom_built ps (setInstProperty_built p hc hr) h

theorem getInstFromEmbedded_built : ∀ (i : XtokInstance) {ci : CMPIInstance},
    getInstFromEmbedded i = .ok ci → ci.Built
  | ⟨className, ps, _⟩, ci, h => by
    rw [getInstFromEmbedded] at h
    exact setInstPropertiesFrom_built ps (.setNsAndCn .new) h

end

theorem setInstProperties_built {ps : List (XtokProperty XtokInstance)} {ci ci' : CMPIInstance}
    (hc : ci.Built) (h : setInstProperties ci ps = .ok ci') : ci'.Built :=
  setInstPropertiesFrom_built ps hc h

theorem setInstQualifiers_built {qs : List (XtokQualifier XtokInstance)} {ci ci' : CMPIInstance}
    (hc : ci.Built) (h : setInstQualifiers ci qs = .ok ci') : ci'.Built := by
  induction qs generalizing ci with
  | nil          =>
    cases h
    exact hc
  | cons q qs hi =>
    have ⟨c, hq, h⟩ := ok_bind.mp h
    refine hi ?_ h
    have ⟨val, hv, hq⟩ := ok_bind.mp hq
    cases val with
    | none   =>
      cases hq
      exact hc
    | some v =>
      refine .addQualifier hc ?_ hq
      unfold qualifierToValue? at hv
      split at hv
      · split at hv
        · split at hv
          · have ⟨arr, ha, hv⟩ := ok_bind.mp hv
            cases hv
            exact .array (arrayElements_built _ _ (.new _ _) ha)
          · cases hv
        · cases hv
      · split at hv
        · have ⟨w, hw, hv⟩ := ok_bind.mp hv
          cases hv
          exact str2CMPIPointer_made _ _ hw
        · cases hv

theorem scanner_cloning {type : CMPIType} {scan : Text → CMPIValue} (h : scanner type = some scan) :
    type.cloning ≠ .lost ∧ type ≠ .cls := by
  have hall : ∀ s ∈ scanners.map Prod.fst, CMPIType.cloning s ≠ .lost ∧ s ≠ .cls := by decide
  exact hall type (List.mem_map_of_mem (scanner_mem h))

-- A result as it is stored: what is not a class is the same as its copy.
structure Result (v : CMPIValue × CMPIType) : Prop where
  isArray : v.2.isArray = false
  ne_null : v.2 ≠ .null
  same    : v.2 ≠ .cls → v.1.Same (fun _ => False) (native_clone_CMPIValue v.2 v.1)
  isCls   : v.2 = .cls → ∃ c, v.1 = .cls c

namespace Result

theorem inst {i : CMPIInstance} (h : i.Built) : Result (.inst i, .inst) where
  isArray := (by decide : CMPIType.inst.isArray = false)
  ne_null := (by decide : CMPIType.inst ≠ .null)
  same _  := by
    rw [native_clone_inst]
    exact (NativeInstance.Built.kept _ h).same
  isCls   := nofun

theorem ref {p : CMPIObjectPath} (h : p.Built) : Result (.ref p, .ref) where
  isArray := (by decide : CMPIType.ref.isArray = false)
  ne_null := (by decide : CMPIType.ref ≠ .null)
  same _  := by
    rw [native_clone_ref]
    exact (NativeCop.Built.kept _ h).same
  isCls   := nofun

theorem cls (c : CMPIConstClass) : Result (.cls c, .cls) where
  isArray := (by decide : CMPIType.cls.isArray = false)
  ne_null := (by decide : CMPIType.cls ≠ .null)
  same h  := absurd rfl h
  isCls _ := ⟨c, rfl⟩

-- What is read from a text is copied as it is.
theorem text {type : CMPIType} {val : Option Text} {v : CMPIValue} (hn : type ≠ .null)
    (h : str2CMPIValueOf type val = .ok v) : Result (v, type) := by
  unfold str2CMPIValueOf at h
  split at h
  · cases h
  · have ha : type.isArray = false := by simpa using ‹¬ type.isArray›
    have hv := str2CMPIText_leaf h
    rw [str2CMPIText_of_ne_null hn] at h
    have hc : type.cloning ≠ .lost ∧ type ≠ .cls := by
      split at h
      · exact ‹type = _› ▸ by decide
      · split at h
        · exact ‹type = _› ▸ by decide
        · split at h
          · cases h
          · split at h
            · cases val <;> cases h
            · cases hs : scanner type with
              | none      => rw [hs] at h; cases h
              | some scan => exact scanner_cloning hs
    refine ⟨ha, hn, fun _ => ?_, fun he => absurd he hc.right⟩
    rw [native_clone_CMPIValue, CMPIType.cloneWith, CMPIValue.Leaf.clone_eq hv]
    cases hl : type.cloning with
    | lost   => exact absurd hl hc.left
    | object => exact .refl v
    | value  => exact .refl v

end Result

section

variable {req : Request} {v : CMPIValue × CMPIType}

theorem instanceIn_built {ns : Option Text} {i : XtokInstance} {ci : CMPIInstance}
    (h : instanceIn ns i = .ok ci) : ci.Built :=
  setInstProperties_built (.setNsAndCn .new) h

theorem pathOf_built {p : XtokInstancePath XtokInstanceName} {op : CMPIObjectPath}
    (h : pathOf p = .ok op) : op.Built := by
  have ⟨q, hq, h⟩ := ok_bind.mp h
  cases h
  exact .setNameSpace (createPath_built hq)

theorem returned_result {ret : XtokReturnValue} (h : returned req ret = .ok v) : Result v := by
  unfold returned at h
  split at h
  · have ⟨p, hp, h⟩ := ok_bind.mp h
    cases h
    exact .ref (referencePath_built _ hp)
  · split at h
    · have ⟨i, hi, h⟩ := ok_bind.mp h
      cases h
      exact .inst (instanceIn_built hi)
    · have store {t : CMPIType} {text : Option Text} (hn : t ≠ .null)
          (h : (str2CMPIValueOf t text >>= fun w => pure (w, t)) = .ok v) : Result v := by
        have ⟨w, hw, h⟩ := ok_bind.mp h
        cases h
        exact .text hn hw
      simp only at h
      split at h
      · have ⟨t, ht, h⟩ := ok_bind.mp h
        have ⟨x, _, hx⟩ := ok_bind.mp ht
        cases hx
        exact store (guessType_ne_null x) h
      · exact store ‹_› h

theorem exported_result {i : XtokInstance} (h : exported req i = .ok v) : Result v := by
  have ⟨ci, hi, h⟩ := ok_bind.mp h
  cases h
  exact .inst (instanceIn_built hi)

theorem classResult_result {c : XtokClass} (h : classResult c = .ok v) : Result v := by
  have ⟨c₁, _, h⟩ := ok_bind.mp h
  have ⟨c₂, _, h⟩ := ok_bind.mp h
  have ⟨c₃, _, h⟩ := ok_bind.mp h
  have ⟨c₄, _, h⟩ := ok_bind.mp h
  cases h
  exact .cls c₄

theorem classNameResult_result {n : XtokClassName} (h : classNameResult n = .ok v) : Result v := by
  cases h
  exact .ref (.new _ _)

theorem newCMPIInstance_built {p : Option CMPIObjectPath} {i : CMPIInstance}
    (hp : ∀ q, p = some q → q.Built) (h : newCMPIInstance p = .ok i) : i.Built := by
  cases p with
  | none   =>
    cases h
    exact .new
  | some q => exact .ofPath (hp q rfl) h

theorem instanceResult_result {i : XtokInstance} (hq : ∀ p, req.objectPath = some p → p.Built)
    (h : instanceResult req i = .ok v) : Result v := by
  have ⟨ci, hc, h⟩ := ok_bind.mp h
  have ⟨ci', hi, h⟩ := ok_bind.mp h
  cases h
  exact .inst (setInstProperties_built (newCMPIInstance_built hq hc) hi)

theorem instanceNameResult_result {n : XtokInstanceName} (h : instanceNameResult n = .ok v) :
    Result v := by
  have ⟨p, hp, h⟩ := ok_bind.mp h
  cases h
  exact .ref (createPath_built hp)

theorem namedInstanceResult_result {n : XtokNamedInstance} (h : namedInstanceResult req n = .ok v) :
    Result v := by
  have ⟨p, hp, h⟩ := ok_bind.mp h
  have ⟨ci, hc, h⟩ := ok_bind.mp h
  have ⟨ci', hi, h⟩ := ok_bind.mp h
  cases h
  exact .inst (setInstProperties_built (.ofPath (.setNameSpace (createPath_built hp)) hc) hi)

theorem objectPathResult_result {p : XtokObjectPath} (h : objectPathResult p = .ok v) : Result v := by
  have ⟨op, hp, h⟩ := ok_bind.mp h
  cases h
  exact .ref (pathOf_built hp)

theorem instanceWithPathResult_result {i : XtokInstanceWithPath}
    (h : instanceWithPathResult i = .ok v) : Result v := by
  have ⟨p, hp, h⟩ := ok_bind.mp h
  have ⟨ci, hc, h⟩ := ok_bind.mp h
  have ⟨ci', hq, h⟩ := ok_bind.mp h
  have ⟨ci'', hi, h⟩ := ok_bind.mp h
  cases h
  exact .inst (setInstProperties_built (setInstQualifiers_built (.ofPath (pathOf_built hp) hc) hq) hi)

theorem propertyResult_result {w : XtokValue XtokInstance} (h : propertyResult req w = .ok v) :
    Result v := by
  have ⟨t, _, h⟩ := ok_bind.mp h
  have ⟨u, hu, h⟩ := ok_bind.mp h
  cases h
  exact .text (guessType_ne_null t) hu

end

end Sfcc.Xml
