import Mathlib.Data.List.Induction
import Sfcc.Theorems.Cmpi.Clone

-- The keys of an instance, from its construction on.
namespace Sfcc

-- The paths with a class name whose keys were added with a type and a value.
inductive NativeCop.Keyed : CMPIObjectPath → Prop
  | new (nameSpace : Option Text) (classname : Text) : Keyed (newCMPIObjectPath nameSpace classname)
  | setNameSpace {p : CMPIObjectPath} {nameSpace : Option Text} : Keyed p →
    Keyed (p.setNameSpace nameSpace)
  | addKey {p p' : CMPIObjectPath} {name : Text} {v : CMPIValue} {type : CMPIType} : Keyed p →
    v.Flat → type ≠ .null → p.addKey (some name) (some v) type = .ok p' → Keyed p'

-- A call of `setProperty` with a value.
structure Setting where
  name  : Text
  type  : CMPIType
  value : CMPIValue

namespace Setting

structure Valid (s : Setting) : Prop where
  type  : s.type ≠ .null
  value : s.value.Flat

-- What the property becomes: `CMPI_chars` makes a string.
def given (s : Setting) : CMPIType × CMPIValue :=
  if s.type = .chars then (.string, charsValue (some s.value)) else (s.type, s.value)

def last (settings : List Setting) (name : Text) : Option Setting :=
  settings.reverse.find? fun s => sameIgnoringCase s.name name

end Setting

def NativeInstance.setProperties (ci : CMPIInstance) (settings : List Setting) :
    Except Fault CMPIInstance :=
  settings.foldlM (fun ci s => ci.setProperty (some s.name) (some s.value) s.type) ci

-- The path of an instance that was made for a path and then changed.
def objectPathAfter (p : CMPIObjectPath) (settings : List Setting) : Except Fault CMPIObjectPath := do
  let ci ← newCMPIInstance p
  let ci ← ci.setProperties settings
  ci.getObjectPath

-- A key after the settings is what the last one for its name made of it. A value that refers to an
-- object is copied.
def KeyAfter (settings : List Setting) (k k' : NativeProperty CMPIValue) : Prop :=
  match Setting.last settings k.name with
  | none   => k' = k
  | some s =>
    k'.name = k.name ∧ k'.type = s.given.1 ∧ (k'.value = s.given.2 ∨ k'.value = s.given.2.clone)

-- The path `q` identifies what `p` does after the settings.
structure Identifies (settings : List Setting) (p q : CMPIObjectPath) : Prop where
  nameSpace : q.nameSpace = p.nameSpace
  classname : q.classname = p.classname
  keys      : List.Forall₂ (KeyAfter settings) p.keys q.keys

-- A property as the key it becomes in a path.
def NativeProperty.toKey (p : NativeProperty CMPIValue) : NativeProperty CMPIValue :=
  .new p.name p.type .key p.value

structure NativeProperty.IsKey (k : NativeProperty CMPIValue) : Prop where
  state : k.state = .key
  toKey : k.toKey = k

namespace NativeProperty

theorem new_isKey {name : Text} {type : CMPIType} {v : CMPIValue} (ht : type ≠ .null) (hv : v.Flat) :
    (new name type .key v).IsKey := by
  have hk : CMPIValueState.key ≠ .null := by decide
  by_cases hc : type = .chars
  · constructor
    · simp [new, hc, hk, show CMPIType.chars ≠ .null by decide]
    · simp [new, toKey, hc, hk, show CMPIType.chars ≠ .null by decide,
        show CMPIType.string ≠ .null by decide, show CMPIType.string ≠ .chars by decide,
        native_clone_charsValue]
  · constructor
    · simp [new, ht, hc, hk]
    · simp [new, toKey, ht, hc, hk, native_clone_again hv]

end NativeProperty

theorem NativeCop.Keyed.keys {p : CMPIObjectPath} (h : p.Keyed) :
    p.classname.isSome ∧ (∀ k ∈ p.keys, k.IsKey) ∧ Named.Distinct NativeProperty.name p.keys := by
  induction h with
  | new               => exact ⟨rfl, nofun, List.nodup_nil⟩
  | setNameSpace _ hi => exact hi
  | addKey _ hv ht h hi =>
    have ⟨hc, hk, hd⟩ := hi
    rw [NativeCop.addKey_some] at h
    cases h
    refine ⟨hc, Named.forall_add hk (NativeProperty.new_isKey ht hv), ?_⟩
    exact Named.add_distinct hd (NativeProperty.new_name ..)

-- The properties of a new instance are the keys.
theorem newCMPIInstance_props {p : CMPIObjectPath} (h : p.Keyed) :
    ∃ i, newCMPIInstance p = .ok i ∧ i.nameSpace = p.nameSpace ∧ i.classname = p.classname ∧
      i.props = p.keys.reverse := by
  have ⟨hc, hk, hd⟩ := h.keys
  have ⟨cn, hcn⟩ := Option.isSome_iff_exists.mp hc
  have hadd : ∀ l props : List (NativeProperty CMPIValue), (∀ k ∈ l, k.IsKey) →
      Named.Distinct NativeProperty.name (props ++ l) →
      l.foldl (fun props key => addProperty props key.name key.type key.state key.value) props =
        props ++ l := by
    intro l
    induction l with
    | nil          => simp
    | cons k l hi =>
      intro props hk hd
      have ⟨hk₁, hk₂⟩ := List.forall_mem_cons.mp hk
      have hn : NativeProperty.new k.name k.type k.state k.value = k := hk₁.state ▸ hk₁.toKey
      have ha : addProperty props k.name k.type k.state k.value = props ++ [k] := by
        rw [addProperty, hn]
        exact Named.add_of_not_mem hd.ne_of_append_cons
      rw [List.foldl_cons, ha, hi _ hk₂ (by simpa using hd)]
      simp
  have hp := hadd _ [] (fun k hm => hk k (List.mem_reverse.mp hm)) hd.reverse
  refine ⟨{ classname := cn, nameSpace := p.nameSpace, props := p.keys.reverse }, ?_, rfl, hcn.symm, rfl⟩
  simp only [newCMPIInstance, hcn, deref, hp]
  rfl

theorem NativeProperty.toKey_name (p : NativeProperty CMPIValue) : p.toKey.name = p.name :=
  new_name ..

theorem foldlM_addKey (l : List (NativeProperty CMPIValue)) (cop : CMPIObjectPath)
    (hd : Named.Distinct NativeProperty.name (cop.keys ++ l)) :
    l.foldlM (fun cop d =>
        if d.state.isKey then cop.addKey (some d.name) (some d.value) d.type else return cop) cop =
      .ok { cop with keys := cop.keys ++ (l.filter (·.state.isKey)).map NativeProperty.toKey } := by
  induction l generalizing cop with
  | nil          => simp [pure, Except.pure]
  | cons d l hi =>
    by_cases hk : d.state.isKey
    · have ha : cop.addKey (some d.name) (some d.value) d.type =
          .ok { cop with keys := cop.keys ++ [d.toKey] } := by
        rw [NativeCop.addKey_some, addProperty, Named.add_of_not_mem hd.ne_of_append_cons]
        rfl
      have hd' : Named.Distinct NativeProperty.name ((cop.keys ++ [d.toKey]) ++ l) :=
        hd.congr (by simp [NativeProperty.toKey_name])
      simp [hk, ha, hi { cop with keys := cop.keys ++ [d.toKey] } hd', bind, Except.bind]
    · have hd' : Named.Distinct NativeProperty.name (cop.keys ++ l) :=
        hd.sublist (List.Sublist.append_left (List.sublist_cons_self ..) _)
      simpa [hk] using hi cop hd'

-- The keys of the path of an instance are the properties that are keys, turned round.
theorem getObjectPath_eq {i : CMPIInstance} (hd : Named.Distinct NativeProperty.name i.props) :
    i.getObjectPath = .ok {
      nameSpace := i.nameSpace
      classname := i.classname
      keys      := ((i.props.filter (·.state.isKey)).map NativeProperty.toKey).reverse } := by
  have h := foldlM_addKey i.props.reverse (newCMPIObjectPath i.nameSpace i.classname) hd.reverse
  simpa [NativeInstance.getObjectPath, newCMPIObjectPath] using h

-- What a call of `setProperty` makes of a property.
def Setting.apply (k : NativeProperty CMPIValue) (s : Setting) : NativeProperty CMPIValue :=
  if sameIgnoringCase k.name s.name then k.replace s.type (some s.value) else k

theorem Setting.apply_name (k : NativeProperty CMPIValue) (s : Setting) : (s.apply k).name = k.name := by
  unfold apply
  split
  · exact k.replace_name
  · rfl

theorem Setting.apply_state {s : Setting} (hs : s.Valid) (k : NativeProperty CMPIValue) :
    (s.apply k).state = k.state := by
  unfold apply NativeProperty.replace
  split
  · split
    · rfl
    · simp [hs.type]
  · rfl

theorem setProperty_some (ci : CMPIInstance) (s : Setting) :
    ci.setProperty (some s.name) (some s.value) s.type = .ok { ci with
      props := Named.setOrAdd NativeProperty.name (.replace s.type (some s.value))
        (.new s.name s.type .good s.value) ci.props s.name } := by
  have hb : ci.setProperty (some s.name) (some s.value) s.type =
      (setProperty ci.props s.name s.type (some s.value)).elim
        (.ok { ci with props := addProperty ci.props s.name s.type .good s.value })
        fun props => .ok { ci with props } := by
    simp only [NativeInstance.setProperty, deref, bind, Except.bind, pure, Except.pure, addPropertyPtr_some]
    cases setProperty ci.props s.name s.type (some s.value) <;> rfl
  rw [hb, Named.setOrAdd, setProperty]
  cases Named.set NativeProperty.name (.replace s.type (some s.value)) ci.props s.name <;> rfl

-- A property that is added is not a key.
theorem new_good_not_key (name : Text) (type : CMPIType) (value : CMPIValue) :
    (NativeProperty.new name type .good value).state.isKey = false := by
  have hg : CMPIValueState.good.isKey = false := by decide
  have hn : CMPIValueState.null.isKey = false := by decide
  unfold NativeProperty.new
  split
  · split <;> exact hg
  · exact hn

theorem setProperties_keys {settings : List Setting} {ci : CMPIInstance}
    (hd : Named.Distinct NativeProperty.name ci.props) (hs : ∀ s ∈ settings, s.Valid) :
    ∃ ci', ci.setProperties settings = .ok ci' ∧ ci'.nameSpace = ci.nameSpace ∧
      ci'.classname = ci.classname ∧ Named.Distinct NativeProperty.name ci'.props ∧
      ci'.props.filter (·.state.isKey) =
        (ci.props.filter (·.state.isKey)).map fun k => settings.foldl (fun k s => s.apply k) k := by
  induction settings generalizing ci with
  | nil           => exact ⟨ci, rfl, rfl, rfl, hd, by simp⟩
  | cons s ss hi =>
    have ⟨hs₁, hs₂⟩ := List.forall_mem_cons.mp hs
    let f := NativeProperty.replace s.type (some s.value)
    let new := NativeProperty.new s.name s.type .good s.value
    let props := Named.setOrAdd NativeProperty.name f new ci.props s.name
    have hd' : Named.Distinct NativeProperty.name props :=
      Named.setOrAdd_distinct hd NativeProperty.replace_name (NativeProperty.new_name ..)
    have hk : props.filter (·.state.isKey) = (ci.props.filter (·.state.isKey)).map s.apply := by
      have hr : (if (Named.get NativeProperty.name ci.props s.name).isSome then [] else [new]).filter
          (·.state.isKey) = [] := by
        split <;> simp [new, new_good_not_key]
      show (Named.setOrAdd ..).filter _ = _
      rw [Named.setOrAdd_eq hd, List.filter_append, hr, List.append_nil, List.filter_map]
      congr 1
      apply List.filter_congr
      intro k _
      exact congrArg CMPIValueState.isKey (Setting.apply_state hs₁ k)
    have ⟨ci', hc, hn, hcn, hdc, hf⟩ := @hi { ci with props } hd' hs₂
    refine ⟨ci', ?_, hn, hcn, hdc, ?_⟩
    · rw [NativeInstance.setProperties, List.foldlM_cons, setProperty_some]
      exact hc
    · rw [hf, hk, List.map_map]
      rfl

-- What is left of the settings in a key.
theorem foldl_apply_name (settings : List Setting) (k : NativeProperty CMPIValue) :
    (settings.foldl (fun k s => s.apply k) k).name = k.name := by
  induction settings generalizing k with
  | nil          => rfl
  | cons s ss hi => rw [List.foldl_cons, hi, Setting.apply_name]

theorem Setting.last_concat (settings : List Setting) (s : Setting) (n : Text) :
    last (settings ++ [s]) n = if sameIgnoringCase s.name n then some s else last settings n := by
  simp only [last, List.reverse_append, List.reverse_singleton, List.singleton_append, List.find?_cons]
  split <;> simp [*]

theorem foldl_apply_none {settings : List Setting} {k : NativeProperty CMPIValue}
    (h : Setting.last settings k.name = none) : settings.foldl (fun k s => s.apply k) k = k := by
  induction settings using List.reverseRecOn with
  | nil               => rfl
  | append_singleton ss s hi =>
    rw [Setting.last_concat, sameIgnoringCase_comm] at h
    by_cases hn : sameIgnoringCase k.name s.name
    · rw [if_pos hn] at h
      cases h
    · rw [if_neg hn] at h
      rw [List.foldl_append, hi h]
      exact if_neg hn

-- The last setting for the name of a key decides.
theorem foldl_apply_some {settings : List Setting} {k : NativeProperty CMPIValue} {s : Setting}
    (h : Setting.last settings k.name = some s) :
    ∃ k' : NativeProperty CMPIValue, settings.foldl (fun k s => s.apply k) k =
      k'.replace s.type (some s.value) := by
  induction settings using List.reverseRecOn with
  | nil               => cases h
  | append_singleton ss t hi =>
    rw [Setting.last_concat, sameIgnoringCase_comm] at h
    rw [List.foldl_append, List.foldl_cons, List.foldl_nil, Setting.apply, foldl_apply_name]
    by_cases hn : sameIgnoringCase k.name t.name
    · rw [if_pos hn] at h
      cases h
      exact ⟨_, if_pos hn⟩
    · rw [if_neg hn] at h ⊢
      exact hi h

theorem toKey_replace {s : Setting} (hs : s.Valid) (k : NativeProperty CMPIValue) :
    (k.replace s.type (some s.value)).toKey.type = s.given.1 ∧
      (k.replace s.type (some s.value)).toKey.value = native_clone_CMPIValue s.given.1 s.given.2 := by
  have hk : CMPIValueState.key ≠ .null := by decide
  have hstring : CMPIType.string ≠ .null ∧ CMPIType.string ≠ .chars := by decide
  by_cases hc : s.type = .chars
  · simp [NativeProperty.replace, NativeProperty.toKey, NativeProperty.new, Setting.given, hc, hk, hstring]
  · simp [NativeProperty.replace, NativeProperty.toKey, NativeProperty.new, Setting.given, hc, hk, hs.type,
      native_clone_again hs.value]

theorem clone_eq_zero {v : CMPIValue} : v.clone = .zero ↔ v = .zero := by
  cases v <;> simp [CMPIValue.clone]

-- A value of a type that is not copied is kept only if there is none.
theorem native_clone_mem {type : CMPIType} {v : CMPIValue} :
    (native_clone_CMPIValue type v = v ∨ native_clone_CMPIValue type v = v.clone) ↔
      (type.cloning = .lost → v = .zero) := by
  simp only [native_clone_CMPIValue, CMPIType.cloneWith]
  cases type.cloning with
  | object => simp
  | value  => simp
  | lost   => simp [@eq_comm _ CMPIValue.zero, clone_eq_zero]

theorem keyAfter_iff {settings : List Setting} (hs : ∀ s ∈ settings, s.Valid)
    {k : NativeProperty CMPIValue} (hk : k.IsKey) :
    KeyAfter settings k (settings.foldl (fun k s => s.apply k) k).toKey ↔
      ∀ s, Setting.last settings k.name = some s → s.type.cloning = .lost → s.value = .zero := by
  cases hl : Setting.last settings k.name with
  | none   =>
    rw [foldl_apply_none hl, hk.toKey]
    exact iff_of_true (by simp [KeyAfter, hl]) nofun
  | some s =>
    have hm : s ∈ settings := by simpa using List.mem_of_find?_eq_some hl
    have ⟨k', hf⟩ := foldl_apply_some hl
    have ⟨ht, hv⟩ := toKey_replace (hs s hm) k'
    have hn : (settings.foldl (fun k s => s.apply k) k).toKey.name = k.name := by
      rw [NativeProperty.toKey_name, foldl_apply_name]
    have hg : (s.given.1.cloning = .lost → s.given.2 = .zero) ↔
        (s.type.cloning = .lost → s.value = .zero) := by
      by_cases hc : s.type = .chars
      · simp [Setting.given, hc, show CMPIType.string.cloning ≠ .lost by decide,
          show CMPIType.chars.cloning ≠ .lost by decide]
      · simp [Setting.given, hc]
    simp only [KeyAfter, hl, hn, Option.some.injEq, forall_eq']
    rw [hf, ht, hv, native_clone_mem, hg]
    simp

theorem objectPathAfter_eq {p : CMPIObjectPath} {settings : List Setting} (hp : p.Keyed)
    (hs : ∀ s ∈ settings, s.Valid) :
    objectPathAfter p settings = .ok {
      nameSpace := p.nameSpace
      classname := p.classname
      keys      := p.keys.map fun k => (settings.foldl (fun k s => s.apply k) k).toKey } := by
  have ⟨_, hk, hd⟩ := hp.keys
  have ⟨i, hi, hin, hic, hip⟩ := newCMPIInstance_props hp
  have hdi : Named.Distinct NativeProperty.name i.props := hip ▸ hd.reverse
  have ⟨i', hi', hn, hc, hd', hf⟩ := setProperties_keys hdi hs
  have hkeys : i.props.filter (·.state.isKey) = p.keys.reverse := by
    rw [hip]
    apply List.filter_eq_self.mpr
    intro k hm
    rw [(hk k (List.mem_reverse.mp hm)).state]
    decide
  simp only [objectPathAfter, hi, hi', getObjectPath_eq hd', hf, hkeys, hn, hc, hin, hic, bind,
    Except.bind, List.map_map, List.map_reverse, List.reverse_reverse]
  rfl

-- The path of an instance identifies what the path it was made for does, unless a key was last set to
-- an object of a kind that is not copied, such as a class.
theorem objectPathAfter_iff {p : CMPIObjectPath} {settings : List Setting} (hp : p.Keyed)
    (hs : ∀ s ∈ settings, s.Valid) :
    (∃ q, objectPathAfter p settings = .ok q ∧ Identifies settings p q) ↔
      ∀ k ∈ p.keys, ∀ s, Setting.last settings k.name = some s → s.type.cloning = .lost →
        s.value = .zero := by
  have hall : (∀ k ∈ p.keys, KeyAfter settings k (settings.foldl (fun k s => s.apply k) k).toKey) ↔
      ∀ k ∈ p.keys, ∀ s, Setting.last settings k.name = some s → s.type.cloning = .lost →
        s.value = .zero :=
    forall₂_congr fun k hm => keyAfter_iff hs (hp.keys.right.left k hm)
  rw [objectPathAfter_eq hp hs, ← hall]
  constructor
  · intro ⟨q, hq, h⟩
    cases hq
    have hkeys := h.keys
    rwa [List.forall₂_map_right_iff, List.forall₂_same] at hkeys
  · intro h
    refine ⟨_, rfl, rfl, rfl, ?_⟩
    rwa [List.forall₂_map_right_iff, List.forall₂_same]

theorem keyed_uint32 :
    NativeCop.Keyed ⟨some [114], some [65], [⟨[107], .uint32, .key, .uint32 7, []⟩]⟩ := by
  have hf : (CMPIValue.uint32 7).Flat := trivial
  have ht : CMPIType.uint32 ≠ .null := by decide
  have ha : (newCMPIObjectPath (some [114]) (some [65])).addKey (some [107]) (some (.uint32 7)) .uint32 =
    .ok ⟨some [114], some [65], [⟨[107], .uint32, .key, .uint32 7, []⟩]⟩ := rfl
  exact .addKey (.new (some [114]) [65]) hf ht ha

-- A slot of a rack, whose number is set twice.
def slotPath : CMPIObjectPath where
  nameSpace := some (bytes "root")
  classname := some (bytes "Slot")
  keys      := [⟨bytes "Rack", .string, .key, .string (bytes "north"), []⟩, ⟨bytes "Number", .uint32, .key, .uint32 7, []⟩]

def slotSettings : List Setting :=
  [⟨bytes "number", .uint32, .uint32 5⟩, ⟨bytes "Size", .uint8, .uint8 1⟩, ⟨bytes "NUMBER", .uint32, .uint32 6⟩]

theorem slotPath_keyed : slotPath.Keyed := by
  let racked : CMPIObjectPath := { slotPath with keys := [⟨bytes "Rack", .string, .key, .string (bytes "north"), []⟩] }
  have hr : (newCMPIObjectPath (some (bytes "root")) (some (bytes "Slot"))).addKey (some (bytes "Rack"))
    (some (.string (bytes "north"))) .string = .ok racked := rfl
  have hn : racked.addKey (some (bytes "Number")) (some (.uint32 7)) .uint32 = .ok slotPath := rfl
  have hracked : racked.Keyed := .addKey (.new _ _) (v := .string (bytes "north")) trivial (by decide) hr
  exact .addKey hracked (v := .uint32 7) trivial (by decide) hn

theorem objectPathAfter_iff_slot :
    (∃ q, objectPathAfter slotPath slotSettings = .ok q ∧ Identifies slotSettings slotPath q) ↔
      ∀ k ∈ slotPath.keys, ∀ s, Setting.last slotSettings k.name = some s → s.type.cloning = .lost → s.value = .zero := by
  have hv : ∀ s ∈ slotSettings, s.Valid := by
    simp only [slotSettings, List.forall_mem_cons]
    refine ⟨⟨?_, trivial⟩, ⟨?_, trivial⟩, ⟨?_, trivial⟩, nofun⟩ <;> decide
  exact objectPathAfter_iff slotPath_keyed hv

-- A key that is set to a class is lost.
theorem not_identifies_class : ¬ ∀ p settings, NativeCop.Keyed p → (∀ s ∈ settings, s.Valid) →
    ∃ q, objectPathAfter p settings = .ok q ∧ Identifies settings p q := by
  intro h
  let k : NativeProperty CMPIValue := ⟨[107], .uint32, .key, .uint32 7, []⟩
  let p : CMPIObjectPath := ⟨some [114], some [65], [k]⟩
  let s : Setting := ⟨[107], .cls, .cls { classname := [65] }⟩
  have hs : ∀ t ∈ [s], t.Valid := by
    intro t ht
    cases List.mem_singleton.mp ht
    exact ⟨(by decide : CMPIType.cls ≠ .null), trivial, trivial, trivial⟩
  have ⟨q, hq, hi⟩ := h p [s] keyed_uint32 hs
  rw [objectPathAfter_eq keyed_uint32 hs] at hq
  cases hq
  cases hi.keys with
  | cons hk _ =>
    have hl := (keyAfter_iff hs (keyed_uint32.keys.right.left k (List.mem_singleton_self k))).mp hk s rfl
    cases hl (by decide)

end Sfcc
