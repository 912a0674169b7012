import Sfcc.Theorems.Cmpi.Array
import Sfcc.Theorems.Cmpi.Clone

namespace Sfcc

-- A value that refers to nothing that has values of its own.
def CMPIValue.Leaf : CMPIValue → Prop
  | .ref _ | .inst _ | .cls _ | .array _ => False
  | _                                    => True

-- The values and the objects that the construction operations can make.
mutual

inductive CMPIValue.Made : CMPIValue → Prop
  | leaf {v : CMPIValue}     : v.Leaf → CMPIValue.Made v
  | array {a : CMPIArray}    : NativeArray.Built a → CMPIValue.Made (.array a)
  | ref {p : CMPIObjectPath} : NativeCop.Built p → CMPIValue.Made (.ref p)
  | inst {i : CMPIInstance}  : NativeInstance.Built i → CMPIValue.Made (.inst i)

inductive NativeArray.Built : CMPIArray → Prop
  | new (size : ℕ) (type : CMPIType) : NativeArray.Built (newCMPIArray size type)
  | set {a : CMPIArray} {i : ℕ} {v : CMPIValue} {type : CMPIType} : NativeArray.Built a →
    CMPIValue.Made v → NativeArray.Built (a.setArrayElementAt i v type)

inductive NativeCop.Built : CMPIObjectPath → Prop
  | new (nameSpace classname : Option Text) : NativeCop.Built (newCMPIObjectPath nameSpace classname)
  | setNameSpace {p : CMPIObjectPath} {nameSpace : Option Text} : NativeCop.Built p →
    NativeCop.Built (p.setNameSpace nameSpace)
  | addKey {p p' : CMPIObjectPath} {name : Option Text} {value : Option CMPIValue} {type : CMPIType} :
    NativeCop.Built p → (∀ v, value = some v → CMPIValue.Made v) →
    p.addKey name value type = .ok p' → NativeCop.Built p'

inductive NativeInstance.Built : CMPIInstance → Prop
  | new : NativeInstance.Built {}
  | ofPath {p : CMPIObjectPath} {i : CMPIInstance} : NativeCop.Built p →
    newCMPIInstance (some p) = .ok i → NativeInstance.Built i
  | setNsAndCn {i : CMPIInstance} {ns cn : Option Text} : NativeInstance.Built i →
    NativeInstance.Built (i.setNsAndCn ns cn)
  | setProperty {i i' : CMPIInstance} {name : Option Text} {value : Option CMPIValue}
    {type : CMPIType} : NativeInstance.Built i → (∀ v, value = some v → CMPIValue.Made v) →
    i.setProperty name value type = .ok i' → NativeInstance.Built i'
  | addQualifier {i i' : CMPIInstance} {name : Option Text} {v : CMPIValue} {type : CMPIType} :
    NativeInstance.Built i → CMPIValue.Made v → i.addQualifier name v type = .ok i' →
    NativeInstance.Built i'
  | addPropertyQualifier {i i' : CMPIInstance} {pname qname : Option Text} {v : CMPIValue}
    {type : CMPIType} : NativeInstance.Built i → CMPIValue.Made v →
    addInstPropertyQualifier i pname qname v type = .ok i' → NativeInstance.Built i'

end

inductive NativeConstClass.Built : CMPIConstClass → Prop
  | new {cn : Option Text} {cc : CMPIConstClass} : newCMPIConstClass cn = .ok cc → Built cc
  | addProperty {cc cc' : CMPIConstClass} {name : Option Text} {v : CMPIValue} {type : CMPIType}
    {state : CMPIValueState} : Built cc → v.Made → cc.addProperty name v type state = .ok cc' →
    Built cc'
  | addQualifier {cc cc' : CMPIConstClass} {name : Option Text} {v : CMPIValue} {type : CMPIType} :
    Built cc → v.Made → cc.addQualifier name v type = .ok cc' → Built cc'
  | addPropertyQualifier {cc cc' : CMPIConstClass} {pname qname : Option Text} {v : CMPIValue}
    {type : CMPIType} : Built cc → v.Made →
    cc.addPropertyQualifier pname qname v type = .ok cc' → Built cc'
  | addMethod {cc cc' : CMPIConstClass} {name : Option Text} {v : CMPIValue} {type : CMPIType}
    {state : CMPIValueState} : Built cc → v.Made → cc.addMethod name v type state = .ok cc' →
    Built cc'
  | addMethodQualifier {cc cc' : CMPIConstClass} {mname qname : Option Text} {v : CMPIValue}
    {type : CMPIType} : Built cc → v.Made →
    cc.addMethodQualifier mname qname v type = .ok cc' → Built cc'
  | addMethodParameter {cc cc' : CMPIConstClass} {mname pname : Option Text} {type : CMPIType} :
    Built cc → cc.addMethodParameter mname pname type = .ok cc' → Built cc'

theorem CMPIValue.Leaf.flat {v : CMPIValue} (h : v.Leaf) : v.Flat := by
  cases v <;> trivial

theorem CMPIValue.Leaf.clone_eq {v : CMPIValue} (h : v.Leaf) : v.clone = v := by
  cases v <;> first | rfl | cases h

theorem flatItems_iff {items : List (NativeArrayItem CMPIValue)} :
    flatItems items ↔ ∀ i ∈ items, i.value.Flat := by
  induction items with
  | nil         => exact iff_of_true trivial nofun
  | cons i l hi => rw [flatItems, List.forall_mem_cons, hi]

-- What every array that was made satisfies.
def NativeArray.Elementary (a : CMPIArray) : Prop :=
  (a.type.isArray = false ∧ a.type ≠ .chars) ∧ ∀ i ∈ a.data, i.value.Flat

theorem NativeArray.new_elementary (size : ℕ) (type : CMPIType) :
    (newCMPIArray size type).Elementary := by
  refine ⟨newCMPIArray_flat size type, fun i hi => ?_⟩
  rw [List.eq_of_mem_replicate hi]
  trivial

theorem forall_mem_modify {T : Type} {Q : T → Prop} {f : T → T} {l : List T} {i : ℕ}
    (h : ∀ x ∈ l, Q x) (hf : ∀ x, Q x → Q (f x)) : ∀ x ∈ l.modify i f, Q x := by
  intro x hx
  have ⟨k, hk⟩ := List.mem_iff_getElem?.mp hx
  rw [List.getElem?_modify] at hk
  have ⟨y, hy, he⟩ := Option.map_eq_some_iff.mp hk
  subst he
  have hq := h y (List.mem_of_getElem? hy)
  split
  · exact hf y hq
  · exact hq

theorem NativeArray.increaseSize_elementary {a : CMPIArray} (h : a.Elementary) :
    a.increaseSize.Elementary := by
  refine ⟨h.left, fun i hi => ?_⟩
  rw [increaseSize_data] at hi
  cases List.mem_append.mp hi with
  | inl hi => exact h.right i hi
  | inr hi =>
    rw [List.mem_singleton.mp hi, fresh]
    split
    · trivial
    · split <;> trivial

theorem NativeArray.set_elementary {a : CMPIArray} {i : ℕ} {v : CMPIValue} {type : CMPIType}
    (h : a.Elementary) (hv : v.Flat) : (a.setArrayElementAt i v type).Elementary := by
  refine ⟨by rw [setArrayElementAt, setElementAt_type]; exact h.left, ?_⟩
  have hb : (if a.dynamic ∧ i = a.data.length then a.increaseSize else a).Elementary := by
    split
    · exact increaseSize_elementary h
    · exact h
  simp only [setArrayElementAt, setElementAt]
  generalize (if a.dynamic ∧ i = a.data.length then a.increaseSize else a) = b at hb ⊢
  have hw : (if type = .chars ∧ b.type = .string then charsValue (some v) else v).Flat := by
    split
    · exact charsValue_flat _
    · exact hv
  generalize (if type = .chars ∧ b.type = .string then charsValue (some v) else v) = w at hw ⊢
  generalize (if type = .chars ∧ b.type = .string then CMPIType.string else type) = t
  split
  · refine forall_mem_modify hb.right fun x hx => ?_
    split <;> exact hx
  · split
    · intro x hx
      cases List.mem_or_eq_of_mem_set hx with
      | inl hx => exact hb.right x hx
      | inr hx => exact hx ▸ native_clone_flat hw
    · exact hb.right

section

variable {lost : CMPIValueState → Prop}

theorem NativeCop.addKey_kept {p p' : CMPIObjectPath} {name : Option Text} {value : Option CMPIValue}
    {type : CMPIType} (hp : p.Kept lost) (hv : ∀ v ∈ value, v.Flat)
    (h : p.addKey name value type = .ok p') : p'.Kept lost := by
  obtain ⟨n, _, hn⟩ := deref_bind h
  obtain ⟨keys, hk, hn⟩ := ok_bind.mp hn
  cases hn
  exact ⟨addPropertyPtr_kept hp.keys hv hk nofun⟩

theorem newCMPIInstance_kept {p : CMPIObjectPath} {i : CMPIInstance} (hp : p.Kept lost)
    (h : newCMPIInstance (some p) = .ok i) : i.Kept lost := by
  have ⟨cn, _, hn⟩ := deref_bind h
  cases hn
  refine ⟨?_, nofun⟩
  have hf : ∀ keys : List (NativeProperty CMPIValue), (∀ k ∈ keys, k.Kept lost) →
      ∀ props : List (NativeProperty CMPIValue), (∀ q ∈ props, q.Kept lost) →
      ∀ q ∈ keys.foldl (fun props key =>
        addProperty props key.name key.type key.state key.value) props, q.Kept lost := by
    intro keys
    induction keys with
    | nil            => exact fun _ _ hp => hp
    | cons k keys hi =>
      intro hk props hprops
      have ⟨hk₁, hk₂⟩ := List.forall_mem_cons.mp hk
      exact hi hk₂ _ (addProperty_kept hprops hk₁.flat hk₁.bad)
  exact hf _ (fun k hk => hp.keys k (List.mem_reverse.mp hk)) [] nofun

theorem NativeInstance.setProperty_kept {i i' : CMPIInstance} {name : Option Text}
    {value : Option CMPIValue} {type : CMPIType} (hi : i.Kept lost) (hv : ∀ v ∈ value, v.Flat)
    (h : i.setProperty name value type = .ok i') : i'.Kept lost := by
  have ⟨n, _, hn⟩ := deref_bind h
  cases hs : Sfcc.setProperty i.props n type value with
  | some props =>
    simp only [hs] at hn
    cases hn
    exact ⟨Named.forall_set hi.props (fun _ hp => NativeProperty.replace_kept hp hv) hs, hi.quals⟩
  | none       =>
    simp only [hs] at hn
    obtain ⟨props, hp, hn⟩ := ok_bind.mp hn
    cases hn
    refine ⟨addPropertyPtr_kept hi.props hv hp ?_, hi.quals⟩
    cases value <;> exact nofun

theorem NativeInstance.addQualifier_kept {i i' : CMPIInstance} {name : Option Text} {v : CMPIValue}
    {type : CMPIType} (hi : i.Kept lost) (hv : v.Flat) (h : i.addQualifier name v type = .ok i') :
    i'.Kept lost := by
  have ⟨n, _, hn⟩ := deref_bind h
  cases hn
  exact ⟨hi.props, setOrAddQualifier_kept hi.quals hv⟩

theorem NativeInstance.addPropertyQualifier_kept {i i' : CMPIInstance} {pname qname : Option Text}
    {v : CMPIValue} {type : CMPIType} (hi : i.Kept lost) (hv : v.Flat)
    (h : addInstPropertyQualifier i pname qname v type = .ok i') : i'.Kept lost := by
  have ⟨props, hprops, hn⟩ := ok_bind.mp h
  cases hn
  refine ⟨addQualifierTo_kept hi.props (fun p n hp => ?_) hprops, hi.quals⟩
  exact ⟨hp.flat, hp.same, hp.bad, setOrAddQualifier_kept hp.quals hv⟩

namespace NativeConstClass

variable {cc cc' : CMPIConstClass} {name qname : Option Text} {v : CMPIValue} {type : CMPIType}
variable {state : CMPIValueState}

theorem addProperty_kept (hc : cc.Kept lost) (hv : v.Flat) (hb : state = .bad → lost .bad)
    (h : cc.addProperty name v type state = .ok cc') : cc'.Kept lost := by
  have ⟨n, _, hn⟩ := deref_bind h
  have hv' : ∀ w ∈ some v, w.Flat := by
    intro w hw
    cases hw
    exact hv
  cases hs : Sfcc.setProperty cc.props n type (some v) with
  | some props =>
    simp only [hs] at hn
    cases hn
    exact ⟨Named.forall_set hc.props (fun _ hp => NativeProperty.replace_kept hp hv') hs, hc.quals,
      hc.methods⟩
  | none       =>
    simp only [hs] at hn
    cases hn
    exact ⟨Sfcc.addProperty_kept hc.props hv hb, hc.quals, hc.methods⟩

theorem addQualifier_kept (hc : cc.Kept lost) (hv : v.Flat) (h : cc.addQualifier name v type = .ok cc') :
    cc'.Kept lost := by
  have ⟨n, _, hn⟩ := deref_bind h
  cases hn
  exact ⟨hc.props, setOrAddQualifier_kept hc.quals hv, hc.methods⟩

theorem addPropertyQualifier_kept (hc : cc.Kept lost) (hv : v.Flat)
    (h : cc.addPropertyQualifier name qname v type = .ok cc') : cc'.Kept lost := by
  have ⟨props, hprops, hn⟩ := ok_bind.mp h
  cases hn
  refine ⟨addQualifierTo_kept hc.props (fun p n hp => ?_) hprops, hc.quals, hc.methods⟩
  exact ⟨hp.flat, hp.same, hp.bad, setOrAddQualifier_kept hp.quals hv⟩

theorem addMethod_kept (hc : cc.Kept lost) (hv : v.Flat)
    (h : cc.addMethod name v type state = .ok cc') : cc'.Kept lost := by
  have ⟨n, _, hn⟩ := deref_bind h
  cases hn
  refine ⟨hc.props, hc.quals, ?_⟩
  exact Named.forall_setOrAdd hc.methods (fun _ hm => NativeMethod.replace_kept hm hv)
    (NativeMethod.new_kept hv)

theorem addMethodQualifier_kept (hc : cc.Kept lost) (hv : v.Flat)
    (h : cc.addMethodQualifier name qname v type = .ok cc') : cc'.Kept lost := by
  have ⟨methods, hmethods, hn⟩ := ok_bind.mp h
  cases hn
  refine ⟨hc.props, hc.quals, addQualifierTo_kept hc.methods (fun m n hm => ?_) hmethods⟩
  exact ⟨hm.flat, hm.same, setOrAddQualifier_kept hm.quals hv⟩

theorem addMethodParameter_kept (hc : cc.Kept lost)
    (h : cc.addMethodParameter name qname type = .ok cc') : cc'.Kept lost := by
  have ⟨methods, hmethods, hn⟩ := ok_bind.mp h
  cases hn
  refine ⟨hc.props, hc.quals, addQualifierTo_kept hc.methods (fun m n hm => ?_) hmethods⟩
  exact ⟨hm.flat, hm.same, hm.quals⟩

end NativeConstClass

end

-- Whatever was made is flat, and whatever was built is kept.
mutual

theorem CMPIValue.Made.flat : ∀ {v : CMPIValue}, v.Made → v.Flat
  | _, .leaf h  => h.flat
  | _, .array h =>
    have ⟨ht, hd⟩ := NativeArray.Built.elementary h
    ⟨ht, flatItems_iff.mpr hd⟩
  | _, .ref h   => flatProperties_of_kept (NativeCop.Built.kept (fun _ => True) h).keys
  | _, .inst h  =>
    have hk := NativeInstance.Built.kept (fun _ => True) h
    ⟨flatProperties_of_kept hk.props, flatQualifiers_of_kept hk.quals⟩

theorem NativeArray.Built.elementary : ∀ {a : CMPIArray}, NativeArray.Built a → a.Elementary
  | _, .new size type => NativeArray.new_elementary size type
  | _, .set h hv      => NativeArray.set_elementary (NativeArray.Built.elementary h) hv.flat

theorem NativeCop.Built.kept (lost : CMPIValueState → Prop) :
    ∀ {p : CMPIObjectPath}, NativeCop.Built p → p.Kept lost
  | _, .new _ _        => ⟨nofun⟩
  | _, .setNameSpace h => ⟨(NativeCop.Built.kept lost h).keys⟩
  | _, .addKey h hv hp => NativeCop.addKey_kept (NativeCop.Built.kept lost h) (fun v hm => (hv v hm).flat) hp

theorem NativeInstance.Built.kept (lost : CMPIValueState → Prop) :
    ∀ {i : CMPIInstance}, NativeInstance.Built i → i.Kept lost
  | _, .new                         => ⟨nofun, nofun⟩
  | _, .ofPath h hi                 => newCMPIInstance_kept (NativeCop.Built.kept lost h) hi
  | _, .setNsAndCn h                =>
    have hk := NativeInstance.Built.kept lost h
    ⟨hk.props, hk.quals⟩
  | _, .setProperty h hv hi         =>
    NativeInstance.setProperty_kept (NativeInstance.Built.kept lost h) (fun v hm => (hv v hm).flat) hi
  | _, .addQualifier h hv hi        =>
    NativeInstance.addQualifier_kept (NativeInstance.Built.kept lost h) hv.flat hi
  | _, .addPropertyQualifier h hv hi =>
    NativeInstance.addPropertyQualifier_kept (NativeInstance.Built.kept lost h) hv.flat hi

end

theorem NativeConstClass.Built.kept (lost : CMPIValueState → Prop) (hb : lost .bad)
    {cc : CMPIConstClass} (h : cc.Built) : cc.Kept lost := by
  induction h with
  | new h                           =>
    have ⟨cn, _, hn⟩ := deref_bind h
    cases hn
    exact ⟨nofun, nofun, nofun⟩
  | addProperty _ hv h hi          => exact addProperty_kept hi hv.flat (fun _ => hb) h
  | addQualifier _ hv h hi         => exact addQualifier_kept hi hv.flat h
  | addPropertyQualifier _ hv h hi => exact addPropertyQualifier_kept hi hv.flat h
  | addMethod _ hv h hi            => exact addMethod_kept hi hv.flat h
  | addMethodQualifier _ hv h hi   => exact addMethodQualifier_kept hi hv.flat h
  | addMethodParameter _ h hi      => exact addMethodParameter_kept hi h

-- A copy is the same as what was built, but for the values of bad properties.
theorem built_same_clone :
    (∀ i : CMPIInstance, i.Built → CMPIValue.Same (· = .bad) (.inst i) (.inst i.clone)) ∧
    (∀ p : CMPIObjectPath, p.Built → CMPIValue.Same (· = .bad) (.ref p) (.ref p.clone)) ∧
    (∀ cc : CMPIConstClass, cc.Built → CMPIValue.Same (· = .bad) (.cls cc) (.cls cc.clone)) := by
  refine ⟨fun i hi => ?_, fun p hp => ?_, fun cc hc => ?_⟩
  · exact (NativeInstance.Built.kept _ hi).same
  · exact (NativeCop.Built.kept _ hp).same
  · exact (hc.kept (· = .bad) rfl).same

-- A disk that refers to its system, with a list of names and with qualifiers.
def builtDisk : Except Fault CMPIInstance := do
  let system ← (newCMPIObjectPath (some (bytes "root")) (some (bytes "System"))).addKey (some (bytes "Name"))
    (some (.chars (bytes "host"))) .chars
  let disk ← (newCMPIObjectPath (some (bytes "root")) (some (bytes "Disk"))).addKey (some (bytes "System"))
    (some (.ref system)) .ref
  let names := (newCMPIArray 2 .string).setArrayElementAt 1 (.string (bytes "sda")) .string
  let ci ← newCMPIInstance (some disk)
  let ci ← ci.setProperty (some (bytes "Names")) (some (.array names)) (.array ||| .string)
  let ci ← ci.addQualifier (some (bytes "Version")) (.uint16 2) .uint16
  addInstPropertyQualifier ci (some (bytes "names")) (some (bytes "Units")) (.string (bytes "none")) .string

-- The class of the disk, with a bad property and a method.
def builtDiskClass : Except Fault CMPIConstClass := do
  let cc ← newCMPIConstClass (some (bytes "Disk"))
  let cc ← cc.addProperty (some (bytes "Size")) (.uint64 0) .uint64 .bad
  let cc ← cc.addPropertyQualifier (some (bytes "Size")) (some (bytes "Units")) (.chars (bytes "Bytes")) .chars
  let cc ← cc.addQualifier (some (bytes "Version")) (.uint16 2) .uint16
  let cc ← cc.addMethod (some (bytes "Reset")) (.uint32 0) .uint32 .good
  let cc ← cc.addMethodQualifier (some (bytes "Reset")) (some (bytes "Static")) (.boolean true) .boolean
  cc.addMethodParameter (some (bytes "reset")) (some (bytes "Force")) .boolean

theorem builtDisk_built {ci : CMPIInstance} (h : builtDisk = .ok ci) : ci.Built := by
  obtain ⟨system, hsystem, h⟩ := ok_bind.mp h
  obtain ⟨disk, hdisk, h⟩ := ok_bind.mp h
  obtain ⟨made, hmade, h⟩ := ok_bind.mp h
  obtain ⟨named, hnamed, h⟩ := ok_bind.mp h
  obtain ⟨qualified, hqualified, h⟩ := ok_bind.mp h
  have hname : CMPIValue.Made (.chars (bytes "host")) := .leaf trivial
  have hversion : CMPIValue.Made (.uint16 2) := .leaf trivial
  have hunits : CMPIValue.Made (.string (bytes "none")) := .leaf trivial
  have hnames : CMPIValue.Made (.array ((newCMPIArray 2 .string).setArrayElementAt 1 (.string (bytes "sda")) .string)) :=
    .array (.set (.new 2 .string) (.leaf trivial))
  have hs : system.Built := .addKey (.new _ _) (fun _ hv => Option.some.inj hv ▸ hname) hsystem
  have hd : disk.Built := .addKey (.new _ _) (fun _ hv => Option.some.inj hv ▸ .ref hs) hdisk
  have hn : named.Built := .setProperty (.ofPath hd hmade) (fun _ hv => Option.some.inj hv ▸ hnames) hnamed
  exact .addPropertyQualifier (.addQualifier hn hversion hqualified) hunits h

theorem builtDiskClass_built {cc : CMPIConstClass} (h : builtDiskClass = .ok cc) : cc.Built := by
  obtain ⟨made, hmade, h⟩ := ok_bind.mp h
  obtain ⟨sized, hsized, h⟩ := ok_bind.mp h
  obtain ⟨measured, hmeasured, h⟩ := ok_bind.mp h
  obtain ⟨qualified, hqualified, h⟩ := ok_bind.mp h
  obtain ⟨resettable, hresettable, h⟩ := ok_bind.mp h
  obtain ⟨static, hstatic, h⟩ := ok_bind.mp h
  have hsize : CMPIValue.Made (.uint64 0) := .leaf trivial
  have hunits : CMPIValue.Made (.chars (bytes "Bytes")) := .leaf trivial
  have hversion : CMPIValue.Made (.uint16 2) := .leaf trivial
  have hreset : CMPIValue.Made (.uint32 0) := .leaf trivial
  have htrue : CMPIValue.Made (.boolean true) := .leaf trivial
  have hm : measured.Built := .addPropertyQualifier (.addProperty (.new hmade) hsize hsized) hunits hmeasured
  have hr : resettable.Built := .addMethod (.addQualifier hm hversion hqualified) hreset hresettable
  exact .addMethodParameter (.addMethodQualifier hr htrue hstatic) h

theorem built_same_clone_disk :
    (∃ ci, builtDisk = .ok ci ∧ CMPIValue.Same (· = .bad) (.inst ci) (.inst ci.clone)) ∧
    ∃ cc, builtDiskClass = .ok cc ∧ CMPIValue.Same (· = .bad) (.cls cc) (.cls cc.clone) := by
  have ⟨ci, hci⟩ : ∃ ci, builtDisk = .ok ci := ⟨_, rfl⟩
  have ⟨cc, hcc⟩ : ∃ cc, builtDiskClass = .ok cc := ⟨_, rfl⟩
  refine ⟨⟨ci, hci, ?_⟩, cc, hcc, ?_⟩
  · exact built_same_clone.left ci (builtDisk_built hci)
  · exact built_same_clone.right.right cc (builtDiskClass_built hcc)

-- A bad property loses its value.
theorem not_same_clone_bad :
    ¬ ((∀ i : CMPIInstance, i.Built → CMPIValue.Same (fun _ => False) (.inst i) (.inst i.clone)) ∧
      (∀ p : CMPIObjectPath, p.Built → CMPIValue.Same (fun _ => False) (.ref p) (.ref p.clone)) ∧
      (∀ cc : CMPIConstClass, cc.Built →
        CMPIValue.Same (fun _ => False) (.cls cc) (.cls cc.clone))) := by
  intro h
  have hn : newCMPIConstClass (some [65]) = .ok { classname := [65] } := rfl
  have hv : CMPIValue.Made (.uint32 5) := .leaf trivial
  have ha : NativeConstClass.addProperty { classname := [65] } (some [112]) (.uint32 5) .uint32 .bad =
    .ok { classname := [65], props := [⟨[112], .uint32, .bad, .uint32 5, []⟩] } := rfl
  have hs := h.right.right _ (.addProperty (.new hn) hv ha)
  generalize hw : CMPIValue.cls (NativeConstClass.clone _) = w at hs
  cases hs with
  | refl        => cases hw
  | cls hps _ _ =>
    cases hw
    cases hps with
    | cons hp _ =>
      cases hp with
      | mk hv _ => cases hv rfl id

end Sfcc
