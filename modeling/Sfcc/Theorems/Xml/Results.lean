import Mathlib.Data.List.Forall2
import Sfcc.Theorems.Cmpi.Array
import Sfcc.Theorems.Xml.Convert
import Sfcc.Theorems.Xml.Response

namespace Sfcc.Xml

open Descent Xml.Tree

-- The calls of `simpleArrayAdd` on a new array, one after the other.
def stored (vs : List (CMPIValue × CMPIType)) : CMPIArray :=
  vs.foldl (fun a v => a.simpleAdd v.1 v.2) (newCMPIArray 0 .null)

theorem foldl_simpleArrayAdd (vs : List (CMPIValue × CMPIType)) (hdr : ResponseHdr) :
    vs.foldl ResponseHdr.simpleArrayAdd hdr =
      { hdr with rvArray := vs.foldl (fun a v => a.simpleAdd v.1 v.2) hdr.rvArray } := by
  induction vs generalizing hdr with
  | nil          => rfl
  | cons v vs hi => exact hi _

section

variable {a : CMPIArray}

-- Once there is an element, the type stays.
theorem foldl_simpleAdd_type (hd : a.dynamic) (hl : a.data.length ≠ 0)
    (vs : List (CMPIValue × CMPIType)) :
    (vs.foldl (fun a v => a.simpleAdd v.1 v.2) a).type = a.type := by
  induction vs generalizing a with
  | nil          => rfl
  | cons v vs hi =>
    have hl' : (a.simpleAdd v.1 v.2).data.length ≠ 0 := by
      rw [NativeArray.simpleAdd_data_length hd]
      omega
    rw [List.foldl_cons, hi (NativeArray.simpleAdd_dynamic hd) hl', NativeArray.simpleAdd_type hd,
      if_neg hl]

theorem foldl_simpleAdd_length (hd : a.dynamic) (vs : List (CMPIValue × CMPIType)) :
    (vs.foldl (fun a v => a.simpleAdd v.1 v.2) a).data.length = a.data.length + vs.length := by
  induction vs generalizing a with
  | nil          => rfl
  | cons v vs hi =>
    rw [List.foldl_cons, hi (NativeArray.simpleAdd_dynamic hd), NativeArray.simpleAdd_data_length hd,
      List.length_cons]
    omega

theorem foldl_simpleAdd_data (hd : a.dynamic) {vs : List (CMPIValue × CMPIType)}
    (ht : ∀ v ∈ vs, v.2 ≠ .null ∧ v.2 ≠ .chars) :
    (vs.foldl (fun a v => a.simpleAdd v.1 v.2) a).data =
      a.data ++ vs.map fun v => { state := .good, value := v.1 } := by
  induction vs generalizing a with
  | nil          => simp
  | cons v vs hi =>
    have ⟨hn, hc⟩ := ht v (List.mem_cons_self ..)
    rw [List.foldl_cons, hi (NativeArray.simpleAdd_dynamic hd) fun w hw => ht w (.tail _ hw),
      NativeArray.simpleAdd_data hd hn hc]
    simp

end

theorem stored_cons_type (v : CMPIValue × CMPIType) (vs : List (CMPIValue × CMPIType)) :
    (stored (v :: vs)).type = v.2 := by
  have hd : (newCMPIArray 0 .null).dynamic := rfl
  have hl : ((newCMPIArray 0 .null).simpleAdd v.1 v.2).data.length ≠ 0 := by
    rw [NativeArray.simpleAdd_data_length hd]
    simp
  rw [stored, List.foldl_cons, foldl_simpleAdd_type (NativeArray.simpleAdd_dynamic hd) hl,
    NativeArray.simpleAdd_type hd]
  rfl

theorem stored_length (vs : List (CMPIValue × CMPIType)) : (stored vs).data.length = vs.length := by
  rw [stored, foldl_simpleAdd_length rfl]
  simp

-- The conversions of all elements of a list succeed, or that of one of them fails.
theorem mapM_ok {T α : Type} {f : T → Except Fault α} {l : List T} {vs : List α} :
    l.mapM f = .ok vs ↔ List.Forall₂ (fun t v => f t = .ok v) l vs := by
  induction l generalizing vs with
  | nil =>
    constructor
    · intro h
      cases h
      exact .nil
    · intro h
      cases h
      rfl
  | cons t l hi =>
    rw [List.mapM_cons]
    constructor
    · intro h
      cases ht : f t with
      | error e => simp [ht, bind, Except.bind] at h
      | ok v =>
        cases hl : l.mapM f with
        | error e => simp [ht, hl, bind, Except.bind] at h
        | ok ws =>
          simp only [ht, hl, bind, Except.bind, pure, Except.pure, Except.ok.injEq] at h
          subst h
          exact .cons ht (hi.mp hl)
    · intro h
      cases h with
      | cons ht hl => simp [ht, hi.mpr hl, bind, Except.bind, pure, Except.pure]

-- The results of an `IRETURNVALUE`, whatever there was before.

def Tree.ObjectWithPath.inst? : ObjectWithPath → Option XtokInstanceWithPath
  | .cls _ _ _        => none
  | .inst path name i =>
    some { path := { path := path.xtok, instanceName := name.xtok }, inst := i.xtok }

namespace Tree.ReturnContent

def values (req : Request) : ReturnContent → Except Fault (List (CMPIValue × CMPIType))
  | .classes l         => l.mapM fun c => classResult c.xtok
  | .classNames l      => l.mapM fun n => classNameResult { value := n }
  | .instances l       => l.mapM fun i => instanceResult req i.xtok
  | .instanceNames l   => l.mapM fun n => instanceNameResult n.xtok
  | .namedInstances l  =>
    l.mapM fun t => namedInstanceResult req { path := t.1.xtok, instance_ := t.2.xtok }
  | .objectPaths l     =>
    l.mapM fun t => objectPathResult { path := { path := t.1.xtok, instanceName := t.2.xtok } }
  | .objectsWithPath l => (l.filterMap ObjectWithPath.inst?).mapM instanceWithPathResult
  | .value v           => do return [← propertyResult req v.xtok]
  | .valueArray _      => return []
  | .valueReference _  => return []

theorem add_eq {T : Type} (f : T → Except Fault (CMPIValue × CMPIType)) (hdr : ResponseHdr)
    (l : List T) :
    add f hdr l = (l.mapM f).map fun vs => vs.foldl ResponseHdr.simpleArrayAdd hdr := by
  induction l generalizing hdr with
  | nil         => rfl
  | cons t l hi =>
    rw [List.mapM_cons, add, List.foldlM_cons]
    cases f t with
    | error e => rfl
    | ok v    =>
      refine (hi (hdr.simpleArrayAdd v)).trans ?_
      show _ = (l.mapM f >>= fun vs => pure (v :: vs)).map _
      cases l.mapM f <;> rfl

theorem objects_eq (hdr : ResponseHdr) (l : List ObjectWithPath) :
    l.foldlM ObjectWithPath.result hdr =
      add instanceWithPathResult hdr (l.filterMap ObjectWithPath.inst?) := by
  induction l generalizing hdr with
  | nil         => rfl
  | cons o l hi =>
    cases o with
    | cls path name c  => exact hi hdr
    | inst path name i =>
      rw [List.foldlM_cons, List.filterMap_cons_some (by rfl), add, List.foldlM_cons]
      exact congrArg _ (funext fun hdr => hi hdr)

theorem result_eq {req : Request} (hdr : ResponseHdr) (c : ReturnContent) : c.result req hdr =
    (c.values req).map fun vs => vs.foldl ResponseHdr.simpleArrayAdd hdr := by
  match c with
  | .classes _ | .classNames _ | .instances _ | .instanceNames _ | .namedInstances _
  | .objectPaths _                     => exact add_eq _ _ _
  | .objectsWithPath l                 => exact (objects_eq hdr l).trans (add_eq _ _ _)
  | .value v                           =>
    show (propertyResult req v.xtok >>= _) = (propertyResult req v.xtok >>= _).map _
    cases propertyResult req v.xtok <;> rfl
  | .valueArray _ | .valueReference _ => rfl

end Tree.ReturnContent

theorem propertyResult_ok {req : Request} {v : XtokValue XtokInstance} {r : CMPIValue × CMPIType}
    (h : propertyResult req v = .ok r) : ∃ t, v.data.ptr.text req = some t ∧ r.2 = guessType t ∧
      str2CMPIValueOf (guessType t) (some t) = .ok r.1 := by
  have ⟨t, ht, h⟩ := ok_bind.mp h
  have ⟨w, hw, h⟩ := ok_bind.mp h
  cases h
  cases htext : v.data.ptr.text req with
  | none      => simp [htext, deref] at ht
  | some text =>
    cases (congrArg deref htext).symm.trans ht
    exact ⟨_, rfl, rfl, htext ▸ hw⟩

theorem isArray_guessType (t : Text) : (guessType t).isArray = false := by
  have ht := guessType_mem t
  simp only [List.mem_cons, List.not_mem_nil, or_false] at ht
  rcases ht with ht | ht | ht | ht
  all_goals
    rw [ht]
    rfl

-- A text is never read as an object.
theorem propertyResult_ne_inst {req : Request} {v : XtokValue XtokInstance} {r : CMPIValue × CMPIType}
    (h : propertyResult req v = .ok r) (i : CMPIInstance) : r.1 ≠ .inst i := by
  have ⟨t, _, _, hv⟩ := propertyResult_ok h
  rw [str2CMPIValueOf, isArray_guessType, if_neg (by simp)] at hv
  by_cases hs : guessType t = .string
  · rw [hs, str2CMPIText_string] at hv
    rw [← Except.ok.inj hv]
    exact nofun
  · have ⟨scan, hscan⟩ := scanner_guessType hs
    rw [str2CMPIText_scanner hscan] at hv
    rw [← Except.ok.inj hv]
    exact scanner_ne_inst hscan t i

-- The children of an `IRETURNVALUE`, each with the object that is to be built from it.
namespace Tree

inductive Child
  | cls (cls : Class)
  | className (name : Option Text)
  | inst (inst : Instance)
  | instanceName (name : InstanceName)
  | namedInstance (name : InstanceName) (inst : Instance)
  | objectPath (path : NameSpacePath) (name : InstanceName)
  | objectWithPath (object : ObjectWithPath)
  | value (value : Value)
  | valueArray (values : List Value)
  | valueReference (ref : Reference)

def ReturnContent.children : ReturnContent → List Child
  | .classes l         => l.map .cls
  | .classNames l      => l.map .className
  | .instances l       => l.map .inst
  | .instanceNames l   => l.map .instanceName
  | .namedInstances l  => l.map fun t => .namedInstance t.1 t.2
  | .objectPaths l     => l.map fun t => .objectPath t.1 t.2
  | .objectsWithPath l => l.map .objectWithPath
  | .value v           => [.value v]
  | .valueArray vs     => [.valueArray vs]
  | .valueReference r  => [.valueReference r]

-- What the sibling productions make of a child of the kinds `iReturnValueContent` does not handle.
def Child.object (req : Request) : Child → Except Fault CMPIValue
  | .cls c                                => Prod.fst <$> classResult c.xtok
  | .className n                          => Prod.fst <$> classNameResult { value := n }
  | .inst i                               => Prod.fst <$> instanceResult req i.xtok
  | .instanceName n                       => Prod.fst <$> instanceNameResult n.xtok
  | .namedInstance n i                    =>
    Prod.fst <$> namedInstanceResult req { path := n.xtok, instance_ := i.xtok }
  | .objectPath p n                       =>
    Prod.fst <$> objectPathResult { path := { path := p.xtok, instanceName := n.xtok } }
  | .objectWithPath (.cls _ _ c)          => Prod.fst <$> classResult c.xtok
  | .objectWithPath (.inst path name i)   =>
    let path := { path := path.xtok, instanceName := name.xtok }
    Prod.fst <$> instanceWithPathResult { path := path, inst := i.xtok }
  | .value (.text text)                   =>
    Prod.fst <$> propertyResult req (Value.text text).xtok
  | .value (.cdata _ i)                   => .inst <$> instanceIn req.nameSpace i.xtok
  | .valueArray vs                        => str2CMPIValue .array (.valueArray (.ofList (Value.pointers vs)))
  | .valueReference r                     => .ref <$> referencePath r.xtok

end Tree

-- The results that were added are the objects of the children, in their order.
def NoneLost (req : Request) (hdr hdr' : ResponseHdr) (c : ReturnContent) : Prop :=
  ∃ items, hdr'.rvArray.data = hdr.rvArray.data ++ items ∧
    List.Forall₂ (fun child item => item.state = .good ∧ child.object req = .ok item.value)
      c.children items

-- No class with its path, no value of a property that is not a text.
def Tree.ReturnContent.lossless : ReturnContent → Bool
  | .objectsWithPath l => l.all fun o => o.inst?.isSome
  | .value (.cdata _ _) | .valueArray _ | .valueReference _ => false
  | _ => true

-- The type the results of an `IRETURNVALUE` are stored with.
def Tree.ReturnContent.type (req : Request) : ReturnContent → CMPIType
  | .classes _                                              => .cls
  | .classNames _ | .instanceNames _ | .objectPaths _       => .ref
  | .instances _ | .namedInstances _ | .objectsWithPath _   => .inst
  | .value v                                                =>
    guessType ((v.xtok.data.ptr.text req).getD [])
  | .valueArray _ | .valueReference _                       => .null

theorem mapM_forall {T α : Type} {f : T → Except Fault α} {l : List T} {vs : List α} {Q : α → Prop}
    (h : l.mapM f = .ok vs) (hf : ∀ {t v}, f t = .ok v → Q v) : ∀ v ∈ vs, Q v := by
  have h₂ := mapM_ok.mp h
  induction h₂ with
  | nil             => exact nofun
  | cons ht hl hi =>
    intro v hv
    cases hv with
    | head      => exact hf ht
    | tail _ hv => exact hi (mapM_ok.mpr hl) v hv

theorem values_type {req : Request} {c : ReturnContent} {vs : List (CMPIValue × CMPIType)}
    (h : c.values req = .ok vs) : ∀ v ∈ vs, v.2 = c.type req := by
  cases c
  case value v =>
    have ⟨r, hr, hvs⟩ := ok_bind.mp h
    cases hvs
    intro w hw
    rw [List.mem_singleton.mp hw]
    have ⟨t, ht, htype, _⟩ := propertyResult_ok hr
    rw [htype, Tree.ReturnContent.type, ht]
    rfl
  case valueArray vs =>
    cases h
    exact nofun
  case valueReference r =>
    cases h
    exact nofun
  all_goals
    refine mapM_forall h fun {t v} ht => ?_
    simp only [classResult, classNameResult, instanceResult, instanceNameResult, namedInstanceResult,
      objectPathResult, instanceWithPathResult, ok_bind, pure, Except.pure, Except.ok.injEq] at ht
    grind [Tree.ReturnContent.type]

theorem type_ne {req : Request} {c : ReturnContent} {vs : List (CMPIValue × CMPIType)}
    (h : c.values req = .ok vs) : ∀ v ∈ vs, v.2 ≠ .null ∧ v.2 ≠ .chars := by
  intro v hv
  rw [values_type h v hv]
  cases c
  case value w =>
    have ht := guessType_mem ((w.xtok.data.ptr.text req).getD [])
    simp only [List.mem_cons, List.not_mem_nil, or_false] at ht
    rw [Tree.ReturnContent.type]
    rcases ht with ht | ht | ht | ht <;> rw [ht] <;> decide
  case valueArray _ | valueReference _ =>
    cases h
    cases hv
  all_goals
    rw [Tree.ReturnContent.type]
    decide

-- What is added is what the values are.
theorem noneLost_iff_values {req : Request} {hdr hdr' : ResponseHdr} {c : ReturnContent}
    {vs : List (CMPIValue × CMPIType)} (hd : hdr.rvArray.dynamic) (hv : c.values req = .ok vs)
    (h : c.result req hdr = .ok hdr') : NoneLost req hdr hdr' c ↔
      List.Forall₂ (fun child v => child.object req = .ok v.1) c.children vs := by
  rw [c.result_eq, hv] at h
  have he : vs.foldl ResponseHdr.simpleArrayAdd hdr = hdr' := Except.ok.inj h
  rw [← he, NoneLost, foldl_simpleArrayAdd]
  simp only [foldl_simpleAdd_data hd (type_ne hv), List.append_cancel_left_eq, exists_eq_left',
    List.forall₂_map_right_iff, true_and]

theorem object_of_ok {T : Type} {f : T → Except Fault (CMPIValue × CMPIType)} {child : T → Child}
    {req : Request} {l : List T} {vs : List (CMPIValue × CMPIType)} (h : l.mapM f = .ok vs)
    (hc : ∀ t, (child t).object req = Prod.fst <$> f t) :
    List.Forall₂ (fun c v => Child.object req c = .ok v.1) (l.map child) vs := by
  rw [List.forall₂_map_left_iff]
  refine (mapM_ok.mp h).imp fun t v ht => ?_
  rw [hc, ht]
  rfl

-- The objects with an instance are as many as all of them only if there are no others.
theorem objects_lossless {req : Request} {l : List ObjectWithPath} {vs : List (CMPIValue × CMPIType)}
    (h : List.Forall₂ (fun i v => instanceWithPathResult i = .ok v)
      (l.filterMap ObjectWithPath.inst?) vs) :
    List.Forall₂ (fun c v => Child.object req c = .ok v.1) (l.map .objectWithPath) vs ↔
      (l.all fun o => o.inst?.isSome) := by
  constructor
  · intro hf
    have hl : (l.filterMap ObjectWithPath.inst?).length = l.length := by
      rw [h.length_eq, ← hf.length_eq, List.length_map]
    exact List.all_eq_true.mpr (List.filterMap_length_eq_length.mp hl)
  · intro hall
    induction l generalizing vs with
    | nil =>
      cases h
      exact .nil
    | cons o l hi =>
      rw [List.all_cons, Bool.and_eq_true] at hall
      cases o with
      | cls path name c  => cases hall.1
      | inst path name i =>
        rw [List.filterMap_cons_some (by rfl)] at h
        cases h with
        | cons hv h =>
          refine .cons ?_ (hi h hall.2)
          show Prod.fst <$> instanceWithPathResult _ = _
          rw [hv]
          rfl

theorem noneLost_iff_lossless {req : Request} {hdr hdr' : ResponseHdr} {c : ReturnContent}
    (hd : hdr.rvArray.dynamic) (h : c.result req hdr = .ok hdr') :
    NoneLost req hdr hdr' c ↔ c.lossless := by
  have ⟨vs, hv⟩ : ∃ vs, c.values req = .ok vs := by
    rw [c.result_eq] at h
    cases hv : c.values req with
    | error e => simp [hv, Except.map] at h
    | ok vs   => exact ⟨vs, rfl⟩
  rw [noneLost_iff_values hd hv h]
  cases c
  case objectsWithPath l => exact objects_lossless (mapM_ok.mp hv)
  case value v =>
    have ⟨r, hr, hvs⟩ := ok_bind.mp hv
    cases hvs
    cases v with
    | text text    =>
      refine iff_of_true (.cons ?_ .nil) rfl
      show Prod.fst <$> propertyResult req _ = _
      rw [hr]
      rfl
    | cdata text i =>
      refine iff_of_false (fun hf => ?_) (by simp [Tree.ReturnContent.lossless])
      cases hf with
      | cons ho _ =>
        change CMPIValue.inst <$> instanceIn req.nameSpace i.xtok = .ok r.1 at ho
        cases hi : instanceIn req.nameSpace i.xtok with
        | error e => simp [hi, Functor.map, Except.map] at ho
        | ok i'   =>
          rw [hi] at ho
          exact propertyResult_ne_inst hr i' (Except.ok.inj ho).symm
  case valueArray _ | valueReference _ =>
    cases hv
    exact iff_of_false nofun (by simp [Tree.ReturnContent.lossless])
  all_goals exact iff_of_true (object_of_ok hv fun _ => rfl) rfl

end Sfcc.Xml
