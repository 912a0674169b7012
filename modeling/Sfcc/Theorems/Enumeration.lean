import Sfcc.Theorems.Client

namespace Sfcc

open Descent Xml Xml.Tree

-- The copy of an enumeration has the same elements.
structure NativeEnum.LosesNothing (e : NativeEnum) : Prop where
  type     : e.clone.data.type = e.data.type
  elements : List.Forall₂ (NativeArrayItem.Same (CMPIValue.Same fun _ => False)) e.data.data
    e.clone.data.data

theorem clone_type (a : CMPIArray) : a.clone.type = (newCMPIArray a.data.length a.type).type :=
  rfl

-- What was stored is cloned one by one.
theorem stored_data {vs : List (CMPIValue × CMPIType)} (h : ∀ v ∈ vs, v.2 ≠ .null ∧ v.2 ≠ .chars) :
    (stored vs).data = vs.map fun v => { state := .good, value := v.1 } := by
  have hd : (newCMPIArray 0 .null).dynamic := rfl
  simpa [stored] using foldl_simpleAdd_data hd h

theorem cloneItems_map (type : CMPIType) (vs : List CMPIValue) :
    cloneItems type (vs.map fun v => { state := .good, value := v }) =
      vs.map fun v => { state := .good, value := native_clone_CMPIValue type v } := by
  induction vs with
  | nil          => simp [cloneItems]
  | cons v vs hi =>
    simp only [List.map_cons, cloneItems, hi]
    rfl

-- A class is not cloned.
theorem not_cls_same_clone {cc : CMPIConstClass} {lost : CMPIValueState → Prop} :
    ¬ CMPIValue.Same lost (.cls cc) (native_clone_CMPIValue .cls (.cls cc)) := by
  have hc : native_clone_CMPIValue .cls (.cls cc) = .zero := by
    simp only [native_clone_CMPIValue, CMPIType.cloneWith, show CMPIType.cloning .cls = .lost by decide]
  intro h
  rw [hc] at h
  cases h

section

variable {vs : List (CMPIValue × CMPIType)} {type : CMPIType}

theorem clone_stored_data (h : ∀ v ∈ vs, v.2 ≠ .null ∧ v.2 ≠ .chars) :
    (stored vs).clone.data =
      vs.map fun v => { state := .good, value := native_clone_CMPIValue (stored vs).type v.1 } := by
  show cloneItems (stored vs).type (stored vs).data = _
  rw [stored_data h]
  simpa [Function.comp_def] using cloneItems_map (stored vs).type (vs.map Prod.fst)

theorem losesNothing_iff (hr : ∀ v ∈ vs, Result v) (ht : ∀ v ∈ vs, v.2 = type) (hne : vs ≠ []) :
    (newCMPIEnumeration (stored vs)).LosesNothing ↔ type ≠ .cls ∧ type ≠ .chars := by
  have ⟨v, ws, hvs⟩ := List.exists_cons_of_ne_nil hne
  have hv := hr v (by simp [hvs])
  have hvt := ht v (by simp [hvs])
  have hs : (stored vs).type = type := by rw [hvs, stored_cons_type, hvt]
  have ha : type.isArray = false := hvt ▸ hv.isArray
  have hn (hc : type ≠ .chars) (w) (hw : w ∈ vs) : w.2 ≠ .null ∧ w.2 ≠ .chars :=
    ⟨(hr w hw).ne_null, ht w hw ▸ hc⟩
  constructor
  · intro h
    have hc : type ≠ .chars := by
      intro he
      have htype := h.type
      simp only [newCMPIEnumeration, NativeEnum.clone, clone_type, hs] at htype
      exact (newCMPIArray_flat _ _).right (htype.trans he)
    refine ⟨fun he => ?_, hc⟩
    have hf := h.elements
    simp only [newCMPIEnumeration, NativeEnum.clone, stored_data (hn hc), clone_stored_data (hn hc),
      List.forall₂_map_left_iff, List.forall₂_map_right_iff, hs] at hf
    rw [hvs] at hf
    have ⟨cc, hcc⟩ := hv.isCls (hvt.trans he)
    cases hf with
    | cons hf _ =>
      cases hf with
      | mk hf =>
        rw [hcc, he] at hf
        exact not_cls_same_clone (hf rfl)
  · intro ⟨hcls, hc⟩
    constructor
    · simp only [newCMPIEnumeration, NativeEnum.clone, clone_type, hs]
      exact newCMPIArray_type ⟨ha, hc⟩
    · simp only [newCMPIEnumeration, NativeEnum.clone, stored_data (hn hc),
        clone_stored_data (hn hc), List.forall₂_map_left_iff, List.forall₂_map_right_iff, hs]
      apply List.forall₂_same.mpr
      intro w hw
      apply NativeArrayItem.Same.mk
      intro _
      have hsame := (hr w hw).same (ht w hw ▸ hcls)
      rwa [ht w hw] at hsame

end

namespace Client

inductive Enumerating
  | enumInstanceNames
  | execQuery
  | enumInstances
  | associators
  | references
  | associatorNames
  | referenceNames
  | enumClassNames
  | enumClasses

def Enumerating.run : Enumerating → ResponseHdr → CMPIStatus × Option NativeEnum
  | .enumInstanceNames => Client.enumInstanceNames
  | .execQuery         => Client.execQuery
  | .enumInstances     => Client.enumInstances
  | .associators       => Client.associators
  | .references        => Client.references
  | .associatorNames   => Client.associatorNames
  | .referenceNames    => Client.referenceNames
  | .enumClassNames    => Client.enumClassNames
  | .enumClasses       => Client.enumClasses

theorem Enumerating.run_ok {rh : ResponseHdr} (he : rh.errCode = 0) (op : Enumerating) :
    (op.run rh).2 = some (newCMPIEnumeration rh.rvArray) := by
  cases op <;> simp [run, Client.enumInstanceNames, Client.execQuery, Client.enumInstances,
    Client.associators, Client.references, Client.associatorNames, Client.referenceNames,
    Client.enumClassNames, Client.enumClasses, Client.enumeration, he]

-- Classes are lost when an enumeration is copied, and nothing else is. `CMPI_chars` is not the type of
-- any text.
theorem losesNothing_iff_firstType {req : Request} {ts : List Tok} {rh : ResponseHdr} {e : NativeEnum}
    (hq : ∀ p, req.objectPath = some p → p.Built) (h : scanResponse req ts = .ok rh)
    (he : rh.errCode = 0) (op : Enumerating) (hr : (op.run rh).2 = some e) :
    (∃ (m : Message) (ts' : _), ts = m.document ++ ts') ∧
    ∀ (m : Message) ts', ts = m.document ++ ts' →
      (e.LosesNothing ↔ m.firstType req ≠ some .cls ∧ m.firstType req ≠ some .chars) := by
  rw [op.run_ok he] at hr
  cases hr
  have ⟨hb, hr⟩ := Grammar.scanResponse_accepted h
  refine ⟨hb, fun m ts' ht => ?_⟩
  have ⟨vs, ha, hm⟩ := m.result_stored (hr m ts' ht)
  rw [ha, ← hm.head]
  cases vs with
  | nil       =>
    refine iff_of_true ⟨rfl, .nil⟩ (by simp)
  | cons v vs =>
    have ht : ∀ w ∈ v :: vs, w.2 = v.2 := by
      intro w hw
      exact Option.some.inj ((hm.type w hw).symm.trans hm.head.symm)
    simpa using losesNothing_iff (hm.results hq) ht (by simp)

-- The names of two classes.
theorem losesNothing_iff_firstType_classNames : ∃ rh e, scanResponse { bytesOf := fun _ => [] }
      ((Message.iMethod (.content (.classNames [some (bytes "A"), some (bytes "B")]))).document ++ []) = .ok rh ∧
    (Enumerating.enumClassNames.run rh).2 = some e ∧ e.data.data.length = 2 ∧
    (e.LosesNothing ↔ some CMPIType.ref ≠ some .cls ∧ some CMPIType.ref ≠ some .chars) := by
  let m : Message := .iMethod (.content (.classNames [some (bytes "A"), some (bytes "B")]))
  have h : scanResponse { bytesOf := fun _ => [] } (m.document ++ []) = .ok _ := Grammar.scanResponse_document rfl []
  have hq : ∀ p, (none : Option CMPIObjectPath) = some p → p.Built := nofun
  exact ⟨_, _, h, rfl, rfl, (losesNothing_iff_firstType hq h rfl .enumClassNames rfl).right m [] rfl⟩

-- The copy of an enumeration of classes has no classes.
theorem not_losesNothing_class : ¬ ∀ req ts rh e, (∀ p, req.objectPath = some p → p.Built) →
    scanResponse req ts = .ok rh → rh.errCode = 0 → ∀ op : Enumerating, (op.run rh).2 = some e →
    e.LosesNothing := by
  intro h
  let m : Message := .iMethod (.content (.classes [⟨{ name := some [65] }, [], [], []⟩]))
  have hs : scanResponse { bytesOf := fun _ => [] } m.document =
      .ok { rvArray := stored [(.cls { classname := [65] }, .cls)] } := rfl
  have hq : ∀ p, (none : Option CMPIObjectPath) = some p → p.Built := nofun
  have hl := h { bytesOf := fun _ => [] } m.document _ _ hq hs rfl .enumClasses rfl
  have hf := hl.elements
  cases hf with
  | cons hf _ =>
    cases hf with
    | mk hf => exact not_cls_same_clone (hf rfl)

end Client
end Sfcc
