import Mathlib.Data.List.Nodup
import Sfcc.Cmpi.Native

namespace Sfcc

theorem ok_bind {α β : Type} {x : Except Fault α} {f : α → Except Fault β} {b : β} :
    (x >>= f) = .ok b ↔ ∃ a, x = .ok a ∧ f a = .ok b := by
  cases x <;> simp [bind, Except.bind]

theorem deref_bind {α β : Type} {a : Option α} {f : α → Except Fault β} {b : β}
    (h : (deref a >>= f) = .ok b) : ∃ x, a = some x ∧ f x = .ok b := by
  cases a with
  | none   => cases h
  | some x => exact ⟨x, rfl, h⟩

@[simp]
theorem sameIgnoringCase_iff {a b : Text} : sameIgnoringCase a b ↔ a.lower = b.lower := by
  simp [sameIgnoringCase]

theorem sameIgnoringCase_comm (a b : Text) : sameIgnoringCase a b = sameIgnoringCase b a :=
  BEq.comm

namespace Named

variable {P : Type} {name : P → Text} {Q : P → Prop} {f : P → P} {new : P} {l l' : List P} {n : Text}

theorem forall_add (h : ∀ p ∈ l, Q p) (hn : Q new) : ∀ p ∈ add name new l n, Q p := by
  intro p hp
  rw [add] at hp
  split at hp
  · exact h p hp
  · cases List.mem_append.mp hp with
    | inl hp => exact h p hp
    | inr hp => exact List.mem_singleton.mp hp ▸ hn

theorem forall_set (h : ∀ p ∈ l, Q p) (hf : ∀ p, Q p → Q (f p)) (hs : set name f l n = some l') :
    ∀ p ∈ l', Q p := by
  induction l generalizing l' with
  | nil         => cases hs
  | cons p l hi =>
    have ⟨hp, hl⟩ := List.forall_mem_cons.mp h
    rw [set] at hs
    split at hs
    · cases hs
      exact List.forall_mem_cons.mpr ⟨hf p hp, hl⟩
    · have ⟨l₁, h₁, he⟩ := Option.map_eq_some_iff.mp hs
      subst he
      exact List.forall_mem_cons.mpr ⟨hp, hi hl h₁⟩

theorem forall_setOrAdd (h : ∀ p ∈ l, Q p) (hf : ∀ p, Q p → Q (f p)) (hn : Q new) :
    ∀ p ∈ setOrAdd name f new l n, Q p := by
  rw [setOrAdd]
  cases hs : set name f l n with
  | none    => exact forall_add h hn
  | some l' => exact forall_set h hf hs

-- No two items have the same name.
def Distinct (name : P → Text) (l : List P) : Prop :=
  (l.map fun p => (name p).lower).Nodup

theorem Distinct.reverse (h : Distinct name l) : Distinct name l.reverse := by
  rw [Distinct, List.map_reverse]
  exact List.nodup_reverse.mpr h

theorem Distinct.sublist (h : Distinct name l) (hs : l'.Sublist l) : Distinct name l' :=
  List.Nodup.sublist (hs.map _) h

theorem Distinct.ne_of_append_cons {p : P} (h : Distinct name (l ++ p :: l')) :
    ∀ q ∈ l, (name q).lower ≠ (name p).lower := by
  intro q hq he
  rw [Distinct, List.map_append] at h
  apply (List.nodup_append.mp h).2.2 _ (List.mem_map_of_mem hq) _ _ he
  simp

theorem Distinct.congr {m : List P} (h : Distinct name l)
    (hm : m.map (fun p => (name p).lower) = l.map fun p => (name p).lower) : Distinct name m := by
  rw [Distinct, hm]
  exact h

theorem get_none_iff : get name l n = none ↔ ∀ p ∈ l, (name p).lower ≠ n.lower := by
  simp [get]

theorem get_name {p : P} (h : get name l n = some p) : (name p).lower = n.lower := by
  rw [get] at h
  simpa using List.find?_some h

theorem get_of_mem {p : P} (hd : Distinct name l) (hp : p ∈ l) (hn : (name p).lower = n.lower) :
    get name l n = some p := by
  induction l with
  | nil         => cases hp
  | cons q l hi =>
    have ⟨hq, hl⟩ := List.nodup_cons.mp hd
    cases List.mem_cons.mp hp with
    | inl hp => simp [get, ← hp, hn]
    | inr hp =>
      have hne : ¬ (name q).lower = n.lower := by
        intro he
        exact hq (List.mem_map.mpr ⟨p, hp, hn.trans he.symm⟩)
      simpa [get, hne] using hi hl hp

theorem set_none_iff : set name f l n = none ↔ get name l n = none := by
  rw [get_none_iff]
  induction l with
  | nil         => simp [set]
  | cons p l hi => by_cases hp : (name p).lower = n.lower <;> simp [set, hp, hi]

theorem map_of_not_mem (h : ∀ p ∈ l, (name p).lower ≠ n.lower) :
    l.map (fun p => if sameIgnoringCase (name p) n then f p else p) = l := by
  have hm : l.map (fun p => if sameIgnoringCase (name p) n then f p else p) = l.map id := by
    apply List.map_congr_left
    intro p hp
    simp [h p hp]
  simpa using hm

-- Where names are distinct, it does not matter that only the first item is changed.
theorem set_eq_map (hd : Distinct name l) (h : set name f l n = some l') :
    l' = l.map fun p => if sameIgnoringCase (name p) n then f p else p := by
  induction l generalizing l' with
  | nil         => cases h
  | cons p l hi =>
    have ⟨hp, hl⟩ := List.nodup_cons.mp hd
    by_cases hn : (name p).lower = n.lower
    · have hne : ∀ q ∈ l, ¬ (name q).lower = n.lower := by
        intro q hq he
        exact hp (List.mem_map.mpr ⟨q, hq, he.trans hn.symm⟩)
      simp only [set, sameIgnoringCase_iff, hn, if_true, Option.some.injEq] at h
      rw [List.map_cons, map_of_not_mem hne]
      simp [← h, hn]
    · simp only [set, sameIgnoringCase_iff, hn, if_false, Option.map_eq_some_iff] at h
      have ⟨l₁, h₁, he⟩ := h
      simp [← he, hn, hi hl h₁]

theorem setOrAdd_eq (hd : Distinct name l) : setOrAdd name f new l n =
    l.map (fun p => if sameIgnoringCase (name p) n then f p else p) ++
      if (get name l n).isSome then [] else [new] := by
  rw [setOrAdd]
  cases hs : set name f l n with
  | some l' =>
    have hg : get name l n ≠ none := by
      intro hg
      simp [set_none_iff.mpr hg] at hs
    simp [set_eq_map hd hs, Option.isSome_iff_ne_none.mpr hg]
  | none    =>
    have hg := set_none_iff.mp hs
    rw [map_of_not_mem (get_none_iff.mp hg)]
    simp [add, hg]

theorem append_distinct (hd : Distinct name l) (h : ∀ p ∈ l, (name p).lower ≠ (name new).lower) :
    Distinct name (l ++ [new]) := by
  rw [Distinct, List.map_append]
  apply List.nodup_append.mpr
  refine ⟨hd, by simp, ?_⟩
  simpa using h

theorem add_distinct (hd : Distinct name l) (hn : name new = n) : Distinct name (add name new l n) := by
  cases hg : get name l n with
  | some p => simpa [add, hg] using hd
  | none   =>
    simp only [add, hg]
    exact append_distinct hd (hn ▸ get_none_iff.mp hg)

theorem setOrAdd_distinct (hd : Distinct name l) (hf : ∀ p, name (f p) = name p) (hn : name new = n) :
    Distinct name (setOrAdd name f new l n) := by
  have hm : (l.map fun p => if sameIgnoringCase (name p) n then f p else p).map
      (fun p => (name p).lower) = l.map fun p => (name p).lower := by
    simp only [List.map_map, List.map_inj_left, Function.comp]
    intro p _
    split <;> simp [hf]
  have hdm := hd.congr hm
  rw [setOrAdd_eq hd]
  cases hg : get name l n with
  | some p => simpa using hdm
  | none   =>
    apply append_distinct hdm
    rw [map_of_not_mem (get_none_iff.mp hg), hn]
    exact get_none_iff.mp hg

theorem get_set (hf : ∀ p, name (f p) = name p) (h : set name f l n = some l') (m : Text) :
    get name l' m = if n.lower = m.lower then (get name l m).map f else get name l m := by
  induction l generalizing l' with
  | nil         => cases h
  | cons p l hi =>
    by_cases hp : (name p).lower = n.lower
    · simp only [set, sameIgnoringCase_iff, hp, if_true, Option.some.injEq] at h
      subst h
      by_cases hm : n.lower = m.lower <;> simp [get, hf, hp, hm]
    · simp only [set, sameIgnoringCase_iff, hp, if_false, Option.map_eq_some_iff] at h
      have ⟨l₁, h₁, he⟩ := h
      subst he
      have hg := hi h₁
      by_cases hpm : (name p).lower = m.lower
      · have hm : n.lower ≠ m.lower := fun hm => hp (hpm.trans hm.symm)
        simp [get, hpm, hm]
      · simpa [get, hpm] using hg

theorem get_add (hn : name new = n) (m : Text) :
    get name (add name new l n) m = if n.lower = m.lower then some ((get name l m).getD new)
      else get name l m := by
  by_cases hm : n.lower = m.lower
  · have hg : get name l n = get name l m := by simp [get, sameIgnoringCase, hm]
    rw [add, hg, if_pos hm]
    cases hl : get name l m with
    | some p => simp [hl]
    | none   =>
      have hf : l.find? (fun p => sameIgnoringCase (name p) m) = none := hl
      rw [get, if_neg (by simp), List.find?_append, hf]
      simp [hn, hm]
  · rw [add]
    split
    · simp
    · simp [get, List.find?_append, hn, hm]

theorem get_setOrAdd (hf : ∀ p, name (f p) = name p) (hn : name new = n) (m : Text) :
    get name (setOrAdd name f new l n) m =
      if n.lower = m.lower then some ((get name l m).elim new f) else get name l m := by
  rw [setOrAdd]
  cases hs : set name f l n with
  | none    =>
    have hg := set_none_iff.mp hs
    rw [Option.getD_none, get_add hn]
    split
    · have hm : get name l m = none := by
        rw [get_none_iff] at hg ⊢
        simpa [*] using hg
      simp [hm]
    · rfl
  | some l' =>
    have hg : get name l n ≠ none := by
      intro hg
      simp [set_none_iff.mpr hg] at hs
    rw [Option.getD_some, get_set hf hs]
    split
    · cases hm : get name l m with
      | some p => rfl
      | none   =>
        rw [get_none_iff] at hm
        refine absurd (get_none_iff.mpr ?_) hg
        simpa [*] using hm
    · rfl

theorem add_of_not_mem (h : ∀ p ∈ l, (name p).lower ≠ n.lower) : add name new l n = l ++ [new] := by
  simp [add, get_none_iff.mpr h]

end Named

@[simp]
theorem NativeProperty.new_name (name : Text) (type : CMPIType) (state : CMPIValueState)
    (value : CMPIValue) : (NativeProperty.new name type state value).name = name := by
  rw [NativeProperty.new]
  split
  · split <;> rfl
  · rfl

theorem cloneProperties_names (props : List (NativeProperty CMPIValue)) :
    (cloneProperties props).map (·.name) = props.map (·.name) := by
  induction props with
  | nil            => rw [cloneProperties]
  | cons p props hi =>
    rw [cloneProperties, List.map_cons, List.map_cons, hi]

theorem NativeProperty.create_some (name : Text) (type : CMPIType) (state : CMPIValueState) (value : CMPIValue) :
    NativeProperty.create name type state (some value) = .ok (.new name type state value) := by
  rw [create, new]
  split
  · split <;> rfl
  · rfl

-- `NULL` is not read of a null property.
theorem NativeProperty.create_null (name : Text) (type : CMPIType) (value : Option CMPIValue) (v : CMPIValue) :
    NativeProperty.create name type .null value = .ok (.new name type .null v) := by
  have hn : ¬ (type ≠ .null ∧ CMPIValueState.null ≠ .null) := fun h => h.right rfl
  rw [create, new, if_neg hn, if_neg hn]
  rfl

-- What a property is made with: the value, no text, or zero.
theorem NativeProperty.create_ok {name : Text} {type : CMPIType} {state : CMPIValueState} {value : Option CMPIValue}
    {p : NativeProperty CMPIValue} (h : NativeProperty.create name type state value = .ok p) :
    ∃ v, p = .new name type state v ∧ (v ∈ value ∨ v = .zero ∨ v = .chars none) := by
  cases value with
  | some v =>
    rw [create_some] at h
    cases h
    exact ⟨v, rfl, .inl rfl⟩
  | none   =>
    rw [create] at h
    split at h
    case isTrue hn  =>
      split at h
      case isTrue hc  =>
        cases h
        exact ⟨.chars none, by rw [new, if_pos hn, if_pos hc]; rfl, .inr (.inr rfl)⟩
      case isFalse hc =>
        rw [native_clone] at h
        split at h
        case isTrue hv  =>
          cases h
          refine ⟨.zero, ?_, .inr (.inl rfl)⟩
          rw [new, if_pos hn, if_neg hc, native_clone_CMPIValue, CMPIType.cloneWith, hv]
        case isFalse hv => cases h
    case isFalse hn =>
      cases h
      exact ⟨.zero, by rw [new, if_neg hn], .inr (.inl rfl)⟩

section

variable {props props' : List (NativeProperty CMPIValue)} {name : Text} {type : CMPIType} {state : CMPIValueState}
  {value : Option CMPIValue}

theorem addPropertyPtr_of {v : CMPIValue}
    (h : NativeProperty.create name type state value = .ok (.new name type state v)) :
    addPropertyPtr props name type state value = .ok (addProperty props name type state v) := by
  rw [addPropertyPtr, addProperty, Named.add]
  split
  · rfl
  · rw [h]
    rfl

theorem addPropertyPtr_some (v : CMPIValue) :
    addPropertyPtr props name type state (some v) = .ok (addProperty props name type state v) :=
  addPropertyPtr_of (NativeProperty.create_some ..)

theorem addPropertyPtr_null (v : CMPIValue) :
    addPropertyPtr props name type .null value = .ok (addProperty props name type .null v) :=
  addPropertyPtr_of (NativeProperty.create_null ..)

theorem NativeCop.addKey_some (cop : CMPIObjectPath) (v : CMPIValue) :
    cop.addKey (some name) (some v) type = .ok { cop with keys := addProperty cop.keys name type .key v } := by
  rw [addKey, deref]
  show (addPropertyPtr cop.keys name type .key (some v) >>= _) = _
  rw [addPropertyPtr_some]
  rfl

theorem addPropertyPtr_ok (h : addPropertyPtr props name type state value = .ok props') :
    ∃ v, props' = addProperty props name type state v ∧ (v ∈ value ∨ v = .zero ∨ v = .chars none) := by
  rw [addPropertyPtr] at h
  split at h
  case isTrue hs  =>
    cases h
    exact ⟨.zero, by rw [addProperty, Named.add, if_pos hs], .inr (.inl rfl)⟩
  case isFalse hs =>
    cases hc : NativeProperty.create name type state value with
    | error e =>
      rw [hc] at h
      cases h
    | ok p    =>
      rw [hc] at h
      cases h
      obtain ⟨v, rfl, hv⟩ := NativeProperty.create_ok hc
      exact ⟨v, by rw [addProperty, Named.add, if_neg hs], hv⟩

end

theorem NativeProperty.replace_name {type : CMPIType} {value : Option CMPIValue}
    (p : NativeProperty CMPIValue) : (p.replace type value).name = p.name := by
  unfold replace
  split
  · rfl
  · split
    · rfl
    · split <;> rfl

end Sfcc
