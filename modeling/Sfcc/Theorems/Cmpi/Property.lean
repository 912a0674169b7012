import Sfcc.Cmpi.Property
import Sfcc.Theorems.Cmpi.Named

-- A list of properties is an ordered map from names, without regard to their case.
namespace Sfcc

namespace PropertyFT

variable {props before after : List (NativeProperty CMPIValue)} {p : NativeProperty CMPIValue} {n : Text}
variable {type : CMPIType} {state : CMPIValueState} {value : Option CMPIValue}

-- No property has the name.
def Absent (n : Text) (props : List (NativeProperty CMPIValue)) : Prop :=
  ∀ p ∈ props, ¬ sameIgnoringCase p.name n

theorem absent_iff : Absent n props ↔ Sfcc.getProperty props n = none := by
  simp [Absent, Sfcc.getProperty, Named.get_none_iff]

-- The first property of a name.
theorem split_of_not_absent (h : ¬ Absent n props) : ∃ before p after, props = before ++ p :: after ∧
    Absent n before ∧ sameIgnoringCase p.name n := by
  induction props with
  | nil            => exact absurd nofun h
  | cons p props hi =>
    by_cases hp : sameIgnoringCase p.name n
    · exact ⟨[], p, props, rfl, nofun, hp⟩
    · have ht : ¬ Absent n props := fun ht => h (List.forall_mem_cons.mpr ⟨hp, ht⟩)
      obtain ⟨before, q, after, rfl, hb, hq⟩ := hi ht
      exact ⟨p :: before, q, after, rfl, List.forall_mem_cons.mpr ⟨hp, hb⟩, hq⟩

-- Whether `NULL` is followed when a value is stored.
def FollowsNull (type : CMPIType) (state : CMPIValueState) (value : Option CMPIValue) : Prop :=
  value = none ∧ (type ≠ .null ∧ state ≠ .null) ∧ type ≠ .chars ∧ type.cloning ≠ .value

instance (type : CMPIType) (state : CMPIValueState) : Decidable (FollowsNull type state none) :=
  decidable_of_iff ((type ≠ .null ∧ state ≠ .null) ∧ type ≠ .chars ∧ type.cloning ≠ .value) (by simp [FollowsNull])

theorem create_followsNull (h : FollowsNull type state value) : NativeProperty.create n type state value = .error .null := by
  obtain ⟨rfl, hs, hc, hv⟩ := h
  rw [NativeProperty.create, if_pos hs, if_neg hc, native_clone, if_neg hv]
  rfl

theorem create_ok (h : ¬ FollowsNull type state value) : ∃ p, NativeProperty.create n type state value = .ok p := by
  cases value with
  | some v => exact ⟨_, NativeProperty.create_some ..⟩
  | none   =>
    rw [NativeProperty.create]
    split
    case isTrue hs  =>
      split
      case isTrue hc  => exact ⟨_, rfl⟩
      case isFalse hc =>
        have hv : type.cloning = .value := by
          by_contra hv
          exact h ⟨rfl, hs, hc, hv⟩
        rw [native_clone, if_pos hv]
        exact ⟨_, rfl⟩
    case isFalse hs => exact ⟨_, rfl⟩

theorem create_name (h : NativeProperty.create n type state value = .ok p) : p.name = n := by
  obtain ⟨v, rfl, _⟩ := NativeProperty.create_ok h
  exact NativeProperty.new_name ..

theorem addProperty_absent (h : Absent n props) :
    addProperty n type state value props = (NativeProperty.create n type state value).map fun p => (0, props ++ [p]) := by
  induction props with
  | nil             =>
    rw [addProperty]
    cases NativeProperty.create n type state value <;> rfl
  | cons q props hi =>
    obtain ⟨hq, ht⟩ := List.forall_mem_cons.mp h
    rw [addProperty, if_neg hq, hi ht]
    cases NativeProperty.create n type state value <;> rfl

theorem addProperty_first (hb : Absent n before) (hp : sameIgnoringCase p.name n) :
    addProperty n type state value (before ++ p :: after) = .ok (1, before ++ p :: after) := by
  induction before with
  | nil              =>
    rw [List.nil_append, addProperty, if_pos hp]
    rfl
  | cons q before hi =>
    obtain ⟨hq, hb⟩ := List.forall_mem_cons.mp hb
    rw [List.cons_append, addProperty, if_neg hq, hi hb]
    rfl

theorem addProperty_present (h : ¬ Absent n props) : addProperty n type state value props = .ok (1, props) := by
  obtain ⟨before, p, after, rfl, hb, hp⟩ := split_of_not_absent h
  exact addProperty_first hb hp

theorem setProperty_absent (h : Absent n props) : setProperty n type value props = (-1, props) := by
  induction props with
  | nil            => rfl
  | cons p props hi =>
    have ⟨hp, ht⟩ := List.forall_mem_cons.mp h
    simp [setProperty, hp, hi ht]

theorem setProperty_first (hb : Absent n before) (hp : sameIgnoringCase p.name n) :
    setProperty n type value (before ++ p :: after) = (0, before ++ p.replace type value :: after) := by
  induction before with
  | nil             => rw [List.nil_append, setProperty, if_pos hp, List.nil_append]
  | cons q before hi =>
    have ⟨hq, hb⟩ := List.forall_mem_cons.mp hb
    simp [setProperty, hq, hi hb]

-- What the rest of the model does with a list is what these functions do.

theorem addProperty_eq : (addProperty n type state value props).map (·.2) = addPropertyPtr props n type state value := by
  rw [addPropertyPtr]
  by_cases h : Absent n props
  · have hg : Named.get NativeProperty.name props n = none := absent_iff.mp h
    rw [addProperty_absent h, hg, if_neg (by simp)]
    cases NativeProperty.create n type state value <;> rfl
  · have hg : Named.get NativeProperty.name props n ≠ none := fun hg => h (absent_iff.mpr hg)
    rw [addProperty_present h, if_pos (Option.isSome_iff_ne_none.mpr hg)]
    rfl

theorem setProperty_eq : Sfcc.setProperty props n type value =
    if (setProperty n type value props).1 = 0 then some (setProperty n type value props).2 else none := by
  rw [Sfcc.setProperty]
  induction props with
  | nil            => rfl
  | cons p props hi =>
    rw [Named.set, setProperty]
    split
    · rfl
    · rw [hi]
      simp only
      split
      · rfl
      · rfl

theorem getProperty_eq : getProperty props (some n) = Sfcc.getProperty props n := by
  induction props with
  | nil            => rfl
  | cons p props hi =>
    rw [getProperty, hi, Sfcc.getProperty, Sfcc.getProperty, Named.get, Named.get, List.find?_cons]
    cases sameIgnoringCase p.name n with
    | true  => rfl
    | false => rfl

theorem getPropertyAt_eq (props : List (NativeProperty CMPIValue)) (pos : ℕ) : getPropertyAt props pos = props[pos]? := by
  induction props generalizing pos with
  | nil            => rfl
  | cons p props hi =>
    cases pos with
    | zero     => rfl
    | succ pos => exact hi pos

theorem count_eq (c : ℕ) (props : List (NativeProperty CMPIValue)) : count c props = c + props.length := by
  induction props generalizing c with
  | nil            => rfl
  | cons p props hi =>
    rw [count, hi, List.length_cons]
    omega

theorem getPropertyCount_eq (props : List (NativeProperty CMPIValue)) : getPropertyCount props = props.length := by
  rw [getPropertyCount, count_eq, Nat.zero_add]

-- The laws of an ordered map.
structure OrderedMap (props : List (NativeProperty CMPIValue)) : Prop where
  distinct    : Named.Distinct NativeProperty.name props
  added       : ∀ n type state value, Absent n props → ¬ FollowsNull type state value →
    ∃ p, NativeProperty.create n type state value = .ok p ∧ addProperty n type state value props = .ok (0, props ++ [p])
  kept        : ∀ n type state value, ¬ Absent n props →
    ∃ rc, addProperty n type state value props = .ok (rc, props) ∧ rc ≠ 0
  replaced    : ∀ before p after n type value, props = before ++ p :: after → Absent n before → sameIgnoringCase p.name n →
    setProperty n type value props = (0, before ++ p.replace type value :: after)
  unset       : ∀ n type value, Absent n props → setProperty n type value props = (-1, props)
  enumerated  : (List.range (getPropertyCount props)).map (getDataPropertyAt props) =
    props.map fun p => (.OK, p.data, some p.name)
  beyond      : ∀ pos, getPropertyCount props ≤ pos → (getDataPropertyAt props pos).1 = .ERR_NO_SUCH_PROPERTY
  found       : ∀ p pos, getPropertyAt props pos = some p →
    getProperty props (some p.name) = some p ∧ getDataProperty props (some p.name) = (.OK, p.data)

theorem orderedMap (hd : Named.Distinct NativeProperty.name props) : OrderedMap props where
  distinct                         := hd
  added n type state value h hf    := by
    obtain ⟨p, hp⟩ := @create_ok n type state value hf
    refine ⟨p, hp, ?_⟩
    rw [addProperty_absent h, hp]
    rfl
  kept _ _ _ _ h                   := ⟨1, addProperty_present h, Int.one_ne_zero⟩
  replaced _ _ _ _ _ _ hs hb hp    := by
    rw [hs]
    exact setProperty_first hb hp
  unset _ _ _                      := setProperty_absent
  enumerated                       := by
    apply List.ext_getElem?
    intro pos
    rw [List.getElem?_map, List.getElem?_map, getPropertyCount_eq]
    by_cases hp : pos < props.length
    · rw [List.getElem?_range hp, Option.map_some, getDataPropertyAt, getPropertyAt_eq, List.getElem?_eq_getElem hp]
      rfl
    · have hle := Nat.le_of_not_lt hp
      rw [List.getElem?_eq_none (by rwa [List.length_range]), List.getElem?_eq_none hle]
      rfl
  beyond pos h                     := by
    rw [getPropertyCount_eq] at h
    rw [getDataPropertyAt, getPropertyAt_eq, List.getElem?_eq_none h]
    rfl
  found p pos h                    := by
    rw [getPropertyAt_eq] at h
    have hm : p ∈ props := List.mem_of_getElem? h
    have hg : getProperty props (some p.name) = some p := by
      rw [getProperty_eq, Sfcc.getProperty]
      exact Named.get_of_mem hd hm rfl
    refine ⟨hg, ?_⟩
    rw [getDataProperty, hg]
    rfl

end PropertyFT

-- What can be done with a list.
inductive PropertyCall
  | addProperty (name : Text) (type : CMPIType) (state : CMPIValueState) (value : Option CMPIValue)
  | setProperty (name : Text) (type : CMPIType) (value : Option CMPIValue)
  | clone

namespace PropertyCall

def on (props : List (NativeProperty CMPIValue)) : PropertyCall → Except Fault (List (NativeProperty CMPIValue))
  | .addProperty name type state value => (PropertyFT.addProperty name type state value props).map (·.2)
  | .setProperty name type value       => return (PropertyFT.setProperty name type value props).2
  | .clone                             => return cloneProperties props

def reached (calls : List PropertyCall) : Except Fault (List (NativeProperty CMPIValue)) :=
  calls.foldlM on []

-- The names, in the order in which they were added first.
def inserted (names : List Text) : PropertyCall → List Text
  | .addProperty name _ _ _            => if names.any (sameIgnoringCase · name) then names else names ++ [name]
  | .setProperty _ _ _ | .clone        => names

-- No call adds `NULL` as an object or an array under a name that is new.
def Spares : List Text → List PropertyCall → Prop
  | _, []                                                   => True
  | names, call@(.addProperty name type state value) :: calls =>
    (PropertyFT.FollowsNull type state value → names.any (sameIgnoringCase · name)) ∧ Spares (inserted names call) calls
  | names, call@(.setProperty _ _ _) :: calls               => Spares (inserted names call) calls
  | names, call@.clone :: calls                             => Spares (inserted names call) calls

variable {props : List (NativeProperty CMPIValue)}

theorem absent_names {n : Text} : PropertyFT.Absent n props ↔ ¬ (props.map (·.name)).any (sameIgnoringCase · n) := by
  simp [PropertyFT.Absent]

theorem setProperty_names (name : Text) (type : CMPIType) (value : Option CMPIValue) :
    (PropertyFT.setProperty name type value props).2.map (·.name) = props.map (·.name) := by
  by_cases h : PropertyFT.Absent name props
  · rw [PropertyFT.setProperty_absent h]
  · obtain ⟨before, p, after, rfl, hb, hp⟩ := PropertyFT.split_of_not_absent h
    rw [PropertyFT.setProperty_first hb hp]
    simp [NativeProperty.replace_name]

-- What a call does to the names.
theorem on_names {props' : List (NativeProperty CMPIValue)} {call : PropertyCall} (h : call.on props = .ok props') :
    props'.map (·.name) = inserted (props.map (·.name)) call := by
  cases call with
  | addProperty name type state value =>
    rw [on] at h
    rw [inserted]
    by_cases ha : PropertyFT.Absent name props
    · rw [PropertyFT.addProperty_absent ha] at h
      rw [if_neg (absent_names.mp ha)]
      cases hc : NativeProperty.create name type state value with
      | error e =>
        rw [hc] at h
        cases h
      | ok p    =>
        rw [hc] at h
        cases h
        rw [List.map_append, List.map_singleton, PropertyFT.create_name hc]
    · rw [PropertyFT.addProperty_present ha] at h
      cases h
      rw [if_pos (not_not.mp (mt absent_names.mpr ha))]
  | setProperty name type value       =>
    cases h
    exact setProperty_names name type value
  | clone                             =>
    cases h
    exact cloneProperties_names props

theorem inserted_nodup {names : List Text} (call : PropertyCall) (h : (names.map Text.lower).Nodup) :
    ((inserted names call).map Text.lower).Nodup := by
  cases call with
  | addProperty name type state value =>
    rw [inserted]
    split
    · exact h
    · have hn : ¬ names.any (sameIgnoringCase · name) := ‹_›
      rw [List.map_append, List.nodup_append]
      refine ⟨h, List.nodup_singleton _, ?_⟩
      intro m hm l hl he
      have ⟨k, hk, hkm⟩ := List.mem_map.mp hm
      rw [List.map_singleton, List.mem_singleton] at hl
      have hsame : sameIgnoringCase k name := sameIgnoringCase_iff.mpr (hkm.trans (he.trans hl))
      exact hn (List.any_eq_true.mpr ⟨k, hk, hsame⟩)
  | setProperty _ _ _ | clone         => exact h

-- A run returns just when it spares the names it begins with.
theorem run_iff (calls : List PropertyCall) :
    (∃ props', calls.foldlM on props = .ok props' ∧ props'.map (·.name) = calls.foldl inserted (props.map (·.name))) ↔
      Spares (props.map (·.name)) calls := by
  induction calls generalizing props with
  | nil                => exact iff_of_true ⟨props, rfl, rfl⟩ trivial
  | cons call calls hi =>
    have hstep {props₁ : List (NativeProperty CMPIValue)} (h : call.on props = .ok props₁) :
        (∃ props', (call :: calls).foldlM on props = .ok props' ∧
          props'.map (·.name) = (call :: calls).foldl inserted (props.map (·.name))) ↔
          Spares (inserted (props.map (·.name)) call) calls := by
      rw [List.foldlM_cons, h, List.foldl_cons, ← on_names h]
      exact hi
    cases call with
    | addProperty name type state value =>
      rw [Spares]
      by_cases hf : PropertyFT.FollowsNull type state value
      · by_cases ha : PropertyFT.Absent name props
        · -- The run ends here.
          refine iff_of_false ?_ fun h => absent_names.mp ha (h.left hf)
          rintro ⟨props', h, _⟩
          rw [List.foldlM_cons, on, PropertyFT.addProperty_absent ha, PropertyFT.create_followsNull hf] at h
          cases h
        · have hn : (props.map (·.name)).any (sameIgnoringCase · name) := not_not.mp (mt absent_names.mpr ha)
          have hon : (PropertyCall.addProperty name type state value).on props = .ok props := by
            rw [on, PropertyFT.addProperty_present ha]
            rfl
          rw [hstep hon]
          exact (and_iff_right fun _ => hn).symm
      · obtain ⟨p, hp⟩ := @PropertyFT.create_ok name type state value hf
        have hon : ∃ props₁, (PropertyCall.addProperty name type state value).on props = .ok props₁ := by
          rw [on]
          by_cases ha : PropertyFT.Absent name props
          · rw [PropertyFT.addProperty_absent ha, hp]
            exact ⟨_, rfl⟩
          · rw [PropertyFT.addProperty_present ha]
            exact ⟨_, rfl⟩
        obtain ⟨props₁, hon⟩ := hon
        rw [hstep hon]
        exact (and_iff_right fun h => absurd h hf).symm
    | setProperty name type value       => exact hstep rfl
    | clone                             => exact hstep rfl

theorem run_nodup {names : List Text} (calls : List PropertyCall) (h : (names.map Text.lower).Nodup) :
    ((calls.foldl inserted names).map Text.lower).Nodup := by
  induction calls generalizing names with
  | nil                => exact h
  | cons call calls hi => exact hi (inserted_nodup call h)

-- A run of calls leaves an ordered map if `NULL` is not followed, and ends otherwise.
theorem reached_orderedMap_iff (calls : List PropertyCall) :
    (∃ props, reached calls = .ok props ∧ PropertyFT.OrderedMap props ∧ props.map (·.name) = calls.foldl inserted []) ↔
      Spares [] calls := by
  have hrun : (∃ props, reached calls = .ok props ∧ props.map (·.name) = calls.foldl inserted []) ↔ Spares [] calls :=
    @run_iff [] calls
  rw [← hrun]
  constructor
  · rintro ⟨props, h, _, hn⟩
    exact ⟨props, h, hn⟩
  · rintro ⟨props, h, hn⟩
    refine ⟨props, h, PropertyFT.orderedMap ?_, hn⟩
    have hd : ((props.map (·.name)).map Text.lower).Nodup := hn ▸ run_nodup calls List.nodup_nil
    rwa [List.map_map] at hd

theorem not_reached_null : ¬ ∀ calls : List PropertyCall, ∃ props, reached calls = .ok props ∧
    PropertyFT.OrderedMap props ∧ props.map (·.name) = calls.foldl inserted [] := by
  intro h
  obtain ⟨props, hr, _⟩ := h [.addProperty (bytes "k") .string .good none]
  cases hr

end PropertyCall

end Sfcc
