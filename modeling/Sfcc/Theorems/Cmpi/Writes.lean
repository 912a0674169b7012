import Sfcc.Theorems.Cmpi.Clone

-- What `getProperty` returns after `setProperty` was called some times.
namespace Sfcc

structure Assignment where
  name  : Text
  value : Option CMPIValue
  type  : CMPIType

namespace Assignment

def Names (w : Assignment) (n : Text) : Prop :=
  w.name.lower = n.lower

def run (ci : CMPIInstance) (ws : List Assignment) : Except Fault CMPIInstance :=
  ws.foldlM (fun ci w => ci.setProperty (some w.name) w.value w.type) ci

-- The state of a property that did not exist.
def state (w : Assignment) : CMPIValueState :=
  if w.value.isNone then .null else .good

def on (w : Assignment) (props : List (NativeProperty CMPIValue)) : List (NativeProperty CMPIValue) :=
  Named.setOrAdd NativeProperty.name (.replace w.type w.value) (.new w.name w.type w.state (w.value.getD .zero)) props w.name

theorem setProperty_eq (ci : CMPIInstance) (w : Assignment) :
    ci.setProperty (some w.name) w.value w.type = .ok { ci with props := w.on ci.props } := by
  have hp : addPropertyPtr ci.props w.name w.type w.state w.value =
      .ok (addProperty ci.props w.name w.type w.state (w.value.getD .zero)) := by
    rw [state]
    cases w.value with
    | none   => exact addPropertyPtr_null _
    | some v => exact addPropertyPtr_some v
  rw [NativeInstance.setProperty, on, Named.setOrAdd]
  simp only [deref, bind, Except.bind, setProperty]
  cases Named.set NativeProperty.name (.replace w.type w.value) ci.props w.name with
  | some props => rfl
  | none       =>
    show (addPropertyPtr ci.props w.name w.type w.state w.value >>= _) = _
    rw [hp]
    rfl

theorem run_eq (ci : CMPIInstance) (ws : List Assignment) :
    run ci ws = .ok { ci with props := ws.foldl (fun props w => w.on props) ci.props } := by
  induction ws generalizing ci with
  | nil          => rfl
  | cons w ws hi =>
    rw [run, List.foldlM_cons, setProperty_eq]
    exact hi { ci with props := w.on ci.props }

-- The property a call leaves under a name, given the one that was there.
def left (w : Assignment) (p : Option (NativeProperty CMPIValue)) : NativeProperty CMPIValue :=
  p.elim (.new w.name w.type w.state (w.value.getD .zero)) (.replace w.type w.value)

theorem get_on (w : Assignment) (props : List (NativeProperty CMPIValue)) (n : Text) [Decidable (w.Names n)] :
    getProperty (w.on props) n = if w.Names n then some (w.left (getProperty props n)) else getProperty props n := by
  have hg := @Named.get_setOrAdd _ NativeProperty.name (.replace w.type w.value)
    (.new w.name w.type w.state (w.value.getD .zero)) props w.name NativeProperty.replace_name (NativeProperty.new_name ..) n
  rw [getProperty, on, hg]
  by_cases h : w.Names n
  · have hl : w.name.lower = n.lower := h
    rw [if_pos hl, if_pos h]
    rfl
  · have hl : ¬ w.name.lower = n.lower := h
    rw [if_neg hl, if_neg h]
    rfl

-- What can be read after a call.
structure ReadBy (w : Assignment) (p : NativeProperty CMPIValue) : Prop where
  null  : w.value = none → p.state.isNull
  value : ∀ v, w.value = some v → w.type ≠ .null →
    p.type = (if w.type = .chars then .string else w.type) ∧ p.state.isNull = false ∧
      p.value ∈ (if w.type = .chars then [charsValue (some v)] else [v, v.clone])

-- A value is not written to a property that is null, nor `NULL` as a text to one that is not, and the
-- value can be copied.
structure Kind (w : Assignment) (p : Option (NativeProperty CMPIValue)) : Prop where
  value : ∀ p' ∈ p, w.value.isSome → w.type ≠ .null → p'.state.isNull = false
  null  : ∀ p' ∈ p, w.value = none → w.type = .chars → p'.state.isNull
  copy  : ∀ v, w.value = some v → w.type ≠ .null → w.type.cloning = .lost → .zero ∈ [v, v.clone]

theorem native_clone_mem_iff {type : CMPIType} {v : CMPIValue} :
    native_clone_CMPIValue type v ∈ [v, v.clone] ↔ (type.cloning = .lost → .zero ∈ [v, v.clone]) := by
  rw [native_clone_CMPIValue, CMPIType.cloneWith]
  cases type.cloning <;> simp

theorem good_isNull : CMPIValueState.isNull .good = false :=
  rfl

theorem null_isNull : CMPIValueState.isNull .null :=
  rfl

-- What a value leaves.
theorem left_some {w : Assignment} {v : CMPIValue} (hv : w.value = some v) (hn : w.type ≠ .null)
    (p : Option (NativeProperty CMPIValue)) :
    (w.left p).type = (if w.type = .chars then .string else w.type) ∧
      (w.left p).state = p.elim .good (·.state) ∧
      (w.left p).value = if w.type = .chars then charsValue (some v) else native_clone_CMPIValue w.type v := by
  have hgood : CMPIValueState.good ≠ .null := by decide
  have hs : w.state = .good := by simp [state, hv]
  by_cases hc : w.type = .chars
  · cases p <;> simp [left, hv, hs, NativeProperty.new, NativeProperty.replace, hc, hgood, CMPIType.chars, CMPIType.null]
  · cases p <;> simp [left, hv, hs, NativeProperty.new, NativeProperty.replace, hc, hgood, hn]

theorem left_none {w : Assignment} (hv : w.value = none) (p : Option (NativeProperty CMPIValue)) :
    (w.left p).state = if w.type = .chars then p.elim .null (·.state) else .null := by
  have hs : w.state = .null := by simp [state, hv]
  by_cases hc : w.type = .chars
  · cases p <;> simp [left, hv, hs, NativeProperty.new, NativeProperty.replace, hc]
  · cases p <;> simp [left, hv, hs, NativeProperty.new, NativeProperty.replace, hc]

theorem readBy_iff (w : Assignment) (p : Option (NativeProperty CMPIValue)) : w.ReadBy (w.left p) ↔ w.Kind p := by
  cases hv : w.value with
  | none   =>
    have hs := left_none hv p
    constructor
    · intro h
      refine ⟨fun _ _ hv' => absurd hv' (by simp [hv]), fun p' hp _ hc => ?_, fun v hv' => absurd hv' (by simp [hv])⟩
      have hnull := h.null hv
      rw [hs, if_pos hc, hp] at hnull
      exact hnull
    · intro h
      refine ⟨fun _ => ?_, fun v hv' => absurd hv' (by simp [hv])⟩
      rw [hs]
      by_cases hc : w.type = .chars
      · rw [if_pos hc]
        cases p with
        | none    => exact null_isNull
        | some p' => exact h.null p' rfl hv hc
      · rw [if_neg hc]
        exact null_isNull
  | some v =>
    by_cases hn : w.type = .null
    · exact iff_of_true ⟨fun h => absurd h (by simp [hv]), fun _ _ h => absurd hn h⟩
        ⟨fun _ _ _ h => absurd hn h, fun _ _ h => absurd h (by simp [hv]), fun _ _ h => absurd hn h⟩
    · have ⟨ht, hs, hval⟩ := left_some hv hn p
      have hlost : CMPIType.chars.cloning ≠ .lost := by decide
      constructor
      · intro h
        have ⟨_, hstate, hmem⟩ := h.value v hv hn
        refine ⟨fun p' hp _ _ => ?_, fun _ _ h => absurd h (by simp [hv]), fun v' hv' _ hl => ?_⟩
        · rw [hs, hp] at hstate
          exact hstate
        · cases hv.symm.trans hv'
          have hc : w.type ≠ .chars := fun hc => hlost (hc ▸ hl)
          rw [hval, if_neg hc, if_neg hc] at hmem
          exact native_clone_mem_iff.mp hmem hl
      · intro h
        refine ⟨fun h => absurd h (by simp [hv]), fun v' hv' _ => ⟨ht, ?_, ?_⟩⟩
        · rw [hs]
          cases p with
          | none    => exact good_isNull
          | some p' => exact h.value p' rfl (by simp [hv]) hn
        · cases hv.symm.trans hv'
          rw [hval]
          by_cases hc : w.type = .chars
          · simp [hc]
          · rw [if_neg hc, if_neg hc]
            exact native_clone_mem_iff.mpr (h.copy v hv hn)

end Assignment

open Assignment

-- Whether a name is that of a key the instance was made with.
def isKeyOf (cop : Option CMPIObjectPath) (n : Text) : Prop :=
  ∃ k ∈ (cop.elim [] (·.keys)), k.name.lower = n.lower

-- What a history of calls makes of the property with a name.
structure ReadsBack (cop : Option CMPIObjectPath) (ws : List Assignment) (n : Text) : Prop where
  never  : ∀ ci ci', newCMPIInstance cop = .ok ci → run ci ws = .ok ci' → (∀ w ∈ ws, ¬ w.Names n) →
    ¬ isKeyOf cop n → getProperty ci'.props n = none
  others : ∀ (ci ci' : CMPIInstance) (w : Assignment) (ci'' : CMPIInstance), newCMPIInstance cop = .ok ci → run ci ws = .ok ci' → ¬ w.Names n →
    ci'.setProperty (some w.name) w.value w.type = .ok ci'' → getProperty ci''.props n = getProperty ci'.props n
  last   : ∀ (ci ci' : CMPIInstance) before w after, newCMPIInstance cop = .ok ci → run ci ws = .ok ci' →
    ws = before ++ w :: after → w.Names n → (∀ w' ∈ after, ¬ w'.Names n) →
    ∃ p, getProperty ci'.props n = some p ∧ w.ReadBy p

-- The last call for a name is of the right kind for what the calls before it left there.
def LastKind (cop : Option CMPIObjectPath) (ws : List Assignment) (n : Text) : Prop :=
  ∀ (ci ci' : CMPIInstance) before w after, newCMPIInstance cop = .ok ci → run ci before = .ok ci' →
    ws = before ++ w :: after → w.Names n → (∀ w' ∈ after, ¬ w'.Names n) → w.Kind (getProperty ci'.props n)

theorem get_foldl_others {ws : List Assignment} {n : Text} (h : ∀ w ∈ ws, ¬ w.Names n)
    (props : List (NativeProperty CMPIValue)) :
    getProperty (ws.foldl (fun props w => w.on props) props) n = getProperty props n := by
  classical
  induction ws generalizing props with
  | nil          => rfl
  | cons w ws hi =>
    have ⟨hw, hws⟩ := List.forall_mem_cons.mp h
    have hg := get_on w props n
    rw [if_neg hw] at hg
    exact (hi hws (w.on props)).trans hg

-- The properties of a new instance are its keys.
theorem newCMPIInstance_none {cop : Option CMPIObjectPath} {ci : CMPIInstance} {n : Text}
    (h : newCMPIInstance cop = .ok ci) (hn : ¬ isKeyOf cop n) : getProperty ci.props n = none := by
  cases cop with
  | none     =>
    cases h
    rfl
  | some cop =>
    have ⟨_, _, h⟩ := deref_bind h
    cases h
    have hk (keys props : List (NativeProperty CMPIValue)) (hkeys : ∀ k ∈ keys, ¬ k.name.lower = n.lower)
        (hp : getProperty props n = none) :
        getProperty (keys.foldl (fun props key => addProperty props key.name key.type key.state key.value) props) n = none := by
      induction keys generalizing props with
      | nil            => exact hp
      | cons k keys hi =>
        have ⟨hk, hkeys⟩ := List.forall_mem_cons.mp hkeys
        apply hi _ hkeys
        have hg := @Named.get_add _ NativeProperty.name (.new k.name k.type k.state k.value) props k.name
          (NativeProperty.new_name ..) n
        rw [if_neg hk] at hg
        exact hg.trans hp
    apply hk _ _ _ rfl
    intro k hk he
    exact hn ⟨k, List.mem_reverse.mp hk, he⟩

theorem readsBack_iff (cop : Option CMPIObjectPath) (ws : List Assignment) (n : Text) :
    ReadsBack cop ws n ↔ LastKind cop ws n := by
  classical
  have hlast {ci ci' ci'' : CMPIInstance} {before after : List Assignment} {w : Assignment}
      (hb : run ci before = .ok ci') (hr : run ci ws = .ok ci'') (hws : ws = before ++ w :: after)
      (hw : w.Names n) (ha : ∀ w' ∈ after, ¬ w'.Names n) :
      getProperty ci''.props n = some (w.left (getProperty ci'.props n)) := by
    subst hws
    rw [run_eq] at hb hr
    cases hb
    cases hr
    have hg := get_on w (before.foldl (fun props w => w.on props) ci.props) n
    rw [if_pos hw] at hg
    rw [List.foldl_append, List.foldl_cons, get_foldl_others ha]
    exact hg
  constructor
  · intro h ci ci' before w after hci hb hws hw ha
    have ⟨p, hp, hread⟩ := h.last ci _ before w after hci (run_eq ci ws) hws hw ha
    rw [hlast hb (run_eq ci ws) hws hw ha] at hp
    cases hp
    exact (readBy_iff w _).mp hread
  · intro h
    refine ⟨?_, ?_, ?_⟩
    · intro ci ci' hci hr hn hk
      rw [run_eq] at hr
      cases hr
      exact (get_foldl_others hn ci.props).trans (newCMPIInstance_none hci hk)
    · intro ci ci' w ci'' _ _ hw hs
      rw [setProperty_eq] at hs
      cases hs
      have hg := get_on w ci'.props n
      rw [if_neg hw] at hg
      exact hg
    · intro ci ci' before w after hci hr hws hw ha
      have hk := h ci _ before w after hci (run_eq ci before) hws hw ha
      exact ⟨_, hlast (run_eq ci before) hr hws hw ha, (readBy_iff w _).mpr hk⟩

theorem not_readsBack_again : ¬ ∀ (cop : Option CMPIObjectPath) ws n, ReadsBack cop ws n := by
  intro h
  let ws : List Assignment := [⟨bytes "p", none, .boolean⟩, ⟨bytes "p", some (.boolean true), .boolean⟩]
  have ⟨p, hp, hread⟩ := (h none ws (bytes "p")).last {} _ [⟨bytes "p", none, .boolean⟩]
    ⟨bytes "p", some (.boolean true), .boolean⟩ [] rfl (run_eq {} ws) rfl rfl nofun
  cases hp
  have ⟨_, hs, _⟩ := hread.value (.boolean true) rfl (by decide)
  cases hs

end Sfcc
