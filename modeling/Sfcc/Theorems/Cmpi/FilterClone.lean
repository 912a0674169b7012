import Sfcc.Theorems.Cmpi.Filter

-- What an instance and its copy do when properties are set.
namespace Sfcc

-- What a getter returns of a property. The value of one that is null means nothing.
def NativeProperty.view (p : NativeProperty CMPIValue) : CMPIType × CMPIValueState × Option CMPIValue :=
  (p.type, p.state, if p.state.isNull then none else some p.value)

-- What the getters of an instance return.
structure Observation where
  property      : Text → Option (CMPIType × CMPIValueState × Option CMPIValue)
  propertyAt    : ℕ → Option (Text × CMPIType × CMPIValueState × Option CMPIValue)
  propertyCount : ℕ
  objectPath    : Except Fault CMPIObjectPath

def NativeInstance.observe (ci : CMPIInstance) : Observation where
  property n    := (getProperty ci.props n).map NativeProperty.view
  propertyAt k  := ci.props[k]?.map fun p => (p.name, p.view)
  propertyCount := ci.props.length
  objectPath    := ci.getObjectPath

namespace FilterCall

-- The values are such as can be made.
def Made : FilterCall → Prop
  | .setProperty w       => ∀ v ∈ w.value, v.Made
  | .setPropertyFilter _ => True

-- Two instances that are the same to their users, whatever is set on both.
def Alike (i c : FilteredInstance) : Prop :=
  ∀ ws : List Assignment, ∃ i' c', run i (ws.map .setProperty) = .ok i' ∧
    run c (ws.map .setProperty) = .ok c' ∧ i'.toNativeInstance.observe = c'.toNativeInstance.observe

-- No filter was set, or the last one has no list of properties, and the copy of its list of keys has
-- an end.
def Unfiltered (calls : List FilterCall) : Prop :=
  ∀ f ∈ latest none calls, f.propertyList = none ∧ (f.keys.isSome → f.lastKey = .null)

end FilterCall

-- A property whose value was copied when it was set.
structure NativeProperty.Copied (p : NativeProperty CMPIValue) : Prop where
  state : p.state ≠ .bad
  value : p.state ≠ .null → native_clone_CMPIValue p.type p.value = p.value

-- The same property but for its qualifiers, and for its value if it is null.
structure NativeProperty.Like (p q : NativeProperty CMPIValue) : Prop where
  name  : q.name = p.name
  type  : q.type = p.type
  state : q.state = p.state
  value : p.state ≠ .null → q.value = p.value

section Copied

variable {name : Text} {type : CMPIType} {state : CMPIValueState} {value : Option CMPIValue} {v : CMPIValue}
variable {p q : NativeProperty CMPIValue}

theorem bad_ne_null : CMPIValueState.null ≠ .bad := by
  decide

theorem NativeProperty.new_copied (hv : v.Flat) (hs : state ≠ .bad) :
    (NativeProperty.new name type state v).Copied := by
  rw [NativeProperty.new]
  split
  · split
    · exact ⟨hs, fun _ => native_clone_charsValue (some v)⟩
    · exact ⟨hs, fun _ => native_clone_again hv⟩
  · exact ⟨bad_ne_null, fun h => absurd rfl h⟩

theorem NativeProperty.Copied.replace (hp : p.Copied) (hv : ∀ v ∈ value, v.Flat) :
    (p.replace type value).Copied := by
  unfold NativeProperty.replace
  split
  · exact ⟨hp.state, fun _ => native_clone_charsValue value⟩
  · cases value with
    | none   => exact ⟨bad_ne_null, fun h => absurd rfl h⟩
    | some v =>
      simp only
      split
      · exact ⟨hp.state, fun _ => native_clone_again (hv v rfl)⟩
      · exact ⟨bad_ne_null, fun h => absurd rfl h⟩

theorem cloneProperties_like : ∀ props : List (NativeProperty CMPIValue), (∀ p ∈ props, p.Copied) →
    List.Forall₂ NativeProperty.Like props (cloneProperties props)
  | [], _                                          => .nil
  | ⟨name, type, state, value, quals⟩ :: props, h => by
    have ⟨hp, hprops⟩ := List.forall_mem_cons.mp h
    refine .cons ⟨rfl, rfl, rfl, fun hn => ?_⟩ (cloneProperties_like props hprops)
    have hs : ¬ (state = .null ∨ state = .bad) := fun hs => hs.elim hn hp.state
    exact (if_neg hs).trans (hp.value hn)

theorem NativeProperty.Like.replace (h : p.Like q) : (p.replace type value).Like (q.replace type value) := by
  unfold NativeProperty.replace
  split
  · exact ⟨h.name, rfl, h.state, fun _ => rfl⟩
  · cases value with
    | none   => exact ⟨h.name, rfl, rfl, fun hn => absurd rfl hn⟩
    | some v =>
      simp only
      split
      · exact ⟨h.name, rfl, h.state, fun _ => rfl⟩
      · exact ⟨h.name, rfl, rfl, fun hn => absurd rfl hn⟩

theorem NativeProperty.Like.refl (p : NativeProperty CMPIValue) : p.Like p :=
  ⟨rfl, rfl, rfl, fun _ => rfl⟩

theorem NativeProperty.Like.view (h : p.Like q) : q.view = p.view := by
  have hv : p.state.isNull = false → q.value = p.value := by
    intro hs
    apply h.value
    intro hn
    rw [hn] at hs
    cases hs
  rw [NativeProperty.view, NativeProperty.view, h.type, h.state]
  cases hs : p.state.isNull with
  | true  => rfl
  | false => rw [hv hs]

end Copied

namespace Named

variable {P : Type} {name : P → Text} {R : P → P → Prop} {f : P → P} {new : P} {l m : List P}

theorem get_forall₂ (hn : ∀ p q, R p q → name q = name p) (h : List.Forall₂ R l m) (n : Text) :
    Option.Rel R (get name l n) (get name m n) := by
  induction h with
  | nil               => exact .none
  | @cons p q l m hp _ hi =>
    by_cases hs : sameIgnoringCase (name p) n
    · simpa [get, hn p q hp, hs] using hp
    · simpa [get, hn p q hp, hs] using hi

theorem set_forall₂ (hn : ∀ p q, R p q → name q = name p) (hf : ∀ p q, R p q → R (f p) (f q))
    (h : List.Forall₂ R l m) (n : Text) : Option.Rel (List.Forall₂ R) (set name f l n) (set name f m n) := by
  induction h with
  | nil                    => exact .none
  | @cons p q l m hp hl hi =>
    rw [set, set, hn p q hp]
    by_cases hs : sameIgnoringCase (name p) n
    · simpa [hs] using ⟨hf p q hp, hl⟩
    · rw [if_neg hs, if_neg hs]
      generalize set name f l n = x at hi ⊢
      generalize set name f m n = y at hi ⊢
      cases hi with
      | none   => exact .none
      | some h => exact .some (.cons hp h)

theorem setOrAdd_forall₂ (hn : ∀ p q, R p q → name q = name p) (hf : ∀ p q, R p q → R (f p) (f q))
    (hnew : R new new) (h : List.Forall₂ R l m) (n : Text) :
    List.Forall₂ R (setOrAdd name f new l n) (setOrAdd name f new m n) := by
  have hs := set_forall₂ hn hf h n
  have hl := @set_none_iff _ name f l n
  have hm := @set_none_iff _ name f m n
  rw [setOrAdd, setOrAdd, add, add]
  generalize set name f l n = x at hs hl ⊢
  generalize set name f m n = y at hs hm ⊢
  cases hs with
  | some h' => exact h'
  | none    =>
    rw [hl.mp rfl, hm.mp rfl]
    exact List.rel_append h (.cons hnew .nil)

end Named

section Alike

variable {l m : List (NativeProperty CMPIValue)} {ci cj : CMPIInstance}

theorem Assignment.on_like (w : Assignment) (h : List.Forall₂ NativeProperty.Like l m) :
    List.Forall₂ NativeProperty.Like (w.on l) (w.on m) :=
  Named.setOrAdd_forall₂ (fun _ _ h => h.name) (fun _ _ h => h.replace) (.refl _) h w.name

-- A property that does not exist is added.
theorem Assignment.on_of_not_mem {w : Assignment} (h : ∀ p ∈ l, ¬ p.name.lower = w.name.lower) :
    w.on l = l ++ [.new w.name w.type w.state (w.value.getD .zero)] := by
  have hs : Named.set NativeProperty.name (.replace w.type w.value) l w.name = none :=
    Named.set_none_iff.mpr (Named.get_none_iff.mpr h)
  rw [on, Named.setOrAdd, hs]
  exact Named.add_of_not_mem h

theorem Assignment.foldl_on_like (ws : List Assignment) (h : List.Forall₂ NativeProperty.Like l m) :
    List.Forall₂ NativeProperty.Like (ws.foldl (fun props w => w.on props) l)
      (ws.foldl (fun props w => w.on props) m) := by
  induction ws generalizing l m with
  | nil          => exact h
  | cons w ws hi => exact hi (w.on_like h)

-- A key is added with its value, and a property that is null is not a key.
theorem addKey_like {p q : NativeProperty CMPIValue} (h : p.Like q) (cop : CMPIObjectPath) :
    (if q.state.isKey then cop.addKey (some q.name) (some q.value) q.type else return cop) =
      if p.state.isKey then cop.addKey (some p.name) (some p.value) p.type else return cop := by
  rw [h.name, h.type, h.state]
  by_cases hk : p.state.isKey
  · have hn : p.state ≠ .null := by
      intro hn
      rw [hn] at hk
      cases hk
    rw [if_pos hk, if_pos hk, h.value hn]
  · rw [if_neg hk, if_neg hk]

theorem getObjectPath_like (h : List.Forall₂ NativeProperty.Like ci.props cj.props)
    (hc : cj.classname = ci.classname) (hs : cj.nameSpace = ci.nameSpace) :
    cj.getObjectPath = ci.getObjectPath := by
  have hr : List.Forall₂ NativeProperty.Like ci.props.reverse cj.props.reverse := List.rel_reverse h
  rw [NativeInstance.getObjectPath, NativeInstance.getObjectPath, hc, hs]
  generalize newCMPIObjectPath ci.nameSpace ci.classname = cop
  generalize ci.props.reverse = l at hr ⊢
  generalize cj.props.reverse = m at hr ⊢
  induction hr generalizing cop with
  | nil          => rfl
  | cons hp _ hi =>
    rw [List.foldlM_cons, List.foldlM_cons, addKey_like hp]
    exact congrArg (bind _) (funext hi)

theorem views_like (h : List.Forall₂ NativeProperty.Like l m) :
    l.map (fun p => (p.name, p.view)) = m.map fun p => (p.name, p.view) := by
  induction h with
  | nil          => rfl
  | cons hp _ hi => rw [List.map_cons, List.map_cons, hi, hp.name, hp.view]

theorem observe_like (h : List.Forall₂ NativeProperty.Like ci.props cj.props)
    (hc : cj.classname = ci.classname) (hs : cj.nameSpace = ci.nameSpace) : ci.observe = cj.observe := by
  have hp (n : Text) : (getProperty ci.props n).map NativeProperty.view =
      (getProperty cj.props n).map NativeProperty.view := by
    have hg : Option.Rel NativeProperty.Like (getProperty ci.props n) (getProperty cj.props n) :=
      Named.get_forall₂ (fun _ _ h => h.name) h n
    generalize getProperty ci.props n = p at hg ⊢
    generalize getProperty cj.props n = q at hg ⊢
    cases hg with
    | none   => rfl
    | some h => exact congrArg some h.view.symm
  have hat (k : ℕ) : (ci.props[k]?.map fun p => (p.name, p.view)) = cj.props[k]?.map fun p => (p.name, p.view) := by
    rw [← List.getElem?_map, ← List.getElem?_map, views_like h]
  simp only [NativeInstance.observe, hp, hat, h.length_eq, getObjectPath_like h hc hs]

end Alike

namespace FilterCall

section

variable {i c i' : FilteredInstance} {calls : List FilterCall} {f : Option Filter}

-- Without a list of properties, everything is set.
theorem run_open (h : i.filtered = false ∨ i.property_list = none) (ws : List Assignment) :
    run i (ws.map .setProperty) = .ok { i with props := ws.foldl (fun props w => w.on props) i.props } := by
  induction ws generalizing i with
  | nil          => rfl
  | cons w ws hi =>
    have ha : i.accepts (some w.name) = .ok true := by
      have hc : ¬ i.filtered ∨ i.property_list.isNone := by
        cases h with
        | inl h => simp [h]
        | inr h => simp [h]
      rw [FilteredInstance.accepts, if_pos hc]
      rfl
    have hs : on i (.setProperty w) = .ok { i with props := w.on i.props } := setProperty_ok ha
    have hr : run { i with props := w.on i.props } (ws.map .setProperty) = _ := hi h
    rw [List.map_cons, run, List.foldlM_cons, hs]
    exact hr

-- The properties of an instance that was filled hold copies.
theorem on_copied {call : FilterCall} (hm : call.Made) (hi : ∀ p ∈ i.props, p.Copied) (h : Has i f)
    (ho : on i call = .ok i') : ∀ p ∈ i'.props, p.Copied := by
  cases call with
  | setProperty w       =>
    have hv : ∀ v ∈ w.value, v.Flat := fun v hv => (hm v hv).flat
    have hs : w.state ≠ .bad := by
      rw [Assignment.state]
      split <;> decide
    cases (setProperty_has h ho).2 with
    | inl he =>
      rw [he]
      exact hi
    | inr he =>
      have hz : (w.value.getD .zero).Flat := by
        cases hw : w.value with
        | none   => trivial
        | some v => exact hv v hw
      rw [he]
      exact Named.forall_setOrAdd hi (fun _ hp => hp.replace hv) (NativeProperty.new_copied hz hs)
  | setPropertyFilter g =>
    obtain ⟨_, he⟩ := (setPropertyFilter_iff h g).mp ho
    rw [he]
    exact hi

theorem run_copied (hm : ∀ call ∈ calls, call.Made) (hi : ∀ p ∈ i.props, p.Copied) (h : Has i f)
    (hr : run i calls = .ok i') : ∀ p ∈ i'.props, p.Copied := by
  induction calls generalizing i f with
  | nil                =>
    cases hr
    exact hi
  | cons call calls hc =>
    have ⟨i₁, h₁, hr⟩ := ok_bind.mp hr
    have ⟨hm₁, hm₂⟩ := List.forall_mem_cons.mp hm
    exact hc hm₂ (on_copied hm₁ hi h h₁) (on_has h h₁) hr

theorem newCMPIInstance_copied {cop : Option CMPIObjectPath} {ci : CMPIInstance}
    (hc : ∀ p ∈ cop, NativeCop.Built p) (h : newCMPIInstance cop = .ok ci) : ∀ p ∈ ci.props, p.Copied := by
  cases cop with
  | none   =>
    cases h
    exact fun _ hp => absurd hp List.not_mem_nil
  | some p =>
    have ⟨_, _, h⟩ := deref_bind h
    cases h
    have hk := (NativeCop.Built.kept (fun _ => False) (hc p rfl)).keys
    have hf (keys props : List (NativeProperty CMPIValue)) (hkeys : ∀ k ∈ keys, k.Kept fun _ => False)
        (hprops : ∀ q ∈ props, q.Copied) : ∀ q ∈ keys.foldl (fun props key =>
          addProperty props key.name key.type key.state key.value) props, q.Copied := by
      induction keys generalizing props with
      | nil            => exact hprops
      | cons k keys hi =>
        have ⟨hk₁, hk₂⟩ := List.forall_mem_cons.mp hkeys
        exact hi _ hk₂ (Named.forall_add hprops (NativeProperty.new_copied hk₁.flat hk₁.bad))
    exact hf _ [] (fun k hm => hk k (List.mem_reverse.mp hm)) fun _ hq => absurd hq List.not_mem_nil

def Word.name? : Word → Option Text
  | .name t => some t
  | _       => none

-- A name that is none of some others, ignoring case.
theorem exists_fresh (names : List Text) : ∃ n : Text, ∀ m ∈ names, ¬ m.lower = n.lower := by
  refine ⟨.replicate (names.flatten.length + 1) 97, fun m hm he => ?_⟩
  have hl := (List.sublist_flatten_of_mem hm).length_le
  have hlen := congrArg List.length he
  simp only [Text.lower, List.length_map, List.length_replicate] at hlen
  omega

theorem duplicate_list_copy (last last' : Word) (list : Option (List Text)) :
    duplicate_list last' (Filter.copy last list) =
      if list.isSome → last = .null then .ok (Filter.copy last' list) else .error .wild := by
  cases list with
  | none      => rfl
  | some list =>
    have hd : duplicate_list last' (Filter.copy last (some list)) =
        (fun l => some (l.map .name ++ [last'])) <$> Block.names (list.map .name ++ [last]) := rfl
    rw [hd, Block.names_copy]
    by_cases hl : last = .null
    · simp [hl, Filter.copy]
    · simp [hl]

-- What a copy has of the fields of an instance.
theorem clone_ok {lastProperty lastKey : Word} (h : i.clone lastProperty lastKey = .ok c) :
    c.filtered = false ∧ c.props = cloneProperties i.props ∧ c.classname = i.classname ∧
      c.nameSpace = i.nameSpace ∧ ∃ block, duplicate_list lastKey i.key_list = .ok block := by
  have ⟨_, _, h⟩ := ok_bind.mp h
  have ⟨block, hb, h⟩ := ok_bind.mp h
  cases h
  exact ⟨rfl, rfl, rfl, rfl, block, hb⟩

-- A filter with a list of properties keeps out a name that is in none of its lists.
theorem on_fresh {w : Assignment} {block : Block} (hf : i.filtered = true) (hp : i.property_list = some block)
    (hn : ∀ m, .name m ∈ block ++ i.key_list.getD [] → ¬ m.lower = w.name.lower)
    (ho : on i (.setProperty w) = .ok i') : i' = i := by
  have ⟨b, ha, ho⟩ := ok_bind.mp ho
  have hb : b = false := by
    rw [accepts_filtered hf hp] at ha
    have ⟨found, hfound, ha⟩ := ok_bind.mp ha
    have hnf : found ≠ true := by
      intro ht
      rw [ht] at hfound
      refine Block.contained_of_not_mem (fun m hm => ?_) hfound
      simpa using hn m (List.mem_append_left _ hm)
    rw [if_neg hnf] at ha
    cases hk : i.key_list with
    | none      =>
      rw [hk] at ha
      cases ha
      rfl
    | some keys =>
      rw [hk] at ha hn
      cases b with
      | false => rfl
      | true  =>
        refine absurd ha (Block.contained_of_not_mem fun m hm => ?_)
        simpa using hn m (List.mem_append_right _ hm)
  rw [hb] at ho
  cases ho
  rfl

end

-- `filtered` is lost in a copy, so a list of properties no longer has an effect.
theorem alike_iff_unfiltered {cop : Option CMPIObjectPath} {i₀ i : FilteredInstance} {calls : List FilterCall}
    (hc : ∀ p ∈ cop, NativeCop.Built p) (hn : FilteredInstance.new cop = .ok i₀)
    (hm : ∀ call ∈ calls, call.Made) (hr : run i₀ calls = .ok i) (lastProperty lastKey : Word) :
    (∃ c, i.clone lastProperty lastKey = .ok c ∧ Alike i c) ↔ Unfiltered calls := by
  obtain ⟨ci, hci, hn⟩ := ok_bind.mp hn
  cases hn
  have h := run_has (new_has ci) hr
  have hp := run_copied hm (newCMPIInstance_copied hc hci) (new_has ci) hr
  constructor
  · intro ha f hf
    obtain ⟨c, hclone, ha⟩ := ha
    obtain ⟨hcf, hcp, _, _, block, hb⟩ := clone_ok hclone
    rw [hf] at h
    constructor
    · cases hl : f.propertyList with
      | none      => rfl
      | some list =>
        have hpl : i.property_list = some (list.map .name ++ [f.lastProperty]) := by
          simp [h.property, hl, Filter.copy]
        obtain ⟨n, hn⟩ := exists_fresh ((list.map Word.name ++ [f.lastProperty] ++ i.key_list.getD []).filterMap Word.name? ++
          i.props.map (·.name))
        let w : Assignment := ⟨n, some (.boolean true), .boolean⟩
        obtain ⟨i', c', hi', hc', ho⟩ := ha [w]
        obtain ⟨i₁, hi₁, hnil⟩ := ok_bind.mp hi'
        cases hnil
        have hsame : i' = i := by
          refine on_fresh h.filtered hpl (fun m hm => hn m ?_) hi₁
          exact List.mem_append_left _ (List.mem_filterMap.mpr ⟨.name m, hm, rfl⟩)
        rw [run_open (.inl hcf) [w]] at hc'
        cases hc'
        have hcount : i'.props.length = (w.on c.props).length := congrArg Observation.propertyCount ho
        have hfresh : ∀ p ∈ c.props, ¬ p.name.lower = n.lower := by
          intro p hp
          have hmem : p.name ∈ c.props.map (·.name) := List.mem_map_of_mem hp
          rw [hcp, cloneProperties_names] at hmem
          exact hn _ (List.mem_append_right _ hmem)
        have hnew := Assignment.on_of_not_mem (w := w) hfresh
        have hlen : c.props.length = i.props.length := by
          rw [hcp, ← List.length_map (·.name), cloneProperties_names, List.length_map]
        rw [hsame, hnew, List.length_append, hlen] at hcount
        simp at hcount
    · intro hk
      have hkey : i.key_list = Filter.copy f.lastKey f.keys := h.key
      rw [hkey, duplicate_list_copy] at hb
      split at hb
      case isTrue ht  => exact ht hk
      case isFalse ht => cases hb
  · intro hu
    obtain ⟨hopen, pl, hpl, kl, hkl⟩ : (i.filtered = false ∨ i.property_list = none) ∧
        ∃ pl, duplicate_list lastProperty i.property_list = .ok pl ∧
        ∃ kl, duplicate_list lastKey i.key_list = .ok kl := by
      have hf := h.filtered
      have hpl := h.property
      have hkl := h.key
      cases hl : latest none calls with
      | none   =>
        rw [hl] at hf hpl hkl
        rw [hpl, hkl]
        exact ⟨.inl hf, _, rfl, _, rfl⟩
      | some f =>
        obtain ⟨hn, hk⟩ := hu f hl
        rw [hl] at hpl hkl
        have hnone : i.property_list = none := by simp [hpl, hn, Filter.copy]
        have hkey : i.key_list = Filter.copy f.lastKey f.keys := hkl
        rw [hnone, hkey, duplicate_list_copy, if_pos hk]
        exact ⟨.inr rfl, _, rfl, _, rfl⟩
    have hclone : i.clone lastProperty lastKey = .ok {
        toNativeInstance := i.toNativeInstance.clone
        property_list    := pl
        key_list         := kl } := by
      simp only [FilteredInstance.clone, hpl, hkl]
      rfl
    refine ⟨_, hclone, fun ws => ⟨_, _, run_open hopen ws, run_open (.inl rfl) ws, ?_⟩⟩
    exact observe_like (Assignment.foldl_on_like ws (cloneProperties_like _ hp)) rfl rfl

-- A path with a key, and calls for its instance, one of which sets a filter that keeps out the owner.
def diskPath : CMPIObjectPath where
  nameSpace := some (bytes "root")
  classname := some (bytes "Disk")
  keys      := [⟨bytes "Name", .string, .key, .string (bytes "sda"), []⟩]

def diskCalls : List FilterCall := [
  .setProperty ⟨bytes "Size", some (.uint64 5), .uint64⟩,
  .setPropertyFilter ⟨some [bytes "SIZE"], some [bytes "Name"], .null, .null⟩,
  .setProperty ⟨bytes "Owner", some (.string (bytes "root")), .string⟩,
  .setProperty ⟨bytes "size", some (.uint64 7), .uint64⟩
]

theorem diskPath_built : diskPath.Built := by
  have hv : CMPIValue.Made (.string (bytes "sda")) := .leaf trivial
  have ha : (newCMPIObjectPath (some (bytes "root")) (some (bytes "Disk"))).addKey (some (bytes "Name"))
    (some (.string (bytes "sda"))) .string = .ok diskPath := rfl
  exact .addKey (.new _ _) (fun _ h => Option.some.inj h ▸ hv) ha

theorem diskCalls_made : ∀ call ∈ diskCalls, call.Made := by
  have hleaf {v : CMPIValue} (hv : v.Leaf) : ∀ w ∈ some v, w.Made := fun _ h => Option.some.inj h ▸ .leaf hv
  simp only [diskCalls, List.forall_mem_cons]
  exact ⟨hleaf trivial, trivial, hleaf trivial, hleaf trivial, nofun⟩

theorem alike_iff_unfiltered_disk : ∃ i₀ i, FilteredInstance.new (some diskPath) = .ok i₀ ∧ run i₀ diskCalls = .ok i ∧
    ∀ lastProperty lastKey,
      (∃ c, i.clone lastProperty lastKey = .ok c ∧ Alike i c) ↔ Unfiltered diskCalls := by
  have hc : ∀ p ∈ some diskPath, NativeCop.Built p := fun _ h => Option.some.inj h ▸ diskPath_built
  refine ⟨_, _, rfl, rfl, fun lastProperty lastKey => ?_⟩
  exact alike_iff_unfiltered hc rfl diskCalls_made rfl lastProperty lastKey

-- A property that the filter keeps out is set in the copy.
theorem not_alike_filtered : ¬ ∀ (cop : Option CMPIObjectPath) i₀ i calls, (∀ p ∈ cop, NativeCop.Built p) →
    FilteredInstance.new cop = .ok i₀ → (∀ call ∈ calls, FilterCall.Made call) → run i₀ calls = .ok i →
    ∀ lastProperty lastKey, ∃ c, i.clone lastProperty lastKey = .ok c ∧ Alike i c := by
  intro h
  have hm : ∀ call ∈ [FilterCall.setPropertyFilter ⟨some [], none, .null, .null⟩], call.Made := by
    intro call hcall
    cases List.mem_singleton.mp hcall
    trivial
  have ⟨c, hc, ha⟩ := h none {} _ _ nofun rfl hm rfl .null .null
  cases hc
  have ⟨i', c', hi, hc, ho⟩ := ha [⟨[97], some (.boolean true), .boolean⟩]
  cases hi
  cases hc
  cases congrArg Observation.propertyCount ho

end FilterCall

end Sfcc
