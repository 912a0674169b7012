import Sfcc.Cmpi.Filter
import Sfcc.Theorems.Cmpi.Built
import Sfcc.Theorems.Cmpi.Writes

-- What the filter of an instance lets through, and what a copy of the instance does.
namespace Sfcc

-- The lists of a filter, with what `malloc` left at the ends of their copies.
structure Filter where
  propertyList : Option (List Text)
  keys         : Option (List Text)
  lastProperty : Word
  lastKey      : Word

namespace Filter

def copy (last : Word) (list : Option (List Text)) : Option Block :=
  list.map fun list => list.map .name ++ [last]

structure Terminated (f : Filter) : Prop where
  property : f.propertyList.isSome → f.lastProperty = .null
  key      : f.keys.isSome → f.lastKey = .null

end Filter

inductive FilterCall
  | setProperty (w : Assignment)
  | setPropertyFilter (f : Filter)

namespace FilterCall

def on (i : FilteredInstance) : FilterCall → Except Fault FilteredInstance
  | .setProperty w       => i.setProperty (some w.name) w.value w.type
  | .setPropertyFilter f => i.setPropertyFilter f.propertyList f.keys f.lastProperty f.lastKey

def run (i : FilteredInstance) (calls : List FilterCall) : Except Fault FilteredInstance :=
  calls.foldlM on i

def filter? : FilterCall → Option Filter
  | .setProperty _       => none
  | .setPropertyFilter f => some f

-- The filter that was set last, where `f` was set before the calls.
def latest (f : Option Filter) (calls : List FilterCall) : Option Filter :=
  calls.foldl (fun f call => call.filter?.or f) f

-- Whether a name is to be accepted: no filter was set or it has no list, or the name is in a list.
def Accepted (f : Option Filter) (n : Text) : Prop :=
  ∀ g ∈ f, ∀ list ∈ g.propertyList, ∃ m ∈ list ++ g.keys.getD [], sameIgnoringCase m n

-- What a history is to leave of an instance: the copies of the lists end in `NULL`, and a property is
-- set if its name is accepted.
def FiltersExactly (ci : CMPIInstance) (calls : List FilterCall) : Prop :=
  ∃ i, run { toNativeInstance := ci } calls = .ok i ∧
    (∀ block, i.property_list = some block ∨ i.key_list = some block →
      ∃ list, block = Block.terminated list) ∧
    ∀ w : Assignment,
      (Accepted (latest none calls) w.name → i.setProperty (some w.name) w.value w.type =
        .ok { i with props := w.on i.props }) ∧
      (¬ Accepted (latest none calls) w.name → i.setProperty (some w.name) w.value w.type = .ok i)

end FilterCall

namespace Block

variable {last : Word} {list : List Text}

theorem names_copy (last : Word) (list : List Text) :
    names (list.map .name ++ [last]) = if last = .null then .ok list else .error .wild := by
  induction list with
  | nil            => cases last <;> rfl
  | cons t list hi =>
    simp only [List.map_cons, List.cons_append, names, hi]
    split <;> rfl

theorem contained_terminated (n : Text) (list : List Text) :
    contained (some n) (terminated list) = .ok (list.any fun m => sameIgnoringCase m n) := by
  induction list with
  | nil            => rfl
  | cons t list hi =>
    have hc : contained (some n) (terminated (t :: list)) =
        if sameIgnoringCase t n then .ok true else contained (some n) (terminated list) := rfl
    rw [hc, hi, List.any_cons]
    cases sameIgnoringCase t n <;> rfl

-- A name that is nowhere in the memory of a list is not found.
theorem contained_of_not_mem {n : Text} {block : Block} (h : ∀ m, .name m ∈ block → ¬ sameIgnoringCase m n) :
    contained (some n) block ≠ .ok true := by
  induction block with
  | nil             => exact nofun
  | cons word block hi =>
    cases word with
    | null    => exact nofun
    | garbage => exact nofun
    | name t  =>
      have hc : contained (some n) (.name t :: block) =
        if sameIgnoringCase t n then .ok true else contained (some n) block := rfl
      rw [hc, if_neg (h t (List.mem_cons_self ..))]
      exact hi fun m hm => h m (List.mem_cons_of_mem _ hm)

end Block

theorem release_list_copy (last : Word) (list : Option (List Text)) : release_list (Filter.copy last list) =
    if list.isSome → last = .null then .ok () else .error .wild := by
  cases list with
  | none      => rfl
  | some list =>
    have hr : release_list (Filter.copy last (some list)) = (fun _ => ()) <$> Block.names (list.map .name ++ [last]) :=
      rfl
    rw [hr, Block.names_copy]
    by_cases hl : last = .null
    · simp [hl]
    · simp [hl]

theorem duplicate_list_terminated (last : Word) (list : Option (List Text)) :
    duplicate_list last (list.map Block.terminated) = .ok (Filter.copy last list) := by
  cases list with
  | none      => rfl
  | some list =>
    have hn : (Block.terminated list).names = .ok list := Block.names_copy .null list
    have hd : duplicate_list last (some (Block.terminated list)) =
        (fun l => some (l.map .name ++ [last])) <$> (Block.terminated list).names := rfl
    rw [Option.map_some, hd, hn]
    rfl

namespace FilterCall

-- The filter that an instance has.
structure Has (i : FilteredInstance) (f : Option Filter) : Prop where
  filtered : i.filtered = f.isSome
  property : i.property_list = f.bind fun f => Filter.copy f.lastProperty f.propertyList
  key      : i.key_list = f.bind fun f => Filter.copy f.lastKey f.keys

section

variable {i i' : FilteredInstance} {f : Option Filter} {calls : List FilterCall}

-- The fields of an instance that are not about the filter.
theorem setProperty_has (h : Has i f) {w : Assignment} (hs : on i (.setProperty w) = .ok i') :
    Has i' f ∧ (i' = i ∨ i' = { i with props := w.on i.props }) := by
  have ⟨accepted, _, hs⟩ := ok_bind.mp hs
  cases accepted with
  | false =>
    cases hs
    exact ⟨h, .inl rfl⟩
  | true  =>
    have ⟨ci, hci, hs⟩ := ok_bind.mp hs
    rw [Assignment.setProperty_eq] at hci
    cases hci
    cases hs
    exact ⟨⟨h.filtered, h.property, h.key⟩, .inr rfl⟩

-- The fields of an instance after a filter was set.
def filteredBy (i : FilteredInstance) (g : Filter) : FilteredInstance :=
  { i with
    filtered      := true
    property_list := Filter.copy g.lastProperty g.propertyList
    key_list      := Filter.copy g.lastKey g.keys }

theorem filteredBy_has (i : FilteredInstance) (g : Filter) : Has (filteredBy i g) (some g) :=
  ⟨rfl, rfl, rfl⟩

-- A filter can only be replaced if the copies of its lists end in `NULL`.
theorem setPropertyFilter_iff (h : Has i f) (g : Filter) : on i (.setPropertyFilter g) = .ok i' ↔
    (∀ f' ∈ f, f'.Terminated) ∧ i' = filteredBy i g := by
  have hf := h.filtered
  have hp := h.property
  have hk := h.key
  simp only [on, FilteredInstance.setPropertyFilter, duplicate_list_terminated, hf, hp, hk]
  cases f with
  | none    => simp [eq_comm, filteredBy, bind, Except.bind, pure, Except.pure]
  | some f' =>
    have hrp := release_list_copy f'.lastProperty f'.propertyList
    have hrk := release_list_copy f'.lastKey f'.keys
    by_cases hpl : f'.propertyList.isSome → f'.lastProperty = .null
    · rw [if_pos hpl] at hrp
      by_cases hkl : f'.keys.isSome → f'.lastKey = .null
      · have ht : f'.Terminated := ⟨hpl, hkl⟩
        rw [if_pos hkl] at hrk
        simp [hrp, hrk, ht, eq_comm, filteredBy, bind, Except.bind, pure, Except.pure]
      · have ht : ¬ f'.Terminated := fun ht => hkl ht.key
        rw [if_neg hkl] at hrk
        simp [hrp, hrk, ht, bind, Except.bind]
    · have ht : ¬ f'.Terminated := fun ht => hpl ht.property
      rw [if_neg hpl] at hrp
      simp [hrp, ht, bind, Except.bind]

-- A call leaves the filter that was set last.
theorem on_has (h : Has i f) {call : FilterCall} (hc : on i call = .ok i') : Has i' (call.filter?.or f) := by
  cases call with
  | setProperty w       => exact (setProperty_has h hc).1
  | setPropertyFilter g =>
    have ⟨_, he⟩ := (setPropertyFilter_iff h g).mp hc
    exact he ▸ filteredBy_has i g

theorem run_has (h : Has i f) (hr : run i calls = .ok i') : Has i' (latest f calls) := by
  induction calls generalizing i f with
  | nil              =>
    cases hr
    exact h
  | cons call calls hi =>
    have ⟨i₁, h₁, hr⟩ := ok_bind.mp hr
    exact hi (on_has h h₁) hr

-- Where a history does not fail, only the filter that was set last can be without its ends.
theorem run_terminated (h : Has i f) (hr : run i calls = .ok i')
    (ht : ∀ g ∈ latest f calls, g.Terminated) :
    (∀ g ∈ f, g.Terminated) ∧ ∀ call ∈ calls, ∀ g ∈ call.filter?, g.Terminated := by
  induction calls generalizing i f with
  | nil              => exact ⟨ht, nofun⟩
  | cons call calls hi =>
    have ⟨i₁, h₁, hr⟩ := ok_bind.mp hr
    have ⟨hf, hcalls⟩ := hi (on_has h h₁) hr ht
    cases call with
    | setProperty w       => exact ⟨hf, List.forall_mem_cons.mpr ⟨nofun, hcalls⟩⟩
    | setPropertyFilter g =>
      have ⟨hold, _⟩ := (setPropertyFilter_iff h g).mp h₁
      exact ⟨hold, List.forall_mem_cons.mpr ⟨hf, hcalls⟩⟩

theorem latest_terminated (hf : ∀ g ∈ f, g.Terminated)
    (h : ∀ call ∈ calls, ∀ g ∈ call.filter?, g.Terminated) : ∀ g ∈ latest f calls, g.Terminated := by
  induction calls generalizing f with
  | nil                => exact hf
  | cons call calls hi =>
    have ⟨hc, hcalls⟩ := List.forall_mem_cons.mp h
    refine hi (f := call.filter?.or f) ?_ hcalls
    cases call with
    | setProperty w       => exact hf
    | setPropertyFilter g => exact hc

theorem accepts_filtered {block : Block} {name : Option Text} (hf : i.filtered = true)
    (hp : i.property_list = some block) : i.accepts name =
      (contained name block >>= fun b => if b then pure true else contained_list i.key_list name) := by
  simp [FilteredInstance.accepts, hf, hp, contained_list]

theorem accepts_eq (h : Has i f) (ht : ∀ g ∈ f, g.Terminated) (n : Text) :
    ∃ b, i.accepts (some n) = .ok b ∧ (b ↔ Accepted f n) := by
  have hf := h.filtered
  have hp := h.property
  have hk := h.key
  cases f with
  | none   => exact ⟨true, by simp [FilteredInstance.accepts, hf]; rfl, iff_of_true rfl nofun⟩
  | some g =>
    have hg := ht g rfl
    cases hpl : g.propertyList with
    | none      =>
      have hn : i.property_list = none := by simp [hp, hpl, Filter.copy]
      refine ⟨true, by simp [FilteredInstance.accepts, hn]; rfl, iff_of_true rfl ?_⟩
      intro g' hg' list hlist
      cases hg'
      cases hpl.symm.trans hlist
    | some list =>
      have hs : i.property_list = some (Block.terminated list) := by
        simp [hp, hpl, Filter.copy, hg.property (by simp [hpl]), Block.terminated]
      have hks : contained_list i.key_list (some n) = .ok ((g.keys.getD []).any fun m => sameIgnoringCase m n) := by
        cases hkl : g.keys with
        | none      =>
          have hn : i.key_list = none := by simp [hk, hkl, Filter.copy]
          rw [hn]
          rfl
        | some keys =>
          have hn : i.key_list = some (Block.terminated keys) := by
            simp [hk, hkl, Filter.copy, hg.key (by simp [hkl]), Block.terminated]
          rw [hn]
          exact Block.contained_terminated n keys
      refine ⟨(list ++ g.keys.getD []).any fun m => sameIgnoringCase m n, ?_, ?_⟩
      · rw [accepts_filtered hf hs, Block.contained_terminated, hks, List.any_append]
        cases list.any fun m => sameIgnoringCase m n <;> rfl
      · rw [List.any_eq_true]
        constructor
        · intro hm g' hg' list' hlist
          cases hg'
          cases hpl.symm.trans hlist
          exact hm
        · intro ha
          exact ha g rfl list hpl

theorem setProperty_ok {w : Assignment} {b : Bool} (ha : i.accepts (some w.name) = .ok b) :
    i.setProperty (some w.name) w.value w.type =
      .ok (if b then { i with props := w.on i.props } else i) := by
  simp only [FilteredInstance.setProperty, ha, Assignment.setProperty_eq]
  cases b <;> rfl

-- Nothing fails where the ends of all copies happened to be `NULL`.
theorem run_ok (h : Has i f) (hf : ∀ g ∈ f, g.Terminated)
    (ht : ∀ call ∈ calls, ∀ g ∈ call.filter?, g.Terminated) : ∃ i', run i calls = .ok i' := by
  induction calls generalizing i f with
  | nil                => exact ⟨i, rfl⟩
  | cons call calls hi =>
    have ⟨hc, hcalls⟩ := List.forall_mem_cons.mp ht
    have ⟨i₁, h₁⟩ : ∃ i₁, on i call = .ok i₁ := by
      cases call with
      | setProperty w       =>
        have ⟨b, ha, _⟩ := accepts_eq h hf w.name
        exact ⟨_, setProperty_ok ha⟩
      | setPropertyFilter g => exact ⟨_, (setPropertyFilter_iff h g).mpr ⟨hf, rfl⟩⟩
    have hf₁ : ∀ g ∈ call.filter?.or f, g.Terminated := by
      cases call with
      | setProperty w       => exact hf
      | setPropertyFilter g => exact hc
    have ⟨i', hr⟩ := hi (on_has h h₁) hf₁ hcalls
    exact ⟨i', ok_bind.mpr ⟨i₁, h₁, hr⟩⟩

-- The copies of the lists have ends if they are those of a filter that has.
theorem copy_ends_iff (last : Word) (list : Option (List Text)) :
    (∀ block, Filter.copy last list = some block → ∃ list, block = Block.terminated list) ↔
      (list.isSome → last = .null) := by
  cases list with
  | none      => exact iff_of_true nofun nofun
  | some list =>
    constructor
    · intro h _
      have ⟨list', he⟩ := h _ rfl
      have hl := congrArg List.getLast? he
      simpa [Block.terminated] using hl
    · intro h block hb
      cases hb
      rw [h rfl]
      exact ⟨list, rfl⟩

theorem ends_iff (h : Has i f) : (∀ block, i.property_list = some block ∨ i.key_list = some block →
    ∃ list, block = Block.terminated list) ↔ ∀ g ∈ f, g.Terminated := by
  have hp := h.property
  have hk := h.key
  rw [hp, hk]
  cases f with
  | none   => exact iff_of_true (fun _ h => h.elim nofun nofun) nofun
  | some g =>
    have hcp := copy_ends_iff g.lastProperty g.propertyList
    have hck := copy_ends_iff g.lastKey g.keys
    constructor
    · intro h g' hg
      cases hg
      exact ⟨hcp.mp fun block hb => h block (.inl hb), hck.mp fun block hb => h block (.inr hb)⟩
    · intro h block hb
      have hg := h g rfl
      cases hb with
      | inl hb => exact hcp.mpr hg.property block hb
      | inr hb => exact hck.mpr hg.key block hb

theorem new_has (ci : CMPIInstance) : Has { toNativeInstance := ci } none :=
  ⟨rfl, rfl, rfl⟩

-- The copy of a list ends in what `malloc` left there.
theorem filtersExactly_iff (ci : CMPIInstance) (calls : List FilterCall) :
    FiltersExactly ci calls ↔ ∀ call ∈ calls, ∀ f ∈ call.filter?, f.Terminated := by
  have hn := new_has ci
  have hnone : ∀ g ∈ (none : Option Filter), g.Terminated := nofun
  constructor
  · intro h
    have ⟨i, hr, he, _⟩ := h
    have hl := (ends_iff (run_has hn hr)).mp he
    exact (run_terminated hn hr hl).2
  · intro h
    have ⟨i, hr⟩ := run_ok hn hnone h
    have hi := run_has hn hr
    have hl := latest_terminated hnone h
    refine ⟨i, hr, (ends_iff hi).mpr hl, fun w => ?_⟩
    have ⟨b, ha, hb⟩ := accepts_eq hi hl w.name
    have hs := setProperty_ok ha
    constructor
    · intro hw
      rwa [hb.mpr hw, if_pos rfl] at hs
    · intro hw
      rwa [if_neg (mt hb.mp hw)] at hs

-- A list with a name in it, of which the copy has no end.
theorem not_filtersExactly_garbage : ¬ ∀ ci calls, FiltersExactly ci calls := by
  intro h
  have ⟨i, hr, he, _⟩ := h {} [.setPropertyFilter ⟨some [[97]], none, .garbage, .null⟩]
  cases hr
  have ⟨list, hb⟩ := he _ (.inl rfl)
  have hl := congrArg List.getLast? hb
  simp [Block.terminated] at hl

end

end FilterCall

end Sfcc
