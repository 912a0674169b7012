import Sfcc.Cmpi.Array
import Sfcc.Theorems.Cmpi.Writes

-- Which slots of an array were written, and what `setElementAt` does to its elements.
namespace Sfcc

inductive ArrayCall
  | set (index : ℕ) (val : Option CMPIValue) (type : CMPIType)
  | add (val : Option CMPIValue) (type : CMPIType)

def ArrayCall.on (a : ArrayBlock) : ArrayCall → Except Fault (ArrayBlock × Bool)
  | .set index val type => a.setElementAt index val type false
  | .add val type       => a.simpleArrayAdd val type

namespace ArrayBlock

-- The array that `setElementAt` sets the element of.
def grown (a : ArrayBlock) (index : ℕ) : ArrayBlock :=
  if a.dynamic ∧ index = a.size then a.increaseSize else a

-- Whether the element is appended in a slot that nothing was written to.
def Bare (a : ArrayBlock) (index : ℕ) : Prop :=
  (a.dynamic ∧ index = a.size) ∧ 8 ≤ a.size ∧ a.size < a.max

instance (a : ArrayBlock) (index : ℕ) : Decidable (a.Bare index) :=
  inferInstanceAs (Decidable (_ ∧ _))

-- Whether a value is written: its type is not null, and it is that of the array or taken for it.
def Stores (a : ArrayBlock) (val : Option CMPIValue) (type : CMPIType) (opt : Bool) : Prop :=
  (a.converted val type).2 ≠ .null ∧ (opt ∨ (a.converted val type).2 = a.type)

-- What is written of a value that is pointed to.
def stored (val : Option CMPIValue) (type : CMPIType) (opt : Bool) : Except Fault CMPIValue :=
  if opt then deref val else native_clone type val

-- What every array satisfies: of the slots that are not in use, the first eight hold null and the others
-- were not written.
structure Spare (a : ArrayBlock) : Prop where
  room : a.dynamic → 8 ≤ a.max
  slot : ∀ i, a.size ≤ i → i < a.max → a.data[i]? = some (if i < 8 then some NativeArray.nullItem else none)

section

variable {a b : ArrayBlock} {index i : ℕ} {val : Option CMPIValue} {type : CMPIType} {opt ok : Bool}
variable {item : NativeArrayItem CMPIValue}

@[simp]
theorem write_size (a : ArrayBlock) (index : ℕ) (item : NativeArrayItem CMPIValue) :
    (a.write index item).size = a.size :=
  rfl

@[simp]
theorem write_data (a : ArrayBlock) (index : ℕ) (item : NativeArrayItem CMPIValue) :
    (a.write index item).data = a.data.set index (some item) :=
  rfl

@[simp]
theorem increaseSize_size (a : ArrayBlock) : a.increaseSize.size = a.size + 1 := by
  rw [increaseSize]
  split <;> rfl

@[simp]
theorem increaseSize_type (a : ArrayBlock) : a.increaseSize.type = a.type := by
  rw [increaseSize]
  split <;> rfl

@[simp]
theorem increaseSize_dynamic (a : ArrayBlock) : a.increaseSize.dynamic = a.dynamic := by
  rw [increaseSize]
  split <;> rfl

theorem lt_length (h : index < a.size) : index < a.data.length := by
  rw [a.length_data]
  exact Nat.lt_of_lt_of_le h a.size_le

-- The elements of an array are where they were when it grows.
theorem increaseSize_data_of_lt (h : index < a.size) : a.increaseSize.data[index]? = a.data[index]? := by
  have hl := lt_length h
  rw [increaseSize]
  split
  · simp only
    rw [List.getElem?_set_ne (by omega), List.getElem?_append_left hl]
  · rfl

-- The slot of a new element.
theorem increaseSize_data_size (h : a.Spare) : a.increaseSize.data[a.size]? = some (
    if a.size = a.max then some cleared else if a.size < 8 then some NativeArray.nullItem else none) := by
  have hs := a.size_le
  have hm := a.max_pos
  rw [increaseSize]
  split
  case isTrue hg  =>
    have he : a.size = a.max := by omega
    have hl : a.size < (a.data ++ List.replicate a.max (none : Slot)).length := by
      rw [List.length_append, List.length_replicate, a.length_data]
      omega
    rw [if_pos he]
    exact List.getElem?_set_self hl
  case isFalse hg =>
    rw [if_neg (by omega)]
    exact h.slot a.size (Nat.le_refl _) (by omega)

theorem Spare.increaseSize (h : a.Spare) (hd : a.dynamic) : a.increaseSize.Spare := by
  have hs := a.size_le
  have hr := h.room hd
  rw [ArrayBlock.increaseSize]
  split
  case isTrue hg  =>
    refine ⟨fun _ => ?_, fun i hi hlt => ?_⟩
    · simp only
      omega
    · simp only at hi hlt
      have hl := a.length_data
      rw [List.getElem?_set_ne (by omega), List.getElem?_append_right (by omega),
        List.getElem?_replicate_of_lt (by omega), if_neg (by omega)]
  case isFalse hg => exact ⟨h.room, fun i hi hlt => h.slot i (Nat.le_of_succ_le hi) hlt⟩

theorem grown_type (a : ArrayBlock) (index : ℕ) : (a.grown index).type = a.type := by
  rw [grown]
  split
  · exact increaseSize_type a
  · rfl

theorem grown_converted (a : ArrayBlock) (index : ℕ) : (a.grown index).converted = a.converted := by
  funext val type
  unfold converted
  rw [grown_type]

theorem Spare.grown (h : a.Spare) (index : ℕ) : (a.grown index).Spare := by
  rw [ArrayBlock.grown]
  split
  case isTrue hg => exact h.increaseSize hg.1
  case isFalse   => exact h

theorem Spare.write (h : a.Spare) (hi : index < a.size) : (a.write index item).Spare := by
  refine ⟨h.room, fun i hs hm => ?_⟩
  have hne : index ≠ i := by
    have hsize : a.size ≤ i := hs
    omega
  rw [write_data, List.getElem?_set_ne hne]
  exact h.slot i hs hm

-- What is done to the element, by what the type and the value are.
theorem setElementAt_eq (a : ArrayBlock) (index : ℕ) (val : Option CMPIValue) (type : CMPIType) (opt : Bool) :
    a.setElementAt index val type opt =
      if index < (a.grown index).size then
        if (a.converted val type).2 = .null then
          (a.grown index).read index >>= fun item => pure
            (if item.state.isNull then a.grown index else (a.grown index).write index { item with state := .null }, true)
        else if opt ∨ (a.converted val type).2 = a.type then
          stored (a.converted val type).1 (a.converted val type).2 opt >>= fun value =>
            pure ((a.grown index).write index { state := .good, value }, true)
        else pure (a.grown index, false)
      else pure (a.grown index, false) := by
  rw [setElementAt, ← grown_converted a index, ← grown_type a index]
  cases opt <;> rfl

-- Only `NULL` cannot be written.
theorem stored_cases (val : Option CMPIValue) (type : CMPIType) (opt : Bool) :
    stored val type opt = .error .null ∨ ∃ v, stored val type opt = .ok v := by
  rw [stored]
  cases val with
  | some v =>
    split
    · exact .inr ⟨_, rfl⟩
    · exact .inr ⟨_, rfl⟩
  | none   =>
    split
    · exact .inl rfl
    · rw [native_clone]
      split
      · exact .inr ⟨_, rfl⟩
      · exact .inl rfl

-- The slot of an element that is set was written before, unless the element is appended in a bare one.
theorem read_grown (h : a.Spare) (hc : ∀ i < a.size, ∃ item, a.data[i]? = some (some item))
    (hi : index < (a.grown index).size) :
    if a.Bare index then (a.grown index).data[index]? = some none
    else ∃ item, (a.grown index).data[index]? = some (some item) := by
  by_cases hg : a.dynamic ∧ index = a.size
  · have hd := increaseSize_data_size h
    rw [← hg.2] at hd
    rw [grown, if_pos hg, hd]
    have hs := a.size_le
    by_cases hm : index = a.max
    · rw [if_neg fun hb => by have := hb.2.2; omega, if_pos hm]
      exact ⟨_, rfl⟩
    · by_cases he : index < 8
      · rw [if_neg fun hb => by have := hb.2.1; omega, if_neg hm, if_pos he]
        exact ⟨_, rfl⟩
      · have hb : a.Bare index := ⟨hg, by omega, by omega⟩
        rw [if_pos hb, if_neg hm, if_neg he]
  · rw [grown, if_neg hg] at hi ⊢
    rw [if_neg fun hb => hg hb.1]
    exact hc index hi

end

-- What is said of the arrays: every slot below `size` was written, and nothing that is read fails.
structure Readable (a : ArrayBlock) : Prop where
  slots   : ∀ i < a.size, ∃ item, a.data[i]? = some (some item)
  element : ∀ index, ∃ data, a.getElementAt index = .ok data
  clone   : ∃ c, a.clone = .ok c
  release : a.release = .ok ()

-- The arrays on the way of a run, which ends where `NULL` is followed.
def Initialised : ArrayBlock → List ArrayCall → Prop
  | a, []            => Readable a
  | a, call :: calls => Readable a ∧
    match call.on a with
    | .ok (a', _)  => Initialised a' calls
    | .error fault => fault = .null

-- Whether a call writes to a bare slot, if it appends an element in one.
def Covers (a : ArrayBlock) : ArrayCall → Prop
  | .set index val type => a.Bare index → a.Stores val type false
  | .add val type       => a.Bare a.size → a.Stores val type true

def Covered : ArrayBlock → List ArrayCall → Prop
  | _, []            => True
  | a, call :: calls => Covers a call ∧
    match call.on a with
    | .ok (a', _) => Covered a' calls
    | .error _    => True

section

variable {a b : ArrayBlock} {index i : ℕ} {val : Option CMPIValue} {type : CMPIType} {opt ok : Bool}
variable {item : NativeArrayItem CMPIValue}

theorem read_ok (h : a.data[index]? = some (some item)) : a.read index = .ok item := by
  rw [read, h]
  rfl

theorem read_bare (h : a.data[index]? = some none) : a.read index = .error .wild := by
  rw [read, h]
  rfl

theorem mapM_read {l : List ℕ} (h : ∀ i ∈ l, ∃ item, a.data[i]? = some (some item)) :
    ∃ items, l.mapM a.read = .ok items := by
  induction l with
  | nil         => exact ⟨[], rfl⟩
  | cons i l hi =>
    have ⟨hx, hl⟩ := List.forall_mem_cons.mp h
    have ⟨item, hx⟩ := hx
    have ⟨items, hl⟩ := hi hl
    exact ⟨item :: items, by rw [List.mapM_cons, read_ok hx, hl]; rfl⟩

-- Nothing else is read of an array.
theorem readable_iff : a.Readable ↔ ∀ i < a.size, ∃ item, a.data[i]? = some (some item) := by
  constructor
  · exact fun h => h.slots
  · intro h
    have ⟨items, hi⟩ := mapM_read fun i hi => h i (List.mem_range.mp hi)
    have hitems : a.items = .ok items := hi
    refine ⟨h, fun index => ?_, ?_, ?_⟩
    · rw [getElementAt]
      split
      case isTrue hlt =>
        have ⟨item, hx⟩ := h index hlt
        rw [read_ok hx]
        exact ⟨_, rfl⟩
      case isFalse    => exact ⟨_, rfl⟩
    · rw [clone, hitems]
      exact ⟨_, rfl⟩
    · rw [release, hitems]
      rfl

-- The slots of the other elements were written already.
theorem grown_written (hc : a.Readable) (hne : i ≠ index) (hi : i < (a.grown index).size) :
    ∃ item, (a.grown index).data[i]? = some (some item) := by
  by_cases hg : a.dynamic ∧ index = a.size
  · rw [grown, if_pos hg] at hi ⊢
    rw [increaseSize_size] at hi
    have hlt : i < a.size := by omega
    rw [increaseSize_data_of_lt hlt]
    exact hc.slots i hlt
  · rw [grown, if_neg hg] at hi ⊢
    exact hc.slots i hi

-- Whether the array can be read after it has grown.
theorem readable_grown (h : a.Spare) (hc : a.Readable) (hi : index < (a.grown index).size) :
    (a.grown index).Readable ↔ ¬ a.Bare index := by
  have hr := read_grown h hc.slots hi
  constructor
  · intro hgrown hb
    rw [if_pos hb] at hr
    have ⟨item, hx⟩ := hgrown.slots index hi
    cases hr.symm.trans hx
  · intro hb
    rw [if_neg hb] at hr
    apply readable_iff.mpr
    intro i hlt
    by_cases hne : i = index
    · exact hne ▸ hr
    · exact grown_written hc hne hlt

theorem readable_write (hc : a.Readable) (hi : index < (a.grown index).size) (item : NativeArrayItem CMPIValue) :
    ((a.grown index).write index item).Readable := by
  apply readable_iff.mpr
  intro i hlt
  by_cases hne : i = index
  · exact ⟨item, by rw [hne]; exact List.getElem?_set_self (lt_length hi)⟩
  · rw [write_data, List.getElem?_set_ne (Ne.symm hne)]
    exact grown_written hc hne hlt

theorem not_bare_of_not_lt (hi : ¬ index < (a.grown index).size) : ¬ (a.dynamic ∧ index = a.size) := by
  intro hg
  rw [grown, if_pos hg, increaseSize_size] at hi
  omega

-- A call that appends an element in a bare slot writes to it, ...
theorem setElementAt_covered (h : a.Spare) (hc : a.Readable) (hb : a.Bare index → a.Stores val type opt) :
    a.setElementAt index val type opt = .error .null ∨
      ∃ a' ok, a.setElementAt index val type opt = .ok (a', ok) ∧ a'.Spare ∧ a'.Readable := by
  have hs := h.grown index
  rw [setElementAt_eq]
  by_cases hi : index < (a.grown index).size
  · have hr := read_grown h hc.slots hi
    rw [if_pos hi]
    by_cases hn : (a.converted val type).2 = .null
    · have hnb : ¬ a.Bare index := fun hbare => (hb hbare).1 hn
      rw [if_neg hnb] at hr
      have ⟨item, hx⟩ := hr
      rw [if_pos hn, read_ok hx]
      refine .inr ⟨_, _, rfl, ?_⟩
      split
      · exact ⟨hs, (readable_grown h hc hi).mpr hnb⟩
      · exact ⟨hs.write hi, readable_write hc hi _⟩
    · rw [if_neg hn]
      by_cases ht : opt ∨ (a.converted val type).2 = a.type
      · rw [if_pos ht]
        cases stored_cases (a.converted val type).1 (a.converted val type).2 opt with
        | inl he => exact .inl (by rw [he]; rfl)
        | inr ho =>
          obtain ⟨v, hv⟩ := ho
          rw [hv]
          exact .inr ⟨_, _, rfl, hs.write hi, readable_write hc hi _⟩
      · rw [if_neg ht]
        exact .inr ⟨_, _, rfl, hs, (readable_grown h hc hi).mpr fun hbare => ht (hb hbare).2⟩
  · rw [if_neg hi, grown, if_neg (not_bare_of_not_lt hi)]
    exact .inr ⟨_, _, rfl, h, hc⟩

-- ... or what was not written is read, now or later.
theorem setElementAt_bare (h : a.Spare) (hc : a.Readable) (hb : a.Bare index)
    (hn : ¬ a.Stores val type opt) : a.setElementAt index val type opt = .error .wild ∨
      ∃ a' ok, a.setElementAt index val type opt = .ok (a', ok) ∧ ¬ a'.Readable := by
  have hi : index < (a.grown index).size := by
    have hsize := hb.1.2
    rw [grown, if_pos hb.1, increaseSize_size]
    omega
  have hr := read_grown h hc.slots hi
  rw [if_pos hb] at hr
  rw [setElementAt_eq, if_pos hi]
  by_cases hnull : (a.converted val type).2 = .null
  · rw [if_pos hnull, read_bare hr]
    exact .inl rfl
  · rw [if_neg hnull, if_neg fun ht => hn ⟨hnull, ht⟩]
    exact .inr ⟨_, _, rfl, fun hgrown => (readable_grown h hc hi).mp hgrown hb⟩

theorem Spare.withType (h : a.Spare) (type : CMPIType) : { a with type }.Spare :=
  ⟨h.room, h.slot⟩

theorem Readable.withType (h : a.Readable) (type : CMPIType) : { a with type }.Readable :=
  readable_iff.mpr h.slots

theorem Spare.new (size : ℕ) (type : CMPIType) : (new size type).Spare := by
  refine ⟨fun hd => ?_, fun i hs hm => ?_⟩
  · have hz : size = 0 := of_decide_eq_true hd
    rw [ArrayBlock.new]
    simp [hz]
  · rw [ArrayBlock.new] at hs hm ⊢
    by_cases hz : size = 0
    · simp only [if_pos hz] at hm ⊢
      rw [if_pos hm]
      exact List.getElem?_replicate_of_lt hm
    · simp only [if_neg hz] at hs hm
      omega

theorem Readable.new (size : ℕ) (type : CMPIType) : (new size type).Readable := by
  apply readable_iff.mpr
  intro i hi
  refine ⟨NativeArray.nullItem, ?_⟩
  have hm := (ArrayBlock.new size type).size_le
  exact List.getElem?_replicate_of_lt (Nat.lt_of_lt_of_le hi hm)

theorem bare_dynamic (hb : a.Bare index) : a.dynamic :=
  hb.1.1

-- The type is that of the first element.
theorem simpleArrayAdd_eq (hd : a.dynamic) (val : Option CMPIValue) (type : CMPIType) :
    a.simpleArrayAdd val type =
      (if a.size = 0 then { a with type } else a).setElementAt a.size val type true >>= fun r => pure (r.1, false) := by
  rw [simpleArrayAdd, if_pos hd]
  split <;> rfl

theorem simpleArrayAdd_fixed (hd : ¬ a.dynamic) (val : Option CMPIValue) (type : CMPIType) :
    a.simpleArrayAdd val type = .ok (a, false) := by
  rw [simpleArrayAdd, if_neg hd]
  rfl

-- Every call that writes to the slot it appends is all right, ...
theorem on_covered (h : a.Spare) (hc : a.Readable) {call : ArrayCall} (hcov : Covers a call) :
    call.on a = .error .null ∨ ∃ a' ok, call.on a = .ok (a', ok) ∧ a'.Spare ∧ a'.Readable := by
  cases call with
  | set index val type => exact setElementAt_covered h hc hcov
  | add val type       =>
    rw [ArrayCall.on]
    by_cases hd : a.dynamic
    · rw [simpleArrayAdd_eq hd]
      have hset : ∀ b : ArrayBlock, b.Spare → b.Readable → (b.Bare a.size → b.Stores val type true) →
          (b.setElementAt a.size val type true >>= fun r => pure (r.1, false)) = .error .null ∨
            ∃ a' ok, (b.setElementAt a.size val type true >>= fun r => pure (r.1, false)) = .ok (a', ok) ∧
              a'.Spare ∧ a'.Readable := by
        intro b hspare hread hb
        cases setElementAt_covered hspare hread hb with
        | inl he => exact .inl (by rw [he]; rfl)
        | inr ho =>
          have ⟨a', ok, ho, hl⟩ := ho
          exact .inr ⟨a', false, by rw [ho]; rfl, hl⟩
      split
      case isTrue hz  =>
        refine hset _ (h.withType type) (hc.withType type) fun hb => ?_
        have hsize : 8 ≤ a.size := hb.2.1
        omega
      case isFalse hz => exact hset a h hc hcov
    · exact .inr ⟨a, false, simpleArrayAdd_fixed hd val type, h, hc⟩

-- ... and no other call is.
theorem on_not_covered (h : a.Spare) (hc : a.Readable) {call : ArrayCall} (hcov : ¬ Covers a call) :
    call.on a = .error .wild ∨ ∃ a' ok, call.on a = .ok (a', ok) ∧ ¬ a'.Readable := by
  cases call with
  | set index val type =>
    have ⟨hb, hn⟩ := Classical.not_imp.mp hcov
    exact setElementAt_bare h hc hb hn
  | add val type       =>
    have ⟨hb, hn⟩ := Classical.not_imp.mp hcov
    have hsize := hb.2.1
    rw [ArrayCall.on, simpleArrayAdd_eq (bare_dynamic hb), if_neg (by omega)]
    cases setElementAt_bare h hc hb hn with
    | inl he => exact .inl (by rw [he]; rfl)
    | inr ho =>
      have ⟨a', ok, ho, hl⟩ := ho
      exact .inr ⟨a', false, by rw [ho]; rfl, hl⟩

theorem not_initialised_of_not_readable (hc : ¬ a.Readable) (calls : List ArrayCall) : ¬ Initialised a calls := by
  cases calls with
  | nil             => exact hc
  | cons call calls => exact fun hi => hc hi.1

-- A run from an array whose slots are as they should be.
theorem initialised_iff_of_spare (h : a.Spare) (hc : a.Readable) (calls : List ArrayCall) :
    Initialised a calls ↔ Covered a calls := by
  induction calls generalizing a with
  | nil                => exact iff_of_true hc trivial
  | cons call calls hi =>
    rw [Initialised, Covered]
    by_cases hcov : Covers a call
    · cases on_covered h hc hcov with
      | inl he =>
        rw [he]
        exact iff_of_true ⟨hc, rfl⟩ ⟨hcov, trivial⟩
      | inr ho =>
        have ⟨a', ok, ho, hspare, hread⟩ := ho
        rw [ho]
        exact and_congr (iff_of_true hc hcov) (hi hspare hread)
    · refine iff_of_false (fun hini => ?_) fun hcovered => hcov hcovered.1
      have hini := hini.2
      cases on_not_covered h hc hcov with
      | inl he =>
        rw [he] at hini
        cases hini
      | inr ho =>
        have ⟨a', ok, ho, hread⟩ := ho
        rw [ho] at hini
        exact not_initialised_of_not_readable hread calls hini

end

end ArrayBlock

end Sfcc
