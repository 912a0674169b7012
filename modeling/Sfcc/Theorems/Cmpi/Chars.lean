import Mathlib.Data.Multiset.Basic
import Sfcc.Cmpi.Chars
import Sfcc.Theorems.Cmpi.Clone

-- When two paths are the same.
namespace Sfcc

-- The types that `value2Chars` has a text for.
def CMPIType.printed : List CMPIType :=
  [.ref, .chars, .string, .numericString, .booleanString, .dateTimeString, .dateTime, .boolean, .uint8,
    .sint8, .uint16, .sint16, .uint32, .sint32, .uint64, .sint64, .real32, .real64]

def CMPIValue.Plain : CMPIValue → Prop
  | .ref _ => False
  | _      => True

-- A value of a type: no text of it is `NULL`, and neither is the name of a class.
inductive CMPIValue.Typed : CMPIType → CMPIValue → Prop
  | zero {type} : type ≠ .chars → Typed type .zero
  | boolean (b : Bool) : Typed .boolean (.boolean b)
  | integer {type v n} : v.integer = some (type, n) → Typed type v
  | real32 (text : Text) : Typed .real32 (.real32 text)
  | real64 (text : Text) : Typed .real64 (.real64 text)
  | chars (text : Text) : Typed .chars (.chars text)
  | string {type} (text : Text) :
    type ∈ [CMPIType.string, .numericString, .booleanString, .dateTimeString] →
    Typed type (.string text)
  | dateTime (cimDt : Option Text) : Typed .dateTime (.dateTime cimDt)
  | ref {p : CMPIObjectPath} : p.classname.isSome →
    (∀ k ∈ p.keys, k.type ≠ .chars) → (∀ k ∈ p.keys, Typed k.type k.value) → Typed .ref (.ref p)
  | other {type v} : type ∉ CMPIType.printed → Typed type v

section

variable (printg : Text → Text) {type : CMPIType} {v : CMPIValue}

-- What is printed of a value that is not a path.
def plainText (type : CMPIType) (value : CMPIValue) : Text :=
  match plain2Chars printg type value with
  | .ok t    => t
  | .error _ => []

theorem plain2Chars_other (h : type ∉ CMPIType.printed) : plain2Chars printg type v = .ok [] := by
  have hf : (printers printg).find? (·.1 = type) = none := by
    have hm : ∀ p ∈ printers printg, p.1 ∈ CMPIType.printed := fun p hp => List.mem_map_of_mem hp
    apply List.find?_eq_none.mpr
    intro p hp ht
    exact h (of_decide_eq_true ht ▸ hm p hp)
  rw [plain2Chars, hf]
  rfl

theorem value2Chars_plain (h : v.Plain) : value2Chars printg type v = plain2Chars printg type v := by
  cases v
  case ref p => cases h
  all_goals
    rw [value2Chars]
    exact nofun

theorem plain2Chars_zero (type : CMPIType) : ∃ t, plain2Chars printg type .zero = .ok t := by
  have hp : ∀ p ∈ printers printg, ∃ t, p.2 .zero = .ok t := by
    simp [printers, printChars, printString, printDateTime, printBoolean, printInteger, printReal, pure,
      Except.pure]
  unfold plain2Chars
  split
  · exact hp _ (List.mem_of_find?_eq_some ‹_›)
  · exact ⟨[], rfl⟩

theorem integer_plain {n : ℤ} (h : v.integer = some (type, n)) : v.Plain := by
  cases v <;> trivial

theorem integer_ne_chars {n : ℤ} (h : v.integer = some (type, n)) : type ≠ .chars := by
  cases v <;> cases h <;> decide

theorem plain2Chars_integer {n : ℤ} (h : v.integer = some (type, n)) :
    plain2Chars printg type v = .ok (signedDecimal n) := by
  cases v <;> cases h <;> rfl

theorem keysToChars_ok {keys : List (NativeProperty CMPIValue)}
    (h : ∀ k ∈ keys, ∃ t, value2Chars printg k.type k.value = .ok t) (separator : Text) :
    ∃ t, keysToChars printg separator keys = .ok t := by
  induction keys generalizing separator with
  | nil             => exact ⟨[], rfl⟩
  | cons k keys hi =>
    have ⟨hk, hkeys⟩ := List.forall_mem_cons.mp h
    have ⟨v, hv⟩ := hk
    have ⟨t, ht⟩ := hi hkeys [44]
    refine ⟨separator ++ k.name ++ [61] ++ quoted k.type v ++ t, ?_⟩
    simp only [keysToChars, hv, ht, bind, Except.bind]
    rfl

theorem pathToChars_eq (p : CMPIObjectPath) :
    pathToChars printg p = do
      let ns := p.nameSpace.getD []
      return (if ns = [] then [] else ns ++ [58]) ++ (← deref p.classname) ++
        (← keysToChars printg [46] p.keys) := by
  cases p
  rw [pathToChars]

theorem value2Chars_ok (h : v.Typed type) : ∃ t, value2Chars printg type v = .ok t := by
  induction h with
  | @zero type _    =>
    have hp : CMPIValue.zero.Plain := trivial
    rw [value2Chars_plain printg hp]
    exact plain2Chars_zero printg type
  | boolean b       => exact ⟨_, value2Chars_plain printg trivial⟩
  | integer h       =>
    have hp := plain2Chars_integer printg h
    exact ⟨_, value2Chars_plain printg (integer_plain h) ▸ hp⟩
  | real32 text     => exact ⟨_, value2Chars_plain printg trivial⟩
  | real64 text     => exact ⟨_, value2Chars_plain printg trivial⟩
  | chars text      => exact ⟨_, value2Chars_plain printg trivial⟩
  | string text h   =>
    have hp : (CMPIValue.string text).Plain := trivial
    rw [value2Chars_plain printg hp]
    revert h
    simp only [List.mem_cons, List.not_mem_nil, or_false]
    rintro (rfl | rfl | rfl | rfl) <;> exact ⟨text, rfl⟩
  | dateTime cimDt  => exact ⟨_, value2Chars_plain printg trivial⟩
  | ref hc _ _ hi   =>
    have ⟨t, ht⟩ := keysToChars_ok printg hi [46]
    have ⟨cn, hcn⟩ := Option.isSome_iff_exists.mp hc
    simp [value2Chars, pathToChars_eq, hcn, ht, deref, bind, Except.bind, pure, Except.pure]
  | @other type v h =>
    cases v
    case ref p =>
      have hr : type ≠ .ref := by
        intro hr
        exact h (hr ▸ by decide)
      exact ⟨[], by rw [value2Chars, if_neg hr, plain2Chars_other printg h]⟩
    all_goals
      refine ⟨[], ?_⟩
      rw [value2Chars_plain]
      · exact plain2Chars_other printg h
      · trivial

end

-- A copy has the type of what was copied.

theorem CMPIValue.Typed.cloneWith {type : CMPIType} {v w : CMPIValue} (hc : type ≠ .chars)
    (hv : v.Typed type) (hw : w.Typed type) : (type.cloneWith v w).Typed type := by
  rw [CMPIType.cloneWith]
  split
  · exact hw
  · exact hv
  · exact .zero hc

theorem mem_cloneProperties {keys : List (NativeProperty CMPIValue)} {k' : NativeProperty CMPIValue}
    (h : k' ∈ cloneProperties keys) : ∃ k ∈ keys, k'.type = k.type ∧
      (k'.value = .zero ∨ k'.value = k.type.cloneWith k.value k.value.clone) := by
  induction keys with
  | nil             => cases h
  | cons k keys hi =>
    rw [cloneProperties] at h
    cases List.mem_cons.mp h with
    | inl h =>
      refine ⟨k, List.mem_cons_self .., by rw [h], ?_⟩
      rw [h]
      split
      · exact .inl rfl
      · exact .inr rfl
    | inr h =>
      have ⟨l, hl, hk⟩ := hi h
      exact ⟨l, List.mem_cons_of_mem _ hl, hk⟩

theorem CMPIValue.Typed.clone {type : CMPIType} {v : CMPIValue} (h : v.Typed type) :
    v.clone.Typed type := by
  induction h with
  | @ref p hc hn ht hi =>
    cases p
    rw [CMPIValue.clone]
    refine .ref hc (fun k hk => ?_) fun k hk => ?_
    · have ⟨l, hl, htype, _⟩ := mem_cloneProperties hk
      exact htype ▸ hn l hl
    · have ⟨l, hl, htype, hv⟩ := mem_cloneProperties hk
      rw [htype]
      cases hv with
      | inl hv => exact hv ▸ .zero (hn l hl)
      | inr hv => exact hv ▸ .cloneWith (hn l hl) (ht l hl) (hi l hl)
  | @integer type v n h => cases v <;> exact .integer h
  | other h            => exact .other h
  | zero h             => exact .zero h
  | boolean b          => exact .boolean b
  | real32 text        => exact .real32 text
  | real64 text        => exact .real64 text
  | chars text         => exact .chars text
  | string text h      => exact .string text h
  | dateTime cimDt     => exact .dateTime cimDt

-- The paths with a namespace and a class name whose keys were added with a type and a value.
inductive NativeCop.Addressed : CMPIObjectPath → Prop
  | new (nameSpace classname : Text) : Addressed (newCMPIObjectPath nameSpace classname)
  | addKey {p p' : CMPIObjectPath} {name : Text} {v : CMPIValue} {type : CMPIType} : Addressed p →
    type ≠ .null → v.Typed type → p.addKey (some name) (some v) type = .ok p' → Addressed p'

structure NativeCop.Comparable (p : CMPIObjectPath) : Prop where
  nameSpace : p.nameSpace.isSome
  classname : p.classname.isSome
  typed     : ∀ k ∈ p.keys, k.value.Typed k.type
  distinct  : Named.Distinct NativeProperty.name p.keys

theorem NativeProperty.new_typed {name : Text} {type : CMPIType} {v : CMPIValue} (ht : type ≠ .null)
    (hv : v.Typed type) : (new name type .key v).value.Typed (new name type .key v).type := by
  have hk : CMPIValueState.key ≠ .null := by decide
  by_cases hc : type = .chars
  · rw [new, if_pos ⟨ht, hk⟩, if_pos hc]
    subst hc
    generalize ht : CMPIType.chars = type at hv
    cases hv with
    | chars text => exact .string text (List.mem_cons_self ..)
    | zero h     => exact absurd ht.symm h
    | integer h  => exact absurd ht.symm (integer_ne_chars h)
    | string _ h =>
      subst ht
      exact absurd h (by decide)
    | other h    =>
      subst ht
      exact absurd (by decide) h
    | _          => exact absurd ht (by decide)
  · rw [new, if_pos ⟨ht, hk⟩, if_neg hc]
    exact .cloneWith hc hv hv.clone

theorem NativeCop.Addressed.comparable {p : CMPIObjectPath} (h : p.Addressed) : p.Comparable := by
  induction h with
  | new              => exact ⟨rfl, rfl, nofun, List.nodup_nil⟩
  | addKey _ ht hv h hi =>
    rw [NativeCop.addKey_some] at h
    cases h
    refine ⟨hi.nameSpace, hi.classname, Named.forall_add hi.typed (NativeProperty.new_typed ht hv), ?_⟩
    exact Named.add_distinct hi.distinct (NativeProperty.new_name ..)

section Meaning

variable (printg : Text → Text)

def NativeProperty.meaning (k : NativeProperty CMPIValue) :
    Text × CMPIType × CMPIValueState × Except Fault Text :=
  (k.name.lower, k.type, k.state, value2Chars printg k.type k.value)

-- What a path says, whatever the order of its keys and the case of its names.
def NativeCop.meaning (p : CMPIObjectPath) :
    Option Text × Option Text × Multiset (Text × CMPIType × CMPIValueState × Except Fault Text) :=
  (p.nameSpace.map Text.lower, p.classname.map Text.lower,
    (p.keys.map (NativeProperty.meaning printg) : List _))

variable {keys ks : List (NativeProperty CMPIValue)}

theorem getProperty_iff {k : NativeProperty CMPIValue}
    (hd : Named.Distinct NativeProperty.name keys) :
    (∃ k', getProperty keys k.name = some k' ∧ k.meaning printg = k'.meaning printg) ↔
      k.meaning printg ∈ keys.map (NativeProperty.meaning printg) := by
  constructor
  · intro ⟨k', hg, hm⟩
    exact List.mem_map.mpr ⟨k', List.mem_of_find?_eq_some hg, hm.symm⟩
  · intro h
    have ⟨k', hk, hm⟩ := List.mem_map.mp h
    exact ⟨k', Named.get_of_mem hd hk (congrArg Prod.fst hm), hm.symm⟩

-- Every key is found among the keys of the other path.
theorem sameKeys_iff (hd : Named.Distinct NativeProperty.name keys)
    (hk : ∀ k ∈ keys, k.value.Typed k.type) (hks : ∀ k ∈ ks, k.value.Typed k.type) :
    ∃ b, sameKeys printg keys ks = .ok b ∧
      (b ↔ ∀ k ∈ ks, k.meaning printg ∈ keys.map (NativeProperty.meaning printg)) := by
  induction ks with
  | nil          => exact ⟨true, rfl, by simp⟩
  | cons k ks hi =>
    have ⟨hk₁, hk₂⟩ := List.forall_mem_cons.mp hks
    have ⟨b, hb, hbi⟩ := hi hk₂
    have ⟨cv₁, hv₁⟩ := value2Chars_ok printg hk₁
    rw [sameKeys, List.forall_mem_cons, ← getProperty_iff printg hd]
    cases hg : getProperty keys k.name with
    | none    => exact ⟨false, rfl, by simp⟩
    | some k' =>
      have hm := List.mem_of_find?_eq_some hg
      have ⟨cv₂, hv₂⟩ := value2Chars_ok printg (hk k' hm)
      have hn : k.name.lower = k'.name.lower := (Named.get_name hg).symm
      by_cases hts : k.type ≠ k'.type ∨ k.state ≠ k'.state
      · refine ⟨false, by simp only [if_pos hts]; rfl, ?_⟩
        simp only [Bool.false_eq_true, false_iff, Option.some.injEq, exists_eq_left', not_and]
        intro h
        simp only [NativeProperty.meaning, Prod.mk.injEq] at h
        exact absurd h.right (by tauto)
      · have ⟨ht, hs⟩ : k.type = k'.type ∧ k.state = k'.state := by tauto
        have hm : k.meaning printg = k'.meaning printg ↔ cv₁ = cv₂ := by
          rw [ht] at hv₁
          simp [NativeProperty.meaning, hn, ht, hs, hv₁, hv₂]
        simp only [if_neg hts, hv₁, hv₂, bind, Except.bind, Option.some.injEq, exists_eq_left', hm]
        by_cases hv : cv₁ = cv₂
        · exact ⟨b, by simpa [hv] using hb, by simp [hv, hbi]⟩
        · exact ⟨false, by simp [hv]; rfl, by simp [hv]⟩

-- Two paths are the same if they say the same.
theorem same_iff {p q : CMPIObjectPath} (hp : p.Comparable) (hq : q.Comparable) :
    ∃ b, sameCMPIObjectPath printg p q = .ok b ∧ (b ↔ p.meaning printg = q.meaning printg) := by
  have ⟨ns, hns⟩ := Option.isSome_iff_exists.mp hp.nameSpace
  have ⟨cn, hcn⟩ := Option.isSome_iff_exists.mp hp.classname
  have ⟨ns', hns'⟩ := Option.isSome_iff_exists.mp hq.nameSpace
  have ⟨cn', hcn'⟩ := Option.isSome_iff_exists.mp hq.classname
  have ⟨b, hb, hbi⟩ := sameKeys_iff printg hq.distinct hq.typed hp.typed
  have hperm (hl : p.keys.length = q.keys.length) :
      (∀ k ∈ p.keys, k.meaning printg ∈ q.keys.map (NativeProperty.meaning printg)) ↔
        (p.keys.map (NativeProperty.meaning printg)).Perm
          (q.keys.map (NativeProperty.meaning printg)) := by
    have hn : (p.keys.map (NativeProperty.meaning printg)).Nodup := by
      apply List.Nodup.of_map Prod.fst
      rw [List.map_map]
      exact hp.distinct
    constructor
    · intro h
      have hs : p.keys.map (NativeProperty.meaning printg) ⊆
          q.keys.map (NativeProperty.meaning printg) := by
        intro m hm
        have ⟨k, hk, he⟩ := List.mem_map.mp hm
        exact he ▸ h k hk
      exact (List.subperm_of_subset hn hs).perm_of_length_le (by simp [hl])
    · intro h k hk
      exact h.subset (List.mem_map_of_mem hk)
  have he : p.meaning printg = q.meaning printg ↔ ns.lower = ns'.lower ∧ cn.lower = cn'.lower ∧
      (p.keys.map (NativeProperty.meaning printg)).Perm
        (q.keys.map (NativeProperty.meaning printg)) := by
    simp [NativeCop.meaning, hns, hns', hcn, hcn']
  rw [he]
  by_cases hn : ns.lower = ns'.lower
  · by_cases hc : cn.lower = cn'.lower
    · by_cases hl : p.keys.length = q.keys.length
      · refine ⟨b, ?_, ?_⟩
        · simp [sameCMPIObjectPath, hns, hns', hcn, hcn', hn, hc, hl, hb, deref, bind, Except.bind]
        · rw [hbi, hperm hl]
          simp [hn, hc]
      · refine ⟨false, ?_, ?_⟩
        · simp [sameCMPIObjectPath, hns, hns', hcn, hcn', hn, hc, hl, deref, bind, Except.bind, pure,
            Except.pure]
        · simp only [Bool.false_eq_true, false_iff, not_and]
          intro _ _ h
          exact hl (by simpa using h.length_eq)
    · refine ⟨false, ?_, by simp [hc]⟩
      simp [sameCMPIObjectPath, hns, hns', hcn, hcn', hn, hc, deref, bind, Except.bind, pure, Except.pure]
  · refine ⟨false, ?_, by simp [hn]⟩
    simp [sameCMPIObjectPath, hns, hns', hn, deref, bind, Except.bind, pure, Except.pure]

-- A key with its name in other letters.
def RespelledKey (k k' : NativeProperty CMPIValue) : Prop :=
  k'.name.lower = k.name.lower ∧ k' = { k with name := k'.name }

-- The path `q` is `p` with its keys in another order and its names in other letters.
structure Respelled (p q : CMPIObjectPath) : Prop where
  nameSpace : q.nameSpace.map Text.lower = p.nameSpace.map Text.lower
  classname : q.classname.map Text.lower = p.classname.map Text.lower
  keys      : ∃ keys, keys.Perm p.keys ∧ List.Forall₂ RespelledKey keys q.keys

theorem RespelledKey.meaning_eq {k k' : NativeProperty CMPIValue} (h : RespelledKey k k') :
    k'.meaning printg = k.meaning printg := by
  rw [h.right]
  simp [NativeProperty.meaning, h.left]

theorem respelled_map {α : Type} {f : NativeProperty CMPIValue → α}
    (hf : ∀ {k k'}, RespelledKey k k' → f k' = f k) (h : List.Forall₂ RespelledKey keys ks) :
    ks.map f = keys.map f := by
  induction h with
  | nil          => rfl
  | cons hk _ hi => simp [hf hk, hi]

theorem Respelled.meaning_eq {p q : CMPIObjectPath} (h : Respelled p q) :
    p.meaning printg = q.meaning printg := by
  have ⟨keys, hp, hk⟩ := h.keys
  have hm := hp.map (NativeProperty.meaning printg)
  rw [← respelled_map (RespelledKey.meaning_eq printg) hk] at hm
  simp [NativeCop.meaning, h.nameSpace, h.classname, hm.symm]

theorem Respelled.comparable {p q : CMPIObjectPath} (h : Respelled p q) (hp : p.Comparable) :
    q.Comparable := by
  have ⟨keys, hperm, hk⟩ := h.keys
  have hns : (q.nameSpace.map Text.lower).isSome := by simp [h.nameSpace, hp.nameSpace]
  have hcn : (q.classname.map Text.lower).isSome := by simp [h.classname, hp.classname]
  refine ⟨by simpa using hns, by simpa using hcn, fun k' hm => ?_, ?_⟩
  · have he : q.keys.map (fun k => (k.type, k.value)) = keys.map fun k => (k.type, k.value) :=
      respelled_map (fun h => by rw [h.right]) hk
    have hv := he ▸ List.mem_map_of_mem hm
    have ⟨k, hmem, hs⟩ := List.mem_map.mp hv
    simp only [Prod.mk.injEq] at hs
    have ht := hp.typed k (hperm.subset hmem)
    rwa [hs.left, hs.right] at ht
  · have he := respelled_map (fun {k k'} (h : RespelledKey k k') => h.left) hk
    rw [Named.Distinct, he]
    exact (hperm.map _).nodup_iff.mpr hp.distinct

-- The comparison of two paths is that of what they say, so it is an equivalence, which neither the
-- order of the keys nor the case of a name makes a difference to.
theorem sameCMPIObjectPath_equivalence :
    (∀ p : CMPIObjectPath, p.Addressed → sameCMPIObjectPath printg p p = .ok true) ∧
    (∀ p q : CMPIObjectPath, p.Addressed → q.Addressed → ∃ b, sameCMPIObjectPath printg p q = .ok b ∧
      sameCMPIObjectPath printg q p = .ok b) ∧
    (∀ p q r : CMPIObjectPath, p.Addressed → q.Addressed → r.Addressed →
      sameCMPIObjectPath printg p q = .ok true → sameCMPIObjectPath printg q r = .ok true →
      sameCMPIObjectPath printg p r = .ok true) ∧
    (∀ p q : CMPIObjectPath, p.Addressed → Respelled p q →
      sameCMPIObjectPath printg p q = .ok true) := by
  have hiff {p q : CMPIObjectPath} (hp : p.Comparable) (hq : q.Comparable) :
      sameCMPIObjectPath printg p q = .ok true ↔ p.meaning printg = q.meaning printg := by
    have ⟨b, hb, hbi⟩ := same_iff printg hp hq
    rw [hb, ← hbi]
    simp
  refine ⟨fun p hp => ?_, fun p q hp hq => ?_, fun p q r hp hq hr hpq hqr => ?_, fun p q hp h => ?_⟩
  · exact (hiff hp.comparable hp.comparable).mpr rfl
  · have ⟨b, hb, hbi⟩ := same_iff printg hp.comparable hq.comparable
    have ⟨c, hc, hci⟩ := same_iff printg hq.comparable hp.comparable
    have he : b = c := Bool.eq_iff_iff.mpr (by rw [hbi, hci, eq_comm])
    exact ⟨b, hb, he ▸ hc⟩
  · rw [hiff hp.comparable hq.comparable] at hpq
    rw [hiff hq.comparable hr.comparable] at hqr
    exact (hiff hp.comparable hr.comparable).mpr (hpq.trans hqr)
  · exact (hiff hp.comparable (h.comparable hp.comparable)).mpr (h.meaning_eq printg)

-- A path with a text and a reference for keys, and other letters and another order for it.
def hostPath : CMPIObjectPath where
  nameSpace := some (bytes "root")
  classname := some (bytes "System")
  keys      := [⟨bytes "Name", .string, .key, .string (bytes "host"), []⟩]

def drivePath : CMPIObjectPath where
  nameSpace := some (bytes "root")
  classname := some (bytes "Drive")
  keys      := [⟨bytes "Name", .string, .key, .string (bytes "sda"), []⟩, ⟨bytes "System", .ref, .key, .ref hostPath, []⟩]

def respelledPath : CMPIObjectPath where
  nameSpace := some (bytes "ROOT")
  classname := some (bytes "drive")
  keys      := [⟨bytes "system", .ref, .key, .ref hostPath, []⟩, ⟨bytes "NAME", .string, .key, .string (bytes "sda"), []⟩]

theorem drivePath_addressed : drivePath.Addressed := by
  let named : CMPIObjectPath := { drivePath with keys := [⟨bytes "Name", .string, .key, .string (bytes "sda"), []⟩] }
  have hstring (t : Text) : CMPIValue.Typed .string (.string t) := .string t (List.mem_cons_self ..)
  have hchars : ∀ k ∈ hostPath.keys, k.type ≠ .chars := by
    simp only [hostPath, List.forall_mem_singleton]
    decide
  have htyped : ∀ k ∈ hostPath.keys, k.value.Typed k.type := by
    simpa only [hostPath, List.forall_mem_singleton] using hstring _
  have hname : (newCMPIObjectPath (some (bytes "root")) (some (bytes "Drive"))).addKey (some (bytes "Name"))
    (some (.string (bytes "sda"))) .string = .ok named := rfl
  have hsystem : named.addKey (some (bytes "System")) (some (.ref hostPath)) .ref = .ok drivePath := rfl
  exact .addKey (.addKey (.new _ _) (by decide) (hstring _) hname) (by decide) (.ref rfl hchars htyped) hsystem

theorem sameCMPIObjectPath_equivalence_respelled : sameCMPIObjectPath id drivePath respelledPath = .ok true := by
  have hkeys : List.Forall₂ RespelledKey drivePath.keys.reverse respelledPath.keys :=
    .cons ⟨by decide, rfl⟩ (.cons ⟨by decide, rfl⟩ .nil)
  have hr : Respelled drivePath respelledPath := ⟨by decide, by decide, _, List.reverse_perm _, hkeys⟩
  exact (sameCMPIObjectPath_equivalence id).right.right.right _ _ drivePath_addressed hr

end Meaning

end Sfcc
