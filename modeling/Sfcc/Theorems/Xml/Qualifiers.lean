import Sfcc.Theorems.Xml.Built
import Sfcc.Theorems.Xml.Results
import Sfcc.Xml.Tree

namespace Sfcc

-- Adding to the item of a name.
section Added

variable {P : Type} {name : P → Text} {quals : P → List (NativeQualifier CMPIValue)} {l : List P}

@[simp]
theorem NativeQualifier.new_name (n : Text) (type : CMPIType) (state : CMPIValueState) (v : CMPIValue) :
    (NativeQualifier.new n type state v).name = n := by
  rw [NativeQualifier.new]
  split
  · split <;> rfl
  · rfl

@[simp]
theorem NativeQualifier.replace_name (type : CMPIType) (v : CMPIValue) (q : NativeQualifier CMPIValue) :
    (q.replace type v).name = q.name := by
  rw [NativeQualifier.replace]
  split
  · rfl
  · split <;> rfl

theorem NativeMethod.replace_name (type : CMPIType) (v : CMPIValue) (m : NativeMethod CMPIValue) :
    (NativeMethod.replace type v m).name = m.name := by
  rw [NativeMethod.replace]
  split
  · rfl
  · split <;> rfl

theorem NativeMethod.new_name (name : Text) (type : CMPIType) (state : CMPIValueState) (v : CMPIValue) :
    (NativeMethod.new name type state v).name = name := by
  rw [NativeMethod.new]
  split
  · split <;> rfl
  · rfl

-- What is found after a qualifier was added to some that were found before.
def addedTo (q : Option (NativeQualifier CMPIValue)) (m : Text) (v : CMPIValue) (type : CMPIType)
    (n : Text) : Option (NativeQualifier CMPIValue) :=
  if m.lower = n.lower then some (q.elim (.new m type .good v) (.replace type v)) else q

theorem get_setOrAddQualifier (qs : List (NativeQualifier CMPIValue)) (m : Text) (v : CMPIValue)
    (type : CMPIType) (n : Text) : Named.get NativeQualifier.name (setOrAddQualifier qs m v type) n =
      addedTo (Named.get NativeQualifier.name qs n) m v type n :=
  Named.get_setOrAdd (fun q => NativeQualifier.replace_name type v q) (by simp) n

def qualifierIn (name : P → Text) (quals : P → List (NativeQualifier CMPIValue)) (l : List P)
    (pname n : Text) : Option (NativeQualifier CMPIValue) :=
  (Named.get name l pname).bind fun p => Named.get NativeQualifier.name (quals p) n

theorem addQualifierTo_get {add : P → Text → P} {pname m : Text} (hn : ∀ p, name (add p m) = name p)
    {p : P} (hp : Named.get name l pname = some p) :
    ∃ l', addQualifierTo name add l (some pname) (some m) = .ok l' ∧
      Named.get name l' pname = some (add p m) := by
  cases hs : Named.set name (add · m) l pname with
  | none    => simp [Named.set_none_iff.mp hs] at hp
  | some l' =>
    refine ⟨l', by simp [addQualifierTo, hp, hs, deref, bind, Except.bind, pure, Except.pure], ?_⟩
    rw [Named.get_set hn hs, if_pos rfl, hp]
    rfl

theorem addQualifierTo_ok {add : P → Text → P} {pname m : Text} {v : CMPIValue} {type : CMPIType}
    (hn : ∀ p, name (add p m) = name p) (hq : ∀ p, quals (add p m) = setOrAddQualifier (quals p) m v type)
    (hp : (Named.get name l pname).isSome) :
    ∃ l', addQualifierTo name add l (some pname) (some m) = .ok l' ∧ (Named.get name l' pname).isSome ∧
      ∀ n, qualifierIn name quals l' pname n = addedTo (qualifierIn name quals l pname n) m v type n := by
  have ⟨p, hp⟩ := Option.isSome_iff_exists.mp hp
  have ⟨l', hl, hg⟩ := addQualifierTo_get hn hp
  refine ⟨l', hl, by simp [hg], ?_⟩
  intro n
  simp only [qualifierIn, hg, hp, Option.bind_some, hq]
  exact get_setOrAddQualifier _ m v type n

end Added

namespace Xml

-- A loop over qualifiers. `value` is what it makes of one, if anything.
namespace Loop

variable {σ : Type}

structure Adding (σ : Type) where
  value : σ → XtokQualifier XtokInstance → Except Fault (Option CMPIValue)
  add   : σ → Option Text → CMPIValue → CMPIType → Except Fault σ
  look  : σ → Text → Option (NativeQualifier CMPIValue)
  valid : σ → Prop
  added : ∀ {s}, valid s → ∀ m v type, ∃ s', add s (some m) v type = .ok s' ∧ valid s' ∧
    ∀ n, look s' n = addedTo (look s n) m v type n

variable (a : Adding σ)

def Adding.step (s : σ) (q : XtokQualifier XtokInstance) : Except Fault σ := do
  match ← a.value s q with
  | some v => a.add s q.name v q.type
  | none   => return s

-- A qualifier that gets in, under another name.
structure Adding.Passes (n : Text) (q : XtokQualifier XtokInstance) : Prop where
  name  : ∃ m, q.name = some m ∧ m.lower ≠ n.lower
  value : ∀ s, ∃ v, a.value s q = .ok v

variable {a} {n : Text} {s : σ} {qs : List (XtokQualifier XtokInstance)}

theorem Adding.Passes.step {q : XtokQualifier XtokInstance} (h : a.Passes n q) (hs : a.valid s) :
    ∃ s', a.step s q = .ok s' ∧ a.valid s' ∧ a.look s' n = a.look s n := by
  have ⟨m, hm, hne⟩ := h.name
  have ⟨v, hv⟩ := h.value s
  cases v with
  | none   => exact ⟨s, by simp [Adding.step, hv, bind, Except.bind, pure, Except.pure], hs, rfl⟩
  | some v =>
    have ⟨s', hs', hvalid, hlook⟩ := a.added hs m v q.type
    refine ⟨s', by simp [Adding.step, hv, hm, hs', bind, Except.bind], hvalid, ?_⟩
    rw [hlook, addedTo, if_neg hne]

theorem foldlM_passes (h : ∀ q ∈ qs, a.Passes n q) (hs : a.valid s) :
    ∃ s', qs.foldlM a.step s = .ok s' ∧ a.valid s' ∧ a.look s' n = a.look s n := by
  induction qs generalizing s with
  | nil          => exact ⟨s, rfl, hs, rfl⟩
  | cons q qs hi =>
    have ⟨hq, hqs⟩ := List.forall_mem_cons.mp h
    have ⟨s₁, h₁, hv₁, hl₁⟩ := hq.step hs
    have ⟨s₂, h₂, hv₂, hl₂⟩ := hi hqs hv₁
    refine ⟨s₂, ?_, hv₂, hl₂.trans hl₁⟩
    rw [List.foldlM_cons, h₁]
    exact h₂

-- Of the qualifiers, the one of a name is found as it was made.
theorem look_foldlM {before after : List (XtokQualifier XtokInstance)} {q : XtokQualifier XtokInstance}
    (ho : ∀ r ∈ before ++ after, a.Passes n r) (hq : q.name = some n) (hs : a.valid s)
    (hn : a.look s n = none) :
    ∃ s', before.foldlM a.step s = .ok s' ∧ ∃ r, (before ++ q :: after).foldlM a.step s = r ∧
      (∀ s'', r = .ok s'' → a.valid s'') ∧
      r.map (a.look · n) = (a.value s' q).map fun v => v.map (NativeQualifier.new n q.type .good) := by
  have ⟨hb, ha⟩ := List.forall_mem_append.mp ho
  have ⟨s₁, h₁, hv₁, hl₁⟩ := foldlM_passes hb hs
  refine ⟨s₁, h₁, (q :: after).foldlM a.step s₁, ?_, ?_⟩
  · rw [List.foldlM_append, h₁]
    rfl
  rw [List.foldlM_cons, Adding.step]
  cases hv : a.value s₁ q with
  | error e => exact ⟨nofun, rfl⟩
  | ok v    =>
    cases v with
    | none   =>
      have ⟨s₂, h₂, hv₂, hl₂⟩ := foldlM_passes ha hv₁
      show (∀ _, after.foldlM a.step s₁ = _ → _) ∧ (after.foldlM a.step s₁).map _ = _
      rw [h₂]
      simp [Except.map, hl₂, hl₁, hn, hv₂]
    | some v =>
      have ⟨s₂, h₂, hv₂, hl₂⟩ := a.added hv₁ n v q.type
      have ⟨s₃, h₃, hv₃, hl₃⟩ := foldlM_passes ha hv₂
      have he : (a.add s₁ q.name v q.type >>= fun s => after.foldlM a.step s) = .ok s₃ := by
        rw [hq, h₂]
        exact h₃
      show (∀ _, (a.add s₁ q.name v q.type >>= fun s => after.foldlM a.step s) = _ → _) ∧
        (a.add s₁ q.name v q.type >>= fun s => after.foldlM a.step s).map _ = _
      rw [he]
      simp [Except.map, hl₃, hl₂, hl₁, hn, hv₃, addedTo]

end Loop

-- The five loops.
namespace Loop

def ofClass : Adding CMPIConstClass where
  value _ q := qualifierToValue? str2CMPIDecoded arrayElementsDecoded q
  add       := NativeConstClass.addQualifier
  look cls  := Named.get NativeQualifier.name cls.qualifiers
  valid _   := True
  added _ m v type := ⟨_, rfl, trivial, get_setOrAddQualifier _ m v type⟩

def ofInstance : Adding CMPIInstance where
  value _ q := qualifierToValue? str2CMPIPointer arrayElements q
  add       := NativeInstance.addQualifier
  look ci   := Named.get NativeQualifier.name ci.qualifiers
  valid _   := True
  added _ m v type := ⟨_, rfl, trivial, get_setOrAddQualifier _ m v type⟩

-- The variables after a qualifier, whose value was released.
def after (s : ClassVars) (cls : CMPIConstClass) (v : CMPIValue) (type : CMPIType) : ClassVars where
  cls := cls
  val := .release type v
  arr := if type.isArray then .released else s.arr

def ofClassProperty (pname : Text) : Adding ClassVars where
  value _ q         := some <$> qualifierToValue q
  add s m v type    := do
    return after s (← s.cls.addPropertyQualifier pname m v type) v type
  look s            := qualifierIn NativeProperty.name (·.qualifiers) s.cls.props pname
  valid s           := (getProperty s.cls.props pname).isSome
  added {s} hs m v type := by
    have ⟨l, hl, hsome, hlook⟩ := @addQualifierTo_ok _ NativeProperty.name (·.qualifiers) s.cls.props
      (fun p m => { p with qualifiers := setOrAddQualifier p.qualifiers m v type }) pname m v type
      (fun _ => rfl) (fun _ => rfl) hs
    refine ⟨after s { s.cls with props := l } v type, ?_, hsome, hlook⟩
    simp [NativeConstClass.addPropertyQualifier, hl, bind, Except.bind, pure, Except.pure]

def ofMethod (mname : Text) : Adding ClassVars where
  value _ q         := some <$> qualifierToValue q
  add s m v type    := do
    return { s with cls := ← s.cls.addMethodQualifier mname m v type, val := .release type v }
  look s            := qualifierIn NativeMethod.name (·.qualifiers) s.cls.methods mname
  valid s           := (Named.get NativeMethod.name s.cls.methods mname).isSome
  added {s} hs m v type := by
    have ⟨l, hl, hsome, hlook⟩ := @addQualifierTo_ok _ NativeMethod.name (·.qualifiers) s.cls.methods
      (fun p m => { p with qualifiers := setOrAddQualifier p.qualifiers m v type }) mname m v type
      (fun _ => rfl) (fun _ => rfl) hs
    refine ⟨{ s with cls := { s.cls with methods := l }, val := .release type v }, ?_, hsome, hlook⟩
    simp [NativeConstClass.addMethodQualifier, hl, bind, Except.bind, pure, Except.pure]

-- The second component is the variable `type`, which an array is made with.
def instPropertyValue (type : CMPIType) (q : XtokQualifier XtokInstance) : Except Fault CMPIValue :=
  if q.type.isArray then .array <$> qualifierArray q.type.element (newCMPIArray 0 type) q.data
  else qualifierValue q.type q.data

def ofInstanceProperty (pname : Text) : Adding (CMPIInstance × CMPIType) where
  value s q         := some <$> instPropertyValue s.2 q
  add s m v type    := do
    return (← addInstPropertyQualifier s.1 pname m v type, if type.isArray then type.element else s.2)
  look s            := qualifierIn NativeProperty.name (·.qualifiers) s.1.props pname
  valid s           := (getProperty s.1.props pname).isSome
  added {s} hs m v type := by
    have ⟨l, hl, hsome, hlook⟩ := @addQualifierTo_ok _ NativeProperty.name (·.qualifiers) s.1.props
      (fun p m => { p with qualifiers := setOrAddQualifier p.qualifiers m v type }) pname m v type
      (fun _ => rfl) (fun _ => rfl) hs
    refine ⟨({ s.1 with props := l }, if type.isArray then type.element else s.2), ?_, hsome, hlook⟩
    simp [addInstPropertyQualifier, hl, bind, Except.bind, pure, Except.pure]

theorem setClassQualifiers_eq (cls : CMPIConstClass) (qs : List (XtokQualifier XtokInstance)) :
    setClassQualifiers cls qs = qs.foldlM ofClass.step cls :=
  rfl

theorem setClassProperty_eq (s : ClassVars) (p : XtokProperty XtokInstance) {pname : Text}
    (hp : p.name = some pname) : setClassProperty s p =
      setClassProperty s { p with val := { p.val with qualifiers := [] } } >>= fun s =>
        p.val.qualifiers.foldlM (ofClassProperty pname).step s := by
  have hstep : (ofClassProperty pname).step = fun s q => do
      let val ← qualifierToValue q
      return after s (← s.cls.addPropertyQualifier p.name q.name val q.type) val q.type := by
    funext s q
    cases h : qualifierToValue q <;>
      simp [Adding.step, ofClassProperty, h, hp, bind, Except.bind, Functor.map, Except.map]
  rw [hstep]
  cases p
  rename_i val propType
  cases propType <;>
    simp only [setClassProperty, bind_assoc, List.foldlM_nil, pure_bind] <;>
    rfl

theorem setInstPropertyQualifiers_cons (ci : CMPIInstance) (name : Option Text) (type : CMPIType)
    (q : XtokQualifier XtokInstance) (qs : List (XtokQualifier XtokInstance)) :
    setInstPropertyQualifiers ci name type (q :: qs) = (do
      let val ← instPropertyValue type q
      let ci ← addInstPropertyQualifier ci name q.name val q.type
      setInstPropertyQualifiers ci name (if q.type.isArray then q.type.element else type) qs) := by
  rw [setInstPropertyQualifiers]
  by_cases hq : q.type.isArray <;> simp [instPropertyValue, hq]

theorem setInstPropertyQualifiers_eq (ci : CMPIInstance) (pname : Text) (type : CMPIType)
    (qs : List (XtokQualifier XtokInstance)) : setInstPropertyQualifiers ci (some pname) type qs =
      qs.foldlM (ofInstanceProperty pname).step (ci, type) := by
  induction qs generalizing ci type with
  | nil          => rw [setInstPropertyQualifiers, List.foldlM_nil]
  | cons q qs hi =>
    have hstep : (ofInstanceProperty pname).step (ci, type) q = do
        let val ← instPropertyValue type q
        let ci ← addInstPropertyQualifier ci pname q.name val q.type
        return (ci, if q.type.isArray then q.type.element else type) := by
      rw [Adding.step]
      cases h : instPropertyValue type q <;> simp [ofInstanceProperty, h, bind, Except.bind]
    rw [setInstPropertyQualifiers_cons, List.foldlM_cons, hstep]
    simp only [hi, bind_assoc, pure_bind]

theorem setClassMethod_eq (s : ClassVars) (m : XtokMethod) {mname : Text} (hm : m.name = some mname) :
    setClassMethod s m = (do
      let cls ← s.addMethod mname m.type
      let s ← m.qualifiers.foldlM (ofMethod mname).step { s with cls }
      let cls ← m.params.foldlM (fun cls p => cls.addMethodParameter mname p.name p.type) s.cls
      return { s with cls }) := by
  have hstep : (ofMethod mname).step = fun s q => do
      let val ← qualifierToValue q
      return { s with cls := ← s.cls.addMethodQualifier mname q.name val q.type, val := .release q.type val } := by
    funext s q
    rw [Adding.step]
    cases h : qualifierToValue q <;> simp [ofMethod, h, bind, Except.bind, Functor.map, Except.map]
  rw [hstep, setClassMethod, hm]

-- The parameters of a method do not touch its qualifiers.
theorem foldlM_params {mname : Text} {ps : List XtokParam} (hp : ∀ p ∈ ps, p.name.isSome)
    {cls : CMPIConstClass} (hm : (Named.get NativeMethod.name cls.methods mname).isSome) :
    ∃ cls', ps.foldlM (fun cls p => cls.addMethodParameter mname p.name p.type) cls = .ok cls' ∧
      ∀ n, qualifierIn NativeMethod.name (·.qualifiers) cls'.methods mname n =
        qualifierIn NativeMethod.name (·.qualifiers) cls.methods mname n := by
  induction ps generalizing cls with
  | nil          => exact ⟨cls, rfl, fun _ => rfl⟩
  | cons p ps hi =>
    have ⟨hn, hps⟩ := List.forall_mem_cons.mp hp
    have ⟨n, hn⟩ := Option.isSome_iff_exists.mp hn
    have ⟨m, hm⟩ := Option.isSome_iff_exists.mp hm
    have ⟨l, hl, hg⟩ := @addQualifierTo_get _ NativeMethod.name cls.methods
      (fun m pname => { m with
        parameters := Named.setOrAdd NativeParameter.name ({ · with type := p.type })
          { name := pname, type := p.type } m.parameters pname }) mname n (fun _ => rfl) _ hm
    have ⟨cls', hcls, hq⟩ := @hi hps { cls with methods := l } (by simp [hg])
    refine ⟨cls', ?_, ?_⟩
    · rw [List.foldlM_cons, NativeConstClass.addMethodParameter, hn, hl]
      exact hcls
    · intro k
      rw [hq]
      simp [qualifierIn, hg, hm]

end Loop

-- A property with a value.
def XtokProperty.NonNull (p : XtokProperty XtokInstance) : Prop :=
  match p.propType, p.val.u with
  | .Value, .value v   => v.data.ptr.isNull = false ∧ p.val.null = false
  | .Reference, .ref _ => True
  | .Array, .array a   => a.values ≠ []
  | _, _               => False

theorem setInstProperty_eq (ci : CMPIInstance) (type : CMPIType) {p : XtokProperty XtokInstance}
    (hp : p.NonNull) : setInstProperty ci type p =
      setInstProperty ci type { p with val := { p.val with qualifiers := [] } } >>= fun s =>
        setInstPropertyQualifiers s.1 p.name s.2 p.val.qualifiers := by
  match p, hp with
  | ⟨name, _, _, _, valueType, ⟨.value ⟨⟨ptr, _⟩, _⟩, qs, null⟩, .Value⟩, ⟨hptr, hnull⟩ =>
    simp only at hptr hnull
    simp [setInstProperty, hptr, hnull, setInstPropertyQualifiers]
  | ⟨name, _, _, _, _, ⟨.ref r, qs, _⟩, .Reference⟩, _                                   =>
    simp [setInstProperty, setInstPropertyQualifiers]
  | ⟨name, _, _, _, valueType, ⟨.array ⟨max, vals⟩, qs, _⟩, .Array⟩, hv                  =>
    have hl : vals.length > 0 := List.length_pos_iff.mpr hv
    by_cases hm : max > 0 <;> simp [setInstProperty, hl, hm, setInstPropertyQualifiers]

-- What is made of a qualifier.

-- The texts a `VALUE` of a type can have. A string without a text is empty.
inductive Suits : CMPIType → Option Text → Prop
  | string (text : Option Text) : Suits .string text
  | boolean {t : Text} (h : t.lower = bytes "true" ∨ t.lower = bytes "false") : Suits .boolean t
  | char16 {t : Text} (h : t ≠ []) : Suits .char16 t
  | integer {type : CMPIType} {t : Text}
      (ht : type ∈ [CMPIType.uint8, .uint16, .uint32, .uint64, .sint8, .sint16, .sint32, .sint64])
      (h : scanNumber t ≠ none) : Suits type t
  | real {type : CMPIType} {t : Text} (ht : type ∈ [CMPIType.real32, .real64]) (h : t ≠ []) : Suits type t
  | dateTime {t : Text} (h : newCMPIDateTimeFromChars t ≠ none) : Suits .dateTime t

def textTypes : List CMPIType :=
  [.string, .boolean, .char16, .uint8, .uint16, .uint32, .uint64, .sint8, .sint16, .sint32, .sint64,
    .real32, .real64, .dateTime]

structure IsTextType (type : CMPIType) : Prop where
  simple  : type.isArray = false ∧ type.element = type
  ne      : type ≠ .null ∧ type ≠ .chars ∧ type ≠ .inst
  array   : (type ||| CMPIType.array).isArray ∧ (type ||| CMPIType.array).element = type
  neArray : type ||| CMPIType.array ≠ .null ∧ type ||| CMPIType.array ≠ .chars
  cloned  : type.cloning ≠ .lost

theorem isTextType {type : CMPIType} (h : type ∈ textTypes) : IsTextType type := by
  have hall : ∀ t ∈ textTypes, (t.isArray = false ∧ t.element = t) ∧
      (t ≠ .null ∧ t ≠ .chars ∧ t ≠ .inst) ∧
      ((t ||| CMPIType.array).isArray ∧ (t ||| CMPIType.array).element = t) ∧
      (t ||| CMPIType.array ≠ .null ∧ t ||| CMPIType.array ≠ .chars) ∧ t.cloning ≠ .lost := by
    decide
  have ⟨h₁, h₂, h₃, h₄, h₅⟩ := hall type h
  exact ⟨h₁, h₂, h₃, h₄, h₅⟩

theorem Suits.mem {type : CMPIType} {text : Option Text} (h : Suits type text) : type ∈ textTypes := by
  have hi : ∀ t ∈ [CMPIType.uint8, .uint16, .uint32, .uint64, .sint8, .sint16, .sint32, .sint64],
    t ∈ textTypes := by decide
  have hr : ∀ t ∈ [CMPIType.real32, .real64], t ∈ textTypes := by decide
  cases h with
  | string _ | boolean _ | char16 _ | dateTime _ => simp [textTypes]
  | integer ht _                                 => exact hi type ht
  | real ht _                                    => exact hr type ht

theorem Suits.text {type : CMPIType} {text : Option Text} (h : Suits type text) (hs : type ≠ .string) :
    ∃ t, text = some t := by
  cases h with
  | string _                                                 => exact absurd rfl hs
  | boolean _ | char16 _ | dateTime _ | integer _ _ | real _ _ => exact ⟨_, rfl⟩

theorem str2CMPIText_ok {type : CMPIType} (h : type ∈ textTypes) (t : Text) :
    ∃ v, str2CMPIText type (some t) = .ok v := by
  simp only [textTypes, List.mem_cons, List.not_mem_nil, or_false] at h
  rcases h with rfl | rfl | rfl | rfl | rfl | rfl | rfl | rfl | rfl | rfl | rfl | rfl | rfl | rfl
  all_goals exact ⟨_, rfl⟩

-- The value a text stands for, with the escapes taken out of a string.
def reading (type : CMPIType) (text : Option Text) : CMPIValue :=
  if type = .string then .string (XmlToAsciiStr (text.getD []))
  else (str2CMPIText type text).toOption.getD .zero

-- A conversion reads a text if it makes the value of it.
def ReadsText (conv : CMPIType → XtokPointer XtokInstance → Except Fault CMPIValue) (type : CMPIType)
    (text : Option Text) : Prop :=
  conv type (.value text) = .ok (reading type text)

theorem readsText_pointer_iff {type : CMPIType} {text : Option Text} (h : Suits type text) :
    ReadsText str2CMPIPointer type text ↔
      (type = .string → ∃ t, text = some t ∧ XmlToAsciiStr t = t) := by
  by_cases hs : type = .string
  · subst hs
    cases text with
    | none   => simp [ReadsText, str2CMPIPointer, reading]
    | some t => simp [ReadsText, str2CMPIPointer, reading, eq_comm]
  · have ⟨t, ht⟩ := h.text hs
    have ⟨v, hv⟩ := str2CMPIText_ok h.mem t
    simp [ReadsText, str2CMPIPointer, reading, hs, ht, hv, Except.toOption]

theorem readsText_decoded_iff {type : CMPIType} {text : Option Text} (h : Suits type text) :
    ReadsText str2CMPIDecoded type text ↔ (type = .string → text.isSome) := by
  by_cases hs : type = .string
  · subst hs
    cases text with
    | none   => simp [ReadsText, str2CMPIDecoded, deref, bind, Except.bind]
    | some t => simp [ReadsText, str2CMPIDecoded, reading, deref, bind, Except.bind]
  · obtain ⟨t, ht⟩ := h.text hs
    obtain ⟨v, hv⟩ := str2CMPIText_ok h.mem t
    have hc := (isTextType h.mem).ne.2.1
    simp [ReadsText, str2CMPIDecoded, reading, hs, ht, hv, hc, Except.toOption]

namespace Tree.Qualifier

def attr : Qualifier → QualifierAttr
  | .empty a | .value a _ | .array a _ => a

def values : Qualifier → List Value
  | .empty _    => []
  | .value _ v  => [v]
  | .array _ vs => vs

-- A value or an array, of a type there are texts of.
structure Typed (q : Qualifier) : Prop where
  type : IsTextType q.attr.type
  some : ∀ a, q ≠ .empty a

-- A name, a type and values of this type.
structure Stated (n : Text) (q : Qualifier) : Prop where
  name  : q.attr.name = some n
  some  : q.values ≠ []
  texts : ∀ v ∈ q.values, ∃ text, v = .text text ∧ Suits q.attr.type text

-- The value of a `VALUE` in a qualifier of a type.
def valueOf (type : CMPIType) : Value → CMPIValue
  | .text text => reading type text
  | .cdata _ _ => .zero

-- The qualifier that is stated, wherever it is.
def meaning (n : Text) : Qualifier → NativeQualifier CMPIValue
  | .array a vs => {
      name  := n
      type  := a.type ||| .array
      state := .good
      value := .array { newCMPIArray vs.length a.type with
        data := vs.map fun v => { state := .good, value := valueOf a.type v } } }
  | .value a v  => { name := n, type := a.type, state := .good, value := valueOf a.type v }
  | .empty a    => { name := n, type := a.type, state := .good, value := .zero }

-- Whether an array that is made for a type holds elements of the type of the qualifier.
def Fits (type : CMPIType) : Qualifier → Prop
  | .array a _            => (newCMPIArray 0 type).type = a.type
  | .value _ _ | .empty _ => True

-- The value that is made with a conversion, and with an array that is made for a type.
def made (conv : CMPIType → XtokPointer XtokInstance → Except Fault CMPIValue) (type : CMPIType) :
    Qualifier → Except Fault CMPIValue
  | .empty _    => throw .wild
  | .value a v  => conv a.type v.pointer
  | .array a vs => (vs.mapM fun v => conv a.type v.pointer).map fun ws =>
      .array ((newCMPIArray 0 type).setFrom a.type 0 ws)

end Tree.Qualifier

section Made

open Xml.Tree

variable {n : Text} {q : Qualifier} {type : CMPIType}

theorem ofList_values (vs : List (XtokPointer XtokInstance)) : (XtokValueArray.ofList vs).values = vs := by
  have h : ∀ a : XtokValueArray XtokInstance, (vs.foldl XtokValueArray.add a).values = a.values ++ vs := by
    induction vs with
    | nil          => simp
    | cons v vs hi => simp [hi, XtokValueArray.add]
  exact (h { max := 16 }).trans (List.nil_append vs)

theorem ofList_max (vs : List (XtokPointer XtokInstance)) : (XtokValueArray.ofList vs).max ≠ 0 := by
  have h : ∀ a : XtokValueArray XtokInstance, a.max ≠ 0 → (vs.foldl XtokValueArray.add a).max ≠ 0 := by
    induction vs with
    | nil          => exact fun _ h => h
    | cons v vs hi =>
      intro a ha
      apply hi
      simp only [XtokValueArray.add]
      split
      · omega
      · exact ha
  exact h { max := 16 } (by decide)

theorem native_clone_leaf {v : CMPIValue} (h : v.Leaf) (ht : type.cloning ≠ .lost) :
    native_clone_CMPIValue type v = v := by
  rw [native_clone_CMPIValue, CMPIType.cloneWith, h.clone_eq]
  cases hc : type.cloning with
  | lost          => exact absurd hc ht
  | object | value => rfl

theorem Tree.Qualifier.Stated.isTextType (h : q.Stated n) : IsTextType q.attr.type := by
  have ⟨v, hv⟩ := List.exists_mem_of_ne_nil _ h.some
  have ⟨_, _, hs⟩ := h.texts v hv
  exact Xml.isTextType hs.mem

theorem Tree.Qualifier.Stated.typed (h : q.Stated n) : q.Typed where
  type   := h.isTextType
  some a := by
    intro he
    exact h.some (by rw [he]; rfl)

-- A stored array of values that are the same as their copies.
theorem native_clone_array {a : CMPIArray} {ws : List CMPIValue} (ht : type.isArray)
    (hw : ∀ w ∈ ws, native_clone_CMPIValue a.type w = w)
    (ha : a.data = ws.map (NativeArray.item a.type)) :
    native_clone_CMPIValue type (.array a) = .array { newCMPIArray ws.length a.type with
      data := ws.map fun w => { state := .good, value := w } } := by
  have hitems : ∀ us : List CMPIValue, (∀ w ∈ us, native_clone_CMPIValue a.type w = w) →
      cloneItems a.type (us.map (NativeArray.item a.type)) =
        us.map fun w => { state := .good, value := w } := by
    intro us hu
    induction us with
    | nil          => rfl
    | cons w us hi =>
      have ⟨hw, hus⟩ := List.forall_mem_cons.mp hu
      have hn : CMPIValueState.good.isNull = false := by decide
      rw [List.map_cons, NativeArray.item, hw, cloneItems, hi hus, if_neg (by simp [hn])]
      rw [native_clone_CMPIValue] at hw
      simp [hw]
  have ho : type.cloning = .object := by rw [CMPIType.cloning, if_pos ht]
  rw [native_clone_CMPIValue, CMPIType.cloneWith, ho, CMPIValue.clone, ha, hitems ws hw, List.length_map]

theorem new_good {v : CMPIValue} (ht : type ≠ .null ∧ type ≠ .chars) :
    NativeQualifier.new n type .good v =
      { name := n, type := type, state := .good, value := native_clone_CMPIValue type v } := by
  have hg : CMPIValueState.good ≠ .null := by decide
  rw [NativeQualifier.new, if_pos ⟨ht.left, hg⟩, if_neg ht.right]

variable {conv : CMPIType → XtokPointer XtokInstance → Except Fault CMPIValue} {a : QualifierAttr}

theorem made_value_iff {text : Option Text} (ht : IsTextType a.type)
    (hc : ∀ w, conv a.type (.value text) = .ok w → w.Leaf) :
    (conv a.type (.value text)).map (NativeQualifier.new n a.type .good) =
      .ok (Qualifier.meaning n (.value a (.text text))) ↔ ReadsText conv a.type text := by
  rw [ReadsText]
  cases h : conv a.type (.value text) with
  | error e => simp [Except.map]
  | ok w    =>
    have hw := native_clone_leaf (hc w h) ht.cloned
    simp [Except.map, new_good ⟨ht.ne.left, ht.ne.right.left⟩, hw, Qualifier.meaning, Qualifier.valueOf]

theorem mapM_map_iff {T α : Type} {f : T → Except Fault α} {g : T → α} {l : List T} :
    l.mapM f = .ok (l.map g) ↔ ∀ t ∈ l, f t = .ok (g t) := by
  rw [mapM_ok, List.forall₂_map_right_iff, List.forall₂_same]

theorem setFrom_type_iff {ws vs : List CMPIValue} (ht : IsTextType a.type)
    (h : native_clone_CMPIValue (a.type ||| CMPIType.array)
      (.array ((newCMPIArray 0 type).setFrom a.type 0 ws)) = .array { newCMPIArray vs.length a.type with
        data := vs.map fun w => { state := .good, value := w } }) :
    (newCMPIArray 0 type).type = a.type := by
  have ho : (a.type ||| CMPIType.array).cloning = .object := by
    rw [CMPIType.cloning, if_pos ht.array.left]
  have hflat := newCMPIArray_flat 0 type
  rw [native_clone_CMPIValue, CMPIType.cloneWith, ho, CMPIValue.clone] at h
  have htype := congrArg NativeArray.type (CMPIValue.array.inj h)
  simp only [NativeArray.setFrom_type] at htype
  rw [newCMPIArray_type hflat, newCMPIArray_type ⟨ht.simple.left, ht.ne.right.left⟩] at htype
  exact htype

theorem made_array_iff {texts : List (Option Text)} (ht : IsTextType a.type)
    (hc : ∀ text w, conv a.type (.value text) = .ok w → w.Leaf) :
    ((texts.mapM fun text => conv a.type (.value text)).map fun ws =>
      NativeQualifier.new n (a.type ||| .array) .good
        (.array ((newCMPIArray 0 type).setFrom a.type 0 ws))) =
      .ok (Qualifier.meaning n (.array a (texts.map .text))) ↔
      (newCMPIArray 0 type).type = a.type ∧ ∀ text ∈ texts, ReadsText conv a.type text := by
  have hm : Qualifier.meaning n (.array a (texts.map .text)) = {
      name  := n
      type  := a.type ||| .array
      state := .good
      value := .array { newCMPIArray (texts.map (reading a.type)).length a.type with
        data := (texts.map (reading a.type)).map fun v => { state := .good, value := v } } } := by
    simp [Qualifier.meaning, Qualifier.valueOf, Function.comp_def]
  rw [hm]
  cases h : texts.mapM fun text => conv a.type (.value text) with
  | error e =>
    constructor
    · nofun
    · intro ⟨_, hr⟩
      rw [mapM_map_iff.mpr hr] at h
      cases h
  | ok ws   =>
    have hw : ∀ w ∈ ws, native_clone_CMPIValue a.type w = w :=
      mapM_forall h fun hcw => native_clone_leaf (hc _ _ hcw) ht.cloned
    have heq : ws = texts.map (reading a.type) ↔ ∀ text ∈ texts, ReadsText conv a.type text := by
      unfold ReadsText
      rw [← mapM_map_iff, h]
      simp
    have hdata : ∀ _ : (newCMPIArray 0 type).type = a.type, native_clone_CMPIValue
        (a.type ||| CMPIType.array) (.array ((newCMPIArray 0 type).setFrom a.type 0 ws)) =
          .array { newCMPIArray ws.length a.type with
            data := ws.map fun w => { state := .good, value := w } } := by
      intro hf
      have htype : ((newCMPIArray 0 type).setFrom a.type 0 ws).type = a.type := by simp [hf]
      have hs := NativeArray.setFrom_data rfl hf ht.ne.left ht.ne.right.left ws
      have hn := @native_clone_array _ ((newCMPIArray 0 type).setFrom a.type 0 ws) ws ht.array.left
        (htype.symm ▸ hw) (htype.symm ▸ hs)
      rw [htype] at hn
      exact hn
    simp only [Except.map, Except.ok.injEq, new_good ht.neArray, NativeQualifier.mk.injEq, true_and]
    constructor
    · intro he
      have hf := setFrom_type_iff ht he
      rw [hdata hf] at he
      have hd := congrArg NativeArray.data (CMPIValue.array.inj he)
      have hinj : (fun w : CMPIValue => ({ state := .good, value := w } : NativeArrayItem CMPIValue)).Injective :=
        fun _ _ h => congrArg NativeArrayItem.value h
      exact ⟨hf, heq.mp (hinj.list_map hd)⟩
    · intro ⟨hf, hr⟩
      rw [hdata hf, heq.mpr hr]

theorem made_iff (hq : q.Stated n) (hc : ∀ text w, conv q.attr.type (.value text) = .ok w → w.Leaf) :
    (q.made conv type).map (NativeQualifier.new n q.xtok.type .good) = .ok (q.meaning n) ↔
      q.Fits type ∧ ∀ text, .text text ∈ q.values → ReadsText conv q.attr.type text := by
  have ht := hq.isTextType
  cases q with
  | empty a    => exact absurd rfl hq.some
  | value a v  =>
    have ⟨text, hv, _⟩ := hq.texts v (List.mem_singleton_self v)
    subst hv
    refine (made_value_iff ht fun w => hc text w).trans ?_
    simp [Qualifier.Fits, Qualifier.values, Qualifier.attr]
  | array a vs =>
    have ⟨texts, hvs⟩ : ∃ texts : List (Option Text), vs = texts.map .text := by
      have htexts := hq.texts
      simp only [Qualifier.values] at htexts
      clear hq
      induction vs with
      | nil          => exact ⟨[], rfl⟩
      | cons v vs hi =>
        have ⟨⟨text, hv, _⟩, hvs⟩ := List.forall_mem_cons.mp htexts
        have ⟨texts, he⟩ := hi hc ht hvs
        exact ⟨text :: texts, by rw [hv, he]; rfl⟩
    subst hvs
    have hmade : (Qualifier.made conv type (.array a (texts.map .text))).map
        (NativeQualifier.new n (a.type ||| .array) .good) =
          (texts.mapM fun text => conv a.type (.value text)).map fun ws =>
            NativeQualifier.new n (a.type ||| .array) .good
              (.array ((newCMPIArray 0 type).setFrom a.type 0 ws)) := by
      rw [Qualifier.made, List.mapM_map]
      show Except.map _ (Except.map _ (texts.mapM fun text => conv a.type (.value text))) = _
      cases texts.mapM fun text => conv a.type (.value text) <;> rfl
    have hi := @made_array_iff n type conv a texts ht hc
    rw [← hmade] at hi
    refine hi.trans ?_
    simp [Qualifier.Fits, Qualifier.values, Qualifier.attr]

-- The values of the five loops.

theorem qualifierToValue?_eq (hq : q.Typed)
    {elements : CMPIType → CMPIArray → ℕ → List (XtokPointer XtokInstance) → Except Fault CMPIArray}
    (he : ∀ type arr i vals,
      elements type arr i vals = (vals.mapM (conv type)).map (NativeArray.setFrom type arr i)) :
    qualifierToValue? conv elements q.xtok = some <$> q.made conv q.attr.type := by
  cases q with
  | empty a    => exact absurd rfl (hq.some a)
  | value a v  =>
    have ht : IsTextType a.type := hq.type
    have hs := ht.simple.left
    rw [qualifierToValue?, Qualifier.xtok]
    simp only [XtokQualifier.lexed, hs, Bool.false_eq_true, if_false, Qualifier.made]
    cases v <;> rfl
  | array a vs =>
    have ht : IsTextType a.type := hq.type
    obtain ⟨ha, hel⟩ := ht.array
    rw [qualifierToValue?, Qualifier.xtok]
    simp only [ha, if_true, hel, ofList_max, ofList_values, ne_eq, not_false_eq_true, he,
      Qualifier.made, Qualifier.attr, Grammar.value_pointers, List.mapM_map, Function.comp_def]
    cases vs.mapM fun v => conv a.type v.pointer <;> rfl

theorem instPropertyValue_eq (hq : q.Typed) :
    Loop.instPropertyValue type q.xtok = q.made str2CMPIPointer type := by
  cases q with
  | empty a    => exact absurd rfl (hq.some a)
  | value a v  =>
    have ht : IsTextType a.type := hq.type
    have hs := ht.simple.left
    rw [Loop.instPropertyValue, Qualifier.xtok]
    simp only [XtokQualifier.lexed, hs, Bool.false_eq_true, if_false, Qualifier.made]
    cases v <;> rfl
  | array a vs =>
    have ht : IsTextType a.type := hq.type
    obtain ⟨ha, hel⟩ := ht.array
    have hmax := ofList_max (Value.pointers vs)
    have hvals := ofList_values (Value.pointers vs)
    rw [Loop.instPropertyValue, Qualifier.xtok]
    generalize XtokValueArray.ofList (Value.pointers vs) = o at hmax hvals
    cases o
    simp only at hmax hvals
    simp only [ha, if_true, hel, qualifierArray, hmax, hvals, ne_eq, not_false_eq_true,
      arrayElements_eq, Qualifier.made, Grammar.value_pointers, List.mapM_map, Function.comp_def]
    cases vs.mapM fun v => str2CMPIPointer a.type v.pointer <;> rfl

theorem map_some_iff {T α : Type} {x : Except Fault T} {f : T → α} {b : α} :
    ((some <$> x).map fun v => v.map f) = .ok (some b) ↔ x.map f = .ok b := by
  cases x <;> simp [Functor.map, Except.map]

end Made

-- The places of a qualifier.

-- Qualifiers with others, that get in under other names.
structure Among {σ : Type} (a : Loop.Adding σ) (n : Text) (q : XtokQualifier XtokInstance) where
  before : List (XtokQualifier XtokInstance)
  after  : List (XtokQualifier XtokInstance)
  others : ∀ r ∈ before ++ after, a.Passes n r

def Among.qualifiers {σ : Type} {a : Loop.Adding σ} {n : Text} {q : XtokQualifier XtokInstance}
    (l : Among a n q) : List (XtokQualifier XtokInstance) :=
  l.before ++ q :: l.after

section Places

variable (n : Text) (q : XtokQualifier XtokInstance)

-- A class, as it was before its qualifiers were set.
structure OnClass extends Among Loop.ofClass n q where
  cls : CMPIConstClass
  new : Named.get NativeQualifier.name cls.qualifiers n = none

structure OnInstance extends Among Loop.ofInstance n q where
  ci  : CMPIInstance
  new : Named.get NativeQualifier.name ci.qualifiers n = none

-- A property of a class, which leaves `start` before its qualifiers.
structure OnClassProperty (pname : Text) extends Among (Loop.ofClassProperty pname) n q where
  vars   : ClassVars
  p      : XtokProperty XtokInstance
  start  : ClassVars
  name   : p.name = some pname
  known  : p.propType ≠ .Unknown
  starts : setClassProperty vars { p with val := { p.val with qualifiers := [] } } = .ok start
  new    : qualifierIn NativeProperty.name (·.qualifiers) start.cls.props pname n = none

structure OnMethod (mname : Text) extends Among (Loop.ofMethod mname) n q where
  vars   : ClassVars
  m      : XtokMethod
  cls    : CMPIConstClass
  name   : m.name = some mname
  params : ∀ p ∈ m.params, p.name.isSome
  starts : vars.addMethod mname m.type = .ok cls
  new    : qualifierIn NativeMethod.name (·.qualifiers) cls.methods mname n = none

-- A property of an instance that is not null, with the type that is left by what was before it.
structure OnInstanceProperty (pname : Text) extends Among (Loop.ofInstanceProperty pname) n q where
  ci      : CMPIInstance
  type    : CMPIType
  p       : XtokProperty XtokInstance
  start   : CMPIInstance × CMPIType
  name    : p.name = some pname
  nonNull : p.NonNull
  starts  : setInstProperty ci type { p with val := { p.val with qualifiers := [] } } = .ok start
  new     : qualifierIn NativeProperty.name (·.qualifiers) start.1.props pname n = none

end Places
-- The qualifier that is found when the conversion of its place is done.
section Found

variable {n : Text} {q : XtokQualifier XtokInstance} {pname : Text}

def OnClass.qualifier (w : OnClass n q) : Except Fault (Option (NativeQualifier CMPIValue)) :=
  (setClassQualifiers w.cls w.qualifiers).map fun cls => Named.get NativeQualifier.name cls.qualifiers n

def OnInstance.qualifier (w : OnInstance n q) : Except Fault (Option (NativeQualifier CMPIValue)) :=
  (setInstQualifiers w.ci w.qualifiers).map fun ci => Named.get NativeQualifier.name ci.qualifiers n

def OnClassProperty.qualifier (w : OnClassProperty n q pname) :
    Except Fault (Option (NativeQualifier CMPIValue)) :=
  (setClassProperty w.vars { w.p with val := { w.p.val with qualifiers := w.qualifiers } }).map fun s =>
    qualifierIn NativeProperty.name (·.qualifiers) s.cls.props pname n

def OnMethod.qualifier (w : OnMethod n q pname) : Except Fault (Option (NativeQualifier CMPIValue)) :=
  (setClassMethod w.vars { w.m with qualifiers := w.qualifiers }).map fun s =>
    qualifierIn NativeMethod.name (·.qualifiers) s.cls.methods pname n

def OnInstanceProperty.qualifier (w : OnInstanceProperty n q pname) :
    Except Fault (Option (NativeQualifier CMPIValue)) :=
  (setInstProperty w.ci w.type { w.p with val := { w.p.val with qualifiers := w.qualifiers } }).map
    fun s => qualifierIn NativeProperty.name (·.qualifiers) s.1.props pname n

-- The variable `type` when the qualifier is reached: every array leaves its type.
def typeAfter (type : CMPIType) (qs : List (XtokQualifier XtokInstance)) : CMPIType :=
  qs.foldl (fun type q => if q.type.isArray then q.type.element else type) type

def OnInstanceProperty.leftover (w : OnInstanceProperty n q pname) : CMPIType :=
  typeAfter w.start.2 w.before

theorem typeAfter_eq {s s' : CMPIInstance × CMPIType} {qs : List (XtokQualifier XtokInstance)}
    (h : qs.foldlM (Loop.ofInstanceProperty pname).step s = .ok s') : s'.2 = typeAfter s.2 qs := by
  induction qs generalizing s with
  | nil          =>
    cases h
    rfl
  | cons q qs hi =>
    have ⟨s₁, h₁, h₂⟩ := ok_bind.mp h
    have ht : s₁.2 = if q.type.isArray then q.type.element else s.2 := by
      have ⟨v, hv, ha⟩ := ok_bind.mp h₁
      cases v with
      | none   =>
        cases hi' : Loop.instPropertyValue s.2 q <;> simp [Loop.ofInstanceProperty, hi', Functor.map, Except.map] at hv
      | some v =>
        have ⟨ci, _, hci⟩ := ok_bind.mp ha
        cases hci
        rfl
    rw [hi h₂, ht]
    rfl

theorem qualifiers_eq {σ : Type} {a : Loop.Adding σ} (l : Among a n q) {s : σ} (hq : q.name = some n)
    (hs : a.valid s) (hn : a.look s n = none) : ∃ s', l.before.foldlM a.step s = .ok s' ∧
      (∀ s'', l.qualifiers.foldlM a.step s = .ok s'' → a.valid s'') ∧
      (l.qualifiers.foldlM a.step s).map (a.look · n) =
        (a.value s' q).map fun v => v.map (NativeQualifier.new n q.type .good) := by
  have ⟨s', h, r, hr, hvalid, hlook⟩ := Loop.look_foldlM l.others hq hs hn
  exact ⟨s', h, hr ▸ hvalid, hr ▸ hlook⟩

theorem getProperty_set {name : Text} {value : Option CMPIValue} {type : CMPIType}
    {state : CMPIValueState} {props : List (NativeProperty CMPIValue)} (v : CMPIValue) :
    (getProperty ((setProperty props name type value).getD
      (addProperty props name type state v)) name).isSome := by
  have hg := @Named.get_setOrAdd _ NativeProperty.name (.replace type value)
    (.new name type state v) props name (NativeProperty.replace_name) (NativeProperty.new_name ..) name
  rw [if_pos rfl] at hg
  exact Option.isSome_iff_exists.mpr ⟨_, hg⟩

theorem setProperty_found {ci ci' : CMPIInstance} {value : Option CMPIValue} {type : CMPIType}
    (h : ci.setProperty (some pname) value type = .ok ci') : (getProperty ci'.props pname).isSome := by
  have hg := @getProperty_set pname value type (if value.isNone then .null else .good) ci.props
  obtain ⟨name, hd, h⟩ := ok_bind.mp h
  cases hd
  cases hs : setProperty ci.props pname type value with
  | none       =>
    rw [hs] at h hg
    obtain ⟨props, ha, h⟩ := ok_bind.mp h
    obtain ⟨v, he, _⟩ := addPropertyPtr_ok ha
    cases h
    exact he.symm ▸ hg v
  | some props =>
    rw [hs] at h hg
    cases h
    exact hg .zero

theorem addProperty_found {cls cls' : CMPIConstClass} {value : CMPIValue} {type : CMPIType}
    {state : CMPIValueState} (h : cls.addProperty (some pname) value type state = .ok cls') :
    (getProperty cls'.props pname).isSome := by
  have hg := @getProperty_set pname (some value) type state cls.props value
  simp only [NativeConstClass.addProperty, deref, bind, Except.bind, pure, Except.pure] at h
  cases hs : setProperty cls.props pname type value with
  | none       =>
    rw [hs] at h hg
    cases h
    exact hg
  | some props =>
    rw [hs] at h hg
    cases h
    exact hg

theorem OnMethod.found (w : OnMethod n q pname) :
    (Named.get NativeMethod.name w.cls.methods pname).isSome := by
  obtain ⟨v, _, hs⟩ := ok_bind.mp w.starts
  simp only [NativeConstClass.addMethod, deref, bind, Except.bind, pure, Except.pure,
    Except.ok.injEq] at hs
  have hg := @Named.get_setOrAdd _ NativeMethod.name (.replace w.m.type v)
    (.new pname w.m.type .null v) w.vars.cls.methods pname
    (NativeMethod.replace_name _ _) (NativeMethod.new_name ..) pname
  rw [if_pos rfl] at hg
  rw [← hs]
  exact Option.isSome_iff_exists.mpr ⟨_, hg⟩

theorem setClassProperty_found {s s' : ClassVars} {p : XtokProperty XtokInstance}
    (hn : p.name = some pname) (hk : p.propType ≠ .Unknown)
    (h : setClassProperty s { p with val := { p.val with qualifiers := [] } } = .ok s') :
    (getProperty s'.cls.props pname).isSome := by
  cases p with
  | mk name _ _ _ _ _ propType =>
    simp only at hn hk
    subst hn
    cases propType with
    | Unknown   => exact absurd rfl hk
    | Value | Reference | Array =>
      simp only [setClassProperty, List.foldlM_nil] at h
      obtain ⟨cls, ha, he⟩ := ok_bind.mp h
      obtain ⟨v, _, ha⟩ := ok_bind.mp ha
      cases he
      exact addProperty_found ha

theorem setInstProperty_found {ci : CMPIInstance} {type : CMPIType} {p : XtokProperty XtokInstance}
    {s : CMPIInstance × CMPIType} (hn : p.name = some pname) (hp : p.NonNull)
    (h : setInstProperty ci type { p with val := { p.val with qualifiers := [] } } = .ok s) :
    (getProperty s.1.props pname).isSome := by
  match p, hn, hp with
  | ⟨_, _, _, _, valueType, ⟨.value ⟨⟨ptr, _⟩, _⟩, qs, null⟩, .Value⟩, hn, ⟨hptr, hnull⟩ =>
    simp only at hptr hnull hn
    subst hn
    simp only [setInstProperty, hptr, hnull, setInstPropertyQualifiers] at h
    have ⟨v, _, h⟩ := ok_bind.mp h
    have ⟨ci', hs, he⟩ := ok_bind.mp h
    cases he
    exact setProperty_found hs
  | ⟨_, _, _, _, _, ⟨.ref r, qs, _⟩, .Reference⟩, hn, _ =>
    simp only at hn
    subst hn
    simp only [setInstProperty, setInstPropertyQualifiers] at h
    have ⟨v, _, h⟩ := ok_bind.mp h
    have ⟨ci', hs, he⟩ := ok_bind.mp h
    cases he
    exact setProperty_found hs
  | ⟨_, _, _, _, valueType, ⟨.array ⟨max, vals⟩, qs, _⟩, .Array⟩, hn, hv =>
    have hl : vals.length > 0 := List.length_pos_iff.mpr hv
    simp only at hn
    subst hn
    simp only [setInstProperty, hl, if_true, setInstPropertyQualifiers] at h
    split at h
    all_goals
      have ⟨v, _, h⟩ := ok_bind.mp h
      have ⟨ci', hs, he⟩ := ok_bind.mp h
      cases he
      exact setProperty_found hs

variable {t : Tree.Qualifier}

theorem xtok_name (t : Tree.Qualifier) : t.xtok.name = t.attr.name := by
  cases t <;> rfl

-- A conversion of a text to a value that refers to nothing.
def MakesLeaf (conv : CMPIType → XtokPointer XtokInstance → Except Fault CMPIValue) : Prop :=
  ∀ type text w, conv type (.value text) = .ok w → w.Leaf

theorem pointer_makesLeaf : MakesLeaf str2CMPIPointer := by
  intro type text w h
  rw [str2CMPIPointer] at h
  exact str2CMPIText_leaf h

theorem decoded_makesLeaf : MakesLeaf str2CMPIDecoded := by
  intro type text w h
  rw [str2CMPIDecoded] at h
  split at h
  · have ⟨_, _, h⟩ := deref_bind h
    exact str2CMPIText_leaf h
  · exact str2CMPIText_leaf h

-- What is found in the end is what is stated, if the conversion reads the texts and an array is made
-- for its elements.
theorem found_iff {conv : CMPIType → XtokPointer XtokInstance → Except Fault CMPIValue}
    {type : CMPIType} {r : Except Fault (Option (NativeQualifier CMPIValue))} (ht : t.Stated n)
    (hc : MakesLeaf conv)
    (hr : r = (some <$> t.made conv type).map fun v => v.map (NativeQualifier.new n t.xtok.type .good)) :
    r = .ok (some (t.meaning n)) ↔
      t.Fits type ∧ ∀ text, .text text ∈ t.values → ReadsText conv t.attr.type text := by
  rw [hr, map_some_iff]
  exact made_iff ht (hc _)

-- An array of the type of its elements.
theorem fits_type (ht : t.Stated n) : t.Fits t.attr.type := by
  have h := ht.isTextType
  cases t with
  | array a vs          => exact newCMPIArray_type ⟨h.simple.left, h.ne.right.left⟩
  | value _ _ | empty _ => trivial

theorem qualifierToValue_eq (ht : t.Typed) :
    qualifierToValue t.xtok = t.made str2CMPIPointer t.xtok.type.element :=
  instPropertyValue_eq ht

theorem element_xtok (ht : t.Stated n) : t.xtok.type.element = t.attr.type := by
  have h := ht.isTextType
  cases t with
  | empty a    => exact absurd rfl ht.some
  | value a v  => exact h.simple.right
  | array a vs => exact h.array.right

theorem OnClass.qualifier_iff (ht : t.Stated n) (w : OnClass n t.xtok) :
    w.qualifier = .ok (some (t.meaning n)) ↔
      ∀ text, .text text ∈ t.values → ReadsText str2CMPIDecoded t.attr.type text := by
  have hq : t.xtok.name = some n := (xtok_name t).trans ht.name
  have ⟨s, _, _, hs⟩ := qualifiers_eq w.toAmong hq trivial w.new
  have hv : Loop.ofClass.value s t.xtok = some <$> t.made str2CMPIDecoded t.attr.type :=
    qualifierToValue?_eq ht.typed arrayElementsDecoded_eq
  rw [hv] at hs
  refine (found_iff ht decoded_makesLeaf hs).trans ?_
  simp [fits_type ht]

theorem OnInstance.qualifier_iff (ht : t.Stated n) (w : OnInstance n t.xtok) :
    w.qualifier = .ok (some (t.meaning n)) ↔
      ∀ text, .text text ∈ t.values → ReadsText str2CMPIPointer t.attr.type text := by
  have hq : t.xtok.name = some n := (xtok_name t).trans ht.name
  have ⟨s, _, _, hs⟩ := qualifiers_eq w.toAmong hq trivial w.new
  have hv : Loop.ofInstance.value s t.xtok = some <$> t.made str2CMPIPointer t.attr.type :=
    qualifierToValue?_eq ht.typed arrayElements_eq
  rw [hv] at hs
  refine (found_iff ht pointer_makesLeaf hs).trans ?_
  simp [fits_type ht]

theorem OnClassProperty.qualifier_iff (ht : t.Stated n) (w : OnClassProperty n t.xtok pname) :
    w.qualifier = .ok (some (t.meaning n)) ↔
      ∀ text, .text text ∈ t.values → ReadsText str2CMPIPointer t.attr.type text := by
  have hq : t.xtok.name = some n := (xtok_name t).trans ht.name
  have ⟨s, _, _, hs⟩ := qualifiers_eq w.toAmong hq (setClassProperty_found w.name w.known w.starts) w.new
  have hv : (Loop.ofClassProperty pname).value s t.xtok =
      some <$> t.made str2CMPIPointer t.xtok.type.element := by
    rw [← qualifierToValue_eq ht.typed]
    rfl
  rw [hv] at hs
  have hr : w.qualifier = (w.qualifiers.foldlM (Loop.ofClassProperty pname).step w.start).map
      ((Loop.ofClassProperty pname).look · n) := by
    have heq := @Loop.setClassProperty_eq w.vars
      { w.p with val := { w.p.val with qualifiers := w.qualifiers } } pname w.name
    rw [OnClassProperty.qualifier, heq]
    simp only [w.starts]
    rfl
  refine (found_iff ht pointer_makesLeaf (hr.trans hs)).trans ?_
  simp [element_xtok ht, fits_type ht]

theorem OnMethod.qualifier_iff (ht : t.Stated n) (w : OnMethod n t.xtok pname) :
    w.qualifier = .ok (some (t.meaning n)) ↔
      ∀ text, .text text ∈ t.values → ReadsText str2CMPIPointer t.attr.type text := by
  have hq : t.xtok.name = some n := (xtok_name t).trans ht.name
  let start : ClassVars := { w.vars with cls := w.cls }
  have ⟨s, _, hvalid, hs⟩ := @qualifiers_eq _ _ _ _ w.toAmong start hq w.found w.new
  have hv : (Loop.ofMethod pname).value s t.xtok =
      some <$> t.made str2CMPIPointer t.xtok.type.element := by
    rw [← qualifierToValue_eq ht.typed]
    rfl
  rw [hv] at hs
  have hr : w.qualifier = (w.qualifiers.foldlM (Loop.ofMethod pname).step start).map
      ((Loop.ofMethod pname).look · n) := by
    have heq := @Loop.setClassMethod_eq w.vars { w.m with qualifiers := w.qualifiers } pname w.name
    rw [OnMethod.qualifier, heq]
    simp only [w.starts]
    show (w.qualifiers.foldlM (Loop.ofMethod pname).step start >>= _).map _ = _
    cases h : w.qualifiers.foldlM (Loop.ofMethod pname).step start with
    | error e => rfl
    | ok s'   =>
      have ⟨cls, hcls, hlook⟩ := Loop.foldlM_params w.params (hvalid s' h)
      show Except.map _ (w.m.params.foldlM _ s'.cls >>= _) = _
      rw [hcls]
      exact congrArg Except.ok (hlook n)
  refine (found_iff ht pointer_makesLeaf (hr.trans hs)).trans ?_
  simp [element_xtok ht, fits_type ht]

theorem OnInstanceProperty.qualifier_iff (ht : t.Stated n) (w : OnInstanceProperty n t.xtok pname) :
    w.qualifier = .ok (some (t.meaning n)) ↔ t.Fits w.leftover ∧
      ∀ text, .text text ∈ t.values → ReadsText str2CMPIPointer t.attr.type text := by
  have hq : t.xtok.name = some n := (xtok_name t).trans ht.name
  have ⟨s, hb, _, hs⟩ := qualifiers_eq w.toAmong hq (setInstProperty_found w.name w.nonNull w.starts) w.new
  have hv : (Loop.ofInstanceProperty pname).value s t.xtok =
      some <$> t.made str2CMPIPointer w.leftover := by
    rw [OnInstanceProperty.leftover, ← typeAfter_eq hb, ← instPropertyValue_eq ht.typed]
    rfl
  rw [hv] at hs
  have hr : w.qualifier = (w.qualifiers.foldlM (Loop.ofInstanceProperty pname).step w.start).map
      ((Loop.ofInstanceProperty pname).look · n) := by
    have heq := @setInstProperty_eq w.ci w.type
      { w.p with val := { w.p.val with qualifiers := w.qualifiers } } w.nonNull
    rw [OnInstanceProperty.qualifier, heq]
    simp only [w.starts]
    show (setInstPropertyQualifiers w.start.1 w.p.name w.start.2 w.qualifiers).map _ = _
    rw [w.name, Loop.setInstPropertyQualifiers_eq]
    rfl
  exact found_iff ht pointer_makesLeaf (hr.trans hs)

-- Whether a text of a type is the same with its escapes taken out, if it is the text of a string.
def Plain (type : CMPIType) (text : Option Text) : Prop :=
  type = .string → ∃ t, text = some t ∧ XmlToAsciiStr t = t

-- A qualifier means what it states at all five places if there is nothing to take out of its texts,
-- and an array is reached when the type its array is made for is the type of its elements.
theorem meansTheSame_iff {pname₁ pname₂ mname : Text} (ht : t.Stated n) (c : OnClass n t.xtok)
    (p : OnClassProperty n t.xtok pname₁) (m : OnMethod n t.xtok mname) (i : OnInstance n t.xtok)
    (ip : OnInstanceProperty n t.xtok pname₂) :
    (∀ r ∈ [c.qualifier, p.qualifier, m.qualifier, i.qualifier, ip.qualifier],
      r = .ok (some (t.meaning n))) ↔
      t.Fits ip.leftover ∧ ∀ text, .text text ∈ t.values → Plain t.attr.type text := by
  have hs : ∀ text, .text text ∈ t.values → Suits t.attr.type text := by
    intro text hm
    have ⟨_, he, hs⟩ := ht.texts _ hm
    cases he
    exact hs
  have hpl : (∀ text, .text text ∈ t.values → ReadsText str2CMPIPointer t.attr.type text) ↔
      ∀ text, .text text ∈ t.values → Plain t.attr.type text := by
    refine forall₂_congr fun text hm => ?_
    exact readsText_pointer_iff (hs text hm)
  have hdec : (∀ text, .text text ∈ t.values → Plain t.attr.type text) →
      ∀ text, .text text ∈ t.values → ReadsText str2CMPIDecoded t.attr.type text := by
    intro h text hm
    refine (readsText_decoded_iff (hs text hm)).mpr fun htype => ?_
    have ⟨t, he, _⟩ := h text hm htype
    exact Option.isSome_iff_exists.mpr ⟨t, he⟩
  constructor
  · intro h
    simp only [List.forall_mem_cons] at h
    have ⟨_, _, _, _, hip, _⟩ := h
    have ⟨hf, hr⟩ := (ip.qualifier_iff ht).mp hip
    exact ⟨hf, hpl.mp hr⟩
  · intro ⟨hf, h⟩
    have hr := hpl.mpr h
    simp only [List.forall_mem_cons]
    refine ⟨?_, ?_, ?_, ?_, ?_, List.forall_mem_nil _⟩
    · exact (c.qualifier_iff ht).mpr (hdec h)
    · exact (p.qualifier_iff ht).mpr hr
    · exact (m.qualifier_iff ht).mpr hr
    · exact (i.qualifier_iff ht).mpr hr
    · exact (ip.qualifier_iff ht).mpr ⟨hf, hr⟩

end Found

-- The five places without anything else.
section Alone

variable (n : Text) (q : XtokQualifier XtokInstance)

def alone {σ : Type} (a : Loop.Adding σ) : Among a n q where
  before := []
  after  := []
  others := List.forall_mem_nil _

def aloneOnClass : OnClass n q where
  toAmong := alone n q _
  cls     := { classname := bytes "C" }
  new     := rfl

def aloneOnInstance : OnInstance n q where
  toAmong := alone n q _
  ci      := {}
  new     := rfl

def aloneOnClassProperty : OnClassProperty n q (bytes "P") where
  toAmong := alone n q _
  vars    := { cls := { classname := bytes "C" } }
  p       := { name := bytes "P", valueType := CMPIType.string, propType := .Value }
  start   := {
    cls := {
      classname := bytes "C"
      props     := addProperty [] (bytes "P") .string .null .zero } }
  name    := rfl
  known   := nofun
  starts  := rfl
  new     := rfl

def aloneOnMethod : OnMethod n q (bytes "M") where
  toAmong := alone n q _
  vars    := { cls := { classname := bytes "C" } }
  m       := { name := bytes "M", type := CMPIType.string }
  cls     := { classname := bytes "C", methods := [.new (bytes "M") .string .null .zero] }
  name    := rfl
  params  := nofun
  starts  := rfl
  new     := rfl

-- The property is a string.
def aloneOnInstanceProperty : OnInstanceProperty n q (bytes "P") where
  toAmong := alone n q _
  ci      := {}
  type    := .null
  p       := {
    name      := bytes "P"
    valueType := CMPIType.string
    val       := { u := .value { data := { ptr := .value (bytes "v"), type := .charP }, type := .charP } }
    propType  := .Value }
  start   := ({ props := addProperty [] (bytes "P") .string .good (.string (bytes "v")) }, .string)
  name    := rfl
  nonNull := ⟨rfl, rfl⟩
  starts  := by
    have hv : str2CMPIDecoded .string (.value (bytes "v")) = .ok (.string (bytes "v")) := by
      rw [str2CMPIDecoded, if_pos (.inl rfl)]
      rfl
    simp only [setInstProperty, hv, setInstPropertyQualifiers, XtokPointer.isNull]
    rfl
  new     := rfl

end Alone

-- An array of one string.
def stringKey (text : Text) : Tree.Qualifier :=
  .array { name := bytes "K", type := CMPIType.string } [.text text]

theorem stringKey_stated (text : Text) : (stringKey text).Stated (bytes "K") where
  name  := rfl
  some  := nofun
  texts := by
    intro v hv
    exact ⟨text, List.mem_singleton.mp hv, .string _⟩

theorem meansTheSame_iff_string :
    (aloneOnInstanceProperty (bytes "K") (stringKey (bytes "x")).xtok).qualifier =
      .ok (some ((stringKey (bytes "x")).meaning (bytes "K"))) := by
  have h := (meansTheSame_iff (stringKey_stated (bytes "x")) (aloneOnClass _ _)
    (aloneOnClassProperty _ _) (aloneOnMethod _ _) (aloneOnInstance _ _)
    (aloneOnInstanceProperty _ _)).mpr
  have hp : ∀ text, .text text ∈ (stringKey (bytes "x")).values → Plain .string text := by
    intro text hm _
    have he := List.mem_singleton.mp hm
    cases he
    exact ⟨bytes "x", rfl, by decide⟩
  exact h ⟨rfl, hp⟩ _ (by simp)

-- The escape is taken out of the qualifier of a class only.
theorem not_meansTheSame_escape :
    (aloneOnClass (bytes "K") (stringKey (bytes "&amp;")).xtok).qualifier ≠
      (aloneOnInstance (bytes "K") (stringKey (bytes "&amp;")).xtok).qualifier := by
  have hr : ∀ text, .text text ∈ (stringKey (bytes "&amp;")).values →
      ReadsText str2CMPIDecoded .string text := by
    intro text hm
    have he := List.mem_singleton.mp hm
    cases he
    rfl
  have hc := ((aloneOnClass _ _).qualifier_iff (stringKey_stated (bytes "&amp;"))).mpr hr
  intro h
  have hi := ((aloneOnInstance _ _).qualifier_iff (stringKey_stated (bytes "&amp;"))).mp (h ▸ hc)
  have he := hi (bytes "&amp;") (List.mem_singleton_self _)
  have ht := congrArg (fun v => match v with
    | .ok (.string t) => t
    | _               => none) he
  exact absurd ht (by decide)

end Xml
end Sfcc
