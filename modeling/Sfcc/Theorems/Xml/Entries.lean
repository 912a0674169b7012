import Sfcc.Cmpi.ConstClass
import Sfcc.Theorems.Xml.Class
import Sfcc.Theorems.Xml.Qualifiers
import Sfcc.Xml.Response

-- The names and types a class is given.
namespace Sfcc

namespace Xml

-- A name and a type.
abbrev Entry := Option Text × CMPIType

-- There are names, and no two of them are the same.
structure Names (entries : List Entry) : Prop where
  some     : ∀ e ∈ entries, e.1.isSome
  distinct : (entries.map fun e => e.1.map Text.lower).Nodup

namespace Names

variable {l l' : List Entry} {e : Entry}

theorem left (h : Names (l ++ l')) : Names l where
  some     := fun e he => h.some e (List.mem_append_left _ he)
  distinct := by
    have hn := h.distinct
    rw [List.map_append] at hn
    exact (List.nodup_append.mp hn).left

theorem right (h : Names (l ++ l')) : Names l' where
  some     := fun e he => h.some e (List.mem_append_right _ he)
  distinct := by
    have hn := h.distinct
    rw [List.map_append] at hn
    exact (List.nodup_append.mp hn).right.left

theorem ne (h : Names (l ++ e :: l')) : ∀ d ∈ l, d.1.map Text.lower ≠ e.1.map Text.lower := by
  intro d hd he
  have hn := h.distinct
  rw [List.map_append] at hn
  have hm : e.1.map Text.lower ∈ (e :: l').map fun e => e.1.map Text.lower := List.mem_map_of_mem (List.mem_cons_self ..)
  exact (List.nodup_append.mp hn).right.right _ (List.mem_map_of_mem hd) _ hm he

end Names

namespace Tree

namespace Qualifier

def entry (q : Qualifier) : Entry :=
  match q with
  | .array a _            => (a.name, a.type ||| .array)
  | .value a _ | .empty a => (a.name, a.type)

-- A value or an array of values that suit the type.
structure Sound (q : Qualifier) : Prop where
  some  : ∀ a, q ≠ .empty a
  type  : q.attr.type ∈ textTypes
  texts : ∀ v ∈ q.values, ∃ text, v = .text text ∧ Suits q.attr.type text

theorem Sound.typed {q : Qualifier} (h : q.Sound) : q.Typed where
  type := isTextType h.type
  some := h.some

def Valid (qs : List Qualifier) : Prop :=
  Names (qs.map entry) ∧ ∀ q ∈ qs, q.Sound

theorem entry_eq (q : Qualifier) : q.entry = (q.attr.name, q.xtok.type) := by
  cases q <;> rfl

end Qualifier

namespace Property

def entry : Property → Entry
  | .value a _ _     => (a.name, a.valueType)
  | .array a _ _     => (a.name, a.valueType ||| .array)
  | .reference a _ _ => (a.name, .ref)

def qualifiers : Property → List Qualifier
  | .value _ qs _ | .array _ qs _ | .reference _ qs _ => qs

-- Nothing is embedded into the value.
def Plain : Property → Prop
  | .value _ _ v => isInstance v = false
  | _            => True

end Property

namespace Param

def entry : Param → Entry
  | .param a _         => (a.name, a.type)
  | .paramRef a _      => (a.name, .ref)
  | .paramArray a _    => (a.name, a.type ||| .array)
  | .paramRefArray a _ => (a.name, .refA)

-- The type is what the lexer makes of the tag and of `TYPE`, if it is there.
def Lexed : Param → Prop
  | .param _ _         => True
  | .paramRef a _      => a.type = .ref
  | .paramArray a _    => a.type = .null ∨ a.type ||| .array = a.type
  | .paramRefArray a _ => a.type = .refA

end Param

def Method.entry (m : Method) : Entry :=
  (m.attr.name, m.attr.type)

end Tree

end Xml

-- What a class has is seen as names and types.

def NativeQualifier.entry (q : NativeQualifier CMPIValue) : Xml.Entry :=
  (some q.name, q.type)

def NativeParameter.entry (p : NativeParameter) : Xml.Entry :=
  (some p.name, p.type)

def NativeProperty.entry (p : NativeProperty CMPIValue) : Xml.Entry :=
  (some p.name, p.type)

def NativeMethod.entry (m : NativeMethod CMPIValue) : Xml.Entry :=
  (some m.name, m.type)

def NativeProperty.declared (p : NativeProperty CMPIValue) : Xml.Entry × List Xml.Entry :=
  (p.entry, p.qualifiers.map NativeQualifier.entry)

def NativeMethod.declared (m : NativeMethod CMPIValue) : Xml.Entry × List Xml.Entry × List Xml.Entry :=
  (m.entry, m.qualifiers.map NativeQualifier.entry, m.parameters.map NativeParameter.entry)

-- Adding one more item.

section Last

variable {P : Type} {name : P → Text} {l : List P} {p : P} {n : Text}

namespace Named

theorem set_last {f : P → P} (hl : ∀ q ∈ l, (name q).lower ≠ n.lower) (hp : (name p).lower = n.lower) :
    Named.set name f (l ++ [p]) n = some (l ++ [f p]) := by
  induction l with
  | nil       => simp [Named.set, hp]
  | cons q l hi =>
    obtain ⟨hq, hl⟩ := List.forall_mem_cons.mp hl
    rw [List.cons_append, Named.set, if_neg (by simpa using hq), hi hl]
    rfl

theorem setOrAdd_new {f : P → P} {new : P} (hl : ∀ q ∈ l, (name q).lower ≠ n.lower) :
    Named.setOrAdd name f new l n = l ++ [new] := by
  rw [Named.setOrAdd, Named.set_none_iff.mpr (Named.get_none_iff.mpr hl), Named.add_of_not_mem hl]
  rfl

end Named

theorem addQualifierTo_last {add : P → Text → P} (hl : ∀ q ∈ l, (name q).lower ≠ (name p).lower) (m : Text) :
    addQualifierTo name add (l ++ [p]) (some (name p)) (some m) = .ok (l ++ [add p m]) := by
  have hget : (Named.get name (l ++ [p]) (name p)).isSome := by
    rw [Named.get, List.find?_append]
    simp
  rw [addQualifierTo]
  simp only [hget, if_true, deref, bind, Except.bind, Named.set_last hl rfl]
  rfl

end Last

namespace Xml

open Xml.Tree

variable {σ : Type}

theorem Tree.Qualifier.Typed.ne {q : Qualifier} (h : q.Typed) : q.xtok.type ≠ .null ∧ q.xtok.type ≠ .chars := by
  have ht := h.type
  cases q with
  | empty a   => exact absurd rfl (h.some a)
  | value _ _ => exact ⟨ht.ne.left, ht.ne.right.left⟩
  | array _ _ => exact ht.neArray

theorem setOrAddQualifier_entries {qs : List (NativeQualifier CMPIValue)} {n : Text} {v : CMPIValue} {type : CMPIType}
    (hn : ∀ q ∈ qs, q.name.lower ≠ n.lower) (ht : type ≠ .null ∧ type ≠ .chars) :
    (setOrAddQualifier qs n v type).map NativeQualifier.entry = qs.map NativeQualifier.entry ++ [(some n, type)] := by
  rw [setOrAddQualifier, Named.setOrAdd_new hn, List.map_append, new_good ht]
  rfl

-- Qualifiers that get in are listed behind the ones that were there. `At` is what else is known.
theorem foldlM_qualifiers {a : Loop.Adding σ} {At : σ → List (NativeQualifier CMPIValue) → Prop}
    (hadd : ∀ {s qs}, At s qs → ∀ m v type,
      ∃ s', a.add s (some m) v type = .ok s' ∧ At s' (setOrAddQualifier qs m v type))
    {quals : List Qualifier} (ht : ∀ q ∈ quals, q.Typed) (hv : ∀ q ∈ quals, ∀ s, ∃ v, a.value s q.xtok = .ok (some v))
    {s : σ} (qs : List (NativeQualifier CMPIValue))
    (hn : Names (qs.map NativeQualifier.entry ++ quals.map Qualifier.entry)) (hs : At s qs) :
    ∃ s' qs', (quals.map Qualifier.xtok).foldlM a.step s = .ok s' ∧ At s' qs' ∧
      qs'.map NativeQualifier.entry = qs.map NativeQualifier.entry ++ quals.map Qualifier.entry := by
  induction quals generalizing s qs with
  | nil           => exact ⟨s, qs, rfl, hs, (List.append_nil _).symm⟩
  | cons q quals hi =>
    have ⟨ht, hts⟩ := List.forall_mem_cons.mp ht
    have ⟨hv, hvs⟩ := List.forall_mem_cons.mp hv
    have ⟨v, hv⟩ := hv s
    have ⟨m, hm⟩ := Option.isSome_iff_exists.mp (hn.right.some _ (List.mem_cons_self ..))
    have he : q.entry = (some m, q.xtok.type) := by
      rw [Qualifier.entry_eq] at hm ⊢
      exact Prod.ext hm rfl
    have hne : ∀ r ∈ qs, r.name.lower ≠ m.lower := by
      intro r hr heq
      apply hn.ne _ (List.mem_map_of_mem hr)
      rw [he]
      exact congrArg some heq
    have ⟨s₁, h₁, hs₁⟩ := hadd hs m v q.xtok.type
    have hmap : (setOrAddQualifier qs m v q.xtok.type).map NativeQualifier.entry ++ quals.map Qualifier.entry =
        qs.map NativeQualifier.entry ++ (q :: quals).map Qualifier.entry := by
      rw [setOrAddQualifier_entries hne ht.ne, ← he, List.append_assoc]
      rfl
    have ⟨s', qs', h', hs', hq'⟩ := hi hts hvs _ (hmap ▸ hn) hs₁
    refine ⟨s', qs', ?_, hs', hq'.trans hmap⟩
    have hname : q.xtok.name = some m := by
      rw [xtok_name]
      rw [Qualifier.entry_eq] at he
      exact congrArg Prod.fst he
    rw [List.map_cons, List.foldlM_cons, Loop.Adding.step, hv, hname]
    simp only [bind, Except.bind, h₁]
    exact h'

-- What the conversions make of qualifiers.

theorem mapM_succeeds_iff {T α : Type} {f : T → Except Fault α} {l : List T} :
    (∃ ws, l.mapM f = .ok ws) ↔ ∀ t ∈ l, ∃ w, f t = .ok w := by
  induction l with
  | nil       => exact iff_of_true ⟨[], rfl⟩ nofun
  | cons t l hi =>
    rw [List.forall_mem_cons, ← hi, List.mapM_cons]
    constructor
    · intro ⟨ws, h⟩
      have ⟨w, hw, h⟩ := ok_bind.mp h
      have ⟨ws', hws, _⟩ := ok_bind.mp h
      exact ⟨⟨w, hw⟩, ws', hws⟩
    · intro ⟨⟨w, hw⟩, ws, hws⟩
      refine ⟨w :: ws, ?_⟩
      rw [hw, hws]
      rfl

theorem made_succeeds_iff {conv : CMPIType → XtokPointer XtokInstance → Except Fault CMPIValue} {type : CMPIType}
    {q : Qualifier} (h : ∀ a, q ≠ .empty a) :
    (∃ v, q.made conv type = .ok v) ↔ ∀ v ∈ q.values, ∃ w, conv q.attr.type v.pointer = .ok w := by
  cases q with
  | empty a    => exact absurd rfl (h a)
  | value a v  => simp [Qualifier.made, Qualifier.values, Qualifier.attr]
  | array a vs =>
    rw [Qualifier.values, Qualifier.attr, ← mapM_succeeds_iff, Qualifier.made]
    cases vs.mapM fun v => conv a.type v.pointer with
    | error e => simp [Except.map]
    | ok ws   => simp [Except.map]

variable {q : Qualifier}

-- The text of a string may be missing.
theorem qualifierToValue_succeeds (h : q.Sound) : ∃ v, qualifierToValue q.xtok = .ok v := by
  rw [qualifierToValue_eq h.typed, made_succeeds_iff h.some]
  intro v hv
  have ⟨text, he, hs⟩ := h.texts v hv
  rw [he]
  show ∃ w, str2CMPIText q.attr.type text = .ok w
  by_cases hstring : q.attr.type = .string
  · rw [hstring]
    exact ⟨_, rfl⟩
  · have ⟨t, ht⟩ := hs.text hstring
    rw [ht]
    exact str2CMPIText_ok h.type t

-- It may not be missing in a qualifier of a class.
theorem classQualifier_succeeds_iff (h : q.Sound) :
    (∃ v, qualifierToValue? str2CMPIDecoded arrayElementsDecoded q.xtok = .ok (some v)) ↔
      (q.attr.type = .string → .text none ∉ q.values) := by
  have hmade : (∃ v, (some <$> q.made str2CMPIDecoded q.attr.type : Except Fault _) = .ok (some v)) ↔
      ∃ v, q.made str2CMPIDecoded q.attr.type = .ok v := by
    cases q.made str2CMPIDecoded q.attr.type <;> simp [Functor.map, Except.map]
  rw [qualifierToValue?_eq h.typed arrayElementsDecoded_eq, hmade, made_succeeds_iff h.some]
  by_cases hstring : q.attr.type = .string
  · rw [hstring, imp_iff_right rfl]
    constructor
    · intro hw hnone
      have ⟨w, hw⟩ := hw _ hnone
      cases hw
    · intro hnone v hv
      have ⟨text, he, _⟩ := h.texts v hv
      rw [he] at hv ⊢
      cases text with
      | none   => exact absurd hv hnone
      | some t => exact ⟨_, rfl⟩
  · refine iff_of_true ?_ fun hs => absurd hs hstring
    intro v hv
    have ⟨text, he, hs⟩ := h.texts v hv
    have ⟨t, ht⟩ := hs.text hstring
    have ⟨w, hw⟩ := str2CMPIText_ok h.type t
    rw [he, ht]
    refine ⟨w, ?_⟩
    have hc := h.typed.type.ne.right.left
    show (if _ then _ else str2CMPIText _ _) = _
    rw [if_neg (not_or.mpr ⟨hstring, hc⟩), hw]

-- The properties.

section Properties

variable {cls : CMPIConstClass} {n : Text} {type : CMPIType}

def Tree.Property.declared (p : Property) : Entry × List Entry :=
  (p.entry, p.qualifiers.map Qualifier.entry)

theorem addProperty_new (v : CMPIValue) (hn : ∀ p ∈ cls.props, p.name.lower ≠ n.lower) :
    cls.addProperty (some n) v type .null =
      .ok { cls with props := cls.props ++ [{ name := n, type, state := .null, value := .zero }] } := by
  have hset : setProperty cls.props n type (some v) = none := Named.set_none_iff.mpr (Named.get_none_iff.mpr hn)
  have hnew : NativeProperty.new n type .null v = { name := n, type, state := .null, value := .zero } := by
    rw [NativeProperty.new, if_neg (by simp)]
  rw [NativeConstClass.addProperty]
  simp only [deref, bind, Except.bind, hset]
  rw [addProperty, Named.add_of_not_mem hn, hnew]
  rfl

-- Nothing is read of the variables for a name that is new.
theorem ClassVars.addProperty_new (s : ClassVars) (hn : ∀ p ∈ s.cls.props, p.name.lower ≠ n.lower) (type : CMPIType) :
    s.addProperty (some n) type =
      .ok { s.cls with props := s.cls.props ++ [{ name := n, type, state := .null, value := .zero }] } := by
  have hget : getProperty s.cls.props n = none := Named.get_none_iff.mpr hn
  rw [ClassVars.addProperty, Option.bind_some, hget]
  exact Xml.addProperty_new .zero hn

-- Before its qualifiers.
theorem setClassProperty_start (s : ClassVars) {p : Property} (hp : p.Plain) (hname : p.entry.1 = some n)
    (hn : ∀ q ∈ s.cls.props, q.name.lower ≠ n.lower) :
    ∃ s', setClassProperty s { p.xtok with val := { p.xtok.val with qualifiers := [] } } = .ok s' ∧
      s'.cls = { s.cls with
        props := s.cls.props ++ [{ name := n, type := p.entry.2, state := .null, value := .zero }] } := by
  cases p with
  | value a qs v     =>
    have hv : Property.isInstance v = false := hp
    have ha : a.name = some n := hname
    refine ⟨{ s with cls := _ }, ?_, rfl⟩
    rw [setClassProperty]
    simp only [Property.xtok, XtokProperty.lexed, hv, ha, s.addProperty_new hn]
    rfl
  | array a qs vs    =>
    have ha : a.name = some n := hname
    let s₁ : ClassVars := { s with val := s.arr }
    refine ⟨{ s₁ with cls := _ }, ?_, rfl⟩
    rw [setClassProperty]
    simp only [Property.xtok, XtokProperty.lexed, ha, s₁.addProperty_new hn, s₁]
    rfl
  | reference a qs r =>
    have ha : a.name = some n := hname
    refine ⟨{ s with cls := _ }, ?_, rfl⟩
    rw [setClassProperty]
    simp only [Property.xtok, XtokProperty.lexed, ha, s.addProperty_new hn]
    rfl

theorem addPropertyQualifier_last {ps : List (NativeProperty CMPIValue)} {p : NativeProperty CMPIValue}
    (hcls : cls.props = ps ++ [p]) (hne : ∀ q ∈ ps, q.name.lower ≠ p.name.lower) (m : Text) (v : CMPIValue) (type : CMPIType) :
    cls.addPropertyQualifier (some p.name) (some m) v type =
      .ok { cls with props := ps ++ [{ p with qualifiers := setOrAddQualifier p.qualifiers m v type }] } := by
  rw [NativeConstClass.addPropertyQualifier, hcls]
  simp only [addQualifierTo_last hne m]
  rfl

theorem setClassProperty_declared (s : ClassVars) {p : Property} (hp : p.Plain) (hq : Qualifier.Valid p.qualifiers)
    (hn : Names (s.cls.props.map NativeProperty.entry ++ [p.entry])) :
    ∃ s' p', setClassProperty s p.xtok = .ok s' ∧ s'.cls = { s.cls with props := s.cls.props ++ [p'] } ∧
      p'.declared = p.declared := by
  have ⟨n, hname⟩ := Option.isSome_iff_exists.mp (hn.right.some _ (List.mem_singleton_self _))
  have hfresh : ∀ q ∈ s.cls.props, q.name.lower ≠ n.lower := by
    intro q hq heq
    apply hn.ne _ (List.mem_map_of_mem hq)
    rw [hname]
    exact congrArg some heq
  have ⟨s₁, h₁, hs₁⟩ := setClassProperty_start s hp hname hfresh
  let made (qs : List (NativeQualifier CMPIValue)) : NativeProperty CMPIValue :=
    { name := n, type := p.entry.2, state := .null, value := .zero, qualifiers := qs }
  let At (s' : ClassVars) (qs : List (NativeQualifier CMPIValue)) : Prop :=
    s'.cls = { s.cls with props := s.cls.props ++ [made qs] }
  have hadd : ∀ {s' qs}, At s' qs → ∀ m v type, ∃ s'', (Loop.ofClassProperty n).add s' (some m) v type = .ok s'' ∧
      At s'' (setOrAddQualifier qs m v type) := by
    intro s' qs hs' m v type
    have hcls : s'.cls = { s.cls with props := s.cls.props ++ [made qs] } := hs'
    have hlast := addPropertyQualifier_last (congrArg NativeConstClass.props hcls) hfresh m v type
    refine ⟨Loop.after s' { s.cls with props := s.cls.props ++ [made (setOrAddQualifier qs m v type)] } v type, ?_, rfl⟩
    show (s'.cls.addPropertyQualifier (some n) (some m) v type >>= fun cls => _) = _
    rw [hlast, hcls]
    rfl
  have hxtok : p.xtok.val.qualifiers = p.qualifiers.map Qualifier.xtok := by
    cases p <;> exact Grammar.qualifier_xtoks _
  have hpname : p.xtok.name = some n := by
    cases p <;> exact hname
  have hv : ∀ q ∈ p.qualifiers, ∀ s, ∃ v, (Loop.ofClassProperty n).value s q.xtok = .ok (some v) := by
    intro q hm _
    have ⟨v, hv⟩ := qualifierToValue_succeeds (hq.right q hm)
    exact ⟨v, congrArg (some <$> ·) hv⟩
  have ⟨s', qs, h', hs', hqs⟩ := foldlM_qualifiers hadd (fun q hm => (hq.right q hm).typed) hv
    [] hq.left (show At s₁ [] from hs₁)
  refine ⟨s', _, ?_, hs', ?_⟩
  · rw [Loop.setClassProperty_eq s p.xtok hpname, h₁, hxtok]
    exact h'
  · rw [NativeProperty.declared, hqs, NativeProperty.entry, ← hname]
    rfl

theorem setClassProperties_declared {ps : List Property} (hp : ∀ p ∈ ps, p.Plain)
    (hq : ∀ p ∈ ps, Qualifier.Valid p.qualifiers) (s : ClassVars)
    (hn : Names (s.cls.props.map NativeProperty.entry ++ ps.map Property.entry)) :
    ∃ s' new, (ps.map Property.xtok).foldlM setClassProperty s = .ok s' ∧
      s'.cls = { s.cls with props := s.cls.props ++ new } ∧ new.map NativeProperty.declared = ps.map Property.declared := by
  induction ps generalizing s with
  | nil          => exact ⟨s, [], rfl, by rw [List.append_nil], rfl⟩
  | cons p ps hi =>
    have ⟨hp, hps⟩ := List.forall_mem_cons.mp hp
    have ⟨hq, hqs⟩ := List.forall_mem_cons.mp hq
    have hsplit : s.cls.props.map NativeProperty.entry ++ (p :: ps).map Property.entry =
        (s.cls.props.map NativeProperty.entry ++ [p.entry]) ++ ps.map Property.entry := by simp
    rw [hsplit] at hn
    have ⟨s₁, p₁, h₁, hs₁, hv₁⟩ := setClassProperty_declared s hp hq hn.left
    have hentry : p₁.entry = p.entry := congrArg Prod.fst hv₁
    have hn₁ : Names (s₁.cls.props.map NativeProperty.entry ++ ps.map Property.entry) := by
      rw [hs₁, List.map_append, List.map_singleton, hentry]
      exact hn
    have ⟨s', new, h', hs', hv'⟩ := hi hps hqs s₁ hn₁
    refine ⟨s', p₁ :: new, ?_, ?_, ?_⟩
    · rw [List.map_cons, List.foldlM_cons, h₁]
      exact h'
    · rw [hs', hs₁]
      simp
    · rw [List.map_cons, List.map_cons, hv₁, hv']

end Properties

-- The methods.

section Methods

variable {cls : CMPIConstClass} {n : Text} {ms : List (NativeMethod CMPIValue)}
  {m : NativeMethod CMPIValue}

-- The type as it was lexed.
def Tree.Param.lexedEntry (p : Param) : Entry :=
  (p.xtok.name, p.xtok.type)

def Tree.Method.declared (m : Method) : Entry × List Entry × List Entry :=
  (m.entry, m.qualifiers.map Qualifier.entry, m.params.map Param.lexedEntry)

theorem addMethod_new (type : CMPIType) (v : CMPIValue) (hn : ∀ m ∈ cls.methods, m.name.lower ≠ n.lower) :
    cls.addMethod (some n) v type .null =
      .ok { cls with methods := cls.methods ++ [{ name := n, type, state := .null, value := .zero }] } := by
  have hnew : NativeMethod.new n type .null v = { name := n, type, state := .null, value := .zero } := by
    rw [NativeMethod.new, if_neg (by simp)]
  rw [NativeConstClass.addMethod]
  simp only [deref, bind, Except.bind]
  rw [Named.setOrAdd_new hn, hnew]
  rfl

theorem ClassVars.addMethod_new (s : ClassVars) (hn : ∀ m ∈ s.cls.methods, m.name.lower ≠ n.lower) (type : CMPIType) :
    s.addMethod (some n) type =
      .ok { s.cls with methods := s.cls.methods ++ [{ name := n, type, state := .null, value := .zero }] } := by
  have hget : Named.get NativeMethod.name s.cls.methods n = none := Named.get_none_iff.mpr hn
  rw [ClassVars.addMethod, Option.bind_some, hget]
  exact Xml.addMethod_new type .zero hn

theorem addMethodQualifier_last (hcls : cls.methods = ms ++ [m]) (hne : ∀ q ∈ ms, q.name.lower ≠ m.name.lower)
    (q : Text) (v : CMPIValue) (type : CMPIType) : cls.addMethodQualifier (some m.name) (some q) v type =
      .ok { cls with methods := ms ++ [{ m with qualifiers := setOrAddQualifier m.qualifiers q v type }] } := by
  rw [NativeConstClass.addMethodQualifier, hcls]
  simp only [addQualifierTo_last hne q]
  rfl

theorem addMethodParameter_last (hcls : cls.methods = ms ++ [m]) (hne : ∀ q ∈ ms, q.name.lower ≠ m.name.lower)
    {p : Text} (hp : ∀ q ∈ m.parameters, q.name.lower ≠ p.lower) (type : CMPIType) :
    cls.addMethodParameter (some m.name) (some p) type =
      .ok { cls with methods := ms ++ [{ m with parameters := m.parameters ++ [{ name := p, type }] }] } := by
  rw [NativeConstClass.addMethodParameter, hcls]
  simp only [addQualifierTo_last hne p, Named.setOrAdd_new hp]
  rfl

theorem foldlM_parameters {ps : List Param} (hcls : cls.methods = ms ++ [m])
    (hne : ∀ q ∈ ms, q.name.lower ≠ m.name.lower)
    (hn : Names (m.parameters.map NativeParameter.entry ++ ps.map Param.lexedEntry)) :
    ∃ cls' new, (ps.map Param.xtok).foldlM (fun cls p => cls.addMethodParameter (some m.name) p.name p.type) cls =
        .ok cls' ∧ cls' = { cls with methods := ms ++ [{ m with parameters := m.parameters ++ new }] } ∧
      new.map NativeParameter.entry = ps.map Param.lexedEntry := by
  induction ps generalizing cls m with
  | nil          => exact ⟨cls, [], rfl, by rw [List.append_nil, ← hcls], rfl⟩
  | cons p ps hi =>
    have ⟨n, hname⟩ := Option.isSome_iff_exists.mp (hn.right.some _ (List.mem_cons_self ..))
    have hfresh : ∀ q ∈ m.parameters, q.name.lower ≠ n.lower := by
      intro q hq heq
      apply hn.ne _ (List.mem_map_of_mem hq)
      rw [hname]
      exact congrArg some heq
    have hpname : p.xtok.name = some n := hname
    have h₁ := addMethodParameter_last hcls hne hfresh p.xtok.type
    let p₁ : NativeParameter := { name := n, type := p.xtok.type }
    let m₁ : NativeMethod CMPIValue := { m with parameters := m.parameters ++ [p₁] }
    have he : p₁.entry = p.lexedEntry := by
      rw [Param.lexedEntry, hpname]
      rfl
    have hn₁ : Names (m₁.parameters.map NativeParameter.entry ++ ps.map Param.lexedEntry) := by
      rw [List.map_append, List.map_singleton, he, List.append_assoc]
      exact hn
    have ⟨cls', new, h', hcls', hnew⟩ := @hi { cls with methods := ms ++ [m₁] } m₁ rfl hne hn₁
    refine ⟨cls', p₁ :: new, ?_, ?_, ?_⟩
    · rw [List.map_cons, List.foldlM_cons, hpname, h₁]
      exact h'
    · simp [hcls', m₁]
    · rw [List.map_cons, List.map_cons, hnew, he]

theorem setClassMethod_declared (s : ClassVars) {t : Method} (hq : Qualifier.Valid t.qualifiers)
    (hp : Names (t.params.map Param.lexedEntry)) (hn : Names (s.cls.methods.map NativeMethod.entry ++ [t.entry])) :
    ∃ s' m, setClassMethod s t.xtok = .ok s' ∧ s'.cls = { s.cls with methods := s.cls.methods ++ [m] } ∧
      m.declared = t.declared := by
  have ⟨n, hname⟩ := Option.isSome_iff_exists.mp (hn.right.some _ (List.mem_singleton_self _))
  have hfresh : ∀ m ∈ s.cls.methods, m.name.lower ≠ n.lower := by
    intro m hm heq
    apply hn.ne _ (List.mem_map_of_mem hm)
    rw [hname]
    exact congrArg some heq
  let made (qs : List (NativeQualifier CMPIValue)) : NativeMethod CMPIValue :=
    { name := n, type := t.entry.2, state := .null, value := .zero, qualifiers := qs }
  let At (s' : ClassVars) (qs : List (NativeQualifier CMPIValue)) : Prop :=
    s'.cls = { s.cls with methods := s.cls.methods ++ [made qs] }
  have hadd : ∀ {s' qs}, At s' qs → ∀ q v type, ∃ s'', (Loop.ofMethod n).add s' (some q) v type = .ok s'' ∧
      At s'' (setOrAddQualifier qs q v type) := by
    intro s' qs hs' q v type
    have hcls : s'.cls = { s.cls with methods := s.cls.methods ++ [made qs] } := hs'
    have hlast := addMethodQualifier_last (congrArg NativeConstClass.methods hcls) hfresh q v type
    refine ⟨{ s' with
      cls := { s.cls with methods := s.cls.methods ++ [made (setOrAddQualifier qs q v type)] }
      val := .release type v }, ?_, rfl⟩
    show (s'.cls.addMethodQualifier (some n) (some q) v type >>= fun cls => _) = _
    rw [hlast, hcls]
    rfl
  have hv : ∀ q ∈ t.qualifiers, ∀ s, ∃ v, (Loop.ofMethod n).value s q.xtok = .ok (some v) := by
    intro q hm _
    have ⟨v, hv⟩ := qualifierToValue_succeeds (hq.right q hm)
    exact ⟨v, congrArg (some <$> ·) hv⟩
  let s₀ : ClassVars := { s with cls := { s.cls with methods := s.cls.methods ++ [made []] } }
  have hstart := s.addMethod_new hfresh t.xtok.type
  have ⟨s₁, qs, h₁, hs₁, hqs⟩ := foldlM_qualifiers hadd (fun q hm => (hq.right q hm).typed) hv
    [] hq.left (show At s₀ [] from rfl)
  have hcls : s₁.cls = { s.cls with methods := s.cls.methods ++ [made qs] } := hs₁
  have ⟨cls', new, h', hcls', hnew⟩ := foldlM_parameters (m := made qs) (congrArg NativeConstClass.methods hcls) hfresh hp
  refine ⟨{ s₁ with cls := cls' }, { made qs with parameters := new }, ?_, ?_, ?_⟩
  · have hxtok : t.xtok.qualifiers = t.qualifiers.map Qualifier.xtok := Grammar.qualifier_xtoks _
    have hparams : t.xtok.params.foldlM (fun cls p => cls.addMethodParameter (some n) p.name p.type) s₁.cls = .ok cls' := h'
    rw [Loop.setClassMethod_eq s t.xtok hname, hstart, hxtok]
    show ((t.qualifiers.map Qualifier.xtok).foldlM (Loop.ofMethod n).step s₀ >>= fun s => _) = _
    rw [h₁]
    show (t.xtok.params.foldlM (fun cls p => cls.addMethodParameter (some n) p.name p.type) s₁.cls >>= fun cls => _) = _
    rw [hparams]
    rfl
  · show cls' = _
    rw [hcls', hcls]
    rfl
  · rw [NativeMethod.declared, hqs, hnew, NativeMethod.entry, ← hname]
    rfl

theorem setClassMethods_declared {ts : List Method} (hq : ∀ t ∈ ts, Qualifier.Valid t.qualifiers)
    (hp : ∀ t ∈ ts, Names (t.params.map Param.lexedEntry)) (s : ClassVars)
    (hn : Names (s.cls.methods.map NativeMethod.entry ++ ts.map Method.entry)) :
    ∃ s' new, (ts.map Method.xtok).foldlM setClassMethod s = .ok s' ∧
      s'.cls = { s.cls with methods := s.cls.methods ++ new } ∧ new.map NativeMethod.declared = ts.map Method.declared := by
  induction ts generalizing s with
  | nil          => exact ⟨s, [], rfl, by rw [List.append_nil], rfl⟩
  | cons t ts hi =>
    have ⟨hq, hqs⟩ := List.forall_mem_cons.mp hq
    have ⟨hp, hps⟩ := List.forall_mem_cons.mp hp
    have hsplit : s.cls.methods.map NativeMethod.entry ++ (t :: ts).map Method.entry =
        (s.cls.methods.map NativeMethod.entry ++ [t.entry]) ++ ts.map Method.entry := by simp
    rw [hsplit] at hn
    have ⟨s₁, m₁, h₁, hs₁, hv₁⟩ := setClassMethod_declared s hq hp hn.left
    have hentry : m₁.entry = t.entry := congrArg Prod.fst hv₁
    have hn₁ : Names (s₁.cls.methods.map NativeMethod.entry ++ ts.map Method.entry) := by
      rw [hs₁, List.map_append, List.map_singleton, hentry]
      exact hn
    have ⟨s', new, h', hs', hv'⟩ := hi hqs hps s₁ hn₁
    refine ⟨s', m₁ :: new, ?_, ?_, ?_⟩
    · rw [List.map_cons, List.foldlM_cons, h₁]
      exact h'
    · rw [hs', hs₁]
      simp
    · rw [List.map_cons, List.map_cons, hv₁, hv']

end Methods

-- The qualifiers of the class.

theorem setClassQualifiers_entries (cls : CMPIConstClass) {qs : List Qualifier} (hcls : cls.qualifiers = [])
    (hq : Qualifier.Valid qs) (ht : ∀ q ∈ qs, q.attr.type = .string → .text none ∉ q.values) :
    ∃ new, setClassQualifiers cls (qs.map Qualifier.xtok) = .ok { cls with qualifiers := new } ∧
      new.map NativeQualifier.entry = qs.map Qualifier.entry := by
  let At (cls' : CMPIConstClass) (new : List (NativeQualifier CMPIValue)) : Prop := cls' = { cls with qualifiers := new }
  have hadd : ∀ {cls' new}, At cls' new → ∀ m v type, ∃ cls'', Loop.ofClass.add cls' (some m) v type = .ok cls'' ∧
      At cls'' (setOrAddQualifier new m v type) := by
    intro cls' new h m v type
    have hcls' : cls' = { cls with qualifiers := new } := h
    exact ⟨{ cls with qualifiers := setOrAddQualifier new m v type }, by rw [hcls']; rfl, rfl⟩
  have hv : ∀ q ∈ qs, ∀ cls, ∃ v, Loop.ofClass.value cls q.xtok = .ok (some v) := by
    intro q hm _
    exact (classQualifier_succeeds_iff (hq.right q hm)).mpr (ht q hm)
  have hstart : At cls [] := by
    show cls = _
    rw [← hcls]
  have ⟨cls', new, h, hcls', hnew⟩ := foldlM_qualifiers hadd (fun q hm => (hq.right q hm).typed) hv
    [] hq.left hstart
  have he : cls' = { cls with qualifiers := new } := hcls'
  exact ⟨new, by rw [Loop.setClassQualifiers_eq, h, he], hnew⟩

-- Every qualifier is converted.
theorem setClassQualifiers_texts {cls cls' : CMPIConstClass} {qs : List Qualifier} (hq : ∀ q ∈ qs, q.Sound)
    (h : setClassQualifiers cls (qs.map Qualifier.xtok) = .ok cls') :
    ∀ q ∈ qs, q.attr.type = .string → .text none ∉ q.values := by
  rw [Loop.setClassQualifiers_eq] at h
  induction qs generalizing cls with
  | nil          => exact nofun
  | cons q qs hi =>
    have ⟨hq, hqs⟩ := List.forall_mem_cons.mp hq
    rw [List.map_cons, List.foldlM_cons] at h
    have ⟨cls₁, h₁, h⟩ := ok_bind.mp h
    have ⟨v, hv, _⟩ := ok_bind.mp h₁
    have hvalue : qualifierToValue? str2CMPIDecoded arrayElementsDecoded q.xtok = .ok v := hv
    refine List.forall_mem_cons.mpr ⟨(classQualifier_succeeds_iff hq).mp ?_, hi hqs h⟩
    rw [qualifierToValue?_eq hq.typed arrayElementsDecoded_eq] at hvalue ⊢
    cases hm : q.made str2CMPIDecoded q.attr.type with
    | error e =>
      rw [hm] at hvalue
      cases hvalue
    | ok w    => exact ⟨w, rfl⟩

end Xml
end Sfcc
