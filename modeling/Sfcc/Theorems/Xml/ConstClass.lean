import Sfcc.Theorems.Xml.Entries
import Sfcc.Xml.Lexer

open Descent

-- The class that is made of a tree.
namespace Sfcc
namespace Xml

structure Tree.Class.Valid (c : Tree.Class) : Prop where
  qualifiers         : Tree.Qualifier.Valid c.qualifiers
  properties         : Names (c.properties.map Tree.Property.entry)
  propertyQualifiers : ∀ p ∈ c.properties, Tree.Qualifier.Valid p.qualifiers
  propertyValues     : ∀ p ∈ c.properties, p.Plain
  methods            : Names (c.methods.map Tree.Method.entry)
  methodQualifiers   : ∀ m ∈ c.methods, Tree.Qualifier.Valid m.qualifiers
  methodParameters   : ∀ m ∈ c.methods, Names (m.params.map Tree.Param.entry)
  lexed              : ∀ m ∈ c.methods, ∀ p ∈ m.params, p.Lexed

-- The entries that are listed by a count and a function of the index.
def Lists (count : ℕ) (item : ℕ → CMPIData × Option Text) (entries : List Entry) : Prop :=
  count = entries.length ∧
    ∀ i, (item i).2 = entries[i]?.bind (·.1) ∧ (item i).1.type = (entries[i]?.map (·.2)).getD .null

-- The item of a name.
def owner {T : Type} (entry : T → Entry) (items : List T) (n : Text) : Option T :=
  items.find? fun t => (entry t).1.any (sameIgnoringCase · n)

-- The class lists what is in the tree, and for every name what belongs to the item of this name.
structure Reports (cls : CMPIConstClass) (c : Tree.Class) : Prop where
  qualifiers         : Lists cls.getQualifierCount cls.getQualifierAt (c.qualifiers.map Tree.Qualifier.entry)
  properties         : Lists cls.getPropertyCount cls.getPropertyAt (c.properties.map Tree.Property.entry)
  methods            : Lists cls.getMethodCount cls.getMethodAt (c.methods.map Tree.Method.entry)
  propertyQualifiers : ∀ n, Lists (cls.getPropertyQualifierCount n) (cls.getPropertyQualifierAt n)
    (((owner Tree.Property.entry c.properties n).elim [] (·.qualifiers)).map Tree.Qualifier.entry)
  methodQualifiers   : ∀ n, Lists (cls.getMethodQualifierCount n) (cls.getMethodQualifierAt n)
    (((owner Tree.Method.entry c.methods n).elim [] (·.qualifiers)).map Tree.Qualifier.entry)
  methodParameters   : ∀ n, Lists (cls.getMethodParameterCount n) (cls.getMethodParameterAt n)
    (((owner Tree.Method.entry c.methods n).elim [] (·.params)).map Tree.Param.entry)

theorem Lists.unique {count : ℕ} {item : ℕ → CMPIData × Option Text} {l l' : List Entry}
    (h : Lists count item l) (h' : Lists count item l') : l = l' := by
  apply List.ext_getElem (h.left.symm.trans h'.left)
  intro i hi hi'
  have ⟨hn, ht⟩ := h.right i
  have ⟨hn', ht'⟩ := h'.right i
  rw [List.getElem?_eq_getElem hi] at hn ht
  rw [List.getElem?_eq_getElem hi'] at hn' ht'
  exact Prod.ext (hn.symm.trans hn') (ht.symm.trans ht')

theorem lists_dataAt {P : Type} {name : P → Text} {data : P → CMPIData} (l : List P) :
    Lists l.length (Named.dataAt name data l) (l.map fun p => (some (name p), (data p).type)) := by
  refine ⟨(List.length_map _).symm, ?_⟩
  intro i
  rw [Named.dataAt, List.getElem?_map]
  cases l[i]? with
  | none   => exact ⟨rfl, rfl⟩
  | some p => exact ⟨rfl, rfl⟩

open Xml.Tree

-- The whole class.

namespace Tree.Class

-- What a class is made with.
structure Made (c : Class) (cls : CMPIConstClass) : Prop where
  qualifiers : cls.qualifiers.map NativeQualifier.entry = c.qualifiers.map Qualifier.entry
  properties : cls.props.map NativeProperty.declared = c.properties.map Property.declared
  methods    : cls.methods.map NativeMethod.declared = c.methods.map Method.declared

-- There is a name and there are texts where they are needed, and every array of parameters has a type.
structure Complete (c : Class) : Prop where
  name  : c.attr.name.isSome
  texts : ∀ q ∈ c.qualifiers, q.attr.type = .string → .text none ∉ q.values
  types : ∀ m ∈ c.methods, ∀ a qs, .paramArray a qs ∈ m.params → a.type ≠ .null

variable {c : Class}

theorem Valid.lexedNames (h : c.Valid) : ∀ m ∈ c.methods, Names (m.params.map Param.lexedEntry) := by
  intro m hm
  have hn := h.methodParameters m hm
  have he (p : Param) : p.lexedEntry.1 = p.entry.1 := by
    cases p <;> rfl
  constructor
  · intro e hmem
    have ⟨p, hp, heq⟩ := List.mem_map.mp hmem
    rw [← heq, he]
    exact hn.some _ (List.mem_map_of_mem hp)
  · have hd := hn.distinct
    rw [List.map_map] at hd ⊢
    have hfun : (fun e : Entry => e.1.map Text.lower) ∘ Param.lexedEntry = (fun e => e.1.map Text.lower) ∘ Param.entry := by
      funext p
      exact congrArg (Option.map Text.lower) (he p)
    rwa [hfun]

theorem made_of (h : c.Valid) {n : Text} (hn : c.attr.name = some n)
    (ht : ∀ q ∈ c.qualifiers, q.attr.type = .string → .text none ∉ q.values) :
    ∃ cls, classResult c.xtok = .ok (.cls cls, .cls) ∧ c.Made cls := by
  have ⟨qs, hqs, hqe⟩ := setClassQualifiers_entries { classname := n } rfl h.qualifiers ht
  have ⟨s₁, ps, hps, hs₁, hpv⟩ := setClassProperties_declared h.propertyValues h.propertyQualifiers
    { cls := { classname := n, qualifiers := qs } } h.properties
  have ⟨s₂, ms, hms, hs₂, hmv⟩ := setClassMethods_declared h.methodQualifiers h.lexedNames
    { cls := s₁.cls } (by rw [hs₁]; exact h.methods)
  have hprops : setClassProperties { classname := n, qualifiers := qs } (c.properties.map Property.xtok) = .ok s₁.cls := by
    rw [setClassProperties, hps]
    rfl
  have hmethods : setClassMethods s₁.cls (c.methods.map Method.xtok) = .ok s₂.cls := by
    rw [setClassMethods, hms]
    rfl
  refine ⟨s₂.cls, ?_, ?_⟩
  · have hnew : newCMPIConstClass c.xtok.className = .ok { classname := n } := by
      show newCMPIConstClass c.attr.name = _
      rw [hn]
      rfl
    have hxqs : c.xtok.qualifiers = c.qualifiers.map Qualifier.xtok := Grammar.qualifier_xtoks _
    have hxps : c.xtok.properties = c.properties.map Property.xtok := Grammar.property_xtoks _
    have hxms : c.xtok.methods = c.methods.map Method.xtok := rfl
    rw [classResult, hnew, hxqs, hxps, hxms]
    simp only [bind, Except.bind, hqs, hprops, hmethods]
    rfl
  · rw [hs₂, hs₁]
    exact ⟨hqe, hpv, hmv⟩

theorem texts_of (h : c.Valid) {r : CMPIValue × CMPIType} (hr : classResult c.xtok = .ok r) :
    c.attr.name.isSome ∧ ∀ q ∈ c.qualifiers, q.attr.type = .string → .text none ∉ q.values := by
  have ⟨cls, hnew, hr⟩ := ok_bind.mp hr
  have ⟨cls', hqs, _⟩ := ok_bind.mp hr
  have ⟨n, hn, _⟩ := deref_bind hnew
  have hxqs : c.xtok.qualifiers = c.qualifiers.map Qualifier.xtok := Grammar.qualifier_xtoks _
  rw [hxqs] at hqs
  exact ⟨Option.isSome_iff_exists.mpr ⟨n, hn⟩, setClassQualifiers_texts h.qualifiers.right hqs⟩

end Tree.Class

-- What a class made so reports.

section Report

variable {c : Tree.Class} {cls : CMPIConstClass}

theorem find_views {P T V : Type} {l : List P} {l' : List T} {f : P → V} {g : T → V} (test : V → Bool)
    (h : l.map f = l'.map g) : (l.find? (test ∘ f)).map f = (l'.find? (test ∘ g)).map g := by
  rw [← List.find?_map, ← List.find?_map, h]

theorem elim_views {P T V E : Type} {o : Option P} {o' : Option T} {f : P → V} {g : T → V} {as : P → List E}
    {as' : T → List E} (of : V → List E) (hf : ∀ p, of (f p) = as p) (hg : ∀ t, of (g t) = as' t)
    (h : o.map f = o'.map g) : o.elim [] as = o'.elim [] as' := by
  cases o with
  | none   =>
    cases o' with
    | none    => rfl
    | some t  => cases h
  | some p =>
    cases o' with
    | none   => cases h
    | some t =>
      have he := congrArg of (Option.some.inj h)
      rw [hf, hg] at he
      exact he

theorem map_elim {P E F : Type} (o : Option P) (as : P → List E) (f : E → F) :
    (o.elim [] as).map f = o.elim [] fun p => (as p).map f := by
  cases o <;> rfl

namespace Tree.Class.Made

theorem property_owner (h : c.Made cls) (n : Text) :
    (getProperty cls.props n).map NativeProperty.declared = (owner Property.entry c.properties n).map Property.declared :=
  find_views (fun v : Entry × List Entry => v.1.1.any (sameIgnoringCase · n)) h.properties

theorem method_owner (h : c.Made cls) (n : Text) :
    (getMethod cls.methods n).map NativeMethod.declared = (owner Method.entry c.methods n).map Method.declared :=
  find_views (fun v : Entry × List Entry × List Entry => v.1.1.any (sameIgnoringCase · n)) h.methods

-- The parameters with the types they were lexed with.
theorem lists_parameters (h : c.Made cls) (n : Text) :
    Lists (cls.getMethodParameterCount n) (cls.getMethodParameterAt n)
      (((owner Method.entry c.methods n).elim [] (·.params)).map Param.lexedEntry) := by
  have he : ((getMethod cls.methods n).elim [] (·.parameters)).map NativeParameter.entry =
      ((owner Method.entry c.methods n).elim [] (·.params)).map Param.lexedEntry := by
    rw [map_elim, map_elim]
    exact elim_views (·.2.2) (fun _ => rfl) (fun _ => rfl) (h.method_owner n)
  rw [← he]
  exact lists_dataAt _

theorem reports (h : c.Made cls) (ht : ∀ m ∈ c.methods, m.params.map Param.lexedEntry = m.params.map Param.entry) :
    Reports cls c where
  qualifiers           := h.qualifiers ▸ lists_dataAt cls.qualifiers
  properties           := by
    have he : cls.props.map NativeProperty.entry = c.properties.map Property.entry := by
      have hp := congrArg (List.map Prod.fst) h.properties
      rwa [List.map_map, List.map_map] at hp
    exact he ▸ lists_dataAt cls.props
  methods              := by
    have he : cls.methods.map NativeMethod.entry = c.methods.map Method.entry := by
      have hm := congrArg (List.map Prod.fst) h.methods
      rwa [List.map_map, List.map_map] at hm
    exact he ▸ lists_dataAt cls.methods
  propertyQualifiers n := by
    have he : ((getProperty cls.props n).elim [] (·.qualifiers)).map NativeQualifier.entry =
        ((owner Property.entry c.properties n).elim [] (·.qualifiers)).map Qualifier.entry := by
      rw [map_elim, map_elim]
      exact elim_views (·.2) (fun _ => rfl) (fun _ => rfl) (h.property_owner n)
    exact he ▸ lists_dataAt _
  methodQualifiers n   := by
    have he : ((getMethod cls.methods n).elim [] (·.qualifiers)).map NativeQualifier.entry =
        ((owner Method.entry c.methods n).elim [] (·.qualifiers)).map Qualifier.entry := by
      rw [map_elim, map_elim]
      exact elim_views (·.2.1) (fun _ => rfl) (fun _ => rfl) (h.method_owner n)
    exact he ▸ lists_dataAt _
  methodParameters n   := by
    have he : ((owner Method.entry c.methods n).elim [] (·.params)).map Param.lexedEntry =
        ((owner Method.entry c.methods n).elim [] (·.params)).map Param.entry := by
      cases ho : owner Method.entry c.methods n with
      | none   => rfl
      | some m => exact ht m (List.mem_of_find?_eq_some ho)
    exact he ▸ h.lists_parameters n

end Tree.Class.Made

theorem Tree.Param.lexedEntry_eq {p : Param} (hl : p.Lexed) (ht : ∀ a qs, p = .paramArray a qs → a.type ≠ .null) :
    p.lexedEntry = p.entry := by
  cases p with
  | param a qs         => rfl
  | paramRef a qs      => exact congrArg (a.name, ·) hl
  | paramRefArray a qs => exact congrArg (a.name, ·) hl
  | paramArray a qs    =>
    cases hl with
    | inl h => exact absurd h (ht a qs rfl)
    | inr h => exact congrArg (a.name, ·) h.symm

-- The owner of a name that is in the list.
theorem owner_of_mem {T : Type} {entry : T → Entry} {items : List T} (hn : Names (items.map entry)) {t : T} (ht : t ∈ items)
    {n : Text} (he : (entry t).1 = some n) : owner entry items n = some t := by
  induction items with
  | nil             => cases ht
  | cons u items hi =>
    cases List.mem_cons.mp ht with
    | inl h =>
      rw [owner, List.find?_cons_of_pos]
      · rw [h]
      · rw [← h, he]
        simp
    | inr h =>
      have hne : (entry u).1.map Text.lower ≠ (entry t).1.map Text.lower := by
        have hd := hn.distinct
        rw [List.map_map] at hd
        intro heq
        exact (List.nodup_cons.mp hd).left (List.mem_map.mpr ⟨t, h, heq.symm⟩)
      have hu : (entry u).1.any (sameIgnoringCase · n) = false := by
        rw [he] at hne
        cases hm : (entry u).1 with
        | none   => rfl
        | some m =>
          rw [hm] at hne
          apply Bool.eq_false_iff.mpr
          simpa using hne
      have htail : Names (items.map entry) := Names.right (l := [entry u]) hn
      simp only [owner, List.find?_cons, hu]
      exact hi htail h

end Report

-- The types of parameters.

theorem procElement_token {tag : String} {elm : List String} {etag t : Tok} {token : (ℕ → Option Text) → Tok}
    {xb xb' : XmlBuffer} (h : procElement tag elm etag token xb = .ok (t, xb')) : t = .none ∨ ∃ attr, t = token attr := by
  rw [procElement, procTag] at h
  cases hw : xb.tagEquals (bytes tag) with
  | error e =>
    rw [hw] at h
    cases h
  | ok o    =>
    cases o with
    | none    =>
      rw [hw] at h
      cases h
      exact .inl rfl
    | some xb =>
      rw [hw] at h
      cases ha : xb.attrsOk (elm.map bytes) (bytes tag) etag with
      | error e =>
        simp only [bind, Except.bind, ha] at h
        cases h
      | ok p    =>
        simp only [bind, Except.bind, ha] at h
        cases h
        exact .inr ⟨_, rfl⟩

theorem procParam_lexed {a : ParamAttr} {xb xb' : XmlBuffer} (qs : List Tree.Qualifier) :
    (procParamRef xb = .ok (.X .PARAMREF a, xb') → (Tree.Param.paramRef a qs).Lexed) ∧
    (procParamArray xb = .ok (.X .PARAMARRAY a, xb') → (Tree.Param.paramArray a qs).Lexed) ∧
    (procParamRefArray xb = .ok (.X .PARAMREFARRAY a, xb') → (Tree.Param.paramRefArray a qs).Lexed) := by
  refine ⟨fun h => ?_, fun h => ?_, fun h => ?_⟩
  · rcases procElement_token h with ht | ⟨attr, ht⟩
    · cases ht
    · cases ht
      rfl
  · rcases procElement_token h with ht | ⟨attr, ht⟩
    · cases ht
    · cases ht
      rw [Param.Lexed]
      cases attr 1 with
      | none   => exact .inl rfl
      | some t => exact .inr (by simp [UInt16.or_assoc])
  · rcases procElement_token h with ht | ⟨attr, ht⟩
    · cases ht
    · cases ht
      rfl

-- The result.

theorem class_parsed (c : Tree.Class) (rest : List Tok) (su : XtokClass) (ct : Tok) :
    ∃ r, Grammar.class_ su ⟨c.yield ++ rest, ct, false⟩ = .ok (c.xtok, r) := by
  have he : Ends .fresh rest (.ok c.xtok) (Grammar.class_ su ⟨c.yield ++ rest, ct, false⟩) :=
    Grammar.class_reads.complete .any_of_fresh (Nat.le_refl _) rfl
  have ⟨p, hp, ha⟩ := he
  cases ha
  exact ⟨_, hp⟩

-- A class of the grammar is rebuilt if it has a name, every string among its own qualifiers has a text, and
-- every array of parameters has a type.
theorem rebuilt_iff {c : Tree.Class} (hc : c.Valid) (rest : List Tok) (su : XtokClass) (ct : Tok) :
    (∃ x r cls, Grammar.class_ su ⟨c.yield ++ rest, ct, false⟩ = .ok (x, r) ∧
      classResult x = .ok (.cls cls, .cls) ∧ Reports cls c) ↔ c.Complete := by
  have ⟨r₀, hr₀⟩ := class_parsed c rest su ct
  constructor
  · intro ⟨x, r, cls, hxr, hcls, hrep⟩
    have hx : c.xtok = x := congrArg Prod.fst (Except.ok.inj (hr₀.symm.trans hxr))
    rw [← hx] at hcls
    have ⟨hname, htexts⟩ := Class.texts_of hc hcls
    have ⟨n, hn⟩ := Option.isSome_iff_exists.mp hname
    have ⟨cls', hcls', hmade⟩ := Class.made_of hc hn htexts
    have hsame : cls' = cls := by
      rw [hcls'] at hcls
      exact CMPIValue.cls.inj (congrArg Prod.fst (Except.ok.inj hcls))
    rw [hsame] at hmade
    refine ⟨hname, htexts, ?_⟩
    intro m hm a qs hmem hnull
    have ⟨k, hk⟩ := Option.isSome_iff_exists.mp (hc.methods.some _ (List.mem_map_of_mem hm))
    have howner := owner_of_mem hc.methods hm hk
    have hl := hmade.lists_parameters k
    have hr := hrep.methodParameters k
    rw [howner] at hl hr
    have hmap : m.params.map Param.lexedEntry = m.params.map Param.entry := hl.unique hr
    have heq := List.map_inj_left.mp hmap _ hmem
    have htype : a.type = a.type ||| .array := congrArg Prod.snd heq
    rw [hnull] at htype
    exact absurd htype (by decide)
  · intro ⟨hname, htexts, htypes⟩
    have ⟨n, hn⟩ := Option.isSome_iff_exists.mp hname
    have ⟨cls, hcls, hmade⟩ := Class.made_of hc hn htexts
    refine ⟨c.xtok, r₀, cls, hr₀, hcls, hmade.reports ?_⟩
    intro m hm
    apply List.map_inj_left.mpr
    intro q hq
    apply Param.lexedEntry_eq (hc.lexed m hm q hq)
    intro a qs he
    exact htypes m hm a qs (he ▸ hq)

-- A class with a property, and with a method that has an array for a parameter.
def lamp : Tree.Class where
  attr       := { name := bytes "Lamp" }
  qualifiers := []
  properties := [.value { name := bytes "On", valueType := .boolean }
    [.value { name := bytes "Key", type := .boolean } (.text (bytes "true"))] none]
  methods    := [{
    attr       := { name := bytes "Blink", type := .uint32 }
    qualifiers := []
    params     := [.paramArray { name := bytes "Times", type := .uint16 ||| .array } []] }]

theorem names_single {e : Entry} (h : e.1.isSome) : Names [e] where
  some     := by simpa using h
  distinct := List.nodup_singleton _

theorem names_nil : Names [] where
  some     := nofun
  distinct := List.nodup_nil

theorem lamp_valid : lamp.Valid where
  qualifiers         := ⟨names_nil, nofun⟩
  properties         := names_single rfl
  propertyQualifiers := by
    have hq : (Tree.Qualifier.value { name := bytes "Key", type := .boolean } (.text (bytes "true"))).Sound := by
      refine ⟨nofun, by decide, ?_⟩
      intro v hv
      exact ⟨_, List.mem_singleton.mp hv, .boolean (.inl rfl)⟩
    exact List.forall_mem_singleton.mpr ⟨names_single rfl, List.forall_mem_singleton.mpr hq⟩
  propertyValues     := List.forall_mem_singleton.mpr rfl
  methods            := names_single rfl
  methodQualifiers   := List.forall_mem_singleton.mpr ⟨names_nil, nofun⟩
  methodParameters   := List.forall_mem_singleton.mpr (names_single rfl)
  lexed              := List.forall_mem_singleton.mpr (List.forall_mem_singleton.mpr (.inr rfl))

theorem rebuilt_iff_lamp : (∃ x r cls, Grammar.class_ {} ⟨lamp.yield ++ [], .none, false⟩ = .ok (x, r) ∧
    classResult x = .ok (.cls cls, .cls) ∧ Reports cls lamp) ↔ lamp.Complete :=
  rebuilt_iff lamp_valid [] {} .none

-- A class with an empty description.
def undescribed : Tree.Class where
  attr       := { name := bytes "Lamp" }
  qualifiers := [.value { name := bytes "Description", type := .string } (.text none)]
  properties := []
  methods    := []

theorem undescribed_valid : undescribed.Valid where
  qualifiers         := by
    have hq : (Tree.Qualifier.value { name := bytes "Description", type := .string } (.text none)).Sound := by
      refine ⟨nofun, by decide, ?_⟩
      intro v hv
      exact ⟨_, List.mem_singleton.mp hv, .string none⟩
    exact ⟨names_single rfl, List.forall_mem_singleton.mpr hq⟩
  properties         := names_nil
  propertyQualifiers := nofun
  propertyValues     := nofun
  methods            := names_nil
  methodQualifiers   := nofun
  methodParameters   := nofun
  lexed              := nofun

theorem not_rebuilt_undescribed : ¬ ∀ (c : Tree.Class), c.Valid → ∀ (rest : List Tok) (su : XtokClass) (ct : Tok),
    ∃ x r cls, Grammar.class_ su ⟨c.yield ++ rest, ct, false⟩ = .ok (x, r) ∧
      classResult x = .ok (.cls cls, .cls) ∧ Reports cls c := by
  intro h
  have ⟨x, r, cls, hx, hcls, _⟩ := h undescribed undescribed_valid [] {} .none
  have ⟨r₀, hr₀⟩ := class_parsed undescribed [] {} .none
  have he : undescribed.xtok = x := congrArg Prod.fst (Except.ok.inj (hr₀.symm.trans hx))
  rw [← he] at hcls
  have ⟨_, ht⟩ := Class.texts_of undescribed_valid hcls
  exact ht _ (List.mem_singleton_self _) rfl (List.mem_singleton_self _)

end Xml
end Sfcc
