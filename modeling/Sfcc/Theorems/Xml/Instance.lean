import Sfcc.Theorems.Xml.Path

open Descent

namespace Sfcc.Xml

namespace Grammar

theorem value_yields (vs : List Tree.Value) :
    Tree.Value.yields vs = vs.flatMap Tree.Value.yield := by
  induction vs with
  | nil          => rfl
  | cons v vs hi => rw [Tree.Value.yields, hi, List.flatMap_cons]

theorem value_pointers (vs : List Tree.Value) :
    Tree.Value.pointers vs = vs.map Tree.Value.pointer := by
  induction vs with
  | nil          => rfl
  | cons v vs hi => rw [Tree.Value.pointers, hi, List.map_cons]

theorem qualifier_yields (qs : List Tree.Qualifier) :
    Tree.Qualifier.yields qs = qs.flatMap Tree.Qualifier.yield := by
  induction qs with
  | nil          => rfl
  | cons q qs hi => rw [Tree.Qualifier.yields, hi, List.flatMap_cons]

theorem qualifier_xtoks (qs : List Tree.Qualifier) :
    Tree.Qualifier.xtoks qs = qs.map Tree.Qualifier.xtok := by
  induction qs with
  | nil          => rfl
  | cons q qs hi => rw [Tree.Qualifier.xtoks, hi, List.map_cons]

theorem property_yields (ps : List Tree.Property) :
    Tree.Property.yields ps = ps.flatMap Tree.Property.yield := by
  induction ps with
  | nil          => rfl
  | cons p ps hi => rw [Tree.Property.yields, hi, List.flatMap_cons]

theorem property_xtoks (ps : List Tree.Property) :
    Tree.Property.xtoks ps = ps.map Tree.Property.xtok := by
  induction ps with
  | nil          => rfl
  | cons p ps hi => rw [Tree.Property.xtoks, hi, List.map_cons]

def valueParts : Tree.Value → Option Text × Option Tree.Instance
  | .text text       => (text, none)
  | .cdata text inst => (text, some inst)

theorem xtokValue_store (a : Payload .VALUE) (u : ParseUnion) :
    (store (Tok.X .VALUE a) u).xtokValue = store (Tok.X .VALUE a) u.xtokValue := by
  cases u <;> rfl

theorem xtokValueArray_store (a : Payload .VALUEARRAY) (u : ParseUnion) :
    (store (Tok.X .VALUEARRAY a) u).xtokValueArray = store (Tok.X .VALUEARRAY a) u.xtokValueArray := by
  cases u <;> rfl

theorem xtokProperty_store {x : Tok} (hx : isProperty (kind x)) (u : ParseUnion) :
    (store x u).xtokProperty = store x u.xtokProperty := by
  simp only [isProperty, List.mem_cons, List.not_mem_nil, or_false, decide_eq_true_eq] at hx
  rcases hx with hx | hx | hx
  all_goals
    obtain ⟨a, rfl⟩ := ((opens _).iff x).mp hx
    rfl

theorem value_tagged : ∀ v : Tree.Value, ∃ a c, v.yield = Tree.tagged .VALUE a c
  | .text _ | .cdata _ _ => ⟨_, _, rfl⟩

theorem xtokQualifierData_store {k : Tag} (hk : k = .VALUE ∨ k = .VALUEARRAY) (a : Payload k) (u : ParseUnion) :
    (store (Tok.X k a) u).xtokQualifierData = store (Tok.X k a) u.xtokQualifierData := by
  rcases hk with rfl | rfl <;> cases u <;> rfl

theorem foldl_pair {σ υ T : Type} {f : σ → T → σ} {g : T → υ} (l : List T) (p : σ × υ) :
    l.foldl (fun p t => (f p.1 t, g t)) p = (l.foldl f p.1, l.foldl (fun _ t => g t) p.2) := by
  induction l generalizing p with
  | nil         => rfl
  | cons t l hi => exact hi _

-- The trees of the arms of `qualifierData`, `genProperty` and `methodData`.

def qualifierParts : Tree.Qualifier → QualifierAttr × Option (Tree.Value ⊕ List Tree.Value)
  | .empty attr        => (attr, none)
  | .value attr value  => (attr, some (.inl value))
  | .array attr values => (attr, some (.inr values))

abbrev PropertyTree (V : Type) :=
  PropertyAttr × List Tree.Qualifier × Option V

def propertyArms : Tree.Property →
    PropertyTree Tree.Value ⊕ PropertyTree (List Tree.Value) ⊕ PropertyTree Tree.Reference
  | .value attr qualifiers value   => .inl (attr, qualifiers, value)
  | .array attr qualifiers values  => .inr (.inl (attr, qualifiers, values))
  | .reference attr qualifiers ref => .inr (.inr (attr, qualifiers, ref))

def instanceParts : Tree.Instance → Option Text × List Tree.Qualifier × List Tree.Property
  | .mk className qualifiers properties => (className, qualifiers, properties)

theorem qualifier_tagged : ∀ q : Tree.Qualifier, ∃ a c, q.yield = Tree.tagged .QUALIFIER a c
  | .empty _ | .value _ _ | .array _ _ => ⟨_, _, rfl⟩

variable {n : ℕ} {inst : Production XtokInstance}

-- The tokens in a `VALUE`, and what they leave in its data.
def valueContent : Option Tree.Instance → List Tok
  | none   => []
  | some i => Tree.tagged .CDATA () i.yield

def valueFilled (su : XtokValueData XtokInstance) : Option Tree.Instance → XtokValueData XtokInstance
  | none   => { su with type := .charP }
  | some i => { ptr := .inst i.xtok, type := .Instance }

section

variable (h : Reads .any .fresh inst n never Tree.Instance.yield (fills Tree.Instance.xtok))

include h

theorem valueData_sound {d : XtokValueData XtokInstance} {c : Tok} {ts : List Tok}
    {r : XtokValueData XtokInstance × Reader Tok} (hq : valueData inst d ⟨ts, c, false⟩ = .ok r) :
    (next ts = .Z .VALUE ∧ r = (valueFilled d none, ⟨ts.tail, .Z .VALUE, true⟩)) ∨
    ∃ i ts', ts = valueContent (some i) ++ ts' ∧ At .fresh ts' (valueFilled d (some i)) r := by
  have ha : At .any ts d (d, ⟨ts, c, false⟩) := .any_of_fresh
  obtain ⟨r₁, hr₁, ha₁⟩ := ha.lex
  rw [valueData, bind_apply hr₁, current_bind, ha₁.current] at hq
  cases ha₁
  split at hq
  case isTrue hk =>
    obtain ⟨ts', rfl⟩ := (closes .VALUE).next hk
    cases hq
    exact .inl ⟨rfl, rfl⟩
  case isFalse =>
    rw [current_bind] at hq
    split at hq
    case isFalse => cases hq
    case isTrue hk =>
      obtain ⟨⟨⟩, ts₁, rfl⟩ := (opens .CDATA).next hk
      have ⟨r₂, hi, hq⟩ := bind_ok hq
      obtain ⟨i, ts₂, i', ht, ho, ha₂⟩ := h.sound .any_of_fresh hi
      cases ho
      cases ha₂
      have ⟨r₃, hr₃, hq⟩ := bind_ok hq
      cases hr₃
      rw [current_bind] at hq
      split at hq
      case isFalse => cases hq
      case isTrue hk₂ =>
        obtain ⟨ts', rfl⟩ := (closes .CDATA).next hk₂
        cases hq
        exact .inr ⟨i, ts', by simp [valueContent, Tree.tagged, ← ht], .fresh⟩

theorem valueData_cdata {d : XtokValueData XtokInstance} {c : Tok} {ts : List Tok} {i : Tree.Instance}
    (hn : (valueContent (some i)).length ≤ n) :
    Ends .fresh ts (.ok (valueFilled d (some i)))
      (valueData inst d ⟨valueContent (some i) ++ ts, c, false⟩) := by
  have hi : Ends .fresh (.Z .CDATA :: ts) (.ok i.xtok)
      (inst {} ⟨i.yield ++ .Z .CDATA :: ts, .X .CDATA (), false⟩) :=
    h.complete .any_of_fresh (by simp [valueContent, Tree.tagged] at hn; omega) rfl
  obtain ⟨r, hr, ha⟩ := hi
  cases ha
  have hd : valueData inst d ⟨valueContent (some i) ++ ts, c, false⟩ = (do
      let i ← inst {}
      let su ← lex { d with ptr := .inst i, type := .Instance }
      if kind (← current) = .Z .CDATA then pure su else parseError "ZTOK_CDATA" : Parse _)
        ⟨i.yield ++ .Z .CDATA :: ts, .X .CDATA (), false⟩ := by
    simp only [valueContent, Tree.tagged, List.cons_append, List.append_assoc, List.nil_append]
    rfl
  rw [hd, bind_apply hr]
  exact ⟨_, rfl, .fresh⟩

theorem valueContent_reads : Reads .fresh .any (focus (·.1.data)
      (fun data p => ({ p.1 with data := data, type := data.type }, p.2)) (valueData inst)) n
    (· ≠ Kind.Z .VALUE) valueContent (fun t (p : XtokValue XtokInstance × Unit) =>
      .ok ({ data := valueFilled p.1.data t, type := (valueFilled p.1.data t).type }, p.2)) where
  sound {ts p r r'} ha hq := by
    cases ha
    have ⟨r₁, hd, hr⟩ := bind_ok hq
    cases hr
    rcases valueData_sound h hd with ⟨ht, rfl⟩ | ⟨i, ts', ht, ha⟩
    · exact ⟨none, ts, _, rfl, rfl, .pushed ht rfl⟩
    · cases ha
      exact ⟨some i, ts', _, ht, rfl, .any_of_fresh⟩
  complete {t ts p r} ha hn hm := by
    cases ha
    cases t with
    | none =>
      have hk : kind (next ts) = Kind.Z .VALUE := by simpa using hm
      obtain ⟨ts', rfl⟩ := (closes .VALUE).next hk
      exact ⟨_, rfl, .any_of_ahead⟩
    | some i =>
      obtain ⟨r, hr, ha⟩ := valueData_cdata h hn
      cases ha
      exact ⟨_, bind_apply hr, .any_of_fresh⟩

theorem value_reads : Reads .any .fresh (value inst) n never
    Tree.Value.yield (fills Tree.Value.xtok) := by
  refine reads_element .VALUE valueParts (valueContent_reads h) ?_ ?_ ?_ (fun _ => rfl) (by decide)
    n.le_succ
  · rintro text (_ | i)
    exacts [⟨.text text, rfl⟩, ⟨.cdata text i, rfl⟩]
  · rintro (_ | _) <;> rfl
  · rintro (_ | _) su <;> rfl

theorem valueArray_reads : Reads .any .fresh (valueArray inst) n never
    (fun vs => Tree.tagged .VALUEARRAY () (Tree.Value.yields vs))
    (fills fun vs => .ofList (Tree.Value.pointers vs)) := by
  refine reads_element .VALUEARRAY ((), ·) (Reads.fresh <| Guarded.many_ok <|
    guarded_focus .VALUE (value_reads h) value_tagged fun a p => xtokValue_store a p.2) (fun _ vs => ⟨vs, rfl⟩) ?_ ?_
    (fun _ => rfl) rfl n.le_succ
  · exact fun vs => congrArg _ (value_yields vs)
  · intro vs su
    refine (foldl_fst (fun a v => a.add v.pointer) fun p v => ?_).trans ?_
    · cases v <;> rfl
    · rw [value_pointers, XtokValueArray.ofList, List.foldl_map]
      rfl

theorem qualifierData_reads : Reads .any .fresh (qualifierData inst) n never
    (Sum.elim Tree.Value.yield fun vs => Tree.tagged .VALUEARRAY () (Tree.Value.yields vs))
    (fills (Sum.elim (fun v => { u := .value v.xtok, isArray := false })
      fun vs => { u := .array (.ofList (Tree.Value.pointers vs)), isArray := true })) := by
  have ha : Reads .any .fresh (qualifierData inst) n never _ _ := Reads.choice <| Arms.toReads <|
    .arm (.guarded <| guarded_focus .VALUE (value_reads h) value_tagged fun _ _ => rfl)
      (.last (.guarded <| guarded_focus .VALUEARRAY (valueArray_reads h) (fun _ => ⟨_, _, rfl⟩) fun _ _ => rfl))
      (by simp)
  exact ha.map id (fun _ => ⟨_, rfl⟩) (fun t => by cases t <;> rfl) fun t => by cases t <;> rfl

theorem qualifier_reads : Reads .any .fresh (qualifier inst) n never
    Tree.Qualifier.yield (fills Tree.Qualifier.xtok) := by
  have hd : Guarded (· ∈ [.X .VALUE, .X .VALUEARRAY]) (qualifierData inst) n _ _ :=
    (qualifierData_reads h).guarded _ fun t => by
      rcases t with t | t
      · obtain ⟨a, c, ht⟩ := value_tagged t
        exact ⟨_, _, ht, by simp [kind, Tok.kind]⟩
      · exact ⟨_, _, rfl, by simp [kind, Tok.kind]⟩
  refine reads_element .QUALIFIER qualifierParts (Reads.fresh <| Guarded.optional_ok <|
    hd.focus fun x su hx => ?_) ?_ ?_ ?_ (fun _ => rfl) rfl n.le_succ
  · simp only [List.mem_cons, List.not_mem_nil, or_false, decide_eq_true_eq] at hx
    rcases hx with hx | hx
    · obtain ⟨a, rfl⟩ := ((opens _).iff x).mp hx
      exact xtokQualifierData_store (.inl rfl) a su.2
    · obtain ⟨a, rfl⟩ := ((opens _).iff x).mp hx
      exact xtokQualifierData_store (.inr rfl) a su.2
  · rintro attr (_ | value | values)
    exacts [⟨.empty attr, rfl⟩, ⟨.value attr value, rfl⟩, ⟨.array attr values, rfl⟩]
  · rintro (_ | _ | _) <;> rfl
  · rintro (_ | ⟨_, ⟨_⟩⟩ | _) su <;> rfl

theorem qualifier_item {σ : Type} (add : XtokQualifier XtokInstance → σ → σ) :
    Guarded (· = Kind.X .QUALIFIER)
      (focus (·.2.xtokQualifier) (fun q p => (add q p.1, .qualifier q)) (qualifier inst)) n
      Tree.Qualifier.yield
      (fun q (p : σ × ParseUnion) => .ok (add q.xtok p.1, .qualifier q.xtok)) :=
  guarded_focus .QUALIFIER (qualifier_reads h) qualifier_tagged fun _ _ => rfl

-- The loop appends the qualifiers to those the structure has already.
theorem qualifiers_reads {σ : Type} {add : XtokQualifier XtokInstance → σ → σ}
    (append : σ → List (XtokQualifier XtokInstance) → σ) (hn : ∀ s, append s [] = s)
    (hc : ∀ s q qs, append (add q s) qs = append s (q :: qs)) :
    Reads .any .any (qualifiers inst add) n (· = Kind.X .QUALIFIER) Tree.Qualifier.yields
      (fun qs p => .ok (append p.1 (Tree.Qualifier.xtoks qs),
        qs.foldl (fun _ q => .qualifier q.xtok) p.2)) := by
  refine (qualifier_item h add).many_ok.map id (fun _ => ⟨_, rfl⟩) qualifier_yields fun qs => ?_
  funext p
  have hf : qs.foldl (fun s q => add q.xtok s) p.1 = append p.1 (qs.map Tree.Qualifier.xtok) :=
    foldl_add (fun s q => add q s) _ append hn hc qs p.1
  rw [qualifier_xtoks, ← hf]
  exact congrArg Except.ok (foldl_pair ..).symm

theorem propertyQualifiers_reads :
    Reads .any .any (qualifiers inst XtokPropertyData.addQualifier) n (· = Kind.X .QUALIFIER)
      Tree.Qualifier.yields
      (fun qs p => .ok ({ p.1 with qualifiers := p.1.qualifiers ++ Tree.Qualifier.xtoks qs },
        qs.foldl (fun _ q => .qualifier q.xtok) p.2)) :=
  qualifiers_reads h
    (fun (p : XtokPropertyData XtokInstance) qs => { p with qualifiers := p.qualifiers ++ qs })
    (fun ⟨_, _, _⟩ => by simp) (by simp [XtokPropertyData.addQualifier])

theorem property_reads : Reads .any .fresh (property inst) n never
    (fun t : PropertyTree Tree.Value => (Tree.Property.value t.1 t.2.1 t.2.2).yield)
    (fills fun t => (Tree.Property.value t.1 t.2.1 t.2.2).xtok.val) := by
  have hv : Guarded _ (focus (fun p : XtokPropertyData XtokInstance × ParseUnion => p.2.xtokValue)
      (fun v p => ({ p.1 with u := .value v }, .value v)) (value inst)) n _ _ :=
    guarded_focus .VALUE (value_reads h) value_tagged fun a p => xtokValue_store a p.2
  have hc := (propertyQualifiers_reads h).seq hv.optional_ok (hv.clear_optional (by simp))
  refine reads_element .PROPERTY id hc.fresh (fun _ _ => ⟨_, rfl⟩) ?_ ?_ (fun _ => rfl) (by simp)
    n.le_succ
  · rintro ⟨a, qs, _ | v⟩ <;> rfl
  · rintro ⟨a, qs, _ | v⟩ su <;> rfl

theorem propertyArray_reads : Reads .any .fresh (propertyArray inst) n never
    (fun t : PropertyTree (List Tree.Value) => (Tree.Property.array t.1 t.2.1 t.2.2).yield)
    (fills fun t => (Tree.Property.array t.1 t.2.1 t.2.2).xtok.val) := by
  have hv : Guarded _ (focus (fun p : XtokPropertyData XtokInstance × ParseUnion => p.2.xtokValueArray)
      (fun a p => ({ p.1 with u := .array a }, .valueArray a)) (valueArray inst)) n _ _ :=
    guarded_focus .VALUEARRAY (valueArray_reads h) (fun _ => ⟨_, _, rfl⟩)
      fun a p => xtokValueArray_store a p.2
  have hc := (propertyQualifiers_reads h).seq hv.optional_ok (hv.clear_optional (by simp))
  refine reads_element .PROPERTYARRAY id hc.fresh (fun _ _ => ⟨_, rfl⟩) ?_ ?_ (fun _ => rfl) (by simp)
    n.le_succ
  · rintro ⟨a, qs, _ | vs⟩ <;> rfl
  · rintro ⟨a, qs, _ | vs⟩ su <;> rfl

theorem propertyReference_reads : Reads .any .fresh (propertyReference inst) n never
    (fun t : PropertyTree Tree.Reference => (Tree.Property.reference t.1 t.2.1 t.2.2).yield)
    (fills fun t => (Tree.Property.reference t.1 t.2.1 t.2.2).xtok.val) := by
  have hv : Guarded _ (focus (fun p : XtokPropertyData XtokInstance × ParseUnion => p.2.xtokValueReference)
      (fun r p => ({ p.1 with u := .ref r }, .valueReference r)) (valueReference instanceName)) n _ _ :=
    guarded_focus .VALUEREFERENCE (valueReference_reads instanceName_reads) (fun _ => ⟨_, _, rfl⟩)
      fun _ _ => rfl
  have hc := (propertyQualifiers_reads h).seq hv.optional_ok (hv.clear_optional (by simp))
  refine reads_element .PROPERTYREFERENCE id hc.fresh (fun _ _ => ⟨_, rfl⟩) ?_ ?_ (fun _ => rfl)
    (by simp) n.le_succ
  · rintro ⟨a, qs, _ | r⟩ <;> rfl
  · rintro ⟨a, qs, _ | r⟩ su <;> rfl

theorem genProperty_reads : Reads .any .fresh (genProperty inst) n never
    Tree.Property.yield (fills Tree.Property.xtok) := by
  have ha : Reads .any .fresh (genProperty inst) n never _ _ := Reads.choice <| Arms.toReads <|
    .arm (.guarded <| guarded_focus .PROPERTY (property_reads h) (fun _ => ⟨_, _, rfl⟩) fun _ _ => rfl)
      (.arm (.guarded <| guarded_focus .PROPERTYARRAY (propertyArray_reads h) (fun _ => ⟨_, _, rfl⟩)
          fun _ _ => rfl)
        (.last (.guarded <| guarded_focus .PROPERTYREFERENCE (propertyReference_reads h) (fun _ => ⟨_, _, rfl⟩)
          fun _ _ => rfl))
        (by simp))
      (by simp)
  refine ha.map propertyArms (fun {t} _ _ _ => ?_) (fun t => by cases t <;> rfl) ?_
  · rcases t with ⟨a, qs, v⟩ | ⟨a, qs, vs⟩ | ⟨a, qs, r⟩
    exacts [⟨.value a qs v, rfl⟩, ⟨.array a qs vs, rfl⟩, ⟨.reference a qs r, rfl⟩]
  · rintro (⟨_, _, _ | _ | _⟩ | _ | _) <;> rfl

theorem property_item {σ : Type} (add : XtokProperty XtokInstance → σ → σ) :
    Guarded isProperty (focus (·.2.xtokProperty) (fun q p => (add q p.1, .property q)) (genProperty inst))
      n Tree.Property.yield
      (fun q (p : σ × ParseUnion) => .ok (add q.xtok p.1, .property q.xtok)) := by
  have hs : ∀ p : Tree.Property, ∃ x xs, p.yield = x :: xs ∧ isProperty (kind x)
    | .value _ _ _ | .array _ _ _ | .reference _ _ _ => ⟨_, _, rfl, rfl⟩
  exact ((genProperty_reads h).guarded isProperty hs).focus fun x p hx => xtokProperty_store hx p.2

theorem properties_clear : Clear (· = Kind.X .QUALIFIER) Tree.Property.yields := by
  rw [funext property_yields]
  refine (property_item h XtokInstance.addProperty).clear_many fun k hk => ?_
  simp only [isProperty, List.mem_cons, List.not_mem_nil, or_false, decide_eq_true_eq] at hk
  rcases hk with rfl | rfl | rfl <;> rfl

theorem properties_reads {σ : Type} {add : XtokProperty XtokInstance → σ → σ}
    (append : σ → List (XtokProperty XtokInstance) → σ) (hn : ∀ s, append s [] = s)
    (hc : ∀ s p ps, append (add p s) ps = append s (p :: ps)) :
    Reads .any .any (properties inst add) n isProperty Tree.Property.yields
      (fun ps p => .ok (append p.1 (Tree.Property.xtoks ps),
        ps.foldl (fun _ p => .property p.xtok) p.2)) := by
  refine (property_item h add).many_ok.map id (fun _ => ⟨_, rfl⟩) property_yields fun ps => ?_
  funext p
  have hf : ps.foldl (fun s p => add p.xtok s) p.1 = append p.1 (ps.map Tree.Property.xtok) :=
    foldl_add (fun s p => add p s) _ append hn hc ps p.1
  rw [property_xtoks, ← hf]
  exact congrArg Except.ok (foldl_pair ..).symm

theorem instanceStep_reads : Reads .any .fresh (instanceStep inst) (n + 1) never
    Tree.Instance.yield (fills Tree.Instance.xtok) := by
  have hq : Reads _ _ (qualifiers inst XtokInstance.addQualifier) n _ _ _ := qualifiers_reads h
    (fun i qs => { i with qualifiers := i.qualifiers ++ qs }) (fun ⟨_, _, _⟩ => by simp)
    (by simp [XtokInstance.addQualifier])
  have hp : Reads _ _ (properties inst XtokInstance.addProperty) n _ _ _ := properties_reads h
    (fun i ps => { i with properties := i.properties ++ ps }) (fun ⟨_, _, _⟩ => by simp)
    (by simp [XtokInstance.addProperty])
  refine reads_element .INSTANCE instanceParts
    (hq.seq hp (properties_clear h)).fresh ?_ ?_ ?_ (fun _ => rfl) (by decide) (Nat.le_refl _)
  · exact fun name t => ⟨.mk name t.1 t.2, rfl⟩
  · rintro ⟨name, qs, ps⟩
    rfl
  · rintro ⟨name, qs, ps⟩ su
    rfl

end

theorem instanceN_reads : ∀ n, Reads .any .fresh (instanceN n) n never
    Tree.Instance.yield (fills Tree.Instance.xtok)
  | 0     => .zero fun ⟨_, _, _⟩ => nofun
  | n + 1 => instanceStep_reads (instanceN_reads n)

theorem instance_reads : Reads .any .fresh instance_ n never
    Tree.Instance.yield (fills Tree.Instance.xtok) :=
  .fueled instanceN_reads

end Grammar
end Sfcc.Xml
