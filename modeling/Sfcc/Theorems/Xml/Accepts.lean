import Sfcc.Theorems.Xml.Class

open Descent

namespace Sfcc.Xml

-- `NAME` is missing, which `sfccLex` does not mind.
abbrev Tok.nameless : Tok :=
  .X .NAMESPACE Option.none

-- The token with a name for its name space.
def Tok.named : Tok → Tok
  | .X .NAMESPACE name => .X .NAMESPACE (some (Option.getD name []))
  | t                  => t

theorem Tok.named_ne {x : Tok} (h : x.named = x) : x ≠ Tok.nameless := by
  rintro rfl
  cases h

theorem Tok.named_eq {x : Tok} (h : x ≠ Tok.nameless) : x.named = x := by
  cases x with
  | none | Z _ => rfl
  | X tag a    =>
    cases tag with
    | NAMESPACE =>
      cases a with
      | none   => exact absurd rfl h
      | some _ => rfl
    | _         => rfl

theorem map_named {l : List Tok} : l.map Tok.named = l ↔ ∀ x ∈ l, x ≠ Tok.nameless :=
  ⟨fun h x hx => Tok.named_ne (List.map_inj_left.mp (h.trans (List.map_id l).symm) x hx), fun h =>
    (List.map_inj_left.mpr fun x hx => Tok.named_eq (h x hx)).trans (List.map_id l)⟩

namespace Tree

theorem tagged_named {tag : Tag} {a : Payload tag} {c : List Tok}
    (h : (Tok.X tag a).named = Tok.X tag a) (hc : c.map Tok.named = c) :
    (tagged tag a c).map Tok.named = tagged tag a c := by
  simp only [tagged, List.map_cons, List.map_append, h, hc]
  rfl

theorem append_named {l l' : List Tok} (h : l.map Tok.named = l) (h' : l'.map Tok.named = l') :
    (l ++ l').map Tok.named = l ++ l' := by
  rw [List.map_append, h, h']

theorem flatMap_named {T : Type} {yield : T → List Tok} (h : ∀ t, (yield t).map Tok.named = yield t)
    (l : List T) : (l.flatMap yield).map Tok.named = l.flatMap yield := by
  rw [List.map_flatMap]
  exact congrArg (List.flatMap · l) (funext h)

theorem NameSpacePath.yieldLocal_named (names : List Text) :
    (NameSpacePath.yieldLocal names).map Tok.named = NameSpacePath.yieldLocal names :=
  tagged_named rfl (flatMap_named (fun _ => tagged_named rfl rfl) names)

theorem NameSpacePath.yield_named (p : NameSpacePath) : p.yield.map Tok.named = p.yield :=
  tagged_named rfl (append_named (tagged_named rfl rfl) (yieldLocal_named p.names))

mutual

theorem InstanceName.yield_named : ∀ t : InstanceName, t.yield.map Tok.named = t.yield
  | .mk _ bs => tagged_named rfl (KeyBinding.yields_named bs)

theorem KeyBinding.yields_named :
    ∀ bs : List KeyBinding, (KeyBinding.yields bs).map Tok.named = KeyBinding.yields bs
  | []      => rfl
  | b :: bs => append_named b.yield_named (KeyBinding.yields_named bs)

theorem KeyBinding.yield_named : ∀ b : KeyBinding, b.yield.map Tok.named = b.yield
  | .keyValue _ _    => tagged_named rfl (tagged_named rfl rfl)
  | .reference _ ref => tagged_named rfl (tagged_named rfl ref.content_named)

theorem Reference.content_named : ∀ r : Reference, r.content.map Tok.named = r.content
  | .instancePath path name      => tagged_named rfl (append_named path.yield_named name.yield_named)
  | .localInstancePath path name =>
    tagged_named rfl (append_named (NameSpacePath.yieldLocal_named path) name.yield_named)
  | .instanceName name           => name.yield_named

end

theorem Reference.yield_named (r : Reference) : r.yield.map Tok.named = r.yield :=
  tagged_named rfl r.content_named

mutual

theorem Instance.yield_named : ∀ t : Instance, t.yield.map Tok.named = t.yield
  | .mk _ qs ps => tagged_named rfl (append_named (Qualifier.yields_named qs) (Property.yields_named ps))

theorem Value.yield_named : ∀ v : Value, v.yield.map Tok.named = v.yield
  | .text _       => tagged_named rfl rfl
  | .cdata _ inst => tagged_named rfl (tagged_named rfl inst.yield_named)

theorem Value.yields_named : ∀ vs : List Value, (Value.yields vs).map Tok.named = Value.yields vs
  | []      => rfl
  | v :: vs => append_named v.yield_named (Value.yields_named vs)

theorem Qualifier.yield_named : ∀ q : Qualifier, q.yield.map Tok.named = q.yield
  | .empty _    => tagged_named rfl rfl
  | .value _ v  => tagged_named rfl v.yield_named
  | .array _ vs => tagged_named rfl (tagged_named rfl (Value.yields_named vs))

theorem Qualifier.yields_named :
    ∀ qs : List Qualifier, (Qualifier.yields qs).map Tok.named = Qualifier.yields qs
  | []      => rfl
  | q :: qs => append_named q.yield_named (Qualifier.yields_named qs)

theorem Property.yield_named : ∀ p : Property, p.yield.map Tok.named = p.yield
  | .value _ qs v     =>
    tagged_named rfl (append_named (Qualifier.yields_named qs) (Property.yieldValue_named v))
  | .array _ qs vs    =>
    tagged_named rfl (append_named (Qualifier.yields_named qs) (Property.yieldArray_named vs))
  | .reference _ qs r => tagged_named rfl (append_named (Qualifier.yields_named qs) <| by
    cases r with
    | none   => rfl
    | some r => exact r.yield_named)

theorem Property.yieldValue_named :
    ∀ v : Option Value, (Property.yieldValue v).map Tok.named = Property.yieldValue v
  | none   => rfl
  | some v => v.yield_named

theorem Property.yieldArray_named :
    ∀ vs : Option (List Value), (Property.yieldArray vs).map Tok.named = Property.yieldArray vs
  | none    => rfl
  | some vs => tagged_named rfl (Value.yields_named vs)

theorem Property.yields_named :
    ∀ ps : List Property, (Property.yields ps).map Tok.named = Property.yields ps
  | []      => rfl
  | p :: ps => append_named p.yield_named (Property.yields_named ps)

end

theorem Param.yield_named : ∀ p : Param, p.yield.map Tok.named = p.yield
  | .param _ qs | .paramRef _ qs | .paramArray _ qs | .paramRefArray _ qs =>
    tagged_named rfl (Qualifier.yields_named qs)

theorem Method.yield_named (m : Method) : m.yield.map Tok.named = m.yield :=
  tagged_named rfl (append_named (Qualifier.yields_named _) (flatMap_named Param.yield_named _))

theorem Class.yield_named (c : Class) : c.yield.map Tok.named = c.yield :=
  tagged_named rfl <| append_named (Qualifier.yields_named _) <|
    append_named (Property.yields_named _) (flatMap_named Method.yield_named _)

end Tree

section

variable {T σ : Type} [Store Tok σ]

-- The stream begins with a tree of the grammar, in which any name may be missing.
def Begins (yield : T → List Tok) (ts : List Tok) : Prop :=
  ∃ t rest, ts.map Tok.named = yield t ++ rest

-- The production accepts its grammar and rebuilds the tree.
structure Exact (p : Production σ) (yield : T → List Tok) (xtok : T → σ) (ts : List Tok) : Prop where
  returns  : ∀ su c, (∃ r, p su ⟨ts, c, false⟩ = .ok r) ↔ Begins yield ts
  rebuilds : ∀ su c r, p su ⟨ts, c, false⟩ = .ok r →
    ∃ t, ts = yield t ++ r.2.rest ∧ r.1 = xtok t ∧ r.2.pushedBack = false

-- No `NAMESPACE` in the tree that the stream begins with lacks its `NAME`.
def Named (yield : T → List Tok) (ts : List Tok) : Prop :=
  ∀ t rest, ts.map Tok.named = yield t ++ rest → ∀ x ∈ ts.take (yield t).length, x ≠ Tok.nameless

variable {p : Production σ} {yield : T → List Tok} {xtok : T → σ} {ts : List Tok}

theorem returns_iff (h : ∀ n, Reads .any .fresh p n never yield (fills xtok)) (su : σ) (c : Tok) :
    (∃ r, p su ⟨ts, c, false⟩ = .ok r) ↔ ∃ t rest, ts = yield t ++ rest := by
  constructor
  · intro ⟨r, hr⟩
    have ⟨t, rest, _, ht, _⟩ := (h 0).sound .any_of_fresh hr
    exact ⟨t, rest, ht⟩
  · rintro ⟨t, rest, rfl⟩
    have he : Ends .fresh rest (.ok (xtok t)) (p su ⟨yield t ++ rest, c, false⟩) :=
      (h (yield t).length).complete .any_of_fresh (Nat.le_refl _) rfl
    have ⟨r, hr, _⟩ := he
    exact ⟨r, hr⟩

theorem rest_eq (h : ∀ n, Reads .any .fresh p n never yield (fills xtok)) {t : T} {rest : List Tok}
    {su : σ} {c : Tok} {r : σ × Reader Tok} (hr : p su ⟨yield t ++ rest, c, false⟩ = .ok r) :
    r.2.rest = rest := by
  have he : Ends .fresh rest (.ok (xtok t)) (p su ⟨yield t ++ rest, c, false⟩) :=
    (h (yield t).length).complete .any_of_fresh (Nat.le_refl _) rfl
  have ⟨r', hr', ha⟩ := he
  cases hr.symm.trans hr'
  cases ha
  rfl

-- No tree is written as the beginning of another one.
theorem length_unique (h : ∀ n, Reads .any .fresh p n never yield (fills xtok)) {t t' : T}
    {rest rest' : List Tok} (he : yield t ++ rest = yield t' ++ rest') (su : σ) :
    (yield t).length = (yield t').length := by
  have ⟨r, hr⟩ := (returns_iff h su .none).mpr ⟨t, rest, rfl⟩
  have hrest : rest = rest' := (rest_eq h hr).symm.trans (rest_eq h (he ▸ hr))
  subst hrest
  exact congrArg List.length (List.append_cancel_right he)

theorem exact_iff (h : ∀ n, Reads .any .fresh p n never yield (fills xtok))
    (hy : ∀ t, (yield t).map Tok.named = yield t) (su : σ) :
    Exact p yield xtok ts ↔ Named yield ts := by
  constructor
  · intro he t rest ht
    have hb := (he.returns su .none).mpr ⟨t, rest, ht⟩
    have ⟨t', rest', hts⟩ := (returns_iff h su .none).mp hb
    subst hts
    rw [List.map_append, hy] at ht
    rw [← length_unique h ht su, List.take_left]
    exact map_named.mp (hy t')
  · intro hn
    have hr (su c) : (∃ r, p su ⟨ts, c, false⟩ = .ok r) ↔ Begins yield ts := by
      refine (returns_iff h su c).trans ⟨?_, ?_⟩
      · rintro ⟨t, rest, rfl⟩
        exact ⟨t, rest.map Tok.named, by rw [List.map_append, hy]⟩
      · intro ⟨t, rest, ht⟩
        have hk := map_named.mpr (hn t rest ht)
        rw [List.map_take, ht, List.take_left] at hk
        have hs := List.take_append_drop (yield t).length ts
        rw [← hk] at hs
        exact ⟨t, _, hs.symm⟩
    refine ⟨hr, fun su c r hp => ?_⟩
    have ⟨t, rest, _, ht, ho, ha⟩ := (h 0).sound .any_of_fresh hp
    cases ha
    cases ho
    exact ⟨t, ht, rfl, rfl⟩

end

namespace Grammar

theorem exact_iff_named (ts : List Tok) :
    (Exact instance_ Tree.Instance.yield Tree.Instance.xtok ts ↔ Named Tree.Instance.yield ts) ∧
    (Exact class_ Tree.Class.yield Tree.Class.xtok ts ↔ Named Tree.Class.yield ts) ∧
    (Exact instanceName Tree.InstanceName.yield Tree.InstanceName.xtok ts ↔
      Named Tree.InstanceName.yield ts) :=
  ⟨exact_iff (fun _ => instance_reads) Tree.Instance.yield_named {},
    exact_iff (fun _ => class_reads) Tree.Class.yield_named {},
    exact_iff (fun _ => instanceName_reads) Tree.InstanceName.yield_named {}⟩

-- A key that refers into a name space with a component without `NAME`.
def namelessKey : List Tok :=
  Tree.tagged .INSTANCENAME none <| Tree.tagged .KEYBINDING none <| Tree.tagged .VALUEREFERENCE () <|
    Tree.tagged .LOCALINSTANCEPATH () <|
      Tree.tagged .LOCALNAMESPACEPATH () (Tree.tagged .NAMESPACE Option.none []) ++
        Tree.tagged .INSTANCENAME Option.none []

theorem not_exact_namelessKey :
    ¬ Exact instanceName Tree.InstanceName.yield Tree.InstanceName.xtok namelessKey := by
  intro h
  have hb : Begins Tree.InstanceName.yield namelessKey :=
    ⟨.mk none [.reference none (.localInstancePath [[]] (.mk none []))], [], rfl⟩
  have ⟨r, hr⟩ := (h.returns {} .none).mpr hb
  cases hr

end Grammar

end Sfcc.Xml
