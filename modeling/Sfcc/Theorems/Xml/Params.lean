import Sfcc.Theorems.Xml.Results

namespace Sfcc.Xml

open Descent Xml.Tree

-- Whether no byte of the data is set. Those of a `RETURNVALUE` that lie there are the ones behind its
-- value and its types.
def XtokParamValueData.isZero : XtokParamValueData → Bool
  | ⟨.zero, type⟩                      => type = .null
  | ⟨.returnValue ⟨⟨.ref _, _⟩, _⟩, _⟩ => false
  | ⟨.returnValue ⟨⟨_, t₁⟩, t₂⟩, type⟩ => t₁ = .null ∧ t₂ = .null ∧ type = .null
  | _                                  => false

-- The argument that is added for a parameter.
def XtokParamValue.argument (p : XtokParamValue) : Except Fault (NativeProperty CMPIValue) := do
  let value ← str2CMPIValue p.type p.data.u
  let value := if p.type = .chars then .indeterminate else value
  return .new (← deref p.name) p.type .good value

namespace Tree.ParamValue

-- What is recorded is made of the element alone, with nothing where there is no child.
def Records (p : ParamValue) (x : XtokParamValue) : Prop :=
  ∃ old : XtokParamValueData, old.isZero ∧ x = p.xtok old

def argument (p : ParamValue) : Except Fault (NativeProperty CMPIValue) :=
  (p.xtok {}).argument

end Tree.ParamValue

def Differ (name name' : Option Text) : Prop :=
  ∀ n ∈ name, ∀ n' ∈ name', sameIgnoringCase n n' = false

-- Each parameter is recorded, and becomes an argument, on its own.
structure Apart (ps : List ParamValue) (xs : List XtokParamValue) : Prop where
  recorded  : List.Forall₂ ParamValue.Records ps xs
  added     : List.Forall₂ (fun p x => x.argument = p.argument) ps xs
  arguments : (ps.Pairwise fun p q => Differ p.attr.name q.attr.name) → ∀ args, setReturnArgs xs = .ok args →
    List.Forall₂ (fun p a => p.argument = .ok a) ps args

-- An element without a child is the first one, or comes after such elements, and nothing is left
-- where its data is by the `RETURNVALUE`.
def Shielded (ret : Option ReturnValue) (ps : List ParamValue) : Prop :=
  ps.Pairwise (fun q p => p.data = none → q.data = none) ∧
    ∀ p ∈ ps, p.data = none → (MethodContent.initial ret).isZero

theorem XtokParamValueData.str2CMPIValue_zero {d : XtokParamValueData} (h : d.isZero)
    (type : CMPIType) : str2CMPIValue type d.u = str2CMPIValue type .zero := by
  match d with
  | ⟨.zero, _⟩                              => rfl
  | ⟨.returnValue ⟨⟨.zero, t₁⟩, t₂⟩, _⟩ | ⟨.returnValue ⟨⟨.value _, t₁⟩, t₂⟩, _⟩ =>
    simp only [isZero, decide_eq_true_eq] at h
    have ⟨_, ht, _⟩ := h
    subst ht
    rfl

namespace Tree.ParamValue

variable {old : XtokParamValueData} {p : ParamValue}

theorem xtok_of_some {d : XtokParamValueData} (h : p.data = some d) :
    p.xtok old = p.xtok {} := by
  simp only [xtok, h, Option.elim_some]
  rfl

theorem xtok_data (h : p.data = none) : (p.xtok old).data = old := by
  simp only [xtok, h, Option.elim_none]

theorem data_not_isZero {d : XtokParamValueData} (h : p.data = some d) :
    (p.xtok old).data.isZero = false := by
  simp only [xtok, h, Option.elim_some, XtokParamValue.setData]
  cases p <;> cases h <;> rfl

theorem records_iff : p.Records (p.xtok old) ↔ (p.data = none → old.isZero) := by
  cases h : p.data with
  | none   =>
    constructor
    · intro hr _
      have ⟨o, ho, he⟩ := hr
      have hd := congrArg XtokParamValue.data he
      rw [xtok_data h, xtok_data h] at hd
      exact hd ▸ ho
    · intro ho
      exact ⟨old, ho rfl, rfl⟩
  | some d =>
    refine iff_of_true ⟨{}, rfl, xtok_of_some h⟩ nofun

theorem forall_records_iff (ps : List ParamValue) : List.Forall₂ Records ps (xtoks old ps) ↔
    ps.Pairwise (fun q p => p.data = none → q.data = none) ∧
      ∀ p ∈ ps, p.data = none → old.isZero := by
  induction ps generalizing old with
  | nil          => simp [xtoks]
  | cons p ps hi =>
    rw [xtoks, List.forall₂_cons, records_iff, hi, List.pairwise_cons, List.forall_mem_cons]
    cases h : p.data with
    | none   =>
      rw [xtok_data h]
      simp
      tauto
    | some d =>
      rw [data_not_isZero h]
      simp
      tauto

theorem Records.argument {x : XtokParamValue} (h : p.Records x) : x.argument = p.argument := by
  have ⟨o, ho, he⟩ := h
  subst he
  cases hd : p.data with
  | none   =>
    simp only [ParamValue.argument, XtokParamValue.argument, xtok, hd, Option.elim_none,
      XtokParamValueData.str2CMPIValue_zero ho]
  | some d => rw [ParamValue.argument, xtok_of_some hd]

end Tree.ParamValue

theorem addReturnArg_ok {args args' : CMPIArgs} {x : XtokParamValue}
    (h : addReturnArg args x = .ok args') : ∃ a, x.argument = .ok a ∧ x.name = some a.name ∧
      args' = Named.add NativeProperty.name a args a.name := by
  have ⟨value, hv, h⟩ := ok_bind.mp h
  have ⟨name, hn, h⟩ := ok_bind.mp h
  cases h
  let chosen := if x.type = .chars then .indeterminate else value
  refine ⟨.new name x.type .good chosen, ?_, ?_, ?_⟩
  · exact ok_bind.mpr ⟨value, hv, ok_bind.mpr ⟨name, hn, rfl⟩⟩
  · cases hx : x.name with
    | none   => simp [hx, deref] at hn
    | some n =>
      rw [hx] at hn
      cases hn
      rw [NativeProperty.new_name]
  · rw [NativeProperty.new_name]
    rfl

-- Arguments of different names are added one behind the other.
theorem foldlM_addReturnArg {xs : List XtokParamValue} {args args' : CMPIArgs}
    (hx : xs.Pairwise fun x y => Differ x.name y.name)
    (ha : ∀ a ∈ args, ∀ x ∈ xs, ∀ n ∈ x.name, sameIgnoringCase a.name n = false)
    (h : xs.foldlM addReturnArg args = .ok args') :
    ∃ new, args' = args ++ new ∧ List.Forall₂ (fun x a => x.argument = .ok a) xs new := by
  induction xs generalizing args with
  | nil          =>
    cases h
    exact ⟨[], (List.append_nil _).symm, .nil⟩
  | cons x xs hi =>
    rw [List.foldlM_cons] at h
    obtain ⟨args₁, h₁, h⟩ := ok_bind.mp h
    obtain ⟨a, hxa, hn, hadd⟩ := addReturnArg_ok h₁
    obtain ⟨hx₁, hx₂⟩ := List.pairwise_cons.mp hx
    have hg : Named.get NativeProperty.name args a.name = none := by
      refine List.find?_eq_none.mpr fun b hb => ?_
      simp [ha b hb x (List.mem_cons_self ..) a.name hn]
    rw [Named.add, hg, if_neg (by simp)] at hadd
    subst hadd
    have ha₁ : ∀ b ∈ args ++ [a], ∀ y ∈ xs, ∀ n ∈ y.name, sameIgnoringCase b.name n = false := by
      intro b hb y hy n hny
      cases List.mem_append.mp hb with
      | inl hb => exact ha b hb y (.tail _ hy) n hny
      | inr hb =>
        cases List.mem_singleton.mp hb
        exact hx₁ y hy a.name hn n hny
    obtain ⟨new, hnew, hf⟩ := hi hx₂ ha₁ h
    exact ⟨a :: new, by rw [hnew, List.append_assoc]; rfl, .cons hxa hf⟩

theorem Tree.ParamValue.Records.name {p : ParamValue} {x : XtokParamValue} (h : p.Records x) :
    x.name = p.attr.name := by
  have ⟨o, _, he⟩ := h
  rw [he, ParamValue.xtok]
  cases p.data <;> rfl

theorem names_eq {ps : List ParamValue} {xs : List XtokParamValue}
    (h : List.Forall₂ ParamValue.Records ps xs) : xs.map (·.name) = ps.map (·.attr.name) := by
  induction h with
  | nil             => rfl
  | cons hr _ hi => rw [List.map_cons, List.map_cons, hr.name, hi]

theorem arguments_trans {ps : List ParamValue} {xs : List XtokParamValue} {args : CMPIArgs}
    (h : List.Forall₂ ParamValue.Records ps xs)
    (ha : List.Forall₂ (fun x a => x.argument = .ok a) xs args) :
    List.Forall₂ (fun p a => p.argument = .ok a) ps args := by
  induction h generalizing args with
  | nil          =>
    cases ha
    exact .nil
  | cons hr _ hi =>
    cases ha with
    | cons hx ha => exact .cons (hr.argument ▸ hx) (hi ha)

theorem Apart.of_records {ps : List ParamValue} {xs : List XtokParamValue}
    (h : List.Forall₂ ParamValue.Records ps xs) : Apart ps xs where
  recorded := h
  added    := h.imp fun _ _ hr => hr.argument
  arguments hps args hargs := by
    have hd : (ps.map (·.attr.name)).Pairwise Differ := List.pairwise_map.mpr hps
    rw [← names_eq h, List.pairwise_map] at hd
    have ⟨new, hnew, hf⟩ := foldlM_addReturnArg hd (fun a ha => absurd ha List.not_mem_nil) hargs
    cases hnew
    exact arguments_trans h hf

theorem methodFilled_values {req : Request} {hdr : ResponseHdr} {ret : Option ReturnValue}
    {ps : List ParamValue} {su : Grammar.MethodState}
    (h : Grammar.methodFilled req (.values ret ps) (hdr, {}, .zero) = .ok su) :
    su.2.1.values = ParamValue.xtoks (MethodContent.initial ret) ps := by
  cases ret with
  | none     =>
    cases h
    have ⟨u, hu⟩ := Grammar.foldl_paramStep ps (hdr, {}, .zero)
    rw [hu]
    rfl
  | some ret =>
    have ⟨d, hd, h⟩ := ok_bind.mp h
    have ⟨v, hv, hd⟩ := ok_bind.mp hd
    cases hd
    cases h
    have hr : Grammar.returnFilled {} ret = ret.xtok := by cases ret <;> rfl
    have ⟨u, hu⟩ := Grammar.foldl_paramStep ps
      (hdr.simpleArrayAdd v, {}, .returnValue (Grammar.returnFilled {} ret))
    rw [hr] at hu
    exact congrArg (fun su => su.2.1.values) hu

theorem apart_xtoks_iff (ret : Option ReturnValue) (ps : List ParamValue) :
    Apart ps (ParamValue.xtoks (MethodContent.initial ret) ps) ↔ Shielded ret ps := by
  constructor
  · intro ha
    exact (ParamValue.forall_records_iff ps).mp ha.recorded
  · intro hs
    exact .of_records ((ParamValue.forall_records_iff ps).mpr hs)

namespace Grammar

section

variable {req : Request} {hdr : ResponseHdr} {ret : Option ReturnValue} {ps : List ParamValue}
variable {ts : List Tok} {c : Tok}

theorem methodRespContent_ends (req : Request) (hdr : ResponseHdr) (ret : Option ReturnValue) (ps : List ParamValue)
    (ts : List Tok) (c : Tok) : Ends .any (.Z .METHODRESP :: ts) (methodFilled req (.values ret ps) (hdr, {}, .zero))
      (methodRespContent req (hdr, {}, .zero) ⟨(MethodContent.values ret ps).yield ++ .Z .METHODRESP :: ts, c, false⟩) :=
  methodRespContent_reads.complete .any_of_fresh (Nat.le_refl _) rfl

theorem methodRespContent_values {r : MethodState × Reader Tok}
    (h : methodRespContent req (hdr, {}, .zero)
      ⟨(MethodContent.values ret ps).yield ++ .Z .METHODRESP :: ts, c, false⟩ = .ok r) :
    r.1.2.1.values = ParamValue.xtoks (MethodContent.initial ret) ps := by
  have he := methodRespContent_ends req hdr ret ps ts c
  cases hf : methodFilled req (.values ret ps) (hdr, {}, .zero) with
  | error e =>
    rw [hf] at he
    cases h.symm.trans he
  | ok su   =>
    rw [hf] at he
    have ⟨r', hr, ha⟩ := he
    cases h.symm.trans hr
    rw [← methodFilled_values hf]
    cases ha <;> rfl

-- The parameters of a method response are apart exactly when they are shielded from each other.
theorem apart_iff_shielded {r : MethodState × Reader Tok}
    (h : methodRespContent req (hdr, {}, .zero)
      ⟨(MethodContent.values ret ps).yield ++ .Z .METHODRESP :: ts, c, false⟩ = .ok r) :
    Apart ps r.1.2.1.values ↔ Shielded ret ps := by
  rw [methodRespContent_values h]
  exact apart_xtoks_iff ret ps

end

def textParam (name value : Text) : ParamValue :=
  .value { name := some name, type := .string } (.text (some value))

-- Two texts with an array and a reference between them.
def mixedParams : List ParamValue := [
  textParam (bytes "Count") (bytes "1"),
  .array { name := some (bytes "Names"), type := .string } [.text (some (bytes "a")), .text (some (bytes "b"))],
  .reference { name := some (bytes "Owner"), type := .ref } (.instanceName (.mk (some (bytes "User")) [])),
  textParam (bytes "Note") (bytes "x")
]

theorem apart_iff_shielded_mixed : ∃ r, methodRespContent { bytesOf := fun _ => [] } ({}, {}, .zero)
      ⟨(MethodContent.values none mixedParams).yield ++ [.Z .METHODRESP], .none, false⟩ = .ok r ∧
    (Apart mixedParams r.1.2.1.values ↔ Shielded none mixedParams) := by
  have ⟨r, hr, _⟩ := methodRespContent_ends { bytesOf := fun _ => [] } {} none mixedParams [] .none
  exact ⟨r, hr, apart_iff_shielded hr⟩

-- A parameter without a child takes over the text of the one before it.
theorem not_apart_childless : ¬ ∀ req hdr ret ps ts c r, methodRespContent req (hdr, {}, .zero)
    ⟨(MethodContent.values ret ps).yield ++ .Z .METHODRESP :: ts, c, false⟩ = .ok r →
    Apart ps r.1.2.1.values := by
  intro h
  let ps := [textParam [97] [120], .empty { name := some [98], type := .string }]
  let req : Request := { bytesOf := fun _ => [] }
  have ⟨r, hr, _⟩ := methodRespContent_ends req {} none ps [] .none
  have ha := h _ _ _ _ _ _ r hr
  rw [methodRespContent_values hr, apart_xtoks_iff] at ha
  have hd := (List.pairwise_cons.mp ha.1).1 _ (List.mem_singleton_self _) rfl
  cases hd

end Grammar

end Sfcc.Xml
