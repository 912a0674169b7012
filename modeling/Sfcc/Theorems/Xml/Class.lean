import Sfcc.Theorems.Xml.Instance

open Descent

namespace Sfcc.Xml

namespace Grammar

abbrev ParamTree (tag : Tag) :=
  Payload tag × List Tree.Qualifier

def paramArms :
    Tree.Param → ParamTree .PARAM ⊕ ParamTree .PARAMREF ⊕ ParamTree .PARAMARRAY ⊕ ParamTree .PARAMREFARRAY
  | .param attr qualifiers         => .inl (attr, qualifiers)
  | .paramRef attr qualifiers      => .inr (.inl (attr, qualifiers))
  | .paramArray attr qualifiers    => .inr (.inr (.inl (attr, qualifiers)))
  | .paramRefArray attr qualifiers => .inr (.inr (.inr (attr, qualifiers)))

theorem isParam_iff {k : Kind} :
    isParam k ↔ k = .X .PARAM ∨ k = .X .PARAMREF ∨ k = .X .PARAMARRAY ∨ k = .X .PARAMREFARRAY := by
  simp [isParam]

theorem param_starts : ∀ p : Tree.Param, ∃ x xs, p.yield = x :: xs ∧ isParam (kind x)
  | .param _ _ | .paramRef _ _ | .paramArray _ _ | .paramRefArray _ _ => ⟨_, _, rfl, rfl⟩

variable {n : ℕ}

theorem parameterOf_reads (tag : Tag) {e₁ e₂ : String} :
    Reads .any .fresh (parameterOf tag e₁ e₂) n never
      (fun t : ParamTree tag => Tree.tagged tag t.1 (Tree.Qualifier.yields t.2))
      (fun _ su => .ok su) := by
  have hq : Reads .any .any (qualifiers instance_ fun _ (p : XtokParam) => p) n _ _ _ :=
    qualifiers_reads instance_reads (fun p _ => p) (fun _ => rfl) (fun _ _ _ => rfl)
  have he : Reads .any .fresh (parameterOf tag e₁ e₂) (n + 1) never _ _ :=
    Reads.element (opens tag) (closes tag) (fun _ => rfl) (by simp) hq.fresh
  exact (he.map id (fun _ => ⟨_, rfl⟩) (fun _ => rfl) fun _ => rfl).mono n.le_succ

theorem parameter_item (tag : Tag) {e₁ e₂ : String} :
    Guarded (· = Kind.X tag) (focus (fun _ : Unit => {}) (fun _ u => u) (parameterOf tag e₁ e₂)) n
      (fun t : ParamTree tag => Tree.tagged tag t.1 (Tree.Qualifier.yields t.2))
      (fun _ u => .ok u) :=
  guarded_focus tag (parameterOf_reads tag) (fun _ => ⟨_, _, rfl⟩) fun _ _ => rfl

theorem methodData_reads : Reads .ahead .fresh methodData n never Tree.Param.yield
    (fun _ u => .ok u) := by
  have ha : Reads .ahead .fresh methodData n never _ _ := Arms.toReads <|
    .arm (.guarded <| parameter_item .PARAM)
      (.arm (.guarded <| parameter_item .PARAMREF)
        (.arm (.guarded <| parameter_item .PARAMARRAY) (.last (.guarded <| parameter_item .PARAMREFARRAY)) (by simp))
        (by simp))
      (by simp)
  refine ha.map paramArms (fun {t} _ _ _ => ?_) (fun t => by cases t <;> rfl) fun t => by cases t <;> rfl
  rcases t with ⟨a, qs⟩ | ⟨a, qs⟩ | ⟨a, qs⟩ | ⟨a, qs⟩
  exacts [⟨.param a qs, rfl⟩, ⟨.paramRef a qs, rfl⟩, ⟨.paramArray a qs, rfl⟩,
    ⟨.paramRefArray a qs, rfl⟩]

-- The parameter itself is what its opening token was lexed into.
theorem param_item : Guarded isParam
    (focus (fun _ => ()) (fun _ p => (p.1.addParam p.2.xtokParam, p.2)) methodData) n Tree.Param.yield
    (fun t (p : XtokMethod × ParseUnion) => .ok (p.1.addParam t.xtok, .param t.xtok)) := by
  have hg := (methodData_reads (n := n)).guarded_ahead isParam param_starts
  refine Guarded.map (hg.focus fun _ _ _ => rfl) id (fun _ => ⟨_, rfl⟩) (fun _ => rfl) fun t => ?_
  cases t <;> rfl

theorem method_reads : Reads .any .fresh method n never Tree.Method.yield
    (fills Tree.Method.xtok) := by
  have hi : Reads .any .fresh instance_ n never _ _ := instance_reads
  have hq : Reads _ _ (qualifiers instance_ XtokMethod.addQualifier) n _ _ _ := qualifiers_reads hi
    (fun m qs => { m with qualifiers := m.qualifiers ++ qs }) (fun ⟨_, _, _, _, _, _⟩ => by simp)
    (by simp [XtokMethod.addQualifier])
  have hp : Guarded isParam _ n _ _ := param_item
  have hc := hq.seq hp.many_ok (hp.clear_many fun k hk => by
    rcases isParam_iff.mp hk with rfl | rfl | rfl | rfl <;> rfl)
  refine reads_element .METHOD (fun m : Tree.Method => (m.attr, m.qualifiers, m.params)) hc.fresh
    (fun a t => ⟨⟨a, t.1, t.2⟩, rfl⟩) (fun _ => rfl) (fun m su => ?_) (fun _ => rfl) (by decide) n.le_succ
  have hf (s : XtokMethod) : m.params.foldl (fun m p => m.addParam p.xtok) s =
      { s with params := s.params ++ m.params.map Tree.Param.xtok } :=
    foldl_add (fun m p => m.addParam p) _
      (fun (m : XtokMethod) ps => { m with params := m.params ++ ps })
      (fun ⟨_, _, _, _, _, _⟩ => by simp) (by simp [XtokMethod.addParam]) m.params s
  exact (foldl_fst (fun m p => m.addParam p.xtok) fun _ _ => rfl).trans (hf _)

theorem class_reads : Reads .any .fresh class_ n never Tree.Class.yield
    (fills Tree.Class.xtok) := by
  have hi : Reads .any .fresh instance_ n never _ _ := instance_reads
  have hq : Reads _ _ (qualifiers instance_ XtokClass.addQualifier) n _ _ _ := qualifiers_reads hi
    (fun c qs => { c with qualifiers := c.qualifiers ++ qs }) (fun ⟨_, _, _, _, _⟩ => by simp)
    (by simp [XtokClass.addQualifier])
  have hp : Reads _ _ (properties instance_ XtokClass.addProperty) n _ _ _ := properties_reads hi
    (fun c ps => { c with properties := c.properties ++ ps }) (fun ⟨_, _, _, _, _⟩ => by simp)
    (by simp [XtokClass.addProperty])
  have hm : Guarded _ (focus (fun p : XtokClass × ParseUnion => p.2.xtokMethod)
      (fun m p => (p.1.addMethod m, .method m)) method) n _ _ :=
    guarded_focus .METHOD method_reads (fun _ => ⟨_, _, rfl⟩) fun _ _ => rfl
  have hpm := hp.seq hm.many_ok (hm.clear_many (by simp [isProperty]))
  have hc := hq.seq hpm (Clear.append (properties_clear hi) (hm.clear_many (by simp)))
  refine reads_element .CLASS (fun c : Tree.Class => (c.attr, c.qualifiers, c.properties, c.methods))
    hc.fresh (fun a t => ⟨⟨a, t.1, t.2.1, t.2.2⟩, rfl⟩) (fun _ => rfl) (fun c su => ?_) (fun _ => rfl)
    (by decide) n.le_succ
  have hf (s : XtokClass) : c.methods.foldl (fun c m => c.addMethod m.xtok) s =
      { s with methods := s.methods ++ c.methods.map Tree.Method.xtok } :=
    foldl_add (fun c m => c.addMethod m) _
      (fun (c : XtokClass) ms => { c with methods := c.methods ++ ms })
      (fun ⟨_, _, _, _, _⟩ => by simp) (by simp [XtokClass.addMethod]) c.methods s
  exact (foldl_fst (fun c m => c.addMethod m.xtok) fun _ _ => rfl).trans (hf _)

end Grammar
end Sfcc.Xml
