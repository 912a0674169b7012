import Sfcc.Theorems.Xml.Class
import Sfcc.Xml.ResponseTree

open Descent

namespace Sfcc.Xml.Grammar

variable {n : ℕ} {req : Request}

theorem classPath_reads : Reads .any .fresh classPath n never
    (fun t : Tree.NameSpacePath × Option Text =>
      Tree.tagged .CLASSPATH () (t.1.yield ++ Tree.tagged .CLASSNAME t.2 []))
    (fills fun t => { name := t.1.xtok, className := { value := t.2 } }) :=
  have hc := (Reads.focus nameSpacePath_reads).seq (Reads.focus className_reads) fun _ _ _ => rfl
  reads_element .CLASSPATH (fun t => ((), t)) hc.weaken (fun _ t => ⟨t, rfl⟩) (fun _ => rfl)
    (fun _ _ => rfl) (fun _ => rfl) rfl n.le_succ

theorem objectPath_reads : Reads .any .fresh objectPath n never
    (fun t : Tree.NameSpacePath × Tree.InstanceName =>
      Tree.tagged .OBJECTPATH () (Tree.tagged .INSTANCEPATH () (t.1.yield ++ t.2.yield)))
    (fills fun t => { path := { path := t.1.xtok, instanceName := t.2.xtok } }) :=
  have hc := Reads.focus (instancePath_reads instanceName_reads)
  reads_element .OBJECTPATH (fun t => ((), t)) hc.weaken (fun _ t => ⟨t, rfl⟩) (fun _ => rfl)
    (fun _ _ => rfl) (fun _ => rfl) rfl n.le_succ

theorem valueRefArray_reads : Reads .any .fresh valueRefArray n never
    (fun rs : List Tree.Reference => Tree.tagged .VALUEREFARRAY () (rs.flatMap Tree.Reference.yield))
    (fills fun rs => .ofList (rs.map Tree.Reference.xtok)) := by
  refine reads_element .VALUEREFARRAY ((), ·) (Reads.fresh <| Guarded.many_ok <|
    guarded_focus .VALUEREFERENCE (valueReference_reads instanceName_reads) (fun _ => ⟨_, _, rfl⟩)
      fun _ _ => rfl) (fun _ rs => ⟨rs, rfl⟩) (fun _ => rfl) (fun rs su => ?_) (fun _ => rfl) rfl
    n.le_succ
  have hf : rs.foldl (fun a r => a.add r.xtok) { max := 16 } =
      XtokValueRefArray.ofList (rs.map Tree.Reference.xtok) := by
    rw [XtokValueRefArray.ofList, List.foldl_map]
  exact (foldl_fst (fun a r => a.add r.xtok) fun _ _ => rfl).trans hf

theorem valueNamedInstance_reads : Reads .any .fresh valueNamedInstance n never
    (fun t : Tree.InstanceName × Tree.Instance =>
      Tree.tagged .VALUENAMEDINSTANCE () (t.1.yield ++ t.2.yield))
    (fills fun t => { path := t.1.xtok, instance_ := t.2.xtok }) :=
  have hc := (Reads.focus instanceName_reads).seq (Reads.focus instance_reads) fun _ _ _ => rfl
  reads_element .VALUENAMEDINSTANCE (fun t => ((), t)) hc.weaken (fun _ t => ⟨t, rfl⟩)
    (fun _ => rfl) (fun _ _ => rfl) (fun _ => rfl) rfl n.le_succ

theorem map_bind {α β γ : Type} (x : Except Fault α) (f : α → β) (g : β → γ) :
    (x >>= fun a => return g (f a)) = Except.map g (x >>= fun a => return f a) := by
  cases x <;> rfl

theorem error_reads : Reads .any .fresh error n never (Tree.tagged .ERROR · [])
    (fun e (p : ResponseHdr × XtokErrorResp) => (p.1.setError e).map (·, e)) := by
  have hc : Reads .fresh .fresh (act (fun p : (ResponseHdr × XtokErrorResp) × Unit => do
      return ((← p.1.1.setError p.1.2, p.1.2), p.2)) : Production _) n never (fun _ : Unit => []) _ :=
    Reads.act fun t p => map_bind _ (fun hdr => ((hdr, p.1.2), p.2)) (store t)
  exact reads_element_out .ERROR (·, ()) hc.weaken (fun a _ => ⟨a, rfl⟩) (fun _ => rfl)
    (fun e p => map_bind _ (fun hdr => ((hdr, e), ())) Prod.fst) (fun _ => rfl) rfl n.le_succ

-- What a production that begins with zeroed data leaves, and what it leaves otherwise.

theorem returnValueData_reads : Reads .any .fresh returnValueData n never
    (Sum.elim Tree.Value.yield Tree.Reference.yield)
    (fun t d => .ok (Sum.elim (fun v => { d with u := .value v.xtok })
      (fun r => { u := .ref r.xtok, type := .ref }) t)) := by
  have ha : Reads .any .fresh returnValueData n never _ _ := Reads.choice <| Arms.toReads <|
    .arm (.guarded <| guarded_focus .VALUE (value_reads instance_reads) value_tagged fun _ _ => rfl)
      (.last (.guarded <| guarded_focus .VALUEREFERENCE (valueReference_reads instanceName_reads)
        (fun _ => ⟨_, _, rfl⟩) fun _ _ => rfl))
      (by simp)
  refine ha.map id (fun _ => ⟨_, rfl⟩) (fun t => by cases t <;> rfl) fun t => ?_
  cases t
  case inl v => cases v <;> rfl
  case inr r => rfl

def returnParts : Tree.ReturnValue → CMPIType × (Tree.Value ⊕ Tree.Reference)
  | .value type v       => (type, .inl v)
  | .reference type ref => (type, .inr ref)

-- The type in the data is left alone by a `VALUE`.
def returnFilled (ret : XtokReturnValue) : Tree.ReturnValue → XtokReturnValue
  | .value type v       => { data := { ret.data with u := .value v.xtok }, type := type }
  | .reference type ref => { data := { u := .ref ref.xtok, type := .ref }, type := type }

theorem returnValue_tagged : ∀ r : Tree.ReturnValue, ∃ a c, r.yield = Tree.tagged .RETVALUE a c
  | .value _ _ | .reference _ _ => ⟨_, _, rfl⟩

theorem returnValue_reads : Reads .any .fresh (returnValue req) n never Tree.ReturnValue.yield
    (fun t p => addResult (returned req) (p.1, returnFilled p.2 t)) := by
  have hc : Reads .fresh .fresh (act (fun p : (ResponseHdr × XtokReturnValue) × Unit => do
      return (← addResult (returned req) p.1, p.2)) : Production _) n never (fun _ : Unit => []) _ :=
    Reads.act fun t p => map_bind _ (fun s => (s, p.2)) (store t)
  refine reads_element_out .RETVALUE (fun t => ((returnParts t).1, (returnParts t).2, ()))
    ((Reads.focus returnValueData_reads).seq hc fun _ _ _ => rfl).weaken ?_ ?_ ?_ (fun _ => rfl) rfl
    n.le_succ
  · intro type t
    have ⟨t, ⟨⟩⟩ := t
    cases t
    case inl v => exact ⟨.value type v, rfl⟩
    case inr r => exact ⟨.reference type r, rfl⟩
  · intro t
    cases t <;> simp [Tree.ReturnValue.yield, returnParts]
  · intro t p
    cases t <;> exact (bind_pure _).symm.trans (map_bind _ (fun s => (s, ())) Prod.fst)

abbrev ParamChild :=
  Tree.Value ⊕ Tree.Reference ⊕ List Tree.Value ⊕ List Tree.Reference

def paramParts : Tree.ParamValue → ParamValueAttr × Option ParamChild
  | .empty a         => (a, none)
  | .value a v       => (a, some (.inl v))
  | .reference a ref => (a, some (.inr (.inl ref)))
  | .array a vs      => (a, some (.inr (.inr (.inl vs))))
  | .refArray a refs => (a, some (.inr (.inr (.inr refs))))

def childYield : ParamChild → List Tok :=
  Sum.elim Tree.Value.yield <| Sum.elim Tree.Reference.yield <|
    Sum.elim (fun vs => Tree.tagged .VALUEARRAY () (Tree.Value.yields vs))
      fun refs => Tree.tagged .VALUEREFARRAY () (refs.flatMap Tree.Reference.yield)

-- The type is that of the data before, but for instances and references.
def childData (d : XtokParamValueData) : ParamChild → XtokParamValueData :=
  Sum.elim (fun v => { u := .value v.xtok, type := if v.xtok.type = .Instance then .inst else d.type }) <|
    Sum.elim (fun ref => { u := .valueRef ref.xtok, type := .ref }) <|
      Sum.elim
        (fun vs => { u := .valueArray (.ofList (Tree.Value.pointers vs)), type := d.type ||| .array })
        fun refs => { u := .valueRefArray (.ofList (refs.map Tree.Reference.xtok)), type := .refA }

theorem paramValueData_reads : Reads .any .fresh paramValueData n never childYield
    (fun t d => .ok (childData d t)) := by
  have ha : Reads .any .fresh paramValueData n never _ _ := Reads.choice <| Arms.toReads <|
    .arm (.guarded <| guarded_focus .VALUE (value_reads instance_reads) value_tagged fun _ _ => rfl)
      (.arm (.guarded <| guarded_focus .VALUEREFERENCE (valueReference_reads instanceName_reads)
          (fun _ => ⟨_, _, rfl⟩) fun _ _ => rfl)
        (.arm (.guarded <| guarded_focus .VALUEARRAY (valueArray_reads instance_reads)
            (fun _ => ⟨_, _, rfl⟩) fun _ _ => rfl)
          (.last (.guarded <| guarded_focus .VALUEREFARRAY valueRefArray_reads
            (fun _ => ⟨_, _, rfl⟩) fun _ _ => rfl))
          (by simp))
        (by simp))
      (by simp)
  refine ha.map id (fun _ => ⟨_, rfl⟩) (fun t => ?_) fun t => ?_
  · match t with
    | .inl _ | .inr (.inl _) | .inr (.inr (.inl _)) | .inr (.inr (.inr _)) => rfl
  · match t with
    | .inl (.text _) | .inl (.cdata _ _) => rfl
    | .inr (.inl _) | .inr (.inr (.inl _)) | .inr (.inr (.inr _)) => rfl

def isParamChild : Kind → Bool :=
  (· ∈ [.X .VALUE, .X .VALUEREFERENCE, .X .VALUEARRAY, .X .VALUEREFARRAY])

theorem paramChild_starts : ∀ t : ParamChild, ∃ x xs, childYield t = x :: xs ∧ isParamChild (kind x)
  | .inl (.text _) | .inl (.cdata _ _) => ⟨_, _, rfl, rfl⟩
  | .inr (.inl _) | .inr (.inr (.inl _)) | .inr (.inr (.inr _)) => ⟨_, _, rfl, rfl⟩

theorem paramValue_reads : Reads .any .fresh paramValue n never Tree.ParamValue.yield
    (fun t p => .ok (t.xtok p.data)) := by
  have hd : Guarded isParamChild
      (focus (·.2) (fun d p => (p.1.setData d, d)) paramValueData : Production (XtokParamValue × _)) n _ _ :=
    (Reads.guarded _ paramValueData_reads paramChild_starts).focus fun x p hx => rfl
  refine reads_element_out .PARAMVALUE paramParts hd.optional_ok.fresh ?_ ?_ ?_ (fun _ => rfl) rfl
    n.le_succ
  · intro a t
    match t with
    | none                         => exact ⟨.empty a, rfl⟩
    | some (.inl v)                => exact ⟨.value a v, rfl⟩
    | some (.inr (.inl ref))       => exact ⟨.reference a ref, rfl⟩
    | some (.inr (.inr (.inl vs))) => exact ⟨.array a vs, rfl⟩
    | some (.inr (.inr (.inr rs))) => exact ⟨.refArray a rs, rfl⟩
  · intro t
    cases t <;> rfl
  · intro t p
    match t with
    | .value _ (.text _) | .value _ (.cdata _ _) => rfl
    | .empty _ | .reference _ _ | .refArray _ _ => rfl
    | .array a vs =>
      have hd : (CMPIType.null ||| CMPIType.array : CMPIType) = CMPIType.array := rfl
      have hc : childData {} (.inr (.inr (.inl vs))) =
          { u := .valueArray (.ofList (Tree.Value.pointers vs)), type := .array } := by
        simp only [childData, Sum.elim_inr, Sum.elim_inl, hd]
      exact congrArg (fun d => Except.ok ((store (Tok.X .PARAMVALUE a) p).setData d)) hc.symm

abbrev ClassTree :=
  (Tree.NameSpacePath × Option Text) × Tree.Class

abbrev InstanceTree :=
  (Tree.NameSpacePath × Tree.InstanceName) × Tree.Instance

def classTreeYield (t : ClassTree) : List Tok :=
  Tree.tagged .CLASSPATH () (t.1.1.yield ++ Tree.tagged .CLASSNAME t.1.2 []) ++ t.2.yield

def instanceTreeYield (t : InstanceTree) : List Tok :=
  Tree.tagged .INSTANCEPATH () (t.1.1.yield ++ t.1.2.yield) ++ t.2.yield

def instanceTreeXtok (t : InstanceTree) : XtokInstanceWithPath where
  path := { path := t.1.1.xtok, instanceName := t.1.2.xtok }
  inst := t.2.xtok

theorem classWithPath_reads : Reads .any .fresh classWithPath n never classTreeYield
    (fills fun t => {
      path := { name := t.1.1.xtok, className := { value := t.1.2 } }
      cls  := t.2.xtok }) := by
  have ha : Reads .any .fresh classWithPath n never _ _ := Reads.choice <| Arms.toReads <|
    .last <| Guarded.seq (guarded_focus .CLASSPATH classPath_reads (fun _ => ⟨_, _, rfl⟩) fun _ _ => rfl)
      (Reads.focus class_reads)
  exact ha.map id (fun _ => ⟨_, rfl⟩) (fun _ => rfl) fun _ => rfl

theorem instanceWithPath_reads : Reads .any .fresh instanceWithPath n never instanceTreeYield
    (fills instanceTreeXtok) := by
  have ha : Reads .any .fresh instanceWithPath n never _ _ := Reads.choice <| Arms.toReads <|
    .last <| Guarded.seq (guarded_focus .INSTANCEPATH (instancePath_reads instanceName_reads)
      (fun _ => ⟨_, _, rfl⟩) fun _ _ => rfl) (Reads.focus instance_reads)
  exact ha.map id (fun _ => ⟨_, rfl⟩) (fun _ => rfl) fun _ => rfl

def objectArms : Tree.ObjectWithPath → ClassTree ⊕ InstanceTree
  | .cls path className c => .inl ((path, className), c)
  | .inst path name i     => .inr ((path, name), i)

def objectData : Tree.ObjectWithPath → XtokObjectWithPathData
  | .cls path className c => {
      u    := .cls { path := { name := path.xtok, className := { value := className } }, cls := c.xtok }
      type := 1 }
  | .inst path name i     => { u := .inst (instanceTreeXtok ((path, name), i)), type := 0 }

def objectContent (o : Tree.ObjectWithPath) : List Tok :=
  Sum.elim classTreeYield instanceTreeYield (objectArms o)

theorem valueObjectWithPathData_reads : Reads .any .fresh valueObjectWithPathData n never objectContent
    (fun o p => do return (← o.result p.1, objectData o)) := by
  have hc : Guarded (· = Kind.X .CLASSPATH) classWithPath n _ _ :=
    Reads.guarded _ classWithPath_reads fun _ => ⟨_, _, rfl, rfl⟩
  have hi : Guarded (· = Kind.X .INSTANCEPATH) instanceWithPath n _ _ :=
    Reads.guarded _ instanceWithPath_reads fun _ => ⟨_, _, rfl, rfl⟩
  have ha : Reads .any .fresh valueObjectWithPathData n never _ _ := Reads.choice <| Arms.toReads <|
    .arm (.guarded <| hc.focus fun _ _ _ => rfl)
      (.last <| .guarded <| Guarded.act <| hi.focus fun _ _ _ => rfl) (by simp)
  refine ha.map objectArms (fun {t} _ _ _ => ?_) (fun _ => rfl) fun o => ?_
  · match t with
    | .inl ((path, className), c) => exact ⟨.cls path className c, rfl⟩
    | .inr ((path, name), i)      => exact ⟨.inst path name i, rfl⟩
  · cases o
    case cls => rfl
    case inst path name i =>
      funext p
      exact bind_assoc (instanceWithPathResult (instanceTreeXtok ((path, name), i))) _ _

theorem valueObjectWithPath_reads : Reads .any .fresh valueObjectWithPath n never
    Tree.ObjectWithPath.yield
    (fun o p => do
      return (← o.result p.1, { object := objectData o, type := (objectData o).type })) := by
  refine reads_element_out .VALUEOBJECTWITHPATH (fun o => ((), o))
    (Reads.focus valueObjectWithPathData_reads).weaken (fun _ o => ⟨o, rfl⟩) ?_ ?_ (fun _ => rfl) rfl
    n.le_succ
  · intro o
    cases o <;> rfl
  · intro o p
    cases h : o.result p.1 <;>
      simp [store, h, bind, Except.bind, Except.map, pure, Except.pure]

section Results

variable {σ T : Type} [Store Tok σ] {p : Production σ} {yield : T → List Tok} {xtok : T → σ} {tag : Tag}
variable {get : ParseUnion → σ} {set : σ → ParseUnion}
variable {result : σ → Except Fault (CMPIValue × CMPIType)}

theorem result_item (h : Reads .any .fresh p n never yield (fills xtok))
    (hy : ∀ t, ∃ a c, yield t = Tree.tagged tag a c)
    (hget : ∀ a u, get (store (Tok.X tag a) u) = store (Tok.X tag a) (get u))
    (hset : ∀ x, get (set x) = x) :
    Guarded (· = Kind.X tag) (fun su => do
        let su ← focus (fun su => get su.2) (fun x su => (su.1, set x)) p su
        act (addResult fun u => result (get u)) su) n yield
      (fun t (su : ResponseHdr × ParseUnion) => do
        return (su.1.simpleArrayAdd (← result (xtok t)), set (xtok t))) := by
  have hg : Guarded (· = Kind.X tag) (focus (fun su : ResponseHdr × ParseUnion => get su.2)
      (fun x su => (su.1, set x)) p) n _ _ :=
    guarded_focus tag h hy fun a su => hget a su.2
  refine hg.act.map id (fun _ => ⟨_, rfl⟩) (fun _ => rfl) fun t => funext fun su => ?_
  show _ = addResult (fun u => result (get u)) (su.1, set (xtok t))
  rw [addResult, hset]

theorem results_opened (h : Reads .any .fresh p n never yield (fills xtok))
    (hy : ∀ t, ∃ a c, yield t = Tree.tagged tag a c)
    (hget : ∀ a u, get (store (Tok.X tag a) u) = store (Tok.X tag a) (get u))
    (hset : ∀ x, get (set x) = x) :
    Opened .any (· = Kind.X tag) (results tag get set p result) n (· ≠ Kind.Z .IRETVALUE)
      (fun l : T × List T => (l.1 :: l.2).flatMap yield)
      (fun l su => (l.1 :: l.2).foldlM (fun su t => do
        return (su.1.simpleArrayAdd (← result (xtok t)), set (xtok t))) su) :=
  (result_item h hy hget hset).loop.mono fun k hk => by simp_all

-- What the loop leaves in the local union does not matter for the results.
theorem foldlM_fst {f : ResponseHdr → T → Except Fault ResponseHdr}
    {g : ResponseHdr × ParseUnion → T → Except Fault (ResponseHdr × ParseUnion)}
    (hg : ∀ su t, (g su t).map Prod.fst = f su.1 t) (l : List T) (su : ResponseHdr × ParseUnion) :
    (l.foldlM g su).map Prod.fst = l.foldlM f su.1 := by
  induction l generalizing su with
  | nil         => rfl
  | cons t l hi =>
    rw [List.foldlM_cons, List.foldlM_cons, ← hg]
    cases g su t with
    | error e => rfl
    | ok su'  => exact hi su'

end Results

abbrev PropertyValueTree :=
  Tree.Value ⊕ List Tree.Value ⊕ Tree.Reference

def isPropertyValue : Kind → Bool :=
  (· ∈ [.X .VALUE, .X .VALUEARRAY, .X .VALUEREFERENCE])

def propertyValueYield : PropertyValueTree → List Tok :=
  Sum.elim Tree.Value.yield <|
    Sum.elim (fun vs => Tree.tagged .VALUEARRAY () (Tree.Value.yields vs)) Tree.Reference.yield

theorem propertyValue_starts :
    ∀ t : PropertyValueTree, ∃ x xs, propertyValueYield t = x :: xs ∧ isPropertyValue (kind x)
  | .inl (.text _) | .inl (.cdata _ _) | .inr (.inl _) | .inr (.inr _) => ⟨_, _, rfl, rfl⟩

-- An array and a reference are dropped.
def propertyValueOut (req : Request) (t : PropertyValueTree) (su : ResponseHdr × ParseUnion) :
    Except Fault (ResponseHdr × ParseUnion) :=
  match t with
  | .inl v        => do return (su.1.simpleArrayAdd (← propertyResult req v.xtok), .value v.xtok)
  | .inr (.inl vs) => return (su.1, .valueArray (.ofList (Tree.Value.pointers vs)))
  | .inr (.inr r)  => return (su.1, .valueReference r.xtok)

theorem getPropertyRetValue_reads : Reads .any .fresh (getPropertyRetValue req) n never
    propertyValueYield (propertyValueOut req) := by
  have ha : Reads .any .fresh (getPropertyRetValue req) n never _ _ := Reads.choice <| Arms.toReads <|
    .arm (.guarded <| Guarded.act <| guarded_focus .VALUE (value_reads instance_reads) value_tagged
        fun a p => xtokValue_store a p.2)
      (.arm (.guarded <| guarded_focus .VALUEARRAY (valueArray_reads instance_reads)
          (fun _ => ⟨_, _, rfl⟩) fun a p => xtokValueArray_store a p.2)
        (.last <| .guarded <| guarded_focus .VALUEREFERENCE (valueReference_reads instanceName_reads)
          (fun _ => ⟨_, _, rfl⟩) fun _ _ => rfl)
        (by simp))
      (by simp)
  refine ha.map id (fun _ => ⟨_, rfl⟩) (fun t => ?_) fun t => ?_
  · match t with
    | .inl _ | .inr (.inl _) | .inr (.inr _) => rfl
  · match t with
    | .inl _ | .inr (.inl _) | .inr (.inr _) => rfl

theorem object_item : Guarded (· = Kind.X .VALUEOBJECTWITHPATH)
    (focus (fun p => (p.1, p.2.xtokObjectWithPath)) (fun d _ => (d.1, .objectWithPath d.2))
      valueObjectWithPath) n Tree.ObjectWithPath.yield
    (fun o (su : ResponseHdr × ParseUnion) => (do
      return (← o.result su.1, { object := objectData o, type := (objectData o).type }) :
        Except Fault (ResponseHdr × XtokObjectWithPath)).map fun d => (d.1, .objectWithPath d.2)) :=
  have hy : ∀ o : Tree.ObjectWithPath, ∃ a c, o.yield = Tree.tagged .VALUEOBJECTWITHPATH a c
    | .cls _ _ _ | .inst _ _ _ => ⟨_, _, rfl⟩
  guarded_focus .VALUEOBJECTWITHPATH valueObjectWithPath_reads hy fun _ _ => rfl

-- A loop is entered for a list that is not empty.
abbrev Passes (T : Type) :=
  T × List T

abbrev ReturnTree :=
  Passes Tree.Class ⊕ Passes (Option Text) ⊕ Passes Tree.Instance ⊕ Passes Tree.InstanceName ⊕
    Passes (Tree.InstanceName × Tree.Instance) ⊕ Passes (Tree.NameSpacePath × Tree.InstanceName) ⊕
    Passes Tree.ObjectWithPath ⊕ PropertyValueTree ⊕ Unit

def returnArms : Tree.ReturnContent → ReturnTree
  | .classes (t :: l)         => .inl (t, l)
  | .classNames (t :: l)      => .inr (.inl (t, l))
  | .instances (t :: l)       => .inr (.inr (.inl (t, l)))
  | .instanceNames (t :: l)   => .inr (.inr (.inr (.inl (t, l))))
  | .namedInstances (t :: l)  => .inr (.inr (.inr (.inr (.inl (t, l)))))
  | .objectPaths (t :: l)     => .inr (.inr (.inr (.inr (.inr (.inl (t, l))))))
  | .objectsWithPath (t :: l) => .inr (.inr (.inr (.inr (.inr (.inr (.inl (t, l)))))))
  | .value v                  => .inr (.inr (.inr (.inr (.inr (.inr (.inr (.inl (.inl v))))))))
  | .valueArray vs            => .inr (.inr (.inr (.inr (.inr (.inr (.inr (.inl (.inr (.inl vs)))))))))
  | .valueReference r         => .inr (.inr (.inr (.inr (.inr (.inr (.inr (.inl (.inr (.inr r)))))))))
  | _                         => .inr (.inr (.inr (.inr (.inr (.inr (.inr (.inr ())))))))

theorem returnArms_surjective (t : ReturnTree) : ∃ c, returnArms c = t := by
  match t with
  | .inl (t, l)                                                   => exact ⟨.classes (t :: l), rfl⟩
  | .inr (.inl (t, l))                                            => exact ⟨.classNames (t :: l), rfl⟩
  | .inr (.inr (.inl (t, l)))                                     => exact ⟨.instances (t :: l), rfl⟩
  | .inr (.inr (.inr (.inl (t, l))))                              => exact ⟨.instanceNames (t :: l), rfl⟩
  | .inr (.inr (.inr (.inr (.inl (t, l)))))                       => exact ⟨.namedInstances (t :: l), rfl⟩
  | .inr (.inr (.inr (.inr (.inr (.inl (t, l))))))                => exact ⟨.objectPaths (t :: l), rfl⟩
  | .inr (.inr (.inr (.inr (.inr (.inr (.inl (t, l)))))))         => exact ⟨.objectsWithPath (t :: l), rfl⟩
  | .inr (.inr (.inr (.inr (.inr (.inr (.inr (.inl (.inl v))))))))        => exact ⟨.value v, rfl⟩
  | .inr (.inr (.inr (.inr (.inr (.inr (.inr (.inl (.inr (.inl vs))))))))) => exact ⟨.valueArray vs, rfl⟩
  | .inr (.inr (.inr (.inr (.inr (.inr (.inr (.inl (.inr (.inr r)))))))))  => exact ⟨.valueReference r, rfl⟩
  | .inr (.inr (.inr (.inr (.inr (.inr (.inr (.inr ()))))))) => exact ⟨.classes [], rfl⟩

theorem add_fst {T : Type} (f : T → Except Fault (CMPIValue × CMPIType)) (g : T → ParseUnion)
    (l : List T) (su : ResponseHdr × ParseUnion) :
    (l.foldlM (fun (su : ResponseHdr × ParseUnion) t => do
      return (su.1.simpleArrayAdd (← f t), g t)) su).map Prod.fst = Tree.ReturnContent.add f su.1 l :=
  foldlM_fst (fun su t => (map_bind _ (fun v => (su.1.simpleArrayAdd v, g t)) Prod.fst).symm) l su

theorem objects_fst (l : List Tree.ObjectWithPath) (su : ResponseHdr × ParseUnion) :
    (l.foldlM (fun su o => (do
      return (← o.result su.1, { object := objectData o, type := (objectData o).type }) :
        Except Fault (ResponseHdr × XtokObjectWithPath)).map fun d => (d.1, .objectWithPath d.2))
      su).map Prod.fst = l.foldlM Tree.ObjectWithPath.result su.1 := by
  refine foldlM_fst (fun su o => ?_) l su
  cases o.result su.1 <;> rfl

theorem iReturnValue_reads : Reads .any .fresh (iReturnValue req) n never
    (fun c : Tree.ReturnContent => Tree.tagged .IRETVALUE () c.yield) (fun c hdr => c.result req hdr) := by
  have ha : Reads .any .any (iReturnValueContent req) n (· ≠ Kind.Z .IRETVALUE) _ _ :=
    Reads.choice <| Arms.toReads <|
    .arm (results_opened class_reads (fun _ => ⟨_, _, rfl⟩) (fun _ _ => rfl) fun _ => rfl)
      (.arm (results_opened className_reads (fun _ => ⟨_, _, rfl⟩) (fun _ _ => rfl) fun _ => rfl)
        (.arm (results_opened instance_reads (fun i => by cases i; exact ⟨_, _, rfl⟩) (fun _ _ => rfl) fun _ => rfl)
          (.arm (results_opened instanceName_reads (fun n => by cases n; exact ⟨_, _, rfl⟩) (fun _ _ => rfl)
              fun _ => rfl)
            (.arm (results_opened valueNamedInstance_reads (fun _ => ⟨_, _, rfl⟩) (fun _ _ => rfl)
                fun _ => rfl)
              (.arm (results_opened objectPath_reads (fun _ => ⟨_, _, rfl⟩) (fun _ _ => rfl)
                  fun _ => rfl)
                (.arm (Opened.mono (Guarded.loop object_item) fun k hk => by simp_all)
                  (.arm (Opened.weaken <| .guarded <|
                      Reads.guarded isPropertyValue getPropertyRetValue_reads propertyValue_starts)
                    (.last <| (Opened.stay (· = Kind.Z .IRETVALUE)).mono fun k hk => by simp_all)
                    (by simp))
                  (by grind))
                (by grind))
              (by grind))
            (by grind))
          (by grind))
        (by grind))
      (by grind)
  refine reads_element_out .IRETVALUE (fun c => ((), returnArms c)) ha.fresh
    (fun _ t => (returnArms_surjective t).imp fun _ ht => congrArg _ ht)
    (fun c => ?_) (fun c hdr => ?_) (fun _ => rfl) (by simp) n.le_succ
  · cases c with
    | classes l | classNames l | instances l | instanceNames l | namedInstances l | objectPaths l | objectsWithPath l =>
      cases l <;> rfl
    | value | valueArray | valueReference => rfl
  · cases c with
    | value v                     => exact map_bind _ (fun r => (hdr.simpleArrayAdd r, ParseUnion.value v.xtok)) Prod.fst
    | valueArray | valueReference => rfl
    | classes l                   =>
      cases l with
      | nil      => rfl
      | cons _ _ => exact (add_fst _ (fun c : Tree.Class => .cls c.xtok) _ (hdr, .zero)).symm
    | classNames l                =>
      cases l with
      | nil      => rfl
      | cons _ _ => exact (add_fst _ (fun name => .className ⟨name⟩) _ (hdr, .zero)).symm
    | instances l                 =>
      cases l with
      | nil      => rfl
      | cons _ _ => exact (add_fst _ (fun i : Tree.Instance => .inst i.xtok) _ (hdr, .zero)).symm
    | instanceNames l             =>
      cases l with
      | nil      => rfl
      | cons _ _ => exact (add_fst _ (fun n : Tree.InstanceName => .instanceName n.xtok) _ (hdr, .zero)).symm
    | namedInstances l            =>
      cases l with
      | nil      => rfl
      | cons _ _ =>
        exact (add_fst _ (fun t : Tree.InstanceName × Tree.Instance => .namedInstance ⟨t.1.xtok, t.2.xtok⟩) _ (hdr, .zero)).symm
    | objectPaths l               =>
      cases l with
      | nil      => rfl
      | cons _ _ =>
        exact (add_fst _ (fun t : Tree.NameSpacePath × Tree.InstanceName => .objectPath ⟨⟨t.1.xtok, t.2.xtok⟩⟩) _ (hdr, .zero)).symm
    | objectsWithPath l           =>
      cases l with
      | nil      => rfl
      | cons _ _ => exact (objects_fst _ (hdr, .zero)).symm

theorem error_tagged (e : XtokErrorResp) :
    ∃ a c, Tree.tagged .ERROR e [] = Tree.tagged .ERROR a c :=
  ⟨_, _, rfl⟩

def iMethodArms : Tree.IMethodContent → XtokErrorResp ⊕ Tree.ReturnContent
  | .error e   => .inl e
  | .content c => .inr c

theorem iMethodResp_reads {e₁ e₂ : String} :
    Reads .any .fresh (withLocal .IMETHODRESP e₁ e₂ (iMethodRespContent req)) n never
      (fun c : Tree.IMethodContent => Tree.tagged .IMETHODRESP () c.yield)
      (fun c hdr => c.result req hdr) := by
  have ha : Reads .any .fresh (iMethodRespContent req) n never _ _ := Reads.choice <| Arms.toReads <|
    .arm (.guarded <| guarded_focus .ERROR error_reads error_tagged fun _ _ => rfl)
      (.last <| .guarded <| guarded_focus .IRETVALUE iReturnValue_reads (fun _ => ⟨_, _, rfl⟩)
        fun _ _ => rfl)
      (by simp)
  refine reads_element_out .IMETHODRESP (fun c => ((), iMethodArms c)) ha.weaken.fresh
    (fun _ t => ?_) (fun c => by cases c <;> rfl) (fun c hdr => ?_) (fun _ => rfl) rfl n.le_succ
  · match t with
    | .inl e => exact ⟨.error e, rfl⟩
    | .inr c => exact ⟨.content c, rfl⟩
  · match c with
    | .error e   =>
      show hdr.setError e = (((hdr.setError e).map (·, e)).map fun d =>
        (d.1, ParseUnion.errorResp d.2)).map Prod.fst
      cases hdr.setError e <;> rfl
    | .content c =>
      show c.result req hdr = ((c.result req hdr).map fun hdr => (hdr, ParseUnion.zero)).map Prod.fst
      cases c.result req hdr <;> rfl

theorem exParamValue_reads : Reads .any .fresh (exParamValue req) n never
    (fun i : Option Tree.Instance => Tree.tagged .EXPPARAMVALUE () (i.elim [] Tree.Instance.yield))
    (fun i hdr => (Tree.Message.indication i).result req hdr) := by
  have hi : Guarded (· = Kind.X .INSTANCE)
      (focus (fun p : ResponseHdr × ParseUnion => p.2.xtokInstance) (fun i p => (p.1, .inst i)) instance_)
      n _ _ :=
    guarded_focus .INSTANCE instance_reads (fun i => by cases i; exact ⟨_, _, rfl⟩) fun _ _ => rfl
  refine reads_element_out .EXPPARAMVALUE ((), ·) (Guarded.act hi).optional.fresh (fun _ i => ⟨i, rfl⟩)
    (fun _ => rfl) (fun i hdr => ?_) (fun _ => rfl) rfl n.le_succ
  cases i with
  | none   => rfl
  | some i => exact map_bind _ (fun v => (hdr.simpleArrayAdd v, ParseUnion.inst i.xtok)) Prod.fst

-- An element around another production is around its trees.
theorem around_reads {σ T : Type} [Store Tok σ] {p : Production σ} {yield : T → List Tok}
    {out : T → σ → Except Fault σ} {e₁ e₂ : String} (tag : Tag) (a : Payload tag)
    (ha : ∀ b : Payload tag, b = a) (h : Reads .any .fresh p n never yield out)
    (hs : ∀ (t : Tok) (su : σ), kind t = .X tag ∨ kind t = .Z tag → store t su = su) :
    Reads .any .fresh (around tag e₁ e₂ p) n never (fun t => Tree.tagged tag a (yield t)) out := by
  refine reads_element_out tag (a, ·) (Reads.focus h).weaken (fun b t => ⟨t, by rw [ha b]⟩)
    (fun _ => rfl) (fun t su => ?_) (fun su => hs _ _ (.inr rfl)) rfl n.le_succ
  rw [hs _ _ (.inl rfl)]
  cases out t su <;> simp [Except.map]

abbrev MethodState :=
  ResponseHdr × XtokMethodRespContent × ParseUnion

-- One pass of the loop over the parameters.
def paramStep (su : MethodState) (t : Tree.ParamValue) : MethodState :=
  let p := t.xtok su.2.2.xtokParamValue.data
  (su.1, su.2.1.addParamValue p, .paramValue p)

theorem param_values_item : Guarded (· = Kind.X .PARAMVALUE)
    (focus (fun p : MethodState => p.2.2.xtokParamValue)
      (fun v p => (p.1, p.2.1.addParamValue v, .paramValue v)) paramValue) n Tree.ParamValue.yield
    (fun t su => .ok (paramStep su t)) :=
  guarded_focus .PARAMVALUE paramValue_reads (fun _ => ⟨_, _, rfl⟩) fun _ _ => rfl

-- The loop records the parameters one after the other.
theorem foldl_paramStep (ps : List Tree.ParamValue) (su : MethodState) :
    ∃ u, ps.foldl paramStep su = (su.1,
      { values := su.2.1.values ++ Tree.ParamValue.xtoks su.2.2.xtokParamValue.data ps }, u) := by
  induction ps generalizing su with
  | nil          => exact ⟨su.2.2, by simp [Tree.ParamValue.xtoks]⟩
  | cons p ps hi =>
    have ⟨u, hu⟩ := hi (paramStep su p)
    exact ⟨u, hu.trans <| by
      simp [paramStep, Tree.ParamValue.xtoks, XtokMethodRespContent.addParamValue,
        ParseUnion.xtokParamValue]⟩

theorem returnValue_item (req : Request) : Guarded (· = Kind.X .RETVALUE)
    (focus (fun p : MethodState => (p.1, p.2.2.xtokReturnValue))
      (fun d p => (d.1, p.2.1, .returnValue d.2)) (returnValue req)) n Tree.ReturnValue.yield
    (fun t su => (addResult (returned req) (su.1, returnFilled su.2.2.xtokReturnValue t)).map
      fun d => (d.1, su.2.1, .returnValue d.2)) :=
  guarded_focus .RETVALUE returnValue_reads returnValue_tagged fun _ _ => rfl

abbrev MethodTree :=
  XtokErrorResp ⊕ ((Tree.ReturnValue × List Tree.ParamValue) ⊕ Passes Tree.ParamValue) ⊕ Unit

def methodArms : Tree.MethodContent → MethodTree
  | .error e              => .inl e
  | .values (some ret) ps => .inr (.inl (.inl (ret, ps)))
  | .values none (p :: l) => .inr (.inl (.inr (p, l)))
  | .values none []       => .inr (.inr ())

theorem opensValues : (fun k => decide (k ∈ [Kind.X .RETVALUE, .X .PARAMVALUE])) =
    fun k => decide (k = Kind.X .RETVALUE) || decide (k = Kind.X .PARAMVALUE) := by
  funext k
  simp

-- What the content of a method response leaves in the variables of the productions.
def methodFilled (req : Request) (c : Tree.MethodContent) (su : MethodState) :
    Except Fault MethodState :=
  match c with
  | .error e              => (su.1.setError e).map fun hdr => (hdr, su.2.1, .errorResp e)
  | .values none ps       => return ps.foldl paramStep su
  | .values (some ret) ps => do
    let d ← addResult (returned req) (su.1, returnFilled su.2.2.xtokReturnValue ret)
    return ps.foldl paramStep (d.1, su.2.1, .returnValue d.2)

theorem methodRespContent_reads : Reads .any .any (methodRespContent req) n
    (· ≠ Kind.Z .METHODRESP) Tree.MethodContent.yield (methodFilled req) := by
  have hv : Opened .any _ _ n (· ≠ Kind.Z .METHODRESP) _ _ :=
    (Guarded.optional_many (returnValue_item req) param_values_item (by simp)).mono
      fun k hk => by simp_all
  have ha : Reads .any .any (methodRespContent req) n (· ≠ Kind.Z .METHODRESP) _ _ :=
    Reads.choice <| Arms.toReads <|
      .arm (Opened.weaken <| .guarded <| guarded_focus .ERROR error_reads error_tagged fun _ _ => rfl)
        (.arm (opensValues ▸ hv)
          (.last <| (Opened.stay (· = Kind.Z .METHODRESP)).mono fun k hk => by simp_all) (by simp))
        (by grind)
  refine ha.map methodArms (fun {t} _ _ _ => ?_) (fun c => ?_) (fun c => funext fun su => ?_)
  · match t with
    | .inl e                     => exact ⟨.error e, rfl⟩
    | .inr (.inl (.inl (r, ps))) => exact ⟨.values (some r) ps, rfl⟩
    | .inr (.inl (.inr (p, ps))) => exact ⟨.values none (p :: ps), rfl⟩
    | .inr (.inr ())             => exact ⟨.values none [], rfl⟩
  · match c with
    | .error _ | .values (some _) _ | .values none (_ :: _) | .values none [] => rfl
  · match c with
    | .error e               =>
      show (su.1.setError e).map _ =
        ((su.1.setError e).map (·, e)).map fun d => (d.1, su.2.1, ParseUnion.errorResp d.2)
      cases su.1.setError e <;> rfl
    | .values none []        => rfl
    | .values none (p :: ps) => exact (foldlM_ok (p :: ps) su).symm
    | .values (some r) ps    =>
      show (addResult (returned req) (su.1, returnFilled su.2.2.xtokReturnValue r) >>= _) =
        ((addResult (returned req) (su.1, returnFilled su.2.2.xtokReturnValue r)).map fun d =>
          (d.1, su.2.1, ParseUnion.returnValue d.2)) >>= fun su =>
            ps.foldlM (fun su t => .ok (paramStep su t)) su
      simp only [foldlM_ok]
      cases addResult (returned req) (su.1, returnFilled su.2.2.xtokReturnValue r) <;> rfl

-- `setReturnArgs` behind the content.
theorem methodFilled_result (c : Tree.MethodContent) (hdr : ResponseHdr) :
    (methodFilled req c (hdr, {}, .zero) >>= fun p => do
      return (← p.1.setReturnArgs p.2.1, p.2)).map Prod.fst = c.result req hdr := by
  have hps (ps : List Tree.ParamValue) (su : MethodState) :
      ((return (← (ps.foldl paramStep su).1.setReturnArgs (ps.foldl paramStep su).2.1,
          (ps.foldl paramStep su).2) : Except Fault MethodState)).map Prod.fst =
        su.1.setReturnArgs
          { values := su.2.1.values ++ Tree.ParamValue.xtoks su.2.2.xtokParamValue.data ps } := by
    have ⟨u, hu⟩ := foldl_paramStep ps su
    rw [hu]
    exact (map_bind _ (fun hdr => (hdr, _, u)) Prod.fst).symm.trans (bind_pure _)
  match c with
  | .error e            =>
    show (((hdr.setError e).map _) >>= _).map _ = hdr.setError e
    cases hdr.setError e <;> rfl
  | .values none ps     => exact hps ps (hdr, {}, .zero)
  | .values (some r) ps =>
    have hr : returnFilled {} r = r.xtok := by cases r <;> rfl
    show ((addResult (returned req) (hdr, returnFilled {} r) >>= _) >>= _).map _ = _
    rw [hr, addResult, Tree.MethodContent.result]
    cases returned req r.xtok with
    | error f => rfl
    | ok v    => exact hps ps (hdr.simpleArrayAdd v, {}, .returnValue r.xtok)

theorem methodResp_reads {e₁ e₂ : String} : Reads .any .fresh
    (element (.X .METHODRESP) (.Z .METHODRESP) e₁ e₂ ({}, .zero) fun p => do
      let p ← methodRespContent req p
      act (fun p => return (← p.1.setReturnArgs p.2.1, p.2)) p) n never
    (fun c : Tree.MethodContent => Tree.tagged .METHODRESP () c.yield)
    (fun c hdr => c.result req hdr) := by
  have hs : Reads .any .any (act (fun p : MethodState => do
      return (← p.1.setReturnArgs p.2.1, p.2)) : Production _) n never (fun _ : Unit => []) _ :=
    Reads.act fun t p => map_bind _ (fun hdr => (hdr, p.2)) (store t)
  refine reads_element_out .METHODRESP (fun c => ((), c, ()))
    (Reads.seq methodRespContent_reads hs fun _ _ h => h).fresh (fun _ t => ⟨t.1, rfl⟩)
    (fun c => congrArg _ (List.append_nil _).symm) (fun c hdr => ?_) (fun _ => rfl) (by simp) n.le_succ
  exact (methodFilled_result c hdr).symm

theorem simpleRspContent_reads : Reads .any .fresh (simpleRspContent req) n never
    (Sum.elim (fun c : Tree.MethodContent => Tree.tagged .METHODRESP () c.yield)
      fun c : Tree.IMethodContent => Tree.tagged .IMETHODRESP () c.yield)
    (Sum.elim (fun c hdr => c.result req hdr) fun c hdr => c.result req hdr) := by
  have ha : Reads .any .fresh (simpleRspContent req) n never _ _ := Reads.choice <| Arms.toReads <|
    .arm (.guarded <| guarded_X .METHODRESP methodResp_reads fun _ => ⟨_, _, rfl⟩)
      (.last <| .guarded <| guarded_X .IMETHODRESP iMethodResp_reads fun _ => ⟨_, _, rfl⟩) (by simp)
  exact ha.map id (fun _ => ⟨_, rfl⟩) (fun _ => rfl) fun t => by cases t <;> rfl

def messageArms :
    Tree.Message → (Tree.MethodContent ⊕ Tree.IMethodContent) ⊕ Option Tree.Instance
  | .method c     => .inl (.inl c)
  | .iMethod c    => .inl (.inr c)
  | .indication i => .inr i

theorem messageContent_reads : Reads .any .fresh (messageContent req) n never Tree.Message.yield
    (fun m hdr => m.result req hdr) := by
  have ha : Reads .any .fresh (messageContent req) n never _ _ := Reads.choice <| Arms.toReads <|
    .arm (.guarded <| guarded_X .SIMPLERSP
        (around_reads .SIMPLERSP () (fun _ => rfl) simpleRspContent_reads fun _ _ _ => rfl)
        fun _ => ⟨_, _, rfl⟩)
      (.last <| .guarded <| guarded_X .SIMPLEEXPREQ
        (around_reads .SIMPLEEXPREQ () (fun _ => rfl)
          (around_reads .EXPMETHODCALL () (fun _ => rfl) exParamValue_reads fun _ _ _ => rfl)
          fun _ _ _ => rfl)
        fun _ => ⟨_, _, rfl⟩)
      (by simp)
  refine ha.map messageArms (fun {t} _ _ _ => ?_) (fun m => by cases m <;> rfl) fun m => by
    cases m <;> rfl
  match t with
  | .inl (.inl c) => exact ⟨.method c, rfl⟩
  | .inl (.inr c) => exact ⟨.iMethod c, rfl⟩
  | .inr i        => exact ⟨.indication i, rfl⟩

theorem cim_reads : Reads .any .fresh (cim req) n never
    (fun m : Tree.Message => Tree.tagged .CIM () (Tree.tagged .MESSAGE () m.yield))
    (fun m hdr => m.result req hdr) :=
  around_reads .CIM () (fun _ => rfl)
    (around_reads .MESSAGE () (fun _ => rfl) messageContent_reads fun _ _ _ => rfl) fun _ _ _ => rfl

theorem start_reads : Reads .any .fresh (start req) n never Tree.Message.document
    (fun m hdr => m.result req hdr) := by
  have hc : Reads .any .any (pure : Production (ResponseHdr × Unit)) n never (fun _ : Unit => [])
      fun _ p => .ok p := .leaf
  have hx : Reads .any .fresh (bare .XML "XTOK_XML" "ZTOK_XML" pure) n never
      (fun _ : Unit => Tree.tagged .XML () []) fun _ (hdr : ResponseHdr) => .ok hdr :=
    reads_element_out .XML (fun _ => ((), ())) hc.fresh (fun _ _ => ⟨(), rfl⟩) (fun _ => rfl)
      (fun _ _ => rfl) (fun _ => rfl) rfl n.le_succ
  exact (hx.seq (Reads.fresh cim_reads) fun _ _ _ => rfl).map (fun m => ((), m)) (fun {t} _ _ _ => ⟨t.2, rfl⟩)
    (fun _ => rfl) fun _ => rfl

-- A response that is parsed begins with a document, and is what is made of it.
theorem scanResponse_accepted {ts : List Tok} {rh : ResponseHdr} (h : scanResponse req ts = .ok rh) :
    (∃ (m : Tree.Message) (ts' : _), ts = m.document ++ ts') ∧
    ∀ (m : Tree.Message) ts', ts = m.document ++ ts' → m.result req {} = .ok rh := by
  cases hs : start req {} ⟨ts, .none, false⟩ with
  | error e =>
    rw [scanResponse, hs] at h
    cases h
  | ok r    =>
    rw [scanResponse, hs] at h
    cases h
    exact Reads.accepted (fun _ => start_reads) hs

theorem scanResponse_document {m : Tree.Message} {rh : ResponseHdr} (hm : m.result req {} = .ok rh)
    (ts : List Tok) : scanResponse req (m.document ++ ts) = .ok rh := by
  have ⟨r, hr⟩ := Reads.parsed (fun _ => start_reads) hm ts .none
  rw [scanResponse, hr]
  rfl

end Sfcc.Xml.Grammar
