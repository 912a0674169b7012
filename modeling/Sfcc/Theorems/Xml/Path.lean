import Sfcc.Lib.Descent.Reads
import Sfcc.Xml.Tree

open Descent

namespace Sfcc.Xml

-- The outcome of a production that fills its structure the same way whatever it held before.
abbrev fills {T σ : Type} (xtok : T → σ) (t : T) (_ : σ) : Except Fault σ :=
  .ok (xtok t)

-- What a loop does to the structure it fills, apart from the local union.
theorem foldl_fst {σ υ T : Type} {f : σ × υ → T → σ × υ} {l : List T} {p : σ × υ}
    (add : σ → T → σ) (h : ∀ p t, (f p t).1 = add p.1 t) : (l.foldl f p).1 = l.foldl add p.1 :=
  (List.foldl_hom Prod.fst fun p t => (h p t).symm).symm

theorem foldl_add {σ α T : Type} (add : σ → α → σ) (x : T → α) (append : σ → List α → σ)
    (hn : ∀ s, append s [] = s) (hc : ∀ s a as, append (add s a) as = append s (a :: as))
    (l : List T) (s : σ) : l.foldl (fun s t => add s (x t)) s = append s (l.map x) := by
  induction l generalizing s with
  | nil         => exact (hn s).symm
  | cons t l hi => exact (hi _).trans (hc ..)

theorem opens (tag : Tag) : Opens (Kind.X tag) (Tok.X tag) where
  iff t := by
    constructor
    · intro h
      cases t with
      | none    => cases h
      | Z _     => cases h
      | X _ a   =>
        cases h
        exact ⟨a, rfl⟩
    · rintro ⟨a, rfl⟩
      rfl
  ne_eof h := by cases h

theorem closes (tag : Tag) : Descent.Closes (Kind.Z tag) (Tok.Z tag) where
  iff t := by
    constructor
    · intro h
      cases t <;> cases h
      rfl
    · rintro rfl
      rfl
  ne_eof h := by cases h

section

variable {σ υ T T' : Type} [Store Tok σ] [Store Tok υ] {n k : ℕ} {tag : Tag} {e₁ e₂ : String} {zero : υ}
variable {content : Production (σ × υ)} {more : Kind → Bool} {yield : T → List Tok}
variable {f : T → σ × υ → σ × υ}

-- An element whose trees `T'` consist of what the opening token carries and a tree of the content.
theorem reads_element_out (tag : Tag) {out : T → σ × υ → Except Fault (σ × υ)}
    {out' : T' → σ → Except Fault σ} {yield' : T' → List Tok} (parts : T' → Payload tag × T)
    (h : Reads .fresh .any content n more yield out) (hp : ∀ a t, ∃ t', parts t' = (a, t))
    (hy : ∀ t, yield' t = Tree.tagged tag (parts t).1 (yield (parts t).2))
    (hx : ∀ t su, out' t su =
      (out (parts t).2 (store (Tok.X tag (parts t).1) su, zero)).map Prod.fst)
    (hz : ∀ su : σ, store (Tok.Z tag) su = su) (hm : more (.Z tag) = false) (hn : k ≤ n + 1) :
    Reads .any .fresh (element (.X tag) (.Z tag) e₁ e₂ zero content) k never yield' out' :=
  ((Reads.element (opens tag) (closes tag) hz hm h).map parts (fun _ => hp _ _) hy
    fun t => funext fun su => hx t su).mono hn

theorem reads_element (tag : Tag) {xtok : T' → σ} {yield' : T' → List Tok} (parts : T' → Payload tag × T)
    (h : Reads .fresh .any content n more yield fun t p => .ok (f t p))
    (hp : ∀ a t, ∃ t', parts t' = (a, t))
    (hy : ∀ t, yield' t = Tree.tagged tag (parts t).1 (yield (parts t).2))
    (hx : ∀ t su, (f (parts t).2 (store (Tok.X tag (parts t).1) su, zero)).1 = xtok t)
    (hz : ∀ su : σ, store (Tok.Z tag) su = su) (hm : more (.Z tag) = false) (hn : k ≤ n + 1) :
    Reads .any .fresh (element (.X tag) (.Z tag) e₁ e₂ zero content) k never yield' (fills xtok) :=
  reads_element_out tag parts h hp hy (fun t su => congrArg Except.ok (hx t su).symm) hz hm hn

theorem reads_leaf {xtok : Payload tag → σ} (hx : ∀ a (su : σ), store (Tok.X tag a) su = xtok a)
    (hz : ∀ su : σ, store (Tok.Z tag) su = su) :
    Reads .any .fresh (bare tag e₁ e₂ pure) n never (fun a => Tree.tagged tag a []) (fills xtok) :=
  have hc : Reads .any .any (pure : Production (σ × Unit)) n never (fun _ : Unit => [])
      fun _ p => .ok (id p) := .leaf
  reads_element tag (·, ()) hc.fresh (fun a _ => ⟨a, rfl⟩) (fun _ => rfl) hx hz rfl n.le_succ

theorem guarded_X {q : Production σ} {out : T → σ → Except Fault σ} (tag : Tag)
    (h : Reads .any .fresh q n never yield out) (hy : ∀ t, ∃ a c, yield t = Tree.tagged tag a c) :
    Guarded (· = Kind.X tag) q n yield out :=
  h.guarded _ fun t =>
    have ⟨a, c, ht⟩ := hy t
    ⟨_, _, ht, by simp [kind, Tok.kind]⟩

-- The same for a production that fills a member.
theorem guarded_focus {δ : Type} [Store Tok δ] {p : Production δ} {out : T → δ → Except Fault δ}
    {get : σ → δ} {set : δ → σ → σ} (tag : Tag) (h : Reads .any .fresh p n never yield out)
    (hy : ∀ t, ∃ a c, yield t = Tree.tagged tag a c)
    (hget : ∀ a su, get (store (Tok.X tag a) su) = store (Tok.X tag a) (get su)) :
    Guarded (· = Kind.X tag) (focus get set p) n yield
      (fun t su => (out t (get su)).map (set · (store (next (yield t)) su))) :=
  (guarded_X tag h hy).focus fun x su hx => by
    obtain ⟨a, rfl⟩ := ((opens tag).iff x).mp (by simpa using hx)
    exact hget a su

end

namespace Grammar

variable {n : ℕ}

theorem className_reads : Reads .any .fresh className n never (Tree.tagged .CLASSNAME · [])
    (fills fun name => { value := name }) :=
  reads_leaf (fun _ _ => rfl) fun _ => rfl

theorem host_reads : Reads .any .fresh host n never (Tree.tagged .HOST · [])
    (fills fun content => { host := content }) :=
  reads_leaf (fun _ _ => rfl) fun _ => rfl

theorem nameSpace_reads : Reads .any .fresh nameSpace n never (Tree.tagged .NAMESPACE · [])
    (fills fun name => { ns := name }) :=
  reads_leaf (fun _ _ => rfl) fun _ => rfl

theorem keyValue_reads : Reads .any .fresh keyValue n never (Tree.tagged .KEYVALUE · [])
    (fills fun value => value) :=
  reads_leaf (fun _ _ => rfl) fun _ => rfl

-- The loop over the components joins their names.
theorem foldl_joinNameSpace (names : List Text) (path : Text) :
    names.foldl (fun (su : XtokLocalNameSpacePath) name => { value := joinNameSpace su.value name })
      { value := some path } =
      { value := some (names.foldl (fun path name => path ++ bytes "/" ++ name) path) } := by
  induction names generalizing path with
  | nil                => rfl
  | cons name names hi => exact hi _

theorem nameSpace_item : Guarded (· = Kind.X .NAMESPACE) (fun p => do
      let p ← focus (·.2.xtokNameSpace) (fun ns p => (p.1, .nameSpace ns)) nameSpace p
      act (fun p => return (← addNameSpace p.1 p.2.xtokNameSpace, p.2)) p) n
    (fun name => Tree.tagged .NAMESPACE (some name) [])
    (fun name (p : XtokLocalNameSpacePath × ParseUnion) =>
      .ok ({ value := joinNameSpace p.1.value name }, .nameSpace { ns := name })) := by
  refine (guarded_focus .NAMESPACE nameSpace_reads (fun _ => ⟨_, _, rfl⟩) fun _ _ => rfl).act.map some
    (fun {t} p p' h => ?_) (fun _ => rfl) fun _ => rfl
  cases t with
  | none      => cases h
  | some name => exact ⟨name, rfl⟩

theorem localNameSpacePath_reads : Reads .any .fresh localNameSpacePath n never
    Tree.NameSpacePath.yieldLocal (fills fun names => { value := Tree.joined names }) := by
  refine reads_element .LOCALNAMESPACEPATH ((), ·) nameSpace_item.many_ok.fresh
    (fun _ t => ⟨t, rfl⟩) (fun _ => rfl) (fun names su => ?_) (fun _ => rfl) rfl n.le_succ
  refine (foldl_fst (fun su name => { value := joinNameSpace su.value name }) fun _ _ => rfl).trans ?_
  cases names with
  | nil       => rfl
  | cons name => exact foldl_joinNameSpace _ name

theorem nameSpacePath_reads : Reads .any .fresh nameSpacePath n never
    Tree.NameSpacePath.yield (fills Tree.NameSpacePath.xtok) :=
  have hc := (Reads.focus host_reads).seq (Reads.focus localNameSpacePath_reads) fun _ _ _ => rfl
  reads_element .NAMESPACEPATH (fun t : Tree.NameSpacePath => ((), t.host, t.names)) hc.weaken
    (fun _ t => ⟨⟨t.1, t.2⟩, rfl⟩) (fun _ => rfl) (fun _ _ => rfl) (fun _ => rfl) rfl n.le_succ

-- The trees of the arms of `valueReferenceData`.
def refArms : Tree.Reference →
    (Tree.NameSpacePath × Tree.InstanceName) ⊕ (List Text × Tree.InstanceName) ⊕ Tree.InstanceName
  | .instancePath path name      => .inl (path, name)
  | .localInstancePath path name => .inr (.inl (path, name))
  | .instanceName name           => .inr (.inr name)

-- The trees in the content of a key binding.
def keyParts : Tree.KeyBinding → Option Text × (XtokKeyValue ⊕ Tree.Reference)
  | .keyValue name value => (name, .inl value)
  | .reference name ref  => (name, .inr ref)

def nameParts : Tree.InstanceName → Option Text × List Tree.KeyBinding
  | .mk className bindings => (className, bindings)

theorem keyBinding_yields (bs : List Tree.KeyBinding) :
    Tree.KeyBinding.yields bs = bs.flatMap Tree.KeyBinding.yield := by
  induction bs with
  | nil          => rfl
  | cons b bs hi => rw [Tree.KeyBinding.yields, hi, List.flatMap_cons]

theorem keyBinding_xtoks (bs : List Tree.KeyBinding) :
    Tree.KeyBinding.xtoks bs = bs.map Tree.KeyBinding.xtok := by
  induction bs with
  | nil          => rfl
  | cons b bs hi => rw [Tree.KeyBinding.xtoks, hi, List.map_cons]

theorem keyBinding_tagged : ∀ b : Tree.KeyBinding, ∃ a c, b.yield = Tree.tagged .KEYBINDING a c
  | .keyValue _ _ | .reference _ _ => ⟨_, _, rfl⟩

section Reference

variable {name : Production XtokInstanceName}
variable (h : Reads .any .fresh name n never Tree.InstanceName.yield (fills Tree.InstanceName.xtok))

include h

theorem instancePath_reads : Reads .any .fresh (instancePath name) n never
    (fun t : Tree.NameSpacePath × Tree.InstanceName =>
      Tree.tagged .INSTANCEPATH () (t.1.yield ++ t.2.yield))
    (fills fun t => { path := t.1.xtok, instanceName := t.2.xtok }) :=
  have hc := (Reads.focus nameSpacePath_reads).seq (Reads.focus h) fun _ _ _ => rfl
  reads_element .INSTANCEPATH (fun t => ((), t)) hc.weaken (fun _ t => ⟨t, rfl⟩) (fun _ => rfl)
    (fun _ _ => rfl) (fun _ => rfl) rfl n.le_succ

theorem localInstancePath_reads : Reads .any .fresh (localInstancePath name) n never
    (fun t : List Text × Tree.InstanceName =>
      Tree.tagged .LOCALINSTANCEPATH () (Tree.NameSpacePath.yieldLocal t.1 ++ t.2.yield))
    (fills fun t => { path := { value := Tree.joined t.1 }, instanceName := t.2.xtok }) :=
  have hc := (Reads.focus localNameSpacePath_reads).seq (Reads.focus h) fun _ _ _ => rfl
  reads_element .LOCALINSTANCEPATH (fun t => ((), t)) hc.weaken (fun _ t => ⟨t, rfl⟩) (fun _ => rfl)
    (fun _ _ => rfl) (fun _ => rfl) rfl n.le_succ

theorem valueReferenceData_reads : Reads .any .fresh (valueReferenceData name) n never
    Tree.Reference.content (fills (·.xtok.data)) := by
  have ha : Reads .any .fresh (valueReferenceData name) n never _ _ := Reads.choice <| Arms.toReads <|
    .arm (.guarded <| guarded_focus .INSTANCEPATH (instancePath_reads h) (fun _ => ⟨_, _, rfl⟩) fun _ _ => rfl)
      (.arm (.guarded <| guarded_focus .LOCALINSTANCEPATH (localInstancePath_reads h) (fun _ => ⟨_, _, rfl⟩)
          fun _ _ => rfl)
        (.last (.guarded <| guarded_focus .INSTANCENAME h (fun ⟨_, _⟩ => ⟨_, _, rfl⟩) fun _ _ => rfl))
        (by simp))
      (by simp)
  refine ha.map refArms (fun {t} _ _ _ => ?_) (fun t => by cases t <;> rfl) fun t => by cases t <;> rfl
  rcases t with ⟨path, name⟩ | ⟨path, name⟩ | name
  exacts [⟨.instancePath path name, rfl⟩, ⟨.localInstancePath path name, rfl⟩,
    ⟨.instanceName name, rfl⟩]

theorem valueReference_reads : Reads .any .fresh (valueReference name) n never
    Tree.Reference.yield (fills Tree.Reference.xtok) :=
  reads_element .VALUEREFERENCE (fun t : Tree.Reference => ((), t))
    (Reads.focus (valueReferenceData_reads h)).weaken (fun _ t => ⟨t, rfl⟩) (fun _ => rfl)
    (fun t _ => by cases t <;> rfl) (fun _ => rfl) rfl n.le_succ

theorem keyBindingContent_reads : Reads .any .fresh (keyBindingContent name) n never
    (Sum.elim (Tree.tagged .KEYVALUE · []) Tree.Reference.yield)
    (fills (Sum.elim (fun v => { u := .keyValue v, type := v.valueType })
      fun r => { u := .ref r.xtok, type := bytes "ref" })) := by
  have ha : Reads .any .fresh (keyBindingContent name) n never _ _ := Reads.choice <| Arms.toReads <|
    .arm (.guarded <| guarded_focus .KEYVALUE keyValue_reads (fun _ => ⟨_, _, rfl⟩) fun _ _ => rfl)
      (.last (.guarded <| guarded_focus .VALUEREFERENCE (valueReference_reads h) (fun _ => ⟨_, _, rfl⟩)
        fun _ _ => rfl))
      (by simp)
  exact ha.map id (fun _ => ⟨_, rfl⟩) (fun t => by cases t <;> rfl) fun t => by cases t <;> rfl

theorem keyBinding_reads : Reads .any .fresh (keyBinding name) n never
    Tree.KeyBinding.yield (fills Tree.KeyBinding.xtok) := by
  refine reads_element .KEYBINDING keyParts (Reads.focus (keyBindingContent_reads h)).weaken ?_ ?_ ?_
    (fun _ => rfl) rfl n.le_succ
  · rintro name (value | ref)
    exacts [⟨.keyValue name value, rfl⟩, ⟨.reference name ref, rfl⟩]
  · rintro (_ | _) <;> rfl
  · rintro (_ | _) su <;> rfl

theorem instanceNameStep_reads : Reads .any .fresh (instanceNameStep name) (n + 1) never
    Tree.InstanceName.yield (fills Tree.InstanceName.xtok) := by
  refine reads_element .INSTANCENAME nameParts (Reads.fresh <| Guarded.many_ok <|
    guarded_focus .KEYBINDING (keyBinding_reads h) keyBinding_tagged fun _ _ => rfl) ?_ ?_ ?_
    (fun _ => rfl) rfl (Nat.le_refl _)
  · exact fun name bs => ⟨.mk name bs, rfl⟩
  · rintro ⟨name, bs⟩
    rw [Tree.InstanceName.yield, keyBinding_yields]
    rfl
  · rintro ⟨name, bs⟩ su
    have hf (s : XtokInstanceName) : bs.foldl (fun n b => n.addKeyBinding b.xtok) s =
        { s with bindings := s.bindings ++ bs.map Tree.KeyBinding.xtok } :=
      foldl_add (fun n b => n.addKeyBinding b) _
        (fun (n : XtokInstanceName) bs => { n with bindings := n.bindings ++ bs })
        (fun ⟨_, _⟩ => by simp) (by simp [XtokInstanceName.addKeyBinding]) bs s
    rw [Tree.InstanceName.xtok, keyBinding_xtoks]
    exact (foldl_fst (fun n b => n.addKeyBinding b.xtok) fun _ _ => rfl).trans (hf _)

end Reference

theorem instanceNameN_reads : ∀ n, Reads .any .fresh (instanceNameN n) n never
    Tree.InstanceName.yield (fills Tree.InstanceName.xtok)
  | 0     => .zero fun ⟨_, _⟩ => nofun
  | n + 1 => instanceNameStep_reads (instanceNameN_reads n)

theorem instanceName_reads : Reads .any .fresh instanceName n never
    Tree.InstanceName.yield (fills Tree.InstanceName.xtok) :=
  .fueled instanceNameN_reads

end Grammar
end Sfcc.Xml
