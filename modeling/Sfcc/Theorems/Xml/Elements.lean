import Sfcc.Theorems.Xml.Texts

open Descent

-- The tokens of the elements that requests are made of.
namespace Sfcc.Xml

-- A production on the tokens of a text, from where nothing has been lexed.
def parsed {σ : Type} (q : Production σ) (su : σ) (text : Text) : Except (Failure Tok Fault) σ :=
  Prod.fst <$> q su ⟨tokens text, .none, false⟩

theorem Lexes.parsed_out {σ T : Type} [Store Tok σ] {q : Production σ} {yield : T → List Tok} {out : T → σ → Except Fault σ}
    {text : Text} {t : T} (hl : Lexes text (yield t)) (h : ∀ n, Reads .any .fresh q n never yield out) {su su' : σ}
    (ho : out t su = .ok su') : parsed q su text = .ok su' := by
  have ha : At .any (yield t ++ []) su (su, ⟨yield t ++ [], .none, false⟩) := .any_of_fresh
  have he := (h _).complete ha (Nat.le_refl _) rfl
  rw [ho, List.append_nil] at he
  have ⟨r, hr, hs⟩ := he
  cases hs
  rw [parsed, hl.tokens_eq, hr]
  rfl

theorem Lexes.parsed_eq {σ T : Type} [Store Tok σ] {q : Production σ} {yield : T → List Tok} {xtok : T → σ}
    {text : Text} {t : T} (hl : Lexes text (yield t)) (h : ∀ n, Reads .any .fresh q n never yield (fills xtok)) (su : σ) :
    parsed q su text = .ok (xtok t) :=
  hl.parsed_out h rfl

section

variable {body v w : Text} {ts us : List Tok}

theorem Lexes.of_eq {a b : Text} (h : Lexes b ts) (he : a = b) : Lexes a ts :=
  he ▸ h

-- White space around what makes tokens.
theorem Lexes.behind {ws : Text} (h : Lexes body ts) (hw : ∀ c ∈ ws, isWS c) : Lexes (ws ++ body) ts := by
  have hl := (Lexes.blank hw).append h
  rwa [List.nil_append] at hl

theorem Lexes.before {ws : Text} (h : Lexes body ts) (hw : ∀ c ∈ ws, isWS c) : Lexes (body ++ ws) ts := by
  have hl := h.append (.blank hw)
  rwa [List.append_nil] at hl

theorem Lexes.line (h : Lexes body ts) : Lexes (body ++ [10]) ts :=
  h.before (by decide)

theorem Lexes.indented (h : Lexes body ts) : Lexes (10 :: body) ts :=
  h.behind (by decide : ∀ c ∈ [10], isWS c)

-- An element around others.
theorem Lexes.around {tag : String} {elm : List String} {vs : List Text} {etag : Tok} (k : Tag) (a : Payload k)
    {token : (ℕ → Option Text) → Proc} (h : Known ⟨bytes tag, procTag tag elm etag token, .Z k⟩)
    (ha : Attributes (elm.map bytes) vs) (ht : ∀ xb, token (vs[·]?) xb = .ok (.X k a, xb)) (hb : Lexes body ts) :
    Lexes (startTag (bytes tag) (elm.map bytes) vs ++ body ++ endTag (bytes tag)) (Tree.tagged k a ts) := by
  have hl := ((Lexes.start h ha ht nofun).append hb).append (.stop h nofun)
  simpa [Tree.tagged] using hl

theorem Lexes.element {tag : String} {elm : List String} {vs : List Text} (k : Tag) (a : Payload k)
    {token : (ℕ → Option Text) → Tok}
    (h : Known ⟨bytes tag, procElement tag elm (.Z k) token, .Z k⟩) (ha : Attributes (elm.map bytes) vs)
    (ht : token (vs[·]?) = .X k a) (hb : Lexes body ts) :
    Lexes (startTag (bytes tag) (elm.map bytes) vs ++ body ++ endTag (bytes tag)) (Tree.tagged k a ts) := by
  apply Lexes.around k a h ha (fun xb => ?_) hb
  show Except.ok (token (vs[·]?), xb) = _
  rw [ht]

-- The attributes that are written of those an element can have.

theorem Attributes.none : Attributes ([].map bytes) [] :=
  ⟨nofun, Nat.le_refl _, nofun⟩

theorem Attributes.one {a : String} {elm : List String} (hn : ∀ n ∈ (a :: elm).map bytes, n.head?.any isalpha)
    (hv : 34 ∉ v) : Attributes ((a :: elm).map bytes) [v] :=
  ⟨hn, by simp, List.forall_mem_singleton.mpr hv⟩

theorem Attributes.two {a b : String} {elm : List String}
    (hn : ∀ n ∈ (a :: b :: elm).map bytes, n.head?.any isalpha) (hv : 34 ∉ v) (hw : 34 ∉ w) :
    Attributes ((a :: b :: elm).map bytes) [v, w] :=
  ⟨hn, by simp, by simp [hv, hw]⟩

theorem Attributes.typed {a b : String} {elm : List String} {t : Option Text}
    (hn : ∀ n ∈ (a :: b :: elm).map bytes, n.head?.any isalpha) (hv : 34 ∉ v) (ht : ∀ w ∈ t, 34 ∉ w) :
    Attributes ((a :: b :: elm).map bytes) (v :: t.toList) := by
  cases t with
  | none   => exact .one hn hv
  | some w => exact .two hn hv (ht w rfl)

-- The elements of a path.

theorem nameSpace_lexes (hv : 34 ∉ v) : Lexes (namespaceElement v) (Tree.tagged .NAMESPACE (some v) []) := by
  have h : Known ⟨bytes "NAMESPACE", procNameSpace, .Z .NAMESPACE⟩ := known (List.mem_of_getElem? (i := 11) rfl)
  apply (Lexes.element .NAMESPACE (some v) h (.one (by decide) hv) rfl .nil).line.of_eq
  simp only [namespaceElement, startTag, endTag, attrText, List.map, List.append_assoc, List.cons_append]
  rfl

theorem nameSpaces_lexes {names : List Text} (hn : ∀ n ∈ names, 34 ∉ n) :
    Lexes (bytes "<LOCALNAMESPACEPATH>\n" ++ names.flatMap namespaceElement ++ bytes "</LOCALNAMESPACEPATH>")
      (Tree.NameSpacePath.yieldLocal names) := by
  have h : Known ⟨bytes "LOCALNAMESPACEPATH", procLocalNameSpacePath, .Z .LOCALNAMESPACEPATH⟩ :=
    known (List.mem_of_getElem? (i := 7) rfl)
  have hb := Lexes.flatMap fun n hm => nameSpace_lexes (hn n hm)
  apply (Lexes.element .LOCALNAMESPACEPATH () h .none rfl hb.indented).of_eq
  simp only [startTag, endTag, attrText, List.map, List.append_assoc, List.cons_append]
  rfl

theorem host_lexes (hv : 60 ∉ v) :
    Lexes (bytes "<HOST>" ++ v ++ bytes "</HOST>") (Tree.tagged .HOST (some (trimmed v)) []) := by
  have h : Known ⟨bytes "HOST", procHost, .Z .HOST⟩ := known (List.mem_of_getElem? (i := 20) rfl)
  exact Lexes.content h .none hv nofun nofun

theorem keyValue_lexes (hv : 34 ∉ v) (hw : 60 ∉ w) :
    Lexes (bytes "<KEYVALUE VALUETYPE=\"" ++ v ++ bytes "\">" ++ w ++ bytes "</KEYVALUE>")
      (Tree.tagged .KEYVALUE { valueType := v, value := some (trimmed w) } []) := by
  have h : Known ⟨bytes "KEYVALUE", procKeyValue, .Z .KEYVALUE⟩ := known (List.mem_of_getElem? (i := 21) rfl)
  apply (Lexes.content h (.one (by decide) hv) hw nofun nofun).of_eq
  simp only [startTag, endTag, attrText, List.map, List.append_assoc, List.cons_append]
  rfl

theorem keyBinding_lexes (hv : 34 ∉ v) (hb : Lexes body ts) :
    Lexes (bytes "<KEYBINDING NAME=\"" ++ v ++ bytes "\">" ++ body ++ bytes "</KEYBINDING>\n")
      (Tree.tagged .KEYBINDING (some v) ts) := by
  have h : Known ⟨bytes "KEYBINDING", procKeyBinding, .Z .KEYBINDING⟩ := known (List.mem_of_getElem? (i := 22) rfl)
  apply (Lexes.element .KEYBINDING (some v) h (.one (by decide) hv) rfl hb).line.of_eq
  simp only [startTag, endTag, attrText, List.map, List.append_assoc, List.cons_append]
  rfl

theorem instanceName_lexes (hv : 34 ∉ v) (hb : Lexes body ts) :
    Lexes (bytes "<INSTANCENAME CLASSNAME=\"" ++ v ++ bytes "\">" ++ body ++ bytes "</INSTANCENAME>")
      (Tree.tagged .INSTANCENAME (some v) ts) := by
  have h : Known ⟨bytes "INSTANCENAME", procInstanceName, .Z .INSTANCENAME⟩ :=
    known (List.mem_of_getElem? (i := 24) rfl)
  apply (Lexes.element .INSTANCENAME (some v) h (.one (by decide) hv) rfl hb).of_eq
  simp only [startTag, endTag, attrText, List.map, List.append_assoc, List.cons_append]
  rfl

theorem instance_lexes (hv : 34 ∉ v) (hb : Lexes body ts) :
    Lexes (bytes "<INSTANCE CLASSNAME=\"" ++ v ++ bytes "\">\n" ++ body ++ bytes "</INSTANCE>\n")
      (Tree.tagged .INSTANCE (some v) ts) := by
  have h : Known ⟨bytes "INSTANCE", procInstance, .Z .INSTANCE⟩ := known (List.mem_of_getElem? (i := 25) rfl)
  apply (Lexes.element .INSTANCE (some v) h (.one (by decide) hv) rfl hb.indented).line.of_eq
  simp [startTag, endTag, attrText, bytes]

theorem nameSpacePath_lexes (hb : Lexes body ts) : Lexes (bytes "<NAMESPACEPATH>" ++ body ++ bytes "</NAMESPACEPATH>")
    (Tree.tagged .NAMESPACEPATH () ts) := by
  have h : Known ⟨bytes "NAMESPACEPATH", procNameSpacePath, .Z .NAMESPACEPATH⟩ :=
    known (List.mem_of_getElem? (i := 10) rfl)
  exact Lexes.element .NAMESPACEPATH () h .none rfl hb

theorem instancePath_lexes (hb : Lexes body ts) : Lexes (bytes "<INSTANCEPATH>" ++ body ++ bytes "</INSTANCEPATH>")
    (Tree.tagged .INSTANCEPATH () ts) := by
  have h : Known ⟨bytes "INSTANCEPATH", procInstancePath, .Z .INSTANCEPATH⟩ := known (List.mem_of_getElem? (i := 23) rfl)
  exact Lexes.element .INSTANCEPATH () h .none rfl hb

theorem localInstancePath_lexes (hb : Lexes body ts) :
    Lexes (bytes "<LOCALINSTANCEPATH>" ++ body ++ bytes "</LOCALINSTANCEPATH>") (Tree.tagged .LOCALINSTANCEPATH () ts) := by
  have h : Known ⟨bytes "LOCALINSTANCEPATH", procLocalInstancePath, .Z .LOCALINSTANCEPATH⟩ :=
    known (List.mem_of_getElem? (i := 8) rfl)
  exact Lexes.element .LOCALINSTANCEPATH () h .none rfl hb

theorem valueReference_lexes (hb : Lexes body ts) :
    Lexes (bytes "<VALUE.REFERENCE>" ++ body ++ bytes "</VALUE.REFERENCE>") (Tree.tagged .VALUEREFERENCE () ts) := by
  have h : Known ⟨bytes "VALUE.REFERENCE", procValueReference, .Z .VALUEREFERENCE⟩ :=
    known (List.mem_of_getElem? (i := 16) rfl)
  exact Lexes.element .VALUEREFERENCE () h .none rfl hb

end

end Sfcc.Xml
