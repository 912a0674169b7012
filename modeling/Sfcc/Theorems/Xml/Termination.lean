import Sfcc.Lib.Descent.Runs
import Sfcc.Theorems.Xml.Advance
import Sfcc.Xml.Response

open Descent

-- Whatever the lexer returns, the parser comes to an end.
namespace Sfcc.Xml

variable {S ε σ : Type} {src : Source S Tok ε} {N k n : ℕ}

section

variable [Store Tok σ] {tag : Tag} {expOpening expClosing : String}

theorem bare_takes {content : Production (σ × Unit)} (h : Takes src N k n content) :
    Takes src N (k + 1) 1 (bare tag expOpening expClosing content) :=
  h.element Kind.noConfusion Kind.noConfusion

theorem withLocal_takes {content : Production (σ × ParseUnion)} (h : Takes src N k n content) :
    Takes src N (k + 1) 1 (withLocal tag expOpening expClosing content) :=
  h.element Kind.noConfusion Kind.noConfusion

end

namespace Grammar

theorem className_takes : Takes src N k 1 className :=
  (bare_takes takes_pure).less

theorem host_takes : Takes src N k 1 host :=
  (bare_takes takes_pure).less

theorem nameSpace_takes : Takes src N k 1 nameSpace :=
  (bare_takes takes_pure).less

theorem keyValue_takes : Takes src N k 1 keyValue :=
  (bare_takes takes_pure).less

theorem localNameSpacePath_takes : Takes src N k 1 localNameSpacePath :=
  (withLocal_takes (Follows.many rfl (nameSpace_takes.focus.act _).resumes).takes).less

theorem nameSpacePath_takes : Takes src N k 1 nameSpacePath :=
  (bare_takes (host_takes.focus.seq localNameSpacePath_takes.focus)).less

theorem classPath_takes : Takes src N k 1 classPath :=
  (bare_takes (nameSpacePath_takes.focus.seq className_takes.focus)).less

-- The productions around `instanceName` take a token before they call it.
section Reference

variable {instanceName : Production XtokInstanceName} (h : Takes src N k 1 instanceName)
include h

theorem instancePath_takes : Takes src N k 1 (instancePath instanceName) :=
  (bare_takes (nameSpacePath_takes.focus.seq h.focus)).less

theorem localInstancePath_takes : Takes src N k 1 (localInstancePath instanceName) :=
  (bare_takes (localNameSpacePath_takes.focus.seq h.focus)).less

theorem valueReferenceData_takes : Takes src N k 1 (valueReferenceData instanceName) :=
  .choice <|
    .arm rfl (instancePath_takes h).focus.resumes <|
    .arm rfl (localInstancePath_takes h).focus.resumes <|
    .arm rfl h.focus.resumes <|
    .parseError

theorem valueReference_takes : Takes src N (k + 1) 1 (valueReference instanceName) :=
  bare_takes (valueReferenceData_takes h).focus

theorem keyBindingContent_takes : Takes src N (k + 1) 1 (keyBindingContent instanceName) :=
  .choice <|
    .arm rfl keyValue_takes.focus.resumes <|
    .arm rfl (valueReference_takes h).focus.resumes <|
    .parseError

theorem keyBinding_takes : Takes src N (k + 1) 1 (keyBinding instanceName) :=
  (bare_takes (keyBindingContent_takes h).focus).less

theorem instanceNameStep_takes : Takes src N (k + 2) 1 (instanceNameStep instanceName) :=
  withLocal_takes (Follows.many rfl (keyBinding_takes h).focus.resumes).takes

end Reference

theorem instanceNameN_takes (m : ℕ) : Takes src N (2 * m) 1 (instanceNameN m) := by
  induction m with
  | zero      =>
    intro _ _ _ hd
    exact absurd hd (Nat.not_lt_zero _)
  | succ m hi => exact instanceNameStep_takes hi

theorem instanceName_takes : Takes src N k 1 instanceName :=
  .fueled instanceNameN_takes

theorem objectPath_takes : Takes src N k 1 objectPath :=
  (bare_takes (instancePath_takes instanceName_takes).focus).less

theorem valueRefArray_takes : Takes src N k 1 valueRefArray :=
  (withLocal_takes (Follows.many rfl (valueReference_takes instanceName_takes).focus.resumes).takes).less.less

-- The productions around `instance` as well.
section Value

variable {inst : Production XtokInstance} (h : Takes src N k 1 inst)
include h

theorem valueData_takes : Takes src N (k + 1) 0 (valueData inst) := by
  intro su d hl hd
  refine (Settles.lex hl).bind fun su₁ d₁ h₁ => .current ?_
  obtain h₁ | ⟨hl₁, hn₁, hp₁⟩ := h₁
  · rw [if_neg (h₁.kind_ne Kind.noConfusion)]
    refine .current ?_
    rw [if_neg (h₁.kind_ne Kind.noConfusion)]
    exact .parseError h₁.toBounded
  · have hd₁ : left src d₁ = (src.tokens d₁.source).length := left_lexed hp₁
    split
    · exact .pushBack (.pure hl₁.pushBack.bounded (.inl ⟨hl₁.pushBack, hn₁⟩))
    · refine .current ?_
      split
      · refine (h {} d₁ hl₁ (by omega)).bind fun i d₂ h₂ => ?_
        obtain ⟨hl₂, hn₂⟩ := h₂.live
        refine (Settles.lex hl₂).bind fun su₃ d₃ h₃ => .current ?_
        obtain h₃ | ⟨hl₃, hn₃, hp₃⟩ := h₃
        · rw [if_neg (h₃.kind_ne Kind.noConfusion)]
          exact .parseError h₃.toBounded
        · have hd₃ : left src d₃ = (src.tokens d₃.source).length := left_lexed hp₃
          split
          · exact .pure hl₃.bounded (.inl ⟨hl₃, by omega⟩)
          · exact .parseError hl₃.bounded
      · exact .parseError hl₁.bounded

theorem value_takes : Takes src N (k + 1) 1 (value inst) :=
  (bare_takes (valueData_takes h).focus).less

theorem valueArray_takes : Takes src N (k + 1) 1 (valueArray inst) :=
  (withLocal_takes (Follows.many rfl (value_takes h).focus.resumes).takes).less

theorem qualifierData_takes : Takes src N (k + 1) 1 (qualifierData inst) :=
  .choice <|
    .arm rfl (value_takes h).focus.resumes <|
    .arm rfl (valueArray_takes h).focus.resumes <|
    .parseError

theorem qualifier_takes : Takes src N (k + 1) 1 (qualifier inst) :=
  (withLocal_takes (Follows.optional rfl (qualifierData_takes h).focus.resumes).takes).less

theorem qualifiers_follows {add : XtokQualifier XtokInstance → σ → σ} : Follows src N (k + 1) (qualifiers inst add) :=
  .many rfl (qualifier_takes h).focus.resumes

theorem property_takes : Takes src N (k + 1) 1 (property inst) :=
  (withLocal_takes ((qualifiers_follows h).seq (.optional rfl (value_takes h).focus.resumes)).takes).less

theorem propertyArray_takes : Takes src N (k + 1) 1 (propertyArray inst) :=
  (withLocal_takes ((qualifiers_follows h).seq (.optional rfl (valueArray_takes h).focus.resumes)).takes).less

theorem propertyReference_takes : Takes src N (k + 1) 1 (propertyReference inst) :=
  (withLocal_takes ((qualifiers_follows h).seq
    (.optional rfl (valueReference_takes instanceName_takes).focus.resumes)).takes).less

theorem genProperty_takes : Takes src N (k + 1) 1 (genProperty inst) :=
  .choice <|
    .arm rfl (property_takes h).focus.resumes <|
    .arm rfl (propertyArray_takes h).focus.resumes <|
    .arm rfl (propertyReference_takes h).focus.resumes <|
    .parseError

theorem properties_follows {add : XtokProperty XtokInstance → σ → σ} : Follows src N (k + 1) (properties inst add) :=
  .many rfl (genProperty_takes h).focus.resumes

theorem instanceStep_takes : Takes src N (k + 2) 1 (instanceStep inst) :=
  withLocal_takes ((qualifiers_follows h).seq (properties_follows h)).takes

end Value

theorem instanceN_takes (m : ℕ) : Takes src N (2 * m) 1 (instanceN m) := by
  induction m with
  | zero      =>
    intro _ _ _ hd
    exact absurd hd (Nat.not_lt_zero _)
  | succ m hi => exact instanceStep_takes hi

theorem instance_takes : Takes src N k 1 instance_ :=
  .fueled instanceN_takes

theorem parameterOf_takes {tag : Tag} {expOpening expClosing : String} :
    Takes src N k 1 (parameterOf tag expOpening expClosing) :=
  (withLocal_takes (qualifiers_follows instance_takes).takes).less.less

theorem methodData_resumes : Resumes src N k 1 methodData :=
  Decides.resumes <|
    .arm rfl parameterOf_takes.focus.resumes <|
    .arm rfl parameterOf_takes.focus.resumes <|
    .arm rfl parameterOf_takes.focus.resumes <|
    .arm rfl parameterOf_takes.focus.resumes <|
    .parseError

theorem method_takes : Takes src N k 1 method :=
  (withLocal_takes ((qualifiers_follows instance_takes).seq (.many rfl methodData_resumes.focus)).takes).less.less

theorem class_takes : Takes src N k 1 class_ :=
  (withLocal_takes ((qualifiers_follows instance_takes).seq
    ((properties_follows instance_takes).seq (.many rfl method_takes.focus.resumes))).takes).less.less

theorem error_takes : Takes src N k 1 error :=
  (bare_takes (takes_act _)).less

theorem returnValueData_takes : Takes src N k 1 returnValueData :=
  .choice <|
    .arm rfl (value_takes instance_takes).less.focus.resumes <|
    .arm rfl (valueReference_takes instanceName_takes).less.focus.resumes <|
    .parseError

theorem paramValueData_takes : Takes src N k 1 paramValueData :=
  .choice <|
    .arm rfl (value_takes instance_takes).less.focus.resumes <|
    .arm rfl (valueReference_takes instanceName_takes).less.focus.resumes <|
    .arm rfl (valueArray_takes instance_takes).less.focus.resumes <|
    .arm rfl valueRefArray_takes.focus.resumes <|
    .parseError

theorem paramValue_takes : Takes src N k 1 paramValue :=
  ((Follows.optional rfl paramValueData_takes.focus.resumes).takes.element Kind.noConfusion Kind.noConfusion).less

theorem classWithPath_takes : Takes src N k 1 classWithPath :=
  .choice <|
    .arm rfl (classPath_takes.focus.seq class_takes.focus).resumes <|
    .parseError

theorem instanceWithPath_takes : Takes src N k 1 instanceWithPath :=
  .choice <|
    .arm rfl ((instancePath_takes instanceName_takes).focus.seq instance_takes.focus).resumes <|
    .parseError

theorem valueNamedInstance_takes : Takes src N k 1 valueNamedInstance :=
  (bare_takes (instanceName_takes.focus.seq instance_takes.focus)).less

theorem valueObjectWithPathData_takes : Takes src N k 1 valueObjectWithPathData :=
  .choice <|
    .arm rfl classWithPath_takes.focus.resumes <|
    .arm rfl (instanceWithPath_takes.focus.act _).resumes <|
    .parseError

theorem valueObjectWithPath_takes : Takes src N k 1 valueObjectWithPath :=
  (bare_takes valueObjectWithPathData_takes.focus).less

section Response

variable {req : Request}

theorem returnValue_takes : Takes src N k 1 (returnValue req) :=
  (bare_takes (returnValueData_takes.focus.act _)).less

theorem methodRespContent_takes : Takes src N k 0 (methodRespContent req) :=
  .choice <|
    .arm rfl error_takes.weaken.focus.resumes <|
    .arm rfl (Follows.seq (.optional rfl returnValue_takes.focus.resumes)
      (.many rfl paramValue_takes.focus.resumes)).resumes <|
    .arm rfl takes_pure.resumes <|
    .parseError

theorem results_resumes {σ : Type} [Store Tok σ] {tag : Tag} {get : ParseUnion → σ} {set : σ → ParseUnion}
    {p : Production σ} {result : σ → Except Fault (CMPIValue × CMPIType)} (h : Takes src N k 1 p) :
    Resumes src N k 0 (results tag get set p result) :=
  .loop rfl (h.focus.act _).resumes

theorem getPropertyRetValue_takes : Takes src N k 1 (getPropertyRetValue req) :=
  .choice <|
    .arm rfl ((value_takes instance_takes).less.focus.act _).resumes <|
    .arm rfl (valueArray_takes instance_takes).less.focus.resumes <|
    .arm rfl (valueReference_takes instanceName_takes).less.focus.resumes <|
    .parseError

theorem iReturnValueContent_takes : Takes src N k 0 (iReturnValueContent req) :=
  .choice <|
    .arm rfl (results_resumes class_takes) <|
    .arm rfl (results_resumes className_takes) <|
    .arm rfl (results_resumes instance_takes) <|
    .arm rfl (results_resumes instanceName_takes) <|
    .arm rfl (results_resumes valueNamedInstance_takes) <|
    .arm rfl (results_resumes objectPath_takes) <|
    .arm rfl (.loop rfl valueObjectWithPath_takes.focus.resumes) <|
    .arm rfl getPropertyRetValue_takes.weaken.resumes <|
    .arm rfl takes_pure.resumes <|
    .parseError

theorem iReturnValue_takes : Takes src N k 1 (iReturnValue req) :=
  (withLocal_takes iReturnValueContent_takes).less

theorem iMethodRespContent_takes : Takes src N k 1 (iMethodRespContent req) :=
  .choice <|
    .arm rfl error_takes.focus.resumes <|
    .arm rfl iReturnValue_takes.focus.resumes <|
    .parseError

theorem exParamValue_takes : Takes src N k 1 (exParamValue req) :=
  (withLocal_takes (Follows.optional rfl (instance_takes.focus.act _).resumes).takes).less

theorem around_takes [Store Tok σ] {tag : Tag} {expOpening expClosing : String} {p : Production σ} (h : Takes src N k n p) :
    Takes src N k 1 (around tag expOpening expClosing p) :=
  (bare_takes h.focus).less

theorem simpleRspContent_takes : Takes src N k 1 (simpleRspContent req) :=
  .choice <|
    .arm rfl ((methodRespContent_takes.act _).element Kind.noConfusion Kind.noConfusion).less.resumes <|
    .arm rfl (withLocal_takes iMethodRespContent_takes).less.resumes <|
    .parseError

theorem messageContent_takes : Takes src N k 1 (messageContent req) :=
  .choice <|
    .arm rfl (around_takes simpleRspContent_takes).resumes <|
    .arm rfl (around_takes (around_takes exParamValue_takes)).resumes <|
    .parseError

theorem cim_takes : Takes src N k 1 (cim req) :=
  around_takes (around_takes messageContent_takes)

theorem start_takes : Takes src N k 1 (start req) :=
  ((bare_takes takes_pure).less : Takes src N k 1 (bare .XML "XTOK_XML" "ZTOK_XML" pure)).seq cim_takes

end Response

end Grammar

section

variable {xb xb' : XmlBuffer} {t : Tok}

-- The cursor can move that far, and the end of an element can be pending.
def callsLeft (xb : XmlBuffer) : ℕ :=
  2 * xb.rest.length + if xb.eTagFound then 1 else 0

theorem callsLeft_lt (h : sfccLex xb = .ok (t, xb')) (ht : t ≠ .none) : callsLeft xb' < callsLeft xb := by
  have hle : callsLeft xb' ≤ 2 * xb'.rest.length + 1 := by
    rw [callsLeft]
    split <;> omega
  obtain ⟨hf, _, hx⟩ | ⟨hn, _⟩ | hlt := sfccLex_advances h
  · have hr : xb.nextTag.2.rest.length ≤ xb.rest.length := nextTag_length rfl
    rw [hx, callsLeft, callsLeft, hf]
    simp only [Bool.false_eq_true, if_false, if_true]
    omega
  · exact absurd hn ht
  · have : 2 * xb.rest.length ≤ callsLeft xb := Nat.le_add_right ..
    omega

theorem sfccLexs_cons (h : sfccLex xb = .ok (t, xb')) (ht : t ≠ .none) (n : ℕ) :
    sfccLexs (n + 1) xb = t :: sfccLexs n xb' := by
  cases t with
  | none        => exact absurd rfl ht
  | X _ _ | Z _ => simp only [sfccLexs, h]

theorem sfccLexs_nil (h : ∀ t xb', sfccLex xb = .ok (t, xb') → t = .none) (n : ℕ) : sfccLexs n xb = [] := by
  cases n with
  | zero   => rfl
  | succ n =>
    cases hx : sfccLex xb with
    | error e => simp only [sfccLexs, hx]
    | ok y    =>
      obtain ⟨t, xb'⟩ := y
      cases h t xb' hx
      simp only [sfccLexs, hx]

theorem sfccLexs_fuel {n m : ℕ} (hn : callsLeft xb ≤ n) (hm : callsLeft xb ≤ m) : sfccLexs n xb = sfccLexs m xb := by
  induction n generalizing xb m with
  | zero      =>
    refine (sfccLexs_nil (fun t xb' h => ?_) m).symm
    by_contra ht
    have := callsLeft_lt h ht
    omega
  | succ n hi =>
    by_cases hx : ∃ t xb', sfccLex xb = .ok (t, xb') ∧ t ≠ .none
    · obtain ⟨t, xb', h, ht⟩ := hx
      have hlt := callsLeft_lt h ht
      cases m with
      | zero   => exact absurd hm (by omega)
      | succ m => rw [sfccLexs_cons h ht, sfccLexs_cons h ht, @hi xb' m (by omega) (by omega)]
    · have hnil : ∀ t xb', sfccLex xb = .ok (t, xb') → t = .none := by
        intro t xb' h
        by_contra ht
        exact hx ⟨t, xb', h, ht⟩
      rw [sfccLexs_nil hnil, sfccLexs_nil hnil]

theorem sfccLexs_length (n : ℕ) (xb : XmlBuffer) : (sfccLexs n xb).length ≤ n := by
  induction n generalizing xb with
  | zero      => exact Nat.le_refl 0
  | succ n hi =>
    rw [sfccLexs]
    split
    · exact Nat.zero_le _
    · exact Nat.succ_le_succ (hi _)
    · exact Nat.zero_le _

end

-- The lexer of the parser.
def xmlSource : Source XmlBuffer Tok LexEnd where
  lexer          := sfccLex
  tokens xb      := sfccLexs (callsLeft xb) xb
  cons {xb _ t} h ht := by
    have hlt := callsLeft_lt h ht
    obtain ⟨n, hn⟩ : ∃ n, callsLeft xb = n + 1 := ⟨callsLeft xb - 1, by omega⟩
    rw [hn, sfccLexs_cons h ht, sfccLexs_fuel (by omega : _ ≤ n) (Nat.le_refl _)]
  nil h          := sfccLexs_nil h _

-- The parser before `startParsing`: what was lexed before that does not matter.
abbrev startingWith (ct : Tok) (text : Text) : Driver XmlBuffer Tok LexEnd where
  source  := newXmlBuffer text
  current := ct

theorem startingWith_tokens {ct : Tok} {text : Text} : xmlSource.tokens (startingWith ct text).source = tokens text :=
  rfl

theorem startingWith_ahead {ct : Tok} {text : Text} : Ahead xmlSource (startingWith ct text) ⟨tokens text, ct, false⟩ where
  current    := rfl
  pushedBack := rfl
  going _    := startingWith_tokens.symm
  ended hg   := absurd (fun r hr => absurd hr (Option.not_mem_none r)) hg

-- A run that has a response has the one that is parsed from the tokens of the text.
theorem scanResponse_eq {req : Request} {text : Text} {hdr : ResponseHdr} {d : Driver XmlBuffer Tok LexEnd}
    (h : Runs xmlSource (Grammar.start req {}) (startingWith .none text) (.ok hdr) d) (hd : d.Once) :
    scanResponse req (tokens text) = .ok hdr := by
  obtain ⟨r, hr, _⟩ := h.parses hd startingWith_ahead
  rw [scanResponse, hr]
  rfl

-- Every text is parsed to an end, within as many calls of the lexer as it has tokens.
theorem start_runs (req : Request) (hdr : ResponseHdr) (ct : Tok) (text : Text) : ∃ o d,
    Runs xmlSource (Grammar.start req hdr) (startingWith ct text) o d ∧ Descent.Bounded (tokens text).length d := by
  have hl : Live xmlSource (tokens text).length (startingWith ct text) :=
    ⟨fun _ hr => absurd hr List.not_mem_nil, (Nat.zero_add _).le⟩
  obtain ⟨o, d, hr, hb, _⟩ := Grammar.start_takes hdr _ hl (Nat.lt_succ_self _)
  exact ⟨o, d, hr, hb⟩

theorem startParsing_ends (req : Request) (hdr : ResponseHdr) (ct : Tok) (text : Text) :
    (∃ o d, Runs xmlSource (Grammar.start req hdr) (startingWith ct text) o d ∧
      d.log.length ≤ 2 * text.length + 1 ∧ ∀ r ∈ d.log.tail, ∃ t, r = .ok t ∧ t ≠ .none) ∧
    ∀ xb,
      (∀ n, xb.rest.length < n → sfccLexN n xb = sfccLex xb) ∧
      ∀ t xb', sfccLex xb = .ok (t, xb') →
        (xb'.rest.length < xb.rest.length ∨ xb.eTagFound ∧ ¬ xb'.eTagFound ∨ t = .none) ∧
        (xb'.eTagFound → xb.eTagFound ∨ xb'.rest.length < xb.rest.length) ∧
        xb'.rest.length ≤ xb.rest.length := by
  constructor
  · obtain ⟨o, d, hr, hb⟩ := start_runs req hdr ct text
    have hn : (tokens text).length ≤ 2 * text.length := sfccLexs_length _ _
    exact ⟨o, d, hr, Nat.le_trans hb.calls (Nat.succ_le_succ hn), hb.once⟩
  · refine fun xb => ⟨fun n => sfccLexN_eq, fun t xb' h => ?_⟩
    obtain ⟨hf, _, hx⟩ | ⟨hn, hle, he⟩ | hlt := sfccLex_advances h
    · have hr : xb.nextTag.2.rest.length ≤ xb.rest.length := nextTag_length rfl
      rw [hx]
      exact ⟨.inr (.inl ⟨hf, Bool.false_ne_true⟩), fun hf => absurd hf Bool.false_ne_true, hr⟩
    · exact ⟨.inr (.inr hn), fun hf => .inl (he ▸ hf), hle⟩
    · exact ⟨.inl hlt, fun _ => .inr hlt, Nat.le_of_lt hlt⟩

end Sfcc.Xml
