import Sfcc.Theorems.Xml.Extends

-- Elements without content, and the same elements with a start tag and an end tag.
namespace Sfcc.Xml

-- A text that is read as attributes up to its end.
def AttrsRead (elm : List String) (a : Text) (as : List XmlAttr) : Prop :=
  (∀ c ∈ a.head?, isWS c) ∧ ∃ xb, xb.rest = [] ∧
    XmlBuffer.attributes (elm.map bytes).length ((elm.map bytes).map ({ name := · })) (newXmlBuffer a) = .ok (as, xb)

-- Attributes the `proc` function of an element does not go on with.
def Refused (tag : Text) (attr : ℕ → Option Text) : Prop :=
  (tag = bytes "EXPMETHODCALL" ∨ tag = bytes "EXPPARAMVALUE") ∧ attr 0 = none ∨
    tag = bytes "PARAMVALUE" ∧ (attr 2).any fun a =>
      ¬ (sameIgnoringCase a (bytes "instance") ∨ sameIgnoringCase a (bytes "object"))

-- The same tokens, up to the difference between no text and one without a byte.
def SameTokens (xb xb' : XmlBuffer) : Prop :=
  ∀ n, (results n xb).map (Except.map Tok.blank) = (results n xb').map (Except.map Tok.blank)

section

variable {e : Tags} {tag : String} {elm : List String} {etag etag' : Tok} {token : (ℕ → Option Text) → Proc}
variable {a b rest : Text} {as : List XmlAttr} {attr : ℕ → Option Text}

theorem AttrsRead.attributes (h : AttrsRead elm a as) (hn : AttrNames (elm.map bytes)) {c : UInt8} (hc : XmlBuffer.Ends c)
    (b r : Text) (etag : Tok) : ∃ b' etag', XmlBuffer.attributes (elm.map bytes).length ((elm.map bytes).map ({ name := · }))
      ⟨b, a ++ c :: r, false, false, etag⟩ = .ok (as, ⟨b', c :: r, false, false, etag'⟩) := by
  have ⟨_, xb, hr, ha⟩ := h
  have hp : XmlBuffer.Parted [] (c :: r) := ⟨nofun, fun d hd => Option.some.inj hd ▸ hc, List.not_mem_nil, List.not_mem_nil⟩
  have hx : (newXmlBuffer a).Extends [] (c :: r) ⟨b, a ++ c :: r, false, false, etag⟩ :=
    ⟨⟨a, (List.append_nil a).symm, rfl⟩, ⟨rfl, rfl⟩, rfl, rfl⟩
  have hnames : ∀ x ∈ (elm.map bytes).map ({ name := · } : Text → XmlAttr), x.name.all isalnum := by
    intro x hx
    have ⟨n, hm, he⟩ := List.mem_map.mp hx
    exact he ▸ (hn.left n hm).right
  obtain ⟨⟨as', b', r', nulled, eTag, etag'⟩, ha', he, hu⟩ := hx.attributes hp _ hnames _ ha
  have has : as' = as := he
  have hrest : r' = c :: r := by
    have ⟨w, hs, ht⟩ := hu.text
    have hw : w = [] := by rw [← hr, hs, List.append_nil]
    exact ht.trans (by rw [hw, List.nil_append])
  have hnulled : nulled = false := hu.nulledChar.right
  have heTag : eTag = false := hu.eTagFound.right
  subst has hrest hnulled heTag
  exact ⟨b', etag', ha'⟩

theorem AttrsRead.self (h : AttrsRead elm a as) (hn : AttrNames (elm.map bytes)) (t b r : Text) (etag etag' : Tok) : ∃ b',
    XmlBuffer.attrsOk (elm.map bytes) t etag' ⟨b, a ++ 47 :: 62 :: r, false, false, etag⟩ =
      .ok (fun n => as[n]?.bind (·.attr), ⟨b', r, false, true, etag'⟩) := by
  have ⟨b', etag₁, ha⟩ := h.attributes hn (.inl rfl) b (62 :: r) etag
  refine ⟨62 :: 47 :: b', ?_⟩
  simp only [XmlBuffer.attrsOk, ha, bind, Except.bind]
  rfl

theorem AttrsRead.start (h : AttrsRead elm a as) (hn : AttrNames (elm.map bytes)) (t b r : Text) (etag etag' : Tok) :
    ∃ b' etag₁, XmlBuffer.attrsOk (elm.map bytes) t etag' ⟨b, a ++ 62 :: r, false, false, etag⟩ =
      .ok (fun n => as[n]?.bind (·.attr), ⟨62 :: b', r, false, false, etag₁⟩) := by
  have ⟨b', etag₁, ha⟩ := h.attributes hn (.inr rfl) b r etag
  have hs : XmlBuffer.getChars (bytes "/>") ⟨b', 62 :: r, false, false, etag₁⟩ = none := rfl
  refine ⟨b', etag₁, ?_⟩
  simp only [XmlBuffer.attrsOk, ha, bind, Except.bind, hs]
  rfl

-- The first byte behind the name of the element.
theorem AttrsRead.parts (h : AttrsRead elm a as) {c : UInt8} (hc : XmlBuffer.Ends c) (r : Text) :
    ∃ d, Parts d ∧ ∃ r', a ++ c :: r = d :: r' := by
  have hw := h.left
  cases a with
  | nil      => exact ⟨c, .inr hc, r, rfl⟩
  | cons d a => exact ⟨d, .inl (hw d rfl), a ++ c :: r, rfl⟩

variable {xb : XmlBuffer}

theorem lex_self (hs : Shape e tag elm etag token) (hk : Known e) (ha : AttrsRead elm a as)
    (hr : Ready (60 :: (e.tag ++ (a ++ 47 :: 62 :: rest))) xb) : ∃ b,
      sfccLex xb = token (fun n => as[n]?.bind (·.attr)) ⟨b, rest, false, true, etag⟩ := by
  have ⟨c, hc, r, he⟩ := ha.parts (.inl rfl) (62 :: rest)
  rw [hs.eq] at hk
  rw [he, hs.name] at hr
  have ⟨b, hb⟩ := procTag_process hk hc hr
  have ⟨b', hat⟩ := ha.self hs.names (bytes tag) b rest xb.etag etag
  rw [he] at hat
  exact ⟨b', by rw [hb, hat]; rfl⟩

theorem lex_tag (hs : Shape e tag elm etag token) (hk : Known e) (ha : AttrsRead elm a as)
    (hr : Ready (60 :: (e.tag ++ (a ++ 62 :: rest))) xb) : ∃ b etag',
      sfccLex xb = token (fun n => as[n]?.bind (·.attr)) ⟨62 :: b, rest, false, false, etag'⟩ := by
  have ⟨c, hc, r, he⟩ := ha.parts (.inr rfl) rest
  rw [hs.eq] at hk
  rw [he, hs.name] at hr
  have ⟨b, hb⟩ := procTag_process hk hc hr
  have ⟨b', etag', hat⟩ := ha.start hs.names (bytes tag) b rest xb.etag etag
  rw [he] at hat
  exact ⟨b', etag', by rw [hb, hat]; rfl⟩

-- No content is read where the element ended or the next tag begins.
theorem TokenKind.stays (h : TokenKind tag token) (attr : ℕ → Option Text) {xb xb' : XmlBuffer} (he : xb.eTagFound)
    (hr : xb'.rest.head? = some 60) (he' : xb'.eTagFound = false) :
    Refused (bytes tag) attr ∧ (∃ f, token attr xb = .error f ∧ token attr xb' = .error f) ∨
      ¬ Refused (bytes tag) attr ∧
        ∃ t t', token attr xb = .ok (t, xb) ∧ token attr xb' = .ok (t', xb') ∧ t.blank = t'.blank := by
  have hpicky (hp : bytes tag ∉ picky) : ¬ Refused (bytes tag) attr := by
    simp only [picky, List.mem_cons, List.not_mem_nil, or_false, not_or] at hp
    rintro (⟨ht | ht, _⟩ | ⟨ht, _⟩)
    · exact hp.left ht
    · exact hp.right.left ht
    · exact hp.right.right ht
  cases h with
  | element t hp _      => exact .inr ⟨hpicky hp, _, _, rfl, rfl, rfl⟩
  | content t hp hb _ _ =>
    have hc : xb.getContent = .ok (none, xb) := by
      simp [XmlBuffer.getContent, he, pure, Except.pure]
    have hc' : xb'.getContent = .ok (some [], xb') := by
      have ht : xb'.rest.takeWhile (fun c => !decide (c = 60)) = [] := by
        generalize xb'.rest = s at hr
        cases s with
        | nil      => cases hr
        | cons c s =>
          cases hr
          rfl
      simp [XmlBuffer.getContent, he', ht, pure, Except.pure]
    refine .inr ⟨hpicky hp, t attr none, t attr (some []), ?_, ?_, hb attr⟩
    · simp only [hc, bind, Except.bind, pure, Except.pure]
    · simp only [hc', bind, Except.bind, pure, Except.pure]
  | named name t ht _   =>
    have hp : bytes tag ≠ bytes "PARAMVALUE" := by
      cases ht with
      | inl ht => rw [ht]; decide
      | inr ht => rw [ht]; decide
    cases ha : attr 0 with
    | none   =>
      have hr : Refused (bytes tag) attr := .inl ⟨ht.imp (congrArg bytes) (congrArg bytes), ha⟩
      exact .inl ⟨hr, .null, by simp only [ha]; rfl, by simp only [ha]; rfl⟩
    | some n =>
      have hr : ¬ Refused (bytes tag) attr := by
        rintro (⟨_, hn⟩ | ⟨ht, _⟩)
        · cases ha.symm.trans hn
        · exact hp ht
      exact .inr ⟨hr, _, _, by simp only [ha]; rfl, by simp only [ha]; rfl, rfl⟩
  | paramValue          =>
    have hne : bytes "PARAMVALUE" ≠ bytes "EXPMETHODCALL" ∧ bytes "PARAMVALUE" ≠ bytes "EXPPARAMVALUE" := by decide
    have hiff : Refused (bytes "PARAMVALUE") attr ↔ (attr 2).any fun a =>
        ¬ (sameIgnoringCase a (bytes "instance") ∨ sameIgnoringCase a (bytes "object")) := by
      simp [Refused, hne]
    cases ha : attr 2 with
    | none   =>
      rw [ha] at hiff
      exact .inr ⟨fun hr => absurd (hiff.mp hr) Bool.false_ne_true, _, _, by simp only [ha]; rfl, by simp only [ha]; rfl, rfl⟩
    | some a =>
      rw [ha, Option.any_some, decide_eq_true_eq] at hiff
      by_cases hs : sameIgnoringCase a (bytes "instance") ∨ sameIgnoringCase a (bytes "object")
      · let t : Tok := .X .PARAMVALUE { name := attr 0, type := .inst }
        refine .inr ⟨fun hr => hiff.mp hr hs, t, t, ?_, ?_, rfl⟩
        all_goals
          simp only [ha, if_pos hs]
          rfl
      · refine .inl ⟨hiff.mpr hs, .exit, ?_, ?_⟩
        all_goals
          simp only [ha, if_neg hs]
          rfl

theorem sameTokens_error {xb xb' : XmlBuffer} {f : LexEnd} (h : sfccLex xb = .error f) (h' : sfccLex xb' = .error f) :
    SameTokens xb xb' := by
  intro n
  cases n with
  | zero   => rfl
  | succ n => simp only [results, h, h']

theorem sameTokens_iff {xb xb' xb₁ xb₁' : XmlBuffer} {t t' : Tok} (h : sfccLex xb = .ok (t, xb₁))
    (h' : sfccLex xb' = .ok (t', xb₁')) : SameTokens xb xb' ↔ t.blank = t'.blank ∧ SameTokens xb₁ xb₁' :=
  results_iff Tok.blank h h'

-- The end of the element comes out if another tag follows.
theorem lex_pending (h : (rest.dropWhile isWS).head? = some 60) (b : Text) (etag : Tok) : ∃ xb,
    sfccLex ⟨b, rest, false, true, etag⟩ = .ok (etag, xb) ∧ Ready rest xb := by
  let xb : XmlBuffer := ⟨b, rest, false, true, etag⟩
  have hr : xb.skipWS.rest = rest.dropWhile isWS := XmlBuffer.skipWS_rest xb
  have hx : xb.nextTag = (some xb.skipWS.rest.tail, xb.skipWS) := by
    rw [← hr] at h
    simp [XmlBuffer.nextTag, xb, h]
  refine ⟨{ xb.skipWS with eTagFound := false }, sfccLex_etag hx rfl, ?_, rfl, rfl⟩
  rw [hr, List.dropWhile_idempotent]

theorem lex_lost (h : (rest.dropWhile isWS).head? ≠ some 60) (b : Text) (etag : Tok) : ∃ xb,
    sfccLex ⟨b, rest, false, true, etag⟩ = .ok (.none, xb) := by
  let xb : XmlBuffer := ⟨b, rest, false, true, etag⟩
  have hx : xb.nextTag = (none, xb.skipWS) := by
    rw [← XmlBuffer.skipWS_rest xb] at h
    simp [XmlBuffer.nextTag, xb, h]
  exact ⟨xb.skipWS, sfccLex_none hx⟩

theorem emptyTag_iff (he : (e, elm) ∈ attributed) (ha : AttrsRead elm a as) {xb xb' : XmlBuffer}
    (hx : Ready (60 :: (e.tag ++ (a ++ 47 :: 62 :: rest))) xb)
    (hx' : Ready (60 :: (e.tag ++ (a ++ 62 :: (endTag e.tag ++ rest)))) xb') :
    SameTokens xb xb' ↔ Refused e.tag (fun n => as[n]?.bind (·.attr)) ∨
      e.tag ∉ misnamed ∧ (rest.dropWhile isWS).head? = some 60 := by
  have ⟨tag, etag, token, hs⟩ := attributed_shape he
  have hk := known (mem_elements he)
  have ⟨b, hb⟩ := lex_self hs hk ha hx
  have ⟨b', etag', hb'⟩ := lex_tag hs hk ha hx'
  have hr : (endTag e.tag ++ rest).head? = some 60 := by rw [endTag_append]; rfl
  have hstays := @TokenKind.stays tag token hs.kind (fun n => as[n]?.bind (·.attr)) ⟨b, rest, false, true, etag⟩
    ⟨62 :: b', endTag e.tag ++ rest, false, false, etag'⟩ rfl hr rfl
  rw [← hs.name] at hstays
  obtain ⟨hr, f, hf, hf'⟩ | ⟨hr, t, t', ht, ht', hbl⟩ := hstays
  · exact iff_of_true (sameTokens_error (hb.trans hf) (hb'.trans hf')) (.inl hr)
  · rw [sameTokens_iff (hb.trans ht) (hb'.trans ht')]
    have ⟨b₁, hstop⟩ := @sfccLex_stop e ⟨62 :: b', endTag e.tag ++ rest, false, false, etag'⟩ hk rest ⟨rfl, rfl, rfl⟩
    by_cases hn : (rest.dropWhile isWS).head? = some 60
    · have ⟨xb₁, hend, hready⟩ := lex_pending hn b etag
      have hready' : Ready rest ⟨b₁, rest, false, false, etag'⟩ := ⟨rfl, rfl, rfl⟩
      have hsame : SameTokens xb₁ ⟨b₁, rest, false, false, etag'⟩ :=
        fun n => congrArg _ (results_same (hready.same hready') n)
      rw [sameTokens_iff hend hstop, hs.ends]
      exact ⟨fun h => .inr ⟨h.right.left, hn⟩, fun h => ⟨hbl, (h.resolve_left hr).left, hsame⟩⟩
    -- The token is lost.
    · have ⟨xb₁, hend⟩ := lex_lost hn b etag
      have ⟨k, hz⟩ := hs.closes
      rw [sameTokens_iff hend hstop, hz]
      exact iff_of_false (fun h => absurd h.right.left (by simp [Tok.blank])) fun h => hn (h.resolve_left hr).right

theorem attrsRead_nil (elm : List String) : AttrsRead elm [] ((elm.map bytes).map ({ name := · })) := by
  refine ⟨nofun, newXmlBuffer [], rfl, ?_⟩
  rw [XmlBuffer.attributes.eq_def]
  rfl

theorem emptyTag_iff_value : SameTokens (newXmlBuffer (bytes "<VALUE/></PARAMVALUE>"))
    (newXmlBuffer (bytes "<VALUE></VALUE></PARAMVALUE>")) := by
  have he : (⟨bytes "VALUE", procValue, .Z .VALUE⟩, []) ∈ attributed := List.mem_of_getElem? (i := 19) rfl
  have hx : Ready (60 :: (bytes "VALUE" ++ ([] ++ 47 :: 62 :: bytes "</PARAMVALUE>"))) (newXmlBuffer (bytes "<VALUE/></PARAMVALUE>")) :=
    ⟨rfl, rfl, rfl⟩
  exact (emptyTag_iff he (attrsRead_nil []) hx ⟨rfl, rfl, rfl⟩).mpr (.inr ⟨by decide, rfl⟩)

theorem not_sameTokens_refArray : ¬ ∀ e elm, (e, elm) ∈ attributed → e.tag ≠ bytes "?xml" → ∀ a as, AttrsRead elm a as →
    ∀ xb xb' rest, Ready (60 :: (e.tag ++ (a ++ 47 :: 62 :: rest))) xb →
      Ready (60 :: (e.tag ++ (a ++ 62 :: (endTag e.tag ++ rest)))) xb' → (rest.dropWhile isWS).head? = some 60 →
        SameTokens xb xb' := by
  intro h
  have he : (⟨bytes "VALUE.REFARRAY", procValueRefArray, .Z .VALUEREFARRAY⟩, []) ∈ attributed :=
    List.mem_of_getElem? (i := 17) rfl
  have hs := h _ _ he (by decide) [] _ (attrsRead_nil []) (newXmlBuffer (bytes "<VALUE.REFARRAY/></PARAMVALUE>"))
    (newXmlBuffer (bytes "<VALUE.REFARRAY></VALUE.REFARRAY></PARAMVALUE>")) (bytes "</PARAMVALUE>")
    ⟨rfl, rfl, rfl⟩ ⟨rfl, rfl, rfl⟩ rfl 2
  exact absurd (congrArg (List.map fun r => r.toOption.map Tok.kind) hs) (by decide +kernel)

end

end Sfcc.Xml
