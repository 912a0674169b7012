import Sfcc.Theorems.Xml.Comments
import Sfcc.Theorems.Xml.Layouts
import Sfcc.Theorems.Xml.Response

open Descent (At)

-- The texts of a document, and what is parsed from each of them.
namespace Sfcc.Xml

-- The value of an attribute, if it is there.
def Layout.attr (l : Layout) (elm : List String) (n : ℕ) : Option Text :=
  elm[n]?.bind fun name => (l.attrs.find? (sameIgnoringCase ·.name (bytes name))).map (·.value)

-- The texts of some tokens: tags with their attributes in any layout, with white space and comments between
-- them. An element that the lexer ends with the token of another one has no text in which it is one tag.
inductive Spells : Text → List Tok → Prop
  | nil : Spells [] []
  | blank {s t ts} (blank : ∀ c ∈ s, isWS c) (h : Spells t ts) : Spells (s ++ t) ts
  | comment {c t ts} (closed : strstr (bytes "-->") c = none) (hidden : Hidden c) (h : Spells t ts) :
    Spells (comment c ++ t) ts
  | declaration {l : Layout} {t ts} (sound : l.Sound (["version", "encoding"].map bytes)) (attrs : l.text ≠ [])
    (h : Spells t ts) : Spells (bytes "<?xml" ++ (l.text ++ (bytes "?>" ++ t))) (.X .XML () :: .Z .XML :: ts)
  | start {e : Tags} {l : Layout} {tag elm etag token x t ts} (mem : e ∈ elements) (shape : Shape e tag elm etag token)
    (sound : l.Sound (elm.map bytes)) (made : ∀ xb, token (l.attr elm) xb = .ok (x, xb)) (returned : x ≠ .none) (h : Spells t ts) :
    Spells (60 :: (e.tag ++ (l.text ++ 62 :: t))) (x :: ts)
  | stop {e : Tags} {t ts} (mem : e ∈ elements) (h : Spells t ts) : Spells (endTag e.tag ++ t) (e.etag :: ts)
  | empty {e : Tags} {l : Layout} {tag elm etag token x t ts} (mem : e ∈ elements) (shape : Shape e tag elm etag token)
    (sound : l.Sound (elm.map bytes)) (made : ∀ xb, xb.eTagFound → token (l.attr elm) xb = .ok (x, xb)) (returned : x ≠ .none)
    (named : e.tag ∉ misnamed) (h : Spells t ts) :
    Spells (60 :: (e.tag ++ (l.text ++ 47 :: 62 :: t))) (x :: e.etag :: ts)
  | text {l : Layout} {tag elm token etag s t ts} (mem : ⟨bytes tag, procContent tag elm etag token, etag⟩ ∈ elements)
    (names : AttrNames (elm.map bytes)) (sound : l.Sound (elm.map bytes)) (text : 60 ∉ s)
    (returned : token (l.attr elm) (some (trimmed s)) ≠ .none) (h : Spells t ts) :
    Spells (60 :: (bytes tag ++ (l.text ++ 62 :: (s ++ (endTag (bytes tag) ++ t)))))
      (token (l.attr elm) (some (trimmed s)) :: etag :: ts)
  | cdata {l : Layout} {s body s' t us ts} (sound : l.Sound []) (blank : ∀ c ∈ s, isWS c) (blank' : ∀ c ∈ s', isWS c)
    (inside : Spells body us) (sealed : Sealed body) (head : ∀ c ∈ body.head?, isalnum c = false) (h : Spells t ts) :
    Spells (60 :: (bytes "VALUE" ++ (l.text ++ 62 :: (s ++ (bytes "<![CDATA[" ++ (body ++ (bytes "]]>" ++
        (s' ++ (endTag (bytes "VALUE") ++ t)))))))))
      (.X .VALUE (some []) :: .X .CDATA () :: (us ++ .Z .CDATA :: .Z .VALUE :: ts))

section Attributes

variable {e : Tags} {tag : String} {elm : List String} {etag : Tok} {token : (ℕ → Option Text) → Proc}
variable {l : Layout} {b rest : Text} {xb : XmlBuffer}

-- What is put last stays, but no attribute is put twice.
theorem foldl_put_attr {ws : List Written} (hd : (ws.map (·.name.lower)).Nodup) (as : List XmlAttr) (n : ℕ) :
    ((ws.map (·.meaning)).foldl put as)[n]?.bind (·.attr) =
      as[n]?.bind fun x => ((ws.find? (sameIgnoringCase ·.name x.name)).map (·.value)).or x.attr := by
  induction ws generalizing as with
  | nil          => rfl
  | cons w ws hi =>
    obtain ⟨hw, hd⟩ := List.nodup_cons.mp hd
    rw [List.map_cons, List.foldl_cons, hi hd, put, List.getElem?_map]
    cases as[n]? with
    | none   => rfl
    | some x =>
      rw [Option.map_some, Option.bind_some, Option.bind_some, List.find?_cons]
      by_cases hs : sameIgnoringCase w.name x.name
      · have hn : ws.find? (sameIgnoringCase ·.name x.name) = none := by
          rw [List.find?_eq_none]
          intro w' hw' hs'
          have he : w'.name.lower = w.name.lower := (sameIgnoringCase_iff.mp hs').trans (sameIgnoringCase_iff.mp hs).symm
          exact hw (List.mem_map.mpr ⟨w', hw', he⟩)
        rw [if_pos (show w.meaning.1 = x.name.lower from sameIgnoringCase_iff.mp hs), hs]
        dsimp only
        rw [hn]
        rfl
      · rw [if_neg (show ¬ w.meaning.1 = x.name.lower from fun he => hs (sameIgnoringCase_iff.mpr he)), Bool.eq_false_iff.mpr hs]

theorem meaning_attr (h : l.Sound (elm.map bytes)) :
    (fun n => (l.meaning.foldl put ((elm.map bytes).map ({ name := · })))[n]?.bind (·.attr)) = l.attr elm := by
  funext n
  rw [Layout.meaning, foldl_put_attr h.distinct, Layout.attr, List.getElem?_map, List.getElem?_map]
  cases elm[n]? with
  | none      => rfl
  | some name => exact Option.or_none ..

theorem attrsOk_layout (h : l.Sound (elm.map bytes)) (hn : AttrNames (elm.map bytes)) (t b rest : Text) (etag etag' : Tok) :
    ∃ b', XmlBuffer.attrsOk (elm.map bytes) t etag' ⟨b, l.text ++ 62 :: rest, false, false, etag⟩ =
      .ok (l.attr elm, ⟨62 :: b', rest, false, false, etag⟩) := by
  have ⟨b', ha⟩ := h.attributes hn (show Closes (62 :: rest) from ⟨62, rfl, rfl, rfl⟩) b etag
  have hs : XmlBuffer.getChars (bytes "/>") ⟨b', 62 :: rest, false, false, etag⟩ = none := rfl
  refine ⟨b', ?_⟩
  simp only [XmlBuffer.attrsOk, ha, bind, Except.bind, hs, ← meaning_attr h]
  rfl

theorem attrsOk_layout_self (h : l.Sound (elm.map bytes)) (hn : AttrNames (elm.map bytes)) (t b rest : Text) (etag etag' : Tok) :
    ∃ b', XmlBuffer.attrsOk (elm.map bytes) t etag' ⟨b, l.text ++ 47 :: 62 :: rest, false, false, etag⟩ =
      .ok (l.attr elm, ⟨b', rest, false, true, etag'⟩) := by
  have ⟨b', ha⟩ := h.attributes hn (show Closes (47 :: 62 :: rest) from ⟨47, rfl, rfl, rfl⟩) b etag
  refine ⟨62 :: 47 :: b', ?_⟩
  simp only [XmlBuffer.attrsOk, ha, bind, Except.bind, ← meaning_attr h]
  rfl

theorem lex_layout (hs : Shape e tag elm etag token) (he : e ∈ elements) (hl : l.Sound (elm.map bytes))
    (hr : Ready (60 :: (e.tag ++ (l.text ++ 62 :: rest))) xb) :
    ∃ b, sfccLex xb = token (l.attr elm) ⟨62 :: b, rest, false, false, xb.etag⟩ := by
  have ⟨c, r, hc, hr'⟩ := hl.parts (show ∃ c r, Parts c ∧ 62 :: rest = c :: r from ⟨62, rest, by decide, rfl⟩)
  have hk := known he
  rw [hs.eq] at hk
  rw [hs.name, hr'] at hr
  have ⟨b, hb⟩ := procTag_process hk hc hr
  have ⟨b', ha⟩ := attrsOk_layout hl hs.names (bytes tag) b rest xb.etag etag
  rw [hr'] at ha
  exact ⟨b', by rw [hb, ha]; rfl⟩

theorem lex_layout_self (hs : Shape e tag elm etag token) (he : e ∈ elements) (hl : l.Sound (elm.map bytes))
    (hr : Ready (60 :: (e.tag ++ (l.text ++ 47 :: 62 :: rest))) xb) :
    ∃ b, sfccLex xb = token (l.attr elm) ⟨b, rest, false, true, etag⟩ := by
  have ⟨c, r, hc, hr'⟩ := hl.parts (show ∃ c r, Parts c ∧ 47 :: 62 :: rest = c :: r from ⟨47, 62 :: rest, by decide, rfl⟩)
  have hk := known he
  rw [hs.eq] at hk
  rw [hs.name, hr'] at hr
  have ⟨b, hb⟩ := procTag_process hk hc hr
  have ⟨b', ha⟩ := attrsOk_layout_self hl hs.names (bytes tag) b rest xb.etag etag
  rw [hr'] at ha
  exact ⟨b', by rw [hb, ha]; rfl⟩

end Attributes

-- How a text is read: a call that goes past a comment returns what the one behind it does.
inductive Leads : XmlBuffer → List Tok → Text → Prop
  | ready {xb rest} (h : Ready rest xb) : Leads xb [] rest
  | skip {xb xb' ts rest} (same : sfccLex xb = sfccLex xb') (h : Leads xb' ts rest) : Leads xb ts rest
  | call {xb xb' t ts rest} (call : sfccLex xb = .ok (t, xb')) (some : t ≠ .none) (h : Leads xb' ts rest) :
    Leads xb (t :: ts) rest

namespace Leads

variable {xb : XmlBuffer} {ts us : List Tok} {rest rest' : Text}

theorem append (h : Leads xb ts rest) (h' : ∀ xb', Ready rest xb' → Leads xb' us rest') : Leads xb (ts ++ us) rest' := by
  induction h with
  | ready hr           => exact h' _ hr
  | skip hs _ hi       => exact .skip hs (hi h')
  | call hc hs _ hi    => exact .call hc hs (hi h')

theorem sfccLexs_same {xb xb' : XmlBuffer} (h : sfccLex xb = sfccLex xb') (n : ℕ) : sfccLexs n xb = sfccLexs n xb' := by
  cases n with
  | zero   => rfl
  | succ n => simp only [sfccLexs, h]

theorem sfccLexs_eq (h : Leads xb ts rest) {n : ℕ} (hn : ts.length ≤ n) :
    ∃ xb', Ready rest xb' ∧ sfccLexs n xb = ts ++ sfccLexs (n - ts.length) xb' := by
  induction h generalizing n with
  | ready hr                 => exact ⟨_, hr, rfl⟩
  | skip hs _ hi             =>
    have ⟨xb', hr, he⟩ := hi hn
    exact ⟨xb', hr, (sfccLexs_same hs n).trans he⟩
  | @call _ _ t ts _ hc hs _ hi =>
    cases n with
    | zero   => cases hn
    | succ n =>
      have ⟨xb', hr, he⟩ := hi (Nat.le_of_succ_le_succ hn)
      refine ⟨xb', hr, ?_⟩
      rw [List.length_cons, Nat.add_sub_add_right]
      cases t with
      | none          => exact absurd rfl hs
      | X _ _ | Z _   => simp only [sfccLexs, hc, he, List.cons_append]

end Leads

theorem Calls.leads {xb xb' : XmlBuffer} {ts : List Tok} {rest : Text} (h : Calls xb ts xb') (hr : Ready rest xb') :
    Leads xb ts rest := by
  induction h with
  | nil                => exact .ready hr
  | cons hc hs _ hi    => exact .call hc hs (hi hr)

-- Behind the text of some tokens there is a tag, if there is one in what follows.
theorem Spells.follows {t rest : Text} {ts : List Tok} (h : Spells t ts) (hr : (rest.dropWhile isWS).head? = some 60) :
    ((t ++ rest).dropWhile isWS).head? = some 60 := by
  induction h with
  | nil             => exact hr
  | blank hs _ hi   =>
    rw [List.append_assoc, List.dropWhile_append_of_pos hs]
    exact hi
  | stop _ _ _      =>
    rw [List.append_assoc, endTag_append]
    rfl
  | _               => rfl

theorem Shape.etag_eq {e : Tags} {tag : String} {elm : List String} {etag : Tok} {token : (ℕ → Option Text) → Proc}
    (h : Shape e tag elm etag token) (hn : e.tag ∉ misnamed) : etag = e.etag := by
  have ⟨k, hz⟩ := h.closes
  have hb := h.ends.mpr hn
  rw [hz] at hb ⊢
  cases etag with
  | none    => cases hb
  | Z k'    => exact hb
  | X k' a  => cases k' <;> cases hb

theorem etag_ne {e : Tags} (h : e ∈ elements) : e.etag ≠ .none := by
  have ⟨_, _, _, _, hs⟩ := elements_shape h
  have ⟨k, hz⟩ := hs.closes
  rw [hz]
  exact nofun

section Text

variable {l : Layout} {xb : XmlBuffer} {rest s : Text}

-- The `<` of the next tag is overwritten if there is a byte in front of it.
theorem lex_text {tag : String} {elm : List String} {token : (ℕ → Option Text) → Option Text → Tok} {etag : Tok}
    (he : ⟨bytes tag, procContent tag elm etag token, etag⟩ ∈ elements) (hn : AttrNames (elm.map bytes))
    (hl : l.Sound (elm.map bytes)) (h60 : 60 ∉ s)
    (hr : Ready (60 :: (bytes tag ++ (l.text ++ 62 :: (s ++ 60 :: rest)))) xb) : ∃ b c xb', (c = 60 ∨ c = 0) ∧
      sfccLex xb = .ok (token (l.attr elm) (some (trimmed s)), xb') ∧
      xb'.nextTag = (some rest, ⟨b, c :: rest, false, false, xb.etag⟩) := by
  have ⟨c, r, hc, hr'⟩ := hl.parts (show ∃ c r, Parts c ∧ 62 :: (s ++ 60 :: rest) = c :: r from ⟨62, _, by decide, rfl⟩)
  rw [hr'] at hr
  have ⟨b, hb⟩ := procTag_process (known he) hc hr
  have ⟨b', ha⟩ := attrsOk_layout hl hn (bytes tag) b (s ++ 60 :: rest) xb.etag etag
  rw [hr'] at ha
  have ⟨b₁, hg⟩ := @getContent_append (62 :: b') rest s xb.etag h60 ⟨62, rfl, rfl⟩
  have hx : sfccLex xb = .ok (token (l.attr elm) (some (trimmed s)),
      if s = [] then ⟨b₁, 60 :: rest, false, false, xb.etag⟩ else ⟨b₁, 0 :: rest, true, false, xb.etag⟩) := by
    rw [hb, ha]
    simp only [bind, Except.bind, hg, pure, Except.pure]
  by_cases hs : s = []
  · rw [if_pos hs] at hx
    exact ⟨b₁, 60, _, .inl rfl, hx, rfl⟩
  · rw [if_neg hs] at hx
    exact ⟨b₁, 0, _, .inr rfl, hx, XmlBuffer.nextTag_nulled⟩

theorem lex_declaration (hl : l.Sound (["version", "encoding"].map bytes)) (hne : l.text ≠ [])
    (hr : Ready (bytes "<?xml" ++ (l.text ++ (bytes "?>" ++ rest))) xb) :
    ∃ b, sfccLex xb = .ok (.X .XML (), ⟨b, rest, false, true, .Z .XML⟩) := by
  have hk : Known ⟨bytes "?xml", procElement "?xml" ["version", "encoding"] (.Z .XML) fun _ => .X .XML (), .Z .XML⟩ :=
    known (List.mem_of_getElem? (i := 0) rfl)
  have ⟨c, r, hc, hr'⟩ : ∃ c r, Parts c ∧ l.text ++ (bytes "?>" ++ rest) = c :: r := by
    have ⟨c, r, hc, hr⟩ := hl.parts (show ∃ c r, Parts c ∧ [62] = c :: r from ⟨62, [], by decide, rfl⟩)
    cases ht : l.text with
    | nil      => exact absurd ht hne
    | cons d s =>
      rw [ht] at hr
      cases hr
      exact ⟨_, _, hc, rfl⟩
  rw [hr'] at hr
  have ⟨b, hb⟩ := procTag_process hk hc hr
  have ⟨b', ha⟩ := hl.attributes (by decide) (show Closes (bytes "?>" ++ rest) from ⟨63, rfl, rfl, rfl⟩) b xb.etag
  rw [hr'] at ha
  refine ⟨62 :: 63 :: b', ?_⟩
  rw [hb, XmlBuffer.attrsOk]
  simp only [ha, bind, Except.bind]
  rfl

-- What is in a section is read in front of `</>`, which the lexer has written over its end.
theorem lex_cdata {body after : Text} (hl : l.Sound []) (hs : ∀ c ∈ s, isWS c) (hsl : Sealed body)
    (hh : ∀ c ∈ body.head?, isalnum c = false)
    (hr : Ready (60 :: (bytes "VALUE" ++ (l.text ++ 62 :: (s ++ (bytes "<![CDATA[" ++ (body ++ (bytes "]]>" ++ after))))))) xb) :
    ∃ xb₁ xb₂, sfccLex xb = .ok (.X .VALUE (some []), xb₁) ∧ sfccLex xb₁ = .ok (.X .CDATA (), xb₂) ∧
      Ready (body ++ (bytes "</>" ++ after)) xb₂ := by
  have he : ⟨bytes "VALUE", procContent "VALUE" [] (.Z .VALUE) fun _ v => .X .VALUE v, .Z .VALUE⟩ ∈ elements :=
    List.mem_of_getElem? (i := 19) rfl
  have h60 : 60 ∉ s := fun h => absurd (hs 60 h) (by decide)
  have ⟨b, c, xb₁, hc, hv, hx₁⟩ := @lex_text _ _ (bytes "![CDATA[" ++ (body ++ (bytes "]]>" ++ after))) _ _ _ _ _ he
    (by decide) hl h60 hr
  rw [trimmed_blank hs] at hv
  have ⟨b', hv'⟩ := sfccLex_section hc hsl hh hx₁
  exact ⟨xb₁, _, hv, hv', rfl, rfl, rfl⟩

end Text

-- What is left to be read is found, wherever the text stands.
theorem Spells.leads {t rest : Text} {ts : List Tok} {xb : XmlBuffer} (h : Spells t ts)
    (hrest : (rest.dropWhile isWS).head? = some 60) (hr : Ready (t ++ rest) xb) : Leads xb ts rest := by
  induction h generalizing rest xb with
  | nil                               => exact .ready hr
  | blank hs _ hi                     =>
    rw [List.append_assoc] at hr
    exact hi hrest (hr.dropped (List.dropWhile_append_of_pos hs).symm)
  | comment hc hh _ hi                =>
    rw [List.append_assoc] at hr
    have ⟨xb', hr', he⟩ := sfccLex_hidden hh hc hr
    exact .skip he (hi hrest hr')
  | declaration hl hne h hi           =>
    simp only [List.append_assoc] at hr
    have ⟨b, hb⟩ := lex_declaration hl hne hr
    have ⟨xb', hp, hr'⟩ := lex_pending (h.follows hrest) b (.Z .XML)
    exact .call hb nofun (.call hp nofun (hi hrest hr'))
  | start he hs hl hm hx _ hi         =>
    simp only [List.cons_append, List.append_assoc] at hr
    have ⟨b, hb⟩ := lex_layout hs he hl hr
    exact .call (hb.trans (hm _)) hx (hi hrest ⟨rfl, rfl, rfl⟩)
  | stop he _ hi                      =>
    rw [List.append_assoc] at hr
    have ⟨b, hb⟩ := sfccLex_stop (known he) hr
    exact .call hb (etag_ne he) (hi hrest ⟨rfl, rfl, rfl⟩)
  | @empty e _ _ _ _ _ _ _ _ he hs hl hm hx hn h hi =>
    simp only [List.cons_append, List.append_assoc] at hr
    have ⟨b, hb⟩ := lex_layout_self hs he hl hr
    rw [hs.etag_eq hn] at hb
    have ⟨xb', hp, hr'⟩ := lex_pending (h.follows hrest) b e.etag
    exact .call (hb.trans (hm _ rfl)) hx (.call hp (etag_ne he) (hi hrest hr'))
  | @text l tag elm token etag s t ts he hn hl h60 hx _ hi  =>
    simp only [List.cons_append, List.append_assoc, endTag_append] at hr
    have ⟨b, c, xb₁, hc, hv, hx₁⟩ := lex_text he hn hl h60 hr
    have ⟨b', hend⟩ := sfccLex_endTag (known he).not_mem ((known he).find (by decide) (t ++ rest))
      (by rcases hc with rfl | rfl <;> decide) hx₁
    exact .call hv hx (.call hend (etag_ne he) (hi hrest ⟨rfl, rfl, rfl⟩))
  | @cdata l s body s' t us ts hl hs hs' _ hsl hh _ hi hi'  =>
    have he : ⟨bytes "VALUE", procContent "VALUE" [] (.Z .VALUE) fun _ v => .X .VALUE v, .Z .VALUE⟩ ∈ elements :=
      List.mem_of_getElem? (i := 19) rfl
    simp only [List.cons_append, List.append_assoc] at hr
    have ⟨xb₁, xb₂, hv, hopen, hr₂⟩ := lex_cdata hl hs hsl hh hr
    refine .call hv nofun (.call hopen nofun ((hi rfl hr₂).append fun xb₃ hr₃ => ?_))
    have ⟨b, hclose⟩ := sfccLex_sectionEnd hr₃
    have hr₄ : Ready (endTag (bytes "VALUE") ++ (t ++ rest))
        ⟨b, s' ++ (endTag (bytes "VALUE") ++ (t ++ rest)), false, false, xb₃.etag⟩ :=
      ⟨List.dropWhile_append_of_pos hs', rfl, rfl⟩
    have ⟨b', hend⟩ := sfccLex_stop (known he) hr₄
    exact .call hclose nofun (.call hend nofun (hi' hrest ⟨rfl, rfl, rfl⟩))

theorem Spells.length_le {t : Text} {ts : List Tok} (h : Spells t ts) : ts.length ≤ 2 * t.length := by
  have h₁ : (bytes "<?xml").length = 5 := by decide
  have h₂ : (bytes "<![CDATA[").length = 9 := by decide
  induction h with
  | nil => exact Nat.le_refl _
  | _   =>
    simp only [List.length_append, List.length_cons, endTag] at *
    omega

-- The tag that ends a document is returned whatever comes behind it.
theorem Leads.tokens_eq {s rest : Text} {ts : List Tok} {e : Tags} (h : Leads (newXmlBuffer s) ts (endTag e.tag ++ rest))
    (he : e ∈ elements) (hn : ts.length + 1 ≤ 2 * s.length) : ∃ us, tokens s = ts ++ e.etag :: us := by
  obtain ⟨xb, hr, ht⟩ := h.sfccLexs_eq (Nat.le_of_succ_le hn)
  obtain ⟨b, hend⟩ := sfccLex_stop (known he) hr
  obtain ⟨n, hle⟩ := Nat.exists_eq_add_of_le hn
  have hn : 2 * s.length - ts.length = n + 1 := by omega
  refine ⟨sfccLexs n ⟨b, rest, false, false, xb.etag⟩, ?_⟩
  rw [tokens, ht, hn, sfccLexs, hend]
  obtain ⟨_, _, _, _, hs⟩ := elements_shape he
  obtain ⟨k, hz⟩ := hs.closes
  rw [hz]

theorem Spells.tokens_eq {t : Text} {ts : List Tok} (h : Spells t ts) {e : Tags} (he : e ∈ elements) (rest : Text) :
    ∃ us, tokens (t ++ (endTag e.tag ++ rest)) = ts ++ e.etag :: us := by
  have hrest : ((endTag e.tag ++ rest).dropWhile isWS).head? = some 60 := by
    rw [endTag_append]
    rfl
  have hl : Leads (newXmlBuffer (t ++ (endTag e.tag ++ rest))) ts (endTag e.tag ++ rest) := h.leads hrest ⟨rfl, rfl, rfl⟩
  have hlen := h.length_le
  apply hl.tokens_eq he
  simp only [endTag, List.length_append, List.length_cons]
  omega

-- A text that makes tokens, in a document that is written in any way.
theorem Lexes.tokens_within {text pre post : Text} {ts us vs : List Tok} (h : Lexes text us) (hh : text.head? = some 60)
    (hpre : Spells pre ts) (hpost : Spells post vs) {e : Tags} (he : e ∈ elements) (rest : Text) :
    ∃ ws, tokens (pre ++ (text ++ (post ++ (endTag e.tag ++ rest)))) = ts ++ (us ++ vs) ++ e.etag :: ws := by
  have hend : ((endTag e.tag ++ rest).dropWhile isWS).head? = some 60 := by
    rw [endTag_append]
    rfl
  have hin : ((text ++ (post ++ (endTag e.tag ++ rest))).dropWhile isWS).head? = some 60 := by
    cases text with
    | nil      => cases hh
    | cons c s =>
      cases hh
      rfl
  have hl : Leads (newXmlBuffer (pre ++ (text ++ (post ++ (endTag e.tag ++ rest))))) (ts ++ (us ++ vs)) (endTag e.tag ++ rest) := by
    refine (hpre.leads hin ⟨rfl, rfl, rfl⟩).append fun xb hr => ?_
    obtain ⟨_, hc, hr'⟩ := h.calls hr
    exact (hc.leads hr').append fun _ hr => hpost.leads hend hr
  have h₁ := hpre.length_le
  have h₂ := h.short
  have h₃ := hpost.length_le
  apply hl.tokens_eq he
  simp only [endTag, List.length_append, List.length_cons]
  omega

theorem scanResponse_document (m : Tree.Message) (req : Request) (ts : List Tok) :
    scanResponse req (m.document ++ ts) = (m.result req {}).mapError .fault := by
  have ha : At .any (m.document ++ ts) ({} : ResponseHdr) ({}, ⟨m.document ++ ts, .none, false⟩) := .any_of_fresh
  have h : Descent.Ends .fresh ts (m.result req {}) (Grammar.start req {} ⟨m.document ++ ts, .none, false⟩) :=
    Grammar.start_reads.complete ha (Nat.le_refl _) rfl
  cases hm : m.result req {} with
  | error f =>
    rw [hm] at h
    rw [scanResponse, h]
    rfl
  | ok rh   =>
    rw [hm] at h
    obtain ⟨r, hr, ha⟩ := h
    rw [scanResponse, hr]
    cases ha
    rfl

theorem Spells.scanned {m : Tree.Message} {t : Text} {ts : List Tok} (h : Spells t ts) (hd : m.document = ts ++ [.Z .CIM])
    (rest : Text) :
    ∃ us, tokens (t ++ (endTag (bytes "CIM") ++ rest)) = m.document ++ us := by
  have he : ⟨bytes "CIM", procCim, .Z .CIM⟩ ∈ elements := List.mem_of_getElem? (i := 1) rfl
  obtain ⟨us, ht⟩ := h.tokens_eq he rest
  refine ⟨us, ?_⟩
  rw [ht, hd, List.append_assoc, List.singleton_append]

theorem Spells.of_eq {s t : Text} {ts : List Tok} (h : Spells t ts) (he : s = t) : Spells s ts :=
  he ▸ h

section Note

-- An attribute behind one blank, in these quotes.
def quoted (quote : UInt8) (name value : String) : Written :=
  ⟨[32], bytes name, [], [], quote, bytes value⟩

theorem quoted_sound {elm : List Text} (quote : UInt8) (name value : String) (hq : quote = 34 ∨ quote = 39)
    (hv : quote ∉ bytes value) (ha : ∃ n ∈ elm, sameIgnoringCase (bytes name) n) :
    Layout.Sound elm ⟨[quoted quote name value], []⟩ := by
  refine ⟨List.forall_mem_singleton.mpr ⟨by simp [quoted]; decide, ?_, ?_, hq, hv⟩, List.forall_mem_singleton.mpr ha,
    List.nodup_singleton _, ?_, ?_⟩
  · exact nofun
  · exact nofun
  · rintro _ ⟨⟩
    exact nofun
  · exact nofun

theorem Spells.element {tag : String} {elm : List String} {k : Tag} {token : (ℕ → Option Text) → Tok} {l : Layout}
    {t : Text} {ts : List Tok} (mem : ⟨bytes tag, procElement tag elm (.Z k) token, .Z k⟩ ∈ elements)
    (hp : bytes tag ∉ picky) (hm : bytes tag ∉ misnamed) (hn : AttrNames (elm.map bytes)) (ht : ∀ attr, (token attr).Bare)
    (sound : l.Sound (elm.map bytes)) (returned : token (l.attr elm) ≠ .none) (h : Spells t ts) :
    Spells (60 :: (bytes tag ++ (l.text ++ 62 :: t))) (token (l.attr elm) :: ts) :=
  .start mem ⟨rfl, rfl, hn, .element token hp ht, ends_self hm, k, rfl⟩ sound (fun _ => rfl) returned h

theorem Spells.childless {tag : String} {elm : List String} {k : Tag} {token : (ℕ → Option Text) → Tok} {l : Layout}
    {t : Text} {ts : List Tok} (mem : ⟨bytes tag, procElement tag elm (.Z k) token, .Z k⟩ ∈ elements)
    (hp : bytes tag ∉ picky) (hm : bytes tag ∉ misnamed) (hn : AttrNames (elm.map bytes)) (ht : ∀ attr, (token attr).Bare)
    (sound : l.Sound (elm.map bytes)) (returned : token (l.attr elm) ≠ .none) (h : Spells t ts) :
    Spells (60 :: (bytes tag ++ (l.text ++ 47 :: 62 :: t))) (token (l.attr elm) :: .Z k :: ts) :=
  .empty mem ⟨rfl, rfl, hn, .element token hp ht, ends_self hm, k, rfl⟩ sound (fun _ _ => rfl) returned hm h

theorem Spells.named {tag name : String} {k : Tag} {token : Tok} {l : Layout} {n t : Text} {ts : List Tok}
    (mem : ⟨bytes tag, procNamed tag name (.Z k) token, .Z k⟩ ∈ elements) (hp : tag = "EXPMETHODCALL" ∨ tag = "EXPPARAMVALUE")
    (hm : bytes tag ∉ misnamed) (ht : token.Bare) (sound : l.Sound (["NAME"].map bytes)) (hn : l.attr ["NAME"] 0 = some n)
    (hs : sameIgnoringCase n (bytes name)) (returned : token ≠ .none) (h : Spells t ts) :
    Spells (60 :: (bytes tag ++ (l.text ++ 62 :: t))) (token :: ts) := by
  refine .start mem ⟨rfl, rfl, by decide, .named name token hp ht, ends_self hm, k, rfl⟩ sound (fun xb => ?_) returned h
  rw [hn]
  dsimp only
  rw [if_pos hs]
  rfl

theorem Spells.stopAt {e : Tags} {t : Text} {ts : List Tok} (i : ℕ) (he : elements[i]? = some e) (h : Spells t ts) :
    Spells (endTag e.tag ++ t) (e.etag :: ts) :=
  .stop (List.mem_of_getElem? he) h

theorem bare_sound (elm : List Text) : Layout.Sound elm ⟨[], []⟩ :=
  ⟨nofun, nofun, List.nodup_nil, nofun, nofun⟩

def note : Text :=
  bytes "<?xml version='1.0'?>\n<!-- all --><CIM CIMVERSION=\"2.0\"><MESSAGE ID=\"1\"><SIMPLERSP>" ++
    bytes "<IMETHODRESPONSE NAME='EnumerateClassNames'><IRETURNVALUE><CLASSNAME Name=\"A\"/></IRETURNVALUE>" ++
    bytes "</IMETHODRESPONSE></SIMPLERSP></MESSAGE>"

theorem note_spelled : Spells note (.X .XML () :: .Z .XML :: .X .CIM () :: .X .MESSAGE () :: .X .SIMPLERSP () ::
    .X .IMETHODRESP () :: .X .IRETVALUE () :: .X .CLASSNAME (some (bytes "A")) :: .Z .CLASSNAME :: .Z .IRETVALUE ::
      .Z .IMETHODRESP :: .Z .SIMPLERSP :: .Z .MESSAGE :: []) := by
  have h₀ := Spells.stopAt 6 rfl (.stopAt 5 rfl (.stopAt 3 rfl (.stopAt 2 rfl .nil)))
  have h₁ := Spells.childless (List.mem_of_getElem? (i := 13) rfl) (by decide) (by decide) (by decide) (fun _ => ⟨rfl, rfl⟩)
    (quoted_sound 34 "Name" "A" (.inl rfl) (by decide) (by decide)) nofun h₀
  have h₂ := Spells.element (List.mem_of_getElem? (i := 6) rfl) (by decide) (by decide) (by decide) (fun _ => ⟨rfl, rfl⟩)
    (bare_sound _) nofun h₁
  have h₃ := Spells.element (List.mem_of_getElem? (i := 5) rfl) (by decide) (by decide) (by decide) (fun _ => ⟨rfl, rfl⟩)
    (quoted_sound 39 "NAME" "EnumerateClassNames" (.inr rfl) (by decide) (by decide)) nofun h₂
  have h₄ := Spells.element (List.mem_of_getElem? (i := 3) rfl) (by decide) (by decide) (by decide) (fun _ => ⟨rfl, rfl⟩)
    (bare_sound _) nofun h₃
  have h₅ := Spells.element (List.mem_of_getElem? (i := 2) rfl) (by decide) (by decide) (by decide) (fun _ => ⟨rfl, rfl⟩)
    (quoted_sound 34 "ID" "1" (.inl rfl) (by decide) (by decide)) nofun h₄
  have h₆ := Spells.element (List.mem_of_getElem? (i := 1) rfl) (by decide) (by decide) (by decide) (fun _ => ⟨rfl, rfl⟩)
    (quoted_sound 34 "CIMVERSION" "2.0" (.inl rfl) (by decide) (by decide)) nofun h₅
  have h₇ := Spells.comment (c := bytes " all ") (by decide) (by decide) h₆
  have h₈ := Spells.declaration (l := ⟨[quoted 39 "version" "1.0"], []⟩)
    (quoted_sound 39 "version" "1.0" (.inr rfl) (by decide) (by decide)) (by decide) (.blank (s := [10]) (by decide) h₇)
  exact h₈.of_eq (by decide +kernel)

end Note

end Sfcc.Xml
