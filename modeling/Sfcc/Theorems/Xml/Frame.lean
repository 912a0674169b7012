import Sfcc.Theorems.Xml.Shapes

-- What is behind the cursor does not change what is lexed.
namespace Sfcc.Xml

-- The same is ahead. The tag that an empty element ends with only counts when there is one.
structure XmlBuffer.Alike (xb xb' : XmlBuffer) : Prop where
  rest       : xb'.rest = xb.rest
  nulledChar : xb'.nulledChar = xb.nulledChar
  eTagFound  : xb'.eTagFound = xb.eTagFound
  etag       : xb.eTagFound → xb'.etag = xb.etag

-- Both runs return, or both end for the same reason.
inductive SameEnd {α : Type} (R : α → α → Prop) : Except LexEnd α → Except LexEnd α → Prop
  | pure {a a'} (h : R a a') : SameEnd R (.ok a) (.ok a')
  | error {e} : SameEnd R (.error e) (.error e)

-- With the same value, and buffers that have the same ahead.
abbrev Same {α : Type} (p p' : α × XmlBuffer) : Prop :=
  p'.1 = p.1 ∧ p.2.Alike p'.2

namespace SameEnd

variable {α β : Type} {R : α → α → Prop} {S : β → β → Prop}

theorem bind {x x' : Except LexEnd α} {f f' : α → Except LexEnd β} (hx : SameEnd R x x')
    (hf : ∀ a a', R a a' → SameEnd S (f a) (f' a')) : SameEnd S (x >>= f) (x' >>= f') := by
  cases hx with
  | pure h => exact hf _ _ h
  | error  => exact .error

theorem returns {x x' : Except LexEnd α} (h : SameEnd R x x') {a : α} (ha : x = .ok a) : ∃ a', x' = .ok a' ∧ R a a' := by
  cases h with
  | pure h =>
    cases ha
    exact ⟨_, rfl, h⟩
  | error  => cases ha

end SameEnd

theorem rel_ite {T : Type} {R : T → T → Prop} {t t' : T} (h : R t t') {c : Prop} [Decidable c] :
    Option.Rel R (if c then some t else none) (if c then some t' else none) := by
  split
  · exact .some h
  · exact .none

namespace XmlBuffer

variable {xb xb' : XmlBuffer}

theorem Alike.advance (h : Alike xb xb') (n : ℕ) : Alike (xb.advance n) (xb'.advance n) where
  rest       := by simp only [XmlBuffer.advance, h.rest]
  nulledChar := h.nulledChar
  eTagFound  := h.eTagFound
  etag       := h.etag

theorem Alike.skipWS (h : Alike xb xb') : Alike xb.skipWS xb'.skipWS := by
  rw [XmlBuffer.skipWS, XmlBuffer.skipWS, h.rest]
  exact h.advance _

theorem skipWS_skipWS : xb.skipWS.skipWS = xb.skipWS := by
  have hn : (xb.rest.dropWhile isWS).takeWhile isWS = [] := by
    rw [List.takeWhile_eq_nil_iff]
    intro hl
    exact List.dropWhile_get_zero_not isWS xb.rest hl
  rw [skipWS, skipWS_rest, hn]
  rfl

theorem Alike.getChars (h : Alike xb xb') (s : Text) : Option.Rel Alike (xb.getChars s) (xb'.getChars s) := by
  rw [XmlBuffer.getChars, XmlBuffer.getChars, h.rest]
  exact rel_ite (h.advance _)

theorem Alike.getWord (h : Alike xb xb') (w : Text) (xCase : Bool) :
    Option.Rel Alike (xb.getWord w xCase) (xb'.getWord w xCase) := by
  simp only [XmlBuffer.getWord, h.rest]
  exact rel_ite (h.advance _)

theorem Alike.nextTag (h : Alike xb xb') : Same xb.nextTag xb'.nextTag := by
  have hs := h.skipWS
  simp only [XmlBuffer.nextTag, h.nulledChar, hs.rest]
  split
  · exact ⟨by rw [h.rest], h.rest, rfl, h.eTagFound, h.etag⟩
  · split
    · exact ⟨rfl, hs⟩
    · exact ⟨rfl, hs⟩

theorem Alike.skipTag (h : Alike xb xb') : SameEnd Alike xb.skipTag xb'.skipTag := by
  simp only [XmlBuffer.skipTag, h.rest]
  split
  · exact .pure (h.advance _)
  · exact .error

theorem Alike.tagEquals (h : Alike xb xb') (t : Text) : SameEnd (Option.Rel Alike) (xb.tagEquals t) (xb'.tagEquals t) := by
  have hc := h.skipWS.getChars [60]
  have hw := (h.advance 1).skipWS.skipWS.getWord t true
  simp only [XmlBuffer.tagEquals, h.rest]
  split
  · exact .error
  · generalize ((xb.advance 1).skipWS.skipWS.getWord t true) = w, ((xb'.advance 1).skipWS.skipWS.getWord t true) = w' at hw
    cases hw with
    | none   => exact .error
    | some h => exact .pure (.some h)
  · generalize xb.skipWS.getChars [60] = w, xb'.skipWS.getChars [60] = w' at hc
    cases hc with
    | none   => exact .pure .none
    | some h => exact .pure (h.skipWS.getWord t true)

theorem Alike.getValue (h : Alike xb xb') : SameEnd Same xb.getValue xb'.getValue := by
  have hs := h.skipWS
  simp only [XmlBuffer.getValue, hs.rest]
  split
  · exact .pure ⟨rfl, hs⟩
  · split
    · split
      · exact .pure ⟨rfl, rfl, hs.nulledChar, hs.eTagFound, hs.etag⟩
      · exact .error
    · exact .pure ⟨rfl, hs⟩

theorem Alike.attrOk (h : Alike xb xb') (as : List XmlAttr) : SameEnd Same (xb.attrOk as) (xb'.attrOk as) := by
  induction as with
  | nil          => exact .error
  | cons a as hi =>
    have hw : Option.Rel Alike (if a.seen then none else xb.getWord a.name false)
        (if a.seen then none else xb'.getWord a.name false) := by
      split
      · exact .none
      · exact h.getWord ..
    rw [XmlBuffer.attrOk, XmlBuffer.attrOk]
    generalize (if a.seen then none else xb.getWord a.name false) = w,
      (if a.seen then none else xb'.getWord a.name false) = w' at hw
    cases hw with
    | none   => exact hi.bind fun p p' hp => .pure ⟨by rw [hp.left], hp.right⟩
    | some h =>
      have hc := h.skipWS.getChars [61]
      simp only
      generalize XmlBuffer.getChars [61] _ = w at hc ⊢
      generalize XmlBuffer.getChars [61] _ = w' at hc ⊢
      cases hc with
      | none   => exact .error
      | some h => exact h.getValue.bind fun p p' hp => .pure ⟨by rw [hp.left], hp.right⟩

theorem Alike.attributes (h : Alike xb xb') (n : ℕ) (as : List XmlAttr) :
    SameEnd Same (xb.attributes n as) (xb'.attributes n as) := by
  induction n generalizing xb xb' as with
  | zero      =>
    have hs := h.skipWS
    simp only [XmlBuffer.attributes, hs.rest]
    split
    · exact .error
    · exact .pure ⟨rfl, hs⟩
  | succ n hi =>
    have hs := h.skipWS
    simp only [XmlBuffer.attributes, hs.rest]
    split
    · exact (hs.attrOk as).bind fun p p' ⟨hp, hu⟩ => hp ▸ hi hu p.1
    · exact .pure ⟨rfl, hs⟩

theorem Alike.empty (h : Alike xb xb') (etag : Tok) : Alike { xb with eTagFound := true, etag } { xb' with eTagFound := true, etag } :=
  { h with eTagFound := rfl, etag := fun _ => rfl }

-- Unless the element ended there, the cursor is right behind a `>`.
def Closed (xb : XmlBuffer) : Prop :=
  xb.eTagFound = false → xb.before.head? = some 62

abbrev SameClosed {α : Type} (p p' : α × XmlBuffer) : Prop :=
  Same p p' ∧ p.2.Closed ∧ p'.2.Closed

theorem closed_getChars (h : xb.getChars (bytes ">") = some xb') : xb'.Closed := by
  intro _
  rw [getChars] at h
  split at h
  · obtain ⟨r, hr⟩ : bytes ">" <+: xb.rest := List.isPrefixOf_iff_prefix.mp ‹_›
    replace hr : xb.rest = 62 :: r := hr.symm
    cases h
    rw [XmlBuffer.advance, hr]
    rfl
  · cases h

-- What closes the tag is read in the same way behind attributes that are the same.
theorem attrsOk_same {elm : List Text} {tag : Text} {etag : Tok}
    (h : SameEnd Same (attributes elm.length (elm.map ({ name := · })) { xb with eTagFound := false })
      (attributes elm.length (elm.map ({ name := · })) { xb' with eTagFound := false })) :
    SameEnd SameClosed (xb.attrsOk elm tag etag) (xb'.attrsOk elm tag etag) := by
  refine h.bind fun p p' ⟨hp, hu⟩ => ?_
  have ⟨as, xb₁⟩ := p
  have ⟨as', xb₁'⟩ := p'
  subst hp
  have h₁ := hu.getChars (bytes "/>")
  have h₂ := hu.getChars (bytes ">")
  have h₃ : Option.Rel Alike (if tag = bytes "?xml" then xb₁.getChars (bytes "?>") else none)
      (if tag = bytes "?xml" then xb₁'.getChars (bytes "?>") else none) := by
    split
    · exact hu.getChars _
    · exact .none
  simp only
  generalize xb₁.getChars (bytes "/>") = w₁, xb₁'.getChars (bytes "/>") = w₁' at h₁ ⊢
  cases h₁ with
  | some h => exact .pure ⟨⟨rfl, h.empty etag⟩, nofun, nofun⟩
  | none   =>
    simp only
    generalize hw : xb₁.getChars (bytes ">") = w₂, hw' : xb₁'.getChars (bytes ">") = w₂' at h₂ ⊢
    cases h₂ with
    | some h => exact .pure ⟨⟨rfl, h⟩, closed_getChars hw, closed_getChars hw'⟩
    | none   =>
      simp only
      generalize (if tag = bytes "?xml" then xb₁.getChars (bytes "?>") else none) = w₃,
        (if tag = bytes "?xml" then xb₁'.getChars (bytes "?>") else none) = w₃' at h₃ ⊢
      cases h₃ with
      | some h => exact .pure ⟨⟨rfl, h.empty etag⟩, nofun, nofun⟩
      | none   => exact .error

theorem Alike.attrsOk (h : Alike xb xb') (elm : List Text) (tag : Text) (etag : Tok) :
    SameEnd SameClosed (xb.attrsOk elm tag etag) (xb'.attrsOk elm tag etag) := by
  have hn : Alike { xb with eTagFound := false } { xb' with eTagFound := false } :=
    { h with eTagFound := rfl, etag := nofun }
  exact attrsOk_same (hn.attributes _ _)

-- The white space that is overwritten ends at the tag.
theorem Closed.nullWS (h : xb.Closed) (he : xb.eTagFound = false) (s : Text) : ∃ b, nullWS (s ++ xb.before) = .ok b := by
  have hb := h he
  generalize xb.before = b at hb
  cases b with
  | nil      => cases hb
  | cons c b =>
    cases hb
    exact nullWS_append s b rfl

theorem Alike.getContent (h : Alike xb xb') (hc : xb.Closed) (hc' : xb'.Closed) : SameEnd Same xb.getContent xb'.getContent := by
  simp only [XmlBuffer.getContent, h.rest, h.eTagFound]
  split
  · exact .pure ⟨rfl, h⟩
  · have he : xb.eTagFound = false := Bool.eq_false_iff.mpr ‹_›
    split
    · exact .pure ⟨rfl, h⟩
    · obtain ⟨b, hb⟩ := hc.nullWS he (xb.rest.take (xb.rest.takeWhile (· ≠ 60)).length).reverse
      obtain ⟨b', hb'⟩ := hc'.nullWS (h.eTagFound.trans he) (xb.rest.take (xb.rest.takeWhile (· ≠ 60)).length).reverse
      simp only [XmlBuffer.advance, h.rest, hb, hb', bind, Except.bind]
      split
      · exact .pure ⟨rfl, rfl, rfl, h.eTagFound, h.etag⟩
      · exact .pure ⟨rfl, rfl, rfl, h.eTagFound, h.etag⟩

end XmlBuffer

-- A function that is called on a buffer.
def Frames (p : Proc) : Prop :=
  ∀ xb xb', XmlBuffer.Alike xb xb' → SameEnd Same (p xb) (p xb')

-- One that is called behind a tag.
def FramesClosed (p : Proc) : Prop :=
  ∀ xb xb', XmlBuffer.Alike xb xb' → xb.Closed → xb'.Closed → SameEnd Same (p xb) (p xb')

section

variable {tag : String} {elm : List String} {etag : Tok}

-- The name of a tag is read in the same way. Nothing is passed if it is another one.
def SameTag (t : Text) (xb xb' : XmlBuffer) : Prop :=
  SameEnd (fun o o' => Option.Rel XmlBuffer.Alike o o' ∧ (o = none → xb.Alike xb')) (xb.tagEquals t) (xb'.tagEquals t)

theorem XmlBuffer.Alike.sameTag {xb xb' : XmlBuffer} (h : xb.Alike xb') (t : Text) : SameTag t xb xb' := by
  have ht := h.tagEquals t
  rw [SameTag]
  generalize xb.tagEquals t = x, xb'.tagEquals t = x' at ht
  cases ht with
  | error   => exact .error
  | pure ht => exact .pure ⟨ht, fun _ => h⟩

theorem procTag_same {token : (ℕ → Option Text) → Proc} (ht : ∀ attr, FramesClosed (token attr)) {xb xb' : XmlBuffer}
    (h : SameTag (bytes tag) xb xb') : SameEnd Same (procTag tag elm etag token xb) (procTag tag elm etag token xb') := by
  refine h.bind fun o o' ⟨ho, hn⟩ => ?_
  cases ho with
  | none   => exact .pure ⟨rfl, hn rfl⟩
  | some h =>
    refine (h.attrsOk _ _ _).bind fun p p' ⟨⟨hp, hu⟩, hc, hc'⟩ => ?_
    have ⟨attr, xb₁⟩ := p
    have ⟨attr', xb₁'⟩ := p'
    subst hp
    exact ht attr' _ _ hu hc hc'

theorem TokenKind.frames {token : (ℕ → Option Text) → Proc} (h : TokenKind tag token) (attr : ℕ → Option Text) :
    FramesClosed (token attr) := by
  intro xb xb' hu hc hc'
  cases h with
  | element    => exact .pure ⟨rfl, hu⟩
  | content    =>
    refine (hu.getContent hc hc').bind fun p p' ⟨hp, hu⟩ => .pure ⟨?_, hu⟩
    rw [hp]
  | named      =>
    simp only
    cases attr 0 with
    | none   => exact .error
    | some n => exact .pure ⟨rfl, hu⟩
  | paramValue =>
    simp only
    cases attr 2 with
    | none   => exact .pure ⟨rfl, hu⟩
    | some a =>
      simp only
      split
      · exact .pure ⟨rfl, hu⟩
      · exact .error

theorem procCdata_same {xb xb' : XmlBuffer} (h : SameTag (bytes "![CDATA[") xb xb') :
    SameEnd Same (procCdata xb) (procCdata xb') := by
  refine h.bind fun o o' ⟨ho, hn⟩ => ?_
  cases ho with
  | none             => exact .pure ⟨rfl, hn rfl⟩
  | @some xb xb' h =>
    have ht : XmlBuffer.Alike { xb with before := xb.before.tail, rest := 62 :: xb.rest }
        { xb' with before := xb'.before.tail, rest := 62 :: xb'.rest } :=
      { h with rest := by rw [h.rest] }
    refine (ht.attrsOk _ _ _).bind fun p p' ⟨⟨_, hu⟩, _⟩ => ?_
    simp only [hu.rest]
    split
    · exact .pure ⟨rfl, hu⟩
    · exact .pure ⟨rfl, { hu with rest := rfl }⟩

-- The name of the tag is read first.
theorem process_same {e : Tags} (he : e ∈ tags) : ∃ t,
    (∀ {xb xb'}, SameTag t xb xb' → SameEnd Same (e.process xb) (e.process xb')) ∧
      ∀ {xb : XmlBuffer} {f}, xb.tagEquals t = .error f → e.process xb = .error f := by
  have hm : e ∈ elements ++ [cdataTag, cdataEnd] := he
  cases List.mem_append.mp hm with
  | inl he =>
    have ⟨tag, _, _, _, hs⟩ := elements_shape he
    rw [hs.process]
    exact ⟨bytes tag, procTag_same hs.kind.frames, fun h => by rw [procTag, h]; rfl⟩
  | inr hc =>
    have hp : e.process = procCdata := by
      cases List.mem_pair.mp hc with
      | inl h => rw [h]; rfl
      | inr h => rw [h]; rfl
    rw [hp]
    exact ⟨bytes "![CDATA[", procCdata_same, fun h => by rw [procCdata, h]; rfl⟩

theorem tags_frames {e : Tags} (he : e ∈ tags) : Frames e.process := by
  have ⟨t, hs, _⟩ := process_same he
  exact fun _ _ h => hs (h.sameTag t)

end

theorem skipComment_frames {xb xb' : XmlBuffer} (h : xb.Alike xb') :
    SameEnd XmlBuffer.Alike (skipComment xb) (skipComment xb') := by
  simp only [skipComment, h.rest]
  split
  · exact .error
  · exact .pure (h.advance _)

theorem sfccLexN_same (n : ℕ) : ∀ xb xb' : XmlBuffer, Same xb.nextTag xb'.nextTag →
    SameEnd Same (sfccLexN n xb) (sfccLexN n xb') := by
  induction n with
  | zero      => exact fun _ _ _ => .error
  | succ n hi =>
    rintro xb xb' ⟨hn, hu⟩
    rw [sfccLexN, sfccLexN]
    generalize xb.nextTag = p, xb'.nextTag = p' at hn hu ⊢
    obtain ⟨next, xb₁⟩ := p
    obtain ⟨next', xb₁'⟩ := p'
    replace hu : xb₁.Alike xb₁' := hu
    subst hn
    cases next' with
    | none      => exact .pure ⟨rfl, hu⟩
    | some next =>
      simp only [hu.eTagFound, hu.rest]
      split
      · exact .pure ⟨hu.etag ‹_›, { hu with rest := rfl, eTagFound := rfl, etag := fun hf => absurd hf Bool.false_ne_true }⟩
      · split
        · split
          · exact hu.skipTag.bind fun _ _ h => .pure ⟨rfl, h⟩
          · exact .pure ⟨rfl, hu⟩
        · split
          · exact (skipComment_frames hu).bind fun _ _ h => hi _ _ h.nextTag
          · split
            · exact tags_frames (List.mem_of_find?_eq_some ‹_›) _ _ hu
            · exact .pure ⟨rfl, hu⟩

theorem nextTag_length {xb xb' : XmlBuffer} {next : Option Text} (h : xb.nextTag = (next, xb')) :
    xb'.rest.length ≤ xb.rest.length := by
  have hs : xb.skipWS.rest.length ≤ xb.rest.length := by
    rw [XmlBuffer.skipWS_rest]
    exact List.length_dropWhile_le ..
  rw [XmlBuffer.nextTag] at h
  split at h
  · cases h
    exact Nat.le_refl _
  · simp only at h
    split at h
    all_goals
      cases h
      exact hs

theorem strstr_length {s t v : Text} (h : strstr s t = some v) : s.length ≤ v.length ∧ v.length ≤ t.length := by
  induction t with
  | nil         => cases h
  | cons c t hi =>
    rw [strstr] at h
    split at h
    · cases h
      exact ⟨(List.isPrefixOf_iff_prefix.mp ‹_›).length_le, Nat.le_refl _⟩
    · have ⟨hs, ht⟩ := hi h
      exact ⟨hs, Nat.le_succ_of_le ht⟩

theorem skipComment_length {xb xb' : XmlBuffer} (h : skipComment xb = .ok xb') : xb'.rest.length < xb.rest.length := by
  rw [skipComment] at h
  cases hs : strstr (bytes "-->") xb.rest with
  | none   =>
    rw [hs] at h
    cases h
  | some v =>
    have ⟨hv, hl⟩ := strstr_length hs
    have h3 : (bytes "-->").length = 3 := rfl
    rw [hs] at h
    cases h
    simp only [XmlBuffer.advance, List.length_drop]
    omega

-- As many turns as there are bytes are enough.
theorem sfccLexN_fuel {n m : ℕ} {xb : XmlBuffer} (hn : xb.rest.length < n) (hm : xb.rest.length < m) :
    sfccLexN n xb = sfccLexN m xb := by
  induction n generalizing m xb with
  | zero      => exact absurd hn (Nat.not_lt_zero _)
  | succ n hi =>
    cases m with
    | zero   => exact absurd hm (Nat.not_lt_zero _)
    | succ m =>
      rw [sfccLexN, sfccLexN]
      cases hx : xb.nextTag with
      | mk next xb₁ =>
        have hl := nextTag_length hx
        have he : skipComment xb₁ >>= sfccLexN n = skipComment xb₁ >>= sfccLexN m := by
          cases hc : skipComment xb₁ with
          | error e => rfl
          | ok xb₂  =>
            have hs := skipComment_length hc
            exact @hi m xb₂ (by omega) (by omega)
        cases next with
        | none      => rfl
        | some next => simp only [he]

theorem sfccLexN_eq {xb : XmlBuffer} {n : ℕ} (hn : xb.rest.length < n) : sfccLexN n xb = sfccLex xb :=
  sfccLexN_fuel hn (Nat.lt_succ_self _)

theorem sfccLex_same {xb xb' : XmlBuffer} (h : Same xb.nextTag xb'.nextTag) : SameEnd Same (sfccLex xb) (sfccLex xb') := by
  have hn : xb.rest.length < xb.rest.length + xb'.rest.length + 1 := by omega
  have hn' : xb'.rest.length < xb.rest.length + xb'.rest.length + 1 := by omega
  rw [← sfccLexN_eq hn, ← sfccLexN_eq hn']
  exact sfccLexN_same _ _ _ h

theorem sfccLex_frames : Frames sfccLex :=
  fun _ _ h => sfccLex_same h.nextTag

-- What the first calls return, up to one that ends the run.
def results : ℕ → XmlBuffer → List (Except LexEnd Tok)
  | 0, _      => []
  | n + 1, xb =>
    match sfccLex xb with
    | .ok (token, xb) => .ok token :: results n xb
    | .error e        => [.error e]

theorem results_same {xb xb' : XmlBuffer} (h : Same xb.nextTag xb'.nextTag) (n : ℕ) : results n xb = results n xb' := by
  induction n generalizing xb xb' with
  | zero      => rfl
  | succ n hi =>
    have hl := sfccLex_same h
    rw [results, results]
    generalize sfccLex xb = x, sfccLex xb' = x' at hl
    cases hl with
    | error               => rfl
    | @pure p p' h =>
      have ⟨t, xb₁⟩ := p
      have ⟨t', xb₁'⟩ := p'
      have ⟨ht, hu⟩ := h
      replace ht : t' = t := ht
      rw [ht]
      simp only [hi hu.nextTag]

theorem results_iff {T : Type} (f : Tok → T) {xb xb' xb₁ xb₁' : XmlBuffer} {t t' : Tok} (h : sfccLex xb = .ok (t, xb₁))
    (h' : sfccLex xb' = .ok (t', xb₁')) :
    (∀ n, (results n xb).map (Except.map f) = (results n xb').map (Except.map f)) ↔
      f t = f t' ∧ ∀ n, (results n xb₁).map (Except.map f) = (results n xb₁').map (Except.map f) := by
  have hr (n : ℕ) : results (n + 1) xb = .ok t :: results n xb₁ := by simp only [results, h]
  have hr' (n : ℕ) : results (n + 1) xb' = .ok t' :: results n xb₁' := by simp only [results, h']
  constructor
  · intro hs
    refine ⟨?_, fun n => ?_⟩
    · have h₁ := hs 1
      rw [hr, hr'] at h₁
      exact Except.ok.inj (List.cons.inj h₁).left
    · have h₁ := hs (n + 1)
      rw [hr, hr'] at h₁
      exact (List.cons.inj h₁).right
  · intro ⟨ht, hs⟩ n
    cases n with
    | zero   => rfl
    | succ n =>
      rw [hr, hr', List.map_cons, List.map_cons, hs n, Except.map, Except.map, ht]

-- White space in front of the next tag does not matter.
theorem Ready.same {text : Text} {xb xb' : XmlBuffer} (h : Ready text xb) (h' : Ready text xb') : Same xb.nextTag xb'.nextTag := by
  have hr : xb'.skipWS.rest = xb.skipWS.rest := by
    rw [XmlBuffer.skipWS_rest, XmlBuffer.skipWS_rest, h.rest, h'.rest]
  have hn : xb'.nulledChar = xb.nulledChar := h'.nulledChar.trans h.nulledChar.symm
  have he : xb'.eTagFound = xb.eTagFound := h'.eTagFound.trans h.eTagFound.symm
  have hu : xb.skipWS.Alike xb'.skipWS := ⟨hr, hn, he, fun hf => absurd (h.eTagFound.symm.trans hf) nofun⟩
  simp only [XmlBuffer.nextTag, h.nulledChar, h'.nulledChar, Bool.false_eq_true, if_false, hr]
  split
  · exact ⟨rfl, hu⟩
  · exact ⟨rfl, hu⟩

-- What a text makes on its own is made behind another one as well.
theorem Calls.alike {xb xb' xb₁ : XmlBuffer} {ts : List Tok} (hc : Calls xb ts xb₁) (h : xb.Alike xb') :
    ∃ xb₁', Calls xb' ts xb₁' ∧ xb₁.Alike xb₁' := by
  induction hc generalizing xb' with
  | nil                => exact ⟨xb', .nil, h⟩
  | cons hl hs _ hi =>
    have ⟨⟨t, xb₂⟩, hl', ht, hu⟩ := (sfccLex_frames _ _ h).returns hl
    subst ht
    have ⟨xb₃, hc, hu⟩ := hi hu
    exact ⟨xb₃, .cons hl' hs hc, hu⟩

-- What is lexed from a buffer on is what is lexed of a text on its own, up to its end.
structure LexedAs (text : Text) (xb : XmlBuffer) : Prop where
  calls {ts xb₁} : Calls (newXmlBuffer text) ts xb₁ → ∃ xb₂, Calls xb ts xb₂
  ends {ts xb₁ xb₁'} : Calls (newXmlBuffer text) ts xb₁ → sfccLex xb₁ = .ok (.none, xb₁') →
    ∃ xb₂ xb₂', Calls xb ts xb₂ ∧ sfccLex xb₂ = .ok (.none, xb₂')

theorem lexedAs (b text : Text) (etag : Tok) : LexedAs text ⟨b, text, false, false, etag⟩ := by
  have h : (newXmlBuffer text).Alike ⟨b, text, false, false, etag⟩ := ⟨rfl, rfl, rfl, nofun⟩
  constructor
  · intro ts xb₁ hc
    have ⟨xb₂, hc, _⟩ := hc.alike h
    exact ⟨xb₂, hc⟩
  · intro ts xb₁ xb₁' hc he
    have ⟨xb₂, hc, hu⟩ := hc.alike h
    have ⟨⟨t, xb₂'⟩, he, ht, _⟩ := (sfccLex_frames _ _ hu).returns he
    have ht : t = .none := ht
    exact ⟨xb₂, xb₂', hc, ht ▸ he⟩

end Sfcc.Xml
