import Mathlib.Data.List.Find
import Mathlib.Data.List.Nodup
import Mathlib.Data.List.TakeWhile
import Sfcc.Xml.Lexer

namespace Sfcc.Xml

-- A text up to a byte that is not in it.
theorem takeWhile_ne {t r : Text} {c : UInt8} (ht : c ∉ t) :
    (t ++ c :: r).takeWhile (fun x => !decide (x = c)) = t := by
  rw [List.takeWhile_append_of_pos]
  · simp
  · intro x hx
    have hne : x ≠ c := fun h => ht (h ▸ hx)
    simp [hne]

theorem drop_takeWhile {T : Type} (p : T → Bool) (l : List T) :
    l.drop (l.takeWhile p).length = l.dropWhile p := by
  induction l with
  | nil         => rfl
  | cons c l hi => by_cases hc : p c <;> simp [hc, hi]

-- What the cursor passes.
namespace XmlBuffer

variable {b r s : Text} {nulled eTag : Bool} {etag : Tok}

theorem advance_append :
    advance s.length ⟨b, s ++ r, nulled, eTag, etag⟩ = ⟨s.reverse ++ b, r, nulled, eTag, etag⟩ := by
  simp [advance]

theorem skipWS_rest (xb : XmlBuffer) : xb.skipWS.rest = xb.rest.dropWhile isWS :=
  drop_takeWhile isWS xb.rest

theorem skipWS_append (hs : ∀ c ∈ s, isWS c) (hr : ∀ c ∈ r.head?, isWS c = false) :
    skipWS ⟨b, s ++ r, nulled, eTag, etag⟩ = ⟨s.reverse ++ b, r, nulled, eTag, etag⟩ := by
  have hw : (s ++ r).takeWhile isWS = s := by
    rw [List.takeWhile_append_of_pos hs]
    cases r with
    | nil      => simp
    | cons c r => simp [hr c rfl]
  simp only [skipWS, hw, advance_append]

@[simp]
theorem skipWS_cons {c : UInt8} (hc : isWS c = false) :
    skipWS ⟨b, c :: r, nulled, eTag, etag⟩ = ⟨b, c :: r, nulled, eTag, etag⟩ :=
  skipWS_append (s := []) nofun (by simpa using hc)

theorem getChars_append :
    getChars s ⟨b, s ++ r, nulled, eTag, etag⟩ = some ⟨s.reverse ++ b, r, nulled, eTag, etag⟩ := by
  simp [getChars, advance_append]

theorem getWord_append {xCase : Bool} (hr : ∀ c ∈ r.head?, isalnum c = false) :
    getWord s xCase ⟨b, s ++ r, nulled, eTag, etag⟩ = some ⟨s.reverse ++ b, r, nulled, eTag, etag⟩ := by
  have hn : ((s ++ r).drop s.length).head?.any isalnum = false := by
    cases r with
    | nil      => simp
    | cons c r => simp [hr c rfl]
  have hw : if xCase then (s ++ r).take s.length = s else sameIgnoringCase ((s ++ r).take s.length) s := by
    cases xCase <;> simp [sameIgnoringCase]
  simp only [getWord, hn, hw, advance_append]
  simp

-- A value between quotes.
theorem getValue_append {v : Text} (hv : 34 ∉ v) :
    getValue ⟨b, 34 :: (v ++ 34 :: r), nulled, eTag, etag⟩ =
      .ok (some v, ⟨0 :: (v.reverse ++ 34 :: b), r, nulled, eTag, etag⟩) := by
  have hs : isWS 34 = false := rfl
  simp [getValue, skipWS_cons hs, takeWhile_ne hv, pure, Except.pure]

end XmlBuffer

-- The attributes of a start tag: the first ones of those an element can have, in their order.
def attrText : List Text → List Text → Text
  | n :: ns, v :: vs => 32 :: (n ++ 61 :: 34 :: (v ++ 34 :: attrText ns vs))
  | _, _             => []

def attrsSeen : List Text → List Text → List XmlAttr
  | n :: ns, v :: vs => { name := n, seen := true, attr := v } :: attrsSeen ns vs
  | ns, _            => ns.map ({ name := · })

theorem attrsSeen_attr {ns vs : List Text} (h : vs.length ≤ ns.length) (i : ℕ) :
    (attrsSeen ns vs)[i]?.bind (·.attr) = vs[i]? := by
  induction ns generalizing vs i with
  | nil          => simp [List.length_eq_zero_iff.mp (Nat.le_zero.mp h), attrsSeen]
  | cons n ns hi =>
    cases vs with
    | nil       =>
      simp only [attrsSeen, List.getElem?_map, List.getElem?_nil]
      cases (n :: ns)[i]? <;> rfl
    | cons v vs =>
      cases i with
      | zero   => rfl
      | succ i => simpa [attrsSeen] using hi (Nat.le_of_succ_le_succ h) i

theorem isWS_of_isalpha {c : UInt8} (h : isalpha c) : isWS c = false := by
  simp only [isalpha, isWS, decide_eq_true_eq, decide_eq_false_iff_not, UInt8.le_iff_toNat_le] at *
  simp at *
  omega

-- What comes behind the attributes.
def Closes (r : Text) : Prop :=
  ∃ c ∈ r.head?, isWS c = false ∧ isalpha c = false

namespace XmlBuffer

variable {b r : Text} {nulled eTag : Bool} {etag : Tok}

theorem attrOk_append {before after : List XmlAttr} {n v : Text} (hs : ∀ a ∈ before, a.seen)
    (hv : 34 ∉ v) : ∃ b', attrOk (before ++ { name := n } :: after)
      ⟨b, n ++ 61 :: 34 :: (v ++ 34 :: r), nulled, eTag, etag⟩ =
        .ok (before ++ { name := n, seen := true, attr := v } :: after, ⟨b', r, nulled, eTag, etag⟩) := by
  induction before with
  | nil          =>
    have hw : getWord n false ⟨b, n ++ 61 :: 34 :: (v ++ 34 :: r), nulled, eTag, etag⟩ =
        some ⟨n.reverse ++ b, 61 :: 34 :: (v ++ 34 :: r), nulled, eTag, etag⟩ :=
      getWord_append (by simp; rfl)
    have he : isWS 61 = false := rfl
    have hc := @getChars_append (n.reverse ++ b) (34 :: (v ++ 34 :: r)) [61] nulled eTag etag
    rw [List.singleton_append] at hc
    refine ⟨0 :: (v.reverse ++ 34 :: ([61].reverse ++ (n.reverse ++ b))), ?_⟩
    simp only [List.nil_append, attrOk, Bool.false_eq_true, if_false, hw, skipWS_cons he, hc,
      getValue_append hv]
    rfl
  | cons a before hi =>
    have ⟨ha, hb⟩ := List.forall_mem_cons.mp hs
    have ⟨b', h⟩ := hi hb
    refine ⟨b', ?_⟩
    rw [List.cons_append, attrOk, if_pos ha]
    simp only [h]
    rfl

theorem attributes_closes {n : ℕ} {as : List XmlAttr} (hr : Closes r) :
    attributes n as ⟨b, r, nulled, eTag, etag⟩ = .ok (as, ⟨b, r, nulled, eTag, etag⟩) := by
  have ⟨c, hc, hws, halpha⟩ := hr
  cases r with
  | nil      => cases hc
  | cons d r =>
    cases hc
    rw [attributes.eq_def]
    simp only [skipWS_cons hws, List.head?_cons, Option.any_some, halpha, Bool.false_eq_true, if_false]
    rfl

theorem attributes_append {n : ℕ} {before : List XmlAttr} {ns vs : List Text}
    (hn : ∀ n ∈ ns, n.head?.any isalpha) (hl : vs.length ≤ ns.length) (hv : ∀ v ∈ vs, 34 ∉ v)
    (hs : ∀ a ∈ before, a.seen) (hr : Closes r) (hf : vs.length ≤ n) :
    ∃ b', attributes n (before ++ ns.map ({ name := · }))
      ⟨b, attrText ns vs ++ r, nulled, eTag, etag⟩ =
        .ok (before ++ attrsSeen ns vs, ⟨b', r, nulled, eTag, etag⟩) := by
  induction vs generalizing n before ns b with
  | nil          =>
    have ht : attrText ns [] = [] := by cases ns <;> rfl
    have hseen : attrsSeen ns [] = ns.map ({ name := · }) := by cases ns <;> rfl
    exact ⟨b, by rw [ht, hseen, List.nil_append, attributes_closes hr]⟩
  | cons v vs hi =>
    cases ns with
    | nil       => simp at hl
    | cons k ns =>
      have ⟨hk, hns⟩ := List.forall_mem_cons.mp hn
      have ⟨hv, hvs⟩ := List.forall_mem_cons.mp hv
      have ⟨n, hn⟩ : ∃ m, n = m + 1 := ⟨n - 1, by simp at hf; omega⟩
      subst hn
      let after := attrText ns vs ++ r
      have ⟨b₁, h₁⟩ := @attrOk_append (32 :: b) after nulled eTag etag before (ns.map ({ name := · })) k v hs hv
      have hb : ∀ a ∈ before ++ [{ name := k, seen := true, attr := v }], a.seen := by
        intro a ha
        cases List.mem_append.mp ha with
        | inl ha => exact hs a ha
        | inr ha => rw [List.mem_singleton.mp ha]
      have ⟨b₂, h₂⟩ := @hi b₁ n _ ns hns (Nat.le_of_succ_le_succ hl) hvs hb (Nat.le_of_succ_le_succ hf)
      refine ⟨b₂, ?_⟩
      have hw : skipWS ⟨b, attrText (k :: ns) (v :: vs) ++ r, nulled, eTag, etag⟩ =
          ⟨32 :: b, k ++ 61 :: 34 :: (v ++ 34 :: after), nulled, eTag, etag⟩ := by
        have hh : ∀ c ∈ (k ++ 61 :: 34 :: (v ++ 34 :: after)).head?, isWS c = false := by
          cases k with
          | nil      => cases hk
          | cons c k =>
            intro d hd
            cases hd
            exact isWS_of_isalpha hk
        have h := @skipWS_append b _ [32] nulled eTag etag (by decide) hh
        simpa [attrText] using h
      have hh : (k ++ 61 :: 34 :: (v ++ 34 :: after)).head?.any isalpha := by
        cases k with
        | nil      => cases hk
        | cons c k => exact hk
      rw [attributes.eq_def]
      simp only [hw, hh, if_true, List.map_cons, h₁]
      simp only [List.append_assoc, List.singleton_append] at h₂
      exact h₂

theorem attrsOk_tag {elm vs : List Text} {tag : Text} {etag' : Tok} (hn : ∀ n ∈ elm, n.head?.any isalpha)
    (hl : vs.length ≤ elm.length) (hv : ∀ v ∈ vs, 34 ∉ v) :
    ∃ b', attrsOk elm tag etag' ⟨b, attrText elm vs ++ 62 :: r, nulled, eTag, etag⟩ =
      .ok ((vs[·]?), ⟨62 :: b', r, nulled, false, etag⟩) := by
  have hr : Closes (62 :: r) := ⟨62, rfl, rfl, rfl⟩
  have ⟨b', h⟩ := @attributes_append b (62 :: r) nulled false etag elm.length [] elm vs hn hl hv nofun hr hl
  simp only [List.nil_append] at h
  have hs : getChars (bytes "/>") ⟨b', 62 :: r, nulled, false, etag⟩ = none := rfl
  refine ⟨b', ?_⟩
  simp only [attrsOk, h, bind, Except.bind, hs, attrsSeen_attr hl]
  rfl

-- A byte that can begin the name of a tag.
def StartsTag (t : Text) : Prop :=
  ∃ c ∈ t.head?, isWS c = false ∧ c ≠ 47 ∧ c ≠ 33

theorem tagEquals_append {t : Text} {c : UInt8} (hc : c = 60 ∨ c = 0) (ht : ∃ c ∈ t.head?, isWS c = false)
    (hr : ∀ c ∈ r.head?, isalnum c = false) :
    tagEquals t ⟨b, c :: (t ++ r), nulled, eTag, etag⟩ =
      .ok (some ⟨t.reverse ++ c :: b, r, nulled, eTag, etag⟩) := by
  have hs : ∀ b, skipWS ⟨b, t ++ r, nulled, eTag, etag⟩ = ⟨b, t ++ r, nulled, eTag, etag⟩ := by
    intro b
    have ⟨d, hd, hws⟩ := ht
    cases t with
    | nil      => cases hd
    | cons e t =>
      cases hd
      exact skipWS_cons hws
  have hw := @getWord_append (c :: b) r t nulled eTag etag true hr
  cases hc with
  | inl hc =>
    subst hc
    have hg := @getChars_append b (t ++ r) [60] nulled eTag etag
    rw [List.singleton_append] at hg
    have he : isWS 60 = false := rfl
    simp [tagEquals, skipWS_cons he, hg, hs, hw, pure, Except.pure]
  | inr hc =>
    subst hc
    have ha := @advance_append b (t ++ r) [0] nulled eTag etag
    rw [List.singleton_append, List.length_singleton] at ha
    simp [tagEquals, ha, hs, hw, pure, Except.pure]

end XmlBuffer

theorem prefix_append_cons {t w r : Text} {c : UInt8} (hc : c ∉ t) : t <+: w ++ c :: r ↔ t <+: w := by
  induction t generalizing w with
  | nil         => simp
  | cons d t hi =>
    have ⟨hd, ht⟩ := List.ne_and_not_mem_of_not_mem_cons hc
    cases w with
    | nil      => simp [List.cons_prefix_cons, Ne.symm hd]
    | cons e w => simp [List.cons_prefix_cons, hi ht]

-- A byte that can follow the name of a tag.
def Parts (c : UInt8) : Prop :=
  isWS c ∨ c = 47 ∨ c = 62

instance (c : UInt8) : Decidable (Parts c) :=
  inferInstanceAs (Decidable (_ ∨ _))

theorem Parts.not_isalnum {c : UInt8} (h : Parts c) : isalnum c = false := by
  obtain h | h | h := h
  · simp only [isWS, isalnum, isalpha, isdigit, UInt8.le_iff_toNat_le] at *
    simp at *
    omega
  · rw [h]
    rfl
  · rw [h]
    rfl

-- What follows the name of a tag does not matter.
theorem nextEquals_append {t w r : Text} {c d : UInt8} (hc : c ∉ t) (hd : d ∉ t) (hp : Parts c) (hp' : Parts d) :
    nextEquals (w ++ c :: r) t = nextEquals (w ++ [d]) t := by
  simp only [nextEquals, List.isPrefixOf_iff_prefix, prefix_append_cons hc, prefix_append_cons hd]
  by_cases hw : t <+: w
  · obtain ⟨u, hu⟩ := hw
    subst hu
    cases u with
    | nil      => simp [hp.not_isalnum, hp'.not_isalnum]
    | cons _ _ => simp
  · simp [hw]

-- An element the lexer knows, and does not take for another one.
structure Known (e : Tags) : Prop where
  starts : XmlBuffer.StartsTag e.tag
  found  : tags.find? (nextEquals (e.tag ++ [62]) ·.tag) = some e

-- The elements without the ways to write a section.
def elements : List Tags :=
  tags.take 43

-- What there is to know about the names.
theorem tags_names :
    (∀ t ∈ tags.map (·.tag), ∀ c ∈ t, ¬ Parts c) ∧
      (∀ t ∈ elements.map (·.tag), ∃ c ∈ t.head?, isWS c = false ∧ c ≠ 47 ∧ c ≠ 33 ∧ c ≠ 62) ∧
      (∀ t ∈ elements.map (·.tag), (tags.map (·.tag)).find? (nextEquals (t ++ [62])) = some t) ∧
      (tags.map (·.tag)).Nodup := by
  decide +kernel

theorem tags_ne {t : Tags} (h : t ∈ tags) {c : UInt8} (hc : Parts c) : c ∉ t.tag :=
  fun hm => tags_names.left t.tag (List.mem_map_of_mem h) c hm hc

theorem elements_starts {e : Tags} (h : e ∈ elements) :
    ∃ c ∈ e.tag.head?, isWS c = false ∧ c ≠ 47 ∧ c ≠ 33 ∧ c ≠ 62 :=
  tags_names.right.left e.tag (List.mem_map_of_mem h)

theorem known {e : Tags} (h : e ∈ elements) : Known e where
  starts := by
    have ⟨c, hc, hws, h47, h33, _⟩ := elements_starts h
    exact ⟨c, hc, hws, h47, h33⟩
  found  := by
    have ⟨_, _, hfound, hd⟩ := tags_names
    have hf := hfound e.tag (List.mem_map_of_mem h)
    rw [List.find?_map] at hf
    have ⟨t, ht, he⟩ := Option.map_eq_some_iff.mp hf
    have hm : e ∈ tags := List.mem_of_mem_take h
    rw [List.inj_on_of_nodup_map hd (List.mem_of_find?_eq_some ht) hm he] at ht
    exact ht

theorem Known.find {e : Tags} (h : Known e) {c : UInt8} (hc : Parts c) (r : Text) :
    tags.find? (nextEquals (e.tag ++ c :: r) ·.tag) = some e := by
  rw [← h.found]
  apply List.find?_congr
  intro t ht
  exact nextEquals_append (tags_ne ht hc) (tags_ne ht (.inr (.inr rfl))) hc (.inr (.inr rfl))

-- A buffer between two tokens, with a text ahead. White space in front of it does not matter.
structure Ready (text : Text) (xb : XmlBuffer) : Prop where
  rest       : xb.rest.dropWhile isWS = text.dropWhile isWS
  nulledChar : xb.nulledChar = false
  eTagFound  : xb.eTagFound = false

-- The tokens of some calls.
inductive Calls : XmlBuffer → List Tok → XmlBuffer → Prop
  | nil {xb} : Calls xb [] xb
  | cons {xb xb₁ xb₂ t ts} (call : sfccLex xb = .ok (t, xb₁)) (some : t ≠ .none) (calls : Calls xb₁ ts xb₂) :
    Calls xb (t :: ts) xb₂

theorem Calls.append {xb xb₁ xb₂ : XmlBuffer} {ts us : List Tok} (h₁ : Calls xb ts xb₁)
    (h₂ : Calls xb₁ us xb₂) : Calls xb (ts ++ us) xb₂ := by
  induction h₁ with
  | nil                => exact h₂
  | cons hc hs _ hi => exact .cons hc hs (hi h₂)

-- A text makes tokens, whatever follows it.
structure Lexes (text : Text) (ts : List Tok) : Prop where
  calls : ∀ {rest xb}, Ready (text ++ rest) xb → ∃ xb', Calls xb ts xb' ∧ Ready rest xb'
  short : ts.length ≤ 2 * text.length

namespace Lexes

variable {a b text : Text} {ts us : List Tok}

theorem nil : Lexes [] [] where
  calls h := ⟨_, .nil, h⟩
  short   := Nat.le_refl _

theorem append (h₁ : Lexes a ts) (h₂ : Lexes b us) : Lexes (a ++ b) (ts ++ us) where
  calls h := by
    rw [List.append_assoc] at h
    have ⟨xb₁, hc₁, hr₁⟩ := h₁.calls h
    have ⟨xb₂, hc₂, hr₂⟩ := h₂.calls hr₁
    exact ⟨xb₂, hc₁.append hc₂, hr₂⟩
  short   := by
    have hs₁ := h₁.short
    have hs₂ := h₂.short
    simp only [List.length_append]
    omega

theorem flatMap {T : Type} {f : T → Text} {g : T → List Tok} {l : List T} (h : ∀ t ∈ l, Lexes (f t) (g t)) :
    Lexes (l.flatMap f) (l.flatMap g) := by
  induction l with
  | nil         => exact nil
  | cons t l hi =>
    have ⟨ht, hl⟩ := List.forall_mem_cons.mp h
    exact ht.append (hi hl)

theorem blank (h : ∀ c ∈ text, isWS c) : Lexes text [] where
  calls h' := by
    have hr := h'.rest
    rw [List.dropWhile_append_of_pos h] at hr
    exact ⟨_, .nil, { h' with rest := hr }⟩
  short    := Nat.zero_le _

end Lexes

theorem sfccLexs_eq {xb xb' : XmlBuffer} {ts : List Tok} (h : Calls xb ts xb') {n : ℕ} (hn : ts.length ≤ n) :
    sfccLexs n xb = ts ++ sfccLexs (n - ts.length) xb' := by
  induction h generalizing n with
  | nil              => rfl
  | cons hc hs _ hi =>
    rename_i xb xb₁ xb₂ t ts _
    have ⟨n, hn⟩ : ∃ m, n = m + 1 := ⟨n - 1, by simp at hn; omega⟩
    subst hn
    have ht := hi (Nat.le_of_succ_le_succ hn)
    have he : n + 1 - (t :: ts).length = n - ts.length := by simp
    rw [he]
    cases t with
    | none    => exact absurd rfl hs
    | X _ _ | Z _ => simp only [sfccLexs, hc, ht, List.cons_append]

theorem nextTag_nil {xb : XmlBuffer} (h : Ready [] xb) : xb.nextTag = (none, xb.skipWS) := by
  have hr : xb.skipWS.rest = [] := by
    rw [XmlBuffer.skipWS_rest, h.rest]
    rfl
  simp [XmlBuffer.nextTag, h.nulledChar, hr]

theorem sfccLex_none {xb xb' : XmlBuffer} (hx : xb.nextTag = (none, xb')) : sfccLex xb = .ok (.none, xb') := by
  simp [sfccLex, sfccLexN, hx, pure, Except.pure]

-- All tokens of a text.
theorem Lexes.tokens_eq {text : Text} {ts : List Tok} (h : Lexes text ts) : tokens text = ts := by
  have hr : Ready (text ++ []) (newXmlBuffer text) :=
    { rest := by rw [List.append_nil]; rfl, nulledChar := rfl, eTagFound := rfl }
  have ⟨xb, hc, hr⟩ := h.calls hr
  rw [tokens, sfccLexs_eq hc h.short]
  have hl : sfccLex xb = .ok (.none, xb.skipWS) := sfccLex_none (nextTag_nil hr)
  cases 2 * text.length - ts.length with
  | zero   => simp [sfccLexs]
  | succ n => simp [sfccLexs, hl]

-- The calls that return a token.
section Tag

variable {xb xb' : XmlBuffer} {next r : Text} {e : Tags}

theorem sfccLex_process (hx : xb.nextTag = (some next, xb')) (he : xb'.eTagFound = false)
    (hn : next.head? ≠ some 47) (hc : (bytes "<!--").isPrefixOf xb'.rest = false)
    (hf : tags.find? (nextEquals next ·.tag) = some e) : sfccLex xb = e.process xb' := by
  simp [sfccLex, sfccLexN, hx, he, hn, hc, hf]

theorem sfccLex_skipTag (hx : xb.nextTag = (some (47 :: next), xb')) (he : xb'.eTagFound = false)
    (hf : tags.find? (nextEquals next ·.tag) = some e) :
    sfccLex xb = xb'.skipTag.map fun xb => (e.etag, xb) := by
  simp only [sfccLex, sfccLexN, hx, he, List.head?_cons, List.tail_cons, hf]
  cases xb'.skipTag <;> rfl

theorem sfccLex_etag (hx : xb.nextTag = (some next, xb')) (he : xb'.eTagFound) :
    sfccLex xb = .ok (xb'.etag, { xb' with eTagFound := false }) := by
  simp [sfccLex, sfccLexN, hx, he, pure, Except.pure]

theorem Ready.nextTag (h : Ready (60 :: next) xb) :
    ∃ b, xb.nextTag = (some next, ⟨b, 60 :: next, false, false, xb.etag⟩) := by
  have hr : xb.skipWS.rest = 60 :: next := by
    rw [XmlBuffer.skipWS_rest, h.rest]
    rfl
  have hs : xb.skipWS = ⟨xb.skipWS.before, xb.skipWS.rest, xb.nulledChar, xb.eTagFound, xb.etag⟩ := rfl
  have hb := hs.trans (by rw [hr, h.nulledChar, h.eTagFound])
  refine ⟨xb.skipWS.before, ?_⟩
  rw [← hb]
  simp [XmlBuffer.nextTag, h.nulledChar, hr]

theorem XmlBuffer.nextTag_nulled {b : Text} {eTag : Bool} {etag : Tok} :
    nextTag ⟨b, 0 :: next, true, eTag, etag⟩ = (some next, ⟨b, 0 :: next, false, eTag, etag⟩) :=
  rfl

theorem XmlBuffer.skipTag_append {b t : Text} {nulled eTag : Bool} {etag : Tok} (ht : 62 ∉ t) :
    ∃ b', skipTag ⟨b, t ++ 62 :: r, nulled, eTag, etag⟩ = .ok ⟨b', r, nulled, eTag, etag⟩ := by
  have ha := @advance_append b r (t ++ [62]) nulled eTag etag
  rw [List.append_assoc, List.singleton_append, List.length_append, List.length_singleton] at ha
  refine ⟨(t ++ [62]).reverse ++ b, ?_⟩
  simp only [skipTag, ne_eq, decide_not, takeWhile_ne ht, ha]
  simp [pure, Except.pure]

theorem Known.mem (h : Known e) : e ∈ tags :=
  List.mem_of_find?_eq_some h.found

theorem Known.not_mem (h : Known e) : 62 ∉ e.tag :=
  tags_ne h.mem (.inr (.inr rfl))

-- The start of an element.
theorem Known.process (h : Known e) {c : UInt8} (hc : Parts c)
    (hr : Ready (60 :: (e.tag ++ c :: r)) xb) :
    ∃ b, sfccLex xb = e.process ⟨b, 60 :: (e.tag ++ c :: r), false, false, xb.etag⟩ := by
  have ⟨b, hx⟩ := hr.nextTag
  have ⟨d, hd, _, h47, h33⟩ := h.starts
  refine ⟨b, sfccLex_process hx rfl ?_ ?_ (h.find hc r)⟩
  all_goals
    generalize e.tag = t at hd
    cases t with
    | nil      => cases hd
    | cons f t =>
      cases hd
      have hp : (33 == d) = false := beq_eq_false_iff_ne.mpr (Ne.symm h33)
      simp [h47, bytes, List.isPrefixOf, hp]

end Tag

-- An element, as it is written.

def startTag (tag : Text) (elm vs : List Text) : Text :=
  60 :: (tag ++ (attrText elm vs ++ [62]))

def emptyTag (tag : Text) (elm vs : List Text) : Text :=
  60 :: (tag ++ (attrText elm vs ++ [47, 62]))

def endTag (tag : Text) : Text :=
  60 :: 47 :: (tag ++ [62])

-- The names and values of attributes.
structure Attributes (elm vs : List Text) : Prop where
  names  : ∀ n ∈ elm, n.head?.any isalpha
  length : vs.length ≤ elm.length
  values : ∀ v ∈ vs, 34 ∉ v

section Element

variable {tag : String} {elm : List String} {vs : List Text} {etag etag' : Tok} {xb : XmlBuffer}
variable {token : (ℕ → Option Text) → Proc}

theorem attrText_append {elm vs : List Text} {c : UInt8} (hc : Parts c) (r : Text) :
    ∃ d, Parts d ∧ ∃ r', attrText elm vs ++ c :: r = d :: r' := by
  cases elm with
  | nil       => exact ⟨c, hc, r, rfl⟩
  | cons n ns =>
    cases vs with
    | nil       => exact ⟨c, hc, r, rfl⟩
    | cons v vs => exact ⟨32, by decide, _, rfl⟩

-- What is read behind the name of an element.
theorem procTag_process (h : Known ⟨bytes tag, procTag tag elm etag token, etag'⟩) {c : UInt8} (hc : Parts c) {r : Text}
    (hr : Ready (60 :: (bytes tag ++ c :: r)) xb) : ∃ b, sfccLex xb = (do
      let (attr, xb) ← XmlBuffer.attrsOk (elm.map bytes) (bytes tag) etag ⟨b, c :: r, false, false, xb.etag⟩
      token attr xb) := by
  have ⟨b, hb⟩ := h.process hc hr
  have ⟨d, hd, hws, _⟩ := h.starts
  have hn : ∀ d ∈ (c :: r).head?, isalnum d = false := by
    intro d hd
    cases hd
    exact hc.not_isalnum
  have ht := @XmlBuffer.tagEquals_append b (c :: r) false false xb.etag (bytes tag) 60 (.inl rfl) ⟨d, hd, hws⟩ hn
  refine ⟨(bytes tag).reverse ++ 60 :: b, hb.trans ?_⟩
  simp only [procTag, ht, bind, Except.bind]

theorem procTag_start (h : Known ⟨bytes tag, procTag tag elm etag token, etag'⟩)
    (ha : Attributes (elm.map bytes) vs) {r : Text} (hr : Ready (startTag (bytes tag) (elm.map bytes) vs ++ r) xb) :
    ∃ b, sfccLex xb = token (vs[·]?) ⟨62 :: b, r, false, false, xb.etag⟩ := by
  have ⟨c, hc, r', he⟩ := @attrText_append (elm.map bytes) vs 62 (by decide) r
  have hs : startTag (bytes tag) (elm.map bytes) vs ++ r = 60 :: (bytes tag ++ c :: r') := by
    simp [startTag, ← he]
  have ⟨b, hb⟩ := procTag_process h hc (hs ▸ hr)
  have ⟨b', hat⟩ := @XmlBuffer.attrsOk_tag b r false false xb.etag
    (elm.map bytes) vs (bytes tag) etag ha.names ha.length ha.values
  rw [he] at hat
  refine ⟨b', hb.trans ?_⟩
  simp only [hat, bind, Except.bind]

theorem Lexes.start (h : Known ⟨bytes tag, procTag tag elm etag token, etag'⟩) (ha : Attributes (elm.map bytes) vs)
    {x : Tok} (ht : ∀ xb, token (vs[·]?) xb = .ok (x, xb)) (hx : x ≠ .none) :
    Lexes (startTag (bytes tag) (elm.map bytes) vs) [x] where
  calls hr := by
    have ⟨b, hb⟩ := procTag_start h ha hr
    exact ⟨_, .cons (hb.trans (ht _)) hx .nil, ⟨rfl, rfl, rfl⟩⟩
  short    := by
    simp [startTag]
    omega

end Element

section Stop

variable {e : Tags} {xb : XmlBuffer}

-- Where the `<` is there or was overwritten.
theorem sfccLex_endTag {b rest : Text} {c : UInt8} {etag : Tok} (hn : 62 ∉ e.tag)
    (hf : tags.find? (nextEquals (e.tag ++ 62 :: rest) ·.tag) = some e) (hc : c ≠ 62)
    (hx : xb.nextTag = (some (47 :: (e.tag ++ 62 :: rest)),
      ⟨b, c :: 47 :: (e.tag ++ 62 :: rest), false, false, etag⟩)) :
    ∃ b', sfccLex xb = .ok (e.etag, ⟨b', rest, false, false, etag⟩) := by
  have hm : 62 ∉ c :: 47 :: e.tag := by simp [hn, Ne.symm hc]
  have ⟨b', hb⟩ := @XmlBuffer.skipTag_append rest b _ false false etag hm
  have hl := sfccLex_skipTag hx rfl hf
  rw [show c :: 47 :: (e.tag ++ 62 :: rest) = c :: 47 :: e.tag ++ 62 :: rest from rfl, hb] at hl
  exact ⟨b', hl⟩

theorem endTag_append (tag rest : Text) : endTag tag ++ rest = 60 :: 47 :: (tag ++ 62 :: rest) := by
  simp [endTag]

theorem sfccLex_stop (h : Known e) {rest : Text} (hr : Ready (endTag e.tag ++ rest) xb) :
    ∃ b, sfccLex xb = .ok (e.etag, ⟨b, rest, false, false, xb.etag⟩) := by
  rw [endTag_append] at hr
  have ⟨b, hx⟩ := hr.nextTag
  exact sfccLex_endTag h.not_mem (h.find (by decide) rest) (by decide) hx

theorem Lexes.stop (h : Known e) (ht : e.etag ≠ .none) : Lexes (endTag e.tag) [e.etag] where
  calls hr := by
    have ⟨b, hl⟩ := sfccLex_stop h hr
    exact ⟨_, .cons hl ht .nil, ⟨rfl, rfl, rfl⟩⟩
  short    := by
    simp [endTag]
    omega

end Stop

-- An element with a text.

theorem nullWS_append (s b : Text) {c : UInt8} (hc : isWS c = false) : ∃ b', XmlBuffer.nullWS (s ++ c :: b) = .ok b' := by
  induction s with
  | nil         => exact ⟨c :: b, by simp [XmlBuffer.nullWS, hc, pure, Except.pure]⟩
  | cons d s hi =>
    have ⟨b', h⟩ := hi
    rw [List.cons_append, XmlBuffer.nullWS]
    split
    · exact ⟨0 :: b', by rw [h]; rfl⟩
    · exact ⟨_, rfl⟩

section Content

variable {b r text : Text} {etag : Tok}

-- Behind the start of an element, up to the next tag.
theorem getContent_append (ht : 60 ∉ text) (hb : ∃ c ∈ b.head?, isWS c = false) : ∃ b',
    XmlBuffer.getContent ⟨b, text ++ 60 :: r, false, false, etag⟩ = .ok (some (trimmed text),
      if text = [] then ⟨b', 60 :: r, false, false, etag⟩ else ⟨b', 0 :: r, true, false, etag⟩) := by
  have hw := @takeWhile_ne text r 60 ht
  by_cases he : text = []
  · subst he
    exact ⟨b, by simp [XmlBuffer.getContent, trimmed, pure, Except.pure]⟩
  · have ⟨c, hc, hws⟩ := hb
    cases b with
    | nil      => cases hc
    | cons d b =>
      cases hc
      have ⟨b', hn⟩ := nullWS_append text.reverse b hws
      have ha := @XmlBuffer.advance_append (c :: b) (60 :: r) text false false etag
      refine ⟨b', ?_⟩
      simp only [XmlBuffer.getContent, ne_eq, decide_not, hw, he, if_false, ha, hn, bind, Except.bind]
      rfl

theorem Lexes.content {tag : String} {elm : List String} {vs : List Text}
    {token : (ℕ → Option Text) → Option Text → Tok}
    (h : Known ⟨bytes tag, procContent tag elm etag token, etag⟩) (ha : Attributes (elm.map bytes) vs)
    (ht : 60 ∉ text) (hs : token (vs[·]?) (some (trimmed text)) ≠ .none) (he : etag ≠ .none) :
    Lexes (startTag (bytes tag) (elm.map bytes) vs ++ text ++ endTag (bytes tag))
      [token (vs[·]?) (some (trimmed text)), etag] where
  calls {rest xb} hr := by
    rw [List.append_assoc, List.append_assoc] at hr
    have ⟨b, hb⟩ := procTag_start h ha hr
    rw [endTag_append] at hb
    have hh : ∃ c ∈ (62 :: b).head?, isWS c = false := ⟨62, rfl, rfl⟩
    have ⟨b₁, hg⟩ := @getContent_append (62 :: b) (47 :: (bytes tag ++ 62 :: rest)) text xb.etag ht hh
    simp only [hg, bind, Except.bind, pure, Except.pure] at hb
    by_cases hn : text = []
    · rw [if_pos hn, ← endTag_append] at hb
      have hr₁ : Ready (endTag (bytes tag) ++ rest) ⟨b₁, endTag (bytes tag) ++ rest, false, false, xb.etag⟩ :=
        ⟨rfl, rfl, rfl⟩
      have ⟨b₂, hl⟩ := sfccLex_stop h hr₁
      exact ⟨_, .cons hb hs (.cons hl he .nil), ⟨rfl, rfl, rfl⟩⟩
    · rw [if_neg hn] at hb
      have ⟨b₂, hl⟩ := @sfccLex_endTag _ ⟨b₁, 0 :: 47 :: (bytes tag ++ 62 :: rest), true, false, xb.etag⟩ b₁ rest
        0 xb.etag h.not_mem (h.find (by decide) rest) (by decide) XmlBuffer.nextTag_nulled
      exact ⟨_, .cons hb hs (.cons hl he .nil), ⟨rfl, rfl, rfl⟩⟩
  short    := by
    simp only [startTag, endTag, List.length_append, List.length_cons, List.length_nil]
    omega

end Content

-- A section, which is opened where a text was expected.

def cdataTag : Tags :=
  ⟨bytes "![CDATA[", procCdata, .Z .CDATA⟩

def cdataEnd : Tags :=
  ⟨[], procCdata, .Z .CDATA⟩

theorem find_cdataTag {r : Text} (hr : ∀ c ∈ r.head?, isalnum c = false) :
    tags.find? (nextEquals (cdataTag.tag ++ r) ·.tag) = some cdataTag := by
  rw [List.find?_eq_some_iff_append]
  refine ⟨?_, elements, [cdataEnd], rfl, ?_⟩
  · have hn : r.head?.any isalnum = false := by
      cases r with
      | nil      => rfl
      | cons c r => exact hr c rfl
    simp [nextEquals, hn]
  · intro t ht
    have ⟨c, hc, _, _, h33, _⟩ := elements_starts ht
    generalize t.tag = w at hc
    cases w with
    | nil      => cases hc
    | cons d w =>
      cases hc
      have hp : (c == 33) = false := beq_eq_false_iff_ne.mpr h33
      simp [nextEquals, cdataTag, bytes, List.isPrefixOf, hp]

theorem find_cdataEnd (r : Text) : tags.find? (nextEquals (cdataEnd.tag ++ 62 :: r) ·.tag) = some cdataEnd := by
  rw [List.find?_eq_some_iff_append]
  refine ⟨rfl, elements ++ [cdataTag], [], rfl, ?_⟩
  intro t ht
  have ⟨c, hc, h62⟩ : ∃ c ∈ t.tag.head?, c ≠ 62 := by
    cases List.mem_append.mp ht with
    | inl ht =>
      have ⟨c, hc, _, _, _, h62⟩ := elements_starts ht
      exact ⟨c, hc, h62⟩
    | inr ht =>
      cases List.mem_singleton.mp ht
      exact ⟨33, rfl, by decide⟩
  generalize t.tag = w at hc
  cases w with
  | nil      => cases hc
  | cons d w =>
    cases hc
    have hp : (c == 62) = false := beq_eq_false_iff_ne.mpr h62
    simp [nextEquals, cdataEnd, List.isPrefixOf, hp]

-- A text that does not end a section before its own end.
def Sealed (text : Text) : Prop :=
  ∀ r, strstr (bytes "]]>") (text ++ (bytes "]]>" ++ r)) = some (bytes "]]>" ++ r)

section Cdata

variable {b body ws rest : Text} {etag : Tok} {ts : List Tok}

theorem procCdata_append {c : UInt8} (hc : c = 60 ∨ c = 0) (hb : Sealed body)
    (hh : ∀ c ∈ body.head?, isalnum c = false) : ∃ b',
    procCdata ⟨b, c :: (bytes "![CDATA[" ++ (body ++ (bytes "]]>" ++ rest))), false, false, etag⟩ =
      .ok (.X .CDATA (), ⟨b', body ++ (bytes "</>" ++ rest), false, false, etag⟩) := by
  have hr : ∀ c ∈ (body ++ (bytes "]]>" ++ rest)).head?, isalnum c = false := by
    cases body with
    | nil      =>
      intro c hc
      cases hc
      rfl
    | cons d t => exact hh
  have ht := @XmlBuffer.tagEquals_append b (body ++ (bytes "]]>" ++ rest)) false false etag
    (bytes "![CDATA[") c hc ⟨33, rfl, rfl⟩ hr
  have ⟨b', hat⟩ := @XmlBuffer.attrsOk_tag (((bytes "![CDATA[").reverse ++ c :: b).tail)
    (body ++ (bytes "]]>" ++ rest)) false false etag [] [] (bytes "![CDATA[") (.Z .CDATA) nofun
    (Nat.le_refl _) nofun
  refine ⟨62 :: b', ?_⟩
  have hi : (body ++ (bytes "]]>" ++ rest)).take
      ((body ++ (bytes "]]>" ++ rest)).length - (bytes "]]>" ++ rest).length) = body := by
    simp
  simp only [attrText, List.nil_append] at hat
  simp only [procCdata, ht, bind, Except.bind, hat, hb rest, hi]
  rw [List.append_assoc]
  rfl

-- The call for the start of a section, after which its content stands in front of `</>`, and the one for that.
theorem sfccLex_section {c : UInt8} {xb : XmlBuffer} (hc : c = 60 ∨ c = 0) (hb : Sealed body)
    (hh : ∀ c ∈ body.head?, isalnum c = false)
    (hx : xb.nextTag = (some (bytes "![CDATA[" ++ (body ++ (bytes "]]>" ++ rest))),
      ⟨b, c :: (bytes "![CDATA[" ++ (body ++ (bytes "]]>" ++ rest))), false, false, etag⟩)) :
    ∃ b', sfccLex xb = .ok (.X .CDATA (), ⟨b', body ++ (bytes "</>" ++ rest), false, false, etag⟩) := by
  have ⟨b', hp⟩ := @procCdata_append b body rest etag c hc hb hh
  have hf : ∀ c ∈ (body ++ (bytes "]]>" ++ rest)).head?, isalnum c = false := by
    cases body with
    | nil      =>
      intro c hc
      cases hc
      rfl
    | cons d t => exact hh
  have h47 : (bytes "![CDATA[" ++ (body ++ (bytes "]]>" ++ rest))).head? ≠ some 47 :=
    fun h => absurd (Option.some.inj h : (33 : UInt8) = 47) (by decide)
  have hnc : (bytes "<!--").isPrefixOf (c :: (bytes "![CDATA[" ++ (body ++ (bytes "]]>" ++ rest)))) = false := by
    cases hc with
    | inl hc => exact hc ▸ rfl
    | inr hc => exact hc ▸ rfl
  exact ⟨b', (sfccLex_process hx rfl h47 hnc (find_cdataTag hf)).trans hp⟩

theorem sfccLex_sectionEnd {xb : XmlBuffer} (hr : Ready (bytes "</>" ++ rest) xb) :
    ∃ b, sfccLex xb = .ok (.Z .CDATA, ⟨b, rest, false, false, xb.etag⟩) := by
  have ⟨b, hx⟩ := hr.nextTag
  exact @sfccLex_endTag cdataEnd xb b rest 60 xb.etag nofun (find_cdataEnd rest) (by decide) hx

theorem trimmed_blank (h : ∀ c ∈ ws, isWS c) : trimmed ws = [] := by
  have hd : ws.dropWhile isWS = [] := List.dropWhile_eq_nil_iff.mpr h
  rw [trimmed, hd]
  rfl

-- A section in a value, with what stands before and behind it.
def cdataValue (ws body ws' : Text) : Text :=
  bytes "<VALUE>" ++ ws ++ bytes "<![CDATA[" ++ body ++ bytes "]]>" ++ ws' ++ bytes "</VALUE>"

-- The buffer afterwards is the one of the rest, apart from what is behind it.
theorem cdataValue_calls (hl : Lexes body ts) (hb : Sealed body) (hh : ∀ c ∈ body.head?, isalnum c = false)
    {ws' : Text} (hw : ∀ c ∈ ws, isWS c) (hw' : ∀ c ∈ ws', isWS c) {xb : XmlBuffer}
    (hr : Ready (cdataValue ws body ws' ++ rest) xb) : ∃ b e,
      Calls xb (.X .VALUE (some []) :: .X .CDATA () :: (ts ++ [.Z .CDATA, .Z .VALUE])) ⟨b, rest, false, false, e⟩ := by
  have hv : Known ⟨bytes "VALUE", procContent "VALUE" [] (.Z .VALUE) fun _ v => .X .VALUE v, .Z .VALUE⟩ :=
    known (List.mem_of_getElem? (i := 19) rfl)
  let after := ws' ++ (endTag (bytes "VALUE") ++ rest)
  let inner := bytes "![CDATA[" ++ (body ++ (bytes "]]>" ++ after))
  have hs : cdataValue ws body ws' ++ rest = startTag (bytes "VALUE") [] [] ++ (ws ++ 60 :: inner) := by
    simp only [cdataValue, List.append_assoc, inner, after]
    rfl
  rw [hs] at hr
  have h60 : 60 ∉ ws := fun h => absurd (hw 60 h) (by decide)
  have ha : Attributes ([].map bytes) [] := ⟨nofun, Nat.le_refl _, nofun⟩
  have ⟨b, hv₁⟩ := procTag_start hv ha hr
  have ⟨b₁, hg⟩ := @getContent_append (62 :: b) inner ws xb.etag h60 ⟨62, rfl, rfl⟩
  -- The `<` of the section is overwritten if there is white space before it.
  have ⟨c, xb₁, hc, hv₁, hx⟩ : ∃ c xb₁, (c = 60 ∨ c = 0) ∧ sfccLex xb = .ok (.X .VALUE (some []), xb₁) ∧
      xb₁.nextTag = (some inner, ⟨b₁, c :: inner, false, false, xb.etag⟩) := by
    simp only [hg, bind, Except.bind, pure, Except.pure, trimmed_blank hw] at hv₁
    by_cases hn : ws = []
    · rw [if_pos hn] at hv₁
      exact ⟨60, _, .inl rfl, hv₁, rfl⟩
    · rw [if_neg hn] at hv₁
      exact ⟨0, _, .inr rfl, hv₁, XmlBuffer.nextTag_nulled⟩
  have ⟨b₂, hv₂⟩ := sfccLex_section hc hb hh hx
  have ⟨xb₃, hcalls, hr₃⟩ := @hl.calls (bytes "</>" ++ after)
    ⟨b₂, body ++ (bytes "</>" ++ after), false, false, xb.etag⟩ ⟨rfl, rfl, rfl⟩
  have ⟨b₄, hv₄⟩ := sfccLex_sectionEnd hr₃
  have hr₄ : Ready (endTag (bytes "VALUE") ++ rest) ⟨b₄, after, false, false, xb₃.etag⟩ :=
    ⟨List.dropWhile_append_of_pos hw', rfl, rfl⟩
  have ⟨b₅, hv₅⟩ := sfccLex_stop hv hr₄
  have hend : Calls xb₃ [.Z .CDATA, .Z .VALUE] ⟨b₅, rest, false, false, xb₃.etag⟩ := .cons hv₄ nofun (.cons hv₅ nofun .nil)
  exact ⟨b₅, xb₃.etag, .cons hv₁ nofun (.cons hv₂ nofun (hcalls.append hend))⟩

theorem Lexes.cdata (hl : Lexes body ts) (hb : Sealed body) (hh : ∀ c ∈ body.head?, isalnum c = false)
    {ws' : Text} (hw : ∀ c ∈ ws, isWS c) (hw' : ∀ c ∈ ws', isWS c) :
    Lexes (cdataValue ws body ws') (.X .VALUE (some []) :: .X .CDATA () :: (ts ++ [.Z .CDATA, .Z .VALUE])) where
  calls hr := by
    have ⟨_, _, hc⟩ := cdataValue_calls hl hb hh hw hw' hr
    exact ⟨_, hc, ⟨rfl, rfl, rfl⟩⟩
  short    := by
    have hs := hl.short
    simp [cdataValue, bytes]
    omega

end Cdata

end Sfcc.Xml
