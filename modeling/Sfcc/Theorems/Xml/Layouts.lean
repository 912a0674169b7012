import Mathlib.Data.List.Perm.Basic
import Sfcc.Theorems.Cmpi.Named
import Sfcc.Theorems.Xml.Frame

-- The ways to write the attributes of an element.
namespace Sfcc.Xml

-- An attribute, with the white space in front of it and around the `=`, and with the quotes it was written in.
structure Written where
  space  : Text
  name   : Text
  behind : Text
  front  : Text
  quote  : UInt8
  value  : Text

namespace Written

def text (w : Written) : Text :=
  w.space ++ (w.name ++ (w.behind ++ 61 :: (w.front ++ w.quote :: (w.value ++ [w.quote]))))

-- The attribute that is meant.
def meaning (w : Written) : Text × Text :=
  (w.name.lower, w.value)

structure Sound (w : Written) : Prop where
  space  : ∀ c ∈ w.space, isWS c
  behind : ∀ c ∈ w.behind, isWS c
  front  : ∀ c ∈ w.front, isWS c
  quote  : w.quote = 34 ∨ w.quote = 39
  value  : w.quote ∉ w.value

end Written

-- The attributes of a tag, and the white space behind them.
structure Layout where
  attrs : List Written
  space : Text

namespace Layout

def text (l : Layout) : Text :=
  l.attrs.flatMap (·.text) ++ l.space

-- There are only attributes the element can have, each of them once.
structure Sound (elm : List Text) (l : Layout) : Prop where
  attrs    : ∀ w ∈ l.attrs, w.Sound
  allowed  : ∀ w ∈ l.attrs, ∃ n ∈ elm, sameIgnoringCase w.name n
  distinct : (l.attrs.map (·.name.lower)).Nodup
  first    : ∀ w ∈ l.attrs.head?, w.space ≠ []
  space    : ∀ c ∈ l.space, isWS c

def meaning (l : Layout) : List (Text × Text) :=
  l.attrs.map (·.meaning)

end Layout

-- What is known of the attributes after one more of them.
def put (as : List XmlAttr) (a : Text × Text) : List XmlAttr :=
  as.map fun x => if a.1 = x.name.lower then { x with seen := true, attr := some a.2 } else x

section Put

variable {as : List XmlAttr} {a b : Text × Text}

theorem put_names : (put as a).map (·.name) = as.map (·.name) := by
  rw [put, List.map_map]
  apply List.map_congr_left
  intro x _
  simp only [Function.comp]
  split
  · rfl
  · rfl

theorem put_comm (h : a.1 ≠ b.1) : put (put as a) b = put (put as b) a := by
  rw [put, put, put, put, List.map_map, List.map_map]
  apply List.map_congr_left
  intro x _
  by_cases ha : a.1 = x.name.lower
  · have hb : b.1 ≠ x.name.lower := fun hb => h (ha.trans hb.symm)
    simp [ha, hb]
  · by_cases hb : b.1 = x.name.lower
    · simp [ha, hb]
    · simp [ha, hb]

-- The order does not matter.
theorem foldl_put_perm {l l' : List (Text × Text)} (h : l.Perm l') (hn : (l.map (·.1)).Nodup) :
    l.foldl put as = l'.foldl put as := by
  apply h.foldl_eq'
  intro a ha b hb as
  by_cases hab : a.1 = b.1
  · rw [List.inj_on_of_nodup_map hn ha hb hab]
  · exact put_comm hab

end Put

namespace XmlBuffer

variable {b r s : Text} {nulled eTag : Bool} {etag : Tok}

-- A name is taken for a word if it is this word, and not for a part of it.
theorem getWord_name {n w : Text} {c : UInt8} (hn : n.all isalnum) (hw : w.all isalnum) (hc : isalnum c = false) :
    getWord w false ⟨b, n ++ c :: s, nulled, eTag, etag⟩ =
      if sameIgnoringCase n w then some ⟨n.reverse ++ b, c :: s, nulled, eTag, etag⟩ else none := by
  obtain hl | hl | hl := Nat.lt_trichotomy n.length w.length
  -- The byte behind the name is not in a word.
  · have hne : ¬ sameIgnoringCase n w := fun h => Nat.ne_of_lt hl (length_of_same h)
    have ht : ¬ sameIgnoringCase ((n ++ c :: s).take w.length) w := not_same_take hc hw hl
    simp [getWord, hne, ht]
  · have ha := @advance_append b (c :: s) n nulled eTag etag
    simp [getWord, hc, ← hl, ha]
  -- The name goes on behind the word.
  · have hne : ¬ sameIgnoringCase n w := fun h => Nat.ne_of_gt hl (length_of_same h)
    have hd : ((n ++ c :: s).drop w.length).head?.any isalnum := by
      rw [List.drop_append_of_le_length (Nat.le_of_lt hl), List.drop_eq_getElem_cons hl]
      exact List.all_eq_true.mp hn _ (List.getElem_mem hl)
    simp only [getWord, hd, not_true, and_false, if_false, if_neg hne]

theorem getValue_quoted {front v : Text} {q : UInt8} (hf : ∀ c ∈ front, isWS c) (hq : q = 34 ∨ q = 39) (hv : q ∉ v) :
    getValue ⟨b, front ++ q :: (v ++ q :: r), nulled, eTag, etag⟩ =
      .ok (some v, ⟨0 :: (v.reverse ++ q :: (front.reverse ++ b)), r, nulled, eTag, etag⟩) := by
  have hs : ∀ c ∈ (q :: (v ++ q :: r)).head?, isWS c = false := by
    intro c hc
    cases hc
    cases hq with
    | inl h => rw [h]; rfl
    | inr h => rw [h]; rfl
  simp [getValue, skipWS_append hf hs, hq, takeWhile_ne hv, pure, Except.pure]

-- What stands behind the name of an attribute.
theorem read_value {w : Written} (hw : w.Sound) : ∃ b' xb,
    getChars [61] (skipWS ⟨b, w.behind ++ 61 :: (w.front ++ w.quote :: (w.value ++ w.quote :: r)), nulled, eTag, etag⟩) = some xb ∧
      getValue xb = .ok (some w.value, ⟨b', r, nulled, eTag, etag⟩) := by
  let after := w.front ++ w.quote :: (w.value ++ w.quote :: r)
  have he : ∀ c ∈ (61 :: after).head?, isWS c = false := by
    intro c hc
    cases hc
    rfl
  have hc := @getChars_append (w.behind.reverse ++ b) after [61] nulled eTag etag
  rw [List.singleton_append] at hc
  have hs : skipWS ⟨b, w.behind ++ 61 :: after, nulled, eTag, etag⟩ = ⟨w.behind.reverse ++ b, 61 :: after, nulled, eTag, etag⟩ :=
    skipWS_append hw.behind he
  exact ⟨_, _, (congrArg _ hs).trans hc, getValue_quoted hw.front hw.quote hw.value⟩

theorem put_other {as : List XmlAttr} {a : Text × Text} (h : ∀ x ∈ as, a.1 ≠ x.name.lower) : put as a = as := by
  rw [put]
  conv_rhs => rw [← List.map_id as]
  apply List.map_congr_left
  intro x hx
  exact if_neg (h x hx)

-- Up to the quote that closes the value.
def behindSpace (w : Written) (r : Text) : Text :=
  w.name ++ (w.behind ++ 61 :: (w.front ++ w.quote :: (w.value ++ w.quote :: r)))

theorem behindSpace_eq {w : Written} (hw : w.Sound) (r : Text) : ∃ c s, isalnum c = false ∧
    behindSpace w r = w.name ++ c :: s ∧ w.behind ++ 61 :: (w.front ++ w.quote :: (w.value ++ w.quote :: r)) = c :: s := by
  have hb := hw.behind
  rw [behindSpace]
  generalize w.behind = t at hb
  cases t with
  | nil      => exact ⟨61, _, rfl, rfl, rfl⟩
  | cons c s => exact ⟨c, _, Parts.not_isalnum (.inl (hb c (List.mem_cons_self ..))), rfl, rfl⟩

theorem attrOk_put {as : List XmlAttr} (ha : AttrNames (as.map (·.name))) {w : Written} (hw : w.Sound)
    (hn : w.name.all isalnum) (hx : ∃ x ∈ as, x.seen = false ∧ sameIgnoringCase w.name x.name) : ∃ b',
      attrOk as ⟨b, behindSpace w r, nulled, eTag, etag⟩ = .ok (put as w.meaning, ⟨b', r, nulled, eTag, etag⟩) := by
  obtain ⟨c, s, hc, hs, he⟩ := behindSpace_eq hw r
  rw [hs]
  induction as with
  | nil          =>
    obtain ⟨x, hx, _⟩ := hx
    cases hx
  | cons a as hi =>
    obtain ⟨hall, hpair⟩ := ha
    rw [List.map_cons, List.pairwise_cons] at hpair
    obtain ⟨hfirst, hpair⟩ := hpair
    have hname := (hall a.name (List.mem_cons_self ..)).right
    have hword := @getWord_name b s nulled eTag etag w.name a.name c hn hname hc
    obtain ⟨x, hm, hseen, hsame⟩ := hx
    by_cases h : sameIgnoringCase w.name a.name
    · have hne : ∀ y ∈ as, w.meaning.1 ≠ y.name.lower := by
        intro y hy hl
        have hay : a.name.lower = y.name.lower := (sameIgnoringCase_iff.mp h).symm.trans hl
        exact hfirst y.name (List.mem_map_of_mem hy) (sameIgnoringCase_iff.mpr hay)
      have hunseen : a.seen = false := by
        cases List.mem_cons.mp hm with
        | inl hxa => exact hxa ▸ hseen
        | inr hxa => exact absurd (sameIgnoringCase_iff.mp hsame) (hne x hxa)
      obtain ⟨b', xb, hget, hval⟩ := @read_value (w.name.reverse ++ b) r nulled eTag etag w hw
      have hput : put (a :: as) w.meaning = { a with seen := true, attr := some w.value } :: as := by
        have hl : w.meaning.1 = a.name.lower := sameIgnoringCase_iff.mp h
        rw [put, List.map_cons, if_pos hl]
        exact congrArg _ (put_other hne)
      rw [if_pos h, ← he] at hword
      refine ⟨b', ?_⟩
      rw [hput, attrOk, hunseen, ← he]
      simp only [Bool.false_eq_true, if_false, hword, hget, hval]
      rfl
    · have hm : x ∈ as := by
        cases List.mem_cons.mp hm with
        | inl hxa => exact absurd (hxa ▸ hsame) h
        | inr hxa => exact hxa
      obtain ⟨b', hrest⟩ := hi ⟨fun n hn => hall n (List.mem_cons_of_mem _ hn), hpair⟩ ⟨x, hm, hseen, hsame⟩
      have hput : put (a :: as) w.meaning = a :: put as w.meaning := by
        have hl : w.meaning.1 ≠ a.name.lower := fun hl => h (sameIgnoringCase_iff.mpr hl)
        rw [put, List.map_cons, if_neg hl]
        rfl
      rw [if_neg h] at hword
      refine ⟨b', ?_⟩
      rw [hput, attrOk, hword, ite_self]
      simp only [hrest]
      rfl

-- All attributes, up to the end of the tag.
theorem attributes_put {ws : List Written} {as : List XmlAttr} {n : ℕ} {space : Text} (ha : AttrNames (as.map (·.name)))
    (hw : ∀ w ∈ ws, w.Sound) (hd : (ws.map (·.name.lower)).Nodup)
    (hx : ∀ w ∈ ws, ∃ x ∈ as, x.seen = false ∧ sameIgnoringCase w.name x.name) (hspace : ∀ c ∈ space, isWS c)
    (hr : Closes r) (hn : ws.length ≤ n) : ∃ b',
      attributes n as ⟨b, ws.flatMap (·.text) ++ (space ++ r), nulled, eTag, etag⟩ =
        .ok ((ws.map (·.meaning)).foldl put as, ⟨b', r, nulled, eTag, etag⟩) := by
  induction ws generalizing as n b with
  | nil          =>
    have ⟨c, hc, hws, halpha⟩ := hr
    have hh : ∀ c ∈ r.head?, isWS c = false := by
      intro d hd
      rw [hc] at hd
      cases hd
      exact hws
    have hany : r.head?.any isalpha = false := by
      rw [hc]
      exact halpha
    refine ⟨space.reverse ++ b, ?_⟩
    rw [attributes.eq_def]
    simp only [List.flatMap_nil, List.nil_append, skipWS_append hspace hh, hany]
    rfl
  | cons w ws hi =>
    have ⟨hw, hws⟩ := List.forall_mem_cons.mp hw
    have ⟨hx, hxs⟩ := List.forall_mem_cons.mp hx
    rw [List.map_cons, List.nodup_cons] at hd
    have ⟨hne, hd⟩ := hd
    have ⟨n, hn⟩ : ∃ m, n = m + 1 := ⟨n - 1, by simp at hn; omega⟩
    subst hn
    have ⟨x, hm, hseen, hsame⟩ := hx
    have ⟨halpha, halnum⟩ := ha.left x.name (List.mem_map_of_mem hm)
    rw [← head_isalpha_of_same hsame] at halpha
    rw [← all_isalnum_of_same hsame] at halnum
    let after := ws.flatMap (·.text) ++ (space ++ r)
    have htext : (w :: ws).flatMap (·.text) ++ (space ++ r) = w.space ++ behindSpace w after := by
      simp [Written.text, behindSpace, after]
    have hhead : (behindSpace w after).head?.any isalpha := by
      rw [behindSpace]
      generalize w.name = t at halpha
      cases t with
      | nil      => cases halpha
      | cons c t => exact halpha
    have hblank : ∀ c ∈ (behindSpace w after).head?, isWS c = false := by
      intro c hc
      rw [hc, Option.any_some] at hhead
      exact isWS_of_isalpha hhead
    have ⟨b₁, hok⟩ := @attrOk_put (w.space.reverse ++ b) after nulled eTag etag as ha w hw halnum ⟨x, hm, hseen, hsame⟩
    have hnames : AttrNames ((put as w.meaning).map (·.name)) := by rwa [put_names]
    -- The other ones are left for what follows.
    have hothers : ∀ v ∈ ws, ∃ y ∈ put as w.meaning, y.seen = false ∧ sameIgnoringCase v.name y.name := by
      intro v hv
      have ⟨y, hy, hyseen, hysame⟩ := hxs v hv
      have hl : w.meaning.1 ≠ y.name.lower := by
        intro hl
        have hvw : v.name.lower = w.name.lower := (sameIgnoringCase_iff.mp hysame).trans hl.symm
        exact hne (hvw ▸ List.mem_map_of_mem hv)
      exact ⟨y, List.mem_map.mpr ⟨y, hy, if_neg hl⟩, hyseen, hysame⟩
    have ⟨b₂, hrest⟩ := @hi b₁ _ n hnames hws hd hothers (Nat.le_of_succ_le_succ hn)
    refine ⟨b₂, ?_⟩
    rw [htext, attributes.eq_def]
    simp only [skipWS_append hw.space hblank, hhead, if_true, hok]
    exact hrest

end XmlBuffer

section

variable {e : Tags} {elm : List String} {l l' : Layout} {close rest : Text} {xb xb' : XmlBuffer}

theorem Layout.Sound.length_le {elm : List Text} (h : l.Sound elm) : l.attrs.length ≤ elm.length := by
  have hs : l.attrs.map (·.name.lower) ⊆ elm.map Text.lower := by
    intro n hn
    have ⟨w, hw, he⟩ := List.mem_map.mp hn
    have ⟨m, hm, hsame⟩ := h.allowed w hw
    have hl : m.lower = n := (sameIgnoringCase_iff.mp hsame).symm.trans he
    exact List.mem_map.mpr ⟨m, hm, hl⟩
  have hl := (List.subperm_of_subset h.distinct hs).length_le
  rwa [List.length_map, List.length_map] at hl

theorem Layout.Sound.parts {elm : List Text} (h : l.Sound elm) (hc : ∃ c r, Parts c ∧ close = c :: r) :
    ∃ c r, Parts c ∧ l.text ++ close = c :: r := by
  have hfirst := h.first
  have hattrs := h.attrs
  rw [Layout.text]
  generalize l.attrs = ws at hfirst hattrs
  cases ws with
  | nil       =>
    have hspace := h.space
    rw [List.flatMap_nil, List.nil_append]
    generalize l.space = s at hspace
    cases s with
    | nil      => exact hc
    | cons c s => exact ⟨c, s ++ close, .inl (hspace c (List.mem_cons_self ..)), rfl⟩
  | cons w ws =>
    have hne := hfirst w rfl
    have hspace := (hattrs w (List.mem_cons_self ..)).space
    rw [List.flatMap_cons, Written.text]
    generalize w.space = s at hne hspace
    cases s with
    | nil      => exact absurd rfl hne
    | cons c s => exact ⟨c, _, .inl (hspace c (List.mem_cons_self ..)), rfl⟩

-- The start or the whole of an element, with what follows.
theorem Layout.Sound.attributes {elm : List Text} (h : l.Sound elm) (hn : AttrNames elm) (hc : Closes close)
    (b : Text) (etag : Tok) : ∃ b', XmlBuffer.attributes elm.length (elm.map ({ name := · })) ⟨b, l.text ++ close, false, false, etag⟩ =
      .ok (l.meaning.foldl put (elm.map ({ name := · })), ⟨b', close, false, false, etag⟩) := by
  have hnames : (elm.map ({ name := · } : Text → XmlAttr)).map (·.name) = elm := by
    rw [List.map_map]
    exact List.map_id elm
  have hx : ∀ w ∈ l.attrs, ∃ x ∈ elm.map ({ name := · } : Text → XmlAttr), x.seen = false ∧ sameIgnoringCase w.name x.name := by
    intro w hw
    have ⟨n, hn, hsame⟩ := h.allowed w hw
    exact ⟨{ name := n }, List.mem_map_of_mem hn, rfl, hsame⟩
  rw [Layout.text, List.append_assoc]
  exact XmlBuffer.attributes_put (hnames.symm ▸ hn) h.attrs h.distinct hx h.space hc h.length_le

theorem layout_same (he : (e, elm) ∈ attributed) (hl : l.Sound (elm.map bytes)) (hl' : l'.Sound (elm.map bytes))
    (hm : l.meaning.Perm l'.meaning) (hc : close = bytes ">" ∨ close = bytes "/>")
    (hx : Ready (60 :: (e.tag ++ (l.text ++ (close ++ rest)))) xb)
    (hx' : Ready (60 :: (e.tag ++ (l'.text ++ (close ++ rest)))) xb') : SameEnd Same (sfccLex xb) (sfccLex xb') := by
  have ⟨tag, etag, token, hs⟩ := attributed_shape he
  have hk := known (mem_elements he)
  rw [hs.eq] at hk
  have hcl : Closes (close ++ rest) := by
    cases hc with
    | inl hc => exact ⟨62, by rw [hc]; rfl, rfl, rfl⟩
    | inr hc => exact ⟨47, by rw [hc]; rfl, rfl, rfl⟩
  have hend : ∃ c r, Parts c ∧ close ++ rest = c :: r := by
    cases hc with
    | inl hc => exact ⟨62, rest, by decide, by rw [hc]; rfl⟩
    | inr hc => exact ⟨47, 62 :: rest, by decide, by rw [hc]; rfl⟩
  have ⟨c, r, hp, hr⟩ := hl.parts hend
  have ⟨c', r', hp', hr'⟩ := hl'.parts hend
  rw [hs.name, hr] at hx
  rw [hs.name, hr'] at hx'
  have ⟨b, hb⟩ := procTag_process hk hp hx
  have ⟨b', hb'⟩ := procTag_process hk hp' hx'
  rw [← hr] at hb
  rw [← hr'] at hb'
  have ⟨b₁, ha⟩ := hl.attributes hs.names hcl b xb.etag
  have ⟨b₁', ha'⟩ := hl'.attributes hs.names hcl b' xb'.etag
  have hnd : (l.meaning.map (·.1)).Nodup := by
    rw [Layout.meaning, List.map_map]
    exact hl.distinct
  rw [← foldl_put_perm hm hnd] at ha'
  rw [hb, hb']
  refine SameEnd.bind (XmlBuffer.attrsOk_same ?_) fun p p' ⟨⟨hp, hu⟩, hc, hc'⟩ => ?_
  · rw [ha, ha']
    exact .pure ⟨rfl, rfl, rfl, rfl, nofun⟩
  · have ⟨attr, xb₁⟩ := p
    have ⟨attr', xb₁'⟩ := p'
    have hp : attr' = attr := hp
    subst hp
    exact hs.kind.frames attr' _ _ hu hc hc'

def named (quote : UInt8) (space name : String) : Written :=
  ⟨bytes space, bytes name, [], [], quote, bytes "Model"⟩

def typed (quote : UInt8) (space name behind : String) : Written :=
  ⟨bytes space, bytes name, bytes behind, bytes behind, quote, bytes "string"⟩

theorem layout_same_property :
    SameEnd Same (sfccLex (newXmlBuffer (bytes "<PROPERTY NAME=\"Model\" TYPE='string'/>")))
      (sfccLex (newXmlBuffer (bytes "<PROPERTY\ttype = \"string\"Name='Model' />"))) := by
  have he : (⟨bytes "PROPERTY", procProperty, .Z .PROPERTY⟩, ["NAME", "TYPE", "CLASSORIGIN", "PROPAGATED", "EMBEDDEDOBJECT"]) ∈
      attributed := List.mem_of_getElem? (i := 28) rfl
  let l : Layout := ⟨[named 34 " " "NAME", typed 39 " " "TYPE" ""], []⟩
  let l' : Layout := ⟨[typed 34 "\t" "type" " ", named 39 "" "Name"], bytes " "⟩
  have hl : l.Sound (["NAME", "TYPE", "CLASSORIGIN", "PROPAGATED", "EMBEDDEDOBJECT"].map bytes) := by
    refine ⟨List.forall_mem_cons.mpr ⟨?_, List.forall_mem_singleton.mpr ?_⟩, by decide, by decide, by decide, by decide⟩
    · exact ⟨by decide, by decide, by decide, .inl rfl, by decide⟩
    · exact ⟨by decide, by decide, by decide, .inr rfl, by decide⟩
  have hl' : l'.Sound (["NAME", "TYPE", "CLASSORIGIN", "PROPAGATED", "EMBEDDEDOBJECT"].map bytes) := by
    refine ⟨List.forall_mem_cons.mpr ⟨?_, List.forall_mem_singleton.mpr ?_⟩, by decide, by decide, by decide, by decide⟩
    · exact ⟨by decide, by decide, by decide, .inl rfl, by decide⟩
    · exact ⟨by decide, by decide, by decide, .inr rfl, by decide⟩
  have hx : Ready (60 :: (bytes "PROPERTY" ++ (l.text ++ (bytes "/>" ++ []))))
      (newXmlBuffer (bytes "<PROPERTY NAME=\"Model\" TYPE='string'/>")) := ⟨rfl, rfl, rfl⟩
  exact layout_same he hl hl' (.swap _ _ _) (.inr rfl) hx ⟨rfl, rfl, rfl⟩

end

end Sfcc.Xml
