import Sfcc.Theorems.Xml.Termination

open Descent

-- Where the lexer leaves its buffer.
namespace Sfcc.Xml

-- The run ends with an access outside of the buffer, or with a cursor that does not point into it.
def Strays {α : Type} (x : Except LexEnd α) : Prop :=
  x = .error .outside ∨ x = .error .lost

namespace Strays

variable {α β : Type} {a : α} {x : Except LexEnd α} {f : α → Except LexEnd β}

theorem not_ok : ¬ Strays (.ok a) := by
  rintro (h | h)
  · cases h
  · cases h

theorem not_exit : ¬ Strays (.error .exit : Except LexEnd α) := by
  rintro (h | h)
  · cases h
  · cases h

theorem not_null : ¬ Strays (.error .null : Except LexEnd α) := by
  rintro (h | h)
  · cases h
  · cases h

theorem bind : Strays (x >>= f) ↔ Strays x ∨ ∃ a, x = .ok a ∧ Strays (f a) := by
  cases x with
  | error e =>
    constructor
    · rintro (h | h)
      · cases h
        exact .inl (.inl rfl)
      · cases h
        exact .inl (.inr rfl)
    · rintro (h | ⟨a, h, _⟩)
      · obtain h | h := h
        · cases h
          exact .inl rfl
        · cases h
          exact .inr rfl
      · cases h
  | ok a    =>
    constructor
    · intro h
      exact .inr ⟨a, rfl, h⟩
    · rintro (h | ⟨b, h, hf⟩)
      · exact absurd h not_ok
      · cases h
        exact hf

theorem map {f : α → β} : Strays (x.map f) ↔ Strays x := by
  have hb : x.map f = x >>= fun a => .ok (f a) := by cases x <;> rfl
  rw [hb, bind]
  refine or_iff_left ?_
  rintro ⟨_, _, h⟩
  exact not_ok h

end Strays

theorem takeWhile_length {q : UInt8} {v : Text} : (v.takeWhile (· ≠ q)).length < v.length ↔ q ∈ v := by
  induction v with
  | nil       => simp
  | cons c v hi =>
    by_cases h : c = q
    · simp [h]
    · simpa [h, Ne.symm h] using hi

-- The attributes that were not there yet.
def unseen (as : List XmlAttr) : ℕ :=
  as.countP (¬ ·.seen)

namespace XmlBuffer

variable {xb y z : XmlBuffer}

-- Whether the name of the attribute is next.
def names (xb : XmlBuffer) (a : XmlAttr) : Bool :=
  ¬ a.seen ∧ (xb.getWord a.name false).isSome

-- The value of an attribute is opened, but not closed.
def OpenValue (xb : XmlBuffer) : Prop :=
  ∃ q v, xb.skipWS.rest = q :: v ∧ (q = 34 ∨ q = 39) ∧ q ∉ v

-- Behind some of the attributes there is one with such a value.
inductive Unclosed : List XmlAttr → XmlBuffer → Prop
  | here {as xb a y z} (start : xb.skipWS.rest.head?.any isalpha) (next : as.find? xb.skipWS.names = some a)
    (name : xb.skipWS.getWord a.name false = some y) (equals : y.skipWS.getChars [61] = some z) (value : z.OpenValue) :
    Unclosed as xb
  | later {as as' xb y} (start : xb.skipWS.rest.head?.any isalpha) (read : xb.skipWS.attrOk as = .ok (as', y))
    (rest : Unclosed as' y) : Unclosed as xb

theorem getValue_strays : Strays xb.getValue ↔ xb.OpenValue := by
  rw [getValue, OpenValue]
  simp only
  split
  · have hr : xb.skipWS.rest = [] := ‹_›
    refine iff_of_false Strays.not_ok ?_
    rintro ⟨q, v, h, _⟩
    cases hr.symm.trans h
  · rename_i q v hr
    have heq : (∃ q v, xb.skipWS.rest = q :: v ∧ (q = 34 ∨ q = 39) ∧ q ∉ v) ↔ (q = 34 ∨ q = 39) ∧ q ∉ v := by
      rw [hr]
      constructor
      · rintro ⟨_, _, h, hq⟩
        cases h
        exact hq
      · intro hq
        exact ⟨q, v, rfl, hq⟩
    rw [heq]
    split
    · rw [and_iff_right ‹q = 34 ∨ q = 39›]
      split
      · exact iff_of_false Strays.not_ok (not_not_intro (takeWhile_length.mp ‹_›))
      · exact iff_of_true (.inl rfl) (mt takeWhile_length.mpr ‹_›)
    · exact iff_of_false Strays.not_ok fun h => absurd h.1 ‹_›

theorem attrOk_strays {as : List XmlAttr} : Strays (xb.attrOk as) ↔
    ∃ a y z, as.find? xb.names = some a ∧ xb.getWord a.name false = some y ∧ y.skipWS.getChars [61] = some z ∧ z.OpenValue := by
  induction as with
  | nil          =>
    refine iff_of_false Strays.not_exit ?_
    rintro ⟨_, _, _, h, _⟩
    cases h
  | cons a as hi =>
    rw [attrOk, List.find?_cons]
    by_cases hn : xb.names a
    · obtain ⟨hs, hw⟩ : ¬ a.seen ∧ (xb.getWord a.name false).isSome := by simpa [names] using hn
      obtain ⟨y, hy⟩ := Option.isSome_iff_exists.mp hw
      rw [if_neg hs, hy]
      simp only [hn]
      constructor
      · intro h
        cases hz : y.skipWS.getChars [61] with
        | none   =>
          rw [hz] at h
          exact absurd h Strays.not_exit
        | some z =>
          rw [hz] at h
          obtain h | ⟨_, _, h⟩ := Strays.bind.mp h
          · exact ⟨a, y, z, rfl, hy, hz, getValue_strays.mp h⟩
          · exact absurd h Strays.not_ok
      · rintro ⟨a', y', z, ha, hy', hz, hv⟩
        cases ha
        cases hy.symm.trans hy'
        rw [hz]
        exact Strays.bind.mpr (.inl (getValue_strays.mpr hv))
    · have hs : (if a.seen then none else xb.getWord a.name false) = none := by
        split
        · rfl
        · simpa [names, ‹¬ _›] using hn
      rw [hs]
      simp only [Bool.eq_false_iff.mpr hn]
      rw [← hi, Strays.bind]
      refine or_iff_left ?_
      rintro ⟨_, _, h⟩
      exact Strays.not_ok h

theorem attrOk_unseen {as as' : List XmlAttr} (h : xb.attrOk as = .ok (as', y)) : unseen as' + 1 = unseen as := by
  induction as generalizing as' with
  | nil          => cases h
  | cons a as hi =>
    rw [attrOk] at h
    split at h
    · rename_i z hz
      have hs : a.seen = false := by
        split at hz
        · cases hz
        · exact Bool.eq_false_iff.mpr ‹_›
      split at h
      · rename_i u _
        cases hv : u.getValue with
        | error e =>
          rw [hv] at h
          cases h
        | ok p    =>
          rw [hv] at h
          cases h
          simp [unseen, hs]
      · cases h
    · cases hr : xb.attrOk as with
      | error e =>
        rw [hr] at h
        cases h
      | ok p    =>
        obtain ⟨as₁, y₁⟩ := p
        rw [hr] at h
        cases h
        have hp := hi hr
        simp only [unseen, List.countP_cons] at hp ⊢
        omega

theorem unseen_pos {as : List XmlAttr} {a : XmlAttr} (h : as.find? xb.names = some a) : 0 < unseen as := by
  have hn : xb.names a := List.find?_some h
  refine List.countP_pos_iff.mpr ⟨a, List.mem_of_find?_eq_some h, ?_⟩
  simp only [names, decide_eq_true_eq] at hn ⊢
  exact hn.1

-- There are as many turns as there are names.
theorem attributes_strays {n : ℕ} {as : List XmlAttr} (h : unseen as ≤ n) : Strays (xb.attributes n as) ↔ Unclosed as xb := by
  induction n generalizing xb as with
  | zero      =>
    simp only [attributes]
    refine iff_of_false ?_ ?_
    · split
      · exact Strays.not_exit
      · exact Strays.not_ok
    · rintro (⟨_, hf, _⟩ | ⟨_, hr, _⟩)
      · have := unseen_pos hf
        omega
      · have := attrOk_unseen hr
        omega
  | succ n hi =>
    simp only [attributes]
    split
    · rw [Strays.bind, attrOk_strays]
      constructor
      · rintro (⟨a, y, z, hf, hy, hz, hv⟩ | ⟨⟨as', y⟩, hr, hs⟩)
        · exact .here ‹_› hf hy hz hv
        · have hu := attrOk_unseen hr
          have hn : unseen as' ≤ n := by omega
          exact .later ‹_› hr ((hi hn).mp hs)
      · rintro (⟨_, hf, hy, hz, hv⟩ | ⟨_, hr, hu⟩)
        · exact .inl ⟨_, _, _, hf, hy, hz, hv⟩
        · have hn := (Nat.le_of_eq (attrOk_unseen hr)).trans h
          exact .inr ⟨_, hr, (hi (Nat.le_of_succ_le_succ hn)).mpr hu⟩
    · refine iff_of_false Strays.not_ok ?_
      rintro (⟨hs, _⟩ | ⟨hs, _⟩)
      · exact absurd hs ‹_›
      · exact absurd hs ‹_›

theorem attrsOk_strays {elm : List Text} {tag : Text} {etag : Tok} :
    Strays (xb.attrsOk elm tag etag) ↔ Unclosed (elm.map ({ name := · })) { xb with eTagFound := false } := by
  rw [attrsOk, Strays.bind, attributes_strays (List.countP_le_length.trans (Nat.le_of_eq (List.length_map _)))]
  refine or_iff_left ?_
  rintro ⟨⟨as, y⟩, _, h⟩
  simp only at h
  split at h
  · exact Strays.not_ok h
  · split at h
    · exact Strays.not_ok h
    · split at h
      · exact Strays.not_ok h
      · exact Strays.not_exit h

theorem attrsOk_closed {elm : List Text} {tag : Text} {etag : Tok} {attr : ℕ → Option Text}
    (h : xb.attrsOk elm tag etag = .ok (attr, y)) : y.Closed := by
  have hu : xb.Alike xb := ⟨rfl, rfl, rfl, fun _ => rfl⟩
  obtain ⟨_, _, _, hc, _⟩ := (hu.attrsOk elm tag etag).returns h
  exact hc

theorem Closed.getContent (h : xb.Closed) : ¬ Strays xb.getContent := by
  rw [XmlBuffer.getContent]
  split
  · exact Strays.not_ok
  · split
    · exact Strays.not_ok
    · obtain ⟨b, hb⟩ := h.nullWS (Bool.eq_false_iff.mpr ‹_›) (xb.rest.take (xb.rest.takeWhile (· ≠ 60)).length).reverse
      simp only [advance, hb, Strays.bind]
      rintro (h | ⟨_, _, h⟩)
      · exact Strays.not_ok h
      · split at h
        · exact Strays.not_ok h
        · exact Strays.not_ok h

theorem getWord_eq_none {t : Text} : xb.getWord t true = none ↔ ¬ nextEquals xb.rest t := by
  have ht : xb.rest.take t.length = t ↔ t.isPrefixOf xb.rest := by
    rw [List.isPrefixOf_iff_prefix, List.prefix_iff_eq_take, eq_comm]
  simp only [getWord, if_true, ht, nextEquals, decide_eq_true_eq]
  split
  · exact iff_of_false (Option.some_ne_none _) (not_not_intro ‹_›)
  · exact iff_of_true rfl ‹_›

-- There is nothing to go back to behind a byte that is 0.
theorem tagEquals_strays {t : Text} (ht : t ≠ []) :
    Strays (xb.tagEquals t) ↔ xb.rest.headD 0 = 0 ∧ ¬ nextEquals (xb.rest.tail.dropWhile isWS) t := by
  rw [tagEquals]
  split
  · have hr : xb.rest = [] := ‹_›
    refine iff_of_true (.inl rfl) ⟨by rw [hr]; rfl, ?_⟩
    rw [hr]
    cases t with
    | nil      => exact absurd rfl ht
    | cons c t => exact Bool.false_ne_true
  · have hr : xb.rest = 0 :: _ := ‹_›
    have hs : (xb.advance 1).skipWS.skipWS.rest = xb.rest.tail.dropWhile isWS := by
      rw [skipWS_skipWS, skipWS_rest, advance, List.drop_one]
    rw [← hs, ← getWord_eq_none, hr]
    cases (xb.advance 1).skipWS.skipWS.getWord t true with
    | none   => exact iff_of_true (.inr rfl) ⟨rfl, rfl⟩
    | some y => exact iff_of_false Strays.not_ok fun h => Option.some_ne_none _ h.2
  · rename_i h₁ h₂
    refine iff_of_false Strays.not_ok ?_
    rintro ⟨h, _⟩
    cases hr : xb.rest with
    | nil      => exact h₁ hr
    | cons c q =>
      rw [hr] at h
      replace h : c = 0 := h
      exact h₂ q (h ▸ hr)

theorem getWord_eTagFound {w : Text} (h : xb.getWord w true = some y) : y.eTagFound = xb.eTagFound := by
  simp only [getWord, if_true] at h
  split at h
  · cases h
    rfl
  · cases h

theorem tagEquals_eTagFound {t : Text} (h : xb.tagEquals t = .ok (some y)) : y.eTagFound = xb.eTagFound := by
  rw [tagEquals] at h
  split at h
  · cases h
  · cases hw : (xb.advance 1).skipWS.skipWS.getWord t true with
    | none   =>
      rw [hw] at h
      cases h
    | some z =>
      rw [hw] at h
      cases h
      exact (getWord_eTagFound hw :)
  · cases hg : xb.skipWS.getChars [60] with
    | none   =>
      rw [hg] at h
      cases h
    | some z =>
      have hw : z.skipWS.getWord t true = some y := by
        rw [hg] at h
        exact Except.ok.inj h
      rw [getChars] at hg
      split at hg
      · cases hg
        exact (getWord_eTagFound hw :)
      · cases hg

end XmlBuffer

section

variable {tag : String} {elm : List String} {etag : Tok} {token : (ℕ → Option Text) → Proc} {xb : XmlBuffer}

theorem TokenKind.not_strays (h : TokenKind tag token) (attr : ℕ → Option Text) (hc : xb.Closed) : ¬ Strays (token attr xb) := by
  cases h with
  | element    => exact Strays.not_ok
  | content    =>
    rw [Strays.bind]
    rintro (h | ⟨_, _, h⟩)
    · exact hc.getContent h
    · exact Strays.not_ok h
  | named      =>
    simp only
    split
    · exact Strays.not_null
    · exact Strays.not_ok
  | paramValue =>
    simp only
    split
    · exact Strays.not_ok
    · split
      · exact Strays.not_ok
      · exact Strays.not_exit

theorem procTag_strays (h : TokenKind tag token) : Strays (procTag tag elm etag token xb) ↔
    Strays (xb.tagEquals (bytes tag)) ∨ ∃ y, xb.tagEquals (bytes tag) = .ok (some y) ∧
      XmlBuffer.Unclosed ((elm.map bytes).map ({ name := · })) { y with eTagFound := false } := by
  rw [procTag, Strays.bind]
  refine or_congr_right ⟨?_, ?_⟩
  · rintro ⟨o, ho, hs⟩
    cases o with
    | none   => exact absurd hs Strays.not_ok
    | some y =>
      obtain hs | ⟨⟨attr, z⟩, hz, hs⟩ := Strays.bind.mp hs
      · exact ⟨y, ho, XmlBuffer.attrsOk_strays.mp hs⟩
      · exact absurd hs (h.not_strays attr (XmlBuffer.attrsOk_closed hz))
  · rintro ⟨y, ho, hu⟩
    exact ⟨some y, ho, Strays.bind.mpr (.inl (XmlBuffer.attrsOk_strays.mpr hu))⟩

theorem procCdata_strays : Strays (procCdata xb) ↔ Strays (xb.tagEquals (bytes "![CDATA[")) := by
  rw [procCdata, Strays.bind]
  refine or_iff_left ?_
  rintro ⟨o, _, hs⟩
  cases o with
  | none   => exact Strays.not_ok hs
  | some y =>
    obtain hs | ⟨⟨_, z⟩, _, hs⟩ := Strays.bind.mp hs
    · obtain ⟨_, hf, _⟩ | ⟨_, hr, _⟩ := XmlBuffer.attrsOk_strays.mp hs
      · cases hf
      · cases hr
    · simp only at hs
      split at hs
      · exact Strays.not_ok hs
      · exact Strays.not_ok hs

end

-- The text behind the `<` at the cursor, where no end of an element is pending.
structure Starts (xb y : XmlBuffer) (next : Text) : Prop where
  tag     : xb.nextTag = (some next, y)
  pending : y.eTagFound = false

-- An attribute of the element is cut off behind the name at the cursor.
def CutElement (e : Tags) (y : XmlBuffer) : Prop :=
  ∃ elm z, (e, elm) ∈ attributed ∧ y.tagEquals e.tag = .ok (some z) ∧
    XmlBuffer.Unclosed ((elm.map bytes).map ({ name := · })) z

-- In the place of a `<` that was overwritten there is neither a known name nor a section.
structure Misplaced (e : Tags) (y : XmlBuffer) : Prop where
  other    : e ∉ elements
  nulled   : y.rest.headD 0 = 0
  section_ : ¬ nextEquals (y.rest.tail.dropWhile isWS) (bytes "![CDATA[")

-- What begins at the cursor is cut off.
inductive Cut : XmlBuffer → Prop
  | endTag {xb y next e} (start : Starts xb y (47 :: next)) (known : tags.find? (nextEquals next ·.tag) = some e)
    (cut : 62 ∉ y.rest) : Cut xb
  | comment {xb y next} (start : Starts xb y next) (comment : (bytes "<!--").isPrefixOf y.rest)
    (cut : strstr (bytes "-->") y.rest = none) : Cut xb
  | behind {xb y z next} (start : Starts xb y next) (comment : (bytes "<!--").isPrefixOf y.rest)
    (skip : skipComment y = .ok z) (cut : Cut z) : Cut xb
  | tag {xb y next e} (start : Starts xb y next) (opens : next.head? ≠ some 47)
    (plain : (bytes "<!--").isPrefixOf y.rest = false) (known : tags.find? (nextEquals next ·.tag) = some e)
    (cut : CutElement e y ∨ Misplaced e y) : Cut xb

section

variable {xb y z : XmlBuffer} {next : Text} {e : Tags}

theorem Starts.next_eq (h : Starts xb y next) : next = y.rest.tail := by
  have ht := h.tag
  rw [XmlBuffer.nextTag] at ht
  split at ht
  · cases ht
    rfl
  · simp only at ht
    split at ht
    · cases ht
      rfl
    · cases ht

-- The name of an element is found where it was looked for.
theorem tagEquals_known (he : e ∈ elements) (hk : nextEquals y.rest.tail e.tag) : ¬ Strays (y.tagEquals e.tag) := by
  obtain ⟨c, hc, hws, _⟩ := elements_starts he
  have hp : e.tag <+: y.rest.tail := by
    simp only [nextEquals, decide_eq_true_eq] at hk
    exact List.isPrefixOf_iff_prefix.mp hk.1
  obtain ⟨t, ht⟩ := hp
  generalize hw : e.tag = w at *
  cases w with
  | nil      => cases hc
  | cons d w =>
    cases hc
    have hd : y.rest.tail.dropWhile isWS = y.rest.tail := by
      rw [← ht, List.cons_append]
      exact List.dropWhile_cons_of_neg (Bool.eq_false_iff.mp hws)
    rw [XmlBuffer.tagEquals_strays (List.cons_ne_nil _ _), hd]
    exact fun h => h.2 hk

theorem process_strays (hk : tags.find? (nextEquals y.rest.tail ·.tag) = some e) (hp : y.eTagFound = false) :
    Strays (e.process y) ↔ CutElement e y ∨ Misplaced e y := by
  have hn := List.find?_some hk
  have hm : e ∈ elements ++ [cdataTag, cdataEnd] := List.mem_of_find?_eq_some hk
  by_cases he : e ∈ elements
  · have hi (elm : List String) (ha : (e, elm) ∈ attributed) : Strays (e.process y) ↔
        ∃ z, y.tagEquals e.tag = .ok (some z) ∧ XmlBuffer.Unclosed ((elm.map bytes).map ({ name := · })) z := by
      obtain ⟨tag, etag, token, hs⟩ := attributed_shape ha
      rw [hs.process, procTag_strays hs.kind, ← hs.name, or_iff_right (tagEquals_known he hn)]
      refine exists_congr fun z => and_congr_right fun hz => ?_
      have hf : z.eTagFound = false := (XmlBuffer.tagEquals_eTagFound hz).trans hp
      rw [← hf]
    constructor
    · intro h
      rw [← attributed_elements] at he
      obtain ⟨⟨_, elm⟩, ha, rfl⟩ := List.mem_map.mp he
      obtain ⟨z, hz, hu⟩ := (hi elm ha).mp h
      exact .inl ⟨elm, z, ha, hz, hu⟩
    · rintro (⟨elm, z, ha, hz, hu⟩ | h)
      · exact (hi elm ha).mpr ⟨z, hz, hu⟩
      · exact absurd he h.other
  · have hc : e.process = procCdata := by
      obtain h | h := List.mem_pair.mp ((List.mem_append.mp hm).resolve_left he)
      · rw [h]
        rfl
      · rw [h]
        rfl
    rw [hc, procCdata_strays, XmlBuffer.tagEquals_strays (by decide)]
    constructor
    · intro h
      exact .inr ⟨he, h.1, h.2⟩
    · rintro (⟨elm, _, ha, _⟩ | h)
      · exact absurd (mem_elements ha) he
      · exact ⟨h.nulled, h.section_⟩

theorem skipTag_strays : Strays y.skipTag ↔ 62 ∉ y.rest := by
  simp only [XmlBuffer.skipTag]
  split
  · exact iff_of_false Strays.not_ok (not_not_intro (takeWhile_length.mp ‹_›))
  · exact iff_of_true (.inl rfl) (mt takeWhile_length.mpr ‹_›)

theorem skipComment_strays : Strays (skipComment y) ↔ strstr (bytes "-->") y.rest = none := by
  rw [skipComment]
  split
  · exact iff_of_true (.inr rfl) ‹_›
  · rename_i h
    exact iff_of_false Strays.not_ok (by rw [h]; exact Option.some_ne_none _)

theorem sfccLex_skipTag_strays (hs : Starts xb y (47 :: next)) (hk : tags.find? (nextEquals next ·.tag) = some e) :
    Strays (sfccLex xb) ↔ 62 ∉ y.rest := by
  rw [sfccLex_skipTag hs.tag hs.pending hk, Strays.map, skipTag_strays]

theorem sfccLex_skipComment (hs : Starts xb y next) (hp : (bytes "<!--").isPrefixOf y.rest) :
    sfccLex xb = skipComment y >>= sfccLex := by
  have h47 : next.head? ≠ some 47 := by
    obtain ⟨t, ht⟩ := List.isPrefixOf_iff_prefix.mp hp
    rw [hs.next_eq, ← ht]
    exact fun h => absurd (Option.some.inj h) (by decide)
  rw [sfccLex, sfccLexN, hs.tag]
  simp only [hs.pending, Bool.false_eq_true, if_false, h47, hp, if_true]
  cases hz : skipComment y with
  | error e => rfl
  | ok z    => exact sfccLexN_eq (Nat.lt_of_lt_of_le (skipComment_length hz) (nextTag_length hs.tag))

theorem sfccLex_unknownEnd (hs : Starts xb y (47 :: next)) (hk : tags.find? (nextEquals next ·.tag) = none) :
    sfccLex xb = .ok (.none, y) := by
  rw [sfccLex, sfccLexN, hs.tag]
  simp only [hs.pending, Bool.false_eq_true, if_false, List.head?_cons, if_true, List.tail_cons, hk]
  rfl

theorem sfccLex_unknown (hs : Starts xb y next) (h47 : next.head? ≠ some 47) (hc : (bytes "<!--").isPrefixOf y.rest = false)
    (hk : tags.find? (nextEquals next ·.tag) = none) : sfccLex xb = .ok (.none, y) := by
  rw [sfccLex, sfccLexN, hs.tag]
  simp only [hs.pending, Bool.false_eq_true, if_false, h47, hc, hk]
  rfl

theorem sfccLex_strays : Strays (sfccLex xb) ↔ Cut xb := by
  constructor
  · intro h
    induction hl : xb.rest.length using Nat.strong_induction_on generalizing xb with
    | _ l hi =>
      cases hx : xb.nextTag with
      | mk next y =>
        cases next with
        | none      => exact absurd (sfccLex_none hx ▸ h) Strays.not_ok
        | some next =>
          cases hp : y.eTagFound with
          | true  => exact absurd (sfccLex_etag hx hp ▸ h) Strays.not_ok
          | false =>
            have hs : Starts xb y next := ⟨hx, hp⟩
            by_cases h47 : next.head? = some 47
            · obtain ⟨n, rfl⟩ := List.head?_eq_some_iff.mp h47
              cases hk : tags.find? (nextEquals n ·.tag) with
              | none   => exact absurd (sfccLex_unknownEnd hs hk ▸ h) Strays.not_ok
              | some e => exact .endTag hs hk ((sfccLex_skipTag_strays hs hk).mp h)
            · cases hc : (bytes "<!--").isPrefixOf y.rest with
              | true  =>
                rw [sfccLex_skipComment hs hc] at h
                obtain h | ⟨z, hz, h⟩ := Strays.bind.mp h
                · exact .comment hs hc (skipComment_strays.mp h)
                · have hlt := Nat.lt_of_lt_of_le (skipComment_length hz) (nextTag_length hx)
                  exact .behind hs hc hz (hi _ (hl ▸ hlt) h rfl)
              | false =>
                cases hk : tags.find? (nextEquals next ·.tag) with
                | none   => exact absurd (sfccLex_unknown hs h47 hc hk ▸ h) Strays.not_ok
                | some e =>
                  rw [sfccLex_process hx hp h47 hc hk] at h
                  refine .tag hs h47 hc hk ((process_strays ?_ hp).mp h)
                  rw [← hs.next_eq]
                  exact hk
  · intro h
    induction h with
    | endTag hs hk hc        => exact (sfccLex_skipTag_strays hs hk).mpr hc
    | comment hs hp hc       =>
      rw [sfccLex_skipComment hs hp]
      exact Strays.bind.mpr (.inl (skipComment_strays.mpr hc))
    | behind hs hp hz _ hi   =>
      rw [sfccLex_skipComment hs hp]
      exact Strays.bind.mpr (.inr ⟨_, hz, hi⟩)
    | tag hs ho hp hk hc     =>
      rw [sfccLex_process hs.tag hs.pending ho hp hk]
      rw [hs.next_eq] at hk
      exact (process_strays hk hs.pending).mpr hc

end

-- None of the calls that a run of the parser makes leaves the buffer.
def InBounds (log : List (Except LexEnd Tok)) : Prop :=
  ∀ r ∈ log, ¬ Strays r

-- The buffer before the call that comes after `n` calls.
abbrev called (text : Text) (n : ℕ) : XmlBuffer :=
  xmlSource.step^[n] (newXmlBuffer text)

theorem allInBounds_iff {req : Request} {hdr : ResponseHdr} {ct : Tok} {text : Text} {o d}
    (h : Runs xmlSource (Grammar.start req hdr) (startingWith ct text) o d) :
    InBounds d.log ↔ ∀ n < d.log.length, ¬ Cut (called text n) := by
  have hc (n : ℕ) : Strays ((sfccLex (called text n)).map Prod.fst) ↔ Cut (called text n) := Strays.map.trans sfccLex_strays
  constructor
  · intro hb n hn hcut
    exact hb _ ((h.mem_log rfl).mpr ⟨n, hn, rfl⟩) ((hc n).mpr hcut)
  · intro hcut r hr hs
    obtain ⟨n, hn, rfl⟩ := (h.mem_log rfl).mp hr
    exact hcut n hn ((hc n).mp hs)

-- A response without a result.
def deleted : Text :=
  bytes "<CIM><MESSAGE><SIMPLERSP><IMETHODRESPONSE NAME='DeleteInstance'></IMETHODRESPONSE></SIMPLERSP></MESSAGE></CIM>"

theorem allInBounds_iff_deleted : ∃ o d, Runs xmlSource (Grammar.start { bytesOf := fun _ => [] } {}) (startingWith .none deleted) o d ∧
    (InBounds d.log ↔ ∀ n < d.log.length, ¬ Cut (called deleted n)) := by
  obtain ⟨o, d, h, _⟩ := start_runs { bytesOf := fun _ => [] } {} .none deleted
  exact ⟨o, d, h, allInBounds_iff h⟩

-- The value of an attribute ends with the text.
theorem not_inBounds_xml : ¬ ∀ text : Text, 0 ∉ text → ∀ req hdr ct o d,
    Runs xmlSource (Grammar.start req hdr) (startingWith ct text) o d → InBounds d.log := by
  intro h
  have hs : sfccLex (newXmlBuffer (bytes "<?xml version=\"1.0")) = .error .outside := rfl
  have hr : Runs xmlSource (Grammar.start { bytesOf := fun _ => [] } {}) (startingWith .none (bytes "<?xml version=\"1.0"))
      (.error (.lexer .outside)) { startingWith .none (bytes "<?xml version=\"1.0") with log := [.error .outside] } :=
    .stopped (.stopped (.failed rfl hs))
  exact h _ (by decide) _ _ _ _ _ hr _ (List.mem_singleton_self _) (.inl rfl)

end Sfcc.Xml
