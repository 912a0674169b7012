import Sfcc.Theorems.Xml.Frame
import Sfcc.Theorems.Xml.Values

-- An instance in a section, and what is behind it.
namespace Sfcc.Xml

-- A text in which no `]` stands before a `>`, wherever it is put.
structure Unbracketed (t : Text) : Prop where
  inside : ¬ [93, 62] <:+: t
  first  : t.head? ≠ some 62

namespace Unbracketed

variable {a b t : Text}

theorem of_not_mem (h : 62 ∉ t) : Unbracketed t where
  inside hi := h (hi.subset (by simp))
  first hf  := h (List.mem_of_mem_head? hf)

theorem append (ha : Unbracketed a) (hb : Unbracketed b) : Unbracketed (a ++ b) where
  inside h := by
    cases List.infix_append_iff_ne_nil.mp h with
    | inl h => exact ha.inside h
    | inr h =>
      cases h with
      | inl h => exact hb.inside h
      | inr h =>
        have ⟨l₁, l₂, h₁, h₂, hl, _, hp⟩ := h
        have ⟨c, hc⟩ := hp
        cases l₁ with
        | nil       => exact h₁ rfl
        | cons d l₁ =>
          have ⟨_, hl⟩ := List.cons.inj hl
          cases l₁ with
          | nil      =>
            have hl : [62] = l₂ := hl
            exact hb.first (by rw [← hc, ← hl]; rfl)
          | cons _ _ => exact h₂ (List.append_eq_nil_iff.mp (List.cons.inj hl).right.symm).right
  first h  := by
    cases a with
    | nil      => exact hb.first h
    | cons c a => exact ha.first h

theorem flatten {ts : List Text} (h : ∀ t ∈ ts, Unbracketed t) : Unbracketed ts.flatten := by
  induction ts with
  | nil          => exact of_not_mem List.not_mem_nil
  | cons t ts hi =>
    have ⟨ht, hts⟩ := List.forall_mem_cons.mp h
    exact ht.append (hi hts)

theorem is_sealed (h : Unbracketed t) : Sealed t := by
  intro r
  replace h := h.inside
  induction t with
  | nil         => rfl
  | cons c t hi =>
    have ht : ¬ [93, 62] <:+: t := fun hi => h (List.infix_cons hi)
    -- The `>` of the end would stand in the text, behind a bracket.
    have hp : (bytes "]]>").isPrefixOf (c :: t ++ (bytes "]]>" ++ r)) = false := by
      cases t with
      | nil      => simp [bytes, List.isPrefixOf]
      | cons d t =>
        cases t with
        | nil      => simp [bytes, List.isPrefixOf]
        | cons e t =>
          rw [Bool.eq_false_iff]
          intro hm
          have hm : [93, 93, 62] <+: c :: d :: e :: (t ++ (bytes "]]>" ++ r)) := List.isPrefixOf_iff_prefix.mp hm
          obtain ⟨_, hd, he, _⟩ : 93 = c ∧ 93 = d ∧ 62 = e ∧ [] <+: t ++ (bytes "]]>" ++ r) := by
            simpa only [List.cons_prefix_cons] using hm
          exact ht ⟨[], t, by rw [← hd, ← he]; rfl⟩
    rw [List.cons_append, strstr, ← List.cons_append, hp]
    exact hi ht

end Unbracketed

-- A text without the bytes that end a section, which can stand in a tag.
def Bare (t : Text) : Prop :=
  ∀ c ∈ ([62, 93] : Text), c ∉ t

instance (t : Text) : Decidable (Bare t) :=
  inferInstanceAs (Decidable (∀ c ∈ ([62, 93] : Text), c ∉ t))

theorem Bare.append {a b : Text} (ha : Bare a) (hb : Bare b) : Bare (a ++ b) :=
  fun c hc hm => (List.mem_append.mp hm).elim (ha c hc) (hb c hc)

theorem Bare.tag {a : Text} (h : Bare a) (hn : a ≠ []) : Unbracketed (a ++ bytes ">\n") where
  inside hi := by
    cases List.infix_append_iff_ne_nil.mp hi with
    | inl hi => exact h 62 (by simp) (hi.subset (by simp))
    | inr hi =>
      cases hi with
      | inl hi => exact absurd hi (by decide)
      | inr hi =>
        have ⟨l₁, l₂, h₁, _, hl, hs, _⟩ := hi
        cases l₁ with
        | nil       => exact h₁ rfl
        | cons c l₁ =>
          have ⟨hc, _⟩ := List.cons.inj hl
          exact h 93 (by simp) (hs.subset (hc ▸ List.mem_cons_self ..))
  first hf  := by
    cases a with
    | nil      => exact hn rfl
    | cons c a => exact h 62 (by simp) (Option.some.inj hf ▸ List.mem_cons_self ..)

-- A text that ends neither an attribute nor a tag.
def Quotable (t : Text) : Prop :=
  34 ∉ t ∧ 62 ∉ t

theorem IsName.quotable {t : Text} (h : IsName t) : Quotable t :=
  ⟨h.not_mem 34 (by simp), h.not_mem 62 (by simp)⟩

-- A value in an array may be left as it was, which is all zero.
def Item (type : CMPIType) (v : CMPIValue) : Prop :=
  v = .zero ∨ Scalar (0 ∉ ·) type v

-- A property without references, and without texts that a section cannot hold.
inductive Embeddable (p : NativeProperty CMPIValue) : Prop
  | null (h : p.state.isNull)
  | value (h : Scalar (0 ∉ ·) p.type p.value)
  | array {a : CMPIArray} (ht : p.type.isArray) (hv : p.value = .array a)
      (h : ∀ e ∈ a.data, Item p.type.element e.value)

theorem isalnum_of_isWS {c : UInt8} (h : isWS c) : isalnum c = false := by
  simp only [isWS, isalnum, isalpha, isdigit, UInt8.le_iff_toNat_le, decide_eq_true_eq, decide_eq_false_iff_not] at *
  simp at *
  omega

section

variable {printg : Text → Text} {S : Text → Prop} {type : CMPIType} {v : CMPIValue} {cv : Text}

theorem Scalar.valueText_open (h : Scalar S type v) (hv : valueText printg type v = .ok cv) : 60 ∉ cv ∧ 62 ∉ cv := by
  cases h.printed_or with
  | inl h =>
    have ⟨t, _, ht, hs⟩ := h
    subst ht hs
    cases hv
    exact ⟨AsciiToXmlStr_not_mem rfl (by decide), AsciiToXmlStr_not_mem rfl (by decide)⟩
  | inr h =>
    have ⟨text, h, _⟩ := h
    cases (h.print printg).symm.trans hv
    exact ⟨h.open_, h.close⟩

theorem zero_printed {t : Text} (h : plain2Chars printg type .zero = .ok t) :
    t ∈ [[], [48], bytes "NULL", bytes "false"] := by
  have hall : ∀ p ∈ printers printg, ∀ t, p.2 .zero = .ok t → t ∈ [[], [48], bytes "NULL", bytes "false"] := by
    simp only [printers, List.forall_mem_cons]
    refine ⟨?_, ?_, ?_, ?_, ?_, ?_, ?_, ?_, ?_, ?_, ?_, ?_, ?_, ?_, ?_, ?_, ?_, ?_, fun _ h => absurd h List.not_mem_nil⟩
    all_goals
      rintro _ ⟨⟩
      decide
  rw [plain2Chars] at h
  split at h
  · exact hall _ (List.mem_of_find?_eq_some ‹_›) t h
  · cases h
    exact List.mem_cons_self ..

theorem zero_valueText_open (hv : valueText printg type .zero = .ok cv) : 60 ∉ cv ∧ 62 ∉ cv := by
  have hall : ∀ t ∈ [[], [48], bytes "NULL", bytes "false"], 60 ∉ t ∧ 62 ∉ t := by decide
  have ⟨t, ht, hv⟩ := ok_bind.mp hv
  cases hv
  have hz : value2Chars printg type .zero = plain2Chars printg type .zero := value2Chars_plain printg (v := .zero) trivial
  rw [hz] at ht
  split
  · exact ⟨AsciiToXmlStr_not_mem rfl (by decide), AsciiToXmlStr_not_mem rfl (by decide)⟩
  · exact hall t (zero_printed ht)

theorem Item.valueText_open (h : Item type v) (hv : valueText printg type v = .ok cv) : 60 ∉ cv ∧ 62 ∉ cv := by
  cases h with
  | inl h => exact zero_valueText_open (h ▸ hv)
  | inr h => exact h.valueText_open hv

-- What can stand in a section.
structure Inside (text : Text) : Prop where
  lexes       : ∃ ts, Lexes text ts
  unbracketed : Unbracketed text

namespace Inside

theorem nil : Inside [] where
  lexes       := ⟨[], .nil⟩
  unbracketed := .of_not_mem List.not_mem_nil

theorem flatten {texts : List Text} (h : ∀ t ∈ texts, Inside t) : Inside texts.flatten where
  lexes       := by
    induction texts with
    | nil             => exact ⟨[], .nil⟩
    | cons t texts hi =>
      have ⟨⟨ht, _⟩, hts⟩ := List.forall_mem_cons.mp h
      have ⟨us, hu⟩ := ht
      have ⟨vs, hv⟩ := hi hts
      exact ⟨us ++ vs, hu.append hv⟩
  unbracketed := .flatten fun t ht => (h t ht).unbracketed

end Inside

theorem container_unbracketed {tag typeName name body : Text} {t : Option Text} (ht : Bare tag) (hc : Bare typeName)
    (hn : 62 ∉ name) (hv : ∀ v ∈ t, Bare v) (hb : Unbracketed body) :
    Unbracketed (container tag typeName name t body) := by
  have hopen : 62 ∉ bytes "<" ++ tag ++ bytes " NAME=\"" ++ name := by
    have h62 : 62 ∉ tag := ht 62 (by simp)
    simp [bytes, h62, hn]
  have hattr : Bare (bytes "\"" ++ t.elim [] fun t => bytes " " ++ typeName ++ bytes "=\"" ++ t ++ bytes "\"") := by
    refine Bare.append (by decide) ?_
    cases t with
    | none   => exact fun _ _ => List.not_mem_nil
    | some t => exact (((Bare.append (by decide) hc).append (by decide)).append (hv t rfl)).append (by decide)
  have hclose : Bare (bytes "</" ++ tag) := .append (by decide) ht
  have hstart := (Unbracketed.of_not_mem hopen).append (hattr.tag (by simp [bytes]))
  have hu := (hstart.append hb).append (hclose.tag (by simp [bytes]))
  simpa only [container, List.append_assoc] using hu

theorem valueElement_unbracketed (h : 62 ∉ cv) : Unbracketed (valueElement cv) :=
  (Unbracketed.append ⟨by decide, by decide⟩ (.of_not_mem h)).append ⟨by decide, by decide⟩

theorem valueArrayElement_unbracketed {cvs : List Text} (h : ∀ cv ∈ cvs, 62 ∉ cv) :
    Unbracketed (valueArrayElement cvs) := by
  have hcvs : Unbracketed (cvs.flatMap valueElement) := by
    rw [List.flatMap_def]
    refine .flatten fun t ht => ?_
    have ⟨cv, hcv, he⟩ := List.mem_map.mp ht
    exact he ▸ valueElement_unbracketed (h cv hcv)
  exact (Unbracketed.append ⟨by decide, by decide⟩ hcvs).append ⟨by decide, by decide⟩

theorem container_inside {name body : Text} (hn : Quotable name) (hl : ∃ ts, Lexes body ts) (hu : Unbracketed body) :
    Inside (container (bytes "PROPERTY") (bytes "TYPE") name (cmpiToXmlType type) body) ∧
      Inside (container (bytes "PROPERTY" ++ bytes ".ARRAY") (bytes "TYPE") name (cmpiToXmlType type) body) := by
  have ⟨ts, hl⟩ := hl
  have ⟨hq, hb⟩ := hn
  have ht : ∀ t ∈ cmpiToXmlType type, Bare t := fun t ht c hc => cmpiToXmlType_open ht c (List.mem_cons_of_mem _ hc)
  exact ⟨⟨⟨_, property_lexes hq hl⟩, container_unbracketed (by decide) (by decide) hb ht hu⟩,
    ⟨⟨_, propertyArray_lexes hq hl⟩, container_unbracketed (by decide) (by decide) hb ht hu⟩⟩

theorem addXmlProperty_inside {p : NativeProperty CMPIValue} {text : Text} (hp : Embeddable p) (hn : Quotable p.name)
    (h : addXmlProperty printg p = .ok text) : Inside text := by
  rw [addXmlProperty] at h
  cases hs : p.state.isNull with
  | true  =>
    split at h
    all_goals
      rw [addXmlValue_null hs] at h
      cases h
      exact .nil
  | false =>
    cases hp with
    | null h        => exact absurd (hs.symm.trans h) Bool.false_ne_true
    | value hv      =>
      have ⟨ha, ht, hr, _⟩ := hv.type_eq
      rw [if_neg hr, addXmlValue_value hs ha hr, NativeProperty.data, ht] at h
      cases hcv : valueText printg p.type p.value with
      | error e => simp [hcv, Except.map] at h
      | ok cv   =>
        have ⟨h60, h62⟩ := hv.valueText_open hcv
        simp only [hcv, Except.map, Except.ok.injEq] at h
        exact h ▸ (container_inside hn ⟨_, valueElement_lexes h60⟩ (valueElement_unbracketed h62)).left
    | @array a ha hv he =>
      have hr : p.type ≠ .ref := fun hr => absurd (hr ▸ ha) (by decide)
      rw [if_neg hr] at h
      by_cases hn' : a.data = []
      · rw [addXmlValue_empty hs ha hv hn'] at h
        cases h
        exact .nil
      · rw [addXmlValue_array hs ha hv hn' (by decide), NativeProperty.data] at h
        cases hcvs : a.data.mapM fun ele => valueText printg p.type.element ele.value with
        | error e => simp [hcvs, Except.map] at h
        | ok cvs  =>
          have hopen : ∀ cv ∈ cvs, 60 ∉ cv ∧ 62 ∉ cv := by
            intro cv hcv
            have ⟨e, hm, hv⟩ := mapM_mem (mapM_ok.mp hcvs) hcv
            exact (he e hm).valueText_open hv
          simp only [hcvs, Except.map, Except.ok.injEq] at h
          exact h ▸ (container_inside hn ⟨_, valueArrayElement_lexes fun cv hc => (hopen cv hc).left⟩
            (valueArrayElement_unbracketed fun cv hc => (hopen cv hc).right)).right

theorem addXmlInstance_inside {cop : Option CMPIObjectPath} {inst : CMPIInstance} {t : Text}
    (hc : ∀ p ∈ cop, ∀ cn ∈ p.classname, Quotable cn) (hi : ∀ cn ∈ inst.classname, Quotable cn)
    (hp : ∀ p ∈ inst.props, Quotable p.name ∧ Embeddable p) (h : addXmlInstance printg cop inst = .ok t) :
    Inside t ∧ t.head? = some 60 := by
  have ⟨path, props, hn, hprops, ht⟩ : ∃ path : CMPIObjectPath, ∃ props, (∀ cn ∈ path.classname, Quotable cn) ∧
      inst.props.mapM (addXmlProperty printg) = .ok props ∧ t = bytes "<INSTANCE CLASSNAME=\"" ++ chars path.classname ++
        bytes "\">\n" ++ props.flatten ++ bytes "</INSTANCE>\n" := by
    unfold addXmlInstance at h
    cases cop with
    | none   =>
      have ⟨path, hpath, hcn⟩ := getObjectPath_classname inst
      simp only [hpath, bind, Except.bind] at h
      have ⟨props, hprops, h⟩ := ok_bind.mp h
      cases h
      exact ⟨path, props, hcn ▸ hi, hprops, rfl⟩
    | some p =>
      have ⟨path, hpath, h⟩ := ok_bind.mp h
      have ⟨props, hprops, h⟩ := ok_bind.mp h
      cases hpath
      cases h
      exact ⟨p, props, hc p rfl, hprops, rfl⟩
  subst ht
  have ⟨hq, hcn⟩ : Quotable (chars path.classname) := by
    cases hcn : path.classname with
    | none    => exact ⟨List.not_mem_nil, List.not_mem_nil⟩
    | some cn => exact hn cn hcn
  have hin : Inside props.flatten := by
    refine .flatten fun text ht => ?_
    have ⟨p, hm, htext⟩ := mapM_mem (mapM_ok.mp hprops) ht
    exact addXmlProperty_inside (hp p hm).right (hp p hm).left htext
  have ⟨ts, hts⟩ := hin.lexes
  have hopen : 62 ∉ bytes "<INSTANCE CLASSNAME=\"" ++ chars path.classname := by simp [bytes, hcn]
  have hclose : Unbracketed (bytes "\"" ++ bytes ">\n") := Bare.tag (by decide) (by simp [bytes])
  have hu := (((Unbracketed.of_not_mem hopen).append hclose).append hin.unbracketed).append
    (⟨by decide, by decide⟩ : Unbracketed (bytes "</INSTANCE>\n"))
  have h₁ : bytes "\">\n" = bytes "\"" ++ bytes ">\n" := rfl
  refine ⟨⟨⟨_, instance_lexes hq hts⟩, ?_⟩, rfl⟩
  simpa only [h₁, List.append_assoc] using hu

-- An element in a section, with white space around it.
theorem Inside.sealed_between {t ws ws' : Text} (h : Inside t) (hh : t.head? = some 60) (hw : ∀ c ∈ ws, isWS c)
    (hw' : ∀ c ∈ ws', isWS c) : Sealed (ws ++ t ++ ws') ∧ ∀ c ∈ (ws ++ t ++ ws').head?, isalnum c = false := by
  have hblank {ws : Text} (h : ∀ c ∈ ws, isWS c) : Unbracketed ws := .of_not_mem fun hm => absurd (h 62 hm) (by decide)
  refine ⟨(((hblank hw).append h.unbracketed).append (hblank hw')).is_sealed, fun c hc => ?_⟩
  cases ws with
  | nil       =>
    rw [List.nil_append, List.head?_append, hh] at hc
    cases hc
    rfl
  | cons d ws =>
    cases hc
    exact isalnum_of_isWS (hw _ (List.mem_cons_self ..))

-- The tokens of an instance in a section are those of its text, and the ones behind the section are those of the
-- rest of the document.
theorem section_lexed {cop : Option CMPIObjectPath} {inst : CMPIInstance} {t : Text}
    (hc : ∀ p ∈ cop, ∀ cn ∈ p.classname, IsName cn) (hi : ∀ cn ∈ inst.classname, IsName cn)
    (hp : ∀ p ∈ inst.props, IsName p.name ∧ Embeddable p) (ht : addXmlInstance printg cop inst = .ok t)
    {ws₁ ws₂ ws₃ ws₄ : Text} (h₁ : ∀ c ∈ ws₁, isWS c) (h₂ : ∀ c ∈ ws₂, isWS c) (h₃ : ∀ c ∈ ws₃, isWS c)
    (h₄ : ∀ c ∈ ws₄, isWS c) {rest : Text} {xb : XmlBuffer}
    (hr : Ready (cdataValue ws₁ (ws₂ ++ t ++ ws₃) ws₄ ++ rest) xb) : ∃ xb₁,
      Calls xb (.X .VALUE (some []) :: .X .CDATA () :: (tokens t ++ [.Z .CDATA, .Z .VALUE])) xb₁ ∧ LexedAs rest xb₁ := by
  have ⟨⟨⟨ts, hts⟩, hu⟩, hh⟩ := addXmlInstance_inside (fun p hp cn hcn => (hc p hp cn hcn).quotable)
    (fun cn hcn => (hi cn hcn).quotable) (fun p hm => ⟨(hp p hm).left.quotable, (hp p hm).right⟩) ht
  have hl : Lexes (ws₂ ++ t ++ ws₃) ts := (hts.behind h₂).before h₃
  have ⟨hb, hn⟩ := Inside.sealed_between ⟨⟨ts, hts⟩, hu⟩ hh h₂ h₃
  have ⟨b, e, hcalls⟩ := cdataValue_calls hl hb hn h₁ h₄ hr
  rw [hts.tokens_eq]
  exact ⟨_, hcalls, lexedAs b rest e⟩

-- An instance in the value of an argument.
theorem embedded_lexes {inst : CMPIInstance} {t : Text} {ts : List Tok} (hi : ∀ cn ∈ inst.classname, Quotable cn)
    (hp : ∀ p ∈ inst.props, Quotable p.name ∧ Embeddable p) (ht : addXmlInstance printg none inst = .ok t) (hl : Lexes t ts) :
    ∃ text, embedded printg inst = .ok text ∧
      Lexes text (.X .VALUE (some []) :: .X .CDATA () :: (ts ++ [.Z .CDATA, .Z .VALUE])) := by
  have ⟨hin, hh⟩ := addXmlInstance_inside (fun _ h => absurd h (by simp)) hi hp ht
  have hw : ∀ c ∈ [10], isWS c := by decide
  have ⟨hb, hn⟩ := hin.sealed_between hh hw (fun _ h => absurd h List.not_mem_nil : ∀ c ∈ ([] : Text), isWS c)
  have hbody : Lexes ([10] ++ t ++ []) ts := (hl.behind hw).before fun _ h => absurd h List.not_mem_nil
  refine ⟨_, by rw [embedded, ht]; rfl, (Lexes.cdata hbody hb hn hw hw).line.of_eq ?_⟩
  simp [cdataValue, bytes]

end

-- An instance with a text that would end the section, and one property that is null.
def noteInstance : CMPIInstance where
  classname := bytes "C"
  props     := [⟨bytes "Note", .string, .good, .string (bytes "]]></VALUE>"), []⟩,
    ⟨bytes "Size_2", .uint8, .null, .zero, []⟩]

def noteText : Text :=
  bytes "<INSTANCE CLASSNAME=\"C\">\n<PROPERTY NAME=\"Note\" TYPE=\"string\">\n<VALUE>]]&gt;&lt;/VALUE&gt;</VALUE>\n" ++
    bytes "</PROPERTY>\n</INSTANCE>\n"

set_option maxRecDepth 4000 in
theorem section_lexed_note : ∃ xb,
    Calls (newXmlBuffer (cdataValue [] (bytes "\n" ++ noteText ++ []) [9] ++ bytes "</CIM>"))
      (.X .VALUE (some []) :: .X .CDATA () :: (tokens noteText ++ [.Z .CDATA, .Z .VALUE])) xb ∧
      LexedAs (bytes "</CIM>") xb := by
  have hc : ∀ p ∈ (none : Option CMPIObjectPath), ∀ cn ∈ p.classname, IsName cn := fun _ h => absurd h (by simp)
  have hn : ∀ cn ∈ noteInstance.classname, IsName cn := by
    intro cn hcn
    cases hcn
    unfold IsName
    decide
  have hp : ∀ p ∈ noteInstance.props, IsName p.name ∧ Embeddable p := by
    refine List.forall_mem_cons.mpr ⟨⟨?_, .value (.string (by decide))⟩, List.forall_mem_singleton.mpr ⟨?_, .null rfl⟩⟩
    all_goals
      unfold IsName
      decide
  have ht : addXmlInstance id none noteInstance = .ok noteText := rfl
  exact section_lexed hc hn hp ht (fun _ h => absurd h List.not_mem_nil) (by decide)
    (fun _ h => absurd h List.not_mem_nil) (by decide) ⟨rfl, rfl, rfl⟩

end Sfcc.Xml
