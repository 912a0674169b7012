import Sfcc.Theorems.Xml.Lexer
import Sfcc.Theorems.Xml.Params
import Sfcc.Theorems.Xml.Qualifiers
import Sfcc.Xml.Encode

namespace Sfcc

-- Escapes.

def isSpecial (b : UInt8) : Bool :=
  XmlEscapes.any (·.1 = b)

theorem special_cases {b : UInt8} (h : isSpecial b) :
    b = 0x22 ∨ b = 0x26 ∨ b = 0x27 ∨ b = 0x3c ∨ b = 0x3e := by
  simp only [isSpecial, XmlEscapes, List.any_cons, List.any_nil, Bool.or_eq_true, decide_eq_true_eq,
    Bool.false_eq_true, or_false] at h
  simpa [eq_comm] using h

theorem AsciiToXmlStr_nil : AsciiToXmlStr [] = [] :=
  rfl

theorem AsciiToXmlStr_cons (b : UInt8) (t : Text) : AsciiToXmlStr (b :: t) = AsciiToXmlStr [b] ++ AsciiToXmlStr t := by
  simp [AsciiToXmlStr]

theorem AsciiToXmlStr_plain {b : UInt8} (h : isSpecial b = false) : AsciiToXmlStr [b] = [b] := by
  have hf : XmlEscapes.find? (·.1 = b) = none := by
    rw [List.find?_eq_none]
    intro e he hb
    have hs : isSpecial b := List.any_eq_true.mpr ⟨e, he, hb⟩
    rw [h] at hs
    cases hs
  simp [AsciiToXmlStr, hf]

-- An escape is longer than what it stands for.
theorem AsciiToXmlStr_special {b : UInt8} (h : isSpecial b) :
    ∃ n t, AsciiToXmlStr [b] = 38 :: n :: t ∧ isalpha n ∧ ∀ c ∈ n :: t, c ∉ ([0x22, 0x26, 0x27, 0x3c, 0x3e] : Text) := by
  rcases special_cases h with rfl | rfl | rfl | rfl | rfl
  all_goals exact ⟨_, _, rfl, rfl, by decide⟩

theorem AsciiToXmlStr_length_le (t : Text) : t.length ≤ (AsciiToXmlStr t).length := by
  induction t with
  | nil         => exact Nat.le_refl _
  | cons b t hi =>
    rw [AsciiToXmlStr_cons, List.length_append, List.length_cons]
    by_cases hb : isSpecial b
    · have ⟨n, u, hu, _⟩ := AsciiToXmlStr_special hb
      simp only [hu, List.length_cons]
      omega
    · simp only [AsciiToXmlStr_plain (Bool.eq_false_iff.mpr hb), List.length_singleton]
      omega

-- There is one in a text that does not stay the same.
theorem AsciiToXmlStr_eq_self_iff (t : Text) : AsciiToXmlStr t = t ↔ ∀ b ∈ t, isSpecial b = false := by
  induction t with
  | nil         => simp [AsciiToXmlStr_nil]
  | cons b t hi =>
    rw [AsciiToXmlStr_cons]
    by_cases hb : isSpecial b
    · have ⟨n, u, hu, _⟩ := AsciiToXmlStr_special hb
      have ht := AsciiToXmlStr_length_le t
      constructor
      · intro h
        have hl := congrArg List.length h
        simp only [hu, List.length_append, List.length_cons] at hl
        omega
      · intro h
        simp [h b (List.mem_cons_self ..)] at hb
    · have hb := Bool.eq_false_iff.mpr hb
      simp [AsciiToXmlStr_plain hb, hi, hb]

theorem xmlEscape_none {b : UInt8} (h : b ≠ 38) (t : Text) : xmlEscape (b :: t) = none := by
  have hb : (38 == b) = false := beq_eq_false_iff_ne.mpr h.symm
  simp [xmlEscape, XmlEscapes, bytes, List.isPrefixOf, hb]

theorem xmlToAscii_append {b : UInt8} (t : Text) : xmlToAscii 0 (AsciiToXmlStr [b] ++ t) = b :: xmlToAscii 0 t := by
  by_cases hb : isSpecial b
  · rcases special_cases hb with rfl | rfl | rfl | rfl | rfl
    all_goals rfl
  · have h38 : b ≠ 38 := by
      intro h
      subst h
      exact hb rfl
    rw [AsciiToXmlStr_plain (Bool.eq_false_iff.mpr hb), List.singleton_append, xmlToAscii, xmlEscape_none h38]

theorem XmlToAsciiStr_AsciiToXmlStr (t : Text) : XmlToAsciiStr (AsciiToXmlStr t) = t := by
  induction t with
  | nil         => rfl
  | cons b t hi =>
    rw [XmlToAsciiStr] at *
    rw [AsciiToXmlStr_cons, xmlToAscii_append, hi]

-- Of the special bytes, only that of the escapes themselves is left.
theorem AsciiToXmlStr_mem {t : Text} {c : UInt8} (h : c ∈ AsciiToXmlStr t) (hc : isSpecial c) : c = 38 := by
  induction t with
  | nil         => cases h
  | cons b t hi =>
    rw [AsciiToXmlStr_cons] at h
    cases List.mem_append.mp h with
    | inr h => exact hi h
    | inl h =>
      by_cases hb : isSpecial b
      · have ⟨n, u, hu, _, hn⟩ := AsciiToXmlStr_special hb
        rw [hu] at h
        cases h with
        | head     => rfl
        | tail _ h =>
          have hm := hn c h
          rcases special_cases hc with rfl | rfl | rfl | rfl | rfl <;> simp at hm
      · rw [AsciiToXmlStr_plain (Bool.eq_false_iff.mpr hb)] at h
        cases List.mem_singleton.mp h
        exact absurd hc hb

-- What is read is never shorter than what is written, whatever the text is.
theorem xmlToAscii_length (n : ℕ) (t : Text) : (xmlToAscii n t).length ≤ t.length := by
  induction t generalizing n with
  | nil         => simp [xmlToAscii]
  | cons b t hi =>
    cases n with
    | succ n =>
      rw [xmlToAscii]
      exact (hi n).trans (Nat.le_succ _)
    | zero   =>
      rw [xmlToAscii]
      split <;> exact Nat.succ_le_succ (hi _)

theorem AsciiToXmlStr_append (s t : Text) : AsciiToXmlStr (s ++ t) = AsciiToXmlStr s ++ AsciiToXmlStr t := by
  simp [AsciiToXmlStr]

-- What `&` stands for in a text that was escaped.
theorem escape_of_amp {s a b : Text} (h : AsciiToXmlStr s = a ++ 38 :: b) : ∃ e ∈ XmlEscapes, e.2 <+: 38 :: b := by
  induction s generalizing a with
  | nil         => simp [AsciiToXmlStr_nil] at h
  | cons c s hi =>
    rw [AsciiToXmlStr_cons] at h
    cases List.append_eq_append_iff.mp h with
    | inl ha =>
      -- The escape comes behind that of the first byte.
      have ⟨a', _, hs⟩ := ha
      exact hi hs
    | inr hb =>
      have ⟨d, hc, hd⟩ := hb
      by_cases hsp : isSpecial c
      · cases a with
        | nil      =>
          have he : ∃ e ∈ XmlEscapes, AsciiToXmlStr [c] = e.2 := by
            rcases special_cases hsp with rfl | rfl | rfl | rfl | rfl <;> simp [XmlEscapes, AsciiToXmlStr]
          have ⟨e, hmem, he⟩ := he
          refine ⟨e, hmem, ?_⟩
          rw [List.nil_append] at hc
          rw [hd, ← hc, he]
          exact List.prefix_append _ _
        | cons f a =>
          have ⟨n, u, hu, _, hn⟩ := AsciiToXmlStr_special hsp
          rw [hu] at hc
          have ⟨_, hc⟩ := List.cons.inj hc
          cases d with
          | nil      =>
            simp only [List.nil_append] at hd
            exact @hi [] hd.symm
          | cons g d =>
            have ⟨hg, _⟩ := List.cons.inj hd
            have hmem := hn 38 (hc ▸ List.mem_append_right _ (hg ▸ List.mem_cons_self ..))
            simp at hmem
      · have hne : c ≠ 38 := by
          intro hc
          subst hc
          exact hsp rfl
        rw [AsciiToXmlStr_plain (Bool.eq_false_iff.mpr hsp)] at hc
        cases a with
        | nil      =>
          rw [List.nil_append] at hc
          subst hc
          exact absurd (List.cons.inj hd).left.symm hne
        | cons f a =>
          have ⟨_, hc⟩ := List.cons.inj hc
          have ⟨_, hnil⟩ := List.append_eq_nil_iff.mp hc.symm
          subst hnil
          exact @hi [] hd.symm

-- What the two conversions do to a text.
structure Unescapes (s : Text) : Prop where
  back     : XmlToAsciiStr (AsciiToXmlStr s) = s
  clean    : ∀ c ∈ AsciiToXmlStr s, c ∉ bytes "<>\"'"
  escapes  : ∀ a b, AsciiToXmlStr s = a ++ 38 :: b → ∃ e ∈ XmlEscapes, e.2 <+: 38 :: b
  shortens : (XmlToAsciiStr s).length ≤ s.length

theorem unescapes (s : Text) : Unescapes s where
  back        := XmlToAsciiStr_AsciiToXmlStr s
  clean c h   := by
    intro hc
    have hs : ∀ c ∈ bytes "<>\"'", isSpecial c ∧ c ≠ 38 := by decide
    have ⟨hs, hne⟩ := hs c hc
    exact hne (AsciiToXmlStr_mem h hs)
  escapes a b := escape_of_amp
  shortens    := xmlToAscii_length 0 s

-- The texts that are strings wherever their type is guessed.

def IsInteger (t : Text) : Prop :=
  ∃ ds, ds ≠ [] ∧ (∀ d ∈ ds, isdigit d) ∧ (t = ds ∨ ∃ c, isSign c ∧ t = c :: ds)

def IsBoolean (t : Text) : Prop :=
  sameIgnoringCase t (bytes "true") ∨ sameIgnoringCase t (bytes "false")

theorem guessType_string {t : Text} (hi : ¬ IsInteger t) (hb : ¬ IsBoolean t) : guessType t = .string := by
  cases t with
  | nil      => rfl
  | cons c t =>
    have hn : ¬ (sameIgnoringCase (c :: t) (bytes "true") ∨ sameIgnoringCase (c :: t) (bytes "false")) := hb
    rw [guessType, if_neg hn]
    split
    case isFalse => rfl
    case isTrue hc =>
      have ht : t.all isdigit = false := by
        rw [Bool.eq_false_iff]
        intro ht
        have hd : ∀ d ∈ t, isdigit d := List.all_eq_true.mp ht
        apply hi
        cases hc with
        | inl hc => exact ⟨t, hc.right, hd, .inr ⟨c, hc.left, rfl⟩⟩
        | inr hc => exact ⟨c :: t, List.cons_ne_nil _ _, List.forall_mem_cons.mpr ⟨hc, hd⟩, .inl rfl⟩
      simp [ht]

theorem not_mem_of_isInteger {t : Text} (h : IsInteger t) : 38 ∉ t := by
  have ⟨ds, _, hd, ht⟩ := h
  have hn : 38 ∉ ds := fun h => absurd (hd 38 h) (by decide)
  cases ht with
  | inl ht => exact ht ▸ hn
  | inr ht =>
    have ⟨c, hc, ht⟩ := ht
    rw [ht]
    intro hm
    cases hm with
    | head     => exact absurd hc (by decide)
    | tail _ h => exact hn h

theorem not_mem_of_isBoolean {t : Text} (h : IsBoolean t) : 38 ∉ t := by
  intro hm
  have hl : (38 : UInt8) ∈ t.lower := List.mem_map.mpr ⟨38, hm, rfl⟩
  cases h with
  | inl h =>
    rw [sameIgnoringCase_iff.mp h] at hl
    exact absurd hl (by decide)
  | inr h =>
    rw [sameIgnoringCase_iff.mp h] at hl
    exact absurd hl (by decide)

namespace Xml

def isVisible (b : UInt8) : Bool :=
  0x21 ≤ b ∧ b ≤ 0x7e

theorem isWS_of_isVisible {b : UInt8} (h : isVisible b) : isWS b = false := by
  simp only [isVisible, isWS, decide_eq_true_eq, decide_eq_false_iff_not, UInt8.le_iff_toNat_le] at *
  simp at *
  omega

-- A text that nothing is trimmed from.
structure Framed (t : Text) : Prop where
  first : ∀ b ∈ t.head?, isWS b = false
  last  : ∀ b ∈ t.getLast?, isWS b = false

theorem Framed.trimmed_eq {t : Text} (h : Framed t) : trimmed t = t := by
  have hd : t.dropWhile isWS = t := by
    cases t with
    | nil      => rfl
    | cons b t => simp [h.first b rfl]
  rw [trimmed, hd, List.rdropWhile_eq_self_iff]
  intro hn
  simp [h.last _ (List.getLast?_eq_some_getLast hn)]

theorem Framed.escaped {t : Text} (h : Framed t) : Framed (AsciiToXmlStr t) where
  first b hb := by
    cases t with
    | nil      => cases hb
    | cons c t =>
      rw [AsciiToXmlStr_cons] at hb
      by_cases hc : isSpecial c
      · have ⟨n, u, hu, _⟩ := AsciiToXmlStr_special hc
        rw [hu] at hb
        cases hb
        rfl
      · rw [AsciiToXmlStr_plain (Bool.eq_false_iff.mpr hc)] at hb
        exact h.first b hb
  last b hb  := by
    cases List.eq_nil_or_concat t with
    | inl ht =>
      subst ht
      cases hb
    | inr ht =>
      have ⟨u, c, ht⟩ := ht
      subst ht
      have ha := AsciiToXmlStr_append u [c]
      by_cases hc : isSpecial c
      · have hl : (AsciiToXmlStr [c]).getLast? = some 59 := by
          rcases special_cases hc with rfl | rfl | rfl | rfl | rfl <;> rfl
        simp only [List.concat_eq_append, ha, List.getLast?_append, hl, Option.some_or,
          Option.mem_def, Option.some.injEq] at hb
        subst hb
        rfl
      · rw [List.concat_eq_append] at hb h
        simp only [ha, AsciiToXmlStr_plain (Bool.eq_false_iff.mpr hc)] at hb
        apply h.last b
        simpa using hb

theorem value_lexes {t : Text} (h : 60 ∉ t) :
    Lexes (bytes "<VALUE>" ++ t ++ bytes "</VALUE>") (Tree.Value.text (trimmed t)).yield := by
  have hk : Known ⟨bytes "VALUE", procContent "VALUE" [] (.Z .VALUE) fun _ v => .X .VALUE v, .Z .VALUE⟩ :=
    known (List.mem_of_getElem? (i := 19) rfl)
  have ha : Attributes ([].map bytes) [] := ⟨nofun, Nat.le_refl _, nofun⟩
  exact Lexes.content hk ha h nofun nofun

theorem eq_text {v : Tree.Value} {t : Text} (h : v.yield = (Tree.Value.text t).yield) : v = .text t := by
  cases v with
  | text u    =>
    obtain ⟨ht, _⟩ := List.cons.inj h
    have hu : u = some t := eq_of_heq (Tok.X.inj ht).right
    rw [hu]
  | cdata u i =>
    simp only [Tree.Value.yield, Tree.tagged, List.cons_append, List.nil_append, List.cons.injEq] at h
    exact absurd h.right.left (fun hn => by cases hn)

-- A string that is read as one, also where its type is taken from its text.
structure StringData (s : Text) : Prop where
  nulFree    : 0 ∉ s
  first      : ∃ b ∈ s.head?, isVisible b
  last       : ∃ b ∈ s.getLast?, isVisible b
  notInteger : ¬ IsInteger s
  notBoolean : ¬ IsBoolean s

theorem StringData.framed {s : Text} (h : StringData s) : Framed s where
  first b hb := by
    have ⟨c, hc, hv⟩ := h.first
    cases Option.mem_unique hb hc
    exact isWS_of_isVisible hv
  last b hb  := by
    have ⟨c, hc, hv⟩ := h.last
    cases Option.mem_unique hb hc
    exact isWS_of_isVisible hv

theorem StringData.value_eq {s : Text} (h : StringData s) {v : Tree.Value}
    (hv : tokens (bytes "<VALUE>" ++ AsciiToXmlStr s ++ bytes "</VALUE>") = v.yield) :
    v = .text (AsciiToXmlStr s) := by
  have h60 : 60 ∉ AsciiToXmlStr s := fun hm => absurd (AsciiToXmlStr_mem hm rfl) (by decide)
  have hl := (value_lexes h60).tokens_eq
  rw [h.framed.escaped.trimmed_eq, hv] at hl
  exact eq_text hl

theorem StringData.guessType_eq {s : Text} (h : StringData s) : guessType (AsciiToXmlStr s) = .string := by
  by_cases hs : AsciiToXmlStr s = s
  · rw [hs]
    exact guessType_string h.notInteger h.notBoolean
  · have hm : 38 ∈ AsciiToXmlStr s := by
      rw [AsciiToXmlStr_eq_self_iff] at hs
      simp only [not_forall, Bool.not_eq_false] at hs
      have ⟨b, hb, hsp⟩ := hs
      have ⟨n, u, hu, _⟩ := AsciiToXmlStr_special hsp
      have hin : (38 : UInt8) ∈ AsciiToXmlStr [b] := by simp [hu]
      have hl : AsciiToXmlStr s = s.flatMap fun b => AsciiToXmlStr [b] := by simp [AsciiToXmlStr]
      rw [hl]
      exact List.mem_flatMap.mpr ⟨b, hb, hin⟩
    exact guessType_string (fun hi => not_mem_of_isInteger hi hm) fun hb => not_mem_of_isBoolean hb hm

-- The places of a value.
namespace Place

open Sfcc.Xml.Tree

-- What a conversion makes of a string: nothing else, and something if `proper` holds of what is around it.
structure Gives {α : Type} (s : Text) (value : α → Option CMPIValue) (proper : Prop) (r : Except Fault α) :
    Prop where
  only    : ∀ a, r = .ok a → value a = some (.string s)
  returns : proper → ∃ a, r = .ok a

def AllTexts (vs : List Value) : Prop :=
  ∀ v ∈ vs, ∃ t : Text, v = .text t

-- The value of a property of an instance, and an element of one that is an array.
def property (name : Text) (s : CMPIInstance × CMPIType) : Option CMPIValue :=
  (getProperty s.1.props name).map (·.value)

def element (i : ℕ) : CMPIValue → Option CMPIValue
  | .array a => a.data[i]?.map (·.value)
  | _        => none

def propertyElement (name : Text) (i : ℕ) (s : CMPIInstance × CMPIType) : Option CMPIValue :=
  (property name s).bind (element i)

end Place

-- A value that is read as a string in all places.
structure ReadEverywhere (v : Tree.Value) (s : Text) : Prop where
  property      : ∀ ci type attr name qs, attr.name = some name → attr.valueType = .string →
    Place.Gives s (Place.property name) (qs = [])
      (setInstProperty ci type (Tree.Property.value attr qs (some v)).xtok)
  propertyArray : ∀ ci type attr name qs before after, attr.name = some name → attr.valueType = .string →
    Place.Gives s (Place.propertyElement name before.length) (qs = [] ∧ Place.AllTexts (before ++ after))
      (setInstProperty ci type (Tree.Property.array attr qs (some (before ++ v :: after))).xtok)
  returnValue   : ∀ req, returned req (Tree.ReturnValue.value .string v).xtok = .ok (.string s, .string)
  paramValue    : ∀ name, (Tree.ParamValue.value { name := some name, type := .string } v).argument =
    .ok { name, type := .string, state := .good, value := .string s }
  paramArray    : ∀ name before after,
    Place.Gives s (fun arg => Place.element before.length arg.value) (Place.AllTexts (before ++ after))
      (Tree.ParamValue.array { name := some name, type := .string } (before ++ v :: after)).argument
  getProperty   : ∀ req, propertyResult req v.xtok = .ok (.string s, .string)

-- The value of a property, which its qualifiers do not touch.
section Stored

variable {name : Text} {ci ci' : CMPIInstance} {type : CMPIType}

theorem addQualifierTo_map {P α : Type} {name : P → Text} {add : P → Text → P} {f : P → α} {l l' : List P}
    {pname qname : Option Text} (hn : ∀ p m, name (add p m) = name p) (hf : ∀ p m, f (add p m) = f p)
    (h : addQualifierTo name add l pname qname = .ok l') (n : Text) :
    (Named.get name l' n).map f = (Named.get name l n).map f := by
  cases pname with
  | none       =>
    cases h
    rfl
  | some pname =>
    rw [addQualifierTo] at h
    split at h
    case isFalse =>
      cases h
      rfl
    case isTrue =>
      obtain ⟨m, _, h⟩ := ok_bind.mp h
      cases h
      cases hs : Named.set name (add · m) l pname with
      | none    => rfl
      | some l' =>
        rw [Option.getD_some, Named.get_set (fun p => hn p m) hs]
        split
        · simp [Function.comp_def, hf]
        · rfl

theorem setInstPropertyQualifiers_map {α : Type} {f : NativeProperty CMPIValue → α}
    (hf : ∀ p qualifiers, f { p with qualifiers } = f p) {pname : Option Text}
    {qs : List (XtokQualifier XtokInstance)} {r : CMPIInstance × CMPIType}
    (h : setInstPropertyQualifiers ci pname type qs = .ok r) (n : Text) :
    (getProperty r.1.props n).map f = (getProperty ci.props n).map f := by
  induction qs generalizing ci type with
  | nil          =>
    simp only [setInstPropertyQualifiers, pure, Except.pure, Except.ok.injEq] at h
    rw [← h]
  | cons q qs hi =>
    rw [Loop.setInstPropertyQualifiers_cons] at h
    have ⟨v, _, h⟩ := ok_bind.mp h
    have ⟨ci', ha, h⟩ := ok_bind.mp h
    have ⟨props, hp, ha⟩ := ok_bind.mp ha
    cases ha
    apply (hi h).trans
    apply addQualifierTo_map _ _ hp n
    · exact fun _ _ => rfl
    · exact fun p _ => hf p _

theorem setInstPropertyQualifiers_value {pname : Option Text} {qs : List (XtokQualifier XtokInstance)}
    {r : CMPIInstance × CMPIType} (h : setInstPropertyQualifiers ci pname type qs = .ok r) :
    Place.property name r = Place.property name (ci, type) :=
  setInstPropertyQualifiers_map (fun _ _ => rfl) h name

theorem getProperty_set_value {v : CMPIValue} {props : List (NativeProperty CMPIValue)}
    (ht : type ≠ .null ∧ type ≠ .chars) :
    (getProperty ((setProperty props name type (some v)).getD
      (addProperty props name type .good v)) name).map (·.value) =
        some (native_clone_CMPIValue type v) := by
  have hg := @Named.get_setOrAdd _ NativeProperty.name (.replace type (some v))
    (.new name type .good v) props name (NativeProperty.replace_name) (NativeProperty.new_name ..) name
  rw [if_pos rfl] at hg
  have hs : CMPIValueState.good ≠ .null := by decide
  refine (congrArg (Option.map (·.value)) hg).trans ?_
  cases Named.get NativeProperty.name props name <;> simp [NativeProperty.new, NativeProperty.replace, ht, hs]

theorem setProperty_ok {v : CMPIValue} (ht : type ≠ .null ∧ type ≠ .chars) :
    ∃ ci', ci.setProperty (some name) (some v) type = .ok ci' ∧
      Place.property name (ci', type) = some (native_clone_CMPIValue type v) := by
  have hg := @getProperty_set_value name type v ci.props ht
  cases hs : setProperty ci.props name type (some v) with
  | none       =>
    rw [hs] at hg
    refine ⟨{ ci with props := addProperty ci.props name type .good v }, ?_, hg⟩
    simp [NativeInstance.setProperty, deref, hs, addPropertyPtr_some, bind, Except.bind, pure, Except.pure]
  | some props =>
    rw [hs] at hg
    exact ⟨{ ci with props },
      by simp [NativeInstance.setProperty, deref, hs, bind, Except.bind, pure, Except.pure], hg⟩

-- A property with one value.
theorem gives_property {s t : Text} {attr : PropertyAttr} {qs : List Tree.Qualifier} (hs : XmlToAsciiStr t = s)
    (hn : attr.name = some name) (ht : attr.valueType = .string) :
    Place.Gives s (Place.property name) (qs = [])
      (setInstProperty ci type (Tree.Property.value attr qs (some (.text (some t)))).xtok) := by
  have hstring : CMPIType.string ≠ .null ∧ CMPIType.string ≠ .chars := by decide
  have ⟨ci', hci, hp⟩ := @setProperty_ok name ci _ (.string s) hstring
  have hx : setInstProperty ci type (Tree.Property.value attr qs (some (.text (some t)))).xtok =
      setInstPropertyQualifiers ci' (some name) .string (Tree.Qualifier.xtoks qs) := by
    have hd : str2CMPIDecoded .string (.value (some t)) = .ok (.string s) := by
      rw [str2CMPIDecoded, if_pos (.inl rfl), ← hs]
      rfl
    simp only [Tree.Property.xtok, Tree.Property.isInstance, Tree.Property.valueUnion, Tree.Value.xtok,
      XtokProperty.lexed, setInstProperty, XtokPointer.isNull, hn, ht, Option.isNone_some, Bool.false_eq_true,
      if_false, or_self, hd, hci, bind, Except.bind]
  rw [hx]
  constructor
  · intro r hr
    rw [setInstPropertyQualifiers_value hr, hp]
    rfl
  · intro hq
    subst hq
    exact ⟨(ci', .string), by simp only [Tree.Qualifier.xtoks, setInstPropertyQualifiers]; rfl⟩

-- An element of an array of strings.
theorem mapM_at {T α : Type} {f : T → Except Fault α} {l l' : List T} {x : T} {ws : List α}
    (h : (l ++ x :: l').mapM f = .ok ws) : ∃ w, f x = .ok w ∧ ws[l.length]? = some w := by
  induction l generalizing ws with
  | nil        =>
    rw [List.nil_append, List.mapM_cons] at h
    have ⟨w, hw, h⟩ := ok_bind.mp h
    have ⟨ws', _, h⟩ := ok_bind.mp h
    cases h
    exact ⟨w, hw, rfl⟩
  | cons y l hi =>
    rw [List.cons_append, List.mapM_cons] at h
    have ⟨_, _, h⟩ := ok_bind.mp h
    have ⟨ws', hws, h⟩ := ok_bind.mp h
    cases h
    exact hi hws

theorem Place.AllTexts.insert {before after : List Tree.Value} (h : Place.AllTexts (before ++ after)) (t : Text) :
    Place.AllTexts (before ++ .text (some t) :: after) := by
  intro v hv
  cases List.mem_append.mp hv with
  | inl hb => exact h v (List.mem_append_left _ hb)
  | inr ha =>
    cases ha with
    | head      => exact ⟨t, rfl⟩
    | tail _ ha => exact h v (List.mem_append_right _ ha)

theorem Place.AllTexts.mapM_ok {vs : List Tree.Value} (h : Place.AllTexts vs)
    {f : XtokPointer XtokInstance → Except Fault CMPIValue} (hf : ∀ t : Text, ∃ w, f (.value t) = .ok w) :
    ∃ ws, (vs.map Tree.Value.pointer).mapM f = .ok ws := by
  induction vs with
  | nil          => exact ⟨[], rfl⟩
  | cons v vs hi =>
    have ⟨⟨t, ht⟩, hvs⟩ := List.forall_mem_cons.mp h
    have ⟨w, hw⟩ := hf t
    have ⟨ws, hws⟩ := hi hvs
    subst ht
    refine ⟨w :: ws, ?_⟩
    rw [List.map_cons, List.mapM_cons, hws, Tree.Value.pointer, hw]
    rfl

theorem element_native_clone {a : CMPIArray} {ws : List CMPIValue} {w : CMPIValue} {i : ℕ}
    (ha : a.type = .string) (hl : ∀ w ∈ ws, w.Leaf) (hd : a.data = ws.map (NativeArray.item .string))
    (hw : ws[i]? = some w) :
    Place.element i (native_clone_CMPIValue (.string ||| .array) (.array a)) = some w := by
  have hs : CMPIType.string.cloning ≠ .lost := by decide
  have hc := @native_clone_array (.string ||| .array) a ws (by decide)
    (fun w h => ha.symm ▸ native_clone_leaf (hl w h) hs) (ha.symm ▸ hd)
  simp [hc, Place.element, hw]

-- What an element of an array is when it is not an object.
theorem decoded_leaf {type : CMPIType} {ptr : XtokPointer XtokInstance} {w : CMPIValue} (ht : type ≠ .inst)
    (h : str2CMPIDecoded type ptr = .ok w) : w.Leaf := by
  cases ptr with
  | value text => exact decoded_makesLeaf type text w h
  | inst i     =>
    rw [str2CMPIDecoded, if_neg ht] at h
    exact str2CMPIBytes_leaf h

theorem pointer_leaf {type : CMPIType} {ptr : XtokPointer XtokInstance} {w : CMPIValue} (ht : type ≠ .inst)
    (h : str2CMPIPointer type ptr = .ok w) : w.Leaf := by
  cases ptr with
  | value text => exact pointer_makesLeaf type text w h
  | inst i     =>
    rw [str2CMPIPointer, if_neg ht] at h
    exact str2CMPIBytes_leaf h

theorem str2CMPIDecoded_string (t : Text) :
    str2CMPIDecoded .string (.value (some t)) = .ok (.string (XmlToAsciiStr t)) := by
  rw [str2CMPIDecoded, if_pos (.inl rfl)]
  rfl

theorem setInstProperty_array {attr : PropertyAttr} {qs : List Tree.Qualifier} {vs : List Tree.Value}
    (hv : vs ≠ []) : setInstProperty ci type (Tree.Property.array attr qs (some vs)).xtok =
      (vs.map Tree.Value.pointer).mapM (str2CMPIDecoded attr.valueType) >>= fun ws =>
      ci.setProperty attr.name
        (some (.array ((newCMPIArray 0 attr.valueType).setFrom attr.valueType 0 ws)))
        (attr.valueType ||| .array) >>= fun ci' =>
      setInstPropertyQualifiers ci' attr.name attr.valueType (Tree.Qualifier.xtoks qs) := by
  have hl : (vs.map Tree.Value.pointer).length > 0 := by simpa using List.length_pos_iff.mpr hv
  have hm := Nat.pos_of_ne_zero (ofList_max (vs.map Tree.Value.pointer))
  simp only [Tree.Property.xtok, Tree.Property.arrayUnion, XtokProperty.lexed, setInstProperty,
    ofList_values, Grammar.value_pointers, arrayElementsDecoded_eq]
  rw [if_pos hl, if_pos hm]
  cases (vs.map Tree.Value.pointer).mapM (str2CMPIDecoded attr.valueType) <;> rfl

theorem gives_propertyArray {s t : Text} {attr : PropertyAttr} {qs : List Tree.Qualifier}
    {before after : List Tree.Value} (hs : XmlToAsciiStr t = s) (hn : attr.name = some name)
    (ht : attr.valueType = .string) :
    Place.Gives s (Place.propertyElement name before.length) (qs = [] ∧ Place.AllTexts (before ++ after))
      (setInstProperty ci type
        (Tree.Property.array attr qs (some (before ++ .text (some t) :: after))).xtok) := by
  have hst : CMPIType.string ||| CMPIType.array ≠ .null ∧ CMPIType.string ||| CMPIType.array ≠ .chars := by
    decide
  rw [setInstProperty_array (List.append_ne_nil_of_right_ne_nil _ (List.cons_ne_nil _ _)), hn, ht]
  constructor
  · intro r hr
    have ⟨ws, hws, hr⟩ := ok_bind.mp hr
    have ⟨ci', hci, hp⟩ := @setProperty_ok name ci _
      (.array ((newCMPIArray 0 .string).setFrom .string 0 ws)) hst
    rw [hci] at hr
    have hleaf : ∀ w ∈ ws, w.Leaf := mapM_forall hws (decoded_leaf (by decide))
    have hdata := @NativeArray.setFrom_data (newCMPIArray 0 .string) .string rfl rfl (by decide) (by decide) ws
    rw [List.map_append, List.map_cons] at hws
    have ⟨w, hw, hat⟩ := mapM_at hws
    rw [Tree.Value.pointer, str2CMPIDecoded_string, hs] at hw
    cases hw
    rw [List.length_map] at hat
    have he := element_native_clone (NativeArray.setFrom_type) hleaf hdata hat
    have hq := @setInstPropertyQualifiers_value name _ _ _ _ _ hr
    rw [Place.propertyElement, hq]
    exact (congrArg (Option.bind · (Place.element before.length)) hp).trans he
  · intro ⟨hq, ha⟩
    subst hq
    have ⟨ws, hws⟩ := (ha.insert t).mapM_ok fun t => ⟨_, str2CMPIDecoded_string t⟩
    have ⟨ci', hci, _⟩ := @setProperty_ok name ci _
      (.array ((newCMPIArray 0 .string).setFrom .string 0 ws)) hst
    refine ⟨(ci', .string), ?_⟩
    rw [hws]
    show (ci.setProperty _ _ _ >>= _) = _
    rw [hci]
    simp only [Tree.Qualifier.xtoks, setInstPropertyQualifiers]
    rfl

end Stored

-- The value of a method and the arguments it returns.
theorem returned_text (req : Request) (t : Text) :
    returned req (Tree.ReturnValue.value .string (.text (some t))).xtok = .ok (.string t, .string) := by
  simp only [returned, Tree.ReturnValue.xtok, XtokReturnUnion.asValue, Tree.Value.xtok, XtokPointer.text,
    str2CMPIValueOf]
  rfl

theorem newCMPIArrayOf_eq (type : CMPIType) (vs : List CMPIValue) :
    newCMPIArrayOf type vs = (newCMPIArray vs.length type).setFrom type 0 vs := by
  have h (vs : List CMPIValue) (arr : CMPIArray) (i : ℕ) :
      (vs.zipIdx i).foldl (fun arr v => arr.setArrayElementAt v.2 v.1 type) arr = arr.setFrom type i vs := by
    induction vs generalizing arr i with
    | nil          => rfl
    | cons v vs hi => exact hi (arr.setArrayElementAt i v type) (i + 1)
  exact h vs _ 0

theorem newCMPIArrayOf_data {type : CMPIType} (ht : type.isArray = false) (hn : type ≠ .null) (hc : type ≠ .chars)
    (vs : List CMPIValue) : (newCMPIArrayOf type vs).data = vs.map (NativeArray.item type) := by
  rw [newCMPIArrayOf_eq]
  cases vs with
  | nil       => rfl
  | cons v vs =>
    have hs := @NativeArray.setFrom_data_of_size (newCMPIArray (v :: vs).length type) type 0 rfl
      (newCMPIArray_type ⟨ht, hc⟩) hn hc (v :: vs) (by simp [newCMPIArray])
    rw [hs]
    rfl

theorem argument_value {type : CMPIType} (name : Text) (text : Option Text) (ha : type.isArray = false)
    (hr : type ≠ .ref) (hc : type ≠ .chars) :
    (Tree.ParamValue.value { name := some name, type } (.text text)).argument =
      str2CMPIText type text >>= fun v => .ok (.new name type .good v) := by
  have ho : type ||| CMPIType.null = type := UInt16.or_zero
  have hni : ¬ CMPIType.null = .inst := by decide
  simp only [Tree.ParamValue.argument, XtokParamValue.argument, Tree.ParamValue.xtok, Tree.ParamValue.data,
    Tree.ParamValue.attr, Option.elim_some, XtokParamValue.setData, Tree.Value.xtok, reduceCtorEq, hni, ho,
    str2CMPIValue, ha, Bool.false_eq_true, if_false, if_neg hr,
    XtokParamValueUnion.pointer, str2CMPIPointer, if_neg hc, deref]
  rfl

theorem argument_text (name t : Text) :
    (Tree.ParamValue.value { name := some name, type := .string } (.text (some t))).argument =
      .ok { name, type := .string, state := .good, value := .string t } := by
  rw [argument_value name t (by decide) (by decide) (by decide), str2CMPIText_string]
  rfl

theorem str2CMPIValue_array {type : CMPIType} (ha : (type ||| .array).isArray) (he : (type ||| .array).element = type)
    (hr : (type ||| .array) &&& .ref ≠ .ref) (hn : type ≠ .null) (vals : List (XtokPointer XtokInstance)) :
    str2CMPIValue (type ||| .array) (.valueArray (.ofList vals)) =
      (fun ws => .array (newCMPIArrayOf type ws)) <$> vals.mapM (str2CMPIPointer type) := by
  have ht : XtokParamValueUnion.texts (type ||| .array) (.valueArray (.ofList vals)) = .ok (type, vals) := by
    simp only [XtokParamValueUnion.texts, he, if_pos hn, ofList_values]
    rfl
  rw [str2CMPIValue, if_pos ha, if_neg hr, ht]
  rfl

theorem argument_array {type : CMPIType} (name : Text) (vs : List Tree.Value) (ha : (type ||| .array).isArray)
    (he : (type ||| .array).element = type) (hr : (type ||| .array) &&& .ref ≠ .ref) (hn : type ≠ .null)
    (hc : type ||| .array ≠ .chars) :
    (Tree.ParamValue.array { name := some name, type } vs).argument =
      (vs.map Tree.Value.pointer).mapM (str2CMPIPointer type) >>= fun ws =>
        .ok (.new name (type ||| .array) .good (.array (newCMPIArrayOf type ws))) := by
  have hi : ¬ CMPIType.array = .inst := by decide
  simp only [Tree.ParamValue.argument, XtokParamValue.argument, Tree.ParamValue.xtok, Tree.ParamValue.data,
    Tree.ParamValue.attr, Option.elim_some, XtokParamValue.setData, if_neg hi, if_neg hc,
    str2CMPIValue_array ha he hr hn, Grammar.value_pointers]
  cases (vs.map Tree.Value.pointer).mapM (str2CMPIPointer type) <;> rfl

theorem gives_paramArray {name t : Text} {before after : List Tree.Value} :
    Place.Gives t (fun arg => Place.element before.length arg.value) (Place.AllTexts (before ++ after))
      (Tree.ParamValue.array { name := some name, type := .string }
        (before ++ .text (some t) :: after)).argument := by
  rw [argument_array name _ (by decide) (by decide) (by decide) (by decide) (by decide)]
  constructor
  · intro r hr
    have ⟨ws, hws, hr⟩ := ok_bind.mp hr
    cases hr
    have hleaf : ∀ w ∈ ws, w.Leaf := mapM_forall hws (pointer_leaf (by decide))
    have hdata := @newCMPIArrayOf_data .string (by decide) (by decide) (by decide) ws
    rw [List.map_append, List.map_cons] at hws
    have ⟨w, hw, hat⟩ := mapM_at hws
    cases hw
    rw [List.length_map] at hat
    have ht : (newCMPIArrayOf .string ws).type = .string := by
      rw [newCMPIArrayOf_eq]
      exact NativeArray.setFrom_type
    exact element_native_clone ht hleaf hdata hat
  · intro ha
    have hs (t : Text) : ∃ w, str2CMPIPointer .string (.value (some t)) = .ok w := ⟨.string t, rfl⟩
    have ⟨ws, hws⟩ := (ha.insert t).mapM_ok hs
    rw [hws]
    exact ⟨_, rfl⟩

theorem propertyResult_text (req : Request) {t : Text} (h : guessType t = .string) :
    propertyResult req (Tree.Value.text (some t)).xtok = .ok (.string t, .string) := by
  show (do return (← str2CMPIValueOf (guessType t) (some t), guessType t) : Except Fault _) = _
  rw [h]
  rfl

-- Only the conversion of the properties of an instance takes escapes out of a text.
theorem readEverywhere_iff {s : Text} {v : Tree.Value} (hs : StringData s)
    (hv : tokens (bytes "<VALUE>" ++ AsciiToXmlStr s ++ bytes "</VALUE>") = v.yield) :
    ReadEverywhere v s ↔ ∀ b ∈ s, isSpecial b = false := by
  rw [← AsciiToXmlStr_eq_self_iff, hs.value_eq hv]
  constructor
  · intro h
    have hr := h.returnValue { bytesOf := fun _ => [] }
    rw [returned_text] at hr
    have ⟨hr, _⟩ := Prod.mk.inj (Except.ok.inj hr)
    exact Option.some.inj (CMPIValue.string.inj hr)
  · intro h
    have hd := XmlToAsciiStr_AsciiToXmlStr s
    have hg := hs.guessType_eq
    rw [h] at hd hg ⊢
    exact {
      property      := fun _ _ _ _ _ hn ht => gives_property hd hn ht
      propertyArray := fun _ _ _ _ _ _ _ hn ht => gives_propertyArray hd hn ht
      returnValue   := fun req => returned_text req s
      paramValue    := fun name => argument_text name s
      paramArray    := fun _ _ _ => gives_paramArray
      getProperty   := fun req => propertyResult_text req hg }

theorem StringData.single {b : UInt8} (hv : isVisible b) (hd : isdigit b = false) : StringData [b] where
  nulFree h    := by
    cases List.mem_singleton.mp h
    cases hv
  first        := ⟨b, rfl, hv⟩
  last         := ⟨b, rfl, hv⟩
  notInteger h := by
    have ⟨ds, hn, hds, h⟩ := h
    cases ds with
    | nil       => exact hn rfl
    | cons d ds =>
      have hdd := hds d (List.mem_cons_self ..)
      cases h with
      | inl h =>
        cases h
        rw [hd] at hdd
        cases hdd
      | inr h =>
        have ⟨c, _, h⟩ := h
        cases h
  notBoolean h := by
    cases h with
    | inl h =>
      have hl : 1 = 4 := congrArg List.length (sameIgnoringCase_iff.mp h)
      cases hl
    | inr h =>
      have hl : 1 = 5 := congrArg List.length (sameIgnoringCase_iff.mp h)
      cases hl

theorem readEverywhere_iff_x : ReadEverywhere (.text (bytes "x")) (bytes "x") ↔
    ∀ b ∈ bytes "x", isSpecial b = false := by
  have hx : StringData (bytes "x") := .single (by decide) (by decide)
  exact readEverywhere_iff hx (value_lexes (by decide)).tokens_eq

theorem not_readEverywhere_amp : ¬ ∀ (s : Text) (v : Tree.Value), StringData s →
    tokens (bytes "<VALUE>" ++ AsciiToXmlStr s ++ bytes "</VALUE>") = v.yield → ReadEverywhere v s := by
  intro h
  have hx : StringData (bytes "&") := .single (by decide) (by decide)
  have hr := h (bytes "&") (.text (bytes "&amp;")) hx (value_lexes (by decide)).tokens_eq
  have he := hr.returnValue { bytesOf := fun _ => [] }
  rw [returned_text] at he
  have ⟨he, _⟩ := Prod.mk.inj (Except.ok.inj he)
  exact absurd (CMPIValue.string.inj he) (by decide)

end Xml
end Sfcc
