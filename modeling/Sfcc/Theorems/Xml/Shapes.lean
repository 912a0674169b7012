import Sfcc.Theorems.Xml.Lexer

-- What the elements of the lexer's table have in common.
namespace Sfcc.Xml

-- The names of the attributes of an element.
def AttrNames (elm : List Text) : Prop :=
  (∀ n ∈ elm, n.head?.any isalpha ∧ n.all isalnum) ∧ elm.Pairwise fun m n => ¬ sameIgnoringCase m n

instance (elm : List Text) : Decidable (AttrNames elm) :=
  inferInstanceAs (Decidable (_ ∧ _))

theorem isalpha_lower (b : UInt8) : isalpha (if 65 ≤ b ∧ b ≤ 90 then b + 32 else b) = isalpha b := by
  split
  · have h : 65 ≤ b ∧ b ≤ 90 := ‹_›
    rw [Bool.eq_iff_iff]
    simp only [isalpha, UInt8.le_iff_toNat_le, UInt8.toNat_add, decide_eq_true_eq] at *
    simp at *
    omega
  · rfl

theorem isdigit_lower (b : UInt8) : isdigit (if 65 ≤ b ∧ b ≤ 90 then b + 32 else b) = isdigit b := by
  split
  · have h : 65 ≤ b ∧ b ≤ 90 := ‹_›
    rw [Bool.eq_iff_iff]
    simp only [isdigit, UInt8.le_iff_toNat_le, UInt8.toNat_add, decide_eq_true_eq] at *
    simp at *
    omega
  · rfl

theorem isalnum_lower (b : UInt8) : isalnum (if 65 ≤ b ∧ b ≤ 90 then b + 32 else b) = isalnum b := by
  rw [isalnum, isalpha_lower, isdigit_lower, isalnum]

theorem all_isalnum_lower (t : Text) : t.lower.all isalnum = t.all isalnum := by
  rw [Text.lower, List.all_map]
  congr 1
  exact funext isalnum_lower

-- A letter is not compared with anything else.
theorem all_isalnum_of_same {t t' : Text} (h : sameIgnoringCase t t') : t.all isalnum = t'.all isalnum := by
  have he : t.lower = t'.lower := eq_of_beq h
  rw [← all_isalnum_lower, he, all_isalnum_lower]

theorem head_isalpha_of_same {t t' : Text} (h : sameIgnoringCase t t') : t.head?.any isalpha = t'.head?.any isalpha := by
  have hl (t : Text) : t.lower.head?.any isalpha = t.head?.any isalpha := by
    cases t with
    | nil      => rfl
    | cons c t => exact isalpha_lower c
  have he : t.lower = t'.lower := eq_of_beq h
  rw [← hl, he, hl]

theorem length_of_same {t t' : Text} (h : sameIgnoringCase t t') : t.length = t'.length := by
  have he : t.lower = t'.lower := eq_of_beq h
  have hl := congrArg List.length he
  rwa [Text.lower, Text.lower, List.length_map, List.length_map] at hl

-- A text that ends within a word is not this word.
theorem not_same_take {n w s : Text} {c : UInt8} (hc : isalnum c = false) (hw : w.all isalnum) (hl : n.length < w.length) :
    ¬ sameIgnoringCase ((n ++ c :: s).take w.length) w := by
  intro h
  have hm : c ∈ (n ++ c :: s).take w.length := by
    rw [List.take_append]
    apply List.mem_append_right
    have ⟨k, hk⟩ : ∃ k, w.length - n.length = k + 1 := ⟨w.length - n.length - 1, by omega⟩
    rw [hk, List.take_succ_cons]
    exact List.mem_cons_self ..
  have hall := List.all_eq_true.mp ((all_isalnum_of_same h).trans hw) c hm
  exact Bool.false_ne_true (hc.symm.trans hall)

-- Tokens up to the difference between no text and one without a byte.
def Tok.blank : Tok → Tok
  | .X .VALUE value  => .X .VALUE (some (Option.getD value []))
  | .X .HOST content => .X .HOST (some (Option.getD content []))
  | .X .KEYVALUE a   => .X .KEYVALUE { valueType := a.valueType, value := some (a.value.getD []) }
  | t                => t

-- The start of an element with a text.
def Tok.isText : Tok → Bool
  | .X .VALUE _ | .X .HOST _ | .X .KEYVALUE _ => true
  | _                                         => false

def Tok.isEnd : Tok → Bool
  | .Z _ => true
  | _    => false

-- The same token with another text.
def Tok.withText (text : Option Text) : Tok → Tok
  | .X .VALUE _    => .X .VALUE text
  | .X .HOST _     => .X .HOST text
  | .X .KEYVALUE a => .X .KEYVALUE { valueType := a.valueType, value := text }
  | t              => t

-- The start of an element whose text is not looked at.
def Tok.Bare (t : Tok) : Prop :=
  t.isText = false ∧ t.isEnd = false

theorem Tok.not_isEnd {t : Tok} (h : t.isText) : t.isEnd = false := by
  cases t with
  | Z _          => cases h
  | none | X _ _ => rfl

theorem Tok.withText_inj {t : Tok} (h : t.isText) {u v : Option Text} (he : t.withText u = t.withText v) : u = v := by
  cases t with
  | none   => cases h
  | Z _    => cases h
  | X k a  =>
    cases k
    case VALUE | HOST | KEYVALUE =>
      cases he
      rfl
    all_goals cases h

-- The elements that do not go on with all attributes.
def picky : List Text :=
  [bytes "EXPMETHODCALL", bytes "EXPPARAMVALUE", bytes "PARAMVALUE"]

-- What a `proc` function does behind the attributes.
inductive TokenKind : String → ((ℕ → Option Text) → Proc) → Prop
  | element {tag} (token : (ℕ → Option Text) → Tok) (h : bytes tag ∉ picky) (bare : ∀ attr, (token attr).Bare) :
    TokenKind tag fun attr xb => return (token attr, xb)
  | content {tag} (token : (ℕ → Option Text) → Option Text → Tok) (h : bytes tag ∉ picky)
    (blank : ∀ attr, (token attr none).blank = (token attr (some [])).blank) (text : ∀ attr v, (token attr v).isText)
    (same : ∀ attr u v, (token attr u).withText v = token attr v) :
    TokenKind tag fun attr xb => do
      let (content, xb) ← xb.getContent
      return (token attr content, xb)
  | named {tag} (name : String) (token : Tok) (h : tag = "EXPMETHODCALL" ∨ tag = "EXPPARAMVALUE") (bare : token.Bare) :
    TokenKind tag fun attr xb =>
      match attr 0 with
      | none   => throw .null
      | some n => return (if sameIgnoringCase n (bytes name) then token else .none, xb)
  | paramValue : TokenKind "PARAMVALUE" fun attr xb =>
      let token type := .X .PARAMVALUE { name := attr 0, type }
      match attr 2 with
      | none   => return (token (xmlToCmpiType (attr 1)), xb)
      | some a =>
        if sameIgnoringCase a (bytes "instance") ∨ sameIgnoringCase a (bytes "object") then
          return (token .inst, xb)
        else throw .exit

-- The elements whose own end is not the one of their end tag.
def misnamed : List Text :=
  [bytes "VALUE.REFARRAY", bytes "VALUE.OBJECTWITHPATH"]

structure Shape (e : Tags) (tag : String) (elm : List String) (etag : Tok) (token : (ℕ → Option Text) → Proc) : Prop where
  name    : e.tag = bytes tag
  process : e.process = procTag tag elm etag token
  names   : AttrNames (elm.map bytes)
  kind    : TokenKind tag token
  ends    : etag.blank = e.etag.blank ↔ e.tag ∉ misnamed
  closes  : ∃ k, e.etag = .Z k

section

variable {tag : String} {elm : List String} {etag : Tok} {k : Tag}

theorem ends_self (h : bytes tag ∉ misnamed) : etag.blank = etag.blank ↔ bytes tag ∉ misnamed :=
  iff_of_true rfl h

theorem shape_element {token : (ℕ → Option Text) → Tok} (hp : bytes tag ∉ picky) (hn : AttrNames (elm.map bytes))
    (ht : ∀ attr, (token attr).Bare) (he : etag.blank = (Tok.Z k).blank ↔ bytes tag ∉ misnamed) : ∃ tag' etag' token',
      Shape ⟨bytes tag, procElement tag elm etag token, .Z k⟩ tag' elm etag' token' :=
  ⟨_, _, _, rfl, rfl, hn, .element token hp ht, he, k, rfl⟩

theorem shape_content {token : (ℕ → Option Text) → Option Text → Tok} (hp : bytes tag ∉ picky)
    (hn : AttrNames (elm.map bytes)) (hb : ∀ attr, (token attr none).blank = (token attr (some [])).blank)
    (ht : ∀ attr v, (token attr v).isText) (hs : ∀ attr u v, (token attr u).withText v = token attr v)
    (he : etag.blank = (Tok.Z k).blank ↔ bytes tag ∉ misnamed) : ∃ tag' etag' token',
      Shape ⟨bytes tag, procContent tag elm etag token, .Z k⟩ tag' elm etag' token' :=
  ⟨_, _, _, rfl, rfl, hn, .content token hp hb ht hs, he, k, rfl⟩

theorem shape_named {name : String} {token : Tok} (hp : tag = "EXPMETHODCALL" ∨ tag = "EXPPARAMVALUE") (ht : token.Bare)
    (he : etag.blank = (Tok.Z k).blank ↔ bytes tag ∉ misnamed) : ∃ tag' etag' token',
      Shape ⟨bytes tag, procNamed tag name etag token, .Z k⟩ tag' ["NAME"] etag' token' :=
  ⟨tag, _, _, rfl, rfl, by decide, .named name token hp ht, he, k, rfl⟩

theorem shape_paramValue : ∃ tag etag token,
    Shape ⟨bytes "PARAMVALUE", procParamValue, .Z .PARAMVALUE⟩ tag ["NAME", "PARAMTYPE", "EMBEDDEDOBJECT"] etag token :=
  ⟨"PARAMVALUE", _, _, rfl, rfl, by decide, .paramValue, ends_self (by decide), _, rfl⟩

end

theorem Shape.eq {e : Tags} {tag : String} {elm : List String} {etag : Tok} {token : (ℕ → Option Text) → Proc}
    (h : Shape e tag elm etag token) : e = ⟨bytes tag, procTag tag elm etag token, e.etag⟩ := by
  rw [← h.name, ← h.process]

-- The attributes of the elements, in the order of the table.
def attributeLists : List (List String) :=
  [["version", "encoding"], ["CIMVERSION", "DTDVERSION"], ["ID", "PROTOCOLVERSION"], [], ["CODE", "DESCRIPTION"],
    ["NAME"], [], [], [], [], [], ["NAME"], ["NAME", "PARAMTYPE", "EMBEDDEDOBJECT"], ["NAME"],
    [], [], [], [], [], [], [], ["VALUETYPE", "TYPE"], ["NAME"], [], ["CLASSNAME"], ["CLASSNAME"],
    ["NAME", "REFERENCECLASS", "CLASSORIGIN", "PROPAGATED"],
    ["NAME", "TYPE", "CLASSORIGIN", "PROPAGATED", "ARRAYSIZE", "EMBEDDEDOBJECT"],
    ["NAME", "TYPE", "CLASSORIGIN", "PROPAGATED", "EMBEDDEDOBJECT"],
    ["NAME", "TYPE", "PROPAGATED", "OVERRIDABLE", "TOSUBCLASS", "TOINSTANCE", "TRANSLATABLE"],
    ["NAME", "TYPE", "ARRAYSIZE"], ["NAME", "REFERENCECLASS"], ["NAME", "REFERENCECLASS", "ARRAYSIZE"], ["NAME", "TYPE"],
    ["NAME", "TYPE", "CLASSORIGIN", "PROPAGATED"], ["NAME", "SUPERCLASS"], [], ["NAME"], ["PARAMTYPE", "EMBEDDEDOBJECT"],
    [], [], ["NAME"], ["NAME"]]

def attributed : List (Tags × List String) :=
  elements.zip attributeLists

theorem attributed_elements : attributed.map (·.1) = elements :=
  List.map_fst_zip (by decide)

theorem attributed_shapes : ∀ p ∈ attributed, ∃ tag etag token, Shape p.1 tag p.2 etag token := by
  simp only [attributed, attributeLists, elements, tags, List.take_succ_cons, List.take_zero, List.zip_cons_cons,
    List.zip_nil_left, List.forall_mem_cons]
  refine ⟨?_, ?_, ?_, ?_, ?_, ?_, ?_, ?_, ?_, ?_, ?_, ?_, ?_, ?_, ?_, ?_, ?_, ?_, ?_, ?_, ?_, ?_, ?_, ?_, ?_, ?_, ?_, ?_,
    ?_, ?_, ?_, ?_, ?_, ?_, ?_, ?_, ?_, ?_, ?_, ?_, ?_, ?_, ?_, nofun⟩
  all_goals first
    | exact shape_element (by decide) (by decide) (fun _ => ⟨rfl, rfl⟩) (ends_self (by decide))
    | exact shape_content (by decide) (by decide) (fun _ => rfl) (fun _ _ => rfl) (fun _ _ _ => rfl) (ends_self (by decide))
    | exact shape_named (by decide) ⟨rfl, rfl⟩ (ends_self (by decide))
    | exact shape_paramValue
    | exact shape_element (by decide) (by decide) (fun _ => ⟨rfl, rfl⟩) (iff_of_false nofun (by decide))

theorem attributed_shape {e : Tags} {elm : List String} (h : (e, elm) ∈ attributed) :
    ∃ tag etag token, Shape e tag elm etag token :=
  attributed_shapes _ h

theorem mem_elements {e : Tags} {elm : List String} (h : (e, elm) ∈ attributed) : e ∈ elements :=
  attributed_elements ▸ List.mem_map_of_mem h

theorem elements_shape {e : Tags} (h : e ∈ elements) : ∃ tag elm etag token, Shape e tag elm etag token := by
  rw [← attributed_elements] at h
  have ⟨p, hp, he⟩ := List.mem_map.mp h
  have ⟨tag, etag, token, hs⟩ := attributed_shapes p hp
  exact ⟨tag, p.2, etag, token, he ▸ hs⟩

end Sfcc.Xml
