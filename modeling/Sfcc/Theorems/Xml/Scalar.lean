import Mathlib.Data.Nat.Digits.Lemmas
import Sfcc.Theorems.Cmpi.Chars
import Sfcc.Theorems.Xml.Texts

namespace Sfcc

-- Numbers.

theorem digit_toNat {d : ℕ} (h : d < 10) : (d.toUInt8 + 48 : UInt8).toNat = d + 48 := by
  have hd : d.toUInt8.toNat = d := by
    rw [Nat.toUInt8_eq, UInt8.toNat_ofNat']
    omega
  rw [UInt8.toNat_add, hd]
  simp
  omega

theorem decimal_isdigit (n : ℕ) : ∀ b ∈ decimal n, isdigit b := by
  intro b hb
  rw [decimal] at hb
  split at hb
  · cases List.mem_singleton.mp hb
    rfl
  · have ⟨d, hd, hb⟩ := List.mem_map.mp hb
    have hlt := Nat.digits_lt_base (b := 10) (by omega) (List.mem_reverse.mp hd)
    have ht := digit_toNat hlt
    subst hb
    simp only [isdigit, UInt8.le_iff_toNat_le, ht, decide_eq_true_eq]
    simp
    omega

theorem decimal_ne_nil (n : ℕ) : decimal n ≠ [] := by
  rw [decimal]
  split
  case isTrue h  => nofun
  case isFalse h => simpa [Nat.digits_eq_nil_iff_eq_zero] using h

theorem digits_map {ds : List ℕ} (h : ∀ d ∈ ds, d < 10) :
    digits (ds.reverse.map fun d => d.toUInt8 + 48) = Nat.ofDigits 10 ds := by
  induction ds with
  | nil          => rfl
  | cons d ds hi =>
    have ⟨hd, hds⟩ := List.forall_mem_cons.mp h
    have hi := hi hds
    rw [digits] at *
    rw [List.reverse_cons, List.map_append, List.foldl_append, hi, Nat.ofDigits_cons]
    simp only [List.map_cons, List.map_nil, List.foldl_cons, List.foldl_nil, digit_toNat hd]
    push_cast
    omega

theorem digits_decimal (n : ℕ) : digits (decimal n) = n := by
  rw [decimal]
  split
  case isTrue h  => rw [h]; rfl
  case isFalse h =>
    rw [digits_map fun d hd => Nat.digits_lt_base (by omega) hd, Nat.ofDigits_digits]

theorem takeWhile_isdigit {ds : Text} (h : ∀ d ∈ ds, isdigit d) : ds.takeWhile isdigit = ds := by
  simpa using h

theorem isspace_of_isdigit {b : UInt8} (h : isdigit b) : isspace b = false ∧ isSign b = false := by
  simp only [isdigit, isspace, isSign, UInt8.le_iff_toNat_le, ← UInt8.toNat_inj, decide_eq_true_eq,
    decide_eq_false_iff_not] at *
  simp at *
  omega

theorem scanNumber_signedDecimal (n : ℤ) : scanNumber (signedDecimal n) = some (decide (n < 0), n.natAbs) := by
  have hd := decimal_isdigit n.natAbs
  have hw := takeWhile_isdigit hd
  have hn := decimal_ne_nil n.natAbs
  have hdig := digits_decimal n.natAbs
  by_cases h : n < 0
  · have hs : isspace 45 = false := rfl
    have hg : isSign 45 = true := rfl
    simp [scanNumber, signedDecimal, h, hs, hg, hw, hn, hdig]
  · rw [signedDecimal, if_neg h]
    generalize decimal n.natAbs = t at *
    cases t with
    | nil      => exact absurd rfl hn
    | cons b t =>
      have hb := hd b (List.mem_cons_self ..)
      have ⟨hs, hg⟩ := isspace_of_isdigit hb
      have h45 : b ≠ 45 := fun he => by
        subst he
        cases hg
      simp [scanNumber, hs, hg, h45, hw, hdig, h]

theorem strtoll_natAbs {n : ℤ} (hl : -(2 ^ 63) ≤ n) (hu : n < 2 ^ 63) :
    strtoll (decide (n < 0)) n.natAbs = n := by
  rw [strtoll]
  split <;> rename_i h <;> simp at h <;> omega

theorem strtoull_toNat {n : ℕ} (h : n < 2 ^ 64) : strtoull false n = n := by
  rw [strtoull, if_neg (Nat.not_le.mpr h)]
  rfl

theorem scanSigned_signedDecimal (f : ℤ → CMPIValue) {n : ℤ} (hl : -(2 ^ 63) ≤ n) (hu : n < 2 ^ 63) :
    scanSigned f (signedDecimal n) = f n := by
  rw [scanSigned, scanNumber_signedDecimal, Option.elim_some, strtoll_natAbs hl hu]

theorem scanUnsigned_signedDecimal (f : ℕ → CMPIValue) {n : ℕ} (h : n < 2 ^ 64) :
    scanUnsigned f (signedDecimal n) = f n := by
  have hn : decide ((n : ℤ) < 0) = false := by simp
  rw [scanUnsigned, scanNumber_signedDecimal, Option.elim_some, hn]
  exact congrArg f (strtoull_toNat h)

namespace Xml

-- An integer is printed as it is scanned.
theorem str2CMPIText_integer {type : CMPIType} {v : CMPIValue} {n : ℤ} (h : v.integer = some (type, n)) :
    str2CMPIText type (some (signedDecimal n)) = .ok v := by
  have hs {v} (f : ℤ → CMPIValue) (hl : -(2 ^ 63) ≤ n) (hu : n < 2 ^ 63) (hf : f n = v) :
      Except.ok (ε := Fault) (scanSigned f (signedDecimal n)) = .ok v := by
    rw [scanSigned_signedDecimal f hl hu, hf]
  have hu {v} (f : ℕ → CMPIValue) (m : ℕ) (hm : n = m) (hlt : m < 2 ^ 64) (hf : f m = v) :
      Except.ok (ε := Fault) (scanUnsigned f (signedDecimal n)) = .ok v := by
    rw [hm, scanUnsigned_signedDecimal f hlt, hf]
  cases v <;> cases h
  case uint8 n  => exact hu (.uint8 <| .ofNat ·) n.toNat rfl (by have := n.toNat_lt; omega) (by simp)
  case uint16 n => exact hu (.uint16 <| .ofNat ·) n.toNat rfl (by have := n.toNat_lt; omega) (by simp)
  case uint32 n => exact hu (.uint32 <| .ofNat ·) n.toNat rfl (by have := n.toNat_lt; omega) (by simp)
  case uint64 n => exact hu (.uint64 <| .ofNat ·) n.toNat rfl (by have := n.toNat_lt; omega) (by simp)
  case sint8 n  => exact hs (.sint8 <| .ofInt ·) (by have := n.le_toInt; omega) (by have := n.toInt_lt; omega) (by simp)
  case sint16 n => exact hs (.sint16 <| .ofInt ·) (by have := n.le_toInt; omega) (by have := n.toInt_lt; omega) (by simp)
  case sint32 n => exact hs (.sint32 <| .ofInt ·) (by have := n.le_toInt; omega) (by have := n.toInt_lt; omega) (by simp)
  case sint64 n => exact hs (.sint64 <| .ofInt ·) (by have := n.le_toInt; omega) (by have := n.toInt_lt; omega) (by simp)

-- A text that is empty, or begins and ends with a byte that can be seen.
structure Content (t : Text) : Prop where
  nulFree : 0 ∉ t
  first   : ∀ b ∈ t.head?, isVisible b
  last    : ∀ b ∈ t.getLast?, isVisible b

theorem Content.framed {t : Text} (h : Content t) : Framed t where
  first b hb := isWS_of_isVisible (h.first b hb)
  last b hb  := isWS_of_isVisible (h.last b hb)

theorem Content.of_visible {t : Text} (h : ∀ b ∈ t, isVisible b) : Content t where
  nulFree hb := absurd (h 0 hb) (by decide)
  first b hb := h b (List.mem_of_mem_head? hb)
  last b hb  := h b (List.mem_of_getLast? hb)

-- A text that is written as it is.
def Word (t : Text) : Prop :=
  ∀ b ∈ t, isVisible b ∧ isSpecial b = false

theorem Word.content {t : Text} (h : Word t) : Content t :=
  .of_visible fun b hb => (h b hb).left

theorem Word.escaped {t : Text} (h : Word t) : AsciiToXmlStr t = t :=
  (AsciiToXmlStr_eq_self_iff t).mpr fun b hb => (h b hb).right

-- A date or an interval, with the bytes such a text is made of.
structure DateTime (t : Text) : Prop where
  length : t.length = 25
  sign   : ∃ b, t[21]? = some b ∧ b ∈ bytes "-+:"
  bytes  : ∀ b ∈ t, isdigit b ∨ b ∈ bytes "*.-+:"

theorem digit_word {b : UInt8} (h : isdigit b) : isVisible b ∧ isSpecial b = false := by
  constructor
  · simp only [isdigit, isVisible, UInt8.le_iff_toNat_le, decide_eq_true_eq] at *
    simp at *
    omega
  · rw [Bool.eq_false_iff]
    intro hs
    rcases special_cases hs with rfl | rfl | rfl | rfl | rfl <;> cases h

theorem DateTime.word {t : Text} (h : DateTime t) : Word t := by
  have hs : ∀ b ∈ Sfcc.bytes "*.-+:", isVisible b ∧ isSpecial b = false := by decide
  intro b hb
  cases h.bytes b hb with
  | inl hb => exact digit_word hb
  | inr hb => exact hs b hb

theorem DateTime.read {t : Text} (h : DateTime t) : newCMPIDateTimeFromChars (some t) = some t := by
  have ⟨b, hb, hs⟩ := h.sign
  rw [newCMPIDateTimeFromChars, Option.filter_some, if_pos]
  simp only [h.length, hb, Option.any_some, decide_eq_true_eq, true_and]
  exact hs

-- The values that are written as one text, with the strings among them that satisfy `S`.
inductive Scalar (S : Text → Prop) : CMPIType → CMPIValue → Prop
  | string {t : Text} (h : S t) : Scalar S .string (.string t)
  | boolean (b : Bool) : Scalar S .boolean (.boolean b)
  | dateTime {t : Text} (h : DateTime t) : Scalar S .dateTime (.dateTime t)
  | integer {type v n} (h : v.integer = some (type, n)) : Scalar S type v

-- A value, the text it is written as, and a conversion that reads it again.
structure Printed (conv : CMPIType → XtokPointer XtokInstance → Except Fault CMPIValue) (type : CMPIType)
    (v : CMPIValue) (text : Text) : Prop where
  print  : ∀ printg, valueText printg type v = .ok text
  open_  : 60 ∉ text
  close  : 62 ∉ text
  framed : Framed text
  read   : conv type (.value (some text)) = .ok v

theorem Word.open_ {t : Text} (h : Word t) : 60 ∉ t :=
  fun hm => absurd (h 60 hm).right (by decide)

theorem Word.close {t : Text} (h : Word t) : 62 ∉ t :=
  fun hm => absurd (h 62 hm).right (by decide)

theorem str2CMPIDecoded_text {type : CMPIType} (hs : type ≠ .string) (hc : type ≠ .chars) (text : Option Text) :
    str2CMPIDecoded type (.value text) = str2CMPIText type text := by
  have hn : ¬ (type = .string ∨ type = .chars) := not_or.mpr ⟨hs, hc⟩
  rw [str2CMPIDecoded, if_neg hn]

-- What is not a string is read alike by both conversions.
theorem Printed.of_word {type : CMPIType} {v : CMPIValue} {text : Text} (hs : type ≠ .string) (hc : type ≠ .chars)
    (hp : v.Plain) (hprint : ∀ printg, plain2Chars printg type v = .ok text) (hw : Word text)
    (hr : str2CMPIText type (some text) = .ok v) :
    Printed str2CMPIDecoded type v text ∧ Printed str2CMPIPointer type v text := by
  have hprint (printg : Text → Text) : valueText printg type v = .ok text := by
    have hn : ¬ (type = .string ∨ type = .chars) := not_or.mpr ⟨hs, hc⟩
    rw [valueText, value2Chars_plain printg hp, hprint printg]
    simp only [bind, Except.bind, if_neg hn]
    rfl
  have hd := str2CMPIDecoded_text hs hc (some text)
  exact ⟨⟨hprint, hw.open_, hw.close, hw.content.framed, hd.trans hr⟩,
    ⟨hprint, hw.open_, hw.close, hw.content.framed, by rw [str2CMPIPointer, hr]⟩⟩

theorem signedDecimal_word (n : ℤ) : Word (signedDecimal n) := by
  have hw : ∀ b ∈ decimal n.natAbs, isVisible b ∧ isSpecial b = false :=
    fun b hb => digit_word (decimal_isdigit _ b hb)
  rw [signedDecimal]
  split
  · exact List.forall_mem_cons.mpr ⟨by decide, hw⟩
  · exact hw

section Scalar

variable {S : Text → Prop} {type : CMPIType} {v : CMPIValue}

theorem Scalar.imp {S' : Text → Prop} (hS : ∀ t, S t → S' t) (h : Scalar S type v) : Scalar S' type v := by
  cases h with
  | string h   => exact .string (hS _ h)
  | boolean b  => exact .boolean b
  | dateTime h => exact .dateTime h
  | integer h  => exact .integer h

theorem Scalar.printed_or (h : Scalar S type v) :
    (∃ t, S t ∧ type = .string ∧ v = .string t) ∨
      ∃ text, Printed str2CMPIDecoded type v text ∧ Printed str2CMPIPointer type v text := by
  cases h with
  | string h    => exact .inl ⟨_, h, rfl, rfl⟩
  | boolean b   =>
    have hw : Word (bytes (if b then "true" else "false")) := by
      unfold Word
      cases b <;> decide
    have hr : str2CMPIText .boolean (some (bytes (if b then "true" else "false"))) = .ok (.boolean b) := by
      cases b <;> rfl
    exact .inr ⟨_, Printed.of_word (by decide) (by decide) trivial (fun _ => rfl) hw hr⟩
  | @dateTime t h  =>
    have hr : str2CMPIText .dateTime (some t) = .ok (.dateTime t) := by rw [str2CMPIText_dateTime, h.read]
    exact .inr ⟨t, Printed.of_word (by decide) (by decide) trivial (fun _ => rfl) h.word hr⟩
  | integer h   =>
    have hs : type ≠ .string := by cases v <;> cases h <;> decide
    exact .inr ⟨_, Printed.of_word hs (integer_ne_chars h) (integer_plain h)
      (fun printg => plain2Chars_integer printg h) (signedDecimal_word _) (str2CMPIText_integer h)⟩

theorem valueText_string (printg : Text → Text) (t : Text) :
    valueText printg .string (.string t) = .ok (AsciiToXmlStr t) :=
  rfl

theorem AsciiToXmlStr_not_mem {t : Text} {c : UInt8} (hc : isSpecial c) (h38 : c ≠ 38) : c ∉ AsciiToXmlStr t :=
  fun h => h38 (AsciiToXmlStr_mem h hc)

theorem Scalar.decoded (h : Scalar Content type v) : ∃ text, Printed str2CMPIDecoded type v text := by
  cases h.printed_or with
  | inr h =>
    have ⟨text, h, _⟩ := h
    exact ⟨text, h⟩
  | inl h =>
    have ⟨t, ht, htype, hv⟩ := h
    subst htype hv
    refine ⟨AsciiToXmlStr t, fun printg => valueText_string printg t, AsciiToXmlStr_not_mem rfl (by decide),
      AsciiToXmlStr_not_mem rfl (by decide), ht.framed.escaped, ?_⟩
    rw [str2CMPIDecoded_string, XmlToAsciiStr_AsciiToXmlStr]

theorem Scalar.pointed (h : Scalar Word type v) : ∃ text, Printed str2CMPIPointer type v text := by
  cases h.printed_or with
  | inr h =>
    have ⟨text, _, h⟩ := h
    exact ⟨text, h⟩
  | inl h =>
    have ⟨t, ht, htype, hv⟩ := h
    subst htype hv
    refine ⟨t, fun printg => ?_, ht.open_, ht.close, ht.content.framed, rfl⟩
    rw [valueText_string, ht.escaped]

end Scalar

end Xml
end Sfcc
