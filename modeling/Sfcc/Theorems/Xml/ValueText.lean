import Sfcc.Theorems.Cmpi.Equal
import Sfcc.Xml.Encode

-- What the text of a value tells of it.
namespace Sfcc

open Xml

-- The values that are not null, of the types that are written as a single text.
inductive CMPIValue.Sent : CMPIType → CMPIValue → Prop
  | held {type v} : v.Held type → type ≠ .ref → Sent type v
  | chars (text : Text) : Sent .chars (.chars text)
  | dateTime (cimDt : Text) : Sent .dateTime (.dateTime cimDt)

section

variable (printg : Text → Text) {type : CMPIType} {v w : CMPIValue}

-- Whether both values are written, with another text each.
def TextsDiffer (type : CMPIType) (v w : CMPIValue) : Prop :=
  ∃ s t, valueText printg type v = .ok s ∧ valueText printg type w = .ok t ∧ s ≠ t

theorem CMPIValue.Held.ne_chars (h : v.Held type) : type ≠ .chars ∧ type ≠ .dateTime := by
  cases h with
  | integer h => cases v <;> cases h <;> decide
  | _         => decide

theorem CMPIValue.Held.plain (h : v.Held type) (hr : type ≠ .ref) : v.Plain := by
  cases h with
  | integer h => exact integer_plain h
  | ref _ _   => exact absurd rfl hr
  | _         => trivial

theorem CMPIValue.Sent.integer {n : ℤ} (h : v.integer = some (type, n)) : v.Sent type := by
  refine .held (.integer h) ?_
  cases v <;> cases h <;> decide

theorem AsciiToXmlStr_inj {s t : Text} : AsciiToXmlStr s = AsciiToXmlStr t ↔ s = t := by
  constructor
  · intro h
    have hs := congrArg XmlToAsciiStr h
    rwa [XmlToAsciiStr_AsciiToXmlStr, XmlToAsciiStr_AsciiToXmlStr] at hs
  · exact congrArg AsciiToXmlStr

theorem CMPIValue.Sent.printed (h : v.Sent type) : ∃ s, value2Chars printg type v = .ok s := by
  cases h with
  | held h _       => exact value2Chars_ok printg h.typed
  | chars text     => exact value2Chars_ok printg (.chars text)
  | dateTime cimDt => exact value2Chars_ok printg (.dateTime cimDt)

-- The texts differ where `value2Chars` tells the values apart.
theorem textsDiffer_iff_printed (hv : v.Sent type) (hw : w.Sent type) :
    TextsDiffer printg type v w ↔ value2Chars printg type v ≠ value2Chars printg type w := by
  obtain ⟨s, hs⟩ := hv.printed printg
  obtain ⟨t, ht⟩ := hw.printed printg
  have htext : ∀ {v : CMPIValue} {s : Text}, value2Chars printg type v = .ok s →
      valueText printg type v = .ok (if type = .string ∨ type = .chars then AsciiToXmlStr s else s) := by
    intro v s hs
    rw [valueText, hs]
    rfl
  have hinj : (if type = .string ∨ type = .chars then AsciiToXmlStr s else s) =
      (if type = .string ∨ type = .chars then AsciiToXmlStr t else t) ↔ s = t := by
    split
    · exact AsciiToXmlStr_inj
    · exact Iff.rfl
  rw [TextsDiffer, htext hs, htext ht, hs, ht, ne_eq, Except.ok.injEq, ← hinj]
  constructor
  · intro h
    obtain ⟨s', t', hs', ht', hne⟩ := h
    rwa [Except.ok.inj hs', Except.ok.inj ht']
  · intro hne
    exact ⟨_, _, rfl, rfl, hne⟩

-- Of the values that are not characters, no two are printed alike.
theorem value2Chars_sent_iff (hv : v.Sent type) (hw : w.Sent type) (hc : type ≠ .char16) :
    value2Chars printg type v = value2Chars printg type w ↔ v = w := by
  cases hv with
  | held hv hr     =>
    cases hw with
    | held hw _  => rw [value2Chars_iff printg hv hw, alike_plain_iff printg (hv.plain hr) hc hv]
    | chars _    => exact absurd rfl hv.ne_chars.1
    | dateTime _ => exact absurd rfl hv.ne_chars.2
  | chars text     =>
    cases hw with
    | held hw _   => exact absurd rfl hw.ne_chars.1
    | chars text' =>
      have hp : (CMPIValue.chars text).Plain ∧ (CMPIValue.chars text').Plain := ⟨trivial, trivial⟩
      rw [value2Chars_plain printg hp.1, value2Chars_plain printg hp.2]
      exact ⟨fun h => by cases h; rfl, fun h => by cases h; rfl⟩
  | dateTime cimDt =>
    cases hw with
    | held hw _       => exact absurd rfl hw.ne_chars.2
    | dateTime cimDt' =>
      have hp : (CMPIValue.dateTime cimDt).Plain ∧ (CMPIValue.dateTime cimDt').Plain := ⟨trivial, trivial⟩
      rw [value2Chars_plain printg hp.1, value2Chars_plain printg hp.2]
      exact ⟨fun h => by cases h; rfl, fun h => by cases h; rfl⟩

-- Nothing is printed of a character.
theorem value2Chars_char16 (hv : v.Sent .char16) : value2Chars printg .char16 v = .ok [] := by
  cases hv with
  | held hv hr => rw [value2Chars_plain printg (hv.plain hr), plain2Chars_other printg (by decide)]

-- The text tells the value, unless it is a character.
theorem textsDiffer_iff (hv : v.Sent type) (hw : w.Sent type) (hne : v ≠ w) :
    TextsDiffer printg type v w ↔ type ≠ .char16 := by
  rw [textsDiffer_iff_printed printg hv hw]
  constructor
  · intro hd hc
    cases hc
    exact hd ((value2Chars_char16 printg hv).trans (value2Chars_char16 printg hw).symm)
  · intro hc he
    exact hne ((value2Chars_sent_iff printg hv hw hc).mp he)

theorem textsDiffer_iff_uint8 :
    TextsDiffer id .uint8 (.uint8 1) (.uint8 2) ↔ CMPIType.uint8 ≠ .char16 :=
  textsDiffer_iff id (.held (.integer (n := 1) rfl) (by decide)) (.held (.integer (n := 2) rfl) (by decide))
    fun h => nomatch h

-- Two characters.
theorem not_textsDiffer_char16 : ¬ ∀ (printg : Text → Text) (type : CMPIType) (v w : CMPIValue),
    v.Sent type → w.Sent type → v ≠ w → TextsDiffer printg type v w := by
  intro h
  have hsent (c : UInt16) : (CMPIValue.char16 c).Sent .char16 := .held (.char16 c) (by decide)
  have ⟨s, t, hs, ht, hne⟩ := h id .char16 (.char16 65) (.char16 66) (hsent 65) (hsent 66) fun h => by cases h
  cases hs
  cases ht
  exact hne rfl

end

end Sfcc
