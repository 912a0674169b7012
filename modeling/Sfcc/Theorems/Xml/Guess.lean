import Sfcc.Theorems.Xml.Numbers
import Sfcc.Xml.Response

-- The types that are guessed from texts, and the values that are read of the texts then.
namespace Sfcc

open Xml

-- The loop of `guessType`, on what is behind the first byte of `val`.
def guessLoop (val : Text) : Text → CMPIType
  | []     => if val.head?.any isdigit then .uint64 else .sint64
  | c :: t => if isdigit c then guessLoop val t else .string

-- The texts of one type.

def IsUnsigned (v : Text) : Prop :=
  v ≠ [] ∧ ∀ c ∈ v, isdigit c

def IsSigned (v : Text) : Prop :=
  ∃ c ds, isSign c ∧ ds ≠ [] ∧ (∀ d ∈ ds, isdigit d) ∧ v = c :: ds

section

variable {v val t : Text} {c : UInt8} {n : ℤ}

theorem guessType_unsigned (h : IsUnsigned v) : guessType v = .uint64 := by
  have ⟨hn, hd⟩ := h
  cases v with
  | nil      => exact absurd rfl hn
  | cons c t =>
    have ⟨hc, ht⟩ := List.forall_mem_cons.mp hd
    have hall : t.all isdigit := List.all_eq_true.mpr ht
    rw [guessType, if_pos (.inr hc), if_pos hall, if_pos hc]

theorem guessType_signed (h : IsSigned v) : guessType v = .sint64 := by
  obtain ⟨c, ds, hc, hn, hd, rfl⟩ := h
  have hall : ds.all isdigit := List.all_eq_true.mpr hd
  have hdigit : ¬ isdigit c := by
    intro hdigit
    have ⟨_, hs⟩ := isspace_of_isdigit hdigit
    exact absurd (hs.symm.trans hc) nofun
  rw [guessType, if_pos (.inl ⟨hc, hn⟩), if_pos hall, if_neg hdigit]

-- The first byte of a truth value is a letter.
theorem guessType_boolean (h : IsBoolean v) : guessType v = .boolean := by
  cases v with
  | nil      =>
    cases h with
    | inl h => cases h
    | inr h => cases h
  | cons c t =>
    have hl : (if 65 ≤ c ∧ c ≤ 90 then c + 32 else c) = 116 ∨ (if 65 ≤ c ∧ c ≤ 90 then c + 32 else c) = 102 := by
      cases h with
      | inl h => exact .inl (List.cons.inj (sameIgnoringCase_iff.mp h)).left
      | inr h => exact .inr (List.cons.inj (sameIgnoringCase_iff.mp h)).left
    have hc : ¬ (isSign c ∧ t ≠ [] ∨ isdigit c) := by
      rintro (⟨hs, _⟩ | hd)
      · simp only [isSign, decide_eq_true_eq] at hs
        obtain rfl | rfl := hs
        · exact absurd hl (by decide)
        · exact absurd hl (by decide)
      · have hlow : ¬ (65 ≤ c ∧ c ≤ 90) := by
          simp only [isdigit, decide_eq_true_eq, UInt8.le_iff_toNat_le] at hd ⊢
          simp at hd ⊢
          omega
        rw [if_neg hlow] at hl
        obtain rfl | rfl := hl
        · cases hd
        · cases hd
    rw [guessType, if_neg hc]
    exact if_pos h

theorem isInteger_iff : IsInteger v ↔ IsUnsigned v ∨ IsSigned v := by
  constructor
  · rintro ⟨ds, hn, hd, rfl | ⟨c, hc, rfl⟩⟩
    · exact .inl ⟨hn, hd⟩
    · exact .inr ⟨c, ds, hc, hn, hd, rfl⟩
  · rintro (⟨hn, hd⟩ | ⟨c, ds, hc, hn, hd, rfl⟩)
    · exact ⟨v, hn, hd, .inl rfl⟩
    · exact ⟨ds, hn, hd, .inr ⟨c, hc, rfl⟩⟩

-- Every text is of one of the kinds.
theorem guessType_cases (v : Text) : IsUnsigned v ∧ guessType v = .uint64 ∨ IsSigned v ∧ guessType v = .sint64 ∨
    IsBoolean v ∧ guessType v = .boolean ∨ ¬ (IsUnsigned v ∨ IsSigned v ∨ IsBoolean v) ∧ guessType v = .string := by
  by_cases hu : IsUnsigned v
  · exact .inl ⟨hu, guessType_unsigned hu⟩
  · by_cases hs : IsSigned v
    · exact .inr (.inl ⟨hs, guessType_signed hs⟩)
    · by_cases hb : IsBoolean v
      · exact .inr (.inr (.inl ⟨hb, guessType_boolean hb⟩))
      · have hi : ¬ IsInteger v := by
          rw [isInteger_iff]
          exact not_or.mpr ⟨hu, hs⟩
        exact .inr (.inr (.inr ⟨not_or.mpr ⟨hu, not_or.mpr ⟨hs, hb⟩⟩, guessType_string hi hb⟩))

theorem IsUnsigned.decimal (h : IsUnsigned v) : Decimal v (digits v) :=
  .plain h.left h.right

theorem IsSigned.decimal (h : IsSigned v) : ∃ n, Decimal v n := by
  obtain ⟨c, ds, hc, hn, hd, rfl⟩ := h
  simp only [isSign, decide_eq_true_eq] at hc
  obtain rfl | rfl := hc
  · exact ⟨_, .plus hn hd⟩
  · exact ⟨_, .minus hn hd⟩

theorem IsBoolean.not_false (h : IsBoolean v) : (!sameIgnoringCase v (bytes "false")) = sameIgnoringCase v (bytes "true") := by
  have hne : sameIgnoringCase (bytes "true") (bytes "false") = false := rfl
  cases h with
  | inl h =>
    have hf : sameIgnoringCase v (bytes "false") = false := by
      rw [Bool.eq_false_iff]
      intro hf
      have ht : (bytes "true").lower = (bytes "false").lower := (sameIgnoringCase_iff.mp h).symm.trans (sameIgnoringCase_iff.mp hf)
      exact absurd (sameIgnoringCase_iff.mpr ht) (Bool.eq_false_iff.mp hne)
    rw [h, hf]
    rfl
  | inr h =>
    have ht : sameIgnoringCase v (bytes "true") = false := by
      rw [Bool.eq_false_iff]
      intro ht
      have hf : (bytes "true").lower = (bytes "false").lower := (sameIgnoringCase_iff.mp ht).symm.trans (sameIgnoringCase_iff.mp h)
      exact absurd (sameIgnoringCase_iff.mpr hf) (Bool.eq_false_iff.mp hne)
    rw [h, ht]
    rfl

end

-- The type that is guessed is the one of the text, and the value is the one the text stands for.
structure GuessMatches (v : Text) : Prop where
  unsigned : guessType v = .uint64 ↔ IsUnsigned v
  signed   : guessType v = .sint64 ↔ IsSigned v
  boolean  : guessType v = .boolean ↔ IsBoolean v
  string   : guessType v = .string ↔ ¬ (IsUnsigned v ∨ IsSigned v ∨ IsBoolean v)
  number   : IsUnsigned v ∨ IsSigned v → ∃ n, Decimal v n ∧
    ((guessType v).InRange n → ∃ w, str2CMPIValueOf .null (some v) = .ok w ∧ w.integer = some (guessType v, n))
  truth    : IsBoolean v → str2CMPIValueOf .null (some v) = .ok (.boolean (sameIgnoringCase v (bytes "true")))
  text     : guessType v = .string → str2CMPIValueOf .null (some v) = .ok (.string (some v))

theorem str2CMPIValueOf_guess (v : Text) : str2CMPIValueOf .null (some v) = str2CMPIText (guessType v) (some v) :=
  str2CMPIText_null v

theorem guess_matches (v : Text) : GuessMatches v where
  unsigned := by
    obtain ⟨h, hg⟩ | ⟨_, hg⟩ | ⟨_, hg⟩ | ⟨_, hg⟩ := guessType_cases v
    · exact iff_of_true hg h
    all_goals exact ⟨fun hu => absurd (hg.symm.trans hu) (by decide), guessType_unsigned⟩
  signed   := by
    obtain ⟨_, hg⟩ | ⟨h, hg⟩ | ⟨_, hg⟩ | ⟨_, hg⟩ := guessType_cases v
    case inr.inl => exact iff_of_true hg h
    all_goals exact ⟨fun hs => absurd (hg.symm.trans hs) (by decide), guessType_signed⟩
  boolean  := by
    obtain ⟨_, hg⟩ | ⟨_, hg⟩ | ⟨h, hg⟩ | ⟨_, hg⟩ := guessType_cases v
    case inr.inr.inl => exact iff_of_true hg h
    all_goals exact ⟨fun hb => absurd (hg.symm.trans hb) (by decide), guessType_boolean⟩
  string   := by
    obtain ⟨h, hg⟩ | ⟨h, hg⟩ | ⟨h, hg⟩ | ⟨h, hg⟩ := guessType_cases v
    · exact ⟨fun hs => absurd (hg.symm.trans hs) (by decide), fun hn => absurd (.inl h) hn⟩
    · exact ⟨fun hs => absurd (hg.symm.trans hs) (by decide), fun hn => absurd (.inr (.inl h)) hn⟩
    · exact ⟨fun hs => absurd (hg.symm.trans hs) (by decide), fun hn => absurd (.inr (.inr h)) hn⟩
    · exact iff_of_true hg h
  number h := by
    have ⟨n, hn⟩ : ∃ n, Decimal v n := by
      cases h with
      | inl h => exact ⟨_, h.decimal⟩
      | inr h => exact h.decimal
    refine ⟨n, hn, fun hr => ?_⟩
    rw [str2CMPIValueOf_guess]
    exact hn.str2CMPIText_eq_of_inRange hr
  truth h  := by
    have hs : scanner .boolean = some fun t => .boolean !sameIgnoringCase t (bytes "false") := rfl
    rw [str2CMPIValueOf_guess, guessType_boolean h, str2CMPIText_scanner hs, ← h.not_false]
    rfl
  text h   := by
    rw [str2CMPIValueOf_guess, h]
    exact str2CMPIText_string

end Sfcc
