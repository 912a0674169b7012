import Sfcc.Escaper
import Sfcc.Theorems.Xml.Texts

namespace Sfcc

-- The escaper computes what it is meant to.

theorem xmlPiece_eq (b : UInt8) : xmlPiece b = AsciiToXmlStr [b] := by
  simp [xmlPiece, AsciiToXmlStr]

theorem xmlPiece_length (b : UInt8) : 1 ≤ (xmlPiece b).length ∧ (xmlPiece b).length ≤ 6 := by
  by_cases h : isSpecial b
  · rcases special_cases h with rfl | rfl | rfl | rfl | rfl <;> decide
  · simp [xmlPiece_eq, AsciiToXmlStr_plain (Bool.eq_false_iff.mpr h)]

theorem AsciiToXmlStr_length_cons (b : UInt8) (t : Text) :
    (AsciiToXmlStr (b :: t)).length = (xmlPiece b).length + (AsciiToXmlStr t).length := by
  rw [AsciiToXmlStr_cons, List.length_append, xmlPiece_eq]

-- All texts whose escaper stays in its block.
def EscapesInBounds (s : Text) : Prop :=
  ∀ w ∈ AsciiToXmlStrWrites s, w.InBounds

-- The ones that do not fit: one that is too short for its first escape, one of two escapes of the
-- largest size, and one that makes the size of the block pass the bound of `int` before its last byte.
inductive Cramped : Text → Prop
  | one {b : UInt8} (h : isSpecial b) : Cramped [b]
  | two {b c : UInt8} (hb : (xmlPiece b).length = 6) (hc : (xmlPiece c).length = 6) : Cramped [b, c]
  | long {s : Text} (j : ℕ) (hj : 2 ^ 30 ≤ (s.length + 1) * 2 ^ j)
    (hs : (s.length + 1) * 2 ^ j ≤ (AsciiToXmlStr (s.take (s.length - 2))).length + 6) : Cramped s

-- A step of the loop.
section Step

variable {buflen Xlen : ℤ} {b : UInt8} {t : Text}

theorem escapeWrites_keeps (h0 : 0 ≤ Xlen) (hX : Xlen < 2 ^ 30) (h : Xlen + 6 < buflen) (hb : buflen < 2 ^ 31) :
    escapeWrites buflen Xlen (b :: t) =
      ⟨Xlen, xmlPiece b, buflen⟩ :: escapeWrites buflen (Xlen + (xmlPiece b).length) t := by
  have ⟨_, hl⟩ := xmlPiece_length b
  have hi : int (Xlen + LargestXmlEscapeSize) = Xlen + 6 := int_eq (by simp only [LargestXmlEscapeSize]; omega)
    (by simp only [LargestXmlEscapeSize]; omega)
  rw [escapeWrites, hi, if_neg (by omega), size_t_eq (by omega) (by omega), int_eq (by omega) (by omega)]

theorem escapeWrites_doubles (h0 : 0 ≤ Xlen) (hX : Xlen < 2 ^ 30) (h : buflen ≤ Xlen + 6) :
    escapeWrites buflen Xlen (b :: t) =
      ⟨Xlen, xmlPiece b, size_t (int (2 * buflen))⟩ ::
        escapeWrites (int (2 * buflen)) (Xlen + (xmlPiece b).length) t := by
  have ⟨_, hl⟩ := xmlPiece_length b
  have hi : int (Xlen + LargestXmlEscapeSize) = Xlen + 6 := int_eq (by simp only [LargestXmlEscapeSize]; omega)
    (by simp only [LargestXmlEscapeSize]; omega)
  rw [escapeWrites, hi, if_pos h, int_eq (n := Xlen + _) (by omega) (by omega)]

end Step

-- The sizes of the block are the first one doubled some times.
theorem double_size (m k : ℕ) : m * 2 ^ (k + 1) = 2 * (m * 2 ^ k) := by
  rw [Nat.pow_succ, Nat.mul_comm (2 ^ k), Nat.mul_left_comm]

theorem size_le {m k j : ℕ} (h : k ≤ j) : m * 2 ^ k ≤ m * 2 ^ j :=
  Nat.mul_le_mul_left m (Nat.pow_le_pow_right (by decide) h)

theorem AsciiToXmlStr_take (t : Text) (n : ℕ) : (AsciiToXmlStr (t.take n)).length ≤ (AsciiToXmlStr t).length := by
  have h := AsciiToXmlStr_append (t.take n) (t.drop n)
  rw [List.take_append_drop] at h
  rw [h, List.length_append]
  exact Nat.le_add_right _ _

theorem take_cons (b : UInt8) (t : Text) (h : 2 ≤ t.length) :
    (b :: t).take ((b :: t).length - 2) = b :: t.take (t.length - 2) := by
  have hl : (b :: t).length - 2 = t.length - 2 + 1 := by
    rw [List.length_cons]
    omega
  rw [hl, List.take_succ_cons]

-- The last byte may make the size overflow, since the block is as good as unlimited then.
theorem escapeWrites_last {b : UInt8} {X c : ℕ} (hX : X < 2 ^ 30) (hc : 2 ^ 30 ≤ c) (h : c ≤ X + 6) :
    ∀ w ∈ escapeWrites c X [b], w.InBounds := by
  have ⟨_, hl⟩ := xmlPiece_length b
  have hi : int (2 * c) = 2 * c - 2 ^ 32 := by
    rw [int]
    omega
  have hs : size_t (2 * c - 2 ^ 32) = 2 ^ 64 - 2 ^ 32 + 2 * c := by
    rw [size_t]
    omega
  rw [escapeWrites_doubles (by omega) (by omega) (by omega), hi, escapeWrites, hs]
  intro w hw
  simp only [List.mem_cons, List.not_mem_nil, or_false] at hw
  rcases hw with rfl | rfl
  · exact ⟨by simp, by simp only; omega⟩
  · exact ⟨by simp only; omega, by simp only [List.length_singleton]; omega⟩

theorem escapeWrites_inBounds {m k X : ℕ} {t : Text} (hX : X < m * 2 ^ k)
    (hm : 6 ≤ m * 2 ^ k ∨ X = 0 ∧ 4 ≤ m * 2 ^ k) (hk : m * 2 ^ k < 2 ^ 31)
    (ht : X + (AsciiToXmlStr t).length < 2 ^ 30)
    (hj : ∀ j, 2 ≤ t.length → 2 ^ 30 ≤ m * 2 ^ j →
      X + (AsciiToXmlStr (t.take (t.length - 2))).length + 6 < m * 2 ^ j) :
    ∀ w ∈ escapeWrites ((m * 2 ^ k : ℕ) : ℤ) X t, w.InBounds := by
  induction t generalizing k X with
  | nil         =>
    intro w hw
    rw [escapeWrites, size_t_eq (by omega) (by omega)] at hw
    cases List.mem_singleton.mp hw
    exact ⟨by simp, by simp only [List.length_singleton]; omega⟩
  | cons b t hi =>
    have ⟨hl₁, hl⟩ := xmlPiece_length b
    rw [AsciiToXmlStr_length_cons] at ht
    have hj' : ∀ j, 2 ≤ t.length → 2 ^ 30 ≤ m * 2 ^ j →
        (X + (xmlPiece b).length) + (AsciiToXmlStr (t.take (t.length - 2))).length + 6 < m * 2 ^ j := by
      intro j htl h
      have hb := hj j (Nat.le_succ_of_le htl) h
      rw [take_cons b t htl, AsciiToXmlStr_length_cons] at hb
      omega
    have hcast : (X : ℤ) + (xmlPiece b).length = ((X + (xmlPiece b).length : ℕ) : ℤ) := by push_cast; rfl
    by_cases hkeep : X + 6 < m * 2 ^ k
    · rw [escapeWrites_keeps (by omega) (by omega) (by omega) (by omega), hcast]
      refine List.forall_mem_cons.mpr ⟨⟨by simp, by simp only; omega⟩, ?_⟩
      exact hi (by omega) (.inl (by omega)) hk (by omega) hj'
    · by_cases hbig : m * 2 ^ k < 2 ^ 30
      · have hd := double_size m k
        have hint : int (2 * ((m * 2 ^ k : ℕ) : ℤ)) = ((m * 2 ^ (k + 1) : ℕ) : ℤ) := by
          rw [hd, int_eq (by omega) (by omega)]
          push_cast
          rfl
        rw [escapeWrites_doubles (by omega) (by omega) (by omega), hint, hcast,
          size_t_eq (by omega) (by omega)]
        refine List.forall_mem_cons.mpr ⟨⟨by simp, by simp only; omega⟩, ?_⟩
        exact hi (by omega) (.inl (by omega)) (by omega) (by omega) hj'
      · cases t with
        | nil      => exact escapeWrites_last (by omega) (by omega) (by omega)
        | cons c t =>
          have hb := hj k (by simp) (by omega)
          omega

-- A block that was taken too large is taken too small for the next byte.
theorem escapeWrites_outside {m k j X : ℕ} {t : Text} (hX : X < m * 2 ^ k)
    (hm : 6 ≤ m * 2 ^ k ∨ X = 0 ∧ 4 ≤ m * 2 ^ k) (hkj : k ≤ j) (hlen : 2 ≤ t.length)
    (ht : X + (AsciiToXmlStr t).length < 2 ^ 30) (hj : 2 ^ 30 ≤ m * 2 ^ j)
    (hs : m * 2 ^ j ≤ X + (AsciiToXmlStr (t.take (t.length - 2))).length + 6) :
    ∃ w ∈ escapeWrites ((m * 2 ^ k : ℕ) : ℤ) X t, ¬ w.InBounds := by
  induction t generalizing k X with
  | nil         => cases hlen
  | cons b t hi =>
    obtain ⟨hl₁, hl⟩ := xmlPiece_length b
    rw [AsciiToXmlStr_length_cons] at ht
    have hcast : (X : ℤ) + (xmlPiece b).length = ((X + (xmlPiece b).length : ℕ) : ℤ) := by push_cast; rfl
    have hlt : k ≠ j → 2 * (m * 2 ^ k) ≤ m * 2 ^ j := by
      intro hne
      rw [← double_size]
      exact size_le (by omega)
    by_cases hover : m * 2 ^ j ≤ X + 6
    · have hk : k = j := by
        by_contra hne
        have h2 := hlt hne
        omega
      subst hk
      cases t with
      | nil      => simp at hlen
      | cons c t =>
        generalize m * 2 ^ k = n at *
        have hi₁ : int (2 * n) = 2 * n - 2 ^ 32 := by
          rw [int]
          omega
        have hi₂ : size_t (int (2 * (2 * n - 2 ^ 32))) = 4 * n - 2 ^ 32 := by
          rw [int, size_t]
          omega
        rw [escapeWrites_doubles (by omega) (by omega) (by omega), hi₁, hcast,
          escapeWrites_doubles (by omega) (by omega) (by omega), hi₂]
        refine ⟨_, List.mem_cons_of_mem _ (List.mem_cons_self ..), ?_⟩
        rintro ⟨_, hw⟩
        obtain ⟨_, _⟩ := xmlPiece_length c
        simp only at hw
        omega
    · have htl : 2 ≤ t.length := by
        by_contra htl
        have h0 : (b :: t).length - 2 = 0 := by
          rw [List.length_cons]
          omega
        rw [h0, List.take_zero, AsciiToXmlStr_nil] at hs
        simp at hs
        omega
      rw [take_cons b t htl, AsciiToXmlStr_length_cons] at hs
      have htake := AsciiToXmlStr_take t (t.length - 2)
      have hle := @size_le m k j hkj
      by_cases hkeep : X + 6 < m * 2 ^ k
      · rw [escapeWrites_keeps (by omega) (by omega) (by omega) (by omega), hcast]
        obtain ⟨w, hw, hn⟩ := @hi k (X + (xmlPiece b).length) (by omega) (.inl (by omega)) hkj htl (by omega) (by omega)
        exact ⟨w, List.mem_cons_of_mem _ hw, hn⟩
      · have hne : k ≠ j := by
          intro h
          subst h
          omega
        have h2 := hlt hne
        have hd := double_size m k
        have hint : int (2 * ((m * 2 ^ k : ℕ) : ℤ)) = ((m * 2 ^ (k + 1) : ℕ) : ℤ) := by
          rw [hd, int_eq (by omega) (by omega)]
          push_cast
          rfl
        rw [escapeWrites_doubles (by omega) (by omega) (by omega), hint, hcast]
        obtain ⟨w, hw, hn⟩ := @hi (k + 1) (X + (xmlPiece b).length) (by omega) (.inl (by omega)) (by omega) htl
          (by omega) (by omega)
        exact ⟨w, List.mem_cons_of_mem _ hw, hn⟩

-- Texts of two bytes and less.

theorem escapesInBounds_nil : EscapesInBounds [] := by
  intro w hw
  cases List.mem_singleton.mp hw
  exact ⟨Int.le_refl _, by decide⟩

theorem escapeWrites_one (b : UInt8) : AsciiToXmlStrWrites [b] =
    [⟨0, xmlPiece b, 4⟩, ⟨(xmlPiece b).length, [0], 4⟩] := by
  have h2 : int (([b] : Text).length + 1) = 2 := by simp [int]
  have h4 : int (2 * 2) = 4 := by simp [int]
  have hs : size_t 4 = 4 := by simp [size_t]
  rw [AsciiToXmlStrWrites, h2, escapeWrites_doubles (by omega) (by omega) (by omega), h4, escapeWrites, hs,
    Int.zero_add]

theorem escapeWrites_two (b c : UInt8) : AsciiToXmlStrWrites [b, c] =
    [⟨0, xmlPiece b, 6⟩, ⟨(xmlPiece b).length, xmlPiece c, 12⟩,
      ⟨(xmlPiece b).length + (xmlPiece c).length, [0], 12⟩] := by
  have ⟨_, hl⟩ := xmlPiece_length b
  have h3 : int (([b, c] : Text).length + 1) = 3 := by simp [int]
  have h6 : int (2 * 3) = 6 := by simp [int]
  have h12 : int (2 * 6) = 12 := by simp [int]
  have hs : size_t 6 = 6 := by simp [size_t]
  have hs' : size_t 12 = 12 := by simp [size_t]
  rw [AsciiToXmlStrWrites, h3, escapeWrites_doubles (by omega) (by omega) (by omega), h6, Int.zero_add,
    escapeWrites_doubles (by omega) (by omega) (by omega), h12, escapeWrites, hs, hs']

theorem xmlPiece_plain_iff (b : UInt8) : (xmlPiece b).length < 4 ↔ isSpecial b = false := by
  by_cases h : isSpecial b
  · rcases special_cases h with rfl | rfl | rfl | rfl | rfl <;> decide
  · have h := Bool.eq_false_iff.mpr h
    simp [xmlPiece_eq, AsciiToXmlStr_plain h, h]

theorem escapesInBounds_one (b : UInt8) : EscapesInBounds [b] ↔ isSpecial b = false := by
  rw [EscapesInBounds, escapeWrites_one, ← xmlPiece_plain_iff]
  simp only [List.forall_mem_cons, List.not_mem_nil, Write.InBounds, List.length_singleton]
  constructor
  · rintro ⟨_, ⟨_, h⟩, _⟩
    omega
  · intro h
    exact ⟨⟨by omega, by omega⟩, ⟨by omega, by omega⟩, by simp⟩

theorem escapesInBounds_two (b c : UInt8) :
    EscapesInBounds [b, c] ↔ ¬ ((xmlPiece b).length = 6 ∧ (xmlPiece c).length = 6) := by
  obtain ⟨_, hb⟩ := xmlPiece_length b
  obtain ⟨_, hc⟩ := xmlPiece_length c
  rw [EscapesInBounds, escapeWrites_two]
  simp only [List.forall_mem_cons, List.not_mem_nil, Write.InBounds, List.length_singleton]
  constructor
  · rintro ⟨_, _, ⟨_, h⟩, _⟩ ⟨_, _⟩
    omega
  · intro h
    refine ⟨⟨by omega, by omega⟩, ⟨by omega, by omega⟩, ⟨by omega, ?_⟩, by simp⟩
    by_contra hn
    exact h ⟨by omega, by omega⟩

-- Where a text is written next to its block.
theorem escapesInBounds_iff {s : Text} (hs : (AsciiToXmlStr s).length < 2 ^ 30) :
    EscapesInBounds s ↔ ¬ Cramped s := by
  have hshort {s : Text} {j : ℕ} (h : (AsciiToXmlStr (s.take (s.length - 2))).length = 0)
      (hj : 2 ^ 30 ≤ (s.length + 1) * 2 ^ j)
      (hl : (s.length + 1) * 2 ^ j ≤ (AsciiToXmlStr (s.take (s.length - 2))).length + 6) : False := by
    omega
  match s, hs with
  | [], _             =>
    refine iff_of_true escapesInBounds_nil ?_
    intro h
    cases h with
    | long j hj hl => exact hshort rfl hj hl
  | [b], _            =>
    rw [escapesInBounds_one]
    constructor
    · intro h hc
      cases hc with
      | one hs       =>
        rw [h] at hs
        cases hs
      | long j hj hl => exact hshort rfl hj hl
    · intro h
      rw [Bool.eq_false_iff]
      exact fun hs => h (.one hs)
  | [b, c], _         =>
    rw [escapesInBounds_two]
    constructor
    · intro h hc
      cases hc with
      | two hb hc    => exact h ⟨hb, hc⟩
      | long j hj hl => exact hshort rfl hj hl
    · intro h ⟨hb, hc⟩
      exact h (.two hb hc)
  | b :: c :: d :: t, hs =>
    generalize hx : b :: c :: d :: t = s at *
    have hl : 3 ≤ s.length := by simp [← hx]
    have hlen : s.length ≤ (AsciiToXmlStr s).length := AsciiToXmlStr_length_le s
    have h0 : int (s.length + 1) = (((s.length + 1) * 2 ^ 0 : ℕ) : ℤ) := by
      rw [int_eq (by omega) (by omega)]
      simp
    rw [EscapesInBounds, AsciiToXmlStrWrites, h0]
    constructor
    · intro h hc
      cases hc with
      | one _        => simp at hl
      | two _ _      => simp at hl
      | long j hj hj' =>
        have ⟨w, hw, hn⟩ := @escapeWrites_outside (s.length + 1) 0 j 0 s (by omega) (.inr ⟨rfl, by omega⟩)
          (Nat.zero_le _) (by omega) (by omega) hj (by omega)
        exact hn (h w hw)
    · intro h
      apply @escapeWrites_inBounds (s.length + 1) 0 0 s (by omega) (.inr ⟨rfl, by omega⟩) (by omega) (by omega)
      intro j _ hj
      by_contra hn
      exact h (.long j hj (by omega))

theorem escapesInBounds_iff_amp : EscapesInBounds (bytes "a&b") ↔ ¬ Cramped (bytes "a&b") :=
  escapesInBounds_iff (by decide)

theorem not_escapesInBounds_quot :
    ¬ ∀ s : Text, 0 ∉ s → (AsciiToXmlStr s).length < 2 ^ 30 → EscapesInBounds s := by
  intro h
  have hq := (escapesInBounds_one 34).mp (h [34] (by decide) (by decide))
  cases hq

end Sfcc
