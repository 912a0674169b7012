import Mathlib.Data.List.Induction
import Sfcc.Cmpi.DateTime
import Sfcc.Theorems.Xml.Numbers

-- What the texts of dates and intervals stand for, and what they are converted to.
namespace Sfcc

-- Numbers with leading zeros.

section

variable {w n m i j k : ℕ} {t ds a b c : Text}

theorem decimal_lt_ten (h : n < 10) : decimal n = [n.toUInt8 + 48] := by
  rw [decimal]
  by_cases hz : n = 0
  · rw [if_pos hz, hz]
    rfl
  · rw [if_neg hz, Nat.digits_of_lt 10 n hz h]
    rfl

theorem decimal_ten_le (h : 10 ≤ n) : decimal n = decimal (n / 10) ++ [(n % 10).toUInt8 + 48] := by
  rw [decimal, decimal, if_neg (by omega), if_neg (by omega), Nat.digits_def' (by omega) (by omega),
    List.reverse_cons, List.map_append]
  rfl

-- The last digit and the ones before it.
theorem padded_succ (hw : 0 < w) (n : ℕ) : padded (w + 1) n = padded w (n / 10) ++ [(n % 10).toUInt8 + 48] := by
  by_cases h : n < 10
  · have hd : n / 10 = 0 := by omega
    have hm : n % 10 = n := by omega
    have hz : List.replicate (w - 1) (48 : UInt8) ++ [48] = List.replicate w 48 := by
      rw [← List.replicate_succ', Nat.sub_add_cancel hw]
    rw [padded, padded, hd, hm, decimal_lt_ten h, decimal_lt_ten (by omega : 0 < 10)]
    exact congrArg (· ++ [n.toUInt8 + 48]) hz.symm
  · rw [padded, padded, decimal_ten_le (by omega), List.length_append, List.length_singleton,
      Nat.add_sub_add_right, List.append_assoc]

theorem padded_one (h : n < 10) : padded 1 n = [n.toUInt8 + 48] := by
  rw [padded, decimal_lt_ten h]
  rfl

theorem padded_length (hw : 0 < w) (h : n < 10 ^ w) : (padded w n).length = w := by
  induction w generalizing n with
  | zero      => omega
  | succ w hi =>
    by_cases hz : w = 0
    · subst hz
      rw [padded_one h]
      rfl
    · rw [padded_succ (by omega), List.length_append, List.length_singleton,
        hi (by omega) (Nat.div_lt_of_lt_mul (by rw [← Nat.pow_succ']; exact h))]

theorem padded_isdigit (w n : ℕ) : ∀ b ∈ padded w n, isdigit b := by
  intro b hb
  cases List.mem_append.mp hb with
  | inl hb =>
    rw [List.eq_of_mem_replicate hb]
    rfl
  | inr hb => exact decimal_isdigit n b hb

theorem digits_padded (w n : ℕ) : digits (padded w n) = n := by
  have hz (k : ℕ) : digits (List.replicate k 48 ++ decimal n) = digits (decimal n) := by
    induction k with
    | zero      => rfl
    | succ k hi => exact hi
  rw [padded, hz, digits_decimal]

theorem digits_concat (ds : Text) (b : UInt8) : digits (ds ++ [b]) = 10 * digits ds + (b.toNat - 48) := by
  rw [digits, List.foldl_append]
  rfl

theorem isdigit_toNat {b : UInt8} (h : isdigit b) : 48 ≤ b.toNat ∧ b.toNat ≤ 57 := by
  simp only [isdigit, UInt8.le_iff_toNat_le, decide_eq_true_eq] at h
  simpa using h

theorem digits_lt (hd : ∀ b ∈ ds, isdigit b) : digits ds < 10 ^ ds.length := by
  induction ds using List.reverseRecOn with
  | nil                 => decide
  | append_singleton ds b hi =>
    have ⟨hds, hb⟩ := List.forall_mem_append.mp hd
    have hb := isdigit_toNat (hb b (List.mem_singleton_self b))
    have hi := hi hds
    rw [digits_concat, List.length_append, List.length_singleton, Nat.pow_succ]
    omega

-- Digits are the number they stand for, with zeros before it.
theorem padded_digits (hn : ds ≠ []) (hd : ∀ b ∈ ds, isdigit b) : padded ds.length (digits ds) = ds := by
  induction ds using List.reverseRecOn with
  | nil                      => exact absurd rfl hn
  | append_singleton ds b hi =>
    have ⟨hds, hb⟩ := List.forall_mem_append.mp hd
    have hb := isdigit_toNat (hb b (List.mem_singleton_self b))
    have hlast : (b.toNat - 48).toUInt8 + 48 = b := by
      apply UInt8.toNat.inj
      rw [digit_toNat (by omega)]
      omega
    rw [List.length_append, List.length_singleton, digits_concat]
    by_cases hz : ds = []
    · subst hz
      have h0 : 10 * digits [] + (b.toNat - 48) = b.toNat - 48 := by
        have h0 : digits [] = 0 := rfl
        omega
      rw [h0, List.length_nil, padded_one (by omega), hlast]
      rfl
    · have hdiv : (10 * digits ds + (b.toNat - 48)) / 10 = digits ds := by omega
      have hmod : (10 * digits ds + (b.toNat - 48)) % 10 = b.toNat - 48 := by omega
      rw [padded_succ (List.length_pos_iff.mpr hz), hdiv, hmod, hi hz hds, hlast]

-- Pieces.

theorem piece_first (h : a.length = j) : piece (a ++ t) 0 j = a := by
  rw [piece, ← h, List.take_left]
  rfl

theorem piece_skip (h : a.length = k) (i j : ℕ) : piece (a ++ t) (k + i) (k + j) = piece t i j := by
  rw [piece, piece, ← h, List.take_length_add_append, List.drop_length_add_append]

theorem piece_eq (t : Text) (i j : ℕ) : piece t i j = (t.drop i).take (j - i) := by
  rw [piece, List.drop_take]

theorem piece_join (hij : i ≤ j) (hjk : j ≤ k) : piece t i j ++ piece t j k = piece t i k := by
  have hk : k - i = j - i + (k - j) := by omega
  have hj : i + (j - i) = j := by omega
  rw [piece_eq, piece_eq, piece_eq, hk, List.take_add, List.drop_drop, hj]

theorem piece_length (hj : j ≤ t.length) : (piece t i j).length = j - i := by
  rw [piece, List.length_drop, List.length_take, Nat.min_eq_left hj]

theorem mem_piece {b : UInt8} : b ∈ piece t i j ↔ ∃ k, i ≤ k ∧ k < j ∧ t[k]? = some b := by
  rw [List.mem_iff_getElem?, piece]
  simp only [List.getElem?_drop, List.getElem?_take]
  constructor
  · intro h
    have ⟨n, hn⟩ := h
    split at hn
    case isTrue hlt => exact ⟨i + n, by omega, hlt, hn⟩
    case isFalse    => cases hn
  · intro h
    have ⟨k, hi, hj, hk⟩ := h
    exact ⟨k - i, by rw [Nat.add_sub_cancel' hi, if_pos hj, hk]⟩

theorem piece_one_iff {b : UInt8} : piece t i (i + 1) = [b] ↔ t[i]? = some b := by
  rw [piece_eq, Nat.add_sub_cancel_left]
  cases hi : t[i]? with
  | none   =>
    rw [List.drop_eq_nil_of_le (List.getElem?_eq_none_iff.mp hi)]
    simp
  | some c =>
    have ⟨hlt, hc⟩ := List.getElem?_eq_some_iff.mp hi
    rw [List.drop_eq_getElem_cons hlt, hc]
    simp

theorem strtoull10_digits (hn : ds ≠ []) (hd : ∀ b ∈ ds, isdigit b) (hl : ds.length ≤ 19) :
    strtoull10 ds = .ofNat (digits ds) := by
  have hlt : digits ds < 2 ^ 64 := by
    have hp := Nat.pow_le_pow_right (n := 10) (by decide) hl
    have hlt := digits_lt hd
    omega
  rw [strtoull10, scanNumber_digits hn hd, Option.elim_some, strtoull_toNat hlt]

theorem atoi_digits (hn : ds ≠ []) (hd : ∀ b ∈ ds, isdigit b) (hl : ds.length ≤ 9) : atoi ds = digits ds := by
  have hlt : digits ds < 2 ^ 31 := by
    have hp := Nat.pow_le_pow_right (n := 10) (by decide) hl
    have hlt := digits_lt hd
    omega
  have hs : strtoll false (digits ds) = digits ds := by
    have h : strtoll false (digits ds) = min (2 ^ 63 - 1) (digits ds : ℤ) := rfl
    omega
  rw [atoi, scanNumber_digits hn hd, Option.elim_some, hs, Int32.toInt_ofInt_of_le (by omega) (by omega)]

end

-- A text that has digits where a date or an interval has them.
structure Stamped (t : Text) : Prop where
  length : t.length = 25
  point  : t[14]? = some 46
  before : ∀ b ∈ piece t 0 14, isdigit b
  micros : ∀ b ∈ piece t 15 21, isdigit b
  utc    : ∀ b ∈ piece t 22 25, isdigit b

-- The seconds of the time of day.
def clockSeconds (t : Text) : ℕ :=
  digits (piece t 12 14) + digits (piece t 10 12) * 60 + digits (piece t 8 10) * 60 * 60

namespace Stamped

variable {t : Text} {i j : ℕ}

theorem isdigit_piece (h : Stamped t) (hp : j ≤ 14 ∨ 15 ≤ i ∧ j ≤ 21) : ∀ b ∈ piece t i j, isdigit b := by
  intro b hb
  have ⟨k, hi, hj, hk⟩ := mem_piece.mp hb
  cases hp with
  | inl hp => exact h.before b (mem_piece.mpr ⟨k, by omega, by omega, hk⟩)
  | inr hp => exact h.micros b (mem_piece.mpr ⟨k, by omega, by omega, hk⟩)

theorem piece_ne_nil (h : Stamped t) (hi : i < j) (hj : j ≤ 25) : piece t i j ≠ [] := by
  apply List.length_pos_iff.mp
  rw [piece_length (by rw [h.length]; exact hj)]
  omega

theorem number (h : Stamped t) (hi : i < j) (hj : j ≤ 14 ∨ 15 ≤ i ∧ j ≤ 21) :
    strtoull10 (piece t i j) = .ofNat (digits (piece t i j)) := by
  apply strtoull10_digits (h.piece_ne_nil hi (by omega)) (h.isdigit_piece (by omega))
  rw [piece_length (by rw [h.length]; omega)]
  omega

theorem field (h : Stamped t) (hi : i < j) (hj : j ≤ 8) : atoi (piece t i j) = digits (piece t i j) := by
  apply atoi_digits (h.piece_ne_nil hi (by omega)) (h.isdigit_piece (by omega))
  rw [piece_length (by rw [h.length]; omega)]
  omega

theorem not_short (h : Stamped t) : ¬ t.length < 21 := by
  rw [h.length]
  decide

theorem chars2bin_interval (h : Stamped t) (zone : TimeZone) (hs : t[21]? = some 58) : chars2bin zone t =
    .ok (.ofNat (digits (piece t 15 21) + (clockSeconds t + digits (piece t 0 8) * 60 * 60 * 24) * 1000000)) := by
  rw [chars2bin, if_neg h.not_short]
  simp only
  rw [if_pos hs, h.number (by decide) (by decide), h.number (by decide) (by decide), h.number (by decide) (by decide),
    h.number (by decide) (by decide), h.number (by decide) (by decide)]
  simp only [clockSeconds, UInt64.ofNat_add, UInt64.ofNat_mul]
  rfl

theorem chars2bin_absolute (h : Stamped t) (zone : TimeZone) (hs : t[21]? ≠ some 58) : chars2bin zone t =
    .ok (.ofNat (digits (piece t 15 21) + clockSeconds t * 1000000) + .ofInt (zone.mktime {
      gmtoff := zone.timezone
      isdst  := zone.daylight
      mday   := digits (piece t 6 8)
      mon    := digits (piece t 4 6) - 1
      year   := digits (piece t 0 4) - 1900 }) * 1000000) := by
  rw [chars2bin, if_neg h.not_short]
  simp only
  rw [if_neg hs, h.number (by decide) (by decide), h.number (by decide) (by decide), h.number (by decide) (by decide),
    h.number (by decide) (by decide), h.field (by decide) (by decide), h.field (by decide) (by decide),
    h.field (by decide) (by decide)]
  simp only [clockSeconds, UInt64.ofNat_add, UInt64.ofNat_mul]
  rfl

end Stamped

-- What is printed of a date or an interval: its days, as eight digits, the time of day, and what
-- follows the microseconds.
structure Stamp where
  head        : Text
  hour        : ℕ
  minute      : ℕ
  second      : ℕ
  micro       : ℕ
  sign        : UInt8
  utc         : Text
  head_length : head.length = 8
  head_digit  : ∀ b ∈ head, isdigit b
  hour_lt     : hour < 24
  minute_lt   : minute < 60
  second_lt   : second < 60
  micro_lt    : micro < 1000000
  utc_length  : utc.length = 3
  utc_digit   : ∀ b ∈ utc, isdigit b

namespace Stamp

variable (s : Stamp)

def text : Text :=
  s.head ++ (padded 2 s.hour ++ (padded 2 s.minute ++ (padded 2 s.second ++ ([46] ++ (padded 6 s.micro ++
    ([s.sign] ++ s.utc))))))

theorem lengths : s.head.length = 8 ∧ (padded 2 s.hour).length = 2 ∧ (padded 2 s.minute).length = 2 ∧
    (padded 2 s.second).length = 2 ∧ (padded 6 s.micro).length = 6 ∧ s.utc.length = 3 := by
  have hh := s.hour_lt
  have hm := s.minute_lt
  have hs := s.second_lt
  exact ⟨s.head_length, padded_length (by decide) (by omega), padded_length (by decide) (by omega),
    padded_length (by decide) (by omega), padded_length (by decide) s.micro_lt, s.utc_length⟩

theorem text_length : s.text.length = 25 := by
  have ⟨h1, h2, h3, h4, h5, h6⟩ := s.lengths
  simp only [text, List.length_append, List.length_singleton]
  omega

-- The pieces of the text.
structure Pieces (t : Text) : Prop where
  head   : piece t 0 8 = s.head
  hour   : piece t 8 10 = padded 2 s.hour
  minute : piece t 10 12 = padded 2 s.minute
  second : piece t 12 14 = padded 2 s.second
  point  : piece t 14 15 = [46]
  micro  : piece t 15 21 = padded 6 s.micro
  sign   : piece t 21 22 = [s.sign]
  utc    : piece t 22 25 = s.utc

theorem pieces : s.Pieces s.text := by
  have ⟨h1, h2, h3, h4, h5, h6⟩ := s.lengths
  have hhour {t : Text} (i j : ℕ) : piece (s.head ++ t) (8 + i) (8 + j) = piece t i j := piece_skip h1 i j
  have hminute {t : Text} (i j : ℕ) : piece (s.head ++ (padded 2 s.hour ++ t)) (10 + i) (10 + j) = piece t i j := by
    rw [← piece_skip h2 i j, ← hhour (2 + i) (2 + j), ← Nat.add_assoc, ← Nat.add_assoc]
  have hsecond {t : Text} (i j : ℕ) :
      piece (s.head ++ (padded 2 s.hour ++ (padded 2 s.minute ++ t))) (12 + i) (12 + j) = piece t i j := by
    rw [← piece_skip h3 i j, ← hminute (2 + i) (2 + j), ← Nat.add_assoc, ← Nat.add_assoc]
  have hpoint {t : Text} (i j : ℕ) : piece (s.head ++ (padded 2 s.hour ++ (padded 2 s.minute ++
      (padded 2 s.second ++ t)))) (14 + i) (14 + j) = piece t i j := by
    rw [← piece_skip h4 i j, ← hsecond (2 + i) (2 + j), ← Nat.add_assoc, ← Nat.add_assoc]
  have hsign {t : Text} : piece ([46] ++ (padded 6 s.micro ++ t)) 7 8 = piece t 0 1 :=
    (piece_skip (a := [46]) rfl 6 7).trans (piece_skip h5 0 1)
  have hutc : piece ([46] ++ (padded 6 s.micro ++ ([s.sign] ++ s.utc))) 8 11 = piece s.utc 0 3 :=
    (piece_skip (a := [46]) rfl 7 10).trans ((piece_skip h5 1 4).trans (piece_skip (a := [s.sign]) rfl 0 3))
  exact {
    head   := piece_first h1
    hour   := (hhour 0 2).trans (piece_first h2)
    minute := (hminute 0 2).trans (piece_first h3)
    second := (hsecond 0 2).trans (piece_first h4)
    point  := (hpoint 0 1).trans (piece_first rfl)
    micro  := (hpoint 1 7).trans ((piece_skip (a := [46]) rfl 0 6).trans (piece_first h5))
    sign   := (hpoint 7 8).trans (hsign.trans (piece_first rfl))
    utc    := (hpoint 8 11).trans (hutc.trans (List.take_of_length_le (Nat.le_of_eq h6))) }

theorem text_sign : s.text[21]? = some s.sign :=
  piece_one_iff.mp s.pieces.sign

theorem stamped : Stamped s.text where
  length := s.text_length
  point  := piece_one_iff.mp s.pieces.point
  before := by
    have hp := s.pieces
    rw [← @piece_join 0 8 14 s.text (by decide) (by decide), ← @piece_join 8 10 14 s.text (by decide) (by decide),
      ← @piece_join 10 12 14 s.text (by decide) (by decide), hp.head, hp.hour, hp.minute, hp.second]
    simp only [List.forall_mem_append]
    exact ⟨s.head_digit, padded_isdigit 2 _, padded_isdigit 2 _, padded_isdigit 2 _⟩
  micros := by
    rw [s.pieces.micro]
    exact padded_isdigit 6 _
  utc    := by
    rw [s.pieces.utc]
    exact s.utc_digit

theorem clockSeconds_text : clockSeconds s.text = s.second + s.minute * 60 + s.hour * 60 * 60 := by
  have hp := s.pieces
  rw [clockSeconds, hp.second, hp.minute, hp.hour, digits_padded, digits_padded, digits_padded]

theorem micro_text : digits (piece s.text 15 21) = s.micro := by
  rw [s.pieces.micro, digits_padded]

end Stamp

namespace Stamped

variable {t : Text} {i j : ℕ}

theorem padded_piece (h : Stamped t) (hi : i < j) (hj : j ≤ 14 ∨ 15 ≤ i ∧ j ≤ 21) :
    padded (j - i) (digits (piece t i j)) = piece t i j := by
  have hp := padded_digits (h.piece_ne_nil hi (by omega)) (h.isdigit_piece hj)
  rw [piece_length (by rw [h.length]; omega)] at hp
  exact hp

-- What a text stands for, if the time of day is one.
def stamp (h : Stamped t) (sign : UInt8) (hh : digits (piece t 8 10) < 24) (hm : digits (piece t 10 12) < 60)
    (hs : digits (piece t 12 14) < 60) : Stamp where
  head        := piece t 0 8
  hour        := digits (piece t 8 10)
  minute      := digits (piece t 10 12)
  second      := digits (piece t 12 14)
  micro       := digits (piece t 15 21)
  sign        := sign
  utc         := piece t 22 25
  head_length := piece_length (by rw [h.length]; decide)
  head_digit  := h.isdigit_piece (by decide)
  hour_lt     := hh
  minute_lt   := hm
  second_lt   := hs
  micro_lt    := by
    have hlt := digits_lt (h.isdigit_piece (i := 15) (j := 21) (by decide))
    rw [piece_length (by rw [h.length]; decide)] at hlt
    exact hlt
  utc_length  := piece_length (Nat.le_of_eq h.length.symm)
  utc_digit   := h.utc

theorem stamp_text (h : Stamped t) {sign : UInt8} (hsign : t[21]? = some sign) (hh : digits (piece t 8 10) < 24)
    (hm : digits (piece t 10 12) < 60) (hs : digits (piece t 12 14) < 60) : (h.stamp sign hh hm hs).text = t := by
  have h8 := h.padded_piece (i := 8) (j := 10) (by decide) (by decide)
  have h10 := h.padded_piece (i := 10) (j := 12) (by decide) (by decide)
  have h12 := h.padded_piece (i := 12) (j := 14) (by decide) (by decide)
  have h15 := h.padded_piece (i := 15) (j := 21) (by decide) (by decide)
  have h14 := piece_one_iff.mpr h.point
  have h21 := piece_one_iff.mpr hsign
  have hall : piece t 0 25 = t := by
    rw [piece, ← h.length, List.take_length]
    rfl
  simp only [stamp, Stamp.text]
  rw [h8, h10, h12, h15, ← h14, ← h21, piece_join (by decide) (by decide), piece_join (by decide) (by decide),
    piece_join (by decide) (by decide), piece_join (by decide) (by decide), piece_join (by decide) (by decide),
    piece_join (by decide) (by decide), piece_join (by decide) (by decide), hall]

end Stamped

-- Intervals.

-- The microseconds of 10 ^ 8 days.
def intervalLimit : ℕ :=
  10 ^ 8 * 86400 * 1000000

def intervalStamp (n : ℕ) (h : n < intervalLimit) : Stamp where
  head        := padded 8 (n / 1000000 / 60 / 60 / 24)
  hour        := n / 1000000 / 60 / 60 % 24
  minute      := n / 1000000 / 60 % 60
  second      := n / 1000000 % 60
  micro       := n % 1000000
  sign        := 58
  utc         := [48, 48, 48]
  head_length := padded_length (by decide) (by rw [intervalLimit] at h; omega)
  head_digit  := padded_isdigit 8 _
  hour_lt     := Nat.mod_lt _ (by decide)
  minute_lt   := Nat.mod_lt _ (by decide)
  second_lt   := Nat.mod_lt _ (by decide)
  micro_lt    := Nat.mod_lt _ (by decide)
  utc_length  := rfl
  utc_digit   := by decide

theorem Stamp.strTime_text (s : Stamp) : strTime s.text = .ok s.text := by
  rw [strTime, s.text_length]
  rfl

theorem bin2chars_interval (zone : TimeZone) {m : UInt64} (h : m.toNat < intervalLimit) :
    bin2chars zone m true = .ok (intervalStamp m.toNat h).text := by
  rw [← Stamp.strTime_text, bin2chars, if_pos rfl]
  simp only [UInt64.toNat_div, UInt64.toNat_mod, intervalStamp, Stamp.text, List.append_assoc]
  rfl

theorem chars2bin_intervalStamp (zone : TimeZone) {n : ℕ} (h : n < intervalLimit) :
    chars2bin zone (intervalStamp n h).text = .ok (.ofNat n) := by
  let s := intervalStamp n h
  have hhead : digits (piece s.text 0 8) = n / 1000000 / 60 / 60 / 24 := by
    rw [s.pieces.head]
    exact digits_padded 8 _
  rw [s.stamped.chars2bin_interval zone s.text_sign, hhead, s.micro_text, s.clockSeconds_text]
  apply congrArg Except.ok
  apply congrArg UInt64.ofNat
  simp only [s, intervalStamp]
  omega

-- The texts of intervals.
structure IntervalText (t : Text) : Prop extends Stamped t where
  sign   : t[21]? = some 58
  zone   : piece t 22 25 = [48, 48, 48]
  hour   : digits (piece t 8 10) < 24
  minute : digits (piece t 10 12) < 60
  second : digits (piece t 12 14) < 60

-- The microseconds of an interval.
def intervalMicros (t : Text) : ℕ :=
  digits (piece t 15 21) + (clockSeconds t + digits (piece t 0 8) * 60 * 60 * 24) * 1000000

theorem IntervalText.micros_lt {t : Text} (h : IntervalText t) : intervalMicros t < intervalLimit := by
  have hd := digits_lt (h.isdigit_piece (i := 0) (j := 8) (by decide))
  have hu := digits_lt (h.isdigit_piece (i := 15) (j := 21) (by decide))
  rw [piece_length (by rw [h.length]; decide)] at hd hu
  have hh := h.hour
  have hm := h.minute
  have hs := h.second
  rw [intervalMicros, clockSeconds, intervalLimit]
  omega

-- What is printed of the microseconds of an interval is its text.
theorem IntervalText.stamp_eq {t : Text} (h : IntervalText t) : (intervalStamp (intervalMicros t) h.micros_lt).text = t := by
  have hd := h.padded_piece (i := 0) (j := 8) (by decide) (by decide)
  have hu := digits_lt (h.isdigit_piece (i := 15) (j := 21) (by decide))
  rw [piece_length (by rw [h.length]; decide)] at hu
  have hh := h.hour
  have hm := h.minute
  have hs := h.second
  have hdays : intervalMicros t / 1000000 / 60 / 60 / 24 = digits (piece t 0 8) := by
    rw [intervalMicros, clockSeconds]
    omega
  have hhour : intervalMicros t / 1000000 / 60 / 60 % 24 = digits (piece t 8 10) := by
    rw [intervalMicros, clockSeconds]
    omega
  have hminute : intervalMicros t / 1000000 / 60 % 60 = digits (piece t 10 12) := by
    rw [intervalMicros, clockSeconds]
    omega
  have hsecond : intervalMicros t / 1000000 % 60 = digits (piece t 12 14) := by
    rw [intervalMicros, clockSeconds]
    omega
  have hmicro : intervalMicros t % 1000000 = digits (piece t 15 21) := by
    rw [intervalMicros, clockSeconds]
    omega
  refine Eq.trans ?_ (h.stamp_text h.sign hh hm hs)
  simp only [Stamp.text, intervalStamp, Stamped.stamp, hdays, hhour, hminute, hsecond, hmicro, h.zone]
  exact congrArg (· ++ _) hd

-- Dates.

theorem decimal_eq_padded {n : ℕ} (hl : 1000 ≤ n) (hu : n < 10000) : decimal n = padded 4 n := by
  have hlen : (decimal n).length = 4 := by
    rw [decimal_ten_le (by omega), decimal_ten_le (by omega), decimal_ten_le (by omega), decimal_lt_ten (by omega)]
    rfl
  rw [padded, hlen]
  rfl

theorem piece_head {a t : Text} {i j : ℕ} (h : j ≤ a.length) : piece (a ++ t) i j = piece a i j := by
  rw [piece, piece, List.take_append_of_le_length h]

-- The date in a text.
def dateText (d : Calendar.Date) : Text :=
  padded 4 d.year.toNat ++ (padded 2 (d.month + 1) ++ padded 2 d.day)

section

variable {d : Calendar.Date}

theorem date_day_lt (d : Calendar.Date) : d.day < 100 := by
  have hle := Calendar.monthLength_le (Calendar.isLeap d.year) d.month d.month_lt
  have hd := d.day_le
  omega

theorem dateText_lengths (hy : d.year < 10000) : (padded 4 d.year.toNat).length = 4 ∧
    (padded 2 (d.month + 1)).length = 2 ∧ (padded 2 d.day).length = 2 := by
  have hm := d.month_lt
  exact ⟨padded_length (by decide) (by omega), padded_length (by decide) (by omega),
    padded_length (by decide) (date_day_lt d)⟩

theorem dateText_length (hy : d.year < 10000) : (dateText d).length = 8 := by
  have ⟨h1, h2, h3⟩ := dateText_lengths hy
  rw [dateText, List.length_append, List.length_append, h1, h2, h3]

theorem dateText_isdigit (d : Calendar.Date) : ∀ b ∈ dateText d, isdigit b := by
  simp only [dateText, List.forall_mem_append]
  exact ⟨padded_isdigit 4 _, padded_isdigit 2 _, padded_isdigit 2 _⟩

-- The numbers of the date.
theorem dateText_numbers (hy : d.year < 10000) : digits (piece (dateText d) 0 4) = d.year.toNat ∧
    digits (piece (dateText d) 4 6) = d.month + 1 ∧ digits (piece (dateText d) 6 8) = d.day := by
  have ⟨h1, h2, h3⟩ := dateText_lengths hy
  have hyear : piece (dateText d) 0 4 = padded 4 d.year.toNat := piece_first h1
  have hmonth : piece (dateText d) 4 6 = padded 2 (d.month + 1) := (piece_skip h1 0 2).trans (piece_first h2)
  have hday : piece (dateText d) 6 8 = padded 2 d.day := by
    refine (piece_skip h1 2 4).trans ((piece_skip h2 0 2).trans ?_)
    exact List.take_of_length_le (Nat.le_of_eq h3)
  rw [hyear, hmonth, hday, digits_padded, digits_padded, digits_padded]
  exact ⟨rfl, rfl, rfl⟩

-- What `mktime` makes of a date.
theorem timegm_date {gmtoff isdst : ℤ} (d : Calendar.Date) :
    timegm { gmtoff, isdst, mday := d.day, mon := d.month, year := d.year - 1900 } = 86400 * (d.number - epoch) := by
  have hm := d.month_lt
  have hy : 1900 + (d.year - 1900) + (d.month : ℤ) / 12 = d.year := by omega
  have hmonth : ((d.month : ℤ) % 12).toNat = d.month := by omega
  rw [timegm]
  simp only
  rw [hy, hmonth, Calendar.Date.number]
  omega

theorem ofInt_natCast (n : ℕ) : UInt64.ofInt n = .ofNat n := by
  apply UInt64.toNat.inj
  rw [UInt64.ofInt, UInt64.toNat_ofNat', UInt64.toNat_ofNat']
  omega

theorem toNat_ofInt {x : ℤ} (hl : 0 ≤ x) (hu : x < 2 ^ 64) : ((UInt64.ofInt x).toNat : ℤ) = x := by
  rw [UInt64.ofInt, UInt64.toNat_ofNat']
  omega

-- The text has the date `d`.
structure Dated (t : Text) (d : Calendar.Date) : Prop where
  year  : (digits (piece t 0 4) : ℤ) = d.year
  month : digits (piece t 4 6) = d.month + 1
  day   : digits (piece t 6 8) = d.day

-- The microseconds since 1970 that a date and a time of day come to without an offset.
def localMicros (t : Text) (d : Calendar.Date) : ℤ :=
  (86400 * (d.number - epoch) + clockSeconds t) * 1000000 + digits (piece t 15 21)

-- The offset of the text does not matter.
theorem Stamped.chars2bin_dated {t : Text} (h : Stamped t) (hd : Dated t d) (hs : t[21]? ≠ some 58) :
    chars2bin .utc t = .ok (.ofInt (localMicros t d)) := by
  have hmon : ((d.month + 1 : ℕ) : ℤ) - 1 = d.month := by omega
  rw [h.chars2bin_absolute .utc hs, hd.year, hd.month, hd.day, hmon]
  apply congrArg Except.ok
  rw [show TimeZone.utc.mktime = timegm from rfl, timegm_date, ← ofInt_natCast,
    show (1000000 : UInt64) = .ofInt 1000000 from rfl, ← UInt64.ofInt_mul, ← UInt64.ofInt_add, localMicros]
  congr 1
  push_cast
  ring

def absoluteLimit : ℤ :=
  (Calendar.yearStart 10000 - epoch) * 86400 * 1000000

theorem year_bounds {n : ℕ} (h : (n : ℤ) < absoluteLimit) :
    1970 ≤ (Calendar.Date.ofNumber (epoch + (n / 1000000 : ℕ) / 86400)).year ∧
      (Calendar.Date.ofNumber (epoch + (n / 1000000 : ℕ) / 86400)).year < 10000 := by
  apply Calendar.yearOf_bounds
  · rw [epoch]
    omega
  · rw [absoluteLimit] at h
    omega

def absoluteStamp (n : ℕ) (h : (n : ℤ) < absoluteLimit) : Stamp where
  head        := dateText (.ofNumber (epoch + (n / 1000000 : ℕ) / 86400))
  hour        := n / 1000000 % 86400 / 3600
  minute      := n / 1000000 % 86400 / 60 % 60
  second      := n / 1000000 % 86400 % 60
  micro       := n % 1000000
  sign        := 43
  utc         := [48, 48, 48]
  head_length := dateText_length (year_bounds h).2
  head_digit  := dateText_isdigit _
  hour_lt     := by omega
  minute_lt   := Nat.mod_lt _ (by decide)
  second_lt   := Nat.mod_lt _ (by decide)
  micro_lt    := Nat.mod_lt _ (by decide)
  utc_length  := rfl
  utc_digit   := by decide

theorem strftime_gmtime {n : ℕ} (h : (n : ℤ) < absoluteLimit) : strftime (gmtime (n / 1000000 : ℕ)) =
    dateText (.ofNumber (epoch + (n / 1000000 : ℕ) / 86400)) ++ (padded 2 (n / 1000000 % 86400 / 3600) ++
      (padded 2 (n / 1000000 % 86400 / 60 % 60) ++ (padded 2 (n / 1000000 % 86400 % 60) ++ [46]))) := by
  have ⟨hl, hu⟩ := year_bounds h
  have hyear : ∀ y : ℤ, 1970 ≤ y → y < 10000 → signedDecimal (1900 + (y - 1900)) = padded 4 y.toNat := by
    intro y hl hu
    have hy : 1900 + (y - 1900) = y := by omega
    have habs : y.natAbs = y.toNat := by omega
    rw [hy, signedDecimal, if_neg (by omega), habs, decimal_eq_padded (by omega) (by omega)]
  have hhour : (((n / 1000000 : ℕ) : ℤ) % 86400 / 3600).toNat = n / 1000000 % 86400 / 3600 := by omega
  have hminute : (((n / 1000000 : ℕ) : ℤ) % 86400 / 60 % 60).toNat = n / 1000000 % 86400 / 60 % 60 := by omega
  have hsecond : (((n / 1000000 : ℕ) : ℤ) % 86400 % 60).toNat = n / 1000000 % 86400 % 60 := by omega
  rw [strftime, gmtime]
  simp only
  rw [hyear _ hl hu, hhour, hminute, hsecond, dateText]
  simp only [List.append_assoc]
  rfl

theorem bin2chars_absolute {m : UInt64} (h : (m.toNat : ℤ) < absoluteLimit) :
    bin2chars .utc m false = .ok (absoluteStamp m.toNat h).text := by
  have hsecs : (m / 1000000).toNat = m.toNat / 1000000 := UInt64.toNat_div m 1000000
  have hmicro : (m % 1000000).toNat = m.toNat % 1000000 := UInt64.toNat_mod m 1000000
  have hoffset : signedPadded 0 = 43 :: [48, 48, 48] := by decide
  rw [← Stamp.strTime_text, bin2chars, if_neg (by decide)]
  show strTime (strftime (gmtime (m / 1000000).toNat) ++ padded 6 (m % 1000000).toNat ++ signedPadded 0) = _
  rw [hsecs, hmicro, hoffset, strftime_gmtime h]
  simp only [absoluteStamp, Stamp.text, List.append_assoc]
  rfl

theorem absoluteStamp_dated {n : ℕ} (h : (n : ℤ) < absoluteLimit) :
    Dated (absoluteStamp n h).text (.ofNumber (epoch + (n / 1000000 : ℕ) / 86400)) := by
  have ⟨hl, hu⟩ := year_bounds h
  have ⟨hyear, hmonth, hday⟩ := dateText_numbers hu
  have hlen := (absoluteStamp n h).head_length
  have hp {i j : ℕ} (hj : j ≤ 8) : piece (absoluteStamp n h).text i j =
      piece (dateText (.ofNumber (epoch + (n / 1000000 : ℕ) / 86400))) i j :=
    piece_head (by rw [hlen]; exact hj)
  constructor
  · rw [hp (by decide), hyear]
    omega
  · rw [hp (by decide), hmonth]
  · rw [hp (by decide), hday]

theorem chars2bin_absoluteStamp {n : ℕ} (h : (n : ℤ) < absoluteLimit) :
    chars2bin .utc (absoluteStamp n h).text = .ok (.ofNat n) := by
  let s := absoluteStamp n h
  have hsign : s.text[21]? ≠ some 58 := by
    have h43 : (43 : UInt8) ≠ 58 := by decide
    rw [s.text_sign]
    exact fun he => h43 (Option.some.inj he)
  rw [s.stamped.chars2bin_dated (absoluteStamp_dated h) hsign, ← ofInt_natCast, localMicros,
    Calendar.Date.number_ofNumber, s.micro_text, s.clockSeconds_text]
  apply congrArg Except.ok
  apply congrArg UInt64.ofInt
  simp only [s, absoluteStamp]
  omega

-- What is to be shown of the conversions.
structure Inverse : Prop where
  interval : ∀ (zone : TimeZone) (m : UInt64), m.toNat < 10 ^ 8 * 86400 * 1000000 →
    ∃ dt, newCMPIDateTimeFromBinary zone m true = .ok dt ∧ DateTime.isInterval dt ∧
      DateTime.getBinaryFormat zone dt = .ok m
  text     : ∀ (zone : TimeZone) (t : Text), IntervalText t →
    ∃ dt m, newCMPIDateTimeFromChars (some t) = some dt ∧ DateTime.getBinaryFormat zone dt = .ok m ∧
      newCMPIDateTimeFromBinary zone m true = .ok t
  absolute : ∀ m : UInt64, (m.toNat : ℤ) < (Calendar.yearStart 10000 - Calendar.yearStart 1970) * 86400 * 1000000 →
    ∃ dt, newCMPIDateTimeFromBinary .utc m false = .ok dt ∧ DateTime.isInterval dt = false ∧
      DateTime.getBinaryFormat .utc dt = .ok m

-- Microseconds and texts are converted to each other and back.
theorem datetime_inverse : Inverse where
  interval := by
    intro zone m h
    have hb := chars2bin_intervalStamp zone h
    rw [UInt64.ofNat_toNat] at hb
    have hi : DateTime.isInterval (intervalStamp m.toNat h).text := decide_eq_true (Stamp.text_sign _)
    exact ⟨_, bin2chars_interval zone h, hi, hb⟩
  text     := by
    intro zone t h
    have hlt := h.micros_lt
    have hm : (UInt64.ofNat (intervalMicros t)).toNat = intervalMicros t := by
      rw [intervalLimit] at hlt
      rw [UInt64.toNat_ofNat']
      omega
    have hread : newCMPIDateTimeFromChars (some t) = some t := by
      rw [newCMPIDateTimeFromChars, Option.filter_some, if_pos]
      simp only [h.length, h.sign, Option.any_some, decide_eq_true_eq, true_and]
      decide
    have hprint := bin2chars_interval zone (m := .ofNat (intervalMicros t)) (hm.symm ▸ hlt)
    simp only [hm] at hprint
    exact ⟨t, _, hread, h.chars2bin_interval zone h.sign, hprint.trans (congrArg _ h.stamp_eq)⟩
  absolute := by
    intro m h
    have hb := chars2bin_absoluteStamp h
    rw [UInt64.ofNat_toNat] at hb
    have hi : DateTime.isInterval (absoluteStamp m.toNat h).text = false := by
      rw [DateTime.isInterval, Stamp.text_sign]
      rfl
    exact ⟨_, bin2chars_absolute h, hi, hb⟩

-- The texts of dates, with the date and the offset to the local time they stand for.
structure AbsoluteText (t : Text) (d : Calendar.Date) (offset : ℤ) : Prop extends Stamped t, Dated t d where
  year_ge : 1970 ≤ d.year
  hour    : digits (piece t 8 10) < 24
  minute  : digits (piece t 10 12) < 60
  second  : digits (piece t 12 14) < 60
  sign    : t[21]? = some 43 ∧ offset = digits (piece t 22 25) ∨ t[21]? = some 45 ∧ offset = -(digits (piece t 22 25))

-- The microseconds from 1970 to the instant that a text denotes.
def instant (t : Text) (d : Calendar.Date) (offset : ℤ) : ℤ :=
  localMicros t d - offset * 60 * 1000000

variable {t : Text} {offset : ℤ}

theorem AbsoluteText.micros_bounds (h : AbsoluteText t d offset) : 0 ≤ localMicros t d ∧ localMicros t d < 2 ^ 64 := by
  have hy := digits_lt (h.isdigit_piece (i := 0) (j := 4) (by decide))
  have hu := digits_lt (h.isdigit_piece (i := 15) (j := 21) (by decide))
  rw [piece_length (by rw [h.length]; decide)] at hy hu
  have hyear := h.year
  have hmin := Calendar.yearStart_mono h.year_ge
  have hmax := Calendar.yearStart_mono (show d.year ≤ 9999 by omega)
  have hlast : Calendar.yearStart 9999 - epoch = 2932532 := by decide
  have hstart := Calendar.monthStart_le (Calendar.isLeap d.year) d.month d.month_lt
  have hpos := d.day_pos
  have hday := date_day_lt d
  have hh := h.hour
  have hm := h.minute
  have hs := h.second
  rw [localMicros, clockSeconds, Calendar.Date.number]
  rw [epoch] at *
  omega

-- The binary format is the instant in GMT just when it does not differ from the local time.
theorem getBinaryFormat_iff (h : AbsoluteText t d offset) :
    (∃ m, DateTime.getBinaryFormat .utc t = .ok m ∧ (m.toNat : ℤ) = instant t d offset) ↔ offset = 0 := by
  have ⟨hl, hu⟩ := h.micros_bounds
  have hs : t[21]? ≠ some 58 := by
    cases h.sign with
    | inl hs => rw [hs.1]; decide
    | inr hs => rw [hs.1]; decide
  rw [DateTime.getBinaryFormat, h.chars2bin_dated h.toDated hs, instant]
  constructor
  · intro h
    have ⟨m, hm, he⟩ := h
    cases hm
    rw [toNat_ofInt hl hu] at he
    omega
  · intro ho
    exact ⟨_, rfl, by rw [toNat_ofInt hl hu]; omega⟩

end

-- The third of May 2005.
def may3 : Calendar.Date where
  year     := 2005
  month    := 4
  day      := 3
  month_lt := by decide
  day_pos  := by decide
  day_le   := by decide

theorem may3_text : AbsoluteText (bytes "20050503104354.000000+120") may3 120 where
  length  := by decide
  point   := by decide
  before  := by decide
  micros  := by decide
  utc     := by decide
  year    := by decide
  month   := by decide
  day     := by decide
  year_ge := by decide
  hour    := by decide
  minute  := by decide
  second  := by decide
  sign    := by decide

theorem getBinaryFormat_iff_may3 :
    (∃ m, DateTime.getBinaryFormat .utc (bytes "20050503104354.000000+120") = .ok m ∧
      (m.toNat : ℤ) = instant (bytes "20050503104354.000000+120") may3 120) ↔ (120 : ℤ) = 0 :=
  getBinaryFormat_iff may3_text

-- Two hours are left out.
theorem not_getBinaryFormat_may3 : ¬ ∀ (t : Text) (d : Calendar.Date) (offset : ℤ), AbsoluteText t d offset →
    0 ≤ instant t d offset → ∃ m, DateTime.getBinaryFormat .utc t = .ok m ∧ (m.toNat : ℤ) = instant t d offset := by
  intro h
  have ⟨m, hm, he⟩ := h (bytes "20050503104354.000000+120") may3 120 may3_text (by decide)
  have hx : DateTime.getBinaryFormat .utc (bytes "20050503104354.000000+120") = .ok 1115117034000000 := by decide
  cases hx.symm.trans hm
  exact absurd he (by decide)

end Sfcc
