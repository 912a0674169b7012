import Mathlib.Data.Nat.Digits.Lemmas
import Sfcc.Theorems.Cmpi.DateTime

-- The buffer that a date is written to.
namespace Sfcc

variable {zone : TimeZone} {time : UInt64} {interval : Bool} {n k w : ℕ}

-- `localtime_r` may fail.
structure TimeZone.IsUtc (zone : TimeZone) : Prop where
  timezone    : zone.timezone = 0
  daylight    : zone.daylight = 0
  localtime_r : ∀ time tm, zone.localtime_r time = some tm → tm = gmtime time

-- What is written to the buffer are 25 characters and a NUL.
def FillsBuffer (zone : TimeZone) (time : UInt64) (interval : Bool) : Prop :=
  ∃ t, newCMPIDateTimeFromBinary zone time interval = .ok t ∧ t.length = 25

theorem not_fillsBuffer {f : Fault} (h : newCMPIDateTimeFromBinary zone time interval = .error f) :
    ¬ FillsBuffer zone time interval := by
  intro ⟨t, ht, _⟩
  cases h.symm.trans ht

theorem strTime_error {t : Text} (h : 26 ≤ t.length) : strTime t = .error .wild := by
  rw [strTime, if_neg (by omega)]
  rfl

-- Widths are the least number of characters only.

theorem lt_decimal_length (h : 10 ^ k ≤ n) : k < (decimal n).length := by
  have hn : n ≠ 0 := by
    have hp : 0 < 10 ^ k := Nat.pow_pos (by decide)
    omega
  rw [decimal, if_neg hn, List.length_map, List.length_reverse]
  exact (Nat.lt_digits_length_iff (by decide) n).mpr h

theorem decimal_length_le (w n : ℕ) : (decimal n).length ≤ (padded w n).length := by
  rw [padded, List.length_append]
  exact Nat.le_add_left ..

theorem le_padded_length (w n : ℕ) : w ≤ (padded w n).length := by
  rw [padded, List.length_append, List.length_replicate]
  omega

theorem signedDecimal_length (h : 10 ^ 4 ≤ n) : 5 ≤ (signedDecimal n).length := by
  rw [signedDecimal, if_neg (by omega), Int.natAbs_natCast]
  exact lt_decimal_length h

theorem le_strftime_length {tm : Tm} (h : 10 ^ 4 ≤ 1900 + tm.year) : 16 ≤ (strftime tm).length := by
  have ⟨year, hyear⟩ := Int.eq_ofNat_of_zero_le (show 0 ≤ 1900 + tm.year by omega)
  have hy := signedDecimal_length (n := year) (by omega)
  have hmonth := le_padded_length 2 (tm.mon + 1).toNat
  have hday := le_padded_length 2 tm.mday.toNat
  have hhour := le_padded_length 2 tm.hour.toNat
  have hminute := le_padded_length 2 tm.min.toNat
  have hsecond := le_padded_length 2 tm.sec.toNat
  rw [strftime, hyear]
  simp only [List.length_append, List.length_singleton]
  omega

theorem le_year (h : absoluteLimit ≤ n) : 10 ^ 4 ≤ 1900 + (gmtime (n / 1000000 : ℕ)).year := by
  have ⟨_, he⟩ := Calendar.yearStart_yearOf (epoch + (n / 1000000 : ℕ) / 86400)
  show 10 ^ 4 ≤ 1900 + (Calendar.yearOf (epoch + (n / 1000000 : ℕ) / 86400) - 1900)
  by_contra hy
  have hm := Calendar.yearStart_mono (show Calendar.yearOf (epoch + (n / 1000000 : ℕ) / 86400) + 1 ≤ 10000 by omega)
  rw [absoluteLimit] at h
  omega

theorem bin2chars_interval_error (zone : TimeZone) (h : intervalLimit ≤ time.toNat) :
    bin2chars zone time true = .error .wild := by
  have hd : 10 ^ 8 ≤ (time / 1000000 / 60 / 60 / 24).toNat := by
    simp only [UInt64.toNat_div]
    rw [intervalLimit] at h
    show _ ≤ time.toNat / 1000000 / 60 / 60 / 24
    omega
  have hdays := (lt_decimal_length hd).trans_le (decimal_length_le 8 _)
  have hhour := le_padded_length 2 (time / 1000000 / 60 / 60 % 24).toNat
  have hminute := le_padded_length 2 (time / 1000000 / 60 % 60).toNat
  have hsecond := le_padded_length 2 (time / 1000000 % 60).toNat
  have hmicro := le_padded_length 6 (time % 1000000).toNat
  have hutc : (bytes ":000").length = 4 := rfl
  rw [bin2chars, if_pos rfl]
  apply strTime_error
  simp only [List.length_append, List.length_singleton]
  omega

-- Where `localtime_r` does not fail, the zone is as good as any.
theorem bin2chars_utc (h : zone.IsUtc) {tm : Tm} (ht : zone.localtime_r (time / 1000000).toNat = some tm) :
    bin2chars zone time false = bin2chars .utc time false := by
  have he := h.localtime_r _ _ ht
  rw [bin2chars, if_neg (by decide), ht, he, h.timezone, h.daylight]
  rfl

theorem bin2chars_absolute_error (h : absoluteLimit ≤ time.toNat) : bin2chars .utc time false = .error .wild := by
  have hsecs : (time / 1000000).toNat = time.toNat / 1000000 := UInt64.toNat_div time 1000000
  have hdate := le_strftime_length (le_year h)
  have hmicro := le_padded_length 6 (time % 1000000).toNat
  have hutc : (signedPadded 0).length = 4 := by decide
  rw [bin2chars, if_neg (by decide)]
  show strTime (strftime (gmtime (time / 1000000).toNat) ++ padded 6 (time % 1000000).toNat ++ signedPadded 0) = _
  rw [hsecs]
  apply strTime_error
  simp only [List.length_append]
  omega

-- A date fits if it is one of less than 10 ^ 8 days, or of a year of four digits.
theorem fillsBuffer_iff (h : zone.IsUtc) : FillsBuffer zone time interval ↔
    if interval then time.toNat < intervalLimit
    else (zone.localtime_r (time / 1000000).toNat).isSome ∧ (time.toNat : ℤ) < absoluteLimit := by
  cases interval with
  | true  =>
    rw [if_pos rfl]
    constructor
    · intro hf
      by_contra hl
      exact not_fillsBuffer (bin2chars_interval_error zone (by omega)) hf
    · intro hl
      exact ⟨_, bin2chars_interval zone hl, Stamp.text_length _⟩
  | false =>
    rw [if_neg (by decide)]
    cases ht : zone.localtime_r (time / 1000000).toNat with
    | none    =>
      have he : bin2chars zone time false = .error .wild := by
        rw [bin2chars, if_neg (by decide), ht]
        rfl
      simp only [Option.isSome_none, Bool.false_eq_true, false_and, iff_false]
      exact not_fillsBuffer he
    | some tm =>
      have hu := bin2chars_utc h ht
      simp only [Option.isSome_some, true_and]
      constructor
      · intro hf
        by_contra hl
        exact not_fillsBuffer (hu.trans (bin2chars_absolute_error (by omega))) hf
      · intro hl
        exact ⟨_, hu.trans (bin2chars_absolute hl), Stamp.text_length _⟩

theorem TimeZone.utc_isUtc : TimeZone.utc.IsUtc where
  timezone    := rfl
  daylight    := rfl
  localtime_r := by
    intro time tm h
    cases h
    rfl

theorem fillsBuffer_iff_days : FillsBuffer .utc 8640000000000000000 true ↔
    if true then (8640000000000000000 : UInt64).toNat < intervalLimit
    else (TimeZone.utc.localtime_r ((8640000000000000000 : UInt64) / 1000000).toNat).isSome ∧
      ((8640000000000000000 : UInt64).toNat : ℤ) < absoluteLimit :=
  fillsBuffer_iff TimeZone.utc_isUtc

-- 10 ^ 8 days.
theorem not_fillsBuffer_days : ¬ ∀ (zone : TimeZone) (time : UInt64) (interval : Bool),
    zone.IsUtc → FillsBuffer zone time interval := by
  intro h
  have hl : intervalLimit ≤ (8640000000000000000 : UInt64).toNat := by decide
  exact not_fillsBuffer (bin2chars_interval_error .utc hl) (h .utc 8640000000000000000 true TimeZone.utc_isUtc)

end Sfcc
