import Mathlib.Algebra.GroupWithZero.Nat
import Mathlib.Data.List.Basic
import Mathlib.Order.Basic
import Mathlib.Data.Int.Notation

-- The days of the Gregorian calendar.
namespace Calendar

def isLeap (year : ℤ) : Bool :=
  year % 4 = 0 ∧ (year % 100 ≠ 0 ∨ year % 400 = 0)

def yearLength (leap : Bool) : ℕ :=
  if leap then 366 else 365

-- The months are counted from zero.
def monthLength (leap : Bool) (month : ℕ) : ℕ :=
  if month = 1 then (if leap then 29 else 28)
  else if month ∈ [3, 5, 8, 10] then 30
  else 31

-- The days of a year before a month.
def monthStart (leap : Bool) (month : ℕ) : ℕ :=
  ((List.range month).map (monthLength leap)).sum

-- The days between the first of January of the year 1 and that of another year.
def yearStart (year : ℤ) : ℤ :=
  365 * (year - 1) + (year - 1) / 4 - (year - 1) / 100 + (year - 1) / 400

structure Date where
  year      : ℤ
  month     : ℕ
  day       : ℕ
  month_lt  : month < 12
  day_pos   : 0 < day
  day_le    : day ≤ monthLength (isLeap year) month

-- The days since the first of January of the year 1.
def Date.number (d : Date) : ℤ :=
  yearStart d.year + monthStart (isLeap d.year) d.month + (d.day - 1)

-- The cycles of 400, 100 and 4 years and the single years that a number of days is made of.
def yearOf (n : ℤ) : ℤ :=
  let cycle := n % 146097
  let century := min 3 (cycle / 36524)
  let days := cycle - 36524 * century
  400 * (n / 146097) + 100 * century + 4 * (days / 1461) + min 3 (days % 1461 / 365) + 1

-- How many months are over.
def monthOf (leap : Bool) (day : ℕ) : ℕ :=
  ((List.range 11).filter fun month => monthStart leap (month + 1) ≤ day).length

theorem yearStart_succ (year : ℤ) : yearStart (year + 1) = yearStart year + yearLength (isLeap year) := by
  cases h : isLeap year with
  | true  =>
    have h := of_decide_eq_true h
    simp only [yearStart, yearLength, if_true]
    omega
  | false =>
    have h := of_decide_eq_false h
    simp only [yearStart, yearLength, Bool.false_eq_true, if_false]
    omega

-- The years before a year, by the cycles they make up.
theorem yearStart_cycles {a c q r : ℤ} (hc : 0 ≤ c ∧ c ≤ 3) (hq : 0 ≤ q ∧ q ≤ 24) (hr : 0 ≤ r ∧ r ≤ 3) :
    yearStart (400 * a + 100 * c + 4 * q + r + 1) = 146097 * a + 36524 * c + 1461 * q + 365 * r := by
  rw [yearStart]
  omega

theorem yearStart_yearOf (n : ℤ) : yearStart (yearOf n) ≤ n ∧ n < yearStart (yearOf n + 1) := by
  let c := min 3 (n % 146097 / 36524)
  let d := n % 146097 - 36524 * c
  let r := min 3 (d % 1461 / 365)
  have hc : 0 ≤ c ∧ c ≤ 3 ∧ 0 ≤ d ∧ (d < 36524 ∨ c = 3 ∧ d ≤ 36524) := by omega
  have hr : 0 ≤ r ∧ r ≤ 3 ∧ 365 * r ≤ d % 1461 ∧ (d % 1461 < 365 * r + 365 ∨ r = 3 ∧ d % 1461 ≤ 1460) := by omega
  have hy : yearOf n = 400 * (n / 146097) + 100 * c + 4 * (d / 1461) + r + 1 := rfl
  have hstart := yearStart_cycles (a := n / 146097) ⟨hc.1, hc.2.1⟩ (q := d / 1461) (by omega) ⟨hr.1, hr.2.1⟩
  rw [yearStart_succ, hy, hstart]
  constructor
  · omega
  · cases hl : isLeap (400 * (n / 146097) + 100 * c + 4 * (d / 1461) + r + 1) with
    | true  =>
      simp only [yearLength, if_true]
      omega
    | false =>
      have hl := of_decide_eq_false hl
      simp only [yearLength, Bool.false_eq_true, if_false]
      omega

theorem yearStart_mono {y y' : ℤ} (h : y ≤ y') : yearStart y ≤ yearStart y' := by
  rw [yearStart, yearStart]
  omega

-- A year by the bounds of a number of days.
theorem yearOf_bounds {n y y' : ℤ} (hl : yearStart y ≤ n) (hu : n < yearStart y') : y ≤ yearOf n ∧ yearOf n < y' := by
  have ⟨hs, he⟩ := yearStart_yearOf n
  constructor
  · by_contra h
    have hm := yearStart_mono (show yearOf n + 1 ≤ y by omega)
    omega
  · by_contra h
    have hm := yearStart_mono (show y' ≤ yearOf n by omega)
    omega

-- The day of the year, counted from zero.
def dayOf (n : ℤ) : ℕ :=
  (n - yearStart (yearOf n)).toNat

theorem dayOf_lt (n : ℤ) : dayOf n < yearLength (isLeap (yearOf n)) := by
  have ⟨hs, he⟩ := yearStart_yearOf n
  rw [yearStart_succ] at he
  rw [dayOf]
  omega

theorem monthOf_spec : ∀ leap, ∀ day < yearLength leap,
    monthOf leap day < 12 ∧ monthStart leap (monthOf leap day) ≤ day ∧
      day < monthStart leap (monthOf leap day) + monthLength leap (monthOf leap day) := by
  decide +kernel

def Date.ofNumber (n : ℤ) : Date :=
  have h := monthOf_spec (isLeap (yearOf n)) (dayOf n) (dayOf_lt n)
  { year     := yearOf n
    month    := monthOf (isLeap (yearOf n)) (dayOf n)
    day      := dayOf n - monthStart (isLeap (yearOf n)) (monthOf (isLeap (yearOf n)) (dayOf n)) + 1
    month_lt := h.1
    day_pos  := Nat.succ_pos _
    day_le   := by omega }

theorem Date.number_ofNumber (n : ℤ) : (ofNumber n).number = n := by
  have ⟨_, hl, _⟩ := monthOf_spec (isLeap (yearOf n)) (dayOf n) (dayOf_lt n)
  have ⟨hs, _⟩ := yearStart_yearOf n
  have hd : (dayOf n : ℤ) = n - yearStart (yearOf n) := Int.toNat_of_nonneg (by omega)
  rw [number, ofNumber]
  push_cast [hl]
  omega

theorem monthStart_le : ∀ leap, ∀ month < 12, monthStart leap month ≤ 335 := by
  decide

theorem monthLength_le : ∀ leap, ∀ month < 12, monthLength leap month ≤ 31 := by
  decide

end Calendar
