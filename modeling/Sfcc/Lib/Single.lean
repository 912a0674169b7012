import Mathlib.Algebra.Order.Floor.Ring
import Mathlib.Data.Int.Log
import Mathlib.Data.Rat.Floor
import Mathlib.Tactic.FieldSimp
import Mathlib.Tactic.Linarith
import Mathlib.Tactic.Ring

-- Binary floating point numbers of 24 digits, whose exponents are not bounded.
namespace Single

-- The integer nearest to a number, the even one of two.
def nearest (x : ℚ) : ℤ :=
  if x - ⌊x⌋ < 1 / 2 ∨ x - ⌊x⌋ = 1 / 2 ∧ ⌊x⌋ % 2 = 0 then ⌊x⌋ else ⌊x⌋ + 1

def exponent (x : ℚ) : ℤ :=
  Int.log 2 |x| - 23

def single (x : ℚ) : ℚ :=
  nearest (x / 2 ^ exponent x) * 2 ^ exponent x

theorem nearest_sub (x : ℚ) : |nearest x - x| ≤ 1 / 2 := by
  have hl : (⌊x⌋ : ℚ) ≤ x := Int.floor_le x
  have hu : x < ⌊x⌋ + 1 := Int.lt_floor_add_one x
  rw [nearest, abs_le]
  split
  case isTrue h =>
    have hh : x - ⌊x⌋ ≤ 1 / 2 := h.elim le_of_lt fun h => le_of_eq h.left
    constructor <;> linarith
  case isFalse h =>
    have hh : 1 / 2 ≤ x - ⌊x⌋ := not_lt.mp fun h' => h (.inl h')
    push_cast
    constructor <;> linarith

theorem single_sub (x : ℚ) : |single x - x| ≤ |x| / 2 ^ 24 := by
  have hp : (0 : ℚ) < 2 ^ exponent x := zpow_pos two_pos _
  have he : single x - x = (nearest (x / 2 ^ exponent x) - x / 2 ^ exponent x) * 2 ^ exponent x := by
    rw [single]
    field_simp
  rw [he, abs_mul, abs_of_pos hp]
  have hn := mul_le_mul_of_nonneg_right (nearest_sub (x / 2 ^ exponent x)) hp.le
  by_cases hx : x = 0
  · subst hx
    simp [nearest]
  have hl : (2 : ℚ) ^ Int.log 2 |x| ≤ |x| := by
    have := Int.zpow_log_le_self (b := 2) (r := |x|) (by norm_num) (abs_pos.mpr hx)
    exact_mod_cast this
  have hs : (2 : ℚ) ^ exponent x = 2 ^ Int.log 2 |x| / 2 ^ 23 := by
    rw [exponent, zpow_sub₀ two_ne_zero]
    norm_cast
  rw [hs] at hn ⊢
  linarith

variable {x : ℚ}

theorem single_le (h : 0 ≤ x) : single x ≤ x * (1 + 1 / 2 ^ 24) := by
  have := (abs_le.mp (single_sub x)).right
  rw [abs_of_nonneg h] at this
  linarith

theorem le_single (h : 0 ≤ x) : x * (1 - 1 / 2 ^ 24) ≤ single x := by
  have := (abs_le.mp (single_sub x)).left
  rw [abs_of_nonneg h] at this
  linarith

end Single
