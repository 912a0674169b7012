import Mathlib.Algebra.Order.Ring.Int
import Sfcc.Cmpi.Type

-- Numbers and bytes as they are stored.
namespace Sfcc

-- What is stored in an `int`, and what it becomes as a `size_t`.
def int (n : ℤ) : ℤ :=
  (n + 2 ^ 31) % 2 ^ 32 - 2 ^ 31

def size_t (n : ℤ) : ℤ :=
  n % 2 ^ 64

-- The bytes that are stored from an offset on, and the size of the block at this time.
structure Write where
  offset : ℤ
  bytes  : Text
  size   : ℤ

def Write.InBounds (w : Write) : Prop :=
  0 ≤ w.offset ∧ w.offset + w.bytes.length ≤ w.size

instance (w : Write) : Decidable w.InBounds :=
  inferInstanceAs (Decidable (_ ∧ _))

theorem Write.inBounds_iff {offset size : ℕ} {t : Text} :
    Write.InBounds ⟨offset, t, size⟩ ↔ offset + t.length ≤ size := by
  simp only [Write.InBounds]
  omega

theorem int_eq {n : ℤ} (hl : -(2 ^ 31) ≤ n) (hu : n < 2 ^ 31) : int n = n := by
  rw [int]
  omega

theorem size_t_eq {n : ℤ} (hl : 0 ≤ n) (hu : n < 2 ^ 64) : size_t n = n := by
  rw [size_t]
  omega

end Sfcc
