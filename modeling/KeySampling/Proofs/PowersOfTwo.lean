import KeySampling.KeyTable.Sizing
import Mathlib.Algebra.Order.Ring.Nat

/-! Powers of two, and the one just above an integer. -/
namespace KeySampling

theorem pow2Pow (n : Nat) : pow2 n = 2 ^ n := Nat.one_shiftLeft n

theorem pow2Mono {m n : Nat} (le : m ≤ n) : pow2 m ≤ pow2 n := by
  rw [pow2Pow, pow2Pow]
  exact Nat.pow_le_pow_right (by omega) le

theorem pow2Log2 (n : Nat) : (pow2 n).log2 = n := by
  rw [pow2Pow, Nat.log2_two_pow]

end KeySampling
