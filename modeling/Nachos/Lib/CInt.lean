import Mathlib.Algebra.Order.Ring.Int
import Mathlib.Tactic.Common

/-!
# Conversions of 32-bit integers

Values of the types `int` and `unsigned int` as integers: an arithmetic operation is computed
exactly and its result converted to the type.
-/

namespace CInt

/-- Conversion to `unsigned int`. -/
def u32 (x : Int) : Nat := (x % 2 ^ 32).toNat

/-- Conversion to `int`. -/
def s32 (x : Int) : Int := x.bmod (2 ^ 32)

theorem u32_of_nonneg {x : Int} (h : 0 ≤ x) (h' : x < 2 ^ 32) : (u32 x : Int) = x := by
  unfold u32
  omega

theorem s32_of_bounds {x : Int} (h : -2 ^ 31 ≤ x) (h' : x < 2 ^ 31) : s32 x = x := by
  unfold s32
  rw [Int.bmod_def]
  split <;> omega

/-- It makes no difference when a number is converted. -/
theorem s32_mul_add (a b c : Int) : s32 (s32 a * b + c) = s32 (a * b + c) := by
  unfold s32
  rw [← Int.bmod_add_bmod, Int.bmod_mul_bmod, Int.bmod_add_bmod]

theorem s32_s32 (a : Int) : s32 (s32 a) = s32 a := by
  unfold s32
  exact Int.bmod_bmod

theorem s32_neg (a : Int) : s32 (s32 a * -1) = s32 (-a) := by
  rw [← Int.add_zero (s32 a * -1), s32_mul_add]
  congr 1
  omega

theorem s32_eq_zero_iff {a : Int} : s32 a = 0 ↔ (2 ^ 32 : Int) ∣ a := by
  unfold s32
  rw [← Int.dvd_iff_bmod_eq_zero]
  rfl

/-- The result of an `int` function is its value. -/
theorem toInt_ofInt_s32 (a : Int) : (BitVec.ofInt 32 (s32 a)).toInt = s32 a := by
  rw [BitVec.toInt_ofInt]
  exact Int.bmod_bmod

end CInt
