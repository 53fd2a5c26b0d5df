import Mathlib.Data.Rat.Floor
import Mathlib.Data.Int.Log

namespace BinaryRounding

/-- The nearest integer; a tie goes to the even neighbour. -/
def roundHalfEven (q : ℚ) : ℤ :=
  if q - ⌊q⌋ < 1 / 2 then ⌊q⌋
  else if 1 / 2 < q - ⌊q⌋ then ⌊q⌋ + 1
  else if ⌊q⌋ % 2 = 0 then ⌊q⌋ else ⌊q⌋ + 1

/-- The nearest integer; a tie goes away from zero. -/
def roundHalfAway (q : ℚ) : ℤ :=
  if 0 ≤ q then ⌊q + 1 / 2⌋ else ⌈q - 1 / 2⌉

/-- The weight of the last of `digits` significant binary digits of `q`. -/
def lastPlace (digits : ℕ) (q : ℚ) : ℚ :=
  2 ^ (Int.log 2 |q| - (digits - 1 : ℤ))

/-- Rounding to `digits` significant binary digits, ties to even, with an
exponent range that is never left. -/
def roundTo (digits : ℕ) (q : ℚ) : ℚ :=
  roundHalfEven (q / lastPlace digits q) * lastPlace digits q

/-- Conversion to an unsigned integer of `bits` bits: the fraction is dropped,
and a value outside the target range has no defined result. -/
def truncateTo (bits : ℕ) (q : ℚ) : Option ℕ :=
  if -1 < q ∧ q < 2 ^ bits then some ⌊q⌋.toNat else none

theorem roundHalfEven_intCast (z : ℤ) : roundHalfEven z = z := by
  simp [roundHalfEven]

theorem truncateTo_natCast {bits n : ℕ} (h : n < 2 ^ bits) : truncateTo bits n = some n := by
  have hlow : (-1 : ℚ) < n := lt_of_lt_of_le (by norm_num) (Nat.cast_nonneg n)
  have hhigh : (n : ℚ) < 2 ^ bits := by exact_mod_cast h
  simp [truncateTo, hlow, hhigh]

theorem roundTo_zero (digits : ℕ) : roundTo digits 0 = 0 := by
  have h : roundHalfEven 0 = 0 := roundHalfEven_intCast 0
  simp [roundTo, h]

theorem roundTo_one {digits : ℕ} (h : 0 < digits) : roundTo digits 1 = 1 := by
  obtain ⟨places, rfl⟩ := Nat.exists_eq_add_one_of_ne_zero (Nat.ne_of_gt h)
  have hplace : lastPlace (places + 1) 1 = (2 ^ places)⁻¹ := by simp [lastPlace]
  have hquotient : (1 : ℚ) / (2 ^ places)⁻¹ = ((2 ^ places : ℤ) : ℚ) := by simp
  rw [roundTo, hplace, hquotient, roundHalfEven_intCast]
  push_cast
  exact mul_inv_cancel₀ (by positivity)

end BinaryRounding
