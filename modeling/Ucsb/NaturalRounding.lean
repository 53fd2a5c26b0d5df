import Mathlib.Data.Nat.Log
import Mathlib.Tactic.Ring
import Ucsb.BinaryRounding

namespace BinaryRounding

/-- The binary digits of a number behind the first `digits` of them. -/
def excess (digits n : ℕ) : ℕ := Nat.log 2 n + 1 - digits

/-- The number is written with `digits` binary digits and zeros behind them. -/
def HasDigits (digits n : ℕ) : Prop := ∃ m e, m < 2 ^ digits ∧ n = m * 2 ^ e

variable {digits n : ℕ}

theorem lt_two_pow_excess (digits n : ℕ) : n < 2 ^ (digits + excess digits n) := by
  have hlt := Nat.lt_pow_succ_log_self (b := 2) (by decide) n
  refine Nat.lt_of_lt_of_le hlt (Nat.pow_le_pow_right (by decide) ?_)
  unfold excess
  omega

/-- A natural number is rounded by dividing off its excess digits. -/
theorem roundTo_natCast (digits n : ℕ) :
    roundTo digits n = roundHalfEven ((n : ℚ) / 2 ^ excess digits n) * 2 ^ excess digits n := by
  have habs : |(n : ℚ)| = n := abs_of_nonneg (Nat.cast_nonneg n)
  have hplace : lastPlace digits n = 2 ^ (Nat.log 2 n + 1 - digits : ℤ) := by
    rw [lastPlace, habs, Int.log_natCast]
    congr 1
    omega
  by_cases hle : digits ≤ Nat.log 2 n + 1
  · have hexp : (Nat.log 2 n + 1 - digits : ℤ) = (excess digits n : ℕ) := by
      unfold excess
      omega
    rw [roundTo, hplace, hexp, zpow_natCast]
  · -- the number has fewer digits, and is a multiple of a smaller power
    have hexp : (Nat.log 2 n + 1 - digits : ℤ) = -((digits - (Nat.log 2 n + 1) : ℕ) : ℤ) := by
      omega
    have hzero : excess digits n = 0 := by
      unfold excess
      omega
    have hcast : (n : ℚ) * 2 ^ (digits - (Nat.log 2 n + 1)) =
        ((n * 2 ^ (digits - (Nat.log 2 n + 1)) : ℕ) : ℤ) := by
      push_cast
      rfl
    rw [roundTo, hplace, hexp, zpow_neg, zpow_natCast, div_inv_eq_mul, hcast,
      roundHalfEven_intCast, ← hcast, hzero, pow_zero, div_one, mul_one, mul_assoc,
      mul_inv_cancel₀ (by positivity), mul_one]
    rw [← Int.cast_natCast, roundHalfEven_intCast]

theorem roundHalfEven_natCast_div (n d : ℕ) :
    ∃ m : ℕ, roundHalfEven ((n : ℚ) / d) = m ∧ (m = n / d ∨ m = n / d + 1) := by
  have hfloor : ⌊(n : ℚ) / d⌋ = ((n / d : ℕ) : ℤ) := Rat.floor_natCast_div_natCast n d
  unfold roundHalfEven
  rw [hfloor]
  split_ifs
  · exact ⟨n / d, rfl, .inl rfl⟩
  · exact ⟨n / d + 1, by push_cast; rfl, .inr rfl⟩
  · exact ⟨n / d, rfl, .inl rfl⟩
  · exact ⟨n / d + 1, by push_cast; rfl, .inr rfl⟩

/-- The rounded number is a multiple of the last place, at most one digit longer. -/
theorem roundTo_natCast_mul (digits n : ℕ) :
    ∃ m, roundTo digits n = ((m * 2 ^ excess digits n : ℕ) : ℚ) ∧ m ≤ 2 ^ digits := by
  obtain ⟨m, hm, hle⟩ := roundHalfEven_natCast_div n (2 ^ excess digits n)
  refine ⟨m, ?_, ?_⟩
  · rw [roundTo_natCast]
    push_cast at hm ⊢
    rw [hm]
    rfl
  · have hlt := lt_two_pow_excess digits n
    rw [Nat.pow_add, ← Nat.div_lt_iff_lt_mul (Nat.two_pow_pos _)] at hlt
    omega

theorem dvd_excess_iff : 2 ^ excess digits n ∣ n ↔ HasDigits digits n := by
  constructor
  · rintro ⟨m, hm⟩
    have hlt := lt_two_pow_excess digits n
    refine ⟨m, _, ?_, hm.trans (Nat.mul_comm _ _)⟩
    rw [Nat.pow_add, Nat.mul_comm] at hlt
    exact Nat.lt_of_mul_lt_mul_left (Nat.lt_of_le_of_lt (Nat.le_of_eq hm.symm) hlt)
  · rintro ⟨m, e, hm, rfl⟩
    by_cases hzero : m = 0
    · simp [hzero]
    · have hne : m * 2 ^ e ≠ 0 := Nat.mul_ne_zero hzero (Nat.two_pow_pos e).ne'
      have hlt : m * 2 ^ e < 2 ^ (digits + e) := by
        rw [Nat.pow_add]
        exact Nat.mul_lt_mul_of_pos_right hm (Nat.two_pow_pos e)
      have hlog := Nat.log_lt_of_lt_pow hne hlt
      have hle : excess digits (m * 2 ^ e) ≤ e := by
        unfold excess
        omega
      exact (Nat.pow_dvd_pow 2 hle).trans (Nat.dvd_mul_left _ _)

/-- Rounding keeps the numbers that have the digits, and no others. -/
theorem roundTo_natCast_eq_iff : roundTo digits n = n ↔ HasDigits digits n := by
  rw [← dvd_excess_iff]
  constructor
  · intro h
    obtain ⟨m, hm, _⟩ := roundTo_natCast_mul digits n
    rw [h, Nat.cast_inj] at hm
    exact ⟨m, hm.trans (Nat.mul_comm _ _)⟩
  · rintro ⟨m, hm⟩
    have hquotient : (n : ℚ) / 2 ^ excess digits n = (m : ℤ) := by
      have hcast : (n : ℚ) = ((2 ^ excess digits n * m : ℕ) : ℚ) := congrArg Nat.cast hm
      rw [div_eq_iff (by positivity), hcast]
      push_cast
      ring
    rw [roundTo_natCast, hquotient, roundHalfEven_intCast, ← hquotient,
      div_mul_cancel₀ _ (by positivity)]

end BinaryRounding
