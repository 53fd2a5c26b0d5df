import Ucsb.Generators
import Ucsb.ZipfianSampling

namespace Ucsb

noncomputable section

/-- `generate` of `beta_generator_t` for the fraction `b` that `generateBeta` returned, with the
arithmetic of `float` read as that of the reals. -/
def BetaGenerator.sample (g : BetaGenerator) (b : ℝ) : Option UInt64 :=
  toSize (roundAway (g.min.toNat + b * g.itemsCount.toNat))

theorem toSize_intCast {z : ℤ} (hz : 0 ≤ z) :
    toSize (z : ℝ) = if z < 2 ^ 64 then some (UInt64.ofNat z.toNat) else none := by
  have hnonneg : (-1 : ℝ) < z := by exact_mod_cast (by omega : -1 < z)
  have hcast : ((z : ℝ) < 2 ^ 64) ↔ z < 2 ^ 64 := by exact_mod_cast Iff.rfl
  have hfloor : ⌊(z : ℝ)⌋₊ = z.toNat := by simp [← Int.floor_toNat]
  simp only [toSize, hnonneg, true_and, hcast, hfloor]

theorem roundAway_add {low : ℕ} {x : ℝ} (hx : 0 ≤ x) (high : ℕ) :
    (low : ℤ) ≤ roundAway (low + x) ∧
      (roundAway (low + x) ≤ high ↔ (low : ℝ) + x < high + 1 / 2) := by
  have hnonneg : (0 : ℝ) ≤ low + x := by positivity
  rw [roundAway, if_pos hnonneg]
  constructor
  · rw [Int.le_floor]
    push_cast
    linarith
  · rw [← Int.lt_add_one_iff, Int.floor_lt]
    push_cast
    constructor <;> intro h <;> linarith

theorem itemsCount_toNat {min max : UInt64} (h : min ≤ max) (hcount : max - min + 1 ≠ 0) :
    (max - min + 1).toNat = max.toNat - min.toNat + 1 := by
  have hsub : (max - min).toNat = max.toNat - min.toNat := UInt64.toNat_sub_of_le _ _ h
  have hbound := max.toNat_lt
  have hadd : (max - min + 1).toNat = (max.toNat - min.toNat + 1) % 2 ^ 64 := by
    rw [UInt64.toNat_add, hsub, UInt64.toNat_one]
  have hne : (max - min + 1).toNat ≠ 0 := fun heq => hcount (UInt64.toNat_inj.mp heq)
  omega

/-- The key is in range exactly when the rounded number is. -/
theorem sample_mem_iff_roundAway {min max : UInt64} {b : ℝ} (hb : 0 ≤ b) :
    (∃ key, (BetaGenerator.make min max).sample b = some key ∧ min ≤ key ∧ key ≤ max) ↔
      roundAway (min.toNat + b * (max - min + 1).toNat) ≤ max.toNat := by
  have hbound := max.toNat_lt
  have hnonneg : 0 ≤ b * (max - min + 1).toNat := mul_nonneg hb (Nat.cast_nonneg _)
  have hlow : (min.toNat : ℤ) ≤ roundAway (min.toNat + b * (max - min + 1).toNat) :=
    (roundAway_add hnonneg max.toNat).1
  have hsample : (BetaGenerator.make min max).sample b =
      toSize (roundAway (min.toNat + b * (max - min + 1).toNat)) := rfl
  rw [hsample, toSize_intCast (by omega)]
  generalize roundAway (min.toNat + b * (max - min + 1).toNat) = z at hlow ⊢
  constructor
  · rintro ⟨key, hkey, -, hle⟩
    split at hkey
    next hfit =>
      cases Option.some.inj hkey
      have hvalue : (UInt64.ofNat z.toNat).toNat = z.toNat := by
        rw [UInt64.toNat_ofNat', Nat.mod_eq_of_lt (by omega)]
      rw [UInt64.le_iff_toNat_le, hvalue] at hle
      omega
    next => simp at hkey
  · intro hle
    have hvalue : (UInt64.ofNat z.toNat).toNat = z.toNat := by
      rw [UInt64.toNat_ofNat', Nat.mod_eq_of_lt (by omega)]
    refine ⟨UInt64.ofNat z.toNat, if_pos (by omega), ?_, ?_⟩
    · rw [UInt64.le_iff_toNat_le, hvalue]
      omega
    · rw [UInt64.le_iff_toNat_le, hvalue]
      omega

/-- A fraction is scaled to a key of the range exactly when it stays half a key below the number
of keys; the number of all 64-bit keys is counted as zero. -/
theorem beta_in_range_iff {min max : UInt64} {b : ℝ} (h : min ≤ max) (hb : 0 ≤ b) :
    (∃ key, (BetaGenerator.make min max).sample b = some key ∧ min ≤ key ∧ key ≤ max) ↔
      max - min + 1 = 0 ∨ b * (max - min + 1).toNat < (max - min + 1).toNat - 1 / 2 := by
  have hle : (min.toNat : ℝ) ≤ max.toNat := by exact_mod_cast UInt64.le_iff_toNat_le.mp h
  rw [sample_mem_iff_roundAway hb,
    (roundAway_add (mul_nonneg hb (Nat.cast_nonneg (max - min + 1).toNat)) max.toNat).2]
  by_cases hcount : max - min + 1 = 0
  · simp only [hcount, true_or, iff_true]
    simp only [UInt64.toNat_zero, Nat.cast_zero, mul_zero, add_zero]
    linarith
  · have hitems : ((max - min + 1).toNat : ℝ) = max.toNat - min.toNat + 1 := by
      rw [itemsCount_toNat h hcount, Nat.cast_add,
        Nat.cast_sub (UInt64.le_iff_toNat_le.mp h), Nat.cast_one]
    simp only [hcount, false_or, hitems]
    constructor <;> intro hlt <;> linarith

/-- A fraction that a `float` holds, close enough to one to become the next key. -/
theorem beta_escapes : (BetaGenerator.make 0 9).sample (7996783 / 8388608) = some 10 := by
  have hzero : (0 : UInt64).toNat = 0 := rfl
  have hcount : ((9 : UInt64) - 0 + 1).toNat = 10 := by decide
  have hround : roundAway ((0 : ℕ) + 7996783 / 8388608 * (10 : ℕ)) = 10 := by
    rw [roundAway, if_pos (by norm_num), Int.floor_eq_iff]
    norm_num
  change toSize (roundAway ((0 : UInt64).toNat +
    7996783 / 8388608 * ((9 : UInt64) - 0 + 1).toNat)) = some 10
  rw [hzero, hcount, hround, toSize_intCast (by decide)]
  rfl

theorem beta_in_range_half :
    ∃ key, (BetaGenerator.make 0 9).sample (1 / 2) = some key ∧ 0 ≤ key ∧ key ≤ 9 := by
  refine (beta_in_range_iff (by decide) (by norm_num)).mpr (Or.inr ?_)
  have hcount : ((9 : UInt64) - 0 + 1).toNat = 10 := by decide
  rw [hcount]
  norm_num

end

end Ucsb
