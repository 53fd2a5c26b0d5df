import Ucsb.ZipfianSampling

namespace Ucsb

namespace ZipfianSampler

/-- The constant shrinks when the range moves up. -/
theorem zetaRange_lt {min rounds : ℕ} (hmin : 0 < min) (hrounds : 0 < rounds) :
    zetaRange zipfianConst min rounds < zetaRange zipfianConst 0 rounds := by
  have hterm : ∀ k, 1 / ((min + 1 + k : ℕ) : ℝ) ^ zipfianConst <
      1 / ((0 + 1 + k : ℕ) : ℝ) ^ zipfianConst := by
    intro k
    have hbase : ((0 + 1 + k : ℕ) : ℝ) < ((min + 1 + k : ℕ) : ℝ) := by
      exact_mod_cast (by omega : 0 + 1 + k < min + 1 + k)
    have hpos : (0 : ℝ) < ((0 + 1 + k : ℕ) : ℝ) := by positivity
    exact one_div_lt_one_div_of_lt (Real.rpow_pos_of_pos hpos _)
      (Real.rpow_lt_rpow hpos.le hbase (by norm_num [zipfianConst]))
  exact Finset.sum_lt_sum_of_nonempty (by simpa using hrounds.ne') fun k _ => hterm k

theorem one_lt_zetaRange {rounds : ℕ} (h : 2 ≤ rounds) :
    1 < zetaRange zipfianConst 0 rounds := by
  have hsubset : Finset.range 2 ⊆ Finset.range rounds := Finset.range_subset_range.mpr h
  have hnonneg : ∀ k ∈ Finset.range rounds, k ∉ Finset.range 2 →
      0 ≤ 1 / ((0 + 1 + k : ℕ) : ℝ) ^ zipfianConst := fun k _ _ => by positivity
  have htwo : ∑ k ∈ Finset.range 2, 1 / ((0 + 1 + k : ℕ) : ℝ) ^ zipfianConst =
      1 + 1 / 2 ^ zipfianConst := by
    norm_num [Finset.sum_range_succ]
  have hpos : (0 : ℝ) < 1 / 2 ^ zipfianConst := by positivity
  calc (1 : ℝ) < 1 + 1 / 2 ^ zipfianConst := by linarith
    _ = ∑ k ∈ Finset.range 2, 1 / ((0 + 1 + k : ℕ) : ℝ) ^ zipfianConst := htwo.symm
    _ ≤ zetaRange zipfianConst 0 rounds := Finset.sum_le_sum_of_subset_of_nonneg hsubset hnonneg

/-- A range of two returns its lower end for every draw. -/
theorem Made.generate_two {g : ZipfianSampler} {min max : UInt64} {u : ℝ} (hg : g.Made min max)
    (htwo : max.toNat - min.toNat = 1) (hu : 0 ≤ u) (hu' : u < 1) : g.generate u = some min := by
  have hzeta : g.zetaN ≤ 1 := by
    rw [hg.zetaN, htwo]
    exact zetaRange_one_le min.toNat
  have hfirst : u * g.zetaN < 1 := by nlinarith
  simp only [generate, generateOf, if_pos hfirst, hg.base]

theorem range_toNat {min n : UInt64} (hn : 2 ≤ n.toNat) (hfit : min.toNat + n.toNat ≤ 2 ^ 64) :
    (n - 1).toNat = n.toNat - 1 ∧ (min + (n - 1)).toNat = min.toNat + n.toNat - 1 := by
  have hpred : (n - 1).toNat = n.toNat - 1 :=
    UInt64.toNat_sub_of_le _ _ (UInt64.le_iff_toNat_le.mpr (by rw [UInt64.toNat_one]; omega))
  refine ⟨hpred, ?_⟩
  rw [UInt64.toNat_add, hpred, Nat.mod_eq_of_lt (by omega)]
  omega

/-- The draw at the border of the first two ranks of a range from zero on is inside the first
rank of a range that starts higher. -/
theorem sample_border {min n : UInt64} (hmin : 0 < min.toNat) (hn : 3 ≤ n.toNat)
    (hfit : min.toNat + n.toNat < 2 ^ 64) :
    ∃ u : ℝ, 0 ≤ u ∧ u < 1 ∧ sample min (min + (n - 1)) u = some min ∧
      sample 0 (n - 1) u = some 1 := by
  obtain ⟨hpred, hmax⟩ := range_toNat (by omega) hfit.le
  have hzero : (0 : UInt64).toNat = 0 := rfl
  have hrange : min < min + (n - 1) := UInt64.lt_iff_toNat_lt.mpr (by omega)
  have hrange₀ : 0 < n - 1 := UInt64.lt_iff_toNat_lt.mpr (by omega)
  obtain ⟨g, hmake, hg⟩ := make_eq hrange (by omega) (by omega)
  obtain ⟨g₀, hmake₀, hg₀⟩ := make_eq hrange₀ (by omega) (by omega)
  have hone : 1 < zetaRange zipfianConst 0 (n.toNat - 1) := one_lt_zetaRange (by omega)
  have hless : zetaRange zipfianConst min.toNat (n.toNat - 1) <
      zetaRange zipfianConst 0 (n.toNat - 1) := zetaRange_lt hmin (by omega)
  let u := 1 / zetaRange zipfianConst 0 (n.toNat - 1)
  have hpos : 0 < u := by positivity
  have hzeta₀ : g₀.zetaN = zetaRange zipfianConst 0 (n.toNat - 1) := by
    rw [hg₀.zetaN, hpred]
    rfl
  have hzeta : g.zetaN = zetaRange zipfianConst min.toNat (n.toNat - 1) := by
    rw [hg.zetaN, hmax]
    congr 1
    omega
  have hborder : u * g₀.zetaN = 1 := by
    rw [hzeta₀]
    exact one_div_mul_cancel (by linarith)
  have hbelow : u * g.zetaN < 1 := by
    rw [← hborder, hzeta, hzeta₀]
    exact mul_lt_mul_of_pos_left hless hpos
  have hsecond : ¬u * g₀.zetaN < 1 ∧ u * g₀.zetaN < 1 + 0.5 ^ g₀.theta := by
    have := half_rpow_pos g₀.theta
    rw [hborder]
    exact ⟨lt_irrefl 1, by linarith⟩
  refine ⟨u, hpos.le, (div_lt_one (by linarith)).mpr hone, ?_, ?_⟩
  · rw [sample, hmake, Option.bind_some, generate, generateOf]
    simp only [if_pos hbelow, hg.base]
  · rw [sample, hmake₀, Option.bind_some, generate, generateOf]
    simp only [if_neg hsecond.1, if_pos hsecond.2, hg₀.base, UInt64.zero_add]

/-- Two ranges of as many items draw the same ranks exactly when both start at zero or have two
items, and their constructors end. -/
theorem sample_shift_iff {min n : UInt64} (hn : 2 ≤ n) (hfit : min.toNat + n.toNat ≤ 2 ^ 64) :
    (∀ u : ℝ, 0 ≤ u → u < 1 → ∃ value rank, sample min (min + (n - 1)) u = some value ∧
        sample 0 (n - 1) u = some rank ∧ value.toNat = min.toNat + rank.toNat) ↔
      (min = 0 ∨ n = 2) ∧ min.toNat + n.toNat ≠ 2 ^ 64 ∧ n.toNat + 1 ≠ 2 ^ 64 := by
  have htwo : 2 ≤ n.toNat := UInt64.le_iff_toNat_le.mp hn
  obtain ⟨hpred, hmax⟩ := range_toNat htwo hfit
  have hzero : (0 : UInt64).toNat = 0 := rfl
  have hrange : min < min + (n - 1) := UInt64.lt_iff_toNat_lt.mpr (by omega)
  have hrange₀ : 0 < n - 1 := UInt64.lt_iff_toNat_lt.mpr (by omega)
  constructor
  · intro hsame
    obtain ⟨value, rank, hvalue, hrank, -⟩ := hsame 0 le_rfl one_pos
    obtain ⟨hend, hcount⟩ := ends_of_sample hrange hvalue
    refine ⟨?_, by omega, by omega⟩
    by_contra hneither
    rw [not_or] at hneither
    have hmin : min.toNat ≠ 0 := fun heq => hneither.1 (UInt64.toNat_inj.mp heq)
    have hthree : n.toNat ≠ 2 := fun heq => hneither.2 (UInt64.toNat_inj.mp heq)
    obtain ⟨u, hu, hu', hlow, hhigh⟩ :=
      sample_border (Nat.pos_of_ne_zero hmin) (by omega : 3 ≤ n.toNat) (by omega)
    obtain ⟨value, rank, hvalue, hrank, hshift⟩ := hsame u hu hu'
    cases Option.some.inj (hlow.symm.trans hvalue)
    cases Option.some.inj (hhigh.symm.trans hrank)
    rw [UInt64.toNat_one] at hshift
    omega
  · rintro ⟨hor, hend, hcount⟩ u hu hu'
    rcases hor with rfl | rfl
    · obtain ⟨value, hvalue, -⟩ :=
        (sample_mem_iff hrange₀ hu hu').mpr ⟨by omega, by omega⟩
      refine ⟨value, value, ?_, hvalue, by rw [hzero, zero_add]⟩
      rwa [UInt64.zero_add]
    · obtain ⟨g, hmake, hg⟩ := make_eq hrange (by omega) (by omega)
      obtain ⟨g₀, hmake₀, hg₀⟩ := make_eq hrange₀ (by omega) (by omega)
      have htwo' : (2 : UInt64).toNat = 2 := rfl
      refine ⟨min, 0, ?_, ?_, rfl⟩
      · rw [sample, hmake, Option.bind_some, hg.generate_two (by omega) hu hu']
      · rw [sample, hmake₀, Option.bind_some, hg₀.generate_two (by omega) hu hu']

/-- Three keys from one on do not draw the ranks of three keys from zero on. -/
theorem sample_shift_three :
    ¬∀ u : ℝ, 0 ≤ u → u < 1 → ∃ value rank, sample 1 (1 + (3 - 1)) u = some value ∧
      sample 0 (3 - 1) u = some rank ∧ value.toNat = (1 : UInt64).toNat + rank.toNat := by
  intro hsame
  obtain ⟨u, hu, hu', hlow, hhigh⟩ :=
    sample_border (by decide : 0 < (1 : UInt64).toNat) (by decide : 3 ≤ (3 : UInt64).toNat)
      (by decide)
  obtain ⟨value, rank, hvalue, hrank, hshift⟩ := hsame u hu hu'
  cases Option.some.inj (hlow.symm.trans hvalue)
  cases Option.some.inj (hhigh.symm.trans hrank)
  exact absurd hshift (by decide)

theorem sample_shift_two :
    ∃ value rank, sample 7 (7 + (2 - 1)) (9 / 10) = some value ∧
      sample 0 (2 - 1) (9 / 10) = some rank ∧
      value.toNat = (7 : UInt64).toNat + rank.toNat :=
  (sample_shift_iff (UInt64.le_refl 2) (by decide)).mpr (by decide) (9 / 10)
    (by norm_num) (by norm_num)

end ZipfianSampler

end Ucsb
