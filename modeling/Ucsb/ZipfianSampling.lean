import Mathlib.Analysis.SpecialFunctions.Pow.Real
import Ucsb.Workload

namespace Ucsb

noncomputable section

/-- The conversion of a real number to `size_t`; without a result it is undefined. -/
def toSize (x : ℝ) : Option UInt64 :=
  if -1 < x ∧ x < 2 ^ 64 then some (UInt64.ofNat ⌊x⌋₊) else none

/-- `roundf` on the real numbers. -/
def roundAway (x : ℝ) : ℤ := if 0 ≤ x then ⌊x + 1 / 2⌋ else ⌈x - 1 / 2⌉

/-- `zipfian_generator_t`, with the arithmetic of its `float` members read as that of the
reals. The assertion on the number of items is empty in the release build. -/
structure ZipfianSampler where
  itemsCount : UInt64
  base : UInt64
  theta : ℝ
  zetaN : ℝ
  eta : ℝ
  alpha : ℝ

namespace ZipfianSampler

def zipfianConst : ℝ := 0.6

/-- The loop of `zeta` from index `i`, by the number of its rounds. -/
def zetaLoop (theta : ℝ) : ℕ → ℕ → ℝ → ℝ
  | 0, _, zeta => zeta
  | n + 1, i, zeta => zetaLoop theta n (i + 1) (zeta + 1 / (i : ℝ) ^ theta)

/-- With the largest `size_t` as its bound the loop does not end. -/
def zeta (lastNum curNum : UInt64) (theta lastZeta : ℝ) : Option ℝ :=
  if curNum.toNat + 1 = 2 ^ 64 then none
  else
    let first := (lastNum + 1).toNat
    some (zetaLoop theta (curNum.toNat + 1 - first) first lastZeta)

def etaOf (itemsCount : UInt64) (theta zeta2 zetaN : ℝ) : ℝ :=
  (1 - (2 / (itemsCount.toNat : ℝ)) ^ (1 - theta)) / (1 - zeta2 / zetaN)

/-- `zipfian_generator_t(min, max)`. The first value of `zeta` is handed on and not used, and
so is what the constructor generates. -/
def make (min max : UInt64) : Option ZipfianSampler := do
  let itemsCount := max - min + 1
  let _ ← zeta 0 itemsCount zipfianConst 0
  let zeta2 ← zeta 0 2 zipfianConst 0
  let zetaN ← zeta min max zipfianConst 0
  some
    { itemsCount := itemsCount
      base := min
      theta := zipfianConst
      zetaN := zetaN
      eta := etaOf itemsCount zipfianConst zeta2 zetaN
      alpha := 1 / (1 - zipfianConst) }

/-- `generate(num)` for the draw `u`. -/
def generateOf (g : ZipfianSampler) (num : UInt64) (u : ℝ) : Option UInt64 :=
  let uz := u * g.zetaN
  if uz < 1 then some g.base
  else if uz < 1 + 0.5 ^ g.theta then some (g.base + 1)
  else toSize (g.base.toNat + num.toNat * (g.eta * u - g.eta + 1) ^ g.alpha)

def generate (g : ZipfianSampler) (u : ℝ) : Option UInt64 := g.generateOf g.itemsCount u

/-- The value a generator of the range `[min, max]` returns for the draw `u`. -/
def sample (min max : UInt64) (u : ℝ) : Option UInt64 := (make min max).bind (·.generate u)

theorem zetaLoop_eq (theta : ℝ) (rounds i : ℕ) (zeta : ℝ) :
    zetaLoop theta rounds i zeta =
      zeta + ∑ k ∈ Finset.range rounds, 1 / ((i + k : ℕ) : ℝ) ^ theta := by
  induction rounds generalizing i zeta with
  | zero => simp [zetaLoop]
  | succ n ih =>
    rw [zetaLoop, ih, Finset.sum_range_succ', add_zero, add_assoc, add_comm (1 / _)]
    simp only [Nat.add_right_comm i 1, Nat.add_assoc i]

/-- The normalizing constant of a range. -/
def zetaRange (theta : ℝ) (min rounds : ℕ) : ℝ :=
  ∑ k ∈ Finset.range rounds, 1 / ((min + 1 + k : ℕ) : ℝ) ^ theta

theorem zeta_eq {lastNum curNum : UInt64} (h : lastNum < curNum)
    (hends : curNum.toNat + 1 ≠ 2 ^ 64) (theta : ℝ) :
    zeta lastNum curNum theta 0 =
      some (zetaRange theta lastNum.toNat (curNum.toNat - lastNum.toNat)) := by
  have hlt := UInt64.lt_iff_toNat_lt.mp h
  have hbound := curNum.toNat_lt
  have hfirst : (lastNum + 1).toNat = lastNum.toNat + 1 := by
    rw [UInt64.toNat_add, UInt64.toNat_one, Nat.mod_eq_of_lt (by omega)]
  have hrounds : curNum.toNat + 1 - (lastNum.toNat + 1) = curNum.toNat - lastNum.toNat := by omega
  simp only [zeta, if_neg hends, hfirst, hrounds, zetaLoop_eq, zero_add, zetaRange]

theorem zeta_two (theta : ℝ) : zeta 0 2 theta 0 = some (1 + 0.5 ^ theta) := by
  have hhalf : (0.5 : ℝ) ^ theta = 1 / 2 ^ theta := by
    rw [show (0.5 : ℝ) = 2⁻¹ by norm_num, Real.inv_rpow (by norm_num), one_div]
  have hrange : zetaRange theta 0 2 = 1 + 1 / 2 ^ theta := by
    norm_num [zetaRange, Finset.sum_range_succ]
  rw [zeta_eq (by decide) (by decide), hhalf, ← hrange]
  rfl

theorem half_rpow_pos (theta : ℝ) : (0 : ℝ) < 0.5 ^ theta := Real.rpow_pos_of_pos (by norm_num) _

/-- The argument of the power in the last branch of `generate` lies between `(2/n)^(1-theta)`
and one: the guard of the branch bounds the draw from below. -/
theorem inverse_bounds {n zetaN zeta2 u theta : ℝ} (htheta : theta < 1) (hn : 2 < n)
    (hzeta : 0 < zeta2) (hu : 0 ≤ u) (hu' : u < 1) (hbranch : zeta2 ≤ u * zetaN) :
    let eta := (1 - (2 / n) ^ (1 - theta)) / (1 - zeta2 / zetaN)
    (2 / n) ^ (1 - theta) ≤ eta * u - eta + 1 ∧ eta * u - eta + 1 < 1 := by
  intro eta
  have hratio : 0 < 2 / n ∧ 2 / n < 1 :=
    ⟨by positivity, (div_lt_one (by linarith)).mpr hn⟩
  have hpower : (2 / n) ^ (1 - theta) < 1 := Real.rpow_lt_one hratio.1.le hratio.2 (by linarith)
  have hzetaN : 0 < zetaN := pos_of_mul_pos_right (hzeta.trans_le hbranch) hu
  have hguard : zeta2 / zetaN ≤ u := (div_le_iff₀ hzetaN).mpr hbranch
  have hden : 0 < 1 - zeta2 / zetaN := by linarith
  have heta : 0 < eta := div_pos (by linarith) hden
  have hscaled : eta * (1 - zeta2 / zetaN) = 1 - (2 / n) ^ (1 - theta) :=
    div_mul_cancel₀ _ hden.ne'
  have hdraw : eta * (1 - u) ≤ eta * (1 - zeta2 / zetaN) :=
    mul_le_mul_of_nonneg_left (by linarith) heta.le
  have hpos : 0 < eta * (1 - u) := mul_pos heta (by linarith)
  constructor <;> nlinarith

theorem inverse_power_bounds {n x theta : ℝ} (htheta : theta < 1) (hn : 2 < n)
    (hlow : (2 / n) ^ (1 - theta) ≤ x) (hhigh : x < 1) :
    2 / n ≤ x ^ (1 / (1 - theta)) ∧ x ^ (1 / (1 - theta)) < 1 := by
  have hratio : 0 < 2 / n := by positivity
  have hexp : 0 < 1 / (1 - theta) := by
    have : 0 < 1 - theta := by linarith
    positivity
  have hroot : ((2 / n) ^ (1 - theta)) ^ (1 / (1 - theta)) = 2 / n := by
    rw [← Real.rpow_mul hratio.le, mul_one_div_cancel (by linarith), Real.rpow_one]
  have hx : 0 ≤ x := (Real.rpow_nonneg hratio.le _).trans hlow
  refine ⟨?_, Real.rpow_lt_one hx hhigh hexp⟩
  calc 2 / n = ((2 / n) ^ (1 - theta)) ^ (1 / (1 - theta)) := hroot.symm
    _ ≤ x ^ (1 / (1 - theta)) :=
      Real.rpow_le_rpow (Real.rpow_nonneg hratio.le _) hlow hexp.le

theorem toSize_eq {x : ℝ} {low high : ℕ} (hlow : (low : ℝ) ≤ x) (hhigh : x < high)
    (hfit : high ≤ 2 ^ 64) :
    ∃ v, toSize x = some v ∧ low ≤ v.toNat ∧ v.toNat < high := by
  have hx : 0 ≤ x := (Nat.cast_nonneg low).trans hlow
  have hcast : (high : ℝ) ≤ 2 ^ 64 := by exact_mod_cast hfit
  have hfloor : ⌊x⌋₊ < high := (Nat.floor_lt hx).mpr hhigh
  have hvalue : (UInt64.ofNat ⌊x⌋₊).toNat = ⌊x⌋₊ := by
    rw [UInt64.toNat_ofNat', Nat.mod_eq_of_lt (hfloor.trans_le hfit)]
  refine ⟨UInt64.ofNat ⌊x⌋₊, if_pos ⟨by linarith, by linarith⟩, ?_, ?_⟩
  · rw [hvalue]
    exact Nat.le_floor hlow
  · rwa [hvalue]

/-- What the constructor leaves, for a range on which both of its loops end. -/
structure Made (g : ZipfianSampler) (min max : UInt64) : Prop where
  base : g.base = min
  itemsCount : g.itemsCount.toNat = max.toNat - min.toNat + 1
  theta : g.theta = zipfianConst
  alpha : g.alpha = 1 / (1 - zipfianConst)
  zetaN : g.zetaN = zetaRange zipfianConst min.toNat (max.toNat - min.toNat)
  eta : g.eta = etaOf g.itemsCount zipfianConst (1 + 0.5 ^ zipfianConst) g.zetaN

theorem make_eq {min max : UInt64} (h : min < max) (hmax : max.toNat + 1 ≠ 2 ^ 64)
    (hcount : max.toNat - min.toNat + 2 ≠ 2 ^ 64) :
    ∃ g, make min max = some g ∧ g.Made min max := by
  have hlt := UInt64.lt_iff_toNat_lt.mp h
  have hbound := max.toNat_lt
  have hsub : (max - min).toNat = max.toNat - min.toNat :=
    UInt64.toNat_sub_of_le _ _ (UInt64.le_of_lt h)
  have hitems : (max - min + 1).toNat = max.toNat - min.toNat + 1 := by
    rw [UInt64.toNat_add, hsub, UInt64.toNat_one, Nat.mod_eq_of_lt (by omega)]
  have hpositive : 0 < max - min + 1 := by
    rw [UInt64.lt_iff_toNat_lt, hitems]
    exact Nat.succ_pos _
  have hends : (max - min + 1).toNat + 1 ≠ 2 ^ 64 := by omega
  simp only [make, zeta_eq hpositive hends, zeta_two, zeta_eq h hmax, Option.bind_eq_bind,
    Option.bind_some]
  exact ⟨_, rfl, rfl, hitems, rfl, rfl, rfl, rfl⟩

theorem make_eq_none {min max : UInt64} (h : min < max)
    (hends : max.toNat + 1 = 2 ^ 64 ∨ max.toNat - min.toNat + 2 = 2 ^ 64) :
    make min max = none := by
  have hlt := UInt64.lt_iff_toNat_lt.mp h
  have hbound := max.toNat_lt
  rcases hends with hmax | hcount
  · have hnone : zeta min max zipfianConst 0 = none := if_pos hmax
    simp only [make, hnone, zeta_two, Option.bind_eq_bind, Option.bind_some, Option.bind_none]
    cases zeta 0 (max - min + 1) zipfianConst 0 <;> rfl
  · have hsub : (max - min).toNat = max.toNat - min.toNat :=
      UInt64.toNat_sub_of_le _ _ (UInt64.le_of_lt h)
    have hitems : (max - min + 1).toNat + 1 = 2 ^ 64 := by
      rw [UInt64.toNat_add, hsub, UInt64.toNat_one, Nat.mod_eq_of_lt (by omega)]
      omega
    have hnone : zeta 0 (max - min + 1) zipfianConst 0 = none := if_pos hitems
    simp only [make, hnone, Option.bind_eq_bind, Option.bind_none]

theorem zetaRange_one_le (min : ℕ) : zetaRange zipfianConst min 1 ≤ 1 := by
  have hbase : (1 : ℝ) ≤ ((min + 1 + 0 : ℕ) : ℝ) := by exact_mod_cast Nat.le_add_left 1 min
  have hpower : (1 : ℝ) ≤ ((min + 1 + 0 : ℕ) : ℝ) ^ zipfianConst :=
    Real.one_le_rpow hbase (by norm_num [zipfianConst])
  simpa [zetaRange] using inv_le_one_of_one_le₀ hpower

/-- Every draw gives a value of the range, also when the range is the number of items that was
counted later. -/
theorem Made.generateOf_mem {g : ZipfianSampler} {min max num : UInt64} {u : ℝ}
    (hg : g.Made min max) (h : min < max) (hu : 0 ≤ u) (hu' : u < 1)
    (hnum : g.itemsCount ≤ num) (hfit : min.toNat + num.toNat ≤ 2 ^ 64) :
    ∃ v, g.generateOf num u = some v ∧ min.toNat ≤ v.toNat ∧
      v.toNat < min.toNat + num.toNat := by
  have hlt := UInt64.lt_iff_toNat_lt.mp h
  have hitems := hg.itemsCount
  have hcount := UInt64.le_iff_toNat_le.mp hnum
  simp only [generateOf, hg.base, hg.theta, hg.alpha]
  split
  next => exact ⟨min, rfl, le_rfl, by omega⟩
  next =>
    split
    next =>
      have hnext : (min + 1).toNat = min.toNat + 1 := by
        rw [UInt64.toNat_add, UInt64.toNat_one, Nat.mod_eq_of_lt (by omega)]
      exact ⟨min + 1, rfl, by omega, by omega⟩
    next hfirst hbranch =>
      rw [not_lt] at hfirst hbranch
      have hn : 2 < g.itemsCount.toNat := by
        by_contra hsmall
        have hone : max.toNat - min.toNat = 1 := by omega
        have hzeta : g.zetaN ≤ 1 := by
          rw [hg.zetaN, hone]
          exact zetaRange_one_le min.toNat
        nlinarith
      have hn' : (2 : ℝ) < g.itemsCount.toNat := by exact_mod_cast hn
      have htheta : zipfianConst < 1 := by norm_num [zipfianConst]
      have hzeta2 : (0 : ℝ) < 1 + 0.5 ^ zipfianConst := by
        have := half_rpow_pos zipfianConst
        linarith
      obtain ⟨hlow, hhigh⟩ := inverse_bounds htheta hn' hzeta2 hu hu' hbranch
      rw [← etaOf, ← hg.eta] at hlow hhigh
      obtain ⟨hpos, hone⟩ := inverse_power_bounds htheta hn' hlow hhigh
      have hnumPos : (0 : ℝ) < num.toNat := by exact_mod_cast (by omega : 0 < num.toNat)
      have hpower : 0 < (g.eta * u - g.eta + 1) ^ (1 / (1 - zipfianConst)) :=
        lt_of_lt_of_le (by positivity) hpos
      refine toSize_eq (le_add_of_nonneg_right (by positivity)) ?_ hfit
      push_cast
      exact add_lt_add_right (mul_lt_of_lt_one_right hnumPos hone) _

end ZipfianSampler

/-- `skewed_latest_generator_t`, where the counter stood at `last` when it was built. -/
structure SkewedLatestSampler where
  zipfian : ZipfianSampler

namespace SkewedLatestSampler

def make (last : UInt64) : Option SkewedLatestSampler :=
  (ZipfianSampler.make 0 (last - 1)).map SkewedLatestSampler.mk

/-- `generate` when `last()` of the counter is `max`. -/
def generate (g : SkewedLatestSampler) (max : UInt64) (u : ℝ) : Option UInt64 :=
  (g.zipfian.generateOf max u).map (max - ·)

end SkewedLatestSampler

theorem ZipfianSampler.ends_of_sample {min max value : UInt64} {u : ℝ} (h : min < max)
    (hvalue : sample min max u = some value) :
    max.toNat + 1 ≠ 2 ^ 64 ∧ max.toNat - min.toNat + 2 ≠ 2 ^ 64 := by
  rw [← not_or]
  intro hends
  rw [sample, make_eq_none h hends] at hvalue
  simp at hvalue

theorem ZipfianSampler.sample_mem_iff {min max : UInt64} {u : ℝ} (h : min < max) (hu : 0 ≤ u)
    (hu' : u < 1) :
    (∃ value, sample min max u = some value ∧ min ≤ value ∧ value ≤ max) ↔
      max.toNat + 1 ≠ 2 ^ 64 ∧ max.toNat - min.toNat + 2 ≠ 2 ^ 64 := by
  have hlt := UInt64.lt_iff_toNat_lt.mp h
  have hbound := max.toNat_lt
  constructor
  · rintro ⟨value, hvalue, -⟩
    exact ends_of_sample h hvalue
  · rintro ⟨hmax, hcount⟩
    obtain ⟨g, hmake, hg⟩ := make_eq h hmax hcount
    have hitems := hg.itemsCount
    obtain ⟨value, hvalue, hlow, hhigh⟩ :=
      hg.generateOf_mem h hu hu' (UInt64.le_refl g.itemsCount) (by omega)
    refine ⟨value, ?_, UInt64.le_iff_toNat_le.mpr hlow, UInt64.le_iff_toNat_le.mpr (by omega)⟩
    rw [sample, hmake, Option.bind_some]
    exact hvalue

theorem SkewedLatestSampler.generate_mem_iff {last now : UInt64} {v : ℝ} (hlast : 2 ≤ last)
    (hnow : last ≤ now) (hv : 0 ≤ v) (hv' : v < 1) :
    (∃ g rank, make last = some g ∧ g.zipfian.generateOf now v = some rank ∧ rank ≤ now ∧
        g.generate now v = some (now - rank) ∧ 1 ≤ now - rank ∧ now - rank ≤ now) ↔
      last.toNat + 1 ≠ 2 ^ 64 := by
  have htwo : 2 ≤ last.toNat := UInt64.le_iff_toNat_le.mp hlast
  have hpred : (last - 1).toNat = last.toNat - 1 :=
    UInt64.toNat_sub_of_le _ _ (UInt64.le_iff_toNat_le.mpr (by rw [UInt64.toNat_one]; omega))
  have hzero : (0 : UInt64).toNat = 0 := rfl
  have hrange : 0 < last - 1 := by
    rw [UInt64.lt_iff_toNat_lt, hpred, hzero]
    omega
  have hbound := last.toNat_lt
  constructor
  · rintro ⟨g, rank, hmake, -⟩ hends
    rw [make, ZipfianSampler.make_eq_none hrange (Or.inr (by omega))] at hmake
    simp at hmake
  · intro hends
    obtain ⟨zipfian, hmake, hg⟩ := ZipfianSampler.make_eq hrange (by omega) (by omega)
    have hitems : zipfian.itemsCount = last := by
      rw [← UInt64.toNat_inj, hg.itemsCount]
      omega
    obtain ⟨rank, hrank, -, hlt⟩ :=
      hg.generateOf_mem hrange hv hv' (hitems ▸ hnow) (by have := now.toNat_lt; omega)
    have hle : rank ≤ now := UInt64.le_iff_toNat_le.mpr (by omega)
    have hdiff : (now - rank).toNat = now.toNat - rank.toNat := UInt64.toNat_sub_of_le _ _ hle
    refine ⟨⟨zipfian⟩, rank, by rw [make, hmake, Option.map_some], hrank, hle, ?_, ?_, ?_⟩
    · rw [generate, hrank, Option.map_some]
    · rw [UInt64.le_iff_toNat_le, hdiff, UInt64.toNat_one]
      omega
    · rw [UInt64.le_iff_toNat_le, hdiff]
      omega

/-- A range and a counter give values in range exactly when the loops of `zeta` end: their
bounds are the upper end of the range and the number of items, and the largest `size_t` is a
bound that no index exceeds. -/
theorem zipfian_in_range_iff {min max last now : UInt64} {u v : ℝ} (h : min < max) (hu : 0 ≤ u)
    (hu' : u < 1) (hlast : 2 ≤ last) (hnow : last ≤ now) (hv : 0 ≤ v) (hv' : v < 1) :
    ((∃ value, ZipfianSampler.sample min max u = some value ∧ min ≤ value ∧ value ≤ max) ∧
      ∃ g rank, SkewedLatestSampler.make last = some g ∧
        g.zipfian.generateOf now v = some rank ∧ rank ≤ now ∧
        g.generate now v = some (now - rank) ∧ 1 ≤ now - rank ∧ now - rank ≤ now) ↔
      (max.toNat + 1 ≠ 2 ^ 64 ∧ max.toNat - min.toNat + 2 ≠ 2 ^ 64) ∧
        last.toNat + 1 ≠ 2 ^ 64 := by
  rw [ZipfianSampler.sample_mem_iff h hu hu',
    SkewedLatestSampler.generate_mem_iff hlast hnow hv hv']

/-- For the two largest keys the constructor does not come to its end, and no draw to a value. -/
theorem zipfian_constructor_diverges :
    ¬∃ (u : ℝ) (value : UInt64),
      ZipfianSampler.sample (UInt64.ofNat (2 ^ 64 - 2)) (UInt64.ofNat (2 ^ 64 - 1)) u =
        some value := by
  rintro ⟨u, value, hvalue⟩
  rw [ZipfianSampler.sample, ZipfianSampler.make_eq_none (by decide) (Or.inl (by decide)),
    Option.bind_none] at hvalue
  cases hvalue

theorem ZipfianSampler.harmonic_le_zetaRange (rounds : ℕ) :
    ∑ k ∈ Finset.range rounds, 1 / ((0 + 1 + k : ℕ) : ℝ) ≤ zetaRange zipfianConst 0 rounds := by
  refine Finset.sum_le_sum fun k _ => ?_
  have hone : (1 : ℝ) ≤ ((0 + 1 + k : ℕ) : ℝ) := by exact_mod_cast (by omega : 1 ≤ 0 + 1 + k)
  exact one_div_le_one_div_of_le (by positivity)
    (Real.rpow_le_self_of_one_le hone (by norm_num [zipfianConst]))

/-- Ten keys and a draw beyond the first two of them, which the power is computed for. -/
theorem zipfian_in_range_ten : ∃ g value, ZipfianSampler.make 0 9 = some g ∧
    1 + 0.5 ^ g.theta ≤ 9 / 10 * g.zetaN ∧ g.generate (9 / 10) = some value ∧ value ≤ 9 ∧
    ∃ rank, g.generateOf 20 (9 / 10) = some rank ∧ 1 ≤ 20 - rank := by
  obtain ⟨⟨value, hvalue, -, hle⟩, skewed, rank, hskewed, hrank, -, -, hpos, -⟩ :=
    (zipfian_in_range_iff (u := 9 / 10) (v := 9 / 10) (by decide : (0 : UInt64) < 9)
      (by norm_num) (by norm_num) (by decide : (2 : UInt64) ≤ 10) (by decide : (10 : UInt64) ≤ 20)
      (by norm_num) (by norm_num)).mpr (by decide)
  obtain ⟨g, hmake, hg⟩ :=
    ZipfianSampler.make_eq (by decide : (0 : UInt64) < 9) (by decide) (by decide)
  have hsame : skewed.zipfian = g := by
    have hten : SkewedLatestSampler.make 10 = some ⟨g⟩ := by
      rw [SkewedLatestSampler.make, show (10 : UInt64) - 1 = 9 by decide, hmake, Option.map_some]
    rw [hten] at hskewed
    exact congrArg SkewedLatestSampler.zipfian (Option.some.inj hskewed).symm
  rw [hsame] at hrank
  rw [ZipfianSampler.sample, hmake, Option.bind_some] at hvalue
  refine ⟨g, value, hmake, ?_, hvalue, hle, rank, hrank, hpos⟩
  have hzeta : 5 / 2 ≤ g.zetaN := by
    rw [hg.zetaN]
    calc (5 / 2 : ℝ) ≤ ∑ k ∈ Finset.range 9, 1 / ((0 + 1 + k : ℕ) : ℝ) := by
          norm_num [Finset.sum_range_succ]
      _ ≤ ZipfianSampler.zetaRange ZipfianSampler.zipfianConst 0 9 :=
          ZipfianSampler.harmonic_le_zetaRange 9
  have hhalf : (0.5 : ℝ) ^ g.theta ≤ 1 := by
    rw [hg.theta]
    exact Real.rpow_le_one (by norm_num) (by norm_num) (by norm_num [ZipfianSampler.zipfianConst])
  linarith

end

end Ucsb
