import Mathlib.Algebra.Order.Floor.Semifield
import Mathlib.Data.Rat.Floor
import Mathlib.Tactic.Ring
import Ucsb.ExceptRules

namespace Ucsb

open ExceptRules

/-- The counts and units that are printed. -/
structure Figure where
  major : ℕ
  majorUnit : String
  minor : ℕ
  minorUnit : String
  deriving DecidableEq, Repr

/-- One call of `resolve`: the figure to print, or the duration in the next unit. The division
is read as exact, not as that of `double`. -/
def resolve (duration : ℚ) (period : UInt64) (majUnit minUnit : String) : Except Figure ℚ :=
  if duration > period.toNat then .ok (duration / period.toNat)
  else
    let major := ⌊duration⌋₊
    .error ⟨major, majUnit, ⌊(duration - major) * period.toNat⌋₊, minUnit⟩

/-- The calls of `resolve` in turn, up to the first figure. -/
def resolveUnits (duration : ℚ) : Except Figure ℚ := do
  let duration ← resolve duration 1000 "ms" ""
  let duration ← resolve duration 60 "s" "ms"
  let duration ← resolve duration 60 "m" "s"
  let duration ← resolve duration 24 "h" "m"
  resolve duration 18446744073709551615 "d" "h"

def resolveDuration (v : UInt64) : Figure :=
  match resolveUnits v.toNat with
  | .error figure => figure
  | .ok _ => ⟨0, "", 0, ""⟩

def Figure.format (figure : Figure) : String :=
  let strDuration := toString figure.major ++ figure.majorUnit
  if figure.minorUnit.isEmpty then strDuration
  else strDuration ++ " " ++ toString figure.minor ++ figure.minorUnit

def formatDuration (v : UInt64) : String := (resolveDuration v).format

/-- The length of a unit in milliseconds. -/
def unitLength : String → ℕ
  | "ms" => 1
  | "s" => 1000
  | "m" => 60000
  | "h" => 3600000
  | "d" => 86400000
  | _ => 0

/-- The figure is the duration, exactly or cut to its minor unit. -/
def Figure.Denotes (figure : Figure) (d : ℕ) : Prop :=
  (figure.minorUnit = "" → figure.major * unitLength figure.majorUnit = d) ∧
    (figure.minorUnit ≠ "" →
      figure.major * unitLength figure.majorUnit + figure.minor * unitLength figure.minorUnit ≤ d ∧
        d < figure.major * unitLength figure.majorUnit +
          (figure.minor + 1) * unitLength figure.minorUnit ∧
        figure.minor * unitLength figure.minorUnit < unitLength figure.majorUnit)

/-- What is left over the major unit where the period is not its length in the minor one. -/
def WholeWhereOff (d : ℕ) : Prop :=
  (1000 < d → d ≤ 60000 → d % 1000 = 0) ∧
    (3600000 < d → d ≤ 86400000 → d % 3600000 < 60000) ∧
    (86400000 < d → d % 86400000 = 0)

theorem resolve_div (n u : ℕ) (hu : 0 < u) (period : UInt64) (majUnit minUnit : String) :
    resolve ((n : ℚ) / u) period majUnit minUnit =
      if period.toNat * u < n then .ok ((n : ℚ) / (u * period.toNat : ℕ))
      else .error ⟨n / u, majUnit, n % u * period.toNat / u, minUnit⟩ := by
  have hu' : (0 : ℚ) < u := Nat.cast_pos.mpr hu
  have hgt : (n : ℚ) / u > period.toNat ↔ period.toNat * u < n := by
    rw [gt_iff_lt, lt_div_iff₀ hu']
    exact_mod_cast Iff.rfl
  have hrest : ((n : ℚ) / u - (n / u : ℕ)) * period.toNat =
      ((n % u * period.toNat : ℕ) : ℚ) / u := by
    have hdiv : (n : ℚ) = u * (n / u : ℕ) + (n % u : ℕ) := by
      exact_mod_cast (Nat.div_add_mod n u).symm
    rw [Nat.cast_mul, eq_div_iff hu'.ne', sub_mul, sub_mul, div_mul_eq_mul_div, div_mul_cancel₀]
    · rw [hdiv]
      ring
    · exact hu'.ne'
  unfold resolve
  simp only [hgt, Nat.floor_div_eq_div, hrest]
  split
  · rw [Nat.cast_mul, div_div]
  · rfl

/-- What is printed for a number of milliseconds. -/
theorem resolveDuration_eq (v : UInt64) :
    resolveDuration v =
      if v.toNat ≤ 1000 then ⟨v.toNat, "ms", 0, ""⟩
      else if v.toNat ≤ 60000 then ⟨v.toNat / 1000, "s", v.toNat % 1000 * 60 / 1000, "ms"⟩
      else if v.toNat ≤ 3600000 then ⟨v.toNat / 60000, "m", v.toNat % 60000 * 60 / 60000, "s"⟩
      else if v.toNat ≤ 86400000 then
        ⟨v.toNat / 3600000, "h", v.toNat % 3600000 * 24 / 3600000, "m"⟩
      else ⟨v.toNat / 86400000, "d",
        v.toNat % 86400000 * 18446744073709551615 / 86400000, "h"⟩ := by
  have hv := v.toNat_lt
  have hms : resolve v.toNat 1000 "ms" "" = if 1000 < v.toNat then .ok (v.toNat / (1000 : ℕ))
      else .error ⟨v.toNat, "ms", 0, ""⟩ := by
    have h := resolve_div v.toNat 1 (by decide) 1000 "ms" ""
    rwa [Nat.cast_one, div_one, Nat.div_one, Nat.mod_one, Nat.mul_one, Nat.one_mul, Nat.zero_mul,
      Nat.zero_div] at h
  have hs : resolve (v.toNat / (1000 : ℕ)) 60 "s" "ms" =
      if 60000 < v.toNat then .ok (v.toNat / (60000 : ℕ))
      else .error ⟨v.toNat / 1000, "s", v.toNat % 1000 * 60 / 1000, "ms"⟩ :=
    resolve_div v.toNat 1000 (by decide) 60 "s" "ms"
  have hm : resolve (v.toNat / (60000 : ℕ)) 60 "m" "s" =
      if 3600000 < v.toNat then .ok (v.toNat / (3600000 : ℕ))
      else .error ⟨v.toNat / 60000, "m", v.toNat % 60000 * 60 / 60000, "s"⟩ :=
    resolve_div v.toNat 60000 (by decide) 60 "m" "s"
  have hh : resolve (v.toNat / (3600000 : ℕ)) 24 "h" "m" =
      if 86400000 < v.toNat then .ok (v.toNat / (86400000 : ℕ))
      else .error ⟨v.toNat / 3600000, "h", v.toNat % 3600000 * 24 / 3600000, "m"⟩ :=
    resolve_div v.toNat 3600000 (by decide) 24 "h" "m"
  have hd : resolve (v.toNat / (86400000 : ℕ)) 18446744073709551615 "d" "h" =
      .error ⟨v.toNat / 86400000, "d",
        v.toNat % 86400000 * 18446744073709551615 / 86400000, "h"⟩ := by
    rw [resolve_div v.toNat 86400000 (by decide) 18446744073709551615 "d" "h", if_neg]
    · rfl
    · rw [show (18446744073709551615 : UInt64).toNat = 18446744073709551615 from rfl]
      omega
  unfold resolveDuration resolveUnits
  by_cases h0 : v.toNat ≤ 1000
  · rw [if_pos h0, hms, if_neg (by omega)]
    rfl
  rw [if_neg h0, hms, if_pos (by omega), ok_bind, hs]
  by_cases h1 : v.toNat ≤ 60000
  · rw [if_pos h1, if_neg (by omega)]
    rfl
  rw [if_neg h1, if_pos (by omega), ok_bind, hm]
  by_cases h2 : v.toNat ≤ 3600000
  · rw [if_pos h2, if_neg (by omega)]
    rfl
  rw [if_neg h2, if_pos (by omega), ok_bind, hh]
  by_cases h3 : v.toNat ≤ 86400000
  · rw [if_pos h3, if_neg (by omega)]
    rfl
  rw [if_neg h3, if_pos (by omega), ok_bind, hd]

/-- Neither conversion to `size_t` leaves its range. -/
theorem resolveDuration_lt (v : UInt64) :
    (resolveDuration v).major < 2 ^ 64 ∧ (resolveDuration v).minor < 2 ^ 64 := by
  have hv := v.toNat_lt
  rw [resolveDuration_eq]
  split_ifs <;> dsimp only <;> omega

/-- Only the minutes are followed by a count made with their length in the minor unit. -/
theorem duration_denotes_iff (v : UInt64) :
    (resolveDuration v).Denotes v.toNat ↔ WholeWhereOff v.toNat := by
  have hv := v.toNat_lt
  rw [resolveDuration_eq]
  split_ifs
  all_goals
    simp [Figure.Denotes, unitLength, WholeWhereOff]
    omega

example : formatDuration 90500 = "1m 30s" := by
  rw [formatDuration, resolveDuration_eq]
  decide

/-- A second and a half is printed as one second and 30 milliseconds. -/
theorem duration_1500_off : ¬∀ v : UInt64, (resolveDuration v).Denotes v.toNat := by
  intro h
  have hfigure : resolveDuration 1500 = ⟨1, "s", 30, "ms"⟩ := by
    rw [resolveDuration_eq]
    decide
  have hdenotes := h 1500
  rw [hfigure] at hdenotes
  obtain ⟨_, hlt, _⟩ := hdenotes.2 (by decide)
  exact absurd hlt (by decide)

end Ucsb
