import Mathlib.Data.Nat.Choose.Basic
import Mathlib.Data.UInt
import Mathlib.Tactic.Linarith
import Ucsb.StepSystem

namespace Ucsb

open StepSystem

/-- `mem_profiler_t::stats_t`. -/
structure MemStats where
  min : UInt64 := 18446744073709551615
  max : UInt64 := 0
  avg : UInt64 := 0
  deriving DecidableEq

/-- The part of `mem_profiler_t` that the sampling thread works on. -/
structure MemProfiler where
  timeToDie : Bool
  statsVms : MemStats
  statsRss : MemStats
  requestsCount : UInt64
  deriving DecidableEq

/-- What `recalculate` does to either of its statistics. The division by zero has no result. -/
def MemStats.recalculate (stats : MemStats) (requestsCount value : UInt64) : Option MemStats :=
  if requestsCount = 0 then none
  else some {
    min := if stats.min < value then stats.min else value
    max := if value < stats.max then stats.max else value
    avg := (stats.avg * (requestsCount - 1) + value) / requestsCount }

namespace MemProfiler

def start (p : MemProfiler) : MemProfiler :=
  if p.timeToDie = false then p
  else { timeToDie := false, statsVms := {}, statsRss := {}, requestsCount := 0 }

def recalculate (p : MemProfiler) (vm rss : UInt64) : Option MemProfiler := do
  let statsVms ← p.statsVms.recalculate p.requestsCount vm
  let statsRss ← p.statsRss.recalculate p.requestsCount rss
  some { p with statsVms := statsVms, statsRss := statsRss }

/-- One round of `request_mem_usage`, for what `mem_usage` finds. -/
def requestMemUsage (p : MemProfiler) (usage : UInt64 × UInt64) : Option MemProfiler :=
  { p with requestsCount := p.requestsCount + 1 }.recalculate usage.1 usage.2

end MemProfiler

def total (values : List UInt64) : ℕ := (values.map UInt64.toNat).sum

/-- The statistics of a non-empty list of samples. -/
structure MemStats.Summarizes (stats : MemStats) (values : List UInt64) : Prop where
  min_mem : stats.min ∈ values
  min_le : ∀ v ∈ values, stats.min ≤ v
  max_mem : stats.max ∈ values
  le_max : ∀ v ∈ values, v ≤ stats.max
  min_le_avg : stats.min ≤ stats.avg
  avg_le_max : stats.avg ≤ stats.max
  avg_le : values.length * stats.avg.toNat ≤ total values
  le_avg : total values - values.length * stats.avg.toNat ≤ values.length * (values.length - 1) / 2

/-- The product and the sum that the next average is made of fit a word. -/
def MemStats.Fits (stats : MemStats) (count : ℕ) (value : UInt64) : Prop :=
  stats.avg.toNat * count < 2 ^ 64 ∧ stats.avg.toNat * count + value.toNat < 2 ^ 64

/-- What holds of the statistics before the first sample and behind every other one. -/
structure MemStats.Follows (stats : MemStats) (values : List UInt64) : Prop where
  empty : values = [] → stats = {}
  summarizes : values ≠ [] → stats.Summarizes values

section

variable {stats stats' : MemStats} {values : List UInt64} {requestsCount value : UInt64}

theorem total_append (values : List UInt64) (value : UInt64) :
    total (values ++ [value]) = total values + value.toNat := by
  simp [total]

/-- The remainder that a truncated average leaves out grows by less than the count. -/
theorem average_bounds {n avg v sum : ℕ} (hlow : n * avg ≤ sum)
    (hhigh : sum ≤ n * avg + n * (n - 1) / 2) :
    (n + 1) * ((avg * n + v) / (n + 1)) ≤ sum + v ∧
      sum + v ≤ (n + 1) * ((avg * n + v) / (n + 1)) + (n + 1) * n / 2 := by
  have htriangle := Nat.triangle_succ n
  rw [Nat.add_sub_cancel] at htriangle
  have hdiv := Nat.div_add_mod (avg * n + v) (n + 1)
  have hmod := Nat.mod_lt (avg * n + v) (show 0 < n + 1 by omega)
  rw [Nat.mul_comm avg n] at hdiv hmod ⊢
  omega

theorem MemStats.Follows.average (h : stats.Follows values) :
    values.length * stats.avg.toNat ≤ total values ∧
      total values ≤ values.length * stats.avg.toNat + values.length * (values.length - 1) / 2 := by
  by_cases hne : values = []
  · simp [hne, total]
  · have hlow := (h.summarizes hne).avg_le
    have hhigh := (h.summarizes hne).le_avg
    omega

theorem MemStats.Follows.fits (h : stats.Follows values)
    (hsum : total values + value.toNat < 2 ^ 64) : stats.Fits values.length value := by
  obtain ⟨hlow, _⟩ := h.average
  rw [Nat.mul_comm] at hlow
  constructor <;> omega

/-- While nothing wraps, the average is computed as in the natural numbers. -/
theorem MemStats.recalculate_eq (hfits : stats.Fits values.length value)
    (hcount : requestsCount.toNat = values.length + 1) :
    ∃ stats', stats.recalculate requestsCount value = some stats' ∧
      stats'.min = (if stats.min < value then stats.min else value) ∧
      stats'.max = (if value < stats.max then stats.max else value) ∧
      stats'.avg.toNat = (stats.avg.toNat * values.length + value.toNat) / (values.length + 1) := by
  have hne : requestsCount ≠ 0 := by
    rintro rfl
    simp at hcount
  have hpred : (requestsCount - 1).toNat = values.length := by
    rw [UInt64.toNat_sub_of_le, hcount]
    · rfl
    · rw [UInt64.le_iff_toNat_le, hcount]
      exact Nat.le_add_left _ _
  refine ⟨_, if_neg hne, rfl, rfl, ?_⟩
  rw [UInt64.toNat_div, hcount, UInt64.toNat_add, UInt64.toNat_mul, hpred,
    Nat.mod_eq_of_lt hfits.1, Nat.mod_eq_of_lt hfits.2]

theorem average_between {n low high avg v : ℕ} (hlow : low ≤ avg ∨ n = 0) (hlow' : low ≤ v)
    (hhigh : avg ≤ high ∨ n = 0) (hhigh' : v ≤ high) :
    low ≤ (avg * n + v) / (n + 1) ∧ (avg * n + v) / (n + 1) ≤ high := by
  constructor
  · rw [Nat.le_div_iff_mul_le (Nat.succ_pos n), Nat.mul_succ]
    rcases hlow with hlow | rfl
    · exact Nat.add_le_add (Nat.mul_le_mul_right n hlow) hlow'
    · simpa using hlow'
  · refine Nat.le_of_lt_succ ((Nat.div_lt_iff_lt_mul (Nat.succ_pos n)).mpr ?_)
    rw [Nat.succ_mul, Nat.mul_succ]
    rcases hhigh with hhigh | rfl
    · have hmul := Nat.mul_le_mul_right n hhigh
      omega
    · omega

theorem MemStats.Follows.extremes (h : stats.Follows values)
    (hmin : stats'.min = if stats.min < value then stats.min else value)
    (hmax : stats'.max = if value < stats.max then stats.max else value) :
    (stats'.min ∈ values ++ [value] ∧ ∀ v ∈ values ++ [value], stats'.min ≤ v) ∧
      stats'.max ∈ values ++ [value] ∧ ∀ v ∈ values ++ [value], v ≤ stats'.max := by
  by_cases hne : values = []
  · have hstats := h.empty hne
    subst hne hstats
    have hlt := value.toNat_lt
    rw [if_neg (by rw [UInt64.lt_iff_toNat_lt]; exact Nat.not_lt.mpr (Nat.le_of_lt_succ hlt))]
      at hmin
    rw [if_neg (by rw [UInt64.lt_iff_toNat_lt]; exact Nat.not_lt_zero _)] at hmax
    simp [hmin, hmax]
  · have hsum := h.summarizes hne
    simp only [List.forall_mem_append, List.forall_mem_singleton]
    rw [List.mem_append, List.mem_singleton, List.mem_append, List.mem_singleton]
    refine ⟨?_, ?_⟩
    · rw [hmin]
      split
      next hlt => exact ⟨.inl hsum.min_mem, hsum.min_le, UInt64.le_of_lt hlt⟩
      next hge =>
        rw [UInt64.not_lt] at hge
        exact ⟨.inr rfl, fun v hv => UInt64.le_trans hge (hsum.min_le v hv), UInt64.le_refl _⟩
    · rw [hmax]
      split
      next hlt => exact ⟨.inl hsum.max_mem, hsum.le_max, UInt64.le_of_lt hlt⟩
      next hge =>
        rw [UInt64.not_lt] at hge
        exact ⟨.inr rfl, fun v hv => UInt64.le_trans (hsum.le_max v hv) hge, UInt64.le_refl _⟩

/-- One more sample keeps the statistics those of all samples. -/
theorem MemStats.Follows.recalculate (h : stats.Follows values)
    (hsum : total values + value.toNat < 2 ^ 64)
    (hcount : requestsCount.toNat = values.length + 1) :
    ∃ stats', stats.recalculate requestsCount value = some stats' ∧
      stats'.Follows (values ++ [value]) := by
  obtain ⟨stats', heq, hmin, hmax, havg⟩ := MemStats.recalculate_eq (h.fits hsum) hcount
  refine ⟨stats', heq, fun hnil => by simp at hnil, fun _ => ?_⟩
  obtain ⟨⟨hminMem, hminLe⟩, hmaxMem, hleMax⟩ := h.extremes hmin hmax
  have hbounds := average_bounds h.average.1 h.average.2 (v := value.toNat)
  rw [← havg, ← total_append] at hbounds
  have hlow : stats'.min.toNat ≤ stats.avg.toNat ∨ values.length = 0 := by
    by_cases hne : values = []
    · exact .inr (List.length_eq_zero_iff.mpr hne)
    · have hle := UInt64.le_trans (hminLe _ (List.mem_append_left _ (h.summarizes hne).min_mem))
        (h.summarizes hne).min_le_avg
      exact .inl (UInt64.le_iff_toNat_le.mp hle)
  have hhigh : stats.avg.toNat ≤ stats'.max.toNat ∨ values.length = 0 := by
    by_cases hne : values = []
    · exact .inr (List.length_eq_zero_iff.mpr hne)
    · have hle := UInt64.le_trans (h.summarizes hne).avg_le_max
        (hleMax _ (List.mem_append_left _ (h.summarizes hne).max_mem))
      exact .inl (UInt64.le_iff_toNat_le.mp hle)
  have hvalue : value ∈ values ++ [value] := List.mem_append_right _ (List.mem_singleton_self _)
  have hbetween := average_between hlow (UInt64.le_iff_toNat_le.mp (hminLe _ hvalue)) hhigh
    (UInt64.le_iff_toNat_le.mp (hleMax _ hvalue))
  rw [← havg] at hbetween
  have hlength : (values ++ [value]).length = values.length + 1 := by simp
  refine ⟨hminMem, hminLe, hmaxMem, hleMax, UInt64.le_iff_toNat_le.mpr hbetween.1,
    UInt64.le_iff_toNat_le.mpr hbetween.2, ?_, ?_⟩
  · rw [hlength]
    exact hbounds.1
  · rw [hlength, Nat.add_sub_cancel]
    omega

end

namespace MemProfiler

variable {p q : MemProfiler} {samples before after : List (UInt64 × UInt64)}
  {sample : UInt64 × UInt64}

/-- Neither average is computed with a product or a sum that wraps, and the count does not. -/
structure Fits (p : MemProfiler) (sample : UInt64 × UInt64) : Prop where
  count : p.requestsCount.toNat + 1 < 2 ^ 64
  vms : p.statsVms.Fits p.requestsCount.toNat sample.1
  rss : p.statsRss.Fits p.requestsCount.toNat sample.2

/-- What the samples fed after `start` come to, and how each one is computed. -/
def Meaningful (p : MemProfiler) (samples : List (UInt64 × UInt64)) : Prop :=
  (∃ q, run requestMemUsage p.start samples = some q ∧
    q.statsVms.Summarizes (samples.map Prod.fst) ∧
    q.statsRss.Summarizes (samples.map Prod.snd)) ∧
  ∀ before sample after, samples = before ++ sample :: after →
    ∃ q, run requestMemUsage p.start before = some q ∧ q.Fits sample

/-- The samples of neither kind add up to more than a word holds. -/
def SumsFit (samples : List (UInt64 × UInt64)) : Prop :=
  total (samples.map Prod.fst) < 2 ^ 64 ∧ total (samples.map Prod.snd) < 2 ^ 64

structure Follows (p : MemProfiler) (samples : List (UInt64 × UInt64)) : Prop where
  count : p.requestsCount.toNat = samples.length
  vms : p.statsVms.Follows (samples.map Prod.fst)
  rss : p.statsRss.Follows (samples.map Prod.snd)

theorem start_follows (h : p.timeToDie = true) : p.start.Follows [] := by
  have hnil : MemStats.Follows {} [] := ⟨fun _ => rfl, fun hne => absurd rfl hne⟩
  have hstart : p.start =
      { timeToDie := false, statsVms := {}, statsRss := {}, requestsCount := 0 } := by
    simp [start, h]
  rw [hstart]
  exact ⟨rfl, hnil, hnil⟩

theorem total_append_le (first rest : List UInt64) : total first ≤ total (first ++ rest) := by
  simp [total]

theorem SumsFit.upTo (h : SumsFit (before ++ sample :: after)) :
    total (before.map Prod.fst) + sample.1.toNat < 2 ^ 64 ∧
      total (before.map Prod.snd) + sample.2.toNat < 2 ^ 64 := by
  obtain ⟨hvms, hrss⟩ := h
  simp only [List.map_append, List.map_cons] at hvms hrss
  have hvms' := total_append_le (before.map Prod.fst ++ [sample.1]) (after.map Prod.fst)
  have hrss' := total_append_le (before.map Prod.snd ++ [sample.2]) (after.map Prod.snd)
  rw [total_append, List.append_assoc, List.singleton_append] at hvms' hrss'
  omega

theorem Follows.fits (h : p.Follows before) (hlength : before.length + 1 < 2 ^ 64)
    (hsums : SumsFit (before ++ sample :: after)) : p.Fits sample := by
  obtain ⟨hvms, hrss⟩ := hsums.upTo
  have hfitsVms := h.vms.fits hvms
  have hfitsRss := h.rss.fits hrss
  rw [List.length_map, ← h.count] at hfitsVms hfitsRss
  exact ⟨by rw [h.count]; exact hlength, hfitsVms, hfitsRss⟩

theorem Follows.requestMemUsage (h : p.Follows before) (hlength : before.length + 1 < 2 ^ 64)
    (hsums : SumsFit (before ++ sample :: after)) :
    ∃ q, p.requestMemUsage sample = some q ∧ q.Follows (before ++ [sample]) := by
  obtain ⟨hvms, hrss⟩ := hsums.upTo
  have hcount : (p.requestsCount + 1).toNat = before.length + 1 := by
    rw [UInt64.toNat_add, UInt64.toNat_one, h.count, Nat.mod_eq_of_lt hlength]
  obtain ⟨statsVms, heqVms, hfollowsVms⟩ := h.vms.recalculate hvms
    (by rw [List.length_map]; exact hcount)
  obtain ⟨statsRss, heqRss, hfollowsRss⟩ := h.rss.recalculate hrss
    (by rw [List.length_map]; exact hcount)
  refine ⟨{ p with statsVms := statsVms, statsRss := statsRss,
                   requestsCount := p.requestsCount + 1 }, ?_, ?_, ?_, ?_⟩
  · simp [MemProfiler.requestMemUsage, MemProfiler.recalculate, heqVms, heqRss]
  · rw [hcount, List.length_append, List.length_singleton]
  · simpa using hfollowsVms
  · simpa using hfollowsRss

theorem run_follows (h : p.timeToDie = true) (hlength : samples.length < 2 ^ 64)
    (hsums : SumsFit samples) (hsamples : samples = before ++ after) :
    ∃ q, run MemProfiler.requestMemUsage p.start before = some q ∧ q.Follows before := by
  refine run_ensures (fun before (q : MemProfiler) => q.Follows before) (start_follows h)
    (fun before sample after q heq hq => ?_) before after hsamples
  subst heq
  refine hq.requestMemUsage ?_ hsums
  rw [List.length_append, List.length_cons] at hlength
  omega

theorem samples_meaningful (h : p.timeToDie = true) (hne : samples ≠ [])
    (hlength : samples.length < 2 ^ 64) (hsums : SumsFit samples) : p.Meaningful samples := by
  constructor
  · obtain ⟨q, hq, hfollows⟩ := run_follows h hlength hsums (List.append_nil _).symm
    exact ⟨q, hq, hfollows.vms.summarizes (by simpa using hne),
      hfollows.rss.summarizes (by simpa using hne)⟩
  · intro before sample after heq
    obtain ⟨q, hq, hfollows⟩ := run_follows h hlength hsums heq
    subst heq
    refine ⟨q, hq, hfollows.fits ?_ hsums⟩
    rw [List.length_append, List.length_cons] at hlength
    omega

/-- A profiler that has not been started. -/
def idle : MemProfiler :=
  { timeToDie := true, statsVms := {}, statsRss := {}, requestsCount := 0 }

theorem samples_meaningful_three : idle.Meaningful [(10, 4), (3, 9), (4, 4)] :=
  samples_meaningful rfl (by decide) (by decide) (by unfold SumsFit; decide)

theorem sumsFit_zeros (n : ℕ) : SumsFit (List.replicate n (0, 0)) := by
  simp [SumsFit, total]

/-- The count comes round to zero, and the average is divided by it. -/
theorem run_zeros_stops {n : ℕ} (hn : n + 1 = 2 ^ 64) :
    run MemProfiler.requestMemUsage idle.start (List.replicate (n + 1) (0, 0)) = none := by
  obtain ⟨q, hq, hfollows⟩ := run_follows (p := idle) rfl (by rw [List.length_replicate]; omega)
    (sumsFit_zeros n) (List.append_nil _).symm
  have hcount : q.requestsCount + 1 = 0 := by
    rw [← UInt64.toNat_inj, UInt64.toNat_add, hfollows.count, List.length_replicate,
      UInt64.toNat_one, hn]
    rfl
  rw [List.replicate_succ', run_append, hq, Option.bind_some, run]
  simp [MemProfiler.requestMemUsage, MemProfiler.recalculate, MemStats.recalculate, hcount]

/-- After `2 ^ 64` empty samples there is no average. -/
theorem samples_divide_by_zero :
    ¬∀ (p : MemProfiler) (samples : List (UInt64 × UInt64)), p.timeToDie = true → samples ≠ [] →
      SumsFit samples → p.Meaningful samples := by
  intro h
  obtain ⟨n, hn⟩ : ∃ n, n + 1 = 2 ^ 64 := ⟨2 ^ 64 - 1, by norm_num⟩
  obtain ⟨⟨q, hq, _⟩, _⟩ := h idle (List.replicate (n + 1) (0, 0)) rfl
    (by simp) (sumsFit_zeros _)
  rw [run_zeros_stops hn] at hq
  cases hq

end MemProfiler

end Ucsb
