import Ucsb.BenchFlushing
import Ucsb.BenchEnd
import Ucsb.WorkloadSplit
import Mathlib.Algebra.BigOperators.Fin

namespace Ucsb

open StepSystem Tally

/-- Each workload of the plan is run in the slices that the splitter deals out. -/
def Dealt {n : ℕ} (plan : List (BenchWorkload n)) (threadsCount : UInt64) : Prop :=
  ∀ k < plan.length, ∃ w, ∀ (i : Fin n) slice,
    (splitWorkloadIntoThreads w threadsCount)[i.val]? = some slice →
      (planResults plan k i).length = slice.operationsCount.toNat

section

variable {n k : ℕ} {plan : List (BenchWorkload n)} {threadsCount : UInt64}

theorem Dealt.results_ne_nil (h : Dealt plan threadsCount) (hT : 0 < threadsCount)
    (hn : threadsCount.toNat = n) (hk : k < plan.length) (i : Fin n) :
    planResults plan k i ≠ [] := by
  obtain ⟨w, hw⟩ := h k hk
  have hi : i.val < threadsCount.toNat := by
    rw [hn]
    exact i.isLt
  obtain ⟨slice, hslice⟩ := exists_split_slice w hi
  have hlength := hw i _ hslice
  rw [split_operationsCount hT hslice] at hlength
  intro hnil
  rw [hnil, List.length_nil] at hlength
  omega

theorem Dealt.operationsTotal_lt (h : Dealt plan threadsCount) (hT : 0 < threadsCount)
    (hn : threadsCount.toNat = n) (k : ℕ) : operationsTotal plan k < 2 ^ 64 := by
  by_cases hk : k < plan.length
  · obtain ⟨w, hw⟩ := h k hk
    have hlist : ((splitWorkloadIntoThreads w threadsCount).map
        fun slice => slice.operationsCount.toNat) =
          List.ofFn fun i : Fin n => (planResults plan k i).length := by
      apply List.ext_getElem
      · simp [split_length, hn]
      · intro i hi hj
        rw [List.length_map] at hi
        rw [List.length_ofFn] at hj
        simpa using (hw ⟨i, hj⟩ _ (List.getElem?_eq_getElem hi)).symm
    have hoperations := w.dbOperationsCount.toNat_lt
    have hthreads := threadsCount.toNat_lt
    rw [operationsTotal, ← List.sum_ofFn, ← hlist, split_operations_sum hT]
    omega
  · have hnil : ∀ i : Fin n, planResults plan k i = [] := by
      intro i
      simp [planResults, List.getElem?_eq_none (Nat.le_of_not_lt hk)]
    simp [operationsTotal, hnil]

end

namespace Bench

variable {n : ℕ} {plan : List (BenchWorkload n)} {s : Bench n}
  {allowed : Bench n → Fin n × Int64 → Prop} {k : ℕ} {i : Fin n}

/-- When a thread flushes, no other one is behind. -/
theorem Flushing.all_done (h : s.Flushing plan) (hs : s.Apart plan)
    (hops : ∀ k < plan.length, ∀ i, planResults plan k i ≠ [])
    (hp : (s.threads i).point = .flush) (j : Fin n) :
    (s.threads j).workload = (s.threads i).workload ∧ (s.threads j).rest = [] ∧
      ¬(s.threads j).point.Adds := by
  have hk := (hs.locals i).workload_lt (by simp [hp])
  have htally : 0 < tally (BenchThread.Last plan (s.threads i).workload) s.threads :=
    tally_pos (i := i) ⟨rfl, .inr hp⟩
  have hbalance := h.balance _ hk
  have hleft : s.left plan (s.threads i).workload = 0 := by
    split at hbalance
    next hzero => exact hzero
    next => omega
  have hnone := Finset.sum_eq_zero_iff.mp hleft j (Finset.mem_univ j)
  obtain ⟨hworkload, hpoint⟩ := hs.same_of_running (i := i) (by simp [hp, BenchPoint.AtBarrier])
    (by simp [hp, BenchPoint.stage]) j
  rw [BenchThread.left, if_pos hworkload, Nat.add_eq_zero_iff, List.length_eq_zero_iff] at hnone
  obtain ⟨hrest, hcounted⟩ := hnone
  refine ⟨hworkload, hrest, fun hadds => ?_⟩
  have hfull : ¬(s.threads j).point.stage ≤ 1 := by
    intro hstage
    rw [(hs.locals j).rest_full hstage, hworkload] at hrest
    exact hops _ hk j hrest
  rcases hadds with hpj | hpj | hpj | hpj | hpj <;>
    simp [hpj, BenchPoint.stage, BenchPoint.unadded] at hfull hcounted

/-- Nothing is left of a workload that a thread has come to the end of. -/
theorem Apart.none_left (h : s.Apart plan) (hend : 4 * k + 3 ≤ (s.threads i).passed) (j : Fin n) :
    (s.threads j).left plan k j = 0 ∧ ¬(s.threads j).Last plan k := by
  have hto := Nat.le_trans hend (h.passed_le i j)
  have hstage := stage_le (s.threads j).point
  unfold BenchThread.arrived BenchThread.passed at hto
  by_cases hgt : k < (s.threads j).workload
  · refine ⟨?_, fun hlast => ?_⟩
    · rw [BenchThread.left, if_neg (by omega), if_neg (by omega)]
    · have hk := hlast.1
      omega
  · have hk : (s.threads j).workload = k := by
      split at hto <;> omega
    have hpoint : (s.threads j).point = .endBarrier ∨ (s.threads j).point.stage = 3 := by
      split at hto
      next hat =>
        have hlow : 2 ≤ (s.threads j).point.stage := by omega
        rcases hat with hp | hp | hp | hp <;> simp [hp, BenchPoint.stage] at hlow ⊢
      next => exact .inr (by omega)
    refine ⟨hk ▸ left_of_done ((h.locals j).rest_empty hpoint) hpoint, fun hlast => ?_⟩
    rcases hlast.2 with ⟨hcounted, _⟩ | hp
    · rcases hcounted with hp | hp | hp | hp | hp | hp <;> simp [hp, BenchPoint.stage] at hpoint
    · simp [hp, BenchPoint.stage] at hpoint

theorem Flushing.count_eq_one (h : s.Flushing plan) (hs : s.Apart plan) (hk : k < plan.length)
    (hend : 4 * k + 3 ≤ (s.threads i).passed) : s.shared.flushes.count k = 1 := by
  have hnone := hs.none_left hend
  have hbalance := h.balance k hk
  have hleft : s.left plan k = 0 := Finset.sum_eq_zero fun j _ => (hnone j).1
  rw [tally_eq_zero fun j => (hnone j).2, if_pos hleft] at hbalance
  omega

theorem Flushing.count_le_one (h : s.Flushing plan) (hk : k < plan.length) :
    s.shared.flushes.count k ≤ 1 := by
  have hbalance := h.balance k hk
  split at hbalance <;> omega

theorem Flushing.count_of_stuck (h : s.Flushing plan) (hs : s.Apart plan) (hn : 0 < n)
    (hstuck : ∀ event, s.step plan event = none) (hk : k < plan.length) :
    s.shared.flushes.count k = 1 := by
  obtain ⟨hp, hworkload⟩ := finished_of_stuck hs hstuck ⟨0, hn⟩
  apply h.count_eq_one hs (i := ⟨0, hn⟩) hk
  simp only [BenchThread.passed, hworkload, hp, BenchPoint.stage]
  omega

/-- Each workload is flushed once, by the time its threads are through with it, and when
all of its operations have returned. Every run ends, and at its end all workloads
have been flushed. -/
theorem flushed_once (hn : 0 < n) (hops : ∀ k < plan.length, ∀ i, planResults plan k i ≠ [])
    (hbound : ∀ k, operationsTotal plan k ≤ 2 ^ 64)
    (h : Reaches (step plan) allowed (start plan) s) :
    (∀ i, (s.threads i).point = .flush → ∀ j, (s.threads j).workload = (s.threads i).workload ∧
      (s.threads j).rest = [] ∧ ¬(s.threads j).point.Adds) ∧
    (∀ k < plan.length, s.shared.flushes.count k ≤ 1 ∧
      ((∃ i, 4 * k + 3 ≤ (s.threads i).passed) → s.shared.flushes.count k = 1)) ∧
    (∀ events s', run (step plan) s events = some s' → events.length ≤ s.rank plan) ∧
    ((∀ event, s.step plan event = none) → ∀ k < plan.length, s.shared.flushes.count k = 1) := by
  have hflushing := reaches_flushing hn hops hbound h
  have hapart := reaches_apart h
  refine ⟨fun i hp j => hflushing.all_done hapart hops hp j, fun k hk => ⟨?_, ?_⟩,
    fun events s' hrun => ?_, fun hstuck k hk => ?_⟩
  · exact hflushing.count_le_one hk
  · rintro ⟨i, hend⟩
    exact hflushing.count_eq_one hapart hk hend
  · have hlength := run_length_le (rank plan) (fun _ _ _ hstep => step_rank_lt hstep) hrun
    omega
  · exact hflushing.count_of_stuck hapart hn hstuck hk

theorem onePlan_flushed_once : ∃ s, run (step onePlan) (start onePlan) untilTested = some s ∧
    (s.threads 1).point = .flush ∧ (∀ j, (s.threads j).rest = []) ∧
    s.shared.flushes.count 0 ≤ 1 := by
  have hrun : ∃ s, run (step onePlan) (start onePlan) untilTested = some s ∧
      (s.threads 1).point = .flush := ⟨_, rfl, rfl⟩
  obtain ⟨s, hs, hp⟩ := hrun
  have hreaches : Reaches (step onePlan) (fun _ _ => True) (start onePlan) s :=
    reaches_of_run (fun _ _ _ => trivial) hs
  have hops : ∀ k < onePlan.length, ∀ i, planResults onePlan k i ≠ [] := by
    intro k hk i
    obtain rfl : k = 0 := Nat.lt_one_iff.mp hk
    by_cases hi : i = 0 <;> simp [planResults, onePlan, hi]
  have hbound : ∀ k, operationsTotal onePlan k ≤ 2 ^ 64 := by
    intro k
    cases k with
    | zero => decide
    | succ k => simp [operationsTotal, planResults, onePlan]
  have hflushed := flushed_once (by decide) hops hbound hreaches
  exact ⟨s, hs, hp, fun j => (hflushed.1 1 hp j).2.1, (hflushed.2.1 0 (by decide)).1⟩

/-- The slices of the splitter bring the bound on the number of operations with them. -/
theorem flushes_of_dealt {threadsCount : UInt64} (hdealt : Dealt plan threadsCount)
    (hT : 0 < threadsCount) (hthreads : threadsCount.toNat = n)
    (h : Reaches (step plan) allowed (start plan) s) :
    (∀ i, (s.threads i).point = .flush → ∀ j, (s.threads j).workload = (s.threads i).workload ∧
      (s.threads j).rest = [] ∧ ¬(s.threads j).point.Adds) ∧
    ∀ k < plan.length, s.shared.flushes.count k ≤ 1 ∧
      ((∀ event, s.step plan event = none) → s.shared.flushes.count k = 1) := by
  have hn : 0 < n := hthreads ▸ UInt64.lt_iff_toNat_lt.mp hT
  have hops : ∀ k < plan.length, ∀ i, planResults plan k i ≠ [] :=
    fun _ hk => hdealt.results_ne_nil hT hthreads hk
  have hflushing := reaches_flushing hn hops
    (fun k => Nat.le_of_lt (hdealt.operationsTotal_lt hT hthreads k)) h
  have hapart := reaches_apart h
  exact ⟨fun i hp j => hflushing.all_done hapart hops hp j, fun k hk =>
    ⟨hflushing.count_le_one hk, fun hstuck => hflushing.count_of_stuck hapart hn hstuck hk⟩⟩

end Bench

end Ucsb
