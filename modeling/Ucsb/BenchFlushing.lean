import Ucsb.BenchLast

namespace Ucsb

open StepSystem Tally

namespace Bench

variable {n : ℕ} {plan : List (BenchWorkload n)} {s s' : Bench n} {event : Fin n × Int64}
  {allowed : Bench n → Fin n × Int64 → Prop} {k : ℕ} {i : Fin n}

theorem ofNat_eq_one_iff {count : ℕ} (hle : count ≤ 2 ^ 64) :
    UInt64.ofNat count = 1 ↔ count = 1 := by
  rw [← UInt64.toNat_inj, UInt64.toNat_ofNat', UInt64.toNat_one]
  omega

theorem left_update (plan : List (BenchWorkload n)) (k : ℕ) (s : Bench n) (i : Fin n)
    (t : BenchThread) (shared : BenchShared) :
    Bench.left plan k ⟨shared, Function.update s.threads i t⟩ + (s.threads i).left plan k i =
      s.left plan k + t.left plan k i :=
  sum_update_add (fun j (t : BenchThread) => t.left plan k j) s.threads i t

/-- What is done and what is left of the running workload come to its operations. -/
theorem done_add_left (h : Reaches (step plan) allowed (start plan) s) {zero : Fin n}
    (hzero : zero.val = 0) (hi : ¬(s.threads i).point.AtBarrier ∧
      ((s.threads i).point.stage = 1 ∨ (s.threads i).point.stage = 2)) :
    s.shared.progress .doneIterations + UInt64.ofNat (s.left plan (s.threads i).workload) =
      UInt64.ofNat (operationsTotal plan (s.threads i).workload) := by
  have hdone := (reaches_running h hzero hi).2 .doneIterations (by decide)
  simp only [pending_done, ← ofNat_sum] at hdone
  exact hdone

/-- The threads that have not passed the first barrier of a workload keep the others
from running it. -/
theorem Apart.same_of_running (h : s.Apart plan) (hbarrier : ¬(s.threads i).point.AtBarrier)
    (hstage : (s.threads i).point.stage = 2) (j : Fin n) :
    (s.threads j).workload = (s.threads i).workload ∧
      ((s.threads j).point = .startBarrier ∨ (s.threads j).point.stage = 2) := by
  have hfrom := h.passed_le i j
  have hto := h.passed_le j i
  have hstagej := stage_le (s.threads j).point
  simp only [BenchThread.arrived, BenchThread.passed, hbarrier, if_false, hstage] at hfrom hto
  split at hfrom
  next hat =>
    refine ⟨by omega, ?_⟩
    have hlow : 1 ≤ (s.threads j).point.stage ∧ (s.threads j).point.stage ≤ 2 := by
      omega
    rcases hat with hp | hp | hp | hp <;> simp [hp, BenchPoint.stage] at hlow ⊢
  next => exact ⟨by omega, .inr (by omega)⟩

/-- Once a thread is past the first barrier of the workload, all of its operations
have been announced. -/
theorem total_of_running (h : Reaches (step plan) allowed (start plan) s) {zero : Fin n}
    (hzero : zero.val = 0) (hbarrier : ¬(s.threads i).point.AtBarrier)
    (hstage : (s.threads i).point.stage = 2) :
    s.shared.progress .totalIterations =
      UInt64.ofNat (operationsTotal plan (s.threads i).workload) := by
  have htotal := (reaches_running h hzero ⟨hbarrier, .inr hstage⟩).2 .totalIterations (by decide)
  have hpending :
      ∑ j, (s.threads j).pending plan .totalIterations (s.threads i).workload j = 0 := by
    apply Finset.sum_eq_zero
    intro j _
    obtain ⟨hworkload, hpoint⟩ := (reaches_apart h).same_of_running hbarrier hstage j
    rw [BenchThread.pending, if_pos hworkload, resultsAmount_total]
    rcases hpoint with hp | hp
    · simp [hp, BenchPoint.unadded]
    · cases hpt : (s.threads j).point <;> simp [hpt, BenchPoint.stage] at hp <;>
        simp [BenchPoint.unadded]
  rw [hpending, UInt64.add_zero] at htotal
  exact htotal

/-- Who counts the last operation of a workload is to flush it, or has. -/
structure Flushing (s : Bench n) (plan : List (BenchWorkload n)) : Prop where
  left_le : ∀ k, s.left plan k ≤ operationsTotal plan k
  balance : ∀ k < plan.length, tally (BenchThread.Last plan k) s.threads +
    s.shared.flushes.count k = if s.left plan k = 0 then 1 else 0
  flashed : ∀ i, (s.threads i).doFlash = false →
    (s.threads i).point = .flush ∨ 0 < s.shared.flushes.count (s.threads i).workload

theorem start_flushing (hn : 0 < n) (hops : ∀ k < plan.length, ∀ i, planResults plan k i ≠ []) :
    (start plan).Flushing plan := by
  have hleft : ∀ k, (start plan).left plan k = operationsTotal plan k := by
    intro k
    simp [left, start, enterWorkload_left, operationsTotal]
  refine ⟨fun k => Nat.le_of_eq (hleft k), fun k hk => ?_, fun i hi => ?_⟩
  · have hpos : operationsTotal plan k ≠ 0 := by
      intro hzero
      have hall := Finset.sum_eq_zero_iff.mp hzero ⟨0, hn⟩ (Finset.mem_univ _)
      exact hops k hk _ (List.length_eq_zero_iff.mp hall)
    rw [hleft, if_neg hpos, tally_eq_zero]
    · rfl
    · intro i hlast
      simp [BenchThread.Last, start, enterWorkload, BenchPoint.Counted] at hlast
  · simp [start, enterWorkload] at hi

theorem Flushing.last_flash (h : s.Flushing plan) (hk : k < plan.length)
    (hlast : (s.threads i).Last plan k) (hpoint : (s.threads i).point ≠ .flush) :
    (s.threads i).doFlash = true := by
  by_contra hflash
  have htally : 0 < tally (BenchThread.Last plan k) s.threads := tally_pos hlast
  have hbalance := h.balance k hk
  rcases h.flashed i (by simpa using hflash) with hp | hcount
  · exact hpoint hp
  · rw [hlast.1] at hcount
    split at hbalance <;> omega

theorem Flushing.step (h : s.Flushing plan) (hbound : ∀ k, operationsTotal plan k ≤ 2 ^ 64)
    (hreach : Reaches (step plan) allowed (start plan) s) (hstep : s.step plan event = some s') :
    s'.Flushing plan := by
  obtain ⟨_, t, shared, hact, rfl⟩ := step_cases hstep
  have hlocal := (reaches_apart hreach).locals event.1
  have hzero : (⟨0, event.1.pos⟩ : Fin n).val = 0 := rfl
  have htotal : (s.threads event.1).point = .testLast → s.shared.progress .totalIterations =
      UInt64.ofNat (operationsTotal plan (s.threads event.1).workload) := fun hp =>
    total_of_running hreach hzero (by simp [hp, BenchPoint.AtBarrier])
      (by simp [hp, BenchPoint.stage])
  have hflash : ∀ k, (s.threads event.1).point = .testLast → (s.threads event.1).Last plan k →
      (s.threads event.1).doFlash = true := by
    intro k hp hlast
    have hk := hlocal.workload_lt (by simp [hp])
    exact h.last_flash (hlast.1 ▸ hk) hlast (by simp [hp])
  constructor
  · intro k
    have hupdate := left_update plan k s event.1 t shared
    have hle := h.left_le k
    rcases hact.last_cases hlocal htotal (hflash k) with
      ⟨_, hsame, _⟩ | ⟨_, _, _, _, hless, _⟩ | ⟨_, _, hsame, _⟩ <;> omega
  · intro k hk
    have hupdate := left_update plan k s event.1 t shared
    have htally := tally_update_add (P := BenchThread.Last plan k) (f := s.threads)
      (i := event.1) (x := t)
    have hbalance := h.balance k hk
    rcases hact.last_cases hlocal htotal (hflash k) with ⟨hlast, hsame, hcount⟩ |
      ⟨hp, hworkload, hnot, hlast, hless, hcount⟩ | ⟨hlast, hnot, hsame, hcount⟩
    · simp only [hlast] at htally
      dsimp only
      rw [hcount, show Bench.left plan k _ = s.left plan k by omega]
      omega
    · have hdone := done_add_left hreach hzero (i := event.1)
        ⟨by simp [hp, BenchPoint.AtBarrier], .inr (by simp [hp, BenchPoint.stage])⟩
      have hone : t.Last plan k ↔ s.left plan k = 1 := by
        rw [hlast, ← hworkload, ← hdone, UInt64.add_right_inj, eq_comm, hworkload]
        exact ofNat_eq_one_iff (Nat.le_trans (h.left_le k) (hbound k))
      simp only [hone, hnot, if_false] at htally
      dsimp only
      rw [hcount]
      split at htally <;> split <;> split at hbalance <;> omega
    · simp only [hlast, hnot, if_true, if_false] at htally
      dsimp only
      rw [hcount, show Bench.left plan k _ = s.left plan k by omega]
      omega
  · intro j hj
    by_cases hi : j = event.1
    · subst hi
      simp only [Function.update_self] at hj ⊢
      exact hact.flashed (h.flashed _) hj
    · simp only [Function.update_of_ne hi] at hj ⊢
      rcases h.flashed j hj with hp | hcount
      · exact .inl hp
      · exact .inr (Nat.lt_of_lt_of_le hcount (hact.count_flushes_le _))

theorem reaches_flushing (hn : 0 < n)
    (hops : ∀ k < plan.length, ∀ i, planResults plan k i ≠ [])
    (hbound : ∀ k, operationsTotal plan k ≤ 2 ^ 64)
    (h : Reaches (step plan) allowed (start plan) s) : s.Flushing plan :=
  h.invariant (fun s => s.Flushing plan) (start_flushing hn hops)
    fun _ _ _ hreach hs _ hstep => hs.step hbound hreach hstep

end Bench

end Ucsb
