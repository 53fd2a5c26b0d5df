import Ucsb.Bench
import Ucsb.RoundBarrier

namespace Ucsb

open StepSystem

variable {n : ℕ} {plan : List (BenchWorkload n)}

section

variable {i : Fin n} {t t' : BenchThread} {shared shared' : BenchShared}

/-- An action takes a thread past the barrier it is at, or else at most up to the next. -/
theorem BenchAct.passes (h : BenchAct plan i t shared t' shared') :
    (t.point.AtBarrier ∧ t'.passed = t.passed + 1 ∧ ¬t'.point.AtBarrier) ∨
      (¬t.point.AtBarrier ∧ t'.passed = t.passed) := by
  cases h with
  | closeFence hp =>
    refine .inl ⟨by simp [hp, BenchPoint.AtBarrier], ?_, by
      simp [enterWorkload, BenchPoint.AtBarrier]⟩
    simp [BenchThread.passed, hp, BenchPoint.stage, enterWorkload]
    omega
  | _ hp => simp [BenchThread.passed, hp, BenchPoint.stage, BenchPoint.AtBarrier]

/-- What a thread's own state is worth at its point. -/
structure BenchThread.Local (plan : List (BenchWorkload n)) (i : Fin n) (t : BenchThread) :
    Prop where
  workload_le : t.workload ≤ plan.length
  workload_lt : t.point ≠ .opening → t.workload < plan.length
  rest_full : t.point.stage ≤ 1 → t.rest = planResults plan t.workload i
  rest_empty : t.point = .endBarrier ∨ t.point.stage = 3 → t.rest = []
  zero : ∀ reads, t.point = .conclude reads ∨ t.point = .clear reads → i.val = 0

theorem enterWorkload_local {k : ℕ} (hk : k ≤ plan.length) :
    (enterWorkload plan k i).Local plan i where
  workload_le := hk
  workload_lt h := absurd rfl h
  rest_full _ := rfl
  rest_empty h := by simp [enterWorkload, BenchPoint.stage] at h
  zero _ h := by simp [enterWorkload] at h

theorem BenchAct.keeps_local (ht : t.Local plan i) (h : BenchAct plan i t shared t' shared') :
    t'.Local plan i := by
  obtain ⟨hle, hlt, hfull, hempty, hzero⟩ := ht
  cases h with
  | closeFence hp => exact enterWorkload_local (hlt (by simp [hp]))
  | _ hp => constructor <;> simp_all [BenchPoint.stage]

end

namespace Bench

variable {s s' : Bench n} {event : Fin n × Int64} {allowed : Bench n → Fin n × Int64 → Prop}

/-- The barriers of all workloads as rounds of one. -/
def toBarrier (s : Bench n) : RoundBarrier (Fin n) :=
  { arrived := fun i => (s.threads i).arrived, left := fun i => (s.threads i).passed }

theorem toBarrier_start (plan : List (BenchWorkload n)) :
    (start plan).toBarrier = RoundBarrier.start (Fin n) := by
  simp [toBarrier, RoundBarrier.start, start, enterWorkload, BenchThread.arrived,
    BenchThread.passed, BenchPoint.stage, BenchPoint.AtBarrier]

theorem toBarrier_step (h : s.step plan event = some s') :
    s'.toBarrier = s.toBarrier ∨ RoundBarrier.Step s.toBarrier s'.toBarrier := by
  obtain ⟨hopen, t, shared, hact, rfl⟩ := step_cases h
  have hupdate : ∀ count : BenchThread → ℕ,
      (fun j => count (Function.update s.threads event.1 t j)) =
        Function.update (fun j => count (s.threads j)) event.1 (count t) := by
    intro count
    funext j
    by_cases hj : j = event.1
    · subst hj
      simp
    · simp [hj]
  have hself : ∀ count : BenchThread → ℕ, count t = count (s.threads event.1) →
      Function.update (fun j => count (s.threads j)) event.1 (count t) =
        fun j => count (s.threads j) := by
    intro count heq
    rw [heq, Function.update_eq_self]
  simp only [toBarrier, hupdate]
  rcases hact.passes with ⟨hat, hpassed, hnot⟩ | ⟨hnot, hpassed⟩
  · have harrived : t.arrived = (s.threads event.1).arrived := by
      simp [BenchThread.arrived, hat, hnot, hpassed]
    rw [hself _ harrived, hpassed]
    refine .inr (.leave event.1 ?_ (hopen hat))
    simp [BenchThread.arrived, hat]
  · rw [hself _ hpassed]
    by_cases hat : t.point.AtBarrier
    · have harrived : t.arrived = (s.threads event.1).arrived + 1 := by
        simp [BenchThread.arrived, hat, hnot, hpassed]
      rw [harrived]
      exact .inr (.arrive event.1 (by simp [BenchThread.arrived, hnot]))
    · have harrived : t.arrived = (s.threads event.1).arrived := by
        simp [BenchThread.arrived, hat, hnot, hpassed]
      rw [hself _ harrived]
      exact .inl rfl

/-- No thread has passed a barrier that another one has not come to. -/
theorem reaches_passed_le (h : Reaches (step plan) allowed (start plan) s) (i j : Fin n) :
    (s.threads i).passed ≤ (s.threads j).arrived := by
  have hbarrier := h.simulates toBarrier fun _ _ _ _ _ hstep => toBarrier_step hstep
  rw [toBarrier_start] at hbarrier
  exact (RoundBarrier.inStep_of_reaches hbarrier).left_le_arrived i j

theorem reaches_local (h : Reaches (step plan) allowed (start plan) s) (i : Fin n) :
    (s.threads i).Local plan i := by
  refine h.invariant (fun s => ∀ i, (s.threads i).Local plan i)
    (fun i => enterWorkload_local (Nat.zero_le _)) (fun s event s' _ hs _ hstep j => ?_) i
  obtain ⟨_, t, shared, hact, rfl⟩ := step_cases hstep
  by_cases hj : j = event.1
  · subst hj
    simpa using hact.keeps_local (hs _)
  · simpa [hj] using hs j

end Bench

end Ucsb
