import Ucsb.BenchLedger
import Mathlib.Algebra.BigOperators.Intervals
import Mathlib.Data.Fintype.Lattice

namespace Ucsb

open StepSystem Tally

/-- How many actions a thread at this point takes at most to the end of its workload. -/
def BenchPoint.rank (operations : ℕ) : BenchPoint → ℕ
  | closeFence => 1
  | concluded => 2
  | clear stores => 3 + stores.length
  | conclude reads => 10 + reads.length
  | endBarrier => 16
  | operate => 17 + 12 * operations
  | flush => 18 + 12 * operations
  | testLast => 19 + 12 * operations
  | storeSpeed => 20 + 12 * operations
  | printStore => 21 + 12 * operations
  | printLoad => 22 + 12 * operations
  | loadPrinted => 23 + 12 * operations
  | loadDone => 24 + 12 * operations
  | addDone => 25 + 12 * operations
  | addBytes => 26 + 12 * operations
  | addFailed => 27 + 12 * operations
  | addEntries => 28 + 12 * operations
  | startBarrier => 18 + 12 * operations
  | addTotal => 19 + 12 * operations
  | openFence => 20 + 12 * operations
  | opening => 21 + 12 * operations

section

variable {n : ℕ} (plan : List (BenchWorkload n))

/-- The same from the opening of workload `k` on. -/
def rankFrom (k : ℕ) (i : Fin n) : ℕ :=
  ∑ workload ∈ Finset.Ico k plan.length,
    BenchPoint.opening.rank (planResults plan workload i).length

def BenchThread.rank (i : Fin n) (t : BenchThread) : ℕ :=
  if plan.length ≤ t.workload ∧ t.point = .opening then 0
  else t.point.rank t.rest.length + rankFrom plan (t.workload + 1) i

def Bench.rank (s : Bench n) : ℕ := ∑ i, (s.threads i).rank plan i

end

section

variable {n : ℕ} {plan : List (BenchWorkload n)} {i : Fin n} {t t' : BenchThread}
  {shared shared' : BenchShared}

theorem enterWorkload_rank (k : ℕ) (i : Fin n) :
    (enterWorkload plan k i).rank plan i = rankFrom plan k i := by
  by_cases hk : k < plan.length
  · have hsum : rankFrom plan k i =
        BenchPoint.opening.rank (planResults plan k i).length + rankFrom plan (k + 1) i :=
      Finset.sum_eq_sum_Ico_succ_bot hk _
    rw [hsum, BenchThread.rank, if_neg (by simp [enterWorkload, hk])]
    rfl
  · rw [BenchThread.rank, if_pos ⟨Nat.le_of_not_lt hk, rfl⟩, rankFrom,
      Finset.Ico_eq_empty_of_le (Nat.le_of_not_lt hk), Finset.sum_empty]

theorem BenchAct.rank_lt (h : BenchAct plan i t shared t' shared') :
    t'.rank plan i < t.rank plan i := by
  cases h with
  | closeFence hp =>
    rw [enterWorkload_rank, BenchThread.rank, if_neg (by simp [hp]), hp, BenchPoint.rank]
    omega
  | opening hp hworkload =>
    simp [BenchThread.rank, BenchPoint.rank, hp, Nat.not_le_of_lt hworkload]
  | operate hp hrest =>
    simp [BenchThread.rank, BenchPoint.rank, hp, hrest]
    omega
  | operateEnd hp hrest => simp [BenchThread.rank, BenchPoint.rank, hp, hrest]
  | endBarrier hp => simp [BenchThread.rank, BenchPoint.rank, hp, conclusionReads]
  | concludeEnd hp => simp [BenchThread.rank, BenchPoint.rank, hp, clearStores]
  | _ hp => simp [BenchThread.rank, BenchPoint.rank, hp]

/-- Only the end of the plan stops a thread that no barrier holds up. -/
theorem benchAct_isSome (i : Fin n) (speed : Int64) (shared : BenchShared)
    (h : t.point = .opening → t.workload < plan.length) :
    ∃ t' shared', benchAct plan i speed t shared = some (t', shared') := by
  cases hp : t.point with
  | opening => exact ⟨_, _, by simp [benchAct, hp, h hp]; exact ⟨rfl, rfl⟩⟩
  | operate =>
    cases hrest : t.rest with
    | nil | cons => exact ⟨_, _, by simp only [benchAct, hp, hrest]; rfl⟩
  | loadPrinted | testLast | endBarrier =>
    simp only [benchAct, hp]
    split <;> exact ⟨_, _, rfl⟩
  | conclude reads =>
    cases reads with
    | nil | cons => exact ⟨_, _, by simp only [benchAct, hp]; rfl⟩
  | clear stores =>
    cases stores with
    | nil | cons => exact ⟨_, _, by simp only [benchAct, hp]; rfl⟩
  | _ => exact ⟨_, _, by simp only [benchAct, hp]; rfl⟩

theorem BenchThread.Local.arrived_le (h : t.Local plan i) : t.arrived ≤ 4 * plan.length := by
  have hle := h.workload_le
  by_cases hp : t.point = .opening
  · simp [BenchThread.arrived, BenchThread.passed, hp, BenchPoint.stage, BenchPoint.AtBarrier]
    omega
  · have hlt := h.workload_lt hp
    have hstage := stage_le t.point
    unfold BenchThread.arrived BenchThread.passed
    split <;> omega

end

namespace Bench

variable {n : ℕ} {plan : List (BenchWorkload n)} {s s' : Bench n} {event : Fin n × Int64}
  {allowed : Bench n → Fin n × Int64 → Prop}

theorem step_rank_lt (h : s.step plan event = some s') : s'.rank plan < s.rank plan := by
  obtain ⟨_, t, shared, hact, rfl⟩ := step_cases h
  have hsum := sum_update_add (fun j (t : BenchThread) => t.rank plan j) s.threads event.1 t
  have hlt := hact.rank_lt
  simp only [rank]
  omega

/-- A thread that no other one is behind can go on. -/
theorem can_step {i : Fin n} (hfirst : ∀ j, (s.threads i).arrived ≤ (s.threads j).arrived)
    (h : (s.threads i).point = .opening → (s.threads i).workload < plan.length) :
    ∃ s', s.step plan (i, 0) = some s' := by
  have hopen : s.Open i := fun _ => hfirst
  obtain ⟨t, shared, hact⟩ := benchAct_isSome i 0 s.shared h
  exact ⟨_, by simp only [step, hopen, if_true, hact]; rfl⟩

/-- No thread is held up for ever. -/
theorem finished_of_stuck (h : s.Apart plan) (hstuck : ∀ event, s.step plan event = none)
    (i : Fin n) : (s.threads i).point = .opening ∧ (s.threads i).workload = plan.length := by
  have hfinished : ∀ j, (∀ k, (s.threads j).arrived ≤ (s.threads k).arrived) →
      (s.threads j).point = .opening ∧ (s.threads j).workload = plan.length := by
    intro j hfirst
    by_contra hnot
    have hgo : (s.threads j).point = .opening → (s.threads j).workload < plan.length := by
      intro hp
      have hle := (h.locals j).workload_le
      by_contra hge
      exact hnot ⟨hp, by omega⟩
    obtain ⟨s', hs'⟩ := can_step hfirst hgo
    rw [hstuck] at hs'
    cases hs'
  have : Nonempty (Fin n) := ⟨i⟩
  obtain ⟨first, hfirst⟩ := Finite.exists_min fun j => (s.threads j).arrived
  obtain ⟨hp, hworkload⟩ := hfinished first hfirst
  have harrived : (s.threads first).arrived = 4 * plan.length := by
    simp [BenchThread.arrived, BenchThread.passed, hp, hworkload, BenchPoint.stage,
      BenchPoint.AtBarrier]
  exact hfinished i fun k => Nat.le_trans (harrived ▸ (h.locals i).arrived_le) (hfirst k)

end Bench

end Ucsb
