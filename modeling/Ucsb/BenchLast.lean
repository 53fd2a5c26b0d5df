import Ucsb.BenchReport

namespace Ucsb

/-- Between the addition to `done_iterations` and the test whether it was the last. -/
def BenchPoint.Counted (point : BenchPoint) : Prop :=
  point = .loadDone ∨ point = .loadPrinted ∨ point = .printLoad ∨ point = .printStore ∨
    point = .storeSpeed ∨ point = .testLast

instance (point : BenchPoint) : Decidable point.Counted :=
  inferInstanceAs (Decidable (_ ∨ _ ∨ _ ∨ _ ∨ _ ∨ _))

section

variable {n : ℕ} (plan : List (BenchWorkload n)) (k : ℕ)

/-- The thread has counted the last operation of workload `k` and is yet to flush. -/
def BenchThread.Last (t : BenchThread) : Prop :=
  t.workload = k ∧ (t.point.Counted ∧ t.doneIterations = UInt64.ofNat (operationsTotal plan k) ∨
    t.point = .flush)

instance (t : BenchThread) : Decidable (t.Last plan k) :=
  inferInstanceAs (Decidable (_ ∧ (_ ∧ _ ∨ _)))

/-- The operations of workload `k` that thread `i` has not counted. -/
def BenchThread.left (i : Fin n) (t : BenchThread) : ℕ :=
  if t.workload = k then
    t.rest.length + if .doneIterations ∈ t.point.unadded then 1 else 0
  else if t.workload < k then (planResults plan k i).length else 0

def Bench.left (s : Bench n) : ℕ := ∑ i, (s.threads i).left plan k i

end

section

variable {n : ℕ} {plan : List (BenchWorkload n)} {k : ℕ} {i : Fin n} {t t' : BenchThread}
  {shared shared' : BenchShared}

theorem pending_done : t.pending plan .doneIterations k i = UInt64.ofNat (t.left plan k i) := by
  unfold BenchThread.pending BenchThread.left
  split
  next =>
    by_cases hmem : Counter.doneIterations ∈ t.point.unadded
    · simp [hmem, resultsAmount_done, OperationResult.amount, UInt64.add_comm]
    · simp [hmem, resultsAmount_done]
  next =>
    split
    next => simp [planAmount, resultsAmount_done]
    next => rfl

theorem enterWorkload_left {entered : ℕ} :
    (enterWorkload plan entered i).left plan k i =
      if entered ≤ k then (planResults plan k i).length else 0 := by
  rcases Nat.lt_trichotomy entered k with hlt | rfl | hgt
  · simp [BenchThread.left, enterWorkload, Nat.ne_of_lt hlt, hlt, Nat.le_of_lt hlt]
  · simp [BenchThread.left, enterWorkload, BenchPoint.unadded]
  · simp [BenchThread.left, enterWorkload, Nat.ne_of_gt hgt, Nat.not_lt_of_gt hgt,
      Nat.not_le_of_gt hgt]

theorem left_of_done (hrest : t.rest = []) (hpoint : t.point = .endBarrier ∨ t.point.stage = 3) :
    t.left plan t.workload i = 0 := by
  rcases hpoint with hp | hp
  · simp [BenchThread.left, hp, hrest, BenchPoint.unadded]
  · cases hpt : t.point <;> simp [hpt, BenchPoint.stage] at hp <;>
      simp [BenchThread.left, hpt, hrest, BenchPoint.unadded]

theorem closeFence_left (ht : t.Local plan i) (hp : t.point = .closeFence) :
    (enterWorkload plan (t.workload + 1) i).left plan k i = t.left plan k i := by
  have hstage : t.point.stage = 3 := by simp [hp, BenchPoint.stage]
  rw [enterWorkload_left]
  rcases Nat.lt_trichotomy t.workload k with hlt | rfl | hgt
  · simp [BenchThread.left, Nat.ne_of_lt hlt, hlt, Nat.succ_le_of_lt hlt]
  · simp [left_of_done (ht.rest_empty (.inr hstage)) (.inr hstage)]
  · simp [BenchThread.left, Nat.ne_of_gt hgt, Nat.not_lt_of_gt hgt,
      Nat.not_le_of_gt (Nat.lt_succ_of_lt hgt)]

/-- A thread becomes the last by counting, and stays it until it flushes. -/
theorem BenchAct.last_cases (ht : t.Local plan i) (h : BenchAct plan i t shared t' shared')
    (htotal : t.point = .testLast →
      shared.progress .totalIterations = UInt64.ofNat (operationsTotal plan t.workload))
    (hflash : t.point = .testLast → t.Last plan k → t.doFlash = true) :
    ((t'.Last plan k ↔ t.Last plan k) ∧ t'.left plan k i = t.left plan k i ∧
      shared'.flushes.count k = shared.flushes.count k) ∨
    (t.point = .addDone ∧ t.workload = k ∧ ¬t.Last plan k ∧
      (t'.Last plan k ↔
        shared.progress .doneIterations + 1 = UInt64.ofNat (operationsTotal plan k)) ∧
      t'.left plan k i + 1 = t.left plan k i ∧ shared'.flushes.count k = shared.flushes.count k) ∨
    (t.Last plan k ∧ ¬t'.Last plan k ∧ t'.left plan k i = t.left plan k i ∧
      shared'.flushes.count k = shared.flushes.count k + 1) := by
  cases h with
  | addDone hp =>
    by_cases hk : t.workload = k
    · refine .inr (.inl ⟨hp, hk, ?_⟩)
      simp [BenchThread.Last, BenchThread.left, hp, hk, BenchPoint.Counted, BenchPoint.unadded,
        BenchShared.add]
    · simp [BenchThread.Last, BenchThread.left, hk, BenchShared.add]
  | skipFlush hp hnot =>
    have hlast : ¬t.Last plan k := by
      intro hlast
      obtain ⟨hk, ⟨_, hdone⟩ | hflushing⟩ := id hlast
      · have hfalse := hnot (by rw [hdone, htotal hp, hk])
        rw [hflash hp hlast] at hfalse
        cases hfalse
      · rw [hp] at hflushing
        cases hflushing
    refine .inl ⟨iff_of_false ?_ hlast, ?_, rfl⟩
    · simp [BenchThread.Last, BenchPoint.Counted]
    · simp [BenchThread.left, hp, BenchPoint.unadded]
  | testLast hp hdone =>
    rw [htotal hp] at hdone
    by_cases hk : t.workload = k
    · rw [hk] at hdone
      simp [BenchThread.Last, BenchThread.left, hp, hk, hdone, BenchPoint.Counted,
        BenchPoint.unadded]
    · simp [BenchThread.Last, BenchThread.left, hk]
  | flush hp =>
    by_cases hk : t.workload = k
    · refine .inr (.inr ?_)
      simp [BenchThread.Last, BenchThread.left, hp, hk, BenchPoint.Counted, BenchPoint.unadded]
    · simp [BenchThread.Last, BenchThread.left, hk]
  | closeFence hp =>
    refine .inl ⟨?_, closeFence_left ht hp, rfl⟩
    simp [BenchThread.Last, enterWorkload, hp, BenchPoint.Counted]
  | operate hp hrest =>
    simp [BenchThread.Last, BenchThread.left, hp, hrest, BenchPoint.Counted, BenchPoint.unadded]
  | _ hp =>
    simp [BenchThread.Last, BenchThread.left, hp, BenchPoint.Counted, BenchPoint.unadded,
      BenchShared.add, BenchShared.store]

theorem BenchAct.flashed (h : BenchAct plan i t shared t' shared')
    (ht : t.doFlash = false → t.point = .flush ∨ 0 < shared.flushes.count t.workload)
    (hflash : t'.doFlash = false) :
    t'.point = .flush ∨ 0 < shared'.flushes.count t'.workload := by
  cases h with
  | testLast => exact .inl rfl
  | flush => exact .inr (by simp)
  | closeFence => simp [enterWorkload] at hflash
  | _ hp => simpa [hp, BenchShared.add, BenchShared.store] using ht hflash

theorem BenchAct.count_flushes_le (h : BenchAct plan i t shared t' shared') (k : ℕ) :
    shared.flushes.count k ≤ shared'.flushes.count k := by
  cases h with
  | flush => simp
  | _ => exact Nat.le_refl _

end

end Ucsb
