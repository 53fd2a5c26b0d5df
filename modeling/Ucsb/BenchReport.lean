import Ucsb.BenchLedger
import Mathlib.Algebra.BigOperators.Ring.Finset

namespace Ucsb

open StepSystem

section

variable {n : ℕ} (plan : List (BenchWorkload n)) (k : ℕ)

/-- The operations of all threads in workload `k`. -/
def operationsTotal : ℕ := ∑ i, (planResults plan k i).length

def failedTotal : ℕ :=
  ∑ i, ((planResults plan k i).filter fun result => result.status ≠ .ok).length

def entriesTotal : UInt64 :=
  ∑ i, (((planResults plan k i).filter fun result => result.status = .ok).map
    OperationResult.entriesTouched).sum

/-- What the report of workload `k` is to say. -/
def expectedReport : Counter → UInt64
  | .entriesTouched => entriesTotal plan k
  | .failedIterations => UInt64.ofNat (failedTotal plan k)
  | .bytesProcessed => (planValueLength plan k).toUInt64 * entriesTotal plan k
  | .doneIterations => UInt64.ofNat (operationsTotal plan k)
  | .totalIterations => UInt64.ofNat (operationsTotal plan k)
  | .lastPrintedIterations => 0

def reportEntry (counter : Counter) : ℕ × Counter × UInt64 :=
  (k, counter, expectedReport plan k counter)

/-- The reports of the workloads before `k`. -/
def reportsBefore : List (ℕ × Counter × UInt64) :=
  (List.range k).flatMap fun workload => conclusionReads.map (reportEntry plan workload)

end

/-- What thread 0 has still to read in the workload it is in. -/
def BenchPoint.unread : BenchPoint → List Counter
  | conclude reads => reads
  | clear _ | concluded | closeFence => []
  | _ => conclusionReads

section

variable {n : ℕ} {plan : List (BenchWorkload n)} {k : ℕ}

theorem ofNat_sum {ι : Type} (f : ι → ℕ) (members : Finset ι) :
    UInt64.ofNat (∑ i ∈ members, f i) = ∑ i ∈ members, UInt64.ofNat (f i) := by
  classical
  induction members using Finset.induction_on with
  | empty => rfl
  | insert i members hi ih => rw [Finset.sum_insert hi, Finset.sum_insert hi, UInt64.ofNat_add, ih]

theorem resultsAmount_done (results : List OperationResult) :
    resultsAmount plan .doneIterations k results = UInt64.ofNat results.length := by
  induction results with
  | nil => rfl
  | cons result results ih =>
    rw [resultsAmount_cons, ih, List.length_cons, Nat.add_comm, UInt64.ofNat_add]
    rfl

theorem resultsAmount_total (results : List OperationResult) :
    resultsAmount plan .totalIterations k results = 0 := by
  induction results with
  | nil => rfl
  | cons result results ih =>
    rw [resultsAmount_cons, ih]
    rfl

theorem resultsAmount_failed (results : List OperationResult) :
    resultsAmount plan .failedIterations k results =
      UInt64.ofNat (results.filter fun result => result.status ≠ .ok).length := by
  induction results with
  | nil => rfl
  | cons result results ih =>
    rw [resultsAmount_cons, ih]
    by_cases hok : result.status = .ok
    · simp [OperationResult.amount, hok]
    · simp [OperationResult.amount, hok, UInt64.add_comm]

theorem resultsAmount_entries (results : List OperationResult) :
    resultsAmount plan .entriesTouched k results =
      ((results.filter fun result => result.status = .ok).map
        OperationResult.entriesTouched).sum := by
  induction results with
  | nil => rfl
  | cons result results ih =>
    rw [resultsAmount_cons, ih]
    by_cases hok : result.status = .ok
    · simp [OperationResult.amount, hok]
    · simp [OperationResult.amount, hok]

theorem resultsAmount_bytes (results : List OperationResult) :
    resultsAmount plan .bytesProcessed k results =
      (planValueLength plan k).toUInt64 * resultsAmount plan .entriesTouched k results := by
  induction results with
  | nil => simp [resultsAmount]
  | cons result results ih =>
    rw [resultsAmount_cons, resultsAmount_cons, ih, UInt64.mul_add]
    by_cases hok : result.status = .ok
    · simp [OperationResult.amount, hok]
    · simp [OperationResult.amount, hok]

theorem planAmount_sum {c : Counter} (hc : c ≠ .lastPrintedIterations) :
    ∑ i, planAmount plan c k i = expectedReport plan k c := by
  cases c with
  | lastPrintedIterations => exact absurd rfl hc
  | entriesTouched => simp [planAmount, expectedReport, entriesTotal, resultsAmount_entries]
  | bytesProcessed =>
    simp [planAmount, expectedReport, entriesTotal, resultsAmount_bytes, resultsAmount_entries,
      Finset.mul_sum]
  | doneIterations =>
    simp [planAmount, expectedReport, operationsTotal, resultsAmount_done, ofNat_sum]
  | failedIterations =>
    simp [planAmount, expectedReport, failedTotal, resultsAmount_failed, ofNat_sum]
  | totalIterations =>
    simp [planAmount, expectedReport, operationsTotal, resultsAmount_total, ofNat_sum]

theorem reportsBefore_succ :
    reportsBefore plan (k + 1) =
      reportsBefore plan k ++ conclusionReads.map (reportEntry plan k) := by
  simp [reportsBefore, List.range_succ]

theorem mem_reportsBefore {entry : ℕ × Counter × UInt64} (h : entry ∈ reportsBefore plan k) :
    entry.2.1 ∈ conclusionReads ∧ entry.2.2 = expectedReport plan entry.1 entry.2.1 := by
  simp only [reportsBefore, List.mem_flatMap, List.mem_map] at h
  obtain ⟨workload, _, counter, hcounter, rfl⟩ := h
  exact ⟨hcounter, rfl⟩

theorem ne_lastPrinted_of_read {c : Counter} (h : c ∈ conclusionReads) :
    c ≠ .lastPrintedIterations := by
  rintro rfl
  simp [conclusionReads] at h

/-- The reports so far and those that thread 0 has still to make come to those of
all workloads up to its own. -/
def Reported (plan : List (BenchWorkload n)) (t : BenchThread)
    (reports : List (ℕ × Counter × UInt64)) : Prop :=
  reports ++ t.point.unread.map (reportEntry plan t.workload) =
    reportsBefore plan (t.workload + 1)

theorem enterWorkload_reported {i : Fin n} {reports : List (ℕ × Counter × UInt64)}
    (h : reports = reportsBefore plan k) : Reported plan (enterWorkload plan k i) reports := by
  rw [Reported, reportsBefore_succ, h]
  rfl

section

variable {i : Fin n} {t t' : BenchThread} {shared shared' : BenchShared}

theorem BenchAct.keeps_reported (hi : i.val = 0)
    (hcount : ∀ reads, t.point = .conclude reads → ∀ c, c ≠ .lastPrintedIterations →
      shared.progress c = expectedReport plan t.workload c)
    (ht : Reported plan t shared.reports) (h : BenchAct plan i t shared t' shared') :
    Reported plan t' shared'.reports := by
  cases h with
  | conclude hp =>
    rename_i reads c
    simp only [Reported, hp, BenchPoint.unread, List.map_cons] at ht
    have hmem : reportEntry plan t.workload c ∈ reportsBefore plan (t.workload + 1) := by
      rw [← ht]
      simp
    have hvalue : shared.progress c = expectedReport plan t.workload c :=
      hcount _ hp c (ne_lastPrinted_of_read (mem_reportsBefore hmem).1)
    simpa [Reported, BenchPoint.unread, hvalue, reportEntry] using ht
  | closeFence hp =>
    apply enterWorkload_reported
    simpa [Reported, hp, BenchPoint.unread] using ht
  | skipConclusion _ hnot => exact absurd hi hnot
  | addTotal hp | addEntries hp | addFailed hp | addBytes hp | addDone hp | printStore hp
  | clear hp =>
    simpa [Reported, hp, BenchPoint.unread, BenchShared.add, BenchShared.store] using ht
  | _ hp => simpa [Reported, hp, BenchPoint.unread] using ht

/-- Only thread 0 reports. -/
theorem BenchAct.keeps_reports (hi : i.val ≠ 0) (ht : t.Local plan i)
    (h : BenchAct plan i t shared t' shared') : shared'.reports = shared.reports := by
  cases h with
  | conclude hp => exact absurd (ht.zero _ (.inl hp)) hi
  | _ => rfl

end

end

namespace Bench

variable {n : ℕ} {plan : List (BenchWorkload n)} {s s' : Bench n} {event : Fin n × Int64}
  {allowed : Bench n → Fin n × Int64 → Prop}

theorem reaches_ledger (h : Reaches (step plan) allowed (start plan) s) {zero : Fin n}
    (hzero : zero.val = 0) : s.Ledger plan zero := by
  exact h.invariant (fun s => s.Ledger plan zero) (start_ledger plan zero)
    fun _ _ _ hreach hledger _ hstep => hledger.step hzero (reaches_apart hreach) hstep

/-- In the conclusion block the counters are complete. -/
theorem Ledger.concluding {zero : Fin n} (h : s.Ledger plan zero) (hs : s.Apart plan)
    {reads : List Counter} (hp : (s.threads zero).point = .conclude reads) {c : Counter}
    (hc : c ≠ .lastPrintedIterations) :
    s.shared.progress c = expectedReport plan (s.threads zero).workload c := by
  have hdone := hs.done_of_concluding zero (by simp [hp, BenchPoint.stage])
    (by simp [hp, BenchPoint.AtBarrier])
  have hcurrent : s.current zero = (s.threads zero).workload := by simp [current, hp]
  have hrunning := h.running (by simp [hp]) c hc
  have hpending : ∑ j, (s.threads j).pending plan c (s.threads zero).workload j = 0 := by
    apply Finset.sum_eq_zero
    intro j _
    rw [← (hdone j).1]
    exact pending_of_done ((hs.locals j).rest_empty (hdone j).2) (hdone j).2
  rw [hcurrent, hpending, planAmount_sum hc] at hrunning
  simpa using hrunning

theorem reaches_reported (h : Reaches (step plan) allowed (start plan) s) {zero : Fin n}
    (hzero : zero.val = 0) : Reported plan (s.threads zero) s.shared.reports := by
  refine h.invariant (fun s => Reported plan (s.threads zero) s.shared.reports)
    (enterWorkload_reported rfl) fun s event s' hreach hs _ hstep => ?_
  obtain ⟨_, t, shared, hact, rfl⟩ := step_cases hstep
  have hapart := reaches_apart hreach
  by_cases hi : zero = event.1
  · subst hi
    have hcount : ∀ reads, (s.threads event.1).point = .conclude reads →
        ∀ c, c ≠ .lastPrintedIterations →
          s.shared.progress c = expectedReport plan (s.threads event.1).workload c :=
      fun reads hp c hc => (reaches_ledger hreach hzero).concluding hapart hp hc
    simpa using hact.keeps_reported hzero hcount hs
  · have hother : event.1.val ≠ 0 := fun hval => hi (Fin.ext (hzero.trans hval.symm))
    rw [hact.keeps_reports hother (hapart.locals event.1)]
    simpa [hi] using hs

/-- While a thread runs a workload, the counters and what is pending come to what is to be
reported, and thread 0 does not conclude. -/
theorem reaches_running (h : Reaches (step plan) allowed (start plan) s) {zero i : Fin n}
    (hzero : zero.val = 0) (hi : ¬(s.threads i).point.AtBarrier ∧
      ((s.threads i).point.stage = 1 ∨ (s.threads i).point.stage = 2)) :
    (∀ reads, (s.threads zero).point ≠ .conclude reads ∧
      (s.threads zero).point ≠ .clear reads) ∧
    ∀ c, c ≠ .lastPrintedIterations →
      s.shared.progress c + ∑ j, (s.threads j).pending plan c (s.threads i).workload j =
        expectedReport plan (s.threads i).workload c := by
  obtain ⟨hcurrent, hstage⟩ := (reaches_apart h).current_of_running hi zero
  have hnot : ∀ reads, (s.threads zero).point ≠ .conclude reads ∧
      (s.threads zero).point ≠ .clear reads := by
    intro reads
    constructor <;>
    · intro hp
      simp [hp, BenchPoint.stage] at hstage
  refine ⟨hnot, fun c hc => ?_⟩
  have hrunning := (reaches_ledger h hzero).running (fun stores => (hnot stores).2) c hc
  rwa [hcurrent, planAmount_sum hc] at hrunning

/-- Thread 0 reports what the operations of the workload come to, and what is added is
added to the counters of its own workload, before thread 0 reads or clears them. -/
theorem progress_reported (h : Reaches (step plan) allowed (start plan) s) {zero : Fin n}
    (hzero : zero.val = 0) :
    (∀ reads, (s.threads zero).point = .conclude reads → ∀ c, c ≠ .lastPrintedIterations →
      s.shared.progress c = expectedReport plan (s.threads zero).workload c) ∧
    s.shared.reports ++ (s.threads zero).point.unread.map
        (reportEntry plan (s.threads zero).workload) =
      reportsBefore plan ((s.threads zero).workload + 1) ∧
    ∀ i, (s.threads i).point.Adds →
      (∀ reads, (s.threads zero).point ≠ .conclude reads ∧
        (s.threads zero).point ≠ .clear reads) ∧
      ∀ c, c ≠ .lastPrintedIterations →
        s.shared.progress c + ∑ j, (s.threads j).pending plan c (s.threads i).workload j =
          expectedReport plan (s.threads i).workload c :=
  ⟨fun _ hp _ hc => (reaches_ledger h hzero).concluding (reaches_apart h) hp hc,
    reaches_reported h hzero, fun _ hadds => reaches_running h hzero (Adds.stage hadds)⟩

/-- Two threads with one operation each, of which the second fails. -/
def onePlan : List (BenchWorkload 2) :=
  [{ valueLength := 10
     results := fun i => if i = 0 then [{ entriesTouched := 3 }] else [{ status := .error }] }]

/-- Both threads in turn, until each has tested whether it was the last. -/
def untilTested : List (Fin 2 × Int64) := (List.replicate 15 [(0, 0), (1, 0)]).flatten

theorem onePlan_progress_reported : ∃ s,
    run (step onePlan) (start onePlan) (untilTested ++ [(0, 0), (1, 0), (1, 0), (0, 0)]) = some s ∧
    (s.threads 0).point = .conclude conclusionReads ∧
    s.shared.progress .entriesTouched = 3 ∧ s.shared.progress .failedIterations = 1 ∧
    s.shared.progress .bytesProcessed = 30 ∧ s.shared.progress .doneIterations = 2 ∧
    s.shared.progress .totalIterations = 2 := by
  have hrun : ∃ s, run (step onePlan) (start onePlan)
      (untilTested ++ [(0, 0), (1, 0), (1, 0), (0, 0)]) = some s ∧
      (s.threads 0).point = .conclude conclusionReads ∧ (s.threads 0).workload = 0 :=
    ⟨_, rfl, rfl, rfl⟩
  obtain ⟨s, hs, hp, hworkload⟩ := hrun
  have hreaches : Reaches (step onePlan) (fun _ _ => True) (start onePlan) s :=
    reaches_of_run (fun _ _ _ => trivial) hs
  have hzero : (0 : Fin 2).val = 0 := rfl
  have hreport := (progress_reported hreaches hzero).1 _ hp
  rw [hworkload] at hreport
  exact ⟨s, hs, hp, hreport _ (by decide), hreport _ (by decide), hreport _ (by decide),
    hreport _ (by decide), hreport _ (by decide)⟩

end Bench

end Ucsb
