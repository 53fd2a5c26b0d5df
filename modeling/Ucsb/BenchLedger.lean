import Ucsb.BenchBarrier
import Ucsb.Tally
import Mathlib.Data.UInt

namespace Ucsb

open StepSystem Tally

/-- The counters that the result in hand has not been added to. -/
def BenchPoint.unadded : BenchPoint → List Counter
  | .addEntries => [.entriesTouched, .failedIterations, .bytesProcessed, .doneIterations]
  | .addFailed => [.failedIterations, .bytesProcessed, .doneIterations]
  | .addBytes => [.bytesProcessed, .doneIterations]
  | .addDone => [.doneIterations]
  | _ => []

/-- The points where a thread is about to add to a counter. -/
def BenchPoint.Adds (point : BenchPoint) : Prop :=
  point = .addTotal ∨ point = .addEntries ∨ point = .addFailed ∨ point = .addBytes ∨
    point = .addDone

section

variable {n : ℕ} (plan : List (BenchWorkload n)) (c : Counter) (k : ℕ) (i : Fin n)

def resultsAmount (results : List OperationResult) : UInt64 :=
  (results.map fun result => result.amount (planValueLength plan k) c).sum

/-- All that thread `i` adds to a counter in workload `k`. -/
def planAmount : UInt64 :=
  (if c = .totalIterations then UInt64.ofNat (planResults plan k i).length else 0) +
    resultsAmount plan c k (planResults plan k i)

/-- What thread `i` has still to add to a counter in workload `k`. -/
def BenchThread.pending (t : BenchThread) : UInt64 :=
  if t.workload = k then
    (if c = .totalIterations ∧
        (t.point = .opening ∨ t.point = .openFence ∨ t.point = .addTotal) then
      UInt64.ofNat (planResults plan k i).length else 0) +
    ((if c ∈ t.point.unadded then t.result.amount (planValueLength plan k) c else 0) +
      resultsAmount plan c k t.rest)
  else if t.workload < k then planAmount plan c k i else 0

end

theorem stage_le (point : BenchPoint) : point.stage ≤ 3 := by
  cases point <;> simp [BenchPoint.stage]

section

variable {n : ℕ} {plan : List (BenchWorkload n)} {c : Counter} {k : ℕ} {i : Fin n}
  {t t' : BenchThread} {shared shared' : BenchShared}

theorem resultsAmount_cons (result : OperationResult) (results : List OperationResult) :
    resultsAmount plan c k (result :: results) =
      result.amount (planValueLength plan k) c + resultsAmount plan c k results := by
  simp [resultsAmount]

theorem enterWorkload_pending {entered : ℕ} :
    (enterWorkload plan entered i).pending plan c k i =
      if entered ≤ k then planAmount plan c k i else 0 := by
  rcases Nat.lt_trichotomy entered k with hlt | rfl | hgt
  · simp [BenchThread.pending, enterWorkload, Nat.ne_of_lt hlt, hlt, Nat.le_of_lt hlt]
  · simp [BenchThread.pending, enterWorkload, planAmount, BenchPoint.unadded]
  · simp [BenchThread.pending, enterWorkload, Nat.ne_of_gt hgt, Nat.not_lt_of_gt hgt,
      Nat.not_le_of_gt hgt]

/-- A thread that is through with its operations has nothing left to add. -/
theorem pending_of_done (hrest : t.rest = [])
    (hpoint : t.point = .endBarrier ∨ t.point.stage = 3) :
    t.pending plan c t.workload i = 0 := by
  rcases hpoint with hp | hp
  · simp [BenchThread.pending, hp, hrest, BenchPoint.unadded, resultsAmount]
  · cases hpt : t.point <;> simp [hpt, BenchPoint.stage] at hp <;>
      simp [BenchThread.pending, hpt, hrest, BenchPoint.unadded, resultsAmount]

theorem BenchAct.adds (hadds : t.point.Adds) (h : BenchAct plan i t shared t' shared') :
    shared'.progress c + t'.pending plan c t.workload i =
      shared.progress c + t.pending plan c t.workload i := by
  cases h with
  | addTotal hp | addEntries hp | addFailed hp | addBytes hp =>
    cases c <;> simp [BenchThread.pending, BenchShared.add, BenchPoint.unadded, hp,
      UInt64.add_assoc]
  | addDone hp =>
    cases c <;> simp [BenchThread.pending, BenchShared.add, BenchPoint.unadded, hp,
      OperationResult.amount, UInt64.add_assoc]
  | _ hp => simp [hp, BenchPoint.Adds] at hadds

theorem closeFence_pending (ht : t.Local plan i) (hp : t.point = .closeFence) :
    (enterWorkload plan (t.workload + 1) i).pending plan c k i = t.pending plan c k i := by
  rw [enterWorkload_pending]
  rcases Nat.lt_trichotomy t.workload k with hlt | rfl | hgt
  · simp [BenchThread.pending, Nat.ne_of_lt hlt, hlt, Nat.succ_le_of_lt hlt]
  · have hrest := ht.rest_empty (by simp [hp, BenchPoint.stage])
    simp [pending_of_done hrest (by simp [hp, BenchPoint.stage])]
  · simp [BenchThread.pending, Nat.ne_of_gt hgt, Nat.not_lt_of_gt hgt,
      Nat.not_le_of_gt (Nat.lt_succ_of_lt hgt)]

/-- Other actions leave the counters and what is pending alone. -/
theorem BenchAct.quiet (ht : t.Local plan i) (h : BenchAct plan i t shared t' shared')
    (hadds : ¬t.point.Adds) (hclear : ∀ stores, t.point ≠ .clear stores)
    (hc : c ≠ .lastPrintedIterations) :
    shared'.progress c = shared.progress c ∧ t'.pending plan c k i = t.pending plan c k i := by
  cases h with
  | closeFence hp => exact ⟨rfl, closeFence_pending ht hp⟩
  | clear hp | clearEnd hp => exact absurd hp (hclear _)
  | addTotal hp | addEntries hp | addFailed hp | addBytes hp | addDone hp =>
    simp [hp, BenchPoint.Adds] at hadds
  | operate hp hrest =>
    cases c <;> simp [BenchThread.pending, BenchPoint.unadded, hp, hrest, resultsAmount_cons,
      OperationResult.amount]
  | printStore hp => simp [BenchThread.pending, BenchShared.store, BenchPoint.unadded, hp, hc]
  | _ hp => simp [BenchThread.pending, BenchPoint.unadded, hp]

theorem BenchAct.clears {stores : List Counter} (h : BenchAct plan i t shared t' shared')
    (hp : t'.point = .clear stores) :
    t.point = .conclude [] ∧ stores = clearStores ∨ ∃ c, t.point = .clear (c :: stores) := by
  cases h with
  | concludeEnd hpt => exact .inl ⟨hpt, (BenchPoint.clear.inj hp).symm⟩
  | clear hpt =>
    cases BenchPoint.clear.inj hp
    exact .inr ⟨_, hpt⟩
  | closeFence => simp [enterWorkload] at hp
  | _ => simp at hp

end

namespace Bench

variable {n : ℕ} {plan : List (BenchWorkload n)} {s s' : Bench n} {event : Fin n × Int64}
  {allowed : Bench n → Fin n × Int64 → Prop}

/-- The workload whose additions the counters hold: the one thread 0 is in, or the
next one as soon as thread 0 has cleared them. -/
def current (s : Bench n) (zero : Fin n) : ℕ :=
  (s.threads zero).workload +
    if (s.threads zero).point = .concluded ∨ (s.threads zero).point = .closeFence then 1 else 0

/-- Where the barriers keep the threads apart. -/
structure Apart (s : Bench n) (plan : List (BenchWorkload n)) : Prop where
  passed_le : ∀ i j, (s.threads i).passed ≤ (s.threads j).arrived
  locals : ∀ i, (s.threads i).Local plan i

theorem reaches_apart (h : Reaches (step plan) allowed (start plan) s) : s.Apart plan :=
  ⟨reaches_passed_le h, reaches_local h⟩

theorem Adds.stage {point : BenchPoint} (h : point.Adds) :
    ¬point.AtBarrier ∧ (point.stage = 1 ∨ point.stage = 2) := by
  rcases h with rfl | rfl | rfl | rfl | rfl <;> simp [BenchPoint.AtBarrier, BenchPoint.stage]

/-- While a thread is between the fence and the end of its workload, so is thread 0, up
to the barriers. -/
theorem Apart.current_of_running (h : s.Apart plan) {i : Fin n}
    (hi : ¬(s.threads i).point.AtBarrier ∧
      ((s.threads i).point.stage = 1 ∨ (s.threads i).point.stage = 2)) (zero : Fin n) :
    s.current zero = (s.threads i).workload ∧ (s.threads zero).point.stage ≤ 2 := by
  obtain ⟨hbarrier, hstage⟩ := hi
  have hfrom := h.passed_le i zero
  have hto := h.passed_le zero i
  have hstage0 := stage_le (s.threads zero).point
  simp only [BenchThread.arrived, BenchThread.passed, hbarrier, if_false] at hfrom hto
  have hsame : (s.threads zero).workload = (s.threads i).workload := by
    split at hfrom <;> omega
  have hlow : (s.threads zero).point.stage ≤ 2 := by
    omega
  refine ⟨?_, hlow⟩
  have hnot : ¬((s.threads zero).point = .concluded ∨ (s.threads zero).point = .closeFence) := by
    rintro (hp | hp) <;> simp [hp, BenchPoint.stage] at hlow
  rw [current, if_neg hnot, hsame, Nat.add_zero]

/-- While thread 0 concludes, the others wait for it behind the end of the workload. -/
theorem Apart.done_of_concluding (h : s.Apart plan) (zero : Fin n)
    (hstage : (s.threads zero).point.stage = 3) (hbarrier : ¬(s.threads zero).point.AtBarrier)
    (j : Fin n) : (s.threads j).workload = (s.threads zero).workload ∧
      ((s.threads j).point = .endBarrier ∨ (s.threads j).point.stage = 3) := by
  have hfrom := h.passed_le zero j
  have hto := h.passed_le j zero
  have hstagej := stage_le (s.threads j).point
  simp only [BenchThread.arrived, BenchThread.passed, hbarrier, if_false, hstage] at hfrom hto
  by_cases hj : (s.threads j).point.stage = 3
  · refine ⟨?_, .inr hj⟩
    split at hfrom <;> omega
  · have hat : (s.threads j).point.AtBarrier ∧ (s.threads j).point.stage = 2 ∧
        (s.threads j).workload = (s.threads zero).workload := by
      split at hfrom
      next hat => exact ⟨hat, by omega, by omega⟩
      next => omega
    obtain ⟨hat, htwo, hworkload⟩ := hat
    refine ⟨hworkload, .inl ?_⟩
    rcases hat with hp | hp | hp | hp <;> simp [hp, BenchPoint.stage] at htwo ⊢

/-- What the counters hold: all that the threads have added for the current
workload, or what `clear` has left. -/
structure Ledger (s : Bench n) (plan : List (BenchWorkload n)) (zero : Fin n) : Prop where
  running : (∀ stores, (s.threads zero).point ≠ .clear stores) →
    ∀ c, c ≠ .lastPrintedIterations →
      s.shared.progress c + ∑ j, (s.threads j).pending plan c (s.current zero) j =
        ∑ j, planAmount plan c (s.current zero) j
  clearing : ∀ stores, (s.threads zero).point = .clear stores →
    ∀ c, c ≠ .lastPrintedIterations → c ∉ stores → s.shared.progress c = 0

theorem start_ledger (plan : List (BenchWorkload n)) (zero : Fin n) :
    (start plan).Ledger plan zero where
  running _ c _ := by
    simp [start, enterWorkload_pending]
  clearing _ hp := by simp [start, enterWorkload] at hp

/-- One thread moves its part from what is pending to the counter. -/
theorem ledger_update {c : Counter} {k : ℕ} {i : Fin n} {t : BenchThread} {count : UInt64}
    (h : count + t.pending plan c k i =
      s.shared.progress c + (s.threads i).pending plan c k i) :
    count + ∑ j, (Function.update s.threads i t j).pending plan c k j =
      s.shared.progress c + ∑ j, (s.threads j).pending plan c k j := by
  have hsum := sum_update_add (fun j (t : BenchThread) => t.pending plan c k j) s.threads i t
  grind

theorem current_update {zero : Fin n} {t : BenchThread} {shared : BenchShared}
    (h : event.1 = zero → t.workload +
        (if t.point = .concluded ∨ t.point = .closeFence then 1 else 0) = s.current zero) :
    Bench.current { shared := shared, threads := Function.update s.threads event.1 t } zero =
      s.current zero := by
  by_cases hi : zero = event.1
  · rw [current]
    simpa [hi] using h hi.symm
  · simp [current, hi]

/-- Only the end of `clear` moves thread 0 to the next workload. -/
theorem benchAct_current {zero : Fin n} (hzero : zero.val = 0) {t : BenchThread}
    {shared : BenchShared} (hclear : ∀ stores, (s.threads zero).point ≠ .clear stores)
    (h : BenchAct plan zero (s.threads zero) s.shared t shared) :
    t.workload + (if t.point = .concluded ∨ t.point = .closeFence then 1 else 0) =
      s.current zero := by
  cases h with
  | clear hp | clearEnd hp => exact absurd hp (hclear _)
  | skipConclusion _ hnot => exact absurd hzero hnot
  | closeFence hp => simp [Bench.current, hp, enterWorkload]
  | _ hp => simp [Bench.current, hp]

/-- Only thread 0 clears. -/
theorem Apart.not_clear {i zero : Fin n} (h : s.Apart plan) (hzero : zero.val = 0) (hi : i ≠ zero)
    (stores : List Counter) : (s.threads i).point ≠ .clear stores := by
  intro hp
  have hval := (h.locals i).zero stores (.inr hp)
  exact hi (Fin.ext (hval.trans hzero.symm))

theorem Ledger.step_running {zero : Fin n} (hzero : zero.val = 0) (h : s.Ledger plan zero)
    (hs : s.Apart plan) (hstep : s.step plan event = some s')
    (hclear : ∀ stores, (s.threads zero).point ≠ .clear stores) : s'.Ledger plan zero := by
  obtain ⟨_, t, shared, hact, rfl⟩ := step_cases hstep
  have hcurrent : Bench.current
      { shared := shared, threads := Function.update s.threads event.1 t } zero =
        s.current zero :=
    current_update fun hi => by
      subst hi
      exact benchAct_current hzero hclear hact
  constructor
  · intro _ c hc
    rw [hcurrent, ← h.running hclear c hc]
    apply ledger_update
    by_cases hadds : (s.threads event.1).point.Adds
    · rw [(hs.current_of_running (Adds.stage hadds) zero).1]
      exact hact.adds hadds
    · have hnot : ∀ stores, (s.threads event.1).point ≠ .clear stores := by
        by_cases hi : event.1 = zero
        · rwa [hi]
        · exact hs.not_clear hzero hi
      obtain ⟨hcount, hpending⟩ := hact.quiet (c := c) (k := s.current zero)
        (hs.locals event.1) hadds hnot hc
      rw [hcount, hpending]
  · intro stores hp c hc hnot
    by_cases hi : zero = event.1
    · subst hi
      rcases hact.clears (by simpa using hp) with ⟨_, rfl⟩ | ⟨_, hp⟩
      · exfalso
        cases c <;> simp [clearStores] at hc hnot
      · exact absurd hp (hclear _)
    · exact absurd (by simpa [hi] using hp) (hclear stores)

/-- After the last store of `clear` the counters hold all of the next workload: nothing. -/
theorem Ledger.after_clear {zero : Fin n} (h : s.Ledger plan zero) (hs : s.Apart plan)
    (hclear : (s.threads zero).point = .clear []) :
    Ledger { shared := { s.shared with prevOpsPerSecond := 0 },
             threads := Function.update s.threads zero
              { s.threads zero with point := .concluded } } plan zero := by
  have hdone := hs.done_of_concluding zero (by simp [hclear, BenchPoint.stage])
    (by simp [hclear, BenchPoint.AtBarrier])
  refine ⟨fun _ c hc => ?_, fun _ hp => by simp at hp⟩
  have hcount : s.shared.progress c = 0 := h.clearing [] hclear c hc (by simp)
  have hnext : ∀ shared, Bench.current ⟨shared, Function.update s.threads zero
      { s.threads zero with point := .concluded }⟩ zero = (s.threads zero).workload + 1 := by
    simp [current]
  rw [hnext]
  simp only [hcount, zero_add]
  apply Finset.sum_congr rfl
  intro j _
  have hworkload : (Function.update s.threads zero
      { s.threads zero with point := .concluded } j).workload = (s.threads zero).workload := by
    by_cases hj : j = zero
    · simp [hj]
    · simpa [hj] using (hdone j).1
  simp [BenchThread.pending, hworkload]

theorem Ledger.step_clearing {zero : Fin n} (hzero : zero.val = 0) (h : s.Ledger plan zero)
    (hs : s.Apart plan) (hstep : s.step plan event = some s') {stores : List Counter}
    (hclear : (s.threads zero).point = .clear stores) : s'.Ledger plan zero := by
  obtain ⟨_, t, shared, hact, rfl⟩ := step_cases hstep
  by_cases hi : zero = event.1
  · subst hi
    cases hact with
    | clearEnd hp => exact h.after_clear hs hp
    | clear hp =>
      rename_i rest c
      refine ⟨fun hnot => absurd (by simp) (hnot rest), fun stores hstores other hc hmem => ?_⟩
      obtain rfl : rest = stores := by simpa using hstores
      by_cases hother : other = c
      · simp [BenchShared.store, hother]
      · simpa [BenchShared.store, hother] using
          h.clearing _ hp other hc (by simp [hother, hmem])
    | _ hp => simp [hclear] at hp
  · have hthread : Function.update s.threads event.1 t zero = s.threads zero := by
      simp [hi]
    refine ⟨fun hnot => ?_, fun others hp c hc hmem => ?_⟩
    · exact absurd (by simpa [hi] using hclear) (hnot stores)
    have hadds : ¬(s.threads event.1).point.Adds := by
      intro hadds
      have hstage := (hs.current_of_running (Adds.stage hadds) zero).2
      simp [hclear, BenchPoint.stage] at hstage
    obtain ⟨hcount, _⟩ := hact.quiet (c := c) (k := 0) (hs.locals event.1) hadds
      (hs.not_clear hzero (Ne.symm hi)) hc
    have hothers : (s.threads zero).point = .clear others := by
      simpa [hthread] using hp
    rw [hcount]
    exact h.clearing others hothers c hc hmem

theorem Ledger.step {zero : Fin n} (hzero : zero.val = 0) (h : s.Ledger plan zero)
    (hs : s.Apart plan) (hstep : s.step plan event = some s') : s'.Ledger plan zero := by
  by_cases hclear : ∀ stores, (s.threads zero).point ≠ .clear stores
  · exact h.step_running hzero hs hstep hclear
  · obtain ⟨stores, hp⟩ := not_forall_not.mp hclear
    exact h.step_clearing hzero hs hstep hp

end Bench

end Ucsb
