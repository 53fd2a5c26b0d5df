import Ucsb.BenchFlush

namespace Ucsb

open StepSystem Tally BinaryRounding

/-- `print_iterations_step`, with the double next to 0.05. -/
def printIterationsStep (progress : Counter → UInt64) : UInt64 :=
  let twentieth : ℚ := 3602879701896397 / 72057594037927936
  let step := truncateTo 64 (roundTo 53 (twentieth * roundTo 53 (progress .totalIterations).toNat))
  max (UInt64.ofNat (step.getD 0)) 1

theorem isTimeToPrint_iff (progress : Counter → UInt64) (doneIts : UInt64) :
    isTimeToPrint progress doneIts = true ↔ doneIts = progress .totalIterations ∨
      printIterationsStep progress ≤ doneIts - progress .lastPrintedIterations := by
  have htwentieth : (3602879701896397 / 72057594037927936 : ℚ) =
      { num := 3602879701896397, den := 72057594037927936, reduced := by decide } := by
    decide +kernel
  simp [isTimeToPrint, printIterationsStep, htwentieth]

section

variable {n k : ℕ} {plan : List (BenchWorkload n)} {i : Fin n} {t t' : BenchThread}
  {shared shared' : BenchShared}

theorem BenchAct.left_le (ht : t.Local plan i) (h : BenchAct plan i t shared t' shared') :
    t'.left plan k i ≤ t.left plan k i := by
  cases h with
  | closeFence hp => exact Nat.le_of_eq (closeFence_left ht hp)
  | addDone hp =>
    simp only [BenchThread.left, hp, BenchPoint.unadded]
    split <;> simp
  | operate hp hrest => simp [BenchThread.left, hp, hrest, BenchPoint.unadded]
  | _ hp => simp [BenchThread.left, hp, BenchPoint.unadded]

/-- What an action does to the counters that the throttle compares. -/
inductive PrintAct (t : BenchThread) (shared : BenchShared) : BenchThread → BenchShared → Prop
  | quiet {t' : BenchThread} {shared' : BenchShared}
    (hlast : shared'.progress .lastPrintedIterations = shared.progress .lastPrintedIterations)
    (hdone : shared'.progress .doneIterations = shared.progress .doneIterations)
    (hpoint : t'.point ≠ .loadPrinted ∧ t'.point ≠ .printStore)
    (hbefore : t.point ≠ .printStore ∧ ∀ stores, t.point ≠ .clear stores)
    (hclear : ∀ stores, t'.point = .clear stores → .lastPrintedIterations ∈ stores) :
    PrintAct t shared t' shared'
  | addDone (hp : t.point = .addDone) {t' : BenchThread} (hp' : t'.point = .loadDone) :
    PrintAct t shared t' (shared.add .doneIterations 1)
  | loadDone (hp : t.point = .loadDone) :
    PrintAct t shared
      { t with point := .loadPrinted, doneIts := shared.progress .doneIterations } shared
  | printLoad (hp : t.point = .printLoad) :
    PrintAct t shared
      { t with point := .printStore, doneIts := shared.progress .doneIterations } shared
  | printStore (hp : t.point = .printStore) :
    PrintAct t shared { t with point := .storeSpeed }
      (shared.store .lastPrintedIterations t.doneIts)
  | clear {c : Counter} {stores : List Counter} (hp : t.point = .clear (c :: stores)) :
    PrintAct t shared { t with point := .clear stores } (shared.store c 0)
  | clearEnd (hp : t.point = .clear []) :
    PrintAct t shared { t with point := .concluded } { shared with prevOpsPerSecond := 0 }

theorem BenchAct.printAct (h : BenchAct plan i t shared t' shared') :
    PrintAct t shared t' shared' := by
  cases h with
  | addDone hp => exact .addDone hp rfl
  | loadDone hp => exact .loadDone hp
  | printLoad hp => exact .printLoad hp
  | printStore hp => exact .printStore hp
  | clear hp => exact .clear hp
  | clearEnd hp => exact .clearEnd hp
  | closeFence hp =>
    refine .quiet rfl rfl ?_ ?_ ?_ <;> simp [hp, enterWorkload]
  | concludeEnd hp =>
    refine .quiet rfl rfl ?_ ?_ ?_ <;> simp [hp, clearStores]
  | _ hp =>
    refine .quiet ?_ ?_ ?_ ?_ ?_ <;> simp [hp, BenchShared.add]

end

namespace Bench

variable {n k : ℕ} {plan : List (BenchWorkload n)} {s s' : Bench n} {event : Fin n × Int64}
  {allowed : Bench n → Fin n × Int64 → Prop} {i : Fin n}

/-- A thread that is about to compare has loaded no less than what was last printed, so
that the difference is the iterations done since, and it prints for enough of them. -/
def ThrottleExact (s : Bench n) : Prop :=
  ∀ i, (s.threads i).point = .loadPrinted →
    s.shared.progress .lastPrintedIterations ≤ (s.threads i).doneIts ∧
    (isTimeToPrint s.shared.progress (s.threads i).doneIts = true →
      (s.threads i).doneIts = s.shared.progress .totalIterations ∨
      (s.shared.progress .lastPrintedIterations).toNat +
        (printIterationsStep s.shared.progress).toNat ≤ (s.threads i).doneIts.toNat)

/-- No thread records a print of more iterations than another one has loaded and is
about to compare. -/
def Timely (s : Bench n) (event : Fin n × Int64) : Prop :=
  (s.threads event.1).point = .printStore → ∀ j, (s.threads j).point = .loadPrinted →
    (s.threads event.1).doneIts ≤ (s.threads j).doneIts

instance (s : Bench n) (event : Fin n × Int64) : Decidable (s.Timely event) :=
  inferInstanceAs (Decidable (_ → ∀ _, _ → _))

theorem throttleExact_iff : s.ThrottleExact ↔ ∀ i, (s.threads i).point = .loadPrinted →
    s.shared.progress .lastPrintedIterations ≤ (s.threads i).doneIts := by
  refine ⟨fun h i hp => (h i hp).1, fun h i hp => ⟨h i hp, fun htime => ?_⟩⟩
  have hle := UInt64.le_iff_toNat_le.mp (h i hp)
  rcases (isTimeToPrint_iff _ _).mp htime with htotal | hstep
  · exact .inl htotal
  · rw [UInt64.le_iff_toNat_le, UInt64.toNat_sub_of_le _ _ (h i hp)] at hstep
    right
    omega

theorem reaches_left_le (h : Reaches (step plan) allowed (start plan) s) (k : ℕ) :
    s.left plan k ≤ operationsTotal plan k := by
  refine h.invariant (fun s => s.left plan k ≤ operationsTotal plan k) ?_ ?_
  · simp [left, start, enterWorkload_left, operationsTotal]
  · intro s event s' hreach hs _ hstep
    obtain ⟨_, t, shared, hact, rfl⟩ := step_cases hstep
    have hless := hact.left_le (k := k) (reaches_local hreach event.1)
    have hupdate := left_update plan k s event.1 t shared
    omega

/-- The counter has room for the iteration that a thread is about to add to it. -/
theorem done_lt (hbound : ∀ k, operationsTotal plan k < 2 ^ 64)
    (h : Reaches (step plan) allowed (start plan) s) (hp : (s.threads i).point = .addDone) :
    (s.shared.progress .doneIterations).toNat + 1 < 2 ^ 64 := by
  have hzero : (⟨0, i.pos⟩ : Fin n).val = 0 := rfl
  have hdone := done_add_left h hzero (i := i)
    ⟨by simp [hp, BenchPoint.AtBarrier], .inr (by simp [hp, BenchPoint.stage])⟩
  have hpos : 0 < s.left plan (s.threads i).workload := by
    refine Nat.pos_of_ne_zero fun hsum => ?_
    have hnone := Finset.sum_eq_zero_iff.mp hsum i (Finset.mem_univ _)
    simp [BenchThread.left, hp, BenchPoint.unadded] at hnone
  have hle := reaches_left_le h (s.threads i).workload
  have hlt := hbound (s.threads i).workload
  have hdoneLt := (s.shared.progress .doneIterations).toNat_lt
  rw [← UInt64.toNat_inj, UInt64.toNat_add, UInt64.toNat_ofNat', UInt64.toNat_ofNat'] at hdone
  omega

/-- While a thread is in the loop, no thread is clearing the counters. -/
theorem Apart.not_clearing (h : s.Apart plan) (hbarrier : ¬(s.threads i).point.AtBarrier)
    (hstage : (s.threads i).point.stage = 2) (j : Fin n) (stores : List Counter) :
    (s.threads j).point ≠ .clear stores := by
  intro hp
  rcases (h.same_of_running hbarrier hstage j).2 with hpoint | hpoint <;>
    simp [hp, BenchPoint.stage] at hpoint

/-- The counters of the throttle are ordered as the threads read and store them. -/
structure PrintOrder (s : Bench n) : Prop where
  recorded : (∀ i stores, (s.threads i).point ≠ .clear stores) →
    (s.shared.progress .lastPrintedIterations).toNat ≤
      (s.shared.progress .doneIterations).toNat
  cleared : ∀ i stores, (s.threads i).point = .clear stores →
    .lastPrintedIterations ∉ stores → s.shared.progress .lastPrintedIterations = 0
  printing : ∀ i, (s.threads i).point = .printStore →
    (s.threads i).doneIts.toNat ≤ (s.shared.progress .doneIterations).toNat

theorem start_printOrder (plan : List (BenchWorkload n)) : (start plan).PrintOrder where
  recorded _ := Nat.le_refl _
  cleared _ _ _ _ := rfl
  printing _ hp := by simp [start, enterWorkload] at hp

theorem PrintOrder.update {t : BenchThread} {shared : BenchShared}
    (hrecorded : (∀ stores, t.point ≠ .clear stores) →
      (∀ j, j ≠ i → ∀ stores, (s.threads j).point ≠ .clear stores) →
      (shared.progress .lastPrintedIterations).toNat ≤ (shared.progress .doneIterations).toNat)
    (hcleared : ∀ stores, t.point = .clear stores → .lastPrintedIterations ∉ stores →
      shared.progress .lastPrintedIterations = 0)
    (hprinting : t.point = .printStore →
      t.doneIts.toNat ≤ (shared.progress .doneIterations).toNat)
    (hothers : ∀ j, j ≠ i →
      (∀ stores, (s.threads j).point = .clear stores → .lastPrintedIterations ∉ stores →
        shared.progress .lastPrintedIterations = 0) ∧
      ((s.threads j).point = .printStore →
        (s.threads j).doneIts.toNat ≤ (shared.progress .doneIterations).toNat)) :
    PrintOrder { shared := shared, threads := Function.update s.threads i t } := by
  refine ⟨fun hnot => hrecorded ?_ fun j hj => ?_, ?_, ?_⟩
  · simpa using hnot i
  · simpa [hj] using hnot j
  · exact (Function.forall_update_iff s.threads (fun _ t => ∀ stores, t.point = .clear stores →
      .lastPrintedIterations ∉ stores → shared.progress .lastPrintedIterations = 0)).mpr
        ⟨hcleared, fun j hj => (hothers j hj).1⟩
  · exact (Function.forall_update_iff s.threads (fun _ t => t.point = .printStore →
      t.doneIts.toNat ≤ (shared.progress .doneIterations).toNat)).mpr
        ⟨hprinting, fun j hj => (hothers j hj).2⟩

/-- Thread `i` clears a counter while no thread is in the loop. -/
theorem PrintOrder.clear {c : Counter} {stores : List Counter} (h : s.PrintOrder)
    (hapart : s.Apart plan) (hp : (s.threads i).point = .clear (c :: stores)) :
    PrintOrder { shared := s.shared.store c 0,
                 threads := Function.update s.threads i
                  { s.threads i with point := .clear stores } } := by
  have hstill : .lastPrintedIterations ∉ c :: stores ∨ c = .lastPrintedIterations ∨
      .lastPrintedIterations ∈ stores := by
    rw [List.mem_cons]
    tauto
  have hlast : ∀ j stores', (s.threads j).point = .clear stores' →
      .lastPrintedIterations ∉ stores' ∨ c = .lastPrintedIterations →
      (s.shared.store c 0).progress .lastPrintedIterations = 0 := by
    intro j stores' hj hmem
    by_cases hc : c = .lastPrintedIterations
    · simp [BenchShared.store, hc]
    · have hsame := h.cleared j stores' hj (hmem.resolve_right hc)
      simpa [BenchShared.store, Ne.symm hc] using hsame
  refine .update (fun hnot _ => absurd rfl (hnot stores)) (fun stores' hp' hmem => ?_) (by simp)
    (fun j hj => ⟨fun stores' hp' hmem => hlast j stores' hp' (.inl hmem), fun hp' => ?_⟩)
  · cases BenchPoint.clear.inj hp'
    rcases hstill with hnot | hc | hin
    · exact hlast i _ hp (.inl hnot)
    · exact hlast i _ hp (.inr hc)
    · exact absurd hin hmem
  · exact absurd hp (hapart.not_clearing (i := j) (by simp [hp', BenchPoint.AtBarrier])
      (by simp [hp', BenchPoint.stage]) i _)

theorem PrintOrder.step (h : s.PrintOrder) (hbound : ∀ k, operationsTotal plan k < 2 ^ 64)
    (hreach : Reaches (step plan) allowed (start plan) s) (hstep : s.step plan event = some s') :
    s'.PrintOrder := by
  obtain ⟨_, t, shared, hact, rfl⟩ := step_cases hstep
  have hapart := reaches_apart hreach
  have hall : ∀ {point}, (s.threads event.1).point = point → (∀ stores, point ≠ .clear stores) →
      (∀ j, j ≠ event.1 → ∀ stores, (s.threads j).point ≠ .clear stores) →
      ∀ j stores, (s.threads j).point ≠ .clear stores := by
    intro point hp hnot hothers j
    by_cases hj : j = event.1
    · rw [hj, hp]
      exact hnot
    · exact hothers j hj
  cases hact.printAct with
  | quiet hlast hdone hpoint hbefore hclear =>
    refine .update (fun _ hothers => ?_) (fun stores hp hmem => absurd (hclear stores hp) hmem)
      (fun hp => absurd hp hpoint.2) (fun j hj => ⟨?_, ?_⟩)
    · rw [hlast, hdone]
      exact h.recorded (hall rfl hbefore.2 hothers)
    · rw [hlast]
      exact h.cleared j
    · rw [hdone]
      exact h.printing j
  | addDone hp hp' =>
    have hlt := done_lt hbound hreach hp
    have hdone : ((s.shared.add .doneIterations 1).progress .doneIterations).toNat =
        (s.shared.progress .doneIterations).toNat + 1 := by
      simp only [BenchShared.add, Function.update_self]
      rw [UInt64.toNat_add, UInt64.toNat_one, Nat.mod_eq_of_lt hlt]
    have hlast : (s.shared.add .doneIterations 1).progress .lastPrintedIterations =
        s.shared.progress .lastPrintedIterations := rfl
    refine .update (fun _ hothers => ?_) (by simp [hp']) (by simp [hp'])
      (fun j hj => ⟨h.cleared j, fun hpj => ?_⟩)
    · have hle := h.recorded (hall hp (by simp) hothers)
      rw [hlast]
      omega
    · have hle := h.printing j hpj
      omega
  | loadDone hp =>
    exact .update (fun _ hothers => h.recorded (hall hp (by simp) hothers)) (by simp) (by simp)
      (fun j _ => ⟨h.cleared j, h.printing j⟩)
  | printLoad hp =>
    exact .update (fun _ hothers => h.recorded (hall hp (by simp) hothers)) (by simp)
      (fun _ => Nat.le_refl _) (fun j _ => ⟨h.cleared j, h.printing j⟩)
  | printStore hp =>
    have hnot := hapart.not_clearing (i := event.1) (by simp [hp, BenchPoint.AtBarrier])
      (by simp [hp, BenchPoint.stage])
    exact .update (fun _ _ => h.printing _ hp) (by simp) (by simp)
      (fun j _ => ⟨fun stores hpj => absurd hpj (hnot j stores), h.printing j⟩)
  | clear hp => exact h.clear hapart hp
  | clearEnd hp =>
    have hzero := h.cleared _ _ hp List.not_mem_nil
    refine .update (fun _ _ => ?_) (by simp) (by simp) (fun j _ => ⟨h.cleared j, h.printing j⟩)
    rw [hzero]
    exact Nat.zero_le _

theorem reaches_printOrder (hbound : ∀ k, operationsTotal plan k < 2 ^ 64)
    (h : Reaches (step plan) allowed (start plan) s) : s.PrintOrder :=
  h.invariant PrintOrder (start_printOrder plan) fun _ _ _ hreach hs _ hstep =>
    hs.step hbound hreach hstep

/-- A store of the last print keeps the comparisons exact that it comes in time for, and
only these. -/
theorem throttleExact_step (hbound : ∀ k, operationsTotal plan k < 2 ^ 64)
    (hreach : Reaches (step plan) allowed (start plan) s) (h : s.ThrottleExact)
    (hstep : s.step plan event = some s') : s'.ThrottleExact ↔ s.Timely event := by
  have horder := reaches_printOrder hbound hreach
  obtain ⟨_, t, shared, hact, rfl⟩ := step_cases hstep
  rw [throttleExact_iff] at h ⊢
  rw [Function.forall_update_iff s.threads (fun _ t => t.point = .loadPrinted →
    shared.progress .lastPrintedIterations ≤ t.doneIts)]
  have hnever : (s.threads event.1).point ≠ .printStore → s.Timely event :=
    fun hne hp => absurd hp hne
  cases hact.printAct with
  | quiet hlast _ hpoint hbefore _ =>
    refine iff_of_true ⟨fun hp => absurd hp hpoint.1, fun j _ => ?_⟩ (hnever hbefore.1)
    rw [hlast]
    exact h j
  | addDone hp hp' =>
    exact iff_of_true ⟨by simp [hp'], fun j _ => h j⟩ (hnever (by simp [hp]))
  | loadDone hp =>
    -- the counter that is loaded has passed what was last printed
    have hnot := (reaches_apart hreach).not_clearing (i := event.1)
      (by simp [hp, BenchPoint.AtBarrier]) (by simp [hp, BenchPoint.stage])
    have hle := UInt64.le_iff_toNat_le.mpr (horder.recorded hnot)
    exact iff_of_true ⟨fun _ => hle, fun j _ => h j⟩ (hnever (by simp [hp]))
  | printLoad hp => exact iff_of_true ⟨by simp, fun j _ => h j⟩ (hnever (by simp [hp]))
  | printStore hp =>
    constructor
    · rintro ⟨_, hothers⟩ _ j hpj
      by_cases hj : j = event.1
      · rw [hj, hp] at hpj
        cases hpj
      · exact hothers j hj hpj
    · exact fun htimely => ⟨by simp, fun j _ hpj => htimely hp j hpj⟩
  | clear hp =>
    refine iff_of_true ⟨by simp, fun j _ hpj => ?_⟩ (hnever (by simp [hp]))
    exact absurd hp ((reaches_apart hreach).not_clearing (i := j)
      (by simp [hpj, BenchPoint.AtBarrier]) (by simp [hpj, BenchPoint.stage]) _ _)
  | clearEnd hp => exact iff_of_true ⟨by simp, fun j _ => h j⟩ (hnever (by simp [hp]))

theorem reaches_throttleExact (hbound : ∀ k, operationsTotal plan k < 2 ^ 64)
    (h : Reaches (step plan) Timely (start plan) s) : s.ThrottleExact := by
  refine h.invariant ThrottleExact (fun i hp => ?_) fun _ _ _ hreach hs htimely hstep =>
    (throttleExact_step hbound hreach hs hstep).mpr htimely
  simp [start, enterWorkload] at hp

/-- In a run whose prints are all recorded in time the throttle never wraps, and the first
print that is not makes it wrap. -/
theorem throttle_never_wraps (hbound : ∀ k, operationsTotal plan k < 2 ^ 64)
    (h : Reaches (step plan) Timely (start plan) s) :
    s.ThrottleExact ∧ ∀ event s', s.step plan event = some s' →
      (s'.ThrottleExact ↔ s.Timely event) :=
  ⟨reaches_throttleExact hbound h, fun _ _ hstep =>
    throttleExact_step hbound h (reaches_throttleExact hbound h) hstep⟩

/-- Both threads in turn, until each has chosen its operation. -/
def untilOperating : List (Fin 2 × Int64) :=
  (List.replicate 4 ((List.finRange 2).map fun i => (i, 0))).flatten

theorem onePlan_operationsTotal_lt (k : ℕ) : operationsTotal onePlan k < 2 ^ 64 := by
  cases k with
  | zero => decide
  | succ k => simp [operationsTotal, planResults, onePlan]

/-- Both threads have loaded both iterations when thread 0 records its print. -/
theorem onePlan_throttle_exact : ∃ s,
    run (guarded (step onePlan) Timely) (start onePlan)
      (untilOperating ++ (List.replicate 6 [(0, 0), (1, 0)]).flatten ++ List.replicate 3 (0, 0)) =
        some s ∧
    (s.threads 1).point = .loadPrinted ∧ s.shared.progress .lastPrintedIterations = 2 ∧
    s.ThrottleExact := by
  have hrun : ∃ s, run (guarded (step onePlan) Timely) (start onePlan)
      (untilOperating ++ (List.replicate 6 [(0, 0), (1, 0)]).flatten ++ List.replicate 3 (0, 0)) =
        some s ∧
      (s.threads 1).point = .loadPrinted ∧ s.shared.progress .lastPrintedIterations = 2 :=
    ⟨_, rfl, rfl, rfl⟩
  obtain ⟨s, hs, hp, hlast⟩ := hrun
  have hreaches := reaches_of_guarded_run hs
  exact ⟨s, hs, hp, hlast, (throttle_never_wraps onePlan_operationsTotal_lt hreaches).1⟩

/-- Thread 1 counts and prints between the two loads of thread 0. -/
theorem throttle_wraps :
    ¬∀ (n : ℕ) (plan : List (BenchWorkload n)) (s : Bench n),
      (∀ k, operationsTotal plan k < 2 ^ 64) →
      Reaches (step plan) (fun _ _ => True) (start plan) s → s.ThrottleExact := by
  intro h
  have hrun : ∃ s, run (step onePlan) (start onePlan)
      (untilOperating ++ List.replicate 6 (0, 0) ++ List.replicate 9 (1, 0)) = some s ∧
      (s.threads 0).point = .loadPrinted ∧ (s.threads 0).doneIts = 1 ∧
      s.shared.progress .lastPrintedIterations = 2 := ⟨_, rfl, rfl, rfl, rfl⟩
  obtain ⟨s, hs, hp, hdone, hlast⟩ := hrun
  have hreaches : Reaches (step onePlan) (fun _ _ => True) (start onePlan) s :=
    reaches_of_run (fun _ _ _ => trivial) hs
  have hle := (h 2 onePlan s onePlan_operationsTotal_lt hreaches 0 hp).1
  rw [hdone, hlast] at hle
  exact absurd hle (by decide)

end Bench

end Ucsb
