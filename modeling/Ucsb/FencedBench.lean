import Ucsb.FencedSystem
import Ucsb.BenchThrottle

namespace Ucsb

open StepSystem

/-- At a call of `fence.sync`. -/
def BenchPoint.AtFence (point : BenchPoint) : Prop := point = .openFence ∨ point = .closeFence

/-- At a barrier of the benchmark library. -/
def BenchPoint.AtLibraryBarrier (point : BenchPoint) : Prop :=
  point = .startBarrier ∨ point = .endBarrier

instance (point : BenchPoint) : Decidable point.AtFence := inferInstanceAs (Decidable (_ ∨ _))

instance (point : BenchPoint) : Decidable point.AtLibraryBarrier :=
  inferInstanceAs (Decidable (_ ∨ _))

/-- How often `sync` has returned to a thread. -/
def BenchThread.synced (t : BenchThread) : ℕ :=
  2 * t.workload + if t.point.stage = 0 then 0 else 1

section

variable {n : ℕ} {plan : List (BenchWorkload n)} {i : Fin n} {t t' : BenchThread}
  {shared shared' : BenchShared}

theorem BenchAct.syncs (h : BenchAct plan i t shared t' shared') :
    t'.synced = t.synced + if t.point.AtFence then 1 else 0 := by
  cases h with
  | closeFence hp =>
    simp [BenchThread.synced, BenchPoint.AtFence, hp, BenchPoint.stage, enterWorkload]
    omega
  | _ hp => simp [BenchThread.synced, BenchPoint.AtFence, hp, BenchPoint.stage]

end

namespace Bench

variable {n : ℕ} {plan : List (BenchWorkload n)} {s s' : Bench n} {event : Fin n × Int64}
  {allowed : Bench n → Fin n × Int64 → Prop}

/-- The barriers of the benchmark library open as before; those of the fence are left
to the fence. -/
def LibraryOpen (s : Bench n) (i : Fin n) : Prop :=
  (s.threads i).point.AtLibraryBarrier → ∀ j, (s.threads i).arrived ≤ (s.threads j).arrived

instance (s : Bench n) (i : Fin n) : Decidable (s.LibraryOpen i) :=
  inferInstanceAs (Decidable (_ → ∀ _, _))

def act (plan : List (BenchWorkload n)) (s : Bench n) (event : Fin n × Int64) :
    Option (Bench n) :=
  if s.LibraryOpen event.1 then
    (benchAct plan event.1 event.2 (s.threads event.1) s.shared).map fun (t, shared) =>
      { shared := shared, threads := Function.update s.threads event.1 t }
  else none

theorem act_cases (h : s.act plan event = some s') :
    s.LibraryOpen event.1 ∧ ∃ t shared,
      BenchAct plan event.1 (s.threads event.1) s.shared t shared ∧
      s' = { shared := shared, threads := Function.update s.threads event.1 t } := by
  unfold act at h
  split at h
  next hopen =>
    obtain ⟨⟨t, shared⟩, hact, h⟩ := Option.map_eq_some_iff.mp h
    exact ⟨hopen, t, shared, benchAct_cases hact, h.symm⟩
  next => simp at h

theorem act_other (h : s.act plan event = some s') {j : Fin n} (hj : j ≠ event.1) :
    s'.threads j = s.threads j := by
  obtain ⟨_, t, shared, _, rfl⟩ := act_cases h
  simp [hj]

/-- The threads of a benchmark as users of the fence. -/
def fenceUser (plan : List (BenchWorkload n)) : FenceUser n (Bench n) Int64 where
  act := act plan
  atFence s i := decide (s.threads i).point.AtFence
  synced s i := (s.threads i).synced
  synced_self h := by
    obtain ⟨_, t, shared, hact, rfl⟩ := act_cases h
    simpa using hact.syncs
  synced_other h hj := by rw [act_other h hj]
  atFence_other h hj := by rw [act_other h hj]

/-- Where the fence lets a thread pass, the barrier of the workload is open. -/
theorem open_of_mayPass {i : Fin n} (hpass : (fenceUser plan).MayPass s i)
    (hlibrary : s.LibraryOpen i) : s.Open i := by
  intro hat j
  by_cases hfence : (s.threads i).point.AtFence
  · have hle := hpass (decide_eq_true hfence) j
    simp only [FenceUser.arrived, fenceUser, BenchThread.synced, hfence, decide_true, if_true,
      decide_eq_true_eq] at hle
    unfold BenchThread.arrived BenchThread.passed
    rcases hfence with hp | hp <;>
    · simp only [hp, BenchPoint.stage, BenchPoint.AtBarrier] at hle ⊢
      cases hpj : (s.threads j).point <;> simp [hpj, BenchPoint.AtFence] at hle ⊢ <;> omega
  · refine hlibrary ?_ j
    unfold BenchPoint.AtFence at hfence
    unfold BenchPoint.AtBarrier at hat
    unfold BenchPoint.AtLibraryBarrier
    tauto

theorem step_of_ideal (h : (fenceUser plan).ideal s event = some s') :
    s.step plan event = some s' := by
  obtain ⟨hpass, hact⟩ := Option.ite_none_right_eq_some.mp h
  obtain ⟨hlibrary, hact⟩ := Option.ite_none_right_eq_some.mp hact
  rw [step, if_pos (open_of_mayPass hpass hlibrary)]
  exact hact

section

variable {rounds : ℕ} {f : Fenced n (Bench n)}

/-- Runs of the benchmark with the fence as `sync` is written, in which no spurious
failure of a compare-exchange loses the reset of a counter. -/
def FencedReaches (plan : List (BenchWorkload n)) (rounds : ℕ) (f : Fenced n (Bench n)) : Prop :=
  Reaches (Fenced.step (fenceUser plan) rounds) (Fenced.Survives (fenceUser plan))
    (Fenced.start (start plan)) f

theorem start_synced (i : Fin n) : (fenceUser plan).synced (start plan) i = 0 := by
  simp [fenceUser, start, enterWorkload, BenchThread.synced, BenchPoint.stage]

theorem FencedReaches.linked (h : FencedReaches plan rounds f) :
    f.Linked (fenceUser plan) rounds :=
  Fenced.reaches_linked start_synced h

theorem FencedReaches.bench (h : FencedReaches plan rounds f) :
    Reaches (step plan) (fun _ _ => True) (start plan) f.user := by
  have hideal := Fenced.reaches_ideal start_synced h
  exact Reaches.simulates id
    (fun _ event _ _ _ hstep => .inr ⟨event, trivial, step_of_ideal hstep⟩) hideal

/-- A thread that is through the first fence of a workload and not yet at the second
finds all others between the two. -/
theorem between_fences (hbench : Reaches (step plan) allowed (start plan) s) {i : Fin n}
    (hfirst : (s.threads i).point.stage ≠ 0) (hlast : (s.threads i).point ≠ .closeFence)
    (j : Fin n) :
    (s.threads j).workload = (s.threads i).workload ∧ (s.threads j).point ≠ .opening := by
  have hfrom := reaches_passed_le hbench i j
  have hto := reaches_passed_le hbench j i
  have hstagei := stage_le (s.threads i).point
  have hstagej := stage_le (s.threads j).point
  have hbefore : (s.threads i).point.stage +
      (if (s.threads i).point.AtBarrier then 1 else 0) ≤ 3 := by
    cases hp : (s.threads i).point <;>
      simp [hp, BenchPoint.stage, BenchPoint.AtBarrier] at hlast ⊢
  have hopening : (s.threads j).point = .opening →
      (s.threads j).point.stage + (if (s.threads j).point.AtBarrier then 1 else 0) = 0 := by
    intro hp
    simp [hp, BenchPoint.stage, BenchPoint.AtBarrier]
  unfold BenchThread.arrived BenchThread.passed at hfrom hto
  have hle : (if (s.threads j).point.AtBarrier then 1 else 0) ≤ 1 := by split <;> omega
  refine ⟨by omega, fun hp => ?_⟩
  have hzero := hopening hp
  omega

def Finished (plan : List (BenchWorkload n)) (s : Bench n) : Prop :=
  ∀ i, (s.threads i).point = .opening ∧ (s.threads i).workload = plan.length

/-- The benchmark on the fence as it is built, while `Fenced.Survives` holds of its steps,
is a run of the benchmark whose barriers open at once, and when it ends every workload has
been flushed once and reported, and the fence is as it was made. -/
theorem fenced_refines (hops : ∀ k < plan.length, ∀ i, planResults plan k i ≠ [])
    (hbound : ∀ k, operationsTotal plan k ≤ 2 ^ 64) {zero : Fin n} (hzero : zero.val = 0)
    (h : FencedReaches plan rounds f) :
    Reaches (step plan) (fun _ _ => True) (start plan) f.user ∧
    (∀ i, (f.user.threads i).point.stage ≠ 0 → (f.user.threads i).point ≠ .closeFence →
      ∀ j, (f.user.threads j).workload = (f.user.threads i).workload ∧
        (f.user.threads j).point ≠ .opening) ∧
    (f.user.Finished plan → f.user.shared.reports = reportsBefore plan plan.length ∧
      (∀ k < plan.length, f.user.shared.flushes.count k = 1) ∧
      f.fence.waiting = 0 ∧ f.fence.released = 0) := by
  have hbench := h.bench
  refine ⟨hbench, fun i hfirst hlast => between_fences hbench hfirst hlast, fun hfinished => ?_⟩
  obtain ⟨hp, hworkload⟩ := hfinished zero
  refine ⟨?_, fun k hk => ?_, (Fence.reaches_inv h.linked.fence).counters_zero fun i => ?_⟩
  · have hreported := reaches_reported hbench hzero
    rw [Reported, hp, hworkload, reportsBefore_succ] at hreported
    exact List.append_cancel_right hreported
  · have hflushing := reaches_flushing zero.pos hops hbound hbench
    apply hflushing.count_eq_one (reaches_apart hbench) (i := zero) hk
    simp only [BenchThread.passed, hworkload, hp, BenchPoint.stage]
    omega
  · by_contra hinside
    have hat := h.linked.inside i hinside
    simp [fenceUser, (hfinished i).1, BenchPoint.AtFence] at hat

/-- Both threads in turn, where thread 0 has the report to make, until the plan is done. -/
def untilFinished : List (Fin 2 × Int64 × Bool) :=
  let both := List.finRange 2
  let turns := List.replicate 23 both ++ List.replicate 6 both.reverse ++
    List.replicate 12 (both.take 1) ++ List.replicate 5 both.reverse
  turns.flatten.map fun i => (i, 0, false)

theorem reaches_of_untilFinished {f : Fenced 2 (Bench 2)} {events : List (Fin 2 × Int64 × Bool)}
    (hevents : events ⊆ untilFinished)
    (h : run (Fenced.step (fenceUser onePlan) 2) (Fenced.start (start onePlan)) events = some f) :
    FencedReaches onePlan 2 f := by
  have hstrong : ∀ event ∈ events, event.2.2 = false := by
    intro event hevent
    obtain ⟨i, _, rfl⟩ := List.mem_map.mp (hevents hevent)
    rfl
  exact Fenced.reaches_of_strong (reaches_of_run (fun event hevent _ => hstrong event hevent) h)

theorem onePlan_results_ne_nil (k : ℕ) (hk : k < onePlan.length) (i : Fin 2) :
    planResults onePlan k i ≠ [] := by
  obtain rfl : k = 0 := Nat.lt_one_iff.mp hk
  by_cases hi : i = 0 <;> simp [planResults, onePlan, hi]

theorem onePlan_fenced_refines : ∃ f,
    run (Fenced.step (fenceUser onePlan) 2) (Fenced.start (start onePlan)) untilFinished =
      some f ∧ f.user.Finished onePlan ∧ f.user.shared.flushes.count 0 = 1 ∧
    f.fence.waiting = 0 ∧ f.fence.released = 0 := by
  have hrun : ∃ f, run (Fenced.step (fenceUser onePlan) 2) (Fenced.start (start onePlan))
      untilFinished = some f ∧ (f.user.threads 0).point = .opening ∧
      (f.user.threads 0).workload = 1 ∧ (f.user.threads 1).point = .opening ∧
      (f.user.threads 1).workload = 1 := ⟨_, rfl, rfl, rfl, rfl, rfl⟩
  obtain ⟨f, hf, hzero, hzeroDone, hone, honeDone⟩ := hrun
  have hfinished : f.user.Finished onePlan := by
    intro i
    by_cases hi : i = 0
    · subst hi
      exact ⟨hzero, hzeroDone⟩
    · obtain rfl : i = 1 := by omega
      exact ⟨hone, honeDone⟩
  have hval : (0 : Fin 2).val = 0 := rfl
  have hend := (fenced_refines onePlan_results_ne_nil
    (fun k => Nat.le_of_lt (onePlan_operationsTotal_lt k)) hval
    (reaches_of_untilFinished (List.Subset.refl _) hf)).2.2 hfinished
  exact ⟨f, hf, hfinished, hend.2.1 0 (by decide), hend.2.2⟩

/-- A thread that no other one is behind at the barriers is not ahead at the fence. -/
theorem arrived_le_of_first {i : Fin n} (hat : (s.threads i).point.AtFence)
    (hfirst : ∀ j, (s.threads i).arrived ≤ (s.threads j).arrived) (j : Fin n) :
    (fenceUser plan).arrived s i ≤ (fenceUser plan).arrived s j := by
  have hle := hfirst j
  unfold BenchThread.arrived BenchThread.passed at hle
  simp only [FenceUser.arrived, fenceUser, BenchThread.synced, hat, decide_true, if_true,
    decide_eq_true_eq]
  rcases hat with hp | hp <;>
  · simp only [hp, BenchPoint.stage, BenchPoint.AtBarrier] at hle ⊢
    cases hpj : (s.threads j).point <;>
      simp [hpj, BenchPoint.AtFence] at hle ⊢ <;> omega

/-- Of the threads that are not through with the plan one is not ahead of any other. -/
theorem exists_first (hs : s.Apart plan) (hnot : ¬s.Finished plan) :
    ∃ i, (∀ j, (s.threads i).arrived ≤ (s.threads j).arrived) ∧
      ((s.threads i).point = .opening → (s.threads i).workload < plan.length) := by
  obtain ⟨k, hk⟩ := not_forall.mp hnot
  have : Nonempty (Fin n) := ⟨k⟩
  obtain ⟨first, hfirst⟩ := Finite.exists_min fun j => (s.threads j).arrived
  have hgo : ∀ j, ¬((s.threads j).point = .opening ∧ (s.threads j).workload = plan.length) →
      (s.threads j).point = .opening → (s.threads j).workload < plan.length := by
    intro j hj hp
    have hle := (hs.locals j).workload_le
    by_contra hge
    exact hj ⟨hp, by omega⟩
  by_cases hdone : (s.threads first).point = .opening ∧ (s.threads first).workload = plan.length
  · have harrived : (s.threads first).arrived = 4 * plan.length := by
      simp [BenchThread.arrived, BenchThread.passed, hdone, BenchPoint.stage,
        BenchPoint.AtBarrier]
    have hle := (hs.locals k).arrived_le
    exact ⟨k, fun j => Nat.le_trans (harrived ▸ hle) (hfirst j), hgo k hk⟩
  · exact ⟨first, hfirst, hgo first hdone⟩

theorem act_isSome {i : Fin n} (hlibrary : s.LibraryOpen i)
    (h : (s.threads i).point = .opening → (s.threads i).workload < plan.length) (speed : Int64) :
    ∃ s', s.act plan (i, speed) = some s' := by
  obtain ⟨t, shared, hact⟩ := benchAct_isSome i speed s.shared h
  exact ⟨_, by simp only [act, hlibrary, if_true, hact]; rfl⟩

theorem act_rank_lt (h : s.act plan event = some s') : s'.rank plan < s.rank plan := by
  obtain ⟨_, t, shared, hact, rfl⟩ := act_cases h
  have hsum := Tally.sum_update_add (fun j (t : BenchThread) => t.rank plan j) s.threads event.1 t
  have hlt := hact.rank_lt
  simp only [rank]
  omega

/-- While `Fenced.Survives` holds of the steps: as long as the plan is not carried out some
thread has an operation to make that is not a failing test of `sync`, and no run makes more
of these than its start ranks. -/
theorem fenced_ends (hrounds : 2 * plan.length ≤ rounds) (h : FencedReaches plan rounds f) :
    (f.user.Finished plan ∨ ∃ i, ¬f.Spins (fenceUser plan) i ∧ ∀ speed spurious, ∃ f',
      f.step (fenceUser plan) rounds (i, speed, spurious) = some f') ∧
    ∀ events f', run (guarded (Fenced.step (fenceUser plan) rounds)
      fun f event => ¬f.Spins (fenceUser plan) event.1) f events = some f' →
        events.length ≤ f.rank (rank plan) := by
  refine ⟨?_, fun events f' hrun => ?_⟩
  · by_cases hfinished : f.user.Finished plan
    · exact .inl hfinished
    · have hapart := reaches_apart h.bench
      obtain ⟨i, hfirst, hgo⟩ := exists_first hapart hfinished
      right
      by_cases hat : (f.user.threads i).point.AtFence
      · refine h.linked.exists_step (fun j hatj => ?_) (fun j hatj speed => ?_)
          (decide_eq_true hat) (arrived_le_of_first hat hfirst)
        · have hatj : (f.user.threads j).point.AtFence := of_decide_eq_true hatj
          have hlt := (hapart.locals j).workload_lt (by rcases hatj with hp | hp <;> simp [hp])
          simp only [fenceUser, BenchThread.synced]
          split <;> omega
        · have hatj : (f.user.threads j).point.AtFence := of_decide_eq_true hatj
          refine act_isSome (fun hlibrary => ?_) (fun hp => ?_) speed
          · rcases hatj with hp | hp <;> simp [BenchPoint.AtLibraryBarrier, hp] at hlibrary
          · rcases hatj with hp' | hp' <;> simp [hp'] at hp
      · refine ⟨i, fun hspin => hat (of_decide_eq_true hspin.1), fun speed spurious => ?_⟩
        obtain ⟨s', hs'⟩ := act_isSome (fun _ => hfirst) hgo speed
        have hnot : (fenceUser plan).atFence f.user i = false := decide_eq_false hat
        have hact : (fenceUser plan).act f.user (i, speed) = some s' := hs'
        exact ⟨_, by simp [Fenced.step, hnot, hact]; rfl⟩
  · have hlength := run_length_le (Fenced.rank (rank plan)) (fun g event g' hstep => ?_) hrun
    · omega
    · obtain ⟨hspin, hstep⟩ := Option.ite_none_right_eq_some.mp hstep
      exact Fenced.step_rank (fun _ _ _ hact => act_rank_lt hact) hstep hspin

/-- Thread 0 waits inside `sync` for thread 1, which is inside too and may go on. -/
theorem onePlan_fenced_ends : ∃ f,
    run (Fenced.step (fenceUser onePlan) 2) (Fenced.start (start onePlan))
      (untilFinished.take 7) = some f ∧
    f.Spins (fenceUser onePlan) 0 ∧ (f.user.threads 1).point.AtFence ∧
    ¬f.Spins (fenceUser onePlan) 1 ∧ ∀ speed spurious, ∃ f',
      f.step (fenceUser onePlan) 2 (1, speed, spurious) = some f' := by
  have hrun : ∃ f, run (Fenced.step (fenceUser onePlan) 2) (Fenced.start (start onePlan))
      (untilFinished.take 7) = some f ∧ (f.user.threads 0).point = .openFence ∧
      (f.user.threads 1).point = .openFence ∧ (f.fence.threads 0).point = .spinWaiting ∧
      f.fence.waiting = 1 := ⟨_, rfl, rfl, rfl, rfl, rfl⟩
  obtain ⟨f, hf, hzero, hone, hspinning, hwaiting⟩ := hrun
  have hspins : f.Spins (fenceUser onePlan) 0 :=
    ⟨by simp [fenceUser, hzero, BenchPoint.AtFence], .inr ⟨hspinning, by simp [hwaiting]⟩⟩
  have hnot : ¬f.user.Finished onePlan := by
    intro hfinished
    have hopening := (hfinished 0).1
    simp [hzero] at hopening
  obtain ⟨i, hi, hgo⟩ :=
    (fenced_ends (by decide) (reaches_of_untilFinished (List.take_subset _ _) hf)).1.resolve_left
      hnot
  obtain rfl : i = 1 := by
    by_contra hother
    obtain rfl : i = 0 := by omega
    exact hi hspins
  exact ⟨f, hf, hspins, .inl hone, hi, hgo⟩

end

end Bench

end Ucsb
