import Ucsb.FenceRounds

namespace Ucsb

open StepSystem

namespace Fence

variable {n rounds round : ℕ} {s s' : Fence n} {i : Fin n} {event : Fin n × Bool}

/-- The fence as a barrier, where a call of `sync` arrives and its return leaves. -/
def toBarrier (s : Fence n) : RoundBarrier (Fin n) :=
  { arrived := s.started, left := fun i => (s.threads i).returned }

theorem toBarrier_make (n : ℕ) : (make n).toBarrier = RoundBarrier.start (Fin n) := rfl

theorem toBarrier_goto {point : SyncPoint} {w r : ℕ} (hp : (s.threads i).point ≠ .outside)
    (hpoint : point ≠ .outside) :
    toBarrier { s.goto i point with waiting := w, released := r } = s.toBarrier := by
  have hstarted : started { s.goto i point with waiting := w, released := r } = s.started := by
    funext j
    by_cases hj : j = i <;> simp [started, goto, hj, hp, hpoint]
  have hreturned : ∀ j, ((s.goto i point).threads j).returned = (s.threads j).returned := by
    intro j
    by_cases hj : j = i <;> simp [goto, hj]
  simp only [toBarrier, hstarted, hreturned]

theorem toBarrier_call (hp : (s.threads i).point = .outside) :
    (s.goto i .spinReleased).toBarrier = s.toBarrier.arrive i := by
  have hstarted : (s.goto i .spinReleased).started =
      Function.update s.started i (s.started i + 1) := by
    funext j
    by_cases hj : j = i
    · simp [started, goto, hj, hp]
    · simp [started, goto, hj]
  have hreturned : ∀ j, ((s.goto i .spinReleased).threads j).returned =
      (s.threads j).returned := by
    intro j
    by_cases hj : j = i <;> simp [goto, hj]
  simp only [toBarrier, RoundBarrier.arrive, hstarted, hreturned]

theorem toBarrier_leave {w r : ℕ} (hp : (s.threads i).point ≠ .outside) :
    toBarrier { s.leave i with waiting := w, released := r } = s.toBarrier.leave i := by
  have hstarted : started { s.leave i with waiting := w, released := r } = s.started := by
    funext j
    by_cases hj : j = i
    · simp [started, leave, hj, hp]
    · simp [started, leave, hj]
  have hreturned : (fun j => ((s.leave i).threads j).returned) =
      Function.update (fun j => (s.threads j).returned) i ((s.threads i).returned + 1) := by
    funext j
    by_cases hj : j = i <;> simp [leave, hj]
  simp only [toBarrier, RoundBarrier.leave, hstarted, hreturned]

theorem started_until (h : (s.threads i).Until round) : round ≤ s.started i := by
  unfold FenceThread.Until at h
  unfold started
  by_cases hexit : (s.threads i).point.Exiting
  · have hinside : (s.threads i).point ≠ .outside := by
      rcases hexit with hp | hp | hp <;> simp [hp]
    rw [if_pos hexit] at h
    rw [if_neg hinside]
    omega
  · rw [if_neg hexit] at h
    omega

theorem started_since (h : (s.threads i).Since round) : round + 1 ≤ s.started i := by
  unfold FenceThread.Since at h
  unfold started
  by_cases hout : (s.threads i).point = .outside
  · have hentering : (s.threads i).point.Entering := .inl hout
    rw [if_pos hentering] at h
    omega
  · rw [if_neg hout]
    omega

/-- A thread that has been released may leave: all have begun the call it is in. -/
theorem Inv.started_le (h : s.Inv) (hp : (s.threads i).point.Exiting) (j : Fin n) :
    s.started i ≤ s.started j := by
  have hinside : (s.threads i).point ≠ .outside := by
    rcases hp with hp | hp | hp <;> simp [hp]
  have hnotEntering : ¬(s.threads i).point.Entering := by
    rcases hp with hp | hp | hp <;> simp [SyncPoint.Entering, hp]
  have hstarted : s.started i = (s.threads i).returned + 1 := by simp [started, hinside]
  have hsince : ∀ round, (∀ j, (s.threads j).Since round) → s.started i ≤ s.started j := by
    intro round hall
    have hi := hall i
    rw [FenceThread.Since, if_neg hnotEntering] at hi
    have hj := started_since (hall j)
    omega
  obtain ⟨round, h | h | h | h⟩ := h
  · have hi := h.returned i
    rw [FenceThread.Until, if_pos hp] at hi
    have hj := started_until (h.returned j)
    omega
  · exact hsince round h.returned
  · exact hsince round h.returned
  · exact hsince round h.returned

/-- What an operation of `sync` is for the barrier: nothing, the arrival of a thread
with calls left, or the departure of one that was released. -/
theorem toBarrier_moves {spurious : Bool} (hmove : s.Moves rounds i spurious s') :
    s'.toBarrier = s.toBarrier ∨
    ((s.threads i).point = .outside ∧ (s.threads i).returned < rounds ∧
      s'.toBarrier = s.toBarrier.arrive i) ∨
    ((s.threads i).point.Exiting ∧ s'.toBarrier = s.toBarrier.leave i) := by
  cases hmove with
  | spin => exact .inl rfl
  | call hp hlt => exact .inr (.inl ⟨hp, hlt, toBarrier_call hp⟩)
  | seesOthers hp => exact .inr (.inr ⟨.inl hp, toBarrier_leave (by simp [hp])⟩)
  | resetsReleased hp | keepsReleased hp =>
    exact .inr (.inr ⟨.inr (.inr hp), toBarrier_leave (by simp [hp])⟩)
  | passReleased hp | addWaiting hp | passWaiting hp | addReleased hp | seesLast hp
  | resetsWaiting hp | keepsWaiting hp => exact .inl (toBarrier_goto (by simp [hp]) (by simp))

theorem toBarrier_step (h : s.Inv) (hstep : s.step rounds event = some s') :
    s'.toBarrier = s.toBarrier ∨ RoundBarrier.Step s.toBarrier s'.toBarrier := by
  have hmove := moves_of_step hstep
  rcases toBarrier_moves hmove with heq | ⟨hp, _, heq⟩ | ⟨hp, heq⟩
  · exact .inl heq
  · rw [heq]
    exact .inr (.arrive event.1 (by simp [toBarrier, started, hp]))
  · rw [heq]
    refine .inr (.leave event.1 ?_ (h.started_le hp))
    rcases hp with hp | hp | hp <;> simp [toBarrier, started, hp]

/-- No thread begins more calls than it is to make. -/
theorem started_le_step (h : ∀ i, s.started i ≤ rounds) (hstep : s.step rounds event = some s')
    (i : Fin n) : s'.started i ≤ rounds := by
  have hmove := moves_of_step hstep
  have harrived : s'.started = s'.toBarrier.arrived := rfl
  rw [harrived]
  rcases toBarrier_moves hmove with heq | ⟨hp, hlt, heq⟩ | ⟨_, heq⟩
  · rw [heq]
    exact h i
  · rw [heq]
    by_cases hi : i = event.1
    · simp [RoundBarrier.arrive, toBarrier, started, hi, hp]
      omega
    · simpa [RoundBarrier.arrive, toBarrier, hi] using h i
  · rw [heq]
    exact h i

section

variable {allowed : Fence n → Fin n × Bool → Prop}

theorem reaches_started_le (h : Reaches (step rounds) allowed (make n) s) (i : Fin n) :
    s.started i ≤ rounds := by
  refine h.invariant (fun s => ∀ i, s.started i ≤ rounds) (fun i => ?_)
    (fun _ _ _ _ hs _ hstep => started_le_step hs hstep) i
  simp [make, started]

/-- A run that keeps the invariant is a run of the barrier. -/
theorem reaches_returned_le (hinv : ∀ s, Reaches (step rounds) allowed (make n) s → s.Inv)
    (h : Reaches (step rounds) allowed (make n) s) (i j : Fin n) :
    (s.threads i).returned ≤ s.started j := by
  have hbarrier := h.simulates toBarrier fun s _ _ hs _ hstep =>
    toBarrier_step (hinv s hs) hstep
  rw [toBarrier_make] at hbarrier
  exact (RoundBarrier.inStep_of_reaches hbarrier).left_le_arrived i j

end

theorem reaches_inv (h : Reaches (step rounds) Survives (make n) s) : s.Inv :=
  h.invariant Inv ⟨0, .inl (make_gathering n)⟩
    fun _ _ _ _ hs hsurvives hstep => hs.step hsurvives hstep

theorem make_strongInv (n : ℕ) : (make n).StrongInv :=
  ⟨⟨0, .inl (make_gathering n)⟩, fun _ hi => by simp [make] at hi⟩

theorem reaches_strongInv
    (h : Reaches (step rounds) (fun _ event => event.2 = false) (make n) s) : s.StrongInv :=
  h.invariant StrongInv (make_strongInv n) fun _ _ _ _ hs hstrong hstep => hs.step hstrong hstep

/-- Without spurious failures no event is left out. -/
theorem reaches_survives_of_strong
    (h : Reaches (step rounds) (fun _ event => event.2 = false) (make n) s) :
    Reaches (step rounds) Survives (make n) s := by
  have hboth : Reaches (step rounds) Survives (make n) s ∧ s.StrongInv := by
    refine h.invariant (fun s => Reaches (step rounds) Survives (make n) s ∧ s.StrongInv)
      ⟨.refl, make_strongInv n⟩ fun t event t' _ ht hstrong hstep => ?_
    exact ⟨ht.1.tail ⟨event, ht.2.survives hstrong, hstep⟩, ht.2.step hstrong hstep⟩
  exact hboth.1

theorem fence_is_barrier
    (h : Reaches (step rounds) (fun _ event => event.2 = false) (make n) s) :
    (∀ i j, (s.threads i).returned ≤ s.started j) ∧
    ((∃ i, (s.threads i).point ≠ .outside) →
      (∀ i, (s.threads i).returned < rounds → (s.threads i).point ≠ .outside) →
      ∃ i s', (s.threads i).point ≠ .outside ∧ s.step rounds (i, false) = some s' ∧
        (s'.threads i).point ≠ (s.threads i).point) ∧
    ∀ k, (∀ i, s.threads i = { point := .outside, returned := k }) →
      s.waiting = 0 ∧ s.released = 0 := by
  have hinv := (reaches_strongInv h).inv
  refine ⟨reaches_returned_le (fun _ ht => (reaches_strongInv ht).inv) h, fun hinside hall => ?_,
    fun k hk => hinv.counters_zero fun i => by rw [hk]⟩
  obtain ⟨i, hfree⟩ := hinv.exists_free (reaches_started_le h) hinside hall
  obtain ⟨s', hstep, hleaves⟩ := hfree.leaves_point false
  exact ⟨i, s', hfree.inside, hstep, hleaves⟩

/-- Two threads, each taking six operations of its only call, turn by turn. -/
def bothReset : List (Fin 2 × Bool) :=
  (List.replicate 6 ((List.finRange 2).map fun i => (i, false))).flatten

theorem reaches_of_bothReset {s : Fence 2}
    (h : StepSystem.run (step 1) (make 2) bothReset = some s) :
    Reaches (step 1) (fun _ event => event.2 = false) (make 2) s := by
  have hstrong : ∀ event ∈ bothReset, event.2 = false := by decide
  exact reaches_of_run (fun event hevent _ => hstrong event hevent) h

theorem bothReset_fence_is_barrier : ∃ s, StepSystem.run (step 1) (make 2) bothReset = some s ∧
    (∀ i j, (s.threads i).returned ≤ s.started j) ∧
    ((∃ i, (s.threads i).point ≠ .outside) →
      (∀ i, (s.threads i).returned < 1 → (s.threads i).point ≠ .outside) →
      ∃ i s', (s.threads i).point ≠ .outside ∧ s.step 1 (i, false) = some s' ∧
        (s'.threads i).point ≠ (s.threads i).point) ∧
    ∀ k, (∀ i, s.threads i = { point := .outside, returned := k }) →
      s.waiting = 0 ∧ s.released = 0 := by
  have hrun : ∃ s, StepSystem.run (step 1) (make 2) bothReset = some s := ⟨_, rfl⟩
  obtain ⟨s, hs⟩ := hrun
  exact ⟨s, hs, fence_is_barrier (reaches_of_bothReset hs)⟩

theorem fence_survives (h : Reaches (step rounds) Survives (make n) s) :
    (∀ k, (∀ i, s.threads i = { point := .outside, returned := k }) →
      s.waiting = 0 ∧ s.released = 0) ∧
    ((∃ i, (s.threads i).point ≠ .outside) →
      (∀ i, (s.threads i).returned < rounds → (s.threads i).point ≠ .outside) →
      ∃ i, (s.threads i).point ≠ .outside ∧ ∀ spurious, ∃ s',
        s.step rounds (i, spurious) = some s' ∧
          (s'.threads i).point ≠ (s.threads i).point) := by
  have hinv := reaches_inv h
  refine ⟨fun k hk => hinv.counters_zero fun i => by rw [hk], fun hinside hall => ?_⟩
  obtain ⟨i, hfree⟩ := hinv.exists_free (reaches_started_le h) hinside hall
  exact ⟨i, hfree.inside, fun spurious => hfree.leaves_point spurious⟩

/-- One of two threads fails to reset the count of the waiting, which the other one
is about to reset. -/
theorem bothReset_fence_survives : ∃ s s', StepSystem.run (step 1) (make 2) bothReset = some s ∧
    s.step 1 (0, true) = some s' ∧
    (∀ k, (∀ i, s'.threads i = { point := .outside, returned := k }) →
      s'.waiting = 0 ∧ s'.released = 0) ∧
    ((∃ i, (s'.threads i).point ≠ .outside) →
      (∀ i, (s'.threads i).returned < 1 → (s'.threads i).point ≠ .outside) →
      ∃ i, (s'.threads i).point ≠ .outside ∧ ∀ spurious, ∃ s'',
        s'.step 1 (i, spurious) = some s'' ∧
          (s''.threads i).point ≠ (s'.threads i).point) := by
  have hrun : ∃ s s', StepSystem.run (step 1) (make 2) bothReset = some s ∧
      s.step 1 (0, true) = some s' ∧ (s.threads 0).point = .resetWaiting ∧
      (s.threads 1).point = .resetWaiting := ⟨_, _, rfl, rfl, rfl, rfl⟩
  obtain ⟨s, s', hs, hstep, hzero, hone⟩ := hrun
  have hsurvives : s.Survives (0, true) :=
    ⟨fun _ _ _ => ⟨1, by decide, .inl hone⟩, fun hp => by simp [hzero] at hp,
      fun hp => by simp [hzero] at hp, fun hp => by simp [hzero] at hp⟩
  have hreaches : Reaches (step 1) Survives (make 2) s' :=
    (reaches_survives_of_strong (reaches_of_bothReset hs)).tail ⟨_, hsurvives, hstep⟩
  exact ⟨s, s', hs, hstep, fence_survives hreaches⟩

/-- The only thread of a fence fails to reset the count of the waiting. -/
theorem fence_keeps_waiting :
    ¬∀ (n rounds : ℕ) (s : Fence n), 0 < n →
      Reaches (step rounds) (fun _ _ => True) (make n) s →
      ∀ k, (∀ i, s.threads i = { point := .outside, returned := k }) →
        s.waiting = 0 ∧ s.released = 0 := by
  intro h
  have hrun : ∃ s : Fence 1, StepSystem.run (step 1) (make 1) [(0, false), (0, false), (0, false),
      (0, false), (0, false), (0, false), (0, true), (0, false)] = some s ∧ s.waiting = 1 ∧
      s.threads 0 = { point := .outside, returned := 1 } := ⟨_, rfl, rfl, rfl⟩
  obtain ⟨s, hs, hwaiting, hthread⟩ := hrun
  have hreaches : Reaches (step 1) (fun _ _ => True) (make 1) s :=
    reaches_of_run (by simp) hs
  have hzero := h 1 1 s (by decide) hreaches 1 fun i => by rw [Subsingleton.elim i 0, hthread]
  omega

end Fence

end Ucsb
