import Ucsb.ThreadsFence

namespace Ucsb

open StepSystem Tally

/-- Before the thread is counted as waiting. -/
def SyncPoint.Entering (point : SyncPoint) : Prop :=
  point = .outside ∨ point = .spinReleased ∨ point = .addWaiting

/-- After the thread is counted as released. -/
def SyncPoint.Exiting (point : SyncPoint) : Prop :=
  point = .testReleased ∨ point = .resetWaiting ∨ point = .resetReleased

instance (point : SyncPoint) : Decidable point.Entering :=
  inferInstanceAs (Decidable (_ ∨ _ ∨ _))

instance (point : SyncPoint) : Decidable point.Exiting :=
  inferInstanceAs (Decidable (_ ∨ _ ∨ _))

def FenceThread.Waits (t : FenceThread) : Prop := t.point = .spinWaiting

/-- Counted in `released_threads_count_`, once all have been counted as waiting. -/
def FenceThread.Released (t : FenceThread) : Prop :=
  t.point ≠ .spinWaiting ∧ t.point ≠ .addReleased

/-- Until the release of a round the threads still inside the one before have
returned once less. -/
def FenceThread.Until (round : ℕ) (t : FenceThread) : Prop :=
  t.returned + (if t.point.Exiting then 1 else 0) = round

/-- Since that release the threads out of the round have returned once more. -/
def FenceThread.Since (round : ℕ) (t : FenceThread) : Prop :=
  t.returned = round + if t.point.Entering then 1 else 0

instance : DecidablePred FenceThread.Waits := fun t => inferInstanceAs (Decidable (t.point = _))

instance : DecidablePred FenceThread.Released := fun t =>
  inferInstanceAs (Decidable (t.point ≠ _ ∧ t.point ≠ _))

/-- Once the counters are reset the next round is on. -/
theorem FenceThread.Since.until {round : ℕ} {t : FenceThread} (h : t.Since round)
    (hpoint : t.point.Exiting ∨ t.point.Entering) : t.Until (round + 1) := by
  unfold FenceThread.Since at h
  unfold FenceThread.Until
  rcases hpoint with hp | hp
  · have hnot : ¬t.point.Entering := by
      rcases hp with hp | hp | hp <;> simp [SyncPoint.Entering, hp]
    rw [if_neg hnot] at h
    rw [if_pos hp]
    omega
  · have hnot : ¬t.point.Exiting := by
      rcases hp with hp | hp | hp <;> simp [SyncPoint.Exiting, hp]
    rw [if_pos hp] at h
    rw [if_neg hnot]
    omega

namespace Fence

variable {n : ℕ}

/-- Threads come in; others may still be on their way out of the round before. -/
structure Gathering (s : Fence n) (round : ℕ) : Prop where
  released : s.released = 0
  waiting : s.waiting = tally FenceThread.Waits s.threads
  points : ∀ i, (s.threads i).point ≠ .addReleased
  returned : ∀ i, (s.threads i).Until round

/-- All have come in, and neither counter has been reset. -/
structure Releasing (s : Fence n) (round : ℕ) : Prop where
  waiting : s.waiting = n
  released : s.released = tally FenceThread.Released s.threads
  points : ∀ i, (s.threads i).point ≠ .addWaiting
  resets : ∀ i, (s.threads i).point = .resetWaiting ∨ (s.threads i).point = .resetReleased →
    s.released = n
  returned : ∀ i, (s.threads i).Since round
  last : s.released = n →
    ∃ i, (s.threads i).point = .testReleased ∨ (s.threads i).point = .resetWaiting

/-- The count of the waiting has been reset, that of the released not yet. -/
structure Closing (s : Fence n) (round : ℕ) : Prop where
  waiting : s.waiting = 0
  released : s.released = n
  points : ∀ i, (s.threads i).point.Exiting ∨ (s.threads i).point = .outside ∨
    (s.threads i).point = .spinReleased
  returned : ∀ i, (s.threads i).Since round
  last : ∃ i, (s.threads i).point.Exiting

/-- The count of the released has been reset first, and threads may be coming in
for the next round. -/
structure Crossing (s : Fence n) (round : ℕ) : Prop where
  waiting : s.waiting = n
  released : s.released = 0
  points : ∀ i, (s.threads i).point.Exiting ∨ (s.threads i).point.Entering
  returned : ∀ i, (s.threads i).Since round
  last : ∃ i, (s.threads i).point = .resetWaiting

@[simp] theorem set_threads (s : Fence n) (i j : Fin n) (t : FenceThread) :
    (s.set i t).threads j = if j = i then t else s.threads j :=
  Function.update_apply _ _ _ _

@[simp] theorem set_waiting (s : Fence n) (i : Fin n) (t : FenceThread) :
    (s.set i t).waiting = s.waiting := rfl

@[simp] theorem set_released (s : Fence n) (i : Fin n) (t : FenceThread) :
    (s.set i t).released = s.released := rfl

/-- What all threads have keeps holding when one thread gets it anew. -/
theorem forall_set {P : FenceThread → Prop} {s : Fence n} {i : Fin n} {t : FenceThread}
    (h : ∀ j, P (s.threads j)) (ht : P t) (j : Fin n) : P ((s.set i t).threads j) := by
  by_cases hj : j = i
  · simpa [hj] using ht
  · simpa [hj] using h j

/-- What one thread has it keeps when another one moves. -/
theorem exists_set {P : FenceThread → Prop} {s : Fence n} {i : Fin n} {t : FenceThread}
    (h : ∃ j, P (s.threads j)) (ht : P (s.threads i) → P t) :
    ∃ j, P ((s.set i t).threads j) := by
  obtain ⟨j, hj⟩ := h
  by_cases hji : j = i
  · subst hji
    exact ⟨j, by simpa using ht hj⟩
  · exact ⟨j, by simpa [hji] using hj⟩

variable {rounds round : ℕ} {s s' : Fence n} {i : Fin n} {spurious : Bool}

theorem Gathering.set (h : s.Gathering round) {t : FenceThread} {w : ℕ}
    (hpoint : t.point ≠ .addReleased) (hreturned : t.Until round)
    (hw : w + (if (s.threads i).Waits then 1 else 0) = s.waiting + if t.Waits then 1 else 0) :
    Gathering { s.set i t with waiting := w } round := by
  have htally := tally_update_add (P := FenceThread.Waits) (f := s.threads) (i := i) (x := t)
  have hwaiting := h.waiting
  refine ⟨h.released, ?_, forall_set (P := fun t => t.point ≠ .addReleased) h.points hpoint,
    forall_set h.returned hreturned⟩
  change w = tally FenceThread.Waits (Function.update s.threads i t)
  omega

theorem Gathering.waiting_lt (h : s.Gathering round) (hi : ¬(s.threads i).Waits) :
    s.waiting < n := by
  have hlt := tally_lt_card (P := FenceThread.Waits) hi
  rwa [← h.waiting, Fintype.card_fin] at hlt

theorem Gathering.all_wait (h : s.Gathering round) (hall : s.waiting = n) (j : Fin n) :
    (s.threads j).Waits := by
  by_contra hj
  have hlt := h.waiting_lt hj
  omega

theorem Gathering.since (h : s.Gathering round) (hall : s.waiting = n) (j : Fin n) :
    (s.threads j).Since round := by
  have hj := h.returned j
  have hp : (s.threads j).point = .spinWaiting := h.all_wait hall j
  simpa [FenceThread.Since, FenceThread.Until, hp, SyncPoint.Entering, SyncPoint.Exiting] using hj

/-- The first thread to see that all wait begins the release. -/
theorem Gathering.release (h : s.Gathering round) (hall : s.waiting = n) :
    (s.goto i .addReleased).Releasing round := by
  have hn := i.pos
  have hzero := h.released
  have hpoint : ∀ j, ((s.goto i .addReleased).threads j).point = .spinWaiting ∨
      ((s.goto i .addReleased).threads j).point = .addReleased :=
    forall_set (P := fun t => t.point = .spinWaiting ∨ t.point = .addReleased)
      (fun j => Or.inl (h.all_wait hall j)) (Or.inr rfl)
  have hnone : ∀ j, ¬((s.goto i .addReleased).threads j).Released := by
    intro j hj
    rcases hpoint j with hp | hp
    · exact hj.1 hp
    · exact hj.2 hp
  have hsince : (s.threads i).Since round := h.since hall i
  refine ⟨hall, ?_, fun j => ?_, fun j => ?_, ?_, fun hlast => ?_⟩
  · rw [tally_eq_zero hnone]
    exact hzero
  · rcases hpoint j with hp | hp <;> simp [hp]
  · rcases hpoint j with hp | hp <;> simp [hp]
  · have hwait : (s.threads i).point = .spinWaiting := h.all_wait hall i
    refine forall_set (h.since hall) ?_
    simpa [FenceThread.Since, hwait, SyncPoint.Entering] using hsince
  · have hlast' : s.released = n := hlast
    omega

theorem Gathering.moves (h : s.Gathering round) (hmove : s.Moves rounds i spurious s') :
    s'.Gathering round ∨ (s'.Releasing round ∧ s.waiting = n) := by
  have hi := h.returned i
  have hn := i.pos
  have hzero := h.released
  cases hmove with
  | spin => exact .inl h
  | passWaiting _ hall => exact .inr ⟨h.release hall, hall⟩
  | addReleased hp => exact absurd hp (h.points i)
  | seesLast _ hall | resetsReleased _ hall => omega
  | resetsWaiting hp hall _ =>
    have hlt := h.waiting_lt (i := i) (by simp [FenceThread.Waits, hp])
    omega
  | call hp | passReleased hp | addWaiting hp | seesOthers hp | keepsWaiting hp
  | keepsReleased hp =>
    refine .inl (h.set (by simp) ?_ (by simp [FenceThread.Waits, hp]))
    simpa [FenceThread.Until, SyncPoint.Exiting, hp] using hi

/-- No event that undoes the reset of the counters: a compare-exchange may fail
spuriously only while another thread is still to make it, and the count of the
released may be reset first only if one is still to reset that of the waiting,
before any thread adds to it. -/
structure Survives (s : Fence n) (event : Fin n × Bool) : Prop where
  waitingKept : (s.threads event.1).point = .resetWaiting → s.waiting = n → event.2 = true →
    ∃ j, j ≠ event.1 ∧ ((s.threads j).point = .resetWaiting ∨
      ((s.threads j).point = .testReleased ∧ s.released = n))
  releasedReset : (s.threads event.1).point = .resetReleased → s.released = n →
    event.2 = false → s.waiting = n → ∃ j, (s.threads j).point = .resetWaiting
  releasedKept : (s.threads event.1).point = .resetReleased → s.released = n →
    event.2 = true → ∃ j, j ≠ event.1 ∧ (s.threads j).point.Exiting
  waitingAdded : (s.threads event.1).point = .addWaiting → s.waiting ≠ n

theorem Releasing.set (h : s.Releasing round) {t : FenceThread} {r : ℕ}
    (hpoint : t.point ≠ .addWaiting) (hsince : t.Since round)
    (hresets : t.point = .resetWaiting ∨ t.point = .resetReleased → r = n)
    (hkeep : s.released = n → r = n)
    (hr : r + (if (s.threads i).Released then 1 else 0) =
      s.released + if t.Released then 1 else 0)
    (hlast : r = n → ∃ j, ((s.set i t).threads j).point = .testReleased ∨
      ((s.set i t).threads j).point = .resetWaiting) :
    Releasing { s.set i t with released := r } round := by
  have htally := tally_update_add (P := FenceThread.Released) (f := s.threads) (i := i) (x := t)
  have hreleased := h.released
  refine ⟨h.waiting, ?_, forall_set (P := fun t => t.point ≠ .addWaiting) h.points hpoint,
    forall_set (P := fun t => t.point = .resetWaiting ∨ t.point = .resetReleased → r = n)
      (fun j hj => hkeep (h.resets j hj)) hresets, forall_set h.returned hsince, hlast⟩
  change r = tally FenceThread.Released (Function.update s.threads i t)
  omega

theorem Releasing.released_pos (h : s.Releasing round) (hi : (s.threads i).Released) :
    0 < s.released := by
  rw [h.released]
  exact tally_pos hi

theorem Releasing.released_lt (h : s.Releasing round) (hi : ¬(s.threads i).Released) :
    s.released < n := by
  have hlt := tally_lt_card (P := FenceThread.Released) hi
  rwa [← h.released, Fintype.card_fin] at hlt

theorem Releasing.all_out (h : s.Releasing round) (hall : s.released = n) (j : Fin n) :
    (s.threads j).point.Exiting ∨ (s.threads j).point = .outside ∨
      (s.threads j).point = .spinReleased := by
  have hj : (s.threads j).Released := by
    by_contra hj
    have hlt := h.released_lt hj
    omega
  have hadd := h.points j
  obtain ⟨hwait, hrelease⟩ := hj
  unfold SyncPoint.Exiting
  cases hp : (s.threads j).point <;> simp [hp] at hadd hwait hrelease ⊢

theorem Releasing.close (h : s.Releasing round) (hp : (s.threads i).point = .resetWaiting) :
    Closing { s.goto i .resetReleased with waiting := 0 } round := by
  have hall := h.resets i (Or.inl hp)
  refine ⟨rfl, hall, ?_, ?_, i, by simp [goto, SyncPoint.Exiting]⟩
  · exact forall_set (P := fun t => t.point.Exiting ∨ t.point = .outside ∨ t.point = .spinReleased)
      (h.all_out hall) (by simp [SyncPoint.Exiting])
  · have hi := h.returned i
    refine forall_set h.returned ?_
    simpa [FenceThread.Since, SyncPoint.Entering, hp] using hi

theorem Releasing.cross (h : s.Releasing round) (hp : (s.threads i).point = .resetReleased)
    (hpending : ∃ j, (s.threads j).point = .resetWaiting) :
    Crossing { s.leave i with released := 0 } round := by
  have hall := h.resets i (Or.inr hp)
  refine ⟨h.waiting, rfl, ?_, ?_, ?_⟩
  · refine forall_set (P := fun t => t.point.Exiting ∨ t.point.Entering) (fun j => ?_)
      (by simp [SyncPoint.Entering])
    exact (h.all_out hall j).imp_right fun hj => hj.imp_right Or.inl
  · have hi := h.returned i
    refine forall_set h.returned ?_
    simpa [FenceThread.Since, SyncPoint.Entering, hp] using hi
  · exact exists_set (P := fun t => t.point = .resetWaiting) hpending (by simp [hp])

theorem Releasing.moves (h : s.Releasing round) (hs : s.Survives (i, spurious))
    (hmove : s.Moves rounds i spurious s') :
    s'.Releasing round ∨ s'.Closing round ∨
      (s'.Crossing round ∧ (s.threads i).point = .resetReleased) := by
  have hi := h.returned i
  have hn := i.pos
  cases hmove with
  | spin => exact .inl h
  | call hp | passWaiting hp | keepsReleased hp =>
    refine .inl (h.set (by simp) ?_ (by simp) id (by simp [FenceThread.Released, hp])
      fun hall => ?_)
    · simpa [FenceThread.Since, SyncPoint.Entering, hp] using hi
    · exact exists_set (P := fun t => t.point = .testReleased ∨ t.point = .resetWaiting)
        (h.last hall) (by simp [hp])
  | passReleased hp hzero =>
    have hpos := h.released_pos (i := i) (by simp [FenceThread.Released, hp])
    omega
  | addWaiting hp => exact absurd hp (h.points i)
  | addReleased hp =>
    have hlt := h.released_lt (i := i) (by simp [FenceThread.Released, hp])
    refine .inl (h.set (by simp) ?_ (by simp) (by omega) (by simp [FenceThread.Released, hp])
      fun _ => ⟨i, by simp⟩)
    simpa [FenceThread.Since, SyncPoint.Entering, hp] using hi
  | seesLast hp hall =>
    refine .inl (h.set (by simp) ?_ (fun _ => hall) id (by simp [FenceThread.Released, hp])
      fun _ => ⟨i, by simp⟩)
    simpa [FenceThread.Since, SyncPoint.Entering, hp] using hi
  | seesOthers hp hne =>
    refine .inl (h.set (by simp) ?_ (by simp) id (by simp [FenceThread.Released, hp])
      fun hall => absurd hall hne)
    simpa [FenceThread.Since, SyncPoint.Entering, hp] using hi
  | resetsWaiting hp _ _ => exact .inr (.inl (h.close hp))
  | keepsWaiting hp hfail =>
    obtain ⟨j, hji, hj⟩ := hs.waitingKept hp h.waiting (hfail h.waiting)
    refine .inl (h.set (by simp) ?_ (fun _ => h.resets i (.inl hp)) id
      (by simp [FenceThread.Released, hp]) fun _ => ⟨j, ?_⟩)
    · simpa [FenceThread.Since, SyncPoint.Entering, hp] using hi
    · rw [set_threads, if_neg hji]
      exact hj.symm.imp_left And.left
  | resetsReleased hp hall hswap =>
    exact .inr (.inr ⟨h.cross hp (hs.releasedReset hp hall hswap h.waiting), hp⟩)

/-- With both counters reset the threads of a round gather for the next. -/
theorem gathering_next (hreleased : s.released = 0) (hwaiting : s.waiting = 0)
    (hpoint : ∀ j, (s.threads j).point.Exiting ∨ (s.threads j).point.Entering)
    (hsince : ∀ j, (s.threads j).Since round) : s.Gathering (round + 1) := by
  refine ⟨hreleased, ?_, fun j hj => ?_, fun j => (hsince j).until (hpoint j)⟩
  · rw [hwaiting, tally_eq_zero fun j hj => ?_]
    have hp := hpoint j
    simp [SyncPoint.Exiting, SyncPoint.Entering, show (s.threads j).point = _ from hj] at hp
  · have hp := hpoint j
    simp [SyncPoint.Exiting, SyncPoint.Entering, hj] at hp

theorem Closing.set (h : s.Closing round) {t : FenceThread} (hsince : t.Since round)
    (hpoint : t.point.Exiting ∨ t.point = .outside ∨ t.point = .spinReleased)
    (hlast : ∃ j, ((s.set i t).threads j).point.Exiting) : (s.set i t).Closing round :=
  ⟨h.waiting, h.released, forall_set (P := fun t => t.point.Exiting ∨ t.point = .outside ∨
    t.point = .spinReleased) h.points hpoint, forall_set h.returned hsince, hlast⟩

theorem Closing.moves (h : s.Closing round) (hs : s.Survives (i, spurious))
    (hmove : s.Moves rounds i spurious s') :
    s'.Closing round ∨ s'.Gathering (round + 1) := by
  have hi := h.returned i
  have hpoint := h.points i
  have hreleased := h.released
  have hwaiting := h.waiting
  have hn := i.pos
  cases hmove with
  | spin => exact .inl h
  | call hp _ =>
    refine .inl (h.set ?_ (by simp) (exists_set (P := fun t => t.point.Exiting) h.last ?_))
    · simpa [FenceThread.Since, SyncPoint.Entering, hp] using hi
    · simp [SyncPoint.Exiting, hp]
  | passReleased _ hzero => omega
  | addWaiting hp | passWaiting hp | addReleased hp => simp [SyncPoint.Exiting, hp] at hpoint
  | seesOthers _ hne => exact absurd hreleased hne
  | resetsWaiting _ hall _ => omega
  | seesLast hp | keepsWaiting hp =>
    refine .inl (h.set ?_ (by simp [SyncPoint.Exiting]) ⟨i, by simp [SyncPoint.Exiting]⟩)
    simpa [FenceThread.Since, SyncPoint.Entering, hp] using hi
  | resetsReleased hp _ _ =>
    refine .inr (gathering_next rfl hwaiting ?_ ?_)
    · refine forall_set (P := fun t => t.point.Exiting ∨ t.point.Entering) (fun j => ?_)
        (by simp [SyncPoint.Entering])
      exact (h.points j).imp_right fun hj => hj.imp_right Or.inl
    · refine forall_set h.returned ?_
      simpa [FenceThread.Since, SyncPoint.Entering, hp] using hi
  | keepsReleased hp hfail =>
    obtain ⟨j, hji, hj⟩ := hs.releasedKept hp hreleased (hfail hreleased)
    refine .inl (h.set ?_ (by simp) ⟨j, by rwa [set_threads, if_neg hji]⟩)
    simpa [FenceThread.Since, SyncPoint.Entering, hp] using hi

theorem Crossing.set (h : s.Crossing round) {t : FenceThread} (hsince : t.Since round)
    (hpoint : t.point.Exiting ∨ t.point.Entering)
    (hlast : ∃ j, ((s.set i t).threads j).point = .resetWaiting) : (s.set i t).Crossing round :=
  ⟨h.waiting, h.released, forall_set (P := fun t => t.point.Exiting ∨ t.point.Entering) h.points
    hpoint, forall_set h.returned hsince, hlast⟩

theorem Crossing.moves (h : s.Crossing round) (hs : s.Survives (i, spurious))
    (hmove : s.Moves rounds i spurious s') :
    s'.Crossing round ∨ s'.Gathering (round + 1) := by
  have hi := h.returned i
  have hpoint := h.points i
  have hreleased := h.released
  have hwaiting := h.waiting
  have hn := i.pos
  cases hmove with
  | spin => exact .inl h
  | call hp | passReleased hp | seesOthers hp | keepsReleased hp =>
    refine .inl (h.set ?_ (by simp [SyncPoint.Entering])
      (exists_set (P := fun t => t.point = .resetWaiting) h.last (by simp [hp])))
    simpa [FenceThread.Since, SyncPoint.Entering, hp] using hi
  | addWaiting hp => exact absurd hwaiting (hs.waitingAdded hp)
  | passWaiting hp | addReleased hp => simp [SyncPoint.Exiting, SyncPoint.Entering, hp] at hpoint
  | seesLast _ hall | resetsReleased _ hall => omega
  | resetsWaiting hp _ _ =>
    refine .inr (gathering_next hreleased rfl ?_ ?_)
    · exact forall_set (P := fun t => t.point.Exiting ∨ t.point.Entering) h.points
        (by simp [SyncPoint.Exiting])
    · refine forall_set h.returned ?_
      simpa [FenceThread.Since, SyncPoint.Entering, hp] using hi
  | keepsWaiting hp hfail =>
    obtain ⟨j, hji, hj⟩ := hs.waitingKept hp hwaiting (hfail hwaiting)
    have hj' : (s.threads j).point = .resetWaiting := by
      rcases hj with hj | ⟨_, hall⟩
      · exact hj
      · omega
    refine .inl (h.set ?_ (by simp [SyncPoint.Exiting]) ⟨j, by rwa [set_threads, if_neg hji]⟩)
    simpa [FenceThread.Since, SyncPoint.Entering, hp] using hi

end Fence

end Ucsb
