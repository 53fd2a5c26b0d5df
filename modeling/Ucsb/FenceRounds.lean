import Ucsb.FencePhases
import Ucsb.RoundBarrier

namespace Ucsb

open StepSystem Tally

namespace Fence

variable {n rounds round : ℕ} {s s' : Fence n} {i : Fin n} {event : Fin n × Bool}

def Inv (s : Fence n) : Prop :=
  ∃ round, s.Gathering round ∨ s.Releasing round ∨ s.Closing round ∨ s.Crossing round

theorem make_gathering (n : ℕ) : (make n).Gathering 0 where
  released := rfl
  waiting := (tally_eq_zero fun _ h => by cases h).symm
  points _ := by simp [make]
  returned _ := by simp [make, FenceThread.Until, SyncPoint.Exiting]

theorem Inv.step (h : s.Inv) (hs : s.Survives event) (hstep : s.step rounds event = some s') :
    s'.Inv := by
  have hmove := moves_of_step hstep
  obtain ⟨round, h | h | h | h⟩ := h
  · rcases h.moves hmove with h' | ⟨h', _⟩
    · exact ⟨round, .inl h'⟩
    · exact ⟨round, .inr (.inl h')⟩
  · rcases h.moves hs hmove with h' | h' | ⟨h', _⟩
    · exact ⟨round, .inr (.inl h')⟩
    · exact ⟨round, .inr (.inr (.inl h'))⟩
    · exact ⟨round, .inr (.inr (.inr h'))⟩
  · rcases h.moves hs hmove with h' | h'
    · exact ⟨round, .inr (.inr (.inl h'))⟩
    · exact ⟨round + 1, .inl h'⟩
  · rcases h.moves hs hmove with h' | h'
    · exact ⟨round, .inr (.inr (.inr h'))⟩
    · exact ⟨round + 1, .inl h'⟩

/-- Where every compare-exchange that finds its value succeeds, no thread tries to
reset the count of the released while that of the waiting is full. -/
structure StrongInv (s : Fence n) : Prop where
  phase : ∃ round, s.Gathering round ∨ s.Releasing round ∨ s.Closing round
  resets : ∀ i, (s.threads i).point = .resetReleased → s.waiting ≠ n

theorem StrongInv.inv (h : s.StrongInv) : s.Inv := by
  obtain ⟨round, h | h | h⟩ := h.phase
  · exact ⟨round, .inl h⟩
  · exact ⟨round, .inr (.inl h)⟩
  · exact ⟨round, .inr (.inr (.inl h))⟩

theorem StrongInv.survives (h : s.StrongInv) (hstrong : event.2 = false) : s.Survives event where
  waitingKept _ _ hspurious := by simp [hstrong] at hspurious
  releasedReset hp _ _ hall := absurd hall (h.resets _ hp)
  releasedKept _ _ hspurious := by simp [hstrong] at hspurious
  waitingAdded hp := by
    have hn := event.1.pos
    obtain ⟨round, h | h | h⟩ := h.phase
    · exact Nat.ne_of_lt (h.waiting_lt (i := event.1) (by simp [FenceThread.Waits, hp]))
    · exact absurd hp (h.points _)
    · rw [h.waiting]
      omega

theorem Moves.resetReleased {spurious : Bool} (h : s.Moves rounds i spurious s') {j : Fin n}
    (hj : (s'.threads j).point = .resetReleased) :
    (s.threads j).point = .resetReleased ∨ s'.waiting = 0 ∨ (s.waiting = n → spurious = true) := by
  by_cases hji : j = i
  · subst hji
    cases h with
    | spin => exact .inl hj
    | resetsWaiting => exact .inr (.inl rfl)
    | keepsWaiting _ hfail => exact .inr (.inr hfail)
    | _ => simp [goto, leave] at hj
  · left
    cases h <;> simpa [goto, leave, hji] using hj

theorem StrongInv.step (h : s.StrongInv) (hstrong : event.2 = false)
    (hstep : s.step rounds event = some s') : s'.StrongInv := by
  have hn := event.1.pos
  have hs := h.survives hstrong
  have hmove := moves_of_step hstep
  have hfull : ∀ round, s'.Releasing round → s.waiting = n →
      ∀ j, (s'.threads j).point = .resetReleased → s'.waiting ≠ n := by
    intro round h' hall j hj
    exfalso
    rcases hmove.resetReleased hj with hp | hzero | hfail
    · exact h.resets j hp hall
    · have hwaiting := h'.waiting
      omega
    · simp [hstrong, hall] at hfail
  have hgather : ∀ round, s'.Gathering round → s'.StrongInv := fun round h' =>
    ⟨⟨round, .inl h'⟩, fun j hj =>
      Nat.ne_of_lt (h'.waiting_lt (i := j) (by simp [FenceThread.Waits, hj]))⟩
  have hclose : ∀ round, s'.Closing round → s'.StrongInv := fun round h' =>
    ⟨⟨round, .inr (.inr h')⟩, fun _ _ => by rw [h'.waiting]; omega⟩
  obtain ⟨round, hphase | hphase | hphase⟩ := h.phase
  · rcases hphase.moves hmove with h' | ⟨h', hall⟩
    · exact hgather round h'
    · exact ⟨⟨round, .inr (.inl h')⟩, hfull round h' hall⟩
  · rcases hphase.moves hs hmove with h' | h' | ⟨_, hp⟩
    · exact ⟨⟨round, .inr (.inl h')⟩, hfull round h' hphase.waiting⟩
    · exact hclose round h'
    · exact absurd hphase.waiting (h.resets _ hp)
  · rcases hphase.moves hs hmove with h' | h'
    · exact hclose round h'
    · exact hgather (round + 1) h'

/-- Neither counter passes the number of the threads, and so neither wraps around. -/
theorem Inv.counters_le (h : s.Inv) : s.waiting ≤ n ∧ s.released ≤ n := by
  obtain ⟨round, h | h | h | h⟩ := h
  · have hle := tally_le_card (P := FenceThread.Waits) (f := s.threads)
    rw [← h.waiting, Fintype.card_fin] at hle
    exact ⟨hle, by rw [h.released]; omega⟩
  · have hle := tally_le_card (P := FenceThread.Released) (f := s.threads)
    rw [← h.released, Fintype.card_fin] at hle
    exact ⟨Nat.le_of_eq h.waiting, hle⟩
  · exact ⟨by rw [h.waiting]; omega, Nat.le_of_eq h.released⟩
  · exact ⟨Nat.le_of_eq h.waiting, by rw [h.released]; omega⟩

/-- Between its calls every thread finds both counters at zero. -/
theorem Inv.counters_zero (h : s.Inv)
    (hout : ∀ i, (s.threads i).point = .outside) : s.waiting = 0 ∧ s.released = 0 := by
  have hnone : ∀ i, ¬(s.threads i).Waits := by
    intro i
    simp [FenceThread.Waits, hout i]
  obtain ⟨round, h | h | h | h⟩ := h
  · exact ⟨by rw [h.waiting, tally_eq_zero hnone], h.released⟩
  · have hall : s.released = n := by
      rw [h.released, tally_eq_card_iff.mpr, Fintype.card_fin]
      intro i
      simp [FenceThread.Released, hout i]
    obtain ⟨i, hi⟩ := h.last hall
    simp [hout i] at hi
  · obtain ⟨i, hi⟩ := h.last
    simp [SyncPoint.Exiting, hout i] at hi
  · obtain ⟨i, hi⟩ := h.last
    simp [hout i] at hi

/-- The thread is inside `sync` and not spinning on a test that fails. -/
structure Free (s : Fence n) (i : Fin n) : Prop where
  inside : (s.threads i).point ≠ .outside
  releasedTest : (s.threads i).point = .spinReleased → s.released = 0
  waitingTest : (s.threads i).point = .spinWaiting → s.waiting = n

theorem Free.leaves_point (h : s.Free i) (spurious : Bool) :
    ∃ s', s.step rounds (i, spurious) = some s' ∧
      (s'.threads i).point ≠ (s.threads i).point := by
  cases hp : (s.threads i).point with
  | outside => exact absurd hp h.inside
  | spinReleased =>
    simp only [step, hp, h.releasedTest hp, if_true, Option.some.injEq, exists_eq_left']
    simp [goto]
  | spinWaiting =>
    simp only [step, hp, h.waitingTest hp, if_true, Option.some.injEq, exists_eq_left']
    simp [goto]
  | addWaiting | addReleased =>
    simp only [step, hp, Option.some.injEq, exists_eq_left']
    simp [goto]
  | testReleased | resetWaiting | resetReleased =>
    simp only [step, hp, Option.some.injEq, exists_eq_left']
    split <;> simp [goto, leave]

theorem Free.of_point (hp : (s.threads i).point = .addReleased ∨ (s.threads i).point.Exiting) :
    s.Free i := by
  rcases hp with hp | hp | hp | hp <;> exact ⟨by simp [hp], by simp [hp], by simp [hp]⟩

theorem Gathering.exists_free (h : s.Gathering round) (hstarted : ∀ i, s.started i ≤ rounds)
    (hinside : ∃ i, (s.threads i).point ≠ .outside)
    (hall : ∀ i, (s.threads i).returned < rounds → (s.threads i).point ≠ .outside) :
    ∃ i, s.Free i := by
  have hfree : ∀ i, (s.threads i).point ≠ .outside →
      (¬(s.threads i).Waits ∨ s.waiting = n) → s.Free i := by
    intro i hi hwait
    exact ⟨hi, fun _ => h.released, fun hp => hwait.resolve_left fun hnot => hnot hp⟩
  obtain ⟨i, hi⟩ := hinside
  by_cases hfull : (s.threads i).Waits ∧ s.waiting ≠ n
  · obtain ⟨hwait, hne⟩ := hfull
    have hp : (s.threads i).point = .spinWaiting := hwait
    have hlt : tally FenceThread.Waits s.threads < Fintype.card (Fin n) :=
      lt_of_le_of_ne tally_le_card (by rwa [← h.waiting, Fintype.card_fin])
    obtain ⟨j, hj⟩ := exists_not_of_tally_lt hlt
    refine ⟨j, hfree j (fun hout => ?_) (.inl hj)⟩
    -- a thread that is done would leave the waiting one with too many calls
    have hdone : ¬(s.threads j).returned < rounds := fun hlt => hall j hlt hout
    have hreturnedi := h.returned i
    have hreturnedj := h.returned j
    have hstartedi := hstarted i
    have hi' : (s.threads i).returned = round := by
      simpa [FenceThread.Until, hp, SyncPoint.Exiting] using hreturnedi
    have hj' : (s.threads j).returned = round := by
      simpa [FenceThread.Until, hout, SyncPoint.Exiting] using hreturnedj
    have hi'' : s.started i = (s.threads i).returned + 1 := by
      simp [started, hp]
    omega
  · exact ⟨i, hfree i hi (by tauto)⟩

theorem Releasing.exists_free (h : s.Releasing round) : ∃ i, s.Free i := by
  by_cases hfull : s.released = n
  · obtain ⟨i, hi⟩ := h.last hfull
    exact ⟨i, .of_point (.inr (hi.imp_right Or.inl))⟩
  · have hlt : tally FenceThread.Released s.threads < Fintype.card (Fin n) :=
      lt_of_le_of_ne tally_le_card (by rwa [← h.released, Fintype.card_fin])
    obtain ⟨i, hi⟩ := exists_not_of_tally_lt hlt
    by_cases hp : (s.threads i).point = .spinWaiting
    · exact ⟨i, by simp [hp], by simp [hp], fun _ => h.waiting⟩
    · have hadd : (s.threads i).point = .addReleased := by
        by_contra hne
        exact hi ⟨hp, hne⟩
      exact ⟨i, .of_point (.inl hadd)⟩

/-- As long as the calls are not over some thread inside is free to go on. -/
theorem Inv.exists_free (h : s.Inv) (hstarted : ∀ i, s.started i ≤ rounds)
    (hinside : ∃ i, (s.threads i).point ≠ .outside)
    (hall : ∀ i, (s.threads i).returned < rounds → (s.threads i).point ≠ .outside) :
    ∃ i, s.Free i := by
  obtain ⟨round, h | h | h | h⟩ := h
  · exact h.exists_free hstarted hinside hall
  · exact h.exists_free
  · obtain ⟨i, hi⟩ := h.last
    exact ⟨i, .of_point (.inr hi)⟩
  · obtain ⟨i, hi⟩ := h.last
    exact ⟨i, .of_point (.inr (.inr (.inl hi)))⟩

end Fence

end Ucsb
