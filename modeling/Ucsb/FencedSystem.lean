import Ucsb.FenceBarrier

namespace Ucsb

open StepSystem Tally

namespace Fence

variable {n rounds : ℕ} {s s' : Fence n} {event : Fin n × Bool}

theorem step_other (h : s.step rounds event = some s') {j : Fin n} (hj : j ≠ event.1) :
    s'.threads j = s.threads j := by
  cases moves_of_step h <;> simp [goto, leave, hj]

theorem step_returned (h : s.step rounds event = some s') :
    (s'.threads event.1).returned = (s.threads event.1).returned ∨
    ((s'.threads event.1).returned = (s.threads event.1).returned + 1 ∧
      (s'.threads event.1).point = .outside) := by
  cases moves_of_step h <;> simp [goto, leave]

/-- The thread finds a counter that it has to wait for. -/
def Spins (s : Fence n) (i : Fin n) : Prop :=
  ((s.threads i).point = .spinReleased ∧ s.released ≠ 0) ∨
    ((s.threads i).point = .spinWaiting ∧ s.waiting ≠ n)

instance (s : Fence n) (i : Fin n) : Decidable (s.Spins i) :=
  inferInstanceAs (Decidable (_ ∧ _ ∨ _ ∧ _))

theorem Free.not_spins {i : Fin n} (h : s.Free i) : ¬s.Spins i := by
  rintro (⟨hp, hne⟩ | ⟨hp, hne⟩)
  · exact hne (h.releasedTest hp)
  · exact hne (h.waitingTest hp)

theorem step_point (h : s.step rounds event = some s') (hspin : ¬s.Spins event.1) :
    (s'.threads event.1).point ≠ (s.threads event.1).point := by
  by_cases hout : (s.threads event.1).point = .outside
  · obtain ⟨i, spurious⟩ := event
    simp only [step, hout, Option.ite_none_right_eq_some, Option.some.injEq] at h
    rw [← h.2, hout]
    simp [goto]
  · have hfree : s.Free event.1 :=
      ⟨hout, fun hp => not_not.mp fun hne => hspin (.inl ⟨hp, hne⟩),
        fun hp => not_not.mp fun hne => hspin (.inr ⟨hp, hne⟩)⟩
    obtain ⟨t, ht, hpoint⟩ : ∃ t, s.step rounds event = some t ∧
        (t.threads event.1).point ≠ (s.threads event.1).point := hfree.leaves_point event.2
    cases Option.some.inj (h.symm.trans ht)
    exact hpoint

/-- Where a thread waits some thread is free to go on, or one is still to call `sync`
that has not returned from it more often. -/
theorem Inv.exists_free_or_behind (h : s.Inv) {i : Fin n}
    (hi : (s.threads i).point ≠ .outside) :
    (∃ j, s.Free j) ∨
      ∃ j, (s.threads j).point = .outside ∧ (s.threads j).returned ≤ (s.threads i).returned := by
  obtain ⟨round, h | h | h | h⟩ := h
  · by_cases hspin : (s.threads i).point = .spinWaiting ∧ s.waiting ≠ n
    · obtain ⟨hp, hne⟩ := hspin
      obtain ⟨j, hj⟩ := exists_not_of_tally_lt (P := FenceThread.Waits) (f := s.threads)
        (lt_of_le_of_ne tally_le_card (by rwa [← h.waiting, Fintype.card_fin]))
      by_cases hout : (s.threads j).point = .outside
      · have hreturnedi : (s.threads i).returned = round := by
          simpa [FenceThread.Until, hp, SyncPoint.Exiting] using h.returned i
        have hreturnedj : (s.threads j).returned = round := by
          simpa [FenceThread.Until, hout, SyncPoint.Exiting] using h.returned j
        exact .inr ⟨j, hout, by omega⟩
      · exact .inl ⟨j, hout, fun _ => h.released, fun hwait => absurd hwait hj⟩
    · exact .inl ⟨i, hi, fun _ => h.released, fun hp => not_not.mp fun hne => hspin ⟨hp, hne⟩⟩
  · obtain ⟨j, hj⟩ := h.exists_free
    exact .inl ⟨j, hj⟩
  · obtain ⟨j, hj⟩ := h.last
    exact .inl ⟨j, .of_point (.inr hj)⟩
  · obtain ⟨j, hj⟩ := h.last
    exact .inl ⟨j, .of_point (.inr (.inr (.inl hj)))⟩

/-- The operations that a thread still has to make in `sync` where it waits for nothing. -/
def pointRank : SyncPoint → ℕ
  | .outside => 7
  | .spinReleased => 6
  | .addWaiting => 5
  | .spinWaiting => 4
  | .addReleased => 3
  | .testReleased => 2
  | .resetWaiting => 1
  | .resetReleased => 0

def rank (s : Fence n) : ℕ := ∑ i, pointRank (s.threads i).point

theorem rank_set {s s' : Fence n} {i : Fin n}
    (h : ∀ j, j ≠ i → s'.threads j = s.threads j) :
    s'.rank + pointRank (s.threads i).point = s.rank + pointRank (s'.threads i).point := by
  have hthreads : s'.threads = Function.update s.threads i (s'.threads i) := by
    funext j
    by_cases hj : j = i
    · rw [hj, Function.update_self]
    · rw [h j hj, Function.update_of_ne hj]
  have hsum := sum_update_add (fun _ (t : FenceThread) => pointRank t.point) s.threads i
    (s'.threads i)
  rw [← hthreads] at hsum
  exact hsum

/-- An operation that finds what it waits for brings the thread closer to the return
of `sync`, from where the next call is to be made. -/
theorem step_rank (h : s.step rounds event = some s') (hspin : ¬s.Spins event.1) :
    ((s'.threads event.1).returned = (s.threads event.1).returned ∧ s'.rank < s.rank) ∨
    ((s'.threads event.1).returned = (s.threads event.1).returned + 1 ∧ s'.rank ≤ s.rank + 7) := by
  have hrank := rank_set (i := event.1) fun j hj => step_other h hj
  cases moves_of_step h with
  | spin => exact absurd rfl (step_point h hspin)
  | call hp | passReleased hp | addWaiting hp | passWaiting hp | addReleased hp | seesLast hp
  | resetsWaiting hp | keepsWaiting hp =>
    left
    simp [goto, hp, pointRank] at hrank ⊢
    omega
  | seesOthers hp | resetsReleased hp | keepsReleased hp =>
    right
    simp [leave, hp, pointRank] at hrank ⊢
    omega

end Fence

/-- Threads with a state of their own that meet at a fence again and again: what a
thread does next, whether that is to pass the fence, and how often it has. -/
structure FenceUser (n : ℕ) (σ ε : Type) where
  act : σ → Fin n × ε → Option σ
  atFence : σ → Fin n → Bool
  synced : σ → Fin n → ℕ
  synced_self {s s' : σ} {i : Fin n} {e : ε} : act s (i, e) = some s' →
    synced s' i = synced s i + if atFence s i then 1 else 0
  synced_other {s s' : σ} {i j : Fin n} {e : ε} : act s (i, e) = some s' → j ≠ i →
    synced s' j = synced s j
  atFence_other {s s' : σ} {i j : Fin n} {e : ε} : act s (i, e) = some s' → j ≠ i →
    atFence s' j = atFence s j

namespace FenceUser

variable {n : ℕ} {σ ε : Type}

def arrived (u : FenceUser n σ ε) (s : σ) (i : Fin n) : ℕ :=
  u.synced s i + if u.atFence s i then 1 else 0

/-- A thread passes the fence when all have come to it as often as it has. -/
def MayPass (u : FenceUser n σ ε) (s : σ) (i : Fin n) : Prop :=
  u.atFence s i → ∀ j, u.arrived s i ≤ u.arrived s j

instance (u : FenceUser n σ ε) (s : σ) (i : Fin n) : Decidable (u.MayPass s i) :=
  inferInstanceAs (Decidable (_ → ∀ _, _))

/-- The threads with a fence that opens at once. -/
def ideal (u : FenceUser n σ ε) : σ → Fin n × ε → Option σ :=
  guarded u.act fun s event => u.MayPass s event.1

section

variable {u : FenceUser n σ ε} {start s s' : σ} {event : Fin n × ε}

theorem ideal_cases (h : u.ideal s event = some s') :
    u.MayPass s event.1 ∧ u.act s event = some s' :=
  Option.ite_none_right_eq_some.mp h

theorem arrived_le_act (h : u.act s event = some s') (j : Fin n) :
    u.arrived s j ≤ u.arrived s' j := by
  unfold arrived
  by_cases hj : j = event.1
  · rw [hj, u.synced_self h]
    omega
  · rw [u.synced_other h hj, u.atFence_other h hj]

/-- No thread has passed the fence more often than all have come to it. -/
theorem reaches_synced_le (hstart : ∀ i, u.synced start i = 0)
    (h : Reaches u.ideal (fun _ _ => True) start s) (i j : Fin n) :
    u.synced s i ≤ u.arrived s j := by
  refine h.invariant (fun s => ∀ i j, u.synced s i ≤ u.arrived s j) (fun i j => ?_)
    (fun s event s' _ hs _ hstep i j => ?_) i j
  · rw [hstart]
    exact Nat.zero_le _
  · obtain ⟨hpass, hact⟩ := ideal_cases hstep
    refine Nat.le_trans ?_ (arrived_le_act hact j)
    by_cases hi : i = event.1
    · rw [hi, u.synced_self hact]
      by_cases hat : u.atFence s event.1
      · exact hpass hat j
      · rw [if_neg hat]
        exact hs event.1 j
    · rw [u.synced_other hact hi]
      exact hs i j

end

end FenceUser

/-- The threads beside the fence they call `sync` of. -/
structure Fenced (n : ℕ) (σ : Type) where
  user : σ
  fence : Fence n

namespace Fenced

variable {n : ℕ} {σ ε : Type} (u : FenceUser n σ ε) (rounds : ℕ)

def start (user : σ) : Fenced n σ := { user := user, fence := .make n }

/-- At the fence a thread makes the next atomic operation of `sync`, and goes on when
the call returns; elsewhere it acts. -/
def step (s : Fenced n σ) (event : Fin n × ε × Bool) : Option (Fenced n σ) :=
  let (i, e, spurious) := event
  if u.atFence s.user i then
    (s.fence.step rounds (i, spurious)).bind fun fence =>
      if (fence.threads i).returned = (s.fence.threads i).returned then
        some { user := s.user, fence := fence }
      else (u.act s.user (i, e)).map fun user => { user := user, fence := fence }
  else (u.act s.user (i, e)).map fun user => { user := user, fence := s.fence }

/-- No spurious failure of a compare-exchange leaves a counter behind. -/
def Survives (s : Fenced n σ) (event : Fin n × ε × Bool) : Prop :=
  u.atFence s.user event.1 → s.fence.Survives (event.1, event.2.2)

variable {u : FenceUser n σ ε} {rounds : ℕ} {s s' : Fenced n σ} {event : Fin n × ε × Bool}

/-- What a step can be: an action away from the fence, an operation inside `sync`, or
the one it returns by together with the action behind it. -/
theorem step_cases (h : s.step u rounds event = some s') :
    (u.atFence s.user event.1 = false ∧ ∃ user,
      u.act s.user (event.1, event.2.1) = some user ∧ s' = { user := user, fence := s.fence }) ∨
    (u.atFence s.user event.1 = true ∧ ∃ fence,
      s.fence.step rounds (event.1, event.2.2) = some fence ∧
      (((fence.threads event.1).returned = (s.fence.threads event.1).returned ∧
          s' = { user := s.user, fence := fence }) ∨
        ((fence.threads event.1).returned ≠ (s.fence.threads event.1).returned ∧ ∃ user,
          u.act s.user (event.1, event.2.1) = some user ∧
            s' = { user := user, fence := fence }))) := by
  obtain ⟨i, e, spurious⟩ := event
  simp only [step] at h
  by_cases hat : u.atFence s.user i
  · rw [if_pos hat] at h
    obtain ⟨fence, hfence, h⟩ := Option.bind_eq_some_iff.mp h
    refine .inr ⟨hat, fence, hfence, ?_⟩
    by_cases hreturned : (fence.threads i).returned = (s.fence.threads i).returned
    · rw [if_pos hreturned] at h
      exact .inl ⟨hreturned, (Option.some.inj h).symm⟩
    · rw [if_neg hreturned] at h
      obtain ⟨user, hact, h⟩ := Option.map_eq_some_iff.mp h
      exact .inr ⟨hreturned, user, hact, h.symm⟩
  · rw [if_neg hat] at h
    obtain ⟨user, hact, h⟩ := Option.map_eq_some_iff.mp h
    exact .inl ⟨by simpa using hat, user, hact, h.symm⟩

/-- The fence has returned to a thread as often as the thread has passed it, and only
threads that are at it are inside `sync`. -/
structure Linked (u : FenceUser n σ ε) (rounds : ℕ) (s : Fenced n σ) : Prop where
  fence : Reaches (Fence.step rounds) Fence.Survives (.make n) s.fence
  returned : ∀ i, (s.fence.threads i).returned = u.synced s.user i
  inside : ∀ i, (s.fence.threads i).point ≠ .outside → u.atFence s.user i = true

theorem start_linked {user : σ} (h : ∀ i, u.synced user i = 0) :
    (start user).Linked u rounds where
  fence := .refl
  returned i := (h i).symm
  inside _ hi := absurd rfl hi

theorem Linked.step (h : s.Linked u rounds) (hs : s.Survives u event)
    (hstep : s.step u rounds event = some s') : s'.Linked u rounds := by
  rcases step_cases hstep with ⟨hat, user, hact, rfl⟩ | ⟨hat, fence, hfence, hrest⟩
  · refine ⟨h.fence, fun j => ?_, fun j hj => ?_⟩
    · by_cases hji : j = event.1
      · subst hji
        rw [h.returned, u.synced_self hact, hat]
        rfl
      · rw [h.returned, u.synced_other hact hji]
    · have hatj := h.inside j hj
      by_cases hji : j = event.1
      · subst hji
        rw [hat] at hatj
        cases hatj
      · rwa [u.atFence_other hact hji]
  · have hreach := h.fence.tail ⟨_, hs hat, hfence⟩
    have hother : ∀ j, j ≠ event.1 → fence.threads j = s.fence.threads j :=
      fun j => Fence.step_other hfence
    rcases hrest with ⟨hsame, rfl⟩ | ⟨hnot, user, hact, rfl⟩
    · refine ⟨hreach, fun j => ?_, fun j hj => ?_⟩
      · by_cases hji : j = event.1
        · subst hji
          rw [hsame, h.returned]
        · rw [hother j hji, h.returned]
      · by_cases hji : j = event.1
        · subst hji
          exact hat
        · rw [hother j hji] at hj
          exact h.inside j hj
    · obtain ⟨hreturned, hout⟩ := (Fence.step_returned hfence).resolve_left hnot
      refine ⟨hreach, fun j => ?_, fun j hj => ?_⟩
      · by_cases hji : j = event.1
        · subst hji
          rw [hreturned, h.returned, u.synced_self hact, hat]
          rfl
        · rw [hother j hji, h.returned, u.synced_other hact hji]
      · by_cases hji : j = event.1
        · subst hji
          exact absurd hout hj
        · rw [hother j hji] at hj
          rw [u.atFence_other hact hji]
          exact h.inside j hj

theorem Linked.started_le (h : s.Linked u rounds) (i : Fin n) :
    s.fence.started i ≤ u.arrived s.user i := by
  have hinside := h.inside i
  rw [Fence.started, FenceUser.arrived, h.returned]
  split
  next => omega
  next hin => rw [if_pos (hinside hin)]

/-- When `sync` returns to a thread all others have called it as often. -/
theorem Linked.mayPass (h : s.Linked u rounds) {fence : Fence n}
    (hreach : Reaches (Fence.step rounds) Fence.Survives (.make n) fence)
    (hfence : s.fence.step rounds (event.1, event.2.2) = some fence)
    (hreturned : (fence.threads event.1).returned ≠ (s.fence.threads event.1).returned) :
    u.MayPass s.user event.1 := by
  intro hat j
  obtain ⟨hnext, _⟩ := (Fence.step_returned hfence).resolve_left hreturned
  by_cases hji : j = event.1
  · rw [hji]
  · have hle := Fence.reaches_returned_le (fun _ ht => Fence.reaches_inv ht) hreach event.1 j
    have hstarted := h.started_le j
    have hsame : fence.started j = s.fence.started j := by
      rw [Fence.started, Fence.started, Fence.step_other hfence hji]
    rw [hnext, h.returned] at hle
    rw [FenceUser.arrived, if_pos hat]
    exact Nat.le_trans hle (hsame ▸ hstarted)

/-- Where every compare-exchange that finds its value succeeds no counter is left behind. -/
theorem reaches_of_strong {user : σ}
    (h : Reaches (step u rounds) (fun _ event => event.2.2 = false) (start user) s) :
    Reaches (step u rounds) (Survives u) (start user) s := by
  have hboth : Reaches (step u rounds) (Survives u) (start user) s ∧ s.fence.StrongInv := by
    refine h.invariant (fun s => Reaches (step u rounds) (Survives u) (start user) s ∧
      s.fence.StrongInv) ⟨.refl, Fence.make_strongInv n⟩ fun t event t' _ ht hstrong hstep => ?_
    have hsurvives : t.Survives u event := fun _ => ht.2.survives hstrong
    refine ⟨ht.1.tail ⟨event, hsurvives, hstep⟩, ?_⟩
    rcases step_cases hstep with ⟨_, _, _, rfl⟩ | ⟨_, fence, hfence, ⟨_, rfl⟩ | ⟨_, _, _, rfl⟩⟩
    · exact ht.2
    · exact ht.2.step hstrong hfence
    · exact ht.2.step hstrong hfence
  exact hboth.1

theorem reaches_linked {user : σ} (hstart : ∀ i, u.synced user i = 0)
    (h : Reaches (step u rounds) (Survives u) (start user) s) : s.Linked u rounds :=
  h.invariant (Linked u rounds) (start_linked hstart)
    fun _ _ _ _ hs hsurvives hstep => hs.step hsurvives hstep

/-- The threads with the fence as it is built do what they do with one that opens at once. -/
theorem reaches_ideal {user : σ} (hstart : ∀ i, u.synced user i = 0)
    (h : Reaches (step u rounds) (Survives u) (start user) s) :
    Reaches u.ideal (fun _ _ => True) user s.user := by
  refine Reaches.simulates Fenced.user (fun t event t' ht hs hstep => ?_) h
  have hlinked := reaches_linked hstart ht
  rcases step_cases hstep with ⟨hat, next, hact, rfl⟩ | ⟨hat, fence, hfence, hrest⟩
  · refine .inr ⟨(event.1, event.2.1), trivial, ?_⟩
    have hpass : u.MayPass t.user event.1 := fun hat' => by
      rw [hat] at hat'
      cases hat'
    rwa [FenceUser.ideal, guarded, if_pos hpass]
  · rcases hrest with ⟨_, rfl⟩ | ⟨hnot, next, hact, rfl⟩
    · exact .inl rfl
    · have hreach := hlinked.fence.tail ⟨_, hs hat, hfence⟩
      refine .inr ⟨(event.1, event.2.1), trivial, ?_⟩
      rwa [FenceUser.ideal, guarded, if_pos (hlinked.mayPass hreach hfence hnot)]

/-- The thread is inside `sync` at a test that fails. -/
def Spins (u : FenceUser n σ ε) (s : Fenced n σ) (i : Fin n) : Prop :=
  u.atFence s.user i = true ∧ s.fence.Spins i

instance (u : FenceUser n σ ε) (s : Fenced n σ) (i : Fin n) : Decidable (s.Spins u i) :=
  inferInstanceAs (Decidable (_ ∧ _))

/-- A call of `sync` weighs less than the action behind it. -/
def rank (userRank : σ → ℕ) (s : Fenced n σ) : ℕ := 8 * userRank s.user + s.fence.rank

theorem step_rank {userRank : σ → ℕ}
    (hrank : ∀ s e s', u.act s e = some s' → userRank s' < userRank s)
    (h : s.step u rounds event = some s') (hspin : ¬s.Spins u event.1) :
    s'.rank userRank < s.rank userRank := by
  unfold rank
  rcases step_cases h with ⟨_, user, hact, rfl⟩ | ⟨hat, fence, hfence, hrest⟩
  · have hlt := hrank _ _ _ hact
    simp only
    omega
  · have hfenceRank := Fence.step_rank hfence fun hfenceSpin => hspin ⟨hat, hfenceSpin⟩
    rcases hrest with ⟨hsame, rfl⟩ | ⟨hnot, user, hact, rfl⟩
    · rcases hfenceRank with ⟨_, hlt⟩ | ⟨hnext, _⟩
      · simp only
        omega
      · simp only at hsame hnext
        omega
    · have hlt := hrank _ _ _ hact
      rcases hfenceRank with ⟨hsame, _⟩ | ⟨_, hle⟩
      · exact absurd hsame hnot
      · simp only at hlt hle ⊢
        omega

theorem step_of_fence {i : Fin n} (hat : u.atFence s.user i = true)
    (hact : ∀ e, ∃ user, u.act s.user (i, e) = some user)
    (hfence : ∀ spurious, ∃ fence, s.fence.step rounds (i, spurious) = some fence)
    (e : ε) (spurious : Bool) : ∃ s', s.step u rounds (i, e, spurious) = some s' := by
  obtain ⟨fence, hfence⟩ := hfence spurious
  obtain ⟨user, hact⟩ := hact e
  simp only [step, hat, if_true, hfence, Option.bind_some, hact, Option.map_some]
  split
  · exact ⟨_, rfl⟩
  · exact ⟨_, rfl⟩

theorem Linked.calls (h : s.Linked u rounds) {i : Fin n}
    (hrounds : u.synced s.user i < rounds) (hout : (s.fence.threads i).point = .outside)
    (spurious : Bool) : ∃ fence, s.fence.step rounds (i, spurious) = some fence := by
  have hlt : (s.fence.threads i).returned < rounds := h.returned i ▸ hrounds
  exact ⟨_, by simp only [Fence.step, hout, if_pos hlt]; rfl⟩

/-- Where a thread is at the fence that no other one is behind, some thread at the
fence has an operation to make that is not a failing test. -/
theorem Linked.exists_step (h : s.Linked u rounds)
    (hrounds : ∀ j, u.atFence s.user j = true → u.synced s.user j < rounds)
    (hact : ∀ j, u.atFence s.user j = true → ∀ e, ∃ user, u.act s.user (j, e) = some user)
    {i : Fin n} (hat : u.atFence s.user i = true)
    (hfirst : ∀ j, u.arrived s.user i ≤ u.arrived s.user j) :
    ∃ j, ¬s.Spins u j ∧ ∀ e spurious, ∃ s', s.step u rounds (j, e, spurious) = some s' := by
  have houtside : ∀ j, u.atFence s.user j = true → (s.fence.threads j).point = .outside →
      ¬s.Spins u j ∧ ∀ e spurious, ∃ s', s.step u rounds (j, e, spurious) = some s' := by
    intro j hatj hout
    refine ⟨fun hspin => ?_, step_of_fence hatj (hact j hatj) (h.calls (hrounds j hatj) hout)⟩
    rcases hspin.2 with ⟨hp, _⟩ | ⟨hp, _⟩
    · simp [hout] at hp
    · simp [hout] at hp
  by_cases hout : (s.fence.threads i).point = .outside
  · exact ⟨i, houtside i hat hout⟩
  · rcases (Fence.reaches_inv h.fence).exists_free_or_behind hout with ⟨j, hfree⟩ | ⟨j, houtj, hle⟩
    · have hatj := h.inside j hfree.inside
      refine ⟨j, fun hspin => hfree.not_spins hspin.2, step_of_fence hatj (hact j hatj) ?_⟩
      intro spurious
      obtain ⟨fence, hfence, _⟩ : ∃ fence, s.fence.step rounds (j, spurious) = some fence ∧
          (fence.threads j).point ≠ (s.fence.threads j).point := hfree.leaves_point spurious
      exact ⟨fence, hfence⟩
    · have harrived := hfirst j
      rw [FenceUser.arrived, FenceUser.arrived, if_pos hat, ← h.returned, ← h.returned] at harrived
      have hatj : u.atFence s.user j = true := by
        by_contra hnot
        rw [if_neg hnot] at harrived
        omega
      exact ⟨j, houtside j hatj houtj⟩

end Fenced

end Ucsb
