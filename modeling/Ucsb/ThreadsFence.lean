import Ucsb.StepSystem
import Ucsb.Tally

namespace Ucsb

open StepSystem Tally

/-- Where a thread is in `sync`, by the atomic operation it makes next. -/
inductive SyncPoint
  | outside
  | spinReleased
  | addWaiting
  | spinWaiting
  | addReleased
  | testReleased
  | resetWaiting
  | resetReleased
  deriving DecidableEq

/-- A thread at the fence, and how many calls of `sync` have returned to it. -/
structure FenceThread where
  point : SyncPoint
  returned : ℕ

/-- `threads_fence_t` for `n` threads. -/
structure Fence (n : ℕ) where
  waiting : ℕ
  released : ℕ
  threads : Fin n → FenceThread

namespace Fence

variable {n : ℕ}

def make (n : ℕ) : Fence n :=
  { waiting := 0, released := 0, threads := fun _ => { point := .outside, returned := 0 } }

def set (s : Fence n) (i : Fin n) (t : FenceThread) : Fence n :=
  { s with threads := Function.update s.threads i t }

def goto (s : Fence n) (i : Fin n) (point : SyncPoint) : Fence n :=
  s.set i { s.threads i with point := point }

def leave (s : Fence n) (i : Fin n) : Fence n :=
  s.set i { point := .outside, returned := (s.threads i).returned + 1 }

/-- One atomic operation of `sync` by a thread that calls it `rounds` times. A
spurious event lets a compare-exchange fail whatever it finds. -/
def step (rounds : ℕ) (s : Fence n) (event : Fin n × Bool) : Option (Fence n) :=
  let (i, spurious) := event
  match (s.threads i).point with
  | .outside => if (s.threads i).returned < rounds then some (s.goto i .spinReleased) else none
  | .spinReleased => some (if s.released = 0 then s.goto i .addWaiting else s)
  | .addWaiting => some { s.goto i .spinWaiting with waiting := s.waiting + 1 }
  | .spinWaiting => some (if s.waiting = n then s.goto i .addReleased else s)
  | .addReleased => some { s.goto i .testReleased with released := s.released + 1 }
  | .testReleased => some (if s.released = n then s.goto i .resetWaiting else s.leave i)
  | .resetWaiting =>
    some (if s.waiting = n ∧ spurious = false then
      { s.goto i .resetReleased with waiting := 0 } else s.goto i .resetReleased)
  | .resetReleased =>
    some (if s.released = n ∧ spurious = false then
      { s.leave i with released := 0 } else s.leave i)

/-- How many calls of `sync` a thread has begun. -/
def started (s : Fence n) (i : Fin n) : ℕ :=
  (s.threads i).returned + if (s.threads i).point = .outside then 0 else 1

/-- What one operation of thread `i` does, with what it found. -/
inductive Moves (rounds : ℕ) (s : Fence n) (i : Fin n) (spurious : Bool) : Fence n → Prop
  | spin : Moves rounds s i spurious s
  | call : (s.threads i).point = .outside → (s.threads i).returned < rounds →
      Moves rounds s i spurious (s.goto i .spinReleased)
  | passReleased : (s.threads i).point = .spinReleased → s.released = 0 →
      Moves rounds s i spurious (s.goto i .addWaiting)
  | addWaiting : (s.threads i).point = .addWaiting →
      Moves rounds s i spurious { s.goto i .spinWaiting with waiting := s.waiting + 1 }
  | passWaiting : (s.threads i).point = .spinWaiting → s.waiting = n →
      Moves rounds s i spurious (s.goto i .addReleased)
  | addReleased : (s.threads i).point = .addReleased →
      Moves rounds s i spurious { s.goto i .testReleased with released := s.released + 1 }
  | seesLast : (s.threads i).point = .testReleased → s.released = n →
      Moves rounds s i spurious (s.goto i .resetWaiting)
  | seesOthers : (s.threads i).point = .testReleased → s.released ≠ n →
      Moves rounds s i spurious (s.leave i)
  | resetsWaiting : (s.threads i).point = .resetWaiting → s.waiting = n → spurious = false →
      Moves rounds s i spurious { s.goto i .resetReleased with waiting := 0 }
  | keepsWaiting : (s.threads i).point = .resetWaiting → (s.waiting = n → spurious = true) →
      Moves rounds s i spurious (s.goto i .resetReleased)
  | resetsReleased : (s.threads i).point = .resetReleased → s.released = n → spurious = false →
      Moves rounds s i spurious { s.leave i with released := 0 }
  | keepsReleased : (s.threads i).point = .resetReleased → (s.released = n → spurious = true) →
      Moves rounds s i spurious (s.leave i)

theorem moves_of_step {rounds : ℕ} {s s' : Fence n} {event : Fin n × Bool}
    (h : s.step rounds event = some s') : Moves rounds s event.1 event.2 s' := by
  obtain ⟨i, spurious⟩ := event
  cases hp : (s.threads i).point <;> simp only [step, hp] at h
  case outside =>
    split at h
    next hlt => cases Option.some.inj h; exact .call hp hlt
    next => simp at h
  case spinReleased =>
    cases Option.some.inj h
    split
    next hzero => exact .passReleased hp hzero
    next => exact .spin
  case addWaiting => cases Option.some.inj h; exact .addWaiting hp
  case spinWaiting =>
    cases Option.some.inj h
    split
    next hall => exact .passWaiting hp hall
    next => exact .spin
  case addReleased => cases Option.some.inj h; exact .addReleased hp
  case testReleased =>
    cases Option.some.inj h
    split
    next hall => exact .seesLast hp hall
    next hall => exact .seesOthers hp hall
  case resetWaiting =>
    cases Option.some.inj h
    split
    next hswap => exact .resetsWaiting hp hswap.1 hswap.2
    next hswap => exact .keepsWaiting hp fun hall => by simpa [hall] using hswap
  case resetReleased =>
    cases Option.some.inj h
    split
    next hswap => exact .resetsReleased hp hswap.1 hswap.2
    next hswap => exact .keepsReleased hp fun hall => by simpa [hall] using hswap

end Fence

end Ucsb
