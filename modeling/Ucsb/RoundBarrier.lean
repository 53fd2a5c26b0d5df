import Mathlib.Data.Nat.Basic
import Mathlib.Logic.Function.Basic
import Mathlib.Logic.Relation

/-- A barrier that parties pass again and again: how often each of them has
arrived at it, and how often each has left it. -/
structure RoundBarrier (ι : Type) where
  arrived : ι → ℕ
  left : ι → ℕ

namespace RoundBarrier

def start (ι : Type) : RoundBarrier ι := { arrived := fun _ => 0, left := fun _ => 0 }

structure InStep {ι : Type} (b : RoundBarrier ι) : Prop where
  left_le : ∀ i, b.left i ≤ b.arrived i
  arrived_le : ∀ i, b.arrived i ≤ b.left i + 1
  left_le_arrived : ∀ i j, b.left i ≤ b.arrived j

theorem inStep_start {ι : Type} : (start ι).InStep :=
  ⟨fun _ => le_rfl, fun _ => Nat.zero_le _, fun _ _ => le_rfl⟩

variable {ι : Type} [DecidableEq ι]

def arrive (b : RoundBarrier ι) (i : ι) : RoundBarrier ι :=
  { b with arrived := Function.update b.arrived i (b.arrived i + 1) }

def leave (b : RoundBarrier ι) (i : ι) : RoundBarrier ι :=
  { b with left := Function.update b.left i (b.left i + 1) }

/-- A party leaves only after all have arrived as often as it has. -/
inductive Step : RoundBarrier ι → RoundBarrier ι → Prop
  | arrive {b : RoundBarrier ι} (i : ι) : b.arrived i = b.left i → Step b (b.arrive i)
  | leave {b : RoundBarrier ι} (i : ι) : b.left i < b.arrived i →
      (∀ j, b.arrived i ≤ b.arrived j) → Step b (b.leave i)

theorem InStep.step {b b' : RoundBarrier ι} (h : b.InStep) (hstep : Step b b') : b'.InStep := by
  cases hstep with
  | arrive i heq =>
    have hgrow : ∀ j, b.arrived j ≤ (b.arrive i).arrived j := by
      intro j
      by_cases hj : j = i
      · simp [arrive, hj]
      · simp [arrive, hj]
    refine ⟨fun j => Nat.le_trans (h.left_le j) (hgrow j), fun j => ?_,
      fun j k => Nat.le_trans (h.left_le_arrived j k) (hgrow k)⟩
    by_cases hj : j = i
    · simp [arrive, hj, heq]
    · simpa [arrive, hj] using h.arrived_le j
  | leave i hlt hall =>
    have hleft : ∀ j, (b.leave i).left j = if j = i then b.left i + 1 else b.left j := by
      intro j
      by_cases hj : j = i
      · simp [leave, hj]
      · simp [leave, hj]
    have harrived : (b.leave i).arrived = b.arrived := rfl
    refine ⟨fun j => ?_, fun j => ?_, fun j k => ?_⟩
    · have hj := h.left_le j
      rw [hleft, harrived]
      split
      next heq => rw [heq]; exact hlt
      next => exact hj
    · have hj := h.arrived_le j
      rw [hleft, harrived]
      split
      next heq => rw [heq] at hj ⊢; omega
      next => exact hj
    · rw [hleft, harrived]
      split
      next => exact Nat.le_trans hlt (hall k)
      next => exact h.left_le_arrived j k

theorem inStep_of_reaches {b : RoundBarrier ι}
    (h : Relation.ReflTransGen Step (start ι) b) : b.InStep := by
  induction h with
  | refl => exact inStep_start
  | tail _ hlast ih => exact ih.step hlast

end RoundBarrier
