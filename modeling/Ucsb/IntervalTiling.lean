import Mathlib.Data.List.Pairwise

/-- A half-open interval of numbers, by its first number and its length. -/
structure NatInterval where
  first : ℕ
  length : ℕ

namespace NatInterval

variable {first last x : ℕ} {parts : List NatInterval}

def Contains (x : ℕ) (part : NatInterval) : Prop := part.first ≤ x ∧ x < part.first + part.length

/-- Each interval starts where the one before it ends. -/
inductive Tiles (last : ℕ) : ℕ → List NatInterval → Prop
  | nil : Tiles last last []
  | cons {part : NatInterval} {rest : List NatInterval} :
      Tiles last (part.first + part.length) rest → Tiles last part.first (part :: rest)

theorem Tiles.first_le (h : Tiles last first parts) : first ≤ last := by
  induction h with
  | nil => exact Nat.le_refl last
  | cons _ ih => omega

theorem Tiles.le_first (h : Tiles last first parts) : ∀ part ∈ parts, first ≤ part.first := by
  induction h with
  | nil => simp
  | @cons part rest hrest ih =>
    rw [List.forall_mem_cons]
    refine ⟨Nat.le_refl _, fun other hother => ?_⟩
    have hle := ih other hother
    omega

/-- No interval reaches into a later one. -/
theorem Tiles.pairwise (h : Tiles last first parts) :
    parts.Pairwise fun a b => a.first + a.length ≤ b.first := by
  induction h with
  | nil => exact List.Pairwise.nil
  | cons hrest ih => exact List.pairwise_cons.mpr ⟨hrest.le_first, ih⟩

/-- The intervals contain what lies between the first and the last number. -/
theorem Tiles.contains_iff (h : Tiles last first parts) :
    (∃ part ∈ parts, part.Contains x) ↔ first ≤ x ∧ x < last := by
  induction h with
  | nil =>
    simp only [List.not_mem_nil, false_and, exists_false, false_iff]
    omega
  | @cons part rest hrest ih =>
    have hle := hrest.first_le
    simp only [List.mem_cons, exists_eq_or_imp, ih]
    unfold Contains
    omega

end NatInterval
