import Mathlib.Algebra.BigOperators.Group.Finset.Basic
import Mathlib.Algebra.Order.BigOperators.Group.Finset
import Mathlib.Data.Fintype.BigOperators
import Mathlib.Tactic.Abel

namespace Tally

open Function

variable {ι α : Type} [Fintype ι] [DecidableEq ι]

/-- A sum over all members, when one of them changes. -/
theorem sum_update_add {M : Type} [AddCommMonoid M] (F : ι → α → M) (f : ι → α) (i : ι) (x : α) :
    ∑ j, F j (update f i x j) + F i (f i) = ∑ j, F j (f j) + F i x := by
  have hrest : ∑ j ∈ Finset.univ.erase i, F j (update f i x j) =
      ∑ j ∈ Finset.univ.erase i, F j (f j) := by
    apply Finset.sum_congr rfl
    intro j hj
    rw [update_of_ne (Finset.ne_of_mem_erase hj)]
  rw [← Finset.add_sum_erase _ _ (Finset.mem_univ i), hrest, update_self,
    ← Finset.add_sum_erase _ (fun j => F j (f j)) (Finset.mem_univ i)]
  abel

section

variable (P : α → Prop) [DecidablePred P]

/-- How many members have the property. -/
def tally (f : ι → α) : ℕ := ∑ j, if P (f j) then 1 else 0

variable {P} {f : ι → α} {i : ι} {x : α}

theorem tally_update_add : tally P (update f i x) + (if P (f i) then 1 else 0) =
    tally P f + if P x then 1 else 0 :=
  sum_update_add (fun _ a => if P a then 1 else 0) f i x

omit [DecidableEq ι] in
theorem tally_le_card : tally P f ≤ Fintype.card ι := by
  rw [tally, ← Finset.card_filter]
  exact Finset.card_filter_le _ _

omit [DecidableEq ι] in
theorem tally_eq_card_iff : tally P f = Fintype.card ι ↔ ∀ j, P (f j) := by
  rw [tally, ← Finset.card_filter, ← Finset.card_univ, Finset.card_filter_eq_iff]
  simp

omit [DecidableEq ι] in
theorem tally_eq_zero (h : ∀ j, ¬P (f j)) : tally P f = 0 :=
  Finset.sum_eq_zero fun j _ => if_neg (h j)

omit [DecidableEq ι] in
theorem tally_pos (h : P (f i)) : 0 < tally P f := by
  rw [tally, ← Finset.card_filter, Finset.card_pos]
  exact ⟨i, by simpa using h⟩

omit [DecidableEq ι] in
theorem tally_lt_card (h : ¬P (f i)) : tally P f < Fintype.card ι :=
  lt_of_le_of_ne tally_le_card fun heq => h (tally_eq_card_iff.mp heq i)

omit [DecidableEq ι] in
theorem exists_not_of_tally_lt (h : tally P f < Fintype.card ι) : ∃ j, ¬P (f j) := by
  by_contra hall
  rw [not_exists_not] at hall
  exact Nat.ne_of_lt h (tally_eq_card_iff.mpr hall)

variable {β : Type} {Q : β → Prop} [DecidablePred Q] {g : ι → β}

omit [DecidableEq ι] in
theorem tally_le_tally (h : ∀ j, P (f j) → Q (g j)) : tally P f ≤ tally Q g := by
  refine Finset.sum_le_sum fun j _ => ?_
  by_cases hj : P (f j)
  · rw [if_pos hj, if_pos (h j hj)]
  · rw [if_neg hj]
    exact Nat.zero_le _

omit [DecidableEq ι] in
theorem tally_lt_tally (h : ∀ j, P (f j) → Q (g j)) (hnot : ¬P (f i)) (hnow : Q (g i)) :
    tally P f < tally Q g := by
  refine Finset.sum_lt_sum (fun j _ => ?_) ⟨i, Finset.mem_univ i, ?_⟩
  · by_cases hj : P (f j)
    · rw [if_pos hj, if_pos (h j hj)]
    · rw [if_neg hj]
      exact Nat.zero_le _
  · rw [if_neg hnot, if_pos hnow]
    exact Nat.zero_lt_one

end

end Tally
