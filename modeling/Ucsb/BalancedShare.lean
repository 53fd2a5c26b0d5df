import Mathlib.Data.Nat.Basic
import Mathlib.Algebra.BigOperators.Group.List.Basic
import Mathlib.Algebra.Order.BigOperators.Group.List
import Mathlib.Algebra.Order.Ring.Nat

namespace BalancedShare

/-- Part `i` when `total` is dealt out over `parts`, the remainder going one
each to the first parts. -/
def share (total parts i : ℕ) : ℕ :=
  total / parts + if i < total % parts then 1 else 0

/-- What the first `i` parts have received. -/
def dealt (total parts i : ℕ) : ℕ :=
  i * (total / parts) + min i (total % parts)

@[simp] theorem dealt_zero (total parts : ℕ) : dealt total parts 0 = 0 := by
  simp [dealt]

theorem dealt_succ (total parts i : ℕ) :
    dealt total parts (i + 1) = dealt total parts i + share total parts i := by
  unfold dealt share
  rw [Nat.add_mul, Nat.one_mul]
  split <;> omega

theorem dealt_all {parts : ℕ} (h : 0 < parts) (total : ℕ) : dealt total parts parts = total := by
  have hr := Nat.mod_lt total h
  have hd := Nat.div_add_mod total parts
  unfold dealt
  omega

theorem dealt_mono (total parts : ℕ) {i j : ℕ} (h : i ≤ j) :
    dealt total parts i ≤ dealt total parts j := by
  have hm := Nat.mul_le_mul_right (total / parts) h
  unfold dealt
  omega

theorem dealt_le (total : ℕ) {parts i : ℕ} (h : i ≤ parts) : dealt total parts i ≤ total := by
  rcases Nat.eq_zero_or_pos parts with rfl | hp
  · simp [dealt, Nat.le_zero.mp h]
  · exact Nat.le_trans (dealt_mono total parts h) (Nat.le_of_eq (dealt_all hp total))

theorem sum_share (total parts n : ℕ) :
    ((List.range n).map (share total parts)).sum = dealt total parts n := by
  induction n with
  | zero => simp
  | succ n ih => simp [List.range_succ, ih, dealt_succ]

theorem share_le (total parts i : ℕ) : share total parts i ≤ total := by
  rcases Nat.eq_zero_or_pos parts with rfl | hp
  · simp only [share, Nat.div_zero, Nat.mod_zero]
    split <;> omega
  · have hd := Nat.div_add_mod total parts
    have hm := Nat.le_mul_of_pos_left (total / parts) hp
    unfold share
    split <;> omega

theorem share_last {parts : ℕ} (h : 0 < parts) (total : ℕ) :
    share total parts (parts - 1) = total / parts := by
  have hr := Nat.mod_lt total h
  simp [share, show ¬parts - 1 < total % parts by omega]

theorem share_antitone (total parts : ℕ) {i j : ℕ} (h : i ≤ j) :
    share total parts j ≤ share total parts i := by
  unfold share
  split <;> split <;> omega

/-- A part of at least one each comes to the total, or to one for each part. -/
theorem sum_max_one_share {parts : ℕ} (h : 0 < parts) (total : ℕ) :
    ((List.range parts).map fun i => max 1 (share total parts i)).sum = max total parts := by
  rcases Nat.lt_or_ge total parts with hlt | hge
  · have hone : ∀ i, max 1 (share total parts i) = 1 := by
      intro i
      unfold share
      rw [Nat.div_eq_of_lt hlt]
      split <;> omega
    simp only [hone, List.map_const', List.length_range, List.sum_replicate_nat, Nat.mul_one]
    omega
  · have hpos := Nat.div_pos hge h
    have hshare : ∀ i, max 1 (share total parts i) = share total parts i := by
      intro i
      unfold share
      omega
    simp only [hshare, sum_share, dealt_all h]
    omega

/-- As many numbers as there are items, none of them above a limit. -/
theorem sum_map_le {α : Type} {items : List α} {size : α → ℕ} {limit count : ℕ}
    (hlimit : ∀ item ∈ items, size item ≤ limit) (hcount : items.length ≤ count) :
    (items.map size).sum ≤ count * limit := by
  have hsum := List.sum_le_card_nsmul (items.map size) limit (List.forall_mem_map.mpr hlimit)
  rw [List.length_map, nsmul_eq_mul, Nat.cast_id] at hsum
  exact hsum.trans (Nat.mul_le_mul_right _ hcount)

end BalancedShare
