import Mathlib.Data.Nat.ModEq
import Mathlib.Order.Bounds.Basic
import Mathlib.Logic.Function.Basic

namespace CircularMarks

/-- The last number up to which all numbers from `start` on are in the set. -/
def IsPrefixEnd (start : ℕ) (taken : Set ℕ) (last : ℕ) : Prop :=
  IsGreatest {n | start ≤ n + 1 ∧ ∀ x, start ≤ x → x ≤ n → x ∈ taken} last

theorem isPrefixEnd_of_next {start last : ℕ} {taken : Set ℕ} (hstart : start ≤ last + 1)
    (hbelow : ∀ x, start ≤ x → x ≤ last → x ∈ taken) (hnext : last + 1 ∉ taken) :
    IsPrefixEnd start taken last := by
  refine ⟨⟨hstart, hbelow⟩, ?_⟩
  rintro n ⟨-, hall⟩
  by_contra hlt
  exact hnext (hall (last + 1) hstart (by omega))

variable {size first x : ℕ} {marks : Fin size → Bool} {slot : Fin size} {pending : ℕ → Prop}

/-- The marked slots are those of the pending numbers. -/
def Marks (marks : Fin size → Bool) (pending : ℕ → Prop) : Prop :=
  ∀ slot, marks slot = true ↔ ∃ x, pending x ∧ x % size = slot

/-- The pending numbers lie within a stretch of so many numbers. -/
def Within (pending : ℕ → Prop) (first length : ℕ) : Prop :=
  ∀ x, pending x → first ≤ x ∧ x < first + length

/-- Numbers of one round of the circle have slots of their own. -/
theorem eq_of_mod_eq {y : ℕ} (hx : first ≤ x ∧ x < first + size)
    (hy : first ≤ y ∧ y < first + size) (h : x % size = y % size) : x = y := by
  rcases Nat.le_total x y with hle | hle
  · have hzero := Nat.sub_mod_eq_zero_of_mod_eq h.symm
    have hdiff := Nat.eq_zero_of_dvd_of_lt (Nat.dvd_of_mod_eq_zero hzero) (by omega)
    omega
  · have hzero := Nat.sub_mod_eq_zero_of_mod_eq h
    have hdiff := Nat.eq_zero_of_dvd_of_lt (Nat.dvd_of_mod_eq_zero hzero) (by omega)
    omega

theorem Marks.marked_iff (h : Marks marks pending) (hwithin : Within pending first size)
    (hx : first ≤ x ∧ x < first + size) (hslot : x % size = slot) :
    marks slot = true ↔ pending x := by
  rw [h slot]
  constructor
  · rintro ⟨y, hy, heq⟩
    rwa [eq_of_mod_eq hx (hwithin y hy) (hslot.trans heq.symm)]
  · exact fun hpending => ⟨x, hpending, hslot⟩

theorem Marks.mark (h : Marks marks pending) (hslot : x % size = slot) :
    Marks (Function.update marks slot true) fun y => pending y ∨ y = x := by
  intro other
  by_cases hother : other = slot
  · subst hother
    rw [Function.update_self]
    exact iff_of_true rfl ⟨x, Or.inr rfl, hslot⟩
  · rw [Function.update_of_ne hother, h other]
    constructor
    · rintro ⟨y, hy, heq⟩
      exact ⟨y, Or.inl hy, heq⟩
    · rintro ⟨y, hy | rfl, heq⟩
      · exact ⟨y, hy, heq⟩
      · exact absurd (Fin.ext (heq.symm.trans hslot)) hother

theorem Marks.clear (h : Marks marks pending) (hwithin : Within pending first size)
    (hx : first ≤ x ∧ x < first + size) (hslot : x % size = slot) :
    Marks (Function.update marks slot false) fun y => pending y ∧ y ≠ x := by
  intro other
  by_cases hother : other = slot
  · subst hother
    rw [Function.update_self]
    refine iff_of_false Bool.false_ne_true ?_
    rintro ⟨y, ⟨hy, hne⟩, heq⟩
    exact hne (eq_of_mod_eq (hwithin y hy) hx (heq.trans hslot.symm))
  · rw [Function.update_of_ne hother, h other]
    constructor
    · rintro ⟨y, hy, heq⟩
      refine ⟨y, ⟨hy, ?_⟩, heq⟩
      rintro rfl
      exact hother (Fin.ext (heq.symm.trans hslot))
    · rintro ⟨y, ⟨hy, -⟩, heq⟩
      exact ⟨y, hy, heq⟩

theorem Marks.congr {pending' : ℕ → Prop} (h : Marks marks pending)
    (heq : ∀ x, pending x ↔ pending' x) : Marks marks pending' := by
  intro slot
  rw [h slot]
  simp only [heq]

end CircularMarks
