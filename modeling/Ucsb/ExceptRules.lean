import Mathlib.Data.List.Forall2

namespace ExceptRules

variable {ε α β : Type}

theorem ok_bind {a : α} {f : α → Except ε β} : Except.ok a >>= f = f a := rfl

theorem bind_eq_ok {x : Except ε α} {f : α → Except ε β} {b : β} :
    x >>= f = .ok b ↔ ∃ a, x = .ok a ∧ f a = .ok b := by
  cases x <;> simp [bind, Except.bind]

/-- A traversal succeeds exactly when every element does, in order. -/
theorem mapM_eq_ok {f : α → Except ε β} {xs : List α} {ys : List β} :
    xs.mapM f = .ok ys ↔ List.Forall₂ (fun x y => f x = .ok y) xs ys := by
  induction xs generalizing ys with
  | nil =>
    rw [List.mapM_nil, List.forall₂_nil_left_iff]
    exact ⟨fun h => (Except.ok.inj h).symm, fun h => h ▸ rfl⟩
  | cons x xs ih =>
    simp only [List.mapM_cons, bind_eq_ok, List.forall₂_cons_left_iff]
    constructor
    · rintro ⟨y, hy, rest, hrest, h⟩
      cases Except.ok.inj h
      exact ⟨y, rest, hy, ih.mp hrest, rfl⟩
    · rintro ⟨y, rest, hy, hrest, rfl⟩
      exact ⟨y, hy, rest, ih.mpr hrest, rfl⟩

/-- The computation does not end in the error `bad`, and what it returns meets `post`. -/
def Ensures (bad : ε) (post : α → Prop) : Except ε α → Prop
  | .ok a => post a
  | .error e => e ≠ bad

namespace Ensures

variable {bad : ε} {post : α → Prop} {post' : β → Prop} {x : Except ε α}

theorem bind {f : α → Except ε β} (hx : Ensures bad post x)
    (hf : ∀ a, post a → Ensures bad post' (f a)) : Ensures bad post' (x >>= f) := by
  cases x with
  | error e => exact hx
  | ok a => exact hf a hx

theorem mono {post' : α → Prop} (hx : Ensures bad post x) (h : ∀ a, post a → post' a) :
    Ensures bad post' x := by
  cases x with
  | error e => exact hx
  | ok a => exact h a hx

theorem ne (hx : Ensures bad post x) : x ≠ .error bad := by
  rintro rfl
  exact hx rfl

theorem apply {a : α} (hx : Ensures bad post x) (h : x = .ok a) : post a := by
  subst h
  exact hx

end Ensures

end ExceptRules
