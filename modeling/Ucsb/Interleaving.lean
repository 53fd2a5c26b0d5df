import Mathlib.Data.List.Flatten
import Mathlib.Data.List.Range

/-! Lists whose elements belong to threads, and the lists of the threads. -/

namespace Interleaving

variable {α β : Type} {thread : α → ℕ} {l : List α} {n : ℕ}

/-- What a thread contributes to a list, in its order. -/
def part (thread : α → ℕ) (l : List α) (i : ℕ) : List α := l.filter fun a => thread a = i

theorem perm_parts_below (thread : α → ℕ) (l : List α) (n : ℕ) :
    (l.filter fun a => thread a < n).Perm ((List.range n).flatMap (part thread l)) := by
  induction n with
  | zero => simp
  | succ n ih =>
    have hsplit := List.filter_append_perm (fun a => decide (thread a < n))
      (l.filter fun a => thread a < n + 1)
    have hlow : (l.filter fun a => thread a < n + 1).filter (fun a => decide (thread a < n)) =
        l.filter fun a => thread a < n := by
      rw [List.filter_filter]
      apply List.filter_congr
      intro a _
      rw [← Bool.decide_and, decide_eq_decide]
      omega
    have hhigh : (l.filter fun a => thread a < n + 1).filter
        (fun a => !decide (thread a < n)) = part thread l n := by
      rw [List.filter_filter]
      apply List.filter_congr
      intro a _
      rw [← decide_not, ← Bool.decide_and, decide_eq_decide]
      omega
    rw [hlow, hhigh] at hsplit
    rw [List.range_succ, List.flatMap_append, List.flatMap_singleton]
    exact hsplit.symm.trans (ih.append_right _)

/-- A list is a rearrangement of the parts of its threads, one after another. -/
theorem perm_parts (h : ∀ a ∈ l, thread a < n) :
    l.Perm ((List.range n).flatMap (part thread l)) := by
  have hall : l.filter (fun a => thread a < n) = l :=
    List.filter_eq_self.mpr fun a ha => decide_eq_true (h a ha)
  have hperm := perm_parts_below thread l n
  rwa [hall] at hperm

/-- Threads with given lists: what they do together is a rearrangement of the lists. -/
theorem perm_flatten {f : α → β} {parts : List (List β)} (h : ∀ a ∈ l, thread a < parts.length)
    (hparts : ∀ (i : ℕ) (hi : i < parts.length), (part thread l i).map f = parts[i]) :
    (l.map f).Perm parts.flatten := by
  have hperm := (perm_parts h).map f
  rw [List.map_flatMap] at hperm
  have hflat : (List.range parts.length).flatMap (fun i => (part thread l i).map f) =
      parts.flatten := by
    rw [List.flatMap_def]
    congr 1
    apply List.ext_getElem
    · simp
    · intro i hi hi'
      rw [List.getElem_map, List.getElem_range, hparts i hi']
  rwa [hflat] at hperm

end Interleaving
