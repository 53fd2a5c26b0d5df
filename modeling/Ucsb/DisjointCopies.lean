import Mathlib.Algebra.GroupWithZero.Nat
import Ucsb.Operation

namespace Ucsb

namespace Copy

/-- No byte is in both ranges. -/
def Disjoint (c d : Copy) : Prop :=
  c.data = [] ∨ d.data = [] ∨ c.offset + c.data.length ≤ d.offset ∨
    d.offset + d.data.length ≤ c.offset

theorem Disjoint.symm {c d : Copy} (h : c.Disjoint d) : d.Disjoint c := by
  rcases h with hc | hd | hbefore | hbehind
  · exact Or.inr (Or.inl hc)
  · exact Or.inl hd
  · exact Or.inr (Or.inr (Or.inr hbefore))
  · exact Or.inr (Or.inr (Or.inl hbehind))

/-- Every byte of the range is one of the span. -/
def Inside (size : ℕ) (c : Copy) : Prop := c.data = [] ∨ c.offset + c.data.length ≤ size

/-- The bytes of the range after something was written. -/
def slice (span : Bytes) (c : Copy) : Bytes := (span.drop c.offset).take c.data.length

variable {span : Bytes} {c d : Copy}

theorem write_of_nil (h : c.data = []) : write span c = span := by
  simp [write, h]

theorem write_length (h : c.Inside span.length) : (write span c).length = span.length := by
  rcases h with hnil | hfits
  · rw [write_of_nil hnil]
  · simp only [write, List.length_append, List.length_take, List.length_drop]
    omega

theorem slice_write_self (h : c.Inside span.length) : slice (write span c) c = c.data := by
  rcases h with hnil | hfits
  · simp [slice, hnil]
  · have hlength : (span.take c.offset).length = c.offset := by
      rw [List.length_take]
      omega
    rw [slice, write, List.append_assoc, List.drop_left' hlength, List.take_left]

/-- A copy leaves the bytes of a range that is disjoint from it. -/
theorem slice_write (hd : d.Inside span.length) (h : c.Disjoint d) :
    slice (write span d) c = slice span c := by
  rcases h with hc | hd' | hbefore | hbehind
  · simp [slice, hc]
  · rw [write_of_nil hd']
  · rcases hd with hnil | hfits
    · rw [write_of_nil hnil]
    · have htake : (write span d).take d.offset = span.take d.offset := by
        rw [write, List.append_assoc]
        apply List.take_left'
        rw [List.length_take]
        omega
      have hslice : ∀ bytes : Bytes, slice bytes c = slice (bytes.take d.offset) c := by
        intro bytes
        rw [slice, slice, List.drop_take, List.take_take]
        congr 1
        omega
      rw [hslice, htake, ← hslice]
  · rcases hd with hnil | hfits
    · rw [write_of_nil hnil]
    · have hdrop : (write span d).drop (d.offset + d.data.length) =
          span.drop (d.offset + d.data.length) := by
        rw [write]
        apply List.drop_left'
        rw [List.length_append, List.length_take]
        omega
      have hslice : ∀ bytes : Bytes, bytes.drop c.offset =
          (bytes.drop (d.offset + d.data.length)).drop (c.offset - (d.offset + d.data.length)) := by
        intro bytes
        rw [List.drop_drop]
        congr 1
        omega
      rw [slice, slice, hslice, hdrop, ← hslice]

theorem slice_foldl_write {copies : List Copy} (h : ∀ d ∈ copies, d.Inside span.length)
    (hdisjoint : ∀ d ∈ copies, c.Disjoint d) :
    slice (copies.foldl write span) c = slice span c := by
  induction copies generalizing span with
  | nil => rfl
  | cons d copies ih =>
    rw [List.forall_mem_cons] at h hdisjoint
    have hlength := write_length h.1
    rw [List.foldl_cons, ih (by rw [hlength]; exact h.2) hdisjoint.2, slice_write h.1 hdisjoint.1]

/-- Copies to disjoint ranges are all there in the end. -/
theorem slice_written {copies : List Copy} (h : ∀ d ∈ copies, d.Inside span.length)
    (hdisjoint : copies.Pairwise Disjoint) (hc : c ∈ copies) :
    slice (copies.foldl write span) c = c.data := by
  induction copies generalizing span with
  | nil => simp at hc
  | cons d copies ih =>
    rw [List.forall_mem_cons] at h
    rw [List.pairwise_cons] at hdisjoint
    have hlength := write_length h.1
    have hrest : ∀ e ∈ copies, e.Inside (write span d).length := by
      rw [hlength]
      exact h.2
    rcases List.mem_cons.mp hc with rfl | hmem
    · rw [List.foldl_cons, slice_foldl_write hrest hdisjoint.1, slice_write_self h.1]
    · exact ih hrest hdisjoint.2 hmem

/-- Copies in a row are inside if there is room for all of their bytes. -/
theorem consecutiveCopies_inside_iff {offset size : ℕ} {values : List Bytes} :
    (∀ copy ∈ consecutiveCopies offset values, copy.Inside size) ↔
      (values.map List.length).sum = 0 ∨ offset + (values.map List.length).sum ≤ size := by
  induction values generalizing offset with
  | nil => simp [consecutiveCopies]
  | cons value values ih =>
    rw [consecutiveCopies, List.forall_mem_cons, ih, Inside, ← List.length_eq_zero_iff,
      List.map_cons, List.sum_cons]
    dsimp only
    omega

theorem inside_start_iff {size : ℕ} {data : Bytes} :
    Inside size { offset := 0, data := data } ↔ data.length ≤ size := by
  rw [Inside, ← List.length_eq_zero_iff]
  dsimp only
  omega

end Copy

end Ucsb
