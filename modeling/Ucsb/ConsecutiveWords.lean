import Mathlib.Data.List.Range
import Mathlib.Data.List.Nodup
import Mathlib.Data.List.Infix
import Mathlib.Tactic.NormNum

namespace ConsecutiveWords

/-- The `n` consecutive 64-bit words from `start` on. -/
def words (start : UInt64) (n : ℕ) : List UInt64 :=
  (List.range n).map fun j => start + UInt64.ofNat j

@[simp] theorem words_zero (start : UInt64) : words start 0 = [] := rfl

@[simp] theorem words_length (start : UInt64) (n : ℕ) : (words start n).length = n := by
  simp [words]

theorem words_add (start : UInt64) (m n : ℕ) :
    words start (m + n) = words start m ++ words (start + UInt64.ofNat m) n := by
  simp only [words, List.range_add, List.map_append, List.map_map]
  congr 1
  apply List.map_congr_left
  intro j _
  simp only [Function.comp_apply, UInt64.ofNat_add, UInt64.add_assoc]

@[simp] theorem words_one (start : UInt64) : words start 1 = [start] := by
  simp [words]

theorem words_succ (start : UInt64) (n : ℕ) :
    words start (n + 1) = start :: words (start + 1) n := by
  rw [Nat.add_comm, words_add, words_one]
  rfl

theorem words_sublist (start : UInt64) {m n : ℕ} (h : m ≤ n) :
    List.Sublist (words start m) (words start n) := by
  obtain ⟨k, rfl⟩ := Nat.exists_eq_add_of_le h
  rw [words_add]
  exact List.sublist_append_left _ _

theorem ofNat_injective_below {i j : ℕ} (hi : i < 2 ^ 64) (hj : j < 2 ^ 64)
    (h : UInt64.ofNat i = UInt64.ofNat j) : i = j := by
  have hw := congrArg UInt64.toNat h
  simpa only [UInt64.toNat_ofNat', Nat.mod_eq_of_lt hi, Nat.mod_eq_of_lt hj] using hw

theorem words_nodup (start : UInt64) {n : ℕ} (h : n ≤ 2 ^ 64) : (words start n).Nodup := by
  apply List.Nodup.map_on _ List.nodup_range
  intro i hi j hj heq
  have hi' := List.mem_range.mp hi
  have hj' := List.mem_range.mp hj
  exact ofNat_injective_below (by omega) (by omega) ((UInt64.add_right_inj start).mp heq)

theorem start_mem_words {start : UInt64} {n : ℕ} (h : 0 < n) : start ∈ words start n := by
  obtain ⟨k, rfl⟩ := Nat.exists_eq_succ_of_ne_zero (Nat.pos_iff_ne_zero.mp h)
  simp [words_succ]

/-- One word more than there are brings the first one back. -/
theorem words_nodup_iff (start : UInt64) (n : ℕ) : (words start n).Nodup ↔ n ≤ 2 ^ 64 := by
  refine ⟨fun h => ?_, words_nodup start⟩
  by_contra hn
  have hsub : List.Sublist (words start (2 ^ 64 + 1)) (words start n) :=
    words_sublist start (by omega)
  have hword : UInt64.ofNat (2 ^ 64) = 0 := rfl
  have hwrap := h.sublist hsub
  rw [words_add, hword, UInt64.add_zero, words_one] at hwrap
  have hdisjoint := List.disjoint_of_nodup_append hwrap
  exact hdisjoint (start_mem_words (by norm_num)) (by simp)

theorem mem_words {start key : UInt64} {n : ℕ} :
    key ∈ words start n ↔ ∃ j < n, start + UInt64.ofNat j = key := by
  simp [words]

/-- While the words do not wrap they are an interval of integers. -/
theorem mem_words_iff {start key : UInt64} {n : ℕ} (h : start.toNat + n ≤ 2 ^ 64) :
    key ∈ words start n ↔ start.toNat ≤ key.toNat ∧ key.toNat < start.toNat + n := by
  rw [mem_words]
  constructor
  · rintro ⟨j, hj, rfl⟩
    have hv : (start + UInt64.ofNat j).toNat = start.toNat + j := by
      rw [UInt64.toNat_add, UInt64.toNat_ofNat', Nat.add_mod_mod, Nat.mod_eq_of_lt (by omega)]
    omega
  · rintro ⟨hlo, hhi⟩
    refine ⟨key.toNat - start.toNat, by omega, UInt64.toNat.inj ?_⟩
    rw [UInt64.toNat_add, UInt64.toNat_ofNat', Nat.add_mod_mod, Nat.mod_eq_of_lt] <;> omega

/-- While the words do not wrap each one lies above those before it. -/
theorem words_pairwise {start : UInt64} {n : ℕ} (h : start.toNat + n ≤ 2 ^ 64) :
    (words start n).Pairwise (· < ·) := by
  rw [words, List.pairwise_map]
  apply List.pairwise_lt_range.imp_of_mem
  intro i j hi hj hij
  have hj' := List.mem_range.mp hj
  rw [UInt64.lt_iff_toNat_lt, UInt64.toNat_add, UInt64.toNat_add, UInt64.toNat_ofNat',
    UInt64.toNat_ofNat']
  omega

theorem mem_words_from_zero {key : UInt64} {n : ℕ} (h : key.toNat < n) : key ∈ words 0 n :=
  mem_words.mpr ⟨key.toNat, h, by simp⟩

end ConsecutiveWords
