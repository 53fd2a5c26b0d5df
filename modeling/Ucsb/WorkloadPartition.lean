import Ucsb.IntervalTiling
import Ucsb.WorkloadSplit

namespace Ucsb

open BalancedShare

/-- The keys of a workload's own records, before any of them wraps around. -/
def Workload.keyInterval (w : Workload) : NatInterval := ⟨w.startKey.toNat, w.recordsCount.toNat⟩

/-- What the splitter makes of a workload: slices that differ from it in their own counts and
first keys only, that share out the records and the operations evenly, and, unless it only
inserts, whose keys follow each other from its first key to its last. -/
structure Partitions (w : Workload) (threadsCount : UInt64) (slices : List Workload) : Prop where
  length : slices.length = threadsCount.toNat
  records_sum : (slices.map fun slice => slice.recordsCount.toNat).sum = w.dbRecordsCount.toNat
  records_near : ∀ a ∈ slices, ∀ b ∈ slices, a.recordsCount.toNat ≤ b.recordsCount.toNat + 1
  records_order : slices.Pairwise fun a b => b.recordsCount ≤ a.recordsCount
  operations_pos : ∀ slice ∈ slices, 1 ≤ slice.operationsCount
  operations_near : ∀ a ∈ slices, ∀ b ∈ slices,
    a.operationsCount.toNat ≤ b.operationsCount.toNat + 1
  operations_sum : (slices.map fun slice => slice.operationsCount.toNat).sum =
    max w.dbOperationsCount.toNat threadsCount.toNat
  others : ∀ slice ∈ slices, slice.IsSliceOf w
  ordered : ¬w.InsertOnly → w.startKey.toNat + w.dbRecordsCount.toNat < 2 ^ 64 →
    slices.Pairwise fun a b =>
      a.keyInterval.first + a.keyInterval.length ≤ b.keyInterval.first
  covered : ¬w.InsertOnly → w.startKey.toNat + w.dbRecordsCount.toNat < 2 ^ 64 →
    ∀ key, (∃ slice ∈ slices, slice.keyInterval.Contains key) ↔
      w.startKey.toNat ≤ key ∧ key < w.startKey.toNat + w.dbRecordsCount.toNat

variable {w : Workload} {threadsCount : UInt64}

/-- Strides of the slices' own records make the keys of the slices follow each other. -/
theorem StartKeysChain.tiles {startKey : UInt64} {slices : List Workload}
    (h : StartKeysChain w startKey slices) (hw : ¬w.InsertOnly)
    (hfit : startKey.toNat + (slices.map fun slice => slice.recordsCount.toNat).sum < 2 ^ 64) :
    NatInterval.Tiles (startKey.toNat + (slices.map fun slice => slice.recordsCount.toNat).sum)
      startKey.toNat (slices.map Workload.keyInterval) := by
  induction h with
  | nil startKey => exact .nil
  | @cons startKey slice rest hstart _ ih =>
    rw [List.map_cons, List.sum_cons] at hfit
    have hstride : startKeyStride w slice = slice.recordsCount := if_neg hw
    have hnext : (startKey + startKeyStride w slice).toNat =
        startKey.toNat + slice.recordsCount.toNat := by
      rw [hstride, UInt64.toNat_add]
      omega
    rw [hnext] at ih
    have hrest := ih (by omega)
    rw [List.map_cons, List.sum_cons, List.map_cons, ← Nat.add_assoc]
    subst hstart
    exact @NatInterval.Tiles.cons _ slice.keyInterval _ hrest

theorem split_records_total (hT : 0 < threadsCount) :
    ((splitWorkloadIntoThreads w threadsCount).map fun slice => slice.recordsCount.toNat).sum =
      w.dbRecordsCount.toNat := by
  have hsum := split_records_sum (w := w) hT threadsCount.toNat le_rfl
  rw [← split_length w threadsCount, List.take_length, split_length] at hsum
  rw [hsum, dealt_all (UInt64.lt_iff_toNat_lt.mp hT)]

/-- Two parts of a total differ by one at most. -/
theorem share_le_succ (total parts i j : ℕ) : share total parts i ≤ share total parts j + 1 := by
  unfold share
  split <;> split <;> omega

theorem split_tiles (hT : 0 < threadsCount) (hw : ¬w.InsertOnly)
    (hfit : w.startKey.toNat + w.dbRecordsCount.toNat < 2 ^ 64) :
    NatInterval.Tiles (w.startKey.toNat + w.dbRecordsCount.toNat) w.startKey.toNat
      ((splitWorkloadIntoThreads w threadsCount).map Workload.keyInterval) := by
  have htotal := split_records_total (w := w) hT
  rw [← htotal] at hfit ⊢
  exact (split_chain w threadsCount).tiles hw hfit

theorem split_records_order (hT : 0 < threadsCount) :
    (splitWorkloadIntoThreads w threadsCount).Pairwise
      fun a b => b.recordsCount ≤ a.recordsCount := by
  rw [List.pairwise_iff_getElem]
  intro i j hi hj hij
  rw [UInt64.le_iff_toNat_le, split_recordsCount hT (List.getElem?_eq_getElem hi),
    split_recordsCount hT (List.getElem?_eq_getElem hj)]
  exact share_antitone _ _ hij.le

/-- Every workload is partitioned for every number of threads. -/
theorem split_partitions (w : Workload) (hT : 0 < threadsCount) :
    Partitions w threadsCount (splitWorkloadIntoThreads w threadsCount) where
  length := split_length w threadsCount
  records_sum := split_records_total hT
  records_near := by
    intro a ha b hb
    obtain ⟨i, -, hi⟩ := mem_split.mp ha
    obtain ⟨j, -, hj⟩ := mem_split.mp hb
    rw [split_recordsCount hT hi, split_recordsCount hT hj]
    exact share_le_succ _ _ i j
  records_order := split_records_order hT
  operations_pos := by
    intro slice hslice
    obtain ⟨i, -, hi⟩ := mem_split.mp hslice
    rw [UInt64.le_iff_toNat_le, split_operationsCount hT hi]
    exact Nat.le_max_left _ _
  operations_near := by
    intro a ha b hb
    obtain ⟨i, -, hi⟩ := mem_split.mp ha
    obtain ⟨j, -, hj⟩ := mem_split.mp hb
    have hle := share_le_succ w.dbOperationsCount.toNat threadsCount.toNat i j
    rw [split_operationsCount hT hi, split_operationsCount hT hj]
    omega
  operations_sum := split_operations_sum hT
  others := fun slice hslice => isSliceOf_of_mem_split hslice
  ordered := fun hw hfit => List.pairwise_map.mp (split_tiles hT hw hfit).pairwise
  covered := by
    intro hw hfit key
    rw [← (split_tiles hT hw hfit).contains_iff]
    simp only [List.mem_map, exists_exists_and_eq_and]

/-- Ten records and two operations for four threads. -/
theorem split_partitions_four :
    Partitions { startKey := 5, dbRecordsCount := 10, dbOperationsCount := 2 } 4
      (splitWorkloadIntoThreads
        { startKey := 5, dbRecordsCount := 10, dbOperationsCount := 2 } 4) :=
  split_partitions _ (by decide)

end Ucsb
