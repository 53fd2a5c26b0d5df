import Ucsb.Workload
import Ucsb.BalancedShare
import Mathlib.Algebra.Order.BigOperators.Group.List
import Mathlib.Algebra.BigOperators.Group.List.Basic

namespace Ucsb

open BinaryRounding BalancedShare

/-- `bool(count)` as a summand. -/
def boolCount (count : UInt64) : UInt64 := if count = 0 then 0 else 1

/-- `bool(proportion)` as a factor. -/
def boolProportion (proportion : ℚ) : UInt64 := if proportion = 0 then 0 else 1

def newRecordsCount (w slice : Workload) : UInt64 :=
  boolProportion w.upsertProportion * slice.operationsCount +
  boolProportion w.bulkLoadProportion * slice.operationsCount * w.bulkLoadMaxLength +
  boolProportion w.batchUpsertProportion * slice.operationsCount * w.batchUpsertMaxLength

/-- How far the splitter moves `start_key` on after a slice. -/
def startKeyStride (w slice : Workload) : UInt64 :=
  if w.InsertOnly then newRecordsCount w slice else slice.recordsCount

/-- The loop of `split_workload_into_threads`, by the number of rounds left. -/
def splitLoop (w : Workload) (recordsPerThread operationsPerThread : UInt64) :
    ℕ → UInt64 → UInt64 → UInt64 → List Workload
  | 0, _, _, _ => []
  | n + 1, leftoverRecords, leftoverOperations, startKey =>
    let slice := { w with
      recordsCount := recordsPerThread + boolCount leftoverRecords
      operationsCount := max 1 (operationsPerThread + boolCount leftoverOperations)
      startKey := startKey }
    slice :: splitLoop w recordsPerThread operationsPerThread n
      (leftoverRecords - boolCount leftoverRecords)
      (leftoverOperations - boolCount leftoverOperations)
      (startKey + startKeyStride w slice)

def splitWorkloadIntoThreads (w : Workload) (threadsCount : UInt64) : List Workload :=
  splitLoop w (w.dbRecordsCount / threadsCount) (w.dbOperationsCount / threadsCount)
    threadsCount.toNat (w.dbRecordsCount % threadsCount) (w.dbOperationsCount % threadsCount)
    w.startKey

/-- The three assertions `validate_workload` makes for each kind of length. -/
def LengthsValid (proportion : ℚ) (minLength maxLength recordsPerThread : UInt64) : Prop :=
  (proportion = 0 ∨ (0 < proportion ∧ 0 < minLength)) ∧
  minLength ≤ maxLength ∧ maxLength ≤ recordsPerThread

/-- The sum of all proportions in the order and precision of `validate_workload`. -/
def proportionSum (w : Workload) : ℚ :=
  [w.upsertProportion, w.updateProportion, w.removeProportion, w.readProportion,
    w.readModifyWriteProportion, w.batchUpsertProportion, w.batchReadProportion,
    w.bulkLoadProportion, w.rangeSelectProportion, w.scanProportion].foldl
    (fun sum proportion => roundTo 24 (sum + proportion)) 0

theorem lengthsValid_unused (recordsPerThread : UInt64) : LengthsValid 0 0 0 recordsPerThread :=
  ⟨Or.inl rfl, UInt64.le_refl 0, UInt64.zero_le⟩

/-- Every assertion of `validate_workload` holds. -/
structure ValidateWorkload (w : Workload) (threadsCount : UInt64) : Prop where
  threads : 0 < threadsCount
  name : w.name ≠ ""
  records : 0 < w.dbRecordsCount
  operations : 0 < w.dbOperationsCount
  proportion : 0 < proportionSum w ∧ proportionSum w ≤ 1
  valueLength : 0 < w.valueLength
  keyDist : w.keyDist ≠ .unknown
  batchUpsert : LengthsValid w.batchUpsertProportion w.batchUpsertMinLength
    w.batchUpsertMaxLength (w.dbRecordsCount / threadsCount)
  batchRead : LengthsValid w.batchReadProportion w.batchReadMinLength
    w.batchReadMaxLength (w.dbRecordsCount / threadsCount)
  bulkLoad : LengthsValid w.bulkLoadProportion w.bulkLoadMinLength
    w.bulkLoadMaxLength (w.dbRecordsCount / threadsCount)
  rangeSelect : LengthsValid w.rangeSelectProportion w.rangeSelectMinLength
    w.rangeSelectMaxLength (w.dbRecordsCount / threadsCount)

/-- Every slice starts where the stride of the one before it ends. -/
inductive StartKeysChain (w : Workload) : UInt64 → List Workload → Prop
  | nil (startKey : UInt64) : StartKeysChain w startKey []
  | cons {startKey : UInt64} {slice : Workload} {rest : List Workload} :
      slice.startKey = startKey →
      StartKeysChain w (startKey + startKeyStride w slice) rest →
      StartKeysChain w startKey (slice :: rest)

theorem boolCount_eq (count : UInt64) :
    boolCount count = if 0 < count.toNat then 1 else 0 := by
  have h : count = 0 ↔ ¬0 < count.toNat := by
    rw [← UInt64.toNat_inj, Nat.pos_iff_ne_zero, not_not]
    rfl
  simp only [boolCount, h, ite_not]

theorem boolCount_toNat (count : UInt64) :
    (boolCount count).toNat = if 0 < count.toNat then 1 else 0 := by
  rw [boolCount_eq]
  split <;> rfl

theorem sub_boolCount_toNat (count : UInt64) :
    (count - boolCount count).toNat = count.toNat - 1 := by
  have hb := boolCount_toNat count
  have hle : boolCount count ≤ count := by
    rw [UInt64.le_iff_toNat_le, hb]
    split <;> omega
  rw [UInt64.toNat_sub_of_le _ _ hle, hb]
  split <;> omega

theorem splitLoop_length (w : Workload) (records operations : UInt64) (n : ℕ)
    (leftoverRecords leftoverOperations startKey : UInt64) :
    (splitLoop w records operations n leftoverRecords leftoverOperations startKey).length = n := by
  induction n generalizing leftoverRecords leftoverOperations startKey with
  | zero => rfl
  | succ n ih => simp [splitLoop, ih]

theorem splitLoop_chain (w : Workload) (records operations : UInt64) (n : ℕ)
    (leftoverRecords leftoverOperations startKey : UInt64) :
    StartKeysChain w startKey
      (splitLoop w records operations n leftoverRecords leftoverOperations startKey) := by
  induction n generalizing leftoverRecords leftoverOperations startKey with
  | zero => exact StartKeysChain.nil startKey
  | succ n ih => exact StartKeysChain.cons rfl (ih _ _ _)

/-- A slice is the workload with its own counts and its own first key. -/
theorem splitLoop_getElem {w : Workload} {records operations : UInt64} {n i : ℕ}
    {leftoverRecords leftoverOperations startKey : UInt64} {slice : Workload}
    (h : (splitLoop w records operations n leftoverRecords leftoverOperations startKey)[i]? =
      some slice) :
    ∃ key, slice = { w with
      recordsCount := records + if i < leftoverRecords.toNat then 1 else 0
      operationsCount := max 1 (operations + if i < leftoverOperations.toNat then 1 else 0)
      startKey := key } := by
  induction n generalizing i leftoverRecords leftoverOperations startKey with
  | zero => simp [splitLoop] at h
  | succ n ih =>
    cases i with
    | zero =>
      simp only [splitLoop, List.getElem?_cons_zero, Option.some.injEq] at h
      subst h
      exact ⟨startKey, by rw [boolCount_eq, boolCount_eq]⟩
    | succ i =>
      simp only [splitLoop, List.getElem?_cons_succ] at h
      obtain ⟨key, hkey⟩ := ih h
      refine ⟨key, ?_⟩
      have hr : i < leftoverRecords.toNat - 1 ↔ i + 1 < leftoverRecords.toNat := by omega
      have ho : i < leftoverOperations.toNat - 1 ↔ i + 1 < leftoverOperations.toNat := by omega
      simpa only [sub_boolCount_toNat, hr, ho] using hkey

theorem share_toNat {parts : UInt64} (hp : 0 < parts) (total : UInt64) (i : ℕ) :
    (total / parts + if i < (total % parts).toNat then 1 else 0).toNat =
      share total.toNat parts.toNat i := by
  have hp' : 0 < parts.toNat := UInt64.lt_iff_toNat_lt.mp hp
  have hd := Nat.div_add_mod total.toNat parts.toNat
  have hm := Nat.le_mul_of_pos_left (total.toNat / parts.toNat) hp'
  have hb := UInt64.toNat_lt total
  unfold share
  rw [UInt64.toNat_add, UInt64.toNat_div, UInt64.toNat_mod]
  split
  · rw [UInt64.toNat_one, Nat.mod_eq_of_lt (by omega)]
  · rw [UInt64.toNat_zero, Nat.mod_eq_of_lt (by omega)]

theorem split_length (w : Workload) (threadsCount : UInt64) :
    (splitWorkloadIntoThreads w threadsCount).length = threadsCount.toNat :=
  splitLoop_length _ _ _ _ _ _ _

theorem exists_split_slice (w : Workload) {threadsCount : UInt64} {i : ℕ}
    (hi : i < threadsCount.toNat) :
    ∃ slice, (splitWorkloadIntoThreads w threadsCount)[i]? = some slice := by
  rw [← split_length w threadsCount] at hi
  exact ⟨_, List.getElem?_eq_getElem hi⟩

/-- The slices, by the index of the thread that gets them. -/
theorem mem_split {w slice : Workload} {threadsCount : UInt64} :
    slice ∈ splitWorkloadIntoThreads w threadsCount ↔
      ∃ i < threadsCount.toNat, (splitWorkloadIntoThreads w threadsCount)[i]? = some slice := by
  rw [List.mem_iff_getElem?, ← split_length w threadsCount]
  constructor
  · rintro ⟨i, hi⟩
    exact ⟨i, (List.getElem?_eq_some_iff.mp hi).1, hi⟩
  · rintro ⟨i, _, hi⟩
    exact ⟨i, hi⟩

theorem split_chain (w : Workload) (threadsCount : UInt64) :
    StartKeysChain w w.startKey (splitWorkloadIntoThreads w threadsCount) :=
  splitLoop_chain _ _ _ _ _ _ _

/-- All that the splitter changes in the workload it deals out. -/
def Workload.IsSliceOf (slice w : Workload) : Prop :=
  ∃ records operations key, slice =
    { w with recordsCount := records, operationsCount := operations, startKey := key }

theorem split_slice {w slice : Workload} {threadsCount : UInt64} {i : ℕ}
    (h : (splitWorkloadIntoThreads w threadsCount)[i]? = some slice) : slice.IsSliceOf w := by
  obtain ⟨key, hkey⟩ := splitLoop_getElem h
  exact ⟨_, _, key, hkey⟩

theorem isSliceOf_of_mem_split {w slice : Workload} {threadsCount : UInt64}
    (h : slice ∈ splitWorkloadIntoThreads w threadsCount) : slice.IsSliceOf w := by
  obtain ⟨_, _, hi⟩ := mem_split.mp h
  exact split_slice hi

theorem Workload.IsSliceOf.insertOnly_iff {slice w : Workload} (h : slice.IsSliceOf w) :
    slice.InsertOnly ↔ w.InsertOnly := by
  obtain ⟨_, _, _, rfl⟩ := h
  exact Iff.rfl

theorem Workload.IsSliceOf.dbRecordsCount {slice w : Workload} (h : slice.IsSliceOf w) :
    slice.dbRecordsCount = w.dbRecordsCount := by
  obtain ⟨_, _, _, rfl⟩ := h
  rfl

theorem Workload.IsSliceOf.keyDist {slice w : Workload} (h : slice.IsSliceOf w) :
    slice.keyDist = w.keyDist := by
  obtain ⟨_, _, _, rfl⟩ := h
  rfl

theorem split_recordsCount {w slice : Workload} {threadsCount : UInt64} {i : ℕ}
    (hT : 0 < threadsCount) (h : (splitWorkloadIntoThreads w threadsCount)[i]? = some slice) :
    slice.recordsCount.toNat = share w.dbRecordsCount.toNat threadsCount.toNat i := by
  obtain ⟨key, rfl⟩ := splitLoop_getElem h
  exact share_toNat hT _ i

theorem split_operationsCount {w slice : Workload} {threadsCount : UInt64} {i : ℕ}
    (hT : 0 < threadsCount) (h : (splitWorkloadIntoThreads w threadsCount)[i]? = some slice) :
    slice.operationsCount.toNat =
      max 1 (share w.dbOperationsCount.toNat threadsCount.toNat i) := by
  obtain ⟨key, rfl⟩ := splitLoop_getElem h
  simp only [UInt64.toNat_max, share_toNat hT, UInt64.toNat_one]

/-- A count of every slice, listed, from the count of the slice at each index. -/
theorem split_map {α : Type} {w : Workload} {threadsCount : UInt64} {count : Workload → α}
    {value : ℕ → α} (h : ∀ i slice,
      (splitWorkloadIntoThreads w threadsCount)[i]? = some slice → count slice = value i) :
    (splitWorkloadIntoThreads w threadsCount).map count =
      (List.range threadsCount.toNat).map value := by
  apply List.ext_getElem
  · simp [split_length]
  · intro i hi hj
    simp only [List.length_map] at hi
    simpa using h i _ (List.getElem?_eq_getElem hi)

theorem split_records_sum {w : Workload} {threadsCount : UInt64} (hT : 0 < threadsCount) (n : ℕ)
    (hn : n ≤ threadsCount.toNat) :
    (((splitWorkloadIntoThreads w threadsCount).take n).map
      fun slice => slice.recordsCount.toNat).sum =
      dealt w.dbRecordsCount.toNat threadsCount.toNat n := by
  rw [List.map_take, split_map fun i slice h => split_recordsCount hT h, ← List.map_take,
    List.take_range, Nat.min_eq_left hn, sum_share]

theorem split_operations_sum {w : Workload} {threadsCount : UInt64} (hT : 0 < threadsCount) :
    ((splitWorkloadIntoThreads w threadsCount).map fun slice => slice.operationsCount.toNat).sum =
      max w.dbOperationsCount.toNat threadsCount.toNat := by
  rw [split_map fun i slice h => split_operationsCount hT h]
  exact sum_max_one_share (UInt64.lt_iff_toNat_lt.mp hT) _

theorem split_operations_sum_ge {w : Workload} {threadsCount : UInt64} (hT : 0 < threadsCount) :
    w.dbOperationsCount.toNat ≤
      ((splitWorkloadIntoThreads w threadsCount).map
        fun slice => slice.operationsCount.toNat).sum := by
  rw [split_operations_sum hT]
  exact Nat.le_max_left _ _

/-- The first key of a slice, from the strides of the slices before it. -/
theorem StartKeysChain.startKey_eq {w slice : Workload} {startKey : UInt64}
    {slices : List Workload} (h : StartKeysChain w startKey slices) {i : ℕ}
    (hi : slices[i]? = some slice) :
    slice.startKey = startKey +
      UInt64.ofNat ((slices.take i).map fun s => (startKeyStride w s).toNat).sum := by
  induction h generalizing i with
  | nil => simp at hi
  | @cons startKey first rest hs _ ih =>
    cases i with
    | zero =>
      simp only [List.getElem?_cons_zero, Option.some.injEq] at hi
      subst hi
      simp [hs]
    | succ i =>
      have hrest := ih hi
      simp only [List.take_succ_cons, List.map_cons, List.sum_cons, UInt64.ofNat_add,
        UInt64.ofNat_toNat, ← UInt64.add_assoc]
      exact hrest

end Ucsb
