import Ucsb.WorkerRun
import Ucsb.WorkloadSplit
import Mathlib.Data.List.Flatten

namespace Ucsb

open ExceptRules ConsecutiveWords

/-- The keys one thread inserts with its slice of a workload. -/
def threadKeys (slice : Workload) (operations : List (OperationKind × Draws)) :
    Except Fault (List UInt64) := do
  let worker ← Worker.make slice
  let (calls, _) ← worker.run operations
  .ok (insertedKeys calls)

/-- A thread's complete part in a run that only inserts: as many operations of
the kind as the slice asks for, of admitted lengths, and the keys they insert. -/
structure InsertRun (w : Workload) (kind : OperationKind) where
  slice : Workload
  operations : List (OperationKind × Draws)
  keys : List UInt64
  count : operations.length = slice.operationsCount.toNat
  kinds : ∀ operation ∈ operations, operation.1 = kind
  lengths : ∀ operation ∈ operations, kind ≠ .upsert →
    w.minInsertLength kind ≤ operation.2.length ∧ operation.2.length ≤ w.maxInsertLength kind
  completes : threadKeys slice operations = .ok keys

/-- The most keys a slice can insert. -/
def sliceCapacity (w : Workload) (kind : OperationKind) (slice : Workload) : ℕ :=
  slice.operationsCount.toNat * (w.maxInsertLength kind).toNat

/-- All operations of all slices, times the longest insertion. -/
def insertCapacity (w : Workload) (kind : OperationKind) (slices : List Workload) : ℕ :=
  (slices.map fun slice => slice.operationsCount.toNat).sum * (w.maxInsertLength kind).toNat

theorem insertCapacity_cons (w : Workload) (kind : OperationKind) (slice : Workload)
    (slices : List Workload) : insertCapacity w kind (slice :: slices) =
      sliceCapacity w kind slice + insertCapacity w kind slices := by
  simp [insertCapacity, sliceCapacity, Nat.add_mul]

theorem newRecordsCount_eq {w : Workload} {kind : OperationKind} (hw : w.InsertsOnlyBy kind)
    (slice : Workload) :
    newRecordsCount w slice = slice.operationsCount * w.maxInsertLength kind := by
  have hone := hw.proportion_one
  have hzero := hw.proportion_zero
  unfold newRecordsCount
  rcases hw.inserts with rfl | rfl | rfl
  · have hbatch : w.batchUpsertProportion = 0 := hzero .batchUpsert (by decide)
    have hbulk : w.bulkLoadProportion = 0 := hzero .bulkLoad (by decide)
    have hup : w.upsertProportion = 1 := hone
    simp [boolProportion, hbatch, hbulk, hup, Workload.maxInsertLength]
  · have hup : w.upsertProportion = 0 := hzero .upsert (by decide)
    have hbulk : w.bulkLoadProportion = 0 := hzero .bulkLoad (by decide)
    have hbatch : w.batchUpsertProportion = 1 := hone
    simp [boolProportion, hbatch, hbulk, hup, Workload.maxInsertLength]
  · have hup : w.upsertProportion = 0 := hzero .upsert (by decide)
    have hbatch : w.batchUpsertProportion = 0 := hzero .batchUpsert (by decide)
    have hbulk : w.bulkLoadProportion = 1 := hone
    simp [boolProportion, hbatch, hbulk, hup, Workload.maxInsertLength]

/-- The stride of a slice is exactly the room for its longest run. -/
theorem startKeyStride_insertOnly {w : Workload} {kind : OperationKind}
    (hw : w.InsertsOnlyBy kind) (slice : Workload) :
    startKeyStride w slice = UInt64.ofNat (sliceCapacity w kind slice) := by
  simp [startKeyStride, hw.insertOnly, newRecordsCount_eq hw, sliceCapacity, UInt64.ofNat_mul]

/-- The blocks of all slices, one after another, are one block. -/
theorem slices_words {w : Workload} {kind : OperationKind} (hw : w.InsertsOnlyBy kind)
    {startKey : UInt64} {slices : List Workload} (h : StartKeysChain w startKey slices) :
    (slices.flatMap fun slice => words slice.startKey (sliceCapacity w kind slice)) =
      words startKey (insertCapacity w kind slices) := by
  induction h with
  | nil => simp [insertCapacity]
  | cons hs _ ih =>
    rw [List.flatMap_cons, ih, hs, startKeyStride_insertOnly hw, insertCapacity_cons, words_add]

namespace InsertRun

variable {w : Workload} {kind : OperationKind}

theorem insertedCount_bounds (run : InsertRun w kind) (hk : kind.Inserts)
    {operation : OperationKind × Draws} (h : operation ∈ run.operations) :
    (w.minInsertLength kind).toNat ≤ insertedCount operation ∧
      insertedCount operation ≤ (w.maxInsertLength kind).toNat := by
  obtain ⟨other, draws⟩ := operation
  obtain rfl : other = kind := run.kinds _ h
  have hlength := run.lengths _ h
  simp only [UInt64.le_iff_toNat_le] at hlength
  rcases hk with rfl | rfl | rfl
  · exact ⟨le_rfl, le_rfl⟩
  · exact hlength (by decide)
  · exact hlength (by decide)

theorem insertedTotal_le (run : InsertRun w kind) (hk : kind.Inserts) :
    insertedTotal run.operations ≤ sliceCapacity w kind run.slice := by
  have h := BalancedShare.sum_map_le (fun _ ho => (run.insertedCount_bounds hk ho).2) run.count.le
  simpa [insertedTotal, sliceCapacity] using h

theorem insertedTotal_eq (run : InsertRun w kind) (hk : kind.Inserts)
    (hfix : w.minInsertLength kind = w.maxInsertLength kind) :
    insertedTotal run.operations = sliceCapacity w kind run.slice := by
  have h := List.sum_eq_card_nsmul (run.operations.map insertedCount)
    (w.maxInsertLength kind).toNat (by
      intro count hc
      obtain ⟨operation, ho, rfl⟩ := List.mem_map.mp hc
      have hb := run.insertedCount_bounds hk ho
      rw [hfix] at hb
      omega)
  simpa [insertedTotal, sliceCapacity, run.count] using h

theorem keys_eq (run : InsertRun w kind) (hs : run.slice.InsertOnly) :
    run.keys = words run.slice.startKey (insertedTotal run.operations) := by
  have h := run.completes
  simp only [threadKeys, bind_eq_ok] at h
  obtain ⟨worker, hm, ⟨calls, last⟩, hr, h⟩ := h
  obtain ⟨_, hkeys⟩ := Worker.run_inserts (Worker.make_spec hm).1 hr
  rw [Worker.make_insertOnly hs hm] at hkeys
  exact (Except.ok.inj h).symm.trans hkeys

end InsertRun

theorem slice_insertOnly {w slice : Workload} {threadsCount : UInt64} (hw : w.InsertOnly)
    (h : slice ∈ splitWorkloadIntoThreads w threadsCount) : slice.InsertOnly :=
  (isSliceOf_of_mem_split h).insertOnly_iff.mpr hw

section

variable {w : Workload} {kind : OperationKind} {threadsCount : UInt64}
  {runs : List (InsertRun w kind)}

theorem runs_keys_eq (hw : w.InsertsOnlyBy kind)
    (hruns : runs.map InsertRun.slice = splitWorkloadIntoThreads w threadsCount)
    {run : InsertRun w kind} (h : run ∈ runs) :
    run.keys = words run.slice.startKey (insertedTotal run.operations) := by
  have hs : run.slice ∈ splitWorkloadIntoThreads w threadsCount := by
    rw [← hruns]
    exact List.mem_map_of_mem h
  exact run.keys_eq (slice_insertOnly hw.insertOnly hs)

theorem runs_words (hw : w.InsertsOnlyBy kind)
    (hruns : runs.map InsertRun.slice = splitWorkloadIntoThreads w threadsCount) :
    (runs.flatMap fun run => words run.slice.startKey (sliceCapacity w kind run.slice)) =
      words w.startKey (insertCapacity w kind (splitWorkloadIntoThreads w threadsCount)) := by
  rw [← slices_words hw (split_chain w threadsCount), ← hruns, List.flatMap_map]

/-- The keys of all threads, in thread order, are among the block of the run. -/
theorem runs_keys_sublist (hw : w.InsertsOnlyBy kind)
    (hruns : runs.map InsertRun.slice = splitWorkloadIntoThreads w threadsCount) :
    List.Sublist (runs.flatMap InsertRun.keys)
      (words w.startKey (insertCapacity w kind (splitWorkloadIntoThreads w threadsCount))) := by
  rw [← runs_words hw hruns]
  apply List.Sublist.flatMap_right
  intro run h
  rw [runs_keys_eq hw hruns h]
  exact words_sublist _ (run.insertedTotal_le hw.inserts)

/-- With one admitted length they are all of it. -/
theorem runs_keys_full (hw : w.InsertsOnlyBy kind)
    (hruns : runs.map InsertRun.slice = splitWorkloadIntoThreads w threadsCount)
    (hfix : w.minInsertLength kind = w.maxInsertLength kind) :
    runs.flatMap InsertRun.keys =
      words w.startKey (insertCapacity w kind (splitWorkloadIntoThreads w threadsCount)) := by
  rw [← runs_words hw hruns]
  apply List.flatMap_congr
  intro run h
  rw [runs_keys_eq hw hruns h, run.insertedTotal_eq hw.inserts hfix]

theorem insert_only_keys_distinct (hw : w.InsertsOnlyBy kind)
    (hruns : runs.map InsertRun.slice = splitWorkloadIntoThreads w threadsCount)
    (hbound : w.startKey.toNat +
      insertCapacity w kind (splitWorkloadIntoThreads w threadsCount) < 2 ^ 64) :
    (runs.flatMap InsertRun.keys).Nodup ∧
    (∀ key ∈ runs.flatMap InsertRun.keys, w.startKey.toNat ≤ key.toNat ∧
      key.toNat < w.startKey.toNat +
        insertCapacity w kind (splitWorkloadIntoThreads w threadsCount)) ∧
    (w.minInsertLength kind = w.maxInsertLength kind → ∀ key : UInt64,
      w.startKey.toNat ≤ key.toNat → key.toNat < w.startKey.toNat +
        insertCapacity w kind (splitWorkloadIntoThreads w threadsCount) →
      key ∈ runs.flatMap InsertRun.keys) := by
  have hsub := runs_keys_sublist hw hruns
  refine ⟨(words_nodup _ (by omega)).sublist hsub, ?_, ?_⟩
  · intro key hkey
    exact (mem_words_iff (by omega)).mp (hsub.subset hkey)
  · intro hfix key hlo hhi
    rw [runs_keys_full hw hruns hfix]
    exact (mem_words_iff (by omega)).mpr ⟨hlo, hhi⟩

end

/-- A load of three bulk operations, two of them on the first of two threads. -/
def smallLoad : Workload :=
  { name := "Init", dbRecordsCount := 6, dbOperationsCount := 3, bulkLoadProportion := 1,
    startKey := 5, valueLength := 8, bulkLoadMinLength := 1, bulkLoadMaxLength := 2 }

theorem smallLoad_insertsOnlyBy : smallLoad.InsertsOnlyBy .bulkLoad where
  inserts := by decide
  proportion_one := rfl
  proportion_zero := by
    intro other h
    cases other <;> first | rfl | exact absurd rfl h

def smallLoadRuns : List (InsertRun smallLoad .bulkLoad) :=
  [{ slice := { smallLoad with recordsCount := 3, operationsCount := 2, startKey := 5 }
     operations := [(.bulkLoad, { length := 1 }), (.bulkLoad, { length := 2 })]
     keys := [5, 6, 7]
     count := rfl
     kinds := by decide
     lengths := by decide
     completes := by decide },
   { slice := { smallLoad with recordsCount := 3, operationsCount := 1, startKey := 9 }
     operations := [(.bulkLoad, { length := 2 })]
     keys := [9, 10]
     count := rfl
     kinds := by decide
     lengths := by decide
     completes := by decide }]

theorem smallLoadRuns_keys_distinct :
    (smallLoadRuns.flatMap InsertRun.keys).Nodup ∧
    (∀ key ∈ smallLoadRuns.flatMap InsertRun.keys, 5 ≤ key.toNat ∧ key.toNat < 5 + 6) ∧
    (smallLoad.minInsertLength .bulkLoad = smallLoad.maxInsertLength .bulkLoad →
      ∀ key : UInt64, 5 ≤ key.toNat → key.toNat < 5 + 6 →
        key ∈ smallLoadRuns.flatMap InsertRun.keys) := by
  have hruns : smallLoadRuns.map InsertRun.slice = splitWorkloadIntoThreads smallLoad 2 := by
    decide
  exact insert_only_keys_distinct smallLoad_insertsOnlyBy hruns (by decide)

end Ucsb
