import Ucsb.WorkerRun
import Ucsb.WorkloadSplit
import Mathlib.Data.List.Dedup

namespace Ucsb

open ExceptRules ConsecutiveWords

section

variable {ι : Type} [DecidableEq ι]

/-- Operations of several workers in the order they take place, and each key
handed out with the worker that got it. -/
def runThreads : (ι → Worker) → List (ι × OperationKind × Draws) →
    Except Fault (List (ι × UInt64) × (ι → Worker))
  | workers, [] => .ok ([], workers)
  | workers, (idx, kind, draws) :: operations => do
    let (calls, w) ← (workers idx).perform draws kind
    let (log, workers) ← runThreads (Function.update workers idx w) operations
    .ok ((insertedKeys calls).map (Prod.mk idx) ++ log, workers)

/-- How many keys the operations ask the worker `idx` to hand out. -/
def insertedBy (idx : ι) (operations : List (ι × OperationKind × Draws)) : ℕ :=
  insertedTotal ((operations.filter fun operation => operation.1 = idx).map Prod.snd)

def keysOf (idx : ι) (log : List (ι × UInt64)) : List UInt64 :=
  (log.filter fun entry => entry.1 = idx).map Prod.snd

theorem insertedBy_cons (idx other : ι) (operation : OperationKind × Draws)
    (operations : List (ι × OperationKind × Draws)) :
    insertedBy idx ((other, operation) :: operations) =
      (if other = idx then insertedCount operation else 0) + insertedBy idx operations := by
  by_cases h : other = idx <;> simp [insertedBy, insertedTotal, h]

theorem keysOf_append (idx : ι) (a b : List (ι × UInt64)) :
    keysOf idx (a ++ b) = keysOf idx a ++ keysOf idx b := by
  simp [keysOf]

theorem keysOf_block (idx other : ι) (keys : List UInt64) :
    keysOf idx (keys.map (Prod.mk other)) = if other = idx then keys else [] := by
  by_cases h : other = idx
  · simp [keysOf, h, List.filter_eq_self.mpr]
  · simp [keysOf, h, List.filter_eq_nil_iff.mpr]

theorem mem_keysOf {idx : ι} {log : List (ι × UInt64)} {key : UInt64} :
    key ∈ keysOf idx log ↔ (idx, key) ∈ log := by
  simp [keysOf]

theorem update_acknowledged {workers : ι → Worker} {other : ι} {w : Worker} {n : ℕ}
    (hack : ∀ idx, (workers idx).acknowledgedKeyGenerator = none)
    (hands : (workers other).HandsOut n w) (idx : ι) :
    (Function.update workers other w idx).acknowledgedKeyGenerator = none := by
  by_cases hi : idx = other
  · subst hi
    simpa using hands.acknowledged
  · simpa [hi] using hack idx

/-- The first operation of a run, and the run of the others. -/
theorem runThreads_cons {workers workers' : ι → Worker} {log : List (ι × UInt64)} {other : ι}
    {operation : OperationKind × Draws} {operations : List (ι × OperationKind × Draws)}
    (hack : ∀ idx, (workers idx).acknowledgedKeyGenerator = none)
    (h : runThreads workers ((other, operation) :: operations) = .ok (log, workers')) :
    ∃ w rest, (workers other).HandsOut (insertedCount operation) w ∧
      (∀ idx, (Function.update workers other w idx).acknowledgedKeyGenerator = none) ∧
      runThreads (Function.update workers other w) operations = .ok (rest, workers') ∧
      log = (words (workers other).upsertKeySequenceGenerator.next
        (insertedCount operation)).map (Prod.mk other) ++ rest := by
  obtain ⟨kind, draws⟩ := operation
  simp only [runThreads, bind_eq_ok] at h
  obtain ⟨⟨calls, w⟩, hp, ⟨rest, last⟩, hr, h⟩ := h
  cases Except.ok.inj h
  obtain ⟨hands, hkeys⟩ := Worker.perform_inserts (hack other) hp
  exact ⟨w, rest, hands, update_acknowledged hack hands, hr, by rw [hkeys]⟩

/-- Whatever the others do, a worker takes consecutive keys of its own sequence. -/
theorem runThreads_keysOf {workers workers' : ι → Worker} {log : List (ι × UInt64)}
    {operations : List (ι × OperationKind × Draws)}
    (hack : ∀ idx, (workers idx).acknowledgedKeyGenerator = none)
    (h : runThreads workers operations = .ok (log, workers')) (idx : ι) :
    keysOf idx log = words (workers idx).upsertKeySequenceGenerator.next
      (insertedBy idx operations) := by
  induction operations generalizing workers log with
  | nil =>
    cases Except.ok.inj h
    rfl
  | cons operation operations ih =>
    obtain ⟨other, operation⟩ := operation
    obtain ⟨w, rest, hands, hack', hr, rfl⟩ := runThreads_cons hack h
    have hrest := ih hack' hr
    rw [keysOf_append, keysOf_block, hrest, insertedBy_cons]
    by_cases ho : other = idx
    · subst ho
      simp only [if_true, Function.update_self, hands.sequence, KeySequence.advance_next,
        words_add]
    · simp only [ho, if_false, Function.update_of_ne (Ne.symm ho), List.nil_append, Nat.zero_add]

theorem runThreads_log_length {workers workers' : ι → Worker} {log : List (ι × UInt64)}
    {operations : List (ι × OperationKind × Draws)}
    (hack : ∀ idx, (workers idx).acknowledgedKeyGenerator = none)
    (h : runThreads workers operations = .ok (log, workers')) :
    log.length = insertedTotal (operations.map Prod.snd) := by
  induction operations generalizing workers log with
  | nil =>
    cases Except.ok.inj h
    rfl
  | cons operation operations ih =>
    obtain ⟨other, operation⟩ := operation
    obtain ⟨w, rest, -, hack', hr, rfl⟩ := runThreads_cons hack h
    simp [ih hack' hr, insertedTotal]

/-- No two workers got the same key, and there are as many different keys as
the operations have insertions. -/
def KeysDistinct (operations : List (ι × OperationKind × Draws)) (log : List (ι × UInt64)) :
    Prop :=
  (∀ i j, i ≠ j → ∀ key, (i, key) ∈ log → (j, key) ∉ log) ∧
  (log.map Prod.snd).dedup.length = insertedTotal (operations.map Prod.snd)

theorem dedup_length_iff (keys : List UInt64) : keys.dedup.length = keys.length ↔ keys.Nodup := by
  constructor
  · intro h
    exact List.dedup_eq_self.mp (keys.dedup_sublist.eq_of_length h)
  · intro h
    rw [h.dedup]

/-- Workers whose sequences all begin at one key collide as soon as a second one inserts. -/
theorem keysDistinct_iff {start : UInt64} {count : ι → ℕ} {log : List (ι × UInt64)}
    {operations : List (ι × OperationKind × Draws)}
    (h : ∀ idx, keysOf idx log = words start (count idx))
    (hlength : log.length = insertedTotal (operations.map Prod.snd)) :
    KeysDistinct operations log ↔
      (∀ i j, 0 < count i → 0 < count j → i = j) ∧ ∀ i, count i ≤ 2 ^ 64 := by
  have hcount : ∀ {i key}, (i, key) ∈ log → 0 < count i := by
    intro i key hkey
    rw [← mem_keysOf, h] at hkey
    by_contra hz
    simp [Nat.eq_zero_of_not_pos hz] at hkey
  unfold KeysDistinct
  rw [← hlength, ← log.length_map Prod.snd, dedup_length_iff]
  constructor
  · rintro ⟨hdisjoint, hnodup⟩
    refine ⟨fun i j hi hj => ?_, fun i => ?_⟩
    · by_contra hij
      have hi' : (i, start) ∈ log := by rw [← mem_keysOf, h]; exact start_mem_words hi
      have hj' : (j, start) ∈ log := by rw [← mem_keysOf, h]; exact start_mem_words hj
      exact hdisjoint i j hij start hi' hj'
    · have hsub : List.Sublist (keysOf i log) (log.map Prod.snd) :=
        List.filter_sublist.map Prod.snd
      have hi := hnodup.sublist hsub
      rwa [h, words_nodup_iff] at hi
  · rintro ⟨hone, hsmall⟩
    refine ⟨fun i j hij key hi hj => hij (hone i j (hcount hi) (hcount hj)), ?_⟩
    cases log with
    | nil => exact List.nodup_nil
    | cons first rest =>
      have hfirst : 0 < count first.1 := hcount (show (first.1, first.2) ∈ first :: rest by simp)
      have hall : keysOf first.1 (first :: rest) = (first :: rest).map Prod.snd := by
        unfold keysOf
        rw [List.filter_eq_self.mpr]
        intro entry he
        have hentry : 0 < count entry.1 := hcount (show (entry.1, entry.2) ∈ first :: rest from he)
        simpa using hone entry.1 first.1 hentry hfirst
      rw [← hall, h]
      exact words_nodup start (hsmall first.1)

end

/-- A run of a workload that is not insert-only, by one worker for each slice. -/
structure MixedRun (w : Workload) (threadsCount : UInt64) where
  workers : Fin threadsCount.toNat → Worker
  operations : List (Fin threadsCount.toNat × OperationKind × Draws)
  log : List (Fin threadsCount.toNat × UInt64)
  made : ∀ idx slice, (splitWorkloadIntoThreads w threadsCount)[idx.val]? = some slice →
    Worker.make slice = .ok (workers idx)
  completes : ∃ finalWorkers, runThreads workers operations = .ok (log, finalWorkers)

section

variable {w : Workload} {threadsCount : UInt64}

theorem MixedRun.made_of_slice (run : MixedRun w threadsCount) (idx : Fin threadsCount.toNat) :
    ∃ slice, slice.IsSliceOf w ∧ Worker.make slice = .ok (run.workers idx) := by
  obtain ⟨slice, hslice⟩ := exists_split_slice w idx.isLt
  exact ⟨slice, split_slice hslice, run.made idx slice hslice⟩

theorem MixedRun.acknowledged (run : MixedRun w threadsCount) (idx : Fin threadsCount.toNat) :
    (run.workers idx).acknowledgedKeyGenerator = none := by
  obtain ⟨slice, _, hm⟩ := run.made_of_slice idx
  exact (Worker.make_spec hm).1

/-- Every worker of a mixed workload begins its sequence at the same key. -/
theorem MixedRun.next_eq (run : MixedRun w threadsCount) (hw : ¬w.InsertOnly)
    (idx : Fin threadsCount.toNat) :
    (run.workers idx).upsertKeySequenceGenerator.next = w.dbRecordsCount := by
  obtain ⟨slice, hs, hm⟩ := run.made_of_slice idx
  rw [Worker.make_mixed (by rwa [hs.insertOnly_iff]) hm]
  exact hs.dbRecordsCount

theorem mixed_keys_distinct_iff (hw : ¬w.InsertOnly) (run : MixedRun w threadsCount) :
    KeysDistinct run.operations run.log ↔
    (∀ i j, 0 < insertedBy i run.operations → 0 < insertedBy j run.operations → i = j) ∧
      ∀ i, insertedBy i run.operations ≤ 2 ^ 64 := by
  obtain ⟨finalWorkers, hrun⟩ := run.completes
  have hkeys : ∀ idx, keysOf idx run.log =
      words w.dbRecordsCount (insertedBy idx run.operations) := by
    intro idx
    rw [runThreads_keysOf run.acknowledged hrun, run.next_eq hw]
  exact keysDistinct_iff hkeys (runThreads_log_length run.acknowledged hrun)

end

/-- Half reads and half upserts, two operations in all. -/
def readUpsert (records : UInt64) : Workload :=
  { name := "ReadUpsert", dbRecordsCount := records, dbOperationsCount := 2,
    upsertProportion := { num := 1, den := 2 }, readProportion := { num := 1, den := 2 },
    valueLength := 8 }

def readUpsertWorker (slice : Workload) : Worker :=
  { workload := slice
    upsertKeySequenceGenerator := .acknowledged (.make slice.dbRecordsCount)
    acknowledgedKeyGenerator := none
    keyGenerator := some (.uniform slice.startKey (slice.startKey + slice.recordsCount - 1))
    keysBuffer := [0]
    valueLengthGenerator := .const 8
    valuesBufferSize := 4096
    valueSizesBuffer := [0]
    batchUpsertLengthGenerator := .uniform 0 0
    batchReadLengthGenerator := .uniform 0 0
    bulkLoadLengthGenerator := .uniform 0 0
    rangeSelectLengthGenerator := .uniform 0 0 }

theorem readUpsert_make {records : UInt64} {slice : Workload}
    (h : slice.IsSliceOf (readUpsert records)) :
    Worker.make slice = .ok (readUpsertWorker slice) := by
  obtain ⟨share, operations, key, rfl⟩ := h
  have haligned : valueAlignedLength { readUpsert records with
      recordsCount := share, operationsCount := operations, startKey := key } = 4096 := by
    change roundupToMultiple alignment 8 = 4096
    decide
  have helements : elementsMaxCount { readUpsert records with
      recordsCount := share, operationsCount := operations, startKey := key } = 1 := rfl
  simp only [Worker.make, bind_eq_ok]
  refine ⟨_, rfl, _, rfl, _, rfl, _, rfl, _, rfl, _, rfl, ?_⟩
  rw [helements, haligned]
  rfl

def readUpsertSlice (startKey : UInt64) : Workload :=
  { readUpsert 10 with recordsCount := 5, operationsCount := 1, startKey := startKey }

theorem readUpsertSlice_make (startKey : UInt64) :
    Worker.make (readUpsertSlice startKey) = .ok (readUpsertWorker (readUpsertSlice startKey)) :=
  readUpsert_make ⟨5, 1, startKey, rfl⟩

def readUpsertThread (idx : ℕ) (h : idx < 2) : Fin (UInt64.toNat 2) := ⟨idx, h⟩

/-- Each of two threads makes one upsert. -/
def readUpsertRun : MixedRun (readUpsert 10) 2 where
  workers idx := readUpsertWorker (readUpsertSlice (if idx.val = 0 then 0 else 5))
  operations := [(readUpsertThread 0 (by decide), .upsert, {}),
    (readUpsertThread 1 (by decide), .upsert, {})]
  log := [(readUpsertThread 0 (by decide), 10), (readUpsertThread 1 (by decide), 10)]
  made := by
    intro idx slice h
    have hsplit : splitWorkloadIntoThreads (readUpsert 10) 2 =
        [readUpsertSlice 0, readUpsertSlice 5] := by decide
    rw [hsplit] at h
    rcases idx with ⟨_ | _ | idx, hidx⟩
    · cases Option.some.inj h
      exact readUpsertSlice_make 0
    · cases Option.some.inj h
      exact readUpsertSlice_make 5
    · exact absurd hidx (by simp)
  completes := ⟨_, rfl⟩

theorem readUpsertRun_keys_distinct_iff :
    KeysDistinct readUpsertRun.operations readUpsertRun.log ↔
    (∀ i j, 0 < insertedBy i readUpsertRun.operations →
      0 < insertedBy j readUpsertRun.operations → i = j) ∧
      ∀ i, insertedBy i readUpsertRun.operations ≤ 2 ^ 64 :=
  mixed_keys_distinct_iff (by decide) readUpsertRun

theorem mixed_keys_collide :
    ¬∀ (w : Workload) (threadsCount : UInt64), ¬w.InsertOnly → 0 < w.upsertProportion →
      0 < threadsCount → ∀ run : MixedRun w threadsCount,
        KeysDistinct run.operations run.log := by
  intro h
  have hpositive : 0 < (readUpsert 10).upsertProportion := by
    simp [readUpsert, ← Rat.num_pos]
  have hrun := h (readUpsert 10) 2 (by decide) hpositive (by decide) readUpsertRun
  exact hrun.1 (readUpsertThread 0 (by decide)) (readUpsertThread 1 (by decide)) (by decide) 10
    (by decide) (by decide)

/-- Nothing a worker does moves the bound that `generate_key` compares with. -/
theorem mixed_last {w : Workload} (hw : ¬w.InsertOnly) {worker worker' : Worker}
    {operations : List (OperationKind × Draws)} {calls : List AccessorCall}
    (hm : Worker.make w = .ok worker) (hr : worker.run operations = .ok (calls, worker')) :
    worker'.upsertKeySequenceGenerator.last = w.dbRecordsCount - 1 := by
  obtain ⟨hands, _⟩ := Worker.run_inserts (Worker.make_spec hm).1 hr
  rw [hands.sequence, Worker.make_mixed hw hm, KeySequence.advance_last_acknowledged]
  rfl

theorem last_counts_insertions_iff {w : Workload} (hw : ¬w.InsertOnly) {worker worker' : Worker}
    {operations : List (OperationKind × Draws)} {calls : List AccessorCall}
    (hm : Worker.make w = .ok worker) (hr : worker.run operations = .ok (calls, worker')) :
    worker'.upsertKeySequenceGenerator.last =
      w.dbRecordsCount + UInt64.ofNat (insertedKeys calls).length - 1 ↔
    2 ^ 64 ∣ insertedTotal operations := by
  obtain ⟨_, hkeys⟩ := Worker.run_inserts (Worker.make_spec hm).1 hr
  have hword : 2 ^ 64 ∣ insertedTotal operations ↔
      UInt64.ofNat (insertedTotal operations) = 0 := by
    rw [UInt64.ofNat_eq_iff_mod_eq_toNat, Nat.dvd_iff_mod_eq_zero]
    rfl
  rw [mixed_last hw hm hr, hkeys, words_length, hword]
  constructor
  · intro h
    grind
  · intro h
    rw [h, UInt64.add_zero]

theorem readUpsert_last_counts_insertions_iff :
    ∃ calls worker',
      (readUpsertWorker (readUpsertSlice 0)).run [(.upsert, {})] = .ok (calls, worker') ∧
      (worker'.upsertKeySequenceGenerator.last =
        (readUpsertSlice 0).dbRecordsCount + UInt64.ofNat (insertedKeys calls).length - 1 ↔
      2 ^ 64 ∣ insertedTotal [(.upsert, {})]) := by
  have hrun : ∃ calls worker',
      (readUpsertWorker (readUpsertSlice 0)).run [(.upsert, {})] = .ok (calls, worker') :=
    ⟨_, _, rfl⟩
  obtain ⟨calls, worker', hr⟩ := hrun
  exact ⟨calls, worker', hr,
    last_counts_insertions_iff (by decide) (readUpsertSlice_make 0) hr⟩

theorem last_misses_insertions :
    ¬∀ (w : Workload) (worker worker' : Worker) (operations : List (OperationKind × Draws))
      (calls : List AccessorCall), ¬w.InsertOnly → Worker.make w = .ok worker →
      worker.run operations = .ok (calls, worker') →
      worker'.upsertKeySequenceGenerator.last =
        w.dbRecordsCount + UInt64.ofNat (insertedKeys calls).length - 1 := by
  intro h
  have hlast := h (readUpsertSlice 0) _ _ [(.upsert, {})] _ (by decide)
    (readUpsertSlice_make 0) rfl
  exact absurd hlast (by decide)

end Ucsb
