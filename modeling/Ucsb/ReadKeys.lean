import Ucsb.InsertOnlyKeys
import Ucsb.MixedKeys

namespace Ucsb

open ExceptRules ConsecutiveWords

/-- The keys a call takes from `generate_key`. -/
def AccessorCall.requestedKeys : AccessorCall → List UInt64
  | .update key _ => [key]
  | .remove key => [key]
  | .read key _ => [key]
  | .batchRead keys _ => keys
  | .rangeSelect key _ _ => [key]
  | _ => []

def requestedKeys (calls : List AccessorCall) : List UInt64 :=
  calls.flatMap AccessorCall.requestedKeys

@[simp] theorem requestedKeys_append (a b : List AccessorCall) :
    requestedKeys (a ++ b) = requestedKeys a ++ requestedKeys b :=
  List.flatMap_append

namespace Worker

/-- The loop leaves no key above the bound, whatever the generator draws. -/
theorem generateKey_le {w : Worker} {draws rest : List KeyDraw} {key : UInt64}
    (h : w.generateKey draws = .ok (key, rest)) : key ≤ w.upsertKeySequenceGenerator.last := by
  induction draws with
  | nil => simp [generateKey] at h
  | cons draw draws ih =>
    unfold generateKey at h
    cases hg : w.keyGenerator with
    | none => simp [hg] at h
    | some keyGenerator =>
      simp only [hg, bind_eq_ok] at h
      obtain ⟨drawn, _, h⟩ := h
      split at h
      next => exact ih h
      next hle =>
        cases Except.ok.inj h
        exact UInt64.not_lt.mp hle

theorem collectKeys_le {batchLength rounds : ℕ} {uniqueKeys : List UInt64}
    {draws : List KeyDraw} {w w' : Worker}
    (hle : ∀ key ∈ w.keysBuffer.take uniqueKeys.length,
      key ≤ w.upsertKeySequenceGenerator.last)
    (h : collectKeys batchLength rounds uniqueKeys draws w = .ok w') :
    ∀ key ∈ w'.keysBuffer.take batchLength, key ≤ w.upsertKeySequenceGenerator.last := by
  induction rounds generalizing uniqueKeys draws w with
  | zero => simp [collectKeys] at h
  | succ rounds ih =>
    unfold collectKeys at h
    split at h
    next hlength =>
      cases Except.ok.inj h
      rwa [hlength] at hle
    next =>
      simp only [bind_eq_ok] at h
      obtain ⟨⟨drawn, rest⟩, hk, h⟩ := h
      split at h
      next => exact ih hle h
      next =>
        simp only [bind_eq_ok] at h
        obtain ⟨buffer, hb, h⟩ := h
        obtain ⟨hi, rfl⟩ := writeAt_ok hb
        have hi' : uniqueKeys.length < (w.keysBuffer.set uniqueKeys.length drawn).length := by
          simpa using hi
        have hle' : ∀ key ∈ (w.keysBuffer.set uniqueKeys.length drawn).take
            (uniqueKeys.length + 1), key ≤ w.upsertKeySequenceGenerator.last := by
          intro key hkey
          simp only [List.take_succ_eq_append_getElem hi', List.mem_append,
            List.getElem_set_self, List.mem_singleton, List.take_set_of_le le_rfl] at hkey
          rcases hkey with hkey | rfl
          · exact hle key hkey
          · exact generateKey_le hk
        have hrest := ih (by exact hle') h
        exact hrest

theorem perform_requests_le {w w' : Worker} {kind : OperationKind} {draws : Draws}
    {calls : List AccessorCall} (h : w.perform draws kind = .ok (calls, w')) :
    ∀ key ∈ requestedKeys calls, key ≤ w.upsertKeySequenceGenerator.last := by
  intro key hkey
  cases kind with
  | upsert =>
    simp only [perform, doUpsert, bind_eq_ok] at h
    obtain ⟨_, _, _, _, h⟩ := h
    cases Except.ok.inj h
    simp [requestedKeys, AccessorCall.requestedKeys] at hkey
  | update | rangeSelect =>
    simp only [perform, doUpdate, doRangeSelect, bind_eq_ok] at h
    obtain ⟨⟨_, _⟩, hk, _, _, h⟩ := h
    cases Except.ok.inj h
    obtain rfl := List.mem_singleton.mp hkey
    exact generateKey_le hk
  | remove | read =>
    simp only [perform, doRemove, doRead, bind_eq_ok] at h
    obtain ⟨⟨_, _⟩, hk, h⟩ := h
    cases Except.ok.inj h
    obtain rfl := List.mem_singleton.mp hkey
    exact generateKey_le hk
  | readModifyWrite =>
    simp only [perform, doReadModifyWrite, bind_eq_ok] at h
    obtain ⟨⟨read, _⟩, hk, _, _, h⟩ := h
    cases Except.ok.inj h
    have heq : key = read := by
      simpa [requestedKeys, AccessorCall.requestedKeys] using hkey
    rw [heq]
    exact generateKey_le hk
  | batchUpsert | bulkLoad =>
    simp only [perform, doBatchUpsert, doBulkLoad, insertMany, bind_eq_ok] at h
    obtain ⟨_, _, _, _, h⟩ := h
    cases Except.ok.inj h
    simp [requestedKeys, AccessorCall.requestedKeys] at hkey
  | batchRead =>
    simp only [perform, doBatchRead, generateBatchReadKeys, bind_eq_ok] at h
    obtain ⟨_, ⟨_, _, w1, hc, hk⟩, h⟩ := h
    cases Except.ok.inj hk
    cases Except.ok.inj h
    have hbatch := collectKeys_le (by simp) hc
    exact hbatch key (by simpa [requestedKeys, AccessorCall.requestedKeys] using hkey)
  | scan =>
    cases Except.ok.inj h
    simp [requestedKeys, AccessorCall.requestedKeys] at hkey

/-- A bound that handing out keys does not move bounds the requests of a whole run. -/
theorem run_requests_le {w w' : Worker} {bound : UInt64}
    {operations : List (OperationKind × Draws)} {calls : List AccessorCall}
    (hack : w.acknowledgedKeyGenerator = none)
    (hlast : ∀ n, (w.upsertKeySequenceGenerator.advance n).last = bound)
    (h : w.run operations = .ok (calls, w')) : ∀ key ∈ requestedKeys calls, key ≤ bound := by
  induction operations generalizing w calls with
  | nil =>
    cases Except.ok.inj h
    simp [requestedKeys]
  | cons operation operations ih =>
    obtain ⟨first, w1, rest, hp, ⟨hands, _⟩, hr, rfl⟩ := run_cons hack h
    intro key hkey
    rcases List.mem_append.mp ((requestedKeys_append first rest) ▸ hkey) with hkey | hkey
    · have hle := perform_requests_le hp key hkey
      rwa [show w.upsertKeySequenceGenerator.last = bound from hlast 0] at hle
    · have hnext : ∀ n, (w1.upsertKeySequenceGenerator.advance n).last = bound := by
        intro n
        rw [hands.sequence, ← KeySequence.advance_add]
        exact hlast _
      exact ih hands.acknowledged hnext hr key hkey

end Worker

/-- A database loaded by one insertion alone, from key zero and with one length,
and then one worker of any other workload that counts on no more records than
the load has keys. -/
structure LoadedReader where
  load : Workload
  kind : OperationKind
  loadThreads : UInt64
  runs : List (InsertRun load kind)
  workload : Workload
  threads : UInt64
  slice : Workload
  worker : Worker
  worker' : Worker
  operations : List (OperationKind × Draws)
  calls : List AccessorCall
  insertsOnly : load.InsertsOnlyBy kind
  fixedLength : load.minInsertLength kind = load.maxInsertLength kind
  loadStart : load.startKey = 0
  slices : runs.map InsertRun.slice = splitWorkloadIntoThreads load loadThreads
  loadThreads_pos : 0 < loadThreads
  mixed : ¬workload.InsertOnly
  start : workload.startKey = 0
  enough : workload.dbRecordsCount.toNat ≤
    load.dbOperationsCount.toNat * (load.maxInsertLength kind).toNat
  threads_pos : 0 < threads
  dealt : slice ∈ splitWorkloadIntoThreads workload threads
  made : Worker.make slice = .ok worker
  ran : worker.run operations = .ok (calls, worker')

namespace LoadedReader

def loadedKeys (s : LoadedReader) : List UInt64 := s.runs.flatMap InsertRun.keys

/-- What `generate_key` returned during the operations or can return after them. -/
def Returns (s : LoadedReader) (key : UInt64) : Prop :=
  key ∈ requestedKeys s.calls ∨ ∃ draws rest, s.worker'.generateKey draws = .ok (key, rest)

theorem loadedKeys_eq (s : LoadedReader) : s.loadedKeys =
    words 0 (insertCapacity s.load s.kind (splitWorkloadIntoThreads s.load s.loadThreads)) := by
  unfold loadedKeys
  rw [runs_keys_full s.insertsOnly s.slices s.fixedLength, s.loadStart]

theorem records_le_capacity (s : LoadedReader) : s.workload.dbRecordsCount.toNat ≤
    insertCapacity s.load s.kind (splitWorkloadIntoThreads s.load s.loadThreads) :=
  s.enough.trans (Nat.mul_le_mul_right _ (split_operations_sum_ge s.loadThreads_pos))

theorem slice_isSliceOf (s : LoadedReader) : s.slice.IsSliceOf s.workload :=
  isSliceOf_of_mem_split s.dealt

theorem returned_le (s : LoadedReader) {key : UInt64} (h : s.Returns key) :
    key ≤ s.workload.dbRecordsCount - 1 := by
  have hmixed : ¬s.slice.InsertOnly := by
    rw [s.slice_isSliceOf.insertOnly_iff]
    exact s.mixed
  rw [← s.slice_isSliceOf.dbRecordsCount]
  rcases h with h | ⟨draws, rest, h⟩
  · have hlast : ∀ n, (s.worker.upsertKeySequenceGenerator.advance n).last =
        s.slice.dbRecordsCount - 1 := by
      intro n
      rw [Worker.make_mixed hmixed s.made, KeySequence.advance_last_acknowledged]
      rfl
    exact Worker.run_requests_le (Worker.make_spec s.made).1 hlast s.ran key h
  · have hle := Worker.generateKey_le h
    rwa [mixed_last hmixed s.made s.ran] at hle

/-- No worker's bound ever moves, so the keys it inserts itself are never asked for. -/
theorem returned_key_loaded (s : LoadedReader) (hrecords : 0 < s.workload.dbRecordsCount)
    {key : UInt64} (h : s.Returns key) : key ∈ s.loadedKeys := by
  have hle := UInt64.le_iff_toNat_le.mp (s.returned_le h)
  have hpos := UInt64.lt_iff_toNat_lt.mp hrecords
  have hone : (1 : UInt64) ≤ s.workload.dbRecordsCount := UInt64.le_iff_toNat_le.mpr hpos
  rw [UInt64.toNat_sub_of_le _ _ hone, UInt64.toNat_one] at hle
  have hcapacity := s.records_le_capacity
  rw [s.loadedKeys_eq]
  apply mem_words_from_zero
  simp only [UInt64.toNat_zero] at hpos
  omega

/-- Two upserts, one on each of two threads. -/
def upsertLoad : Workload :=
  { name := "Init", dbRecordsCount := 2, dbOperationsCount := 2, upsertProportion := 1,
    valueLength := 8 }

theorem upsertLoad_insertsOnlyBy : upsertLoad.InsertsOnlyBy .upsert where
  inserts := by decide
  proportion_one := rfl
  proportion_zero := by
    intro other h
    cases other <;> first | rfl | exact absurd rfl h

def upsertLoadRun (key : UInt64)
    (h : threadKeys { upsertLoad with recordsCount := 1, operationsCount := 1, startKey := key }
      [(.upsert, {})] = .ok [key]) : InsertRun upsertLoad .upsert :=
  { slice := { upsertLoad with recordsCount := 1, operationsCount := 1, startKey := key }
    operations := [(.upsert, {})]
    keys := [key]
    count := rfl
    kinds := by decide
    lengths := by decide
    completes := h }

def soleSlice (records : UInt64) : Workload :=
  { readUpsert records with recordsCount := records, operationsCount := 2 }

/-- One read of the key `value` by the only worker over `records` records. -/
def readAfterLoad (records value : UInt64) (henough : records.toNat ≤ 2)
    (hsplit : splitWorkloadIntoThreads (readUpsert records) 1 = [soleSlice records])
    (hread : (readUpsertWorker (soleSlice records)).generateKey [{ value := value }] =
      .ok (value, [])) : LoadedReader where
  load := upsertLoad
  kind := .upsert
  loadThreads := 2
  runs := [upsertLoadRun 0 (by decide), upsertLoadRun 1 (by decide)]
  workload := readUpsert records
  threads := 1
  slice := soleSlice records
  worker := readUpsertWorker (soleSlice records)
  worker' := readUpsertWorker (soleSlice records)
  operations := [(.read, { keys := [{ value := value }] })]
  calls := [.read value (readUpsertWorker (soleSlice records)).valueBuffer]
  insertsOnly := upsertLoad_insertsOnlyBy
  fixedLength := rfl
  loadStart := rfl
  slices := by decide
  loadThreads_pos := by decide
  mixed := by
    change ¬(readUpsert 0).InsertOnly
    decide
  start := rfl
  enough := henough
  threads_pos := by decide
  dealt := by simp [hsplit]
  made := readUpsert_make ⟨records, 2, 0, rfl⟩
  ran := by
    simp only [Worker.run, Worker.perform, Worker.doRead, bind_eq_ok]
    exact ⟨_, ⟨_, hread, rfl⟩, _, rfl, rfl⟩

theorem readAfterLoad_returned_key_loaded :
    1 ∈ (readAfterLoad 2 1 (by decide) (by decide) (by decide)).loadedKeys :=
  returned_key_loaded (readAfterLoad 2 1 (by decide) (by decide) (by decide)) (by decide)
    (Or.inl (by decide))

/-- Without records the bound is the largest word, and any key may be asked for. -/
theorem returned_key_not_loaded :
    ¬∀ (s : LoadedReader) (key : UInt64), s.Returns key →
      key ∈ s.loadedKeys ∨ key ∈ insertedKeys s.calls := by
  intro h
  have hkey := h (readAfterLoad 0 5 (by decide) (by decide) (by decide)) 5 (Or.inl (by decide))
  exact absurd hkey (by decide)

end LoadedReader

end Ucsb
