import Ucsb.AccessorContract
import Ucsb.DisjointCopies
import Ucsb.RocksDbBatchRead
import Ucsb.RocksDbBulkLoad

namespace Ucsb

open scoped WordBytes

open RequestRun BinaryRounding BalancedShare

/-- What `rocksdb_t` is asked for. -/
inductive RocksRequest
  | data (operation : DataOperation)
  | batchRead (keys : List UInt64)

/-- A call of a thread, the size of the span that it hands over for values to be read, and
what the engine returns to it. -/
structure RocksCall where
  thread : ℕ
  request : RocksRequest
  span : ℕ := 0
  statuses : SstStatuses := {}

/-- A database, and the buffers of the threads for their batch reads. -/
structure RocksSession where
  db : RocksDb
  buffers : ℕ → BatchBuffers := fun _ => {}

/-- The values that are handed over. -/
def RocksRequest.written : RocksRequest → List Bytes
  | .data (.point (.upsert _ value)) | .data (.point (.update _ value)) => [value]
  | .data (.batchUpsert batch) | .data (.bulkLoad batch) => batch.entries.map Prod.snd
  | _ => []

/-- The number of values that a span has room for. -/
def RocksRequest.room : RocksRequest → ℕ
  | .data (.point (.read _)) | .data (.scan _ _) => 1
  | .data (.rangeSelect _ length) => length.toNat
  | .batchRead keys => keys.length
  | _ => 0

/-- The call that a worker makes, with bytes in its values. -/
def RocksCall.CarriesOut (call : RocksCall) : AccessorCall → Prop
  | .upsert key value => ∃ bytes, call.request = .data (.point (.upsert key bytes)) ∧
      bytes.length = value.toNat ∧ call.span = 0
  | .update key value => ∃ bytes, call.request = .data (.point (.update key bytes)) ∧
      bytes.length = value.toNat ∧ call.span = 0
  | .remove key => call.request = .data (.point (.remove key)) ∧ call.span = 0
  | .read key value => call.request = .data (.point (.read key)) ∧ call.span = value.toNat
  | .batchUpsert keys values sizes => ∃ batch, call.request = .data (.batchUpsert batch) ∧
      batch.keys = keys ∧ batch.values.length = values.toNat ∧ batch.sizes = sizes ∧
        call.span = 0
  | .batchRead keys values => call.request = .batchRead keys ∧ call.span = values.toNat
  | .bulkLoad keys values sizes => ∃ batch, call.request = .data (.bulkLoad batch) ∧
      batch.keys = keys ∧ batch.values.length = values.toNat ∧ batch.sizes = sizes ∧
        call.span = 0
  | .rangeSelect key length values =>
    call.request = .data (.rangeSelect key length) ∧ call.span = values.toNat
  | .scan key length singleValue =>
    call.request = .data (.scan key length) ∧ call.span = singleValue.toNat

/-- Calls that the workers of a workload make, each thread those of one worker in its order. -/
def Executes (threadsCount : UInt64) (w : Workload) (calls : List RocksCall) : Prop :=
  ∀ call ∈ calls, ∃ slice ∈ splitWorkloadIntoThreads w threadsCount,
    ∃ worker operations made worker', Worker.make slice = .ok worker ∧
      (∀ operation ∈ operations, LengthConfigured w operation) ∧
      worker.run operations = .ok (made, worker') ∧
      List.Forall₂ RocksCall.CarriesOut (calls.filter fun other => other.thread = call.thread)
        made

namespace RocksSession

/-- One call, in a program whose threads have these ids. -/
def step (threadId : ℕ → String) (s : RocksSession) (call : RocksCall) :
    Reply Bytes × RocksSession :=
  match call.request with
  | .batchRead keys =>
    let (reply, buffers) := s.db.batchRead (s.buffers call.thread) keys
    (reply, { s with buffers := Function.update s.buffers call.thread buffers })
  | .data (.bulkLoad batch) =>
    let (reply, db) := s.db.bulkLoad (threadId call.thread) batch call.statuses
    (reply, { s with db := db })
  | .data operation =>
    let (reply, db) := s.db.step (threadId call.thread) operation
    (reply, { s with db := db })

/-- Every copy of the call goes into its span. -/
def CopiesInside (threadId : ℕ → String) (s : RocksSession) (call : RocksCall) : Prop :=
  ∀ copy ∈ (s.step threadId call).1.copies, copy.Inside call.span

/-- The keys that longer batches of the thread left behind those of a shorter one. -/
def stale (s : RocksSession) (thread : ℕ) (keys : List UInt64) : List Bytes :=
  (s.buffers thread).keySlices.drop keys.length

/-- The stored values that a call comes to fit into its span: one by one, or in a row. -/
def Fits (s : RocksSession) (call : RocksCall) : Prop :=
  match call.request with
  | .data (.point (.read key)) =>
    ∀ value, s.db.store.get (bigEndianKey key) = some value → value.length ≤ call.span
  | .data (.scan key length) =>
    ∀ e ∈ (s.db.store.seek (bigEndianKey key)).take length.toNat, e.2.length ≤ call.span
  | .data (.rangeSelect key length) =>
    (((s.db.store.seek (bigEndianKey key)).take length.toNat).map fun e => e.2.length).sum ≤
      call.span
  | .batchRead keys =>
    ((presentValues s.db.store (keys.map bigEndianKey ++ s.stale call.thread keys)).map
      List.length).sum ≤ call.span
  | _ => True

/-- No longer batch of the thread came before. -/
def NothingStale (s : RocksSession) (call : RocksCall) : Prop :=
  ∀ keys, call.request = .batchRead keys → s.stale call.thread keys = []

/-- The buffers of each thread are as long as each other. -/
def BuffersHold (s : RocksSession) : Prop := ∀ thread, ∃ scratch, (s.buffers thread).Holds scratch

end RocksSession

/-- The values and the span of a call are as long as the workload makes them. -/
structure RocksCall.Within (w : Workload) (call : RocksCall) : Prop where
  written : ∀ value ∈ call.request.written, value.length ≤ w.valueLength.toNat
  span : call.span = call.request.room * alignedLength w

theorem Batch.length_of_mem_entries {batch : Batch} {value : Bytes}
    (h : value ∈ batch.entries.map Prod.snd) : ∃ size ∈ batch.sizes, value.length = size.toNat := by
  have hpieces : batch.entries.map Prod.snd =
      (batch.sizes.map UInt32.toNat).splitLengths batch.values := by
    rw [entries, List.map_snd_zip]
    simp [batch.sizes_length]
  have hlengths : ((batch.sizes.map UInt32.toNat).splitLengths batch.values).map List.length =
      batch.sizes.map UInt32.toNat := List.map_splitLengths_length _ _ batch.sizes_sum.le
  rw [hpieces] at h
  have hmem := List.mem_map_of_mem (f := List.length) h
  rw [hlengths] at hmem
  obtain ⟨size, hsize, heq⟩ := List.mem_map.mp hmem
  exact ⟨size, hsize, heq.symm⟩

theorem SizesHonoured.length_le {w : Workload} {batch : Batch} {values : UInt64}
    (h : SizesHonoured w batch.keys values batch.sizes) :
    ∀ value ∈ batch.entries.map Prod.snd, value.length ≤ w.valueLength.toNat := by
  intro value hvalue
  obtain ⟨size, hsize, heq⟩ := Batch.length_of_mem_entries hvalue
  rw [heq]
  exact UInt32.le_iff_toNat_le.mp (h.bounds size hsize).2

/-- A call that carries out one which keeps to the interface is within the workload. -/
theorem RocksCall.CarriesOut.within {call : RocksCall} {made : AccessorCall} {worker : Worker}
    (h : call.CarriesOut made) (hmade : made.Honours worker) : call.Within worker.workload := by
  obtain ⟨thread, request, span, statuses⟩ := call
  cases made with
  | upsert key value | update key value =>
    obtain ⟨bytes, rfl, hlength, rfl⟩ := h
    exact ⟨List.forall_mem_singleton.mpr (hlength.trans_le hmade.2.1), (Nat.zero_mul _).symm⟩
  | remove key =>
    obtain ⟨rfl, rfl⟩ := h
    exact ⟨List.forall_mem_nil _, (Nat.zero_mul _).symm⟩
  | read key value =>
    obtain ⟨rfl, rfl⟩ := h
    exact ⟨List.forall_mem_nil _, hmade.1⟩
  | rangeSelect key length value | scan key length value =>
    obtain ⟨rfl, rfl⟩ := h
    exact ⟨List.forall_mem_nil _, hmade.1⟩
  | batchRead keys values =>
    obtain ⟨rfl, rfl⟩ := h
    exact ⟨List.forall_mem_nil _, hmade.1⟩
  | batchUpsert keys values sizes | bulkLoad keys values sizes =>
    obtain ⟨batch, rfl, rfl, -, rfl, rfl⟩ := h
    exact ⟨hmade.1.length_le, (Nat.zero_mul _).symm⟩

theorem exists_of_forall₂ {α β : Type} {R : α → β → Prop} {l : List α} {l' : List β}
    (h : List.Forall₂ R l l') {a : α} (ha : a ∈ l) : ∃ b ∈ l', R a b := by
  induction h with
  | nil => simp at ha
  | cons hR _ ih =>
    rcases List.mem_cons.mp ha with rfl | ha
    · exact ⟨_, List.mem_cons_self, hR⟩
    · obtain ⟨b, hb, hRb⟩ := ih ha
      exact ⟨b, List.mem_cons_of_mem _ hb, hRb⟩

theorem Executes.within {threadsCount : UInt64} {w : Workload} {calls : List RocksCall}
    (h : Executes threadsCount w calls) (hvalid : ValidateWorkload w threadsCount)
    (hsize : (elementsMaxCount w).toNat * alignedLength w < 2 ^ 64) :
    ∀ call ∈ calls, call.Within w := by
  intro call hcall
  obtain ⟨slice, hslice, worker, operations, made, worker', hmake, hlengths, hrun, hcarries⟩ :=
    h call hcall
  obtain ⟨-, hworkload, -⟩ := Worker.make_spec hmake
  have hmade := ((slice_run_ensures hvalid hslice hmake hsize hlengths).apply hrun).2
  have hown : call ∈ calls.filter fun other => other.thread = call.thread :=
    List.mem_filter.mpr ⟨hcall, decide_eq_true rfl⟩
  obtain ⟨accessorCall, hmem, hcarried⟩ := exists_of_forall₂ hcarries hown
  obtain ⟨hwritten, hspan⟩ := hcarried.within (hmade accessorCall hmem)
  rw [hworkload] at hwritten hspan
  obtain ⟨_, _, _, rfl⟩ := isSliceOf_of_mem_split hslice
  exact ⟨hwritten, hspan⟩

namespace RocksDb

variable {db : RocksDb} {threadId : String} {batch : Batch} {e : Bytes × Bytes}

theorem mem_of_mem_put {keySlice value : Bytes}
    (h : e ∈ (db.put keySlice value).2.store.entries) : e ∈ db.store.entries ∨ e.2 = value := by
  rcases SortedMap.mem_put.mp h with rfl | hold
  · exact Or.inr rfl
  · exact Or.inl hold.1

theorem mem_of_mem_pointStep {operation : PointOperation}
    (h : e ∈ (db.pointStep operation).2.store.entries) :
    e ∈ db.store.entries ∨ e.2 ∈ (RocksRequest.data (.point operation)).written := by
  cases operation with
  | upsert key value => exact (mem_of_mem_put h).imp_right List.mem_singleton.mpr
  | update key value =>
    rw [pointStep, update] at h
    dsimp only at h
    split at h
    next => exact Or.inl h
    next =>
      split at h
      next => exact Or.inl h
      next => exact (mem_of_mem_put h).imp_right List.mem_singleton.mpr
  | remove key => exact Or.inl (List.mem_of_mem_filter h)
  | read key => exact Or.inl h

theorem mem_of_mem_putAll
    (h : e ∈ (db.store.putAll (batch.entries.map (Prod.map bigEndianKey id))).entries) :
    e ∈ db.store.entries ∨ e.2 ∈ batch.entries.map Prod.snd := by
  refine (SortedMap.mem_or_mem_of_mem_putAll h).imp_right fun hmem => ?_
  obtain ⟨x, hx, rfl⟩ := List.mem_map.mp hmem
  exact List.mem_map_of_mem hx

/-- Whatever the engine returns, a bulk load stores values of its batch or nothing. -/
theorem bulkLoad_store (db : RocksDb) (threadId : String) (batch : Batch)
    (statuses : SstStatuses) :
    (db.bulkLoad threadId batch statuses).1.copies = [] ∧
      ((db.bulkLoad threadId batch statuses).2.store = db.store ∨
        (db.bulkLoad threadId batch statuses).2.store =
          db.store.putAll (batch.entries.map (Prod.map bigEndianKey id))) := by
  by_cases hkeys : batch.keys = []
  · rw [bulkLoad, if_pos hkeys]
    exact ⟨rfl, Or.inl rfl⟩
  · by_cases hopen : statuses.openFile = .ok
    · by_cases hput : (sstLoop statuses.put 0 batch.slices []).1 = .ok
      · by_cases hfinish : statuses.finish = .ok
        · rw [bulkLoad_of_finished hkeys hopen hput hfinish, ingestFiles, ingestExternalFile,
            if_neg (List.cons_ne_nil _ _)]
          by_cases hingest : statuses.ingest = .ok
          · simp [hingest]
          · simp [hingest, Reply.ofStatus]
        · rw [bulkLoad_of_finish hkeys hopen hput hfinish]
          refine ⟨rfl, Or.inl ?_⟩
          dsimp only
          split
          next => rfl
          next => rfl
      · rw [bulkLoad_of_put hkeys hopen hput]
        exact ⟨rfl, Or.inl rfl⟩
    · rw [bulkLoad_of_open hkeys hopen]
      exact ⟨rfl, Or.inl rfl⟩

end RocksDb

namespace RocksSession

variable {threadId : ℕ → String} {s : RocksSession} {call : RocksCall}

/-- What is stored after a call was there before it or is handed over by it. -/
theorem mem_of_mem_step {e : Bytes × Bytes}
    (h : e ∈ (s.step threadId call).2.db.store.entries) :
    e ∈ s.db.store.entries ∨ e.2 ∈ call.request.written := by
  obtain ⟨thread, request, span, statuses⟩ := call
  cases request with
  | batchRead keys => exact Or.inl h
  | data operation =>
    cases operation with
    | point operation => exact RocksDb.mem_of_mem_pointStep h
    | batchUpsert batch =>
      change e ∈ (s.db.store.putAll (RocksDb.writeBatch batch.slices)).entries at h
      rw [Batch.slices_eq, RocksDb.writeBatch_eq] at h
      exact RocksDb.mem_of_mem_putAll h
    | bulkLoad batch =>
      change e ∈ (s.db.bulkLoad (threadId thread) batch statuses).2.store.entries at h
      rcases (RocksDb.bulkLoad_store s.db (threadId thread) batch statuses).2 with hkept | hloaded
      · rw [hkept] at h
        exact Or.inl h
      · rw [hloaded] at h
        exact RocksDb.mem_of_mem_putAll h
    | rangeSelect key length => exact Or.inl h
    | scan key length => exact Or.inl h

theorem BuffersHold.step (h : s.BuffersHold) : (s.step threadId call).2.BuffersHold := by
  obtain ⟨thread, request, span, statuses⟩ := call
  cases request with
  | batchRead keys =>
    intro other
    by_cases hother : other = thread
    · subst other
      obtain ⟨scratch, hscratch⟩ := h thread
      refine ⟨keys ++ scratch.drop keys.length, ?_⟩
      change BatchBuffers.Holds (Function.update s.buffers thread
        (rocksBatchRead s.db.store (s.buffers thread) keys).2 thread) _
      rw [Function.update_self]
      exact (rocksBatchRead_spec hscratch keys).2
    · obtain ⟨scratch, hscratch⟩ := h other
      refine ⟨scratch, ?_⟩
      change BatchBuffers.Holds (Function.update s.buffers thread
        (rocksBatchRead s.db.store (s.buffers thread) keys).2 other) _
      rwa [Function.update_of_ne hother]
  | data operation => cases operation <;> exact h

/-- A batch read comes to its own keys, and to those that are stale. -/
theorem batchRead_inside_iff (h : s.BuffersHold) {thread span : ℕ} {keys : List UInt64} :
    (∀ copy ∈ (rocksBatchRead s.db.store (s.buffers thread) keys).1.copies,
      copy.Inside span) ↔
      ((presentValues s.db.store (keys.map bigEndianKey ++ s.stale thread keys)).map
        List.length).sum ≤ span := by
  obtain ⟨scratch, hscratch⟩ := h thread
  have hslices : (keys ++ scratch.drop keys.length).map bigEndianKey =
      keys.map bigEndianKey ++ s.stale thread keys := by
    rw [stale, hscratch.keySlices, List.map_append, List.map_drop]
  rw [(rocksBatchRead_spec hscratch keys).1, ownReply, hslices]
  dsimp only
  rw [Copy.consecutiveCopies_inside_iff]
  omega

theorem rangeLoop_inside_iff {advance : ℕ → Bytes → ℕ} {length : UInt64} {span : ℕ}
    {entries : List (Bytes × Bytes)} :
    (∀ copy ∈ (rangeLoop advance length 0 0 entries).copies, copy.Inside span) ↔
      ∀ copy ∈ placedCopies advance 0 ((entries.take length.toNat).map Prod.snd),
        copy.Inside span := by
  rw [rangeLoop_eq (Nat.zero_le _)]
  exact Iff.rfl

theorem rangeSelect_inside_iff {store : ByteMap} {key length : UInt64} {span : ℕ} :
    (∀ copy ∈ (rocksRangeSelect store key length).copies, copy.Inside span) ↔
      (((store.seek (bigEndianKey key)).take length.toNat).map fun e => e.2.length).sum ≤
        span := by
  have hlengths : ∀ entries : List (Bytes × Bytes),
      (entries.map Prod.snd).map List.length = entries.map fun e => e.2.length :=
    fun entries => List.map_map
  rw [rocksRangeSelect, toSlice_fst, rangeLoop_inside_iff, placedCopies_exported,
    Copy.consecutiveCopies_inside_iff, hlengths]
  omega

theorem scan_inside_iff {store : ByteMap} {key length : UInt64} {span : ℕ} :
    (∀ copy ∈ (rocksScan store key length).copies, copy.Inside span) ↔
      ∀ e ∈ (store.seek (bigEndianKey key)).take length.toNat, e.2.length ≤ span := by
  rw [rocksScan, toSlice_fst, rangeLoop_inside_iff, placedCopies_stay, List.map_map,
    List.forall_mem_map]
  exact forall₂_congr fun e _ => Copy.inside_start_iff

theorem copiesInside_iff (h : s.BuffersHold) : s.CopiesInside threadId call ↔ s.Fits call := by
  obtain ⟨thread, request, span, statuses⟩ := call
  cases request with
  | batchRead keys => exact batchRead_inside_iff h
  | data operation =>
    cases operation with
    | point operation =>
      cases operation with
      | upsert key value => exact iff_of_true (List.forall_mem_nil _) trivial
      | update key value =>
        refine iff_of_true ?_ trivial
        change ∀ copy ∈ (s.db.update key value).1.copies, copy.Inside span
        rw [RocksDb.update]
        dsimp only
        split
        next => exact List.forall_mem_nil _
        next =>
          split
          next => exact List.forall_mem_nil _
          next => exact List.forall_mem_nil _
      | remove key => exact iff_of_true (List.forall_mem_nil _) trivial
      | read key =>
        change (∀ copy ∈ (rocksRead s.db.store key).copies, copy.Inside span) ↔
          ∀ value, s.db.store.get (bigEndianKey key) = some value → value.length ≤ span
        cases hget : s.db.store.get (bigEndianKey key) with
        | none => simp [rocksRead, rocksGet, hget, Reply.ofStatus]
        | some value => simp [rocksRead, rocksGet, hget, Copy.inside_start_iff]
    | batchUpsert batch => exact iff_of_true (List.forall_mem_nil _) trivial
    | bulkLoad batch =>
      refine iff_of_true ?_ trivial
      change ∀ copy ∈ (s.db.bulkLoad (threadId thread) batch statuses).1.copies, copy.Inside span
      rw [(RocksDb.bulkLoad_store s.db (threadId thread) batch statuses).1]
      exact List.forall_mem_nil _
    | rangeSelect key length => exact rangeSelect_inside_iff
    | scan key length => exact scan_inside_iff

theorem presentValues_sum_le {store : ByteMap} {limit : ℕ}
    (h : ∀ e ∈ store.entries, e.2.length ≤ limit) (keys : List UInt64) :
    ((presentValues store (keys.map bigEndianKey)).map List.length).sum ≤ keys.length * limit := by
  have hcount : (presentValues store (keys.map bigEndianKey)).length ≤
      (keys.map bigEndianKey).length := List.length_filterMap_le _ _
  rw [List.length_map] at hcount
  refine sum_map_le (fun value hvalue => ?_) hcount
  obtain ⟨keySlice, _, hget⟩ := List.mem_filterMap.mp hvalue
  exact h _ (SortedMap.get_eq_some_iff.mp hget)

/-- Values no longer than what the span has room for fit, when nothing stale adds to them. -/
theorem fits_of_stored {w : Workload} (hwithin : call.Within w)
    (hstored : ∀ e ∈ s.db.store.entries, e.2.length ≤ alignedLength w)
    (hfresh : s.NothingStale call) : s.Fits call := by
  obtain ⟨thread, request, span, statuses⟩ := call
  have hspan : span = request.room * alignedLength w := hwithin.span
  cases request with
  | batchRead keys =>
    have hnone : s.stale thread keys = [] := hfresh keys rfl
    change ((presentValues s.db.store (keys.map bigEndianKey ++ s.stale thread keys)).map
      List.length).sum ≤ span
    rw [hnone, List.append_nil, hspan]
    exact presentValues_sum_le hstored keys
  | data operation =>
    cases operation with
    | point operation =>
      cases operation with
      | read key =>
        have hone : span = alignedLength w := hspan.trans (Nat.one_mul _)
        intro value hget
        exact (hstored _ (SortedMap.get_eq_some_iff.mp hget)).trans_eq hone.symm
      | _ => trivial
    | rangeSelect key length =>
      change (((s.db.store.seek (bigEndianKey key)).take length.toNat).map
        fun e => e.2.length).sum ≤ span
      rw [hspan]
      refine sum_map_le (fun e he => ?_) (List.length_take_le _ _)
      exact hstored e (SortedMap.mem_seek.mp (List.mem_of_mem_take he)).1
    | scan key length =>
      have hone : span = alignedLength w := hspan.trans (Nat.one_mul _)
      intro e he
      exact (hstored e (SortedMap.mem_seek.mp (List.mem_of_mem_take he)).1).trans_eq hone.symm
    | _ => trivial

/-- No stored value is longer than the spans of these workloads are made for. -/
def StoredWithin (s : RocksSession) (plan : List Workload) : Prop :=
  ∀ w ∈ plan, ∀ e ∈ s.db.store.entries, e.2.length ≤ alignedLength w

/-- A call of a workload stores values for its own spans and for those of later workloads. -/
theorem StoredWithin.step {w : Workload} {plan : List Workload} (h : s.StoredWithin (w :: plan))
    (hlater : ∀ later ∈ plan, w.valueLength.toNat ≤ alignedLength later)
    (hcall : call.Within w) : (s.step threadId call).2.StoredWithin (w :: plan) := by
  intro later hmem e he
  rcases mem_of_mem_step he with hold | hnew
  · exact h later hmem e hold
  · have hlength := hcall.written _ hnew
    rcases List.mem_cons.mp hmem with rfl | hmem
    · rw [alignedLength]
      omega
    · exact hlength.trans (hlater later hmem)

/-- What a workload stores fits into the spans of the workloads that come after it. -/
theorem fits_of_plan {threadsCount : UInt64} {plan : List Workload}
    {history : List (List RocksCall)} (hhistory : List.Forall₂ (Executes threadsCount) plan history)
    (hvalid : ∀ w ∈ plan, ValidateWorkload w threadsCount)
    (hsize : ∀ w ∈ plan, (elementsMaxCount w).toNat * alignedLength w < 2 ^ 64)
    (hordered : plan.Pairwise fun w later => w.valueLength.toNat ≤ alignedLength later)
    (hstored : s.StoredWithin plan)
    (hfresh : Throughout (step threadId) NothingStale s history.flatten) :
    Throughout (step threadId) Fits s history.flatten := by
  induction hhistory generalizing s with
  | nil => trivial
  | @cons w calls plan history hexecutes _ ih =>
    rw [List.forall_mem_cons] at hvalid hsize
    rw [List.pairwise_cons] at hordered
    rw [List.flatten_cons, throughout_append] at hfresh ⊢
    have hwithin := hexecutes.within hvalid.1 hsize.1
    have hkept : ∀ (s : RocksSession) (call : RocksCall), s.StoredWithin (w :: plan) →
        call.Within w ∧ s.NothingStale call →
        s.Fits call ∧ (s.step threadId call).2.StoredWithin (w :: plan) :=
      fun s call hs hcall => ⟨fits_of_stored hcall.1 (hs w List.mem_cons_self) hcall.2,
        hs.step hordered.1 hcall.1⟩
    have hall : Throughout (step threadId)
        (fun s call => call.Within w ∧ s.NothingStale call) s calls :=
      (throughout_of_mem hwithin).and hfresh.1
    have hafter := run_of_step (fun s call hs hcall => (hkept s call hs hcall).2) hstored hall
    refine ⟨throughout_of_step hkept hstored hall, ih hvalid.2 hsize.2 hordered.2 ?_ hfresh.2⟩
    exact fun later hlater => hafter later (List.mem_cons_of_mem w hlater)

/-- In every run all copies are inside the spans of their calls if and only if the values that
the calls come to fit into them. They do when no workload writes longer values than the spans of
a later one are made for, and no batch is shorter than one before it on its thread. -/
theorem rocksDb_reads_inside_iff {threadsCount : UInt64} {plan : List Workload}
    {history : List (List RocksCall)} (hhistory : List.Forall₂ (Executes threadsCount) plan history)
    (hvalid : ∀ w ∈ plan, ValidateWorkload w threadsCount)
    (hstart : ∀ thread, s.buffers thread = {}) :
    (Throughout (step threadId) (CopiesInside threadId) s history.flatten ↔
      Throughout (step threadId) Fits s history.flatten) ∧
    ((∀ w ∈ plan, (elementsMaxCount w).toNat * alignedLength w < 2 ^ 64) →
      (plan.Pairwise fun w later => w.valueLength.toNat ≤ alignedLength later) →
      (∀ w ∈ plan, ∀ e ∈ s.db.store.entries, e.2.length ≤ alignedLength w) →
      Throughout (step threadId) NothingStale s history.flatten →
      Throughout (step threadId) (CopiesInside threadId) s history.flatten) := by
  have hbuffers : s.BuffersHold := by
    intro thread
    rw [hstart]
    exact ⟨[], rfl, rfl, rfl, rfl⟩
  have hiff : Throughout (step threadId) (CopiesInside threadId) s history.flatten ↔
      Throughout (step threadId) Fits s history.flatten :=
    throughout_iff_of_step (fun s call hs => ⟨copiesInside_iff hs, hs.step⟩) hbuffers
  refine ⟨hiff, fun hsize hordered hstored hfresh => hiff.mpr ?_⟩
  exact fits_of_plan hhistory hvalid hsize hordered hstored hfresh

end RocksSession

/-- One operation on one record. -/
def oneRecord (kind : OperationKind) (valueLength : UInt32) : Workload :=
  { name := "One", dbRecordsCount := 1, dbOperationsCount := 1,
    upsertProportion := if kind = .upsert then 1 else 0,
    readProportion := if kind = .read then 1 else 0, valueLength := valueLength }

theorem oneRecord_validateWorkload {kind : OperationKind} (hkind : kind = .upsert ∨ kind = .read)
    {valueLength : UInt32} (h : 0 < valueLength) :
    ValidateWorkload (oneRecord kind valueLength) 1 where
  threads := by decide
  name := by simp [oneRecord]
  records := show (0 : UInt64) < 1 by decide
  operations := show (0 : UInt64) < 1 by decide
  proportion := by
    have hone : roundTo 24 1 = 1 := roundTo_one (by decide)
    rcases hkind with rfl | rfl
    · simp [proportionSum, oneRecord, hone]
    · simp [proportionSum, oneRecord, roundTo_zero, hone]
  valueLength := h
  keyDist := by simp [oneRecord]
  batchUpsert := lengthsValid_unused _
  batchRead := lengthsValid_unused _
  bulkLoad := lengthsValid_unused _
  rangeSelect := lengthsValid_unused _

def upsertCall (bytes : Bytes) : RocksCall :=
  { thread := 0, request := .data (.point (.upsert 0 bytes)) }

def readCall (span : ℕ) : RocksCall :=
  { thread := 0, request := .data (.point (.read 0)), span := span }

theorem executes_upsert {bytes : Bytes} (h : bytes.length = 32768) :
    Executes 1 (oneRecord .upsert 32768) [upsertCall bytes] := by
  rw [Executes, List.forall_mem_singleton]
  refine ⟨{ oneRecord .upsert 32768 with recordsCount := 1, operationsCount := 1 }, by decide,
    _, [(.upsert, { valueLengths := fun _ => 32768 })], _, _, rfl, by simp [LengthConfigured], rfl,
    ?_⟩
  exact .cons ⟨bytes, rfl, h, rfl⟩ .nil

theorem executes_read (valueLength : UInt32) (hslice : { oneRecord .read valueLength with
      recordsCount := 1, operationsCount := 1 } ∈
        splitWorkloadIntoThreads (oneRecord .read valueLength) 1) :
    Executes 1 (oneRecord .read valueLength)
      [readCall (1 * roundupToMultiple alignment valueLength.toUInt64).toNat] := by
  rw [Executes, List.forall_mem_singleton]
  refine ⟨_, hslice, _, [(.read, { keys := [{ value := 0 }] })], _, _, rfl,
    by simp [LengthConfigured], rfl, ?_⟩
  exact .cons ⟨rfl, rfl⟩ .nil

open RocksSession

/-- A value of 32768 bytes is copied into the span for one of 1024. -/
theorem rocksDb_read_overflows : ∃ bytes : Bytes,
    (∀ w ∈ [oneRecord .upsert 32768, oneRecord .read 1024], ValidateWorkload w 1) ∧
      List.Forall₂ (Executes 1) [oneRecord .upsert 32768, oneRecord .read 1024]
        [[upsertCall bytes], [readCall 4096]] ∧
      ¬Throughout (step fun _ => "") (CopiesInside fun _ => "") { db := { store := ∅ } }
        [upsertCall bytes, readCall 4096] := by
  have hlength : (List.replicate 32768 (0 : UInt8)).length = 32768 := List.length_replicate
  refine ⟨List.replicate 32768 0, List.forall_mem_cons.mpr
    ⟨oneRecord_validateWorkload (Or.inl rfl) (by decide), List.forall_mem_singleton.mpr
      (oneRecord_validateWorkload (Or.inr rfl) (by decide))⟩,
    .cons (executes_upsert hlength) (.cons (executes_read 1024 (by decide)) .nil), ?_⟩
  generalize List.replicate 32768 (0 : UInt8) = bytes at hlength
  rintro ⟨-, hread, -⟩
  have hcopy := hread { offset := 0, data := bytes } (List.mem_singleton.mpr rfl)
  have hle : bytes.length ≤ 4096 := Copy.inside_start_iff.mp hcopy
  omega

theorem rocksDb_reads_inside_same : ∃ bytes : Bytes,
    Throughout (step fun _ => "") (CopiesInside fun _ => "") { db := { store := ∅ } }
      [upsertCall bytes, readCall 32768] := by
  have hlength : (List.replicate 32768 (0 : UInt8)).length = 32768 := List.length_replicate
  have h := @rocksDb_reads_inside_iff (fun _ => "") { db := { store := ∅ } } 1 _ _
    (.cons (executes_upsert hlength) (.cons (executes_read 32768 (by decide)) .nil))
    (List.forall_mem_cons.mpr ⟨oneRecord_validateWorkload (Or.inl rfl) (by decide),
      List.forall_mem_singleton.mpr (oneRecord_validateWorkload (Or.inr rfl) (by decide))⟩)
    fun _ => rfl
  refine ⟨List.replicate 32768 0, h.2 ?_ ?_ ?_ ?_⟩
  · exact List.forall_mem_cons.mpr ⟨by decide, List.forall_mem_singleton.mpr (by decide)⟩
  · exact List.pairwise_pair.mpr (by decide)
  · exact fun _ _ => List.forall_mem_nil _
  · exact ⟨fun _ hrequest => (by cases hrequest), fun _ hrequest => (by cases hrequest), trivial⟩

end Ucsb
