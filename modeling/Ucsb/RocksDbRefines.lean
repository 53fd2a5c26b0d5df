import Ucsb.RocksDb
import Ucsb.RequestRun

namespace Ucsb

open scoped WordBytes
open RequestRun

@[simp] theorem toSlice_fst (key : UInt64) : (toSlice key).1 = bigEndianKey key :=
  keyBytes_bswap64 key

variable {m : KeyMap} {store : ByteMap} {key length : UInt64}
  {value : Bytes}

theorem rocksGet_rekey : rocksGet (m.rekey bigEndianKey) (bigEndianKey key) =
    match m.get key with
    | some data => (.ok, data)
    | none => (.notFound, []) := by
  cases hget : m.get key with
  | none => rw [rocksGet, SortedMap.get_rekey bigEndianKey_injective, hget]
  | some data => rw [rocksGet, SortedMap.get_rekey bigEndianKey_injective, hget]

theorem rocksRead_rekey (absent : OperationStatus) :
    rocksRead (m.rekey bigEndianKey) key =
    (pointStep absent m (.read key)).1.encode bigEndianKey := by
  rw [rocksRead, toSlice_fst, rocksGet_rekey, pointStep]
  cases m.get key with
  | none => rfl
  | some data => rfl

theorem rocksRangeSelect_rekey (absent : OperationStatus) :
    rocksRangeSelect (m.rekey bigEndianKey) key length =
    (mapStep absent m (.rangeSelect key length)).1.encode bigEndianKey := by
  rw [rocksRangeSelect, toSlice_fst, SortedMap.seek_rekey bigEndianKey_strictMono]
  exact rangeLoop_encode (placedCopies_exported 0) length (m.seek key)

theorem rocksScan_rekey (absent : OperationStatus) :
    rocksScan (m.rekey bigEndianKey) key length =
    (mapStep absent m (.scan key length)).1.encode bigEndianKey := by
  rw [rocksScan, toSlice_fst, SortedMap.seek_rekey bigEndianKey_strictMono]
  exact rangeLoop_encode (placedCopies_stay 0) length (m.seek key)

/-- A removal that is answered `ok` either way. -/
theorem pointStep_remove_ok :
    pointStep .ok m (.remove key) = (.ofStatus .ok, m.erase key) := by
  rw [pointStep]
  cases h : m.get key with
  | none => rw [SortedMap.erase_of_get_none h]
  | some data => rfl

/-- A read leaves exactly the stored bytes in front of a span that holds them. -/
theorem rocksRead_written {span : Bytes} (hget : m.get key = some value)
    (hspan : value.length ≤ span.length) :
    (rocksRead (m.rekey bigEndianKey) key).written span = value ++ span.drop value.length := by
  rw [rocksRead_rekey .ok, pointStep, hget]
  show (consecutiveCopies 0 [value]).foldl Copy.write span = _
  rw [consecutiveCopies_written (by simpa using hspan)]
  simp

namespace RocksDb

variable {db : RocksDb} {batch : Batch}

/-- The database holds the map under the encoded keys. -/
def Holds (db : RocksDb) (m : KeyMap) : Prop := db.store = m.rekey bigEndianKey

theorem writeBatch_eq (entries : List (UInt64 × Bytes)) :
    writeBatch entries = entries.map (Prod.map bigEndianKey id) := by
  induction entries with
  | nil => rfl
  | cons e entries ih =>
    obtain ⟨key, value⟩ := e
    rw [writeBatch, toSlice_fst, ih]
    rfl

theorem sstPut_ok_iff {status : RocksStatus} {file : List (Bytes × Bytes)} {keySlice value : Bytes}
    (hfile : file.Pairwise fun a b => a.1 < b.1) :
    (sstPut status file keySlice value).1 = .ok ↔
      status = .ok ∧ (file ++ [(keySlice, value)]).Pairwise fun a b => a.1 < b.1 := by
  unfold sstPut
  by_cases hstatus : status = .ok
  · rw [if_neg (not_not.mpr hstatus)]
    refine Iff.trans ?_ (and_iff_right hstatus).symm
    cases hlast : file.getLast? with
    | none =>
      rw [List.getLast?_eq_none_iff.mp hlast]
      simp
    | some last =>
      have hsplit := List.dropLast_append_getLast? last hlast
      dsimp only
      split
      next hlt =>
        refine iff_of_true rfl (List.pairwise_append.mpr ⟨hfile, by simp, ?_⟩)
        intro a ha b hb
        rw [List.mem_singleton.mp hb]
        rw [← hsplit] at ha hfile
        rcases List.mem_append.mp ha with hbefore | hself
        · have hbelow := (List.pairwise_append.mp hfile).2.2 a hbefore last
            (List.mem_singleton_self last)
          exact hbelow.trans hlt
        · rwa [List.mem_singleton.mp hself]
      next hge =>
        refine iff_of_false (by simp) fun hascend => hge ?_
        exact (List.pairwise_append.mp hascend).2.2 last (List.mem_of_getLast? hlast) _
          (List.mem_singleton_self _)
  · rw [if_pos hstatus]
    exact iff_of_false hstatus fun h => hstatus h.1

theorem sstPut_file {status : RocksStatus} {file : List (Bytes × Bytes)} {keySlice value : Bytes}
    (h : (sstPut status file keySlice value).1 = .ok) :
    (sstPut status file keySlice value).2 = file ++ [(keySlice, value)] := by
  unfold sstPut at h ⊢
  by_cases hstatus : status = .ok
  · rw [if_neg (not_not.mpr hstatus)] at h ⊢
    cases hlast : file.getLast? with
    | none =>
      rw [List.getLast?_eq_none_iff.mp hlast]
      rfl
    | some last =>
      rw [hlast] at h
      dsimp only at h ⊢
      split at h
      next hlt => rw [if_pos hlt]
      next => simp at h
  · rw [if_pos hstatus] at h
    exact absurd h hstatus

/-- The keys go into the file one after another when they ascend and no `Put` fails. -/
theorem sstLoop_ok_iff {put : ℕ → RocksStatus} {entries : List (UInt64 × Bytes)}
    {file : List (Bytes × Bytes)} {idx : ℕ} (hfile : file.Pairwise fun a b => a.1 < b.1) :
    (sstLoop put idx entries file).1 = .ok ↔ (∀ i < entries.length, put (idx + i) = .ok) ∧
      (file ++ entries.map (Prod.map bigEndianKey id)).Pairwise fun a b => a.1 < b.1 := by
  induction entries generalizing file idx with
  | nil => simp [sstLoop, hfile]
  | cons e entries ih =>
    obtain ⟨key, value⟩ := e
    have hput : (sstPut (put idx) file (bigEndianKey key) value).1 = .ok ↔ put idx = .ok ∧
        (file ++ [(bigEndianKey key, value)]).Pairwise fun a b => a.1 < b.1 := sstPut_ok_iff hfile
    have happend : file ++ ((key, value) :: entries).map (Prod.map bigEndianKey id) =
        (file ++ [(bigEndianKey key, value)]) ++ entries.map (Prod.map bigEndianKey id) := by simp
    rw [sstLoop, toSlice_fst, happend, List.length_cons]
    dsimp only
    split
    next hok =>
      obtain ⟨hfirst, hascend⟩ := hput.mp hok
      rw [sstPut_file hok, ih hascend]
      refine and_congr_left fun _ => ?_
      constructor
      · intro h i hi
        cases i with
        | zero => exact hfirst
        | succ i =>
          have hnext := h i (by omega)
          rwa [Nat.add_right_comm, Nat.add_assoc] at hnext
      · intro h i hi
        have hnext := h (i + 1) (by omega)
        rwa [← Nat.add_assoc, Nat.add_right_comm] at hnext
    next hfailed =>
      refine iff_of_false hfailed ?_
      rintro ⟨hall, hascend⟩
      exact hfailed (hput.mpr ⟨hall 0 (by omega), (List.pairwise_append.mp hascend).1⟩)

theorem sstLoop_file {put : ℕ → RocksStatus} {entries : List (UInt64 × Bytes)}
    {file : List (Bytes × Bytes)} {idx : ℕ} (h : (sstLoop put idx entries file).1 = .ok) :
    (sstLoop put idx entries file).2 = file ++ entries.map (Prod.map bigEndianKey id) := by
  induction entries generalizing file idx with
  | nil => exact (List.append_nil file).symm
  | cons e entries ih =>
    obtain ⟨key, value⟩ := e
    rw [sstLoop, toSlice_fst] at h ⊢
    dsimp only at h ⊢
    split at h
    next hok =>
      rw [if_pos hok, ih h, sstPut_file hok]
      simp
    next hfailed => exact absurd h hfailed

theorem sstLoop_batch_iff {put : ℕ → RocksStatus} : (sstLoop put 0 batch.slices []).1 = .ok ↔
    (∀ i < batch.keys.length, put i = .ok) ∧ batch.keys.Pairwise (· < ·) := by
  rw [Batch.slices_eq, sstLoop_ok_iff .nil, List.nil_append, batch.entries_length,
    ← batch.entries_keys, List.pairwise_map, List.pairwise_map]
  simp only [Nat.zero_add, Prod.map_fst, bigEndianKey_strictMono.lt_iff_lt]

theorem sstLoop_batch {put : ℕ → RocksStatus} (h : (sstLoop put 0 batch.slices []).1 = .ok) :
    sstLoop put 0 batch.slices [] = (.ok, batch.entries.map (Prod.map bigEndianKey id)) := by
  have hfile := sstLoop_file h
  rw [List.nil_append, Batch.slices_eq] at hfile
  rw [Batch.slices_eq] at h ⊢
  exact Prod.ext h hfile

theorem bulkLoad_spec (threadId : String) (h : db.Holds m) (hkeys : batch.keys ≠ [])
    (hascend : batch.keys.Pairwise (· < ·)) :
    (db.bulkLoad threadId batch).1 = (batchStep m batch).1.encode bigEndianKey ∧
      (db.bulkLoad threadId batch).2.Holds (batchStep m batch).2 := by
  have hentries : batch.entries ≠ [] := by
    intro hnil
    have hlength := batch.entries_length
    rw [hnil] at hlength
    exact hkeys (List.eq_nil_of_length_eq_zero hlength.symm)
  have hstore : (m.putAll batch.entries).rekey bigEndianKey =
      (m.rekey bigEndianKey).putAll (batch.entries.map (Prod.map bigEndianKey id)) :=
    SortedMap.rekey_putAll bigEndianKey_injective
  have hloop := sstLoop_batch (sstLoop_batch_iff.mpr ⟨fun _ _ => rfl, hascend⟩)
  simp only [bulkLoad, if_neg hkeys, ne_eq, not_true_eq_false, if_false,
    hloop, sstFinish, List.map_eq_nil_iff, hentries, ingestFiles,
    ingestExternalFile, List.cons_ne_nil, List.foldl_cons, List.foldl_nil]
  exact ⟨rfl, by rw [Holds, batchStep, hstore, ← h]⟩

theorem pointStep_spec (h : db.Holds m) (operation : PointOperation) :
    (db.pointStep operation).1 = (Ucsb.pointStep .ok m operation).1.encode bigEndianKey ∧
      (db.pointStep operation).2.Holds (Ucsb.pointStep .ok m operation).2 := by
  rw [Holds] at h
  cases operation with
  | upsert key value =>
    refine ⟨rfl, ?_⟩
    show db.store.put (toSlice key).1 value = _
    rw [toSlice_fst, h, Ucsb.pointStep, SortedMap.rekey_put bigEndianKey_injective]
  | update key value =>
    rw [pointStep, update, Ucsb.pointStep, toSlice_fst, h, rocksGet_rekey]
    cases m.get key with
    | none => exact ⟨rfl, h⟩
    | some data =>
      refine ⟨rfl, ?_⟩
      show db.store.put (bigEndianKey key) value = _
      rw [h, SortedMap.rekey_put bigEndianKey_injective]
  | remove key =>
    rw [pointStep_remove_ok]
    refine ⟨rfl, ?_⟩
    show db.store.erase (toSlice key).1 = _
    rw [toSlice_fst, h, SortedMap.rekey_erase bigEndianKey_injective]
  | read key =>
    refine ⟨?_, ?_⟩
    · show rocksRead db.store key = _
      rw [h, rocksRead_rekey .ok]
    · show db.store = _
      rw [h, Ucsb.pointStep]
      cases m.get key <;> rfl

theorem step_spec {threadId : String} {operation : DataOperation} (h : db.Holds m)
    (hadmitted : operation.Admitted) :
    (db.step threadId operation).1 = (mapStep .ok m operation).1.encode bigEndianKey ∧
      (db.step threadId operation).2.Holds (mapStep .ok m operation).2 := by
  cases operation with
  | point operation => exact pointStep_spec h operation
  | batchUpsert batch =>
    refine ⟨rfl, ?_⟩
    show db.store.putAll (writeBatch batch.slices) = _
    rw [writeBatch_eq, Batch.slices_eq, h, mapStep, batchStep,
      SortedMap.rekey_putAll bigEndianKey_injective]
  | bulkLoad batch => exact bulkLoad_spec threadId h hadmitted.1 hadmitted.2
  | rangeSelect key length =>
    refine ⟨?_, h⟩
    show rocksRangeSelect db.store key length = _
    rw [h, rocksRangeSelect_rekey .ok]
  | scan key length =>
    refine ⟨?_, h⟩
    show rocksScan db.store key length = _
    rw [h, rocksScan_rekey .ok]

theorem run_spec {calls : List (String × DataOperation)} (h : db.Holds m)
    (hadmitted : ∀ call ∈ calls, call.2.Admitted) :
    (run (fun db call => db.step call.1 call.2) db calls).1 =
        (run (mapStep .ok) m (calls.map Prod.snd)).1.map (Reply.encode bigEndianKey) ∧
      (run (fun db call => db.step call.1 call.2) db calls).2.Holds
        (run (mapStep .ok) m (calls.map Prod.snd)).2 := by
  have hagree : Agree (fun db call => db.step call.1 call.2) (fun m call => mapStep .ok m call.2)
      (fun reply expected => reply = expected.encode bigEndianKey) Holds db m calls :=
    agree_of_step (fun _ _ _ h hadmitted => step_spec h hadmitted) h hadmitted
  rw [run_map]
  exact ⟨hagree.replies_eq, hagree.final h⟩

end RocksDb

namespace RocksDbTransaction

variable {t : RocksDbTransaction} {batch : Batch}

/-- The transaction reads the map under the encoded keys, and no call is to fail. -/
structure Holds (t : RocksDbTransaction) (m : KeyMap) : Prop where
  statuses : t.statuses = []
  view : t.view = m.rekey bigEndianKey

theorem put_spec (h : t.Holds m) (key : UInt64) (value : Bytes) :
    (t.retried (put (bigEndianKey key) value)).1 = .ok ∧
      (t.retried (put (bigEndianKey key) value)).2.Holds (m.put key value) := by
  obtain ⟨hstatuses, hview⟩ := h
  simp only [retried, put, nextStatus, hstatuses, List.headD_nil, List.tail_nil, if_true, true_and]
  exact ⟨rfl, by simp only [hview, SortedMap.rekey_put bigEndianKey_injective]⟩

theorem delete_spec (h : t.Holds m) (key : UInt64) :
    (t.retried (delete (bigEndianKey key))).1 = .ok ∧
      (t.retried (delete (bigEndianKey key))).2.Holds (m.erase key) := by
  obtain ⟨hstatuses, hview⟩ := h
  simp only [retried, delete, nextStatus, hstatuses, List.headD_nil, List.tail_nil, if_true,
    true_and]
  exact ⟨rfl, by simp only [hview, SortedMap.rekey_erase bigEndianKey_injective]⟩

theorem upsert_spec (h : t.Holds m) (key : UInt64) (value : Bytes) :
    (t.upsert key value).1 = .ofStatus .ok ∧ (t.upsert key value).2.Holds (m.put key value) := by
  obtain ⟨hstatus, hnext⟩ := put_spec h key value
  rw [← toSlice_fst] at hstatus hnext
  refine ⟨?_, hnext⟩
  show Reply.ofStatus (t.retried (put (toSlice key).1 value)).1.operationStatus = _
  rw [hstatus]
  rfl

theorem upsertLoop_spec {entries : List (UInt64 × Bytes)} (h : t.Holds m) :
    (upsertLoop entries t).Holds (m.putAll entries) := by
  induction entries generalizing t m with
  | nil => exact h
  | cons e entries ih =>
    obtain ⟨key, value⟩ := e
    have hnext := (put_spec h key value).2
    rw [← toSlice_fst] at hnext
    exact ih hnext

theorem pointStep_spec (h : t.Holds m) (operation : PointOperation) :
    (t.pointStep operation).1 = (Ucsb.pointStep .ok m operation).1.encode bigEndianKey ∧
      (t.pointStep operation).2.Holds (Ucsb.pointStep .ok m operation).2 := by
  cases operation with
  | upsert key value => exact upsert_spec h key value
  | update key value =>
    rw [pointStep, update, Ucsb.pointStep, toSlice_fst, h.view, rocksGet_rekey]
    cases m.get key with
    | none => exact ⟨rfl, h⟩
    | some data => exact upsert_spec h key value
  | remove key =>
    rw [pointStep_remove_ok]
    obtain ⟨hstatus, hnext⟩ := delete_spec h key
    rw [← toSlice_fst] at hstatus hnext
    refine ⟨?_, hnext⟩
    show Reply.ofStatus (t.retried (delete (toSlice key).1)).1.operationStatus = _
    rw [hstatus]
    rfl
  | read key =>
    refine ⟨?_, ?_⟩
    · show rocksRead t.view key = _
      rw [h.view, rocksRead_rekey .ok]
    · rw [Ucsb.pointStep]
      cases m.get key <;> exact h

theorem step_spec {operation : DataOperation} (h : t.Holds m) :
    (t.step operation).1 = (mapStep .ok m operation).1.encode bigEndianKey ∧
      (t.step operation).2.Holds (mapStep .ok m operation).2 := by
  have hbatch : ∀ batch : Batch, (upsertLoop batch.slices t).Holds (m.putAll batch.entries) := by
    intro batch
    rw [Batch.slices_eq]
    exact upsertLoop_spec h
  cases operation with
  | point operation => exact pointStep_spec h operation
  | batchUpsert batch => exact ⟨rfl, hbatch batch⟩
  | bulkLoad batch => exact ⟨rfl, hbatch batch⟩
  | rangeSelect key length =>
    refine ⟨?_, h⟩
    show rocksRangeSelect t.view key length = _
    rw [h.view, rocksRangeSelect_rekey .ok]
  | scan key length =>
    refine ⟨?_, h⟩
    show rocksScan t.view key length = _
    rw [h.view, rocksScan_rekey .ok]

theorem run_spec (operations : List DataOperation) (h : t.Holds m) :
    (run step t operations).1 =
        (run (mapStep .ok) m operations).1.map (Reply.encode bigEndianKey) ∧
      (run step t operations).2.Holds (run (mapStep .ok) m operations).2 := by
  have hagree : Agree step (mapStep .ok)
      (fun reply expected => reply = expected.encode bigEndianKey) Holds t m operations :=
    agree_of_step (fun _ _ _ h (_ : True) => step_spec h) h fun _ _ => trivial
  exact ⟨hagree.replies_eq, hagree.final h⟩

/-- The commit of the destructor makes the database what the transaction reads. -/
theorem destroy_db (h : t.Holds m) : t.destroy.db = m.rekey bigEndianKey := by
  simp only [destroy, commit, nextStatus, h.statuses, List.headD_nil, if_true, h.view]

end RocksDbTransaction

/-- From an empty database both adapters answer every operation as the map over integer
keys does, hold that map under the encoded keys, and read the stored bytes. -/
theorem rocksDb_refines_map (calls : List (String × DataOperation))
    (hadmitted : ∀ call ∈ calls, call.2.Admitted) :
    let operations := calls.map Prod.snd
    let reference := run (mapStep .ok) ∅ operations
    (∀ db : RocksDb, db.store = ∅ →
      let served := run (fun db call => RocksDb.step call.1 db call.2) db calls
      served.1 = reference.1.map (Reply.encode bigEndianKey) ∧
        served.2.store = reference.2.rekey bigEndianKey ∧
        ∀ key value span, reference.2.get key = some value → value.length ≤ span.length →
          (served.2.read key).written span = value ++ span.drop value.length) ∧
      ∀ t : RocksDbTransaction, t.view = ∅ → t.statuses = [] →
        let served := run RocksDbTransaction.step t operations
        served.1 = reference.1.map (Reply.encode bigEndianKey) ∧
          served.2.view = reference.2.rekey bigEndianKey ∧
          served.2.destroy.db = reference.2.rekey bigEndianKey ∧
          ∀ key value span, reference.2.get key = some value → value.length ≤ span.length →
            (served.2.read key).written span = value ++ span.drop value.length := by
  intro operations reference
  constructor
  · intro db hempty served
    obtain ⟨hreplies, hstore⟩ := RocksDb.run_spec (m := ∅) hempty hadmitted
    refine ⟨hreplies, hstore, ?_⟩
    intro key value span hget hspan
    show (rocksRead served.2.store key).written span = _
    rw [show served.2.store = reference.2.rekey bigEndianKey from hstore]
    exact rocksRead_written hget hspan
  · intro t hempty hstatuses served
    have hstart : t.Holds ∅ := ⟨hstatuses, hempty⟩
    obtain ⟨hreplies, hholds⟩ := RocksDbTransaction.run_spec operations hstart
    refine ⟨hreplies, hholds.view, RocksDbTransaction.destroy_db hholds, ?_⟩
    intro key value span hget hspan
    show (rocksRead served.2.view key).written span = _
    rw [show served.2.view = reference.2.rekey bigEndianKey from hholds.view]
    exact rocksRead_written hget hspan

/-- A bulk of two keys, an update of one of them, an update of another key and a scan. -/
theorem rocksDb_refines_map_bulk :
    let bulk : Batch :=
      { keys := [255, 256], values := [7, 8, 9], sizes := [1, 2], sizes_length := rfl
        sizes_sum := rfl }
    let calls : List (String × DataOperation) :=
      [("1", .bulkLoad bulk), ("1", .point (.update 256 [5])), ("1", .point (.update 1 [5])),
        ("1", .scan 0 2)]
    (run (fun db call => RocksDb.step call.1 db call.2) { store := ∅ } calls).1 =
      (run (mapStep .ok) ∅ (calls.map Prod.snd)).1.map (Reply.encode bigEndianKey) := by
  intro bulk calls
  have hadmitted : ∀ call ∈ calls, call.2.Admitted := by
    simp only [calls, List.forall_mem_cons, List.not_mem_nil, false_implies, implies_true, and_true]
    exact ⟨⟨by decide, by decide⟩, trivial, trivial, trivial⟩
  exact ((rocksDb_refines_map calls hadmitted).1 { store := ∅ } rfl).1

end Ucsb
