import Ucsb.RocksDbRefines

namespace Ucsb

open scoped WordBytes

namespace RocksDb

/-- The file that a bulk load creates once it opens one. -/
def createdFiles (db : RocksDb) (threadId : String) (batch : Batch) (statuses : SstStatuses) :
    List String :=
  if batch.keys ≠ [] ∧ statuses.openFile = .ok then [db.sstFilePath threadId 0] else []

/-- A bulk load maps all keys to their values, or leaves the database and the directory as
they were. -/
structure AllOrNothing (db : RocksDb) (threadId : String) (batch : Batch)
    (statuses : SstStatuses) : Prop where
  loaded : (db.bulkLoad threadId batch statuses).1.result.status = .ok →
    (∀ e ∈ batch.entries,
      (db.bulkLoad threadId batch statuses).2.store.get (bigEndianKey e.1) = some e.2) ∧
    (db.bulkLoad threadId batch statuses).1.result.entriesTouched =
      UInt64.ofNat batch.keys.length
  refused : (db.bulkLoad threadId batch statuses).1.result.status = .error →
    (db.bulkLoad threadId batch statuses).2.store = db.store ∧
    (db.bulkLoad threadId batch statuses).2.fullCompaction = db.fullCompaction ∧
    ∀ path ∈ db.createdFiles threadId batch statuses,
      path ∉ (db.bulkLoad threadId batch statuses).2.pendingFiles

/-- The file takes all keys and is finished, or removed by the engine itself. -/
def SstCompletes (batch : Batch) (statuses : SstStatuses) : Prop :=
  batch.keys.Pairwise (· < ·) ∧ (∀ i < batch.keys.length, statuses.put i = .ok) ∧
    (statuses.finish = .ok ∨ statuses.finishRemoves)

variable {db : RocksDb} {threadId : String} {batch : Batch} {statuses : SstStatuses}

theorem entries_ne_nil (hkeys : batch.keys ≠ []) : batch.entries ≠ [] := by
  rintro hnil
  rw [← batch.entries_keys, hnil] at hkeys
  exact hkeys rfl

theorem bulkLoad_of_nil (db : RocksDb) (threadId : String) (statuses : SstStatuses)
    (hkeys : batch.keys = []) :
    (db.bulkLoad threadId batch statuses).1.result.status = .error ∧
      (db.bulkLoad threadId batch statuses).2 = db := by
  have hfiles : db.pendingFiles.filter (fun path => path ∉ ([] : List String)) = db.pendingFiles :=
    List.filter_eq_self.mpr fun path _ => by simp
  rw [bulkLoad, if_pos hkeys]
  exact ⟨rfl, congrArg (fun files => { db with pendingFiles := files }) hfiles⟩

theorem bulkLoad_of_open (hkeys : batch.keys ≠ []) (hopen : statuses.openFile ≠ .ok) :
    db.bulkLoad threadId batch statuses = (.ofStatus .error, db) := by
  rw [bulkLoad, if_neg hkeys, if_pos hopen]

/-- A `Put` that fails leaves the file behind. -/
theorem bulkLoad_of_put (hkeys : batch.keys ≠ []) (hopen : statuses.openFile = .ok)
    (hput : (sstLoop statuses.put 0 batch.slices []).1 ≠ .ok) :
    db.bulkLoad threadId batch statuses = (.ofStatus .error,
      { db with pendingFiles := db.sstFilePath threadId 0 :: db.pendingFiles }) := by
  rw [bulkLoad, if_neg hkeys, if_neg (not_not.mpr hopen)]
  exact if_pos hput

theorem bulkLoad_of_finish (hkeys : batch.keys ≠ []) (hopen : statuses.openFile = .ok)
    (hput : (sstLoop statuses.put 0 batch.slices []).1 = .ok) (hfinish : statuses.finish ≠ .ok) :
    db.bulkLoad threadId batch statuses = (.ofStatus .error,
      if statuses.finishRemoves then
        removeFile { db with pendingFiles := db.sstFilePath threadId 0 :: db.pendingFiles }
          (db.sstFilePath threadId 0)
      else { db with pendingFiles := db.sstFilePath threadId 0 :: db.pendingFiles }) := by
  have hentries := entries_ne_nil hkeys
  simp only [bulkLoad, if_neg hkeys, hopen, ne_eq, not_true_eq_false, if_false, sstLoop_batch hput,
    sstFinish, List.map_eq_nil_iff, hentries, hfinish, not_false_eq_true, if_true]

theorem bulkLoad_of_finished (hkeys : batch.keys ≠ []) (hopen : statuses.openFile = .ok)
    (hput : (sstLoop statuses.put 0 batch.slices []).1 = .ok) (hfinish : statuses.finish = .ok) :
    db.bulkLoad threadId batch statuses =
      ingestFiles { db with pendingFiles := db.sstFilePath threadId 0 :: db.pendingFiles }
        batch.keys.length statuses.ingest
        [(db.sstFilePath threadId 0, batch.entries.map (Prod.map bigEndianKey id))] := by
  have hentries := entries_ne_nil hkeys
  simp only [bulkLoad, if_neg hkeys, hopen, ne_eq, not_true_eq_false, if_false, sstLoop_batch hput,
    sstFinish, List.map_eq_nil_iff, hentries, hfinish]

/-- Ingesting one file loads its entries, or changes nothing; either way the file is gone. -/
theorem ingestFiles_one (db : RocksDb) (count : ℕ) (status : RocksStatus) (path : String)
    (file : List (Bytes × Bytes)) :
    path ∉ (db.ingestFiles count status [(path, file)]).2.pendingFiles ∧
      ((db.ingestFiles count status [(path, file)]).1.result.status = .ok →
        (db.ingestFiles count status [(path, file)]).2.store = db.store.putAll file ∧
        (db.ingestFiles count status [(path, file)]).1.result.entriesTouched =
          UInt64.ofNat count) ∧
      ((db.ingestFiles count status [(path, file)]).1.result.status = .error →
        (db.ingestFiles count status [(path, file)]).2.store = db.store ∧
        (db.ingestFiles count status [(path, file)]).2.fullCompaction = db.fullCompaction) := by
  unfold ingestFiles ingestExternalFile
  rw [if_neg (List.cons_ne_nil _ _)]
  by_cases hstatus : status = .ok
  · simp [hstatus]
  · simp [hstatus, Reply.ofStatus]

theorem get_stored (hnodup : batch.keys.Nodup) {e : UInt64 × Bytes} (he : e ∈ batch.entries) :
    (db.store.putAll (batch.entries.map (Prod.map bigEndianKey id))).get (bigEndianKey e.1) =
      some e.2 := by
  apply SortedMap.get_putAll_of_mem
  · rw [← batch.entries_keys] at hnodup
    rw [List.map_map]
    have hkeys := hnodup.map bigEndianKey_injective
    rwa [List.map_map] at hkeys
  · exact List.mem_map_of_mem he

theorem createdFiles_of (hkeys : batch.keys ≠ []) (hopen : statuses.openFile = .ok) :
    db.createdFiles threadId batch statuses = [db.sstFilePath threadId 0] :=
  if_pos ⟨hkeys, hopen⟩

/-- A call that refuses must not leave the file that it opened. -/
theorem AllOrNothing.of_refused {reply : Reply Bytes} {after : RocksDb}
    (hcall : db.bulkLoad threadId batch statuses = (reply, after))
    (hstatus : reply.result.status = .error) (hstore : after.store = db.store)
    (hcompaction : after.fullCompaction = db.fullCompaction)
    (hfiles : ∀ path ∈ db.createdFiles threadId batch statuses, path ∉ after.pendingFiles) :
    db.AllOrNothing threadId batch statuses := by
  constructor
  · intro hok
    rw [hcall, hstatus] at hok
    cases hok
  · intro _
    rw [hcall]
    exact ⟨hstore, hcompaction, hfiles⟩

theorem allOrNothing_of_unopened (h : batch.keys = [] ∨ statuses.openFile ≠ .ok) :
    db.AllOrNothing threadId batch statuses := by
  have hcreated : db.createdFiles threadId batch statuses = [] := by
    refine if_neg fun hcreates => ?_
    exact h.elim hcreates.1 fun hopen => hopen hcreates.2
  have hfiles : ∀ (after : RocksDb), ∀ path ∈ db.createdFiles threadId batch statuses,
      path ∉ after.pendingFiles := fun after path hpath => by simp [hcreated] at hpath
  by_cases hkeys : batch.keys = []
  · obtain ⟨hstatus, hafter⟩ := bulkLoad_of_nil db threadId statuses hkeys
    exact .of_refused rfl hstatus (congrArg store hafter) (congrArg fullCompaction hafter)
      (hfiles _)
  · exact .of_refused (bulkLoad_of_open hkeys (h.resolve_left hkeys)) rfl rfl rfl (hfiles db)

theorem allOrNothing_of_completes (hkeys : batch.keys ≠ []) (hopen : statuses.openFile = .ok)
    (h : SstCompletes batch statuses) : db.AllOrNothing threadId batch statuses := by
  obtain ⟨hascend, hput, hfinish⟩ := h
  have hloop : (sstLoop statuses.put 0 batch.slices []).1 = .ok :=
    sstLoop_batch_iff.mpr ⟨hput, hascend⟩
  by_cases hok : statuses.finish = .ok
  · have hcall : db.bulkLoad threadId batch statuses = _ :=
      bulkLoad_of_finished hkeys hopen hloop hok
    obtain ⟨hgone, hloaded, hrefused⟩ := ingestFiles_one
      { db with pendingFiles := db.sstFilePath threadId 0 :: db.pendingFiles } batch.keys.length
      statuses.ingest (db.sstFilePath threadId 0) (batch.entries.map (Prod.map bigEndianKey id))
    constructor
    · intro hstatus
      rw [hcall] at hstatus ⊢
      obtain ⟨hstore, htouched⟩ := hloaded hstatus
      refine ⟨fun e he => ?_, htouched⟩
      rw [hstore]
      exact get_stored (hascend.imp ne_of_lt) he
    · intro hstatus
      rw [hcall] at hstatus ⊢
      obtain ⟨hstore, hcompaction⟩ := hrefused hstatus
      refine ⟨hstore, hcompaction, ?_⟩
      rw [createdFiles_of hkeys hopen, List.forall_mem_singleton]
      exact hgone
  · have hremoves : statuses.finishRemoves := hfinish.resolve_left hok
    have hcall : db.bulkLoad threadId batch statuses = _ :=
      bulkLoad_of_finish hkeys hopen hloop hok
    rw [if_pos hremoves] at hcall
    refine .of_refused hcall rfl rfl rfl ?_
    rw [createdFiles_of hkeys hopen, List.forall_mem_singleton]
    simp [removeFile]

theorem not_allOrNothing_of_left (hkeys : batch.keys ≠ [])
    (hopen : statuses.openFile = .ok)
    (hcall : db.bulkLoad threadId batch statuses = (.ofStatus .error,
      { db with pendingFiles := db.sstFilePath threadId 0 :: db.pendingFiles })) :
    ¬db.AllOrNothing threadId batch statuses := by
  intro h
  have hfiles := (h.refused (by rw [hcall]; rfl)).2.2
  rw [createdFiles_of hkeys hopen, List.forall_mem_singleton, hcall] at hfiles
  exact hfiles List.mem_cons_self

/-- For every pattern of failures a bulk load is all or nothing exactly when it has no keys,
creates no file, or completes the file that it creates. -/
theorem rocksDb_allOrNothing_iff (db : RocksDb) (threadId : String) (batch : Batch)
    (statuses : SstStatuses) :
    db.AllOrNothing threadId batch statuses ↔
      batch.keys = [] ∨ statuses.openFile ≠ .ok ∨ SstCompletes batch statuses := by
  constructor
  · intro h
    by_contra hnone
    rw [not_or, not_or, not_not] at hnone
    obtain ⟨hkeys, hopen, hincomplete⟩ := hnone
    by_cases hloop : (sstLoop statuses.put 0 batch.slices []).1 = .ok
    · have hwrites := sstLoop_batch_iff.mp hloop
      have hfinish : statuses.finish ≠ .ok ∧ ¬statuses.finishRemoves = true := by
        rw [← not_or]
        exact fun hfinish => hincomplete ⟨hwrites.2, hwrites.1, hfinish⟩
      refine not_allOrNothing_of_left hkeys hopen ?_ h
      rw [bulkLoad_of_finish hkeys hopen hloop hfinish.1, if_neg hfinish.2]
    · exact not_allOrNothing_of_left hkeys hopen (bulkLoad_of_put hkeys hopen hloop) h
  · rintro (hkeys | hopen | hcompletes)
    · exact allOrNothing_of_unopened (Or.inl hkeys)
    · exact allOrNothing_of_unopened (Or.inr hopen)
    · by_cases hcreates : batch.keys = [] ∨ statuses.openFile ≠ .ok
      · exact allOrNothing_of_unopened hcreates
      · rw [not_or, not_not] at hcreates
        exact allOrNothing_of_completes hcreates.1 hcreates.2 hcompletes

/-- A bulk of two keys whose second `Put` fails leaves its file in the directory. -/
theorem rocksDb_leaves_file :
    let batch : Batch :=
      { keys := [1, 2], values := [7, 8], sizes := [1, 1], sizes_length := rfl, sizes_sum := rfl }
    let statuses : SstStatuses := { put := fun idx => if idx = 1 then .otherError else .ok }
    ¬({ store := ∅ } : RocksDb).AllOrNothing "5" batch statuses ∧
      (({ store := ∅ } : RocksDb).bulkLoad "5" batch statuses).2.pendingFiles =
        ["pending_5_0.sst"] := by
  intro batch statuses
  have hloop : (sstLoop statuses.put 0 batch.slices []).1 ≠ .ok := fun hok => by
    have hsecond := (sstLoop_batch_iff.mp hok).1 1 (by decide)
    simp [statuses] at hsecond
  have hcall : ({ store := ∅ } : RocksDb).bulkLoad "5" batch statuses = _ :=
    bulkLoad_of_put (by simp [batch]) rfl hloop
  refine ⟨not_allOrNothing_of_left (by simp [batch]) rfl hcall, ?_⟩
  rw [hcall]
  rfl

end RocksDb

end Ucsb
