import Ucsb.LevelDb
import Ucsb.RocksDbRefines

namespace Ucsb

open scoped WordBytes
open RequestRun

namespace LevelDb

def update (db : LevelDb) (key : UInt64) (value : Bytes) : Reply Bytes × LevelDb :=
  match db.store.get (keyBytes key) with
  | none => (.ofStatus .notFound, db)
  | some _ => (.ofStatus .ok, { db with store := db.store.put (keyBytes key) value })

def read (db : LevelDb) (key : UInt64) : Reply Bytes :=
  match db.store.get (keyBytes key) with
  | none => .ofStatus .notFound
  | some data => { Reply.ofStatus .ok with copies := [{ offset := 0, data := data }] }

/-- The loop of `batch_upsert`, which fills the `WriteBatch`. -/
def writeBatch : List (UInt64 × Bytes) → List (Bytes × Bytes)
  | [] => []
  | (key, value) :: rest => (keyBytes key, value) :: writeBatch rest

def batchUpsert (db : LevelDb) (batch : Batch) : Reply Bytes × LevelDb :=
  ({ result := { entriesTouched := UInt64.ofNat batch.keys.length } },
    { db with store := db.store.putAll (writeBatch batch.slices) })

def batchRead (db : LevelDb) (keys : List UInt64) : Reply Bytes :=
  getLoop (fun key => db.store.get (keyBytes key)) 0 0 keys

def bulkLoad (db : LevelDb) (batch : Batch) : Reply Bytes × LevelDb := db.batchUpsert batch

def step (db : LevelDb) : DataRequest → Reply Bytes × LevelDb
  | .data (.point (.upsert key value)) => db.upsert key value
  | .data (.point (.update key value)) => db.update key value
  | .data (.point (.remove key)) => db.remove key
  | .data (.point (.read key)) => (db.read key, db)
  | .data (.batchUpsert batch) => db.batchUpsert batch
  | .data (.bulkLoad batch) => db.bulkLoad batch
  | .data (.rangeSelect key length) => (db.rangeSelect key length, db)
  | .data (.scan key length) => (db.scan key length, db)
  | .batchRead keys => (db.batchRead keys, db)

end LevelDb

/-- The first entries from a key on, in the order of the keys with their bytes reversed. -/
def reversedEntries (m : KeyMap) (key length : UInt64) : List (UInt64 × Bytes) :=
  (((m.rekey bswap64).seek (bswap64 key)).take length.toNat).map (Prod.map bswap64 id)

/-- A map over integer keys whose queries go by the reversed keys. -/
def reversedStep (m : KeyMap) : DataRequest → Reply UInt64 × KeyMap
  | .data (.rangeSelect key length) =>
    (rangeReply (consecutiveCopies 0) (reversedEntries m key length), m)
  | .data (.scan key length) => (rangeReply overlaidCopies (reversedEntries m key length), m)
  | .data (.point operation) => pointStep .ok m operation
  | .data (.batchUpsert batch) => batchStep m batch
  | .data (.bulkLoad batch) => batchStep m batch
  | .batchRead keys => (foundReply m.get keys, m)

theorem bswap64_injective : Function.Injective bswap64 := by
  intro x y h
  rw [← bswap64_bswap64 x, h, bswap64_bswap64]

theorem keyBytes_eq (key : UInt64) : keyBytes key = bigEndianKey (bswap64 key) := by
  rw [← keyBytes_bswap64, bswap64_bswap64]

/-- From a key on, the engine visits the entries in the order of the reversed keys. -/
theorem seek_keyBytes (m : KeyMap) (key : UInt64) : (m.rekey keyBytes).seek (keyBytes key) =
    (((m.rekey bswap64).seek (bswap64 key)).map (Prod.map bswap64 id)).map
      (Prod.map keyBytes id) := by
  have hcodes : m.rekey keyBytes = (m.rekey bswap64).rekey bigEndianKey := by
    rw [SortedMap.rekey_rekey bswap64_injective bigEndianKey_injective]
    exact congrArg (fun code => m.rekey code) (funext keyBytes_eq)
  rw [hcodes, keyBytes_eq, SortedMap.seek_rekey bigEndianKey_strictMono, List.map_map]
  apply List.map_congr_left
  rintro ⟨key, value⟩ -
  exact Prod.ext (keyBytes_bswap64 key).symm rfl

namespace LevelDb

variable {db : LevelDb} {m : KeyMap}

/-- The database holds the map under the memory of its keys. -/
def Holds (db : LevelDb) (m : KeyMap) : Prop := db.store = m.rekey keyBytes

theorem Holds.get (h : db.Holds m) (key : UInt64) : db.store.get (keyBytes key) = m.get key := by
  rw [Holds] at h
  rw [h, SortedMap.get_rekey keyBytes_injective]

theorem writeBatch_eq (entries : List (UInt64 × Bytes)) :
    writeBatch entries = entries.map (Prod.map keyBytes id) := by
  induction entries with
  | nil => rfl
  | cons e entries ih => rw [writeBatch, ih, List.map_cons, Prod.map]; rfl

theorem batchUpsert_spec (h : db.Holds m) (batch : Batch) :
    (db.batchUpsert batch).1 = (batchStep m batch).1.encode keyBytes ∧
      (db.batchUpsert batch).2.Holds (batchStep m batch).2 := by
  refine ⟨rfl, ?_⟩
  change db.store.putAll (writeBatch batch.slices) = _
  rw [writeBatch_eq, Batch.slices_eq, h, batchStep, SortedMap.rekey_putAll keyBytes_injective]

/-- An iterator from a key on serves a query in the order of the reversed keys. -/
theorem rangeLoop_spec {advance : ℕ → Bytes → ℕ} {place : List Bytes → List Copy}
    (h : db.Holds m) (hplace : ∀ values, placedCopies advance 0 values = place values)
    (key length : UInt64) :
    rangeLoop advance length 0 0 (db.store.seek (keyBytes key)) =
      (rangeReply place (reversedEntries m key length)).encode keyBytes := by
  rw [Holds] at h
  rw [h, seek_keyBytes, rangeLoop_encode hplace, reversedEntries, List.map_take]

theorem step_spec (h : db.Holds m) (request : DataRequest) :
    (db.step request).1 = (reversedStep m request).1.encode keyBytes ∧
      (db.step request).2.Holds (reversedStep m request).2 := by
  cases request with
  | batchRead keys =>
    refine ⟨?_, h⟩
    change getLoop (fun key => db.store.get (keyBytes key)) 0 0 keys = _
    rw [funext h.get, getLoop_found]
    rfl
  | data operation =>
    cases operation with
    | batchUpsert batch | bulkLoad batch => exact batchUpsert_spec h batch
    | rangeSelect key length =>
      exact ⟨rangeLoop_spec h (placedCopies_exported 0) key length, h⟩
    | scan key length => exact ⟨rangeLoop_spec h (placedCopies_stay 0) key length, h⟩
    | point operation =>
      cases operation with
      | upsert key value => exact ⟨rfl, upsert_store h key value⟩
      | update key value =>
        rw [step, update, h.get, reversedStep, pointStep]
        cases m.get key with
        | none => exact ⟨rfl, h⟩
        | some data => exact ⟨rfl, upsert_store h key value⟩
      | remove key =>
        have hremoved := remove_store h key
        rw [reversedStep, pointStep]
        cases hkey : m.get key with
        | none =>
          rw [SortedMap.erase_of_get_none hkey] at hremoved
          exact ⟨rfl, hremoved⟩
        | some data => exact ⟨rfl, hremoved⟩
      | read key =>
        rw [step, read, h.get, reversedStep, pointStep]
        cases m.get key with
        | none => exact ⟨rfl, h⟩
        | some data => exact ⟨rfl, h⟩

end LevelDb

/-- From an empty database LevelDB answers every request as the map over integer keys does
whose queries go by the reversed keys, holds that map under the memory of its keys, and
reads the stored bytes. -/
theorem levelDb_refines_map (requests : List DataRequest) :
    let reference := run reversedStep ∅ requests
    let served := run LevelDb.step { store := ∅ } requests
    served.1 = reference.1.map (Reply.encode keyBytes) ∧
      served.2.store = reference.2.rekey keyBytes ∧
      ∀ keys span, (foundValues reference.2.get keys).flatten.length ≤ span.length →
        (served.2.batchRead keys).written span =
          (foundValues reference.2.get keys).flatten ++
            span.drop (foundValues reference.2.get keys).flatten.length := by
  intro reference served
  have hempty : LevelDb.Holds { store := ∅ } ∅ := rfl
  have hagree : Agree LevelDb.step reversedStep
      (fun reply expected => reply = expected.encode keyBytes) LevelDb.Holds
      { store := ∅ } ∅ requests :=
    agree_of_step (fun _ _ request h (_ : True) => LevelDb.step_spec h request) hempty
      fun _ _ => trivial
  have hholds : served.2.Holds reference.2 := hagree.final hempty
  refine ⟨hagree.replies_eq, hholds, ?_⟩
  intro keys span hspan
  have hbatch : served.2.batchRead keys = foundReply reference.2.get keys := by
    rw [LevelDb.batchRead, funext hholds.get, getLoop_found]
  rw [hbatch]
  exact (consecutiveCopies_written (by omega)).trans (by simp)

/-- A batch read of three keys, of which one is not there and one has the larger memory. -/
theorem levelDb_refines_map_batch :
    (LevelDb.batchRead (run LevelDb.step { store := ∅ } [.data (.point (.upsert 1 [7])),
      .data (.point (.upsert 256 [8, 9]))]).2 [1, 2, 256]).written [0, 0, 0, 0] =
        [7, 8, 9, 0] := by
  refine ((levelDb_refines_map [.data (.point (.upsert 1 [7])),
    .data (.point (.upsert 256 [8, 9]))]).2.2 [1, 2, 256] [0, 0, 0, 0] ?_).trans ?_
  · decide +kernel
  · decide +kernel

/-- The batch with the bytes of its keys reversed. -/
def Batch.reversed (batch : Batch) : Batch where
  keys := batch.keys.map bswap64
  values := batch.values
  sizes := batch.sizes
  sizes_length := by rw [List.length_map, batch.sizes_length]
  sizes_sum := batch.sizes_sum

def DataOperation.reversed : DataOperation → DataOperation
  | .point (.upsert key value) => .point (.upsert (bswap64 key) value)
  | .point (.update key value) => .point (.update (bswap64 key) value)
  | .point (.remove key) => .point (.remove (bswap64 key))
  | .point (.read key) => .point (.read (bswap64 key))
  | .batchUpsert batch => .batchUpsert batch.reversed
  | .bulkLoad batch => .bulkLoad batch.reversed
  | .rangeSelect key length => .rangeSelect (bswap64 key) length
  | .scan key length => .scan (bswap64 key) length

theorem Batch.reversed_slices (batch : Batch) :
    batch.reversed.slices = batch.slices.map (Prod.map bswap64 id) := by
  rw [slices_eq, slices_eq, entries, entries]
  exact List.zip_map_left

namespace LevelDb

variable {db : LevelDb} {rocks : RocksDb}

theorem batchUpsert_reversed (h : db.store = rocks.store) (batch : Batch) :
    (db.batchUpsert batch.reversed).1 = (rocks.batchUpsert batch).1 ∧
      (db.batchUpsert batch.reversed).2.store = (rocks.batchUpsert batch).2.store := by
  have hwrites : writeBatch batch.reversed.slices = RocksDb.writeBatch batch.slices := by
    rw [writeBatch_eq, RocksDb.writeBatch_eq, Batch.reversed_slices, List.map_map]
    apply List.map_congr_left
    rintro ⟨key, value⟩ -
    exact Prod.ext (keyBytes_bswap64 key) rfl
  constructor
  · simp [batchUpsert, Batch.reversed, RocksDb.batchUpsert, RocksDb.write,
      RocksStatus.operationStatus]
  · simp only [batchUpsert, RocksDb.batchUpsert, RocksDb.write, hwrites, h]

/-- An admitted bulk is loaded as if it were upserted. -/
theorem bulkLoad_eq (threadId : String) {m : KeyMap} {batch : Batch} (h : rocks.Holds m)
    (hkeys : batch.keys ≠ []) (hascend : batch.keys.Pairwise (· < ·)) :
    (rocks.bulkLoad threadId batch).1 = (rocks.batchUpsert batch).1 ∧
      (rocks.bulkLoad threadId batch).2.store = (rocks.batchUpsert batch).2.store := by
  obtain ⟨hreply, hstore⟩ := RocksDb.bulkLoad_spec threadId h hkeys hascend
  obtain ⟨hreply', hstore'⟩ : (rocks.step threadId (.batchUpsert batch)).1 = _ ∧
      (rocks.step threadId (.batchUpsert batch)).2.Holds _ := RocksDb.step_spec h trivial
  exact ⟨hreply.trans hreply'.symm, hstore.trans hstore'.symm⟩

theorem step_reversed (threadId : String) {m : KeyMap} {operation : DataOperation}
    (hholds : rocks.Holds m) (h : db.store = rocks.store) (hadmitted : operation.Admitted) :
    (db.step (.data operation.reversed)).1 = (rocks.step threadId operation).1 ∧
      (db.step (.data operation.reversed)).2.store = (rocks.step threadId operation).2.store := by
  cases operation with
  | batchUpsert batch => exact batchUpsert_reversed h batch
  | bulkLoad batch =>
    obtain ⟨hreply, hstore⟩ := batchUpsert_reversed h batch
    obtain ⟨hreply', hstore'⟩ := bulkLoad_eq threadId hholds hadmitted.1 hadmitted.2
    exact ⟨hreply.trans hreply'.symm, hstore.trans hstore'.symm⟩
  | rangeSelect key length =>
    refine ⟨?_, h⟩
    change rangeLoop exported length 0 0 (db.store.seek (keyBytes (bswap64 key))) = _
    rw [h]
    rfl
  | scan key length =>
    refine ⟨?_, h⟩
    change rangeLoop _ length 0 0 (db.store.seek (keyBytes (bswap64 key))) = _
    rw [h]
    rfl
  | point operation =>
    cases operation with
    | upsert key value =>
      refine ⟨rfl, ?_⟩
      change db.store.put (keyBytes (bswap64 key)) value = _
      rw [h]
      rfl
    | update key value =>
      have hslice : (toSlice key).1 = keyBytes (bswap64 key) := rfl
      rw [DataOperation.reversed, step, update, RocksDb.step, RocksDb.pointStep, RocksDb.update,
        hslice, h, rocksGet]
      cases rocks.store.get (keyBytes (bswap64 key)) with
      | none => exact ⟨rfl, h⟩
      | some data => exact ⟨rfl, rfl⟩
    | remove key =>
      refine ⟨rfl, ?_⟩
      change db.store.erase (keyBytes (bswap64 key)) = _
      rw [h]
      rfl
    | read key =>
      refine ⟨?_, h⟩
      have hslice : (toSlice key).1 = keyBytes (bswap64 key) := rfl
      change LevelDb.read db (bswap64 key) = rocksRead rocks.store key
      rw [read, rocksRead, hslice, h, rocksGet]
      cases rocks.store.get (keyBytes (bswap64 key)) <;> rfl

end LevelDb

/-- LevelDB serves every run without batch reads as RocksDB serves the one with reversed keys,
but for bulks that RocksDB refuses. Batch reads are left out: RocksDB answers them with stale
keys as well. -/
theorem levelDb_serves_rocksDb (calls : List (String × DataOperation))
    (hadmitted : ∀ call ∈ calls, call.2.Admitted) :
    let served := run (fun db call => LevelDb.step db (.data call.2.reversed)) { store := ∅ } calls
    let rocks := run (fun db call => RocksDb.step call.1 db call.2) { store := ∅ } calls
    served.1 = rocks.1 ∧ served.2.store = rocks.2.store := by
  intro served rocks
  have hagree : Agree (fun db call => LevelDb.step db (.data call.2.reversed))
      (fun db call => RocksDb.step call.1 db call.2) Eq
      (fun db rocks => db.store = rocks.store ∧ ∃ m, rocks.Holds m)
      { store := ∅ } { store := ∅ } calls := by
    refine agree_of_step (fun db rocks call h hcall => ?_) ⟨rfl, ∅, rfl⟩ hadmitted
    obtain ⟨hstore, m, hholds⟩ := h
    obtain ⟨hreply, hstore'⟩ := LevelDb.step_reversed call.1 hholds hstore hcall
    exact ⟨hreply, hstore', _, (RocksDb.step_spec hholds hcall).2⟩
  exact ⟨List.forall₂_eq_eq_eq ▸ hagree.replies, (hagree.final ⟨rfl, ∅, rfl⟩).1⟩

/-- A bulk of two keys whose memory does not ascend, and a scan over both. -/
theorem levelDb_serves_rocksDb_bulk :
    let bulk : Batch :=
      { keys := [255, 256], values := [7, 8, 9], sizes := [1, 2], sizes_length := rfl
        sizes_sum := rfl }
    let calls : List (String × DataOperation) := [("1", .bulkLoad bulk), ("2", .scan 255 2)]
    (run (fun db call => LevelDb.step db (.data call.2.reversed)) { store := ∅ } calls).1 =
      (run (fun db call => RocksDb.step call.1 db call.2) { store := ∅ } calls).1 := by
  intro bulk calls
  have hadmitted : ∀ call ∈ calls, call.2.Admitted := by
    simp only [calls, List.forall_mem_cons, List.not_mem_nil, false_implies, implies_true, and_true]
    exact ⟨⟨by decide, by decide⟩, trivial⟩
  exact (levelDb_serves_rocksDb calls hadmitted).1

end Ucsb
