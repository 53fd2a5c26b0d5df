import Ucsb.BatchOffsets
import Ucsb.LevelDbRefines
import Ucsb.LmdbRefines
import Ucsb.MongoDbRefines
import Ucsb.WiredTigerRefines

namespace Ucsb

open scoped WordBytes
open RequestRun

/-- The operations of `data_accessor_t` that a load is made of. -/
inductive LoadOperation
  | upsert (key : UInt64) (value : Bytes)
  | batchUpsert (batch : Batch)
  | bulkLoad (batch : Batch)

namespace LoadOperation

def entries : LoadOperation → List (UInt64 × Bytes)
  | .upsert key value => [(key, value)]
  | .batchUpsert batch | .bulkLoad batch => batch.entries

def keys (operation : LoadOperation) : List UInt64 := operation.entries.map Prod.fst

/-- The bytes that are handed over. -/
def values : LoadOperation → Bytes
  | .upsert _ value => value
  | .batchUpsert batch | .bulkLoad batch => batch.values

def dataOperation : LoadOperation → DataOperation
  | .upsert key value => .point (.upsert key value)
  | .batchUpsert batch => .batchUpsert batch
  | .bulkLoad batch => .bulkLoad batch

/-- All keys are reported as written. -/
def done (operation : LoadOperation) : OperationResult :=
  { entriesTouched := UInt64.ofNat operation.keys.length }

/-- There are keys, which ascend. -/
structure Fit (operation : LoadOperation) : Prop where
  keys_ne : operation.keys ≠ []
  ascend : operation.keys.Pairwise (· < ·)

theorem Fit.admitted {operation : LoadOperation} (h : operation.Fit) :
    operation.dataOperation.Admitted := by
  cases operation with
  | upsert key value => trivial
  | batchUpsert batch => trivial
  | bulkLoad batch =>
    have hkeys : (LoadOperation.bulkLoad batch).keys = batch.keys := batch.entries_keys
    exact ⟨hkeys ▸ h.keys_ne, hkeys ▸ h.ascend⟩

/-- What a load comes to on a map. -/
theorem mapStep_eq (absent : OperationStatus) (m : KeyMap) (operation : LoadOperation) :
    (mapStep absent m operation.dataOperation).1.result = operation.done ∧
      (mapStep absent m operation.dataOperation).2 = m.putAll operation.entries := by
  cases operation with
  | upsert key value => exact ⟨rfl, rfl⟩
  | batchUpsert batch | bulkLoad batch =>
    refine ⟨?_, rfl⟩
    rw [done, keys, entries, batch.entries_keys]
    rfl

end LoadOperation

/-- A call of a load, and the thread that makes it. -/
structure LoadCall where
  thread : ℕ
  operation : LoadOperation

/-- An adapter, the maps that its states hold, and the operations that it takes: each of keys
that are not there is done. No result stands for an exception. -/
structure LoadEngine (σ : Type) where
  serve : σ → LoadCall → Option OperationResult × σ
  Holds : σ → KeyMap → Prop
  Accepts : LoadOperation → Prop
  serve_spec : ∀ (s : σ) (m : KeyMap) (call : LoadCall), Holds s m → call.operation.Fit →
    Accepts call.operation → (∀ key ∈ call.operation.keys, m.get key = none) →
    (serve s call).1 = some call.operation.done ∧
      Holds (serve s call).2 (m.putAll call.operation.entries)

namespace LoadEngine

variable {σ : Type} {s : σ} {m : KeyMap} {calls : List LoadCall}

/-- Calls whose keys are all new are all done, and leave all their entries. -/
theorem run_spec (engine : LoadEngine σ) (h : engine.Holds s m)
    (hfit : ∀ call ∈ calls, call.operation.Fit)
    (haccepts : ∀ call ∈ calls, engine.Accepts call.operation)
    (hnodup : (calls.flatMap fun call => call.operation.keys).Nodup)
    (hnew : ∀ key ∈ calls.flatMap fun call => call.operation.keys, m.get key = none) :
    (run engine.serve s calls).1 = calls.map (fun call => some call.operation.done) ∧
      engine.Holds (run engine.serve s calls).2
        (m.putAll (calls.flatMap fun call => call.operation.entries)) := by
  induction calls generalizing s m with
  | nil => exact ⟨rfl, h⟩
  | cons call calls ih =>
    rw [List.forall_mem_cons] at hfit haccepts
    rw [List.flatMap_cons, List.nodup_append] at hnodup
    rw [List.flatMap_cons, List.forall_mem_append] at hnew
    obtain ⟨hfirst, hholds⟩ :=
      engine.serve_spec s m call h hfit.1 haccepts.1 hnew.1
    have hlater : ∀ key ∈ calls.flatMap fun call => call.operation.keys,
        (m.putAll call.operation.entries).get key = none := by
      intro key hkey
      rw [SortedMap.get_putAll_of_not_mem, hnew.2 key hkey]
      intro e he heq
      exact hnodup.2.2 e.1 (List.mem_map_of_mem he) key hkey heq
    obtain ⟨hrest, hfinal⟩ := ih hholds hfit.2 haccepts.2 hnodup.2.1 hlater
    refine ⟨?_, ?_⟩
    · rw [run, List.map_cons, hfirst, hrest]
    · rw [List.flatMap_cons, SortedMap.putAll_append]
      exact hfinal

end LoadEngine

/-- The result of a call that returns. -/
def returned {Key σ : Type} (served : Reply Key × σ) : Option OperationResult × σ :=
  (some served.1.result, served.2)

namespace RocksDb

/-- A load of `rocksdb_t`, in a program whose threads have these ids. -/
def load (threadId : ℕ → String) (db : RocksDb) (call : LoadCall) :
    Option OperationResult × RocksDb :=
  returned (db.step (threadId call.thread) call.operation.dataOperation)

def loadEngine (threadId : ℕ → String) : LoadEngine RocksDb where
  serve := load threadId
  Holds := Holds
  Accepts := fun _ => True
  serve_spec := by
    intro db m call h hfit _ _
    obtain ⟨hreply, hholds⟩ :
        (db.step (threadId call.thread) call.operation.dataOperation).1 = _ ∧
          (db.step (threadId call.thread) call.operation.dataOperation).2.Holds _ :=
      step_spec h hfit.admitted
    obtain ⟨hresult, hmap⟩ := call.operation.mapStep_eq .ok m
    rw [hmap] at hholds
    refine ⟨?_, hholds⟩
    rw [load, returned, hreply, ← hresult]
    rfl

end RocksDb

namespace LevelDb

def load (db : LevelDb) (call : LoadCall) : Option OperationResult × LevelDb :=
  returned (db.step (.data call.operation.dataOperation))

def loadEngine : LoadEngine LevelDb where
  serve := load
  Holds := Holds
  Accepts := fun _ => True
  serve_spec := by
    intro db m call h _ _ _
    obtain ⟨hreply, hholds⟩ := step_spec h (.data call.operation.dataOperation)
    have hstep : reversedStep m (.data call.operation.dataOperation) =
        mapStep .ok m call.operation.dataOperation := by
      cases call.operation <;> rfl
    obtain ⟨hresult, hmap⟩ := call.operation.mapStep_eq .ok m
    rw [hstep, hmap] at hholds
    refine ⟨?_, hholds⟩
    rw [load, returned, hreply, hstep, ← hresult]
    rfl

end LevelDb

namespace Lmdb

def load (env : Lmdb) (call : LoadCall) : Option OperationResult × Lmdb :=
  match call.operation with
  | .upsert key value => returned (env.upsert key value)
  | .batchUpsert batch => returned (env.batchUpsert batch)
  | .bulkLoad batch => returned (env.bulkLoad batch)

def loadEngine : LoadEngine Lmdb where
  serve := load
  Holds := Holds
  Accepts := fun _ => True
  serve_spec := by
    rintro env m ⟨thread, operation⟩ h _ _ _
    obtain ⟨hresult, -⟩ := operation.mapStep_eq .ok m
    cases operation with
    | upsert key value =>
      obtain ⟨hreply, hholds⟩ := upsert_spec h key value
      refine ⟨?_, hholds⟩
      change some (env.upsert key value).1.result = _
      rw [hreply, ← hresult]
      rfl
    | batchUpsert batch | bulkLoad batch =>
      obtain ⟨hreply, hholds⟩ := batchUpsert_spec h batch
      refine ⟨?_, hholds⟩
      change some (env.batchUpsert batch).1.result = _
      rw [hreply, ← hresult]
      rfl

end Lmdb

namespace WiredTiger

/-- A load of `wiredtiger_t`, in which no `insert` of a batch fails. -/
def load (db : WiredTiger) (call : LoadCall) : Option OperationResult × WiredTiger :=
  returned (db.step (.request (.data call.operation.dataOperation)))

/-- Without bulk loads no bulk cursor is opened. -/
def loadEngine : LoadEngine WiredTiger where
  serve := load
  Holds := fun db m => db.table = m ∧ db.bulkLoadCursor = none
  Accepts := fun operation => ∀ batch, operation ≠ .bulkLoad batch
  serve_spec := by
    rintro db m ⟨thread, operation⟩ ⟨rfl, hbulk⟩ hfit haccepts _
    obtain ⟨hresult, hmap⟩ := operation.mapStep_eq .ok db.table
    have hserves : db.Serves (.request (.data operation.dataOperation)) := by
      cases operation with
      | upsert key value => exact hbulk
      | batchUpsert batch => exact hbulk
      | bulkLoad batch => exact absurd rfl (haccepts batch)
    have hcursor : (db.step (.request (.data operation.dataOperation))).2.bulkLoadCursor =
        none := by
      cases operation with
      | upsert key value => simp [LoadOperation.dataOperation, step, upsert, hbulk]
      | batchUpsert batch => simp [LoadOperation.dataOperation, step, batchUpsert, hbulk]
      | bulkLoad batch => exact absurd rfl (haccepts batch)
    have hadmitted : (WiredTigerCall.request (.data operation.dataOperation)).Admitted :=
      hfit.admitted
    obtain ⟨hreply, htable⟩ := (closed_follows_iff hbulk hadmitted).mpr hserves
    refine ⟨?_, htable.trans hmap, hcursor⟩
    rw [load, returned, hreply, ← hresult]
    rfl

end WiredTiger

namespace MongoDb

def load (db : MongoDb) (call : LoadCall) : Option OperationResult × MongoDb :=
  let (reply, db) :=
    match call.operation with
    | .upsert key value => db.serve (.point (.upsert key value))
    | .batchUpsert batch => db.serve (.batchUpsert batch)
    | .bulkLoad batch => db.serve (.bulkLoad batch)
  (reply.map Reply.result, db)

/-- Only a bulk load reports keys that are new. -/
def loadEngine : LoadEngine MongoDb where
  serve := load
  Holds := Holds
  Accepts := fun operation => ∃ batch, operation = .bulkLoad batch
  serve_spec := by
    rintro db m ⟨thread, operation⟩ h hfit ⟨batch, rfl⟩ hnew
    have hkeys : (LoadOperation.bulkLoad batch).keys = batch.keys := batch.entries_keys
    have hascend := hfit.ascend
    have hne := hfit.keys_ne
    simp only [hkeys] at hascend hne hnew
    obtain ⟨hreply, hholds⟩ :=
      (bulkLoad_follows_iff h (hascend.imp ne_of_lt)).mpr ⟨hne, hnew⟩
    obtain ⟨hresult, -⟩ := (LoadOperation.bulkLoad batch).mapStep_eq .ok m
    exact ⟨(congrArg (Option.map Reply.result) hreply).trans (congrArg some hresult), hholds⟩

end MongoDb

/-- The values, and zeros around them. -/
def Batch.memory (batch : Batch) (i : ℤ) : UInt8 := batch.values.getD i.toNat 0

theorem Batch.inMemory (batch : Batch) : batch.InMemory batch.memory := by
  intro i hi
  rw [memory, Int.toNat_natCast, List.getD_eq_getElem?_getD, List.getElem?_eq_getElem hi]
  rfl

theorem Batch.sizesBefore_le {batch : Batch} {i : ℕ} {size : UInt32}
    (hsize : batch.sizes[i]? = some size) : sizesBefore batch.sizes i ≤ batch.values.length :=
  (Nat.le_add_right _ _).trans (batch.sizesBefore_add_le hsize)

namespace UStore

def bulkLoad (db : UStore) (memory : ℤ → UInt8) (keys : List UInt64) (sizes : List UInt32) :
    Reply ℤ × UStore := db.batchUpsert memory keys sizes

def load (db : UStore) (call : LoadCall) : Option OperationResult × UStore :=
  match call.operation with
  | .upsert key value => returned (db.upsert key value)
  | .batchUpsert batch => returned (db.batchUpsert batch.memory batch.keys batch.sizes)
  | .bulkLoad batch => returned (db.bulkLoad batch.memory batch.keys batch.sizes)

theorem batchUpsert_done (db : UStore) (batch : Batch) :
    (db.batchUpsert batch.memory batch.keys batch.sizes).1.result =
      (LoadOperation.batchUpsert batch).done := by
  rw [LoadOperation.done, LoadOperation.keys, LoadOperation.entries, batch.entries_keys]
  rfl

/-- The offsets of the values are of 32 bits. -/
def loadEngine : LoadEngine UStore where
  serve := load
  Holds := fun db m => db.store = m.rekey ustoreKey
  Accepts := fun operation => operation.values.length < 2 ^ 32
  serve_spec := by
    rintro db m ⟨thread, operation⟩ h _ haccepts _
    have hbatch : ∀ batch : Batch, batch.values.length < 2 ^ 32 →
        (db.batchUpsert batch.memory batch.keys batch.sizes).2.store =
          (m.putAll batch.entries).rekey ustoreKey := by
      intro batch hlength
      have hpairs := (ustorePieces_iff batch).mpr fun i size hsize _ =>
        (Batch.sizesBefore_le hsize).trans_lt hlength
      rw [batchUpsert_store hpairs batch.inMemory, h, SortedMap.rekey_putAll ustoreKey_injective]
    cases operation with
    | upsert key value =>
      refine ⟨rfl, ?_⟩
      change db.store.put (ustoreKey key) (value.take (UInt32.ofNat value.length).toNat) = _
      have hlength : (UInt32.ofNat value.length).toNat = value.length := by
        rw [UInt32.toNat_ofNat']
        exact Nat.mod_eq_of_lt haccepts
      rw [hlength, List.take_length, h]
      exact (SortedMap.rekey_put ustoreKey_injective).symm
    | batchUpsert batch | bulkLoad batch =>
      exact ⟨congrArg some (batchUpsert_done db batch), hbatch batch haccepts⟩

end UStore

namespace Redis

/-- A load of `redis_t` but for `batch_upsert`. -/
def load (db : Redis) (call : LoadCall) : Option OperationResult × Redis :=
  match call.operation with
  | .upsert key value => returned (db.upsert key value)
  | .bulkLoad batch => returned (db.bulkLoad batch.memory batch.keys batch.sizes)
  | .batchUpsert _ => (none, db)

/-- The offset of the values is an `int`. -/
def loadEngine : LoadEngine Redis where
  serve := load
  Holds := Holds
  Accepts := fun operation =>
    (∀ batch, operation ≠ .batchUpsert batch) ∧ operation.values.length < 2 ^ 31
  serve_spec := by
    rintro db m ⟨thread, operation⟩ h hfit ⟨hkind, hlength⟩ hnew
    cases operation with
    | upsert key value =>
      obtain ⟨⟨hresult, -⟩, hholds⟩ :=
        (upsert_iff h key value).mpr (hnew key (List.mem_singleton_self key))
      exact ⟨congrArg some hresult, hholds⟩
    | batchUpsert batch => exact absurd rfl (hkind batch)
    | bulkLoad batch =>
      have hpairs := (bulkPieces_iff batch).mpr fun i size hsize _ =>
        (Batch.sizesBefore_le hsize).trans_lt hlength
      have hoperation : (LoadOperation.bulkLoad batch).keys = batch.keys := batch.entries_keys
      have hascend := hfit.ascend
      simp only [hoperation] at hascend hnew
      simp only [← h.get] at hnew
      have hcount := count_hset_iff batch.memory (bulkPieces batch.keys batch.sizes) db
      rw [hpairs.map_key batch.inMemory] at hcount
      have hall := hcount.mpr ⟨hascend.imp ne_of_lt, hnew⟩
      constructor
      · change some _ = some _
        rw [bulkLoad, LoadOperation.done, hoperation]
        simp only [hall, hpairs.length]
      · change (db.bulkLoad batch.memory batch.keys batch.sizes).2.hash = _
        rw [bulkLoad_hash hpairs batch.inMemory, h, LoadOperation.entries,
          SortedMap.rekey_putAll keyBytes_injective]

end Redis

end Ucsb
