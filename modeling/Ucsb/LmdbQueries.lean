import Ucsb.LevelDbRefines
import Ucsb.LmdbRefines
import Ucsb.RangeOrder

namespace Ucsb

open scoped WordBytes
open RequestRun

/-- `mdb_get` of a key, and whether `res == 0` after it. -/
def MdbTxn.found (txn : MdbTxn) (key : UInt64) : Option Bytes :=
  let (res, valSlice) := txn.get (keyBytes key)
  if res = .success then some valSlice else none

theorem MdbTxn.found_eq (txn : MdbTxn) (key : UInt64) :
    txn.found key = txn.view.get (keyBytes key) := by
  unfold found get
  cases txn.view.get (keyBytes key) <;> rfl

namespace Lmdb

def batchRead (env : Lmdb) (keys : List UInt64) : Reply Bytes × Lmdb :=
  let (res, txn, env) := env.txnBegin true
  if res ≠ .success then (.ofStatus .error, env)
  else (getLoop txn.found 0 0 keys, env.txnAbort)

def serve (env : Lmdb) : DataRequest → Reply Bytes × Lmdb
  | .data (.point operation) => env.pointStep operation
  | .data (.batchUpsert batch) => env.batchUpsert batch
  | .data (.bulkLoad batch) => env.bulkLoad batch
  | .data (.rangeSelect key length) => env.rangeSelect key length
  | .data (.scan key length) => env.scan key length
  | .batchRead keys => env.batchRead keys

end Lmdb

namespace DataRequest

/-- A map over integer keys that reports the keys it does not have, and whose queries go by
the reversed keys. -/
def reportingStep (m : KeyMap) : DataRequest → Reply UInt64 × KeyMap
  | .data (.point operation) => pointStep .notFound m operation
  | request => reversedStep m request

/-- A request that updates no stored key, and makes no query from a key that is not there. -/
def KeepsOff (m : KeyMap) : DataRequest → Prop
  | .data (.point (.update key _)) => m.get key = none
  | .data (.rangeSelect key _) | .data (.scan key _) => m.get key ≠ none
  | _ => True

end DataRequest

namespace Lmdb

variable {env : Lmdb} {m : KeyMap} {advance : ℕ → Bytes → ℕ} {place : List Bytes → List Copy}
  {key length : UInt64}

theorem batchRead_spec (h : env.Holds m) (keys : List UInt64) :
    (env.batchRead keys).1 = (foundReply m.get keys : Reply UInt64).encode keyBytes ∧
      (env.batchRead keys).2.Holds m := by
  have hget : MdbTxn.found { readOnly := true, view := env.store } = m.get := by
    funext key
    rw [MdbTxn.found_eq, get_store h]
  refine ⟨?_, h.store, ?_⟩
  · change getLoop (MdbTxn.found { readOnly := true, view := env.store }) 0 0 keys = _
    rw [hget, getLoop_found]
    rfl
  · change env.openTxns + 1 - 1 = 0
    rw [h.closed]

/-- A query that finds its key or not leaves the environment as it was. -/
theorem queryFrom_holds (h : env.Holds m) : (env.queryFrom advance key length).2.Holds m := by
  have hclosed : env.openTxns + 1 - 1 = 0 := by rw [h.closed]
  have hget := get_store h key
  simp only [queryFrom, txnBegin, MdbTxn.cursorSet, txnAbort, hget]
  cases m.get key with
  | none => exact ⟨h.store, hclosed⟩
  | some value => exact ⟨h.store, hclosed⟩

theorem queryFrom_absent (h : env.Holds m) (hkey : m.get key = none) :
    (env.queryFrom advance key length).1 = .ofStatus .notFound := by
  have hget : env.store.get (keyBytes key) = none := (get_store h key).trans hkey
  simp [queryFrom, txnBegin, MdbTxn.cursorSet, hget]

/-- From a stored key on, the cursor visits the entries in the order of the reversed keys. -/
theorem queryFrom_present {value : Bytes} (h : env.Holds m)
    (hplace : ∀ values, placedCopies advance 0 values = place values)
    (hkey : m.get key = some value) : (env.queryFrom advance key length).1 =
      (rangeReply place (reversedEntries m key length)).encode keyBytes := by
  have hstore : LevelDb.Holds { store := m.rekey keyBytes } m := rfl
  rw [queryFrom_reply h.store hkey]
  exact LevelDb.rangeLoop_spec hstore hplace key length

theorem queryFrom_iff (h : env.Holds m)
    (hplace : ∀ values, placedCopies advance 0 values = place values) :
    ((env.queryFrom advance key length).1 =
        (rangeReply place (reversedEntries m key length)).encode keyBytes ∧
      (env.queryFrom advance key length).2.Holds m) ↔ m.get key ≠ none := by
  cases hkey : m.get key with
  | some value =>
    exact iff_of_true ⟨queryFrom_present h hplace hkey, queryFrom_holds h⟩
      (Option.some_ne_none value)
  | none =>
    apply iff_of_false
    · rintro ⟨hreply, -⟩
      rw [queryFrom_absent h hkey] at hreply
      have hstatus : OperationStatus.notFound = .ok :=
        congrArg (fun reply => reply.result.status) hreply
      cases hstatus
    · exact fun hne => hne rfl

/-- A request is served as on the map if and only if it keeps off what LMDB refuses. -/
theorem serve_iff (env : Lmdb) (m : KeyMap) (request : DataRequest) (h : env.Holds m) :
    ((env.serve request).1 = (request.reportingStep m).1.encode keyBytes ∧
      (env.serve request).2.Holds (request.reportingStep m).2) ↔ request.KeepsOff m := by
  cases request with
  | batchRead keys => exact iff_of_true (batchRead_spec h keys) trivial
  | data operation =>
    cases operation with
    | batchUpsert batch | bulkLoad batch => exact iff_of_true (batchUpsert_spec h batch) trivial
    | rangeSelect key length => exact queryFrom_iff h (placedCopies_exported 0)
    | scan key length => exact queryFrom_iff h (placedCopies_stay 0)
    | point operation =>
      have hstep := step_iff env m (.point operation) h
      cases operation <;> exact hstep

theorem serve_holds (request : DataRequest) (h : env.Holds m) :
    ∃ m', (env.serve request).2.Holds m' := by
  cases request with
  | batchRead keys => exact ⟨m, (batchRead_spec h keys).2⟩
  | data operation =>
    cases operation with
    | batchUpsert batch | bulkLoad batch => exact ⟨_, (batchUpsert_spec h batch).2⟩
    | rangeSelect key length | scan key length => exact ⟨m, queryFrom_holds h⟩
    | point operation => exact step_holds (.point operation) h

theorem serve_closed (h : env.Holds m) (requests : List DataRequest) :
    (run serve env requests).2.openTxns = 0 := by
  have hall : Throughout serve (fun _ _ => True) env requests :=
    throughout_of_mem fun _ _ => trivial
  have hstep (env : Lmdb) (request : DataRequest) (h : ∃ m, env.Holds m) (_ : True) :
      ∃ m, (env.serve request).2.Holds m := by
    obtain ⟨m, h⟩ := h
    exact serve_holds request h
  obtain ⟨m', hend⟩ := run_of_step hstep ⟨m, h⟩ hall
  exact hend.closed

end Lmdb

/-- A run of all operations is served as on the map if and only if it updates no stored key and
starts its queries from stored keys; no run leaves a transaction open. -/
theorem lmdb_serves_map_iff (m : KeyMap) (requests : List DataRequest) :
    let env : Lmdb := { store := m.rekey keyBytes }
    (Agree Lmdb.serve DataRequest.reportingStep
        (fun reply expected => reply = expected.encode keyBytes) Lmdb.Holds env m requests ↔
      Throughout DataRequest.reportingStep DataRequest.KeepsOff m requests) ∧
      (run Lmdb.serve env requests).2.openTxns = 0 := by
  intro env
  have hstart : env.Holds m := ⟨rfl, rfl⟩
  exact ⟨agree_iff Lmdb.serve_iff hstart, Lmdb.serve_closed hstart requests⟩

/-- LevelDB goes on to the next key where LMDB finds nothing. -/
example :
    let m : KeyMap := SortedMap.empty.put 2 [7]
    (Lmdb.rangeSelect { store := m.rekey keyBytes } 1 1).1.result =
        { entriesTouched := 0, status := .notFound } ∧
      (LevelDb.rangeSelect { store := m.rekey keyBytes } 1 1).result =
        { entriesTouched := 1 } := by
  decide +kernel

end Ucsb
