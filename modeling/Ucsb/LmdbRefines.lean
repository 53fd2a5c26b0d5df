import Ucsb.Lmdb
import Ucsb.RequestRun

namespace Ucsb

open scoped WordBytes
open RequestRun

namespace Lmdb

variable {env : Lmdb} {m : KeyMap}

/-- The environment holds the map under the memory of its keys, and no transaction is open. -/
structure Holds (env : Lmdb) (m : KeyMap) : Prop where
  store : env.store = m.rekey keyBytes
  closed : env.openTxns = 0

theorem get_store (h : env.Holds m) (key : UInt64) : env.store.get (keyBytes key) = m.get key := by
  rw [h.store, SortedMap.get_rekey keyBytes_injective]

theorem upsert_spec (h : env.Holds m) (key : UInt64) (value : Bytes) :
    (env.upsert key value).1 = .ofStatus .ok ∧
      (env.upsert key value).2.Holds (m.put key value) := by
  refine ⟨rfl, ?_, ?_⟩
  · show env.store.put (keyBytes key) value = _
    rw [h.store, SortedMap.rekey_put keyBytes_injective]
  · show env.openTxns + 1 - 1 = 0
    rw [h.closed]

/-- The transaction of `update` is read-only: it finds the key but cannot write it. -/
theorem update_spec (h : env.Holds m) (key : UInt64) (value : Bytes) :
    (env.update key value).1 = .ofStatus (if m.get key = none then .notFound else .error) ∧
      (env.update key value).2.Holds m := by
  have hclosed : env.openTxns + 1 - 1 = 0 := by rw [h.closed]
  have hget := get_store h key
  simp only [update, txnBegin, MdbTxn.get, MdbTxn.put, txnAbort, hget]
  cases m.get key with
  | none => exact ⟨rfl, h.store, hclosed⟩
  | some data => exact ⟨rfl, h.store, hclosed⟩

theorem remove_spec (h : env.Holds m) (key : UInt64) :
    (env.remove key).1 = (Ucsb.pointStep .notFound m (.remove key)).1.encode keyBytes ∧
      (env.remove key).2.Holds (Ucsb.pointStep .notFound m (.remove key)).2 := by
  have hclosed : env.openTxns + 1 - 1 = 0 := by rw [h.closed]
  have hget := get_store h key
  simp only [remove, txnBegin, MdbTxn.del, txnAbort, txnCommit, hget, Ucsb.pointStep]
  cases m.get key with
  | none => exact ⟨rfl, h.store, hclosed⟩
  | some data =>
    refine ⟨rfl, ?_, hclosed⟩
    show env.store.erase (keyBytes key) = _
    rw [h.store, SortedMap.rekey_erase keyBytes_injective]

theorem read_spec (h : env.Holds m) (key : UInt64) :
    (env.read key).1 = (Ucsb.pointStep .notFound m (.read key)).1.encode keyBytes ∧
      (env.read key).2.Holds (Ucsb.pointStep .notFound m (.read key)).2 := by
  have hclosed : env.openTxns + 1 - 1 = 0 := by rw [h.closed]
  have hget := get_store h key
  simp only [read, txnBegin, MdbTxn.get, txnAbort, hget, Ucsb.pointStep]
  cases m.get key with
  | none => exact ⟨rfl, h.store, hclosed⟩
  | some data => exact ⟨rfl, h.store, hclosed⟩

theorem putLoop_eq (entries : List (UInt64 × Bytes)) (view : ByteMap) :
    putLoop entries { readOnly := false, view := view } = (.success,
      { readOnly := false, view := view.putAll (entries.map (Prod.map keyBytes id)) }) := by
  induction entries generalizing view with
  | nil => rfl
  | cons e entries ih =>
    obtain ⟨key, value⟩ := e
    exact ih (view.put (keyBytes key) value)

theorem batchUpsert_spec (h : env.Holds m) (batch : Batch) :
    (env.batchUpsert batch).1 = (batchStep m batch).1.encode keyBytes ∧
      (env.batchUpsert batch).2.Holds (batchStep m batch).2 := by
  have hclosed : env.openTxns + 1 - 1 = 0 := by rw [h.closed]
  simp only [batchUpsert, txnBegin, Batch.slices_eq, putLoop_eq]
  refine ⟨rfl, ?_, hclosed⟩
  show env.store.putAll (batch.entries.map (Prod.map keyBytes id)) = _
  rw [h.store, batchStep, SortedMap.rekey_putAll keyBytes_injective]

end Lmdb

/-- A call that does not update a stored key. -/
def LmdbCall.KeepsOff (m : KeyMap) : LmdbCall → Prop
  | .point (.update key _) => m.get key = none
  | _ => True

namespace Lmdb

variable {env : Lmdb} {m : KeyMap}

/-- A call is served as on the map if and only if it does not update a stored key. -/
theorem step_iff (env : Lmdb) (m : KeyMap) (call : LmdbCall) (h : env.Holds m) :
    ((env.step call).1 = (call.mapStep m).1.encode keyBytes ∧
      (env.step call).2.Holds (call.mapStep m).2) ↔ call.KeepsOff m := by
  cases call with
  | batchUpsert batch => exact iff_of_true (batchUpsert_spec h batch) trivial
  | point operation =>
    cases operation with
    | upsert key value => exact iff_of_true (upsert_spec h key value) trivial
    | remove key => exact iff_of_true (remove_spec h key) trivial
    | read key => exact iff_of_true (read_spec h key) trivial
    | update key value =>
      obtain ⟨hreply, hholds⟩ := update_spec h key value
      rw [step, pointStep, hreply, LmdbCall.mapStep, Ucsb.pointStep, LmdbCall.KeepsOff]
      cases hget : m.get key with
      | none => exact iff_of_true ⟨rfl, hholds⟩ rfl
      | some data =>
        apply iff_of_false
        · rintro ⟨hfailed, -⟩
          have hstatus : OperationStatus.error = .ok :=
            congrArg (fun reply => reply.result.status) hfailed
          cases hstatus
        · exact Option.some_ne_none data

theorem step_holds (call : LmdbCall) (h : env.Holds m) : ∃ m', (env.step call).2.Holds m' := by
  cases call with
  | batchUpsert batch => exact ⟨_, (batchUpsert_spec h batch).2⟩
  | point operation =>
    cases operation with
    | upsert key value => exact ⟨_, (upsert_spec h key value).2⟩
    | update key value => exact ⟨_, (update_spec h key value).2⟩
    | remove key => exact ⟨_, (remove_spec h key).2⟩
    | read key => exact ⟨_, (read_spec h key).2⟩

/-- Whatever is called, no transaction stays open. -/
theorem run_closed (h : env.Holds m) (calls : List LmdbCall) :
    (run step env calls).2.openTxns = 0 := by
  induction calls generalizing env m with
  | nil => exact h.closed
  | cons call calls ih =>
    obtain ⟨m', h'⟩ := step_holds call h
    exact ih h'

end Lmdb

/-- A run is served as on the map if and only if no call of it updates a key that the map
has by then; no run leaves a transaction open. -/
theorem lmdb_refines_map_iff (m : KeyMap) (calls : List LmdbCall) :
    let env : Lmdb := { store := m.rekey keyBytes }
    (Agree Lmdb.step LmdbCall.mapStep (fun reply expected => reply = expected.encode keyBytes)
        Lmdb.Holds env m calls ↔
      Throughout LmdbCall.mapStep LmdbCall.KeepsOff m calls) ∧
      (run Lmdb.step env calls).2.openTxns = 0 := by
  intro env
  have hstart : env.Holds m := ⟨rfl, rfl⟩
  exact ⟨agree_iff Lmdb.step_iff hstart, Lmdb.run_closed hstart calls⟩

/-- An update of a stored key fails and stores nothing. -/
theorem lmdb_update_present_fails :
    let m : KeyMap := SortedMap.empty.put 1 [7]
    let served := Lmdb.update { store := m.rekey keyBytes } 1 [8]
    served.1.result = { entriesTouched := 0, status := .error } ∧
      served.2.store.get (keyBytes 1) = some [7] := by
  decide +kernel

end Ucsb
