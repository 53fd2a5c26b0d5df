import Ucsb.WiredTigerQueries

namespace Ucsb

open scoped WordBytes
open RequestRun

/-- `WT_NOTFOUND`. -/
def wtNotFound : Int := -31803

namespace Cursor

/-- `get_value`. -/
def getValue : Cursor → Option Bytes
  | [] => none
  | (_, value) :: _ => some value

/-- `insert` and `update` of a cursor that overwrites, as one does by default: neither looks
whether the key is there. -/
def overwrite (table : KeyMap) (key : UInt64) (value : Bytes) : Int × KeyMap :=
  (0, table.put key value)

/-- `remove`. -/
def remove (table : KeyMap) (key : UInt64) : Int × KeyMap :=
  if (table.get key).isSome then (0, table.erase key) else (wtNotFound, table)

theorem search_getValue (table : KeyMap) (key : UInt64) :
    (search table key).bind getValue = table.get key := by
  unfold search
  cases hget : table.get key with
  | none => rfl
  | some value =>
    obtain ⟨rest, hseek⟩ := SortedMap.seek_of_get hget
    simp [hseek, getValue]

end Cursor

/-- `res == 0 ? operation_status_t::ok_k : operation_status_t::error_k`. -/
def wtStatus (res : Int) : OperationStatus := if res = 0 then .ok else .error

/-- What `wiredtiger_t` is asked for. -/
inductive WiredTigerCall
  | request (request : DataRequest)
  | flush

namespace WiredTiger

def upsert (db : WiredTiger) (key : UInt64) (value : Bytes) : Reply UInt64 × WiredTiger :=
  if db.bulkLoadCursor.isSome then (.ofStatus .error, db)
  else
    let (res, table) := Cursor.overwrite db.table key value
    (.ofStatus (wtStatus res), db.store table)

def update (db : WiredTiger) (key : UInt64) (value : Bytes) : Reply UInt64 × WiredTiger :=
  if db.bulkLoadCursor.isSome then (.ofStatus .error, db)
  else
    let (res, table) := Cursor.overwrite db.table key value
    (.ofStatus (wtStatus res), db.store table)

def remove (db : WiredTiger) (key : UInt64) : Reply UInt64 × WiredTiger :=
  if db.bulkLoadCursor.isSome then (.ofStatus .error, db)
  else
    let (res, table) := Cursor.remove db.table key
    let ok : Bool := res == 0 || res == wtNotFound
    (.ofStatus (if ok then .ok else .error), db.store table)

def read (db : WiredTiger) (key : UInt64) : Reply UInt64 :=
  if db.bulkLoadCursor.isSome then .ofStatus .error
  else
    match Cursor.search db.table key with
    | none => .ofStatus .notFound
    | some cursor =>
      match cursor.getValue with
      | none => .ofStatus .notFound
      | some value => { Reply.ofStatus .ok with copies := [{ offset := 0, data := value }] }

/-- One cursor is moved from key to key. -/
def batchRead (db : WiredTiger) (keys : List UInt64) : Reply UInt64 :=
  if db.bulkLoadCursor.isSome then .ofStatus .error
  else getLoop (fun key => (Cursor.search db.table key).bind Cursor.getValue) 0 0 keys

/-- The cursor of the bulk load is closed, and its session after it. -/
def flush (db : WiredTiger) : WiredTiger := { db with bulkLoadCursor := none }

/-- One call, in which no `insert` of a batch fails. -/
def step (db : WiredTiger) : WiredTigerCall → Reply UInt64 × WiredTiger
  | .request (.data (.point (.upsert key value))) => db.upsert key value
  | .request (.data (.point (.update key value))) => db.update key value
  | .request (.data (.point (.remove key))) => db.remove key
  | .request (.data (.point (.read key))) => (db.read key, db)
  | .request (.data (.batchUpsert batch)) => db.batchUpsert (fun _ => 0) batch
  | .request (.data (.bulkLoad batch)) => db.bulkLoad batch
  | .request (.data (.rangeSelect key length)) => (db.rangeSelect key length, db)
  | .request (.data (.scan key length)) => (db.scan key length, db)
  | .request (.batchRead keys) => (db.batchRead keys, db)
  | .flush => ({ result := {} }, db.flush)

end WiredTiger

/-- What the calls mean on a map over integer keys. -/
def WiredTigerCall.mapStep (m : KeyMap) : WiredTigerCall → Reply UInt64 × KeyMap
  | .request (.data operation) => Ucsb.mapStep .ok m operation
  | .request (.batchRead keys) => (foundReply m.get keys, m)
  | .flush => ({ result := {} }, m)

/-- The bulks of a run are as the interface wants them. -/
def WiredTigerCall.Admitted : WiredTigerCall → Prop
  | .request (.data operation) => operation.Admitted
  | _ => True

namespace WiredTiger

variable {db : WiredTiger} {batch : Batch} {key length : UInt64}

/-- A bulk load finds its cursor, which accepts the keys that are not stored as they are. Every
other request finds no bulk cursor open; an update also finds its key, and a query has nothing to
visit. -/
def Serves (db : WiredTiger) : WiredTigerCall → Prop
  | .flush => True
  | .request (.data (.bulkLoad batch)) => ∃ cursor, db.usedCursor = some cursor ∧
      ∀ e ∈ batch.entries, cursor.Accepts e.1 ∨ db.table.get e.1 = some e.2
  | .request (.data (.point (.update key _))) =>
    db.bulkLoadCursor = none ∧ db.table.get key ≠ none
  | .request (.data (.rangeSelect key length)) | .request (.data (.scan key length)) =>
    db.bulkLoadCursor = none ∧ db.table.get key ≠ none ∧ length = 0
  | _ => db.bulkLoadCursor = none

/-- The request is answered and carried out as on a map. -/
def Follows (db : WiredTiger) (call : WiredTigerCall) : Prop :=
  (db.step call).1 = (call.mapStep db.table).1 ∧ (db.step call).2.table = (call.mapStep db.table).2

/-- A map answers no request with an error. -/
theorem mapStep_status (m : KeyMap) (call : WiredTigerCall) :
    (call.mapStep m).1.result.status ≠ .error := by
  have hpoint : ∀ operation, (Ucsb.pointStep .ok m operation).1.result.status ≠ .error := by
    intro operation
    cases operation with
    | upsert key value => exact OperationStatus.noConfusion
    | update key value | remove key | read key =>
      unfold Ucsb.pointStep
      dsimp only
      split <;> simp [Reply.ofStatus]
  cases call with
  | flush => exact OperationStatus.noConfusion
  | request request =>
    cases request with
    | batchRead keys => exact OperationStatus.noConfusion
    | data operation =>
      cases operation with
      | point operation => exact hpoint operation
      | batchUpsert batch | bulkLoad batch => exact OperationStatus.noConfusion
      | rangeSelect key length | scan key length => exact OperationStatus.noConfusion

theorem not_follows_of_error {call : WiredTigerCall}
    (h : (db.step call).1 = .ofStatus .error) : ¬db.Follows call := by
  intro hfollows
  apply mapStep_status db.table call
  rw [← hfollows.1, h]
  rfl

theorem bulkLoad_follows_iff (hascend : batch.keys.Pairwise (· < ·)) :
    db.Follows (.request (.data (.bulkLoad batch))) ↔
      db.Serves (.request (.data (.bulkLoad batch))) := by
  rw [Serves]
  cases hcursor : db.usedCursor with
  | none =>
    have herror : db.bulkLoad batch = (.ofStatus .error, db) := by
      rw [bulkLoad, show db.bulkLoadCursor.or db.getBulkCursor = none from hcursor]
    refine iff_of_false (not_follows_of_error (congrArg Prod.fst herror)) ?_
    rintro ⟨cursor, hnone, -⟩
    cases hnone
  | some cursor =>
    have hnodup : (batch.entries.map Prod.fst).Nodup := by
      rw [batch.entries_keys]
      exact hascend.imp ne_of_lt
    have hload : db.bulkLoad batch =
        ({ result := { entriesTouched := UInt64.ofNat batch.keys.length } },
          { table := (bulkLoop batch.entries cursor db.table).2
            bulkLoadCursor := some (bulkLoop batch.entries cursor db.table).1
            newlyCreated := false }) := by
      rw [bulkLoad, show db.bulkLoadCursor.or db.getBulkCursor = some cursor from hcursor,
        Batch.slices_eq]
    have htable : db.Follows (.request (.data (.bulkLoad batch))) ↔
        (bulkLoop batch.entries cursor db.table).2 = db.table.putAll batch.entries := by
      rw [Follows, step, hload]
      exact and_iff_right rfl
    rw [← batch.entries_keys] at hascend
    simp only [htable, Option.some.injEq, exists_eq_left']
    have haccepts : (∀ e ∈ batch.entries,
        (bulkLoop batch.entries cursor db.table).2.get e.1 = some e.2) ↔
          ∀ e ∈ batch.entries, cursor.Accepts e.1 ∨ db.table.get e.1 = some e.2 :=
      forall₂_congr fun e he => bulkLoop_get_iff hascend he
    rw [← haccepts]
    constructor
    · intro h e he
      rw [h]
      exact SortedMap.get_putAll_of_mem hnodup he
    · intro h
      apply SortedMap.ext_get
      intro key
      by_cases hkey : ∃ e ∈ batch.entries, e.1 = key
      · obtain ⟨e, he, rfl⟩ := hkey
        rw [h e he, SortedMap.get_putAll_of_mem hnodup he]
      · have hother : ∀ e ∈ batch.entries, e.1 ≠ key := fun e he heq => hkey ⟨e, he, heq⟩
        rw [bulkLoop_frame hother, SortedMap.get_putAll_of_not_mem hother]

theorem upsertLoop_all (entries : List (UInt64 × Bytes)) (idx : ℕ) (upserted : UInt64)
    (table : KeyMap) : upsertLoop (fun _ => 0) idx entries upserted table =
      (upserted + UInt64.ofNat entries.length, table.putAll entries) := by
  induction entries generalizing idx upserted table with
  | nil => simp [upsertLoop]
  | cons e entries ih =>
    obtain ⟨key, value⟩ := e
    rw [upsertLoop, if_pos rfl, ih, SortedMap.putAll_cons, List.length_cons, UInt64.ofNat_add,
      UInt64.add_assoc, UInt64.add_comm 1]
    rfl

/-- A query does as on a map if and only if it has nothing to visit. -/
theorem query_follows_iff {advance : ℕ → Bytes → ℕ} {place : List Bytes → List Copy}
    (hplace : ∀ values, placedCopies advance 0 values = place values)
    (hbulk : db.bulkLoadCursor = none) :
    db.query advance key length = rangeReply place (firstEntries db.table key length) ↔
      db.table.get key ≠ none ∧ length = 0 := by
  cases hget : db.table.get key with
  | none =>
    refine iff_of_false ?_ fun h => h.1 rfl
    have herror : db.query advance key length = .ofStatus .error := by
      simp [query, hbulk, Cursor.search, hget]
    rw [herror]
    intro h
    cases congrArg (fun reply => reply.result.status) h
  | some value =>
    obtain ⟨rest, hseek⟩ := SortedMap.seek_of_get hget
    rw [and_iff_right (Option.some_ne_none value), ← take_behind_iff hseek,
      query_of_get hbulk hget hseek, hplace]
    constructor
    · intro h
      exact congrArg Reply.visited h
    · intro h
      rw [h]
      rfl

theorem point_follows_iff (hbulk : db.bulkLoadCursor = none) (operation : PointOperation) :
    db.Follows (.request (.data (.point operation))) ↔
      db.Serves (.request (.data (.point operation))) := by
  cases operation with
  | upsert key value =>
    refine iff_of_true ?_ hbulk
    rw [Follows, step, upsert, hbulk]
    exact ⟨rfl, rfl⟩
  | update key value =>
    rw [Follows, Serves, step, update, hbulk, Cursor.overwrite, WiredTigerCall.mapStep,
      Ucsb.mapStep, Ucsb.pointStep]
    cases db.table.get key with
    | none =>
      refine iff_of_false (fun h => ?_) fun h => h.2 rfl
      cases congrArg (fun reply => reply.result.status) h.1
    | some data => exact iff_of_true ⟨rfl, rfl⟩ ⟨rfl, Option.some_ne_none data⟩
  | remove key =>
    refine iff_of_true ?_ hbulk
    rw [Follows, step, remove, hbulk, Cursor.remove, WiredTigerCall.mapStep, Ucsb.mapStep,
      Ucsb.pointStep]
    cases db.table.get key <;> exact ⟨rfl, rfl⟩
  | read key =>
    refine iff_of_true ?_ hbulk
    have hsearch := Cursor.search_getValue db.table key
    rw [Follows, step, read, hbulk, WiredTigerCall.mapStep, Ucsb.mapStep, Ucsb.pointStep]
    cases hcursor : Cursor.search db.table key with
    | none =>
      rw [hcursor] at hsearch
      rw [← hsearch]
      exact ⟨rfl, rfl⟩
    | some cursor =>
      rw [hcursor, Option.bind_some] at hsearch
      rw [← hsearch]
      cases hvalue : cursor.getValue with
      | none => simp [hvalue]
      | some value => simp [hvalue]

theorem closed_follows_iff (hbulk : db.bulkLoadCursor = none) {call : WiredTigerCall}
    (hadmitted : call.Admitted) : db.Follows call ↔ db.Serves call := by
  cases call with
  | flush => exact iff_of_true ⟨rfl, rfl⟩ trivial
  | request request =>
    cases request with
    | batchRead keys =>
      refine iff_of_true ?_ hbulk
      rw [Follows, step, batchRead, hbulk, funext (Cursor.search_getValue db.table),
        getLoop_found]
      exact ⟨rfl, rfl⟩
    | data operation =>
      cases operation with
      | point operation => exact point_follows_iff hbulk operation
      | bulkLoad batch => exact bulkLoad_follows_iff hadmitted.2
      | batchUpsert batch =>
        refine iff_of_true ?_ hbulk
        rw [Follows, step, batchUpsert, hbulk, upsertLoop_all, Batch.slices_eq,
          batch.entries_length, UInt64.zero_add]
        exact ⟨rfl, rfl⟩
      | rangeSelect key length =>
        rw [Serves, and_iff_right hbulk, ← query_follows_iff (placedCopies_exported 0) hbulk]
        exact and_iff_left rfl
      | scan key length =>
        rw [Serves, and_iff_right hbulk, ← query_follows_iff (placedCopies_stay 0) hbulk]
        exact and_iff_left rfl

/-- While the bulk cursor is open, only bulk loads and the flush do not fail. -/
theorem loading_follows_iff (hbulk : db.bulkLoadCursor ≠ none) {call : WiredTigerCall}
    (hadmitted : call.Admitted) : db.Follows call ↔ db.Serves call := by
  have hopen : db.bulkLoadCursor.isSome := Option.isSome_iff_ne_none.mpr hbulk
  cases call with
  | flush => exact iff_of_true ⟨rfl, rfl⟩ trivial
  | request request =>
    cases request with
    | batchRead keys =>
      refine iff_of_false (not_follows_of_error ?_) hbulk
      exact if_pos hopen
    | data operation =>
      cases operation with
      | bulkLoad batch => exact bulkLoad_follows_iff hadmitted.2
      | batchUpsert batch =>
        refine iff_of_false (not_follows_of_error ?_) hbulk
        rw [step, batchUpsert, if_pos hopen]
      | rangeSelect key length | scan key length =>
        refine iff_of_false (not_follows_of_error ?_) fun h => hbulk h.1
        exact query_of_bulk hbulk
      | point operation =>
        cases operation with
        | upsert key value =>
          refine iff_of_false (not_follows_of_error ?_) hbulk
          rw [step, upsert, if_pos hopen]
        | update key value =>
          refine iff_of_false (not_follows_of_error ?_) fun h => hbulk h.1
          rw [step, update, if_pos hopen]
        | remove key =>
          refine iff_of_false (not_follows_of_error ?_) hbulk
          rw [step, remove, if_pos hopen]
        | read key =>
          refine iff_of_false (not_follows_of_error ?_) hbulk
          exact if_pos hopen

end WiredTiger

/-- A run is served as on a map if and only if every call of it comes when it is served: loads
into the cursor that the first of them opened on a newly created table, in ascending order,
and all else before the first load or after a flush, but for updates of missing keys, which
insert them, and for queries. -/
theorem wiredTiger_refines_map_iff (db : WiredTiger) (calls : List WiredTigerCall)
    (hadmitted : ∀ call ∈ calls, call.Admitted) :
    Agree WiredTiger.step WiredTigerCall.mapStep Eq (fun db m => db.table = m) db db.table calls ↔
      Throughout WiredTiger.step WiredTiger.Serves db calls := by
  refine agree_iff_machine (fun db m call h hcall => ?_) rfl hadmitted
  rw [← h]
  by_cases hbulk : db.bulkLoadCursor = none
  · exact WiredTiger.closed_follows_iff hbulk hcall
  · exact WiredTiger.loading_follows_iff hbulk hcall

/-- A load in two bulks, a flush, an update and a batch read. -/
theorem wiredTiger_refines_map_flushed :
    let low : Batch :=
      { keys := [1, 2], values := [7, 8, 9], sizes := [1, 2], sizes_length := rfl
        sizes_sum := rfl }
    let high : Batch :=
      { keys := [5], values := [6], sizes := [1], sizes_length := rfl, sizes_sum := rfl }
    Agree WiredTiger.step WiredTigerCall.mapStep Eq (fun db m => db.table = m) { table := ∅ } ∅
      [.request (.data (.bulkLoad low)), .request (.data (.bulkLoad high)), .flush,
        .request (.data (.point (.update 5 [4]))), .request (.batchRead [5, 3, 1])] := by
  intro low high
  refine (wiredTiger_refines_map_iff { table := ∅ } _ ?_).mpr ?_
  · simp only [List.forall_mem_cons, List.not_mem_nil, false_implies, implies_true, and_true]
    exact ⟨⟨by decide, by decide⟩, ⟨by decide, by decide⟩, trivial, trivial, trivial⟩
  · refine ⟨⟨{}, rfl, fun e _ => .inl ?_⟩, ⟨{ lastKey := some 2 }, rfl, ?_⟩, trivial,
      ⟨rfl, ?_⟩, rfl, trivial⟩
    · intro last hlast
      cases hlast
    · decide +kernel
    · decide +kernel

/-- A removal does not make a table new again. -/
example :
    let db := ((WiredTiger.upsert { table := ∅ } 1 [7]).2.remove 1).2
    db.table.entries = [] ∧ db.getBulkCursor.isNone := by
  decide +kernel

end Ucsb
