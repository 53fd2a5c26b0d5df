import Ucsb.MongoDb

namespace Ucsb

open scoped WordBytes
open RequestRun

namespace MongoDb

/-- The same call as in `upsert`, so that a document that is missing is made. -/
def update (db : MongoDb) (key : UInt64) (value : Bytes) : Reply Bytes × MongoDb :=
  let (modifiedCount, collection) := updateOne db.collection (makeOid key) value
  if modifiedCount ≠ 0 then (.ofStatus .ok, { collection := collection })
  else (.ofStatus .error, { collection := collection })

/-- `delete_one`: how many documents it deleted, and the documents after it. -/
def deleteOne (collection : ByteMap) (oid : Bytes) : ℕ × ByteMap :=
  (if (collection.get oid).isSome then 1 else 0, collection.erase oid)

def remove (db : MongoDb) (key : UInt64) : Reply Bytes × MongoDb :=
  let (deletedCount, collection) := deleteOne db.collection (makeOid key)
  if deletedCount ≠ 0 then (.ofStatus .ok, { collection := collection })
  else (.ofStatus .notFound, { collection := collection })

def read (db : MongoDb) (key : UInt64) : Reply Bytes :=
  match db.collection.get (makeOid key) with
  | none => .ofStatus .notFound
  | some data => { Reply.ofStatus .ok with copies := [{ offset := 0, data := data }] }

/-- `execute` of the inserts in their order: the count of the inserted documents, unless an
`_id` is there already. -/
def insertLoop : List (UInt64 × Bytes) → ℕ → ByteMap → Option ℕ × ByteMap
  | [], insertedCount, collection => (some insertedCount, collection)
  | (key, value) :: rest, insertedCount, collection =>
    if (collection.get (makeOid key)).isSome then (none, collection)
    else insertLoop rest (insertedCount + 1) (collection.put (makeOid key) value)

/-- `execute` throws without operations, and after an insert that failed. -/
def bulkLoad (db : MongoDb) (batch : Batch) : Option (Reply Bytes) × MongoDb :=
  if batch.slices = [] then (none, db)
  else
    match insertLoop batch.slices 0 db.collection with
    | (none, collection) => (none, { collection := collection })
    | (some insertedCount, collection) =>
      if insertedCount = batch.keys.length then
        (some { result := { entriesTouched := UInt64.ofNat batch.keys.length } },
          { collection := collection })
      else (some (.ofStatus .error), { collection := collection })

end MongoDb

/-- What MongoDB serves within one command. -/
inductive MongoRequest
  | point (operation : PointOperation)
  | batchUpsert (batch : Batch)
  | bulkLoad (batch : Batch)

namespace MongoRequest

/-- No key comes twice in a batch. -/
def Admitted : MongoRequest → Prop
  | .batchUpsert batch | .bulkLoad batch => batch.keys.Nodup
  | _ => True

def mapStep (m : KeyMap) : MongoRequest → Reply UInt64 × KeyMap
  | .point operation => Ucsb.pointStep .notFound m operation
  | .batchUpsert batch | .bulkLoad batch => batchStep m batch

/-- The value of a key changes. -/
def Changes (m : KeyMap) (key : UInt64) (value : Bytes) : Prop :=
  ∃ old, m.get key = some old ∧ old ≠ value

/-- Upserts and updates change the values of keys that are there, and a bulk brings keys that
are not. -/
def Served (m : KeyMap) : MongoRequest → Prop
  | .point (.upsert key value) | .point (.update key value) => Changes m key value
  | .point _ => True
  | .batchUpsert batch => batch.keys ≠ [] ∧ ∀ e ∈ batch.entries, Changes m e.1 e.2
  | .bulkLoad batch => batch.keys ≠ [] ∧ ∀ key ∈ batch.keys, m.get key = none

end MongoRequest

namespace MongoDb

def pointStep (db : MongoDb) : PointOperation → Reply Bytes × MongoDb
  | .upsert key value => db.upsert key value
  | .update key value => db.update key value
  | .remove key => db.remove key
  | .read key => (db.read key, db)

/-- What a request returns, if it does. -/
def serve (db : MongoDb) : MongoRequest → Option (Reply Bytes) × MongoDb
  | .point operation => ((db.pointStep operation).1, (db.pointStep operation).2)
  | .batchUpsert batch => db.batchUpsert batch
  | .bulkLoad batch => db.bulkLoad batch

variable {db : MongoDb} {m : KeyMap} {batch : Batch}

/-- The collection holds the map under the object ids of its keys. -/
def Holds (db : MongoDb) (m : KeyMap) : Prop := db.collection = m.rekey makeOid

theorem Holds.get (h : db.Holds m) (key : UInt64) :
    db.collection.get (makeOid key) = m.get key := by
  rw [Holds] at h
  rw [h, SortedMap.get_rekey makeOid_injective]

theorem Holds.put (h : db.Holds m) (key : UInt64) (value : Bytes) :
    db.collection.put (makeOid key) value = (m.put key value).rekey makeOid := by
  rw [Holds] at h
  rw [h, SortedMap.rekey_put makeOid_injective]

/-- The request is answered and carried out as on the map. -/
def Follows (db : MongoDb) (m : KeyMap) (request : MongoRequest) : Prop :=
  (db.serve request).1 = some ((request.mapStep m).1.encode makeOid) ∧
    (db.serve request).2.Holds (request.mapStep m).2

theorem updateOne_ne_zero_iff (h : db.Holds m) (key : UInt64) (value : Bytes) :
    (updateOne db.collection (makeOid key) value).1 ≠ 0 ↔ MongoRequest.Changes m key value := by
  have hmodified := updateOne_modified_iff db.collection (makeOid key) value
  have hle := updateOne_le db.collection (makeOid key) value
  rw [h.get] at hmodified
  rw [MongoRequest.Changes, ← hmodified]
  omega

theorem upsert_follows_iff (h : db.Holds m) (key : UInt64) (value : Bytes) :
    db.Follows m (.point (.upsert key value)) ↔ MongoRequest.Changes m key value := by
  rw [← updateOne_ne_zero_iff h, Follows, serve, pointStep, upsert_eq]
  split
  next hmodified => exact iff_of_true ⟨rfl, h.put key value⟩ hmodified
  next hmodified =>
    refine iff_of_false (fun hfollows => ?_) hmodified
    cases congrArg (Option.map fun reply => reply.result.status) hfollows.1

theorem update_eq (key : UInt64) (value : Bytes) : db.update key value = db.upsert key value := rfl

theorem update_follows_iff (h : db.Holds m) (key : UInt64) (value : Bytes) :
    db.Follows m (.point (.update key value)) ↔ MongoRequest.Changes m key value := by
  by_cases hchanges : MongoRequest.Changes m key value
  · refine iff_of_true ?_ hchanges
    have hupsert := (upsert_follows_iff h key value).mpr hchanges
    obtain ⟨old, hget, -⟩ := hchanges
    have hstep : Ucsb.pointStep .notFound m (.update key value) =
        Ucsb.pointStep .notFound m (.upsert key value) := by
      simp only [Ucsb.pointStep, hget]
    rw [Follows, MongoRequest.mapStep, hstep]
    exact hupsert
  · refine iff_of_false (fun hfollows => ?_) hchanges
    have hunmodified := (updateOne_ne_zero_iff h key value).not.mpr hchanges
    have hreply := hfollows.1
    rw [serve, pointStep, update_eq, upsert_eq, if_neg hunmodified, MongoRequest.mapStep] at hreply
    have hstatus := congrArg (Option.map fun reply => reply.result.status) hreply
    unfold Ucsb.pointStep at hstatus
    cases hget : m.get key <;> simp [hget, Reply.ofStatus, Reply.encode] at hstatus

theorem remove_follows (h : db.Holds m) (key : UInt64) : db.Follows m (.point (.remove key)) := by
  have hstore : db.collection.erase (makeOid key) = (m.erase key).rekey makeOid := by
    rw [SortedMap.rekey_erase makeOid_injective, ← h]
  rw [Follows, serve, pointStep, remove, deleteOne, h.get, MongoRequest.mapStep, Ucsb.pointStep]
  cases hget : m.get key with
  | none =>
    rw [SortedMap.erase_of_get_none hget] at hstore
    exact ⟨rfl, hstore⟩
  | some value => exact ⟨rfl, hstore⟩

theorem read_follows (h : db.Holds m) (key : UInt64) : db.Follows m (.point (.read key)) := by
  rw [Follows, serve, pointStep, read, h.get, MongoRequest.mapStep, Ucsb.pointStep]
  cases m.get key <;> exact ⟨rfl, h⟩

theorem entries_eq_nil_iff : batch.entries = [] ↔ batch.keys = [] := by
  rw [← List.length_eq_zero_iff, batch.entries_length, List.length_eq_zero_iff]

theorem putAll_oids (h : db.Holds m) : Holds
    { collection := db.collection.putAll (batch.entries.map (Prod.map makeOid id)) }
    (m.putAll batch.entries) := by
  rw [Holds] at h ⊢
  rw [h, SortedMap.rekey_putAll makeOid_injective]

theorem batchUpsert_follows_iff (h : db.Holds m) (hnodup : batch.keys.Nodup) :
    db.Follows m (.batchUpsert batch) ↔ MongoRequest.Served m (.batchUpsert batch) := by
  by_cases hkeys : batch.keys = []
  · refine iff_of_false (fun hfollows => ?_) fun hserved => hserved.1 hkeys
    have hempty : db.batchUpsert batch = (none, db) := by
      rw [batchUpsert, Batch.slices_eq, if_pos (entries_eq_nil_iff.mpr hkeys)]
    rw [Follows, serve, hempty] at hfollows
    cases hfollows.1
  · have hentries := entries_eq_nil_iff.not.mpr hkeys
    rw [← batch.entries_keys] at hnodup
    have hcount : (executeLoop batch.entries 0 db.collection).1 = 0 + batch.entries.length ↔
        ∀ e ∈ batch.entries, ∃ old, db.collection.get (makeOid e.1) = some old ∧ old ≠ e.2 :=
      executeLoop_count_iff hnodup 0
    rw [Nat.zero_add, batch.entries_length] at hcount
    simp only [h.get] at hcount
    rw [MongoRequest.Served, and_iff_right hkeys, Follows, serve, batchUpsert_eq hentries]
    split
    next hall => exact iff_of_true ⟨rfl, putAll_oids h⟩ (hcount.mp hall)
    next hall =>
      refine iff_of_false (fun hfollows => ?_) (hcount.not.mp hall)
      cases congrArg (Option.map fun reply => reply.result.status) hfollows.1

/-- The inserts come to their end, or one of them fails. -/
theorem insertLoop_eq (entries : List (UInt64 × Bytes)) (n : ℕ) (collection : ByteMap)
    (h : (insertLoop entries n collection).1 ≠ none) : insertLoop entries n collection =
      (some (n + entries.length), collection.putAll (entries.map (Prod.map makeOid id))) := by
  induction entries generalizing n collection with
  | nil => rfl
  | cons e entries ih =>
    obtain ⟨key, value⟩ := e
    rw [insertLoop] at h ⊢
    split at h
    next => exact absurd rfl h
    next hnew =>
      rw [if_neg hnew, ih _ _ h, List.length_cons, Nat.add_assoc, Nat.add_comm 1]
      rfl

/-- None fails if and only if no `_id` is there before. -/
theorem insertLoop_iff {entries : List (UInt64 × Bytes)} (hnodup : (entries.map Prod.fst).Nodup)
    (n : ℕ) (collection : ByteMap) : (insertLoop entries n collection).1 ≠ none ↔
      ∀ e ∈ entries, collection.get (makeOid e.1) = none := by
  induction entries generalizing n collection with
  | nil => simp [insertLoop]
  | cons e entries ih =>
    obtain ⟨key, value⟩ := e
    rw [List.map_cons, List.nodup_cons] at hnodup
    have hother : ∀ e ∈ entries, makeOid e.1 ≠ makeOid key := by
      intro e he heq
      exact hnodup.1 (List.mem_map.mpr ⟨e, he, makeOid_injective heq⟩)
    have hframe : (∀ e ∈ entries, (collection.put (makeOid key) value).get (makeOid e.1) = none) ↔
        ∀ e ∈ entries, collection.get (makeOid e.1) = none := by
      refine forall₂_congr fun e he => ?_
      rw [SortedMap.get_put, if_neg (hother e he)]
    rw [List.forall_mem_cons, insertLoop, ← hframe]
    split
    next hold =>
      refine iff_of_false (fun h => h rfl) fun h => ?_
      simp [h.1] at hold
    next hnew => rw [ih hnodup.2, and_iff_right (by simpa using hnew)]

theorem bulkLoad_follows_iff (h : db.Holds m) (hnodup : batch.keys.Nodup) :
    db.Follows m (.bulkLoad batch) ↔ MongoRequest.Served m (.bulkLoad batch) := by
  by_cases hkeys : batch.keys = []
  · refine iff_of_false (fun hfollows => ?_) fun hserved => hserved.1 hkeys
    have hempty : db.bulkLoad batch = (none, db) := by
      rw [bulkLoad, Batch.slices_eq, if_pos (entries_eq_nil_iff.mpr hkeys)]
    rw [Follows, serve, hempty] at hfollows
    cases hfollows.1
  · have hentries := entries_eq_nil_iff.not.mpr hkeys
    rw [← batch.entries_keys] at hnodup
    have hinserts := insertLoop_iff hnodup 0 db.collection
    simp only [h.get] at hinserts
    rw [MongoRequest.Served, and_iff_right hkeys, ← batch.entries_keys, List.forall_mem_map,
      ← hinserts, Follows, serve, bulkLoad, Batch.slices_eq, if_neg hentries]
    by_cases hfresh : (insertLoop batch.entries 0 db.collection).1 ≠ none
    · refine iff_of_true ?_ hfresh
      rw [insertLoop_eq _ _ _ hfresh, Nat.zero_add, batch.entries_length]
      dsimp only
      rw [if_pos rfl]
      exact ⟨rfl, putAll_oids h⟩
    · refine iff_of_false (fun hfollows => ?_) hfresh
      have hfailed := not_not.mp hfresh
      split at hfollows
      next => cases hfollows.1
      next heq => simp [heq] at hfailed

theorem follows_iff {request : MongoRequest} (h : db.Holds m) (hadmitted : request.Admitted) :
    db.Follows m request ↔ request.Served m := by
  cases request with
  | batchUpsert batch => exact batchUpsert_follows_iff h hadmitted
  | bulkLoad batch => exact bulkLoad_follows_iff h hadmitted
  | point operation =>
    cases operation with
    | upsert key value => exact upsert_follows_iff h key value
    | update key value => exact update_follows_iff h key value
    | remove key => exact iff_of_true (remove_follows h key) trivial
    | read key => exact iff_of_true (read_follows h key) trivial

end MongoDb

/-- A run is served as on a map if and only if each of its upserts and updates changes the
value of a key that is there by then, and each of its bulks is of keys that are not. -/
theorem mongodb_refines_map_iff (m : KeyMap) (requests : List MongoRequest)
    (hadmitted : ∀ request ∈ requests, request.Admitted) :
    Agree MongoDb.serve MongoRequest.mapStep
        (fun reply expected => reply = some (expected.encode makeOid)) MongoDb.Holds
        { collection := m.rekey makeOid } m requests ↔
      Throughout MongoRequest.mapStep MongoRequest.Served m requests :=
  agree_iff_admitted (fun _ _ _ h hrequest => MongoDb.follows_iff h hrequest) rfl hadmitted

/-- A bulk, an upsert of another value, and the removal of a key that is not there. -/
theorem mongodb_refines_map_changes :
    let bulk : Batch :=
      { keys := [5, 1], values := [7, 8, 9], sizes := [1, 2], sizes_length := rfl
        sizes_sum := rfl }
    Agree MongoDb.serve MongoRequest.mapStep
      (fun reply expected => reply = some (expected.encode makeOid)) MongoDb.Holds
      { collection := (∅ : KeyMap).rekey makeOid } ∅
      [.bulkLoad bulk, .point (.upsert 5 [8]), .point (.remove 2)] := by
  intro bulk
  refine (mongodb_refines_map_iff ∅ _ ?_).mpr ?_
  · simp only [List.forall_mem_cons, List.not_mem_nil, false_implies, implies_true, and_true]
    exact ⟨show bulk.keys.Nodup by decide, trivial, trivial⟩
  · exact ⟨⟨by decide, fun _ _ => rfl⟩, ⟨[7], by decide +kernel, by decide⟩, trivial, trivial⟩

end Ucsb
