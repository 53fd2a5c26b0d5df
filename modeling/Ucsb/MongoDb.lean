import Ucsb.AdapterLoops
import Ucsb.KeyBytes
import Ucsb.RequestRun

namespace Ucsb

open scoped WordBytes
open RequestRun

/-- `make_oid`: the memory of the key behind four zero bytes. -/
def makeOid (key : UInt64) : Bytes := List.replicate 4 0 ++ keyBytes key

theorem makeOid_injective : Function.Injective makeOid := fun _ _ h =>
  keyBytes_injective (List.append_cancel_left h)

/-- `mongodb_t`: the documents of its collection, the `data` of each by its `_id`. -/
structure MongoDb where
  collection : ByteMap

namespace MongoDb

/-- `update_one` with `upsert`: how many documents it modified, and the documents after it. -/
def updateOne (collection : ByteMap) (oid data : Bytes) : ℕ × ByteMap :=
  let modifiedCount :=
    match collection.get oid with
    | none => 0
    | some old => if old = data then 0 else 1
  (modifiedCount, collection.put oid data)

def upsert (db : MongoDb) (key : UInt64) (value : Bytes) : Reply Bytes × MongoDb :=
  let (modifiedCount, collection) := updateOne db.collection (makeOid key) value
  if modifiedCount ≠ 0 then (.ofStatus .ok, { collection := collection })
  else (.ofStatus .error, { collection := collection })

/-- `execute` of the bulk write, with the count of the modified documents so far. -/
def executeLoop : List (UInt64 × Bytes) → ℕ → ByteMap → ℕ × ByteMap
  | [], modifiedCount, collection => (modifiedCount, collection)
  | (key, value) :: rest, modifiedCount, collection =>
    let (modified, collection) := updateOne collection (makeOid key) value
    executeLoop rest (modifiedCount + modified) collection

/-- A bulk write without operations throws. -/
def batchUpsert (db : MongoDb) (batch : Batch) : Option (Reply Bytes) × MongoDb :=
  if batch.slices = [] then (none, db)
  else
    let (modifiedCount, collection) := executeLoop batch.slices 0 db.collection
    if modifiedCount = batch.keys.length then
      (some { result := { entriesTouched := UInt64.ofNat batch.keys.length } },
        { collection := collection })
    else (some (.ofStatus .error), { collection := collection })

end MongoDb

/-- The writes of MongoDB. -/
inductive MongoCall
  | upsert (key : UInt64) (value : Bytes)
  | batchUpsert (batch : Batch)

/-- The keys of a call with the values given for them. -/
def MongoCall.entries : MongoCall → List (UInt64 × Bytes)
  | .upsert key value => [(key, value)]
  | .batchUpsert batch => batch.entries

namespace MongoDb

/-- What a call returns, if it does, and the collection after it. -/
def step (db : MongoDb) : MongoCall → Option (Reply Bytes) × MongoDb
  | .upsert key value => ((db.upsert key value).1, (db.upsert key value).2)
  | .batchUpsert batch => db.batchUpsert batch

/-- All keys are reported as written if and only if all are mapped to their values then. -/
def Truthful (db : MongoDb) (call : MongoCall) : Prop :=
  (db.step call).1.map Reply.result =
      some { entriesTouched := UInt64.ofNat call.entries.length } ↔
    ∀ e ∈ call.entries, (db.step call).2.collection.get (makeOid e.1) = some e.2

/-- The call has keys, and each was mapped to another value. -/
def Overwrites (db : MongoDb) (call : MongoCall) : Prop :=
  call.entries ≠ [] ∧
    ∀ e ∈ call.entries, ∃ old, db.collection.get (makeOid e.1) = some old ∧ old ≠ e.2

variable {db : MongoDb} {collection : ByteMap} {entries : List (UInt64 × Bytes)}

theorem updateOne_le (collection : ByteMap) (oid data : Bytes) :
    (updateOne collection oid data).1 ≤ 1 := by
  rw [updateOne]
  cases collection.get oid with
  | none => exact Nat.zero_le 1
  | some old =>
    show (if old = data then 0 else 1) ≤ 1
    split <;> omega

theorem updateOne_modified_iff (collection : ByteMap) (oid data : Bytes) :
    (updateOne collection oid data).1 = 1 ↔ ∃ old, collection.get oid = some old ∧ old ≠ data := by
  rw [updateOne]
  cases collection.get oid with
  | none => simp
  | some old =>
    show (if old = data then 0 else 1) = 1 ↔ _
    simp

theorem executeLoop_cons (key : UInt64) (value : Bytes) (n : ℕ) :
    executeLoop ((key, value) :: entries) n collection =
      executeLoop entries (n + (updateOne collection (makeOid key) value).1)
        (collection.put (makeOid key) value) := rfl

theorem executeLoop_collection (n : ℕ) :
    (executeLoop entries n collection).2 =
      collection.putAll (entries.map (Prod.map makeOid id)) := by
  induction entries generalizing n collection with
  | nil => rfl
  | cons e entries ih =>
    obtain ⟨key, value⟩ := e
    rw [executeLoop_cons, ih]
    rfl

theorem executeLoop_le (n : ℕ) :
    (executeLoop entries n collection).1 ≤ n + entries.length := by
  induction entries generalizing n collection with
  | nil => exact le_rfl
  | cons e entries ih =>
    obtain ⟨key, value⟩ := e
    have hfirst := updateOne_le collection (makeOid key) value
    rw [executeLoop_cons, List.length_cons]
    exact (ih _).trans (by omega)

/-- Every document counts as modified if and only if every key was mapped to another value. -/
theorem executeLoop_count_iff (hnodup : (entries.map Prod.fst).Nodup) (n : ℕ) :
    (executeLoop entries n collection).1 = n + entries.length ↔
      ∀ e ∈ entries, ∃ old, collection.get (makeOid e.1) = some old ∧ old ≠ e.2 := by
  induction entries generalizing n collection with
  | nil => simp [executeLoop]
  | cons e entries ih =>
    obtain ⟨key, value⟩ := e
    rw [List.map_cons, List.nodup_cons] at hnodup
    have hother : ∀ e ∈ entries, makeOid e.1 ≠ makeOid key := by
      intro e he heq
      exact hnodup.1 (List.mem_map.mpr ⟨e, he, makeOid_injective heq⟩)
    have hframe : (∀ e ∈ entries, ∃ old,
          (collection.put (makeOid key) value).get (makeOid e.1) = some old ∧ old ≠ e.2) ↔
        ∀ e ∈ entries, ∃ old, collection.get (makeOid e.1) = some old ∧ old ≠ e.2 := by
      refine forall₂_congr fun e he => ?_
      rw [SortedMap.get_put, if_neg (hother e he)]
    rw [List.forall_mem_cons, ← hframe,
      ← ih hnodup.2 (n + (updateOne collection (makeOid key) value).1), ← updateOne_modified_iff,
      executeLoop_cons, List.length_cons]
    generalize hmodified : (updateOne collection (makeOid key) value).1 = modified
    have hle := updateOne_le collection (makeOid key) value
    have hrest : (executeLoop entries (n + modified) (collection.put (makeOid key) value)).1 ≤
        n + modified + entries.length := executeLoop_le _
    omega

theorem upsert_eq (key : UInt64) (value : Bytes) : db.upsert key value =
    (.ofStatus (if (updateOne db.collection (makeOid key) value).1 ≠ 0 then .ok else .error),
      { collection := db.collection.put (makeOid key) value }) := by
  by_cases h : (updateOne db.collection (makeOid key) value).1 ≠ 0
  · rw [if_pos h]
    exact if_pos h
  · rw [if_neg h]
    exact if_neg h

theorem batchUpsert_eq {batch : Batch} (hentries : batch.entries ≠ []) : db.batchUpsert batch =
    (some (if (executeLoop batch.entries 0 db.collection).1 = batch.keys.length
        then { result := { entriesTouched := UInt64.ofNat batch.keys.length } }
        else .ofStatus .error),
      { collection := db.collection.putAll (batch.entries.map (Prod.map makeOid id)) }) := by
  rw [batchUpsert, Batch.slices_eq, if_neg hentries, ← executeLoop_collection 0]
  by_cases h : (executeLoop batch.entries 0 db.collection).1 = batch.keys.length
  · rw [if_pos h]
    exact if_pos h
  · rw [if_neg h]
    exact if_neg h

/-- Whatever a call reports, its keys are mapped to their values after it. -/
theorem step_stored {call : MongoCall} (hnodup : (call.entries.map Prod.fst).Nodup)
    {e : UInt64 × Bytes} (he : e ∈ call.entries) :
    (db.step call).2.collection.get (makeOid e.1) = some e.2 := by
  cases call with
  | upsert key value =>
    cases List.mem_singleton.mp he
    show (db.upsert key value).2.collection.get (makeOid key) = some value
    rw [upsert_eq, SortedMap.get_put_self]
  | batchUpsert batch =>
    have hentries : batch.entries ≠ [] := List.ne_nil_of_mem he
    show (db.batchUpsert batch).2.collection.get (makeOid e.1) = some e.2
    rw [batchUpsert_eq hentries]
    apply SortedMap.get_putAll_of_mem
    · have hoids := hnodup.map makeOid_injective
      rw [List.map_map] at hoids ⊢
      exact hoids
    · exact List.mem_map_of_mem (f := Prod.map makeOid id) he

/-- A call reports its keys if and only if each was mapped to another value. -/
theorem step_reports_iff {call : MongoCall} (hnodup : (call.entries.map Prod.fst).Nodup) :
    (db.step call).1.map Reply.result =
        some { entriesTouched := UInt64.ofNat call.entries.length } ↔ db.Overwrites call := by
  cases call with
  | upsert key value =>
    have hmodified := updateOne_modified_iff db.collection (makeOid key) value
    have hle := updateOne_le db.collection (makeOid key) value
    have hoverwrites : db.Overwrites (.upsert key value) ↔
        (updateOne db.collection (makeOid key) value).1 = 1 := by
      rw [hmodified, Overwrites]
      simp [MongoCall.entries]
    rw [hoverwrites, step, upsert_eq]
    split
    next h => exact iff_of_true rfl (by omega)
    next h => exact iff_of_false (fun heq => by cases heq) (by omega)
  | batchUpsert batch =>
    have hcount : (executeLoop batch.entries 0 db.collection).1 = 0 + batch.entries.length ↔
        ∀ e ∈ batch.entries, ∃ old, db.collection.get (makeOid e.1) = some old ∧ old ≠ e.2 :=
      executeLoop_count_iff hnodup 0
    rw [Nat.zero_add, batch.entries_length] at hcount
    rw [step, Overwrites, MongoCall.entries, batch.entries_length, ← hcount]
    by_cases hentries : batch.entries = []
    · rw [batchUpsert, Batch.slices_eq, if_pos hentries]
      exact iff_of_false (fun heq => by cases heq) fun h => h.1 hentries
    · rw [batchUpsert_eq hentries, and_iff_right hentries]
      split
      next h => exact iff_of_true rfl h
      next h =>
        refine iff_of_false (fun heq => ?_) h
        have hstatus := congrArg (Option.map OperationResult.status) heq
        cases hstatus

/-- After any calls the next one reports the truth if and only if it has keys and each was
mapped to another value. -/
theorem reports_truth_iff (db : MongoDb) (earlier : List MongoCall) (call : MongoCall)
    (hnodup : (call.entries.map Prod.fst).Nodup) :
    (run step db earlier).2.Truthful call ↔ (run step db earlier).2.Overwrites call := by
  rw [Truthful, step_reports_iff hnodup]
  exact iff_true_right fun e he => step_stored hnodup he

/-- A second upsert of a key with another value. -/
theorem reports_truth_overwriting :
    (run step { collection := ∅ } [.upsert 1 [7]]).2.Truthful (.upsert 1 [8]) := by
  refine (reports_truth_iff { collection := ∅ } [.upsert 1 [7]] (.upsert 1 [8]) (by decide)).mpr ?_
  refine ⟨by decide, ?_⟩
  intro e he
  cases List.mem_singleton.mp he
  exact ⟨[7], by decide +kernel, by decide⟩

/-- The first upsert of a key is reported as an error. -/
theorem first_upsert_reports_error :
    let db : MongoDb := { collection := ∅ }
    (db.step (.upsert 1 [7])).1 = some (.ofStatus .error) ∧
      (db.step (.upsert 1 [7])).2.collection.get (makeOid 1) = some [7] ∧
      ¬db.Truthful (.upsert 1 [7]) := by
  intro db
  refine ⟨by decide +kernel, by decide +kernel, ?_⟩
  intro h
  have hreported := h.mpr (by decide +kernel)
  revert hreported
  decide +kernel

end MongoDb

end Ucsb
