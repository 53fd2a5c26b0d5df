import Ucsb.DataAccessor
import Ucsb.KeyBytes
import Ucsb.RequestRun

namespace Ucsb

open scoped WordBytes
open RequestRun

/-- `redis_t`: the fields of its hash. -/
structure Redis where
  hash : ByteMap

namespace Redis

/-- `hset`: true if the field is new. -/
def hset (db : Redis) (field value : Bytes) : Bool × Redis :=
  ((db.hash.get field).isNone, { hash := db.hash.put field value })

/-- `hdel`: how many fields were removed. -/
def hdel (db : Redis) (field : Bytes) : ℕ × Redis :=
  (if (db.hash.get field).isSome then 1 else 0, { hash := db.hash.erase field })

def upsert (db : Redis) (key : UInt64) (value : Bytes) : Reply Bytes × Redis :=
  let (status, db) := db.hset (keyBytes key) value
  (.ofStatus (if status then .ok else .error), db)

def update (db : Redis) (key : UInt64) (value : Bytes) : Reply Bytes × Redis :=
  let (status, db) := db.hset (keyBytes key) value
  (.ofStatus (if status then .ok else .notFound), db)

def remove (db : Redis) (key : UInt64) : Reply Bytes × Redis :=
  let (count, db) := db.hdel (keyBytes key)
  (.ofStatus (if count ≠ 0 then .ok else .notFound), db)

/-- `memcpy(value.data(), &val, sizeof(val))`: `objectBytes` is the memory of the
`Optional<std::string>` that holds the bytes of the field. -/
def read (db : Redis) (objectBytes : Bytes → Bytes) (key : UInt64) : Reply Bytes :=
  match db.hash.get (keyBytes key) with
  | none => .ofStatus .notFound
  | some val => { Reply.ofStatus .ok with copies := [{ offset := 0, data := objectBytes val }] }

end Redis

/-- A call, and the memory of an `Optional<std::string>` while it runs. -/
structure RedisCall where
  operation : PointOperation
  objectBytes : Bytes → Bytes

namespace Redis

def step (db : Redis) (call : RedisCall) : Reply Bytes × Redis :=
  match call.operation with
  | .upsert key value => db.upsert key value
  | .update key value => db.update key value
  | .remove key => db.remove key
  | .read key => (db.read call.objectBytes key, db)

end Redis

def RedisCall.mapStep (m : KeyMap) (call : RedisCall) : Reply UInt64 × KeyMap :=
  pointStep .notFound m call.operation

/-- The reply has the expected result, and puts the expected bytes in front of the span. -/
def Redis.Answers (reply : Reply Bytes) (expected : Reply UInt64) : Prop :=
  reply.result = expected.result ∧
    List.Forall₂ (fun copy wanted => copy.offset = wanted.offset ∧ wanted.data <+: copy.data)
      reply.copies expected.copies

/-- An upsert of a new key, a removal, or a read whose bytes happen to begin the memory of
the object that holds them. -/
def RedisCall.Served (m : KeyMap) (call : RedisCall) : Prop :=
  match call.operation with
  | .upsert key _ => m.get key = none
  | .update _ _ => False
  | .remove _ => True
  | .read key => ∀ value, m.get key = some value → value <+: call.objectBytes value

namespace Redis

variable {db : Redis} {m : KeyMap}

/-- The hash has the map under the memory of its keys. -/
def Holds (db : Redis) (m : KeyMap) : Prop := db.hash = m.rekey keyBytes

theorem Holds.get (h : db.Holds m) (key : UInt64) : db.hash.get (keyBytes key) = m.get key := by
  rw [h, SortedMap.get_rekey keyBytes_injective]

theorem Holds.put (h : db.Holds m) (key : UInt64) (value : Bytes) :
    (db.hset (keyBytes key) value).2.Holds (m.put key value) := by
  show db.hash.put (keyBytes key) value = _
  rw [h, SortedMap.rekey_put keyBytes_injective]

theorem Holds.erase (h : db.Holds m) (key : UInt64) :
    (db.hdel (keyBytes key)).2.Holds (m.erase key) := by
  show db.hash.erase (keyBytes key) = _
  rw [h, SortedMap.rekey_erase keyBytes_injective]

theorem upsert_iff (h : db.Holds m) (key : UInt64) (value : Bytes) :
    (Answers (db.upsert key value).1 (.ofStatus .ok) ∧
      (db.upsert key value).2.Holds (m.put key value)) ↔ m.get key = none := by
  have hreply : (db.upsert key value).1 =
      .ofStatus (if (m.get key).isNone then .ok else .error) := by
    rw [upsert, hset, h.get]
  have hholds : (db.upsert key value).2.Holds (m.put key value) := h.put key value
  rw [and_iff_left hholds, hreply]
  cases m.get key with
  | none => exact iff_of_true ⟨rfl, .nil⟩ rfl
  | some old =>
    refine iff_of_false ?_ (Option.some_ne_none old)
    rintro ⟨hresult, -⟩
    cases hresult

/-- `update` stores the value either way, and answers the other way round. -/
theorem update_wrong (h : db.Holds m) (key : UInt64) (value : Bytes) :
    ¬Answers (db.update key value).1 (Ucsb.pointStep .notFound m (.update key value)).1 := by
  have hreply : (db.update key value).1 =
      .ofStatus (if (m.get key).isNone then .ok else .notFound) := by
    rw [update, hset, h.get]
  rw [hreply, Ucsb.pointStep]
  rintro ⟨hresult, -⟩
  cases hget : m.get key with
  | none =>
    rw [hget] at hresult
    cases hresult
  | some old =>
    rw [hget] at hresult
    cases hresult

theorem remove_spec (h : db.Holds m) (key : UInt64) :
    Answers (db.remove key).1 (Ucsb.pointStep .notFound m (.remove key)).1 ∧
      (db.remove key).2.Holds (Ucsb.pointStep .notFound m (.remove key)).2 := by
  have herase : (db.remove key).2.Holds (m.erase key) := h.erase key
  have hreply : (db.remove key).1 =
      .ofStatus (if (if (m.get key).isSome then 1 else 0) ≠ 0 then .ok else .notFound) := by
    rw [remove, hdel, h.get]
  rw [hreply, Ucsb.pointStep]
  cases hget : m.get key with
  | none =>
    rw [SortedMap.erase_of_get_none hget] at herase
    exact ⟨⟨rfl, .nil⟩, herase⟩
  | some old => exact ⟨⟨rfl, .nil⟩, herase⟩

theorem read_iff (h : db.Holds m) (objectBytes : Bytes → Bytes) (key : UInt64) :
    Answers (db.read objectBytes key) (Ucsb.pointStep .notFound m (.read key)).1 ↔
      ∀ value, m.get key = some value → value <+: objectBytes value := by
  rw [read, h.get, Ucsb.pointStep]
  cases m.get key with
  | none => exact iff_of_true ⟨rfl, .nil⟩ fun _ heq => by cases heq
  | some value =>
    constructor
    · rintro ⟨-, hcopies⟩ other heq
      cases heq
      cases hcopies with
      | cons hfirst _ => exact hfirst.2
    · intro hprefix
      exact ⟨rfl, .cons ⟨rfl, hprefix value rfl⟩ .nil⟩

theorem step_iff (db : Redis) (m : KeyMap) (call : RedisCall) (h : db.Holds m) :
    (Answers (db.step call).1 (call.mapStep m).1 ∧ (db.step call).2.Holds (call.mapStep m).2) ↔
      call.Served m := by
  obtain ⟨operation, objectBytes⟩ := call
  cases operation with
  | upsert key value => exact upsert_iff h key value
  | update key value => exact iff_of_false (fun hboth => update_wrong h key value hboth.1) id
  | remove key => exact iff_of_true (remove_spec h key) trivial
  | read key =>
    have hsame : (Ucsb.pointStep .notFound m (.read key)).2 = m := by
      rw [Ucsb.pointStep]
      cases m.get key <;> rfl
    have hholds : db.Holds (Ucsb.pointStep .notFound m (.read key)).2 := by rwa [hsame]
    exact (and_iff_left hholds).trans (read_iff h objectBytes key)

/-- A run is served as on the map if and only if it upserts keys that are new then, updates
none, and reads no value but one that begins the memory of the object that holds it. -/
theorem refines_map_iff (m : KeyMap) (calls : List RedisCall) :
    Agree step RedisCall.mapStep Answers Holds { hash := m.rekey keyBytes } m calls ↔
      Throughout RedisCall.mapStep RedisCall.Served m calls :=
  agree_iff step_iff rfl

/-- The second upsert of a key is answered with an error. -/
theorem second_upsert_fails :
    let objectBytes : Bytes → Bytes := fun _ => List.replicate 40 0
    ¬Agree step RedisCall.mapStep Answers Holds { hash := ∅ } ∅
      [⟨.upsert 1 [7], objectBytes⟩, ⟨.upsert 1 [8], objectBytes⟩] := by
  rintro objectBytes ⟨-, ⟨⟨hresult, -⟩, -⟩, -⟩
  revert hresult
  decide +kernel

end Redis

end Ucsb
