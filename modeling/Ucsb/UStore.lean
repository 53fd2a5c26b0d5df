import Mathlib.Data.UInt
import Ucsb.DataAccessor

namespace Ucsb

open scoped WordBytes

/-- `ustore_key_t key_ = key`: a signed word. -/
def ustoreKey (key : UInt64) : ℤ := key.toInt64.toInt

theorem ustoreKey_injective : Function.Injective ustoreKey := by
  intro x y h
  have hword := congrArg Int64.toUInt64 (Int64.toInt_inj.mp h)
  rwa [UInt64.toUInt64_toInt64, UInt64.toUInt64_toInt64] at hword

/-- `ustore_length_missing_k`. -/
def ustoreLengthMissing : UInt32 := 2 ^ 32 - 1

/-- The entries of a collection. -/
abbrev UStoreMap := SortedMap ℤ Bytes

/-- `ustore_read` of one key: a status, the length of the value and the value itself; a key
that is not there is read with a length of its own. -/
def ustoreRead (store : UStoreMap) (key : ℤ) : Bool × UInt32 × Bytes :=
  match store.get key with
  | none => (true, ustoreLengthMissing, [])
  | some value => (true, UInt32.ofNat value.length, value)

/-- `ustore_write` of one key: as many bytes as the length says, or a removal. -/
def ustoreWrite (key : ℤ) (content : Option (UInt32 × Bytes)) (store : UStoreMap) :
    Bool × UStoreMap :=
  match content with
  | none => (true, store.erase key)
  | some (length, value) => (true, store.put key (value.take length.toNat))

/-- The common body of `read`. -/
def ustoreReadReply (store : UStoreMap) (key : UInt64) : Reply ℤ :=
  let (status, length, value) := ustoreRead store (ustoreKey key)
  if !status then .ofStatus .error
  else if length = ustoreLengthMissing then .ofStatus .notFound
  else { Reply.ofStatus .ok with copies := [{ offset := 0, data := value.take length.toNat }] }

/-- `status ? ok_k : error_k`. -/
def ustoreStatus (status : Bool) : OperationStatus := if status then .ok else .error

/-- `ustore_t`. -/
structure UStore where
  store : UStoreMap

namespace UStore

def upsert (db : UStore) (key : UInt64) (value : Bytes) : Reply ℤ × UStore :=
  let length := UInt32.ofNat value.length
  let (status, store) := ustoreWrite (ustoreKey key) (some (length, value)) db.store
  (.ofStatus (ustoreStatus status), { store := store })

/-- The length of what is read is not asked for. -/
def update (db : UStore) (key : UInt64) (value : Bytes) : Reply ℤ × UStore :=
  let (status, _) := ustoreRead db.store (ustoreKey key)
  if !status then (.ofStatus .notFound, db) else db.upsert key value

def remove (db : UStore) (key : UInt64) : Reply ℤ × UStore :=
  let (status, store) := ustoreWrite (ustoreKey key) none db.store
  (.ofStatus (ustoreStatus status), { store := store })

def read (db : UStore) (key : UInt64) : Reply ℤ := ustoreReadReply db.store key

def pointStep (db : UStore) : PointOperation → Reply ℤ × UStore
  | .upsert key value => db.upsert key value
  | .update key value => db.update key value
  | .remove key => db.remove key
  | .read key => (db.read key, db)

end UStore

/-- `ustore_transact_t`: the committed entries, and what the transaction reads of them
through its own writes. -/
structure UStoreTransaction where
  db : UStoreMap
  view : UStoreMap

namespace UStoreTransaction

def commit (t : UStoreTransaction) : Bool × UStoreTransaction := (true, { t with db := t.view })

/-- `ustore_write` within the transaction, made once more after a commit if it fails. -/
def write (t : UStoreTransaction) (key : ℤ) (content : Option (UInt32 × Bytes)) :
    Bool × UStoreTransaction :=
  let (status, view) := ustoreWrite key content t.view
  if !status then
    let (committed, t) := t.commit
    if committed then
      let (status, view) := ustoreWrite key content t.view
      (status, { t with view := view })
    else (status, t)
  else (status, { t with view := view })

def upsert (t : UStoreTransaction) (key : UInt64) (value : Bytes) : Reply ℤ × UStoreTransaction :=
  let length := UInt32.ofNat value.length
  let (status, t) := t.write (ustoreKey key) (some (length, value))
  (.ofStatus (ustoreStatus status), t)

/-- The length of what is read is not asked for. -/
def update (t : UStoreTransaction) (key : UInt64) (value : Bytes) : Reply ℤ × UStoreTransaction :=
  let (status, _) := ustoreRead t.view (ustoreKey key)
  if !status then (.ofStatus .notFound, t) else t.upsert key value

def remove (t : UStoreTransaction) (key : UInt64) : Reply ℤ × UStoreTransaction :=
  let (status, t) := t.write (ustoreKey key) none
  (.ofStatus (ustoreStatus status), t)

def read (t : UStoreTransaction) (key : UInt64) : Reply ℤ := ustoreReadReply t.view key

def pointStep (t : UStoreTransaction) : PointOperation → Reply ℤ × UStoreTransaction
  | .upsert key value => t.upsert key value
  | .update key value => t.update key value
  | .remove key => t.remove key
  | .read key => (t.read key, t)

end UStoreTransaction

end Ucsb
