import Ucsb.AdapterLoops
import Ucsb.KeyBytes

namespace Ucsb

open scoped WordBytes

/-- What `rocksdb::Status` tells apart. -/
inductive RocksStatus
  | ok
  | notFound
  | tryAgain
  | invalidArgument
  | otherError
  deriving DecidableEq

/-- `status.ok() ? operation_status_t::ok_k : operation_status_t::error_k`. -/
def RocksStatus.operationStatus (status : RocksStatus) : OperationStatus :=
  if status = .ok then .ok else .error

/-- `to_slice`: the slice of a key, and the key variable after the swap in place. -/
def toSlice (key : UInt64) : Bytes × UInt64 :=
  let key := bswap64 key
  (keyBytes key, key)

/-- `Get`: a status and the pinned value. -/
def rocksGet (store : ByteMap) (keySlice : Bytes) : RocksStatus × Bytes :=
  match store.get keySlice with
  | some data => (.ok, data)
  | none => (.notFound, [])

/-- The common body of `read`. -/
def rocksRead (store : ByteMap) (key : UInt64) : Reply Bytes :=
  let (status, data) := rocksGet store (toSlice key).1
  if status = .notFound then .ofStatus .notFound
  else if status ≠ .ok then .ofStatus .error
  else { Reply.ofStatus .ok with copies := [{ offset := 0, data := data }] }

/-- The common body of `range_select`. -/
def rocksRangeSelect (store : ByteMap) (key length : UInt64) : Reply Bytes :=
  rangeLoop exported length 0 0 (store.seek (toSlice key).1)

/-- The common body of `scan`. -/
def rocksScan (store : ByteMap) (key length : UInt64) : Reply Bytes :=
  rangeLoop (fun offset _ => offset) length 0 0 (store.seek (toSlice key).1)

/-- `rocksdb_transaction_t`: the committed database, what the transaction reads of it
through its own writes, and the statuses its writes and commits are yet to return,
`ok` once there are none. -/
structure RocksDbTransaction where
  db : ByteMap
  view : ByteMap
  statuses : List RocksStatus := []

namespace RocksDbTransaction

def nextStatus (t : RocksDbTransaction) : RocksStatus × RocksDbTransaction :=
  (t.statuses.headD .ok, { t with statuses := t.statuses.tail })

/-- `Transaction::Put`. -/
def put (keySlice value : Bytes) (t : RocksDbTransaction) : RocksStatus × RocksDbTransaction :=
  let (status, t) := t.nextStatus
  if status = .ok then (.ok, { t with view := t.view.put keySlice value }) else (status, t)

/-- `Transaction::Delete`. -/
def delete (keySlice : Bytes) (t : RocksDbTransaction) : RocksStatus × RocksDbTransaction :=
  let (status, t) := t.nextStatus
  if status = .ok then (.ok, { t with view := t.view.erase keySlice }) else (status, t)

/-- `Transaction::Commit`. -/
def commit (t : RocksDbTransaction) : RocksStatus × RocksDbTransaction :=
  let (status, t) := t.nextStatus
  if status = .ok then (.ok, { t with db := t.view }) else (status, t)

/-- A write that fails is made once more after a commit. -/
def retried (write : RocksDbTransaction → RocksStatus × RocksDbTransaction)
    (t : RocksDbTransaction) : RocksStatus × RocksDbTransaction :=
  let (status, t) := write t
  if status = .ok then (status, t)
  else
    let (_, t) := t.commit
    write t

def upsert (t : RocksDbTransaction) (key : UInt64) (value : Bytes) :
    Reply Bytes × RocksDbTransaction :=
  let (keySlice, _) := toSlice key
  let (status, t) := t.retried (put keySlice value)
  (.ofStatus status.operationStatus, t)

def update (t : RocksDbTransaction) (key : UInt64) (value : Bytes) :
    Reply Bytes × RocksDbTransaction :=
  let originalKey := key
  let (status, _) := rocksGet t.view (toSlice key).1
  if status = .notFound then (.ofStatus .notFound, t)
  else if status ≠ .ok then (.ofStatus .error, t)
  else t.upsert originalKey value

def remove (t : RocksDbTransaction) (key : UInt64) : Reply Bytes × RocksDbTransaction :=
  let (keySlice, _) := toSlice key
  let (status, t) := t.retried (delete keySlice)
  (.ofStatus status.operationStatus, t)

def read (t : RocksDbTransaction) (key : UInt64) : Reply Bytes := rocksRead t.view key

/-- The loop of `batch_upsert`, which drops every status. -/
def upsertLoop : List (UInt64 × Bytes) → RocksDbTransaction → RocksDbTransaction
  | [], t => t
  | (key, value) :: rest, t =>
    let (keySlice, _) := toSlice key
    upsertLoop rest (t.retried (put keySlice value)).2

def batchUpsert (t : RocksDbTransaction) (batch : Batch) : Reply Bytes × RocksDbTransaction :=
  ({ result := { entriesTouched := UInt64.ofNat batch.keys.length } }, upsertLoop batch.slices t)

def bulkLoad (t : RocksDbTransaction) (batch : Batch) : Reply Bytes × RocksDbTransaction :=
  t.batchUpsert batch

def rangeSelect (t : RocksDbTransaction) (key length : UInt64) : Reply Bytes :=
  rocksRangeSelect t.view key length

def scan (t : RocksDbTransaction) (key length : UInt64) : Reply Bytes :=
  rocksScan t.view key length

def pointStep (t : RocksDbTransaction) : PointOperation → Reply Bytes × RocksDbTransaction
  | .upsert key value => t.upsert key value
  | .update key value => t.update key value
  | .remove key => t.remove key
  | .read key => (t.read key, t)

def step (t : RocksDbTransaction) : DataOperation → Reply Bytes × RocksDbTransaction
  | .point operation => t.pointStep operation
  | .batchUpsert batch => t.batchUpsert batch
  | .bulkLoad batch => t.bulkLoad batch
  | .rangeSelect key length => (t.rangeSelect key length, t)
  | .scan key length => (t.scan key length, t)

/-- The destructor commits. -/
def destroy (t : RocksDbTransaction) : RocksDbTransaction := t.commit.2

end RocksDbTransaction

end Ucsb
