import Ucsb.AdapterLoops
import Ucsb.KeyBytes

namespace Ucsb

open scoped WordBytes

/-- The return codes of LMDB that occur: `0`, `MDB_NOTFOUND` and `EACCES`. -/
inductive MdbCode
  | success
  | notFound
  | accessDenied
  deriving DecidableEq

/-- `MDB_txn`: its flag and the database as it reads it. -/
structure MdbTxn where
  readOnly : Bool
  view : ByteMap

namespace MdbTxn

/-- `mdb_put` without flags. -/
def put (txn : MdbTxn) (keySlice valSlice : Bytes) : MdbCode × MdbTxn :=
  if txn.readOnly then (.accessDenied, txn)
  else (.success, { txn with view := txn.view.put keySlice valSlice })

/-- `mdb_get`. -/
def get (txn : MdbTxn) (keySlice : Bytes) : MdbCode × Bytes :=
  match txn.view.get keySlice with
  | none => (.notFound, [])
  | some valSlice => (.success, valSlice)

/-- `mdb_del`. -/
def del (txn : MdbTxn) (keySlice : Bytes) : MdbCode × MdbTxn :=
  if txn.readOnly then (.accessDenied, txn)
  else
    match txn.view.get keySlice with
    | none => (.notFound, txn)
    | some _ => (.success, { txn with view := txn.view.erase keySlice })

/-- `mdb_cursor_get` with `MDB_SET`, which stands on the key itself or nowhere: the
entries from it on. -/
def cursorSet (txn : MdbTxn) (keySlice : Bytes) : MdbCode × List (Bytes × Bytes) :=
  match txn.view.get keySlice with
  | none => (.notFound, [])
  | some _ => (.success, txn.view.seek keySlice)

end MdbTxn

/-- The loop of `range_select` and `scan` from the entry under the cursor; `MDB_NEXT`
fails behind the last one. -/
def cursorLoop (advance : ℕ → Bytes → ℕ) (length : UInt64) :
    UInt64 → ℕ → List (Bytes × Bytes) → Reply Bytes
  | i, _, [] => { result := { entriesTouched := i } }
  | i, offset, (key, value) :: rest =>
    if i < length then
      let reply := cursorLoop advance length (i + 1) (advance offset value) rest
      { result := reply.result
        copies := { offset := offset, data := value } :: reply.copies
        visited := (key, value) :: reply.visited }
    else { result := { entriesTouched := i } }

/-- `lmdb_t`: its environment, and how many transactions are open in it. -/
structure Lmdb where
  store : ByteMap
  openTxns : ℕ := 0

namespace Lmdb

/-- `mdb_txn_begin`. -/
def txnBegin (env : Lmdb) (readOnly : Bool) : MdbCode × MdbTxn × Lmdb :=
  (.success, { readOnly := readOnly, view := env.store }, { env with openTxns := env.openTxns + 1 })

/-- `mdb_txn_abort`. -/
def txnAbort (env : Lmdb) : Lmdb := { env with openTxns := env.openTxns - 1 }

/-- `mdb_txn_commit`. -/
def txnCommit (env : Lmdb) (txn : MdbTxn) : MdbCode × Lmdb :=
  (.success,
    { store := if txn.readOnly then env.store else txn.view, openTxns := env.openTxns - 1 })

/-- `res == 0 ? ok_k : error_k`. -/
def committed (res : MdbCode) : OperationStatus := if res = .success then .ok else .error

def upsert (env : Lmdb) (key : UInt64) (value : Bytes) : Reply Bytes × Lmdb :=
  let (res, txn, env) := env.txnBegin false
  if res ≠ .success then (.ofStatus .error, env)
  else
    let (res, txn) := txn.put (keyBytes key) value
    if res ≠ .success then (.ofStatus .error, env.txnAbort)
    else
      let (res, env) := env.txnCommit txn
      (.ofStatus (committed res), env)

def update (env : Lmdb) (key : UInt64) (value : Bytes) : Reply Bytes × Lmdb :=
  let (res, txn, env) := env.txnBegin true
  if res ≠ .success then (.ofStatus .error, env)
  else
    let (res, _) := txn.get (keyBytes key)
    if res ≠ .success then (.ofStatus .notFound, env.txnAbort)
    else
      let (res, txn) := txn.put (keyBytes key) value
      if res ≠ .success then (.ofStatus .error, env.txnAbort)
      else
        let (res, env) := env.txnCommit txn
        (.ofStatus (committed res), env)

def remove (env : Lmdb) (key : UInt64) : Reply Bytes × Lmdb :=
  let (res, txn, env) := env.txnBegin false
  if res ≠ .success then (.ofStatus .error, env)
  else
    let (res, txn) := txn.del (keyBytes key)
    if res ≠ .success then (.ofStatus .notFound, env.txnAbort)
    else
      let (res, env) := env.txnCommit txn
      (.ofStatus (committed res), env)

def read (env : Lmdb) (key : UInt64) : Reply Bytes × Lmdb :=
  let (res, txn, env) := env.txnBegin true
  if res ≠ .success then (.ofStatus .error, env)
  else
    let (res, valSlice) := txn.get (keyBytes key)
    if res ≠ .success then (.ofStatus .notFound, env.txnAbort)
    else
      ({ Reply.ofStatus .ok with copies := [{ offset := 0, data := valSlice }] }, env.txnAbort)

/-- The puts of `batch_upsert`, up to the first that fails. -/
def putLoop : List (UInt64 × Bytes) → MdbTxn → MdbCode × MdbTxn
  | [], txn => (.success, txn)
  | (key, value) :: rest, txn =>
    let (res, txn) := txn.put (keyBytes key) value
    if res ≠ .success then (res, txn) else putLoop rest txn

def batchUpsert (env : Lmdb) (batch : Batch) : Reply Bytes × Lmdb :=
  let (res, txn, env) := env.txnBegin false
  if res ≠ .success then (.ofStatus .error, env)
  else
    let (res, txn) := putLoop batch.slices txn
    if res ≠ .success then (.ofStatus .error, env.txnAbort)
    else
      let (res, env) := env.txnCommit txn
      ({ result := {
          entriesTouched := UInt64.ofNat batch.keys.length
          status := committed res } }, env)

def bulkLoad (env : Lmdb) (batch : Batch) : Reply Bytes × Lmdb := env.batchUpsert batch

/-- The common body of `range_select` and `scan`, whose cursor always opens. -/
def queryFrom (advance : ℕ → Bytes → ℕ) (env : Lmdb) (key length : UInt64) : Reply Bytes × Lmdb :=
  let (res, txn, env) := env.txnBegin false
  if res ≠ .success then (.ofStatus .error, env)
  else
    let (res, entries) := txn.cursorSet (keyBytes key)
    if res ≠ .success then (.ofStatus .notFound, env.txnAbort)
    else (cursorLoop advance length 0 0 entries, env.txnAbort)

def rangeSelect (env : Lmdb) (key length : UInt64) : Reply Bytes × Lmdb :=
  env.queryFrom exported key length

def scan (env : Lmdb) (key length : UInt64) : Reply Bytes × Lmdb :=
  env.queryFrom (fun offset _ => offset) key length

end Lmdb

/-- The operations that LMDB serves within one transaction of their own. -/
inductive LmdbCall
  | point (operation : PointOperation)
  | batchUpsert (batch : Batch)

namespace Lmdb

def pointStep (env : Lmdb) : PointOperation → Reply Bytes × Lmdb
  | .upsert key value => env.upsert key value
  | .update key value => env.update key value
  | .remove key => env.remove key
  | .read key => env.read key

def step (env : Lmdb) : LmdbCall → Reply Bytes × Lmdb
  | .point operation => env.pointStep operation
  | .batchUpsert batch => env.batchUpsert batch

end Lmdb

/-- What the calls mean on a map over integer keys. -/
def LmdbCall.mapStep (m : KeyMap) : LmdbCall → Reply UInt64 × KeyMap
  | .point operation => Ucsb.pointStep .notFound m operation
  | .batchUpsert batch => batchStep m batch

end Ucsb
