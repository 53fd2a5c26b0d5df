import Ucsb.RocksDbTransaction

namespace Ucsb

open scoped WordBytes

/-- `rocksdb_t`. Of its files only the pending ones of bulk loads are kept. -/
structure RocksDb where
  store : ByteMap
  mainDirPath : String := ""
  storageDirPaths : List String := []
  pendingFiles : List String := []
  fullCompaction : Bool := false

/-- What the engine returns to one `bulk_load`: `put` by the index of the key. A `Finish`
that fails may remove its file. -/
structure SstStatuses where
  openFile : RocksStatus := .ok
  put : ℕ → RocksStatus := fun _ => .ok
  finish : RocksStatus := .ok
  finishRemoves : Bool := false
  ingest : RocksStatus := .ok

/-- `SstFileWriter::Put`: keys come in ascending order. -/
def sstPut (status : RocksStatus) (file : List (Bytes × Bytes)) (keySlice value : Bytes) :
    RocksStatus × List (Bytes × Bytes) :=
  if status ≠ .ok then (status, file)
  else
    match file.getLast? with
    | none => (.ok, [(keySlice, value)])
    | some last =>
      if last.1 < keySlice then (.ok, file ++ [(keySlice, value)]) else (.invalidArgument, file)

/-- `SstFileWriter::Finish`: a file has entries. -/
def sstFinish (status : RocksStatus) (file : List (Bytes × Bytes)) : RocksStatus :=
  if file = [] then .invalidArgument else status

/-- The inner loop of `bulk_load` from index `idx`. -/
def sstLoop (put : ℕ → RocksStatus) :
    ℕ → List (UInt64 × Bytes) → List (Bytes × Bytes) → RocksStatus × List (Bytes × Bytes)
  | _, [], file => (.ok, file)
  | idx, (key, value) :: rest, file =>
    let (status, file) := sstPut (put idx) file (toSlice key).1 value
    if status = .ok then sstLoop put (idx + 1) rest file else (status, file)

namespace RocksDb

def put (db : RocksDb) (keySlice value : Bytes) : RocksStatus × RocksDb :=
  (.ok, { db with store := db.store.put keySlice value })

def delete (db : RocksDb) (keySlice : Bytes) : RocksStatus × RocksDb :=
  (.ok, { db with store := db.store.erase keySlice })

/-- `Write` of a batch of `Put`s. -/
def write (db : RocksDb) (batch : List (Bytes × Bytes)) : RocksStatus × RocksDb :=
  (.ok, { db with store := db.store.putAll batch })

/-- `IngestExternalFile` of the given files, moving them. -/
def ingestExternalFile (db : RocksDb) (status : RocksStatus)
    (files : List (String × List (Bytes × Bytes))) : RocksStatus × RocksDb :=
  if files = [] then (.invalidArgument, db)
  else if status ≠ .ok then (status, db)
  else (.ok, { db with store := files.foldl (fun store file => store.putAll file.2) db.store })

def upsert (db : RocksDb) (key : UInt64) (value : Bytes) : Reply Bytes × RocksDb :=
  let (status, db) := db.put (toSlice key).1 value
  (.ofStatus status.operationStatus, db)

def update (db : RocksDb) (key : UInt64) (value : Bytes) : Reply Bytes × RocksDb :=
  let keyToRead := key
  let keyToWrite := key
  let (status, _) := rocksGet db.store (toSlice keyToRead).1
  if status = .notFound then (.ofStatus .notFound, db)
  else if status ≠ .ok then (.ofStatus .error, db)
  else
    let (status, db) := db.put (toSlice keyToWrite).1 value
    (.ofStatus status.operationStatus, db)

def remove (db : RocksDb) (key : UInt64) : Reply Bytes × RocksDb :=
  let (status, db) := db.delete (toSlice key).1
  (.ofStatus status.operationStatus, db)

def read (db : RocksDb) (key : UInt64) : Reply Bytes := rocksRead db.store key

/-- The loop of `batch_upsert`, which fills the `WriteBatch`. -/
def writeBatch : List (UInt64 × Bytes) → List (Bytes × Bytes)
  | [] => []
  | (key, value) :: rest => ((toSlice key).1, value) :: writeBatch rest

def batchUpsert (db : RocksDb) (batch : Batch) : Reply Bytes × RocksDb :=
  let (status, db) := db.write (writeBatch batch.slices)
  ({ result := {
      entriesTouched := UInt64.ofNat batch.keys.length
      status := status.operationStatus } }, db)

/-- The name of a thread's pending file. -/
def sstFilePath (db : RocksDb) (threadId : String) (file : ℕ) : String :=
  db.storageDirPaths.headD db.mainDirPath ++ "pending_" ++ threadId ++ "_" ++ toString file ++
    ".sst"

/-- `IngestExternalFile`, and after it the removal of what is left of the files. -/
def ingestFiles (db : RocksDb) (count : ℕ) (status : RocksStatus)
    (files : List (String × List (Bytes × Bytes))) : Reply Bytes × RocksDb :=
  let (status, db) := db.ingestExternalFile status files
  let db := { db with
    pendingFiles := db.pendingFiles.filter fun path => path ∉ files.map Prod.fst }
  if status ≠ .ok then (.ofStatus .error, db)
  else
    ({ result := { entriesTouched := UInt64.ofNat count } }, { db with fullCompaction := true })

def removeFile (db : RocksDb) (path : String) : RocksDb :=
  { db with pendingFiles := db.pendingFiles.filter (· ≠ path) }

/-- The outer loop of `bulk_load` ends with its first round: the inner one puts all
keys into one file, or something fails and nothing is ingested. -/
def bulkLoad (db : RocksDb) (threadId : String) (batch : Batch)
    (statuses : SstStatuses := {}) : Reply Bytes × RocksDb :=
  if batch.keys = [] then db.ingestFiles 0 statuses.ingest []
  else if statuses.openFile ≠ .ok then (.ofStatus .error, db)
  else
    let path := db.sstFilePath threadId 0
    let db := { db with pendingFiles := path :: db.pendingFiles }
    let (status, file) := sstLoop statuses.put 0 batch.slices []
    if status ≠ .ok then (.ofStatus .error, db)
    else if sstFinish statuses.finish file ≠ .ok then
      (.ofStatus .error, if statuses.finishRemoves then db.removeFile path else db)
    else db.ingestFiles batch.keys.length statuses.ingest [(path, file)]

def rangeSelect (db : RocksDb) (key length : UInt64) : Reply Bytes :=
  rocksRangeSelect db.store key length

def scan (db : RocksDb) (key length : UInt64) : Reply Bytes :=
  rocksScan db.store key length

def pointStep (db : RocksDb) : PointOperation → Reply Bytes × RocksDb
  | .upsert key value => db.upsert key value
  | .update key value => db.update key value
  | .remove key => db.remove key
  | .read key => (db.read key, db)

/-- An operation of one thread, no call of which fails. -/
def step (threadId : String) (db : RocksDb) : DataOperation → Reply Bytes × RocksDb
  | .point operation => db.pointStep operation
  | .batchUpsert batch => db.batchUpsert batch
  | .bulkLoad batch => db.bulkLoad threadId batch
  | .rangeSelect key length => (db.rangeSelect key length, db)
  | .scan key length => (db.scan key length, db)

end RocksDb

end Ucsb
