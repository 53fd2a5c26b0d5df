import Ucsb.Reporter
import Ucsb.WorkloadFilter
import Ucsb.WorkloadSplit
import Ucsb.WorkloadValidation

namespace Ucsb

/-- `db_brand_t`. -/
inductive DbBrand
  | unknown
  | ustore
  | rocksdb
  | leveldb
  | wiredtiger
  | mongodb
  | redis
  | lmdb
  deriving DecidableEq

def parseDbBrand (name : String) : DbBrand :=
  if name = "ustore" then .ustore
  else if name = "rocksdb" then .rocksdb
  else if name = "leveldb" then .leveldb
  else if name = "wiredtiger" then .wiredtiger
  else if name = "mongodb" then .mongodb
  else if name = "redis" then .redis
  else if name = "lmdb" then .lmdb
  else .unknown

/-- The databases that `make_db` makes; RocksDB is told its mode. -/
inductive MadeDb
  | ustore
  | rocksdb (transactional : Bool)
  | leveldb
  | wiredtiger
  | mongodb
  | redis
  | lmdb

/-- `make_db` in a build that has the engines in `enabled`. -/
def makeDb (enabled : DbBrand → Bool) (brand : DbBrand) (transactional : Bool) : Option MadeDb :=
  if !enabled brand then none
  else if transactional then
    match brand with
    | .ustore => some .ustore
    | .rocksdb => some (.rocksdb true)
    | _ => none
  else
    match brand with
    | .ustore => some .ustore
    | .rocksdb => some (.rocksdb false)
    | .leveldb => some .leveldb
    | .wiredtiger => some .wiredtiger
    | .mongodb => some .mongodb
    | .redis => some .redis
    | .lmdb => some .lmdb
    | .unknown => none

/-- The arguments of the process; a number is passed as its numeral. -/
structure Arguments where
  dbName : String
  transactional : Bool
  workloadPath : String
  threads : ℕ
  filter : String
  runIndex : ℕ
  runsCount : ℕ

/-- Why the process ends before its benchmarks: an exception that `main` catches, a message
and the code 1, or an assertion. -/
inductive MainStop
  | thrown
  | failed (message : String)
  | aborted

/-- What the console shows of a process. -/
inductive Block
  | message (text : String)
  | caught
  | title (dbName : String) (transactional : Bool) (dbSize : Option UInt64) (threads : UInt64)
  | columns
  | row (report : Json)
  | logo

namespace Console

end Console

/-- What a process finds on its machine: how it was built, the workloads file, and the entry
that the benchmark library reports for a benchmark, by the number of benchmarks run before. -/
structure BenchEnv where
  ndebug : Bool
  enabled : DbBrand → Bool
  workloads : WorkloadFile
  context : ℕ → Json
  report : ℕ → List Workload → Json

/-- The files under the results paths, the number of benchmarks run, and the screen. -/
structure Machine where
  inProgress : ResultsFile
  results : ResultsFile
  ran : ℕ
  screen : List Block

instance (proportion : ℚ) (minLength maxLength recordsPerThread : UInt64) :
    Decidable (LengthsValid proportion minLength maxLength recordsPerThread) :=
  inferInstanceAs (Decidable (_ ∧ _ ∧ _))

theorem validateWorkload_iff {w : Workload} {threadsCount : UInt64} :
    ValidateWorkload w threadsCount ↔
      (0 < threadsCount ∧ w.name ≠ "" ∧ 0 < w.dbRecordsCount ∧ 0 < w.dbOperationsCount ∧
        (0 < proportionSum w ∧ proportionSum w ≤ 1) ∧ 0 < w.valueLength ∧
        w.keyDist ≠ .unknown) ∧
      LengthsValid w.batchUpsertProportion w.batchUpsertMinLength w.batchUpsertMaxLength
        (w.dbRecordsCount / threadsCount) ∧
      LengthsValid w.batchReadProportion w.batchReadMinLength w.batchReadMaxLength
        (w.dbRecordsCount / threadsCount) ∧
      LengthsValid w.bulkLoadProportion w.bulkLoadMinLength w.bulkLoadMaxLength
        (w.dbRecordsCount / threadsCount) ∧
      LengthsValid w.rangeSelectProportion w.rangeSelectMinLength w.rangeSelectMaxLength
        (w.dbRecordsCount / threadsCount) := by
  constructor
  · intro h
    exact ⟨⟨h.threads, h.name, h.records, h.operations, h.proportion, h.valueLength, h.keyDist⟩,
      h.batchUpsert, h.batchRead, h.bulkLoad, h.rangeSelect⟩
  · intro h
    obtain ⟨⟨hthreads, hname, hrecords, hoperations, hproportion, hlength, hdist⟩, hupsert, hread,
      hbulk, hrange⟩ := h
    exact ⟨hthreads, hname, hrecords, hoperations, hproportion, hlength, hdist, hupsert, hread,
      hbulk, hrange⟩

instance (w : Workload) (threadsCount : UInt64) : Decidable (ValidateWorkload w threadsCount) :=
  decidable_of_iff' _ validateWorkload_iff

/-- The document in the file of the benchmark library. -/
def benchmarkDocument (context : Json) (reports : List Json) : Json :=
  .object [("context", context), ("benchmarks", .array reports)]

/-- How the process ends: with a code, or by a signal. -/
inductive MainEnd
  | returned (code : ℕ)
  | signalled
  deriving DecidableEq

def MainStop.close (stop : MainStop) (machine : Machine) : MainEnd × Machine :=
  match stop with
  | .thrown => (.returned 0, { machine with screen := machine.screen ++ [.caught] })
  | .failed message =>
    (.returned 1, { machine with screen := machine.screen ++ [.message message] })
  | .aborted => (.signalled, machine)

end Ucsb
