import Ucsb.Workload

namespace Ucsb

open BinaryRounding

/-- A JSON value as the parser stores it: an integer literal as `unsigned`, or
as `integer` with a minus sign, and the members of an object by their key. -/
inductive Json
  | null
  | boolean (value : Bool)
  | unsigned (value : UInt64)
  | integer (value : Int64)
  | float (value : ℚ)
  | string (value : String)
  | array (elements : List Json)
  | object (members : List (String × Json))

/-- Why `load` does not come to its end: an exception, or its `return false`. -/
inductive LoadStop
  | parseError
  | typeError (id : ℕ)
  | undefinedConversion
  | unknownDistribution
  deriving DecidableEq, Repr

namespace Json

/-- What iterating over a value visits. -/
def elements : Json → List Json
  | null => []
  | array elements => elements
  | object members => members.map Prod.snd
  | value => [value]

/-- `operator[]`, which adds a null member for a missing key. -/
def index (j : Json) (key : String) : Except LoadStop Json :=
  match j with
  | object members => .ok ((members.lookup key).getD null)
  | null => .ok null
  | _ => .error (.typeError 305)

/-- `value(key, default)`, where `get` converts to the type of the default. -/
def value {α : Type} (get : Json → Except LoadStop α) (j : Json) (key : String) (default : α) :
    Except LoadStop α :=
  match j with
  | object members =>
    match members.lookup key with
    | some member => get member
    | none => .ok default
  | _ => .error (.typeError 306)

def getString : Json → Except LoadStop String
  | string value => .ok value
  | _ => .error (.typeError 302)

def getSize : Json → Except LoadStop UInt64
  | unsigned value => .ok value
  | integer value => .ok (UInt64.ofInt value.toInt)
  | float value =>
    match truncateTo 64 value with
    | some size => .ok (UInt64.ofNat size)
    | none => .error .undefinedConversion
  | _ => .error (.typeError 302)

def getInt : Json → Except LoadStop Int32
  | unsigned value => .ok (Int32.ofInt value.toNat)
  | integer value => .ok (Int32.ofInt value.toInt)
  | float value =>
    if -2 ^ 31 - 1 < value ∧ value < 2 ^ 31 then
      .ok (Int32.ofInt (if 0 ≤ value then ⌊value⌋ else ⌈value⌉))
    else .error .undefinedConversion
  | boolean value => .ok (if value then 1 else 0)
  | _ => .error (.typeError 302)

def getDouble : Json → Except LoadStop ℚ
  | unsigned value => .ok (roundTo 53 value.toNat)
  | integer value => .ok (roundTo 53 value.toInt)
  | float value => .ok value
  | _ => .error (.typeError 302)

/-- `value(key, 0.0)` as a `float` member. -/
def proportion (j : Json) (key : String) : Except LoadStop ℚ := do
  let number ← j.value getDouble key 0
  .ok (roundTo 24 number)

/-- `value(key, 0)` as a `size_t` member. -/
def size (j : Json) (key : String) : Except LoadStop UInt64 := do
  let number ← j.value getInt key 0
  .ok (UInt64.ofInt number.toInt)

/-- `value(key, 0)` as a `value_length_t` member. -/
def length (j : Json) (key : String) : Except LoadStop UInt32 := do
  let number ← j.value getInt key 0
  .ok (UInt32.ofInt number.toInt)

end Json

def parseDistribution (name : String) : DistributionKind :=
  if name = "const" then .const
  else if name = "counter" then .counter
  else if name = "uniform" then .uniform
  else if name = "zipfian" then .zipfian
  else if name = "beta" then .beta
  else if name = "scrambled" then .scrambledZipfian
  else if name = "latest" then .skewedLatest
  else if name = "acknowledged" then .acknowledgedCounter
  else .unknown

def Json.distribution (j : Json) (key default : String) : Except LoadStop DistributionKind := do
  let name ← j.value getString key default
  .ok (parseDistribution name)

def checkDistribution (dist : DistributionKind) : Except LoadStop Unit :=
  if dist = .unknown then .error .unknownDistribution else .ok ()

/-- The body of the loop in `load`. -/
def loadWorkload (j : Json) : Except LoadStop Workload := do
  let name ← (← j.index "name").getString
  let dbRecordsCount ← (← j.index "records_count").getSize
  let dbOperationsCount ← (← j.index "operations_count").getSize
  let upsertProportion ← j.proportion "upsert_proportion"
  let updateProportion ← j.proportion "update_proportion"
  let removeProportion ← j.proportion "remove_proportion"
  let readProportion ← j.proportion "read_proportion"
  let readModifyWriteProportion ← j.proportion "read_modify_write_proportion"
  let batchUpsertProportion ← j.proportion "batch_upsert_proportion"
  let batchReadProportion ← j.proportion "batch_read_proportion"
  let bulkLoadProportion ← j.proportion "bulk_load_proportion"
  let rangeSelectProportion ← j.proportion "range_select_proportion"
  let scanProportion ← j.proportion "scan_proportion"
  let startKey ← j.size "start_key"
  let keyDist ← j.distribution "key_dist" "uniform"
  checkDistribution keyDist
  let valueLength ← j.length "value_length"
  let valueLengthDist ← j.distribution "value_length_dist" "const"
  checkDistribution valueLengthDist
  let batchUpsertMinLength ← j.size "batch_upsert_min_length"
  let batchUpsertMaxLength ← j.size "batch_upsert_max_length"
  let batchUpsertLengthDist ← j.distribution "batch_upsert_length_dist" "uniform"
  checkDistribution batchUpsertLengthDist
  let batchReadMinLength ← j.size "batch_read_min_length"
  let batchReadMaxLength ← j.size "batch_read_max_length"
  let batchReadLengthDist ← j.distribution "batch_read_length_dist" "uniform"
  checkDistribution batchReadLengthDist
  let bulkLoadMinLength ← j.size "bulk_load_min_length"
  let bulkLoadMaxLength ← j.size "bulk_load_max_length"
  let bulkLoadLengthDist ← j.distribution "bulk_load_length_dist" "uniform"
  checkDistribution bulkLoadLengthDist
  let rangeSelectMinLength ← j.size "range_select_min_length"
  let rangeSelectMaxLength ← j.size "range_select_max_length"
  let rangeSelectLengthDist ← j.distribution "range_select_length_dist" "uniform"
  -- the source tests key_dist a second time here
  checkDistribution keyDist
  .ok {
    name, dbRecordsCount, dbOperationsCount, upsertProportion, updateProportion,
    removeProportion, readProportion, readModifyWriteProportion, batchUpsertProportion,
    batchReadProportion, bulkLoadProportion, rangeSelectProportion, scanProportion, startKey,
    keyDist, valueLength, valueLengthDist, batchUpsertMinLength, batchUpsertMaxLength,
    batchUpsertLengthDist, batchReadMinLength, batchReadMaxLength, batchReadLengthDist,
    bulkLoadMinLength, bulkLoadMaxLength, bulkLoadLengthDist, rangeSelectMinLength,
    rangeSelectMaxLength, rangeSelectLengthDist }

/-- What is found under the path given to `load`. -/
inductive WorkloadFile
  | missing
  | malformed
  | parsed (content : Json)

/-- The result of `load` and the workloads it leaves. -/
def load : WorkloadFile → Except LoadStop (Bool × List Workload)
  | .missing => .ok (false, [])
  | .malformed => .error .parseError
  | .parsed content =>
    match content.elements.mapM loadWorkload with
    | .ok workloads => .ok (true, workloads)
    | .error .unknownDistribution => .ok (false, [])
    | .error stop => .error stop

end Ucsb
