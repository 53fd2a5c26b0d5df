import Ucsb.Generators

namespace Ucsb

open BinaryRounding

/-- `worker_t`. Of the values buffer only the size is kept. -/
structure Worker where
  workload : Workload
  upsertKeySequenceGenerator : KeySequence
  acknowledgedKeyGenerator : Option AcknowledgedCounterGenerator
  keyGenerator : Option KeyGenerator
  keysBuffer : List UInt64
  valueLengthGenerator : ValueLengthGenerator
  valuesBufferSize : UInt64
  valueSizesBuffer : List UInt32
  batchUpsertLengthGenerator : LengthGenerator
  batchReadLengthGenerator : LengthGenerator
  bulkLoadLengthGenerator : LengthGenerator
  rangeSelectLengthGenerator : LengthGenerator

/-- `data_accessor_t` calls of the worker; a span stands as its size in bytes. -/
inductive AccessorCall
  | upsert (key value : UInt64)
  | update (key value : UInt64)
  | remove (key : UInt64)
  | read (key value : UInt64)
  | batchUpsert (keys : List UInt64) (values : UInt64) (sizes : List UInt32)
  | batchRead (keys : List UInt64) (values : UInt64)
  | bulkLoad (keys : List UInt64) (values : UInt64) (sizes : List UInt32)
  | rangeSelect (key length values : UInt64)
  | scan (key length singleValue : UInt64)
  deriving DecidableEq

/-- What the random sources return during one operation. -/
structure Draws where
  keys : List KeyDraw := []
  length : UInt64 := 0
  valueLengths : ℕ → UInt32 := fun _ => 1

def roundupToMultiple (multiple number : UInt64) : UInt64 :=
  (number + (multiple - 1)) &&& (0 - multiple)

def alignment : UInt64 := 4096

/-- `(size_t)(operations_count * upsert_proportion * 2)`. -/
def newKeys (w : Workload) : Except Fault UInt64 :=
  let product := roundTo 24 (roundTo 24 w.operationsCount.toNat * w.upsertProportion)
  match truncateTo 64 (roundTo 24 (product * 2)) with
  | some count => .ok (UInt64.ofNat count)
  | none => .error .undefinedConversion

def createKeyGenerator (w : Workload) (counterLast : UInt64) : Except Fault KeyGenerator :=
  match w.keyDist with
  | .uniform => .ok (.uniform w.startKey (w.startKey + w.recordsCount - 1))
  | .zipfian => do
    let newKeys ← newKeys w
    .ok (.scrambledZipfian
      (.make w.startKey (w.startKey + w.recordsCount + newKeys - 1)))
  | .beta => do
    let newKeys ← newKeys w
    .ok (.beta (.make w.startKey (w.startKey + w.recordsCount + newKeys - 1)))
  | .skewedLatest => .ok (.skewedLatest (.make 0 (counterLast - 1)))
  | dist => .error (unknownDistribution "key" dist)

def createValueLengthGenerator (w : Workload) : Except Fault ValueLengthGenerator :=
  match w.valueLengthDist with
  | .const => .ok (.const w.valueLength)
  | .uniform => .ok (.uniform 1 w.valueLength)
  | dist => .error (unknownDistribution "value length" dist)

/-- The common body of the four `create_*_length_generator`, which differ in what
their exception calls them: three of them `range select`. -/
def createLengthGenerator (what : String) (dist : DistributionKind) (min max : UInt64) :
    Except Fault LengthGenerator :=
  match dist with
  | .uniform => .ok (.uniform min max)
  | .zipfian => .ok (.zipfian (.make min max))
  | dist => .error (unknownDistribution what dist)

def createBatchUpsertLengthGenerator (w : Workload) : Except Fault LengthGenerator :=
  createLengthGenerator "range select length" w.batchUpsertLengthDist w.batchUpsertMinLength
    w.batchUpsertMaxLength

def createBatchReadLengthGenerator (w : Workload) : Except Fault LengthGenerator :=
  createLengthGenerator "batch read length" w.batchReadLengthDist w.batchReadMinLength
    w.batchReadMaxLength

def createBulkLoadLengthGenerator (w : Workload) : Except Fault LengthGenerator :=
  createLengthGenerator "range select length" w.bulkLoadLengthDist w.bulkLoadMinLength
    w.bulkLoadMaxLength

def createRangeSelectLengthGenerator (w : Workload) : Except Fault LengthGenerator :=
  createLengthGenerator "range select length" w.rangeSelectLengthDist w.rangeSelectMinLength
    w.rangeSelectMaxLength

def elementsMaxCount (w : Workload) : UInt64 :=
  max w.batchUpsertMaxLength (max w.batchReadMaxLength
    (max w.bulkLoadMaxLength (max w.rangeSelectMaxLength 1)))

def valueAlignedLength (w : Workload) : UInt64 :=
  roundupToMultiple alignment w.valueLength.toUInt64

/-- The two key generators of the constructor. Moving the acknowledged counter
into `upsert_key_sequence_generator` leaves `acknowledged_key_generator` null. -/
def createKeyGenerators (w : Workload) : Except Fault (KeySequence × Option KeyGenerator) :=
  if w.InsertOnly then .ok (.counter { counter := w.startKey }, none)
  else do
    let acknowledged := AcknowledgedCounterGenerator.make w.dbRecordsCount
    let keyGenerator ← createKeyGenerator w acknowledged.last
    .ok (.acknowledged acknowledged, some keyGenerator)

/-- The constructor `worker_t::worker_t`. -/
def Worker.make (w : Workload) : Except Fault Worker := do
  let generators ← createKeyGenerators w
  let valueLengthGenerator ← createValueLengthGenerator w
  let batchUpsertLengthGenerator ← createBatchUpsertLengthGenerator w
  let batchReadLengthGenerator ← createBatchReadLengthGenerator w
  let bulkLoadLengthGenerator ← createBulkLoadLengthGenerator w
  let rangeSelectLengthGenerator ← createRangeSelectLengthGenerator w
  .ok {
    workload := w
    upsertKeySequenceGenerator := generators.1
    acknowledgedKeyGenerator := none
    keyGenerator := generators.2
    keysBuffer := List.replicate (elementsMaxCount w).toNat 0
    valueLengthGenerator := valueLengthGenerator
    valuesBufferSize := elementsMaxCount w * valueAlignedLength w
    valueSizesBuffer := List.replicate (elementsMaxCount w).toNat 0
    batchUpsertLengthGenerator := batchUpsertLengthGenerator
    batchReadLengthGenerator := batchReadLengthGenerator
    bulkLoadLengthGenerator := bulkLoadLengthGenerator
    rangeSelectLengthGenerator := rangeSelectLengthGenerator }

/-- `buffer[i] = value`. -/
def writeAt {α : Type} (buffer : List α) (i : ℕ) (value : α) : Except Fault (List α) :=
  if i < buffer.length then .ok (buffer.set i value) else .error .outOfBounds

namespace Worker

/-- `if (acknowledged_key_generator) acknowledged_key_generator->acknowledge(key)`. -/
def acknowledge (w : Worker) (key : UInt64) : Except Fault Worker :=
  match w.acknowledgedKeyGenerator with
  | none => .ok w
  | some g => do
    let g ← g.acknowledge key
    .ok { w with acknowledgedKeyGenerator := some g }

def generateKey (w : Worker) : List KeyDraw → Except Fault (UInt64 × List KeyDraw)
  | [] => .error .drawsExhausted
  | draw :: draws =>
    match w.keyGenerator with
    | none => .error .nullGenerator
    | some keyGenerator => do
      let key ← keyGenerator.generate w.upsertKeySequenceGenerator.last draw
      if w.upsertKeySequenceGenerator.last < key then generateKey w draws
      else .ok (key, draws)

/-- The loop of `generate_batch_upsert_keys` and `generate_bulk_load_keys` from
index `i`, by the number of keys still to hand out. -/
def handOutKeys : ℕ → ℕ → Worker → Except Fault Worker
  | 0, _, w => .ok w
  | n + 1, i, w => do
    let key := w.upsertKeySequenceGenerator.generate.1
    let keysBuffer ← writeAt w.keysBuffer i key
    let w ← { w with
      upsertKeySequenceGenerator := w.upsertKeySequenceGenerator.generate.2
      keysBuffer := keysBuffer }.acknowledge key
    handOutKeys n (i + 1) w

/-- The common body of `generate_batch_upsert_keys` and `generate_bulk_load_keys`. -/
def generateNewKeys (lengthGenerator : LengthGenerator) (w : Worker) (draws : Draws) :
    Except Fault (List UInt64 × Worker) := do
  let length ← lengthGenerator.generate draws.length
  let w ← handOutKeys length.toNat 0 w
  .ok (w.keysBuffer.take length.toNat, w)

def generateBatchUpsertKeys (w : Worker) (draws : Draws) :
    Except Fault (List UInt64 × Worker) :=
  w.generateNewKeys w.batchUpsertLengthGenerator draws

def generateBulkLoadKeys (w : Worker) (draws : Draws) :
    Except Fault (List UInt64 × Worker) :=
  w.generateNewKeys w.bulkLoadLengthGenerator draws

/-- The loop of `generate_batch_read_keys`. Every round takes at least one draw,
so the number of draws bounds the rounds. -/
def collectKeys (batchLength : ℕ) : ℕ → List UInt64 → List KeyDraw → Worker →
    Except Fault Worker
  | 0, _, _, _ => .error .drawsExhausted
  | rounds + 1, uniqueKeys, draws, w =>
    if uniqueKeys.length = batchLength then .ok w
    else do
      let (key, draws) ← w.generateKey draws
      if key ∈ uniqueKeys then collectKeys batchLength rounds uniqueKeys draws w
      else do
        let keysBuffer ← writeAt w.keysBuffer uniqueKeys.length key
        collectKeys batchLength rounds (key :: uniqueKeys) draws
          { w with keysBuffer := keysBuffer }

def generateBatchReadKeys (w : Worker) (draws : Draws) :
    Except Fault (List UInt64 × Worker) := do
  let batchLength ← w.batchReadLengthGenerator.generate draws.length
  let w ← collectKeys batchLength.toNat (draws.keys.length + 1) [] draws.keys w
  .ok (w.keysBuffer.take batchLength.toNat, w)

/-- The second loop of `generate_values`. -/
def drawSizes (valueLengths : ℕ → UInt32) : ℕ → ℕ → UInt64 → Worker →
    Except Fault (UInt64 × Worker)
  | 0, _, totalLength, w => .ok (totalLength, w)
  | n + 1, i, totalLength, w => do
    let length ← w.valueLengthGenerator.generate (valueLengths i)
    let valueSizesBuffer ← writeAt w.valueSizesBuffer i length
    drawSizes valueLengths n (i + 1) (totalLength + length.toUInt64)
      { w with valueSizesBuffer := valueSizesBuffer }

/-- `generate_values`: the size of the values span, the sizes, and the worker. -/
def generateValues (w : Worker) (count : UInt64) (draws : Draws) :
    Except Fault (UInt64 × List UInt32 × Worker) :=
  if w.valuesBufferSize < count * w.workload.valueLength.toUInt64 then .error .outOfBounds
  else do
    let (totalLength, w) ← drawSizes draws.valueLengths count.toNat 0 0 w
    .ok (totalLength, w.valueSizesBuffer.take count.toNat, w)

def generateValue (w : Worker) (draws : Draws) : Except Fault (UInt64 × Worker) := do
  let (_, sizes, w) ← w.generateValues 1 draws
  match sizes with
  | [] => .error .outOfBounds
  | size :: _ => .ok (size.toUInt64, w)

def valuesBuffer (w : Worker) (count : UInt64) : UInt64 :=
  count * valueAlignedLength w.workload

def valueBuffer (w : Worker) : UInt64 := w.valuesBuffer 1

def doUpsert (w : Worker) (draws : Draws) : Except Fault (List AccessorCall × Worker) := do
  let key := w.upsertKeySequenceGenerator.generate.1
  let (value, w) ← { w with
    upsertKeySequenceGenerator := w.upsertKeySequenceGenerator.generate.2 }.generateValue draws
  let w ← w.acknowledge key
  .ok ([.upsert key value], w)

def doUpdate (w : Worker) (draws : Draws) : Except Fault (List AccessorCall × Worker) := do
  let (key, _) ← w.generateKey draws.keys
  let (value, w) ← w.generateValue draws
  .ok ([.update key value], w)

def doRemove (w : Worker) (draws : Draws) : Except Fault (List AccessorCall × Worker) := do
  let (key, _) ← w.generateKey draws.keys
  .ok ([.remove key], w)

def doRead (w : Worker) (draws : Draws) : Except Fault (List AccessorCall × Worker) := do
  let (key, _) ← w.generateKey draws.keys
  .ok ([.read key w.valueBuffer], w)

def doReadModifyWrite (w : Worker) (draws : Draws) :
    Except Fault (List AccessorCall × Worker) := do
  let (key, _) ← w.generateKey draws.keys
  let readValue := w.valueBuffer
  let (value, w) ← w.generateValue draws
  .ok ([.read key readValue, .update key value], w)

/-- The common body of `do_batch_upsert` and `do_bulk_load`. -/
def insertMany (generated : Except Fault (List UInt64 × Worker))
    (call : List UInt64 → UInt64 → List UInt32 → AccessorCall) (draws : Draws) :
    Except Fault (List AccessorCall × Worker) := do
  let (keys, w) ← generated
  let (values, sizes, w) ← w.generateValues (UInt64.ofNat keys.length) draws
  .ok ([call keys values sizes], w)

def doBatchUpsert (w : Worker) (draws : Draws) : Except Fault (List AccessorCall × Worker) :=
  insertMany (w.generateBatchUpsertKeys draws) .batchUpsert draws

def doBatchRead (w : Worker) (draws : Draws) : Except Fault (List AccessorCall × Worker) := do
  let (keys, w) ← w.generateBatchReadKeys draws
  .ok ([.batchRead keys (w.valuesBuffer (UInt64.ofNat keys.length))], w)

def doBulkLoad (w : Worker) (draws : Draws) : Except Fault (List AccessorCall × Worker) :=
  insertMany (w.generateBulkLoadKeys draws) .bulkLoad draws

def doRangeSelect (w : Worker) (draws : Draws) :
    Except Fault (List AccessorCall × Worker) := do
  let (key, _) ← w.generateKey draws.keys
  let length ← w.rangeSelectLengthGenerator.generate draws.length
  .ok ([.rangeSelect key length (w.valuesBuffer length)], w)

def doScan (w : Worker) : Except Fault (List AccessorCall × Worker) :=
  .ok ([.scan w.workload.startKey w.workload.recordsCount w.valueBuffer], w)

/-- The switch of `bench` over the chosen operation. -/
def perform (w : Worker) (draws : Draws) :
    OperationKind → Except Fault (List AccessorCall × Worker)
  | .upsert => w.doUpsert draws
  | .update => w.doUpdate draws
  | .remove => w.doRemove draws
  | .read => w.doRead draws
  | .readModifyWrite => w.doReadModifyWrite draws
  | .batchUpsert => w.doBatchUpsert draws
  | .batchRead => w.doBatchRead draws
  | .bulkLoad => w.doBulkLoad draws
  | .rangeSelect => w.doRangeSelect draws
  | .scan => w.doScan

/-- A worker's operations one after another, and all its calls in their order. -/
def run : Worker → List (OperationKind × Draws) → Except Fault (List AccessorCall × Worker)
  | w, [] => .ok ([], w)
  | w, (kind, draws) :: operations => do
    let (calls, w) ← w.perform draws kind
    let (rest, w) ← run w operations
    .ok (calls ++ rest, w)

end Worker

end Ucsb
