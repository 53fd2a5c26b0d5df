import Ucsb.BinaryRounding

namespace Ucsb

/-- `distribution_kind_t`. -/
inductive DistributionKind
  | unknown
  | const
  | counter
  | uniform
  | zipfian
  | beta
  | scrambledZipfian
  | skewedLatest
  | acknowledgedCounter
  deriving DecidableEq, Repr

/-- The number a distribution is printed as. -/
def DistributionKind.toNat : DistributionKind → ℕ
  | .unknown => 0
  | .const => 1
  | .counter => 2
  | .uniform => 3
  | .zipfian => 4
  | .beta => 5
  | .scrambledZipfian => 6
  | .skewedLatest => 7
  | .acknowledgedCounter => 8

/-- `operation_kind_t`. -/
inductive OperationKind
  | upsert
  | update
  | remove
  | read
  | readModifyWrite
  | batchUpsert
  | batchRead
  | bulkLoad
  | rangeSelect
  | scan
  deriving DecidableEq, Repr

/-- `workload_t`. A `float` member is the rational number it denotes. -/
structure Workload where
  name : String := ""
  dbRecordsCount : UInt64 := 0
  recordsCount : UInt64 := 0
  dbOperationsCount : UInt64 := 0
  operationsCount : UInt64 := 0
  upsertProportion : ℚ := 0
  updateProportion : ℚ := 0
  removeProportion : ℚ := 0
  readProportion : ℚ := 0
  readModifyWriteProportion : ℚ := 0
  batchUpsertProportion : ℚ := 0
  batchReadProportion : ℚ := 0
  bulkLoadProportion : ℚ := 0
  rangeSelectProportion : ℚ := 0
  scanProportion : ℚ := 0
  startKey : UInt64 := 0
  keyDist : DistributionKind := .uniform
  valueLength : UInt32 := 0
  valueLengthDist : DistributionKind := .const
  batchUpsertMinLength : UInt64 := 0
  batchUpsertMaxLength : UInt64 := 0
  batchUpsertLengthDist : DistributionKind := .uniform
  batchReadMinLength : UInt64 := 0
  batchReadMaxLength : UInt64 := 0
  batchReadLengthDist : DistributionKind := .uniform
  bulkLoadMinLength : UInt64 := 0
  bulkLoadMaxLength : UInt64 := 0
  bulkLoadLengthDist : DistributionKind := .uniform
  rangeSelectMinLength : UInt64 := 0
  rangeSelectMaxLength : UInt64 := 0
  rangeSelectLengthDist : DistributionKind := .uniform
  deriving DecidableEq

/-- The weight `create_operation_chooser` gives to each operation. -/
def Workload.proportion (w : Workload) : OperationKind → ℚ
  | .upsert => w.upsertProportion
  | .update => w.updateProportion
  | .remove => w.removeProportion
  | .read => w.readProportion
  | .readModifyWrite => w.readModifyWriteProportion
  | .batchUpsert => w.batchUpsertProportion
  | .batchRead => w.batchReadProportion
  | .bulkLoad => w.bulkLoadProportion
  | .rangeSelect => w.rangeSelectProportion
  | .scan => w.scanProportion

/-- The test that the splitter and the worker's constructor share: one of the
three insert proportions is exactly one. -/
def Workload.InsertOnly (w : Workload) : Prop :=
  w.upsertProportion = 1 ∨ w.batchUpsertProportion = 1 ∨ w.bulkLoadProportion = 1

instance (w : Workload) : Decidable w.InsertOnly :=
  inferInstanceAs (Decidable (_ ∨ _ ∨ _))

/-- The operations that hand out new keys. -/
def OperationKind.Inserts (kind : OperationKind) : Prop :=
  kind = .upsert ∨ kind = .batchUpsert ∨ kind = .bulkLoad

instance (kind : OperationKind) : Decidable kind.Inserts :=
  inferInstanceAs (Decidable (_ ∨ _ ∨ _))

/-- A workload whose only operation is the insertion `kind`. -/
structure Workload.InsertsOnlyBy (w : Workload) (kind : OperationKind) : Prop where
  inserts : kind.Inserts
  proportion_one : w.proportion kind = 1
  proportion_zero : ∀ other, other ≠ kind → w.proportion other = 0

/-- The shortest insertion of one operation of the kind, in keys. -/
def Workload.minInsertLength (w : Workload) : OperationKind → UInt64
  | .upsert => 1
  | .batchUpsert => w.batchUpsertMinLength
  | .bulkLoad => w.bulkLoadMinLength
  | _ => 0

/-- The longest insertion of one operation of the kind, in keys. -/
def Workload.maxInsertLength (w : Workload) : OperationKind → UInt64
  | .upsert => 1
  | .batchUpsert => w.batchUpsertMaxLength
  | .bulkLoad => w.bulkLoadMaxLength
  | _ => 0

theorem Workload.InsertsOnlyBy.insertOnly {w : Workload} {kind : OperationKind}
    (h : w.InsertsOnlyBy kind) : w.InsertOnly := by
  have hone := h.proportion_one
  rcases h.inserts with rfl | rfl | rfl
  · exact Or.inl hone
  · exact Or.inr (Or.inl hone)
  · exact Or.inr (Or.inr hone)

end Ucsb
