import Ucsb.Operation
import Ucsb.SortedMap
import Ucsb.WordBytes
import Mathlib.Data.List.SplitLengths

namespace Ucsb

open scoped WordBytes

/-- The arguments of `batch_upsert` and `bulk_load`: a size for each key, and the
values one after another. -/
structure Batch where
  keys : List UInt64
  values : Bytes
  sizes : List UInt32
  sizes_length : sizes.length = keys.length
  sizes_sum : (sizes.map UInt32.toNat).sum = values.length

/-- Each key with its own piece of the values. -/
def Batch.entries (batch : Batch) : List (UInt64 × Bytes) :=
  batch.keys.zip ((batch.sizes.map UInt32.toNat).splitLengths batch.values)

theorem Batch.entries_keys (batch : Batch) : batch.entries.map Prod.fst = batch.keys := by
  rw [entries, List.map_fst_zip]
  simp [batch.sizes_length]

theorem Batch.entries_length (batch : Batch) : batch.entries.length = batch.keys.length := by
  rw [← batch.entries_keys, List.length_map]

/-- The operations of `data_accessor_t` on a single key. -/
inductive PointOperation
  | upsert (key : UInt64) (value : Bytes)
  | update (key : UInt64) (value : Bytes)
  | remove (key : UInt64)
  | read (key : UInt64)

/-- The operations of `data_accessor_t`, but for `batch_read`. -/
inductive DataOperation
  | point (operation : PointOperation)
  | batchUpsert (batch : Batch)
  | bulkLoad (batch : Batch)
  | rangeSelect (key length : UInt64)
  | scan (key length : UInt64)

/-- All operations of `data_accessor_t`. -/
inductive DataRequest
  | data (operation : DataOperation)
  | batchRead (keys : List UInt64)

/-- A bulk has keys, and they ascend. -/
def DataOperation.Admitted : DataOperation → Prop
  | .bulkLoad batch => batch.keys ≠ [] ∧ batch.keys.Pairwise (· < ·)
  | _ => True

/-- A database as a map over integer keys. -/
abbrev KeyMap := SortedMap UInt64 Bytes

/-- A database as a map over byte strings, in their lexicographic order. -/
abbrev ByteMap := SortedMap Bytes Bytes

/-- What the operations on a single key mean; `absent` answers the removal of a key
that is not there. -/
def pointStep (absent : OperationStatus) (m : KeyMap) : PointOperation → Reply UInt64 × KeyMap
  | .upsert key value => (.ofStatus .ok, m.put key value)
  | .update key value =>
    match m.get key with
    | none => (.ofStatus .notFound, m)
    | some _ => (.ofStatus .ok, m.put key value)
  | .remove key =>
    match m.get key with
    | none => (.ofStatus absent, m)
    | some _ => (.ofStatus .ok, m.erase key)
  | .read key =>
    match m.get key with
    | none => (.ofStatus .notFound, m)
    | some value => ({ Reply.ofStatus .ok with copies := [{ offset := 0, data := value }] }, m)

def batchStep (m : KeyMap) (batch : Batch) : Reply UInt64 × KeyMap :=
  ({ result := { entriesTouched := UInt64.ofNat batch.keys.length } }, m.putAll batch.entries)

/-- The first entries from a key on. -/
def firstEntries (m : KeyMap) (key length : UInt64) : List (UInt64 × Bytes) :=
  (m.seek key).take length.toNat

/-- A query visits the first entries from its key on; the copies depend on where the
query puts the values. -/
def rangeReply (place : List Bytes → List Copy) (visited : List (UInt64 × Bytes)) :
    Reply UInt64 :=
  { result := { entriesTouched := UInt64.ofNat visited.length }
    copies := place (visited.map Prod.snd)
    visited := visited }

/-- `scan` puts every value over the one before. -/
def overlaidCopies (values : List Bytes) : List Copy :=
  values.map fun value => { offset := 0, data := value }

def mapStep (absent : OperationStatus) (m : KeyMap) : DataOperation → Reply UInt64 × KeyMap
  | .point operation => pointStep absent m operation
  | .batchUpsert batch => batchStep m batch
  | .bulkLoad batch => batchStep m batch
  | .rangeSelect key length => (rangeReply (consecutiveCopies 0) (firstEntries m key length), m)
  | .scan key length => (rangeReply overlaidCopies (firstEntries m key length), m)

end Ucsb
