import Mathlib.Data.Nat.Notation

namespace Ucsb

/-- `operation_status_t`. -/
inductive OperationStatus
  | ok
  | error
  | notFound
  | notImplemented
  deriving DecidableEq

/-- `operation_result_t`. -/
structure OperationResult where
  entriesTouched : UInt64 := 0
  status : OperationStatus := .ok

deriving instance DecidableEq for OperationResult

/-- Bytes of a value or of an encoded key. -/
abbrev Bytes := List UInt8

/-- One `memcpy` into the span that the caller handed over. -/
structure Copy where
  offset : ℕ
  data : Bytes
  deriving DecidableEq

def Copy.write (span : Bytes) (copy : Copy) : Bytes :=
  span.take copy.offset ++ copy.data ++ span.drop (copy.offset + copy.data.length)

/-- What an operation of `data_accessor_t` returns, what it copies into the caller's
span, and the entries it visits. -/
structure Reply (Key : Type) where
  result : OperationResult
  copies : List Copy := []
  visited : List (Key × Bytes) := []
  deriving DecidableEq

namespace Reply

variable {Key Key' : Type}

/-- The span after all copies. -/
def written (reply : Reply Key) (span : Bytes) : Bytes := reply.copies.foldl Copy.write span

def encode (code : Key → Key') (reply : Reply Key) : Reply Key' :=
  { result := reply.result
    copies := reply.copies
    visited := reply.visited.map (Prod.map code id) }

def ofStatus (status : OperationStatus) : Reply Key :=
  { result := { entriesTouched := if status = .ok then 1 else 0, status := status } }

end Reply

/-- Values laid one after another from an offset on. -/
def consecutiveCopies : ℕ → List Bytes → List Copy
  | _, [] => []
  | offset, value :: values =>
    { offset := offset, data := value } :: consecutiveCopies (offset + value.length) values

/-- They leave the values in a row, and the bytes behind them as they were. -/
theorem consecutiveCopies_written {offset : ℕ} {values : List Bytes} {span : Bytes}
    (h : offset + values.flatten.length ≤ span.length) :
    (consecutiveCopies offset values).foldl Copy.write span =
      span.take offset ++ values.flatten ++ span.drop (offset + values.flatten.length) := by
  induction values generalizing offset span with
  | nil => simp [consecutiveCopies]
  | cons value values ih =>
    rw [List.flatten_cons, List.length_append] at h
    have hlength : (span.take offset).length = offset := by
      rw [List.length_take]
      omega
    have hspan : (Copy.write span ⟨offset, value⟩).length = span.length := by
      simp only [Copy.write, List.length_append, hlength, List.length_drop]
      omega
    have htake : (Copy.write span ⟨offset, value⟩).take (offset + value.length) =
        span.take offset ++ value := by
      apply List.take_left'
      rw [List.length_append, hlength]
    have hdrop : (Copy.write span ⟨offset, value⟩).drop
        (offset + value.length + values.flatten.length) =
          span.drop (offset + (value.length + values.flatten.length)) := by
      rw [← List.drop_drop, Copy.write, List.drop_left', List.drop_drop, Nat.add_assoc]
      rw [List.length_append, hlength]
    rw [consecutiveCopies, List.foldl_cons, ih (by omega), htake, hdrop, List.flatten_cons,
      List.length_append]
    simp only [List.append_assoc]

end Ucsb
