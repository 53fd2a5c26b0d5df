import Ucsb.RocksDbTransaction

namespace Ucsb

open scoped WordBytes

namespace RocksDbTransaction

/-- The `Put` of a key returns `ok`, or else the one after the commit does. -/
def KeyWritten (t : RocksDbTransaction) (entry : UInt64 × Bytes) : Prop :=
  let write := put (toSlice entry.1).1 entry.2
  (write t).1 = .ok ∨ (write (write t).2.commit.2).1 = .ok

/-- Every key of a loop is written in the state that the loop has come to. -/
def EachWritten (t : RocksDbTransaction) (entries : List (UInt64 × Bytes)) : Prop :=
  ∀ (i : ℕ) (entry : UInt64 × Bytes), entries[i]? = some entry →
    (upsertLoop (entries.take i) t).KeyWritten entry

/-- A reply tells that a batch is written only when each of its keys is. -/
def Acknowledges (t : RocksDbTransaction) (batch : Batch) (reply : Reply Bytes) : Prop :=
  (reply.result = { entriesTouched := UInt64.ofNat batch.keys.length } →
      t.EachWritten batch.slices) ∧
    (¬t.EachWritten batch.slices → reply.result.status ≠ .ok)

/-- The statuses that the writes of so many keys leave: a write takes one of them, and two more
when that one is not `ok`. -/
def leftAfter : ℕ → List RocksStatus → List RocksStatus
  | 0, statuses => statuses
  | keys + 1, statuses =>
    leftAfter keys (if statuses.headD .ok = .ok then statuses.drop 1 else statuses.drop 3)

/-- No key has both its `Put` and the one after the commit fail. -/
def PutsSucceed (keys : ℕ) (statuses : List RocksStatus) : Prop :=
  ∀ i < keys, (leftAfter i statuses)[0]?.getD .ok = .ok ∨ (leftAfter i statuses)[2]?.getD .ok = .ok

variable {t : RocksDbTransaction} {entry : UInt64 × Bytes} {entries : List (UInt64 × Bytes)}
  {keySlice value : Bytes} {statuses : List RocksStatus}

theorem put_status (keySlice value : Bytes) (t : RocksDbTransaction) :
    (put keySlice value t).1 = t.statuses.headD .ok ∧
      (put keySlice value t).2.statuses = t.statuses.drop 1 := by
  unfold put nextStatus
  dsimp only
  split
  next hok => exact ⟨hok.symm, List.drop_one.symm⟩
  next => exact ⟨rfl, List.drop_one.symm⟩

theorem commit_statuses (t : RocksDbTransaction) : t.commit.2.statuses = t.statuses.drop 1 := by
  unfold commit nextStatus
  dsimp only
  split
  next => exact List.drop_one.symm
  next => exact List.drop_one.symm

theorem again_status (keySlice value : Bytes) (t : RocksDbTransaction) :
    (put keySlice value (put keySlice value t).2.commit.2).1 = (t.statuses.drop 2).headD .ok ∧
      (put keySlice value (put keySlice value t).2.commit.2).2.statuses = t.statuses.drop 3 := by
  have hcommit : (put keySlice value t).2.commit.2.statuses = t.statuses.drop 2 := by
    rw [commit_statuses, (put_status keySlice value t).2, List.drop_drop]
  obtain ⟨hstatus, hleft⟩ := put_status keySlice value (put keySlice value t).2.commit.2
  rw [hstatus, hleft, hcommit, List.drop_drop]
  exact ⟨rfl, rfl⟩

theorem keyWritten_iff :
    t.KeyWritten entry ↔ t.statuses[0]?.getD .ok = .ok ∨ t.statuses[2]?.getD .ok = .ok := by
  unfold KeyWritten
  dsimp only
  rw [(put_status _ _ t).1, (again_status _ _ t).1]
  simp only [List.headD_eq_head?_getD, List.head?_eq_getElem?, List.getElem?_drop, Nat.add_zero]

theorem retried_status :
    (t.retried (put (toSlice entry.1).1 entry.2)).1 = .ok ↔ t.KeyWritten entry := by
  unfold retried KeyWritten
  dsimp only
  split
  next hok => exact iff_of_true hok (Or.inl hok)
  next hfailed => exact (or_iff_right hfailed).symm

theorem retried_statuses :
    (t.retried (put keySlice value)).2.statuses =
      if t.statuses.headD .ok = .ok then t.statuses.drop 1 else t.statuses.drop 3 := by
  obtain ⟨hstatus, hleft⟩ := put_status keySlice value t
  unfold retried
  dsimp only
  rw [hstatus]
  split
  next => exact hleft
  next => exact (again_status keySlice value t).2

/-- The upsert of one key tells the truth about it. -/
theorem upsert_acknowledges :
    (t.upsert entry.1 entry.2).1.result.status = .ok ↔ t.KeyWritten entry := by
  have hreply : (t.upsert entry.1 entry.2).1.result.status =
      (t.retried (put (toSlice entry.1).1 entry.2)).1.operationStatus := rfl
  rw [← retried_status, hreply]
  unfold RocksStatus.operationStatus
  split
  next hok => exact iff_of_true rfl hok
  next hfailed => exact iff_of_false (by simp) hfailed

theorem upsertLoop_statuses :
    (upsertLoop entries t).statuses = leftAfter entries.length t.statuses := by
  induction entries generalizing t with
  | nil => rfl
  | cons entry entries ih =>
    rw [List.length_cons, leftAfter, ← retried_statuses, ← ih]
    rfl

theorem eachWritten_iff :
    t.EachWritten entries ↔ PutsSucceed entries.length t.statuses := by
  have hleft : ∀ i < entries.length,
      (upsertLoop (entries.take i) t).statuses = leftAfter i t.statuses := by
    intro i hi
    rw [upsertLoop_statuses, List.length_take, Nat.min_eq_left hi.le]
  constructor
  · intro h i hi
    have hwritten := keyWritten_iff.mp (h i _ (List.getElem?_eq_getElem hi))
    rwa [hleft i hi] at hwritten
  · intro h i entry hentry
    obtain ⟨hi, -⟩ := List.getElem?_eq_some_iff.mp hentry
    rw [keyWritten_iff, hleft i hi]
    exact h i hi

theorem batchUpsert_acknowledges_iff (t : RocksDbTransaction) (batch : Batch) :
    t.Acknowledges batch (t.batchUpsert batch).1 ↔ PutsSucceed batch.keys.length t.statuses := by
  have hlength : batch.slices.length = batch.keys.length := by
    rw [Batch.slices_eq, batch.entries_length]
  rw [← hlength, ← eachWritten_iff]
  exact ⟨fun h => h.1 rfl, fun h => ⟨fun _ => h, fun hnot => absurd h hnot⟩⟩

/-- For all statuses of the writes and commits, `batch_upsert` and `bulk_load` acknowledge only
what is written exactly when no write fails twice. -/
theorem transaction_acknowledges_iff (t : RocksDbTransaction) (batch : Batch) :
    (t.Acknowledges batch (t.batchUpsert batch).1 ∧ t.Acknowledges batch (t.bulkLoad batch).1) ↔
      PutsSucceed batch.keys.length t.statuses := by
  have hiff := batchUpsert_acknowledges_iff t batch
  exact ⟨fun h => hiff.mp h.1, fun h => ⟨hiff.mpr h, hiff.mpr h⟩⟩

/-- The only key of a batch is not written, and is reported as written. -/
theorem transaction_acknowledges_lost :
    let t : RocksDbTransaction := { db := ∅, view := ∅, statuses := [.tryAgain, .ok, .otherError] }
    let batch : Batch :=
      { keys := [1], values := [7], sizes := [1], sizes_length := rfl, sizes_sum := rfl }
    ¬t.Acknowledges batch (t.batchUpsert batch).1 ∧
      (t.batchUpsert batch).1.result = { entriesTouched := 1 } ∧
      (t.batchUpsert batch).2.view.get (keyBytes (bswap64 1)) = none := by
  intro t batch
  refine ⟨fun h => ?_, rfl, by decide +kernel⟩
  have hputs := (batchUpsert_acknowledges_iff t batch).mp h 0 (by decide)
  revert hputs
  decide

end RocksDbTransaction

end Ucsb
