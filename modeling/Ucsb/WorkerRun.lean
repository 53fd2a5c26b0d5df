import Ucsb.Worker
import Ucsb.ConsecutiveWords

namespace Ucsb

open ExceptRules ConsecutiveWords

/-- The keys a call puts into the database. -/
def AccessorCall.insertedKeys : AccessorCall → List UInt64
  | .upsert key _ => [key]
  | .batchUpsert keys _ _ => keys
  | .bulkLoad keys _ _ => keys
  | _ => []

def insertedKeys (calls : List AccessorCall) : List UInt64 :=
  calls.flatMap AccessorCall.insertedKeys

@[simp] theorem insertedKeys_append (a b : List AccessorCall) :
    insertedKeys (a ++ b) = insertedKeys a ++ insertedKeys b :=
  List.flatMap_append

/-- How many keys an operation asks the sequence for. -/
def insertedCount : OperationKind × Draws → ℕ
  | (.upsert, _) => 1
  | (.batchUpsert, draws) => draws.length.toNat
  | (.bulkLoad, draws) => draws.length.toNat
  | _ => 0

def insertedTotal (operations : List (OperationKind × Draws)) : ℕ :=
  (operations.map insertedCount).sum

namespace Worker

/-- What is left of a worker after it took `n` keys from its sequence: nothing
acknowledges them, since no counter is left to acknowledge them to. -/
structure HandsOut (w : Worker) (n : ℕ) (w' : Worker) : Prop where
  acknowledged : w'.acknowledgedKeyGenerator = none
  sequence : w'.upsertKeySequenceGenerator = w.upsertKeySequenceGenerator.advance n
  keyGenerator : w'.keyGenerator = w.keyGenerator
  workload : w'.workload = w.workload

theorem HandsOut.none {w : Worker} (h : w.acknowledgedKeyGenerator = none) : w.HandsOut 0 w :=
  ⟨h, rfl, rfl, rfl⟩

theorem HandsOut.trans {a b c : Worker} {m n : ℕ} (h : a.HandsOut m b) (h' : b.HandsOut n c) :
    a.HandsOut (m + n) c := by
  refine ⟨h'.acknowledged, ?_, h'.keyGenerator.trans h.keyGenerator,
    h'.workload.trans h.workload⟩
  rw [h'.sequence, h.sequence, KeySequence.advance_add]

theorem acknowledge_none {w w' : Worker} {key : UInt64}
    (hack : w.acknowledgedKeyGenerator = none) (h : w.acknowledge key = .ok w') : w' = w := by
  simpa [acknowledge, hack] using h.symm

theorem writeAt_ok {α : Type} {buffer buffer' : List α} {i : ℕ} {value : α}
    (h : writeAt buffer i value = .ok buffer') :
    i < buffer.length ∧ buffer' = buffer.set i value := by
  unfold writeAt at h
  split at h
  next hi => exact ⟨hi, (Except.ok.inj h).symm⟩
  next => simp at h

/-- The loop takes `n` keys in a row and leaves them in the buffer from `i` on. -/
theorem handOutKeys_spec {n i : ℕ} {w w' : Worker}
    (hack : w.acknowledgedKeyGenerator = none) (h : handOutKeys n i w = .ok w') :
    w.HandsOut n w' ∧ w'.keysBuffer.take i = w.keysBuffer.take i ∧
      (w'.keysBuffer.drop i).take n = words w.upsertKeySequenceGenerator.next n := by
  induction n generalizing i w with
  | zero =>
    cases Except.ok.inj h
    exact ⟨HandsOut.none hack, rfl, rfl⟩
  | succ n ih =>
    simp only [handOutKeys, bind_eq_ok] at h
    obtain ⟨buffer, hb, w1, ha, h⟩ := h
    obtain ⟨hi, rfl⟩ := writeAt_ok hb
    cases acknowledge_none (by exact hack) ha
    obtain ⟨hands, htake, hdrop⟩ := ih (by exact hack) h
    simp only [KeySequence.generate_fst, KeySequence.generate_next] at htake hdrop
    have hat : w'.keysBuffer[i]? = some w.upsertKeySequenceGenerator.next := by
      have hget := congrArg (fun keys => keys[i]?) htake
      simpa [List.getElem?_take, hi] using hget
    have hlt : i < w'.keysBuffer.length := (List.getElem?_eq_some_iff.mp hat).1
    refine ⟨⟨hands.acknowledged, hands.sequence, hands.keyGenerator, hands.workload⟩, ?_, ?_⟩
    · have hcut := congrArg (List.take i) htake
      simpa [List.take_take, List.take_set_of_le] using hcut
    · rw [List.drop_eq_getElem_cons hlt, List.take_succ_cons, hdrop, words_succ]
      congr 1
      exact (List.getElem?_eq_some_iff.mp hat).2

theorem drawSizes_handsOut {valueLengths : ℕ → UInt32} {n i : ℕ} {total total' : UInt64}
    {w w' : Worker} (hack : w.acknowledgedKeyGenerator = none)
    (h : drawSizes valueLengths n i total w = .ok (total', w')) : w.HandsOut 0 w' := by
  induction n generalizing i total w with
  | zero =>
    cases Except.ok.inj h
    exact HandsOut.none hack
  | succ n ih =>
    simp only [drawSizes, bind_eq_ok] at h
    obtain ⟨length, _, buffer, _, h⟩ := h
    have hands := ih (by exact hack) h
    exact ⟨hands.acknowledged, hands.sequence, hands.keyGenerator, hands.workload⟩

theorem generateValues_handsOut {w w' : Worker} {count total : UInt64} {sizes : List UInt32}
    {draws : Draws} (hack : w.acknowledgedKeyGenerator = none)
    (h : w.generateValues count draws = .ok (total, sizes, w')) : w.HandsOut 0 w' := by
  unfold generateValues at h
  split at h
  next => simp at h
  next =>
    simp only [bind_eq_ok] at h
    obtain ⟨⟨length, w1⟩, hd, h⟩ := h
    cases Except.ok.inj h
    exact drawSizes_handsOut hack hd

theorem generateValue_handsOut {w w' : Worker} {size : UInt64} {draws : Draws}
    (hack : w.acknowledgedKeyGenerator = none)
    (h : w.generateValue draws = .ok (size, w')) : w.HandsOut 0 w' := by
  simp only [generateValue, bind_eq_ok] at h
  obtain ⟨⟨total, sizes, w1⟩, hv, h⟩ := h
  have hands := generateValues_handsOut hack hv
  cases sizes with
  | nil => simp at h
  | cons first rest =>
    cases Except.ok.inj h
    exact hands

theorem collectKeys_handsOut {batchLength rounds : ℕ} {uniqueKeys : List UInt64}
    {draws : List KeyDraw} {w w' : Worker} (hack : w.acknowledgedKeyGenerator = none)
    (h : collectKeys batchLength rounds uniqueKeys draws w = .ok w') : w.HandsOut 0 w' := by
  induction rounds generalizing uniqueKeys draws w with
  | zero => simp [collectKeys] at h
  | succ rounds ih =>
    unfold collectKeys at h
    split at h
    next =>
      cases Except.ok.inj h
      exact HandsOut.none hack
    next =>
      simp only [bind_eq_ok] at h
      obtain ⟨⟨key, rest⟩, _, h⟩ := h
      split at h
      next => exact ih hack h
      next =>
        simp only [bind_eq_ok] at h
        obtain ⟨buffer, _, h⟩ := h
        have hands := ih (by exact hack) h
        exact ⟨hands.acknowledged, hands.sequence, hands.keyGenerator, hands.workload⟩

theorem generateNewKeys_spec {lengthGenerator : LengthGenerator} {w w' : Worker}
    {keys : List UInt64} {draws : Draws} (hack : w.acknowledgedKeyGenerator = none)
    (h : w.generateNewKeys lengthGenerator draws = .ok (keys, w')) :
    w.HandsOut draws.length.toNat w' ∧
      keys = words w.upsertKeySequenceGenerator.next draws.length.toNat := by
  simp only [generateNewKeys, bind_eq_ok] at h
  obtain ⟨length, hl, w1, hk, h⟩ := h
  cases LengthGenerator.generate_eq hl
  cases Except.ok.inj h
  obtain ⟨hands, _, hkeys⟩ := handOutKeys_spec hack hk
  exact ⟨hands, hkeys⟩

/-- The keys an operation inserts are the next ones of the worker's sequence. -/
def Inserts (w : Worker) (n : ℕ) (calls : List AccessorCall) (w' : Worker) : Prop :=
  w.HandsOut n w' ∧ insertedKeys calls = words w.upsertKeySequenceGenerator.next n

theorem doUpsert_inserts {w w' : Worker} {draws : Draws} {calls : List AccessorCall}
    (hack : w.acknowledgedKeyGenerator = none) (h : w.doUpsert draws = .ok (calls, w')) :
    w.Inserts 1 calls w' := by
  simp only [doUpsert, bind_eq_ok] at h
  obtain ⟨⟨value, w1⟩, hv, w2, ha, h⟩ := h
  have hands := generateValue_handsOut (by exact hack) hv
  cases acknowledge_none hands.acknowledged ha
  cases Except.ok.inj h
  refine ⟨⟨hands.acknowledged, hands.sequence, hands.keyGenerator, hands.workload⟩, ?_⟩
  simp [insertedKeys, AccessorCall.insertedKeys]

theorem insertMany_inserts {lengthGenerator : LengthGenerator} {w w' : Worker} {draws : Draws}
    {call : List UInt64 → UInt64 → List UInt32 → AccessorCall} {calls : List AccessorCall}
    (hcall : ∀ keys values sizes, (call keys values sizes).insertedKeys = keys)
    (hack : w.acknowledgedKeyGenerator = none)
    (h : insertMany (w.generateNewKeys lengthGenerator draws) call draws = .ok (calls, w')) :
    w.Inserts draws.length.toNat calls w' := by
  simp only [insertMany, bind_eq_ok] at h
  obtain ⟨⟨keys, w1⟩, hk, ⟨values, sizes, w2⟩, hv, h⟩ := h
  obtain ⟨hands, hkeys⟩ := generateNewKeys_spec hack hk
  have hvalues := generateValues_handsOut hands.acknowledged hv
  cases Except.ok.inj h
  exact ⟨hands.trans hvalues, by simp [insertedKeys, hcall, hkeys]⟩

theorem perform_inserts {w w' : Worker} {kind : OperationKind} {draws : Draws}
    {calls : List AccessorCall} (hack : w.acknowledgedKeyGenerator = none)
    (h : w.perform draws kind = .ok (calls, w')) :
    w.Inserts (insertedCount (kind, draws)) calls w' := by
  cases kind with
  | upsert => exact doUpsert_inserts hack h
  | batchUpsert | bulkLoad => exact insertMany_inserts (fun _ _ _ => rfl) hack h
  | update =>
    simp only [perform, doUpdate, bind_eq_ok] at h
    obtain ⟨_, _, ⟨value, w1⟩, hv, h⟩ := h
    cases Except.ok.inj h
    exact ⟨generateValue_handsOut hack hv, rfl⟩
  | remove =>
    simp only [perform, doRemove, bind_eq_ok] at h
    obtain ⟨_, _, h⟩ := h
    cases Except.ok.inj h
    exact ⟨HandsOut.none hack, rfl⟩
  | read =>
    simp only [perform, doRead, bind_eq_ok] at h
    obtain ⟨_, _, h⟩ := h
    cases Except.ok.inj h
    exact ⟨HandsOut.none hack, rfl⟩
  | readModifyWrite =>
    simp only [perform, doReadModifyWrite, bind_eq_ok] at h
    obtain ⟨_, _, ⟨value, w1⟩, hv, h⟩ := h
    cases Except.ok.inj h
    exact ⟨generateValue_handsOut hack hv, rfl⟩
  | batchRead =>
    simp only [perform, doBatchRead, generateBatchReadKeys, bind_eq_ok] at h
    obtain ⟨_, ⟨_, _, w1, hc, hk⟩, h⟩ := h
    cases Except.ok.inj hk
    cases Except.ok.inj h
    exact ⟨collectKeys_handsOut hack hc, rfl⟩
  | rangeSelect =>
    simp only [perform, doRangeSelect, bind_eq_ok] at h
    obtain ⟨_, _, _, _, h⟩ := h
    cases Except.ok.inj h
    exact ⟨HandsOut.none hack, rfl⟩
  | scan =>
    cases Except.ok.inj h
    exact ⟨HandsOut.none hack, rfl⟩

/-- The first operation of a run, and the run of the others. -/
theorem run_cons {w w' : Worker} {operation : OperationKind × Draws}
    {operations : List (OperationKind × Draws)} {calls : List AccessorCall}
    (hack : w.acknowledgedKeyGenerator = none)
    (h : w.run (operation :: operations) = .ok (calls, w')) :
    ∃ first w1 rest, w.perform operation.2 operation.1 = .ok (first, w1) ∧
      w.Inserts (insertedCount operation) first w1 ∧ w1.run operations = .ok (rest, w') ∧
      calls = first ++ rest := by
  simp only [run, bind_eq_ok] at h
  obtain ⟨⟨first, w1⟩, hp, ⟨rest, w2⟩, hr, h⟩ := h
  cases Except.ok.inj h
  exact ⟨first, w1, rest, hp, perform_inserts hack hp, hr, rfl⟩

/-- A whole run inserts one block of consecutive keys. -/
theorem run_inserts {w w' : Worker} {operations : List (OperationKind × Draws)}
    {calls : List AccessorCall} (hack : w.acknowledgedKeyGenerator = none)
    (h : w.run operations = .ok (calls, w')) :
    w.Inserts (insertedTotal operations) calls w' := by
  induction operations generalizing w calls with
  | nil =>
    cases Except.ok.inj h
    exact ⟨HandsOut.none hack, rfl⟩
  | cons operation operations ih =>
    obtain ⟨first, w1, rest, -, ⟨hands, hkeys⟩, hr, rfl⟩ := run_cons hack h
    obtain ⟨hands', hkeys'⟩ := ih hands.acknowledged hr
    refine ⟨by simpa [insertedTotal] using hands.trans hands', ?_⟩
    rw [insertedKeys_append, hkeys, hkeys', hands.sequence, KeySequence.advance_next]
    simp [insertedTotal, words_add]

theorem make_spec {w : Workload} {worker : Worker} (h : Worker.make w = .ok worker) :
    worker.acknowledgedKeyGenerator = none ∧ worker.workload = w ∧
      createKeyGenerators w =
        .ok (worker.upsertKeySequenceGenerator, worker.keyGenerator) := by
  simp only [make, bind_eq_ok] at h
  obtain ⟨generators, hg, _, _, _, _, _, _, _, _, _, _, h⟩ := h
  cases Except.ok.inj h
  exact ⟨rfl, rfl, hg⟩

theorem make_insertOnly {w : Workload} {worker : Worker} (hw : w.InsertOnly)
    (h : Worker.make w = .ok worker) :
    worker.upsertKeySequenceGenerator = .counter { counter := w.startKey } := by
  have hg := (make_spec h).2.2
  simp only [createKeyGenerators, hw, if_true, Except.ok.injEq, Prod.mk.injEq] at hg
  exact hg.1.symm

theorem make_mixed {w : Workload} {worker : Worker} (hw : ¬w.InsertOnly)
    (h : Worker.make w = .ok worker) :
    worker.upsertKeySequenceGenerator = .acknowledged (.make w.dbRecordsCount) := by
  have hg := (make_spec h).2.2
  simp only [createKeyGenerators, hw, if_false, bind_eq_ok, Except.ok.injEq,
    Prod.mk.injEq] at hg
  obtain ⟨_, _, hs, _⟩ := hg
  exact hs.symm

end Worker

end Ucsb
