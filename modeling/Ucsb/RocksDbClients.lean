import Ucsb.PendingWrites
import Ucsb.RocksDbRefines

namespace Ucsb

open scoped WordBytes
open RequestRun PendingWrites

/-- The transactions of the threads on one database. -/
abbrev RocksClients := Store ℕ Bytes Bytes

/-- A call of a thread on its transaction, or its end, and the statuses that the engine returns
to the writes and commits of the call. -/
structure ClientCall where
  thread : ℕ
  operation : Option DataOperation
  statuses : List RocksStatus := []

/-- The engine accepts a write, or else the one after the commit. -/
def Accepted (statuses : List RocksStatus) : Prop :=
  statuses.headD .ok = .ok ∨ (statuses.drop 2).headD .ok = .ok

instance (statuses : List RocksStatus) : Decidable (Accepted statuses) :=
  inferInstanceAs (Decidable (_ ∨ _))

/-- The statuses that a write leaves to the next ones. -/
def afterWrite (statuses : List RocksStatus) : List RocksStatus :=
  if statuses.headD .ok = .ok then statuses.drop 1 else statuses.drop 3

/-- What a write that is retried does to the store. -/
def retriedActs (w : Write Bytes Bytes) (statuses : List RocksStatus) : List (Act Bytes Bytes) :=
  if statuses.headD .ok = .ok then [.write w]
  else
    (if (statuses.drop 1).headD .ok = .ok then [.commit] else []) ++
      if (statuses.drop 2).headD .ok = .ok then [.write w] else []

def batchActs : List (UInt64 × Bytes) → List RocksStatus → List (Act Bytes Bytes)
  | [], _ => []
  | (key, value) :: entries, statuses =>
    retriedActs (bigEndianKey key, some value) statuses ++ batchActs entries (afterWrite statuses)

/-- What an operation does to the store. -/
def operationActs (view : ByteMap) (statuses : List RocksStatus) :
    DataOperation → List (Act Bytes Bytes)
  | .point (.upsert key value) => retriedActs (bigEndianKey key, some value) statuses
  | .point (.update key value) =>
    if view.get (bigEndianKey key) = none then []
    else retriedActs (bigEndianKey key, some value) statuses
  | .point (.remove key) => retriedActs (bigEndianKey key, none) statuses
  | .point (.read _) => []
  | .batchUpsert batch | .bulkLoad batch => batchActs batch.slices statuses
  | .rangeSelect _ _ | .scan _ _ => []

namespace RocksClients

/-- The transaction of a thread. -/
def transaction (s : RocksClients) (i : ℕ) (statuses : List RocksStatus) : RocksDbTransaction where
  db := s.committed
  view := s.view i
  statuses := statuses

/-- A call on the transaction of its thread; one that ends without a commit is rolled back. -/
def serve (s : RocksClients) (call : ClientCall) : Option (Reply Bytes) × RocksClients :=
  let t := transaction s call.thread call.statuses
  match call.operation with
  | some operation =>
    (some (t.step operation).1,
      Act.performAll call.thread s (operationActs t.view t.statuses operation))
  | none => (none, if t.commit.1 = .ok then s.commit call.thread else s.drop call.thread)

variable {s : RocksClients} {i : ℕ} {statuses : List RocksStatus} {w : Write Bytes Bytes}

/-- `Put` or `Delete`. -/
def engineWrite (w : Write Bytes Bytes) :
    RocksDbTransaction → RocksStatus × RocksDbTransaction :=
  match w.2 with
  | some value => RocksDbTransaction.put w.1 value
  | none => RocksDbTransaction.delete w.1

theorem engineWrite_eq (t : RocksDbTransaction) : engineWrite w t =
    (t.statuses.headD .ok,
      { t with
        view := if t.statuses.headD .ok = .ok then apply t.view w else t.view
        statuses := t.statuses.tail }) := by
  obtain ⟨key, value⟩ := w
  cases value with
  | some value =>
    unfold engineWrite RocksDbTransaction.put RocksDbTransaction.nextStatus
    dsimp only
    split
    next hok => rw [hok]; rfl
    next => rfl
  | none =>
    unfold engineWrite RocksDbTransaction.delete RocksDbTransaction.nextStatus
    dsimp only
    split
    next hok => rw [hok]; rfl
    next => rfl

theorem engineWrite_transaction : engineWrite w (transaction s i statuses) =
    (statuses.headD .ok,
      transaction (if statuses.headD .ok = .ok then s.write i w else s) i statuses.tail) := by
  rw [engineWrite_eq]
  unfold transaction
  dsimp only
  split
  next => rw [Store.view_write]; rfl
  next => rfl

theorem commit_transaction : (transaction s i statuses).commit =
    (statuses.headD .ok,
      transaction (if statuses.headD .ok = .ok then s.commit i else s) i statuses.tail) := by
  unfold RocksDbTransaction.commit RocksDbTransaction.nextStatus transaction
  dsimp only
  split
  next hok => rw [hok, Store.view_commit]; rfl
  next => rfl

/-- The adapter's retried write does to its transaction what its acts do to the store. -/
theorem retried_transaction (s : RocksClients) (i : ℕ) (statuses : List RocksStatus)
    (w : Write Bytes Bytes) :
    ((transaction s i statuses).retried (engineWrite w)).2 =
        transaction (Act.performAll i s (retriedActs w statuses)) i (afterWrite statuses) ∧
      (((transaction s i statuses).retried (engineWrite w)).1 = .ok ↔ Accepted statuses) := by
  unfold RocksDbTransaction.retried retriedActs afterWrite Accepted
  rw [engineWrite_transaction]
  dsimp only
  split
  next hok =>
    refine ⟨?_, iff_of_true hok (.inl hok)⟩
    rw [List.drop_one]
    rfl
  next hfailed =>
    rw [commit_transaction]
    dsimp only
    rw [engineWrite_transaction]
    have htail : statuses.tail = statuses.drop 1 := List.drop_one.symm
    have htwice : statuses.tail.tail = statuses.drop 2 := by rw [htail, List.tail_drop]
    have hthrice : statuses.tail.tail.tail = statuses.drop 3 := by rw [htwice, List.tail_drop]
    dsimp only
    rw [hthrice, htwice, htail, or_iff_right hfailed]
    refine ⟨?_, Iff.rfl⟩
    by_cases hcommit : (statuses.drop 1).headD .ok = .ok
    · by_cases hagain : (statuses.drop 2).headD .ok = .ok
      · rw [if_pos hcommit, if_pos hcommit, if_pos hagain, if_pos hagain]
        rfl
      · rw [if_pos hcommit, if_pos hcommit, if_neg hagain, if_neg hagain]
        rfl
    · by_cases hagain : (statuses.drop 2).headD .ok = .ok
      · rw [if_neg hcommit, if_neg hcommit, if_pos hagain, if_pos hagain]
        rfl
      · rw [if_neg hcommit, if_neg hcommit, if_neg hagain, if_neg hagain]
        rfl

theorem performAll_append {acts later : List (Act Bytes Bytes)} :
    Act.performAll i s (acts ++ later) = Act.performAll i (Act.performAll i s acts) later :=
  List.foldl_append

/-- The loop of a batch does to its transaction what its acts do to the store. -/
theorem upsertLoop_transaction {entries : List (UInt64 × Bytes)} :
    ∃ left, RocksDbTransaction.upsertLoop entries (transaction s i statuses) =
      transaction (Act.performAll i s (batchActs entries statuses)) i left := by
  induction entries generalizing s statuses with
  | nil => exact ⟨statuses, rfl⟩
  | cons e entries ih =>
    obtain ⟨key, value⟩ := e
    have hwrite := (retried_transaction s i statuses (bigEndianKey key, some value)).1
    change ((transaction s i statuses).retried
      (RocksDbTransaction.put (bigEndianKey key) value)).2 = _ at hwrite
    change ∃ left, RocksDbTransaction.upsertLoop entries ((transaction s i statuses).retried
      (RocksDbTransaction.put (toSlice key).1 value)).2 = _
    rw [toSlice_fst, hwrite, batchActs, performAll_append]
    exact ih

/-- What an operation of the adapter does to its transaction is what its acts do. -/
theorem step_transaction (operation : DataOperation) :
    ∃ left, ((transaction s i statuses).step operation).2 =
      transaction (Act.performAll i s (operationActs (s.view i) statuses operation)) i left := by
  have hput : ∀ key value, ((transaction s i statuses).upsert key value).2 =
      transaction (Act.performAll i s (retriedActs (bigEndianKey key, some value) statuses)) i
        (afterWrite statuses) := by
    intro key value
    have hwrite := (retried_transaction s i statuses (bigEndianKey key, some value)).1
    change ((transaction s i statuses).retried
      (RocksDbTransaction.put (bigEndianKey key) value)).2 = _ at hwrite
    change ((transaction s i statuses).retried
      (RocksDbTransaction.put (toSlice key).1 value)).2 = _
    rw [toSlice_fst, hwrite]
  cases operation with
  | point operation =>
    cases operation with
    | upsert key value => exact ⟨_, hput key value⟩
    | update key value =>
      change ∃ left, ((transaction s i statuses).update key value).2 = _
      rw [RocksDbTransaction.update, operationActs, toSlice_fst]
      have hview : (transaction s i statuses).view = s.view i := rfl
      rw [hview, rocksGet]
      cases (s.view i).get (bigEndianKey key) with
      | none => exact ⟨statuses, rfl⟩
      | some old => exact ⟨_, hput key value⟩
    | remove key =>
      have hwrite := (retried_transaction s i statuses (bigEndianKey key, none)).1
      change ((transaction s i statuses).retried
        (RocksDbTransaction.delete (bigEndianKey key))).2 = _ at hwrite
      refine ⟨afterWrite statuses, ?_⟩
      change ((transaction s i statuses).retried
        (RocksDbTransaction.delete (toSlice key).1)).2 = _
      rw [toSlice_fst, hwrite]
      rfl
    | read key => exact ⟨statuses, rfl⟩
  | batchUpsert batch | bulkLoad batch => exact upsertLoop_transaction
  | rangeSelect key length | scan key length => exact ⟨statuses, rfl⟩

/-- The destructor leaves the database with what is committed. -/
theorem destroy_transaction : (transaction s i statuses).destroy.db =
    (serve s { thread := i, operation := none, statuses := statuses }).2.committed := by
  rw [RocksDbTransaction.destroy, serve]
  dsimp only
  rw [commit_transaction]
  dsimp only
  split <;> rfl

end RocksClients

/-- The entries of a batch that the engine accepts. -/
def acceptedEntries :
    List (UInt64 × Bytes) → List RocksStatus → List (Write UInt64 Bytes)
  | [], _ => []
  | (key, value) :: entries, statuses =>
    (if Accepted statuses then [(key, some value)] else []) ++
      acceptedEntries entries (afterWrite statuses)

def acceptedWrites (m : KeyMap) (statuses : List RocksStatus) :
    DataOperation → List (Write UInt64 Bytes)
  | .point (.upsert key value) => if Accepted statuses then [(key, some value)] else []
  | .point (.update key value) =>
    if m.get key = none then [] else if Accepted statuses then [(key, some value)] else []
  | .point (.remove key) => if Accepted statuses then [(key, none)] else []
  | .point (.read _) => []
  | .batchUpsert batch | .bulkLoad batch => acceptedEntries batch.entries statuses
  | .rangeSelect _ _ | .scan _ _ => []

def acceptedReply (m : KeyMap) (statuses : List RocksStatus) : DataOperation → Reply UInt64
  | .point (.upsert _ _) | .point (.remove _) =>
    .ofStatus (if Accepted statuses then .ok else .error)
  | .point (.update key _) =>
    .ofStatus (if m.get key = none then .notFound else if Accepted statuses then .ok else .error)
  | operation => (mapStep .ok m operation).1

/-- A single map, on which the accepted writes are carried out. -/
def acceptedStep (m : KeyMap) (call : ClientCall) : Option (Reply UInt64) × KeyMap :=
  match call.operation with
  | some operation =>
    (some (acceptedReply m call.statuses operation),
      applyAll m (acceptedWrites m call.statuses operation))
  | none => (none, m)

variable {m : KeyMap} {statuses : List RocksStatus}

theorem written_retriedActs (w : Write Bytes Bytes) :
    (retriedActs w statuses).filterMap Act.written = if Accepted statuses then [w] else [] := by
  by_cases hok : statuses.headD .ok = .ok
  · have haccepted : Accepted statuses := .inl hok
    rw [retriedActs, if_pos hok, if_pos haccepted]
    rfl
  · have hcommit : ∀ status : RocksStatus, (if status = .ok then
        [(Act.commit : Act Bytes Bytes)] else []).filterMap Act.written = [] := by
      intro status
      split <;> rfl
    rw [retriedActs, if_neg hok, List.filterMap_append, hcommit, List.nil_append]
    by_cases hagain : (statuses.drop 2).headD .ok = .ok
    · have haccepted : Accepted statuses := .inr hagain
      rw [if_pos hagain, if_pos haccepted]
      rfl
    · have hrefused : ¬Accepted statuses := not_or.mpr ⟨hok, hagain⟩
      rw [if_neg hagain, if_neg hrefused]
      rfl

theorem written_batchActs (entries : List (UInt64 × Bytes)) :
    (batchActs entries statuses).filterMap Act.written =
      (acceptedEntries entries statuses).map (Prod.map bigEndianKey id) := by
  induction entries generalizing statuses with
  | nil => rfl
  | cons e entries ih =>
    obtain ⟨key, value⟩ := e
    rw [batchActs, acceptedEntries, List.filterMap_append, List.map_append,
      written_retriedActs, ih]
    split <;> rfl

/-- The writes of an operation are the accepted ones, when it sees its key as the map does. -/
theorem written_operationActs {view : ByteMap} {operation : DataOperation}
    (hview : ∀ key value, operation = .point (.update key value) →
      view.get (bigEndianKey key) = m.get key) :
    (operationActs view statuses operation).filterMap Act.written =
      (acceptedWrites m statuses operation).map (Prod.map bigEndianKey id) := by
  cases operation with
  | point operation =>
    cases operation with
    | upsert key value | remove key =>
      rw [operationActs, acceptedWrites, written_retriedActs]
      split <;> rfl
    | update key value =>
      rw [operationActs, acceptedWrites, hview key value rfl]
      split
      next => rfl
      next =>
        rw [written_retriedActs]
        split <;> rfl
    | read key => rfl
  | batchUpsert batch | bulkLoad batch =>
    rw [operationActs, acceptedWrites, written_batchActs, Batch.slices_eq]
  | rangeSelect key length | scan key length => rfl

namespace RocksClients

variable {s : RocksClients} {i : ℕ} {call : ClientCall}

/-- The engine accepts no write of a key that another transaction holds. -/
def Locked (s : RocksClients) (call : ClientCall) : Prop :=
  ∀ operation, call.operation = some operation →
    ∀ w ∈ (operationActs (s.view call.thread) call.statuses operation).filterMap Act.written,
      ¬s.Held call.thread w.1

/-- No operation looks at a key that another transaction holds. -/
def Unheld (s : RocksClients) (call : ClientCall) : Prop :=
  match call.operation with
  | some (.point (.read key)) | some (.point (.update key _)) =>
    ¬s.Held call.thread (bigEndianKey key)
  | some (.rangeSelect key _) | some (.scan key _) =>
    ∀ k, bigEndianKey key ≤ k → ¬s.Held call.thread k
  | _ => True

/-- A transaction that ends with a commit that fails has nothing to lose. -/
def Kept (s : RocksClients) (call : ClientCall) : Prop :=
  call.operation = none →
    call.statuses.headD .ok = .ok ∨ s.view call.thread = s.committed

theorem write_status (w : Write Bytes Bytes) :
    ((transaction s i statuses).retried (engineWrite w)).1.operationStatus =
      if Accepted statuses then .ok else .error := by
  have hok := (retried_transaction s i statuses w).2
  unfold RocksStatus.operationStatus
  split
  next h => rw [if_pos (hok.mp h)]
  next h => rw [if_neg fun haccepted => h (hok.mpr haccepted)]

theorem upsert_reply (key : UInt64) (value : Bytes) :
    ((transaction s i statuses).upsert key value).1 =
      .ofStatus (if Accepted statuses then .ok else .error) := by
  rw [← write_status (s := s) (i := i) (bigEndianKey key, some value), ← toSlice_fst]
  rfl

theorem remove_reply (key : UInt64) : ((transaction s i statuses).remove key).1 =
    .ofStatus (if Accepted statuses then .ok else .error) := by
  rw [← write_status (s := s) (i := i) (bigEndianKey key, none), ← toSlice_fst]
  rfl

/-- An operation that looks at no held key is answered as the map says. -/
theorem step_reply (h : Serial s (m.rekey bigEndianKey)) {operation : DataOperation}
    (hunheld : Unheld s ⟨i, some operation, statuses⟩) :
    ((transaction s i statuses).step operation).1 =
      (acceptedReply m statuses operation).encode bigEndianKey := by
  have hget : ∀ key, ¬s.Held i (bigEndianKey key) →
      (s.view i).get (bigEndianKey key) = m.get key := by
    intro key hkey
    rw [h.get_view hkey, SortedMap.get_rekey bigEndianKey_injective]
  have hseek : ∀ key, (∀ k, bigEndianKey key ≤ k → ¬s.Held i k) →
      (s.view i).seek (bigEndianKey key) = (m.rekey bigEndianKey).seek (bigEndianKey key) :=
    fun key hkeys => SortedMap.seek_congr fun k hle => h.get_view (hkeys k hle)
  cases operation with
  | point operation =>
    cases operation with
    | upsert key value => exact upsert_reply key value
    | remove key => exact remove_reply key
    | update key value =>
      change ((transaction s i statuses).update key value).1 = _
      have hview : (transaction s i statuses).view = s.view i := rfl
      rw [RocksDbTransaction.update, toSlice_fst, hview, rocksGet, hget key hunheld,
        acceptedReply]
      cases m.get key with
      | none => rfl
      | some old => exact upsert_reply key value
    | read key =>
      change rocksRead (s.view i) key = (pointStep .ok m (.read key)).1.encode bigEndianKey
      rw [← rocksRead_rekey .ok, rocksRead, rocksRead, toSlice_fst, rocksGet, rocksGet,
        hget key hunheld, SortedMap.get_rekey bigEndianKey_injective]
  | batchUpsert batch | bulkLoad batch => rfl
  | rangeSelect key length =>
    change rocksRangeSelect (s.view i) key length =
      (mapStep .ok m (.rangeSelect key length)).1.encode bigEndianKey
    rw [← rocksRangeSelect_rekey .ok, rocksRangeSelect, rocksRangeSelect, toSlice_fst,
      hseek key hunheld]
  | scan key length =>
    change rocksScan (s.view i) key length =
      (mapStep .ok m (.scan key length)).1.encode bigEndianKey
    rw [← rocksScan_rekey .ok, rocksScan, rocksScan, toSlice_fst, hseek key hunheld]

/-- A call in a serial state that looks at no held key is answered as the map says, and leaves
a serial state exactly when it loses no writes. -/
theorem serve_iff (h : Serial s (m.rekey bigEndianKey)) (hlocked : Locked s call)
    (hunheld : Unheld s call) :
    ((serve s call).1 = (acceptedStep m call).1.map (Reply.encode bigEndianKey) ∧
      Serial (serve s call).2 ((acceptedStep m call).2.rekey bigEndianKey)) ↔ Kept s call := by
  obtain ⟨i, operation, statuses⟩ := call
  cases operation with
  | some operation =>
    refine iff_of_true ⟨congrArg some (step_reply h hunheld), ?_⟩ fun heq => by cases heq
    have hwritten : (operationActs (s.view i) statuses operation).filterMap Act.written =
        (acceptedWrites m statuses operation).map (Prod.map bigEndianKey id) := by
      apply written_operationActs
      rintro key value rfl
      rw [h.get_view hunheld, SortedMap.get_rekey bigEndianKey_injective]
    have hserial := h.performAll (hlocked operation rfl)
    rw [hwritten, applyAll_rekey bigEndianKey_injective] at hserial
    exact hserial
  | none =>
    have hstatus : (transaction s i statuses).commit.1 = statuses.headD .ok := by
      rw [commit_transaction]
    refine (and_iff_right rfl).trans ?_
    change Serial (if (transaction s i statuses).commit.1 = .ok then s.commit i else s.drop i)
      (m.rekey bigEndianKey) ↔ _
    rw [hstatus]
    split
    next hok => exact iff_of_true (h.commit i) fun _ => .inl hok
    next hfailed =>
      rw [h.drop_iff]
      exact ⟨fun hview _ => .inr hview, fun hkept => (hkept rfl).resolve_left hfailed⟩

/-- No transaction has writes that are not committed. -/
def Ended (s : RocksClients) : Prop := ∀ i, s.pending i = []

end RocksClients

/-- A map on which all writes are carried out. -/
def plainStep (m : KeyMap) (call : ClientCall) : Option (Reply UInt64) × KeyMap :=
  match call.operation with
  | some operation => (some (mapStep .ok m operation).1, (mapStep .ok m operation).2)
  | none => (none, m)

theorem acceptedEntries_nil (entries : List (UInt64 × Bytes)) :
    applyAll m (acceptedEntries entries []) = m.putAll entries := by
  induction entries generalizing m with
  | nil => rfl
  | cons e entries ih => exact ih

/-- An engine that fails no call accepts all writes. -/
theorem acceptedStep_plain {call : ClientCall} (h : call.statuses = []) :
    acceptedStep m call = plainStep m call := by
  obtain ⟨i, operation, statuses⟩ := call
  obtain rfl : statuses = [] := h
  cases operation with
  | none => rfl
  | some operation =>
    cases operation with
    | point operation =>
      change _ = (some (pointStep .ok m operation).1, (pointStep .ok m operation).2)
      cases operation with
      | upsert key value => rfl
      | update key value =>
        rw [pointStep, acceptedStep]
        simp only [acceptedReply, acceptedWrites]
        cases m.get key <;> rfl
      | remove key =>
        rw [pointStep_remove_ok]
        rfl
      | read key =>
        have hsame : (pointStep .ok m (.read key)).2 = m := by
          rw [pointStep]
          cases m.get key <;> rfl
        rw [hsame]
        rfl
    | batchUpsert batch | bulkLoad batch =>
      exact Prod.ext rfl (acceptedEntries_nil batch.entries)
    | rangeSelect key length | scan key length => rfl

/-- Threads on transactions of one RocksDB, in any order of their calls and whatever statuses
the engine returns, as long as it accepts no write of a key that another transaction holds and no
operation looks at one: they are answered and carried out as on one map of the accepted writes if
and only if no failing commit of a destructor loses any; then, once all transactions have ended,
the database is that map, and it is the map of all writes if no call fails. -/
theorem rocksdb_transactions_serial_iff (m : KeyMap) (calls : List ClientCall) :
    let start : RocksClients := Store.start (m.rekey bigEndianKey)
    let agrees := Agree RocksClients.serve acceptedStep
      (fun reply expected => reply = expected.map (Reply.encode bigEndianKey))
      (fun s m => Serial s (m.rekey bigEndianKey)) start m calls
    Throughout RocksClients.serve
        (fun s call => RocksClients.Locked s call ∧ RocksClients.Unheld s call) start calls →
      (agrees ↔ Throughout RocksClients.serve RocksClients.Kept start calls) ∧
        (agrees → RocksClients.Ended (run RocksClients.serve start calls).2 →
          (run RocksClients.serve start calls).2.committed =
            (run acceptedStep m calls).2.rekey bigEndianKey) ∧
        ((∀ call ∈ calls, call.statuses = []) →
          agrees ∧ run acceptedStep m calls = run plainStep m calls) := by
  intro start agrees hcalls
  have hiff : agrees ↔ Throughout RocksClients.serve RocksClients.Kept start calls :=
    agree_iff_within (fun _ _ _ h hcall => RocksClients.serve_iff h hcall.1 hcall.2)
      (Serial.start _) hcalls
  refine ⟨hiff, fun hagrees hended => ?_, fun hstatuses => ⟨hiff.mpr ?_, ?_⟩⟩
  · exact (hagrees.final (Serial.start _)).committed_eq hended
  · have hkept : ∀ (s : RocksClients) (call : ClientCall), True → call.statuses = [] →
        RocksClients.Kept s call ∧ True := by
      intro s call _ hstatuses
      refine ⟨fun _ => .inl ?_, trivial⟩
      rw [hstatuses]
      rfl
    exact throughout_of_step hkept trivial (throughout_of_mem hstatuses)
  · have hstep : ∀ (m : KeyMap) (call : ClientCall), True → call.statuses = [] →
        acceptedStep m call = plainStep m call ∧ True :=
      fun _ _ _ h => ⟨acceptedStep_plain h, trivial⟩
    exact run_eq_of_step hstep trivial hstatuses

/-- The second thread's write is retried after a commit, and it reads what the first one
committed meanwhile. -/
theorem rocksdb_transactions_serial_two :
    let calls : List ClientCall :=
      [⟨0, some (.point (.upsert 1 [7])), []⟩,
        ⟨1, some (.point (.upsert 2 [8])), [.tryAgain, .ok, .ok]⟩, ⟨0, none, []⟩,
        ⟨1, some (.point (.read 1)), []⟩, ⟨1, none, []⟩]
    (run RocksClients.serve (Store.start ((∅ : KeyMap).rekey bigEndianKey)) calls).2.committed =
      (run acceptedStep ∅ calls).2.rekey bigEndianKey := by
  intro calls
  let first : RocksClients :=
    (Store.start ((∅ : KeyMap).rekey bigEndianKey)).write 0 (bigEndianKey 1, some [7])
  let second : RocksClients := (first.commit 1).write 1 (bigEndianKey 2, some [8])
  have hstart : ∀ j k,
      ¬(Store.start ((∅ : KeyMap).rekey bigEndianKey) : RocksClients).Pending j k := by
    simp [Store.Pending, Store.start]
  have hlocked : ∀ w ∈ [(bigEndianKey 2, some [(8 : UInt8)])], ¬first.Held 1 w.1 := by
    rintro w hw ⟨j, -, hpending⟩
    obtain rfl := List.mem_singleton.mp hw
    rcases Store.pending_write.mp hpending with hbefore | ⟨-, heq⟩
    · exact hstart j _ hbefore
    · exact absurd (bigEndianKey_injective heq) (by decide)
  have hunheld : ¬(second.commit 0).Held 1 (bigEndianKey 1) := by
    rintro ⟨j, hj, hpending⟩
    obtain ⟨hzero, hsecond⟩ := Store.pending_commit.mp hpending
    have hfirst := (Store.pending_commit.mp
      ((Store.pending_write.mp hsecond).resolve_right fun hboth => hj hboth.1)).2
    exact hstart j _ ((Store.pending_write.mp hfirst).resolve_right fun hboth => hzero hboth.1)
  have hserial := rocksdb_transactions_serial_iff ∅ calls (by
    refine ⟨⟨?_, trivial⟩, ⟨?_, trivial⟩, ⟨?_, trivial⟩, ⟨?_, hunheld⟩, ⟨?_, trivial⟩, trivial⟩
    · rintro operation - w - ⟨j, -, hpending⟩
      exact hstart j _ hpending
    · intro operation heq
      cases heq
      exact hlocked
    · intro operation heq
      cases heq
    · intro operation heq w hw
      cases heq
      cases hw
    · intro operation heq
      cases heq)
  refine hserial.2.1 (hserial.1.mpr ?_) ?_
  · refine ⟨?_, ?_, fun _ => .inl rfl, ?_, fun _ => .inl rfl, trivial⟩
    all_goals intro heq; cases heq
  · intro i
    rcases i with _ | _ | i
    · rfl
    · rfl
    · rfl

end Ucsb
