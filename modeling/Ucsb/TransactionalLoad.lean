import Ucsb.ParallelLoad
import Ucsb.RocksDbClients

namespace Ucsb

open scoped WordBytes
open RequestRun PendingWrites

/-- A call of a load on the transaction of its thread, or the end of the transaction. -/
structure LoadEvent where
  thread : ℕ
  operation : Option LoadOperation

namespace LoadEvent

def entries (event : LoadEvent) : List (UInt64 × Bytes) :=
  event.operation.elim [] LoadOperation.entries

def done (event : LoadEvent) : Option OperationResult := event.operation.map LoadOperation.done

end LoadEvent

/-- The transactions of an adapter on one store, each of which logs the entries it is given. -/
structure ClientEngine (K : Type) [LinearOrder K] where
  code : UInt64 → K
  code_injective : Function.Injective code
  serve : Store ℕ K Bytes → LoadEvent → Option OperationResult × Store ℕ K Bytes
  Accepts : LoadOperation → Prop
  serve_end : ∀ s i, serve s ⟨i, none⟩ = (none, s.commit i)
  serve_load : ∀ s i operation, Accepts operation → serve s ⟨i, some operation⟩ =
    (some operation.done, Act.performAll i s
      (operation.entries.map fun e => .write (code e.1, some e.2)))

namespace ClientEngine

variable {K : Type} [LinearOrder K] {engine : ClientEngine K} {s : Store ℕ K Bytes} {m : KeyMap}
  {events : List LoadEvent} {i : ℕ}

/-- All writes together are the map, and what is pending is there. -/
structure Holds (engine : ClientEngine K) (s : Store ℕ K Bytes) (m : KeyMap) : Prop where
  serial : Serial s (m.rekey engine.code)
  present : ∀ {i k}, s.Pending i k → (m.rekey engine.code).get k ≠ none

theorem Holds.commit (h : engine.Holds s m) (i : ℕ) : engine.Holds (s.commit i) m where
  serial := h.serial.commit i
  present := fun hpending => h.present (Store.pending_commit.mp hpending).2

/-- No transaction holds a key that is not in the map. -/
theorem Holds.free (h : engine.Holds s m) {key : UInt64} (hnew : m.get key = none) :
    ¬s.Held i (engine.code key) := by
  rintro ⟨j, -, hpending⟩
  apply h.present hpending
  rw [SortedMap.get_rekey engine.code_injective]
  exact hnew

/-- New entries are logged beside the pending ones. -/
theorem Holds.load (h : engine.Holds s m) {entries : List (UInt64 × Bytes)}
    (hnodup : (entries.map Prod.fst).Nodup) (hnew : ∀ e ∈ entries, m.get e.1 = none) :
    engine.Holds (Act.performAll i s
      (entries.map fun e => .write (engine.code e.1, some e.2))) (m.putAll entries) := by
  have hacts : (entries.map fun e => Act.write (engine.code e.1, some e.2)) =
      ((entries.map (Prod.map id some)).map (Prod.map engine.code id)).map Act.write := by
    rw [List.map_map, List.map_map]
    rfl
  have hkeys : ((entries.map (Prod.map id some)).map (Prod.map engine.code id)).map Prod.fst =
      (entries.map (Prod.map engine.code id)).map Prod.fst := by
    rw [List.map_map, List.map_map, List.map_map]
    rfl
  have hcodes : ((entries.map (Prod.map engine.code id)).map Prod.fst).Nodup := by
    have hinjective := hnodup.map engine.code_injective
    rw [List.map_map] at hinjective ⊢
    exact hinjective
  rw [hacts]
  refine ⟨?_, ?_⟩
  · have hfree : ∀ w ∈ (entries.map (Prod.map id some)).map (Prod.map engine.code id),
        ¬s.Held i w.1 := by
      intro w hw
      obtain ⟨e', he', rfl⟩ := List.mem_map.mp hw
      obtain ⟨e, he, rfl⟩ := List.mem_map.mp he'
      exact h.free (hnew e he)
    have hserial := h.serial.performAll (i := i) (by rwa [Act.written_writes])
    rwa [Act.written_writes, applyAll_rekey engine.code_injective, applyAll_puts] at hserial
  · intro j k hpending
    rw [SortedMap.rekey_putAll engine.code_injective]
    by_cases hmem : k ∈ (entries.map (Prod.map engine.code id)).map Prod.fst
    · obtain ⟨e, he, rfl⟩ := List.mem_map.mp hmem
      rw [SortedMap.get_putAll_of_mem hcodes he]
      simp
    · have hold := Act.pending_writes hpending
      rw [hkeys] at hold
      rw [SortedMap.get_putAll_of_not_mem]
      · exact h.present (hold.resolve_right hmem)
      · rintro e he rfl
        exact hmem (List.mem_map_of_mem he)

/-- No call writes a key that another transaction holds. -/
def Free (engine : ClientEngine K) (s : Store ℕ K Bytes) (event : LoadEvent) : Prop :=
  ∀ e ∈ event.entries, ¬s.Held event.thread (engine.code e.1)

/-- Events whose keys are all new write no held key, are all done, and all their entries are in
the map. -/
theorem run_spec (h : engine.Holds s m)
    (haccepts : ∀ event ∈ events, ∀ operation, event.operation = some operation →
      engine.Accepts operation)
    (hnodup : ((events.flatMap LoadEvent.entries).map Prod.fst).Nodup)
    (hnew : ∀ e ∈ events.flatMap LoadEvent.entries, m.get e.1 = none) :
    Throughout engine.serve engine.Free s events ∧
      (run engine.serve s events).1 = events.map LoadEvent.done ∧
      engine.Holds (run engine.serve s events).2
        (m.putAll (events.flatMap LoadEvent.entries)) := by
  induction events generalizing s m with
  | nil => exact ⟨trivial, rfl, h⟩
  | cons event events ih =>
    obtain ⟨i, operation⟩ := event
    rw [List.forall_mem_cons] at haccepts
    rw [List.flatMap_cons, List.map_append, List.nodup_append] at hnodup
    rw [List.flatMap_cons, List.forall_mem_append] at hnew
    have hfree : engine.Free s ⟨i, operation⟩ := fun e he => h.free (hnew.1 e he)
    rw [Throughout, run, List.map_cons, List.flatMap_cons, SortedMap.putAll_append]
    cases operation with
    | none =>
      obtain ⟨hthroughout, hreplies, hfinal⟩ := ih (h.commit i) haccepts.2 hnodup.2.1 hnew.2
      rw [engine.serve_end]
      exact ⟨⟨hfree, hthroughout⟩, congrArg (none :: ·) hreplies, hfinal⟩
    | some operation =>
      have hlater : ∀ e ∈ events.flatMap LoadEvent.entries,
          (m.putAll operation.entries).get e.1 = none := by
        intro e he
        rw [SortedMap.get_putAll_of_not_mem, hnew.2 e he]
        intro e' he' heq
        exact hnodup.2.2 e'.1 (List.mem_map_of_mem he') e.1 (List.mem_map_of_mem he) heq
      obtain ⟨hthroughout, hreplies, hfinal⟩ :=
        ih (h.load (i := i) hnodup.1 hnew.1) haccepts.2 hnodup.2.1 hlater
      rw [engine.serve_load s i operation (haccepts.1 operation rfl)]
      exact ⟨⟨hfree, hthroughout⟩, congrArg (some operation.done :: ·) hreplies, hfinal⟩

theorem serve_pending_of_ne {event : LoadEvent} (hne : event.thread ≠ i)
    (haccepts : ∀ operation, event.operation = some operation → engine.Accepts operation) :
    (engine.serve s event).2.pending i = s.pending i := by
  obtain ⟨j, operation⟩ := event
  cases operation with
  | none =>
    rw [engine.serve_end]
    exact Function.update_of_ne (Ne.symm hne) ..
  | some operation =>
    rw [engine.serve_load s j operation (haccepts operation rfl)]
    exact Act.performAll_pending_of_ne (Ne.symm hne)

/-- A thread that makes no call leaves what it has pending as it is. -/
theorem run_untouched (haccepts : ∀ event ∈ events, ∀ operation,
      event.operation = some operation → engine.Accepts operation)
    (hpart : ∀ event ∈ events, event.thread ≠ i) :
    (run engine.serve s events).2.pending i = s.pending i := by
  induction events generalizing s with
  | nil => rfl
  | cons event events ih =>
    rw [List.forall_mem_cons] at haccepts hpart
    rw [run, ih haccepts.2 hpart.2, serve_pending_of_ne hpart.1 haccepts.1]

/-- A thread whose last event is its end has nothing pending. -/
theorem run_ended (haccepts : ∀ event ∈ events, ∀ operation,
      event.operation = some operation → engine.Accepts operation)
    {script : List (Option LoadOperation)}
    (hpart : (Interleaving.part LoadEvent.thread events i).map LoadEvent.operation =
      script ++ [none]) : (run engine.serve s events).2.pending i = [] := by
  induction events generalizing s script with
  | nil =>
    have hlength := congrArg List.length hpart
    simp [Interleaving.part] at hlength
  | cons event events ih =>
    rw [List.forall_mem_cons] at haccepts
    rw [Interleaving.part, List.filter_cons] at hpart
    split at hpart
    next hthread =>
      obtain rfl : event.thread = i := by simpa using hthread
      rw [List.map_cons] at hpart
      cases script with
      | nil =>
        have hnone : event.operation = none := (List.cons.inj hpart).1
        have hrest := (List.cons.inj hpart).2
        rw [List.map_eq_nil_iff, List.filter_eq_nil_iff] at hrest
        have huntouched : ∀ other ∈ events, other.thread ≠ event.thread := by
          intro other hother heq
          exact hrest other hother (decide_eq_true heq)
        obtain ⟨j, operation⟩ := event
        obtain rfl : operation = none := hnone
        rw [run, run_untouched haccepts.2 huntouched, engine.serve_end]
        exact Function.update_self ..
      | cons operation script =>
        exact ih haccepts.2 (List.cons.inj hpart).2
    next => exact ih haccepts.2 hpart

end ClientEngine

/-- The events of a load, each thread those of its script and then the end of its transaction. -/
structure EndingInterleaves (scripts : List (List LoadOperation)) (events : List LoadEvent) :
    Prop where
  threads : ∀ event ∈ events, event.thread < scripts.length
  own : ∀ (i : ℕ) (hi : i < scripts.length),
    (Interleaving.part LoadEvent.thread events i).map LoadEvent.operation =
      scripts[i].map some ++ [none]

namespace EndingInterleaves

variable {scripts : List (List LoadOperation)} {events : List LoadEvent}

theorem perm (h : EndingInterleaves scripts events) : (events.map LoadEvent.operation).Perm
    (scripts.map fun script => script.map some ++ [none]).flatten := by
  apply Interleaving.perm_flatten
  · simpa using h.threads
  · intro i hi
    rw [List.length_map] at hi
    rw [List.getElem_map]
    exact h.own i hi

/-- The events bring the entries of all scripts. -/
theorem entries_perm (h : EndingInterleaves scripts events) :
    (events.flatMap LoadEvent.entries).Perm (scriptEntries scripts) := by
  have hflat : ∀ scripts : List (List LoadOperation),
      (scripts.map fun script => script.map some ++ [none]).flatten.flatMap
          (fun operation => operation.elim [] LoadOperation.entries) =
        scripts.flatten.flatMap LoadOperation.entries := by
    intro scripts
    induction scripts with
    | nil => rfl
    | cons script scripts ih =>
      rw [List.map_cons, List.flatten_cons, List.flatten_cons, List.flatMap_append,
        List.flatMap_append, List.flatMap_append, List.flatMap_map, ih]
      simp
  have hperm := h.perm.flatMap_right fun operation => operation.elim [] LoadOperation.entries
  rw [List.flatMap_map, hflat] at hperm
  exact hperm

theorem mem (h : EndingInterleaves scripts events) {event : LoadEvent} (hevent : event ∈ events)
    {operation : LoadOperation} (hoperation : event.operation = some operation) :
    operation ∈ scripts.flatten := by
  have hmem := h.perm.subset (List.mem_map_of_mem hevent)
  rw [hoperation] at hmem
  obtain ⟨script, hscript, hin⟩ := List.mem_flatten.mp hmem
  obtain ⟨original, horiginal, rfl⟩ := List.mem_map.mp hscript
  simp only [List.mem_append, List.mem_map, List.mem_singleton, reduceCtorEq, or_false,
    Option.some.injEq, exists_eq_right] at hin
  exact List.mem_flatten.mpr ⟨original, horiginal, hin⟩

end EndingInterleaves

/-- No call writes a key that another transaction holds, all are done, and in the end nothing is
pending and the map is committed. -/
structure ClientEngine.LoadsTo {K : Type} [LinearOrder K] (engine : ClientEngine K)
    (events : List LoadEvent) (loaded : KeyMap) : Prop where
  free : Throughout engine.serve engine.Free (Store.start ∅) events
  replies : (run engine.serve (Store.start ∅) events).1 = events.map LoadEvent.done
  ended : ∀ i, (run engine.serve (Store.start ∅) events).2.pending i = []
  committed : (run engine.serve (Store.start ∅) events).2.committed = loaded.rekey engine.code

theorem ClientEngine.loads {K : Type} [LinearOrder K] (engine : ClientEngine K)
    {scripts : List (List LoadOperation)} {events : List LoadEvent}
    (hevents : EndingInterleaves scripts events)
    (hnodup : ((scriptEntries scripts).map Prod.fst).Nodup)
    (haccepts : ∀ operation ∈ scripts.flatten, engine.Accepts operation) :
    engine.LoadsTo events (SortedMap.putAll ∅ (scriptEntries scripts)) := by
  have hperm := hevents.entries_perm
  have hnodup' : ((events.flatMap LoadEvent.entries).map Prod.fst).Nodup :=
    (hperm.map Prod.fst).nodup_iff.mpr hnodup
  have haccepts' : ∀ event ∈ events, ∀ operation, event.operation = some operation →
      engine.Accepts operation :=
    fun event hevent operation ho => haccepts operation (hevents.mem hevent ho)
  have hstart : engine.Holds (Store.start ∅) ∅ :=
    ⟨Serial.start _, fun hpending => by simp [Store.Pending, Store.start] at hpending⟩
  obtain ⟨hfree, hreplies, hholds⟩ :=
    engine.run_spec hstart haccepts' hnodup' fun _ _ => SortedMap.get_empty
  have hended : ∀ i, (run engine.serve (Store.start ∅) events).2.pending i = [] := by
    intro i
    by_cases hi : i < scripts.length
    · exact run_ended haccepts' (hevents.own i hi)
    · refine run_untouched haccepts' fun event hevent heq => hi ?_
      exact heq ▸ hevents.threads event hevent
  refine ⟨hfree, hreplies, hended, ?_⟩
  rw [← SortedMap.putAll_perm hnodup' hperm]
  exact hholds.serial.committed_eq hended

namespace RocksClients

/-- A call of a load on the transactions of RocksDB, none of whose writes is refused. -/
def load (s : RocksClients) (event : LoadEvent) : Option OperationResult × RocksClients :=
  let served := serve s
    { thread := event.thread, operation := event.operation.map LoadOperation.dataOperation }
  (served.1.map Reply.result, served.2)

theorem batchActs_nil (entries : List (UInt64 × Bytes)) : batchActs entries [] =
    entries.map fun e => .write (bigEndianKey e.1, some e.2) := by
  induction entries with
  | nil => rfl
  | cons e entries ih =>
    change Act.write (bigEndianKey e.1, some e.2) :: batchActs entries [] = _
    rw [ih]
    rfl

def clientEngine : ClientEngine Bytes where
  code := bigEndianKey
  code_injective := bigEndianKey_injective
  serve := load
  Accepts := fun _ => True
  serve_end := fun _ _ => rfl
  serve_load := by
    intro s i operation _
    cases operation with
    | upsert key value =>
      refine Prod.ext ?_ rfl
      change some ((transaction s i []).upsert key value).1.result = _
      rw [upsert_reply]
      rfl
    | batchUpsert batch | bulkLoad batch =>
      refine Prod.ext ?_ ?_
      · change some ({ entriesTouched := UInt64.ofNat batch.keys.length } : OperationResult) = _
        rw [LoadOperation.done, LoadOperation.keys, LoadOperation.entries, batch.entries_keys]
      · change Act.performAll i s (batchActs batch.slices []) = _
        rw [batchActs_nil, Batch.slices_eq]
        rfl

end RocksClients

namespace UStoreTransaction

def bulkLoad (t : UStoreTransaction) (memory : ℤ → UInt8) (keys : List UInt64)
    (sizes : List UInt32) : Reply ℤ × UStoreTransaction := t.batchUpsert memory keys sizes

def load (t : UStoreTransaction) : LoadOperation → Reply ℤ × UStoreTransaction
  | .upsert key value => t.upsert key value
  | .batchUpsert batch => t.batchUpsert batch.memory batch.keys batch.sizes
  | .bulkLoad batch => t.bulkLoad batch.memory batch.keys batch.sizes

end UStoreTransaction

/-- The writes that a call of a load makes in a transaction of UStore. -/
def ustoreLoadWrites : LoadOperation → List (Write ℤ Bytes)
  | .upsert key value => [(ustoreKey key, some (value.take (UInt32.ofNat value.length).toNat))]
  | .batchUpsert batch | .bulkLoad batch =>
    (ustorePieces batch.keys batch.sizes).map fun piece =>
      (ustoreKey piece.key, some (piece.bytes batch.memory))

/-- The transactions of the threads on one UStore. -/
abbrev UStoreTransactions := Store ℕ ℤ Bytes

namespace UStoreTransactions

def transaction (s : UStoreTransactions) (i : ℕ) : UStoreTransaction where
  db := s.committed
  view := s.view i

def load (s : UStoreTransactions) (event : LoadEvent) :
    Option OperationResult × UStoreTransactions :=
  match event.operation with
  | some operation =>
    (some ((transaction s event.thread).load operation).1.result,
      Act.performAll event.thread s ((ustoreLoadWrites operation).map .write))
  | none => (none, s.commit event.thread)

theorem view_writes (s : UStoreTransactions) (i : ℕ) (writes : List (Write ℤ Bytes)) :
    transaction (Act.performAll i s (writes.map .write)) i =
      { db := s.committed, view := applyAll (s.view i) writes } := by
  induction writes generalizing s with
  | nil => rfl
  | cons w writes ih =>
    change transaction (Act.performAll i (s.write i w) (writes.map .write)) i = _
    rw [ih, Store.view_write]
    rfl

/-- What a call does to its transaction is what its writes do. -/
theorem load_transaction (s : UStoreTransactions) (i : ℕ) (operation : LoadOperation) :
    ((transaction s i).load operation).2 =
      transaction (Act.performAll i s ((ustoreLoadWrites operation).map .write)) i := by
  rw [view_writes]
  cases operation with
  | upsert key value => rfl
  | batchUpsert batch | bulkLoad batch =>
    change UStoreTransaction.mk s.committed ((s.view i).putAll _) = _
    rw [ustoreLoadWrites, ← applyAll_puts, List.map_map]
    rfl

/-- The offsets of the values are of 32 bits. -/
def clientEngine : ClientEngine ℤ where
  code := ustoreKey
  code_injective := ustoreKey_injective
  serve := load
  Accepts := fun operation => operation.values.length < 2 ^ 32
  serve_end := fun _ _ => rfl
  serve_load := by
    intro s i operation haccepts
    have hwrites : ustoreLoadWrites operation =
        operation.entries.map fun e => (ustoreKey e.1, some e.2) := by
      cases operation with
      | upsert key value =>
        have hlength : (UInt32.ofNat value.length).toNat = value.length := by
          rw [UInt32.toNat_ofNat']
          exact Nat.mod_eq_of_lt haccepts
        rw [ustoreLoadWrites, hlength, List.take_length]
        rfl
      | batchUpsert batch | bulkLoad batch =>
        have hpairs := (ustorePieces_iff batch).mpr fun i size hsize _ =>
          (Batch.sizesBefore_le hsize).trans_lt haccepts
        have hbytes := hpairs.bytes batch.inMemory
        rw [Batch.slices_eq] at hbytes
        change _ = batch.entries.map fun e => (ustoreKey e.1, some e.2)
        rw [← hbytes, List.map_map]
        rfl
    refine Prod.ext ?_ ?_
    · cases operation with
      | upsert key value => rfl
      | batchUpsert batch | bulkLoad batch =>
        change some ({ entriesTouched := UInt64.ofNat batch.keys.length } : OperationResult) = _
        rw [LoadOperation.done, LoadOperation.keys, LoadOperation.entries, batch.entries_keys]
    · change Act.performAll i s ((ustoreLoadWrites operation).map .write) = _
      rw [hwrites, List.map_map]
      rfl

end UStoreTransactions

section

variable {w : Workload} {kind : OperationKind} {threadsCount : UInt64}
  {runs : List (InsertRun w kind)} {scripts : List (List LoadOperation)} {events : List LoadEvent}

/-- A load through transactions, one for each thread, whose calls and ends interleave in any way:
no call writes a key that another transaction holds, all are done, and RocksDB and UStore, if the
values fit its offsets, have committed the map of a load without transactions. -/
theorem transactional_load (hw : w.InsertsOnlyBy kind)
    (hruns : runs.map InsertRun.slice = splitWorkloadIntoThreads w threadsCount)
    (hbound : w.startKey.toNat +
      insertCapacity w kind (splitWorkloadIntoThreads w threadsCount) ≤ 2 ^ 64)
    (hscripts : List.Forall₂ InsertRun.CarriedOut runs scripts)
    (hevents : EndingInterleaves scripts events) :
    let loaded : KeyMap := SortedMap.putAll ∅ (scriptEntries scripts)
    loaded.entries.Perm (scriptEntries scripts) ∧
      loaded.entries.map Prod.fst = runs.flatMap InsertRun.keys ∧
      RocksClients.clientEngine.LoadsTo events loaded ∧
      ((∀ operation ∈ scripts.flatten, operation.values.length < 2 ^ 32) →
        UStoreTransactions.clientEngine.LoadsTo events loaded) := by
  intro loaded
  have hascend := runs_keys_pairwise hw hruns hbound
  have hkeys := scripts_keys hscripts
  have hpairwise : ((scriptEntries scripts).map Prod.fst).Pairwise (· < ·) := hkeys ▸ hascend
  have hnodup : ((scriptEntries scripts).map Prod.fst).Nodup := hpairwise.imp ne_of_lt
  have hperm := SortedMap.entries_putAll_perm hnodup
  refine ⟨hperm, ?_, ?_, fun hlength => ?_⟩
  · rw [← hkeys]
    exact (hperm.map Prod.fst).eq_of_pairwise (fun _ _ _ _ h h' => absurd h h'.asymm)
      (List.pairwise_map.mpr loaded.sorted) hpairwise
  · exact RocksClients.clientEngine.loads hevents hnodup fun _ _ => trivial
  · exact UStoreTransactions.clientEngine.loads hevents hnodup hlength

end

/-- The first thread ends while the second one is still to write. -/
theorem transactional_load_small :
    RocksClients.clientEngine.LoadsTo
      [⟨0, some (smallBulk [5])⟩, ⟨0, some (smallBulk [6, 7])⟩, ⟨0, none⟩,
        ⟨1, some (smallBulk [9, 10])⟩, ⟨1, none⟩]
      (SortedMap.putAll ∅
        (scriptEntries [[smallBulk [5], smallBulk [6, 7]], [smallBulk [9, 10]]])) := by
  have hruns : smallLoadRuns.map InsertRun.slice = splitWorkloadIntoThreads smallLoad 2 := by
    decide
  refine (transactional_load smallLoad_insertsOnlyBy hruns (by decide) smallScripts_carriedOut
    ⟨?_, ?_⟩).2.2.1
  · simp
  · intro i hi
    match i, hi with
    | 0, _ => rfl
    | 1, _ => rfl

end Ucsb
