import Ucsb.ParallelLoad
import Ucsb.ReadKeys

namespace Ucsb

open scoped WordBytes
open BinaryRounding ExceptRules ConsecutiveWords RequestRun

/-- The request of a call, for any adapter. -/
def RocksRequest.dataRequest : RocksRequest → DataRequest
  | .data operation => .data operation
  | .batchRead keys => .batchRead keys

namespace DataRequest

/-- The keys that are to be there. -/
def asks : DataRequest → List UInt64
  | .data (.point (.update key _)) | .data (.point (.read key)) => [key]
  | .batchRead keys => keys
  | _ => []

def Removes : DataRequest → Prop
  | .data (.point (.remove _)) => True
  | _ => False

/-- The number of keys that are to be reported. -/
def count : DataRequest → Option ℕ
  | .data (.point _) => some 1
  | .data (.batchUpsert batch) | .data (.bulkLoad batch) => some batch.keys.length
  | .batchRead keys => some keys.length
  | .data (.rangeSelect _ _) | .data (.scan _ _) => none

/-- A request that is not a failure, and reports all its keys. -/
def Succeeds (request : DataRequest) (result : OperationResult) : Prop :=
  result.status = .ok ∧ ∀ n ∈ request.count, result.entriesTouched = UInt64.ofNat n

end DataRequest

/-- These keys are stored. -/
def Stores (m : KeyMap) (keys : List UInt64) : Prop := ∀ key ∈ keys, m.get key ≠ none

section

variable {m : KeyMap} {keys : List UInt64}

theorem Stores.put (h : Stores m keys) (key : UInt64) (value : Bytes) :
    Stores (m.put key value) keys := by
  intro other hother
  rw [SortedMap.get_put]
  split
  next => exact Option.some_ne_none value
  next => exact h other hother

theorem Stores.putAll (h : Stores m keys) (entries : List (UInt64 × Bytes)) :
    Stores (m.putAll entries) keys := by
  induction entries generalizing m with
  | nil => exact h
  | cons e entries ih => exact ih (h.put e.1 e.2)

theorem Stores.foundValues_length (h : Stores m keys) :
    (foundValues m.get keys).length = keys.length := by
  induction keys with
  | nil => rfl
  | cons key keys ih =>
    unfold Stores at h
    rw [List.forall_mem_cons] at h
    obtain ⟨value, hvalue⟩ := Option.ne_none_iff_exists'.mp h.1
    have hfound : foundValues m.get (key :: keys) = value :: foundValues m.get keys := by
      simp [foundValues, hvalue]
    rw [hfound, List.length_cons, List.length_cons, ih h.2]

/-- While the keys asked for are stored and none is removed, every operation succeeds. -/
theorem mapStep_succeeds {stored : List UInt64} {operation : DataOperation}
    (h : Stores m stored) (hasks : ∀ key ∈ (DataRequest.data operation).asks, key ∈ stored)
    (hkeep : ¬(DataRequest.data operation).Removes) :
    (DataRequest.data operation).Succeeds (mapStep .ok m operation).1.result ∧
      Stores (mapStep .ok m operation).2 stored := by
  cases operation with
  | batchUpsert batch | bulkLoad batch =>
    refine ⟨⟨rfl, ?_⟩, h.putAll batch.entries⟩
    rintro n hn
    cases hn
    rfl
  | rangeSelect key length | scan key length =>
    refine ⟨⟨rfl, ?_⟩, h⟩
    rintro n hn
    cases hn
  | point operation =>
    have hone : DataRequest.Succeeds (.data (.point operation)) { entriesTouched := 1 } := by
      refine ⟨rfl, ?_⟩
      rintro n hn
      cases hn
      rfl
    cases operation with
    | upsert key value => exact ⟨hone, h.put key value⟩
    | remove key => exact absurd trivial hkeep
    | update key value =>
      obtain ⟨old, hold⟩ := Option.ne_none_iff_exists'.mp
        (h key (hasks key (List.mem_singleton_self key)))
      rw [mapStep, pointStep, hold]
      exact ⟨hone, h.put key value⟩
    | read key =>
      obtain ⟨value, hvalue⟩ := Option.ne_none_iff_exists'.mp
        (h key (hasks key (List.mem_singleton_self key)))
      rw [mapStep, pointStep, hvalue]
      exact ⟨hone, h⟩

theorem reversedStep_succeeds {stored : List UInt64} {request : DataRequest}
    (h : Stores m stored) (hasks : ∀ key ∈ request.asks, key ∈ stored)
    (hkeep : ¬request.Removes) :
    request.Succeeds (reversedStep m request).1.result ∧
      Stores (reversedStep m request).2 stored := by
  cases request with
  | batchRead keys =>
    have hlength := Stores.foundValues_length fun key hkey => h key (hasks key hkey)
    refine ⟨⟨rfl, ?_⟩, h⟩
    rintro n hn
    cases hn
    exact congrArg UInt64.ofNat hlength
  | data operation =>
    have hmap := mapStep_succeeds h hasks hkeep
    cases operation with
    | point operation => exact hmap
    | batchUpsert batch | bulkLoad batch => exact hmap
    | rangeSelect key length | scan key length =>
      refine ⟨⟨rfl, ?_⟩, h⟩
      rintro n hn
      cases hn

end

theorem RocksCall.CarriesOut.asks_subset {call : RocksCall} {made : AccessorCall}
    (h : call.CarriesOut made) :
    ∀ key ∈ call.request.dataRequest.asks, key ∈ made.requestedKeys := by
  obtain ⟨thread, request, span, statuses⟩ := call
  cases made with
  | upsert key value =>
    obtain ⟨bytes, rfl, -⟩ := h
    exact List.forall_mem_nil _
  | update key value =>
    obtain ⟨bytes, rfl, -⟩ := h
    exact fun key hkey => hkey
  | remove key =>
    obtain ⟨rfl, -⟩ := h
    exact List.forall_mem_nil _
  | read key value | batchRead key value =>
    obtain ⟨rfl, -⟩ := h
    exact fun key hkey => hkey
  | batchUpsert keys values sizes | bulkLoad keys values sizes =>
    obtain ⟨batch, rfl, -⟩ := h
    exact List.forall_mem_nil _
  | rangeSelect key length values | scan key length values =>
    obtain ⟨rfl, -⟩ := h
    exact List.forall_mem_nil _

/-- The workers of a mixed workload ask for no key behind its records. -/
theorem Executes.asks_le {threadsCount : UInt64} {w : Workload} {calls : List RocksCall}
    (h : Executes threadsCount w calls) (hmixed : ¬w.InsertOnly) :
    ∀ call ∈ calls, ∀ key ∈ call.request.dataRequest.asks, key ≤ w.dbRecordsCount - 1 := by
  intro call hcall key hkey
  obtain ⟨slice, hslice, worker, operations, made, worker', hmake, -, hrun, hcarries⟩ :=
    h call hcall
  have hpart := isSliceOf_of_mem_split hslice
  have hown : call ∈ calls.filter fun other => other.thread = call.thread :=
    List.mem_filter.mpr ⟨hcall, decide_eq_true rfl⟩
  obtain ⟨accessorCall, hmem, hcarried⟩ := exists_of_forall₂ hcarries hown
  have hmixed' : ¬slice.InsertOnly := by
    rw [hpart.insertOnly_iff]
    exact hmixed
  have hlast : ∀ n, (worker.upsertKeySequenceGenerator.advance n).last =
      w.dbRecordsCount - 1 := by
    intro n
    rw [Worker.make_mixed hmixed' hmake, KeySequence.advance_last_acknowledged,
      ← hpart.dbRecordsCount]
    rfl
  apply Worker.run_requests_le (Worker.make_spec hmake).1 hlast hrun
  exact List.mem_flatMap.mpr ⟨accessorCall, hmem, hcarried.asks_subset key hkey⟩

/-- A request that is no bulk load and no batch read. -/
def RocksCall.Plain (call : RocksCall) : Prop :=
  ∃ operation, call.request = .data operation ∧ ∀ batch, operation ≠ .bulkLoad batch

theorem RocksSession.step_succeeds {threadId : ℕ → String} {s : RocksSession} {call : RocksCall}
    {m : KeyMap} {stored : List UInt64} (hplain : call.Plain) (hholds : s.db.Holds m)
    (h : Stores m stored) (hasks : ∀ key ∈ call.request.dataRequest.asks, key ∈ stored)
    (hkeep : ¬call.request.dataRequest.Removes) :
    call.request.dataRequest.Succeeds (s.step threadId call).1.result ∧
      ∃ m', (s.step threadId call).2.db.Holds m' ∧ Stores m' stored := by
  obtain ⟨operation, hrequest, hbulk⟩ := hplain
  rw [hrequest, RocksRequest.dataRequest] at hasks hkeep ⊢
  obtain ⟨hsucceeds, hstores⟩ := mapStep_succeeds h hasks hkeep
  have hadmitted : operation.Admitted := by
    cases operation with
    | bulkLoad batch => exact absurd rfl (hbulk batch)
    | point operation => trivial
    | batchUpsert batch => trivial
    | rangeSelect key length => trivial
    | scan key length => trivial
  have hstep : s.step threadId call = ((s.db.step (threadId call.thread) operation).1,
      { s with db := (s.db.step (threadId call.thread) operation).2 }) := by
    rw [step, hrequest]
    cases operation with
    | bulkLoad batch => exact absurd rfl (hbulk batch)
    | point operation => rfl
    | batchUpsert batch => rfl
    | rangeSelect key length => rfl
    | scan key length => rfl
  obtain ⟨hreply, hnext⟩ : (s.db.step (threadId call.thread) operation).1 = _ ∧
      (s.db.step (threadId call.thread) operation).2.Holds _ :=
    RocksDb.step_spec hholds hadmitted
  rw [hstep]
  refine ⟨?_, _, hnext, hstores⟩
  rw [hreply]
  exact hsucceeds

section

variable {load w : Workload} {kind : OperationKind} {loadThreads threads : UInt64}
  {runs : List (InsertRun load kind)} {scripts : List (List LoadOperation)}
  {loadCalls : List LoadCall} {calls : List RocksCall}

/-- A load of enough keys from zero on, with one length, has all keys that are asked for. -/
theorem asks_loaded (hvalid : ValidateWorkload load loadThreads)
    (honly : load.InsertsOnlyBy kind)
    (hruns : runs.map InsertRun.slice = splitWorkloadIntoThreads load loadThreads)
    (hfixed : load.minInsertLength kind = load.maxInsertLength kind) (hstart : load.startKey = 0)
    (hmixed : ¬w.InsertOnly) (hrecords : 0 < w.dbRecordsCount)
    (henough : w.dbRecordsCount.toNat ≤
      load.dbOperationsCount.toNat * (load.maxInsertLength kind).toNat)
    (hcalls : Executes threads w calls) :
    ∀ call ∈ calls, ∀ key ∈ call.request.dataRequest.asks, key ∈ runs.flatMap InsertRun.keys := by
  intro call hcall key hkey
  have hle := UInt64.le_iff_toNat_le.mp (hcalls.asks_le hmixed call hcall key hkey)
  have hpos := UInt64.lt_iff_toNat_lt.mp hrecords
  have hone : (1 : UInt64) ≤ w.dbRecordsCount := UInt64.le_iff_toNat_le.mpr hpos
  rw [UInt64.toNat_sub_of_le _ _ hone, UInt64.toNat_one] at hle
  have hthreads := UInt64.lt_iff_toNat_lt.mp hvalid.threads
  have hcapacity : w.dbRecordsCount.toNat ≤
      insertCapacity load kind (splitWorkloadIntoThreads load loadThreads) :=
    henough.trans (Nat.mul_le_mul_right _ (split_operations_sum_ge hvalid.threads))
  rw [runs_keys_full honly hruns hfixed, hstart]
  apply mem_words_from_zero
  simp only [UInt64.toNat_zero] at hpos
  omega

/-- After a load whose threads interleaved as they will, the threads of a mixed workload without
removals interleave as they will, and no operation of theirs fails: every key that they ask for
is there. RocksDB is to run without bulk loads and batch reads. -/
theorem run_after_load_succeeds (hvalid : ValidateWorkload load loadThreads)
    (honly : load.InsertsOnlyBy kind)
    (hruns : runs.map InsertRun.slice = splitWorkloadIntoThreads load loadThreads)
    (hfixed : load.minInsertLength kind = load.maxInsertLength kind) (hstart : load.startKey = 0)
    (hbound : insertCapacity load kind (splitWorkloadIntoThreads load loadThreads) ≤ 2 ^ 64)
    (hscripts : List.Forall₂ InsertRun.CarriedOut runs scripts)
    (hloads : Interleaves scripts loadCalls)
    (hmixed : ¬w.InsertOnly) (hrecords : 0 < w.dbRecordsCount)
    (henough : w.dbRecordsCount.toNat ≤
      load.dbOperationsCount.toNat * (load.maxInsertLength kind).toNat)
    (hcalls : Executes threads w calls)
    (hkeep : ∀ call ∈ calls, ¬call.request.dataRequest.Removes) :
    List.Forall₂ (fun call reply => call.request.dataRequest.Succeeds reply.result) calls
        (run (fun (db : LevelDb) (call : RocksCall) => db.step call.request.dataRequest)
          (run LevelDb.load { store := ∅ } loadCalls).2 calls).1 ∧
      ∀ threadId, (∀ call ∈ calls, call.Plain) →
        List.Forall₂ (fun call reply => call.request.dataRequest.Succeeds reply.result) calls
          (run (RocksSession.step threadId)
            { db := (run (RocksDb.load threadId) { store := ∅ } loadCalls).2 } calls).1 := by
  have hbound' : load.startKey.toNat +
      insertCapacity load kind (splitWorkloadIntoThreads load loadThreads) ≤ 2 ^ 64 := by
    rw [hstart, UInt64.toNat_zero]
    omega
  have hascend := runs_keys_pairwise honly hruns hbound'
  have hkeys := scripts_keys hscripts
  have hnodup : ((scriptEntries scripts).map Prod.fst).Nodup := hkeys ▸ hascend.imp ne_of_lt
  have hfit : ∀ operation ∈ scripts.flatten, operation.Fit := fun operation ho =>
    (scripts_fit (hvalid.minInsertLength_pos honly) honly.inserts hascend hscripts operation ho).2
  have hasks := asks_loaded hvalid honly hruns hfixed hstart hmixed hrecords henough hcalls
  have hstores : Stores (SortedMap.putAll ∅ (scriptEntries scripts))
      (runs.flatMap InsertRun.keys) := by
    intro key hkey
    rw [← hkeys] at hkey
    obtain ⟨e, he, rfl⟩ := List.mem_map.mp hkey
    rw [SortedMap.get_putAll_of_mem hnodup he]
    exact Option.some_ne_none e.2
  have hserved : ∀ call ∈ calls, (∀ key ∈ call.request.dataRequest.asks,
      key ∈ runs.flatMap InsertRun.keys) ∧ ¬call.request.dataRequest.Removes :=
    fun call hcall => ⟨hasks call hcall, hkeep call hcall⟩
  constructor
  · have hloaded : ∃ m, (run LevelDb.load { store := ∅ } loadCalls).2.Holds m ∧
        Stores m (runs.flatMap InsertRun.keys) :=
      ⟨_, (LevelDb.loadEngine.loads rfl hloads hnodup hfit fun _ _ => trivial).2, hstores⟩
    refine forall₂_of_step (I := fun db => ∃ m, db.Holds m ∧
      Stores m (runs.flatMap InsertRun.keys)) ?_ hloaded hserved
    rintro db call ⟨m, hholds, hm⟩ ⟨hask, hcallkeep⟩
    obtain ⟨hreply, hnext⟩ := LevelDb.step_spec hholds call.request.dataRequest
    obtain ⟨hsucceeds, hstores'⟩ := reversedStep_succeeds hm hask hcallkeep
    refine ⟨?_, _, hnext, hstores'⟩
    rw [hreply]
    exact hsucceeds
  · intro threadId hplain
    have hserved' : ∀ call ∈ calls, ((∀ key ∈ call.request.dataRequest.asks,
        key ∈ runs.flatMap InsertRun.keys) ∧ ¬call.request.dataRequest.Removes) ∧ call.Plain :=
      fun call hcall => ⟨hserved call hcall, hplain call hcall⟩
    have hstart : (RocksDb.loadEngine threadId).Holds { store := ∅ } ∅ := rfl
    have hloaded : ∃ m, (run (RocksDb.load threadId) { store := ∅ } loadCalls).2.Holds m ∧
        Stores m (runs.flatMap InsertRun.keys) :=
      ⟨_, ((RocksDb.loadEngine threadId).loads hstart hloads hnodup hfit fun _ _ => trivial).2,
        hstores⟩
    refine forall₂_of_step (I := fun s => ∃ m, s.db.Holds m ∧
      Stores m (runs.flatMap InsertRun.keys)) ?_ hloaded
      hserved'
    rintro s call ⟨m, hholds, hm⟩ ⟨⟨hask, hcallkeep⟩, hcallplain⟩
    exact RocksSession.step_succeeds hcallplain hholds hm hask hcallkeep

end

/-- Four records, to be loaded in batches of two. -/
def pairsLoad : Workload :=
  { name := "Init", dbRecordsCount := 4, dbOperationsCount := 2, batchUpsertProportion := 1,
    batchUpsertMinLength := 2, batchUpsertMaxLength := 2, valueLength := 8 }

/-- The reads of the pairs. -/
def pairsRead : Workload :=
  { name := "Read", dbRecordsCount := 4, dbOperationsCount := 2, batchReadProportion := 1,
    batchReadMinLength := 2, batchReadMaxLength := 2, valueLength := 8 }

theorem pairsLoad_validateWorkload : ValidateWorkload pairsLoad 2 where
  threads := by decide
  name := by simp [pairsLoad]
  records := by decide
  operations := by decide
  proportion := by
    have hone : roundTo 24 1 = 1 := roundTo_one (by decide)
    simp [proportionSum, pairsLoad, roundTo_zero, hone]
  valueLength := by decide
  keyDist := by simp [pairsLoad]
  batchUpsert := ⟨Or.inr ⟨by simp [pairsLoad], by decide⟩, by decide, by decide⟩
  batchRead := lengthsValid_unused _
  bulkLoad := lengthsValid_unused _
  rangeSelect := lengthsValid_unused _

theorem pairsLoad_insertsOnlyBy : pairsLoad.InsertsOnlyBy .batchUpsert where
  inserts := by decide
  proportion_one := rfl
  proportion_zero := by
    intro other h
    cases other <;> first | rfl | exact absurd rfl h

def pairsRuns : List (InsertRun pairsLoad .batchUpsert) :=
  [{ slice := { pairsLoad with recordsCount := 2, operationsCount := 1 }
     operations := [(.batchUpsert, { length := 2, valueLengths := fun _ => 8 })]
     keys := [0, 1]
     count := rfl
     kinds := by decide
     lengths := by decide
     completes := by decide },
   { slice := { pairsLoad with recordsCount := 2, operationsCount := 1, startKey := 2 }
     operations := [(.batchUpsert, { length := 2, valueLengths := fun _ => 8 })]
     keys := [2, 3]
     count := rfl
     kinds := by decide
     lengths := by decide
     completes := by decide }]

def pairUpsert (keys : List UInt64) : LoadOperation := .batchUpsert (smallBatch keys)

def pairRead (thread : ℕ) (keys : List UInt64) : RocksCall :=
  { thread := thread, request := .batchRead keys, span := 8192 }

theorem executes_pairsRead : Executes 2 pairsRead [pairRead 1 [3, 2], pairRead 0 [0, 1]] := by
  have hslices : splitWorkloadIntoThreads pairsRead 2 =
      [{ pairsRead with recordsCount := 2, operationsCount := 1 },
        { pairsRead with recordsCount := 2, operationsCount := 1, startKey := 2 }] := by decide
  intro call hcall
  rw [hslices]
  rcases List.mem_cons.mp hcall with rfl | hcall
  · refine ⟨_, List.mem_cons_of_mem _ List.mem_cons_self, _,
      [(.batchRead, { length := 2, keys := [{ value := 3 }, { value := 3 }, { value := 2 }] })],
      _, _, rfl, ?_, rfl, .cons ⟨rfl, rfl⟩ .nil⟩
    simp [LengthConfigured, pairsRead]
  · obtain rfl := List.mem_singleton.mp hcall
    refine ⟨_, List.mem_cons_self, _,
      [(.batchRead, { length := 2, keys := [{ value := 0 }, { value := 1 }] })],
      _, _, rfl, ?_, rfl, .cons ⟨rfl, rfl⟩ .nil⟩
    simp [LengthConfigured, pairsRead]

/-- Two threads have loaded two keys each, the second one first, and read them. -/
theorem run_after_load_succeeds_pairs :
    List.Forall₂ (fun (call : RocksCall) (reply : Reply Bytes) =>
      call.request.dataRequest.Succeeds reply.result) [pairRead 1 [3, 2], pairRead 0 [0, 1]]
      (run (fun (db : LevelDb) (call : RocksCall) => db.step call.request.dataRequest)
        (run LevelDb.load { store := ∅ } [⟨1, pairUpsert [2, 3]⟩, ⟨0, pairUpsert [0, 1]⟩]).2
        [pairRead 1 [3, 2], pairRead 0 [0, 1]]).1 := by
  have hruns : pairsRuns.map InsertRun.slice = splitWorkloadIntoThreads pairsLoad 2 := by decide
  have hscripts : List.Forall₂ InsertRun.CarriedOut pairsRuns
      [[pairUpsert [0, 1]], [pairUpsert [2, 3]]] :=
    .cons ⟨_, _, _, rfl, rfl, .cons ⟨rfl, rfl, rfl⟩ .nil⟩
      (.cons ⟨_, _, _, rfl, rfl, .cons ⟨rfl, rfl, rfl⟩ .nil⟩ .nil)
  have hloads : Interleaves [[pairUpsert [0, 1]], [pairUpsert [2, 3]]]
      [⟨1, pairUpsert [2, 3]⟩, ⟨0, pairUpsert [0, 1]⟩] := by
    refine ⟨by simp, fun i hi => ?_⟩
    match i, hi with
    | 0, _ => rfl
    | 1, _ => rfl
  have hkeep : ∀ call ∈ [pairRead 1 [3, 2], pairRead 0 [0, 1]],
      ¬call.request.dataRequest.Removes := by
    simp [pairRead, RocksRequest.dataRequest, DataRequest.Removes]
  exact (run_after_load_succeeds pairsLoad_validateWorkload pairsLoad_insertsOnlyBy hruns rfl rfl
    (by decide) hscripts hloads (w := pairsRead) (by decide) (by decide) (by decide)
    executes_pairsRead hkeep).1

end Ucsb
