import Ucsb.InsertOnlyKeys
import Ucsb.Interleaving
import Ucsb.LoadEngines
import Ucsb.RocksDbReadSpans

namespace Ucsb

open scoped WordBytes
open ExceptRules ConsecutiveWords RequestRun

/-- The operation by which a call inserts. -/
def AccessorCall.insertKind : AccessorCall → Option OperationKind
  | .upsert _ _ => some .upsert
  | .batchUpsert _ _ _ => some .batchUpsert
  | .bulkLoad _ _ _ => some .bulkLoad
  | _ => none

namespace LoadOperation

def kind : LoadOperation → OperationKind
  | .upsert _ _ => .upsert
  | .batchUpsert _ => .batchUpsert
  | .bulkLoad _ => .bulkLoad

/-- The call of a worker, with bytes in its values. -/
def CarriesOut : LoadOperation → AccessorCall → Prop
  | .upsert key value, .upsert key' value' => key = key' ∧ value.length = value'.toNat
  | .batchUpsert batch, .batchUpsert keys values sizes =>
    batch.keys = keys ∧ batch.values.length = values.toNat ∧ batch.sizes = sizes
  | .bulkLoad batch, .bulkLoad keys values sizes =>
    batch.keys = keys ∧ batch.values.length = values.toNat ∧ batch.sizes = sizes
  | _, _ => False

theorem CarriesOut.keys_eq {operation : LoadOperation} {call : AccessorCall}
    (h : operation.CarriesOut call) : operation.keys = call.insertedKeys := by
  cases operation with
  | upsert key value =>
    cases call <;> first | exact h.elim | exact congrArg (fun key => [key]) h.1
  | batchUpsert batch | bulkLoad batch =>
    cases call <;> first | exact h.elim | exact batch.entries_keys.trans h.1

theorem CarriesOut.kind_eq {operation : LoadOperation} {call : AccessorCall}
    (h : operation.CarriesOut call) : call.insertKind = some operation.kind := by
  cases operation <;> cases call <;> first | exact h.elim | rfl

end LoadOperation

namespace Worker

variable {w w' : Worker} {kind : OperationKind}

/-- An inserting operation makes one call. -/
theorem perform_single {draws : Draws} {calls : List AccessorCall} (hk : kind.Inserts)
    (h : w.perform draws kind = .ok (calls, w')) :
    ∃ call, calls = [call] ∧ call.insertKind = some kind := by
  rcases hk with rfl | rfl | rfl
  · simp only [perform, doUpsert, bind_eq_ok] at h
    obtain ⟨_, _, _, _, h⟩ := h
    cases Except.ok.inj h
    exact ⟨_, rfl, rfl⟩
  · simp only [perform, doBatchUpsert, insertMany, bind_eq_ok] at h
    obtain ⟨_, _, _, _, h⟩ := h
    cases Except.ok.inj h
    exact ⟨_, rfl, rfl⟩
  · simp only [perform, doBulkLoad, insertMany, bind_eq_ok] at h
    obtain ⟨_, _, _, _, h⟩ := h
    cases Except.ok.inj h
    exact ⟨_, rfl, rfl⟩

/-- In a run that only inserts, every call brings keys. -/
theorem run_calls {operations : List (OperationKind × Draws)} {calls : List AccessorCall}
    (hack : w.acknowledgedKeyGenerator = none) (hk : kind.Inserts)
    (hkinds : ∀ operation ∈ operations, operation.1 = kind)
    (hcounts : ∀ operation ∈ operations, 0 < insertedCount operation)
    (h : w.run operations = .ok (calls, w')) :
    ∀ call ∈ calls, call.insertKind = some kind ∧ call.insertedKeys ≠ [] := by
  induction operations generalizing w calls with
  | nil =>
    cases Except.ok.inj h
    exact List.forall_mem_nil _
  | cons operation operations ih =>
    obtain ⟨first, w1, rest, hp, ⟨hands, hkeys⟩, hr, rfl⟩ := run_cons hack h
    rw [List.forall_mem_cons] at hkinds hcounts
    obtain ⟨call, rfl, hcall⟩ := perform_single (hkinds.1 ▸ hk) hp
    rw [insertedKeys, List.flatMap_singleton] at hkeys
    rw [List.singleton_append, List.forall_mem_cons]
    refine ⟨⟨hkinds.1 ▸ hcall, ?_⟩, ih hands.acknowledged hkinds.2 hcounts.2 hr⟩
    rw [hkeys, ← List.length_pos_iff, words_length]
    exact hcounts.1

end Worker

theorem flatMap_eq_of_forall₂ {α β γ : Type} {R : α → β → Prop} {f : α → List γ}
    {g : β → List γ} (hR : ∀ a b, R a b → f a = g b) {l : List α} {l' : List β}
    (h : List.Forall₂ R l l') : l.flatMap f = l'.flatMap g := by
  induction h with
  | nil => rfl
  | cons hfirst _ ih => rw [List.flatMap_cons, List.flatMap_cons, hR _ _ hfirst, ih]

theorem ValidateWorkload.minInsertLength_pos {w : Workload} {kind : OperationKind}
    {threadsCount : UInt64} (hvalid : ValidateWorkload w threadsCount)
    (hw : w.InsertsOnlyBy kind) : 0 < (w.minInsertLength kind).toNat := by
  have hone := hw.proportion_one
  rcases hw.inserts with rfl | rfl | rfl
  · exact Nat.one_pos
  · have hmin := hvalid.batchUpsert.1
    have hproportion : w.batchUpsertProportion = 1 := hone
    rw [hproportion] at hmin
    exact UInt64.lt_iff_toNat_lt.mp (hmin.resolve_left one_ne_zero).2
  · have hmin := hvalid.bulkLoad.1
    have hproportion : w.bulkLoadProportion = 1 := hone
    rw [hproportion] at hmin
    exact UInt64.lt_iff_toNat_lt.mp (hmin.resolve_left one_ne_zero).2

namespace InsertRun

variable {w : Workload} {kind : OperationKind} {run : InsertRun w kind}
  {script : List LoadOperation}

/-- A thread's operations, with bytes in the values of its calls. -/
def CarriedOut (run : InsertRun w kind) (script : List LoadOperation) : Prop :=
  ∃ worker made worker', Worker.make run.slice = .ok worker ∧
    worker.run run.operations = .ok (made, worker') ∧
    List.Forall₂ LoadOperation.CarriesOut script made

theorem CarriedOut.keys_eq (h : run.CarriedOut script) :
    script.flatMap LoadOperation.keys = run.keys := by
  obtain ⟨worker, made, worker', hmake, hrun, hcarries⟩ := h
  have hcompletes := run.completes
  simp only [threadKeys, hmake, hrun, ok_bind] at hcompletes
  rw [← Except.ok.inj hcompletes]
  exact flatMap_eq_of_forall₂ (fun _ _ h => h.keys_eq) hcarries

/-- The operations of a thread are of the kind of the workload, and bring keys that ascend. -/
theorem CarriedOut.fit (h : run.CarriedOut script) (hk : kind.Inserts)
    (hmin : 0 < (w.minInsertLength kind).toNat) (hascend : run.keys.Pairwise (· < ·)) :
    ∀ operation ∈ script, operation.kind = kind ∧ operation.Fit := by
  intro operation hoperation
  have hkeys := h.keys_eq
  obtain ⟨worker, made, worker', hmake, hrun, hcarries⟩ := h
  obtain ⟨call, hcall, hcarried⟩ := exists_of_forall₂ hcarries hoperation
  obtain ⟨hkind, hne⟩ := Worker.run_calls (Worker.make_spec hmake).1 hk run.kinds
    (fun other hother => hmin.trans_le (run.insertedCount_bounds hk hother).1) hrun call hcall
  have hsub : List.Sublist operation.keys run.keys := by
    rw [← hkeys]
    exact List.sublist_flatten_of_mem (List.mem_map_of_mem hoperation)
  refine ⟨Option.some.inj (hcarried.kind_eq.symm.trans hkind), ?_, hascend.sublist hsub⟩
  rw [hcarried.keys_eq]
  exact hne

end InsertRun

/-- The calls of a load, each thread those of its script in their order. -/
structure Interleaves (scripts : List (List LoadOperation)) (calls : List LoadCall) : Prop where
  threads : ∀ call ∈ calls, call.thread < scripts.length
  own : ∀ (i : ℕ) (hi : i < scripts.length),
    (Interleaving.part LoadCall.thread calls i).map LoadCall.operation = scripts[i]

theorem Interleaves.perm {scripts : List (List LoadOperation)} {calls : List LoadCall}
    (h : Interleaves scripts calls) : (calls.map LoadCall.operation).Perm scripts.flatten :=
  Interleaving.perm_flatten h.threads h.own

section

variable {w : Workload} {kind : OperationKind} {threadsCount : UInt64}
  {runs : List (InsertRun w kind)} {scripts : List (List LoadOperation)}

/-- The entries of all scripts, in thread order. -/
def scriptEntries (scripts : List (List LoadOperation)) : List (UInt64 × Bytes) :=
  scripts.flatten.flatMap LoadOperation.entries

theorem map_fst_flatMap_entries (operations : List LoadOperation) :
    (operations.flatMap LoadOperation.entries).map Prod.fst =
      operations.flatMap LoadOperation.keys := by
  rw [List.map_flatMap]
  rfl

theorem scripts_keys (hscripts : List.Forall₂ InsertRun.CarriedOut runs scripts) :
    (scriptEntries scripts).map Prod.fst = runs.flatMap InsertRun.keys := by
  rw [scriptEntries, map_fst_flatMap_entries, ← List.flatMap_id, List.flatMap_assoc]
  exact (flatMap_eq_of_forall₂ (fun _ _ h => h.keys_eq.symm) hscripts).symm

/-- The keys of all threads ascend from thread to thread. -/
theorem runs_keys_pairwise (hw : w.InsertsOnlyBy kind)
    (hruns : runs.map InsertRun.slice = splitWorkloadIntoThreads w threadsCount)
    (hbound : w.startKey.toNat +
      insertCapacity w kind (splitWorkloadIntoThreads w threadsCount) ≤ 2 ^ 64) :
    (runs.flatMap InsertRun.keys).Pairwise (· < ·) :=
  (words_pairwise hbound).sublist (runs_keys_sublist hw hruns)

theorem scripts_fit (hmin : 0 < (w.minInsertLength kind).toNat) (hk : kind.Inserts)
    (hascend : (runs.flatMap InsertRun.keys).Pairwise (· < ·))
    (hscripts : List.Forall₂ InsertRun.CarriedOut runs scripts) :
    ∀ operation ∈ scripts.flatten, operation.kind = kind ∧ operation.Fit := by
  intro operation hoperation
  obtain ⟨script, hscript, hmem⟩ := List.mem_flatten.mp hoperation
  obtain ⟨run, hrun, hcarried⟩ :
      ∃ run ∈ runs, run.CarriedOut script := exists_of_forall₂ hscripts.flip hscript
  have hsub : List.Sublist run.keys (runs.flatMap InsertRun.keys) :=
    List.sublist_flatten_of_mem (List.mem_map_of_mem hrun)
  exact InsertRun.CarriedOut.fit hcarried hk hmin (hascend.sublist hsub) operation hmem

variable {calls : List LoadCall}

/-- Whatever the interleaving, an adapter that takes the operations does them all, and holds
the entries of all threads. -/
theorem LoadEngine.loads {σ : Type} (engine : LoadEngine σ) {s : σ} (hstart : engine.Holds s ∅)
    (hcalls : Interleaves scripts calls)
    (hnodup : ((scriptEntries scripts).map Prod.fst).Nodup)
    (hfit : ∀ operation ∈ scripts.flatten, operation.Fit)
    (haccepts : ∀ operation ∈ scripts.flatten, engine.Accepts operation) :
    (run engine.serve s calls).1 = calls.map (fun call => some call.operation.done) ∧
      engine.Holds (run engine.serve s calls).2 (SortedMap.putAll ∅ (scriptEntries scripts)) := by
  have hmem : ∀ call ∈ calls, call.operation ∈ scripts.flatten := fun call hcall =>
    hcalls.perm.subset (List.mem_map_of_mem hcall)
  have hentries : (calls.flatMap fun call => call.operation.entries).Perm
      (scriptEntries scripts) := by
    have hperm := hcalls.perm.flatMap_right LoadOperation.entries
    rwa [List.flatMap_map] at hperm
  have hkeys : (calls.flatMap fun call => call.operation.keys) =
      (calls.flatMap fun call => call.operation.entries).map Prod.fst := by
    rw [List.map_flatMap]
    rfl
  have hnodup' : (calls.flatMap fun call => call.operation.keys).Nodup := by
    rw [hkeys]
    exact (hentries.map Prod.fst).nodup_iff.mpr hnodup
  obtain ⟨hreplies, hholds⟩ := engine.run_spec hstart (fun call hcall => hfit _ (hmem call hcall))
    (fun call hcall => haccepts _ (hmem call hcall)) hnodup' fun _ _ => SortedMap.get_empty
  rw [SortedMap.putAll_perm (hkeys ▸ hnodup') hentries] at hholds
  exact ⟨hreplies, hholds⟩

/-- Every call is done, and the state after the calls meets a condition. -/
def LoadsTo {σ : Type} (serve : σ → LoadCall → Option OperationResult × σ) (s : σ)
    (calls : List LoadCall) (final : σ → Prop) : Prop :=
  (run serve s calls).1 = calls.map (fun call => some call.operation.done) ∧
    final (run serve s calls).2

/-- The threads of a load whose keys fit may interleave as they will: all their calls are done,
and every adapter holds the same map, of exactly the keys that the threads inserted with the
values they gave them. WiredTiger is to load without bulks, MongoDB with them; the bytes of a
call are to fit the offsets of UStore and Redis, and Redis is to load without batches. -/
theorem parallel_load (hvalid : ValidateWorkload w threadsCount) (hw : w.InsertsOnlyBy kind)
    (hruns : runs.map InsertRun.slice = splitWorkloadIntoThreads w threadsCount)
    (hbound : w.startKey.toNat +
      insertCapacity w kind (splitWorkloadIntoThreads w threadsCount) ≤ 2 ^ 64)
    (hscripts : List.Forall₂ InsertRun.CarriedOut runs scripts)
    (hcalls : Interleaves scripts calls) :
    let loaded : KeyMap := SortedMap.putAll ∅ (scriptEntries scripts)
    loaded.entries.Perm (scriptEntries scripts) ∧
      loaded.entries.map Prod.fst = runs.flatMap InsertRun.keys ∧
      (∀ threadId, LoadsTo (RocksDb.load threadId) { store := ∅ } calls fun db =>
        db.store = loaded.rekey bigEndianKey) ∧
      LoadsTo LevelDb.load { store := ∅ } calls (fun db => db.store = loaded.rekey keyBytes) ∧
      LoadsTo Lmdb.load { store := ∅ } calls (fun env =>
        env.store = loaded.rekey keyBytes ∧ env.openTxns = 0) ∧
      (kind ≠ .bulkLoad →
        LoadsTo WiredTiger.load { table := ∅ } calls fun db => db.table = loaded) ∧
      (kind = .bulkLoad → LoadsTo MongoDb.load { collection := ∅ } calls fun db =>
        db.collection = loaded.rekey makeOid) ∧
      ((∀ operation ∈ scripts.flatten, operation.values.length < 2 ^ 32) →
        LoadsTo UStore.load { store := ∅ } calls fun db => db.store = loaded.rekey ustoreKey) ∧
      (kind ≠ .batchUpsert → (∀ operation ∈ scripts.flatten, operation.values.length < 2 ^ 31) →
        LoadsTo Redis.load { hash := ∅ } calls fun db => db.hash = loaded.rekey keyBytes) := by
  intro loaded
  have hascend := runs_keys_pairwise hw hruns hbound
  have hkeys := scripts_keys hscripts
  have hpairwise : ((scriptEntries scripts).map Prod.fst).Pairwise (· < ·) := hkeys ▸ hascend
  have hnodup : ((scriptEntries scripts).map Prod.fst).Nodup := hpairwise.imp ne_of_lt
  have hfit := scripts_fit (hvalid.minInsertLength_pos hw) hw.inserts hascend hscripts
  have hfits : ∀ operation ∈ scripts.flatten, operation.Fit :=
    fun operation ho => (hfit operation ho).2
  have hperm := SortedMap.entries_putAll_perm hnodup
  refine ⟨hperm, ?_, ?_, ?_, ?_, ?_, ?_, ?_, ?_⟩
  · rw [← hkeys]
    exact (hperm.map Prod.fst).eq_of_pairwise (fun _ _ _ _ h h' => absurd h h'.asymm)
      (List.pairwise_map.mpr loaded.sorted) hpairwise
  · exact fun threadId => (RocksDb.loadEngine threadId).loads rfl hcalls hnodup hfits
      fun _ _ => trivial
  · exact LevelDb.loadEngine.loads rfl hcalls hnodup hfits fun _ _ => trivial
  · have hstart : Lmdb.loadEngine.Holds { store := ∅ } ∅ := ⟨rfl, rfl⟩
    obtain ⟨hreplies, hholds⟩ :=
      Lmdb.loadEngine.loads hstart hcalls hnodup hfits fun _ _ => trivial
    exact ⟨hreplies, hholds.store, hholds.closed⟩
  · intro hkind
    have hstart : WiredTiger.loadEngine.Holds { table := ∅ } ∅ := ⟨rfl, rfl⟩
    have haccepts : ∀ operation ∈ scripts.flatten, WiredTiger.loadEngine.Accepts operation := by
      rintro _ ho batch rfl
      exact hkind (hfit _ ho).1.symm
    obtain ⟨hreplies, hholds⟩ :=
      WiredTiger.loadEngine.loads hstart hcalls hnodup hfits haccepts
    exact ⟨hreplies, hholds.1⟩
  · intro hkind
    refine MongoDb.loadEngine.loads rfl hcalls hnodup hfits ?_
    intro operation ho
    have hbulk := (hfit operation ho).1.trans hkind
    cases operation with
    | upsert key value => cases hbulk
    | batchUpsert batch => cases hbulk
    | bulkLoad batch => exact ⟨batch, rfl⟩
  · intro hlength
    exact UStore.loadEngine.loads rfl hcalls hnodup hfits hlength
  · intro hkind hlength
    refine Redis.loadEngine.loads rfl hcalls hnodup hfits ?_
    intro operation ho
    refine ⟨?_, hlength operation ho⟩
    rintro batch rfl
    exact hkind (hfit _ ho).1.symm

end

/-- Eight bytes for each key. -/
def smallBatch (keys : List UInt64) : Batch :=
  { keys := keys
    values := List.replicate (8 * keys.length) 1
    sizes := List.replicate keys.length 8
    sizes_length := List.length_replicate
    sizes_sum := by simp [Nat.mul_comm] }

/-- The bulks of the small load, with bytes in their values. -/
def smallBulk (keys : List UInt64) : LoadOperation := .bulkLoad (smallBatch keys)

theorem smallScripts_carriedOut : List.Forall₂ InsertRun.CarriedOut smallLoadRuns
    [[smallBulk [5], smallBulk [6, 7]], [smallBulk [9, 10]]] := by
  refine .cons ⟨_, _, _, rfl, rfl, ?_⟩ (.cons ⟨_, _, _, rfl, rfl, ?_⟩ .nil)
  · exact .cons ⟨rfl, rfl, rfl⟩ (.cons ⟨rfl, rfl, rfl⟩ .nil)
  · exact .cons ⟨rfl, rfl, rfl⟩ .nil

theorem smallLoad_parallel :
    (SortedMap.putAll (∅ : KeyMap)
      (scriptEntries [[smallBulk [5], smallBulk [6, 7]], [smallBulk [9, 10]]])).entries.map
        Prod.fst = [5, 6, 7, 9, 10] ∧
      LoadsTo MongoDb.load { collection := ∅ }
        [⟨0, smallBulk [5]⟩, ⟨1, smallBulk [9, 10]⟩, ⟨0, smallBulk [6, 7]⟩] fun db =>
          db.collection = (SortedMap.putAll (∅ : KeyMap) (scriptEntries
            [[smallBulk [5], smallBulk [6, 7]], [smallBulk [9, 10]]])).rekey makeOid := by
  have hruns : smallLoadRuns.map InsertRun.slice = splitWorkloadIntoThreads smallLoad 2 := by
    decide
  have hcalls : Interleaves [[smallBulk [5], smallBulk [6, 7]], [smallBulk [9, 10]]]
      [⟨0, smallBulk [5]⟩, ⟨1, smallBulk [9, 10]⟩, ⟨0, smallBulk [6, 7]⟩] := by
    refine ⟨?_, ?_⟩
    · simp
    · intro i hi
      match i, hi with
      | 0, _ => rfl
      | 1, _ => rfl
  have hloaded := parallel_load smallLoad_validateWorkload smallLoad_insertsOnlyBy hruns
    (by decide) smallScripts_carriedOut hcalls
  exact ⟨hloaded.2.1, hloaded.2.2.2.2.2.2.1 rfl⟩

end Ucsb
