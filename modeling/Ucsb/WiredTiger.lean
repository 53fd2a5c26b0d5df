import Ucsb.AdapterLoops
import Ucsb.RequestRun

namespace Ucsb

open scoped WordBytes
open RequestRun

/-- A cursor opened for bulk loading: the last key that was inserted through it. -/
structure BulkCursor where
  lastKey : Option UInt64 := none

/-- The cursor takes keys in ascending order. -/
def BulkCursor.Accepts (cursor : BulkCursor) (key : UInt64) : Prop :=
  ∀ last ∈ cursor.lastKey, last < key

instance (cursor : BulkCursor) (key : UInt64) : Decidable (cursor.Accepts key) :=
  Option.decidableForallMem cursor.lastKey

/-- `insert` of a bulk cursor. -/
def BulkCursor.insert (cursor : BulkCursor) (table : KeyMap) (key : UInt64) (value : Bytes) :
    Int × BulkCursor × KeyMap :=
  if cursor.Accepts key then (0, { lastKey := some key }, table.put key value)
  else (22, cursor, table)

/-- `wiredtiger_t`: its table, the bulk cursor once a bulk load has opened it, and whether the
table is newly created: it has held no entry yet, and no bulk cursor has been opened on it. -/
structure WiredTiger where
  table : KeyMap
  bulkLoadCursor : Option BulkCursor := none
  newlyCreated : Bool := table.entries.isEmpty
  created_empty : newlyCreated → table.entries = [] := by simp

namespace WiredTiger

/-- `get_cursor` with `"bulk"`: a table that was emptied by removals is not good enough. -/
def getBulkCursor (db : WiredTiger) : Option BulkCursor :=
  if db.newlyCreated then some {} else none

/-- What a cursor without a configuration has made of the table. -/
def store (db : WiredTiger) (table : KeyMap) : WiredTiger :=
  { table := table
    bulkLoadCursor := db.bulkLoadCursor
    newlyCreated := db.newlyCreated && table.entries.isEmpty
    created_empty := by simp }

@[simp] theorem store_table (db : WiredTiger) (table : KeyMap) : (db.store table).table = table :=
  rfl

@[simp] theorem store_bulkLoadCursor (db : WiredTiger) (table : KeyMap) :
    (db.store table).bulkLoadCursor = db.bulkLoadCursor := rfl

/-- The loop of `bulk_load`, which drops what `insert` returns. -/
def bulkLoop : List (UInt64 × Bytes) → BulkCursor → KeyMap → BulkCursor × KeyMap
  | [], cursor, table => (cursor, table)
  | (key, value) :: rest, cursor, table =>
    let (_, cursor, table) := cursor.insert table key value
    bulkLoop rest cursor table

def bulkLoad (db : WiredTiger) (batch : Batch) : Reply UInt64 × WiredTiger :=
  match db.bulkLoadCursor.or db.getBulkCursor with
  | none => (.ofStatus .error, db)
  | some cursor =>
    let (cursor, table) := bulkLoop batch.slices cursor db.table
    ({ result := { entriesTouched := UInt64.ofNat batch.keys.length } },
      { table := table, bulkLoadCursor := some cursor, newlyCreated := false })

/-- The loop of `batch_upsert`; `results` is what the `insert` of each index returns. -/
def upsertLoop (results : ℕ → Int) :
    ℕ → List (UInt64 × Bytes) → UInt64 → KeyMap → UInt64 × KeyMap
  | _, [], upserted, table => (upserted, table)
  | idx, (key, value) :: rest, upserted, table =>
    if results idx = 0 then upsertLoop results (idx + 1) rest (upserted + 1) (table.put key value)
    else upsertLoop results (idx + 1) rest upserted table

/-- No other cursor opens while the bulk cursor is open. -/
def batchUpsert (db : WiredTiger) (results : ℕ → Int) (batch : Batch) :
    Reply UInt64 × WiredTiger :=
  if db.bulkLoadCursor.isSome then (.ofStatus .error, db)
  else
    let (upserted, table) := upsertLoop results 0 batch.slices 0 db.table
    ({ result := { entriesTouched := upserted } }, db.store table)

variable {db : WiredTiger} {batch : Batch} {results : ℕ → Int} {cursor : BulkCursor}
  {table : KeyMap} {entries : List (UInt64 × Bytes)} {key : UInt64}

/-- All keys of a batch are mapped to their values. -/
def Stored (table : KeyMap) (entries : List (UInt64 × Bytes)) : Prop :=
  ∀ e ∈ entries, table.get e.1 = some e.2

/-- A bulk that is reported as loaded is stored. -/
def BulkTruthful (db : WiredTiger) (batch : Batch) : Prop :=
  (db.bulkLoad batch).1.result = { entriesTouched := UInt64.ofNat batch.keys.length } →
    Stored (db.bulkLoad batch).2.table batch.entries

/-- A batch that is reported as upserted is stored. -/
def UpsertTruthful (db : WiredTiger) (results : ℕ → Int) (batch : Batch) : Prop :=
  (db.batchUpsert results batch).1.result.status = .ok →
    Stored (db.batchUpsert results batch).2.table batch.entries

theorem bulkLoop_accept {value : Bytes} (h : cursor.Accepts key) :
    bulkLoop ((key, value) :: entries) cursor table =
      bulkLoop entries { lastKey := some key } (table.put key value) := by
  rw [bulkLoop, BulkCursor.insert, if_pos h]

theorem bulkLoop_reject {value : Bytes} (h : ¬cursor.Accepts key) :
    bulkLoop ((key, value) :: entries) cursor table = bulkLoop entries cursor table := by
  rw [bulkLoop, BulkCursor.insert, if_neg h]

theorem bulkLoop_frame (h : ∀ e ∈ entries, e.1 ≠ key) :
    (bulkLoop entries cursor table).2.get key = table.get key := by
  induction entries generalizing cursor table with
  | nil => rfl
  | cons e entries ih =>
    obtain ⟨k, v⟩ := e
    rw [List.forall_mem_cons] at h
    by_cases haccept : cursor.Accepts k
    · rw [bulkLoop_accept haccept, ih h.2, SortedMap.get_put, if_neg h.1.symm]
    · rw [bulkLoop_reject haccept, ih h.2]

/-- A key of an ascending bulk ends up with its value if the cursor accepts it, or if it
had that value before. -/
theorem bulkLoop_get_iff (hascend : (entries.map Prod.fst).Pairwise (· < ·))
    {e : UInt64 × Bytes} (he : e ∈ entries) :
    (bulkLoop entries cursor table).2.get e.1 = some e.2 ↔
      cursor.Accepts e.1 ∨ table.get e.1 = some e.2 := by
  induction entries generalizing cursor table with
  | nil => simp at he
  | cons first entries ih =>
    obtain ⟨k, v⟩ := first
    rw [List.map_cons, List.pairwise_cons] at hascend
    have hafter : ∀ e ∈ entries, k < e.1 := fun e he =>
      hascend.1 e.1 (List.mem_map_of_mem he)
    have hframe : ∀ cursor table, (bulkLoop entries cursor table).2.get k = table.get k :=
      fun _ _ => bulkLoop_frame fun e he => (hafter e he).ne'
    by_cases haccept : cursor.Accepts k
    · rw [bulkLoop_accept haccept]
      rcases List.mem_cons.mp he with rfl | he
      · rw [hframe, SortedMap.get_put_self]
        exact iff_of_true rfl (.inl haccept)
      · have hlt := hafter e he
        rw [ih hascend.2 he]
        refine iff_of_true (.inl ?_) (.inl ?_)
        · intro last hlast
          cases hlast
          exact hlt
        · exact fun last hlast => (haccept last hlast).trans hlt
    · rw [bulkLoop_reject haccept]
      rcases List.mem_cons.mp he with rfl | he
      · rw [hframe]
        exact (or_iff_right haccept).symm
      · exact ih hascend.2 he

/-- The bulk cursor a call inserts through, if there is one. -/
def usedCursor (db : WiredTiger) : Option BulkCursor := db.bulkLoadCursor.or db.getBulkCursor

/-- A bulk load reports the truth if and only if its keys lie above all keys inserted through
the cursor before, but for those that had their value already. -/
theorem bulkTruthful_iff (hascend : batch.keys.Pairwise (· < ·)) :
    db.BulkTruthful batch ↔ ∀ cursor ∈ db.usedCursor, ∀ e ∈ batch.entries,
      cursor.Accepts e.1 ∨ db.table.get e.1 = some e.2 := by
  rw [← batch.entries_keys] at hascend
  rw [BulkTruthful, bulkLoad, usedCursor]
  cases db.bulkLoadCursor.or db.getBulkCursor with
  | none =>
    apply iff_of_true
    · intro h
      have hstatus : OperationStatus.error = .ok := congrArg OperationResult.status h
      cases hstatus
    · intro cursor hcursor
      cases hcursor
  | some cursor =>
    simp only [forall_const, Batch.slices_eq, Option.mem_some, forall_eq']
    exact forall₂_congr fun e he => bulkLoop_get_iff hascend he

theorem bulkLoop_all (hascend : (entries.map Prod.fst).Pairwise (· < ·))
    (haccept : ∀ e ∈ entries, cursor.Accepts e.1) :
    bulkLoop entries cursor table =
      ({ lastKey := (entries.map Prod.fst).getLast?.or cursor.lastKey }, table.putAll entries) := by
  induction entries generalizing cursor table with
  | nil => rfl
  | cons first entries ih =>
    obtain ⟨k, v⟩ := first
    rw [List.map_cons, List.pairwise_cons] at hascend
    rw [List.forall_mem_cons] at haccept
    have hnext : ∀ e ∈ entries, ({ lastKey := some k } : BulkCursor).Accepts e.1 := by
      intro e he last hlast
      cases hlast
      exact hascend.1 e.1 (List.mem_map_of_mem he)
    rw [bulkLoop_accept haccept.1, ih hascend.2 hnext, SortedMap.putAll_cons, List.map_cons,
      List.getLast?_cons]
    cases (entries.map Prod.fst).getLast? with
    | none => rfl
    | some last => rfl

/-- These keys have been loaded through the cursor, and are the keys of the table. -/
structure LoadedThrough (db : WiredTiger) (done : List UInt64) : Prop where
  cursor : db.usedCursor = some { lastKey := done.getLast? }
  keys : ∀ key, key ∉ done → db.table.get key = none

theorem accepts_getLast_iff {done : List UInt64} (hdone : done.Pairwise (· < ·)) :
    ({ lastKey := done.getLast? } : BulkCursor).Accepts key ↔ ∀ a ∈ done, a < key := by
  constructor
  · intro h a ha
    obtain ⟨last, hlast⟩ := Option.isSome_iff_exists.mp
      (List.getLast?_isSome.mpr (List.ne_nil_of_mem ha))
    have hsplit := List.dropLast_append_getLast? last hlast
    rw [← hsplit, List.pairwise_append] at hdone
    rw [← hsplit, List.mem_append] at ha
    have hbelow := h last hlast
    rcases ha with ha | ha
    · exact (hdone.2.2 a ha last (List.mem_singleton_self last)).trans hbelow
    · rwa [List.mem_singleton.mp ha]
  · intro h last hlast
    exact h last (List.mem_of_getLast? hlast)

theorem LoadedThrough.step {done : List UInt64} (h : db.LoadedThrough done)
    (hascend : (done ++ batch.keys).Pairwise (· < ·)) :
    (db.bulkLoad batch).2.LoadedThrough (done ++ batch.keys) := by
  rw [List.pairwise_append] at hascend
  have hkeys := hascend.2.1
  rw [← batch.entries_keys] at hkeys
  have haccept : ∀ e ∈ batch.entries,
      ({ lastKey := done.getLast? } : BulkCursor).Accepts e.1 := by
    intro e he
    refine (accepts_getLast_iff hascend.1).mpr fun a ha => hascend.2.2 a ha e.1 ?_
    rw [← batch.entries_keys]
    exact List.mem_map_of_mem he
  have hload : (db.bulkLoad batch).2 =
      { table := db.table.putAll batch.entries
        bulkLoadCursor := some ⟨(done ++ batch.keys).getLast?⟩
        newlyCreated := false } := by
    have hcursor : db.bulkLoadCursor.or db.getBulkCursor = some { lastKey := done.getLast? } :=
      h.cursor
    rw [bulkLoad, hcursor]
    simp only [Batch.slices_eq, bulkLoop_all hkeys haccept, batch.entries_keys,
      List.getLast?_append]
  rw [hload]
  refine ⟨rfl, ?_⟩
  intro key hkey
  rw [List.mem_append, not_or] at hkey
  show (db.table.putAll batch.entries).get key = none
  rw [SortedMap.get_putAll_of_not_mem, h.keys key hkey.1]
  rintro e he rfl
  apply hkey.2
  rw [← batch.entries_keys]
  exact List.mem_map_of_mem he

/-- When no key comes twice, a bulk load tells the truth if and only if its keys continue
those before in ascending order. -/
theorem LoadedThrough.truthful_iff {done : List UInt64} (h : db.LoadedThrough done)
    (hdone : done.Pairwise (· < ·)) (hascend : batch.keys.Pairwise (· < ·))
    (hnodup : (done ++ batch.keys).Nodup) :
    db.BulkTruthful batch ↔ (done ++ batch.keys).Pairwise (· < ·) := by
  have hfresh : ∀ e ∈ batch.entries, db.table.get e.1 = none := by
    intro e he
    have hmem : e.1 ∈ batch.keys := by
      rw [← batch.entries_keys]
      exact List.mem_map_of_mem he
    exact h.keys e.1 fun hin => (List.disjoint_of_nodup_append hnodup) hin hmem
  rw [bulkTruthful_iff hascend, h.cursor, List.pairwise_append]
  simp only [Option.mem_some, forall_eq', accepts_getLast_iff hdone, hdone, hascend, true_and]
  constructor
  · intro haccept a ha b hb
    rw [← batch.entries_keys] at hb
    obtain ⟨e, he, rfl⟩ := List.mem_map.mp hb
    rcases haccept e he with hlt | hstored
    · exact hlt a ha
    · rw [hfresh e he] at hstored
      cases hstored
  · intro hlt e he
    refine .inl fun a ha => hlt a ha e.1 ?_
    rw [← batch.entries_keys]
    exact List.mem_map_of_mem he

theorem LoadedThrough.run_iff {done : List UInt64} {batches : List Batch}
    (h : db.LoadedThrough done) (hdone : done.Pairwise (· < ·))
    (hascend : ∀ batch ∈ batches, batch.keys.Pairwise (· < ·))
    (hnodup : (done ++ batches.flatMap Batch.keys).Nodup) :
    Throughout bulkLoad BulkTruthful db batches ↔
      (done ++ batches.flatMap Batch.keys).Pairwise (· < ·) := by
  induction batches generalizing db done with
  | nil => exact iff_of_true trivial (by simpa using hdone)
  | cons batch batches ih =>
    rw [List.forall_mem_cons] at hascend
    rw [List.flatMap_cons, ← List.append_assoc] at hnodup ⊢
    have hfirst := h.truthful_iff hdone hascend.1 (List.Nodup.of_append_left hnodup)
    rw [Throughout, hfirst]
    constructor
    · rintro ⟨hsofar, hrest⟩
      exact (ih (h.step hsofar) hsofar hascend.2 hnodup).mp hrest
    · intro hall
      have hsofar := (List.pairwise_append.mp hall).1
      exact ⟨hsofar, (ih (h.step hsofar) hsofar hascend.2 hnodup).mpr hall⟩

theorem upsertLoop_frame {idx : ℕ} {upserted : UInt64} (h : ∀ e ∈ entries, e.1 ≠ key) :
    (upsertLoop results idx entries upserted table).2.get key = table.get key := by
  induction entries generalizing idx upserted table with
  | nil => rfl
  | cons e entries ih =>
    obtain ⟨k, v⟩ := e
    rw [List.forall_mem_cons] at h
    rw [upsertLoop]
    split
    next => rw [ih h.2, SortedMap.get_put, if_neg h.1.symm]
    next => exact ih h.2

/-- The loop stores every key whose insert succeeds, and leaves the others as they were. -/
theorem upsertLoop_stored_iff {idx : ℕ} {upserted : UInt64}
    (hnodup : (entries.map Prod.fst).Nodup) :
    Stored (upsertLoop results idx entries upserted table).2 entries ↔
      ∀ i e, entries[i]? = some e → results (idx + i) = 0 ∨ table.get e.1 = some e.2 := by
  induction entries generalizing idx upserted table with
  | nil => simp [Stored]
  | cons first entries ih =>
    obtain ⟨k, v⟩ := first
    rw [List.map_cons, List.nodup_cons] at hnodup
    have hother : ∀ e ∈ entries, e.1 ≠ k := by
      intro e he heq
      exact hnodup.1 (List.mem_map.mpr ⟨e, he, heq⟩)
    have hsplit : (∀ i e, ((k, v) :: entries)[i]? = some e →
          results (idx + i) = 0 ∨ table.get e.1 = some e.2) ↔
        (results idx = 0 ∨ table.get k = some v) ∧ ∀ i e, entries[i]? = some e →
          results (idx + 1 + i) = 0 ∨ table.get e.1 = some e.2 := by
      constructor
      · intro h
        refine ⟨h 0 (k, v) rfl, fun i e he => ?_⟩
        have hi := h (i + 1) e he
        rwa [← Nat.add_assoc, Nat.add_right_comm] at hi
      · rintro ⟨hfirst, hrest⟩ i e he
        cases i with
        | zero =>
          cases Option.some.inj he
          exact hfirst
        | succ i =>
          have hi := hrest i e he
          rwa [Nat.add_right_comm, Nat.add_assoc] at hi
    rw [hsplit, Stored, List.forall_mem_cons, upsertLoop]
    split
    next hok =>
      rw [upsertLoop_frame hother, SortedMap.get_put_self]
      refine and_congr (iff_of_true rfl (.inl hok)) ((ih hnodup.2).trans ?_)
      refine forall₂_congr fun i e => imp_congr_right fun he => ?_
      rw [SortedMap.get_put, if_neg (hother e (List.mem_of_getElem? he))]
    next hfailed =>
      rw [upsertLoop_frame hother]
      exact and_congr (or_iff_right hfailed).symm (ih hnodup.2)

/-- A batch upsert tells the truth if and only if every key whose insert fails had its value
already. -/
theorem upsertTruthful_iff (hnodup : batch.keys.Nodup) :
    db.UpsertTruthful results batch ↔ db.bulkLoadCursor.isSome ∨
      ∀ i e, batch.entries[i]? = some e → results i = 0 ∨ db.table.get e.1 = some e.2 := by
  rw [← batch.entries_keys] at hnodup
  rw [UpsertTruthful, batchUpsert]
  split
  next hopen =>
    apply iff_of_true _ (.inl hopen)
    intro h
    cases h
  next hclosed =>
    have hstored : Stored (upsertLoop results 0 batch.entries 0 db.table).2 batch.entries ↔
        ∀ i e, batch.entries[i]? = some e → results (0 + i) = 0 ∨ db.table.get e.1 = some e.2 :=
      upsertLoop_stored_iff hnodup
    simp only [Nat.zero_add] at hstored
    rw [or_iff_right hclosed, ← hstored, Batch.slices_eq]
    exact ⟨fun h => h rfl, fun h _ => h⟩

/-- In any state a bulk load of ascending keys reports the truth if and only if each of
them lies above all keys inserted through the cursor, or had its value already. When no key
is loaded twice, all calls on an empty table do so if and only if the keys of all calls
ascend in their order. A batch upsert does so if and only if each key whose insert fails
had its value already. -/
theorem wiredTiger_truthful_iff (db : WiredTiger) (results : ℕ → Int)
    {bulk upserted : Batch} {bulks : List Batch} (hbulk : bulk.keys.Pairwise (· < ·))
    (hascend : ∀ batch ∈ bulks, batch.keys.Pairwise (· < ·))
    (hnodup : (bulks.flatMap Batch.keys).Nodup) (hdistinct : upserted.keys.Nodup) :
    (BulkTruthful db bulk ↔ ∀ cursor ∈ db.usedCursor, ∀ e ∈ bulk.entries,
      cursor.Accepts e.1 ∨ db.table.get e.1 = some e.2) ∧
    (Throughout bulkLoad BulkTruthful { table := ∅ } bulks ↔
      (bulks.flatMap Batch.keys).Pairwise (· < ·)) ∧
    (UpsertTruthful db results upserted ↔ db.bulkLoadCursor.isSome ∨
      ∀ i e, upserted.entries[i]? = some e → results i = 0 ∨ db.table.get e.1 = some e.2) := by
  refine ⟨bulkTruthful_iff hbulk, ?_, upsertTruthful_iff hdistinct⟩
  have hstart : LoadedThrough { table := ∅ } [] := ⟨rfl, fun _ _ => rfl⟩
  exact hstart.run_iff .nil hascend hnodup

/-- Two bulks in ascending order, and a batch whose inserts succeed. -/
theorem wiredTiger_truthful_in_order :
    let low : Batch :=
      { keys := [1, 2], values := [7, 8], sizes := [1, 1], sizes_length := rfl, sizes_sum := rfl }
    let high : Batch :=
      { keys := [3], values := [9], sizes := [1], sizes_length := rfl, sizes_sum := rfl }
    Throughout bulkLoad BulkTruthful { table := ∅ } [low, high] ∧
      BulkTruthful { table := ∅ } low ∧ UpsertTruthful { table := ∅ } (fun _ => 0) low := by
  intro low high
  have htruthful := wiredTiger_truthful_iff { table := ∅ } (fun _ => 0)
    (show low.keys.Pairwise (· < ·) by decide)
    (show ∀ batch ∈ [low, high], batch.keys.Pairwise (· < ·) by decide) (by decide)
    (show low.keys.Nodup by decide)
  refine ⟨htruthful.2.1.mpr (by decide), htruthful.1.mpr ?_, htruthful.2.2.mpr ?_⟩
  · rintro cursor hcursor e -
    cases hcursor
    refine .inl ?_
    rintro last hlast
    cases hlast
  · exact .inr fun _ _ _ => .inl rfl

/-- The bulk of the thread with the lower keys comes second and is lost; so is a batch
whose inserts fail. -/
theorem wiredTiger_reports_lost_keys :
    let low : Batch :=
      { keys := [1, 2], values := [7, 8], sizes := [1, 1], sizes_length := rfl, sizes_sum := rfl }
    let high : Batch :=
      { keys := [3, 4], values := [9, 9], sizes := [1, 1], sizes_length := rfl, sizes_sum := rfl }
    let loaded := (bulkLoad { table := ∅ } high).2
    ¬BulkTruthful loaded low ∧ ¬UpsertTruthful { table := ∅ } (fun _ => 22) low := by
  intro low high loaded
  constructor
  · intro h
    have hstored := h rfl (1, [7]) List.mem_cons_self
    revert hstored
    decide +kernel
  · intro h
    have hstored := h rfl (1, [7]) List.mem_cons_self
    revert hstored
    decide +kernel

end WiredTiger

end Ucsb
