import Ucsb.UStoreScan
import Ucsb.UStoreUpdate
import Ucsb.BatchOffsets

namespace Ucsb

open scoped WordBytes
open RequestRun

/-- The bytes that a loop over read values copies of one: none for the length that means that a
key is missing, and else as many as the length says. -/
def presentBytes (value : Bytes) : Option Bytes :=
  let length := UInt32.ofNat value.length
  if length = ustoreLengthMissing then none else some (value.take length.toNat)

/-- The common body of `batch_read`, whose keys are read at once. -/
def ustoreBatchRead (store : UStoreMap) (keys : List UInt64) : Reply ℤ :=
  let reply : Reply ℤ := getLoop (fun key => (store.get (ustoreKey key)).bind presentBytes) 0 0 keys
  let status := if 0 < reply.result.entriesTouched then OperationStatus.ok else .notFound
  { reply with result := { reply.result with status := status } }

/-- The loop that copies the values of a range. -/
def ustoreCopies : ℕ → List Bytes → List Copy
  | _, [] => []
  | offset, value :: values =>
    match presentBytes value with
    | none => ustoreCopies offset values
    | some data => { offset := offset, data := data } :: ustoreCopies (offset + data.length) values

/-- The common body of `range_select`: a scan, and a read of what it found. -/
def ustoreRangeSelect (store : UStoreMap) (key length : UInt64) : Reply ℤ :=
  let len := length.toUInt32
  let found := (store.seek (ustoreKey key)).take len.toNat
  let foundCounts := UInt32.ofNat found.length
  { result :=
      { entriesTouched := foundCounts.toUInt64
        status := if 0 < foundCounts then .ok else .notFound }
    copies := ustoreCopies 0 (found.map Prod.snd)
    visited := found }

/-- A request, and the memory that a batch is written from. -/
structure UStoreCall where
  request : DataRequest
  memory : ℤ → UInt8

/-- No call of the engine fails. -/
def succeeding : ℕ → Bool × Bool := fun _ => (true, true)

def UStore.serve (db : UStore) (call : UStoreCall) : Except ScanFault (Reply ℤ) × UStore :=
  match call.request with
  | .data (.point operation) => (.ok (db.pointStep operation).1, (db.pointStep operation).2)
  | .data (.batchUpsert batch) | .data (.bulkLoad batch) =>
    let (reply, db) := db.batchUpsert call.memory batch.keys batch.sizes
    (.ok reply, db)
  | .data (.rangeSelect key length) => (.ok (ustoreRangeSelect db.store key length), db)
  | .data (.scan key length) => (db.scan succeeding key length, db)
  | .batchRead keys => (.ok (ustoreBatchRead db.store keys), db)

def UStoreTransaction.serve (t : UStoreTransaction) (call : UStoreCall) :
    Except ScanFault (Reply ℤ) × UStoreTransaction :=
  match call.request with
  | .data (.point operation) => (.ok (t.pointStep operation).1, (t.pointStep operation).2)
  | .data (.batchUpsert batch) | .data (.bulkLoad batch) =>
    let (reply, t) := t.batchUpsert call.memory batch.keys batch.sizes
    (.ok reply, t)
  | .data (.rangeSelect key length) => (.ok (ustoreRangeSelect t.view key length), t)
  | .data (.scan key length) => (t.scan succeeding key length, t)
  | .batchRead keys => (.ok (ustoreBatchRead t.view keys), t)

/-- The word of a signed key. -/
def signedWord (key : ℤ) : UInt64 := (Int64.ofInt key).toUInt64

/-- The first entries from a key on, in the order of the signed keys. -/
def signedEntries (m : KeyMap) (key length : UInt64) : List (UInt64 × Bytes) :=
  (((m.rekey ustoreKey).seek (ustoreKey key)).take length.toNat).map (Prod.map signedWord id)

/-- The bytes have a length of their own. -/
def FitsLength (value : Bytes) : Prop := value.length < 2 ^ 32 - 1

namespace UStoreCall

/-- Batches lie in memory that their offsets can point into. -/
def Admitted (call : UStoreCall) : Prop :=
  match call.request with
  | .data (.batchUpsert batch) | .data (.bulkLoad batch) =>
    batch.InMemory call.memory ∧ batch.values.length < 2 ^ 32
  | .batchRead keys => keys.length < 2 ^ 64
  | _ => True

/-- A map over integer keys whose queries go by the signed keys. -/
def signedStep (m : KeyMap) (call : UStoreCall) : Reply UInt64 × KeyMap :=
  match call.request with
  | .data (.point operation) => pointStep .ok m operation
  | .data (.batchUpsert batch) | .data (.bulkLoad batch) => batchStep m batch
  | .data (.rangeSelect key length) =>
    (rangeReply (consecutiveCopies 0) (signedEntries m key length), m)
  | .data (.scan key length) => (rangeReply overlaidCopies (signedEntries m key length), m)
  | .batchRead keys => (foundReply m.get keys, m)

/-- What the adapters get right: values whose length fits, updates of keys that are there, and
queries that find something and whose length fits as well. -/
def Served (m : KeyMap) (call : UStoreCall) : Prop :=
  match call.request with
  | .data (.point (.upsert _ value)) => value.length < 2 ^ 32
  | .data (.point (.update key value)) => m.get key ≠ none ∧ value.length < 2 ^ 32
  | .data (.point (.remove _)) => True
  | .data (.point (.read key)) => ∀ value, m.get key = some value → FitsLength value
  | .data (.batchUpsert _) | .data (.bulkLoad _) => True
  | .data (.rangeSelect key length) =>
    (length.toNat < 2 ^ 32 ∨
        ((m.rekey ustoreKey).seek (ustoreKey key)).length ≤ length.toNat % 2 ^ 32) ∧
      signedEntries m key length ≠ [] ∧ ∀ e ∈ signedEntries m key length, FitsLength e.2
  | .data (.scan key length) =>
    Scannable (m.rekey ustoreKey) key length ∧
      signedEntries m key length ≠ [] ∧ ∀ e ∈ signedEntries m key length, FitsLength e.2
  | .batchRead keys =>
    foundValues m.get keys ≠ [] ∧ ∀ value ∈ foundValues m.get keys, FitsLength value

end UStoreCall

variable {m : KeyMap} {value : Bytes} {values : List Bytes} {key length : UInt64}

theorem toNat_length (value : Bytes) :
    (UInt32.ofNat value.length).toNat = value.length % 2 ^ 32 := UInt32.toNat_ofNat'

/-- A value is copied as it is exactly when its length fits. -/
theorem presentBytes_eq_iff : presentBytes value = some value ↔ FitsLength value := by
  have hlength := toNat_length value
  have hmissing : ustoreLengthMissing.toNat = 2 ^ 32 - 1 := rfl
  unfold presentBytes FitsLength
  dsimp only
  split
  next heq =>
    refine iff_of_false (by simp) fun hfits => ?_
    rw [heq, hmissing] at hlength
    omega
  next hne =>
    rw [← UInt32.toNat_inj, hlength, hmissing] at hne
    rw [Option.some.injEq, List.take_eq_self_iff, hlength]
    omega

/-- All values are copied as they are exactly when all lengths fit. -/
theorem filterMap_present_iff :
    values.filterMap presentBytes = values ↔ ∀ value ∈ values, FitsLength value := by
  induction values with
  | nil => simp
  | cons value values ih =>
    rw [List.forall_mem_cons, ← presentBytes_eq_iff, ← ih]
    cases hpresent : presentBytes value with
    | none =>
      refine iff_of_false (fun heq => ?_) fun hboth => by cases hboth.1
      have hle := List.length_filterMap_le presentBytes values
      rw [List.filterMap_cons_none hpresent] at heq
      rw [heq, List.length_cons] at hle
      omega
    | some data => rw [List.filterMap_cons_some hpresent, List.cons.injEq, Option.some.injEq]

theorem ustoreCopies_eq (offset : ℕ) (values : List Bytes) :
    ustoreCopies offset values = consecutiveCopies offset (values.filterMap presentBytes) := by
  induction values generalizing offset with
  | nil => rfl
  | cons value values ih =>
    rw [ustoreCopies]
    cases hpresent : presentBytes value with
    | none =>
      rw [List.filterMap_cons_none hpresent]
      exact ih offset
    | some data =>
      rw [List.filterMap_cons_some hpresent, consecutiveCopies, ← ih]

theorem map_data_consecutiveCopies (offset : ℕ) (values : List Bytes) :
    (consecutiveCopies offset values).map Copy.data = values := by
  induction values generalizing offset with
  | nil => rfl
  | cons value values ih => rw [consecutiveCopies, List.map_cons, ih]

theorem consecutiveCopies_inj {offset : ℕ} {others : List Bytes} :
    consecutiveCopies offset values = consecutiveCopies offset others ↔ values = others := by
  refine ⟨fun heq => ?_, fun heq => by rw [heq]⟩
  rw [← map_data_consecutiveCopies offset values, heq, map_data_consecutiveCopies]

theorem ustoreKey_signedWord (word : UInt64) : signedWord (ustoreKey word) = word := by
  rw [signedWord, ustoreKey, Int64.ofInt_toInt, UInt64.toUInt64_toInt64]

/-- The engine visits the entries of the map in the order of the signed keys. -/
theorem encode_signedEntries (m : KeyMap) (key length : UInt64) :
    (signedEntries m key length).map (Prod.map ustoreKey id) =
      ((m.rekey ustoreKey).seek (ustoreKey key)).take length.toNat := by
  have hback : ∀ e ∈ ((m.rekey ustoreKey).seek (ustoreKey key)).take length.toNat,
      (Prod.map ustoreKey id ∘ Prod.map signedWord id) e = e := by
    intro e he
    have hmem := (SortedMap.mem_seek.mp (List.mem_of_mem_take he)).1
    obtain ⟨⟨word, value⟩, -, rfl⟩ := (SortedMap.mem_rekey ustoreKey_injective).mp hmem
    simp [ustoreKey_signedWord]
  rw [signedEntries, List.map_map, List.map_congr_left hback, List.map_id']

theorem values_signedEntries (m : KeyMap) (key length : UInt64) :
    (((m.rekey ustoreKey).seek (ustoreKey key)).take length.toNat).map Prod.snd =
      (signedEntries m key length).map Prod.snd := by
  rw [← encode_signedEntries, List.map_map]
  rfl

theorem ustoreKey_small {word : UInt64} (h : word.toNat < 2 ^ 63) :
    ustoreKey word = word.toNat := by
  rw [ustoreKey, Int64.toInt, UInt64.toBitVec_toInt64, BitVec.toInt_eq_toNat_of_lt]
  · rfl
  · change 2 * word.toNat < _
    omega

/-- Below the half of the words the signed keys are in the order of the keys. -/
theorem signedEntries_eq_first (hkeys : ∀ e ∈ m.entries, e.1.toNat < 2 ^ 63)
    (hkey : key.toNat < 2 ^ 63) : signedEntries m key length = firstEntries m key length := by
  have hentries : (m.rekey ustoreKey).entries = m.entries.map (Prod.map ustoreKey id) := by
    apply SortedMap.entries_rekey
    intro a ha b hb hlt
    rw [ustoreKey_small (hkeys a ha), ustoreKey_small (hkeys b hb)]
    exact Nat.cast_lt.mpr (UInt64.lt_iff_toNat_lt.mp hlt)
  have hseek : (m.rekey ustoreKey).seek (ustoreKey key) =
      (m.seek key).map (Prod.map ustoreKey id) := by
    rw [SortedMap.seek, hentries, List.filter_map, SortedMap.seek]
    congr 1
    apply List.filter_congr
    intro e he
    simp [ustoreKey_small (hkeys e he), ustoreKey_small hkey, UInt64.le_iff_toNat_le]
  have hback : ∀ e ∈ (m.seek key).take length.toNat,
      (Prod.map signedWord id ∘ Prod.map ustoreKey id) e = e := by
    rintro ⟨word, value⟩ -
    exact Prod.ext (ustoreKey_signedWord word) rfl
  rw [signedEntries, hseek, ← List.map_take, List.map_map, List.map_congr_left hback, List.map_id']
  rfl

/-- What an operation on a single key comes to in both adapters. -/
def ustorePoint (store : UStoreMap) : PointOperation → Reply ℤ × UStoreMap
  | .upsert key value | .update key value => (.ofStatus .ok, written store key value)
  | .remove key => (.ofStatus .ok, store.erase (ustoreKey key))
  | .read key => (ustoreReadReply store key, store)

/-- What a call comes to in both adapters. -/
def ustoreServed (store : UStoreMap) (call : UStoreCall) :
    Except ScanFault (Reply ℤ) × UStoreMap :=
  match call.request with
  | .data (.point operation) =>
    (.ok (ustorePoint store operation).1, (ustorePoint store operation).2)
  | .data (.batchUpsert batch) | .data (.bulkLoad batch) =>
    (.ok { result := { entriesTouched := UInt64.ofNat batch.keys.length } },
      (ustoreWriteAll call.memory (ustorePieces batch.keys batch.sizes) store).2)
  | .data (.rangeSelect key length) => (.ok (ustoreRangeSelect store key length), store)
  | .data (.scan key length) => (ustoreScan store succeeding key length, store)
  | .batchRead keys => (.ok (ustoreBatchRead store keys), store)

theorem UStore.serve_eq (db : UStore) (call : UStoreCall) : db.serve call =
    ((ustoreServed db.store call).1, { store := (ustoreServed db.store call).2 }) := by
  obtain ⟨request, memory⟩ := call
  cases request with
  | batchRead keys => rfl
  | data operation =>
    cases operation with
    | point operation =>
      cases operation with
      | update key value =>
        change (Except.ok (db.update key value).1, (db.update key value).2) = _
        rw [update_spec]
        rfl
      | _ => rfl
    | _ => rfl

theorem UStoreTransaction.serve_eq (t : UStoreTransaction) (call : UStoreCall) : t.serve call =
    ((ustoreServed t.view call).1, { t with view := (ustoreServed t.view call).2 }) := by
  obtain ⟨request, memory⟩ := call
  cases request with
  | batchRead keys => rfl
  | data operation =>
    cases operation with
    | point operation =>
      cases operation with
      | update key value =>
        change (Except.ok (t.update key value).1, (t.update key value).2) = _
        rw [update_spec]
        rfl
      | _ => rfl
    | _ => rfl

theorem written_rekey_iff : written (m.rekey ustoreKey) key value =
    (m.put key value).rekey ustoreKey ↔ value.length < 2 ^ 32 := by
  rw [SortedMap.rekey_put ustoreKey_injective, written_eq_iff]

theorem readReply_iff : ustoreReadReply (m.rekey ustoreKey) key =
    (pointStep .ok m (.read key)).1.encode ustoreKey ↔
      ∀ value, m.get key = some value → FitsLength value := by
  rw [ustoreReadReply, ustoreRead, SortedMap.get_rekey ustoreKey_injective, pointStep]
  cases hget : m.get key with
  | none => exact iff_of_true rfl fun _ heq => by cases heq
  | some old =>
    have hsome : (∀ value, some old = some value → FitsLength value) ↔ FitsLength old := by simp
    rw [hsome, ← presentBytes_eq_iff, presentBytes]
    change (if UInt32.ofNat old.length = ustoreLengthMissing then Reply.ofStatus .notFound
      else { Reply.ofStatus .ok with copies := [_] }) = _ ↔ _
    dsimp only
    split
    next =>
      refine iff_of_false (fun heq => ?_) (by simp)
      cases congrArg (fun reply => reply.result.status) heq
    next => simp [Reply.encode, Reply.ofStatus]

/-- The point operations of the adapters follow the map exactly when they are served. -/
theorem ustorePoint_iff (memory : ℤ → UInt8) (operation : PointOperation) :
    ustorePoint (m.rekey ustoreKey) operation =
        ((pointStep .ok m operation).1.encode ustoreKey,
          (pointStep .ok m operation).2.rekey ustoreKey) ↔
      (UStoreCall.mk (.data (.point operation)) memory).Served m := by
  cases operation with
  | upsert key value =>
    rw [ustorePoint, pointStep, Prod.mk.injEq, written_rekey_iff]
    exact and_iff_right rfl
  | update key value =>
    change _ ↔ m.get key ≠ none ∧ value.length < 2 ^ 32
    rw [ustorePoint, pointStep]
    cases m.get key with
    | none =>
      refine iff_of_false (fun heq => ?_) fun hboth => hboth.1 rfl
      cases congrArg (fun served => served.1.result.status) heq
    | some old =>
      rw [Prod.mk.injEq, written_rekey_iff]
      simp [Reply.encode, Reply.ofStatus]
  | remove key =>
    refine iff_of_true ?_ trivial
    rw [ustorePoint, pointStep, ← SortedMap.rekey_erase ustoreKey_injective]
    cases hget : m.get key with
    | none =>
      rw [SortedMap.erase_of_get_none hget]
      rfl
    | some old => rfl
  | read key =>
    have hsame : (pointStep .ok m (.read key)).2 = m := by
      rw [pointStep]
      cases m.get key <;> rfl
    rw [ustorePoint, Prod.mk.injEq, hsame, and_iff_left rfl]
    exact readReply_iff

theorem foundValues_bind (get : UInt64 → Option Bytes) (keys : List UInt64) :
    foundValues (fun key => (get key).bind presentBytes) keys =
      (foundValues get keys).filterMap presentBytes := by
  rw [foundValues, foundValues, List.filterMap_filterMap]

theorem batchRead_iff {keys : List UInt64} (hcount : keys.length < 2 ^ 64) :
    ustoreBatchRead (m.rekey ustoreKey) keys = (foundReply m.get keys).encode ustoreKey ↔
      foundValues m.get keys ≠ [] ∧ ∀ value ∈ foundValues m.get keys, FitsLength value := by
  have hle : (foundValues m.get keys).length ≤ keys.length := List.length_filterMap_le _ _
  have hget : (fun key => ((m.rekey ustoreKey).get (ustoreKey key)).bind presentBytes) =
      fun key => (m.get key).bind presentBytes := by
    funext key
    rw [SortedMap.get_rekey ustoreKey_injective]
  rw [ustoreBatchRead, hget, getLoop_found, foundReply, foundValues_bind, ← filterMap_present_iff]
  constructor
  · intro heq
    have hcopies := congrArg Reply.copies heq
    have hvalues := consecutiveCopies_inj.mp hcopies
    refine ⟨fun hnone => ?_, hvalues⟩
    rw [hnone] at heq
    cases congrArg (fun reply => reply.result.status) heq
  · rintro ⟨hsome, hvalues⟩
    have hpos := List.length_pos_iff.mpr hsome
    have hword : 0 < UInt64.ofNat (foundValues m.get keys).length := by
      rw [UInt64.lt_iff_toNat_lt, UInt64.toNat_ofNat', Nat.mod_eq_of_lt (by omega)]
      exact hpos
    rw [hvalues]
    dsimp only
    rw [if_pos hword]
    rfl

/-- What a query finds, as what the map says of it. -/
theorem rangeReply_encode (place : List Bytes → List Copy) (m : KeyMap) (key length : UInt64) :
    (rangeReply place (signedEntries m key length)).encode ustoreKey =
      { result := { entriesTouched := UInt64.ofNat (signedEntries m key length).length }
        copies := place ((signedEntries m key length).map Prod.snd)
        visited := ((m.rekey ustoreKey).seek (ustoreKey key)).take length.toNat } := by
  rw [← encode_signedEntries]
  rfl

theorem length_signedEntries (m : KeyMap) (key length : UInt64) :
    (((m.rekey ustoreKey).seek (ustoreKey key)).take length.toNat).length =
      (signedEntries m key length).length := by
  rw [← encode_signedEntries, List.length_map]

theorem forall_fits_iff {entries : List (UInt64 × Bytes)} :
    (∀ e ∈ entries, FitsLength e.2) ↔ ∀ value ∈ entries.map Prod.snd, FitsLength value := by
  rw [List.forall_mem_map]

theorem ofNat_toUInt64 {n : ℕ} (h : n < 2 ^ 32) : (UInt32.ofNat n).toUInt64 = UInt64.ofNat n := by
  rw [← UInt64.toNat_inj, UInt32.toNat_toUInt64, UInt32.toNat_ofNat', UInt64.toNat_ofNat']
  omega

/-- A cut at the length modulo the width of its variable is one at the length exactly when the
length fits or nothing is cut. -/
theorem take_mod_iff {α : Type} {l : List α} {n : ℕ} :
    l.take (n % 2 ^ 32) = l.take n ↔ n < 2 ^ 32 ∨ l.length ≤ n % 2 ^ 32 := by
  rw [List.take_eq_take_iff]
  omega

theorem rangeSelect_iff (m : KeyMap) (key length : UInt64) :
    ustoreRangeSelect (m.rekey ustoreKey) key length =
        (rangeReply (consecutiveCopies 0) (signedEntries m key length)).encode ustoreKey ↔
      (length.toNat < 2 ^ 32 ∨
          ((m.rekey ustoreKey).seek (ustoreKey key)).length ≤ length.toNat % 2 ^ 32) ∧
        signedEntries m key length ≠ [] ∧ ∀ e ∈ signedEntries m key length, FitsLength e.2 := by
  have hlen : length.toUInt32.toNat = length.toNat % 2 ^ 32 := UInt64.toNat_toUInt32 length
  have hfound : (((m.rekey ustoreKey).seek (ustoreKey key)).take
      (length.toNat % 2 ^ 32)).length < 2 ^ 32 := by
    rw [List.length_take]
    omega
  rw [ustoreRangeSelect, rangeReply_encode, hlen, forall_fits_iff, ← filterMap_present_iff,
    ← take_mod_iff]
  constructor
  · intro heq
    have hvisited := congrArg Reply.visited heq
    have hcopies := congrArg Reply.copies heq
    have hstatus := congrArg (fun reply => reply.result.status) heq
    dsimp only at hvisited hcopies hstatus
    rw [hvisited, values_signedEntries, ustoreCopies_eq, consecutiveCopies_inj] at hcopies
    refine ⟨hvisited, fun hnone => ?_, hcopies⟩
    rw [hvisited, length_signedEntries, hnone] at hstatus
    cases hstatus
  · rintro ⟨hvisited, hsome, hvalues⟩
    have hpos := List.length_pos_iff.mpr hsome
    rw [hvisited, length_signedEntries] at hfound
    have hcounts : 0 < UInt32.ofNat (signedEntries m key length).length := by
      rw [UInt32.lt_iff_toNat_lt, UInt32.toNat_ofNat', Nat.mod_eq_of_lt hfound]
      exact hpos
    rw [hvisited, length_signedEntries, values_signedEntries, ustoreCopies_eq, hvalues,
      ofNat_toUInt64 hfound, if_pos hcounts]

/-- The reply of a scan is that of the entries its chunks visit. -/
theorem ustoreScan_reply (store : UStoreMap)
    (hkey : ustoreKey key + (length.toNat % 2 ^ 32 : ℕ) < 2 ^ 63) :
    ∃ last : ScanState, ustoreScan store succeeding key length = .ok last.reply ∧
      last.visited = store.chunks 1000000 (length.toNat % 2 ^ 32) (ustoreKey key)
        (length.toNat % 2 ^ 32) ∧
      last.scanned.toNat = last.visited.length := by
  have hremaining : length.toUInt32.toNat = length.toNat % 2 ^ 32 := UInt64.toNat_toUInt32 length
  have hcalls : ∀ i, succeeding i = (true, true) := fun _ => rfl
  obtain ⟨last, hlast, hvisited, hscanned⟩ := scanLoop_eq
    (by decide : 0 < 1000000) hcalls (ustoreScan_start key length) le_rfl
    (by simp only [hremaining]; exact hkey)
  exact ⟨last, hlast, by simpa only [hremaining, List.nil_append] using hvisited, hscanned⟩

/-- The copies of a scan overlay what it visits exactly when all lengths fit. -/
theorem scanCopies_iff (visited : List (ℤ × Bytes)) :
    ((visited.filter fun e => UInt32.ofNat e.2.length ≠ ustoreLengthMissing).map fun e =>
        { offset := 0, data := e.2.take (UInt32.ofNat e.2.length).toNat }) =
      overlaidCopies (visited.map Prod.snd) ↔
        ∀ value ∈ visited.map Prod.snd, FitsLength value := by
  have hcopies : ((visited.filter fun e => UInt32.ofNat e.2.length ≠ ustoreLengthMissing).map
      fun e => ({ offset := 0, data := e.2.take (UInt32.ofNat e.2.length).toNat } : Copy)) =
        overlaidCopies ((visited.map Prod.snd).filterMap presentBytes) := by
    induction visited with
    | nil => rfl
    | cons e visited ih =>
      rw [List.map_cons, List.filter_cons]
      by_cases hmissing : UInt32.ofNat e.2.length = ustoreLengthMissing
      · have hnone : presentBytes e.2 = none := by rw [presentBytes, if_pos hmissing]
        rw [List.filterMap_cons_none hnone, ← ih, if_neg (by simpa using hmissing)]
      · have hsome : presentBytes e.2 = some (e.2.take (UInt32.ofNat e.2.length).toNat) := by
          rw [presentBytes, if_neg hmissing]
        rw [List.filterMap_cons_some hsome, if_pos (by simpa using hmissing), List.map_cons, ih]
        rfl
  have hinj : ∀ values others : List Bytes,
      overlaidCopies values = overlaidCopies others ↔ values = others := by
    intro values others
    refine ⟨fun heq => ?_, fun heq => by rw [heq]⟩
    have hdata := congrArg (List.map Copy.data) heq
    simpa [overlaidCopies, List.map_map, Function.comp_def] using hdata
  rw [hcopies, hinj, filterMap_present_iff]

/-- A scan that replies as the map does is a right one. -/
theorem scannable_of_reply (heq : ustoreScan (m.rekey ustoreKey) succeeding key length =
    .ok ((rangeReply overlaidCopies (signedEntries m key length)).encode ustoreKey)) :
    Scannable (m.rekey ustoreKey) key length := by
  have hends : ∀ calls, ustoreScan (m.rekey ustoreKey) calls key length ≠ .error .endless :=
    fun calls => scanLoop_ends (by decide) (ustoreScan_start key length) le_rfl
  rw [← ustoreScan_right_iff]
  refine ⟨hends, fun calls hcalls => ?_⟩
  obtain rfl : calls = succeeding := funext hcalls
  refine ⟨_, heq, ?_, by rw [rangeReply_encode]⟩
  have hlength := length_signedEntries m key length
  have hbound := length.toNat_lt
  rw [List.length_take] at hlength
  rw [rangeReply_encode, ← hlength]
  dsimp only
  rw [UInt64.toNat_ofNat', Nat.mod_eq_of_lt (by omega)]

theorem visited_of_scannable (hscan : Scannable (m.rekey ustoreKey) key length) :
    (m.rekey ustoreKey).chunks 1000000 (length.toNat % 2 ^ 32) (ustoreKey key)
        (length.toNat % 2 ^ 32) =
      ((m.rekey ustoreKey).seek (ustoreKey key)).take length.toNat := by
  obtain ⟨hlength, -, hdense⟩ := hscan
  rw [SortedMap.chunks_eq_take (by decide) le_rfl hdense]
  exact take_mod_iff.mpr hlength

theorem scan_iff (m : KeyMap) (key length : UInt64) :
    ustoreScan (m.rekey ustoreKey) succeeding key length =
        .ok ((rangeReply overlaidCopies (signedEntries m key length)).encode ustoreKey) ↔
      Scannable (m.rekey ustoreKey) key length ∧
        signedEntries m key length ≠ [] ∧ ∀ e ∈ signedEntries m key length, FitsLength e.2 := by
  have hreply : Scannable (m.rekey ustoreKey) key length →
      (ustoreScan (m.rekey ustoreKey) succeeding key length =
          .ok ((rangeReply overlaidCopies (signedEntries m key length)).encode ustoreKey) ↔
        signedEntries m key length ≠ [] ∧
          ∀ e ∈ signedEntries m key length, FitsLength e.2) := by
    intro hscan
    obtain ⟨last, hlast, hvisited, hscanned⟩ :=
      ustoreScan_reply (m.rekey ustoreKey) hscan.2.1
    rw [visited_of_scannable hscan] at hvisited
    have hcount : last.scanned.toNat = (signedEntries m key length).length := by
      rw [hscanned, hvisited, length_signedEntries]
    have htouched : last.scanned.toUInt64 = UInt64.ofNat (signedEntries m key length).length := by
      rw [← hcount, ← ofNat_toUInt64 last.scanned.toNat_lt, UInt32.ofNat_toNat]
    have hstatus : 0 < last.scanned ↔ signedEntries m key length ≠ [] := by
      rw [UInt32.lt_iff_toNat_lt, hcount, ← List.length_pos_iff]
      rfl
    have hcopies := scanCopies_iff last.visited
    rw [hvisited, values_signedEntries] at hcopies
    rw [hlast, rangeReply_encode, Except.ok.injEq, ScanState.reply, htouched, hvisited,
      forall_fits_iff, ← hcopies]
    simp [hstatus]
  exact ⟨fun heq => ⟨scannable_of_reply heq, (hreply (scannable_of_reply heq)).mp heq⟩,
    fun h => (hreply h.1).mpr h.2⟩

theorem batchUpsert_rekey {batch : Batch} {memory : ℤ → UInt8} (hmemory : batch.InMemory memory)
    (hlength : batch.values.length < 2 ^ 32) :
    (ustoreWriteAll memory (ustorePieces batch.keys batch.sizes) (m.rekey ustoreKey)).2 =
      (batchStep m batch).2.rekey ustoreKey := by
  have hpairs : batch.Pairs (ustorePieces batch.keys batch.sizes) := by
    rw [ustorePieces_iff]
    intro i size hsize _
    have hle := Batch.sizesBefore_add_le hsize
    omega
  let db : UStore := { store := m.rekey ustoreKey }
  have hstore : (db.batchUpsert memory batch.keys batch.sizes).2.store = _ :=
    UStore.batchUpsert_store hpairs hmemory
  rw [batchStep, SortedMap.rekey_putAll ustoreKey_injective]
  exact hstore

/-- Both adapters answer and carry out a call as the map does exactly when it is served. -/
theorem ustoreServed_iff {call : UStoreCall} (hadmitted : call.Admitted) :
    ((ustoreServed (m.rekey ustoreKey) call).1 = .ok ((call.signedStep m).1.encode ustoreKey) ∧
      (ustoreServed (m.rekey ustoreKey) call).2 = (call.signedStep m).2.rekey ustoreKey) ↔
        call.Served m := by
  obtain ⟨request, memory⟩ := call
  cases request with
  | batchRead keys =>
    have hread := batchRead_iff (m := m) hadmitted
    rw [ustoreServed, UStoreCall.signedStep, Except.ok.injEq, hread]
    exact and_iff_left rfl
  | data operation =>
    cases operation with
    | point operation =>
      rw [← ustorePoint_iff memory operation, Prod.ext_iff, ustoreServed, Except.ok.injEq,
        UStoreCall.signedStep]
    | batchUpsert batch | bulkLoad batch =>
      exact iff_of_true ⟨rfl, batchUpsert_rekey hadmitted.1 hadmitted.2⟩ trivial
    | rangeSelect key length =>
      have hselect := rangeSelect_iff m key length
      rw [ustoreServed, UStoreCall.signedStep, Except.ok.injEq, hselect]
      exact and_iff_left rfl
    | scan key length =>
      have hscan := scan_iff m key length
      rw [ustoreServed, UStoreCall.signedStep, hscan]
      exact and_iff_left rfl

/-- A map over integer keys in their own order. -/
def UStoreCall.plainStep (m : KeyMap) (call : UStoreCall) : Reply UInt64 × KeyMap :=
  match call.request with
  | .data operation => mapStep .ok m operation
  | .batchRead keys => (foundReply m.get keys, m)

/-- The keys that a call writes or starts a query from. -/
def UStoreCall.keys (call : UStoreCall) : List UInt64 :=
  match call.request with
  | .data (.point (.upsert key _)) | .data (.point (.update key _)) => [key]
  | .data (.point (.remove _)) | .data (.point (.read _)) | .batchRead _ => []
  | .data (.batchUpsert batch) | .data (.bulkLoad batch) => batch.keys
  | .data (.rangeSelect key _) | .data (.scan key _) => [key]

/-- The keys are below the half of the words. -/
def SmallKeys (keys : List UInt64) : Prop := ∀ key ∈ keys, key.toNat < 2 ^ 63

theorem small_put (hkeys : SmallKeys (m.entries.map Prod.fst)) (hkey : key.toNat < 2 ^ 63) :
    SmallKeys ((m.put key value).entries.map Prod.fst) := by
  rw [SmallKeys, List.forall_mem_map] at hkeys ⊢
  intro e he
  rcases SortedMap.mem_put.mp he with rfl | ⟨he, -⟩
  · exact hkey
  · exact hkeys e he

theorem small_putAll {batch : Batch} (hkeys : SmallKeys (m.entries.map Prod.fst))
    (hbatch : SmallKeys batch.keys) :
    SmallKeys ((m.putAll batch.entries).entries.map Prod.fst) := by
  rw [SmallKeys, List.forall_mem_map] at hkeys ⊢
  intro e he
  rcases SortedMap.mem_or_mem_of_mem_putAll he with he | he
  · exact hkeys e he
  · apply hbatch
    rw [← batch.entries_keys]
    exact List.mem_map_of_mem he

theorem small_pointStep {operation : PointOperation} {memory : ℤ → UInt8}
    (hkeys : SmallKeys (m.entries.map Prod.fst))
    (hcall : SmallKeys (UStoreCall.mk (.data (.point operation)) memory).keys) :
    SmallKeys ((pointStep .ok m operation).2.entries.map Prod.fst) := by
  cases operation with
  | upsert key value => exact small_put hkeys (hcall key (List.mem_singleton_self key))
  | update key value =>
    rw [pointStep]
    cases m.get key with
    | none => exact hkeys
    | some old => exact small_put hkeys (hcall key (List.mem_singleton_self key))
  | remove key =>
    rw [pointStep]
    cases m.get key with
    | none => exact hkeys
    | some old =>
      rw [SmallKeys, List.forall_mem_map] at hkeys ⊢
      exact fun e he => hkeys e (List.mem_of_mem_filter he)
  | read key =>
    rw [pointStep]
    cases m.get key <;> exact hkeys

theorem signedStep_small {call : UStoreCall} (hkeys : SmallKeys (m.entries.map Prod.fst))
    (hcall : SmallKeys call.keys) :
    call.signedStep m = call.plainStep m ∧
      SmallKeys ((call.signedStep m).2.entries.map Prod.fst) := by
  have hquery : ∀ key length, key.toNat < 2 ^ 63 →
      signedEntries m key length = firstEntries m key length := by
    intro key length hkey
    exact signedEntries_eq_first (List.forall_mem_map.mp hkeys) hkey
  obtain ⟨request, memory⟩ := call
  cases request with
  | batchRead keys => exact ⟨rfl, hkeys⟩
  | data operation =>
    cases operation with
    | point operation => exact ⟨rfl, small_pointStep hkeys hcall⟩
    | batchUpsert batch | bulkLoad batch => exact ⟨rfl, small_putAll hkeys hcall⟩
    | rangeSelect key length | scan key length =>
      have hsame := hquery key length (hcall key (List.mem_singleton_self key))
      refine ⟨?_, hkeys⟩
      unfold UStoreCall.signedStep
      dsimp only
      rw [hsame]
      rfl

/-- A call is answered as the map says. -/
def UStoreAnswers (given : Except ScanFault (Reply ℤ)) (expected : Reply UInt64) : Prop :=
  given = .ok (expected.encode ustoreKey)

/-- Every run of calls on either ustore adapter is answered and carried out as on a map whose
queries go by the signed keys if and only if each call is one that the adapters get right; and
on keys below the half of the words that is a map in the order of its keys. -/
theorem ustore_serves_map_iff (db : UStoreMap) (m : KeyMap) (calls : List UStoreCall)
    (hadmitted : ∀ call ∈ calls, call.Admitted) :
    (Agree UStore.serve (fun m call => call.signedStep m) UStoreAnswers
        (fun db m => db.store = m.rekey ustoreKey) { store := m.rekey ustoreKey } m calls ↔
      Throughout (fun m call => call.signedStep m) (fun m call => call.Served m) m calls) ∧
    (Agree UStoreTransaction.serve (fun m call => call.signedStep m) UStoreAnswers
        (fun t m => t.view = m.rekey ustoreKey) { db := db, view := m.rekey ustoreKey } m calls ↔
      Throughout (fun m call => call.signedStep m) (fun m call => call.Served m) m calls) ∧
    (SmallKeys (m.entries.map Prod.fst) → (∀ call ∈ calls, SmallKeys call.keys) →
      run (fun m call => call.signedStep m) m calls =
        run (fun m call => call.plainStep m) m calls) := by
  refine ⟨agree_iff_admitted ?_ rfl hadmitted, agree_iff_admitted ?_ rfl hadmitted, ?_⟩
  · intro db m call hstore hcall
    rw [← ustoreServed_iff hcall, ← hstore, UStore.serve_eq]
    exact Iff.rfl
  · intro t m call hview hcall
    rw [← ustoreServed_iff hcall, ← hview, UStoreTransaction.serve_eq]
    exact Iff.rfl
  · intro hkeys hcalls
    have hstep : ∀ (m : KeyMap) (call : UStoreCall), SmallKeys (m.entries.map Prod.fst) →
        SmallKeys call.keys → call.signedStep m = call.plainStep m ∧
          SmallKeys ((call.signedStep m).2.entries.map Prod.fst) :=
      fun _ _ => signedStep_small
    exact run_eq_of_step hstep hkeys hcalls

/-- A batch of two, an update of one of them, and a query of both. -/
theorem ustore_serves_map_batch :
    let batch : Batch :=
      { keys := [1, 5], values := [7, 8, 9], sizes := [1, 2], sizes_length := rfl
        sizes_sum := rfl }
    let memory : ℤ → UInt8 := fun i => [7, 8, 9].getD i.toNat 0
    let calls : List UStoreCall :=
      [⟨.data (.batchUpsert batch), memory⟩, ⟨.data (.point (.update 5 [6])), memory⟩,
        ⟨.data (.rangeSelect 1 2), memory⟩]
    Agree UStore.serve (fun m call => call.signedStep m) UStoreAnswers
        (fun db m => db.store = m.rekey ustoreKey)
        { store := (∅ : KeyMap).rekey ustoreKey } ∅ calls ∧
      run (fun m call => call.signedStep m) ∅ calls =
        run (fun m call => call.plainStep m) ∅ calls := by
  intro batch memory calls
  have hmemory : batch.InMemory memory := by
    intro i hi
    change [7, 8, 9][i]?.getD 0 = _
    rw [List.getElem?_eq_getElem hi]
    rfl
  have hserves := ustore_serves_map_iff ∅ ∅ calls (by
    simp only [calls, List.forall_mem_cons, List.not_mem_nil, false_implies, implies_true,
      and_true]
    exact ⟨⟨hmemory, by decide⟩, trivial, trivial⟩)
  refine ⟨hserves.1.mpr ⟨trivial, ⟨by decide +kernel, by decide⟩, ?_, trivial⟩,
    hserves.2.2 (by simp [SmallKeys]) (by simp [calls, batch, SmallKeys, UStoreCall.keys])⟩
  refine ⟨.inl (by decide), by decide +kernel, ?_⟩
  have hfound : ∀ e ∈ signedEntries (((∅ : KeyMap).putAll batch.entries).put 5 [6]) 1 2,
      e.2.length < 2 ^ 32 - 1 := by decide +kernel
  exact hfound

end Ucsb
