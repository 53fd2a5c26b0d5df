import Ucsb.RocksDbRefines

namespace Ucsb

open scoped WordBytes
open RequestRun

/-- The `thread_local` buffers of `batch_read`. -/
structure BatchBuffers where
  batchKeys : List UInt64 := []
  keySlices : List Bytes := []
  valueSlices : List Bytes := []
  statuses : List RocksStatus := []

/-- `std::vector::resize` to a size that is not smaller. -/
def resized {α : Type} (items : List α) (fill : α) (size : ℕ) : List α :=
  items ++ List.replicate (size - items.length) fill

namespace BatchBuffers

/-- `if (keys.size() > batch_keys.size())`. -/
def grow (buffers : BatchBuffers) (size : ℕ) : BatchBuffers :=
  if buffers.batchKeys.length < size then
    { batchKeys := resized buffers.batchKeys 0 size
      keySlices := resized buffers.keySlices [] size
      valueSlices := resized buffers.valueSlices [] size
      statuses := resized buffers.statuses .ok size }
  else buffers

/-- `key_slices[idx] = to_slice(batch_keys[idx] = keys[idx])` for all keys. -/
def fillLoop : ℕ → List UInt64 → BatchBuffers → BatchBuffers
  | _, [], buffers => buffers
  | idx, key :: keys, buffers =>
    let (keySlice, key) := toSlice key
    fillLoop (idx + 1) keys { buffers with
      batchKeys := buffers.batchKeys.set idx key
      keySlices := buffers.keySlices.set idx keySlice }

/-- `MultiGet` of the first `n` slices. -/
def multiGet (store : ByteMap) (n : ℕ) (buffers : BatchBuffers) : BatchBuffers :=
  let found := (buffers.keySlices.take n).map (rocksGet store)
  { buffers with
    valueSlices := found.map Prod.snd ++ buffers.valueSlices.drop n
    statuses := found.map Prod.fst ++ buffers.statuses.drop n }

end BatchBuffers

/-- The loop over the statuses. -/
def foundLoop : ℕ → UInt64 → List RocksStatus → List Bytes → Reply Bytes
  | offset, foundCnt, status :: statuses, value :: values =>
    if status ≠ .ok then foundLoop offset foundCnt statuses values
    else
      let reply := foundLoop (offset + value.length) (foundCnt + 1) statuses values
      { reply with copies := { offset := offset, data := value } :: reply.copies }
  | _, foundCnt, _, _ => { result := { entriesTouched := foundCnt } }

/-- The common body of `batch_read`. -/
def rocksBatchRead (store : ByteMap) (buffers : BatchBuffers) (keys : List UInt64) :
    Reply Bytes × BatchBuffers :=
  let buffers := buffers.grow keys.length
  let buffers := buffers.fillLoop 0 keys
  let buffers := buffers.multiGet store buffers.keySlices.length
  (foundLoop 0 0 buffers.statuses buffers.valueSlices, buffers)

def RocksDb.batchRead (db : RocksDb) (buffers : BatchBuffers) (keys : List UInt64) :
    Reply Bytes × BatchBuffers := rocksBatchRead db.store buffers keys

def RocksDbTransaction.batchRead (t : RocksDbTransaction) (buffers : BatchBuffers)
    (keys : List UInt64) : Reply Bytes × BatchBuffers := rocksBatchRead t.view buffers keys

/-- The values of the keys that a store has, in the order of the keys. -/
def presentValues (store : ByteMap) (keySlices : List Bytes) : List Bytes :=
  keySlices.filterMap store.get

/-- What a batch read answers that looks at its own keys only. -/
def ownReply (store : ByteMap) (keys : List UInt64) : Reply Bytes :=
  let values := presentValues store (keys.map bigEndianKey)
  { result := { entriesTouched := UInt64.ofNat values.length }
    copies := consecutiveCopies 0 values }

/-- The keys in the buffers after some batches. -/
def leftOver (batches : List (List UInt64)) : List UInt64 :=
  batches.foldl (fun scratch keys => keys ++ scratch.drop keys.length) []

theorem foundLoop_eq (store : ByteMap) (keySlices : List Bytes) (offset : ℕ) (foundCnt : UInt64) :
    foundLoop offset foundCnt ((keySlices.map (rocksGet store)).map Prod.fst)
        ((keySlices.map (rocksGet store)).map Prod.snd) =
      { result := { entriesTouched :=
          foundCnt + UInt64.ofNat (presentValues store keySlices).length }
        copies := consecutiveCopies offset (presentValues store keySlices) } := by
  induction keySlices generalizing offset foundCnt with
  | nil => simp [foundLoop, presentValues, consecutiveCopies]
  | cons keySlice keySlices ih =>
    simp only [List.map_cons]
    cases hget : store.get keySlice with
    | none =>
      have hpresent : presentValues store (keySlice :: keySlices) =
          presentValues store keySlices := by
        simp [presentValues, hget]
      have hfirst : rocksGet store keySlice = (.notFound, []) := by simp [rocksGet, hget]
      rw [hpresent, hfirst, ← ih]
      rfl
    | some value =>
      have hpresent : presentValues store (keySlice :: keySlices) =
          value :: presentValues store keySlices := by
        simp [presentValues, hget]
      have hfirst : rocksGet store keySlice = (.ok, value) := by simp [rocksGet, hget]
      have hcount : foundCnt + 1 + UInt64.ofNat (presentValues store keySlices).length =
          foundCnt + UInt64.ofNat ((presentValues store keySlices).length + 1) := by
        rw [UInt64.ofNat_add, UInt64.add_assoc, UInt64.add_comm 1]
        rfl
      rw [hpresent, hfirst, List.length_cons, consecutiveCopies, ← hcount, foundLoop,
        if_neg (fun h => h rfl)]
      simp only [ih]

namespace BatchBuffers

variable {buffers : BatchBuffers} {scratch keys : List UInt64} {store : ByteMap}

/-- The buffers are as long as each other and hold these keys. -/
structure Holds (buffers : BatchBuffers) (scratch : List UInt64) : Prop where
  batchKeys : buffers.batchKeys.length = scratch.length
  keySlices : buffers.keySlices = scratch.map bigEndianKey
  valueSlices : buffers.valueSlices.length = scratch.length
  statuses : buffers.statuses.length = scratch.length

theorem fillLoop_eq (keys : List UInt64) (idx : ℕ) (buffers : BatchBuffers) :
    (fillLoop idx keys buffers).batchKeys.length = buffers.batchKeys.length ∧
      (fillLoop idx keys buffers).valueSlices = buffers.valueSlices ∧
      (fillLoop idx keys buffers).statuses = buffers.statuses := by
  induction keys generalizing idx buffers with
  | nil => exact ⟨rfl, rfl, rfl⟩
  | cons key keys ih =>
    obtain ⟨hkeys, hvalues, hstatuses⟩ := ih (idx + 1) { buffers with
      batchKeys := buffers.batchKeys.set idx (toSlice key).2
      keySlices := buffers.keySlices.set idx (toSlice key).1 }
    rw [List.length_set] at hkeys
    exact ⟨hkeys, hvalues, hstatuses⟩

theorem fillLoop_keySlices {before after : List Bytes}
    (hslices : buffers.keySlices = before ++ after) (hroom : keys.length ≤ after.length) :
    (fillLoop before.length keys buffers).keySlices =
      before ++ keys.map bigEndianKey ++ after.drop keys.length := by
  induction keys generalizing before after buffers with
  | nil => simpa [fillLoop] using hslices
  | cons key keys ih =>
    cases after with
    | nil => simp at hroom
    | cons slice after =>
      let next : BatchBuffers := { buffers with
        batchKeys := buffers.batchKeys.set before.length (toSlice key).2
        keySlices := buffers.keySlices.set before.length (toSlice key).1 }
      have hnext : next.keySlices = (before ++ [bigEndianKey key]) ++ after := by
        show buffers.keySlices.set before.length (toSlice key).1 = _
        rw [hslices, toSlice_fst, List.set_append_right _ _ (Nat.le_refl _)]
        simp
      have hrest := ih hnext (by simpa using hroom)
      rw [List.length_append, List.length_singleton] at hrest
      show (fillLoop (before.length + 1) keys next).keySlices = _
      rw [hrest]
      simp

theorem resized_length {α : Type} (items : List α) (fill : α) (size : ℕ) :
    (resized items fill size).length = max items.length size := by
  rw [resized, List.length_append, List.length_replicate]
  omega

theorem grow_spec (h : buffers.Holds scratch) (size : ℕ) :
    (buffers.grow size).keySlices = resized (scratch.map bigEndianKey) [] size ∧
      (buffers.grow size).batchKeys.length = max scratch.length size ∧
      (buffers.grow size).valueSlices.length = max scratch.length size ∧
      (buffers.grow size).statuses.length = max scratch.length size := by
  obtain ⟨hkeys, hslices, hvalues, hstatuses⟩ := h
  rw [grow]
  split
  next => simp only [resized_length, hkeys, hslices, hvalues, hstatuses, and_self]
  next hlarge =>
    have hmax : max scratch.length size = scratch.length := by omega
    have hnone : size - (scratch.map bigEndianKey).length = 0 := by
      rw [List.length_map]
      omega
    rw [hmax, resized, hnone]
    exact ⟨by simpa using hslices, hkeys, hvalues, hstatuses⟩

theorem filled_spec (h : buffers.Holds scratch) (keys : List UInt64) :
    ((buffers.grow keys.length).fillLoop 0 keys).Holds (keys ++ scratch.drop keys.length) := by
  obtain ⟨hslices, hkeys, hvalues, hstatuses⟩ := grow_spec h keys.length
  obtain ⟨hkeys', hvalues', hstatuses'⟩ := fillLoop_eq keys 0 (buffers.grow keys.length)
  have hlength : (keys ++ scratch.drop keys.length).length = max scratch.length keys.length := by
    rw [List.length_append, List.length_drop]
    omega
  have hroom : keys.length ≤ (buffers.grow keys.length).keySlices.length := by
    rw [hslices, resized_length]
    omega
  refine ⟨?_, ?_, ?_, ?_⟩
  · rw [hkeys', hkeys, hlength]
  · have hfilled := fillLoop_keySlices (List.nil_append _).symm hroom
    rw [List.length_nil, hslices, resized, List.drop_append, List.drop_replicate,
      List.length_map] at hfilled
    rw [hfilled, List.map_append, List.map_drop]
    simp
  · rw [hvalues', hvalues, hlength]
  · rw [hstatuses', hstatuses, hlength]

theorem multiGet_spec (store : ByteMap) (h : buffers.Holds scratch) :
    (buffers.multiGet store buffers.keySlices.length).statuses =
        (buffers.keySlices.map (rocksGet store)).map Prod.fst ∧
      (buffers.multiGet store buffers.keySlices.length).valueSlices =
        (buffers.keySlices.map (rocksGet store)).map Prod.snd := by
  have hlength : buffers.keySlices.length = scratch.length := by rw [h.keySlices, List.length_map]
  have hstatuses : buffers.statuses.drop buffers.keySlices.length = [] :=
    List.drop_of_length_le (by rw [h.statuses, hlength])
  have hvalues : buffers.valueSlices.drop buffers.keySlices.length = [] :=
    List.drop_of_length_le (by rw [h.valueSlices, hlength])
  rw [multiGet, List.take_length, hstatuses, hvalues, List.append_nil, List.append_nil]
  exact ⟨rfl, rfl⟩

end BatchBuffers

open BatchBuffers

/-- A batch read answers for all keys in the buffers. -/
theorem rocksBatchRead_spec {store : ByteMap} {buffers : BatchBuffers} {scratch : List UInt64}
    (h : buffers.Holds scratch) (keys : List UInt64) :
    (rocksBatchRead store buffers keys).1 = ownReply store (keys ++ scratch.drop keys.length) ∧
      (rocksBatchRead store buffers keys).2.Holds (keys ++ scratch.drop keys.length) := by
  have hfilled := filled_spec h keys
  obtain ⟨hstatuses, hvalues⟩ := multiGet_spec store hfilled
  refine ⟨?_, hfilled.batchKeys, hfilled.keySlices, ?_, ?_⟩
  · show foundLoop 0 0 (multiGet store _ _).statuses (multiGet store _ _).valueSlices = _
    rw [hstatuses, hvalues, foundLoop_eq, hfilled.keySlices, UInt64.zero_add]
    rfl
  · show (multiGet store _ _).valueSlices.length = _
    rw [hvalues, List.length_map, List.length_map, hfilled.keySlices, List.length_map]
  · show (multiGet store _ _).statuses.length = _
    rw [hstatuses, List.length_map, List.length_map, hfilled.keySlices, List.length_map]

theorem buffers_hold {store : ByteMap} {buffers : BatchBuffers} {scratch : List UInt64}
    (h : buffers.Holds scratch) (batches : List (List UInt64)) :
    (run (rocksBatchRead store) buffers batches).2.Holds
      (batches.foldl (fun scratch keys => keys ++ scratch.drop keys.length) scratch) := by
  induction batches generalizing buffers scratch with
  | nil => exact h
  | cons keys batches ih => exact ih (rocksBatchRead_spec h keys).2

theorem rocksBatchRead_after (store : ByteMap) (earlier : List (List UInt64)) (keys : List UInt64) :
    (rocksBatchRead store (run (rocksBatchRead store) {} earlier).2 keys).1 =
      ownReply store (keys ++ (leftOver earlier).drop keys.length) := by
  have hempty : ({} : BatchBuffers).Holds [] := ⟨rfl, rfl, rfl, rfl⟩
  exact (rocksBatchRead_spec (buffers_hold hempty earlier) keys).1

theorem consecutiveCopies_length (offset : ℕ) (values : List Bytes) :
    (consecutiveCopies offset values).length = values.length := by
  induction values generalizing offset with
  | nil => rfl
  | cons value values ih => rw [consecutiveCopies, List.length_cons, ih, List.length_cons]

/-- Keys behind the own ones change the answer if one of them is there. -/
theorem ownReply_append_iff (store : ByteMap) (keys stale : List UInt64) :
    ownReply store (keys ++ stale) = ownReply store keys ↔
      ∀ key ∈ stale, store.get (bigEndianKey key) = none := by
  have hsplit : presentValues store ((keys ++ stale).map bigEndianKey) =
      presentValues store (keys.map bigEndianKey) ++
        presentValues store (stale.map bigEndianKey) := by
    rw [presentValues, List.map_append, List.filterMap_append, presentValues, presentValues]
  have hnone : presentValues store (stale.map bigEndianKey) = [] ↔
      ∀ key ∈ stale, store.get (bigEndianKey key) = none := by
    rw [presentValues, List.filterMap_eq_nil_iff, List.forall_mem_map]
  rw [← hnone]
  constructor
  · intro h
    have hcopies := congrArg (fun reply => reply.copies.length) h
    simp only [ownReply, consecutiveCopies_length, hsplit, List.length_append] at hcopies
    exact List.eq_nil_of_length_eq_zero (by omega)
  · intro h
    rw [ownReply, hsplit, h, List.append_nil]
    rfl

/-- What is answered from the own keys leaves their values in a row. -/
theorem ownReply_written {store : ByteMap} {keys : List UInt64} {span : Bytes}
    (hspan : (presentValues store (keys.map bigEndianKey)).flatten.length ≤ span.length) :
    (ownReply store keys).written span =
      (presentValues store (keys.map bigEndianKey)).flatten ++
        span.drop (presentValues store (keys.map bigEndianKey)).flatten.length := by
  rw [Reply.written, ownReply, consecutiveCopies_written (by simpa using hspan)]
  simp

/-- After any batches the next one is answered from its own keys if and only if none
of the keys that earlier ones left behind it is in the store. -/
theorem batchRead_own_iff (earlier : List (List UInt64)) (keys : List UInt64) :
    (∀ db : RocksDb,
      (db.batchRead (run db.batchRead {} earlier).2 keys).1 = ownReply db.store keys ↔
        ∀ key ∈ (leftOver earlier).drop keys.length, db.store.get (bigEndianKey key) = none) ∧
      ∀ t : RocksDbTransaction,
        (t.batchRead (run t.batchRead {} earlier).2 keys).1 = ownReply t.view keys ↔
          ∀ key ∈ (leftOver earlier).drop keys.length, t.view.get (bigEndianKey key) = none := by
  constructor
  · intro db
    show (rocksBatchRead db.store (run (rocksBatchRead db.store) {} earlier).2 keys).1 = _ ↔ _
    rw [rocksBatchRead_after, ownReply_append_iff]
  · intro t
    show (rocksBatchRead t.view (run (rocksBatchRead t.view) {} earlier).2 keys).1 = _ ↔ _
    rw [rocksBatchRead_after, ownReply_append_iff]

/-- A batch of one key after a batch of two counts both. -/
theorem batchRead_counts_stale_key :
    let store : ByteMap := (SortedMap.empty.put (bigEndianKey 1) [7]).put (bigEndianKey 2) [8]
    let db : RocksDb := { store := store }
    let t : RocksDbTransaction := { db := store, view := store }
    (db.batchRead (run db.batchRead {} [[1, 2]]).2 [1]).1 ≠ ownReply store [1] ∧
      (t.batchRead (run t.batchRead {} [[1, 2]]).2 [1]).1 ≠ ownReply store [1] := by
  decide +kernel

end Ucsb
