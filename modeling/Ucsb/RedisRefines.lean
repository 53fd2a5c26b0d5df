import Ucsb.BatchOffsets
import Ucsb.ExceptRules

namespace Ucsb

open scoped WordBytes
open RequestRun

/-- Why a call of `redis_t` has no reply: a read outside of a buffer, or a command without
arguments, for which the client throws. -/
inductive RedisFault
  | outOfBounds
  | emptyRange
  deriving DecidableEq

/-- `kv_iterator_t`: where its pointers stand, and the size in its `pair_`. -/
structure KvIterator where
  keyIndex : ℕ
  valOffset : ℕ
  sizeIndex : ℕ
  pairSize : UInt32

namespace KvIterator

/-- `*size_ptr_`. -/
def readSize (sizes : List UInt32) (sizeIndex : ℕ) : Except RedisFault UInt32 :=
  match sizes[sizeIndex]? with
  | some size => .ok size
  | none => .error .outOfBounds

/-- The constructor reads the size that it stands on. -/
def make (sizes : List UInt32) (keyIndex valOffset sizeIndex : ℕ) :
    Except RedisFault KvIterator := do
  let size ← readSize sizes sizeIndex
  .ok { keyIndex := keyIndex, valOffset := valOffset, sizeIndex := sizeIndex, pairSize := size }

/-- `operator++` reads the size that it leaves, and the one behind it. -/
def next (sizes : List UInt32) (it : KvIterator) : Except RedisFault KvIterator := do
  let size ← readSize sizes it.sizeIndex
  make sizes (it.keyIndex + 1) (it.valOffset + size.toNat) (it.sizeIndex + 1)

end KvIterator

/-- An `Optional<std::string>` as memory, by the string it holds. -/
structure OptionalObject where
  size : ℕ
  bytes : Bytes → Bytes
  bytes_length : ∀ value, (bytes value).length = size

/-- All calls of `redis_t`, with the memory that a call finds. -/
inductive RedisRequest
  | point (call : RedisCall)
  | batchUpsert (batch : Batch) (behind : List UInt32)
  | batchRead (keys : List UInt64) (object : OptionalObject)
  | bulkLoad (batch : Batch) (memory : ℤ → UInt8)
  | rangeSelect (key length : UInt64)
  | scan (key length : UInt64)

namespace Redis

/-- The arguments that `hmset` takes from its iterators, by their distance. -/
def hmsetArguments (batch : Batch) (sizes : List UInt32) :
    ℕ → KvIterator → Except RedisFault (List (Bytes × Bytes))
  | 0, _ => .ok []
  | distance + 1, it => do
    let key := (batch.keys[it.keyIndex]?).getD 0
    let value := (batch.values.drop it.valOffset).take it.pairSize.toNat
    let it ← it.next sizes
    let rest ← hmsetArguments batch sizes distance it
    .ok ((keyBytes key, value) :: rest)

/-- The iterators run over the sizes and what is behind them in their buffer. -/
def batchArguments (batch : Batch) (behind : List UInt32) :
    Except RedisFault (List (Bytes × Bytes)) := do
  let sizes := batch.sizes ++ behind
  let first ← KvIterator.make sizes 0 0 0
  let last ← KvIterator.make sizes batch.keys.length batch.values.length batch.sizes.length
  if first.keyIndex = last.keyIndex then .error .emptyRange
  else hmsetArguments batch sizes (last.keyIndex - first.keyIndex) first

def batchUpsert (db : Redis) (batch : Batch) (behind : List UInt32) :
    Except RedisFault (Reply Bytes) × Redis :=
  match batchArguments batch behind with
  | .error fault => (.error fault, db)
  | .ok entries =>
    (.ok { result := { entriesTouched := UInt64.ofNat batch.keys.length } },
      { hash := db.hash.putAll entries })

/-- `hmget`, whose results `value_getter_t` puts into the span object after object. -/
def batchRead (db : Redis) (keys : List UInt64) (object : OptionalObject) :
    Except RedisFault (Reply Bytes) :=
  if keys = [] then .error .emptyRange
  else
    let reply : Reply Bytes :=
      getLoop (fun key => (db.hash.get (keyBytes key)).map object.bytes) 0 0 keys
    let status := if reply.result.entriesTouched ≠ 0 then OperationStatus.ok else .error
    .ok { reply with result := { reply.result with status := status } }

def serve (db : Redis) : RedisRequest → Except RedisFault (Reply Bytes) × Redis
  | .point call => (.ok (db.step call).1, (db.step call).2)
  | .batchUpsert batch behind => db.batchUpsert batch behind
  | .batchRead keys object => (db.batchRead keys object, db)
  | .bulkLoad batch memory =>
    let (reply, db) := db.bulkLoad memory batch.keys batch.sizes
    (.ok reply, db)
  | .rangeSelect _ _ | .scan _ _ => (.ok (.ofStatus .notImplemented), db)

/-- There is a reply, with the expected result and the expected bytes at their places. -/
def Replies (reply : Except RedisFault (Reply Bytes)) (expected : Reply UInt64) : Prop :=
  ∃ given, reply = .ok given ∧ Answers given expected

end Redis

namespace RedisRequest

/-- Batches have keys, and bulks lie in memory that an `int` can point into. -/
def Admitted : RedisRequest → Prop
  | .batchUpsert batch _ => batch.keys ≠ []
  | .batchRead keys _ => keys ≠ [] ∧ keys.length < 2 ^ 64
  | .bulkLoad batch memory =>
    batch.InMemory memory ∧ batch.values.length < 2 ^ 31 ∧ batch.keys.length < 2 ^ 64
  | _ => True

def mapStep (m : KeyMap) : RedisRequest → Reply UInt64 × KeyMap
  | .point call => call.mapStep m
  | .batchUpsert batch _ | .bulkLoad batch _ => batchStep m batch
  | .batchRead keys _ => (foundReply m.get keys, m)
  | .rangeSelect key length =>
    (rangeReply (consecutiveCopies 0) (firstEntries m key length), m)
  | .scan key length => (rangeReply overlaidCopies (firstEntries m key length), m)

/-- What the adapter gets right: batches that do not fill the buffer of their sizes, batch reads
that find something, all but the last as long as an object and each of which begins the memory
of its own, and bulks of new keys. -/
def Served (m : KeyMap) : RedisRequest → Prop
  | .point call => call.Served m
  | .batchUpsert _ behind => behind ≠ []
  | .batchRead keys object =>
    foundValues m.get keys ≠ [] ∧
      (∀ value ∈ (foundValues m.get keys).dropLast, value.length = object.size) ∧
        ∀ value ∈ foundValues m.get keys, value <+: object.bytes value
  | .bulkLoad batch _ => batch.keys.Nodup ∧ ∀ key ∈ batch.keys, m.get key = none
  | .rangeSelect _ _ | .scan _ _ => False

end RedisRequest

variable {db : Redis} {m : KeyMap} {batch : Batch} {behind sizes : List UInt32} {i : ℕ}
  {memory : ℤ → UInt8}

theorem KvIterator.make_eq {keyIndex valOffset : ℕ} {size : UInt32} (h : sizes[i]? = some size) :
    make sizes keyIndex valOffset i =
      .ok { keyIndex := keyIndex, valOffset := valOffset, sizeIndex := i, pairSize := size } := by
  rw [make, readSize, h]
  rfl

theorem KvIterator.make_past {keyIndex valOffset : ℕ} (h : sizes.length ≤ i) :
    make sizes keyIndex valOffset i = .error .outOfBounds := by
  rw [make, readSize, List.getElem?_eq_none h]
  rfl

theorem sizesBefore_succ {size : UInt32} (h : sizes[i]? = some size) :
    sizesBefore sizes (i + 1) = sizesBefore sizes i + size.toNat := by
  rw [sizesBefore, List.take_add_one, h, List.map_append, List.sum_append, sizesBefore]
  rfl

theorem exists_size (hbehind : behind ≠ []) (hi : i ≤ batch.sizes.length) :
    ∃ size, (batch.sizes ++ behind)[i]? = some size := by
  have hpos := List.length_pos_iff.mpr hbehind
  have hlt : i < (batch.sizes ++ behind).length := by
    rw [List.length_append]
    omega
  exact ⟨_, List.getElem?_eq_getElem hlt⟩

namespace Redis

/-- From an index on, with a readable size behind the last one, the arguments are the entries. -/
theorem hmsetArguments_eq (hbehind : behind ≠ []) {distance : ℕ} {size : UInt32}
    (hi : i + distance = batch.keys.length)
    (hsize : (batch.sizes ++ behind)[i]? = some size) :
    hmsetArguments batch (batch.sizes ++ behind) distance
        { keyIndex := i, valOffset := sizesBefore batch.sizes i, sizeIndex := i,
          pairSize := size } =
      .ok ((batch.slices.drop i).map (Prod.map keyBytes id)) := by
  have hlength := batch.sizes_length
  have hslices : batch.slices.length = batch.keys.length := by
    rw [Batch.slices_eq, batch.entries_length]
  induction distance generalizing i size with
  | zero =>
    rw [List.drop_of_length_le (by omega)]
    rfl
  | succ distance ih =>
    obtain ⟨key, hkey⟩ : ∃ key, batch.keys[i]? = some key :=
      ⟨_, List.getElem?_eq_getElem (by omega)⟩
    have hown : batch.sizes[i]? = some size := by
      rw [← hsize, List.getElem?_append_left (by omega)]
    obtain ⟨size', hsize'⟩ : ∃ size', (batch.sizes ++ behind)[i + 1]? = some size' :=
      exists_size hbehind (by omega)
    have hslice := Batch.slices_getElem hkey hown
    obtain ⟨hlt, hvalue⟩ := List.getElem?_eq_some_iff.mp hslice
    have hrest := ih (by omega) hsize'
    rw [sizesBefore_succ hown] at hrest
    rw [hmsetArguments, KvIterator.next, KvIterator.readSize]
    simp only [hsize, ExceptRules.ok_bind, KvIterator.make_eq hsize', hrest, hkey,
      Option.getD_some]
    rw [List.drop_eq_getElem_cons hlt, hvalue]
    rfl

/-- The iterator behind the last entry reads the size there. -/
theorem batchArguments_eq (hkeys : batch.keys ≠ []) : batchArguments batch behind =
    if behind = [] then .error .outOfBounds
    else .ok (batch.entries.map (Prod.map keyBytes id)) := by
  have hlength := batch.sizes_length
  have hpos := List.length_pos_iff.mpr hkeys
  obtain ⟨size, hsize⟩ : ∃ size, batch.sizes[0]? = some size :=
    ⟨_, List.getElem?_eq_getElem (by omega)⟩
  have hfirst : (batch.sizes ++ behind)[0]? = some size := by
    rw [List.getElem?_append_left (by omega), hsize]
  unfold batchArguments
  dsimp only
  rw [KvIterator.make_eq hfirst, ExceptRules.ok_bind]
  by_cases hbehind : behind = []
  · rw [if_pos hbehind, KvIterator.make_past (by simp [hbehind])]
    rfl
  · obtain ⟨size', hsize'⟩ : ∃ size', (batch.sizes ++ behind)[batch.sizes.length]? = some size' :=
      exists_size hbehind le_rfl
    have hne : ¬0 = batch.keys.length := by omega
    have harguments := hmsetArguments_eq hbehind (Nat.zero_add batch.keys.length) hfirst
    rw [List.drop_zero, Batch.slices_eq] at harguments
    rw [if_neg hbehind, KvIterator.make_eq hsize', ExceptRules.ok_bind]
    dsimp only
    rw [if_neg hne, Nat.sub_zero]
    exact harguments

theorem batchUpsert_replies_iff (h : db.Holds m) (hkeys : batch.keys ≠ []) :
    (Replies (db.batchUpsert batch behind).1 (batchStep m batch).1 ∧
      (db.batchUpsert batch behind).2.Holds (batchStep m batch).2) ↔ behind ≠ [] := by
  rw [batchUpsert, batchArguments_eq hkeys]
  by_cases hbehind : behind = []
  · rw [if_pos hbehind]
    refine iff_of_false ?_ (not_not.mpr hbehind)
    rintro ⟨⟨given, hgiven, -⟩, -⟩
    cases hgiven
  · rw [if_neg hbehind]
    refine iff_of_true ⟨⟨_, rfl, rfl, .nil⟩, ?_⟩ hbehind
    change db.hash.putAll _ = _
    rw [h, batchStep, SortedMap.rekey_putAll keyBytes_injective]

/-- Objects lie where the values would exactly when all values but the last are as long. -/
theorem forall₂_objects_iff (object : OptionalObject) (offset : ℕ) (values : List Bytes) :
    List.Forall₂ (fun copy wanted => copy.offset = wanted.offset ∧ wanted.data <+: copy.data)
        (consecutiveCopies offset (values.map object.bytes)) (consecutiveCopies offset values) ↔
      (∀ value ∈ values.dropLast, value.length = object.size) ∧
        ∀ value ∈ values, value <+: object.bytes value := by
  induction values generalizing offset with
  | nil => exact iff_of_true .nil ⟨by simp, by simp⟩
  | cons value values ih =>
    rw [List.map_cons, consecutiveCopies, consecutiveCopies, List.forall₂_cons,
      object.bytes_length, List.forall_mem_cons]
    cases values with
    | nil => simp [consecutiveCopies]
    | cons second rest =>
      rw [List.dropLast_cons_cons, List.forall_mem_cons]
      by_cases hlength : value.length = object.size
      · rw [hlength, ih]
        tauto
      · refine iff_of_false (fun hboth => ?_) fun hboth => hlength hboth.1.1
        rw [List.map_cons, consecutiveCopies, consecutiveCopies, List.forall₂_cons] at hboth
        have hoffset := hboth.2.1.1
        dsimp only at hoffset
        omega

theorem batchRead_eq (h : db.Holds m) (object : OptionalObject) {keys : List UInt64}
    (hkeys : keys ≠ []) (hcount : keys.length < 2 ^ 64) : db.batchRead keys object =
      .ok { result :=
              { entriesTouched := UInt64.ofNat (foundValues m.get keys).length
                status := if foundValues m.get keys = [] then .error else .ok }
            copies := consecutiveCopies 0 ((foundValues m.get keys).map object.bytes) } := by
  have hfound : foundValues (fun key => (db.hash.get (keyBytes key)).map object.bytes) keys =
      (foundValues m.get keys).map object.bytes := by
    rw [foundValues, foundValues, List.map_filterMap]
    simp only [h.get]
  have hle : (foundValues m.get keys).length ≤ keys.length := List.length_filterMap_le _ _
  have hzero : UInt64.ofNat (foundValues m.get keys).length ≠ 0 ↔ foundValues m.get keys ≠ [] := by
    rw [ne_eq, ← UInt64.toNat_inj, UInt64.toNat_ofNat', Nat.mod_eq_of_lt (by omega),
      UInt64.toNat_zero, List.length_eq_zero_iff]
  rw [batchRead, if_neg hkeys, getLoop_found]
  simp only [foundReply, hfound, List.length_map, hzero, ite_not]

theorem batchRead_replies_iff (h : db.Holds m) (object : OptionalObject) {keys : List UInt64}
    (hkeys : keys ≠ []) (hcount : keys.length < 2 ^ 64) :
    Replies (db.batchRead keys object) (foundReply m.get keys) ↔
      (RedisRequest.batchRead keys object).Served m := by
  rw [batchRead_eq h object hkeys hcount, RedisRequest.Served, ← forall₂_objects_iff object 0]
  constructor
  · rintro ⟨given, hgiven, hresult, hcopies⟩
    cases Except.ok.inj hgiven
    refine ⟨fun hnone => ?_, hcopies⟩
    rw [hnone] at hresult
    cases congrArg OperationResult.status hresult
  · rintro ⟨hsome, hcopies⟩
    refine ⟨_, rfl, ?_, hcopies⟩
    rw [if_neg hsome]
    rfl

theorem bulkLoad_replies_iff (h : db.Holds m) (hmemory : batch.InMemory memory)
    (hlength : batch.values.length < 2 ^ 31) (hcount : batch.keys.length < 2 ^ 64) :
    (Answers (db.bulkLoad memory batch.keys batch.sizes).1 (batchStep m batch).1 ∧
      (db.bulkLoad memory batch.keys batch.sizes).2.Holds (batchStep m batch).2) ↔
        (RedisRequest.bulkLoad batch memory).Served m := by
  have hpairs : batch.Pairs (bulkPieces batch.keys batch.sizes) := by
    rw [bulkPieces_iff]
    intro i size hsize _
    have hle := batch.sizesBefore_add_le hsize
    omega
  have hholds : (db.bulkLoad memory batch.keys batch.sizes).2.Holds (batchStep m batch).2 := by
    change (db.bulkLoad memory batch.keys batch.sizes).2.hash = _
    rw [bulkLoad_hash hpairs hmemory, h, batchStep, SortedMap.rekey_putAll keyBytes_injective]
  have hnew := count_hset_iff memory (bulkPieces batch.keys batch.sizes) db
  rw [hpairs.length, hpairs.map_key hmemory] at hnew
  simp only [h.get] at hnew
  rw [and_iff_left hholds, RedisRequest.Served, ← hnew, bulkLoad]
  have hle := List.count_le_length (a := true) (l := (run (fun (db : Redis) (piece : Piece) =>
    db.hset (keyBytes piece.key) (piece.bytes memory)) db (bulkPieces batch.keys batch.sizes)).1)
  rw [length_replies, hpairs.length] at hle
  constructor
  · rintro ⟨hresult, -⟩
    have hwords := congrArg (fun result => result.entriesTouched.toNat) hresult
    simp only [batchStep, UInt64.toNat_ofNat'] at hwords
    omega
  · intro hall
    refine ⟨?_, .nil⟩
    dsimp only
    rw [hall]
    rfl

theorem serve_iff {request : RedisRequest} (h : db.Holds m) (hadmitted : request.Admitted) :
    (Replies (db.serve request).1 (request.mapStep m).1 ∧
      (db.serve request).2.Holds (request.mapStep m).2) ↔ request.Served m := by
  have hok : ∀ {reply : Reply Bytes} {expected : Reply UInt64},
      Replies (.ok reply) expected ↔ Answers reply expected := by
    intro reply expected
    exact ⟨fun ⟨_, hgiven, hanswers⟩ => Except.ok.inj hgiven ▸ hanswers, fun h => ⟨_, rfl, h⟩⟩
  cases request with
  | point call =>
    rw [serve, hok]
    exact step_iff db m call h
  | batchUpsert batch behind => exact batchUpsert_replies_iff h hadmitted
  | batchRead keys object =>
    have hholds : db.Holds m := h
    exact (and_iff_left hholds).trans
      (batchRead_replies_iff h object hadmitted.1 hadmitted.2)
  | bulkLoad batch memory =>
    rw [serve, hok]
    exact bulkLoad_replies_iff h hadmitted.1 hadmitted.2.1 hadmitted.2.2
  | rangeSelect key length | scan key length =>
    rw [serve, hok]
    refine iff_of_false (fun hboth => ?_) id
    cases congrArg OperationResult.status hboth.1.1

end Redis

/-- Every run of calls on redis is answered and carried out as on a map if and only if each call
is one that the adapter gets right. -/
theorem redis_serves_map_iff (m : KeyMap) (requests : List RedisRequest)
    (hadmitted : ∀ request ∈ requests, request.Admitted) :
    Agree Redis.serve RedisRequest.mapStep Redis.Replies Redis.Holds
        { hash := m.rekey keyBytes } m requests ↔
      Throughout RedisRequest.mapStep RedisRequest.Served m requests :=
  agree_iff_admitted (fun _ _ _ h hrequest => Redis.serve_iff h hrequest) rfl hadmitted

/-- A batch upsert, and a batch read of both values into objects of two bytes. -/
theorem redis_serves_map_batches :
    let batch : Batch :=
      { keys := [5, 1], values := [7, 8, 9], sizes := [1, 2], sizes_length := rfl
        sizes_sum := rfl }
    let object : OptionalObject :=
      { size := 2, bytes := fun value => (value ++ [0, 0]).take 2
        bytes_length := fun value => List.length_take_of_le (by
          rw [List.length_append]
          exact Nat.le_add_left 2 _) }
    Agree Redis.serve RedisRequest.mapStep Redis.Replies Redis.Holds
      { hash := (∅ : KeyMap).rekey keyBytes } ∅
      [.batchUpsert batch [0], .batchRead [1, 5] object] := by
  intro batch object
  refine (redis_serves_map_iff ∅ _ ?_).mpr ?_
  · simp only [List.forall_mem_cons, List.not_mem_nil, false_implies, implies_true, and_true]
    exact ⟨List.cons_ne_nil 5 [1], List.cons_ne_nil 1 [5], show 2 < 2 ^ 64 by omega⟩
  · have hfound : foundValues ((RedisRequest.batchUpsert batch [0]).mapStep ∅).2.get [1, 5] =
        [[8, 9], [7]] := by decide +kernel
    refine ⟨by simp [RedisRequest.Served], ?_, trivial⟩
    rw [RedisRequest.Served, hfound]
    refine ⟨List.cons_ne_nil _ _, ?_, ?_⟩
    · intro value hvalue
      obtain rfl : value = [8, 9] := List.mem_singleton.mp hvalue
      rfl
    · intro value hvalue
      rcases List.mem_pair.mp hvalue with rfl | rfl
      · exact ⟨[], rfl⟩
      · exact ⟨[0], rfl⟩

end Ucsb
