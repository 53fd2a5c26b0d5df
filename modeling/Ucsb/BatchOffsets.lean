import Ucsb.AdapterLoops
import Ucsb.Redis
import Ucsb.UStore
import Mathlib.Data.Int.ConditionallyCompleteOrder
import Mathlib.Order.Interval.Set.LinearOrder

namespace Ucsb

open scoped WordBytes
open RequestRun

/-- A key and the memory that an engine reads its value from, counted from `values.data()` on. -/
structure Piece where
  key : UInt64
  position : ℤ
  length : UInt32
  deriving DecidableEq

/-- Where the bytes of a piece are. -/
def Piece.indices (piece : Piece) : Set ℤ :=
  Set.Ico piece.position (piece.position + piece.length.toNat)

def Piece.bytes (memory : ℤ → UInt8) (piece : Piece) : Bytes :=
  (List.range piece.length.toNat).map fun j : ℕ => memory (piece.position + j)

/-- The loop over a batch whose running offset has a type of its own. -/
def pieceLoop {ω : Type} (add : ω → UInt32 → ω) (position : ω → ℤ) :
    ω → List UInt64 → List UInt32 → List Piece
  | offset, key :: keys, size :: sizes =>
    ⟨key, position offset, size⟩ :: pieceLoop add position (add offset size) keys sizes
  | _, _, _ => []

namespace Redis

/-- `data_offset += sizes[i]` on an `int`: the sum is one of unsigned words. -/
def addOffset (dataOffset : Int32) (size : UInt32) : Int32 := (dataOffset.toUInt32 + size).toInt32

/-- The pieces that the loop of `bulk_load` puts into the pipeline. -/
def bulkPieces (keys : List UInt64) (sizes : List UInt32) : List Piece :=
  pieceLoop addOffset Int32.toInt 0 keys sizes

/-- The pipeline runs `hset` after `hset`; a reply counts if the field is new. -/
def bulkLoad (db : Redis) (memory : ℤ → UInt8) (keys : List UInt64) (sizes : List UInt32) :
    Reply Bytes × Redis :=
  let (replies, db) := run (fun (db : Redis) (piece : Piece) =>
    db.hset (keyBytes piece.key) (piece.bytes memory)) db (bulkPieces keys sizes)
  ({ result := { entriesTouched := UInt64.ofNat (replies.count true) } }, db)

end Redis

/-- The loop that fills `offsets`. -/
def ustoreOffsets (sizes : List UInt32) : List UInt32 := sizes.scanl (· + ·) 0

/-- The pieces that `ustore_write` reads with the strides of `batch_upsert`. -/
def ustorePieces (keys : List UInt64) (sizes : List UInt32) : List Piece :=
  (keys.zip ((ustoreOffsets sizes).zip sizes)).map fun (key, offset, size) =>
    ⟨key, offset.toNat, size⟩

/-- `ustore_write` of many keys. -/
def ustoreWriteAll (memory : ℤ → UInt8) (pieces : List Piece) (store : UStoreMap) :
    Bool × UStoreMap :=
  (true, store.putAll (pieces.map fun piece => (ustoreKey piece.key, piece.bytes memory)))

def UStore.batchUpsert (db : UStore) (memory : ℤ → UInt8) (keys : List UInt64)
    (sizes : List UInt32) : Reply ℤ × UStore :=
  let (status, store) := ustoreWriteAll memory (ustorePieces keys sizes) db.store
  ({ result := {
      entriesTouched := if status then UInt64.ofNat keys.length else 0
      status := ustoreStatus status } }, { store := store })

/-- The write is made once more after a commit if it fails. -/
def UStoreTransaction.batchUpsert (t : UStoreTransaction) (memory : ℤ → UInt8)
    (keys : List UInt64) (sizes : List UInt32) : Reply ℤ × UStoreTransaction :=
  let (status, view) := ustoreWriteAll memory (ustorePieces keys sizes) t.view
  let (status, t) :=
    if !status then
      let (committed, t) := t.commit
      if committed then
        let (status, view) := ustoreWriteAll memory (ustorePieces keys sizes) t.view
        (status, { t with view := view })
      else (status, t)
    else (status, { t with view := view })
  ({ result := {
      entriesTouched := if status then UInt64.ofNat keys.length else 0
      status := ustoreStatus status } }, t)

/-- The sum of the sizes before an index. -/
def sizesBefore (sizes : List UInt32) (i : ℕ) : ℕ := ((sizes.take i).map UInt32.toNat).sum

/-- Each key comes with its own bytes, those behind the sizes before it. -/
structure Batch.Pairs (batch : Batch) (pieces : List Piece) : Prop where
  length : pieces.length = batch.keys.length
  own : ∀ (i : ℕ) (key : UInt64) (size : UInt32), batch.keys[i]? = some key →
    batch.sizes[i]? = some size → ∃ piece, pieces[i]? = some piece ∧ piece.key = key ∧
      piece.length = size ∧ piece.indices = Set.Ico (sizesBefore batch.sizes i : ℤ)
        (sizesBefore batch.sizes i + size.toNat)

variable {batch : Batch} {keys : List UInt64} {sizes : List UInt32} {i : ℕ} {key : UInt64}
  {size : UInt32} {pieces : List Piece} {memory : ℤ → UInt8}

/-- Two stretches of one length are the same when they are empty or start alike. -/
theorem stretch_eq_iff {a b : ℤ} {n : ℕ} :
    Set.Ico a (a + n) = Set.Ico b (b + n) ↔ n = 0 ∨ a = b := by
  by_cases hn : n = 0
  · subst hn
    simp
  · rw [Set.Ico_eq_Ico_iff (Or.inl (by omega)), or_iff_right hn]
    exact ⟨fun h => h.1, fun h => ⟨h, by omega⟩⟩

theorem pieceLoop_length {ω : Type} {add : ω → UInt32 → ω} {position : ω → ℤ} {offset : ω} :
    (pieceLoop add position offset keys sizes).length = min keys.length sizes.length := by
  induction keys generalizing offset sizes with
  | nil => simp [pieceLoop]
  | cons key keys ih =>
    cases sizes with
    | nil => simp [pieceLoop]
    | cons size sizes =>
      rw [pieceLoop, List.length_cons, List.length_cons, List.length_cons, ih]
      omega

theorem pieceLoop_getElem {ω : Type} {add : ω → UInt32 → ω} {position : ω → ℤ} {offset : ω}
    (hkey : keys[i]? = some key) (hsize : sizes[i]? = some size) :
    (pieceLoop add position offset keys sizes)[i]? =
      some ⟨key, position ((sizes.take i).foldl add offset), size⟩ := by
  induction keys generalizing i offset sizes with
  | nil => simp at hkey
  | cons first keys ih =>
    cases sizes with
    | nil => simp at hsize
    | cons firstSize sizes =>
      rw [pieceLoop]
      cases i with
      | zero =>
        cases Option.some.inj hkey
        cases Option.some.inj hsize
        rfl
      | succ i => exact ih hkey hsize

/-- A running offset pairs right exactly when it points to the sum of the sizes before every
value that has bytes. -/
theorem pairs_iff (position : ℕ → ℤ) (hlength : pieces.length = batch.keys.length)
    (hpieces : ∀ (i : ℕ) (key : UInt64) (size : UInt32), batch.keys[i]? = some key →
      batch.sizes[i]? = some size →
      pieces[i]? = some ⟨key, position (sizesBefore batch.sizes i), size⟩) :
    batch.Pairs pieces ↔ ∀ (i : ℕ) (size : UInt32), batch.sizes[i]? = some size → size ≠ 0 →
      position (sizesBefore batch.sizes i) = sizesBefore batch.sizes i := by
  constructor
  · intro h i size hsize hne
    obtain ⟨hi, -⟩ := List.getElem?_eq_some_iff.mp hsize
    have hkey := List.getElem?_eq_getElem (batch.sizes_length ▸ hi)
    obtain ⟨piece, hpiece, -, -, hindices⟩ := h.own i _ size hkey hsize
    cases Option.some.inj (hpiece.symm.trans (hpieces i _ size hkey hsize))
    exact (stretch_eq_iff.mp hindices).resolve_left fun hzero => hne (UInt32.toNat_inj.mp hzero)
  · intro h
    refine ⟨hlength, fun i key size hkey hsize => ?_⟩
    refine ⟨_, hpieces i key size hkey hsize, rfl, rfl, stretch_eq_iff.mpr ?_⟩
    by_cases hzero : size = 0
    · exact Or.inl (by rw [hzero]; rfl)
    · exact Or.inr (h i size hsize hzero)

theorem Redis.addOffset_ofNat (n : ℕ) (size : UInt32) :
    addOffset (Int32.ofNat n) size = Int32.ofNat (n + size.toNat) := by
  have hsize : size = UInt32.ofNat size.toNat := UInt32.ofNat_toNat.symm
  unfold addOffset
  rw [Int32.toUInt32_ofNat', hsize, ← UInt32.ofNat_add, UInt32.toInt32_ofNat', ← hsize]

theorem Redis.foldl_addOffset (sizes : List UInt32) (n : ℕ) :
    sizes.foldl addOffset (Int32.ofNat n) = Int32.ofNat (n + (sizes.map UInt32.toNat).sum) := by
  induction sizes generalizing n with
  | nil => rfl
  | cons size sizes ih =>
    rw [List.foldl_cons, addOffset_ofNat, ih, List.map_cons, List.sum_cons, Nat.add_assoc]

theorem foldl_add_ofNat (sizes : List UInt32) (n : ℕ) :
    sizes.foldl (· + ·) (UInt32.ofNat n) = UInt32.ofNat (n + (sizes.map UInt32.toNat).sum) := by
  induction sizes generalizing n with
  | nil => rfl
  | cons size sizes ih =>
    have hsize : UInt32.ofNat n + size = UInt32.ofNat (n + size.toNat) := by
      rw [UInt32.ofNat_add, UInt32.ofNat_toNat]
    rw [List.foldl_cons, hsize, ih, List.map_cons, List.sum_cons, Nat.add_assoc]

/-- An `int` points to a sum of sizes exactly when it is below half of the word. -/
theorem Redis.bulkPieces_iff (batch : Batch) :
    batch.Pairs (bulkPieces batch.keys batch.sizes) ↔
      ∀ (i : ℕ) (size : UInt32), batch.sizes[i]? = some size → size ≠ 0 →
        sizesBefore batch.sizes i < 2 ^ 31 := by
  have hposition : ∀ n : ℕ, (Int32.ofNat n).toInt = n ↔ n < 2 ^ 31 := by
    intro n
    rw [Int32.toInt_ofNat', Int.bmod_def, Int32.size]
    omega
  rw [pairs_iff fun n => (Int32.ofNat n).toInt]
  · simp only [hposition]
  · rw [bulkPieces, pieceLoop_length, batch.sizes_length, Nat.min_self]
  · intro i key size hkey hsize
    have hfold := foldl_addOffset (batch.sizes.take i) 0
    rw [Nat.zero_add] at hfold
    rw [bulkPieces, pieceLoop_getElem hkey hsize]
    change some (Piece.mk key ((batch.sizes.take i).foldl addOffset (Int32.ofNat 0)).toInt size) = _
    rw [hfold, sizesBefore]

theorem ustorePieces_iff (batch : Batch) :
    batch.Pairs (ustorePieces batch.keys batch.sizes) ↔
      ∀ (i : ℕ) (size : UInt32), batch.sizes[i]? = some size → size ≠ 0 →
        sizesBefore batch.sizes i < 2 ^ 32 := by
  have hposition : ∀ n : ℕ, ((UInt32.ofNat n).toNat : ℤ) = n ↔ n < 2 ^ 32 := by
    intro n
    rw [UInt32.toNat_ofNat']
    omega
  have hoffsets : (ustoreOffsets batch.sizes).length = batch.sizes.length + 1 :=
    List.length_scanl
  rw [pairs_iff fun n => ((UInt32.ofNat n).toNat : ℤ)]
  · simp only [hposition]
  · rw [ustorePieces, List.length_map, List.length_zip, List.length_zip, hoffsets,
      batch.sizes_length]
    omega
  · intro i key size hkey hsize
    obtain ⟨hi, -⟩ := List.getElem?_eq_some_iff.mp hsize
    have hfold := foldl_add_ofNat (batch.sizes.take i) 0
    rw [Nat.zero_add] at hfold
    have hoffset : (ustoreOffsets batch.sizes)[i]? =
        some (UInt32.ofNat (sizesBefore batch.sizes i)) := by
      rw [ustoreOffsets, List.getElem?_scanl, if_pos hi.le, sizesBefore, ← hfold]
      rfl
    have hzip : ((ustoreOffsets batch.sizes).zip batch.sizes)[i]? =
        some (UInt32.ofNat (sizesBefore batch.sizes i), size) :=
      List.getElem?_zip_eq_some.mpr ⟨hoffset, hsize⟩
    have htriple : (batch.keys.zip ((ustoreOffsets batch.sizes).zip batch.sizes))[i]? =
        some (key, UInt32.ofNat (sizesBefore batch.sizes i), size) :=
      List.getElem?_zip_eq_some.mpr ⟨hkey, hzip⟩
    rw [ustorePieces, List.getElem?_map, htriple]
    rfl

/-- The memory that holds the values, and anything around them. -/
def Batch.InMemory (batch : Batch) (memory : ℤ → UInt8) : Prop :=
  ∀ (i : ℕ) (hi : i < batch.values.length), memory i = batch.values[i]

/-- The loop with an offset of `size_t` is one of the family. -/
theorem sliceLoop_eq_map (values : Bytes) (offset : ℕ) (keys : List UInt64) (sizes : List UInt32) :
    sliceLoop values offset keys sizes =
      (pieceLoop (fun offset size => offset + size.toNat) Nat.cast offset keys sizes).map
        fun piece => (piece.key, (values.drop piece.position.toNat).take piece.length.toNat) := by
  induction keys generalizing offset sizes with
  | nil => rfl
  | cons key keys ih =>
    cases sizes with
    | nil => rfl
    | cons size sizes => rw [sliceLoop, pieceLoop, List.map_cons, ih, Int.toNat_natCast]

theorem foldl_add_toNat (sizes : List UInt32) (n : ℕ) :
    sizes.foldl (fun offset size => offset + size.toNat) n = n + (sizes.map UInt32.toNat).sum := by
  induction sizes generalizing n with
  | nil => rfl
  | cons size sizes ih => rw [List.foldl_cons, ih, List.map_cons, List.sum_cons, Nat.add_assoc]

theorem Batch.slices_getElem (hkey : batch.keys[i]? = some key)
    (hsize : batch.sizes[i]? = some size) :
    batch.slices[i]? =
      some (key, (batch.values.drop (sizesBefore batch.sizes i)).take size.toNat) := by
  rw [Batch.slices, sliceLoop_eq_map, List.getElem?_map, pieceLoop_getElem hkey hsize,
    foldl_add_toNat, Nat.zero_add]
  rfl

theorem Batch.sizesBefore_add_le (hsize : batch.sizes[i]? = some size) :
    sizesBefore batch.sizes i + size.toNat ≤ batch.values.length := by
  obtain ⟨hi, hget⟩ := List.getElem?_eq_some_iff.mp hsize
  have hsplit := List.take_append_drop i batch.sizes
  rw [List.drop_eq_getElem_cons hi, hget] at hsplit
  have hsum := batch.sizes_sum
  rw [← hsplit, List.map_append, List.map_cons, List.sum_append, List.sum_cons] at hsum
  rw [sizesBefore]
  omega

theorem Batch.InMemory.bytes (h : batch.InMemory memory) {start length : ℕ}
    (hfit : start + length ≤ batch.values.length) :
    ((List.range length).map fun j : ℕ => memory ((start : ℤ) + j)) =
      (batch.values.drop start).take length := by
  apply List.ext_getElem
  · rw [List.length_map, List.length_range, List.length_take, List.length_drop]
    omega
  · intro j hj _
    rw [List.length_map, List.length_range] at hj
    have hvalue := h (start + j) (by omega)
    rw [Nat.cast_add] at hvalue
    rw [List.getElem_map, List.getElem_range, List.getElem_take, List.getElem_drop, hvalue]

/-- Pieces that pair right are read as the slices of the loops whose offset is a `size_t`. -/
theorem Batch.Pairs.bytes (h : batch.Pairs pieces) (hmemory : batch.InMemory memory) :
    pieces.map (fun piece => (piece.key, piece.bytes memory)) = batch.slices := by
  have hlength : batch.slices.length = batch.keys.length := by
    rw [Batch.slices_eq, batch.entries_length]
  apply List.ext_getElem
  · rw [List.length_map, h.length, hlength]
  · intro i hi hi'
    rw [hlength] at hi'
    have hkey := List.getElem?_eq_getElem hi'
    have hsize := List.getElem?_eq_getElem (batch.sizes_length.symm ▸ hi')
    obtain ⟨piece, hpiece, hown, hlen, hindices⟩ := h.own i _ _ hkey hsize
    have hslice := Batch.slices_getElem hkey hsize
    have hread : piece.bytes memory =
        (batch.values.drop (sizesBefore batch.sizes i)).take piece.length.toNat := by
      rw [Piece.indices, hlen, stretch_eq_iff] at hindices
      rw [Piece.bytes, hlen]
      rcases hindices with hzero | hstart
      · rw [hzero]
        simp
      · rw [hstart]
        exact hmemory.bytes (Batch.sizesBefore_add_le hsize)
    obtain ⟨hlt, hget⟩ := List.getElem?_eq_some_iff.mp hpiece
    obtain ⟨hlt', hget'⟩ := List.getElem?_eq_some_iff.mp hslice
    rw [List.getElem_map, hget, hget', hown, hread, hlen]

theorem Batch.Pairs.map_key (h : batch.Pairs pieces) (hmemory : batch.InMemory memory) :
    pieces.map Piece.key = batch.keys := by
  have hslices := congrArg (List.map Prod.fst) (h.bytes hmemory)
  rw [Batch.slices_eq, batch.entries_keys, List.map_map] at hslices
  exact hslices

theorem Redis.run_hset (db : Redis) (memory : ℤ → UInt8) (pieces : List Piece) :
    (run (fun (db : Redis) (piece : Piece) => db.hset (keyBytes piece.key) (piece.bytes memory))
      db pieces).2.hash =
      db.hash.putAll ((pieces.map fun piece => (piece.key, piece.bytes memory)).map
        (Prod.map keyBytes id)) := by
  induction pieces generalizing db with
  | nil => rfl
  | cons piece pieces ih => exact ih _

/-- A bulk counts the fields that are new when it sets them. -/
theorem Redis.count_hset_iff (memory : ℤ → UInt8) (pieces : List Piece) (db : Redis) :
    (run (fun (db : Redis) (piece : Piece) => db.hset (keyBytes piece.key) (piece.bytes memory))
        db pieces).1.count true = pieces.length ↔
      (pieces.map Piece.key).Nodup ∧
        ∀ key ∈ pieces.map Piece.key, db.hash.get (keyBytes key) = none := by
  induction pieces generalizing db with
  | nil => simp [run]
  | cons piece pieces ih =>
    rw [run, List.map_cons, List.nodup_cons, List.forall_mem_cons, List.length_cons]
    dsimp only
    cases hget : db.hash.get (keyBytes piece.key) with
    | some old =>
      refine iff_of_false (fun hcount => ?_) fun hboth => by cases hboth.2.1
      have hle := List.count_le_length (a := true) (l := (run (fun (db : Redis) (piece : Piece) =>
        db.hset (keyBytes piece.key) (piece.bytes memory))
          (db.hset (keyBytes piece.key) (piece.bytes memory)).2 pieces).1)
      have hfalse : (db.hset (keyBytes piece.key) (piece.bytes memory)).1 = false := by
        rw [hset, hget]
        rfl
      rw [length_replies] at hle
      rw [hfalse, List.count_cons_of_ne (by decide)] at hcount
      omega
    | none =>
      have htrue : (db.hset (keyBytes piece.key) (piece.bytes memory)).1 = true := by
        rw [hset, hget]
        rfl
      rw [htrue, List.count_cons_self, Nat.add_right_cancel_iff, ih, and_iff_right rfl]
      have hput : ∀ key, (db.hset (keyBytes piece.key) (piece.bytes memory)).2.hash.get
          (keyBytes key) = none ↔ key ≠ piece.key ∧ db.hash.get (keyBytes key) = none := by
        intro key
        rw [hset, SortedMap.get_put]
        by_cases heq : key = piece.key
        · simp [heq]
        · rw [if_neg (fun hbytes => heq (keyBytes_injective hbytes)), and_iff_right heq]
      simp only [hput]
      constructor
      · rintro ⟨hnodup, hnew⟩
        exact ⟨⟨fun hmem => (hnew _ hmem).1 rfl, hnodup⟩, fun key hkey => (hnew key hkey).2⟩
      · rintro ⟨⟨hfresh, hnodup⟩, hnew⟩
        exact ⟨hnodup, fun key hkey => ⟨fun heq => hfresh (heq ▸ hkey), hnew key hkey⟩⟩

/-- A bulk that pairs right stores its entries. -/
theorem Redis.bulkLoad_hash {db : Redis}
    (h : batch.Pairs (Redis.bulkPieces batch.keys batch.sizes)) (hmemory : batch.InMemory memory) :
    (db.bulkLoad memory batch.keys batch.sizes).2.hash =
      db.hash.putAll (batch.entries.map (Prod.map keyBytes id)) := by
  rw [← Batch.slices_eq, ← h.bytes hmemory]
  exact run_hset db memory _

theorem UStore.batchUpsert_store {db : UStore}
    (h : batch.Pairs (ustorePieces batch.keys batch.sizes)) (hmemory : batch.InMemory memory) :
    (db.batchUpsert memory batch.keys batch.sizes).2.store =
      db.store.putAll (batch.entries.map (Prod.map ustoreKey id)) := by
  rw [← Batch.slices_eq, ← h.bytes hmemory, List.map_map]
  rfl

theorem UStoreTransaction.batchUpsert_view {t : UStoreTransaction}
    (h : batch.Pairs (ustorePieces batch.keys batch.sizes)) (hmemory : batch.InMemory memory) :
    (t.batchUpsert memory batch.keys batch.sizes).2.view =
      t.view.putAll (batch.entries.map (Prod.map ustoreKey id)) := by
  rw [← Batch.slices_eq, ← h.bytes hmemory, List.map_map]
  rfl

/-- For every batch, `bulk_load` of redis pairs each key with its own bytes exactly when every
value that has any starts below two to the 31st, and `batch_upsert` of both ustore adapters
exactly when it starts below two to the 32nd. -/
theorem batch_writers_pair_iff (batch : Batch) :
    (batch.Pairs (Redis.bulkPieces batch.keys batch.sizes) ↔
      ∀ (i : ℕ) (size : UInt32), batch.sizes[i]? = some size → size ≠ 0 →
        sizesBefore batch.sizes i < 2 ^ 31) ∧
    (batch.Pairs (ustorePieces batch.keys batch.sizes) ↔
      ∀ (i : ℕ) (size : UInt32), batch.sizes[i]? = some size → size ≠ 0 →
        sizesBefore batch.sizes i < 2 ^ 32) :=
  ⟨Redis.bulkPieces_iff batch, ustorePieces_iff batch⟩

/-- Three values, the third of which starts at two to the 32nd. -/
def threeValues (values : Bytes) (h : values.length = 2 ^ 32 + 1) : Batch where
  keys := [1, 2, 3]
  values := values
  sizes := [2147483648, 2147483648, 1]
  sizes_length := rfl
  sizes_sum := h.symm

theorem threeValues_wrap (values : Bytes) (h : values.length = 2 ^ 32 + 1) :
    ¬(threeValues values h).Pairs
        (Redis.bulkPieces (threeValues values h).keys (threeValues values h).sizes) ∧
      ¬(threeValues values h).Pairs
        (ustorePieces (threeValues values h).keys (threeValues values h).sizes) := by
  have hsize : (threeValues values h).sizes[2]? = some 1 := rfl
  have hsizes : (threeValues values h).sizes = [2147483648, 2147483648, 1] := rfl
  have hstart : sizesBefore (threeValues values h).sizes 2 = 2 ^ 32 := by
    rw [hsizes]
    rfl
  constructor
  · intro hpairs
    have hlt := (Redis.bulkPieces_iff _).mp hpairs 2 1 hsize (by decide)
    omega
  · intro hpairs
    have hlt := (ustorePieces_iff _).mp hpairs 2 1 hsize (by decide)
    omega

theorem exists_values (n : ℕ) : ∃ values : Bytes, values.length = n :=
  ⟨List.replicate n 7, List.length_replicate⟩

/-- A batch of four gigabytes and one byte is not written as it was handed over. -/
theorem batch_writers_wrap :
    ∃ batch : Batch, batch.keys = [1, 2, 3] ∧ batch.values.length = 2 ^ 32 + 1 ∧
      ¬batch.Pairs (Redis.bulkPieces batch.keys batch.sizes) ∧
      ¬batch.Pairs (ustorePieces batch.keys batch.sizes) := by
  obtain ⟨values, hvalues⟩ := exists_values (2 ^ 32 + 1)
  obtain ⟨hredis, hustore⟩ := threeValues_wrap values hvalues
  exact ⟨threeValues values hvalues, rfl, hvalues, hredis, hustore⟩

end Ucsb
