import Ucsb.KeyRange
import Ucsb.InsertCompletes
import Ucsb.ImageRepeats
import Ucsb.WordBytes

namespace Ucsb

open ExceptRules BinaryRounding BalancedShare ConsecutiveWords ImageRepeats
open scoped WordBytes

/-- A workload with batch reads of zipfian keys and without insertions. -/
structure Workload.ReadsBatches (w : Workload) : Prop where
  batchRead : 0 < w.batchReadProportion
  upsert : w.upsertProportion = 0
  batchUpsert : w.batchUpsertProportion = 0
  bulkLoad : w.bulkLoadProportion = 0
  keyDist : w.keyDist = .zipfian

theorem Workload.ReadsBatches.not_insertOnly {w : Workload} (h : w.ReadsBatches) :
    ¬w.InsertOnly := by
  simp [Workload.InsertOnly, h.upsert, h.batchUpsert, h.bulkLoad]

namespace ScrambledZipfianGenerator

theorem scramble_eq {g : ScrambledZipfianGenerator} (h : g.numItems ≠ 0) (value : UInt64) :
    g.scramble value = .ok (g.scrambled value) := if_neg h

theorem scramble_eq_ok {g : ScrambledZipfianGenerator} {value key : UInt64}
    (h : g.scramble value = .ok key) : key = g.scrambled value := by
  unfold scramble at h
  split at h
  next => simp at h
  next => exact (Except.ok.inj h).symm

/-- Values repeat a key as they repeat the remainder of the hash. -/
theorem repeats_scrambled (g : ScrambledZipfianGenerator) (values : Finset UInt64) :
    repeats g.scrambled values = repeats (fun value => fnvHash64 value % g.numItems) values := by
  simp only [repeats, scrambled, UInt64.add_right_inj]

end ScrambledZipfianGenerator

namespace Worker

variable {w w' : Worker} {generator : ScrambledZipfianGenerator} {values : Finset UInt64}
  {batchLength rounds : ℕ} {uniqueKeys : List UInt64}

/-- The loop of `generate_batch_read_keys` ends for some values of the inner generator
after it was asked for `length` keys. -/
def CanCollect (w : Worker) (values : Finset UInt64) (length : UInt64) : Prop :=
  ∃ draws keys w', draws.length = length ∧ (∀ draw ∈ draws.keys, draw.value ∈ values) ∧
    w.generateBatchReadKeys draws = .ok (keys, w')

theorem generateKey_spec {draws rest : List KeyDraw} {key : UInt64}
    (hgenerator : w.keyGenerator = some (.scrambledZipfian generator))
    (h : w.generateKey draws = .ok (key, rest)) :
    (∃ draw ∈ draws, key = generator.scrambled draw.value) ∧ ∀ draw ∈ rest, draw ∈ draws := by
  induction draws with
  | nil => cases h
  | cons draw draws ih =>
    simp only [generateKey, hgenerator, bind_eq_ok] at h
    obtain ⟨drawn, hdrawn, h⟩ := h
    split at h
    next =>
      obtain ⟨⟨source, hsource, hkey⟩, hrest⟩ := ih h
      exact ⟨⟨source, List.mem_cons_of_mem _ hsource, hkey⟩,
        fun other hother => List.mem_cons_of_mem _ (hrest other hother)⟩
    next =>
      cases Except.ok.inj h
      exact ⟨⟨draw, List.mem_cons_self, ScrambledZipfianGenerator.scramble_eq_ok hdrawn⟩,
        fun other hother => List.mem_cons_of_mem _ hother⟩

/-- The loop ends with different keys that the generator returns, and with no more of
them than there are. -/
theorem collectKeys_le_card {draws : List KeyDraw}
    (hgenerator : w.keyGenerator = some (.scrambledZipfian generator))
    (hdraws : ∀ draw ∈ draws, draw.value ∈ values) (hnodup : uniqueKeys.Nodup)
    (hkeys : ∀ key ∈ uniqueKeys, key ∈ values.image generator.scrambled)
    (h : collectKeys batchLength rounds uniqueKeys draws w = .ok w') :
    batchLength ≤ (values.image generator.scrambled).card := by
  induction rounds generalizing uniqueKeys draws w with
  | zero => cases h
  | succ rounds ih =>
    rw [collectKeys] at h
    split at h
    next hlength =>
      have hsub : uniqueKeys.toFinset ⊆ values.image generator.scrambled := by
        intro key hkey
        exact hkeys key (List.mem_toFinset.mp hkey)
      rw [← hlength, ← List.toFinset_card_of_nodup hnodup]
      exact Finset.card_le_card hsub
    next =>
      simp only [bind_eq_ok] at h
      obtain ⟨⟨key, rest⟩, hkey, h⟩ := h
      obtain ⟨⟨draw, hdraw, hscrambled⟩, hrest⟩ := generateKey_spec hgenerator hkey
      have hrest' : ∀ draw ∈ rest, draw.value ∈ values :=
        fun draw hdraw => hdraws draw (hrest draw hdraw)
      split at h
      next => exact ih hgenerator hrest' hnodup hkeys h
      next hnew =>
        simp only [bind_eq_ok] at h
        obtain ⟨buffer, -, h⟩ := h
        refine ih (by exact hgenerator) hrest' (List.nodup_cons.mpr ⟨hnew, hnodup⟩) ?_ h
        rw [List.forall_mem_cons]
        exact ⟨Finset.mem_image.mpr ⟨draw.value, hdraws draw hdraw, hscrambled.symm⟩, hkeys⟩

/-- A round whose key the loop does not have yet. -/
theorem collectKeys_new {draws rest : List KeyDraw} {key : UInt64}
    (hmore : uniqueKeys.length ≠ batchLength) (hdrawn : w.generateKey draws = .ok (key, rest))
    (hnew : key ∉ uniqueKeys) (hlt : uniqueKeys.length < w.keysBuffer.length) :
    collectKeys batchLength (rounds + 1) uniqueKeys draws w =
      collectKeys batchLength rounds (key :: uniqueKeys) rest
        { w with keysBuffer := w.keysBuffer.set uniqueKeys.length key } := by
  rw [collectKeys, if_neg hmore, hdrawn, ok_bind]
  simp only [hnew, if_false, writeAt_of_lt _ hlt, ok_bind]

theorem generateKey_of_le {keyGenerator : KeyGenerator} {draws : List KeyDraw} {draw : KeyDraw}
    {key : UInt64} (hgenerator : w.keyGenerator = some keyGenerator)
    (hdrawn : keyGenerator.generate w.upsertKeySequenceGenerator.last draw = .ok key)
    (hlast : key ≤ w.upsertKeySequenceGenerator.last) :
    w.generateKey (draw :: draws) = .ok (key, draws) := by
  rw [generateKey, hgenerator]
  simp only [hdrawn, ok_bind]
  exact if_neg (UInt64.not_lt.mpr hlast)

/-- One draw a round, when each of them gives a key that the loop does not have yet. -/
theorem collectKeys_of_distinct {members : List UInt64}
    (hgenerator : w.keyGenerator = some (.scrambledZipfian generator))
    (hitems : generator.numItems ≠ 0)
    (hlast : ∀ value, generator.scrambled value ≤ w.upsertKeySequenceGenerator.last)
    (hnodup : (members.map generator.scrambled ++ uniqueKeys).Nodup)
    (hlength : members.length + uniqueKeys.length = batchLength)
    (hroom : batchLength ≤ w.keysBuffer.length) (hrounds : members.length < rounds) :
    ∃ w', collectKeys batchLength rounds uniqueKeys
      (members.map fun value => { value := value }) w = .ok w' := by
  induction members generalizing rounds uniqueKeys w with
  | nil =>
    obtain ⟨rounds, rfl⟩ := Nat.exists_eq_add_one_of_ne_zero (Nat.ne_zero_of_lt hrounds)
    rw [List.length_nil, Nat.zero_add] at hlength
    refine ⟨w, ?_⟩
    rw [collectKeys, if_pos hlength]
  | cons value members ih =>
    obtain ⟨rounds, rfl⟩ := Nat.exists_eq_add_one_of_ne_zero (Nat.ne_zero_of_lt hrounds)
    rw [List.length_cons] at hlength hrounds
    have hmore : uniqueKeys.length ≠ batchLength := by omega
    have hlt : uniqueKeys.length < w.keysBuffer.length := by omega
    have hdrawn : w.generateKey ((value :: members).map fun value => { value := value }) =
        .ok (generator.scrambled value, members.map fun value => { value := value }) :=
      generateKey_of_le hgenerator (ScrambledZipfianGenerator.scramble_eq hitems value)
        (hlast value)
    rw [List.map_cons, List.cons_append, List.nodup_cons, List.mem_append, not_or] at hnodup
    obtain ⟨⟨hother, hnew⟩, hrest⟩ := hnodup
    have hnext : (members.map generator.scrambled ++
        generator.scrambled value :: uniqueKeys).Nodup := by
      rw [List.nodup_middle, List.nodup_cons, List.mem_append, not_or]
      exact ⟨⟨hother, hnew⟩, hrest⟩
    rw [collectKeys_new hmore hdrawn hnew hlt]
    apply ih (by exact hgenerator) (by exact hlast) hnext
    · rw [List.length_cons]
      omega
    · rwa [List.length_set]
    · omega

/-- Between the configured lengths the loop can end exactly for those that do not exceed
the number of keys of the generator. -/
theorem canCollect_iff {length : UInt64}
    (hgenerator : w.keyGenerator = some (.scrambledZipfian generator))
    (hitems : generator.numItems ≠ 0)
    (hlast : ∀ value, generator.scrambled value ≤ w.upsertKeySequenceGenerator.last)
    (hlength : w.batchReadLengthGenerator.generate length = .ok length)
    (hroom : length.toNat ≤ w.keysBuffer.length) :
    w.CanCollect values length ↔ length.toNat ≤ (values.image generator.scrambled).card := by
  constructor
  · rintro ⟨draws, keys, w', rfl, hdraws, h⟩
    simp only [generateBatchReadKeys, hlength, ok_bind, bind_eq_ok] at h
    obtain ⟨w1, hloop, -⟩ := h
    exact collectKeys_le_card hgenerator hdraws List.nodup_nil (List.forall_mem_nil _) hloop
  · intro hle
    obtain ⟨members, hcount, hnodup, hmem⟩ := exists_distinct hle
    rw [← List.append_nil (members.map _)] at hnodup
    have hloop : ∃ w', collectKeys length.toNat (members.length + 1) []
        (members.map fun value => { value := value }) w = .ok w' :=
      collectKeys_of_distinct hgenerator hitems hlast hnodup hcount hroom (Nat.lt_succ_self _)
    obtain ⟨w', hw'⟩ := hloop
    refine ⟨{ keys := members.map fun value => { value := value }, length := length },
      w'.keysBuffer.take length.toNat, w', rfl, ?_, ?_⟩
    · rw [List.forall_mem_map]
      exact hmem
    · simp only [generateBatchReadKeys, hlength, ok_bind, List.length_map, hw']

theorem createLengthGenerator_dist {what : String} {dist : DistributionKind} {min max : UInt64}
    {lengths : LengthGenerator} (h : createLengthGenerator what dist min max = .ok lengths) :
    dist = .uniform ∨ dist = .zipfian := by
  unfold createLengthGenerator at h
  split at h
  next => exact Or.inl rfl
  next => exact Or.inr rfl
  next => cases h

theorem make_batchRead {slice : Workload} (h : Worker.make slice = .ok w) :
    w.keysBuffer.length = (elementsMaxCount slice).toNat ∧
      ∀ length, slice.batchReadMinLength ≤ length → length ≤ slice.batchReadMaxLength →
        w.batchReadLengthGenerator.generate length = .ok length := by
  simp only [make, bind_eq_ok] at h
  obtain ⟨_, _, _, _, _, _, batchRead, hbatchRead, _, _, _, _, h⟩ := h
  cases Except.ok.inj h
  refine ⟨List.length_replicate, ?_⟩
  rw [createBatchReadLengthGenerator] at hbatchRead
  obtain ⟨generator, hgenerator, hadmits⟩ := createLengthGenerator_admits "batch read length"
    slice.batchReadMinLength slice.batchReadMaxLength (createLengthGenerator_dist hbatchRead)
  cases Except.ok.inj (hbatchRead.symm.trans hgenerator)
  exact hadmits

end Worker

theorem newKeys_zero {w : Workload} (h : w.upsertProportion = 0) : newKeys w = .ok 0 := by
  rw [newKeys_eq_ok]
  simp [h, roundTo_zero]

/-- Without insertions the generator chooses from the records of the slice. -/
theorem Workload.ReadsBatches.keyGenerator_eq {slice : Workload} (h : slice.ReadsBatches)
    {worker : Worker} (hmake : Worker.make slice = .ok worker) :
    worker.keyGenerator = some (.scrambledZipfian
      (.make slice.startKey (slice.startKey + slice.recordsCount - 1))) := by
  obtain ⟨-, -, hgenerators⟩ := Worker.make_spec hmake
  simp only [createKeyGenerators, h.not_insertOnly, if_false, createKeyGenerator, h.keyDist,
    newKeys_zero h.upsert, UInt64.add_zero, ok_bind] at hgenerators
  exact (congrArg Prod.snd (Except.ok.inj hgenerators)).symm

/-- No key of the generator lies beyond the range that it was made for. -/
theorem scrambled_le {start records last value : UInt64} (hrecords : 0 < records.toNat)
    (hrange : start.toNat + records.toNat ≤ last.toNat + 1) :
    (ScrambledZipfianGenerator.make start (start + records - 1)).scrambled value ≤ last := by
  have hmod := Nat.mod_lt (ScrambledZipfianGenerator.fnvHash64 value).toNat hrecords
  rw [ScrambledZipfianGenerator.scrambled, numItems_make]
  show start + ScrambledZipfianGenerator.fnvHash64 value % records ≤ last
  rw [UInt64.le_iff_toNat_le, UInt64.toNat_add, UInt64.toNat_mod]
  have hle := Nat.mod_le
    (start.toNat + (ScrambledZipfianGenerator.fnvHash64 value).toNat % records.toNat) (2 ^ 64)
  omega

section

variable {w slice : Workload} {threadsCount : UInt64}

theorem Workload.ReadsBatches.of_slice (h : w.ReadsBatches) (hslice : slice.IsSliceOf w) :
    slice.ReadsBatches := by
  obtain ⟨_, _, _, rfl⟩ := hslice
  exact ⟨h.batchRead, h.upsert, h.batchUpsert, h.bulkLoad, h.keyDist⟩

/-- A batch has at least one key, and each thread has the records for it. -/
theorem ValidateWorkload.slice_records_pos (hvalid : ValidateWorkload w threadsCount)
    (hw : w.ReadsBatches) (hslice : slice ∈ splitWorkloadIntoThreads w threadsCount) :
    0 < slice.recordsCount.toNat := by
  obtain ⟨hmin, hle, hmax⟩ := hvalid.batchRead
  have hpos := (hmin.resolve_left (ne_of_gt hw.batchRead)).2
  obtain ⟨i, -, hi⟩ := mem_split.mp hslice
  rw [split_recordsCount hvalid.threads hi, share]
  rw [UInt64.lt_iff_toNat_lt, UInt64.toNat_zero] at hpos
  rw [UInt64.le_iff_toNat_le] at hle hmax
  rw [UInt64.toNat_div] at hmax
  omega

/-- In every state of a slice's worker a batch read can end for those of its lengths that
do not exceed the number of keys. -/
theorem slice_canCollect_iff (hvalid : ValidateWorkload w threadsCount) (hw : w.ReadsBatches)
    (hslice : slice ∈ splitWorkloadIntoThreads w threadsCount) {made worker : Worker}
    (hmake : Worker.make slice = .ok made) (hstate : made.Refills worker)
    (hrange : slice.startKey.toNat + slice.recordsCount.toNat ≤
      worker.upsertKeySequenceGenerator.last.toNat + 1) {values : Finset UInt64}
    {length : UInt64} (hmin : w.batchReadMinLength ≤ length)
    (hmax : length ≤ w.batchReadMaxLength) :
    worker.CanCollect values length ↔ length.toNat ≤ (values.image
      (ScrambledZipfianGenerator.make slice.startKey
        (slice.startKey + slice.recordsCount - 1)).scrambled).card := by
  have hrecords := hvalid.slice_records_pos hw hslice
  have hof := isSliceOf_of_mem_split hslice
  have hlengths : worker.batchReadLengthGenerator = made.batchReadLengthGenerator := by
    obtain ⟨_, _, _, _, _, rfl⟩ := hstate
    rfl
  have hgenerator := hstate.keyGenerator.trans ((hw.of_slice hof).keyGenerator_eq hmake)
  obtain ⟨hmade, hadmits⟩ := Worker.make_batchRead hmake
  have hroom : length.toNat ≤ worker.keysBuffer.length := by
    have hle := UInt64.le_iff_toNat_le.mp hmax
    obtain ⟨_, _, _, rfl⟩ := hof
    rw [hstate.keysBuffer, hmade]
    simp only [elementsMaxCount, UInt64.toNat_max]
    omega
  have hlength : worker.batchReadLengthGenerator.generate length = .ok length := by
    rw [hlengths]
    obtain ⟨_, _, _, rfl⟩ := hof
    exact hadmits length hmin hmax
  have hitems : (ScrambledZipfianGenerator.make slice.startKey
      (slice.startKey + slice.recordsCount - 1)).numItems ≠ 0 := by
    rw [numItems_make]
    intro hzero
    rw [hzero] at hrecords
    exact absurd hrecords (Nat.lt_irrefl 0)
  exact Worker.canCollect_iff hgenerator hitems (fun _ => scrambled_le hrecords hrange) hlength
    hroom

/-- The values that repeat a remainder of the hash decide how many keys a batch can have. -/
theorem batch_read_can_end_iff (hvalid : ValidateWorkload w threadsCount) (hw : w.ReadsBatches)
    (hslice : slice ∈ splitWorkloadIntoThreads w threadsCount) {made worker : Worker}
    (hmake : Worker.make slice = .ok made) (hstate : made.Refills worker)
    (hrange : slice.startKey.toNat + slice.recordsCount.toNat ≤
      worker.upsertKeySequenceGenerator.last.toNat + 1) (values : Finset UInt64) :
    ∃ generator, worker.keyGenerator = some (.scrambledZipfian generator) ∧
      (w.batchReadMaxLength.toNat ≤ (values.image generator.scrambled).card ↔
        (repeats (fun value => ScrambledZipfianGenerator.fnvHash64 value % slice.recordsCount)
          values).card + w.batchReadMaxLength.toNat ≤ values.card) ∧
      ((∀ length, w.batchReadMinLength ≤ length → length ≤ w.batchReadMaxLength →
        worker.CanCollect values length) ↔
        (repeats (fun value => ScrambledZipfianGenerator.fnvHash64 value % slice.recordsCount)
          values).card + w.batchReadMaxLength.toNat ≤ values.card) := by
  have hof := isSliceOf_of_mem_split hslice
  have hgenerator := hstate.keyGenerator.trans ((hw.of_slice hof).keyGenerator_eq hmake)
  have hcount := card_repeats_add_image (f := ScrambledZipfianGenerator.scrambled
    (.make slice.startKey (slice.startKey + slice.recordsCount - 1))) (s := values)
  rw [ScrambledZipfianGenerator.repeats_scrambled, numItems_make] at hcount
  refine ⟨_, hgenerator, by omega, ?_⟩
  constructor
  · intro h
    have hlongest := h _ hvalid.batchRead.2.1 (UInt64.le_refl _)
    rw [slice_canCollect_iff hvalid hw hslice hmake hstate hrange hvalid.batchRead.2.1
      (UInt64.le_refl _)] at hlongest
    omega
  · intro h length hmin hmax
    have hle := UInt64.le_iff_toNat_le.mp hmax
    rw [slice_canCollect_iff hvalid hw hslice hmake hstate hrange hmin hmax]
    omega

end

/-- One batch of up to all its records, on one thread. -/
def readBatch (records : UInt64) : Workload :=
  { name := "BatchRead", dbRecordsCount := records, dbOperationsCount := 1,
    batchReadProportion := 1, keyDist := .zipfian, valueLength := 8,
    batchReadMinLength := 1, batchReadMaxLength := records }

theorem readBatch_validateWorkload {records : UInt64} (h : 0 < records) :
    ValidateWorkload (readBatch records) 1 where
  threads := by decide
  name := by simp [readBatch]
  records := h
  operations := show (0 : UInt64) < 1 by decide
  proportion := by
    have hone : roundTo 24 1 = 1 := roundTo_one (by decide)
    simp [proportionSum, readBatch, roundTo_zero, hone]
  valueLength := show (0 : UInt32) < 8 by decide
  keyDist := by simp [readBatch]
  batchUpsert := lengthsValid_unused _
  batchRead := by
    rw [UInt64.lt_iff_toNat_lt] at h
    refine ⟨Or.inr ⟨by simp [readBatch], show (0 : UInt64) < 1 by decide⟩, ?_, ?_⟩
    · rw [UInt64.le_iff_toNat_le]
      exact h
    · rw [UInt64.le_iff_toNat_le, UInt64.toNat_div]
      exact Nat.le_of_eq (Nat.div_one _).symm
  bulkLoad := lengthsValid_unused _
  rangeSelect := lengthsValid_unused _

theorem readBatch_readsBatches (records : UInt64) : (readBatch records).ReadsBatches where
  batchRead := by simp [readBatch]
  upsert := rfl
  batchUpsert := rfl
  bulkLoad := rfl
  keyDist := rfl

def readBatchSlice (records : UInt64) : Workload :=
  { readBatch records with recordsCount := records, operationsCount := 1 }

theorem readBatchSlice_readsBatches (records : UInt64) :
    (readBatchSlice records).ReadsBatches :=
  (readBatch_readsBatches records).of_slice ⟨records, 1, 0, rfl⟩

theorem readBatchSlice_make (records : UInt64) :
    ∃ worker, Worker.make (readBatchSlice records) = .ok worker ∧
      worker.upsertKeySequenceGenerator.last = records - 1 := by
  have hmixed := (readBatchSlice_readsBatches records).not_insertOnly
  have hkeys : newKeys (readBatchSlice records) = .ok 0 := newKeys_zero rfl
  have hgenerators : ∃ generators, createKeyGenerators (readBatchSlice records) =
      .ok generators := by
    simp only [createKeyGenerators, hmixed, if_false, createKeyGenerator,
      (readBatchSlice_readsBatches records).keyDist, hkeys, ok_bind]
    exact ⟨_, rfl⟩
  obtain ⟨generators, hgenerators⟩ := hgenerators
  have hmake : ∃ worker, Worker.make (readBatchSlice records) = .ok worker := by
    simp only [Worker.make, bind_eq_ok]
    exact ⟨_, _, hgenerators, _, rfl, _, rfl, _, rfl, _, rfl, _, rfl, rfl⟩
  obtain ⟨worker, hmake⟩ := hmake
  refine ⟨worker, hmake, ?_⟩
  rw [Worker.make_mixed hmixed hmake]
  rfl

/-- The five values of the inner generator for four records leave no record out. -/
theorem batch_read_can_end_four :
    ∃ worker, Worker.make (readBatchSlice 4) = .ok worker ∧ ∀ length : UInt64,
      1 ≤ length → length ≤ 4 → worker.CanCollect {0, 1, 2, 3, 4} length := by
  obtain ⟨worker, hmake, hlast⟩ := readBatchSlice_make 4
  have hslice : readBatchSlice 4 ∈ splitWorkloadIntoThreads (readBatch 4) 1 := by decide
  have hrange : (readBatchSlice 4).startKey.toNat + (readBatchSlice 4).recordsCount.toNat ≤
      worker.upsertKeySequenceGenerator.last.toNat + 1 := by
    rw [hlast]
    decide
  obtain ⟨generator, -, -, hcollect⟩ := batch_read_can_end_iff
    (readBatch_validateWorkload (by decide)) (readBatch_readsBatches 4) hslice hmake (.refl _)
    hrange {0, 1, 2, 3, 4}
  exact ⟨worker, hmake, hcollect.mpr (by decide +kernel)⟩

/-- Ten of nineteen records can be drawn, also if rounding takes the inner generator one
value too far. -/
theorem batch_read_never_ends :
    ValidateWorkload (readBatch 19) 1 ∧ (readBatch 19).ReadsBatches ∧
      readBatchSlice 19 ∈ splitWorkloadIntoThreads (readBatch 19) 1 ∧
      ∃ worker generator, Worker.make (readBatchSlice 19) = .ok worker ∧
        (readBatchSlice 19).startKey.toNat + (readBatchSlice 19).recordsCount.toNat ≤
          worker.upsertKeySequenceGenerator.last.toNat + 1 ∧
        worker.keyGenerator = some (.scrambledZipfian generator) ∧
        ∀ values : Finset UInt64,
          (∀ value ∈ values, (readBatchSlice 19).startKey ≤ value ∧
            value ≤ (readBatchSlice 19).startKey + (readBatchSlice 19).recordsCount + 1) →
          (values.image generator.scrambled).card < (readBatch 19).batchReadMaxLength.toNat ∧
            ¬worker.CanCollect values (readBatch 19).batchReadMaxLength := by
  have hvalid := readBatch_validateWorkload (show 0 < 19 by decide)
  have hslice : readBatchSlice 19 ∈ splitWorkloadIntoThreads (readBatch 19) 1 := by decide
  obtain ⟨worker, hmake, hlast⟩ := readBatchSlice_make 19
  have hrange : (readBatchSlice 19).startKey.toNat + (readBatchSlice 19).recordsCount.toNat ≤
      worker.upsertKeySequenceGenerator.last.toNat + 1 := by
    rw [hlast]
    decide
  refine ⟨hvalid, readBatch_readsBatches 19, hslice, worker, _, hmake, hrange,
    (readBatchSlice_readsBatches 19).keyGenerator_eq hmake, fun values hvalues => ?_⟩
  have hsub : values ⊆ (words 0 21).toFinset := by
    intro value hvalue
    have hle := UInt64.le_iff_toNat_le.mp (hvalues value hvalue).2
    exact List.mem_toFinset.mpr (mem_words_from_zero (Nat.lt_succ_of_le hle))
  have hten : ((words 0 21).toFinset.image (ScrambledZipfianGenerator.make
      (readBatchSlice 19).startKey ((readBatchSlice 19).startKey +
        (readBatchSlice 19).recordsCount - 1)).scrambled).card = 10 := by
    decide +kernel
  have hcard := Finset.card_le_card (Finset.image_subset_image hsub
    (f := (ScrambledZipfianGenerator.make (readBatchSlice 19).startKey
      ((readBatchSlice 19).startKey + (readBatchSlice 19).recordsCount - 1)).scrambled))
  rw [hten] at hcard
  have hlong : (readBatch 19).batchReadMaxLength.toNat = 19 := rfl
  rw [slice_canCollect_iff hvalid (readBatch_readsBatches 19) hslice hmake (.refl _) hrange
    (by decide) (UInt64.le_refl _), hlong]
  omega

end Ucsb
