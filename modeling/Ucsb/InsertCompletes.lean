import Ucsb.InsertOnlyKeys

namespace Ucsb

open ExceptRules

theorem and_add_and_not (number mask : UInt64) :
    (number &&& mask) + (number &&& ~~~mask) = number := by
  rw [← UInt64.toBitVec_inj]
  simp only [UInt64.toBitVec_add, UInt64.toBitVec_and, UInt64.toBitVec_not]
  rw [BitVec.add_eq_or_of_and_eq_zero]
  · ext i hi
    simp only [BitVec.getElem_or, BitVec.getElem_and, BitVec.getElem_not]
    grind
  · ext i hi
    simp only [BitVec.getElem_and, BitVec.getElem_not, BitVec.getElem_zero]
    grind

theorem and_4095 (number : UInt64) : (number &&& 4095).toNat = number.toNat % 4096 := by
  rw [UInt64.toNat_and]
  exact Nat.and_two_pow_sub_one_eq_mod number.toNat 12

theorem roundupToMultiple_toNat {number : UInt64} (h : number.toNat + 4095 < 2 ^ 64) :
    (roundupToMultiple alignment number).toNat = (number.toNat + 4095) / 4096 * 4096 := by
  have hround : roundupToMultiple alignment number = (number + 4095) &&& ~~~4095 := by
    have hmask : 0 - alignment = ~~~(4095 : UInt64) := by decide
    rw [roundupToMultiple, hmask]
    rfl
  have hnumber : (number + 4095).toNat = number.toNat + 4095 := by
    rw [UInt64.toNat_add]
    exact Nat.mod_eq_of_lt h
  have hsum := congrArg UInt64.toNat (and_add_and_not (number + 4095) 4095)
  have hrest := and_4095 (number + 4095)
  have hle : ((number + 4095) &&& ~~~4095).toNat ≤ number.toNat + 4095 := by
    rw [← hnumber, UInt64.toNat_and]
    exact Nat.and_le_left
  rw [UInt64.toNat_add, hrest, hnumber] at hsum
  rw [hround]
  omega

/-- Rounding up to a multiple of the alignment does not lose a byte. -/
theorem le_roundupToMultiple {number : UInt64} (h : number.toNat + 4095 < 2 ^ 64) :
    number.toNat ≤ (roundupToMultiple alignment number).toNat := by
  rw [roundupToMultiple_toNat h]
  omega

/-- The worker knows the distributions of the lengths, and the size of its values
buffer does not wrap around. -/
structure Workload.Runnable (w : Workload) : Prop where
  valueLengthDist : w.valueLengthDist = .const ∨ w.valueLengthDist = .uniform
  lengthDists : ∀ dist ∈ [w.batchUpsertLengthDist, w.batchReadLengthDist, w.bulkLoadLengthDist,
    w.rangeSelectLengthDist], dist = .uniform ∨ dist = .zipfian
  values : (elementsMaxCount w).toNat * (valueAlignedLength w).toNat < 2 ^ 64

namespace Worker

/-- Operations leave all but the sequence and the contents of the buffers. -/
def Refills (w w' : Worker) : Prop :=
  ∃ sequence keys sizes, keys.length = w.keysBuffer.length ∧
    sizes.length = w.valueSizesBuffer.length ∧
    w' = { w with
      upsertKeySequenceGenerator := sequence, keysBuffer := keys, valueSizesBuffer := sizes }

theorem Refills.refl (w : Worker) : w.Refills w :=
  ⟨_, _, _, rfl, rfl, rfl⟩

theorem Refills.trans {a b c : Worker} (h : a.Refills b) (h' : b.Refills c) : a.Refills c := by
  obtain ⟨_, keys, sizes, hkeys, hsizes, rfl⟩ := h
  obtain ⟨sequence, keys', sizes', hkeys', hsizes', rfl⟩ := h'
  exact ⟨sequence, keys', sizes', hkeys'.trans hkeys, hsizes'.trans hsizes, rfl⟩

theorem Refills.workload {w w' : Worker} (h : w.Refills w') : w'.workload = w.workload := by
  obtain ⟨_, _, _, _, _, rfl⟩ := h
  rfl

theorem Refills.keyGenerator {w w' : Worker} (h : w.Refills w') :
    w'.keyGenerator = w.keyGenerator := by
  obtain ⟨_, _, _, _, _, rfl⟩ := h
  rfl

theorem Refills.keysBuffer {w w' : Worker} (h : w.Refills w') :
    w'.keysBuffer.length = w.keysBuffer.length := by
  obtain ⟨_, _, _, hkeys, _, rfl⟩ := h
  exact hkeys

/-- The buffers have room for calls of `count` elements. -/
structure Room (w : Worker) (count : ℕ) : Prop where
  acknowledged : w.acknowledgedKeyGenerator = none
  keys : count ≤ w.keysBuffer.length
  sizes : count ≤ w.valueSizesBuffer.length
  values : count * w.workload.valueLength.toNat ≤ w.valuesBufferSize.toNat

theorem Room.mono {w : Worker} {count less : ℕ} (h : w.Room count) (hle : less ≤ count) :
    w.Room less :=
  ⟨h.acknowledged, hle.trans h.keys, hle.trans h.sizes,
    (Nat.mul_le_mul_right _ hle).trans h.values⟩

theorem Refills.room {w w' : Worker} {count : ℕ} (h : w.Refills w') (hroom : w.Room count) :
    w'.Room count := by
  obtain ⟨_, _, _, hkeys, hsizes, rfl⟩ := h
  exact ⟨hroom.acknowledged, hkeys ▸ hroom.keys, hsizes ▸ hroom.sizes, hroom.values⟩

/-- The value lengths are ones that the generator can return. -/
def AdmitsValues (w : Worker) (valueLengths : ℕ → UInt32) : Prop :=
  ∀ i, ∃ length, w.valueLengthGenerator.generate (valueLengths i) = .ok length

theorem Refills.admitsValues {w w' : Worker} {valueLengths : ℕ → UInt32} (h : w.Refills w')
    (hdraws : w.AdmitsValues valueLengths) : w'.AdmitsValues valueLengths := by
  obtain ⟨_, _, _, _, _, rfl⟩ := h
  exact hdraws

theorem writeAt_of_lt {α : Type} {buffer : List α} {i : ℕ} (value : α) (h : i < buffer.length) :
    writeAt buffer i value = .ok (buffer.set i value) :=
  if_pos h

theorem acknowledge_of_none {w : Worker} (key : UInt64) (h : w.acknowledgedKeyGenerator = none) :
    w.acknowledge key = .ok w := by
  simp [acknowledge, h]

theorem handOutKeys_completes {n i : ℕ} {w : Worker} (hack : w.acknowledgedKeyGenerator = none)
    (hi : i + n ≤ w.keysBuffer.length) : ∃ w', handOutKeys n i w = .ok w' ∧ w.Refills w' := by
  induction n generalizing i w with
  | zero => exact ⟨w, rfl, .refl w⟩
  | succ n ih =>
    have hlt : i < w.keysBuffer.length := by omega
    obtain ⟨w', hw', hrefills⟩ := ih (i := i + 1)
      (w := { w with
        upsertKeySequenceGenerator := w.upsertKeySequenceGenerator.generate.2
        keysBuffer := w.keysBuffer.set i w.upsertKeySequenceGenerator.generate.1 }) hack
      (by simp; omega)
    refine ⟨w', ?_, Refills.trans ⟨_, _, _, by simp, rfl, rfl⟩ hrefills⟩
    simp only [handOutKeys, bind_eq_ok]
    exact ⟨_, writeAt_of_lt _ hlt, _, acknowledge_of_none _ (by exact hack), hw'⟩

theorem drawSizes_completes {valueLengths : ℕ → UInt32} {n i : ℕ} {total : UInt64} {w : Worker}
    (hdraws : w.AdmitsValues valueLengths)
    (hi : i + n ≤ w.valueSizesBuffer.length) :
    ∃ total' w', drawSizes valueLengths n i total w = .ok (total', w') ∧ w.Refills w' := by
  induction n generalizing i total w with
  | zero => exact ⟨total, w, rfl, .refl w⟩
  | succ n ih =>
    have hlt : i < w.valueSizesBuffer.length := by omega
    obtain ⟨length, hlength⟩ := hdraws i
    have hnext : ∃ total' w', drawSizes valueLengths n (i + 1) (total + length.toUInt64)
        { w with valueSizesBuffer := w.valueSizesBuffer.set i length } = .ok (total', w') ∧
        Refills { w with valueSizesBuffer := w.valueSizesBuffer.set i length } w' :=
      ih hdraws (by simp; omega)
    obtain ⟨total', w', hw', hrefills⟩ := hnext
    refine ⟨total', w', ?_, Refills.trans ⟨_, _, _, rfl, by simp, rfl⟩ hrefills⟩
    simp only [drawSizes, bind_eq_ok]
    exact ⟨length, hlength, _, writeAt_of_lt _ hlt, hw'⟩

section

variable {w : Worker} {draws : Draws}

theorem generateValues_completes {count : UInt64} (hroom : w.Room count.toNat)
    (hdraws : w.AdmitsValues draws.valueLengths) :
    ∃ total sizes w', w.generateValues count draws = .ok (total, sizes, w') ∧ w.Refills w' ∧
      sizes.length = count.toNat := by
  have hfits : ¬w.valuesBufferSize < count * w.workload.valueLength.toUInt64 := by
    have hvalues := hroom.values
    have hlt := w.valuesBufferSize.toNat_lt
    rw [UInt64.lt_iff_toNat_lt, UInt64.toNat_mul, UInt32.toNat_toUInt64,
      Nat.mod_eq_of_lt (by omega)]
    omega
  have hsizes := hroom.sizes
  have hloop : ∃ total w', drawSizes draws.valueLengths count.toNat 0 0 w = .ok (total, w') ∧
      w.Refills w' :=
    drawSizes_completes hdraws (by omega)
  obtain ⟨total, w', hw', hrefills⟩ := hloop
  refine ⟨total, w'.valueSizesBuffer.take count.toNat, w', ?_, hrefills, ?_⟩
  · simp only [generateValues, hfits, if_false, bind_eq_ok]
    exact ⟨_, hw', rfl⟩
  · have hsizes' := (hrefills.room hroom).sizes
    rw [List.length_take]
    omega

theorem generateValue_completes (hroom : w.Room 1)
    (hdraws : w.AdmitsValues draws.valueLengths) :
    ∃ value w', w.generateValue draws = .ok (value, w') ∧ w.Refills w' := by
  have hone : w.Room (1 : UInt64).toNat := hroom
  obtain ⟨total, sizes, w', hw', hrefills, hlength⟩ := generateValues_completes hone hdraws
  cases sizes with
  | nil => simp at hlength
  | cons size sizes =>
    refine ⟨size.toUInt64, w', ?_, hrefills⟩
    simp only [generateValue, bind_eq_ok]
    exact ⟨_, hw', rfl⟩

theorem doUpsert_completes (hroom : w.Room 1)
    (hdraws : w.AdmitsValues draws.valueLengths) :
    ∃ calls w', w.doUpsert draws = .ok (calls, w') ∧ w.Refills w' := by
  have hroom' : Room { w with
      upsertKeySequenceGenerator := w.upsertKeySequenceGenerator.generate.2 } 1 :=
    ⟨hroom.acknowledged, hroom.keys, hroom.sizes, hroom.values⟩
  obtain ⟨value, w', hw', hrefills⟩ := generateValue_completes hroom' hdraws
  have hack := (hrefills.room hroom').acknowledged
  refine ⟨[.upsert w.upsertKeySequenceGenerator.generate.1 value], w', ?_,
    Refills.trans ⟨_, _, _, rfl, rfl, rfl⟩ hrefills⟩
  simp only [doUpsert, bind_eq_ok]
  exact ⟨_, hw', _, acknowledge_of_none _ hack, rfl⟩

/-- The keys and values of a batch or of a bulk. -/
theorem handOutBlock_completes {length : UInt64} (hroom : w.Room length.toNat)
    (hdraws : w.AdmitsValues draws.valueLengths) :
    ∃ w1 total sizes w', handOutKeys length.toNat 0 w = .ok w1 ∧
      w1.generateValues (UInt64.ofNat (w1.keysBuffer.take length.toNat).length) draws =
        .ok (total, sizes, w') ∧ w.Refills w' := by
  have hkeys := hroom.keys
  obtain ⟨w1, hw1, hrefills⟩ := handOutKeys_completes hroom.acknowledged
    (show 0 + length.toNat ≤ _ by omega)
  have hroom1 := hrefills.room hroom
  have hlength : UInt64.ofNat (w1.keysBuffer.take length.toNat).length = length := by
    rw [List.length_take, Nat.min_eq_left hroom1.keys, UInt64.ofNat_toNat]
  have hdraws1 := hrefills.admitsValues hdraws
  obtain ⟨total, sizes, w', hw', hrefills', _⟩ := generateValues_completes hroom1 hdraws1
  exact ⟨w1, total, sizes, w', hw1, by rw [hlength, hw'], hrefills.trans hrefills'⟩

theorem insertMany_completes {lengthGenerator : LengthGenerator} {length : UInt64}
    (call : List UInt64 → UInt64 → List UInt32 → AccessorCall)
    (hlength : lengthGenerator.generate draws.length = .ok length)
    (hroom : w.Room length.toNat) (hdraws : w.AdmitsValues draws.valueLengths) :
    ∃ calls w', insertMany (w.generateNewKeys lengthGenerator draws) call draws =
      .ok (calls, w') ∧ w.Refills w' := by
  obtain ⟨w1, total, sizes, w', hw1, hw', hrefills⟩ := handOutBlock_completes hroom hdraws
  refine ⟨[call (w1.keysBuffer.take length.toNat) total sizes], w', ?_, hrefills⟩
  simp only [insertMany, generateNewKeys, bind_eq_ok]
  exact ⟨_, ⟨_, hlength, _, hw1, rfl⟩, _, hw', rfl⟩

/-- What the random source may return during an insertion. -/
structure Admits (w : Worker) (count : ℕ) (operation : OperationKind × Draws) : Prop where
  values : w.AdmitsValues operation.2.valueLengths
  batch : operation.1 = .batchUpsert → operation.2.length.toNat ≤ count ∧
    w.batchUpsertLengthGenerator.generate operation.2.length = .ok operation.2.length
  bulk : operation.1 = .bulkLoad → operation.2.length.toNat ≤ count ∧
    w.bulkLoadLengthGenerator.generate operation.2.length = .ok operation.2.length

theorem Refills.admits {w' : Worker} {count : ℕ} {operation : OperationKind × Draws}
    (h : w.Refills w') (hadmits : w.Admits count operation) : w'.Admits count operation := by
  obtain ⟨_, _, _, _, _, rfl⟩ := h
  exact ⟨hadmits.values, hadmits.batch, hadmits.bulk⟩

theorem perform_completes {kind : OperationKind} {count : ℕ} (hk : kind.Inserts)
    (hroom : w.Room count) (hcount : 0 < count) (hadmits : w.Admits count (kind, draws)) :
    ∃ calls w', w.perform draws kind = .ok (calls, w') ∧ w.Refills w' := by
  rcases hk with rfl | rfl | rfl
  · exact doUpsert_completes (hroom.mono hcount) hadmits.values
  · obtain ⟨hle, hlength⟩ := hadmits.batch rfl
    exact insertMany_completes _ hlength (hroom.mono hle) hadmits.values
  · obtain ⟨hle, hlength⟩ := hadmits.bulk rfl
    exact insertMany_completes _ hlength (hroom.mono hle) hadmits.values

theorem run_completes {operations : List (OperationKind × Draws)} {count : ℕ}
    (hroom : w.Room count) (hcount : 0 < count)
    (h : ∀ operation ∈ operations, operation.1.Inserts ∧ w.Admits count operation) :
    ∃ calls w', w.run operations = .ok (calls, w') := by
  induction operations generalizing w with
  | nil => exact ⟨[], w, rfl⟩
  | cons operation operations ih =>
    obtain ⟨kind, draws⟩ := operation
    obtain ⟨hk, hadmits⟩ := h _ List.mem_cons_self
    obtain ⟨calls, w1, hperform, hrefills⟩ := perform_completes hk hroom hcount hadmits
    obtain ⟨rest, w', hrest⟩ := ih (hrefills.room hroom) fun operation ho =>
      ⟨(h operation (List.mem_cons_of_mem _ ho)).1,
        hrefills.admits (h operation (List.mem_cons_of_mem _ ho)).2⟩
    refine ⟨calls ++ rest, w', ?_⟩
    simp only [run, bind_eq_ok]
    exact ⟨_, hperform, _, hrest, rfl⟩

end

theorem createLengthGenerator_admits (what : String) {dist : DistributionKind} (min max : UInt64)
    (h : dist = .uniform ∨ dist = .zipfian) :
    ∃ generator, createLengthGenerator what dist min max = .ok generator ∧
      ∀ draw, min ≤ draw → draw ≤ max → generator.generate draw = .ok draw := by
  rcases h with rfl | rfl
  · refine ⟨_, rfl, fun draw hmin hmax => if_neg ?_⟩
    rintro ⟨_, hlt | hlt⟩
    · exact UInt64.not_lt.mpr hmin hlt
    · exact UInt64.not_lt.mpr hmax hlt
  · exact ⟨_, rfl, fun draw _ _ => rfl⟩

theorem createValueLengthGenerator_admits {w : Workload}
    (h : w.valueLengthDist = .const ∨ w.valueLengthDist = .uniform) :
    ∃ generator, createValueLengthGenerator w = .ok generator ∧
      ∀ draw, 1 ≤ draw → draw ≤ w.valueLength → ∃ length, generator.generate draw = .ok length := by
  rcases h with h | h
  · exact ⟨.const w.valueLength, by rw [createValueLengthGenerator, h], fun _ _ _ => ⟨_, rfl⟩⟩
  · refine ⟨.uniform 1 w.valueLength, by rw [createValueLengthGenerator, h],
      fun draw hmin hmax => ⟨draw, if_neg ?_⟩⟩
    rintro ⟨_, hlt | hlt⟩
    · exact UInt32.not_lt.mpr hmin hlt
    · exact UInt32.not_lt.mpr hmax hlt

theorem maxInsertLength_le {w : Workload} (kind : OperationKind) (h : kind ≠ .upsert) :
    (w.maxInsertLength kind).toNat ≤ (elementsMaxCount w).toNat := by
  simp only [elementsMaxCount, UInt64.toNat_max]
  cases kind <;> simp [Workload.maxInsertLength] at h ⊢

theorem make_completes {w : Workload} (hw : w.InsertOnly) (hrun : w.Runnable) :
    ∃ worker, Worker.make w = .ok worker ∧ worker.Room (elementsMaxCount w).toNat ∧
      ∀ operation : OperationKind × Draws,
        (∀ i, 1 ≤ operation.2.valueLengths i ∧ operation.2.valueLengths i ≤ w.valueLength) →
        (operation.1 ≠ .upsert → w.minInsertLength operation.1 ≤ operation.2.length ∧
          operation.2.length ≤ w.maxInsertLength operation.1) →
        worker.Admits (elementsMaxCount w).toNat operation := by
  obtain ⟨valueLength, hvalueLength, hvalues⟩ :=
    createValueLengthGenerator_admits hrun.valueLengthDist
  have hdists := hrun.lengthDists
  simp only [List.forall_mem_cons] at hdists
  obtain ⟨hbatchUpsertDist, hbatchReadDist, hbulkLoadDist, hrangeSelectDist, _⟩ := hdists
  obtain ⟨batchUpsert, hbatchUpsert, hbatch⟩ := createLengthGenerator_admits
    "range select length" w.batchUpsertMinLength w.batchUpsertMaxLength hbatchUpsertDist
  obtain ⟨batchRead, hbatchRead, _⟩ := createLengthGenerator_admits
    "batch read length" w.batchReadMinLength w.batchReadMaxLength hbatchReadDist
  obtain ⟨bulkLoad, hbulkLoad, hbulk⟩ := createLengthGenerator_admits
    "range select length" w.bulkLoadMinLength w.bulkLoadMaxLength hbulkLoadDist
  obtain ⟨rangeSelect, hrangeSelect, _⟩ := createLengthGenerator_admits
    "range select length" w.rangeSelectMinLength w.rangeSelectMaxLength hrangeSelectDist
  simp only [make, createKeyGenerators, hw, if_true, hvalueLength, createBatchUpsertLengthGenerator,
    hbatchUpsert, createBatchReadLengthGenerator, hbatchRead, createBulkLoadLengthGenerator,
    hbulkLoad, createRangeSelectLengthGenerator, hrangeSelect, ok_bind]
  refine ⟨_, rfl, ⟨rfl, by simp, by simp, ?_⟩, fun operation hdraws hlengths => ⟨fun i => ?_,
    fun hkind => ?_, fun hkind => ?_⟩⟩
  · have haligned : w.valueLength.toNat ≤ (valueAlignedLength w).toNat := by
      have hlt := w.valueLength.toNat_lt
      rw [← UInt32.toNat_toUInt64] at hlt ⊢
      exact le_roundupToMultiple (by omega)
    change _ ≤ (elementsMaxCount w * valueAlignedLength w).toNat
    rw [UInt64.toNat_mul, Nat.mod_eq_of_lt hrun.values]
    exact Nat.mul_le_mul_left _ haligned
  · exact hvalues _ (hdraws i).1 (hdraws i).2
  · have hupsert : operation.1 ≠ .upsert := by simp [hkind]
    obtain ⟨hmin, hmax⟩ := hlengths hupsert
    have hle := UInt64.le_iff_toNat_le.mp hmax
    refine ⟨hle.trans (maxInsertLength_le _ hupsert), ?_⟩
    rw [hkind] at hmin hmax
    exact hbatch _ hmin hmax
  · have hupsert : operation.1 ≠ .upsert := by simp [hkind]
    obtain ⟨hmin, hmax⟩ := hlengths hupsert
    have hle := UInt64.le_iff_toNat_le.mp hmax
    refine ⟨hle.trans (maxInsertLength_le _ hupsert), ?_⟩
    rw [hkind] at hmin hmax
    exact hbulk _ hmin hmax

end Worker

/-- Whatever lengths are drawn, a thread comes to the end of its operations. -/
theorem exists_insertRun {w slice : Workload} {kind : OperationKind} (hw : w.InsertsOnlyBy kind)
    (hrun : w.Runnable) (hslice : slice.IsSliceOf w) {operations : List (OperationKind × Draws)}
    (hcount : operations.length = slice.operationsCount.toNat)
    (hkinds : ∀ operation ∈ operations, operation.1 = kind)
    (hlengths : ∀ operation ∈ operations, kind ≠ .upsert →
      w.minInsertLength kind ≤ operation.2.length ∧ operation.2.length ≤ w.maxInsertLength kind)
    (hvalues : ∀ operation ∈ operations, ∀ i, 1 ≤ operation.2.valueLengths i ∧
      operation.2.valueLengths i ≤ w.valueLength) :
    ∃ run : InsertRun w kind, run.slice = slice ∧ run.operations = operations := by
  have honly := hslice.insertOnly_iff.mpr hw.insertOnly
  have hcompletes : ∃ keys, threadKeys slice operations = .ok keys := by
    obtain ⟨_, _, _, rfl⟩ := hslice
    obtain ⟨worker, hmake, hroom, hadmits⟩ :=
      Worker.make_completes honly ⟨hrun.valueLengthDist, hrun.lengthDists, hrun.values⟩
    have hpos : 0 < (elementsMaxCount w).toNat := by
      simp only [elementsMaxCount, UInt64.toNat_max, UInt64.toNat_one]
      omega
    obtain ⟨calls, worker', hcalls⟩ := Worker.run_completes hroom hpos fun operation ho => by
      have hkind := hkinds operation ho
      refine ⟨hkind ▸ hw.inserts, hadmits operation (hvalues operation ho) fun hupsert => ?_⟩
      rw [hkind] at hupsert ⊢
      exact hlengths operation ho hupsert
    refine ⟨insertedKeys calls, ?_⟩
    simp only [threadKeys, bind_eq_ok]
    exact ⟨worker, hmake, _, hcalls, rfl⟩
  obtain ⟨keys, hkeys⟩ := hcompletes
  exact ⟨⟨slice, operations, keys, hcount, hkinds, hlengths, hkeys⟩, rfl, rfl⟩

end Ucsb
