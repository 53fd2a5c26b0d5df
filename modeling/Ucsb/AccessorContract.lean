import Ucsb.InsertCompletes

namespace Ucsb

open ExceptRules ConsecutiveWords BinaryRounding BalancedShare

/-- A value's length, rounded up to whole pages of 4096 bytes. -/
def alignedLength (w : Workload) : ℕ := (w.valueLength.toNat + 4095) / 4096 * 4096

theorem valueAlignedLength_toNat (w : Workload) :
    (valueAlignedLength w).toNat = alignedLength w := by
  have hlt := w.valueLength.toNat_lt
  rw [← UInt32.toNat_toUInt64] at hlt
  rw [valueAlignedLength, roundupToMultiple_toNat (by omega), UInt32.toNat_toUInt64]
  rfl

/-- The sizes of a batch go with its keys, add up to its values, and fit the workload. -/
structure SizesHonoured (w : Workload) (keys : List UInt64) (values : UInt64)
    (sizes : List UInt32) : Prop where
  length : sizes.length = keys.length
  sum : (sizes.map UInt32.toNat).sum = values.toNat
  bounds : ∀ size ∈ sizes, 1 ≤ size ∧ size ≤ w.valueLength

/-- A call that keeps to the interface, with all its spans inside the buffers of the worker. -/
def AccessorCall.Honours (worker : Worker) : AccessorCall → Prop
  | .upsert _ value | .update _ value =>
    1 ≤ value.toNat ∧ value.toNat ≤ worker.workload.valueLength.toNat ∧
      value ≤ worker.valuesBufferSize
  | .remove _ => True
  | .read _ value =>
    value.toNat = 1 * alignedLength worker.workload ∧ value ≤ worker.valuesBufferSize
  | .batchUpsert keys values sizes | .bulkLoad keys values sizes =>
    SizesHonoured worker.workload keys values sizes ∧ keys.length ≤ worker.keysBuffer.length ∧
      sizes.length ≤ worker.valueSizesBuffer.length ∧ values ≤ worker.valuesBufferSize
  | .batchRead keys values =>
    values.toNat = keys.length * alignedLength worker.workload ∧
      keys.length ≤ worker.keysBuffer.length ∧ values ≤ worker.valuesBufferSize
  | .rangeSelect _ length values =>
    values.toNat = length.toNat * alignedLength worker.workload ∧
      values ≤ worker.valuesBufferSize
  | .scan _ _ singleValue =>
    singleValue.toNat = 1 * alignedLength worker.workload ∧
      singleValue ≤ worker.valuesBufferSize

/-- The length that an operation draws is one that is configured for its kind. -/
def LengthConfigured (w : Workload) : OperationKind × Draws → Prop
  | (.batchUpsert, draws) =>
    w.batchUpsertMinLength ≤ draws.length ∧ draws.length ≤ w.batchUpsertMaxLength
  | (.batchRead, draws) =>
    w.batchReadMinLength ≤ draws.length ∧ draws.length ≤ w.batchReadMaxLength
  | (.bulkLoad, draws) =>
    w.bulkLoadMinLength ≤ draws.length ∧ draws.length ≤ w.bulkLoadMaxLength
  | (.rangeSelect, draws) =>
    w.rangeSelectMinLength ≤ draws.length ∧ draws.length ≤ w.rangeSelectMaxLength
  | _ => True

theorem length_le_elementsMaxCount {w : Workload} {operation : OperationKind × Draws}
    (h : LengthConfigured w operation)
    (hkind : operation.1 = .batchUpsert ∨ operation.1 = .batchRead ∨ operation.1 = .bulkLoad ∨
      operation.1 = .rangeSelect) :
    operation.2.length.toNat ≤ (elementsMaxCount w).toNat := by
  obtain ⟨kind, draws⟩ := operation
  simp only [elementsMaxCount, UInt64.toNat_max]
  rcases hkind with rfl | rfl | rfl | rfl
  all_goals
    have hle := UInt64.le_iff_toNat_le.mp h.2
    show draws.length.toNat ≤ _
    omega

namespace Worker

/-- The buffers are as the constructor makes them, and value lengths are drawn from one to
the length of the workload. -/
structure Ready (w : Worker) : Prop where
  acknowledged : w.acknowledgedKeyGenerator = none
  keys : w.keysBuffer.length = (elementsMaxCount w.workload).toNat
  sizes : w.valueSizesBuffer.length = (elementsMaxCount w.workload).toNat
  values : w.valuesBufferSize.toNat =
    (elementsMaxCount w.workload).toNat * alignedLength w.workload
  valueLengths : ∀ draw length, w.valueLengthGenerator.generate draw = .ok length →
    1 ≤ length ∧ length ≤ w.workload.valueLength

theorem Refills.ready {w w' : Worker} (h : w.Refills w') (hready : w.Ready) : w'.Ready := by
  obtain ⟨_, _, _, hkeys, hsizes, rfl⟩ := h
  exact ⟨hready.acknowledged, hkeys.trans hready.keys, hsizes.trans hready.sizes, hready.values,
    hready.valueLengths⟩

theorem Refills.honours {w w' : Worker} (h : w.Refills w') {call : AccessorCall} :
    call.Honours w' ↔ call.Honours w := by
  obtain ⟨_, _, _, hkeys, hsizes, rfl⟩ := h
  cases call <;> simp only [AccessorCall.Honours, hkeys, hsizes]

variable {w : Worker} {draws : Draws}

theorem elements_pos (w : Workload) : 0 < (elementsMaxCount w).toNat := by
  simp only [elementsMaxCount, UInt64.toNat_max, UInt64.toNat_one]
  omega

/-- A span of whole pages lies inside the values buffer. -/
theorem Ready.valuesBuffer_spec (h : w.Ready) {count : UInt64}
    (hcount : count.toNat ≤ (elementsMaxCount w.workload).toNat) :
    (w.valuesBuffer count).toNat = count.toNat * alignedLength w.workload ∧
      w.valuesBuffer count ≤ w.valuesBufferSize := by
  have hword := w.valuesBufferSize.toNat_lt
  have hle := Nat.mul_le_mul_right (alignedLength w.workload) hcount
  have hvalues := h.values
  have hspan : (w.valuesBuffer count).toNat = count.toNat * alignedLength w.workload := by
    rw [valuesBuffer, UInt64.toNat_mul, valueAlignedLength_toNat]
    exact Nat.mod_eq_of_lt (by omega)
  refine ⟨hspan, ?_⟩
  rw [UInt64.le_iff_toNat_le, hspan]
  omega

theorem keyGenerator_ensures (generator : KeyGenerator) (basisLast : UInt64) (draw : KeyDraw) :
    Ensures .outOfBounds (fun _ => True) (generator.generate basisLast draw) := by
  cases generator with
  | uniform min max =>
    rw [KeyGenerator.generate, drawUniform]
    split
    next => exact fun h => by cases h
    next => trivial
  | scrambledZipfian generator =>
    rw [KeyGenerator.generate, ScrambledZipfianGenerator.scramble]
    split
    next => exact fun h => by cases h
    next => trivial
  | beta generator =>
    rw [KeyGenerator.generate, BetaGenerator.generate]
    split
    next => trivial
    next => exact fun h => by cases h
  | skewedLatest zipfian => trivial

theorem generateKey_ensures (w : Worker) (draws : List KeyDraw) :
    Ensures .outOfBounds (fun _ => True) (w.generateKey draws) := by
  induction draws with
  | nil => exact fun h => by cases h
  | cons draw draws ih =>
    rw [generateKey]
    cases w.keyGenerator with
    | none => exact fun h => by cases h
    | some keyGenerator =>
      apply (keyGenerator_ensures keyGenerator _ draw).bind
      intro key _
      split
      next => exact ih
      next => trivial

theorem lengthGenerator_ensures (generator : LengthGenerator) (draw : UInt64) :
    Ensures .outOfBounds (fun length => length = draw) (generator.generate draw) := by
  cases generator with
  | uniform min max =>
    rw [LengthGenerator.generate, drawUniform]
    split
    next => exact fun h => by cases h
    next => rfl
  | zipfian generator => rfl

theorem valueLengthGenerator_ensures (generator : ValueLengthGenerator) (draw : UInt32) :
    Ensures .outOfBounds (fun length => generator.generate draw = .ok length)
      (generator.generate draw) := by
  cases generator with
  | const constant => rfl
  | uniform min max =>
    rw [ValueLengthGenerator.generate]
    split
    next => exact fun h => by cases h
    next => rfl

/-- The loop fills the sizes from index `i` on and adds them up. -/
theorem drawSizes_ensures {valueLengths : ℕ → UInt32} {n i : ℕ} {total : UInt64}
    (hlengths : ∀ draw length, w.valueLengthGenerator.generate draw = .ok length →
      1 ≤ length ∧ length ≤ w.workload.valueLength)
    (hi : i + n ≤ w.valueSizesBuffer.length) :
    Ensures .outOfBounds (fun result =>
      w.Refills result.2 ∧ result.2.valueSizesBuffer.take i = w.valueSizesBuffer.take i ∧
        ((result.2.valueSizesBuffer.drop i).take n).length = n ∧
        (∀ size ∈ (result.2.valueSizesBuffer.drop i).take n,
          1 ≤ size ∧ size ≤ w.workload.valueLength) ∧
        result.1 = total + UInt64.ofNat
          (((result.2.valueSizesBuffer.drop i).take n).map UInt32.toNat).sum)
      (drawSizes valueLengths n i total w) := by
  induction n generalizing i total w with
  | zero => exact ⟨.refl w, rfl, by simp, by simp, by simp⟩
  | succ n ih =>
    have hlt : i < w.valueSizesBuffer.length := by omega
    rw [drawSizes]
    apply (valueLengthGenerator_ensures w.valueLengthGenerator (valueLengths i)).bind
    intro length hlength
    rw [writeAt_of_lt length hlt, ok_bind]
    have hroom : i + 1 + n ≤ (w.valueSizesBuffer.set i length).length := by
      rw [List.length_set]
      omega
    apply (ih (w := { w with valueSizesBuffer := w.valueSizesBuffer.set i length }) hlengths
      hroom).mono
    rintro ⟨total', w'⟩ ⟨hrefills, htake, hcount, hsizes, htotal⟩
    dsimp only at htake hcount hsizes htotal ⊢
    have hbuffer : w'.valueSizesBuffer.length = w.valueSizesBuffer.length := by
      obtain ⟨_, _, sizes, _, hlen, rfl⟩ := hrefills
      simpa using hlen
    have hlt' : i < w'.valueSizesBuffer.length := by omega
    have hat : w'.valueSizesBuffer[i] = length := by
      have hget := congrArg (fun sizes => sizes[i]?) htake
      simpa [List.getElem?_take, hlt, hlt'] using hget
    have hdrop : (w'.valueSizesBuffer.drop i).take (n + 1) =
        length :: (w'.valueSizesBuffer.drop (i + 1)).take n := by
      rw [List.drop_eq_getElem_cons hlt', List.take_succ_cons, hat]
    rw [hdrop]
    refine ⟨Refills.trans ⟨_, _, _, rfl, by simp, rfl⟩ hrefills, ?_, ?_, ?_, ?_⟩
    · have hcut := congrArg (List.take i) htake
      simpa [List.take_take, List.take_set_of_le] using hcut
    · rw [List.length_cons, hcount]
    · rw [List.forall_mem_cons]
      exact ⟨hlengths _ _ hlength, hsizes⟩
    · have hword : UInt64.ofNat length.toNat = length.toUInt64 := by
        rw [← UInt32.toNat_toUInt64, UInt64.ofNat_toNat]
      rw [htotal, List.map_cons, List.sum_cons, UInt64.ofNat_add, hword, UInt64.add_assoc]

/-- The values of as many elements as the buffers are made for fit into them. -/
theorem Ready.values_fit (h : w.Ready) {count : ℕ}
    (hcount : count ≤ (elementsMaxCount w.workload).toNat) :
    count * w.workload.valueLength.toNat ≤ w.valuesBufferSize.toNat := by
  have haligned : w.workload.valueLength.toNat ≤ alignedLength w.workload := by
    rw [alignedLength]
    omega
  rw [h.values]
  exact Nat.mul_le_mul hcount haligned

theorem generateValues_ensures (h : w.Ready) {count : UInt64}
    (hcount : count.toNat ≤ (elementsMaxCount w.workload).toNat) :
    Ensures .outOfBounds (fun result =>
      w.Refills result.2.2 ∧ result.2.1.length = count.toNat ∧
        (∀ size ∈ result.2.1, 1 ≤ size ∧ size ≤ w.workload.valueLength) ∧
        (result.2.1.map UInt32.toNat).sum = result.1.toNat ∧ result.1 ≤ w.valuesBufferSize)
      (w.generateValues count draws) := by
  have hfit := h.values_fit hcount
  have hword := w.valuesBufferSize.toNat_lt
  have hwithin : ¬w.valuesBufferSize < count * w.workload.valueLength.toUInt64 := by
    rw [UInt64.lt_iff_toNat_lt, UInt64.toNat_mul, UInt32.toNat_toUInt64,
      Nat.mod_eq_of_lt (by omega)]
    omega
  have hroom : 0 + count.toNat ≤ w.valueSizesBuffer.length := by
    rw [h.sizes]
    omega
  rw [generateValues, if_neg hwithin]
  apply (drawSizes_ensures h.valueLengths hroom).bind
  rintro ⟨total, w'⟩ ⟨hrefills, -, hlength, hsizes, htotal⟩
  dsimp only at hrefills hlength hsizes htotal
  rw [List.drop_zero] at hlength hsizes htotal
  have hsum : ((w'.valueSizesBuffer.take count.toNat).map UInt32.toNat).sum ≤
      count.toNat * w.workload.valueLength.toNat := by
    exact sum_map_le (fun size hsize => UInt32.le_iff_toNat_le.mp (hsizes size hsize).2)
      hlength.le
  have htotal' : total.toNat = ((w'.valueSizesBuffer.take count.toNat).map UInt32.toNat).sum := by
    rw [htotal, UInt64.zero_add, UInt64.toNat_ofNat', Nat.mod_eq_of_lt (by omega)]
  refine ⟨hrefills, hlength, hsizes, htotal'.symm, ?_⟩
  rw [UInt64.le_iff_toNat_le, htotal']
  omega

theorem generateValue_ensures (h : w.Ready) :
    Ensures .outOfBounds (fun result =>
      w.Refills result.2 ∧ 1 ≤ result.1.toNat ∧
        result.1.toNat ≤ w.workload.valueLength.toNat ∧ result.1 ≤ w.valuesBufferSize)
      (w.generateValue draws) := by
  have hone : (1 : UInt64).toNat ≤ (elementsMaxCount w.workload).toNat := elements_pos w.workload
  rw [generateValue]
  apply (generateValues_ensures h hone).bind
  rintro ⟨total, sizes, w'⟩ ⟨hrefills, hlength, hsizes, hsum, hwithin⟩
  obtain ⟨size, rfl⟩ := List.length_eq_one_iff.mp hlength
  obtain ⟨hpos, hle⟩ := hsizes size (List.mem_singleton_self size)
  rw [UInt32.le_iff_toNat_le] at hpos hle
  rw [List.map_singleton, List.sum_singleton] at hsum
  rw [UInt64.le_iff_toNat_le] at hwithin
  refine ⟨hrefills, ?_, ?_, ?_⟩
  · rwa [UInt32.toNat_toUInt64]
  · rwa [UInt32.toNat_toUInt64]
  · rw [UInt64.le_iff_toNat_le, UInt32.toNat_toUInt64]
    exact hsum.trans_le hwithin

theorem generateNewKeys_ensures (h : w.Ready) (generator : LengthGenerator)
    (hlength : draws.length.toNat ≤ (elementsMaxCount w.workload).toNat) :
    Ensures .outOfBounds (fun result =>
      w.Refills result.2 ∧ result.1.length = draws.length.toNat)
      (w.generateNewKeys generator draws) := by
  rw [generateNewKeys]
  apply (lengthGenerator_ensures generator draws.length).bind
  rintro length rfl
  have hroom : 0 + draws.length.toNat ≤ w.keysBuffer.length := by
    rw [h.keys]
    omega
  obtain ⟨w', hw', hrefills⟩ := handOutKeys_completes h.acknowledged hroom
  rw [hw', ok_bind]
  refine ⟨hrefills, ?_⟩
  rw [List.length_take, hrefills.keysBuffer, h.keys]
  exact Nat.min_eq_left hlength

/-- The keys go into the buffer in front of the room that the batch has in it. -/
theorem collectKeys_ensures {batchLength rounds : ℕ} {uniqueKeys : List UInt64}
    {draws : List KeyDraw} (hroom : batchLength ≤ w.keysBuffer.length)
    (hunique : uniqueKeys.length ≤ batchLength) :
    Ensures .outOfBounds (fun w' => w.Refills w')
      (collectKeys batchLength rounds uniqueKeys draws w) := by
  induction rounds generalizing uniqueKeys draws w with
  | zero => exact fun h => by cases h
  | succ rounds ih =>
    rw [collectKeys]
    split
    next => exact .refl w
    next hmore =>
      apply (generateKey_ensures w draws).bind
      rintro ⟨key, draws⟩ -
      dsimp only
      split
      next => exact ih hroom hunique
      next =>
        have hlt : uniqueKeys.length < w.keysBuffer.length := by omega
        have hroom' : batchLength ≤ (w.keysBuffer.set uniqueKeys.length key).length := by
          rwa [List.length_set]
        have hnext : (key :: uniqueKeys).length ≤ batchLength := by
          rw [List.length_cons]
          omega
        rw [writeAt_of_lt key hlt, ok_bind]
        apply (ih (w := { w with keysBuffer := w.keysBuffer.set uniqueKeys.length key }) hroom'
          hnext).mono
        exact fun w' hrefills => Refills.trans ⟨_, _, _, by simp, rfl, rfl⟩ hrefills

theorem generateBatchReadKeys_ensures (h : w.Ready)
    (hlength : draws.length.toNat ≤ (elementsMaxCount w.workload).toNat) :
    Ensures .outOfBounds (fun result =>
      w.Refills result.2 ∧ result.1.length = draws.length.toNat)
      (w.generateBatchReadKeys draws) := by
  rw [generateBatchReadKeys]
  apply (lengthGenerator_ensures w.batchReadLengthGenerator draws.length).bind
  rintro length rfl
  have hroom : draws.length.toNat ≤ w.keysBuffer.length := by rwa [h.keys]
  apply (collectKeys_ensures hroom (Nat.zero_le _)).bind
  intro w' hrefills
  refine ⟨hrefills, ?_⟩
  rw [List.length_take, hrefills.keysBuffer, h.keys]
  exact Nat.min_eq_left hlength

/-- What an operation leaves of the worker, and what it calls. -/
def Contract (w : Worker) (result : List AccessorCall × Worker) : Prop :=
  w.Refills result.2 ∧ ∀ call ∈ result.1, call.Honours w

theorem doUpsert_ensures (h : w.Ready) : Ensures .outOfBounds w.Contract (w.doUpsert draws) := by
  have hnext : w.Refills { w with
      upsertKeySequenceGenerator := w.upsertKeySequenceGenerator.generate.2 } :=
    ⟨_, _, _, rfl, rfl, rfl⟩
  rw [doUpsert]
  apply (generateValue_ensures (hnext.ready h)).bind
  rintro ⟨value, w'⟩ ⟨hrefills, hvalue⟩
  dsimp only at hrefills hvalue ⊢
  have hall := hnext.trans hrefills
  rw [acknowledge_of_none _ (hall.ready h).acknowledged, ok_bind]
  exact ⟨hall, List.forall_mem_singleton.mpr hvalue⟩

theorem doUpdate_ensures (h : w.Ready) : Ensures .outOfBounds w.Contract (w.doUpdate draws) := by
  rw [doUpdate]
  apply (generateKey_ensures w draws.keys).bind
  rintro ⟨key, rest⟩ -
  apply (generateValue_ensures h).bind
  rintro ⟨value, w'⟩ ⟨hrefills, hvalue⟩
  exact ⟨hrefills, List.forall_mem_singleton.mpr hvalue⟩

theorem doRemove_ensures (w : Worker) : Ensures .outOfBounds w.Contract (w.doRemove draws) := by
  rw [doRemove]
  apply (generateKey_ensures w draws.keys).bind
  rintro ⟨key, rest⟩ -
  exact ⟨.refl w, List.forall_mem_singleton.mpr trivial⟩

theorem Ready.valueBuffer_spec (h : w.Ready) :
    w.valueBuffer.toNat = 1 * alignedLength w.workload ∧ w.valueBuffer ≤ w.valuesBufferSize := by
  have hone : (1 : UInt64).toNat ≤ (elementsMaxCount w.workload).toNat := elements_pos w.workload
  exact h.valuesBuffer_spec hone

theorem doRead_ensures (h : w.Ready) : Ensures .outOfBounds w.Contract (w.doRead draws) := by
  rw [doRead]
  apply (generateKey_ensures w draws.keys).bind
  rintro ⟨key, rest⟩ -
  exact ⟨.refl w, List.forall_mem_singleton.mpr h.valueBuffer_spec⟩

theorem doReadModifyWrite_ensures (h : w.Ready) :
    Ensures .outOfBounds w.Contract (w.doReadModifyWrite draws) := by
  rw [doReadModifyWrite]
  apply (generateKey_ensures w draws.keys).bind
  rintro ⟨key, rest⟩ -
  apply (generateValue_ensures h).bind
  rintro ⟨value, w'⟩ ⟨hrefills, hvalue⟩
  refine ⟨hrefills, List.forall_mem_cons.mpr ⟨h.valueBuffer_spec, ?_⟩⟩
  exact List.forall_mem_singleton.mpr hvalue

theorem insertMany_ensures (h : w.Ready) (generator : LengthGenerator)
    {call : List UInt64 → UInt64 → List UInt32 → AccessorCall}
    (hcall : ∀ keys values sizes, (call keys values sizes).Honours w ↔
      SizesHonoured w.workload keys values sizes ∧ keys.length ≤ w.keysBuffer.length ∧
        sizes.length ≤ w.valueSizesBuffer.length ∧ values ≤ w.valuesBufferSize)
    (hlength : draws.length.toNat ≤ (elementsMaxCount w.workload).toNat) :
    Ensures .outOfBounds w.Contract
      (insertMany (w.generateNewKeys generator draws) call draws) := by
  rw [insertMany]
  apply (generateNewKeys_ensures h generator hlength).bind
  rintro ⟨keys, w1⟩ ⟨hrefills, hkeys⟩
  dsimp only at hrefills hkeys ⊢
  have hready := hrefills.ready h
  have hcount : UInt64.ofNat keys.length = draws.length := by rw [hkeys, UInt64.ofNat_toNat]
  have hworkload := hrefills.workload
  have hbuffer : w1.valuesBufferSize = w.valuesBufferSize := by
    obtain ⟨_, _, _, _, _, rfl⟩ := hrefills
    rfl
  rw [hcount]
  apply (generateValues_ensures hready (by rwa [hworkload])).bind
  rintro ⟨values, sizes, w'⟩ ⟨hrefills', hsizes, hbounds, hsum, hwithin⟩
  dsimp only at hrefills' hsizes hbounds hsum hwithin
  rw [hworkload] at hbounds
  rw [hbuffer] at hwithin
  refine ⟨hrefills.trans hrefills', List.forall_mem_singleton.mpr ((hcall _ _ _).mpr ?_)⟩
  refine ⟨⟨hsizes.trans hkeys.symm, hsum, hbounds⟩, ?_, ?_, hwithin⟩
  · rwa [hkeys, h.keys]
  · rwa [hsizes, h.sizes]

theorem doBatchRead_ensures (h : w.Ready)
    (hlength : draws.length.toNat ≤ (elementsMaxCount w.workload).toNat) :
    Ensures .outOfBounds w.Contract (w.doBatchRead draws) := by
  rw [doBatchRead]
  apply (generateBatchReadKeys_ensures h hlength).bind
  rintro ⟨keys, w'⟩ ⟨hrefills, hkeys⟩
  dsimp only at hrefills hkeys ⊢
  have hcount : UInt64.ofNat keys.length = draws.length := by rw [hkeys, UInt64.ofNat_toNat]
  have hspan : w'.valuesBuffer draws.length = w.valuesBuffer draws.length := by
    obtain ⟨_, _, _, _, _, rfl⟩ := hrefills
    rfl
  obtain ⟨hbytes, hwithin⟩ := h.valuesBuffer_spec hlength
  rw [hcount, hspan]
  refine ⟨hrefills, List.forall_mem_singleton.mpr ⟨?_, ?_, hwithin⟩⟩
  · rw [hbytes, hkeys]
  · rwa [hkeys, h.keys]

theorem doRangeSelect_ensures (h : w.Ready)
    (hlength : draws.length.toNat ≤ (elementsMaxCount w.workload).toNat) :
    Ensures .outOfBounds w.Contract (w.doRangeSelect draws) := by
  rw [doRangeSelect]
  apply (generateKey_ensures w draws.keys).bind
  rintro ⟨key, rest⟩ -
  apply (lengthGenerator_ensures w.rangeSelectLengthGenerator draws.length).bind
  rintro length rfl
  exact ⟨.refl w, List.forall_mem_singleton.mpr (h.valuesBuffer_spec hlength)⟩

theorem perform_ensures (h : w.Ready) {kind : OperationKind}
    (hlength : LengthConfigured w.workload (kind, draws)) :
    Ensures .outOfBounds w.Contract (w.perform draws kind) := by
  cases kind with
  | upsert => exact doUpsert_ensures h
  | update => exact doUpdate_ensures h
  | remove => exact doRemove_ensures w
  | read => exact doRead_ensures h
  | readModifyWrite => exact doReadModifyWrite_ensures h
  | batchUpsert | bulkLoad =>
    have hle := length_le_elementsMaxCount hlength (by simp)
    exact insertMany_ensures h _ (fun _ _ _ => Iff.rfl) hle
  | batchRead => exact doBatchRead_ensures h (length_le_elementsMaxCount hlength (by simp))
  | rangeSelect => exact doRangeSelect_ensures h (length_le_elementsMaxCount hlength (by simp))
  | scan => exact ⟨.refl w, List.forall_mem_singleton.mpr h.valueBuffer_spec⟩

theorem run_ensures (h : w.Ready) {operations : List (OperationKind × Draws)}
    (hlengths : ∀ operation ∈ operations, LengthConfigured w.workload operation) :
    Ensures .outOfBounds w.Contract (w.run operations) := by
  induction operations generalizing w with
  | nil => exact ⟨.refl w, List.forall_mem_nil _⟩
  | cons operation operations ih =>
    obtain ⟨kind, draws⟩ := operation
    rw [List.forall_mem_cons] at hlengths
    rw [run]
    apply (perform_ensures h hlengths.1).bind
    rintro ⟨calls, w1⟩ ⟨hrefills, hcalls⟩
    dsimp only at hrefills hcalls ⊢
    have hworkload := hrefills.workload
    apply (ih (hrefills.ready h) (by rw [hworkload]; exact hlengths.2)).bind
    rintro ⟨rest, w'⟩ ⟨hrefills', hrest⟩
    refine ⟨hrefills.trans hrefills', List.forall_mem_append.mpr ⟨hcalls, ?_⟩⟩
    exact fun call hcall => hrefills.honours.mp (hrest call hcall)

theorem make_ready {workload : Workload} (hmake : Worker.make workload = .ok w)
    (hlength : 0 < workload.valueLength)
    (hsize : (elementsMaxCount workload).toNat * alignedLength workload < 2 ^ 64) : w.Ready := by
  simp only [make, bind_eq_ok] at hmake
  obtain ⟨generators, _, valueLengths, hvalueLengths, _, _, _, _, _, _, _, _, hmake⟩ := hmake
  cases Except.ok.inj hmake
  refine ⟨rfl, List.length_replicate, List.length_replicate, ?_, ?_⟩
  · show (elementsMaxCount workload * valueAlignedLength workload).toNat = _
    rw [UInt64.toNat_mul, valueAlignedLength_toNat, Nat.mod_eq_of_lt hsize]
  · intro draw length hdraw
    have hpos : 1 ≤ workload.valueLength := by
      rw [UInt32.lt_iff_toNat_lt] at hlength
      rw [UInt32.le_iff_toNat_le]
      exact hlength
    rw [createValueLengthGenerator] at hvalueLengths
    cases hdist : workload.valueLengthDist with
    | const =>
      rw [hdist] at hvalueLengths
      cases Except.ok.inj hvalueLengths
      cases Except.ok.inj hdraw
      exact ⟨hpos, UInt32.le_refl _⟩
    | uniform =>
      rw [hdist] at hvalueLengths
      cases Except.ok.inj hvalueLengths
      simp only [ValueLengthGenerator.generate] at hdraw
      split at hdraw
      next => simp at hdraw
      next hwithin =>
        cases Except.ok.inj hdraw
        rw [not_and_or, not_or, UInt32.not_lt, UInt32.not_lt] at hwithin
        exact hwithin.resolve_left (not_not_intro hpos)
    | _ =>
      rw [hdist] at hvalueLengths
      cases hvalueLengths

end Worker

theorem Workload.IsSliceOf.lengthConfigured_iff {slice w : Workload} (h : slice.IsSliceOf w)
    (operation : OperationKind × Draws) :
    LengthConfigured slice operation ↔ LengthConfigured w operation := by
  obtain ⟨_, _, _, rfl⟩ := h
  obtain ⟨kind, draws⟩ := operation
  cases kind <;> exact Iff.rfl

theorem slice_run_ensures {w slice : Workload} {threadsCount : UInt64}
    (hvalid : ValidateWorkload w threadsCount)
    (hslice : slice ∈ splitWorkloadIntoThreads w threadsCount) {worker : Worker}
    (hmake : Worker.make slice = .ok worker)
    (hsize : (elementsMaxCount w).toNat * alignedLength w < 2 ^ 64)
    {operations : List (OperationKind × Draws)}
    (hlengths : ∀ operation ∈ operations, LengthConfigured w operation) :
    Ensures .outOfBounds worker.Contract (worker.run operations) := by
  have hof := isSliceOf_of_mem_split hslice
  have hlengths' : ∀ operation ∈ operations, LengthConfigured slice operation :=
    fun operation hoperation => (hof.lengthConfigured_iff operation).mpr (hlengths _ hoperation)
  obtain ⟨-, hworkload, -⟩ := Worker.make_spec hmake
  obtain ⟨_, _, _, rfl⟩ := hof
  have hready : worker.Ready := Worker.make_ready hmake hvalid.valueLength hsize
  exact Worker.run_ensures hready (by rwa [hworkload])

/-- Whatever a worker is asked to do, it stays inside its buffers, and the interface is
called as its documentation wants it. -/
theorem accessor_calls_honour_contract {w slice : Workload} {threadsCount : UInt64}
    (hvalid : ValidateWorkload w threadsCount)
    (hslice : slice ∈ splitWorkloadIntoThreads w threadsCount) {worker : Worker}
    (hmake : Worker.make slice = .ok worker)
    (hsize : (elementsMaxCount w).toNat * alignedLength w < 2 ^ 64)
    {operations : List (OperationKind × Draws)}
    (hlengths : ∀ operation ∈ operations, LengthConfigured w operation)
    (hwords : worker.upsertKeySequenceGenerator.next.toNat + insertedTotal operations ≤ 2 ^ 64) :
    worker.run operations ≠ .error .outOfBounds ∧
      ∀ calls worker', worker.run operations = .ok (calls, worker') →
        (insertedKeys calls).Pairwise (· < ·) ∧ ∀ call ∈ calls, call.Honours worker := by
  obtain ⟨hacknowledged, -, -⟩ := Worker.make_spec hmake
  have hrun := slice_run_ensures hvalid hslice hmake hsize hlengths
  refine ⟨hrun.ne, fun calls worker' hcalls => ⟨?_, (hrun.apply hcalls).2⟩⟩
  obtain ⟨-, hkeys⟩ := Worker.run_inserts hacknowledged hcalls
  rw [hkeys]
  exact words_pairwise hwords

theorem smallLoad_validateWorkload : ValidateWorkload smallLoad 2 where
  threads := by decide
  name := by simp [smallLoad]
  records := show (0 : UInt64) < 6 by decide
  operations := show (0 : UInt64) < 3 by decide
  proportion := by
    have hone : roundTo 24 1 = 1 := roundTo_one (by decide)
    simp [proportionSum, smallLoad, roundTo_zero, hone]
  valueLength := show (0 : UInt32) < 8 by decide
  keyDist := by simp [smallLoad]
  batchUpsert := lengthsValid_unused _
  batchRead := lengthsValid_unused _
  bulkLoad := ⟨Or.inr ⟨by simp [smallLoad], by decide⟩, by decide, by decide⟩
  rangeSelect := lengthsValid_unused _

def smallLoadSlice : Workload :=
  { smallLoad with recordsCount := 3, operationsCount := 2, startKey := 5 }

theorem smallLoad_calls_honour_contract :
    ∃ worker calls worker', Worker.make smallLoadSlice = .ok worker ∧
      worker.run [(.bulkLoad, { length := 2 }), (.scan, {}), (.bulkLoad, { length := 1 })] =
        .ok (calls, worker') ∧
      (insertedKeys calls).Pairwise (· < ·) ∧ ∀ call ∈ calls, call.Honours worker := by
  have hslice : smallLoadSlice ∈ splitWorkloadIntoThreads smallLoad 2 := by decide
  have hsize : (elementsMaxCount smallLoad).toNat * alignedLength smallLoad < 2 ^ 64 := by decide
  have hlengths : ∀ operation ∈ [(OperationKind.bulkLoad, { length := 2 }),
      (OperationKind.scan, {}), (OperationKind.bulkLoad, { length := 1 : Draws })],
      LengthConfigured smallLoad operation := by
    simp [LengthConfigured, smallLoad]
  have h := accessor_calls_honour_contract smallLoad_validateWorkload hslice rfl hsize hlengths
    (by decide)
  exact ⟨_, _, _, rfl, rfl, h.2 _ _ rfl⟩

end Ucsb
