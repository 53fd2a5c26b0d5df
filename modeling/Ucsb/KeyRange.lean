import Mathlib.Data.Finset.Image
import Ucsb.MixedKeys

namespace Ucsb

open ExceptRules BinaryRounding BalancedShare

/-- The key that a value of the inner generator becomes. -/
def ScrambledZipfianGenerator.scrambled (g : ScrambledZipfianGenerator) (value : UInt64) :
    UInt64 :=
  g.base + fnvHash64 value % g.numItems

/-- The keys a generator was made to return, from the first to the last. A
scrambled generator divides the hash of its inner draw by their number. -/
def KeyGenerator.Range (min max : UInt64) : KeyGenerator → Prop
  | .uniform first last => first = min ∧ last = max
  | .scrambledZipfian generator => generator = .make min max ∧ generator.numItems ≠ 0
  | _ => False

/-- The keys a generator can return when its inner zipfian generator, if it has one, can
return the values of `inner`. -/
def KeyGenerator.CanReturn (inner : ZipfianGenerator → Finset UInt64) (key : UInt64) :
    KeyGenerator → Prop
  | .uniform min max => min ≤ key ∧ key ≤ max
  | .scrambledZipfian generator =>
    ∃ value ∈ inner generator.generator, key = generator.scrambled value
  | _ => False

/-- The slice's generator has a range, and whatever its worker has handed out,
some key that it can return ends the loop of `generate_key`. -/
def KeyLoopCanSucceed (inner : ZipfianGenerator → Finset UInt64) (slice : Workload) : Prop :=
  ∃ sequence generator min max, createKeyGenerators slice = .ok (sequence, some generator) ∧
    generator.Range min max ∧ min ≤ max ∧
    ∀ n, ∃ key, generator.CanReturn inner key ∧ key ≤ (KeySequence.advance n sequence).last

section

variable (w : Workload) (threadsCount : UInt64) (i : ℕ)

/-- The first key of slice `i` of a workload that is not insert-only. -/
def sliceStart : ℕ :=
  (w.startKey.toNat + dealt w.dbRecordsCount.toNat threadsCount.toNat i) % 2 ^ 64

/-- Twice the upserts slice `i` expects, in the precision of `create_key_generator`. -/
def sliceMargin : ℚ :=
  if w.keyDist = .zipfian then
    roundTo 24 (roundTo 24 (roundTo 24
      (max 1 (share w.dbOperationsCount.toNat threadsCount.toNat i) : ℕ) *
        w.upsertProportion) * 2)
  else 0

/-- How many keys the generator of slice `i` is to choose from. -/
def sliceKeys : ℕ :=
  (share w.dbRecordsCount.toNat threadsCount.toNat i +
    ⌊sliceMargin w threadsCount i⌋.toNat) % 2 ^ 64

/-- The inner generator of slice `i`, whose last value is the key behind the range. -/
def sliceInner : ZipfianGenerator :=
  .make (UInt64.ofNat (sliceStart w threadsCount i))
    (UInt64.ofNat (sliceStart w threadsCount i + sliceKeys w threadsCount i))

/-- Slice `i` has keys, ends before the largest word, and reaches below the bound of the
loop: with its first key, or with one that a value of its inner generator becomes. -/
structure RangeFits (inner : ZipfianGenerator → Finset UInt64) : Prop where
  margin : -1 < sliceMargin w threadsCount i ∧ sliceMargin w threadsCount i < 2 ^ 64
  keys : 0 < sliceKeys w threadsCount i
  fits : sliceStart w threadsCount i + sliceKeys w threadsCount i ≤ 2 ^ 64
  start : w.keyDist = .uniform → sliceStart w threadsCount i < w.dbRecordsCount.toNat
  reaches : w.keyDist = .zipfian → ∃ value ∈ inner (sliceInner w threadsCount i),
    sliceStart w threadsCount i +
      (ScrambledZipfianGenerator.fnvHash64 value).toNat % sliceKeys w threadsCount i <
        w.dbRecordsCount.toNat

end

/-- Bounds `start` and `start + keys - 1` are in order also when both count from
zero and there are no keys. -/
theorem bounds_le_iff {start keys : UInt64} :
    start ≤ start + keys - 1 ↔
      (0 < keys.toNat ∧ start.toNat + keys.toNat ≤ 2 ^ 64) ∨
        (keys.toNat = 0 ∧ start.toNat = 0) := by
  have hs := start.toNat_lt
  have hk := keys.toNat_lt
  rw [UInt64.le_iff_toNat_le, UInt64.toNat_sub, UInt64.toNat_add, UInt64.toNat_one]
  omega

theorem numItems_make {start keys : UInt64} :
    (ScrambledZipfianGenerator.make start (start + keys - 1)).numItems = keys := by
  change start + keys - 1 - start + 1 = keys
  grind

/-- In a range that does not wrap around no key wraps around. -/
theorem toNat_add_mod {start keys hash : UInt64} (hkeys : 0 < keys.toNat)
    (hfits : start.toNat + keys.toNat ≤ 2 ^ 64) :
    (start + hash % keys).toNat = start.toNat + hash.toNat % keys.toNat := by
  have hmod := Nat.mod_lt hash.toNat hkeys
  rw [UInt64.toNat_add, UInt64.toNat_mod, Nat.mod_eq_of_lt (by omega)]

theorem newKeys_eq_ok {w : Workload} {count : UInt64} :
    newKeys w = .ok count ↔
      let margin := roundTo 24 (roundTo 24 (roundTo 24 w.operationsCount.toNat *
        w.upsertProportion) * 2)
      (-1 < margin ∧ margin < 2 ^ 64) ∧ count = UInt64.ofNat ⌊margin⌋.toNat := by
  simp only [newKeys, truncateTo]
  split
  next margin h =>
    split at h
    next hm =>
      cases Option.some.inj h
      simp only [Except.ok.injEq, hm, and_self, true_and]
      exact eq_comm
    next => simp at h
  next h =>
    split at h
    next => simp at h
    next hm => simp [hm]

section

variable {w slice : Workload} {threadsCount : UInt64} {i : ℕ}
  {inner : ZipfianGenerator → Finset UInt64}

theorem split_startKey (hw : ¬w.InsertOnly) (hT : 0 < threadsCount)
    (h : (splitWorkloadIntoThreads w threadsCount)[i]? = some slice) :
    slice.startKey.toNat = sliceStart w threadsCount i := by
  have hi := (List.getElem?_eq_some_iff.mp h).1
  rw [split_length] at hi
  have hsum := split_records_sum (w := w) hT i (Nat.le_of_lt hi)
  have hstride : startKeyStride w = Workload.recordsCount := by
    funext s
    simp [startKeyStride, hw]
  rw [(split_chain w threadsCount).startKey_eq h, hstride, hsum, UInt64.toNat_add,
    UInt64.toNat_ofNat', sliceStart, Nat.add_mod_mod]

theorem split_sliceMargin (hT : 0 < threadsCount)
    (h : (splitWorkloadIntoThreads w threadsCount)[i]? = some slice)
    (hdist : w.keyDist = .zipfian) :
    roundTo 24 (roundTo 24 (roundTo 24 slice.operationsCount.toNat *
      slice.upsertProportion) * 2) = sliceMargin w threadsCount i := by
  have hops := split_operationsCount hT h
  obtain ⟨_, _, _, rfl⟩ := split_slice h
  rw [hops, sliceMargin, if_pos hdist]

theorem split_sliceKeys (hT : 0 < threadsCount)
    (h : (splitWorkloadIntoThreads w threadsCount)[i]? = some slice) :
    (slice.recordsCount + UInt64.ofNat ⌊sliceMargin w threadsCount i⌋.toNat).toNat =
      sliceKeys w threadsCount i := by
  rw [UInt64.toNat_add, split_recordsCount hT h, UInt64.toNat_ofNat', Nat.add_mod_mod, sliceKeys]

theorem split_sliceInner (hw : ¬w.InsertOnly) (hT : 0 < threadsCount)
    (h : (splitWorkloadIntoThreads w threadsCount)[i]? = some slice) :
    ZipfianGenerator.make slice.startKey (slice.startKey +
      (slice.recordsCount + UInt64.ofNat ⌊sliceMargin w threadsCount i⌋.toNat)) =
        sliceInner w threadsCount i := by
  rw [sliceInner, UInt64.ofNat_add, ← split_startKey hw hT h, ← split_sliceKeys hT h,
    UInt64.ofNat_toNat, UInt64.ofNat_toNat]

theorem acknowledged_last (n : ℕ) (start : UInt64) :
    (KeySequence.advance n (.acknowledged (.make start))).last = start - 1 :=
  KeySequence.advance_last_acknowledged n _

theorem keyLoop_uniform_iff (hw : ¬slice.InsertOnly) (hdist : slice.keyDist = .uniform) :
    KeyLoopCanSucceed inner slice ↔
      slice.startKey ≤ slice.startKey + slice.recordsCount - 1 ∧
        slice.startKey ≤ slice.dbRecordsCount - 1 := by
  have hmake : createKeyGenerators slice = .ok
      (.acknowledged (.make slice.dbRecordsCount),
        some (.uniform slice.startKey (slice.startKey + slice.recordsCount - 1))) := by
    simp only [createKeyGenerators, hw, if_false, createKeyGenerator, hdist]
    rfl
  constructor
  · rintro ⟨sequence, generator, min, max, h, hrange, hle, hkey⟩
    rw [hmake] at h
    cases Except.ok.inj h
    obtain ⟨rfl, rfl⟩ := hrange
    obtain ⟨key, ⟨hlo, _⟩, hlast⟩ := hkey 0
    rw [acknowledged_last] at hlast
    exact ⟨hle, UInt64.le_trans hlo hlast⟩
  · rintro ⟨hle, hlast⟩
    refine ⟨_, _, _, _, hmake, ⟨rfl, rfl⟩, hle, fun n => ?_⟩
    refine ⟨slice.startKey, ⟨UInt64.le_refl _, hle⟩, ?_⟩
    rwa [acknowledged_last]

theorem keyLoop_zipfian_iff (hw : ¬slice.InsertOnly) (hdist : slice.keyDist = .zipfian) :
    KeyLoopCanSucceed inner slice ↔ ∃ count, newKeys slice = .ok count ∧
      slice.recordsCount + count ≠ 0 ∧
      slice.startKey ≤ slice.startKey + (slice.recordsCount + count) - 1 ∧
      ∃ value ∈ inner (.make slice.startKey (slice.startKey + (slice.recordsCount + count))),
        slice.startKey +
          ScrambledZipfianGenerator.fnvHash64 value % (slice.recordsCount + count) ≤
            slice.dbRecordsCount - 1 := by
  have hmake : ∀ sequence generator,
      createKeyGenerators slice = .ok (sequence, some generator) ↔
      ∃ count, newKeys slice = .ok count ∧ sequence = .acknowledged (.make slice.dbRecordsCount) ∧
        generator = .scrambledZipfian (.make slice.startKey
          (slice.startKey + (slice.recordsCount + count) - 1)) := by
    intro sequence generator
    simp only [createKeyGenerators, hw, if_false, createKeyGenerator, hdist, bind_eq_ok,
      ← UInt64.add_assoc]
    grind
  have hinner (start keys : UInt64) :
      (ScrambledZipfianGenerator.make start (start + keys - 1)).generator =
        .make start (start + keys) := by
    change ZipfianGenerator.make start (start + keys - 1 + 1) = _
    rw [UInt64.sub_add_cancel]
  have hscrambled (start keys value : UInt64) :
      (ScrambledZipfianGenerator.make start (start + keys - 1)).scrambled value =
        start + ScrambledZipfianGenerator.fnvHash64 value % keys := by
    rw [ScrambledZipfianGenerator.scrambled, numItems_make]
    rfl
  constructor
  · rintro ⟨sequence, generator, min, max, h, hrange, hle, hkey⟩
    obtain ⟨count, hcount, rfl, rfl⟩ := (hmake _ _).mp h
    obtain ⟨hbounds, hitems⟩ := hrange
    obtain ⟨key, ⟨value, hvalue, rfl⟩, hlast⟩ := hkey 0
    rw [acknowledged_last, hscrambled] at hlast
    rw [hinner] at hvalue
    rw [numItems_make] at hitems
    have hbase : slice.startKey = min := congrArg ScrambledZipfianGenerator.base hbounds
    have hmax := congrArg ScrambledZipfianGenerator.numItems hbounds
    rw [numItems_make] at hmax
    replace hmax : slice.recordsCount + count = max - min + 1 := hmax
    have hle' : slice.startKey ≤ slice.startKey + (slice.recordsCount + count) - 1 := by
      have heq : min + (max - min + 1) - 1 = max := by grind
      rwa [hmax, hbase, heq]
    exact ⟨count, hcount, hitems, hle', value, hvalue, hlast⟩
  · rintro ⟨count, hcount, hkeys, hle, value, hvalue, hlast⟩
    refine ⟨_, _, _, _, (hmake _ _).mpr ⟨count, hcount, rfl, rfl⟩, ⟨rfl, ?_⟩, hle, fun n => ?_⟩
    · rwa [numItems_make]
    · rw [acknowledged_last]
      refine ⟨_, ⟨value, ?_, (hscrambled _ _ _).symm⟩, hlast⟩
      rwa [hinner]

theorem le_last_iff {start records : UInt64} (h : 0 < records) :
    start ≤ records - 1 ↔ start.toNat < records.toNat := by
  have hpos := UInt64.lt_iff_toNat_lt.mp h
  have hlt := records.toNat_lt
  simp only [UInt64.toNat_zero] at hpos
  rw [UInt64.le_iff_toNat_le, UInt64.toNat_sub, UInt64.toNat_one]
  omega

theorem split_keyLoop_zipfian (hw : ¬w.InsertOnly) (hT : 0 < threadsCount)
    (hrecords : 0 < w.dbRecordsCount) (hdist : w.keyDist = .zipfian)
    (h : (splitWorkloadIntoThreads w threadsCount)[i]? = some slice) :
    KeyLoopCanSucceed inner slice ↔ RangeFits w threadsCount i inner := by
  have hslice := split_slice h
  have hmixed : ¬slice.InsertOnly := by rwa [hslice.insertOnly_iff]
  have hmargin : ∀ count, newKeys slice = .ok count ↔
      (-1 < sliceMargin w threadsCount i ∧ sliceMargin w threadsCount i < 2 ^ 64) ∧
        count = UInt64.ofNat ⌊sliceMargin w threadsCount i⌋.toNat := by
    intro count
    rw [newKeys_eq_ok, split_sliceMargin hT h hdist]
  have hstart := split_startKey hw hT h
  have hkeys := split_sliceKeys hT h
  have hinner := split_sliceInner hw hT h
  have hpos : ∀ keys : UInt64, keys ≠ 0 ↔ 0 < keys.toNat := by
    intro keys
    rw [Nat.pos_iff_ne_zero, ne_eq, ne_eq, ← UInt64.toNat_inj, UInt64.toNat_zero]
  rw [keyLoop_zipfian_iff hmixed (hslice.keyDist.trans hdist), hslice.dbRecordsCount]
  simp only [hmargin, bounds_le_iff, le_last_iff hrecords, hpos, hstart]
  constructor
  · rintro ⟨count, ⟨hdefined, rfl⟩, hne, hle, value, hvalue, hlast⟩
    have hfits : slice.startKey.toNat + sliceKeys w threadsCount i ≤ 2 ^ 64 := by omega
    rw [toNat_add_mod hne (by rwa [hkeys]), hkeys, hstart] at hlast
    rw [hinner] at hvalue
    rw [hkeys] at hne
    rw [hstart] at hfits
    exact ⟨hdefined, hne, hfits, by simp [hdist], fun _ => ⟨value, hvalue, hlast⟩⟩
  · intro hfits
    obtain ⟨value, hvalue, hlast⟩ := hfits.reaches hdist
    refine ⟨_, ⟨hfits.margin, rfl⟩, by rw [hkeys]; exact hfits.keys, ?_, value, ?_, ?_⟩
    · rw [hkeys]
      exact Or.inl ⟨hfits.keys, hfits.fits⟩
    · rwa [hinner]
    · rwa [toNat_add_mod (by rw [hkeys]; exact hfits.keys)
        (by rw [hkeys, hstart]; exact hfits.fits), hkeys, hstart]

theorem split_keyLoop_uniform (hw : ¬w.InsertOnly) (hT : 0 < threadsCount)
    (hrecords : 0 < w.dbRecordsCount) (hdist : w.keyDist = .uniform)
    (h : (splitWorkloadIntoThreads w threadsCount)[i]? = some slice) :
    KeyLoopCanSucceed inner slice ↔
      RangeFits w threadsCount i inner ∨
        (sliceKeys w threadsCount i = 0 ∧ sliceStart w threadsCount i = 0) := by
  have hslice := split_slice h
  have hmixed : ¬slice.InsertOnly := by rwa [hslice.insertOnly_iff]
  have hmargin : sliceMargin w threadsCount i = 0 := by simp [sliceMargin, hdist]
  have hkeys : slice.recordsCount.toNat = sliceKeys w threadsCount i := by
    rw [← split_sliceKeys hT h, hmargin]
    simp
  have hpos := UInt64.lt_iff_toNat_lt.mp hrecords
  simp only [UInt64.toNat_zero] at hpos
  rw [keyLoop_uniform_iff hmixed (hslice.keyDist.trans hdist), hslice.dbRecordsCount]
  simp only [bounds_le_iff, le_last_iff hrecords, hkeys, split_startKey hw hT h]
  constructor
  · rintro ⟨⟨hne, hle⟩ | hempty, hlast⟩
    · exact Or.inl ⟨by simp [hmargin], hne, hle, fun _ => hlast, by simp [hdist]⟩
    · exact Or.inr hempty
  · rintro (hfits | hempty)
    · exact ⟨Or.inl ⟨hfits.keys, hfits.fits⟩, hfits.start hdist⟩
    · exact ⟨Or.inr hempty, by omega⟩

/-- A slice without records that starts at zero comes after one that starts at the
largest word. -/
theorem sliceStart_pred {records : ℕ} (hrecords : w.dbRecordsCount.toNat = records + 1)
    (hdist : w.keyDist = .uniform) (hi : i < threadsCount.toNat)
    (hkeys : sliceKeys w threadsCount i = 0) (hstart : sliceStart w threadsCount i = 0) :
    records < threadsCount.toNat ∧ sliceKeys w threadsCount records = 1 ∧
      sliceStart w threadsCount records = 2 ^ 64 - 1 := by
  have hmargin : ∀ j, sliceMargin w threadsCount j = 0 := by simp [sliceMargin, hdist]
  have hlt := w.dbRecordsCount.toNat_lt
  have hle := share_le w.dbRecordsCount.toNat threadsCount.toNat i
  simp only [sliceKeys, sliceStart, hmargin, Int.floor_zero, Int.toNat_zero, Nat.add_zero,
    hrecords] at hkeys hstart hlt hle ⊢
  have hshare : share (records + 1) threadsCount.toNat i = 0 := by
    rwa [Nat.mod_eq_of_lt (by omega)] at hkeys
  have hdiv : (records + 1) / threadsCount.toNat = 0 := (Nat.add_eq_zero_iff.mp hshare).1
  have hfew : records + 1 < threadsCount.toNat := by
    rcases Nat.div_eq_zero_iff.mp hdiv with h | h <;> omega
  have hmod := Nat.mod_eq_of_lt hfew
  simp only [share, dealt, hdiv, hmod, Nat.mul_zero, Nat.zero_add] at hshare hstart ⊢
  have hlate : records + 1 ≤ i := by
    by_contra hearly
    simp [Nat.lt_of_not_le hearly] at hshare
  rw [Nat.min_eq_right hlate] at hstart
  rw [Nat.min_eq_left (Nat.le_succ records), if_pos (Nat.lt_succ_self records)]
  have hword := w.startKey.toNat_lt
  omega

/-- An empty slice at zero does not stand alone: the loop of the slice before it
cannot succeed. -/
theorem rangeFits_of_uniform (hw : ¬w.InsertOnly) (hT : 0 < threadsCount)
    (hrecords : 0 < w.dbRecordsCount) (hdist : w.keyDist = .uniform)
    (h : ∀ slice ∈ splitWorkloadIntoThreads w threadsCount, KeyLoopCanSucceed inner slice)
    (hi : i < threadsCount.toNat) : RangeFits w threadsCount i inner := by
  have hloop : ∀ j < threadsCount.toNat, RangeFits w threadsCount j inner ∨
      (sliceKeys w threadsCount j = 0 ∧ sliceStart w threadsCount j = 0) := by
    intro j hj
    obtain ⟨slice, hs⟩ := exists_split_slice w hj
    exact (split_keyLoop_uniform hw hT hrecords hdist hs).mp (h slice (List.mem_of_getElem? hs))
  rcases hloop i hi with hfits | ⟨hkeys, hstart⟩
  · exact hfits
  · have hpos := UInt64.lt_iff_toNat_lt.mp hrecords
    have hword := w.dbRecordsCount.toNat_lt
    obtain ⟨records, hr⟩ := Nat.exists_eq_add_one_of_ne_zero (Nat.ne_of_gt hpos)
    obtain ⟨hj, hone, hlast⟩ := sliceStart_pred hr hdist hi hkeys hstart
    rcases hloop records hj with hfits | hzero
    · have hbelow := hfits.start hdist
      omega
    · omega

theorem key_loop_can_succeed_iff (hvalid : ValidateWorkload w threadsCount)
    (hw : ¬w.InsertOnly) (hdist : w.keyDist = .uniform ∨ w.keyDist = .zipfian) :
    (∀ slice ∈ splitWorkloadIntoThreads w threadsCount, KeyLoopCanSucceed inner slice) ↔
      ∀ i < threadsCount.toNat, RangeFits w threadsCount i inner := by
  have hT := hvalid.threads
  have hrecords := hvalid.records
  constructor
  · intro h i hi
    rcases hdist with hdist | hdist
    · exact rangeFits_of_uniform hw hT hrecords hdist h hi
    · obtain ⟨slice, hs⟩ := exists_split_slice w hi
      exact (split_keyLoop_zipfian hw hT hrecords hdist hs).mp (h slice (List.mem_of_getElem? hs))
  · intro h slice hmem
    obtain ⟨i, hi, hs⟩ := mem_split.mp hmem
    rcases hdist with hdist | hdist
    · exact (split_keyLoop_uniform hw hT hrecords hdist hs).mpr (Or.inl (h i hi))
    · exact (split_keyLoop_zipfian hw hT hrecords hdist hs).mpr (h i hi)

/-- Short of the largest word all uniform slices fit as soon as the first key of the
workload lies below the smallest share. -/
theorem rangeFits_iff_startKey_lt (hT : 0 < threadsCount) (hdist : w.keyDist = .uniform)
    (hwords : w.startKey.toNat + w.dbRecordsCount.toNat < 2 ^ 64) :
    (∀ i < threadsCount.toNat, RangeFits w threadsCount i inner) ↔
      w.startKey.toNat < w.dbRecordsCount.toNat / threadsCount.toNat := by
  have hparts : 0 < threadsCount.toNat := UInt64.lt_iff_toNat_lt.mp hT
  have hmargin : ∀ i, sliceMargin w threadsCount i = 0 := by simp [sliceMargin, hdist]
  obtain ⟨last, hlast⟩ := Nat.exists_eq_add_one_of_ne_zero (Nat.ne_of_gt hparts)
  have hall := dealt_all hparts w.dbRecordsCount.toNat
  have hshare := share_last hparts w.dbRecordsCount.toNat
  have hsucc := dealt_succ w.dbRecordsCount.toNat threadsCount.toNat last
  rw [← hlast] at hsucc
  rw [hlast, Nat.add_sub_cancel, ← hlast] at hshare
  constructor
  · intro h
    have hstart := (h last (by omega)).start hdist
    rw [sliceStart, Nat.mod_eq_of_lt (by omega)] at hstart
    omega
  · intro h i hi
    have hmono := dealt_mono w.dbRecordsCount.toNat threadsCount.toNat (show i ≤ last by omega)
    have hmin := share_antitone w.dbRecordsCount.toNat threadsCount.toNat (show i ≤ last by omega)
    have hstep := dealt_succ w.dbRecordsCount.toNat threadsCount.toNat i
    have hnext := dealt_le w.dbRecordsCount.toNat (show i + 1 ≤ threadsCount.toNat by omega)
    have hs : sliceStart w threadsCount i =
        w.startKey.toNat + dealt w.dbRecordsCount.toNat threadsCount.toNat i :=
      Nat.mod_eq_of_lt (by omega)
    have hk : sliceKeys w threadsCount i = share w.dbRecordsCount.toNat threadsCount.toNat i := by
      rw [sliceKeys, hmargin, Int.floor_zero, Int.toNat_zero, Nat.add_zero]
      exact Nat.mod_eq_of_lt (by omega)
    refine ⟨?_, by omega, by omega, fun _ => by omega, by simp [hdist]⟩
    simp [hmargin]

end

/-- Reads only. -/
def readOnly (records : UInt64) : Workload :=
  { name := "Read", dbRecordsCount := records, dbOperationsCount := 2, readProportion := 1,
    valueLength := 8 }

theorem readOnly_proportionSum (records : UInt64) : proportionSum (readOnly records) = 1 := by
  have hone : roundTo 24 1 = 1 := roundTo_one (by decide)
  simp [proportionSum, readOnly, roundTo_zero, hone]

theorem readOnly_validateWorkload {records : UInt64} (h : 0 < records) :
    ValidateWorkload (readOnly records) 2 where
  threads := by decide
  name := by simp [readOnly]
  records := h
  operations := show (0 : UInt64) < 2 by decide
  proportion := by simp [readOnly_proportionSum]
  valueLength := show (0 : UInt32) < 8 by decide
  keyDist := by simp [readOnly]
  batchUpsert := lengthsValid_unused _
  batchRead := lengthsValid_unused _
  bulkLoad := lengthsValid_unused _
  rangeSelect := lengthsValid_unused _

theorem readOnly_key_loop_can_succeed_iff :
    (∀ slice ∈ splitWorkloadIntoThreads { readOnly 10 with keyDist := .zipfian } 2,
      KeyLoopCanSucceed (fun generator => {generator.base, generator.base + 1}) slice) ↔
      ∀ i < (2 : UInt64).toNat, RangeFits { readOnly 10 with keyDist := .zipfian } 2 i
        fun generator => {generator.base, generator.base + 1} :=
  key_loop_can_succeed_iff
    { readOnly_validateWorkload (show (0 : UInt64) < 10 by decide) with
      keyDist := by simp }
    (by decide) (Or.inr rfl)

/-- The second of two threads gets no record of one. -/
theorem key_loop_cannot_succeed :
    ¬∃ inner, ∀ (w : Workload) (threadsCount : UInt64), ValidateWorkload w threadsCount →
      ¬w.InsertOnly → (w.keyDist = .uniform ∨ w.keyDist = .zipfian) →
      ∀ slice ∈ splitWorkloadIntoThreads w threadsCount, KeyLoopCanSucceed inner slice := by
  rintro ⟨inner, h⟩
  have hmem : { readOnly 1 with recordsCount := 0, operationsCount := 1, startKey := 1 } ∈
      splitWorkloadIntoThreads (readOnly 1) 2 := by decide
  have hloop := h (readOnly 1) 2 (readOnly_validateWorkload (by decide)) (by decide) (Or.inl rfl)
    _ hmem
  rw [keyLoop_uniform_iff (by decide) rfl] at hloop
  exact absurd hloop.1 (by decide)

/-- Of ten records and thirty-six more keys for the upserts, all that the values of the
inner generator become lie above the last record. -/
example : ∀ value ∈ List.range 48,
    9 < (ScrambledZipfianGenerator.fnvHash64 (UInt64.ofNat value)).toNat % 46 := by
  decide +kernel

end Ucsb
