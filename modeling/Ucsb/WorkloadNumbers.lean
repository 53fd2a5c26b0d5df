import Ucsb.WorkloadFields

namespace Ucsb

open ExceptRules BinaryRounding

namespace Json

/-- The integer a literal stands for. -/
def number : Json → Option ℤ
  | unsigned value => some value.toNat
  | integer value => some value.toInt
  | _ => none

/-- The number written for a member, zero for an absent one. -/
def written (j : Json) (key : String) : ℤ :=
  ((j.member key).bind number).getD 0

end Json

/-- A workload object whose integers fit their fields and whose names are known. -/
structure WorkloadObject (j : Json) : Prop where
  object : ∃ members, j = .object members
  name : ∃ name, j.member "name" = some (.string name)
  counts : ∀ entry ∈ countMembers, ∃ value n, j.member entry.1 = some value ∧
    value.number = some n ∧ 0 ≤ n ∧ n < 2 ^ 64
  sizes : ∀ entry ∈ sizeMembers, ∀ value, j.member entry.1 = some value →
    ∃ n, value.number = some n ∧ 0 ≤ n ∧ n < 2 ^ 64
  valueLength : ∀ value, j.member "value_length" = some value →
    ∃ n, value.number = some n ∧ 0 ≤ n ∧ n < 2 ^ 32
  proportions : ∀ key ∈ proportionMembers, ∀ value, j.member key = some value →
    ∃ q, value.getDouble = .ok q
  distributions : ∀ key ∈ distributionMembers, ∀ value, j.member key = some value →
    ∃ name, value = .string name ∧ parseDistribution name ≠ .unknown

/-- The workload has every integer as the object has it. -/
structure DecodesNumbers (j : Json) (w : Workload) : Prop where
  name : j.member "name" = some (.string w.name)
  counts : ∀ entry ∈ countMembers, ((entry.2 w).toNat : ℤ) = j.written entry.1
  sizes : ∀ entry ∈ sizeMembers, ((entry.2 w).toNat : ℤ) = j.written entry.1
  valueLength : (w.valueLength.toNat : ℤ) = j.written "value_length"

theorem ofInt_toNat (word : UInt64) : UInt64.ofInt word.toNat = word := by
  have hlt := word.toNat_lt
  rw [UInt64.ofInt, Int.emod_eq_of_lt (by omega) (by omega), Int.toNat_natCast,
    UInt64.ofNat_toNat]

theorem toNat_ofInt64 (n : ℤ) : ((UInt64.ofInt n).toNat : ℤ) = n % 2 ^ 64 := by
  have hlo := Int.emod_nonneg n (b := 2 ^ 64) (by decide)
  have hhi := Int.emod_lt_of_pos n (b := 2 ^ 64) (by decide)
  rw [UInt64.ofInt, UInt64.toNat_ofNat', Nat.mod_eq_of_lt (by omega), Int.toNat_of_nonneg hlo]

theorem toNat_ofInt32 (n : ℤ) : ((UInt32.ofInt n).toNat : ℤ) = n % 2 ^ 32 := by
  have hlo := Int.emod_nonneg n (b := 2 ^ 32) (by decide)
  have hhi := Int.emod_lt_of_pos n (b := 2 ^ 32) (by decide)
  rw [UInt32.ofInt, UInt32.toNat_ofNat', Nat.mod_eq_of_lt (by omega), Int.toNat_of_nonneg hlo]

/-- A `size_t` that went through an `int` is what it was below 2^31, and at the
upper end, where the sign bits are put back. -/
theorem size_exact_iff {n : ℤ} (hlo : 0 ≤ n) (hhi : n < 2 ^ 64) :
    ((UInt64.ofInt (Int32.ofInt n).toInt).toNat : ℤ) = n ↔
      n < 2 ^ 31 ∨ 2 ^ 64 - 2 ^ 31 ≤ n := by
  have hsize : Int32.size = 2 ^ 32 := rfl
  rw [toNat_ofInt64, Int32.toInt_ofInt, hsize, Int.bmod_def]
  split <;> omega

theorem length_exact {n : ℤ} (hlo : 0 ≤ n) (hhi : n < 2 ^ 32) :
    ((UInt32.ofInt (Int32.ofInt n).toInt).toNat : ℤ) = n := by
  have hsize : Int32.size = 2 ^ 32 := rfl
  rw [toNat_ofInt32, Int32.toInt_ofInt, hsize, Int.bmod_def]
  split <;> omega

namespace Json

variable {j value : Json} {key default : String} {n : ℤ}

theorem getSize_number (h : value.number = some n) : value.getSize = .ok (UInt64.ofInt n) := by
  cases value with
  | unsigned value =>
    cases Option.some.inj h
    rw [getSize, ofInt_toNat]
  | integer value =>
    cases Option.some.inj h
    rfl
  | _ => simp [number] at h

theorem getInt_number (h : value.number = some n) : value.getInt = .ok (Int32.ofInt n) := by
  cases value with
  | unsigned value =>
    cases Option.some.inj h
    rfl
  | integer value =>
    cases Option.some.inj h
    rfl
  | _ => simp [number] at h

/-- Whatever the width of the field, the number passes through an `int`. -/
theorem value_getInt (hobject : ∃ members, j = object members)
    (h : ∀ value, j.member key = some value → ∃ n, value.number = some n) :
    j.value getInt key 0 = .ok (Int32.ofInt (j.written key)) := by
  refine value_eq_ok hobject (fun value hvalue => ?_) (fun habsent => ?_)
  · obtain ⟨n, hn⟩ := h value hvalue
    rw [getInt_number hn, written, hvalue, Option.bind_some, hn, Option.getD_some]
  · rw [written, habsent]
    rfl

theorem size_eq_ok (hobject : ∃ members, j = object members)
    (h : ∀ value, j.member key = some value → ∃ n, value.number = some n) :
    j.size key = .ok (UInt64.ofInt (Int32.ofInt (j.written key)).toInt) := by
  rw [size, value_getInt hobject h]
  rfl

theorem length_eq_ok (hobject : ∃ members, j = object members)
    (h : ∀ value, j.member key = some value → ∃ n, value.number = some n) :
    j.length key = .ok (UInt32.ofInt (Int32.ofInt (j.written key)).toInt) := by
  rw [length, value_getInt hobject h]
  rfl

/-- A member within bounds is written within them, and so is an absent one. -/
theorem written_bounds {bound : ℤ} (hbound : 0 < bound)
    (h : ∀ value, j.member key = some value → ∃ n, value.number = some n ∧ 0 ≤ n ∧ n < bound) :
    0 ≤ j.written key ∧ j.written key < bound := by
  unfold written
  cases hm : j.member key with
  | none => exact ⟨le_rfl, hbound⟩
  | some value =>
    obtain ⟨n, hn, hlo, hhi⟩ := h value hm
    rw [Option.bind_some, hn]
    exact ⟨hlo, hhi⟩

end Json

theorem WorkloadObject.wellTyped {j : Json} (h : WorkloadObject j) : WellTypedObject j where
  object := h.object
  name := h.name
  counts := by
    intro entry he
    obtain ⟨value, n, hm, hn, _⟩ := h.counts entry he
    exact ⟨value, _, hm, Json.getSize_number hn⟩
  sizes := by
    intro entry he value hvalue
    obtain ⟨n, hn, _⟩ := h.sizes entry he value hvalue
    exact ⟨_, Json.getInt_number hn⟩
  valueLength := by
    intro value hvalue
    obtain ⟨n, hn, _⟩ := h.valueLength value hvalue
    exact ⟨_, Json.getInt_number hn⟩
  proportions := h.proportions
  distributions := by
    intro key hk value hvalue
    obtain ⟨name, hname, _⟩ := h.distributions key hk value hvalue
    exact ⟨name, hname⟩

theorem WorkloadObject.knownWhereChecked {j : Json} (h : WorkloadObject j) :
    KnownWhereChecked j := by
  have hnamed : ∀ key ∈ distributionMembers, ∀ default, parseDistribution default ≠ .unknown →
      j.named key default ≠ .unknown := by
    intro key hk default hdefault
    unfold Json.named
    split
    next name hm =>
      obtain ⟨_, heq, hknown⟩ := h.distributions key hk _ hm
      cases heq
      exact hknown
    next => exact hdefault
  simp only [KnownWhereChecked, checkedDistributions, List.forall_mem_cons]
  exact ⟨hnamed _ (by decide) _ (by decide), hnamed _ (by decide) _ (by decide),
    hnamed _ (by decide) _ (by decide), hnamed _ (by decide) _ (by decide),
    hnamed _ (by decide) _ (by decide), by simp⟩

/-- What `load` makes of a workload object, whatever its numbers. -/
theorem loadWorkload_ok {j : Json} (h : WorkloadObject j) :
    ∃ w, loadWorkload j = .ok w ∧ j.member "name" = some (.string w.name) ∧
      (∀ entry ∈ countMembers, ((entry.2 w).toNat : ℤ) = j.written entry.1) ∧
      (∀ entry ∈ sizeMembers,
        entry.2 w = UInt64.ofInt (Int32.ofInt (j.written entry.1)).toInt) ∧
      w.valueLength = UInt32.ofInt (Int32.ofInt (j.written "value_length")).toInt := by
  obtain ⟨w, hload, hreads⟩ := loadWorkload_known h.wellTyped h.knownWhereChecked
  refine ⟨w, hload, hreads.name, fun entry he => ?_, fun entry he => ?_, ?_⟩
  · obtain ⟨value, n, hm, hn, hlo, hhi⟩ := h.counts entry he
    obtain ⟨read, hread, hget⟩ := hreads.counts entry he
    rw [hm] at hread
    cases Option.some.inj hread
    rw [Json.getSize_number hn] at hget
    rw [← Except.ok.inj hget, toNat_ofInt64, Int.emod_eq_of_lt hlo hhi, Json.written, hm,
      Option.bind_some, hn, Option.getD_some]
  · have hsize := hreads.sizes entry he
    rw [Json.size_eq_ok h.object fun value hvalue => ?_] at hsize
    · exact (Except.ok.inj hsize).symm
    · obtain ⟨n, hn, _⟩ := h.sizes entry he value hvalue
      exact ⟨n, hn⟩
  · have hlength := hreads.valueLength
    rw [Json.length_eq_ok h.object fun value hvalue => ?_] at hlength
    · exact (Except.ok.inj hlength).symm
    · obtain ⟨n, hn, _⟩ := h.valueLength value hvalue
      exact ⟨n, hn⟩

theorem loadWorkload_decodes_iff {j : Json} (h : WorkloadObject j) :
    ∃ w, loadWorkload j = .ok w ∧ (DecodesNumbers j w ↔ ∀ entry ∈ sizeMembers,
      j.written entry.1 < 2 ^ 31 ∨ 2 ^ 64 - 2 ^ 31 ≤ j.written entry.1) := by
  obtain ⟨w, hload, hname, hcounts, hsizes, hlength⟩ := loadWorkload_ok h
  have hexact : ∀ entry ∈ sizeMembers, ((entry.2 w).toNat : ℤ) = j.written entry.1 ↔
      j.written entry.1 < 2 ^ 31 ∨ 2 ^ 64 - 2 ^ 31 ≤ j.written entry.1 := by
    intro entry he
    obtain ⟨hlo, hhi⟩ := Json.written_bounds (by decide) (h.sizes entry he)
    rw [hsizes entry he]
    exact size_exact_iff hlo hhi
  refine ⟨w, hload, fun hw entry he => (hexact entry he).mp (hw.sizes entry he), fun hw => ?_⟩
  refine ⟨hname, hcounts, fun entry he => (hexact entry he).mpr (hw entry he), ?_⟩
  obtain ⟨hlo, hhi⟩ := Json.written_bounds (by decide) h.valueLength
  rw [hlength]
  exact length_exact hlo hhi

theorem mapM_loadWorkload {file : List Json} (hfile : ∀ j ∈ file, WorkloadObject j) :
    ∃ workloads, file.mapM loadWorkload = .ok workloads ∧
      (List.Forall₂ DecodesNumbers file workloads ↔ ∀ j ∈ file, ∀ entry ∈ sizeMembers,
        j.written entry.1 < 2 ^ 31 ∨ 2 ^ 64 - 2 ^ 31 ≤ j.written entry.1) := by
  simp only [mapM_eq_ok]
  induction file with
  | nil => exact ⟨[], .nil, by simp⟩
  | cons j file ih =>
    rw [List.forall_mem_cons] at hfile
    obtain ⟨w, hw, hdecodes⟩ := loadWorkload_decodes_iff hfile.1
    obtain ⟨rest, hrest, hrestDecodes⟩ := ih hfile.2
    refine ⟨w :: rest, .cons hw hrest, ?_⟩
    rw [List.forall₂_cons, List.forall_mem_cons, hdecodes, hrestDecodes]

theorem load_decodes_iff {file : List Json} (hfile : ∀ j ∈ file, WorkloadObject j) :
    (∃ workloads, load (.parsed (.array file)) = .ok (true, workloads) ∧
      List.Forall₂ DecodesNumbers file workloads) ↔
    ∀ j ∈ file, ∀ entry ∈ sizeMembers,
      j.written entry.1 < 2 ^ 31 ∨ 2 ^ 64 - 2 ^ 31 ≤ j.written entry.1 := by
  obtain ⟨workloads, hmap, hdecodes⟩ := mapM_loadWorkload hfile
  have hload : load (.parsed (.array file)) = .ok (true, workloads) := by
    simp only [load, Json.elements, hmap]
  constructor
  · rintro ⟨others, hothers, hd⟩
    rw [hload] at hothers
    cases Except.ok.inj hothers
    exact hdecodes.mp hd
  · intro h
    exact ⟨workloads, hload, hdecodes.mpr h⟩

/-- The insertions of a workload file, from a given first key on. -/
def batchUpsertObject (startKey : UInt64) : Json :=
  .object [("name", .string "BatchUpsert"), ("records_count", .unsigned 10050000000),
    ("operations_count", .unsigned 500000), ("start_key", .unsigned startKey),
    ("value_length", .unsigned 1024), ("batch_upsert_proportion", .float 1),
    ("batch_upsert_min_length", .unsigned 1000), ("batch_upsert_max_length", .unsigned 1000)]

theorem batchUpsertObject_workloadObject (startKey : UInt64) :
    WorkloadObject (batchUpsertObject startKey) := by
  have hstart := startKey.toNat_lt
  constructor <;>
    simp [batchUpsertObject, Json.member, Json.number, Json.getDouble, List.lookup_cons,
      countMembers, sizeMembers, proportionMembers, distributionMembers]
  omega

theorem batchUpsert_load_decodes_iff :
    (∃ workloads, load (.parsed (.array [batchUpsertObject 5])) = .ok (true, workloads) ∧
      List.Forall₂ DecodesNumbers [batchUpsertObject 5] workloads) ↔
    ∀ j ∈ [batchUpsertObject 5], ∀ entry ∈ sizeMembers,
      j.written entry.1 < 2 ^ 31 ∨ 2 ^ 64 - 2 ^ 31 ≤ j.written entry.1 :=
  load_decodes_iff (by simpa using batchUpsertObject_workloadObject 5)

/-- The first key of the largest shipped file does not fit an `int`. -/
theorem load_changes_start_key :
    ¬∀ file : List Json, (∀ j ∈ file, WorkloadObject j) →
      ∃ workloads, load (.parsed (.array file)) = .ok (true, workloads) ∧
        List.Forall₂ DecodesNumbers file workloads := by
  intro h
  have hfile : ∀ j ∈ [batchUpsertObject 10050000000], WorkloadObject j := by
    simpa using batchUpsertObject_workloadObject 10050000000
  obtain ⟨workloads, hload, hd⟩ := h _ hfile
  obtain ⟨others, hmap, hdecodes⟩ := mapM_loadWorkload hfile
  simp only [load, Json.elements, hmap] at hload
  cases Except.ok.inj hload
  have hbounds := hdecodes.mp hd _ (List.mem_singleton_self _) ("start_key", Workload.startKey)
    (by simp [sizeMembers])
  exact absurd hbounds (by decide)

end Ucsb
