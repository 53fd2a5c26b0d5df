import Ucsb.ExceptRules
import Ucsb.WorkloadFile

namespace Ucsb

open ExceptRules

namespace Json

def member (j : Json) (key : String) : Option Json :=
  match j with
  | object members => members.lookup key
  | _ => none

/-- The distribution that a member names, or the default names for an absent one. -/
def named (j : Json) (key default : String) : DistributionKind :=
  match j.member key with
  | some (string name) => parseDistribution name
  | _ => parseDistribution default

end Json

/-- The members decoded by `value(key, 0)` into a `size_t`. -/
def sizeMembers : List (String × (Workload → UInt64)) :=
  [("start_key", Workload.startKey),
    ("batch_upsert_min_length", Workload.batchUpsertMinLength),
    ("batch_upsert_max_length", Workload.batchUpsertMaxLength),
    ("batch_read_min_length", Workload.batchReadMinLength),
    ("batch_read_max_length", Workload.batchReadMaxLength),
    ("bulk_load_min_length", Workload.bulkLoadMinLength),
    ("bulk_load_max_length", Workload.bulkLoadMaxLength),
    ("range_select_min_length", Workload.rangeSelectMinLength),
    ("range_select_max_length", Workload.rangeSelectMaxLength)]

def countMembers : List (String × (Workload → UInt64)) :=
  [("records_count", Workload.dbRecordsCount), ("operations_count", Workload.dbOperationsCount)]

def proportionMembers : List String :=
  ["upsert_proportion", "update_proportion", "remove_proportion", "read_proportion",
    "read_modify_write_proportion", "batch_upsert_proportion", "batch_read_proportion",
    "bulk_load_proportion", "range_select_proportion", "scan_proportion"]

def distributionMembers : List String :=
  ["key_dist", "value_length_dist", "batch_upsert_length_dist", "batch_read_length_dist",
    "bulk_load_length_dist", "range_select_length_dist"]

/-- The distributions that are tested once read: the member, its default and the field. -/
def checkedDistributions : List (String × String × (Workload → DistributionKind)) :=
  [("key_dist", "uniform", Workload.keyDist),
    ("value_length_dist", "const", Workload.valueLengthDist),
    ("batch_upsert_length_dist", "uniform", Workload.batchUpsertLengthDist),
    ("batch_read_length_dist", "uniform", Workload.batchReadLengthDist),
    ("bulk_load_length_dist", "uniform", Workload.bulkLoadLengthDist)]

def distributions : List (String × String × (Workload → DistributionKind)) :=
  checkedDistributions ++ [("range_select_length_dist", "uniform", Workload.rangeSelectLengthDist)]

/-- A workload object with its required members, each of a type that converts. -/
structure WellTypedObject (j : Json) : Prop where
  object : ∃ members, j = .object members
  name : ∃ name, j.member "name" = some (.string name)
  counts : ∀ entry ∈ countMembers, ∃ value count,
    j.member entry.1 = some value ∧ value.getSize = .ok count
  sizes : ∀ entry ∈ sizeMembers, ∀ value, j.member entry.1 = some value →
    ∃ n, value.getInt = .ok n
  valueLength : ∀ value, j.member "value_length" = some value → ∃ n, value.getInt = .ok n
  proportions : ∀ key ∈ proportionMembers, ∀ value, j.member key = some value →
    ∃ q, value.getDouble = .ok q
  distributions : ∀ key ∈ distributionMembers, ∀ value, j.member key = some value →
    ∃ name, value = .string name

/-- The workload has the fields that `load` reads from the object. -/
structure ReadsFields (j : Json) (w : Workload) : Prop where
  name : j.member "name" = some (.string w.name)
  counts : ∀ entry ∈ countMembers, ∃ value,
    j.member entry.1 = some value ∧ value.getSize = .ok (entry.2 w)
  sizes : ∀ entry ∈ sizeMembers, j.size entry.1 = .ok (entry.2 w)
  valueLength : j.length "value_length" = .ok w.valueLength
  distributions : ∀ entry ∈ distributions, entry.2.2 w = j.named entry.1 entry.2.1

namespace Json

variable {j value : Json} {key default : String}

theorem index_eq_ok (hobject : ∃ members, j = object members)
    (h : j.member key = some value) : j.index key = .ok value := by
  obtain ⟨members, rfl⟩ := hobject
  simp [index, show members.lookup key = some value from h]

theorem value_eq_ok {α : Type} {get : Json → Except LoadStop α} {default a : α}
    (hobject : ∃ members, j = object members)
    (hpresent : ∀ value, j.member key = some value → get value = .ok a)
    (habsent : j.member key = none → default = a) : j.value get key default = .ok a := by
  obtain ⟨members, rfl⟩ := hobject
  simp only [Json.value, Json.member] at hpresent habsent ⊢
  split
  next value h => exact hpresent value h
  next h => rw [habsent h]

/-- A conversion that succeeds on what the member holds succeeds on the member. -/
theorem value_ok {α : Type} {get : Json → Except LoadStop α} {default : α}
    (hobject : ∃ members, j = object members)
    (h : ∀ value, j.member key = some value → ∃ a, get value = .ok a) :
    ∃ a, j.value get key default = .ok a := by
  cases hm : j.member key with
  | none => exact ⟨default, value_eq_ok hobject (fun value hvalue => by simp [hm] at hvalue)
      (fun _ => rfl)⟩
  | some value =>
    obtain ⟨a, ha⟩ := h value hm
    refine ⟨a, value_eq_ok hobject (fun other hother => ?_) (fun habsent => ?_)⟩
    · rw [hm] at hother
      cases Option.some.inj hother
      exact ha
    · simp [hm] at habsent

theorem size_ok (hobject : ∃ members, j = object members)
    (h : ∀ value, j.member key = some value → ∃ n, value.getInt = .ok n) :
    ∃ n, j.size key = .ok n := by
  obtain ⟨n, hn⟩ := value_ok hobject h
  exact ⟨_, by rw [size, hn]; rfl⟩

theorem length_ok (hobject : ∃ members, j = object members)
    (h : ∀ value, j.member key = some value → ∃ n, value.getInt = .ok n) :
    ∃ n, j.length key = .ok n := by
  obtain ⟨n, hn⟩ := value_ok hobject h
  exact ⟨_, by rw [length, hn]; rfl⟩

theorem proportion_ok (hobject : ∃ members, j = object members)
    (h : ∀ value, j.member key = some value → ∃ q, value.getDouble = .ok q) :
    ∃ q, j.proportion key = .ok q := by
  obtain ⟨q, hq⟩ := value_ok hobject h
  exact ⟨_, by rw [proportion, hq]; rfl⟩

theorem distribution_eq_ok (hobject : ∃ members, j = object members)
    (h : ∀ value, j.member key = some value → ∃ name, value = string name) :
    j.distribution key default = .ok (j.named key default) := by
  cases hm : j.member key with
  | none =>
    have hv : j.value getString key default = .ok default :=
      value_eq_ok hobject (fun value hvalue => by simp [hm] at hvalue) (fun _ => rfl)
    rw [distribution, hv, named, hm]
    rfl
  | some value =>
    obtain ⟨name, rfl⟩ := h value hm
    have hv : j.value getString key default = .ok name :=
      value_eq_ok hobject (fun other hother => by rw [hm] at hother; cases hother; rfl)
        (fun habsent => by simp [hm] at habsent)
    rw [distribution, hv, named, hm]
    rfl

end Json

/-- `load` reads every member of a well-typed object, with five tests in between. -/
theorem loadWorkload_reads {j : Json} (h : WellTypedObject j) :
    ∃ w, ReadsFields j w ∧ loadWorkload j = (do
      checkDistribution (j.named "key_dist" "uniform")
      checkDistribution (j.named "value_length_dist" "const")
      checkDistribution (j.named "batch_upsert_length_dist" "uniform")
      checkDistribution (j.named "batch_read_length_dist" "uniform")
      checkDistribution (j.named "bulk_load_length_dist" "uniform")
      checkDistribution (j.named "key_dist" "uniform")
      .ok w) := by
  obtain ⟨name, hname⟩ := h.name
  have hindex := Json.index_eq_ok h.object hname
  have hget : (Json.string name).getString = .ok name := rfl
  have hcounts := h.counts
  have hsizes := fun entry he => Json.size_ok h.object (h.sizes entry he)
  obtain ⟨_, hlength⟩ := Json.length_ok h.object h.valueLength
  have hproportions := fun key hk => Json.proportion_ok h.object (h.proportions key hk)
  have hdistributions := fun key hk default =>
    @Json.distribution_eq_ok j key default h.object (h.distributions key hk)
  simp only [countMembers, sizeMembers, proportionMembers, distributionMembers,
    List.forall_mem_cons] at hcounts hsizes hproportions hdistributions
  obtain ⟨⟨_, records, hrm, hrg⟩, ⟨_, operations, hom, hog⟩, _⟩ := hcounts
  have hri := Json.index_eq_ok h.object hrm
  have hoi := Json.index_eq_ok h.object hom
  obtain ⟨⟨_, hs0⟩, ⟨_, hs1⟩, ⟨_, hs2⟩, ⟨_, hs3⟩, ⟨_, hs4⟩, ⟨_, hs5⟩, ⟨_, hs6⟩, ⟨_, hs7⟩,
    ⟨_, hs8⟩, _⟩ := hsizes
  obtain ⟨⟨_, hp0⟩, ⟨_, hp1⟩, ⟨_, hp2⟩, ⟨_, hp3⟩, ⟨_, hp4⟩, ⟨_, hp5⟩, ⟨_, hp6⟩, ⟨_, hp7⟩,
    ⟨_, hp8⟩, ⟨_, hp9⟩, _⟩ := hproportions
  obtain ⟨hd0, hd1, hd2, hd3, hd4, hd5, _⟩ := hdistributions
  have hload := Eq.refl (loadWorkload j)
  conv_rhs at hload =>
    simp only [loadWorkload, hindex, hget, hri, hrg, hoi, hog, hs0, hs1, hs2, hs3, hs4, hs5, hs6,
      hs7, hs8, hlength, hp0, hp1, hp2, hp3, hp4, hp5, hp6, hp7, hp8, hp9, hd0, hd1, hd2, hd3,
      hd4, hd5, ok_bind]
  refine ⟨_, ?_, hload⟩
  refine ⟨hname, ?_, ?_, hlength, ?_⟩
  · simp only [countMembers, List.forall_mem_cons]
    exact ⟨⟨_, hrm, hrg⟩, ⟨_, hom, hog⟩, by simp⟩
  · simp only [sizeMembers, List.forall_mem_cons]
    exact ⟨hs0, hs1, hs2, hs3, hs4, hs5, hs6, hs7, hs8, by simp⟩
  · simp [distributions, checkedDistributions]

/-- The members that are tested name known distributions. -/
def KnownWhereChecked (j : Json) : Prop :=
  ∀ entry ∈ checkedDistributions, j.named entry.1 entry.2.1 ≠ .unknown

theorem checkDistribution_bind {dist : DistributionKind} {f : Unit → Except LoadStop Workload} :
    checkDistribution dist >>= f =
      if dist = .unknown then .error .unknownDistribution else f () := by
  unfold checkDistribution
  split <;> rfl

theorem loadWorkload_known {j : Json} (h : WellTypedObject j) (hknown : KnownWhereChecked j) :
    ∃ w, loadWorkload j = .ok w ∧ ReadsFields j w := by
  obtain ⟨w, hw, hload⟩ := loadWorkload_reads h
  refine ⟨w, ?_, hw⟩
  simp only [KnownWhereChecked, checkedDistributions, List.forall_mem_cons] at hknown
  obtain ⟨hd0, hd1, hd2, hd3, hd4, _⟩ := hknown
  simp only [hload, checkDistribution_bind, if_neg hd0, if_neg hd1, if_neg hd2, if_neg hd3,
    if_neg hd4]

theorem loadWorkload_unknown {j : Json} (h : WellTypedObject j) (hunknown : ¬KnownWhereChecked j) :
    loadWorkload j = .error .unknownDistribution := by
  obtain ⟨w, hw, hload⟩ := loadWorkload_reads h
  simp only [checkDistribution_bind] at hload
  by_contra hne
  apply hunknown
  -- were one of the five names unknown, its test would have ended the load
  simp only [KnownWhereChecked, checkedDistributions, List.forall_mem_cons]
  split_ifs at hload with h0 h1 h2 h3 h4
  all_goals try contradiction
  exact ⟨h0, h1, h2, h3, h4, by simp⟩

end Ucsb
