import Ucsb.WorkloadFields

namespace Ucsb

/-- `workloads.clear()`. -/
def clear (_workloads : List Workload) : List Workload := []

/-- The loop of `load` over the elements left, with the vector it pushes to. -/
def loadElements (workloads : List Workload) :
    List Json → Except LoadStop (Bool × List Workload)
  | [] => .ok (true, workloads)
  | j :: rest =>
    match loadWorkload j with
    | .ok workload => loadElements (workloads ++ [workload]) rest
    | .error .unknownDistribution => .ok (false, clear workloads)
    | .error stop => .error stop

/-- `load` on the vector of its caller. -/
def loadInto (workloads : List Workload) : WorkloadFile → Except LoadStop (Bool × List Workload)
  | .missing => .ok (false, clear workloads)
  | .malformed => .error .parseError
  | .parsed content => loadElements (clear workloads) content.elements

/-- The workload has the six distributions its element names, and knows them all. -/
def KnowsDistributions (j : Json) (w : Workload) : Prop :=
  ∀ entry ∈ distributions, entry.2.2 w = j.named entry.1 entry.2.1 ∧ entry.2.2 w ≠ .unknown

/-- What `load` leaves in the vector for either result. -/
def ValidatesDistributions (previous : List Workload) (file : List Json) : Prop :=
  ∃ accepted workloads, loadInto previous (.parsed (.array file)) = .ok (accepted, workloads) ∧
    (accepted = true → List.Forall₂ KnowsDistributions file workloads) ∧
    (accepted = false → workloads = [])

theorem loadElements_eq_mapM (workloads : List Workload) (file : List Json) :
    loadElements workloads file =
      match file.mapM loadWorkload with
      | .ok loaded => .ok (true, workloads ++ loaded)
      | .error .unknownDistribution => .ok (false, [])
      | .error stop => .error stop := by
  induction file generalizing workloads with
  | nil => simp [loadElements, pure, Except.pure]
  | cons j rest ih =>
    rw [List.mapM_cons]
    cases hj : loadWorkload j with
    | error stop => cases stop <;> simp [loadElements, hj, clear, bind, Except.bind]
    | ok w =>
      rw [loadElements, hj]
      simp only [ih]
      cases rest.mapM loadWorkload with
      | error stop => cases stop <;> rfl
      | ok loaded => simp [bind, Except.bind, pure, Except.pure]

/-- What the vector held before has no effect. -/
theorem loadInto_eq_load (workloads : List Workload) (file : WorkloadFile) :
    loadInto workloads file = load file := by
  cases file with
  | missing => rfl
  | malformed => rfl
  | parsed content =>
    rw [loadInto, loadElements_eq_mapM]
    rfl

/-- A file whose tested names are known is accepted as it is. -/
theorem loadElements_known {file : List Json} (workloads : List Workload)
    (hfile : ∀ j ∈ file, WellTypedObject j) (hknown : ∀ j ∈ file, KnownWhereChecked j) :
    ∃ loaded, loadElements workloads file = .ok (true, workloads ++ loaded) ∧
      List.Forall₂ ReadsFields file loaded := by
  induction file generalizing workloads with
  | nil => exact ⟨[], by simp [loadElements], .nil⟩
  | cons j rest ih =>
    rw [List.forall_mem_cons] at hfile hknown
    obtain ⟨w, hw, hreads⟩ := loadWorkload_known hfile.1 hknown.1
    obtain ⟨loaded, hload, hrest⟩ := ih (workloads ++ [w]) hfile.2 hknown.2
    refine ⟨w :: loaded, ?_, .cons hreads hrest⟩
    simp [loadElements, hw, hload]

/-- An unknown name in a tested member empties the vector, wherever it stands. -/
theorem loadElements_unknown {file : List Json} (workloads : List Workload)
    (hfile : ∀ j ∈ file, WellTypedObject j) (hunknown : ¬∀ j ∈ file, KnownWhereChecked j) :
    loadElements workloads file = .ok (false, []) := by
  induction file generalizing workloads with
  | nil => simp at hunknown
  | cons j rest ih =>
    rw [List.forall_mem_cons] at hfile hunknown
    by_cases hj : KnownWhereChecked j
    · obtain ⟨w, hw, _⟩ := loadWorkload_known hfile.1 hj
      simp only [loadElements, hw]
      exact ih _ hfile.2 fun hrest => hunknown ⟨hj, hrest⟩
    · simp [loadElements, loadWorkload_unknown hfile.1 hj, clear]

theorem knowsDistributions_iff {j : Json} {w : Workload} (hreads : ReadsFields j w)
    (hknown : KnownWhereChecked j) :
    KnowsDistributions j w ↔ j.named "range_select_length_dist" "uniform" ≠ .unknown := by
  constructor
  · intro h
    obtain ⟨hnamed, hne⟩ := h ("range_select_length_dist", "uniform",
      Workload.rangeSelectLengthDist) (by simp [distributions])
    exact hnamed ▸ hne
  · intro h entry he
    have hnamed := hreads.distributions entry he
    refine ⟨hnamed, ?_⟩
    rw [hnamed]
    rcases List.mem_append.mp he with hchecked | hlast
    · exact hknown entry hchecked
    · cases List.mem_singleton.mp hlast
      exact h

theorem forall₂_knowsDistributions_iff {file : List Json} {loaded : List Workload}
    (hreads : List.Forall₂ ReadsFields file loaded) (hknown : ∀ j ∈ file, KnownWhereChecked j) :
    List.Forall₂ KnowsDistributions file loaded ↔
      ∀ j ∈ file, j.named "range_select_length_dist" "uniform" ≠ .unknown := by
  induction hreads with
  | nil => simp
  | cons hreads _ ih =>
    rw [List.forall_mem_cons] at hknown
    rw [List.forall₂_cons, List.forall_mem_cons, knowsDistributions_iff hreads hknown.1,
      ih hknown.2]

theorem load_validates_iff {file : List Json} (previous : List Workload)
    (hfile : ∀ j ∈ file, WellTypedObject j) :
    ValidatesDistributions previous file ↔
      ((∀ j ∈ file, KnownWhereChecked j) →
        ∀ j ∈ file, j.named "range_select_length_dist" "uniform" ≠ .unknown) := by
  by_cases hknown : ∀ j ∈ file, KnownWhereChecked j
  · obtain ⟨loaded, hload, hreads⟩ := loadElements_known (clear previous) hfile hknown
    rw [← forall₂_knowsDistributions_iff hreads hknown]
    constructor
    · rintro ⟨accepted, workloads, hinto, hok, _⟩ _
      rw [loadInto, Json.elements, hload] at hinto
      cases Except.ok.inj hinto
      exact hok rfl
    · intro h
      exact ⟨true, loaded, hload, fun _ => h hknown, nofun⟩
  · have hload := loadElements_unknown (clear previous) hfile hknown
    constructor
    · exact fun _ h => absurd h hknown
    · intro _
      exact ⟨false, [], hload, nofun, fun _ => rfl⟩

/-- Range selects of lengths drawn by a distribution of the given name. -/
def rangeSelectObject (dist : String) : Json :=
  .object [("name", .string "RangeSelect"), ("records_count", .unsigned 1000),
    ("operations_count", .unsigned 100), ("range_select_proportion", .float 1),
    ("range_select_max_length", .unsigned 10), ("range_select_length_dist", .string dist)]

theorem rangeSelectObject_wellTyped (dist : String) : WellTypedObject (rangeSelectObject dist) := by
  constructor <;>
    simp [rangeSelectObject, Json.member, Json.getSize, Json.getInt, Json.getDouble,
      List.lookup_cons, countMembers, sizeMembers, proportionMembers, distributionMembers]

theorem rangeSelect_load_validates_iff :
    ValidatesDistributions [{}] [rangeSelectObject "latest"] ↔
      ((∀ j ∈ [rangeSelectObject "latest"], KnownWhereChecked j) →
        ∀ j ∈ [rangeSelectObject "latest"],
          j.named "range_select_length_dist" "uniform" ≠ .unknown) :=
  load_validates_iff [{}] (by simpa using rangeSelectObject_wellTyped "latest")

/-- The test after the last name is the one made after the first. -/
theorem load_accepts_unknown :
    ¬∀ (previous : List Workload) (file : List Json), (∀ j ∈ file, WellTypedObject j) →
      ValidatesDistributions previous file := by
  intro h
  obtain ⟨accepted, workloads, hload, hok, hclear⟩ :=
    h [] [rangeSelectObject "normal"] (by simpa using rangeSelectObject_wellTyped "normal")
  have hknown : ∀ j ∈ [rangeSelectObject "normal"], KnownWhereChecked j := by
    simp [KnownWhereChecked, checkedDistributions, rangeSelectObject, Json.named, Json.member,
      List.lookup_cons, parseDistribution]
  obtain ⟨loaded, hloaded, hreads⟩ := loadElements_known (clear [])
    (by simpa using rangeSelectObject_wellTyped "normal") hknown
  rw [loadInto, Json.elements, hloaded] at hload
  cases Except.ok.inj hload
  have hrange := (forall₂_knowsDistributions_iff hreads hknown).mp (hok rfl) _
    (List.mem_singleton_self _)
  exact hrange (by simp [rangeSelectObject, Json.named, Json.member, List.lookup_cons,
    parseDistribution])

end Ucsb
