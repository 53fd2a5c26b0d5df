import Ucsb.Runner

namespace Ucsb

variable {env : BenchEnv} {arguments : Arguments} {workloads : List Workload}
  {machine : Machine} {ran i count : ℕ} {names : List String} {name : String}

theorem length_joinNames_singleton (h : name ∈ names) :
    (joinNames [name]).toList.length ≤ (joinNames names).toList.length := by
  have hone : joinNames [name] = name := String.intercalate_singleton
  rw [hone, joinNames, String.toList_intercalate, List.intercalate]
  obtain ⟨i, hi⟩ := List.mem_iff_getElem?.mp (List.mem_map_of_mem (f := String.toList) h)
  have hplace : ((names.map String.toList).intersperse ",".toList)[2 * i]? =
      (names.map String.toList)[i]? := List.getElem?_intersperse_two_mul
  rw [hi] at hplace
  exact (List.sublist_flatten_of_mem (List.mem_of_getElem? hplace)).length_le

theorem Launchable.single (h : Launchable names) (hname : name ∈ names) : Launchable [name] where
  nonempty := by simp
  plain := by simpa using h.plain name hname
  fits := (length_joinNames_singleton hname).trans_lt h.fits

/-- The name that the results of a workload go by. -/
def resultName (w : Workload) : String := parseWorkloadName w.name

/-- No results take the place of other ones, from the first name on that matches a workload. -/
def Apart (workloads : List Workload) : List String → Prop
  | [] => True
  | name :: names =>
    if selected workloads [name] = [] then Apart workloads names
    else
      ((selected workloads names).map resultName).Nodup ∧
        ∀ w ∈ selected workloads names, resultName w ≠ parseWorkloadName name

namespace ResultsFile

variable {members : List (String × Json)} {context context' : Json} {reports reports' : List Json}

end ResultsFile

/-- A machine with a loading and a reading workload, whose results have numbers for names. -/
def twoWorkloads : BenchEnv where
  ndebug := true
  enabled brand := brand = .rocksdb
  workloads := .parsed (.array [
    .object [("name", .string "Init"), ("records_count", .unsigned 8),
      ("operations_count", .unsigned 8)],
    .object [("name", .string "Read"), ("records_count", .unsigned 8),
      ("operations_count", .unsigned 4)]])
  context ran := .unsigned (UInt64.ofNat ran)
  report ran slices :=
    .object [("name", .string ((slices.head?.map Workload.name).getD "" ++ ("/" ++ "1"))),
      ("entry", .unsigned (UInt64.ofNat ran))]

end Ucsb
