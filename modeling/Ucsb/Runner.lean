import Ucsb.BenchMain

namespace Ucsb

/-- Every process finds workloads and a database, and fails no assertion; the benchmark library
names an entry by its benchmark. -/
structure Ready (env : BenchEnv) (arguments : Arguments) (workloads : List Workload) : Prop where
  loaded : load env.workloads = .ok (true, workloads)
  nonempty : workloads ≠ []
  made : (makeDb env.enabled (parseDbBrand arguments.dbName) arguments.transactional).isSome
  threads : 0 < arguments.threads
  threads_int : arguments.threads < 2 ^ 31
  valid : env.ndebug = true ∨
    ∀ w ∈ workloads, ValidateWorkload w (UInt64.ofNat arguments.threads)
  named : ∀ ran first rest, (env.report ran (first :: rest)).ProducedBy first.name

/-- The workloads of the names, in the order of the names. -/
def selected (workloads : List Workload) (names : List String) : List Workload :=
  names.flatMap fun name => workloads.filter fun workload => workload.name = name

namespace ResultsFile

/-- A merge copies its source. -/
def Nothing : ResultsFile → Prop
  | .missing => True
  | .malformed => False
  | .parsed document => document.isEmpty = true

/-- A file that merges leave behind, or none. -/
inductive Readable : ResultsFile → Prop
  | nothing {results : ResultsFile} (h : results.Nothing) : Readable results
  | stored {members : List (String × Json)} (hmembers : members ≠ [])
      (hnamed : ∀ b ∈ (Json.object members).benchmarks, b.HasName) :
      Readable (.parsed (.object members))

end ResultsFile

variable {env : BenchEnv} {arguments : Arguments} {workloads : List Workload}
  {machine : Machine} {ran i count : ℕ} {names : List String} {name : String}

namespace ResultsFile

/-- The file after a merge of these entries into a readable one. -/
def merged (results : ResultsFile) (context : Json) (reports : List Json) : ResultsFile :=
  match results with
  | .parsed (.object (entry :: members)) =>
    .parsed (.object (Json.setMember "benchmarks" (.array (KeyedList.putAll Json.nameOrEmpty
      (Json.object (entry :: members)).benchmarks reports)) (entry :: members)))
  | _ => .parsed (benchmarkDocument context reports)

/-- A process that runs no benchmark leaves the file as it is. -/
def leave (results : ResultsFile) (context : Json) (reports : List Json) : ResultsFile :=
  if reports = [] then results else results.merged context reports

variable {results : ResultsFile} {context context' : Json} {reports reports' : List Json}

theorem merged_stored {members : List (String × Json)} (hmembers : members ≠ []) :
    merged (.parsed (.object members)) context reports =
      .parsed (.object (Json.setMember "benchmarks" (.array (KeyedList.putAll Json.nameOrEmpty
        (Json.object members).benchmarks reports)) members)) := by
  cases members with
  | nil => exact absurd rfl hmembers
  | cons entry members => rfl

theorem merged_nothing (h : results.Nothing) :
    results.merged context reports = .parsed (benchmarkDocument context reports) := by
  unfold merged
  split
  next => cases h
  next => rfl

/-- What a merge leaves is stored. -/
theorem Readable.after (h : results.Readable) (hreports : ∀ b ∈ reports, b.HasName) :
    (results.merged context reports).Readable := by
  cases h with
  | nothing h =>
    rw [merged_nothing h]
    exact .stored (by simp) hreports
  | @stored members hmembers hnamed =>
    rw [merged_stored hmembers]
    refine .stored (Json.setMember_ne_nil _ _ _) fun b hb => ?_
    rw [Json.benchmarks_of_lookup (Json.lookup_setMember_self _ _ _)] at hb
    rcases KeyedList.mem_putAll hb with hold | hnew
    · exact hnamed b hold
    · exact hreports b hnew

theorem Readable.leave (h : results.Readable) (hreports : ∀ b ∈ reports, b.HasName) :
    (results.leave context reports).Readable := by
  unfold ResultsFile.leave
  split
  · exact h
  · exact h.after hreports

end ResultsFile

/-- The names as the script accepts them: some, which a command line can hold. -/
structure Launchable (part : List String) : Prop where
  nonempty : part ≠ []
  plain : ∀ name ∈ part, PlainName name
  fits : (joinNames part).toList.length < npos.toNat

variable {part : List String}

end Ucsb
