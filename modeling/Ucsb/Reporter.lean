import Mathlib.Data.List.TakeWhile
import Ucsb.WorkloadFile
import Ucsb.ExceptRules
import Ucsb.KeyedList

namespace Ucsb

def parseWorkloadName (benchmarkName : String) : String :=
  match benchmarkName.toList.findIdx? (· = '/') with
  | some pos => String.ofList (benchmarkName.toList.take pos)
  | none => benchmarkName

namespace Json

/-- `empty()`. -/
def isEmpty : Json → Bool
  | null => true
  | array elements => elements.isEmpty
  | object members => members.isEmpty
  | _ => false

/-- Assigns to a member, which keeps its place, or adds it as the last one. -/
def setMember (key : String) (member : Json) : List (String × Json) → List (String × Json)
  | [] => [(key, member)]
  | (k, old) :: rest =>
    if k = key then (k, member) :: rest else (k, old) :: setMember key member rest

/-- The assignment to `operator[]`. -/
def assign (j : Json) (key : String) (member : Json) : Except LoadStop Json :=
  match j with
  | object members => .ok (object (setMember key member members))
  | null => .ok (object [(key, member)])
  | _ => .error (.typeError 305)

def benchmarkName (benchmark : Json) : Except LoadStop String := do
  let name ← benchmark.index "name"
  name.getString

def workloadName (benchmark : Json) : Except LoadStop String := do
  let name ← benchmark.benchmarkName
  .ok (parseWorkloadName name)

end Json

/-- The loop over `results` for one entry of the source. -/
def placeResult (source : Json) (sourceName : String) : List Json → Except LoadStop (List Json)
  | [] => .ok [source]
  | destination :: rest => do
    let destinationName ← destination.workloadName
    if sourceName = destinationName then .ok (source :: rest)
    else do
      let rest ← placeResult source sourceName rest
      .ok (destination :: rest)

def updateResults : List Json → List Json → Except LoadStop (List Json)
  | results, [] => .ok results
  | results, source :: sources => do
    let sourceName ← source.workloadName
    let results ← placeResult source sourceName results
    updateResults results sources

/-- What is found under a path given to `merge_results`. -/
inductive ResultsFile
  | missing
  | malformed
  | parsed (content : Json)

/-- The document read from the destination. -/
def ResultsFile.read : ResultsFile → Except LoadStop Json
  | .missing => .ok .null
  | .malformed => .error .parseError
  | .parsed content => .ok content

/-- What is written to the destination; without a source nothing is. -/
def mergeResults (source destination : ResultsFile) : Except LoadStop (Option Json) :=
  match source with
  | .missing => .ok none
  | .malformed => .error .parseError
  | .parsed source => do
    let destination ← destination.read
    if destination.isEmpty then .ok (some source)
    else do
      let sources ← source.index "benchmarks"
      let destinations ← destination.index "benchmarks"
      let results ← updateResults destinations.elements sources.elements
      let merged ← destination.assign "benchmarks" (.array results)
      .ok (some merged)

theorem parseWorkloadName_toList (name : String) :
    (parseWorkloadName name).toList = name.toList.takeWhile (· ≠ '/') := by
  unfold parseWorkloadName
  rw [List.takeWhile_eq_take_findIdx_not]
  split
  next pos hpos =>
    obtain ⟨-, hidx⟩ := List.findIdx?_eq_some_iff_findIdx_eq.mp hpos
    simp [hidx]
  next hnone =>
    have hall : ∀ c ∈ name.toList, (c == '/') = false := by
      simpa using List.findIdx?_eq_none_iff.mp hnone
    have hlength : name.toList.findIdx (fun c => !decide (c ≠ '/')) = name.toList.length := by
      rw [List.findIdx_eq_length]
      simpa using hall
    rw [hlength, List.take_length]

/-- The cut gives back the name in front of a suffix exactly when the name has no slash. -/
theorem parseWorkloadName_append (name suffix : String) :
    parseWorkloadName (name ++ ("/" ++ suffix)) = name ↔ '/' ∉ name.toList := by
  have hslash : ("/" ++ suffix).toList = '/' :: suffix.toList := by
    rw [String.toList_append]
    rfl
  have hstop : ('/' :: suffix.toList).takeWhile (· ≠ '/') = [] := by simp
  rw [← String.toList_inj, parseWorkloadName_toList, String.toList_append, hslash]
  constructor
  · intro h hmem
    have hp := List.mem_takeWhile_imp (h.symm ▸ hmem)
    simp at hp
  · intro h
    have hall : ∀ c ∈ name.toList, decide (c ≠ '/') = true := by
      intro c hc
      exact decide_eq_true fun heq => h (heq ▸ hc)
    rw [List.takeWhile_append_of_pos hall, hstop, List.append_nil]

namespace Json

theorem lookup_setMember {key k : String} (hk : k ≠ key) (member : Json)
    (members : List (String × Json)) :
    (setMember key member members).lookup k = members.lookup k := by
  induction members with
  | nil =>
    have hne : (k == key) = false := beq_eq_false_iff_ne.mpr hk
    simp [setMember, List.lookup_cons, hne]
  | cons entry members ih =>
    obtain ⟨name, old⟩ := entry
    rw [setMember]
    split
    next heq =>
      subst heq
      have hne : (k == name) = false := beq_eq_false_iff_ne.mpr hk
      simp [List.lookup_cons, hne]
    next =>
      simp only [List.lookup_cons]
      split
      next => rfl
      next => exact ih

theorem lookup_setMember_self (key : String) (member : Json) (members : List (String × Json)) :
    (setMember key member members).lookup key = some member := by
  induction members with
  | nil => simp [setMember]
  | cons entry members ih =>
    obtain ⟨name, old⟩ := entry
    rw [setMember]
    split
    next heq =>
      subst heq
      simp
    next hne =>
      have hfalse : (key == name) = false := beq_eq_false_iff_ne.mpr (Ne.symm hne)
      simp only [List.lookup_cons, hfalse]
      exact ih

theorem filter_setMember (key : String) (member : Json) (members : List (String × Json)) :
    (setMember key member members).filter (·.1 ≠ key) = members.filter (·.1 ≠ key) := by
  induction members with
  | nil => simp [setMember]
  | cons entry members ih =>
    obtain ⟨name, old⟩ := entry
    rw [setMember]
    split
    next heq => simp [heq]
    next hne =>
      rw [List.filter_cons_of_pos (by simpa using hne), ih,
        List.filter_cons_of_pos (by simpa using hne)]

theorem setMember_ne_nil (key : String) (member : Json) (members : List (String × Json)) :
    setMember key member members ≠ [] := by
  cases members with
  | nil => simp [setMember]
  | cons entry members =>
    rw [setMember]
    split <;> simp

/-- The list that `merge_results` reads from a document. -/
def benchmarks (document : Json) : List Json :=
  match document.index "benchmarks" with
  | .ok benchmarks => benchmarks.elements
  | .error _ => []

/-- The workload name as a value, for benchmarks that have one. -/
def nameOrEmpty (benchmark : Json) : String :=
  match benchmark.workloadName with
  | .ok name => name
  | .error _ => ""

theorem index_of_lookup {members : List (String × Json)} {key : String} {member : Json}
    (h : members.lookup key = some member) : (object members).index key = .ok member := by
  simp [index, h]

theorem benchmarks_of_lookup {members : List (String × Json)} {results : List Json}
    (h : members.lookup "benchmarks" = some (array results)) :
    (object members).benchmarks = results := by
  simp [benchmarks, index_of_lookup h, elements]

def HasName (benchmark : Json) : Prop := ∃ name, benchmark.workloadName = .ok name

theorem HasName.eq {benchmark : Json} (h : benchmark.HasName) :
    benchmark.workloadName = .ok benchmark.nameOrEmpty := by
  obtain ⟨name, hname⟩ := h
  simp [nameOrEmpty, hname]

end Json

theorem placeResult_eq (source : Json) {results : List Json}
    (hresults : ∀ b ∈ results, b.HasName) :
    placeResult source source.nameOrEmpty results =
      .ok (KeyedList.put Json.nameOrEmpty source results) := by
  induction results with
  | nil => rfl
  | cons b results ih =>
    rw [List.forall_mem_cons] at hresults
    rw [placeResult, hresults.1.eq, ExceptRules.ok_bind, KeyedList.put]
    split
    next => rfl
    next => rw [ih hresults.2, ExceptRules.ok_bind]

/-- With a name in every benchmark the loops are the update of a list by keys. -/
theorem updateResults_eq {results sources : List Json} (hresults : ∀ b ∈ results, b.HasName)
    (hsources : ∀ b ∈ sources, b.HasName) :
    updateResults results sources = .ok (KeyedList.putAll Json.nameOrEmpty results sources) := by
  induction sources generalizing results with
  | nil => rfl
  | cons source sources ih =>
    rw [List.forall_mem_cons] at hsources
    rw [updateResults, hsources.1.eq, ExceptRules.ok_bind, placeResult_eq source hresults,
      ExceptRules.ok_bind]
    refine ih (fun b hb => ?_) hsources.2
    rcases KeyedList.mem_put hb with rfl | hold
    · exact hsources.1
    · exact hresults b hold

/-- What a merge into a document with results writes. -/
theorem mergeResults_eq {source sources destinations : Json} {members : List (String × Json)}
    (hmembers : members ≠ []) (hsource : source.index "benchmarks" = .ok sources)
    (hdestination : (Json.object members).index "benchmarks" = .ok destinations)
    (hsources : ∀ b ∈ sources.elements, b.HasName)
    (hdestinations : ∀ b ∈ destinations.elements, b.HasName) :
    mergeResults (.parsed source) (.parsed (.object members)) =
      .ok (some (.object (Json.setMember "benchmarks" (.array (KeyedList.putAll Json.nameOrEmpty
        destinations.elements sources.elements)) members))) := by
  have hempty : (Json.object members).isEmpty = false := by
    cases members with
    | nil => exact absurd rfl hmembers
    | cons entry members => rfl
  simp only [mergeResults, ResultsFile.read, ExceptRules.ok_bind, hempty, Bool.false_eq_true,
    if_false, hsource, hdestination, updateResults_eq hdestinations hsources, Json.assign]

/-- Merging keeps the order of the destination, replaces an entry by the last one of its
workload, and adds the workloads that are new in the order in which they first appear. -/
theorem mergeResults_last_wins {source sources destinations : Json}
    {members : List (String × Json)}
    (hmembers : members ≠ []) (hsource : source.index "benchmarks" = .ok sources)
    (hdestination : (Json.object members).index "benchmarks" = .ok destinations)
    (hsources : ∀ b ∈ sources.elements, b.HasName)
    (hdestinations : ∀ b ∈ destinations.elements, b.HasName)
    (hdistinct : (destinations.elements.map Json.nameOrEmpty).Nodup) :
    ∃ (written : List (String × Json)) (merged : List Json),
      mergeResults (.parsed source) (.parsed (.object members)) =
        .ok (some (.object written)) ∧
      written.lookup "benchmarks" = some (.array merged) ∧
      (merged.map Json.nameOrEmpty).Nodup ∧
      (∀ (i : ℕ) (old : Json), destinations.elements[i]? = some old → merged[i]? = some
        ((KeyedList.lastWith Json.nameOrEmpty sources.elements old.nameOrEmpty).getD old)) ∧
      merged.drop destinations.elements.length =
        ((sources.elements.map Json.nameOrEmpty).filter
          (· ∉ destinations.elements.map Json.nameOrEmpty)).eraseDups.filterMap
            (KeyedList.lastWith Json.nameOrEmpty sources.elements) ∧
      (∀ key, key ≠ "benchmarks" → written.lookup key = members.lookup key) ∧
      written.filter (·.1 ≠ "benchmarks") = members.filter (·.1 ≠ "benchmarks") := by
  have heq := KeyedList.putAll_eq_append Json.nameOrEmpty hdistinct sources.elements
  refine ⟨_, _, mergeResults_eq hmembers hsource hdestination hsources hdestinations,
    Json.lookup_setMember_self _ _ _, ?_, ?_, ?_, fun key hkey => Json.lookup_setMember hkey _ _,
    Json.filter_setMember _ _ _⟩
  · rw [KeyedList.map_key_putAll Json.nameOrEmpty hdistinct]
    exact KeyedList.nodup_eraseDups _
  · intro i old hold
    obtain ⟨hi, -⟩ := List.getElem?_eq_some_iff.mp hold
    rw [heq, List.getElem?_append_left (by simpa using hi), List.getElem?_map, hold]
    rfl
  · rw [heq, List.drop_left' (by simp)]

/-- A new result of `A` and one of `C` merged into results of `A` and `B`. -/
theorem mergeResults_last_wins_three :
    ∃ (written : List (String × Json)) (merged : List Json),
      mergeResults
        (.parsed (.object [("benchmarks", .array [.object [("name", .string "C/1")],
          .object [("name", .string "A/2")]])]))
        (.parsed (.object [("context", .null), ("benchmarks",
          .array [.object [("name", .string "A/1")], .object [("name", .string "B/1")]])])) =
            .ok (some (.object written)) ∧
      written.lookup "benchmarks" = some (.array merged) ∧
      written.lookup "context" = some .null ∧
      merged[0]? = some (.object [("name", .string "A/2")]) := by
  let members : List (String × Json) := [("context", .null), ("benchmarks",
    .array [.object [("name", .string "A/1")], .object [("name", .string "B/1")]])]
  have hmembers : members ≠ [] := by simp [members]
  have hsource : (Json.object [("benchmarks", .array [.object [("name", .string "C/1")],
      .object [("name", .string "A/2")]])]).index "benchmarks" =
        .ok (.array [.object [("name", .string "C/1")], .object [("name", .string "A/2")]]) := rfl
  have hdestination : (Json.object members).index "benchmarks" =
      .ok (.array [.object [("name", .string "A/1")], .object [("name", .string "B/1")]]) := rfl
  obtain ⟨written, merged, hmerge, hlookup, -, hplace, -, hother, -⟩ :=
    mergeResults_last_wins hmembers hsource hdestination
      (List.forall_mem_cons.mpr ⟨⟨"C", rfl⟩, List.forall_mem_singleton.mpr ⟨"A", rfl⟩⟩)
      (List.forall_mem_cons.mpr ⟨⟨"A", rfl⟩, List.forall_mem_singleton.mpr ⟨"B", rfl⟩⟩)
      (by decide)
  refine ⟨written, merged, hmerge, hlookup, hother "context" (by decide), ?_⟩
  rw [hplace 0 (.object [("name", .string "A/1")]) rfl]
  rfl

/-- Copying the source, and merging it into an empty list and then once more, give one list
with one entry for each workload exactly when the source has one entry for each. -/
theorem mergeResults_nothing_iff {members others : List (String × Json)} {news : List Json}
    {nothing : ResultsFile}
    (hsource : members.lookup "benchmarks" = some (.array news))
    (hnews : ∀ b ∈ news, b.HasName)
    (hnothing : nothing = .missing ∨ ∃ document, nothing = .parsed document ∧ document.isEmpty)
    (hempty : others.lookup "benchmarks" = some (.array [])) :
    ∃ copied merged copiedAgain mergedAgain : Json,
      mergeResults (.parsed (.object members)) nothing = .ok (some copied) ∧
      mergeResults (.parsed (.object members)) (.parsed (.object others)) = .ok (some merged) ∧
      mergeResults (.parsed (.object members)) (.parsed copied) = .ok (some copiedAgain) ∧
      mergeResults (.parsed (.object members)) (.parsed merged) = .ok (some mergedAgain) ∧
      ((copied.benchmarks = merged.benchmarks ∧
          (copied.benchmarks.map Json.nameOrEmpty).Nodup ∧
          copiedAgain.benchmarks = copied.benchmarks ∧
          mergedAgain.benchmarks = merged.benchmarks) ↔
        (news.map Json.nameOrEmpty).Nodup) := by
  have hmembers : members ≠ [] := by
    rintro rfl
    simp at hsource
  have hothers : others ≠ [] := by
    rintro rfl
    simp at hempty
  have hcopy : mergeResults (.parsed (.object members)) nothing = .ok (some (.object members)) := by
    rcases hnothing with rfl | ⟨document, rfl, hdocument⟩
    · rfl
    · simp [mergeResults, ResultsFile.read, ExceptRules.ok_bind, hdocument]
  let results := KeyedList.putAll Json.nameOrEmpty [] news
  have hresults : ∀ b ∈ results, b.HasName := fun b hb =>
    (KeyedList.mem_putAll hb).elim (fun hold => by simp at hold) (hnews b)
  let merged := Json.setMember "benchmarks" (.array results) others
  have hlookup : merged.lookup "benchmarks" = some (.array results) :=
    Json.lookup_setMember_self _ _ _
  have hindex := Json.index_of_lookup hsource
  refine ⟨_, .object merged, _, _, hcopy,
    mergeResults_eq hothers hindex (Json.index_of_lookup hempty) hnews (by simp [Json.elements]),
    mergeResults_eq hmembers hindex hindex hnews hnews,
    mergeResults_eq (Json.setMember_ne_nil _ _ _) hindex (Json.index_of_lookup hlookup) hnews
      hresults, ?_⟩
  rw [Json.benchmarks_of_lookup hsource, Json.benchmarks_of_lookup hlookup,
    Json.benchmarks_of_lookup (Json.lookup_setMember_self _ _ _),
    Json.benchmarks_of_lookup (Json.lookup_setMember_self _ _ _)]
  constructor
  · rintro ⟨-, hdistinct, -⟩
    exact hdistinct
  · intro hdistinct
    have hnil : results = news := KeyedList.putAll_nil _ hdistinct
    have hself := KeyedList.putAll_self _ hdistinct
    refine ⟨hnil.symm, hdistinct, hself, ?_⟩
    simp only [Json.elements, hnil, hself]

/-- Two results of one workload, as the filter `Read,Read` produces them, are both kept without
a destination and become one in an empty list. -/
theorem mergeResults_repeated :
    ∃ copied merged : Json,
      mergeResults
        (.parsed (.object [("benchmarks", .array [.object [("name", .string "Read/1")],
          .object [("name", .string "Read/2")]])])) .missing = .ok (some copied) ∧
      mergeResults
        (.parsed (.object [("benchmarks", .array [.object [("name", .string "Read/1")],
          .object [("name", .string "Read/2")]])]))
        (.parsed (.object [("benchmarks", .array [])])) = .ok (some merged) ∧
      copied.benchmarks.length = 2 ∧ merged.benchmarks.length = 1 := ⟨_, _, rfl, rfl, rfl, rfl⟩

theorem mergeResults_nothing_distinct :
    ∃ copied merged : Json,
      mergeResults
        (.parsed (.object [("benchmarks", .array [.object [("name", .string "Read/1")],
          .object [("name", .string "Scan/2")]])])) .missing = .ok (some copied) ∧
      mergeResults
        (.parsed (.object [("benchmarks", .array [.object [("name", .string "Read/1")],
          .object [("name", .string "Scan/2")]])]))
        (.parsed (.object [("benchmarks", .array [])])) = .ok (some merged) ∧
      copied.benchmarks = merged.benchmarks := by
  have hsource : List.lookup "benchmarks" [("benchmarks", Json.array
      [.object [("name", .string "Read/1")], .object [("name", .string "Scan/2")]])] =
        some (.array [.object [("name", .string "Read/1")],
          .object [("name", .string "Scan/2")]]) := rfl
  have hempty : List.lookup "benchmarks" [("benchmarks", Json.array [])] =
      some (.array []) := rfl
  obtain ⟨copied, merged, _, _, hcopied, hmerged, -, -, hiff⟩ := mergeResults_nothing_iff hsource
    (List.forall_mem_cons.mpr ⟨⟨"Read", rfl⟩, List.forall_mem_singleton.mpr ⟨"Scan", rfl⟩⟩)
    (Or.inl rfl) hempty
  exact ⟨copied, merged, hcopied, hmerged, (hiff.mpr (by decide)).1⟩

theorem placeResult_names {source : Json} {name : String} {results placed : List Json}
    (hsource : source.workloadName = .ok name)
    (h : placeResult source name results = .ok placed) :
    results.map Json.workloadName <+: placed.map Json.workloadName := by
  induction results generalizing placed with
  | nil => exact List.nil_prefix
  | cons b results ih =>
    obtain ⟨other, hother, hrest⟩ := ExceptRules.bind_eq_ok.mp h
    split at hrest
    next heq =>
      cases Except.ok.inj hrest
      have hnames : (b :: results).map Json.workloadName =
          (source :: results).map Json.workloadName := by
        rw [List.map_cons, List.map_cons, hsource, hother, heq]
      exact hnames ▸ List.prefix_rfl
    next =>
      obtain ⟨tail, htail, hplaced⟩ := ExceptRules.bind_eq_ok.mp hrest
      cases Except.ok.inj hplaced
      rw [List.map_cons, List.map_cons]
      exact (List.prefix_cons_inj _).mpr (ih htail)

theorem updateResults_names {results sources updated : List Json}
    (h : updateResults results sources = .ok updated) :
    results.map Json.workloadName <+: updated.map Json.workloadName := by
  induction sources generalizing results with
  | nil =>
    cases Except.ok.inj h
    exact List.prefix_rfl
  | cons source sources ih =>
    obtain ⟨name, hname, hrest⟩ := ExceptRules.bind_eq_ok.mp h
    obtain ⟨placed, hplaced, hupdated⟩ := ExceptRules.bind_eq_ok.mp hrest
    exact (placeResult_names hname hplaced).trans (ih hupdated)

/-- Whatever the documents hold, the entry at a place keeps its workload name. -/
theorem mergeResults_names {source : ResultsFile} {destination written : Json}
    (h : mergeResults source (.parsed destination) = .ok (some written)) :
    destination.benchmarks.map Json.workloadName <+:
      written.benchmarks.map Json.workloadName := by
  cases source with
  | missing => simp [mergeResults] at h
  | malformed => simp [mergeResults] at h
  | parsed source =>
    rw [mergeResults, ResultsFile.read, ExceptRules.ok_bind] at h
    split at h
    next hempty =>
      have hnil : destination.benchmarks = [] := by
        cases destination with
        | null => rfl
        | array elements => rfl
        | object members =>
          cases List.isEmpty_iff.mp hempty
          rfl
        | _ => simp [Json.isEmpty] at hempty
      rw [hnil]
      exact List.nil_prefix
    next =>
      obtain ⟨sources, -, h⟩ := ExceptRules.bind_eq_ok.mp h
      obtain ⟨destinations, hdestination, h⟩ := ExceptRules.bind_eq_ok.mp h
      obtain ⟨updated, hupdated, h⟩ := ExceptRules.bind_eq_ok.mp h
      obtain ⟨merged, hmerged, h⟩ := ExceptRules.bind_eq_ok.mp h
      obtain rfl := Option.some.inj (Except.ok.inj h)
      have hold : destination.benchmarks = destinations.elements := by
        simp [Json.benchmarks, hdestination]
      have hnew : merged.benchmarks = updated := by
        cases destination with
        | null =>
          cases Except.ok.inj hmerged
          rfl
        | object members =>
          cases Except.ok.inj hmerged
          exact Json.benchmarks_of_lookup (Json.lookup_setMember_self _ _ _)
        | _ => simp [Json.assign] at hmerged
      rw [hold, hnew]
      exact updateResults_names hupdated

/-- The name in a result of a workload is the workload's, with a suffix that starts with a
slash. -/
def Json.ProducedBy (benchmark : Json) (workload : String) : Prop :=
  ∃ suffix, benchmark.benchmarkName = .ok (workload ++ ("/" ++ suffix))

theorem Json.ProducedBy.workloadName {benchmark : Json} {workload : String}
    (h : benchmark.ProducedBy workload) (hslash : '/' ∉ workload.toList) :
    benchmark.workloadName = .ok workload := by
  obtain ⟨suffix, hname⟩ := h
  rw [Json.workloadName, hname, ExceptRules.ok_bind,
    (parseWorkloadName_append workload suffix).mpr hslash]

/-- The cut gives back both names, and no merge puts a result of the one workload in the place
of a result of the other, exactly when neither name has a slash. -/
theorem workload_results_apart_iff {a b : String} (hne : a ≠ b) (suffix : String) :
    (parseWorkloadName (a ++ ("/" ++ suffix)) = a ∧
      parseWorkloadName (b ++ ("/" ++ suffix)) = b ∧
      ∀ source destination written (i : ℕ) (old new : Json),
        mergeResults source (.parsed destination) = .ok (some written) →
        destination.benchmarks[i]? = some old → written.benchmarks[i]? = some new →
        old.ProducedBy b → ¬new.ProducedBy a) ↔
      '/' ∉ a.toList ∧ '/' ∉ b.toList := by
  rw [parseWorkloadName_append, parseWorkloadName_append]
  constructor
  · rintro ⟨ha, hb, -⟩
    exact ⟨ha, hb⟩
  · rintro ⟨ha, hb⟩
    refine ⟨ha, hb, fun source destination written i old new hmerge hold hnew hby hby' => ?_⟩
    obtain ⟨rest, hrest⟩ := mergeResults_names hmerge
    have hplace : (written.benchmarks.map Json.workloadName)[i]? = some old.workloadName := by
      rw [← hrest, List.getElem?_append_left, List.getElem?_map, hold]
      · rfl
      · rw [List.length_map]
        exact (List.getElem?_eq_some_iff.mp hold).1
    rw [List.getElem?_map, hnew, Option.map_some, hby.workloadName hb, hby'.workloadName ha]
      at hplace
    exact hne (Except.ok.inj (Option.some.inj hplace))

/-- The results of two workloads whose names agree up to a slash overwrite each other. -/
theorem workload_results_collide :
    parseWorkloadName ("A/1" ++ ("/" ++ "threads:4")) = "A" ∧
      ∃ written : Json,
        mergeResults
          (.parsed (.object [("benchmarks", .array [.object [("name",
            .string ("A/1" ++ ("/" ++ "threads:4")))]])]))
          (.parsed (.object [("benchmarks", .array [.object [("name",
            .string ("A/2" ++ ("/" ++ "threads:4")))]])])) = .ok (some written) ∧
        written.benchmarks = [.object [("name", .string ("A/1" ++ ("/" ++ "threads:4")))]] :=
  ⟨by decide, _, rfl, rfl⟩

theorem workload_results_apart_named :
    parseWorkloadName ("Init" ++ ("/" ++ "threads:4")) = "Init" ∧
      parseWorkloadName ("Read" ++ ("/" ++ "threads:4")) = "Read" := by
  obtain ⟨ha, hb, -⟩ := (workload_results_apart_iff (a := "Init") (b := "Read") (by decide)
    "threads:4").mpr (by decide)
  exact ⟨ha, hb⟩

end Ucsb
