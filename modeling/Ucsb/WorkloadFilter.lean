import Ucsb.DelimitedTokens
import Ucsb.Workload

namespace Ucsb

open DelimitedTokens

/-- `std::string::npos`. -/
def npos : UInt64 := 18446744073709551615

/-- A `std::string` of any kind of units. Its size is below `npos`. -/
structure StdString (α : Type) where
  units : List α
  size_lt : units.length < npos.toNat

namespace StdString

variable {α : Type}

/-- The first position from `pos` on with a unit that meets the test. -/
def findIf (str : StdString α) (test : α → Bool) (pos : UInt64) : UInt64 :=
  match (str.units.drop pos.toNat).findIdx? test with
  | some offset => pos + UInt64.ofNat offset
  | none => npos

/-- `substr`, which throws for a position behind the end. -/
def substr (str : StdString α) (pos count : UInt64) : Option (List α) :=
  if pos.toNat ≤ str.units.length then some ((str.units.drop pos.toNat).take count.toNat)
  else none

variable [DecidableEq α]

def find (str : StdString α) (unit : α) (pos : UInt64) : UInt64 :=
  str.findIf (fun c => c = unit) pos

def findFirstNotOf (str : StdString α) (unit : α) (pos : UInt64) : UInt64 :=
  str.findIf (fun c => c ≠ unit) pos

end StdString

section Find

variable {α : Type} (str : StdString α) (test : α → Bool) (pos : UInt64)

/-- A search ends at the first unit that meets the test, or at `npos`. -/
theorem findIf_spec :
    pos.toNat ≤ (str.findIf test pos).toNat ∧
      (str.findIf test pos = npos ∨ (str.findIf test pos).toNat < str.units.length) ∧
      (∀ k c, pos.toNat ≤ k → k < (str.findIf test pos).toNat → str.units[k]? = some c →
        test c = false) ∧
      ∀ c, str.units[(str.findIf test pos).toNat]? = some c → test c = true := by
  have hsize := str.size_lt
  have hpos := pos.toNat_lt
  have hnpos : npos.toNat = 2 ^ 64 - 1 := rfl
  unfold StdString.findIf
  cases h : (str.units.drop pos.toNat).findIdx? test with
  | none =>
    rw [List.findIdx?_eq_none_iff] at h
    dsimp only
    refine ⟨by omega, Or.inl rfl, fun k c hk _ hc => ?_, fun c hc => ?_⟩
    · refine h c (List.mem_of_getElem? (i := k - pos.toNat) ?_)
      rw [List.getElem?_drop, Nat.add_sub_cancel' hk]
      exact hc
    · exact absurd (List.getElem?_eq_some_iff.mp hc).1 (by omega)
  | some offset =>
    rw [List.findIdx?_eq_some_iff_getElem] at h
    obtain ⟨hlt, htest, hbefore⟩ := h
    rw [List.length_drop] at hlt
    have hto : (pos + UInt64.ofNat offset).toNat = pos.toNat + offset := by
      rw [UInt64.toNat_add, UInt64.toNat_ofNat', Nat.mod_eq_of_lt (a := offset) (by omega),
        Nat.mod_eq_of_lt (by omega)]
    simp only [hto]
    refine ⟨by omega, Or.inr (by omega), fun k c hk hlt' hc => ?_, fun c hc => ?_⟩
    · have hnot := hbefore (k - pos.toNat) (by omega)
      rw [List.getElem_drop] at hnot
      simp only [Nat.add_sub_cancel' hk] at hnot
      obtain ⟨_, rfl⟩ := List.getElem?_eq_some_iff.mp hc
      simpa using hnot
    · rw [List.getElem_drop] at htest
      obtain ⟨_, rfl⟩ := List.getElem?_eq_some_iff.mp hc
      exact htest

variable [DecidableEq α] (unit : α)

theorem findFirstNotOf_gap (k : ℕ) (hpos : pos.toNat ≤ k)
    (hk : k < (str.findFirstNotOf unit pos).toNat) (hlt : k < str.units.length) :
    str.units[k]? = some unit := by
  obtain ⟨_, _, hbefore, _⟩ := findIf_spec str (fun c => c ≠ unit) pos
  have hunit := hbefore k _ hpos hk (List.getElem?_eq_getElem hlt)
  rw [List.getElem?_eq_getElem hlt]
  simpa using hunit

theorem findFirstNotOf_found (h : str.findFirstNotOf unit pos ≠ npos) :
    pos.toNat ≤ (str.findFirstNotOf unit pos).toNat ∧
      (str.findFirstNotOf unit pos).toNat < str.units.length ∧
      str.units[(str.findFirstNotOf unit pos).toNat]? ≠ some unit := by
  obtain ⟨hle, hend, _, hat⟩ := findIf_spec str (fun c => c ≠ unit) pos
  refine ⟨hle, hend.resolve_left h, fun hunit => ?_⟩
  simpa using hat unit hunit

theorem find_free (k : ℕ) (hpos : pos.toNat ≤ k) (hk : k < (str.find unit pos).toNat) :
    str.units[k]? ≠ some unit := by
  obtain ⟨_, _, hbefore, _⟩ := findIf_spec str (fun c => c = unit) pos
  intro hunit
  simpa using hbefore k unit hpos hk hunit

theorem find_found (h : (str.find unit pos).toNat < str.units.length) :
    str.units[(str.find unit pos).toNat]? = some unit := by
  obtain ⟨_, _, _, hat⟩ := findIf_spec str (fun c => c = unit) pos
  have hunit := hat _ (List.getElem?_eq_getElem h)
  rw [List.getElem?_eq_getElem h]
  simpa using hunit

/-- The next delimiter is behind a unit that is none. -/
theorem lt_find (hlt : pos.toNat < str.units.length) (hunit : str.units[pos.toNat]? ≠ some unit) :
    pos.toNat < (str.find unit pos).toNat := by
  obtain ⟨hle, _, _, _⟩ := findIf_spec str (fun c => c = unit) pos
  refine Nat.lt_of_le_of_ne hle fun heq => hunit ?_
  have hfound := find_found str pos unit (heq ▸ hlt)
  rwa [← heq] at hfound

end Find

section Split

variable {α : Type} [DecidableEq α]

/-- The loop of `split` from a value of `end` on. -/
def splitFrom (str : StdString α) (delimiter : α) (stop : UInt64) (tokens : List (List α)) :
    Option (List (List α)) :=
  let start := str.findFirstNotOf delimiter stop
  if _ : start = npos then some tokens
  else
    let stop' := str.find delimiter start
    match str.substr start (stop' - start) with
    | some token => splitFrom str delimiter stop' (tokens ++ [token])
    | none => none
termination_by str.units.length - stop.toNat
decreasing_by
  obtain ⟨hle, hlt, hunit⟩ := findFirstNotOf_found str stop delimiter ‹_›
  have hnext := lt_find str _ delimiter hlt hunit
  omega

def split (str : StdString α) (delimiter : α) : Option (List (List α)) :=
  splitFrom str delimiter 0 []

variable {str : StdString α} {delimiter : α} {stop : UInt64} {spans : List (ℕ × ℕ)}

/-- What the loop knows of the place where it stops: it is none of the inner units of a token. -/
def AtBoundary (delimiter : α) (s : List α) (stop : ℕ) : Prop :=
  stop < s.length → stop = 0 ∨ s[stop]? = some delimiter

/-- The units between the two places that a round of the loop finds are a token. -/
theorem isToken_round (hbound : AtBoundary delimiter str.units stop.toNat)
    (hstart : str.findFirstNotOf delimiter stop ≠ npos) :
    IsToken delimiter str.units (str.findFirstNotOf delimiter stop).toNat
      (min (str.find delimiter (str.findFirstNotOf delimiter stop)).toNat str.units.length) := by
  obtain ⟨hle, hlt, hunit⟩ := findFirstNotOf_found str stop delimiter hstart
  have hgap := findFirstNotOf_gap str stop delimiter
  have hnext := lt_find str _ delimiter hlt hunit
  refine ⟨by omega, by omega, fun k hk hk' => find_free str _ delimiter k hk (by omega),
    fun k hk => ?_, fun hk => ?_⟩
  · rcases Nat.lt_or_ge k stop.toNat with hlt' | hge
    · -- the token starts where the last round stopped, and not at a delimiter
      have heq : stop.toNat = (str.findFirstNotOf delimiter stop).toNat := by omega
      rcases hbound (by omega) with hzero | hdelimiter
      · omega
      · exact absurd (heq ▸ hdelimiter) hunit
    · exact hgap k hge (by omega) (by omega)
  · have hfind : (str.find delimiter (str.findFirstNotOf delimiter stop)).toNat <
        str.units.length := by omega
    rw [Nat.min_eq_left (by omega)]
    exact find_found str _ delimiter hfind

theorem atBoundary_find (pos : UInt64) :
    AtBoundary delimiter str.units (str.find delimiter pos).toNat :=
  fun hlt => Or.inr (find_found str pos delimiter hlt)

/-- `npos` as an end of the token makes a length that `substr` cuts off. -/
theorem substr_find (start : UInt64) (hlt : start.toNat < str.units.length) :
    str.substr start (str.find delimiter start - start) =
      some (slice str.units (start.toNat,
        min (str.find delimiter start).toNat str.units.length)) := by
  obtain ⟨hle, _, _, _⟩ := findIf_spec str (fun c => c = delimiter) start
  have hsub : (str.find delimiter start - start).toNat =
      (str.find delimiter start).toNat - start.toNat :=
    UInt64.toNat_sub_of_le _ _ (UInt64.le_iff_toNat_le.mpr hle)
  rw [StdString.substr, if_pos hlt.le, hsub, slice, ← Nat.sub_min_sub_right,
    ← List.length_drop, ← List.take_eq_take_min]

theorem spansBefore_round (hspans : SpansBefore delimiter str.units stop.toNat spans)
    (hbound : AtBoundary delimiter str.units stop.toNat)
    (hstart : str.findFirstNotOf delimiter stop ≠ npos) :
    SpansBefore delimiter str.units
      (str.find delimiter (str.findFirstNotOf delimiter stop)).toNat
      (spans ++ [((str.findFirstNotOf delimiter stop).toNat,
        min (str.find delimiter (str.findFirstNotOf delimiter stop)).toNat str.units.length)]) := by
  obtain ⟨hle, hlt, _⟩ := findFirstNotOf_found str stop delimiter hstart
  have hskip := hspans.skip _ (findFirstNotOf_gap str stop delimiter)
  rw [Nat.max_eq_right hle] at hskip
  have hround := hskip.snoc (isToken_round hbound hstart)
  have hnext := hround.skip (str.find delimiter (str.findFirstNotOf delimiter stop)).toNat
    fun k hk hk' hlt => by omega
  rwa [Nat.max_eq_right (Nat.min_le_left _ _)] at hnext

/-- From a boundary on, the loop adds the tokens behind it. -/
theorem splitFrom_tokenizes (hspans : SpansBefore delimiter str.units stop.toNat spans)
    (hbound : AtBoundary delimiter str.units stop.toNat) :
    ∃ tokens, splitFrom str delimiter stop (spans.map (slice str.units)) = some tokens ∧
      Tokenizes delimiter str.units tokens := by
  generalize hleft : str.units.length - stop.toNat = left
  induction left using Nat.strong_induction_on generalizing stop spans with
  | _ left ih =>
    rw [splitFrom]
    by_cases hstart : str.findFirstNotOf delimiter stop = npos
    · have hend := hspans.skip _ (findFirstNotOf_gap str stop delimiter)
      refine ⟨_, dif_pos hstart, hend.tokenizes (Nat.le_trans str.size_lt.le ?_)⟩
      rw [hstart]
      exact Nat.le_max_right _ _
    · obtain ⟨hle, hlt, hunit⟩ := findFirstNotOf_found str stop delimiter hstart
      have hnext := lt_find str _ delimiter hlt hunit
      obtain ⟨tokens, hsplit, htokens⟩ := ih _ (by omega)
        (spansBefore_round hspans hbound hstart) (atBoundary_find _) rfl
      refine ⟨tokens, ?_, htokens⟩
      rw [dif_neg hstart]
      dsimp only
      rw [substr_find _ hlt]
      rwa [List.map_append] at hsplit

theorem split_tokenizes (str : StdString α) (delimiter : α) :
    ∃ tokens, split str delimiter = some tokens ∧ Tokenizes delimiter str.units tokens := by
  have hzero : SpansBefore delimiter str.units (0 : UInt64).toNat [] := .zero
  exact splitFrom_tokenizes hzero fun _ => Or.inl rfl

theorem split_intercalate {tokens : List (List α)}
    (hunits : str.units = [delimiter].intercalate tokens)
    (htokens : ∀ token ∈ tokens, token ≠ [] ∧ delimiter ∉ token) :
    split str delimiter = some tokens := by
  obtain ⟨found, hsplit, hfound⟩ := split_tokenizes str delimiter
  rw [hsplit, hfound.unique (hunits ▸ tokenizes_intercalate htokens)]

end Split

/-- The loops of `filter_workloads` over the tokens and the workloads. -/
def selectWorkloads (workloads : List Workload) (tokens : List (List Char)) : List Workload :=
  tokens.foldl (fun filtered token =>
    workloads.foldl (fun filtered workload =>
      if workload.name.toList = token then filtered ++ [workload] else filtered) filtered) []

def filterWorkloads (workloads : List Workload) (filter : StdString Char) :
    Option (List Workload) :=
  if filter.units = [] then some workloads
  else
    match split filter ',' with
    | some tokens => some (selectWorkloads workloads tokens)
    | none => none

/-- The filter that the runner script passes for a list of workload names. -/
def joinNames (names : List String) : String := ",".intercalate names

/-- The filter holds the joined names. -/
def Joins (filter : StdString Char) (names : List String) : Prop :=
  filter.units = (joinNames names).toList

def PlainName (name : String) : Prop := name ≠ "" ∧ ',' ∉ name.toList

theorem selectWorkloads_eq (workloads : List Workload) (names : List String) :
    selectWorkloads workloads (names.map String.toList) =
      names.flatMap fun name => workloads.filter fun workload => workload.name = name := by
  have hinner : ∀ (name : String) (filtered : List Workload),
      workloads.foldl (fun filtered workload =>
        if workload.name.toList = name.toList then filtered ++ [workload] else filtered) filtered =
      filtered ++ workloads.filter fun workload => workload.name = name := by
    intro name
    induction workloads with
    | nil => simp
    | cons workload workloads ih =>
      intro filtered
      rw [List.foldl_cons, ih]
      by_cases h : workload.name = name
      · simp [h]
      · simp [h, String.toList_inj]
  have houter : ∀ filtered : List Workload,
      (names.map String.toList).foldl (fun filtered token =>
        workloads.foldl (fun filtered workload =>
          if workload.name.toList = token then filtered ++ [workload] else filtered)
          filtered) filtered =
      filtered ++ names.flatMap fun name => workloads.filter fun workload =>
        workload.name = name := by
    induction names with
    | nil => simp
    | cons name names ih =>
      intro filtered
      rw [List.map_cons, List.foldl_cons, hinner, ih, List.flatMap_cons, List.append_assoc]
  exact houter []

theorem split_joinNames {filter : StdString Char} {names : List String} (hjoin : Joins filter names)
    (hnames : ∀ name ∈ names, PlainName name) :
    split filter ',' = some (names.map String.toList) := by
  refine split_intercalate ?_ fun token htoken => ?_
  · rw [show filter.units = _ from hjoin, joinNames, String.toList_intercalate]
    rfl
  · obtain ⟨name, hname, rfl⟩ := List.mem_map.mp htoken
    obtain ⟨hne, hfree⟩ := hnames name hname
    exact ⟨fun hnil => hne (String.toList_eq_nil_iff.mp hnil), hfree⟩

theorem joins_ne_nil {filter : StdString Char} {names : List String} (hjoin : Joins filter names)
    (hnames : ∀ name ∈ names, PlainName name) (hne : names ≠ []) : filter.units ≠ [] := by
  intro hnil
  obtain ⟨tokens, hsplit, htokens⟩ := split_tokenizes filter ','
  rw [hnil] at htokens
  rw [htokens.unique tokenizes_nil, split_joinNames hjoin hnames] at hsplit
  exact hne (List.map_eq_nil_iff.mp (Option.some.inj hsplit))

theorem split_inverts_join :
    (∀ (α : Type) [DecidableEq α] (str : StdString α) (delimiter : α),
      ∃ tokens, split str delimiter = some tokens ∧ Tokenizes delimiter str.units tokens) ∧
    ∀ (filter : StdString Char) (names : List String), Joins filter names →
      (∀ name ∈ names, PlainName name) →
      split filter ',' = some (names.map String.toList) ∧
        ∀ workloads : List Workload, names ≠ [] →
          filterWorkloads workloads filter = some
            (names.flatMap fun name => workloads.filter fun workload => workload.name = name) := by
  refine ⟨fun α _ str delimiter => split_tokenizes str delimiter,
    fun filter names hjoin hnames => ?_⟩
  have hsplit := split_joinNames hjoin hnames
  refine ⟨hsplit, fun workloads hne => ?_⟩
  rw [filterWorkloads, if_neg (joins_ne_nil hjoin hnames hne), hsplit]
  exact congrArg some (selectWorkloads_eq workloads names)

/-- A name given twice selects its workloads twice, in the order of the names. -/
theorem split_inverts_join_repeated :
    filterWorkloads [{ name := "Read" }, { name := "Init" }]
        ⟨"Init,Read,Init".toList, by decide⟩ =
      some [{ name := "Init" }, { name := "Read" }, { name := "Init" }] := by
  have hjoin : Joins ⟨"Init,Read,Init".toList, by decide⟩ ["Init", "Read", "Init"] := by
    unfold Joins joinNames
    decide
  have hnames : ∀ name ∈ ["Init", "Read", "Init"], PlainName name := by
    simp [PlainName]
  rw [(split_inverts_join.2 _ _ hjoin hnames).2 _ (by simp)]
  simp

end Ucsb
