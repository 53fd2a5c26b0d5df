import Ucsb.RangeOrder
import Ucsb.WiredTiger

namespace Ucsb

open scoped WordBytes

/-- The entries from the one that a cursor stands on. -/
abbrev Cursor := List (UInt64 × Bytes)

namespace Cursor

/-- `search`: the cursor stands on the key if it is there, or else `WT_NOTFOUND`. -/
def search (table : KeyMap) (key : UInt64) : Option Cursor :=
  if (table.get key).isSome then some (table.seek key) else none

end Cursor

namespace WiredTiger

/-- The loop of `range_select` and `scan`. Its condition moves the cursor to the following entry,
whose key and value are always there; `advance` is how far a copy moves the next one. -/
def queryLoop (advance : ℕ → Bytes → ℕ) (length : UInt64) :
    UInt64 → ℕ → UInt64 → Cursor → Reply UInt64
  | i, offset, count, _ :: (key, value) :: rest =>
    if i < length then
      let reply :=
        queryLoop advance length (i + 1) (advance offset value) (count + 1) ((key, value) :: rest)
      { result := reply.result
        copies := { offset := offset, data := value } :: reply.copies
        visited := (key, value) :: reply.visited }
    else { result := { entriesTouched := count } }
  | _, _, count, _ => { result := { entriesTouched := count } }

/-- No cursor opens while the bulk cursor is open. -/
def query (advance : ℕ → Bytes → ℕ) (db : WiredTiger) (key length : UInt64) : Reply UInt64 :=
  if db.bulkLoadCursor.isSome then .ofStatus .error
  else
    match Cursor.search db.table key with
    | none => .ofStatus .error
    | some cursor => queryLoop advance length 0 0 0 cursor

def rangeSelect (db : WiredTiger) (key length : UInt64) : Reply UInt64 :=
  db.query exported key length

def scan (db : WiredTiger) (key length : UInt64) : Reply UInt64 :=
  db.query (fun offset _ => offset) key length

variable {advance : ℕ → Bytes → ℕ} {db : WiredTiger}
  {key length : UInt64} {value : Bytes}

/-- The loop visits the entries behind the one that the cursor stands on. -/
theorem queryLoop_eq {i : UInt64} {offset : ℕ} {entry : UInt64 × Bytes}
    {entries : List (UInt64 × Bytes)} (hi : i.toNat ≤ length.toNat) :
    queryLoop advance length i offset i (entry :: entries) =
      { result := { entriesTouched :=
          UInt64.ofNat (i.toNat + (entries.take (length.toNat - i.toNat)).length) }
        copies := placedCopies advance offset
          ((entries.take (length.toNat - i.toNat)).map Prod.snd)
        visited := entries.take (length.toNat - i.toNat) } := by
  induction entries generalizing i offset entry with
  | nil => simp [queryLoop, placedCopies]
  | cons e entries ih =>
    obtain ⟨key, value⟩ := e
    rw [queryLoop]
    split
    next hlt =>
      rw [UInt64.lt_iff_toNat_lt] at hlt
      have hsucc := toNat_succ_of_lt hlt
      obtain ⟨rest, hrest⟩ := Nat.exists_eq_add_of_lt hlt
      have hleft : length.toNat - i.toNat = rest + 1 := by omega
      have hleft' : length.toNat - (i.toNat + 1) = rest := by omega
      rw [ih (by omega), hsucc, hleft, hleft', List.take_succ_cons, List.map_cons, placedCopies,
        List.length_cons, ← Nat.add_assoc, Nat.add_right_comm]
    next hge =>
      rw [UInt64.lt_iff_toNat_lt] at hge
      have hleft : length.toNat - i.toNat = 0 := by omega
      rw [hleft]
      simp [placedCopies]

theorem query_of_bulk (h : db.bulkLoadCursor ≠ none) :
    db.query advance key length = .ofStatus .error := by
  unfold query
  exact if_pos (Option.isSome_iff_ne_none.mpr h)

theorem query_of_get {rest : List (UInt64 × Bytes)} (hbulk : db.bulkLoadCursor = none)
    (hget : db.table.get key = some value) (hseek : db.table.seek key = (key, value) :: rest) :
    db.query advance key length =
      { result := { entriesTouched := UInt64.ofNat (rest.take length.toNat).length }
        copies := placedCopies advance 0 ((rest.take length.toNat).map Prod.snd)
        visited := rest.take length.toNat } := by
  have hloop : queryLoop advance length 0 0 0 ((key, value) :: rest) = _ :=
    queryLoop_eq (Nat.zero_le _)
  simp only [query, hbulk, Option.isSome_none, Bool.false_eq_true, if_false, Cursor.search, hget,
    Option.isSome_some, if_true, hseek, hloop, UInt64.toNat_zero, Nat.sub_zero, Nat.zero_add]

/-- The entries from a stored key on and those behind it start alike only when none are taken. -/
theorem take_behind_iff {rest : List (UInt64 × Bytes)}
    (hseek : db.table.seek key = (key, value) :: rest) :
    rest.take length.toNat = firstEntries db.table key length ↔ length = 0 := by
  have hsorted := db.table.sorted_seek key
  rw [hseek, List.pairwise_cons] at hsorted
  unfold firstEntries
  rw [hseek]
  constructor
  · intro h
    by_contra hne
    obtain ⟨n, hn⟩ := Nat.exists_eq_succ_of_ne_zero fun heq => hne (UInt64.toNat_inj.mp heq)
    rw [hn, List.take_succ_cons] at h
    have hself : (key, value) ∈ rest := List.mem_of_mem_take (h ▸ List.mem_cons_self)
    exact lt_irrefl _ (hsorted.1 _ hself)
  · rintro rfl
    rfl

/-- A query visits and counts the first entries from a stored key on exactly when it is asked
for none and a cursor opens. -/
theorem query_visits_iff (hget : db.table.get key = some value) :
    ((db.query advance key length).visited = firstEntries db.table key length ∧
      (db.query advance key length).result =
        { entriesTouched := UInt64.ofNat (firstEntries db.table key length).length }) ↔
      length = 0 ∧ db.bulkLoadCursor = none := by
  obtain ⟨rest, hseek⟩ := SortedMap.seek_of_get hget
  by_cases hbulk : db.bulkLoadCursor = none
  · rw [query_of_get hbulk hget hseek, and_iff_left hbulk, take_behind_iff hseek]
    refine and_iff_left_of_imp ?_
    rintro rfl
    rfl
  · rw [query_of_bulk hbulk]
    refine iff_of_false ?_ fun h => hbulk h.2
    rintro ⟨-, hresult⟩
    have hstatus : OperationStatus.error = .ok := congrArg OperationResult.status hresult
    cases hstatus

theorem rangeSelect_right_iff (hget : db.table.get key = some value) :
    db.rangeSelect key length =
        rangeReply (consecutiveCopies 0) (firstEntries db.table key length) ↔
      length = 0 ∧ db.bulkLoadCursor = none := by
  constructor
  · intro h
    apply (query_visits_iff hget).mp
    change (db.rangeSelect key length).visited = _ ∧ (db.rangeSelect key length).result = _
    rw [h]
    exact ⟨rfl, rfl⟩
  · rintro ⟨rfl, hbulk⟩
    obtain ⟨rest, hseek⟩ := SortedMap.seek_of_get hget
    rw [rangeSelect, query_of_get hbulk hget hseek]
    rfl

/-- From a stored key on, a range copies and a scan touches the first entries exactly when none
are asked for: both start behind the key. -/
theorem wiredTiger_queries_right_iff (hget : db.table.get key = some value) :
    (db.rangeSelect key length =
        rangeReply (consecutiveCopies 0) (firstEntries db.table key length) ↔
      length = 0 ∧ db.bulkLoadCursor = none) ∧
    ((db.scan key length).visited = firstEntries db.table key length ∧
        (db.scan key length).result =
          { entriesTouched := UInt64.ofNat (firstEntries db.table key length).length } ↔
      length = 0 ∧ db.bulkLoadCursor = none) :=
  ⟨rangeSelect_right_iff hget, query_visits_iff hget⟩

/-- A range of one from the first of two keys copies the value of the second, and a scan from the
only key touches nothing. -/
theorem wiredTiger_queries_skip :
    (rangeSelect { table := SortedMap.put (SortedMap.put ∅ 1 [7]) 2 [8] } 1 1).copies =
        [{ offset := 0, data := [8] }] ∧
      rangeSelect { table := SortedMap.put (SortedMap.put ∅ 1 [7]) 2 [8] } 1 1 ≠
        rangeReply (consecutiveCopies 0)
          (firstEntries (SortedMap.put (SortedMap.put ∅ 1 [7]) 2 [8]) 1 1) ∧
      (scan { table := SortedMap.put ∅ 1 [7] } 1 1).result.entriesTouched = 0 := by
  have hcopies : (rangeSelect { table := SortedMap.put (SortedMap.put ∅ 1 [7]) 2 [8] } 1 1).copies =
      [{ offset := 0, data := [8] }] := by decide +kernel
  refine ⟨hcopies, fun h => ?_, by decide +kernel⟩
  have hget : (SortedMap.put (SortedMap.put (∅ : KeyMap) 1 [7]) 2 [8]).get 1 = some [7] := by
    decide +kernel
  exact absurd ((rangeSelect_right_iff hget).mp h).1 (by decide)

theorem wiredTiger_queries_none :
    rangeSelect { table := SortedMap.put ∅ 1 [7] } 1 0 =
      rangeReply (consecutiveCopies 0) (firstEntries (SortedMap.put ∅ 1 [7]) 1 0) := by
  have hget : (SortedMap.put (∅ : KeyMap) 1 [7]).get 1 = some [7] := rfl
  exact (wiredTiger_queries_right_iff hget).1.mpr ⟨rfl, rfl⟩

end WiredTiger

end Ucsb
