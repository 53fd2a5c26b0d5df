import Ucsb.MongoDb
import Ucsb.RangeOrder

namespace Ucsb

open scoped WordBytes

/-- `opts.limit`: zero does not limit, and a negative limit counts like a positive one. -/
def limited {α : Type} (limit : Int64) (documents : List α) : List α :=
  if limit = 0 then documents else documents.take limit.toInt.natAbs

namespace MongoDb

/-- The documents behind an id, in the order in which the server finds them. -/
def Finds (db : MongoDb) (oid : Bytes) (found : List (Bytes × Bytes)) : Prop :=
  found.Perm (db.collection.entries.filter fun e => decide (oid < e.1))

/-- `range_select` with what `find` finds greater than the id of the key. -/
def rangeSelect (found : List (Bytes × Bytes)) (length : UInt64) : Reply Bytes :=
  let documents := limited length.toInt64 found
  if documents = [] then .ofStatus .error
  else
    { result := { entriesTouched := UInt64.ofNat documents.length }
      visited := documents }

/-- The loop of `scan`: the counter also counts the test that ends it. -/
def scanLoop (length : UInt64) : List (Bytes × Bytes) → UInt64 → List (Bytes × Bytes) → Reply Bytes
  | [], i, visited =>
    { result := { entriesTouched := i }
      copies := visited.map fun e => { offset := 0, data := e.2 }
      visited := visited }
  | document :: documents, i, visited =>
    if i < length then scanLoop length documents (i + 1) (visited ++ [document])
    else
      { result := { entriesTouched := i + 1 }
        copies := visited.map fun e => { offset := 0, data := e.2 }
        visited := visited }

/-- `scan` with all documents in the order in which the server finds them; the key is not used. -/
def scan (found : List (Bytes × Bytes)) (length : UInt64) : Reply Bytes :=
  scanLoop length found 0 []

end MongoDb

variable {m : KeyMap} {key length : UInt64} {value : Bytes} {found : List (Bytes × Bytes)}

/-- The documents of the first stored keys from a key on are touched, each once, and counted. -/
def TouchesFirst (m : KeyMap) (key length : UInt64) (reply : Reply Bytes) : Prop :=
  reply.visited.Perm ((firstEntries m key length).map (Prod.map makeOid id)) ∧
    reply.result.entriesTouched.toNat = (firstEntries m key length).length

theorem scanLoop_of_le {i : UInt64} {visited : List (Bytes × Bytes)}
    (h : i.toNat + found.length ≤ length.toNat) :
    (MongoDb.scanLoop length found i visited).visited = visited ++ found ∧
      (MongoDb.scanLoop length found i visited).result.entriesTouched.toNat =
        i.toNat + found.length := by
  induction found generalizing i visited with
  | nil => simp [MongoDb.scanLoop]
  | cons document found ih =>
    rw [List.length_cons] at h ⊢
    have hlt : i.toNat < length.toNat := by omega
    have hnext := toNat_succ_of_lt hlt
    have hroom : (i + 1).toNat + found.length ≤ length.toNat := by omega
    obtain ⟨hvisited, hcount⟩ := @ih (i + 1) (visited ++ [document]) hroom
    rw [MongoDb.scanLoop, if_pos (UInt64.lt_iff_toNat_lt.mpr hlt), hvisited, hcount, hnext]
    simp only [List.append_assoc, List.singleton_append, true_and]
    omega

/-- With a document left the counter is one too high. -/
theorem scanLoop_of_lt {i : UInt64} {visited : List (Bytes × Bytes)} (hi : i ≤ length)
    (h : length.toNat < i.toNat + found.length) :
    (MongoDb.scanLoop length found i visited).result.entriesTouched = length + 1 := by
  have hle := UInt64.le_iff_toNat_le.mp hi
  induction found generalizing i visited with
  | nil =>
    rw [List.length_nil] at h
    omega
  | cons document found ih =>
    rw [List.length_cons] at h
    rw [MongoDb.scanLoop]
    split
    next hlt =>
      rw [UInt64.lt_iff_toNat_lt] at hlt
      have hnext := toNat_succ_of_lt hlt
      exact ih (UInt64.le_iff_toNat_le.mpr (by omega)) (by omega) (by omega)
    next hge =>
      rw [UInt64.lt_iff_toNat_lt] at hge
      have heq : i = length := UInt64.toNat_inj.mp (by omega)
      rw [heq]

theorem rekey_entries_perm (m : KeyMap) :
    (m.rekey makeOid).entries.Perm (m.entries.map (Prod.map makeOid id)) := by
  have hnodup : (m.entries.map (Prod.map makeOid id)).Nodup := by
    refine List.Nodup.of_map Prod.fst ?_
    rw [List.map_map]
    have hkeys := m.nodup_keys.map makeOid_injective
    rwa [List.map_map] at hkeys
  refine (List.perm_ext_iff_of_nodup (List.Nodup.of_map Prod.fst (m.rekey makeOid).nodup_keys)
    hnodup).mpr fun e => ?_
  rw [SortedMap.mem_rekey makeOid_injective, List.mem_map]

theorem mem_of_mem_limited {α : Type} {limit : Int64} {documents : List α} {e : α}
    (h : e ∈ limited limit documents) : e ∈ documents := by
  unfold limited at h
  split at h
  next => exact h
  next => exact List.mem_of_mem_take h

theorem rangeSelect_visited_subset {e : Bytes × Bytes}
    (h : e ∈ (MongoDb.rangeSelect found length).visited) : e ∈ found := by
  unfold MongoDb.rangeSelect at h
  dsimp only at h
  split at h
  next => simp [Reply.ofStatus] at h
  next => exact mem_of_mem_limited h

/-- A range never has its first key in it, so nothing may be asked for. -/
theorem rangeSelect_right_iff (hget : m.get key = some value)
    (hfound : (MongoDb.mk (m.rekey makeOid)).Finds (makeOid key) found) :
    TouchesFirst m key length (MongoDb.rangeSelect found length) ↔
      length = 0 ∧ ∀ e ∈ m.entries, ¬makeOid key < makeOid e.1 := by
  have hzero : firstEntries m key 0 = [] := List.take_zero
  have hbehind : ∀ e ∈ found, makeOid key < e.1 := fun e he => by
    simpa using (List.mem_filter.mp (hfound.mem_iff.mp he)).2
  constructor
  · rintro ⟨hperm, -⟩
    have hlength : length = 0 := by
      by_contra hne
      have hpos : 0 < length.toNat := Nat.pos_of_ne_zero fun heq =>
        hne (UInt64.toNat_inj.mp heq)
      have hmem : (makeOid key, value) ∈
          (firstEntries m key length).map (Prod.map makeOid id) :=
        List.mem_map.mpr ⟨(key, value), firstEntries_cons hget hpos, rfl⟩
      have hself := hbehind _ (rangeSelect_visited_subset (hperm.mem_iff.mpr hmem))
      exact lt_irrefl _ hself
    subst hlength
    refine ⟨rfl, fun e he hlt => ?_⟩
    have hdocument : Prod.map makeOid id e ∈ found :=
      hfound.mem_iff.mpr (List.mem_filter.mpr
        ⟨(SortedMap.mem_rekey makeOid_injective).mpr ⟨e, he, rfl⟩, by simpa using hlt⟩)
    have hvisited : (MongoDb.rangeSelect found 0).visited = found :=
      congrArg Reply.visited (if_neg (List.ne_nil_of_mem hdocument))
    rw [hzero, hvisited] at hperm
    exact List.ne_nil_of_mem hdocument hperm.eq_nil
  · rintro ⟨rfl, hnone⟩
    have hnil : found = [] := by
      refine List.eq_nil_iff_forall_not_mem.mpr fun e he => ?_
      obtain ⟨hstored, hlt⟩ := List.mem_filter.mp (hfound.mem_iff.mp he)
      obtain ⟨e', he', rfl⟩ := (SortedMap.mem_rekey makeOid_injective).mp hstored
      exact hnone e' he' (by simpa using hlt)
    rw [TouchesFirst, hzero, hnil]
    exact ⟨.refl _, rfl⟩

/-- A scan reads the collection from its own beginning, and counts right to its end only. -/
theorem scan_right_iff {documents : List (Bytes × Bytes)} (hget : m.get key = some value)
    (hdocuments : documents.Perm (m.rekey makeOid).entries) :
    TouchesFirst m key length (MongoDb.scan documents length) ↔
      m.entries.length ≤ length.toNat ∧ ∀ e ∈ m.entries, key ≤ e.1 := by
  have hperm := hdocuments.trans (rekey_entries_perm m)
  have hcount : documents.length = m.entries.length := by
    rw [hperm.length_eq, List.length_map]
  have hself : (key, value) ∈ m.entries := SortedMap.get_eq_some_iff.mp hget
  have hbound := length.toNat_lt
  constructor
  · rintro ⟨hvisited, htouched⟩
    have hle : m.entries.length ≤ length.toNat := by
      by_contra hlong
      have hfirst : (firstEntries m key length).length ≤ length.toNat :=
        List.length_take_le _ _
      rw [MongoDb.scan, scanLoop_of_lt (UInt64.le_iff_toNat_le.mpr (Nat.zero_le _))
        (by rw [UInt64.toNat_zero]; omega), UInt64.toNat_add, UInt64.toNat_one] at htouched
      rcases Nat.lt_or_ge (length.toNat + 1) (2 ^ 64) with hlt | hge
      · rw [Nat.mod_eq_of_lt hlt] at htouched
        omega
      · have hpos : 0 < (firstEntries m key length).length :=
          List.length_pos_of_mem (firstEntries_cons hget (by omega))
        omega
    refine ⟨hle, fun e he => ?_⟩
    rw [MongoDb.scan, (scanLoop_of_le (by rw [UInt64.toNat_zero]; omega)).1,
      List.nil_append] at hvisited
    have hmem := (hperm.symm.trans hvisited).mem_iff.mp (List.mem_map_of_mem he)
    obtain ⟨e', he', heq⟩ := List.mem_map.mp hmem
    have hkey : e'.1 = e.1 := makeOid_injective (congrArg Prod.fst heq)
    exact hkey ▸ (firstEntries_mem he').2
  · rintro ⟨hle, hall⟩
    have hroom : (0 : UInt64).toNat + documents.length ≤ length.toNat := by
      rw [UInt64.toNat_zero]
      omega
    obtain ⟨hvisited, htouched⟩ := scanLoop_of_le (i := 0) hroom
    have hseek : m.seek key = m.entries :=
      List.filter_eq_self.mpr fun e he => by simpa using hall e he
    have hfirst : firstEntries m key length = m.entries := by
      rw [firstEntries, hseek, List.take_of_length_le hle]
    rw [TouchesFirst, MongoDb.scan, hvisited, htouched, hfirst, List.nil_append, UInt64.toNat_zero,
      Nat.zero_add]
    exact ⟨hperm, hcount⟩

/-- For every order in which the server finds the documents, a range and a scan from a stored
key touch what is asked for exactly then. -/
theorem mongodb_queries_right_iff {documents : List (Bytes × Bytes)}
    (hget : m.get key = some value)
    (hfound : (MongoDb.mk (m.rekey makeOid)).Finds (makeOid key) found)
    (hdocuments : documents.Perm (m.rekey makeOid).entries) :
    (TouchesFirst m key length (MongoDb.rangeSelect found length) ↔
        length = 0 ∧ ∀ e ∈ m.entries, ¬makeOid key < makeOid e.1) ∧
      (TouchesFirst m key length (MongoDb.scan documents length) ↔
        m.entries.length ≤ length.toNat ∧ ∀ e ∈ m.entries, key ≤ e.1) :=
  ⟨rangeSelect_right_iff hget hfound, scan_right_iff hget hdocuments⟩

theorem finds_nothing :
    (MongoDb.mk (SortedMap.rekey makeOid (SortedMap.put ∅ 1 [7]))).Finds (makeOid 1) [] := by
  refine List.nil_perm.mpr (List.filter_eq_nil_iff.mpr fun e he => ?_)
  obtain ⟨e', he', rfl⟩ := (SortedMap.mem_rekey makeOid_injective).mp he
  cases List.mem_singleton.mp he'
  simp

theorem stored : (SortedMap.put (∅ : KeyMap) 1 [7]).get 1 = some [7] := rfl

/-- In a collection of one document a range of one from its key touches nothing, and a scan of
none counts one. -/
theorem mongodb_queries_miss :
    ¬TouchesFirst (SortedMap.put ∅ 1 [7]) 1 1 (MongoDb.rangeSelect [] 1) ∧
      ¬TouchesFirst (SortedMap.put ∅ 1 [7]) 1 0
        (MongoDb.scan (SortedMap.rekey makeOid (SortedMap.put ∅ 1 [7])).entries 0) := by
  constructor
  · intro h
    exact absurd ((rangeSelect_right_iff stored finds_nothing).mp h).1 (by decide)
  · intro h
    exact absurd ((scan_right_iff stored (.refl _)).mp h).1 (by decide)

theorem mongodb_queries_right_all :
    TouchesFirst (SortedMap.put ∅ 1 [7]) 1 0 (MongoDb.rangeSelect [] 0) ∧
      TouchesFirst (SortedMap.put ∅ 1 [7]) 1 1
        (MongoDb.scan (SortedMap.rekey makeOid (SortedMap.put ∅ 1 [7])).entries 1) := by
  have hentries : ∀ e ∈ (SortedMap.put (∅ : KeyMap) 1 [7]).entries, e = (1, [7]) := fun e he =>
    List.mem_singleton.mp he
  constructor
  · refine (mongodb_queries_right_iff stored finds_nothing (.refl _)).1.mpr
      ⟨rfl, fun e he => ?_⟩
    rw [hentries e he]
    exact lt_irrefl _
  · refine (mongodb_queries_right_iff stored finds_nothing (.refl _)).2.mpr
      ⟨le_rfl, fun e he => ?_⟩
    rw [hentries e he]

end Ucsb
