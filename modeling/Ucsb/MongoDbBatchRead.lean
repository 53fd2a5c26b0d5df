import Ucsb.MongoDb
import Ucsb.DisjointCopies

namespace Ucsb

open scoped WordBytes

namespace MongoDb

/-- The documents with one of the ids, in the order in which the server finds them. -/
def FindsIn (db : MongoDb) (oids : List Bytes) (found : List (Bytes × Bytes)) : Prop :=
  found.Perm (db.collection.entries.filter fun e => decide (e.1 ∈ oids))

/-- `batch_keys_map` maps the id of a key to its first index, and any other id to zero. -/
def batchIndex (keys : List UInt64) (oid : Bytes) : ℕ :=
  ((keys.map makeOid).idxOf? oid).getD 0

/-- `batch_read` with what `find` finds of the ids of the keys. -/
def batchRead (found : List (Bytes × Bytes)) (keys : List UInt64) : Reply Bytes :=
  { result :=
      if found.length = keys.length then { entriesTouched := UInt64.ofNat keys.length }
      else { entriesTouched := 0, status := .error }
    copies := found.map fun e => { offset := batchIndex keys e.1, data := e.2 }
    visited := found }

end MongoDb

variable {m : KeyMap} {keys : List UInt64} {found : List (Bytes × Bytes)}

/-- The documents of the keys that are stored, in the order of the keys. -/
def ownDocuments (m : KeyMap) (keys : List UInt64) : List (Bytes × Bytes) :=
  keys.filterMap fun key => (m.get key).map (Prod.mk (makeOid key))

/-- Each document of the keys is copied once and whole, apart from the others and into the
span, and the documents are counted. -/
structure ConcatenatesFound (m : KeyMap) (keys : List UInt64) (span : Bytes)
    (reply : Reply Bytes) : Prop where
  found : reply.visited.Perm (ownDocuments m keys)
  disjoint : reply.copies.Pairwise Copy.Disjoint
  inside : ∀ copy ∈ reply.copies, copy.Inside span.length
  complete : List.Forall₂ (fun document copy => copy.data = document.2 ∧
    Copy.slice (reply.written span) copy = document.2) reply.visited reply.copies
  touched : reply.result.entriesTouched = UInt64.ofNat (ownDocuments m keys).length

/-- The keys are stored or all missing, and the value of each is not longer than the indices
to the next key with a value that is not empty. -/
def BatchFits (m : KeyMap) (keys : List UInt64) : Prop :=
  ((∀ key ∈ keys, m.get key ≠ none) ∨ ∀ key ∈ keys, m.get key = none) ∧
    ∀ i j key key' value value', i < j → keys[i]? = some key → keys[j]? = some key' →
      m.get key = some value → m.get key' = some value' → value' ≠ [] → i + value.length ≤ j

/-- The copies of `batch_read` in the order of the keys. -/
def ownCopies (m : KeyMap) (keys : List UInt64) : List Copy :=
  keys.zipIdx.filterMap fun e => (m.get e.1).map fun value => { offset := e.2, data := value }

theorem batchIndex_eq (hkeys : keys.Nodup) {i : ℕ} {key : UInt64} (h : keys[i]? = some key) :
    MongoDb.batchIndex keys (makeOid key) = i := by
  obtain ⟨hi, heq⟩ := List.getElem?_eq_some_iff.mp h
  have hidx : (keys.map makeOid).idxOf? (makeOid key) = some i := by
    refine List.idxOf?_eq_some_iff.mpr ⟨by simpa using hi, by simp [heq], fun j hj hsame => ?_⟩
    have hlength : j < keys.length := by omega
    have hoid : makeOid keys[j] = makeOid key := by simpa using hsame
    have hkey := makeOid_injective hoid
    rw [← heq] at hkey
    exact hj.ne ((hkeys.getElem_inj_iff).mp hkey)
  rw [MongoDb.batchIndex, hidx, Option.getD_some]

theorem ownDocuments_eq : ownDocuments m keys =
    keys.zipIdx.filterMap fun e => (m.get e.1).map (Prod.mk (makeOid e.1)) := by
  conv_lhs => rw [ownDocuments, ← List.zipIdx_map_fst 0 keys, List.filterMap_map]
  rfl

theorem ownCopies_eq (hkeys : keys.Nodup) :
    (ownDocuments m keys).map (fun e => ({ offset := MongoDb.batchIndex keys e.1, data := e.2 } :
      Copy)) = ownCopies m keys := by
  rw [ownDocuments_eq, List.map_filterMap, ownCopies]
  refine List.filterMap_congr fun e he => ?_
  have hindex := batchIndex_eq hkeys (List.mem_zipIdx_iff_getElem?.mp he)
  rw [Option.map_map]
  congr 1
  funext value
  simp [hindex]

theorem mem_ownDocuments {e : Bytes × Bytes} : e ∈ ownDocuments m keys ↔
    ∃ key ∈ keys, m.get key = some e.2 ∧ e.1 = makeOid key := by
  simp only [ownDocuments, List.mem_filterMap, Option.map_eq_some_iff]
  constructor
  · rintro ⟨key, hkey, value, hget, rfl⟩
    exact ⟨key, hkey, hget, rfl⟩
  · rintro ⟨key, hkey, hget, heq⟩
    exact ⟨key, hkey, e.2, hget, by rw [← heq]⟩

theorem ownDocuments_nodup (hkeys : keys.Nodup) : (ownDocuments m keys).Nodup := by
  refine hkeys.filterMap fun key key' e he he' => ?_
  obtain ⟨value, -, rfl⟩ := Option.map_eq_some_iff.mp he
  obtain ⟨value', -, heq⟩ := Option.map_eq_some_iff.mp he'
  exact (makeOid_injective (congrArg Prod.fst heq)).symm

/-- Whatever the order, the server finds the documents of the keys. -/
theorem found_perm (hkeys : keys.Nodup)
    (hfound : (MongoDb.mk (m.rekey makeOid)).FindsIn (keys.map makeOid) found) :
    found.Perm (ownDocuments m keys) := by
  refine hfound.trans ((List.perm_ext_iff_of_nodup ?_ (ownDocuments_nodup hkeys)).mpr fun e => ?_)
  · exact (List.Nodup.of_map Prod.fst (m.rekey makeOid).nodup_keys).filter _
  · rw [List.mem_filter, SortedMap.mem_rekey makeOid_injective, mem_ownDocuments,
      decide_eq_true_eq, List.mem_map]
    constructor
    · rintro ⟨⟨e', he', rfl⟩, key, hkey, heq⟩
      have hsame : key = e'.1 := makeOid_injective heq
      exact ⟨key, hkey, hsame ▸ SortedMap.get_eq_some_iff.mpr he', heq.symm⟩
    · rintro ⟨key, hkey, hget, heq⟩
      refine ⟨⟨(key, e.2), SortedMap.get_eq_some_iff.mp hget, ?_⟩, key, hkey, heq.symm⟩
      rw [Prod.map_apply, ← heq]
      rfl

/-- Two documents are apart when the first ends before the index of the second. -/
theorem ownCopies_disjoint_iff : (ownCopies m keys).Pairwise Copy.Disjoint ↔
    ∀ i j key key' value value', i < j → keys[i]? = some key → keys[j]? = some key' →
      m.get key = some value → m.get key' = some value' → value' ≠ [] →
        i + value.length ≤ j := by
  rw [ownCopies, List.pairwise_filterMap, List.pairwise_iff_getElem]
  simp only [List.getElem_zipIdx, List.length_zipIdx, Option.map_eq_some_iff, Nat.zero_add]
  constructor
  · intro h i j key key' value value' hij hkey hkey' hget hget' hne
    obtain ⟨hi, rfl⟩ := List.getElem?_eq_some_iff.mp hkey
    obtain ⟨hj, rfl⟩ := List.getElem?_eq_some_iff.mp hkey'
    rcases h i j hi hj hij _ ⟨value, hget, rfl⟩ _ ⟨value', hget', rfl⟩ with hnil | hnil | hle | hle
    · cases hnil
      simpa using hij.le
    · exact absurd hnil hne
    · exact hle
    · simp only at hle
      omega
  · rintro h i j hi hj hij _ ⟨value, hget, rfl⟩ _ ⟨value', hget', rfl⟩
    by_cases hne : value' = []
    · exact Or.inr (Or.inl hne)
    · exact Or.inr (Or.inr (Or.inl (h i j _ _ value value' hij
        (List.getElem?_eq_getElem hi) (List.getElem?_eq_getElem hj) hget hget' hne)))

theorem ownDocuments_length_le : (ownDocuments m keys).length ≤ keys.length :=
  List.length_filterMap_le _ _

theorem ownDocuments_length_eq_iff :
    (ownDocuments m keys).length = keys.length ↔ ∀ key ∈ keys, m.get key ≠ none := by
  induction keys with
  | nil => simp [ownDocuments]
  | cons key keys ih =>
    rw [List.forall_mem_cons, ← ih]
    cases hget : m.get key with
    | none =>
      have hle : (ownDocuments m keys).length ≤ keys.length := ownDocuments_length_le
      simp only [ownDocuments, List.filterMap_cons, hget, Option.map_none,
        List.length_cons] at hle ⊢
      simp only [ne_eq, not_true, false_and, iff_false]
      omega
    | some value => simp [ownDocuments, hget]

theorem length_le_of_nodup (hkeys : keys.Nodup) : keys.length ≤ 2 ^ 64 := by
  have hnodup : (keys.map UInt64.toNat).Nodup := hkeys.map fun _ _ h => UInt64.toNat_inj.mp h
  have hsubset : keys.map UInt64.toNat ⊆ List.range (2 ^ 64) := by
    intro n hn
    obtain ⟨key, -, rfl⟩ := List.mem_map.mp hn
    exact List.mem_range.mpr key.toNat_lt
  have hle := (List.subperm_of_subset hnodup hsubset).length_le
  rwa [List.length_map, List.length_range] at hle

theorem touched_iff (hkeys : keys.Nodup) :
    (if (ownDocuments m keys).length = keys.length then
        ({ entriesTouched := UInt64.ofNat keys.length } : OperationResult)
      else { entriesTouched := 0, status := .error }).entriesTouched =
        UInt64.ofNat (ownDocuments m keys).length ↔
      (∀ key ∈ keys, m.get key ≠ none) ∨ ∀ key ∈ keys, m.get key = none := by
  have hnone : (∀ key ∈ keys, m.get key = none) ↔ (ownDocuments m keys).length = 0 := by
    rw [List.length_eq_zero_iff, ownDocuments, List.filterMap_eq_nil_iff]
    simp
  have hle : (ownDocuments m keys).length ≤ keys.length := ownDocuments_length_le
  have hbound := length_le_of_nodup hkeys
  rw [hnone, ← ownDocuments_length_eq_iff]
  split
  next heq => simp [heq]
  next hne =>
    rw [or_iff_right hne, eq_comm, ← UInt64.toNat_inj, UInt64.toNat_ofNat',
      Nat.mod_eq_of_lt (by omega), UInt64.toNat_zero]

/-- In a span for as many of the largest values as there are keys, every copy is inside. -/
theorem copies_inside {largest : ℕ} (hlargest : ∀ e ∈ m.entries, e.2.length ≤ largest)
    {copy : Copy} (h : copy ∈ ownCopies m keys) : copy.Inside (keys.length * largest) := by
  obtain ⟨e, he, hcopy⟩ := List.mem_filterMap.mp h
  obtain ⟨value, hget, rfl⟩ := Option.map_eq_some_iff.mp hcopy
  have hindex := (List.getElem?_eq_some_iff.mp (List.mem_zipIdx_iff_getElem?.mp he)).1
  have hvalue := hlargest _ (SortedMap.get_eq_some_iff.mp hget)
  by_cases hnil : value = []
  · exact Or.inl hnil
  · have hpos := List.length_pos_iff.mpr hnil
    refine Or.inr ?_
    simp only at hvalue ⊢
    obtain ⟨n, hn⟩ := Nat.exists_eq_add_of_lt hindex
    rw [hn, Nat.add_mul, Nat.add_mul, one_mul]
    have hfirst := Nat.le_mul_of_pos_right e.2 (hpos.trans_le hvalue)
    omega

/-- For every order of the documents found, the values are concatenated and counted exactly when
they are all there or all missing, and the indices leave room for each of them. -/
theorem mongodb_batchRead_iff {largest : ℕ} {span : Bytes} (hkeys : keys.Nodup)
    (hlargest : ∀ e ∈ m.entries, e.2.length ≤ largest)
    (hspan : span.length = keys.length * largest)
    (hfound : (MongoDb.mk (m.rekey makeOid)).FindsIn (keys.map makeOid) found) :
    ConcatenatesFound m keys span (MongoDb.batchRead found keys) ↔ BatchFits m keys := by
  have hperm := found_perm hkeys hfound
  have hcopies : (MongoDb.batchRead found keys).copies.Perm (ownCopies m keys) := by
    rw [← ownCopies_eq hkeys]
    exact hperm.map _
  have hinside : ∀ copy ∈ (MongoDb.batchRead found keys).copies, copy.Inside span.length :=
    fun copy hcopy => hspan ▸ copies_inside hlargest (hcopies.mem_iff.mp hcopy)
  have hdisjoint : (MongoDb.batchRead found keys).copies.Pairwise Copy.Disjoint ↔ _ :=
    (hcopies.pairwise_iff Copy.Disjoint.symm).trans ownCopies_disjoint_iff
  have htouched := touched_iff (m := m) hkeys
  rw [← hperm.length_eq] at htouched
  constructor
  · intro h
    have hcount := h.touched.trans (congrArg UInt64.ofNat hperm.length_eq.symm)
    exact ⟨htouched.mp hcount, hdisjoint.mp h.disjoint⟩
  · rintro ⟨hall, hroom⟩
    have hapart := hdisjoint.mpr hroom
    have hcount := (htouched.mpr hall).trans (congrArg UInt64.ofNat hperm.length_eq)
    refine ⟨hperm, hapart, hinside, ?_, hcount⟩
    rw [MongoDb.batchRead, List.forall₂_map_right_iff, List.forall₂_same]
    exact fun document hdocument =>
      ⟨rfl, Copy.slice_written hinside hapart (List.mem_map_of_mem hdocument)⟩

/-- Of two neighbouring values of two bytes the second overwrites half of the first. -/
theorem mongodb_batchRead_overlaps :
    (MongoDb.mk (SortedMap.rekey makeOid
        (SortedMap.put (SortedMap.put ∅ 1 [7, 7]) 2 [8, 8]))).FindsIn ([1, 2].map makeOid)
          [(makeOid 1, [7, 7]), (makeOid 2, [8, 8])] ∧
      ¬ConcatenatesFound (SortedMap.put (SortedMap.put ∅ 1 [7, 7]) 2 [8, 8]) [1, 2] [0, 0, 0, 0]
        (MongoDb.batchRead [(makeOid 1, [7, 7]), (makeOid 2, [8, 8])] [1, 2]) := by
  constructor
  · change List.Perm _ _
    decide +kernel
  · intro h
    have hcopies : (MongoDb.batchRead [(makeOid 1, [7, 7]), (makeOid 2, [8, 8])] [1, 2]).copies =
        [⟨0, [7, 7]⟩, ⟨1, [8, 8]⟩] := by decide +kernel
    have hdisjoint := h.disjoint
    rw [hcopies] at hdisjoint
    simp [Copy.Disjoint] at hdisjoint

theorem mongodb_batchRead_bytes :
    ConcatenatesFound (SortedMap.put (SortedMap.put ∅ 1 [7]) 2 [8]) [1, 2] [0, 0]
      (MongoDb.batchRead [(makeOid 2, [8]), (makeOid 1, [7])] [1, 2]) := by
  have hlargest : ∀ e ∈ (SortedMap.put (SortedMap.put (∅ : KeyMap) 1 [7]) 2 [8]).entries,
      e.2.length ≤ 1 := by decide +kernel
  refine (mongodb_batchRead_iff (by decide) hlargest rfl ?_).mpr ⟨?_, ?_⟩
  · change List.Perm _ _
    decide +kernel
  · refine Or.inl (List.forall_mem_cons.mpr ⟨?_, List.forall_mem_singleton.mpr ?_⟩)
    · decide +kernel
    · decide +kernel
  · intro i j key key' value value' hij _ _ hget _ _
    have hvalue := hlargest _ (SortedMap.get_eq_some_iff.mp hget)
    simp only at hvalue
    omega

end Ucsb
