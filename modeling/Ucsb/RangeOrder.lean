import Ucsb.LevelDb
import Ucsb.Lmdb
import Mathlib.Data.List.Chain

namespace Ucsb

open scoped WordBytes

variable {m : KeyMap} {key length : UInt64} {advance : ℕ → Bytes → ℕ}

/-- A query answers with the first entries from its key on, and with their number. -/
def InKeyOrder (m : KeyMap) (key length : UInt64) (reply : Reply Bytes) : Prop :=
  reply.visited = (firstEntries m key length).map (Prod.map keyBytes id) ∧
    reply.result = { entriesTouched := UInt64.ofNat (firstEntries m key length).length }

/-- The reversed keys that are asked for ascend, and no other stored key comes between
them when its bytes are reversed. -/
def OrderSurvives (m : KeyMap) (key length : UInt64) : Prop :=
  let asked := (firstEntries m key length).map Prod.fst
  (asked.Pairwise fun x y => bswap64 x < bswap64 y) ∧
    ∀ e ∈ m.entries, e.1 ∉ asked → bswap64 key ≤ bswap64 e.1 →
      asked.length = length.toNat ∧ ∀ x ∈ asked, bswap64 x < bswap64 e.1

/-- Reversing the bytes keeps the order of the stored keys. -/
def ReversalAscends (m : KeyMap) : Prop :=
  ∀ e ∈ m.entries, ∀ e' ∈ m.entries, e.1 < e'.1 → bswap64 e.1 < bswap64 e'.1

theorem firstEntries_mem {e : UInt64 × Bytes} (he : e ∈ firstEntries m key length) :
    e ∈ m.entries ∧ key ≤ e.1 := SortedMap.mem_seek.mp (List.mem_of_mem_take he)

/-- A stored entry is asked for if its key is. -/
theorem mem_firstEntries {e : UInt64 × Bytes} (he : e ∈ m.entries)
    (hkey : e.1 ∈ (firstEntries m key length).map Prod.fst) : e ∈ firstEntries m key length := by
  obtain ⟨a, ha, heq⟩ := List.mem_map.mp hkey
  have hsame : a = e := List.inj_on_of_nodup_map m.nodup_keys (firstEntries_mem ha).1 he heq
  rwa [← hsame]

/-- The key itself is asked for if it is there and anything is asked for. -/
theorem firstEntries_cons {value : Bytes} (hget : m.get key = some value)
    (hlength : 0 < length.toNat) : (key, value) ∈ firstEntries m key length := by
  obtain ⟨-, -, -, hrest⟩ := SortedMap.take_seek_eq_iff.mp
    (rfl : (m.seek key).take length.toNat = firstEntries m key length)
  have hseek : (key, value) ∈ m.seek key :=
    SortedMap.mem_seek.mpr ⟨SortedMap.get_eq_some_iff.mp hget, le_rfl⟩
  by_contra hnot
  obtain ⟨hfull, hbelow⟩ := hrest _ hseek hnot
  obtain ⟨e, he⟩ := List.exists_mem_of_length_pos (by rw [hfull]; exact hlength)
  exact (hbelow e he).not_ge (firstEntries_mem he).2

/-- On entries that ascend in both orders one order decides the other. -/
theorem reversed_lt {es : List (UInt64 × Bytes)} (hkeys : es.Pairwise fun a b => a.1 < b.1)
    (hreversed : es.Pairwise fun a b => bswap64 a.1 < bswap64 b.1) {a b : UInt64 × Bytes}
    (ha : a ∈ es) (hb : b ∈ es) (hab : a.1 < b.1) : bswap64 a.1 < bswap64 b.1 := by
  let alike (a b : UInt64 × Bytes) : Prop :=
    (a.1 < b.1 → bswap64 a.1 < bswap64 b.1) ∧ (b.1 < a.1 → bswap64 b.1 < bswap64 a.1)
  have hsymm : Std.Symm alike := ⟨fun _ _ h => ⟨h.2, h.1⟩⟩
  have hpairs : es.Pairwise alike :=
    (hkeys.and hreversed).imp fun h => ⟨fun _ => h.2, fun hlt => absurd hlt h.1.asymm⟩
  have hself : ∀ e ∈ es, alike e e := fun e _ => ⟨fun h => absurd h (lt_irrefl _),
    fun h => absurd h (lt_irrefl _)⟩
  exact (hpairs.forall_of_forall hself ha hb).1 hab

/-- What the engine visits from a stored key on is what is asked for if and only if the
order survives. -/
theorem seek_take_iff {value : Bytes} (hget : m.get key = some value) :
    ((m.rekey keyBytes).seek (keyBytes key)).take length.toNat =
        (firstEntries m key length).map (Prod.map keyBytes id) ↔ OrderSurvives m key length := by
  have hsorted : (firstEntries m key length).Pairwise fun a b => a.1 < b.1 :=
    (m.sorted_seek key).sublist (List.take_sublist _ _)
  have hlength : (firstEntries m key length).length ≤ length.toNat := List.length_take_le _ _
  have hmem : ∀ e ∈ m.entries, bswap64 key ≤ bswap64 e.1 →
      Prod.map keyBytes id e ∈ (m.rekey keyBytes).seek (keyBytes key) := fun e he hle =>
    SortedMap.mem_seek.mpr
      ⟨(SortedMap.mem_rekey keyBytes_injective).mpr ⟨e, he, rfl⟩, keyBytes_le_iff.mpr hle⟩
  rw [SortedMap.take_seek_eq_iff, List.pairwise_map, List.forall_mem_map, OrderSurvives,
    List.pairwise_map, List.length_map, List.length_map]
  simp only [Prod.map_fst, keyBytes_lt_iff]
  constructor
  · rintro ⟨hreversed, -, -, hrest⟩
    refine ⟨hreversed, ?_⟩
    intro e he hnot hle
    have hother : Prod.map keyBytes id e ∉
        (firstEntries m key length).map (Prod.map keyBytes id) := by
      intro hin
      obtain ⟨a, ha, heq⟩ := List.mem_map.mp hin
      have hsame : a.1 = e.1 := keyBytes_injective (congrArg Prod.fst heq)
      exact hnot (List.mem_map.mpr ⟨a, ha, hsame⟩)
    obtain ⟨hfull, hbelow⟩ := hrest _ (hmem e he hle) hother
    refine ⟨hfull, ?_⟩
    rw [List.forall_mem_map] at hbelow ⊢
    exact fun a ha => keyBytes_lt_iff.mp (hbelow a ha)
  · rintro ⟨hreversed, hrest⟩
    refine ⟨hreversed, ?_, hlength, ?_⟩
    · intro e he
      have hpositive : 0 < length.toNat :=
        Nat.lt_of_lt_of_le (List.length_pos_of_mem he) hlength
      apply hmem e (firstEntries_mem he).1
      rcases (firstEntries_mem he).2.lt_or_eq with hlt | heq
      · exact (reversed_lt hsorted hreversed (firstEntries_cons hget hpositive) he hlt).le
      · rw [heq]
    · intro c hc hnot
      obtain ⟨hstored, hle⟩ := SortedMap.mem_seek.mp hc
      obtain ⟨e, he, rfl⟩ := (SortedMap.mem_rekey keyBytes_injective).mp hstored
      have hother : e.1 ∉ (firstEntries m key length).map Prod.fst := fun hin =>
        hnot (List.mem_map_of_mem (mem_firstEntries he hin))
      obtain ⟨hfull, hbelow⟩ := hrest e he hother (keyBytes_le_iff.mp hle)
      refine ⟨hfull, ?_⟩
      rw [List.forall_mem_map] at hbelow ⊢
      exact fun a ha => keyBytes_lt_iff.mpr (hbelow a ha)

/-- Two neighbours are what a query of length two asks for. -/
theorem firstEntries_neighbours {before after : List (UInt64 × Bytes)} {a b : UInt64 × Bytes}
    (h : m.entries = before ++ a :: b :: after) : firstEntries m a.1 2 = [a, b] := by
  have hsorted := m.sorted
  rw [h, List.pairwise_append, List.pairwise_cons, List.pairwise_cons] at hsorted
  obtain ⟨-, ⟨hafter, hafter', -⟩, hbefore⟩ := hsorted
  have hab : a.1 < b.1 := hafter b List.mem_cons_self
  have hstored : ∀ e ∈ [a, b], e ∈ m.entries := by
    rw [h]
    simp
  apply SortedMap.take_seek_eq_iff.mpr
  refine ⟨by simpa using hab, ?_, le_rfl, ?_⟩
  · intro e he
    refine SortedMap.mem_seek.mpr ⟨hstored e he, ?_⟩
    rcases List.mem_pair.mp he with rfl | rfl
    · exact le_rfl
    · exact hab.le
  · intro e he hnot
    refine ⟨rfl, ?_⟩
    obtain ⟨hentry, hle⟩ := SortedMap.mem_seek.mp he
    rw [h, List.mem_append, List.mem_cons, List.mem_cons] at hentry
    rw [List.mem_pair, not_or] at hnot
    rcases hentry with hin | hin | hin | hin
    · exact absurd hle (hbefore e hin a List.mem_cons_self).not_ge
    · exact absurd hin hnot.1
    · exact absurd hin hnot.2
    · intro x hx
      rcases List.mem_pair.mp hx with rfl | rfl
      · exact hafter e (List.mem_cons_of_mem _ hin)
      · exact hafter' e hin

/-- All queries keep the order if and only if reversing the bytes of the keys does. -/
theorem orderSurvives_all_iff :
    (∀ key length, m.get key ≠ none → OrderSurvives m key length) ↔ ReversalAscends m := by
  constructor
  · intro h
    have htrans : Trans (fun a b : UInt64 × Bytes => bswap64 a.1 < bswap64 b.1)
        (fun a b : UInt64 × Bytes => bswap64 a.1 < bswap64 b.1)
        fun a b : UInt64 × Bytes => bswap64 a.1 < bswap64 b.1 :=
      ⟨fun hab hbc => hab.trans hbc⟩
    have hchain : m.entries.IsChain fun a b => bswap64 a.1 < bswap64 b.1 := by
      rw [List.isChain_iff_forall_rel_of_append_cons_cons]
      intro a b before after hsplit
      have hmem : (a.1, a.2) ∈ m.entries := by
        rw [hsplit]
        simp
      have hstored : m.get a.1 ≠ none := by simp [SortedMap.get_eq_some_iff.mpr hmem]
      have hpair := (h a.1 2 hstored).1
      rw [firstEntries_neighbours hsplit] at hpair
      simpa using hpair
    have hreversed := List.isChain_iff_pairwise.mp hchain
    intro e he e' he' hlt
    exact reversed_lt m.sorted hreversed he he' hlt
  · intro h key length hstored
    obtain ⟨hsorted, -, -, hrest⟩ := SortedMap.take_seek_eq_iff.mp
      (rfl : (m.seek key).take length.toNat = firstEntries m key length)
    obtain ⟨value, hget⟩ := Option.ne_none_iff_exists'.mp hstored
    have hkey : (key, value) ∈ m.entries := SortedMap.get_eq_some_iff.mp hget
    constructor
    · rw [List.pairwise_map]
      exact hsorted.imp_of_mem fun ha hb hab =>
        h _ (firstEntries_mem ha).1 _ (firstEntries_mem hb).1 hab
    · intro e he hnot hle
      have hseek : e ∈ m.seek key := by
        refine SortedMap.mem_seek.mpr ⟨he, ?_⟩
        by_contra hlt
        exact (h e he _ hkey (not_le.mp hlt)).not_ge hle
      have hother : e ∉ firstEntries m key length := fun hin =>
        hnot (List.mem_map.mpr ⟨e, hin, rfl⟩)
      obtain ⟨hfull, hbelow⟩ := hrest e hseek hother
      rw [List.length_map, List.forall_mem_map]
      exact ⟨hfull, fun a ha => h a (firstEntries_mem ha).1 e he (hbelow a ha)⟩

theorem cursorLoop_eq {i : UInt64} {offset : ℕ} {entries : List (Bytes × Bytes)}
    (hi : i ≤ length) :
    cursorLoop advance length i offset entries = rangeLoop advance length i offset entries := by
  induction entries generalizing i offset with
  | nil => rfl
  | cons e entries ih =>
    obtain ⟨key, value⟩ := e
    rw [cursorLoop, rangeLoop]
    rcases hi.lt_or_eq with hlt | heq
    · have hsucc : i + 1 ≤ length := by
        rw [UInt64.lt_iff_toNat_lt] at hlt
        have hword := length.toNat_lt
        rw [UInt64.le_iff_toNat_le, UInt64.toNat_add, UInt64.toNat_one,
          Nat.mod_eq_of_lt (by omega)]
        omega
      rw [if_pos hlt, if_neg hlt.ne, ih hsucc]
    · rw [if_neg heq.not_lt, if_pos heq]

theorem rangeLoop_inKeyOrder_iff {value : Bytes} (hget : m.get key = some value) :
    InKeyOrder m key length
        (rangeLoop advance length 0 0 ((m.rekey keyBytes).seek (keyBytes key))) ↔
      OrderSurvives m key length := by
  rw [← seek_take_iff hget, InKeyOrder, rangeLoop_eq (Nat.zero_le _)]
  simp only [UInt64.toNat_zero, Nat.sub_zero, Nat.zero_add]
  constructor
  · exact And.left
  · intro h
    exact ⟨h, by rw [h, List.length_map]⟩

theorem Lmdb.queryFrom_reply {env : Lmdb} {value : Bytes} (hstore : env.store = m.rekey keyBytes)
    (hget : m.get key = some value) : (env.queryFrom advance key length).1 =
      rangeLoop advance length 0 0 ((m.rekey keyBytes).seek (keyBytes key)) := by
  have hcursor : (m.rekey keyBytes).get (keyBytes key) = some value := by
    rw [SortedMap.get_rekey keyBytes_injective, hget]
  rw [← cursorLoop_eq (UInt64.zero_le)]
  simp [queryFrom, txnBegin, MdbTxn.cursorSet, hstore, hcursor]

/-- A query from a stored key keeps to the order of the keys if and only if that order
survives the reversal of their bytes; all queries do so if and only if the reversal keeps
the order of the stored keys. -/
theorem rangeQueries_inKeyOrder_iff (m : KeyMap) (db : LevelDb) (env : Lmdb)
    (hdb : db.store = m.rekey keyBytes) (henv : env.store = m.rekey keyBytes) :
    (∀ key length, m.get key ≠ none →
      (InKeyOrder m key length (db.rangeSelect key length) ↔ OrderSurvives m key length) ∧
      (InKeyOrder m key length (db.scan key length) ↔ OrderSurvives m key length) ∧
      (InKeyOrder m key length (env.rangeSelect key length).1 ↔ OrderSurvives m key length) ∧
      (InKeyOrder m key length (env.scan key length).1 ↔ OrderSurvives m key length)) ∧
    ((∀ key length, m.get key ≠ none →
      InKeyOrder m key length (db.rangeSelect key length) ∧
      InKeyOrder m key length (db.scan key length) ∧
      InKeyOrder m key length (env.rangeSelect key length).1 ∧
      InKeyOrder m key length (env.scan key length).1) ↔ ReversalAscends m) := by
  have heach : ∀ key length, m.get key ≠ none →
      (InKeyOrder m key length (db.rangeSelect key length) ↔ OrderSurvives m key length) ∧
      (InKeyOrder m key length (db.scan key length) ↔ OrderSurvives m key length) ∧
      (InKeyOrder m key length (env.rangeSelect key length).1 ↔ OrderSurvives m key length) ∧
      (InKeyOrder m key length (env.scan key length).1 ↔ OrderSurvives m key length) := by
    intro key length hstored
    obtain ⟨value, hget⟩ := Option.ne_none_iff_exists'.mp hstored
    rw [LevelDb.rangeSelect, LevelDb.scan, hdb, Lmdb.rangeSelect, Lmdb.scan,
      Lmdb.queryFrom_reply henv hget, Lmdb.queryFrom_reply henv hget]
    exact ⟨rangeLoop_inKeyOrder_iff hget, rangeLoop_inKeyOrder_iff hget,
      rangeLoop_inKeyOrder_iff hget, rangeLoop_inKeyOrder_iff hget⟩
  refine ⟨heach, ?_⟩
  rw [← orderSurvives_all_iff]
  constructor
  · intro h key length hstored
    exact (heach key length hstored).1.mp (h key length hstored).1
  · intro h key length hstored
    obtain ⟨hselect, hscan, hselect', hscan'⟩ := heach key length hstored
    have hsurvives := h key length hstored
    exact ⟨hselect.mpr hsurvives, hscan.mpr hsurvives, hselect'.mpr hsurvives,
      hscan'.mpr hsurvives⟩

/-- Keys of one byte keep their order. -/
theorem rangeQueries_inKeyOrder_small :
    let m : KeyMap := (SortedMap.empty.put 1 [7]).put 2 [8]
    InKeyOrder m 1 2 (LevelDb.rangeSelect { store := m.rekey keyBytes } 1 2) ∧
      InKeyOrder m 1 2 (Lmdb.scan { store := m.rekey keyBytes } 1 2).1 := by
  intro m
  have hascends : ReversalAscends m := by
    unfold ReversalAscends
    decide +kernel
  have hqueries := (rangeQueries_inKeyOrder_iff m { store := m.rekey keyBytes }
    { store := m.rekey keyBytes } rfl rfl).2.mpr hascends 1 2 (by decide +kernel)
  exact ⟨hqueries.1, hqueries.2.2.2⟩

/-- The memory of the key 256 comes before that of the key 1. -/
theorem rangeQueries_miss_key :
    let m : KeyMap := (SortedMap.empty.put 1 [7]).put 256 [8]
    let db : LevelDb := { store := m.rekey keyBytes }
    let env : Lmdb := { store := m.rekey keyBytes }
    ¬InKeyOrder m 1 2 (db.rangeSelect 1 2) ∧ ¬InKeyOrder m 1 2 (db.scan 1 2) ∧
      ¬InKeyOrder m 1 2 (env.rangeSelect 1 2).1 ∧ ¬InKeyOrder m 1 2 (env.scan 1 2).1 := by
  unfold InKeyOrder
  decide +kernel

end Ucsb
