import Ucsb.UStore
import Ucsb.ChunkedScan

namespace Ucsb

/-- Why a scan has no reply: the sum of a key and a length is not a key, or the rounds of its
loop are used up. -/
inductive ScanFault
  | overflow
  | endless
  deriving DecidableEq

/-- The variables of the loop in `scan`, and the entries that it visited. -/
structure ScanState where
  key : ℤ
  len : UInt32
  remaining : UInt32
  scanned : UInt32 := 0
  visited : List (ℤ × Bytes) := []

namespace ScanState

def reply (s : ScanState) : Reply ℤ :=
  { result :=
      { entriesTouched := s.scanned.toUInt64
        status := if 0 < s.scanned then .ok else .notFound }
    copies := (s.visited.filter fun e => UInt32.ofNat e.2.length ≠ ustoreLengthMissing).map
      fun e => { offset := 0, data := e.2.take (UInt32.ofNat e.2.length).toNat }
    visited := s.visited }

/-- The state after a round that found these entries. -/
def next (s : ScanState) (found : List (ℤ × Bytes)) : ScanState :=
  let remaining := s.remaining - s.len
  { key := s.key + s.len.toNat
    len := if remaining < s.len then remaining else s.len
    remaining := remaining
    scanned := s.scanned + UInt32.ofNat found.length
    visited := s.visited ++ found }

end ScanState

/-- The loop of `scan`, by a bound on its rounds. In round `i` the two components of `calls i`
say whether `ustore_scan` and `ustore_read` succeed. -/
def scanLoop (store : UStoreMap) (calls : ℕ → Bool × Bool) :
    ℕ → ℕ → ScanState → Except ScanFault (Reply ℤ)
  | 0, _, _ => .error .endless
  | rounds + 1, i, s =>
    if s.remaining = 0 then .ok s.reply
    else if !(calls i).1 then .ok (.ofStatus .error)
    else
      let found := (store.seek s.key).take s.len.toNat
      if !(calls i).2 then .ok (.ofStatus .error)
      else if 2 ^ 63 ≤ s.key + s.len.toNat then .error .overflow
      else scanLoop store calls rounds (i + 1) (s.next found)

/-- The common body of `scan`, whose `ustore_length_t` variables hold the length modulo
`2 ^ 32`. -/
def ustoreScan (store : UStoreMap) (calls : ℕ → Bool × Bool) (key length : UInt64) :
    Except ScanFault (Reply ℤ) :=
  let remaining := length.toUInt32
  let len := if 1000000 < remaining then 1000000 else remaining
  scanLoop store calls (remaining.toNat + 1) 0
    { key := ustoreKey key, len := len, remaining := remaining }

def UStore.scan (db : UStore) (calls : ℕ → Bool × Bool) (key length : UInt64) :
    Except ScanFault (Reply ℤ) :=
  ustoreScan db.store calls key length

def UStoreTransaction.scan (t : UStoreTransaction) (calls : ℕ → Bool × Bool)
    (key length : UInt64) : Except ScanFault (Reply ℤ) :=
  ustoreScan t.view calls key length

/-- What the loop keeps: the next chunk is as long as it may be, and the counters do not wrap. -/
structure ScanState.Fits (s : ScanState) (limit : ℕ) : Prop where
  len : s.len.toNat = min limit s.remaining.toNat
  scanned : s.scanned.toNat = s.visited.length
  room : s.visited.length + s.remaining.toNat < 2 ^ 32

variable {store : UStoreMap} {calls : ℕ → Bool × Bool} {rounds i limit : ℕ} {s : ScanState}

theorem ScanState.Fits.next (h : s.Fits limit) {found : List (ℤ × Bytes)}
    (hfound : found.length ≤ s.len.toNat) :
    (s.next found).remaining.toNat = s.remaining.toNat - s.len.toNat ∧
      (s.next found).Fits limit := by
  have hlen := h.len
  have hscanned := h.scanned
  have hroom := h.room
  have hremaining : (s.remaining - s.len).toNat = s.remaining.toNat - s.len.toNat :=
    UInt32.toNat_sub_of_le _ _ (UInt32.le_iff_toNat_le.mpr (by omega))
  have hcount : (s.scanned + UInt32.ofNat found.length).toNat =
      s.visited.length + found.length := by
    rw [UInt32.toNat_add, UInt32.toNat_ofNat', hscanned]
    omega
  refine ⟨hremaining, ?_, ?_, ?_⟩
  · simp only [ScanState.next, hremaining]
    split
    next hlt =>
      rw [UInt32.lt_iff_toNat_lt, hremaining] at hlt
      omega
    next hge =>
      rw [UInt32.lt_iff_toNat_lt, hremaining] at hge
      omega
  · simp only [ScanState.next, hcount, List.length_append]
  · simp only [ScanState.next, hremaining, List.length_append]
    omega

/-- Without failing calls the loop visits the chunks and ends, unless the keys overflow. -/
theorem scanLoop_eq (hlimit : 0 < limit) (hcalls : ∀ i, calls i = (true, true))
    (hs : s.Fits limit) (hrounds : s.remaining.toNat ≤ rounds)
    (hkey : s.key + s.remaining.toNat < 2 ^ 63) :
    ∃ last : ScanState, scanLoop store calls (rounds + 1) i s = .ok last.reply ∧
      last.visited = s.visited ++ store.chunks limit rounds s.key s.remaining.toNat ∧
      last.scanned.toNat = last.visited.length := by
  induction rounds generalizing i s with
  | zero =>
    have hzero : s.remaining = 0 := UInt32.toNat_inj.mp (Nat.le_zero.mp hrounds)
    exact ⟨s, by rw [scanLoop, if_pos hzero], by simp [SortedMap.chunks], hs.scanned⟩
  | succ rounds ih =>
    by_cases hzero : s.remaining = 0
    · refine ⟨s, by rw [scanLoop, if_pos hzero], ?_, hs.scanned⟩
      rw [hzero, SortedMap.chunks, if_pos (by rfl), List.append_nil]
    · have hpos : 0 < s.remaining.toNat := Nat.pos_of_ne_zero fun heq =>
        hzero (UInt32.toNat_inj.mp heq)
      have hlen := hs.len
      obtain ⟨hremaining, hnext⟩ := hs.next
        (List.length_take_le s.len.toNat (store.seek s.key))
      obtain ⟨last, hlast, hvisited, hscanned⟩ := ih (i := i + 1) hnext (by omega)
        (by rw [hremaining]; simp only [ScanState.next]; omega)
      refine ⟨last, ?_, ?_, hscanned⟩
      · rw [scanLoop, if_neg hzero]
        simp only [hcalls, Bool.not_true, Bool.false_eq_true, if_false]
        rw [if_neg (by omega), hlast]
      · rw [hvisited, hremaining, SortedMap.chunks, if_neg hpos.ne']
        simp only [ScanState.next, ← hlen, List.append_assoc]

theorem scanLoop_overflow (hlimit : 0 < limit) (hcalls : ∀ i, calls i = (true, true))
    (hs : s.Fits limit) (hpos : 0 < s.remaining.toNat) (hrounds : s.remaining.toNat ≤ rounds)
    (hkey : 2 ^ 63 ≤ s.key + s.remaining.toNat) :
    scanLoop store calls (rounds + 1) i s = .error .overflow := by
  induction rounds generalizing i s with
  | zero => omega
  | succ rounds ih =>
    have hzero : s.remaining ≠ 0 := fun heq => by simp [heq] at hpos
    have hlen := hs.len
    obtain ⟨hremaining, hnext⟩ := hs.next
      (List.length_take_le s.len.toNat (store.seek s.key))
    rw [scanLoop, if_neg hzero]
    simp only [hcalls, Bool.not_true, Bool.false_eq_true, if_false]
    split
    next => rfl
    next hfits =>
      apply ih hnext (by omega) (by omega)
      rw [hremaining]
      simp only [ScanState.next]
      omega

/-- Whatever the calls return, the loop comes to its end. -/
theorem scanLoop_ends (hlimit : 0 < limit) (hs : s.Fits limit)
    (hrounds : s.remaining.toNat ≤ rounds) :
    scanLoop store calls (rounds + 1) i s ≠ .error .endless := by
  induction rounds generalizing i s with
  | zero =>
    have hzero : s.remaining = 0 := UInt32.toNat_inj.mp (Nat.le_zero.mp hrounds)
    rw [scanLoop, if_pos hzero]
    simp
  | succ rounds ih =>
    rw [scanLoop]
    split
    next => simp
    next hzero =>
      have hpos : 0 < s.remaining.toNat := Nat.pos_of_ne_zero fun heq =>
        hzero (UInt32.toNat_inj.mp heq)
      have hlen := hs.len
      obtain ⟨hremaining, hnext⟩ := hs.next
        (List.length_take_le s.len.toNat (store.seek s.key))
      split
      next => simp
      next =>
        dsimp only
        split
        next => simp
        next =>
          split
          next => simp
          next => exact ih hnext (by omega)

/-- Every scan of a length from a key on ends, and without failing calls it reports as many
entries as there are up to the length, each of which it visits once. -/
def ScanRight (store : UStoreMap) (key length : UInt64)
    (scan : (ℕ → Bool × Bool) → Except ScanFault (Reply ℤ)) : Prop :=
  (∀ calls, scan calls ≠ .error .endless) ∧
    ∀ calls, (∀ i, calls i = (true, true)) → ∃ reply, scan calls = .ok reply ∧
      reply.result.entriesTouched.toNat =
        min length.toNat (store.seek (ustoreKey key)).length ∧
      reply.visited.Perm ((store.seek (ustoreKey key)).take length.toNat)

/-- The length fits its variable or the entries end before, no sum of a key and a length
overflows, and at the end of every chunk the stored keys so far are below the next one. -/
def Scannable (store : UStoreMap) (key length : UInt64) : Prop :=
  (length.toNat < 2 ^ 32 ∨ (store.seek (ustoreKey key)).length ≤ length.toNat % 2 ^ 32) ∧
    ustoreKey key + (length.toNat % 2 ^ 32 : ℕ) < 2 ^ 63 ∧
    store.Dense 1000000 (ustoreKey key) (length.toNat % 2 ^ 32)

theorem ustoreScan_start (key length : UInt64) :
    ({ key := ustoreKey key
       len := if 1000000 < length.toUInt32 then 1000000 else length.toUInt32
       remaining := length.toUInt32 } : ScanState).Fits 1000000 := by
  have hbound := length.toUInt32.toNat_lt
  have hlimit : (1000000 : UInt32).toNat = 1000000 := rfl
  refine ⟨?_, rfl, by simpa using hbound⟩
  dsimp only
  split
  next hlt =>
    rw [UInt32.lt_iff_toNat_lt] at hlt
    omega
  next hge =>
    rw [UInt32.lt_iff_toNat_lt] at hge
    omega

theorem ustoreScan_eq {key length : UInt64} (hcalls : ∀ i, calls i = (true, true))
    (hkey : ustoreKey key + (length.toNat % 2 ^ 32 : ℕ) < 2 ^ 63) :
    ∃ reply, ustoreScan store calls key length = .ok reply ∧
      reply.visited = store.chunks 1000000 (length.toNat % 2 ^ 32) (ustoreKey key)
        (length.toNat % 2 ^ 32) ∧
      reply.result.entriesTouched.toNat = reply.visited.length := by
  have hremaining : length.toUInt32.toNat = length.toNat % 2 ^ 32 := UInt64.toNat_toUInt32 length
  obtain ⟨last, hlast, hvisited, hscanned⟩ := scanLoop_eq
    (by decide : 0 < 1000000) hcalls (ustoreScan_start key length) le_rfl
    (by simp only [hremaining]; exact hkey)
  refine ⟨last.reply, hlast, ?_, ?_⟩
  · simpa only [ScanState.reply, hremaining, List.nil_append] using hvisited
  · rw [ScanState.reply, UInt32.toNat_toUInt64, hscanned]

theorem ustoreScan_overflow {key length : UInt64} (hcalls : ∀ i, calls i = (true, true))
    (hkey : ¬ustoreKey key + (length.toNat % 2 ^ 32 : ℕ) < 2 ^ 63) :
    ustoreScan store calls key length = .error .overflow := by
  have hremaining : length.toUInt32.toNat = length.toNat % 2 ^ 32 := UInt64.toNat_toUInt32 length
  have hbound : ustoreKey key < 2 ^ 63 := Int64.toInt_lt key.toInt64
  exact scanLoop_overflow (by decide : 0 < 1000000) hcalls (ustoreScan_start key length)
    (by simp only [hremaining]; omega) le_rfl (by simp only [hremaining]; omega)

theorem ustoreScan_right_iff (store : UStoreMap) (key length : UInt64) :
    ScanRight store key length (ustoreScan store · key length) ↔
      Scannable store key length := by
  have hremaining : length.toUInt32.toNat = length.toNat % 2 ^ 32 := UInt64.toNat_toUInt32 length
  have hends : ∀ calls, ustoreScan store calls key length ≠ .error .endless := fun calls =>
    scanLoop_ends (by decide) (ustoreScan_start key length) le_rfl
  have hnodup : ∀ n, ((store.seek (ustoreKey key)).take n).Nodup := fun n =>
    ((store.sorted_seek _).imp fun hlt heq => hlt.ne (congrArg Prod.fst heq)).sublist
      (List.take_sublist _ _)
  constructor
  · rintro ⟨-, hright⟩
    obtain ⟨reply, hreply, hcount, hperm⟩ := hright (fun _ => (true, true)) fun _ => rfl
    have hkey : ustoreKey key + (length.toNat % 2 ^ 32 : ℕ) < 2 ^ 63 := by
      by_contra hover
      change ustoreScan store _ key length = _ at hreply
      rw [ustoreScan_overflow (fun _ => rfl) hover] at hreply
      simp at hreply
    obtain ⟨reply', hreply', hvisited, hscanned⟩ :=
      ustoreScan_eq (fun _ => rfl) hkey
    cases Except.ok.inj (hreply.symm.trans hreply')
    have hdense : store.Dense 1000000 (ustoreKey key) (length.toNat % 2 ^ 32) :=
      SortedMap.dense_of_nodup (by decide) le_rfl (hvisited ▸ hperm.nodup_iff.mpr (hnodup _))
    refine ⟨?_, hkey, hdense⟩
    rw [SortedMap.chunks_eq_take (by decide) le_rfl hdense] at hvisited
    rw [hscanned, hvisited, List.length_take] at hcount
    omega
  · rintro ⟨hlength, hkey, hdense⟩
    refine ⟨hends, fun calls hcalls => ?_⟩
    obtain ⟨reply, hreply, hvisited, hscanned⟩ := ustoreScan_eq hcalls hkey
    rw [SortedMap.chunks_eq_take (by decide) le_rfl hdense] at hvisited
    have htake : (store.seek (ustoreKey key)).take (length.toNat % 2 ^ 32) =
        (store.seek (ustoreKey key)).take length.toNat := by
      rcases hlength with hfits | hshort
      · rw [Nat.mod_eq_of_lt hfits]
      · have := Nat.mod_le length.toNat (2 ^ 32)
        rw [List.take_of_length_le hshort, List.take_of_length_le (by omega)]
    rw [htake] at hvisited
    refine ⟨reply, hreply, ?_, hvisited ▸ .refl _⟩
    rw [hscanned, hvisited, List.length_take]

/-- Both adapters scan right exactly the stores that are dense enough. -/
theorem ustore_scan_right_iff (store db : UStoreMap) (key length : UInt64) :
    (ScanRight store key length ((UStore.mk store).scan · key length) ∧
        ScanRight store key length ((UStoreTransaction.mk db store).scan · key length)) ↔
      Scannable store key length := by
  have hscan := ustoreScan_right_iff store key length
  exact ⟨fun h => hscan.mp h.1, fun h => ⟨hscan.mpr h, hscan.mpr h⟩⟩

/-- One entry two million keys away is found by both chunks of a scan of a million and one. -/
theorem ustore_scan_twice :
    ¬ScanRight (SortedMap.put ∅ 2000000 []) 0 1000001
      ((UStore.mk (SortedMap.put ∅ 2000000 [])).scan · 0 1000001) := by
  rintro ⟨-, hright⟩
  obtain ⟨reply, hreply, hcount, -⟩ := hright (fun _ => (true, true)) fun _ => rfl
  cases Except.ok.inj hreply
  exact absurd hcount (by decide)

end Ucsb
