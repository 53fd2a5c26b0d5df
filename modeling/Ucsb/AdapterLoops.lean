import Ucsb.DataAccessor

namespace Ucsb

/-- The loop over a batch, which hands each key to the engine together with
`values.subspan(offset, sizes[idx])`. -/
def sliceLoop (values : Bytes) : ℕ → List UInt64 → List UInt32 → List (UInt64 × Bytes)
  | offset, key :: keys, size :: sizes =>
    (key, (values.drop offset).take size.toNat) ::
      sliceLoop values (offset + size.toNat) keys sizes
  | _, _, _ => []

def Batch.slices (batch : Batch) : List (UInt64 × Bytes) :=
  sliceLoop batch.values 0 batch.keys batch.sizes

theorem sliceLoop_eq (values : Bytes) (offset : ℕ) (keys : List UInt64) (sizes : List UInt32) :
    sliceLoop values offset keys sizes =
      keys.zip ((sizes.map UInt32.toNat).splitLengths (values.drop offset)) := by
  induction keys generalizing offset sizes with
  | nil => simp [sliceLoop]
  | cons key keys ih =>
    cases sizes with
    | nil => simp [sliceLoop]
    | cons size sizes => simp [sliceLoop, ih, List.drop_drop]

@[simp] theorem Batch.slices_eq (batch : Batch) : batch.slices = batch.entries :=
  sliceLoop_eq batch.values 0 batch.keys batch.sizes

/-- The loop of `range_select` and `scan` of the iterator engines, from the entry
that the iterator stands on; `advance` is how far a copy moves the next one. -/
def rangeLoop (advance : ℕ → Bytes → ℕ) (length : UInt64) :
    UInt64 → ℕ → List (Bytes × Bytes) → Reply Bytes
  | i, _, [] => { result := { entriesTouched := i } }
  | i, offset, (key, value) :: rest =>
    if i = length then { result := { entriesTouched := i } }
    else
      let reply := rangeLoop advance length (i + 1) (advance offset value) rest
      { result := reply.result
        copies := { offset := offset, data := value } :: reply.copies
        visited := (key, value) :: reply.visited }

/-- The copies of a loop that has come to an offset. -/
def placedCopies (advance : ℕ → Bytes → ℕ) : ℕ → List Bytes → List Copy
  | _, [] => []
  | offset, value :: values =>
    { offset := offset, data := value } :: placedCopies advance (advance offset value) values

/-- `exported_bytes += it->value().size()`. -/
def exported (offset : ℕ) (value : Bytes) : ℕ := offset + value.length

theorem placedCopies_exported (offset : ℕ) (values : List Bytes) :
    placedCopies exported offset values = consecutiveCopies offset values := by
  induction values generalizing offset with
  | nil => rfl
  | cons value values ih => rw [placedCopies, ih, exported, consecutiveCopies]

theorem placedCopies_stay (offset : ℕ) (values : List Bytes) :
    placedCopies (fun offset _ => offset) offset values =
      values.map fun value => { offset := offset, data := value } := by
  induction values with
  | nil => rfl
  | cons value values ih => rw [placedCopies, ih, List.map_cons]

theorem toNat_succ_of_lt {i length : UInt64} (h : i.toNat < length.toNat) :
    (i + 1).toNat = i.toNat + 1 := by
  have hword := length.toNat_lt
  rw [UInt64.toNat_add, UInt64.toNat_one, Nat.mod_eq_of_lt (by omega)]

/-- The loop visits as many entries as are asked for and there. -/
theorem rangeLoop_eq {advance : ℕ → Bytes → ℕ} {length i : UInt64} {offset : ℕ}
    {entries : List (Bytes × Bytes)} (hi : i.toNat ≤ length.toNat) :
    rangeLoop advance length i offset entries =
      { result := { entriesTouched :=
          UInt64.ofNat (i.toNat + (entries.take (length.toNat - i.toNat)).length) }
        copies := placedCopies advance offset
          ((entries.take (length.toNat - i.toNat)).map Prod.snd)
        visited := entries.take (length.toNat - i.toNat) } := by
  induction entries generalizing i offset with
  | nil => simp [rangeLoop, placedCopies]
  | cons e entries ih =>
    obtain ⟨key, value⟩ := e
    by_cases heq : i = length
    · simp [rangeLoop, heq, placedCopies]
    · have hlt : i.toNat < length.toNat := by
        have hne : i.toNat ≠ length.toNat := fun h => heq (UInt64.toNat_inj.mp h)
        omega
      have hsucc := toNat_succ_of_lt hlt
      obtain ⟨rest, hrest⟩ := Nat.exists_eq_add_of_lt hlt
      have hleft : length.toNat - i.toNat = rest + 1 := by omega
      have hleft' : length.toNat - (i.toNat + 1) = rest := by omega
      rw [rangeLoop, if_neg heq, ih (by omega), hsucc, hleft, hleft', List.take_succ_cons,
        List.map_cons, placedCopies, List.length_cons, ← Nat.add_assoc, Nat.add_right_comm]

/-- From an iterator over encoded entries the loop answers as the query on the entries. -/
theorem rangeLoop_encode {code : UInt64 → Bytes} {advance : ℕ → Bytes → ℕ}
    {place : List Bytes → List Copy}
    (hplace : ∀ values, placedCopies advance 0 values = place values)
    (length : UInt64) (entries : List (UInt64 × Bytes)) :
    rangeLoop advance length 0 0 (entries.map (Prod.map code id)) =
      (rangeReply place (entries.take length.toNat)).encode code := by
  have hvalues : (entries.map (Prod.map code id)).map Prod.snd = entries.map Prod.snd := by
    rw [List.map_map]
    rfl
  rw [rangeLoop_eq (Nat.zero_le _), hplace]
  simp only [UInt64.toNat_zero, Nat.sub_zero, Nat.zero_add, ← List.map_take, List.length_map,
    List.map_map, Reply.encode, rangeReply, Reply.mk.injEq, true_and, and_true]
  rfl

/-- The loop of a `batch_read` that asks the engine for one key after another. -/
def getLoop {Key : Type} (get : UInt64 → Option Bytes) :
    ℕ → UInt64 → List UInt64 → Reply Key
  | _, foundCnt, [] => { result := { entriesTouched := foundCnt } }
  | offset, foundCnt, key :: keys =>
    match get key with
    | none => getLoop get offset foundCnt keys
    | some data =>
      let reply := getLoop get (offset + data.length) (foundCnt + 1) keys
      { reply with copies := { offset := offset, data := data } :: reply.copies }

/-- The values that a batch read finds, in the order of its keys. -/
def foundValues (get : UInt64 → Option Bytes) (keys : List UInt64) : List Bytes :=
  keys.filterMap get

/-- What a batch read comes to: the values found in a row, and their number. -/
def foundReply {Key : Type} (get : UInt64 → Option Bytes) (keys : List UInt64) : Reply Key :=
  { result := { entriesTouched := UInt64.ofNat (foundValues get keys).length }
    copies := consecutiveCopies 0 (foundValues get keys) }

theorem getLoop_eq {Key : Type} (get : UInt64 → Option Bytes) (offset : ℕ) (foundCnt : UInt64)
    (keys : List UInt64) : (getLoop get offset foundCnt keys : Reply Key) =
      { result := { entriesTouched := foundCnt + UInt64.ofNat (foundValues get keys).length }
        copies := consecutiveCopies offset (foundValues get keys) } := by
  induction keys generalizing offset foundCnt with
  | nil => simp [getLoop, foundValues, consecutiveCopies]
  | cons key keys ih =>
    cases hget : get key with
    | none =>
      have hfound : foundValues get (key :: keys) = foundValues get keys := by
        simp [foundValues, hget]
      rw [getLoop, hget, hfound]
      exact ih offset foundCnt
    | some data =>
      have hfound : foundValues get (key :: keys) = data :: foundValues get keys := by
        simp [foundValues, hget]
      have hcount : foundCnt + 1 + UInt64.ofNat (foundValues get keys).length =
          foundCnt + UInt64.ofNat ((foundValues get keys).length + 1) := by
        rw [UInt64.ofNat_add, UInt64.add_assoc, UInt64.add_comm 1]
        rfl
      rw [getLoop, hget, hfound, List.length_cons, consecutiveCopies, ← hcount]
      dsimp only
      rw [ih]

theorem getLoop_found {Key : Type} (get : UInt64 → Option Bytes) (keys : List UInt64) :
    (getLoop get 0 0 keys : Reply Key) = foundReply get keys := by
  rw [getLoop_eq, UInt64.zero_add]
  rfl

end Ucsb
