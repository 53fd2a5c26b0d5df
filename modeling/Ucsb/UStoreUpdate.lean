import Ucsb.UStore
import Ucsb.RequestRun

namespace Ucsb

open scoped WordBytes
open RequestRun

variable {store after : UStoreMap} {key : UInt64} {value : Bytes} {updated : Reply ℤ}

/-- An update of a key that is not there is refused and changes nothing; of one that is there
it stores the value; and a read says the same of the key. -/
def UpdateRight (store : UStoreMap) (key : UInt64) (value : Bytes) (updated read : Reply ℤ)
    (after : UStoreMap) : Prop :=
  match store.get (ustoreKey key) with
  | none => updated.result = { entriesTouched := 0, status := .notFound } ∧ after = store ∧
      read.result.status = .notFound
  | some _ => updated.result = { entriesTouched := 1, status := .ok } ∧
      after = store.put (ustoreKey key) value ∧ read.result.status = .ok

/-- The key is there, with a value whose length does not mean that it is missing, and the
length of the new value fits. -/
def Updatable (store : UStoreMap) (key : UInt64) (value : Bytes) : Prop :=
  (∃ old, store.get (ustoreKey key) = some old ∧ UInt32.ofNat old.length ≠ ustoreLengthMissing) ∧
    value.length < 2 ^ 32

/-- What `update` does in both adapters: it writes the value whether the key is there or not. -/
def written (store : UStoreMap) (key : UInt64) (value : Bytes) : UStoreMap :=
  store.put (ustoreKey key) (value.take (UInt32.ofNat value.length).toNat)

theorem ustoreReadReply_status : (ustoreReadReply store key).result.status =
    match store.get (ustoreKey key) with
    | none => .notFound
    | some old => if UInt32.ofNat old.length = ustoreLengthMissing then .notFound else .ok := by
  rw [ustoreReadReply, ustoreRead]
  cases store.get (ustoreKey key) with
  | none => rfl
  | some old =>
    show (if UInt32.ofNat old.length = ustoreLengthMissing then Reply.ofStatus .notFound
      else { Reply.ofStatus .ok with copies := [_] }).result.status = _
    dsimp only
    split <;> rfl

theorem written_eq_iff :
    written store key value = store.put (ustoreKey key) value ↔ value.length < 2 ^ 32 := by
  have hlength : (UInt32.ofNat value.length).toNat = value.length % 2 ^ 32 :=
    UInt32.toNat_ofNat'
  constructor
  · intro h
    have hget := congrArg (fun m => m.get (ustoreKey key)) h
    simp only [written, SortedMap.get_put_self, Option.some.injEq] at hget
    have hshort := congrArg List.length hget
    rw [List.length_take, hlength] at hshort
    omega
  · intro h
    rw [written, hlength, Nat.mod_eq_of_lt h, List.take_length]

theorem updateRight_iff (hresult : updated = .ofStatus .ok)
    (hafter : after = written store key value) :
    UpdateRight store key value updated (ustoreReadReply store key) after ↔
      Updatable store key value := by
  rw [UpdateRight, Updatable, ustoreReadReply_status, hresult, hafter]
  cases store.get (ustoreKey key) with
  | none =>
    apply iff_of_false
    · rintro ⟨hstatus, -⟩
      cases hstatus
    · rintro ⟨⟨old, hold, -⟩, -⟩
      cases hold
  | some old =>
    dsimp only
    rw [written_eq_iff]
    constructor
    · rintro ⟨-, hlength, hread⟩
      refine ⟨⟨old, rfl, ?_⟩, hlength⟩
      intro hmissing
      rw [if_pos hmissing] at hread
      cases hread
    · rintro ⟨⟨_, hold, hpresent⟩, hlength⟩
      cases hold
      exact ⟨rfl, hlength, if_neg hpresent⟩

theorem UStore.update_spec (db : UStore) (key : UInt64) (value : Bytes) :
    db.update key value = (.ofStatus .ok, { store := written db.store key value }) := by
  rw [update, ustoreRead]
  cases db.store.get (ustoreKey key) <;> rfl

theorem UStoreTransaction.update_spec (t : UStoreTransaction) (key : UInt64) (value : Bytes) :
    t.update key value = (.ofStatus .ok, { t with view := written t.view key value }) := by
  rw [update, ustoreRead]
  cases t.view.get (ustoreKey key) <;> rfl

/-- After any operations an update is right if and only if its key is there and its value
fits, in the database and in a transaction alike. -/
theorem ustore_update_right_iff (earlier : List PointOperation) (key : UInt64) (value : Bytes) :
    (∀ start : UStore,
      let db := (run UStore.pointStep start earlier).2
      UpdateRight db.store key value (db.update key value).1 (db.read key)
          (db.update key value).2.store ↔
        Updatable db.store key value) ∧
      ∀ start : UStoreTransaction,
        let t := (run UStoreTransaction.pointStep start earlier).2
        UpdateRight t.view key value (t.update key value).1 (t.read key)
            (t.update key value).2.view ↔
          Updatable t.view key value := by
  constructor
  · intro start db
    rw [UStore.update_spec]
    exact updateRight_iff rfl rfl
  · intro start t
    rw [UStoreTransaction.update_spec]
    exact updateRight_iff rfl rfl

/-- An update of a key that is not there creates it. -/
theorem ustore_update_creates :
    let db : UStore := { store := ∅ }
    let t : UStoreTransaction := { db := ∅, view := ∅ }
    (¬UpdateRight db.store 1 [7] (db.update 1 [7]).1 (db.read 1) (db.update 1 [7]).2.store ∧
        (db.update 1 [7]).2.store.get (ustoreKey 1) = some [7]) ∧
      ¬UpdateRight t.view 1 [7] (t.update 1 [7]).1 (t.read 1) (t.update 1 [7]).2.view ∧
        (t.update 1 [7]).2.view.get (ustoreKey 1) = some [7] := by
  intro db t
  refine ⟨⟨?_, by decide +kernel⟩, ?_, by decide +kernel⟩
  · rintro ⟨hresult, -⟩
    cases hresult
  · rintro ⟨hresult, -⟩
    cases hresult

end Ucsb
