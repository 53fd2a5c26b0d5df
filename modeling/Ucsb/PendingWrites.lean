import Ucsb.SortedMap
import Mathlib.Logic.Function.Basic

/-! Transactions on one map, each of which keeps the writes that it has not committed. -/

namespace PendingWrites

variable {ι K V : Type} [LinearOrder K]

/-- A key, and its new value, or none for a removal. -/
abbrev Write (K V : Type) := K × Option V

def apply (m : SortedMap K V) (w : Write K V) : SortedMap K V :=
  match w.2 with
  | some v => m.put w.1 v
  | none => m.erase w.1

def applyAll (m : SortedMap K V) (writes : List (Write K V)) : SortedMap K V :=
  writes.foldl apply m

/-- Writes without removals put their entries. -/
theorem applyAll_puts {es : List (K × V)} :
    applyAll m (es.map (Prod.map id some)) = m.putAll es := by
  induction es generalizing m with
  | nil => rfl
  | cons e es ih => exact ih

theorem applyAll_rekey {K' : Type} [LinearOrder K'] {f : K → K'} (hf : Function.Injective f)
    (m : SortedMap K V) (writes : List (Write K V)) :
    applyAll (m.rekey f) (writes.map (Prod.map f id)) = (applyAll m writes).rekey f := by
  induction writes generalizing m with
  | nil => rfl
  | cons w writes ih =>
    obtain ⟨k, value⟩ := w
    have happly : apply (m.rekey f) (f k, value) = (apply m (k, value)).rekey f := by
      cases value with
      | some v => exact (SortedMap.rekey_put hf).symm
      | none => exact (SortedMap.rekey_erase hf).symm
    change applyAll (apply (m.rekey f) (f k, value)) (writes.map (Prod.map f id)) =
      (applyAll (apply m (k, value)) writes).rekey f
    rw [happly, ih]

structure Store (ι K V : Type) [LinearOrder K] where
  committed : SortedMap K V
  pending : ι → List (Write K V)

variable {m m' : SortedMap K V} {w : Write K V} {writes : List (Write K V)} {s : Store ι K V}
  {i j : ι} {k : K}

theorem get_apply : (apply m w).get k = if k = w.1 then w.2 else m.get k := by
  obtain ⟨key, value⟩ := w
  unfold apply
  cases value with
  | some v => exact SortedMap.get_put
  | none => exact SortedMap.get_erase

theorem get_applyAll_of_notMem (h : k ∉ writes.map Prod.fst) :
    (applyAll m writes).get k = m.get k := by
  induction writes generalizing m with
  | nil => rfl
  | cons w writes ih =>
    rw [List.map_cons, List.mem_cons, not_or] at h
    change (applyAll (apply m w) writes).get k = _
    rw [ih h.2, get_apply, if_neg h.1]

/-- What is written last does not depend on the map. -/
theorem get_applyAll_of_mem (h : k ∈ writes.map Prod.fst) :
    (applyAll m writes).get k = (applyAll m' writes).get k := by
  induction writes generalizing m m' with
  | nil => simp at h
  | cons w writes ih =>
    change (applyAll (apply m w) writes).get k = (applyAll (apply m' w) writes).get k
    by_cases hlater : k ∈ writes.map Prod.fst
    · exact ih hlater
    · rw [List.map_cons, List.mem_cons] at h
      rw [get_applyAll_of_notMem hlater, get_applyAll_of_notMem hlater, get_apply, get_apply,
        if_pos (h.resolve_right hlater), if_pos (h.resolve_right hlater)]

theorem applyAll_append {later : List (Write K V)} :
    applyAll m (writes ++ later) = applyAll (applyAll m writes) later := List.foldl_append

namespace Store

def start (m : SortedMap K V) : Store ι K V where
  committed := m
  pending := fun _ => []

/-- What a transaction reads: the committed map through its own writes. -/
def view (s : Store ι K V) (i : ι) : SortedMap K V := applyAll s.committed (s.pending i)

section

variable [DecidableEq ι]

def write (s : Store ι K V) (i : ι) (w : Write K V) : Store ι K V where
  committed := s.committed
  pending := Function.update s.pending i (s.pending i ++ [w])

def commit (s : Store ι K V) (i : ι) : Store ι K V where
  committed := s.view i
  pending := Function.update s.pending i []

/-- The end of a transaction that is not committed. -/
def drop (s : Store ι K V) (i : ι) : Store ι K V where
  committed := s.committed
  pending := Function.update s.pending i []

end

def Pending (s : Store ι K V) (i : ι) (k : K) : Prop := k ∈ (s.pending i).map Prod.fst

/-- Another transaction has written the key and not committed it. -/
def Held (s : Store ι K V) (i : ι) (k : K) : Prop := ∃ j, j ≠ i ∧ s.Pending j k

/-- A transaction that does not hold a key reads what is committed of it. -/
theorem get_view_of_not_pending (h : ¬s.Pending i k) : (s.view i).get k = s.committed.get k :=
  get_applyAll_of_notMem h

section

variable [DecidableEq ι]

theorem view_write : (s.write i w).view i = apply (s.view i) w := by
  have hpending : (s.write i w).pending i = s.pending i ++ [w] := Function.update_self ..
  rw [view, hpending, applyAll_append]
  rfl

theorem view_write_of_ne (h : j ≠ i) : (s.write i w).view j = s.view j := by
  have hpending : (s.write i w).pending j = s.pending j := Function.update_of_ne h ..
  rw [view, hpending]
  rfl

theorem view_commit : (s.commit i).view i = s.view i := by
  have hpending : (s.commit i).pending i = [] := Function.update_self ..
  rw [view, hpending]
  rfl

theorem pending_write : (s.write i w).Pending j k ↔ s.Pending j k ∨ j = i ∧ k = w.1 := by
  unfold Pending write
  by_cases h : j = i
  · subst h
    simp
  · simp [h]

theorem pending_commit : (s.commit i).Pending j k ↔ j ≠ i ∧ s.Pending j k := by
  unfold Pending commit
  by_cases h : j = i
  · subst h
    simp
  · simp [h]

end

end Store

/-- All writes together are the map: no two transactions hold one key, each reads its own keys
as the map has them, and a key that nobody holds is committed. -/
structure Serial (s : Store ι K V) (m : SortedMap K V) : Prop where
  apart : ∀ {i j k}, s.Pending i k → s.Pending j k → i = j
  own : ∀ {i k}, s.Pending i k → (s.view i).get k = m.get k
  rest : ∀ {k}, (∀ i, ¬s.Pending i k) → s.committed.get k = m.get k

namespace Serial

theorem start (m : SortedMap K V) : Serial (Store.start m : Store ι K V) m where
  apart := fun h => by simp [Store.Pending, Store.start] at h
  own := fun h => by simp [Store.Pending, Store.start] at h
  rest := fun _ => rfl

/-- What a transaction reads of a key that no other one holds is what the map says. -/
theorem get_view (h : Serial s m) (hfree : ¬s.Held i k) : (s.view i).get k = m.get k := by
  by_cases hpending : s.Pending i k
  · exact h.own hpending
  · rw [Store.get_view_of_not_pending hpending]
    apply h.rest
    intro j hj
    by_cases hji : j = i
    · exact hpending (hji ▸ hj)
    · exact hfree ⟨j, hji, hj⟩

/-- When nothing is pending the map is committed. -/
theorem committed_eq (h : Serial s m) (hended : ∀ i, s.pending i = []) : s.committed = m := by
  apply SortedMap.ext_get
  intro k
  apply h.rest
  intro i
  simp [Store.Pending, hended i]

variable [DecidableEq ι]

theorem write (h : Serial s m) (hfree : ¬s.Held i w.1) : Serial (s.write i w) (apply m w) where
  apart := by
    intro j j' k hj hj'
    rw [Store.pending_write] at hj hj'
    rcases hj with hj | ⟨rfl, rfl⟩
    · rcases hj' with hj' | ⟨rfl, rfl⟩
      · exact h.apart hj hj'
      · by_contra hne
        exact hfree ⟨j, hne, hj⟩
    · rcases hj' with hj' | ⟨rfl, -⟩
      · by_contra hne
        exact hfree ⟨j', Ne.symm hne, hj'⟩
      · rfl
  own := by
    intro j k hj
    rw [Store.pending_write] at hj
    by_cases hji : j = i
    · subst hji
      rw [Store.view_write, get_apply, get_apply]
      split
      next => rfl
      next hne => exact h.own (hj.resolve_right fun hboth => hne hboth.2)
    · have hold := hj.resolve_right fun hboth => hji hboth.1
      have hne : k ≠ w.1 := fun heq => hfree ⟨j, hji, heq ▸ hold⟩
      rw [Store.view_write_of_ne hji, h.own hold, get_apply, if_neg hne]
  rest := by
    intro k hnone
    simp only [Store.pending_write, not_or, not_and] at hnone
    rw [get_apply, if_neg ((hnone i).2 rfl)]
    exact h.rest fun j => (hnone j).1

theorem commit (h : Serial s m) (i : ι) : Serial (s.commit i) m where
  apart := by
    intro j j' k hj hj'
    rw [Store.pending_commit] at hj hj'
    exact h.apart hj.2 hj'.2
  own := by
    intro j k hj
    have hold := Store.pending_commit.mp hj
    have hview : ((s.commit i).view j).get k = (s.view j).get k := by
      have hpending : (s.commit i).pending j = s.pending j := Function.update_of_ne hold.1 _ _
      rw [Store.view, hpending]
      exact get_applyAll_of_mem hold.2
    rw [hview]
    exact h.own hold.2
  rest := by
    intro k hnone
    apply h.get_view
    rintro ⟨j, hji, hj⟩
    exact hnone j (Store.pending_commit.mpr ⟨hji, hj⟩)

/-- A transaction that ends without a commit loses nothing exactly when it reads what is
committed. -/
theorem drop_iff (h : Serial s m) : Serial (s.drop i) m ↔ s.view i = s.committed := by
  have hpending : ∀ {j k}, (s.drop i).Pending j k ↔ j ≠ i ∧ s.Pending j k := Store.pending_commit
  constructor
  · intro hdrop
    apply SortedMap.ext_get
    intro k
    by_cases hk : s.Pending i k
    · rw [h.own hk]
      refine (hdrop.rest fun j hj => ?_).symm
      obtain ⟨hji, hold⟩ := hpending.mp hj
      exact hji (h.apart hold hk)
    · exact Store.get_view_of_not_pending hk
  · intro hview
    have heq : s.drop i = s.commit i := by rw [Store.drop, Store.commit, hview]
    rw [heq]
    exact h.commit i

end Serial

/-- What a transaction does to the store. -/
inductive Act (K V : Type)
  | write (w : Write K V)
  | commit

namespace Act

def written : Act K V → Option (Write K V)
  | .write w => some w
  | .commit => none

variable [DecidableEq ι]

def perform (i : ι) (s : Store ι K V) : Act K V → Store ι K V
  | .write w => s.write i w
  | .commit => s.commit i

def performAll (i : ι) (s : Store ι K V) (acts : List (Act K V)) : Store ι K V :=
  acts.foldl (perform i) s

variable {act : Act K V} {acts : List (Act K V)}

/-- The acts of a transaction do not matter to whether the other ones hold a key. -/
theorem held_perform : (act.perform i s).Held i k ↔ s.Held i k := by
  apply exists_congr
  intro j
  apply and_congr_right
  intro hji
  cases act with
  | write w =>
    rw [perform, Store.pending_write]
    exact or_iff_left fun hboth => hji hboth.1
  | commit =>
    rw [perform, Store.pending_commit]
    exact and_iff_right hji

omit [LinearOrder K] in
theorem written_writes : (writes.map Act.write).filterMap Act.written = writes := by
  rw [List.filterMap_map]
  exact List.filterMap_some

/-- The keys that are pending after writes. -/
theorem pending_writes (h : (performAll i s (writes.map Act.write)).Pending j k) :
    s.Pending j k ∨ k ∈ writes.map Prod.fst := by
  induction writes generalizing s with
  | nil => exact .inl h
  | cons w writes ih =>
    rw [List.map_cons, List.mem_cons]
    rcases ih h with hbefore | hlater
    · rcases Store.pending_write.mp hbefore with hold | ⟨-, heq⟩
      · exact .inl hold
      · exact .inr (.inl heq)
    · exact .inr (.inr hlater)

theorem performAll_pending_of_ne (h : j ≠ i) :
    (performAll i s acts).pending j = s.pending j := by
  induction acts generalizing s with
  | nil => rfl
  | cons act acts ih =>
    have hact : (act.perform i s).pending j = s.pending j := by
      cases act with
      | write w => exact Function.update_of_ne h ..
      | commit => exact Function.update_of_ne h ..
    change (performAll i (act.perform i s) acts).pending j = _
    rw [ih, hact]

end Act

/-- Acts that write no key of another transaction carry their writes out on the map. -/
theorem Serial.performAll [DecidableEq ι] {acts : List (Act K V)} (h : Serial s m)
    (hfree : ∀ w ∈ acts.filterMap Act.written, ¬s.Held i w.1) :
    Serial (Act.performAll i s acts) (applyAll m (acts.filterMap Act.written)) := by
  induction acts generalizing s m with
  | nil => exact h
  | cons act acts ih =>
    have hlater : ∀ w ∈ acts.filterMap Act.written, ¬(act.perform i s).Held i w.1 := by
      intro w hw
      rw [Act.held_perform]
      apply hfree
      rw [List.filterMap_cons]
      split
      next => exact hw
      next => exact List.mem_cons_of_mem _ hw
    cases act with
    | write w => exact ih (h.write (hfree w List.mem_cons_self)) hlater
    | commit => exact ih (h.commit i) hlater

end PendingWrites
