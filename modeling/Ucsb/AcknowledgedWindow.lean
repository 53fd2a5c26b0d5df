import Ucsb.CircularMarks
import Ucsb.Generators

namespace Ucsb

open CircularMarks

namespace AcknowledgedCounterGenerator

theorem slot_val (value : UInt64) : (slot value : ℕ) = value.toNat % windowSize := by
  have hmask : windowMask.toNat = 2 ^ 16 - 1 := rfl
  change (value &&& windowMask).toNat = _
  rw [UInt64.toNat_and, hmask, Nat.and_two_pow_sub_one_eq_mod]
  rfl

/-- The loop goes over the pending numbers that follow each other from its index on. -/
theorem roll_spec {n : ℕ} {i : UInt64} {window : Fin windowSize → Bool} {pending : ℕ → Prop}
    (h : Marks window pending) (hwithin : Within pending i.toNat n) (hn : n < windowSize)
    (hfit : i.toNat + n < 2 ^ 64) :
    ∃ m ≤ n, (roll n i window).1.toNat = i.toNat + m ∧
      (∀ x, i.toNat ≤ x → x < i.toNat + m → pending x) ∧ ¬pending (i.toNat + m) ∧
      Marks (roll n i window).2 fun x => pending x ∧ i.toNat + m ≤ x := by
  induction n generalizing i window pending with
  | zero =>
    have hnone : ∀ x, ¬pending x := fun x hx => by
      have := hwithin x hx
      omega
    refine ⟨0, le_rfl, rfl, fun x _ _ => by omega, hnone _, ?_⟩
    exact h.congr fun x => iff_of_false (hnone x) fun hx => hnone x hx.1
  | succ n ih =>
    have hall : Within pending i.toNat windowSize := fun x hx => by
      have := hwithin x hx
      omega
    have hself : i.toNat ≤ i.toNat ∧ i.toNat < i.toNat + windowSize := by omega
    have hmarked := h.marked_iff hall hself (slot_val i).symm
    rw [roll]
    split
    next hset =>
      have hi := hmarked.mp hset
      have hnext : (i + 1).toNat = i.toNat + 1 := by
        rw [UInt64.toNat_add, UInt64.toNat_one, Nat.mod_eq_of_lt (by omega)]
      have hrest : Within (fun x => pending x ∧ x ≠ i.toNat) (i + 1).toNat n := by
        rintro x ⟨hx, hne⟩
        have := hwithin x hx
        omega
      obtain ⟨m, hm, hend, hbelow, hstop, hmarks⟩ :=
        ih (h.clear hall hself (slot_val i).symm) hrest (by omega) (by omega)
      rw [hnext] at hend hbelow hstop hmarks
      have hsum : i.toNat + (m + 1) = i.toNat + 1 + m := by omega
      refine ⟨m + 1, by omega, ?_⟩
      rw [hsum]
      refine ⟨hend, ?_, ?_, hmarks.congr fun x => ?_⟩
      · intro x hlow hhigh
        by_cases heq : x = i.toNat
        · rwa [heq]
        · exact (hbelow x (by omega) (by omega)).1
      · exact fun hpending => hstop ⟨hpending, by omega⟩
      · constructor
        · exact fun hx => ⟨hx.1.1, hx.2⟩
        · exact fun hx => ⟨⟨hx.1, by omega⟩, hx.2⟩
    next hclear =>
      have hi : ¬pending i.toNat := fun hpending => hclear (hmarked.mpr hpending)
      refine ⟨0, by omega, rfl, fun x _ _ => by omega, hi, h.congr fun x => ?_⟩
      exact (and_iff_left_of_imp fun hx => (hwithin x hx).1).symm

/-- The value lies in the window behind the last one. -/
def InWindow (g : AcknowledgedCounterGenerator) (value : UInt64) : Prop :=
  g.last.toNat < value.toNat ∧ value.toNat < g.last.toNat + windowSize

/-- What the generator keeps of the acknowledged numbers: the end of those that follow each other
from the start on, and the slots of those behind it, which are all in its window. -/
structure Tracks (start : UInt64) (acknowledged : Set ℕ) (g : AcknowledgedCounterGenerator) :
    Prop where
  reached : start.toNat ≤ g.last.toNat + 1
  below : ∀ x, start.toNat ≤ x → x ≤ g.last.toNat → x ∈ acknowledged
  next : g.last.toNat + 1 ∉ acknowledged
  marks : Marks g.ackWindow fun x => x ∈ acknowledged ∧ g.last.toNat < x
  near : ∀ x ∈ acknowledged, x < g.last.toNat + windowSize

variable {start value : UInt64} {acknowledged : Set ℕ} {values : List UInt64}
  {g : AcknowledgedCounterGenerator}

theorem Tracks.isPrefixEnd (h : Tracks start acknowledged g) :
    IsPrefixEnd start.toNat acknowledged g.last.toNat :=
  isPrefixEnd_of_next h.reached h.below h.next

theorem make_tracks (hstart : 1 ≤ start) : Tracks start ∅ (make start) := by
  have hone : 1 ≤ start.toNat := UInt64.le_iff_toNat_le.mp hstart
  have hlast : (make start).last.toNat = start.toNat - 1 :=
    UInt64.toNat_sub_of_le _ _ hstart
  constructor
  · omega
  · intro x hlow hhigh
    omega
  · exact Set.notMem_empty _
  · intro slot
    simp [make]
  · simp

theorem acknowledge_of_clear (h : ¬g.ackWindow (slot value) = true) :
    g.acknowledge value = .ok { g with
      ackWindow := (roll ((g.limit + UInt64.ofNat windowSize).toNat - (g.limit + 1).toNat)
        (g.limit + 1) (Function.update g.ackWindow (slot value) true)).2
      limit := (roll ((g.limit + UInt64.ofNat windowSize).toNat - (g.limit + 1).toNat)
        (g.limit + 1) (Function.update g.ackWindow (slot value) true)).1 - 1 } := by
  rw [acknowledge, if_neg h]

/-- A loop that has gone over `m` numbers takes the value over. -/
theorem Tracks.rolled {rolled : UInt64 × (Fin windowSize → Bool)} {first m : ℕ}
    (h : Tracks start acknowledged g) (hwindow : g.InWindow value)
    (hfirst : first = g.last.toNat + 1) (hend : rolled.1.toNat = first + m)
    (hall : ∀ x, first ≤ x → x < first + m →
      (x ∈ acknowledged ∧ g.last.toNat < x) ∨ x = value.toNat)
    (hstop : ¬((first + m ∈ acknowledged ∧ g.last.toNat < first + m) ∨ first + m = value.toNat))
    (hmarks : Marks rolled.2 fun x =>
      ((x ∈ acknowledged ∧ g.last.toNat < x) ∨ x = value.toNat) ∧ first + m ≤ x) :
    Tracks start (insert value.toNat acknowledged)
      { g with ackWindow := rolled.2, limit := rolled.1 - 1 } := by
  subst hfirst
  obtain ⟨hbehind, hahead⟩ := hwindow
  have hpending : ∀ x, g.last.toNat < x → (x ∈ insert value.toNat acknowledged ↔
      (x ∈ acknowledged ∧ g.last.toNat < x) ∨ x = value.toNat) := fun x hx => by
    rw [Set.mem_insert_iff, and_iff_left hx]
    exact or_comm
  let g' : AcknowledgedCounterGenerator := { g with ackWindow := rolled.2, limit := rolled.1 - 1 }
  have hlast : g'.last.toNat = g.last.toNat + m := by
    have hone : (1 : UInt64) ≤ rolled.1 := by
      rw [UInt64.le_iff_toNat_le, UInt64.toNat_one]
      omega
    have hpred : g'.last.toNat = rolled.1.toNat - 1 := UInt64.toNat_sub_of_le _ _ hone
    omega
  change Tracks start _ g'
  refine ⟨?_, ?_, ?_, ?_, ?_⟩
  · have := h.reached
    omega
  · intro x hlow hhigh
    by_cases hx : x ≤ g.last.toNat
    · exact Set.mem_insert_of_mem _ (h.below x hlow hx)
    · exact (hpending x (by omega)).mpr (hall x (by omega) (by omega))
  · rw [hlast, hpending _ (by omega), Nat.add_right_comm]
    exact hstop
  · refine hmarks.congr fun x => ?_
    rw [hlast]
    constructor
    · rintro ⟨hx, hle⟩
      exact ⟨(hpending x (by omega)).mpr hx, by omega⟩
    · rintro ⟨hx, hlt⟩
      exact ⟨(hpending x (by omega)).mp hx, by omega⟩
  · intro x hx
    rw [hlast]
    rcases Set.mem_insert_iff.mp hx with rfl | hold
    · omega
    · have := h.near x hold
      omega

/-- A value that is in the window and not yet acknowledged is taken over. -/
theorem Tracks.acknowledge (h : Tracks start acknowledged g) (hwindow : g.InWindow value)
    (hfit : g.last.toNat + windowSize < 2 ^ 64) (hnew : value.toNat ∉ acknowledged) :
    ∃ g', g.acknowledge value = .ok g' ∧ Tracks start (insert value.toNat acknowledged) g' := by
  obtain ⟨hbehind, hahead⟩ := hwindow
  have hsize : windowSize = 2 ^ 16 := rfl
  have hlimit : g.limit.toNat = g.last.toNat := rfl
  have hround : Within (fun x => x ∈ acknowledged ∧ g.last.toNat < x) (g.last.toNat + 1)
      windowSize := fun x hx => by
    have := h.near x hx.1
    omega
  have hclear : ¬g.ackWindow (slot value) = true := fun hset =>
    hnew ((h.marks.marked_iff hround (by omega) (slot_val value).symm).mp hset).1
  have hnext : (g.limit + 1).toNat = g.last.toNat + 1 := by
    rw [UInt64.toNat_add, UInt64.toNat_one, hlimit, Nat.mod_eq_of_lt (by omega)]
  have hbound : (g.limit + UInt64.ofNat windowSize).toNat = g.last.toNat + windowSize := by
    have hword : (UInt64.ofNat windowSize).toNat = windowSize := rfl
    rw [UInt64.toNat_add, hword, hlimit, Nat.mod_eq_of_lt hfit]
  have hmarks := h.marks.mark (slot_val value).symm
  have hwithin : Within (fun x => (x ∈ acknowledged ∧ g.last.toNat < x) ∨ x = value.toNat)
      (g.limit + 1).toNat ((g.limit + UInt64.ofNat windowSize).toNat - (g.limit + 1).toNat) := by
    rintro x (hx | rfl)
    · have := h.near x hx.1
      omega
    · omega
  obtain ⟨m, hm, hend, hall, hstop, hleft⟩ := roll_spec hmarks hwithin (by omega) (by omega)
  rw [acknowledge_of_clear hclear]
  exact ⟨_, rfl, h.rolled ⟨hbehind, hahead⟩ hnext hend hall hstop hleft⟩

/-- Calls of `acknowledge` one after another. -/
def acknowledgeAll (g : AcknowledgedCounterGenerator) (values : List UInt64) :
    Except Fault AcknowledgedCounterGenerator := values.foldlM acknowledge g

theorem acknowledgeAll_concat (g : AcknowledgedCounterGenerator) (values : List UInt64)
    (value : UInt64) :
    g.acknowledgeAll (values ++ [value]) = g.acknowledgeAll values >>= (·.acknowledge value) := by
  rw [acknowledgeAll, List.foldlM_append]
  refine bind_congr fun g => ?_
  simp

/-- The numbers of acknowledged values. -/
def numbers (values : List UInt64) : Set ℕ := {x | ∃ v ∈ values, v.toNat = x}

theorem numbers_concat (values : List UInt64) (value : UInt64) :
    numbers (values ++ [value]) = insert value.toNat (numbers values) := by
  ext x
  simp only [numbers, Set.mem_ofPred_eq, List.mem_append, List.mem_singleton, Set.mem_insert_iff]
  constructor
  · rintro ⟨v, hv | rfl, heq⟩
    · exact Or.inr ⟨v, hv, heq⟩
    · exact Or.inl heq.symm
  · rintro (heq | ⟨v, hv, heq⟩)
    · exact ⟨value, Or.inr rfl, heq.symm⟩
    · exact ⟨v, Or.inl hv, heq⟩

theorem mem_numbers : value.toNat ∈ numbers values ↔ value ∈ values := by
  constructor
  · rintro ⟨v, hv, heq⟩
    exact UInt64.toNat_inj.mp heq ▸ hv
  · exact fun hvalue => ⟨value, hvalue, rfl⟩

theorem Tracks.marked_iff (h : Tracks start (numbers values) g) (other : Fin windowSize) :
    g.ackWindow other = true ↔ ∃ v ∈ values, g.last < v ∧ slot v = other := by
  rw [h.marks other]
  constructor
  · rintro ⟨x, ⟨⟨v, hv, rfl⟩, hlt⟩, heq⟩
    exact ⟨v, hv, UInt64.lt_iff_toNat_lt.mpr hlt, Fin.ext ((slot_val v).trans heq)⟩
  · rintro ⟨v, hv, hlt, rfl⟩
    exact ⟨v.toNat, ⟨⟨v, hv, rfl⟩, UInt64.lt_iff_toNat_lt.mp hlt⟩, (slot_val v).symm⟩

theorem acknowledgeAll_tracks (hstart : 1 ≤ start) (hnodup : values.Nodup)
    (hbound : ∀ v ∈ values, v.toNat < 2 ^ 64 - 2 ^ 16)
    (hwindow : ∀ (i : ℕ) (v : UInt64) (g : AcknowledgedCounterGenerator), values[i]? = some v →
      (make start).acknowledgeAll (values.take i) = .ok g → g.InWindow v) {k : ℕ}
    (hk : k ≤ values.length) :
    ∃ g, (make start).acknowledgeAll (values.take k) = .ok g ∧
      Tracks start (numbers (values.take k)) g := by
  induction k with
  | zero =>
    refine ⟨make start, rfl, ?_⟩
    have hnone : numbers (values.take 0) = ∅ := by simp [numbers]
    rw [hnone]
    exact make_tracks hstart
  | succ k ih =>
    obtain ⟨g, hrun, htracks⟩ := ih (by omega)
    have hget := List.getElem?_eq_getElem (show k < values.length by omega)
    have hmem := List.mem_of_getElem? hget
    have hin := hwindow k _ g hget hrun
    have hsize : windowSize = 2 ^ 16 := rfl
    have hfit : g.last.toNat + windowSize < 2 ^ 64 := by
      have hlt := hbound _ hmem
      have hbehind := hin.1
      omega
    have hsplit := List.take_append_getElem (show k < values.length by omega)
    have hfirst : (values.take k ++ [values[k]]).Nodup := by
      rw [hsplit]
      exact hnodup.sublist (List.take_sublist _ _)
    have hnew : (values[k]).toNat ∉ numbers (values.take k) := fun htaken =>
      (List.nodup_append.mp hfirst).2.2 _ (mem_numbers.mp htaken) _ (List.mem_singleton_self _) rfl
    obtain ⟨g', hcall, htracks'⟩ := htracks.acknowledge hin hfit hnew
    rw [← numbers_concat, hsplit] at htracks'
    refine ⟨g', ?_, htracks'⟩
    rw [← hsplit, acknowledgeAll_concat, hrun]
    exact hcall

/-- Values that are acknowledged once each, in any order but all within the window at the time,
never throw; the last one is always the end of those acknowledged without a gap, and the marked
slots are those of the acknowledged values behind it. -/
theorem acknowledge_exact (hstart : 1 ≤ start) (hnodup : values.Nodup)
    (hbound : ∀ v ∈ values, v.toNat < 2 ^ 64 - 2 ^ 16)
    (hwindow : ∀ (i : ℕ) (v : UInt64) (g : AcknowledgedCounterGenerator), values[i]? = some v →
      (make start).acknowledgeAll (values.take i) = .ok g → g.InWindow v) :
    ∀ k ≤ values.length, ∃ g, (make start).acknowledgeAll (values.take k) = .ok g ∧
      IsPrefixEnd start.toNat (numbers (values.take k)) g.last.toNat ∧
      ∀ other, g.ackWindow other = true ↔ ∃ v ∈ values.take k, g.last < v ∧ slot v = other := by
  intro k hk
  obtain ⟨g, hrun, htracks⟩ := acknowledgeAll_tracks hstart hnodup hbound hwindow hk
  exact ⟨g, hrun, htracks.isPrefixEnd, htracks.marked_iff⟩

theorem acknowledge_exact_two :
    ∃ g, (make 1).acknowledgeAll [2, 1] = .ok g ∧
      IsPrefixEnd (1 : UInt64).toNat (numbers [2, 1]) g.last.toNat := by
  have hrounds : (UInt64.ofNat windowSize).toNat - (1 : UInt64).toNat = 65534 + 1 := by decide
  have hfirst : ∀ g, (make 1).acknowledge 2 = .ok g → g.last = 0 := fun g hg => by
    cases Except.ok.inj hg
    change (roll ((UInt64.ofNat windowSize).toNat - (1 : UInt64).toNat) 1 _).1 - 1 = 0
    rw [hrounds, roll, if_neg (by decide)]
    rfl
  have hbound : ∀ v ∈ [(2 : UInt64), 1], v.toNat < 2 ^ 64 - 2 ^ 16 :=
    List.forall_mem_cons.mpr ⟨by decide, List.forall_mem_singleton.mpr (by decide)⟩
  obtain ⟨g, hrun, hend, -⟩ := acknowledge_exact (by decide : (1 : UInt64) ≤ 1)
    (by decide : [(2 : UInt64), 1].Nodup) hbound (fun i v g hv hg => by
      match i with
      | 0 =>
        cases Option.some.inj hv
        cases Except.ok.inj hg
        exact ⟨by decide, by decide⟩
      | 1 =>
        cases Option.some.inj hv
        have hlast : g.last = 0 := by
          have htake : [(2 : UInt64), 1].take 1 = [] ++ [2] := rfl
          have hnone : (make 1).acknowledgeAll [] = .ok (make 1) := rfl
          rw [htake, acknowledgeAll_concat, hnone, ExceptRules.ok_bind] at hg
          exact hfirst g hg
        exact ⟨by rw [hlast]; decide, by rw [hlast]; decide⟩
      | i + 2 => simp at hv) 2 le_rfl
  have htake : [(2 : UInt64), 1].take 2 = [2, 1] := rfl
  rw [htake] at hrun hend
  exact ⟨g, hrun, hend⟩

end AcknowledgedCounterGenerator

end Ucsb
