import Ucsb.SortedMap
import Mathlib.Algebra.Order.Ring.Int
import Mathlib.Tactic.Linarith

/-! Reading a map with integer keys in chunks, where the next chunk starts as many keys further
as the last one was asked for. -/

namespace SortedMap

variable {V : Type} {m : SortedMap ℤ V} {key : ℤ} {limit : ℕ}

/-- The entries of all chunks, by a bound on their number. -/
def chunks (m : SortedMap ℤ V) (limit : ℕ) : ℕ → ℤ → ℕ → List (ℤ × V)
  | 0, _, _ => []
  | rounds + 1, key, remaining =>
    if remaining = 0 then []
    else
      let len := min limit remaining
      (m.seek key).take len ++ chunks m limit rounds (key + len) (remaining - len)

/-- At every border between two chunks the entries so far are below it. -/
def Dense (m : SortedMap ℤ V) (limit : ℕ) (key : ℤ) (total : ℕ) : Prop :=
  ∀ j, 0 < j → j * limit < total →
    ∀ e ∈ (m.seek key).take (j * limit), e.1 < key + (j * limit : ℕ)

theorem le_of_getElem?_seek {i : ℕ} {e : ℤ × V} (h : (m.seek key)[i]? = some e) :
    key + i ≤ e.1 := by
  induction i generalizing e with
  | zero =>
    have hmem := mem_seek.mp (List.mem_of_getElem? h)
    simpa using hmem.2
  | succ i ih =>
    obtain ⟨hi, rfl⟩ := List.getElem?_eq_some_iff.mp h
    have hprev := ih (List.getElem?_eq_getElem (by omega))
    have hlt := List.pairwise_iff_getElem.mp (m.sorted_seek key) i (i + 1) (by omega) hi (by omega)
    push_cast
    omega

/-- Below the border there is only the chunk, so the rest is what the border is sought for. -/
theorem seek_add_eq_drop {len : ℕ}
    (h : ∀ e ∈ (m.seek key).take len, e.1 < key + len) :
    m.seek (key + len) = (m.seek key).drop len := by
  have hseek : m.seek (key + len) = (m.seek key).filter fun e => decide (key + len ≤ e.1) := by
    rw [seek, seek, List.filter_filter]
    apply List.filter_congr
    intro e _
    by_cases hle : key + len ≤ e.1
    · have : key ≤ e.1 := by omega
      simp [hle, this]
    · simp [hle]
  have hfirst : ((m.seek key).take len).filter (fun e => decide (key + len ≤ e.1)) = [] :=
    List.filter_eq_nil_iff.mpr fun e he => by
      have := h e he
      simp only [decide_eq_true_eq]
      omega
  have hrest : ((m.seek key).drop len).filter (fun e => decide (key + len ≤ e.1)) =
      (m.seek key).drop len := by
    refine List.filter_eq_self.mpr fun e he => ?_
    obtain ⟨i, hi⟩ := List.mem_iff_getElem?.mp he
    rw [List.getElem?_drop] at hi
    have := le_of_getElem?_seek hi
    push_cast at this
    simp only [decide_eq_true_eq]
    omega
  calc m.seek (key + len)
      = ((m.seek key).take len ++ (m.seek key).drop len).filter
          (fun e => decide (key + len ≤ e.1)) := by rw [List.take_append_drop, hseek]
    _ = (m.seek key).drop len := by rw [List.filter_append, hfirst, hrest, List.nil_append]

theorem take_succ_mul_seek {j : ℕ} (h : ∀ e ∈ (m.seek key).take limit, e.1 < key + limit) :
    (m.seek key).take ((j + 1) * limit) =
      (m.seek key).take limit ++ (m.seek (key + limit)).take (j * limit) := by
  rw [seek_add_eq_drop h, Nat.succ_mul, Nat.add_comm, List.take_add]

theorem Dense.tail {total : ℕ} (h : m.Dense limit key total) (htotal : limit < total) :
    (∀ e ∈ (m.seek key).take limit, e.1 < key + limit) ∧
      m.Dense limit (key + limit) (total - limit) := by
  have hfirst : ∀ e ∈ (m.seek key).take limit, e.1 < key + limit := by
    intro e he
    have hone := h 1 one_pos (by omega) e (by rwa [one_mul])
    rwa [one_mul] at hone
  refine ⟨hfirst, fun j hj hlt e he => ?_⟩
  have hsum : (j + 1) * limit = j * limit + limit := Nat.succ_mul j limit
  have hborder := h (j + 1) (Nat.succ_pos j) (by omega) e (by
    rw [take_succ_mul_seek hfirst]
    exact List.mem_append_right _ he)
  rw [hsum] at hborder
  push_cast at hborder ⊢
  omega

theorem Dense.cons {total : ℕ} (hfirst : ∀ e ∈ (m.seek key).take limit, e.1 < key + limit)
    (h : m.Dense limit (key + limit) (total - limit)) : m.Dense limit key total := by
  intro j hj hlt e he
  obtain ⟨i, rfl⟩ := Nat.exists_eq_succ_of_ne_zero hj.ne'
  have hsum : (i + 1) * limit = i * limit + limit := Nat.succ_mul i limit
  rw [Nat.succ_eq_add_one, take_succ_mul_seek hfirst, List.mem_append] at he
  rw [Nat.succ_eq_add_one, hsum] at hlt ⊢
  push_cast
  rcases he with he | he
  · have := hfirst e he
    have : (0 : ℤ) ≤ i * limit := mul_nonneg (Int.natCast_nonneg i) (Int.natCast_nonneg limit)
    omega
  · cases i with
    | zero => simp at he
    | succ i =>
      have hborder := h (i + 1) (Nat.succ_pos i) (by omega) e he
      push_cast at hborder ⊢
      linarith

/-- A map that is dense up to every border is read entry after entry. -/
theorem chunks_eq_take {rounds total : ℕ} (hlimit : 0 < limit) (hrounds : total ≤ rounds)
    (h : m.Dense limit key total) : m.chunks limit rounds key total = (m.seek key).take total := by
  induction rounds generalizing key total with
  | zero =>
    cases Nat.le_zero.mp hrounds
    rfl
  | succ rounds ih =>
    rw [chunks]
    split
    next hzero => rw [hzero, List.take_zero]
    next hne =>
      rcases Nat.lt_or_ge limit total with hlt | hle
      · obtain ⟨hfirst, htail⟩ := h.tail hlt
        have hlen : min limit total = limit := by omega
        simp only [hlen]
        rw [ih (by omega) htail, seek_add_eq_drop hfirst, ← List.take_add]
        congr 1
        omega
      · have hlen : min limit total = total := by omega
        have hnil : m.chunks limit rounds (key + total) 0 = [] := by cases rounds <;> rfl
        simp only [hlen]
        rw [Nat.sub_self, hnil, List.append_nil]

/-- The entry after a border is read, whatever is left to read. -/
theorem head_mem_chunks {rounds total : ℕ} {e : ℤ × V} {rest : List (ℤ × V)} (hlimit : 0 < limit)
    (htotal : 0 < total) (hrounds : total ≤ rounds) (h : m.seek key = e :: rest) :
    e ∈ m.chunks limit rounds key total := by
  obtain ⟨n, rfl⟩ := Nat.exists_eq_succ_of_ne_zero (show rounds ≠ 0 by omega)
  obtain ⟨len, hlen⟩ := Nat.exists_eq_succ_of_ne_zero (show min limit total ≠ 0 by omega)
  rw [chunks, if_neg htotal.ne']
  simp only [h, hlen, List.take_succ_cons]
  exact List.mem_append_left _ List.mem_cons_self

/-- When no entry is read twice, the map is dense up to every border. -/
theorem dense_of_nodup {rounds total : ℕ} (hlimit : 0 < limit) (hrounds : total ≤ rounds)
    (h : (m.chunks limit rounds key total).Nodup) : m.Dense limit key total := by
  induction rounds generalizing key total with
  | zero =>
    intro j hj hlt
    omega
  | succ rounds ih =>
    rcases Nat.lt_or_ge limit total with hlt | hle
    · have hlen : min limit total = limit := by omega
      rw [chunks, if_neg (by omega)] at h
      simp only [hlen] at h
      obtain ⟨-, hrest, hdisjoint⟩ := List.nodup_append.mp h
      refine Dense.cons (fun e he => ?_) (ih (by omega) hrest)
      by_contra hge
      have hseek : e ∈ m.seek (key + limit) :=
        mem_seek.mpr ⟨(mem_seek.mp (List.mem_of_mem_take he)).1, not_lt.mp hge⟩
      cases hcase : m.seek (key + limit) with
      | nil =>
        rw [hcase] at hseek
        simp at hseek
      | cons f rest =>
        -- the first entry behind the border is read again
        have hagain : f ∈ m.chunks limit rounds (key + limit) (total - limit) :=
          head_mem_chunks hlimit (by omega) (by omega) hcase
        have hf : f ∈ m.seek (key + limit) := hcase ▸ List.mem_cons_self
        have hle : f.1 ≤ e.1 := by
          have hsorted := m.sorted_seek (key + limit)
          rw [hcase] at hsorted hseek
          rcases List.mem_cons.mp hseek with rfl | hmem
          · exact le_rfl
          · exact ((List.pairwise_cons.mp hsorted).1 e hmem).le
        have hread : f ∈ (m.seek key).take limit := by
          obtain ⟨hentry, hborder⟩ := mem_seek.mp hf
          have hmem : f ∈ m.seek key := mem_seek.mpr ⟨hentry, by omega⟩
          have hsorted := m.sorted_seek key
          rw [← List.take_append_drop limit (m.seek key), List.mem_append] at hmem
          rw [← List.take_append_drop limit (m.seek key), List.pairwise_append] at hsorted
          refine hmem.resolve_right fun hdrop => ?_
          have := hsorted.2.2 e he f hdrop
          omega
        exact hdisjoint f hread f hagain rfl
    · intro j hj hlt
      have : limit ≤ j * limit := Nat.le_mul_of_pos_left limit hj
      omega

end SortedMap
