import Mathlib.Data.List.Sort

namespace DelimitedTokens

variable {α : Type}

/-- The positions from `i` up to `j` hold a part of the list that is not empty, has no
delimiter, and ends on both sides at a delimiter or at the end of the list. -/
structure IsToken (delimiter : α) (s : List α) (i j : ℕ) : Prop where
  nonempty : i < j
  bounded : j ≤ s.length
  free : ∀ k, i ≤ k → k < j → s[k]? ≠ some delimiter
  left : ∀ k, k + 1 = i → s[k]? = some delimiter
  right : j < s.length → s[j]? = some delimiter

def slice (s : List α) (span : ℕ × ℕ) : List α := (s.drop span.1).take (span.2 - span.1)

/-- The spans are those of all tokens that start before `stop`, from left to right. -/
structure SpansBefore (delimiter : α) (s : List α) (stop : ℕ) (spans : List (ℕ × ℕ)) : Prop where
  sorted : spans.Pairwise fun a b => a.1 < b.1
  complete : ∀ span, span ∈ spans ↔ IsToken delimiter s span.1 span.2 ∧ span.1 < stop

/-- The tokens of the list, from left to right. -/
def Tokenizes (delimiter : α) (s : List α) (tokens : List (List α)) : Prop :=
  ∃ spans, SpansBefore delimiter s s.length spans ∧ tokens = spans.map (slice s)

variable {delimiter : α} {s t : List α} {i j stop : ℕ} {spans : List (ℕ × ℕ)}

theorem IsToken.start_lt (h : IsToken delimiter s i j) : i < s.length :=
  Nat.lt_of_lt_of_le h.nonempty h.bounded

/-- A token is as long as it can be. -/
theorem IsToken.stop_unique {j' : ℕ} (h : IsToken delimiter s i j)
    (h' : IsToken delimiter s i j') : j = j' := by
  have hb := h.bounded
  have hb' := h'.bounded
  have hn := h.nonempty
  have hn' := h'.nonempty
  rcases Nat.lt_trichotomy j j' with hlt | heq | hgt
  · exact absurd (h.right (by omega)) (h'.free j (by omega) hlt)
  · exact heq
  · exact absurd (h'.right (by omega)) (h.free j' (by omega) hgt)

theorem Tokenizes.unique {tokens tokens' : List (List α)} (h : Tokenizes delimiter s tokens)
    (h' : Tokenizes delimiter s tokens') : tokens = tokens' := by
  obtain ⟨spans, hs, rfl⟩ := h
  obtain ⟨spans', hs', rfl⟩ := h'
  have hsame : ∀ span, span ∈ spans ↔ span ∈ spans' := fun span =>
    (hs.complete span).trans (hs'.complete span).symm
  have hne : ∀ {l : List (ℕ × ℕ)}, l.Pairwise (fun a b => a.1 < b.1) → l.Nodup := fun hl =>
    hl.imp fun hlt heq => absurd hlt (by rw [heq]; exact Nat.lt_irrefl _)
  have hperm := (List.perm_ext_iff_of_nodup (hne hs.sorted) (hne hs'.sorted)).mpr hsame
  rw [hperm.eq_of_pairwise (fun a b _ _ hab hba => by omega) hs.sorted hs'.sorted]

theorem SpansBefore.zero : SpansBefore delimiter s 0 [] :=
  ⟨.nil, fun span => by simp⟩

/-- Between two delimiters there is no token. -/
theorem SpansBefore.skip (h : SpansBefore delimiter s stop spans) (start : ℕ)
    (hgap : ∀ k, stop ≤ k → k < start → k < s.length → s[k]? = some delimiter) :
    SpansBefore delimiter s (max stop start) spans := by
  refine ⟨h.sorted, fun span => ?_⟩
  rw [h.complete span]
  refine and_congr_right fun htoken => ⟨fun hlt => by omega, fun hlt => ?_⟩
  by_contra hge
  exact htoken.free span.1 le_rfl htoken.nonempty
    (hgap span.1 (by omega) (by omega) htoken.start_lt)

/-- No token starts behind the end. -/
theorem SpansBefore.tokenizes (h : SpansBefore delimiter s stop spans) (hstop : s.length ≤ stop) :
    Tokenizes delimiter s (spans.map (slice s)) := by
  refine ⟨spans, ⟨h.sorted, fun span => ?_⟩, rfl⟩
  rw [h.complete span]
  exact and_congr_right fun htoken =>
    ⟨fun _ => htoken.start_lt, fun hlt => Nat.lt_of_lt_of_le hlt hstop⟩

/-- Behind a token there is no other one before the next delimiter. -/
theorem SpansBefore.snoc (h : SpansBefore delimiter s i spans) (htoken : IsToken delimiter s i j) :
    SpansBefore delimiter s j (spans ++ [(i, j)]) := by
  constructor
  · rw [List.pairwise_append]
    refine ⟨h.sorted, List.pairwise_singleton _ _, fun a ha b hb => ?_⟩
    cases List.mem_singleton.mp hb
    exact ((h.complete a).mp ha).2
  · intro span
    rw [List.mem_append, h.complete span, List.mem_singleton]
    constructor
    · rintro (⟨hspan, hlt⟩ | rfl)
      · exact ⟨hspan, hlt.trans htoken.nonempty⟩
      · exact ⟨htoken, htoken.nonempty⟩
    · rintro ⟨hspan, hlt⟩
      rcases Nat.lt_trichotomy span.1 i with hbefore | heq | hafter
      · exact Or.inl ⟨hspan, hbefore⟩
      · right
        have hstop := htoken.stop_unique (heq ▸ hspan)
        exact Prod.ext heq hstop.symm
      · have hleft := hspan.left (span.1 - 1) (by omega)
        exact absurd hleft (htoken.free (span.1 - 1) (by omega) (by omega))

section Append

theorem getElem?_append_delimiter_lt {k : ℕ} (h : k < t.length) :
    (t ++ delimiter :: s)[k]? = t[k]? :=
  List.getElem?_append_left h

theorem getElem?_append_delimiter_ge (delimiter : α) (s t : List α) (k : ℕ) :
    (t ++ delimiter :: s)[k + (t.length + 1)]? = s[k]? := by
  rw [List.getElem?_append_right (by omega), show k + (t.length + 1) - t.length = k + 1 by omega,
    List.getElem?_cons_succ]

theorem getElem?_append_delimiter_self : (t ++ delimiter :: s)[t.length]? = some delimiter := by
  simp

theorem getElem?_ne_of_not_mem (h : delimiter ∉ t) (k : ℕ) : t[k]? ≠ some delimiter :=
  fun hk => h (List.mem_of_getElem? hk)

/-- A list without the delimiter is one token. -/
theorem isToken_whole (hne : t ≠ []) (hfree : delimiter ∉ t) :
    IsToken delimiter t 0 t.length where
  nonempty := List.length_pos_iff.mpr hne
  bounded := le_rfl
  free k _ _ := getElem?_ne_of_not_mem hfree k
  left _ h := absurd h (by omega)
  right h := absurd h (by omega)

theorem isToken_head (hne : t ≠ []) (hfree : delimiter ∉ t) :
    IsToken delimiter (t ++ delimiter :: s) 0 t.length where
  nonempty := List.length_pos_iff.mpr hne
  bounded := by simp
  free k _ hk := getElem?_append_delimiter_lt hk ▸ getElem?_ne_of_not_mem hfree k
  left _ h := absurd h (by omega)
  right _ := getElem?_append_delimiter_self

/-- The tokens behind the first delimiter are those of the rest, moved. -/
theorem isToken_append_iff (t : List α) :
    IsToken delimiter (t ++ delimiter :: s) (i + (t.length + 1)) (j + (t.length + 1)) ↔
      IsToken delimiter s i j := by
  have hlength : (t ++ delimiter :: s).length = s.length + (t.length + 1) := by
    simp only [List.length_append, List.length_cons]
    omega
  constructor
  · intro h
    refine ⟨by have := h.nonempty; omega, by have := h.bounded; omega, fun k hi hj => ?_,
      fun k hk => ?_, fun hj => ?_⟩
    · rw [← getElem?_append_delimiter_ge delimiter s t]
      exact h.free _ (by omega) (by omega)
    · rw [← getElem?_append_delimiter_ge delimiter s t]
      exact h.left _ (by omega)
    · rw [← getElem?_append_delimiter_ge delimiter s t]
      exact h.right (by omega)
  · intro h
    refine ⟨by have := h.nonempty; omega, by have := h.bounded; omega, fun k hi hj => ?_,
      fun k hk => ?_, fun hj => ?_⟩
    · obtain ⟨k, rfl⟩ := Nat.exists_eq_add_of_le' (show t.length + 1 ≤ k by omega)
      rw [getElem?_append_delimiter_ge]
      exact h.free k (by omega) (by omega)
    · cases i with
      | zero => rw [show k = t.length by omega, getElem?_append_delimiter_self]
      | succ i =>
        rw [show k = i + (t.length + 1) by omega, getElem?_append_delimiter_ge]
        exact h.left i rfl
    · rw [getElem?_append_delimiter_ge]
      exact h.right (by omega)

/-- The span of a token of the rest, in a list with `n` more elements in front. -/
def shift (n : ℕ) (span : ℕ × ℕ) : ℕ × ℕ := (span.1 + n, span.2 + n)

theorem slice_head : slice (t ++ delimiter :: s) (0, t.length) = t := by
  simp [slice]

theorem slice_shift (span : ℕ × ℕ) :
    slice (t ++ delimiter :: s) (shift (t.length + 1) span) = slice s span := by
  have hdrop : (t ++ delimiter :: s).drop (span.1 + (t.length + 1)) = s.drop span.1 := by
    rw [Nat.add_comm, ← List.drop_drop, ← List.drop_drop, List.drop_left, List.drop_one,
      List.tail_cons]
  rw [slice, slice, shift, hdrop, Nat.add_sub_add_right]

theorem Tokenizes.cons {tokens : List (List α)} (h : Tokenizes delimiter s tokens)
    (hne : t ≠ []) (hfree : delimiter ∉ t) :
    Tokenizes delimiter (t ++ delimiter :: s) (t :: tokens) := by
  obtain ⟨spans, hs, rfl⟩ := h
  have hhead := isToken_head (s := s) hne hfree
  refine ⟨(0, t.length) :: spans.map (shift (t.length + 1)), ⟨?_, fun span => ?_⟩, ?_⟩
  · rw [List.pairwise_cons, List.pairwise_map]
    refine ⟨fun span hspan => ?_, hs.sorted.imp fun hlt => Nat.add_lt_add_right hlt _⟩
    obtain ⟨_, _, rfl⟩ := List.mem_map.mp hspan
    exact Nat.succ_pos _
  · rw [List.mem_cons, List.mem_map]
    constructor
    · rintro (rfl | ⟨span, hspan, rfl⟩)
      · exact ⟨hhead, hhead.start_lt⟩
      · have htoken := (isToken_append_iff t).mpr ((hs.complete span).mp hspan).1
        exact ⟨htoken, htoken.start_lt⟩
    · rintro ⟨htoken, hlt⟩
      obtain ⟨i, j⟩ := span
      rcases Nat.lt_or_ge i (t.length + 1) with hi | hi
      · -- a token that starts in front of the first delimiter is the whole of `t`
        left
        have hzero : i = 0 := by
          by_contra hpos
          have hleft := htoken.left (i - 1) (by omega)
          rw [getElem?_append_delimiter_lt (by omega)] at hleft
          exact getElem?_ne_of_not_mem hfree _ hleft
        subst hzero
        exact Prod.ext rfl (htoken.stop_unique hhead)
      · right
        obtain ⟨i, rfl⟩ := Nat.exists_eq_add_of_le' hi
        obtain ⟨j, rfl⟩ := Nat.exists_eq_add_of_le' (show t.length + 1 ≤ j by
          have := htoken.nonempty
          omega)
        have hrest := (isToken_append_iff t).mp htoken
        exact ⟨(i, j), (hs.complete (i, j)).mpr ⟨hrest, hrest.start_lt⟩, rfl⟩
  · rw [List.map_cons, List.map_map, slice_head]
    congr 1
    exact List.map_congr_left fun span _ => (slice_shift span).symm

theorem tokenizes_nil : Tokenizes delimiter [] [] :=
  ⟨[], .zero, rfl⟩

theorem tokenizes_whole (hne : t ≠ []) (hfree : delimiter ∉ t) : Tokenizes delimiter t [t] := by
  have htoken := isToken_whole hne hfree
  exact ⟨[(0, t.length)], SpansBefore.zero.snoc htoken, by simp [slice]⟩

/-- Joining tokens with the delimiter between them loses none of them. -/
theorem tokenizes_intercalate {tokens : List (List α)}
    (h : ∀ token ∈ tokens, token ≠ [] ∧ delimiter ∉ token) :
    Tokenizes delimiter ([delimiter].intercalate tokens) tokens := by
  induction tokens with
  | nil => exact tokenizes_nil
  | cons token tokens ih =>
    rw [List.forall_mem_cons] at h
    cases tokens with
    | nil =>
      rw [List.intercalate_singleton]
      exact tokenizes_whole h.1.1 h.1.2
    | cons next tokens =>
      rw [List.intercalate_cons_cons, List.append_assoc]
      exact (ih h.2).cons h.1.1 h.1.2

end Append

end DelimitedTokens
