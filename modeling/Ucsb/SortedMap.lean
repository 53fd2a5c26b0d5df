import Mathlib.Order.Lattice
import Mathlib.Order.Monotone.Basic
import Mathlib.Data.List.Perm.Basic
import Mathlib.Data.List.Nodup
import Mathlib.Data.List.Pairwise

/-- A finite map, as the list of its entries in the order of their keys. -/
structure SortedMap (K V : Type) [LinearOrder K] where
  entries : List (K × V)
  sorted : entries.Pairwise fun a b => a.1 < b.1

namespace SortedMap

variable {K K' V : Type} [LinearOrder K] [LinearOrder K'] {m m' : SortedMap K V} {k k' : K} {v : V}

def empty : SortedMap K V := ⟨[], .nil⟩

instance : EmptyCollection (SortedMap K V) := ⟨empty⟩

def get (m : SortedMap K V) (k : K) : Option V :=
  (m.entries.find? fun e => decide (e.1 = k)).map Prod.snd

def put (m : SortedMap K V) (k : K) (v : V) : SortedMap K V where
  entries := m.entries.filter (fun e => decide (e.1 < k)) ++
    (k, v) :: m.entries.filter (fun e => decide (k < e.1))
  sorted := by
    rw [List.pairwise_append, List.pairwise_cons]
    refine ⟨m.sorted.filter _, ⟨?_, m.sorted.filter _⟩, ?_⟩
    · intro b hb
      simpa using (List.mem_filter.mp hb).2
    · intro a ha b hb
      have hak : a.1 < k := by simpa using (List.mem_filter.mp ha).2
      rcases List.mem_cons.mp hb with rfl | hb
      · exact hak
      · have hkb : k < b.1 := by simpa using (List.mem_filter.mp hb).2
        exact hak.trans hkb

def erase (m : SortedMap K V) (k : K) : SortedMap K V where
  entries := m.entries.filter fun e => decide (e.1 ≠ k)
  sorted := m.sorted.filter _

/-- The entries from a key on. -/
def seek (m : SortedMap K V) (k : K) : List (K × V) :=
  m.entries.filter fun e => decide (k ≤ e.1)

def putAll (m : SortedMap K V) (es : List (K × V)) : SortedMap K V :=
  es.foldl (fun m e => m.put e.1 e.2) m

/-- The map whose keys are the codes of the keys. -/
def rekey (f : K → K') (m : SortedMap K V) : SortedMap K' V :=
  putAll ∅ (m.entries.map (Prod.map f id))

@[simp] theorem entries_empty : (∅ : SortedMap K V).entries = [] := rfl

@[simp] theorem get_empty : (∅ : SortedMap K V).get k = none := rfl

theorem nodup_keys (m : SortedMap K V) : (m.entries.map Prod.fst).Nodup :=
  List.pairwise_map.mpr (m.sorted.imp ne_of_lt)

theorem get_eq_some_iff : m.get k = some v ↔ (k, v) ∈ m.entries := by
  constructor
  · intro h
    obtain ⟨e, he, rfl⟩ := Option.map_eq_some_iff.mp h
    have hk : e.1 = k := by simpa using List.find?_some he
    rw [← hk]
    exact List.mem_of_find?_eq_some he
  · intro h
    rw [get]
    cases hf : m.entries.find? fun e => decide (e.1 = k) with
    | none =>
      have hnone := List.find?_eq_none.mp hf _ h
      simp at hnone
    | some e =>
      have hk : e.1 = k := by simpa using List.find?_some hf
      have he := List.mem_of_find?_eq_some hf
      have heq : e = (k, v) := List.inj_on_of_nodup_map m.nodup_keys he h hk
      rw [heq]
      rfl

theorem get_eq_none_iff : m.get k = none ↔ ∀ e ∈ m.entries, e.1 ≠ k := by
  rw [Option.eq_none_iff_forall_ne_some]
  constructor
  · rintro h ⟨k', v⟩ he rfl
    exact h v (get_eq_some_iff.mpr he)
  · intro h v hv
    exact h _ (get_eq_some_iff.mp hv) rfl

/-- Two maps with the same lookups have the same entries. -/
theorem ext_get (h : ∀ k, m.get k = m'.get k) : m = m' := by
  have hperm : m.entries.Perm m'.entries := by
    apply (List.perm_ext_iff_of_nodup m.nodup_keys.of_map m'.nodup_keys.of_map).mpr
    rintro ⟨k, v⟩
    rw [← get_eq_some_iff, ← get_eq_some_iff, h]
  have hentries : m.entries = m'.entries :=
    hperm.eq_of_pairwise (fun a b _ _ hab hba => absurd hab hba.asymm) m.sorted m'.sorted
  cases m
  cases m'
  cases hentries
  rfl

theorem mem_put {e : K × V} : e ∈ (m.put k v).entries ↔ e = (k, v) ∨ (e ∈ m.entries ∧ e.1 ≠ k) := by
  simp only [put, List.mem_append, List.mem_cons, List.mem_filter, decide_eq_true_eq]
  constructor
  · rintro (⟨he, hlt⟩ | rfl | ⟨he, hlt⟩)
    · exact .inr ⟨he, hlt.ne⟩
    · exact .inl rfl
    · exact .inr ⟨he, hlt.ne'⟩
  · rintro (rfl | ⟨he, hne⟩)
    · exact .inr (.inl rfl)
    · rcases lt_or_gt_of_ne hne with hlt | hgt
      · exact .inl ⟨he, hlt⟩
      · exact .inr (.inr ⟨he, hgt⟩)

theorem get_put : (m.put k v).get k' = if k' = k then some v else m.get k' := by
  apply Option.ext
  intro w
  rw [get_eq_some_iff, mem_put]
  by_cases h : k' = k
  · simp [h, eq_comm]
  · simp [h, get_eq_some_iff]

@[simp] theorem get_put_self : (m.put k v).get k = some v := by
  simp [get_put]

theorem get_erase : (m.erase k).get k' = if k' = k then none else m.get k' := by
  apply Option.ext
  intro w
  rw [get_eq_some_iff]
  by_cases h : k' = k
  · simp [erase, h]
  · simp [erase, h, get_eq_some_iff]

theorem sorted_seek (m : SortedMap K V) (k : K) : (m.seek k).Pairwise fun a b => a.1 < b.1 :=
  m.sorted.filter _

theorem mem_seek {e : K × V} : e ∈ m.seek k ↔ e ∈ m.entries ∧ k ≤ e.1 := by
  rw [seek, List.mem_filter, decide_eq_true_eq]

/-- The entries from a key on depend on the lookups from there on. -/
theorem seek_congr (h : ∀ k', k ≤ k' → m.get k' = m'.get k') : m.seek k = m'.seek k := by
  have hperm : (m.seek k).Perm (m'.seek k) := by
    apply (List.perm_ext_iff_of_nodup (m.nodup_keys.of_map.filter _)
      (m'.nodup_keys.of_map.filter _)).mpr
    rintro ⟨k', v⟩
    change (k', v) ∈ m.seek k ↔ (k', v) ∈ m'.seek k
    rw [mem_seek, mem_seek]
    apply and_congr_left
    intro hle
    rw [← get_eq_some_iff, ← get_eq_some_iff, h k' hle]
  exact hperm.eq_of_pairwise (fun a b _ _ hab hba => absurd hab hba.asymm) (m.sorted_seek k)
    (m'.sorted_seek k)

theorem seek_of_get (h : m.get k = some v) : ∃ rest, m.seek k = (k, v) :: rest := by
  have hmem : (k, v) ∈ m.seek k := mem_seek.mpr ⟨get_eq_some_iff.mp h, le_rfl⟩
  cases hseek : m.seek k with
  | nil =>
    rw [hseek] at hmem
    simp at hmem
  | cons e rest =>
    have hsorted := m.sorted_seek k
    have hle : k ≤ e.1 := (mem_seek.mp (hseek ▸ List.mem_cons_self)).2
    rw [hseek] at hmem hsorted
    rcases List.mem_cons.mp hmem with heq | hlater
    · exact ⟨rest, by rw [heq]⟩
    · exact absurd ((List.pairwise_cons.mp hsorted).1 _ hlater) hle.not_gt

/-- When a list is the first entries from a key on. -/
theorem take_seek_eq_iff {n : ℕ} {l : List (K × V)} : (m.seek k).take n = l ↔
    (l.Pairwise fun a b => a.1 < b.1) ∧ (∀ e ∈ l, e ∈ m.seek k) ∧ l.length ≤ n ∧
      ∀ e ∈ m.seek k, e ∉ l → l.length = n ∧ ∀ a ∈ l, a.1 < e.1 := by
  have hsorted := m.sorted_seek k
  constructor
  · rintro rfl
    refine ⟨hsorted.sublist (List.take_sublist _ _), fun e he => List.mem_of_mem_take he,
      List.length_take_le _ _, ?_⟩
    intro e he hnot
    rw [← List.take_append_drop n (m.seek k), List.pairwise_append] at hsorted
    rw [← List.take_append_drop n (m.seek k), List.mem_append] at he
    have hdrop := he.resolve_left hnot
    have hlong := List.length_pos_of_mem hdrop
    rw [List.length_drop] at hlong
    exact ⟨List.length_take_of_le (by omega), fun a ha => hsorted.2.2 a ha e hdrop⟩
  · classical
    rintro ⟨hl, hmem, hlength, hrest⟩
    let rest := (m.seek k).filter fun e => decide (e ∉ l)
    have hrestmem : ∀ e ∈ rest, e ∈ m.seek k ∧ e ∉ l := fun e he => by
      simpa [rest] using he
    have happend : (l ++ rest).Pairwise fun a b => a.1 < b.1 := by
      rw [List.pairwise_append]
      refine ⟨hl, hsorted.filter _, ?_⟩
      intro a ha e he
      obtain ⟨hseek, hnot⟩ := hrestmem e he
      exact (hrest e hseek hnot).2 a ha
    have hnodup : ∀ {es : List (K × V)}, (es.Pairwise fun a b => a.1 < b.1) → es.Nodup :=
      fun h => h.imp fun hab heq => hab.ne (congrArg Prod.fst heq)
    have hperm : (m.seek k).Perm (l ++ rest) := by
      apply (List.perm_ext_iff_of_nodup (hnodup hsorted) (hnodup happend)).mpr
      intro e
      rw [List.mem_append]
      constructor
      · intro he
        by_cases hin : e ∈ l
        · exact .inl hin
        · exact .inr (by simpa [rest] using ⟨he, hin⟩)
      · rintro (he | he)
        · exact hmem e he
        · exact (hrestmem e he).1
    have heq : m.seek k = l ++ rest :=
      hperm.eq_of_pairwise (fun a b _ _ hab hba => absurd hab hba.asymm) hsorted happend
    rw [heq]
    cases hcase : rest with
    | nil => rw [List.append_nil, List.take_of_length_le hlength]
    | cons e es =>
      have he : e ∈ rest := hcase ▸ List.mem_cons_self
      obtain ⟨hseek, hnot⟩ := hrestmem e he
      exact List.take_left' (hrest e hseek hnot).1

theorem erase_of_get_none (h : m.get k = none) : m.erase k = m := by
  apply ext_get
  intro k'
  rw [get_erase]
  split
  next heq => rw [heq, h]
  next => rfl

@[simp] theorem putAll_nil : m.putAll [] = m := rfl

@[simp] theorem putAll_cons {e : K × V} {es : List (K × V)} :
    m.putAll (e :: es) = (m.put e.1 e.2).putAll es := rfl

theorem putAll_append {es es' : List (K × V)} :
    m.putAll (es ++ es') = (m.putAll es).putAll es' := List.foldl_append

theorem mem_or_mem_of_mem_putAll {e : K × V} {es : List (K × V)} (h : e ∈ (m.putAll es).entries) :
    e ∈ m.entries ∨ e ∈ es := by
  induction es generalizing m with
  | nil => exact Or.inl h
  | cons e' es ih =>
    rcases ih h with hput | hmem
    · rcases mem_put.mp hput with rfl | hold
      · exact Or.inr List.mem_cons_self
      · exact Or.inl hold.1
    · exact Or.inr (List.mem_cons_of_mem _ hmem)

theorem get_putAll_of_not_mem {es : List (K × V)} (h : ∀ e ∈ es, e.1 ≠ k) :
    (m.putAll es).get k = m.get k := by
  induction es generalizing m with
  | nil => rfl
  | cons e es ih =>
    rw [List.forall_mem_cons] at h
    rw [putAll_cons, ih h.2, get_put, if_neg h.1.symm]

theorem get_putAll_of_mem {es : List (K × V)} (hnodup : (es.map Prod.fst).Nodup)
    (h : (k, v) ∈ es) : (m.putAll es).get k = some v := by
  induction es generalizing m with
  | nil => simp at h
  | cons e es ih =>
    rw [List.map_cons, List.nodup_cons] at hnodup
    rcases List.mem_cons.mp h with rfl | h
    · rw [putAll_cons, get_putAll_of_not_mem, get_put_self]
      rintro e he rfl
      exact hnodup.1 (List.mem_map.mpr ⟨e, he, rfl⟩)
    · exact ih hnodup.2 h

/-- Entries with keys of their own come to the same map in any order. -/
theorem putAll_perm {es es' : List (K × V)} (hnodup : (es.map Prod.fst).Nodup)
    (h : es.Perm es') : m.putAll es = m.putAll es' := by
  have hnodup' : (es'.map Prod.fst).Nodup := (h.map Prod.fst).nodup_iff.mp hnodup
  apply ext_get
  intro k
  by_cases hk : ∃ e ∈ es, e.1 = k
  · obtain ⟨⟨k, v⟩, he, rfl⟩ := hk
    rw [get_putAll_of_mem hnodup he, get_putAll_of_mem hnodup' (h.subset he)]
  · have hother : ∀ e ∈ es, e.1 ≠ k := fun e he heq => hk ⟨e, he, heq⟩
    rw [get_putAll_of_not_mem hother,
      get_putAll_of_not_mem fun e he => hother e (h.mem_iff.mpr he)]

/-- Entries with keys of their own are all kept, and nothing else is. -/
theorem entries_putAll_perm {es : List (K × V)} (hnodup : (es.map Prod.fst).Nodup) :
    (putAll ∅ es).entries.Perm es := by
  have hentries : (putAll ∅ es).entries.Nodup := (putAll ∅ es).nodup_keys.of_map
  rw [List.perm_ext_iff_of_nodup hentries hnodup.of_map]
  rintro ⟨k, v⟩
  rw [← get_eq_some_iff]
  constructor
  · intro h
    by_contra hnot
    by_cases hk : ∃ e ∈ es, e.1 = k
    · obtain ⟨⟨k, v'⟩, he, rfl⟩ := hk
      rw [get_putAll_of_mem hnodup he] at h
      cases Option.some.inj h
      exact hnot he
    · have hother : ∀ e ∈ es, e.1 ≠ k := fun e he heq => hk ⟨e, he, heq⟩
      rw [get_putAll_of_not_mem hother, get_empty] at h
      cases h
  · exact get_putAll_of_mem hnodup

section

variable {f : K → K'}

theorem get_rekey (hf : Function.Injective f) : (m.rekey f).get (f k) = m.get k := by
  cases h : m.get k with
  | none =>
    rw [rekey, get_putAll_of_not_mem, get_empty]
    rintro _ he
    obtain ⟨e, hmem, rfl⟩ := List.mem_map.mp he
    exact hf.ne (get_eq_none_iff.mp h e hmem)
  | some v =>
    have hnodup : ((m.entries.map (Prod.map f id)).map Prod.fst).Nodup := by
      have hcodes := m.nodup_keys.map hf
      rw [List.map_map] at hcodes ⊢
      exact hcodes
    apply get_putAll_of_mem hnodup
    exact List.mem_map_of_mem (f := Prod.map f id) (get_eq_some_iff.mp h)

theorem get_rekey_of_not_range {c : K'} (h : ∀ k, f k ≠ c) : (m.rekey f).get c = none := by
  rw [rekey, get_putAll_of_not_mem, get_empty]
  intro e he
  obtain ⟨e, _, rfl⟩ := List.mem_map.mp he
  exact h e.1

theorem mem_rekey (hf : Function.Injective f) {e : K' × V} :
    e ∈ (m.rekey f).entries ↔ ∃ a ∈ m.entries, Prod.map f id a = e := by
  obtain ⟨c, v⟩ := e
  rw [← get_eq_some_iff]
  constructor
  · intro h
    by_cases hc : ∃ k, f k = c
    · obtain ⟨k, rfl⟩ := hc
      rw [get_rekey hf] at h
      exact ⟨(k, v), get_eq_some_iff.mp h, rfl⟩
    · rw [not_exists] at hc
      rw [get_rekey_of_not_range hc] at h
      cases h
  · rintro ⟨⟨k, w⟩, ha, he⟩
    cases he
    rw [get_rekey hf]
    exact get_eq_some_iff.mpr ha

/-- Two maps over codes are equal if they agree on the codes and have nothing else. -/
theorem ext_rekey {s : SortedMap K' V} (hf : Function.Injective f)
    (hcodes : ∀ k, s.get (f k) = m.get k) (hother : ∀ c, (∀ k, f k ≠ c) → s.get c = none) :
    s = m.rekey f := by
  apply ext_get
  intro c
  by_cases hc : ∃ k, f k = c
  · obtain ⟨k, rfl⟩ := hc
    rw [hcodes, get_rekey hf]
  · rw [not_exists] at hc
    rw [hother c hc, get_rekey_of_not_range hc]

@[simp] theorem rekey_empty : (∅ : SortedMap K V).rekey f = ∅ := rfl

/-- Recoding twice is recoding by the codes of the codes. -/
theorem rekey_rekey {K'' : Type} [LinearOrder K''] {g : K' → K''} (hf : Function.Injective f)
    (hg : Function.Injective g) : (m.rekey f).rekey g = m.rekey (g ∘ f) := by
  apply ext_rekey (hg.comp hf)
  · intro k
    rw [Function.comp_apply, get_rekey hg, get_rekey hf]
  · intro c hc
    by_cases h : ∃ k', g k' = c
    · obtain ⟨k', rfl⟩ := h
      rw [get_rekey hg]
      exact get_rekey_of_not_range fun k hk => hc k (congrArg g hk)
    · exact get_rekey_of_not_range (not_exists.mp h)

theorem rekey_put (hf : Function.Injective f) : (m.put k v).rekey f = (m.rekey f).put (f k) v := by
  refine (ext_rekey hf (fun k' => ?_) fun c hc => ?_).symm
  · simp only [get_put, get_rekey hf, hf.eq_iff]
  · rw [get_put, if_neg (hc k).symm, get_rekey_of_not_range hc]

theorem rekey_erase (hf : Function.Injective f) :
    (m.erase k).rekey f = (m.rekey f).erase (f k) := by
  refine (ext_rekey hf (fun k' => ?_) fun c hc => ?_).symm
  · simp only [get_erase, get_rekey hf, hf.eq_iff]
  · rw [get_erase, if_neg (hc k).symm, get_rekey_of_not_range hc]

theorem rekey_putAll (hf : Function.Injective f) {es : List (K × V)} :
    (m.putAll es).rekey f = (m.rekey f).putAll (es.map (Prod.map f id)) := by
  induction es generalizing m with
  | nil => rfl
  | cons e es ih =>
    rw [putAll_cons, ih, rekey_put hf]
    rfl

/-- Codes that keep the order of the stored keys keep the order of the entries. -/
theorem entries_rekey
    (hf : ∀ a ∈ m.entries, ∀ b ∈ m.entries, a.1 < b.1 → f a.1 < f b.1) :
    (m.rekey f).entries = m.entries.map (Prod.map f id) := by
  have hsorted : (m.entries.map (Prod.map f id)).Pairwise fun a b => a.1 < b.1 := by
    rw [List.pairwise_map]
    exact m.sorted.imp_of_mem fun ha hb hab => hf _ ha _ hb hab
  have hnodup : ((m.entries.map (Prod.map f id)).map Prod.fst).Nodup :=
    List.pairwise_map.mpr (hsorted.imp ne_of_lt)
  have heq : m.rekey f = ⟨m.entries.map (Prod.map f id), hsorted⟩ := by
    apply ext_get
    intro c
    apply Option.ext
    intro v
    rw [get_eq_some_iff (m := ⟨_, hsorted⟩)]
    constructor
    · intro h
      by_contra hnot
      cases hget : (⟨m.entries.map (Prod.map f id), hsorted⟩ : SortedMap K' V).get c with
      | none =>
        have hmiss := get_eq_none_iff.mp hget
        rw [rekey, get_putAll_of_not_mem hmiss, get_empty] at h
        simp at h
      | some w =>
        have hmem := get_eq_some_iff.mp hget
        rw [rekey, get_putAll_of_mem hnodup hmem] at h
        cases Option.some.inj h
        exact hnot hmem
    · exact get_putAll_of_mem hnodup
  rw [heq]

theorem seek_rekey (hf : StrictMono f) :
    (m.rekey f).seek (f k) = (m.seek k).map (Prod.map f id) := by
  rw [seek, entries_rekey fun _ _ _ _ hab => hf hab, List.filter_map, seek]
  congr 1
  apply List.filter_congr
  intro e _
  simp [hf.le_iff_le]

end

end SortedMap
