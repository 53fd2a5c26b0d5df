import Mathlib.Data.List.Basic
import Mathlib.Data.List.Induction
import Mathlib.Data.List.Nodup
import Mathlib.Logic.Function.Basic

namespace KeyedList

variable {α κ : Type} [DecidableEq κ] (key : α → κ)

/-- Replaces the first entry with the key of `a`, or adds `a` at the end. -/
def put (a : α) : List α → List α
  | [] => [a]
  | b :: rest => if key a = key b then a :: rest else b :: put a rest

def putAll (entries : List α) (updates : List α) : List α :=
  updates.foldl (fun entries a => put key a entries) entries

/-- The last entry of a key. -/
def lastWith (entries : List α) (k : κ) : Option α :=
  (entries.filter fun b => key b = k).getLast?

theorem mem_put {key : α → κ} {a b : α} {entries : List α} (h : b ∈ put key a entries) :
    b = a ∨ b ∈ entries := by
  induction entries with
  | nil => exact Or.inl (by simpa [put] using h)
  | cons c entries ih =>
    rw [put] at h
    split at h
    next =>
      rcases List.mem_cons.mp h with rfl | hrest
      · exact Or.inl rfl
      · exact Or.inr (List.mem_cons_of_mem c hrest)
    next =>
      rcases List.mem_cons.mp h with rfl | hrest
      · exact Or.inr List.mem_cons_self
      · exact (ih hrest).imp_right (List.mem_cons_of_mem c)

theorem mem_putAll {key : α → κ} {b : α} {entries updates : List α}
    (h : b ∈ putAll key entries updates) : b ∈ entries ∨ b ∈ updates := by
  induction updates generalizing entries with
  | nil => exact Or.inl h
  | cons a updates ih =>
    have hcases : b ∈ put key a entries ∨ b ∈ updates := ih h
    rcases hcases with hput | hrest
    · rcases mem_put hput with rfl | hold
      · exact Or.inr List.mem_cons_self
      · exact Or.inl hold
    · exact Or.inr (List.mem_cons_of_mem a hrest)

theorem eraseDups_concat (ks : List κ) (k : κ) :
    (ks ++ [k]).eraseDups = if k ∈ ks then ks.eraseDups else ks.eraseDups ++ [k] := by
  rw [List.eraseDups_append]
  by_cases hk : k ∈ ks
  · simp [List.removeAll, hk]
  · simp [List.removeAll, hk, List.eraseDups_cons]

theorem nodup_eraseDups (ks : List κ) : ks.eraseDups.Nodup := by
  induction ks using List.reverseRecOn with
  | nil => simp
  | append_singleton ks k ih =>
    rw [eraseDups_concat]
    split
    next => exact ih
    next hk =>
      have hnew : k ∉ ks.eraseDups := fun hmem => hk (List.mem_eraseDups.mp hmem)
      simpa using ih.concat hnew

theorem eraseDups_of_nodup {ks : List κ} (h : ks.Nodup) : ks.eraseDups = ks := by
  induction ks using List.reverseRecOn with
  | nil => rfl
  | append_singleton ks k ih =>
    obtain ⟨hks, -, hk⟩ := List.nodup_append.mp h
    have hnew : k ∉ ks := fun hmem => hk k hmem k (by simp) rfl
    rw [eraseDups_concat, if_neg hnew, ih hks]

theorem lastWith_concat (entries : List α) (a : α) :
    lastWith key (entries ++ [a]) = Function.update (lastWith key entries) (key a) (some a) := by
  funext k
  by_cases hk : k = key a
  · subst hk
    simp [lastWith]
  · simp [lastWith, Function.update_of_ne hk, Ne.symm hk]

theorem lastWith_append (entries updates : List α) (k : κ) :
    lastWith key (entries ++ updates) k = (lastWith key updates k).or (lastWith key entries k) := by
  simp [lastWith, List.getLast?_append]

theorem lastWith_key {entries : List α} {k : κ} {b : α} (h : lastWith key entries k = some b) :
    b ∈ entries ∧ key b = k := by
  have hmem := List.mem_of_getLast? h
  simpa using hmem

theorem lastWith_of_mem {entries : List α} {k : κ} (h : k ∈ entries.map key) :
    ∃ b, lastWith key entries k = some b := by
  obtain ⟨b, hb, rfl⟩ := List.mem_map.mp h
  have hne : entries.filter (fun c => key c = key b) ≠ [] :=
    List.ne_nil_of_mem (List.mem_filter.mpr ⟨hb, by simp⟩)
  exact ⟨_, List.getLast?_eq_some_getLast hne⟩

/-- With distinct keys the only entry of a key is the last one. -/
theorem lastWith_of_nodup {entries : List α} (h : (entries.map key).Nodup) {b : α}
    (hb : b ∈ entries) : lastWith key entries (key b) = some b := by
  obtain ⟨c, hc⟩ := lastWith_of_mem key (List.mem_map_of_mem hb)
  obtain ⟨hmem, hkey⟩ := lastWith_key key hc
  rwa [List.inj_on_of_nodup_map h hmem hb hkey] at hc

theorem put_filterMap {f : κ → Option α} {ks : List κ} (hks : ks.Nodup)
    (hf : ∀ k ∈ ks, ∃ b, f k = some b ∧ key b = k) (a : α) :
    put key a (ks.filterMap f) =
      (if key a ∈ ks then ks else ks ++ [key a]).filterMap
        (Function.update f (key a) (some a)) := by
  induction ks with
  | nil => simp [put]
  | cons k ks ih =>
    obtain ⟨hk, hrest⟩ := List.nodup_cons.mp hks
    rw [List.forall_mem_cons] at hf
    obtain ⟨⟨b, hb, rfl⟩, hf⟩ := hf
    rw [List.filterMap_cons_some hb, put]
    by_cases heq : key a = key b
    · have hupdate : ∀ c ∈ ks, f c = Function.update f (key a) (some a) c := by
        intro c hc
        rw [Function.update_of_ne]
        rintro rfl
        exact hk (heq ▸ hc)
      rw [if_pos heq, if_pos (by simp [heq]), List.filterMap_cons_some (b := a) (by simp [heq]),
        List.filterMap_congr hupdate]
    · have hupdate : Function.update f (key a) (some a) (key b) = some b := by
        rw [Function.update_of_ne (Ne.symm heq), hb]
      rw [if_neg heq, ih hrest hf]
      by_cases hmem : key a ∈ ks
      · rw [if_pos hmem, if_pos (by simp [hmem]), List.filterMap_cons_some hupdate]
      · rw [if_neg hmem, if_neg (by simp [heq, hmem]), List.cons_append,
          List.filterMap_cons_some hupdate]

/-- Updates leave, for each key in the order of its first appearance, the last entry. -/
theorem putAll_eq {entries : List α} (h : (entries.map key).Nodup) (updates : List α) :
    putAll key entries updates =
      ((entries ++ updates).map key).eraseDups.filterMap (lastWith key (entries ++ updates)) := by
  induction updates using List.reverseRecOn with
  | nil =>
    rw [List.append_nil, eraseDups_of_nodup h, List.filterMap_map]
    have hlast : ∀ b ∈ entries, (lastWith key entries ∘ key) b = some b := fun b hb =>
      lastWith_of_nodup key h hb
    rw [List.filterMap_congr hlast, List.filterMap_some]
    rfl
  | append_singleton updates a ih =>
    have hput : putAll key entries (updates ++ [a]) = put key a (putAll key entries updates) := by
      simp [putAll]
    rw [hput, ih, put_filterMap key (nodup_eraseDups _)]
    · have hkeys : (entries ++ updates ++ [a]).map key =
          (entries ++ updates).map key ++ [key a] := by
        rw [List.map_append, List.map_singleton]
      rw [← List.append_assoc, lastWith_concat, hkeys, eraseDups_concat]
      simp only [List.mem_eraseDups]
    · intro k hk
      obtain ⟨b, hb⟩ := lastWith_of_mem key (List.mem_eraseDups.mp hk)
      exact ⟨b, hb, (lastWith_key key hb).2⟩

theorem map_key_putAll {entries : List α} (h : (entries.map key).Nodup) (updates : List α) :
    (putAll key entries updates).map key = ((entries ++ updates).map key).eraseDups := by
  rw [putAll_eq key h, List.map_filterMap]
  have hkey : ∀ k ∈ ((entries ++ updates).map key).eraseDups,
      (lastWith key (entries ++ updates) k).map key = some k := by
    intro k hk
    obtain ⟨b, hb⟩ := lastWith_of_mem key (List.mem_eraseDups.mp hk)
    rw [hb, Option.map_some, (lastWith_key key hb).2]
  rw [List.filterMap_congr hkey, List.filterMap_some]

/-- Old entries keep their place, new keys follow in the order of their first appearance. -/
theorem putAll_eq_append {entries : List α} (h : (entries.map key).Nodup) (updates : List α) :
    putAll key entries updates =
      entries.map (fun b => (lastWith key updates (key b)).getD b) ++
        ((updates.map key).filter (· ∉ entries.map key)).eraseDups.filterMap
          (lastWith key updates) := by
  have hremove : (updates.map key).removeAll (entries.map key) =
      (updates.map key).filter (· ∉ entries.map key) := by
    exact List.filter_congr fun k _ => by simp [-List.mem_map]
  rw [putAll_eq key h, List.map_append, List.eraseDups_append, eraseDups_of_nodup h, hremove,
    List.filterMap_append, List.filterMap_map]
  congr 1
  · have hold : ∀ b ∈ entries, (lastWith key (entries ++ updates) ∘ key) b =
        some ((lastWith key updates (key b)).getD b) := by
      intro b hb
      rw [Function.comp_apply, lastWith_append, lastWith_of_nodup key h hb]
      cases lastWith key updates (key b) <;> rfl
    rw [List.filterMap_congr hold, List.filterMap_eq_map']
  · apply List.filterMap_congr
    intro k hk
    obtain ⟨b, hb⟩ := lastWith_of_mem key
      (List.mem_filter.mp (List.mem_eraseDups.mp hk)).1
    rw [lastWith_append, hb, Option.some_or]

/-- Distinct updates of an empty list are its new entries. -/
theorem putAll_nil {updates : List α} (h : (updates.map key).Nodup) :
    putAll key [] updates = updates := by
  have hself := putAll_eq key h []
  rw [List.append_nil] at hself
  rw [putAll_eq key (by simp), List.nil_append, ← hself]
  rfl

theorem putAll_self {updates : List α} (h : (updates.map key).Nodup) :
    putAll key updates updates = updates := by
  have hnone : (updates.map key).filter (· ∉ updates.map key) = [] :=
    List.filter_eq_nil_iff.mpr fun k hk => by simpa using hk
  have hlast : ∀ b ∈ updates, (lastWith key updates (key b)).getD b = b := by
    intro b hb
    rw [lastWith_of_nodup key h hb, Option.getD_some]
  rw [putAll_eq_append key h, hnone, List.map_congr_left hlast]
  simp

section Append

variable {key : α → κ} {a : α} {entries updates : List α}

end Append

end KeyedList
