import Mathlib.Data.Finset.Card
import Mathlib.Data.Finset.Max

namespace ImageRepeats

variable {α β : Type} [LinearOrder α] [DecidableEq β] (f : α → β) (s : Finset α)

/-- The members that share their image with a smaller one. -/
def repeats : Finset α := s.filter fun a => ∃ b ∈ s, b < a ∧ f b = f a

/-- The smallest member of each fibre. -/
def firsts : Finset α := s.filter fun a => ¬∃ b ∈ s, b < a ∧ f b = f a

variable {f s}

theorem injOn_firsts : Set.InjOn f (firsts f s) := by
  intro a ha b hb heq
  obtain ⟨hmem, hfirst⟩ := Finset.mem_filter.mp ha
  obtain ⟨hmem', hfirst'⟩ := Finset.mem_filter.mp hb
  rcases lt_trichotomy a b with hlt | rfl | hlt
  · exact absurd ⟨a, hmem, hlt, heq⟩ hfirst'
  · rfl
  · exact absurd ⟨b, hmem', hlt, heq.symm⟩ hfirst

/-- Every image is the image of the smallest member of its fibre. -/
theorem image_firsts : (firsts f s).image f = s.image f := by
  apply Finset.Subset.antisymm (Finset.image_subset_image (Finset.filter_subset _ _))
  intro y hy
  obtain ⟨a, ha, rfl⟩ := Finset.mem_image.mp hy
  have hfibre : (s.filter fun b => f b = f a).Nonempty := ⟨a, Finset.mem_filter.mpr ⟨ha, rfl⟩⟩
  obtain ⟨hmin, himage⟩ := Finset.mem_filter.mp (Finset.min'_mem _ hfibre)
  refine Finset.mem_image.mpr ⟨_, Finset.mem_filter.mpr ⟨hmin, ?_⟩, himage⟩
  rintro ⟨b, hb, hlt, heq⟩
  have hle := Finset.min'_le (s.filter fun b => f b = f a) b
    (Finset.mem_filter.mpr ⟨hb, heq.trans himage⟩)
  exact absurd hlt (not_lt_of_ge hle)

theorem card_firsts : (firsts f s).card = (s.image f).card := by
  rw [← image_firsts, Finset.card_image_of_injOn injOn_firsts]

theorem card_repeats_add_image : (repeats f s).card + (s.image f).card = s.card := by
  rw [← card_firsts]
  exact Finset.card_filter_add_card_filter_not _

/-- So many members as there are images at least have images that differ. -/
theorem exists_distinct {n : ℕ} (h : n ≤ (s.image f).card) :
    ∃ members : List α, members.length = n ∧ (members.map f).Nodup ∧ ∀ a ∈ members, a ∈ s := by
  rw [← card_firsts] at h
  obtain ⟨chosen, hsub, hcard⟩ := Finset.exists_subset_card_eq h
  refine ⟨chosen.toList, by rw [Finset.length_toList, hcard], ?_, ?_⟩
  · apply chosen.nodup_toList.map_on
    intro a ha b hb heq
    exact injOn_firsts (hsub (Finset.mem_toList.mp ha)) (hsub (Finset.mem_toList.mp hb)) heq
  · intro a ha
    exact Finset.filter_subset _ _ (hsub (Finset.mem_toList.mp ha))

end ImageRepeats
