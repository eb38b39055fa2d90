import Mathlib.Data.Finset.Card
import Mathlib.Tactic.Linarith

/-!
Parts of a finite set that are unions of fibers of a function.  If the fibers have fewer than two
elements on average, there is such a part of every size.  So up to sixteen elements with different
values fit into groups of eight that have no value in common.
-/

namespace OmegaCore.Util

open Finset

variable {α β : Type} [DecidableEq α] [DecidableEq β] (f : α → β)

/-- A set whose fibers have fewer than two elements on average has a part of every size that is a union of fibers. -/
theorem exists_union_of_fibers {T : Finset α} (hT : #T < 2 * #(T.image f)) {k : ℕ} (hk : k ≤ #T) :
    ∃ S ⊆ T, #S = k ∧ ∀ x ∈ S, ∀ y ∈ T, f y = f x → y ∈ S := by
  induction hn : #T using Nat.strong_induction_on generalizing T k with
  | _ n ih =>
    by_cases hinj : Set.InjOn f T
    · obtain ⟨S, hS, hcard⟩ := exists_subset_card_eq hk
      exact ⟨S, hS, hcard, fun x hx y hy hf => hinj hy (hS hx) hf ▸ hx⟩
    · -- a fiber with two elements, and the others
      obtain ⟨a, ha, b, hb, hf, hne⟩ : ∃ a ∈ T, ∃ b ∈ T, f a = f b ∧ a ≠ b := by
        simpa [Set.InjOn] using hinj
      have hsplit := card_filter_add_card_filter_not (s := T) fun x => f x = f a
      have htwo : 2 ≤ #(T.filter fun x => f x = f a) :=
        one_lt_card.mpr ⟨a, by simp [ha], b, by simp [hb, hf], hne⟩
      have himage : #(T.image f) ≤ #((T.filter fun x => ¬ f x = f a).image f) + 1 := by
        refine (card_le_card fun y hy => ?_).trans (card_insert_le (f a) _)
        obtain ⟨x, hx, rfl⟩ := mem_image.mp hy
        by_cases hxa : f x = f a
        · exact mem_insert.mpr (.inl hxa)
        · exact mem_insert_of_mem (mem_image_of_mem f (mem_filter.mpr ⟨hx, hxa⟩))
      have hothers : #((T.filter fun x => ¬ f x = f a).image f) ≤ #(T.filter fun x => ¬ f x = f a) := card_image_le
      have hrec := fun k hk => ih #(T.filter fun x => ¬ f x = f a) (by omega) (by omega) (k := k) hk rfl
      rcases Nat.lt_or_ge #(T.filter fun x => ¬ f x = f a) k with hlt | hle
      · obtain ⟨S, hS, hcard, hclosed⟩ := hrec (k - #(T.filter fun x => f x = f a)) (by omega)
        have hdisj : Disjoint S (T.filter fun x => f x = f a) :=
          disjoint_left.mpr fun x hx hxa => (mem_filter.mp (hS hx)).2 (mem_filter.mp hxa).2
        refine ⟨S ∪ T.filter fun x => f x = f a, union_subset (hS.trans (filter_subset ..)) (filter_subset ..), ?_, ?_⟩
        · rw [card_union_of_disjoint hdisj]
          omega
        · intro x hx y hy hyx
          by_cases hya : f y = f a
          · exact mem_union_right _ (mem_filter.mpr ⟨hy, hya⟩)
          · have hxS : x ∈ S := (mem_union.mp hx).resolve_right fun hx => hya (hyx.trans (mem_filter.mp hx).2)
            exact mem_union_left _ (hclosed x hxS y (mem_filter.mpr ⟨hy, hya⟩) hyx)
      · obtain ⟨S, hS, hcard, hclosed⟩ := hrec k hle
        refine ⟨S, hS.trans (filter_subset ..), hcard, fun x hx y hy hyx => ?_⟩
        exact hclosed x hx y (mem_filter.mpr ⟨hy, fun hya => (mem_filter.mp (hS hx)).2 (hyx ▸ hya)⟩) hyx

/-- The groups are filled up with other elements. -/
theorem exists_groups {L C : Finset α} (hCL : C ⊆ L) (hinj : Set.InjOn f C) (hC : #C ≤ 16)
    (hL : 8 * ((#C + 7) / 8) ≤ #L) :
    ∃ gs : List (Finset α), (∀ G ∈ gs, G ⊆ L ∧ #G = 8) ∧ gs.Pairwise (fun G H => ∀ x ∈ G, ∀ y ∈ H, f x ≠ f y) ∧
      ∀ x ∈ C, ∃ G ∈ gs, x ∈ G := by
  obtain ⟨T, hCT, hTL, hT⟩ := exists_subsuperset_card_eq hCL (show _ ≤ 8 * ((#C + 7) / 8) by omega) hL
  rcases Nat.eq_zero_or_pos #C with hzero | hpos
  · exact ⟨[], by simp, .nil, by simp [card_eq_zero.mp hzero]⟩
  rcases Nat.lt_or_ge 8 #C with hmore | hfew
  · have himage : #C ≤ #(T.image f) := by
      rw [← card_image_of_injOn hinj]
      exact card_le_card (image_subset_image hCT)
    obtain ⟨S, hS, hcard, hclosed⟩ := exists_union_of_fibers f (T := T) (k := 8) (by omega) (by omega)
    refine ⟨[S, T \ S], ?_, ?_, fun x hx => ?_⟩
    · simp only [List.mem_cons, List.not_mem_nil, or_false, forall_eq_or_imp, forall_eq]
      refine ⟨⟨hS.trans hTL, hcard⟩, sdiff_subset.trans hTL, ?_⟩
      rw [card_sdiff_of_subset hS]
      omega
    · rw [List.pairwise_pair]
      intro x hx y hy hf
      obtain ⟨hyT, hyS⟩ := mem_sdiff.mp hy
      exact hyS (hclosed x hx y hyT hf.symm)
    · by_cases hxS : x ∈ S
      · exact ⟨S, by simp, hxS⟩
      · exact ⟨T \ S, by simp, mem_sdiff.mpr ⟨hCT hx, hxS⟩⟩
  · exact ⟨[T], by simp [hTL]; omega, List.pairwise_singleton _ _, fun x hx => ⟨T, by simp, hCT hx⟩⟩

end OmegaCore.Util
