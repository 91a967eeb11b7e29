import Mathlib.Data.List.Sort
import Mathlib.Data.List.Range
import Mathlib.Data.Finset.Card
import Mathlib.Order.Interval.Finset.Nat

/-!
# The ancestors in a sequence of levels

A sequence of levels is an outline. The ancestors of an item are compared with a flat path that
is cut by the level of each item and then extended by it.
-/
namespace Hippo.Outline

variable {level : ℕ → ℕ} {i j : ℕ}

/-- An earlier item of a smaller level, with deeper items only in between. -/
def IsAncestor (level : ℕ → ℕ) (j i : ℕ) : Prop :=
  j < i ∧ level j < level i ∧ ∀ k < i, j < k → level j < level k

instance : Decidable (IsAncestor level j i) :=
  inferInstanceAs (Decidable (_ ∧ _ ∧ _))

def ancestors (level : ℕ → ℕ) (i : ℕ) : List ℕ :=
  (List.range i).filter fun j => IsAncestor level j i

/-- The flat path: at most `level i - 1` items of the path before, then the item. -/
def flatPath (level : ℕ → ℕ) : ℕ → List ℕ
  | 0 => [0]
  | i + 1 => (flatPath level i).take (level (i + 1) - 1) ++ [i + 1]

/-- Every level above that of the item is that of an ancestor. -/
def Complete (level : ℕ → ℕ) (i : ℕ) : Prop :=
  ∀ l, 1 ≤ l → l < level i → ∃ j, IsAncestor level j i ∧ level j = l

/-- Going back through items of smaller and smaller level one meets the first item or a complete
one. -/
inductive Nested (level : ℕ → ℕ) : ℕ → Prop
  | first : Nested level 0
  | complete (i : ℕ) (h : Complete level (i + 1)) : Nested level (i + 1)
  | deeper (i : ℕ) (hlevel : level i < level (i + 1)) (h : Nested level i) :
    Nested level (i + 1)

theorem mem_ancestors : j ∈ ancestors level i ↔ IsAncestor level j i := by
  simp only [ancestors, List.mem_filter, List.mem_range, decide_eq_true_eq]
  exact ⟨fun h => h.2, fun h => ⟨h.1, h⟩⟩

theorem isAncestor_succ :
    IsAncestor level j (i + 1) ↔
      (IsAncestor level j i ∨ j = i) ∧ level j < level (i + 1) := by
  constructor
  · intro h
    refine ⟨?_, h.2.1⟩
    by_cases hji : j = i
    · exact Or.inr hji
    · have hlt : j < i := by have := h.1; omega
      exact Or.inl ⟨hlt, h.2.2 i (by omega) hlt, fun k hk => h.2.2 k (by omega)⟩
  · rintro ⟨h | rfl, hlevel⟩
    · refine ⟨by have := h.1; omega, hlevel, fun k hk hjk => ?_⟩
      by_cases hki : k = i
      · rw [hki]
        exact h.2.1
      · exact h.2.2 k (by omega) hjk
    · exact ⟨by omega, hlevel, fun k hk hjk => by omega⟩

/-- The ancestors of the next item are those of a smaller level among the open ones. -/
theorem ancestors_succ :
    ancestors level (i + 1) =
      (ancestors level i ++ [i]).filter fun j => level j < level (i + 1) := by
  have hself : (List.range i).filter (fun j => IsAncestor level j i) ++ [i] =
      (List.range (i + 1)).filter fun j => IsAncestor level j i ∨ j = i := by
    rw [List.range_succ, List.filter_append]
    congr 1
    · apply List.filter_congr
      intro j hj
      have : j ≠ i := by have := List.mem_range.mp hj; omega
      simp [this]
    · simp
  rw [ancestors, ancestors, hself, List.filter_filter]
  apply List.filter_congr
  intro j _
  simp [isAncestor_succ, and_comm]

section FlatPath

theorem self_mem_flatPath : i ∈ flatPath level i := by
  cases i <;> simp [flatPath]

theorem pairwise_flatPath :
    (flatPath level i).Pairwise (· < ·) ∧ ∀ j ∈ flatPath level i, j ≤ i := by
  induction i with
  | zero => simp [flatPath]
  | succ i ih =>
    have hle : ∀ j ∈ (flatPath level i).take (level (i + 1) - 1), j ≤ i :=
      fun j hj => ih.2 j (List.mem_of_mem_take hj)
    constructor
    · rw [flatPath, List.pairwise_append]
      refine ⟨ih.1.sublist (List.take_sublist _ _), by simp, fun j hj k hk => ?_⟩
      have := hle j hj
      simp only [List.mem_singleton] at hk
      omega
    · intro j hj
      simp only [flatPath, List.mem_append, List.mem_singleton] at hj
      rcases hj with hj | rfl
      · have := hle j hj
        omega
      · omega

theorem pairwise_ancestors : (ancestors level i ++ [i]).Pairwise (· < ·) := by
  rw [List.pairwise_append]
  refine ⟨List.pairwise_lt_range.sublist List.filter_sublist, by simp, fun j hj k hk => ?_⟩
  have := (mem_ancestors.mp hj).1
  simp only [List.mem_singleton] at hk
  omega

/-- The open items stand in the flat path, none deeper than its level. -/
theorem mem_take_flatPath (hpos : ∀ i, 0 < level i) (hj : j ∈ ancestors level i ++ [i]) :
    j ∈ (flatPath level i).take (level j) := by
  induction i with
  | zero =>
    have hj0 : j = 0 := by simpa [ancestors] using hj
    subst hj0
    have := hpos 0
    rw [List.take_of_length_le]
    · simp [flatPath]
    · simp only [flatPath, List.length_singleton]
      omega
  | succ i ih =>
    rw [flatPath, List.take_append]
    rw [List.mem_append, List.mem_singleton] at hj
    rcases hj with hj | rfl
    · rw [ancestors_succ, List.mem_filter] at hj
      obtain ⟨hopen, hlevel⟩ := hj
      have hlt : level j < level (i + 1) := by simpa using hlevel
      apply List.mem_append_left
      rw [List.take_take, min_eq_left (by omega)]
      exact ih hopen
    · have := hpos (i + 1)
      apply List.mem_append_right
      rw [List.length_take, List.take_of_length_le]
      · simp
      · simp only [List.length_singleton]
        omega

/-- The ancestors are among the items that the flat path keeps. -/
theorem ancestors_sublist (hpos : ∀ i, 0 < level i) :
    (ancestors level i ++ [i]).Sublist (flatPath level i) := by
  apply List.sublist_of_subperm_of_pairwise (r := (· < ·)) _ pairwise_ancestors
    pairwise_flatPath.1
  apply List.Nodup.subperm (pairwise_ancestors.imp fun h => by omega)
  exact fun j hj => List.mem_of_mem_take (mem_take_flatPath hpos hj)

end FlatPath

section Comparison

/-- The levels of the ancestors are different. -/
theorem pairwise_level_ancestors :
    ((ancestors level i).map level).Pairwise (· < ·) := by
  rw [List.pairwise_map]
  have hsorted : (ancestors level i).Pairwise (· < ·) :=
    pairwise_ancestors.sublist (List.sublist_append_left _ _)
  apply hsorted.imp_of_mem
  intro j k hj hk hjk
  exact (mem_ancestors.mp hj).2.2 k (mem_ancestors.mp hk).1 hjk

/-- With `level i - 1` ancestors an item is complete, and only then. -/
theorem complete_iff_length (hpos : ∀ i, 0 < level i) :
    Complete level i ↔ level i - 1 ≤ (ancestors level i).length := by
  let levels := ((ancestors level i).map level).toFinset
  have hcard : levels.card = (ancestors level i).length := by
    rw [List.toFinset_card_of_nodup (pairwise_level_ancestors.imp fun h => by omega),
      List.length_map]
  have hsubset : levels ⊆ Finset.Ico 1 (level i) := by
    intro l hl
    simp only [levels, List.mem_toFinset, List.mem_map] at hl
    obtain ⟨j, hj, rfl⟩ := hl
    exact Finset.mem_Ico.mpr ⟨hpos j, (mem_ancestors.mp hj).2.1⟩
  have hmem : ∀ l, l ∈ levels ↔ ∃ j, IsAncestor level j i ∧ level j = l := by
    intro l
    simp [levels, mem_ancestors]
  constructor
  · intro h
    have hall : Finset.Ico 1 (level i) ⊆ levels := by
      intro l hl
      rw [Finset.mem_Ico] at hl
      exact (hmem l).mpr (h l hl.1 hl.2)
    have := Finset.card_le_card hall
    rwa [Nat.card_Ico, hcard] at this
  · intro h l hl hlt
    have hall : levels = Finset.Ico 1 (level i) := by
      apply Finset.eq_of_subset_of_card_le hsubset
      rwa [Nat.card_Ico, hcard]
    apply (hmem l).mp
    rw [hall]
    exact Finset.mem_Ico.mpr ⟨hl, hlt⟩

/-- The flat path consists of the ancestors and the item exactly for the nested items. -/
theorem flatPath_eq_ancestors_iff (hpos : ∀ i, 0 < level i) :
    flatPath level i = ancestors level i ++ [i] ↔ Nested level i := by
  induction i with
  | zero => simp [flatPath, ancestors, Nested.first]
  | succ i ih =>
    have hsub : (ancestors level (i + 1)).Sublist
        ((flatPath level i).take (level (i + 1) - 1)) := by
      have h := ancestors_sublist (i := i + 1) hpos
      rwa [flatPath, List.append_sublist_append_right] at h
    have hopen := ancestors_sublist (i := i) hpos
    rw [flatPath, List.append_left_inj]
    constructor
    · intro h
      by_cases hshort : level (i + 1) - 1 ≤ (flatPath level i).length
      · apply Nested.complete
        rw [complete_iff_length hpos, ← h, List.length_take]
        omega
      · -- Nothing is cut, so every open item is an ancestor.
        rw [List.take_of_length_le (by omega)] at h
        have hlevel : level i < level (i + 1) := by
          have hi : i ∈ ancestors level (i + 1) := h ▸ self_mem_flatPath
          exact (mem_ancestors.mp hi).2.1
        apply Nested.deeper i hlevel
        rw [← ih]
        apply (hopen.eq_of_length_le _).symm
        rw [h, ancestors_succ]
        exact List.length_filter_le _ _
    · intro h
      apply (hsub.eq_of_length_le _).symm
      cases h with
      | complete _ hcomplete =>
        rw [complete_iff_length hpos] at hcomplete
        rw [List.length_take]
        omega
      | deeper _ hlevel hnested =>
        have hall : ancestors level (i + 1) = ancestors level i ++ [i] := by
          rw [ancestors_succ, List.filter_eq_self]
          intro j hj
          rw [List.mem_append, List.mem_singleton, mem_ancestors] at hj
          rcases hj with hj | rfl
          · have := hj.2.1
            simp only [decide_eq_true_eq]
            omega
          · simpa using hlevel
        rw [hall, ← ih.mpr hnested]
        exact (List.take_sublist _ _).length_le

end Comparison

end Hippo.Outline
