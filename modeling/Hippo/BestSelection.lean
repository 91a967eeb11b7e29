import Mathlib.Data.List.Sort
import Mathlib.Data.List.Nodup

/-!
# The best elements of a list

The first elements of a list in the order of a key, and how they come out of a sorted list that is
filtered and cut.
-/
namespace Hippo.BestSelection

variable {α κ : Type*} [LinearOrder κ] {key : α → κ} {l all best : List α} {k : ℕ}

/-- `sorted` by a key. -/
def sortOn (key : α → κ) (l : List α) : List α := l.insertionSort fun a b => key a ≤ key b

/-- `best` has the `k` elements of `all` that come first, in order, or all of them. -/
structure Best (key : α → κ) (k : ℕ) (all best : List α) : Prop where
  subset : best ⊆ all
  length_eq : best.length = min k all.length
  ordered : best.Pairwise fun a b => key a < key b
  rest : ∀ a ∈ all, a ∉ best → ∀ b ∈ best, key b < key a

theorem sortOn_perm (key : α → κ) (l : List α) : (sortOn key l).Perm l :=
  List.perm_insertionSort _ l

theorem pairwise_sortOn (h : l.Pairwise fun a b => key a ≠ key b) :
    (sortOn key l).Pairwise fun a b => key a < key b := by
  have htotal : Std.Total fun a b => key a ≤ key b := ⟨fun a b => le_total (key a) (key b)⟩
  have htrans : IsTrans α fun a b => key a ≤ key b := ⟨fun _ _ _ => le_trans⟩
  have hle : (sortOn key l).Pairwise fun a b => key a ≤ key b := List.pairwise_insertionSort _ l
  have hne : (sortOn key l).Pairwise fun a b => key a ≠ key b :=
    ((sortOn_perm key l).pairwise_iff fun h => h.symm).mpr h
  exact (hle.and hne).imp fun h => lt_of_le_of_ne h.1 h.2

/-- A sorted list of the elements begins with the best ones. -/
theorem best_take (hperm : l.Perm all) (h : l.Pairwise fun a b => key a < key b) :
    Best key k all (l.take k) where
  subset := fun _ ha => hperm.mem_iff.mp (List.mem_of_mem_take ha)
  length_eq := by rw [List.length_take, hperm.length_eq]
  ordered := h.sublist (List.take_sublist k l)
  rest := by
    intro a ha hbest b hb
    rw [← List.take_append_drop k l] at h
    have hl : a ∈ l.take k ++ l.drop k := by
      rw [List.take_append_drop]
      exact hperm.mem_iff.mpr ha
    have hdrop : a ∈ l.drop k := (List.mem_append.mp hl).resolve_left hbest
    exact (List.pairwise_append.mp h).2.2 b hb a hdrop

end Hippo.BestSelection
