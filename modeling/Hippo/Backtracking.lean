import Mathlib.Data.List.TakeWhile
import Mathlib.Data.Nat.Notation

/-!
# Backtracking patterns

A pattern yields its matches in the order in which a backtracking engine tries them, each with
the text that is left; the match of the engine is the first one of the list.
-/
namespace Hippo.Backtracking

variable {α β : Type} {p : α → Bool} {low high : ℕ} {text front back : List α}

/-- `p{low,high}?`: the shortest run first. -/
def reluctant (p : α → Bool) (low high : ℕ) (text : List α) : List (List α × List α) :=
  ((List.range (min high (text.takeWhile p).length + 1)).drop low).map fun n => text.splitAt n

/-- `p{low,high}`: the longest run first. -/
def greedy (p : α → Bool) (low high : ℕ) (text : List α) : List (List α × List α) :=
  (reluctant p low high text).reverse

theorem mem_reluctant (h : (front, back) ∈ reluctant p low high text) :
    text = front ++ back ∧ (∀ a ∈ front, p a = true) ∧ low ≤ front.length := by
  simp only [reluctant, List.mem_map, List.splitAt_eq, Prod.mk.injEq] at h
  obtain ⟨n, hn, hfront, hback⟩ := h
  have hlow : low ≤ n := by
    obtain ⟨k, hk, hget⟩ := List.getElem_of_mem hn
    rw [List.getElem_drop, List.getElem_range] at hget
    omega
  have hrun : n ≤ (text.takeWhile p).length := by
    have := List.mem_range.mp (List.mem_of_mem_drop hn)
    omega
  have happend : (text.takeWhile p ++ text.dropWhile p).take n = (text.takeWhile p).take n :=
    List.take_append_of_le_length hrun
  rw [List.takeWhile_append_dropWhile, hfront] at happend
  refine ⟨?_, ?_, ?_⟩
  · rw [← hfront, ← hback, List.take_append_drop]
  · intro a ha
    rw [happend] at ha
    exact List.mem_takeWhile_imp (List.mem_of_mem_take ha)
  · rw [happend, List.length_take]
    omega

theorem mem_greedy (h : (front, back) ∈ greedy p low high text) :
    text = front ++ back ∧ (∀ a ∈ front, p a = true) ∧ low ≤ front.length :=
  mem_reluctant (List.mem_reverse.mp h)

section Finditer

variable {read : Option α → List α → Option (β × List α)} {prev : Option α} {start skip : ℕ}
  {found : β} {position : ℕ}

/-- The matches from left to right with their positions, none inside another one. `read` is a
pattern that matches no empty text; it sees the element before the text. -/
def finditer (read : Option α → List α → Option (β × List α)) :
    Option α → ℕ → ℕ → List α → List (ℕ × β)
  | _, _, _, [] => []
  | _, start, skip + 1, a :: rest => finditer read (some a) (start + 1) skip rest
  | prev, start, 0, a :: rest =>
    match read prev (a :: rest) with
    | none => finditer read (some a) (start + 1) 0 rest
    | some (found, left) =>
      (start, found) :: finditer read (some a) (start + 1) (rest.length - left.length) rest

/-- A match is one of the pattern at its position. -/
theorem read_of_mem_finditer (h : (position, found) ∈ finditer read prev start skip text) :
    start ≤ position ∧ position < start + text.length ∧
      ∃ before left, read before (text.drop (position - start)) = some (found, left) := by
  fun_induction finditer read prev start skip text with
  | case1 => simp at h
  | case2 prev start skip a rest ih =>
    obtain ⟨hle, hlt, hread⟩ := ih h
    refine ⟨by omega, by simp only [List.length_cons]; omega, ?_⟩
    rwa [show position - start = position - (start + 1) + 1 by omega, List.drop_succ_cons]
  | case3 prev start a rest hnone ih =>
    obtain ⟨hle, hlt, hread⟩ := ih h
    refine ⟨by omega, by simp only [List.length_cons]; omega, ?_⟩
    rwa [show position - start = position - (start + 1) + 1 by omega, List.drop_succ_cons]
  | case4 prev start a rest found' left hfound ih =>
    rw [List.mem_cons] at h
    rcases h with heq | h
    · obtain ⟨rfl, rfl⟩ := Prod.mk.inj heq
      refine ⟨by omega, by simp, prev, left, ?_⟩
      rwa [Nat.sub_self, List.drop_zero]
    · obtain ⟨hle, hlt, hread⟩ := ih h
      refine ⟨by omega, by simp only [List.length_cons]; omega, ?_⟩
      rwa [show position - start = position - (start + 1) + 1 by omega, List.drop_succ_cons]

theorem pairwise_finditer :
    (finditer read prev start skip text).Pairwise fun m n => m.1 < n.1 := by
  fun_induction finditer read prev start skip text with
  | case1 => exact List.Pairwise.nil
  | case2 prev start skip a rest ih => exact ih
  | case3 prev start a rest hnone ih => exact ih
  | case4 prev start a rest found left hfound ih =>
    rw [List.pairwise_cons]
    refine ⟨fun m hm => ?_, ih⟩
    have := (read_of_mem_finditer hm).1
    show start < m.1
    omega

end Finditer

end Hippo.Backtracking
