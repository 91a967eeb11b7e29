import Mathlib.Data.List.Nodup
import Mathlib.Data.List.Pairwise
import Mathlib.Data.List.Perm.Basic
import Mathlib.Data.List.Perm.Subperm
import Mathlib.Logic.Relation

/-!
# A search that stops at the first node it meets twice

The search takes a node from a stack, stops if it has seen the node, and pushes the successors of
the node otherwise. What has been taken and what is on the stack is what has been pushed: the
start, and the successors of each node taken. So a node comes up twice if it is below two nodes.
-/
namespace Hippo.Worklist

variable {α : Type*}

section Graph

def Reaches (next : α → List α) : α → α → Prop := Relation.ReflTransGen fun a b => b ∈ next a

/-- No node below the root leads to it, and none is below two nodes. -/
structure Tree (next : α → List α) (top : α) : Prop where
  root : ∀ a, Reaches next top a → top ∉ next a
  parent : ∀ a b c, Reaches next top a → Reaches next top b → c ∈ next a → c ∈ next b → a = b

variable {next : α → List α} {top : α} {visited : List α}

/-- In a tree every node is pushed once. -/
theorem Tree.nodup_pushed (h : Tree next top) (hnext : ∀ a, (next a).Nodup)
    (hvisited : visited.Nodup) (hreach : ∀ a ∈ visited, Reaches next top a) :
    (top :: visited.flatMap next).Nodup := by
  rw [List.nodup_cons, List.nodup_flatMap]
  refine ⟨fun hmem => ?_, fun a _ => hnext a, ?_⟩
  · obtain ⟨a, ha, htop⟩ := List.mem_flatMap.mp hmem
    exact h.root a (hreach a ha) htop
  · refine hvisited.imp_of_mem fun {a b} ha hb hne c hca hcb => ?_
    exact hne (h.parent a b c (hreach a ha) (hreach b hb) hca hcb)

/-- A graph whose nodes are pushed once is a tree. -/
theorem tree_of_nodup_pushed (hreach : ∀ a, Reaches next top a → a ∈ visited)
    (h : (top :: visited.flatMap next).Nodup) : Tree next top := by
  obtain ⟨htop, hflat⟩ := List.nodup_cons.mp h
  obtain ⟨-, hdisjoint⟩ := List.nodup_flatMap.mp hflat
  constructor
  · intro a ha hmem
    exact htop (List.mem_flatMap.mpr ⟨a, hreach a ha, hmem⟩)
  · intro a b c ha hb hca hcb
    by_contra hne
    have hsymm : Std.Symm (Function.onFun List.Disjoint next) :=
      ⟨fun _ _ hd _ hb ha => hd ha hb⟩
    exact hdisjoint.forall (hreach a ha) (hreach b hb) hne hca hcb

end Graph

section Search

variable [DecidableEq α]

/-- Whether a node comes up that is seen; `none` if the search has not ended after `fuel` rounds. -/
def revisits (next : α → List α) : ℕ → List α → List α → Option Bool
  | _, _, [] => some false
  | 0, _, _ :: _ => none
  | fuel + 1, seen, current :: frontier =>
    if current ∈ seen then some true
    else revisits next fuel (current :: seen) ((next current).reverse ++ frontier)

variable {next : α → List α} {goal start current : α} {visited frontier nodes : List α} {fuel : ℕ}

/-- The nodes taken and the nodes on the stack. -/
structure Pushed (next : α → List α) (goal start : α) (visited frontier : List α) : Prop where
  perm : (visited ++ frontier).Perm (start :: visited.flatMap next)
  nodup : visited.Nodup
  goal : goal ∉ visited
  reach : ∀ a ∈ visited ++ frontier, Reaches next start a

omit [DecidableEq α] in
theorem pushed_start : Pushed next goal start [] [start] where
  perm := List.Perm.refl _
  nodup := List.nodup_nil
  goal := List.not_mem_nil
  reach a ha := by
    rw [List.nil_append, List.mem_singleton] at ha
    exact ha ▸ Relation.ReflTransGen.refl

theorem Pushed.step (h : Pushed next goal start visited (current :: frontier))
    (hnew : current ∉ visited ++ [goal]) :
    Pushed next goal start (current :: visited) ((next current).reverse ++ frontier) := by
  rw [List.mem_append, List.mem_singleton, not_or] at hnew
  have hcurrent : Reaches next start current := h.reach current (by simp)
  constructor
  · rw [List.perm_iff_count]
    intro a
    have hcount := h.perm.count_eq a
    simp only [List.count_append, List.count_cons, List.count_reverse, List.flatMap_cons] at *
    omega
  · exact List.nodup_cons.mpr ⟨hnew.1, h.nodup⟩
  · intro hmem
    rcases List.mem_cons.mp hmem with hgoal | hmem
    · exact hnew.2 hgoal.symm
    · exact h.goal hmem
  · intro a ha
    simp only [List.cons_append, List.mem_cons, List.mem_append, List.mem_reverse] at ha
    rcases ha with rfl | ha | ha | ha
    · exact hcurrent
    · exact h.reach a (List.mem_append_left _ ha)
    · exact hcurrent.tail ha
    · exact h.reach a (by simp [ha])

/-- A search that finds nothing has taken everything it pushed. -/
theorem pushed_of_revisits_false (h : Pushed next goal start visited frontier)
    (hrun : revisits next fuel (visited ++ [goal]) frontier = some false) :
    ∃ all, Pushed next goal start all [] := by
  induction fuel generalizing visited frontier with
  | zero =>
    cases frontier with
    | nil => exact ⟨visited, h⟩
    | cons current frontier => cases hrun
  | succ fuel ih =>
    cases frontier with
    | nil => exact ⟨visited, h⟩
    | cons current frontier =>
      rw [revisits] at hrun
      split_ifs at hrun with hseen
      · cases hrun
      · exact ih (h.step hseen) hrun

/-- A search that finds something has pushed it twice, or it is the goal. -/
theorem pushed_of_revisits_true (h : Pushed next goal start visited frontier)
    (hrun : revisits next fuel (visited ++ [goal]) frontier = some true) :
    ∃ visited current frontier, Pushed next goal start visited (current :: frontier) ∧
      current ∈ visited ++ [goal] := by
  induction fuel generalizing visited frontier with
  | zero => cases frontier <;> cases hrun
  | succ fuel ih =>
    cases frontier with
    | nil => cases hrun
    | cons current frontier =>
      rw [revisits] at hrun
      split_ifs at hrun with hseen
      · exact ⟨visited, current, frontier, h, hseen⟩
      · exact ih (h.step hseen) hrun

/-- Each round takes another one of the nodes, so the search ends. -/
theorem revisits_isSome (hnext : ∀ a, ∀ b ∈ next a, b ∈ nodes)
    (hfrontier : ∀ a ∈ frontier, a ∈ nodes) (hnodup : visited.Nodup)
    (hvisited : ∀ a ∈ visited, a ∈ nodes) (hfuel : nodes.length < fuel + visited.length) :
    (revisits next fuel (visited ++ [goal]) frontier).isSome = true := by
  induction fuel generalizing visited frontier with
  | zero =>
    have hlength := (List.subperm_of_subset hnodup hvisited).length_le
    omega
  | succ fuel ih =>
    cases frontier with
    | nil => rfl
    | cons current frontier =>
      rw [revisits]
      split_ifs with hseen
      · rfl
      · rw [List.mem_append, not_or] at hseen
        have hcurrent : current ∈ nodes := hfrontier current List.mem_cons_self
        refine @ih (current :: visited) _ ?_ (List.nodup_cons.mpr ⟨hseen.1, hnodup⟩)
          (List.forall_mem_cons.mpr ⟨hcurrent, hvisited⟩) (by rw [List.length_cons]; omega)
        intro a ha
        rcases List.mem_append.mp ha with ha | ha
        · exact hnext current a (List.mem_reverse.mp ha)
        · exact hfrontier a (List.mem_cons_of_mem current ha)

/-- The search finds nothing exactly if the goal is not below the start and what is below the start
is a tree. -/
theorem revisits_eq_false_iff (hnodup : ∀ a, (next a).Nodup)
    (hnext : ∀ a, ∀ b ∈ next a, b ∈ nodes) (hfuel : nodes.length + 1 < fuel) :
    revisits next fuel [goal] [start] = some false ↔
      ¬ Reaches next start goal ∧ Tree next start := by
  constructor
  · intro hrun
    obtain ⟨all, hall⟩ := @pushed_of_revisits_false _ _ _ goal start [] _ _ pushed_start hrun
    have hperm : all.Perm (start :: all.flatMap next) := by simpa using hall.perm
    have hreach : ∀ a, Reaches next start a → a ∈ all := by
      intro a ha
      induction ha with
      | refl => exact hperm.mem_iff.mpr List.mem_cons_self
      | tail _ hedge ih =>
        exact hperm.mem_iff.mpr (List.mem_cons_of_mem _ (List.mem_flatMap.mpr ⟨_, ih, hedge⟩))
    exact ⟨fun hgoal => hall.goal (hreach goal hgoal),
      tree_of_nodup_pushed hreach (hperm.nodup_iff.mp hall.nodup)⟩
  · intro ⟨hgoal, htree⟩
    have hsome : (revisits next fuel ([] ++ [goal]) [start]).isSome = true := by
      refine @revisits_isSome _ _ _ goal [] [start] (start :: nodes) _
        (fun a b hb => List.mem_cons_of_mem start (hnext a b hb)) ?_ List.nodup_nil ?_ ?_
      · simp
      · simp
      · simpa using hfuel
    obtain ⟨found, hrun⟩ := Option.isSome_iff_exists.mp hsome
    cases found with
    | false => exact hrun
    | true =>
      obtain ⟨visited, current, frontier, hpushed, hseen⟩ :=
        pushed_of_revisits_true pushed_start hrun
      have honce := htree.nodup_pushed hnodup hpushed.nodup fun a ha =>
        hpushed.reach a (List.mem_append_left _ ha)
      rw [← hpushed.perm.nodup_iff, List.nodup_append] at honce
      rcases List.mem_append.mp hseen with hvisited | heq
      · exact absurd rfl (honce.2.2 current hvisited current List.mem_cons_self)
      · rw [List.mem_singleton] at heq
        exact absurd (heq ▸ hpushed.reach current (by simp)) hgoal

end Search

end Hippo.Worklist
