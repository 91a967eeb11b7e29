import Mathlib.Data.List.MinMax

/-!
# The choice made by a left fold

A fold keeps the best element it has met. The result is described by what stands before and
after it, so ties are settled by the position.
-/
namespace Hippo.Selection

variable {α : Type} {r : α → α → Prop} {l : List α} {a : α}

/-- It beats all before it, and none after it beats it. -/
def Selected (r : α → α → Prop) (l : List α) (a : α) : Prop :=
  ∃ front back, l = front ++ a :: back ∧ (∀ b ∈ front, r a b) ∧ ∀ b ∈ back, ¬ r b a

theorem Selected.mem (h : Selected r l a) : a ∈ l := by
  obtain ⟨front, back, hl, -, -⟩ := h
  simp [hl]

theorem Selected.filter (h : Selected r l a) {p : α → Bool} (hp : p a = true) :
    Selected r (l.filter p) a := by
  obtain ⟨front, back, hl, hfront, hback⟩ := h
  refine ⟨front.filter p, back.filter p, ?_, ?_, ?_⟩
  · simp [hl, hp]
  · intro b hb
    exact hfront b (List.mem_of_mem_filter hb)
  · intro b hb
    exact hback b (List.mem_of_mem_filter hb)

section Fold

variable [DecidableRel r]

theorem foldl_argAux_of_not {back : List α} (h : ∀ b ∈ back, ¬ r b a) :
    back.foldl (List.argAux r) (some a) = some a := by
  induction back with
  | nil => rfl
  | cons b back ih =>
    have hb : List.argAux r (some a) b = some a := if_neg (h b (by simp))
    rw [List.foldl_cons, hb]
    exact ih fun c hc => h c (by simp [hc])

theorem mem_of_foldl_argAux (h : l.foldl (List.argAux r) none = some a) : a ∈ l := by
  induction l using List.reverseRecOn generalizing a with
  | nil => simp at h
  | append_singleton front b ih =>
    rw [List.foldl_append, List.foldl_cons, List.foldl_nil] at h
    cases hfront : front.foldl (List.argAux r) none with
    | none =>
      rw [hfront] at h
      have hab : b = a := Option.some.inj h
      simp [hab]
    | some c =>
      rw [hfront] at h
      have hc := ih hfront
      simp only [List.argAux] at h
      split_ifs at h
      · simp [Option.some.inj h]
      · simp [← Option.some.inj h, hc]

theorem Selected.foldl (h : Selected r l a) : l.foldl (List.argAux r) none = some a := by
  obtain ⟨front, back, hl, hfront, hback⟩ := h
  rw [hl, List.foldl_append, List.foldl_cons]
  have ha : List.argAux r (front.foldl (List.argAux r) none) a = some a := by
    cases hbest : front.foldl (List.argAux r) none with
    | none => rfl
    | some c => exact if_pos (hfront c (mem_of_foldl_argAux hbest))
  rw [ha]
  exact foldl_argAux_of_not hback

/-- The fold finds the selected element, if what beats the best one beats all before it. -/
theorem selected_of_foldl (htrans : ∀ a b c, r a b → r b c → r a c)
    (hcross : ∀ a b c, r a b → ¬ r c b → r a c) (h : l.foldl (List.argAux r) none = some a) :
    Selected r l a := by
  induction l using List.reverseRecOn generalizing a with
  | nil => simp at h
  | append_singleton front b ih =>
    rw [List.foldl_append, List.foldl_cons, List.foldl_nil] at h
    cases hbest : front.foldl (List.argAux r) none with
    | none =>
      rw [hbest] at h
      rw [List.foldl_argAux_eq_none] at hbest
      have hab : b = a := Option.some.inj h
      exact ⟨[], [], by simp [hbest.1, hab], by simp, by simp⟩
    | some c =>
      rw [hbest] at h
      obtain ⟨before, after, hfront, hbefore, hafter⟩ := ih hbest
      by_cases hbc : r b c
      · have hab : b = a := Option.some.inj ((if_pos hbc).symm.trans h)
        subst hab
        refine ⟨front, [], rfl, ?_, by simp⟩
        intro d hd
        simp only [hfront, List.mem_append, List.mem_cons] at hd
        rcases hd with hd | rfl | hd
        · exact htrans b c d hbc (hbefore d hd)
        · exact hbc
        · exact hcross b c d hbc (hafter d hd)
      · have hca : c = a := Option.some.inj ((if_neg hbc).symm.trans h)
        subst hca
        refine ⟨before, after ++ [b], by simp [hfront], hbefore, ?_⟩
        intro d hd
        simp only [List.mem_append, List.mem_singleton] at hd
        rcases hd with hd | rfl
        · exact hafter d hd
        · exact hbc

/-- The choice depends on the comparisons within the list only. -/
theorem foldl_argAux_congr {r' : α → α → Prop} [DecidableRel r'] (best : Option α)
    (hbest : ∀ a ∈ best, ∀ b ∈ l, r b a ↔ r' b a) (h : ∀ a ∈ l, ∀ b ∈ l, r b a ↔ r' b a) :
    l.foldl (List.argAux r) best = l.foldl (List.argAux r') best := by
  induction l generalizing best with
  | nil => rfl
  | cons b l ih =>
    have hstep : List.argAux r best b = List.argAux r' best b := by
      cases best with
      | none => rfl
      | some a => simp only [List.argAux, hbest a rfl b (by simp)]
    rw [List.foldl_cons, List.foldl_cons, ← hstep]
    refine ih _ (fun a ha c hc => ?_) fun a ha c hc => h a (by simp [ha]) c (by simp [hc])
    cases best with
    | none =>
      have hba : b = a := Option.some.inj ha
      exact h a (by simp [hba]) c (by simp [hc])
    | some d =>
      simp only [List.argAux] at ha
      split_ifs at ha
      · have hba : b = a := Option.some.inj ha
        exact h a (by simp [hba]) c (by simp [hc])
      · exact hbest a ha c (by simp [hc])

/-- Removing others does not change the choice. -/
theorem foldl_argAux_filter (htrans : ∀ a b c, r a b → r b c → r a c)
    (hcross : ∀ a b c, r a b → ¬ r c b → r a c) {p : α → Bool}
    (hp : ∀ a, Selected r l a → p a = true) :
    (l.filter p).foldl (List.argAux r) none = l.foldl (List.argAux r) none := by
  cases h : l.foldl (List.argAux r) none with
  | none =>
    rw [List.foldl_argAux_eq_none] at h
    simp [h.1]
  | some a =>
    have ha := selected_of_foldl htrans hcross h
    exact (ha.filter (hp a ha)).foldl

end Fold

end Hippo.Selection
