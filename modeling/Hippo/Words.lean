import Mathlib.Data.List.Basic
import Mathlib.Tactic.SplitIfs
import Mathlib.Algebra.Order.Ring.Int

/-!
# Words of a text

A text is split at its separators into words, and words are joined by one separator each. Joining
and splitting again gives the words back.
-/
namespace Hippo.Words

variable {α : Type} {p : α → Bool} {sep : α} {s w : List α} {ws : List (List α)}

/-- The parts between separators that are not empty. -/
def words (p : α → Bool) (s : List α) : List (List α) := (s.splitOnP p).filter (· ≠ [])

/-- The words with one separator between two of them. -/
def unwords (sep : α) (ws : List (List α)) : List α := [sep].intercalate ws

/-- Words are not empty and have no separators. -/
def AreWords (p : α → Bool) (ws : List (List α)) : Prop := ∀ w ∈ ws, w ≠ [] ∧ ∀ a ∈ w, p a = false

theorem part_of_splitOnP (h : w ∈ s.splitOnP p) : ∀ a ∈ w, a ∈ s ∧ p a = false := by
  induction s generalizing w with
  | nil => simp_all
  | cons c s ih =>
    rw [List.splitOnP_cons_eq_if_modifyHead] at h
    split_ifs at h with hc
    · rcases List.mem_cons.mp h with rfl | h
      · simp
      · intro a ha
        exact ⟨List.mem_cons_of_mem _ (ih h a ha).1, (ih h a ha).2⟩
    · obtain ⟨part, parts, hparts⟩ := List.exists_cons_of_ne_nil (List.splitOnP_ne_nil p s)
      rw [hparts, List.modifyHead_cons] at h
      rcases List.mem_cons.mp h with rfl | h
      · intro a ha
        rcases List.mem_cons.mp ha with rfl | ha
        · exact ⟨List.mem_cons_self, by simpa using hc⟩
        · have hmem := ih (hparts ▸ List.mem_cons_self) a ha
          exact ⟨List.mem_cons_of_mem _ hmem.1, hmem.2⟩
      · intro a ha
        have hmem := ih (hparts ▸ List.mem_cons_of_mem _ h) a ha
        exact ⟨List.mem_cons_of_mem _ hmem.1, hmem.2⟩

/-- The first part stands at the beginning, the others somewhere. -/
theorem splitOnP_parts (p : α → Bool) (s : List α) :
    ∃ first rest, s.splitOnP p = first :: rest ∧ first <+: s ∧ ∀ w ∈ rest, w <:+: s := by
  induction s with
  | nil => exact ⟨[], [], List.splitOnP_nil, List.prefix_rfl, by simp⟩
  | cons c s ih =>
    obtain ⟨first, rest, hs, hfirst, hrest⟩ := ih
    have hlater : ∀ w ∈ rest, w <:+: c :: s := fun w hw =>
      (hrest w hw).trans (List.suffix_cons c s).isInfix
    rw [List.splitOnP_cons_eq_if_modifyHead]
    split_ifs with hc
    · refine ⟨[], first :: rest, by rw [hs], List.nil_prefix, ?_⟩
      intro w hw
      rcases List.mem_cons.mp hw with rfl | hw
      · exact hfirst.isInfix.trans (List.suffix_cons c s).isInfix
      · exact hlater w hw
    · exact ⟨c :: first, rest, by rw [hs, List.modifyHead_cons],
        (List.prefix_cons_inj c).mpr hfirst, hlater⟩

theorem areWords_words (p : α → Bool) (s : List α) : AreWords p (words p s) := by
  intro w hw
  obtain ⟨hpart, hne⟩ := List.mem_filter.mp hw
  exact ⟨by simpa using hne, fun a ha => (part_of_splitOnP hpart a ha).2⟩

theorem mem_of_mem_words {a : α} (hw : w ∈ words p s) (ha : a ∈ w) : a ∈ s :=
  (part_of_splitOnP (List.mem_filter.mp hw).1 a ha).1

theorem unwords_cons_cons (sep : α) (w w' : List α) (ws : List (List α)) :
    unwords sep (w :: w' :: ws) = w ++ sep :: unwords sep (w' :: ws) := by
  simp [unwords, List.intercalate]

@[simp] theorem unwords_singleton (sep : α) (w : List α) : unwords sep [w] = w := by
  simp [unwords, List.intercalate]

@[simp] theorem unwords_nil (sep : α) : unwords sep [] = [] := rfl

/-- Splitting joined words gives the words. -/
theorem words_unwords (hsep : p sep = true) (h : AreWords p ws) :
    words p (unwords sep ws) = ws := by
  induction ws with
  | nil => simp [words]
  | cons w rest ih =>
    obtain ⟨hne, hw⟩ := h w List.mem_cons_self
    have hrest := ih fun v hv => h v (List.mem_cons_of_mem _ hv)
    cases rest with
    | nil =>
      rw [unwords_singleton, words, List.splitOnP_eq_singleton hw]
      simp [hne]
    | cons w' rest =>
      rw [words] at hrest
      rw [unwords_cons_cons, words, List.splitOnP_append_cons_of_forall_mem hw sep hsep,
        List.filter_cons, hrest]
      simp [hne]

theorem mem_unwords {a : α} (h : a ∈ unwords sep ws) : a = sep ∨ ∃ w ∈ ws, a ∈ w := by
  induction ws with
  | nil => simp at h
  | cons w rest ih =>
    cases rest with
    | nil => exact Or.inr ⟨w, List.mem_cons_self, by simpa using h⟩
    | cons w' rest =>
      rw [unwords_cons_cons, List.mem_append, List.mem_cons] at h
      rcases h with h | rfl | h
      · exact Or.inr ⟨w, List.mem_cons_self, h⟩
      · exact Or.inl rfl
      · exact (ih h).imp_right fun ⟨v, hv, ha⟩ => ⟨v, List.mem_cons_of_mem _ hv, ha⟩

/-- Joined words begin with no separator. -/
theorem head?_unwords (h : AreWords p ws) : ∀ a ∈ (unwords sep ws).head?, p a = false := by
  intro a ha
  cases ws with
  | nil => simp at ha
  | cons w rest =>
    obtain ⟨hne, hw⟩ := h w List.mem_cons_self
    obtain ⟨c, w, rfl⟩ := List.exists_cons_of_ne_nil hne
    have hhead : a = c := by
      cases rest with
      | nil => simpa using ha.symm
      | cons w' rest =>
        rw [unwords_cons_cons] at ha
        simpa using ha.symm
    rw [hhead]
    exact hw c List.mem_cons_self

/-- Joined words end with no separator. -/
theorem getLast?_unwords (h : AreWords p ws) : ∀ a ∈ (unwords sep ws).getLast?, p a = false := by
  intro a ha
  induction ws with
  | nil => simp at ha
  | cons w rest ih =>
    obtain ⟨hne, hw⟩ := h w List.mem_cons_self
    cases rest with
    | nil =>
      rw [unwords_singleton] at ha
      exact hw a (List.mem_of_getLast? ha)
    | cons w' rest =>
      refine ih (fun v hv => h v (List.mem_cons_of_mem _ hv)) ?_
      rw [unwords_cons_cons] at ha
      have hne' : unwords sep (w' :: rest) ≠ [] := by
        obtain ⟨hw', -⟩ := h w' (List.mem_cons_of_mem _ List.mem_cons_self)
        cases rest with
        | nil => simpa using hw'
        | cons w'' rest => simp [unwords_cons_cons]
      rwa [List.getLast?_append_of_ne_nil _ (List.cons_ne_nil _ _),
        List.getLast?_cons_of_ne_nil hne'] at ha

theorem sum_splitOnP (p : α → Bool) (s : List α) :
    ((s.splitOnP p).map fun part => part.length + 1).sum = s.length + 1 := by
  induction s with
  | nil => simp
  | cons c s ih =>
    rw [List.splitOnP_cons_eq_if_modifyHead]
    split_ifs with hc
    · rw [List.map_cons, List.sum_cons, ih]
      simp only [List.length_nil, List.length_cons]
      omega
    · obtain ⟨part, parts, hparts⟩ := List.exists_cons_of_ne_nil (List.splitOnP_ne_nil p s)
      rw [hparts] at ih ⊢
      simp only [List.modifyHead_cons, List.map_cons, List.sum_cons, List.length_cons] at ih ⊢
      omega

theorem sum_filter_le (f : List α → ℕ) (q : List α → Bool) (ws : List (List α)) :
    ((ws.filter q).map f).sum ≤ (ws.map f).sum := by
  induction ws with
  | nil => simp
  | cons w rest ih =>
    cases hq : q w with
    | false =>
      simp only [List.filter_cons, hq, Bool.false_eq_true, if_false, List.map_cons, List.sum_cons]
      omega
    | true =>
      simp only [List.filter_cons, hq, if_true, List.map_cons, List.sum_cons]
      omega

theorem length_unwords_le (sep : α) (ws : List (List α)) :
    (unwords sep ws).length ≤ (ws.map fun w => w.length + 1).sum - 1 := by
  induction ws with
  | nil => simp
  | cons w rest ih =>
    cases rest with
    | nil => simp
    | cons w' rest =>
      rw [unwords_cons_cons]
      simp only [List.map_cons, List.sum_cons, List.length_append, List.length_cons] at ih ⊢
      omega

/-- Joining the words of a text does not make it longer. -/
theorem length_unwords_words_le (p : α → Bool) (sep : α) (s : List α) :
    (unwords sep (words p s)).length ≤ s.length := by
  have hsub : ((words p s).map fun w => w.length + 1).sum ≤
      ((s.splitOnP p).map fun w => w.length + 1).sum := sum_filter_le _ _ _
  have hle := length_unwords_le sep (words p s)
  have hsum := sum_splitOnP p s
  omega

end Hippo.Words
