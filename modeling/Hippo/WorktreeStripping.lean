import Hippo.EntityNames
import Mathlib.Data.List.Chain

/-!
# Stripping worktrees

One substitution removes the worktree segments of a path from left to right. What it joins may be a
segment again, so `strip_worktree_prefix` repeats it, once more than the path has markers.
-/
namespace Hippo.EntityNames

/-- `re.search` with the worktree pattern finds something. -/
def HasWorktree (atStart : Bool) (s : List Char) : Prop :=
  ∃ before rest, s = before ++ rest ∧ (worktreeMatch (atStart && before.isEmpty) rest).isSome

section Match

variable {atStart : Bool} {s group1 rest replacement : List Char} {length : ℕ}

/-- The parts of a match and what is put in its place. -/
structure Segment (s group1 replacement tail : List Char) : Prop where
  parts : ∃ name group2, s = group1 ++ worktreeMarker ++ name ++ group2 ++ tail ∧
    (group2 = [] → tail = []) ∧ replacement = if group2 = [] then [] else group1

theorem worktreeSegment_some (h : worktreeSegment group1 rest = some (replacement, length)) :
    Segment (group1 ++ rest) group1 replacement ((group1 ++ rest).drop length) := by
  let tail := rest.drop worktreeMarker.length
  let name := tail.takeWhile (· ≠ '/')
  let group2 := (tail.dropWhile (· ≠ '/')).take 1
  simp only [worktreeSegment] at h
  split at h
  · rename_i hmatch
    obtain ⟨hreplacement, hlength⟩ := Prod.mk.inj (Option.some.inj h)
    have hrest : rest = worktreeMarker ++ tail := by
      obtain ⟨more, rfl⟩ := List.isPrefixOf_iff_prefix.mp hmatch.1
      exact congrArg (worktreeMarker ++ ·) List.drop_left.symm
    have htail : tail = name ++ group2 ++ (tail.dropWhile (· ≠ '/')).drop 1 := by
      rw [List.append_assoc, List.take_append_drop, List.takeWhile_append_dropWhile]
    have hs : group1 ++ rest = group1 ++ worktreeMarker ++ name ++ group2 ++
        (tail.dropWhile (· ≠ '/')).drop 1 := by
      rw [hrest]
      conv_lhs => rw [htail]
      simp only [List.append_assoc]
    have hdrop : (group1 ++ rest).drop length = (tail.dropWhile (· ≠ '/')).drop 1 := by
      have hlen : length = (group1 ++ worktreeMarker ++ name ++ group2).length := by
        rw [← hlength, List.length_append, List.length_append, List.length_append]
      rw [hs, hlen, List.drop_left]
    refine ⟨name, group2, by rw [hdrop]; exact hs, fun hend => ?_, hreplacement.symm⟩
    rw [hdrop]
    have hnil : tail.dropWhile (· ≠ '/') = [] := by
      simpa [group2] using hend
    rw [hnil, List.drop_nil]
  · cases h

theorem worktreeMatch_some (h : worktreeMatch atStart s = some (replacement, length)) :
    ∃ group1, ((group1 = [] ∧ atStart = true) ∨ group1 = ['/']) ∧
      Segment s group1 replacement (s.drop length) := by
  unfold worktreeMatch at h
  rcases Option.or_eq_some_iff.mp h with h | ⟨-, h⟩
  · split at h
    · rename_i hstart
      exact ⟨[], Or.inl ⟨rfl, hstart⟩, worktreeSegment_some h⟩
    · cases h
  · split at h
    · rename_i hhead
      obtain ⟨s, rfl⟩ : ∃ rest, s = '/' :: rest := by
        cases s with
        | nil => cases hhead
        | cons c cs => exact ⟨cs, by rw [Option.some.inj hhead]⟩
      exact ⟨['/'], Or.inr rfl, worktreeSegment_some h⟩
    · cases h

end Match

section Substitution

variable {atStart : Bool} {s : List Char}

theorem subWorktrees_skip (skip : ℕ) (s : List Char) :
    subWorktrees false skip s = subWorktrees false 0 (s.drop skip) := by
  induction skip generalizing s with
  | zero => rfl
  | succ skip ih =>
    cases s with
    | nil => rfl
    | cons c cs => exact ih cs

/-- One character is kept, or a match is replaced. -/
theorem subWorktrees_cons (atStart : Bool) (c : Char) (cs : List Char) :
    (worktreeMatch atStart (c :: cs) = none ∧
      subWorktrees atStart 0 (c :: cs) = c :: subWorktrees false 0 cs) ∨
    ∃ group1 replacement tail, ((group1 = [] ∧ atStart = true) ∨ group1 = ['/']) ∧
      Segment (c :: cs) group1 replacement tail ∧
      subWorktrees atStart 0 (c :: cs) = replacement ++ subWorktrees false 0 tail ∧
      (worktreeMatch atStart (c :: cs)).isSome := by
  cases hmatch : worktreeMatch atStart (c :: cs) with
  | none =>
    left
    simp [subWorktrees, hmatch]
  | some found =>
    right
    obtain ⟨replacement, length⟩ := found
    obtain ⟨group1, hgroup1, hsegment⟩ := worktreeMatch_some hmatch
    refine ⟨group1, replacement, _, hgroup1, hsegment, ?_, rfl⟩
    have hlength : 0 < length := by
      rcases Nat.eq_zero_or_pos length with rfl | hpos
      · obtain ⟨name, group2, hparts, -⟩ := hsegment.parts
        have hle := congrArg List.length hparts
        simp only [List.drop_zero, List.length_append] at hle
        have hmarker : worktreeMarker.length = 18 := by decide
        omega
      · exact hpos
    have hdrop : cs.drop (length - 1) = (c :: cs).drop length := by
      obtain ⟨k, rfl⟩ : ∃ k, length = k + 1 := ⟨length - 1, by omega⟩
      rfl
    simp only [subWorktrees, hmatch]
    rw [subWorktrees_skip, hdrop]

theorem Segment.sublist {group1 replacement tail : List Char}
    (h : Segment s group1 replacement tail) : (replacement ++ tail).Sublist s ∧
      (replacement ++ tail).length < s.length := by
  obtain ⟨name, group2, hs, -, hreplacement⟩ := h.parts
  have hsub : replacement.Sublist group1 := by
    rw [hreplacement]
    split
    · exact List.nil_sublist _
    · exact List.Sublist.refl _
  have hmarker : worktreeMarker.length = 18 := by decide
  have hle := hsub.length_le
  constructor
  · rw [hs]
    refine List.Sublist.append ?_ (List.Sublist.refl tail)
    simp only [List.append_assoc]
    exact hsub.trans (List.sublist_append_left _ _)
  · rw [hs]
    simp only [List.length_append]
    omega

theorem subWorktrees_sublist (atStart : Bool) (s : List Char) :
    (subWorktrees atStart 0 s).Sublist s := by
  induction hn : s.length using Nat.strong_induction_on generalizing atStart s with
  | h n ih =>
    subst hn
    cases s with
    | nil => exact List.Sublist.refl _
    | cons c cs =>
      rcases subWorktrees_cons atStart c cs with ⟨-, h⟩ | ⟨group1, replacement, tail, -, hs, h, -⟩
      · rw [h]
        exact (ih cs.length (by simp) false cs rfl).cons_cons c
      · obtain ⟨hsub, hlt⟩ := hs.sublist
        have htail : tail.length < (c :: cs).length := by
          rw [List.length_append] at hlt
          omega
        rw [h]
        exact (((ih _ htail false tail rfl).append_left replacement)).trans hsub

theorem head?_subWorktrees {s : List Char} {c : Char}
    (h : (subWorktrees false 0 s).head? = some c) : s.head? = some c := by
  cases s with
  | nil => cases h
  | cons d cs =>
    rcases subWorktrees_cons false d cs with ⟨-, heq⟩ | ⟨group1, replacement, tail, hg, hs, heq, -⟩
    · rw [heq] at h
      exact h
    · obtain ⟨-, hfalse⟩ | rfl := hg
      · cases hfalse
      · obtain ⟨name, group2, hparts, hend, hreplacement⟩ := hs.parts
        rw [heq, hreplacement] at h
        split at h
        · rename_i hnil
          rw [hend hnil] at h
          cases h
        · rw [hparts]
          exact h

/-- What holds of neighbours, and of a slash before anything, still holds. -/
theorem isChain_subWorktrees {R : Char → Char → Prop} (hslash : ∀ c, R '/' c) (atStart : Bool)
    (h : s.IsChain R) : (subWorktrees atStart 0 s).IsChain R := by
  induction hn : s.length using Nat.strong_induction_on generalizing atStart s with
  | h n ih =>
    subst hn
    cases s with
    | nil => exact h
    | cons c cs =>
      obtain ⟨hc, hcs⟩ := List.isChain_cons.mp h
      rcases subWorktrees_cons atStart c cs with
        ⟨-, heq⟩ | ⟨group1, replacement, tail, hg, hs, heq, -⟩
      · rw [heq, List.isChain_cons]
        exact ⟨fun d hd => hc d (head?_subWorktrees hd), ih _ (by simp) false hcs rfl⟩
      · obtain ⟨name, group2, hparts, hend, hreplacement⟩ := hs.parts
        have htail : tail.length < (c :: cs).length := by
          have hlt := hs.sublist.2
          rw [List.length_append] at hlt
          omega
        have hrest : (subWorktrees false 0 tail).IsChain R := by
          refine ih _ htail false ?_ rfl
          rw [hparts] at h
          exact (List.isChain_append.mp h).2.1
        rw [heq, hreplacement]
        split
        · exact hrest
        · obtain ⟨rfl, -⟩ | rfl := hg
          · exact hrest
          · exact List.isChain_cons.mpr ⟨fun d _ => hslash d, hrest⟩

/-- A path keeps its text exactly if the pattern is not found in it. -/
theorem subWorktrees_eq_self_iff (atStart : Bool) (s : List Char) :
    subWorktrees atStart 0 s = s ↔ ¬ HasWorktree atStart s := by
  induction s generalizing atStart with
  | nil =>
    refine iff_of_true rfl ?_
    rintro ⟨before, rest, hs, hmatch⟩
    obtain ⟨-, rfl⟩ := List.append_eq_nil_iff.mp hs.symm
    have hnone : ∀ b, worktreeMatch b [] = none := by decide
    rw [hnone] at hmatch
    cases hmatch
  | cons c cs ih =>
    rcases subWorktrees_cons atStart c cs with
      ⟨hnone, h⟩ | ⟨group1, replacement, tail, -, hs, h, hsome⟩
    · have hlater : HasWorktree atStart (c :: cs) ↔ HasWorktree false cs := by
        constructor
        · rintro ⟨before, rest, hs, hmatch⟩
          cases before with
          | nil =>
            obtain rfl : c :: cs = rest := hs
            rw [List.isEmpty_nil, Bool.and_true, hnone] at hmatch
            cases hmatch
          | cons b before =>
            refine ⟨before, rest, (List.cons.inj hs).2, ?_⟩
            simpa using hmatch
        · rintro ⟨before, rest, rfl, hmatch⟩
          exact ⟨c :: before, rest, rfl, by simpa using hmatch⟩
      rw [h, hlater, ← ih false, List.cons.injEq, and_iff_right rfl]
    · refine iff_of_false (fun heq => ?_) (not_not.mpr ⟨[], c :: cs, rfl, by simpa using hsome⟩)
      have hlt := hs.sublist.2
      have hle := (subWorktrees_sublist false tail).length_le
      rw [h] at heq
      have hlength := congrArg List.length heq
      simp only [List.length_append] at hlt hlength
      omega

/-- What a substitution changes it makes shorter. -/
theorem length_subWorktrees_lt (h : subWorktrees atStart 0 s ≠ s) :
    (subWorktrees atStart 0 s).length < s.length := by
  have hsub := subWorktrees_sublist atStart s
  rcases hsub.length_le.lt_or_eq with hlt | heq
  · exact hlt
  · exact absurd (hsub.eq_of_length heq) h

end Substitution

section Passes

/-- How many substitutions change a path. -/
def nesting (s : List Char) : ℕ :=
  if _h : subWorktrees true 0 s = s then 0 else nesting (subWorktrees true 0 s) + 1
termination_by s.length
decreasing_by exact length_subWorktrees_lt _h

/-- So many passes leave no worktree as there are levels. -/
theorem stripPasses_clean_iff (passes : ℕ) (s : List Char) :
    ¬ HasWorktree true (stripPasses passes s) ↔ nesting s ≤ passes := by
  induction passes generalizing s with
  | zero =>
    rw [stripPasses, ← subWorktrees_eq_self_iff, nesting]
    split
    · rename_i h
      simp [h]
    · rename_i h
      simp [h]
  | succ passes ih =>
    rw [stripPasses, nesting]
    split
    · rename_i h
      rw [h, ← subWorktrees_eq_self_iff]
      exact iff_of_true h (Nat.zero_le _)
    · rename_i h
      rw [ih, Nat.add_le_add_iff_right]

theorem stripPasses_sublist (passes : ℕ) (s : List Char) : (stripPasses passes s).Sublist s := by
  induction passes generalizing s with
  | zero => exact List.Sublist.refl s
  | succ passes ih =>
    rw [stripPasses]
    split
    · exact subWorktrees_sublist true s
    · exact (ih _).trans (subWorktrees_sublist true s)

theorem stripPasses_of_clean (passes : ℕ) {s : List Char} (h : ¬ HasWorktree true s) :
    stripPasses passes s = s := by
  have hsame := (subWorktrees_eq_self_iff true s).mpr h
  cases passes with
  | zero => rfl
  | succ passes => rw [stripPasses, if_pos hsame, hsame]

theorem isChain_stripPasses {R : Char → Char → Prop} (hslash : ∀ c, R '/' c) (passes : ℕ)
    {s : List Char} (h : s.IsChain R) : (stripPasses passes s).IsChain R := by
  induction passes generalizing s with
  | zero => exact h
  | succ passes ih =>
    rw [stripPasses]
    split
    · exact isChain_subWorktrees hslash true h
    · exact ih (isChain_subWorktrees hslash true h)

/-- A path that keeps its length has no worktree. -/
theorem clean_of_stripPasses {passes : ℕ} {s : List Char}
    (h : (stripPasses (passes + 1) s).length = s.length) : ¬ HasWorktree true s := by
  rw [← subWorktrees_eq_self_iff]
  by_contra hne
  have hlt := length_subWorktrees_lt hne
  have hle := (stripPasses_sublist passes (subWorktrees true 0 s)).length_le
  rw [stripPasses, if_neg hne] at h
  omega

end Passes

end Hippo.EntityNames
