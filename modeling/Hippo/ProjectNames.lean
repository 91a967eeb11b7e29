import Hippo.ShellEnrichment

/-!
# Canonical project names

A captured repository or directory is reduced to a name, and the configured aliases are
followed from it. `lower` stands for `str.lower`, whose table is Unicode's.
-/
namespace Hippo

namespace ProjectName

/-- What `_WORKTREE_SEGMENT_RE` matches after the separator: the rest of the text, if a
nonempty segment follows the marker. -/
def worktreeRest (s : List Char) : Option (List Char) :=
  let marker := ".claude/worktrees/".toList
  if marker.isPrefixOf s then
    let segment := s.drop marker.length
    if segment.head?.all (· = '/') then none else some (segment.dropWhile (· ≠ '/'))
  else none

/-- `_WORKTREE_SEGMENT_RE.sub`, left to right; the first argument bounds the characters
that are left, the second says that none was read yet. -/
def subWorktrees : ℕ → Bool → List Char → List Char
  | 0, _, s => s
  | _, _, [] => []
  | n + 1, start, c :: s =>
    let hit := ((if start then worktreeRest (c :: s) else none).map fun rest => ([], rest)) <|>
      ((if c = '/' then worktreeRest s else none).map fun rest => (['/'], rest))
    match hit with
    | none => c :: subWorktrees n false s
    | some (_, []) => []
    | some (separator, _ :: rest) => separator ++ subWorktrees n false rest

/-- The passes of `strip_worktree_prefix`, until nothing changes. -/
def stripPasses : ℕ → List Char → List Char
  | 0, s => s
  | n + 1, s =>
    let next := subWorktrees s.length true s
    if next = s then next else stripPasses n next

/-- `str.count`, for the marker of a worktree. -/
def countMarkers : ℕ → List Char → ℕ
  | 0, _ => 0
  | n + 1, s =>
    let marker := ".claude/worktrees/".toList
    if marker.isPrefixOf s then countMarkers n (s.drop marker.length) + 1
    else countMarkers n s.tail

def stripWorktreePrefix (s : List Char) : List Char :=
  stripPasses (countMarkers s.length s + 1) s

/-- `Path(value).name`. -/
def pathName (s : List Char) : List Char :=
  ((s.splitOn '/').filter fun part => part ≠ [] ∧ part ≠ ['.']).getLast?.getD []

/-- `str.removesuffix`. -/
def removeSuffix (suffix s : List Char) : List Char :=
  if suffix.isSuffixOf s then s.take (s.length - suffix.length) else s

/-- `" ".join(value.split())`. -/
def joinWords (s : List Char) : List Char :=
  [' '].intercalate ((s.splitOnP PyText.isSpace).filter (· ≠ []))

/-- `normalize`. -/
def normalize (lower : String → String) (directory : Bool) (value : String) : String :=
  let trimmed := ((lower (PyText.strip value)).toList.reverse.dropWhile (· = '/')).reverse
  let bare := stripWorktreePrefix trimmed
  let base :=
    if directory ∨ bare.head? = some '/' then pathName bare
    else if '/' ∈ bare then (bare.reverse.takeWhile (· ≠ '/')).reverse
    else bare
  String.ofList (joinWords ((removeSuffix ".git".toList base).dropWhile (· = '.')))

/-- `[projects.aliases]`, in the order of the file. -/
abbrev Aliases := List (String × String)

section Canonical

variable (lower : String → String) (aliases : Aliases)

/-- The normalized alias map: of two aliases with one name the later counts. -/
def target (name : String) : Option String :=
  (aliases.reverse.find? fun a => normalize lower false a.1 = name).map fun a =>
    normalize lower false a.2

/-- The loop of `canonical_name`, with the names seen so far. -/
def follow : ℕ → List String → String → Except PyError String
  | 0, _, _ => .error (.valueError "cycle in [projects.aliases]")
  | n + 1, seen, name =>
    match target lower aliases name with
    | none => .ok name
    | some next =>
      if next = name then .ok name
      else if name ∈ seen then .error (.valueError "cycle in [projects.aliases]")
      else follow n (name :: seen) next

/-- `canonical_name`. A name that was not seen is a new alias, so the loop ends after at most
one round more than there are aliases. -/
def canonicalName (directory : Bool) (value : String) : Except PyError String := do
  let name ← follow lower aliases (aliases.length + 1) [] (normalize lower directory value)
  if name = "" then .error (.valueError "empty canonical project name") else .ok name

/-- An alias leads from one name to another. -/
def Leads (name next : String) : Prop := target lower aliases name = some next ∧ next ≠ name

/-- No name leads back to itself. -/
def Acyclic : Prop := ∀ name, ¬ Relation.TransGen (Leads lower aliases) name name

/-- The aliases lead from the value's name to `name` and no further. -/
def ResolvesTo (directory : Bool) (value name : String) : Prop :=
  Relation.ReflTransGen (Leads lower aliases) (normalize lower directory value) name ∧
    ∀ next, ¬ Leads lower aliases name next

/-- The value has a name that is not empty. -/
def Named (directory : Bool) (value : String) : Prop :=
  ∃ name, ResolvesTo lower aliases directory value name ∧ name ≠ ""

end Canonical

section Specs

variable {lower : String → String} {aliases : Aliases} {name next : String}

/-- A name that leads somewhere is the normalized form of an alias. -/
theorem mem_of_target (h : target lower aliases name = some next) :
    name ∈ aliases.map fun a => normalize lower false a.1 := by
  obtain ⟨a, ha, -⟩ := Option.map_eq_some_iff.mp h
  have hmem : a ∈ aliases := List.mem_reverse.mp (List.mem_of_find?_eq_some ha)
  have hname : normalize lower false a.1 = name := by simpa using List.find?_some ha
  exact List.mem_map.mpr ⟨a, hmem, hname⟩

theorem leads_unique {next' : String} (h : Leads lower aliases name next)
    (h' : Leads lower aliases name next') : next = next' :=
  Option.some.inj (h.1.symm.trans h'.1)

/-- Along acyclic aliases the loop reaches the end of the chain. The names seen so far are
different aliases that lead to the current name, so fewer than all are left. -/
theorem follow_resolves (hacyclic : Acyclic lower aliases) (n : ℕ) (seen : List String)
    (name : String) (hfuel : aliases.length + 1 ≤ n + seen.length) (hnodup : seen.Nodup)
    (hkeys : ∀ s ∈ seen, s ∈ aliases.map fun a => normalize lower false a.1)
    (hleads : ∀ s ∈ seen, Relation.TransGen (Leads lower aliases) s name) :
    ∃ last, follow lower aliases n seen name = .ok last ∧
      Relation.ReflTransGen (Leads lower aliases) name last ∧
      ∀ next, ¬ Leads lower aliases last next := by
  induction n generalizing seen name with
  | zero =>
    have hsub : seen.length ≤ (aliases.map fun a => normalize lower false a.1).length :=
      (List.subperm_of_subset hnodup hkeys).length_le
    rw [List.length_map] at hsub
    omega
  | succ n ih =>
    cases htarget : target lower aliases name with
    | none =>
      refine ⟨name, by simp [follow, htarget], Relation.ReflTransGen.refl, ?_⟩
      rintro next ⟨hnext, -⟩
      rw [htarget] at hnext
      cases hnext
    | some next =>
      by_cases hself : next = name
      · refine ⟨name, by simp [follow, htarget, hself], Relation.ReflTransGen.refl, ?_⟩
        rintro other ⟨hother, hne⟩
        rw [htarget, Option.some.injEq] at hother
        exact hne (hother.symm.trans hself)
      · have hstep : Leads lower aliases name next := ⟨htarget, hself⟩
        have hfresh : name ∉ seen := fun hmem => hacyclic name (hleads name hmem)
        obtain ⟨last, hlast, hchain, hend⟩ := ih (name :: seen) next
          (by simp only [List.length_cons]; omega) (List.nodup_cons.mpr ⟨hfresh, hnodup⟩)
          (fun s hs => by
            rcases List.mem_cons.mp hs with rfl | hs
            · exact mem_of_target htarget
            · exact hkeys s hs)
          (fun s hs => by
            rcases List.mem_cons.mp hs with rfl | hs
            · exact Relation.TransGen.single hstep
            · exact (hleads s hs).tail hstep)
        refine ⟨last, ?_, hchain.head hstep, hend⟩
        simp only [follow, htarget, if_neg hself, if_neg hfresh]
        exact hlast

theorem resolvesTo_unique {directory : Bool} {value : String}
    (h : ResolvesTo lower aliases directory value name)
    (h' : ResolvesTo lower aliases directory value next) : name = next := by
  have hright : Relator.RightUnique (Leads lower aliases) := fun _ _ _ => leads_unique
  rcases Relation.ReflTransGen.total_of_right_unique hright h.1 h'.1 with hchain | hchain
  · rcases hchain.cases_head with heq | ⟨b, hb, -⟩
    · exact heq
    · exact absurd hb (h.2 b)
  · rcases hchain.cases_head with heq | ⟨b, hb, -⟩
    · exact heq.symm
    · exact absurd hb (h'.2 b)

/-- Along acyclic aliases `canonical_name` gives the name a value resolves to, and raises
exactly if it is empty. -/
theorem canonicalName_eq (hacyclic : Acyclic lower aliases) (directory : Bool)
    (value : String) : ∃ last, ResolvesTo lower aliases directory value last ∧
      canonicalName lower aliases directory value =
        if last = "" then .error (.valueError "empty canonical project name") else .ok last := by
  obtain ⟨last, hlast, hchain, hend⟩ := follow_resolves hacyclic (aliases.length + 1) []
    (normalize lower directory value) (by simp) List.nodup_nil (by simp) (by simp)
  refine ⟨last, ⟨hchain, hend⟩, ?_⟩
  simp only [canonicalName, hlast]
  rfl

theorem canonicalName_ok (hacyclic : Acyclic lower aliases) {directory : Bool}
    {value : String} : (∃ name, canonicalName lower aliases directory value = .ok name) ↔
      Named lower aliases directory value := by
  obtain ⟨last, hlast, heq⟩ := canonicalName_eq hacyclic directory value
  constructor
  · rintro ⟨name, hname⟩
    rw [heq] at hname
    split at hname
    · cases hname
    · rename_i hne
      exact ⟨last, hlast, hne⟩
  · rintro ⟨name, hname, hne⟩
    rw [← resolvesTo_unique hlast hname] at hne
    exact ⟨last, by rw [heq, if_neg hne]⟩

end Specs

end ProjectName

end Hippo
