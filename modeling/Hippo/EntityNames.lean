import Hippo.ShellEnrichment

/-!
# Canonical names of entities

The canonical form of an entity's name, and the escape that keeps the names of sources out of the
classifier's namespace.
-/
namespace Hippo

/-- The values that the column `type` admits. -/
inductive EntityType where
  | project
  | file
  | tool
  | service
  | repo
  | host
  | person
  | concept
  | domain
  | envVar
deriving DecidableEq

/-- `is_path_type`; the other path types are not admitted by the column. -/
def EntityType.isPathType : EntityType → Bool
  | project | file => true
  | _ => false

/-- What the resolver finds outside: the home directory, Python's `str.lower` and the project
roots. -/
structure NameEnv where
  expanduser : String → String
  lower : String → String
  projectRoots : List String := []

namespace EntityNames

def startsWith (s start : String) : Bool := start.toList.isPrefixOf s.toList

section Worktrees

def worktreeMarker : List Char := ".claude/worktrees/".toList

/-- The rest of the worktree pattern behind its first group: the replacement of the match and the
match's length. -/
def worktreeSegment (group1 rest : List Char) : Option (List Char × ℕ) :=
  let tail := rest.drop worktreeMarker.length
  let segment := tail.takeWhile (· ≠ '/')
  let group2 := (tail.dropWhile (· ≠ '/')).take 1
  if worktreeMarker.isPrefixOf rest ∧ segment ≠ [] then
    some (if group2 = [] then [] else group1,
      group1.length + worktreeMarker.length + segment.length + group2.length)
  else none

/-- A match of `(^|/)\.claude/worktrees/[^/]+(/|$)` here. The segment ends at a slash or at the
end of the text, so nothing is tried twice. -/
def worktreeMatch (atStart : Bool) (s : List Char) : Option (List Char × ℕ) :=
  (if atStart then worktreeSegment [] s else none).or
    (if s.head? = some '/' then worktreeSegment ['/'] (s.drop 1) else none)

/-- `re.sub` with the worktree pattern; `skip` characters of the last match are left. -/
def subWorktrees : Bool → ℕ → List Char → List Char
  | _, _, [] => []
  | _, skip + 1, _ :: cs => subWorktrees false skip cs
  | atStart, 0, c :: cs =>
    match worktreeMatch atStart (c :: cs) with
    | some (replacement, length) => replacement ++ subWorktrees false (length - 1) cs
    | none => c :: subWorktrees false 0 cs

/-- `path.count(".claude/worktrees/")`. -/
def countMarker : ℕ → List Char → ℕ
  | _, [] => 0
  | skip + 1, _ :: cs => countMarker skip cs
  | 0, c :: cs =>
    if worktreeMarker.isPrefixOf (c :: cs) then 1 + countMarker (worktreeMarker.length - 1) cs
    else countMarker 0 cs

def stripPasses : ℕ → List Char → List Char
  | 0, s => s
  | passes + 1, s =>
    let next := subWorktrees true 0 s
    if next = s then next else stripPasses passes next

/-- `strip_worktree_prefix`. -/
def stripWorktree (path : String) : String :=
  String.ofList (stripPasses (countMarker 0 path.toList + 1) path.toList)

example : stripWorktree "/p/hippo/.claude/worktrees/agent-1/src/a.rs" = "/p/hippo/src/a.rs" := by
  decide +kernel

end Worktrees

section Canonical

/-- `s.rstrip("/")`. -/
def rstripSlash (s : String) : String :=
  String.ofList (s.toList.reverse.dropWhile (· = '/')).reverse

/-- `re.sub(r"\s+", " ", s)`; the flag tells that a run of spaces was started. -/
def collapseSpaces : Bool → List Char → List Char
  | _, [] => []
  | inRun, c :: cs =>
    if PyText.isSpace c then
      if inRun then collapseSpaces true cs else ' ' :: collapseSpaces true cs
    else c :: collapseSpaces false cs

/-- `Path(path).name`. -/
def pathName (path : String) : String :=
  (((path.toList.splitOn '/').filter fun part => part ≠ [] ∧ part ≠ ['.']).getLast?.map
    String.ofList).getD ""

/-- The loop over the project roots. -/
def stripRoot (env : NameEnv) (ty : EntityType) : List String → String → String
  | [], v => v
  | root :: roots, v =>
    let normalized := rstripSlash (env.lower (env.expanduser root))
    if v = normalized then pathName normalized
    else if ty ≠ .project ∧ startsWith v (normalized ++ "/") = true then
      String.ofList (v.toList.drop (normalized.length + 1))
    else stripRoot env ty roots v

/-- `canonicalize`. -/
def canonicalize (env : NameEnv) (ty : EntityType) (value : String) : String :=
  let v := env.lower (PyText.strip (env.expanduser value))
  let v := String.ofList (collapseSpaces false (rstripSlash v).toList)
  if ty.isPathType then stripRoot env ty env.projectRoots (stripWorktree v) else v

end Canonical

section Namespaces

/-- `NAMESPACE`. -/
def topicNamespace : String := "hippo/topic/"

/-- `SOURCE_ESCAPE`. -/
def sourceEscape : String := "hippo/source-concept/"

/-- `source_entity_canonical`. -/
def sourceEntityCanonical (ty : EntityType) (canonical : String) : String :=
  if ty = .concept ∧ (startsWith canonical topicNamespace ∨ startsWith canonical sourceEscape) then
    sourceEscape ++ canonical
  else canonical

variable {ty : EntityType} {s t : String}

theorem startsWith_iff : startsWith s t = true ↔ ∃ rest, s.toList = t.toList ++ rest := by
  rw [startsWith, List.isPrefixOf_iff_prefix]
  constructor
  · rintro ⟨rest, h⟩
    exact ⟨rest, h.symm⟩
  · rintro ⟨rest, h⟩
    exact ⟨rest, h.symm⟩

theorem startsWith_append (s t : String) : startsWith (s ++ t) s = true :=
  startsWith_iff.mpr ⟨t.toList, String.toList_append⟩

/-- An escaped name is not in the classifier's namespace. -/
theorem not_startsWith_sourceEscape (s : String) :
    startsWith (sourceEscape ++ s) topicNamespace = false := by
  rw [startsWith, String.toList_append]
  rfl

/-- No concept of a source has a canonical name in the classifier's namespace. -/
theorem sourceEntityCanonical_concept (s : String) :
    startsWith (sourceEntityCanonical .concept s) topicNamespace = false := by
  unfold sourceEntityCanonical
  split_ifs with h
  · exact not_startsWith_sourceEscape s
  · cases hs : startsWith s topicNamespace with
    | false => rfl
    | true => exact absurd ⟨rfl, Or.inl hs⟩ h

/-- Different names stay different. -/
theorem sourceEntityCanonical_injective (ty : EntityType) :
    Function.Injective (sourceEntityCanonical ty) := by
  have hescaped : ∀ s t, ¬ (ty = .concept ∧ (startsWith t topicNamespace ∨
      startsWith t sourceEscape)) → ty = .concept → sourceEscape ++ s ≠ t := by
    intro s t hplain hty heq
    exact hplain ⟨hty, Or.inr (heq ▸ startsWith_append sourceEscape s)⟩
  intro s t h
  unfold sourceEntityCanonical at h
  split_ifs at h with hs ht ht
  · have hlist := congrArg String.toList h
    rw [String.toList_append, String.toList_append] at hlist
    exact String.toList_injective (List.append_cancel_left hlist)
  · exact absurd h (hescaped s t ht hs.1)
  · exact absurd h.symm (hescaped t s hs ht.1)
  · exact h

end Namespaces

end EntityNames

end Hippo
