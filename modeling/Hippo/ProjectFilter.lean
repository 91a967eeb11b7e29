import Hippo.ProjectAttribution
import Hippo.RetrievalEligibility
import Mathlib.Data.List.Infix

/-!
# Filters by project

`project_clause` turns a spelling of a project into a condition on knowledge nodes, and
`infer_project` finds the project that a question names. Both compare names with the stored ones
by `canonical_name`.
-/
namespace Hippo.Retrieval
open ProjectName

section Source

variable (lower : String → String) (aliases : Aliases)

/-- `canonical_name` of a text that is no directory. -/
def canonical (name : String) : Except PyError String := canonicalName lower aliases false name

/-- The stored projects of a name. -/
def projectIds (projects : Table String ℕ) (target : String) : Except PyError (List ℕ) := do
  let named ← projects.entries.mapM fun p => do
    let name ← canonical lower aliases p.1
    return (name, p.2)
  return (named.filter fun p => p.1 = target).map Prod.snd

/-- `any(canonical_name(alias, aliases) == target for alias in aliases)`. -/
def anyAlias (target : String) : Aliases → Except PyError Bool
  | [] => .ok false
  | a :: rest => do
    let name ← canonical lower aliases a.1
    if name = target then return true else anyAlias target rest

/-- The texts of a list whose canonical name is the target. -/
def named (target : String) (texts : List String) : Except PyError (List String) := do
  let resolved ← texts.mapM (canonical lower aliases)
  return ((texts.zip resolved).filter fun t => t.2 = target).map Prod.fst

/-- `query_terms`. -/
def queryTerms (projects : Table String ℕ) (project : String) : Except PyError (List String) := do
  let target ← canonical lower aliases project
  let stored ← named lower aliases target projects.keys
  let configured ← named lower aliases target (aliases.map Prod.fst)
  let terms := target :: stored ++ configured
  return ((terms ++ terms.map (normalize lower false)).dedup).insertionSort (· ≤ ·)

/-- `resolved`: the name is one of a stored project or of an alias. -/
def resolves (target : String) (ids : List ℕ) : Except PyError Bool :=
  if ids ≠ [] then .ok true else anyAlias lower aliases target aliases

/-- The texts that the provenance of a node is searched for. -/
def searchTerms (projects : Table String ℕ) (project : String) (resolved : Bool) :
    Except PyError (List String) :=
  if resolved then queryTerms lower aliases projects project else .ok [project]

namespace Db

variable (db : Db) (includeExcluded : Bool) (now : ℤ)

/-- The `provenance` clauses for one term. -/
def provenance (term : String) (node : ℕ) : Bool :=
  let pattern := "%" ++ term ++ "%"
  (db.nodeEvents node).any (fun e => (includeExcluded || e.2.eligible) &&
    (like pattern e.2.cwd || likeColumn pattern e.2.gitRepo)) ||
  (db.nodeSessions node).any (fun s => (includeExcluded || s.2.eligible now) &&
    (like pattern s.2.cwd || like pattern s.2.projectDir)) ||
  (db.nodeMemory node).any (fun m => m.2.eligible &&
    (like pattern m.2.document.repository || like pattern m.2.document.sourcePath)) ||
  (db.nodeRuns node).any (fun r => (includeExcluded || r.2.eligible) && like pattern r.2.repo)

/-- `project_clause`: the condition on a node. -/
def projectClause (project : String) : Except PyError (ℕ → Bool) := do
  let target ← canonical lower aliases project
  let ids ← projectIds lower aliases db.projects target
  let resolved ← resolves lower aliases target ids
  let terms ← searchTerms lower aliases db.projects project resolved
  return fun node =>
    let assigned := (db.nodes.get? node).bind NodeRow.projectId
    assigned.any (· ∈ ids) || ((! resolved || assigned.isNone) &&
      terms.any fun term => db.provenance includeExcluded now term node)

end Db

/-- The characters of `[\w.-]`. -/
def inWord (isWord : Char → Bool) (c : Char) : Bool := isWord c || c = '.' || c = '-'

/-- `re.search(r"(?<![\w.-])" + re.escape(name) + r"(?![\w.-])", text)`, after a character. -/
def mentions (isWord : Char → Bool) (name : List Char) : Option Char → List Char → Bool
  | before, text =>
    (before.all fun c => ! inWord isWord c) && name.isPrefixOf text &&
      ((text.drop name.length).head?.all fun c => ! inWord isWord c) ||
    match text with
    | [] => false
    | c :: rest => mentions isWord name (some c) rest

/-- The names that `infer_project` looks for. -/
def knownNames (projects : Table String ℕ) : Except PyError (List String) := do
  let resolved ← (aliases.map Prod.fst).mapM (canonical lower aliases)
  return (projects.keys ++ aliases.map Prod.fst ++
    aliases.map (fun a => normalize lower false a.1) ++ resolved).dedup

/-- The names of entities in a text that are no projects. -/
def nonprojects (entities : List EntityRow) (text : List Char) : List (List Char) :=
  (entities.filter fun e => e.type ≠ "project" ∧
    e.name.toList.map Char.toLower <:+: text).map fun e => (lower e.name).toList

/-- A text names a project, and no longer name of something else around it. -/
def Known (isWord : Char → Bool) (entities : List EntityRow) (text : List Char) (name : String) :
    Prop :=
  let spelled := (lower name).toList
  mentions isWord spelled none text = true ∧
    ∀ other ∈ nonprojects lower entities text, ¬ (spelled <:+: other ∧ other <:+: text ∧
      other ≠ spelled)

instance (isWord : Char → Bool) (entities : List EntityRow) (text : List Char) (name : String) :
    Decidable (Known lower isWord entities text name) := by
  unfold Known
  infer_instance

/-- `infer_project`. -/
def inferProject (isWord : Char → Bool) (db : Db) (query : String) :
    Except PyError (Option String) := do
  let names ← knownNames lower aliases db.projects
  let text := (lower query).toList
  let mentioned := names.filter fun name =>
    Known lower isWord (db.entities.entries.map Prod.snd) text name
  let found ← mentioned.mapM (canonical lower aliases)
  return match found.dedup with
    | [name] => some name
    | _ => none

end Source

end Hippo.Retrieval
