import Hippo.ProjectFilter

/-!
# SearchFilters of a search

`_apply_filters` keeps the candidates that meet the filters. Its query joins a node with its
events, sessions and browser events, so the conditions on time and branch speak of one row of
that join; the others are conditions on the node.
-/
namespace Hippo.Retrieval

/-- `Filters`. -/
structure SearchFilters where
  project : Option String := none
  sinceMs : Option ℤ := none
  source : Option String := none
  memoryCategory : Option String := none
  branch : Option String := none
  entity : Option String := none
  includeExcluded : Bool := false
deriving DecidableEq, Repr

/-- `_is_empty_filter`. -/
def SearchFilters.isEmpty (f : SearchFilters) : Bool :=
  f.project.isNone && f.sinceMs.isNone && f.source.isNone && f.memoryCategory.isNone &&
    f.branch.isNone && f.entity.isNone

/-- A filter by an empty text is none. -/
def given (text : Option String) : Option String := text.filter (· ≠ "")

/-- `KNOWN_CATEGORIES`. -/
def knownCategories : List String := ["user", "feedback", "project", "reference", "index"]

/-- A row of the joins for one node, `NULL` where a table has no row. -/
structure JoinRow where
  event : Option EventRow
  session : Option SessionRow
  visit : Option VisitRow
deriving DecidableEq, Repr

/-- The filter by time. -/
def JoinRow.since (row : JoinRow) (node : NodeRow) (sinceMs : ℤ) : Bool :=
  sinceMs ≤ node.createdAt || row.event.any (sinceMs ≤ ·.timestamp) ||
    row.session.any (sinceMs ≤ ·.startTime) || row.visit.any (sinceMs ≤ ·.timestamp)

/-- The filter by branch. -/
def JoinRow.onBranch (row : JoinRow) (branch : String) : Bool :=
  row.event.any (·.gitBranch = some branch) || row.session.any (·.gitBranch = some branch)

namespace Db

variable (db : Db) (includeExcluded : Bool) (now : ℤ)

/-- `LEFT JOIN` of a junction table and of the table it points into. -/
def leftJoined {ρ : Type} (table : LinkTable) (row : ℕ → Option ρ) (node : ℕ) : List (Option ρ) :=
  match db.targets table node with
  | [] => [none]
  | ids => ids.map row

/-- A session that the `ON` clause of its join takes. -/
def joinedSession (i : ℕ) : Option SessionRow :=
  (db.sessions.get? i).filter fun s => includeExcluded || s.eligible now

/-- The rows that the joins give for a node. -/
def joinRows (node : ℕ) : List JoinRow :=
  (db.leftJoined .events db.events.get? node).flatMap fun event =>
    (db.leftJoined .agenticSessions (db.joinedSession includeExcluded now) node).flatMap
      fun session => (db.leftJoined .browserEvents db.visits.get? node).map fun visit =>
        ⟨event, session, visit⟩

/-- `knowledge_source_exists_clause`; the clause for `shell` looks at the links only. -/
def sourceExists (source : String) : Option (ℕ → Bool) :=
  if source = "claude" then
    some fun node => (db.nodeSessions node).any fun s => includeExcluded || s.2.eligible now
  else if source = "browser" then
    some fun node => (db.nodeVisits node).any fun v => includeExcluded || v.2.eligible
  else if source = "workflow" then
    some fun node => (db.nodeRuns node).any fun r => includeExcluded || r.2.eligible
  else if source = "claude-auto-memory" then
    some fun node => (db.nodeMemory node).any fun m => m.2.eligible
  else if source = "shell" then
    some fun node => ! (db.targets .events node).isEmpty
  else none

/-- `knowledge_memory_category_clause`. -/
def hasCategory (category : String) (node : ℕ) : Bool :=
  (db.nodeMemory node).any fun m => m.2.eligible && category ∈ m.2.document.categories

end Db

section Source

variable (lower repr : String → String) (aliases : ProjectName.Aliases) (db : Db) (now : ℤ)

/-- The condition of a filter, if there is one, and any node without it. -/
def optionalClause (text : Option String) (clause : String → Except PyError (ℕ → Bool)) :
    Except PyError (ℕ → Bool) :=
  match given text with
  | none => .ok fun _ => true
  | some value => clause value

def sourceClause (includeExcluded : Bool) (source : String) : Except PyError (ℕ → Bool) :=
  match db.sourceExists includeExcluded now source with
  | none => .error (.valueError ("unknown source filter: " ++ repr source))
  | some clause => .ok clause

/-- `validate_memory_category_filter` and the clause. -/
def categoryClause (category : String) : Except PyError (ℕ → Bool) :=
  if category ∉ knownCategories then
    .error (.valueError ("unknown memory category filter: " ++ repr category))
  else .ok (db.hasCategory category)

/-- The conditions on one row of the joins. -/
def rowClauses (filters : SearchFilters) (node : NodeRow) (row : JoinRow) : Bool :=
  filters.sinceMs.all (row.since node) && (given filters.branch).all row.onBranch

/-- The join with the node's entities. -/
def entityClause (filters : SearchFilters) (node : ℕ) : Bool :=
  (given filters.entity).all fun entity =>
    (db.nodeEntities node).any fun e => e.2.canonical = entity || e.2.name = entity

/-- The `WHERE` of `_apply_filters`. -/
def filterClauses (filters : SearchFilters) : Except PyError (ℕ → NodeRow → Bool) := do
  let project ← optionalClause filters.project
    (db.projectClause lower aliases filters.includeExcluded now)
  let source ← optionalClause filters.source (sourceClause repr db now filters.includeExcluded)
  let category ← optionalClause filters.memoryCategory (categoryClause repr db)
  return fun id node =>
    (filters.includeExcluded || db.nodeEligible now id) && project id && source id &&
      category id && entityClause db filters id &&
      (db.joinRows filters.includeExcluded now id).any (rowClauses filters node)

/-- `_apply_filters`. -/
def applyFilters (ids : List ℕ) (filters : SearchFilters) : Except PyError (List ℕ) :=
  if ids = [] then .ok []
  else if filters.isEmpty && filters.includeExcluded then .ok ids
  else do
    let clauses ← filterClauses lower repr aliases db now filters
    return (db.nodes.select fun id node => id ∈ ids ∧ clauses id node).map Prod.fst

end Source

section Results

variable {lower repr : String → String} {aliases : ProjectName.Aliases} {db : Db} {now : ℤ}
  {filters : SearchFilters} {ids : List ℕ}

theorem leftJoined_ne_nil {ρ : Type} (db : Db) (table : LinkTable) (row : ℕ → Option ρ) (node : ℕ) :
    db.leftJoined table row node ≠ [] := by
  unfold Db.leftJoined
  split
  · simp
  · rename_i h
    simpa using h

theorem joinRows_ne_nil (db : Db) (includeExcluded : Bool) (now : ℤ) (node : ℕ) :
    db.joinRows includeExcluded now node ≠ [] := by
  obtain ⟨event, hevent⟩ := List.exists_mem_of_ne_nil _
    (leftJoined_ne_nil db .events db.events.get? node)
  obtain ⟨session, hsession⟩ := List.exists_mem_of_ne_nil _
    (leftJoined_ne_nil db .agenticSessions (db.joinedSession includeExcluded now) node)
  obtain ⟨visit, hvisit⟩ := List.exists_mem_of_ne_nil _
    (leftJoined_ne_nil db .browserEvents db.visits.get? node)
  have hrow : (⟨event, session, visit⟩ : JoinRow) ∈ db.joinRows includeExcluded now node :=
    List.mem_flatMap.mpr ⟨event, hevent, List.mem_flatMap.mpr ⟨session, hsession,
      List.mem_map.mpr ⟨visit, hvisit, rfl⟩⟩⟩
  exact List.ne_nil_of_mem hrow

/-- Without filters and with excluded sources every node is kept, as the early return has it. -/
theorem filterClauses_empty (hempty : filters.isEmpty = true)
    (hall : filters.includeExcluded = true) :
    ∃ clauses, filterClauses lower repr aliases db now filters = .ok clauses ∧
      ∀ id node, clauses id node = true := by
  obtain ⟨project, since, source, category, branch, entity, excluded⟩ := filters
  simp only [SearchFilters.isEmpty, Bool.and_eq_true, Option.isNone_iff_eq_none] at hempty
  obtain ⟨⟨⟨⟨⟨rfl, rfl⟩, rfl⟩, rfl⟩, rfl⟩, rfl⟩ := hempty
  obtain rfl : excluded = true := hall
  refine ⟨_, rfl, fun id node => ?_⟩
  obtain ⟨row, hrow⟩ := List.exists_mem_of_ne_nil _ (joinRows_ne_nil db true now id)
  have hany : (db.joinRows true now id).any (rowClauses ⟨none, none, none, none, none, none, true⟩
      node) = true := List.any_eq_true.mpr ⟨row, hrow, rfl⟩
  simp [hany, entityClause, given]

/-- Candidates that are nodes are kept if they meet the clauses. -/
theorem mem_applyFilters {clauses : ℕ → NodeRow → Bool} {kept : List ℕ}
    (hclauses : filterClauses lower repr aliases db now filters = .ok clauses)
    (hkept : applyFilters lower repr aliases db now ids filters = .ok kept)
    {id : ℕ} {node : NodeRow} (hnode : db.nodes.get? id = some node) :
    id ∈ kept ↔ id ∈ ids ∧ clauses id node = true := by
  unfold applyFilters at hkept
  split at hkept
  · rename_i hids
    cases hkept
    simp [hids]
  · split at hkept
    · rename_i h
      rw [Bool.and_eq_true] at h
      obtain ⟨every, hevery, htrue⟩ :=
        @filterClauses_empty lower repr aliases db now filters h.1 h.2
      rw [hevery] at hclauses
      cases hclauses
      cases hkept
      simp [htrue]
    · rw [hclauses] at hkept
      cases hkept
      simp only [List.mem_map, Table.mem_select, Prod.exists, exists_and_right, exists_eq_right]
      constructor
      · rintro ⟨other, hother, hid, hmet⟩
        rw [hnode] at hother
        cases hother
        exact ⟨hid, hmet⟩
      · intro h
        exact ⟨node, hnode, h⟩

/-- SearchFilters that are refused are refused for any candidates. -/
theorem applyFilters_error {e : PyError} :
    applyFilters lower repr aliases db now ids filters = .error e ↔
      ids ≠ [] ∧ filterClauses lower repr aliases db now filters = .error e := by
  unfold applyFilters
  split
  · rename_i h
    simp [h]
  · rename_i hids
    split
    · rename_i h
      rw [Bool.and_eq_true] at h
      obtain ⟨every, hevery, -⟩ :=
        @filterClauses_empty lower repr aliases db now filters h.1 h.2
      simp [hevery]
    · cases filterClauses lower repr aliases db now filters with
      | error e' => simp [hids, bind, Except.bind]
      | ok clauses => simp [bind, Except.bind, pure, Except.pure]

end Results

end Hippo.Retrieval
