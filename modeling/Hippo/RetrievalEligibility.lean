import Hippo.KnowledgeStore

/-!
# Which sources of a knowledge node count

Probes, workflow journals, empty and unfinished sessions and running workflows are in the
database but no evidence. Every query leaves them out unless the operator asks for them.
-/
namespace Hippo.Retrieval

section Text

/-- The pattern of SQLite's `LIKE` on characters: `%` is any text, `_` any character, and letters
of ASCII match in both cases. -/
def likeChars : List Char → List Char → Bool
  | [], text => text.isEmpty
  | '%' :: pattern, text => text.tails.any fun rest => likeChars pattern rest
  | '_' :: _, [] => false
  | '_' :: pattern, _ :: text => likeChars pattern text
  | _ :: _, [] => false
  | c :: pattern, d :: text => c.toLower = d.toLower && likeChars pattern text

/-- `text LIKE pattern`. -/
def like (pattern text : String) : Bool := likeChars pattern.toList text.toList

/-- `column LIKE pattern`, false for NULL. -/
def likeColumn (pattern : String) (column : Option String) : Bool := column.any (like pattern)

end Text

/-! The columns that are read. -/

/-- `knowledge_nodes`. -/
structure NodeRow where
  uuid : String
  createdAt : ℤ
  projectId : Option ℕ := none
deriving DecidableEq, Repr

/-- `events`. -/
structure EventRow where
  timestamp : ℤ
  command : String
  cwd : String
  gitRepo : Option String := none
  gitBranch : Option String := none
  sourceKind : String := "shell"
  probeTag : Option String := none
deriving DecidableEq, Repr

/-- `browser_events`. -/
structure VisitRow where
  timestamp : ℤ
  url : String
  title : Option String := none
  domain : String
  probeTag : Option String := none
deriving DecidableEq, Repr

/-- `agentic_sessions`. -/
structure SessionRow where
  sessionId : String
  harness : String
  segmentIndex : ℤ := 0
  projectDir : String
  cwd : String
  gitBranch : Option String := none
  summaryText : String
  sourceFile : Option String := some ""
  messageCount : ℤ := 0
  startTime : ℤ
  endTime : ℤ
  probeTag : Option String := none
deriving DecidableEq, Repr

/-- `workflow_runs`. -/
structure RunRow where
  repo : String
  status : String
  conclusion : Option String := none
  startedAt : Option ℤ := none
deriving DecidableEq, Repr

/-- `memory_chunks`. -/
structure ChunkRow where
  revisionId : ℕ
  headingPath : String
  content : String
deriving DecidableEq, Repr

/-- `memory_revisions`. -/
structure RevisionRow where
  documentId : ℕ
  createdAt : ℤ
deriving DecidableEq, Repr

/-- `memory_documents`, with the categories of `memory_document_categories`. -/
structure DocumentRow where
  repository : String
  sourcePath : String
  state : String := "active"
  activeRevisionId : Option ℕ := none
  categories : List String := []
deriving DecidableEq, Repr

/-- `entities`. -/
structure EntityRow where
  type : String
  name : String
  canonical : String
deriving DecidableEq, Repr

/-- The tables that retrieval reads. `projects` has the ids by `canonical_name`, and a link of
`links` points into the table that it names. -/
structure Db where
  nodes : Table ℕ NodeRow
  events : Table ℕ EventRow
  visits : Table ℕ VisitRow
  sessions : Table ℕ SessionRow
  runs : Table ℕ RunRow
  chunks : Table ℕ ChunkRow
  revisions : Table ℕ RevisionRow
  documents : Table ℕ DocumentRow
  entities : Table ℕ EntityRow
  projects : Table String ℕ
  links : List Link

def Db.empty : Db :=
  ⟨Table.empty, Table.empty, Table.empty, Table.empty, Table.empty, Table.empty, Table.empty,
    Table.empty, Table.empty, Table.empty, []⟩

section Rows

/-- `IN_FLIGHT_SETTLE_MS`. -/
def inFlightSettleMs : ℤ := 90000

/-- `PROBE_REPOSITORY`. -/
def probeRepository : String := "hippo/__hippo_probe__"

/-- `shell_event_eligible_sql`. -/
def EventRow.eligible (e : EventRow) : Bool := e.probeTag.isNone

/-- `browser_event_eligible_sql`. -/
def VisitRow.eligible (v : VisitRow) : Bool := v.probeTag.isNone

/-- `is_agentic_workflow_journal_sql`. -/
def isWorkflowJournal (sourceFile : String) : Bool :=
  like "%journal.jsonl" sourceFile && like "%/subagents/%" sourceFile &&
    like "%/workflows/%" sourceFile

/-- `agentic_session_eligible_sql`; a session without a `source_file` is no eligible one, since
the negation of NULL is NULL. -/
def SessionRow.eligible (now : ℤ) (s : SessionRow) : Bool :=
  s.probeTag.isNone && (s.sourceFile.any fun file => ! isWorkflowJournal file) &&
    (0 < s.messageCount || s.summaryText.toList.any (· ≠ ' ')) &&
    s.endTime + inFlightSettleMs ≤ now

/-- `workflow_run_eligible_sql`. -/
def RunRow.eligible (r : RunRow) : Bool :=
  r.conclusion.isSome || r.status.toList.map Char.toLower = "completed".toList

/-- A chunk of the active revision of an active document that is no probe. -/
structure MemoryRow where
  chunk : ChunkRow
  revision : RevisionRow
  document : DocumentRow
deriving DecidableEq, Repr

def MemoryRow.active (m : MemoryRow) : Bool :=
  m.document.state = "active" && m.document.activeRevisionId = some m.chunk.revisionId

/-- The conditions of `_MEMORY_SOURCE_EXISTS`. -/
def MemoryRow.eligible (m : MemoryRow) : Bool :=
  m.active && m.document.repository ≠ probeRepository

end Rows

namespace Db

variable (db : Db)

/-- The ids a node is linked to through one junction table. -/
def targets (table : LinkTable) (node : ℕ) : List ℕ :=
  (db.links.filter fun l => l.table = table ∧ l.node = node).map Link.target

/-- The `JOIN` of a junction table with the table it points into. -/
def joined {ρ : Type} (table : LinkTable) (row : ℕ → Option ρ) (node : ℕ) : List (ℕ × ρ) :=
  (db.targets table node).filterMap fun i => (row i).map fun r => (i, r)

/-- A chunk with its revision and its document. -/
def memoryRow (chunk : ℕ) : Option MemoryRow := do
  let c ← db.chunks.get? chunk
  let r ← db.revisions.get? c.revisionId
  let d ← db.documents.get? r.documentId
  some ⟨c, r, d⟩

def nodeEvents (node : ℕ) : List (ℕ × EventRow) := db.joined .events db.events.get? node

def nodeVisits (node : ℕ) : List (ℕ × VisitRow) := db.joined .browserEvents db.visits.get? node

def nodeSessions (node : ℕ) : List (ℕ × SessionRow) :=
  db.joined .agenticSessions db.sessions.get? node

def nodeRuns (node : ℕ) : List (ℕ × RunRow) := db.joined .workflowRuns db.runs.get? node

def nodeMemory (node : ℕ) : List (ℕ × MemoryRow) := db.joined .memoryChunks db.memoryRow node

def nodeEntities (node : ℕ) : List (ℕ × EntityRow) := db.joined .entities db.entities.get? node

/-- The junction tables of `knowledge_node_eligible_exists_sql`. -/
def sourceTables : List LinkTable :=
  [.events, .browserEvents, .agenticSessions, .workflowRuns, .memoryChunks]

/-- The node has a source that counts. -/
def eligibleSource (now : ℤ) (node : ℕ) : Bool :=
  (db.nodeEvents node).any (fun e => e.2.eligible) ||
    (db.nodeVisits node).any (fun v => v.2.eligible) ||
    (db.nodeSessions node).any (fun s => s.2.eligible now) ||
    (db.nodeRuns node).any (fun r => r.2.eligible) ||
    (db.nodeMemory node).any (fun m => m.2.eligible)

/-- `knowledge_node_eligible_exists_sql`: a node without any source counts as well. -/
def nodeEligible (now : ℤ) (node : ℕ) : Bool :=
  (sourceTables.all fun table => (db.targets table node).isEmpty) || db.eligibleSource now node

end Db

end Hippo.Retrieval
