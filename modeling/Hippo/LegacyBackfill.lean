import Hippo.AgenticSessions
import Hippo.Transcript
import Hippo.UniqueIndex

/-!
# The backfill of the legacy session tables

The migration from v17 to v18 copies `claude_sessions`, its links and its queue into the agentic
family. The three copies find the agentic row of a legacy row by its session, its segment and the
harness that its source file shows. What is in the agentic family already stays as it is.
-/
namespace Hippo.Migration

section Rows

/-- A row of `claude_sessions` at v17. -/
structure ClaudeSession where
  sessionId : String
  projectDir : String
  cwd : String
  gitBranch : Option String
  segmentIndex : ℤ
  startTime : ℤ
  endTime : ℤ
  summaryText : String
  toolCallsJson : Option String
  userPromptsJson : Option String
  messageCount : ℤ
  tokenCount : Option ℤ
  sourceFile : String
  isSubagent : ℤ
  parentSessionId : Option String
  enriched : ℤ
  createdAt : ℤ
  contentHash : Option String
  lastEnrichedContentHash : Option String
  probeTag : Option String
  deriving DecidableEq

/-- A row of `claude_enrichment_queue`, under its session. -/
structure ClaudeQueueRow where
  status : QueueStatus
  priority : ℤ
  retryCount : ℤ
  maxRetries : ℤ
  errorMessage : Option String
  lockedAt : Option ℤ
  lockedBy : Option String
  createdAt : ℤ
  updatedAt : ℤ
  deriving DecidableEq

/-- A row of `agentic_sessions` at v17. -/
structure AgenticSessionRow where
  sessionId : String
  harness : Harness
  segmentIndex : ℤ
  model : String
  agent : Option String
  projectDir : String
  cwd : String
  gitBranch : Option String
  slug : Option String
  title : Option String
  parentSessionId : Option String
  isSubagent : ℤ
  summaryText : String
  toolCallsJson : Option String
  userPromptsJson : Option String
  sourceFile : Option String
  snapshotDiffsJson : Option String
  commitMessagesJson : Option String
  messageCount : ℤ
  tokenCount : ℤ
  startTime : ℤ
  endTime : ℤ
  contentHash : Option String
  lastEnrichedContentHash : Option String
  createdAt : ℤ
  enriched : ℤ
  probeTag : Option String
  deriving DecidableEq

/-- A row of `agentic_enrichment_queue`, under its session. -/
structure AgenticQueueRow where
  status : QueueStatus
  priority : ℤ
  retryCount : ℤ
  maxRetries : ℤ
  errorMessage : Option String
  lockedAt : Option ℤ
  lockedBy : Option String
  enqueuedAt : ℤ
  updatedAt : ℤ
  deriving DecidableEq

/-- `UNIQUE (session_id, harness, segment_index)`. -/
def AgenticSessionRow.key (r : AgenticSessionRow) : String × Harness × ℤ :=
  (r.sessionId, r.harness, r.segmentIndex)

/-- `UNIQUE (session_id, segment_index)`. -/
def ClaudeSession.key (c : ClaudeSession) : String × ℤ := (c.sessionId, c.segmentIndex)

abbrev ClaudeSessions := IndexedTable ClaudeSession ClaudeSession.key

abbrev AgenticSessions := IndexedTable AgenticSessionRow AgenticSessionRow.key

end Rows

section Families

/-- The three legacy tables. -/
structure LegacyFamily where
  sessions : ClaudeSessions
  links : Table (ℕ × ℕ) Unit
  queue : Table ℕ ClaudeQueueRow

/-- The three agentic tables, and the ids of `knowledge_nodes`. -/
structure AgenticFamily where
  nodes : List ℕ
  sessions : AgenticSessions
  links : Table (ℕ × ℕ) Unit
  queue : Table ℕ AgenticQueueRow

/-- What `PRAGMA foreign_key_check` checks of the agentic tables. -/
def AgenticFamily.ForeignKeysHold (a : AgenticFamily) : Prop :=
  (∀ link ∈ a.links.keys, link.1 ∈ a.nodes ∧ link.2 ∈ a.sessions.rows.keys) ∧
    ∀ i ∈ a.queue.keys, i ∈ a.sessions.rows.keys

instance (a : AgenticFamily) : Decidable a.ForeignKeysHold := by
  unfold AgenticFamily.ForeignKeysHold
  infer_instance

/-- A database before v23. A partial schema lacks some of the tables. -/
structure Database where
  userVersion : ℕ
  claudeSessions : Option ClaudeSessions
  knowledgeNodeClaudeSessions : Option (Table (ℕ × ℕ) Unit)
  claudeEnrichmentQueue : Option (Table ℕ ClaudeQueueRow)
  knowledgeNodes : Option (List ℕ)
  agenticSessions : Option AgenticSessions
  knowledgeNodeAgenticSessions : Option (Table (ℕ × ℕ) Unit)
  agenticEnrichmentQueue : Option (Table ℕ AgenticQueueRow)

namespace Database

def legacyFamily? (db : Database) : Option LegacyFamily := do
  let sessions ← db.claudeSessions
  let links ← db.knowledgeNodeClaudeSessions
  let queue ← db.claudeEnrichmentQueue
  pure { sessions := sessions, links := links, queue := queue }

def agenticFamily? (db : Database) : Option AgenticFamily := do
  let nodes ← db.knowledgeNodes
  let sessions ← db.agenticSessions
  let links ← db.knowledgeNodeAgenticSessions
  let queue ← db.agenticEnrichmentQueue
  pure { nodes := nodes, sessions := sessions, links := links, queue := queue }

def setAgentic (db : Database) (a : AgenticFamily) : Database :=
  { db with
    knowledgeNodes := some a.nodes
    agenticSessions := some a.sessions
    knowledgeNodeAgenticSessions := some a.links
    agenticEnrichmentQueue := some a.queue }

end Database

end Families

section Backfill

/-- `LIKE '%text%'`, which folds the case of ASCII letters. -/
def likeContains (text s : String) : Bool :=
  (RustText.find? (text.toList.map Char.toLower) (s.toList.map Char.toLower)).isSome

/-- The harness of the `CASE`, the same in all three statements. -/
def harnessOf (sourceFile : String) : Harness :=
  if likeContains "/.codex/" sourceFile || likeContains "/CodingAssistant/codex/" sourceFile then
    .codex
  else if likeContains "/.cursor/" sourceFile then .cursor
  else .claudeCode

/-- The agentic row that is selected for a legacy row. -/
def agenticRowOf (c : ClaudeSession) : AgenticSessionRow where
  sessionId := c.sessionId
  harness := harnessOf c.sourceFile
  segmentIndex := c.segmentIndex
  model := ""
  agent := some ""
  projectDir := c.projectDir
  cwd := c.cwd
  gitBranch := c.gitBranch
  slug := some ""
  title := some ""
  parentSessionId := c.parentSessionId
  isSubagent := c.isSubagent
  summaryText := c.summaryText
  toolCallsJson := c.toolCallsJson
  userPromptsJson := c.userPromptsJson
  sourceFile := some c.sourceFile
  snapshotDiffsJson := some "null"
  commitMessagesJson := some "[]"
  messageCount := c.messageCount
  tokenCount := c.tokenCount.getD 0
  startTime := c.startTime
  endTime := c.endTime
  contentHash := c.contentHash
  lastEnrichedContentHash := c.lastEnrichedContentHash
  createdAt := c.createdAt
  enriched := c.enriched
  probeTag := c.probeTag

/-- The join of a legacy session with `agentic_sessions`. -/
def counterpart? (sessions : AgenticSessions) (c : ClaudeSession) : Option ℕ :=
  sessions.rowid? (agenticRowOf c).key

/-- The queue row that is selected for a legacy row. -/
def agenticQueueRowOf (q : ClaudeQueueRow) : AgenticQueueRow where
  status := if q.status = .processing then .pending else q.status
  priority := q.priority
  retryCount := q.retryCount
  maxRetries := q.maxRetries
  errorMessage := q.errorMessage
  lockedAt := none
  lockedBy := none
  enqueuedAt := q.createdAt
  updatedAt := q.updatedAt

/-- `ceq.status IN ('pending', 'processing', 'failed')`. -/
def unterminal (q : ClaudeQueueRow) : Bool := q.status ∈ [.pending, .processing, .failed]

variable (legacy : LegacyFamily)

def selectSessions : List AgenticSessionRow :=
  legacy.sessions.rows.entries.map fun e => agenticRowOf e.2

def selectLinks (nodes : List ℕ) (sessions : AgenticSessions) : List ((ℕ × ℕ) × Unit) :=
  legacy.links.entries.filterMap fun e => do
    let c ← legacy.sessions.rows.get? e.1.2
    let i ← counterpart? sessions c
    if e.1.1 ∈ nodes then some ((e.1.1, i), ()) else none

def selectQueue (sessions : AgenticSessions) : List (ℕ × AgenticQueueRow) :=
  legacy.queue.entries.filterMap fun e => do
    let c ← legacy.sessions.rows.get? e.1
    let i ← counterpart? sessions c
    let a ← sessions.rows.get? i
    if unterminal e.2 ∧ a.enriched = 0 then some (i, agenticQueueRowOf e.2) else none

/-- The three statements of the backfill. -/
def backfill (agentic : AgenticFamily) : AgenticFamily :=
  let sessions := agentic.sessions.insertAll (selectSessions legacy)
  { agentic with
    sessions := sessions
    links := agentic.links.insertAll (selectLinks legacy agentic.nodes sessions)
    queue := agentic.queue.insertAll (selectQueue legacy sessions) }

inductive MigrationError where
  | foreignKeyViolations
  | agenticTargetsIncomplete
  | agenticCountLags
  deriving DecidableEq

/-- The block `v17→v18` of `open_db`. On an error the transaction is rolled back. -/
def migrateV18 (db : Database) : Except MigrationError Database :=
  if ¬ (1 ≤ db.userVersion ∧ db.userVersion < 18) then .ok db
  else
    match db.legacyFamily?, db.agenticFamily? with
    | some legacy, some agentic =>
      let agentic := backfill legacy agentic
      if agentic.ForeignKeysHold then .ok { db.setAgentic agentic with userVersion := 18 }
      else .error .foreignKeyViolations
    | some _, none => .error .agenticTargetsIncomplete
    | none, _ => .ok { db with userVersion := 18 }

end Backfill

end Hippo.Migration
