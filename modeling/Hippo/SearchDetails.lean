import Hippo.BestSelection
import Hippo.RetrievalFilters
import Mathlib.Data.Prod.Lex
import Mathlib.Data.String.Basic

/-!
# Details of the nodes that a search found

`_fetch_details` attaches the linked sources to each node: their ids, a packet of evidence for
each, and the directory, branch and time that they give the node. Rows that tie come in the order
of their ids, in which the junction tables are read.
-/
namespace Hippo.Retrieval
open BestSelection

/-- `EvidencePacket`, before a score is attached. -/
structure EvidencePacket where
  ref : String
  sourceKind : String
  table : String
  rowId : ℕ
  timestampMs : ℤ
  excerpt : String
  sessionId : Option String := none
  harness : Option String := none
  segmentIndex : Option ℤ := none
  sourcePath : Option String := none
deriving DecidableEq, Repr

section Packets

/-- `_truncate`. -/
def truncate (text : String) : String :=
  let text := PyText.strip text
  if text.length ≤ 500 then text else String.ofList (text.toList.take 499) ++ "…"

/-- The `or` of Python on texts. -/
def orText (a b : String) : String := if a = "" then b else a

def makeShellPacket (id : ℕ) (e : EventRow) : EvidencePacket where
  ref := "shell-" ++ toString id
  sourceKind := if e.sourceKind = "claude-tool" then "claude-tool" else "shell"
  table := "events"
  rowId := id
  timestampMs := e.timestamp
  excerpt := truncate e.command

def makeBrowserPacket (id : ℕ) (v : VisitRow) : EvidencePacket where
  ref := "browser-" ++ toString id
  sourceKind := "browser"
  table := "browser_events"
  rowId := id
  timestampMs := v.timestamp
  excerpt :=
    let title := v.title.getD ""
    truncate (if v.domain ≠ "" ∧ title ≠ "" then v.domain ++ " — " ++ title
      else orText title (orText v.url v.domain))

/-- The table of runs has no `name`. -/
def makeWorkflowPacket (id : ℕ) (r : RunRow) : EvidencePacket where
  ref := "workflow-" ++ toString id
  sourceKind := "workflow"
  table := "workflow_runs"
  rowId := id
  timestampMs := r.startedAt.getD 0
  excerpt :=
    let parts := [r.repo, r.conclusion.getD ""].filter (· ≠ "")
    truncate (if parts = [] then "workflow run " ++ toString id else " / ".intercalate parts)

/-- `_AGENTIC_LINK_PREFIXES`, without their hyphens. -/
def agenticLinks : List String := ["claude", "codex", "cursor", "opencode", "pi"]

/-- `source_kind_from_linked_id`. -/
def sourceKindFromLinkedId (link : String) : Option String :=
  let starts (name : String) : Bool := (name ++ "-").toList.isPrefixOf link.toList
  if starts "shell" then some "shell"
  else if starts "browser" then some "browser"
  else if starts "workflow" then some "workflow"
  else if starts "memory" then some "claude-auto-memory"
  else agenticLinks.find? starts

/-- The prefix of the ids of a harness. -/
def linkName (harness : String) : String := if harness = "claude-code" then "claude" else harness

/-- What follows the first occurrence of a marker, `partition`. -/
def afterMarker (marker : List Char) : List Char → Option (List Char)
  | [] => none
  | c :: text =>
    if marker.isPrefixOf (c :: text) then some ((c :: text).drop marker.length)
    else afterMarker marker text

/-- The responses of a session, or its summary without any. -/
def sessionExcerpt (summary : String) : String :=
  match afterMarker "\nAssistant responses (excerpts):\n".toList summary.toList with
  | none => summary
  | some responses =>
    if PyText.strip (String.ofList responses) = "" then summary else String.ofList responses

def makeAgenticPacket (id : ℕ) (s : SessionRow) : EvidencePacket where
  ref := linkName s.harness ++ "-" ++ toString id
  sourceKind := (sourceKindFromLinkedId (linkName s.harness ++ "-" ++ toString id)).getD
    (linkName s.harness)
  table := "agentic_sessions"
  rowId := id
  timestampMs := if s.endTime = 0 then s.startTime else s.endTime
  excerpt := truncate (sessionExcerpt s.summaryText)
  sessionId := given (some s.sessionId)
  harness := some s.harness
  segmentIndex := some s.segmentIndex
  sourcePath := given s.sourceFile

def makeMemoryPacket (id : ℕ) (m : MemoryRow) : EvidencePacket where
  ref := "memory-" ++ toString id
  sourceKind := "claude-auto-memory"
  table := "memory_chunks"
  rowId := id
  timestampMs := m.revision.createdAt
  excerpt :=
    truncate (if m.document.repository ≠ "" ∧ m.chunk.headingPath ≠ "" then
        m.document.repository ++ " — " ++ m.chunk.headingPath
      else orText m.chunk.headingPath
        (orText (String.ofList (m.chunk.content.toList.take 200)) m.document.sourcePath))
  sourcePath := given (some m.document.sourcePath)

end Packets

/-- An entry of the result of `_fetch_details`. -/
structure Details where
  uuid : String
  cwd : String := ""
  gitBranch : String := ""
  capturedAt : ℤ
  linkedEventIds : List ℕ := []
  linkedSourceIds : List String := []
  evidencePackets : List EvidencePacket := []
  entities : List (String × String) := []
deriving DecidableEq, Repr

namespace Details

def attach (packet : EvidencePacket) (d : Details) : Details :=
  { d with
    linkedSourceIds := d.linkedSourceIds ++ [packet.ref]
    evidencePackets := d.evidencePackets ++ [packet] }

/-- The newest time of a source stands for that of the node. -/
def capture (ms : ℤ) (d : Details) : Details :=
  if ms ≠ 0 ∧ d.capturedAt < ms then { d with capturedAt := ms } else d

/-- The directory and the branch, unless an earlier row gave them. -/
def place (cwd : String) (branch : Option String) (d : Details) : Details :=
  { d with
    cwd := orText d.cwd cwd
    gitBranch := orText d.gitBranch (branch.getD "") }

def addShell (d : Details) (e : ℕ × EventRow) : Details :=
  let d := d.attach (makeShellPacket e.1 e.2)
  ({ d with linkedEventIds := d.linkedEventIds ++ [e.1] }.place e.2.cwd e.2.gitBranch).capture
    e.2.timestamp

def addBrowser (d : Details) (v : ℕ × VisitRow) : Details := d.attach (makeBrowserPacket v.1 v.2)

def addWorkflow (d : Details) (r : ℕ × RunRow) : Details := d.attach (makeWorkflowPacket r.1 r.2)

def addAgentic (d : Details) (s : ℕ × SessionRow) : Details :=
  ((d.attach (makeAgenticPacket s.1 s.2)).place s.2.cwd s.2.gitBranch).capture s.2.startTime

def addMemory (d : Details) (m : ℕ × MemoryRow) : Details :=
  (d.attach (makeMemoryPacket m.1 m.2)).capture m.2.revision.createdAt

end Details

/-- `IDENTIFIER_ENTITY_TYPES`. -/
def identifierEntityTypes : List String := ["tool", "file", "service", "project", "env_var"]

namespace Db

variable (db : Db) (includeExcluded : Bool) (now : ℤ) (node : ℕ)

/-! The rows of the evidence queries for one node. -/

def shellRows : List (ℕ × EventRow) :=
  sortOn (fun e => toLex (-e.2.timestamp, e.1))
    ((db.nodeEvents node).filter fun e => includeExcluded || e.2.eligible)

def browserRows : List (ℕ × VisitRow) :=
  sortOn (fun v => -(v.1 : ℤ))
    ((db.nodeVisits node).filter fun v => includeExcluded || v.2.eligible)

def workflowRows : List (ℕ × RunRow) :=
  sortOn (fun r => -(r.1 : ℤ)) ((db.nodeRuns node).filter fun r => includeExcluded || r.2.eligible)

def agenticRows : List (ℕ × SessionRow) :=
  sortOn (fun s => toLex (-s.2.startTime, -(s.1 : ℤ)))
    ((db.nodeSessions node).filter fun s => includeExcluded || s.2.eligible now)

/-- The query for memory asks for active chunks and nothing else. -/
def memoryRows : List (ℕ × MemoryRow) :=
  sortOn (fun m => toLex (-m.2.revision.createdAt, m.1))
    ((db.nodeMemory node).filter fun m => m.2.active)

/-- Up to 20 names by type, each of up to 200 characters. -/
def entityNames : List (String × String) :=
  let named := (db.nodeEntities node).filter fun e => e.2.type ∈ identifierEntityTypes
  let first := (sortOn (fun e => toLex (e.2.type, e.2.name)) named).take 20
  sortOn (fun e => toLex (e.1, e.2))
    (first.map fun e => (e.2.type, String.ofList (e.2.name.toList.take 200)))

/-- What the sources other than memory give. -/
def observed (row : NodeRow) : Details :=
  let d : Details := { uuid := row.uuid, capturedAt := row.createdAt }
  let d := (db.shellRows includeExcluded node).foldl Details.addShell d
  let d := (db.browserRows includeExcluded node).foldl Details.addBrowser d
  let d := (db.workflowRows includeExcluded node).foldl Details.addWorkflow d
  (db.agenticRows includeExcluded now node).foldl Details.addAgentic d

def details (row : NodeRow) : Details :=
  let d := (db.memoryRows node).foldl Details.addMemory
    (db.observed includeExcluded now node row)
  { d with entities := db.entityNames node }

/-- `_fetch_details`: the entry of a node in the result for some ids. -/
def fetchDetails (ids : List ℕ) : Option Details :=
  if node ∈ ids then (db.nodes.get? node).map (db.details includeExcluded now node) else none

end Db

end Hippo.Retrieval
