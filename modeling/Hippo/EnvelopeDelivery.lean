import Hippo.EventIngest
import Hippo.UniqueIndex
import Mathlib.Data.Rat.Defs
import Mathlib.Data.List.Infix

/-!
# Delivery of envelopes

A flush and a fallback recovery deliver envelopes with the same two inserts. Each insert is one
transaction: the environment snapshot, the event and its queue row are committed together, and a
statement that fails, a duplicate or a crash rolls all of them back.
-/
namespace Hippo.Delivery

section Events

structure GitState where
  repo : Option String
  branch : Option String
  commit : Option String
  isDirty : Bool
  deriving DecidableEq

structure CapturedOutput where
  content : String
  truncated : Bool
  deriving DecidableEq

/-- A `HashMap<String, String>`, as the list of its entries. -/
abbrev Env := List (String × String)

/-- `ShellEvent`; the shell is its `as_db_str`. -/
structure ShellEvent where
  sessionId : String
  command : String
  exitCode : ℤ
  durationMs : UInt64
  cwd : String
  hostname : String
  shell : String
  stdout : Option CapturedOutput
  stderr : Option CapturedOutput
  envSnapshot : Env
  gitState : Option GitState
  redactionCount : ℕ
  toolName : Option String
  deriving DecidableEq

structure BrowserEvent where
  url : String
  title : String
  domain : String
  dwellMs : UInt64
  scrollDepth : ℚ
  extractedText : Option String
  searchQuery : Option String
  referrer : Option String
  deriving DecidableEq

/-- The payload; the kinds without a table are one constructor. -/
inductive EventPayload where
  | shell (event : ShellEvent)
  | browser (event : BrowserEvent)
  | other
  deriving DecidableEq

structure EventEnvelope where
  envelopeId : String
  timestamp : ℤ
  payload : EventPayload
  probeTag : Option String
  deriving DecidableEq

end Events

section Tables

/-- A row of `events`, with the columns of its insert. -/
structure EventRow where
  sessionId : ℕ
  timestamp : ℤ
  command : String
  stdout : Option String
  stderr : Option String
  stdoutTruncated : Option Bool
  stderrTruncated : Option Bool
  exitCode : ℤ
  durationMs : ℤ
  cwd : String
  hostname : String
  shell : String
  gitRepo : Option String
  gitBranch : Option String
  gitCommit : Option String
  gitDirty : Option Bool
  envSnapshotId : Option ℕ
  redactionCount : ℕ
  envelopeId : Option String
  sourceKind : String
  toolName : Option String
  probeTag : Option String

/-- A row of `browser_events`, with the columns of its insert. -/
structure BrowserRow where
  timestamp : ℤ
  url : String
  title : String
  domain : String
  dwellMs : ℤ
  scrollDepth : ℚ
  extractedText : Option String
  searchQuery : Option String
  referrer : Option String
  contentHash : Option String
  envelopeId : Option String
  probeTag : Option String

structure EnvSnapshot where
  contentHash : String
  envJson : String

structure Session where
  startTime : ℤ
  terminal : Option String
  shell : String
  hostname : String
  username : String

abbrev EnvSnapshots := IndexedTable EnvSnapshot EnvSnapshot.contentHash

structure Db where
  sessions : Table ℕ Session
  shell : EventTables EventRow
  browser : EventTables BrowserRow
  snapshots : EnvSnapshots

def Db.empty : Db where
  sessions := Table.empty
  shell := EventTables.empty
  browser := EventTables.empty
  snapshots := IndexedTable.empty

end Tables

/-- The functions outside this module: JSON of an ordered map, SHA-256 in hex, and a redaction with
its count. -/
structure Library where
  toJson : List (String × String) → String
  sha256 : String → String
  redact : String → String × ℕ

section Redaction

variable (lib : Library)

def envAllowlist : List String :=
  ["HOME", "USER", "LOGNAME", "SHELL", "TERM", "COLORTERM", "TERM_PROGRAM", "LANG", "LC_ALL",
    "PATH", "PWD", "OLDPWD", "SHLVL", "HOSTNAME", "EDITOR", "VISUAL", "TMPDIR", "VIRTUAL_ENV",
    "CONDA_DEFAULT_ENV", "NODE_ENV", "RAILS_ENV", "APP_ENV", "AWS_PROFILE", "AWS_DEFAULT_REGION",
    "KUBECONFIG", "XDG_CONFIG_HOME", "XDG_DATA_HOME", "HIPPO_SESSION_ID"]

def scrubOutput (o : CapturedOutput) : CapturedOutput :=
  { o with content := (lib.redact o.content).1 }

/-- `redact_shell_event`. -/
def redactShellEvent (event : ShellEvent) : ShellEvent :=
  let env := event.envSnapshot.filter fun e => e.1 ∈ envAllowlist
  let outputs := [event.stdout, event.stderr].filterMap id
  let count := (lib.redact event.command).2 + (env.map fun e => (lib.redact e.2).2).sum +
    (outputs.map fun o => (lib.redact o.content).2).sum
  { event with
    command := (lib.redact event.command).1
    redactionCount := count
    envSnapshot := env.map fun e => (e.1, (lib.redact e.2).1)
    stdout := event.stdout.map (scrubOutput lib)
    stderr := event.stderr.map (scrubOutput lib) }

end Redaction

section Insert

variable (lib : Library)

/-- The statements of an insert's transaction. -/
inductive Statement where
  | begin
  | upsertSnapshot
  | selectSnapshot
  | insertEvent
  | rollback
  | insertQueue
  | commit
  deriving DecidableEq

/-- Whether a statement fails (busy, disk full, a crash), and with it its transaction. -/
abbrev Fault := Statement → Bool

def attempt (fault : Fault) (s : Statement) : Except Statement Unit :=
  if fault s then .error s else .ok ()

/-- `stable_env_json`. -/
def stableEnvJson (env : Env) : String :=
  lib.toJson (env.mergeSort fun a b => decide (a.1 ≤ b.1))

/-- Fills the snapshot in where its text was cleared. -/
def restoreSnapshot (snapshots : EnvSnapshots) (i : ℕ) (envJson : String) : EnvSnapshots :=
  snapshots.mapRows
    (fun j s => if j = i ∧ s.envJson = "" then { s with envJson := envJson } else s) (by
      intro j s
      split <;> rfl)

/-- `upsert_env_snapshot` for an environment that is not empty: the snapshots, and the id. -/
def upsertEnvSnapshot (snapshots : EnvSnapshots) (env : Env) : EnvSnapshots × ℕ :=
  let envJson := stableEnvJson lib env
  let contentHash := lib.sha256 envJson
  match snapshots.rowid? contentHash with
  | some i => (restoreSnapshot snapshots i envJson, i)
  | none =>
    (snapshots.insertOrIgnore { contentHash := contentHash, envJson := envJson },
      snapshots.rows.nextRowid)

/-- `source_kind_of`. -/
def sourceKindOf (event : ShellEvent) : String :=
  if event.toolName.isSome then "claude-tool" else "shell"

/-- `duration_ms as i64`. -/
def asI64 (n : UInt64) : ℤ := n.toInt64.toInt

/-- The values that `insert_event_at` binds. -/
def eventRow (sessionId : ℕ) (event : ShellEvent) (timestamp : ℤ) (redactionCount : ℕ)
    (envSnapshotId : Option ℕ) (envelopeId probeTag : Option String) : EventRow where
  sessionId := sessionId
  timestamp := timestamp
  command := event.command
  stdout := event.stdout.map CapturedOutput.content
  stderr := event.stderr.map CapturedOutput.content
  stdoutTruncated := event.stdout.map CapturedOutput.truncated
  stderrTruncated := event.stderr.map CapturedOutput.truncated
  exitCode := event.exitCode
  durationMs := asI64 event.durationMs
  cwd := event.cwd
  hostname := event.hostname
  shell := event.shell
  gitRepo := event.gitState.bind GitState.repo
  gitBranch := event.gitState.bind GitState.branch
  gitCommit := event.gitState.bind GitState.commit
  gitDirty := event.gitState.map GitState.isDirty
  envSnapshotId := envSnapshotId
  redactionCount := redactionCount
  envelopeId := envelopeId
  sourceKind := sourceKindOf event
  toolName := event.toolName
  probeTag := probeTag

/-- The snapshots and the snapshot id of an event, under the event's write lock. -/
def resolveSnapshot (fault : Fault) (snapshots : EnvSnapshots) (env : Env)
    (envSnapshotId : Option ℕ) : Except Statement (EnvSnapshots × Option ℕ) :=
  if env.isEmpty then .ok (snapshots, envSnapshotId)
  else do
    attempt fault .upsertSnapshot
    attempt fault .selectSnapshot
    let upserted := upsertEnvSnapshot lib snapshots env
    pure (upserted.1, some upserted.2)

/-- The rest of a transaction after its event was inserted: the queue row, unless the event is a
probe's, and the commit. -/
def finishInsert {ρ : Type} (fault : Fault) (t t' : EventTables ρ) (probeTag : Option String) :
    Except Statement (EventTables ρ × ℕ) := do
  if probeTag = none then attempt fault .insertQueue
  attempt fault .commit
  pure (t', t.events.nextRowid)

/-- `insert_event_at`: the database after it and the id of the new event, if it is new. -/
def insertEventAt (fault : Fault) (db : Db) (sessionId : ℕ) (event : ShellEvent) (timestamp : ℤ)
    (redactionCount : ℕ) (envSnapshotId : Option ℕ) (envelopeId probeTag : Option String) :
    Except Statement (Db × Option ℕ) := do
  attempt fault .begin
  let resolved ← resolveSnapshot lib fault db.snapshots event.envSnapshot envSnapshotId
  let row := eventRow sessionId event timestamp redactionCount resolved.2 envelopeId probeTag
  attempt fault .insertEvent
  if envelopeId ≠ none ∧ ∃ e ∈ db.shell.events.entries, e.2.envelopeId = envelopeId then
    attempt fault .rollback
    pure (db, none)
  else if sessionId ∉ db.sessions.keys then
    -- the foreign key
    .error .insertEvent
  else
    let shell := db.shell.insertOnce EventRow.envelopeId EventRow.probeTag row
    let finished ← finishInsert fault db.shell shell probeTag
    pure ({ db with shell := finished.1, snapshots := resolved.1 }, some finished.2)

/-- The values that `insert_browser_event` binds. -/
def browserRow (event : BrowserEvent) (timestampMs : ℤ) (envelopeId probeTag : Option String) :
    BrowserRow where
  timestamp := timestampMs
  url := event.url
  title := event.title
  domain := event.domain
  dwellMs := asI64 event.dwellMs
  scrollDepth := event.scrollDepth
  extractedText := event.extractedText
  searchQuery := event.searchQuery
  referrer := event.referrer
  contentHash := event.extractedText.map lib.sha256
  envelopeId := envelopeId
  probeTag := probeTag

/-- `insert_browser_event`. -/
def insertBrowserEvent (fault : Fault) (db : Db) (event : BrowserEvent) (timestampMs : ℤ)
    (envelopeId probeTag : Option String) : Except Statement (Db × Option ℕ) := do
  let row := browserRow lib event timestampMs envelopeId probeTag
  attempt fault .begin
  attempt fault .insertEvent
  if envelopeId ≠ none ∧ ∃ e ∈ db.browser.events.entries, e.2.envelopeId = envelopeId then
    attempt fault .commit
    pure (db, none)
  else
    let browser := db.browser.insertOnce BrowserRow.envelopeId BrowserRow.probeTag row
    let finished ← finishInsert fault db.browser browser probeTag
    pure ({ db with browser := finished.1 }, some finished.2)

end Insert

section Deliver

variable (lib : Library)

/-- The database, and the daemon's map from session uuids to ids. -/
structure World where
  db : Db
  sessionMap : List (String × ℕ)

def World.init : World := ⟨Db.empty, []⟩

inductive Route where
  | flush
  | recovery
  deriving DecidableEq

/-- One delivery: its route, what it meets in the environment, and what fails. -/
structure Attempt where
  route : Route
  envelope : EventEnvelope
  username : String
  nowMs : ℤ
  sessionFault : Bool
  fault : Fault

inductive Outcome where
  | stored
  | duplicate
  | failed
  deriving DecidableEq

/-- The newest session with a terminal. -/
def sessionOf (db : Db) (sessionUuid : String) : Option ℕ :=
  ((orderBy (fun e => -e.2.startTime)
    (db.sessions.select fun _ s => s.terminal = some sessionUuid)).head?).map Prod.fst

/-- `get_or_create_session`. Each of its statements commits by itself. -/
def getOrCreateSession (w : World) (a : Attempt) (event : ShellEvent) : Option (World × ℕ) :=
  match w.sessionMap.lookup event.sessionId with
  | some id => some (w, id)
  | none =>
    if a.sessionFault then none
    else
      match sessionOf w.db event.sessionId with
      | some id => some ({ w with sessionMap := (event.sessionId, id) :: w.sessionMap }, id)
      | none =>
        let id := w.db.sessions.nextRowid
        let session : Session :=
          { startTime := a.nowMs
            terminal := some event.sessionId
            shell := event.shell
            hostname := event.hostname
            username := a.username }
        some
          ({ db := { w.db with sessions := w.db.sessions.insert id session }
             sessionMap := (event.sessionId, id) :: w.sessionMap }, id)

/-- The world after an insert. -/
def settle (w : World) : Except Statement (Db × Option ℕ) → World × Outcome
  | .ok (db, some _) => ({ w with db := db }, .stored)
  | .ok (db, none) => ({ w with db := db }, .duplicate)
  | .error _ => (w, .failed)

/-- The event as the route hands it to the insert. -/
def Route.prepare (route : Route) (event : ShellEvent) : ShellEvent :=
  match route with
  | .flush => redactShellEvent lib event
  | .recovery => event

/-- One envelope in the loop of `flush_events` or of `recover_fallback_files`. -/
def deliver (w : World) (a : Attempt) : World × Outcome :=
  match a.envelope.payload with
  | .shell event =>
    let event := a.route.prepare lib event
    match getOrCreateSession w a event with
    | none => (w, .failed)
    | some (w, sessionId) =>
      settle w (insertEventAt lib a.fault w.db sessionId event a.envelope.timestamp
        event.redactionCount none (some a.envelope.envelopeId) a.envelope.probeTag)
  | .browser event =>
    settle w (insertBrowserEvent lib a.fault w.db event a.envelope.timestamp
      (some a.envelope.envelopeId) a.envelope.probeTag)
  | .other => (w, .failed)

inductive Action where
  | deliver (a : Attempt)
  /-- The daemon starts again, with an empty map. -/
  | restart

/-- A run from the empty database, its latest action first, with the outcome of every delivery. -/
def run : List Action → World × List (Attempt × Outcome)
  | [] => (World.init, [])
  | .deliver a :: earlier =>
    let before := run earlier
    let after := deliver lib before.1 a
    (after.1, (a, after.2) :: before.2)
  | .restart :: earlier =>
    let before := run earlier
    ({ before.1 with sessionMap := [] }, before.2)

end Deliver

end Hippo.Delivery
