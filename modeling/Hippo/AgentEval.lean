import Hippo.AgentEvalSchema
import Hippo.JsonComparison
import Mathlib.Data.List.Sort

/-!
# Ingest of agent-evaluation records

A file is read in batches of 100 lines. Each line is validated and prepared before its batch is
written in one transaction, so an error of the database rejects every line of the batch.
-/
namespace Hippo.AgentEval
open RustText

def maxLineBytes : ℕ := 2 ^ 20
def batchLines : ℕ := 100
def noteCap : ℕ := 4000
def lineTextCap : ℕ := 1000
def categoryCap : ℕ := 64

def recordTypes : List String := ["review_run", "finding", "verdict", "escape", "bench_run"]

def levels : List String := ["high", "medium", "low"]

def verdictNames : List String :=
  ["accepted", "false-positive", "not-useful", "duplicate", "likely-addressed"]

/-- Values the `agentic_sessions.harness` CHECK accepts. -/
def harnesses : List String := ["claude-code", "opencode", "codex", "cursor", "pi"]

/-- `EVENT_PAYLOAD_RETENTION_MS`. -/
def eventPayloadRetentionMs : ℤ := 90 * 24 * 60 * 60 * 1000

/-- How a stored value is compared with the value of a record. -/
inductive Compare where
  /-- The stored value must equal the record value. -/
  | exact
  /-- Both sides parse as JSON and compare with numbers as doubles. -/
  | json
  /-- Redacted or derived: never compared. -/
  | never
  deriving DecidableEq

structure Cell where
  column : String
  value : SqlValue
  compare : Compare

/-- One validated record, ready to insert. `cols` are the columns beside the primary key `id`. -/
structure Prepared where
  table : EvalTable
  id : String
  parent : Option (EvalTable × String) := none
  cols : List Cell

inductive Outcome where
  | written
  | skipped
  | rejected (reason : String)
  deriving DecidableEq

/-- What all calls of an importer share: the JSON library, the redaction engines and the hash. -/
structure Importer where
  library : JsonLibrary
  engines : List (String → String)
  sha256 : String → String

/-- What a call of `ingest` finds outside: the time, and the identity of a repository path. -/
structure Surroundings where
  nowMs : ℤ
  identity : String → Option String

/-- A value, or the reason of the rejection. -/
abbrev Field := Except String

def invalid (name : String) : String := "invalid_field:" ++ name

def missing (name : String) : String := "missing_field:" ++ name

def rejectIf (c : Bool) (reason : String) : Field Unit := if c then .error reason else .ok ()

section Fields

variable (obj : List (String × JsonValue))

/-- `none` for an absent key or JSON `null`. -/
def get (name : String) : Option JsonValue :=
  match obj.lookup name with
  | some .null => none
  | v => v

/-- The value of a key through `as`, if the key is there. -/
def optField {α : Type} (as : JsonValue → Option α) (name : String) : Field (Option α) :=
  match get obj name with
  | none => .ok none
  | some v =>
    match as v with
    | some a => .ok (some a)
    | none => .error (invalid name)

/-- The value of a key through `as`. -/
def field {α : Type} (as : JsonValue → Option α) (name : String) : Field α :=
  match get obj name with
  | none => .error (missing name)
  | some v =>
    match as v with
    | some a => .ok a
    | none => .error (invalid name)

def optStr (name : String) : Field (Option String) := optField obj JsonValue.asStr name

def str (name : String) : Field String := field obj JsonValue.asStr name

def optInt (name : String) : Field (Option ℤ) := optField obj JsonValue.asI64 name

def int (name : String) : Field ℤ := field obj JsonValue.asI64 name

def asBool : JsonValue → Option Bool
  | .bool b => some b
  | _ => none

def oneOf (name : String) (allowed : List String) : Field String := do
  let v ← str obj name
  if v ∈ allowed then .ok v else .error (invalid name)

def isFullSha (s : String) : Bool :=
  s.utf8ByteSize = 40 && s.toList.all fun c => ('0' ≤ c ∧ c ≤ '9') ∨ ('a' ≤ c ∧ c ≤ 'f')

def optSha (name : String) : Field (Option String) := do
  let v ← optStr obj name
  if v.any fun sha => !isFullSha sha then .error (invalid name) else .ok v

def sha (name : String) : Field String := do
  let v ← optSha obj name
  match v with
  | some sha => .ok sha
  | none => .error (missing name)

/-- A JSON value of the expected shape, serialized for a `*_json` column. -/
def json (lib : JsonLibrary) (name : String) (shape : JsonValue → Bool) (default : Option String) :
    Field String :=
  match get obj name, default with
  | some v, _ => if shape v then .ok (lib.print v) else .error (invalid name)
  | none, some default => .ok default
  | none, none => .error (missing name)

/-- Optional integer count; an omitted value takes the column default 0. -/
def count (name : String) : Field SqlValue := do
  let n ← optInt obj name
  return .integer (n.getD 0)

/-- `abs_repo`: only an absolute path is accepted. -/
def absRepo : Field String := do
  let repo ← str obj "repo"
  if repo.toList.head? = some '/' then .ok repo else .error (invalid "repo")

end Fields

def isArray (v : JsonValue) : Bool := v.asArray.isSome

def isObject (v : JsonValue) : Bool := v.asObject.isSome

def isValidId (s : String) : Bool :=
  1 ≤ s.utf8ByteSize && s.utf8ByteSize ≤ 64 && s.toList.all fun c =>
    ('0' ≤ c ∧ c ≤ '9') ∨ ('a' ≤ c ∧ c ≤ 'z') ∨ ('A' ≤ c ∧ c ≤ 'Z') ∨ c ∈ ['.', '_', ':', '-']

def optTextValue (s : Option String) : SqlValue := (s.map SqlValue.text).getD .null

/-- `normalize` of `line_hash`: one trailing `\r`, then blanks and tabs at both ends. -/
def normalizeLine (line : String) : String :=
  let chars := line.toList
  let chars := if chars.getLast? = some '\r' then chars.dropLast else chars
  let blank := fun c : Char => decide (c = ' ' ∨ c = '\t')
  String.ofList ((chars.dropWhile blank).reverse.dropWhile blank).reverse

namespace Importer

variable (imp : Importer)

def lineHash (line : String) : String := imp.sha256 (normalizeLine line)

/-- Redact first, then truncate, so a cut cannot split a credential. -/
def redact (raw : String) (maxChars : ℕ) : String :=
  takeChars maxChars (imp.engines.foldl (fun acc engine => engine acc) raw)

variable (around : Surroundings) (obj : List (String × JsonValue)) (id : String)

/-- The `review_run` branch of `prepare_line`. -/
def prepareReviewRun : Field Prepared := do
  let repo ← absRepo obj
  let sessionId ← optStr obj "session_id"
  let harness ← optStr obj "harness"
  rejectIf (harness.any fun h => !harnesses.contains h) (invalid "harness")
  rejectIf (sessionId.isSome && harness.isNone) (missing "harness")
  let agent ← str obj "agent"
  let mode ← str obj "mode"
  let requestedModel ← optStr obj "requested_model"
  let modelId ← optStr obj "model_id"
  let effort ← optStr obj "effort"
  let cliVersion ← optStr obj "cli_version"
  let base ← str obj "base"
  let baseSha ← sha obj "base_sha"
  let headSha ← sha obj "head_sha"
  let inputSha256 ← str obj "input_sha256"
  let unitsTotal ← count obj "units_total"
  let unitsFailed ← count obj "units_failed"
  let inputTokens ← count obj "input_tokens"
  let outputTokens ← count obj "output_tokens"
  let cacheReadTokens ← count obj "cache_read_tokens"
  let cacheCreationTokens ← count obj "cache_creation_tokens"
  let startedAt ← int obj "started_at"
  let finishedAt ← int obj "finished_at"
  return {
    table := .reviewRuns
    id := id
    cols := [
      ⟨"agent", .text agent, .exact⟩,
      ⟨"mode", .text mode, .exact⟩,
      ⟨"requested_model", optTextValue requestedModel, .exact⟩,
      ⟨"model_id", .text (modelId.getD ""), .exact⟩,
      ⟨"effort", optTextValue effort, .exact⟩,
      ⟨"cli_version", .text (cliVersion.getD ""), .exact⟩,
      ⟨"repo_identity", optTextValue (around.identity repo), .never⟩,
      ⟨"repo", .text repo, .exact⟩,
      ⟨"base", .text base, .exact⟩,
      ⟨"base_sha", .text baseSha, .exact⟩,
      ⟨"head_sha", .text headSha, .exact⟩,
      ⟨"input_sha256", .text inputSha256, .exact⟩,
      ⟨"units_total", unitsTotal, .exact⟩,
      ⟨"units_failed", unitsFailed, .exact⟩,
      ⟨"input_tokens", inputTokens, .exact⟩,
      ⟨"output_tokens", outputTokens, .exact⟩,
      ⟨"cache_read_tokens", cacheReadTokens, .exact⟩,
      ⟨"cache_creation_tokens", cacheCreationTokens, .exact⟩,
      ⟨"session_id", optTextValue sessionId, .exact⟩,
      ⟨"harness", optTextValue harness, .exact⟩,
      ⟨"started_at", .integer startedAt, .exact⟩,
      ⟨"finished_at", .integer finishedAt, .exact⟩,
      ⟨"ingested_at", .integer around.nowMs, .never⟩] }

/-- The `finding` branch. The hash comes from the raw line. -/
def prepareFinding : Field Prepared := do
  let runId ← str obj "run_id"
  let repo ← absRepo obj
  let lineText ← optStr obj "line_text"
  let category ← optStr obj "category"
  let path ← str obj "path"
  let side ← oneOf obj "side" ["+", "-"]
  let line ← int obj "line"
  let severity ← oneOf obj "severity" levels
  let confidence ← oneOf obj "confidence" levels
  let claim ← str obj "claim"
  let loggedAt ← int obj "logged_at"
  return {
    table := .findings
    id := id
    parent := some (.reviewRuns, runId)
    cols := [
      ⟨"run_id", .text runId, .exact⟩,
      ⟨"repo_identity", optTextValue (around.identity repo), .never⟩,
      ⟨"repo", .text repo, .exact⟩,
      ⟨"path", .text path, .exact⟩,
      ⟨"side", .text side, .exact⟩,
      ⟨"line", .integer line, .exact⟩,
      ⟨"line_text", optTextValue (lineText.map fun t => imp.redact t lineTextCap), .never⟩,
      ⟨"line_hash", optTextValue (lineText.map imp.lineHash), .never⟩,
      ⟨"severity", .text severity, .exact⟩,
      ⟨"confidence", .text confidence, .exact⟩,
      ⟨"category", .text ((category.map (takeChars categoryCap)).getD "unknown"), .exact⟩,
      ⟨"claim", .text (imp.redact claim noteCap), .never⟩,
      ⟨"logged_at", .integer loggedAt, .exact⟩,
      ⟨"ingested_at", .integer around.nowMs, .never⟩,
      ⟨"payload_expiry", .integer (around.nowMs + eventPayloadRetentionMs), .never⟩] }

/-- The `verdict` branch. -/
def prepareVerdict : Field Prepared := do
  let findingId ← str obj "finding_id"
  let auto ← field obj asBool "auto"
  let verdict ← oneOf obj "verdict" verdictNames
  let commit ← optSha obj "commit"
  let note ← optStr obj "note"
  let decidedAt ← int obj "decided_at"
  return {
    table := .verdicts
    id := id
    parent := some (.findings, findingId)
    cols := [
      ⟨"finding_id", .text findingId, .exact⟩,
      ⟨"verdict", .text verdict, .exact⟩,
      ⟨"commit_sha", optTextValue commit, .exact⟩,
      ⟨"note", optTextValue (note.map fun n => imp.redact n noteCap), .never⟩,
      ⟨"auto", .integer (if auto then 1 else 0), .exact⟩,
      ⟨"decided_at", .integer decidedAt, .exact⟩,
      ⟨"ingested_at", .integer around.nowMs, .never⟩,
      ⟨"payload_expiry", .integer (around.nowMs + eventPayloadRetentionMs), .never⟩] }

/-- The `escape` branch. -/
def prepareEscape : Field Prepared := do
  let repo ← absRepo obj
  let path ← str obj "path"
  let line ← int obj "line"
  let fixCommit ← optSha obj "fix_commit"
  let note ← str obj "note"
  let recordedAt ← int obj "recorded_at"
  return {
    table := .escapes
    id := id
    cols := [
      ⟨"repo_identity", optTextValue (around.identity repo), .never⟩,
      ⟨"repo", .text repo, .exact⟩,
      ⟨"path", .text path, .exact⟩,
      ⟨"line", .integer line, .exact⟩,
      ⟨"fix_commit", optTextValue fixCommit, .exact⟩,
      ⟨"note", .text (imp.redact note noteCap), .never⟩,
      ⟨"recorded_at", .integer recordedAt, .exact⟩,
      ⟨"ingested_at", .integer around.nowMs, .never⟩] }

/-- The `bench_run` branch. -/
def prepareBenchRun : Field Prepared := do
  let bench ← str obj "bench"
  let recordedAt ← int obj "recorded_at"
  let repoCommit ← str obj "repo_commit"
  let cliVersion ← optStr obj "cli_version"
  let model ← str obj "model"
  let modelIds ← json obj imp.library "model_ids" isArray (some "[]")
  let effort ← optStr obj "effort"
  let reps ← int obj "reps"
  let cases ← int obj "cases"
  let casesSha256 ← str obj "cases_sha256"
  let briefSha256 ← str obj "brief_sha256"
  let failedReviews ← count obj "failed_reviews"
  let tokens ← count obj "tokens"
  let scores ← json obj imp.library "scores" isObject none
  let perCase ← json obj imp.library "per_case" isArray (some "[]")
  return {
    table := .benchRuns
    id := id
    cols := [
      ⟨"bench", .text bench, .exact⟩,
      ⟨"recorded_at", .integer recordedAt, .exact⟩,
      ⟨"repo_commit", .text repoCommit, .exact⟩,
      ⟨"cli_version", .text (cliVersion.getD ""), .exact⟩,
      ⟨"model", .text model, .exact⟩,
      ⟨"model_ids_json", .text modelIds, .json⟩,
      ⟨"effort", optTextValue effort, .exact⟩,
      ⟨"reps", .integer reps, .exact⟩,
      ⟨"cases", .integer cases, .exact⟩,
      ⟨"cases_sha256", .text casesSha256, .exact⟩,
      ⟨"brief_sha256", .text briefSha256, .exact⟩,
      ⟨"failed_reviews", failedReviews, .exact⟩,
      ⟨"tokens", tokens, .exact⟩,
      ⟨"scores_json", .text scores, .json⟩,
      ⟨"per_case_json", .text perCase, .json⟩,
      ⟨"ingested_at", .integer around.nowMs, .never⟩] }

/-- The checks of `schema_version`. -/
def checkVersion : Field Unit :=
  match obj.lookup "schema_version" with
  | none | some .null => .error (missing "schema_version")
  | some (.int n) =>
    if n = 1 then .ok ()
    else if -2 ^ 63 ≤ n ∧ n < 2 ^ 64 then .error "unknown_schema_version"
    else .error (invalid "schema_version")
  | some _ => .error (invalid "schema_version")

/-- The checks of `type`, made before any field of some type. -/
def recordKind : Field String :=
  match obj.lookup "type" with
  | none | some .null => .error (missing "type")
  | some (.string kind) => if kind ∈ recordTypes then .ok kind else .error "unknown_type"
  | some _ => .error (invalid "type")

/-- `prepare_line`. -/
def prepareLine (raw : List UInt8) : Field Prepared :=
  if maxLineBytes < raw.length then .error "line_too_long"
  else
    match (String.fromUTF8? ⟨raw.toArray⟩).bind imp.library.parse with
    | none => .error "invalid_json"
    | some value =>
      match value.asObject with
      | none => .error "not_an_object"
      | some obj => do
        checkVersion obj
        let kind ← recordKind obj
        let id ← str obj "id"
        rejectIf (!isValidId id) (invalid "id")
        if kind = "review_run" then prepareReviewRun around obj id
        else if kind = "finding" then imp.prepareFinding around obj id
        else if kind = "verdict" then imp.prepareVerdict around obj id
        else if kind = "escape" then imp.prepareEscape around obj id
        else if kind = "bench_run" then imp.prepareBenchRun around obj id
        else .error "unknown_type"

end Importer

section Writes

/-- `json_text_eq`. -/
def jsonTextEq (lib : JsonLibrary) (stored new : SqlValue) : Bool :=
  let parse : SqlValue → Option JsonValue
    | .text t => lib.parse t
    | _ => none
  match parse stored, parse new with
  | some a, some b => jsonEq a b
  | _, _ => false

/-- The stored value of a cell's column counts as the cell's value. -/
def Cell.agrees (lib : JsonLibrary) (c : Cell) (stored : SqlValue) : Bool :=
  match c.compare with
  | .json => jsonTextEq lib stored c.value
  | _ => stored = c.value

namespace Prepared

def row (r : Prepared) : Row := r.cols.map fun c => (c.column, c.value)

def compared (r : Prepared) : List Cell := r.cols.filter fun c => c.compare ≠ .never

/-- Every compared column of the stored row agrees. -/
def same (lib : JsonLibrary) (r : Prepared) (stored : Row) : Bool :=
  r.compared.all fun c => c.agrees lib (stored.value c.column)

end Prepared

/-- `write_record`; `none` is an error of the database. -/
def writeRecord (lib : JsonLibrary) (db : EvalDb) (r : Prepared) : Option (EvalDb × Outcome) :=
  match db.rows.get? (r.table, r.id) with
  | some stored => some (db, if r.same lib stored then .skipped else .rejected "id_conflict")
  | none =>
    if r.parent.any fun k => (db.rows.get? k).isNone then some (db, .rejected "unknown_parent")
    else (db.insert r.table r.id r.row).map fun db => (db, .written)

/-- `write_batch`: one transaction. -/
def writeBatch (lib : JsonLibrary) (db : EvalDb) :
    List (ℕ × Prepared) → Option (EvalDb × List Outcome)
  | [] => some (db, [])
  | (_, r) :: ready => do
    let (db, outcome) ← writeRecord lib db r
    let (db, outcomes) ← writeBatch lib db ready
    return (db, outcome :: outcomes)

/-- The outcomes of lines, by line number. -/
abbrev Report := List (ℕ × Outcome)

/-- One round of the loop of `ingest`. -/
def ingestBatch (imp : Importer) (around : Surroundings) (db : EvalDb)
    (batch : List (ℕ × List UInt8)) : EvalDb × Report :=
  let prepared := batch.map fun l => (l.1, imp.prepareLine around l.2)
  let failed := prepared.filterMap fun p =>
    match p.2 with
    | .error reason => some (p.1, Outcome.rejected reason)
    | .ok _ => none
  let ready := prepared.filterMap fun p => p.2.toOption.map fun r => (p.1, r)
  match writeBatch imp.library db ready with
  | some (db, outcomes) => (db, failed ++ (ready.map Prod.fst).zip outcomes)
  | none => (db, failed ++ ready.map fun p => (p.1, .rejected "db_error"))

/-- Consecutive pieces of `n` elements. -/
def chunks {α : Type} (n : ℕ) : ℕ → List α → List (List α)
  | _, [] => []
  | 0, _ => []
  | fuel + 1, l => l.take n :: chunks n fuel (l.drop n)

/-- `u8::is_ascii_whitespace`. -/
def isAsciiWhitespace (b : UInt8) : Bool := b = 32 ∨ b = 9 ∨ b = 10 ∨ b = 12 ∨ b = 13

/-- The lines that are not blank, with their numbers. -/
def numberedLines (input : List UInt8) : List (ℕ × List UInt8) :=
  (((input.splitOn 10).zipIdx 1).map fun l => (l.2, l.1)).filter fun l =>
    !l.2.all isAsciiWhitespace

/-- The batches of `ingest`, one after the other. -/
def ingestBatches (imp : Importer) (around : Surroundings) (db : EvalDb)
    (batches : List (List (ℕ × List UInt8))) : EvalDb × Report :=
  batches.foldl (fun s batch =>
    let round := ingestBatch imp around s.1 batch
    (round.1, s.2 ++ round.2)) (db, [])

/-- `ingest`: the tables, and the outcome of every line. -/
def ingestReport (imp : Importer) (around : Surroundings) (db : EvalDb) (input : List UInt8) :
    EvalDb × Report :=
  let lines := numberedLines input
  ingestBatches imp around db (chunks batchLines lines.length lines)

/-- `IngestSummary`. -/
structure IngestSummary where
  written : ℕ
  skipped : ℕ
  rejections : List (ℕ × String)

/-- The summary of the outcomes, with the rejections in file order. -/
def Report.summary (report : Report) : IngestSummary where
  written := report.countP fun l => l.2 = .written
  skipped := report.countP fun l => l.2 = .skipped
  rejections := (report.filterMap fun l =>
    match l.2 with
    | .rejected reason => some (l.1, reason)
    | _ => none).insertionSort fun a b => a.1 ≤ b.1

/-- `accepted_any`: at least one line was written or skipped. -/
def IngestSummary.acceptedAny (s : IngestSummary) : Bool := 1 ≤ s.written + s.skipped

/-- `ingest`. -/
def ingest (imp : Importer) (around : Surroundings) (db : EvalDb) (input : List UInt8) :
    EvalDb × IngestSummary :=
  let result := ingestReport imp around db input
  (result.1, Report.summary result.2)

end Writes

end Hippo.AgentEval
