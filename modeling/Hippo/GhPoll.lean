import Hippo.Table
import Hippo.Transition
import Mathlib.Data.List.Infix

/-!
# Polling GitHub Actions

A pass lists the runs of each watched repository, stores them, settles the watches of their
commits, and drills into the jobs of every completed run that is not enriched yet. It is a stack of
tasks: the first one waits for GitHub or is one statement, committed by itself, and others work on
the database between any two. `redact` is the redaction of texts, `re` are the character classes of
`regex`.
-/
namespace Hippo.GhPoll

open Transition

section Annotations

/-- `\w`, `\d` and `\s`. -/
structure Classes where
  isWord : Char → Bool
  isDigit : Char → Bool
  isSpace : Char → Bool

variable (re : Classes)

/-- `gh_annotations::ParsedAnnotation`. -/
structure ParsedAnnotation where
  tool : Option String
  ruleId : Option String
deriving DecidableEq, Repr

def contains (text : List Char) (part : String) : Bool := part.toList <:+: text

/-- `error\[(E\d{4})\]` at the start of a text. -/
def cargoAt (text : List Char) : Option (List Char) :=
  let code := (text.drop 6).take 5
  if "error[E".toList <+: text ∧ ((code.drop 1).filter re.isDigit).length = 4 ∧
      (text.drop 11).head? = some ']' then some code else none

/-- The first match in a text of what matches at the start of one. -/
def search (matchAt : List Char → Option (List Char)) (text : List Char) : Option (List Char) :=
  text.tails.findSome? matchAt

/-- `[A-Z]{1,4}\d{3,4}`, the whole word. -/
def isRuffCode (word : List Char) : Bool :=
  let letters := word.takeWhile Char.isUpper
  let digits := word.dropWhile Char.isUpper
  1 ≤ letters.length ∧ letters.length ≤ 4 ∧ 3 ≤ digits.length ∧ digits.length ≤ 4 ∧
    digits.all re.isDigit

/-- `\b([A-Z]{1,4}\d{3,4})\b`: between two boundaries is a word. -/
def ruffCode (text : List Char) : Option (List Char) :=
  (text.splitOnP fun c => !re.isWord c).find? (isRuffCode re)

/-- `\[([a-zA-Z][a-zA-Z0-9-]{7,})\]\s*$` at the start of a text. -/
def mypyAt (text : List Char) : Option (List Char) :=
  match text with
  | '[' :: rest =>
    let code := rest.takeWhile fun c => c.isAlphanum || c = '-'
    let after := rest.dropWhile fun c => c.isAlphanum || c = '-'
    if (code.head?.any Char.isAlpha) ∧ 8 ≤ code.length ∧ after.head? = some ']' ∧
        (after.drop 1).all re.isSpace then some code else none
  | _ => none

/-- `gh_annotations::parse`. -/
def parse (jobName message : String) : ParsedAnnotation :=
  let text := message.toList
  let job := jobName.toList.map Char.toLower
  match search (cargoAt re) text with
  | some code => ⟨some "cargo", some (String.ofList code)⟩
  | none =>
    match (if contains job "ruff" ∨ contains job "lint" then ruffCode re text
      else none) with
    | some code => ⟨some "ruff", some (String.ofList code)⟩
    | none =>
      match (if contains job "type" ∨ contains job "mypy" ∨ contains job "pyright" then
        search (mypyAt re) text else none) with
      | some code =>
        ⟨some (if contains job "pyright" then "pyright" else "mypy"), some (String.ofList code)⟩
      | none =>
        if (contains job "pytest" ∨ contains job "test") ∧
            (contains text "FAILED " ∨ contains text "AssertionError") then ⟨some "pytest", none⟩
        else ⟨none, none⟩

def asciiClasses : Classes := ⟨Char.isAlphanum, Char.isDigit, Char.isWhitespace⟩

example : parse asciiClasses "Lint" "x F401 [*]" = ⟨some "ruff", some "F401"⟩ ∧
    parse asciiClasses "typecheck" "bad [arg-type] " = ⟨some "mypy", some "arg-type"⟩ := by
  decide +kernel

end Annotations

section Store

/-- A row of `workflow_runs`. -/
structure RunRow where
  repo : String
  headSha : String
  headBranch : Option String
  event : String
  status : String
  conclusion : Option String
  startedAt : Option ℤ
  completedAt : Option ℤ
  htmlUrl : String
  actor : Option String
  rawJson : String
  firstSeenAt : ℤ
  lastSeenAt : ℤ
  enriched : Bool
deriving DecidableEq

/-- A row of `workflow_jobs`. -/
structure JobRow where
  runId : ℕ
  name : String
  status : String
  conclusion : Option String
  startedAt : Option ℤ
  completedAt : Option ℤ
  runnerName : Option String
  rawJson : String
deriving DecidableEq

/-- A row of `workflow_annotations`. -/
structure AnnotationRow where
  jobId : ℕ
  level : String
  parsed : ParsedAnnotation
  path : Option String
  startLine : Option ℤ
  message : String
deriving DecidableEq

/-- A row of `workflow_log_excerpts`; the poller leaves `step_name` empty. -/
structure ExcerptRow where
  jobId : ℕ
  excerpt : String
  truncated : Bool
deriving DecidableEq

/-- A row of `sha_watchlist`. -/
structure Watch where
  createdAt : ℤ
  expiresAt : ℤ
  terminalStatus : Option String
  notified : Bool
deriving DecidableEq

/-- `sha` and `repo`. -/
abbrev WatchKey := String × String

structure Db where
  runs : Table ℕ RunRow
  jobs : Table ℕ JobRow
  annotations : List AnnotationRow
  excerpts : List ExcerptRow
  /-- The runs in `workflow_enrichment_queue`, and when they came. -/
  queue : Table ℕ ℤ
  watches : Table WatchKey Watch

def Db.empty : Db := ⟨.empty, .empty, [], [], .empty, .empty⟩

namespace Db

variable (db : Db)

/-- `workflow_store::upsert_run`. -/
def upsertRun (id : ℕ) (new : RunRow) : Db :=
  { db with runs := db.runs.upsert id new fun row =>
      { row with
        status := new.status
        conclusion := new.conclusion
        completedAt := new.completedAt
        lastSeenAt := new.lastSeenAt
        rawJson := new.rawJson } }

/-- `workflow_store::upsert_job`. A new job needs its run. -/
def upsertJob (id : ℕ) (new : JobRow) : Option Db :=
  if new.runId ∈ db.runs.keys ∨ id ∈ db.jobs.keys then
    some { db with jobs := db.jobs.upsert id new fun row =>
      { row with
        status := new.status
        conclusion := new.conclusion
        completedAt := new.completedAt
        rawJson := new.rawJson } }
  else none

/-- `workflow_store::insert_annotation`. -/
def insertAnnotation (row : AnnotationRow) : Option Db :=
  if row.jobId ∈ db.jobs.keys then some { db with annotations := db.annotations ++ [row] } else none

def clearAnnotations (job : ℕ) : Db :=
  { db with annotations := db.annotations.filter fun row => row.jobId ≠ job }

/-- `workflow_store::insert_log_excerpt`. -/
def insertLogExcerpt (row : ExcerptRow) : Option Db :=
  if row.jobId ∈ db.jobs.keys then some { db with excerpts := db.excerpts ++ [row] } else none

def clearExcerpts (job : ℕ) : Db :=
  { db with excerpts := db.excerpts.filter fun row => row.jobId ≠ job }

/-- `workflow_store::enqueue_enrichment`. -/
def enqueueEnrichment (run : ℕ) (now : ℤ) : Option Db :=
  if run ∈ db.runs.keys then some { db with queue := db.queue.upsert run now id } else none

/-- `watchlist::upsert`. -/
def watch (key : WatchKey) (now expiresAt : ℤ) : Db :=
  { db with watches := db.watches.upsert key ⟨now, expiresAt, none, false⟩ fun row =>
      { row with expiresAt := expiresAt } }

/-- `watchlist::mark_terminal`. -/
def markTerminal (key : WatchKey) (status : String) : Db :=
  { db with watches := db.watches.modify key fun row => { row with terminalStatus := some status } }

def deleteWatch (key : WatchKey) : Db := { db with watches := db.watches.erase key }

def isFailure (status : Option String) : Bool :=
  status = some "failure" || status = some "cancelled"

/-- `watchlist::pending_notifications`. -/
def pendingNotifications (now : ℤ) : List (WatchKey × Watch) :=
  db.watches.select fun _ row => isFailure row.terminalStatus ∧ row.notified = false ∧
    now < row.expiresAt

/-- `watchlist::mark_notified`. -/
def markNotified (key : WatchKey) : Db :=
  { db with watches := db.watches.modify key fun row => { row with notified := true } }

/-- `watchlist::cleanup_expired`. -/
def cleanupExpired (now : ℤ) : Db :=
  { db with watches := db.watches.delete fun _ row =>
      row.expiresAt < now ∧ row.terminalStatus ≠ none ∧ row.notified = true }

end Db

end Store

section Pass

/-- `gh_api::WorkflowRun`, with its times read and its JSON. -/
structure ApiRun where
  id : ℕ
  headSha : String
  headBranch : Option String
  event : String
  status : String
  conclusion : Option String
  startedAt : Option ℤ
  updatedAt : Option ℤ
  htmlUrl : String
  actor : Option String
  json : String

/-- `gh_api::Job`. -/
structure ApiJob where
  id : ℕ
  name : String
  status : String
  conclusion : Option String
  startedAt : Option ℤ
  completedAt : Option ℤ
  runnerName : Option String
  checkRunUrl : Option String
  json : String

/-- `gh_api::Annotation`. -/
structure ApiAnnotation where
  level : String
  message : String
  path : Option String
  startLine : Option ℤ

/-- What is left of a pass: the first task waits for an answer (`list`, `jobs`, `annotations` and
`log`) or is the next statement. -/
inductive Task where
  | list (repo : String)
  | run (repo : String) (r : ApiRun)
  | settle (repo : String) (r : ApiRun)
  | look (repo : String) (r : ApiRun)
  | jobs (repo : String) (r : ApiRun)
  | job (r : ApiRun) (j : ApiJob)
  | annotations (j : ApiJob)
  | clearAnnotations (j : ApiJob)
  | annotate (j : ApiJob) (a : ApiAnnotation)
  | log (j : ApiJob)
  | clearLog (j : ApiJob)
  | saveLog (j : ApiJob) (excerpt : String) (truncated : Bool)
  | enqueue (r : ApiRun)
  | cleanup

/-- An answer of GitHub; `none` is an error. -/
inductive Answer where
  | runList (l : Option (List ApiRun))
  | jobList (l : Option (List ApiJob))
  | annotationList (l : Option (List ApiAnnotation))
  | logTail (l : Option (String × Bool))

/-- The tasks of a pass. -/
def runOnce (watchedRepos : List String) : List Task :=
  watchedRepos.map .list ++ [.cleanup]

/-- What an answer adds to the pass. `none` ends it. -/
def Task.answered : Task → Answer → Option (Option (List Task))
  | .list repo, .runList l => some (l.map fun runs => runs.map (.run repo))
  | .jobs _ r, .jobList l =>
    some (some (match l with
      | some found => found.map (.job r) ++ [.enqueue r]
      | none => []))
  | .annotations j, .annotationList l =>
    some (some (.clearAnnotations j :: (l.getD []).map (.annotate j)))
  | .log j, .logTail l =>
    some (some (match l with
      | some (excerpt, truncated) => [.clearLog j, .saveLog j excerpt truncated]
      | none => []))
  | _, _ => none

variable (redact : String → String) (re : Classes)

def ApiRun.row (repo : String) (now : ℤ) (r : ApiRun) : RunRow where
  repo := repo
  headSha := r.headSha
  headBranch := r.headBranch
  event := r.event
  status := r.status
  conclusion := r.conclusion
  startedAt := r.startedAt
  completedAt := r.updatedAt
  htmlUrl := r.htmlUrl
  actor := r.actor
  rawJson := redact r.json
  firstSeenAt := now
  lastSeenAt := now
  enriched := false

def ApiJob.row (runId : ℕ) (j : ApiJob) : JobRow where
  runId := runId
  name := j.name
  status := j.status
  conclusion := j.conclusion
  startedAt := j.startedAt
  completedAt := j.completedAt
  runnerName := j.runnerName
  rawJson := redact j.json

def annotationRow (j : ApiJob) (a : ApiAnnotation) : AnnotationRow where
  jobId := j.id
  level := a.level
  parsed := parse re j.name (redact a.message)
  path := a.path
  startLine := a.startLine
  message := redact a.message

/-- A statement, and the tasks it adds to the pass. `none` is an error of the database. -/
def Task.execute (now : ℤ) (db : Db) : Task → Option (Db × List Task)
  | .run repo r => some (db.upsertRun r.id (r.row redact repo now),
      if r.status = "completed" then [.settle repo r, .look repo r] else [])
  | .settle repo r => some (match r.conclusion with
      | none => db
      | some conclusion =>
        if Db.isFailure (some conclusion) then db.markTerminal (r.headSha, repo) conclusion
        else db.deleteWatch (r.headSha, repo), [])
  | .look repo r =>
    some (db, if (db.runs.get? r.id).any RunRow.enriched then [] else [.jobs repo r])
  | .job r j => (db.upsertJob j.id (j.row redact r.id)).map fun db =>
      (db, (if j.checkRunUrl.isSome then [.annotations j] else []) ++
        if Db.isFailure j.conclusion then [.log j] else [])
  | .clearAnnotations j => some (db.clearAnnotations j.id, [])
  | .annotate j a => (db.insertAnnotation (annotationRow redact re j a)).map fun db => (db, [])
  | .clearLog j => some (db.clearExcerpts j.id, [])
  | .saveLog j excerpt truncated =>
    (db.insertLogExcerpt ⟨j.id, redact excerpt, truncated⟩).map fun db => (db, [])
  | .enqueue r => (db.enqueueEnrichment r.id now).map fun db => (db, [])
  | .cleanup => some (db.cleanupExpired now, [])
  | .list _ | .jobs _ _ | .annotations _ | .log _ => none

end Pass

section Machine

/-- A pass under way. -/
structure Poller where
  now : ℤ
  tasks : List Task

/-- The database, the passes under way, and the commands that print notices and acknowledge them
one by one. `fetched` is history: the annotations of a job as they were answered. No step reads
it. -/
structure World where
  db : Db
  pollers : List Poller
  acks : List (List WatchKey)
  fetched : List (ℕ × List AnnotationRow)

def World.start (db : Db) : World := ⟨db, [], [], []⟩

inductive Act where
  | poll (watchedRepos : List String) (now : ℤ)
  | answer (k : ℕ) (a : Answer)
  | execute (k : ℕ)
  /-- A statement whose error is not looked at fails. -/
  | skip (k : ℕ)
  /-- The process ends: an error that is returned, or it is killed. -/
  | stop (k : ℕ)
  | registerWatchSha (key : WatchKey) (now ttlSecs : ℤ)
  | pendingNotifications (repo : String) (now : ℤ) (ack : Bool)
  | acknowledge (k : ℕ)
  /-- The brain has enriched a run. -/
  | enriched (run : ℕ)

/-- The tasks after one whose error is not looked at: the deletion of a watch, the cleanup, and the
look at a run, which then counts as not enriched. -/
def Task.failed : Task → Option (List Task)
  | .settle _ r => if r.conclusion.isSome ∧ ¬ Db.isFailure r.conclusion then some [] else none
  | .look repo r => some [.jobs repo r]
  | .cleanup => some []
  | _ => none

variable (redact : String → String) (re : Classes)

/-- What an answer says about the annotations of a job. -/
def Task.fetched : Task → Answer → List (ℕ × List AnnotationRow)
  | .annotations j, .annotationList l => [(j.id, (l.getD []).map (annotationRow redact re j))]
  | _, _ => []

def step (w : World) : Act → Option World
  | .poll watchedRepos now =>
    some { w with pollers := w.pollers ++ [⟨now, runOnce watchedRepos⟩] }
  | .answer k a =>
    match w.pollers[k]? with
    | some ⟨now, task :: rest⟩ => (task.answered a).map fun o =>
      { w with
        pollers := replaceAt w.pollers k (o.toList.map fun new => ⟨now, new ++ rest⟩)
        fetched := w.fetched ++ task.fetched redact re a }
    | _ => none
  | .execute k =>
    match w.pollers[k]? with
    | some ⟨now, task :: rest⟩ => (task.execute redact re now w.db).map fun o =>
      { w with db := o.1, pollers := replaceAt w.pollers k [⟨now, o.2 ++ rest⟩] }
    | _ => none
  | .skip k =>
    match w.pollers[k]? with
    | some ⟨now, task :: rest⟩ => task.failed.map fun new =>
      { w with pollers := replaceAt w.pollers k [⟨now, new ++ rest⟩] }
    | _ => none
  | .stop k => w.pollers[k]?.map fun _ => { w with pollers := replaceAt w.pollers k [] }
  | .registerWatchSha key now ttlSecs =>
    some { w with db := w.db.watch key now (now + ttlSecs * 1000) }
  | .pendingNotifications repo now ack =>
    some (if ack then
      { w with acks := w.acks ++
          [((w.db.pendingNotifications now).filter fun e => e.1.2 = repo).map Prod.fst] }
      else w)
  | .acknowledge k =>
    match w.acks[k]? with
    | some (key :: rest) =>
      some { w with db := w.db.markNotified key, acks := replaceAt w.acks k [rest] }
    | _ => none
  | .enriched run =>
    some { w with db := { w.db with
      runs := w.db.runs.modify run fun row => { row with enriched := true } } }

/-- The only pass is the one that a step of a pass is of. -/
theorem getElem?_singleton {α : Type} {a b : α} {k : ℕ} (h : [a][k]? = some b) : k = 0 ∧ b = a := by
  cases k with
  | zero => exact ⟨rfl, (Option.some.inj h).symm⟩
  | succ k => cases h

end Machine

end Hippo.GhPoll
