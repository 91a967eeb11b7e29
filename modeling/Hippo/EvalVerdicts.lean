import Hippo.EvalLinkageChange
import Hippo.TextRetention
import Hippo.Transition

/-!
# Automatic verdicts beside ingest and sweeps

`eval_linkage.run_once` reads the open findings, looks for their commits with git, outside any
transaction, and then writes the verdicts in batches. Logs of reviews are ingested and old text is
swept at any time in between, and several passes may be under way.
-/
namespace Hippo.EvalLinkage
open AgentEval PayloadGc RustText Transition

section Findings

/-- A row of the query for findings without a verdict. -/
structure OpenFinding where
  findingId : String
  repo : String
  repoIdentity : SqlValue
  path : String
  lineHash : String
  headSha : String
  startedAt : ℤ

/-- The joined row of a finding, unless the condition fails: side `'-'` is not in the reviewed tree,
and a missing hash cannot match. -/
def openFinding (db : EvalDb) (e : String × Row) : Option OpenFinding :=
  match e.2.value "line_hash", db.rows.get? (.reviewRuns, textOf (e.2.value "run_id")) with
  | .text hash, some run =>
    if e.2.value "side" = .text "+" ∧ verdictsOf db e.1 = [] then
      some {
        findingId := e.1
        repo := textOf (e.2.value "repo")
        repoIdentity := e.2.value "repo_identity"
        path := textOf (e.2.value "path")
        lineHash := hash
        headSha := textOf (run.value "head_sha")
        startedAt := integerOf (run.value "started_at") }
    else none
  | _, _ => none

/-- `_OPEN_FINDINGS`. -/
def openFindings (db : EvalDb) : List OpenFinding :=
  ((tableRows db .findings).filterMap (openFinding db)).insertionSort fun f g =>
    f.repo < g.repo ∨ f.repo = g.repo ∧ f.findingId ≤ g.findingId

end Findings

section Pass

/-- What a pass will write for a finding. -/
structure EvalLink where
  findingId : String
  commit : String
  note : Option String
  deriving DecidableEq

/-- The variables of `run_once` over the open findings. -/
structure Collected where
  links : List EvalLink := []
  reasons : List (String × String) := []
  refLines : RefLines := []

/-- `"; ".join(…)[:4000] or None`. -/
def joinNotes (note pr : Option String) : Option String :=
  let parts := [note, pr].filterMap fun part => part.filter fun s => s ≠ ""
  let joined := takeChars 4000 ("; ".intercalate parts)
  if joined = "" then none else some joined

/-- An exception of git becomes a reason. -/
def outcomeOf : Call Outcome → Outcome
  | .ok outcome => outcome
  | .error (.unavailable rev path) =>
    { reason := some ("git object unavailable: " ++ rev ++ ":" ++ path) }
  | .error (.failed exception) => { reason := some ("git failed: " ++ exception) }

variable (sha256 : List UInt8 → String) (gits : String → Git) (hasGit : String → Bool)
  (prNote : OpenFinding → String → Option String)

/-- The body of the loop of `run_once`. `prNote` is nothing unless the lookup is enabled. -/
def collect (c : Collected) (f : OpenFinding) : Collected :=
  if hasGit f.repo then
    let found := findChange sha256 (gits f.repo) f.repo f.headSha f.path f.lineHash f.startedAt
      c.refLines
    let outcome := outcomeOf found.1
    { links := c.links ++ outcome.commit.toList.map fun commit =>
        ⟨f.findingId, commit, joinNotes outcome.note (prNote f commit)⟩
      reasons := c.reasons ++ outcome.reason.toList.map fun reason => (f.findingId, reason)
      refLines := found.2 }
  else { c with reasons := c.reasons ++ [(f.findingId, "repository missing")] }

/-- The links of a pass, from the findings that are open when it starts. -/
def passLinks (db : EvalDb) : List EvalLink :=
  ((openFindings db).foldl (collect sha256 gits hasGit prNote) {}).links

end Pass

section Writes

variable (sha256 : List UInt8 → String)

def batchRows : ℕ := 100

def payloadRetentionMs : ℤ := 7776000000

/-- `verdict_id`. -/
def verdictId (findingId commit : String) : String :=
  "auto-" ++ takeChars 16
    (sha256 (findingId ++ "|" ++ commit ++ "|" ++ "likely-addressed").toUTF8.toList)

def verdictRow (l : EvalLink) (nowMs : ℤ) : Row :=
  [("finding_id", .text l.findingId), ("verdict", .text "likely-addressed"),
    ("commit_sha", .text l.commit), ("note", optTextValue l.note), ("auto", .integer 1),
    ("decided_at", .integer nowMs), ("ingested_at", .integer nowMs),
    ("payload_expiry", .integer (nowMs + payloadRetentionMs))]

/-- The verdict is inserted: any verdict closes the finding, and the id must be free. -/
def EvalLink.Due (db : EvalDb) (l : EvalLink) : Prop :=
  verdictsOf db l.findingId = [] ∧
    db.rows.get? (.verdicts, verdictId sha256 l.findingId l.commit) = none

instance (db : EvalDb) (l : EvalLink) : Decidable (l.Due sha256 db) :=
  inferInstanceAs (Decidable (_ ∧ _))

/-- `_INSERT_VERDICT`, with the links that it inserts; `none` is a violated constraint. -/
def insertVerdict (nowMs : ℤ) (db : EvalDb) (l : EvalLink) : Option (EvalDb × List EvalLink) :=
  if l.Due sha256 db then
    (db.insert .verdicts (verdictId sha256 l.findingId l.commit) (verdictRow l nowMs)).map
      fun db => (db, [l])
  else some (db, [])

/-- A batch of `write_verdicts`, in one transaction. -/
def writeLinks (nowMs : ℤ) (db : EvalDb) : List EvalLink → Option (EvalDb × List EvalLink)
  | [] => some (db, [])
  | l :: links => do
    let (db, inserted) ← insertVerdict sha256 nowMs db l
    let (db, more) ← writeLinks nowMs db links
    return (db, inserted ++ more)

end Writes

section Machine

/-- A pass that has its links and writes them. -/
structure Writing where
  nowMs : ℤ
  links : List EvalLink

/-- The database and the passes under way. `inserted` and `written` are not in the program: the
links that became verdicts, and those whose batch was committed. -/
structure World where
  db : EvalDb
  passes : List Writing := []
  inserted : List EvalLink := []
  written : List EvalLink := []

inductive Action where
  /-- A batch of lines of a log is ingested. -/
  | ingest (around : Surroundings) (batch : List (ℕ × List UInt8))
  /-- A sweep clears the text of a row. -/
  | sweep (t : EvalTable) (id : String)
  /-- A pass reads the open findings and asks git. -/
  | look (gits : String → Git) (hasGit : String → Bool)
      (prNote : OpenFinding → String → Option String) (nowMs : ℤ)
  /-- A pass writes its next batch. -/
  | write (k : ℕ)
  /-- A pass is killed or raises. -/
  | stop (k : ℕ)

variable (imp : Importer) (sha256 : List UInt8 → String)

/-- A pass after it committed a batch; nothing is left of one without more links. -/
def Writing.after (pass : Writing) : List Writing :=
  match pass.links.drop batchRows with
  | [] => []
  | rest => [{ pass with links := rest }]

def step (w : World) : Action → Option World
  | .ingest around batch => some { w with db := (ingestBatch imp around w.db batch).1 }
  | .sweep t id => some { w with db := clearText w.db t id }
  | .look gits hasGit prNote nowMs =>
    some { w with
      passes := w.passes ++ [⟨nowMs, passLinks sha256 gits hasGit prNote w.db⟩] }
  | .write k =>
    w.passes[k]?.map fun pass =>
      match writeLinks sha256 pass.nowMs w.db (pass.links.take batchRows) with
      | none => { w with passes := w.passes.eraseIdx k }
      | some (db, inserted) =>
        { db := db
          passes := replaceAt w.passes k pass.after
          inserted := w.inserted ++ inserted
          written := w.written ++ pass.links.take batchRows }
  | .stop k => w.passes[k]?.map fun _ => { w with passes := w.passes.eraseIdx k }

end Machine

end Hippo.EvalLinkage
