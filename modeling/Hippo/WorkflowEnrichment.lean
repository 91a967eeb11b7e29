import Hippo.EnrichmentQueue
import Hippo.KnowledgeStore
import Hippo.LessonClusters
import Hippo.MemoryLinks

/-!
# Enrichment of workflow runs

A worker claims runs, collects what happened around each of them, asks the model and writes a
`change_outcome` node, or links the run to a node with the same text. The writer and the failure
report go by run id alone. Rows of a run, a job or an annotation are keyed by their ids.
-/
namespace Hippo.Workflow

open AlarmLessons (ClusterKey Lessons)

section Rows

structure WorkflowRun where
  repo : String
  headSha : String
  startedAt : Option ℤ := none
  conclusion : Option String := none
  enriched : Bool := false

structure Annotation where
  jobId : ℕ
  level : String
  tool : Option String := none
  ruleId : Option String := none
  path : Option String := none

/-- The columns of `events` the correlation reads. -/
structure Command where
  timestamp : ℤ
  command : String
  gitCommit : Option String := none
  gitRepo : Option String := none
  probeTag : Option String := none

/-- The columns of `agentic_sessions` the correlation reads. -/
structure Session where
  startTime : ℤ
  endTime : ℤ
  probeTag : Option String := none

/-- A row of `workflow_enrichment_queue`, with the columns its claim orders by. -/
structure WorkflowQueueRow extends QueueRow where
  priority : ℤ := 5
  enqueuedAt : ℤ

/-- An assignment to the columns that all queues have. -/
def WorkflowQueueRow.set (f : QueueRow → QueueRow) (r : WorkflowQueueRow) : WorkflowQueueRow :=
  { r with toQueueRow := f r.toQueueRow }

@[simp] theorem WorkflowQueueRow.set_toQueueRow (f : QueueRow → QueueRow) (r : WorkflowQueueRow) :
    (r.set f).toQueueRow = f r.toQueueRow := rfl

/-- The columns of a `change_outcome` node. -/
structure ChangeOutcome where
  content : String
  embedText : String
  outcome : Option String
  tags : String

end Rows

structure WorkflowDb where
  runs : Table ℕ WorkflowRun
  /-- The run of each job. -/
  jobs : Table ℕ ℕ
  annotations : Table ℕ Annotation
  events : Table ℕ Command
  sessions : Table ℕ Session
  queue : Table ℕ WorkflowQueueRow
  store : KnowledgeStore ChangeOutcome
  lessons : Lessons

/-- What `enrich_one_async` has read before it asks the model. -/
structure Selected where
  runId : ℕ
  repo : String
  conclusion : Option String
  now : ℤ
  shell : List ℕ
  claude : List ℕ
  anns : List (ℕ × Annotation)

/-- What `enrich_one_async` takes from the parsed reply of the model. -/
structure Answer where
  content : String
  embedText : String
  tags : String

namespace WorkflowDb

def empty (lessons : Lessons) : WorkflowDb :=
  ⟨Table.empty, Table.empty, Table.empty, Table.empty, Table.empty, Table.empty,
    KnowledgeStore.empty, lessons⟩

def status? (db : WorkflowDb) (runId : ℕ) : Option QueueStatus :=
  (db.queue.get? runId).map fun q => q.status

section Poll

/-- `upsert_run`: a run that is known gets its new conclusion. -/
def upsertRun (db : WorkflowDb) (id : ℕ) (run : WorkflowRun) : WorkflowDb :=
  { db with runs := db.runs.upsert id run fun old => { old with conclusion := run.conclusion } }

/-- `upsert_job`: a job stays with its run. -/
def upsertJob (db : WorkflowDb) (job runId : ℕ) : WorkflowDb :=
  { db with jobs := db.jobs.upsert job runId id }

def annotate (db : WorkflowDb) (a : Annotation) : WorkflowDb :=
  { db with annotations := db.annotations.insert db.annotations.nextRowid a }

/-- `enqueue_enrichment`. A run that is queued stays as it is. -/
def enqueueEnrichment (db : WorkflowDb) (runId : ℕ) (now : ℤ) : WorkflowDb :=
  { db with queue := db.queue.upsert runId { id := runId, enqueuedAt := now } id }

end Poll

section Claim

/-- The subselect of the lock `UPDATE`. -/
def claimCandidates (db : WorkflowDb) (staleLockMs : ℤ) (limit : Option ℕ) : List ℕ :=
  let rows := db.queue.select fun _ q => q.toQueueRow.Claimable staleLockMs
  (limitTo limit (orderBy (fun e => e.2.priority) (orderBy (fun e => e.2.enqueuedAt) rows))).map
    Prod.fst

/-- `claim_pending_workflow_runs`. -/
def claimPendingWorkflowRuns (db : WorkflowDb) (worker : String) (now staleLockTimeoutMs : ℤ)
    (maxClaimBatch : Option ℕ) : WorkflowDb × List ℕ :=
  let runIds := db.claimCandidates (now - staleLockTimeoutMs) maxClaimBatch
  let lock := WorkflowQueueRow.set (QueueRow.lock now worker)
  ({ db with queue := db.queue.update (fun i _ => i ∈ runIds) lock }, runIds)

/-- `mark_workflow_queue_failed`. -/
def markWorkflowQueueFailed (db : WorkflowDb) (runId : ℕ) (error : String) : WorkflowDb :=
  { db with queue := db.queue.modify runId (WorkflowQueueRow.set (QueueRow.chargeRetry error)) }

/-- `reap_stale_locks` on this queue. -/
def reapStaleLocks (db : WorkflowDb) (lockTimeoutMs now : ℤ) : WorkflowDb :=
  let reap := WorkflowQueueRow.set (QueueRow.chargeRetry (Queue.reapReason lockTimeoutMs))
  { db with
    queue := db.queue.update
      (fun _ q => q.status = .processing ∧ q.lockedBefore (now - lockTimeoutMs)) reap }

end Claim

section Correlation

/-- `CORRELATION_WINDOW_MS`. -/
def correlationWindowMs : ℤ := 15 * 60 * 1000

/-- `run["started_at"] or now`. -/
def startedOr (run : WorkflowRun) (now : ℤ) : ℤ :=
  match run.startedAt with
  | none => now
  | some t => if t = 0 then now else t

/-- `command LIKE '%git push%'`, which ignores the case of ASCII letters. -/
def likeGitPush (command : String) : Bool :=
  (command.toList.map Char.toLower).tails.any "git push".toList.isPrefixOf

/-- The events of the commit, else the pushes around the start of the run. -/
def shellRows (db : WorkflowDb) (run : WorkflowRun) (now : ℤ) : List ℕ :=
  let started := startedOr run now
  let exact := db.events.select fun _ e => e.gitCommit = some run.headSha ∧ e.probeTag = none
  let rows := if exact.isEmpty then
      db.events.select fun _ e =>
        started - correlationWindowMs ≤ e.timestamp ∧
          e.timestamp ≤ started + correlationWindowMs ∧
          likeGitPush e.command = true ∧ (e.gitRepo = none ∨ e.gitRepo = some run.repo) ∧
          e.probeTag = none
    else exact
  (rows.take 20).map Prod.fst

/-- The sessions that overlap the window around the start of the run. -/
def claudeRows (db : WorkflowDb) (run : WorkflowRun) (now : ℤ) : List ℕ :=
  let started := startedOr run now
  ((db.sessions.select fun _ s => s.startTime ≤ started + correlationWindowMs ∧
    started - correlationWindowMs ≤ s.endTime ∧ s.probeTag = none).take 10).map Prod.fst

/-- The run an annotation belongs to, through its job. -/
def annotationRun (db : WorkflowDb) (i : ℕ) : Option ℕ :=
  (db.annotations.get? i).bind fun a => db.jobs.get? a.jobId

/-- The failing annotations of a run, the first ten by id. -/
def annRows (db : WorkflowDb) (runId : ℕ) : List (ℕ × Annotation) :=
  (orderBy (fun e => (e.1 : ℤ)) (db.annotations.select fun _ a =>
    db.jobs.get? a.jobId = some runId ∧ a.level = "failure")).take 10

/-- The part of `enrich_one_async` before the model call; `none` when there is no such run. -/
def selectRun (db : WorkflowDb) (runId : ℕ) (now : ℤ) : Option Selected :=
  (db.runs.get? runId).map fun run =>
    { runId := runId
      repo := run.repo
      conclusion := run.conclusion
      now := now
      shell := db.shellRows run now
      claude := db.claudeRows run now
      anns := db.annRows runId }

end Correlation

section Write

/-- `find_identical_node` among the `change_outcome` nodes. -/
def findIdenticalNode (db : WorkflowDb) (content embedText : String) : Option ℕ :=
  ((orderBy (fun e => (e.1 : ℤ)) (db.store.nodes.select fun _ n =>
    n.nodeType = .changeOutcome ∧ n.content.content = content ∧
      n.content.embedText = embedText)).head?).map Prod.fst

/-- The links to what was found around a run, as far as they are not there. -/
def linkContext (st : KnowledgeStore ChangeOutcome) (node : ℕ) (h : node ∈ st.nodes.keys)
    (s : Selected) : KnowledgeStore ChangeOutcome :=
  (st.addMissing node h .events s.shell).addMissing node (KnowledgeStore.mem_keys_addMissing h)
    .agenticSessions s.claude

/-- The new node of a run. -/
def outcomeNode (s : Selected) (answer : Answer) : KnowledgeNode ChangeOutcome where
  nodeType := .changeOutcome
  content :=
    { content := answer.content
      embedText := answer.embedText
      outcome := s.conclusion
      tags := answer.tags }

/-- The nodes after the transaction. With an identical node at hand no new one is written; the
foreign key refuses a node that is not there. -/
def writeStore (st : KnowledgeStore ChangeOutcome) (s : Selected) (answer : Answer)
    (existing : Option ℕ) : Except PyError (KnowledgeStore ChangeOutcome) :=
  match existing with
  | some node =>
    if h : node ∈ st.nodes.keys then
      .ok (linkContext (st.addMissing node h .workflowRuns [s.runId]) node
        (KnowledgeStore.mem_keys_addMissing h) s)
    else .error .integrityError
  | none =>
    .ok (linkContext (st.insertLinked (outcomeNode s answer) .workflowRuns [s.runId])
      st.nodes.nextRowid (st.nextRowid_mem_insertLinked _ _ _) s)

/-- The transaction of `enrich_one_async`. -/
def writeOutcome (db : WorkflowDb) (s : Selected) (answer : Answer) (existing : Option ℕ) :
    Except PyError WorkflowDb := do
  let store ← writeStore db.store s answer existing
  return { db with
    store := store
    runs := db.runs.modify s.runId fun run => { run with enriched := true }
    queue := db.queue.modify s.runId (WorkflowQueueRow.set QueueRow.markDone) }

end Write

section Lessons

/-- `PurePosixPath(path).parts`. -/
def pathParts (path : String) : List String :=
  let slashes := (path.toList.takeWhile (· = '/')).length
  let root := if slashes = 2 then ["//"] else if 0 < slashes then ["/"] else []
  root ++ (MemoryLinks.pathParts path).map String.ofList

/-- `str(Path(*parts))`. -/
def joinParts : List String → String
  | [] => "."
  | root :: parts =>
    if root = "/" ∨ root = "//" then root ++ "/".intercalate parts
    else "/".intercalate (root :: parts)

/-- `_path_prefix`. -/
def pathPrefix (path : Option String) (segments : ℕ) : String :=
  match path with
  | none => ""
  | some path =>
    if path.isEmpty then ""
    else
      let parts := pathParts path
      if segments ≤ parts.length then joinParts (parts.take segments) ++ "/" else path

/-- The cluster of an annotation. -/
def clusterKey (repo : String) (segments : ℕ) (a : Annotation) : ClusterKey where
  repo := repo
  tool := a.tool.getD ""
  ruleId := a.ruleId.getD ""
  pathPrefix := pathPrefix a.path segments

/-- The `summary_fn` of the workflow clusters. -/
def clusterSummary (k : ClusterKey) : String := k.tool ++ ":" ++ k.ruleId ++ " in " ++ k.pathPrefix

end Lessons

section Laws

variable {db db' : WorkflowDb} {s : Selected} {answer : Answer} {existing : Option ℕ}

theorem mem_claimCandidates {staleLockMs : ℤ} {limit : Option ℕ} {i : ℕ}
    (h : i ∈ db.claimCandidates staleLockMs limit) :
    ∃ q, db.queue.get? i = some q ∧ q.toQueueRow.Claimable staleLockMs := by
  obtain ⟨⟨j, q⟩, hq, rfl⟩ := List.mem_map.mp h
  have hrow := mem_of_mem_limitTo hq
  rw [mem_orderBy, mem_orderBy, Table.mem_select] at hrow
  exact ⟨q, hrow⟩

theorem linkedTo_linkContext {st : KnowledgeStore ChangeOutcome} {node : ℕ}
    {h : node ∈ st.nodes.keys} {r n : ℕ} :
    (linkContext st node h s).LinkedTo .workflowRuns .changeOutcome r n ↔
      st.LinkedTo .workflowRuns .changeOutcome r n := by
  rw [linkContext, KnowledgeStore.linkedTo_addMissing, KnowledgeStore.linkedTo_addMissing]
  simp

@[simp] theorem linkContext_nodes {st : KnowledgeStore ChangeOutcome} {node : ℕ}
    {h : node ∈ st.nodes.keys} : (linkContext st node h s).nodes = st.nodes := rfl

/-- A write links its run to the identical node, or else to a new one, and to no other. -/
theorem linkedTo_writeStore {st st' : KnowledgeStore ChangeOutcome}
    (h : writeStore st s answer existing = .ok st')
    (hfound : ∀ n ∈ existing, (st.nodes.get? n).map KnowledgeNode.nodeType = some .changeOutcome)
    {r n : ℕ} :
    st'.LinkedTo .workflowRuns .changeOutcome r n ↔
      st.LinkedTo .workflowRuns .changeOutcome r n ∨
        (r = s.runId ∧ n = existing.getD st.nodes.nextRowid) := by
  cases existing with
  | some node =>
    simp only [writeStore] at h
    split at h
    · cases h
      rw [linkedTo_linkContext, KnowledgeStore.linkedTo_addMissing, hfound node rfl]
      simp [and_comm]
    · cases h
  | none =>
    simp only [writeStore] at h
    cases h
    rw [linkedTo_linkContext, KnowledgeStore.linkedTo_insertLinked]
    simp [outcomeNode, and_comm]

/-- A write keeps every node. -/
theorem writeStore_keeps {st st' : KnowledgeStore ChangeOutcome}
    (h : writeStore st s answer existing = .ok st') {n : ℕ} {node : KnowledgeNode ChangeOutcome}
    (hn : st.nodes.get? n = some node) : st'.nodes.get? n = some node := by
  cases existing with
  | some k =>
    simp only [writeStore] at h
    split at h
    · cases h
      exact hn
    · cases h
  | none =>
    simp only [writeStore] at h
    cases h
    rw [linkContext_nodes, KnowledgeStore.insertLinked_nodes, Table.get?_insert_nextRowid, if_neg]
    · exact hn
    · rintro rfl
      rw [Table.get?_nextRowid] at hn
      cases hn

/-- What a committed write has done to the tables. -/
theorem writeOutcome_eq_ok (h : db.writeOutcome s answer existing = .ok db') :
    ∃ store, writeStore db.store s answer existing = .ok store ∧ db' = { db with
      store := store
      runs := db.runs.modify s.runId fun run => { run with enriched := true }
      queue := db.queue.modify s.runId (WorkflowQueueRow.set QueueRow.markDone) } := by
  obtain ⟨store, hstore, hret⟩ := bind_eq_ok.mp h
  cases hret
  exact ⟨store, hstore, rfl⟩

theorem findIdenticalNode_type {content embedText : String} {n : ℕ}
    (h : db.findIdenticalNode content embedText = some n) :
    (db.store.nodes.get? n).map KnowledgeNode.nodeType = some .changeOutcome := by
  obtain ⟨⟨k, node⟩, hhead, rfl⟩ := Option.map_eq_some_iff.mp h
  have hrow := List.mem_of_mem_head? hhead
  rw [mem_orderBy, Table.mem_select] at hrow
  rw [hrow.1, Option.map_some, hrow.2.1]

theorem mem_annRows {runId : ℕ} {e : ℕ × Annotation} (h : e ∈ db.annRows runId) :
    db.annotations.get? e.1 = some e.2 ∧ db.annotationRun e.1 = some runId := by
  have hrow := List.mem_of_mem_take h
  rw [mem_orderBy, Table.mem_select] at hrow
  refine ⟨hrow.1, ?_⟩
  rw [annotationRun, hrow.1, Option.bind_some]
  exact hrow.2.1

theorem annRows_length (runId : ℕ) : (db.annRows runId).length ≤ 10 := List.length_take_le _ _

theorem annRows_nodup (runId : ℕ) : ((db.annRows runId).map Prod.fst).Nodup := by
  unfold annRows
  refine ((List.take_sublist _ _).map Prod.fst).nodup ?_
  refine nodup_map_orderBy ?_
  exact db.annotations.nodup.sublist (List.filter_sublist.map Prod.fst)

theorem annotationRun_upsertJob {i r job runId : ℕ} (h : db.annotationRun i = some r) :
    (db.upsertJob job runId).annotationRun i = some r := by
  obtain ⟨a, ha, hjob⟩ := Option.bind_eq_some_iff.mp h
  refine Option.bind_eq_some_iff.mpr ⟨a, ha, ?_⟩
  rw [upsertJob, Table.get?_upsert]
  split
  · rename_i hsame
    rw [hsame] at hjob
    simp [hjob]
  · exact hjob

theorem annotationRun_annotate {i r : ℕ} {a : Annotation}
    (h : db.annotationRun i = some r) : (db.annotate a).annotationRun i = some r := by
  obtain ⟨a', ha', hjob⟩ := Option.bind_eq_some_iff.mp h
  refine Option.bind_eq_some_iff.mpr ⟨a', ?_, hjob⟩
  rw [annotate, Table.get?_insert_nextRowid, if_neg]
  · exact ha'
  · rintro rfl
    rw [Table.get?_nextRowid] at ha'
    cases ha'

end Laws

end WorkflowDb

end Hippo.Workflow
