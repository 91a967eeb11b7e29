import Hippo.Transition
import Hippo.WorkflowEnrichment
import Mathlib.Data.List.Perm.Basic

/-!
# Workers over the workflow queue

Several workers claim runs, wait for the model and write, while the reaper and other workers take
over stale locks. A write or a failure report that comes after its run is done links the run to a
second node or reopens it. After its commit a worker counts the failing annotations it has
selected, one transaction each; a run that is linked to an identical node gets none of them
counted.
-/
namespace Hippo.Workflow

open AlarmLessons (ClusterKey Lessons)
open LessonClusters Transition

/-- The parameters of `enrich_one_async`. -/
structure Settings where
  pathPrefixSegments : ℕ := 2
  minOccurrences : ℕ := 2

/-- A worker between two of its commits. `rest` are the runs it has claimed and not begun. -/
inductive Op where
  | ready (rest : List ℕ)
  /-- The model is asked. -/
  | asking (s : Selected) (rest : List ℕ)
  /-- The reply is parsed and the identical node looked up. -/
  | writing (s : Selected) (answer : Answer) (existing : Option ℕ) (rest : List ℕ)
  /-- The node is committed, the annotations are still to be counted. -/
  | clustering (s : Selected) (anns : List (ℕ × Annotation)) (rest : List ℕ)
  /-- The lesson of the first annotation is looked up. -/
  | registering (s : Selected) (found : Bool) (ann : ℕ × Annotation)
      (anns : List (ℕ × Annotation)) (rest : List ℕ)

namespace Op

/-- The runs the worker has claimed and not reported. -/
def runIds : Op → List ℕ
  | ready rest => rest
  | asking s rest | writing s _ _ rest => s.runId :: rest
  | clustering _ _ rest | registering _ _ _ _ rest => rest

/-- What the worker has read for a run it has not reported. -/
def selected? : Op → Option Selected
  | asking s _ | writing s _ _ _ => some s
  | _ => none

/-- The annotations a worker has still to count. -/
def pending : Op → List (Selected × ℕ)
  | clustering s anns _ => anns.map fun a => (s, a.1)
  | registering s _ ann anns _ => (s, ann.1) :: anns.map fun a => (s, a.1)
  | _ => []

/-- The run a failure report is about, and the worker after it. The exceptions of the counting
are caught before. -/
def failing : Op → Option (ℕ × Op)
  | ready (r :: rest) => some (r, ready rest)
  | asking s rest | writing s _ _ rest => some (s.runId, ready rest)
  | _ => none

end Op

/-- A call of `upsert_cluster` that has committed. -/
structure Counted where
  runId : ℕ
  ann : ℕ
  key : ClusterKey

/-- `completed` and `counted` are history: what the commit that completed a run had selected, and
the committed calls of `upsert_cluster`. No step reads them. -/
structure World where
  db : WorkflowDb
  ops : List Op := []
  completed : List Selected := []
  counted : List Counted := []

inductive Action where
  | poll (id : ℕ) (run : WorkflowRun)
  | pollJob (job runId : ℕ)
  | annotate (a : Annotation)
  | enqueue (runId : ℕ) (now : ℤ)
  | capture (e : Command)
  | segment (s : Session)
  | claim (worker : String) (now staleLockTimeoutMs : ℤ) (maxClaimBatch : Option ℕ)
  | read (k : ℕ) (now : ℤ)
  | reply (k : ℕ) (answer : Answer)
  | write (k : ℕ)
  | lookup (k : ℕ)
  | register (k : ℕ)
  /-- `upsert_cluster` raises for a reason of its own: a full disk, a locked database. -/
  | reject (k : ℕ)
  | fail (k : ℕ) (error : String)
  | crash (k : ℕ)
  | reap (lockTimeoutMs now : ℤ)

namespace World

def init (lessons : Lessons) : World := { db := WorkflowDb.empty lessons }

def Linked (w : World) (r n : ℕ) : Prop := w.db.store.LinkedTo .workflowRuns .changeOutcome r n

instance (w : World) (r n : ℕ) : Decidable (w.Linked r n) := by
  unfold Linked
  infer_instance

def Done (w : World) (r : ℕ) : Prop := w.db.status? r = some .done

instance (w : World) (r : ℕ) : Decidable (w.Done r) := by
  unfold Done
  infer_instance

/-- How often the annotation is counted. -/
def counts (w : World) (i : ℕ) : ℕ := w.counted.countP fun c => c.ann = i

/-- How often the annotation is still to be counted. -/
def awaits (w : World) (i : ℕ) : ℕ := (w.ops.flatMap Op.pending).countP fun p => p.2 = i

end World

section Step

variable (cfg : Settings)

/-- The worker after its write. Only a new node is followed by the counting. -/
def afterWrite (s : Selected) (existing : Option ℕ) (rest : List ℕ) : Op :=
  match existing with
  | some _ => .ready rest
  | none => .clustering s s.anns rest

/-- A committed write. The run counts as completed by the first of its writes. -/
def World.commit (w : World) (k : ℕ) (s : Selected) (existing : Option ℕ) (rest : List ℕ)
    (db : WorkflowDb) : World :=
  { w with
    db := db
    ops := replaceAt w.ops k [afterWrite s existing rest]
    completed := if w.Done s.runId then w.completed else w.completed ++ [s] }

/-- One commit of the daemon, a worker or the reaper, or one step that commits nothing; `none`
when it is not enabled. -/
def step (w : World) : Action → Option World
  | .poll id run => some { w with db := w.db.upsertRun id run }
  | .pollJob job runId => some { w with db := w.db.upsertJob job runId }
  | .annotate a => some { w with db := w.db.annotate a }
  | .enqueue runId now => some { w with db := w.db.enqueueEnrichment runId now }
  | .capture e => some { w with
      db := { w.db with events := w.db.events.insert w.db.events.nextRowid e } }
  | .segment s => some { w with
      db := { w.db with sessions := w.db.sessions.insert w.db.sessions.nextRowid s } }
  | .claim worker now staleLockTimeoutMs maxClaimBatch =>
    let (db, runIds) := w.db.claimPendingWorkflowRuns worker now staleLockTimeoutMs maxClaimBatch
    some { w with db := db, ops := w.ops ++ [.ready runIds] }
  | .read k now =>
    match w.ops[k]? with
    | some (.ready (r :: rest)) =>
      let next := match w.db.selectRun r now with
        | some s => .asking s rest
        | none => .ready rest
      some { w with ops := replaceAt w.ops k [next] }
    | _ => none
  | .reply k answer =>
    match w.ops[k]? with
    | some (.asking s rest) =>
      let existing := w.db.findIdenticalNode answer.content answer.embedText
      some { w with ops := replaceAt w.ops k [.writing s answer existing rest] }
    | _ => none
  | .write k =>
    match w.ops[k]? with
    | some (.writing s answer existing rest) =>
      match w.db.writeOutcome s answer existing with
      | .ok db => some (w.commit k s existing rest db)
      | .error _ => none
    | _ => none
  | .lookup k =>
    match w.ops[k]? with
    | some (.clustering _ [] rest) => some { w with ops := replaceAt w.ops k [.ready rest] }
    | some (.clustering s (a :: anns) rest) =>
      let found := hasLesson w.db.lessons
        (WorkflowDb.clusterKey s.repo cfg.pathPrefixSegments a.2)
      some { w with ops := replaceAt w.ops k [.registering s found a anns rest] }
    | _ => none
  | .register k =>
    match w.ops[k]? with
    | some (.registering s found a anns rest) =>
      let key := WorkflowDb.clusterKey s.repo cfg.pathPrefixSegments a.2
      match registerOccurrence w.db.lessons found key cfg.minOccurrences
          WorkflowDb.clusterSummary (fun _ => none) s.now with
      | .ok (lessons, _) => some { w with
          db := { w.db with lessons := lessons }
          ops := replaceAt w.ops k [.clustering s anns rest]
          counted := w.counted ++ [⟨s.runId, a.1, key⟩] }
      -- the loop over the annotations ends with the exception
      | .error _ => some { w with ops := replaceAt w.ops k [.ready rest] }
    | _ => none
  | .reject k =>
    match w.ops[k]? with
    | some (.clustering _ (_ :: _) rest) | some (.registering _ _ _ _ rest) =>
      some { w with ops := replaceAt w.ops k [.ready rest] }
    | _ => none
  | .fail k error =>
    match w.ops[k]?.bind Op.failing with
    | some (r, next) => some { w with
        db := w.db.markWorkflowQueueFailed r error
        ops := replaceAt w.ops k [next] }
    | none => none
  | .crash k => some { w with ops := replaceAt w.ops k [] }
  | .reap lockTimeoutMs now => some { w with db := w.db.reapStaleLocks lockTimeoutMs now }

end Step

section Conditions

variable (cfg : Settings)

/-- No run is linked to two nodes. -/
def OneNode (w : World) : Prop := ∀ r n n', w.Linked r n → w.Linked r n' → n = n'

/-- Nothing done in `w` is reopened in `w'`. -/
def StaysDone (w w' : World) : Prop := ∀ r, w.Done r → w'.Done r

/-- The counts of the clusters are the committed calls, no two of them for one annotation. -/
def AddsAtMostOne (lessons : Lessons) (w : World) : Prop :=
  (∀ i, w.counts i ≤ 1) ∧
    ∀ key, occurrences w.db.lessons key =
      occurrences lessons key + w.counted.countP fun c => c.key = key

/-- Every done run has been completed with at most ten annotations of its own, and each of them is
counted once, or a worker is about to. -/
def AddsExactlyOne (w : World) : Prop :=
  (∀ r, w.Done r → ∃ s ∈ w.completed, s.runId = r) ∧
    ∀ s ∈ w.completed, s.anns.length ≤ 10 ∧ ∀ a ∈ s.anns,
      w.db.annotationRun a.1 = some s.runId ∧ (w.awaits a.1 = 0 → w.counts a.1 = 1)

/-- The step is no report of a run that is done, unless it is a write onto the run's own node. -/
def Timely (w : World) : Action → Prop
  | .write k => match w.ops[k]? with
    | some (.writing s _ existing _) => w.Done s.runId → ∃ n ∈ existing, w.Linked s.runId n
    | _ => True
  | .fail k _ => ∀ f ∈ w.ops[k]?.bind Op.failing, ¬ w.Done f.1
  | _ => True

/-- The step completes no run with failing annotations on an identical node, and its promotion of a
cluster does not meet a lesson that its lookup has missed. -/
def Counting (w : World) : Action → Prop
  | .write k => match w.ops[k]? with
    | some (.writing s _ (some _) _) => w.Done s.runId ∨ s.anns = []
    | _ => True
  | .register k => match w.ops[k]? with
    | some (.registering s found a _ _) =>
      ¬ Stale w.db.lessons found (WorkflowDb.clusterKey s.repo cfg.pathPrefixSegments a.2)
        cfg.minOccurrences
    | _ => True
  | _ => True

/-- A crash, or an error of the database while annotations are counted. -/
def Action.Faulty : Action → Prop
  | .reject _ | .crash _ => True
  | _ => False

/-- The conditions together, in a run without faults. -/
def FaultFree (cfg : Settings) (w : World) (a : Action) : Prop :=
  Timely w a ∧ Counting cfg w a ∧ ¬ a.Faulty

instance (w : World) (a : Action) : Decidable (Timely w a) := by
  cases a <;> unfold Timely <;> dsimp only <;> (try split) <;> infer_instance

instance (w : World) (a : Action) : Decidable (Counting cfg w a) := by
  cases a <;> unfold Counting <;> dsimp only <;> (try split) <;> infer_instance

instance (a : Action) : Decidable a.Faulty := by
  cases a <;> unfold Action.Faulty <;> dsimp only <;> infer_instance

instance (w : World) (a : Action) : Decidable (FaultFree cfg w a) := by
  unfold FaultFree
  infer_instance

end Conditions

section Effects

variable {cfg : Settings} {w w' : World} {a : Action}

/-- Ten annotations of the run at most. -/
structure Drawn (db : WorkflowDb) (s : Selected) : Prop where
  few : s.anns.length ≤ 10
  nodup : (s.anns.map Prod.fst).Nodup
  own : ∀ a ∈ s.anns, db.annotationRun a.1 = some s.runId

/-- A step that neither writes a node nor counts. -/
structure Quiet (w w' : World) : Prop where
  store : w'.db.store = w.db.store
  lessons : w'.db.lessons = w.db.lessons
  rows : ∀ r, (w.db.queue.get? r).isSome → (w'.db.queue.get? r).isSome
  done : ∀ r, w'.Done r ↔ w.Done r
  annotations : ∀ i r, w.db.annotationRun i = some r → w'.db.annotationRun i = some r
  completed : w'.completed = w.completed
  counted : w'.counted = w.counted

/-- What a step can do. -/
inductive Effect (cfg : Settings) (w : World) : Action → World → Prop
  | quiet {a : Action} {w' : World} (h : Quiet w w')
      (hpending : (w'.ops.flatMap Op.pending).Perm (w.ops.flatMap Op.pending))
      (htimely : Timely w a) (hcounting : Counting cfg w a) : Effect cfg w a w'
  | fault {a : Action} {w' : World} (h : Quiet w w')
      (hpending : (w'.ops.flatMap Op.pending).Subperm (w.ops.flatMap Op.pending))
      (htimely : Timely w a) (ha : a.Faulty) : Effect cfg w a w'
  | stale {k s found ann anns rest} (hop : w.ops[k]? = some (.registering s found ann anns rest))
      (hstale : Stale w.db.lessons found
        (WorkflowDb.clusterKey s.repo cfg.pathPrefixSegments ann.2) cfg.minOccurrences) :
      Effect cfg w (.register k) { w with ops := replaceAt w.ops k [.ready rest] }
  | write {k s answer existing rest db}
      (hop : w.ops[k]? = some (.writing s answer existing rest))
      (hdb : w.db.writeOutcome s answer existing = .ok db) :
      Effect cfg w (.write k) (w.commit k s existing rest db)
  | register {k s found ann anns rest lessons b}
      (hop : w.ops[k]? = some (.registering s found ann anns rest))
      (hlessons : registerOccurrence w.db.lessons found
        (WorkflowDb.clusterKey s.repo cfg.pathPrefixSegments ann.2) cfg.minOccurrences
        WorkflowDb.clusterSummary (fun _ => none) s.now = .ok (lessons, b)) :
      Effect cfg w (.register k) { w with
        db := { w.db with lessons := lessons }
        ops := replaceAt w.ops k [.clustering s anns rest]
        counted := w.counted ++
          [⟨s.runId, ann.1, WorkflowDb.clusterKey s.repo cfg.pathPrefixSegments ann.2⟩] }
  | fail {k r next error} (hop : w.ops[k]?.bind Op.failing = some (r, next)) :
      Effect cfg w (.fail k error) { w with
        db := w.db.markWorkflowQueueFailed r error
        ops := replaceAt w.ops k [next] }

/-- What the other workers have still to count, and what this one has, is what there is. -/
theorem pending_replaceAt {ops : List Op} {k : ℕ} {op : Op} (hop : ops[k]? = some op)
    (new : List Op) :
    ((replaceAt ops k new).flatMap Op.pending ++ op.pending).Perm
      (ops.flatMap Op.pending ++ new.flatMap Op.pending) := by
  obtain ⟨hk, rfl⟩ := List.getElem?_eq_some_iff.mp hop
  have hops : (ops[k].pending ++ (ops.eraseIdx k).flatMap Op.pending).Perm
      (ops.flatMap Op.pending) :=
    (List.getElem_cons_eraseIdx_perm hk).flatMap_right Op.pending
  rw [replaceAt, List.flatMap_append]
  refine List.perm_append_comm.trans ?_
  rw [← List.append_assoc]
  exact hops.append_right _

theorem countP_replaceAt {ops : List Op} {k : ℕ} {op : Op} (hop : ops[k]? = some op)
    (new : List Op) (p : Selected × ℕ → Bool) :
    ((replaceAt ops k new).flatMap Op.pending).countP p + op.pending.countP p =
      (ops.flatMap Op.pending).countP p + (new.flatMap Op.pending).countP p := by
  have hperm := (pending_replaceAt hop new).countP_eq p
  rwa [List.countP_append, List.countP_append] at hperm

theorem awaits_of_perm (h : (w'.ops.flatMap Op.pending).Perm (w.ops.flatMap Op.pending)) (i : ℕ) :
    w'.awaits i = w.awaits i := h.countP_eq _

theorem awaits_of_subperm (h : (w'.ops.flatMap Op.pending).Subperm (w.ops.flatMap Op.pending))
    (i : ℕ) : w'.awaits i ≤ w.awaits i := h.countP_le _

/-- An `UPDATE` of rows that are not done, to rows that are not done. -/
theorem done_update {db : WorkflowDb} {p : ℕ → WorkflowQueueRow → Prop}
    [∀ i q, Decidable (p i q)] {f : QueueRow → QueueRow}
    (hp : ∀ i q, db.queue.get? i = some q → p i q →
      q.status ≠ .done ∧ (f q.toQueueRow).status ≠ .done) (r : ℕ) :
    WorkflowDb.status? { db with queue := db.queue.update p (WorkflowQueueRow.set f) } r =
        some .done ↔ db.status? r = some .done := by
  simp only [WorkflowDb.status?, Table.get?_update]
  cases hq : db.queue.get? r with
  | none => simp
  | some q =>
    simp only [Option.map_some, Option.some.injEq]
    by_cases hpq : p r q
    · obtain ⟨hold, hnew⟩ := hp r q hq hpq
      simp only [hpq, if_true, WorkflowQueueRow.set_toQueueRow, hold, hnew]
    · simp only [hpq, if_false]

theorem charged_not_done (q : QueueRow) (error : String) :
    (q.chargeRetry error).status ≠ .done := by
  rw [QueueRow.chargeRetry_status]
  split
  · simp
  · simp

theorem done_markFailed {db : WorkflowDb} {r : ℕ} (error : String)
    (hr : db.status? r ≠ some .done) (i : ℕ) :
    (db.markWorkflowQueueFailed r error).status? i = some .done ↔ db.status? i = some .done := by
  refine done_update (fun j q hq hj => ⟨fun hst => hr ?_, charged_not_done _ _⟩) i
  rw [WorkflowDb.status?, ← hj, hq, Option.map_some, hst]

theorem done_reap {db : WorkflowDb} (lockTimeoutMs now : ℤ) (i : ℕ) :
    (db.reapStaleLocks lockTimeoutMs now).status? i = some .done ↔ db.status? i = some .done := by
  refine done_update (fun j q hq hj => ⟨?_, charged_not_done _ _⟩) i
  rw [hj.1]
  simp

theorem done_claim {db : WorkflowDb} (worker : String) (now timeout : ℤ) (batch : Option ℕ)
    (i : ℕ) :
    (db.claimPendingWorkflowRuns worker now timeout batch).1.status? i = some .done ↔
      db.status? i = some .done := by
  refine done_update (fun j q hq hj => ⟨?_, by simp⟩) i
  obtain ⟨q', hq', hclaim⟩ := WorkflowDb.mem_claimCandidates hj
  rw [hq, Option.some.injEq] at hq'
  subst hq'
  rcases hclaim with hst | ⟨hst, -⟩
  · rw [hst]
    simp
  · rw [hst]
    simp

theorem done_enqueue {db : WorkflowDb} (runId : ℕ) (now : ℤ) (i : ℕ) :
    (db.enqueueEnrichment runId now).status? i = some .done ↔ db.status? i = some .done := by
  simp only [WorkflowDb.status?, WorkflowDb.enqueueEnrichment, Table.get?_upsert]
  split
  · rename_i hi
    subst hi
    cases db.queue.get? i with
    | none => simp
    | some q => simp
  · rfl

theorem queued_update {queue : Table ℕ WorkflowQueueRow} {p : ℕ → WorkflowQueueRow → Prop}
    [∀ i q, Decidable (p i q)] {f : WorkflowQueueRow → WorkflowQueueRow} {r : ℕ}
    (h : (queue.get? r).isSome) : ((queue.update p f).get? r).isSome := by
  rwa [Table.get?_update_isSome]

theorem queued_enqueue {db : WorkflowDb} {runId : ℕ} {now : ℤ} {r : ℕ}
    (h : (db.queue.get? r).isSome) : ((db.enqueueEnrichment runId now).queue.get? r).isSome := by
  rw [WorkflowDb.enqueueEnrichment, Table.get?_upsert]
  split
  · rfl
  · exact h

/-- Where the worker's list of pending counts stays as it is. -/
theorem Effect.pass {k : ℕ} {op new : Op} (hop : w.ops[k]? = some op)
    (hpending : new.pending = op.pending) (htimely : Timely w a) (hcounting : Counting cfg w a) :
    Effect cfg w a { w with ops := replaceAt w.ops k [new] } := by
  refine .quiet ⟨rfl, rfl, fun _ => id, fun _ => Iff.rfl, fun _ _ => id, rfl, rfl⟩ ?_ htimely
    hcounting
  have hperm := pending_replaceAt hop [new]
  rw [List.flatMap_singleton, hpending] at hperm
  exact (List.perm_append_right_iff _).mp hperm

/-- Where the worker gives its pending counts up. -/
theorem pending_drop {k : ℕ} {op : Op} {new : List Op} (hop : w.ops[k]? = some op)
    (hnew : new.flatMap Op.pending = []) :
    ((replaceAt w.ops k new).flatMap Op.pending).Subperm (w.ops.flatMap Op.pending) := by
  have hperm := pending_replaceAt hop new
  rw [hnew, List.append_nil] at hperm
  exact (List.sublist_append_left _ _).subperm.trans hperm.subperm

theorem Effect.drop {k : ℕ} {op : Op} {new : List Op} (hop : w.ops[k]? = some op)
    (hnew : new.flatMap Op.pending = []) (htimely : Timely w a) (ha : a.Faulty) :
    Effect cfg w a { w with ops := replaceAt w.ops k new } :=
  .fault ⟨rfl, rfl, fun _ => id, fun _ => Iff.rfl, fun _ _ => id, rfl, rfl⟩ (pending_drop hop hnew)
    htimely ha

theorem step_effect (h : step cfg w a = some w') : Effect cfg w a w' := by
  cases a with
  | poll run row | capture e | segment s =>
    cases h
    exact .quiet ⟨rfl, rfl, fun _ => id, fun _ => Iff.rfl, fun _ _ => id, rfl, rfl⟩ .rfl trivial
      trivial
  | pollJob job runId =>
    cases h
    exact .quiet ⟨rfl, rfl, fun _ => id, fun _ => Iff.rfl,
      fun _ _ => WorkflowDb.annotationRun_upsertJob, rfl, rfl⟩ .rfl trivial trivial
  | annotate a =>
    cases h
    exact .quiet ⟨rfl, rfl, fun _ => id, fun _ => Iff.rfl,
      fun _ _ => WorkflowDb.annotationRun_annotate, rfl, rfl⟩ .rfl trivial trivial
  | enqueue runId now =>
    cases h
    exact .quiet ⟨rfl, rfl, fun _ => queued_enqueue, done_enqueue runId now, fun _ _ => id, rfl,
      rfl⟩ .rfl trivial trivial
  | claim worker now timeout batch =>
    cases h
    refine .quiet ⟨rfl, rfl, fun _ => queued_update, done_claim worker now timeout batch,
      fun _ _ => id, rfl, rfl⟩ ?_ trivial trivial
    simp [Op.pending]
  | read k now =>
    simp only [step] at h
    split at h
    · rename_i r rest hop
      cases h
      refine .pass hop ?_ trivial trivial
      split
      · rfl
      · rfl
    · cases h
  | reply k answer =>
    simp only [step] at h
    split at h
    · rename_i s rest hop
      cases h
      exact .pass hop rfl trivial trivial
    · cases h
  | write k =>
    simp only [step] at h
    split at h
    · rename_i s answer existing rest hop
      split at h
      · rename_i db hdb
        cases h
        exact .write hop hdb
      · cases h
    · cases h
  | lookup k =>
    simp only [step] at h
    split at h
    · rename_i s rest hop
      cases h
      exact .pass hop rfl trivial trivial
    · rename_i s ann anns rest hop
      cases h
      exact .pass hop rfl trivial trivial
    · cases h
  | register k =>
    simp only [step] at h
    split at h
    · rename_i s found ann anns rest hop
      split at h
      · rename_i lessons b hlessons
        cases h
        exact .register hop hlessons
      · rename_i e herror
        cases h
        refine .stale hop ?_
        by_contra hfresh
        obtain ⟨r, hr⟩ := registerOccurrence_isOk_iff.mpr hfresh
        rw [hr] at herror
        cases herror
    · cases h
  | reject k =>
    simp only [step] at h
    split at h
    · rename_i hop
      cases h
      exact .drop hop rfl trivial trivial
    · rename_i hop
      cases h
      exact .drop hop rfl trivial trivial
    · cases h
  | fail k error =>
    simp only [step] at h
    split at h
    · rename_i r next hop
      cases h
      exact .fail hop
    · cases h
  | crash k =>
    cases h
    cases hop : w.ops[k]? with
    | some op => exact .drop hop rfl trivial trivial
    | none =>
      have hsame : replaceAt w.ops k [] = w.ops := by
        rw [replaceAt, List.append_nil,
          List.eraseIdx_of_length_le (List.getElem?_eq_none_iff.mp hop)]
      rw [hsame]
      exact .fault ⟨rfl, rfl, fun _ => id, fun _ => Iff.rfl, fun _ _ => id, rfl, rfl⟩ (.refl _)
        trivial trivial
  | reap timeout now =>
    cases h
    exact .quiet ⟨rfl, rfl, fun _ => queued_update, done_reap timeout now, fun _ _ => id, rfl, rfl⟩
      .rfl trivial trivial

end Effects

section Hands

variable {cfg : Settings} {w w' : World} {a : Action}

/-- The node with this rowid, of type `change_outcome`. -/
def IsOutcome (db : WorkflowDb) (n : ℕ) : Prop :=
  (db.store.nodes.get? n).map KnowledgeNode.nodeType = some .changeOutcome

/-- What a worker has in hand fits the tables. -/
structure Fits (cfg : Settings) (db : WorkflowDb) (op : Op) : Prop where
  queued : ∀ r ∈ op.runIds, (db.queue.get? r).isSome
  drawn : ∀ s ∈ op.selected?, Drawn db s
  identical : ∀ s answer n rest, op = .writing s answer (some n) rest → IsOutcome db n
  lesson : ∀ s ann anns rest, op = .registering s true ann anns rest →
    hasLesson db.lessons (WorkflowDb.clusterKey s.repo cfg.pathPrefixSegments ann.2) = true

/-- Rows that other rows and workers rely on stay. -/
structure Grows (db db' : WorkflowDb) : Prop where
  rows : ∀ r, (db.queue.get? r).isSome → (db'.queue.get? r).isSome
  nodes : ∀ n, IsOutcome db n → IsOutcome db' n
  annotations : ∀ i r, db.annotationRun i = some r → db'.annotationRun i = some r
  lessons : ∀ key, hasLesson db.lessons key = true → hasLesson db'.lessons key = true

theorem Drawn.mono {db db' : WorkflowDb} {s : Selected} (h : Drawn db s)
    (hann : ∀ i r, db.annotationRun i = some r → db'.annotationRun i = some r) : Drawn db' s :=
  ⟨h.few, h.nodup, fun a ha => hann _ _ (h.own a ha)⟩

theorem Fits.mono {db db' : WorkflowDb} {op : Op} (h : Fits cfg db op) (hdb : Grows db db') :
    Fits cfg db' op where
  queued := fun r hr => hdb.rows r (h.queued r hr)
  drawn := fun s hs => (h.drawn s hs).mono hdb.annotations
  identical := fun s answer n rest hop => hdb.nodes n (h.identical s answer n rest hop)
  lesson := fun s ann anns rest hop => hdb.lessons _ (h.lesson s ann anns rest hop)

theorem fits_ready {db : WorkflowDb} {rest : List ℕ}
    (h : ∀ r ∈ rest, (db.queue.get? r).isSome) : Fits cfg db (.ready rest) where
  queued := h
  drawn := by
    intro s hs
    cases hs
  identical := by
    intro s answer n rest' hop
    cases hop
  lesson := by
    intro s ann anns rest' hop
    cases hop

theorem fits_clustering {db : WorkflowDb} {s : Selected} {anns : List (ℕ × Annotation)}
    {rest : List ℕ} (h : ∀ r ∈ rest, (db.queue.get? r).isSome) :
    Fits cfg db (.clustering s anns rest) where
  queued := h
  drawn := by
    intro s hs
    cases hs
  identical := by
    intro s answer n rest' hop
    cases hop
  lesson := by
    intro s ann anns rest' hop
    cases hop

theorem failing_rest {op next : Op} {r : ℕ} (h : op.failing = some (r, next)) :
    r ∈ op.runIds ∧ op.pending = [] ∧
      ∃ rest, next = .ready rest ∧ ∀ i ∈ rest, i ∈ op.runIds := by
  cases op with
  | ready rest =>
    cases rest with
    | nil => cases h
    | cons i rest =>
      cases h
      exact ⟨List.mem_cons_self, rfl, rest, rfl, fun j hj => List.mem_cons_of_mem _ hj⟩
  | asking s rest | writing s answer existing rest =>
    cases h
    exact ⟨List.mem_cons_self, rfl, rest, rfl, fun j hj => List.mem_cons_of_mem _ hj⟩
  | clustering s anns rest | registering s found ann anns rest => cases h

theorem drawn_selectRun {db : WorkflowDb} {r : ℕ} {now : ℤ} {s : Selected}
    (h : db.selectRun r now = some s) : s.runId = r ∧ Drawn db s := by
  obtain ⟨run, -, rfl⟩ := Option.map_eq_some_iff.mp h
  exact ⟨rfl, WorkflowDb.annRows_length r, WorkflowDb.annRows_nodup r,
    fun a ha => (WorkflowDb.mem_annRows ha).2⟩

theorem grows_of_step (h : step cfg w a = some w') : Grows w.db w'.db := by
  have same : ∀ {db : WorkflowDb}, (∀ r, (w.db.queue.get? r).isSome → (db.queue.get? r).isSome) →
      db.store = w.db.store → (∀ i r, w.db.annotationRun i = some r → db.annotationRun i = some r) →
      db.lessons = w.db.lessons → Grows w.db db := by
    intro db hrows hstore hann hlessons
    refine ⟨hrows, fun n hn => ?_, hann, fun key hkey => ?_⟩
    · rwa [IsOutcome, hstore]
    · rwa [hlessons]
  cases step_effect h with
  | quiet hq => exact same hq.rows hq.store hq.annotations hq.lessons
  | fault hq => exact same hq.rows hq.store hq.annotations hq.lessons
  | stale hop hstale => exact same (fun _ => id) rfl (fun _ _ => id) rfl
  | write hop hdb =>
    obtain ⟨store, hstore, rfl⟩ := WorkflowDb.writeOutcome_eq_ok hdb
    refine ⟨fun _ => queued_update, fun n hn => ?_, fun _ _ => id, fun _ => id⟩
    obtain ⟨node, hnode, hty⟩ := Option.map_eq_some_iff.mp hn
    rw [IsOutcome, World.commit, WorkflowDb.writeStore_keeps hstore hnode, Option.map_some, hty]
  | register hop hlessons =>
    exact ⟨fun _ => id, fun _ => id, fun _ _ => id, fun _ => registerOccurrence_keeps hlessons⟩
  | fail hop => exact same (fun _ => queued_update) rfl (fun _ _ => id) rfl

/-- The operations a step leaves are those it found, or they fit the tables it leaves. -/
theorem fits_of_step (hfits : ∀ op ∈ w.ops, Fits cfg w.db op) (h : step cfg w a = some w') :
    ∀ op ∈ w'.ops, Fits cfg w'.db op := by
  have hgrows : Grows w.db w'.db := grows_of_step h
  have old : ∀ op ∈ w.ops, Fits cfg w'.db op := fun op hop => (hfits op hop).mono hgrows
  have at? : ∀ {k : ℕ} {op : Op}, w.ops[k]? = some op → Fits cfg w'.db op :=
    fun hop => old _ (List.mem_of_getElem? hop)
  have replaced : ∀ {k : ℕ} {new : Op}, w'.ops = replaceAt w.ops k [new] → Fits cfg w'.db new →
      ∀ op ∈ w'.ops, Fits cfg w'.db op := by
    intro k new heq hnew op hop
    rw [heq] at hop
    rcases mem_replaceAt hop with hop | hop
    · exact old op hop
    · rwa [List.mem_singleton.mp hop]
  have ready : ∀ {op : Op} {rest : List ℕ}, Fits cfg w'.db op → (∀ r ∈ rest, r ∈ op.runIds) →
      Fits cfg w'.db (.ready rest) :=
    fun hop hrest => fits_ready fun r hr => hop.queued r (hrest r hr)
  cases a with
  | poll run row | pollJob job runId | annotate ann | enqueue runId now | capture e | segment s
  | reap timeout now =>
    cases h
    exact old
  | claim worker now timeout batch =>
    cases h
    intro op hop
    rcases List.mem_append.mp hop with hop | hop
    · exact old op hop
    · rw [List.mem_singleton.mp hop]
      refine fits_ready fun r hr => hgrows.rows r ?_
      obtain ⟨q, hq, -⟩ := WorkflowDb.mem_claimCandidates hr
      rw [hq]
      rfl
  | read k now =>
    simp only [step] at h
    split at h
    · rename_i r rest hop
      cases h
      refine replaced rfl ?_
      split
      · rename_i s hs
        obtain ⟨hrun, hdrawn⟩ := drawn_selectRun hs
        refine ⟨fun i hi => ?_, fun t ht => ?_, nofun, nofun⟩
        · rw [Op.runIds, hrun] at hi
          exact (at? hop).queued i hi
        · cases ht
          exact hdrawn
      · exact ready (at? hop) fun i hi => List.mem_cons_of_mem _ hi
    · cases h
  | reply k answer =>
    simp only [step] at h
    split at h
    · rename_i s rest hop
      cases h
      refine replaced rfl ⟨(at? hop).queued, (at? hop).drawn, ?_, nofun⟩
      intro s' answer' n rest' heq
      obtain ⟨-, -, hn, -⟩ := Op.writing.inj heq
      exact WorkflowDb.findIdenticalNode_type hn
    · cases h
  | write k =>
    simp only [step] at h
    split at h
    · rename_i s answer existing rest hop
      split at h
      · cases h
        have hrest : ∀ r ∈ rest, r ∈ (Op.writing s answer existing rest).runIds :=
          fun r hr => List.mem_cons_of_mem _ hr
        refine replaced rfl ?_
        cases existing with
        | some n => exact ready (at? hop) hrest
        | none => exact fits_clustering fun r hr => (at? hop).queued r (hrest r hr)
      · cases h
    · cases h
  | lookup k =>
    simp only [step] at h
    split at h
    · rename_i s rest hop
      cases h
      exact replaced rfl (ready (at? hop) fun r hr => hr)
    · rename_i s ann anns rest hop
      cases h
      refine replaced rfl ⟨(at? hop).queued, nofun, nofun, ?_⟩
      intro s' ann' anns' rest' heq
      obtain ⟨rfl, hfound, rfl, -⟩ := Op.registering.inj heq
      exact hfound
    · cases h
  | register k =>
    simp only [step] at h
    split at h
    · rename_i s found ann anns rest hop
      split at h
      · cases h
        exact replaced rfl (fits_clustering (at? hop).queued)
      · cases h
        exact replaced rfl (ready (at? hop) fun r hr => hr)
    · cases h
  | reject k =>
    simp only [step] at h
    split at h
    · rename_i hop
      cases h
      exact replaced rfl (ready (at? hop) fun r hr => hr)
    · rename_i hop
      cases h
      exact replaced rfl (ready (at? hop) fun r hr => hr)
    · cases h
  | fail k error =>
    simp only [step] at h
    split at h
    · rename_i r next hop
      cases h
      obtain ⟨op, hk, hfailing⟩ := Option.bind_eq_some_iff.mp hop
      obtain ⟨-, -, rest, rfl, hrest⟩ := failing_rest hfailing
      exact replaced rfl (ready (at? hk) hrest)
    · cases h
  | crash k =>
    cases h
    intro op hop
    rcases mem_replaceAt hop with hop | hop
    · exact old op hop
    · cases hop

end Hands

end Hippo.Workflow
