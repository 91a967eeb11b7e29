import Hippo.AgenticSessions
import Mathlib.Data.List.Dedup

/-!
# Agentic sessions: what the brain writes

The claim of pending segments (its lock `UPDATE`, its later `SELECT`, the
already-enriched drop and the ineligible skip), the node writers and the failure
reports. The Claude-like claim and the opencode claim share their statements; they
differ in the harnesses they take, in the drop, which only the first has, and in
the eligibility rule.
-/
namespace Hippo

namespace Json

/-- Python's `bool(value)`. -/
def truthy : Json → Bool
  | null => false
  | bool b => b
  | num q => q ≠ 0
  | str s => s ≠ ""
  | arr items => !items.isEmpty
  | obj members => !members.isEmpty

/-- `(value or 0) > 0` of a dictionary entry that may be missing. -/
def positive : Option Json → Except PyError Bool
  | none => .ok false
  | some v =>
    if v.truthy then
      match v with
      | bool _ => .ok true
      | num q => .ok (0 < q)
      | _ => .error .typeError
    else .ok false

/-- `any((diffs.get(k) or 0) > 0 for k in keys)`, which stops at the first hit. -/
def anyPositive (members : List (String × Json)) : List String → Except PyError Bool
  | [] => .ok false
  | k :: ks => do
    if ← positive (members.lookup k) then return true
    anyPositive members ks

/-- `bool(diffs) and any(…)`: only a dictionary has `.get`. -/
def hasDiffs (diffs : Json) : Except PyError Bool :=
  if diffs.truthy then
    match diffs with
    | obj members => anyPositive members ["additions", "deletions", "files"]
    | _ => .error .attributeError
  else .ok false

end Json

/-- The two claims over `agentic_enrichment_queue`. -/
inductive ClaimSource where
  | claudeLike
  | opencode
deriving DecidableEq, Repr

/-- `CLAUDE_LIKE_HARNESSES`, or the opencode claim's own harness. -/
def ClaimSource.harnesses : ClaimSource → List Harness
  | .claudeLike => [.claudeCode, .codex, .cursor, .pi]
  | .opencode => [.opencode]

/-- A row as a claim's `SELECT` returned it. -/
structure Claimed (H : Type) where
  id : ℕ
  row : AgenticSession H

section Eligibility
variable {H : Type}

/-- `is_enrichment_eligible` for the source of a claim, with the skip reason. -/
def isEnrichmentEligible (source : ClaimSource) (s : AgenticSession H) :
    Except PyError (Bool × String) :=
  match source with
  | .claudeLike =>
    if s.messageCount < 3 ∧ s.toolCalls = [] then
      .ok (false, "claude session message_count=" ++ toString s.messageCount ++
        " < 3 and no tool_calls")
    else .ok (true, "eligible")
  | .opencode => do
    let hasDiffs ← s.snapshotDiffs.hasDiffs
    if s.messageCount < 3 ∧ hasDiffs = false ∧ s.commitMessages = [] then
      return (false, "opencode session message_count=" ++ toString s.messageCount ++
        " < 3, no diffs, no commits")
    else return (true, "eligible")

end Eligibility

namespace KnowledgeStore

variable {γ : Type}

/-- The nodes `replace_prior_agentic_nodes` selects: observations linked to one of
the segments and to no segment outside them. -/
def priorAgenticNodes (st : KnowledgeStore γ) (ids : List ℕ) : List ℕ :=
  ((st.links.filter fun l =>
    l.table = .agenticSessions ∧ l.target ∈ ids ∧
      (st.nodes.get? l.node).map KnowledgeNode.nodeType = some .observation ∧
      ∀ l' ∈ st.links, l'.table = .agenticSessions → l'.node = l.node → l'.target ∈ ids).map
    Link.node).dedup

/-- Deletes the prior nodes, or refuses when their vectors cannot be deleted. -/
def replacePriorAgenticNodes (st : KnowledgeStore γ) (ids : List ℕ) (vecOk : Bool) :
    Except PyError (KnowledgeStore γ) :=
  let prior := st.priorAgenticNodes ids
  if prior = [] then .ok st
  else if vecOk then .ok (st.deleteNodes prior)
  else .error (.runtimeError ("replace_prior_agentic_nodes: vec0 knowledge_vectors not " ++
    "reachable; node replacement aborted to avoid orphan vectors (load sqlite-vec on " ++
    "this connection)"))

theorem mem_priorAgenticNodes {st : KnowledgeStore γ} {ids : List ℕ} {n : ℕ} :
    n ∈ st.priorAgenticNodes ids ↔
      (∃ i ∈ ids, st.LinkedTo .agenticSessions .observation i n) ∧
      ∀ l ∈ st.links, l.table = .agenticSessions → l.node = n → l.target ∈ ids := by
  simp only [priorAgenticNodes, List.mem_dedup, List.mem_map, List.mem_filter,
    decide_eq_true_eq, LinkedTo]
  constructor
  · rintro ⟨⟨t, n, i⟩, ⟨hl, rfl, hi, hty, hall⟩, rfl⟩
    exact ⟨⟨i, hi, hl, hty⟩, hall⟩
  · rintro ⟨⟨i, hi, hl, hty⟩, hall⟩
    exact ⟨⟨_, n, i⟩, ⟨hl, rfl, hi, hty, hall⟩, rfl⟩

end KnowledgeStore

namespace AgenticDb

variable {H γ : Type}

/-- The session of a queue row is in the claim's `WHERE`. -/
def ClaimsSession (db : AgenticDb H γ) (source : ClaimSource) (cwd : String) (i : ℕ) : Prop :=
  ∃ s ∈ db.sessions.get? i, s.cwd = cwd ∧ s.harness ∈ source.harnesses ∧ s.probeTag = none

instance (db : AgenticDb H γ) (source : ClaimSource) (cwd : String) (i : ℕ) :
    Decidable (db.ClaimsSession source cwd i) := by
  unfold ClaimsSession
  infer_instance

/-- The subselect of the lock `UPDATE` for one `cwd` group. -/
def claimCandidates (db : AgenticDb H γ) (source : ClaimSource) (cwd : String)
    (staleBefore : ℤ) (limit : Option ℕ) : List ℕ :=
  let rows := db.queue.select fun i q => q.Claimable staleBefore ∧ db.ClaimsSession source cwd i
  let started := fun e : ℕ × QueueRow =>
    ((db.sessions.get? e.1).map AgenticSession.startTime).getD 0
  (limitTo limit (orderBy started (orderBy (fun e => (e.2.id : ℤ)) rows))).map Prod.fst

/-- The lock `UPDATE` of one group; the claim commits it on its own. -/
def lockSegments (db : AgenticDb H γ) (ids : List ℕ) (now : ℤ) (worker : String) :
    AgenticDb H γ :=
  db.updateQueue (fun i _ => i ∈ ids) (QueueRow.lock now worker)

/-- The `SELECT` of the locked segments, which runs after the lock is committed. -/
def selectClaimed (db : AgenticDb H γ) (source : ClaimSource) (ids : List ℕ) :
    List (Claimed H) :=
  (orderBy (fun e => e.2.startTime) (db.sessions.select fun i s =>
    i ∈ ids ∧ s.harness ∈ source.harnesses ∧ s.probeTag = none)).map fun e => ⟨e.1, e.2⟩

/-- Marks one ineligible segment skipped. The watermark moves only if the row still
has the content the decision was made on. -/
def skipSegment [DecidableEq H] (db : AgenticDb H γ) (seg : Claimed H) (reason : String) :
    AgenticDb H γ :=
  (db.modifyQueue seg.id (QueueRow.skip reason)).modifySession seg.id fun r =>
    { r with
      enriched := true
      lastEnrichedContentHash :=
        if seg.row.contentHash ≠ none ∧ r.contentHash = seg.row.contentHash then
          seg.row.contentHash
        else r.lastEnrichedContentHash }

/-- The drop's test: the watermark names the claimed content and a node link exists. -/
def AlreadyEnriched [DecidableEq H] (db : AgenticDb H γ) (seg : Claimed H) : Prop :=
  seg.row.contentHash ≠ none ∧ seg.row.contentHash = seg.row.lastEnrichedContentHash ∧
    db.store.hasLink .agenticSessions seg.id = true

instance [DecidableEq H] (db : AgenticDb H γ) (seg : Claimed H) :
    Decidable (db.AlreadyEnriched seg) := by
  unfold AlreadyEnriched
  infer_instance

/-- `_drop_already_enriched_claude_segments` on one segment that passes the test. -/
def dropSegment (db : AgenticDb H γ) (i : ℕ) : AgenticDb H γ :=
  (db.modifyQueue i QueueRow.drop).modifySession i fun r => { r with enriched := true }

section Batches
variable [DecidableEq H]

/-- Some segment of the batch no longer has the content hash it was claimed with. -/
def BatchChanged (db : AgenticDb H γ) (batch : List (ℕ × Option H)) : Prop :=
  ∃ b ∈ batch, (db.sessions.get? b.1).map AgenticSession.contentHash ≠ some b.2

instance (db : AgenticDb H γ) (batch : List (ℕ × Option H)) :
    Decidable (db.BatchChanged batch) := by
  unfold BatchChanged
  infer_instance

/-- The release of `release_changed_agentic_batch`, for a changed batch. -/
def releaseBatch (db : AgenticDb H γ) (batch : List (ℕ × Option H)) : AgenticDb H γ :=
  db.updateQueue (fun i _ => i ∈ batch.map Prod.fst) QueueRow.release

/-- Advances the watermark of one segment; a `NULL` hash leaves it. -/
def advanceWatermark (db : AgenticDb H γ) (b : ℕ × Option H) : AgenticDb H γ :=
  match b.2 with
  | none => db
  | some h => db.modifySession b.1 fun r => { r with lastEnrichedContentHash := some h }

/-- The transaction of the agentic node writers: release a superseded batch, else
replace the segments' prior nodes, insert the new one and close the queue rows. -/
def writeAgenticKnowledgeNode (db : AgenticDb H γ) (content : γ)
    (batch : List (ℕ × Option H)) (vecOk : Bool) : Except PyError (AgenticDb H γ × Option ℕ) :=
  if db.BatchChanged batch then .ok (db.releaseBatch batch, none)
  else do
    let ids := batch.map Prod.fst
    let replaced ← db.store.replacePriorAgenticNodes ids vecOk
    let linked := replaced.insertLinked ⟨.observation, content⟩ .agenticSessions ids
    let marked := ids.foldl (fun d i => d.modifySession i fun r => { r with enriched := true })
      (db.setStore linked)
    let closed := marked.updateQueue (fun i _ => i ∈ ids) QueueRow.markDone
    return (batch.foldl advanceWatermark closed, some replaced.nodes.nextRowid)

def writeClaudeKnowledgeNode (db : AgenticDb H γ) (content : γ)
    (batch : List (ℕ × Option H)) (vecOk : Bool) : Except PyError (AgenticDb H γ × Option ℕ) :=
  db.writeAgenticKnowledgeNode content batch vecOk

def writeOpencodeKnowledgeNode (db : AgenticDb H γ) (content : γ)
    (batch : List (ℕ × Option H)) (vecOk : Bool) : Except PyError (AgenticDb H γ × Option ℕ) :=
  db.writeAgenticKnowledgeNode content batch vecOk

/-- After a terminal failure the Claude watermark moves to the attempted hash, if the
row still has it. -/
def watermarkFailed (db : AgenticDb H γ) (b : ℕ × Option H) : AgenticDb H γ :=
  match b.2 with
  | none => db
  | some h =>
    if db.queue.status? b.1 = some .failed then
      db.modifySession b.1 fun r =>
        if r.contentHash = some h then { r with lastEnrichedContentHash := some h } else r
    else db

def markClaudeQueueFailed (db : AgenticDb H γ) (batch : List (ℕ × Option H))
    (error : String) : AgenticDb H γ :=
  if db.BatchChanged batch then db.releaseBatch batch
  else batch.foldl (fun d b =>
    (d.modifyQueue b.1 (QueueRow.chargeRetry error)).watermarkFailed b) db

/-- As the Claude report, but no watermark moves. -/
def markOpencodeQueueFailed (db : AgenticDb H γ) (batch : List (ℕ × Option H))
    (error : String) : AgenticDb H γ :=
  if db.BatchChanged batch then db.releaseBatch batch
  else batch.foldl (fun d b => d.modifyQueue b.1 (QueueRow.chargeRetry error)) db

/-- `reap_stale_locks` on the agentic queue. -/
def reapStaleLocks (db : AgenticDb H γ) (timeout now : ℤ) : AgenticDb H γ :=
  db.updateQueue (fun _ r => r.status = .processing ∧ r.lockedBefore (now - timeout))
    (QueueRow.chargeRetry (Queue.reapReason timeout))

end Batches

section Specifications

theorem mem_claimCandidates {db : AgenticDb H γ} {source : ClaimSource} {cwd : String}
    {staleBefore : ℤ} {limit : Option ℕ} {i : ℕ}
    (h : i ∈ db.claimCandidates source cwd staleBefore limit) :
    ∃ q, db.queue.get? i = some q ∧ q.Claimable staleBefore ∧
      db.ClaimsSession source cwd i := by
  obtain ⟨⟨_, q⟩, hq, rfl⟩ := List.mem_map.mp h
  have hrow := mem_of_mem_limitTo hq
  rw [mem_orderBy, mem_orderBy, Table.mem_select] at hrow
  exact ⟨q, hrow.1, hrow.2⟩

/-- Without a cap the claim takes every claimable row of its group. -/
theorem claimCandidates_complete {db : AgenticDb H γ} {source : ClaimSource} {cwd : String}
    {staleBefore : ℤ} {i : ℕ} {q : QueueRow} (hq : db.queue.get? i = some q)
    (hclaim : q.Claimable staleBefore) (hs : db.ClaimsSession source cwd i) :
    i ∈ db.claimCandidates source cwd staleBefore none := by
  refine List.mem_map.mpr ⟨(i, q), ?_, rfl⟩
  rw [limitTo, Option.elim_none, mem_orderBy, mem_orderBy, Table.mem_select]
  exact ⟨hq, hclaim, hs⟩

theorem mem_selectClaimed {db : AgenticDb H γ} {source : ClaimSource} {ids : List ℕ}
    {seg : Claimed H} : seg ∈ db.selectClaimed source ids ↔
      db.sessions.get? seg.id = some seg.row ∧ seg.id ∈ ids ∧
        seg.row.harness ∈ source.harnesses ∧ seg.row.probeTag = none := by
  simp only [selectClaimed, List.mem_map, mem_orderBy]
  constructor
  · rintro ⟨⟨i, r⟩, he, rfl⟩
    exact Table.mem_select.mp he
  · intro h
    exact ⟨(seg.id, seg.row), Table.mem_select.mpr h, rfl⟩

@[simp] theorem lockSegments_sessions (db : AgenticDb H γ) (ids : List ℕ) (now : ℤ)
    (worker : String) : (db.lockSegments ids now worker).sessions = db.sessions := rfl

@[simp] theorem lockSegments_store (db : AgenticDb H γ) (ids : List ℕ) (now : ℤ)
    (worker : String) : (db.lockSegments ids now worker).store = db.store := rfl

theorem lockSegments_queue_get? (db : AgenticDb H γ) (ids : List ℕ) (now : ℤ)
    (worker : String) (j : ℕ) : (db.lockSegments ids now worker).queue.get? j =
      (db.queue.get? j).map fun q => if j ∈ ids then q.lock now worker else q :=
  updateQueue_get? _ _ _ _

@[simp] theorem dropSegment_store (db : AgenticDb H γ) (i : ℕ) :
    (db.dropSegment i).store = db.store := rfl

theorem dropSegment_queue_get? (db : AgenticDb H γ) (i j : ℕ) :
    (db.dropSegment i).queue.get? j =
      if j = i then (db.queue.get? j).map QueueRow.drop else db.queue.get? j :=
  modifyQueue_get? _ _ _ _

theorem dropSegment_sessions_get? (db : AgenticDb H γ) (i j : ℕ) :
    (db.dropSegment i).sessions.get? j = if j = i then
      (db.sessions.get? j).map (fun r => { r with enriched := true }) else db.sessions.get? j :=
  modifySession_get? _ _ _ _

@[simp] theorem reapStaleLocks_sessions (db : AgenticDb H γ) (timeout now : ℤ) :
    (db.reapStaleLocks timeout now).sessions = db.sessions := rfl

@[simp] theorem reapStaleLocks_store (db : AgenticDb H γ) (timeout now : ℤ) :
    (db.reapStaleLocks timeout now).store = db.store := rfl

theorem reapStaleLocks_queue_get? (db : AgenticDb H γ) (timeout now : ℤ) (j : ℕ) :
    (db.reapStaleLocks timeout now).queue.get? j = (db.queue.get? j).map fun q =>
      if q.status = .processing ∧ q.lockedBefore (now - timeout) then
        q.chargeRetry (Queue.reapReason timeout) else q :=
  updateQueue_get? _ _ _ _

theorem batchChanged_singleton {db : AgenticDb H γ} {b : ℕ × Option H} :
    db.BatchChanged [b] ↔ (db.sessions.get? b.1).map AgenticSession.contentHash ≠ some b.2 := by
  simp [BatchChanged]

@[simp] theorem releaseBatch_sessions (db : AgenticDb H γ) (batch : List (ℕ × Option H)) :
    (db.releaseBatch batch).sessions = db.sessions := rfl

@[simp] theorem releaseBatch_store (db : AgenticDb H γ) (batch : List (ℕ × Option H)) :
    (db.releaseBatch batch).store = db.store := rfl

theorem releaseBatch_queue_get? (db : AgenticDb H γ) (b : ℕ × Option H) (j : ℕ) :
    (db.releaseBatch [b]).queue.get? j =
      if j = b.1 then (db.queue.get? j).map QueueRow.release else db.queue.get? j := by
  rw [releaseBatch, updateQueue_get?]
  by_cases hj : j = b.1 <;> simp [hj]

variable [DecidableEq H]

@[simp] theorem skipSegment_store (db : AgenticDb H γ) (seg : Claimed H) (reason : String) :
    (db.skipSegment seg reason).store = db.store := rfl

theorem skipSegment_queue_get? (db : AgenticDb H γ) (seg : Claimed H) (reason : String)
    (j : ℕ) : (db.skipSegment seg reason).queue.get? j =
      if j = seg.id then (db.queue.get? j).map (QueueRow.skip reason)
      else db.queue.get? j :=
  modifyQueue_get? _ _ _ _

theorem skipSegment_sessions_get? (db : AgenticDb H γ) (seg : Claimed H) (reason : String)
    (j : ℕ) : (db.skipSegment seg reason).sessions.get? j =
      if j = seg.id then (db.sessions.get? j).map (fun r =>
        { r with
          enriched := true
          lastEnrichedContentHash :=
            if seg.row.contentHash ≠ none ∧ r.contentHash = seg.row.contentHash then
              seg.row.contentHash
            else r.lastEnrichedContentHash })
      else db.sessions.get? j :=
  modifySession_get? _ _ _ _

/-- What a successful write of one segment has done. -/
structure Written (db db' : AgenticDb H γ) (content : γ) (b : ℕ × Option H) (node : ℕ) :
    Prop where
  unchanged : (db.sessions.get? b.1).map AgenticSession.contentHash = some b.2
  sessions : ∀ j, db'.sessions.get? j = if j = b.1 then (db.sessions.get? j).map (fun r =>
      { r with enriched := true, lastEnrichedContentHash := b.2.or r.lastEnrichedContentHash })
    else db.sessions.get? j
  queue : ∀ j, db'.queue.get? j =
    if j = b.1 then (db.queue.get? j).map QueueRow.markDone else db.queue.get? j
  store : ∃ vecOk replaced, db.store.replacePriorAgenticNodes [b.1] vecOk = .ok replaced ∧
    node = replaced.nodes.nextRowid ∧
    db'.store = replaced.insertLinked ⟨.observation, content⟩ .agenticSessions [b.1]

theorem writeAgentic_released {db db' : AgenticDb H γ} {content : γ} {b : ℕ × Option H}
    {vecOk : Bool} (h : db.writeAgenticKnowledgeNode content [b] vecOk = .ok (db', none)) :
    (db.sessions.get? b.1).map AgenticSession.contentHash ≠ some b.2 ∧
      db' = db.releaseBatch [b] := by
  unfold writeAgenticKnowledgeNode at h
  split at h
  · rename_i hch
    cases h
    exact ⟨batchChanged_singleton.mp hch, rfl⟩
  · cases hr : db.store.replacePriorAgenticNodes [b.1] vecOk with
    | error e =>
      simp only [List.map_cons, List.map_nil, hr] at h
      cases h
    | ok replaced =>
      simp only [List.map_cons, List.map_nil, hr] at h
      cases h

theorem writeAgentic_written {db db' : AgenticDb H γ} {content : γ} {b : ℕ × Option H}
    {vecOk : Bool} {node : ℕ}
    (h : db.writeAgenticKnowledgeNode content [b] vecOk = .ok (db', some node)) :
    Written db db' content b node := by
  unfold writeAgenticKnowledgeNode at h
  split at h
  · cases h
  · rename_i hch
    have hsame := not_ne_iff.mp (mt batchChanged_singleton.mpr hch)
    cases hr : db.store.replacePriorAgenticNodes [b.1] vecOk with
    | error e =>
      simp only [List.map_cons, List.map_nil, hr] at h
      cases h
    | ok replaced =>
      simp only [List.map_cons, List.map_nil, hr] at h
      cases h
      obtain ⟨i, ch⟩ := b
      refine ⟨hsame, ?_, ?_, vecOk, replaced, hr, rfl, ?_⟩
      · intro j
        cases ch with
        | none => simp [advanceWatermark, modifySession_get?]
        | some hash =>
          by_cases hj : j = i <;>
            simp [advanceWatermark, modifySession_get?, hj, Function.comp_def]
      · intro j
        cases ch <;> by_cases hj : j = i <;> simp [advanceWatermark, hj]
      · cases ch <;> simp [advanceWatermark]

/-- What a failure report of one segment has done when its content is unchanged:
one retry charged, and for the Claude source the watermark after a terminal one. -/
structure Charged (db db' : AgenticDb H γ) (b : ℕ × Option H) (error : String)
    (advances : Prop) [Decidable advances] : Prop where
  sessions : ∀ j, db'.sessions.get? j = if j = b.1 ∧ advances then
      (db.sessions.get? j).map (fun r => { r with lastEnrichedContentHash := b.2 })
    else db.sessions.get? j
  queue : ∀ j, db'.queue.get? j =
    if j = b.1 then (db.queue.get? j).map (QueueRow.chargeRetry error) else db.queue.get? j
  store : db'.store = db.store

theorem markClaudeQueueFailed_singleton (db : AgenticDb H γ) (b : ℕ × Option H)
    (error : String) (hsame : (db.sessions.get? b.1).map AgenticSession.contentHash = some b.2) :
    Charged db (db.markClaudeQueueFailed [b] error) b error
      (b.2 ≠ none ∧ (db.markClaudeQueueFailed [b] error).queue.status? b.1 = some .failed) := by
  obtain ⟨i, ch⟩ := b
  have hch : ¬ db.BatchChanged [(i, ch)] := mt batchChanged_singleton.mp (not_ne_iff.mpr hsame)
  have heq : db.markClaudeQueueFailed [(i, ch)] error =
      (db.modifyQueue i (QueueRow.chargeRetry error)).watermarkFailed (i, ch) := by
    simp [markClaudeQueueFailed, hch]
  rw [heq]
  cases ch with
  | none =>
    refine ⟨fun j => ?_, fun j => ?_, rfl⟩
    · simp [watermarkFailed]
    · exact modifyQueue_get? _ _ _ _
  | some hash =>
    by_cases hst : (db.modifyQueue i (QueueRow.chargeRetry error)).queue.status? i = some .failed
    · refine ⟨fun j => ?_, fun j => ?_, ?_⟩
      · simp only [watermarkFailed, hst, if_true, modifySession_queue, modifySession_get?,
          modifyQueue_sessions]
        by_cases hj : j = i
        · subst hj
          obtain ⟨r, hr, hrh⟩ := Option.map_eq_some_iff.mp hsame
          simp [hr, hrh]
        · simp [hj]
      · simp only [watermarkFailed, hst, if_true, modifySession_queue]
        exact modifyQueue_get? _ _ _ _
      · simp [watermarkFailed, hst]
    · refine ⟨fun j => ?_, fun j => ?_, ?_⟩
      · simp [watermarkFailed, hst]
      · simp only [watermarkFailed, hst, if_false]
        exact modifyQueue_get? _ _ _ _
      · simp [watermarkFailed, hst]

theorem markOpencodeQueueFailed_singleton (db : AgenticDb H γ) (b : ℕ × Option H)
    (error : String) (hsame : (db.sessions.get? b.1).map AgenticSession.contentHash = some b.2) :
    Charged db (db.markOpencodeQueueFailed [b] error) b error False := by
  have hch : ¬ db.BatchChanged [b] := mt batchChanged_singleton.mp (not_ne_iff.mpr hsame)
  have heq : db.markOpencodeQueueFailed [b] error =
      db.modifyQueue b.1 (QueueRow.chargeRetry error) := by
    simp [markOpencodeQueueFailed, hch]
  rw [heq]
  exact ⟨fun j => by simp, fun j => modifyQueue_get? _ _ _ _, rfl⟩

end Specifications

end AgenticDb

end Hippo
