import Hippo.AgenticEnrichment
import Hippo.Transition

/-!
# Runs of the daemon and the brain over the agentic tables

A world is the database with the operations in flight. Every action is one commit
(or one read between two commits), so the runs below are all interleavings of the
daemon's upserts, the settling sweep, any number of claims and their batches, and
the stale-lock reaper. The remaining components of a world are history: no action
reads them.
-/
namespace Hippo.Agentic
open Hippo Hippo.AgenticDb

/-- An operation between two of its commits. -/
inductive Op (H : Type) where
  /-- A sweep that has read its candidates. -/
  | sweeping (candidates : List (ℕ × String))
  /-- A claim that has committed its lock. -/
  | locked (source : ClaimSource) (ids : List ℕ)
  /-- A claim in the already-enriched guard. -/
  | dropping (kept todo : List (Claimed H))
  /-- A claim in the eligibility filter. -/
  | skipping (source : ClaimSource) (eligible todo : List (Claimed H))
  /-- A batch of one segment, handed to the model. -/
  | enriching (source : ClaimSource) (seg : Claimed H)

namespace Op

variable {H : Type}

/-- The claim an operation belongs to; a sweep belongs to none. -/
def source : Op H → Option ClaimSource
  | sweeping _ => none
  | locked source _ => some source
  | dropping _ _ => some .claudeLike
  | skipping source _ _ => some source
  | enriching source _ => some source

/-- The segments a claim has read. -/
def segs : Op H → List (Claimed H)
  | sweeping _ => []
  | locked _ _ => []
  | dropping kept todo => kept ++ todo
  | skipping _ eligible todo => eligible ++ todo
  | enriching _ seg => [seg]

/-- The rowids an operation may still write. -/
def ids : Op H → List ℕ
  | sweeping candidates => candidates.map Prod.fst
  | locked _ ids => ids
  | dropping kept todo => (kept ++ todo).map Claimed.id
  | skipping _ eligible todo => (eligible ++ todo).map Claimed.id
  | enriching _ seg => [seg.id]

end Op

/-- Who moved a watermark last. -/
inductive Mover where
  | writer
  | skip
  | failure
deriving DecidableEq, Repr

structure World (H γ : Type) where
  db : AgenticDb H γ
  ops : List (Op H) := []
  /-- The last parsed version of the segment had no content. -/
  blank : ℕ → Bool := fun _ => false
  /-- How often a claim locked the queue row. -/
  claims : ℕ → ℕ := fun _ => 0
  /-- The content hash of the version a node was made from. -/
  madeFrom : ℕ → Option H := fun _ => none
  movedBy : ℕ → Option Mover := fun _ => none

/-- What a source hands to its upsert. -/
inductive Parsed where
  | claude (seg : SessionSegment)
  | codex (seg : SessionSegment)
  | cursor (seg : SessionSegment)
  | pi (seg : SessionSegment)
  | opencode (s : OpencodeSession)

section Parsed
variable {H : Type}

def Parsed.upsert (env : Rendering H) : Parsed → Upsert H
  | .claude seg => claudeUpsert env seg
  | .codex seg => codexUpsert env seg
  | .cursor seg => cursorUpsert env seg
  | .pi seg => piUpsert env seg
  | .opencode s => opencodeUpsert env s

def Parsed.isEmpty : Parsed → Bool
  | .claude seg | .codex seg | .cursor seg | .pi seg => seg.isEmpty
  | .opencode _ => false

/-- Only an empty version closes the gate that claude-code has for it. -/
theorem Parsed.blank_of_not_isEmpty {env : Rendering H} {p : Parsed} (h : p.isEmpty = false) :
    (p.upsert env).blank = false := by
  cases p with
  | claude seg => exact h
  | codex seg => rfl
  | cursor seg => rfl
  | pi seg => rfl
  | opencode s => rfl

end Parsed

inductive Action (γ : Type) where
  | upsert (p : Parsed)
  | sweepSelect
  | sweepApply (k : ℕ) (mtime : String → Option ℤ) (now : ℤ)
  | lock (source : ClaimSource) (now staleBefore : ℤ) (worker cwd : String) (limit : Option ℕ)
  | select (k : ℕ)
  | drop (k : ℕ)
  | skip (k : ℕ)
  | write (k : ℕ) (content : γ) (vecOk : Bool)
  | fail (k : ℕ) (error : String)
  | crash (k : ℕ)
  | reap (timeout now : ℤ)

/-- `max_per_tick` of the watcher's only call. -/
def sweepMaxPerTick : ℕ := 10

/-- A file must be this old to count as settled. -/
def settleMs : ℤ := 30 * 60 * 1000

namespace World

variable {H γ : Type}

def init : World H γ := { db := AgenticDb.empty }

/-- The `k`-th operation in flight becomes the given ones (none when it has ended). -/
def replaceOp (w : World H γ) (k : ℕ) (new : List (Op H)) : List (Op H) :=
  Transition.replaceAt w.ops k new

theorem mem_replaceOp {w : World H γ} {k : ℕ} {new : List (Op H)} {op : Op H}
    (h : op ∈ w.replaceOp k new) : op ∈ w.ops ∨ op ∈ new :=
  Transition.mem_replaceAt h

end World

section Writers
variable {H γ : Type} [DecidableEq H]

def writeNode (source : ClaimSource) (db : AgenticDb H γ) (content : γ) (seg : Claimed H)
    (vecOk : Bool) : Except PyError (AgenticDb H γ × Option ℕ) :=
  match source with
  | .claudeLike => db.writeClaudeKnowledgeNode content [(seg.id, seg.row.contentHash)] vecOk
  | .opencode => db.writeOpencodeKnowledgeNode content [(seg.id, seg.row.contentHash)] vecOk

def markFailed (source : ClaimSource) (db : AgenticDb H γ) (seg : Claimed H)
    (error : String) : AgenticDb H γ :=
  match source with
  | .claudeLike => db.markClaudeQueueFailed [(seg.id, seg.row.contentHash)] error
  | .opencode => db.markOpencodeQueueFailed [(seg.id, seg.row.contentHash)] error

/-- The segment's watermark has another value, or another reason, after the step. -/
def moved (w : World H γ) (i : ℕ) (changed : Prop) [Decidable changed] (by' : Mover) :
    ℕ → Option Mover :=
  if changed then Function.update w.movedBy i (some by') else w.movedBy

/-- The report was terminal for content the row still has, so the watermark moved. -/
def FailureMoved (source : ClaimSource) (db : AgenticDb H γ) (seg : Claimed H) : Prop :=
  source = .claudeLike ∧ seg.row.contentHash ≠ none ∧
    db.queue.status? seg.id = some .failed ∧
    (db.sessions.get? seg.id).map AgenticSession.contentHash = some seg.row.contentHash

instance (source : ClaimSource) (db : AgenticDb H γ) (seg : Claimed H) :
    Decidable (FailureMoved source db seg) := by
  unfold FailureMoved
  infer_instance

/-- One action; `none` when it is not enabled. -/
def step (env : Rendering H) (w : World H γ) : Action γ → Option (World H γ)
  | .upsert p =>
    let u := p.upsert env
    some { w with
      db := u.apply w.db
      blank := Function.update w.blank (u.target w.db) p.isEmpty }
  | .sweepSelect =>
    some { w with ops := w.ops ++ [.sweeping (w.db.settlingCandidates sweepMaxPerTick)] }
  | .sweepApply k mtime now =>
    match w.ops[k]? with
    | some (.sweeping candidates) => some { w with
        db := settle sweepMaxPerTick mtime (now - settleMs) candidates 0 w.db
        ops := w.replaceOp k [] }
    | _ => none
  | .lock source now staleBefore worker cwd limit =>
    let ids := w.db.claimCandidates source cwd staleBefore limit
    some { w with
      db := w.db.lockSegments ids now worker
      ops := w.ops ++ [.locked source ids]
      claims := fun i => w.claims i + if i ∈ ids then 1 else 0 }
  | .select k =>
    match w.ops[k]? with
    | some (.locked source ids) =>
      let segs := w.db.selectClaimed source ids
      some { w with ops := w.replaceOp k [match source with
        | .claudeLike => .dropping [] segs
        | .opencode => .skipping .opencode [] segs] }
    | _ => none
  | .drop k =>
    match w.ops[k]? with
    | some (.dropping kept []) =>
      some { w with ops := w.replaceOp k [.skipping .claudeLike [] kept] }
    | some (.dropping kept (seg :: todo)) =>
      if w.db.AlreadyEnriched seg then some { w with
        db := w.db.dropSegment seg.id
        ops := w.replaceOp k [.dropping kept todo] }
      else some { w with ops := w.replaceOp k [.dropping (kept ++ [seg]) todo] }
    | _ => none
  | .skip k =>
    match w.ops[k]? with
    | some (.skipping source eligible []) =>
      some { w with ops := w.replaceOp k (eligible.map (.enriching source)) }
    | some (.skipping source eligible (seg :: todo)) =>
      match isEnrichmentEligible source seg.row with
      | .error _ => some { w with ops := w.replaceOp k [] }
      | .ok (true, _) =>
        some { w with ops := w.replaceOp k [.skipping source (eligible ++ [seg]) todo] }
      | .ok (false, reason) => some { w with
          db := w.db.skipSegment seg reason
          ops := w.replaceOp k [.skipping source eligible todo]
          movedBy := moved w seg.id (seg.row.contentHash ≠ none ∧
            (w.db.sessions.get? seg.id).map AgenticSession.contentHash =
              some seg.row.contentHash) .skip }
    | _ => none
  | .write k content vecOk =>
    match w.ops[k]? with
    | some (.enriching source seg) =>
      match writeNode source w.db content seg vecOk with
      | .error _ => some w
      | .ok (db, none) => some { w with db := db, ops := w.replaceOp k [] }
      | .ok (db, some node) => some { w with
          db := db
          ops := w.replaceOp k []
          madeFrom := Function.update w.madeFrom node seg.row.contentHash
          movedBy := moved w seg.id (seg.row.contentHash ≠ none) .writer }
    | _ => none
  | .fail k error =>
    match w.ops[k]? with
    | some (.enriching source seg) =>
      let db := markFailed source w.db seg error
      some { w with
        db := db
        ops := w.replaceOp k []
        movedBy := moved w seg.id (FailureMoved source db seg) .failure }
    | _ => none
  | .crash k => some { w with ops := w.replaceOp k [] }
  | .reap timeout now => some { w with db := w.db.reapStaleLocks timeout now }

/-- What a step can do, one constructor for each path through `step`. -/
inductive Effect (env : Rendering H) (w : World H γ) : Action γ → World H γ → Prop
  | upsert (p : Parsed) : Effect env w (.upsert p) { w with
      db := (p.upsert env).apply w.db
      blank := Function.update w.blank ((p.upsert env).target w.db) p.isEmpty }
  | sweepSelect : Effect env w .sweepSelect
      { w with ops := w.ops ++ [.sweeping (w.db.settlingCandidates sweepMaxPerTick)] }
  | sweepApply {k mtime now candidates} (hop : w.ops[k]? = some (.sweeping candidates)) :
      Effect env w (.sweepApply k mtime now) { w with
        db := settle sweepMaxPerTick mtime (now - settleMs) candidates 0 w.db
        ops := w.replaceOp k [] }
  | lock {source now staleBefore worker cwd limit ids}
      (hids : ids = w.db.claimCandidates source cwd staleBefore limit) :
      Effect env w (.lock source now staleBefore worker cwd limit) { w with
        db := w.db.lockSegments ids now worker
        ops := w.ops ++ [.locked source ids]
        claims := fun i => w.claims i + if i ∈ ids then 1 else 0 }
  | selectClaude {k ids} (hop : w.ops[k]? = some (.locked .claudeLike ids)) :
      Effect env w (.select k) { w with
        ops := w.replaceOp k [.dropping [] (w.db.selectClaimed .claudeLike ids)] }
  | selectOpencode {k ids} (hop : w.ops[k]? = some (.locked .opencode ids)) :
      Effect env w (.select k) { w with
        ops := w.replaceOp k [.skipping .opencode [] (w.db.selectClaimed .opencode ids)] }
  | dropEnd {k kept} (hop : w.ops[k]? = some (.dropping kept [])) :
      Effect env w (.drop k) { w with ops := w.replaceOp k [.skipping .claudeLike [] kept] }
  | dropped {k kept seg todo} (hop : w.ops[k]? = some (.dropping kept (seg :: todo)))
      (hdrop : w.db.AlreadyEnriched seg) :
      Effect env w (.drop k) { w with
        db := w.db.dropSegment seg.id
        ops := w.replaceOp k [.dropping kept todo] }
  | kept {k kept seg todo} (hop : w.ops[k]? = some (.dropping kept (seg :: todo))) :
      Effect env w (.drop k) { w with ops := w.replaceOp k [.dropping (kept ++ [seg]) todo] }
  | skipEnd {k source eligible} (hop : w.ops[k]? = some (.skipping source eligible [])) :
      Effect env w (.skip k) { w with ops := w.replaceOp k (eligible.map (.enriching source)) }
  | skipRaises {k source eligible seg todo}
      (hop : w.ops[k]? = some (.skipping source eligible (seg :: todo))) :
      Effect env w (.skip k) { w with ops := w.replaceOp k [] }
  | eligible {k source eligible seg todo}
      (hop : w.ops[k]? = some (.skipping source eligible (seg :: todo))) :
      Effect env w (.skip k)
        { w with ops := w.replaceOp k [.skipping source (eligible ++ [seg]) todo] }
  | skipped {k source eligible seg todo reason}
      (hop : w.ops[k]? = some (.skipping source eligible (seg :: todo)))
      (hskip : isEnrichmentEligible source seg.row = .ok (false, reason)) :
      Effect env w (.skip k) { w with
        db := w.db.skipSegment seg reason
        ops := w.replaceOp k [.skipping source eligible todo]
        movedBy := moved w seg.id (seg.row.contentHash ≠ none ∧
          (w.db.sessions.get? seg.id).map AgenticSession.contentHash =
            some seg.row.contentHash) .skip }
  | writeRaises {k content vecOk source seg} (hop : w.ops[k]? = some (.enriching source seg)) :
      Effect env w (.write k content vecOk) w
  | writeReleases {k content vecOk source seg} (hop : w.ops[k]? = some (.enriching source seg))
      {db : AgenticDb H γ} (hw : writeNode source w.db content seg vecOk = .ok (db, none)) :
      Effect env w (.write k content vecOk) { w with db := db, ops := w.replaceOp k [] }
  | written {k content vecOk source seg} (hop : w.ops[k]? = some (.enriching source seg))
      {db : AgenticDb H γ} {node : ℕ}
      (hw : writeNode source w.db content seg vecOk = .ok (db, some node)) :
      Effect env w (.write k content vecOk) { w with
        db := db
        ops := w.replaceOp k []
        madeFrom := Function.update w.madeFrom node seg.row.contentHash
        movedBy := moved w seg.id (seg.row.contentHash ≠ none) .writer }
  | failed {k error source seg} (hop : w.ops[k]? = some (.enriching source seg)) :
      Effect env w (.fail k error) { w with
        db := markFailed source w.db seg error
        ops := w.replaceOp k []
        movedBy := moved w seg.id
          (FailureMoved source (markFailed source w.db seg error) seg) .failure }
  | crash (k : ℕ) : Effect env w (.crash k) { w with ops := w.replaceOp k [] }
  | reap (timeout now : ℤ) :
      Effect env w (.reap timeout now) { w with db := w.db.reapStaleLocks timeout now }

theorem step_effect {env : Rendering H} {w w' : World H γ} {a : Action γ}
    (h : step env w a = some w') : Effect env w a w' := by
  cases a with
  | upsert p =>
    cases h
    exact .upsert p
  | sweepSelect =>
    cases h
    exact .sweepSelect
  | sweepApply k mtime now =>
    simp only [step] at h
    split at h
    · rename_i candidates hop
      cases h
      exact .sweepApply hop
    · cases h
  | lock source now staleBefore worker cwd limit =>
    cases h
    exact .lock rfl
  | select k =>
    simp only [step] at h
    split at h
    · rename_i source ids hop
      cases h
      cases source with
      | claudeLike => exact .selectClaude hop
      | opencode => exact .selectOpencode hop
    · cases h
  | drop k =>
    simp only [step] at h
    split at h
    · rename_i kept hop
      cases h
      exact .dropEnd hop
    · rename_i kept seg todo hop
      split at h
      · rename_i hdrop
        cases h
        exact .dropped hop hdrop
      · cases h
        exact .kept hop
    · cases h
  | skip k =>
    simp only [step] at h
    split at h
    · rename_i source eligible hop
      cases h
      exact .skipEnd hop
    · rename_i source eligible seg todo hop
      split at h
      · cases h
        exact .skipRaises hop
      · cases h
        exact .eligible hop
      · rename_i reason hskip
        cases h
        exact .skipped hop hskip
    · cases h
  | write k content vecOk =>
    simp only [step] at h
    split at h
    · rename_i source seg hop
      split at h
      · cases h
        exact .writeRaises hop
      · rename_i db hw
        cases h
        exact .writeReleases hop hw
      · rename_i db node hw
        cases h
        exact .written hop hw
    · cases h
  | fail k error =>
    simp only [step] at h
    split at h
    · rename_i source seg hop
      cases h
      exact .failed hop
    · cases h
  | crash k =>
    cases h
    exact .crash k
  | reap timeout now =>
    cases h
    exact .reap timeout now

/-- Where an operation in flight after a step comes from: it was in flight before, it
continues one that was, or the step started it. -/
theorem Effect.op_cases {env : Rendering H} {w w' : World H γ} {a : Action γ}
    (he : Effect env w a w') {op' : Op H} (h : op' ∈ w'.ops) :
    (∃ op ∈ w.ops, op'.source = op.source ∧ (∀ i ∈ op'.ids, i ∈ op.ids) ∧
      ∀ seg ∈ op'.segs, seg ∈ op.segs ∨ w.db.sessions.get? seg.id = some seg.row) ∨
    (∃ source cwd before limit, op' = .locked source (w.db.claimCandidates source cwd before limit)) ∨
    op' = .sweeping (w.db.settlingCandidates sweepMaxPerTick) := by
  have keep : op' ∈ w.ops → (∃ op ∈ w.ops, op'.source = op.source ∧ (∀ i ∈ op'.ids, i ∈ op.ids) ∧
      ∀ seg ∈ op'.segs, seg ∈ op.segs ∨ w.db.sessions.get? seg.id = some seg.row) :=
    fun hm => ⟨op', hm, rfl, fun _ hi => hi, fun _ hs => Or.inl hs⟩
  have continues : ∀ {k : ℕ} {op : Op H} {new : List (Op H)}, w.ops[k]? = some op →
      op' ∈ w.replaceOp k new →
      (∀ o ∈ new, o.source = op.source ∧ (∀ i ∈ o.ids, i ∈ op.ids) ∧
        ∀ seg ∈ o.segs, seg ∈ op.segs ∨ w.db.sessions.get? seg.id = some seg.row) →
      (∃ op ∈ w.ops, op'.source = op.source ∧ (∀ i ∈ op'.ids, i ∈ op.ids) ∧
        ∀ seg ∈ op'.segs, seg ∈ op.segs ∨ w.db.sessions.get? seg.id = some seg.row) := by
    intro k op new hop hmem hnew
    rcases World.mem_replaceOp hmem with hm | hm
    · exact keep hm
    · exact ⟨op, List.mem_of_getElem? hop, hnew op' hm⟩
  cases he with
  | upsert p => exact Or.inl (keep h)
  | sweepSelect =>
    rcases List.mem_append.mp h with h | h
    · exact Or.inl (keep h)
    · exact Or.inr (Or.inr (List.mem_singleton.mp h))
  | sweepApply hop => exact Or.inl (continues hop h (by simp))
  | lock hids =>
    rcases List.mem_append.mp h with h | h
    · exact Or.inl (keep h)
    · exact Or.inr (Or.inl ⟨_, _, _, _, hids ▸ List.mem_singleton.mp h⟩)
  | selectClaude hop =>
    refine Or.inl (continues hop h ?_)
    intro o ho
    rw [List.mem_singleton.mp ho]
    refine ⟨rfl, fun i hi => ?_, fun seg hs => Or.inr (mem_selectClaimed.mp hs).1⟩
    obtain ⟨seg, hseg, rfl⟩ := List.mem_map.mp hi
    exact (mem_selectClaimed.mp hseg).2.1
  | selectOpencode hop =>
    refine Or.inl (continues hop h ?_)
    intro o ho
    rw [List.mem_singleton.mp ho]
    refine ⟨rfl, fun i hi => ?_, fun seg hs => Or.inr (mem_selectClaimed.mp hs).1⟩
    obtain ⟨seg, hseg, rfl⟩ := List.mem_map.mp hi
    exact (mem_selectClaimed.mp hseg).2.1
  | dropEnd hop | dropped hop _ | kept hop | eligible hop | skipped hop _ =>
    refine Or.inl (continues hop h ?_)
    intro o ho
    rw [List.mem_singleton.mp ho]
    refine ⟨rfl, fun i hi => ?_, fun seg hs => Or.inl ?_⟩ <;>
      simp only [Op.ids, Op.segs, List.map_append, List.map_cons, List.map_nil,
        List.mem_append, List.mem_cons, List.not_mem_nil, or_false, false_or] at * <;> tauto
  | skipEnd hop =>
    refine Or.inl (continues hop h ?_)
    intro o ho
    obtain ⟨seg, hseg, rfl⟩ := List.mem_map.mp ho
    refine ⟨rfl, fun i hi => ?_, fun s hs => Or.inl ?_⟩
    · rw [List.mem_singleton.mp hi]
      exact List.mem_map_of_mem (by simpa using hseg)
    · rw [List.mem_singleton.mp hs]
      simpa [Op.segs] using hseg
  | skipRaises hop | writeReleases hop _ | written hop _ | failed hop =>
    exact Or.inl (continues hop h (by simp))
  | writeRaises hop => exact Or.inl (keep h)
  | crash k =>
    rcases World.mem_replaceOp h with hm | hm
    · exact Or.inl (keep hm)
    · cases hm
  | reap timeout now => exact Or.inl (keep h)

theorem markFailed_singleton (source : ClaimSource) (db : AgenticDb H γ) (seg : Claimed H)
    (error : String) :
    ((db.sessions.get? seg.id).map AgenticSession.contentHash ≠ some seg.row.contentHash ∧
      markFailed source db seg error = db.releaseBatch [(seg.id, seg.row.contentHash)]) ∨
    ((db.sessions.get? seg.id).map AgenticSession.contentHash = some seg.row.contentHash ∧
      Charged db (markFailed source db seg error) (seg.id, seg.row.contentHash) error
        (source = .claudeLike ∧ seg.row.contentHash ≠ none ∧
          (markFailed source db seg error).queue.status? seg.id = some .failed)) := by
  by_cases hsame : (db.sessions.get? seg.id).map AgenticSession.contentHash =
      some seg.row.contentHash
  · refine Or.inr ⟨hsame, ?_⟩
    cases source with
    | claudeLike =>
      have h := db.markClaudeQueueFailed_singleton (seg.id, seg.row.contentHash) error hsame
      exact ⟨fun j => by simpa [markFailed] using h.sessions j, h.queue, h.store⟩
    | opencode =>
      have h := db.markOpencodeQueueFailed_singleton (seg.id, seg.row.contentHash) error hsame
      exact ⟨fun j => by simpa [markFailed] using h.sessions j, h.queue, h.store⟩
  · have hch : db.BatchChanged [(seg.id, seg.row.contentHash)] := batchChanged_singleton.mpr hsame
    refine Or.inl ⟨hsame, ?_⟩
    cases source with
    | claudeLike => simp [markFailed, markClaudeQueueFailed, hch]
    | opencode => simp [markFailed, markOpencodeQueueFailed, hch]

theorem writeNode_released {source : ClaimSource} {db db' : AgenticDb H γ} {content : γ}
    {seg : Claimed H} {vecOk : Bool} (h : writeNode source db content seg vecOk = .ok (db', none)) :
    (db.sessions.get? seg.id).map AgenticSession.contentHash ≠ some seg.row.contentHash ∧
      db' = db.releaseBatch [(seg.id, seg.row.contentHash)] := by
  cases source <;> exact writeAgentic_released h

theorem writeNode_written {source : ClaimSource} {db db' : AgenticDb H γ} {content : γ}
    {seg : Claimed H} {vecOk : Bool} {node : ℕ}
    (h : writeNode source db content seg vecOk = .ok (db', some node)) :
    Written db db' content (seg.id, seg.row.contentHash) node := by
  cases source <;> exact writeAgentic_written h

/-- No step removes a segment or changes its harness or probe tag. -/
theorem Effect.session_kept {env : Rendering H} {w w' : World H γ} {a : Action γ}
    (he : Effect env w a w') {i : ℕ} {r : AgenticSession H} (hr : w.db.sessions.get? i = some r) :
    ∃ r', w'.db.sessions.get? i = some r' ∧ r'.harness = r.harness ∧
      r'.probeTag = r.probeTag := by
  cases he with
  | upsert p =>
    simp only [Upsert.apply_sessions_get?, hr]
    by_cases hi : i = (p.upsert env).target w.db
    · exact ⟨_, if_pos hi, Upsert.refresh_harness _ r, Upsert.refresh_probeTag _ r⟩
    · exact ⟨r, if_neg hi, rfl, rfl⟩
  | sweepApply hop => exact ⟨r, by simpa using hr, rfl, rfl⟩
  | dropped hop hdrop =>
    simp only [dropSegment_sessions_get?, hr]
    split
    · exact ⟨_, rfl, rfl, rfl⟩
    · exact ⟨r, rfl, rfl, rfl⟩
  | skipped hop hskip =>
    simp only [skipSegment_sessions_get?, hr]
    split
    · exact ⟨_, rfl, rfl, rfl⟩
    · exact ⟨r, rfl, rfl, rfl⟩
  | writeReleases hop hw =>
    obtain ⟨-, rfl⟩ := writeNode_released hw
    exact ⟨r, hr, rfl, rfl⟩
  | written hop hw =>
    simp only [(writeNode_written hw).sessions, hr]
    split
    · exact ⟨_, rfl, rfl, rfl⟩
    · exact ⟨r, rfl, rfl, rfl⟩
  | failed hop =>
    rename_i k error source seg
    rcases markFailed_singleton source w.db seg error with ⟨-, heq⟩ | ⟨-, hch⟩
    · exact ⟨r, by rw [heq]; exact hr, rfl, rfl⟩
    · simp only [hch.sessions, hr]
      split
      · exact ⟨_, rfl, rfl, rfl⟩
      · exact ⟨r, rfl, rfl, rfl⟩
  | _ => exact ⟨r, hr, rfl, rfl⟩

/-- A step other than an upsert changes of a segment at most `enriched` and the
watermark, and the watermark only to the content hash the segment has. -/
theorem Effect.session_back {env : Rendering H} {w w' : World H γ} {a : Action γ}
    (he : Effect env w a w') (hquiet : ∀ p, a ≠ .upsert p) {i : ℕ} {r' : AgenticSession H}
    (hr' : w'.db.sessions.get? i = some r') : ∃ r, w.db.sessions.get? i = some r ∧
      r' = { r with
        enriched := r'.enriched, lastEnrichedContentHash := r'.lastEnrichedContentHash } ∧
      (r'.lastEnrichedContentHash = r.lastEnrichedContentHash ∨
        r'.lastEnrichedContentHash = r.contentHash) := by
  cases he with
  | upsert p => exact absurd rfl (hquiet p)
  | sweepApply hop => exact ⟨r', by simpa using hr', rfl, Or.inl rfl⟩
  | dropped hop hdrop =>
    simp only [dropSegment_sessions_get?] at hr'
    split at hr'
    · obtain ⟨r, hr, rfl⟩ := Option.map_eq_some_iff.mp hr'
      exact ⟨r, hr, rfl, Or.inl rfl⟩
    · exact ⟨r', hr', rfl, Or.inl rfl⟩
  | skipped hop hskip =>
    simp only [skipSegment_sessions_get?] at hr'
    split at hr'
    · obtain ⟨r, hr, rfl⟩ := Option.map_eq_some_iff.mp hr'
      refine ⟨r, hr, rfl, ?_⟩
      dsimp only
      split
      · rename_i hsame
        exact Or.inr hsame.2.symm
      · exact Or.inl rfl
    · exact ⟨r', hr', rfl, Or.inl rfl⟩
  | writeReleases hop hw =>
    obtain ⟨-, rfl⟩ := writeNode_released hw
    exact ⟨r', hr', rfl, Or.inl rfl⟩
  | written hop hw =>
    have hwr := writeNode_written hw
    simp only [hwr.sessions] at hr'
    split at hr'
    · rename_i hi
      obtain ⟨r, hr, rfl⟩ := Option.map_eq_some_iff.mp hr'
      have hsame := hwr.unchanged
      rw [← hi, hr, Option.map_some, Option.some.injEq] at hsame
      refine ⟨r, hr, rfl, ?_⟩
      dsimp only at hsame ⊢
      rw [← hsame]
      cases r.contentHash with
      | none => exact Or.inl rfl
      | some h => exact Or.inr rfl
    · exact ⟨r', hr', rfl, Or.inl rfl⟩
  | failed hop =>
    rename_i k error source seg
    rcases markFailed_singleton source w.db seg error with ⟨-, heq⟩ | ⟨hsame, hch⟩
    · rw [heq] at hr'
      exact ⟨r', hr', rfl, Or.inl rfl⟩
    · simp only [hch.sessions] at hr'
      split at hr'
      · rename_i hi
        obtain ⟨r, hr, rfl⟩ := Option.map_eq_some_iff.mp hr'
        rw [← hi.1, hr, Option.map_some, Option.some.injEq] at hsame
        exact ⟨r, hr, rfl, Or.inr hsame.symm⟩
      · exact ⟨r', hr', rfl, Or.inl rfl⟩
  | _ => exact ⟨r', hr', rfl, Or.inl rfl⟩

/-- What a step does to the queue row of segment `i`, with the reason. -/
inductive SegmentRow (env : Rendering H) (w : World H γ) (i : ℕ) :
    Action γ → Option QueueRow → Prop
  | same (a : Action γ) : SegmentRow env w i a (w.db.queue.get? i)
  | upserted {p new} (htarget : (p.upsert env).target w.db = i)
      (hgate : (p.upsert env).enqueues ((p.upsert env).prior w.db) = true)
      (hst : w.db.queue.status? i ≠ some .processing)
      (h : Queue.Repended (w.db.queue.get? i) new) : SegmentRow env w i (.upsert p) (some new)
  | swept {k mtime now candidates new} (hop : w.ops[k]? = some (.sweeping candidates))
      (hi : i ∈ candidates.map Prod.fst) (hst : w.db.queue.status? i ≠ some .processing)
      (h : Queue.Repended (w.db.queue.get? i) new) :
      SegmentRow env w i (.sweepApply k mtime now) (some new)
  | locked {source now staleBefore worker cwd limit q}
      (hi : i ∈ w.db.claimCandidates source cwd staleBefore limit)
      (hq : w.db.queue.get? i = some q) (hclaim : q.Claimable staleBefore) :
      SegmentRow env w i (.lock source now staleBefore worker cwd limit)
        (some (q.lock now worker))
  | closed {a q new} (hq : w.db.queue.get? i = some q) (hretry : new.retryCount = q.retryCount)
      (hmax : new.maxRetries = q.maxRetries) (hst : new.status = .done ∨ new.status = .skipped) :
      SegmentRow env w i a (some new)
  | released {a k source seg q}
      (ha : (∃ content vecOk, a = .write k content vecOk) ∨ ∃ error, a = .fail k error)
      (hop : w.ops[k]? = some (.enriching source seg)) (hi : seg.id = i)
      (hchanged : (w.db.sessions.get? i).map AgenticSession.contentHash ≠
        some seg.row.contentHash)
      (hq : w.db.queue.get? i = some q) (hst : q.status = .processing) :
      SegmentRow env w i a (some q.release)
  | charged {a q error} (hq : w.db.queue.get? i = some q) :
      SegmentRow env w i a (some (q.chargeRetry error))

/-- The report of a changed batch releases its own segment, if a worker holds it. -/
theorem segmentRow_release {env : Rendering H} {w : World H γ} {a : Action γ} {k : ℕ}
    {source : ClaimSource} {seg : Claimed H}
    (ha : (∃ content vecOk, a = .write k content vecOk) ∨ ∃ error, a = .fail k error)
    (hop : w.ops[k]? = some (.enriching source seg))
    (hchanged : (w.db.sessions.get? seg.id).map AgenticSession.contentHash ≠
      some seg.row.contentHash) (i : ℕ) :
    SegmentRow env w i a
      ((w.db.releaseBatch [(seg.id, seg.row.contentHash)]).queue.get? i) := by
  have hsame : SegmentRow env w i a (w.db.queue.get? i) := .same a
  rw [releaseBatch_queue_get?]
  by_cases hi : i = seg.id
  · rw [if_pos hi]
    cases hq : w.db.queue.get? i with
    | none =>
      rw [hq] at hsame
      exact hsame
    | some q =>
      rw [Option.map_some]
      by_cases hst : q.status = .processing
      · exact .released ha hop hi.symm (hi ▸ hchanged) hq hst
      · rw [QueueRow.release_of_not_processing hst, ← hq]
        exact hsame
  · rw [if_neg hi]
    exact hsame

/-- Every step does one of these things to the queue row of a segment. -/
theorem Effect.segmentRow {env : Rendering H} {w w' : World H γ} {a : Action γ}
    (he : Effect env w a w') (i : ℕ) : SegmentRow env w i a (w'.db.queue.get? i) := by
  have onRow : ∀ {q' : Option QueueRow} {j : ℕ} {f : QueueRow → QueueRow},
      q' = (if i = j then (w.db.queue.get? i).map f else w.db.queue.get? i) →
      (∀ q, w.db.queue.get? i = some q → SegmentRow env w i a (some (f q))) →
      SegmentRow env w i a q' := by
    intro q' j f hq' hf
    have hsame : SegmentRow env w i a (w.db.queue.get? i) := .same a
    subst hq'
    split
    · cases hq : w.db.queue.get? i with
      | none =>
        rw [hq] at hsame
        exact hsame
      | some q => exact hf q hq
    · exact hsame
  cases he with
  | upsert p =>
    rcases (p.upsert env).apply_queue_cases w.db i with h | ⟨hi, hgate, hst, r, hr, hrep⟩
    · dsimp only
      rw [h]
      exact .same _
    · dsimp only
      rw [hr]
      exact .upserted hi.symm hgate hst hrep
  | sweepApply hop =>
    rename_i k mtime now candidates
    rcases settle_queue_cases sweepMaxPerTick mtime (now - settleMs) candidates 0 w.db i
      with h | ⟨hi, hst, r, hr, hrep⟩
    · dsimp only
      rw [h]
      exact .same _
    · dsimp only
      rw [hr]
      exact .swept hop hi hst hrep
  | lock hids =>
    rename_i source now staleBefore worker cwd limit ids
    have hlocked := lockSegments_queue_get? w.db ids now worker i
    by_cases hi : i ∈ ids
    · have hcand : i ∈ w.db.claimCandidates source cwd staleBefore limit := hids ▸ hi
      obtain ⟨q, hq, hclaim, -⟩ := mem_claimCandidates hcand
      simp only [hq, hi, if_true, Option.map_some] at hlocked
      dsimp only
      rw [hlocked]
      exact .locked hcand hq hclaim
    · simp only [hi, if_false, Option.map_id'] at hlocked
      dsimp only
      rw [hlocked]
      exact .same _
  | dropped hop hdrop =>
    exact onRow (dropSegment_queue_get? _ _ _) fun q hq => .closed hq rfl rfl (Or.inl rfl)
  | skipped hop hskip =>
    exact onRow (skipSegment_queue_get? _ _ _ _) fun q hq => .closed hq rfl rfl (Or.inr rfl)
  | writeReleases hop hw =>
    obtain ⟨hchanged, rfl⟩ := writeNode_released hw
    exact segmentRow_release (Or.inl ⟨_, _, rfl⟩) hop hchanged i
  | written hop hw =>
    exact onRow ((writeNode_written hw).queue i) fun q hq => .closed hq rfl rfl (Or.inl rfl)
  | failed hop =>
    rename_i k error source seg
    rcases markFailed_singleton source w.db seg error with ⟨hchanged, heq⟩ | ⟨-, hch⟩
    · dsimp only
      rw [heq]
      exact segmentRow_release (Or.inr ⟨_, rfl⟩) hop hchanged i
    · exact onRow (hch.queue i) fun q hq => .charged hq
  | reap timeout now =>
    have hsame : SegmentRow env w i (.reap timeout now) (w.db.queue.get? i) := .same _
    dsimp only
    rw [reapStaleLocks_queue_get?]
    cases hq : w.db.queue.get? i with
    | none =>
      rw [hq] at hsame
      exact hsame
    | some q =>
      rw [Option.map_some]
      split
      · exact .charged hq
      · rw [← hq]
        exact hsame
  | _ => exact .same _

theorem SegmentRow.rowStep {env : Rendering H} {w : World H γ} {a : Action γ} {i : ℕ}
    {new : Option QueueRow} (h : SegmentRow env w i a new) : RowStep (w.db.queue.get? i) new := by
  cases h with
  | same => exact .same
  | upserted _ _ hst hrep | swept _ _ hst hrep => exact .repended hst hrep
  | locked _ hq hclaim => exact .locked hq hclaim
  | closed hq hretry hmax hst => exact .closed hq hretry hmax hst
  | released _ _ _ _ hq hst => exact .released hq hst
  | charged hq => exact .charged hq

end Writers

section Instance

/-- A rendering for concrete runs: the content hash counts the prompts. -/
def promptCount : Rendering ℕ where
  segmentHash := fun _ prompts _ => prompts.length
  opencodeHash := fun _ => 0
  timeRange := fun _ _ => ""
  summaryText := fun _ _ => ""
  opencodeSummaryText := fun _ => ""

/-- A segment with the given prompts and no tool calls. -/
def promptSegment (prompts : List String) : SessionSegment where
  sessionId := "s"
  segmentIndex := 0
  cwd := "/p"
  gitBranch := none
  sourceFile := "/t.jsonl"
  toolCalls := []
  userPrompts := prompts
  assistantTexts := []
  messageCount := prompts.length
  startTime := 1
  endTime := 2

end Instance

end Hippo.Agentic
