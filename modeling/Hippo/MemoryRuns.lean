import Hippo.MemoryStore
import Hippo.Transition

/-!
# Runs of the ingest, the lifecycle and the enrichment of memories

Every call reads outside of its transaction first, so its operation waits between its
statements while others commit. A worker's claims hold a ticket; the ghost `holder` is the
ticket of the last claim on a revision's queue row, until the reaper takes it back.
-/
namespace Hippo.Memory
open Hippo Hippo.MemoryDb Hippo.Transition

/-- A call between two of its statements. -/
inductive Op where
  | ingesting (file : MemoryFile) (seen : Option SeenDocument)
  | moving (file : MemoryFile) (document : ℕ)
  | pruning (document : ℕ) (pointers : List ℕ)
  | deletingRevisions (ids : List ℕ)
  | tombstoning (document : ℕ) (active : Option ℕ)
  | deletingNode (document : ℕ) (node : Option ℕ)
  | enriching (revision ticket : ℕ)
deriving DecidableEq

namespace Op

/-- The document a call is about to change by its id. -/
def document : Op → Option ℕ
  | ingesting _ seen => seen.map Prod.fst
  | moving _ d | tombstoning d _ | deletingNode d _ => some d
  | _ => none

def revision : Op → Option ℕ
  | enriching r _ => some r
  | _ => none

end Op

structure World (γ : Type) where
  db : MemoryDb γ
  ops : List Op := []
  holder : ℕ → Option ℕ := fun _ => none
  nextTicket : ℕ := 0

inductive Action (γ : Type) where
  | selectDocument (file : MemoryFile)
  | ingest (k : ℕ)
  | resolveRename (file : MemoryFile) (oldIsFile : Bool)
  | rename (k : ℕ)
  | selectPointers (document : ℕ)
  | selectRevisions (k : ℕ) (retention : Retention)
  | prune (k : ℕ)
  | missing (document : ℕ)
  | selectMissing (document : ℕ)
  | selectNode (k : ℕ)
  | tombstone (k : ℕ) (now : ℤ) (vecOk : Bool)
  | claim (now : ℤ) (worker : String) (limit : ℕ) (staleLockTimeout : Option ℤ)
  | write (k : ℕ) (body : γ) (vecOk : Bool)
  | fail (k : ℕ) (error : String)
  | crash (k : ℕ)
  | reap (timeout now : ℤ)
  /-- Another writer links a node to an entity. -/
  | relate (node entity : ℕ)

section Step
variable {γ : Type}

def World.init : World γ := { db := MemoryDb.empty }

/-- The end of a call with what its transaction returned; an exception rolls it back. -/
def World.commit (w : World γ) (k : ℕ) : Except PyError (MemoryDb γ) → World γ
  | .ok db => { w with db := db, ops := replaceAt w.ops k [] }
  | .error _ => w

/-- One statement or transaction; `none` when it is not enabled. -/
def step (w : World γ) : Action γ → Option (World γ)
  | .selectDocument file =>
    some { w with ops := w.ops ++ [.ingesting file (w.db.findDocument file)] }
  | .ingest k =>
    match w.ops[k]? with
    | some (.ingesting file seen) => some (w.commit k (w.db.ingest file seen))
    | _ => none
  | .resolveRename file oldIsFile =>
    (w.db.resolveRename file oldIsFile).map fun d =>
      { w with ops := w.ops ++ [.moving file d] }
  | .rename k =>
    match w.ops[k]? with
    | some (.moving file d) => some (w.commit k (w.db.rename d file))
    | _ => none
  | .selectPointers d => some { w with ops := w.ops ++ [.pruning d (w.db.pointers d)] }
  | .selectRevisions k retention =>
    match w.ops[k]? with
    | some (.pruning d pointers) => some { w with
        ops := replaceAt w.ops k [.deletingRevisions (w.db.prunable d pointers retention)] }
    | _ => none
  | .prune k =>
    match w.ops[k]? with
    | some (.deletingRevisions ids) => some (w.commit k (.ok (w.db.deleteRevisions ids)))
    | _ => none
  | .missing d => some { w with
      db := { w.db with documents := w.db.documents.modify d MemoryDocument.missing } }
  | .selectMissing d =>
    (w.db.documents.get? d).bind fun x =>
      if x.state = .tombstoned then none
      else some { w with ops := w.ops ++ [.tombstoning d x.activeRevision] }
  | .selectNode k =>
    match w.ops[k]? with
    | some (.tombstoning d active) => some { w with
        ops := replaceAt w.ops k [.deletingNode d (active.bind w.db.store.linkedNode)] }
    | _ => none
  | .tombstone k now vecOk =>
    match w.ops[k]? with
    | some (.deletingNode d node) => some (w.commit k (w.db.tombstone d node now vecOk))
    | _ => none
  | .claim now worker limit staleLockTimeout =>
    let ids := w.db.claimable (staleLockTimeout.map fun timeout => now - timeout) limit
    some {
      db := w.db.lockRevisions ids now worker
      ops := w.ops ++ ids.map fun r => .enriching r w.nextTicket
      holder := fun r => if r ∈ ids then some w.nextTicket else w.holder r
      nextTicket := w.nextTicket + 1 }
  | .write k body vecOk =>
    match w.ops[k]? with
    | some (.enriching r _) => some (w.commit k (w.db.writeMemoryKnowledgeNode r body vecOk))
    | _ => none
  | .fail k error =>
    match w.ops[k]? with
    | some (.enriching r _) => some (w.commit k (.ok (w.db.markMemoryEnrichmentFailed r error)))
    | _ => none
  | .crash k => some { w with ops := replaceAt w.ops k [] }
  | .reap timeout now =>
    let db := w.db.reapStaleLocks timeout now
    some { w with
      db := db
      holder := fun r => if db.queue.get? r = w.db.queue.get? r then w.holder r else none }
  | .relate node entity =>
    if h : node ∈ w.db.store.nodes.keys then
      some { w with
        db := { w.db with store := w.db.store.addLinks node h .entities [entity] } }
    else none

/-- What a step can do to the world. The first four constructors leave the tables alone. -/
inductive Effect (w : World γ) : Action γ → World γ → Prop
  | refused (a : Action γ) : Effect w a w
  | started {a op} (hdoc : ∀ d ∈ op.document, (w.db.documents.get? d).isSome)
      (hrev : op.revision = none) : Effect w a { w with ops := w.ops ++ [op] }
  | moved {a k old op} (hop : w.ops[k]? = some old)
      (hdoc : ∀ d ∈ op.document, d ∈ old.document) (hrev : op.revision = none) :
      Effect w a { w with ops := replaceAt w.ops k [op] }
  | ended {a} (k : ℕ) : Effect w a { w with ops := replaceAt w.ops k [] }
  | ingest {k file seen db'} (hop : w.ops[k]? = some (.ingesting file seen))
      (hdb : w.db.ingest file seen = .ok db') :
      Effect w (.ingest k) { w with db := db', ops := replaceAt w.ops k [] }
  | rename {k file d db'} (hop : w.ops[k]? = some (.moving file d))
      (hdb : w.db.rename d file = .ok db') :
      Effect w (.rename k) { w with db := db', ops := replaceAt w.ops k [] }
  | prune {k ids} (hop : w.ops[k]? = some (.deletingRevisions ids)) :
      Effect w (.prune k) { w with
        db := w.db.deleteRevisions ids
        ops := replaceAt w.ops k [] }
  | missing (d : ℕ) : Effect w (.missing d) { w with
      db := { w.db with documents := w.db.documents.modify d MemoryDocument.missing } }
  | tombstone {k d node now vecOk db'} (hop : w.ops[k]? = some (.deletingNode d node))
      (hdb : w.db.tombstone d node now vecOk = .ok db') :
      Effect w (.tombstone k now vecOk) { w with db := db', ops := replaceAt w.ops k [] }
  | claim {now worker limit staleLockTimeout ids holder} (hids : ∀ r ∈ ids, ∃ q,
      w.db.queue.get? r = some q ∧ (q.status = .pending ∨ q.status = .processing)) :
      Effect w (.claim now worker limit staleLockTimeout) {
        db := w.db.lockRevisions ids now worker
        ops := w.ops ++ ids.map fun r => .enriching r w.nextTicket
        holder := holder
        nextTicket := w.nextTicket + 1 }
  | write {k r ticket body vecOk db'} (hop : w.ops[k]? = some (.enriching r ticket))
      (hdb : w.db.writeMemoryKnowledgeNode r body vecOk = .ok db') :
      Effect w (.write k body vecOk) { w with db := db', ops := replaceAt w.ops k [] }
  | fail {k r ticket} (hop : w.ops[k]? = some (.enriching r ticket)) (error : String) :
      Effect w (.fail k error) { w with
        db := w.db.markMemoryEnrichmentFailed r error
        ops := replaceAt w.ops k [] }
  | reap {holder} (timeout now : ℤ) : Effect w (.reap timeout now) { w with
      db := w.db.reapStaleLocks timeout now
      holder := holder }
  | relate {node : ℕ} (entity : ℕ) (h : node ∈ w.db.store.nodes.keys) :
      Effect w (.relate node entity) { w with
        db := { w.db with store := w.db.store.addLinks node h .entities [entity] } }

variable {w w' : World γ} {a : Action γ}

/-- A transaction either commits or changes nothing. -/
theorem commit_effect {k : ℕ} {result : Except PyError (MemoryDb γ)}
    (h : ∀ db, result = .ok db → Effect w a { w with db := db, ops := replaceAt w.ops k [] }) :
    Effect w a (w.commit k result) := by
  cases result with
  | error e => exact .refused a
  | ok db => exact h db rfl

theorem step_effect (h : step w a = some w') : Effect w a w' := by
  cases a with
  | selectDocument file =>
    cases h
    refine .started (fun d hd => ?_) rfl
    obtain ⟨seen, hseen, rfl⟩ := Option.map_eq_some_iff.mp hd
    obtain ⟨e, he, rfl⟩ := Option.map_eq_some_iff.mp hseen
    rw [Table.get?_eq_some.mpr (List.mem_of_find?_eq_some he)]
    rfl
  | ingest k =>
    simp only [step] at h
    split at h
    · rename_i file seen hop
      cases h
      exact commit_effect fun db hdb => .ingest hop hdb
    · cases h
  | resolveRename file oldIsFile =>
    obtain ⟨d, hd, rfl⟩ := Option.map_eq_some_iff.mp h
    refine .started (fun j hj => ?_) rfl
    cases hj
    obtain ⟨x, hx⟩ := mem_resolveRename hd
    rw [hx]
    rfl
  | rename k =>
    simp only [step] at h
    split at h
    · rename_i file d hop
      cases h
      exact commit_effect fun db hdb => .rename hop hdb
    · cases h
  | selectPointers d =>
    cases h
    exact .started (fun j hj => by cases hj) rfl
  | selectRevisions k retention =>
    simp only [step] at h
    split at h
    · rename_i d pointers hop
      cases h
      exact .moved hop (fun j hj => by cases hj) rfl
    · cases h
  | prune k =>
    simp only [step] at h
    split at h
    · rename_i ids hop
      cases h
      exact .prune hop
    · cases h
  | missing d =>
    cases h
    exact .missing d
  | selectMissing d =>
    obtain ⟨x, hx, hsome⟩ := Option.bind_eq_some_iff.mp h
    split at hsome
    · cases hsome
    · cases hsome
      refine .started (fun j hj => ?_) rfl
      cases hj
      rw [hx]
      rfl
  | selectNode k =>
    simp only [step] at h
    split at h
    · rename_i d active hop
      cases h
      exact .moved hop (fun j hj => hj) rfl
    · cases h
  | tombstone k now vecOk =>
    simp only [step] at h
    split at h
    · rename_i d node hop
      cases h
      exact commit_effect fun db hdb => .tombstone hop hdb
    · cases h
  | claim now worker limit staleLockTimeout =>
    cases h
    exact .claim fun r hr => mem_claimable hr
  | write k body vecOk =>
    simp only [step] at h
    split at h
    · rename_i r ticket hop
      cases h
      exact commit_effect fun db hdb => .write hop hdb
    · cases h
  | fail k error =>
    simp only [step] at h
    split at h
    · rename_i r ticket hop
      cases h
      exact .fail hop error
    · cases h
  | crash k =>
    cases h
    exact .ended k
  | reap timeout now =>
    cases h
    exact .reap timeout now
  | relate node entity =>
    simp only [step] at h
    split at h
    · rename_i hnode
      cases h
      exact .relate entity hnode
    · cases h

end Step

section Keys
variable {γ : Type} {w w' : World γ} {a : Action γ} {db db' : MemoryDb γ}

/-- The foreign keys: pointers are to revisions of the document itself, and queue rows to
revisions that were ingested. -/
structure Keyed (db : MemoryDb γ) : Prop where
  pointers : ∀ d x c, db.documents.get? d = some x → x.PointsTo c →
    ∃ rev, db.revisions.get? c = some rev ∧ rev.documentId = d
  owner : ∀ r rev, db.revisions.get? r = some rev →
    (db.documents.get? rev.documentId).isSome
  queued : ∀ r, (db.queue.get? r).isSome →
    ∃ rev, db.revisions.get? r = some rev ∧ rev.kind.Ingested

theorem keyed_empty : Keyed (MemoryDb.empty : MemoryDb γ) where
  pointers := by
    intro d x c h
    cases h
  owner := by
    intro r rev h
    cases h
  queued := by
    intro r h
    cases h

/-- No pointer is to the next revision. -/
theorem Keyed.pointsTo_lt (h : Keyed db) {d c : ℕ} {x : MemoryDocument}
    (hx : db.documents.get? d = some x) (hc : x.PointsTo c) : c < db.revisions.nextRowid := by
  obtain ⟨rev, hrev, -⟩ := h.pointers d x c hx hc
  exact Table.lt_nextRowid (Table.mem_keys.mpr ⟨rev, hrev⟩)

theorem Keyed.queue_nextRowid (h : Keyed db) :
    db.queue.get? db.revisions.nextRowid = none := by
  cases hq : db.queue.get? db.revisions.nextRowid with
  | none => rfl
  | some q =>
    obtain ⟨rev, hrev, -⟩ := h.queued _ (Option.isSome_of_mem hq)
    rw [Table.get?_nextRowid] at hrev
    cases hrev

/-- A transaction that adds no revision. -/
theorem Keyed.frame (h : Keyed db) (hrevs : db'.revisions = db.revisions)
    (hkeep : ∀ d, (db.documents.get? d).isSome → (db'.documents.get? d).isSome)
    (hdocs : ∀ d x' c, db'.documents.get? d = some x' → x'.PointsTo c →
      (∃ x, db.documents.get? d = some x ∧ x.PointsTo c) ∨
        ∃ rev, db.revisions.get? c = some rev ∧ rev.documentId = d)
    (hqueue : ∀ r, (db'.queue.get? r).isSome → (db.queue.get? r).isSome) : Keyed db' where
  pointers := by
    intro d x' c hx' hc
    rw [hrevs]
    rcases hdocs d x' c hx' hc with ⟨x, hx, hold⟩ | hrev
    · exact h.pointers d x c hx hold
    · exact hrev
  owner := by
    intro r rev hrev
    rw [hrevs] at hrev
    exact hkeep _ (h.owner r rev hrev)
  queued := by
    intro r hr
    rw [hrevs]
    exact h.queued r (hqueue r hr)

/-- A transaction that adds one revision of a document. -/
theorem Keyed.addRow (h : Keyed db) {rev : MemoryRevision}
    (hrevs : ∀ j, db'.revisions.get? j =
      if j = db.revisions.nextRowid then some rev else db.revisions.get? j)
    (hkeep : ∀ d, (db.documents.get? d).isSome → (db'.documents.get? d).isSome)
    (howner : (db.documents.get? rev.documentId).isSome)
    (hdocs : ∀ d x' c, db'.documents.get? d = some x' → x'.PointsTo c →
      (∃ x, db.documents.get? d = some x ∧ x.PointsTo c) ∨
        (c = db.revisions.nextRowid ∧ d = rev.documentId))
    (hqueue : ∀ r, (db'.queue.get? r).isSome → (db.queue.get? r).isSome ∨
      (r = db.revisions.nextRowid ∧ rev.kind.Ingested)) : Keyed db' where
  pointers := by
    intro d x' c hx' hc
    rcases hdocs d x' c hx' hc with ⟨x, hx, hold⟩ | ⟨rfl, rfl⟩
    · obtain ⟨old, hget, hd⟩ := h.pointers d x c hx hold
      have hlt := h.pointsTo_lt hx hold
      exact ⟨old, by rw [hrevs, if_neg hlt.ne, hget], hd⟩
    · exact ⟨rev, by rw [hrevs, if_pos rfl], rfl⟩
  owner := by
    intro r old hold
    rw [hrevs] at hold
    split at hold
    · cases hold
      exact hkeep _ howner
    · exact hkeep _ (h.owner r old hold)
  queued := by
    intro r hr
    rw [hrevs]
    rcases hqueue r hr with hr | ⟨rfl, hkind⟩
    · obtain ⟨old, hget, hkind⟩ := h.queued r hr
      have hlt : r < db.revisions.nextRowid :=
        Table.lt_nextRowid (Table.mem_keys.mpr ⟨old, hget⟩)
      exact ⟨old, by rw [if_neg hlt.ne, hget], hkind⟩
    · exact ⟨rev, if_pos rfl, hkind⟩

theorem Keyed.addRevision (h : Keyed db) {d : ℕ} {file : MemoryFile}
    (hd : (db.documents.get? d).isSome) : Keyed (db.addRevision d file) := by
  obtain ⟨rev, hrevd, -, hkind, hrevs⟩ := db.addRevision_revisions_get? d file
  subst hrevd
  refine h.addRow hrevs (fun j hj => ?_) hd (fun j x' c hx' hc => ?_) fun r hr => ?_
  · rwa [MemoryDb.addRevision, Table.get?_modify_isSome]
  · obtain ⟨x, hx, ⟨rfl, rfl⟩ | ⟨-, rfl⟩⟩ := Table.eq_of_get?_modify hx'
    · rcases (x.pointsTo_advance).mp hc with hc | hc
      · exact Or.inr ⟨hc, rfl⟩
      · exact Or.inl ⟨x, hx, Or.inr hc⟩
    · exact Or.inl ⟨x', hx, hc⟩
  · obtain ⟨q, hq⟩ := Option.isSome_iff_exists.mp hr
    rcases addRevision_queue_get? h.queue_nextRowid hq with hq | hr
    · exact Or.inl (Option.isSome_of_mem hq)
    · exact Or.inr ⟨hr, hkind⟩

/-- A new row without pointers. -/
theorem Keyed.createDocument (h : Keyed db) {new : MemoryDocument}
    (hcurrent : new.currentRevision = none) (hactive : new.activeRevision = none) :
    Keyed { db with documents := db.documents.insert db.documents.nextRowid new } := by
  refine h.frame rfl (fun d hd => ?_) (fun d x' c hx' hc => ?_) fun r hr => hr
  · rw [Table.get?_insert_nextRowid]
    split
    · rfl
    · exact hd
  · rw [Table.get?_insert_nextRowid] at hx'
    split at hx'
    · cases hx'
      rcases hc with hc | hc
      · rw [hcurrent] at hc
        cases hc
      · rw [hactive] at hc
        cases hc
    · exact Or.inl ⟨x', hx', hc⟩

theorem Keyed.modifyDocument (h : Keyed db) {d : ℕ} {f : MemoryDocument → MemoryDocument}
    (hf : ∀ x c, (f x).PointsTo c → x.PointsTo c) :
    Keyed { db with documents := db.documents.modify d f } := by
  refine h.frame rfl (fun j hj => ?_) (fun j x' c hx' hc => ?_) fun r hr => hr
  · rwa [Table.get?_modify_isSome]
  · obtain ⟨x, hx, ⟨-, rfl⟩ | ⟨-, rfl⟩⟩ := Table.eq_of_get?_modify hx'
    · exact Or.inl ⟨x, hx, hf x c hc⟩
    · exact Or.inl ⟨x', hx, hc⟩

theorem Keyed.ingest (h : Keyed db) {file : MemoryFile} {seen : Option SeenDocument}
    (hseen : ∀ d ∈ seen.map Prod.fst, (db.documents.get? d).isSome)
    (hdb : db.ingest file seen = .ok db') : Keyed db' := by
  rcases ingest_cases hdb with ⟨new, -, -, hcurrent, hactive, -, rfl⟩ | ⟨d, current, rfl, hseenAgain⟩
  · refine (h.createDocument hcurrent hactive).addRevision ?_
    rw [Table.get?_insert_nextRowid, if_pos rfl]
    rfl
  · have htouched : Keyed
        { db with documents := db.documents.modify d MemoryDocument.seenAgain } :=
      h.modifyDocument fun x c hc => hc
    rcases hseenAgain with rfl | rfl
    · exact htouched
    · refine htouched.addRevision ?_
      rw [Table.get?_modify_isSome]
      exact hseen d rfl

theorem Keyed.rename (h : Keyed db) {d : ℕ} {file : MemoryFile}
    (hd : (db.documents.get? d).isSome) (hdb : db.rename d file = .ok db') : Keyed db' := by
  obtain ⟨rev, rfl, -, -, rfl⟩ := rename_ok hdb
  refine h.addRow (fun j => Table.get?_insert_nextRowid _ j rev) (fun j hj => ?_) hd
    (fun j x' c hx' hc => ?_) fun r hr => Or.inl hr
  · rwa [Table.get?_modify_isSome]
  · obtain ⟨x, hx, ⟨-, rfl⟩ | ⟨-, rfl⟩⟩ := Table.eq_of_get?_modify hx'
    · exact Or.inl ⟨x, hx, hc⟩
    · exact Or.inl ⟨x', hx, hc⟩

theorem Keyed.deleteRevisions (h : Keyed db) (ids : List ℕ) : Keyed (db.deleteRevisions ids) where
  pointers := by
    intro d x' c hx' hc
    obtain ⟨x, hx, rfl⟩ := Option.map_eq_some_iff.mp ((Table.get?_mapRows _ _ d).symm.trans hx')
    obtain ⟨hold, hids⟩ := (x.pointsTo_forget).mp hc
    obtain ⟨rev, hrev, hd⟩ := h.pointers d x c hx hold
    exact ⟨rev, Table.get?_delete_eq_some.mpr ⟨hrev, hids⟩, hd⟩
  owner := by
    intro r rev hrev
    rw [MemoryDb.deleteRevisions, Table.get?_mapRows, Option.isSome_map]
    exact h.owner r rev (Table.get?_delete_eq_some.mp hrev).1
  queued := by
    intro r hr
    obtain ⟨q, hq⟩ := Option.isSome_iff_exists.mp hr
    obtain ⟨hq, hids⟩ := Table.get?_delete_eq_some.mp hq
    obtain ⟨rev, hrev, hkind⟩ := h.queued r (Option.isSome_of_mem hq)
    exact ⟨rev, Table.get?_delete_eq_some.mpr ⟨hrev, hids⟩, hkind⟩

theorem Keyed.tombstone (h : Keyed db) {d : ℕ} {node : Option ℕ} {now : ℤ} {vecOk : Bool}
    (hd : (db.documents.get? d).isSome) (hdb : db.tombstone d node now vecOk = .ok db') :
    Keyed db' := by
  obtain ⟨rev, store, rfl, -, -, -, rfl⟩ := tombstone_ok hdb
  refine h.addRow (fun j => Table.get?_insert_nextRowid _ j rev) (fun j hj => ?_) hd
    (fun j x' c hx' hc => ?_) fun r hr => Or.inl hr
  · rwa [Table.get?_modify_isSome]
  · obtain ⟨x, hx, ⟨hj, rfl⟩ | ⟨-, rfl⟩⟩ := Table.eq_of_get?_modify hx'
    · exact Or.inr ⟨(x.pointsTo_bury).mp hc, hj⟩
    · exact Or.inl ⟨x', hx, hc⟩

theorem Keyed.write (h : Keyed db) {r : ℕ} {body : γ} {vecOk : Bool}
    (hdb : db.writeMemoryKnowledgeNode r body vecOk = .ok db') : Keyed db' := by
  have hqueue : ∀ j, ((db.queue.modify r QueueRow.finish).get? j).isSome →
      (db.queue.get? j).isSome := by
    intro j hj
    rwa [Table.get?_modify_isSome] at hj
  obtain ⟨rev, x, hrev, hx, ⟨-, -, rfl⟩ | ⟨-, store, -, rfl⟩⟩ := writeMemoryKnowledgeNode_ok hdb
  · exact h.frame rfl (fun _ hj => hj) (fun j x' c hx' hc => Or.inl ⟨x', hx', hc⟩) hqueue
  · refine h.frame rfl (fun j hj => ?_) (fun j x' c hx' hc => ?_) hqueue
    · rwa [Table.get?_modify_isSome]
    · obtain ⟨y, hy, ⟨rfl, rfl⟩ | ⟨-, rfl⟩⟩ := Table.eq_of_get?_modify hx'
      · rcases (y.pointsTo_publish).mp hc with hc | rfl
        · exact Or.inl ⟨y, hy, Or.inl hc⟩
        · exact Or.inr ⟨rev, hrev, rfl⟩
      · exact Or.inl ⟨x', hy, hc⟩

/-- An `UPDATE` of documents and queue rows that moves no pointer. -/
theorem Keyed.updateRows (h : Keyed db) {p : ℕ → MemoryDocument → Prop}
    [∀ j x, Decidable (p j x)] {f : MemoryDocument → MemoryDocument}
    (hf : ∀ x c, (f x).PointsTo c → x.PointsTo c) {queue : Queue}
    (hqueue : ∀ r, (queue.get? r).isSome → (db.queue.get? r).isSome) :
    Keyed { db with queue := queue, documents := db.documents.update p f } := by
  refine h.frame rfl (fun j hj => ?_) (fun j x' c hx' hc => ?_) hqueue
  · rwa [Table.get?_update_isSome]
  · obtain ⟨x, hx, ⟨-, rfl⟩ | ⟨-, rfl⟩⟩ := Table.eq_of_get?_update hx'
    · exact Or.inl ⟨x, hx, hf x c hc⟩
    · exact Or.inl ⟨x', hx, hc⟩

/-- What holds of the tables and the calls in every reachable state. -/
structure World.Keyed (w : World γ) : Prop where
  db : Memory.Keyed w.db
  ops : ∀ op ∈ w.ops, ∀ d ∈ op.document, (w.db.documents.get? d).isSome

theorem ingest_documents_isSome {file : MemoryFile} {seen : Option SeenDocument} {d : ℕ}
    (hdb : db.ingest file seen = .ok db') (hd : (db.documents.get? d).isSome) :
    (db'.documents.get? d).isSome := by
  rcases ingest_cases hdb with ⟨new, -, -, -, -, -, rfl⟩ | ⟨j, current, -, rfl | rfl⟩
  · rw [MemoryDb.addRevision, Table.get?_modify_isSome, Table.get?_insert_nextRowid]
    split
    · rfl
    · exact hd
  · rwa [Table.get?_modify_isSome]
  · rwa [MemoryDb.addRevision, Table.get?_modify_isSome, Table.get?_modify_isSome]

/-- Documents are never deleted. -/
theorem documents_isSome_of_effect (he : Effect w a w') {d : ℕ}
    (hd : (w.db.documents.get? d).isSome) : (w'.db.documents.get? d).isSome := by
  cases he with
  | ingest hop hdb => exact ingest_documents_isSome hdb hd
  | rename hop hdb =>
    obtain ⟨rev, -, -, -, rfl⟩ := rename_ok hdb
    rwa [Table.get?_modify_isSome]
  | prune hop =>
    rwa [MemoryDb.deleteRevisions, Table.get?_mapRows, Option.isSome_map]
  | missing d => rwa [Table.get?_modify_isSome]
  | tombstone hop hdb =>
    obtain ⟨rev, store, -, -, -, -, rfl⟩ := tombstone_ok hdb
    rwa [Table.get?_modify_isSome]
  | claim hids => rwa [MemoryDb.lockRevisions, Table.get?_update_isSome]
  | write hop hdb =>
    obtain ⟨rev, x, -, -, ⟨-, -, rfl⟩ | ⟨-, store, -, rfl⟩⟩ := writeMemoryKnowledgeNode_ok hdb
    · exact hd
    · rwa [Table.get?_modify_isSome]
  | fail hop error => rwa [MemoryDb.markMemoryEnrichmentFailed, Table.get?_update_isSome]
  | _ => exact hd

theorem Keyed.effect (h : w.Keyed) (he : Effect w a w') : Keyed w'.db := by
  have hdoc : ∀ {k : ℕ} {op : Op}, w.ops[k]? = some op → ∀ d ∈ op.document,
      (w.db.documents.get? d).isSome := fun hop => h.ops _ (List.mem_of_getElem? hop)
  cases he with
  | ingest hop hdb => exact h.db.ingest (hdoc hop) hdb
  | rename hop hdb => exact h.db.rename (hdoc hop _ rfl) hdb
  | prune hop => exact h.db.deleteRevisions _
  | missing d => exact h.db.modifyDocument fun x c hc => hc
  | tombstone hop hdb => exact h.db.tombstone (hdoc hop _ rfl) hdb
  | claim hids =>
    refine h.db.updateRows (f := MemoryDocument.lock) (fun x c hc => hc) fun r hr => ?_
    rwa [Table.get?_update_isSome] at hr
  | write hop hdb => exact h.db.write hdb
  | fail hop error =>
    refine h.db.updateRows (f := MemoryDocument.markFailed) (fun x c hc => hc) fun r hr => ?_
    rwa [Table.get?_modify_isSome] at hr
  | reap timeout now =>
    refine h.db.frame rfl (fun _ hd => hd) (fun d x c hx hc => Or.inl ⟨x, hx, hc⟩) fun r hr => ?_
    rwa [MemoryDb.reapStaleLocks, Queue.reapStaleLocks, Table.get?_update_isSome] at hr
  | relate entity hnode =>
    exact h.db.frame rfl (fun _ hd => hd) (fun d x c hx hc => Or.inl ⟨x, hx, hc⟩) fun r hr => hr
  | _ => exact h.db

/-- A call after a step is one from before, a new one, or one that moved on. -/
theorem op_of_effect (he : Effect w a w') {op : Op} (hop : op ∈ w'.ops) :
    op ∈ w.ops ∨
      (op.revision = none ∧ ∀ d ∈ op.document, (w.db.documents.get? d).isSome ∨
        ∃ old ∈ w.ops, d ∈ old.document) ∨
      ∃ r ticket, op = .enriching r ticket ∧ (w.db.queue.get? r).isSome := by
  have ended : ∀ {k}, op ∈ replaceAt w.ops k [] → op ∈ w.ops := by
    intro k h
    rcases mem_replaceAt h with h | h
    · exact h
    · cases h
  cases he with
  | refused | missing | reap | relate => exact Or.inl hop
  | started hdoc hrev =>
    rcases List.mem_append.mp hop with hop | hop
    · exact Or.inl hop
    · rw [List.mem_singleton.mp hop]
      exact Or.inr (Or.inl ⟨hrev, fun d hd => Or.inl (hdoc d hd)⟩)
  | moved hold hdoc hrev =>
    rcases mem_replaceAt hop with hop | hop
    · exact Or.inl hop
    · rw [List.mem_singleton.mp hop]
      exact Or.inr (Or.inl ⟨hrev, fun d hd =>
        Or.inr ⟨_, List.mem_of_getElem? hold, hdoc d hd⟩⟩)
  | claim hids =>
    rcases List.mem_append.mp hop with hop | hop
    · exact Or.inl hop
    · obtain ⟨r, hr, rfl⟩ := List.mem_map.mp hop
      obtain ⟨q, hq, -⟩ := hids r hr
      exact Or.inr (Or.inr ⟨r, _, rfl, Option.isSome_of_mem hq⟩)
  | _ => exact Or.inl (ended hop)

theorem World.Keyed.effect (h : w.Keyed) (he : Effect w a w') : w'.Keyed where
  db := Memory.Keyed.effect h he
  ops := by
    intro op hop d hd
    refine documents_isSome_of_effect he ?_
    rcases op_of_effect he hop with hold | ⟨-, hdoc⟩ | ⟨r, ticket, rfl, -⟩
    · exact h.ops op hold d hd
    · rcases hdoc d hd with hdoc | ⟨old, hold, hdoc⟩
      · exact hdoc
      · exact h.ops old hold d hdoc
    · cases hd

theorem keyed_of_reaches (h : Reaches step World.init w) : w.Keyed := by
  refine h.invariant (fun s a t hs _ hstep => hs.effect (step_effect hstep)) ⟨keyed_empty, ?_⟩
  intro op hop
  cases hop

end Keys

end Hippo.Memory
