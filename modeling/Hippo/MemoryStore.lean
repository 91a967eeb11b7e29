import Hippo.EnrichmentQueue
import Hippo.KnowledgeStore

/-!
# Memory documents, their revisions and their projections

A memory file is a document with revisions. The document points to its current revision,
the newest one ingested, and to its active one, whose knowledge node is the document's
projection. The functions are the transactions of the ingest, the rename resolution, the
pruning, the tombstone and the enrichment workers. A chunk is represented by the revision
it belongs to, so a node has one link to the revision for each of its chunks.
-/
namespace Hippo

/-- What the `uuid5` of a document hashes. -/
structure DocumentUuid where
  repository : String
  logicalPath : String
deriving DecidableEq

/-- What the `uuid5` of a projection node hashes. -/
structure ProjectionUuid where
  document : DocumentUuid
  revision : ℕ
deriving DecidableEq

structure MemoryNode (γ : Type) where
  uuid : ProjectionUuid
  body : γ

inductive DocumentState where
  | active
  | tombstoned
  | unavailable
deriving DecidableEq

inductive ProjectionStatus where
  | pending
  | processing
  | ready
  | failed
  | stale
deriving DecidableEq

/-- `memory_documents`. -/
structure MemoryDocument where
  uuid : DocumentUuid
  repository : String
  logicalPath : String
  state : DocumentState := .active
  projectionStatus : ProjectionStatus := .pending
  currentRevision : Option ℕ := none
  activeRevision : Option ℕ := none
deriving DecidableEq

/-- `memory_revisions.change_kind`. -/
inductive ChangeKind where
  | create
  | update
  | rename
  | delete
deriving DecidableEq

/-- `memory_revisions`, with the contents of its `memory_chunks`. -/
structure MemoryRevision where
  documentId : ℕ
  number : ℕ
  contentHash : String
  kind : ChangeKind
  chunks : List String := []
  createdAt : ℤ

/-! The assignments of the `UPDATE` statements on a document. -/

namespace MemoryDocument

/-- The file is there (again). -/
def seenAgain (x : MemoryDocument) : MemoryDocument := { x with state := .active }

/-- `reconcile_missing_source`: the file was missing once. -/
def missing (x : MemoryDocument) : MemoryDocument := { x with state := .unavailable }

/-- A new revision was ingested. -/
def advance (id : ℕ) (status : ProjectionStatus) (x : MemoryDocument) : MemoryDocument :=
  { x with currentRevision := some id, projectionStatus := status }

def renameTo (logicalPath : String) (x : MemoryDocument) : MemoryDocument :=
  { x with logicalPath := logicalPath, state := .active }

/-- The tombstone, with its `delete` revision as the current one. -/
def bury (id : ℕ) (x : MemoryDocument) : MemoryDocument :=
  { x with
    state := .tombstoned
    activeRevision := none
    projectionStatus := .stale
    currentRevision := some id }

/-- `ON DELETE SET NULL` of the two pointers. -/
def forget (ids : List ℕ) (x : MemoryDocument) : MemoryDocument :=
  { x with
    currentRevision := x.currentRevision.filter fun r => r ∉ ids
    activeRevision := x.activeRevision.filter fun r => r ∉ ids }

/-- A revision of the document was claimed. -/
def lock (x : MemoryDocument) : MemoryDocument := { x with projectionStatus := .processing }

def publish (revision : ℕ) (x : MemoryDocument) : MemoryDocument :=
  { x with activeRevision := some revision, projectionStatus := .ready }

/-- A failed enrichment, which keeps the last good projection. -/
def markFailed (x : MemoryDocument) : MemoryDocument :=
  { x with projectionStatus := if x.activeRevision = none then .failed else .stale }

section Pointers

variable (x : MemoryDocument) {c : ℕ}

/-- One of the two pointers of the document is to the revision. -/
def PointsTo (c : ℕ) : Prop := x.currentRevision = some c ∨ x.activeRevision = some c

theorem pointsTo_advance {id : ℕ} {status : ProjectionStatus} :
    (x.advance id status).PointsTo c ↔ c = id ∨ x.activeRevision = some c := by
  simp only [PointsTo, advance, Option.some.injEq, eq_comm]

theorem pointsTo_bury {id : ℕ} : (x.bury id).PointsTo c ↔ c = id := by
  simp [PointsTo, bury, eq_comm]

theorem pointsTo_publish {r : ℕ} :
    (x.publish r).PointsTo c ↔ x.currentRevision = some c ∨ c = r := by
  simp only [PointsTo, publish, Option.some.injEq, eq_comm]

theorem pointsTo_forget {ids : List ℕ} : (x.forget ids).PointsTo c ↔ x.PointsTo c ∧ c ∉ ids := by
  simp only [PointsTo, forget, Option.filter_eq_some_iff, decide_eq_true_eq]
  tauto

end Pointers

end MemoryDocument

def ChangeKind.Ingested (kind : ChangeKind) : Prop := kind = .create ∨ kind = .update

/-- An ingested file, with what the chunker makes of its redacted text: nothing, when the
text is empty or only white space. -/
structure MemoryFile where
  repository : String
  logicalPath : String
  contentHash : String
  chunks : List String
  observedAt : ℤ
deriving DecidableEq

def MemoryFile.uuid (file : MemoryFile) : DocumentUuid := ⟨file.repository, file.logicalPath⟩

/-- `PROBE_REPOSITORY`. -/
def probeRepository : String := "hippo/__hippo_probe__"

namespace KnowledgeStore

variable {γ δ : Type}

/-- The node with rowid `n` has the given uuid. -/
def NodeAt (st : KnowledgeStore (MemoryNode γ)) (n : ℕ) (uuid : ProjectionUuid) : Prop :=
  ∃ node, st.nodes.get? n = some node ∧ node.content.uuid = uuid

/-- `INSERT OR IGNORE` by uuid, and the `SELECT` of the node's id. -/
def mint (st : KnowledgeStore (MemoryNode γ)) (node : MemoryNode γ) :
    KnowledgeStore (MemoryNode γ) × ℕ :=
  match st.nodes.entries.find? fun e => e.2.content.uuid = node.uuid with
  | some e => (st, e.1)
  | none => (st.insertLinked ⟨.observation, node⟩ .memoryChunks [], st.nodes.nextRowid)

/-- Replaces the chunk links of a node by one for each chunk of the revision. -/
def linkChunks (st : KnowledgeStore δ) (node revision : ℕ) (chunks : List String) :
    KnowledgeStore δ :=
  let cleared := st.filterLinks fun l => ¬ (l.table = .memoryChunks ∧ l.node = node)
  if h : node ∈ cleared.nodes.keys then
    cleared.addLinks node h .memoryChunks (chunks.map fun _ => revision)
  else cleared

/-- The first node that is linked to a chunk of the revision. -/
def linkedNode (st : KnowledgeStore δ) (revision : ℕ) : Option ℕ :=
  (st.links.find? fun l => l.table = .memoryChunks ∧ l.target = revision).map Link.node

/-- The deletion of the node of a superseded revision, refused without the vector table. -/
def deleteSuperseded (st : KnowledgeStore (MemoryNode γ)) (revision : ℕ) (vecOk : Bool) :
    Except PyError (KnowledgeStore (MemoryNode γ)) :=
  match st.linkedNode revision with
  | none => .ok st
  | some node =>
    if vecOk then .ok (st.deleteNode node)
    else .error (.runtimeError ("write_memory_knowledge_node: vec0 knowledge_vectors not " ++
      "reachable; refusing to delete the superseded node to avoid an orphan vector " ++
      "(load sqlite-vec on this connection)"))

/-- The `DELETE`s of `_delete_projection_for_revision`: a link of another junction table
blocks them, and the vector stays without the vector table. -/
def deleteProjection (st : KnowledgeStore δ) (node : ℕ) (vecOk : Bool) :
    Except PyError (KnowledgeStore δ) :=
  if ∃ l ∈ st.links, l.node = node ∧ l.table ≠ .memoryChunks then .error .integrityError
  else
    let deleted := st.deleteNode node
    .ok { deleted with vectors := if vecOk then deleted.vectors else st.vectors }

section Specs

variable {st st' : KnowledgeStore (MemoryNode γ)} {node n m : ℕ} {p : ProjectionUuid}

instance (st : KnowledgeStore (MemoryNode γ)) (n : ℕ) (p : ProjectionUuid) :
    Decidable (st.NodeAt n p) :=
  decidable_of_iff (∃ node ∈ st.nodes.get? n, node.content.uuid = p) Iff.rfl

theorem nodeAt_mem_keys (h : st.NodeAt n p) : n ∈ st.nodes.keys :=
  have ⟨node, hnode, _⟩ := h
  Table.mem_keys.mpr ⟨node, hnode⟩

theorem nodeAt_deleteNode : (st.deleteNode m).NodeAt n p ↔ st.NodeAt n p ∧ n ≠ m := by
  simp only [NodeAt, get?_deleteNode]
  constructor
  · rintro ⟨node, ⟨hget, hne⟩, huuid⟩
    exact ⟨⟨node, hget, huuid⟩, hne⟩
  · rintro ⟨⟨node, hget, huuid⟩, hne⟩
    exact ⟨node, ⟨hget, hne⟩, huuid⟩

/-- After `mint` there is a node with the uuid, at the returned id; nothing else changed. -/
theorem nodeAt_mint {new : MemoryNode γ} :
    (st.mint new).1.NodeAt n p ↔ st.NodeAt n p ∨ (n = (st.mint new).2 ∧ p = new.uuid) := by
  cases hfind : st.nodes.entries.find? fun e => e.2.content.uuid = new.uuid with
  | some e =>
    have hmint : st.mint new = (st, e.1) := by simp only [mint, hfind]
    have huuid : e.2.content.uuid = new.uuid := by simpa using List.find?_some hfind
    have hget : st.nodes.get? e.1 = some e.2 :=
      Table.get?_eq_some.mpr (List.mem_of_find?_eq_some hfind)
    rw [hmint]
    constructor
    · exact Or.inl
    · rintro (h | ⟨rfl, rfl⟩)
      · exact h
      · exact ⟨e.2, hget, huuid⟩
  | none =>
    have hmint : st.mint new =
        (st.insertLinked ⟨.observation, new⟩ .memoryChunks [], st.nodes.nextRowid) := by
      simp only [mint, hfind]
    rw [hmint]
    simp only [NodeAt, insertLinked_nodes, Table.get?_insert_nextRowid]
    constructor
    · rintro ⟨node, hget, huuid⟩
      split at hget
      · rename_i hn
        cases hget
        exact Or.inr ⟨hn, huuid.symm⟩
      · exact Or.inl ⟨node, hget, huuid⟩
    · rintro (⟨node, hget, huuid⟩ | ⟨hn, hp⟩)
      · have hlt : n < st.nodes.nextRowid :=
          Table.lt_nextRowid (Table.mem_keys.mpr ⟨node, hget⟩)
        exact ⟨node, by rw [if_neg hlt.ne, hget], huuid⟩
      · exact ⟨⟨.observation, new⟩, if_pos hn, hp.symm⟩

/-- A node that has the uuid already is the one `mint` returns. -/
theorem nodeAt_mint_id {new : MemoryNode γ} (h : st.NodeAt n new.uuid) :
    st.NodeAt (st.mint new).2 new.uuid := by
  obtain ⟨node, hget, huuid⟩ := h
  have hfound : (st.nodes.entries.find? fun e => e.2.content.uuid = new.uuid).isSome :=
    List.find?_isSome.mpr ⟨(n, node), Table.get?_eq_some.mp hget, by simpa using huuid⟩
  obtain ⟨e, he⟩ := Option.isSome_iff_exists.mp hfound
  have hmint : st.mint new = (st, e.1) := by simp only [mint, he]
  rw [hmint]
  exact ⟨e.2, Table.get?_eq_some.mpr (List.mem_of_find?_eq_some he),
    by simpa using List.find?_some he⟩

theorem nodeAt_inj {q : ProjectionUuid} (h : st.NodeAt n p) (h' : st.NodeAt n q) : p = q := by
  obtain ⟨node, hget, rfl⟩ := h
  obtain ⟨node', hget', rfl⟩ := h'
  rw [hget, Option.some.injEq] at hget'
  rw [hget']

theorem mint_links (new : MemoryNode γ) : (st.mint new).1.links = st.links := by
  unfold mint
  split
  · rfl
  · exact List.append_nil _

theorem deleteSuperseded_cases {revision : ℕ} {vecOk : Bool}
    (h : st.deleteSuperseded revision vecOk = .ok st') :
    (st.linkedNode revision = none ∧ st' = st) ∨
      ∃ n, st.linkedNode revision = some n ∧ st' = st.deleteNode n := by
  unfold deleteSuperseded at h
  split at h
  · rename_i hnone
    cases h
    exact Or.inl ⟨hnone, rfl⟩
  · rename_i n hsome
    split at h
    · cases h
      exact Or.inr ⟨n, hsome, rfl⟩
    · cases h

end Specs

section Chunks

variable {st st' : KnowledgeStore δ} {node n : ℕ}

@[simp] theorem linkChunks_nodes (revision : ℕ) (chunks : List String) :
    (st.linkChunks node revision chunks).nodes = st.nodes := by
  unfold linkChunks
  dsimp only
  split <;> rfl

theorem mem_linkChunks {revision : ℕ} {chunks : List String} {l : Link}
    (h : node ∈ st.nodes.keys) : l ∈ (st.linkChunks node revision chunks).links ↔
      (l ∈ st.links ∧ ¬ (l.table = .memoryChunks ∧ l.node = node)) ∨
        (chunks ≠ [] ∧ l = ⟨.memoryChunks, node, revision⟩) := by
  have hkeys : node ∈ (st.filterLinks fun l =>
      ¬ (l.table = .memoryChunks ∧ l.node = node)).nodes.keys := h
  unfold linkChunks
  dsimp only
  rw [dif_pos hkeys]
  simp only [addLinks, List.mem_append, mem_filterLinks, List.mem_map]
  refine or_congr_right ⟨?_, ?_⟩
  · rintro ⟨i, ⟨chunk, hchunk, rfl⟩, rfl⟩
    exact ⟨List.ne_nil_of_mem hchunk, rfl⟩
  · rintro ⟨hne, rfl⟩
    obtain ⟨chunk, hchunk⟩ := List.exists_mem_of_ne_nil chunks hne
    exact ⟨revision, ⟨chunk, hchunk, rfl⟩, rfl⟩

theorem linkedNode_eq_some {revision : ℕ} (h : st.linkedNode revision = some n) :
    ⟨.memoryChunks, n, revision⟩ ∈ st.links := by
  obtain ⟨l, hl, rfl⟩ := Option.map_eq_some_iff.mp h
  have hmem : l ∈ st.links := List.mem_of_find?_eq_some hl
  have hprop : l.table = .memoryChunks ∧ l.target = revision := by
    simpa using List.find?_some hl
  obtain ⟨table, node, target⟩ := l
  obtain ⟨rfl, rfl⟩ := hprop
  exact hmem

theorem linkedNode_isSome {revision : ℕ} (h : ⟨.memoryChunks, n, revision⟩ ∈ st.links) :
    ∃ m, st.linkedNode revision = some m := by
  have hfound : (st.links.find? fun l => l.table = .memoryChunks ∧ l.target = revision).isSome :=
    List.find?_isSome.mpr ⟨_, h, by simp⟩
  obtain ⟨l, hl⟩ := Option.isSome_iff_exists.mp hfound
  exact ⟨l.node, Option.map_eq_some_iff.mpr ⟨l, hl, rfl⟩⟩

theorem deleteProjection_ok {vecOk : Bool} (h : st.deleteProjection node vecOk = .ok st') :
    st'.nodes = (st.deleteNode node).nodes ∧ st'.links = (st.deleteNode node).links := by
  unfold deleteProjection at h
  split at h
  · cases h
  · cases h
    exact ⟨rfl, rfl⟩

end Chunks

end KnowledgeStore

/-- The memory tables, their queue (keyed by revision) and the knowledge store. -/
structure MemoryDb (γ : Type) where
  documents : Table ℕ MemoryDocument
  revisions : Table ℕ MemoryRevision
  queue : Queue
  store : KnowledgeStore (MemoryNode γ)

/-- The `seen` data of an ingest: the document it found, and its current revision. -/
abbrev SeenDocument := ℕ × Option ℕ

/-- `RevisionRetention`, with the age as the oldest creation time to keep. -/
structure Retention where
  maxCount : ℕ
  cutoff : ℤ

namespace MemoryDb

variable {γ : Type}

def empty : MemoryDb γ := ⟨Table.empty, Table.empty, Table.empty, KnowledgeStore.empty⟩

/-- `COALESCE(MAX(revision_number), 0) + 1` of a document. -/
def nextNumber (db : MemoryDb γ) (d : ℕ) : ℕ :=
  ((db.revisions.select fun _ r => r.documentId = d).map fun e => e.2.number).foldr max 0 + 1

section Ingest

/-- The `SELECT` before the ingest transaction. -/
def findDocument (db : MemoryDb γ) (file : MemoryFile) : Option SeenDocument :=
  (db.documents.entries.find? fun e =>
      e.2.repository = file.repository ∧ e.2.logicalPath = file.logicalPath).map
    fun e => (e.1, e.2.currentRevision)

/-- The new revision of a changed document: its row, its queue row unless it is a probe's,
and the document's pointer. -/
def addRevision (db : MemoryDb γ) (d : ℕ) (file : MemoryFile) : MemoryDb γ :=
  let id := db.revisions.nextRowid
  let number := db.nextNumber d
  let kind := if number = 1 then .create else .update
  let isProbe := file.repository = probeRepository
  ⟨db.documents.modify d (MemoryDocument.advance id (if isProbe then .ready else .pending)),
    db.revisions.insert id ⟨d, number, file.contentHash, kind, file.chunks, file.observedAt⟩,
    if isProbe then db.queue else db.queue.insert id { id := db.queue.nextId },
    db.store⟩

/-- The transaction of `ingest_memory_file`, for the document it saw before. -/
def ingest (db : MemoryDb γ) (file : MemoryFile) (seen : Option SeenDocument) :
    Except PyError (MemoryDb γ) :=
  match seen with
  | none =>
    if ∃ e ∈ db.documents.entries, e.2.uuid = file.uuid ∨
        (e.2.repository = file.repository ∧ e.2.logicalPath = file.logicalPath) then
      .error .integrityError
    else
      let d := db.documents.nextRowid
      let new : MemoryDocument := ⟨file.uuid, file.repository, file.logicalPath, .active,
        .pending, none, none⟩
      let created := { db with documents := db.documents.insert d new }
      .ok (created.addRevision d file)
  | some (d, current) =>
    let touched := { db with documents := db.documents.modify d MemoryDocument.seenAgain }
    if (current.bind db.revisions.get?).map MemoryRevision.contentHash = some file.contentHash
    then .ok touched
    else .ok (touched.addRevision d file)

/-- The `SELECT` of `try_resolve_rename`: the only other document whose current content is
the file's, if its old path is gone. -/
def resolveRename (db : MemoryDb γ) (file : MemoryFile) (oldIsFile : Bool) : Option ℕ :=
  match db.documents.entries.filter fun e =>
      e.2.repository = file.repository ∧ e.2.logicalPath ≠ file.logicalPath ∧
        (e.2.currentRevision.bind db.revisions.get?).map MemoryRevision.contentHash =
          some file.contentHash ∧ (e.2.state = .active ∨ e.2.state = .unavailable) with
  | [e] => if oldIsFile then none else some e.1
  | _ => none

/-- The transaction of `try_resolve_rename`. -/
def rename (db : MemoryDb γ) (d : ℕ) (file : MemoryFile) : Except PyError (MemoryDb γ) :=
  if ∃ e ∈ db.documents.entries, e.1 ≠ d ∧ e.2.repository = file.repository ∧
      e.2.logicalPath = file.logicalPath then .error .integrityError
  else
    let renamed : MemoryRevision :=
      ⟨d, db.nextNumber d, file.contentHash, .rename, [], file.observedAt⟩
    .ok { db with
      documents := db.documents.modify d (MemoryDocument.renameTo file.logicalPath)
      revisions := db.revisions.insert db.revisions.nextRowid renamed }

end Ingest

section Lifecycle

/-- The two pointers `prune_document_revisions` protects. -/
def pointers (db : MemoryDb γ) (d : ℕ) : List ℕ :=
  ((db.documents.get? d).map fun x =>
    x.currentRevision.toList ++ x.activeRevision.toList).getD []

/-- The loop of `prune_document_revisions`: oldest first, until few enough are left. -/
def pruneLoop (total maxCount : ℕ) : List ℕ → List ℕ → List ℕ
  | deletable, [] => deletable
  | deletable, r :: surviving =>
    if maxCount < total - deletable.length then
      pruneLoop total maxCount (deletable ++ [r]) surviving
    else deletable

/-- The revisions `prune_document_revisions` deletes, for the pointers it read. -/
def prunable (db : MemoryDb γ) (d : ℕ) (pointers : List ℕ) (retention : Retention) : List ℕ :=
  let revisions := orderBy (fun e => (e.2.number : ℤ))
    (db.revisions.select fun _ r => r.documentId = d)
  let expired := (revisions.filter fun e =>
    e.1 ∉ pointers ∧ e.2.createdAt < retention.cutoff).map Prod.fst
  let surviving := (revisions.filter fun e =>
    e.1 ∉ expired ∧ e.1 ∉ pointers).map Prod.fst
  pruneLoop revisions.length retention.maxCount expired surviving

/-- `DELETE FROM memory_revisions` with its cascades: queue rows, chunks and their links go,
pointers become `NULL`. -/
def deleteRevisions (db : MemoryDb γ) (ids : List ℕ) : MemoryDb γ :=
  ⟨db.documents.mapRows fun _ => MemoryDocument.forget ids,
    db.revisions.delete fun r _ => r ∈ ids,
    db.queue.delete fun r _ => r ∈ ids,
    db.store.filterLinks fun l => ¬ (l.table = .memoryChunks ∧ l.target ∈ ids)⟩

/-- The transaction of `tombstone_document`, for the node it found before. -/
def tombstone (db : MemoryDb γ) (d : ℕ) (node : Option ℕ) (now : ℤ) (vecOk : Bool) :
    Except PyError (MemoryDb γ) := do
  let store ← match node with
    | none => .ok db.store
    | some n => db.store.deleteProjection n vecOk
  let id := db.revisions.nextRowid
  return ⟨db.documents.modify d (MemoryDocument.bury id),
    db.revisions.insert id ⟨d, db.nextNumber d, "", .delete, [], now⟩, db.queue, store⟩

end Lifecycle

section Enrichment

/-- The rows of the claim's `SELECT`; stale locks count only with a timeout. -/
def claimable (db : MemoryDb γ) (staleBefore : Option ℤ) (limit : ℕ) : List ℕ :=
  let rows := db.queue.select fun _ q => q.status = .pending ∨
    ∃ before ∈ staleBefore, q.status = .processing ∧ q.lockedBefore before
  let enqueuedAt := fun e : ℕ × QueueRow =>
    ((db.revisions.get? e.1).map MemoryRevision.createdAt).getD 0
  ((orderBy enqueuedAt rows).take limit).map Prod.fst

/-- The two `UPDATE`s of `claim_pending_memories`. -/
def lockRevisions (db : MemoryDb γ) (ids : List ℕ) (now : ℤ) (worker : String) : MemoryDb γ :=
  { db with
    queue := db.queue.update (fun r _ => r ∈ ids) (QueueRow.lock now worker)
    documents := db.documents.update (fun _ x => ∃ r ∈ x.currentRevision, r ∈ ids)
      MemoryDocument.lock }

/-- The store after the node of a revision was published in the place of the one the
document had before. -/
def publishedStore (db : MemoryDb γ) (id : ℕ) (revision : MemoryRevision)
    (document : MemoryDocument) (body : γ) (vecOk : Bool) :
    Except PyError (KnowledgeStore (MemoryNode γ)) :=
  let minted := db.store.mint ⟨⟨document.uuid, id⟩, body⟩
  let linked := minted.1.linkChunks minted.2 id revision.chunks
  match document.activeRevision with
  | none => .ok linked
  | some old => if old = id then .ok linked else linked.deleteSuperseded old vecOk

/-- `write_memory_knowledge_node`: a superseded result only retires its queue row. -/
def writeMemoryKnowledgeNode (db : MemoryDb γ) (revisionId : ℕ) (body : γ) (vecOk : Bool) :
    Except PyError (MemoryDb γ) :=
  match (db.revisions.get? revisionId).bind fun r =>
      (db.documents.get? r.documentId).map fun x => (r, x) with
  | none => .error (.valueError ("memory revision does not exist: " ++ toString revisionId))
  | some (revision, document) =>
    let queue := db.queue.modify revisionId QueueRow.finish
    if document.currentRevision ≠ none ∧ document.currentRevision ≠ some revisionId then
      .ok { db with queue := queue }
    else do
      let store ← db.publishedStore revisionId revision document body vecOk
      return ⟨db.documents.modify revision.documentId (MemoryDocument.publish revisionId),
        db.revisions, queue, store⟩

/-- `mark_memory_enrichment_failed`: it goes by the revision id alone. -/
def markMemoryEnrichmentFailed (db : MemoryDb γ) (revisionId : ℕ) (error : String) :
    MemoryDb γ :=
  { db with
    queue := db.queue.modify revisionId (QueueRow.chargeRetry error)
    documents := db.documents.update (fun _ x => x.currentRevision = some revisionId)
      MemoryDocument.markFailed }

/-- `reap_stale_locks` on the memory queue. -/
def reapStaleLocks (db : MemoryDb γ) (timeout now : ℤ) : MemoryDb γ :=
  { db with queue := db.queue.reapStaleLocks timeout now }

end Enrichment

section Specs

variable {db db' : MemoryDb γ} {d j r : ℕ} {file : MemoryFile}

theorem lt_nextNumber {rev : MemoryRevision} (h : db.revisions.get? r = some rev)
    (hd : rev.documentId = d) : rev.number < db.nextNumber d := by
  refine Nat.lt_succ_of_le (Table.le_foldr_max ?_)
  exact List.mem_map.mpr ⟨(r, rev), Table.mem_select.mpr ⟨h, hd⟩, rfl⟩

/-- `addRevision` points the document to a new last revision. -/
theorem addRevision_documents_get? (db : MemoryDb γ) (d j : ℕ) (file : MemoryFile) :
    ∃ status, (db.addRevision d file).documents.get? j =
    if j = d then (db.documents.get? j).map (MemoryDocument.advance db.revisions.nextRowid status)
    else db.documents.get? j :=
  ⟨_, Table.get?_modify db.documents d j _⟩

theorem addRevision_revisions_get? (db : MemoryDb γ) (d : ℕ) (file : MemoryFile) : ∃ rev, rev.documentId = d ∧ rev.number = db.nextNumber d ∧
    rev.kind.Ingested ∧ ∀ j, (db.addRevision d file).revisions.get? j =
      if j = db.revisions.nextRowid then some rev else db.revisions.get? j := by
  refine ⟨_, rfl, rfl, ?_, fun j => Table.get?_insert_nextRowid db.revisions j _⟩
  dsimp only
  split
  · exact Or.inl rfl
  · exact Or.inr rfl

theorem addRevision_queue_get? (h : db.queue.get? db.revisions.nextRowid = none)
    {q : QueueRow} (hq : (db.addRevision d file).queue.get? j = some q) :
    db.queue.get? j = some q ∨ j = db.revisions.nextRowid := by
  simp only [addRevision] at hq
  split at hq
  · exact Or.inl hq
  · rw [Table.get?_insert _ _ _ _ h] at hq
    split at hq
    · rename_i hj
      exact Or.inr hj
    · exact Or.inl hq

theorem addRevision_queue_get?_of_ne (h : db.queue.get? db.revisions.nextRowid = none)
    (hj : j ≠ db.revisions.nextRowid) :
    (db.addRevision d file).queue.get? j = db.queue.get? j := by
  simp only [addRevision]
  split
  · rfl
  · rw [Table.get?_insert _ _ _ _ h, if_neg hj]

/-- What a good ingest does: it adds a revision to a new document or to the one it saw, or
only finds that one unchanged. -/
theorem ingest_cases {seen : Option SeenDocument} (h : db.ingest file seen = .ok db') :
    (∃ new : MemoryDocument, new.uuid = file.uuid ∧ new.state = .active ∧
        new.currentRevision = none ∧ new.activeRevision = none ∧
        (∀ j x, db.documents.get? j = some x → x.uuid ≠ file.uuid) ∧
        db' = { db with documents := db.documents.insert db.documents.nextRowid new
          }.addRevision db.documents.nextRowid file) ∨
      ∃ d current, seen = some (d, current) ∧
        (db' = { db with documents := db.documents.modify d MemoryDocument.seenAgain } ∨
          db' = { db with documents := db.documents.modify d MemoryDocument.seenAgain
            }.addRevision d file) := by
  cases seen with
  | none =>
    simp only [ingest] at h
    split at h
    · cases h
    · rename_i hfresh
      cases h
      refine Or.inl ⟨_, rfl, rfl, rfl, rfl, fun j x hx huuid => ?_, rfl⟩
      exact hfresh ⟨(j, x), Table.get?_eq_some.mp hx, Or.inl huuid⟩
  | some seen =>
    obtain ⟨d, current⟩ := seen
    refine Or.inr ⟨d, current, rfl, ?_⟩
    simp only [ingest] at h
    split at h
    · cases h
      exact Or.inl rfl
    · cases h
      exact Or.inr rfl

theorem mem_resolveRename {oldIsFile : Bool} (h : db.resolveRename file oldIsFile = some d) :
    ∃ x, db.documents.get? d = some x := by
  unfold resolveRename at h
  split at h
  · rename_i e heq
    split at h
    · cases h
    · cases h
      have hmem : e ∈ db.documents.entries :=
        (List.mem_filter.mp (heq ▸ List.mem_singleton.mpr rfl)).1
      exact ⟨e.2, Table.get?_eq_some.mpr hmem⟩
  · cases h

theorem rename_ok (h : db.rename d file = .ok db') :
    ∃ rev : MemoryRevision, rev.documentId = d ∧ rev.number = db.nextNumber d ∧
      rev.kind = .rename ∧ db' = { db with
        documents := db.documents.modify d (MemoryDocument.renameTo file.logicalPath)
        revisions := db.revisions.insert db.revisions.nextRowid rev } := by
  simp only [rename] at h
  split at h
  · cases h
  · cases h
    exact ⟨_, rfl, rfl, rfl, rfl⟩

theorem tombstone_ok {node : Option ℕ} {now : ℤ} {vecOk : Bool}
    (h : db.tombstone d node now vecOk = .ok db') :
    ∃ (rev : MemoryRevision) (store : KnowledgeStore (MemoryNode γ)),
      rev.documentId = d ∧ rev.number = db.nextNumber d ∧ rev.kind = .delete ∧
      ((node = none ∧ store = db.store) ∨
        ∃ n, node = some n ∧ db.store.deleteProjection n vecOk = .ok store) ∧
      db' = ⟨db.documents.modify d (MemoryDocument.bury db.revisions.nextRowid),
        db.revisions.insert db.revisions.nextRowid rev, db.queue, store⟩ := by
  cases node with
  | none =>
    cases h
    exact ⟨_, _, rfl, rfl, rfl, Or.inl ⟨rfl, rfl⟩, rfl⟩
  | some n =>
    cases hdel : db.store.deleteProjection n vecOk with
    | error e =>
      simp only [tombstone, hdel] at h
      cases h
    | ok store =>
      simp only [tombstone, hdel] at h
      cases h
      exact ⟨_, store, rfl, rfl, rfl, Or.inr ⟨n, rfl, hdel⟩, rfl⟩

/-- A good write retires a superseded result, or publishes the revision. -/
theorem writeMemoryKnowledgeNode_ok {body : γ} {vecOk : Bool}
    (h : db.writeMemoryKnowledgeNode r body vecOk = .ok db') :
    ∃ rev x, db.revisions.get? r = some rev ∧ db.documents.get? rev.documentId = some x ∧
      ((x.currentRevision ≠ none ∧ x.currentRevision ≠ some r ∧
          db' = { db with queue := db.queue.modify r QueueRow.finish }) ∨
        ((x.currentRevision = none ∨ x.currentRevision = some r) ∧
          ∃ store, db.publishedStore r rev x body vecOk = .ok store ∧
            db' = ⟨db.documents.modify rev.documentId (MemoryDocument.publish r),
              db.revisions, db.queue.modify r QueueRow.finish, store⟩)) := by
  unfold writeMemoryKnowledgeNode at h
  split at h
  · cases h
  · rename_i rev x hfound
    obtain ⟨rev', hrev, hx⟩ := Option.bind_eq_some_iff.mp hfound
    obtain ⟨x', hx', heq⟩ := Option.map_eq_some_iff.mp hx
    cases heq
    refine ⟨rev, x, hrev, hx', ?_⟩
    dsimp only at h
    split at h
    · rename_i hsuper
      cases h
      exact Or.inl ⟨hsuper.1, hsuper.2, rfl⟩
    · rename_i hcurrent
      cases hstore : db.publishedStore r rev x body vecOk with
      | error e =>
        rw [hstore] at h
        cases h
      | ok store =>
        rw [hstore] at h
        cases h
        refine Or.inr ⟨?_, store, rfl, rfl⟩
        by_cases hnone : x.currentRevision = none
        · exact Or.inl hnone
        · exact Or.inr (not_not.mp fun hne => hcurrent ⟨hnone, hne⟩)

theorem mem_claimable {staleBefore : Option ℤ} {limit : ℕ}
    (h : r ∈ db.claimable staleBefore limit) : ∃ q, db.queue.get? r = some q ∧
      (q.status = .pending ∨ q.status = .processing) := by
  obtain ⟨⟨i, q⟩, he, rfl⟩ := List.mem_map.mp h
  obtain ⟨hget, hst⟩ := Table.mem_select.mp (mem_orderBy.mp (List.mem_of_mem_take he))
  refine ⟨q, hget, hst.imp_right ?_⟩
  rintro ⟨before, -, hst, -⟩
  exact hst

end Specs

end MemoryDb

end Hippo
