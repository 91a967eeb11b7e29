import Hippo.MemoryLinks

/-!
# The ingest of a memory file

`ingest_memory_file` over the documents with their source paths, the revisions with what they
record of the file, and the index links. The columns that only the ingest reads are kept by the
id of their row. A call that raises may leave writes that the connection has not committed: the
poll commits them later, the other callers close the connection.
-/
namespace Hippo
open MemoryLinks

/-- What `ingest_memory_file` calls: `_sha256`, `redact` and the contents of the chunks. -/
structure IngestLibrary where
  sha256 : String → String
  redact : String → String
  chunks : String → List String

structure Disk extends FileSystem where
  /-- `Path(path).is_file()`. -/
  present : String → Bool

/-- The arguments of `ingest_memory_file`, with what it finds on the disk under the resolved
path. `derived` is the repository that Git or the directory gives. -/
structure SourceFile where
  path : String
  memoryDir : String
  text : String
  mtimeMs : ℤ
  size : ℕ
  logicalPath : String
  repository : Option String
  derived : String
  observedAt : ℤ

namespace SourceFile

def explicitRepository (file : SourceFile) : Option String :=
  (file.repository.map PyText.strip).filter fun r => r ≠ ""

/-- `derive_repository_identity`. -/
def repositoryIdentity (file : SourceFile) : String :=
  file.explicitRepository.getD file.derived

def memoryFile (lib : IngestLibrary) (file : SourceFile) : MemoryFile where
  repository := file.repositoryIdentity
  logicalPath := file.logicalPath
  contentHash := lib.sha256 (lib.redact file.text)
  chunks := lib.chunks (lib.redact file.text)
  observedAt := file.observedAt

end SourceFile

/-- The columns of `memory_revisions` about the file it was read from. -/
structure RevisionSource where
  sourceHash : String
  sourceMtimeMs : ℤ
  sourceSize : ℕ
  redactedContent : Option String

structure MemoryCatalog (γ : Type) extends MemoryDb γ where
  /-- `memory_documents.source_path`. -/
  sourcePath : ℕ → String
  source : ℕ → RevisionSource
  links : Links

namespace MemoryCatalog

variable {γ : Type}

def empty : MemoryCatalog γ :=
  ⟨MemoryDb.empty, fun _ => "", fun _ => ⟨"", 0, 0, none⟩, IndexedTable.empty⟩

/-- The tables as a call leaves them: of the last commit, and as the connection sees them. -/
structure Attempt (γ : Type) where
  committed : MemoryCatalog γ
  working : MemoryCatalog γ
  result : Except PyError ℕ

/-- The document that a committed call returns. -/
def Attempt.done (db : MemoryCatalog γ) (d : ℕ) : Attempt γ := ⟨db, db, .ok d⟩

def Attempt.rolledBack (db : MemoryCatalog γ) (e : PyError) : Attempt γ := ⟨db, db, .error e⟩

section Lookup

variable (db : MemoryCatalog γ)

/-- The current revision of a document, if it has a row. -/
def currentRow (d : ℕ) : Option ℕ :=
  ((db.documents.get? d).bind MemoryDocument.currentRevision).filter fun r =>
    (db.revisions.get? r).isSome

/-- The link rows of a document. -/
def linkRows (d : ℕ) : List (ℕ × MemoryLink) :=
  db.links.rows.select fun _ l => l.sourceDocument = d

/-- The row of the fast path, by the path, the modification time and the size. -/
def unchangedRow (file : SourceFile) : Option (ℕ × ℕ) :=
  db.documents.entries.findSome? fun e =>
    (db.currentRow e.1).bind fun r =>
      if db.sourcePath e.1 = file.path ∧ e.2.logicalPath = file.logicalPath ∧
          (∀ repository ∈ file.explicitRepository, e.2.repository = repository) ∧
          e.2.state = .active ∧ (db.source r).sourceMtimeMs = file.mtimeMs ∧
          (db.source r).sourceSize = file.size then some (e.1, r)
      else none

/-- The row of the fast path whose file was not edited. -/
def fastRow (lib : IngestLibrary) (file : SourceFile) : Option (ℕ × ℕ) :=
  (db.unchangedRow file).filter fun e => lib.sha256 file.text = (db.source e.2).sourceHash

/-- The document that `try_resolve_rename` finds moved. -/
def renamedDocument (disk : Disk) (input : MemoryFile) : Option ℕ :=
  (db.resolveRename input false).filter fun d => ¬ disk.present (db.sourcePath d)

/-- The current revision of the document that was found, when its content is the file's. -/
def unchangedRevision (input : MemoryFile) (seen : Option SeenDocument) : Option ℕ :=
  (seen.bind Prod.snd).filter fun r =>
    (db.revisions.get? r).map MemoryRevision.contentHash = some input.contentHash

end Lookup

section Taxonomy

/-- The text whose links are stored: the given one, or the stored one of the revision. -/
def linkBody (db : MemoryCatalog γ) (revision : ℕ) (redacted : String) : String :=
  let stored := (db.revisions.get? revision).bind fun _ => (db.source revision).redactedContent
  if redacted = "" then stored.getD "" else redacted

/-- `_apply_taxonomy`, as far as it concerns the links. -/
def applyTaxonomy (disk : Disk) (db : MemoryCatalog γ) (source : LinkSource)
    (logicalPath redacted : String) (changed : Bool) : MemoryCatalog γ × Except PyError Unit :=
  if changed ∨ (logicalPath = indexLogicalPath ∧ db.linkRows source.document = []) then
    let body := db.linkBody source.revision redacted
    match reconcileIndexLinks disk.toFileSystem db.documents source db.links logicalPath body with
    | (links, .error e) => ({ db with links := links }, .error e)
    | (links, .ok ()) =>
      let retried := retryUnresolvedLinks disk.toFileSystem db.documents source.repository
        source.memoryDir links
      ({ db with links := retried }, .ok ())
  else (db, .ok ())

end Taxonomy

section Lifecycle

/-- `prune_document_revisions`, with the links of the deleted revisions. -/
def pruneDocumentRevisions (db : MemoryCatalog γ) (d : ℕ) (retention : Retention) :
    MemoryCatalog γ :=
  let ids := db.prunable d (db.pointers d) retention
  { db with
    toMemoryDb := db.deleteRevisions ids
    links := db.links.delete fun _ l => l.sourceRevision ∈ ids }

/-- The transaction of `try_resolve_rename`. -/
def renameDocument (db : MemoryCatalog γ) (d : ℕ) (input : MemoryFile) (path : String) :
    Except PyError (MemoryCatalog γ) :=
  match db.toMemoryDb.rename d input with
  | .error e => .error e
  | .ok renamed => .ok { db with
      toMemoryDb := renamed
      sourcePath := Function.update db.sourcePath d path
      source := Function.update db.source db.revisions.nextRowid
        ⟨input.contentHash, input.observedAt, 0, none⟩ }

/-- `tombstone_document`. -/
def tombstoneDocument (db : MemoryCatalog γ) (d : ℕ) (now : ℤ) (vecOk : Bool) :
    Except PyError (MemoryCatalog γ) :=
  match db.documents.get? d with
  | none => .ok db
  | some x =>
    if x.state = .tombstoned then .ok db
    else
      match db.toMemoryDb.tombstone d (x.activeRevision.bind db.store.linkedNode) now vecOk with
      | .error e => .error e
      | .ok buried => .ok { db with
          toMemoryDb := buried
          source := Function.update db.source db.revisions.nextRowid ⟨"", now, 0, none⟩ }

end Lifecycle

section Ends

/-- The end of the main transaction for content that is stored already. -/
def keepRevision (disk : Disk) (db touched : MemoryCatalog γ) (source : LinkSource)
    (logicalPath redacted : String) : Attempt γ :=
  match applyTaxonomy disk touched source logicalPath redacted false with
  | (db', .ok ()) => .done db' source.document
  | (_, .error e) => .rolledBack db e

/-- The end of the main transaction with a new revision, and the pruning after it. -/
def recordRevision (disk : Disk) (db written : MemoryCatalog γ) (source : LinkSource)
    (logicalPath redacted : String) (retention : Retention) : Attempt γ :=
  match applyTaxonomy disk written source logicalPath redacted true with
  | (db', .ok ()) => .done (db'.pruneDocumentRevisions source.document retention) source.document
  | (_, .error e) => .rolledBack db e

/-- The end of the fast path and of a rename: what the taxonomy wrote before it raised stays. -/
def finish (disk : Disk) (db : MemoryCatalog γ) (source : LinkSource) (logicalPath : String) :
    Attempt γ :=
  match applyTaxonomy disk db source logicalPath "" false with
  | (db', .ok ()) => .done db' source.document
  | (db', .error e) => ⟨db, db', .error e⟩

end Ends

section Ingest

variable (lib : IngestLibrary) (disk : Disk) (db : MemoryCatalog γ) (file : SourceFile)

/-- The columns of a new revision; `finalize_superseded_revision` clears the text of the last. -/
def recordSource (current : Option ℕ) : ℕ → RevisionSource := fun i =>
  let r := db.revisions.nextRowid
  if i = r then
    ⟨lib.sha256 file.text, file.mtimeMs, file.size, some (lib.redact file.text)⟩
  else if current = some i ∧ (db.revisions.get? i).isSome ∧
      (db.source i).redactedContent.getD "" ≠ "" then
    { db.source i with redactedContent := none }
  else db.source i

/-- The main transaction of `ingest_memory_file`, and the pruning after it. -/
def ingestContent (retention : Retention) : Attempt γ :=
  let input := file.memoryFile lib
  let seen := db.findDocument input
  match db.toMemoryDb.ingest input seen with
  | .error e => .rolledBack db e
  | .ok stored =>
    let d := (seen.map Prod.fst).getD db.documents.nextRowid
    let touched := { db with
      toMemoryDb := stored
      sourcePath := Function.update db.sourcePath d file.path }
    match db.unchangedRevision input seen with
    | some r =>
      keepRevision disk db touched ⟨d, r, file.repositoryIdentity, file.memoryDir⟩ file.logicalPath
        ((db.source r).redactedContent.getD "")
    | none =>
      let written := { touched with source := db.recordSource lib file (seen.bind Prod.snd) }
      recordRevision disk db written
        ⟨d, db.revisions.nextRowid, file.repositoryIdentity, file.memoryDir⟩ file.logicalPath
        (lib.redact file.text) retention

/-- `ingest_memory_file`: the fast path, then the resolution of a rename, then the content. -/
def ingestMemoryFile (retention : Retention) : Attempt γ :=
  match db.fastRow lib file with
  | some (d, r) =>
    let repository := ((db.documents.get? d).map MemoryDocument.repository).getD ""
    finish disk db ⟨d, r, repository, file.memoryDir⟩ file.logicalPath
  | none =>
    let input := file.memoryFile lib
    match db.renamedDocument disk input with
    | none => ingestContent lib disk db file retention
    | some d =>
      match db.renameDocument d input file.path with
      | .error e => .rolledBack db e
      | .ok renamed =>
        match renamed.currentRow d with
        | none => ingestContent lib disk renamed file retention
        | some r =>
          finish disk (renamed.pruneDocumentRevisions d retention)
            ⟨d, r, file.repositoryIdentity, file.memoryDir⟩ file.logicalPath

end Ingest

section Runs

inductive Action (γ : Type) where
  /-- After an error the caller rolls the open transaction back, or commits it later. -/
  | ingest (disk : Disk) (file : SourceFile) (retention : Retention) (rollback : Bool)
  | missing (d : ℕ)
  | tombstone (d : ℕ) (now : ℤ) (vecOk : Bool)
  | prune (d : ℕ) (retention : Retention)
  /-- A worker publishes the node of a revision. -/
  | write (revision : ℕ) (body : γ) (vecOk : Bool)

/-- What an action makes of the tables; a transaction that raises changes nothing. -/
def step (lib : IngestLibrary) (db : MemoryCatalog γ) : Action γ → Option (MemoryCatalog γ)
  | .ingest disk file retention rollback =>
    let attempt := ingestMemoryFile lib disk db file retention
    some (if rollback then attempt.committed else attempt.working)
  | .missing d =>
    (db.documents.get? d).bind fun x =>
      if x.state = .active then
        some { db with documents := db.documents.modify d MemoryDocument.missing }
      else none
  | .tombstone d now vecOk => (db.tombstoneDocument d now vecOk).toOption
  | .prune d retention => some (db.pruneDocumentRevisions d retention)
  | .write revision body vecOk =>
    (db.toMemoryDb.writeMemoryKnowledgeNode revision body vecOk).toOption.map fun stored =>
      { db with toMemoryDb := stored }

end Runs

end MemoryCatalog

end Hippo
