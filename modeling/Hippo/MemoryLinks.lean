import Hippo.MemoryStore
import Hippo.ShellEnrichment
import Hippo.UniqueIndex

/-!
# The links of a memory index

The Markdown links of a `MEMORY.md` file are rows of `memory_document_links`, one for each target.
A target is the name its `href` comes down to. Links are extracted by a regular expression and
stored one by one; the functions return the table as it is when they raise.
-/
namespace Hippo.MemoryLinks
open Hippo PyText

/-- `memory_document_links.resolution`. -/
inductive Resolution where
  | resolved
  | unresolved
  | external
  | ambiguous
  | circular
deriving DecidableEq

/-- `memory_document_links`. -/
structure MemoryLink where
  sourceDocument : ℕ
  sourceRevision : ℕ
  target : Option ℕ
  targetLogicalPath : String
  anchorText : String
  resolution : Resolution
deriving DecidableEq

/-- `UNIQUE (source_document_id, source_revision_id, target_logical_path)`. -/
def MemoryLink.key (l : MemoryLink) : ℕ × ℕ × String :=
  (l.sourceDocument, l.sourceRevision, l.targetLogicalPath)

abbrev Links := IndexedTable MemoryLink MemoryLink.key

/-- What the file system says of the paths below a memory directory. -/
structure FileSystem where
  /-- Whether `(memory_dir / path).resolve()` is in the resolved `memory_dir`. -/
  inside : String → String → Bool
  /-- `(memory_dir / path).is_file()`. -/
  isFile : String → String → Bool

section Extraction

structure MarkdownLink where
  anchorText : String
  href : String
deriving DecidableEq

/-- `INDEX_LOGICAL_PATH`. -/
def indexLogicalPath : String := "MEMORY.md"

/-- A match of `\[([^\]]*)\]\(([^)]+)\)` at the start: its two groups and what follows it. -/
def matchLink : List Char → Option (List Char × List Char × List Char)
  | '[' :: cs =>
    match cs.dropWhile (· ≠ ']') with
    | ']' :: '(' :: ds =>
      match ds.takeWhile (· ≠ ')'), ds.dropWhile (· ≠ ')') with
      | c :: href, ')' :: rest => some (cs.takeWhile (· ≠ ']'), c :: href, rest)
      | _, _ => none
    | _ => none
  | _ => none

/-- `finditer`: the matches from left to right, after `skip` characters of the last one. -/
def findLinks : ℕ → List Char → List (List Char × List Char)
  | _, [] => []
  | skip + 1, _ :: cs => findLinks skip cs
  | 0, c :: cs =>
    match matchLink (c :: cs) with
    | some (anchor, href, rest) => (anchor, href) :: findLinks (cs.length - rest.length) cs
    | none => findLinks 0 cs

/-- `extract_markdown_links`. -/
def extractMarkdownLinks (markdown : String) : List MarkdownLink :=
  (findLinks 0 markdown.toList).filterMap fun m =>
    let href := strip (String.ofList m.2)
    if href = "" then none else some ⟨strip (String.ofList m.1), href⟩

example : extractMarkdownLinks "- [A](a.md), [](b.md) and [c]( ) [d" =
    [⟨"A", "a.md"⟩, ⟨"", "b.md"⟩] := by decide +kernel

/-- `_normalize_href`. -/
def normalizeHref (href : String) : String :=
  strip (String.ofList ((strip href).toList.takeWhile (· ≠ '#')))

/-- `normalized.lower().startswith(("http://", "https://", "mailto:"))`. -/
def isRemote (normalized : String) : Bool :=
  let lowered := normalized.toList.map Char.toLower
  ["http://", "https://", "mailto:"].any fun scheme => scheme.toList.isPrefixOf lowered

/-- The parts of a path: what stands between its slashes, without empty parts and dots. -/
def pathParts (path : String) : List (List Char) :=
  (path.toList.splitOn '/').filter fun part => part ≠ [] ∧ part ≠ ['.']

/-- `PurePosixPath(path).name`. -/
def pathName (path : String) : String :=
  String.ofList ((pathParts path).getLast?.getD [])

end Extraction

section Cycle

/-- The targets of the resolved links of a document. -/
def nextIds (links : Links) (current : ℕ) : List ℕ :=
  ((links.rows.select fun _ l => l.sourceDocument = current ∧ l.resolution = .resolved).filterMap
    fun e => e.2.target).dedup

/-- The loop of `_would_create_cycle`; `none` when it has not ended after `fuel` rounds. -/
def cycleLoop (links : Links) : ℕ → List ℕ → List ℕ → Option Bool
  | _, _, [] => some false
  | 0, _, _ :: _ => none
  | fuel + 1, seen, current :: frontier =>
    if current ∈ seen then some true
    else cycleLoop links fuel (current :: seen) ((nextIds links current).reverse ++ frontier)

/-- `_would_create_cycle`. A round sees a new document, so there are no more rounds than links. -/
def wouldCreateCycle (links : Links) (source target : ℕ) : Bool :=
  (cycleLoop links (links.rows.entries.length + 2) [source] [target]).getD true

end Cycle

section Classification

/-- The active documents with the name. -/
def targetRows (documents : Table ℕ MemoryDocument) (repository logicalPath : String) : List ℕ :=
  (documents.select fun _ x =>
    x.repository = repository ∧ x.logicalPath = logicalPath ∧ x.state = .active).map Prod.fst

/-- The document whose links are stored. -/
structure LinkSource where
  document : ℕ
  revision : ℕ
  repository : String
  memoryDir : String

variable (fs : FileSystem) (documents : Table ℕ MemoryDocument) (source : LinkSource)

/-- `classify_link_resolution`. `resolve` raises on a null character, outside of the `try`. -/
@[irreducible] def classifyLinkResolution (links : Links) (href : String) :
    Except PyError (String × Resolution × Option ℕ) :=
  let normalized := normalizeHref href
  if normalized = "" ∨ normalized.toList.head? = some '#' then
    .ok (if normalized = "" then href else normalized, .external, none)
  else if isRemote normalized then .ok (normalized, .external, none)
  else if '\x00' ∈ normalized.toList then
    .error (.valueError "lstat: embedded null character in path")
  else if ¬ fs.inside source.memoryDir normalized then
    .ok (if pathName normalized = "" then normalized else pathName normalized, .external, none)
  else
    let logicalPath := pathName normalized
    if logicalPath = "" then .ok (normalized, .external, none)
    else
      match targetRows documents source.repository logicalPath with
      | [] => .ok (logicalPath, .unresolved, none)
      | [target] =>
        if target = source.document then .ok (logicalPath, .circular, none)
        else if wouldCreateCycle links source.document target then
          .ok (logicalPath, .circular, some target)
        else .ok (logicalPath, .resolved, some target)
      | _ => .ok (logicalPath, .ambiguous, none)

/-- The loop of `reconcile_index_links`: it stops at the first link that raises. -/
def insertLinks : Links → List MarkdownLink → Links × Except PyError Unit
  | links, [] => (links, .ok ())
  | links, l :: ls =>
    match classifyLinkResolution fs documents source links l.href with
    | .error e => (links, .error e)
    | .ok (targetLogicalPath, resolution, target) =>
      match links.insert? ⟨source.document, source.revision, target, targetLogicalPath,
          l.anchorText, resolution⟩ with
      | none => (links, .error .integrityError)
      | some links' => insertLinks links' ls

/-- `reconcile_index_links` of a document with the logical path. -/
def reconcileIndexLinks (links : Links) (logicalPath redactedContent : String) :
    Links × Except PyError Unit :=
  if logicalPath ≠ indexLogicalPath then (links, .ok ())
  else
    insertLinks fs documents source (links.delete fun _ l => l.sourceDocument = source.document)
      (extractMarkdownLinks redactedContent)

end Classification

section Retry

variable (fs : FileSystem) (documents : Table ℕ MemoryDocument) (repository memoryDir : String)

/-- `UPDATE memory_document_links SET target_document_id, resolution WHERE id = ?`. -/
def resolveLink (links : Links) (id : ℕ) (target : Option ℕ → Option ℕ) (resolution : Resolution) :
    Links :=
  links.mapRows
    (fun i l => if i = id then { l with target := target l.target, resolution := resolution } else l)
    fun i l => by split <;> rfl

/-- One round of `retry_unresolved_links`. -/
def retryLink (links : Links) (e : ℕ × MemoryLink) : Links :=
  if ¬ fs.isFile memoryDir e.2.targetLogicalPath then links
  else
    match targetRows documents repository e.2.targetLogicalPath with
    | [target] =>
      let resolves := target ≠ e.2.sourceDocument ∧
        ¬ wouldCreateCycle links e.2.sourceDocument target
      resolveLink links e.1 (fun _ => some target) (if resolves then .resolved else .circular)
    | [] => resolveLink links e.1 id .unresolved
    | _ => resolveLink links e.1 id .ambiguous

/-- `retry_unresolved_links`. -/
def retryUnresolvedLinks (links : Links) : Links :=
  let rows := links.rows.select fun _ l => l.resolution = .unresolved ∧
    ∃ x ∈ documents.get? l.sourceDocument, x.repository = repository
  rows.foldl (retryLink fs documents repository memoryDir) links

end Retry

end Hippo.MemoryLinks
