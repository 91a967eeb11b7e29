import Hippo.MemoryIngest
import Hippo.MemoryRuns
import Mathlib.Data.List.Dedup
import Mathlib.Data.List.Sort

/-!
# The polls of the memory sources

A poll reads the configuration, looks for the memory files that are on the disk, ingests every
source, and then looks for the sources whose file is absent. A document of an absent file is marked
`unavailable` first and tombstoned at the next poll. The single-file path does the same for one
source, and closes its connection without a commit. Discovery lists the files that are there.
-/
namespace Hippo
open MemoryLinks

/-- A configured or discovered source. -/
structure MemorySource where
  path : String
  repository : Option String
  logicalPath : Option String

/-- What is read from a file, with the directory of the memory and the repository that Git or the
directory gives. -/
structure FileContent where
  text : String
  mtimeMs : ℤ
  size : ℕ
  memoryDir : String
  derived : String

/-- A root that discovery found. `repository` is missing when its derivation raises, `entries` are
the paths that `glob("*.md")` lists. -/
structure MemoryRoot where
  accessible : Bool
  repository : Option String
  entries : List String

/-- The disk as a poll finds it. Its `present` is about resolved paths. -/
structure Snapshot extends Disk where
  /-- `str(Path(path).expanduser().resolve())`. -/
  resolve : String → String
  resolve_resolve : ∀ path, resolve (resolve path) = resolve path
  /-- `wait_for_stable_file`. -/
  stable : String → Bool
  /-- What reading a file gives, unless it raises. -/
  read : String → Option FileContent
  /-- `discover_memory_roots` for the configuration. -/
  roots : List MemoryRoot
  /-- Whether the open writes of an ingest that raises for the path are committed later on. -/
  kept : String → Bool

/-- The `[auto_memory]` table of the configuration. -/
structure AutoMemory where
  enabled : Bool
  discoveryEnabled : Bool
  sources : List MemorySource
  maxRevisionCount : ℤ := 20
  maxRevisionAgeDays : ℤ := 90
  absenceConfirmPolls : ℤ := 2

namespace AutoMemory

/-- `revision_retention_from_config`, at a clock. -/
def retention (config : AutoMemory) (now : ℤ) : Retention where
  maxCount := (max config.maxRevisionCount 1).toNat
  cutoff := now - max config.maxRevisionAgeDays 1 * 86400000

def confirmPolls (config : AutoMemory) : ℤ := max config.absenceConfirmPolls 1

/-- `_explicit_sources_from_config`. -/
def explicitSources (config : AutoMemory) : List MemorySource :=
  config.sources.filter fun s => s.path ≠ ""

end AutoMemory

/-- The elements whose key no earlier element has. -/
def firstOfKey {α β : Type} [DecidableEq β] (key : α → β) : List β → List α → List α
  | _, [] => []
  | seen, a :: as =>
    if key a ∈ seen then firstOfKey key seen as
    else a :: firstOfKey key (key a :: seen) as

namespace Snapshot

variable (snap : Snapshot)

/-- `list_memory_markdown_files`. -/
def listMemoryMarkdownFiles (root : MemoryRoot) : List String :=
  (root.entries.map snap.resolve).filter snap.present

/-- The sources of one root in `memory_roots_to_file_sources`. -/
def rootSources (root : MemoryRoot) : List MemorySource :=
  if root.accessible then
    match root.repository with
    | none => []
    | some repository => (snap.listMemoryMarkdownFiles root).map fun path =>
        ⟨path, some repository, some (pathName path)⟩
  else []

def memoryRootsToFileSources : List MemorySource :=
  firstOfKey MemorySource.path [] (snap.roots.flatMap snap.rootSources)

def mergeConfiguredSources (explicit discovered : List MemorySource) : List MemorySource :=
  firstOfKey MemorySource.path []
    ((explicit ++ discovered).map fun s => { s with path := snap.resolve s.path })

/-- `load_sources_from_config`. -/
def loadSources (config : AutoMemory) : List MemorySource :=
  if ¬ config.enabled ∨ ¬ config.discoveryEnabled then config.explicitSources
  else snap.mergeConfiguredSources config.explicitSources snap.memoryRootsToFileSources

/-- `configured_paths`, sorted. -/
def configuredPaths (sources : List MemorySource) : List String :=
  (sources.map fun s => snap.resolve s.path).dedup.insertionSort (· ≤ ·)

/-- What `reconcile_source` finds before it ingests. -/
inductive Finding where
  | missing
  | unstable
  | unreadable
  | found (file : SourceFile)

def look (now : ℤ) (s : MemorySource) : Finding :=
  let path := snap.resolve s.path
  if ¬ snap.present path then .missing
  else if ¬ snap.stable s.path then .unstable
  else
    match snap.read s.path with
    | none => .unreadable
    | some content => .found {
        path := path
        memoryDir := content.memoryDir
        text := content.text
        mtimeMs := content.mtimeMs
        size := content.size
        logicalPath := (s.logicalPath.filter fun name => name ≠ "").getD (pathName s.path)
        repository := s.repository
        derived := content.derived
        observedAt := now }

end Snapshot

/-- A poll: the disk it finds, the configuration, its clock, and whether the vector table can be
reached. -/
structure Poll where
  snap : Snapshot
  config : AutoMemory
  now : ℤ
  vecOk : Bool

section Sources

theorem mem_map_firstOfKey {α β : Type} [DecidableEq β] (key : α → β) (seen : List β)
    (as : List α) {k : β} :
    k ∈ (firstOfKey key seen as).map key ↔ k ∈ as.map key ∧ k ∉ seen := by
  induction as generalizing seen with
  | nil => simp [firstOfKey]
  | cons a as ih =>
    by_cases hseen : key a ∈ seen
    · rw [firstOfKey, if_pos hseen, ih, List.map_cons, List.mem_cons]
      have hne : k ∉ seen → k ≠ key a := by
        rintro hk rfl
        exact hk hseen
      tauto
    · rw [firstOfKey, if_neg hseen, List.map_cons, List.mem_cons, ih, List.map_cons,
        List.mem_cons, List.mem_cons]
      have hne : k = key a → k ∉ seen := by
        rintro rfl
        exact hseen
      tauto

theorem mem_of_mem_firstOfKey {α β : Type} [DecidableEq β] {key : α → β} {seen : List β}
    {as : List α} {a : α} (h : a ∈ firstOfKey key seen as) : a ∈ as := by
  induction as generalizing seen with
  | nil => cases h
  | cons b as ih =>
    rw [firstOfKey] at h
    split at h
    · exact List.mem_cons_of_mem b (ih h)
    · rcases List.mem_cons.mp h with rfl | h
      · exact List.mem_cons_self
      · exact List.mem_cons_of_mem b (ih h)

namespace Snapshot

variable {snap : Snapshot} {sources : List MemorySource} {path : String}

theorem nodup_configuredPaths (snap : Snapshot) (sources : List MemorySource) :
    (snap.configuredPaths sources).Nodup :=
  ((List.perm_insertionSort _ _).nodup_iff).mpr (List.nodup_dedup _)

theorem mem_configuredPaths :
    path ∈ snap.configuredPaths sources ↔ ∃ s ∈ sources, snap.resolve s.path = path := by
  rw [Snapshot.configuredPaths, List.mem_insertionSort, List.mem_dedup, List.mem_map]

/-- Discovery lists only files that are there. -/
theorem discovered_present {s : MemorySource}
    (h : s ∈ snap.memoryRootsToFileSources) : snap.present (snap.resolve s.path) = true := by
  obtain ⟨root, -, hroot⟩ := List.mem_flatMap.mp (mem_of_mem_firstOfKey h)
  unfold Snapshot.rootSources at hroot
  split at hroot
  · split at hroot
    · cases hroot
    · obtain ⟨file, hfile, rfl⟩ := List.mem_map.mp hroot
      obtain ⟨hentry, hpresent⟩ := List.mem_filter.mp hfile
      obtain ⟨entry, -, rfl⟩ := List.mem_map.mp hentry
      rw [snap.resolve_resolve]
      exact hpresent
  · cases hroot

end Snapshot

namespace Poll

variable {poll : Poll} {path : String}

/-- The paths that the absence check of the poll goes through. -/
def paths (poll : Poll) : List String :=
  if poll.config.enabled then
    poll.snap.configuredPaths (poll.snap.loadSources poll.config)
  else []

/-- The file is an explicitly configured source of the poll. -/
def Configures (poll : Poll) (path : String) : Prop :=
  poll.config.enabled ∧ ∃ s ∈ poll.config.explicitSources, poll.snap.resolve s.path = path

instance (poll : Poll) (path : String) : Decidable (poll.Configures path) := by
  unfold Configures
  infer_instance

/-- The sources of a poll hold an absent file if and only if it is configured explicitly. -/
theorem mem_paths_iff (habsent : poll.snap.present path = false) :
    path ∈ poll.paths ↔ poll.Configures path := by
  unfold paths Configures
  by_cases henabled : poll.config.enabled = true
  · rw [if_pos henabled, Snapshot.mem_configuredPaths]
    simp only [henabled, true_and]
    by_cases hdiscovery : poll.config.discoveryEnabled = true
    · have hsources : poll.snap.loadSources poll.config =
          poll.snap.mergeConfiguredSources poll.config.explicitSources
            poll.snap.memoryRootsToFileSources := by
        rw [Snapshot.loadSources, if_neg (by simp [henabled, hdiscovery])]
      have hkeys : (∃ s ∈ poll.snap.loadSources poll.config, poll.snap.resolve s.path = path) ↔
          ∃ s ∈ poll.config.explicitSources ++ poll.snap.memoryRootsToFileSources,
            poll.snap.resolve s.path = path := by
        have hmap := mem_map_firstOfKey (k := path) MemorySource.path []
          ((poll.config.explicitSources ++ poll.snap.memoryRootsToFileSources).map fun s =>
            { s with path := poll.snap.resolve s.path })
        rw [hsources]
        simp only [List.map_map, List.mem_map, Function.comp_apply, List.not_mem_nil,
          not_false_eq_true, and_true] at hmap
        rw [← hmap, Snapshot.mergeConfiguredSources]
        refine exists_congr fun s => and_congr_right fun hs => ?_
        obtain ⟨s', -, rfl⟩ := List.mem_map.mp (mem_of_mem_firstOfKey hs)
        rw [poll.snap.resolve_resolve]
      rw [hkeys]
      constructor
      · rintro ⟨s, hs, rfl⟩
        rcases List.mem_append.mp hs with hs | hs
        · exact ⟨s, hs, rfl⟩
        · rw [Snapshot.discovered_present hs] at habsent
          cases habsent
      · rintro ⟨s, hs, rfl⟩
        exact ⟨s, List.mem_append_left _ hs, rfl⟩
    · rw [Snapshot.loadSources, if_pos (Or.inr hdiscovery)]
  · rw [if_neg henabled]
    simp [henabled]

end Poll

end Sources

namespace MemoryCatalog

variable {γ : Type}

/-- `UPDATE memory_documents SET state = 'unavailable'`. -/
def markMissing (db : MemoryCatalog γ) (d : ℕ) : MemoryCatalog γ :=
  { db with toMemoryDb :=
      { db.toMemoryDb with documents := db.documents.modify d MemoryDocument.missing } }

/-- The tables of the last commit, and as the connection sees them. -/
structure Conn (γ : Type) where
  committed : MemoryCatalog γ
  working : MemoryCatalog γ

namespace Conn

def opened (db : MemoryCatalog γ) : Conn γ := ⟨db, db⟩

variable (poll : Poll) (c : Conn γ) (d : ℕ)

/-- `tombstone_document`; when it raises, what is not committed is lost. -/
def tombstone : Except (MemoryCatalog γ) (Conn γ × Bool) :=
  match c.working.tombstoneDocument d poll.now poll.vecOk with
  | .ok db => .ok (opened db, true)
  | .error _ => .error c.committed

/-- `reconcile_missing_source`. -/
def reconcileMissingSource : Except (MemoryCatalog γ) (Conn γ × Bool) :=
  match c.working.documents.get? d with
  | none => .ok (c, false)
  | some x =>
    match x.state with
    | .tombstoned => .ok (c, true)
    | .active =>
      let marked := { c with working := c.working.markMissing d }
      if poll.config.confirmPolls ≤ 1 then marked.tombstone poll d else .ok (marked, false)
    | .unavailable => c.tombstone poll d

/-- `prune_document_revisions`, which commits when it deletes. -/
def prune (retention : Retention) : Conn γ :=
  if c.working.prunable d (c.working.pointers d) retention = [] then c
  else opened (c.working.pruneDocumentRevisions d retention)

/-- The body of the inner loop of `reconcile_configured_sources`. -/
def reconcileRow : Except (MemoryCatalog γ) (Conn γ) :=
  match c.reconcileMissingSource poll d with
  | .error db => .error db
  | .ok (c', confirmed) =>
    .ok (if confirmed then c'.prune d (poll.config.retention poll.now) else c')

/-- The documents of an absent file that are not tombstoned. -/
def absentRows (path : String) : List ℕ :=
  (c.working.documents.select fun d x =>
    c.working.sourcePath d = path ∧ x.state ≠ .tombstoned).map Prod.fst

def reconcileRows : List ℕ → Conn γ → Except (MemoryCatalog γ) (Conn γ)
  | [], c => .ok c
  | d :: ds, c =>
    match c.reconcileRow poll d with
    | .error db => .error db
    | .ok c' => reconcileRows ds c'

/-- `reconcile_configured_sources`, with the tables that are left when it raises. -/
def reconcileConfiguredSources : List String → Conn γ → Except (MemoryCatalog γ) (Conn γ)
  | [], c => .ok c
  | path :: paths, c =>
    if poll.snap.present path then reconcileConfiguredSources paths c
    else
      match reconcileRows poll (c.absentRows path) c with
      | .error db => .error db
      | .ok c' => reconcileConfiguredSources paths c'

end Conn

section Reconcile

variable (lib : IngestLibrary) (poll : Poll) (db : MemoryCatalog γ)

/-- `reconcile_source` in a poll, which goes on when it raises. -/
def reconcileSource (s : MemorySource) : MemoryCatalog γ :=
  match poll.snap.look poll.now s with
  | .found file =>
    let attempt := ingestMemoryFile lib poll.snap.toDisk db file (poll.config.retention poll.now)
    if poll.snap.kept s.path then attempt.working else attempt.committed
  | _ => db

/-- `reconcile_sources`. -/
def reconcileSources (sources : List MemorySource) : MemoryCatalog γ :=
  let ingested := sources.foldl (reconcileSource lib poll) db
  match Conn.reconcileConfiguredSources poll (poll.snap.configuredPaths sources)
      (.opened ingested) with
  | .ok c => c.working
  | .error left => left

/-- `reconcile_from_config`. -/
def reconcileFromConfig : MemoryCatalog γ :=
  if ¬ poll.config.enabled then db
  else
    match poll.snap.loadSources poll.config with
    | [] => db
    | s :: ss => reconcileSources lib poll db (s :: ss)

/-- The source of a file in `reconcile_file_main`. -/
def sourceOf (path : String) : Option MemorySource :=
  (poll.snap.loadSources poll.config).find? fun s =>
    poll.snap.resolve s.path = poll.snap.resolve path

/-- `reconcile_file_main`: what it has not committed when it closes the connection is lost. -/
def reconcileFile (path : String) : MemoryCatalog γ :=
  match sourceOf poll path with
  | none => db
  | some s =>
    match poll.snap.look poll.now s with
    | .missing =>
      match Conn.reconcileConfiguredSources poll (poll.snap.configuredPaths [s]) (.opened db) with
      | .ok c => c.committed
      | .error left => left
    | .found file =>
      (ingestMemoryFile lib poll.snap.toDisk db file (poll.config.retention poll.now)).committed
    | _ => db

end Reconcile

end MemoryCatalog

/-- The memory tables with the enrichment workers. -/
structure Fleet (γ : Type) where
  catalog : MemoryCatalog γ
  ops : List Memory.Op := []
  holder : ℕ → Option ℕ := fun _ => none
  nextTicket : ℕ := 0

namespace Fleet

variable {γ : Type}

def init : Fleet γ := { catalog := MemoryCatalog.empty }

def world (w : Fleet γ) : Memory.World γ := ⟨w.catalog.toMemoryDb, w.ops, w.holder, w.nextTicket⟩

def withWorld (w : Fleet γ) (v : Memory.World γ) : Fleet γ :=
  ⟨{ w.catalog with toMemoryDb := v.db }, v.ops, v.holder, v.nextTicket⟩

inductive Action (γ : Type) where
  | poll (poll : Poll)
  | reconcileFile (poll : Poll) (path : String)
  /-- A step of an enrichment worker, of the reaper, or of the classifier. -/
  | enrichment (a : Memory.Action γ)

/-- The actions that are not of the ingest and the lifecycle. -/
def IsEnrichment : Memory.Action γ → Prop
  | .claim .. | .write .. | .fail .. | .crash .. | .reap .. | .relate .. => True
  | _ => False

instance (a : Memory.Action γ) : Decidable (IsEnrichment a) := by
  induction a using Memory.Action.casesOn <;> dsimp only [IsEnrichment] <;> infer_instance

def step (lib : IngestLibrary) (w : Fleet γ) : Action γ → Option (Fleet γ)
  | .poll poll => some { w with catalog := w.catalog.reconcileFromConfig lib poll }
  | .reconcileFile poll path => some { w with catalog := w.catalog.reconcileFile lib poll path }
  | .enrichment a => if IsEnrichment a then (Memory.step w.world a).map w.withWorld else none

end Fleet

end Hippo
