import Hippo.MemoryConsistency
import Hippo.MemoryLinkRows

/-!
# The routes of an ingest

Which of its ways the ingest of a file takes is decided by the tables before it. A way ends with
the file's content under its path, unless the path or the `uuid` of a new document is taken, or
the links of an index cannot be stored.
-/
namespace Hippo.MemoryCatalog
open MemoryLinks MemoryDb Memory

section Taxonomy

variable {γ : Type} {disk : Disk} {db : MemoryCatalog γ} {source : LinkSource}
  {logicalPath redacted : String} {changed : Bool}

theorem linkRows_eq_nil {d : ℕ} : db.linkRows d = [] ↔ storedNames db.links d = [] := by
  rw [storedNames, storedKeys, List.map_eq_nil_iff, List.map_eq_nil_iff]
  rfl

/-- The taxonomy writes links only. -/
theorem applyTaxonomy_frame : ∃ links,
    (applyTaxonomy disk db source logicalPath redacted changed).1 = { db with links := links } := by
  unfold applyTaxonomy
  dsimp only
  split
  · split <;> exact ⟨_, rfl⟩
  · exact ⟨db.links, rfl⟩

/-- The taxonomy raises if and only if the links of an index are rebuilt and cannot be stored. -/
theorem applyTaxonomy_ok_iff :
    (applyTaxonomy disk db source logicalPath redacted changed).2 = .ok () ↔
      (logicalPath = indexLogicalPath →
        changed ∨ storedNames db.links source.document = [] →
        Storable (db.linkBody source.revision redacted)) := by
  unfold applyTaxonomy
  dsimp only
  simp only [linkRows_eq_nil]
  by_cases hindex : logicalPath = indexLogicalPath
  · subst hindex
    simp only [true_and, forall_const]
    split
    next hrebuild =>
      have hiff := @reconcileIndexLinks_ok_iff disk.toFileSystem db.documents source db.links
        (db.linkBody source.revision redacted)
      rw [← hiff]
      simp only [hrebuild, forall_const]
      split
      next links e heq => rw [heq]
      next links heq => rw [heq]
    next hrebuild => exact iff_of_true rfl fun h => absurd h hrebuild
  · refine iff_of_true ?_ fun h => absurd h hindex
    split
    · rw [reconcileIndexLinks_of_ne hindex]
    · rfl

theorem storedKeys_applyTaxonomy
    (h : (applyTaxonomy disk db source indexLogicalPath redacted changed).2 = .ok ()) :
    storedKeys (applyTaxonomy disk db source indexLogicalPath redacted changed).1.links
        source.document =
      if changed ∨ storedNames db.links source.document = [] then
        (linkNames (db.linkBody source.revision redacted)).map fun name => (source.revision, name)
      else storedKeys db.links source.document := by
  unfold applyTaxonomy at h ⊢
  dsimp only at h ⊢
  simp only [linkRows_eq_nil, true_and] at h ⊢
  split
  next hrebuild =>
    rw [if_pos hrebuild] at h
    split at h
    · cases h
    next links heq =>
      dsimp only
      have hok := congrArg Prod.snd heq
      rw [storedKeys_retry, ← storedKeys_reconcile hok, heq]
  next hrebuild => rfl

end Taxonomy

section Carries

variable {γ : Type} {lib : IngestLibrary} {db : MemoryDb γ} {source : ℕ → RevisionSource}
  {repository : String} {file : SourceFile} {d r : ℕ}

/-- The document is active under the file's path, and its current revision has the content. -/
def Carries (lib : IngestLibrary) (db : MemoryDb γ) (repository : String) (file : SourceFile)
    (d r : ℕ) : Prop :=
  ∃ x rev, db.documents.get? d = some x ∧ x.repository = repository ∧
    x.logicalPath = file.logicalPath ∧ x.state = .active ∧ x.currentRevision = some r ∧
    db.revisions.get? r = some rev ∧ rev.contentHash = lib.sha256 (lib.redact file.text)

theorem Carries.prune (h : Carries lib db repository file d r) (hc : Consistent lib db source)
    (retention : Retention) :
    Carries lib (db.deleteRevisions (db.prunable d (db.pointers d) retention)) repository file d
      r := by
  obtain ⟨x, rev, hx, hrepo, hpath, hstate, hr, hrev, hhash⟩ := h
  have hkept := hc.kept d retention hx hr
  refine ⟨x.forget (db.prunable d (db.pointers d) retention), rev, ?_, hrepo, hpath, hstate, ?_,
    Table.get?_delete_eq_some.mpr ⟨hrev, hkept⟩, hhash⟩
  · rw [deleteRevisions, Table.get?_mapRows, hx, Option.map_some]
  · simp [MemoryDocument.forget, hr, hkept]

/-- The stored text of the revision is the redacted text of the file. -/
theorem Carries.text (h : Carries lib db repository file d r) (hc : Consistent lib db source)
    (hlib : lib.Lawful) : (source r).redactedContent = some (lib.redact file.text) := by
  obtain ⟨x, rev, hx, -, -, hstate, hr, hrev, hhash⟩ := h
  obtain ⟨r', rev', hr', hrev', -, hrec⟩ := hc.content d x hx
  rw [hr] at hr'
  cases hr'
  rw [hrev] at hrev'
  cases hrev'
  obtain ⟨text, hcontent, -, hredacted⟩ := hrec (by simp [hstate])
  have htext : lib.redact text = lib.redact file.text :=
    hlib.injective (hcontent.symm.trans hhash)
  rw [hredacted, htext]

end Carries

section Routes

variable {γ : Type} (lib : IngestLibrary) (disk : Disk) (db : MemoryCatalog γ) (file : SourceFile)
  (retention : Retention)

/-- The ways through `ingest_memory_file`. -/
inductive Route where
  | fast (d r : ℕ)
  | rename (d : ℕ)
  | unchanged (d r : ℕ)
  | change (d : ℕ)
  | create
deriving DecidableEq

/-- The way that the ingest of a file takes. -/
def route : Route :=
  match db.fastRow lib file with
  | some (d, r) => .fast d r
  | none =>
    match db.renamedDocument disk (file.memoryFile lib) with
    | some d => .rename d
    | none =>
      let seen := db.findDocument (file.memoryFile lib)
      match seen with
      | none => .create
      | some (d, _) =>
        match db.unchangedRevision (file.memoryFile lib) seen with
        | some r => .unchanged d r
        | none => .change d

/-- The ingest takes the file for a moved document, but its path has a document. -/
def PathTaken : Prop :=
  ∃ d, db.route lib disk file = .rename d ∧ (db.findDocument (file.memoryFile lib)).isSome

/-- The path has no document, but a document that was moved away from it has its `uuid`. -/
def UuidTaken : Prop :=
  db.route lib disk file = .create ∧
    ∃ j y, db.documents.get? j = some y ∧ y.uuid = (file.memoryFile lib).uuid

/-- The names of the stored links that the ingest of the file does not rebuild. -/
def keptNames : List String :=
  match db.route lib disk file with
  | .fast d _ => storedNames db.links d
  | .unchanged d _ => storedNames db.links d
  | .rename d =>
    match db.renameDocument d (file.memoryFile lib) file.path with
    | .ok renamed => storedNames (renamed.pruneDocumentRevisions d retention).links d
    | .error _ => []
  | .change _ => []
  | .create => []

/-- The repository of the document that the ingest is about. -/
def ingestedRepository : String :=
  match db.fastRow lib file with
  | some (d, _) => ((db.documents.get? d).map MemoryDocument.repository).getD ""
  | none => file.repositoryIdentity

end Routes

section Spec

variable {γ : Type} {lib : IngestLibrary} {disk : Disk} {db base : MemoryCatalog γ}
  {file : SourceFile} {retention : Retention} {repository : String} {d r : ℕ}

/-- What an ingest does that finds no key taken: it raises if and only if it has to rebuild links
that cannot be stored, and else stores the content and the links. -/
structure Spec (lib : IngestLibrary) (file : SourceFile) (repository : String) (kept : List String)
    (d r : ℕ) (attempt : Attempt γ) : Prop where
  ok_iff : attempt.result = .ok d ↔
    (file.logicalPath = indexLogicalPath → kept = [] → Storable (lib.redact file.text))
  only : ∀ d', attempt.result = .ok d' → d' = d
  carries : attempt.result = .ok d → Carries lib attempt.committed.toMemoryDb repository file d r
  names : attempt.result = .ok d → file.logicalPath = indexLogicalPath →
    storedNames attempt.committed.links d =
      if kept = [] then linkNames (lib.redact file.text) else kept
  committed : Consistent lib attempt.committed.toMemoryDb attempt.committed.source
  working : Consistent lib attempt.working.toMemoryDb attempt.working.source

/-- A call that ends with the taxonomy. -/
theorem spec_of_taxonomy (disk : Disk) (source : LinkSource) (redacted : String) (changed : Bool)
    {attempt : Attempt γ} (hd : source.document = d)
    (hbody : base.linkBody source.revision redacted = lib.redact file.text)
    (hok : ∀ db', applyTaxonomy disk base source file.logicalPath redacted changed =
      (db', .ok ()) → attempt.result = .ok d ∧
        Carries lib attempt.committed.toMemoryDb repository file d r ∧
        (file.logicalPath = indexLogicalPath →
          storedNames attempt.committed.links d = storedNames db'.links d))
    (herror : ∀ db' e, applyTaxonomy disk base source file.logicalPath redacted changed =
      (db', .error e) → attempt.result = .error e)
    (hcommitted : Consistent lib attempt.committed.toMemoryDb attempt.committed.source)
    (hworking : Consistent lib attempt.working.toMemoryDb attempt.working.source) :
    Spec lib file repository (if changed then [] else storedNames base.links d) d r attempt := by
  have hkept : (if changed then [] else storedNames base.links d) = [] ↔
      changed ∨ storedNames base.links source.document = [] := by
    rw [hd]
    cases changed <;> simp
  have hiff : (applyTaxonomy disk base source file.logicalPath redacted changed).2 = .ok () ↔
      (file.logicalPath = indexLogicalPath →
        (if changed then [] else storedNames base.links d) = [] →
        Storable (lib.redact file.text)) := by
    rw [applyTaxonomy_ok_iff, hbody, hkept]
  cases hrun : applyTaxonomy disk base source file.logicalPath redacted changed with
  | mk db' result =>
    rw [hrun] at hiff
    cases result with
    | ok u =>
      obtain ⟨hresult, hcarries, hnames⟩ := hok db' hrun
      refine { ok_iff := iff_of_true hresult (hiff.mp rfl), only := ?_,
               carries := fun _ => hcarries, names := ?_, committed := hcommitted,
               working := hworking }
      · intro d' hd'
        rw [hresult] at hd'
        cases hd'
        rfl
      · intro _ hindex
        rw [hindex] at hrun
        have hrun' : (applyTaxonomy disk base source indexLogicalPath redacted changed).2 =
            .ok () := by rw [hrun]
        have hkeys := storedKeys_applyTaxonomy hrun'
        rw [hrun, hbody, hd] at hkeys
        rw [hd] at hkept
        rw [hnames hindex, storedNames, hkeys]
        simp only [hkept]
        split
        · rw [List.map_map]
          exact List.map_id _
        next hstored =>
          rw [if_neg fun h => hstored (Or.inl h)]
          rfl
    | error e =>
      have hresult := herror db' e hrun
      have hno : ∀ d', attempt.result ≠ .ok d' := by
        intro d' hd'
        rw [hresult] at hd'
        cases hd'
      exact { ok_iff := iff_of_false (hno d) fun h => nomatch hiff.mpr h
              only := fun d' h => absurd h (hno d')
              carries := fun h => absurd h (hno d)
              names := fun h => absurd h (hno d)
              committed := hcommitted
              working := hworking }

/-- The body is the text of the revision, whether it is given or read back. -/
theorem linkBody_of_carries (hlib : lib.Lawful)
    (hc : Consistent lib base.toMemoryDb base.source)
    (hcarries : Carries lib base.toMemoryDb repository file d r) {redacted : String}
    (hredacted : redacted = "" ∨ redacted = lib.redact file.text) :
    base.linkBody r redacted = lib.redact file.text := by
  have htext := hcarries.text hc hlib
  obtain ⟨x, rev, -, -, -, -, -, hrev, -⟩ := hcarries
  rcases hredacted with rfl | rfl <;>
    simp only [linkBody, hrev, htext, Option.bind_some, Option.getD_some, ite_self, if_true]

theorem finish_spec (hlib : lib.Lawful) (hc : Consistent lib base.toMemoryDb base.source)
    (hcarries : Carries lib base.toMemoryDb repository file d r) (repository' : String) :
    Spec lib file repository (storedNames base.links d) d r
      (finish disk base ⟨d, r, repository', file.memoryDir⟩ file.logicalPath) := by
  generalize hsource : (⟨d, r, repository', file.memoryDir⟩ : LinkSource) = source
  have hbody : base.linkBody source.revision "" = lib.redact file.text := by
    rw [← hsource]
    exact linkBody_of_carries hlib hc hcarries (Or.inl rfl)
  obtain ⟨links, hframe⟩ := @applyTaxonomy_frame γ disk base source file.logicalPath "" false
  have hends : Consistent lib (finish disk base source file.logicalPath).committed.toMemoryDb
        (finish disk base source file.logicalPath).committed.source ∧
      Consistent lib (finish disk base source file.logicalPath).working.toMemoryDb
        (finish disk base source file.logicalPath).working.source := by
    unfold finish
    split
    next db' heq =>
      rw [heq] at hframe
      cases hframe
      exact ⟨hc, hc⟩
    next db' e heq =>
      rw [heq] at hframe
      cases hframe
      exact ⟨hc, hc⟩
  refine spec_of_taxonomy disk source "" false (by rw [← hsource]) hbody ?_ ?_ hends.1 hends.2
  · intro db' hrun
    rw [hrun] at hframe
    cases hframe
    have hd : source.document = d := by rw [← hsource]
    simp only [finish, hrun, hd]
    exact ⟨rfl, hcarries, fun _ => rfl⟩
  · intro db' e hrun
    simp only [finish, hrun]

theorem keepRevision_spec (base : MemoryCatalog γ) (hlib : lib.Lawful) (hdb : Consistent lib db.toMemoryDb db.source)
    (hc : Consistent lib base.toMemoryDb base.source)
    (hcarries : Carries lib base.toMemoryDb repository file d r) (repository' : String) :
    Spec lib file repository (storedNames base.links d) d r
      (keepRevision disk db base ⟨d, r, repository', file.memoryDir⟩ file.logicalPath
        (lib.redact file.text)) := by
  generalize hsource : (⟨d, r, repository', file.memoryDir⟩ : LinkSource) = source
  generalize hredacted : lib.redact file.text = redacted
  have hbody : base.linkBody source.revision redacted = lib.redact file.text := by
    rw [← hsource, ← hredacted]
    exact linkBody_of_carries hlib hc hcarries (Or.inr rfl)
  obtain ⟨links, hframe⟩ := @applyTaxonomy_frame γ disk base source file.logicalPath redacted false
  have hends : Consistent lib
        (keepRevision disk db base source file.logicalPath redacted).committed.toMemoryDb
        (keepRevision disk db base source file.logicalPath redacted).committed.source ∧
      Consistent lib
        (keepRevision disk db base source file.logicalPath redacted).working.toMemoryDb
        (keepRevision disk db base source file.logicalPath redacted).working.source := by
    unfold keepRevision
    split
    next db' heq =>
      rw [heq] at hframe
      cases hframe
      exact ⟨hc, hc⟩
    next => exact ⟨hdb, hdb⟩
  refine spec_of_taxonomy disk source redacted false (by rw [← hsource]) hbody ?_ ?_ hends.1
    hends.2
  · intro db' hrun
    rw [hrun] at hframe
    cases hframe
    have hd : source.document = d := by rw [← hsource]
    simp only [keepRevision, hrun, hd]
    exact ⟨rfl, hcarries, fun _ => rfl⟩
  · intro db' e hrun
    simp only [keepRevision, hrun]
    rfl

theorem recordRevision_spec (base : MemoryCatalog γ) (hlib : lib.Lawful) (hdb : Consistent lib db.toMemoryDb db.source)
    (hc : Consistent lib base.toMemoryDb base.source)
    (hcarries : Carries lib base.toMemoryDb repository file d r) (repository' : String) :
    Spec lib file repository [] d r (recordRevision disk db base ⟨d, r, repository', file.memoryDir⟩
      file.logicalPath (lib.redact file.text) retention) := by
  generalize hsource : (⟨d, r, repository', file.memoryDir⟩ : LinkSource) = source
  generalize hredacted : lib.redact file.text = redacted
  have hbody : base.linkBody source.revision redacted = lib.redact file.text := by
    rw [← hsource, ← hredacted]
    exact linkBody_of_carries hlib hc hcarries (Or.inr rfl)
  obtain ⟨links, hframe⟩ := @applyTaxonomy_frame γ disk base source file.logicalPath redacted true
  have hends : Consistent lib
        (recordRevision disk db base source file.logicalPath redacted
          retention).committed.toMemoryDb
        (recordRevision disk db base source file.logicalPath redacted retention).committed.source ∧
      Consistent lib
        (recordRevision disk db base source file.logicalPath redacted retention).working.toMemoryDb
        (recordRevision disk db base source file.logicalPath redacted
          retention).working.source := by
    unfold recordRevision
    split
    next db' heq =>
      rw [heq] at hframe
      cases hframe
      exact ⟨hc.prune source.document retention, hc.prune source.document retention⟩
    next => exact ⟨hdb, hdb⟩
  refine spec_of_taxonomy disk source redacted true (by rw [← hsource]) hbody ?_ ?_ hends.1 hends.2
  · intro db' hrun
    have hlinks := hframe
    rw [hrun] at hlinks
    cases hlinks
    have hd : source.document = d := by rw [← hsource]
    simp only [recordRevision, hrun, hd]
    refine ⟨rfl, hcarries.prune hc retention, ?_⟩
    intro hindex
    rw [hindex] at hrun
    have hok : (applyTaxonomy disk base source indexLogicalPath redacted true).2 = .ok () := by
      rw [hrun]
    have hkeys := storedKeys_applyTaxonomy hok
    rw [hrun, if_pos (Or.inl rfl), hd] at hkeys
    -- the new rows are of the current revision, which the pruning keeps
    obtain ⟨x, rev, hx, -, -, -, hr, -⟩ := hcarries
    have hkept := hc.kept d retention hx hr
    refine congrArg (List.map Prod.snd) (storedKeys_delete fun k hk => ?_)
    rw [hkeys] at hk
    obtain ⟨name, -, rfl⟩ := List.mem_map.mp hk
    rw [← hsource]
    exact hkept
  · intro db' e hrun
    simp only [recordRevision, hrun]
    rfl

end Spec

end Hippo.MemoryCatalog
