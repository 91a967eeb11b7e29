import Hippo.MemoryRoutes

/-!
# When a memory file can be ingested

The resolution of a rename runs before the document of the file's own path is looked up, and a
moved document keeps the `uuid` of the path it was created at. So a file that is moved onto the
path of another document, and a new file at a path that a document was moved away from, are refused
by a key at every poll. Every other file is ingested, unless it is an index with links that cannot
be stored.
-/
namespace Hippo.MemoryCatalog
open MemoryLinks MemoryDb Memory Transition

section Content

variable {γ : Type} {lib : IngestLibrary} {disk : Disk} {db : MemoryCatalog γ}
  {file : SourceFile} {retention : Retention} {d r : ℕ} {current : Option ℕ}

theorem unchangedRevision_spec {seen : Option SeenDocument} {input : MemoryFile}
    (h : db.unchangedRevision input seen = some r) : ∃ d, seen = some (d, some r) ∧
      ∃ rev, db.revisions.get? r = some rev ∧ rev.contentHash = input.contentHash := by
  obtain ⟨hseen, hhash⟩ := Option.filter_eq_some_iff.mp h
  obtain ⟨⟨d, current⟩, rfl, hcurrent⟩ := Option.bind_eq_some_iff.mp hseen
  obtain ⟨rev, hrev, hcontent⟩ := Option.map_eq_some_iff.mp (of_decide_eq_true hhash)
  exact ⟨d, by rw [← hcurrent], rev, hrev, hcontent⟩

theorem ingestContent_unchanged (hlib : lib.Lawful) (hc : Consistent lib db.toMemoryDb db.source)
    (hseen : db.findDocument (file.memoryFile lib) = some (d, current))
    (hr : db.unchangedRevision (file.memoryFile lib) (some (d, current)) = some r) :
    Spec lib file file.repositoryIdentity (storedNames db.links d) d r
      (ingestContent lib disk db file retention) := by
  obtain ⟨x, hx, hrepo, hpath, hcurrent⟩ := findDocument_eq_some hseen
  obtain ⟨_, heq, rev, hrev, hhash⟩ := unchangedRevision_spec hr
  cases heq
  have hlive : x.state ≠ .tombstoned := by
    intro htomb
    obtain ⟨r', rev', hr', hrev', hempty, -⟩ := hc.content d x hx
    rw [hcurrent] at hr'
    cases hr'
    rw [hrev] at hrev'
    cases hrev'
    exact hlib.nonempty _ (hhash.symm.trans (hempty htomb))
  have hstored : db.toMemoryDb.ingest (file.memoryFile lib) (some (d, some r)) =
      .ok (db.toMemoryDb.touched d) := by
    rw [ingest_some]
    exact if_pos (by simp [hrev, hhash])
  have hcarries : Carries lib (db.toMemoryDb.touched d) file.repositoryIdentity file d r := by
    refine ⟨x.seenAgain, rev, ?_, hrepo, hpath, rfl, hcurrent, hrev, hhash⟩
    rw [touched, Table.get?_modify_self, hx, Option.map_some]
  have htext := hcarries.text (hc.touch hx hlive) hlib
  let base : MemoryCatalog γ := { db with
    toMemoryDb := db.toMemoryDb.touched d
    sourcePath := Function.update db.sourcePath d file.path }
  have hrun : ingestContent lib disk db file retention =
      keepRevision disk db base ⟨d, r, file.repositoryIdentity, file.memoryDir⟩ file.logicalPath
        (lib.redact file.text) := by
    simp only [ingestContent, hseen, hstored, hr, htext, Option.map_some, Option.getD_some, base]
  rw [hrun]
  exact keepRevision_spec base hlib hc (hc.touch hx hlive) hcarries _

/-- The pointer and the content of a revision that was added. -/
theorem carries_addRevision {before : MemoryDb γ} {x : MemoryDocument}
    (hx : before.documents.get? d = some x) (hrepo : x.repository = file.repositoryIdentity)
    (hpath : x.logicalPath = file.logicalPath) (hstate : x.state = .active) :
    Carries lib (before.addRevision d (file.memoryFile lib)) file.repositoryIdentity file d
      before.revisions.nextRowid := by
  obtain ⟨rev, status, hhash, hrevs, hdocs⟩ := addRevision_row before d (file.memoryFile lib)
  refine ⟨x.advance before.revisions.nextRowid status, rev, ?_, hrepo, hpath, hstate, rfl, ?_,
    hhash⟩
  · rw [hdocs, Table.get?_modify_self, hx, Option.map_some]
  · rw [hrevs, if_pos rfl]

theorem ingestContent_change (hlib : lib.Lawful) (hc : Consistent lib db.toMemoryDb db.source)
    (hseen : db.findDocument (file.memoryFile lib) = some (d, current))
    (hr : db.unchangedRevision (file.memoryFile lib) (some (d, current)) = none) :
    Spec lib file file.repositoryIdentity [] d db.revisions.nextRowid
      (ingestContent lib disk db file retention) := by
  obtain ⟨x, hx, hrepo, hpath, rfl⟩ := findDocument_eq_some hseen
  have hstored : db.toMemoryDb.ingest (file.memoryFile lib) (some (d, x.currentRevision)) =
      .ok ((db.toMemoryDb.touched d).addRevision d (file.memoryFile lib)) := by
    rw [ingest_some, if_neg]
    intro hsame
    obtain ⟨rev, hrev, hhash⟩ := Option.map_eq_some_iff.mp hsame
    obtain ⟨c, hcurrent, hrow⟩ := Option.bind_eq_some_iff.mp hrev
    have hfound : db.unchangedRevision (file.memoryFile lib) (some (d, x.currentRevision)) =
        some c := Option.filter_eq_some_iff.mpr ⟨hcurrent, by simp [hrow, hhash]⟩
    rw [hr] at hfound
    cases hfound
  have hcarries : Carries lib ((db.toMemoryDb.touched d).addRevision d (file.memoryFile lib))
      file.repositoryIdentity file d db.revisions.nextRowid := by
    have htouched : (db.toMemoryDb.touched d).documents.get? d = some x.seenAgain := by
      rw [touched, Table.get?_modify_self, hx, Option.map_some]
    exact carries_addRevision htouched hrepo hpath rfl
  let base : MemoryCatalog γ := { db with
    toMemoryDb := (db.toMemoryDb.touched d).addRevision d (file.memoryFile lib)
    sourcePath := Function.update db.sourcePath d file.path
    source := db.recordSource lib file x.currentRevision }
  have hrun : ingestContent lib disk db file retention =
      recordRevision disk db base
        ⟨d, db.revisions.nextRowid, file.repositoryIdentity, file.memoryDir⟩ file.logicalPath
        (lib.redact file.text) retention := by
    simp only [ingestContent, hseen, hstored, hr, Option.map_some, Option.getD_some,
      Option.bind_some, base]
  rw [hrun]
  exact recordRevision_spec base hlib hc (hc.change hx) hcarries _

/-- At a free path the ingest creates a document, unless another one has its `uuid`. -/
theorem ingestContent_create (hlib : lib.Lawful) (hc : Consistent lib db.toMemoryDb db.source)
    (hseen : db.findDocument (file.memoryFile lib) = none)
    (huuid : ∀ j y, db.documents.get? j = some y → y.uuid ≠ (file.memoryFile lib).uuid) :
    Spec lib file file.repositoryIdentity [] db.documents.nextRowid db.revisions.nextRowid
      (ingestContent lib disk db file retention) := by
  have hfresh : ¬ ∃ e ∈ db.documents.entries, e.2.uuid = (file.memoryFile lib).uuid ∨
      (e.2.repository = (file.memoryFile lib).repository ∧
        e.2.logicalPath = (file.memoryFile lib).logicalPath) := by
    rintro ⟨e, he, hsame | ⟨hrepo, hpath⟩⟩
    · exact huuid e.1 e.2 (Table.get?_eq_some.mpr he) hsame
    · exact findDocument_eq_none.mp hseen e.1 e.2 (Table.get?_eq_some.mpr he) hrepo hpath
  have hstored : db.toMemoryDb.ingest (file.memoryFile lib) none =
      .ok ((db.toMemoryDb.created (file.memoryFile lib)).addRevision db.documents.nextRowid
        (file.memoryFile lib)) := by
    rw [ingest_none, if_neg hfresh]
  have hcarries : Carries lib ((db.toMemoryDb.created (file.memoryFile lib)).addRevision
      db.documents.nextRowid (file.memoryFile lib)) file.repositoryIdentity file
      db.documents.nextRowid db.revisions.nextRowid := by
    have hnew : (db.toMemoryDb.created (file.memoryFile lib)).documents.get?
        db.documents.nextRowid = some (newDocument (file.memoryFile lib)) := by
      rw [created, Table.get?_insert_nextRowid, if_pos rfl]
    exact carries_addRevision hnew rfl rfl rfl
  let base : MemoryCatalog γ := { db with
    toMemoryDb := (db.toMemoryDb.created (file.memoryFile lib)).addRevision
      db.documents.nextRowid (file.memoryFile lib)
    sourcePath := Function.update db.sourcePath db.documents.nextRowid file.path
    source := db.recordSource lib file none }
  have hrun : ingestContent lib disk db file retention =
      recordRevision disk db base
        ⟨db.documents.nextRowid, db.revisions.nextRowid, file.repositoryIdentity, file.memoryDir⟩
        file.logicalPath (lib.redact file.text) retention := by
    simp only [ingestContent, hseen, hstored, unchangedRevision, Option.map_none, Option.getD_none,
      Option.bind_none, Option.filter_none, base]
  rw [hrun]
  exact recordRevision_spec base hlib hc (hc.create hstored) hcarries _

theorem ingestContent_refused (hseen : db.findDocument (file.memoryFile lib) = none)
    (huuid : ∃ j y, db.documents.get? j = some y ∧ y.uuid = (file.memoryFile lib).uuid) :
    ingestContent lib disk db file retention = .rolledBack db .integrityError := by
  obtain ⟨j, y, hy, hsame⟩ := huuid
  have hrefused : db.toMemoryDb.ingest (file.memoryFile lib) none = .error .integrityError := by
    rw [ingest_none]
    exact if_pos ⟨(j, y), Table.get?_eq_some.mp hy, Or.inl hsame⟩
  simp only [ingestContent, hseen, hrefused]

end Content

section Call

variable {γ : Type} {lib : IngestLibrary} {disk : Disk} {db : MemoryCatalog γ}
  {file : SourceFile} {retention : Retention} {d r : ℕ}

theorem currentRow_of_current {x : MemoryDocument} {rev : MemoryRevision}
    (hx : db.documents.get? d = some x) (hr : x.currentRevision = some r)
    (hrev : db.revisions.get? r = some rev) : db.currentRow d = some r := by
  simp [currentRow, hx, hr, hrev]

/-- The fast path finds the document of a file that was not edited. -/
theorem fastRow_carries (hlib : lib.Lawful) (hc : Consistent lib db.toMemoryDb db.source)
    (h : db.fastRow lib file = some (d, r)) :
    Carries lib db.toMemoryDb (db.ingestedRepository lib file) file d r := by
  obtain ⟨hrow, hhash⟩ := Option.filter_eq_some_iff.mp h
  obtain ⟨e, he, hfound⟩ := List.exists_of_findSome?_eq_some hrow
  obtain ⟨c, hcurrent, hcond⟩ := Option.bind_eq_some_iff.mp hfound
  split at hcond
  next hmatch =>
    cases hcond
    obtain ⟨-, hpath, -, hstate, -, -⟩ := hmatch
    have hx : db.documents.get? e.1 = some e.2 := Table.get?_eq_some.mpr he
    obtain ⟨r', rev, hr', hrev, -, hrec⟩ := hc.content e.1 e.2 hx
    have hrow' := currentRow_of_current hx hr' hrev
    rw [hcurrent, Option.some.injEq] at hrow'
    subst hrow'
    obtain ⟨text, hcontent, hsource, -⟩ := hrec (by simp [hstate])
    have htext : text = file.text := by
      apply hlib.injective
      rw [← hsource]
      exact (of_decide_eq_true hhash).symm
    refine ⟨e.2, rev, hx, ?_, hpath, hstate, hr', hrev, by rw [hcontent, htext]⟩
    simp [ingestedRepository, h, hx]
  next => cases hcond

/-- A rename either finds its path taken, or moves the document with its content. -/
theorem renameDocument_spec (hc : Consistent lib db.toMemoryDb db.source)
    (h : db.renamedDocument disk (file.memoryFile lib) = some d) :
    ((db.findDocument (file.memoryFile lib)).isSome ∧
      db.renameDocument d (file.memoryFile lib) file.path = .error .integrityError) ∨
    (db.findDocument (file.memoryFile lib) = none ∧ ∃ renamed r,
      db.renameDocument d (file.memoryFile lib) file.path = .ok renamed ∧
      Consistent lib renamed.toMemoryDb renamed.source ∧ renamed.currentRow d = some r ∧
      Carries lib renamed.toMemoryDb file.repositoryIdentity file d r) := by
  have hresolved := (Option.filter_eq_some_iff.mp h).1
  obtain ⟨x, r, rev, hx, hrepo, hpath, hlive, hr, hrev, hhash⟩ := resolveRename_spec hresolved
  cases hseen : db.findDocument (file.memoryFile lib) with
  | some seen =>
    obtain ⟨j, current⟩ := seen
    obtain ⟨y, hy, hyrepo, hypath, -⟩ := findDocument_eq_some hseen
    refine Or.inl ⟨rfl, ?_⟩
    have hother : ∃ e ∈ db.documents.entries, e.1 ≠ d ∧
        e.2.repository = (file.memoryFile lib).repository ∧
        e.2.logicalPath = (file.memoryFile lib).logicalPath := by
      refine ⟨(j, y), Table.get?_eq_some.mp hy, ?_, hyrepo, hypath⟩
      rintro rfl
      rw [hx, Option.some.injEq] at hy
      rw [← hy] at hypath
      exact hpath hypath
    have hrefused : db.toMemoryDb.rename d (file.memoryFile lib) = .error .integrityError :=
      if_pos hother
    simp only [renameDocument, hrefused]
  | none =>
    obtain ⟨moved, hmoved⟩ : ∃ moved, db.toMemoryDb.rename d (file.memoryFile lib) = .ok moved := by
      rw [rename_ok_iff]
      intro j y hy hyrepo hypath
      exact absurd hypath (findDocument_eq_none.mp hseen j y hy hyrepo)
    have hrow : moved.documents.get? d = some (x.renameTo file.logicalPath) ∧
        moved.revisions.get? r = some rev := by
      obtain ⟨new, -, -, -, rfl⟩ := rename_ok hmoved
      refine ⟨by rw [Table.get?_modify_self, hx]; rfl, ?_⟩
      rw [Table.get?_insert_nextRowid, if_neg (hc.current_lt hx hr).ne, hrev]
    refine Or.inr ⟨rfl, { db with
      toMemoryDb := moved
      sourcePath := Function.update db.sourcePath d file.path
      source := Function.update db.source db.revisions.nextRowid
        ⟨(file.memoryFile lib).contentHash, (file.memoryFile lib).observedAt, 0, none⟩ },
      r, ?_, hc.rename hx hrepo hlive hmoved _, currentRow_of_current hrow.1 hr hrow.2,
      x.renameTo file.logicalPath, rev, hrow.1, hrepo, rfl, rfl, hr, hrow.2, hhash⟩
    simp only [renameDocument, hmoved]

/-- What the ingest of a file does, by the tables before it. -/
theorem ingestMemoryFile_spec (hlib : lib.Lawful) (hc : Consistent lib db.toMemoryDb db.source)
    (disk : Disk) (file : SourceFile) (retention : Retention) :
    (db.PathTaken lib disk file ∨ db.UuidTaken lib disk file →
      ingestMemoryFile lib disk db file retention = .rolledBack db .integrityError) ∧
    (¬ db.PathTaken lib disk file → ¬ db.UuidTaken lib disk file → ∃ d r,
      Spec lib file (db.ingestedRepository lib file) (db.keptNames lib disk file retention) d r
        (ingestMemoryFile lib disk db file retention)) := by
  unfold PathTaken UuidTaken keptNames
  cases hfast : db.fastRow lib file with
  | some e =>
    obtain ⟨d, r⟩ := e
    have hroute : db.route lib disk file = .fast d r := by simp only [route, hfast]
    rw [hroute]
    constructor
    · rintro (⟨_, h, -⟩ | ⟨h, -⟩) <;> cases h
    · intro _ _
      have hcarries := fastRow_carries hlib hc hfast
      simp only [ingestMemoryFile, hfast]
      exact ⟨d, r, finish_spec hlib hc hcarries _⟩
  | none =>
    have hrepository : db.ingestedRepository lib file = file.repositoryIdentity := by
      simp only [ingestedRepository, hfast]
    rw [hrepository]
    cases hrename : db.renamedDocument disk (file.memoryFile lib) with
    | some d =>
      have hroute : db.route lib disk file = .rename d := by simp only [route, hfast, hrename]
      rw [hroute]
      rcases renameDocument_spec hc hrename with
        ⟨htaken, hrefused⟩ | ⟨hfree, renamed, r, hok, hconsistent, hrow, hcarries⟩
      · refine ⟨fun _ => by simp only [ingestMemoryFile, hfast, hrename, hrefused], ?_⟩
        intro hpath
        exact absurd ⟨d, rfl, htaken⟩ hpath
      · constructor
        · rintro (⟨_, -, h⟩ | ⟨h, -⟩)
          · rw [hfree] at h
            cases h
          · cases h
        · intro _ _
          simp only [ingestMemoryFile, hfast, hrename, hok, hrow]
          exact ⟨d, r, finish_spec hlib (hconsistent.prune d retention)
            (hcarries.prune hconsistent retention) _⟩
    | none =>
      have hcall : ingestMemoryFile lib disk db file retention =
          ingestContent lib disk db file retention := by
        simp only [ingestMemoryFile, hfast, hrename]
      rw [hcall]
      cases hseen : db.findDocument (file.memoryFile lib) with
      | none =>
        have hroute : db.route lib disk file = .create := by
          simp only [route, hfast, hrename, hseen]
        rw [hroute]
        constructor
        · rintro (⟨_, h, -⟩ | ⟨-, huuid⟩)
          · cases h
          · exact ingestContent_refused hseen huuid
        · intro _ huuid
          refine ⟨_, _, ingestContent_create hlib hc hseen fun j y hy hsame => ?_⟩
          exact huuid ⟨rfl, j, y, hy, hsame⟩
      | some seen =>
        obtain ⟨d, current⟩ := seen
        cases hr : db.unchangedRevision (file.memoryFile lib) (some (d, current)) with
        | some r =>
          have hroute : db.route lib disk file = .unchanged d r := by
            simp only [route, hfast, hrename, hseen, hr]
          rw [hroute]
          constructor
          · rintro (⟨_, h, -⟩ | ⟨h, -⟩) <;> cases h
          · intro _ _
            exact ⟨d, r, ingestContent_unchanged hlib hc hseen hr⟩
        | none =>
          have hroute : db.route lib disk file = .change d := by
            simp only [route, hfast, hrename, hseen, hr]
          rw [hroute]
          constructor
          · rintro (⟨_, h, -⟩ | ⟨h, -⟩) <;> cases h
          · intro _ _
            exact ⟨d, _, ingestContent_change hlib hc hseen hr⟩

end Call

section Runs

variable {γ : Type} {lib : IngestLibrary} {db db' : MemoryCatalog γ}

/-- What an ingest leaves is consistent, whether it returned or raised. -/
theorem consistent_ingest (hlib : lib.Lawful) (hc : Consistent lib db.toMemoryDb db.source)
    (disk : Disk) (file : SourceFile) (retention : Retention) :
    let attempt := ingestMemoryFile lib disk db file retention
    Consistent lib attempt.committed.toMemoryDb attempt.committed.source ∧
      Consistent lib attempt.working.toMemoryDb attempt.working.source := by
  obtain ⟨hrefused, hspec⟩ := ingestMemoryFile_spec hlib hc disk file retention
  dsimp only
  by_cases htaken : db.PathTaken lib disk file ∨ db.UuidTaken lib disk file
  · rw [hrefused htaken]
    exact ⟨hc, hc⟩
  · obtain ⟨hpath, huuid⟩ := not_or.mp htaken
    obtain ⟨d, r, h⟩ := hspec hpath huuid
    exact ⟨h.committed, h.working⟩

theorem consistent_step (hlib : lib.Lawful) (hc : Consistent lib db.toMemoryDb db.source)
    {a : Action γ} (h : step lib db a = some db') :
    Consistent lib db'.toMemoryDb db'.source := by
  cases a with
  | ingest disk file retention rollback =>
    obtain ⟨hcommitted, hworking⟩ := consistent_ingest hlib hc disk file retention
    simp only [step, Option.some.injEq] at h
    rw [← h]
    cases rollback
    · exact hworking
    · exact hcommitted
  | missing d =>
    obtain ⟨x, hx, hsome⟩ := Option.bind_eq_some_iff.mp h
    split at hsome
    next hactive =>
      cases hsome
      refine hc.modifyDocument (fun y c hy => hy) fun y hy => ?_
      rw [hx, Option.some.injEq] at hy
      subst hy
      simp [MemoryDocument.missing, hactive]
    next => cases hsome
  | tombstone d now vecOk =>
    simp only [step, tombstoneDocument] at h
    split at h
    · cases h
      exact hc
    next x hx =>
      split at h
      · cases h
        exact hc
      · split at h
        · cases h
        next buried hburied =>
          cases h
          exact hc.tombstone hx hburied _
  | prune d retention =>
    cases h
    exact hc.prune d retention
  | write revision body vecOk =>
    obtain ⟨stored, hstored, rfl⟩ := Option.map_eq_some_iff.mp h
    cases hwrite : db.toMemoryDb.writeMemoryKnowledgeNode revision body vecOk with
    | error e =>
      rw [hwrite] at hstored
      cases hstored
    | ok db' =>
      rw [hwrite] at hstored
      cases hstored
      exact hc.write hwrite

theorem consistent_of_reaches (hlib : lib.Lawful) (h : Reaches (step lib) empty db) :
    Consistent lib db.toMemoryDb db.source :=
  h.invariant (I := fun db => Consistent lib db.toMemoryDb db.source)
    (fun _ _ _ hc _ hstep => consistent_step hlib hc hstep) consistent_empty

/-- One document at the file's path is not tombstoned, and it carries the file's content. -/
def StoredOnce (lib : IngestLibrary) (db : MemoryDb γ) (repository : String) (file : SourceFile) :
    Prop :=
  ∃ d r, Carries lib db repository file d r ∧
    ∀ j x, db.documents.get? j = some x → x.repository = repository →
      x.logicalPath = file.logicalPath → x.state ≠ .tombstoned → j = d

theorem Carries.storedOnce {repository : String} {file : SourceFile} {d r : ℕ} {stored : MemoryDb γ}
    {source : ℕ → RevisionSource} (h : Carries lib stored repository file d r)
    (hc : Consistent lib stored source) : StoredOnce lib stored repository file := by
  refine ⟨d, r, h, fun j y hy hrepo hpath _ => ?_⟩
  obtain ⟨x, -, hx, hxrepo, hxpath, -⟩ := h
  exact hc.path_unique j d y x hy hx (hrepo.trans hxrepo.symm) (hpath.trans hxpath.symm)

end Runs

section Sample

def sampleLibrary : IngestLibrary where
  sha256 := fun text => "sha256:" ++ text
  redact := id
  chunks := fun text => [text]

theorem sampleLibrary_lawful : sampleLibrary.Lawful where
  injective := fun _ _ h => String.append_right_inj _ |>.mp h
  nonempty := by
    intro text h
    have hlength := congrArg String.length h
    simp [sampleLibrary] at hlength

/-- A disk with the files of the given names. -/
def diskOf (names : List String) : Disk where
  inside := fun _ _ => true
  isFile := fun _ name => name ∈ names
  present := fun path => ∃ name ∈ names, path = "/memory/" ++ name

def memoryNote (name text : String) (mtimeMs : ℤ) : SourceFile :=
  ⟨"/memory/" ++ name, "/memory", text, mtimeMs, text.length, name, some "repo", "", mtimeMs⟩

def sampleRetention : Retention := ⟨20, 0⟩

/-- A poll ingests a file that is there with others. -/
def poll (names : List String) (name text : String) (mtimeMs : ℤ) : Action Unit :=
  .ingest (diskOf names) (memoryNote name text mtimeMs) sampleRetention false

end Sample

end Hippo.MemoryCatalog
