import Hippo.MemoryFleet

/-!
# The count of absent polls

Whether a file was missed before is kept in the state of its document, which can tell a first
absent poll from a later one. So a document is tombstoned at the first absent poll or at the second,
whatever larger number of polls is configured. A poll that reads the file again makes the document
active, and the count restarts.
-/
namespace Hippo.MemoryCatalog
open MemoryLinks MemoryDb Memory Transition

section Active

variable {γ : Type} {c c' : MemoryCatalog γ} {d e r : ℕ} {path : String} {lib : IngestLibrary}
  {disk : Disk} {db : MemoryCatalog γ} {file : SourceFile} {retention : Retention}

/-- An ingest leaves a document in its state, or makes it active. -/
theorem ingest_stateOf {input : MemoryFile}
    (hdb : c.toMemoryDb.ingest input (c.findDocument input) = .ok c'.toMemoryDb) :
    c'.stateOf e = if e = ((c.findDocument input).map Prod.fst).getD c.documents.nextRowid
      then some .active else c.stateOf e := by
  split
  · rename_i he
    subst he
    rw [stateOf_eq_some]
    cases hseen : c.findDocument input with
    | none =>
      rw [hseen, ingest_none] at hdb
      split at hdb
      · cases hdb
      · obtain ⟨rev, status, -, -, hdocs⟩ :=
          addRevision_row (c.toMemoryDb.created input) c.documents.nextRowid input
        rw [← Except.ok.inj hdb, hdocs, Option.map_none, Option.getD_none,
          Table.get?_modify_self, created, Table.get?_insert_nextRowid, if_pos rfl]
        exact ⟨_, rfl, rfl⟩
    | some seen =>
      obtain ⟨d, current⟩ := seen
      obtain ⟨x, hx, -⟩ := findDocument_eq_some hseen
      have htouched : (c.toMemoryDb.touched d).documents.get? d = some x.seenAgain := by
        rw [touched, Table.get?_modify_self, hx, Option.map_some]
      rw [hseen, ingest_some] at hdb
      rw [Option.map_some, Option.getD_some]
      split at hdb
      · rw [← Except.ok.inj hdb]
        exact ⟨x.seenAgain, htouched, rfl⟩
      · obtain ⟨rev, status, -, -, hdocs⟩ := addRevision_row (c.toMemoryDb.touched d) d input
        rw [← Except.ok.inj hdb, hdocs, Table.get?_modify_self, htouched, Option.map_some]
        exact ⟨_, rfl, rfl⟩
  · rename_i he
    rw [stateOf, stateOf, ingest_documents_of_ne hdb he]

/-- The document is active and its file is there. -/
def OnDisk (present : String → Bool) (c : MemoryCatalog γ) (d : ℕ) : Prop :=
  c.stateOf d = some .active ∧ present (c.sourcePath d) = true

/-- A document on the disk stays on it in the ingest of a file that is there. -/
theorem IngestWrite.onDisk {present : String → Bool} (h : IngestWrite path c c')
    (hpresent : present path = true) (hd : OnDisk present c d) : OnDisk present c' d := by
  obtain ⟨hstate, hfile⟩ := hd
  have hmoved : ∀ j, present (Function.update c.sourcePath j path d) = true := by
    intro j
    rw [Function.update_apply]
    split
    · exact hpresent
    · exact hfile
  cases h with
  | columns hdb hpath =>
    refine ⟨?_, by rw [hpath]; exact hfile⟩
    rw [stateOf, hdb]
    exact hstate
  | content hdb hpath =>
    refine ⟨?_, by rw [hpath]; exact hmoved _⟩
    rw [ingest_stateOf hdb]
    split
    · rfl
    · exact hstate
  | @rename _ input j hj hdb hpath =>
    refine ⟨?_, by rw [hpath]; exact hmoved _⟩
    obtain ⟨rev, -, -, -, hrow⟩ := rename_ok hdb
    obtain ⟨x, hx, hactive⟩ := stateOf_eq_some.mp hstate
    rw [stateOf, hrow, Table.get?_modify]
    split
    · rw [hx]
      rfl
    · rw [hx]
      exact congrArg some hactive
  | prune j retention => exact ⟨(follows_prune j d c retention).state.trans hstate, hfile⟩

theorem IngestWrites.onDisk {present : String → Bool} (h : IngestWrites path c c')
    (hpresent : present path = true) (hd : OnDisk present c d) : OnDisk present c' d := by
  induction h with
  | refl => exact hd
  | tail _ hlast ih => exact hlast.onDisk hpresent ih

/-- Whatever the ingests of a poll find, a document on the disk stays on it. -/
theorem onDisk_of_ingests {poll : Poll} {sources : List MemorySource}
    (hd : OnDisk poll.snap.present db d) :
    OnDisk poll.snap.present (sources.foldl (reconcileSource lib poll) db) d := by
  induction sources generalizing db with
  | nil => exact hd
  | cons s ss ih =>
    refine ih ?_
    unfold reconcileSource
    split
    · rename_i file hfound
      obtain ⟨hcommitted, hworking⟩ := ingestMemoryFile_writes lib poll.snap.toDisk db file
        (poll.config.retention poll.now)
      dsimp only
      split
      · exact hworking.onDisk (look_found hfound) hd
      · exact hcommitted.onDisk (look_found hfound) hd
    · exact hd

/-- The ingest of the file finds the document by its path, and does not have to rebuild links of
an index that cannot be stored. -/
def Reads (lib : IngestLibrary) (disk : Disk) (db : MemoryCatalog γ) (file : SourceFile) (d : ℕ) :
    Prop :=
  match db.route lib disk file with
  | .fast d' _ => d' = d
  | .unchanged d' r => d' = d ∧ (file.logicalPath = indexLogicalPath → storedNames db.links d = [] →
      Storable ((db.source r).redactedContent.getD ""))
  | .change d' => d' = d ∧ (file.logicalPath = indexLogicalPath → Storable (lib.redact file.text))
  | _ => False

theorem applyTaxonomy_ok {source : LinkSource} {logicalPath redacted : String} {changed : Bool}
    (h : logicalPath = indexLogicalPath → changed ∨ storedNames db.links source.document = [] →
      Storable (db.linkBody source.revision redacted)) :
    ∃ db', applyTaxonomy disk db source logicalPath redacted changed = (db', .ok ()) :=
  ⟨_, Prod.ext rfl (applyTaxonomy_ok_iff.mpr h)⟩

theorem fastRow_active (h : db.fastRow lib file = some (d, r)) :
    db.stateOf d = some .active ∧ db.sourcePath d = file.path := by
  obtain ⟨hrow, -⟩ := Option.filter_eq_some_iff.mp h
  obtain ⟨e, he, hfound⟩ := List.exists_of_findSome?_eq_some hrow
  obtain ⟨c, -, hcond⟩ := Option.bind_eq_some_iff.mp hfound
  split at hcond
  · rename_i hmatch
    cases hcond
    obtain ⟨hfile, -, -, hstate, -, -⟩ := hmatch
    exact ⟨stateOf_eq_some.mpr ⟨e.2, Table.get?_eq_some.mpr he, hstate⟩, hfile⟩
  · cases hcond

/-- The text of the stored revision, when it is given, is the text whose links are stored. -/
theorem linkBody_stored (db : MemoryCatalog γ) (r : ℕ) :
    db.linkBody r ((db.source r).redactedContent.getD "") =
      (db.source r).redactedContent.getD "" := by
  unfold linkBody
  dsimp only
  split
  · rename_i hempty
    cases db.revisions.get? r with
    | none => exact hempty.symm
    | some rev => rfl
  · rfl

/-- A file that is read makes its document active. -/
theorem Reads.onDisk {present : String → Bool} (h : Reads lib disk db file d)
    (hpresent : present file.path = true) :
    OnDisk present (ingestMemoryFile lib disk db file retention).committed d ∧
      OnDisk present (ingestMemoryFile lib disk db file retention).working d := by
  unfold Reads at h
  cases hfast : db.fastRow lib file with
  | some e =>
    obtain ⟨d', r⟩ := e
    have hroute : db.route lib disk file = .fast d' r := by simp only [route, hfast]
    rw [hroute] at h
    subst h
    obtain ⟨hactive, hfile⟩ := fastRow_active hfast
    have hd : OnDisk present db d' := ⟨hactive, by rw [hfile]; exact hpresent⟩
    obtain ⟨hcommitted, hworking⟩ := ingestMemoryFile_writes lib disk db file retention
    exact ⟨hcommitted.onDisk hpresent hd, hworking.onDisk hpresent hd⟩
  | none =>
    cases hrename : db.renamedDocument disk (file.memoryFile lib) with
    | some j =>
      have hroute : db.route lib disk file = .rename j := by simp only [route, hfast, hrename]
      rw [hroute] at h
      exact h.elim
    | none =>
      have hcall : ingestMemoryFile lib disk db file retention =
          ingestContent lib disk db file retention := by
        simp only [ingestMemoryFile, hfast, hrename]
      rw [hcall]
      cases hseen : db.findDocument (file.memoryFile lib) with
      | none =>
        have hroute : db.route lib disk file = .create := by
          simp only [route, hfast, hrename, hseen]
        rw [hroute] at h
        exact h.elim
      | some seen =>
        obtain ⟨j, current⟩ := seen
        -- the found document is touched, and the end of the transaction commits
        obtain ⟨stored, hstored⟩ : ∃ stored, db.toMemoryDb.ingest (file.memoryFile lib)
            (some (j, current)) = .ok stored := by
          rw [ingest_some]
          split
          · exact ⟨_, rfl⟩
          · exact ⟨_, rfl⟩
        have htouched : ∀ {base : MemoryCatalog γ}, base.toMemoryDb = stored →
            base.sourcePath = Function.update db.sourcePath j file.path →
            OnDisk present base j := by
          intro base hbase hfile
          have hrow := @ingest_stateOf γ db base j (file.memoryFile lib)
            (by rw [hseen, hbase]; exact hstored)
          rw [hseen, Option.map_some, Option.getD_some, if_pos rfl] at hrow
          refine ⟨hrow, ?_⟩
          rw [hfile, Function.update_self]
          exact hpresent
        cases hr : db.unchangedRevision (file.memoryFile lib) (some (j, current)) with
        | some r =>
          have hroute : db.route lib disk file = .unchanged j r := by
            simp only [route, hfast, hrename, hseen, hr]
          rw [hroute] at h
          obtain ⟨rfl, hstorable⟩ := h
          let base : MemoryCatalog γ := { db with
            toMemoryDb := stored
            sourcePath := Function.update db.sourcePath j file.path }
          have hbody : base.linkBody r ((db.source r).redactedContent.getD "") =
              (db.source r).redactedContent.getD "" := linkBody_stored base r
          obtain ⟨db', hok⟩ := @applyTaxonomy_ok γ disk base
            ⟨j, r, file.repositoryIdentity, file.memoryDir⟩ file.logicalPath
            ((db.source r).redactedContent.getD "") false fun hindex hnames => by
              rw [hbody]
              exact hstorable hindex (hnames.resolve_left Bool.false_ne_true)
          have hend : OnDisk present db' j := by
            have hwrite := applyTaxonomy_writes file.path disk base
              ⟨j, r, file.repositoryIdentity, file.memoryDir⟩ file.logicalPath
              ((db.source r).redactedContent.getD "") false
            rw [hok] at hwrite
            exact hwrite.onDisk hpresent (htouched rfl rfl)
          have hrun : ingestContent lib disk db file retention = .done db' j := by
            simp only [ingestContent, hseen, hstored, hr, keepRevision, Option.map_some,
              Option.getD_some]
            rw [hok]
          rw [hrun]
          exact ⟨hend, hend⟩
        | none =>
          have hroute : db.route lib disk file = .change j := by
            simp only [route, hfast, hrename, hseen, hr]
          rw [hroute] at h
          obtain ⟨rfl, hstorable⟩ := h
          let base : MemoryCatalog γ := { db with
            toMemoryDb := stored
            sourcePath := Function.update db.sourcePath j file.path
            source := db.recordSource lib file current }
          have hbody : base.linkBody db.revisions.nextRowid (lib.redact file.text) =
              lib.redact file.text := by
            have htext : (base.source db.revisions.nextRowid).redactedContent.getD "" =
                lib.redact file.text := by
              simp [base, recordSource]
            rw [← htext]
            exact linkBody_stored base db.revisions.nextRowid
          obtain ⟨db', hok⟩ := @applyTaxonomy_ok γ disk base
            ⟨j, db.revisions.nextRowid, file.repositoryIdentity, file.memoryDir⟩ file.logicalPath
            (lib.redact file.text) true fun hindex _ => by
              rw [hbody]
              exact hstorable hindex
          have hend : OnDisk present (db'.pruneDocumentRevisions j retention) j := by
            have hwrite := applyTaxonomy_writes file.path disk base
              ⟨j, db.revisions.nextRowid, file.repositoryIdentity, file.memoryDir⟩
              file.logicalPath (lib.redact file.text) true
            rw [hok] at hwrite
            have hpruned : IngestWrite file.path db' (db'.pruneDocumentRevisions j retention) :=
              .prune j retention
            exact hpruned.onDisk hpresent (hwrite.onDisk hpresent (htouched rfl rfl))
          have hrun : ingestContent lib disk db file retention =
              .done (db'.pruneDocumentRevisions j retention) j := by
            simp only [ingestContent, hseen, hstored, hr, recordRevision, Option.map_some,
              Option.getD_some, Option.bind_some]
            rw [hok]
          rw [hrun]
          exact ⟨hend, hend⟩

end Active

end Hippo.MemoryCatalog

namespace Hippo.Fleet
open MemoryCatalog MemoryDb Memory Transition

section Watched

variable {γ : Type} {lib : IngestLibrary} {w w' : Fleet γ} {poll : Poll} {path : String}
  {d k : ℕ} {N : ℤ}

/-- The poll reads the file for the document, at the turn of a source of the file. -/
def ReadsAgain (lib : IngestLibrary) (poll : Poll) (db : MemoryCatalog γ) (path : String) (d : ℕ) :
    Prop :=
  ∃ ss s ss' file, poll.snap.loadSources poll.config = ss ++ s :: ss' ∧
    poll.snap.look poll.now s = .found file ∧ file.path = path ∧
    Reads lib poll.snap.toDisk (ss.foldl (reconcileSource lib poll) db) file d

/-- A run of polls of a configured source, with enrichments between them, from a state in which its
document is active. `N` is the configured number of polls, and the last `k` polls found the file
absent. While it is absent the document stays that of the file. -/
inductive Watched (lib : IngestLibrary) (path : String) (d : ℕ) (N : ℤ) :
    ℕ → Fleet γ → Fleet γ → Prop
  | start {w : Fleet γ} (hd : w.catalog.stateOf d = some .active) : Watched lib path d N 0 w w
  | absent {k : ℕ} {w v : Fleet γ} {poll : Poll} (h : Watched lib path d N k w v)
      (hok : Meets v (.poll poll)) (hconf : poll.Configures path)
      (hN : poll.config.confirmPolls = N) (haway : poll.snap.present path = false)
      (hpath : (v.catalog.reconcileFromConfig lib poll).sourcePath d = path) :
      Watched lib path d N (k + 1) w
        { v with catalog := v.catalog.reconcileFromConfig lib poll }
  | present {k : ℕ} {w v : Fleet γ} {poll : Poll} (h : Watched lib path d N k w v)
      (hok : Meets v (.poll poll)) (hconf : poll.Configures path)
      (hN : poll.config.confirmPolls = N) (hreads : ReadsAgain lib poll v.catalog path d) :
      Watched lib path d N 0 w { v with catalog := v.catalog.reconcileFromConfig lib poll }
  | enrichment {k : ℕ} {w v u : Fleet γ} {a : Memory.Action γ} (h : Watched lib path d N k w v)
      (hok : Meets v (.enrichment a)) (hstep : step lib v (.enrichment a) = some u) :
      Watched lib path d N k w u

/-- The state of the document after `k` absent polls. -/
def stateAfter (N : ℤ) : ℕ → DocumentState
  | 0 => .active
  | 1 => if N ≤ 1 then .tombstoned else .unavailable
  | _ => .tombstoned

theorem nextState_stateAfter {config : AutoMemory} (hN : config.confirmPolls = N) (k : ℕ) :
    nextState config (stateAfter N k) = stateAfter N (k + 1) := by
  match k with
  | 0 => simp only [stateAfter, nextState, hN]
  | 1 =>
    simp only [stateAfter]
    split
    · rfl
    · rfl
  | k + 2 => rfl

/-- A poll that reads the file leaves its document active. -/
theorem active_of_readsAgain (hs : Sound w.world) (hclear : Clear poll poll.paths w.catalog)
    (hconf : poll.Configures path) (hreads : ReadsAgain lib poll w.catalog path d) :
    (w.catalog.reconcileFromConfig lib poll).stateOf d = some .active := by
  obtain ⟨ss, s, ss', file, hsources, hfound, rfl, hreads⟩ := hreads
  have hpresent := look_found hfound
  let sources := ss ++ s :: ss'
  have hingested : OnDisk poll.snap.present
      (sources.foldl (reconcileSource lib poll) w.catalog) d := by
    rw [List.foldl_append, List.foldl_cons]
    refine onDisk_of_ingests ?_
    obtain ⟨hcommitted, hworking⟩ :=
      @Reads.onDisk _ _ _ _ _ _ (poll.config.retention poll.now) _ hreads hpresent
    simp only [reconcileSource, hfound]
    split
    · exact hworking
    · exact hcommitted
  have hclear' : Clear poll (poll.snap.configuredPaths sources) w.catalog := by
    rwa [Poll.paths, if_pos hconf.1, hsources] at hclear
  have hs' : Sound { w.world with db := w.catalog.toMemoryDb } := hs
  obtain ⟨hsound, hspares⟩ := ingest_spares lib poll sources hs'
  obtain ⟨c', hok, -, -, hworking, -⟩ := reconcileConfiguredSources_spec hsound
    (poll.snap.nodup_configuredPaths sources) (hclear'.of_spares hspares)
  -- the check misses absent files only
  have hspared : ¬ Missed poll (sources.foldl (reconcileSource lib poll) w.catalog)
      (poll.snap.configuredPaths sources) d := by
    rintro ⟨-, habsent⟩
    rw [hingested.2] at habsent
    cases habsent
  have hrun : w.catalog.reconcileFromConfig lib poll = c'.working := by
    have hsome : poll.snap.loadSources poll.config = sources := hsources
    rw [reconcileFromConfig, if_neg (not_not.mpr hconf.1), hsome]
    cases hcases : sources with
    | nil => simp [sources] at hcases
    | cons s' rest =>
      rw [hcases] at hok
      simp only [reconcileSources, hok]
  rw [hrun, (hworking d).2.2 hspared]
  exact hingested.1

theorem Watched.stateOf (h : Watched lib path d N k w w') (hs : Sound w.world) :
    Sound w'.world ∧ w'.catalog.stateOf d = some (stateAfter N k) := by
  induction h with
  | start hd => exact ⟨hs, hd⟩
  | @absent k w v poll _ hok hconf hN haway hpath ih =>
    obtain ⟨hsound, hstate⟩ := ih hs
    refine ⟨sound_step hsound hok rfl, ?_⟩
    obtain ⟨hsource, hmissed, -⟩ :=
      (reconcileFromConfig_spec lib hsound hok).2 d (by rw [hpath]; exact haway)
    have hm : Missed poll v.catalog poll.paths d := by
      rw [Missed, ← hsource, hpath]
      exact ⟨(Poll.mem_paths_iff haway).mpr hconf, haway⟩
    rw [hmissed hm, hstate, Option.map_some, nextState_stateAfter hN]
  | present _ hok hconf hN hreads ih =>
    obtain ⟨hsound, -⟩ := ih hs
    exact ⟨sound_step hsound hok rfl, active_of_readsAgain hsound hok hconf hreads⟩
  | enrichment _ hok hstep ih =>
    obtain ⟨hsound, hstate⟩ := ih hs
    exact ⟨sound_step hsound hok hstep, ((enrichment_frame hstep).2 d).trans hstate⟩

theorem Watched.one_le (h : Watched lib path d N k w w') (hk : 0 < k) : 1 ≤ N := by
  induction h with
  | start hd => cases hk
  | absent _ _ _ hN _ _ _ =>
    rw [← hN]
    exact le_max_right _ _
  | present _ _ _ _ _ _ => cases hk
  | enrichment _ _ _ ih => exact ih hk

end Watched

section Sample

/-- A poll that finds the file, and two that do not, with a configured number of polls. -/
theorem watched_sample {config : AutoMemory} {N : ℤ} (hN : config.confirmPolls = N)
    (hconf : (samplePoll config []).Configures "/memory/a.md")
    (h : ((exec (guarded (step sampleLibrary) Meets) init
        [.poll (samplePoll config ["/memory/a.md"])]).any fun w : Fleet Unit =>
      decide (w.catalog.stateOf 1 = some .active) &&
        (guarded (step sampleLibrary) Meets w (.poll (samplePoll config []))).any fun v =>
          decide (v.catalog.sourcePath 1 = "/memory/a.md") &&
            (guarded (step sampleLibrary) Meets v (.poll (samplePoll config []))).any fun u =>
              decide (u.catalog.sourcePath 1 = "/memory/a.md")) = true) :
    ∃ w w' : Fleet Unit, Run (step sampleLibrary) Meets init w ∧
      Watched sampleLibrary "/memory/a.md" 1 N 2 w w' := by
  obtain ⟨w, hw, hrest⟩ := (Option.any_eq_true _ _).mp h
  obtain ⟨hactive, hrest⟩ := Bool.and_eq_true_iff.mp hrest
  obtain ⟨v, hv, hrest⟩ := (Option.any_eq_true _ _).mp hrest
  obtain ⟨hpath, hrest⟩ := Bool.and_eq_true_iff.mp hrest
  obtain ⟨u, hu, hpath'⟩ := (Option.any_eq_true _ _).mp hrest
  obtain ⟨hfirst, hv⟩ := guarded_eq_some.mp hv
  obtain ⟨hsecond, hu⟩ := guarded_eq_some.mp hu
  cases hv
  cases hu
  have hone := (Watched.start (of_decide_eq_true hactive)).absent hfirst hconf hN rfl
    (of_decide_eq_true hpath)
  exact ⟨w, _, exec_guarded_run hw,
    hone.absent hsecond hconf hN rfl (of_decide_eq_true hpath')⟩

end Sample

end Hippo.Fleet
