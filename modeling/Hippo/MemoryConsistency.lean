import Hippo.MemoryIngest
import Hippo.MemoryRuns

/-!
# What the ingest, the renames and the tombstones keep

No two documents share a path in a repository. The current revision of a document records the
text it was read from, or is the one of its tombstone.
-/
namespace Hippo
open MemoryLinks Memory

/-- What the ingest relies on: SHA-256 digests do not collide and are not empty. -/
structure IngestLibrary.Lawful (lib : IngestLibrary) : Prop where
  injective : Function.Injective lib.sha256
  nonempty : ∀ text, lib.sha256 text ≠ ""

namespace MemoryDb

variable {γ : Type} {db db' : MemoryDb γ} {d : ℕ} {file : MemoryFile}

theorem findDocument_eq_some {current : Option ℕ} (h : db.findDocument file = some (d, current)) :
    ∃ x, db.documents.get? d = some x ∧ x.repository = file.repository ∧
      x.logicalPath = file.logicalPath ∧ x.currentRevision = current := by
  obtain ⟨e, he, heq⟩ := Option.map_eq_some_iff.mp h
  obtain ⟨rfl, rfl⟩ := Prod.mk.inj heq
  have hpath : e.2.repository = file.repository ∧ e.2.logicalPath = file.logicalPath := by
    simpa using List.find?_some he
  exact ⟨e.2, Table.get?_eq_some.mpr (List.mem_of_find?_eq_some he), hpath.1, hpath.2, rfl⟩

theorem findDocument_eq_none : db.findDocument file = none ↔
    ∀ j y, db.documents.get? j = some y → y.repository = file.repository →
      y.logicalPath ≠ file.logicalPath := by
  rw [findDocument, Option.map_eq_none_iff, List.find?_eq_none]
  constructor
  · intro h j y hy hrepo hpath
    have hno := h (j, y) (Table.get?_eq_some.mp hy)
    simp [hrepo, hpath] at hno
  · intro h e he
    have hno := h e.1 e.2 (Table.get?_eq_some.mpr he)
    simpa using hno

/-- The row of the revision that was added, and the pointer to it. -/
theorem addRevision_row (db : MemoryDb γ) (d : ℕ) (file : MemoryFile) :
    ∃ rev status, rev.contentHash = file.contentHash ∧
      (∀ j, (db.addRevision d file).revisions.get? j =
        if j = db.revisions.nextRowid then some rev else db.revisions.get? j) ∧
      (db.addRevision d file).documents =
        db.documents.modify d (MemoryDocument.advance db.revisions.nextRowid status) :=
  ⟨_, _, rfl, fun j => Table.get?_insert_nextRowid db.revisions j _, rfl⟩

/-- The document that is created at a free path under a free `uuid`. -/
def newDocument (file : MemoryFile) : MemoryDocument :=
  ⟨file.uuid, file.repository, file.logicalPath, .active, .pending, none, none⟩

def created (db : MemoryDb γ) (file : MemoryFile) : MemoryDb γ :=
  { db with documents := db.documents.insert db.documents.nextRowid (newDocument file) }

def touched (db : MemoryDb γ) (d : ℕ) : MemoryDb γ :=
  { db with documents := db.documents.modify d MemoryDocument.seenAgain }

theorem ingest_none : db.ingest file none =
    if ∃ e ∈ db.documents.entries, e.2.uuid = file.uuid ∨
        (e.2.repository = file.repository ∧ e.2.logicalPath = file.logicalPath) then
      .error .integrityError
    else .ok ((db.created file).addRevision db.documents.nextRowid file) := rfl

theorem ingest_some {current : Option ℕ} : db.ingest file (some (d, current)) =
    if (current.bind db.revisions.get?).map MemoryRevision.contentHash = some file.contentHash then
      .ok (db.touched d)
    else .ok ((db.touched d).addRevision d file) := rfl

theorem resolveRename_spec (h : db.resolveRename file false = some d) :
    ∃ x r rev, db.documents.get? d = some x ∧ x.repository = file.repository ∧
      x.logicalPath ≠ file.logicalPath ∧ x.state ≠ .tombstoned ∧ x.currentRevision = some r ∧
      db.revisions.get? r = some rev ∧ rev.contentHash = file.contentHash := by
  unfold resolveRename at h
  split at h
  next e heq =>
    rw [if_neg Bool.false_ne_true, Option.some.injEq] at h
    subst h
    have hmem := List.mem_filter.mp (heq ▸ List.mem_singleton_self e)
    obtain ⟨hrepo, hpath, hhash, hstate⟩ := of_decide_eq_true hmem.2
    obtain ⟨rev, hrev, hcontent⟩ := Option.map_eq_some_iff.mp hhash
    obtain ⟨r, hr, hrow⟩ := Option.bind_eq_some_iff.mp hrev
    refine ⟨e.2, r, rev, Table.get?_eq_some.mpr hmem.1, hrepo, hpath, ?_, hr, hrow, hcontent⟩
    rcases hstate with hstate | hstate <;> simp [hstate]
  next => cases h

/-- Only unprotected revisions of the document itself are pruned. -/
theorem mem_prunable {pointers : List ℕ} {retention : Retention} {r : ℕ}
    (h : r ∈ db.prunable d pointers retention) :
    r ∉ pointers ∧ ∃ rev, db.revisions.get? r = some rev ∧ rev.documentId = d := by
  have hloop : ∀ (surviving deletable : List ℕ) (total : ℕ),
      r ∈ pruneLoop total retention.maxCount deletable surviving →
        r ∈ deletable ∨ r ∈ surviving := by
    intro surviving
    induction surviving with
    | nil =>
      intro deletable total hr
      exact Or.inl hr
    | cons s surviving ih =>
      intro deletable total hr
      unfold pruneLoop at hr
      split at hr
      · rcases ih _ _ hr with hr | hr
        · rcases List.mem_append.mp hr with hr | hr
          · exact Or.inl hr
          · rw [List.mem_singleton.mp hr]
            exact Or.inr List.mem_cons_self
        · exact Or.inr (List.mem_cons_of_mem s hr)
      · exact Or.inl hr
  have hrow : ∀ e ∈ orderBy (fun e => (e.2.number : ℤ))
      (db.revisions.select fun _ rev => rev.documentId = d),
      db.revisions.get? e.1 = some e.2 ∧ e.2.documentId = d :=
    fun e he => Table.mem_select.mp (mem_orderBy.mp he)
  rcases hloop _ _ _ h with h | h
  · obtain ⟨e, he, rfl⟩ := List.mem_map.mp h
    obtain ⟨hmem, hcond⟩ := List.mem_filter.mp he
    exact ⟨(of_decide_eq_true hcond).1, e.2, hrow e hmem⟩
  · obtain ⟨e, he, rfl⟩ := List.mem_map.mp h
    obtain ⟨hmem, hcond⟩ := List.mem_filter.mp he
    exact ⟨(of_decide_eq_true hcond).2, e.2, hrow e hmem⟩

theorem mem_pointers {x : MemoryDocument} {r : ℕ} (hx : db.documents.get? d = some x) :
    r ∈ db.pointers d ↔ x.PointsTo r := by
  simp [pointers, hx, MemoryDocument.PointsTo]

end MemoryDb

namespace MemoryCatalog
open MemoryDb

section Consistency

variable {γ : Type} {lib : IngestLibrary} {db db' : MemoryDb γ}
  {source source' : ℕ → RevisionSource} {d : ℕ} {x : MemoryDocument}

/-- The revision was made of a text. -/
def Recorded (lib : IngestLibrary) (rev : MemoryRevision) (src : RevisionSource) : Prop :=
  ∃ text, rev.contentHash = lib.sha256 (lib.redact text) ∧ src.sourceHash = lib.sha256 text ∧
    src.redactedContent = some (lib.redact text)

/-- What the current revision of a document is. -/
def Content (lib : IngestLibrary) (db : MemoryDb γ) (source : ℕ → RevisionSource)
    (x : MemoryDocument) : Prop :=
  ∃ r rev, x.currentRevision = some r ∧ db.revisions.get? r = some rev ∧
    (x.state = .tombstoned → rev.contentHash = "") ∧
    (x.state ≠ .tombstoned → Recorded lib rev (source r))

structure Consistent (lib : IngestLibrary) (db : MemoryDb γ) (source : ℕ → RevisionSource) :
    Prop where
  keyed : Keyed db
  path_unique : ∀ i j x y, db.documents.get? i = some x → db.documents.get? j = some y →
    x.repository = y.repository → x.logicalPath = y.logicalPath → i = j
  content : ∀ d x, db.documents.get? d = some x → Content lib db source x

theorem consistent_empty : Consistent lib (MemoryDb.empty : MemoryDb γ) source where
  keyed := keyed_empty
  path_unique := by
    intro i j x y h
    cases h
  content := by
    intro d x h
    cases h

/-- The current revision and its source are as they were. -/
theorem Content.mono {x' : MemoryDocument} (h : Content lib db source x)
    (hcurrent : x'.currentRevision = x.currentRevision)
    (hstate : x'.state = .tombstoned ↔ x.state = .tombstoned)
    (hrow : ∀ r ∈ x.currentRevision, db'.revisions.get? r = db.revisions.get? r ∧
      source' r = source r) : Content lib db' source' x' := by
  obtain ⟨r, rev, hr, hrev, htomb, hrec⟩ := h
  obtain ⟨hkeep, hsource⟩ := hrow r hr
  refine ⟨r, rev, hcurrent.trans hr, hkeep.trans hrev, fun ht => htomb (hstate.mp ht), ?_⟩
  intro ht
  rw [hsource]
  exact hrec fun h => ht (hstate.mpr h)

/-- Documents that stay where they are stay apart. -/
theorem Consistent.paths (h : Consistent lib db source)
    (hdocs : ∀ j y', db'.documents.get? j = some y' → ∃ y, db.documents.get? j = some y ∧
      y'.repository = y.repository ∧ y'.logicalPath = y.logicalPath) :
    ∀ i j x y, db'.documents.get? i = some x → db'.documents.get? j = some y →
      x.repository = y.repository → x.logicalPath = y.logicalPath → i = j := by
  intro i j x' y' hx' hy' hrepo hpath
  obtain ⟨x, hx, hxr, hxp⟩ := hdocs i x' hx'
  obtain ⟨y, hy, hyr, hyp⟩ := hdocs j y' hy'
  exact h.path_unique i j x y hx hy (by rw [← hxr, ← hyr, hrepo]) (by rw [← hxp, ← hyp, hpath])

/-- The current revision of another document is another one. -/
theorem Consistent.current_ne (h : Consistent lib db source) {i j r : ℕ} {y : MemoryDocument}
    (hx : db.documents.get? i = some x) (hy : db.documents.get? j = some y) (hij : j ≠ i)
    (hr : x.currentRevision = some r) : y.currentRevision ≠ some r := by
  intro hr'
  obtain ⟨rev, hrev, rfl⟩ := h.keyed.pointers i x r hx (Or.inl hr)
  obtain ⟨rev', hrev', rfl⟩ := h.keyed.pointers j y r hy (Or.inl hr')
  rw [hrev] at hrev'
  cases hrev'
  exact hij rfl

theorem Consistent.current_lt (h : Consistent lib db source) {r : ℕ}
    (hx : db.documents.get? d = some x) (hr : x.currentRevision = some r) :
    r < db.revisions.nextRowid :=
  h.keyed.pointsTo_lt hx (Or.inl hr)

/-- One document changes columns that do not matter here. -/
theorem Consistent.modifyDocument (h : Consistent lib db source) {f : MemoryDocument → MemoryDocument}
    (hpoints : ∀ y c, (f y).PointsTo c → y.PointsTo c)
    (hf : ∀ y, db.documents.get? d = some y → (f y).repository = y.repository ∧
      (f y).logicalPath = y.logicalPath ∧ (f y).currentRevision = y.currentRevision ∧
      ((f y).state = .tombstoned ↔ y.state = .tombstoned)) :
    Consistent lib { db with documents := db.documents.modify d f } source where
  keyed := h.keyed.modifyDocument hpoints
  path_unique := by
    refine h.paths fun j y' hy' => ?_
    obtain ⟨y, hy, ⟨rfl, rfl⟩ | ⟨-, rfl⟩⟩ := Table.eq_of_get?_modify hy'
    · exact ⟨y, hy, (hf y hy).1, (hf y hy).2.1⟩
    · exact ⟨y', hy, rfl, rfl⟩
  content := by
    intro j y' hy'
    obtain ⟨y, hy, ⟨rfl, rfl⟩ | ⟨-, rfl⟩⟩ := Table.eq_of_get?_modify hy'
    · exact (h.content j y hy).mono (hf y hy).2.2.1 (hf y hy).2.2.2 fun r hr => ⟨rfl, rfl⟩
    · exact (h.content j y' hy).mono rfl Iff.rfl fun r hr => ⟨rfl, rfl⟩

/-- A transaction that gives one document a new current revision. -/
theorem Consistent.advance (h : Consistent lib db source) (d : ℕ) (x' : MemoryDocument)
    {rev : MemoryRevision} (hkeyed : Keyed db')
    (hrevs : ∀ j, db'.revisions.get? j =
      if j = db.revisions.nextRowid then some rev else db.revisions.get? j)
    (hdocs : ∀ j, db'.documents.get? j = if j = d then some x' else db.documents.get? j)
    (hpath : ∀ j y, db.documents.get? j = some y → y.repository = x'.repository →
      y.logicalPath = x'.logicalPath → j = d)
    (hsource : ∀ j y r, j ≠ d → db.documents.get? j = some y → y.currentRevision = some r →
      source' r = source r)
    (hcurrent : x'.currentRevision = some db.revisions.nextRowid)
    (htomb : x'.state = .tombstoned → rev.contentHash = "")
    (hrec : x'.state ≠ .tombstoned → Recorded lib rev (source' db.revisions.nextRowid)) :
    Consistent lib db' source' where
  keyed := hkeyed
  path_unique := by
    intro i j y z hy hz hrepo hpaths
    rw [hdocs] at hy hz
    by_cases hi : i = d <;> by_cases hj : j = d
    · rw [hi, hj]
    · rw [if_pos hi] at hy
      rw [if_neg hj] at hz
      cases hy
      exact absurd (hpath j z hz hrepo.symm hpaths.symm) hj
    · rw [if_neg hi] at hy
      rw [if_pos hj] at hz
      cases hz
      exact absurd (hpath i y hy hrepo hpaths) hi
    · rw [if_neg hi] at hy
      rw [if_neg hj] at hz
      exact h.path_unique i j y z hy hz hrepo hpaths
  content := by
    intro j y hy
    rw [hdocs] at hy
    by_cases hj : j = d
    · rw [if_pos hj] at hy
      cases hy
      exact ⟨db.revisions.nextRowid, rev, hcurrent, by rw [hrevs, if_pos rfl], htomb, hrec⟩
    · rw [if_neg hj] at hy
      refine (h.content j y hy).mono rfl Iff.rfl fun r hr => ⟨?_, hsource j y r hj hy hr⟩
      rw [hrevs, if_neg (h.current_lt hy hr).ne]

end Consistency

section Transactions

variable {γ : Type} {lib : IngestLibrary} {db db' : MemoryDb γ}
  {source : ℕ → RevisionSource} {d : ℕ} {x : MemoryDocument} {input : MemoryFile}

theorem rename_ok_iff : (∃ db', db.rename d input = .ok db') ↔
    ∀ j y, db.documents.get? j = some y → y.repository = input.repository →
      y.logicalPath = input.logicalPath → j = d := by
  unfold MemoryDb.rename
  split
  next hother =>
    obtain ⟨e, he, hne, hrepo, hpath⟩ := hother
    refine iff_of_false ?_ fun h => hne (h e.1 e.2 (Table.get?_eq_some.mpr he) hrepo hpath)
    rintro ⟨db', hdb⟩
    cases hdb
  next hother =>
    refine iff_of_true ⟨_, rfl⟩ fun j y hy hrepo hpath => ?_
    by_contra hne
    exact hother ⟨(j, y), Table.get?_eq_some.mp hy, hne, hrepo, hpath⟩

theorem Consistent.rename (h : Consistent lib db source) (hx : db.documents.get? d = some x)
    (hrepo : x.repository = input.repository) (hlive : x.state ≠ .tombstoned)
    (hdb : db.rename d input = .ok db') (src : RevisionSource) :
    Consistent lib db' (Function.update source db.revisions.nextRowid src) := by
  have hfree := rename_ok_iff.mp ⟨db', hdb⟩
  have hkeyed : Keyed db' := h.keyed.rename (Option.isSome_of_mem hx) hdb
  obtain ⟨rev, -, -, -, rfl⟩ := rename_ok hdb
  refine { keyed := hkeyed, path_unique := ?_, content := ?_ }
  · intro i j y' z' hy' hz' hrepos hpaths
    obtain ⟨y, hy, ⟨rfl, rfl⟩ | ⟨hi, rfl⟩⟩ := Table.eq_of_get?_modify hy' <;>
      obtain ⟨z, hz, ⟨rfl, rfl⟩ | ⟨hj, rfl⟩⟩ := Table.eq_of_get?_modify hz'
    · rfl
    · rw [hx, Option.some.injEq] at hy
      subst hy
      exact absurd (hfree j z' hz (hrepos.symm.trans hrepo) hpaths.symm) hj
    · rw [hx, Option.some.injEq] at hz
      subst hz
      exact absurd (hfree i y' hy (hrepos.trans hrepo) hpaths) hi
    · exact h.path_unique i j y' z' hy hz hrepos hpaths
  · intro j y' hy'
    have hrow : ∀ y, db.documents.get? j = some y → ∀ r ∈ y.currentRevision,
        (db.revisions.insert db.revisions.nextRowid rev).get? r = db.revisions.get? r ∧
          Function.update source db.revisions.nextRowid src r = source r := by
      intro y hy r hr
      have hlt := h.current_lt hy hr
      rw [Table.get?_insert_nextRowid, if_neg hlt.ne]
      exact ⟨rfl, Function.update_of_ne hlt.ne src source⟩
    obtain ⟨y, hy, ⟨rfl, rfl⟩ | ⟨hj, rfl⟩⟩ := Table.eq_of_get?_modify hy'
    · rw [hx, Option.some.injEq] at hy
      subst hy
      have hstate : (x.renameTo input.logicalPath).state = .tombstoned ↔ x.state = .tombstoned := by
        simp [MemoryDocument.renameTo, hlive]
      exact (h.content j x hx).mono rfl hstate (hrow x hx)
    · exact (h.content j y' hy).mono rfl Iff.rfl (hrow y' hy)

/-- The current revisions survive a pruning. -/
theorem Consistent.kept (h : Consistent lib db source) (d : ℕ) (retention : Retention) {j r : ℕ}
    {y : MemoryDocument} (hy : db.documents.get? j = some y) (hr : y.currentRevision = some r) :
    r ∉ db.prunable d (db.pointers d) retention := by
  intro hmem
  obtain ⟨hprotected, rev, hrev, rfl⟩ := mem_prunable hmem
  obtain ⟨rev', hrev', howner⟩ := h.keyed.pointers j y r hy (Or.inl hr)
  rw [hrev] at hrev'
  cases hrev'
  rw [howner] at hprotected
  exact hprotected ((mem_pointers hy).mpr (Or.inl hr))

/-- What a pruning makes of a document. -/
theorem get?_deleteRevisions {ids : List ℕ} {j : ℕ} {y' : MemoryDocument}
    (h : (db.deleteRevisions ids).documents.get? j = some y') :
    ∃ y, db.documents.get? j = some y ∧ y' = y.forget ids := by
  obtain ⟨y, hy, rfl⟩ := Option.map_eq_some_iff.mp ((Table.get?_mapRows _ _ j).symm.trans h)
  exact ⟨y, hy, rfl⟩

theorem Consistent.prune (h : Consistent lib db source) (d : ℕ) (retention : Retention) :
    Consistent lib (db.deleteRevisions (db.prunable d (db.pointers d) retention)) source where
  keyed := h.keyed.deleteRevisions _
  path_unique := by
    refine h.paths fun j y' hy' => ?_
    obtain ⟨y, hy, rfl⟩ := get?_deleteRevisions hy'
    exact ⟨y, hy, rfl, rfl⟩
  content := by
    intro j y' hy'
    obtain ⟨y, hy, rfl⟩ := get?_deleteRevisions hy'
    obtain ⟨r, rev, hr, hrev, htomb, hrec⟩ := h.content j y hy
    have hkept := h.kept d retention hy hr
    refine ⟨r, rev, ?_, Table.get?_delete_eq_some.mpr ⟨hrev, hkept⟩, htomb, hrec⟩
    simp [MemoryDocument.forget, hr, hkept]

theorem Consistent.tombstone (h : Consistent lib db source)
    (hx : db.documents.get? d = some x) {node : Option ℕ} {now : ℤ} {vecOk : Bool}
    (hdb : db.tombstone d node now vecOk = .ok db') (src : RevisionSource) :
    Consistent lib db' (Function.update source db.revisions.nextRowid src) := by
  have hkeyed : Keyed db' := h.keyed.tombstone (Option.isSome_of_mem hx) hdb
  have hrow : ∃ (rev : MemoryRevision) (store : KnowledgeStore (MemoryNode γ)),
      rev.contentHash = "" ∧ db' = ⟨db.documents.modify d
        (MemoryDocument.bury db.revisions.nextRowid),
        db.revisions.insert db.revisions.nextRowid rev, db.queue, store⟩ := by
    cases node with
    | none =>
      cases hdb
      exact ⟨_, _, rfl, rfl⟩
    | some n =>
      obtain ⟨store, -, heq⟩ := bind_eq_ok.mp hdb
      cases heq
      exact ⟨_, store, rfl, rfl⟩
  obtain ⟨rev, store, hhash, rfl⟩ := hrow
  refine h.advance d (x.bury db.revisions.nextRowid) hkeyed
    (fun j => Table.get?_insert_nextRowid _ j rev) ?_ ?_ ?_ rfl (fun _ => hhash) ?_
  · intro j
    rw [Table.get?_modify]
    split
    next hj => rw [hj, hx, Option.map_some]
    next => rfl
  · intro j y hy hrepo hpath
    exact h.path_unique j d y x hy hx hrepo hpath
  · intro j y r _ hy hr
    exact Function.update_of_ne (h.current_lt hy hr).ne src source
  · intro hlive
    exact absurd rfl hlive

theorem Consistent.write (h : Consistent lib db source) {r : ℕ} {body : γ} {vecOk : Bool}
    (hdb : db.writeMemoryKnowledgeNode r body vecOk = .ok db') : Consistent lib db' source := by
  have hkeyed : Keyed db' := h.keyed.write hdb
  obtain ⟨rev, y, -, hy, ⟨-, -, rfl⟩ | ⟨-, store, -, rfl⟩⟩ := writeMemoryKnowledgeNode_ok hdb
  · exact { keyed := hkeyed, path_unique := h.path_unique, content := h.content }
  · have hmod : ∀ j z', (db.documents.modify rev.documentId
        (MemoryDocument.publish r)).get? j = some z' → ∃ z, db.documents.get? j = some z ∧
          z'.repository = z.repository ∧ z'.logicalPath = z.logicalPath ∧
          z'.currentRevision = z.currentRevision ∧ z'.state = z.state := by
      intro j z' hz'
      obtain ⟨z, hz, ⟨-, rfl⟩ | ⟨-, rfl⟩⟩ := Table.eq_of_get?_modify hz'
      · exact ⟨z, hz, rfl, rfl, rfl, rfl⟩
      · exact ⟨z', hz, rfl, rfl, rfl, rfl⟩
    refine { keyed := hkeyed, path_unique := ?_, content := ?_ }
    · refine h.paths fun j z' hz' => ?_
      obtain ⟨z, hz, hrepo, hpath, -, -⟩ := hmod j z' hz'
      exact ⟨z, hz, hrepo, hpath⟩
    · intro j z' hz'
      obtain ⟨z, hz, -, -, hcurrent, hstate⟩ := hmod j z' hz'
      exact (h.content j z hz).mono hcurrent (by rw [hstate]) fun r hr => ⟨rfl, rfl⟩

end Transactions

section Ingest

variable {γ : Type} {lib : IngestLibrary} {db : MemoryCatalog γ} {db' : MemoryDb γ} {d : ℕ}
  {file : SourceFile}

/-- The content of a new revision is that of the file. -/
theorem recorded_new (lib : IngestLibrary) (db : MemoryCatalog γ) (file : SourceFile)
    (current : Option ℕ) {rev : MemoryRevision}
    (hrev : rev.contentHash = (file.memoryFile lib).contentHash) :
    Recorded lib rev (db.recordSource lib file current db.revisions.nextRowid) := by
  refine ⟨file.text, hrev, ?_, ?_⟩ <;> simp [recordSource]

/-- Only the new and the superseded revision have other sources. -/
theorem recordSource_of_ne {current : Option ℕ} {r : ℕ} (hnew : r ≠ db.revisions.nextRowid)
    (hold : current ≠ some r) : db.recordSource lib file current r = db.source r := by
  simp [recordSource, hnew, hold]

/-- A new document at a free path. -/
theorem Consistent.create (h : Consistent lib db.toMemoryDb db.source)
    (hdb : db.toMemoryDb.ingest (file.memoryFile lib) none = .ok db') :
    Consistent lib db' (db.recordSource lib file none) := by
  have hkeyed : Keyed db' := h.keyed.ingest (by simp) hdb
  rw [ingest_none] at hdb
  split at hdb
  next => cases hdb
  next hfresh =>
    obtain ⟨rev, status, hhash, hrevs, hdocs⟩ := addRevision_row
      (db.created (file.memoryFile lib)) db.documents.nextRowid (file.memoryFile lib)
    cases hdb
    refine h.advance db.documents.nextRowid
      ((newDocument (file.memoryFile lib)).advance db.revisions.nextRowid status)
      hkeyed hrevs ?_ ?_ ?_ rfl ?_ fun _ => recorded_new lib db file none hhash
    · intro j
      rw [hdocs, Table.get?_modify, created, Table.get?_insert_nextRowid]
      split <;> rfl
    · intro j y hy hrepo hpath
      exact absurd ⟨(j, y), Table.get?_eq_some.mp hy, Or.inr ⟨hrepo, hpath⟩⟩ hfresh
    · intro j y r _ hy hr
      exact recordSource_of_ne (h.current_lt hy hr).ne (by simp)
    · intro htomb
      cases htomb

/-- A new revision of a document that is there. -/
theorem Consistent.change (h : Consistent lib db.toMemoryDb db.source) {x : MemoryDocument}
    (hx : db.documents.get? d = some x) :
    Consistent lib ((db.touched d).addRevision d (file.memoryFile lib))
      (db.recordSource lib file x.currentRevision) := by
  have hkeyed : Keyed ((db.touched d).addRevision d (file.memoryFile lib)) := by
    have htouched : Keyed (db.touched d) := h.keyed.modifyDocument fun y c hc => hc
    refine htouched.addRevision ?_
    rw [touched, Table.get?_modify_isSome]
    exact Option.isSome_of_mem hx
  obtain ⟨rev, status, hhash, hrevs, hdocs⟩ := addRevision_row (db.touched d) d
    (file.memoryFile lib)
  refine h.advance d (x.seenAgain.advance db.revisions.nextRowid status) hkeyed hrevs ?_ ?_ ?_ rfl
    ?_ fun _ => recorded_new lib db file x.currentRevision hhash
  · intro j
    rw [hdocs, Table.get?_modify, touched, Table.get?_modify]
    split
    next hj =>
      rw [hj, hx, Option.map_some, Option.map_some]
    next => rfl
  · intro j y hy hrepo hpath
    exact h.path_unique j d y x hy hx hrepo hpath
  · intro j y r hj hy hr
    refine recordSource_of_ne (h.current_lt hy hr).ne fun hcurrent => ?_
    exact h.current_ne hx hy hj hcurrent hr
  · intro htomb
    cases htomb

/-- The content of the file is that of the current revision. -/
theorem Consistent.touch (h : Consistent lib db.toMemoryDb db.source) {x : MemoryDocument}
    (hx : db.documents.get? d = some x) (hlive : x.state ≠ .tombstoned) :
    Consistent lib (db.touched d) db.source := by
  refine h.modifyDocument (fun y c hc => hc) fun y hy => ?_
  rw [hx, Option.some.injEq] at hy
  subst hy
  refine ⟨rfl, rfl, rfl, ?_⟩
  simp [MemoryDocument.seenAgain, hlive]

end Ingest

end MemoryCatalog

end Hippo
