import Hippo.MemoryConsistency
import Hippo.MemoryPolls
import Hippo.MemoryProjection

/-!
# What an ingest does to the documents of other files

An ingest is a sequence of writes: of the file's content, of a rename, of a prune, and of columns
that no other function reads. Each keeps the projections sound, and leaves the documents of all
other files in their state with their nodes. So does the tombstone of another document.
-/
namespace Hippo.Memory
open Hippo MemoryDb Transition

section Transactions

variable {γ : Type} {w : World γ} {db' : MemoryDb γ} {file : MemoryFile} {d : ℕ}

/-- A transaction of a call that reads what it needs just before. -/
theorem Sound.transaction (h : Sound w) (op : Op) {a : Action γ}
    (hdoc : ∀ d ∈ op.document, (w.db.documents.get? d).isSome) (hrev : op.revision = none)
    (hok : KeepsProjection { w with ops := w.ops ++ [op] } a)
    (he : Effect { w with ops := w.ops ++ [op] } a
      { w with db := db', ops := replaceAt (w.ops ++ [op]) w.ops.length [] }) :
    Sound { w with db := db' } := by
  have hstarted : Sound { w with ops := w.ops ++ [op] } :=
    h.effect (a := .selectPointers 0) trivial (.started hdoc hrev)
  have hdone := hstarted.effect hok he
  rwa [replaceAt_last, List.append_nil] at hdone

theorem getElem?_last (w : World γ) (op : Op) : (w.ops ++ [op])[w.ops.length]? = some op := by
  simp

theorem Sound.ingest (h : Sound w)
    (hdb : w.db.ingest file (w.db.findDocument file) = .ok db') : Sound { w with db := db' } := by
  refine h.transaction (.ingesting file (w.db.findDocument file))
    (a := .ingest w.ops.length) (fun d hd => ?_) rfl trivial
    (.ingest (getElem?_last w _) hdb)
  obtain ⟨⟨d', current⟩, hseen, rfl⟩ := Option.map_eq_some_iff.mp hd
  obtain ⟨x, hx, -⟩ := findDocument_eq_some hseen
  exact Option.isSome_of_mem hx

theorem Sound.rename (h : Sound w) (hd : w.db.resolveRename file false = some d)
    (hdb : w.db.rename d file = .ok db') : Sound { w with db := db' } := by
  refine h.transaction (.moving file d) (a := .rename w.ops.length) (fun j hj => ?_) rfl
    trivial (.rename (getElem?_last w _) hdb)
  cases hj
  obtain ⟨x, hx⟩ := mem_resolveRename hd
  exact Option.isSome_of_mem hx

/-- No document points to a revision that is pruned. -/
theorem Keyed.not_pointsTo_of_prunable {db : MemoryDb γ} (h : Keyed db) {retention : Retention}
    {r : ℕ} (hr : r ∈ db.prunable d (db.pointers d) retention) {j : ℕ} {x : MemoryDocument}
    (hx : db.documents.get? j = some x) : ¬ x.PointsTo r := by
  intro hpoints
  obtain ⟨hpointers, rev, hrev, hdoc⟩ := mem_prunable hr
  obtain ⟨rev', hrev', hdoc'⟩ := h.pointers j x r hx hpoints
  rw [hrev, Option.some.injEq] at hrev'
  subst hrev'
  have hj : j = d := hdoc'.symm.trans hdoc
  subst hj
  exact hpointers ((mem_pointers hx).mpr hpoints)

theorem Sound.prune (h : Sound w) (d : ℕ) (retention : Retention) :
    Sound { w with db := w.db.deleteRevisions (w.db.prunable d (w.db.pointers d) retention) } := by
  refine h.transaction (.deletingRevisions (w.db.prunable d (w.db.pointers d) retention))
    (a := .prune w.ops.length) (fun _ hd => by cases hd) rfl ?_ (.prune (getElem?_last w _))
  simp only [KeepsProjection, getElem?_last]
  intro e he r hr
  exact h.keyed.db.not_pointsTo_of_prunable hr (Table.get?_eq_some.mpr he)

theorem Sound.missing (h : Sound w) (d : ℕ) : Sound { w with
    db := { w.db with documents := w.db.documents.modify d MemoryDocument.missing } } :=
  h.effect (a := .missing d) trivial (.missing d)

/-- The node of the document's active revision is found, and only chunks link it. -/
def Removable (db : MemoryDb γ) (d : ℕ) : Prop :=
  ∀ x ∈ db.documents.get? d, ∀ r ∈ x.activeRevision, ∃ n ∈ db.store.linkedNode r,
    ∀ l ∈ db.store.links, l.node = n → l.table = .memoryChunks

theorem Sound.tombstone (h : Sound w) {x : MemoryDocument} (hx : w.db.documents.get? d = some x)
    (hremovable : Removable w.db d) {now : ℤ} {vecOk : Bool}
    (hdb : w.db.tombstone d (x.activeRevision.bind w.db.store.linkedNode) now vecOk = .ok db') :
    Sound { w with db := db' } := by
  refine h.transaction
    (.deletingNode d (x.activeRevision.bind w.db.store.linkedNode))
    (a := .tombstone w.ops.length now vecOk) (fun j hj => ?_) rfl ?_
    (.tombstone (getElem?_last w _) hdb)
  · cases hj
    exact Option.isSome_of_mem hx
  · simp only [KeepsProjection, getElem?_last]
    intro y hy r hr
    rw [hx, Option.mem_some_iff] at hy
    subst hy
    obtain ⟨n, hn, -⟩ := hremovable x hx r hr
    exact ⟨n, by rw [Option.mem_def.mp hr]; exact hn, KnowledgeStore.linkedNode_eq_some hn⟩

end Transactions

end Hippo.Memory

namespace Hippo.MemoryCatalog
open MemoryLinks MemoryDb Memory Transition

variable {γ : Type} {c c' c'' : MemoryCatalog γ} {d e : ℕ} {path : String}

/-- The state of a document, if it is there. -/
def stateOf (c : MemoryCatalog γ) (d : ℕ) : Option DocumentState :=
  (c.documents.get? d).map MemoryDocument.state

/-- The document stays in its state at its file, and its node is found as before. -/
structure Follows (d : ℕ) (c c' : MemoryCatalog γ) : Prop where
  path : c'.sourcePath d = c.sourcePath d
  state : c'.stateOf d = c.stateOf d
  removable : Removable c.toMemoryDb d → Removable c'.toMemoryDb d

theorem Follows.refl (d : ℕ) (c : MemoryCatalog γ) : Follows d c c where
  path := rfl
  state := rfl
  removable := id

theorem Follows.trans (h : Follows d c c') (h' : Follows d c' c'') : Follows d c c'' where
  path := h'.path.trans h.path
  state := h'.state.trans h.state
  removable := h'.removable ∘ h.removable

/-- The row and the nodes are the same. -/
theorem Follows.of_row (hrow : c'.documents.get? d = c.documents.get? d)
    (hstore : c'.store = c.store) (hpath : c'.sourcePath d = c.sourcePath d) :
    Follows d c c' where
  path := hpath
  state := by rw [stateOf, stateOf, hrow]
  removable := by
    intro h
    rw [Removable, hrow, hstore]
    exact h

/-- What is looked for is not filtered out. -/
theorem find?_filter_eq_self {α : Type} {p q : α → Bool} {l : List α}
    (h : ∀ a ∈ l, p a = true → q a = true) : (l.filter q).find? p = l.find? p := by
  induction l with
  | nil => rfl
  | cons a l ih =>
    have hl : (l.filter q).find? p = l.find? p :=
      ih fun b hb => h b (List.mem_cons_of_mem a hb)
    by_cases hp : p a = true
    · simp [h a List.mem_cons_self hp, hp]
    · by_cases hq : q a = true
      · simp [hq, hp, hl]
      · simp [hq, hp, hl]

/-- Fewer links, but all those of the active revision. -/
theorem removable_of_filter {db db' : MemoryDb γ} {keep : Link → Prop} [DecidablePred keep]
    (hlinks : db'.store.links = db.store.links.filter fun l => keep l)
    (hactive : ∀ x' ∈ db'.documents.get? d, ∀ r ∈ x'.activeRevision,
      (∃ x ∈ db.documents.get? d, r ∈ x.activeRevision) ∧
        ∀ n, ⟨.memoryChunks, n, r⟩ ∈ db.store.links → keep ⟨.memoryChunks, n, r⟩)
    (h : Removable db d) : Removable db' d := by
  intro x' hx' r hr
  obtain ⟨⟨x, hx, hrx⟩, hkeep⟩ := hactive x' hx' r hr
  obtain ⟨n, hn, hchunks⟩ := h x hx r hrx
  have hsame : db'.store.linkedNode r = db.store.linkedNode r := by
    rw [KnowledgeStore.linkedNode, KnowledgeStore.linkedNode, hlinks, find?_filter_eq_self]
    rintro ⟨table, m, target⟩ hmem hl
    obtain ⟨rfl, rfl⟩ : table = .memoryChunks ∧ target = r := by simpa using hl
    simpa using hkeep m hmem
  refine ⟨n, by rw [hsame]; exact hn, fun l hl hnode => ?_⟩
  rw [hlinks] at hl
  exact hchunks l (List.mem_filter.mp hl).1 hnode

theorem follows_prune (d e : ℕ) (c : MemoryCatalog γ) (retention : Retention) :
    Follows e c (c.pruneDocumentRevisions d retention) := by
  have hrow : (c.pruneDocumentRevisions d retention).documents.get? e =
      (c.documents.get? e).map
        (MemoryDocument.forget (c.prunable d (c.pointers d) retention)) :=
    Table.get?_mapRows _ _ e
  constructor
  · rfl
  · rw [stateOf, stateOf, hrow, Option.map_map]
    rfl
  · let keep := fun l : Link =>
      ¬ (l.table = .memoryChunks ∧ l.target ∈ c.prunable d (c.pointers d) retention)
    have hlinks : (c.pruneDocumentRevisions d retention).store.links =
        c.store.links.filter fun l => keep l := rfl
    refine removable_of_filter hlinks fun x' hx' r hr => ?_
    rw [hrow] at hx'
    obtain ⟨x, hx, rfl⟩ := Option.map_eq_some_iff.mp hx'
    obtain ⟨hr, hkept⟩ := Option.mem_filter_iff.mp hr
    exact ⟨⟨x, hx, hr⟩, fun n _ hdeleted => of_decide_eq_true hkept hdeleted.2⟩

section Ingest

/-- One write of the ingest of the file at the path. -/
inductive IngestWrite (path : String) : MemoryCatalog γ → MemoryCatalog γ → Prop
  /-- The links and the columns of the revisions' sources. -/
  | columns {c c' : MemoryCatalog γ} (hdb : c'.toMemoryDb = c.toMemoryDb)
      (hpath : c'.sourcePath = c.sourcePath) : IngestWrite path c c'
  | content {c c' : MemoryCatalog γ} {input : MemoryFile}
      (hdb : c.toMemoryDb.ingest input (c.findDocument input) = .ok c'.toMemoryDb)
      (hpath : c'.sourcePath = Function.update c.sourcePath
        (((c.findDocument input).map Prod.fst).getD c.documents.nextRowid) path) :
      IngestWrite path c c'
  | rename {c c' : MemoryCatalog γ} {input : MemoryFile} {d : ℕ}
      (hd : c.resolveRename input false = some d)
      (hdb : c.toMemoryDb.rename d input = .ok c'.toMemoryDb)
      (hpath : c'.sourcePath = Function.update c.sourcePath d path) : IngestWrite path c c'
  | prune {c : MemoryCatalog γ} (d : ℕ) (retention : Retention) :
      IngestWrite path c (c.pruneDocumentRevisions d retention)

/-- An ingest leaves a row alone that is not the found one, or the new one. -/
theorem ingest_documents_of_ne {db db' : MemoryDb γ} {input : MemoryFile}
    {seen : Option SeenDocument} (hdb : db.ingest input seen = .ok db')
    (he : e ≠ (seen.map Prod.fst).getD db.documents.nextRowid) :
    db'.documents.get? e = db.documents.get? e := by
  cases seen with
  | none =>
    rcases ingest_cases hdb with ⟨new, -, -, -, -, -, rfl⟩ | ⟨d, current, hseen, -⟩
    · have hnew : e ≠ db.documents.nextRowid := he
      rw [addRevision, Table.get?_modify_of_ne _ hnew, Table.get?_insert_nextRowid, if_neg hnew]
    · cases hseen
  | some seen =>
    obtain ⟨d, current⟩ := seen
    have hd : e ≠ d := he
    rw [ingest_some] at hdb
    split at hdb
    · cases hdb
      exact Table.get?_modify_of_ne _ hd _
    · cases hdb
      rw [addRevision, Table.get?_modify_of_ne _ hd]
      exact Table.get?_modify_of_ne _ hd _

/-- A write does nothing to the documents that are not of the file afterwards. -/
theorem IngestWrite.follows (h : IngestWrite path c c') (he : c'.sourcePath e ≠ path) :
    Follows e c c' := by
  cases h with
  | columns hdb hpath => exact .of_row (by rw [hdb]) (by rw [hdb]) (by rw [hpath])
  | @content _ input hdb hpath =>
    have hne : e ≠ ((c.findDocument input).map Prod.fst).getD c.documents.nextRowid := by
      rintro rfl
      rw [hpath, Function.update_self] at he
      exact he rfl
    refine .of_row (ingest_documents_of_ne hdb hne) (ingest_store hdb) ?_
    rw [hpath, Function.update_of_ne hne]
  | @rename _ input d hd hdb hpath =>
    have hne : e ≠ d := by
      rintro rfl
      rw [hpath, Function.update_self] at he
      exact he rfl
    obtain ⟨rev, -, -, -, hrow⟩ := rename_ok hdb
    refine .of_row ?_ (by rw [hrow]) (by rw [hpath, Function.update_of_ne hne])
    rw [hrow]
    exact Table.get?_modify_of_ne _ hne _
  | prune d retention => exact follows_prune d e c retention

theorem IngestWrite.sound (h : IngestWrite path c c') {w : World γ}
    (hs : Sound { w with db := c.toMemoryDb }) : Sound { w with db := c'.toMemoryDb } := by
  cases h with
  | columns hdb hpath => rwa [hdb]
  | content hdb hpath => exact hs.ingest hdb
  | rename hd hdb hpath => exact hs.rename hd hdb
  | prune d retention => exact hs.prune d retention

abbrev IngestWrites (path : String) : MemoryCatalog γ → MemoryCatalog γ → Prop :=
  Relation.ReflTransGen (IngestWrite path)

/-- The documents that an ingest spares: it is not their file, so their source stays too. -/
theorem IngestWrites.follows (h : IngestWrites path c c') (he : c'.sourcePath e ≠ path) :
    Follows e c c' := by
  induction h with
  | refl => exact .refl e c
  | tail _ hlast ih =>
    have hfollows := hlast.follows he
    rw [hfollows.path] at he
    exact (ih he).trans hfollows

theorem IngestWrites.sound (h : IngestWrites path c c') {w : World γ}
    (hs : Sound { w with db := c.toMemoryDb }) : Sound { w with db := c'.toMemoryDb } := by
  induction h with
  | refl => exact hs
  | tail _ hlast ih => exact hlast.sound ih

variable {lib : IngestLibrary} {disk : Disk} {db : MemoryCatalog γ} {file : SourceFile}
  {source : LinkSource} {logicalPath redacted : String} {retention : Retention}

/-- Both ends of a call are reached by its writes. -/
def Attempt.Writes (path : String) (db : MemoryCatalog γ) (attempt : Attempt γ) : Prop :=
  IngestWrites path db attempt.committed ∧ IngestWrites path db attempt.working

theorem Attempt.Writes.after {mid : MemoryCatalog γ} {attempt : Attempt γ}
    (h : attempt.Writes path mid) (hmid : IngestWrites path db mid) : attempt.Writes path db :=
  ⟨hmid.trans h.1, hmid.trans h.2⟩

theorem applyTaxonomy_writes (path : String) (disk : Disk) (db : MemoryCatalog γ) (source : LinkSource)
    (logicalPath redacted : String) (changed : Bool) :
    IngestWrite path db (applyTaxonomy disk db source logicalPath redacted changed).1 := by
  have hcolumns : (applyTaxonomy disk db source logicalPath redacted changed).1.toMemoryDb =
      db.toMemoryDb ∧
      (applyTaxonomy disk db source logicalPath redacted changed).1.sourcePath = db.sourcePath := by
    unfold applyTaxonomy
    dsimp only
    split
    · split
      · exact ⟨rfl, rfl⟩
      · exact ⟨rfl, rfl⟩
    · exact ⟨rfl, rfl⟩
  exact .columns hcolumns.1 hcolumns.2

theorem finish_writes : (finish disk db source logicalPath).Writes path db := by
  have htaxonomy := applyTaxonomy_writes path disk db source logicalPath "" false
  unfold finish
  split
  · rename_i heq
    rw [heq] at htaxonomy
    exact ⟨.single htaxonomy, .single htaxonomy⟩
  · rename_i heq
    rw [heq] at htaxonomy
    exact ⟨.refl, .single htaxonomy⟩

theorem keepRevision_writes {touched : MemoryCatalog γ} (h : IngestWrites path db touched) :
    (keepRevision disk db touched source logicalPath redacted).Writes path db := by
  have htaxonomy := applyTaxonomy_writes path disk touched source logicalPath redacted
    false
  unfold keepRevision
  split
  · rename_i heq
    rw [heq] at htaxonomy
    exact ⟨h.tail htaxonomy, h.tail htaxonomy⟩
  · exact ⟨.refl, .refl⟩

theorem recordRevision_writes {written : MemoryCatalog γ} (h : IngestWrites path db written) :
    (recordRevision disk db written source logicalPath redacted retention).Writes path db := by
  have htaxonomy := applyTaxonomy_writes path disk written source logicalPath redacted
    true
  unfold recordRevision
  split
  · rename_i db' heq
    rw [heq] at htaxonomy
    have hpruned := (h.tail htaxonomy).tail (.prune source.document retention)
    exact ⟨hpruned, hpruned⟩
  · exact ⟨.refl, .refl⟩

theorem ingestContent_writes : (ingestContent lib disk db file retention).Writes file.path db := by
  simp only [ingestContent]
  split
  · exact ⟨.refl, .refl⟩
  · rename_i stored hstored
    have hcontent : IngestWrite file.path db { db with
        toMemoryDb := stored
        sourcePath := Function.update db.sourcePath
          (((db.findDocument (file.memoryFile lib)).map Prod.fst).getD db.documents.nextRowid)
          file.path } := .content hstored rfl
    split
    · exact keepRevision_writes (.single hcontent)
    · refine recordRevision_writes ((Relation.ReflTransGen.single hcontent).tail ?_)
      exact .columns rfl rfl

/-- Everything that an ingest leaves behind, it wrote. -/
theorem ingestMemoryFile_writes (lib : IngestLibrary) (disk : Disk) (db : MemoryCatalog γ)
    (file : SourceFile) (retention : Retention) :
    (ingestMemoryFile lib disk db file retention).Writes file.path db := by
  simp only [ingestMemoryFile]
  split
  · exact finish_writes
  · split
    · exact ingestContent_writes
    · rename_i d hd
      have hresolved := (Option.filter_eq_some_iff.mp hd).1
      split
      · exact ⟨.refl, .refl⟩
      · rename_i renamed hrenamed
        have hwrite : IngestWrite file.path db renamed := by
          unfold renameDocument at hrenamed
          split at hrenamed
          · cases hrenamed
          · rename_i hdb
            cases hrenamed
            exact .rename hresolved hdb rfl
        split
        · exact ingestContent_writes.after (.single hwrite)
        · exact finish_writes.after ((Relation.ReflTransGen.single hwrite).tail (.prune d _))

end Ingest

end Hippo.MemoryCatalog
