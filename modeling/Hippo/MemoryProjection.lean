import Hippo.MemoryRuns

/-!
# The projection of a memory document

A document has at most one projection node, the node of its active revision. The writer and
the tombstone find the node they delete through the chunk links of the active revision, so
they miss it when that revision has no chunk; and the pruning goes by pointers it read
before. In runs without these steps every property of the projection holds.
-/
namespace Hippo.Memory
open Hippo Hippo.MemoryDb Hippo.Transition KnowledgeStore

section LinkedStore
variable {γ : Type} {st st' : KnowledgeStore (MemoryNode γ)} {revisions : Table ℕ MemoryRevision}
  {n m r : ℕ} {p : ProjectionUuid}

/-- The nodes with their chunk links: uuids are unique, a link to a chunk comes from a node
of the chunk's revision, and the node of a revision with chunks has a link. -/
structure LinkedStore (st : KnowledgeStore (MemoryNode γ)) (revisions : Table ℕ MemoryRevision) :
    Prop where
  unique : ∀ n n' p, st.NodeAt n p → st.NodeAt n' p → n = n'
  linked : ∀ n r, ⟨.memoryChunks, n, r⟩ ∈ st.links → ∃ u, st.NodeAt n ⟨u, r⟩
  links : ∀ n p rev, st.NodeAt n p → revisions.get? p.revision = some rev → rev.chunks ≠ [] →
    ⟨.memoryChunks, n, p.revision⟩ ∈ st.links

theorem linkedStore_empty :
    LinkedStore (KnowledgeStore.empty : KnowledgeStore (MemoryNode γ)) Table.empty where
  unique := by
    rintro n n' p ⟨node, hget, -⟩
    cases hget
  linked := by
    intro n r h
    cases h
  links := by
    rintro n p rev ⟨node, hget, -⟩
    cases hget

/-- Rows of other revisions do not matter. -/
theorem LinkedStore.mono (h : LinkedStore st revisions) {revisions' : Table ℕ MemoryRevision}
    (hrevs : ∀ n p rev, st.NodeAt n p → revisions'.get? p.revision = some rev →
      revisions.get? p.revision = some rev) : LinkedStore st revisions' where
  unique := h.unique
  linked := h.linked
  links := fun n p rev hn hrev => h.links n p rev hn (hrevs n p rev hn hrev)

theorem LinkedStore.congr (h : LinkedStore st revisions) (hnodes : st'.nodes = st.nodes)
    (hlinks : ∀ n r, ⟨.memoryChunks, n, r⟩ ∈ st'.links ↔ ⟨.memoryChunks, n, r⟩ ∈ st.links) :
    LinkedStore st' revisions := by
  have hnode : ∀ n p, st'.NodeAt n p ↔ st.NodeAt n p := by
    intro n p
    rw [NodeAt, hnodes, NodeAt]
  constructor
  · intro n n' p hn hn'
    exact h.unique n n' p ((hnode n p).mp hn) ((hnode n' p).mp hn')
  · intro n r hl
    obtain ⟨u, hu⟩ := h.linked n r ((hlinks n r).mp hl)
    exact ⟨u, (hnode n _).mpr hu⟩
  · intro n p rev hn hrev hne
    exact (hlinks n _).mpr (h.links n p rev ((hnode n p).mp hn) hrev hne)

theorem LinkedStore.deleteNode (h : LinkedStore st revisions) (m : ℕ) :
    LinkedStore (st.deleteNode m) revisions where
  unique := fun n n' p hn hn' =>
    h.unique n n' p (nodeAt_deleteNode.mp hn).1 (nodeAt_deleteNode.mp hn').1
  linked := by
    intro n r hl
    obtain ⟨hl, hne⟩ := mem_deleteNode_links.mp hl
    obtain ⟨u, hu⟩ := h.linked n r hl
    exact ⟨u, nodeAt_deleteNode.mpr ⟨hu, hne⟩⟩
  links := by
    intro n p rev hn hrev hchunks
    obtain ⟨hn, hne⟩ := nodeAt_deleteNode.mp hn
    exact mem_deleteNode_links.mpr ⟨h.links n p rev hn hrev hchunks, hne⟩

/-- The cascade of deleted revisions. -/
theorem LinkedStore.deleteRevisions (h : LinkedStore st revisions) (ids : List ℕ) :
    LinkedStore (st.filterLinks fun l => ¬ (l.table = .memoryChunks ∧ l.target ∈ ids))
      (revisions.delete fun r _ => r ∈ ids) where
  unique := h.unique
  linked := fun n r hl => h.linked n r (mem_filterLinks.mp hl).1
  links := by
    intro n p rev hn hrev hchunks
    obtain ⟨hrev, hids⟩ := Table.get?_delete_eq_some.mp hrev
    exact mem_filterLinks.mpr ⟨h.links n p rev hn hrev hchunks, fun hl => hids hl.2⟩

/-- The node of a revision and its links to the chunks. -/
def publish (st : KnowledgeStore (MemoryNode γ)) (new : MemoryNode γ) (chunks : List String) :
    KnowledgeStore (MemoryNode γ) :=
  (st.mint new).1.linkChunks (st.mint new).2 new.uuid.revision chunks

theorem nodeAt_publish {new : MemoryNode γ} {chunks : List String} :
    (publish st new chunks).NodeAt n p ↔
      st.NodeAt n p ∨ (n = (st.mint new).2 ∧ p = new.uuid) := by
  rw [NodeAt, publish, linkChunks_nodes]
  exact nodeAt_mint

theorem LinkedStore.publish (h : LinkedStore st revisions) {new : MemoryNode γ}
    {rev : MemoryRevision} (hrev : revisions.get? new.uuid.revision = some rev) :
    LinkedStore (publish st new rev.chunks) revisions := by
  have hnew : (st.mint new).1.NodeAt (st.mint new).2 new.uuid :=
    nodeAt_mint.mpr (Or.inr ⟨rfl, rfl⟩)
  have hlinks : ∀ l, l ∈ (Memory.publish st new rev.chunks).links ↔
      (l ∈ st.links ∧ ¬ (l.table = .memoryChunks ∧ l.node = (st.mint new).2)) ∨
        (rev.chunks ≠ [] ∧ l = ⟨.memoryChunks, (st.mint new).2, new.uuid.revision⟩) := by
    intro l
    rw [Memory.publish, mem_linkChunks (nodeAt_mem_keys hnew), mint_links]
  constructor
  · intro n n' p hn hn'
    rcases nodeAt_publish.mp hn with hn | ⟨rfl, rfl⟩ <;>
      rcases nodeAt_publish.mp hn' with hn' | ⟨rfl, hp⟩
    · exact h.unique n n' p hn hn'
    · exact h.unique n _ p hn (hp ▸ nodeAt_mint_id (hp ▸ hn))
    · exact h.unique _ n' _ (nodeAt_mint_id hn') hn'
    · rfl
  · intro n r hl
    rcases (hlinks _).mp hl with ⟨hl, -⟩ | ⟨-, hl⟩
    · obtain ⟨u, hu⟩ := h.linked n r hl
      exact ⟨u, nodeAt_publish.mpr (Or.inl hu)⟩
    · obtain ⟨-, rfl, rfl⟩ := Link.mk.inj hl
      exact ⟨new.uuid.document, nodeAt_publish.mpr (Or.inr ⟨rfl, rfl⟩)⟩
  · intro n p rev' hn hrev' hchunks
    rw [hlinks]
    by_cases hm : n = (st.mint new).2
    · subst hm
      have hp : p = new.uuid := nodeAt_inj (nodeAt_mint.mpr (nodeAt_publish.mp hn)) hnew
      subst hp
      rw [hrev, Option.some.injEq] at hrev'
      exact Or.inr ⟨hrev' ▸ hchunks, rfl⟩
    · rcases nodeAt_publish.mp hn with hn | ⟨rfl, -⟩
      · exact Or.inl ⟨h.links n p rev' hn hrev' hchunks, fun hl => hm hl.2⟩
      · exact absurd rfl hm

end LinkedStore

section Versions
variable {γ : Type} {db db' : MemoryDb γ}

/-- The current revision of a document is its newest one. Rename revisions do not count:
no pointer is ever moved to one. -/
structure Versions (db : MemoryDb γ) : Prop where
  uuids : ∀ d d' x x', db.documents.get? d = some x → db.documents.get? d' = some x' →
    x.uuid = x'.uuid → d = d'
  newest : ∀ r rev x c, db.revisions.get? r = some rev →
    db.documents.get? rev.documentId = some x → x.currentRevision = some c →
    rev.kind ≠ .rename → r ≤ c
  ordered : ∀ d x a c ra rc, db.documents.get? d = some x → x.activeRevision = some a →
    x.currentRevision = some c → db.revisions.get? a = some ra →
    db.revisions.get? c = some rc → ra.number ≤ rc.number
  buried : ∀ d x, db.documents.get? d = some x → x.state = .tombstoned →
    x.activeRevision = none ∧ ∃ c rev, x.currentRevision = some c ∧
      db.revisions.get? c = some rev ∧ rev.kind = .delete

/-- Every document has a current revision. -/
def HasCurrent (db : MemoryDb γ) : Prop :=
  ∀ d x, db.documents.get? d = some x → ∃ c, x.currentRevision = some c

theorem Versions.congr (h : Versions db) (hdocs : db'.documents = db.documents)
    (hrevs : db'.revisions = db.revisions) : Versions db' := by
  obtain ⟨documents, revisions, queue, store⟩ := db'
  cases hdocs
  cases hrevs
  exact ⟨h.uuids, h.newest, h.ordered, h.buried⟩

theorem versions_empty : Versions (MemoryDb.empty : MemoryDb γ) where
  uuids := by
    intro d d' x x' h
    cases h
  newest := by
    intro r rev x c h
    cases h
  ordered := by
    intro d x a c ra rc h
    cases h
  buried := by
    intro d x h
    cases h

/-- A transaction that moves no pointer and deletes no revision that is pointed to. -/
theorem Versions.frame (h : Versions db)
    (hdocs : ∀ d x', db'.documents.get? d = some x' → ∃ x, db.documents.get? d = some x ∧
      x'.uuid = x.uuid ∧ x'.currentRevision = x.currentRevision ∧
      x'.activeRevision = x.activeRevision ∧ (x'.state = .tombstoned → x.state = .tombstoned))
    (hrevs : ∀ r rev, db'.revisions.get? r = some rev →
      rev.kind = .rename ∨ db.revisions.get? r = some rev)
    (hpointed : ∀ d x c, db.documents.get? d = some x → x.PointsTo c →
      db'.revisions.get? c = db.revisions.get? c) : Versions db' where
  uuids := by
    intro d d' x x' hx hx' heq
    obtain ⟨y, hy, huuid, -⟩ := hdocs d x hx
    obtain ⟨y', hy', huuid', -⟩ := hdocs d' x' hx'
    exact h.uuids d d' y y' hy hy' (by rw [← huuid, ← huuid', heq])
  newest := by
    intro r rev x c hrev hx hc hkind
    obtain ⟨y, hy, -, hcurrent, -⟩ := hdocs _ x hx
    rcases hrevs r rev hrev with hrename | hold
    · exact absurd hrename hkind
    · exact h.newest r rev y c hold hy (hcurrent ▸ hc) hkind
  ordered := by
    intro d x a c ra rc hx ha hc hra hrc
    obtain ⟨y, hy, -, hcurrent, hactive, -⟩ := hdocs d x hx
    rw [hactive] at ha
    rw [hcurrent] at hc
    rw [hpointed d y a hy (Or.inr ha)] at hra
    rw [hpointed d y c hy (Or.inl hc)] at hrc
    exact h.ordered d y a c ra rc hy ha hc hra hrc
  buried := by
    intro d x hx hst
    obtain ⟨y, hy, -, hcurrent, hactive, hstate⟩ := hdocs d x hx
    obtain ⟨hnone, c, rev, hc, hrev, hkind⟩ := h.buried d y hy (hstate hst)
    refine ⟨hactive.trans hnone, c, rev, hcurrent.trans hc, ?_, hkind⟩
    rw [hpointed d y c hy (Or.inl hc), hrev]

/-- A transaction that makes a new revision of a document its current one. -/
theorem Versions.advance (h : Versions db) (hkeyed : Keyed db) {d : ℕ} {rev : MemoryRevision}
    (hd : rev.documentId = d) (hnumber : rev.number = db.nextNumber d)
    (hrevs : ∀ j, db'.revisions.get? j =
      if j = db.revisions.nextRowid then some rev else db.revisions.get? j)
    (hdocs : ∀ j x', db'.documents.get? j = some x' → ∃ x, db.documents.get? j = some x ∧
      ((j ≠ d ∧ x' = x) ∨ (j = d ∧ x'.uuid = x.uuid ∧
        x'.currentRevision = some db.revisions.nextRowid ∧
        (x'.activeRevision = x.activeRevision ∨ x'.activeRevision = none) ∧
        (x'.state = .tombstoned → x'.activeRevision = none ∧ rev.kind = .delete)))) :
    Versions db' := by
  have hold : ∀ j x c, db.documents.get? j = some x → x.PointsTo c →
      db'.revisions.get? c = db.revisions.get? c := by
    intro j x c hx hc
    have hlt := hkeyed.pointsTo_lt hx hc
    rw [hrevs, if_neg hlt.ne]
  have hnew : db'.revisions.get? db.revisions.nextRowid = some rev := by
    rw [hrevs, if_pos rfl]
  constructor
  · intro j j' x x' hx hx' heq
    obtain ⟨y, hy, hcase⟩ := hdocs j x hx
    obtain ⟨y', hy', hcase'⟩ := hdocs j' x' hx'
    have huuid : x.uuid = y.uuid := by
      rcases hcase with ⟨-, rfl⟩ | ⟨-, huuid, -⟩
      · rfl
      · exact huuid
    have huuid' : x'.uuid = y'.uuid := by
      rcases hcase' with ⟨-, rfl⟩ | ⟨-, huuid, -⟩
      · rfl
      · exact huuid
    exact h.uuids j j' y y' hy hy' (by rw [← huuid, ← huuid', heq])
  · intro r rev' x c hrev' hx hc hkind
    obtain ⟨y, hy, ⟨hne, rfl⟩ | ⟨heq, -, hcurrent, -⟩⟩ := hdocs _ x hx
    · rw [hrevs] at hrev'
      split at hrev'
      · cases hrev'
        exact absurd hd hne
      · exact h.newest r rev' x c hrev' hy hc hkind
    · rw [hcurrent, Option.some.injEq] at hc
      subst hc
      rw [hrevs] at hrev'
      split at hrev'
      · rename_i hr
        exact hr.le
      · exact (Table.lt_nextRowid (Table.mem_keys.mpr ⟨rev', hrev'⟩)).le
  · intro j x a c ra rc hx ha hc hra hrc
    obtain ⟨y, hy, ⟨hne, rfl⟩ | ⟨rfl, -, hcurrent, hactive, -⟩⟩ := hdocs j x hx
    · rw [hold j x a hy (Or.inr ha)] at hra
      rw [hold j x c hy (Or.inl hc)] at hrc
      exact h.ordered j x a c ra rc hy ha hc hra hrc
    · rw [hcurrent, Option.some.injEq] at hc
      subst hc
      rw [hnew, Option.some.injEq] at hrc
      subst hrc
      rcases hactive with hactive | hactive
      · rw [hactive] at ha
        obtain ⟨ra', hra', hda⟩ := hkeyed.pointers j y a hy (Or.inr ha)
        rw [hold j y a hy (Or.inr ha), hra', Option.some.injEq] at hra
        subst hra
        rw [hnumber]
        exact (lt_nextNumber hra' hda).le
      · rw [hactive] at ha
        cases ha
  · intro j x hx hst
    obtain ⟨y, hy, ⟨hne, rfl⟩ | ⟨rfl, -, hcurrent, -, hdead⟩⟩ := hdocs j x hx
    · obtain ⟨hnone, c, rev', hc, hrev', hkind⟩ := h.buried j x hy hst
      exact ⟨hnone, c, rev', hc, (hold j x c hy (Or.inl hc)).trans hrev', hkind⟩
    · obtain ⟨hnone, hkind⟩ := hdead hst
      exact ⟨hnone, _, rev, hcurrent, hnew, hkind⟩

/-- Publishing the current revision of a document that is not buried. -/
theorem Versions.publish (h : Versions db) {d r : ℕ} {x : MemoryDocument}
    {queue : Queue} {store : KnowledgeStore (MemoryNode γ)}
    (hx : db.documents.get? d = some x) (hcurrent : x.currentRevision = some r)
    (halive : x.state ≠ .tombstoned) :
    Versions ⟨db.documents.modify d (MemoryDocument.publish r), db.revisions, queue, store⟩ where
  uuids := by
    intro j j' y y' hy hy' heq
    have same : ∀ {i z}, (db.documents.modify d (MemoryDocument.publish r)).get? i = some z →
        ∃ z', db.documents.get? i = some z' ∧ z.uuid = z'.uuid := by
      intro i z hz
      obtain ⟨z', hz', ⟨-, rfl⟩ | ⟨-, rfl⟩⟩ := Table.eq_of_get?_modify hz
      · exact ⟨z', hz', rfl⟩
      · exact ⟨z, hz', rfl⟩
    obtain ⟨z, hz, huuid⟩ := same hy
    obtain ⟨z', hz', huuid'⟩ := same hy'
    exact h.uuids j j' z z' hz hz' (by rw [← huuid, ← huuid', heq])
  newest := by
    intro i rev y c hrev hy hc hkind
    obtain ⟨z, hz, ⟨-, rfl⟩ | ⟨-, rfl⟩⟩ := Table.eq_of_get?_modify hy
    · exact h.newest i rev z c hrev hz hc hkind
    · exact h.newest i rev y c hrev hz hc hkind
  ordered := by
    intro j y a c ra rc hy ha hc hra hrc
    obtain ⟨z, hz, ⟨rfl, rfl⟩ | ⟨-, rfl⟩⟩ := Table.eq_of_get?_modify hy
    · rw [hx, Option.some.injEq] at hz
      subst hz
      have hra' : r = a := Option.some.inj ha
      have hrc' : r = c := Option.some.inj (hcurrent.symm.trans hc)
      subst hra' hrc'
      rw [hra, Option.some.injEq] at hrc
      exact hrc ▸ le_rfl
    · exact h.ordered j y a c ra rc hz ha hc hra hrc
  buried := by
    intro j y hy hst
    obtain ⟨z, hz, ⟨rfl, rfl⟩ | ⟨-, rfl⟩⟩ := Table.eq_of_get?_modify hy
    · rw [hx, Option.some.injEq] at hz
      exact absurd (hz ▸ hst) halive
    · exact h.buried j y hz hst

theorem Versions.createDocument (h : Versions db) {new : MemoryDocument}
    (huuid : ∀ j x, db.documents.get? j = some x → x.uuid ≠ new.uuid)
    (hstate : new.state = .active) (hcurrent : new.currentRevision = none) :
    Versions { db with documents := db.documents.insert db.documents.nextRowid new } := by
  have cases : ∀ {j x}, (db.documents.insert db.documents.nextRowid new).get? j = some x →
      (j = db.documents.nextRowid ∧ x = new) ∨ db.documents.get? j = some x := by
    intro j x hx
    rw [Table.get?_insert_nextRowid] at hx
    split at hx
    · rename_i hj
      exact Or.inl ⟨hj, (Option.some.inj hx).symm⟩
    · exact Or.inr hx
  constructor
  · intro d d' x x' hx hx' heq
    rcases cases hx with ⟨rfl, rfl⟩ | hold <;> rcases cases hx' with ⟨rfl, rfl⟩ | hold'
    · rfl
    · exact absurd heq.symm (huuid d' x' hold')
    · exact absurd heq (huuid d x hold)
    · exact h.uuids d d' x x' hold hold' heq
  · intro r rev x c hrev hx hc hkind
    rcases cases hx with ⟨-, rfl⟩ | hx
    · rw [hcurrent] at hc
      cases hc
    · exact h.newest r rev x c hrev hx hc hkind
  · intro d x a c ra rc hx ha hc hra hrc
    rcases cases hx with ⟨-, rfl⟩ | hx
    · rw [hcurrent] at hc
      cases hc
    · exact h.ordered d x a c ra rc hx ha hc hra hrc
  · intro d x hx hst
    rcases cases hx with ⟨-, rfl⟩ | hx
    · rw [hstate] at hst
      cases hst
    · exact h.buried d x hx hst

theorem Versions.addRevision (h : Versions db) (hkeyed : Keyed db) {d : ℕ} (file : MemoryFile)
    (halive : ∀ x, db.documents.get? d = some x → x.state ≠ .tombstoned) :
    Versions (db.addRevision d file) := by
  obtain ⟨rev, hd, hnumber, -, hrevs⟩ := db.addRevision_revisions_get? d file
  refine h.advance hkeyed hd hnumber hrevs fun j x' hx' => ?_
  obtain ⟨x, hx, ⟨rfl, rfl⟩ | ⟨hne, rfl⟩⟩ := Table.eq_of_get?_modify hx'
  · exact ⟨x, hx, Or.inr ⟨rfl, rfl, rfl, Or.inl rfl, fun hst => absurd hst (halive x hx)⟩⟩
  · exact ⟨x', hx, Or.inl ⟨hne, rfl⟩⟩

theorem hasCurrent_addRevision {d : ℕ} {file : MemoryFile}
    (h : ∀ j x, j ≠ d → db.documents.get? j = some x → ∃ c, x.currentRevision = some c) :
    HasCurrent (db.addRevision d file) := by
  intro j x' hx'
  obtain ⟨x, hx, ⟨rfl, rfl⟩ | ⟨hne, rfl⟩⟩ := Table.eq_of_get?_modify hx'
  · exact ⟨_, rfl⟩
  · exact h j x' hne hx

theorem Versions.modifyDocument (h : Versions db) {d : ℕ} {f : MemoryDocument → MemoryDocument}
    (hf : ∀ x, (f x).uuid = x.uuid ∧ (f x).currentRevision = x.currentRevision ∧
      (f x).activeRevision = x.activeRevision ∧ (f x).state ≠ .tombstoned) :
    Versions { db with documents := db.documents.modify d f } := by
  refine h.frame (fun j x' hx' => ?_) (fun r rev hrev => Or.inr hrev) fun _ _ _ _ _ => rfl
  obtain ⟨x, hx, ⟨-, rfl⟩ | ⟨-, rfl⟩⟩ := Table.eq_of_get?_modify hx'
  · obtain ⟨huuid, hcurrent, hactive, hstate⟩ := hf x
    exact ⟨x, hx, huuid, hcurrent, hactive, fun hst => absurd hst hstate⟩
  · exact ⟨x', hx, rfl, rfl, rfl, id⟩

theorem HasCurrent.modifyDocument (h : HasCurrent db) {d : ℕ}
    {f : MemoryDocument → MemoryDocument}
    (hf : ∀ x, (f x).currentRevision = x.currentRevision) :
    HasCurrent { db with documents := db.documents.modify d f } := by
  intro j x' hx'
  obtain ⟨x, hx, ⟨-, rfl⟩ | ⟨-, rfl⟩⟩ := Table.eq_of_get?_modify hx'
  · rw [hf]
    exact h j x hx
  · exact h j x' hx

theorem Versions.ingest (h : Versions db) (hcurrent : HasCurrent db) (hkeyed : Keyed db)
    {file : MemoryFile} {seen : Option SeenDocument} (hdb : db.ingest file seen = .ok db') :
    Versions db' ∧ HasCurrent db' := by
  rcases ingest_cases hdb with ⟨new, huuid, hstate, hnone, hactive, hfresh, rfl⟩ | ⟨d, -, -, hseen⟩
  · have hcreated : Versions
        { db with documents := db.documents.insert db.documents.nextRowid new } :=
      h.createDocument (fun j x hx => huuid ▸ hfresh j x hx) hstate hnone
    refine ⟨hcreated.addRevision (hkeyed.createDocument hnone hactive) file fun x hx => ?_,
      hasCurrent_addRevision fun j x hne hx => ?_⟩
    · rw [Table.get?_insert_nextRowid, if_pos rfl, Option.some.injEq] at hx
      rw [← hx, hstate]
      decide
    · rw [Table.get?_insert_nextRowid, if_neg hne] at hx
      exact hcurrent j x hx
  · have htouched : Versions
        { db with documents := db.documents.modify d MemoryDocument.seenAgain } :=
      h.modifyDocument fun x => ⟨rfl, rfl, rfl, nofun⟩
    have hcurrent' : HasCurrent
        { db with documents := db.documents.modify d MemoryDocument.seenAgain } :=
      hcurrent.modifyDocument fun x => rfl
    rcases hseen with rfl | rfl
    · exact ⟨htouched, hcurrent'⟩
    · refine ⟨htouched.addRevision (hkeyed.modifyDocument fun x c hc => hc) file fun x hx => ?_,
        hasCurrent_addRevision fun j x _ hx => hcurrent' j x hx⟩
      rw [Table.get?_modify_self] at hx
      obtain ⟨y, -, rfl⟩ := Option.map_eq_some_iff.mp hx
      nofun

theorem Versions.rename (h : Versions db) (hcurrent : HasCurrent db) (hkeyed : Keyed db) {d : ℕ}
    {file : MemoryFile} (hdb : db.rename d file = .ok db') : Versions db' ∧ HasCurrent db' := by
  obtain ⟨rev, -, -, hkind, rfl⟩ := rename_ok hdb
  refine ⟨h.frame (fun j x' hx' => ?_) (fun r rev' hrev' => ?_) fun j x c hx hc => ?_,
    hcurrent.modifyDocument (f := MemoryDocument.renameTo _) fun x => rfl⟩
  · obtain ⟨x, hx, ⟨-, rfl⟩ | ⟨-, rfl⟩⟩ := Table.eq_of_get?_modify hx'
    · exact ⟨x, hx, rfl, rfl, rfl, nofun⟩
    · exact ⟨x', hx, rfl, rfl, rfl, id⟩
  · rw [Table.get?_insert_nextRowid] at hrev'
    split at hrev'
    · cases hrev'
      exact Or.inl hkind
    · exact Or.inr hrev'
  · have hlt := hkeyed.pointsTo_lt hx hc
    rw [Table.get?_insert_nextRowid, if_neg hlt.ne]

/-- Pruning what no document points to. -/
theorem Versions.deleteRevisions (h : Versions db) (hcurrent : HasCurrent db) {ids : List ℕ}
    (hids : ∀ e ∈ db.documents.entries, ∀ r ∈ ids, ¬ e.2.PointsTo r) :
    Versions (db.deleteRevisions ids) ∧ HasCurrent (db.deleteRevisions ids) := by
  have kept : ∀ d x c, db.documents.get? d = some x → x.PointsTo c → c ∉ ids :=
    fun d x c hx hc hmem => hids (d, x) (Table.get?_eq_some.mp hx) c hmem hc
  have same : ∀ d x', (db.deleteRevisions ids).documents.get? d = some x' →
      db.documents.get? d = some x' := by
    intro d x' hx'
    obtain ⟨x, hx, rfl⟩ := Option.map_eq_some_iff.mp ((Table.get?_mapRows _ _ d).symm.trans hx')
    have hfilter : ∀ o : Option ℕ, (∀ r ∈ o, r ∉ ids) → (o.filter fun r => r ∉ ids) = o := by
      intro o ho
      cases o with
      | none => rfl
      | some r => simp [Option.filter, ho r rfl]
    have hforget : x.forget ids = x := by
      rw [MemoryDocument.forget, hfilter _ fun r hr => kept d x r hx (Or.inl hr),
        hfilter _ fun r hr => kept d x r hx (Or.inr hr)]
    rw [hforget, hx]
  refine ⟨h.frame (fun d x' hx' => ⟨x', same d x' hx', rfl, rfl, rfl, id⟩)
    (fun r rev hrev => Or.inr (Table.get?_delete_eq_some.mp hrev).1) fun d x c hx hc => ?_,
    fun d x' hx' => hcurrent d x' (same d x' hx')⟩
  exact Table.get?_delete_of_not fun rev _ => kept d x c hx hc

theorem Versions.tombstone (h : Versions db) (hcurrent : HasCurrent db) (hkeyed : Keyed db)
    {d : ℕ} {node : Option ℕ} {now : ℤ} {vecOk : Bool}
    (hdb : db.tombstone d node now vecOk = .ok db') : Versions db' ∧ HasCurrent db' := by
  obtain ⟨rev, store, hd, hnumber, hkind, -, rfl⟩ := tombstone_ok hdb
  refine ⟨h.advance hkeyed hd hnumber (fun j => Table.get?_insert_nextRowid _ j rev)
    fun j x' hx' => ?_, fun j x' hx' => ?_⟩
  · obtain ⟨x, hx, ⟨rfl, rfl⟩ | ⟨hne, rfl⟩⟩ := Table.eq_of_get?_modify hx'
    · exact ⟨x, hx, Or.inr ⟨rfl, rfl, rfl, Or.inr rfl, fun _ => ⟨rfl, hkind⟩⟩⟩
    · exact ⟨x', hx, Or.inl ⟨hne, rfl⟩⟩
  · obtain ⟨x, hx, ⟨-, rfl⟩ | ⟨-, rfl⟩⟩ := Table.eq_of_get?_modify hx'
    · exact ⟨_, rfl⟩
    · exact hcurrent j x' hx

/-- An `UPDATE` of documents that moves no pointer and does not touch the state. -/
theorem Versions.updateRows (h : Versions db) (hcurrent : HasCurrent db)
    {p : ℕ → MemoryDocument → Prop} [∀ j x, Decidable (p j x)]
    {f : MemoryDocument → MemoryDocument} {queue : Queue}
    (hf : ∀ x, (f x).uuid = x.uuid ∧ (f x).currentRevision = x.currentRevision ∧
      (f x).activeRevision = x.activeRevision ∧ (f x).state = x.state) :
    Versions { db with queue := queue, documents := db.documents.update p f } ∧
      HasCurrent { db with queue := queue, documents := db.documents.update p f } := by
  refine ⟨h.frame (fun j x' hx' => ?_) (fun r rev hrev => Or.inr hrev) fun _ _ _ _ _ => rfl,
    fun j x' hx' => ?_⟩
  · obtain ⟨x, hx, ⟨-, rfl⟩ | ⟨-, rfl⟩⟩ := Table.eq_of_get?_update hx'
    · obtain ⟨huuid, hcur, hactive, hstate⟩ := hf x
      exact ⟨x, hx, huuid, hcur, hactive, fun hst => hstate ▸ hst⟩
    · exact ⟨x', hx, rfl, rfl, rfl, id⟩
  · obtain ⟨x, hx, ⟨-, rfl⟩ | ⟨-, rfl⟩⟩ := Table.eq_of_get?_update hx'
    · rw [(hf x).2.1]
      exact hcurrent j x hx
    · exact hcurrent j x' hx

end Versions

section Nodes
variable {γ : Type} {db db' : MemoryDb γ}

/-- Every projection node is that of the active revision of a document. -/
def NodesActive (db : MemoryDb γ) : Prop :=
  ∀ n p, db.store.NodeAt n p → ∃ d x, db.documents.get? d = some x ∧ x.uuid = p.document ∧
    x.activeRevision = some p.revision

/-- The documents keep their active revisions. -/
def KeepsActive (t t' : Table ℕ MemoryDocument) : Prop :=
  ∀ d x r, t.get? d = some x → x.activeRevision = some r →
    ∃ x', t'.get? d = some x' ∧ x'.uuid = x.uuid ∧ x'.activeRevision = some r

theorem keepsActive_update (t : Table ℕ MemoryDocument) (p : ℕ → MemoryDocument → Prop)
    [∀ j x, Decidable (p j x)] {f : MemoryDocument → MemoryDocument}
    (hf : ∀ x, (f x).uuid = x.uuid ∧ (f x).activeRevision = x.activeRevision) :
    KeepsActive t (t.update p f) := by
  intro d x r hx hr
  rw [Table.get?_update, hx, Option.map_some]
  by_cases hp : p d x
  · rw [if_pos hp]
    exact ⟨f x, rfl, (hf x).1, (hf x).2.trans hr⟩
  · rw [if_neg hp]
    exact ⟨x, rfl, rfl, hr⟩

theorem keepsActive_insert (t : Table ℕ MemoryDocument) (new : MemoryDocument) :
    KeepsActive t (t.insert t.nextRowid new) := by
  intro d x r hx hr
  have hlt : d < t.nextRowid := Table.lt_nextRowid (Table.mem_keys.mpr ⟨x, hx⟩)
  exact ⟨x, by rw [Table.get?_insert_nextRowid, if_neg hlt.ne, hx], rfl, hr⟩

theorem KeepsActive.trans {t t' t'' : Table ℕ MemoryDocument} (h : KeepsActive t t')
    (h' : KeepsActive t' t'') : KeepsActive t t'' := by
  intro d x r hx hr
  obtain ⟨y, hy, huuid, hry⟩ := h d x r hx hr
  obtain ⟨z, hz, huuid', hrz⟩ := h' d y r hy hry
  exact ⟨z, hz, huuid'.trans huuid, hrz⟩

theorem NodesActive.frame (h : NodesActive db)
    (hstore : ∀ n p, db'.store.NodeAt n p → db.store.NodeAt n p)
    (hdocs : KeepsActive db.documents db'.documents) : NodesActive db' := by
  intro n p hn
  obtain ⟨d, x, hx, huuid, hactive⟩ := h n p (hstore n p hn)
  obtain ⟨x', hx', huuid', hactive'⟩ := hdocs d x _ hx hactive
  exact ⟨d, x', hx', huuid'.trans huuid, hactive'⟩

theorem addRevision_keepsActive (db : MemoryDb γ) (d : ℕ) (file : MemoryFile) :
    KeepsActive db.documents (db.addRevision d file).documents :=
  keepsActive_update db.documents _ fun _ => ⟨rfl, rfl⟩

theorem ingest_keepsActive {file : MemoryFile} {seen : Option SeenDocument}
    (hdb : db.ingest file seen = .ok db') : KeepsActive db.documents db'.documents := by
  rcases ingest_cases hdb with ⟨new, -, -, -, -, -, rfl⟩ | ⟨d, -, -, hseen⟩
  · exact (keepsActive_insert db.documents new).trans
      (addRevision_keepsActive { db with documents := _ } _ file)
  · have htouched : KeepsActive db.documents (db.documents.modify d MemoryDocument.seenAgain) :=
      keepsActive_update db.documents _ fun _ => ⟨rfl, rfl⟩
    rcases hseen with rfl | rfl
    · exact htouched
    · exact htouched.trans (addRevision_keepsActive { db with documents := _ } d file)

theorem ingest_store {file : MemoryFile} {seen : Option SeenDocument}
    (hdb : db.ingest file seen = .ok db') : db'.store = db.store := by
  rcases ingest_cases hdb with ⟨new, -, -, -, -, -, rfl⟩ | ⟨d, -, -, rfl | rfl⟩ <;> rfl

/-- A row that is there before an ingest is the same after it. -/
theorem ingest_revisions {file : MemoryFile} {seen : Option SeenDocument} {r : ℕ}
    (hdb : db.ingest file seen = .ok db') (hr : r < db.revisions.nextRowid) :
    db'.revisions.get? r = db.revisions.get? r := by
  have added : ∀ (db₀ : MemoryDb γ) d, db₀.revisions = db.revisions →
      (db₀.addRevision d file).revisions.get? r = db.revisions.get? r := by
    intro db₀ d heq
    obtain ⟨rev, -, -, -, hrevs⟩ := db₀.addRevision_revisions_get? d file
    rw [hrevs, heq, if_neg hr.ne]
  rcases ingest_cases hdb with ⟨new, -, -, -, -, -, rfl⟩ | ⟨d, -, -, rfl | rfl⟩
  · exact added _ _ rfl
  · rfl
  · exact added _ _ rfl

theorem NodesActive.lt_nextRowid (h : NodesActive db) (hkeyed : Keyed db) {n : ℕ}
    {p : ProjectionUuid} (hn : db.store.NodeAt n p) : p.revision < db.revisions.nextRowid := by
  obtain ⟨d, x, hx, -, hactive⟩ := h n p hn
  exact hkeyed.pointsTo_lt hx (Or.inr hactive)

/-- The node of an active revision is the node of its document. -/
theorem NodesActive.document (h : NodesActive db) (hkeyed : Keyed db) {d n r : ℕ}
    {x : MemoryDocument} {u : DocumentUuid} (hx : db.documents.get? d = some x)
    (hactive : x.activeRevision = some r) (hn : db.store.NodeAt n ⟨u, r⟩) : u = x.uuid := by
  obtain ⟨d', x', hx', huuid, hactive'⟩ := h n ⟨u, r⟩ hn
  obtain ⟨rev, hrev, hd⟩ := hkeyed.pointers d x r hx (Or.inr hactive)
  obtain ⟨rev', hrev', hd'⟩ := hkeyed.pointers d' x' r hx' (Or.inr hactive')
  rw [hrev, Option.some.injEq] at hrev'
  subst hrev'
  subst hd
  rw [hd'] at hx
  rw [hx, Option.some.injEq] at hx'
  rw [hx']
  exact huuid.symm

theorem publishedStore_cases {r : ℕ} {rev : MemoryRevision} {x : MemoryDocument} {body : γ}
    {vecOk : Bool} {store : KnowledgeStore (MemoryNode γ)}
    (h : db.publishedStore r rev x body vecOk = .ok store) :
    ((x.activeRevision = none ∨ x.activeRevision = some r) ∧
        store = publish db.store ⟨⟨x.uuid, r⟩, body⟩ rev.chunks) ∨
      ∃ old, x.activeRevision = some old ∧ old ≠ r ∧
        (publish db.store ⟨⟨x.uuid, r⟩, body⟩ rev.chunks).deleteSuperseded old vecOk =
          .ok store := by
  simp only [publishedStore] at h
  split at h
  · rename_i hnone
    cases h
    exact Or.inl ⟨Or.inl hnone, rfl⟩
  · rename_i old hold
    split at h
    · rename_i heq
      cases h
      exact Or.inl ⟨Or.inr (heq ▸ hold), rfl⟩
    · rename_i hne
      exact Or.inr ⟨old, hold, hne, h⟩

end Nodes

section Definitions
variable {γ : Type}

/-- The revision has a chunk. -/
def HasChunks (db : MemoryDb γ) (r : ℕ) : Prop :=
  ∃ rev ∈ db.revisions.get? r, rev.chunks ≠ []

instance (db : MemoryDb γ) (r : ℕ) : Decidable (HasChunks db r) := by
  unfold HasChunks
  infer_instance

instance (x : MemoryDocument) (r : ℕ) : Decidable (x.PointsTo r) := by
  unfold MemoryDocument.PointsTo
  infer_instance

/-- A result replaces only a revision that has a chunk, a prune deletes no revision a document
points to, and a tombstone found the node of the active revision, if there is one. -/
def KeepsProjection (w : World γ) : Action γ → Prop
  | .write k _ _ => match w.ops[k]? with
    | some (.enriching r _) => ∀ rev ∈ w.db.revisions.get? r,
        ∀ x ∈ w.db.documents.get? rev.documentId, x.currentRevision = some r →
          ∀ a ∈ x.activeRevision, a = r ∨ HasChunks w.db a
    | _ => True
  | .prune k => match w.ops[k]? with
    | some (.deletingRevisions ids) =>
      ∀ e ∈ w.db.documents.entries, ∀ r ∈ ids, ¬ e.2.PointsTo r
    | _ => True
  | .tombstone k _ _ => match w.ops[k]? with
    | some (.deletingNode d node) => ∀ x ∈ w.db.documents.get? d, ∀ r ∈ x.activeRevision,
        ∃ n ∈ node, ⟨.memoryChunks, n, r⟩ ∈ w.db.store.links
    | _ => True
  | _ => True

instance (w : World γ) (a : Action γ) : Decidable (KeepsProjection w a) := by
  cases a <;> dsimp only [KeepsProjection] <;> (try split) <;> infer_instance

/-- What holds of the tables and the calls while every step keeps the projections. -/
structure Sound (w : World γ) : Prop where
  keyed : w.Keyed
  versions : Versions w.db
  current : HasCurrent w.db
  store : LinkedStore w.db.store w.db.revisions
  nodes : NodesActive w.db
  claims : ∀ op ∈ w.ops, ∀ r ∈ op.revision,
    (∃ d x c, w.db.documents.get? d = some x ∧ x.currentRevision = some c ∧ r ≤ c) ∧
      ∀ rev, w.db.revisions.get? r = some rev → rev.kind.Ingested

end Definitions

section Steps
variable {γ : Type} {w w' : World γ} {a : Action γ} {db db' db₁ : MemoryDb γ}

/-- What a good step does to the pointers and to the revisions: the current revision stays
or becomes the new one, the active one stays, goes, or becomes the current one. -/
structure Moves (db db' : MemoryDb γ) : Prop where
  current : ∀ d x, db.documents.get? d = some x → ∃ x', db'.documents.get? d = some x' ∧
    (x'.currentRevision = x.currentRevision ∨
      x'.currentRevision = some db.revisions.nextRowid)
  active : ∀ d x' r, db'.documents.get? d = some x' → x'.activeRevision = some r →
    ∃ x, db.documents.get? d = some x ∧ x.PointsTo r
  rows : ∀ r rev, db'.revisions.get? r = some rev → db.revisions.get? r = some rev ∨
    (r = db.revisions.nextRowid ∧ ∀ r₀ rev₀, db.revisions.get? r₀ = some rev₀ →
      rev₀.documentId = rev.documentId → rev₀.number < rev.number)
  kept : ∀ d x c, db.documents.get? d = some x → x.PointsTo c →
    db'.revisions.get? c = db.revisions.get? c

/-- The rows after the insertion of the next revision of a document. -/
theorem rows_of_insert {rev : MemoryRevision} (hnumber : rev.number = db.nextNumber rev.documentId)
    {r : ℕ} {rev' : MemoryRevision}
    (h : (if r = db.revisions.nextRowid then some rev else db.revisions.get? r) = some rev') :
    db.revisions.get? r = some rev' ∨ (r = db.revisions.nextRowid ∧
      ∀ r₀ rev₀, db.revisions.get? r₀ = some rev₀ → rev₀.documentId = rev'.documentId →
        rev₀.number < rev'.number) := by
  split at h
  · rename_i hr
    cases h
    refine Or.inr ⟨hr, fun r₀ rev₀ hrev₀ hd => ?_⟩
    rw [hnumber]
    exact lt_nextNumber hrev₀ hd
  · exact Or.inl h

theorem Moves.refl (db : MemoryDb γ) : Moves db db where
  current := fun _ x hx => ⟨x, hx, Or.inl rfl⟩
  active := fun _ x' _ hx' hr => ⟨x', hx', Or.inr hr⟩
  rows := fun _ _ hrev => Or.inl hrev
  kept := fun _ _ _ _ _ => rfl

/-- An `UPDATE` of documents that moves no pointer. -/
theorem Moves.updateRows (db : MemoryDb γ) {p : ℕ → MemoryDocument → Prop}
    [∀ j x, Decidable (p j x)] {f : MemoryDocument → MemoryDocument} {queue : Queue}
    {store : KnowledgeStore (MemoryNode γ)}
    (hf : ∀ x, (f x).currentRevision = x.currentRevision ∧
      (f x).activeRevision = x.activeRevision) :
    Moves db ⟨db.documents.update p f, db.revisions, queue, store⟩ where
  current := by
    intro d x hx
    rw [Table.get?_update, hx, Option.map_some]
    by_cases hp : p d x
    · rw [if_pos hp]
      exact ⟨f x, rfl, Or.inl (hf x).1⟩
    · rw [if_neg hp]
      exact ⟨x, rfl, Or.inl rfl⟩
  active := by
    intro d x' r hx' hr
    obtain ⟨x, hx, ⟨-, rfl⟩ | ⟨-, rfl⟩⟩ := Table.eq_of_get?_update hx'
    · exact ⟨x, hx, Or.inr ((hf x).2 ▸ hr)⟩
    · exact ⟨x', hx, Or.inr hr⟩
  rows := fun _ _ hrev => Or.inl hrev
  kept := fun _ _ _ _ _ => rfl

/-- A step after another one that added no revision and moved no pointer. -/
theorem Moves.after (h : Moves db₁ db') (hrevs : db₁.revisions = db.revisions)
    (hforth : ∀ d x, db.documents.get? d = some x → ∃ x₁, db₁.documents.get? d = some x₁ ∧
      x₁.currentRevision = x.currentRevision ∧ ∀ c, x.PointsTo c → x₁.PointsTo c)
    (hback : ∀ d x₁ c, db₁.documents.get? d = some x₁ → x₁.PointsTo c →
      ∃ x, db.documents.get? d = some x ∧ x.PointsTo c) : Moves db db' where
  current := by
    intro d x hx
    obtain ⟨x₁, hx₁, hcurrent, -⟩ := hforth d x hx
    rw [← hcurrent, ← hrevs]
    exact h.current d x₁ hx₁
  active := by
    intro d x' r hx' hr
    obtain ⟨x₁, hx₁, hr₁⟩ := h.active d x' r hx' hr
    exact hback d x₁ r hx₁ hr₁
  rows := by
    rw [← hrevs]
    exact h.rows
  kept := by
    intro d x c hx hc
    obtain ⟨x₁, hx₁, -, hpoints⟩ := hforth d x hx
    rw [← hrevs]
    exact h.kept d x₁ c hx₁ (hpoints c hc)

theorem Moves.addRevision (hkeyed : Keyed db) (d : ℕ) (file : MemoryFile) :
    Moves db (db.addRevision d file) := by
  obtain ⟨rev, rfl, hnumber, -, hrevs⟩ := db.addRevision_revisions_get? d file
  constructor
  · intro j x hx
    obtain ⟨status, hget⟩ := db.addRevision_documents_get? rev.documentId j file
    rw [hget, hx]
    split
    · exact ⟨_, rfl, Or.inr rfl⟩
    · exact ⟨x, rfl, Or.inl rfl⟩
  · intro j x' r hx' hr
    obtain ⟨x, hx, ⟨-, rfl⟩ | ⟨-, rfl⟩⟩ := Table.eq_of_get?_modify hx'
    · exact ⟨x, hx, Or.inr hr⟩
    · exact ⟨x', hx, Or.inr hr⟩
  · intro r rev' hrev'
    rw [hrevs] at hrev'
    exact rows_of_insert hnumber hrev'
  · intro j x c hx hc
    have hlt := hkeyed.pointsTo_lt hx hc
    rw [hrevs, if_neg hlt.ne]

theorem Moves.ingest (hkeyed : Keyed db) {file : MemoryFile} {seen : Option SeenDocument}
    (hdb : db.ingest file seen = .ok db') : Moves db db' := by
  rcases ingest_cases hdb with ⟨new, -, -, hcurrent, hactive, -, rfl⟩ | ⟨d, -, -, hseen⟩
  · refine (Moves.addRevision (hkeyed.createDocument hcurrent hactive) _ file).after rfl
      (fun j x hx => ?_) fun j x c hx hc => ?_
    · have hlt : j < db.documents.nextRowid := Table.lt_nextRowid (Table.mem_keys.mpr ⟨x, hx⟩)
      exact ⟨x, by rw [Table.get?_insert_nextRowid, if_neg hlt.ne, hx], rfl, fun _ hc => hc⟩
    · rw [Table.get?_insert_nextRowid] at hx
      split at hx
      · cases hx
        rcases hc with hc | hc
        · cases hcurrent.symm.trans hc
        · cases hactive.symm.trans hc
      · exact ⟨x, hx, hc⟩
  · have htouched : Moves db
        { db with documents := db.documents.modify d MemoryDocument.seenAgain } :=
      Moves.updateRows db fun x => ⟨rfl, rfl⟩
    rcases hseen with rfl | rfl
    · exact htouched
    · have hkeyed' : Keyed
          { db with documents := db.documents.modify d MemoryDocument.seenAgain } :=
        hkeyed.modifyDocument fun x c hc => hc
      refine (Moves.addRevision hkeyed' d file).after rfl (fun j x hx => ?_) fun j x c hx hc => ?_
      · rw [Table.get?_modify, hx]
        split
        · exact ⟨_, rfl, rfl, fun _ hc => hc⟩
        · exact ⟨x, rfl, rfl, fun _ hc => hc⟩
      · obtain ⟨y, hy, ⟨-, rfl⟩ | ⟨-, rfl⟩⟩ := Table.eq_of_get?_modify hx
        · exact ⟨y, hy, hc⟩
        · exact ⟨x, hy, hc⟩

/-- The insertion of a revision with an `UPDATE` of its document. -/
theorem Moves.insertRow (hkeyed : Keyed db) {d : ℕ} {rev : MemoryRevision}
    {f : MemoryDocument → MemoryDocument} {queue : Queue}
    {store : KnowledgeStore (MemoryNode γ)} (hd : rev.documentId = d)
    (hnumber : rev.number = db.nextNumber d)
    (hf : ∀ x, ((f x).currentRevision = x.currentRevision ∨
      (f x).currentRevision = some db.revisions.nextRowid) ∧
      ((f x).activeRevision = x.activeRevision ∨ (f x).activeRevision = none)) :
    Moves db ⟨db.documents.modify d f, db.revisions.insert db.revisions.nextRowid rev, queue,
      store⟩ where
  current := by
    intro j x hx
    rw [Table.get?_modify, hx]
    split
    · exact ⟨f x, rfl, (hf x).1⟩
    · exact ⟨x, rfl, Or.inl rfl⟩
  active := by
    intro j x' r hx' hr
    obtain ⟨x, hx, ⟨-, rfl⟩ | ⟨-, rfl⟩⟩ := Table.eq_of_get?_modify hx'
    · rcases (hf x).2 with hsame | hnone
      · exact ⟨x, hx, Or.inr (hsame ▸ hr)⟩
      · cases hnone.symm.trans hr
    · exact ⟨x', hx, Or.inr hr⟩
  rows := by
    intro r rev' hrev'
    subst hd
    rw [Table.get?_insert_nextRowid] at hrev'
    exact rows_of_insert hnumber hrev'
  kept := by
    intro j x c hx hc
    have hlt := hkeyed.pointsTo_lt hx hc
    rw [Table.get?_insert_nextRowid, if_neg hlt.ne]

/-- A deletion of revisions no document points to. -/
theorem Moves.deleteRevisions {ids : List ℕ}
    (hids : ∀ e ∈ db.documents.entries, ∀ r ∈ ids, ¬ e.2.PointsTo r) :
    Moves db (db.deleteRevisions ids) where
  current := by
    intro d x hx
    refine ⟨x.forget ids, (Table.get?_mapRows _ _ d).trans (by rw [hx]; rfl), Or.inl ?_⟩
    cases hc : x.currentRevision with
    | none => simp [MemoryDocument.forget, hc]
    | some c =>
      have hkept : c ∉ ids := fun hmem =>
        hids (d, x) (Table.get?_eq_some.mp hx) c hmem (Or.inl hc)
      simp [MemoryDocument.forget, hc, hkept]
  active := by
    intro d x' r hx' hr
    obtain ⟨x, hx, rfl⟩ := Option.map_eq_some_iff.mp ((Table.get?_mapRows _ _ d).symm.trans hx')
    exact ⟨x, hx, ((x.pointsTo_forget).mp (Or.inr hr)).1⟩
  rows := fun _ _ hrev => Or.inl (Table.get?_delete_eq_some.mp hrev).1
  kept := by
    intro d x c hx hc
    have hkept : c ∉ ids := fun hmem => hids (d, x) (Table.get?_eq_some.mp hx) c hmem hc
    exact Table.get?_delete_of_not fun rev _ => hkept

theorem Sound.moves (h : Sound w) (hok : KeepsProjection w a) (he : Effect w a w') :
    Moves w.db w'.db := by
  cases he with
  | ingest hop hdb => exact Moves.ingest h.keyed.db hdb
  | rename hop hdb =>
    obtain ⟨rev, hd, hnumber, -, rfl⟩ := rename_ok hdb
    exact Moves.insertRow h.keyed.db hd hnumber fun x => ⟨Or.inl rfl, Or.inl rfl⟩
  | prune hop =>
    simp only [KeepsProjection, hop] at hok
    exact Moves.deleteRevisions hok
  | missing d => exact Moves.updateRows w.db fun x => ⟨rfl, rfl⟩
  | tombstone hop hdb =>
    obtain ⟨rev, store, hd, hnumber, -, -, rfl⟩ := tombstone_ok hdb
    exact Moves.insertRow h.keyed.db hd hnumber fun x => ⟨Or.inr rfl, Or.inr rfl⟩
  | claim hids => exact Moves.updateRows w.db fun x => ⟨rfl, rfl⟩
  | write hop hdb =>
    obtain ⟨rev, x, hrev, hx, ⟨-, -, rfl⟩ | ⟨hcurrent, store, -, rfl⟩⟩ :=
      writeMemoryKnowledgeNode_ok hdb
    · exact ⟨(Moves.refl w.db).current, (Moves.refl w.db).active, (Moves.refl w.db).rows,
        (Moves.refl w.db).kept⟩
    · obtain ⟨c, hc⟩ := h.current _ x hx
      rw [hc] at hcurrent
      have hcr := hcurrent.resolve_left nofun
      refine ⟨fun j y hy => ?_, fun j y' i hy' hi => ?_, fun _ _ hrev => Or.inl hrev,
        fun _ _ _ _ _ => rfl⟩
      · rw [Table.get?_modify, hy]
        split
        · exact ⟨_, rfl, Or.inl rfl⟩
        · exact ⟨y, rfl, Or.inl rfl⟩
      · obtain ⟨y, hy, ⟨rfl, rfl⟩ | ⟨-, rfl⟩⟩ := Table.eq_of_get?_modify hy'
        · rw [hx, Option.some.injEq] at hy
          subst hy
          exact ⟨x, hx, Or.inl (hc.trans (hcr.trans hi))⟩
        · exact ⟨y', hy, Or.inr hi⟩
  | fail hop error => exact Moves.updateRows w.db fun x => ⟨rfl, rfl⟩
  | reap | relate =>
    exact ⟨(Moves.refl w.db).current, (Moves.refl w.db).active, (Moves.refl w.db).rows,
      (Moves.refl w.db).kept⟩
  | _ => exact Moves.refl w.db

theorem Sound.versions_effect (h : Sound w) (hok : KeepsProjection w a) (he : Effect w a w') :
    Versions w'.db ∧ HasCurrent w'.db := by
  cases he with
  | ingest hop hdb => exact h.versions.ingest h.current h.keyed.db hdb
  | rename hop hdb => exact h.versions.rename h.current h.keyed.db hdb
  | prune hop =>
    simp only [KeepsProjection, hop] at hok
    exact h.versions.deleteRevisions h.current hok
  | missing d =>
    exact ⟨h.versions.modifyDocument fun x => ⟨rfl, rfl, rfl, nofun⟩,
      h.current.modifyDocument fun x => rfl⟩
  | tombstone hop hdb => exact h.versions.tombstone h.current h.keyed.db hdb
  | claim hids => exact h.versions.updateRows h.current fun x => ⟨rfl, rfl, rfl, rfl⟩
  | write hop hdb =>
    obtain ⟨rev, x, hrev, hx, ⟨-, -, rfl⟩ | ⟨hcurrent, store, -, rfl⟩⟩ :=
      writeMemoryKnowledgeNode_ok hdb
    · exact ⟨h.versions.congr rfl rfl, h.current⟩
    · obtain ⟨c, hc⟩ := h.current _ x hx
      rw [hc] at hcurrent
      have hcr := hcurrent.resolve_left nofun
      have hkind : rev.kind.Ingested :=
        (h.claims _ (List.mem_of_getElem? hop) _ rfl).2 rev hrev
      -- the current revision of a buried document is its `delete` revision
      have halive : x.state ≠ .tombstoned := by
        intro hst
        obtain ⟨-, c', rev', hc', hrev', hdelete⟩ := h.versions.buried _ x hx hst
        rw [hc, hcr, Option.some.injEq] at hc'
        subst hc'
        rw [hrev, Option.some.injEq] at hrev'
        subst hrev'
        rw [hdelete] at hkind
        rcases hkind with hkind | hkind <;> cases hkind
      exact ⟨h.versions.publish hx (hc.trans hcr) halive,
        h.current.modifyDocument fun x => rfl⟩
  | fail hop error => exact h.versions.updateRows h.current fun x => ⟨rfl, rfl, rfl, rfl⟩
  | reap | relate => exact ⟨h.versions.congr rfl rfl, h.current⟩
  | _ => exact ⟨h.versions, h.current⟩

/-- A result of the current revision replaces the node of the active one. -/
theorem Sound.nodes_published (h : Sound w) {r : ℕ} {rev : MemoryRevision} {x : MemoryDocument}
    {body : γ} {vecOk : Bool} {store : KnowledgeStore (MemoryNode γ)}
    (hrev : w.db.revisions.get? r = some rev)
    (hx : w.db.documents.get? rev.documentId = some x)
    (hchunks : ∀ a, x.activeRevision = some a → a = r ∨ HasChunks w.db a)
    (hstore : w.db.publishedStore r rev x body vecOk = .ok store) :
    LinkedStore store w.db.revisions ∧
      ∀ n p, store.NodeAt n p → p = ⟨x.uuid, r⟩ ∨
        (p.document ≠ x.uuid ∧ w.db.store.NodeAt n p) := by
  have hlinked : LinkedStore (Memory.publish w.db.store ⟨⟨x.uuid, r⟩, body⟩ rev.chunks)
      w.db.revisions := h.store.publish hrev
  have hactive : ∀ n p, w.db.store.NodeAt n p → p.document = x.uuid →
      x.activeRevision = some p.revision := by
    intro n p hn hp
    obtain ⟨d, y, hy, huuid, hact⟩ := h.nodes n p hn
    have hd : d = rev.documentId := h.versions.uuids _ _ y x hy hx (huuid.trans hp)
    rw [hd, hx, Option.some.injEq] at hy
    exact hy ▸ hact
  rcases publishedStore_cases hstore with ⟨hact, rfl⟩ | ⟨old, hold, hne, hdelete⟩
  · refine ⟨hlinked, fun n p hn => ?_⟩
    rcases nodeAt_publish.mp hn with hn | ⟨-, hp⟩
    · by_cases hp : p.document = x.uuid
      · have hrev' := hactive n p hn hp
        rcases hact with hact | hact
        · cases hact.symm.trans hrev'
        · rw [hact, Option.some.injEq] at hrev'
          exact Or.inl (by rw [← hp, hrev'])
      · exact Or.inr ⟨hp, hn⟩
    · exact Or.inl hp
  · obtain ⟨oldRev, holdRev, hne_nil⟩ := (hchunks old hold).resolve_left hne
    have hkeep : ∀ n p, (Memory.publish w.db.store ⟨⟨x.uuid, r⟩, body⟩ rev.chunks).NodeAt n p →
        p = ⟨x.uuid, old⟩ ∨ p = ⟨x.uuid, r⟩ ∨ (p.document ≠ x.uuid ∧ w.db.store.NodeAt n p) := by
      intro n p hn
      rcases nodeAt_publish.mp hn with hn | ⟨-, hp⟩
      · by_cases hp : p.document = x.uuid
        · have hrev' := hactive n p hn hp
          rw [hold, Option.some.injEq] at hrev'
          exact Or.inl (by rw [← hp, hrev'])
        · exact Or.inr (Or.inr ⟨hp, hn⟩)
      · exact Or.inr (Or.inl hp)
    rcases deleteSuperseded_cases hdelete with ⟨hnone, rfl⟩ | ⟨m, hm, rfl⟩
    · refine ⟨hlinked, fun n p hn => ?_⟩
      rcases hkeep n p hn with rfl | hp
      · obtain ⟨m, hm⟩ := linkedNode_isSome (hlinked.links n _ oldRev hn holdRev hne_nil)
        cases hnone.symm.trans hm
      · exact hp
    · refine ⟨hlinked.deleteNode m, fun n p hn => ?_⟩
      obtain ⟨hn, hnm⟩ := nodeAt_deleteNode.mp hn
      rcases hkeep n p hn with rfl | hp
      · obtain ⟨u, hu⟩ := hlinked.linked m old (linkedNode_eq_some hm)
        -- the node found through the links is the node of the same document
        have hu' : u = x.uuid := by
          rcases nodeAt_publish.mp hu with hu | ⟨-, hp⟩
          · exact h.nodes.document h.keyed.db hx hold hu
          · exact absurd (congrArg ProjectionUuid.revision hp) hne
        subst hu'
        exact absurd (hlinked.unique n m _ hn hu) hnm
      · exact hp

theorem Sound.store_effect (h : Sound w) (hok : KeepsProjection w a) (he : Effect w a w') :
    LinkedStore w'.db.store w'.db.revisions ∧ NodesActive w'.db := by
  -- no node is of a revision that is only inserted now
  have hrows : ∀ {revisions : Table ℕ MemoryRevision},
      (∀ r, r < w.db.revisions.nextRowid → revisions.get? r = w.db.revisions.get? r) →
      LinkedStore w.db.store revisions := by
    intro revisions hsame
    refine h.store.mono fun n p rev hn hrev => ?_
    rwa [hsame _ (h.nodes.lt_nextRowid h.keyed.db hn)] at hrev
  have hinserted : ∀ rev, LinkedStore w.db.store
      (w.db.revisions.insert w.db.revisions.nextRowid rev) := by
    intro rev
    refine hrows fun r hr => ?_
    rw [Table.get?_insert_nextRowid, if_neg hr.ne]
  cases he with
  | ingest hop hdb =>
    have hstore := ingest_store hdb
    constructor
    · dsimp only
      rw [hstore]
      exact hrows fun r hr => ingest_revisions hdb hr
    · refine h.nodes.frame (fun n p hn => ?_) (ingest_keepsActive hdb)
      dsimp only at hn
      rwa [hstore] at hn
  | rename hop hdb =>
    obtain ⟨rev, -, -, -, rfl⟩ := rename_ok hdb
    exact ⟨hinserted rev, h.nodes.frame (fun _ _ hn => hn)
      (keepsActive_update _ _ fun _ => ⟨rfl, rfl⟩)⟩
  | prune hop =>
    rename_i k ids
    simp only [KeepsProjection, hop] at hok
    refine ⟨h.store.deleteRevisions ids, h.nodes.frame (fun _ _ hn => hn) fun d x r hx hr => ?_⟩
    have hkept : r ∉ ids := fun hmem => hok (d, x) (Table.get?_eq_some.mp hx) r hmem (Or.inr hr)
    refine ⟨x.forget ids, (Table.get?_mapRows _ _ d).trans (by rw [hx]; rfl), rfl, ?_⟩
    simp [MemoryDocument.forget, hr, hkept]
  | missing d =>
    exact ⟨h.store, h.nodes.frame (fun _ _ hn => hn)
      (keepsActive_update _ _ fun _ => ⟨rfl, rfl⟩)⟩
  | tombstone hop hdb =>
    rename_i k d node now vecOk db'
    simp only [KeepsProjection, hop] at hok
    obtain ⟨rev, store, -, -, -, hstore, rfl⟩ := tombstone_ok hdb
    have hother : ∀ n p, store.NodeAt n p → w.db.store.NodeAt n p ∧
        ∀ x r, w.db.documents.get? d = some x → x.activeRevision = some r →
          p ≠ ⟨x.uuid, r⟩ := by
      intro n p hn
      rcases hstore with ⟨rfl, rfl⟩ | ⟨m, rfl, hdel⟩
      · refine ⟨hn, fun x r hx hr => ?_⟩
        obtain ⟨m, hm, -⟩ := hok x hx r hr
        cases hm
      · obtain ⟨hnodes, -⟩ := deleteProjection_ok hdel
        rw [NodeAt, hnodes] at hn
        obtain ⟨hn, hne⟩ := nodeAt_deleteNode.mp hn
        refine ⟨hn, fun x r hx hr hp => ?_⟩
        obtain ⟨m', hm', hl⟩ := hok x hx r hr
        cases hm'
        obtain ⟨u, hu⟩ := h.store.linked m r hl
        have huuid : u = x.uuid := h.nodes.document h.keyed.db hx hr hu
        subst hp huuid
        exact hne (h.store.unique n m _ hn hu)
    constructor
    · rcases hstore with ⟨-, rfl⟩ | ⟨m, -, hdel⟩
      · exact hinserted rev
      · obtain ⟨hnodes, hlinks⟩ := deleteProjection_ok hdel
        exact ((hinserted rev).deleteNode m).congr hnodes fun n r => by rw [hlinks]
    · intro n p hn
      obtain ⟨hn, hp⟩ := hother n p hn
      obtain ⟨j, x, hx, huuid, hactive⟩ := h.nodes n p hn
      by_cases hj : j = d
      · subst hj
        exact absurd (by rw [huuid]) (hp x _ hx hactive)
      · exact ⟨j, x, (Table.get?_modify_of_ne _ hj _).trans hx, huuid, hactive⟩
  | claim hids =>
    exact ⟨h.store, h.nodes.frame (fun _ _ hn => hn)
      (keepsActive_update _ _ fun _ => ⟨rfl, rfl⟩)⟩
  | write hop hdb =>
    simp only [KeepsProjection, hop] at hok
    obtain ⟨rev, x, hrev, hx, ⟨-, -, rfl⟩ | ⟨hcurrent, store, hstore, rfl⟩⟩ :=
      writeMemoryKnowledgeNode_ok hdb
    · exact ⟨h.store, h.nodes⟩
    · obtain ⟨c, hc⟩ := h.current _ x hx
      rw [hc] at hcurrent
      have hcr := hcurrent.resolve_left (by simp)
      obtain ⟨hlinked, hnodes⟩ := h.nodes_published hrev hx
        (hok rev hrev x hx (hc.trans hcr)) hstore
      refine ⟨hlinked, fun n p hn => ?_⟩
      rcases hnodes n p hn with rfl | ⟨hp, hn⟩
      · refine ⟨rev.documentId, x.publish _, ?_, rfl, rfl⟩
        rw [Table.get?_modify_self, hx]
        rfl
      · obtain ⟨j, y, hy, huuid, hactive⟩ := h.nodes n p hn
        have hj : j ≠ rev.documentId := by
          rintro rfl
          rw [hx, Option.some.injEq] at hy
          exact hp (hy ▸ huuid.symm)
        exact ⟨j, y, (Table.get?_modify_of_ne _ hj _).trans hy, huuid, hactive⟩
  | fail hop error =>
    exact ⟨h.store, h.nodes.frame (fun _ _ hn => hn)
      (keepsActive_update _ _ fun _ => ⟨rfl, rfl⟩)⟩
  | relate entity hnode =>
    refine ⟨h.store.congr rfl fun n r => ?_, h.nodes⟩
    simp [addLinks]
  | _ => exact ⟨h.store, h.nodes⟩

/-- What a worker holds stays an ingested revision, not newer than a current one. -/
theorem Sound.claims_effect (h : Sound w) (hok : KeepsProjection w a) (he : Effect w a w') :
    ∀ op ∈ w'.ops, ∀ r ∈ op.revision,
      (∃ d x c, w'.db.documents.get? d = some x ∧ x.currentRevision = some c ∧ r ≤ c) ∧
        ∀ rev, w'.db.revisions.get? r = some rev → rev.kind.Ingested := by
  have hmoves : Moves w.db w'.db := h.moves hok he
  have held : ∀ r, (∃ d x c, w.db.documents.get? d = some x ∧ x.currentRevision = some c ∧
        r ≤ c) → (∀ rev, w.db.revisions.get? r = some rev → rev.kind.Ingested) →
      (∃ d x c, w'.db.documents.get? d = some x ∧ x.currentRevision = some c ∧ r ≤ c) ∧
        ∀ rev, w'.db.revisions.get? r = some rev → rev.kind.Ingested := by
    rintro r ⟨d, x, c, hx, hc, hr⟩ hkind
    have hlt : c < w.db.revisions.nextRowid := h.keyed.db.pointsTo_lt hx (Or.inl hc)
    constructor
    · obtain ⟨x', hx', hcurrent | hcurrent⟩ := hmoves.current d x hx
      · exact ⟨d, x', c, hx', hcurrent.trans hc, hr⟩
      · exact ⟨d, x', _, hx', hcurrent, by omega⟩
    · intro rev hrev
      rcases hmoves.rows r rev hrev with hold | ⟨hnew, -⟩
      · exact hkind rev hold
      · omega
  intro op hop r hr
  rcases op_of_effect he hop with hold | ⟨hnone, -⟩ | ⟨i, ticket, rfl, hi⟩
  · obtain ⟨hle, hkind⟩ := h.claims op hold r hr
    exact held r hle hkind
  · cases hnone.symm.trans hr
  · cases hr
    obtain ⟨rev, hrev, hkind⟩ := h.keyed.db.queued r hi
    obtain ⟨x, hx⟩ := Option.isSome_iff_exists.mp (h.keyed.db.owner r rev hrev)
    obtain ⟨c, hc⟩ := h.current _ x hx
    have hnot : rev.kind ≠ .rename := by
      rcases hkind with hkind | hkind <;> rw [hkind] <;> decide
    refine held r ⟨_, x, c, hx, hc, h.versions.newest r rev x c hrev hx hc hnot⟩ ?_
    intro rev' hrev'
    rw [hrev, Option.some.injEq] at hrev'
    exact hrev' ▸ hkind

theorem Sound.effect (h : Sound w) (hok : KeepsProjection w a) (he : Effect w a w') :
    Sound w' where
  keyed := h.keyed.effect he
  versions := (h.versions_effect hok he).1
  current := (h.versions_effect hok he).2
  store := (h.store_effect hok he).1
  nodes := (h.store_effect hok he).2
  claims := h.claims_effect hok he

theorem sound_init : Sound (World.init : World γ) where
  keyed := keyed_of_reaches (Run.refl _)
  versions := versions_empty
  current := by
    intro d x hx
    cases hx
  store := linkedStore_empty
  nodes := by
    rintro n p ⟨node, hget, -⟩
    cases hget
  claims := by
    intro op hop
    cases hop

theorem sound_of_run (h : Run step KeepsProjection World.init w) : Sound w :=
  h.invariant (fun _ _ _ hs hok hstep => hs.effect hok (step_effect hstep)) sound_init

end Steps

section Projection
variable {γ : Type} {w w' : World γ}

/-- The node was written for a revision of the document. -/
def World.Projection (w : World γ) (x : MemoryDocument) (n : ℕ) : Prop :=
  ∃ r, w.db.store.NodeAt n ⟨x.uuid, r⟩

/-- Every document has at most one projection node, that of its active revision, and none
when it is tombstoned. -/
structure SingleCurrent (w : World γ) : Prop where
  single : ∀ d x n n', w.db.documents.get? d = some x → w.Projection x n → w.Projection x n' →
    n = n'
  active : ∀ d x n r, w.db.documents.get? d = some x → w.db.store.NodeAt n ⟨x.uuid, r⟩ →
    x.activeRevision = some r
  tombstoned : ∀ d x n, w.db.documents.get? d = some x → x.state = .tombstoned →
    ¬ w.Projection x n

/-- No active revision is older in `w'` than in `w`. -/
def ActiveAdvances (w w' : World γ) : Prop :=
  ∀ d x x' a a' ra ra', w.db.documents.get? d = some x → x.activeRevision = some a →
    w.db.revisions.get? a = some ra → w'.db.documents.get? d = some x' →
    x'.activeRevision = some a' → w'.db.revisions.get? a' = some ra' → ra.number ≤ ra'.number

/-- A call holds a result for a revision that is not its document's current one. -/
def World.Superseded (w : World γ) (k : ℕ) : Prop :=
  ∃ r ticket, w.ops[k]? = some (.enriching r ticket) ∧
    ∀ rev x, w.db.revisions.get? r = some rev → w.db.documents.get? rev.documentId = some x →
      x.currentRevision ≠ some r

theorem Sound.singleCurrent (h : Sound w) : SingleCurrent w := by
  have hactive : ∀ d x n r, w.db.documents.get? d = some x →
      w.db.store.NodeAt n ⟨x.uuid, r⟩ → x.activeRevision = some r := by
    intro d x n r hx hn
    obtain ⟨j, y, hy, huuid, hact⟩ := h.nodes n _ hn
    have hj : j = d := h.versions.uuids j d y x hy hx huuid
    rw [hj, hx, Option.some.injEq] at hy
    exact hy ▸ hact
  constructor
  · rintro d x n n' hx ⟨r, hn⟩ ⟨r', hn'⟩
    have hr : some r = some r' := (hactive d x n r hx hn).symm.trans (hactive d x n' r' hx hn')
    cases hr
    exact h.store.unique n n' _ hn hn'
  · exact hactive
  · rintro d x n hx hst ⟨r, hn⟩
    cases (h.versions.buried d x hx hst).1.symm.trans (hactive d x n r hx hn)

/-- From the number of an active revision on, the document has only newer ones as its current
and active revision. -/
def AtLeast (N d : ℕ) (db : MemoryDb γ) : Prop :=
  ∀ x, db.documents.get? d = some x → (∃ c rc, x.currentRevision = some c ∧
    db.revisions.get? c = some rc ∧ N ≤ rc.number) ∧
      ∀ a ra, x.activeRevision = some a → db.revisions.get? a = some ra → N ≤ ra.number

theorem Moves.atLeast {db db' : MemoryDb γ} (h : Moves db db') (hkeyed : Keyed db)
    (hkeyed' : Keyed db') {N d : ℕ} (hd : (db.documents.get? d).isSome) (hN : AtLeast N d db) :
    AtLeast N d db' := by
  intro x' hx'
  obtain ⟨x, hx⟩ := Option.isSome_iff_exists.mp hd
  obtain ⟨⟨c, rc, hc, hrc, hle⟩, hactive⟩ := hN x hx
  obtain ⟨y, hy, hcurrent⟩ := h.current d x hx
  rw [hx', Option.some.injEq] at hy
  subst hy
  constructor
  · rcases hcurrent with hcurrent | hcurrent
    · exact ⟨c, rc, hcurrent.trans hc, (h.kept d x c hx (Or.inl hc)).trans hrc, hle⟩
    · obtain ⟨rev, hrev, hdoc⟩ := hkeyed'.pointers d x' _ hx' (Or.inl hcurrent)
      refine ⟨_, rev, hcurrent, hrev, ?_⟩
      rcases h.rows _ rev hrev with hold | ⟨-, hnew⟩
      · rw [Table.get?_nextRowid] at hold
        cases hold
      · obtain ⟨rc', hrc', hdc⟩ := hkeyed.pointers d x c hx (Or.inl hc)
        rw [hrc, Option.some.injEq] at hrc'
        subst hrc'
        have hlt : rc.number < rev.number := hnew c rc hrc (hdc.trans hdoc.symm)
        omega
  · intro a ra ha hra
    obtain ⟨y, hy, hpoints⟩ := h.active d x' a hx' ha
    rw [hx, Option.some.injEq] at hy
    subst hy
    rw [h.kept d x a hx hpoints] at hra
    rcases hpoints with hcur | hact
    · rw [hc, Option.some.injEq] at hcur
      subst hcur
      rw [hrc, Option.some.injEq] at hra
      exact hra ▸ hle
    · exact hactive a ra hact hra

theorem activeAdvances_of_run (h : Sound w) (hrun : Run step KeepsProjection w w') :
    ActiveAdvances w w' := by
  intro d x x' a a' ra ra' hx ha hra hx' ha' hra'
  have hstart : AtLeast ra.number d w.db := by
    intro y hy
    rw [hx, Option.some.injEq] at hy
    subst hy
    obtain ⟨c, hc⟩ := h.current d x hx
    obtain ⟨rc, hrc, -⟩ := h.keyed.db.pointers d x c hx (Or.inl hc)
    refine ⟨⟨c, rc, hc, hrc, h.versions.ordered d x a c ra rc hx ha hc hra hrc⟩, ?_⟩
    intro i ri hi hri
    rw [ha, Option.some.injEq] at hi
    subst hi
    rw [hra, Option.some.injEq] at hri
    exact hri ▸ le_rfl
  have hend := hrun.invariant_of (J := Sound)
    (I := fun v => (v.db.documents.get? d).isSome ∧ AtLeast ra.number d v.db)
    (fun s b t hs hok hstep => hs.effect hok (step_effect hstep))
    (fun s b t hs hI hok hstep =>
      ⟨documents_isSome_of_effect (step_effect hstep) hI.1,
        (hs.moves hok (step_effect hstep)).atLeast hs.keyed.db
          (hs.keyed.effect (step_effect hstep)).db hI.1 hI.2⟩)
    h ⟨Option.isSome_of_mem hx, hstart⟩
  exact (hend.2 x' hx').2 a' ra' ha' hra'

/-- A superseded result changes no node, no link and no vector. -/
theorem Sound.store_of_superseded (h : Sound w) {k : ℕ} (hold : w.Superseded k) {body : γ}
    {vecOk : Bool} (hs : step w (.write k body vecOk) = some w') : w'.db.store = w.db.store := by
  obtain ⟨r, ticket, hop, hsuper⟩ := hold
  simp only [step, hop, Option.some.injEq] at hs
  subst hs
  cases hdb : w.db.writeMemoryKnowledgeNode r body vecOk with
  | error e => rfl
  | ok db' =>
    obtain ⟨rev, x, hrev, hx, ⟨-, -, rfl⟩ | ⟨hcurrent, store, -, rfl⟩⟩ :=
      writeMemoryKnowledgeNode_ok hdb
    · rfl
    · obtain ⟨c, hc⟩ := h.current _ x hx
      rw [hc] at hcurrent
      exact absurd (hc.trans (hcurrent.resolve_left (by simp))) (hsuper rev x hrev hx)

/-- **Memory projection.** In every run whose results replace only revisions with a chunk,
whose prunes spare what documents point to and whose tombstones found the node, a document
has at most one node, of its active revision, and none when tombstoned; the active revision
never gets older; and superseded results change no node. -/
theorem projection_single_current (h : Run step KeepsProjection World.init w) :
    SingleCurrent w ∧ (∀ w', Run step KeepsProjection w w' → ActiveAdvances w w') ∧
      ∀ k body vecOk w', w.Superseded k → step w (.write k body vecOk) = some w' →
        w'.db.store = w.db.store := by
  have hw : Sound w := sound_of_run h
  exact ⟨hw.singleCurrent, fun w' hrun => activeAdvances_of_run hw hrun,
    fun k body vecOk w' hold hs => hw.store_of_superseded hold hs⟩

/-- The file of the runs below, with the given text. -/
def notes (contentHash : String) (chunks : List String) : MemoryFile :=
  ⟨"git@host/repo", "notes.md", contentHash, chunks, 1000⟩

/-- A file is ingested and enriched, changed, and enriched again. -/
def changedFile (first : List String) : List (Action Unit) :=
  [.selectDocument (notes "h1" first), .ingest 0, .claim 2000 "A" 10 none, .write 0 () true,
   .selectDocument (notes "h2" ["# Notes"]), .ingest 0, .claim 3000 "A" 10 none, .write 0 () true]

/-- When the first text is only white space, its node stays beside that of the second. -/
theorem emptyRevision_keeps_node : ∃ (w : World Unit) (x : MemoryDocument),
    Reaches step World.init w ∧ w.db.documents.get? 1 = some x ∧ x.activeRevision = some 2 ∧
      w.db.store.NodeAt 1 ⟨x.uuid, 1⟩ ∧ w.db.store.NodeAt 2 ⟨x.uuid, 2⟩ := by
  obtain ⟨w, hrun, x, hx, hactive, hone, htwo⟩ : ∃ w : World Unit,
      Run step (fun _ _ => True) World.init w ∧ ∃ x ∈ w.db.documents.get? 1,
        x.activeRevision = some 2 ∧ w.db.store.NodeAt 1 ⟨x.uuid, 1⟩ ∧
          w.db.store.NodeAt 2 ⟨x.uuid, 2⟩ :=
    exists_run_of_exec (l := changedFile []) (by decide)
  exact ⟨w, x, hrun, hx, hactive, hone, htwo⟩

/-- With chunks the second node replaces the first. -/
theorem changedFile_single : ∃ w : World Unit, Run step KeepsProjection World.init w ∧
    w.db.store.NodeAt 2 ⟨⟨"git@host/repo", "notes.md"⟩, 2⟩ ∧ SingleCurrent w := by
  obtain ⟨w, hrun, hnode⟩ : ∃ w : World Unit, Run step KeepsProjection World.init w ∧
      w.db.store.NodeAt 2 ⟨⟨"git@host/repo", "notes.md"⟩, 2⟩ :=
    exists_run_of_exec (l := changedFile ["# First"]) (by decide)
  exact ⟨w, hrun, hnode, (projection_single_current hrun).1⟩

end Projection

end Hippo.Memory
