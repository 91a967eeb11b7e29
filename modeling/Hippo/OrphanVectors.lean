import Hippo.KnowledgeWriters

/-!
# Vectors without a node

`knowledge_vectors` has no foreign key. Every deletion of a node deletes its vector too or
refuses, but for the projection of a tombstoned memory, whose connection does not see the
table; and a vector may be stored after its node was deleted.
-/
namespace Hippo.Writers
open Hippo Hippo.KnowledgeStore Hippo.Transition

/-- Every row of `knowledge_vectors` has its `knowledge_nodes` row. -/
def NoOrphans (st : KnowledgeStore NodeRow) : Prop := ∀ v ∈ st.vectors, v ∈ st.nodes.keys

section Store

variable {st st' : KnowledgeStore NodeRow}

theorem NoOrphans.linked {n : ℕ} {tables : List LinkTable} (h : NoOrphans st)
    (hlink : Linked st st' n tables) : NoOrphans st' := by
  intro v hv
  rw [hlink.nodes]
  rw [hlink.vectors] at hv
  exact h v hv

theorem NoOrphans.insertLinked (h : NoOrphans st) (new : KnowledgeNode NodeRow)
    (table : LinkTable) (targets : List ℕ) : NoOrphans (st.insertLinked new table targets) := by
  intro v hv
  have hold : v ∈ st.nodes.keys := h v hv
  have hne : v ≠ st.nodes.nextRowid := (Table.lt_nextRowid hold).ne
  obtain ⟨node, hnode⟩ := Table.mem_keys.mp hold
  rw [Table.mem_keys, insertLinked_nodes, Table.get?_insert_nextRowid]
  exact ⟨node, by rw [if_neg hne, hnode]⟩

theorem NoOrphans.deleteNode (h : NoOrphans st) (n : ℕ) : NoOrphans (st.deleteNode n) := by
  intro v hv
  have hmem : v ∈ st.vectors ∧ v ≠ n := by simpa [KnowledgeStore.deleteNode] using hv
  obtain ⟨node, hnode⟩ := Table.mem_keys.mp (h v hmem.1)
  exact Table.mem_keys.mpr ⟨node, get?_deleteNode.mpr ⟨hnode, hmem.2⟩⟩

theorem NoOrphans.deleteNodes (h : NoOrphans st) (ns : List ℕ) :
    NoOrphans (st.deleteNodes ns) := by
  induction ns generalizing st with
  | nil => exact h
  | cons n ns ih =>
    have hone : NoOrphans (st.deleteNode n) := h.deleteNode n
    exact ih hone

/-- The tombstone's deletion leaves no orphan, unless the node has a vector that the
connection does not see. -/
theorem noOrphans_deleteProjection {node : ℕ} {vecOk : Bool} (h : NoOrphans st)
    (hdel : st.deleteProjection node vecOk = .ok st') :
    NoOrphans st' ↔ (node ∈ st.vectors → vecOk = true) := by
  unfold deleteProjection at hdel
  split at hdel
  · cases hdel
  · cases hdel
    cases vecOk with
    | true =>
      have hclean : NoOrphans (st.deleteNode node) := h.deleteNode node
      exact ⟨fun _ _ => rfl, fun _ => hclean⟩
    | false =>
      have hgone : node ∉ (st.deleteNode node).nodes.keys := by
        intro hmem
        obtain ⟨row, hrow⟩ := Table.mem_keys.mp hmem
        exact (get?_deleteNode.mp hrow).2 rfl
      constructor
      · intro hclean hv
        exact absurd (hclean node hv) hgone
      · intro hno v hv
        have hne : v ≠ node := by
          intro heq
          rw [heq] at hv
          cases hno hv
        obtain ⟨row, hrow⟩ := Table.mem_keys.mp (h v hv)
        exact Table.mem_keys.mpr ⟨row, get?_deleteNode.mpr ⟨hrow, hne⟩⟩

theorem keys_storeNodeVectors (node : ℕ) (text : NodeText) :
    (st.storeNodeVectors node text).nodes.keys = st.nodes.keys :=
  Table.keys_mapRows _ _

theorem mem_vectors_storeNodeVectors {node v : ℕ} {text : NodeText} :
    v ∈ (st.storeNodeVectors node text).vectors ↔ v ∈ st.vectors ∨ v = node := by
  simp only [storeNodeVectors]
  split
  · rename_i hnode
    constructor
    · exact Or.inl
    · rintro (hv | rfl)
      · exact hv
      · exact hnode
  · rw [List.mem_append, List.mem_singleton]

/-- A stored vector is no orphan if its node is still there. -/
theorem noOrphans_storeNodeVectors (h : NoOrphans st) (node : ℕ) (text : NodeText) :
    NoOrphans (st.storeNodeVectors node text) ↔ node ∈ st.nodes.keys := by
  constructor
  · intro hclean
    rw [← keys_storeNodeVectors node text]
    exact hclean node (mem_vectors_storeNodeVectors.mpr (Or.inr rfl))
  · intro hnode v hv
    rw [keys_storeNodeVectors]
    rcases mem_vectors_storeNodeVectors.mp hv with hv | rfl
    · exact h v hv
    · exact hnode

end Store

section Writes

variable {st st' : KnowledgeStore NodeRow} {row : NodeRow}

theorem NoOrphans.writeShellNode {eventIds browserEventIds entities : List ℕ}
    (h : NoOrphans st) (hw : st.writeShellNode row eventIds browserEventIds entities = .ok st') :
    NoOrphans st' := by
  have hshown := (h.insertLinked ⟨.observation, row⟩ .events eventIds).linked
    (linked_addLinks (st.nextRowid_mem_insertLinked _ _ _) .browserEvents browserEventIds)
  exact hshown.linked (linkOrIgnore_ok hw)

theorem NoOrphans.writeBrowserNode {eventIds entities : List ℕ} (h : NoOrphans st)
    (hw : st.writeBrowserNode row eventIds entities = .ok st') : NoOrphans st' := by
  unfold KnowledgeStore.writeBrowserNode at hw
  split at hw
  · exact h.linked (linkOrIgnore_ok hw)
  · have hnew := h.insertLinked ⟨.observation, row⟩ .browserEvents eventIds
    exact hnew.linked (linkOrIgnore_ok hw)

theorem NoOrphans.writeWorkflowNode {found : Option ℕ} {run : ℕ} {events sessions : List ℕ}
    (h : NoOrphans st) (hw : st.writeWorkflowNode row found run events sessions = .ok st') :
    NoOrphans st' := by
  unfold KnowledgeStore.writeWorkflowNode at hw
  split at hw
  · exact h.linked (linkRun_ok hw).1
  · have hnew := h.insertLinked ⟨.changeOutcome, row⟩ .workflowRuns []
    exact hnew.linked (linkRun_ok hw).1

theorem NoOrphans.writeAgenticNode {segmentIds entities : List ℕ} {vecOk : Bool}
    (h : NoOrphans st) (hw : st.writeAgenticNode row segmentIds entities vecOk = .ok st') :
    NoOrphans st' := by
  obtain ⟨replaced, hreplace, hlink⟩ := bind_eq_ok.mp hw
  have hclean : NoOrphans replaced := by
    rw [replacePriorAgenticNodes_ok hreplace]
    exact h.deleteNodes _
  have hnew := hclean.insertLinked ⟨.observation, row⟩ .agenticSessions segmentIds
  exact hnew.linked (linkOrIgnore_ok hlink)

theorem NoOrphans.mintProjection (h : NoOrphans st) (uuid : ProjectionUuid) (text : NodeText) :
    NoOrphans (st.mintProjection uuid text).1 := by
  unfold KnowledgeStore.mintProjection
  split
  · exact h
  · exact h.insertLinked _ .memoryChunks []

theorem NoOrphans.linkChunks (h : NoOrphans st) (node revision : ℕ) (chunks : List String) :
    NoOrphans (st.linkChunks node revision chunks) := by
  have hvectors : (st.linkChunks node revision chunks).vectors = st.vectors := by
    unfold KnowledgeStore.linkChunks
    dsimp only
    split <;> rfl
  intro v hv
  rw [hvectors] at hv
  rw [linkChunks_nodes]
  exact h v hv

theorem NoOrphans.writeMemoryNode {uuid : ProjectionUuid} {text : NodeText}
    {chunks : List String} {oldActive : Option ℕ} {vecOk : Bool} (h : NoOrphans st)
    (hw : st.writeMemoryNode uuid text chunks oldActive vecOk = .ok st') : NoOrphans st' := by
  have hlinked := (h.mintProjection uuid text).linkChunks (st.mintProjection uuid text).2
    uuid.revision chunks
  unfold KnowledgeStore.writeMemoryNode at hw
  dsimp only at hw
  split at hw
  · cases hw
    exact hlinked
  · split at hw
    · cases hw
      exact hlinked
    · rcases supersede_ok hw with rfl | ⟨n, -, rfl⟩
      · exact hlinked
      · exact hlinked.deleteNode n

end Writes

section Runs

/-- A tombstone does not leave a vector behind that its connection cannot see, and a vector
is stored while its node is there. -/
def Safe (w : World) : Action → Prop
  | .deleteProjection k conn =>
    match w.ops[k]? with
    | some (.deletingProjection node) => node ∈ w.store.vectors →
        w.vecTableAvailable conn = true ∨ ∃ l ∈ w.store.links, l.node = node ∧
          l.table ≠ .memoryChunks
    | _ => True
  | .storeVectors k _ =>
    match w.ops[k]? with
    | some (.embedding node) => w.vecTable = true → node ∈ w.store.nodes.keys
    | _ => True
  | _ => True

instance (w : World) (a : Action) : Decidable (Safe w a) := by
  unfold Safe
  split
  · split <;> infer_instance
  · split <;> infer_instance
  · infer_instance

/-- Every call uses the connection that its caller opens. -/
def Production (_ : World) : Action → Prop
  | .writeAgentic _ _ _ conn => conn = .getConn
  | .writeMemory _ _ _ _ conn => conn = .getConn
  | .deleteProjection _ conn => conn = .openDb
  | _ => True

instance (w : World) (a : Action) : Decidable (Production w a) := by
  unfold Production
  split <;> infer_instance

theorem noOrphans_commit {w : World} {sources : List Source}
    {result : Except PyError (KnowledgeStore NodeRow)} (h : NoOrphans w.store)
    (hresult : ∀ st, result = .ok st → NoOrphans st) :
    NoOrphans (w.commit sources result).store := by
  cases result with
  | error e => exact h
  | ok st => exact hresult st rfl

/-- One step keeps every vector with its node exactly if it is safe. -/
theorem noOrphans_step {w w' : World} {a : Action} (h : NoOrphans w.store)
    (hs : step w a = some w') : NoOrphans w'.store ↔ Safe w a := by
  cases a with
  | ensureVecTable =>
    cases hs
    exact iff_of_true h trivial
  | writeShell text eventIds browserEventIds entities =>
    cases hs
    exact iff_of_true (noOrphans_commit h fun st hst => h.writeShellNode hst) trivial
  | writeBrowser text eventIds entities =>
    cases hs
    exact iff_of_true (noOrphans_commit h fun st hst => h.writeBrowserNode hst) trivial
  | findIdentical text run events sessions =>
    cases hs
    exact iff_of_true h trivial
  | writeWorkflow k =>
    simp only [step] at hs
    split at hs
    · cases hs
      exact iff_of_true (noOrphans_commit h fun st hst => h.writeWorkflowNode hst) trivial
    · cases hs
  | writeAgentic text segmentIds entities conn =>
    cases hs
    exact iff_of_true (noOrphans_commit h fun st hst => h.writeAgenticNode hst) trivial
  | writeMemory uuid text chunks oldActive conn =>
    cases hs
    exact iff_of_true (noOrphans_commit h fun st hst => h.writeMemoryNode hst) trivial
  | selectProjection revision =>
    obtain ⟨node, -, rfl⟩ := Option.map_eq_some_iff.mp hs
    exact iff_of_true h trivial
  | deleteProjection k conn =>
    simp only [step] at hs
    split at hs
    · rename_i node hop
      cases hs
      cases hdel : w.store.deleteProjection node (w.vecTableAvailable conn) with
      | error e =>
        have hblocked : ∃ l ∈ w.store.links, l.node = node ∧ l.table ≠ .memoryChunks := by
          unfold KnowledgeStore.deleteProjection at hdel
          split at hdel
          · assumption
          · cases hdel
        simp only [Safe, hop]
        exact iff_of_true h fun _ => Or.inr hblocked
      | ok st =>
        have hfree : ¬ ∃ l ∈ w.store.links, l.node = node ∧ l.table ≠ .memoryChunks := by
          intro hblocked
          rw [KnowledgeStore.deleteProjection, if_pos hblocked] at hdel
          cases hdel
        have hiff := noOrphans_deleteProjection h hdel
        simp only [Safe, hop]
        rw [show ((w.commit [] (.ok st)).endOp k).store = st from rfl, hiff]
        simp only [hfree, or_false]
    · cases hs
  | prune revisions =>
    cases hs
    exact iff_of_true h trivial
  | startEmbedding node =>
    simp only [step] at hs
    split at hs
    · cases hs
      exact iff_of_true h trivial
    · cases hs
  | storeVectors k text =>
    simp only [step] at hs
    split at hs
    · rename_i node hop
      simp only [Safe, hop]
      split at hs
      · rename_i htable
        cases hs
        have hiff := noOrphans_storeNodeVectors h node text
        exact hiff.trans ⟨fun hmem _ => hmem, fun himp => himp htable⟩
      · rename_i htable
        cases hs
        exact iff_of_true h fun htrue => absurd htrue htable
    · cases hs
  | relate node entity =>
    cases hs
    exact iff_of_true (noOrphans_commit h fun st hst => h.linked (linkOrIgnore_ok hst)) trivial
  | unrelate node entity =>
    cases hs
    exact iff_of_true h trivial
  | reopen source =>
    cases hs
    exact iff_of_true h trivial
  | crash k =>
    cases hs
    exact iff_of_true h trivial

/-- In a run of safe steps every vector has its node, and a step from such a state leaves an
orphan exactly if it is not safe. -/
theorem vectors_have_nodes {w : World} (h : Run step Safe World.init w) :
    NoOrphans w.store ∧
      ∀ a w', step w a = some w' → (NoOrphans w'.store ↔ Safe w a) := by
  have hclean : NoOrphans w.store :=
    h.invariant (I := fun w => NoOrphans w.store)
      (fun _ _ _ hi hsafe hs => (noOrphans_step hi hs).mpr hsafe)
      (by simp [NoOrphans, World.init, KnowledgeStore.empty])
  exact ⟨hclean, fun a w' hs => noOrphans_step hclean hs⟩

end Runs

section Tombstone

def memoryUuid (revision : ℕ) : ProjectionUuid := ⟨⟨"repo", "MEMORY.md"⟩, revision⟩

/-- A memory is enriched and embedded; a changed version replaces it. -/
def replacedMemory : List Action :=
  [.ensureVecTable, .writeMemory (memoryUuid 1) ⟨"one", "one"⟩ ["chunk"] none .getConn,
   .startEmbedding 1, .storeVectors 0 ⟨"one", "one"⟩,
   .writeMemory (memoryUuid 2) ⟨"two", "two"⟩ ["chunk"] (some 1) .getConn,
   .startEmbedding 2, .storeVectors 0 ⟨"two", "two"⟩]

/-- The superseded node took its vector with it. -/
theorem replacedMemory_clean : ∃ w, Run step Safe World.init w ∧
    w.store.vectors = [2] ∧ NoOrphans w.store := by
  obtain ⟨w, hrun, hvectors⟩ : ∃ w : World, Run step Safe World.init w ∧
      w.store.vectors = [2] :=
    exists_run_of_exec (l := replacedMemory) (by decide +kernel)
  exact ⟨w, hrun, hvectors, (vectors_have_nodes hrun).1⟩

/-- The file of an embedded memory is gone: the tombstone leaves its vector behind. -/
theorem tombstone_orphans : ∃ w, Run step Production World.init w ∧ ¬ NoOrphans w.store := by
  obtain ⟨w, hrun, hvectors, hnodes⟩ : ∃ w : World, Run step Production World.init w ∧
      (w.store.vectors = [1] ∧ w.store.nodes.keys = []) :=
    exists_run_of_exec (l := [.ensureVecTable,
      .writeMemory (memoryUuid 1) ⟨"one", "one"⟩ ["chunk"] none .getConn,
      .startEmbedding 1, .storeVectors 0 ⟨"one", "one"⟩, .selectProjection 1,
      .deleteProjection 0 .openDb]) (by decide +kernel)
  refine ⟨w, hrun, fun hclean => ?_⟩
  have hmem : 1 ∈ w.store.nodes.keys := hclean 1 (by simp [hvectors])
  simp [hnodes] at hmem

end Tombstone

end Hippo.Writers
