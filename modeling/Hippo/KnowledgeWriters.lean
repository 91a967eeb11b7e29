import Hippo.ShellEnrichment
import Hippo.AgenticEnrichment
import Hippo.MemoryStore
import Hippo.Transition

/-!
# All writers on one knowledge store

The shell, browser, workflow, agentic and memory writers insert, share and delete rows of
the same node tables, and the embedder adds the vectors. A node found identical gets the
links of a further source instead of a copy. The vector table is only visible to a
connection that has sqlite-vec loaded.
-/
namespace Hippo

/-- `knowledge_nodes.uuid`: `uuid4`, but a `uuid5` for the projections of memories. -/
inductive NodeUuid where
  | random (n : ℕ)
  | projection (p : ProjectionUuid)
deriving DecidableEq

/-- The columns `find_identical_node` compares. -/
structure NodeText where
  content : String
  embedText : String
deriving DecidableEq

structure NodeRow where
  uuid : NodeUuid
  text : NodeText
deriving DecidableEq

/-- How a caller opens the database. -/
inductive Connection where
  /-- `_get_conn`, with sqlite-vec. -/
  | getConn
  /-- `_open_db`, without it. -/
  | openDb
deriving DecidableEq

def Connection.vecLoaded : Connection → Bool
  | .getConn => true
  | .openDb => false

namespace KnowledgeStore

/-- Only links of one node were added, in the given tables, and chunk links removed. -/
structure Linked {γ : Type} (st st' : KnowledgeStore γ) (n : ℕ) (tables : List LinkTable) :
    Prop where
  nodes : st'.nodes = st.nodes
  vectors : st'.vectors = st.vectors
  kept : ∀ l ∈ st.links, l.table ≠ .memoryChunks → l ∈ st'.links
  added : ∀ l ∈ st'.links, l ∈ st.links ∨ (l.node = n ∧ l.table ∈ tables)

section Transactions

variable (st : KnowledgeStore NodeRow)

/-- `find_identical_node`. -/
def findIdenticalNode (text : NodeText) (nodeType : NodeType) : Option ℕ :=
  (orderBy (fun e => (e.1 : ℤ)) (st.nodes.select fun _ node =>
    node.nodeType = nodeType ∧ node.content.text = text)).head?.map Prod.fst

/-- `INSERT OR IGNORE` into a junction table; the node has to be there. -/
def linkOrIgnore (node : ℕ) (table : LinkTable) (targets : List ℕ) :
    Except PyError (KnowledgeStore NodeRow) :=
  if h : node ∈ st.nodes.keys then
    .ok (st.addLinks node h table (targets.filter fun i => ⟨table, node, i⟩ ∉ st.links))
  else if targets = [] then .ok st
  else .error .integrityError

/-- The node rows of `write_knowledge_node`. -/
def writeShellNode (row : NodeRow) (eventIds browserEventIds entities : List ℕ) :
    Except PyError (KnowledgeStore NodeRow) :=
  let linked := st.insertLinked ⟨.observation, row⟩ .events eventIds
  let shown := linked.addLinks st.nodes.nextRowid (st.nextRowid_mem_insertLinked _ _ _)
    .browserEvents browserEventIds
  shown.linkOrIgnore st.nodes.nextRowid .entities entities

/-- The node rows of `write_browser_knowledge_node`: an identical observation is shared. -/
def writeBrowserNode (row : NodeRow) (eventIds entities : List ℕ) :
    Except PyError (KnowledgeStore NodeRow) :=
  match st.findIdenticalNode row.text .observation with
  | some existing => st.linkOrIgnore existing .browserEvents eventIds
  | none =>
    (st.insertLinked ⟨.observation, row⟩ .browserEvents eventIds).linkOrIgnore
      st.nodes.nextRowid .entities entities

/-- The links of a workflow run to a node: its own, and those of the events and sessions
around it. -/
def linkRun (node run : ℕ) (events sessions : List ℕ) :
    Except PyError (KnowledgeStore NodeRow) := do
  let ran ← st.linkOrIgnore node .workflowRuns [run]
  let evented ← ran.linkOrIgnore node .events events
  evented.linkOrIgnore node .agenticSessions sessions

/-- The node rows of the workflow writer, after its `find_identical_node`. -/
def writeWorkflowNode (row : NodeRow) (found : Option ℕ) (run : ℕ)
    (events sessions : List ℕ) : Except PyError (KnowledgeStore NodeRow) :=
  match found with
  | some existing => st.linkRun existing run events sessions
  | none =>
    (st.insertLinked ⟨.changeOutcome, row⟩ .workflowRuns []).linkRun st.nodes.nextRowid run
      events sessions

/-- The node rows of `write_claude_knowledge_node` and `write_opencode_knowledge_node`. -/
def writeAgenticNode (row : NodeRow) (segmentIds entities : List ℕ) (vecOk : Bool) :
    Except PyError (KnowledgeStore NodeRow) := do
  let replaced ← st.replacePriorAgenticNodes segmentIds vecOk
  (replaced.insertLinked ⟨.observation, row⟩ .agenticSessions segmentIds).linkOrIgnore
    replaced.nodes.nextRowid .entities entities

/-- `INSERT OR IGNORE` of a projection by its uuid, and the `SELECT` of its id. -/
def mintProjection (uuid : ProjectionUuid) (text : NodeText) : KnowledgeStore NodeRow × ℕ :=
  match st.nodes.entries.find? fun e => e.2.content.uuid = .projection uuid with
  | some e => (st, e.1)
  | none =>
    (st.insertLinked ⟨.observation, ⟨.projection uuid, text⟩⟩ .memoryChunks [],
      st.nodes.nextRowid)

/-- The deletion of the node of a superseded revision: refused without the vector table,
and blocked by a link in a junction table it does not clear. -/
def supersede (revision : ℕ) (vecOk : Bool) : Except PyError (KnowledgeStore NodeRow) :=
  match st.linkedNode revision with
  | none => .ok st
  | some node =>
    if ¬ vecOk then
      .error (.runtimeError ("write_memory_knowledge_node: vec0 knowledge_vectors not " ++
        "reachable; refusing to delete the superseded node to avoid an orphan vector " ++
        "(load sqlite-vec on this connection)"))
    else if ∃ l ∈ st.links, l.node = node ∧ l.table ∉ [.memoryChunks, .entities] then
      .error .integrityError
    else .ok (st.deleteNode node)

/-- The node rows of `write_memory_knowledge_node`, for a revision that is the document's
current one and replaces the active one. -/
def writeMemoryNode (uuid : ProjectionUuid) (text : NodeText) (chunks : List String)
    (oldActive : Option ℕ) (vecOk : Bool) : Except PyError (KnowledgeStore NodeRow) :=
  let minted := st.mintProjection uuid text
  let linked := minted.1.linkChunks minted.2 uuid.revision chunks
  match oldActive with
  | none => .ok linked
  | some old => if old = uuid.revision then .ok linked else linked.supersede old vecOk

/-- `store_node_vectors`: the row, if there is one, gets its cleaned text, and the vector is
written whether or not there is one. -/
def storeNodeVectors (node : ℕ) (text : NodeText) : KnowledgeStore NodeRow where
  nodes := st.nodes.modify node fun old => { old with content := ⟨old.content.uuid, text⟩ }
  links := st.links
  vectors := if node ∈ st.vectors then st.vectors else st.vectors ++ [node]
  fk := by
    intro l hl
    rw [Table.modify, Table.update, Table.keys_mapRows]
    exact st.fk l hl

end Transactions

section Specs

variable {γ : Type} {st st' : KnowledgeStore NodeRow} {node n : ℕ} {table : LinkTable}
  {tables tables' : List LinkTable} {targets : List ℕ}

theorem Linked.refl (st : KnowledgeStore γ) (n : ℕ) (tables : List LinkTable) :
    Linked st st n tables :=
  ⟨rfl, rfl, fun _ hl _ => hl, fun _ hl => Or.inl hl⟩

theorem Linked.trans {st st' st'' : KnowledgeStore γ} (h : Linked st st' n tables)
    (h' : Linked st' st'' n tables) : Linked st st'' n tables where
  nodes := h'.nodes.trans h.nodes
  vectors := h'.vectors.trans h.vectors
  kept l hl ht := h'.kept l (h.kept l hl ht) ht
  added l hl := (h'.added l hl).elim (h.added l) Or.inr

theorem Linked.mono {st st' : KnowledgeStore γ} (h : Linked st st' n tables)
    (htables : ∀ t ∈ tables, t ∈ tables') : Linked st st' n tables' where
  nodes := h.nodes
  vectors := h.vectors
  kept := h.kept
  added l hl := (h.added l hl).imp_right fun hnew => ⟨hnew.1, htables _ hnew.2⟩

theorem linked_addLinks {st : KnowledgeStore γ} (h : node ∈ st.nodes.keys) (table : LinkTable)
    (targets : List ℕ) : Linked st (st.addLinks node h table targets) node [table] where
  nodes := rfl
  vectors := rfl
  kept l hl _ := List.mem_append_left _ hl
  added l hl := by
    rcases List.mem_append.mp hl with hl | hl
    · exact Or.inl hl
    · obtain ⟨i, -, rfl⟩ := List.mem_map.mp hl
      exact Or.inr ⟨rfl, List.mem_singleton_self _⟩

theorem linkOrIgnore_ok (h : st.linkOrIgnore node table targets = .ok st') :
    Linked st st' node [table] := by
  unfold linkOrIgnore at h
  split at h
  · rename_i hnode
    cases h
    exact linked_addLinks hnode table _
  · split at h
    · cases h
      exact Linked.refl st node [table]
    · cases h

/-- After linking, the links are there. -/
theorem mem_linkOrIgnore (h : st.linkOrIgnore node table targets = .ok st') {i : ℕ}
    (hi : i ∈ targets) : ⟨table, node, i⟩ ∈ st'.links := by
  unfold linkOrIgnore at h
  split at h
  · cases h
    by_cases hold : (⟨table, node, i⟩ : Link) ∈ st.links
    · exact List.mem_append_left _ hold
    · have hnew : i ∈ targets.filter fun i => (⟨table, node, i⟩ : Link) ∉ st.links := by
        simp [hi, hold]
      exact List.mem_append_right _ (List.mem_map.mpr ⟨i, hnew, rfl⟩)
  · split at h
    · rename_i hnil
      rw [hnil] at hi
      cases hi
    · cases h

theorem linkRun_ok {run : ℕ} {events sessions : List ℕ}
    (h : st.linkRun node run events sessions = .ok st') :
    Linked st st' node [.workflowRuns, .events, .agenticSessions] ∧
      ⟨.workflowRuns, node, run⟩ ∈ st'.links := by
  obtain ⟨ran, hran, h⟩ := bind_eq_ok.mp h
  obtain ⟨evented, hevented, h⟩ := bind_eq_ok.mp h
  have hlink := linkOrIgnore_ok h
  have hevent := linkOrIgnore_ok hevented
  have hrun : (⟨.workflowRuns, node, run⟩ : Link) ∈ ran.links :=
    mem_linkOrIgnore hran (List.mem_singleton_self run)
  refine ⟨((linkOrIgnore_ok hran).mono ?_).trans ((hevent.mono ?_).trans (hlink.mono ?_)), ?_⟩
  · simp
  · simp
  · simp
  · exact hlink.kept _ (hevent.kept _ hrun (by simp)) (by simp)

theorem mem_of_findIdenticalNode {text : NodeText} {nodeType : NodeType}
    (h : st.findIdenticalNode text nodeType = some n) :
    ∃ node, st.nodes.get? n = some node ∧ node.nodeType = nodeType := by
  obtain ⟨e, he, rfl⟩ := Option.map_eq_some_iff.mp h
  have hmem := mem_orderBy.mp (List.mem_of_mem_head? he)
  obtain ⟨hget, htype, -⟩ := Table.mem_select.mp hmem
  exact ⟨e.2, hget, htype⟩

theorem replacePriorAgenticNodes_ok {ids : List ℕ} {vecOk : Bool}
    (h : st.replacePriorAgenticNodes ids vecOk = .ok st') :
    st' = st.deleteNodes (st.priorAgenticNodes ids) := by
  unfold replacePriorAgenticNodes at h
  dsimp only at h
  split at h
  · rename_i hnil
    cases h
    rw [hnil]
    rfl
  · split at h
    · cases h
      rfl
    · cases h

theorem supersede_ok {revision : ℕ} {vecOk : Bool} (h : st.supersede revision vecOk = .ok st') :
    st' = st ∨ ∃ n, ⟨.memoryChunks, n, revision⟩ ∈ st.links ∧ st' = st.deleteNode n := by
  unfold supersede at h
  split at h
  · cases h
    exact Or.inl rfl
  · rename_i n hn
    split at h
    · cases h
    · split at h
      · cases h
      · cases h
        exact Or.inr ⟨n, linkedNode_eq_some hn, rfl⟩

end Specs

end KnowledgeStore

/-- The writer of the shell queue does this to the node tables. -/
theorem ShellDb.writeKnowledgeNode_store (db : ShellDb NodeRow) (row : NodeRow)
    (eventIds browserEventIds : List ℕ) :
    db.store.writeShellNode row eventIds browserEventIds [] =
      .ok (db.writeKnowledgeNode row eventIds browserEventIds).store := by
  simp [KnowledgeStore.writeShellNode, KnowledgeStore.linkOrIgnore, writeKnowledgeNode,
    KnowledgeStore.addLinks]

namespace Writers
open Transition

/-- A source row: the junction table it is linked through, and its id. -/
abbrev Source := LinkTable × ℕ

/-- A call between two of its statements. -/
inductive Op where
  | linkingRun (text : NodeText) (run : ℕ) (events sessions : List ℕ) (found : Option ℕ)
  | deletingProjection (node : ℕ)
  | embedding (node : ℕ)
deriving DecidableEq

structure World where
  store : KnowledgeStore NodeRow := KnowledgeStore.empty
  /-- `ensure_vec_table` has created `knowledge_vectors`. -/
  vecTable : Bool := false
  /-- The source rows whose queue row is `done`. -/
  done : List Source := []
  ops : List Op := []
  nextUuid : ℕ := 0

inductive Action where
  | ensureVecTable
  | writeShell (text : NodeText) (eventIds browserEventIds entities : List ℕ)
  | writeBrowser (text : NodeText) (eventIds entities : List ℕ)
  | findIdentical (text : NodeText) (run : ℕ) (events sessions : List ℕ)
  | writeWorkflow (k : ℕ)
  | writeAgentic (text : NodeText) (segmentIds entities : List ℕ) (conn : Connection)
  | writeMemory (uuid : ProjectionUuid) (text : NodeText) (chunks : List String)
      (oldActive : Option ℕ) (conn : Connection)
  | selectProjection (revision : ℕ)
  | deleteProjection (k : ℕ) (conn : Connection)
  /-- The cascade of a pruned revision. -/
  | prune (revisions : List ℕ)
  | startEmbedding (node : ℕ)
  | storeVectors (k : ℕ) (text : NodeText)
  /-- The entities of a node change. -/
  | relate (node entity : ℕ)
  | unrelate (node entity : ℕ)
  /-- A source row is enqueued again. -/
  | reopen (source : Source)
  | crash (k : ℕ)

section Step

def World.init : World := {}

/-- `vec_table_available`. -/
def World.vecTableAvailable (w : World) (conn : Connection) : Bool :=
  w.vecTable && conn.vecLoaded

/-- A transaction commits, and marks its source rows, or is rolled back by an exception. -/
def World.commit (w : World) (sources : List Source) :
    Except PyError (KnowledgeStore NodeRow) → World
  | .ok store => { w with
      store := store
      done := sources ++ w.done
      nextUuid := w.nextUuid + 1 }
  | .error _ => w

def World.endOp (w : World) (k : ℕ) : World := { w with ops := replaceAt w.ops k [] }

def step (w : World) : Action → Option World
  | .ensureVecTable => some { w with vecTable := true }
  | .writeShell text eventIds browserEventIds entities =>
    some (w.commit (eventIds.map (Prod.mk .events))
      (w.store.writeShellNode ⟨.random w.nextUuid, text⟩ eventIds browserEventIds entities))
  | .writeBrowser text eventIds entities =>
    some (w.commit (eventIds.map (Prod.mk .browserEvents))
      (w.store.writeBrowserNode ⟨.random w.nextUuid, text⟩ eventIds entities))
  | .findIdentical text run events sessions =>
    some { w with ops := w.ops ++ [.linkingRun text run events sessions
      (w.store.findIdenticalNode text .changeOutcome)] }
  | .writeWorkflow k =>
    match w.ops[k]? with
    | some (.linkingRun text run events sessions found) =>
      some ((w.commit [(.workflowRuns, run)] (w.store.writeWorkflowNode
        ⟨.random w.nextUuid, text⟩ found run events sessions)).endOp k)
    | _ => none
  | .writeAgentic text segmentIds entities conn =>
    some (w.commit (segmentIds.map (Prod.mk .agenticSessions))
      (w.store.writeAgenticNode ⟨.random w.nextUuid, text⟩ segmentIds entities
        (w.vecTableAvailable conn)))
  | .writeMemory uuid text chunks oldActive conn =>
    some (w.commit [(.memoryChunks, uuid.revision)]
      (w.store.writeMemoryNode uuid text chunks oldActive (w.vecTableAvailable conn)))
  | .selectProjection revision =>
    (w.store.linkedNode revision).map fun node =>
      { w with ops := w.ops ++ [.deletingProjection node] }
  | .deleteProjection k conn =>
    match w.ops[k]? with
    | some (.deletingProjection node) =>
      some ((w.commit [] (w.store.deleteProjection node (w.vecTableAvailable conn))).endOp k)
    | _ => none
  | .prune revisions => some { w with
      store := w.store.filterLinks fun l => ¬ (l.table = .memoryChunks ∧ l.target ∈ revisions) }
  | .startEmbedding node =>
    if node ∈ w.store.nodes.keys then some { w with ops := w.ops ++ [.embedding node] }
    else none
  | .storeVectors k text =>
    match w.ops[k]? with
    | some (.embedding node) =>
      if w.vecTable then
        some ({ w with store := w.store.storeNodeVectors node text }.endOp k)
      else some (w.endOp k)
    | _ => none
  | .relate node entity => some (w.commit [] (w.store.linkOrIgnore node .entities [entity]))
  | .unrelate node entity => some { w with
      store := w.store.filterLinks fun l => l ≠ ⟨.entities, node, entity⟩ }
  | .reopen source => some { w with done := w.done.filter fun s => s ≠ source }
  | .crash k => some (w.endOp k)

end Step

end Writers

end Hippo
