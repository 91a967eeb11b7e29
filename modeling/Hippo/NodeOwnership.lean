import Hippo.KnowledgeWriters

/-!
# Whose node a replacement deletes

Each writer links its nodes through its own junction tables. The workflow writer also links
its outcomes to sessions, but they are no observations; only the browser writer adds links
to another writer's observation, when it finds an identical one.
-/
namespace Hippo.Writers
open Hippo Hippo.KnowledgeStore Hippo.Transition

/-- The writer that inserted a node. -/
inductive Origin where
  | shell
  | browser
  | workflow
  | agentic
  | memory
deriving DecidableEq

namespace Origin

def nodeType : Origin → NodeType
  | workflow => .changeOutcome
  | _ => .observation

/-- The junction tables that can link a node. With `shared`, browser events are also linked
to the observations of the agentic writers. -/
def tables (shared : Bool) : Origin → List LinkTable
  | shell => [.events, .browserEvents, .entities]
  | browser => [.browserEvents, .entities]
  | workflow => [.workflowRuns, .events, .agenticSessions, .entities]
  | agentic =>
    if shared then [.agenticSessions, .browserEvents, .entities]
    else [.agenticSessions, .entities]
  | memory => [.memoryChunks, .browserEvents, .entities]

/-- The writer may have inserted the node at `n`, given its links. -/
structure Explains (shared : Bool) (o : Origin) (st : KnowledgeStore NodeRow) (n : ℕ)
    (node : KnowledgeNode NodeRow) : Prop where
  nodeType : node.nodeType = o.nodeType
  uuid : (∃ p, node.content.uuid = .projection p) ↔ o = .memory
  links : ∀ l ∈ st.links, l.node = n → l.table ∈ o.tables shared

theorem entities_mem (shared : Bool) (o : Origin) : .entities ∈ o.tables shared := by
  cases o with
  | agentic => cases shared <;> simp [tables]
  | _ => simp [tables]

end Origin

/-- Every node has an origin, and the outcomes are linked to their workflow run. -/
structure Sorted (shared : Bool) (st : KnowledgeStore NodeRow) : Prop where
  origin : ∀ n node, st.nodes.get? n = some node → ∃ o : Origin, o.Explains shared st n node
  run : ∀ n node, st.nodes.get? n = some node → node.nodeType = .changeOutcome →
    ∃ i, ⟨.workflowRuns, n, i⟩ ∈ st.links

def IsOutcome (st : KnowledgeStore NodeRow) (n : ℕ) : Prop :=
  ∃ node, st.nodes.get? n = some node ∧ node.nodeType = .changeOutcome

/-- What a transaction keeps: the origins, and that an outcome stays. -/
structure Keeps (shared : Bool) (st st' : KnowledgeStore NodeRow) : Prop where
  sorted : Sorted shared st'
  outcome : ∀ n, IsOutcome st n → IsOutcome st' n

section Store

variable {shared : Bool} {st st' st'' : KnowledgeStore NodeRow} {n : ℕ}

theorem Keeps.refl (h : Sorted shared st) : Keeps shared st st := ⟨h, fun _ hn => hn⟩

theorem Keeps.trans (h : Keeps shared st st') (h' : Keeps shared st' st'') :
    Keeps shared st st'' :=
  ⟨h'.sorted, fun n hn => h'.outcome n (h.outcome n hn)⟩

/-- An observation with a link to a segment comes from an agentic writer. -/
theorem Sorted.agentic_origin (h : Sorted shared st) {i : ℕ}
    (hlink : st.LinkedTo .agenticSessions .observation i n) :
    ∃ node, Origin.Explains shared .agentic st n node := by
  obtain ⟨hl, htype⟩ := hlink
  obtain ⟨node, hnode, hty⟩ := Option.map_eq_some_iff.mp htype
  obtain ⟨o, ho⟩ := h.origin n node hnode
  have htable : LinkTable.agenticSessions ∈ o.tables shared := ho.links _ hl rfl
  have hobs : o.nodeType = .observation := ho.nodeType.symm.trans hty
  cases o with
  | agentic => exact ⟨node, ho⟩
  | workflow => cases hobs
  | shell => simp [Origin.tables] at htable
  | browser => simp [Origin.tables] at htable
  | memory => simp [Origin.tables] at htable

/-- A node with a chunk link is no outcome. -/
theorem Sorted.chunk_not_outcome (h : Sorted shared st) {i : ℕ}
    (hl : ⟨.memoryChunks, n, i⟩ ∈ st.links) : ¬ IsOutcome st n := by
  rintro ⟨node, hnode, hty⟩
  obtain ⟨o, ho⟩ := h.origin n node hnode
  have htable : LinkTable.memoryChunks ∈ o.tables shared := ho.links _ hl rfl
  have hout : o.nodeType = .changeOutcome := ho.nodeType.symm.trans hty
  cases o with
  | workflow => simp [Origin.tables] at htable
  | _ => cases hout

/-- Links of a node to tables that one of its origins allows. -/
theorem Keeps.linked {tables : List LinkTable} (h : Sorted shared st)
    (hlink : Linked st st' n tables)
    (hfit : ∀ node, st.nodes.get? n = some node →
      ∃ o : Origin, o.Explains shared st n node ∧ ∀ t ∈ tables, t ∈ o.tables shared) :
    Keeps shared st st' := by
  refine ⟨⟨fun m node hm => ?_, fun m node hm hty => ?_⟩, fun m hm => ?_⟩
  · rw [hlink.nodes] at hm
    by_cases hn : m = n
    · obtain ⟨o, ho, hallow⟩ := hfit node (hn ▸ hm)
      refine ⟨o, ho.nodeType, ho.uuid, fun l hl hlm => ?_⟩
      rcases hlink.added l hl with hold | ⟨-, htable⟩
      · exact ho.links l hold (hlm.trans hn)
      · exact hallow _ htable
    · obtain ⟨o, ho⟩ := h.origin m node hm
      refine ⟨o, ho.nodeType, ho.uuid, fun l hl hlm => ?_⟩
      rcases hlink.added l hl with hold | ⟨hln, -⟩
      · exact ho.links l hold hlm
      · exact absurd (hlm.symm.trans hln) hn
  · rw [hlink.nodes] at hm
    obtain ⟨i, hi⟩ := h.run m node hm hty
    exact ⟨i, hlink.kept _ hi (by simp)⟩
  · rw [IsOutcome, hlink.nodes]
    exact hm

/-- A new node with links its origin allows. -/
theorem Keeps.minted {o : Origin} {row : NodeRow} (table : LinkTable) {targets : List ℕ}
    (h : Sorted shared st) (huuid : (∃ p, row.uuid = .projection p) ↔ o = .memory)
    (htable : table ∈ o.tables shared)
    (hlink : Linked (st.insertLinked ⟨o.nodeType, row⟩ table targets) st' st.nodes.nextRowid
      (o.tables shared))
    (hrun : o = .workflow → ∃ i, ⟨.workflowRuns, st.nodes.nextRowid, i⟩ ∈ st'.links) :
    Keeps shared st st' := by
  have hget : ∀ m, st'.nodes.get? m =
      if m = st.nodes.nextRowid then some ⟨o.nodeType, row⟩ else st.nodes.get? m := by
    intro m
    rw [hlink.nodes, insertLinked_nodes, Table.get?_insert_nextRowid]
  have hold : ∀ l ∈ st'.links, l.node ≠ st.nodes.nextRowid → l ∈ st.links := by
    intro l hl hne
    rcases hlink.added l hl with hl | ⟨hln, -⟩
    · rcases mem_insertLinked_links.mp hl with hl | ⟨-, hln, -⟩
      · exact hl
      · exact absurd hln hne
    · exact absurd hln hne
  have hnew : ∀ l ∈ st'.links, l.node = st.nodes.nextRowid → l.table ∈ o.tables shared := by
    intro l hl hln
    rcases hlink.added l hl with hl | ⟨-, hallowed⟩
    · rcases mem_insertLinked_links.mp hl with hl | ⟨ht, -, -⟩
      · exact absurd hln (st.nextRowid_not_linked hl)
      · rw [ht]
        exact htable
    · exact hallowed
  refine ⟨⟨fun m node hm => ?_, fun m node hm hty => ?_⟩, fun m hm => ?_⟩
  · rw [hget] at hm
    split at hm
    · rename_i hm'
      cases hm
      exact ⟨o, rfl, huuid, fun l hl hlm => hnew l hl (hlm.trans hm')⟩
    · rename_i hm'
      obtain ⟨o', ho'⟩ := h.origin m node hm
      refine ⟨o', ho'.nodeType, ho'.uuid, fun l hl hlm => ?_⟩
      exact ho'.links l (hold l hl fun heq => hm' (hlm.symm.trans heq)) hlm
  · rw [hget] at hm
    split at hm
    · rename_i hm'
      cases hm
      rw [hm']
      refine hrun ?_
      cases o with
      | workflow => rfl
      | _ => cases hty
    · rename_i hm'
      obtain ⟨i, hi⟩ := h.run m node hm hty
      exact ⟨i, hlink.kept _ (mem_insertLinked_links.mpr (Or.inl hi)) (by simp)⟩
  · obtain ⟨node, hnode, hty⟩ := hm
    have hne : m ≠ st.nodes.nextRowid := by
      have hlt := Table.lt_nextRowid (Table.mem_keys.mpr ⟨node, hnode⟩)
      omega
    exact ⟨node, by rw [hget, if_neg hne, hnode], hty⟩

theorem Keeps.deleteNodes (h : Sorted shared st) (ns : List ℕ)
    (hns : ∀ n ∈ ns, ¬ IsOutcome st n) : Keeps shared st (st.deleteNodes ns) := by
  refine ⟨⟨fun m node hm => ?_, fun m node hm hty => ?_⟩, fun m hm => ?_⟩
  · obtain ⟨o, ho⟩ := h.origin m node (get?_deleteNodes.mp hm).1
    exact ⟨o, ho.nodeType, ho.uuid, fun l hl => ho.links l (mem_deleteNodes_links.mp hl).1⟩
  · obtain ⟨hold, hkept⟩ := get?_deleteNodes.mp hm
    obtain ⟨i, hi⟩ := h.run m node hold hty
    exact ⟨i, mem_deleteNodes_links.mpr ⟨hi, hkept⟩⟩
  · obtain ⟨node, hnode, hty⟩ := hm
    have hkept : m ∉ ns := fun hmem => hns m hmem ⟨node, hnode, hty⟩
    exact ⟨node, get?_deleteNodes.mpr ⟨hnode, hkept⟩, hty⟩

theorem Keeps.deleteNode (h : Sorted shared st) (hn : ¬ IsOutcome st n) :
    Keeps shared st (st.deleteNode n) :=
  Keeps.deleteNodes h [n] fun _ hm => List.mem_singleton.mp hm ▸ hn

/-- Links go, but none to a workflow run. -/
theorem Keeps.filterLinks (h : Sorted shared st) {keep : Link → Prop} [DecidablePred keep]
    (hkeep : ∀ l, l.table = .workflowRuns → keep l) :
    Keeps shared st (st.filterLinks keep) := by
  refine ⟨⟨fun m node hm => ?_, fun m node hm hty => ?_⟩, fun m hm => hm⟩
  · obtain ⟨o, ho⟩ := h.origin m node hm
    exact ⟨o, ho.nodeType, ho.uuid, fun l hl => ho.links l (mem_filterLinks.mp hl).1⟩
  · obtain ⟨i, hi⟩ := h.run m node hm hty
    exact ⟨i, mem_filterLinks.mpr ⟨hi, hkeep _ rfl⟩⟩

/-- Neither the vectors nor the texts matter. -/
theorem Keeps.of_rows (h : Sorted shared st) (hlinks : st'.links = st.links)
    (hget : ∀ m node', st'.nodes.get? m = some node' → ∃ node, st.nodes.get? m = some node ∧
      node.nodeType = node'.nodeType ∧ node.content.uuid = node'.content.uuid)
    (hout : ∀ m, IsOutcome st m → IsOutcome st' m) : Keeps shared st st' := by
  refine ⟨⟨fun m node' hm => ?_, fun m node' hm hty => ?_⟩, hout⟩
  · obtain ⟨node, hnode, htype, huuid⟩ := hget m node' hm
    obtain ⟨o, ho⟩ := h.origin m node hnode
    refine ⟨o, htype.symm.trans ho.nodeType, huuid ▸ ho.uuid, fun l hl hlm => ?_⟩
    rw [hlinks] at hl
    exact ho.links l hl hlm
  · obtain ⟨node, hnode, htype, -⟩ := hget m node' hm
    rw [hlinks]
    exact h.run m node hnode (htype.trans hty)

end Store

section Writes

variable {shared : Bool} {st st' : KnowledgeStore NodeRow} {text : NodeText} {u : ℕ}

/-- Entities may be linked to every node. -/
theorem Keeps.entities {n : ℕ} {targets : List ℕ} (h : Sorted shared st)
    (hlink : st.linkOrIgnore n .entities targets = .ok st') : Keeps shared st st' := by
  refine Keeps.linked h (linkOrIgnore_ok hlink) fun node hnode => ?_
  obtain ⟨o, ho⟩ := h.origin n node hnode
  exact ⟨o, ho, fun t ht => List.mem_singleton.mp ht ▸ o.entities_mem shared⟩

theorem Keeps.writeShellNode {eventIds browserEventIds entities : List ℕ}
    (h : Sorted shared st)
    (hw : st.writeShellNode ⟨.random u, text⟩ eventIds browserEventIds entities = .ok st') :
    Keeps shared st st' := by
  have hshown := linked_addLinks (st.nextRowid_mem_insertLinked
    ⟨.observation, ⟨.random u, text⟩⟩ .events eventIds) .browserEvents browserEventIds
  have hlink := linkOrIgnore_ok hw
  refine Keeps.minted (o := .shell) .events h (by simp) (by simp [Origin.tables])
    ((hshown.mono ?_).trans (hlink.mono ?_)) (by simp)
  · simp [Origin.tables]
  · simp [Origin.tables]

/-- A browser event may be linked to an identical observation, if agentic ones count as
shared or the observation has no segment. -/
theorem Keeps.writeBrowserNode {eventIds entities : List ℕ} (h : Sorted shared st)
    (hshare : shared = true ∨ ∀ n ∈ st.findIdenticalNode text .observation,
      ∀ l ∈ st.links, l.table = .agenticSessions → l.node ≠ n)
    (hw : st.writeBrowserNode ⟨.random u, text⟩ eventIds entities = .ok st') :
    Keeps shared st st' := by
  unfold KnowledgeStore.writeBrowserNode at hw
  split at hw
  · rename_i n hn
    obtain ⟨found, hfound, hobs⟩ := mem_of_findIdenticalNode hn
    refine Keeps.linked h (linkOrIgnore_ok hw) fun node hnode => ?_
    have heq : found = node := Option.some.inj (hfound.symm.trans hnode)
    rw [heq] at hobs
    obtain ⟨o, ho⟩ := h.origin n node hnode
    cases o with
    | shell => exact ⟨.shell, ho, by simp [Origin.tables]⟩
    | browser => exact ⟨.browser, ho, by simp [Origin.tables]⟩
    | memory => exact ⟨.memory, ho, by simp [Origin.tables]⟩
    | workflow =>
      have hout : node.nodeType = .changeOutcome := ho.nodeType
      rw [hobs] at hout
      cases hout
    | agentic =>
      rcases hshare with rfl | hfree
      · exact ⟨.agentic, ho, by simp [Origin.tables]⟩
      · refine ⟨.browser, ⟨ho.nodeType, ho.uuid.trans (by simp), fun l hl hln => ?_⟩,
          by simp [Origin.tables]⟩
        have htable := ho.links l hl hln
        have hne : l.table ≠ .agenticSessions := fun ht => hfree n hn l hl ht hln
        cases shared <;> simp [Origin.tables, hne] at htable ⊢ <;> tauto
  · have hlink := linkOrIgnore_ok hw
    refine Keeps.minted (o := .browser) .browserEvents h (by simp)
      (by simp [Origin.tables]) (hlink.mono ?_) (by simp)
    simp [Origin.tables]

theorem Keeps.writeWorkflowNode {found : Option ℕ} {run : ℕ} {events sessions : List ℕ}
    (h : Sorted shared st) (hfound : ∀ n ∈ found, IsOutcome st n)
    (hw : st.writeWorkflowNode ⟨.random u, text⟩ found run events sessions = .ok st') :
    Keeps shared st st' := by
  unfold KnowledgeStore.writeWorkflowNode at hw
  split at hw
  · rename_i n
    obtain ⟨out, hout, hty⟩ := hfound n rfl
    refine Keeps.linked h (linkRun_ok hw).1 fun node hnode => ?_
    have heq : out = node := Option.some.inj (hout.symm.trans hnode)
    rw [heq] at hty
    obtain ⟨o, ho⟩ := h.origin n node hnode
    have hwork : o.nodeType = .changeOutcome := ho.nodeType.symm.trans hty
    cases o with
    | workflow => exact ⟨.workflow, ho, by simp [Origin.tables]⟩
    | _ => cases hwork
  · obtain ⟨hlink, hrun⟩ := linkRun_ok hw
    refine Keeps.minted (o := .workflow) .workflowRuns h (by simp)
      (by simp [Origin.tables]) (hlink.mono ?_) fun _ => ⟨run, hrun⟩
    simp [Origin.tables]

theorem not_outcome_of_prior {ids : List ℕ} {n : ℕ} (h : n ∈ st.priorAgenticNodes ids) :
    ¬ IsOutcome st n := by
  rintro ⟨node, hnode, hty⟩
  obtain ⟨⟨i, -, -, htype⟩, -⟩ := mem_priorAgenticNodes.mp h
  rw [hnode, Option.map_some, hty] at htype
  cases htype

theorem Keeps.writeAgenticNode {segmentIds entities : List ℕ} {vecOk : Bool}
    (h : Sorted shared st)
    (hw : st.writeAgenticNode ⟨.random u, text⟩ segmentIds entities vecOk = .ok st') :
    Keeps shared st st' := by
  obtain ⟨replaced, hreplace, hlink⟩ := bind_eq_ok.mp hw
  have hdeleted : Keeps shared st replaced := by
    rw [replacePriorAgenticNodes_ok hreplace]
    exact Keeps.deleteNodes h _ fun n hn => not_outcome_of_prior hn
  refine hdeleted.trans (Keeps.minted (o := .agentic) .agenticSessions hdeleted.sorted
    (by simp) ?_ ((linkOrIgnore_ok hlink).mono ?_) (by simp))
  · cases shared <;> simp [Origin.tables]
  · cases shared <;> simp [Origin.tables]

/-- The projection of a memory is there after `mintProjection`, and comes from its writer. -/
theorem Keeps.mintProjection (h : Sorted shared st) (uuid : ProjectionUuid) (text : NodeText) :
    Keeps shared st (st.mintProjection uuid text).1 ∧
      ∃ node, (st.mintProjection uuid text).1.nodes.get? (st.mintProjection uuid text).2 =
        some node ∧ node.content.uuid = .projection uuid := by
  unfold KnowledgeStore.mintProjection
  split
  · rename_i e he
    have hget : st.nodes.get? e.1 = some e.2 :=
      Table.get?_eq_some.mpr (List.mem_of_find?_eq_some he)
    exact ⟨Keeps.refl h, e.2, hget, by simpa using List.find?_some he⟩
  · have hkeeps : Keeps shared st (st.insertLinked
        ⟨.observation, ⟨.projection uuid, text⟩⟩ .memoryChunks []) :=
      Keeps.minted (o := .memory) .memoryChunks h (by simp) (by simp [Origin.tables])
        (Linked.refl _ _ _) (by simp)
    refine ⟨hkeeps, ⟨.observation, ⟨.projection uuid, text⟩⟩, ?_, rfl⟩
    rw [insertLinked_nodes, Table.get?_insert_nextRowid, if_pos rfl]

theorem Keeps.linkChunks {node : KnowledgeNode NodeRow} {n : ℕ} (h : Sorted shared st)
    (hnode : st.nodes.get? n = some node) (huuid : ∃ p, node.content.uuid = .projection p)
    (revision : ℕ) (chunks : List String) :
    Keeps shared st (st.linkChunks n revision chunks) := by
  have hkeys : n ∈ st.nodes.keys := Table.mem_keys.mpr ⟨node, hnode⟩
  have hvectors : (st.linkChunks n revision chunks).vectors = st.vectors := by
    unfold KnowledgeStore.linkChunks
    dsimp only
    split <;> rfl
  have hlink : Linked st (st.linkChunks n revision chunks) n [.memoryChunks] := by
    refine ⟨linkChunks_nodes _ _, hvectors, fun l hl ht => ?_, fun l hl => ?_⟩
    · exact (mem_linkChunks hkeys).mpr (Or.inl ⟨hl, fun hc => ht hc.1⟩)
    · rcases (mem_linkChunks hkeys).mp hl with ⟨hl, -⟩ | ⟨-, rfl⟩
      · exact Or.inl hl
      · exact Or.inr ⟨rfl, List.mem_singleton_self _⟩
  refine Keeps.linked h hlink fun node' hnode' => ?_
  have heq : node = node' := Option.some.inj (hnode.symm.trans hnode')
  obtain ⟨o, ho⟩ := h.origin n node' hnode'
  have hmem : o = .memory := ho.uuid.mp (heq ▸ huuid)
  rw [hmem] at ho
  exact ⟨.memory, ho, by simp [Origin.tables]⟩

theorem Keeps.writeMemoryNode {uuid : ProjectionUuid} {chunks : List String}
    {oldActive : Option ℕ} {vecOk : Bool} (h : Sorted shared st)
    (hw : st.writeMemoryNode uuid text chunks oldActive vecOk = .ok st') :
    Keeps shared st st' := by
  obtain ⟨hminted, node, hnode, huuid⟩ := Keeps.mintProjection h uuid text
  have hlinked := hminted.trans (Keeps.linkChunks hminted.sorted hnode ⟨uuid, huuid⟩
    uuid.revision chunks)
  unfold KnowledgeStore.writeMemoryNode at hw
  dsimp only at hw
  split at hw
  · cases hw
    exact hlinked
  · split at hw
    · cases hw
      exact hlinked
    · rcases supersede_ok hw with rfl | ⟨n, hn, rfl⟩
      · exact hlinked
      · exact hlinked.trans (Keeps.deleteNode hlinked.sorted
          (hlinked.sorted.chunk_not_outcome hn))

/-- The link to its workflow run keeps the tombstone from an outcome. -/
theorem Keeps.deleteProjection {n : ℕ} {vecOk : Bool} (h : Sorted shared st)
    (hdel : st.deleteProjection n vecOk = .ok st') : Keeps shared st st' := by
  have hfree : ¬ IsOutcome st n := by
    rintro ⟨node, hnode, hty⟩
    obtain ⟨i, hi⟩ := h.run n node hnode hty
    rw [KnowledgeStore.deleteProjection, if_pos ⟨_, hi, rfl, by simp⟩] at hdel
    cases hdel
  obtain ⟨hnodes, hlinks⟩ := deleteProjection_ok hdel
  have hkeeps : Keeps shared st (st.deleteNode n) := Keeps.deleteNode h hfree
  refine hkeeps.trans (Keeps.of_rows hkeeps.sorted hlinks (fun m node' hm => ?_) fun m hm => ?_)
  · rw [hnodes] at hm
    exact ⟨node', hm, rfl, rfl⟩
  · rw [IsOutcome, hnodes]
    exact hm

theorem Keeps.storeNodeVectors (h : Sorted shared st) (n : ℕ) :
    Keeps shared st (st.storeNodeVectors n text) := by
  refine Keeps.of_rows h rfl (fun m node' hm => ?_) fun m hm => ?_
  · obtain ⟨node, hnode, hrow⟩ := Table.eq_of_get?_modify hm
    refine ⟨node, hnode, ?_⟩
    rcases hrow with ⟨-, rfl⟩ | ⟨-, rfl⟩ <;> exact ⟨rfl, rfl⟩
  · obtain ⟨node, hnode, hty⟩ := hm
    have hget : (st.storeNodeVectors n text).nodes.get? m = if m = n then
        (st.nodes.get? m).map fun old => { old with content := ⟨old.content.uuid, text⟩ }
        else st.nodes.get? m := Table.get?_modify _ _ _ _
    rw [hnode] at hget
    split at hget
    · exact ⟨_, hget, hty⟩
    · exact ⟨node, hget, hty⟩

end Writes

section Runs

variable {shared : Bool} {w w' : World} {a : Action}

/-- The node a waiting workflow writer found is an outcome. -/
structure Settled (shared : Bool) (w : World) : Prop where
  sorted : Sorted shared w.store
  found : ∀ text run events sessions n,
    Op.linkingRun text run events sessions (some n) ∈ w.ops → IsOutcome w.store n

/-- A browser event is not linked to an observation that belongs to a segment. -/
def Unsharing (w : World) : Action → Prop
  | .writeBrowser text _ _ => ∀ n ∈ w.store.findIdenticalNode text .observation,
      ∀ l ∈ w.store.links, l.table = .agenticSessions → l.node ≠ n
  | _ => True

instance (w : World) (a : Action) : Decidable (Unsharing w a) := by
  unfold Unsharing
  split <;> infer_instance

theorem settled_init (shared : Bool) : Settled shared World.init where
  sorted := by
    refine ⟨fun n node hn => ?_, fun n node hn => ?_⟩
    · cases hn
    · cases hn
  found := by
    intro text run events sessions n h
    cases h

theorem Settled.of_keeps (h : Settled shared w) (hkeeps : Keeps shared w.store w'.store)
    (hops : ∀ op ∈ w'.ops, op ∈ w.ops) : Settled shared w' where
  sorted := hkeeps.sorted
  found text run events sessions n hop :=
    hkeeps.outcome n (h.found text run events sessions n (hops _ hop))

theorem keeps_commit {sources : List Source} {result : Except PyError (KnowledgeStore NodeRow)}
    (h : Sorted shared w.store) (hresult : ∀ st, result = .ok st → Keeps shared w.store st) :
    Keeps shared w.store (w.commit sources result).store := by
  cases result with
  | error e => exact Keeps.refl h
  | ok st => exact hresult st rfl

theorem ops_commit (w : World) (sources : List Source)
    (result : Except PyError (KnowledgeStore NodeRow)) :
    (w.commit sources result).ops = w.ops := by
  cases result <;> rfl

theorem Settled.commit {sources : List Source} {result : Except PyError (KnowledgeStore NodeRow)}
    (h : Settled shared w) (hresult : ∀ st, result = .ok st → Keeps shared w.store st) :
    Settled shared (w.commit sources result) :=
  h.of_keeps (keeps_commit h.sorted hresult) fun _ hop => ops_commit w sources result ▸ hop

theorem Settled.endOp (h : Settled shared w) (k : ℕ) : Settled shared (w.endOp k) :=
  h.of_keeps (Keeps.refl h.sorted) fun _ hop =>
    (mem_replaceAt hop).resolve_right (List.not_mem_nil)

theorem settled_step (h : Settled shared w) (hshare : shared = true ∨ Unsharing w a)
    (hs : step w a = some w') : Settled shared w' := by
  have hsorted := h.sorted
  cases a with
  | ensureVecTable =>
    cases hs
    exact h.of_keeps (Keeps.refl hsorted) fun op hop => hop
  | writeShell text eventIds browserEventIds entities =>
    cases hs
    exact h.commit fun st hst => Keeps.writeShellNode hsorted hst
  | writeBrowser text eventIds entities =>
    cases hs
    exact h.commit fun st hst => Keeps.writeBrowserNode hsorted hshare hst
  | findIdentical text run events sessions =>
    cases hs
    refine ⟨hsorted, fun text' run' events' sessions' n hop => ?_⟩
    rcases List.mem_append.mp hop with hold | hnew
    · exact h.found _ _ _ _ n hold
    · have hop' := List.mem_singleton.mp hnew
      injection hop' with _ _ _ _ hn
      exact mem_of_findIdenticalNode hn.symm
  | writeWorkflow k =>
    simp only [step] at hs
    split at hs
    · rename_i text run events sessions found hop
      cases hs
      refine (h.commit fun st hst => Keeps.writeWorkflowNode hsorted (fun n hn => ?_) hst).endOp k
      cases hn
      exact h.found _ _ _ _ n (List.mem_of_getElem? hop)
    · cases hs
  | writeAgentic text segmentIds entities conn =>
    cases hs
    exact h.commit fun st hst => Keeps.writeAgenticNode hsorted hst
  | writeMemory uuid text chunks oldActive conn =>
    cases hs
    exact h.commit fun st hst => Keeps.writeMemoryNode hsorted hst
  | selectProjection revision =>
    obtain ⟨node, -, rfl⟩ := Option.map_eq_some_iff.mp hs
    refine ⟨hsorted, fun text run events sessions n hop => ?_⟩
    rcases List.mem_append.mp hop with hold | hnew
    · exact h.found _ _ _ _ n hold
    · cases List.mem_singleton.mp hnew
  | deleteProjection k conn =>
    simp only [step] at hs
    split at hs
    · cases hs
      exact (h.commit fun st hst => Keeps.deleteProjection hsorted hst).endOp k
    · cases hs
  | prune revisions =>
    cases hs
    exact h.of_keeps (Keeps.filterLinks hsorted fun l hl => by simp [hl]) fun op hop => hop
  | startEmbedding node =>
    simp only [step] at hs
    split at hs
    · cases hs
      refine ⟨hsorted, fun text run events sessions n hop => ?_⟩
      rcases List.mem_append.mp hop with hold | hnew
      · exact h.found _ _ _ _ n hold
      · cases List.mem_singleton.mp hnew
    · cases hs
  | storeVectors k text =>
    simp only [step] at hs
    split at hs
    · rename_i node hop
      split at hs
      · cases hs
        have hstored : Settled shared { w with store := w.store.storeNodeVectors node text } :=
          h.of_keeps (Keeps.storeNodeVectors hsorted node) fun op hop => hop
        exact hstored.endOp k
      · cases hs
        exact h.endOp k
    · cases hs
  | relate node entity =>
    cases hs
    exact h.commit fun st hst => Keeps.entities hsorted hst
  | unrelate node entity =>
    cases hs
    refine h.of_keeps (Keeps.filterLinks hsorted fun l hl => ?_) fun op hop => hop
    rintro rfl
    cases hl
  | reopen source =>
    cases hs
    exact h.of_keeps (Keeps.refl hsorted) fun op hop => hop
  | crash k =>
    cases hs
    exact h.endOp k

theorem settled_of_reaches (h : Reaches step World.init w) : Settled true w :=
  h.invariant (I := Settled true) (fun _ _ _ hi _ hs => settled_step hi (Or.inl rfl) hs)
    (settled_init true)

theorem settled_of_run (h : Run step Unsharing World.init w) : Settled false w :=
  h.invariant (I := Settled false) (fun _ _ _ hi hok hs => settled_step hi (Or.inr hok) hs)
    (settled_init false)

end Runs

section Replacement

/-- The junction tables of the source rows. -/
def sourceTables : List LinkTable :=
  [.events, .browserEvents, .workflowRuns, .agenticSessions, .memoryChunks]

/-- The replacement deletes only nodes whose every source link is to one of the segments. -/
def DeletesOwn (st : KnowledgeStore NodeRow) (ids : List ℕ) : Prop :=
  ∀ vecOk st', st.replacePriorAgenticNodes ids vecOk = .ok st' →
    ∀ n ∈ st.nodes.keys, n ∉ st'.nodes.keys → ∀ l ∈ st.links, l.node = n →
      l.table ∈ sourceTables → l.table = .agenticSessions ∧ l.target ∈ ids

/-- No `done` source row but the segments loses its last node to the replacement. -/
def SourcesKeep (w : World) (ids : List ℕ) : Prop :=
  ∀ vecOk st', w.store.replacePriorAgenticNodes ids vecOk = .ok st' →
    ∀ s ∈ w.done, s.1 ∈ sourceTables → ¬ (s.1 = .agenticSessions ∧ s.2 ∈ ids) →
      w.store.hasLink s.1 s.2 → st'.hasLink s.1 s.2

/-- An observation of the segments that a browser event shares has a further segment. -/
def Unshared (st : KnowledgeStore NodeRow) (ids : List ℕ) : Prop :=
  ∀ n, (∃ i ∈ ids, st.LinkedTo .agenticSessions .observation i n) →
    (∃ j, ⟨.browserEvents, n, j⟩ ∈ st.links) →
    ∃ i, ⟨.agenticSessions, n, i⟩ ∈ st.links ∧ i ∉ ids

variable {w : World} {st st' : KnowledgeStore NodeRow} {ids : List ℕ}

theorem mem_keys_deleteNodes {ns : List ℕ} {n : ℕ} :
    n ∈ (st.deleteNodes ns).nodes.keys ↔ n ∈ st.nodes.keys ∧ n ∉ ns := by
  simp only [Table.mem_keys, get?_deleteNodes]
  constructor
  · rintro ⟨node, hnode, hn⟩
    exact ⟨⟨node, hnode⟩, hn⟩
  · rintro ⟨⟨node, hnode⟩, hn⟩
    exact ⟨node, hnode, hn⟩

/-- Links of the deleted nodes to other sources are to browser events. -/
theorem deletesOwn_iff (h : Sorted true st) : DeletesOwn st ids ↔ Unshared st ids := by
  constructor
  · intro hown n hids hbrowser
    by_contra hnone
    obtain ⟨j, hj⟩ := hbrowser
    have hall : ∀ l ∈ st.links, l.table = .agenticSessions → l.node = n → l.target ∈ ids := by
      rintro ⟨table, node, target⟩ hl rfl rfl
      by_contra htarget
      exact hnone ⟨target, hl, htarget⟩
    have hprior : n ∈ st.priorAgenticNodes ids := mem_priorAgenticNodes.mpr ⟨hids, hall⟩
    have hok : st.replacePriorAgenticNodes ids true =
        .ok (st.deleteNodes (st.priorAgenticNodes ids)) := by
      rw [replacePriorAgenticNodes, if_neg (List.ne_nil_of_mem hprior), if_pos rfl]
    have hdeleted : n ∉ (st.deleteNodes (st.priorAgenticNodes ids)).nodes.keys :=
      fun hmem => (mem_keys_deleteNodes.mp hmem).2 hprior
    cases (hown true _ hok n (st.fk _ hj) hdeleted _ hj rfl (by simp [sourceTables])).1
  · intro hunshared vecOk st' hst' n hn hdeleted l hl hln hsource
    rw [replacePriorAgenticNodes_ok hst', mem_keys_deleteNodes] at hdeleted
    have hprior : n ∈ st.priorAgenticNodes ids := by
      by_contra hnot
      exact hdeleted ⟨hn, hnot⟩
    obtain ⟨⟨i, hi, hlinked⟩, hall⟩ := mem_priorAgenticNodes.mp hprior
    obtain ⟨node, ho⟩ := h.agentic_origin hlinked
    have htable : l.table ∈ Origin.tables true .agentic := ho.links l hl hln
    by_cases hagentic : l.table = .agenticSessions
    · exact ⟨hagentic, hall l hl hagentic hln⟩
    · have hbrowser : l.table = .browserEvents := by
        simp [Origin.tables, hagentic] at htable
        rcases htable with ht | ht
        · exact ht
        · rw [ht] at hsource
          simp [sourceTables] at hsource
      obtain ⟨table, m, j⟩ := l
      cases hbrowser
      cases hln
      obtain ⟨i', hi', hout⟩ := hunshared m ⟨i, hi, hlinked⟩ ⟨j, hl⟩
      exact absurd (hall _ hi' rfl rfl) hout

theorem sourcesKeep_of_deletesOwn (h : DeletesOwn w.store ids) : SourcesKeep w ids := by
  intro vecOk st' hst' s _ hsource hother hlink
  obtain ⟨l, hl, htable, htarget⟩ := hasLink_iff.mp hlink
  have hkept : l.node ∈ st'.nodes.keys := by
    by_contra hdeleted
    have hown := h vecOk st' hst' l.node (w.store.fk l hl) hdeleted l hl rfl (htable ▸ hsource)
    exact hother ⟨htable ▸ hown.1, htarget ▸ hown.2⟩
  rw [replacePriorAgenticNodes_ok hst'] at hkept ⊢
  exact hasLink_iff.mpr
    ⟨l, mem_deleteNodes_links.mpr ⟨hl, (mem_keys_deleteNodes.mp hkept).2⟩, htable, htarget⟩

/-- In every reachable state a re-enrichment deletes only its own nodes exactly if no browser
event shares one of them; it does so in every run in which none comes to share one. -/
theorem replacement_own (ids : List ℕ) :
    (∀ w, Reaches step World.init w →
      (DeletesOwn w.store ids ∧ SourcesKeep w ids ↔ Unshared w.store ids)) ∧
    ∀ w, Run step Unsharing World.init w → DeletesOwn w.store ids ∧ SourcesKeep w ids := by
  have hexact : ∀ w, Reaches step World.init w →
      (DeletesOwn w.store ids ∧ SourcesKeep w ids ↔ Unshared w.store ids) := by
    intro w hreach
    have hiff : DeletesOwn w.store ids ↔ Unshared w.store ids :=
      deletesOwn_iff (settled_of_reaches hreach).sorted
    constructor
    · intro hown
      exact hiff.mp hown.1
    · intro hunshared
      exact ⟨hiff.mpr hunshared, sourcesKeep_of_deletesOwn (hiff.mpr hunshared)⟩
  refine ⟨hexact, fun w hrun => (hexact w hrun.reaches).mpr ?_⟩
  rintro n ⟨i, -, hlinked⟩ ⟨j, hj⟩
  obtain ⟨node, ho⟩ := (settled_of_run hrun).sorted.agentic_origin hlinked
  have htable := ho.links _ hj rfl
  simp [Origin.tables] at htable

/-- A page and a session whose enrichments differ: the session is enriched again. -/
theorem distinctPage_kept : ∃ w, Run step Unsharing World.init w ∧
    (LinkTable.browserEvents, 7) ∈ w.done ∧ w.store.priorAgenticNodes [1] = [1] ∧
    DeletesOwn w.store [1] ∧ SourcesKeep w [1] := by
  obtain ⟨w, hrun, hdone, hprior⟩ : ∃ w : World, Run step Unsharing World.init w ∧
      ((LinkTable.browserEvents, 7) ∈ w.done ∧ w.store.priorAgenticNodes [1] = [1]) :=
    exists_run_of_exec (l := [.ensureVecTable, .writeAgentic ⟨"fix", "fix"⟩ [1] [] .getConn,
      .writeBrowser ⟨"page", "page"⟩ [7] []]) (by decide +kernel)
  exact ⟨w, hrun, hdone, hprior, (replacement_own [1]).2 w hrun⟩

/-- A page whose enrichment reads like the session's: it loses its node. -/
theorem identicalPage_lost : ∃ w, Reaches step World.init w ∧
    ¬ DeletesOwn w.store [1] ∧ ¬ SourcesKeep w [1] := by
  obtain ⟨w, hrun, hdone, hlink, hok⟩ : ∃ w : World, Run step (fun _ _ => True) World.init w ∧
      ((LinkTable.browserEvents, 7) ∈ w.done ∧ w.store.hasLink .browserEvents 7 = true ∧
        ∃ st ∈ (w.store.replacePriorAgenticNodes [1] true).toOption,
          st.hasLink .browserEvents 7 = false) :=
    exists_run_of_exec (l := [.ensureVecTable, .writeAgentic ⟨"fix", "fix"⟩ [1] [] .getConn,
      .writeBrowser ⟨"fix", "fix"⟩ [7] []]) (by decide +kernel)
  obtain ⟨st, hst, hlost⟩ := hok
  have hreplaced : w.store.replacePriorAgenticNodes [1] true = .ok st := by
    cases hr : w.store.replacePriorAgenticNodes [1] true with
    | error e =>
      rw [hr] at hst
      cases hst
    | ok st' =>
      rw [hr] at hst
      cases hst
      rfl
  have hno : ¬ SourcesKeep w [1] := by
    intro hkeep
    have hkept := hkeep true st hreplaced (.browserEvents, 7) hdone (by simp [sourceTables])
      (by simp) hlink
    rw [hlost] at hkept
    cases hkept
  exact ⟨w, hrun, fun hown => hno (sourcesKeep_of_deletesOwn hown), hno⟩

end Replacement

end Hippo.Writers
