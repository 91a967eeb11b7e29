import Hippo.Table

/-!
# Knowledge nodes, their links and their vectors

The rows every enrichment writer shares: `knowledge_nodes`, the
`knowledge_node_*` junction tables (one list here, the table is a column) and the
vec0 rows. The foreign key from a link to its node is a field of the store.
-/
namespace Hippo

/-- The exceptions the modelled Python functions raise. -/
inductive PyError where
  | attributeError
  | typeError
  | valueError (message : String)
  | runtimeError (message : String)
  /-- A constraint of the schema. -/
  | integrityError
deriving DecidableEq, Repr

/-- A computation of two parts that returns has returned from both. -/
theorem bind_eq_ok {ε α β : Type} {x : Except ε α} {f : α → Except ε β} {b : β} :
    x >>= f = .ok b ↔ ∃ a, x = .ok a ∧ f a = .ok b := by
  cases x with
  | error e =>
    constructor
    · intro h
      cases h
    · rintro ⟨a, h, -⟩
      cases h
  | ok a =>
    constructor
    · intro h
      exact ⟨a, rfl, h⟩
    · rintro ⟨a, h, hf⟩
      cases h
      exact hf

/-- `knowledge_nodes.node_type`. -/
inductive NodeType where
  | observation
  | changeOutcome
  | memory
deriving DecidableEq, Repr

/-- The junction tables that link a node to what it was made from. -/
inductive LinkTable where
  | events
  | browserEvents
  | agenticSessions
  | workflowRuns
  | memoryChunks
  | lessons
  | entities
deriving DecidableEq, Repr

structure Link where
  table : LinkTable
  node : ℕ
  target : ℕ
deriving DecidableEq, Repr

structure KnowledgeNode (γ : Type*) where
  nodeType : NodeType
  content : γ

/-- The node tables. `fk` is the schema's foreign key on `knowledge_node_id`. -/
structure KnowledgeStore (γ : Type*) where
  nodes : Table ℕ (KnowledgeNode γ)
  links : List Link
  vectors : List ℕ
  fk : ∀ l ∈ links, l.node ∈ nodes.keys

namespace KnowledgeStore

variable {γ : Type*}

def empty : KnowledgeStore γ := ⟨Table.empty, [], [], by simp⟩

/-- `INSERT INTO knowledge_nodes` and the links of the new node, in one transaction. -/
def insertLinked (st : KnowledgeStore γ) (new : KnowledgeNode γ) (table : LinkTable)
    (targets : List ℕ) : KnowledgeStore γ where
  nodes := st.nodes.insert st.nodes.nextRowid new
  links := st.links ++ targets.map fun i => ⟨table, st.nodes.nextRowid, i⟩
  vectors := st.vectors
  fk := by
    intro l hl
    rw [Table.mem_keys]
    simp only [Table.get?_insert_nextRowid]
    rcases List.mem_append.mp hl with hl | hl
    · obtain ⟨n, hn⟩ := Table.mem_keys.mp (st.fk l hl)
      by_cases h : l.node = st.nodes.nextRowid
      · exact ⟨new, if_pos h⟩
      · exact ⟨n, by rw [if_neg h, hn]⟩
    · obtain ⟨i, -, rfl⟩ := List.mem_map.mp hl
      exact ⟨new, if_pos rfl⟩

/-- The `DELETE`s of one node: its links in every junction table, its vector, its row. -/
def deleteNode (st : KnowledgeStore γ) (node : ℕ) : KnowledgeStore γ where
  nodes := st.nodes.delete fun k _ => k = node
  links := st.links.filter fun l => l.node ≠ node
  vectors := st.vectors.filter fun v => v ≠ node
  fk := by
    intro l hl
    obtain ⟨hl, hne⟩ := List.mem_filter.mp hl
    obtain ⟨n, hn⟩ := Table.mem_keys.mp (st.fk l hl)
    exact Table.mem_keys.mpr ⟨n, Table.get?_delete_eq_some.mpr ⟨hn, by simpa using hne⟩⟩

def deleteNodes (st : KnowledgeStore γ) (nodes : List ℕ) : KnowledgeStore γ :=
  nodes.foldl deleteNode st

/-- `i` is linked through `table` to the node with rowid `n`, whose type is `ty`. -/
def LinkedTo (st : KnowledgeStore γ) (table : LinkTable) (ty : NodeType) (i n : ℕ) : Prop :=
  ⟨table, n, i⟩ ∈ st.links ∧ (st.nodes.get? n).map KnowledgeNode.nodeType = some ty

instance (st : KnowledgeStore γ) (table : LinkTable) (ty : NodeType) (i n : ℕ) :
    Decidable (st.LinkedTo table ty i n) := by
  unfold LinkedTo
  infer_instance

/-- `knowledge_node_*` has a row for the item, whatever the node's type. -/
def hasLink (st : KnowledgeStore γ) (table : LinkTable) (i : ℕ) : Bool :=
  st.links.any fun l => l.table = table ∧ l.target = i

theorem nextRowid_not_linked (st : KnowledgeStore γ) {l : Link} (hl : l ∈ st.links) :
    l.node ≠ st.nodes.nextRowid := by
  intro h
  have hlt := Table.lt_nextRowid (st.fk l hl)
  omega

@[simp] theorem insertLinked_nodes (st : KnowledgeStore γ) (new : KnowledgeNode γ)
    (table : LinkTable) (targets : List ℕ) :
    (st.insertLinked new table targets).nodes = st.nodes.insert st.nodes.nextRowid new := rfl

theorem mem_insertLinked_links {st : KnowledgeStore γ} {new : KnowledgeNode γ}
    {table : LinkTable} {targets : List ℕ} {l : Link} :
    l ∈ (st.insertLinked new table targets).links ↔
      l ∈ st.links ∨ (l.table = table ∧ l.node = st.nodes.nextRowid ∧ l.target ∈ targets) := by
  obtain ⟨lt, ln, li⟩ := l
  simp only [insertLinked, List.mem_append, List.mem_map, Link.mk.injEq]
  constructor
  · rintro (h | ⟨i, hi, rfl, rfl, rfl⟩)
    · exact Or.inl h
    · exact Or.inr ⟨rfl, rfl, hi⟩
  · rintro (h | ⟨rfl, rfl, hi⟩)
    · exact Or.inl h
    · exact Or.inr ⟨li, hi, rfl, rfl, rfl⟩

/-- Further links of a node that exists. -/
def addLinks (st : KnowledgeStore γ) (node : ℕ) (h : node ∈ st.nodes.keys) (table : LinkTable)
    (targets : List ℕ) : KnowledgeStore γ where
  nodes := st.nodes
  links := st.links ++ targets.map fun i => ⟨table, node, i⟩
  vectors := st.vectors
  fk := by
    intro l hl
    rcases List.mem_append.mp hl with hl | hl
    · exact st.fk l hl
    · obtain ⟨i, -, rfl⟩ := List.mem_map.mp hl
      exact h

/-- `INSERT OR IGNORE` of links of a node that exists. -/
def addMissing (st : KnowledgeStore γ) (node : ℕ) (h : node ∈ st.nodes.keys) (table : LinkTable)
    (targets : List ℕ) : KnowledgeStore γ :=
  st.addLinks node h table (targets.filter fun i => ⟨table, node, i⟩ ∉ st.links)

/-- The links that meet a condition. -/
def filterLinks (st : KnowledgeStore γ) (keep : Link → Prop) [DecidablePred keep] :
    KnowledgeStore γ where
  nodes := st.nodes
  links := st.links.filter fun l => keep l
  vectors := st.vectors
  fk := fun l hl => st.fk l (List.mem_filter.mp hl).1

theorem mem_filterLinks {st : KnowledgeStore γ} {keep : Link → Prop} [DecidablePred keep]
    {l : Link} : l ∈ (st.filterLinks keep).links ↔ l ∈ st.links ∧ keep l := by
  simp [filterLinks]

/-- The new node is the only one an insertion links, and it links it to its targets. -/
theorem linkedTo_insertLinked {st : KnowledgeStore γ} {new : KnowledgeNode γ}
    {table t : LinkTable} {targets : List ℕ} {ty : NodeType} {i n : ℕ} :
    (st.insertLinked new table targets).LinkedTo t ty i n ↔
      st.LinkedTo t ty i n ∨
        (t = table ∧ ty = new.nodeType ∧ n = st.nodes.nextRowid ∧ i ∈ targets) := by
  simp only [LinkedTo, mem_insertLinked_links, insertLinked_nodes, Table.get?_insert_nextRowid]
  constructor
  · rintro ⟨hl | ⟨ht, hn, hi⟩, hty⟩
    · have hne : n ≠ st.nodes.nextRowid := st.nextRowid_not_linked hl
      rw [if_neg hne] at hty
      exact Or.inl ⟨hl, hty⟩
    · rw [if_pos hn, Option.map_some, Option.some.injEq] at hty
      exact Or.inr ⟨ht, hty.symm, hn, hi⟩
  · rintro (⟨hl, hty⟩ | ⟨ht, hty, hn, hi⟩)
    · have hne : n ≠ st.nodes.nextRowid := st.nextRowid_not_linked hl
      rw [if_neg hne]
      exact ⟨Or.inl hl, hty⟩
    · rw [if_pos hn, hty]
      exact ⟨Or.inr ⟨ht, hn, hi⟩, rfl⟩

theorem linkedTo_addLinks_of_ne {st : KnowledgeStore γ} {node : ℕ}
    (h : node ∈ st.nodes.keys) {table t : LinkTable} {targets : List ℕ} {ty : NodeType}
    {i n : ℕ} (ht : t ≠ table) :
    (st.addLinks node h table targets).LinkedTo t ty i n ↔ st.LinkedTo t ty i n := by
  simp only [LinkedTo, addLinks, List.mem_append, List.mem_map, Link.mk.injEq]
  constructor
  · rintro ⟨hl | ⟨j, -, htable, -⟩, hty⟩
    · exact ⟨hl, hty⟩
    · exact absurd htable.symm ht
  · rintro ⟨hl, hty⟩
    exact ⟨Or.inl hl, hty⟩

@[simp] theorem addMissing_nodes (st : KnowledgeStore γ) {node : ℕ} (h : node ∈ st.nodes.keys)
    (table : LinkTable) (targets : List ℕ) :
    (st.addMissing node h table targets).nodes = st.nodes := rfl

theorem mem_keys_addMissing {st : KnowledgeStore γ} {node n : ℕ} {h : node ∈ st.nodes.keys}
    {table : LinkTable} {targets : List ℕ} (hn : n ∈ st.nodes.keys) :
    n ∈ (st.addMissing node h table targets).nodes.keys := hn

theorem linkedTo_addMissing {st : KnowledgeStore γ} {node : ℕ} {h : node ∈ st.nodes.keys}
    {table t : LinkTable} {targets : List ℕ} {ty : NodeType} {i n : ℕ} :
    (st.addMissing node h table targets).LinkedTo t ty i n ↔
      st.LinkedTo t ty i n ∨
        (t = table ∧ n = node ∧ i ∈ targets ∧
          (st.nodes.get? node).map KnowledgeNode.nodeType = some ty) := by
  simp only [LinkedTo, addMissing_nodes]
  have hmem : ⟨t, n, i⟩ ∈ (st.addMissing node h table targets).links ↔
      ⟨t, n, i⟩ ∈ st.links ∨ (t = table ∧ n = node ∧ i ∈ targets) := by
    simp only [addMissing, addLinks, List.mem_append, List.mem_map, List.mem_filter,
      decide_eq_true_eq, Link.mk.injEq]
    constructor
    · rintro (hl | ⟨j, ⟨hj, -⟩, rfl, rfl, rfl⟩)
      · exact Or.inl hl
      · exact Or.inr ⟨rfl, rfl, hj⟩
    · rintro (hl | ⟨rfl, rfl, hi⟩)
      · exact Or.inl hl
      · by_cases hl : ⟨t, n, i⟩ ∈ st.links
        · exact Or.inl hl
        · exact Or.inr ⟨i, ⟨hi, hl⟩, rfl, rfl, rfl⟩
  rw [hmem]
  constructor
  · rintro ⟨hl | ⟨rfl, rfl, hi⟩, hty⟩
    · exact Or.inl ⟨hl, hty⟩
    · exact Or.inr ⟨rfl, rfl, hi, hty⟩
  · rintro (⟨hl, hty⟩ | ⟨rfl, rfl, hi, hty⟩)
    · exact ⟨Or.inl hl, hty⟩
    · exact ⟨Or.inr ⟨rfl, rfl, hi⟩, hty⟩

theorem nextRowid_mem_insertLinked (st : KnowledgeStore γ) (new : KnowledgeNode γ)
    (table : LinkTable) (targets : List ℕ) :
    st.nodes.nextRowid ∈ (st.insertLinked new table targets).nodes.keys := by
  rw [Table.mem_keys, insertLinked_nodes, Table.get?_insert_nextRowid]
  exact ⟨new, if_pos rfl⟩

theorem mem_deleteNode_links {st : KnowledgeStore γ} {node : ℕ} {l : Link} :
    l ∈ (st.deleteNode node).links ↔ l ∈ st.links ∧ l.node ≠ node := by
  simp [deleteNode]

theorem get?_deleteNode {st : KnowledgeStore γ} {node k : ℕ} {n : KnowledgeNode γ} :
    (st.deleteNode node).nodes.get? k = some n ↔ st.nodes.get? k = some n ∧ k ≠ node :=
  Table.get?_delete_eq_some

theorem mem_deleteNodes_links {st : KnowledgeStore γ} {ns : List ℕ} {l : Link} :
    l ∈ (st.deleteNodes ns).links ↔ l ∈ st.links ∧ l.node ∉ ns := by
  induction ns generalizing st with
  | nil => simp [deleteNodes]
  | cons n ns ih =>
    have hcons : st.deleteNodes (n :: ns) = (st.deleteNode n).deleteNodes ns := rfl
    rw [hcons, ih, mem_deleteNode_links, List.mem_cons, not_or, and_assoc]

theorem get?_deleteNodes {st : KnowledgeStore γ} {ns : List ℕ} {k : ℕ} {n : KnowledgeNode γ} :
    (st.deleteNodes ns).nodes.get? k = some n ↔ st.nodes.get? k = some n ∧ k ∉ ns := by
  induction ns generalizing st with
  | nil => simp [deleteNodes]
  | cons m ns ih =>
    have hcons : st.deleteNodes (m :: ns) = (st.deleteNode m).deleteNodes ns := rfl
    rw [hcons, ih, get?_deleteNode, List.mem_cons, not_or, and_assoc]

theorem hasLink_iff {st : KnowledgeStore γ} {table : LinkTable} {i : ℕ} :
    st.hasLink table i = true ↔ ∃ l ∈ st.links, l.table = table ∧ l.target = i := by
  simp [hasLink]

end KnowledgeStore

end Hippo
