import Hippo.EntityNames
import Hippo.Transition

/-!
# Entities of sources and of the classifier

The `entities` table and the links of knowledge nodes to it, with their two writers: the sources
and the topic classifier.
-/
namespace Hippo.Entities
open EntityNames

/-- A row of `entities`. -/
structure EntityRow where
  type : EntityType
  name : String
  canonical : Option String
  metadata : Option String := none
deriving DecidableEq

/-- `OWNER_METADATA`. -/
def ownerMetadata : String := "\x7b\"owner\":\"hippo.classification\",\"version\":1\x7d"

namespace EntityRow

/-- `type='concept' AND substr(canonical,1,?)=?` with the classifier's namespace. -/
def Reserved (row : EntityRow) : Prop :=
  row.type = .concept ∧ ∃ c ∈ row.canonical, startsWith c topicNamespace = true

instance (row : EntityRow) : Decidable row.Reserved := by
  unfold Reserved
  infer_instance

/-- The row is the classifier's. -/
def Owned (row : EntityRow) : Prop := row.Reserved ∧ row.metadata = some ownerMetadata

instance (row : EntityRow) : Decidable row.Owned := by
  unfold Owned
  infer_instance

def Identified (row : EntityRow) (ty : EntityType) (canonical : String) : Prop :=
  row.type = ty ∧ row.canonical = some canonical

instance (row : EntityRow) (ty : EntityType) (canonical : String) :
    Decidable (row.Identified ty canonical) := by
  unfold Identified
  infer_instance

end EntityRow

/-- `entities` and `knowledge_node_entities`. The fields `unique` and `fk` are the constraints of
the schema. -/
structure EntityDb where
  entities : Table ℕ EntityRow
  links : List (ℕ × ℕ)
  unique : ∀ i j r s ty c, entities.get? i = some r → entities.get? j = some s →
    r.Identified ty c → s.Identified ty c → i = j
  fk : ∀ l ∈ links, l.2 ∈ entities.keys

namespace EntityDb

def empty : EntityDb := ⟨Table.empty, [], by simp, by simp⟩

/-- The row with the type and the canonical name. -/
def lookup? (db : EntityDb) (ty : EntityType) (canonical : String) : Option ℕ :=
  (db.entities.entries.find? fun e => e.2.Identified ty canonical).map Prod.fst

theorem lookup?_eq_some {db : EntityDb} {ty : EntityType} {canonical : String} {i : ℕ} :
    db.lookup? ty canonical = some i ↔
      ∃ row, db.entities.get? i = some row ∧ row.Identified ty canonical := by
  constructor
  · intro h
    obtain ⟨e, he, rfl⟩ := Option.map_eq_some_iff.mp h
    have hid := List.find?_some he
    exact ⟨e.2, Table.get?_eq_some.mpr (List.mem_of_find?_eq_some he), by simpa using hid⟩
  · rintro ⟨row, hrow, hid⟩
    cases hfind : db.entities.entries.find? fun e => decide (e.2.Identified ty canonical) with
    | none =>
      have hnone := List.find?_eq_none.mp hfind (i, row) (Table.get?_eq_some.mp hrow)
      simp [hid] at hnone
    | some e =>
      have hid' : e.2.Identified ty canonical := by simpa using List.find?_some hfind
      have hrow' : db.entities.get? e.1 = some e.2 :=
        Table.get?_eq_some.mpr (List.mem_of_find?_eq_some hfind)
      rw [lookup?, hfind, Option.map_some, db.unique e.1 i e.2 row ty canonical hrow' hrow hid' hid]

theorem lookup?_eq_none {db : EntityDb} {ty : EntityType} {canonical : String} :
    db.lookup? ty canonical = none ↔
      ∀ i row, db.entities.get? i = some row → ¬ row.Identified ty canonical := by
  constructor
  · intro h i row hrow hid
    rw [lookup?_eq_some.mpr ⟨row, hrow, hid⟩] at h
    cases h
  · intro h
    cases hlookup : db.lookup? ty canonical with
    | none => rfl
    | some i =>
      obtain ⟨row, hrow, hid⟩ := lookup?_eq_some.mp hlookup
      exact absurd hid (h i row hrow)

/-- `UPDATE entities SET name = …` for one row. -/
def rename (db : EntityDb) (i : ℕ) (f : String → String) : EntityDb where
  entities := db.entities.modify i fun row => { row with name := f row.name }
  links := db.links
  unique := by
    have hback : ∀ k r, (db.entities.modify i fun row =>
        { row with name := f row.name }).get? k = some r → ∃ r', db.entities.get? k = some r' ∧
          ∀ ty c, r.Identified ty c → r'.Identified ty c := by
      intro k r hr
      obtain ⟨r', hr', ⟨-, rfl⟩ | ⟨-, rfl⟩⟩ := Table.eq_of_get?_modify hr
      · exact ⟨r', hr', fun ty c hid => hid⟩
      · exact ⟨r, hr', fun ty c hid => hid⟩
    intro k j r s ty c hr hs hid hid'
    obtain ⟨r', hr', hidr⟩ := hback k r hr
    obtain ⟨s', hs', hids⟩ := hback j s hs
    exact db.unique k j r' s' ty c hr' hs' (hidr ty c hid) (hids ty c hid')
  fk := by simpa only [Table.modify, Table.update, Table.keys_mapRows] using db.fk

/-- `INSERT INTO entities`, where the type and the canonical name are new. -/
def insert (db : EntityDb) (ty : EntityType) (canonical name : String) (metadata : Option String)
    (hnew : db.lookup? ty canonical = none) : EntityDb where
  entities := db.entities.insert db.entities.nextRowid ⟨ty, name, some canonical, metadata⟩
  links := db.links
  unique := by
    intro i j r s ty' c hr hs hid hid'
    rw [Table.get?_insert_nextRowid] at hr hs
    split_ifs at hr hs with hi hj hj
    · rw [hi, hj]
    · obtain rfl := Option.some.inj hr
      have hkey : ty = ty' ∧ canonical = c := ⟨hid.1, Option.some.inj hid.2⟩
      rw [← hkey.1, ← hkey.2] at hid'
      exact absurd hid' (lookup?_eq_none.mp hnew j s hs)
    · obtain rfl := Option.some.inj hs
      have hkey : ty = ty' ∧ canonical = c := ⟨hid'.1, Option.some.inj hid'.2⟩
      rw [← hkey.1, ← hkey.2] at hid
      exact absurd hid (lookup?_eq_none.mp hnew i r hr)
    · exact db.unique i j r s ty' c hr hs hid hid'
  fk := by
    intro l hl
    obtain ⟨row, hrow⟩ := Table.mem_keys.mp (db.fk l hl)
    rw [Table.mem_keys]
    simp only [Table.get?_insert_nextRowid]
    by_cases h : l.2 = db.entities.nextRowid
    · exact ⟨_, if_pos h⟩
    · exact ⟨row, by rw [if_neg h, hrow]⟩

/-- `INSERT INTO entities … ON CONFLICT (type, canonical) DO UPDATE SET name = … RETURNING id`. -/
def upsertEntity (db : EntityDb) (ty : EntityType) (canonical name : String)
    (metadata : Option String) (onConflict : String → String) : EntityDb × ℕ :=
  match h : db.lookup? ty canonical with
  | some i => (db.rename i onConflict, i)
  | none => (db.insert ty canonical name metadata h, db.entities.nextRowid)

/-- `INSERT OR IGNORE INTO knowledge_node_entities`; the entity exists. -/
def link (db : EntityDb) (node i : ℕ) (h : i ∈ db.entities.keys) : EntityDb :=
  if (node, i) ∈ db.links then db
  else
    { db with
      links := db.links ++ [(node, i)]
      fk := by
        intro l hl
        rcases List.mem_append.mp hl with hl | hl
        · exact db.fk l hl
        · rw [List.mem_singleton.mp hl]
          exact h }

/-- Links the node to those of the entities that exist. -/
def linkAll (db : EntityDb) (node : ℕ) (ids : List ℕ) : EntityDb :=
  ids.foldl (fun db i => if h : i ∈ db.entities.keys then db.link node i h else db) db

/-- `name LIKE '%.claude/worktrees/%'`, which ignores the case of ASCII letters. -/
def likeWorktree (name : String) : Bool :=
  (name.toList.map Char.toLower).tails.any worktreeMarker.isPrefixOf

/-- One name of the loop of `upsert_entities`. -/
def upsertName (env : NameEnv) (db : EntityDb) (ty : EntityType) (name : String) :
    EntityDb × ℕ :=
  let displayName := if ty.isPathType then stripWorktree name else name
  let canonical := sourceEntityCanonical ty (canonicalize env ty name)
  db.upsertEntity ty canonical displayName none fun old =>
    if likeWorktree old then displayName else old

/-- The names of the dictionary in the order of the type map. -/
def namesOf (entities : List (String × List String)) (typeMap : List (String × EntityType)) :
    List (EntityType × String) :=
  typeMap.flatMap fun e => ((entities.lookup e.1).getD []).map fun name => (e.2, name)

/-- The loop of `upsert_entities`: the tables after it and the ids it collected. -/
def upsertNames (env : NameEnv) : List (EntityType × String) → EntityDb → EntityDb × List ℕ
  | [], db => (db, [])
  | (ty, name) :: rest, db =>
    let (db, i) := db.upsertName env ty name
    let (db, ids) := upsertNames env rest db
    (db, i :: ids)

/-- `upsert_entities`, with the ids it links; a value that is no dictionary counts as empty. -/
def upsertEntities (env : NameEnv) (db : EntityDb) (node : ℕ)
    (entities : List (String × List String)) (typeMap : List (String × EntityType)) :
    EntityDb × List ℕ :=
  let (db, ids) := upsertNames env (namesOf entities typeMap) db
  (db.linkAll node ids, ids)

section Classifier

/-- The node's link counts as one of the classifier's. -/
def Membership (db : EntityDb) (l : ℕ × ℕ) : Prop :=
  l ∈ db.links ∧ ∃ row ∈ db.entities.get? l.2, row.Owned

instance (db : EntityDb) (l : ℕ × ℕ) : Decidable (db.Membership l) := by
  unfold Membership
  infer_instance

/-- `remove_memberships`. -/
def removeMemberships (db : EntityDb) (node : ℕ) : EntityDb :=
  { db with
    links := db.links.filter fun l => ¬ (l.1 = node ∧ db.Membership l)
    fk := fun l hl => db.fk l (List.mem_filter.mp hl).1 }

/-- `_owned_topics`. -/
def ownedTopics (db : EntityDb) (node : ℕ) : List String :=
  (db.links.filter fun l => l.1 = node ∧ db.Membership l).filterMap fun l =>
    (db.entities.get? l.2).bind fun row =>
      row.canonical.map fun c => String.ofList (c.toList.drop topicNamespace.length)

/-- The entity of a topic, made the classifier's when it is new, and the node's link to it. -/
def linkTopic (db : EntityDb) (node : ℕ) (topic : String) : EntityDb :=
  let canonical := topicNamespace ++ topic
  let (db, i) := db.upsertEntity .concept canonical canonical (some ownerMetadata) id
  db.linkAll node [i]

/-- The identity of the topic belongs to a source. -/
def TopicTaken (db : EntityDb) (topic : String) : Prop :=
  ∃ i ∈ db.lookup? .concept (topicNamespace ++ topic), ∃ row ∈ db.entities.get? i,
    row.metadata ≠ some ownerMetadata

instance (db : EntityDb) (topic : String) : Decidable (db.TopicTaken topic) := by
  unfold TopicTaken
  infer_instance

/-- `_memberships`. -/
def memberships (db : EntityDb) (node : ℕ) (topics : List String) : Except PyError EntityDb :=
  if ∃ topic ∈ topics, db.TopicTaken topic then
    .error (.valueError "topic identity belongs to a source entity")
  else if (∀ t ∈ db.ownedTopics node, t ∈ topics) ∧ ∀ t ∈ topics, t ∈ db.ownedTopics node then
    .ok db
  else .ok (topics.foldl (fun db topic => db.linkTopic node topic) (db.removeMemberships node))

end Classifier

section Rows

variable {db db' db'' : EntityDb} {ty : EntityType} {canonical name : String}
  {metadata : Option String} {onConflict : String → String} {i node : ℕ} {l : ℕ × ℕ}

/-- No row disappears, and only names change. -/
def Keeps (db db' : EntityDb) : Prop :=
  ∀ i row, db.entities.get? i = some row →
    ∃ name, db'.entities.get? i = some { row with name := name }

theorem Keeps.refl (db : EntityDb) : Keeps db db := fun _ row h => ⟨row.name, h⟩

theorem Keeps.trans (h : Keeps db db') (h' : Keeps db' db'') : Keeps db db'' := by
  intro i row hrow
  obtain ⟨name, hname⟩ := h i row hrow
  obtain ⟨name', hname'⟩ := h' i _ hname
  exact ⟨name', hname'⟩

/-- A linked entity is the classifier's before and after. -/
theorem Keeps.owned_iff (h : Keeps db db') (hl : l ∈ db.links) :
    (∃ row ∈ db'.entities.get? l.2, row.Owned) ↔ ∃ row ∈ db.entities.get? l.2, row.Owned := by
  obtain ⟨row, hrow⟩ := Table.mem_keys.mp (db.fk l hl)
  obtain ⟨name, hname⟩ := h l.2 row hrow
  rw [hrow, hname]
  simp [EntityRow.Owned, EntityRow.Reserved]

theorem upsertEntity_keeps (db : EntityDb) (ty : EntityType) (canonical name : String)
    (metadata : Option String) (onConflict : String → String) :
    Keeps db (db.upsertEntity ty canonical name metadata onConflict).1 := by
  intro i row hrow
  unfold upsertEntity
  split
  · rename_i j hj
    show ∃ name, (db.entities.modify j _).get? i = _
    rw [Table.get?_modify, hrow]
    split_ifs
    · exact ⟨onConflict row.name, rfl⟩
    · exact ⟨row.name, rfl⟩
  · show ∃ name, (db.entities.insert db.entities.nextRowid _).get? i = _
    have hne : i ≠ db.entities.nextRowid := by
      intro heq
      rw [heq, Table.get?_nextRowid] at hrow
      cases hrow
    rw [Table.get?_insert_nextRowid, if_neg hne, hrow]
    exact ⟨row.name, rfl⟩

theorem upsertEntity_links (db : EntityDb) (ty : EntityType) (canonical name : String)
    (metadata : Option String) (onConflict : String → String) :
    (db.upsertEntity ty canonical name metadata onConflict).1.links = db.links := by
  unfold upsertEntity
  split <;> rfl

/-- The returned row has the type and the canonical name. -/
theorem upsertEntity_row (db : EntityDb) (ty : EntityType) (canonical name : String)
    (metadata : Option String) (onConflict : String → String) :
    ∃ row, (db.upsertEntity ty canonical name metadata onConflict).1.entities.get?
      (db.upsertEntity ty canonical name metadata onConflict).2 = some row ∧
        row.Identified ty canonical := by
  unfold upsertEntity
  split
  · rename_i i hi
    obtain ⟨row, hrow, hid⟩ := lookup?_eq_some.mp hi
    refine ⟨{ row with name := onConflict row.name }, ?_, hid⟩
    show (db.entities.modify i _).get? i = _
    rw [Table.get?_modify_self, hrow]
    rfl
  · refine ⟨⟨ty, name, some canonical, metadata⟩, ?_, rfl, rfl⟩
    show (db.entities.insert db.entities.nextRowid _).get? db.entities.nextRowid = _
    rw [Table.get?_insert_nextRowid, if_pos rfl]

theorem link_entities (h : i ∈ db.entities.keys) : (db.link node i h).entities = db.entities := by
  unfold link
  split_ifs <;> rfl

theorem mem_link_links (h : i ∈ db.entities.keys) :
    l ∈ (db.link node i h).links ↔ l ∈ db.links ∨ l = (node, i) := by
  unfold link
  split_ifs with hlinked
  · constructor
    · exact Or.inl
    · rintro (hl | rfl)
      · exact hl
      · exact hlinked
  · simp

theorem linkAll_entities (db : EntityDb) (node : ℕ) (ids : List ℕ) :
    (db.linkAll node ids).entities = db.entities := by
  unfold linkAll
  induction ids generalizing db with
  | nil => rfl
  | cons i ids ih =>
    rw [List.foldl_cons, ih]
    split_ifs
    · exact link_entities _
    · rfl

theorem mem_linkAll_links (db : EntityDb) (node : ℕ) {ids : List ℕ}
    (hids : ∀ i ∈ ids, i ∈ db.entities.keys) (l : ℕ × ℕ) :
    l ∈ (db.linkAll node ids).links ↔ l ∈ db.links ∨ (l.1 = node ∧ l.2 ∈ ids) := by
  induction ids generalizing db with
  | nil => simp [linkAll]
  | cons i ids ih =>
    have hi := hids i (by simp)
    have hrest : ∀ j ∈ ids, j ∈ (db.link node i hi).entities.keys := by
      intro j hj
      rw [link_entities]
      exact hids j (List.mem_cons_of_mem i hj)
    have hcons : db.linkAll node (i :: ids) = (db.link node i hi).linkAll node ids := by
      simp [linkAll, hi]
    rw [hcons, ih (db.link node i hi) hrest, mem_link_links, List.mem_cons, Prod.ext_iff]
    simp only
    tauto

end Rows

section Sources

variable {env : NameEnv} {db : EntityDb}

/-- A name of a source never names an entity of the classifier's namespace. -/
theorem upsertName_row (env : NameEnv) (db : EntityDb) (ty : EntityType) (name : String) :
    ∃ row, (db.upsertName env ty name).1.entities.get? (db.upsertName env ty name).2 = some row ∧
      ¬ row.Reserved := by
  obtain ⟨row, hrow, hty, hcanonical⟩ := upsertEntity_row db ty
    (sourceEntityCanonical ty (canonicalize env ty name))
    (if ty.isPathType then stripWorktree name else name) none
    fun old => if likeWorktree old then if ty.isPathType then stripWorktree name else name else old
  refine ⟨row, hrow, ?_⟩
  rintro ⟨hconcept, c, hc, hstart⟩
  rw [hcanonical, Option.mem_some_iff] at hc
  rw [← hty, hconcept] at hc
  rw [← hc, sourceEntityCanonical_concept] at hstart
  cases hstart

theorem upsertNames_spec (names : List (EntityType × String)) (db : EntityDb) :
    Keeps db (upsertNames env names db).1 ∧ (upsertNames env names db).1.links = db.links ∧
      ∀ i ∈ (upsertNames env names db).2, ∃ row,
        (upsertNames env names db).1.entities.get? i = some row ∧ ¬ row.Reserved := by
  induction names generalizing db with
  | nil => exact ⟨Keeps.refl db, rfl, by simp [upsertNames]⟩
  | cons name names ih =>
    obtain ⟨ty, name⟩ := name
    obtain ⟨hkeeps, hlinks, hrows⟩ := ih (db.upsertName env ty name).1
    have hfirst : Keeps db (db.upsertName env ty name).1 := upsertEntity_keeps _ _ _ _ _ _
    refine ⟨hfirst.trans hkeeps, hlinks.trans (upsertEntity_links _ _ _ _ _ _), ?_⟩
    intro i hi
    rcases List.mem_cons.mp hi with rfl | hi
    · obtain ⟨row, hrow, hreserved⟩ := upsertName_row env db ty name
      obtain ⟨name', hname'⟩ := hkeeps _ row hrow
      exact ⟨_, hname', hreserved⟩
    · exact hrows i hi

/-- What `upsert_entities` does to the rows and the links. -/
structure SourceWrite (db db' : EntityDb) (node : ℕ) (ids : List ℕ) : Prop where
  keeps : Keeps db db'
  links : ∀ l, l ∈ db'.links ↔ l ∈ db.links ∨ (l.1 = node ∧ l.2 ∈ ids)
  rows : ∀ i ∈ ids, ∃ row, db'.entities.get? i = some row ∧ ¬ row.Reserved

theorem upsertEntities_sourceWrite (env : NameEnv) (db : EntityDb) (node : ℕ)
    (entities : List (String × List String)) (typeMap : List (String × EntityType)) :
    SourceWrite db (db.upsertEntities env node entities typeMap).1 node
      (db.upsertEntities env node entities typeMap).2 := by
  obtain ⟨hkeeps, hlinks, hrows⟩ := @upsertNames_spec env (namesOf entities typeMap) db
  unfold upsertEntities
  dsimp only
  generalize upsertNames env (namesOf entities typeMap) db = r at *
  have hkeys : ∀ i ∈ r.2, i ∈ r.1.entities.keys := by
    intro i hi
    obtain ⟨row, hrow, -⟩ := hrows i hi
    exact Table.mem_keys.mpr ⟨row, hrow⟩
  refine ⟨?_, ?_, ?_⟩
  · intro i row hrow
    rw [linkAll_entities]
    exact hkeeps i row hrow
  · intro l
    rw [mem_linkAll_links r.1 node hkeys, hlinks]
  · intro i hi
    rw [linkAll_entities]
    exact hrows i hi

/-- A source's write leaves the classifier's memberships as they are. -/
theorem SourceWrite.membership_iff {db db' : EntityDb} {node : ℕ} {ids : List ℕ}
    (h : SourceWrite db db' node ids) (l : ℕ × ℕ) : db'.Membership l ↔ db.Membership l := by
  unfold Membership
  rw [h.links]
  constructor
  · rintro ⟨hl | ⟨-, hmem⟩, howned⟩
    · exact ⟨hl, (h.keeps.owned_iff hl).mp howned⟩
    · obtain ⟨row, hrow, hreserved⟩ := h.rows l.2 hmem
      rw [hrow] at howned
      simp only [Option.mem_some_iff, exists_eq_left'] at howned
      exact absurd howned.1 hreserved
  · rintro ⟨hl, howned⟩
    exact ⟨Or.inl hl, (h.keeps.owned_iff hl).mpr howned⟩

end Sources

section Memberships

variable {db db' : EntityDb} {node : ℕ} {topics : List String}

/-- What the classifier does: no row disappears, and only memberships of the node do. -/
structure TopicWrite (db db' : EntityDb) (node : ℕ) : Prop where
  keeps : Keeps db db'
  links : ∀ l ∈ db.links, ¬ (l.1 = node ∧ db.Membership l) → l ∈ db'.links

theorem removeMemberships_topicWrite (db : EntityDb) (node : ℕ) :
    TopicWrite db (db.removeMemberships node) node where
  keeps := Keeps.refl db
  links := by
    intro l hl hnot
    exact List.mem_filter.mpr ⟨hl, decide_eq_true hnot⟩

theorem linkTopic_topicWrite (db : EntityDb) (node : ℕ) (topic : String) :
    Keeps db (db.linkTopic node topic) ∧ ∀ l ∈ db.links, l ∈ (db.linkTopic node topic).links := by
  have hkeeps := upsertEntity_keeps db .concept (topicNamespace ++ topic)
    (topicNamespace ++ topic) (some ownerMetadata) id
  have hlinks := upsertEntity_links db .concept (topicNamespace ++ topic)
    (topicNamespace ++ topic) (some ownerMetadata) id
  obtain ⟨row, hrow, -⟩ := upsertEntity_row db .concept (topicNamespace ++ topic)
    (topicNamespace ++ topic) (some ownerMetadata) id
  unfold linkTopic
  dsimp only
  generalize db.upsertEntity .concept (topicNamespace ++ topic) (topicNamespace ++ topic)
    (some ownerMetadata) id = r at *
  constructor
  · intro i row hrow
    rw [linkAll_entities]
    exact hkeeps i row hrow
  · intro l hl
    have hkeys : ∀ i ∈ [r.2], i ∈ r.1.entities.keys := by
      intro i hi
      rw [List.mem_singleton.mp hi]
      exact Table.mem_keys.mpr ⟨row, hrow⟩
    rw [mem_linkAll_links r.1 node hkeys, hlinks]
    exact Or.inl hl

theorem memberships_topicWrite (h : db.memberships node topics = .ok db') :
    TopicWrite db db' node := by
  unfold memberships at h
  split_ifs at h with htaken hsame
  · obtain rfl := Except.ok.inj h
    exact ⟨Keeps.refl db, fun l hl _ => hl⟩
  · obtain rfl := Except.ok.inj h
    have hfold : ∀ db : EntityDb,
        Keeps db (topics.foldl (fun db topic => db.linkTopic node topic) db) ∧
          ∀ l ∈ db.links, l ∈ (topics.foldl (fun db topic => db.linkTopic node topic) db).links := by
      clear h htaken hsame
      induction topics with
      | nil => exact fun db => ⟨Keeps.refl db, fun l hl => hl⟩
      | cons topic topics ih =>
        intro db
        obtain ⟨hkeeps, hlinks⟩ := linkTopic_topicWrite db node topic
        obtain ⟨hkeeps', hlinks'⟩ := ih (db.linkTopic node topic)
        exact ⟨hkeeps.trans hkeeps', fun l hl => hlinks' l (hlinks l hl)⟩
    have hremove := removeMemberships_topicWrite db node
    obtain ⟨hkeeps, hlinks⟩ := hfold (db.removeMemberships node)
    exact ⟨hremove.keeps.trans hkeeps, fun l hl hnot => hlinks l (hremove.links l hl hnot)⟩

end Memberships

end EntityDb

section Runs

/-- The tables, with the rows that sources created or linked and the links they wrote. -/
structure World where
  db : EntityDb
  sourceRows : List ℕ := []
  sourceLinks : List (ℕ × ℕ) := []

inductive Action where
  /-- `upsert_entities` of an enrichment. -/
  | enrich (node : ℕ) (entities : List (String × List String))
      (typeMap : List (String × EntityType))
  /-- `_memberships`; its transaction is rolled back when it raises. -/
  | classify (node : ℕ) (topics : List String)
  /-- `remove_memberships`. -/
  | withdraw (node : ℕ)

def step (env : NameEnv) (w : World) : Action → Option World
  | .enrich node entities typeMap =>
    let (db, ids) := w.db.upsertEntities env node entities typeMap
    some ⟨db, w.sourceRows ++ ids, w.sourceLinks ++ ids.map fun i => (node, i)⟩
  | .classify node topics =>
    match w.db.memberships node topics with
    | .ok db => some { w with db := db }
    | .error _ => some w
  | .withdraw node => some { w with db := w.db.removeMemberships node }

/-- The rows of sources are outside the classifier's namespace, and their links are there. -/
structure Apart (w : World) : Prop where
  rows : ∀ i ∈ w.sourceRows, ∃ row, w.db.entities.get? i = some row ∧ ¬ row.Reserved
  links : ∀ l ∈ w.sourceLinks, l ∈ w.db.links ∧ l.2 ∈ w.sourceRows

variable {env : NameEnv} {w w' : World} {a : Action} {db : EntityDb} {node : ℕ}

theorem Apart.not_owned (h : Apart w) {i : ℕ} (hi : i ∈ w.sourceRows) :
    ∃ row, w.db.entities.get? i = some row ∧ ¬ row.Owned := by
  obtain ⟨row, hrow, hreserved⟩ := h.rows i hi
  exact ⟨row, hrow, fun howned => hreserved howned.1⟩

theorem Apart.not_membership (h : Apart w) {l : ℕ × ℕ} (hl : l ∈ w.sourceLinks) :
    ¬ w.db.Membership l := by
  rintro ⟨-, row, hrow, howned⟩
  obtain ⟨row', hrow', hnot⟩ := h.not_owned (h.links l hl).2
  rw [Option.mem_def, hrow'] at hrow
  exact hnot (Option.some.inj hrow ▸ howned)

theorem Apart.topicWrite (h : Apart w) (hwrite : EntityDb.TopicWrite w.db db node) :
    Apart { w with db := db } where
  rows := by
    intro i hi
    obtain ⟨row, hrow, hreserved⟩ := h.rows i hi
    obtain ⟨name, hname⟩ := hwrite.keeps i row hrow
    exact ⟨_, hname, hreserved⟩
  links := by
    intro l hl
    have hnot : ¬ (l.1 = node ∧ w.db.Membership l) := fun hmem => h.not_membership hl hmem.2
    exact ⟨hwrite.links l (h.links l hl).1 hnot, (h.links l hl).2⟩

theorem Apart.sourceWrite {ids : List ℕ} (h : Apart w)
    (hwrite : EntityDb.SourceWrite w.db db node ids) :
    Apart ⟨db, w.sourceRows ++ ids, w.sourceLinks ++ ids.map fun i => (node, i)⟩ where
  rows := by
    intro i hi
    rcases List.mem_append.mp hi with hi | hi
    · obtain ⟨row, hrow, hreserved⟩ := h.rows i hi
      obtain ⟨name, hname⟩ := hwrite.keeps i row hrow
      exact ⟨_, hname, hreserved⟩
    · exact hwrite.rows i hi
  links := by
    intro l hl
    rw [hwrite.links]
    rcases List.mem_append.mp hl with hl | hl
    · exact ⟨Or.inl (h.links l hl).1, List.mem_append_left _ (h.links l hl).2⟩
    · obtain ⟨i, hi, rfl⟩ := List.mem_map.mp hl
      exact ⟨Or.inr ⟨rfl, hi⟩, List.mem_append_right _ hi⟩

theorem Apart.next (h : Apart w) (hs : step env w a = some w') : Apart w' := by
  cases a with
  | enrich node entities typeMap =>
    obtain rfl := Option.some.inj hs
    exact h.sourceWrite (EntityDb.upsertEntities_sourceWrite env w.db node entities typeMap)
  | classify node topics =>
    simp only [Entities.step] at hs
    cases hm : w.db.memberships node topics with
    | error e =>
      rw [hm] at hs
      obtain rfl := Option.some.inj hs
      exact h
    | ok db =>
      rw [hm] at hs
      obtain rfl := Option.some.inj hs
      exact h.topicWrite (EntityDb.memberships_topicWrite hm)
  | withdraw node =>
    obtain rfl := Option.some.inj hs
    exact h.topicWrite (EntityDb.removeMemberships_topicWrite w.db node)

theorem Apart.of_reaches (h : Transition.Reaches (step env) ⟨db, [], []⟩ w) : Apart w :=
  h.invariant (fun _ _ _ hw _ hs => hw.next hs) ⟨by simp, by simp⟩

/-- In every run of the two writers, whatever the tables held before, the rows and links of sources
are none of the classifier's, no link of a source is deleted, and no write of a source changes the
classifier's memberships. -/
theorem namespaces_disjoint (h : Transition.Reaches (step env) ⟨db, [], []⟩ w) :
    (∀ i ∈ w.sourceRows, ∃ row, w.db.entities.get? i = some row ∧ ¬ row.Owned) ∧
      (∀ l ∈ w.sourceLinks, l ∈ w.db.links ∧ ¬ w.db.Membership l) ∧
      ∀ node entities typeMap l,
        (w.db.upsertEntities env node entities typeMap).1.Membership l ↔ w.db.Membership l := by
  have hapart := Apart.of_reaches h
  refine ⟨fun i hi => hapart.not_owned hi, ?_, ?_⟩
  · intro l hl
    exact ⟨(hapart.links l hl).1, hapart.not_membership hl⟩
  · intro node entities typeMap l
    exact (EntityDb.upsertEntities_sourceWrite env w.db node entities typeMap).membership_iff l

section Imitation

private def plainEnv : NameEnv := ⟨id, id, []⟩

/-- An error that is spelled like a topic, then the topic itself, then its removal. -/
private def imitate : List Action :=
  [.enrich 1 [("errors", ["hippo/topic/rust"])] [("errors", .concept)], .classify 1 ["rust"],
    .withdraw 1]

theorem imitated_topic_kept : ∃ w, Transition.Reaches (step plainEnv) ⟨EntityDb.empty, [], []⟩ w ∧
    w.sourceLinks = [(1, 1)] ∧ (∀ l ∈ w.sourceLinks, l ∈ w.db.links ∧ ¬ w.db.Membership l) := by
  have hrun : ∃ w, Transition.Reaches (step plainEnv) ⟨EntityDb.empty, [], []⟩ w ∧
      w.sourceLinks = [(1, 1)] := by
    apply Transition.exists_run_of_exec (l := imitate)
    decide +kernel
  obtain ⟨w, hw, hlinks⟩ := hrun
  exact ⟨w, hw, hlinks, (namespaces_disjoint hw).2.1⟩

end Imitation

end Runs

end Hippo.Entities
