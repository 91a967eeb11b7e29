import Hippo.KnowledgeStore
import Mathlib.Data.Rat.Defs
import Mathlib.Algebra.Order.Ring.Rat

/-!
# Topic classification

A knowledge node has at most one classification row. Writers enqueue a node, workers claim
rows under a lease and report a result or a failure, each in a transaction of its own. The
published topics of a node are also links to entities that the classifier owns. Lease
tokens are fresh, the fingerprint of a node's redacted evidence is its `input`, and model
ids come without their cosmetic prefix.
-/
namespace Hippo

/-- The canonical name of a `concept` entity, split at the classifier's `NAMESPACE`. -/
inductive Canonical where
  | topic (name : String)
  | other (name : String)
deriving DecidableEq

def Canonical.isTopic : Canonical → Bool
  | .topic _ => true
  | .other _ => false

/-- Whether an entity's metadata is `OWNER_METADATA`. -/
inductive EntityOwner where
  | classification
  | source
deriving DecidableEq

/-- A recipe with its hash; the definitions of its topics only enter the hash. -/
structure Recipe where
  topics : List String
  thresholds : List (String × ℚ) := []
  publishTopics : Option (List String) := none
  maxTopics : ℕ := 5
  modelId : String := "1.13.0"
  recipeHash : String

namespace Recipe

def threshold (recipe : Recipe) (topic : String) : ℚ :=
  ((recipe.thresholds.find? fun e => e.1 = topic).map Prod.snd).getD (4 / 5)

def allowed (recipe : Recipe) : List String := recipe.publishTopics.getD recipe.topics

end Recipe

/-- An answer of the model to the questions of a recipe. -/
structure Response where
  model : String
  nouls : Table String ℚ

/-- `validate_response` and `parse_nouls`; a malformed object comes with its complaint. -/
def validateResponse (response : Except String Response) (recipe : Recipe) :
    Except PyError Response :=
  match response with
  | .error message => .error (.valueError message)
  | .ok response =>
    if response.model ≠ recipe.modelId then .error (.valueError "Jev model identity changed")
    else if ¬ ((∀ t ∈ response.nouls.keys, t ∈ recipe.topics) ∧
        ∀ t ∈ recipe.topics, t ∈ response.nouls.keys) then
      .error (.valueError "missing or unexpected Jev answer")
    else if ∃ e ∈ response.nouls.entries, ¬ (0 ≤ e.2 ∧ e.2 ≤ 1) then
      .error (.valueError "number out of range")
    else .ok response

theorem validateResponse_ok {response : Except String Response} {recipe : Recipe}
    {answer : Response} (h : validateResponse response recipe = .ok answer) :
    response = .ok answer := by
  cases response with
  | error message => cases h
  | ok found =>
    simp only [validateResponse] at h
    split at h
    · cases h
    · split at h
      · cases h
      · split at h
        · cases h
        · cases h
          rfl

/-- The topics `apply_result` accepts: those over their threshold, the clearest first. -/
def accepted (recipe : Recipe) (response : Response) : List String :=
  let margin := fun e : String × ℚ => e.2 - recipe.threshold e.1
  let above := response.nouls.entries.filter fun e =>
    e.1 ∈ recipe.allowed ∧ recipe.threshold e.1 ≤ e.2
  ((above.insertionSort fun a b => margin b < margin a ∨ (margin a = margin b ∧ a.1 ≤ b.1)).map
    Prod.fst).take recipe.maxTopics

inductive ClassificationStatus where
  | pending
  | processing
  | ready
  | failed
  | skipped
deriving DecidableEq

/-- `knowledge_node_classifications`; the key is the node. -/
structure ClassificationRow where
  nodeUuid : String
  requestedRevision : ℕ
  desiredInputHash : String
  recipeHash : String
  status : ClassificationStatus
  error : Option String
  enqueuedAt : ℤ
  attempts : ℕ := 0
  nextAttemptAt : ℤ := 0
  leaseToken : Option ℕ := none
  leaseExpiresAt : Option ℤ := none
  appliedRevision : Option ℕ := none
  appliedInputHash : Option String := none
  appliedRecipeHash : Option String := none
  acceptedTopics : List String := []
  probabilities : List (String × ℚ) := []
  returnedModelId : Option String := none

/-- `MAX_ATTEMPTS`. -/
def maxAttempts : ℕ := 3

/-- `LEASE_MS`. -/
def leaseMs : ℤ := 60000

/-- What `node_input` returns of a node: its uuid and the fingerprint of its evidence. -/
structure Identity where
  uuid : String
  inputHash : String
deriving DecidableEq

/-- A node, with the fingerprint of its evidence or what is wrong with its content. -/
structure ClassifiedNode where
  uuid : String
  input : Except String String

/-- `ClassificationClaim`. -/
structure ClassificationClaim where
  nodeId : ℕ
  nodeUuid : String
  revision : ℕ
  inputHash : String
  recipeHash : String
  leaseToken : ℕ
  attempts : ℕ
deriving DecidableEq

namespace ClassificationRow

/-- `_current`. -/
def Current (row : ClassificationRow) (identity : Identity) (recipe : Recipe) : Prop :=
  row.status = .ready ∧ row.nodeUuid = identity.uuid ∧
    row.appliedRevision = some row.requestedRevision ∧
    row.desiredInputHash = identity.inputHash ∧
    row.appliedInputHash = some identity.inputHash ∧
    row.recipeHash = recipe.recipeHash ∧ row.appliedRecipeHash = some recipe.recipeHash ∧
    row.returnedModelId = some recipe.modelId

instance (row : ClassificationRow) (identity : Identity) (recipe : Recipe) :
    Decidable (row.Current identity recipe) := by
  unfold Current
  infer_instance

/-- The row asks for the same work already, and there is nothing to do about it. -/
def Unchanged (row : ClassificationRow) (identity : Identity) (recipe : Recipe)
    (enabled : Bool) : Prop :=
  row.nodeUuid = identity.uuid ∧ row.desiredInputHash = identity.inputHash ∧
    row.recipeHash = recipe.recipeHash ∧
    ((enabled ∧ (row.status = .pending ∨ row.status = .processing ∨ row.status = .failed)) ∨
      (¬ enabled ∧ row.status = .skipped))

instance (row : ClassificationRow) (identity : Identity) (recipe : Recipe) (enabled : Bool) :
    Decidable (row.Unchanged identity recipe enabled) := by
  unfold Unchanged
  infer_instance

/-- `lease_expires_at <= now`, false without a lease. -/
def Expired (row : ClassificationRow) (now : ℤ) : Prop :=
  ∃ expires ∈ row.leaseExpiresAt, expires ≤ now

instance (row : ClassificationRow) (now : ℤ) : Decidable (row.Expired now) := by
  unfold Expired
  infer_instance

/-- The `WHERE` of the claim's `SELECT`. -/
def Claimable (row : ClassificationRow) (recipe : Recipe) (now : ℤ) : Prop :=
  row.recipeHash = recipe.recipeHash ∧ row.attempts < maxAttempts ∧
    ((row.status = .pending ∧ row.nextAttemptAt ≤ now) ∨
      (row.status = .processing ∧ row.Expired now))

instance (row : ClassificationRow) (recipe : Recipe) (now : ℤ) :
    Decidable (row.Claimable recipe now) := by
  unfold Claimable
  infer_instance

/-! The assignments of the `UPDATE` statements. -/

def giveUp (row : ClassificationRow) : ClassificationRow :=
  { row with
    status := .failed
    leaseToken := none
    leaseExpiresAt := none
    error := some "lease attempts exhausted" }

def lock (token : ℕ) (now : ℤ) (row : ClassificationRow) : ClassificationRow :=
  { row with
    status := .processing
    attempts := row.attempts + 1
    leaseToken := some token
    leaseExpiresAt := some (now + leaseMs) }

def publish (topics : List String) (response : Response) (row : ClassificationRow) :
    ClassificationRow :=
  { row with
    status := .ready
    appliedRevision := some row.requestedRevision
    appliedInputHash := some row.desiredInputHash
    appliedRecipeHash := some row.recipeHash
    acceptedTopics := topics
    probabilities := response.nouls.entries
    returnedModelId := some response.model
    error := none
    leaseToken := none
    leaseExpiresAt := none }

/-- The `UPDATE` of `_fail`, with the attempts it writes back. -/
def release (attempts : ℕ) (retry : Bool) (nextAttemptAt : ℤ) (error : String)
    (row : ClassificationRow) : ClassificationRow :=
  { row with
    status := if retry ∧ attempts < maxAttempts then .pending else .failed
    attempts := attempts
    nextAttemptAt := nextAttemptAt
    leaseToken := none
    leaseExpiresAt := none
    error := some error }

theorem release_not_ready (attempts : ℕ) (retry : Bool) (nextAttemptAt : ℤ) (error : String)
    (row : ClassificationRow) :
    (row.release attempts retry nextAttemptAt error).status ≠ .ready := by
  simp only [release]
  split <;> nofun

end ClassificationRow

/-- The tables the classification reads and writes. `fk` is the foreign key of the entity
links, which are without duplicates. -/
structure ClassificationDb where
  nodes : Table ℕ ClassifiedNode
  rows : Table ℕ ClassificationRow
  entities : Table Canonical EntityOwner
  links : List (ℕ × Canonical)
  fk : ∀ l ∈ links, l.2 ∈ entities.keys
  nextToken : ℕ

namespace ClassificationDb

def empty : ClassificationDb := ⟨Table.empty, Table.empty, Table.empty, [], by simp, 0⟩

/-- The node has the classifier's own link to the topic. -/
def Owned (db : ClassificationDb) (n : ℕ) (topic : String) : Prop :=
  (n, .topic topic) ∈ db.links ∧ db.entities.get? (.topic topic) = some .classification

instance (db : ClassificationDb) (n : ℕ) (topic : String) : Decidable (db.Owned n topic) := by
  unfold Owned
  infer_instance

/-- `_owned_topics`. -/
def ownedTopics (db : ClassificationDb) (n : ℕ) : List String :=
  db.links.filterMap fun l =>
    match l.2 with
    | .topic t => if db.Owned n t ∧ l.1 = n then some t else none
    | .other _ => none

/-- `node_input`. -/
def nodeInput (db : ClassificationDb) (n : ℕ) : Except PyError (Option Identity) :=
  match db.nodes.get? n with
  | none => .ok none
  | some node =>
    match node.input with
    | .error message => .error (.valueError message)
    | .ok hash => .ok (some ⟨node.uuid, hash⟩)

/-- The links that meet a condition. -/
def filterLinks (db : ClassificationDb) (keep : ℕ × Canonical → Prop) [DecidablePred keep] :
    ClassificationDb :=
  { db with
    links := db.links.filter fun l => keep l
    fk := fun l hl => db.fk l (List.mem_filter.mp hl).1 }

/-- `remove_memberships`. -/
def removeMemberships (db : ClassificationDb) (n : ℕ) : ClassificationDb :=
  db.filterLinks fun l =>
    ¬ (l.1 = n ∧ l.2.isTopic = true ∧ db.entities.get? l.2 = some .classification)

/-- The entity of a topic, made the classifier's when it is new, and the node's link to it. -/
def linkTopic (db : ClassificationDb) (n : ℕ) (topic : String) : ClassificationDb where
  nodes := db.nodes
  rows := db.rows
  entities := db.entities.upsert (.topic topic) .classification id
  links := if (n, .topic topic) ∈ db.links then db.links else db.links ++ [(n, .topic topic)]
  fk := by
    intro l hl
    rw [Table.mem_keys]
    have hcases : l ∈ db.links ∨ l = (n, .topic topic) := by
      split at hl
      · exact Or.inl hl
      · exact (List.mem_append.mp hl).imp_right List.mem_singleton.mp
    rcases hcases with hl | rfl
    · obtain ⟨owner, howner⟩ := Table.mem_keys.mp (db.fk l hl)
      rw [Table.get?_upsert]
      split
      · exact ⟨_, rfl⟩
      · exact ⟨owner, howner⟩
    · rw [Table.get?_upsert, if_pos rfl]
      exact ⟨_, rfl⟩
  nextToken := db.nextToken

/-- `_memberships`: the node's own links become those to the topics. -/
def memberships (db : ClassificationDb) (n : ℕ) (topics : List String) :
    Except PyError ClassificationDb :=
  if ∃ t ∈ topics, db.entities.get? (.topic t) = some .source then
    .error (.valueError "topic identity belongs to a source entity")
  else if (∀ t ∈ db.ownedTopics n, t ∈ topics) ∧ ∀ t ∈ topics, t ∈ db.ownedTopics n then .ok db
  else .ok (topics.foldl (fun db t => db.linkTopic n t) (db.removeMemberships n))

section Enqueue

/-- The values of the `INSERT`: the next revision, with the column defaults for the result. -/
def requestedRow (previous : Option ClassificationRow) (identity : Identity)
    (error : Option String) (enabled : Bool) (recipe : Recipe) (now : ℤ) : ClassificationRow where
  nodeUuid := identity.uuid
  requestedRevision := (previous.map ClassificationRow.requestedRevision).getD 0 + 1
  desiredInputHash := identity.inputHash
  recipeHash := recipe.recipeHash
  status := if enabled ∧ error = none then .pending else .skipped
  error := error.or (if enabled then none else some "classification disabled")
  enqueuedAt := now

/-- The second half of `enqueue_node`: nothing when the row asks for the same work already,
otherwise a new revision without a result. -/
def requeue (db : ClassificationDb) (n : ℕ) (previous : Option ClassificationRow)
    (identity : Identity) (error : Option String) (enabled : Bool) (recipe : Recipe) (now : ℤ) :
    ClassificationDb × Bool :=
  if ∃ row ∈ previous, row.Unchanged identity recipe enabled then (db, false)
  else
    let removed := db.removeMemberships n
    let new := requestedRow previous identity error enabled recipe now
    ({ removed with rows := removed.rows.upsert n new fun _ => new }, new.status = .pending)

/-- `enqueue_node`. -/
def enqueueNode (db : ClassificationDb) (n : ℕ) (enabled : Bool) (recipe : Recipe) (now : ℤ) :
    ClassificationDb × Bool :=
  let previous := db.rows.get? n
  if enabled = false ∧ previous.isNone then (db, false)
  else
    match db.nodes.get? n with
    | none => (db, false)
    | some node =>
      match node.input with
      | .error _ =>
        db.requeue n previous ⟨node.uuid, "invalid"⟩ (some "invalid node content") enabled
          recipe now
      | .ok hash =>
        let identity : Identity := ⟨node.uuid, hash⟩
        match previous.filter fun row => row.Current identity recipe with
        | none => db.requeue n previous identity none enabled recipe now
        | some row =>
          match db.memberships n row.acceptedTopics with
          | .ok db => (db, false)
          | .error _ =>
            db.requeue n previous identity (some "topic identity belongs to a source entity")
              enabled recipe now

end Enqueue

section Work

/-- One turn of the claim's loop, for a row as the `SELECT` returned it. -/
def claimRow (db : ClassificationDb) (recipe : Recipe) (now : ℤ)
    (selected : ℕ × ClassificationRow) : ClassificationDb × Option ClassificationClaim :=
  let db := (db.enqueueNode selected.1 true recipe now).1
  match db.nodeInput selected.1 with
  | .error _ | .ok none => (db, none)
  | .ok (some identity) =>
    let row := selected.2
    if identity.uuid ≠ row.nodeUuid ∨ identity.inputHash ≠ row.desiredInputHash then (db, none)
    else if ∃ live ∈ db.rows.get? selected.1, live.requestedRevision = row.requestedRevision ∧
        live.recipeHash = recipe.recipeHash ∧
        (live.status = .pending ∨ live.status = .processing) then
      let token := db.nextToken
      let rows := db.rows.modify selected.1 (ClassificationRow.lock token now)
      ({ db with rows := rows, nextToken := token + 1 },
        some ⟨selected.1, identity.uuid, row.requestedRevision, identity.inputHash,
          recipe.recipeHash, token, row.attempts + 1⟩)
    else (db, none)

def claimRows (recipe : Recipe) (now : ℤ) (db : ClassificationDb) :
    List (ℕ × ClassificationRow) → ClassificationDb × List ClassificationClaim
  | [] => (db, [])
  | selected :: rest =>
    let (db, work) := db.claimRow recipe now selected
    let (db, works) := claimRows recipe now db rest
    (db, work.toList ++ works)

/-- The claim's first `UPDATE`. -/
def giveUpExpired (db : ClassificationDb) (now : ℤ) : ClassificationDb :=
  { db with
    rows := db.rows.update
      (fun _ row => row.status = .processing ∧ row.Expired now ∧ maxAttempts ≤ row.attempts)
      ClassificationRow.giveUp }

/-- The claim's `SELECT`. -/
def claimable (db : ClassificationDb) (recipe : Recipe) (limit : ℕ) (now : ℤ) :
    List (ℕ × ClassificationRow) :=
  (orderBy (fun e => e.2.enqueuedAt) (orderBy (fun e => (e.1 : ℤ))
    (db.rows.select fun _ row => row.Claimable recipe now))).take limit

/-- `claim`. -/
def claim (db : ClassificationDb) (recipe : Recipe) (limit : ℕ) (now : ℤ) :
    Except PyError (ClassificationDb × List ClassificationClaim) :=
  if ¬ (1 ≤ limit ∧ limit ≤ 100) then
    .error (.valueError "claim limit must be between one and 100")
  else
    let db := db.giveUpExpired now
    .ok (claimRows recipe now db (db.claimable recipe limit now))

/-- `_matches`. -/
def Matches (db : ClassificationDb) (work : ClassificationClaim) (recipe : Recipe) (now : ℤ) :
    Prop :=
  (∃ row ∈ db.rows.get? work.nodeId, row.nodeUuid = work.nodeUuid ∧
    row.requestedRevision = work.revision ∧ row.desiredInputHash = work.inputHash ∧
    row.recipeHash = recipe.recipeHash ∧ row.leaseToken = some work.leaseToken ∧
    row.status = .processing ∧ ∃ expires ∈ row.leaseExpiresAt, now < expires) ∧
  work.recipeHash = recipe.recipeHash ∧
  ∃ node ∈ db.nodes.get? work.nodeId, node.uuid = work.nodeUuid ∧
    node.input.toOption = some work.inputHash

instance (db : ClassificationDb) (work : ClassificationClaim) (recipe : Recipe) (now : ℤ) :
    Decidable (db.Matches work recipe now) := by
  unfold Matches
  infer_instance

/-- `apply_result`. -/
def applyResult (db : ClassificationDb) (work : ClassificationClaim)
    (response : Except String Response) (recipe : Recipe) (now : ℤ) :
    Except PyError (ClassificationDb × Bool) := do
  let response ← validateResponse response recipe
  if ¬ db.Matches work recipe now then return (db, false)
  else
    let topics := accepted recipe response
    let linked ← db.memberships work.nodeId topics
    let rows := linked.rows.modify work.nodeId (ClassificationRow.publish topics response)
    return ({ linked with rows := rows }, true)

/-- `_fail`: the lease token and the revision fence it. -/
def fail (db : ClassificationDb) (work : ClassificationClaim) (error : String)
    (transient : Bool) (retryAfterMs : ℤ) (consumeAttempt : Bool) (now : ℤ) : ClassificationDb :=
  let attempts := work.attempts - (if consumeAttempt then 0 else 1)
  let backoff := max retryAfterMs (1000 * 2 ^ (work.attempts - 1))
  { db with
    rows := db.rows.update
      (fun n row => n = work.nodeId ∧ row.leaseToken = some work.leaseToken ∧
        row.requestedRevision = work.revision)
      (ClassificationRow.release attempts transient (now + backoff)
        (String.ofList (error.toList.take 160))) }

end Work

section Memberships

variable {db db' : ClassificationDb} {n m : ℕ} {t u : String}

theorem mem_ownedTopics : t ∈ db.ownedTopics n ↔ db.Owned n t := by
  simp only [ownedTopics, List.mem_filterMap]
  constructor
  · rintro ⟨⟨m, c⟩, hl, hsome⟩
    cases c with
    | other name => cases hsome
    | topic name =>
      simp only [Option.ite_none_right_eq_some, Option.some.injEq] at hsome
      obtain ⟨⟨howned, -⟩, rfl⟩ := hsome
      exact howned
  · intro h
    exact ⟨(n, .topic t), h.1, by simp [h]⟩

theorem owned_removeMemberships : (db.removeMemberships n).Owned m t ↔ db.Owned m t ∧ m ≠ n := by
  simp only [Owned, removeMemberships, filterLinks, List.mem_filter, decide_eq_true_eq]
  constructor
  · rintro ⟨⟨hl, hkeep⟩, howner⟩
    exact ⟨⟨hl, howner⟩, fun hm => hkeep ⟨hm, rfl, howner⟩⟩
  · rintro ⟨⟨hl, howner⟩, hne⟩
    exact ⟨⟨hl, fun h => hne h.1⟩, howner⟩

theorem linkTopic_entities (db : ClassificationDb) (n : ℕ) (t : String) (c : Canonical) :
    (db.linkTopic n t).entities.get? c =
      if c = .topic t then some ((db.entities.get? c).getD .classification)
      else db.entities.get? c := by
  simp only [linkTopic, Table.get?_upsert, Option.map_id_fun, id]
  split
  · rename_i h
    rw [h]
  · rfl

/-- A topic that no source owns gets the classifier's link, and nothing else changes. -/
theorem owned_linkTopic (h : db.entities.get? (.topic u) ≠ some .source) :
    (db.linkTopic n u).Owned m t ↔ db.Owned m t ∨ (m = n ∧ t = u) := by
  have hlinks : ∀ l, l ∈ (db.linkTopic n u).links ↔ l ∈ db.links ∨ l = (n, .topic u) := by
    intro l
    simp only [linkTopic]
    split
    · rename_i hmem
      exact ⟨Or.inl, fun hl => hl.elim id fun hl => hl ▸ hmem⟩
    · rw [List.mem_append, List.mem_singleton]
  have howner : (db.entities.get? (.topic u)).getD .classification = .classification := by
    cases hget : db.entities.get? (.topic u) with
    | none => rfl
    | some owner =>
      cases owner with
      | classification => rfl
      | source => exact absurd hget h
  simp only [Owned, hlinks, linkTopic_entities]
  constructor
  · rintro ⟨hl | hl, hent⟩
    · obtain ⟨owner, hget⟩ := Table.mem_keys.mp (db.fk _ hl)
      split at hent
      · rw [hget, Option.getD_some] at hent
        exact Or.inl ⟨hl, hget.trans hent⟩
      · exact Or.inl ⟨hl, hent⟩
    · obtain ⟨rfl, htopic⟩ := Prod.mk.inj hl
      exact Or.inr ⟨rfl, Canonical.topic.inj htopic⟩
  · rintro (⟨hl, hent⟩ | ⟨rfl, rfl⟩)
    · refine ⟨Or.inl hl, ?_⟩
      rw [hent]
      split <;> rfl
    · exact ⟨Or.inr rfl, by rw [if_pos rfl, howner]⟩

theorem linkTopics_spec (topics : List String) (n : ℕ) (db : ClassificationDb)
    (h : ∀ t ∈ topics, db.entities.get? (.topic t) ≠ some .source) :
    let linked := topics.foldl (fun db t => db.linkTopic n t) db
    linked.nodes = db.nodes ∧ linked.rows = db.rows ∧ linked.nextToken = db.nextToken ∧
      ∀ m t, linked.Owned m t ↔ db.Owned m t ∨ (m = n ∧ t ∈ topics) := by
  induction topics generalizing db with
  | nil => simp
  | cons u topics ih =>
    have hu : db.entities.get? (.topic u) ≠ some .source := h u List.mem_cons_self
    have hrest : ∀ t ∈ topics, (db.linkTopic n u).entities.get? (.topic t) ≠ some .source := by
      intro t ht
      rw [linkTopic_entities]
      split
      · rename_i heq
        rw [heq]
        cases hget : db.entities.get? (.topic u) with
        | none => simp
        | some owner => exact fun hs => hu (hget.trans hs)
      · exact h t (List.mem_cons_of_mem u ht)
    obtain ⟨hnodes, hrows, htoken, howned⟩ := ih (db.linkTopic n u) hrest
    refine ⟨hnodes, hrows, htoken, fun m t => ?_⟩
    rw [List.foldl_cons, howned, owned_linkTopic hu, List.mem_cons]
    tauto

/-- After `_memberships` the node's own links are those to the topics; the links of other
nodes and the rows are as before. -/
theorem memberships_ok {topics : List String} (h : db.memberships n topics = .ok db') :
    db'.nodes = db.nodes ∧ db'.rows = db.rows ∧ db'.nextToken = db.nextToken ∧
      ∀ m t, db'.Owned m t ↔ if m = n then t ∈ topics else db.Owned m t := by
  unfold memberships at h
  split at h
  · cases h
  · rename_i hsource
    split at h
    · rename_i hsame
      cases h
      refine ⟨rfl, rfl, rfl, fun m t => ?_⟩
      split
      · rename_i hm
        rw [hm, ← mem_ownedTopics]
        exact ⟨hsame.1 t, hsame.2 t⟩
      · rfl
    · cases h
      have hfree : ∀ t ∈ topics,
          (db.removeMemberships n).entities.get? (.topic t) ≠ some .source :=
        fun t ht hs => hsource ⟨t, ht, hs⟩
      obtain ⟨hnodes, hrows, htoken, howned⟩ := linkTopics_spec topics n _ hfree
      refine ⟨hnodes, hrows, htoken, fun m t => ?_⟩
      rw [howned, owned_removeMemberships]
      by_cases hm : m = n
      · simp [hm]
      · simp [hm]

end Memberships

end ClassificationDb

end Hippo
