import Hippo.BestSelection
import Hippo.Classification
import Hippo.RetrievalFilters
import Mathlib.Data.Prod.Lex
import Mathlib.Data.String.Basic

/-!
# Candidates by topic

A search may add nodes by the topics of the question. `_topic_candidates` ranks the nodes classified
under a topic, lets them through the filters in batches and takes the best of them, then merges
the topics. What is stored of a classification is checked again when it is read.
-/
namespace Hippo.Retrieval
open BestSelection

/-- A JSON value in a classification, as far as it is looked at. -/
inductive Stored where
  | number (value : ℚ)
  | bool (b : Bool)
  | string (s : String)
  | other
deriving DecidableEq, Repr

/-- `accepted_topics_json` and `probabilities_json`; the schema wants an array and an object. -/
structure StoredTopics where
  accepted : List Stored
  probabilities : Table String Stored

/-- The accepted topics that are texts. -/
def StoredTopics.names (stored : StoredTopics) : List String :=
  stored.accepted.filterMap fun
    | .string t => some t
    | _ => none

/-- The tables of a search with those of the classifier. `stored` has the JSON columns of the row of
a node. Both see the same nodes, and `uuid` is unique. -/
structure TopicDb where
  db : Db
  classified : ClassificationDb
  stored : ℕ → StoredTopics
  same : ∀ n, (classified.nodes.get? n).map ClassifiedNode.uuid =
    (db.nodes.get? n).map NodeRow.uuid
  unique : (db.nodes.entries.map fun e => e.2.uuid).Nodup

/-- A number of a probability, and the check of `jev.number`. -/
def Stored.noul : Stored → Option ℚ
  | .number q => if 0 ≤ q ∧ q ≤ 1 then some q else none
  | _ => none

/-- The probability of a topic. -/
def StoredTopics.noul (stored : StoredTopics) (topic : String) : Option ℚ :=
  (stored.probabilities.get? topic).bind Stored.noul

/-- What `json_extract` gives for a probability, if it is a number from 0 to 1. SQLite has
numbers for booleans. -/
def Stored.extracted : Stored → Option ℚ
  | .bool b => some (if b then 1 else 0)
  | value => value.noul

/-- A node with its rank, as one row of `ranked`. -/
structure Candidate where
  id : ℕ
  uuid : String
  score : ℚ
deriving DecidableEq, Repr

/-- The sort key `(-score, uuid)`. -/
def Candidate.key (c : Candidate) : ℚ ×ₗ String := toLex (-c.score, c.uuid)

/-- `Tuning`, as far as the topics read it, with the powers of one half. -/
structure Recency where
  halfLifeDays : ℚ
  floor : ℚ
  halved : ℚ → ℚ

/-- `_recency_multiplier`. -/
def Recency.multiplier (r : Recency) (ageMs : ℤ) : ℚ :=
  let halfLifeMs := r.halfLifeDays * 86400000
  if halfLifeMs ≤ 0 then 1 else r.floor + (1 - r.floor) * r.halved (max 0 ageMs / halfLifeMs)

/-- The score of a node for a probability. -/
def Recency.scored (r : Recency) (now : ℤ) (n : ℕ) (node : NodeRow) (p : ℚ) : Candidate :=
  ⟨n, node.uuid, p * r.multiplier (now - node.createdAt)⟩

section Questions

/-- `re.search(r"(?<!\w)" + re.escape(alias) + r"(?!\w)", query, re.I)`, after a character; where
the match begins. -/
def phrasePosition (isWord : Char → Bool) (sameLetter : Char → Char → Bool)
    (phrase : List Char) : Option Char → List Char → Option ℕ
  | before, text =>
    if (before.all fun c => ! isWord c) ∧ phrase.length ≤ text.length ∧
        ((phrase.zip text).all fun p => sameLetter p.1 p.2) ∧
        ((text.drop phrase.length).head?.all fun c => ! isWord c) then some 0
    else
      match text with
      | [] => none
      | c :: rest => (phrasePosition isWord sameLetter phrase (some c) rest).map (· + 1)

/-- How the question names topics: `topic_ids`, or the aliases of the topics in its text. -/
structure Question where
  text : String
  topicIds : Option (List String) := none
  isWord : Char → Bool
  sameLetter : Char → Char → Bool
  phrases : String → List String

/-- The first place where the question names the topic. -/
def Question.position (q : Question) (topic : String) : Option ℕ :=
  ((q.phrases topic).filterMap fun phrase =>
    if phrase = "" then none
    else phrasePosition q.isWord q.sameLetter phrase.toList none q.text.toList).min?

/-- `_query_topics`. -/
def Question.topics (q : Question) (recipe : Recipe) : List String :=
  match q.topicIds with
  | some ids => ((ids.filter fun t => t ∈ recipe.topics).reverse.dedup.reverse).take 3
  | none =>
    let matched := recipe.topics.filterMap fun t => (q.position t).map fun p => (p, t)
    ((sortOn (fun m : ℕ × String => toLex m) matched).take 3).map Prod.snd

end Questions

namespace TopicDb

variable (recipe : Recipe) (db : TopicDb)

/-- The stored JSON passes the checks of `current_topics`. -/
def Sound (n : ℕ) : Prop :=
  let accepted := (db.stored n).accepted
  let probabilities := (db.stored n).probabilities
  (∀ t ∈ probabilities.keys, t ∈ recipe.topics) ∧ (∀ t ∈ recipe.topics, t ∈ probabilities.keys) ∧
    (∀ e ∈ probabilities.entries, e.2.noul.isSome) ∧ accepted.length ≤ recipe.maxTopics ∧
    accepted.Nodup ∧ (∀ a ∈ accepted, ∃ t ∈ db.classified.ownedTopics n, a = .string t) ∧
    (∀ t ∈ db.classified.ownedTopics n, .string t ∈ accepted) ∧
    ∀ t ∈ (db.stored n).names, ∃ p ∈ (db.stored n).noul t,
      recipe.threshold t ≤ p ∧ recipe.publishTopics.all fun topics => t ∈ topics

instance (n : ℕ) : Decidable (db.Sound recipe n) := by
  unfold Sound
  infer_instance

/-- The topics of one node with their probabilities, none when they are not current. -/
def topicsOf (n : ℕ) : List (String × ℚ) :=
  match db.classified.rows.get? n, db.classified.nodeInput n with
  | some row, .ok (some identity) =>
    if row.Current identity recipe ∧ db.Sound recipe n then
      (db.stored n).names.filterMap fun t => ((db.stored n).noul t).map fun p => (t, p)
    else []
  | _, _ => []

/-- `current_topics(ids).get(n, {})`. -/
def currentTopics (ids : List ℕ) (n : ℕ) : List (String × ℚ) :=
  if n ∈ ids then db.topicsOf recipe n else []

/-- The `WHERE` of the `SELECT`. -/
def Listed (topic : String) (n : ℕ) (row : ClassificationRow) : Prop :=
  row.status = .ready ∧ row.recipeHash = recipe.recipeHash ∧
    row.appliedRecipeHash = some row.recipeHash ∧
    row.appliedRevision = some row.requestedRevision ∧
    row.appliedInputHash = some row.desiredInputHash ∧ .string topic ∈ (db.stored n).accepted

instance (topic : String) (n : ℕ) (row : ClassificationRow) :
    Decidable (db.Listed recipe topic n row) := by
  unfold Listed
  infer_instance

variable (recency : Recency) (now : ℤ)

/-- The rows of the `SELECT` with a valid probability. -/
def rankedRows (topic : String) : List Candidate :=
  (db.classified.rows.select (db.Listed recipe topic)).filterMap fun e =>
    ((db.db.nodes.get? e.1).filter fun node => node.uuid = e.2.nodeUuid).bind fun node =>
      (((db.stored e.1).probabilities.get? topic).bind Stored.extracted).map
        (recency.scored now e.1 node)

def ranked (topic : String) : List Candidate :=
  sortOn Candidate.key (db.rankedRows recipe recency now topic)

end TopicDb

/-- `admitted` and `candidates`. -/
structure Pool where
  admitted : List String
  candidates : Table String (ℕ × ℚ)

/-- A node stays a candidate with its best score. -/
def keepBest (candidates : Table String (ℕ × ℚ)) (c : Candidate) : Table String (ℕ × ℚ) :=
  match candidates.get? c.uuid with
  | none => candidates.put c.uuid (c.id, c.score)
  | some previous =>
    if previous.2 < c.score then candidates.put c.uuid (c.id, c.score) else candidates

def Pool.accept (pool : Pool) (c : Candidate) : Pool :=
  ⟨pool.admitted ++ [c.uuid], keepBest pool.candidates c⟩

/-- The loop over a batch. -/
def admitBatch (member : ℕ → Bool) : List Candidate → Pool → Pool
  | [], pool => pool
  | c :: rest, pool =>
    if ¬ member c.id ∨ c.uuid ∈ pool.admitted then admitBatch member rest pool
    else if (pool.accept c).admitted.length = 20 then pool.accept c
    else admitBatch member rest (pool.accept c)

/-- The values of `range(0, length, 64)`. -/
def offsets (length : ℕ) : List ℕ := (List.range ((length + 63) / 64)).map (64 * ·)

/-- The loop that merges the topics: the candidates outside the baseline are capped. -/
def capAdded (baseline : List ℕ) : List Candidate → List ℕ × List ℕ → List ℕ × List ℕ
  | [], found => found
  | c :: rest, (result, added) =>
    if c.id ∈ baseline then capAdded baseline rest (result ++ [c.id], added)
    else if added.length = 40 then capAdded baseline rest (result, added)
    else capAdded baseline rest (result ++ [c.id], added ++ [c.id])

/-- The diagnostics of the topics and the candidates. -/
structure TopicResult where
  queryTopics : List String
  counts : List (String × ℕ)
  nodes : List ℕ
  added : List ℕ
deriving DecidableEq, Repr

section Search

variable (lower repr : String → String) (aliases : ProjectName.Aliases) (clock : ℤ)
  (filters : SearchFilters) (recipe : Recipe) (db : TopicDb)

/-- One batch: the filters, the memberships and the loop. -/
def topicBatch (topic : String) (batch : List Candidate) (pool : Pool) : Except PyError Pool := do
  let allowed ← applyFilters lower repr aliases db.db clock (batch.map Candidate.id) filters
  let memberships := db.currentTopics recipe (sortOn id allowed)
  return admitBatch (fun n => topic ∈ (memberships n).map Prod.fst) batch pool

/-- The loop over the batches. -/
def topicBatches (topic : String) (ranked : List Candidate) :
    List ℕ → Pool → Except PyError Pool
  | [], pool => .ok pool
  | offset :: rest, pool => do
    let pool ← topicBatch lower repr aliases clock filters recipe db topic
      ((ranked.drop offset).take 64) pool
    if pool.admitted.length = 20 then return pool else topicBatches topic ranked rest pool

variable (recency : Recency) (now : ℤ)

/-- The loop over the topics, with `counts`. -/
def topicLoop : List String → Table String (ℕ × ℚ) →
    Except PyError (List (String × ℕ) × Table String (ℕ × ℚ))
  | [], candidates => .ok ([], candidates)
  | topic :: rest, candidates => do
    let ranked := db.ranked recipe recency now topic
    let pool ← topicBatches lower repr aliases clock filters recipe db topic ranked
      (offsets ranked.length) ⟨[], candidates⟩
    let (counts, candidates) ← topicLoop rest pool.candidates
    return ((topic, pool.admitted.length) :: counts, candidates)

/-- `candidates.items()`. -/
def items (candidates : Table String (ℕ × ℚ)) : List Candidate :=
  candidates.entries.map fun e => ⟨e.2.1, e.1, e.2.2⟩

/-- `_topic_candidates`. -/
def topicCandidates (question : Question) (baseline : List ℕ) : Except PyError TopicResult := do
  let selected := question.topics recipe
  let (counts, candidates) ← topicLoop lower repr aliases clock filters recipe db recency now
    selected Table.empty
  let (result, added) := capAdded baseline (sortOn Candidate.key (items candidates)) ([], [])
  return ⟨selected, counts, result, added⟩

end Search

end Hippo.Retrieval
