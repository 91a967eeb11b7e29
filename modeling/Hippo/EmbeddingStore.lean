import Hippo.KnowledgeStore
import Hippo.ShellEnrichment
import Hippo.Transition

/-!
# The vectors of the corpus

A knowledge node has two vectors, of its text and of its commands, and the store records the model
that the corpus was embedded with. A call checks this model, waits for the inference server, checks
again and writes. The operator's command stages the vectors of all nodes and publishes them if the
corpus did not change meanwhile. `clean` is `index_text`, and `replaces` is whether the vector table
honours `OR REPLACE`.
-/
namespace Hippo.EmbeddingStore

open Transition

def embedDim : ℕ := 768

/-- The numbers of the server's answers (`F`), of the staged file (`D`) and of the table (`B`). -/
structure Numbers (F D B : Type) where
  /-- As a double, if it is a number. -/
  double : F → Option D
  /-- As a float, if it is not too large. -/
  single : D → Option B
  unpack : D → F

structure Node where
  uuid : String
  content : String
  embedText : String
  tags : Option String
  /-- The commands of the node's events, by time. -/
  commands : List String
deriving DecidableEq

structure Db (B : Type) where
  nodes : Table ℕ Node
  vectors : Table ℕ (List B × List B)
  /-- `embed_model_meta`. -/
  model : Option String

inductive Refusal where
  | notPrimaryKey
  | dimension
  | drift
  | notFloat
  | vectorExists
  | blankModel
  | corpusChanged
deriving DecidableEq, Repr

def require (p : Prop) [Decidable p] (e : Refusal) : Except Refusal Unit :=
  if p then .ok () else .error e

/-- What a caller of `embed_knowledge_node` passes. -/
structure Request where
  node : ℕ
  embedText : String
  commandsRaw : String
  embedModel : String
  commandModel : String
  allowSwitch : Bool
  replaceExisting : Bool

section Store

variable {F D B : Type} (num : Numbers F D B) (clean : String → String) (replaces : Bool)

/-- `_vec_blob`. -/
def vecBlob (vec : List F) : Except Refusal (List B) :=
  match vec.mapM fun x => (num.double x).bind num.single with
  | some blob => .ok blob
  | none => .error .notFloat

def checkEmbedModelDrift (stored : Option String) (live : String) (allowSwitch : Bool) :
    Except Refusal Unit :=
  match stored with
  | none => .ok ()
  | some stored => require (stored.isEmpty ∨ stored = live ∨ allowSwitch) .drift

def checkVecDim (vec : List F) : Except Refusal Unit := require (vec.length = embedDim) .dimension

def insertVectors (db : Db B) (id : ℕ) (vectors : List F × List F) : Except Refusal (Db B) := do
  let knowledge ← vecBlob num vectors.1
  let command ← vecBlob num vectors.2
  require (replaces ∨ db.vectors.get? id = none) .vectorExists
  return { db with vectors := db.vectors.put id (knowledge, command) }

def recordEmbedModel (db : Db B) (model : String) : Except Refusal (Db B) := do
  require ((PyText.strip model).isEmpty = false) .blankModel
  return { db with model := some model }

/-- The derived texts of a node, cleaned. -/
def Node.cleaned (node : Node) : Node :=
  { node with
    content := clean node.content, embedText := clean node.embedText, tags := node.tags.map clean }

/-- The `UPDATE` of the texts that were read, where cleaning changes them. -/
def publishTexts (db : Db B) (id : ℕ) (stored : Option Node) : Db B :=
  match stored with
  | none => db
  | some stored =>
    if stored.cleaned clean = stored then db
    else
      { db with nodes := db.nodes.modify id fun node =>
          { node with
            content := clean stored.content
            embedText := clean stored.embedText
            tags := stored.tags.map clean } }

/-- `store_node_vectors` from its first write on. -/
def writeVectors (db : Db B) (id : ℕ) (stored : Option Node) (vectors : List F × List F)
    (model : String) (replaceExisting : Bool) : Except Refusal (Db B) := do
  let db := publishTexts clean db id stored
  let db := if replaceExisting then { db with vectors := db.vectors.erase id } else db
  let db ← insertVectors num replaces db id vectors
  recordEmbedModel db model

/-- `store_node_vectors` in a transaction of its own. -/
def storeNodeVectors (db : Db B) (id : ℕ) (vectors : List F × List F) (model : String)
    (allowSwitch replaceExisting : Bool) : Except Refusal (Db B) := do
  require (id ≠ 0) .notPrimaryKey
  checkVecDim vectors.1
  checkVecDim vectors.2
  checkEmbedModelDrift db.model model allowSwitch
  writeVectors num clean replaces db id (db.nodes.get? id) vectors model replaceExisting

/-- What `prepare_node_vectors` asks the server for first. -/
def Request.knowledgeText (r : Request) : String := clean r.embedText

/-- `commands_raw or embed_text`. -/
def Request.commandText (r : Request) : String :=
  if (clean r.commandsRaw).isEmpty then clean r.embedText else clean r.commandsRaw

/-- `command_model or embed_model`. -/
def Request.modelOfCommands (r : Request) : String :=
  if r.commandModel.isEmpty then r.embedModel else r.commandModel

end Store

section Calls

/-- Where a call of `embed_knowledge_node` is. Without `replace_existing` it is in no transaction
before its first write. -/
inductive Stage (F : Type) where
  | called
  | asked
  | askedCommand (knowledge : List F)
  | prepared (vectors : List F × List F)
  | checked (vectors : List F × List F)
  | read (vectors : List F × List F) (stored : Option Node)

structure Call (F : Type) where
  request : Request
  stage : Stage F

variable {F D B : Type} (num : Numbers F D B) (clean : String → String) (replaces : Bool)

/-- The transaction of a call: a refusal rolls it back. -/
def commit (db : Db B) : Except Refusal (Db B) → Db B
  | .ok db => db
  | .error _ => db

/-- A call goes on to its next await or commit. An error ends it. -/
def Call.goOn (db : Db B) (call : Call F) : Option (Db B × Option (Stage F)) :=
  let r := call.request
  let check := checkEmbedModelDrift db.model r.embedModel r.allowSwitch
  match call.stage with
  | .called => some (db, if r.node ≠ 0 ∧ check = .ok () then some .asked else none)
  | .asked => none
  | .askedCommand _ => none
  | .prepared vectors =>
    if r.replaceExisting then
      some (commit db (storeNodeVectors num clean replaces db r.node vectors r.embedModel
        r.allowSwitch true), none)
    else some (db, if check = .ok () then some (.checked vectors) else none)
  | .checked vectors => some (db, some (.read vectors (db.nodes.get? r.node)))
  | .read vectors stored =>
    some (commit db
      (writeVectors num clean replaces db r.node stored vectors r.embedModel false), none)

/-- The answer to the request a call waits for. -/
def Stage.answer (vec : List F) : Stage F → Option (Option (Stage F))
  | .asked => some (if vec.length = embedDim then some (.askedCommand vec) else none)
  | .askedCommand knowledge =>
    some (if vec.length = embedDim then some (.prepared (knowledge, vec)) else none)
  | _ => none

end Calls

section Republishing

/-- A run of `re_embed_nodes`: what it read, and the pairs it staged. -/
structure Job (F D : Type) where
  embedModel : String
  commandModel : String
  inputs : List (ℕ × Node)
  oldModel : Option String
  staged : List (List D × List D)
  /-- The first vector of the next node. -/
  half : Option (List F)

variable {F D B : Type} (num : Numbers F D B) (clean : String → String) (replaces : Bool)

/-- `_corpus_inputs`. -/
def corpusInputs (db : Db B) : List (ℕ × Node) := orderBy (fun e => (e.1 : ℤ)) db.nodes.entries

def Job.request (job : Job F D) (input : ℕ × Node) : Request where
  node := input.1
  embedText := input.2.embedText
  commandsRaw := " ; ".intercalate input.2.commands
  embedModel := job.embedModel
  commandModel := job.commandModel
  allowSwitch := true
  replaceExisting := true

/-- The answer for the next node of a job. An error ends the job. -/
def Job.answer (job : Job F D) (vec : List F) : Option (Option (Job F D)) :=
  if job.staged.length < job.inputs.length then
    match job.half with
    | none => some (if vec.length = embedDim then some { job with half := some vec } else none)
    | some knowledge =>
      match knowledge.mapM num.double, vec.mapM num.double with
      | some knowledge, some command =>
        some (if vec.length = embedDim then
          some { job with staged := job.staged ++ [(knowledge, command)], half := none } else none)
      | _, _ => some none
  else none

/-- The loop over the staged file. -/
def republish (model : String) (db : Db B) :
    List (ℕ × (List D × List D)) → Except Refusal (Db B)
  | [] => .ok db
  | (id, pair) :: rest => do
    let db ← storeNodeVectors num clean replaces db id
      (pair.1.map num.unpack, pair.2.map num.unpack) model true true
    republish model db rest

/-- The transaction at the end of `re_embed_nodes`. -/
def Job.publish (job : Job F D) (db : Db B) : Except Refusal (Db B) := do
  require (corpusInputs db = job.inputs ∧ db.model = job.oldModel) .corpusChanged
  let db ← republish num clean replaces job.embedModel db ((job.inputs.map Prod.fst).zip job.staged)
  recordEmbedModel db job.embedModel

end Republishing

section Machine

/-- The store and who works on it. -/
structure World (F D B : Type) where
  db : Db B
  calls : List (Call F)
  jobs : List (Job F D)

def World.start {F D B : Type} (db : Db B) : World F D B := ⟨db, [], []⟩

inductive Act (F : Type) where
  | embed (r : Request)
  | goOn (k : ℕ)
  | answer (k : ℕ) (vec : List F)
  /-- The server or the database fails a call. -/
  | fail (k : ℕ)
  | reEmbed (embedModel commandModel : String)
  | answerJob (k : ℕ) (vec : List F)
  | publish (k : ℕ)
  | failJob (k : ℕ)
  /-- The other writers: they add, change and delete nodes, and delete vectors. -/
  | others (nodes : Table ℕ Node) (gone : List ℕ)

variable {F D B : Type} (num : Numbers F D B) (clean : String → String) (replaces : Bool)

def step (w : World F D B) : Act F → Option (World F D B)
  | .embed r => some { w with calls := w.calls ++ [⟨r, .called⟩] }
  | .goOn k =>
    w.calls[k]?.bind fun call => (call.goOn num clean replaces w.db).map fun o =>
      { w with
        db := o.1
        calls := replaceAt w.calls k (o.2.toList.map fun stage => ⟨call.request, stage⟩) }
  | .answer k vec =>
    w.calls[k]?.bind fun call => (call.stage.answer vec).map fun o =>
      { w with calls := replaceAt w.calls k (o.toList.map fun stage => ⟨call.request, stage⟩) }
  | .fail k => w.calls[k]?.map fun _ => { w with calls := replaceAt w.calls k [] }
  | .reEmbed embedModel commandModel =>
    some { w with
      jobs := w.jobs ++ [⟨embedModel, commandModel, corpusInputs w.db, w.db.model, [], none⟩] }
  | .answerJob k vec =>
    w.jobs[k]?.bind fun job => (job.answer num vec).map fun o =>
      { w with jobs := replaceAt w.jobs k o.toList }
  | .publish k =>
    w.jobs[k]?.bind fun job =>
      if job.staged.length = job.inputs.length then
        some { w with
          db := commit w.db (job.publish num clean replaces w.db)
          jobs := replaceAt w.jobs k [] }
      else none
  | .failJob k => w.jobs[k]?.map fun _ => { w with jobs := replaceAt w.jobs k [] }
  | .others nodes gone =>
    some { w with
      db := { w.db with nodes := nodes, vectors := w.db.vectors.delete fun id _ => id ∈ gone } }

end Machine

end Hippo.EmbeddingStore
