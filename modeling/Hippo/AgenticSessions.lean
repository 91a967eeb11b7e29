import Hippo.EnrichmentQueue
import Hippo.KnowledgeStore
import Mathlib.Data.Rat.Defs

/-!
# Agentic sessions: what the daemon writes

The rows of `agentic_sessions` and `agentic_enrichment_queue`, the upserts of the
five transcript sources, and the settling sweep of the Claude watcher. The JSON
columns hold their decoded value. SHA-256 over the serialized content, chrono's
time format and the renderers whose text no modelled function reads are the
parameters of `Rendering`.
-/
namespace Hippo

inductive Harness where
  | claudeCode
  | opencode
  | codex
  | cursor
  | pi
deriving DecidableEq, Repr

structure ToolCall where
  name : String
  summary : String
deriving DecidableEq, Repr

/-- A decoded JSON value. -/
inductive Json where
  | null
  | bool (b : Bool)
  | num (q : ℚ)
  | str (s : String)
  | arr (items : List Json)
  | obj (members : List (String × Json))

/-- A segment as the claude-code, codex, cursor and pi parsers extract it. -/
structure SessionSegment where
  sessionId : String
  segmentIndex : ℤ
  cwd : String
  gitBranch : Option String
  sourceFile : String
  toolCalls : List ToolCall
  userPrompts : List String
  assistantTexts : List String
  messageCount : ℤ
  startTime : ℤ
  endTime : ℤ

/-- A source session as the opencode poller reads it, after redaction. -/
structure OpencodeSession where
  id : String
  directory : String
  summaryAdditions : Option ℤ
  summaryDeletions : Option ℤ
  summaryFiles : Option ℤ
  summaryDiffs : Option Json
  userPrompts : List String
  assistantTexts : List String
  toolCalls : List String
  filesTouched : List String
  messageCount : ℤ
  timeCreated : ℤ
  timeUpdated : ℤ

/-- A row of `agentic_sessions`; `H` is the type of content hashes. -/
structure AgenticSession (H : Type) where
  sessionId : String
  harness : Harness
  segmentIndex : ℤ
  cwd : String
  sourceFile : String
  probeTag : Option String := none
  summaryText : String
  toolCalls : List ToolCall := []
  userPrompts : List String := []
  snapshotDiffs : Json := .null
  commitMessages : List String := []
  messageCount : ℤ
  startTime : ℤ
  endTime : ℤ
  contentHash : Option H := none
  lastEnrichedContentHash : Option H := none
  enriched : Bool := false

/-- The two agentic tables and the knowledge store. `fk` is the queue's foreign key. -/
structure AgenticDb (H γ : Type) where
  sessions : Table ℕ (AgenticSession H)
  queue : Queue
  store : KnowledgeStore γ
  fk : ∀ i ∈ queue.keys, i ∈ sessions.keys

/-- The functions the daemon calls outside the repository, or only for prompt text. -/
structure Rendering (H : Type) where
  segmentHash : List ToolCall → List String → String → H
  opencodeHash : OpencodeSession → H
  timeRange : ℤ → ℤ → String
  summaryText : Harness → SessionSegment → String
  opencodeSummaryText : OpencodeSession → String

namespace AgenticDb

variable {H γ : Type}

def empty : AgenticDb H γ where
  sessions := Table.empty
  queue := Table.empty
  store := KnowledgeStore.empty
  fk := by simp [Table.empty, Table.keys]

/-- `UPDATE agentic_enrichment_queue SET f WHERE p`. -/
def updateQueue (db : AgenticDb H γ) (p : ℕ → QueueRow → Prop) [∀ k r, Decidable (p k r)]
    (f : QueueRow → QueueRow) : AgenticDb H γ where
  sessions := db.sessions
  queue := db.queue.update p f
  store := db.store
  fk := by simpa only [Table.update, Table.keys_mapRows] using db.fk

def modifyQueue (db : AgenticDb H γ) (i : ℕ) (f : QueueRow → QueueRow) : AgenticDb H γ :=
  db.updateQueue (fun j _ => j = i) f

/-- `UPDATE agentic_sessions SET f WHERE id = i`. -/
def modifySession (db : AgenticDb H γ) (i : ℕ) (f : AgenticSession H → AgenticSession H) :
    AgenticDb H γ where
  sessions := db.sessions.modify i f
  queue := db.queue
  store := db.store
  fk := by simpa only [Table.modify, Table.update, Table.keys_mapRows] using db.fk

def insertSession (db : AgenticDb H γ) (new : AgenticSession H) : AgenticDb H γ where
  sessions := db.sessions.insert db.sessions.nextRowid new
  queue := db.queue
  store := db.store
  fk := by
    intro i hi
    obtain ⟨r, hr⟩ := Table.mem_keys.mp (db.fk i hi)
    rw [Table.mem_keys]
    simp only [Table.get?_insert_nextRowid]
    by_cases h : i = db.sessions.nextRowid
    · exact ⟨new, if_pos h⟩
    · exact ⟨r, by rw [if_neg h, hr]⟩

/-- The queue upsert of the daemon; without the session its foreign key fails. -/
def enqueue (db : AgenticDb H γ) (i : ℕ) : AgenticDb H γ :=
  if h : i ∈ db.sessions.keys then
    { db with
      queue := db.queue.enqueue i
      fk := by
        intro j hj
        obtain ⟨r, hr⟩ := Table.mem_keys.mp hj
        rw [Queue.get?_enqueue] at hr
        by_cases hji : j = i
        · exact hji ▸ h
        · rw [if_neg hji] at hr
          exact db.fk j (Table.mem_keys.mpr ⟨r, hr⟩) }
  else db

def setStore (db : AgenticDb H γ) (store : KnowledgeStore γ) : AgenticDb H γ :=
  { db with store := store }

section Lookup

@[simp] theorem updateQueue_sessions (db : AgenticDb H γ) (p : ℕ → QueueRow → Prop)
    [∀ k r, Decidable (p k r)] (f : QueueRow → QueueRow) :
    (db.updateQueue p f).sessions = db.sessions := rfl

@[simp] theorem updateQueue_store (db : AgenticDb H γ) (p : ℕ → QueueRow → Prop)
    [∀ k r, Decidable (p k r)] (f : QueueRow → QueueRow) :
    (db.updateQueue p f).store = db.store := rfl

@[simp] theorem updateQueue_get? (db : AgenticDb H γ) (p : ℕ → QueueRow → Prop)
    [∀ k r, Decidable (p k r)] (f : QueueRow → QueueRow) (j : ℕ) :
    (db.updateQueue p f).queue.get? j =
      (db.queue.get? j).map fun r => if p j r then f r else r :=
  Table.get?_update _ _ _ _

@[simp] theorem modifyQueue_sessions (db : AgenticDb H γ) (i : ℕ) (f : QueueRow → QueueRow) :
    (db.modifyQueue i f).sessions = db.sessions := rfl

@[simp] theorem modifyQueue_store (db : AgenticDb H γ) (i : ℕ) (f : QueueRow → QueueRow) :
    (db.modifyQueue i f).store = db.store := rfl

theorem modifyQueue_get? (db : AgenticDb H γ) (i j : ℕ) (f : QueueRow → QueueRow) :
    (db.modifyQueue i f).queue.get? j =
      if j = i then (db.queue.get? j).map f else db.queue.get? j :=
  Table.get?_modify _ _ _ _

@[simp] theorem modifySession_queue (db : AgenticDb H γ) (i : ℕ)
    (f : AgenticSession H → AgenticSession H) :
    (db.modifySession i f).queue = db.queue := rfl

@[simp] theorem modifySession_store (db : AgenticDb H γ) (i : ℕ)
    (f : AgenticSession H → AgenticSession H) :
    (db.modifySession i f).store = db.store := rfl

theorem modifySession_get? (db : AgenticDb H γ) (i j : ℕ)
    (f : AgenticSession H → AgenticSession H) :
    (db.modifySession i f).sessions.get? j =
      if j = i then (db.sessions.get? j).map f else db.sessions.get? j :=
  Table.get?_modify _ _ _ _

@[simp] theorem insertSession_queue (db : AgenticDb H γ) (new : AgenticSession H) :
    (db.insertSession new).queue = db.queue := rfl

@[simp] theorem insertSession_store (db : AgenticDb H γ) (new : AgenticSession H) :
    (db.insertSession new).store = db.store := rfl

theorem insertSession_get? (db : AgenticDb H γ) (new : AgenticSession H) (j : ℕ) :
    (db.insertSession new).sessions.get? j =
      if j = db.sessions.nextRowid then some new else db.sessions.get? j :=
  Table.get?_insert_nextRowid _ _ _

@[simp] theorem enqueue_sessions (db : AgenticDb H γ) (i : ℕ) :
    (db.enqueue i).sessions = db.sessions := by
  unfold enqueue
  split <;> rfl

@[simp] theorem enqueue_store (db : AgenticDb H γ) (i : ℕ) :
    (db.enqueue i).store = db.store := by
  unfold enqueue
  split <;> rfl

theorem enqueue_get? (db : AgenticDb H γ) {i : ℕ} (hi : i ∈ db.sessions.keys) (j : ℕ) :
    (db.enqueue i).queue.get? j =
      if j = i then some (((db.queue.get? i).map QueueRow.repend).getD { id := db.queue.nextId })
      else db.queue.get? j := by
  rw [enqueue, dif_pos hi]
  exact Queue.get?_enqueue _ _ _

theorem enqueue_status? (db : AgenticDb H γ) {i : ℕ} (hi : i ∈ db.sessions.keys) :
    (db.enqueue i).queue.status? i =
      some (if db.queue.status? i = some .processing then .processing else .pending) := by
  rw [Queue.status?, enqueue_get? db hi, if_pos rfl, Queue.status?]
  cases hq : db.queue.get? i with
  | none => rfl
  | some r => simp [QueueRow.repend_status]

@[simp] theorem setStore_sessions (db : AgenticDb H γ) (st : KnowledgeStore γ) :
    (db.setStore st).sessions = db.sessions := rfl

@[simp] theorem setStore_queue (db : AgenticDb H γ) (st : KnowledgeStore γ) :
    (db.setStore st).queue = db.queue := rfl

@[simp] theorem setStore_store (db : AgenticDb H γ) (st : KnowledgeStore γ) :
    (db.setStore st).store = st := rfl

end Lookup

/-- What an upsert's first `SELECT` reads of the row it is about to write. -/
structure Prior (H : Type) where
  id : ℕ
  contentHash : Option H
  lastEnrichedContentHash : Option H
  queueStatus : Option QueueStatus

/-- The row with the given values of the `UNIQUE (session_id, harness, segment_index)`
columns, with the status of its queue row. -/
def prior? (db : AgenticDb H γ) (sessionId : String) (harness : Harness) (segmentIndex : ℤ) :
    Option (Prior H) :=
  (db.sessions.entries.find? fun e =>
      e.2.sessionId = sessionId ∧ e.2.harness = harness ∧ e.2.segmentIndex = segmentIndex).map
    fun e => ⟨e.1, e.2.contentHash, e.2.lastEnrichedContentHash, db.queue.status? e.1⟩

theorem prior?_some {db : AgenticDb H γ} {sid : String} {h : Harness} {n : ℤ} {p : Prior H}
    (hp : db.prior? sid h n = some p) : ∃ r, db.sessions.get? p.id = some r ∧
      r.harness = h ∧ p.contentHash = r.contentHash ∧
      p.lastEnrichedContentHash = r.lastEnrichedContentHash ∧
      p.queueStatus = db.queue.status? p.id := by
  obtain ⟨e, he, rfl⟩ := Option.map_eq_some_iff.mp hp
  have hkey := List.find?_some he
  have hmem := List.mem_of_find?_eq_some he
  simp only [decide_eq_true_eq] at hkey
  exact ⟨e.2, Table.get?_eq_some.mpr hmem, hkey.2.1, rfl, rfl, rfl⟩

theorem enqueue_cases (db : AgenticDb H γ) (i j : ℕ) :
    (db.enqueue i).queue.get? j = db.queue.get? j ∨
      (j = i ∧ db.queue.status? j ≠ some .processing ∧
        ∃ r, (db.enqueue i).queue.get? j = some r ∧ Queue.Repended (db.queue.get? j) r) := by
  by_cases hi : i ∈ db.sessions.keys
  · rw [enqueue, dif_pos hi]
    exact Queue.enqueue_cases _ _ _
  · rw [enqueue, dif_neg hi]
    exact Or.inl rfl

end AgenticDb

/-- The enqueue gate, the same in every source. -/
def decideEnqueue {H : Type} [DecidableEq H] (wasInsert : Bool) (currentHash : H)
    (priorLastEnrichedHash : Option H) (priorQueueStatus : Option QueueStatus) : Bool :=
  if wasInsert then true
  else if priorQueueStatus = some .processing then false
  else if priorLastEnrichedHash = some currentHash then false
  else true

/-- One source's upsert: the inserted row, the content hash, the columns its
`ON CONFLICT … DO UPDATE` refreshes, and the two gates only claude-code has. The
proofs say that every source stores the hash it computed and leaves the watermark,
the probe tag and the harness alone, and that a Claude summary is never empty. -/
structure Upsert (H : Type) where
  new : AgenticSession H
  contentHash : H
  refresh : AgenticSession H → AgenticSession H
  blank : Bool
  keepsPending : Bool
  new_contentHash : new.contentHash = some contentHash
  new_watermark : new.lastEnrichedContentHash = none
  refresh_contentHash : ∀ r, (refresh r).contentHash = some contentHash
  refresh_watermark : ∀ r,
    (refresh r).lastEnrichedContentHash = r.lastEnrichedContentHash
  refresh_harness : ∀ r, (refresh r).harness = r.harness
  refresh_probeTag : ∀ r, (refresh r).probeTag = r.probeTag
  refresh_summaryText : ∀ r, (refresh r).summaryText = new.summaryText
  summaryText_pos : new.harness = .claudeCode → 0 < new.summaryText.length

namespace Upsert

variable {H γ : Type}

/-- The row the upsert's `SELECT` finds. -/
def prior (u : Upsert H) (db : AgenticDb H γ) : Option (AgenticDb.Prior H) :=
  db.prior? u.new.sessionId u.new.harness u.new.segmentIndex

/-- The rowid the upsert writes. -/
def target (u : Upsert H) (db : AgenticDb H γ) : ℕ :=
  match u.prior db with
  | none => db.sessions.nextRowid
  | some p => p.id

/-- `INSERT INTO agentic_sessions … ON CONFLICT … DO UPDATE SET …`. -/
def writeRow (u : Upsert H) (db : AgenticDb H γ) : AgenticDb H γ :=
  match u.prior db with
  | none => db.insertSession u.new
  | some p => db.modifySession p.id u.refresh

theorem writeRow_queue (u : Upsert H) (db : AgenticDb H γ) :
    (u.writeRow db).queue = db.queue := by
  unfold writeRow
  cases u.prior db <;> rfl

theorem writeRow_sessions_get? (u : Upsert H) (db : AgenticDb H γ) (j : ℕ) :
    (u.writeRow db).sessions.get? j =
      if j = u.target db then some (((db.sessions.get? j).map u.refresh).getD u.new)
      else db.sessions.get? j := by
  unfold writeRow target
  cases hp : u.prior db with
  | none =>
    simp only [AgenticDb.insertSession_get?]
    by_cases hj : j = db.sessions.nextRowid
    · rw [if_pos hj, if_pos hj, hj, Table.get?_nextRowid, Option.map_none, Option.getD_none]
    · rw [if_neg hj, if_neg hj]
  | some p =>
    obtain ⟨r, hr, -⟩ := AgenticDb.prior?_some hp
    simp only [AgenticDb.modifySession_get?]
    by_cases hj : j = p.id
    · rw [if_pos hj, if_pos hj, hj, hr, Option.map_some, Option.getD_some]
    · rw [if_neg hj, if_neg hj]

/-- The upsert only meets rows of its own source. -/
theorem target_harness {u : Upsert H} {db : AgenticDb H γ} {r : AgenticSession H}
    (hr : db.sessions.get? (u.target db) = some r) : r.harness = u.new.harness := by
  unfold target at hr
  cases hp : u.prior db with
  | none =>
    rw [hp] at hr
    simp at hr
  | some p =>
    rw [hp] at hr
    obtain ⟨r', hr', hh, -⟩ := AgenticDb.prior?_some hp
    rw [Option.some.inj (hr.symm.trans hr'), hh]

theorem target_mem_keys (u : Upsert H) (db : AgenticDb H γ) :
    u.target db ∈ (u.writeRow db).sessions.keys :=
  Table.mem_keys.mpr ⟨_, by rw [writeRow_sessions_get?, if_pos rfl]⟩

variable [DecidableEq H]

/-- A claude-code reparse whose unchanged content is already pending. -/
def alreadyPending (u : Upsert H) : Option (AgenticDb.Prior H) → Bool
  | none => false
  | some p =>
    u.keepsPending && p.contentHash = some u.contentHash && p.queueStatus = some .pending

def enqueues (u : Upsert H) (prior : Option (AgenticDb.Prior H)) : Bool :=
  !u.blank && !u.alreadyPending prior &&
    decideEnqueue prior.isNone u.contentHash
      (prior.bind fun p => p.lastEnrichedContentHash) (prior.bind fun p => p.queueStatus)

/-- Writes the segment row and, when the gate is open, its queue row. -/
def apply (u : Upsert H) (db : AgenticDb H γ) : AgenticDb H γ :=
  if u.enqueues (u.prior db) then (u.writeRow db).enqueue (u.target db) else u.writeRow db

theorem apply_store (u : Upsert H) (db : AgenticDb H γ) : (u.apply db).store = db.store := by
  have hw : (u.writeRow db).store = db.store := by
    unfold writeRow
    cases u.prior db <;> rfl
  unfold apply
  split
  · rw [AgenticDb.enqueue_store, hw]
  · exact hw

theorem apply_sessions_get? (u : Upsert H) (db : AgenticDb H γ) (j : ℕ) :
    (u.apply db).sessions.get? j =
      if j = u.target db then some (((db.sessions.get? j).map u.refresh).getD u.new)
      else db.sessions.get? j := by
  rw [← writeRow_sessions_get?]
  unfold apply
  split
  · rw [AgenticDb.enqueue_sessions]
  · rfl

theorem apply_queue_cases (u : Upsert H) (db : AgenticDb H γ) (j : ℕ) :
    (u.apply db).queue.get? j = db.queue.get? j ∨
      (j = u.target db ∧ u.enqueues (u.prior db) = true ∧
        db.queue.status? j ≠ some .processing ∧
        ∃ r, (u.apply db).queue.get? j = some r ∧ Queue.Repended (db.queue.get? j) r) := by
  unfold apply
  by_cases he : u.enqueues (u.prior db) = true
  · rw [if_pos he]
    rcases (u.writeRow db).enqueue_cases (u.target db) j with h | ⟨hj, hst, hr⟩
    · exact Or.inl (by rw [h, writeRow_queue])
    · rw [writeRow_queue] at hst hr
      exact Or.inr ⟨hj, he, hst, hr⟩
  · rw [if_neg he, writeRow_queue]
    exact Or.inl rfl

theorem apply_status?_target (u : Upsert H) (db : AgenticDb H γ)
    (he : u.enqueues (u.prior db) = true) : (u.apply db).queue.status? (u.target db) =
      some (if db.queue.status? (u.target db) = some .processing then .processing
        else .pending) := by
  rw [apply, if_pos he, AgenticDb.enqueue_status? _ (u.target_mem_keys db), writeRow_queue]

/-- A non-empty version the gate lets pass unqueued is pending already, held by a
worker, or the version the watermark names. -/
theorem of_not_enqueues {u : Upsert H} {db : AgenticDb H γ} (hb : u.blank = false)
    (he : u.enqueues (u.prior db) = false) : ∃ r, db.sessions.get? (u.target db) = some r ∧
      (db.queue.status? (u.target db) = some .pending ∨
        db.queue.status? (u.target db) = some .processing ∨
        r.lastEnrichedContentHash = some u.contentHash) := by
  unfold target
  cases hp : u.prior db with
  | none => simp [hp, enqueues, hb, alreadyPending, decideEnqueue] at he
  | some p =>
    obtain ⟨r, hr, -, -, hleh, hst⟩ := AgenticDb.prior?_some hp
    refine ⟨r, hr, ?_⟩
    rw [hp] at he
    simp only [← hst, ← hleh]
    by_cases ha : u.alreadyPending (some p) = true
    · simp only [alreadyPending, Bool.and_eq_true, decide_eq_true_eq] at ha
      exact Or.inl ha.2
    · simp only [enqueues, hb, ha, decideEnqueue] at he
      by_cases hproc : p.queueStatus = some .processing
      · exact Or.inr (Or.inl hproc)
      · by_cases hwm : p.lastEnrichedContentHash = some u.contentHash
        · exact Or.inr (Or.inr hwm)
        · simp [hproc, hwm] at he

end Upsert

section Sources
variable {H : Type}

/-- No prompt, no tool call and no assistant text. -/
def SessionSegment.isEmpty (seg : SessionSegment) : Bool :=
  seg.userPrompts.isEmpty && seg.toolCalls.isEmpty && seg.assistantTexts.isEmpty

/-- `compute_segment_content_hash` and its ports: the three hashed parts. -/
def SessionSegment.contentHash (env : Rendering H) (seg : SessionSegment) : H :=
  env.segmentHash seg.toolCalls seg.userPrompts ("
".intercalate seg.assistantTexts)

/-- `build_summary_text` of the Claude source. -/
def claudeSummaryText (env : Rendering H) (seg : SessionSegment) : String :=
  "Claude Code session segment (project: " ++ seg.cwd ++ ", branch: " ++
    seg.gitBranch.getD "unknown" ++ ")\n" ++
  (if 0 < seg.startTime ∧ 0 < seg.endTime then
    "Time: " ++ env.timeRange seg.startTime seg.endTime ++ "\n" else "") ++
  (if seg.userPrompts = [] then "" else
    "\nUser prompts:\n" ++ String.join (seg.userPrompts.map fun p => "- " ++ p ++ "\n")) ++
  (if seg.toolCalls = [] then "" else
    "\nTool calls (" ++ toString seg.toolCalls.length ++ "):\n" ++
      String.join (seg.toolCalls.map fun t => "- " ++ t.name ++ ": " ++ t.summary ++ "\n")) ++
  (if seg.assistantTexts = [] then "" else
    "\nAssistant reasoning:\n" ++ "\n\n".intercalate seg.assistantTexts ++ "\n")

theorem length_append_pos {s t : String} (h : 0 < s.length) : 0 < (s ++ t).length := by
  rw [String.length_append]
  exact Nat.add_pos_left h _

/-- The header line alone makes every Claude summary non-empty. -/
theorem claudeSummaryText_length_pos (env : Rendering H) (seg : SessionSegment) :
    0 < (claudeSummaryText env seg).length := by
  unfold claudeSummaryText
  iterate 8 apply length_append_pos
  decide

/-- The row an `INSERT` of a parsed segment writes. -/
def SessionSegment.row (env : Rendering H) (seg : SessionSegment) (harness : Harness)
    (summaryText : String) : AgenticSession H where
  sessionId := seg.sessionId
  harness := harness
  segmentIndex := seg.segmentIndex
  cwd := seg.cwd
  sourceFile := seg.sourceFile
  summaryText := summaryText
  toolCalls := seg.toolCalls
  userPrompts := seg.userPrompts
  messageCount := seg.messageCount
  startTime := seg.startTime
  endTime := seg.endTime
  contentHash := some (seg.contentHash env)

/-- The content columns that every reparse refreshes. -/
def SessionSegment.refreshContent (env : Rendering H) (seg : SessionSegment)
    (summaryText : String) (r : AgenticSession H) : AgenticSession H :=
  { r with
    endTime := seg.endTime
    summaryText := summaryText
    toolCalls := seg.toolCalls
    userPrompts := seg.userPrompts
    messageCount := seg.messageCount
    contentHash := some (seg.contentHash env) }

/-- Claude: identity columns stay, empty segments and unchanged pending ones do not
touch the queue. -/
def claudeUpsert (env : Rendering H) (seg : SessionSegment) : Upsert H where
  new := seg.row env .claudeCode (claudeSummaryText env seg)
  contentHash := seg.contentHash env
  refresh := seg.refreshContent env (claudeSummaryText env seg)
  blank := seg.isEmpty
  keepsPending := true
  new_contentHash := rfl
  new_watermark := rfl
  refresh_contentHash := fun _ => rfl
  refresh_watermark := fun _ => rfl
  refresh_harness := fun _ => rfl
  refresh_probeTag := fun _ => rfl
  refresh_summaryText := fun _ => rfl
  summaryText_pos := fun _ => claudeSummaryText_length_pos env seg

/-- Codex also refreshes `start_time`, `cwd` and `source_file`. -/
def codexUpsert (env : Rendering H) (seg : SessionSegment) : Upsert H where
  new := seg.row env .codex (env.summaryText .codex seg)
  contentHash := seg.contentHash env
  refresh := fun r =>
    { seg.refreshContent env (env.summaryText .codex seg) r with
      startTime := seg.startTime
      cwd := seg.cwd
      sourceFile := seg.sourceFile }
  blank := false
  keepsPending := false
  new_contentHash := rfl
  new_watermark := rfl
  refresh_contentHash := fun _ => rfl
  refresh_watermark := fun _ => rfl
  refresh_harness := fun _ => rfl
  refresh_probeTag := fun _ => rfl
  refresh_summaryText := fun _ => rfl
  summaryText_pos := fun h => nomatch h

/-- Cursor and Pi refresh `cwd`; their upserts are the same but for the harness. -/
def cwdUpsert (env : Rendering H) (harness : Harness) (hne : harness ≠ .claudeCode)
    (seg : SessionSegment) : Upsert H where
  new := seg.row env harness (env.summaryText harness seg)
  contentHash := seg.contentHash env
  refresh := fun r =>
    { seg.refreshContent env (env.summaryText harness seg) r with cwd := seg.cwd }
  blank := false
  keepsPending := false
  new_contentHash := rfl
  new_watermark := rfl
  refresh_contentHash := fun _ => rfl
  refresh_watermark := fun _ => rfl
  refresh_harness := fun _ => rfl
  refresh_probeTag := fun _ => rfl
  refresh_summaryText := fun _ => rfl
  summaryText_pos := fun h => absurd h hne

def cursorUpsert (env : Rendering H) (seg : SessionSegment) : Upsert H :=
  cwdUpsert env .cursor (by decide) seg

def piUpsert (env : Rendering H) (seg : SessionSegment) : Upsert H :=
  cwdUpsert env .pi (by decide) seg

/-- opencode has one row per session, whose diffs are the redacted JSON (`null` without one). -/
def opencodeUpsert (env : Rendering H) (s : OpencodeSession) : Upsert H where
  new :=
    { sessionId := s.id
      harness := .opencode
      segmentIndex := 0
      cwd := s.directory
      sourceFile := ""
      summaryText := env.opencodeSummaryText s
      snapshotDiffs := s.summaryDiffs.getD .null
      messageCount := s.messageCount
      startTime := s.timeCreated
      endTime := s.timeUpdated
      contentHash := some (env.opencodeHash s) }
  contentHash := env.opencodeHash s
  refresh := fun r =>
    { r with
      summaryText := env.opencodeSummaryText s
      snapshotDiffs := s.summaryDiffs.getD .null
      commitMessages := []
      messageCount := s.messageCount
      endTime := s.timeUpdated
      contentHash := some (env.opencodeHash s) }
  blank := false
  keepsPending := false
  new_contentHash := rfl
  new_watermark := rfl
  refresh_contentHash := fun _ => rfl
  refresh_watermark := fun _ => rfl
  refresh_harness := fun _ => rfl
  refresh_probeTag := fun _ => rfl
  refresh_summaryText := fun _ => rfl
  summaryText_pos := fun h => nomatch h

end Sources

namespace AgenticDb

variable {H γ : Type} [DecidableEq H]

/-- `insert_segments_with_facts`: one transaction over the segments of a file. -/
def insertSegmentsWithFacts (env : Rendering H) (db : AgenticDb H γ)
    (segments : List SessionSegment) : AgenticDb H γ :=
  segments.foldl (fun db seg => (claudeUpsert env seg).apply db) db

/-- The row the sweep's candidate `SELECT` admits. -/
def SettlingCandidate (db : AgenticDb H γ) (i : ℕ) (s : AgenticSession H) : Prop :=
  s.harness = .claudeCode ∧ s.probeTag = none ∧ s.contentHash ≠ none ∧
    (s.lastEnrichedContentHash = none ∨ s.contentHash ≠ s.lastEnrichedContentHash) ∧
    (s.toolCalls ≠ [] ∨ s.userPrompts ≠ [] ∨ 0 < s.summaryText.length) ∧
    (db.queue.status? i = none ∨ db.queue.status? i = some .done ∨
      db.queue.status? i = some .failed)

instance (db : AgenticDb H γ) (i : ℕ) (s : AgenticSession H) :
    Decidable (db.SettlingCandidate i s) := by
  unfold SettlingCandidate
  infer_instance

/-- The sweep's `SELECT id, source_file … ORDER BY end_time LIMIT 4 * max_per_tick`. -/
def settlingCandidates (db : AgenticDb H γ) (maxPerTick : ℕ) : List (ℕ × String) :=
  (limitTo (some (maxPerTick * 4)) (orderBy (fun e => e.2.endTime)
    (db.sessions.select db.SettlingCandidate))).map fun e => (e.1, e.2.sourceFile)

/-- The sweep's transaction over its candidates. `mtime` is the file system: `none`
for a file that cannot be read. Only rows the upsert changed count as enqueued. -/
def settle (maxPerTick : ℕ) (mtime : String → Option ℤ) (cutoff : ℤ) :
    List (ℕ × String) → ℕ → AgenticDb H γ → AgenticDb H γ
  | [], _, db => db
  | (i, file) :: rest, enqueued, db =>
    if maxPerTick ≤ enqueued then db
    else match mtime file with
      | none => settle maxPerTick mtime cutoff rest enqueued db
      | some modified =>
        if cutoff < modified then settle maxPerTick mtime cutoff rest enqueued db
        else
          let changed := db.queue.status? i ≠ some .processing
          settle maxPerTick mtime cutoff rest (enqueued + if changed then 1 else 0)
            (db.enqueue i)

omit [DecidableEq H] in
@[simp] theorem settle_sessions (n : ℕ) (mtime : String → Option ℤ) (cutoff : ℤ)
    (cands : List (ℕ × String)) (m : ℕ) (db : AgenticDb H γ) :
    (settle n mtime cutoff cands m db).sessions = db.sessions := by
  fun_induction settle n mtime cutoff cands m db <;> simp_all

omit [DecidableEq H] in
@[simp] theorem settle_store (n : ℕ) (mtime : String → Option ℤ) (cutoff : ℤ)
    (cands : List (ℕ × String)) (m : ℕ) (db : AgenticDb H γ) :
    (settle n mtime cutoff cands m db).store = db.store := by
  fun_induction settle n mtime cutoff cands m db <;> simp_all

omit [DecidableEq H] in
/-- A sweep re-pends rows no worker holds and leaves the others. -/
theorem settle_queue_cases (n : ℕ) (mtime : String → Option ℤ) (cutoff : ℤ)
    (cands : List (ℕ × String)) (m : ℕ) (db : AgenticDb H γ) (j : ℕ) :
    (settle n mtime cutoff cands m db).queue.get? j = db.queue.get? j ∨
      (j ∈ cands.map Prod.fst ∧ db.queue.status? j ≠ some .processing ∧
        ∃ r, (settle n mtime cutoff cands m db).queue.get? j = some r ∧
          Queue.Repended (db.queue.get? j) r) := by
  fun_induction settle n mtime cutoff cands m db with
  | case1 m db => exact Or.inl rfl
  | case2 i file rest m db hfull => exact Or.inl rfl
  | case3 i file rest m db hroom hfile ih =>
    exact ih.imp_right fun h => ⟨List.mem_cons_of_mem _ h.1, h.2⟩
  | case4 i file rest m db hroom modified hfile hfresh ih =>
    exact ih.imp_right fun h => ⟨List.mem_cons_of_mem _ h.1, h.2⟩
  | case5 i file rest m db hroom modified hfile hsettled changed ih =>
    rcases db.enqueue_cases i j with he | ⟨hj, hst, r, hr, hrep⟩
    · simp only [Queue.status?, he] at ih
      exact ih.imp_right fun h => ⟨List.mem_cons_of_mem _ h.1, h.2⟩
    · refine Or.inr ⟨by simp [hj], hst, ?_⟩
      rcases ih with hsame | ⟨-, -, r', hr', hrep'⟩
      · exact ⟨r, by rw [hsame, hr], hrep⟩
      · rw [hr] at hrep'
        exact ⟨r', hr', hrep'.1, hrep'.2.1, hrep'.2.2.trans hrep.2.2⟩

omit [DecidableEq H] in
/-- With every file settled, the first candidate of a tick ends up pending. -/
theorem settle_head_pending {n : ℕ} {mtime : String → Option ℤ} {cutoff : ℤ} {i : ℕ}
    {file : String} {rest : List (ℕ × String)} {db : AgenticDb H γ} (hn : 0 < n)
    (hfile : ∀ f, ∃ t, mtime f = some t ∧ t ≤ cutoff) (hi : i ∈ db.sessions.keys)
    (hst : db.queue.status? i ≠ some .processing) :
    (settle n mtime cutoff ((i, file) :: rest) 0 db).queue.status? i = some .pending := by
  obtain ⟨t, ht, hle⟩ := hfile file
  have hhead : (db.enqueue i).queue.status? i = some .pending := by
    rw [enqueue_status? db hi, if_neg hst]
  simp only [settle, Nat.not_le.mpr hn, if_false, ht, not_lt.mpr hle]
  rcases settle_queue_cases n mtime cutoff rest _ (db.enqueue i) i with h | ⟨-, -, h⟩
  · rw [Queue.status?, h]
    exact hhead
  · exact Queue.status?_of_repended h

theorem mem_settlingCandidates {db : AgenticDb H γ} {n i : ℕ} {file : String}
    (h : (i, file) ∈ db.settlingCandidates n) :
    ∃ s, db.sessions.get? i = some s ∧ db.SettlingCandidate i s := by
  obtain ⟨⟨_, s⟩, hs, heq⟩ := List.mem_map.mp h
  cases heq
  have hrow := mem_of_mem_limitTo hs
  rw [mem_orderBy, Table.mem_select] at hrow
  exact ⟨s, hrow⟩

end AgenticDb

end Hippo
