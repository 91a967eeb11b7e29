import Hippo.EventIngest
import Hippo.KnowledgeStore

/-!
# Enrichment of shell events

The `events` table with its queue, and what the brain does to them: the claim's lock
and its skip of trivial commands, the chunks it hands out, the node writer and the
failure report.
-/
namespace Hippo

/-- What Python's Unicode tables decide: `str.isalnum` of one character and `repr`. -/
structure PyText where
  isAlnum : Char → Bool
  repr : String → String

namespace PyText

/-- `str.isspace` of one character. -/
def isSpace (c : Char) : Bool :=
  let n := c.toNat
  (9 ≤ n ∧ n ≤ 13) ∨ (28 ≤ n ∧ n ≤ 32) ∨ n = 0x85 ∨ n = 0xA0 ∨ n = 0x1680 ∨
    (0x2000 ≤ n ∧ n ≤ 0x200A) ∨ n = 0x2028 ∨ n = 0x2029 ∨ n = 0x202F ∨ n = 0x205F ∨ n = 0x3000

/-- `str.strip()`. -/
def strip (s : String) : String :=
  let front := s.toList.dropWhile isSpace
  String.ofList (front.reverse.dropWhile isSpace).reverse

/-- The class `[\w/.\-]` of the trivial-command pattern. -/
def isPathChar (text : PyText) (c : Char) : Bool :=
  text.isAlnum c ∨ c ∈ ['_', '/', '.', '-']

/-- `^exec\s+[\w/.\-]+$` on a stripped command. No path character is a space, so the
spaces end where the path begins. -/
def matchesExec (text : PyText) (command : String) : Bool :=
  match command.toList with
  | 'e' :: 'x' :: 'e' :: 'c' :: rest =>
    let path := rest.dropWhile isSpace
    path ≠ [] ∧ path.length < rest.length ∧ path.all text.isPathChar
  | _ => false

end PyText

/-- `_TRIVIAL_SHELL_COMMANDS`. -/
def trivialShellCommands : List String :=
  ["", "clear", "exit", "exec zsh", "exec bash", "exec fish", "exec sh", "true", ":"]

/-- `_SHELL_TRIVIAL_DURATION_MS`. -/
def shellTrivialDurationMs : ℤ := 100

/-- The gap that starts a new chunk. -/
def timeGapMs : ℤ := 60000

namespace ShellEvent

/-- The `shell` branch of `is_enrichment_eligible`. -/
def isEnrichmentEligible (text : PyText) (e : ShellEvent) : Bool × String :=
  let command := PyText.strip e.command
  let trivialCmd := command ∈ trivialShellCommands ∨ text.matchesExec command = true
  if trivialCmd ∧ e.stdout.getD "" = "" ∧ e.stderr.getD "" = "" ∧
      e.durationMs < shellTrivialDurationMs then
    (false, "trivial shell command (" ++ text.repr command ++ ") with no output and " ++
      toString e.durationMs ++ "ms duration")
  else (true, "eligible")

/-- The eligibility does not depend on what enrichment changes. -/
@[simp] theorem isEnrichmentEligible_enriched (text : PyText) (e : ShellEvent) (b : Bool) :
    { e with enriched := b }.isEnrichmentEligible text = e.isEnrichmentEligible text := rfl

end ShellEvent

/-- A claimed event: its id and the row that was read. -/
abbrev ClaimedEvent := ℕ × ShellEvent

section Chunks

/-- The loop of `_chunk_events`: finished chunks, the one being filled, the events left. -/
def chunkLoop (maxSize : ℕ) :
    List (List ClaimedEvent) → List ClaimedEvent → List ClaimedEvent → List (List ClaimedEvent)
  | chunks, current, [] => if current = [] then chunks else chunks ++ [current]
  | chunks, current, ev :: rest =>
    let prevTs := (current.getLast?.map fun e => e.2.timestamp).getD 0
    let gap := ev.2.timestamp - prevTs
    if timeGapMs < gap ∨ maxSize ≤ current.length then
      chunkLoop maxSize (chunks ++ [current]) [ev] rest
    else chunkLoop maxSize chunks (current ++ [ev]) rest

/-- `_chunk_events`; the claim never calls it without events. -/
def chunkEvents (events : List ClaimedEvent) (maxSize : ℕ) : List (List ClaimedEvent) :=
  if events.length ≤ maxSize then [events]
  else chunkLoop maxSize [] (events.take 1) (events.drop 1)

theorem chunkLoop_flatten (maxSize : ℕ) (chunks : List (List ClaimedEvent))
    (current rest : List ClaimedEvent) :
    (chunkLoop maxSize chunks current rest).flatten = chunks.flatten ++ current ++ rest := by
  induction rest generalizing chunks current with
  | nil =>
    unfold chunkLoop
    split
    · rename_i hempty
      rw [hempty, List.append_nil, List.append_nil]
    · rw [List.flatten_append, List.flatten_singleton, List.append_nil]
  | cons ev rest ih =>
    unfold chunkLoop
    dsimp only
    split
    · rw [ih, List.flatten_append, List.flatten_singleton]
      simp only [List.append_assoc, List.singleton_append]
    · rw [ih]
      simp only [List.append_assoc, List.singleton_append]

/-- Chunking loses no event, adds none and keeps their order. -/
theorem chunkEvents_flatten (events : List ClaimedEvent) (maxSize : ℕ) :
    (chunkEvents events maxSize).flatten = events := by
  unfold chunkEvents
  split
  · exact List.flatten_singleton
  · rw [chunkLoop_flatten, List.flatten_nil, List.nil_append]
    exact List.take_append_drop 1 events

example : chunkEvents [(1, ⟨1, 0, "a", none, none, 5, none, none, false⟩),
    (2, ⟨1, 70000, "b", none, none, 5, none, none, false⟩)] 1 =
  [[(1, ⟨1, 0, "a", none, none, 5, none, none, false⟩)],
    [(2, ⟨1, 70000, "b", none, none, 5, none, none, false⟩)]] := by decide

end Chunks

/-- The event tables with the knowledge store. -/
structure ShellDb (γ : Type) extends EventTables ShellEvent where
  store : KnowledgeStore γ

namespace ShellDb

variable {γ : Type}

def empty : ShellDb γ := ⟨EventTables.empty, KnowledgeStore.empty⟩

/-- `UPDATE enrichment_queue SET f WHERE p`. -/
def updateQueue (db : ShellDb γ) (p : ℕ → QueueRow → Prop) [∀ k r, Decidable (p k r)]
    (f : QueueRow → QueueRow) : ShellDb γ where
  events := db.events
  queue := db.queue.update p f
  store := db.store
  fk := by simpa only [Table.update, Table.keys_mapRows] using db.fk

/-- `UPDATE events SET enriched = 1 WHERE id IN ids`. -/
def markEnriched (db : ShellDb γ) (ids : List ℕ) : ShellDb γ where
  events := db.events.update (fun i _ => i ∈ ids) fun e => { e with enriched := true }
  queue := db.queue
  store := db.store
  fk := by simpa only [Table.update, Table.keys_mapRows] using db.fk

/-- The daemon's insert of a shell event. -/
def insertEvent (db : ShellDb γ) (e : ShellEvent) : ShellDb γ :=
  ⟨insertEventAt db.toEventTables e, db.store⟩

/-- The queue row's event is not a probe and belongs to the session. -/
def InSession (db : ShellDb γ) (session i : ℕ) : Prop :=
  ∃ e ∈ db.events.get? i, e.sessionId = session ∧ e.probeTag = none

instance (db : ShellDb γ) (session i : ℕ) : Decidable (db.InSession session i) := by
  unfold InSession
  infer_instance

/-- The joined rows of the claim's first `SELECT`: claimable, and not a probe. -/
def claimableEvents (db : ShellDb γ) (staleLockMs : ℤ) : List ClaimedEvent :=
  db.events.select fun i e =>
    e.probeTag = none ∧ ∃ q ∈ db.queue.get? i, q.Claimable staleLockMs

/-- The sessions a claim goes through: those whose claimable events are all older than the
threshold, by their first event. -/
def claimSessions (db : ShellDb γ) (staleLockMs staleThresholdMs : ℤ) : List ℕ :=
  let rows := db.claimableEvents staleLockMs
  let of := fun session => rows.filter fun e => e.2.sessionId = session
  let first := fun session =>
    ((of session).map fun e => e.2.timestamp).foldr min (((of session).head?.map fun e =>
      e.2.timestamp).getD 0)
  orderBy first ((rows.map fun e => e.2.sessionId).dedup.filter fun session =>
    ∀ e ∈ of session, e.2.timestamp < staleThresholdMs)

/-- The subselect of the lock `UPDATE` of one session. -/
def claimCandidates (db : ShellDb γ) (session : ℕ) (staleLockMs : ℤ) (limit : Option ℕ) :
    List ℕ :=
  let rows := db.queue.select fun i q => q.Claimable staleLockMs ∧ db.InSession session i
  let ts := fun e : ℕ × QueueRow => ((db.events.get? e.1).map ShellEvent.timestamp).getD 0
  (limitTo limit (orderBy ts (orderBy (fun e => (e.2.id : ℤ)) rows))).map Prod.fst

def lockEvents (db : ShellDb γ) (ids : List ℕ) (now : ℤ) (worker : String) : ShellDb γ :=
  db.updateQueue (fun i _ => i ∈ ids) (QueueRow.lock now worker)

/-- The `SELECT` of the locked events. -/
def selectClaimed (db : ShellDb γ) (ids : List ℕ) : List ClaimedEvent :=
  orderBy (fun e => e.2.timestamp) (orderBy (fun e => (e.1 : ℤ))
    (db.events.select fun i e => i ∈ ids ∧ e.probeTag = none))

/-- Marks one ineligible event skipped. -/
def skipEvent (db : ShellDb γ) (i : ℕ) (reason : String) : ShellDb γ :=
  (db.updateQueue (fun j _ => j = i) (QueueRow.skip reason)).markEnriched [i]

/-- `_skip_ineligible_shell_events`: the tables after it and the eligible events. -/
def skipIneligible (text : PyText) (db : ShellDb γ) (events : List ClaimedEvent) :
    ShellDb γ × List ClaimedEvent :=
  (events.foldl (fun d e => match e.2.isEnrichmentEligible text with
    | (true, _) => d
    | (false, reason) => d.skipEvent e.1 reason) db,
   events.filter fun e => (e.2.isEnrichmentEligible text).1)

/-- `write_knowledge_node`: one observation for the chunk, linked to its events and to the
browser events shown with them. Neither lock nor status is read. -/
def writeKnowledgeNode (db : ShellDb γ) (content : γ) (eventIds browserEventIds : List ℕ) :
    ShellDb γ :=
  let linked := db.store.insertLinked ⟨.observation, content⟩ .events eventIds
  let store := linked.addLinks db.store.nodes.nextRowid
    (db.store.nextRowid_mem_insertLinked _ _ _) .browserEvents browserEventIds
  { (db.markEnriched eventIds).updateQueue (fun i _ => i ∈ eventIds) QueueRow.markDone with
    store := store }

/-- `mark_queue_failed`: one `UPDATE` for each event. -/
def markQueueFailed (db : ShellDb γ) (eventIds : List ℕ) (error : String) : ShellDb γ :=
  eventIds.foldl (fun d i => d.updateQueue (fun j _ => j = i) (QueueRow.chargeRetry error)) db

/-- `reap_stale_locks` on the event queue. -/
def reapStaleLocks (db : ShellDb γ) (timeout now : ℤ) : ShellDb γ :=
  db.updateQueue (fun _ r => r.status = .processing ∧ r.lockedBefore (now - timeout))
    (QueueRow.chargeRetry (Queue.reapReason timeout))

section Specifications

theorem updateQueue_get? (db : ShellDb γ) (p : ℕ → QueueRow → Prop) [∀ k r, Decidable (p k r)]
    (f : QueueRow → QueueRow) (j : ℕ) : (db.updateQueue p f).queue.get? j =
      (db.queue.get? j).map fun r => if p j r then f r else r :=
  Table.get?_update _ _ _ _

theorem markEnriched_events_get? (db : ShellDb γ) (ids : List ℕ) (j : ℕ) :
    (db.markEnriched ids).events.get? j = (db.events.get? j).map fun e =>
      if j ∈ ids then { e with enriched := true } else e :=
  Table.get?_update _ _ _ _

theorem lockEvents_queue_get? (db : ShellDb γ) (ids : List ℕ) (now : ℤ) (worker : String)
    (j : ℕ) : (db.lockEvents ids now worker).queue.get? j =
      (db.queue.get? j).map fun q => if j ∈ ids then q.lock now worker else q :=
  updateQueue_get? _ _ _ _

theorem skipEvent_queue_get? (db : ShellDb γ) (i : ℕ) (reason : String) (j : ℕ) :
    (db.skipEvent i reason).queue.get? j =
      (db.queue.get? j).map fun q => if j = i then q.skip reason else q :=
  updateQueue_get? _ _ _ _

theorem skipEvent_events_get? (db : ShellDb γ) (i : ℕ) (reason : String) (j : ℕ) :
    (db.skipEvent i reason).events.get? j = (db.events.get? j).map fun e =>
      if j ∈ [i] then { e with enriched := true } else e :=
  markEnriched_events_get? _ _ _

theorem writeKnowledgeNode_queue_get? (db : ShellDb γ) (content : γ)
    (ids browserIds : List ℕ) (j : ℕ) :
    (db.writeKnowledgeNode content ids browserIds).queue.get? j =
      (db.queue.get? j).map fun q => if j ∈ ids then q.markDone else q :=
  updateQueue_get? _ _ _ _

theorem writeKnowledgeNode_events_get? (db : ShellDb γ) (content : γ)
    (ids browserIds : List ℕ) (j : ℕ) :
    (db.writeKnowledgeNode content ids browserIds).events.get? j =
      (db.events.get? j).map fun e => if j ∈ ids then { e with enriched := true } else e :=
  markEnriched_events_get? _ _ _

/-- The writer links its own new node to its events, and nothing else. -/
theorem linkedTo_writeKnowledgeNode {db : ShellDb γ} {content : γ} {ids browserIds : List ℕ}
    {i n : ℕ} :
    (db.writeKnowledgeNode content ids browserIds).store.LinkedTo .events .observation i n ↔
      db.store.LinkedTo .events .observation i n ∨
        (n = db.store.nodes.nextRowid ∧ i ∈ ids) := by
  have hne : LinkTable.events ≠ LinkTable.browserEvents := by decide
  have hlinks : (db.writeKnowledgeNode content ids browserIds).store.LinkedTo .events
      .observation i n ↔
        (db.store.insertLinked ⟨.observation, content⟩ .events ids).LinkedTo .events
          .observation i n :=
    KnowledgeStore.linkedTo_addLinks_of_ne (db.store.nextRowid_mem_insertLinked _ _ _) hne
  rw [hlinks, KnowledgeStore.linkedTo_insertLinked]
  simp only [true_and]

/-- After a failure report the rows of its events are charged, some of them more than once
if an event is listed more than once; the other rows are as before. -/
theorem markQueueFailed_queue_cases (db : ShellDb γ) (ids : List ℕ) (error : String) (j : ℕ) :
    (j ∉ ids ∧ (db.markQueueFailed ids error).queue.get? j = db.queue.get? j) ∨
      (j ∈ ids ∧ ∀ q ∈ db.queue.get? j, ∃ q' : QueueRow,
        (db.markQueueFailed ids error).queue.get? j = some (q'.chargeRetry error)) := by
  induction ids generalizing db with
  | nil => exact Or.inl ⟨List.not_mem_nil, rfl⟩
  | cons i ids ih =>
    have hrow := updateQueue_get? db (fun k _ => k = i) (QueueRow.chargeRetry error) j
    rcases ih (db.updateQueue (fun k _ => k = i) (QueueRow.chargeRetry error))
      with ⟨hmem, hget⟩ | ⟨hmem, hget⟩
    · by_cases hj : j = i
      · refine Or.inr ⟨hj ▸ List.mem_cons_self, fun q hq => ⟨q, hget.trans ?_⟩⟩
        rw [hrow, Option.mem_def.mp hq, Option.map_some, if_pos hj]
      · refine Or.inl ⟨fun h => ?_, hget.trans ?_⟩
        · rcases List.mem_cons.mp h with h | h
          · exact hj h
          · exact hmem h
        · rw [hrow]
          simp only [hj, if_false, Option.map_id']
    · refine Or.inr ⟨List.mem_cons_of_mem i hmem, fun q hq => ?_⟩
      rw [Option.mem_def.mp hq, Option.map_some] at hrow
      exact hget _ hrow

theorem markQueueFailed_events (db : ShellDb γ) (ids : List ℕ) (error : String) :
    (db.markQueueFailed ids error).events = db.events := by
  induction ids generalizing db with
  | nil => rfl
  | cons i ids ih => exact ih _

theorem markQueueFailed_store (db : ShellDb γ) (ids : List ℕ) (error : String) :
    (db.markQueueFailed ids error).store = db.store := by
  induction ids generalizing db with
  | nil => rfl
  | cons i ids ih => exact ih _

theorem reapStaleLocks_queue_get? (db : ShellDb γ) (timeout now : ℤ) (j : ℕ) :
    (db.reapStaleLocks timeout now).queue.get? j = (db.queue.get? j).map fun q =>
      if q.status = .processing ∧ q.lockedBefore (now - timeout) then
        q.chargeRetry (Queue.reapReason timeout) else q :=
  updateQueue_get? _ _ _ _

theorem mem_claimCandidates {db : ShellDb γ} {session : ℕ} {staleLockMs : ℤ}
    {limit : Option ℕ} {i : ℕ} (h : i ∈ db.claimCandidates session staleLockMs limit) :
    ∃ q, db.queue.get? i = some q ∧ q.Claimable staleLockMs := by
  obtain ⟨⟨_, q⟩, hq, rfl⟩ := List.mem_map.mp h
  have hrow := mem_of_mem_limitTo hq
  rw [mem_orderBy, mem_orderBy, Table.mem_select] at hrow
  exact ⟨q, hrow.1, hrow.2.1⟩

theorem mem_selectClaimed {db : ShellDb γ} {ids : List ℕ} {i : ℕ} {e : ShellEvent} :
    (i, e) ∈ db.selectClaimed ids ↔
      db.events.get? i = some e ∧ i ∈ ids ∧ e.probeTag = none := by
  unfold selectClaimed
  rw [mem_orderBy, mem_orderBy, Table.mem_select]

/-- An inserted event has a new row and a new queue row, or changes nothing. -/
theorem insertEvent_cases (db : ShellDb γ) (e : ShellEvent) :
    db.insertEvent e = db ∨ ((∀ j, (db.insertEvent e).events.get? j =
        if j = db.events.nextRowid then some e else db.events.get? j) ∧
      db.queue.get? db.events.nextRowid = none ∧
      ∀ j, (db.insertEvent e).queue.get? j =
        if j = db.events.nextRowid ∧ e.probeTag = none then some { id := db.queue.nextId }
        else db.queue.get? j) := by
  rcases db.toEventTables.insertOnce_cases ShellEvent.envelopeId ShellEvent.probeTag e with
    ⟨heq, -⟩ | ⟨-, hnew⟩
  · exact Or.inl (congrArg (ShellDb.mk · db.store) heq)
  · exact Or.inr hnew

end Specifications

section Skips
variable {text : PyText}

/-- The skip touches only rows of events that are not eligible. -/
theorem skipIneligible_queue_get? (db : ShellDb γ) (events : List ClaimedEvent) (j : ℕ)
    (hj : ∀ e, (j, e) ∈ events → (e.isEnrichmentEligible text).1 = true) :
    (skipIneligible text db events).1.queue.get? j = db.queue.get? j := by
  unfold skipIneligible
  dsimp only
  induction events generalizing db with
  | nil => rfl
  | cons ev events ih =>
    have htail : ∀ e, (j, e) ∈ events → (e.isEnrichmentEligible text).1 = true :=
      fun e he => hj e (List.mem_cons_of_mem ev he)
    rw [List.foldl_cons, ih _ htail]
    split
    · rfl
    · rename_i reason hskip
      have hne : j ≠ ev.1 := by
        intro h
        have helig := hj ev.2 (h ▸ List.mem_cons_self)
        rw [hskip] at helig
        cases helig
      rw [skipEvent_queue_get?]
      simp only [hne, if_false, Option.map_id']

theorem skipIneligible_store (db : ShellDb γ) (events : List ClaimedEvent) :
    (skipIneligible text db events).1.store = db.store := by
  unfold skipIneligible
  dsimp only
  induction events generalizing db with
  | nil => rfl
  | cons ev events ih =>
    rw [List.foldl_cons, ih]
    split <;> rfl

/-- No queue row disappears and no done row appears; an event keeps what was captured. -/
theorem skipIneligible_keeps (db : ShellDb γ) (events : List ClaimedEvent) (j : ℕ) :
    ((db.queue.get? j).isSome → ((skipIneligible text db events).1.queue.get? j).isSome) ∧
    ((skipIneligible text db events).1.queue.status? j = some .done →
      db.queue.status? j = some .done) ∧
    ∀ e ∈ db.events.get? j, ∃ b,
      (skipIneligible text db events).1.events.get? j = some { e with enriched := b } := by
  unfold skipIneligible
  dsimp only
  induction events generalizing db with
  | nil => exact ⟨id, id, fun e he => ⟨e.enriched, he⟩⟩
  | cons ev events ih =>
    rw [List.foldl_cons]
    split
    · exact ih db
    · rename_i reason hskip
      obtain ⟨hsome, hdone, hevent⟩ := ih (db.skipEvent ev.1 reason)
      refine ⟨fun h => hsome ?_, fun h => ?_, fun e he => ?_⟩
      · rw [skipEvent_queue_get?, Option.isSome_map]
        exact h
      · have hmid := hdone h
        rw [Queue.status?, skipEvent_queue_get?] at hmid
        rw [Queue.status?]
        cases hq : db.queue.get? j with
        | none =>
          rw [hq] at hmid
          cases hmid
        | some q =>
          rw [hq, Option.map_some, Option.map_some] at hmid
          by_cases hj : j = ev.1
          · rw [if_pos hj] at hmid
            cases hmid
          · rwa [if_neg hj] at hmid
      · have hmid := skipEvent_events_get? db ev.1 reason j
        rw [Option.mem_def.mp he, Option.map_some] at hmid
        by_cases hj : j ∈ [ev.1]
        · rw [if_pos hj] at hmid
          exact hevent { e with enriched := true } hmid
        · rw [if_neg hj] at hmid
          exact hevent e hmid

end Skips

end ShellDb

end Hippo
