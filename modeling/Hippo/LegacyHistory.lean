import Hippo.LegacyBackfill

/-!
# What the backfill preserves

Every legacy session gets exactly one agentic row, and its links and open queue rows follow it
there. Nothing in the agentic family changes, and a second backfill adds nothing.
-/
namespace Hippo.Migration

/-- The agentic row of a legacy session: same session and segment, and the derived harness. -/
structure IsCounterpart (sessions : AgenticSessions) (c : ClaudeSession) (i : ℕ)
    (r : AgenticSessionRow) : Prop where
  row : sessions.rows.get? i = some r
  sessionId : r.sessionId = c.sessionId
  harness : r.harness = harnessOf c.sourceFile
  segmentIndex : r.segmentIndex = c.segmentIndex

section Counterparts

variable {sessions : AgenticSessions} {legacy : LegacyFamily} {c c' : ClaudeSession} {i j : ℕ}
  {r s : AgenticSessionRow}

theorem IsCounterpart.key (h : IsCounterpart sessions c i r) : r.key = (agenticRowOf c).key :=
  Prod.ext h.sessionId (Prod.ext h.harness h.segmentIndex)

theorem isCounterpart_of_key (hr : sessions.rows.get? i = some r)
    (hkey : r.key = (agenticRowOf c).key) : IsCounterpart sessions c i r where
  row := hr
  sessionId := congrArg Prod.fst hkey
  harness := congrArg (fun k => k.2.1) hkey
  segmentIndex := congrArg (fun k => k.2.2) hkey

theorem IsCounterpart.unique (h : IsCounterpart sessions c i r) (h' : IsCounterpart sessions c j s) :
    i = j :=
  sessions.unique i j r s h.row h'.row (h.key.trans h'.key.symm)

theorem counterpart?_eq_some :
    counterpart? sessions c = some i ↔ ∃ r, IsCounterpart sessions c i r := by
  rw [counterpart?, IndexedTable.rowid?_eq_some]
  constructor
  · rintro ⟨r, hr, hkey⟩
    exact ⟨r, isCounterpart_of_key hr hkey⟩
  · rintro ⟨r, h⟩
    exact ⟨r, h.row, h.key⟩

/-- Two legacy sessions have different agentic rows. -/
theorem IsCounterpart.legacy_unique {id id' : ℕ} (hc : legacy.sessions.rows.get? id = some c)
    (hc' : legacy.sessions.rows.get? id' = some c') (h : IsCounterpart sessions c i r)
    (h' : IsCounterpart sessions c' i s) : id = id' ∧ c = c' := by
  obtain rfl : r = s := Option.some.inj (h.row.symm.trans h'.row)
  have hkey : c.key = c'.key :=
    Prod.ext (h.sessionId.symm.trans h'.sessionId) (h.segmentIndex.symm.trans h'.segmentIndex)
  obtain rfl := legacy.sessions.unique id id' c c' hc hc' hkey
  exact ⟨rfl, Option.some.inj (hc.symm.trans hc')⟩

end Counterparts

section Selections

variable {legacy : LegacyFamily} {sessions : AgenticSessions} {nodes : List ℕ} {node i : ℕ}
  {r : AgenticSessionRow} {x : AgenticQueueRow}

theorem mem_selectSessions :
    r ∈ selectSessions legacy ↔
      ∃ id c, legacy.sessions.rows.get? id = some c ∧ r = agenticRowOf c := by
  simp only [selectSessions, List.mem_map, Table.get?_eq_some]
  constructor
  · rintro ⟨e, he, rfl⟩
    exact ⟨e.1, e.2, he, rfl⟩
  · rintro ⟨id, c, hc, rfl⟩
    exact ⟨(id, c), hc, rfl⟩

theorem mem_selectLinks :
    ((node, i), ()) ∈ selectLinks legacy nodes sessions ↔
      ∃ id c, (node, id) ∈ legacy.links.keys ∧ node ∈ nodes ∧
        legacy.sessions.rows.get? id = some c ∧ ∃ r, IsCounterpart sessions c i r := by
  simp only [selectLinks, List.mem_filterMap, Option.bind_eq_bind, Option.bind_eq_some_iff,
    ← counterpart?_eq_some]
  constructor
  · rintro ⟨e, he, c, hc, j, hj, hrow⟩
    split at hrow
    next hmem =>
      cases hrow
      exact ⟨e.1.2, c, List.mem_map.mpr ⟨e, he, rfl⟩, hmem, hc, hj⟩
    next => cases hrow
  · rintro ⟨id, c, hlink, hmem, hc, hi⟩
    obtain ⟨⟨⟨n, id'⟩, u⟩, he, hpair⟩ := List.mem_map.mp hlink
    obtain ⟨rfl, rfl⟩ := Prod.mk.inj hpair
    exact ⟨_, he, c, hc, i, hi, if_pos hmem⟩

theorem mem_selectQueue :
    (i, x) ∈ selectQueue legacy sessions ↔
      ∃ id q c r, legacy.queue.get? id = some q ∧ unterminal q = true ∧
        legacy.sessions.rows.get? id = some c ∧ IsCounterpart sessions c i r ∧ r.enriched = 0 ∧
          x = agenticQueueRowOf q := by
  simp only [selectQueue, List.mem_filterMap, Option.bind_eq_bind, Option.bind_eq_some_iff]
  constructor
  · rintro ⟨e, he, c, hc, j, hj, a, ha, hrow⟩
    split at hrow
    next hopen =>
      cases hrow
      obtain ⟨r, hr⟩ := counterpart?_eq_some.mp hj
      obtain rfl : a = r := Option.some.inj (ha.symm.trans hr.row)
      exact ⟨e.1, e.2, c, a, Table.get?_eq_some.mpr he, hopen.1, hc, hr, hopen.2, rfl⟩
    next => cases hrow
  · rintro ⟨id, q, c, r, hq, hopen, hc, hr, henriched, rfl⟩
    exact ⟨(id, q), Table.get?_eq_some.mp hq, c, hc, i, counterpart?_eq_some.mpr ⟨r, hr⟩, r, hr.row,
      if_pos ⟨hopen, henriched⟩⟩

end Selections

/-- What holds between the agentic families before and after the backfill. -/
structure HistoryPreserved (legacy : LegacyFamily) (old new : AgenticFamily) : Prop where
  counterpart : ∀ id c, legacy.sessions.rows.get? id = some c →
    ∃! i, ∃ r, IsCounterpart new.sessions c i r
  content : ∀ id c i r, legacy.sessions.rows.get? id = some c → IsCounterpart new.sessions c i r →
    (¬ ∃ j s, IsCounterpart old.sessions c j s) → r = agenticRowOf c
  links : ∀ node i, (node, i) ∈ new.links.keys ↔ (node, i) ∈ old.links.keys ∨
    ∃ id c, (node, id) ∈ legacy.links.keys ∧ node ∈ old.nodes ∧
      legacy.sessions.rows.get? id = some c ∧ ∃ r, IsCounterpart new.sessions c i r
  queued : ∀ id q c i r, legacy.queue.get? id = some q → unterminal q = true →
    legacy.sessions.rows.get? id = some c → IsCounterpart new.sessions c i r → r.enriched = 0 →
      new.queue.get? i = some ((old.queue.get? i).getD (agenticQueueRowOf q))
  keptNodes : new.nodes = old.nodes
  keptSessions : ∀ i r, old.sessions.rows.get? i = some r → new.sessions.rows.get? i = some r
  keptQueue : ∀ i x, old.queue.get? i = some x → new.queue.get? i = some x
  onlyLegacySessions : ∀ i r, new.sessions.rows.get? i = some r →
    old.sessions.rows.get? i = some r ∨
      ∃ id c, legacy.sessions.rows.get? id = some c ∧ r = agenticRowOf c
  onlyLegacyQueue : ∀ i x, new.queue.get? i = some x → old.queue.get? i = some x ∨
    ∃ id q c r, legacy.queue.get? id = some q ∧ unterminal q = true ∧
      legacy.sessions.rows.get? id = some c ∧ IsCounterpart new.sessions c i r ∧ r.enriched = 0 ∧
        x = agenticQueueRowOf q

section Backfill

variable (legacy : LegacyFamily) (old : AgenticFamily)

theorem backfill_counterpart {id : ℕ} {c : ClaudeSession}
    (hc : legacy.sessions.rows.get? id = some c) :
    ∃ i r, IsCounterpart (backfill legacy old).sessions c i r := by
  obtain ⟨i, hi⟩ := IndexedTable.rowid?_insertAll (t := old.sessions)
    (mem_selectSessions.mpr ⟨id, c, hc, rfl⟩)
  obtain ⟨r, hr⟩ := counterpart?_eq_some.mp (show counterpart? _ c = some i from hi)
  exact ⟨i, r, hr⟩

theorem backfill_content {id : ℕ} {c : ClaudeSession} {i : ℕ} {r : AgenticSessionRow}
    (hc : legacy.sessions.rows.get? id = some c)
    (hr : IsCounterpart (backfill legacy old).sessions c i r)
    (hnone : ¬ ∃ j s, IsCounterpart old.sessions c j s) : r = agenticRowOf c := by
  obtain hold | ⟨-, hmem⟩ := IndexedTable.get?_insertAll hr.row
  · exact absurd ⟨i, r, isCounterpart_of_key hold hr.key⟩ hnone
  · obtain ⟨id', c', hc', rfl⟩ := mem_selectSessions.mp hmem
    have hr' : IsCounterpart (backfill legacy old).sessions c' i (agenticRowOf c') :=
      isCounterpart_of_key hr.row rfl
    rw [(hr.legacy_unique hc hc' hr').2]

theorem backfill_links (node i : ℕ) :
    (node, i) ∈ (backfill legacy old).links.keys ↔ (node, i) ∈ old.links.keys ∨
      ∃ id c, (node, id) ∈ legacy.links.keys ∧ node ∈ old.nodes ∧
        legacy.sessions.rows.get? id = some c ∧
          ∃ r, IsCounterpart (backfill legacy old).sessions c i r := by
  rw [← mem_selectLinks]
  constructor
  · intro h
    obtain ⟨u, hu⟩ := Table.mem_keys.mp h
    obtain hold | ⟨-, hnew⟩ := Table.get?_insertAll hu
    · exact Or.inl (Table.mem_keys.mpr ⟨u, hold⟩)
    · exact Or.inr hnew
  · rintro (hold | hnew)
    · obtain ⟨u, hu⟩ := Table.mem_keys.mp hold
      exact Table.mem_keys.mpr ⟨u, Table.get?_insertAll_of_some hu⟩
    · exact Table.mem_keys_insertAll hnew

theorem backfill_queued {id : ℕ} {q : ClaudeQueueRow} {c : ClaudeSession} {i : ℕ}
    {r : AgenticSessionRow} (hq : legacy.queue.get? id = some q) (hopen : unterminal q = true)
    (hc : legacy.sessions.rows.get? id = some c)
    (hr : IsCounterpart (backfill legacy old).sessions c i r) (henriched : r.enriched = 0) :
    (backfill legacy old).queue.get? i =
      some ((old.queue.get? i).getD (agenticQueueRowOf q)) := by
  have hmem : (i, agenticQueueRowOf q) ∈ selectQueue legacy (backfill legacy old).sessions :=
    mem_selectQueue.mpr ⟨id, q, c, r, hq, hopen, hc, hr, henriched, rfl⟩
  cases hold : old.queue.get? i with
  | some x => exact Table.get?_insertAll_of_some hold
  | none =>
    obtain ⟨x, hx⟩ := Table.mem_keys.mp (Table.mem_keys_insertAll (t := old.queue) hmem)
    obtain hold' | ⟨-, hnew⟩ := Table.get?_insertAll hx
    · rw [hold] at hold'
      cases hold'
    · obtain ⟨id', q', c', r', hq', -, hc', hr', -, rfl⟩ := mem_selectQueue.mp hnew
      obtain ⟨rfl, -⟩ := hr.legacy_unique hc hc' hr'
      obtain rfl : q = q' := Option.some.inj (hq.symm.trans hq')
      exact hx

theorem backfill_historyPreserved : HistoryPreserved legacy old (backfill legacy old) where
  counterpart := by
    intro id c hc
    obtain ⟨i, r, hr⟩ := backfill_counterpart legacy old hc
    refine ⟨i, ⟨r, hr⟩, ?_⟩
    rintro j ⟨s, hs⟩
    exact hs.unique hr
  content := fun id c i r hc hr hnone => backfill_content legacy old hc hr hnone
  links := backfill_links legacy old
  queued := fun id q c i r hq hopen hc hr henriched =>
    backfill_queued legacy old hq hopen hc hr henriched
  keptNodes := rfl
  keptSessions := fun i r hr => IndexedTable.get?_insertAll_of_some hr
  keptQueue := fun i x hx => Table.get?_insertAll_of_some hx
  onlyLegacySessions := by
    intro i r hr
    obtain hold | ⟨-, hmem⟩ := IndexedTable.get?_insertAll hr
    · exact Or.inl hold
    · exact Or.inr (mem_selectSessions.mp hmem)
  onlyLegacyQueue := by
    intro i x hx
    obtain hold | ⟨-, hmem⟩ := Table.get?_insertAll hx
    · exact Or.inl hold
    · exact Or.inr (mem_selectQueue.mp hmem)

/-- A second backfill selects the same rows, and all of them are there. -/
theorem backfill_idempotent : backfill legacy (backfill legacy old) = backfill legacy old := by
  have hsessions : (backfill legacy old).sessions.insertAll (selectSessions legacy) =
      (backfill legacy old).sessions :=
    IndexedTable.insertAll_eq_self fun new hnew => IndexedTable.rowid?_insertAll hnew
  have hlinks : (backfill legacy old).links.insertAll
      (selectLinks legacy old.nodes (backfill legacy old).sessions) = (backfill legacy old).links :=
    Table.insertAll_eq_self fun e he => Table.mem_keys_insertAll he
  have hqueue : (backfill legacy old).queue.insertAll
      (selectQueue legacy (backfill legacy old).sessions) = (backfill legacy old).queue :=
    Table.insertAll_eq_self fun e he => Table.mem_keys_insertAll he
  show AgenticFamily.mk _ _ _ _ = _
  rw [hsessions]
  exact congrArg₂ (AgenticFamily.mk old.nodes (backfill legacy old).sessions) hlinks hqueue

variable {legacy old}

/-- The copies point to rows that exist. -/
theorem backfill_foreignKeysHold (h : old.ForeignKeysHold) :
    (backfill legacy old).ForeignKeysHold := by
  have hkept : ∀ i ∈ old.sessions.rows.keys, i ∈ (backfill legacy old).sessions.rows.keys := by
    intro i hi
    obtain ⟨r, hr⟩ := Table.mem_keys.mp hi
    exact Table.mem_keys.mpr ⟨r, IndexedTable.get?_insertAll_of_some hr⟩
  constructor
  · rintro ⟨node, i⟩ hlink
    obtain hold | ⟨id, c, -, hnode, -, r, hr⟩ := (backfill_links legacy old node i).mp hlink
    · exact ⟨(h.1 _ hold).1, hkept i (h.1 _ hold).2⟩
    · exact ⟨hnode, Table.mem_keys.mpr ⟨r, hr.row⟩⟩
  · intro i hi
    obtain ⟨x, hx⟩ := Table.mem_keys.mp hi
    obtain hold | ⟨id, q, c, r, -, -, -, hr, -, -⟩ :=
      (backfill_historyPreserved legacy old).onlyLegacyQueue i x hx
    · exact hkept i (h.2 i (Table.mem_keys.mpr ⟨x, hold⟩))
    · exact Table.mem_keys.mpr ⟨r, hr.row⟩

end Backfill

section Migration

variable {db : Database} {legacy : LegacyFamily} {old new : AgenticFamily}

@[simp] theorem agenticFamily?_setAgentic (db : Database) (a : AgenticFamily) (version : ℕ) :
    Database.agenticFamily? { db.setAgentic a with userVersion := version } = some a := rfl

@[simp] theorem legacyFamily?_setAgentic (db : Database) (a : AgenticFamily) (version : ℕ) :
    Database.legacyFamily? { db.setAgentic a with userVersion := version } = db.legacyFamily? := rfl

theorem migrateV18_eq (hversion : db.userVersion = 17) (hlegacy : db.legacyFamily? = some legacy)
    (hagentic : db.agenticFamily? = some old) (hfk : old.ForeignKeysHold) :
    migrateV18 db = .ok { db.setAgentic (backfill legacy old) with userVersion := 18 } := by
  have hrange : ¬ ¬ (1 ≤ db.userVersion ∧ db.userVersion < 18) := by omega
  rw [migrateV18, if_neg hrange, hlegacy, hagentic]
  exact if_pos (backfill_foreignKeysHold hfk)

/-- The migration succeeds and preserves the history, and doing it again changes nothing. -/
theorem migrateV18_preserves_history (hversion : db.userVersion = 17)
    (hlegacy : db.legacyFamily? = some legacy) (hagentic : db.agenticFamily? = some old)
    (hfk : old.ForeignKeysHold) :
    ∃ new, migrateV18 db = .ok { db.setAgentic new with userVersion := 18 } ∧
      HistoryPreserved legacy old new ∧
      migrateV18 { db.setAgentic new with userVersion := 17 } =
        .ok { db.setAgentic new with userVersion := 18 } := by
  refine ⟨backfill legacy old, migrateV18_eq hversion hlegacy hagentic hfk,
    backfill_historyPreserved legacy old, ?_⟩
  have hagain : migrateV18 { db.setAgentic (backfill legacy old) with userVersion := 17 } =
      .ok { db.setAgentic (backfill legacy (backfill legacy old)) with userVersion := 18 } :=
    migrateV18_eq rfl hlegacy rfl (backfill_foreignKeysHold hfk)
  rw [backfill_idempotent] at hagain
  exact hagain

end Migration

section Sample

def legacySession : ClaudeSession where
  sessionId := "s"
  projectDir := "/p"
  cwd := "/p"
  gitBranch := none
  segmentIndex := 0
  startTime := 0
  endTime := 1
  summaryText := "fix"
  toolCallsJson := none
  userPromptsJson := none
  messageCount := 2
  tokenCount := none
  sourceFile := "/home/u/.Codex/sessions/s.jsonl"
  isSubagent := 0
  parentSessionId := none
  enriched := 0
  createdAt := 5
  contentHash := none
  lastEnrichedContentHash := none
  probeTag := none

def legacyQueueRow : ClaudeQueueRow where
  status := .processing
  priority := 5
  retryCount := 1
  maxRetries := 5
  errorMessage := none
  lockedAt := some 6
  lockedBy := some "brain"
  createdAt := 5
  updatedAt := 6

/-- One session that is in the queue and has a link, and a link to a node that is gone. -/
def legacySample : LegacyFamily where
  sessions := IndexedTable.empty.insertOrIgnore legacySession
  links := (Table.empty.insert (3, 1) ()).insert (4, 1) ()
  queue := Table.empty.insert 1 legacyQueueRow

def failedRow : AgenticQueueRow where
  status := .failed
  priority := 5
  retryCount := 5
  maxRetries := 5
  errorMessage := some "timeout"
  lockedAt := none
  lockedBy := none
  enqueuedAt := 8
  updatedAt := 9

/-- The same session as the daemon has ingested it again, with its own queue row. -/
def reingested : AgenticFamily where
  nodes := [3]
  sessions := IndexedTable.empty.insertOrIgnore (agenticRowOf legacySession)
  links := Table.empty
  queue := Table.empty.insert 1 failedRow

/-- A queue row of the agentic family stands in the way of the legacy one. -/
theorem reingested_queue_row_stays :
    ¬ ∀ (legacy : LegacyFamily) (old : AgenticFamily), old.ForeignKeysHold →
      ∀ id q c i r, legacy.queue.get? id = some q → unterminal q = true →
        legacy.sessions.rows.get? id = some c →
        IsCounterpart (backfill legacy old).sessions c i r → r.enriched = 0 →
          (backfill legacy old).queue.get? i = some (agenticQueueRowOf q) := by
  intro hall
  have hr : IsCounterpart (backfill legacySample reingested).sessions legacySession 1
      (agenticRowOf legacySession) := isCounterpart_of_key (by decide +kernel) rfl
  have hrow := hall legacySample reingested (by decide +kernel) 1 legacyQueueRow legacySession 1
    (agenticRowOf legacySession) (by decide +kernel) (by decide +kernel) (by decide +kernel) hr rfl
  exact absurd hrow (by decide +kernel)

def sampleDatabase : Database where
  userVersion := 17
  claudeSessions := some legacySample.sessions
  knowledgeNodeClaudeSessions := some legacySample.links
  claudeEnrichmentQueue := some legacySample.queue
  knowledgeNodes := some [3]
  agenticSessions := some IndexedTable.empty
  knowledgeNodeAgenticSessions := some Table.empty
  agenticEnrichmentQueue := some Table.empty

/-- Into an empty agentic family, the claimed row comes as a pending one without its lock. -/
theorem sampleDatabase_queued : ∃ new,
    migrateV18 sampleDatabase = .ok { sampleDatabase.setAgentic new with userVersion := 18 } ∧
      ∀ i r, IsCounterpart new.sessions legacySession i r →
        r = agenticRowOf legacySession ∧ (3, i) ∈ new.links.keys ∧
          new.queue.get? i = some (agenticQueueRowOf legacyQueueRow) := by
  obtain ⟨new, hmigrate, hnew, -⟩ := migrateV18_preserves_history
    (rfl : sampleDatabase.userVersion = 17)
    (rfl : sampleDatabase.legacyFamily? = some legacySample)
    (rfl : sampleDatabase.agenticFamily? =
      some ⟨[3], IndexedTable.empty, Table.empty, Table.empty⟩) (by decide +kernel)
  refine ⟨new, hmigrate, ?_⟩
  intro i r hr
  have hc : legacySample.sessions.rows.get? 1 = some legacySession := by decide +kernel
  have hcontent : r = agenticRowOf legacySession :=
    hnew.content 1 legacySession i r hc hr fun ⟨_, _, hs⟩ => by cases hs.row
  refine ⟨hcontent, ?_, ?_⟩
  · exact (hnew.links 3 i).mpr
      (Or.inr ⟨1, legacySession, by decide +kernel, List.mem_singleton_self 3, hc, r, hr⟩)
  · exact hnew.queued 1 legacyQueueRow legacySession i r (by decide +kernel) (by decide +kernel) hc
      hr (by rw [hcontent]; rfl)

end Sample

end Hippo.Migration
