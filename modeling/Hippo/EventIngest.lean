import Hippo.EnrichmentQueue

/-!
# Captured events and their tables

The envelopes the clients send, and the tables the daemon puts them in. The tables of
shell and browser events have the same shape: rows with an optional `UNIQUE` envelope
id and an optional probe tag, and a queue of the rows to enrich.
-/
namespace Hippo

/-- A row of `events`, with the columns the functions of this development read. -/
structure ShellEvent where
  sessionId : ℕ
  timestamp : ℤ
  command : String
  stdout : Option String := none
  stderr : Option String := none
  durationMs : ℤ
  envelopeId : Option String := none
  probeTag : Option String := none
  enriched : Bool := false
deriving DecidableEq

/-- A row of `browser_events`. -/
structure BrowserEvent where
  timestamp : ℤ
  url : String
  envelopeId : Option String := none
  probeTag : Option String := none
deriving DecidableEq

/-- An event table with its queue. `fk` is the queue's foreign key. -/
structure EventTables (ρ : Type) where
  events : Table ℕ ρ
  queue : Queue
  fk : ∀ i ∈ queue.keys, i ∈ events.keys

namespace EventTables

variable {ρ : Type}

def empty : EventTables ρ where
  events := Table.empty
  queue := Table.empty
  fk := by simp [Table.empty, Table.keys]

/-- A row with this envelope id exists. -/
def Holds (t : EventTables ρ) (envelopeId : ρ → Option String) (id : String) : Prop :=
  ∃ row ∈ t.events.entries, envelopeId row.2 = some id

instance (t : EventTables ρ) (envelopeId : ρ → Option String) (id : String) :
    Decidable (t.Holds envelopeId id) := by
  unfold Holds
  infer_instance

/-- The envelope id is `UNIQUE`. -/
def OncePerEnvelope (t : EventTables ρ) (envelopeId : ρ → Option String) : Prop :=
  ∀ i j r s id, t.events.get? i = some r → t.events.get? j = some s →
    envelopeId r = some id → envelopeId s = some id → i = j

/-- `INSERT OR IGNORE` of one event: a duplicate envelope id changes nothing, and a probe
event gets no queue row. -/
def insertOnce (t : EventTables ρ) (envelopeId probeTag : ρ → Option String) (e : ρ) :
    EventTables ρ :=
  if envelopeId e ≠ none ∧ ∃ row ∈ t.events.entries, envelopeId row.2 = envelopeId e then t
  else
    { events := t.events.insert t.events.nextRowid e
      queue := if probeTag e = none then
          t.queue.insert t.events.nextRowid { id := t.queue.nextId }
        else t.queue
      fk := by
        have hfresh : t.queue.get? t.events.nextRowid = none := by
          refine Table.get?_eq_none.mpr fun h => ?_
          exact absurd (Table.lt_nextRowid (t.fk _ h)) (lt_irrefl _)
        intro i hi
        rw [Table.mem_keys] at hi ⊢
        rw [Table.get?_insert_nextRowid]
        by_cases hnew : i = t.events.nextRowid
        · exact ⟨e, if_pos hnew⟩
        · rw [if_neg hnew]
          refine Table.mem_keys.mp (t.fk i (Table.mem_keys.mpr ?_))
          split at hi
          · rwa [Table.get?_insert _ _ _ _ hfresh, if_neg hnew] at hi
          · exact hi }

variable {envelopeId probeTag : ρ → Option String}

/-- Either the envelope was there, or its row and its queue row are new. -/
theorem insertOnce_cases (t : EventTables ρ) (envelopeId probeTag : ρ → Option String)
    (e : ρ) :
    (t.insertOnce envelopeId probeTag e = t ∧
      ∃ id, envelopeId e = some id ∧ t.Holds envelopeId id) ∨
    ((∀ id, envelopeId e = some id → ¬ t.Holds envelopeId id) ∧
      (∀ j, (t.insertOnce envelopeId probeTag e).events.get? j =
        if j = t.events.nextRowid then some e else t.events.get? j) ∧
      t.queue.get? t.events.nextRowid = none ∧
      ∀ j, (t.insertOnce envelopeId probeTag e).queue.get? j =
        if j = t.events.nextRowid ∧ probeTag e = none then some { id := t.queue.nextId }
        else t.queue.get? j) := by
  by_cases hdup : envelopeId e ≠ none ∧
      ∃ row ∈ t.events.entries, envelopeId row.2 = envelopeId e
  · obtain ⟨hid, row, hrow, heq⟩ := hdup
    obtain ⟨id, hid'⟩ := Option.ne_none_iff_exists'.mp hid
    exact Or.inl ⟨if_pos ⟨hid, row, hrow, heq⟩, id, hid', row, hrow, heq.trans hid'⟩
  · have hfresh : t.queue.get? t.events.nextRowid = none := by
      refine Table.get?_eq_none.mpr fun h => ?_
      exact absurd (Table.lt_nextRowid (t.fk _ h)) (lt_irrefl _)
    refine Or.inr ⟨fun id hid hheld => hdup ?_, fun j => ?_, hfresh, fun j => ?_⟩
    · obtain ⟨row, hrow, heq⟩ := hheld
      exact ⟨by rw [hid]; exact Option.some_ne_none id, row, hrow, heq.trans hid.symm⟩
    · unfold insertOnce
      rw [if_neg hdup]
      exact Table.get?_insert_nextRowid _ _ _
    · unfold insertOnce
      rw [if_neg hdup]
      dsimp only
      by_cases hprobe : probeTag e = none
      · rw [if_pos hprobe, Table.get?_insert _ _ _ _ hfresh]
        simp only [hprobe, and_true]
      · rw [if_neg hprobe]
        simp only [hprobe, and_false, if_false]

theorem holds_iff {t : EventTables ρ} {id : String} :
    t.Holds envelopeId id ↔ ∃ i r, t.events.get? i = some r ∧ envelopeId r = some id := by
  constructor
  · rintro ⟨⟨i, r⟩, hrow, hid⟩
    exact ⟨i, r, Table.get?_eq_some.mpr hrow, hid⟩
  · rintro ⟨i, r, hr, hid⟩
    exact ⟨(i, r), Table.get?_eq_some.mp hr, hid⟩

/-- After the insertion the envelope is there, whether it was new or not. -/
theorem holds_insertOnce_self (t : EventTables ρ) {e : ρ} {id : String}
    (he : envelopeId e = some id) : (t.insertOnce envelopeId probeTag e).Holds envelopeId id := by
  rcases t.insertOnce_cases envelopeId probeTag e with
    ⟨heq, id', hid', hheld⟩ | ⟨-, hevents, -, -⟩
  · rw [he, Option.some.injEq] at hid'
    rw [heq, hid']
    exact hheld
  · exact holds_iff.mpr ⟨t.events.nextRowid, e, by rw [hevents, if_pos rfl], he⟩

/-- An insertion removes no envelope. -/
theorem holds_insertOnce (t : EventTables ρ) (e : ρ) {id : String} (h : t.Holds envelopeId id) :
    (t.insertOnce envelopeId probeTag e).Holds envelopeId id := by
  rcases t.insertOnce_cases envelopeId probeTag e with
    ⟨heq, -⟩ | ⟨-, hevents, -, -⟩
  · rwa [heq]
  · obtain ⟨i, r, hr, hid⟩ := holds_iff.mp h
    refine holds_iff.mpr ⟨i, r, ?_, hid⟩
    have hne : i ≠ t.events.nextRowid := by
      intro hi
      rw [hi, Table.get?_nextRowid] at hr
      cases hr
    rw [hevents, if_neg hne, hr]

theorem oncePerEnvelope_insertOnce {t : EventTables ρ} (h : t.OncePerEnvelope envelopeId)
    (e : ρ) : (t.insertOnce envelopeId probeTag e).OncePerEnvelope envelopeId := by
  rcases t.insertOnce_cases envelopeId probeTag e with
    ⟨heq, -⟩ | ⟨hnew, hevents, -, -⟩
  · rwa [heq]
  · intro i j r s id hi hj hr hs
    rw [hevents] at hi hj
    by_cases hi' : i = t.events.nextRowid <;> by_cases hj' : j = t.events.nextRowid
    · rw [hi', hj']
    · rw [if_pos hi', Option.some.injEq] at hi
      rw [if_neg hj'] at hj
      exact absurd (holds_iff.mpr ⟨j, s, hj, hs⟩) (hnew id (hi ▸ hr))
    · rw [if_pos hj', Option.some.injEq] at hj
      rw [if_neg hi'] at hi
      exact absurd (holds_iff.mpr ⟨i, r, hi, hr⟩) (hnew id (hj ▸ hs))
    · rw [if_neg hi'] at hi
      rw [if_neg hj'] at hj
      exact h i j r s id hi hj hr hs

end EventTables

/-- `insert_event_at`. -/
def insertEventAt (t : EventTables ShellEvent) (e : ShellEvent) : EventTables ShellEvent :=
  t.insertOnce ShellEvent.envelopeId ShellEvent.probeTag e

/-- `insert_browser_event`. -/
def insertBrowserEvent (t : EventTables BrowserEvent) (e : BrowserEvent) :
    EventTables BrowserEvent :=
  t.insertOnce BrowserEvent.envelopeId BrowserEvent.probeTag e

/-- `EventPayload::Shell`, with the fields the functions below read. -/
structure ShellPayload where
  sessionId : String
  command : String
  durationMs : ℤ
  hostname : String
  stdout : Option String := none
  stderr : Option String := none
deriving DecidableEq

/-- The payload of an envelope. The kinds without a table of their own are one constructor. -/
inductive EventPayload where
  | shell (e : ShellPayload)
  | browser (url : String)
  | other
deriving DecidableEq

structure EventEnvelope where
  envelopeId : String
  timestamp : ℤ
  payload : EventPayload
  probeTag : Option String := none
deriving DecidableEq

/-- The tables the daemon writes envelopes to. -/
structure IngestDb where
  shell : EventTables ShellEvent
  browser : EventTables BrowserEvent

namespace IngestDb

def empty : IngestDb := ⟨EventTables.empty, EventTables.empty⟩

/-- The row `insert_event_at` binds for a shell envelope of the given session. -/
def shellRow (envelope : EventEnvelope) (sessionId : ℕ) (e : ShellPayload) : ShellEvent where
  sessionId := sessionId
  timestamp := envelope.timestamp
  command := e.command
  stdout := e.stdout
  stderr := e.stderr
  durationMs := e.durationMs
  envelopeId := some envelope.envelopeId
  probeTag := envelope.probeTag

/-- The row `insert_browser_event` binds. -/
def browserRow (envelope : EventEnvelope) (url : String) : BrowserEvent where
  timestamp := envelope.timestamp
  url := url
  envelopeId := some envelope.envelopeId
  probeTag := envelope.probeTag

/-- Inserts the envelope into its table; `sessionId` is used by shell envelopes only. -/
def insertEnvelope (db : IngestDb) (envelope : EventEnvelope) (sessionId : ℕ) : IngestDb :=
  match envelope.payload with
  | .shell e => { db with shell := insertEventAt db.shell (shellRow envelope sessionId e) }
  | .browser url =>
    { db with browser := insertBrowserEvent db.browser (browserRow envelope url) }
  | .other => db

/-- The envelope is in its table. -/
def Stored (db : IngestDb) (envelope : EventEnvelope) : Prop :=
  match envelope.payload with
  | .shell _ => db.shell.Holds ShellEvent.envelopeId envelope.envelopeId
  | .browser _ => db.browser.Holds BrowserEvent.envelopeId envelope.envelopeId
  | .other => False

instance (db : IngestDb) (envelope : EventEnvelope) : Decidable (db.Stored envelope) := by
  unfold Stored
  split <;> infer_instance

/-- No envelope is in a table more than once. -/
structure Once (db : IngestDb) : Prop where
  shell : db.shell.OncePerEnvelope ShellEvent.envelopeId
  browser : db.browser.OncePerEnvelope BrowserEvent.envelopeId

theorem once_empty : empty.Once where
  shell := by
    intro i j r s id hi
    cases hi
  browser := by
    intro i j r s id hi
    cases hi

theorem stored_insertEnvelope_self (db : IngestDb) {envelope : EventEnvelope} (sessionId : ℕ)
    (h : envelope.payload ≠ .other) : (db.insertEnvelope envelope sessionId).Stored envelope := by
  unfold Stored insertEnvelope
  cases hp : envelope.payload with
  | shell e => exact db.shell.holds_insertOnce_self rfl
  | browser url => exact db.browser.holds_insertOnce_self rfl
  | other => exact absurd hp h

theorem stored_insertEnvelope {db : IngestDb} {envelope : EventEnvelope} (h : db.Stored envelope)
    (new : EventEnvelope) (sessionId : ℕ) :
    (db.insertEnvelope new sessionId).Stored envelope := by
  unfold Stored at h ⊢
  unfold insertEnvelope
  cases hp : envelope.payload <;> cases hn : new.payload <;> rw [hp] at h
  all_goals first
    | exact h
    | exact EventTables.holds_insertOnce _ _ h

theorem Once.insertEnvelope {db : IngestDb} (h : db.Once) (new : EventEnvelope)
    (sessionId : ℕ) : (db.insertEnvelope new sessionId).Once := by
  unfold IngestDb.insertEnvelope
  split
  · exact ⟨EventTables.oncePerEnvelope_insertOnce h.shell _, h.browser⟩
  · exact ⟨h.shell, EventTables.oncePerEnvelope_insertOnce h.browser _⟩
  · exact h

end IngestDb

end Hippo
