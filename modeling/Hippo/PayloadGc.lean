import Hippo.AgentEvalSchema
import Hippo.PagedSweep
import Hippo.Transcript
import Mathlib.Data.String.Basic

/-!
# The payload sweep

Expired output of events, environment snapshots without a reference, and expired free text of
agent evaluations are cleared in pages of 100 rows, each with a receipt. Cited events and the text
of accepted findings stay.
-/
namespace Hippo.PayloadGc
open AgentEval

/-- An SQLite row id. -/
abbrev RowId := { n : ℤ // -2 ^ 63 ≤ n ∧ n < 2 ^ 63 }

/-- An event; `other` are the columns the sweep does not look at. -/
structure Event (γ : Type) where
  stdout : Option String
  stderr : Option String
  envSnapshotId : Option ℤ
  payloadExpiry : Option ℤ
  createdAt : ℤ
  other : γ

structure EnvSnapshot (δ : Type) where
  envJson : String
  other : δ

/-- A row of `deletion_receipts`. -/
structure Receipt (H : Type) where
  contentHash : H
  ts : ℤ
  reason : String
  what : String

/-- The tables of the sweep. A citation store that is not there has no rows. -/
structure PayloadDb (γ δ H : Type) where
  events : Table RowId (Event γ)
  envSnapshots : Table ℤ (EnvSnapshot δ)
  nodeEvidence : List (String × String)
  epitaphs : List (Option String)
  receipts : List (Receipt H)
  eval : EvalDb

/-- What the sweep calls outside: the hash and the parser of a JSON array of strings. -/
structure GcLibrary (H : Type) where
  sha256 : String → H
  parseRefs : String → Option (List String)

section Pins

/-- The number of a string of decimal digits. -/
def decimal (s : String) : ℤ := s.toList.foldl (fun n c => 10 * n + (c.toNat - 48 : ℕ)) 0

/-- `event_pin_from_ref`. -/
def eventPinFromRef (kind id : String) : Except String (Option ℤ) :=
  if id.isEmpty || !id.toList.all Char.isDigit then
    .error "incompatible evidence reference: expected a decimal row id"
  else if 2 ^ 63 ≤ decimal id then .error "evidence row id exceeds i64"
  else if kind = "shell" then .ok (some (decimal id))
  else if kind ∈ ["claude", "codex", "cursor", "opencode", "pi", "browser", "workflow", "memory"]
  then .ok none
  else .error ("incompatible evidence reference type: " ++ kind)

/-- A citation `kind-id`. -/
def citedEvent (reference : String) : Except String (Option ℤ) :=
  let chars := (RustText.trim reference).toList
  if '-' ∈ chars then
    let kind := chars.takeWhile fun c => c ≠ '-'
    eventPinFromRef (String.ofList kind) (String.ofList (chars.drop (kind.length + 1)))
  else .error "incompatible epitaph evidence citation"

variable {γ δ H : Type}

/-- The events that an epitaph cites. -/
def citedEvents (lib : GcLibrary H) (refs : Option String) : Except String (List (Option ℤ)) :=
  match refs with
  | none => .ok []
  | some refs =>
    match lib.parseRefs refs with
    | none => .error "incompatible epitaphs.evidence_refs: expected JSON citation strings"
    | some refs => refs.mapM citedEvent

/-- `event_payload_pins`: the ids of the cited events. -/
def eventPayloadPins (lib : GcLibrary H) (db : PayloadDb γ δ H) : Except String (List ℤ) := do
  let evidence ← db.nodeEvidence.mapM fun r => eventPinFromRef r.1 r.2
  let cited ← db.epitaphs.mapM (citedEvents lib)
  return (evidence ++ cited.flatten).reduceOption

end Pins

section Verdicts

/-- The rows of one table, by primary key. -/
def tableRows (db : EvalDb) (t : EvalTable) : List (String × Row) :=
  db.rows.entries.filterMap fun e => if e.1.1 = t then some (e.1.2, e.2) else none

def textOf : SqlValue → String
  | .text s => s
  | _ => ""

def integerOf : SqlValue → ℤ
  | .integer n => n
  | _ => 0

/-- The finding that a row is about. -/
def findingId (t : EvalTable) (e : String × Row) : String :=
  if t = .findings then e.1 else textOf (e.2.value "finding_id")

def isHuman (verdict : Row) : Bool := verdict.value "auto" = .integer 0

def decidedAt (verdict : Row) : ℤ := integerOf (verdict.value "decided_at")

/-- `ORDER BY (auto = 0) DESC, decided_at DESC, verdict_id DESC`. -/
def rankedBefore (v w : String × Row) : Bool :=
  if isHuman v.2 ≠ isHuman w.2 then isHuman v.2
  else if decidedAt v.2 ≠ decidedAt w.2 then decidedAt w.2 < decidedAt v.2
  else w.1 ≤ v.1

/-- The verdicts of a finding. -/
def verdictsOf (db : EvalDb) (finding : String) : List (String × Row) :=
  (tableRows db .verdicts).filter fun v => findingId .verdicts v = finding

/-- The verdict with row number 1 in the partition of a finding. -/
def effectiveVerdict (db : EvalDb) (finding : String) : Option (String × Row) :=
  ((verdictsOf db finding).insertionSort fun v w => rankedBefore v w).head?

/-- `eval_payload_pins`: the findings whose effective verdict is `accepted`. -/
def evalPayloadPins (db : EvalDb) : List String :=
  ((tableRows db .verdicts).map (findingId .verdicts)).filter fun finding =>
    (effectiveVerdict db finding).any fun v => v.2.value "verdict" = .text "accepted"

end Verdicts

section Clearing

variable {γ δ H : Type}

/-- 90 days. -/
def retentionMs : ℤ := 7776000000

namespace Event

def expiry (e : Event γ) : ℤ := e.payloadExpiry.getD (e.createdAt + retentionMs)

def hasPayload (e : Event γ) : Bool :=
  e.stdout.isSome || e.stderr.isSome || e.envSnapshotId.isSome

/-- The `UPDATE` of an expired event. -/
def clear (e : Event γ) : Event γ :=
  { e with
    stdout := none
    stderr := none
    envSnapshotId := none
    payloadExpiry := some e.expiry }

end Event

namespace PayloadDb

variable (lib : GcLibrary H) (now : ℤ)

/-- `payload_receipt`. -/
def payloadReceipt (content what : String) : Receipt H :=
  ⟨lib.sha256 content, now, "payload_expired", what⟩

/-- The receipts for the fields of an event. -/
def eventReceipts (id : RowId) (e : Event γ) : List (Receipt H) :=
  let what := fun field => "events/" ++ toString id.1 ++ "/" ++ field
  (e.stdout.map fun s => payloadReceipt lib now s (what "stdout")).toList ++
    (e.stderr.map fun s => payloadReceipt lib now s (what "stderr")).toList ++
      (e.envSnapshotId.map fun i =>
        payloadReceipt lib now (toString i) (what "env_snapshot_id")).toList

def snapshotReceipt (id : ℤ) (json : String) : Receipt H :=
  payloadReceipt lib now json ("env_snapshots/" ++ toString id ++ "/env_json")

def addReceipts (db : PayloadDb γ δ H) (receipts : List (Receipt H)) : PayloadDb γ δ H :=
  { db with receipts := db.receipts ++ receipts }

/-- Some event refers to the snapshot. -/
def refersTo (db : PayloadDb γ δ H) (id : ℤ) : Bool :=
  db.events.entries.any fun e => e.2.envSnapshotId = some id

/-- A snapshot that no event refers to any more becomes blank. -/
def blankSnapshot (db : PayloadDb γ δ H) (id : ℤ) : PayloadDb γ δ H :=
  match db.envSnapshots.get? id with
  | none => db
  | some s =>
    if s.envJson ≠ "" ∧ ¬ db.refersTo id then
      { db.addReceipts [snapshotReceipt lib now id s.envJson] with
        envSnapshots := db.envSnapshots.modify id fun s => { s with envJson := "" } }
    else db

/-- An expired event that is not pinned. -/
def clearEvent (db : PayloadDb γ δ H) (id : RowId) (e : Event γ) : PayloadDb γ δ H :=
  let db := db.addReceipts (eventReceipts lib now id e)
  let db := { db with events := db.events.modify id Event.clear }
  match e.envSnapshotId with
  | none => db
  | some envId => db.blankSnapshot lib now envId

/-- The receipts for the text of a row. -/
def textReceipts (t : EvalTable) (tableName : String) (e : String × Row) : List (Receipt H) :=
  t.freeText.filterMap fun field =>
    match e.2.value field with
    | .text s => some (payloadReceipt lib now s (tableName ++ "/" ++ e.1 ++ "/" ++ field))
    | _ => none

end PayloadDb

/-- A table's free text may be absent. -/
theorem freeText_nullable (t : EvalTable) :
    ∀ c ∈ t.columns, c.name ∈ t.freeText → c.notNull = false := by
  cases t <;> decide +kernel

/-- A foreign key is no free text. -/
theorem reference_notMem_freeText (t : EvalTable) :
    ∀ column parent, t.reference = some (column, parent) → column ∉ t.freeText := by
  intro column parent h
  cases t <;> cases h <;> simp [EvalTable.freeText]

theorem conforms_clear {t : EvalTable} {r : Row} (h : t.conforms r = true) :
    t.conforms (r.clear t.freeText) = true := by
  rw [EvalTable.conforms, List.all_eq_true] at h ⊢
  intro c hc
  rw [Row.value_clear]
  split
  · rename_i hfree
    simp [Column.accepts, freeText_nullable t c hc hfree]
  · exact h c hc

/-- `UPDATE t SET f = NULL` for the free text of one row. -/
def clearText (db : EvalDb) (t : EvalTable) (id : String) : EvalDb where
  rows := db.rows.modify (t, id) fun r => r.clear t.freeText
  valid := by
    intro k r' hr'
    obtain ⟨r, hr, ⟨rfl, rfl⟩ | ⟨-, rfl⟩⟩ := Table.eq_of_get?_modify hr'
    · exact conforms_clear (db.valid _ r hr)
    · exact db.valid k _ hr
  fk := by
    intro k r' hr'
    have hmono : ∀ j, (db.rows.get? j).isSome = true →
        ((db.rows.modify (t, id) fun r => r.clear t.freeText).get? j).isSome = true := by
      intro j hj
      rwa [Table.get?_modify_isSome]
    obtain ⟨r, hr, ⟨rfl, rfl⟩ | ⟨-, rfl⟩⟩ := Table.eq_of_get?_modify hr'
    · intro column parent hreference
      obtain ⟨pid, hvalue, hparent⟩ := db.fk _ r hr column parent hreference
      refine ⟨pid, ?_, hmono _ hparent⟩
      rw [Row.value_clear, if_neg (reference_notMem_freeText _ column parent hreference), hvalue]
    · exact EvalDb.hasParent_mono (db.fk k _ hr) hmono

end Clearing

section Sweeps

variable {γ δ H : Type} (lib : GcLibrary H) (now : ℤ)

/-- The tables and the number of rows cleared so far. -/
abbrev Progress (γ δ H : Type) := PayloadDb γ δ H × ℕ

/-- The loop over the events up to the greatest id at its start. -/
def eventSweep (ceiling : ℤ) : PagedSweep (Progress γ δ H) RowId (Event γ) ℤ String (List ℤ) where
  size := 100
  check := fun s => eventPayloadPins lib s.1
  rows := fun s => sortedRows (s.1.events.entries.filter fun e =>
    e.1.1 ≤ ceiling && e.2.expiry ≤ now && e.2.hasPayload)
  behind := fun cursor id => cursor ≤ id.1
  next := fun id => if id.1 + 1 < 2 ^ 63 then some (id.1 + 1) else none
  act := fun pins s r =>
    if r.1.1 ∈ pins then s else (s.1.clearEvent lib now r.1 r.2, s.2 + 1)

/-- A row has free text whose time is over. -/
def textExpired (t : EvalTable) (r : Row) : Bool :=
  (match r.value "payload_expiry" with
    | .integer expiry => expiry ≤ now
    | _ => false) && t.freeText.any fun field => r.value field ≠ .null

/-- `gc_eval_payload_table`, for a table with free text. -/
def evalSweep (t : EvalTable) (tableName : String) :
    PagedSweep (Progress γ δ H) String Row (Option String) String (List String) where
  size := 100
  check := fun s => .ok (evalPayloadPins s.1.eval)
  rows := fun s => sortedRows ((tableRows s.1.eval t).filter fun e => textExpired now t e.2)
  behind := fun cursor id => cursor.all fun c => c < id
  next := fun id => some (some id)
  act := fun pins s r =>
    if findingId t r ∈ pins then s
    else
      let db := s.1.addReceipts (PayloadDb.textReceipts lib now t tableName r)
      ({ db with eval := clearText db.eval t r.1 }, s.2 + 1)

/-- How many rows were cleared. -/
structure PayloadGcReport where
  eventsCleared : ℕ
  evalFindingsCleared : ℕ
  evalVerdictsCleared : ℕ
  deriving DecidableEq

/-- `COALESCE(MAX(id), 0)`. -/
def ceiling (db : PayloadDb γ δ H) : ℤ :=
  ((db.events.entries.map fun e => e.1.1).max?).getD 0

/-- `gc_event_payloads` with a bound on the pages of each loop. -/
def gcEventPayloads (fuel : ℕ) (db : PayloadDb γ δ H) :
    Option (Except String PayloadGcReport × PayloadDb γ δ H) := do
  let (events, db, eventsCleared) ← (eventSweep lib now (ceiling db)).run fuel (-2 ^ 63) (db, 0)
  match events with
  | .error e => return (.error e, db)
  | .ok () =>
    let (findings, db, findingsCleared) ←
      (evalSweep lib now .findings "eval_findings").run fuel none (db, 0)
    match findings with
    | .error e => return (.error e, db)
    | .ok () =>
      let (verdicts, db, verdictsCleared) ←
        (evalSweep lib now .verdicts "eval_verdicts").run fuel none (db, 0)
      match verdicts with
      | .error e => return (.error e, db)
      | .ok () => return (.ok ⟨eventsCleared, findingsCleared, verdictsCleared⟩, db)

end Sweeps

end Hippo.PayloadGc
