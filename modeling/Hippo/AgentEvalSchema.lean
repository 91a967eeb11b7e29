import Hippo.Table

/-!
# The tables of agent evaluations

The columns and constraints of `agent_eval.sql`. A row is the values of its columns other than the
primary key. That every row meets its table's constraints and has its parent is part of the
database.
-/
namespace Hippo.AgentEval

inductive SqlValue where
  | null
  | integer (n : ℤ)
  | text (s : String)
  deriving DecidableEq

inductive EvalTable where
  | reviewRuns
  | findings
  | verdicts
  | escapes
  | benchRuns
  deriving DecidableEq

inductive ColumnType where
  | text
  | integer
  deriving DecidableEq

/-- A column; `allowed` are the values of its `CHECK`, if it has one. -/
structure Column where
  name : String
  type : ColumnType
  notNull : Bool := true
  allowed : Option (List SqlValue) := none

/-- A value fits a column. No writer gives a column a value of another type. -/
def Column.accepts (c : Column) : SqlValue → Bool
  | .null => !c.notNull
  | .integer n => c.type = .integer && c.allowed.all fun vs => vs.contains (.integer n)
  | .text s => c.type = .text && c.allowed.all fun vs => vs.contains (.text s)

def text (name : String) : Column := { name := name, type := .text }

def optText (name : String) : Column := { name := name, type := .text, notNull := false }

def integer (name : String) : Column := { name := name, type := .integer }

namespace EvalTable

/-- The columns other than the primary key. -/
def columns : EvalTable → List Column
  | reviewRuns => [text "agent", text "mode", optText "requested_model", text "model_id",
      optText "effort", text "cli_version", text "repo", optText "repo_identity", text "base",
      text "base_sha", text "head_sha", text "input_sha256", integer "units_total",
      integer "units_failed", integer "input_tokens", integer "output_tokens",
      integer "cache_read_tokens", integer "cache_creation_tokens", optText "session_id",
      optText "harness", integer "started_at", integer "finished_at", integer "ingested_at"]
  | findings => [text "run_id", text "repo", optText "repo_identity", text "path",
      { text "side" with allowed := some [.text "+", .text "-"] }, integer "line",
      optText "line_text", optText "line_hash", text "severity", text "confidence",
      text "category", optText "claim", integer "logged_at", integer "ingested_at",
      integer "payload_expiry"]
  | verdicts => [text "finding_id", text "verdict", optText "commit_sha", optText "note",
      { integer "auto" with allowed := some [.integer 0, .integer 1] }, integer "decided_at",
      integer "ingested_at", integer "payload_expiry"]
  | escapes => [text "repo", optText "repo_identity", text "path", integer "line",
      optText "fix_commit", text "note", integer "recorded_at", integer "ingested_at"]
  | benchRuns => [text "bench", integer "recorded_at", text "repo_commit", text "cli_version",
      text "model", text "model_ids_json", optText "effort", integer "reps", integer "cases",
      text "cases_sha256", text "brief_sha256", integer "failed_reviews", integer "tokens",
      text "scores_json", text "per_case_json", integer "ingested_at"]

/-- The foreign key: a column and the table it refers to. -/
def reference : EvalTable → Option (String × EvalTable)
  | findings => some ("run_id", reviewRuns)
  | verdicts => some ("finding_id", findings)
  | _ => none

/-- The free text that the payload sweep clears. -/
def freeText : EvalTable → List String
  | findings => ["line_text", "claim"]
  | verdicts => ["note"]
  | _ => []

end EvalTable

/-- The values of a row by column. -/
abbrev Row := List (String × SqlValue)

namespace Row

def value (r : Row) (column : String) : SqlValue := (r.lookup column).getD .null

/-- `UPDATE … SET f = NULL` for each of the fields. -/
def clear (r : Row) (fields : List String) : Row :=
  r.map fun e => (e.1, if e.1 ∈ fields then .null else e.2)

theorem clear_clear (r : Row) (fields : List String) :
    (r.clear fields).clear fields = r.clear fields := by
  rw [clear, clear, List.map_map]
  apply List.map_congr_left
  intro e _
  by_cases he : e.1 ∈ fields <;> simp [he]

theorem lookup_clear (r : Row) (fields : List String) (column : String) :
    (r.clear fields).lookup column =
      (r.lookup column).map fun v => if column ∈ fields then .null else v := by
  induction r with
  | nil => rfl
  | cons e r ih =>
    show List.lookup column ((e.1, if e.1 ∈ fields then .null else e.2) :: Row.clear r fields) = _
    obtain ⟨k, v⟩ := e
    simp only [List.lookup_cons, ih]
    cases heq : column == k with
    | true =>
      obtain rfl := eq_of_beq heq
      rfl
    | false => rfl

theorem value_clear (r : Row) (fields : List String) (column : String) :
    (r.clear fields).value column = if column ∈ fields then .null else r.value column := by
  rw [value, lookup_clear, value]
  cases r.lookup column <;> simp

end Row

/-- Every column of the table has a value that fits. -/
def EvalTable.conforms (t : EvalTable) (r : Row) : Bool :=
  t.columns.all fun c => c.accepts (r.value c.name)

/-- The rows that a row refers to are there. -/
def HasParent (rows : Table (EvalTable × String) Row) (t : EvalTable) (r : Row) : Prop :=
  ∀ column parent, t.reference = some (column, parent) →
    ∃ id, r.value column = .text id ∧ (rows.get? (parent, id)).isSome = true

/-- The `eval_*` tables, as one table by table and primary key. -/
structure EvalDb where
  rows : Table (EvalTable × String) Row
  valid : ∀ k r, rows.get? k = some r → k.1.conforms r = true
  fk : ∀ k r, rows.get? k = some r → HasParent rows k.1 r

namespace EvalDb

def empty : EvalDb := ⟨Table.empty, (fun _ _ h => nomatch h), fun _ _ h => nomatch h⟩

instance (rows : Table (EvalTable × String) Row) (t : EvalTable) (r : Row) :
    Decidable (HasParent rows t r) :=
  match hreference : t.reference with
  | none => isTrue fun _ _ h => by rw [hreference] at h; cases h
  | some (column, parent) =>
    match hvalue : r.value column with
    | .text id =>
      if hrow : (rows.get? (parent, id)).isSome = true then
        isTrue fun c p h => by
          rw [hreference] at h
          obtain ⟨rfl, rfl⟩ := Prod.mk.inj (Option.some.inj h)
          exact ⟨id, hvalue, hrow⟩
      else isFalse fun h => by
        obtain ⟨id', hvalue', hrow'⟩ := h column parent hreference
        rw [hvalue] at hvalue'
        obtain rfl := SqlValue.text.inj hvalue'
        exact hrow hrow'
    | .null => isFalse fun h => by
        obtain ⟨id', hvalue', -⟩ := h column parent hreference
        rw [hvalue] at hvalue'
        cases hvalue'
    | .integer n => isFalse fun h => by
        obtain ⟨id', hvalue', -⟩ := h column parent hreference
        rw [hvalue] at hvalue'
        cases hvalue'

theorem hasParent_mono {rows rows' : Table (EvalTable × String) Row} {t : EvalTable} {r : Row}
    (h : HasParent rows t r)
    (hmono : ∀ k, (rows.get? k).isSome = true → (rows'.get? k).isSome = true) :
    HasParent rows' t r := by
  intro column parent hreference
  obtain ⟨id, hvalue, hrow⟩ := h column parent hreference
  exact ⟨id, hvalue, hmono _ hrow⟩

/-- `INSERT`: fails (`none`) when the key is taken, a constraint is violated or the parent is
missing. -/
def insert (db : EvalDb) (t : EvalTable) (id : String) (r : Row) : Option EvalDb :=
  if h : db.rows.get? (t, id) = none ∧ t.conforms r = true ∧ HasParent db.rows t r then
    have hget : ∀ k, (db.rows.insert (t, id) r).get? k =
        if k = (t, id) then some r else db.rows.get? k := fun k => Table.get?_insert _ _ k r h.1
    have hmono : ∀ k, (db.rows.get? k).isSome = true →
        ((db.rows.insert (t, id) r).get? k).isSome = true := by
      intro k hk
      rw [hget]
      split
      · rfl
      · exact hk
    some
      { rows := db.rows.insert (t, id) r
        valid := by
          intro k r' hr'
          rw [hget] at hr'
          split at hr'
          · rename_i hk
            rw [hk, ← Option.some.inj hr']
            exact h.2.1
          · exact db.valid k r' hr'
        fk := by
          intro k r' hr'
          rw [hget] at hr'
          split at hr'
          · rename_i hk
            rw [hk, ← Option.some.inj hr']
            exact hasParent_mono h.2.2 hmono
          · exact hasParent_mono (db.fk k r' hr') hmono }
  else none

/-- An insertion adds its row and changes no other. -/
theorem get?_insert {db db' : EvalDb} {t : EvalTable} {id : String} {r : Row}
    (h : db.insert t id r = some db') (k : EvalTable × String) :
    db'.rows.get? k = if k = (t, id) then some r else db.rows.get? k := by
  unfold insert at h
  split at h
  · rename_i hnew
    obtain rfl := Option.some.inj h
    exact Table.get?_insert _ _ k r hnew.1
  · cases h

theorem insert_isSome {db : EvalDb} {t : EvalTable} {id : String} {r : Row}
    (hnew : db.rows.get? (t, id) = none) (hconforms : t.conforms r = true)
    (hparent : HasParent db.rows t r) : ∃ db', db.insert t id r = some db' := by
  unfold insert
  rw [dif_pos ⟨hnew, hconforms, hparent⟩]
  exact ⟨_, rfl⟩

end EvalDb

end Hippo.AgentEval
