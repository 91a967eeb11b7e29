import Hippo.Transition
import Hippo.Watchdog

/-!
# Lessons from capture alarms

A sync feeds every alarm above its cursor, in id order, into the cluster of the alarm's invariant
and source. The update of the cluster and the advance of the cursor are two commits on two
connections, so a sync can end between them.
-/
namespace Hippo.AlarmLessons

open Watchdog (Alarm Alarms)

structure ClusterKey where
  repo : String
  tool : String
  ruleId : String
  pathPrefix : String
  deriving DecidableEq

/-- A row of `lesson_pending`. -/
structure PendingLesson where
  count : ℕ
  firstSeenAt : ℤ

/-- A row of `lessons`. -/
structure Lesson where
  summary : String
  fixHint : Option String
  occurrences : ℕ
  firstSeenAt : ℤ
  lastSeenAt : ℤ

/-- The two tables of the clusters. Both are unique in the key. -/
structure Lessons where
  pending : Table ClusterKey PendingLesson
  lessons : Table ClusterKey Lesson

section Upsert

/-- `upsert_cluster`, up to its commit. The second value tells whether there is a lesson now. -/
def upsertCluster (db : Lessons) (key : ClusterKey) (minOccurrences : ℕ)
    (summaryFn : ClusterKey → String) (fixHintFn : ClusterKey → Option String) (nowMs : ℤ) :
    Lessons × Bool :=
  match db.lessons.get? key with
  | some _ =>
    let bump := fun l : Lesson => { l with occurrences := l.occurrences + 1, lastSeenAt := nowMs }
    ({ db with lessons := db.lessons.modify key bump }, true)
  | none =>
    -- the row as the second SELECT reads it back
    let row := ((db.pending.get? key).map fun p => { p with count := p.count + 1 }).getD
      { count := 1, firstSeenAt := nowMs }
    let pending := db.pending.put key row
    if row.count < minOccurrences then ({ db with pending := pending }, false)
    else
      let lesson : Lesson :=
        { summary := summaryFn key
          fixHint := fixHintFn key
          occurrences := row.count
          firstSeenAt := row.firstSeenAt
          lastSeenAt := nowMs }
      ({ pending := pending.erase key, lessons := db.lessons.insert key lesson }, true)

end Upsert

/-- The Python library: JSON, and the texts of values and numbers. -/
structure PythonText where
  loads : String → Option JsonValue
  str : JsonValue → String
  repr : String → String
  percent : ℕ → ℕ → ℤ
  formatDurationMs : ℤ → String

/-- A row of `capture_alarms` as the sync selects it. -/
structure AlarmRow where
  id : ℕ
  invariantId : String
  raisedAt : ℤ
  detailsJson : String
  deriving DecidableEq

def rowOf (e : ℕ × Alarm) : AlarmRow where
  id := e.1
  invariantId := e.2.invariantId
  raisedAt := e.2.raisedAt
  detailsJson := e.2.detailsJson

/-- The alarms above the cursor, in id order. -/
def unseen (alarms : Alarms) (lastAlarmId : ℕ) : List AlarmRow :=
  orderBy (fun r => (r.id : ℤ)) ((alarms.select fun id _ => lastAlarmId < id).map rowOf)

section Keys

variable (text : PythonText)

/-- `_extract_source`. -/
def extractSource (detailsJson : String) : String :=
  match (text.loads detailsJson).bind fun payload => payload.get "source" with
  | none => ""
  | some .null => ""
  | some source => text.str source

/-- `details_json or "{}"`. -/
def detailsOr (detailsJson : String) : String :=
  if detailsJson.isEmpty then "\x7b\x7d" else detailsJson

def capturePath : String := "docs/capture/"

/-- `cluster_key_for_alarm`. -/
def clusterKeyForAlarm (repo invariantId detailsJson : String) : ClusterKey :=
  let source := extractSource text detailsJson
  { repo := repo
    tool := if source.isEmpty then "hippo-watchdog" else "hippo-capture:" ++ source
    ruleId := invariantId
    pathPrefix := capturePath }

/-- The cluster of an alarm. -/
def keyOf (repo : String) (row : AlarmRow) : ClusterKey :=
  clusterKeyForAlarm text repo row.invariantId (detailsOr row.detailsJson)

end Keys

section Summaries

variable (text : PythonText)

/-- The source in the tool of a key, where the key has one. -/
def captureSource (key : ClusterKey) : Option String :=
  if "hippo-capture:".toList.isPrefixOf key.tool.toList then
    some (String.ofList (key.tool.toList.drop "hippo-capture:".length))
  else none

structure FlapStats where
  total : ℕ
  autoResolved : ℕ
  medianResolutionMs : Option ℤ

/-- `int(statistics.median(…))`. -/
def median (times : List ℤ) : Option ℤ :=
  let sorted := orderBy id times
  let half := sorted.length / 2
  if sorted.length % 2 = 1 then sorted[half]?
  else do
    let low ← sorted[half - 1]?
    let high ← sorted[half]?
    pure ((low + high).tdiv 2)

/-- `_flap_stats_for_key`. -/
def flapStatsForKey (alarms : Alarms) (invariantId source : String) : FlapStats :=
  let rows := (alarms.select fun _ a => a.invariantId = invariantId).filter fun e =>
    extractSource text (detailsOr e.2.detailsJson) = source
  let times := rows.filterMap fun e => e.2.resolvedAt.map fun resolvedAt => resolvedAt - e.2.raisedAt
  { total := rows.length, autoResolved := times.length, medianResolutionMs := median times }

/-- `_summary_for_key`. -/
def summaryForKey (key : ClusterKey) (stats : Option FlapStats) : String :=
  let base := match captureSource key with
    | some source =>
      "Capture invariant " ++ key.ruleId ++ " violated for source " ++ text.repr source
    | none => "Capture invariant " ++ key.ruleId ++ " violated (see docs/capture/)"
  match stats with
  | none => base
  | some stats =>
    if stats.total = 0 then base
    else
      let pct := toString (text.percent stats.autoResolved stats.total)
      match stats.medianResolutionMs with
      | some ms => base ++ " (" ++ pct ++ "% auto-resolved, median resolution " ++
          text.formatDurationMs ms ++ ")"
      | none => base ++ " (" ++ pct ++ "% auto-resolved)"

/-- `_fix_hint_for_key`. -/
def fixHintForKey (_key : ClusterKey) : Option String :=
  some "Run `hippo doctor --explain` and see docs/capture/operator-runbook.md"

/-- `_refresh_flap_summaries`. -/
def refreshFlapSummaries (alarms : Alarms) (db : Lessons) (keys : List ClusterKey) : Lessons :=
  let refresh := fun (lessons : Table ClusterKey Lesson) (key : ClusterKey) =>
    let stats := flapStatsForKey text alarms key.ruleId ((captureSource key).getD "")
    lessons.modify key fun l => { l with summary := summaryForKey text key (some stats) }
  { db with lessons := keys.foldl refresh db.lessons }

end Summaries

section Machine

/-- Where a sync is: outside a call, before the next alarm, between the two commits of an alarm,
or before the summaries are refreshed. -/
inductive Phase where
  | idle
  | running (minOccurrences : ℕ) (rows : List AlarmRow) (touched : List ClusterKey)
  | counted (minOccurrences : ℕ) (row : AlarmRow) (rows : List AlarmRow)
      (touched : List ClusterKey)
  | refreshing (touched : List ClusterKey)

structure State where
  alarms : Alarms
  db : Lessons
  lastAlarmId : ℕ
  phase : Phase

def State.init : State where
  alarms := Table.empty
  db := { pending := Table.empty, lessons := Table.empty }
  lastAlarmId := 0
  phase := .idle

inductive Action where
  /-- An alarm is raised. -/
  | raise (a : Alarm)
  /-- Rows of the alarms are acknowledged, resolved or counted clean. -/
  | amend (f : ℕ → Alarm → Alarm)
  | begin (minOccurrences : ℕ)
  /-- `upsert_cluster` commits. -/
  | register
  /-- `upsert_cluster` raises; nothing is committed. -/
  | reject
  /-- The cursor moves to the alarm. -/
  | advance
  | refresh
  /-- The process dies, or an error leaves the call. -/
  | stop

/-- The part of a row that identifies what was raised stays. -/
def keepOrigin (f : ℕ → Alarm → Alarm) (id : ℕ) (a : Alarm) : Alarm :=
  { f id a with
    invariantId := a.invariantId
    raisedAt := a.raisedAt
    detailsJson := a.detailsJson }

/-- `touched_keys[key] = None`. -/
def touch (touched : List ClusterKey) (key : ClusterKey) : List ClusterKey :=
  if key ∈ touched then touched else touched ++ [key]

/-- The end of the loop. -/
def afterLoop (touched : List ClusterKey) : Phase :=
  if touched.isEmpty then .idle else .refreshing touched

variable (text : PythonText) (repo : String)

/-- One commit, or one step that commits nothing. -/
def step (s : State) : Action → Option State
  | .raise a => some { s with alarms := s.alarms.insert s.alarms.nextRowid a }
  | .amend f => some { s with alarms := s.alarms.mapRows (keepOrigin f) }
  | .begin minOccurrences =>
    match s.phase with
    | .idle =>
      if minOccurrences < 1 then some s
      else
        let rows := unseen s.alarms s.lastAlarmId
        some { s with phase := if rows.isEmpty then .idle else .running minOccurrences rows [] }
    | _ => none
  | .register =>
    match s.phase with
    | .running minOccurrences (row :: rows) touched =>
      let key := keyOf text repo row
      let db := (upsertCluster s.db key minOccurrences (summaryForKey text · none) fixHintForKey
        row.raisedAt).1
      some { s with db := db, phase := .counted minOccurrences row rows (touch touched key) }
    | _ => none
  | .reject =>
    match s.phase with
    | .running _ (_ :: _) touched => some { s with phase := afterLoop touched }
    | _ => none
  | .advance =>
    match s.phase with
    | .counted minOccurrences row rows touched =>
      some { s with
        lastAlarmId := row.id
        phase := if rows.isEmpty then afterLoop touched else .running minOccurrences rows touched }
    | _ => none
  | .refresh =>
    match s.phase with
    | .refreshing touched =>
      some { s with db := refreshFlapSummaries text s.alarms s.db touched, phase := .idle }
    | _ => none
  | .stop => some { s with phase := .idle }

end Machine

end Hippo.AlarmLessons
