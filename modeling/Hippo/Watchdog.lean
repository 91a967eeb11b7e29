import Hippo.JsonComparison
import Hippo.Table

/-!
# The watchdog's alarms

Every minute the watchdog asserts the capture invariants. A violation raises an alarm unless one of
the same invariant is active within the rate limit, and an active alarm is resolved when its
invariant and source have been clean for two ticks. An operator acknowledges alarms.
-/
namespace Hippo.Watchdog

/-- A row of `source_health`, with the columns of the probes. -/
structure SourceHealthRow where
  source : String
  probeOk : Option ℤ
  probeLagMs : Option ℤ
  probeLastRunTs : Option ℤ

structure InvariantViolation where
  invariantId : String
  source : String
  sinceMs : ℤ
  details : JsonValue

/-- A row of `capture_alarms`. -/
structure Alarm where
  invariantId : String
  raisedAt : ℤ
  detailsJson : String
  ackedAt : Option ℤ := none
  ackNote : Option String := none
  resolvedAt : Option ℤ := none
  cleanTicks : ℕ := 0
  deriving DecidableEq

/-- `capture_alarms`. No row is ever deleted, so the next id is the greatest one and one. -/
abbrev Alarms := Table ℕ Alarm

def autoResolveCleanTicks : ℕ := 2

section Probes

def probeStaleMs : ℤ := 900000

/-- `SHELL_IDLE_SUPPRESSION_BACKSTOP_MS`: 24 hours. -/
def shellIdleSuppressionBackstopMs : ℤ := 24 * 60 * 60 * 1000

def optInt (n : Option ℤ) : JsonValue := (n.map JsonValue.int).getD .null

/-- The violation of one row, if its probe has run at all. -/
def probeViolation (nowMs : ℤ) (shellRealActivityRecent : Bool) (row : SourceHealthRow) :
    Option InvariantViolation := do
  let probeRun ← row.probeLastRunTs
  let ageMs := nowMs - probeRun
  let isStale := decide (probeStaleMs < ageMs)
  let isFailing := decide (row.probeOk = some 0)
  if row.source = "shell" && isStale && !isFailing && !shellRealActivityRecent &&
      ageMs < shellIdleSuppressionBackstopMs then none
  else if isStale || isFailing then
    some
      { invariantId := "I-8"
        source := row.source
        sinceMs := ageMs
        details := .object [("failing", .bool isFailing), ("probe_lag_ms", optInt row.probeLagMs),
          ("probe_last_run_ts", .int probeRun), ("probe_ok", optInt row.probeOk),
          ("stale", .bool isStale)] }
  else none

/-- `check_i8_probe_freshness`: one violation per affected source. -/
def checkI8ProbeFreshness (rows : List SourceHealthRow) (nowMs : ℤ)
    (shellRealActivityRecent : Bool) : List InvariantViolation :=
  rows.filterMap (probeViolation nowMs shellRealActivityRecent)

end Probes

namespace Alarm

/-- Not acknowledged and not resolved. -/
def active (a : Alarm) : Bool := a.ackedAt.isNone && a.resolvedAt.isNone

end Alarm

section Tick

variable (lib : JsonLibrary)

/-- `check_rate_limit`. -/
def checkRateLimit (alarms : Alarms) (invariantId : String) (nowMs rateLimitMs : ℤ) : Bool :=
  alarms.entries.any fun a =>
    a.2.invariantId = invariantId && a.2.active && nowMs - rateLimitMs < a.2.raisedAt

/-- The text of `details_json`. A map lists its keys in order. -/
def detailsJson (v : InvariantViolation) : String :=
  lib.print (.object [("details", v.details), ("since_ms", .int v.sinceMs),
    ("source", .string v.source)])

/-- The source in a `details_json`, if it can be read and is a string. -/
def sourceOf (details : String) : Option String := do
  let v ← lib.parse details
  let source ← v.get "source"
  source.asStr

/-- The alarm row for a violation. -/
def newAlarm (v : InvariantViolation) (nowMs : ℤ) : Alarm where
  invariantId := v.invariantId
  raisedAt := nowMs
  detailsJson := detailsJson lib v

/-- A violation, and whether the database stays busy when its alarm is inserted. -/
structure Attempt where
  violation : InvariantViolation
  busy : Bool := false

/-- One round of the loop over the violations. -/
def raiseAlarm (rateLimitMs nowMs : ℤ) (alarms : Alarms) (a : Attempt) : Alarms :=
  if checkRateLimit alarms a.violation.invariantId nowMs rateLimitMs || a.busy then alarms
  else alarms.insert alarms.nextRowid (newAlarm lib a.violation nowMs)

/-- The invariant and source of an alarm. -/
def pairOf (a : Alarm) : Option (String × String) :=
  (sourceOf lib a.detailsJson).map fun source => (a.invariantId, source)

/-- The work of `auto_resolve_alarms` on one row it has selected. -/
def resolveRow (violating : List (String × String)) (nowMs : ℤ) (a : Alarm) : Alarm :=
  match pairOf lib a with
  | none => a
  | some pair =>
    if pair ∈ violating then
      if a.cleanTicks ≠ 0 then { a with cleanTicks := 0 } else a
    else if autoResolveCleanTicks ≤ a.cleanTicks + 1 then
      { a with cleanTicks := a.cleanTicks + 1, resolvedAt := some nowMs }
    else { a with cleanTicks := a.cleanTicks + 1 }

/-- `auto_resolve_alarms`. -/
def autoResolveAlarms (alarms : Alarms) (violating : List (String × String)) (nowMs : ℤ) :
    Alarms :=
  alarms.update (fun _ a => a.active) (resolveRow lib violating nowMs)

/-- What a completed tick finds. -/
structure Tick where
  nowMs : ℤ
  attempts : List Attempt

def Tick.violations (t : Tick) : List InvariantViolation := t.attempts.map Attempt.violation

/-- The violated pairs. -/
def Tick.pairs (t : Tick) : List (String × String) :=
  t.violations.map fun v => (v.invariantId, v.source)

/-- The loop over the violations of a tick. -/
def raiseAlarms (rateLimitMs : ℤ) (alarms : Alarms) (t : Tick) : Alarms :=
  t.attempts.foldl (raiseAlarm lib rateLimitMs t.nowMs) alarms

/-- Steps 4 and 4b of `run`. -/
def runTick (rateLimitMs : ℤ) (alarms : Alarms) (t : Tick) : Alarms :=
  autoResolveAlarms lib (raiseAlarms lib rateLimitMs alarms t) t.pairs t.nowMs

end Tick

/-- `alarm_rate_limit_minutes` in milliseconds. -/
def rateLimitMs (alarmRateLimitMinutes : ℕ) : ℤ := alarmRateLimitMinutes * 60 * 1000

section Operator

/-- `handle_alarms_ack`. -/
def ackAlarm (alarms : Alarms) (id : ℕ) (note : Option String) (nowMs : ℤ) : Alarms :=
  alarms.update (fun j a => j = id ∧ a.ackedAt = none)
    fun a => { a with ackedAt := some nowMs, ackNote := note }

/-- `handle_alarms_prune`. -/
def pruneAlarms (alarms : Alarms) (nowMs : ℤ) : Alarms :=
  alarms.update (fun _ a => a.ackedAt = none ∧ a.resolvedAt ≠ none)
    fun a => { a with ackedAt := some nowMs, ackNote := some "auto-resolved" }

/-- What happens to the alarms. -/
inductive Event where
  | tick (t : Tick)
  | ack (id : ℕ) (note : Option String) (nowMs : ℤ)
  | prune (nowMs : ℤ)

def step (lib : JsonLibrary) (rateLimitMs : ℤ) (alarms : Alarms) : Event → Alarms
  | .tick t => runTick lib rateLimitMs alarms t
  | .ack id note nowMs => ackAlarm alarms id note nowMs
  | .prune nowMs => pruneAlarms alarms nowMs

/-- The alarms after a history, from an empty table. -/
def run (lib : JsonLibrary) (rateLimitMs : ℤ) (es : List Event) : Alarms :=
  es.foldl (step lib rateLimitMs) Table.empty

/-- The clean ticks of a pair since it was violated last. -/
def cleanStreak (pair : String × String) (es : List Event) : ℕ :=
  es.foldl (fun n e =>
    match e with
    | .tick t => if pair ∈ t.pairs then 0 else n + 1
    | _ => n) 0

end Operator

end Hippo.Watchdog
