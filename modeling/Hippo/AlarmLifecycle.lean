import Hippo.Watchdog

/-!
# The life of an alarm

An alarm is raised by a tick that finds its pair violated, so its counter starts with the clean
ticks of the pair at zero. From then on only ticks and the operator touch it, each row on its own.
-/
namespace Hippo.Watchdog

section Rows

variable {lib : JsonLibrary} {rateLimitMs : ℤ} {alarms : Alarms} {id : ℕ} {a : Alarm}

/-- A tick's loop over the violations leaves the rows that are there. -/
theorem raiseAlarm_get? (nowMs : ℤ) (attempt : Attempt) (h : alarms.get? id = some a) :
    (raiseAlarm lib rateLimitMs nowMs alarms attempt).get? id = some a := by
  unfold raiseAlarm
  split
  · exact h
  · rw [Table.get?_insert_nextRowid, if_neg, h]
    intro hid
    rw [hid, Table.get?_nextRowid] at h
    cases h

theorem raiseAlarms_get? (t : Tick) (h : alarms.get? id = some a) :
    (raiseAlarms lib rateLimitMs alarms t).get? id = some a := by
  unfold raiseAlarms
  induction t.attempts generalizing alarms with
  | nil => exact h
  | cons attempt rest ih => exact ih (raiseAlarm_get? t.nowMs attempt h)

/-- A row that is new after the loop was raised for one of its violations. -/
theorem raiseAlarms_new (t : Tick) (h : (raiseAlarms lib rateLimitMs alarms t).get? id = some a) :
    alarms.get? id = some a ∨ ∃ v ∈ t.violations, a = newAlarm lib v t.nowMs := by
  rw [Tick.violations]
  unfold raiseAlarms at h
  generalize t.attempts = attempts at h ⊢
  induction attempts generalizing alarms with
  | nil => exact Or.inl h
  | cons attempt rest ih =>
    rcases ih h with hold | ⟨v, hv, rfl⟩
    · unfold raiseAlarm at hold
      split at hold
      · exact Or.inl hold
      · rw [Table.get?_insert_nextRowid] at hold
        split at hold
        · obtain rfl := Option.some.inj hold
          exact Or.inr ⟨attempt.violation, by simp, rfl⟩
        · exact Or.inl hold
    · exact Or.inr ⟨v, List.mem_cons_of_mem _ hv, rfl⟩

theorem autoResolveAlarms_get? (violating : List (String × String)) (nowMs : ℤ) (id : ℕ) :
    (autoResolveAlarms lib alarms violating nowMs).get? id = (alarms.get? id).map fun a =>
      if a.active then resolveRow lib violating nowMs a else a := by
  rw [autoResolveAlarms, Table.get?_update]

/-- What a tick does to a row. -/
theorem runTick_get? (t : Tick) (h : alarms.get? id = some a) :
    (runTick lib rateLimitMs alarms t).get? id =
      some (if a.active then resolveRow lib t.pairs t.nowMs a else a) := by
  rw [runTick, autoResolveAlarms_get?, raiseAlarms_get? t h, Option.map_some]

/-- A tick changes no alarm that is acknowledged or resolved. -/
theorem runTick_inactive (t : Tick) (h : alarms.get? id = some a) (ha : a.active = false) :
    (runTick lib rateLimitMs alarms t).get? id = some a := by
  rw [runTick_get? t h, ha]
  rfl

/-- Only the row's own pair decides what a tick does to it. -/
theorem resolveRow_congr {violating violating' : List (String × String)} (nowMs : ℤ)
    (h : ∀ pair, pairOf lib a = some pair → (pair ∈ violating ↔ pair ∈ violating')) :
    resolveRow lib violating nowMs a = resolveRow lib violating' nowMs a := by
  unfold resolveRow
  cases hpair : pairOf lib a with
  | none => rfl
  | some pair => simp only [h pair hpair]

end Rows

section Streak

@[simp] theorem cleanStreak_tick (pair : String × String) (es : List Event) (t : Tick) :
    cleanStreak pair (es ++ [.tick t]) = if pair ∈ t.pairs then 0 else cleanStreak pair es + 1 := by
  rw [cleanStreak, List.foldl_append]
  rfl

@[simp] theorem cleanStreak_ack (pair : String × String) (es : List Event) (id : ℕ)
    (note : Option String) (nowMs : ℤ) :
    cleanStreak pair (es ++ [.ack id note nowMs]) = cleanStreak pair es := by
  rw [cleanStreak, List.foldl_append]
  rfl

@[simp] theorem cleanStreak_prune (pair : String × String) (es : List Event) (nowMs : ℤ) :
    cleanStreak pair (es ++ [.prune nowMs]) = cleanStreak pair es := by
  rw [cleanStreak, List.foldl_append]
  rfl

theorem run_append (lib : JsonLibrary) (rateLimitMs : ℤ) (es : List Event) (e : Event) :
    run lib rateLimitMs (es ++ [e]) = step lib rateLimitMs (run lib rateLimitMs es) e := by
  rw [run, List.foldl_append]
  rfl

end Streak

section Lifecycle

variable {lib : JsonLibrary} {rateLimitMs : ℤ} {es : List Event} {id : ℕ} {a : Alarm}

/-- The library reads the sources that it has printed. -/
def ReadsBack (lib : JsonLibrary) (es : List Event) : Prop :=
  ∀ t, .tick t ∈ es → ∀ v ∈ t.violations, sourceOf lib (detailsJson lib v) = some v.source

/-- An active alarm counts the clean ticks of its pair, and is not due yet. -/
def Counts (lib : JsonLibrary) (es : List Event) (a : Alarm) : Prop :=
  ∃ pair, pairOf lib a = some pair ∧ a.cleanTicks = cleanStreak pair es ∧
    a.cleanTicks < autoResolveCleanTicks

theorem pairOf_newAlarm {v : InvariantViolation} (nowMs : ℤ)
    (h : sourceOf lib (detailsJson lib v) = some v.source) :
    pairOf lib (newAlarm lib v nowMs) = some (v.invariantId, v.source) := by
  show (sourceOf lib (detailsJson lib v)).map _ = _
  rw [h]
  rfl

/-- A tick on an active alarm of a pair. -/
theorem resolveRow_cases (violating : List (String × String)) (nowMs : ℤ) {pair : String × String}
    (hpair : pairOf lib a = some pair) (hticks : a.cleanTicks < autoResolveCleanTicks) :
    (pair ∈ violating ∧ resolveRow lib violating nowMs a = { a with cleanTicks := 0 }) ∨
    (pair ∉ violating ∧ a.cleanTicks = 0 ∧
      resolveRow lib violating nowMs a = { a with cleanTicks := 1 }) ∨
    (pair ∉ violating ∧ a.cleanTicks = 1 ∧
      resolveRow lib violating nowMs a = { a with cleanTicks := 2, resolvedAt := some nowMs }) := by
  have hcases : a.cleanTicks = 0 ∨ a.cleanTicks = 1 := by
    rw [autoResolveCleanTicks] at hticks
    omega
  unfold resolveRow
  rw [hpair]
  by_cases hviolated : pair ∈ violating
  · left
    refine ⟨hviolated, ?_⟩
    simp only [hviolated, if_true]
    split
    · rfl
    · rename_i hzero
      rw [← not_not.mp hzero]
  · right
    rcases hcases with hzero | hone
    · left
      simp [hviolated, hzero, autoResolveCleanTicks]
    · right
      simp [hviolated, hone, autoResolveCleanTicks]

theorem active_iff : a.active = true ↔ a.ackedAt = none ∧ a.resolvedAt = none := by
  rw [Alarm.active, Bool.and_eq_true, Option.isNone_iff_eq_none, Option.isNone_iff_eq_none]

/-- A tick keeps the count of every alarm that is active after it. -/
theorem counts_tick (t : Tick) {a' : Alarm}
    (hold : ∀ a, (run lib rateLimitMs es).get? id = some a → a.active = true → Counts lib es a)
    (hread : ∀ v ∈ t.violations, sourceOf lib (detailsJson lib v) = some v.source)
    (h : (runTick lib rateLimitMs (run lib rateLimitMs es) t).get? id = some a')
    (ha' : a'.active = true) : Counts lib (es ++ [.tick t]) a' := by
  rw [runTick, autoResolveAlarms_get?] at h
  obtain ⟨a, ha, hstep⟩ := Option.map_eq_some_iff.mp h
  have hactive : a.active = true := by
    by_contra hno
    rw [if_neg hno] at hstep
    exact hno (hstep ▸ ha')
  rw [if_pos hactive] at hstep
  -- a row counts before the tick resolves, or it is new and its pair is violated
  have hcounts : ∃ pair, pairOf lib a = some pair ∧ a.cleanTicks < autoResolveCleanTicks ∧
      (pair ∈ t.pairs ∨ a.cleanTicks = cleanStreak pair es) := by
    rcases raiseAlarms_new t ha with hrow | ⟨v, hv, rfl⟩
    · obtain ⟨pair, hpair, hticks, hlt⟩ := hold a hrow hactive
      exact ⟨pair, hpair, hlt, Or.inr hticks⟩
    · exact ⟨_, pairOf_newAlarm t.nowMs (hread v hv), Nat.zero_lt_two,
        Or.inl (List.mem_map_of_mem hv)⟩
  obtain ⟨pair, hpair, hlt, hticks⟩ := hcounts
  rcases resolveRow_cases t.pairs t.nowMs hpair hlt with
    ⟨hviolated, hrow⟩ | ⟨hclean, hzero, hrow⟩ | ⟨-, -, hrow⟩
  · rw [hrow] at hstep
    obtain rfl := hstep
    refine ⟨pair, hpair, ?_, Nat.zero_lt_two⟩
    rw [cleanStreak_tick, if_pos hviolated]
  · rw [hrow] at hstep
    obtain rfl := hstep
    refine ⟨pair, hpair, ?_, Nat.one_lt_two⟩
    have hstreak := hticks.resolve_left hclean
    rw [cleanStreak_tick, if_neg hclean, ← hstreak, hzero]
  · -- a resolved row is not active
    rw [hrow] at hstep
    obtain rfl := hstep
    rw [active_iff] at ha'
    cases ha'.2

theorem counts_of_operator {es' : List Event} {p : ℕ → Alarm → Prop}
    [∀ k r, Decidable (p k r)] {f : Alarm → Alarm} {alarms : Alarms}
    (hacked : ∀ a, (f a).active = false) (hstreak : ∀ pair, cleanStreak pair es' =
      cleanStreak pair es)
    (hold : ∀ a, alarms.get? id = some a → a.active = true → Counts lib es a) {a' : Alarm}
    (h : (alarms.update p f).get? id = some a') (ha' : a'.active = true) :
    Counts lib es' a' := by
  obtain ⟨a, ha, ⟨-, rfl⟩ | ⟨-, rfl⟩⟩ := Table.eq_of_get?_update h
  · rw [hacked] at ha'
    cases ha'
  · obtain ⟨pair, hpair, hticks, hlt⟩ := hold _ ha ha'
    exact ⟨pair, hpair, by rw [hstreak, hticks], hlt⟩

/-- Every active alarm counts the clean ticks of its pair. -/
theorem run_counts (hread : ReadsBack lib es) (h : (run lib rateLimitMs es).get? id = some a)
    (ha : a.active = true) : Counts lib es a := by
  induction es using List.reverseRecOn generalizing id a with
  | nil => cases h
  | append_singleton es e ih =>
    have hread' : ReadsBack lib es := fun t ht => hread t (List.mem_append_left _ ht)
    have hold : ∀ id a, (run lib rateLimitMs es).get? id = some a → a.active = true →
        Counts lib es a := fun id a hrow hactive => ih hread' hrow hactive
    rw [run_append] at h
    cases e with
    | tick t =>
      exact counts_tick t (hold id) (hread t (List.mem_append_right _ (List.mem_singleton_self _)))
        h ha
    | ack j note nowMs =>
      have hacked : ∀ a : Alarm,
          Alarm.active { a with ackedAt := some nowMs, ackNote := note } = false := fun _ => rfl
      exact counts_of_operator hacked (fun pair => cleanStreak_ack pair es j note nowMs) (hold id)
        h ha
    | prune nowMs =>
      have hacked : ∀ a : Alarm, Alarm.active
          { a with ackedAt := some nowMs, ackNote := some "auto-resolved" } = false := fun _ => rfl
      exact counts_of_operator hacked (fun pair => cleanStreak_prune pair es nowMs) (hold id) h ha

/-- In every history an active alarm counts the clean ticks of its pair since it was violated last.
The next tick resolves it exactly when that is the second of them, resets it when the pair is
violated, and looks at no other pair; it changes no alarm that is acknowledged or resolved. -/
theorem alarm_lifecycle (lib : JsonLibrary) (rateLimitMs : ℤ) (es : List Event)
    (hread : ReadsBack lib es) (t : Tick) (id : ℕ) (a : Alarm)
    (h : (run lib rateLimitMs es).get? id = some a) :
    (a.active = true → ∃ pair a', pairOf lib a = some pair ∧
      (run lib rateLimitMs (es ++ [.tick t])).get? id = some a' ∧
      a.cleanTicks = cleanStreak pair es ∧
      a'.cleanTicks = cleanStreak pair (es ++ [.tick t]) ∧
      (a'.resolvedAt = if pair ∉ t.pairs ∧ cleanStreak pair es = 1 then some t.nowMs else none) ∧
      a' = { a with cleanTicks := a'.cleanTicks, resolvedAt := a'.resolvedAt }) ∧
    (a.active = false → (run lib rateLimitMs (es ++ [.tick t])).get? id = some a) := by
  rw [run_append]
  constructor
  · intro hactive
    obtain ⟨pair, hpair, hticks, hlt⟩ := run_counts hread h hactive
    have hresolved := (active_iff.mp hactive).2
    refine ⟨pair, _, hpair, runTick_get? t h, hticks, ?_⟩
    rw [if_pos hactive, cleanStreak_tick, ← hticks]
    rcases resolveRow_cases t.pairs t.nowMs hpair hlt with
      ⟨hviolated, hrow⟩ | ⟨hclean, hzero, hrow⟩ | ⟨hclean, hone, hrow⟩
    · rw [hrow]
      simp [hviolated, hresolved]
    · rw [hrow]
      simp [hclean, hzero, hresolved]
    · rw [hrow]
      simp [hclean, hone]
  · intro hinactive
    exact runTick_inactive t h hinactive

end Lifecycle

section Sample

/-- The shell and the browser, each with a probe that ran at time 0 and failed. -/
def failingProbes : List SourceHealthRow :=
  [⟨"shell", some 0, none, some 0⟩, ⟨"browser", some 0, none, some 0⟩]

def failingProbe (source : String) (sinceMs : ℤ) : JsonValue :=
  .object [("details", .object [("failing", .bool true), ("probe_lag_ms", .null),
      ("probe_last_run_ts", .int 0), ("probe_ok", .int 0), ("stale", .bool false)]),
    ("since_ms", .int sinceMs), ("source", .string source)]

def failingProbeText (source sinceMs : String) : String :=
  "\x7b\"details\":\x7b\"failing\":true,\"probe_lag_ms\":null,\"probe_last_run_ts\":0," ++
    "\"probe_ok\":0,\"stale\":false\x7d,\"since_ms\":" ++ sinceMs ++ ",\"source\":\"" ++
      source ++ "\"\x7d"

/-- The details of two sources at two times, as they are printed. -/
def probeDetails : List (String × JsonValue) :=
  [(failingProbeText "shell" "0", failingProbe "shell" 0),
    (failingProbeText "shell" "90000", failingProbe "shell" 90000),
    (failingProbeText "browser" "0", failingProbe "browser" 0),
    (failingProbeText "browser" "90000", failingProbe "browser" 90000)]

def probeLibrary : JsonLibrary where
  parse := fun t => probeDetails.lookup t
  print := fun v => ((probeDetails.find? fun e => jsonEq e.2 v).map Prod.fst).getD "null"

/-- A tick that finds the violations of the probes, and a database that is not busy. -/
def probeTick (rows : List SourceHealthRow) (nowMs : ℤ) : Tick :=
  ⟨nowMs, (checkI8ProbeFreshness rows nowMs true).map fun v => ⟨v, false⟩⟩

theorem probeTick_readsBack : ReadsBack probeLibrary [.tick (probeTick failingProbes 0)] := by
  intro t ht
  obtain rfl := Event.tick.inj (List.mem_singleton.mp ht)
  intro v hv
  have hall : ((probeTick failingProbes 0).violations.all fun v =>
      sourceOf probeLibrary (detailsJson probeLibrary v) = some v.source) = true := by
    decide +kernel
  exact of_decide_eq_true (List.all_eq_true.mp hall v hv)

/-- One clean tick does not resolve the alarm of the shell. -/
theorem shell_alarm_stays : ∃ a, (run probeLibrary 60000
    ([.tick (probeTick failingProbes 0)] ++ [.tick (probeTick [] 60000)])).get? 1 = some a ∧
      a.cleanTicks = 1 ∧ a.resolvedAt = none := by
  have hrow : ∃ a, (run probeLibrary 60000 [.tick (probeTick failingProbes 0)]).get? 1 = some a ∧
      a.active = true ∧ pairOf probeLibrary a = some ("I-8", "shell") :=
    ⟨newAlarm probeLibrary ⟨"I-8", "shell", 0, .object [("failing", .bool true),
      ("probe_lag_ms", .null), ("probe_last_run_ts", .int 0), ("probe_ok", .int 0),
      ("stale", .bool false)]⟩ 0, by decide +kernel⟩
  obtain ⟨a, ha, hactive, hpair⟩ := hrow
  obtain ⟨pair, a', hpair', ha', -, hticks, hresolved, -⟩ :=
    (alarm_lifecycle probeLibrary 60000 _ probeTick_readsBack (probeTick [] 60000) 1 a ha).1 hactive
  rw [hpair] at hpair'
  obtain rfl := Option.some.inj hpair'
  refine ⟨a', ha', ?_, ?_⟩
  · rw [hticks]
    decide +kernel
  · rw [hresolved]
    decide +kernel

end Sample

end Hippo.Watchdog
