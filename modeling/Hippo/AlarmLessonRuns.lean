import Hippo.AlarmLessonCounts
import Hippo.AlarmRateLimit

/-!
# How often an alarm is counted

Every alarm at or below the cursor has been counted once in the cluster of its own key, and once
more for each time that a sync ended between the two commits of that alarm.
-/
namespace Hippo.AlarmLessons

open Transition (exec Reaches)
open Watchdog (Alarm Alarms)

namespace Phase

/-- The alarms a sync has selected and whose cursor update is still to come. -/
def rows : Phase → List AlarmRow
  | .running _ rows _ => rows
  | .counted _ row rows _ => row :: rows
  | _ => []

/-- The alarm between its two commits. -/
def between : Phase → Option AlarmRow
  | .counted _ row _ _ => some row
  | _ => none

@[simp] theorem rows_afterLoop (touched : List ClusterKey) : (afterLoop touched).rows = [] := by
  unfold afterLoop
  split <;> rfl

@[simp] theorem between_afterLoop (touched : List ClusterKey) :
    (afterLoop touched).between = none := by
  unfold afterLoop
  split <;> rfl

end Phase

section Runs

variable {text : PythonText} {repo : String} {s t : State} {as : List Action} {a : Action}

/-- One for an alarm of the clusters in `P`. -/
def weight (text : PythonText) (repo : String) (P : ClusterKey → Bool) (row : AlarmRow) : ℕ :=
  if P (keyOf text repo row) then 1 else 0

/-- What is counted and not yet passed by the cursor. -/
def inFlight (text : PythonText) (repo : String) (P : ClusterKey → Bool) (phase : Phase) : ℕ :=
  (phase.between.map (weight text repo P)).getD 0

/-- What a step leaves to be counted again. -/
def recounted (text : PythonText) (repo : String) (P : ClusterKey → Bool) (s : State) :
    Action → ℕ
  | .stop => inFlight text repo P s.phase
  | _ => 0

/-- What the steps of a run leave to be counted again. -/
def recountedIn (text : PythonText) (repo : String) (P : ClusterKey → Bool) :
    State → List Action → ℕ
  | _, [] => 0
  | s, a :: as => recounted text repo P s a +
      ((step text repo s a).map fun t => recountedIn text repo P t as).getD 0

/-- The counts of a state, with `extra P` counted more than once so far. -/
structure Counted (text : PythonText) (repo : String) (s : State)
    (extra : (ClusterKey → Bool) → ℕ) : Prop where
  ordered : Ordered s.alarms
  behind : s.lastAlarmId < s.alarms.nextRowid
  upcoming : s.phase.rows <+: unseen s.alarms s.lastAlarmId
  counts : ∀ P, countWhere P s.db = ((seenRows s.alarms s.lastAlarmId).map
    (weight text repo P)).sum + inFlight text repo P s.phase + extra P

theorem counted_init : Counted text repo State.init fun _ => 0 where
  ordered := List.Pairwise.nil
  behind := Nat.zero_lt_one
  upcoming := List.nil_prefix
  counts _ := rfl

variable {extra : (ClusterKey → Bool) → ℕ}

theorem Counted.raise (h : Counted text repo s extra) (a : Alarm) :
    Counted text repo { s with alarms := s.alarms.insert s.alarms.nextRowid a } extra := by
  obtain ⟨hunseen, hseen⟩ := raise_rows h.ordered a h.behind
  exact
    { ordered := raise_ordered h.ordered a
      behind := h.behind.trans (nextRowid_raise s.alarms a)
      upcoming := h.upcoming.trans hunseen
      counts := fun P => by
        show countWhere P s.db = ((seenRows (s.alarms.insert s.alarms.nextRowid a)
          s.lastAlarmId).map (weight text repo P)).sum + inFlight text repo P s.phase + extra P
        rw [hseen]
        exact h.counts P }

theorem Counted.amend (h : Counted text repo s extra) (f : ℕ → Alarm → Alarm) :
    Counted text repo { s with alarms := s.alarms.mapRows (keepOrigin f) } extra where
  ordered := amend_ordered h.ordered f
  behind := by
    show s.lastAlarmId < (s.alarms.mapRows (keepOrigin f)).nextRowid
    rw [Table.nextRowid, Table.keys_mapRows]
    exact h.behind
  upcoming := by
    show s.phase.rows <+: unseen (s.alarms.mapRows (keepOrigin f)) s.lastAlarmId
    rw [unseen, amend_select]
    exact h.upcoming
  counts P := by
    show countWhere P s.db = ((seenRows (s.alarms.mapRows (keepOrigin f))
      s.lastAlarmId).map (weight text repo P)).sum + inFlight text repo P s.phase + extra P
    rw [seenRows, amend_select]
    exact h.counts P

/-- A step that moves neither the alarms nor the cursor. -/
theorem Counted.of_counts (h : Counted text repo s extra) {db : Lessons} {phase : Phase}
    {extra' : (ClusterKey → Bool) → ℕ}
    (hrows : phase.rows <+: unseen s.alarms s.lastAlarmId)
    (hcounts : ∀ P, countWhere P db + inFlight text repo P s.phase + extra P =
      countWhere P s.db + inFlight text repo P phase + extra' P) :
    Counted text repo { s with db := db, phase := phase } extra' where
  ordered := h.ordered
  behind := h.behind
  upcoming := hrows
  counts P := by
    have hold := h.counts P
    have hnew := hcounts P
    show countWhere P db = ((seenRows s.alarms s.lastAlarmId).map (weight text repo P)).sum +
      inFlight text repo P phase + extra' P
    omega

theorem Counted.advance (h : Counted text repo s extra) {row : AlarmRow} {rows : List AlarmRow}
    {phase : Phase} (hrow : s.phase.between = some row) (hrows : s.phase.rows = row :: rows)
    (hnext : phase.between = none) (hafter : phase.rows <+: rows) :
    Counted text repo { s with lastAlarmId := row.id, phase := phase } extra := by
  have hup := h.upcoming
  rw [hrows] at hup
  obtain ⟨hunseen, hseen, hkey⟩ := unseen_advance h.ordered hup
  exact
    { ordered := h.ordered
      behind := Table.lt_nextRowid hkey
      upcoming := hafter.trans hunseen
      counts := fun P => by
        have hold := h.counts P
        have hin : inFlight text repo P s.phase = weight text repo P row := by simp [inFlight, hrow]
        show countWhere P s.db = ((seenRows s.alarms row.id).map (weight text repo P)).sum +
          inFlight text repo P phase + extra P
        have hout : inFlight text repo P phase = 0 := by
          simp [inFlight, hnext]
        rw [hseen, hout, List.map_append, List.sum_append, List.map_singleton, List.sum_singleton]
        omega }

/-- What one step does to the counts. -/
theorem Counted.step (h : Counted text repo s extra) (hstep : step text repo s a = some t) :
    Counted text repo t fun P => extra P + recounted text repo P s a := by
  cases a with
  | raise a =>
    cases hstep
    exact h.raise a
  | amend f =>
    cases hstep
    exact h.amend f
  | begin minOccurrences =>
    simp only [AlarmLessons.step] at hstep
    split at hstep
    next hphase =>
      split at hstep
      · cases hstep
        exact h
      · cases hstep
        apply h.of_counts
        · split
          · exact List.nil_prefix
          · exact List.prefix_refl _
        · intro P
          simp only [inFlight, hphase, recounted]
          split <;> rfl
    next => cases hstep
  | register =>
    simp only [AlarmLessons.step] at hstep
    split at hstep
    next minOccurrences row rows touched hphase =>
      cases hstep
      apply h.of_counts
      · have hup := h.upcoming
        rw [hphase] at hup
        exact hup
      · intro P
        rw [countWhere_upsertCluster]
        simp only [inFlight, hphase, recounted, Phase.between, Option.map_some, Option.map_none,
          Option.getD_some, Option.getD_none, weight]
        omega
    next => cases hstep
  | reject =>
    simp only [AlarmLessons.step] at hstep
    split at hstep
    next _ row rows touched hphase =>
      cases hstep
      apply h.of_counts
      · rw [Phase.rows_afterLoop]
        exact List.nil_prefix
      · intro P
        simp only [inFlight, hphase, recounted, Phase.between_afterLoop]
        rfl
    next => cases hstep
  | advance =>
    simp only [AlarmLessons.step] at hstep
    split at hstep
    next minOccurrences row rows touched hphase =>
      cases hstep
      have hrows : s.phase.rows = row :: rows := by rw [hphase]; rfl
      refine h.advance ?_ hrows ?_ ?_
      · rw [hphase]
        rfl
      · split
        · exact Phase.between_afterLoop touched
        · rfl
      · split
        · rw [Phase.rows_afterLoop]
          exact List.nil_prefix
        · exact List.prefix_refl rows
    next => cases hstep
  | refresh =>
    simp only [AlarmLessons.step] at hstep
    split at hstep
    next touched hphase =>
      cases hstep
      apply h.of_counts
      · exact List.nil_prefix
      · intro P
        rw [countWhere_refreshFlapSummaries]
        simp only [inFlight, hphase, recounted, Phase.between, Nat.add_zero]
    next => cases hstep
  | stop =>
    cases hstep
    apply h.of_counts
    · exact List.nil_prefix
    · intro P
      simp only [recounted]
      show _ = countWhere P s.db + 0 + _
      omega

theorem counted_exec (h : Counted text repo s extra)
    (hexec : exec (step text repo) s as = some t) :
    Counted text repo t fun P => extra P + recountedIn text repo P s as := by
  induction as generalizing s extra with
  | nil =>
    cases hexec
    exact h
  | cons a as ih =>
    obtain ⟨m, hm, hrest⟩ := Option.bind_eq_some_iff.mp hexec
    have hcounted := ih (h.step hm) hrest
    simp only [recountedIn, hm, Option.map_some, Option.getD_some]
    simpa only [Nat.add_assoc] using hcounted

/-- No sync of the run ends between the two commits of an alarm. -/
def Uninterrupted (text : PythonText) (repo : String) (s : State) (as : List Action) : Prop :=
  ∀ before m rest, as = before ++ .stop :: rest → exec (step text repo) s before = some m →
    m.phase.between = none

theorem inFlight_eq_zero {phase : Phase}
    (h : inFlight text repo (fun _ => true) phase = 0) : phase.between = none := by
  cases hrow : phase.between with
  | none => rfl
  | some row => simp [inFlight, hrow, weight] at h

theorem recountedIn_eq_zero (h : Uninterrupted text repo s as) (P : ClusterKey → Bool) :
    recountedIn text repo P s as = 0 := by
  induction as generalizing s with
  | nil => rfl
  | cons a as ih =>
    have hhead : recounted text repo P s a = 0 := by
      cases a with
      | stop => simp [recounted, inFlight, h [] s as rfl rfl]
      | _ => rfl
    cases hm : step text repo s a with
    | none => simp [recountedIn, hhead, hm]
    | some m =>
      have htail : Uninterrupted text repo m as := by
        intro before m' rest has hexec
        apply h (a :: before) m' rest (by rw [has, List.cons_append])
        rw [Transition.exec, hm]
        exact hexec
      simp [recountedIn, hhead, hm, ih htail]

theorem uninterrupted_of_recountedIn (h : recountedIn text repo (fun _ => true) s as = 0) :
    Uninterrupted text repo s as := by
  induction as generalizing s with
  | nil =>
    intro before m rest has
    simp at has
  | cons a as ih =>
    intro before m rest has hexec
    have hsum : recounted text repo (fun _ => true) s a +
        ((step text repo s a).map fun t => recountedIn text repo (fun _ => true) t as).getD 0 = 0 :=
      h
    cases before with
    | nil =>
      obtain ⟨rfl, -⟩ := List.cons.inj has
      cases hexec
      exact inFlight_eq_zero (show inFlight text repo (fun _ => true) s.phase = 0 by
        simp only [recounted] at hsum
        omega)
    | cons b before =>
      obtain ⟨rfl, rfl⟩ := List.cons.inj has
      obtain ⟨m', hm', hrest⟩ := Option.bind_eq_some_iff.mp hexec
      rw [hm', Option.map_some, Option.getD_some] at hsum
      exact ih (by omega) before m rest rfl hrest

/-- The clusters count these alarms once each, each in the cluster of its own key. -/
def CountsExactly (text : PythonText) (repo : String) (db : Lessons) (rows : List AlarmRow) :
    Prop :=
  totalCount db = rows.length ∧
    ∀ key, occurrencesOf db key = (rows.filter fun row => keyOf text repo row = key).length

theorem sum_weight (P : ClusterKey → Bool) (rows : List AlarmRow) :
    (rows.map (weight text repo P)).sum = (rows.filter fun row => P (keyOf text repo row)).length := by
  induction rows with
  | nil => rfl
  | cons row rows ih =>
    rw [List.map_cons, List.sum_cons, ih]
    cases hP : P (keyOf text repo row)
    · simp [weight, hP]
    · simp only [weight, hP, List.filter_cons, if_true, List.length_cons]
      omega

/-- The counts are exact when nothing was left to be counted again. -/
theorem countsExactly_iff {db : Lessons} {rows : List AlarmRow} {extra : (ClusterKey → Bool) → ℕ}
    (h : ∀ P, countWhere P db = (rows.map (weight text repo P)).sum + extra P)
    (hextra : extra (fun _ => true) = 0 → ∀ P, extra P = 0) :
    CountsExactly text repo db rows ↔ extra (fun _ => true) = 0 := by
  have htotal := h fun _ => true
  rw [← totalCount_eq, sum_weight, List.filter_eq_self.mpr fun _ _ => rfl] at htotal
  constructor
  · intro hexact
    have hlength := hexact.1
    omega
  · intro hzero
    refine ⟨by omega, ?_⟩
    intro key
    rw [occurrencesOf_eq, h, sum_weight, hextra hzero, Nat.add_zero]

/-- Each alarm at or below the cursor is counted once in the cluster of its own key if and only if
no sync of the run has ended between the two commits of an alarm. Between these commits the alarm
in question is counted already. -/
theorem alarms_counted_once (h : exec (step text repo) State.init as = some s) :
    (s.phase.between = none →
      (CountsExactly text repo s.db (seenRows s.alarms s.lastAlarmId) ↔
        Uninterrupted text repo State.init as)) ∧
    (s.phase.between = none → (∀ id ∈ s.alarms.keys, id ≤ s.lastAlarmId) →
      (CountsExactly text repo s.db (s.alarms.entries.map rowOf) ↔
        Uninterrupted text repo State.init as)) ∧
    ∀ row, s.phase.between = some row →
      (CountsExactly text repo s.db (seenRows s.alarms s.lastAlarmId ++ [row]) ↔
        Uninterrupted text repo State.init as) := by
  have hcounts := (counted_exec counted_init h).counts
  simp only [Nat.zero_add] at hcounts
  have hiff : recountedIn text repo (fun _ => true) State.init as = 0 ↔
      Uninterrupted text repo State.init as :=
    ⟨uninterrupted_of_recountedIn, fun hrun => recountedIn_eq_zero hrun _⟩
  have hall : recountedIn text repo (fun _ => true) State.init as = 0 →
      ∀ P, recountedIn text repo P State.init as = 0 :=
    fun hzero => recountedIn_eq_zero (hiff.mp hzero)
  have hseen : s.phase.between = none →
      (CountsExactly text repo s.db (seenRows s.alarms s.lastAlarmId) ↔
        Uninterrupted text repo State.init as) := by
    intro hrow
    rw [← hiff]
    have hcount : ∀ P, countWhere P s.db =
        ((seenRows s.alarms s.lastAlarmId).map (weight text repo P)).sum +
          recountedIn text repo P State.init as := by
      intro P
      rw [hcounts P, inFlight, hrow]
      rfl
    exact countsExactly_iff hcount hall
  refine ⟨hseen, ?_, ?_⟩
  · intro hrow hpassed
    have hrows : seenRows s.alarms s.lastAlarmId = s.alarms.entries.map rowOf := by
      rw [seenRows, Table.select, List.filter_eq_self.mpr]
      intro e he
      simpa using hpassed e.1 (List.mem_map.mpr ⟨e, he, rfl⟩)
    rw [← hrows]
    exact hseen hrow
  · intro row hrow
    rw [← hiff]
    have hcount : ∀ P, countWhere P s.db =
        ((seenRows s.alarms s.lastAlarmId ++ [row]).map (weight text repo P)).sum +
          recountedIn text repo P State.init as := by
      intro P
      rw [hcounts P, inFlight, hrow, List.map_append, List.sum_append, List.map_singleton,
        List.sum_singleton, Option.map_some, Option.getD_some]
    exact countsExactly_iff hcount hall

end Runs

section History

variable {text : PythonText} {repo : String}

theorem mapRows_keepOrigin (alarms : Alarms) (p : ℕ → Alarm → Prop) [∀ k r, Decidable (p k r)]
    {f : Alarm → Alarm} (hf : ∀ a, Watchdog.SameOrigin a (f a)) :
    alarms.mapRows (keepOrigin fun id a => if p id a then f a else a) = alarms.update p f := by
  have hfun : (keepOrigin fun id a => if p id a then f a else a) =
      fun id a => if p id a then f a else a := by
    funext id a
    obtain ⟨hinvariant, hraised, hdetails⟩ := hf a
    unfold keepOrigin
    by_cases hp : p id a
    · simp only [hp, if_true, ← hinvariant, ← hraised, ← hdetails]
    · simp only [hp, if_false]
  rw [hfun]
  rfl

theorem amend_reaches (s : State) (p : ℕ → Alarm → Prop) [∀ k r, Decidable (p k r)]
    {f : Alarm → Alarm} (hf : ∀ a, Watchdog.SameOrigin a (f a)) :
    Reaches (step text repo) s { s with alarms := s.alarms.update p f } := by
  rw [← mapRows_keepOrigin s.alarms p hf]
  exact Transition.Run.single (a := .amend fun id a => if p id a then f a else a) trivial rfl

theorem raiseAlarms_reaches (lib : JsonLibrary) (limit nowMs : ℤ) (s : State)
    (attempts : List Watchdog.Attempt) :
    Reaches (step text repo) s { s with
      alarms := attempts.foldl (Watchdog.raiseAlarm lib limit nowMs) s.alarms } := by
  induction attempts generalizing s with
  | nil => exact Transition.Run.refl s
  | cons a attempts ih =>
    have hfirst : Reaches (step text repo) s
        { s with alarms := Watchdog.raiseAlarm lib limit nowMs s.alarms a } := by
      unfold Watchdog.raiseAlarm
      split
      · exact Transition.Run.refl s
      · exact Transition.Run.single (a := .raise (Watchdog.newAlarm lib a.violation nowMs))
          trivial rfl
    exact hfirst.trans (ih _)

/-- What the watchdog and the operator do to the alarms are steps of this machine. -/
theorem watchdog_reaches (lib : JsonLibrary) (limit : ℤ) (s : State) (e : Watchdog.Event) :
    Reaches (step text repo) s { s with alarms := Watchdog.step lib limit s.alarms e } := by
  cases e with
  | tick t =>
    have hraise : Reaches (step text repo) s
        { s with alarms := Watchdog.raiseAlarms lib limit s.alarms t } :=
      raiseAlarms_reaches lib limit t.nowMs s t.attempts
    exact hraise.trans (amend_reaches { s with alarms := Watchdog.raiseAlarms lib limit s.alarms t }
      (fun _ a => a.active) fun a => Watchdog.resolveRow_origin t.pairs t.nowMs a)
  | ack id note nowMs =>
    have horigin : ∀ a : Alarm,
        Watchdog.SameOrigin a { a with ackedAt := some nowMs, ackNote := note } :=
      fun a => ⟨rfl, rfl, rfl⟩
    exact amend_reaches s (fun j a => j = id ∧ a.ackedAt = none) horigin
  | prune nowMs =>
    have horigin : ∀ a : Alarm, Watchdog.SameOrigin a
        { a with ackedAt := some nowMs, ackNote := some "auto-resolved" } :=
      fun a => ⟨rfl, rfl, rfl⟩
    exact amend_reaches s (fun _ a => a.ackedAt = none ∧ a.resolvedAt ≠ none) horigin

end History

section Sample

/-- The library on the details of one alarm. -/
def shellText : PythonText where
  loads := fun t =>
    if t = "\x7b\"source\":\"shell\"\x7d" then some (.object [("source", .string "shell")])
    else none
  str := fun
    | .string t => t
    | _ => ""
  repr := fun t => "'" ++ t ++ "'"
  percent := fun a n => (100 * a : ℤ) / n
  formatDurationMs := fun ms => toString ms ++ "ms"

def shellAlarm : Alarm where
  invariantId := "I-8"
  raisedAt := 1000
  detailsJson := "\x7b\"source\":\"shell\"\x7d"

def completeSync : List Action := [.raise shellAlarm, .begin 2, .register, .advance, .refresh]

/-- One alarm whose sync dies before its cursor update, and the sync that follows. -/
def interruptedSync : List Action :=
  [.raise shellAlarm, .begin 2, .register, .stop, .begin 2, .register, .advance, .refresh]

/-- A single alarm of an interrupted sync is a lesson with two occurrences. -/
theorem interruptedSync_counts_twice :
    ¬ ∀ (as : List Action) (s : State),
      exec (step shellText "stevencarpenter/hippo") State.init as = some s →
      s.phase.between = none →
      CountsExactly shellText "stevencarpenter/hippo" s.db (seenRows s.alarms s.lastAlarmId) := by
  intro hall
  have hrun : ((exec (step shellText "stevencarpenter/hippo") State.init interruptedSync).any
      fun s => s.phase.between = none ∧
        totalCount s.db ≠ (seenRows s.alarms s.lastAlarmId).length) = true := by
    decide +kernel
  obtain ⟨s, hs, hstate⟩ := (Option.any_eq_true _ _).mp hrun
  obtain ⟨hrow, hne⟩ := of_decide_eq_true hstate
  exact hne (hall _ s hs hrow).1

theorem completeSync_counts_once :
    ∃ s, exec (step shellText "stevencarpenter/hippo") State.init completeSync = some s ∧
      CountsExactly shellText "stevencarpenter/hippo" s.db (s.alarms.entries.map rowOf) := by
  have hrun : ((exec (step shellText "stevencarpenter/hippo") State.init completeSync).any
      fun s => s.phase.between = none ∧ ∀ id ∈ s.alarms.keys, id ≤ s.lastAlarmId) = true := by
    decide +kernel
  obtain ⟨s, hs, hstate⟩ := (Option.any_eq_true _ _).mp hrun
  obtain ⟨hrow, hpassed⟩ := of_decide_eq_true hstate
  have hclean : Uninterrupted shellText "stevencarpenter/hippo" State.init completeSync :=
    uninterrupted_of_recountedIn (by decide +kernel)
  exact ⟨s, hs, ((alarms_counted_once hs).2.1 hrow hpassed).mpr hclean⟩

end Sample

end Hippo.AlarmLessons
