import Hippo.GhPoll

/-!
# Notices of failed commits

A watch is settled by every completed run of its commit that a pass lists: a failed or cancelled one
marks it, any other one deletes it. So a commit with runs of both kinds in one listing is never
announced, and a notice that is pending stays until it is acknowledged, has expired, or such another
run is listed. What is announced is about a commit that has a stored run.
-/
namespace Hippo.GhPoll

open Transition

section Settling

/-- A watch after one completed run of its commit. -/
def settleRow (row : Option Watch) (conclusion : String) : Option Watch :=
  if Db.isFailure (some conclusion) then
    row.map fun watch => { watch with terminalStatus := some conclusion }
  else none

/-- The conclusions with which a task will settle a watch. -/
def Task.toSettle (key : WatchKey) : Task → List String
  | .run repo r =>
    if r.status = "completed" ∧ (r.headSha, repo) = key then r.conclusion.toList else []
  | .settle repo r => if (r.headSha, repo) = key then r.conclusion.toList else []
  | _ => []

def left (key : WatchKey) (tasks : List Task) : List String := tasks.flatMap (Task.toSettle key)

variable {redact : String → String} {re : Classes} {db db' : Db} {key : WatchKey}

theorem foldl_settleRow_none (cs : List String) : cs.foldl settleRow none = none := by
  induction cs with
  | nil => rfl
  | cons c cs ih =>
    rw [List.foldl_cons]
    simpa [settleRow] using ih

/-- A watch after all runs of its commit: marked with the last of them if they have all failed. -/
theorem foldl_settleRow (watch : Watch) (cs : List String) :
    cs.foldl settleRow (some watch) =
      if ∀ c ∈ cs, Db.isFailure (some c) = true then
        some { watch with terminalStatus := cs.getLast?.or watch.terminalStatus }
      else none := by
  induction cs generalizing watch with
  | nil => simp
  | cons c cs ih =>
    rw [List.foldl_cons]
    by_cases hc : Db.isFailure (some c) = true
    · have hrow : settleRow (some watch) c = some { watch with terminalStatus := some c } := by
        simp [settleRow, hc]
      rw [hrow, ih]
      have hiff : (∀ d ∈ c :: cs, Db.isFailure (some d) = true) ↔
          ∀ d ∈ cs, Db.isFailure (some d) = true := by simp [hc]
      simp only [hiff]
      have hlast : (c :: cs).getLast?.or watch.terminalStatus = cs.getLast?.or (some c) := by
        cases hcs : cs.getLast? with
        | none =>
          rw [List.getLast?_eq_none_iff] at hcs
          subst hcs
          rfl
        | some last =>
          simp [List.getLast?_cons, hcs]
      rw [hlast]
    · have hrow : settleRow (some watch) c = none := by simp [settleRow, hc]
      have hnot : ¬ ∀ d ∈ c :: cs, Db.isFailure (some d) = true := fun hall =>
        hc (hall c List.mem_cons_self)
      rw [hrow, foldl_settleRow_none, if_neg hnot]

theorem foldl_settleRow_eq_some {row : Option Watch} {watch : Watch} {cs : List String}
    (h : cs.foldl settleRow row = some watch) :
    ∃ old, row = some old ∧ watch.notified = old.notified := by
  cases row with
  | none =>
    rw [foldl_settleRow_none] at h
    cases h
  | some old =>
    rw [foldl_settleRow] at h
    split_ifs at h
    cases h
    exact ⟨old, rfl, rfl⟩

theorem left_cons (task : Task) (tasks : List Task) :
    left key (task :: tasks) = task.toSettle key ++ left key tasks := List.flatMap_cons ..

theorem left_append (a b : List Task) : left key (a ++ b) = left key a ++ left key b :=
  List.flatMap_append ..

/-- What a statement of a pass does to a watch. -/
theorem watch_execute (key : WatchKey) {now : ℤ} {task : Task} {new : List Task}
    (h : task.execute redact re now db = some (db', new)) :
    (db'.watches.get? key = db.watches.get? key ∧ left key new = task.toSettle key) ∨
    (∃ repo r, task = .settle repo r ∧ new = [] ∧
      db'.watches.get? key = (task.toSettle key).foldl settleRow (db.watches.get? key)) ∨
    (task = .cleanup ∧ new = [] ∧ ((∀ watch, db.watches.get? key = some watch →
      watch.notified = false) → db'.watches.get? key = db.watches.get? key)) := by
  cases task with
  | list | jobs | annotations | log => cases h
  | run repo r =>
    cases h
    refine Or.inl ⟨rfl, ?_⟩
    split_ifs with hcompleted
    · simp [left, Task.toSettle, hcompleted]
    · simp [left, Task.toSettle, hcompleted]
  | settle repo r =>
    cases h
    refine Or.inr (Or.inl ⟨repo, r, rfl, rfl, ?_⟩)
    simp only [Task.toSettle]
    cases hconclusion : r.conclusion with
    | none => simp
    | some c =>
      by_cases hkey : (r.headSha, repo) = key
      · subst hkey
        by_cases hfailure : Db.isFailure (some c) = true
        · simp [hfailure, settleRow, Db.markTerminal]
        · simp [hfailure, settleRow, Db.deleteWatch]
      · have hne : key ≠ (r.headSha, repo) := fun heq => hkey heq.symm
        by_cases hfailure : Db.isFailure (some c) = true
        · simp [hfailure, hkey, Db.markTerminal, Table.get?_modify_of_ne _ hne]
        · simp [hfailure, hkey, Db.deleteWatch, hne]
  | look repo r =>
    cases h
    refine Or.inl ⟨rfl, ?_⟩
    split_ifs <;> rfl
  | job r j =>
    obtain ⟨stored, hstored, h⟩ := Option.map_eq_some_iff.mp h
    cases h
    simp only [Db.upsertJob] at hstored
    split_ifs at hstored
    cases hstored
    refine Or.inl ⟨rfl, ?_⟩
    split_ifs <;> rfl
  | annotate j a =>
    obtain ⟨stored, hstored, h⟩ := Option.map_eq_some_iff.mp h
    cases h
    simp only [Db.insertAnnotation] at hstored
    split_ifs at hstored
    cases hstored
    exact Or.inl ⟨rfl, rfl⟩
  | saveLog j excerpt truncated =>
    obtain ⟨stored, hstored, h⟩ := Option.map_eq_some_iff.mp h
    cases h
    simp only [Db.insertLogExcerpt] at hstored
    split_ifs at hstored
    cases hstored
    exact Or.inl ⟨rfl, rfl⟩
  | enqueue r =>
    obtain ⟨stored, hstored, h⟩ := Option.map_eq_some_iff.mp h
    cases h
    simp only [Db.enqueueEnrichment] at hstored
    split_ifs at hstored
    cases hstored
    exact Or.inl ⟨rfl, rfl⟩
  | clearAnnotations | clearLog =>
    cases h
    exact Or.inl ⟨rfl, rfl⟩
  | cleanup =>
    cases h
    refine Or.inr (Or.inr ⟨rfl, rfl, fun hfresh => ?_⟩)
    rw [Db.cleanupExpired, Table.get?_delete_of_not]
    intro row hrow
    simp [hfresh row hrow]

end Settling

section OnePass

/-- The steps that leave a watch to the pass under way: no other pass begins, this one is not broken
off and its deletion of the watch does not fail, and nobody registers or acknowledges the commit. -/
def Undisturbed (key : WatchKey) (w : World) : Act → Prop
  | .poll _ _ => False
  | .stop _ => False
  | .answer _ a => a ≠ .runList none
  | .skip k => ∀ p repo r, w.pollers[k]? = some p → p.tasks.head? = some (.settle repo r) →
    (r.headSha, repo) ≠ key
  | .registerWatchSha key' _ _ => key' ≠ key
  | .acknowledge k => ∀ l, w.acks[k]? = some l → l.head? ≠ some key
  | _ => True

/-- One pass that has listed the repository of a watch, and what it will make of the watch. -/
structure Settling (key : WatchKey) (outcome : Option Watch) (w : World) : Prop where
  one : ∃ p, w.pollers = [p] ∧ .list key.2 ∉ p.tasks ∧
    (left key p.tasks).foldl settleRow (w.db.watches.get? key) = outcome
  fresh : ∀ watch, w.db.watches.get? key = some watch → watch.notified = false

variable {redact : String → String} {re : Classes} {db : Db} {key : WatchKey}
  {outcome : Option Watch} {w w' : World}

theorem left_answered {task : Task} {a : Answer} {new : List Task}
    (hlist : task ≠ .list key.2) (h : task.answered a = some (some new)) :
    left key new = task.toSettle key ∧ .list key.2 ∉ new := by
  cases task with
  | list repo =>
    cases a with
    | runList l =>
      cases l with
      | none => cases h
      | some runs =>
        cases h
        have hrepo : ∀ r : ApiRun, (r.headSha, repo) ≠ key := by
          rintro r rfl
          exact hlist rfl
        constructor
        · simp [left, Task.toSettle, hrepo]
        · simp
    | jobList | annotationList | logTail => cases h
  | jobs repo r =>
    cases a with
    | jobList l =>
      cases l with
      | none =>
        cases h
        exact ⟨rfl, by simp⟩
      | some found =>
        cases h
        constructor
        · simp [left, Task.toSettle]
        · simp
    | runList | annotationList | logTail => cases h
  | annotations j =>
    cases a with
    | annotationList l =>
      cases h
      constructor
      · simp [left, Task.toSettle]
      · simp
    | runList | jobList | logTail => cases h
  | log j =>
    cases a with
    | logTail l =>
      cases l with
      | none =>
        cases h
        exact ⟨rfl, by simp⟩
      | some tail =>
        cases h
        constructor
        · rfl
        · simp
    | runList | jobList | annotationList => cases h
  | run | settle | look | job | clearAnnotations | annotate | clearLog | saveLog | enqueue
  | cleanup => cases h

theorem list_not_mem_execute {now : ℤ} {task : Task} {new : List Task} {db' : Db} {repo : String}
    (h : task.execute redact re now db = some (db', new)) : .list repo ∉ new := by
  cases task with
  | list | jobs | annotations | log => cases h
  | run | look =>
    cases h
    split_ifs <;> simp
  | settle | clearAnnotations | clearLog | cleanup =>
    cases h
    simp
  | job =>
    obtain ⟨stored, -, h⟩ := Option.map_eq_some_iff.mp h
    cases h
    split_ifs <;> simp
  | annotate | saveLog | enqueue =>
    obtain ⟨stored, -, h⟩ := Option.map_eq_some_iff.mp h
    cases h
    simp

theorem settling_execute {now : ℤ} {task : Task} {new : List Task} (rest : List Task) {db' : Db}
    (hfresh : ∀ watch, db.watches.get? key = some watch → watch.notified = false)
    (h : task.execute redact re now db = some (db', new)) :
    (left key (new ++ rest)).foldl settleRow (db'.watches.get? key) =
        (left key (task :: rest)).foldl settleRow (db.watches.get? key) ∧
      ∀ watch, db'.watches.get? key = some watch → watch.notified = false := by
  rw [left_append, left_cons, List.foldl_append, List.foldl_append]
  rcases watch_execute key h with ⟨hsame, hnew⟩ | ⟨_, _, -, rfl, hrow⟩ | ⟨rfl, rfl, hrow⟩
  · rw [hsame, hnew]
    exact ⟨rfl, hfresh⟩
  · refine ⟨by rw [hrow]; rfl, fun watch hwatch => ?_⟩
    obtain ⟨old, hold, hsame⟩ := foldl_settleRow_eq_some (hrow.symm.trans hwatch)
    rw [hsame]
    exact hfresh old hold
  · rw [hrow hfresh]
    exact ⟨rfl, hfresh⟩

theorem settling_step {a : Act} (h : Settling key outcome w) (ha : Undisturbed key w a)
    (hs : step redact re w a = some w') : Settling key outcome w' := by
  obtain ⟨⟨⟨now, tasks⟩, hpollers, hlist, houtcome⟩, hfresh⟩ := h
  cases a with
  | poll | stop => exact ha.elim
  | answer k a =>
    simp only [step, hpollers] at hs
    split at hs
    · rename_i t task rest hk
      obtain ⟨rfl, heq⟩ := getElem?_singleton hk
      cases heq
      obtain ⟨o, ho, hs⟩ := Option.map_eq_some_iff.mp hs
      cases hs
      rw [List.mem_cons, not_or] at hlist
      cases o with
      | none =>
        cases task with
        | list =>
          cases a with
          | runList l =>
            cases l with
            | none => exact absurd rfl ha
            | some runs => cases ho
          | jobList | annotationList | logTail => cases ho
        | jobs | annotations | log => cases a <;> cases ho
        | run | settle | look | job | clearAnnotations | annotate | clearLog | saveLog | enqueue
        | cleanup => cases ho
      | some new =>
        obtain ⟨hleft, hnew⟩ := left_answered (fun heq => hlist.1 heq.symm) ho
        refine ⟨⟨_, rfl, ?_, ?_⟩, hfresh⟩
        · rw [List.mem_append, not_or]
          exact ⟨hnew, hlist.2⟩
        · rw [left_append, hleft, ← left_cons]
          exact houtcome
    · cases hs
  | execute k =>
    simp only [step, hpollers] at hs
    split at hs
    · rename_i t task rest hk
      obtain ⟨rfl, heq⟩ := getElem?_singleton hk
      cases heq
      obtain ⟨⟨db', new⟩, ho, hs⟩ := Option.map_eq_some_iff.mp hs
      cases hs
      rw [List.mem_cons, not_or] at hlist
      obtain ⟨hkept, hfresh'⟩ := settling_execute rest hfresh ho
      refine ⟨⟨_, rfl, ?_, hkept.trans houtcome⟩, hfresh'⟩
      rw [List.mem_append, not_or]
      exact ⟨list_not_mem_execute ho, hlist.2⟩
    · cases hs
  | skip k =>
    simp only [step, hpollers] at hs
    split at hs
    · rename_i t task rest hk
      obtain ⟨rfl, heq⟩ := getElem?_singleton hk
      cases heq
      obtain ⟨new, ho, hs⟩ := Option.map_eq_some_iff.mp hs
      cases hs
      rw [List.mem_cons, not_or] at hlist
      have hnew : left key new = task.toSettle key ∧ .list key.2 ∉ new := by
        cases task with
        | settle repo r =>
          have hkey : (r.headSha, repo) ≠ key :=
            ha ⟨now, .settle repo r :: rest⟩ repo r (by rw [hpollers]; rfl) rfl
          simp only [Task.failed] at ho
          split_ifs at ho
          cases ho
          simp [left, Task.toSettle, hkey]
        | look | cleanup =>
          cases ho
          simp [left, Task.toSettle]
        | list | run | jobs | job | annotations | clearAnnotations | annotate | log | clearLog
        | saveLog | enqueue => cases ho
      refine ⟨⟨_, rfl, ?_, ?_⟩, hfresh⟩
      · rw [List.mem_append, not_or]
        exact ⟨hnew.2, hlist.2⟩
      · rw [left_append, hnew.1, ← left_cons]
        exact houtcome
    · cases hs
  | registerWatchSha key' now ttlSecs =>
    cases hs
    have hsame : (w.db.watch key' now (now + ttlSecs * 1000)).watches.get? key =
        w.db.watches.get? key := by
      rw [Db.watch, Table.get?_upsert, if_neg (Ne.symm ha)]
    refine ⟨⟨_, hpollers, hlist, ?_⟩, ?_⟩
    · simp only [hsame]
      exact houtcome
    · simp only [hsame]
      exact hfresh
  | pendingNotifications repo now ack =>
    cases hs
    split_ifs
    · exact ⟨⟨_, hpollers, hlist, houtcome⟩, hfresh⟩
    · exact ⟨⟨_, hpollers, hlist, houtcome⟩, hfresh⟩
  | acknowledge k =>
    simp only [step] at hs
    split at hs
    · rename_i key' rest hk
      cases hs
      have hne : key' ≠ key := fun heq => ha _ hk (congrArg some heq)
      have hsame : (w.db.markNotified key').watches.get? key = w.db.watches.get? key :=
        Table.get?_modify_of_ne _ hne.symm _
      refine ⟨⟨_, hpollers, hlist, ?_⟩, ?_⟩
      · simp only [hsame]
        exact houtcome
      · simp only [hsame]
        exact hfresh
    · cases hs
  | enriched run =>
    cases hs
    exact ⟨⟨_, hpollers, hlist, houtcome⟩, hfresh⟩

/-- The conclusions of the completed runs of a commit in a listing. -/
def conclusions (sha : String) (runs : List ApiRun) : List String :=
  runs.flatMap fun r =>
    if r.status = "completed" ∧ r.headSha = sha then r.conclusion.toList else []

theorem mem_pendingNotifications {now : ℤ} {watch : Watch} :
    (key, watch) ∈ db.pendingNotifications now ↔ db.watches.get? key = some watch ∧
      Db.isFailure watch.terminalStatus = true ∧ watch.notified = false ∧
        now < watch.expiresAt := by
  rw [Db.pendingNotifications, Table.mem_select]

/-- A run of a commit that has ended. -/
def endedRun (id : ℕ) (conclusion : String) : ApiRun :=
  ⟨id, "abc", none, "push", "completed", some conclusion, none, none, "", none, ""⟩

/-- A watched commit, one failed and one successful run of which are listed. -/
def twoRuns : World :=
  ⟨{ Db.empty with watches := Table.empty.insert ("abc", "r") ⟨0, 9, none, false⟩ },
    [⟨5, [endedRun 1 "failure", endedRun 2 "success"].map (.run "r") ++ [.cleanup]⟩], [], []⟩

end OnePass

section Notices

variable {redact : String → String} {re : Classes} {db : Db} {key : WatchKey} {w w' : World}

/-- There is an unacknowledged notice for a commit. -/
def Announced (key : WatchKey) (db : Db) : Prop :=
  ∃ watch, db.watches.get? key = some watch ∧ Db.isFailure watch.terminalStatus = true ∧
    watch.notified = false

/-- The steps that take no notice away: none lists a completed run of the commit that has not
failed, and none acknowledges it. -/
def Keeps (key : WatchKey) (w : World) : Act → Prop
  | .execute k => ∀ now repo r rest, w.pollers[k]? = some ⟨now, .settle repo r :: rest⟩ →
    (r.headSha, repo) = key → ∀ c, r.conclusion = some c → Db.isFailure (some c) = true
  | .acknowledge k => ∀ rest, w.acks[k]? ≠ some (key :: rest)
  | _ => True

theorem announced_of_get? {db' : Db} (h : Announced key db)
    (hsame : db'.watches.get? key = db.watches.get? key) : Announced key db' := by
  obtain ⟨watch, hwatch, hrest⟩ := h
  exact ⟨watch, hsame.trans hwatch, hrest⟩

theorem announced_step {a : Act} (h : Announced key w.db) (ha : Keeps key w a)
    (hs : step redact re w a = some w') : Announced key w'.db := by
  obtain ⟨watch, hwatch, hfailure, hfresh⟩ := h
  cases a with
  | poll =>
    cases hs
    exact ⟨watch, hwatch, hfailure, hfresh⟩
  | answer k a =>
    simp only [step] at hs
    split at hs
    · obtain ⟨o, -, hs⟩ := Option.map_eq_some_iff.mp hs
      cases hs
      exact ⟨watch, hwatch, hfailure, hfresh⟩
    · cases hs
  | execute k =>
    simp only [step] at hs
    split at hs
    · rename_i now task rest hk
      obtain ⟨⟨db', new⟩, ho, hs⟩ := Option.map_eq_some_iff.mp hs
      cases hs
      have hunread : ∀ row, w.db.watches.get? key = some row → row.notified = false := by
        intro row hrow
        cases hwatch.symm.trans hrow
        exact hfresh
      rcases watch_execute key ho with ⟨hsame, -⟩ | ⟨repo, r, rfl, -, hrow⟩ |
        ⟨-, -, hsame⟩
      · exact announced_of_get? ⟨watch, hwatch, hfailure, hfresh⟩ hsame
      · rw [hwatch, Task.toSettle] at hrow
        by_cases hkey : (r.headSha, repo) = key
        · rw [if_pos hkey] at hrow
          cases hconclusion : r.conclusion with
          | none =>
            rw [hconclusion] at hrow
            exact ⟨watch, hrow, hfailure, hfresh⟩
          | some c =>
            have hfail := ha now repo r rest hk hkey c hconclusion
            rw [hconclusion] at hrow
            refine ⟨{ watch with terminalStatus := some c }, ?_, hfail, hfresh⟩
            rw [hrow]
            simp [settleRow, hfail]
        · rw [if_neg hkey] at hrow
          exact ⟨watch, hrow, hfailure, hfresh⟩
      · exact announced_of_get? ⟨watch, hwatch, hfailure, hfresh⟩ (hsame hunread)
    · cases hs
  | skip k =>
    simp only [step] at hs
    split at hs
    · obtain ⟨o, -, hs⟩ := Option.map_eq_some_iff.mp hs
      cases hs
      exact ⟨watch, hwatch, hfailure, hfresh⟩
    · cases hs
  | stop k =>
    obtain ⟨p, -, hs⟩ := Option.map_eq_some_iff.mp hs
    cases hs
    exact ⟨watch, hwatch, hfailure, hfresh⟩
  | registerWatchSha key' now ttlSecs =>
    cases hs
    by_cases hkey : key = key'
    · subst hkey
      refine ⟨{ watch with expiresAt := now + ttlSecs * 1000 }, ?_, hfailure, hfresh⟩
      simp [Db.watch, Table.get?_upsert, hwatch]
    · refine ⟨watch, ?_, hfailure, hfresh⟩
      rw [Db.watch, Table.get?_upsert, if_neg hkey, hwatch]
  | pendingNotifications repo now ack =>
    cases hs
    split_ifs <;> exact ⟨watch, hwatch, hfailure, hfresh⟩
  | acknowledge k =>
    simp only [step] at hs
    split at hs
    · rename_i key' rest hk
      cases hs
      have hne : key ≠ key' := by
        rintro rfl
        exact ha rest hk
      refine announced_of_get? ⟨watch, hwatch, hfailure, hfresh⟩ ?_
      exact Table.get?_modify_of_ne _ hne _
    · cases hs
  | enriched run =>
    cases hs
    exact ⟨watch, hwatch, hfailure, hfresh⟩

/-- A notice is shown until the watch expires, whatever else passes, registrations and other
acknowledgements do. -/
theorem notice_stays (h : Announced key w.db) (hrun : Run (step redact re) (Keeps key) w w') :
    ∃ watch, w'.db.watches.get? key = some watch ∧
      ∀ now, (key, watch) ∈ w'.db.pendingNotifications now ↔ now < watch.expiresAt := by
  obtain ⟨watch, hwatch, hfailure, hfresh⟩ :=
    hrun.invariant (I := fun w => Announced key w.db)
      (fun _ _ _ hs ha hst => announced_step hs ha hst) h
  refine ⟨watch, hwatch, fun now => ?_⟩
  rw [mem_pendingNotifications]
  simp [hwatch, hfailure, hfresh]

theorem notice_stays_of_marked : ∃ w w', Run (step id asciiClasses) (Keeps ("abc", "r")) w w' ∧
    ∃ watch, w'.db.watches.get? ("abc", "r") = some watch ∧
      ∀ now, (("abc", "r"), watch) ∈ w'.db.pendingNotifications now ↔ now < watch.expiresAt := by
  let marked : World := ⟨{ Db.empty with
    watches := Table.empty.insert ("abc", "r") ⟨0, 9, some "failure", false⟩ }, [], [], []⟩
  have hmarked : Announced ("abc", "r") marked.db := ⟨_, rfl, rfl, rfl⟩
  obtain ⟨w', hrun, -⟩ :
      ∃ w', Run (step id asciiClasses) (Keeps ("abc", "r")) marked w' ∧ True := by
    refine exists_run_of_allowed (l := [.poll ["r"] 3, .answer 0 (.runList (some [])),
      .registerWatchSha ("abc", "r") 5 7]) ?_ (by decide +kernel)
    simp [Keeps]
  exact ⟨marked, w', hrun, notice_stays hmarked hrun⟩

end Notices

end Hippo.GhPoll
