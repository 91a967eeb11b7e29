import Hippo.GhPoll

/-!
# What the passes store

No statement of a pass lacks the row it refers to, whatever else runs. With one pass at a time the
annotations of a job are what was answered last, in order and once each, and none after an answer
that failed.
-/
namespace Hippo.GhPoll

open Transition

section References

variable (ident : ℕ → WatchKey)

/-- The rows that a task refers to are there. -/
def Task.Backed (db : Db) : Task → Prop
  | .list _ => True
  | .run repo r => ident r.id = (r.headSha, repo)
  | .settle repo r => ident r.id = (r.headSha, repo) ∧ r.id ∈ db.runs.keys
  | .look _ r => r.id ∈ db.runs.keys
  | .jobs _ r => r.id ∈ db.runs.keys
  | .job r _ => r.id ∈ db.runs.keys
  | .annotations j => j.id ∈ db.jobs.keys
  | .clearAnnotations j => j.id ∈ db.jobs.keys
  | .annotate j _ => j.id ∈ db.jobs.keys
  | .log j => j.id ∈ db.jobs.keys
  | .clearLog j => j.id ∈ db.jobs.keys
  | .saveLog j _ _ => j.id ∈ db.jobs.keys
  | .enqueue r => r.id ∈ db.runs.keys
  | .cleanup => True

/-- The foreign keys, the identity of the runs, and that only watches of stored runs are marked. -/
structure Db.Linked (db : Db) : Prop where
  runs : ∀ id row, db.runs.get? id = some row → ident id = (row.headSha, row.repo)
  jobs : ∀ id row, db.jobs.get? id = some row → row.runId ∈ db.runs.keys
  annotations : ∀ row ∈ db.annotations, row.jobId ∈ db.jobs.keys
  excerpts : ∀ row ∈ db.excerpts, row.jobId ∈ db.jobs.keys
  queue : ∀ run ∈ db.queue.keys, run ∈ db.runs.keys
  watches : ∀ key watch, db.watches.get? key = some watch → watch.terminalStatus ≠ none →
    ∃ id ∈ db.runs.keys, ident id = key

structure World.Linked (w : World) : Prop where
  db : w.db.Linked ident
  tasks : ∀ p ∈ w.pollers, ∀ task ∈ p.tasks, task.Backed ident w.db

/-- GitHub does not change the commit or the repository of a run. -/
def Identified (w : World) : Act → Prop
  | .answer k (.runList (some runs)) => ∀ now repo rest,
    w.pollers[k]? = some ⟨now, .list repo :: rest⟩ → ∀ r ∈ runs, ident r.id = (r.headSha, repo)
  | _ => True

variable {ident} {redact : String → String} {re : Classes} {db db' : Db} {w w' : World}

theorem linked_empty : Db.empty.Linked ident := by
  constructor
  · exact fun id row h => by cases h
  · exact fun id row h => by cases h
  · exact fun row h => by cases h
  · exact fun row h => by cases h
  · exact fun run h => by cases h
  · exact fun key watch h => by cases h

/-- No statement deletes a run or a job. -/
structure Grows (db db' : Db) : Prop where
  runs : ∀ id ∈ db.runs.keys, id ∈ db'.runs.keys
  jobs : ∀ id ∈ db.jobs.keys, id ∈ db'.jobs.keys

theorem Grows.refl (db : Db) : Grows db db := ⟨fun _ h => h, fun _ h => h⟩

theorem backed_of_grows {task : Task} (hg : Grows db db') (h : task.Backed ident db) :
    task.Backed ident db' := by
  cases task with
  | list | run | cleanup => exact h
  | settle => exact ⟨h.1, hg.runs _ h.2⟩
  | look | jobs | job | enqueue => exact hg.runs _ h
  | annotations | clearAnnotations | annotate | log | clearLog | saveLog => exact hg.jobs _ h

theorem mem_keys_upsert {κ ρ : Type} [DecidableEq κ] {t : Table κ ρ} {k j : κ} {new : ρ}
    {f : ρ → ρ} : j ∈ (t.upsert k new f).keys ↔ j = k ∨ j ∈ t.keys := by
  rw [Table.mem_keys, Table.mem_keys, Table.get?_upsert]
  by_cases h : j = k
  · simp [h]
  · simp [h]

/-- One task: it succeeds where its rows are there, nothing becomes dangling, and what it adds to
the pass has its rows. -/
theorem linked_execute {now : ℤ} {task : Task} {new : List Task} (hdb : db.Linked ident)
    (htask : task.Backed ident db) (h : task.execute redact re now db = some (db', new)) :
    db'.Linked ident ∧ Grows db db' ∧ ∀ task' ∈ new, task'.Backed ident db' := by
  cases task with
  | list | jobs | annotations | log => cases h
  | run repo r =>
    cases h
    have hmem : ∀ id, id ∈ (db.upsertRun r.id (r.row redact repo now)).runs.keys ↔
        id = r.id ∨ id ∈ db.runs.keys := fun id => mem_keys_upsert
    refine ⟨{ hdb with runs := ?_, jobs := ?_, queue := ?_, watches := ?_ }, ?_, ?_⟩
    · intro id row hrow
      rw [Db.upsertRun, Table.get?_upsert] at hrow
      by_cases hid : id = r.id
      · subst hid
        rw [if_pos rfl] at hrow
        cases hold : db.runs.get? r.id with
        | none =>
          rw [hold] at hrow
          cases hrow
          exact htask
        | some old =>
          rw [hold] at hrow
          cases hrow
          exact hdb.runs r.id old hold
      · rw [if_neg hid] at hrow
        exact hdb.runs id row hrow
    · exact fun id row hrow => (hmem _).mpr (Or.inr (hdb.jobs id row hrow))
    · exact fun run hrun => (hmem _).mpr (Or.inr (hdb.queue run hrun))
    · intro key watch hwatch hmarked
      obtain ⟨id, hid, hkey⟩ := hdb.watches key watch hwatch hmarked
      exact ⟨id, (hmem _).mpr (Or.inr hid), hkey⟩
    · exact ⟨fun id hid => (hmem _).mpr (Or.inr hid), fun id hid => hid⟩
    · intro task' htask'
      split_ifs at htask'
      · rcases List.mem_cons.mp htask' with rfl | htask'
        · exact ⟨htask, (hmem _).mpr (Or.inl rfl)⟩
        · cases List.mem_singleton.mp htask'
          exact (hmem _).mpr (Or.inl rfl)
      · cases htask'
  | settle repo r =>
    cases h
    refine ⟨?_, ?_, fun _ hmem => by cases hmem⟩
    · cases hconclusion : r.conclusion with
      | none => exact hdb
      | some c =>
        simp only
        split_ifs
        · refine { hdb with watches := fun key watch hwatch hmarked => ?_ }
          by_cases hkey : key = (r.headSha, repo)
          · exact ⟨r.id, htask.2, htask.1.trans hkey.symm⟩
          · rw [Db.markTerminal, Table.get?_modify_of_ne _ hkey] at hwatch
            exact hdb.watches key watch hwatch hmarked
        · refine { hdb with watches := fun key watch hwatch hmarked => ?_ }
          rw [Db.deleteWatch, Table.get?_erase] at hwatch
          split_ifs at hwatch
          exact hdb.watches key watch hwatch hmarked
    · cases r.conclusion with
      | none => exact Grows.refl db
      | some c =>
        simp only
        split_ifs
        · exact ⟨fun _ hid => hid, fun _ hid => hid⟩
        · exact ⟨fun _ hid => hid, fun _ hid => hid⟩
  | look repo r =>
    cases h
    refine ⟨hdb, Grows.refl db, fun task' htask' => ?_⟩
    split_ifs at htask'
    · cases htask'
    · cases List.mem_singleton.mp htask'
      exact htask
  | job r j =>
    obtain ⟨stored, hstored, h⟩ := Option.map_eq_some_iff.mp h
    cases h
    simp only [Db.upsertJob] at hstored
    split_ifs at hstored
    cases hstored
    have hmem : ∀ id, id ∈ (db.jobs.upsert j.id (j.row redact r.id) fun row =>
        { row with
          status := (j.row redact r.id).status
          conclusion := (j.row redact r.id).conclusion
          completedAt := (j.row redact r.id).completedAt
          rawJson := (j.row redact r.id).rawJson }).keys ↔ id = j.id ∨ id ∈ db.jobs.keys :=
      fun id => mem_keys_upsert
    refine ⟨{ hdb with jobs := ?_, annotations := ?_, excerpts := ?_ }, ?_, ?_⟩
    · intro id row hrow
      rw [Table.get?_upsert] at hrow
      by_cases hid : id = j.id
      · subst hid
        rw [if_pos rfl] at hrow
        cases hold : db.jobs.get? j.id with
        | none =>
          rw [hold] at hrow
          cases hrow
          exact htask
        | some old =>
          rw [hold] at hrow
          cases hrow
          exact hdb.jobs j.id old hold
      · rw [if_neg hid] at hrow
        exact hdb.jobs id row hrow
    · exact fun row hrow => (hmem _).mpr (Or.inr (hdb.annotations row hrow))
    · exact fun row hrow => (hmem _).mpr (Or.inr (hdb.excerpts row hrow))
    · exact ⟨fun id hid => hid, fun id hid => (hmem _).mpr (Or.inr hid)⟩
    · intro task' htask'
      have hself := (hmem j.id).mpr (Or.inl rfl)
      rcases List.mem_append.mp htask' with htask' | htask'
      · split_ifs at htask'
        · cases List.mem_singleton.mp htask'
          exact hself
        · cases htask'
      · split_ifs at htask'
        · cases List.mem_singleton.mp htask'
          exact hself
        · cases htask'
  | annotate j a =>
    obtain ⟨stored, hstored, h⟩ := Option.map_eq_some_iff.mp h
    cases h
    simp only [Db.insertAnnotation] at hstored
    split_ifs at hstored
    cases hstored
    refine ⟨{ hdb with annotations := fun row hrow => ?_ }, ⟨fun _ hid => hid, fun _ hid => hid⟩,
      fun _ hmem => by cases hmem⟩
    rcases List.mem_append.mp hrow with hrow | hrow
    · exact hdb.annotations row hrow
    · cases List.mem_singleton.mp hrow
      exact htask
  | saveLog j excerpt truncated =>
    obtain ⟨stored, hstored, h⟩ := Option.map_eq_some_iff.mp h
    cases h
    simp only [Db.insertLogExcerpt] at hstored
    split_ifs at hstored
    cases hstored
    refine ⟨{ hdb with excerpts := fun row hrow => ?_ }, ⟨fun _ hid => hid, fun _ hid => hid⟩,
      fun _ hmem => by cases hmem⟩
    rcases List.mem_append.mp hrow with hrow | hrow
    · exact hdb.excerpts row hrow
    · cases List.mem_singleton.mp hrow
      exact htask
  | enqueue r =>
    obtain ⟨stored, hstored, h⟩ := Option.map_eq_some_iff.mp h
    cases h
    simp only [Db.enqueueEnrichment] at hstored
    split_ifs at hstored
    cases hstored
    refine ⟨{ hdb with queue := fun run hrun => ?_ }, ⟨fun _ hid => hid, fun _ hid => hid⟩,
      fun _ hmem => by cases hmem⟩
    rcases mem_keys_upsert.mp hrun with rfl | hrun
    · exact htask
    · exact hdb.queue run hrun
  | clearAnnotations j =>
    cases h
    refine ⟨{ hdb with annotations := fun row hrow => ?_ }, ⟨fun _ hid => hid, fun _ hid => hid⟩,
      fun _ hmem => by cases hmem⟩
    exact hdb.annotations row (List.mem_of_mem_filter hrow)
  | clearLog j =>
    cases h
    refine ⟨{ hdb with excerpts := fun row hrow => ?_ }, ⟨fun _ hid => hid, fun _ hid => hid⟩,
      fun _ hmem => by cases hmem⟩
    exact hdb.excerpts row (List.mem_of_mem_filter hrow)
  | cleanup =>
    cases h
    refine ⟨{ hdb with watches := fun key watch hwatch hmarked => ?_ },
      ⟨fun _ hid => hid, fun _ hid => hid⟩, fun _ hmem => by cases hmem⟩
    exact hdb.watches key watch (Table.get?_delete_eq_some.mp hwatch).1 hmarked

theorem linked_answered {task : Task} {a : Answer} {new : List Task}
    (htask : task.Backed ident db)
    (hident : ∀ repo runs, task = .list repo → a = .runList (some runs) →
      ∀ r ∈ runs, ident r.id = (r.headSha, repo))
    (h : task.answered a = some (some new)) : ∀ task' ∈ new, task'.Backed ident db := by
  intro task' htask'
  cases task with
  | list repo =>
    cases a with
    | runList l =>
      cases l with
      | none => cases h
      | some runs =>
        cases h
        obtain ⟨r, hr, rfl⟩ := List.mem_map.mp htask'
        exact hident repo runs rfl rfl r hr
    | jobList | annotationList | logTail => cases h
  | jobs repo r =>
    cases a with
    | jobList l =>
      cases l with
      | none =>
        cases h
        cases htask'
      | some found =>
        cases h
        rcases List.mem_append.mp htask' with htask' | htask'
        · obtain ⟨j, -, rfl⟩ := List.mem_map.mp htask'
          exact htask
        · cases List.mem_singleton.mp htask'
          exact htask
    | runList | annotationList | logTail => cases h
  | annotations j =>
    cases a with
    | annotationList l =>
      cases h
      rcases List.mem_cons.mp htask' with rfl | htask'
      · exact htask
      · obtain ⟨a, -, rfl⟩ := List.mem_map.mp htask'
        exact htask
    | runList | jobList | logTail => cases h
  | log j =>
    cases a with
    | logTail l =>
      cases l with
      | none =>
        cases h
        cases htask'
      | some tail =>
        cases h
        rcases List.mem_cons.mp htask' with rfl | htask'
        · exact htask
        · cases List.mem_singleton.mp htask'
          exact htask
    | runList | jobList | annotationList => cases h
  | run | settle | look | job | clearAnnotations | annotate | clearLog | saveLog | enqueue
  | cleanup => cases h

theorem linked_failed {task : Task} {new : List Task} (htask : task.Backed ident db)
    (h : task.failed = some new) : ∀ task' ∈ new, task'.Backed ident db := by
  intro task' htask'
  cases task with
  | settle repo r =>
    simp only [Task.failed] at h
    split_ifs at h
    cases h
    cases htask'
  | look repo r =>
    cases h
    cases List.mem_singleton.mp htask'
    exact htask
  | cleanup =>
    cases h
    cases htask'
  | list | run | jobs | job | annotations | clearAnnotations | annotate | log | clearLog | saveLog
  | enqueue => cases h

/-- Other changes of the database that keep its runs and jobs, and mark no watch. -/
theorem linked_of_watches (h : db.Linked ident) (watches : Table WatchKey Watch)
    (hold : ∀ key watch, watches.get? key = some watch → watch.terminalStatus ≠ none →
      ∃ old, db.watches.get? key = some old ∧ old.terminalStatus ≠ none) :
    ({ db with watches := watches } : Db).Linked ident := by
  refine { h with watches := fun key watch hwatch hmarked => ?_ }
  obtain ⟨old, hget, hmarked⟩ := hold key watch hwatch hmarked
  exact h.watches key old hget hmarked

theorem linked_step {a : Act} (h : w.Linked ident) (ha : Identified ident w a)
    (hs : step redact re w a = some w') : w'.Linked ident := by
  have hpoller : ∀ {k : ℕ} {now : ℤ} {task : Task} {rest : List Task},
      w.pollers[k]? = some ⟨now, task :: rest⟩ →
        task.Backed ident w.db ∧ ∀ task' ∈ rest, task'.Backed ident w.db := by
    intro k now task rest hk
    have htasks := h.tasks _ (List.mem_of_getElem? hk)
    exact ⟨htasks _ List.mem_cons_self, fun task' hmem => htasks _ (List.mem_cons_of_mem _ hmem)⟩
  cases a with
  | poll watchedRepos now =>
    cases hs
    refine ⟨h.db, fun p hp => ?_⟩
    rcases List.mem_append.mp hp with hp | hp
    · exact h.tasks p hp
    · cases List.mem_singleton.mp hp
      intro task htask
      rcases List.mem_append.mp htask with htask | htask
      · obtain ⟨repo, -, rfl⟩ := List.mem_map.mp htask
        trivial
      · cases List.mem_singleton.mp htask
        trivial
  | answer k a =>
    simp only [step] at hs
    split at hs
    · rename_i now task rest hk
      obtain ⟨o, ho, hs⟩ := Option.map_eq_some_iff.mp hs
      cases hs
      obtain ⟨htask, hrest⟩ := hpoller hk
      refine ⟨h.db, fun p hp => ?_⟩
      rcases mem_replaceAt hp with hp | hp
      · exact h.tasks p hp
      · obtain ⟨new, hnew, rfl⟩ := List.mem_map.mp hp
        cases Option.mem_toList.mp hnew
        have hadded := linked_answered htask (fun repo runs htask hanswer => by
          subst htask hanswer
          exact ha now repo rest hk) ho
        intro task' htask'
        rcases List.mem_append.mp htask' with htask' | htask'
        · exact hadded task' htask'
        · exact hrest task' htask'
    · cases hs
  | execute k =>
    simp only [step] at hs
    split at hs
    · rename_i now task rest hk
      obtain ⟨⟨db', new⟩, ho, hs⟩ := Option.map_eq_some_iff.mp hs
      cases hs
      obtain ⟨htask, hrest⟩ := hpoller hk
      obtain ⟨hdb, hgrows, hadded⟩ := linked_execute h.db htask ho
      refine ⟨hdb, fun p hp => ?_⟩
      rcases mem_replaceAt hp with hp | hp
      · exact fun task' hmem => backed_of_grows hgrows (h.tasks p hp task' hmem)
      · cases List.mem_singleton.mp hp
        intro task' htask'
        rcases List.mem_append.mp htask' with htask' | htask'
        · exact hadded task' htask'
        · exact backed_of_grows hgrows (hrest task' htask')
    · cases hs
  | skip k =>
    simp only [step] at hs
    split at hs
    · rename_i now task rest hk
      obtain ⟨new, ho, hs⟩ := Option.map_eq_some_iff.mp hs
      cases hs
      obtain ⟨htask, hrest⟩ := hpoller hk
      refine ⟨h.db, fun p hp => ?_⟩
      rcases mem_replaceAt hp with hp | hp
      · exact h.tasks p hp
      · cases List.mem_singleton.mp hp
        intro task' htask'
        rcases List.mem_append.mp htask' with htask' | htask'
        · exact linked_failed htask ho task' htask'
        · exact hrest task' htask'
    · cases hs
  | stop k =>
    obtain ⟨p, -, hs⟩ := Option.map_eq_some_iff.mp hs
    cases hs
    refine ⟨h.db, fun p hp => ?_⟩
    exact h.tasks p ((mem_replaceAt hp).resolve_right List.not_mem_nil)
  | registerWatchSha key now ttlSecs =>
    cases hs
    refine ⟨linked_of_watches h.db _ fun key' watch hwatch hmarked => ?_, h.tasks⟩
    rw [Table.get?_upsert] at hwatch
    by_cases hkey : key' = key
    · subst hkey
      rw [if_pos rfl] at hwatch
      cases hold : w.db.watches.get? key' with
      | none =>
        rw [hold] at hwatch
        cases hwatch
        exact absurd rfl hmarked
      | some old =>
        rw [hold] at hwatch
        cases hwatch
        exact ⟨old, rfl, hmarked⟩
    · rw [if_neg hkey] at hwatch
      exact ⟨watch, hwatch, hmarked⟩
  | pendingNotifications repo now ack =>
    cases hs
    split_ifs <;> exact ⟨h.db, h.tasks⟩
  | acknowledge k =>
    simp only [step] at hs
    split at hs
    · rename_i key rest hk
      cases hs
      refine ⟨linked_of_watches h.db _ fun key' watch hwatch hmarked => ?_, h.tasks⟩
      obtain ⟨old, hold, hsame⟩ := Table.eq_of_get?_modify hwatch
      refine ⟨old, hold, ?_⟩
      rcases hsame with ⟨-, rfl⟩ | ⟨-, rfl⟩
      · exact hmarked
      · exact hmarked
    · cases hs
  | enriched run =>
    cases hs
    have hkeys : (w.db.runs.modify run fun row => { row with enriched := true }).keys =
        w.db.runs.keys := Table.keys_mapRows _ _
    refine ⟨{ h.db with runs := fun id row hrow => ?_, jobs := ?_, queue := ?_, watches := ?_ },
      fun p hp task htask => ?_⟩
    · obtain ⟨old, hold, hsame⟩ := Table.eq_of_get?_modify hrow
      rw [h.db.runs id old hold]
      rcases hsame with ⟨-, rfl⟩ | ⟨-, rfl⟩
      · rfl
      · rfl
    · simp only [hkeys]
      exact h.db.jobs
    · simp only [hkeys]
      exact h.db.queue
    · simp only [hkeys]
      exact h.db.watches
    · have hgrows : Grows w.db { w.db with
          runs := w.db.runs.modify run fun row => { row with enriched := true } } :=
        ⟨fun id hid => by simpa only [hkeys] using hid, fun _ hid => hid⟩
      exact backed_of_grows hgrows (h.tasks p hp task htask)

theorem linked_of_run (hrun : Run (step redact re) (Identified ident) (World.start .empty) w) :
    w.Linked ident := by
  refine hrun.invariant (fun _ _ _ hs ha hst => linked_step hs ha hst) ⟨linked_empty, ?_⟩
  exact fun p hp => absurd hp List.not_mem_nil

/-- The tasks that wait for GitHub. -/
def Task.waits : Task → Bool
  | .list _ | .jobs _ _ | .annotations _ | .log _ => true
  | _ => false

theorem execute_isSome {now : ℤ} {task : Task} (htask : task.Backed ident db)
    (hwaits : task.waits = false) : (task.execute redact re now db).isSome = true := by
  cases task with
  | list | jobs | annotations | log => cases hwaits
  | run | settle | look | clearAnnotations | clearLog | cleanup => rfl
  | job r j =>
    have hrun : r.id ∈ db.runs.keys := htask
    simp [Task.execute, Db.upsertJob, ApiJob.row, hrun]
  | annotate j a =>
    have hjob : j.id ∈ db.jobs.keys := htask
    simp [Task.execute, Db.insertAnnotation, annotationRow, hjob]
  | saveLog j excerpt truncated =>
    have hjob : j.id ∈ db.jobs.keys := htask
    simp [Task.execute, Db.insertLogExcerpt, hjob]
  | enqueue r =>
    have hrun : r.id ∈ db.runs.keys := htask
    simp [Task.execute, Db.enqueueEnrichment, hrun]

/-- Whatever passes, notices and enrichments are under way, no statement of a pass refers to a row
that is not there, the foreign keys hold, and every notice is about a commit of a stored run. -/
theorem passes_linked (hrun : Run (step redact re) (Identified ident) (World.start .empty) w) :
    (∀ k now task rest, w.pollers[k]? = some ⟨now, task :: rest⟩ → task.waits = false →
      (step redact re w (.execute k)).isSome = true) ∧
    w.db.Linked ident ∧
    ∀ now key watch, (key, watch) ∈ w.db.pendingNotifications now →
      ∃ id row, w.db.runs.get? id = some row ∧ (row.headSha, row.repo) = key := by
  have hlinked := linked_of_run hrun
  refine ⟨fun k now task rest hk hwaits => ?_, hlinked.db, fun now key watch hpending => ?_⟩
  · have htask := hlinked.tasks _ (List.mem_of_getElem? hk) task List.mem_cons_self
    simp only [step, hk, Option.isSome_map]
    exact execute_isSome htask hwaits
  · rw [Db.pendingNotifications, Table.mem_select] at hpending
    obtain ⟨hwatch, hfailure, -⟩ := hpending
    have hmarked : watch.terminalStatus ≠ none := by
      intro hnone
      rw [hnone] at hfailure
      cases hfailure
    obtain ⟨id, hid, hkey⟩ := hlinked.db.watches key watch hwatch hmarked
    obtain ⟨row, hrow⟩ := Table.mem_keys.mp hid
    exact ⟨id, row, hrow, (hlinked.db.runs id row hrow).symm.trans hkey⟩

/-- A failed run. -/
def failedRun : ApiRun :=
  ⟨1, "abc", none, "push", "completed", some "failure", none, none, "", none, ""⟩

/-- Its pass after the listing. -/
def listed : World := ⟨.empty, [⟨0, [.run "r" failedRun, .cleanup]⟩], [], []⟩

/-- Its only job has an annotation. -/
def drillDown : List Act :=
  let j : ApiJob := ⟨7, "ruff", "completed", some "success", none, none, none, some "url", ""⟩
  [.execute 0, .registerWatchSha ("abc", "r") 0 9, .execute 0, .execute 0,
    .answer 0 (.jobList (some [j])), .execute 0,
    .answer 0 (.annotationList (some [⟨"failure", "F401 unused", none, some 3⟩])), .execute 0,
    .execute 0]

theorem passes_linked_of_drillDown : ∃ w, exec (step id asciiClasses) listed drillDown = some w ∧
    ∀ now key watch, (key, watch) ∈ w.db.pendingNotifications now →
      ∃ id row, w.db.runs.get? id = some row ∧ (row.headSha, row.repo) = key := by
  obtain ⟨w, hw⟩ : ∃ w, exec (step id asciiClasses) listed drillDown = some w :=
    Option.isSome_iff_exists.mp (by decide +kernel)
  have hlater : Run (step id asciiClasses) (Identified fun _ => ("abc", "r")) listed w := by
    refine run_of_exec ?_ hw
    simp [drillDown, Identified]
  have hlist : Identified (fun _ => ("abc", "r")) ⟨.empty, [⟨0, runOnce ["r"]⟩], [], []⟩
      (.answer 0 (.runList (some [failedRun]))) := by
    intro now repo rest hpoller r hr
    cases hpoller
    cases List.mem_singleton.mp hr
    rfl
  have hrun : Run (step id asciiClasses) (Identified fun _ => ("abc", "r"))
      (World.start .empty) w := by
    refine Run.head (a := .poll ["r"] 0) (t := ⟨.empty, [⟨0, runOnce ["r"]⟩], [], []⟩)
      trivial rfl ?_
    exact Run.head (t := listed) hlist rfl hlater
  exact ⟨w, hw, (passes_linked hrun).2.2⟩

end References

section Annotations

/-- The annotations of a job that were answered last; none before an answer. -/
def lastFetched (fetched : List (ℕ × List AnnotationRow)) (job : ℕ) : List AnnotationRow :=
  (((fetched.filter fun e => e.1 = job).getLast?).map Prod.snd).getD []

def Db.annotationsOf (db : Db) (job : ℕ) : List AnnotationRow :=
  db.annotations.filter fun row => row.jobId = job

/-- The tasks that write annotations. -/
def Task.rewrites : Task → Bool
  | .clearAnnotations _ | .annotate _ _ => true
  | _ => false

/-- One pass at a time, which is not broken off while it writes annotations. -/
def OneAtATime (w : World) : Act → Prop
  | .poll _ _ => w.pollers = []
  | .stop k => ∀ p, w.pollers[k]? = some p → ∀ task ∈ p.tasks, task.rewrites = false
  | _ => True

variable (redact : String → String) (re : Classes)

/-- What is still to be written, in front of what else the pass has to do. -/
structure Rewriting (w : World) (p : Poller) (clear : Bool) (j : ApiJob) (l : List ApiAnnotation)
    (rest : List Task) : Prop where
  tasks : p.tasks =
    (if clear then [Task.clearAnnotations j] else []) ++ l.map (Task.annotate j) ++ rest
  rest : ∀ task ∈ rest, task.rewrites = false
  job : lastFetched w.fetched j.id = (if clear then [] else w.db.annotationsOf j.id) ++
    l.map (annotationRow redact re j)
  others : ∀ job, job ≠ j.id → w.db.annotationsOf job = lastFetched w.fetched job

/-- No pass has annotations left to write. -/
structure Quiet (w : World) : Prop where
  one : w.pollers.length ≤ 1
  tasks : ∀ p ∈ w.pollers, ∀ task ∈ p.tasks, task.rewrites = false
  jobs : ∀ job, w.db.annotationsOf job = lastFetched w.fetched job

def Fetched (w : World) : Prop :=
  Quiet w ∨ ∃ p clear j l rest, w.pollers = [p] ∧ Rewriting redact re w p clear j l rest

variable {redact re} {db db' : Db} {w w' : World}

theorem lastFetched_append (fetched : List (ℕ × List AnnotationRow)) (j job : ℕ)
    (rows : List AnnotationRow) : lastFetched (fetched ++ [(j, rows)]) job =
      if job = j then rows else lastFetched fetched job := by
  by_cases h : job = j
  · simp [lastFetched, h]
  · have hne : ¬ j = job := fun heq => h heq.symm
    simp [lastFetched, h, hne]

theorem annotations_execute {now : ℤ} {task : Task} {new : List Task}
    (htask : task.rewrites = false) (h : task.execute redact re now db = some (db', new)) :
    db'.annotations = db.annotations ∧ ∀ task' ∈ new, task'.rewrites = false := by
  cases task with
  | list | jobs | annotations | log => cases h
  | clearAnnotations | annotate => cases htask
  | run | look =>
    cases h
    refine ⟨rfl, ?_⟩
    split_ifs <;> simp [Task.rewrites]
  | settle repo r =>
    cases h
    refine ⟨?_, fun _ hmem => by cases hmem⟩
    cases r.conclusion with
    | none => rfl
    | some c =>
      simp only
      split_ifs <;> rfl
  | job r j =>
    obtain ⟨stored, hstored, h⟩ := Option.map_eq_some_iff.mp h
    cases h
    simp only [Db.upsertJob] at hstored
    split_ifs at hstored
    cases hstored
    refine ⟨rfl, ?_⟩
    split_ifs <;> simp [Task.rewrites]
  | saveLog j excerpt truncated =>
    obtain ⟨stored, hstored, h⟩ := Option.map_eq_some_iff.mp h
    cases h
    simp only [Db.insertLogExcerpt] at hstored
    split_ifs at hstored
    cases hstored
    exact ⟨rfl, fun _ hmem => by cases hmem⟩
  | enqueue r =>
    obtain ⟨stored, hstored, h⟩ := Option.map_eq_some_iff.mp h
    cases h
    simp only [Db.enqueueEnrichment] at hstored
    split_ifs at hstored
    cases hstored
    exact ⟨rfl, fun _ hmem => by cases hmem⟩
  | clearLog | cleanup =>
    cases h
    exact ⟨rfl, fun _ hmem => by cases hmem⟩

theorem rewrites_failed {task : Task} {new : List Task} (h : task.failed = some new) :
    task.rewrites = false ∧ ∀ task' ∈ new, task'.rewrites = false := by
  cases task with
  | settle repo r =>
    simp only [Task.failed] at h
    split_ifs at h
    cases h
    simp [Task.rewrites]
  | look | cleanup =>
    cases h
    simp [Task.rewrites]
  | list | run | jobs | job | annotations | clearAnnotations | annotate | log | clearLog | saveLog
  | enqueue => cases h

/-- An answer brings annotations to write, or nothing about annotations. -/
theorem fetched_answered (redact : String → String) (re : Classes) {task : Task} {a : Answer}
    {o : Option (List Task)}
    (h : task.answered a = some o) : task.rewrites = false ∧
    ((∃ j l, task = .annotations j ∧ a = .annotationList l ∧
      o = some (.clearAnnotations j :: (l.getD []).map (.annotate j))) ∨
    (task.fetched redact re a = [] ∧
      ∀ new, o = some new → ∀ task' ∈ new, task'.rewrites = false)) := by
  cases task with
  | list repo =>
    cases a with
    | runList l =>
      refine ⟨rfl, Or.inr ⟨rfl, fun new hnew => ?_⟩⟩
      cases h
      obtain ⟨runs, -, rfl⟩ := Option.map_eq_some_iff.mp hnew
      simp [Task.rewrites]
    | jobList | annotationList | logTail => cases h
  | jobs repo r =>
    cases a with
    | jobList l =>
      refine ⟨rfl, Or.inr ⟨rfl, fun new hnew => ?_⟩⟩
      cases h
      cases hnew
      cases l with
      | none => simp
      | some found =>
        rw [List.forall_mem_append, List.forall_mem_map]
        simp [Task.rewrites]
    | runList | annotationList | logTail => cases h
  | annotations j =>
    cases a with
    | annotationList l =>
      cases h
      exact ⟨rfl, Or.inl ⟨j, l, rfl, rfl, rfl⟩⟩
    | runList | jobList | logTail => cases h
  | log j =>
    cases a with
    | logTail l =>
      refine ⟨rfl, Or.inr ⟨rfl, fun new hnew => ?_⟩⟩
      cases h
      cases hnew
      cases l <;> simp [Task.rewrites]
    | runList | jobList | annotationList => cases h
  | run | settle | look | job | clearAnnotations | annotate | clearLog | saveLog | enqueue
  | cleanup => cases h

theorem quiet_of_written {p : Poller} {j : ApiJob} {rest : List Task} (hp : w.pollers = [p])
    (h : Rewriting redact re w p false j [] rest) : Quiet w := by
  refine ⟨by simp [hp], fun q hq task htask => ?_, fun job => ?_⟩
  · rw [hp, List.mem_singleton] at hq
    subst hq
    rw [h.tasks] at htask
    exact h.rest task (by simpa using htask)
  · by_cases hjob : job = j.id
    · subst hjob
      simpa using h.job.symm
    · exact h.others job hjob

/-- A step of a pass is of the only one. -/
theorem only_of_quiet {k : ℕ} {p : Poller} (h : Quiet w) (hk : w.pollers[k]? = some p) :
    w.pollers = [p] ∧ k = 0 := by
  obtain ⟨hlt, hget⟩ := List.getElem?_eq_some_iff.mp hk
  have hone := h.one
  have hlength : w.pollers.length = 1 := by omega
  have hzero : k = 0 := by omega
  subst hzero
  obtain ⟨q, hq⟩ := List.length_eq_one_iff.mp hlength
  refine ⟨?_, rfl⟩
  rw [hq] at hk ⊢
  cases hk
  rfl

theorem quiet_replace {p q : Poller} {db' : Db} {acks : List (List WatchKey)} (h : Quiet w)
    (hp : w.pollers = [p]) (hq : ∀ task ∈ q.tasks, task.rewrites = false)
    (hdb : db'.annotations = w.db.annotations) :
    Quiet ⟨db', replaceAt w.pollers 0 [q], acks, w.fetched⟩ := by
  rw [hp]
  refine ⟨by simp [replaceAt], ?_, fun job => ?_⟩
  · intro q' hq'
    cases List.mem_singleton.mp hq'
    exact hq
  · rw [Db.annotationsOf, hdb]
    exact h.jobs job

theorem fetched_of_quiet {a : Act} (h : Quiet w) (ha : OneAtATime w a)
    (hs : step redact re w a = some w') : Fetched redact re w' := by
  have hpoller : ∀ {k : ℕ} {now : ℤ} {task : Task} {rest : List Task},
      w.pollers[k]? = some ⟨now, task :: rest⟩ → ∀ task' ∈ rest, task'.rewrites = false :=
    fun hk task' hmem => h.tasks _ (List.mem_of_getElem? hk) task' (List.mem_cons_of_mem _ hmem)
  cases a with
  | poll watchedRepos now =>
    cases hs
    have hnone : w.pollers = [] := ha
    refine Or.inl ⟨by simp [hnone], ?_, h.jobs⟩
    simp only [hnone, List.nil_append, List.forall_mem_singleton, runOnce, List.forall_mem_append,
      List.forall_mem_map]
    simp [Task.rewrites]
  | answer k a =>
    simp only [step] at hs
    split at hs
    · rename_i now task rest hk
      obtain ⟨o, ho, hs⟩ := Option.map_eq_some_iff.mp hs
      cases hs
      obtain ⟨hp, rfl⟩ := only_of_quiet h hk
      obtain ⟨-, ⟨j, l, rfl, rfl, rfl⟩ | ⟨hfetched, hnew⟩⟩ :=
        fetched_answered redact re ho
      · refine Or.inr ⟨_, true, j, l.getD [], rest, by rw [hp]; rfl, rfl, hpoller hk, ?_, ?_⟩
        · rw [Task.fetched, lastFetched_append, if_pos rfl]
          rfl
        · intro job hjob
          rw [Task.fetched, lastFetched_append, if_neg hjob]
          exact h.jobs job
      · rw [hfetched, List.append_nil]
        cases o with
        | none =>
          refine Or.inl ⟨by simp [hp, replaceAt], ?_, h.jobs⟩
          simp [hp, replaceAt]
        | some new =>
          refine Or.inl (quiet_replace h hp ?_ rfl)
          intro task' htask'
          rcases List.mem_append.mp htask' with htask' | htask'
          · exact hnew new rfl task' htask'
          · exact hpoller hk task' htask'
    · cases hs
  | execute k =>
    simp only [step] at hs
    split at hs
    · rename_i now task rest hk
      obtain ⟨⟨db', new⟩, ho, hs⟩ := Option.map_eq_some_iff.mp hs
      cases hs
      obtain ⟨hp, rfl⟩ := only_of_quiet h hk
      have htask := h.tasks _ (List.mem_of_getElem? hk) task List.mem_cons_self
      obtain ⟨hsame, hnew⟩ := annotations_execute htask ho
      refine Or.inl (quiet_replace h hp ?_ hsame)
      intro task' htask'
      rcases List.mem_append.mp htask' with htask' | htask'
      · exact hnew task' htask'
      · exact hpoller hk task' htask'
    · cases hs
  | skip k =>
    simp only [step] at hs
    split at hs
    · rename_i now task rest hk
      obtain ⟨new, ho, hs⟩ := Option.map_eq_some_iff.mp hs
      cases hs
      obtain ⟨hp, rfl⟩ := only_of_quiet h hk
      refine Or.inl (quiet_replace h hp ?_ rfl)
      intro task' htask'
      rcases List.mem_append.mp htask' with htask' | htask'
      · exact (rewrites_failed ho).2 task' htask'
      · exact hpoller hk task' htask'
    · cases hs
  | stop k =>
    obtain ⟨p, hk, hs⟩ := Option.map_eq_some_iff.mp hs
    cases hs
    obtain ⟨hp, rfl⟩ := only_of_quiet h hk
    refine Or.inl ⟨by simp [hp, replaceAt], ?_, h.jobs⟩
    simp [hp, replaceAt]
  | pendingNotifications repo now ack =>
    cases hs
    split_ifs <;> exact Or.inl ⟨h.one, h.tasks, h.jobs⟩
  | acknowledge k =>
    simp only [step] at hs
    split at hs
    · cases hs
      exact Or.inl ⟨h.one, h.tasks, h.jobs⟩
    · cases hs
  | registerWatchSha | enriched =>
    cases hs
    exact Or.inl ⟨h.one, h.tasks, h.jobs⟩

/-- While annotations are left to write, the next step of the pass writes one. -/
theorem fetched_of_rewriting {a : Act} {p : Poller} {task : Task} {clear : Bool} {j : ApiJob}
    {l : List ApiAnnotation} {rest : List Task} (hp : w.pollers = [p])
    (h : Rewriting redact re w p clear j l rest) (htask : p.tasks.head? = some task)
    (hrewrites : task.rewrites = true) (ha : OneAtATime w a)
    (hs : step redact re w a = some w') : Fetched redact re w' := by
  obtain ⟨now, tasks⟩ := p
  obtain ⟨after, rfl⟩ : ∃ after, tasks = task :: after := by
    cases tasks with
    | nil => cases htask
    | cons first after =>
      cases htask
      exact ⟨after, rfl⟩
  have hnotAnswered : ∀ a, task.answered a = none := by
    intro a
    cases hanswer : task.answered a with
    | none => rfl
    | some o =>
      have hquiet := (fetched_answered redact re hanswer).1
      rw [hrewrites] at hquiet
      cases hquiet
  have hnotFailed : task.failed = none := by
    cases hfailed : task.failed with
    | none => rfl
    | some new =>
      have hquiet := (rewrites_failed hfailed).1
      rw [hrewrites] at hquiet
      cases hquiet
  cases a with
  | poll =>
    rw [OneAtATime, hp] at ha
    cases ha
  | answer k a =>
    simp only [step, hp] at hs
    split at hs
    · rename_i hk
      obtain ⟨rfl, heq⟩ := getElem?_singleton hk
      cases heq
      rw [hnotAnswered] at hs
      cases hs
    · cases hs
  | execute k =>
    simp only [step, hp] at hs
    split at hs
    · rename_i hk
      obtain ⟨rfl, heq⟩ := getElem?_singleton hk
      cases heq
      obtain ⟨⟨db', new⟩, ho, hs⟩ := Option.map_eq_some_iff.mp hs
      cases hs
      cases clear with
      | true =>
        cases h.tasks
        cases ho
        refine Or.inr ⟨_, false, j, l, rest, rfl, rfl, h.rest, ?_, fun job hjob => ?_⟩
        · have hcleared : (w.db.clearAnnotations j.id).annotationsOf j.id = [] := by
            simp [Db.clearAnnotations, Db.annotationsOf, List.filter_filter]
          rw [hcleared]
          exact h.job
        · have hkept : (w.db.clearAnnotations j.id).annotationsOf job =
              w.db.annotationsOf job := by
            simp only [Db.clearAnnotations, Db.annotationsOf, List.filter_filter]
            congr 1
            ext row
            grind
          rw [hkept]
          exact h.others job hjob
      | false =>
        cases l with
        | nil =>
          have hrest := h.rest task (by rw [← show task :: after = rest from h.tasks]; simp)
          rw [hrewrites] at hrest
          cases hrest
        | cons a l =>
          cases h.tasks
          obtain ⟨stored, hstored, ho⟩ := Option.map_eq_some_iff.mp ho
          cases ho
          simp only [Db.insertAnnotation] at hstored
          split_ifs at hstored
          cases hstored
          refine Or.inr ⟨_, false, j, l, rest, rfl, rfl, h.rest, ?_, fun job hjob => ?_⟩
          · rw [h.job]
            simp [Db.annotationsOf, annotationRow]
          · rw [← h.others job hjob]
            have hne : ¬ j.id = job := fun heq => hjob heq.symm
            simp [Db.annotationsOf, annotationRow, hne]
    · cases hs
  | skip k =>
    simp only [step, hp] at hs
    split at hs
    · rename_i hk
      obtain ⟨rfl, heq⟩ := getElem?_singleton hk
      cases heq
      rw [hnotFailed] at hs
      cases hs
    · cases hs
  | stop k =>
    obtain ⟨q, hk, hs⟩ := Option.map_eq_some_iff.mp hs
    have hquiet := ha q hk task
    rw [hp] at hk
    obtain ⟨-, rfl⟩ := getElem?_singleton hk
    rw [hrewrites] at hquiet
    cases hquiet List.mem_cons_self
  | pendingNotifications repo now ack =>
    cases hs
    split_ifs <;> exact Or.inr ⟨_, clear, j, l, rest, hp, h.tasks, h.rest, h.job, h.others⟩
  | acknowledge k =>
    simp only [step] at hs
    split at hs
    · cases hs
      exact Or.inr ⟨_, clear, j, l, rest, hp, h.tasks, h.rest, h.job, h.others⟩
    · cases hs
  | registerWatchSha | enriched =>
    cases hs
    exact Or.inr ⟨_, clear, j, l, rest, hp, h.tasks, h.rest, h.job, h.others⟩

theorem fetched_step {a : Act} (h : Fetched redact re w) (ha : OneAtATime w a)
    (hs : step redact re w a = some w') : Fetched redact re w' := by
  rcases h with h | ⟨p, clear, j, l, rest, hp, h⟩
  · exact fetched_of_quiet h ha hs
  · cases clear with
    | true => exact fetched_of_rewriting hp h (by rw [h.tasks]; rfl) rfl ha hs
    | false =>
      cases l with
      | nil => exact fetched_of_quiet (quiet_of_written hp h) ha hs
      | cons a l => exact fetched_of_rewriting hp h (by rw [h.tasks]; rfl) rfl ha hs

/-- With one pass at a time, the stored annotations of each job are those of the last answer about
it: redacted, in order, once each, and none if the answer was an error. -/
theorem annotations_exact (hrun : Run (step redact re) OneAtATime (World.start .empty) w)
    (hwritten : ∀ p ∈ w.pollers, ∀ task ∈ p.tasks, task.rewrites = false) (job : ℕ) :
    w.db.annotationsOf job = lastFetched w.fetched job := by
  have hstart : Quiet (World.start .empty) :=
    ⟨by simp [World.start], fun p hp => absurd hp List.not_mem_nil, fun _ => rfl⟩
  have hfetched : Fetched redact re w :=
    hrun.invariant (fun _ _ _ hs ha hst => fetched_step hs ha hst) (Or.inl hstart)
  rcases hfetched with h | ⟨p, clear, j, l, rest, hp, h⟩
  · exact h.jobs job
  · have hquiet := hwritten p (by simp [hp])
    cases clear with
    | true => cases hquiet (.clearAnnotations j) (by simp [h.tasks])
    | false =>
      cases l with
      | nil => exact (quiet_of_written hp h).jobs job
      | cons a l => cases hquiet (.annotate j a) (by simp [h.tasks])

theorem annotations_exact_of_drillDown :
    ∃ w, exec (step id asciiClasses) listed drillDown = some w ∧ w.db.annotationsOf 7 =
      [⟨7, "failure", ⟨some "ruff", some "F401"⟩, none, some 3, "F401 unused"⟩] := by
  obtain ⟨w, hw, hwritten, hfetched⟩ : ∃ w, exec (step id asciiClasses) listed drillDown = some w ∧
      (∀ p ∈ w.pollers, ∀ task ∈ p.tasks, task.rewrites = false) ∧
      lastFetched w.fetched 7 =
        [⟨7, "failure", ⟨some "ruff", some "F401"⟩, none, some 3, "F401 unused"⟩] := by
    have hany : (exec (step id asciiClasses) listed drillDown).any (fun w => decide
        ((∀ p ∈ w.pollers, ∀ task ∈ p.tasks, task.rewrites = false) ∧ lastFetched w.fetched 7 =
          [⟨7, "failure", ⟨some "ruff", some "F401"⟩, none, some 3, "F401 unused"⟩])) = true := by
      decide +kernel
    obtain ⟨w, hw, hP⟩ := (Option.any_eq_true _ _).mp hany
    exact ⟨w, hw, of_decide_eq_true hP⟩
  have hlater : Run (step id asciiClasses) OneAtATime listed w := by
    refine run_of_exec ?_ hw
    simp [drillDown, OneAtATime]
  have hrun : Run (step id asciiClasses) OneAtATime (World.start .empty) w := by
    refine Run.head (a := .poll ["r"] 0) (t := ⟨.empty, [⟨0, runOnce ["r"]⟩], [], []⟩) rfl rfl ?_
    exact Run.head (a := .answer 0 (.runList (some [failedRun]))) (t := listed) trivial rfl hlater
  exact ⟨w, hw, (annotations_exact hrun hwritten 7).trans hfetched⟩

end Annotations

end Hippo.GhPoll
