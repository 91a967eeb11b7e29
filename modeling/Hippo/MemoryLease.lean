import Hippo.MemoryRuns

/-!
# The lease of a memory worker

A worker whose claim on a revision was taken over can still report. Its result goes through
the current revision and closes the queue row again, which is harmless. Its failure report
goes by the revision id alone: it is harmless exactly when the row is not done.
-/
namespace Hippo.Memory
open Hippo Hippo.MemoryDb Hippo.Transition

section Definitions
variable {γ : Type}

def World.Done (w : World γ) (r : ℕ) : Prop := w.db.queue.status? r = some .done

instance (w : World γ) (r : ℕ) : Decidable (w.Done r) := by
  unfold World.Done
  infer_instance

/-- The document is ready and shows its current revision. -/
def Settled (x : MemoryDocument) (r : ℕ) : Prop :=
  x.projectionStatus = .ready ∧ x.currentRevision = some r ∧ x.activeRevision = some r

instance (x : MemoryDocument) (r : ℕ) : Decidable (Settled x r) := by
  unfold Settled
  infer_instance

/-- The call in flight whose worker takes the step. -/
def Action.worker : Action γ → Option ℕ
  | .write k _ _ | .fail k _ | .crash k => some k
  | _ => none

/-- Another claim, or the reaper, took the row of the call's revision over. -/
def World.Reclaimed (w : World γ) (k : ℕ) : Prop :=
  ∃ r ticket, w.ops[k]? = some (.enriching r ticket) ∧ w.holder r ≠ some ticket

/-- A failure report is on a row that is not done. -/
def FailsOpen (w : World γ) : Action γ → Prop
  | .fail k _ => match w.ops[k]? with
    | some (.enriching r _) => ¬ w.Done r
    | _ => True
  | _ => True

instance (w : World γ) (a : Action γ) : Decidable (FailsOpen w a) := by
  induction a using Action.casesOn with
  | fail k error =>
    dsimp only [FailsOpen]
    generalize w.ops[k]? = op
    induction op using Option.casesOn with
    | none => exact instDecidableTrue
    | some op => induction op using Op.casesOn <;> dsimp only <;> infer_instance
  | _ => exact instDecidableTrue

/-- A prune that deletes the revision with its queue row. -/
def Deletes (r : ℕ) (w : World γ) : Action γ → Prop
  | .prune k => match w.ops[k]? with
    | some (.deletingRevisions ids) => r ∈ ids
    | _ => False
  | _ => False

/-- No done row is open or failed again, and no settled document went stale. -/
structure Harmless (w w' : World γ) : Prop where
  rows : ∀ r, w.Done r →
    w'.db.queue.status? r ≠ some .pending ∧ w'.db.queue.status? r ≠ some .failed
  documents : ∀ d x r x', w.db.documents.get? d = some x → Settled x r →
    (w.db.queue.get? r).isSome → w'.db.documents.get? d = some x' → x'.projectionStatus ≠ .stale

end Definitions

section SettledDone
variable {γ : Type} {w w' : World γ} {a : Action γ} {db db' : MemoryDb γ}

/-- The revision a settled document shows is done in the queue. -/
def SettledDone (db : MemoryDb γ) : Prop :=
  ∀ d x r q, db.documents.get? d = some x → Settled x r → db.queue.get? r = some q →
    q.status = .done

/-- What is settled after the transaction was settled before, and its row was not touched
unless it is done. -/
theorem SettledDone.frame (h : SettledDone db)
    (hdocs : ∀ d x' r, db'.documents.get? d = some x' → Settled x' r →
      (∃ x, db.documents.get? d = some x ∧ Settled x r) ∧
        ∀ q', db'.queue.get? r = some q' → q'.status = .done ∨ db.queue.get? r = some q') :
    SettledDone db' := by
  intro d x' r q' hx' hset hq'
  obtain ⟨⟨x, hx, hold⟩, hrow⟩ := hdocs d x' r hx' hset
  rcases hrow q' hq' with hdone | hq
  · exact hdone
  · exact h d x r q' hx hold hq

theorem SettledDone.modifyDocument (h : SettledDone db) {d : ℕ}
    {f : MemoryDocument → MemoryDocument} (hf : ∀ x r, Settled (f x) r → Settled x r) :
    SettledDone { db with documents := db.documents.modify d f } := by
  refine h.frame fun j x' r hx' hset => ⟨?_, fun q' hq' => Or.inr hq'⟩
  obtain ⟨x, hx, ⟨-, rfl⟩ | ⟨-, rfl⟩⟩ := Table.eq_of_get?_modify hx'
  · exact ⟨x, hx, hf x r hset⟩
  · exact ⟨x', hx, hset⟩

/-- The document a revision is added to shows an older one, if any. -/
theorem SettledDone.addRevision (h : SettledDone db) (hkeyed : Keyed db) (d : ℕ)
    (file : MemoryFile) : SettledDone (db.addRevision d file) := by
  refine h.frame fun j x' r hx' hset => ?_
  obtain ⟨x, hx, ⟨rfl, rfl⟩ | ⟨-, rfl⟩⟩ := Table.eq_of_get?_modify hx'
  · obtain ⟨-, hcurrent, hactive⟩ := hset
    have hnew : db.revisions.nextRowid = r := Option.some.inj hcurrent
    have hlt : r < db.revisions.nextRowid := hkeyed.pointsTo_lt hx (Or.inr hactive)
    omega
  · refine ⟨⟨x', hx, hset⟩, fun q' hq' => Or.inr ?_⟩
    have hlt : r < db.revisions.nextRowid := hkeyed.pointsTo_lt hx (Or.inr hset.2.2)
    rcases addRevision_queue_get? hkeyed.queue_nextRowid hq' with hq | hnew
    · exact hq
    · omega

theorem SettledDone.ingest (h : SettledDone db) (hkeyed : Keyed db) {file : MemoryFile}
    {seen : Option SeenDocument} (hdb : db.ingest file seen = .ok db') : SettledDone db' := by
  rcases ingest_cases hdb with ⟨new, -, -, hcurrent, hactive, -, rfl⟩ | ⟨d, current, -, hseen⟩
  · have hcreated : SettledDone
        { db with documents := db.documents.insert db.documents.nextRowid new } := by
      refine h.frame fun j x' r hx' hset => ⟨?_, fun q' hq' => Or.inr hq'⟩
      rw [Table.get?_insert_nextRowid] at hx'
      split at hx'
      · cases hx'
        have hnone : some r = none := hset.2.1.symm.trans hcurrent
        cases hnone
      · exact ⟨x', hx', hset⟩
    exact hcreated.addRevision (hkeyed.createDocument hcurrent hactive) _ file
  · have htouched : SettledDone
        { db with documents := db.documents.modify d MemoryDocument.seenAgain } :=
      h.modifyDocument fun x r hset => hset
    rcases hseen with rfl | rfl
    · exact htouched
    · exact htouched.addRevision (hkeyed.modifyDocument fun x c hc => hc) d file

/-- Only a result makes a document ready, and it closes the row of its revision. -/
theorem SettledDone.write (h : SettledDone db) {r : ℕ} {body : γ} {vecOk : Bool}
    (hdb : db.writeMemoryKnowledgeNode r body vecOk = .ok db') : SettledDone db' := by
  have hrow : ∀ j q', (db.queue.modify r QueueRow.finish).get? j = some q' →
      q'.status = .done ∨ (j ≠ r ∧ db.queue.get? j = some q') := by
    intro j q' hq'
    obtain ⟨q, hq, ⟨-, rfl⟩ | ⟨hne, rfl⟩⟩ := Table.eq_of_get?_modify hq'
    · exact Or.inl rfl
    · exact Or.inr ⟨hne, hq⟩
  obtain ⟨rev, x, -, -, ⟨-, -, rfl⟩ | ⟨-, store, -, rfl⟩⟩ := writeMemoryKnowledgeNode_ok hdb
  · refine h.frame fun d x' j hx' hset => ⟨⟨x', hx', hset⟩, fun q' hq' => ?_⟩
    exact (hrow j q' hq').imp_right And.right
  · intro d x' j q' hx' hset hq'
    obtain ⟨y, hy, ⟨-, rfl⟩ | ⟨-, rfl⟩⟩ := Table.eq_of_get?_modify hx'
    · have hactive : r = j := Option.some.inj hset.2.2
      rcases hrow j q' hq' with hdone | ⟨hne, -⟩
      · exact hdone
      · exact absurd hactive.symm hne
    · rcases hrow j q' hq' with hdone | ⟨-, hq⟩
      · exact hdone
      · exact h d x' j q' hy hset hq

theorem SettledDone.effect (h : SettledDone w.db) (hkeyed : w.Keyed) (he : Effect w a w') :
    SettledDone w'.db := by
  cases he with
  | ingest hop hdb => exact h.ingest hkeyed.db hdb
  | rename hop hdb =>
    obtain ⟨rev, -, -, -, rfl⟩ := rename_ok hdb
    exact h.modifyDocument (f := MemoryDocument.renameTo _) fun x r hset => hset
  | prune hop =>
    refine h.frame fun d x' r hx' hset => ?_
    obtain ⟨x, hx, rfl⟩ := Option.map_eq_some_iff.mp ((Table.get?_mapRows _ _ d).symm.trans hx')
    obtain ⟨hready, hcurrent, hactive⟩ := hset
    have hold : Settled x r := ⟨hready, (Option.filter_eq_some_iff.mp hcurrent).1,
      (Option.filter_eq_some_iff.mp hactive).1⟩
    exact ⟨⟨x, hx, hold⟩, fun q' hq' => Or.inr (Table.get?_delete_eq_some.mp hq').1⟩
  | missing d => exact h.modifyDocument fun x r hset => hset
  | tombstone hop hdb =>
    obtain ⟨rev, store, -, -, -, -, rfl⟩ := tombstone_ok hdb
    exact h.modifyDocument (f := MemoryDocument.bury _) fun x r hset => absurd hset.2.2 nofun
  | claim hids =>
    refine h.frame fun d x' r hx' hset => ?_
    obtain ⟨x, hx, ⟨-, rfl⟩ | ⟨hnot, rfl⟩⟩ := Table.eq_of_get?_update hx'
    · exact absurd hset.1 nofun
    · refine ⟨⟨x', hx, hset⟩, fun q' hq' => ?_⟩
      obtain ⟨q, hq, ⟨hr, -⟩ | ⟨-, rfl⟩⟩ := Table.eq_of_get?_update hq'
      · exact absurd ⟨r, hset.2.1, hr⟩ hnot
      · exact Or.inr hq
  | write hop hdb => exact h.write hdb
  | fail hop error =>
    refine h.frame fun d x' r hx' hset => ?_
    obtain ⟨x, hx, ⟨-, rfl⟩ | ⟨hnot, rfl⟩⟩ := Table.eq_of_get?_update hx'
    · have hready := hset.1
      simp only [MemoryDocument.markFailed] at hready
      split at hready <;> cases hready
    · refine ⟨⟨x', hx, hset⟩, fun q' hq' => ?_⟩
      obtain ⟨q, hq, ⟨rfl, -⟩ | ⟨-, rfl⟩⟩ := Table.eq_of_get?_modify hq'
      · exact absurd hset.2.1 hnot
      · exact Or.inr hq
  | reap timeout now =>
    refine h.frame fun d x r hx hset => ⟨⟨x, hx, hset⟩, fun q' hq' => ?_⟩
    obtain ⟨q, hq, ⟨hstale, -⟩ | ⟨-, rfl⟩⟩ := Table.eq_of_get?_update hq'
    · have hdone : q.status = .done := h d x r q hx hset hq
      rw [hdone] at hstale
      cases hstale.1
    · exact Or.inr hq
  | _ => exact h

theorem settledDone_of_reaches (h : Reaches step World.init w) : SettledDone w.db := by
  refine h.invariant_of (J := World.Keyed) (I := fun v => SettledDone v.db)
    (fun s a t hs _ hstep => hs.effect (step_effect hstep))
    (fun s a t hkeyed hs _ hstep => hs.effect hkeyed (step_effect hstep))
    (keyed_of_reaches (Run.refl _)) ?_
  intro d x r q hx
  cases hx

end SettledDone

section Lease
variable {γ : Type} {w w' : World γ} {a : Action γ}

/-- A row that was done is done as long as its revision is there, if no failure report of
any worker lands on it. -/
theorem done_step (hkeyed : w.Keyed) (hok : FailsOpen w a) {r : ℕ} (hdel : ¬ Deletes r w a)
    (hs : step w a = some w') (hdone : w.Done r) : w'.Done r := by
  obtain ⟨q, hq, hst⟩ := Option.map_eq_some_iff.mp hdone
  have kept : w'.db.queue.get? r = some q → w'.Done r := by
    intro hq'
    rw [World.Done, Queue.status?, hq', Option.map_some, hst]
  cases step_effect hs with
  | ingest hop hdb =>
    refine kept ?_
    obtain ⟨rev, hrev, -⟩ := hkeyed.db.queued r (Option.isSome_of_mem hq)
    have hlt : r < w.db.revisions.nextRowid :=
      Table.lt_nextRowid (Table.mem_keys.mpr ⟨rev, hrev⟩)
    have added : ∀ (db : MemoryDb γ) d file, db.revisions = w.db.revisions →
        db.queue = w.db.queue → (db.addRevision d file).queue.get? r = some q := by
      intro db d file hrevs hqueue
      have hnone : db.queue.get? db.revisions.nextRowid = none := by
        rw [hrevs, hqueue]
        exact hkeyed.db.queue_nextRowid
      rw [addRevision_queue_get?_of_ne hnone (by rw [hrevs]; omega), hqueue, hq]
    rcases ingest_cases hdb with ⟨new, -, -, -, -, -, rfl⟩ | ⟨d, current, -, rfl | rfl⟩
    · exact added _ _ _ rfl rfl
    · exact hq
    · exact added _ _ _ rfl rfl
  | rename hop hdb =>
    obtain ⟨rev, -, -, -, rfl⟩ := rename_ok hdb
    exact hdone
  | prune hop =>
    simp only [Deletes, hop] at hdel
    exact kept (Table.get?_delete_eq_some.mpr ⟨hq, hdel⟩)
  | tombstone hop hdb =>
    obtain ⟨rev, store, -, -, -, -, rfl⟩ := tombstone_ok hdb
    exact hdone
  | claim hids =>
    rename_i ids holder
    have hnot : r ∉ ids := by
      intro hr
      obtain ⟨q', hq', hopen⟩ := hids r hr
      rw [hq, Option.some.injEq] at hq'
      subst hq'
      rw [hst] at hopen
      rcases hopen with hopen | hopen <;> cases hopen
    refine kept ?_
    rw [MemoryDb.lockRevisions, Table.get?_update, hq, Option.map_some, if_neg hnot]
  | write hop hdb =>
    rename_i k r' ticket body vecOk db'
    have hfinished : Queue.status? (w.db.queue.modify r' QueueRow.finish) r = some .done := by
      rw [Queue.status?, Table.get?_modify, hq]
      split
      · rfl
      · rw [Option.map_some, hst]
    obtain ⟨rev, x, -, -, ⟨-, -, rfl⟩ | ⟨-, store, -, rfl⟩⟩ := writeMemoryKnowledgeNode_ok hdb
    · exact hfinished
    · exact hfinished
  | fail hop error =>
    rename_i k r' ticket
    simp only [FailsOpen, hop] at hok
    have hne : r ≠ r' := fun h => hok (h ▸ hdone)
    refine kept ?_
    rw [MemoryDb.markMemoryEnrichmentFailed, Table.get?_modify_of_ne _ hne, hq]
  | reap timeout now =>
    refine kept ?_
    have hnot : ¬ (q.status = .processing ∧ q.lockedBefore (now - timeout)) := by
      rw [hst]
      rintro ⟨h, -⟩
      cases h
    rw [MemoryDb.reapStaleLocks, Queue.reapStaleLocks, Table.get?_update, hq, Option.map_some,
      if_neg hnot]
  | _ => exact hdone

/-- A step of a worker other than a failure report makes no document stale. -/
theorem stale_of_worker (hs : step w a = some w') {k : ℕ} (hk : a.worker = some k)
    {d : ℕ} {x x' : MemoryDocument} (hx : w.db.documents.get? d = some x)
    (hready : x.projectionStatus = .ready) (hx' : w'.db.documents.get? d = some x')
    (hstale : x'.projectionStatus = .stale) : ∃ r ticket error, a = .fail k error ∧
      w.ops[k]? = some (.enriching r ticket) ∧ x.currentRevision = some r := by
  have same : w'.db.documents.get? d ≠ some x := by
    intro hsame
    rw [hsame, Option.some.injEq] at hx'
    rw [← hx', hready] at hstale
    cases hstale
  cases a with
  | write j body vecOk =>
    simp only [step] at hs
    split at hs
    · rename_i r ticket hop
      cases hdb : w.db.writeMemoryKnowledgeNode r body vecOk with
      | error e =>
        rw [hdb] at hs
        cases hs
        exact absurd hx same
      | ok db' =>
        rw [hdb] at hs
        cases hs
        obtain ⟨rev, y, -, -, ⟨-, -, rfl⟩ | ⟨-, store, -, rfl⟩⟩ := writeMemoryKnowledgeNode_ok hdb
        · exact absurd hx same
        · obtain ⟨z, hz, ⟨-, rfl⟩ | ⟨-, rfl⟩⟩ := Table.eq_of_get?_modify hx'
          · cases hstale
          · rw [hx, Option.some.injEq] at hz
            exact absurd (hz ▸ hx') same
    · cases hs
  | fail j error =>
    cases hk
    simp only [step] at hs
    split at hs
    · rename_i r ticket hop
      cases hs
      obtain ⟨z, hz, ⟨hcurrent, -⟩ | ⟨-, rfl⟩⟩ := Table.eq_of_get?_update hx'
      · rw [hx, Option.some.injEq] at hz
        exact ⟨r, ticket, error, rfl, hop, hz ▸ hcurrent⟩
      · rw [hx, Option.some.injEq] at hz
        exact absurd (hz ▸ hx') same
    · cases hs
  | crash j =>
    cases hs
    exact absurd hx same
  | _ => cases hk

/-- **Memory lease.** In every run a done row stays done until its revision is pruned, if
failure reports land on open rows only; and a step of a worker whose claim was taken over
is harmless exactly when it is not a failure report on a done row. -/
theorem reclaimed_harmless_iff (h : Reaches step World.init w) :
    (∀ r w', Run step (fun v a => FailsOpen v a ∧ ¬ Deletes r v a) w w' →
      w.Done r → w'.Done r) ∧
    ∀ k a w', a.worker = some k → w.Reclaimed k → step w a = some w' →
      (Harmless w w' ↔ FailsOpen w a) := by
  have hkeyed : w.Keyed := keyed_of_reaches h
  refine ⟨fun r w' hrun hdone => ?_, fun k a w' hk hreclaimed hs => ⟨fun hgood => ?_, fun hok => ?_⟩⟩
  · exact hrun.invariant_of (J := World.Keyed) (I := fun v => v.Done r)
      (fun s a t hs _ hstep => hs.effect (step_effect hstep))
      (fun s a t hs hd hok hstep => done_step hs hok.1 hok.2 hstep hd) hkeyed hdone
  · cases a with
    | fail j error =>
      simp only [step] at hs
      split at hs
      · rename_i r ticket hop
        cases hs
        simp only [FailsOpen, hop]
        intro hdone
        obtain ⟨hpending, hfailed⟩ := hgood.rows r hdone
        obtain ⟨q, hq, -⟩ := Option.map_eq_some_iff.mp hdone
        simp only [World.commit, markMemoryEnrichmentFailed, Queue.status?,
          Table.get?_modify_self, hq, Option.map_some, QueueRow.chargeRetry_status] at hpending hfailed
        split at hpending <;> split at hfailed <;> contradiction
      · cases hs
    | _ => trivial
  · refine ⟨fun r hdone => ?_, fun d x r x' hx hset hrow hx' hstale => ?_⟩
    · have hnot : ¬ Deletes r w a := by
        cases a <;> first | exact id | cases hk
      have hdone' : w'.Done r := done_step hkeyed hok hnot hs hdone
      rw [World.Done] at hdone'
      rw [hdone']
      simp
    · obtain ⟨r', ticket, error, rfl, hop, hcurrent⟩ := stale_of_worker hs hk hx hset.1 hx' hstale
      rw [hset.2.1, Option.some.injEq] at hcurrent
      subst hcurrent
      obtain ⟨q, hq⟩ := Option.isSome_iff_exists.mp hrow
      have hdone : q.status = .done := settledDone_of_reaches h d x r q hx hset hq
      simp only [FailsOpen, hop] at hok
      refine hok ?_
      rw [World.Done, Queue.status?, hq, Option.map_some, hdone]

end Lease

section Race

/-- Worker A claims a revision and waits on the model; its lock goes stale, worker B claims
the revision too and publishes it. -/
def takenOver : List (Action Unit) :=
  let file : MemoryFile := ⟨"git@host/repo", "notes.md", "h1", ["# Notes"], 1000⟩
  [.selectDocument file, .ingest 0, .claim 2000 "A" 10 (some 60000),
   .claim 100000 "B" 10 (some 60000), .write 1 () true]

/-- A's failure report then opens the done row again and turns the settled document stale. -/
theorem lateFailure_reopens : ∃ w : World Unit, Reaches step World.init w ∧ w.Reclaimed 0 ∧
    w.Done 1 ∧ (∃ x, w.db.documents.get? 1 = some x ∧ Settled x 1) ∧
    ∃ w', step w (.fail 0 "timeout") = some w' ∧ w'.db.queue.status? 1 = some .pending ∧
      ∃ x, w'.db.documents.get? 1 = some x ∧ x.projectionStatus = .stale ∧
        x.activeRevision = x.currentRevision := by
  obtain ⟨w, hrun, ⟨hop, hholder⟩, hdone, hset, hfail⟩ : ∃ w : World Unit,
      Run step (fun _ _ => True) World.init w ∧
        (w.ops[0]? = some (.enriching 1 0) ∧ w.holder 1 ≠ some 0) ∧ w.Done 1 ∧
        (∃ x ∈ w.db.documents.get? 1, Settled x 1) ∧
        ∃ w' ∈ step w (.fail 0 "timeout"), w'.db.queue.status? 1 = some .pending ∧
          ∃ x ∈ w'.db.documents.get? 1, x.projectionStatus = .stale ∧
            x.activeRevision = x.currentRevision :=
    exists_run_of_exec (l := takenOver) (by decide)
  exact ⟨w, hrun, ⟨1, 0, hop, hholder⟩, hdone, hset, hfail⟩

/-- A's result is harmless at the same place. -/
theorem lateResult_harmless : ∃ w w' : World Unit, Reaches step World.init w ∧ w.Reclaimed 0 ∧
    step w (.write 0 () true) = some w' ∧ Harmless w w' := by
  obtain ⟨w, hrun, hop, hholder, hwrite⟩ : ∃ w : World Unit,
      Run step (fun _ _ => True) World.init w ∧
        w.ops[0]? = some (.enriching 1 0) ∧ w.holder 1 ≠ some 0 ∧
        (step w (.write 0 () true)).isSome = true :=
    exists_run_of_exec (l := takenOver) (by decide)
  obtain ⟨w', hs⟩ := Option.isSome_iff_exists.mp hwrite
  have hreclaimed : w.Reclaimed 0 := ⟨1, 0, hop, hholder⟩
  exact ⟨w, w', hrun, hreclaimed, hs,
    ((reclaimed_harmless_iff hrun).2 0 _ w' rfl hreclaimed hs).mpr trivial⟩

end Race

end Hippo.Memory
