import Hippo.Table
import Mathlib.Data.Int.Notation

/-!
# The enrichment queue row

All enrichment queues (shell, agentic, memory, …) have the same columns, one row
for each item to enrich. The functions below are the assignments of their
`UPDATE` statements. A table of such rows is keyed by the item's own id, which is
`UNIQUE` in every queue. Clock readings are in milliseconds.
-/
namespace Hippo

inductive QueueStatus where
  | pending
  | processing
  | done
  | failed
  | skipped
deriving DecidableEq, Repr

/-- A row of an enrichment queue, with the schema's column defaults. -/
structure QueueRow where
  id : ℕ
  status : QueueStatus := .pending
  retryCount : ℕ := 0
  maxRetries : ℕ := 5
  errorMessage : Option String := none
  lockedAt : Option ℤ := none
  lockedBy : Option String := none
deriving DecidableEq, Repr

namespace QueueRow

/-- `COALESCE(locked_at, 0) <= before`. -/
def lockedBefore (before : ℤ) (r : QueueRow) : Prop :=
  r.lockedAt.getD 0 ≤ before

instance (before : ℤ) (r : QueueRow) : Decidable (r.lockedBefore before) := by
  unfold lockedBefore
  infer_instance

/-- What a claim may lock: a pending row, or a processing row with a stale lock. -/
def Claimable (before : ℤ) (r : QueueRow) : Prop :=
  r.status = .pending ∨ (r.status = .processing ∧ r.lockedBefore before)

instance (before : ℤ) (r : QueueRow) : Decidable (r.Claimable before) := by
  unfold Claimable
  infer_instance

/-- The claim's `UPDATE`. The retry count is not touched, also for a stale lock. -/
def lock (now : ℤ) (worker : String) (r : QueueRow) : QueueRow :=
  { r with status := .processing, lockedAt := some now, lockedBy := some worker }

/-- One more retry, `failed` when the budget is used up. Failure reports and the
stale-lock reaper share this assignment. -/
def chargeRetry (error : String) (r : QueueRow) : QueueRow :=
  { r with
    retryCount := r.retryCount + 1
    errorMessage := some error
    lockedAt := none
    lockedBy := none
    status := if r.maxRetries ≤ r.retryCount + 1 then .failed else .pending }

/-- The writers' `status = 'done'`; the lock columns keep their values. -/
def markDone (r : QueueRow) : QueueRow := { r with status := .done }

/-- The idempotency guard's `done`, which also clears the lock. -/
def drop (r : QueueRow) : QueueRow :=
  { r with status := .done, lockedAt := none, lockedBy := none }

/-- The memory writer's `done`: lock and error message are cleared. -/
def finish (r : QueueRow) : QueueRow :=
  { r with status := .done, errorMessage := none, lockedAt := none, lockedBy := none }

def skip (reason : String) (r : QueueRow) : QueueRow :=
  { r with status := .skipped, errorMessage := some reason, lockedAt := none, lockedBy := none }

/-- `… SET status = 'pending', locked_at = NULL, locked_by = NULL WHERE status = 'processing'`. -/
def release (r : QueueRow) : QueueRow :=
  if r.status = .processing then
    { r with status := .pending, lockedAt := none, lockedBy := none }
  else r

/-- `ON CONFLICT … DO UPDATE SET status = 'pending', retry_count = 0 … WHERE status != 'processing'`. -/
def repend (r : QueueRow) : QueueRow :=
  if r.status = .processing then r
  else { r with status := .pending, retryCount := 0, errorMessage := none }

@[simp] theorem lock_status (now : ℤ) (w : String) (r : QueueRow) :
    (r.lock now w).status = .processing := rfl

@[simp] theorem lock_retryCount (now : ℤ) (w : String) (r : QueueRow) :
    (r.lock now w).retryCount = r.retryCount := rfl

@[simp] theorem lock_maxRetries (now : ℤ) (w : String) (r : QueueRow) :
    (r.lock now w).maxRetries = r.maxRetries := rfl

@[simp] theorem chargeRetry_retryCount (e : String) (r : QueueRow) :
    (r.chargeRetry e).retryCount = r.retryCount + 1 := rfl

@[simp] theorem chargeRetry_maxRetries (e : String) (r : QueueRow) :
    (r.chargeRetry e).maxRetries = r.maxRetries := rfl

theorem chargeRetry_status (e : String) (r : QueueRow) :
    (r.chargeRetry e).status =
      if r.maxRetries ≤ r.retryCount + 1 then .failed else .pending := rfl

@[simp] theorem markDone_status (r : QueueRow) : r.markDone.status = .done := rfl

@[simp] theorem markDone_retryCount (r : QueueRow) :
    r.markDone.retryCount = r.retryCount := rfl

@[simp] theorem finish_status (r : QueueRow) : r.finish.status = .done := rfl

@[simp] theorem drop_status (r : QueueRow) : r.drop.status = .done := rfl

@[simp] theorem skip_status (e : String) (r : QueueRow) : (r.skip e).status = .skipped := rfl

theorem release_status (r : QueueRow) :
    r.release.status = if r.status = .processing then .pending else r.status := by
  unfold release
  split <;> rfl

theorem repend_status (r : QueueRow) :
    r.repend.status = if r.status = .processing then .processing else .pending := by
  unfold repend
  split
  · assumption
  · rfl

end QueueRow

/-- Rows of one queue, keyed by the id of the item they enrich. -/
abbrev Queue := Table ℕ QueueRow

namespace Queue

def status? (q : Queue) (i : ℕ) : Option QueueStatus := (q.get? i).map QueueRow.status

/-- The rowid of the next queue row. -/
def nextId (q : Queue) : ℕ := (q.entries.map fun e => e.2.id).foldr max 0 + 1

/-- `INSERT INTO queue … ON CONFLICT (item) DO UPDATE … WHERE status != 'processing'`. -/
def enqueue (q : Queue) (i : ℕ) : Queue :=
  q.upsert i { id := q.nextId } QueueRow.repend

/-- The reaper's message for a lock of at least `timeout` milliseconds. -/
def reapReason (timeout : ℤ) : String :=
  "stale lock reaped (>=" ++ toString (timeout / 1000) ++ "s)"

/-- `reap_stale_locks` on one queue. -/
def reapStaleLocks (q : Queue) (timeout now : ℤ) : Queue :=
  q.update (fun _ r => r.status = .processing ∧ r.lockedBefore (now - timeout))
    (QueueRow.chargeRetry (reapReason timeout))

theorem get?_enqueue (q : Queue) (i j : ℕ) :
    (q.enqueue i).get? j =
      if j = i then some (((q.get? i).map QueueRow.repend).getD { id := q.nextId })
      else q.get? j :=
  Table.get?_upsert q i j _ _

/-- The row the daemon's queue upsert leaves where no worker holds the item: pending,
with a fresh retry budget. -/
def Repended (old : Option QueueRow) (new : QueueRow) : Prop :=
  new.status = .pending ∧ new.retryCount = 0 ∧
    new.maxRetries = (old.map QueueRow.maxRetries).getD 5

theorem enqueue_cases (q : Queue) (i j : ℕ) :
    (q.enqueue i).get? j = q.get? j ∨
      (j = i ∧ q.status? j ≠ some .processing ∧
        ∃ r, (q.enqueue i).get? j = some r ∧ Repended (q.get? j) r) := by
  rw [get?_enqueue]
  by_cases hj : j = i
  · subst hj
    rw [if_pos rfl]
    cases hq : q.get? j with
    | none => exact Or.inr ⟨rfl, by simp [status?, hq], _, rfl, rfl, rfl, rfl⟩
    | some r =>
      by_cases hr : r.status = .processing
      · exact Or.inl (by simp [QueueRow.repend, hr])
      · refine Or.inr ⟨rfl, by simpa [status?, hq] using hr, _, rfl, ?_⟩
        simp [Repended, QueueRow.repend, hr]
  · exact Or.inl (if_neg hj)

theorem status?_of_repended {q q' : Queue} {j : ℕ}
    (h : ∃ r, q'.get? j = some r ∧ Repended (q.get? j) r) : q'.status? j = some .pending := by
  obtain ⟨r, hr, hst, -⟩ := h
  rw [status?, hr, Option.map_some, hst]

end Queue

/-- What one statement of the daemon or the brain can do to the queue row of an item. -/
inductive RowStep (old : Option QueueRow) : Option QueueRow → Prop
  | same : RowStep old old
  | repended {new : QueueRow} (hst : old.map QueueRow.status ≠ some .processing)
      (h : Queue.Repended old new) : RowStep old (some new)
  | locked {q : QueueRow} {before now : ℤ} {worker : String} (hq : old = some q)
      (hclaim : q.Claimable before) : RowStep old (some (q.lock now worker))
  | closed {q new : QueueRow} (hq : old = some q) (hretry : new.retryCount = q.retryCount)
      (hmax : new.maxRetries = q.maxRetries) (hst : new.status = .done ∨ new.status = .skipped) :
      RowStep old (some new)
  | released {q : QueueRow} (hq : old = some q) (hst : q.status = .processing) :
      RowStep old (some q.release)
  | charged {q : QueueRow} {error : String} (hq : old = some q) :
      RowStep old (some (q.chargeRetry error))

namespace QueueRow

/-- A row that may still be claimed has retries left. -/
def Budgeted (q : QueueRow) : Prop :=
  0 < q.maxRetries ∧
    (q.status = .pending ∨ q.status = .processing → q.retryCount < q.maxRetries)

theorem release_of_processing {q : QueueRow} (h : q.status = .processing) :
    q.release = { q with status := .pending, lockedAt := none, lockedBy := none } := if_pos h

theorem release_of_not_processing {q : QueueRow} (h : q.status ≠ .processing) :
    q.release = q := if_neg h

end QueueRow

theorem RowStep.budgeted {old new : Option QueueRow} (h : RowStep old new)
    (hold : ∀ q ∈ old, q.Budgeted) : ∀ q ∈ new, q.Budgeted := by
  intro q' hq'
  cases h with
  | same => exact hold q' hq'
  | repended hst hrep =>
    cases hq'
    obtain ⟨-, hretry, hmax⟩ := hrep
    have hpos : 0 < q'.maxRetries := by
      rw [hmax]
      cases ho : old with
      | none => decide
      | some q => exact (hold q ho).1
    exact ⟨hpos, fun _ => hretry ▸ hpos⟩
  | locked hq hclaim =>
    cases hq'
    rename_i q _ _ _
    have hb := hold q hq
    exact ⟨hb.1, fun _ => hb.2 (hclaim.imp_right And.left)⟩
  | closed hq hretry hmax hst =>
    cases hq'
    have hb := hold _ hq
    refine ⟨hmax ▸ hb.1, fun h => ?_⟩
    rcases hst with hst | hst <;> rw [hst] at h <;> simp at h
  | released hq hst =>
    cases hq'
    have hb := hold _ hq
    rw [QueueRow.release_of_processing hst]
    exact ⟨hb.1, fun _ => hb.2 (Or.inr hst)⟩
  | charged hq =>
    cases hq'
    rename_i q error
    have hb := hold q hq
    refine ⟨hb.1, fun h => ?_⟩
    rw [QueueRow.chargeRetry_status] at h
    rw [QueueRow.chargeRetry_retryCount, QueueRow.chargeRetry_maxRetries]
    by_cases hlast : q.maxRetries ≤ q.retryCount + 1
    · simp [hlast] at h
    · omega

end Hippo
