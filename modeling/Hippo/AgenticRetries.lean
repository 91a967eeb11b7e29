import Hippo.AgenticRuns

/-!
# The retry budget of one content version

While the content of a segment stays the same, its queue row should be claimed at most
`max_retries` times. A failure report and the reaper each charge a retry for the claim
they end. Three steps end or repeat a claim without a charge: a claim that retakes a
stale lock itself, a daemon re-enqueue that starts a fresh budget, and the report of a
batch with another content version. A run without these keeps the budget.
-/
namespace Hippo.Agentic
open Hippo Hippo.AgenticDb Hippo.Transition

/-- `c` claims agree with the charges on the row. -/
structure Covers (q : QueueRow) (c : ℕ) : Prop where
  claimed : c ≤ q.retryCount + 1
  pending : q.status = .pending → c ≤ q.retryCount
  budget : c ≤ q.maxRetries

namespace Covers

variable {q q' : QueueRow} {c : ℕ}

theorem zero (q : QueueRow) : Covers q 0 :=
  ⟨Nat.zero_le _, fun _ => Nat.zero_le _, Nat.zero_le _⟩

/-- Locking a pending row is covered by the retries that are left. -/
theorem lock (h : Covers q c) (hq : q.Budgeted) (hst : q.status = .pending) (now : ℤ)
    (worker : String) : Covers (q.lock now worker) (c + 1) := by
  have hc := h.pending hst
  have hleft := hq.2 (Or.inl hst)
  refine ⟨?_, fun hp => ?_, ?_⟩
  · rw [QueueRow.lock_retryCount]
    omega
  · cases hp
  · rw [QueueRow.lock_maxRetries]
    omega

/-- The first claim of a run is covered, also when it retakes a stale lock. -/
theorem lock_first (hq : q.Budgeted) (now : ℤ) (worker : String) :
    Covers (q.lock now worker) 1 := by
  refine ⟨?_, fun hp => ?_, hq.1⟩
  · rw [QueueRow.lock_retryCount]
    omega
  · cases hp

theorem chargeRetry (h : Covers q c) (error : String) : Covers (q.chargeRetry error) c :=
  ⟨h.claimed.trans (Nat.le_succ _), fun _ => h.claimed, h.budget⟩

theorem close (h : Covers q c) (hretry : q'.retryCount = q.retryCount)
    (hmax : q'.maxRetries = q.maxRetries) (hst : q'.status = .done ∨ q'.status = .skipped) :
    Covers q' c := by
  refine ⟨hretry ▸ h.claimed, fun hp => ?_, hmax ▸ h.budget⟩
  rcases hst with hst | hst <;> rw [hst] at hp <;> cases hp

end Covers

section Runs
variable {H γ : Type} [DecidableEq H] {env : Rendering H}

/-- The step brings no other content for segment `i`. -/
def SameContent (env : Rendering H) (i : ℕ) (w : World H γ) : Action γ → Prop
  | .upsert p => (p.upsert env).target w.db = i →
    (w.db.sessions.get? i).map AgenticSession.contentHash =
      some (some (p.upsert env).contentHash)
  | _ => True

/-- Once segment `i` has been claimed in a run that began with `c` claims, a claim takes
its row only when pending, the daemon does not re-enqueue it, and no batch with another
content hash is reported while the row is being processed. -/
def Charges (env : Rendering H) (i c : ℕ) (w : World H γ) (a : Action γ) : Prop :=
  w.claims i = c ∨ match a with
    | .upsert p => (p.upsert env).target w.db = i →
      (p.upsert env).enqueues ((p.upsert env).prior w.db) = true →
        w.db.queue.status? i = some .processing
    | .sweepApply k _ _ => match w.ops[k]? with
      | some (.sweeping candidates) => i ∈ candidates.map Prod.fst →
        w.db.queue.status? i = some .processing
      | _ => True
    | .lock source _ staleBefore _ cwd limit =>
      i ∈ w.db.claimCandidates source cwd staleBefore limit →
        w.db.queue.status? i = some .pending
    | .write k _ _ | .fail k _ => match w.ops[k]? with
      | some (.enriching _ seg) => seg.id = i → w.db.queue.status? i = some .processing →
        (w.db.sessions.get? i).map AgenticSession.contentHash = some seg.row.contentHash
      | _ => True
    | _ => True

instance (env : Rendering H) (i : ℕ) (w : World H γ) (a : Action γ) :
    Decidable (SameContent env i w a) := by
  induction a using Action.casesOn <;> dsimp only [SameContent] <;> infer_instance

instance (env : Rendering H) (i c : ℕ) (w : World H γ) (a : Action γ) :
    Decidable (Charges env i c w a) := by
  induction a using Action.casesOn with
  | sweepApply k | write k | fail k =>
    dsimp only [Charges]
    generalize w.ops[k]? = op
    induction op using Option.casesOn with
    | none => infer_instance
    | some op => induction op using Op.casesOn <;> dsimp only <;> infer_instance
  | _ => dsimp only [Charges]; infer_instance

/-- Every queue row that can still be claimed has retries left. -/
def AllBudgeted (w : World H γ) : Prop :=
  ∀ i, ∀ q ∈ w.db.queue.get? i, q.Budgeted

theorem allBudgeted_of_reaches {w : World H γ} (h : Reaches (step env) World.init w) :
    AllBudgeted w := by
  refine h.invariant (fun w a w' hw _ hs i => ?_) ?_
  · exact ((step_effect hs).segmentRow i).rowStep.budgeted (hw i)
  · intro i q hq
    simp [World.init, AgenticDb.empty] at hq

/-- The claims of segment `i` since the count was `c` are covered by its row. -/
structure Counting (i c : ℕ) (w : World H γ) : Prop where
  start : c ≤ w.claims i
  covers : ∀ q, w.db.queue.get? i = some q → Covers q (w.claims i - c)
  absent : w.db.queue.get? i = none → w.claims i = c

omit [DecidableEq H] in
theorem counting_start (w : World H γ) (i : ℕ) : Counting i (w.claims i) w where
  start := le_rfl
  covers := fun q _ => by
    rw [Nat.sub_self]
    exact Covers.zero q
  absent := fun _ => rfl

/-- Only a lock counts a claim, and it locks the row it counts. -/
theorem Effect.claims_cases {w w' : World H γ} {a : Action γ} (he : Effect env w a w')
    (i : ℕ) : w'.claims i = w.claims i ∨ ∃ source now staleBefore worker cwd limit q,
      a = .lock source now staleBefore worker cwd limit ∧
        i ∈ w.db.claimCandidates source cwd staleBefore limit ∧
        w.db.queue.get? i = some q ∧ q.Claimable staleBefore ∧
        w'.db.queue.get? i = some (q.lock now worker) ∧ w'.claims i = w.claims i + 1 := by
  cases he with
  | lock hids =>
    rename_i source now staleBefore worker cwd limit ids
    by_cases hi : i ∈ ids
    · have hcand : i ∈ w.db.claimCandidates source cwd staleBefore limit := hids ▸ hi
      obtain ⟨q, hq, hclaim, -⟩ := mem_claimCandidates hcand
      refine Or.inr ⟨source, now, staleBefore, worker, cwd, limit, q, rfl, hcand, hq, hclaim,
        ?_, by simp [hi]⟩
      simp [lockSegments_queue_get?, hq, hi]
    · exact Or.inl (by simp [hi])
  | _ => exact Or.inl rfl

/-- A counted claim is covered by the charge before it, or is the first of the run. -/
theorem counting_lock {i c : ℕ} {w w' : World H γ} (h : Counting i c w) (hb : AllBudgeted w)
    {source : ClaimSource} {now staleBefore : ℤ} {worker cwd : String} {limit : Option ℕ}
    {q : QueueRow} (hok : Charges env i c w (.lock source now staleBefore worker cwd limit))
    (hi : i ∈ w.db.claimCandidates source cwd staleBefore limit)
    (hq : w.db.queue.get? i = some q)
    (hq' : w'.db.queue.get? i = some (q.lock now worker))
    (hclaims : w'.claims i = w.claims i + 1) : Counting i c w' := by
  have hstart := h.start
  refine ⟨by omega, fun q' hrow => ?_, fun hnone => ?_⟩
  · cases hq'.symm.trans hrow
    rcases hok with hfirst | hpend
    · have hone : w'.claims i - c = 1 := by omega
      rw [hone]
      exact Covers.lock_first (hb i q hq) now worker
    · have hst : q.status = .pending := by simpa [Queue.status?, hq] using hpend hi
      have hsucc : w'.claims i - c = (w.claims i - c) + 1 := by omega
      rw [hsucc]
      exact (h.covers q hq).lock (hb i q hq) hst now worker
  · rw [hq'] at hnone
    cases hnone

/-- A charged step keeps the claims covered. -/
theorem counting_step {i c : ℕ} {w w' : World H γ} {a : Action γ} (h : Counting i c w)
    (hb : AllBudgeted w) (hok : Charges env i c w a) (hs : step env w a = some w') :
    Counting i c w' := by
  have he := step_effect hs
  rcases he.claims_cases i with hclaims | ⟨source, now, staleBefore, worker, cwd, limit, q,
    rfl, hi, hq, -, hq', hclaims⟩
  · have hrow := he.segmentRow i
    -- the step counts no claim, so it is enough to cover the same number by the new row
    suffices hcov : (∀ q', w'.db.queue.get? i = some q' → Covers q' (w.claims i - c)) ∧
        (w'.db.queue.get? i = none → w.claims i = c) by
      exact ⟨hclaims ▸ h.start, hclaims ▸ hcov.1, hclaims ▸ hcov.2⟩
    have first : w.claims i = c → ∀ q', Covers q' (w.claims i - c) := by
      intro hfirst q'
      rw [hfirst, Nat.sub_self]
      exact Covers.zero q'
    generalize w'.db.queue.get? i = new at hrow
    cases hrow with
    | same => exact ⟨h.covers, h.absent⟩
    | upserted htarget hgate hst hrep =>
      refine ⟨fun q' hq' => first ?_ q', by simp⟩
      exact hok.resolve_right fun hcond => hst (hcond htarget hgate)
    | swept hop hi hst hrep =>
      refine ⟨fun q' hq' => first ?_ q', by simp⟩
      refine hok.resolve_right fun hcond => hst ?_
      simp only [hop] at hcond
      exact hcond hi
    | locked hi hq hclaim =>
      refine ⟨fun q' hq' => ?_, by simp⟩
      cases hq'
      have hcov := h.covers _ hq
      exact ⟨hcov.claimed, by simp, hcov.budget⟩
    | closed hq hretry hmax hst =>
      refine ⟨fun q' hq' => ?_, by simp⟩
      cases hq'
      exact (h.covers _ hq).close hretry hmax hst
    | released ha hop hi hchanged hq hst =>
      refine ⟨fun q' hq' => first ?_ q', by simp⟩
      have hproc : w.db.queue.status? i = some .processing := by
        simp [Queue.status?, hq, hst]
      refine hok.resolve_right fun hcond => hchanged ?_
      rcases ha with ⟨content, vecOk, rfl⟩ | ⟨error, rfl⟩
      · simp only [hop] at hcond
        exact hcond hi hproc
      · simp only [hop] at hcond
        exact hcond hi hproc
    | charged hq =>
      refine ⟨fun q' hq' => ?_, by simp⟩
      cases hq'
      exact (h.covers _ hq).chargeRetry _
  · exact counting_lock h hb hok hi hq hq' hclaims

end Runs

section Reclaims

/-- A codex segment has just been stored. -/
def codexArrived : World ℕ Unit :=
  let u := codexUpsert promptCount (promptSegment ["hi"])
  { db := u.apply AgenticDb.empty
    blank := Function.update (fun _ => false) (u.target (AgenticDb.empty : AgenticDb ℕ Unit)) false }

theorem reaches_codexArrived : Reaches (step promptCount) World.init codexArrived :=
  Run.single (a := .upsert (.codex (promptSegment ["hi"]))) trivial rfl

/-- One claim whose worker dies, an hour after the one before. -/
def deadClaim (hour : ℤ) : List (Action Unit) :=
  [.lock .claudeLike (hour * 3600000) (hour * 3600000 - 600000) "brain-enrichment" "/p" none,
   .crash 0]

end Reclaims

end Hippo.Agentic
