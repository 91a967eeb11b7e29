import Hippo.AgenticRuns

/-!
# Changed agentic content and its way back to the queue

A segment is changed when its content hash is not the one its watermark names. The
question is whether its queue row can still come back to `pending` without another
change of the transcript. It can in every run in which three writes do not land on
content they never looked at: the already-enriched drop, the ineligible skip and the
reaper's last retry.
-/
namespace Hippo.Agentic
open Hippo Hippo.AgenticDb Hippo.Transition

section Definitions
variable {H γ : Type}

/-- The content differs from the one the watermark names. -/
def Drifted (r : AgenticSession H) : Prop :=
  r.contentHash ≠ none ∧ r.contentHash ≠ r.lastEnrichedContentHash

instance [DecidableEq H] (r : AgenticSession H) : Decidable (Drifted r) := by
  unfold Drifted
  infer_instance

namespace World

/-- `i` is a non-probe, non-empty segment of a Claude-like source with changed content. -/
def Changed (w : World H γ) (i : ℕ) : Prop :=
  ∃ r ∈ w.db.sessions.get? i, r.harness ∈ ClaimSource.claudeLike.harnesses ∧
    r.probeTag = none ∧ w.blank i = false ∧ Drifted r

/-- A changed segment of a source that no sweep looks after. -/
def AtRisk (w : World H γ) (i : ℕ) : Prop :=
  w.Changed i ∧ ∃ r ∈ w.db.sessions.get? i, r.harness ≠ .claudeCode

/-- A claim in flight has read the content that segment `i` has now. -/
def LookedAt (w : World H γ) (i : ℕ) : Prop :=
  ∃ op ∈ w.ops, ∃ seg ∈ op.segs, seg.id = i ∧
    (w.db.sessions.get? i).map AgenticSession.contentHash = some seg.row.contentHash

end World

/-- Anything but a new version of a transcript. -/
def Quiet (_ : World H γ) (a : Action γ) : Prop :=
  ∀ p, a ≠ .upsert p

variable [DecidableEq H]

/-- Quiet steps can bring the queue row back to `pending`. -/
def BackToPending (env : Rendering H) (w : World H γ) (i : ℕ) : Prop :=
  ∃ w', Run (step env) Quiet w w' ∧ w'.db.queue.status? i = some .pending

/-- Changed content still has a way to be enriched: its row can come back to
`pending`, or the row is being processed and a claim can read the content. -/
def NotStranded (env : Rendering H) (w : World H γ) (i : ℕ) : Prop :=
  BackToPending env w i ∨ (w.db.queue.status? i = some .processing ∧
    ∃ w', Run (step env) Quiet w w' ∧ w'.LookedAt i)

instance (w : World H γ) (i : ℕ) : Decidable (w.Changed i) := by
  unfold World.Changed
  infer_instance

instance (w : World H γ) (i : ℕ) : Decidable (w.AtRisk i) := by
  unfold World.AtRisk
  infer_instance

/-- The drop, the skip and the reaper meet only content that they may close: a dropped
row and a row whose last retry is reaped are unchanged or of the swept source, and a
skipped row still has the content its claim read. -/
def ClosesWhatItSaw (w : World H γ) : Action γ → Prop
  | .drop k => match w.ops[k]? with
    | some (.dropping _ (seg :: _)) => w.db.AlreadyEnriched seg → ¬ w.AtRisk seg.id
    | _ => True
  | .skip k => match w.ops[k]? with
    | some (.skipping source _ (seg :: _)) => match isEnrichmentEligible source seg.row with
      | .ok (false, _) => w.Changed seg.id →
        (w.db.sessions.get? seg.id).map AgenticSession.contentHash = some seg.row.contentHash
      | _ => True
    | _ => True
  | .reap timeout now => ∀ e ∈ w.db.queue.entries,
    e.2.status = .processing ∧ e.2.lockedBefore (now - timeout) ∧
      e.2.maxRetries ≤ e.2.retryCount + 1 → ¬ w.AtRisk e.1
  | _ => True

instance (w : World H γ) (a : Action γ) : Decidable (ClosesWhatItSaw w a) := by
  cases a <;> dsimp only [ClosesWhatItSaw] <;> repeat' split
  all_goals infer_instance

end Definitions

section Invariants
variable {H γ : Type} [DecidableEq H] {env : Rendering H} {w w' : World H γ} {a : Action γ}

/-- The segments of a claim in flight exist and are of the claim's harnesses. -/
def ClaimsOwnHarness (w : World H γ) : Prop :=
  ∀ op ∈ w.ops, ∀ source, op.source = some source → ∀ i ∈ op.ids,
    ∃ r, w.db.sessions.get? i = some r ∧ r.harness ∈ source.harnesses

theorem claimsOwnHarness_step (hw : ClaimsOwnHarness w) (he : Effect env w a w') :
    ClaimsOwnHarness w' := by
  intro op' hop' source hsource i hi
  have before : ∃ r, w.db.sessions.get? i = some r ∧ r.harness ∈ source.harnesses := by
    rcases he.op_cases hop' with ⟨op, hop, hs, hids, -⟩ | ⟨src, cwd, before, limit, rfl⟩ | rfl
    · exact hw op hop source (hs ▸ hsource) i (hids i hi)
    · cases hsource
      obtain ⟨q, -, -, r, hr, -, hh, -⟩ := mem_claimCandidates hi
      exact ⟨r, hr, hh⟩
    · cases hsource
  obtain ⟨r, hr, hh⟩ := before
  obtain ⟨r', hr', hh', -⟩ := he.session_kept hr
  exact ⟨r', hr', hh' ▸ hh⟩

/-- The sweep's content filter holds for every claude-code row. -/
def ClaudeSummaries (w : World H γ) : Prop :=
  ∀ i r, w.db.sessions.get? i = some r → r.harness = .claudeCode → 0 < r.summaryText.length

theorem claudeSummaries_step (hw : ClaudeSummaries w) (he : Effect env w a w') :
    ClaudeSummaries w' := by
  intro i r' hr' hh
  by_cases hquiet : ∀ p, a ≠ .upsert p
  · obtain ⟨r, hr, hrr, -⟩ := he.session_back hquiet hr'
    rw [hrr] at hh ⊢
    exact hw i r hr hh
  · obtain ⟨p, rfl⟩ := not_forall_not.mp hquiet
    cases he
    simp only [Upsert.apply_sessions_get?] at hr'
    split at hr'
    · rename_i hi
      subst hi
      cases hr : w.db.sessions.get? ((p.upsert env).target w.db) with
      | none =>
        rw [hr] at hr'
        cases hr'
        exact (p.upsert env).summaryText_pos hh
      | some r =>
        rw [hr] at hr'
        cases hr'
        rw [Option.map_some, Option.getD_some, Upsert.refresh_harness,
          Upsert.target_harness hr] at hh
        rw [Option.map_some, Option.getD_some, Upsert.refresh_summaryText]
        exact (p.upsert env).summaryText_pos hh
    · exact hw i r' hr' hh

/-- A step other than an upsert changes no segment. -/
theorem changed_back (he : Effect env w a w') (hquiet : Quiet w a) {i : ℕ}
    (h : w'.Changed i) : w.Changed i := by
  obtain ⟨r', hr', hh, hp, hb, hne, hd⟩ := h
  obtain ⟨r, hr, hrr, hwm⟩ := he.session_back hquiet hr'
  have hblank : w'.blank = w.blank := by
    cases he with
    | upsert p => exact absurd rfl (hquiet p)
    | _ => rfl
  have hch : r'.contentHash = r.contentHash := by rw [hrr]
  have hkeep : r'.lastEnrichedContentHash = r.lastEnrichedContentHash :=
    hwm.resolve_right fun hmove => hd (hch.trans hmove.symm)
  refine ⟨r, hr, ?_, ?_, hblank ▸ hb, hch ▸ hne, hch ▸ hkeep ▸ hd⟩
  · rw [hrr] at hh
    exact hh
  · rw [hrr] at hp
    exact hp

/-- The row is in the queue's care: pending, with a worker, or of the swept source and
not skipped. -/
def Held (w : World H γ) (i : ℕ) : Prop :=
  w.db.queue.status? i = some .pending ∨ w.db.queue.status? i = some .processing ∨
    (w.db.queue.status? i ≠ some .skipped ∧ ¬ w.AtRisk i)

omit [DecidableEq H] in
theorem Held.mono {i : ℕ} (h : Held w i)
    (hst : w'.db.queue.status? i = w.db.queue.status? i) (hrisk : w'.AtRisk i → w.AtRisk i) :
    Held w' i := by
  rw [Held, hst]
  exact h.imp_right fun h => h.imp_right fun h => ⟨h.1, mt hrisk h.2⟩

theorem atRisk_back (he : Effect env w a w') (hquiet : Quiet w a) {i : ℕ}
    (h : w'.AtRisk i) : w.AtRisk i := by
  obtain ⟨hc, r', hr', hh⟩ := h
  have hback := changed_back he hquiet hc
  obtain ⟨r, hr, -⟩ := id hback
  obtain ⟨r₁, hr₁, hh₁, -⟩ := he.session_kept hr
  rw [Option.mem_def, hr₁] at hr'
  cases hr'
  exact ⟨hback, r, hr, hh₁ ▸ hh⟩

omit [DecidableEq H] in
/-- A segment whose watermark names its content is not changed. -/
theorem not_changed_of_watermark {i : ℕ} {r : AgenticSession H}
    (hr : w.db.sessions.get? i = some r)
    (hwm : r.contentHash = none ∨ r.lastEnrichedContentHash = r.contentHash) :
    ¬ w.Changed i := by
  rintro ⟨r', hr', -, -, -, hne, hd⟩
  rw [Option.mem_def, hr] at hr'
  cases hr'
  rcases hwm with h | h
  · exact hne h
  · exact hd h.symm

omit [DecidableEq H] in
theorem Held.released {i : ℕ} (h : Held w i) {b : ℕ × Option H}
    (hdb : w'.db = w.db.releaseBatch [b]) (hrisk : w'.AtRisk i → w.AtRisk i) : Held w' i := by
  by_cases hi : i = b.1 ∧ w.db.queue.status? i = some .processing
  · obtain ⟨q, hq, hst⟩ := Option.map_eq_some_iff.mp hi.2
    refine Or.inl ?_
    simp [hdb, Queue.status?, releaseBatch_queue_get?, hi.1.symm, hq, QueueRow.release_status, hst]
  · refine h.mono ?_ hrisk
    rw [hdb, Queue.status?, releaseBatch_queue_get?]
    by_cases hb : i = b.1
    · have hst : w.db.queue.status? i ≠ some .processing := fun hp => hi ⟨hb, hp⟩
      rw [if_pos hb, Queue.status?]
      cases hq : w.db.queue.get? i with
      | none => rfl
      | some q =>
        have hq' : q.status ≠ .processing := fun hp => hst (by simp [Queue.status?, hq, hp])
        simp [QueueRow.release_status, hq']
    · rw [if_neg hb, Queue.status?]

/-- An upsert queues the content it brings, or finds it queued already. -/
theorem held_upsert (hw : ∀ i, w.Changed i → Held w i) {p : Parsed}
    (he : Effect env w (.upsert p) w') (i : ℕ) (hc : w'.Changed i) : Held w' i := by
  cases he
  obtain ⟨r', hr', hh, hprobe, hb, hne, hd⟩ := hc
  by_cases hi : i = (p.upsert env).target w.db
  · subst hi
    have hblank : (p.upsert env).blank = false :=
      Parsed.blank_of_not_isEmpty (by simpa using hb)
    by_cases hgate : (p.upsert env).enqueues ((p.upsert env).prior w.db) = true
    · have hst := (p.upsert env).apply_status?_target w.db hgate
      by_cases hproc : w.db.queue.status? ((p.upsert env).target w.db) = some .processing
      · rw [if_pos hproc] at hst
        exact Or.inr (Or.inl hst)
      · rw [if_neg hproc] at hst
        exact Or.inl hst
    · obtain ⟨r, hr, hst⟩ := Upsert.of_not_enqueues hblank (Bool.not_eq_true _ ▸ hgate)
      have hsame : ((p.upsert env).apply w.db).queue.get? ((p.upsert env).target w.db) =
          w.db.queue.get? ((p.upsert env).target w.db) :=
        ((p.upsert env).apply_queue_cases w.db _).resolve_right fun h => hgate h.2.1
      simp only [Held, Queue.status?, hsame]
      rcases hst with hst | hst | hwm
      · exact Or.inl hst
      · exact Or.inr (Or.inl hst)
      · rw [Option.mem_def, Upsert.apply_sessions_get?, if_pos rfl, hr, Option.map_some,
          Option.getD_some, Option.some.injEq] at hr'
        rw [← hr', Upsert.refresh_contentHash, Upsert.refresh_watermark] at hd
        exact absurd hwm.symm hd
  · have hrow : ((p.upsert env).apply w.db).sessions.get? i = w.db.sessions.get? i := by
      rw [Upsert.apply_sessions_get?, if_neg hi]
    have hqueue : ((p.upsert env).apply w.db).queue.get? i = w.db.queue.get? i :=
      ((p.upsert env).apply_queue_cases w.db i).resolve_right fun h => hi h.1
    have hblank : Function.update w.blank ((p.upsert env).target w.db) p.isEmpty i = w.blank i :=
      Function.update_of_ne hi _ _
    refine (hw i ⟨r', hrow ▸ hr', hh, hprobe, hblank ▸ hb, hne, hd⟩).mono ?_ ?_
    · simp only [Queue.status?, hqueue]
    · simp only [World.AtRisk, World.Changed, hrow, hblank, imp_self]

/-- The other steps keep a changed row in care when they close only what they saw. -/
theorem held_quiet (hw : ∀ i, w.Changed i → Held w i) (hown : ClaimsOwnHarness w)
    (hok : ClosesWhatItSaw w a) (he : Effect env w a w') (hquiet : Quiet w a) (i : ℕ)
    (hc : w'.Changed i) : Held w' i := by
  have hback := changed_back he hquiet hc
  have hheld := hw i hback
  have hrisk := atRisk_back he hquiet (i := i)
  cases he with
  | upsert p => exact absurd rfl (hquiet p)
  | sweepApply hop =>
    rename_i k mtime now candidates
    rcases settle_queue_cases sweepMaxPerTick mtime (now - settleMs) candidates 0 w.db i
      with hsame | ⟨-, -, hrep⟩
    · exact hheld.mono (by simp only [Queue.status?, hsame]) hrisk
    · exact Or.inl (Queue.status?_of_repended hrep)
  | lock hids =>
    rename_i source now staleBefore worker cwd limit ids
    by_cases hi : i ∈ ids
    · obtain ⟨q, hq, -⟩ := mem_claimCandidates (hids ▸ hi)
      refine Or.inr (Or.inl ?_)
      simp [Queue.status?, lockSegments_queue_get?, hq, hi]
    · refine hheld.mono ?_ hrisk
      simp [Queue.status?, lockSegments_queue_get?, hi]
  | dropped hop hdrop =>
    rename_i k kept seg todo
    by_cases hi : i = seg.id
    · subst hi
      have hsafe : ¬ w.AtRisk seg.id := by
        simp only [ClosesWhatItSaw, hop] at hok
        exact hok hdrop
      refine Or.inr (Or.inr ⟨?_, mt hrisk hsafe⟩)
      simp only [Queue.status?, dropSegment_queue_get?, if_true]
      cases w.db.queue.get? seg.id <;> simp
    · refine hheld.mono ?_ hrisk
      simp only [Queue.status?, dropSegment_queue_get?, hi, if_false]
  | skipped hop hskip =>
    rename_i k source eligible seg todo reason
    by_cases hi : i = seg.id
    · subst hi
      simp only [ClosesWhatItSaw, hop, hskip] at hok
      obtain ⟨r, hr, hsame⟩ := Option.map_eq_some_iff.mp (hok hback)
      refine absurd hc (not_changed_of_watermark (r := _)
        (by rw [skipSegment_sessions_get?, if_pos rfl, hr, Option.map_some]) ?_)
      by_cases hnone : seg.row.contentHash = none
      · exact Or.inl (hsame.trans hnone)
      · exact Or.inr (by simp [hsame, hnone])
    · refine hheld.mono ?_ hrisk
      simp only [Queue.status?, skipSegment_queue_get?, hi, if_false]
  | writeReleases hop hwrite => exact hheld.released (writeNode_released hwrite).2 hrisk
  | written hop hwrite =>
    rename_i k content vecOk source seg db node
    have hwr := writeNode_written hwrite
    by_cases hi : i = seg.id
    · subst hi
      obtain ⟨r, hr, hsame⟩ := Option.map_eq_some_iff.mp hwr.unchanged
      refine absurd hc (not_changed_of_watermark (r := _)
        (by rw [hwr.sessions, if_pos rfl, hr, Option.map_some]) ?_)
      dsimp only at hsame ⊢
      cases hhash : seg.row.contentHash with
      | none => exact Or.inl (hsame.trans hhash)
      | some h => exact Or.inr (hsame.trans hhash).symm
    · refine hheld.mono ?_ hrisk
      simp only [Queue.status?, hwr.queue, hi, if_false]
  | failed hop =>
    rename_i k error source seg
    rcases markFailed_singleton source w.db seg error with ⟨-, heq⟩ | ⟨hsame, hch⟩
    · exact hheld.released heq hrisk
    · by_cases hi : i = seg.id
      · subst hi
        obtain ⟨r, hr, hrh⟩ := Option.map_eq_some_iff.mp hsame
        cases hq : w.db.queue.get? seg.id with
        | none =>
          refine hheld.mono ?_ hrisk
          simp only [Queue.status?, hch.queue, if_true, hq, Option.map_none]
        | some q =>
          by_cases hfail : q.maxRetries ≤ q.retryCount + 1
          · have hfailed : (markFailed source w.db seg error).queue.status? seg.id =
                some .failed := by
              simp [Queue.status?, hch.queue, hq, QueueRow.chargeRetry_status, hfail]
            refine absurd hc ?_
            cases source with
            | claudeLike =>
              by_cases hnone : seg.row.contentHash = none
              · have hcond : ¬ (seg.id = seg.id ∧ ClaimSource.claudeLike = .claudeLike ∧
                    seg.row.contentHash ≠ none ∧ (markFailed .claudeLike w.db seg
                      error).queue.status? seg.id = some .failed) := fun h => h.2.2.1 hnone
                exact not_changed_of_watermark (by rw [hch.sessions, if_neg hcond]; exact hr)
                  (Or.inl (hrh.trans hnone))
              · exact not_changed_of_watermark
                  (by rw [hch.sessions, if_pos ⟨rfl, rfl, hnone, hfailed⟩, hr, Option.map_some])
                  (Or.inr hrh.symm)
            | opencode =>
              obtain ⟨r₁, hr₁, hh₁⟩ := hown _ (List.mem_of_getElem? hop) .opencode rfl seg.id
                (List.mem_singleton.mpr rfl)
              obtain ⟨r₂, hr₂, hh₂, -⟩ := hback
              rw [Option.mem_def, hr₁, Option.some.injEq] at hr₂
              subst hr₂
              simp only [ClaimSource.harnesses, List.mem_singleton] at hh₁
              simp [ClaimSource.harnesses, hh₁] at hh₂
          · refine Or.inl ?_
            simp [Queue.status?, hch.queue, hq, QueueRow.chargeRetry_status, hfail]
      · refine hheld.mono ?_ hrisk
        simp only [Queue.status?, hch.queue, hi, if_false]
  | reap timeout now =>
    cases hq : w.db.queue.get? i with
    | none =>
      refine hheld.mono ?_ hrisk
      simp only [Queue.status?, reapStaleLocks_queue_get?, hq, Option.map_none]
    | some q =>
      by_cases hstale : q.status = .processing ∧ q.lockedBefore (now - timeout)
      · by_cases hlast : q.maxRetries ≤ q.retryCount + 1
        · have hsafe : ¬ w.AtRisk i :=
            hok (i, q) (Table.get?_eq_some.mp hq) ⟨hstale.1, hstale.2, hlast⟩
          refine Or.inr (Or.inr ⟨?_, mt hrisk hsafe⟩)
          simp [Queue.status?, reapStaleLocks_queue_get?, hq, hstale,
            QueueRow.chargeRetry_status, hlast]
        · refine Or.inl ?_
          simp [Queue.status?, reapStaleLocks_queue_get?, hq, hstale,
            QueueRow.chargeRetry_status, hlast]
      · refine hheld.mono ?_ hrisk
        simp only [Queue.status?, reapStaleLocks_queue_get?, hq, Option.map_some, hstale,
          if_false]
  | _ => exact hheld.mono rfl hrisk

/-- What holds in every state of a run that closes only what it saw. -/
structure Watched (w : World H γ) : Prop where
  held : ∀ i, w.Changed i → Held w i
  own : ClaimsOwnHarness w
  summaries : ClaudeSummaries w

omit [DecidableEq H] in
theorem watched_init : Watched (World.init : World H γ) where
  held := by
    rintro i ⟨r, hr, -⟩
    simp [World.init, AgenticDb.empty] at hr
  own := by
    intro op hop
    simp [World.init] at hop
  summaries := by
    intro i r hr
    simp [World.init, AgenticDb.empty] at hr

theorem watched_step (hw : Watched w) (hok : ClosesWhatItSaw w a)
    (h : step env w a = some w') : Watched w' := by
  have he := step_effect h
  refine ⟨fun i hc => ?_, claimsOwnHarness_step hw.own he, claudeSummaries_step hw.summaries he⟩
  by_cases hquiet : Quiet w a
  · exact held_quiet hw.held hw.own hok he hquiet i hc
  · obtain ⟨p, rfl⟩ := not_forall_not.mp hquiet
    exact held_upsert hw.held he i hc

theorem watched_of_run (h : Run (step env) ClosesWhatItSaw World.init w) : Watched w :=
  h.invariant (fun _ _ _ hw hok hs => watched_step hw hok hs) watched_init

end Invariants

section Recovery
variable {H γ : Type} [DecidableEq H] {env : Rendering H}

/-- One tick of the settling sweep with every transcript settled. -/
def swept (w : World H γ) : World H γ :=
  { w with
    db := settle sweepMaxPerTick (fun _ => some 0) 0
      (w.db.settlingCandidates sweepMaxPerTick) 0 w.db }

@[simp] theorem swept_sessions (w : World H γ) : (swept w).db.sessions = w.db.sessions :=
  settle_sessions _ _ _ _ _ _

theorem run_swept (w : World H γ) : Run (step env) Quiet w (swept w) := by
  have hselect : step env w .sweepSelect = some { w with
      ops := w.ops ++ [.sweeping (w.db.settlingCandidates sweepMaxPerTick)] } := rfl
  refine Run.head (by intro p; simp) hselect (Run.single
    (a := .sweepApply w.ops.length (fun _ => some 0) settleMs) (by intro p; simp) ?_)
  simp [step, swept, World.replaceOp]

/-- The candidates left after a tick were candidates before it. -/
theorem settlingCandidate_back {w : World H γ} {i : ℕ} {s : AgenticSession H}
    (h : (swept w).db.SettlingCandidate i s) : w.db.SettlingCandidate i s := by
  obtain ⟨hh, hp, hne, hd, htext, hst⟩ := h
  refine ⟨hh, hp, hne, hd, htext, ?_⟩
  rcases settle_queue_cases sweepMaxPerTick (fun _ => some 0) 0
    (w.db.settlingCandidates sweepMaxPerTick) 0 w.db i with hsame | ⟨-, -, hrep⟩
  · simpa only [swept, Queue.status?, hsame] using hst
  · have hpend := Queue.status?_of_repended hrep
    simp only [swept] at hst
    rw [hpend] at hst
    simp at hst

/-- How many rows the sweep's `SELECT` would return without its `LIMIT`. -/
def unsettled (w : World H γ) : ℕ := (w.db.sessions.select w.db.SettlingCandidate).length

/-- As long as there is a candidate, a tick settles one. -/
theorem unsettled_swept_lt {w : World H γ} {i : ℕ} {s : AgenticSession H}
    (hs : w.db.sessions.get? i = some s) (hc : w.db.SettlingCandidate i s) :
    unsettled (swept w) < unsettled w := by
  have hmem : (i, s) ∈ w.db.sessions.select w.db.SettlingCandidate :=
    Table.mem_select.mpr ⟨hs, hc⟩
  -- The candidate list is not empty, so its head is settled.
  obtain ⟨⟨i₀, file⟩, rest, hcands⟩ : ∃ head rest,
      w.db.settlingCandidates sweepMaxPerTick = head :: rest := by
    cases hl : w.db.settlingCandidates sweepMaxPerTick with
    | cons head rest => exact ⟨head, rest, rfl⟩
    | nil =>
      have hempty : orderBy (fun e : ℕ × AgenticSession H => e.2.endTime)
          (w.db.sessions.select w.db.SettlingCandidate) = [] := by
        simpa [settlingCandidates, limitTo, sweepMaxPerTick] using hl
      have hin : (i, s) ∈ orderBy (fun e : ℕ × AgenticSession H => e.2.endTime)
          (w.db.sessions.select w.db.SettlingCandidate) := mem_orderBy.mpr hmem
      rw [hempty] at hin
      cases hin
  obtain ⟨s₀, hs₀, hc₀⟩ := mem_settlingCandidates (hcands ▸ List.mem_cons_self :
    (i₀, file) ∈ w.db.settlingCandidates sweepMaxPerTick)
  have hhead : (swept w).db.queue.status? i₀ = some .pending := by
    simp only [swept, hcands]
    refine settle_head_pending (by decide) (fun _ => ⟨0, rfl, le_rfl⟩)
      (Table.mem_keys.mpr ⟨s₀, hs₀⟩) ?_
    rcases hc₀.2.2.2.2.2 with h | h | h <;> simp [h]
  have hnot : ¬ (swept w).db.SettlingCandidate i₀ s₀ := by
    intro h
    have hst := h.2.2.2.2.2
    simp [hhead] at hst
  have hfilter : (swept w).db.sessions.select (swept w).db.SettlingCandidate =
      (w.db.sessions.select w.db.SettlingCandidate).filter fun e =>
        (swept w).db.SettlingCandidate e.1 e.2 := by
    simp only [Table.select, swept_sessions, List.filter_filter]
    refine List.filter_congr fun e he => ?_
    rw [Bool.eq_iff_iff, Bool.and_eq_true, decide_eq_true_eq, decide_eq_true_eq]
    exact ⟨fun h => ⟨h, settlingCandidate_back h⟩, fun h => h.1⟩
  rw [unsettled, unsettled, hfilter]
  refine List.length_filter_lt_length_iff_exists.mpr ⟨(i₀, s₀), ?_, ?_⟩
  · exact Table.mem_select.mpr ⟨hs₀, hc₀⟩
  · simpa using hnot

/-- A settled candidate is pending after finitely many ticks. -/
theorem backToPending_of_candidate {w : World H γ} {i : ℕ} {s : AgenticSession H}
    (hs : w.db.sessions.get? i = some s) (hc : w.db.SettlingCandidate i s) :
    BackToPending env w i := by
  generalize hn : unsettled w = n
  induction n using Nat.strong_induction_on generalizing w with
  | _ n ih =>
    have hlt := unsettled_swept_lt hs hc
    by_cases hst : (swept w).db.queue.status? i = some .pending
    · exact ⟨swept w, run_swept w, hst⟩
    · have hsame : (swept w).db.queue.get? i = w.db.queue.get? i := by
        refine (settle_queue_cases _ _ _ _ _ _ i).resolve_right fun h => hst ?_
        exact Queue.status?_of_repended h.2.2
      have hs' : (swept w).db.sessions.get? i = some s := by simpa using hs
      have hc' : (swept w).db.SettlingCandidate i s := by
        simpa only [SettlingCandidate, Queue.status?, hsame] using hc
      obtain ⟨w', hrun, hpend⟩ := ih _ (hn ▸ hlt) hs' hc' rfl
      exact ⟨w', (run_swept w).trans hrun, hpend⟩

/-- A processing row can be reclaimed once its lock is stale, and the claim's `SELECT`
reads the content the segment has by then. -/
theorem lookedAt_of_processing {w : World H γ} {i : ℕ} (hc : w.Changed i)
    (hst : w.db.queue.status? i = some .processing) :
    ∃ w', Run (step env) Quiet w w' ∧ w'.LookedAt i := by
  obtain ⟨r, hr, hh, hp, -⟩ := hc
  obtain ⟨q, hq, hproc⟩ := Option.map_eq_some_iff.mp hst
  let ids := w.db.claimCandidates .claudeLike r.cwd (q.lockedAt.getD 0) none
  let locked : World H γ := { w with
    db := w.db.lockSegments ids 0 ""
    ops := w.ops ++ [.locked .claudeLike ids]
    claims := fun i => w.claims i + if i ∈ ids then 1 else 0 }
  have hlock : step env w (.lock .claudeLike 0 (q.lockedAt.getD 0) "" r.cwd none) =
      some locked := rfl
  have hi : i ∈ ids := claimCandidates_complete hq (Or.inr ⟨hproc, le_rfl⟩) ⟨r, hr, rfl, hh, hp⟩
  let selected : World H γ := { locked with
    ops := w.ops ++ [.dropping [] (locked.db.selectClaimed .claudeLike ids)] }
  have hselect : step env locked (.select w.ops.length) = some selected := by
    simp [step, locked, selected, World.replaceOp]
  refine ⟨selected, Run.head (by intro p; simp) hlock
    (Run.single (by intro p; simp) hselect), ?_⟩
  have hseg : ⟨i, r⟩ ∈ locked.db.selectClaimed .claudeLike ids :=
    mem_selectClaimed.mpr ⟨hr, hi, hh, hp⟩
  refine ⟨.dropping [] (locked.db.selectClaimed .claudeLike ids), by simp [selected], ⟨i, r⟩,
    by simpa [Op.segs] using hseg, rfl, ?_⟩
  have hr' : selected.db.sessions.get? i = some r := hr
  rw [hr', Option.map_some]

theorem notStranded_of_watched {w : World H γ} (hw : Watched w) {i : ℕ} (hc : w.Changed i) :
    NotStranded env w i := by
  rcases hw.held i hc with hpend | hproc | ⟨hskip, hsafe⟩
  · exact Or.inl ⟨w, Run.refl w, hpend⟩
  · exact Or.inr ⟨hproc, lookedAt_of_processing hc hproc⟩
  · obtain ⟨r, hr, hh, hp, hb, hne, hd⟩ := id hc
    have hclaude : r.harness = .claudeCode := by
      by_contra hne'
      exact hsafe ⟨hc, r, hr, hne'⟩
    cases hst : w.db.queue.status? i with
    | some st =>
      cases st with
      | pending => exact Or.inl ⟨w, Run.refl w, hst⟩
      | processing => exact Or.inr ⟨hst, lookedAt_of_processing hc hst⟩
      | skipped => exact absurd hst hskip
      | done | failed =>
        refine Or.inl (backToPending_of_candidate hr ⟨hclaude, hp, hne, Or.inr hd,
          Or.inr (Or.inr (hw.summaries i r hr hclaude)), ?_⟩)
        simp [hst]
    | none =>
      exact Or.inl (backToPending_of_candidate hr ⟨hclaude, hp, hne, Or.inr hd,
        Or.inr (Or.inr (hw.summaries i r hr hclaude)), Or.inl hst⟩)

/-- **No changed content is stranded** in a run whose drops, skips and last-retry reaps
close only what they saw. -/
theorem notStranded_of_run {w : World H γ} (h : Run (step env) ClosesWhatItSaw World.init w)
    (i : ℕ) (hc : w.Changed i) : NotStranded env w i :=
  notStranded_of_watched (watched_of_run h) hc

end Recovery

section Stuck
variable {H γ : Type} [DecidableEq H] {env : Rendering H} {w w' : World H γ} {a : Action γ}

omit [DecidableEq H] in
theorem Op.id_mem_ids {op : Op H} {seg : Claimed H} (h : seg ∈ op.segs) : seg.id ∈ op.ids := by
  cases op with
  | sweeping _ | locked _ _ => cases h
  | dropping _ _ | skipping _ _ _ => exact List.mem_map_of_mem h
  | enriching _ _ => exact List.mem_map_of_mem (l := [_]) h

/-- The row is skipped and nothing in flight can write it. -/
def Closed (w : World H γ) (i : ℕ) : Prop :=
  w.db.queue.status? i = some .skipped ∧ ∀ op ∈ w.ops, i ∉ op.ids

theorem closed_step {i : ℕ} (hw : Closed w i) (hquiet : Quiet w a) (he : Effect env w a w') :
    Closed w' i := by
  obtain ⟨hst, hops⟩ := hw
  obtain ⟨q, hq, hskip⟩ := Option.map_eq_some_iff.mp hst
  have hclaim : ∀ source cwd before limit,
      i ∉ w.db.claimCandidates source cwd before limit := by
    intro source cwd before limit hi
    obtain ⟨q', hq', hcl, -⟩ := mem_claimCandidates hi
    cases hq.symm.trans hq'
    rcases hcl with h | h
    · rw [hskip] at h
      cases h
    · rw [hskip] at h
      cases h.1
  refine ⟨?_, fun op' hop' => ?_⟩
  · have untouched : ∀ {k : ℕ} {op : Op H} {j : ℕ}, w.ops[k]? = some op → j ∈ op.ids → i ≠ j := by
      rintro k op j hop hj rfl
      exact hops op (List.mem_of_getElem? hop) hj
    cases he with
    | upsert p => exact absurd rfl (hquiet p)
    | sweepApply hop =>
      rename_i k mtime now candidates
      have hsame := (settle_queue_cases sweepMaxPerTick mtime (now - settleMs) candidates 0
        w.db i).resolve_right fun h => untouched hop h.1 rfl
      simpa only [Queue.status?, hsame] using hst
    | lock hids =>
      have hi := hids ▸ hclaim _ _ _ _
      simpa only [Queue.status?, lockSegments_queue_get?, hi, if_false, Option.map_id'] using hst
    | dropped hop hdrop =>
      have hi := untouched hop (Op.id_mem_ids
        (List.mem_append_right _ List.mem_cons_self))
      simpa only [Queue.status?, dropSegment_queue_get?, hi, if_false] using hst
    | skipped hop _ =>
      have hi := untouched hop (Op.id_mem_ids
        (List.mem_append_right _ List.mem_cons_self))
      simpa only [Queue.status?, skipSegment_queue_get?, hi, if_false] using hst
    | writeReleases hop hwrite =>
      have hi := untouched hop (Op.id_mem_ids List.mem_cons_self)
      obtain ⟨-, rfl⟩ := writeNode_released hwrite
      simpa only [Queue.status?, releaseBatch_queue_get?, hi, if_false] using hst
    | written hop hwrite =>
      have hi := untouched hop (Op.id_mem_ids List.mem_cons_self)
      simpa only [Queue.status?, (writeNode_written hwrite).queue, hi, if_false] using hst
    | failed hop =>
      rename_i k error source seg
      have hi := untouched hop (Op.id_mem_ids List.mem_cons_self)
      rcases markFailed_singleton source w.db seg error with ⟨-, heq⟩ | ⟨-, hch⟩
      · simpa only [heq, Queue.status?, releaseBatch_queue_get?, hi, if_false] using hst
      · simpa only [Queue.status?, hch.queue, hi, if_false] using hst
    | reap timeout now =>
      simp [Queue.status?, reapStaleLocks_queue_get?, hq, hskip]
    | _ => exact hst
  · rcases he.op_cases hop' with ⟨op, hop, -, hids, -⟩ | ⟨source, cwd, before, limit, rfl⟩ | rfl
    · exact fun hi => hops op hop (hids i hi)
    · exact hclaim source cwd before limit
    · intro hi
      obtain ⟨⟨j, file⟩, hj, rfl⟩ := List.mem_map.mp hi
      obtain ⟨s, -, hc⟩ := mem_settlingCandidates hj
      have hst' := hc.2.2.2.2.2
      simp [hst] at hst'

/-- Without a new version of the transcript a closed row is never pending again, and no
claim reads its content. -/
theorem not_notStranded_of_closed {i : ℕ} (hw : Closed w i) : ¬ NotStranded env w i := by
  have stays : ∀ w', Run (step env) Quiet w w' → Closed w' i := fun w' hrun =>
    hrun.invariant (fun _ _ _ hc hq hs => closed_step hc hq (step_effect hs)) hw
  rintro (⟨w', hrun, hpend⟩ | ⟨hproc, -⟩)
  · rw [(stays w' hrun).1] at hpend
    cases hpend
  · rw [hw.1] at hproc
    cases hproc

end Stuck

section Race

/-- A codex segment too short to enrich is claimed, and its transcript grows between the
claim's `SELECT` and the skip. -/
def skipRace : List (Action Unit) :=
  [.upsert (.codex (promptSegment ["hi"])),
   .lock .claudeLike 1000000 400000 "brain-enrichment" "/p" none, .select 0,
   .upsert (.codex (promptSegment ["hi", "fix it", "now", "go on"])),
   .drop 0, .drop 0, .skip 0, .skip 0]

/-- The grown segment ends up skipped for the content it had before, for good. -/
theorem skipRace_strands : ∃ w : World ℕ Unit, Reaches (step promptCount) World.init w ∧
    w.Changed 1 ∧ w.db.queue.status? 1 = some .skipped ∧ ¬ NotStranded promptCount w 1 := by
  obtain ⟨w, hrun, hc, hst, hops⟩ : ∃ w : World ℕ Unit,
      Run (step promptCount) (fun _ _ => True) World.init w ∧
        (w.Changed 1 ∧ w.db.queue.status? 1 = some .skipped ∧ w.ops.isEmpty = true) :=
    exists_run_of_exec (l := skipRace) (by decide)
  have hnil : w.ops = [] := List.isEmpty_iff.mp hops
  refine ⟨w, hrun, hc, hst, not_notStranded_of_closed ⟨hst, ?_⟩⟩
  intro op hop
  rw [hnil] at hop
  cases hop

/-- Before its skip the same run closes only what it saw. -/
theorem notStranded_before_skip : ∃ w : World ℕ Unit,
    Run (step promptCount) ClosesWhatItSaw World.init w ∧
      w.Changed 1 ∧ NotStranded promptCount w 1 := by
  obtain ⟨w, hrun, hc⟩ : ∃ w : World ℕ Unit,
      Run (step promptCount) ClosesWhatItSaw World.init w ∧ w.Changed 1 :=
    exists_run_of_exec (l := skipRace.take 6) (by decide)
  exact ⟨w, hrun, hc, notStranded_of_run hrun 1 hc⟩

end Race

end Hippo.Agentic
