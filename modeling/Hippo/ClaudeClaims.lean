import Hippo.AgenticEnrichment
import Hippo.BrowserClaims

/-!
# The claim of Claude segments

One call of `claim_pending_claude_segments`, from the first `SELECT` to the batches, and what the
three claims have in common: they hand out exactly what they lock.
-/
namespace Hippo

namespace AgenticDb

variable {H γ : Type} [DecidableEq H]

/-- The drop of one segment, where its content was already enriched. -/
def dropIf (db : AgenticDb H γ) (seg : Claimed H) : Option (AgenticDb H γ) :=
  if db.AlreadyEnriched seg then some (db.dropSegment seg.id) else none

/-- `_drop_already_enriched_claude_segments`. -/
def dropAlreadyEnrichedClaudeSegments (db : AgenticDb H γ) (segs : List (Claimed H)) :
    AgenticDb H γ × List (Claimed H) :=
  sieve dropIf segs db

/-- The skip of one segment, where it is not eligible. -/
def skipClaudeIf (db : AgenticDb H γ) (seg : Claimed H) : Option (AgenticDb H γ) :=
  match isEnrichmentEligible .claudeLike seg.row with
  | .ok (false, reason) => some (db.skipSegment seg reason)
  | _ => none

/-- `_skip_ineligible_claude_segments`. -/
def skipIneligibleClaudeSegments (db : AgenticDb H γ) (segs : List (Claimed H)) :
    AgenticDb H γ × List (Claimed H) :=
  sieve skipClaudeIf segs db

/-- `SELECT s.cwd … GROUP BY s.cwd ORDER BY MIN(s.start_time)`. -/
def claudeCwdGroups (db : AgenticDb H γ) (staleBefore : ℤ) : List String :=
  let rows := (db.queue.select fun i q => q.Claimable staleBefore ∧
    ∃ s ∈ db.sessions.get? i, s.harness ∈ ClaimSource.claudeLike.harnesses ∧
      s.probeTag = none).filterMap fun e => db.sessions.get? e.1
  ((orderBy AgenticSession.startTime rows).map AgenticSession.cwd).reverse.dedup.reverse

/-- The loop body of `claim_pending_claude_segments`. -/
def claimCwd (worker : String) (staleBefore now : ℤ) (cwd : String) (limit : Option ℕ)
    (db : AgenticDb H γ) : ClaimOutcome ℕ (Claimed H) (AgenticDb H γ) :=
  let ids := db.claimCandidates .claudeLike cwd staleBefore limit
  let db := db.lockSegments ids now worker
  if ids = [] then ⟨ids, [], db⟩
  else
    let (db, segments) := db.dropAlreadyEnrichedClaudeSegments (db.selectClaimed .claudeLike ids)
    let (db, segments) := db.skipIneligibleClaudeSegments segments
    ⟨ids, segments.map fun seg => [seg], db⟩

/-- `claim_pending_claude_segments`. -/
def claimPendingClaudeSegments (db : AgenticDb H γ) (worker : String)
    (maxClaimBatch : Option ℤ) (staleLockTimeoutMs now : ℤ) :
    ClaimOutcome ℕ (Claimed H) (AgenticDb H γ) :=
  let staleBefore := now - staleLockTimeoutMs
  claimGroups (claimCwd worker staleBefore now) (db.claudeCwdGroups staleBefore)
    (maxClaimBatch.getD (-1)) db

/-- The queue row of a session and the session. -/
def look (db : AgenticDb H γ) (i : ℕ) : Option QueueRow × Option (AgenticSession H) :=
  (db.queue.get? i, db.sessions.get? i)

def cwdOf (db : AgenticDb H γ) (i : ℕ) : Option String :=
  (db.sessions.get? i).map AgenticSession.cwd

section Cwd

variable {db db' : AgenticDb H γ} {cwd worker : String} {staleBefore now : ℤ}
  {limit : Option ℕ} {seg : Claimed H} {i : ℕ}

theorem skipClaudeIf_eq_some (h : skipClaudeIf db seg = some db') :
    ∃ reason, db' = db.skipSegment seg reason := by
  unfold skipClaudeIf at h
  split at h
  · exact ⟨_, (Option.some.inj h).symm⟩
  · cases h

theorem dropIf_eq_some (h : dropIf db seg = some db') : db' = db.dropSegment seg.id := by
  unfold dropIf at h
  split_ifs at h
  exact (Option.some.inj h).symm

omit [DecidableEq H] in
theorem nodup_claimCandidates :
    (db.claimCandidates .claudeLike cwd staleBefore limit).Nodup := by
  have hrows := Table.nodup_select db.queue fun i q =>
    q.Claimable staleBefore ∧ db.ClaimsSession .claudeLike cwd i
  exact (nodup_map_orderBy (nodup_map_orderBy hrows)).sublist ((limitTo_sublist _ _).map _)

omit [DecidableEq H] in
/-- The segments that are read are the locked ones. -/
theorem selectClaimed_perm :
    (((db.lockSegments (db.claimCandidates .claudeLike cwd staleBefore limit) now
      worker).selectClaimed .claudeLike
        (db.claimCandidates .claudeLike cwd staleBefore limit)).map Claimed.id).Perm
          (db.claimCandidates .claudeLike cwd staleBefore limit) := by
  have hselected : (((db.lockSegments (db.claimCandidates .claudeLike cwd staleBefore limit) now
      worker).selectClaimed .claudeLike
        (db.claimCandidates .claudeLike cwd staleBefore limit)).map Claimed.id).Nodup := by
    rw [selectClaimed, List.map_map]
    exact nodup_map_orderBy (Table.nodup_select _ _)
  rw [List.perm_ext_iff_of_nodup hselected nodup_claimCandidates]
  intro i
  rw [List.mem_map]
  constructor
  · rintro ⟨seg, hseg, rfl⟩
    exact (mem_selectClaimed.mp hseg).2.1
  · intro hi
    obtain ⟨q, -, -, s, hs, -, hharness, hprobe⟩ := mem_claimCandidates hi
    exact ⟨⟨i, s⟩, mem_selectClaimed.mpr ⟨hs, hi, hharness, hprobe⟩, rfl⟩

omit [DecidableEq H] in
theorem lock_handsOut (db : AgenticDb H γ) (cwd : String) (limit : Option ℕ)
    (staleBefore now : ℤ) (worker : String) :
    HandsOut (Taken staleBefore now worker) (Finished staleBefore now worker) Claimed.id
      (fun seg : Claimed H => some seg.row) db.look
      (db.lockSegments (db.claimCandidates .claudeLike cwd staleBefore limit) now worker).look
      (db.claimCandidates .claudeLike cwd staleBefore limit)
      ((db.lockSegments (db.claimCandidates .claudeLike cwd staleBefore limit) now
        worker).selectClaimed .claudeLike
          (db.claimCandidates .claudeLike cwd staleBefore limit)) := by
  apply HandsOut.lock nodup_claimCandidates selectClaimed_perm
  · intro seg hseg
    obtain ⟨hsession, hmem, -⟩ := mem_selectClaimed.mp hseg
    obtain ⟨q, hq, hclaim, -⟩ := mem_claimCandidates hmem
    refine ⟨q, q.lock now worker, ?_, ?_, hclaim, rfl⟩
    · rw [look, hq]
      exact congrArg (Prod.mk _) hsession
    · rw [look, lockSegments_queue_get?, hq, hsession]
      simp [hmem]
  · intro i hi
    rw [look, lockSegments_queue_get?]
    simp only [hi, if_false, Option.map_id']
    rfl

theorem drop_handsOut {locked : List ℕ} {segs : List (Claimed H)}
    {before : ℕ → Option QueueRow × Option (AgenticSession H)}
    (h : HandsOut (Taken staleBefore now worker) (Finished staleBefore now worker) Claimed.id
      (fun seg : Claimed H => some seg.row) before db.look locked segs) :
    HandsOut (Taken staleBefore now worker) (Finished staleBefore now worker) Claimed.id
      (fun seg : Claimed H => some seg.row) before
      (db.dropAlreadyEnrichedClaudeSegments segs).1.look locked
      (db.dropAlreadyEnrichedClaudeSegments segs).2 := by
  rw [← List.nil_append segs] at h
  refine HandsOut.sieve (fun db seg db' hdrop => ?_) h
  obtain rfl := dropIf_eq_some hdrop
  constructor
  · intro r r' htaken hr'
    have hrow : db.queue.get? seg.id = some r' := hr'
    refine ⟨r'.drop, ?_, htaken.1, Or.inr (by rw [htaken.2])⟩
    show (db.dropSegment seg.id).queue.get? seg.id = _
    rw [dropSegment_queue_get?, hrow]
    simp
  · intro i hi
    rw [look, look, dropSegment_queue_get?, dropSegment_sessions_get?]
    simp [hi]

theorem skip_handsOut {locked : List ℕ} {segs : List (Claimed H)}
    {before : ℕ → Option QueueRow × Option (AgenticSession H)}
    (h : HandsOut (Taken staleBefore now worker) (Finished staleBefore now worker) Claimed.id
      (fun seg : Claimed H => some seg.row) before db.look locked segs) :
    HandsOut (Taken staleBefore now worker) (Finished staleBefore now worker) Claimed.id
      (fun seg : Claimed H => some seg.row) before
      (db.skipIneligibleClaudeSegments segs).1.look locked
      (db.skipIneligibleClaudeSegments segs).2 := by
  rw [← List.nil_append segs] at h
  refine HandsOut.sieve (fun db seg db' hskip => ?_) h
  obtain ⟨reason, rfl⟩ := skipClaudeIf_eq_some hskip
  constructor
  · intro r r' htaken hr'
    have hrow : db.queue.get? seg.id = some r' := hr'
    refine ⟨r'.skip reason, ?_, htaken.1, Or.inl ⟨reason, by rw [htaken.2]⟩⟩
    show (db.skipSegment seg reason).queue.get? seg.id = _
    rw [skipSegment_queue_get?, hrow]
    simp
  · intro i hi
    rw [look, look, skipSegment_queue_get?, skipSegment_sessions_get?]
    simp [hi]

/-- Neither loop changes the directory of a session. -/
theorem sieves_cwdOf (segs : List (Claimed H)) :
    (db.dropAlreadyEnrichedClaudeSegments segs).1.cwdOf = db.cwdOf ∧
      (db.skipIneligibleClaudeSegments segs).1.cwdOf = db.cwdOf := by
  constructor
  · apply sieve_invariant
    intro db seg db' hdrop
    obtain rfl := dropIf_eq_some hdrop
    ext1 i
    rw [cwdOf, cwdOf, dropSegment_sessions_get?]
    split_ifs <;> simp [Function.comp_def]
  · apply sieve_invariant
    intro db seg db' hskip
    obtain ⟨reason, rfl⟩ := skipClaudeIf_eq_some hskip
    ext1 i
    rw [cwdOf, cwdOf, skipSegment_sessions_get?]
    split_ifs <;> simp [Function.comp_def]

theorem sieves_store (segs : List (Claimed H)) :
    (db.dropAlreadyEnrichedClaudeSegments segs).1.store = db.store ∧
      (db.skipIneligibleClaudeSegments segs).1.store = db.store := by
  constructor
  · apply sieve_invariant
    intro db seg db' hdrop
    obtain rfl := dropIf_eq_some hdrop
    rfl
  · apply sieve_invariant
    intro db seg db' hskip
    obtain ⟨reason, rfl⟩ := skipClaudeIf_eq_some hskip
    rfl

/-- The claim of one directory hands out what it locks. -/
theorem claimCwd_claims : ClaimsGroup (claimCwd (H := H) (γ := γ) worker staleBefore now)
    (Taken staleBefore now worker) (Finished staleBefore now worker) Claimed.id
    (fun seg : Claimed H => some seg.row) look cwdOf where
  handsOut := by
    intro cwd limit db
    have hlock := lock_handsOut db cwd limit staleBefore now worker
    unfold claimCwd
    dsimp only
    split_ifs with hnone
    · rw [hnone] at hlock ⊢
      have hread : (db.lockSegments [] now worker).selectClaimed .claudeLike [] = [] := by
        apply List.eq_nil_iff_forall_not_mem.mpr
        intro seg hseg
        simpa using (mem_selectClaimed.mp hseg).2.1
      rwa [hread] at hlock
    · have hskip := skip_handsOut (drop_handsOut hlock)
      dsimp only
      rwa [← List.flatMap_def, List.flatMap_singleton']
  within := by
    intro cwd limit db n hn
    have hlength : (db.claimCandidates .claudeLike cwd staleBefore (some n)).length ≤ n := by
      rw [claimCandidates, List.length_map]
      exact length_limitTo n _
    rw [Option.mem_def.mp hn]
    unfold claimCwd
    dsimp only
    split_ifs <;> exact hlength
  inGroup := by
    intro cwd limit db i hi
    have hmem : i ∈ db.claimCandidates .claudeLike cwd staleBefore limit := by
      unfold claimCwd at hi
      dsimp only at hi
      split_ifs at hi <;> exact hi
    obtain ⟨q, -, -, s, hs, hcwd, -⟩ := mem_claimCandidates hmem
    rw [cwdOf, Option.mem_def.mp hs, Option.map_some, hcwd]
  keeps := by
    intro cwd limit db
    unfold claimCwd
    dsimp only
    split_ifs
    · rfl
    · exact (sieves_cwdOf _).2.trans (sieves_cwdOf _).1

theorem claimCwd_store (limit : Option ℕ) (db : AgenticDb H γ) :
    (claimCwd worker staleBefore now cwd limit db).state.store = db.store := by
  unfold claimCwd
  dsimp only
  split_ifs
  · rfl
  · exact (sieves_store _).2.trans (sieves_store _).1

/-- One segment is one batch. -/
theorem claimCwd_chunks (limit : Option ℕ) (db : AgenticDb H γ) :
    ∀ chunk ∈ (claimCwd worker staleBefore now cwd limit db).chunks, chunk.length = 1 := by
  intro chunk hchunk
  unfold claimCwd at hchunk
  dsimp only at hchunk
  split_ifs at hchunk
  · simp at hchunk
  · obtain ⟨seg, -, rfl⟩ := List.mem_map.mp hchunk
    rfl

omit [DecidableEq H] in
theorem nodup_claudeCwdGroups (db : AgenticDb H γ) (staleBefore : ℤ) :
    (db.claudeCwdGroups staleBefore).Nodup :=
  List.nodup_reverse.mpr (List.nodup_dedup _)

end Cwd

section Call

variable (db : AgenticDb H γ) (worker : String) (maxClaimBatch : Option ℤ)
  (staleLockTimeoutMs now : ℤ)

/-- One call of the Claude claim hands out what it locks. -/
theorem claimPendingClaudeSegments_claims :
    Claims (Taken (now - staleLockTimeoutMs) now worker)
      (Finished (now - staleLockTimeoutMs) now worker) Claimed.id
      (fun seg : Claimed H => some seg.row) look maxClaimBatch db
      (db.claimPendingClaudeSegments worker maxClaimBatch staleLockTimeoutMs now) :=
  claimCwd_claims.claims (nodup_claudeCwdGroups _ _) maxClaimBatch db

theorem claimPendingClaudeSegments_store :
    (db.claimPendingClaudeSegments worker maxClaimBatch staleLockTimeoutMs now).state.store =
      db.store :=
  claimGroups_invariant (fun _ limit db => claimCwd_store limit db) _ _ _

theorem claimPendingClaudeSegments_chunks :
    ∀ chunk ∈ (db.claimPendingClaudeSegments worker maxClaimBatch staleLockTimeoutMs now).chunks,
      chunk.length = 1 :=
  claimGroups_chunks (fun _ limit db => claimCwd_chunks limit db) _ _ _

end Call

end AgenticDb

/-- Each of the three claims hands out exactly what it locks; the chunks of the shell claim are of
one session, in the order of time, and of bounded length. -/
theorem claims_hand_out_what_they_lock {H γ : Type} [DecidableEq H] (worker : String)
    (maxClaimBatch : Option ℤ) (now : ℤ) :
    (∀ (text : PyText) (db : ShellDb γ) (maxPerChunk : ℕ) (staleSecs staleLockTimeoutMs : ℤ),
      let call := db.claimPendingEventsBySession text maxPerChunk worker staleSecs maxClaimBatch
        staleLockTimeoutMs now
      Claims (Taken (now - staleLockTimeoutMs) now worker)
        (Finished (now - staleLockTimeoutMs) now worker) Prod.fst
        (fun e : ClaimedEvent => some e.2) ShellDb.look maxClaimBatch db call ∧
      (∀ chunk ∈ call.chunks, ShellDb.ShellChunk maxPerChunk chunk) ∧
      call.state.store = db.store) ∧
    (∀ (fmt2 : ℚ → String) (settings : BrowserClaimSettings) (db : BrowserDb),
      Claims (VisitTaken (now - settings.staleLockTimeoutMs) now worker)
        (VisitSkipped (now - settings.staleLockTimeoutMs) now worker) Prod.fst
        (fun e : ClaimedVisit => some e.2) BrowserDb.look maxClaimBatch db
        (db.claimPendingBrowserEvents fmt2 settings worker maxClaimBatch now)) ∧
    ∀ (db : AgenticDb H γ) (staleLockTimeoutMs : ℤ),
      let call := db.claimPendingClaudeSegments worker maxClaimBatch staleLockTimeoutMs now
      Claims (Taken (now - staleLockTimeoutMs) now worker)
        (Finished (now - staleLockTimeoutMs) now worker) Claimed.id
        (fun seg : Claimed H => some seg.row) AgenticDb.look maxClaimBatch db call ∧
      (∀ chunk ∈ call.chunks, chunk.length = 1) ∧ call.state.store = db.store := by
  refine ⟨?_, ?_, ?_⟩
  · intro text db maxPerChunk staleSecs staleLockTimeoutMs
    exact ⟨db.claimPendingEventsBySession_claims text maxPerChunk worker staleSecs maxClaimBatch
        staleLockTimeoutMs now,
      db.claimPendingEventsBySession_chunks text maxPerChunk worker staleSecs maxClaimBatch
        staleLockTimeoutMs now,
      db.claimPendingEventsBySession_store text maxPerChunk worker staleSecs maxClaimBatch
        staleLockTimeoutMs now⟩
  · intro fmt2 settings db
    exact db.claimPendingBrowserEvents_claims fmt2 settings worker maxClaimBatch now
  · intro db staleLockTimeoutMs
    exact ⟨db.claimPendingClaudeSegments_claims worker maxClaimBatch staleLockTimeoutMs now,
      db.claimPendingClaudeSegments_chunks worker maxClaimBatch staleLockTimeoutMs now,
      db.claimPendingClaudeSegments_store worker maxClaimBatch staleLockTimeoutMs now⟩

section Degenerate

private def listing : ShellEvent :=
  { sessionId := 1, timestamp := 0, command := "ls", durationMs := 5 }

/-- One pending `ls` of session 1. -/
private def oneCommand : ShellDb Unit where
  events := Table.collect [(1, listing)]
  queue := Table.collect [(1, { id := 1 })]
  store := KnowledgeStore.empty
  fk := by decide

private def asciiText : PyText := ⟨Char.isAlphanum, fun s => "'" ++ s ++ "'"⟩

/-- A chunk has an event even for the size 0, and a negative cap is none. -/
theorem bounds_below_one :
    (∃ chunk ∈ (oneCommand.claimPendingEventsBySession asciiText 0 "w" 120 none 300000
      1000000).chunks, ¬ chunk.length ≤ 0) ∧
    ¬ ((oneCommand.claimPendingEventsBySession asciiText 30 "w" 120 (some (-1)) 300000
      1000000).locked.length : ℤ) ≤ -1 := by
  decide +kernel

end Degenerate

end Hippo
