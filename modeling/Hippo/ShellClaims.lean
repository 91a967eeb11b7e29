import Hippo.Handout
import Hippo.ShellEnrichment
import Mathlib.Data.List.Dedup

/-!
# The claim of shell events

One call of `claim_pending_events_by_session`, from the first `SELECT` to the chunks.
-/
namespace Hippo

/-- The row was claimable and now has the claim's lock. -/
def Taken (before now : ℤ) (worker : String) (r r' : QueueRow) : Prop :=
  r.Claimable before ∧ r' = r.lock now worker

/-- The row was claimable, got the claim's lock and was closed. -/
def Finished (before now : ℤ) (worker : String) (r r' : QueueRow) : Prop :=
  r.Claimable before ∧ ((∃ reason, r' = (r.lock now worker).skip reason) ∨
    r' = (r.lock now worker).drop)

theorem Finished.status {before now : ℤ} {worker : String} {r r' : QueueRow}
    (h : Finished before now worker r r') : r'.status = .skipped ∨ r'.status = .done := by
  rcases h.2 with ⟨reason, rfl⟩ | rfl
  · exact Or.inl rfl
  · exact Or.inr rfl

theorem Table.nodup_select {κ ρ : Type*} [DecidableEq κ] (t : Table κ ρ) (p : κ → ρ → Prop)
    [∀ k r, Decidable (p k r)] : ((t.select p).map Prod.fst).Nodup :=
  t.nodup.sublist (List.filter_sublist.map _)

theorem limitTo_sublist {α : Type*} (n : Option ℕ) (l : List α) : (limitTo n l).Sublist l := by
  cases n with
  | none => exact List.Sublist.refl l
  | some n => exact List.take_sublist n l

theorem length_limitTo {α : Type*} (n : ℕ) (l : List α) : (limitTo (some n) l).length ≤ n := by
  simp [limitTo]

theorem pairwise_orderBy {α : Type*} (key : α → ℤ) (l : List α) :
    (orderBy key l).Pairwise fun a b => key a ≤ key b :=
  List.pairwise_insertionSort _ l

section Chunks

variable {maxSize : ℕ} {events c : List ClaimedEvent}

theorem length_chunkLoop {chunks : List (List ClaimedEvent)} {current rest : List ClaimedEvent}
    (hchunks : ∀ c ∈ chunks, c.length ≤ max 1 maxSize) (hcurrent : current.length ≤ max 1 maxSize)
    (h : c ∈ chunkLoop maxSize chunks current rest) : c.length ≤ max 1 maxSize := by
  have hfinished : ∀ c ∈ chunks ++ [current], c.length ≤ max 1 maxSize := by
    intro c hc
    rcases List.mem_append.mp hc with hc | hc
    · exact hchunks c hc
    · rw [List.mem_singleton.mp hc]
      exact hcurrent
  induction rest generalizing chunks current with
  | nil =>
    unfold chunkLoop at h
    split_ifs at h
    · exact hchunks c h
    · exact hfinished c h
  | cons ev rest ih =>
    unfold chunkLoop at h
    dsimp only at h
    split_ifs at h with hsplit
    · have hone : [ev].length ≤ max 1 maxSize := by simp
      apply ih hfinished hone h
      intro c hc
      rcases List.mem_append.mp hc with hc | hc
      · exact hfinished c hc
      · rw [List.mem_singleton.mp hc]
        exact hone
    · have hlonger : (current ++ [ev]).length ≤ max 1 maxSize := by
        rw [List.length_append, List.length_singleton]
        omega
      apply ih hchunks hlonger h
      intro c hc
      rcases List.mem_append.mp hc with hc | hc
      · exact hchunks c hc
      · rw [List.mem_singleton.mp hc]
        exact hlonger

/-- A chunk has at most `maxSize` events, and at least one. -/
theorem length_chunkEvents (h : c ∈ chunkEvents events maxSize) : c.length ≤ max 1 maxSize := by
  unfold chunkEvents at h
  split_ifs at h with hfits
  · rw [List.mem_singleton.mp h]
    omega
  · apply length_chunkLoop _ _ h
    · simp
    · rw [List.length_take]
      omega

theorem mem_of_mem_chunkEvents (h : c ∈ chunkEvents events maxSize) : ∀ e ∈ c, e ∈ events := by
  intro e he
  rw [← chunkEvents_flatten events maxSize]
  exact List.mem_flatten_of_mem h he

theorem pairwise_chunkEvents {R : ClaimedEvent → ClaimedEvent → Prop} (hevents : events.Pairwise R)
    (h : c ∈ chunkEvents events maxSize) : c.Pairwise R := by
  rw [← chunkEvents_flatten events maxSize, List.pairwise_flatten] at hevents
  exact hevents.1 c h

end Chunks

namespace ShellDb

variable {γ : Type}

/-- The loop body of `claim_pending_events_by_session`. -/
def claimSession (text : PyText) (maxPerChunk : ℕ) (worker : String) (staleLockMs now : ℤ)
    (session : ℕ) (limit : Option ℕ) (db : ShellDb γ) : ClaimOutcome ℕ ClaimedEvent (ShellDb γ) :=
  let ids := db.claimCandidates session staleLockMs limit
  let db := db.lockEvents ids now worker
  if ids = [] then ⟨ids, [], db⟩
  else
    let (db, events) := skipIneligible text db (db.selectClaimed ids)
    ⟨ids, if events = [] then [] else chunkEvents events maxPerChunk, db⟩

/-- `claim_pending_events_by_session`. -/
def claimPendingEventsBySession (text : PyText) (db : ShellDb γ) (maxPerChunk : ℕ)
    (worker : String) (staleSecs : ℤ) (maxClaimBatch : Option ℤ) (staleLockTimeoutMs now : ℤ) :
    ClaimOutcome ℕ ClaimedEvent (ShellDb γ) :=
  let staleLockMs := now - staleLockTimeoutMs
  claimGroups (claimSession text maxPerChunk worker staleLockMs now)
    (db.claimSessions staleLockMs (now - staleSecs * 1000)) (maxClaimBatch.getD (-1)) db

/-- The queue row of an event and the event. -/
def look (db : ShellDb γ) (i : ℕ) : Option QueueRow × Option ShellEvent :=
  (db.queue.get? i, db.events.get? i)

/-- A chunk of one session, in the order of time. -/
structure ShellChunk (maxPerChunk : ℕ) (chunk : List ClaimedEvent) : Prop where
  session : ∀ e ∈ chunk, ∀ e' ∈ chunk, e.2.sessionId = e'.2.sessionId
  ordered : chunk.Pairwise fun e e' => e.2.timestamp ≤ e'.2.timestamp
  length : chunk.length ≤ max 1 maxPerChunk

def sessionOf (db : ShellDb γ) (i : ℕ) : Option ℕ := (db.events.get? i).map ShellEvent.sessionId

/-- The skip of one event, where it is not eligible. -/
def skipIf (text : PyText) (db : ShellDb γ) (e : ClaimedEvent) : Option (ShellDb γ) :=
  match e.2.isEnrichmentEligible text with
  | (true, _) => none
  | (false, reason) => some (db.skipEvent e.1 reason)

section Session

variable {text : PyText} {db db' : ShellDb γ} {session i : ℕ} {staleLockMs now : ℤ}
  {limit : Option ℕ} {worker : String} {e : ClaimedEvent}

theorem skipIneligible_eq_sieve (events : List ClaimedEvent) :
    skipIneligible text db events = sieve (skipIf text) events db := by
  induction events generalizing db with
  | nil => rfl
  | cons e events ih =>
    simp only [skipIneligible, Prod.ext_iff] at ih ⊢
    cases he : e.2.isEnrichmentEligible text with
    | mk ok reason =>
      cases ok with
      | true => simp [sieve, skipIf, he, ih.1, @ih db]
      | false => simp [sieve, skipIf, he, ih.1, @ih (db.skipEvent e.1 reason)]

theorem skipIf_eq_some (h : skipIf text db e = some db') :
    ∃ reason, db' = db.skipEvent e.1 reason := by
  unfold skipIf at h
  split at h
  · cases h
  · exact ⟨_, (Option.some.inj h).symm⟩

theorem nodup_claimCandidates : (db.claimCandidates session staleLockMs limit).Nodup := by
  have hrows := Table.nodup_select db.queue
    fun i q => q.Claimable staleLockMs ∧ db.InSession session i
  exact (nodup_map_orderBy (nodup_map_orderBy hrows)).sublist ((limitTo_sublist _ _).map _)

theorem length_claimCandidates (db : ShellDb γ) (session : ℕ) (staleLockMs : ℤ) (n : ℕ) :
    (db.claimCandidates session staleLockMs (some n)).length ≤ n := by
  rw [claimCandidates, List.length_map]
  exact length_limitTo n _

theorem inSession_of_mem (h : i ∈ db.claimCandidates session staleLockMs limit) :
    ∃ e, db.events.get? i = some e ∧ e.sessionId = session ∧ e.probeTag = none := by
  obtain ⟨⟨i, q⟩, hq, rfl⟩ := List.mem_map.mp h
  have hrow := mem_of_mem_limitTo hq
  rw [mem_orderBy, mem_orderBy, Table.mem_select] at hrow
  exact hrow.2.2

/-- The events that are read are the locked ones. -/
theorem selectClaimed_perm :
    (((db.lockEvents (db.claimCandidates session staleLockMs limit) now worker).selectClaimed
      (db.claimCandidates session staleLockMs limit)).map Prod.fst).Perm
        (db.claimCandidates session staleLockMs limit) := by
  have hselected : (((db.lockEvents (db.claimCandidates session staleLockMs limit) now
      worker).selectClaimed (db.claimCandidates session staleLockMs limit)).map Prod.fst).Nodup :=
    nodup_map_orderBy (nodup_map_orderBy (Table.nodup_select _ _))
  rw [List.perm_ext_iff_of_nodup hselected nodup_claimCandidates]
  intro i
  rw [List.mem_map]
  constructor
  · rintro ⟨e, he, rfl⟩
    exact (mem_selectClaimed.mp he).2.1
  · intro hi
    obtain ⟨e, he, -, hprobe⟩ := inSession_of_mem hi
    exact ⟨(i, e), mem_selectClaimed.mpr ⟨he, hi, hprobe⟩, rfl⟩

theorem lock_handsOut (db : ShellDb γ) (session : ℕ) (limit : Option ℕ) (staleLockMs now : ℤ)
    (worker : String) : HandsOut (Taken staleLockMs now worker) (Finished staleLockMs now worker)
    Prod.fst (fun e : ClaimedEvent => some e.2) db.look
    (db.lockEvents (db.claimCandidates session staleLockMs limit) now worker).look
    (db.claimCandidates session staleLockMs limit)
    ((db.lockEvents (db.claimCandidates session staleLockMs limit) now worker).selectClaimed
      (db.claimCandidates session staleLockMs limit)) := by
  apply HandsOut.lock nodup_claimCandidates selectClaimed_perm
  · intro e he
    obtain ⟨hevent, hmem, -⟩ := mem_selectClaimed.mp he
    obtain ⟨q, hq, hclaim⟩ := mem_claimCandidates hmem
    refine ⟨q, q.lock now worker, ?_, ?_, hclaim, rfl⟩
    · rw [look, hq]
      exact congrArg (Prod.mk _) hevent
    · rw [look, lockEvents_queue_get?, hq, hevent]
      simp [hmem]
  · intro i hi
    rw [look, lockEvents_queue_get?]
    simp only [hi, if_false, Option.map_id']
    rfl

theorem skip_handsOut (text : PyText) {locked : List ℕ} {events : List ClaimedEvent}
    {before : ℕ → Option QueueRow × Option ShellEvent}
    (h : HandsOut (Taken staleLockMs now worker) (Finished staleLockMs now worker) Prod.fst
      (fun e : ClaimedEvent => some e.2) before db.look locked events) :
    HandsOut (Taken staleLockMs now worker) (Finished staleLockMs now worker) Prod.fst
      (fun e : ClaimedEvent => some e.2) before (skipIneligible text db events).1.look locked
      (skipIneligible text db events).2 := by
  rw [skipIneligible_eq_sieve]
  rw [← List.nil_append events] at h
  refine HandsOut.sieve (fun db e db' hskip => ?_) h
  obtain ⟨reason, rfl⟩ := skipIf_eq_some hskip
  constructor
  · intro r r' htaken hr'
    have hrow : db.queue.get? e.1 = some r' := hr'
    refine ⟨r'.skip reason, ?_, htaken.1, Or.inl ⟨reason, by rw [htaken.2]⟩⟩
    show (db.skipEvent e.1 reason).queue.get? e.1 = _
    rw [skipEvent_queue_get?, hrow]
    simp
  · intro i hi
    rw [look, look, skipEvent_queue_get?, skipEvent_events_get?]
    simp [hi]

theorem skipIneligible_sessionOf (events : List ClaimedEvent) :
    (skipIneligible text db events).1.sessionOf = db.sessionOf := by
  rw [skipIneligible_eq_sieve]
  apply sieve_invariant
  intro db e db' hskip
  obtain ⟨reason, rfl⟩ := skipIf_eq_some hskip
  ext1 i
  rw [sessionOf, sessionOf, skipEvent_events_get?, Option.map_map]
  congr 1
  ext1 r
  show ShellEvent.sessionId (if i ∈ [e.1] then { r with enriched := true } else r) = r.sessionId
  split_ifs <;> rfl

variable {maxPerChunk : ℕ}

/-- The claim of one session hands out what it locks. -/
theorem claimSession_claims : ClaimsGroup
    (claimSession (γ := γ) text maxPerChunk worker staleLockMs now)
    (Taken staleLockMs now worker) (Finished staleLockMs now worker) Prod.fst
    (fun e : ClaimedEvent => some e.2) look sessionOf where
  handsOut := by
    intro session limit db
    have hlock := lock_handsOut db session limit staleLockMs now worker
    have hskip := skip_handsOut text hlock
    unfold claimSession
    dsimp only
    split_ifs with hnone hempty
    · rw [hnone] at hlock ⊢
      have hread : (db.lockEvents [] now worker).selectClaimed [] = [] := by
        apply List.eq_nil_iff_forall_not_mem.mpr
        intro e he
        simpa using (mem_selectClaimed.mp he).2.1
      rwa [hread] at hlock
    · rwa [hempty] at hskip
    · rwa [chunkEvents_flatten]
  within := by
    intro session limit db n hn
    have hlength := length_claimCandidates db session staleLockMs n
    rw [Option.mem_def.mp hn]
    unfold claimSession
    dsimp only
    split_ifs <;> exact hlength
  inGroup := by
    intro session limit db i hi
    have hmem : i ∈ db.claimCandidates session staleLockMs limit := by
      unfold claimSession at hi
      dsimp only at hi
      split_ifs at hi <;> exact hi
    obtain ⟨e, he, hsession, -⟩ := inSession_of_mem hmem
    rw [sessionOf, he, Option.map_some, hsession]
  keeps := by
    intro session limit db
    unfold claimSession
    dsimp only
    split_ifs
    · rfl
    · exact skipIneligible_sessionOf _
    · exact skipIneligible_sessionOf _

theorem claimSession_store (limit : Option ℕ) (db : ShellDb γ) :
    (claimSession text maxPerChunk worker staleLockMs now session limit db).state.store =
      db.store := by
  unfold claimSession
  dsimp only
  split_ifs
  · rfl
  · exact skipIneligible_store _ _
  · exact skipIneligible_store _ _

theorem claimSession_chunks (limit : Option ℕ) (db : ShellDb γ) :
    ∀ chunk ∈ (claimSession text maxPerChunk worker staleLockMs now session limit db).chunks,
      ShellChunk maxPerChunk chunk := by
  intro chunk hchunk
  unfold claimSession at hchunk
  dsimp only at hchunk
  split_ifs at hchunk with hnone hempty
  · simp at hchunk
  · simp at hchunk
  · generalize hids : db.claimCandidates session staleLockMs limit = ids at hchunk
    have hsub : (skipIneligible text (db.lockEvents ids now worker)
        ((db.lockEvents ids now worker).selectClaimed ids)).2.Sublist
        ((db.lockEvents ids now worker).selectClaimed ids) := List.filter_sublist
    have hsession : ∀ e ∈ chunk, e.2.sessionId = session := by
      intro e he
      have hread := hsub.subset (mem_of_mem_chunkEvents hchunk e he)
      obtain ⟨hevent, hmem, -⟩ := mem_selectClaimed.mp hread
      rw [← hids] at hmem
      obtain ⟨e', he', hin, -⟩ := inSession_of_mem hmem
      have heq : some e.2 = some e' := hevent.symm.trans he'
      rw [Option.some.inj heq, hin]
    constructor
    · intro e he e' he'
      rw [hsession e he, hsession e' he']
    · exact pairwise_chunkEvents ((pairwise_orderBy _ _).sublist hsub) hchunk
    · exact length_chunkEvents hchunk

theorem nodup_claimSessions (db : ShellDb γ) (staleLockMs staleThresholdMs : ℤ) :
    (db.claimSessions staleLockMs staleThresholdMs).Nodup :=
  (orderBy_perm _ _).nodup_iff.mpr ((List.nodup_dedup _).filter _)

end Session

section Call

variable (text : PyText) (db : ShellDb γ) (maxPerChunk : ℕ) (worker : String) (staleSecs : ℤ)
  (maxClaimBatch : Option ℤ) (staleLockTimeoutMs now : ℤ)

/-- One call of the shell claim hands out what it locks. -/
theorem claimPendingEventsBySession_claims :
    Claims (Taken (now - staleLockTimeoutMs) now worker)
      (Finished (now - staleLockTimeoutMs) now worker) Prod.fst
      (fun e : ClaimedEvent => some e.2) look maxClaimBatch db
      (db.claimPendingEventsBySession text maxPerChunk worker staleSecs maxClaimBatch
        staleLockTimeoutMs now) :=
  claimSession_claims.claims (nodup_claimSessions _ _ _) maxClaimBatch db

theorem claimPendingEventsBySession_chunks :
    ∀ chunk ∈ (db.claimPendingEventsBySession text maxPerChunk worker staleSecs maxClaimBatch
      staleLockTimeoutMs now).chunks, ShellChunk maxPerChunk chunk :=
  claimGroups_chunks (fun _ limit db => claimSession_chunks limit db) _ _ _

theorem claimPendingEventsBySession_store :
    (db.claimPendingEventsBySession text maxPerChunk worker staleSecs maxClaimBatch
      staleLockTimeoutMs now).state.store = db.store :=
  claimGroups_invariant (fun _ limit db => claimSession_store limit db) _ _ _

end Call

end ShellDb

end Hippo
