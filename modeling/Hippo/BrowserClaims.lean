import Hippo.ShellClaims
import Mathlib.Algebra.Field.Rat
import Mathlib.Algebra.Order.Ring.Rat

/-!
# The claim of browser events

One call of `claim_pending_browser_events`, from the lock to the chunks.
-/
namespace Hippo

/-- A row of `browser_events`, with the columns the claim returns. -/
structure BrowserVisit extends BrowserEvent where
  title : Option String := none
  domain : String
  dwellMs : ℤ
  scrollDepth : Option ℚ := none
  extractedText : Option String := none
  searchQuery : Option String := none
  referrer : Option String := none
  enriched : Bool := false

/-- A row of `browser_enrichment_queue`, with the columns its claim orders by. -/
structure BrowserQueueRow extends QueueRow where
  priority : ℤ := 5
  createdAt : ℤ

/-- An assignment to the columns that all queues have. -/
def BrowserQueueRow.set (f : QueueRow → QueueRow) (r : BrowserQueueRow) : BrowserQueueRow :=
  { r with toQueueRow := f r.toQueueRow }

abbrev ClaimedVisit := ℕ × BrowserVisit

namespace BrowserVisit

/-- The `browser` branch of `is_enrichment_eligible`. -/
def isEnrichmentEligible (v : BrowserVisit) : Bool × String :=
  if v.dwellMs < 1000 then (false, "browser dwell_ms=" ++ toString v.dwellMs ++ " < 1000")
  else (true, "eligible")

/-- Why the claim skips an event, if it does. `fmt2` is the format `.2f`. -/
def skipReason (fmt2 : ℚ → String) (scrollDepthThreshold : ℚ) (longDwellBypassMs : ℤ)
    (v : BrowserVisit) : Option String :=
  match v.isEnrichmentEligible with
  | (false, reason) => some reason
  | (true, _) =>
    let scroll := v.scrollDepth.getD 0
    let hasQuery := v.searchQuery.getD "" ≠ ""
    if scroll < scrollDepthThreshold ∧ ¬ hasQuery ∧ v.dwellMs < longDwellBypassMs then
      some ("low engagement: scroll=" ++ fmt2 scroll ++ ", no search_query, dwell=" ++
        toString v.dwellMs ++ "ms")
    else none

end BrowserVisit

section Chunks

variable {gapMs : ℤ}

/-- The loop of `_chunk_by_time_gap`: finished chunks, the one being filled, the events left. -/
def timeGapLoop (gapMs : ℤ) :
    List (List ClaimedVisit) → List ClaimedVisit → List ClaimedVisit → List (List ClaimedVisit)
  | chunks, current, [] => if current = [] then chunks else chunks ++ [current]
  | chunks, current, ev :: rest =>
    let prevTs := (current.getLast?.map fun e => e.2.timestamp).getD 0
    if gapMs < ev.2.timestamp - prevTs then timeGapLoop gapMs (chunks ++ [current]) [ev] rest
    else timeGapLoop gapMs chunks (current ++ [ev]) rest

/-- `_chunk_by_time_gap`. -/
def chunkByTimeGap (events : List ClaimedVisit) (gapMs : ℤ) : List (List ClaimedVisit) :=
  match events with
  | [] => []
  | first :: rest => timeGapLoop gapMs [] [first] rest

theorem timeGapLoop_flatten (chunks : List (List ClaimedVisit)) (current rest : List ClaimedVisit) :
    (timeGapLoop gapMs chunks current rest).flatten = chunks.flatten ++ current ++ rest := by
  induction rest generalizing chunks current with
  | nil =>
    unfold timeGapLoop
    split_ifs with hempty <;> simp [hempty]
  | cons ev rest ih =>
    unfold timeGapLoop
    dsimp only
    split_ifs <;> simp [ih]

theorem chunkByTimeGap_flatten (events : List ClaimedVisit) :
    (chunkByTimeGap events gapMs).flatten = events := by
  cases events with
  | nil => rfl
  | cons first rest => simp [chunkByTimeGap, timeGapLoop_flatten]

end Chunks

/-- The browser events with their queue. -/
structure BrowserDb where
  events : Table ℕ BrowserVisit
  queue : Table ℕ BrowserQueueRow

/-- The settings of the browser claim. -/
structure BrowserClaimSettings where
  staleSecs : ℤ := 60
  scrollDepthThreshold : ℚ := 15 / 100
  staleLockTimeoutMs : ℤ
  longDwellBypassMs : ℤ := 120000

/-- `LIMIT n`; a negative one is none. -/
def sqlLimit (n : ℤ) : Option ℕ := if 0 ≤ n then some n.toNat else none

namespace BrowserDb

def updateQueue (db : BrowserDb) (ids : List ℕ) (f : QueueRow → QueueRow) : BrowserDb :=
  { db with queue := db.queue.update (fun i _ => i ∈ ids) (BrowserQueueRow.set f) }

/-- `UPDATE browser_events SET enriched = 1 WHERE id IN ids`. -/
def markEnriched (db : BrowserDb) (ids : List ℕ) : BrowserDb :=
  { db with events := db.events.update (fun i _ => i ∈ ids) fun v => { v with enriched := true } }

/-- The event is settled and no probe. -/
def Settled (db : BrowserDb) (staleThresholdMs : ℤ) (i : ℕ) : Prop :=
  ∃ v ∈ db.events.get? i, v.timestamp < staleThresholdMs ∧ v.probeTag = none

instance (db : BrowserDb) (staleThresholdMs : ℤ) (i : ℕ) :
    Decidable (db.Settled staleThresholdMs i) := by
  unfold Settled
  infer_instance

/-- The subselect of the lock `UPDATE`. -/
def claimCandidates (db : BrowserDb) (staleLockMs staleThresholdMs : ℤ) (limit : Option ℕ) :
    List ℕ :=
  let rows := db.queue.select fun i q =>
    q.toQueueRow.Claimable staleLockMs ∧ db.Settled staleThresholdMs i
  (limitTo limit (orderBy (fun e => e.2.priority) (orderBy (fun e => e.2.createdAt) rows))).map
    Prod.fst

/-- The `SELECT` of the locked events. -/
def selectClaimed (db : BrowserDb) (ids : List ℕ) : List ClaimedVisit :=
  orderBy (fun e => e.2.timestamp) (db.events.select fun i v => i ∈ ids ∧ v.probeTag = none)

/-- The two loops over the claimed events: the tables after them and the events that stay. -/
def skipDisengaged (fmt2 : ℚ → String) (settings : BrowserClaimSettings) (db : BrowserDb)
    (events : List ClaimedVisit) : BrowserDb × List ClaimedVisit :=
  let reasonOf := fun e : ClaimedVisit =>
    e.2.skipReason fmt2 settings.scrollDepthThreshold settings.longDwellBypassMs
  let keep := events.filter fun e => (reasonOf e).isNone
  let skipped := events.filterMap fun e => (reasonOf e).map fun reason => (e.1, reason)
  let db := skipped.foldl (fun d s => d.updateQueue [s.1] (QueueRow.skip s.2)) db
  (db.markEnriched (skipped.map Prod.fst), keep)

/-- `claim_pending_browser_events`. -/
def claimPendingBrowserEvents (fmt2 : ℚ → String) (settings : BrowserClaimSettings)
    (db : BrowserDb) (worker : String) (maxClaimBatch : Option ℤ) (now : ℤ) :
    ClaimOutcome ℕ ClaimedVisit BrowserDb :=
  let ids := db.claimCandidates (now - settings.staleLockTimeoutMs)
    (now - settings.staleSecs * 1000) (sqlLimit (maxClaimBatch.getD (-1)))
  let db := db.updateQueue ids (QueueRow.lock now worker)
  if ids = [] then ⟨ids, [], db⟩
  else
    let (db, keep) := skipDisengaged fmt2 settings db (db.selectClaimed ids)
    ⟨ids, chunkByTimeGap keep 300000, db⟩

/-- The queue row of an event and the event. -/
def look (db : BrowserDb) (i : ℕ) : Option BrowserQueueRow × Option BrowserVisit :=
  (db.queue.get? i, db.events.get? i)

end BrowserDb

/-- The row was claimable and now has the claim's lock. -/
def VisitTaken (before now : ℤ) (worker : String) (r r' : BrowserQueueRow) : Prop :=
  r.toQueueRow.Claimable before ∧ r' = r.set (QueueRow.lock now worker)

/-- The row was claimable, got the claim's lock and was skipped. -/
def VisitSkipped (before now : ℤ) (worker : String) (r r' : BrowserQueueRow) : Prop :=
  r.toQueueRow.Claimable before ∧
    ∃ reason, r' = (r.set (QueueRow.lock now worker)).set (QueueRow.skip reason)

namespace BrowserDb

variable {db : BrowserDb} {ids : List ℕ} {i : ℕ} {staleLockMs staleThresholdMs now : ℤ}
  {limit : Option ℕ} {worker : String} {fmt2 : ℚ → String} {settings : BrowserClaimSettings}

theorem updateQueue_get? (db : BrowserDb) (ids : List ℕ) (f : QueueRow → QueueRow) (j : ℕ) :
    (db.updateQueue ids f).queue.get? j =
      (db.queue.get? j).map fun r => if j ∈ ids then r.set f else r :=
  Table.get?_update _ _ _ _

theorem markEnriched_get? (db : BrowserDb) (ids : List ℕ) (j : ℕ) :
    (db.markEnriched ids).events.get? j =
      (db.events.get? j).map fun v => if j ∈ ids then { v with enriched := true } else v :=
  Table.get?_update _ _ _ _

theorem nodup_claimCandidates :
    (db.claimCandidates staleLockMs staleThresholdMs limit).Nodup := by
  have hrows := Table.nodup_select db.queue fun i q =>
    q.toQueueRow.Claimable staleLockMs ∧ db.Settled staleThresholdMs i
  exact (nodup_map_orderBy (nodup_map_orderBy hrows)).sublist ((limitTo_sublist _ _).map _)

theorem mem_claimCandidates (h : i ∈ db.claimCandidates staleLockMs staleThresholdMs limit) :
    (∃ q, db.queue.get? i = some q ∧ q.toQueueRow.Claimable staleLockMs) ∧
      ∃ v, db.events.get? i = some v ∧ v.probeTag = none := by
  obtain ⟨⟨i, q⟩, hq, rfl⟩ := List.mem_map.mp h
  have hrow := mem_of_mem_limitTo hq
  rw [mem_orderBy, mem_orderBy, Table.mem_select] at hrow
  obtain ⟨hget, hclaim, v, hv, -, hprobe⟩ := hrow
  exact ⟨⟨q, hget, hclaim⟩, v, hv, hprobe⟩

theorem mem_selectClaimed {e : ClaimedVisit} :
    e ∈ db.selectClaimed ids ↔
      db.events.get? e.1 = some e.2 ∧ e.1 ∈ ids ∧ e.2.probeTag = none := by
  rw [selectClaimed, mem_orderBy]
  exact Table.mem_select

theorem nodup_selectClaimed : ((db.selectClaimed ids).map Prod.fst).Nodup :=
  nodup_map_orderBy (Table.nodup_select _ _)

theorem lock_handsOut (db : BrowserDb) (staleLockMs staleThresholdMs now : ℤ)
    (limit : Option ℕ) (worker : String) :
    HandsOut (VisitTaken staleLockMs now worker) (VisitSkipped staleLockMs now worker) Prod.fst
      (fun e : ClaimedVisit => some e.2) db.look
      (db.updateQueue (db.claimCandidates staleLockMs staleThresholdMs limit)
        (QueueRow.lock now worker)).look
      (db.claimCandidates staleLockMs staleThresholdMs limit)
      ((db.updateQueue (db.claimCandidates staleLockMs staleThresholdMs limit)
        (QueueRow.lock now worker)).selectClaimed
          (db.claimCandidates staleLockMs staleThresholdMs limit)) := by
  apply HandsOut.lock nodup_claimCandidates
  · rw [List.perm_ext_iff_of_nodup nodup_selectClaimed nodup_claimCandidates]
    intro i
    rw [List.mem_map]
    constructor
    · rintro ⟨e, he, rfl⟩
      exact (mem_selectClaimed.mp he).2.1
    · intro hi
      obtain ⟨-, v, hv, hprobe⟩ := mem_claimCandidates hi
      exact ⟨(i, v), mem_selectClaimed.mpr ⟨hv, hi, hprobe⟩, rfl⟩
  · intro e he
    obtain ⟨hevent, hmem, -⟩ := mem_selectClaimed.mp he
    obtain ⟨⟨q, hq, hclaim⟩, -⟩ := mem_claimCandidates hmem
    refine ⟨q, q.set (QueueRow.lock now worker), ?_, ?_, hclaim, rfl⟩
    · rw [look, hq]
      exact congrArg (Prod.mk _) hevent
    · rw [look, updateQueue_get?, hq, hevent]
      simp [hmem]
  · intro i hi
    rw [look, updateQueue_get?]
    simp only [hi, if_false, Option.map_id']
    rfl

section Skips

variable {skipped : List (ℕ × String)}

theorem foldl_skip_events (skipped : List (ℕ × String)) (db : BrowserDb) :
    (skipped.foldl (fun d s => d.updateQueue [s.1] (QueueRow.skip s.2)) db).events =
      db.events := by
  induction skipped generalizing db with
  | nil => rfl
  | cons s skipped ih => exact ih _

theorem foldl_skip_of_not_mem (db : BrowserDb) (h : i ∉ skipped.map Prod.fst) :
    (skipped.foldl (fun d s => d.updateQueue [s.1] (QueueRow.skip s.2)) db).queue.get? i =
      db.queue.get? i := by
  induction skipped generalizing db with
  | nil => rfl
  | cons s skipped ih =>
    rw [List.map_cons, List.mem_cons, not_or] at h
    rw [List.foldl_cons, ih _ h.2, updateQueue_get?]
    simp [h.1]

theorem foldl_skip_of_mem (db : BrowserDb) {reason : String} (hnodup : (skipped.map Prod.fst).Nodup)
    (h : (i, reason) ∈ skipped) :
    (skipped.foldl (fun d s => d.updateQueue [s.1] (QueueRow.skip s.2)) db).queue.get? i =
      (db.queue.get? i).map (BrowserQueueRow.set (QueueRow.skip reason)) := by
  induction skipped generalizing db with
  | nil => simp at h
  | cons s skipped ih =>
    obtain ⟨hs, hnodup⟩ := List.nodup_cons.mp hnodup
    rw [List.foldl_cons]
    rcases List.mem_cons.mp h with rfl | h
    · rw [foldl_skip_of_not_mem _ hs, updateQueue_get?]
      simp
    · have hne : i ≠ s.1 := by
        intro heq
        exact hs (heq ▸ List.mem_map_of_mem h)
      rw [ih _ hnodup h, updateQueue_get?]
      simp [hne]

theorem skip_handsOut (fmt2 : ℚ → String) (settings : BrowserClaimSettings)
    {locked : List ℕ} {events : List ClaimedVisit}
    {before : ℕ → Option BrowserQueueRow × Option BrowserVisit}
    (h : HandsOut (VisitTaken staleLockMs now worker) (VisitSkipped staleLockMs now worker)
      Prod.fst (fun e : ClaimedVisit => some e.2) before db.look locked events) :
    HandsOut (VisitTaken staleLockMs now worker) (VisitSkipped staleLockMs now worker) Prod.fst
      (fun e : ClaimedVisit => some e.2) before (skipDisengaged fmt2 settings db events).1.look
      locked (skipDisengaged fmt2 settings db events).2 := by
  let reasonOf := fun e : ClaimedVisit =>
    e.2.skipReason fmt2 settings.scrollDepthThreshold settings.longDwellBypassMs
  let skipped := events.filterMap fun e => (reasonOf e).map fun reason => (e.1, reason)
  have hmem : ∀ i reason, (i, reason) ∈ skipped ↔
      ∃ e ∈ events, reasonOf e = some reason ∧ e.1 = i := by
    intro i reason
    simp only [skipped, List.mem_filterMap, Option.map_eq_some_iff, Prod.mk.injEq]
    constructor
    · rintro ⟨e, he, r, hr, rfl, rfl⟩
      exact ⟨e, he, hr, rfl⟩
    · rintro ⟨e, he, hr, rfl⟩
      exact ⟨e, he, reason, hr, rfl, rfl⟩
  have hids : skipped.map Prod.fst =
      (events.filter fun e => (reasonOf e).isSome).map Prod.fst := by
    simp only [skipped]
    clear h hmem skipped
    induction events with
    | nil => rfl
    | cons e events ih =>
      cases hr : reasonOf e <;> simp [hr, ih]
  have hnodup : (skipped.map Prod.fst).Nodup := by
    rw [hids]
    exact h.once.sublist (List.filter_sublist.map _)
  apply h.filter
  · intro e he hpe r r' htaken hr'
    obtain ⟨reason, hreason⟩ : ∃ reason, reasonOf e = some reason :=
      Option.isSome_iff_exists.mp (by simpa [reasonOf] using hpe)
    have hskip := (hmem e.1 reason).mpr ⟨e, he, hreason, rfl⟩
    have hrow : db.queue.get? e.1 = some r' := hr'
    refine ⟨r'.set (QueueRow.skip reason), ?_, htaken.1, reason, by rw [htaken.2]⟩
    have hget := foldl_skip_of_mem db hnodup hskip
    rw [hrow] at hget
    exact hget
  · intro i hi
    have hnot : i ∉ skipped.map Prod.fst := by
      intro hskipped
      obtain ⟨⟨i, reason⟩, hs, rfl⟩ := List.mem_map.mp hskipped
      obtain ⟨e, he, hreason, heq⟩ := (hmem i reason).mp hs
      exact hi e he (by simp [reasonOf] at hreason; simp [hreason]) heq.symm
    have hqueue := foldl_skip_of_not_mem db hnot
    have hevents : (skipDisengaged fmt2 settings db events).1.events.get? i = db.events.get? i := by
      show ((skipped.foldl _ db).markEnriched (skipped.map Prod.fst)).events.get? i = _
      rw [markEnriched_get?, foldl_skip_events]
      simp [hnot]
    exact Prod.ext hqueue hevents

end Skips

/-- One call of the browser claim hands out what it locks. -/
theorem claimPendingBrowserEvents_claims (fmt2 : ℚ → String) (settings : BrowserClaimSettings)
    (db : BrowserDb) (worker : String) (maxClaimBatch : Option ℤ) (now : ℤ) :
    Claims (VisitTaken (now - settings.staleLockTimeoutMs) now worker)
      (VisitSkipped (now - settings.staleLockTimeoutMs) now worker) Prod.fst
      (fun e : ClaimedVisit => some e.2) look maxClaimBatch db
      (db.claimPendingBrowserEvents fmt2 settings worker maxClaimBatch now) := by
  have hlock := lock_handsOut db (now - settings.staleLockTimeoutMs)
    (now - settings.staleSecs * 1000) now (sqlLimit (maxClaimBatch.getD (-1))) worker
  have hskip := skip_handsOut fmt2 settings hlock
  constructor
  · unfold claimPendingBrowserEvents
    dsimp only
    split_ifs with hnone
    · rw [hnone] at hlock ⊢
      have hread : (db.updateQueue [] (QueueRow.lock now worker)).selectClaimed [] = [] := by
        apply List.eq_nil_iff_forall_not_mem.mpr
        intro e he
        simpa using (mem_selectClaimed.mp he).2.1
      rwa [hread] at hlock
    · rwa [chunkByTimeGap_flatten]
  · rintro n rfl hn
    have hlimit : sqlLimit n = some n.toNat := if_pos hn
    have hlength : (db.claimCandidates (now - settings.staleLockTimeoutMs)
        (now - settings.staleSecs * 1000) (some n.toNat)).length ≤ n.toNat := by
      rw [claimCandidates, List.length_map]
      exact length_limitTo _ _
    unfold claimPendingBrowserEvents
    rw [Option.getD_some, hlimit]
    dsimp only
    split_ifs <;> (dsimp only; omega)

end BrowserDb

end Hippo
