import Hippo.AgenticEnrichment
import Hippo.OpencodePolling

/-!
# The claim of opencode segments

`claim_pending_opencode_segments` locks the pending rows of one `cwd` after the other,
reads them and filters them by eligibility. Each lock is committed before the filter runs,
and an exception of the filter ends the whole claim.
-/
namespace Hippo

namespace Json

/-- A value of which Python's `(value or 0) > 0` is true. -/
def isPositive : Option Json → Bool
  | some (bool b) => b
  | some (num q) => 0 < q
  | _ => false

/-- A value that `(value or 0) > 0` can compare: none, a falsy one, a boolean or a number. -/
def isComparable : Option Json → Bool
  | none => true
  | some (bool _) => true
  | some (num _) => true
  | some v => !v.truthy

/-- Every value up to the first positive one can be compared. -/
def Countable (members : List (String × Json)) : List String → Prop
  | [] => True
  | k :: ks => isComparable (members.lookup k) = true ∧
      (isPositive (members.lookup k) = true ∨ Countable members ks)

/-- The shape that the eligibility test assumes of a session's diffs: nothing, or a
dictionary of counts. -/
def ReadableDiffs (diffs : Json) : Prop :=
  diffs.truthy = false ∨
    ∃ members, diffs = obj members ∧ Countable members ["additions", "deletions", "files"]

theorem positive_returns_iff (v : Option Json) :
    (∃ b, positive v = .ok b) ↔ isComparable v = true := by
  unfold positive isComparable
  split
  · simp
  · rename_i v
    cases v <;> simp [truthy] <;> grind

theorem positive_eq {v : Option Json} {b : Bool} (h : positive v = .ok b) : isPositive v = b := by
  unfold positive at h
  unfold isPositive
  split at h
  · cases h
    rfl
  · rename_i v
    cases v <;> simp_all [truthy] <;> grind

theorem anyPositive_returns_iff (members : List (String × Json)) (keys : List String) :
    (∃ b, anyPositive members keys = .ok b) ↔ Countable members keys := by
  induction keys with
  | nil => simp [anyPositive, Countable]
  | cons k ks ih =>
    rw [Countable, ← positive_returns_iff, ← ih]
    cases hp : positive (members.lookup k) with
    | error e => simp [anyPositive, hp, bind, Except.bind]
    | ok b =>
      rw [positive_eq hp]
      cases b with
      | true => simp [anyPositive, hp, bind, Except.bind, pure, Except.pure]
      | false => simp [anyPositive, hp, bind, Except.bind]

/-- The eligibility test reads exactly the diffs of the shape it assumes. -/
theorem hasDiffs_returns_iff (diffs : Json) :
    (∃ b, diffs.hasDiffs = .ok b) ↔ diffs.ReadableDiffs := by
  unfold hasDiffs ReadableDiffs
  by_cases ht : diffs.truthy = true
  · rw [if_pos ht]
    cases diffs with
    | obj members =>
      simp only [ht, anyPositive_returns_iff, obj.injEq, exists_eq_left', false_or,
        Bool.true_eq_false]
    | _ => simp [ht]
  · simp [ht]

end Json

theorem opencode_eligible_returns_iff {H : Type} (s : AgenticSession H) :
    (∃ v, isEnrichmentEligible .opencode s = .ok v) ↔ s.snapshotDiffs.ReadableDiffs := by
  rw [← Json.hasDiffs_returns_iff]
  cases h : s.snapshotDiffs.hasDiffs with
  | error e => simp [isEnrichmentEligible, h, bind, Except.bind]
  | ok b =>
    have hok : ∃ v, isEnrichmentEligible .opencode s = .ok v := by
      simp only [isEnrichmentEligible, h, bind, Except.bind]
      split <;> exact ⟨_, rfl⟩
    simp [hok]

namespace AgenticDb

variable {H γ : Type} [DecidableEq H]

/-- `_skip_ineligible_opencode_segments`; its commit stands behind the loop. -/
def skipIneligibleOpencodeSegments (db : AgenticDb H γ) :
    List (Claimed H) → Except PyError (List (Claimed H) × AgenticDb H γ)
  | [] => .ok ([], db)
  | seg :: segs =>
    match isEnrichmentEligible .opencode seg.row with
    | .error e => .error e
    | .ok (true, _) => do
      let (eligible, db) ← skipIneligibleOpencodeSegments db segs
      return (seg :: eligible, db)
    | .ok (false, reason) =>
      skipIneligibleOpencodeSegments (db.skipSegment seg reason) segs

/-- The queue row of the session may be claimed, and its session is an opencode one. -/
def ClaimableOpencode (db : AgenticDb H γ) (staleBefore : ℤ) (i : ℕ) (s : AgenticSession H) :
    Prop :=
  db.sessions.get? i = some s ∧ s.harness = .opencode ∧ s.probeTag = none ∧
    ∃ q ∈ db.queue.get? i, q.Claimable staleBefore

/-- `SELECT s.cwd … GROUP BY s.cwd ORDER BY MIN(s.start_time)`. -/
def cwdGroups (db : AgenticDb H γ) (staleBefore : ℤ) : List String :=
  let rows := (db.queue.select fun i q => q.Claimable staleBefore ∧
    ∃ s ∈ db.sessions.get? i, s.harness = .opencode ∧ s.probeTag = none).filterMap
      fun e => db.sessions.get? e.1
  ((orderBy AgenticSession.startTime rows).map AgenticSession.cwd).reverse.dedup.reverse

/-- The loop over the groups; a negative `remaining` is no cap. -/
def claimGroups (now staleBefore : ℤ) (worker : String) :
    List String → ℤ → AgenticDb H γ → Except PyError (List (Claimed H)) × AgenticDb H γ
  | [], _, db => (.ok [], db)
  | cwd :: groups, remaining, db =>
    if remaining = 0 then (.ok [], db)
    else
      let limit := if 0 < remaining then some remaining.toNat else none
      let ids := db.claimCandidates .opencode cwd staleBefore limit
      let db := db.lockSegments ids now worker
      if ids = [] then claimGroups now staleBefore worker groups remaining db
      else match db.skipIneligibleOpencodeSegments (db.selectClaimed .opencode ids) with
        | .error e => (.error e, db)
        | .ok (eligible, db) =>
          let remaining := if 0 < remaining then remaining - eligible.length else remaining
          match claimGroups now staleBefore worker groups remaining db with
          | (.error e, db) => (.error e, db)
          | (.ok more, db) => (.ok (eligible ++ more), db)

/-- `claim_pending_opencode_segments`; each segment it returns is a batch of its own. -/
def claimPendingOpencodeSegments (db : AgenticDb H γ) (worker : String)
    (maxClaimBatch : Option ℤ) (staleLockTimeout now : ℤ) :
    Except PyError (List (Claimed H)) × AgenticDb H γ :=
  let staleBefore := now - staleLockTimeout
  claimGroups now staleBefore worker (db.cwdGroups staleBefore) (maxClaimBatch.getD (-1)) db

section Filter

theorem skipIneligible_returns_iff (db : AgenticDb H γ) (segs : List (Claimed H)) :
    (∃ r, db.skipIneligibleOpencodeSegments segs = .ok r) ↔
      ∀ seg ∈ segs, seg.row.snapshotDiffs.ReadableDiffs := by
  induction segs generalizing db with
  | nil => simp [skipIneligibleOpencodeSegments]
  | cons seg segs ih =>
    rw [List.forall_mem_cons, ← opencode_eligible_returns_iff seg.row]
    cases he : isEnrichmentEligible .opencode seg.row with
    | error e => simp [skipIneligibleOpencodeSegments, he]
    | ok v =>
      obtain ⟨ok, reason⟩ := v
      cases ok with
      | true =>
        have hrest := ih db
        simp only [skipIneligibleOpencodeSegments, he, Except.ok.injEq, exists_eq', true_and]
        rw [← hrest]
        cases db.skipIneligibleOpencodeSegments segs with
        | error e => simp [bind, Except.bind]
        | ok r => simp [bind, Except.bind, pure, Except.pure]
      | false =>
        simp only [skipIneligibleOpencodeSegments, he, Except.ok.injEq, exists_eq', true_and]
        exact ih _

end Filter

/-- Only rows of one `cwd` changed, and none moved to another one. -/
structure OnlyGroup (cwd : String) (db db' : AgenticDb H γ) : Prop where
  cwds : ∀ i, (db'.sessions.get? i).map AgenticSession.cwd =
    (db.sessions.get? i).map AgenticSession.cwd
  rows : ∀ i, (db.sessions.get? i).map AgenticSession.cwd ≠ some cwd →
    db'.sessions.get? i = db.sessions.get? i ∧ db'.queue.get? i = db.queue.get? i

namespace OnlyGroup

variable {cwd : String} {db db' db'' : AgenticDb H γ}

omit [DecidableEq H] in
theorem refl : OnlyGroup cwd db db := ⟨fun _ => rfl, fun _ _ => ⟨rfl, rfl⟩⟩

omit [DecidableEq H] in
theorem trans (h : OnlyGroup cwd db db') (h' : OnlyGroup cwd db' db'') :
    OnlyGroup cwd db db'' where
  cwds := fun i => (h'.cwds i).trans (h.cwds i)
  rows := by
    intro i hi
    have hi' : (db'.sessions.get? i).map AgenticSession.cwd ≠ some cwd := by rwa [h.cwds i]
    have hfirst := h.rows i hi
    have hsecond := h'.rows i hi'
    exact ⟨hsecond.1.trans hfirst.1, hsecond.2.trans hfirst.2⟩

omit [DecidableEq H] in
theorem lockSegments {ids : List ℕ} {now : ℤ} {worker : String}
    (hids : ∀ i ∈ ids, (db.sessions.get? i).map AgenticSession.cwd = some cwd) :
    OnlyGroup cwd db (db.lockSegments ids now worker) where
  cwds := fun _ => rfl
  rows := by
    intro i hi
    have hnot : i ∉ ids := fun h => hi (hids i h)
    refine ⟨rfl, ?_⟩
    rw [lockSegments_queue_get?]
    simp [hnot]

theorem skipSegment {seg : Claimed H} (reason : String)
    (hseg : (db.sessions.get? seg.id).map AgenticSession.cwd = some cwd) :
    OnlyGroup cwd db (db.skipSegment seg reason) where
  cwds := by
    intro i
    rw [skipSegment_sessions_get?]
    by_cases h : i = seg.id
    · rw [if_pos h, Option.map_map]
      rfl
    · rw [if_neg h]
  rows := by
    intro i hi
    have hne : i ≠ seg.id := fun h => hi (h ▸ hseg)
    rw [skipSegment_sessions_get?, skipSegment_queue_get?, if_neg hne, if_neg hne]
    exact ⟨rfl, rfl⟩

theorem skipIneligible {segs eligible : List (Claimed H)}
    (hsegs : ∀ seg ∈ segs, (db.sessions.get? seg.id).map AgenticSession.cwd = some cwd)
    (h : db.skipIneligibleOpencodeSegments segs = .ok (eligible, db')) :
    OnlyGroup cwd db db' := by
  induction segs generalizing db eligible with
  | nil =>
    cases h
    exact refl
  | cons seg segs ih =>
    obtain ⟨hseg, hrest⟩ := List.forall_mem_cons.mp hsegs
    cases he : isEnrichmentEligible .opencode seg.row with
    | error e =>
      rw [skipIneligibleOpencodeSegments, he] at h
      cases h
    | ok v =>
      obtain ⟨ok, reason⟩ := v
      cases ok with
      | true =>
        simp only [skipIneligibleOpencodeSegments, he] at h
        cases hr : db.skipIneligibleOpencodeSegments segs with
        | error e =>
          rw [hr] at h
          cases h
        | ok r =>
          rw [hr] at h
          cases h
          exact ih hrest hr
      | false =>
        simp only [skipIneligibleOpencodeSegments, he] at h
        have hskip := skipSegment reason hseg
        refine hskip.trans (ih ?_ h)
        intro seg' hseg'
        rw [hskip.cwds]
        exact hrest seg' hseg'

omit [DecidableEq H] in
/-- What another group may claim is as it was. -/
theorem claimable_iff (h : OnlyGroup cwd db db') {staleBefore : ℤ} {i : ℕ}
    {s : AgenticSession H} (hs : s.cwd ≠ cwd) :
    db'.ClaimableOpencode staleBefore i s ↔ db.ClaimableOpencode staleBefore i s := by
  unfold ClaimableOpencode
  constructor
  · rintro ⟨hi, hrest⟩
    have hcwd : (db.sessions.get? i).map AgenticSession.cwd ≠ some cwd := by
      rw [← h.cwds i, hi]
      simpa using hs
    obtain ⟨hrow, hqueue⟩ := h.rows i hcwd
    exact ⟨hrow ▸ hi, by rwa [hqueue] at hrest⟩
  · rintro ⟨hi, hrest⟩
    have hcwd : (db.sessions.get? i).map AgenticSession.cwd ≠ some cwd := by
      rw [hi]
      simpa using hs
    obtain ⟨hrow, hqueue⟩ := h.rows i hcwd
    exact ⟨hrow.trans hi, by rwa [hqueue]⟩

end OnlyGroup

section Groups

variable {db : AgenticDb H γ} {now staleBefore : ℤ} {worker cwd : String} {limit : Option ℕ}

omit [DecidableEq H] in
theorem mem_cwdGroups : cwd ∈ db.cwdGroups staleBefore ↔
    ∃ i s, db.ClaimableOpencode staleBefore i s ∧ s.cwd = cwd := by
  simp only [cwdGroups, List.mem_reverse, List.mem_dedup, List.mem_map, mem_orderBy,
    List.mem_filterMap]
  constructor
  · rintro ⟨s, ⟨⟨i, q⟩, hq, hs⟩, rfl⟩
    obtain ⟨hqueue, hclaim, s', hs', hh, hp⟩ := Table.mem_select.mp hq
    cases hs.symm.trans hs'
    exact ⟨i, s, ⟨hs, hh, hp, q, hqueue, hclaim⟩, rfl⟩
  · rintro ⟨i, s, ⟨hs, hh, hp, q, hq, hclaim⟩, rfl⟩
    exact ⟨s, ⟨(i, q), Table.mem_select.mpr ⟨hq, hclaim, s, hs, hh, hp⟩, hs⟩, rfl⟩

omit [DecidableEq H] in
theorem nodup_cwdGroups (db : AgenticDb H γ) (staleBefore : ℤ) :
    (db.cwdGroups staleBefore).Nodup :=
  List.nodup_reverse.mpr (List.nodup_dedup _)

omit [DecidableEq H] in
theorem candidates_cwd {i : ℕ} (hi : i ∈ db.claimCandidates .opencode cwd staleBefore limit) :
    (db.sessions.get? i).map AgenticSession.cwd = some cwd := by
  obtain ⟨q, -, -, s, hs, hcwd, -⟩ := mem_claimCandidates hi
  rw [hs, Option.map_some, hcwd]

omit [DecidableEq H] in
theorem onlyGroup_of_lock : OnlyGroup cwd db
    (db.lockSegments (db.claimCandidates .opencode cwd staleBefore limit) now worker) :=
  OnlyGroup.lockSegments fun _ hi => candidates_cwd hi

omit [DecidableEq H] in
/-- The filter of a group sees rows that could be claimed, ... -/
theorem claimable_of_selected {seg : Claimed H}
    (hseg : seg ∈ (db.lockSegments (db.claimCandidates .opencode cwd staleBefore limit) now
      worker).selectClaimed .opencode (db.claimCandidates .opencode cwd staleBefore limit)) :
    db.ClaimableOpencode staleBefore seg.id seg.row ∧ seg.row.cwd = cwd := by
  obtain ⟨hrow, hi, hh, hp⟩ := mem_selectClaimed.mp hseg
  obtain ⟨q, hq, hclaim, s, hs, hcwd, -⟩ := mem_claimCandidates hi
  cases hrow.symm.trans hs
  exact ⟨⟨hrow, List.mem_singleton.mp hh, hp, q, hq, hclaim⟩, hcwd⟩

omit [DecidableEq H] in
variable (now worker) in
/-- ... and without a cap all of them. -/
theorem selected_of_claimable {i : ℕ} {s : AgenticSession H}
    (h : db.ClaimableOpencode staleBefore i s) (hcwd : s.cwd = cwd) :
    ⟨i, s⟩ ∈ (db.lockSegments (db.claimCandidates .opencode cwd staleBefore none) now
      worker).selectClaimed .opencode (db.claimCandidates .opencode cwd staleBefore none) := by
  obtain ⟨hs, hh, hp, q, hq, hclaim⟩ := h
  have hsource : s.harness ∈ ClaimSource.opencode.harnesses := List.mem_singleton.mpr hh
  exact mem_selectClaimed.mpr
    ⟨hs, claimCandidates_complete hq hclaim ⟨s, hs, hcwd, hsource, hp⟩, hsource, hp⟩

/-- The group's filter and what it leaves to the later groups. -/
theorem onlyGroup_of_filter {eligible : List (Claimed H)} {db' : AgenticDb H γ}
    (h : (db.lockSegments (db.claimCandidates .opencode cwd staleBefore limit) now
      worker).skipIneligibleOpencodeSegments
        ((db.lockSegments (db.claimCandidates .opencode cwd staleBefore limit) now
          worker).selectClaimed .opencode (db.claimCandidates .opencode cwd staleBefore limit)) =
      .ok (eligible, db')) : OnlyGroup cwd db db' := by
  refine onlyGroup_of_lock.trans (OnlyGroup.skipIneligible ?_ h)
  intro seg hseg
  have hrow := (mem_selectClaimed.mp hseg).1
  rw [hrow, Option.map_some, (claimable_of_selected hseg).2]

/-- A claim returns when every row it may lock can be read. -/
theorem claimGroups_returns {groups : List String} (remaining : ℤ) (hnodup : groups.Nodup)
    (h : ∀ i s, db.ClaimableOpencode staleBefore i s → s.cwd ∈ groups →
      s.snapshotDiffs.ReadableDiffs) :
    ∃ segs, (claimGroups now staleBefore worker groups remaining db).1 = .ok segs := by
  induction groups generalizing db remaining with
  | nil => exact ⟨[], rfl⟩
  | cons cwd groups ih =>
    obtain ⟨hnew, hnodup⟩ := List.nodup_cons.mp hnodup
    have hlater : ∀ db', OnlyGroup cwd db db' → ∀ i s, db'.ClaimableOpencode staleBefore i s →
        s.cwd ∈ groups → s.snapshotDiffs.ReadableDiffs := by
      intro db' hdb' i s hs hcwd
      have hne : s.cwd ≠ cwd := fun heq => hnew (heq ▸ hcwd)
      exact h i s ((hdb'.claimable_iff hne).mp hs) (List.mem_cons_of_mem _ hcwd)
    unfold claimGroups
    by_cases hzero : remaining = 0
    · exact ⟨[], by rw [if_pos hzero]⟩
    · rw [if_neg hzero]
      dsimp only
      by_cases hids : db.claimCandidates .opencode cwd staleBefore
          (if 0 < remaining then some remaining.toNat else none) = []
      · rw [if_pos hids]
        exact ih remaining hnodup (hlater _ onlyGroup_of_lock)
      · rw [if_neg hids]
        obtain ⟨⟨eligible, db'⟩, hfilter⟩ := (skipIneligible_returns_iff _ _).mpr
          fun seg hseg => h seg.id seg.row (claimable_of_selected hseg).1
            (by rw [(claimable_of_selected hseg).2]; exact List.mem_cons_self)
        obtain ⟨more, hmore⟩ := ih
          (if 0 < remaining then remaining - eligible.length else remaining) hnodup
            (hlater _ (onlyGroup_of_filter hfilter))
        rw [hfilter]
        dsimp only
        generalize hrest : claimGroups now staleBefore worker groups _ db' = rest at hmore
        obtain ⟨result, db''⟩ := rest
        cases hmore
        exact ⟨_, rfl⟩

/-- A claim without a cap that returns has read every row it could lock. -/
theorem readable_of_claimGroups {groups : List String} {remaining : ℤ} {segs : List (Claimed H)}
    (hcap : remaining < 0) (hnodup : groups.Nodup)
    (h : (claimGroups now staleBefore worker groups remaining db).1 = .ok segs) :
    ∀ i s, db.ClaimableOpencode staleBefore i s → s.cwd ∈ groups →
      s.snapshotDiffs.ReadableDiffs := by
  induction groups generalizing db segs with
  | nil =>
    intro i s _ hcwd
    cases hcwd
  | cons cwd groups ih =>
    obtain ⟨hnew, hnodup⟩ := List.nodup_cons.mp hnodup
    have hneg : ¬ 0 < remaining := by omega
    intro i s hs hcwd
    simp only [claimGroups, if_neg hcap.ne, if_neg hneg] at h
    by_cases hids : db.claimCandidates .opencode cwd staleBefore none = []
    · rw [if_pos hids] at h
      rcases List.mem_cons.mp hcwd with heq | hlater
      · have hmem := (mem_selectClaimed.mp (selected_of_claimable now worker hs heq)).2.1
        rw [hids] at hmem
        cases hmem
      · have hne : s.cwd ≠ cwd := fun heq => hnew (heq ▸ hlater)
        exact ih hnodup h i s ((onlyGroup_of_lock.claimable_iff hne).mpr hs) hlater
    · rw [if_neg hids] at h
      cases hfilter : (db.lockSegments (db.claimCandidates .opencode cwd staleBefore none) now
          worker).skipIneligibleOpencodeSegments
            ((db.lockSegments (db.claimCandidates .opencode cwd staleBefore none) now
              worker).selectClaimed .opencode
                (db.claimCandidates .opencode cwd staleBefore none)) with
      | error e =>
        rw [hfilter] at h
        cases h
      | ok r =>
        obtain ⟨eligible, db'⟩ := r
        rw [hfilter] at h
        rcases List.mem_cons.mp hcwd with heq | hlater
        · exact (skipIneligible_returns_iff _ _).mp ⟨_, hfilter⟩ _
            (selected_of_claimable now worker hs heq)
        · have hne : s.cwd ≠ cwd := fun heq => hnew (heq ▸ hlater)
          have hs' := ((onlyGroup_of_filter hfilter).claimable_iff hne).mpr hs
          dsimp only at h
          generalize hrest : claimGroups now staleBefore worker groups remaining db' = rest at h
          obtain ⟨result, db''⟩ := rest
          cases result with
          | error e => cases h
          | ok more => exact ih hnodup (congrArg Prod.fst hrest) i s hs' hlater

end Groups

end AgenticDb

section Claims

variable {H γ : Type} [DecidableEq H]
open AgenticDb

/-- The eligibility test reads the row of a source session exactly when the session's diffs are a
dictionary of counts or nothing. A claim returns when that holds of every row it may lock, and
without a cap only then. -/
theorem opencode_claim_returns_iff (env : Rendering H) (reader : OpencodeReader) (id : String)
    (source : SourceSession) (context : OpencodeContext) (db : AgenticDb H γ) (worker : String)
    (maxClaimBatch : Option ℤ) (staleLockTimeout now : ℤ) :
    (∀ r, ((opencodeUpsert env ((reader.metadata id source).withContext context)).apply
        db).sessions.get? ((opencodeUpsert env
          ((reader.metadata id source).withContext context)).target db) = some r →
      ((∃ v, isEnrichmentEligible .opencode r = .ok v) ↔
        ((reader.storedDiffs source.summaryDiffs).getD .null).ReadableDiffs)) ∧
    ((∀ i r, db.ClaimableOpencode (now - staleLockTimeout) i r →
        r.snapshotDiffs.ReadableDiffs) →
      ∃ segs, (db.claimPendingOpencodeSegments worker maxClaimBatch staleLockTimeout now).1 =
        .ok segs) ∧
    ((∃ segs, (db.claimPendingOpencodeSegments worker none staleLockTimeout now).1 = .ok segs) ↔
      ∀ i r, db.ClaimableOpencode (now - staleLockTimeout) i r →
        r.snapshotDiffs.ReadableDiffs) := by
  refine ⟨?_, ?_, ?_, ?_⟩
  · intro r hr
    rw [Upsert.apply_sessions_get?, if_pos rfl] at hr
    have hdiffs : r.snapshotDiffs = (reader.storedDiffs source.summaryDiffs).getD .null := by
      cases hold : db.sessions.get? ((opencodeUpsert env
          ((reader.metadata id source).withContext context)).target db) with
      | none =>
        rw [hold] at hr
        cases hr
        rfl
      | some old =>
        rw [hold] at hr
        cases hr
        rfl
    rw [opencode_eligible_returns_iff, hdiffs]
  · intro hread
    exact claimGroups_returns _ (nodup_cwdGroups db _) fun i s hs _ => hread i s hs
  · rintro ⟨segs, hsegs⟩ i r hr
    exact readable_of_claimGroups (by decide) (nodup_cwdGroups db _) hsegs i r hr
      (mem_cwdGroups.mpr ⟨i, r, hr, rfl⟩)
  · intro hread
    exact claimGroups_returns _ (nodup_cwdGroups db _) fun i s hs _ => hread i s hs

/-- A parser that knows one text: a list with one object, as opencode stores file diffs. -/
def listReader : OpencodeReader where
  parseJson := fun text => if text = "[{}]" then some (.arr [.obj []]) else none
  redact := fun text => text

/-- A session whose diffs are a list of files. -/
def listedSession : SourceSession where
  directory := "/work"
  timeCreated := 1
  timeUpdated := 2
  summaryDiffs := some "[{}]"

/-- Once it is stored the eligibility test and with it the claim raise. -/
theorem listed_diffs_block_claims :
    let db : AgenticDb (List String) Unit :=
      (opencodeUpsert Opencode.promptsHash (listReader.read "s" listedSession)).apply
        AgenticDb.empty
    (∃ r, db.sessions.get? 1 = some r ∧
      isEnrichmentEligible .opencode r = .error .attributeError) ∧
    (db.claimPendingOpencodeSegments "brain" none 300000 1000000).1 = .error .attributeError :=
  ⟨⟨_, rfl, rfl⟩, rfl⟩

end Claims

end Hippo
