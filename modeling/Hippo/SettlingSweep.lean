import Hippo.AgenticRuns
import Hippo.WindowedQueue
import Mathlib.Order.Filter.AtTopBot.Archimedean
import Mathlib.Order.Filter.AtTopBot.Group
import Mathlib.Data.Int.ConditionallyCompleteOrder

/-!
# The settling sweep over many ticks

With no other component at work the sweep serves the drifted rows, in the order of their
`end_time`, through a window of four times its batch. Rows whose file is missing or was just
modified are the ones that are not ready.
-/
namespace Hippo.AgenticDb
open WindowedQueue

variable {H γ : Type} [DecidableEq H]

/-- The drifted rows with their files, as the sweep orders them. -/
def drifted (db : AgenticDb H γ) : List (ℕ × String) :=
  (orderBy (fun e => e.2.endTime) (db.sessions.select db.SettlingCandidate)).map
    fun e => (e.1, e.2.sourceFile)

/-- The file exists and has been idle for the settling time. -/
def isSettled (mtime : String → Option ℤ) (cutoff : ℤ) (row : ℕ × String) : Bool :=
  (mtime row.2).any fun t => t ≤ cutoff

/-- `run_settling_sweep`. -/
def runSettlingSweep (db : AgenticDb H γ) (maxPerTick : ℕ) (mtime : String → Option ℤ)
    (now : ℤ) : AgenticDb H γ :=
  settle maxPerTick mtime (now - Agentic.settleMs) (db.settlingCandidates maxPerTick) 0 db

/-- The database after a number of ticks, the next of which runs at `now t`. -/
def ticks (db : AgenticDb H γ) (maxPerTick : ℕ) (mtime : String → Option ℤ) (now : ℕ → ℤ) :
    ℕ → AgenticDb H γ
  | 0 => db
  | t + 1 => (db.ticks maxPerTick mtime now t).runSettlingSweep maxPerTick mtime (now t)

section Tick

variable {db : AgenticDb H γ} {maxPerTick : ℕ} {mtime : String → Option ℤ}

theorem settlingCandidates_eq (db : AgenticDb H γ) (maxPerTick : ℕ) :
    db.settlingCandidates maxPerTick = db.drifted.take (maxPerTick * 4) := by
  simp only [settlingCandidates, drifted, limitTo, Option.elim_some, List.map_take]

theorem mem_drifted {i : ℕ} {file : String} : (i, file) ∈ db.drifted ↔
    ∃ s, db.sessions.get? i = some s ∧ db.SettlingCandidate i s ∧ s.sourceFile = file := by
  simp only [drifted, List.mem_map, mem_orderBy]
  constructor
  · rintro ⟨⟨j, s⟩, hs, heq⟩
    cases heq
    exact ⟨s, (Table.mem_select.mp hs).1, (Table.mem_select.mp hs).2, rfl⟩
  · rintro ⟨s, hs, hc, rfl⟩
    exact ⟨(i, s), Table.mem_select.mpr ⟨hs, hc⟩, rfl⟩

theorem nodup_drifted (db : AgenticDb H γ) : (db.drifted.map Prod.fst).Nodup := by
  have hselect : ((db.sessions.select db.SettlingCandidate).map Prod.fst).Nodup :=
    db.sessions.nodup.sublist (List.filter_sublist.map Prod.fst)
  have hrows : ((orderBy (fun e => e.2.endTime)
      (db.sessions.select db.SettlingCandidate)).map Prod.fst).Nodup := nodup_map_orderBy hselect
  simpa [drifted, Function.comp_def] using hrows

omit [DecidableEq H] in
/-- The transaction of a tick makes the first settled rows pending, up to the batch. -/
theorem settle_status? {cands : List (ℕ × String)} {cutoff : ℤ} {m : ℕ} (j : ℕ)
    (h : ∀ c ∈ cands, c.1 ∈ db.sessions.keys ∧ db.queue.status? c.1 ≠ some .processing) :
    (settle maxPerTick mtime cutoff cands m db).queue.status? j =
      if j ∈ ((cands.filter (isSettled mtime cutoff)).take (maxPerTick - m)).map Prod.fst then
        some .pending
      else db.queue.status? j := by
  induction cands generalizing m db with
  | nil => simp [settle]
  | cons c cands ih =>
    obtain ⟨i, file⟩ := c
    obtain ⟨⟨hkey, hstatus⟩, hrest⟩ := List.forall_mem_cons.mp h
    by_cases hfull : maxPerTick ≤ m
    · have hnone : maxPerTick - m = 0 := by omega
      simp [settle, hfull, hnone]
    · cases hfile : mtime file with
      | none =>
        have hskip : isSettled mtime cutoff (i, file) = false := by simp [isSettled, hfile]
        rw [settle, if_neg hfull, hfile, List.filter_cons_of_neg (by simp [hskip])]
        exact ih hrest
      | some modified =>
        by_cases hrecent : cutoff < modified
        · have hskip : isSettled mtime cutoff (i, file) = false := by
            simp [isSettled, hfile, hrecent]
          rw [settle, if_neg hfull, hfile, List.filter_cons_of_neg (by simp [hskip])]
          simp only [hrecent, if_true]
          exact ih hrest
        · have hready : isSettled mtime cutoff (i, file) = true := by
            simp [isSettled, hfile, not_lt.mp hrecent]
          obtain ⟨k, hk⟩ : ∃ k, maxPerTick - m = k + 1 := ⟨maxPerTick - m - 1, by omega⟩
          have hk' : maxPerTick - (m + 1) = k := by omega
          have hhead : (db.enqueue i).queue.status? i = some .pending := by
            rw [enqueue_status? db hkey, if_neg hstatus]
          have hother : ∀ j, j ≠ i → (db.enqueue i).queue.status? j = db.queue.status? j := by
            intro j hj
            rw [Queue.status?, enqueue_get? db hkey, if_neg hj, Queue.status?]
          have hrest' : ∀ c ∈ cands, c.1 ∈ (db.enqueue i).sessions.keys ∧
              (db.enqueue i).queue.status? c.1 ≠ some .processing := by
            intro c hc
            refine ⟨by rw [enqueue_sessions]; exact (hrest c hc).1, ?_⟩
            by_cases hci : c.1 = i
            · rw [hci, hhead]
              decide
            · rw [hother c.1 hci]
              exact (hrest c hc).2
          rw [settle, if_neg hfull, hfile, List.filter_cons_of_pos hready, hk,
            List.take_succ_cons, List.map_cons]
          simp only [hrecent, if_false, hstatus, ne_eq, not_false_eq_true, if_true]
          rw [ih hrest', hk']
          by_cases hj : j = i
          · subst hj
            simp [hhead]
          · simp only [List.mem_cons, hj, false_or, hother j hj]

/-- The rows a tick enqueues. -/
def enqueued (db : AgenticDb H γ) (maxPerTick : ℕ) (mtime : String → Option ℤ) (now : ℤ) :
    List (ℕ × String) :=
  served (maxPerTick * 4) maxPerTick (isSettled mtime (now - Agentic.settleMs)) db.drifted

@[simp] theorem runSettlingSweep_sessions (db : AgenticDb H γ) (maxPerTick : ℕ)
    (mtime : String → Option ℤ) (now : ℤ) :
    (db.runSettlingSweep maxPerTick mtime now).sessions = db.sessions :=
  settle_sessions _ _ _ _ _ _

theorem runSettlingSweep_status? (now : ℤ) (j : ℕ) :
    (db.runSettlingSweep maxPerTick mtime now).queue.status? j =
      if j ∈ (db.enqueued maxPerTick mtime now).map Prod.fst then some .pending
      else db.queue.status? j := by
  have hcands : ∀ c ∈ db.drifted.take (maxPerTick * 4),
      c.1 ∈ db.sessions.keys ∧ db.queue.status? c.1 ≠ some .processing := by
    intro c hc
    obtain ⟨s, hs, hcand, -⟩ := mem_drifted.mp (List.mem_of_mem_take hc)
    refine ⟨Table.mem_keys.mpr ⟨s, hs⟩, fun hproc => ?_⟩
    have hstatus := hcand.2.2.2.2.2
    rw [hproc] at hstatus
    simp at hstatus
  rw [runSettlingSweep, settlingCandidates_eq, settle_status? j hcands, Nat.sub_zero]
  rfl

/-- A tick is a round of the queue of drifted rows. -/
theorem drifted_runSettlingSweep (now : ℤ) :
    (db.runSettlingSweep maxPerTick mtime now).drifted =
      WindowedQueue.round (maxPerTick * 4) maxPerTick (isSettled mtime (now - Agentic.settleMs))
        db.drifted := by
  have hcand : ∀ i s, (db.runSettlingSweep maxPerTick mtime now).SettlingCandidate i s ↔
      db.SettlingCandidate i s ∧ i ∉ (db.enqueued maxPerTick mtime now).map Prod.fst := by
    intro i s
    simp only [SettlingCandidate, runSettlingSweep_status?]
    by_cases hi : i ∈ (db.enqueued maxPerTick mtime now).map Prod.fst
    · simp [hi]
    · simp only [hi, if_false, not_false_eq_true, and_true]
  have hselect : (db.runSettlingSweep maxPerTick mtime now).sessions.select
      (db.runSettlingSweep maxPerTick mtime now).SettlingCandidate =
      (db.sessions.select db.SettlingCandidate).filter fun e =>
        e.1 ∉ (db.enqueued maxPerTick mtime now).map Prod.fst := by
    rw [runSettlingSweep_sessions, Table.select, Table.select, List.filter_filter]
    apply List.filter_congr
    intro e _
    simp only [hcand, Bool.decide_and]
    rw [Bool.and_comm]
  rw [drifted, hselect, orderBy_filter, WindowedQueue.round, drifted, List.filter_map]
  congr 1
  apply List.filter_congr
  intro e he
  -- the rowid decides, because a row is listed once
  have hrow : (e.1, e.2.sourceFile) ∈ db.drifted := List.mem_map.mpr ⟨e, he, rfl⟩
  have hiff : e.1 ∈ (db.enqueued maxPerTick mtime now).map Prod.fst ↔
      (e.1, e.2.sourceFile) ∈ db.enqueued maxPerTick mtime now := by
    constructor
    · intro h
      obtain ⟨c, hc, hid⟩ := List.mem_map.mp h
      have heq := List.inj_on_of_nodup_map (nodup_drifted db) (served_subset hc).1 hrow hid
      exact heq ▸ hc
    · exact fun h => List.mem_map.mpr ⟨_, h, rfl⟩
  simp only [hiff, Function.comp_apply]
  exact decide_eq_decide.mpr Iff.rfl

theorem drifted_ticks (now : ℕ → ℤ) (t : ℕ) : (db.ticks maxPerTick mtime now t).drifted =
    rounds (maxPerTick * 4) maxPerTick
      (fun u => isSettled mtime (now u - Agentic.settleMs)) db.drifted t := by
  induction t with
  | zero => rfl
  | succ t ih => rw [ticks, drifted_runSettlingSweep, ih, rounds]

/-- A drifted row that is no longer drifted after some ticks waits in the queue. -/
theorem pending_of_not_drifted {now : ℕ → ℤ} {t : ℕ} {row : ℕ × String}
    (hrow : row ∈ db.drifted) (hleft : row ∉ (db.ticks maxPerTick mtime now t).drifted) :
    (db.ticks maxPerTick mtime now t).queue.status? row.1 = some .pending := by
  induction t with
  | zero => exact absurd hrow hleft
  | succ t ih =>
    rw [ticks, runSettlingSweep_status?]
    by_cases hnow : row.1 ∈ ((db.ticks maxPerTick mtime now t).enqueued maxPerTick mtime
        (now t)).map Prod.fst
    · rw [if_pos hnow]
    · rw [if_neg hnow]
      apply ih
      intro hbefore
      refine hleft ?_
      rw [ticks, drifted_runSettlingSweep]
      refine mem_round.mpr ⟨hbefore, fun hserved => hnow ?_⟩
      exact List.mem_map.mpr ⟨row, hserved, rfl⟩

end Tick

/-- The drifted rows in front of one whose files the sweep passes over. -/
def passedOver (db : AgenticDb H γ) (p : ℕ × String → Bool) (row : ℕ × String) : ℕ :=
  (ahead row db.drifted).countP p

section Progress

variable {db : AgenticDb H γ} {maxPerTick : ℕ} {mtime : String → Option ℤ} {now : ℕ → ℤ}
  {row : ℕ × String}

theorem isSettled_mono {cutoff cutoff' : ℤ} (h : cutoff ≤ cutoff')
    (hrow : isSettled mtime cutoff row = true) : isSettled mtime cutoff' row = true := by
  obtain ⟨t, ht, hle⟩ := (Option.any_eq_true _ _).mp hrow
  exact (Option.any_eq_true _ _).mpr
    ⟨t, ht, decide_eq_true ((of_decide_eq_true hle).trans h)⟩

/-- A row that is still drifted is not waiting in the queue. -/
theorem not_pending_of_drifted (h : row ∈ db.drifted) :
    db.queue.status? row.1 ≠ some .pending := by
  obtain ⟨s, -, hcand, -⟩ := mem_drifted.mp h
  intro hpend
  have hstatus := hcand.2.2.2.2.2
  rw [hpend] at hstatus
  simp at hstatus

theorem sweep_in_time (hbatch : 0 < maxPerTick) (hclock : Monotone now) (hrow : row ∈ db.drifted)
    (hsettled : isSettled mtime (now 0 - Agentic.settleMs) row = true)
    (hfew : db.passedOver (fun r => !isSettled mtime (now 0 - Agentic.settleMs) r) row ≤
      3 * maxPerTick) :
    (db.ticks maxPerTick mtime now
      ((db.drifted.length + maxPerTick - 1) / maxPerTick)).queue.status? row.1 =
        some .pending := by
  apply pending_of_not_drifted hrow
  rw [drifted_ticks]
  intro hmem
  have hlater : ∀ u, now 0 - Agentic.settleMs ≤ now u - Agentic.settleMs := fun u =>
    Int.sub_le_sub_right (hclock (Nat.zero_le u)) _
  have hprogress := rounds_progress (3 * maxPerTick) (List.Nodup.of_map _ (nodup_drifted db))
    (fun u => isSettled_mono (hlater u) hsettled) ?_ hmem
  · have hpos : 0 < (rounds (maxPerTick * 4) maxPerTick
        (fun u => isSettled mtime (now u - Agentic.settleMs)) db.drifted
        ((db.drifted.length + maxPerTick - 1) / maxPerTick)).length :=
      List.length_pos_of_mem hmem
    have hrate : min maxPerTick (maxPerTick * 4 - 3 * maxPerTick) = maxPerTick := by omega
    have hceil : db.drifted.length ≤
        (db.drifted.length + maxPerTick - 1) / maxPerTick * maxPerTick := by
      have hdiv := Nat.div_add_mod (db.drifted.length + maxPerTick - 1) maxPerTick
      have hmod := Nat.mod_lt (db.drifted.length + maxPerTick - 1) hbatch
      rw [Nat.mul_comm] at hdiv
      omega
    rw [hrate] at hprogress
    omega
  · intro u
    refine (List.countP_mono_left fun r _ hr => ?_).trans hfew
    rw [Bool.not_eq_true'] at hr ⊢
    by_contra hready
    rw [isSettled_mono (hlater u) (by simpa using hready)] at hr
    cases hr

theorem sweep_in_the_end (hbatch : 0 < maxPerTick) (hclock : Monotone now)
    (htime : Filter.Tendsto now Filter.atTop Filter.atTop) (hrow : row ∈ db.drifted)
    (hsettled : isSettled mtime (now 0 - Agentic.settleMs) row = true)
    (hfew : db.passedOver (fun r => (mtime r.2).isNone) row < 4 * maxPerTick) :
    ∃ t, (db.ticks maxPerTick mtime now t).queue.status? row.1 = some .pending := by
  -- from some tick on every file that exists has settled
  obtain ⟨latest, hlatest⟩ : ∃ latest : ℤ, ∀ r ∈ db.drifted, ∀ t ∈ mtime r.2, t ≤ latest := by
    induction db.drifted with
    | nil => exact ⟨0, fun r hr => (nomatch hr)⟩
    | cons r rows ih =>
      obtain ⟨latest, hlatest⟩ := ih
      refine ⟨max latest ((mtime r.2).getD 0), ?_⟩
      intro r' hr' t ht
      rcases List.mem_cons.mp hr' with rfl | hr'
      · rw [Option.mem_def] at ht
        rw [ht, Option.getD_some]
        exact le_max_right _ _
      · exact (hlatest r' hr' t ht).trans (le_max_left _ _)
  obtain ⟨start, hstart⟩ := Filter.eventually_atTop.mp
    (htime.eventually_ge_atTop (latest + Agentic.settleMs))
  by_cases hleft : row ∈ (db.ticks maxPerTick mtime now start).drifted
  · refine ⟨start + ((db.ticks maxPerTick mtime now start).drifted.length + 1), ?_⟩
    apply pending_of_not_drifted hrow
    rw [drifted_ticks] at hleft ⊢
    rw [rounds_add, drifted_ticks]
    generalize hitems : rounds (maxPerTick * 4) maxPerTick
      (fun u => isSettled mtime (now u - Agentic.settleMs)) db.drifted start = items at hleft
    intro hmem
    have hnodup : items.Nodup := hitems ▸ nodup_rounds
      (List.Nodup.of_map _ (nodup_drifted db)) start
    have hlater : ∀ u, now 0 - Agentic.settleMs ≤ now (start + u) - Agentic.settleMs := fun u =>
      Int.sub_le_sub_right (hclock (Nat.zero_le (start + u))) _
    have hprogress := rounds_progress (db.passedOver (fun r => (mtime r.2).isNone) row) hnodup
      (fun u => isSettled_mono (hlater u) hsettled) ?_ hmem
    · have hpos := List.length_pos_of_mem hmem
      have hrate : 1 ≤ min maxPerTick
          (maxPerTick * 4 - db.passedOver (fun r => (mtime r.2).isNone) row) := by omega
      have hmul := Nat.mul_le_mul_left (items.length + 1) hrate
      omega
    · intro u
      have hahead := ahead_rounds (hitems ▸ hleft)
      rw [hitems] at hahead
      refine (List.countP_mono_left fun r hr hready => ?_).trans hahead.countP_le
      have hmem : r ∈ db.drifted :=
        (List.takeWhile_sublist _).subset (hahead.subset hr)
      cases hfile : mtime r.2 with
      | none => rfl
      | some t =>
        have hle := hlatest r hmem t hfile
        have hnow := hstart (start + u) (Nat.le_add_right _ _)
        have hready' : isSettled mtime (now (start + u) - Agentic.settleMs) r = true := by
          simp only [isSettled, hfile, Option.any_some, decide_eq_true_eq]
          omega
        rw [hready'] at hready
        cases hready
  · exact ⟨start, pending_of_not_drifted hrow hleft⟩

/-- A window full of rows without a file in front of a row keeps it out of every tick. -/
theorem sweep_starves (hrow : row ∈ db.drifted)
    (hfull : 4 * maxPerTick ≤ db.passedOver (fun r => (mtime r.2).isNone) row) (t : ℕ) :
    (db.ticks maxPerTick mtime now t).queue.status? row.1 ≠ some .pending := by
  apply not_pending_of_drifted
  rw [drifted_ticks]
  refine rounds_starve (fun r => (mtime r.2).isNone) ?_ hrow ?_ t
  · intro u r hr
    rw [isSettled, Option.isNone_iff_eq_none.mp hr]
    rfl
  · rw [Nat.mul_comm]
    exact hfull

/-- While the clock runs, a drifted row of a settled file is enqueued in the promised number of
ticks if at most three quarters of a window of rows in front of it are not settled. In the end it
is enqueued exactly if fewer rows than a window in front of it have no file. -/
theorem sweep_reaches (db : AgenticDb H γ) (maxPerTick : ℕ) (mtime : String → Option ℤ)
    (now : ℕ → ℤ) (hbatch : 0 < maxPerTick) (hclock : Monotone now)
    (htime : Filter.Tendsto now Filter.atTop Filter.atTop) (row : ℕ × String)
    (hrow : row ∈ db.drifted)
    (hsettled : isSettled mtime (now 0 - Agentic.settleMs) row = true) :
    (db.passedOver (fun r => !isSettled mtime (now 0 - Agentic.settleMs) r) row ≤
        3 * maxPerTick →
      (db.ticks maxPerTick mtime now
        ((db.drifted.length + maxPerTick - 1) / maxPerTick)).queue.status? row.1 =
          some .pending) ∧
    ((∃ t, (db.ticks maxPerTick mtime now t).queue.status? row.1 = some .pending) ↔
      db.passedOver (fun r => (mtime r.2).isNone) row < 4 * maxPerTick) := by
  refine ⟨sweep_in_time hbatch hclock hrow hsettled, ?_,
    sweep_in_the_end hbatch hclock htime hrow hsettled⟩
  rintro ⟨t, ht⟩
  by_contra hmany
  have hfull : 4 * maxPerTick ≤ db.passedOver (fun r => (mtime r.2).isNone) row := by omega
  exact sweep_starves hrow hfull t ht

/-- A drifted row whose file settled before the first tick. -/
def driftedSession (endTime : ℤ) (sourceFile : String) : AgenticSession ℕ where
  sessionId := sourceFile
  harness := .claudeCode
  segmentIndex := 0
  cwd := "/work"
  sourceFile := sourceFile
  summaryText := "a session"
  messageCount := 1
  startTime := 0
  endTime := endTime
  contentHash := some 1

/-- Rows whose transcripts were deleted, and after them one whose transcript is kept. -/
def crowdedDb (deleted : ℕ) : AgenticDb ℕ Unit where
  sessions :=
    { entries := (List.range (deleted + 1)).map fun (i : ℕ) =>
        (i, driftedSession i (if i < deleted then "deleted" else "kept"))
      nodup := by
        rw [List.map_map]
        exact List.nodup_range.map fun _ _ h => h }
  queue := Table.empty
  store := KnowledgeStore.empty
  fk := fun _ h => nomatch h

/-- The only file that exists was modified at time `0`. -/
def keptFile (file : String) : Option ℤ := if file = "kept" then some 0 else none

theorem sweep_reaches_kept : ((crowdedDb 2).ticks 10 keptFile (fun t => Agentic.settleMs + t)
    1).queue.status? 2 = some .pending := by
  have hclock : Monotone fun t : ℕ => Agentic.settleMs + (t : ℤ) := fun _ _ h =>
    Int.add_le_add_left (Int.ofNat_le.mpr h) _
  have htime : Filter.Tendsto (fun t : ℕ => Agentic.settleMs + (t : ℤ)) Filter.atTop
      Filter.atTop :=
    Filter.tendsto_atTop_add_const_left _ _ tendsto_natCast_atTop_atTop
  have hbound := (sweep_reaches (crowdedDb 2) 10 keptFile (fun t => Agentic.settleMs + t)
    (by decide) hclock htime (2, "kept") (by decide +kernel) (by decide +kernel)).1
  exact hbound (by decide +kernel)

/-- With the production batch of ten, forty rows without a file keep a settled row out of every
sweep. -/
theorem missing_files_starve_sweep : (40, "kept") ∈ (crowdedDb 40).drifted ∧
    isSettled keptFile 0 (40, "kept") = true ∧ ∀ (now : ℕ → ℤ) (t : ℕ),
      ((crowdedDb 40).ticks 10 keptFile now t).queue.status? 40 ≠ some .pending := by
  have hrow : (40, "kept") ∈ (crowdedDb 40).drifted := by decide +kernel
  have hfull : 4 * 10 ≤ (crowdedDb 40).passedOver (fun r => (keptFile r.2).isNone)
      (40, "kept") := by decide +kernel
  exact ⟨hrow, by decide +kernel, fun now t => sweep_starves hrow hfull t⟩

end Progress

end Hippo.AgenticDb
