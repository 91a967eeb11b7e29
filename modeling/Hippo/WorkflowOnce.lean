import Hippo.WorkflowRuns

/-!
# Workflow runs are enriched once

While every report comes in time, a run has at most one node, stays done, and no annotation is
counted twice. In a run without faults every annotation selected for a completed run is counted,
until a run lands on an identical node or a promotion meets a lesson that its lookup has missed.
-/
namespace Hippo.Workflow

open AlarmLessons (ClusterKey Lessons)
open LessonClusters Transition

section Invariant

variable {cfg : Settings} {lessons : Lessons} {w w' : World} {a : Action}

/-- A run is done exactly when it has its one node, and an annotation is counted or waits at most
once, after its run is done. -/
structure Once (cfg : Settings) (w : World) : Prop where
  single : OneNode w
  linked : ∀ r n, w.Linked r n → w.Done r
  made : ∀ r, w.Done r → ∃ n, w.Linked r n
  fits : ∀ op ∈ w.ops, Fits cfg w.db op
  tally : ∀ i, w.counts i + w.awaits i ≤ 1
  owned : ∀ i, 0 < w.counts i + w.awaits i → ∃ r, w.db.annotationRun i = some r ∧ w.Done r

theorem once_init (lessons : Lessons) : Once cfg (World.init lessons) where
  single := by
    intro r n n' h
    cases h.1
  linked := by
    intro r n h
    cases h.1
  made := by
    intro r h
    cases h
  fits := by
    intro op h
    cases h
  tally := fun _ => Nat.zero_le 1
  owned := fun _ h => absurd h (Nat.lt_irrefl 0)

/-- A step that writes no node, closes and reopens no run, and counts nothing. -/
theorem Once.frame (h : Once cfg w) (hs : step cfg w a = some w') (hq : Quiet w w')
    (hawaits : ∀ i, w'.awaits i ≤ w.awaits i) : Once cfg w' ∧ StaysDone w w' := by
  have hlinked : ∀ r n, w'.Linked r n ↔ w.Linked r n := by
    intro r n
    rw [World.Linked, hq.store]
    rfl
  have hcounts : ∀ i, w'.counts i = w.counts i := by
    intro i
    rw [World.counts, hq.counted]
    rfl
  refine ⟨⟨fun r n n' hn hn' => ?_, fun r n hn => ?_, fun r hr => ?_, fits_of_step h.fits hs,
    fun i => ?_, fun i hi => ?_⟩, fun r hr => (hq.done r).mpr hr⟩
  · exact h.single r n n' ((hlinked r n).mp hn) ((hlinked r n').mp hn')
  · exact (hq.done r).mpr (h.linked r n ((hlinked r n).mp hn))
  · obtain ⟨n, hn⟩ := h.made r ((hq.done r).mp hr)
    exact ⟨n, (hlinked r n).mpr hn⟩
  · have htally := h.tally i
    have hless := hawaits i
    rw [hcounts]
    omega
  · have hless := hawaits i
    rw [hcounts] at hi
    obtain ⟨r, hann, hr⟩ := h.owned i (by omega)
    exact ⟨r, hq.annotations i r hann, (hq.done r).mpr hr⟩

/-- The runs that are done after a write. -/
theorem done_commit (k : ℕ) {s : Selected} {answer : Answer} {existing : Option ℕ}
    (rest : List ℕ) {db : WorkflowDb} (hdb : w.db.writeOutcome s answer existing = .ok db)
    (hrow : (w.db.queue.get? s.runId).isSome) (r : ℕ) :
    (w.commit k s existing rest db).Done r ↔ w.Done r ∨ r = s.runId := by
  obtain ⟨store, -, rfl⟩ := WorkflowDb.writeOutcome_eq_ok hdb
  simp only [World.Done, World.commit, WorkflowDb.status?]
  by_cases hr : r = s.runId
  · subst hr
    obtain ⟨q, hq⟩ := Option.isSome_iff_exists.mp hrow
    simp [hq]
  · rw [Table.get?_modify_of_ne _ hr]
    simp [hr]

theorem linked_commit (k : ℕ) {s : Selected} {answer : Answer} {existing : Option ℕ}
    (rest : List ℕ) {db : WorkflowDb} (hdb : w.db.writeOutcome s answer existing = .ok db)
    (hfound : ∀ n ∈ existing, IsOutcome w.db n) (r n : ℕ) :
    (w.commit k s existing rest db).Linked r n ↔
      w.Linked r n ∨ (r = s.runId ∧ n = existing.getD w.db.store.nodes.nextRowid) := by
  obtain ⟨store, hstore, rfl⟩ := WorkflowDb.writeOutcome_eq_ok hdb
  exact WorkflowDb.linkedTo_writeStore hstore hfound

/-- A write onto an identical node leaves nothing to count, a new node all of its annotations. -/
theorem awaits_commit {k : ℕ} {s : Selected} {answer : Answer} {existing : Option ℕ}
    {rest : List ℕ} (db : WorkflowDb)
    (hop : w.ops[k]? = some (.writing s answer existing rest)) (i : ℕ) :
    (w.commit k s existing rest db).awaits i =
      w.awaits i + if existing = none then (s.anns.map Prod.fst).count i else 0 := by
  have h : (w.commit k s existing rest db).awaits i + 0 =
      w.awaits i + ([afterWrite s existing rest].flatMap Op.pending).countP fun p => p.2 = i :=
    countP_replaceAt hop _ _
  rw [Nat.add_zero, List.flatMap_singleton] at h
  refine h.trans (congrArg (w.awaits i + ·) ?_)
  cases existing with
  | some n => rfl
  | none =>
    change (s.anns.map fun e => (s, e.1)).countP (fun p => p.2 = i) = _
    rw [if_pos rfl, List.countP_map, List.count, List.countP_map]
    refine List.countP_congr fun e _ => ?_
    simp

/-- A committed call moves its annotation from those that wait to those that are counted. -/
theorem tally_register {k : ℕ} {s : Selected} {found : Bool} {ann : ℕ × Annotation}
    {anns : List (ℕ × Annotation)} {rest : List ℕ} {db : WorkflowDb} {key : ClusterKey}
    (hop : w.ops[k]? = some (.registering s found ann anns rest)) (i : ℕ) :
    let w' : World := { w with
      db := db
      ops := replaceAt w.ops k [.clustering s anns rest]
      counted := w.counted ++ [⟨s.runId, ann.1, key⟩] }
    w'.counts i + w'.awaits i = w.counts i + w.awaits i := by
  intro w'
  have hmoved := countP_replaceAt hop [.clustering s anns rest] fun p => p.2 = i
  have hcounts : w'.counts i = w.counts i + if ann.1 = i then 1 else 0 := by
    rw [World.counts, List.countP_append, List.countP_singleton]
    simp only [decide_eq_true_eq]
    rfl
  have hawaits : w'.awaits i =
      ((replaceAt w.ops k [.clustering s anns rest]).flatMap Op.pending).countP fun p => p.2 = i :=
    rfl
  simp only [Op.pending, List.flatMap_singleton, List.countP_cons, decide_eq_true_eq] at hmoved
  rw [hcounts, hawaits, World.awaits]
  omega

/-- What `owned` says of an annotation of a run that is not done. -/
theorem Once.untouched (h : Once cfg w) {i r : ℕ} (hann : w.db.annotationRun i = some r)
    (hr : ¬ w.Done r) : w.counts i = 0 ∧ w.awaits i = 0 := by
  by_contra htouched
  obtain ⟨r', hann', hr'⟩ := h.owned i (by omega)
  rw [hann, Option.some.injEq] at hann'
  exact hr (hann' ▸ hr')

theorem once_step (h : Once cfg w) (hok : Timely w a) (hs : step cfg w a = some w') :
    Once cfg w' ∧ StaysDone w w' := by
  cases step_effect hs with
  | quiet hq hpending => exact h.frame hs hq fun i => (awaits_of_perm hpending i).le
  | fault hq hpending => exact h.frame hs hq (awaits_of_subperm hpending)
  | stale hop hstale =>
    exact h.frame hs ⟨rfl, rfl, fun _ => id, fun _ => Iff.rfl, fun _ _ => id, rfl, rfl⟩
      (awaits_of_subperm (pending_drop hop rfl))
  | write hop hdb =>
    rename_i k s answer existing rest db
    have hfits : Fits cfg w.db (.writing s answer existing rest) :=
      h.fits _ (List.mem_of_getElem? hop)
    have hdrawn : Drawn w.db s := hfits.drawn s rfl
    have hfound : ∀ n ∈ existing, IsOutcome w.db n := by
      rintro n rfl
      exact hfits.identical s answer n rest rfl
    have hdone := done_commit k rest hdb (hfits.queued _ List.mem_cons_self)
    have hlinked := linked_commit k rest hdb hfound
    have hown : w.Done s.runId → ∃ n ∈ existing, w.Linked s.runId n := by
      simpa only [Timely, hop] using hok
    have hawaits := awaits_commit db hop
    -- a write of a run that has a node is onto that node
    have target : ∀ n, w.Linked s.runId n → n = existing.getD w.db.store.nodes.nextRowid := by
      intro n hn
      obtain ⟨m, hm, hlink⟩ := hown (h.linked _ _ hn)
      rw [Option.mem_def.mp hm, Option.getD_some]
      exact h.single _ _ _ hn hlink
    -- a new node is for a run none of whose annotations has been touched
    have fresh : existing = none → ∀ i, i ∈ s.anns.map Prod.fst →
        w.counts i = 0 ∧ w.awaits i = 0 := by
      rintro rfl i hi
      obtain ⟨e, he, rfl⟩ := List.mem_map.mp hi
      refine h.untouched (hdrawn.own e he) fun hr => ?_
      obtain ⟨n, hn, -⟩ := hown hr
      cases hn
    refine ⟨⟨fun r n n' hn hn' => ?_, fun r n hn => (hdone r).mpr ?_, fun r hr => ?_,
      fits_of_step h.fits hs, fun i => ?_, fun i hi => ?_⟩, fun r hr => (hdone r).mpr (Or.inl hr)⟩
    · rcases (hlinked r n).mp hn with hold | ⟨rfl, rfl⟩
      · rcases (hlinked r n').mp hn' with hold' | ⟨rfl, rfl⟩
        · exact h.single r n n' hold hold'
        · exact target n hold
      · rcases (hlinked _ n').mp hn' with hold' | ⟨-, rfl⟩
        · exact (target n' hold').symm
        · rfl
    · rcases (hlinked r n).mp hn with hn | ⟨hr, -⟩
      · exact Or.inl (h.linked r n hn)
      · exact Or.inr hr
    · rcases (hdone r).mp hr with hr | hr
      · obtain ⟨n, hn⟩ := h.made r hr
        exact ⟨n, (hlinked r n).mpr (Or.inl hn)⟩
      · exact ⟨_, (hlinked r _).mpr (Or.inr ⟨hr, rfl⟩)⟩
    · have htally := h.tally i
      rw [hawaits]
      split
      · rename_i hnone
        by_cases hi : i ∈ s.anns.map Prod.fst
        · obtain ⟨hcounts, hwaits⟩ := fresh hnone i hi
          have honce : (s.anns.map Prod.fst).count i ≤ 1 :=
            List.nodup_iff_count_le_one.mp hdrawn.nodup i
          change w.counts i + _ ≤ 1
          omega
        · rw [List.count_eq_zero.mpr hi]
          exact htally
      · exact htally
    · rw [hawaits] at hi
      by_cases hold : 0 < w.counts i + w.awaits i
      · obtain ⟨r, hann, hr⟩ := h.owned i hold
        exact ⟨r, (grows_of_step hs).annotations i r hann, (hdone r).mpr (Or.inl hr)⟩
      · have hmem : i ∈ s.anns.map Prod.fst := by
          by_contra hnot
          change 0 < w.counts i + _ at hi
          rw [List.count_eq_zero.mpr hnot] at hi
          split at hi <;> omega
        obtain ⟨e, he, rfl⟩ := List.mem_map.mp hmem
        exact ⟨s.runId, (grows_of_step hs).annotations _ _ (hdrawn.own e he),
          (hdone _).mpr (Or.inr rfl)⟩
  | register hop hlessons =>
    rename_i k s found ann anns rest lessons b
    refine ⟨⟨h.single, h.linked, h.made, fits_of_step h.fits hs, fun i => ?_, fun i hi => ?_⟩,
      fun r => id⟩
    · exact (tally_register hop i).trans_le (h.tally i)
    · rw [tally_register hop i] at hi
      exact h.owned i hi
  | fail hop =>
    rename_i k r next error
    have hnot : ¬ w.Done r := hok (r, next) hop
    obtain ⟨op, hk, hfailing⟩ := Option.bind_eq_some_iff.mp hop
    obtain ⟨-, hpending, rest, rfl, -⟩ := failing_rest hfailing
    refine h.frame hs ⟨rfl, rfl, fun _ => queued_update, done_markFailed error hnot, fun _ _ => id,
      rfl, rfl⟩ (awaits_of_subperm (pending_drop hk rfl))

end Invariant

section Late

variable {cfg : Settings} {w w' : World} {a : Action}

/-- A report after its run is done links the run to a second node, or reopens it. -/
theorem not_once_of_late (h : Once cfg w) (hlate : ¬ Timely w a) (hs : step cfg w a = some w') :
    ¬ (OneNode w' ∧ StaysDone w w') := by
  rintro ⟨hone, hstays⟩
  cases step_effect hs with
  | quiet hq hpending htimely => exact hlate htimely
  | fault hq hpending htimely => exact hlate htimely
  | stale hop hstale => exact hlate trivial
  | register hop hlessons => exact hlate trivial
  | write hop hdb =>
    rename_i k s answer existing rest db
    have hfits : Fits cfg w.db (.writing s answer existing rest) :=
      h.fits _ (List.mem_of_getElem? hop)
    have hfound : ∀ n ∈ existing, IsOutcome w.db n := by
      rintro n rfl
      exact hfits.identical s answer n rest rfl
    have hlinked := linked_commit k rest hdb hfound
    simp only [Timely, hop, Classical.not_imp] at hlate
    obtain ⟨hdone, hforeign⟩ := hlate
    obtain ⟨n, hn⟩ := h.made s.runId hdone
    have htarget : n = existing.getD w.db.store.nodes.nextRowid :=
      hone s.runId _ _ ((hlinked _ _).mpr (Or.inl hn)) ((hlinked _ _).mpr (Or.inr ⟨rfl, rfl⟩))
    cases existing with
    | some m =>
      rw [Option.getD_some] at htarget
      exact hforeign ⟨m, rfl, htarget ▸ hn⟩
    | none => exact w.db.store.nextRowid_not_linked hn.1 htarget
  | fail hop =>
    rename_i k r next error
    simp only [Timely, hop, Option.mem_def, Option.some.injEq, forall_eq', not_not] at hlate
    have hopen := hstays r hlate
    obtain ⟨q, hq, -⟩ := Option.map_eq_some_iff.mp hlate
    simp only [World.Done, WorkflowDb.status?, WorkflowDb.markWorkflowQueueFailed,
      Table.get?_modify_self, hq, Option.map_some, Option.some.injEq] at hopen
    exact charged_not_done _ _ hopen

end Late

section Counts

variable {cfg : Settings} {lessons : Lessons} {w w' : World} {a : Action}

/-- The counts of the clusters are the committed calls. -/
structure Recorded (cfg : Settings) (lessons : Lessons) (w : World) : Prop where
  fits : ∀ op ∈ w.ops, Fits cfg w.db op
  total : ∀ key, occurrences w.db.lessons key =
    occurrences lessons key + w.counted.countP fun c => c.key = key

theorem recorded_init (lessons : Lessons) : Recorded cfg lessons (World.init lessons) where
  fits := by
    intro op h
    cases h
  total := fun _ => rfl

theorem recorded_step (h : Recorded cfg lessons w) (hs : step cfg w a = some w') :
    Recorded cfg lessons w' := by
  refine ⟨fits_of_step h.fits hs, fun key => ?_⟩
  cases step_effect hs with
  | quiet hq | fault hq =>
    rw [hq.lessons, hq.counted]
    exact h.total key
  | stale hop hstale => exact h.total key
  | write hop hdb =>
    obtain ⟨store, -, rfl⟩ := WorkflowDb.writeOutcome_eq_ok hdb
    exact h.total key
  | register hop hlessons =>
    rename_i k s found ann anns rest lessons' b
    have hlesson := (h.fits _ (List.mem_of_getElem? hop)).lesson s ann anns rest
    rw [occurrences_registerOccurrence hlessons (fun hfound => hlesson (hfound ▸ rfl)) key,
      h.total key, List.countP_append, List.countP_singleton, Nat.add_assoc]
    simp only [decide_eq_true_eq, @eq_comm _ key]
  | fail hop => exact h.total key

/-- In a run without faults nothing that was selected for a completed run is lost. -/
structure Exact (w : World) : Prop where
  told : ∀ r, w.Done r → ∃ s ∈ w.completed, s.runId = r
  drawn : ∀ s ∈ w.completed, Drawn w.db s
  waiting : ∀ p ∈ w.ops.flatMap Op.pending, p.1 ∈ w.completed ∧ p.2 ∈ p.1.anns.map Prod.fst
  full : ∀ s ∈ w.completed, ∀ i ∈ s.anns.map Prod.fst, 1 ≤ w.counts i + w.awaits i

theorem exact_init (lessons : Lessons) : Exact (World.init lessons) where
  told := by
    intro r h
    cases h
  drawn := by
    intro s h
    cases h
  waiting := by
    intro p h
    cases h
  full := by
    intro s h
    cases h

/-- A step that completes no run and counts nothing. -/
theorem Exact.frame (h : Exact w) (hq : Quiet w w')
    (hpending : (w'.ops.flatMap Op.pending).Perm (w.ops.flatMap Op.pending)) : Exact w' where
  told := by
    intro r hr
    rw [hq.completed]
    exact h.told r ((hq.done r).mp hr)
  drawn := by
    intro s hs
    rw [hq.completed] at hs
    exact (h.drawn s hs).mono hq.annotations
  waiting := by
    intro p hp
    rw [hq.completed]
    exact h.waiting p (hpending.mem_iff.mp hp)
  full := by
    intro s hs i hi
    rw [hq.completed] at hs
    rw [World.counts, hq.counted, awaits_of_perm hpending]
    exact h.full s hs i hi

theorem exact_step (honce : Once cfg w) (h : Exact w) (hok : FaultFree cfg w a)
    (hs : step cfg w a = some w') : Exact w' := by
  obtain ⟨htimely, hcounting, hfault⟩ := hok
  cases step_effect hs with
  | quiet hq hpending => exact h.frame hq hpending
  | fault hq hpending htimely ha => exact absurd ha hfault
  | stale hop hstale =>
    simp only [Counting, hop] at hcounting
    exact absurd hstale hcounting
  | write hop hdb =>
    rename_i k s answer existing rest db
    have hfits : Fits cfg w.db (.writing s answer existing rest) :=
      honce.fits _ (List.mem_of_getElem? hop)
    have hdone := done_commit k rest hdb (hfits.queued _ List.mem_cons_self)
    have hawaits := awaits_commit db hop
    have hcompleted : (w.commit k s existing rest db).completed =
        if w.Done s.runId then w.completed else w.completed ++ [s] := rfl
    have hold : ∀ t ∈ w.completed, t ∈ (w.commit k s existing rest db).completed := by
      intro t ht
      rw [hcompleted]
      split
      · exact ht
      · exact List.mem_append_left _ ht
    have hnew : ¬ w.Done s.runId → s ∈ (w.commit k s existing rest db).completed := by
      intro hnot
      rw [hcompleted, if_neg hnot]
      exact List.mem_append_right _ (List.mem_singleton.mpr rfl)
    have hcases : ∀ t ∈ (w.commit k s existing rest db).completed,
        t ∈ w.completed ∨ (t = s ∧ ¬ w.Done s.runId) := by
      intro t ht
      rw [hcompleted] at ht
      split at ht
      · exact Or.inl ht
      · rename_i hnot
        exact (List.mem_append.mp ht).imp_right fun ht => ⟨List.mem_singleton.mp ht, hnot⟩
    refine ⟨fun r hr => ?_, fun t ht => ?_, fun p hp => ?_, fun t ht i hi => ?_⟩
    · by_cases hbefore : w.Done r
      · obtain ⟨t, ht, hrun⟩ := h.told r hbefore
        exact ⟨t, hold t ht, hrun⟩
      · have hrun : r = s.runId := ((hdone r).mp hr).resolve_left hbefore
        exact ⟨s, hnew (hrun ▸ hbefore), hrun.symm⟩
    · rcases hcases t ht with ht | ⟨rfl, -⟩
      · exact (h.drawn t ht).mono (grows_of_step hs).annotations
      · exact (hfits.drawn _ rfl).mono (grows_of_step hs).annotations
    · obtain ⟨op, hop', hp⟩ := List.mem_flatMap.mp hp
      rcases mem_replaceAt hop' with hop' | hop'
      · obtain ⟨hmem, hann⟩ := h.waiting p (List.mem_flatMap.mpr ⟨op, hop', hp⟩)
        exact ⟨hold _ hmem, hann⟩
      · rw [List.mem_singleton.mp hop'] at hp
        cases existing with
        | some n => cases hp
        | none =>
          obtain ⟨e, he, rfl⟩ := List.mem_map.mp hp
          refine ⟨hnew fun hdone => ?_, List.mem_map_of_mem he⟩
          simp only [Timely, hop] at htimely
          obtain ⟨n, hn, -⟩ := htimely hdone
          cases hn
    · rw [hawaits]
      rcases hcases t ht with ht | ⟨rfl, hnot⟩
      · exact (h.full t ht i hi).trans (Nat.add_le_add_left (Nat.le_add_right _ _) _)
      · cases existing with
        | some n =>
          simp only [Counting, hop, hnot, false_or] at hcounting
          rw [hcounting] at hi
          cases hi
        | none =>
          have hpos := List.count_pos_iff.mpr hi
          rw [if_pos rfl]
          omega
  | register hop hlessons =>
    rename_i k s found ann anns rest lessons b
    refine ⟨h.told, fun t ht => (h.drawn t ht).mono (grows_of_step hs).annotations,
      fun p hp => ?_, fun t ht i hi => ?_⟩
    · refine h.waiting p ?_
      obtain ⟨op, hop', hp⟩ := List.mem_flatMap.mp hp
      rcases mem_replaceAt hop' with hop' | hop'
      · exact List.mem_flatMap.mpr ⟨op, hop', hp⟩
      · rw [List.mem_singleton.mp hop'] at hp
        exact List.mem_flatMap.mpr ⟨_, List.mem_of_getElem? hop, List.mem_cons_of_mem _ hp⟩
    · exact (h.full t ht i hi).trans_eq (tally_register hop i).symm
  | fail hop =>
    rename_i k r next error
    have hnot : ¬ w.Done r := htimely (r, next) hop
    obtain ⟨op, hk, hfailing⟩ := Option.bind_eq_some_iff.mp hop
    obtain ⟨-, hpending, rest, rfl, -⟩ := failing_rest hfailing
    refine h.frame ⟨rfl, rfl, fun _ => queued_update, done_markFailed error hnot, fun _ _ => id,
      rfl, rfl⟩ ?_
    have hperm := pending_replaceAt hk [.ready rest]
    rw [hpending] at hperm
    simpa [Op.pending] using hperm

theorem Exact.addsExactlyOne (honce : Once cfg w) (h : Exact w) : AddsExactlyOne w := by
  refine ⟨h.told, fun s hs => ⟨(h.drawn s hs).few, fun e he => ⟨(h.drawn s hs).own e he, ?_⟩⟩⟩
  intro hawaits
  have hfull := h.full s hs e.1 (List.mem_map_of_mem he)
  have htally := honce.tally e.1
  omega

/-- A run completed on an identical node, or a promotion that meets a lesson, loses annotations. -/
theorem not_exact_of_lost (honce : Once cfg w) (h : Exact w) (htimely : Timely w a)
    (hlost : ¬ Counting cfg w a) (hfault : ¬ a.Faulty) (hs : step cfg w a = some w') :
    ¬ AddsExactlyOne w' := by
  rintro ⟨-, hexact⟩
  cases step_effect hs with
  | quiet hq hpending _ hcounting => exact hlost hcounting
  | fault hq hpending _ ha => exact hfault ha
  | fail hop => exact hlost trivial
  | register hop hlessons =>
    simp only [Counting, hop, not_not] at hlost
    exact registerOccurrence_isOk_iff.mp ⟨_, hlessons⟩ hlost
  | stale hop hstale =>
    rename_i k s found ann anns rest
    obtain ⟨hs', hann⟩ := h.waiting (s, ann.1)
      (List.mem_flatMap.mpr ⟨_, List.mem_of_getElem? hop, List.mem_cons_self⟩)
    obtain ⟨e, he, heq⟩ := List.mem_map.mp hann
    have hmoved := countP_replaceAt hop [.ready rest] fun p => p.2 = ann.1
    have htally := honce.tally ann.1
    simp only [Op.pending, List.flatMap_singleton, List.countP_cons, List.countP_nil,
      decide_true, if_true] at hmoved
    rw [World.awaits] at htally
    have hnone : ((replaceAt w.ops k [.ready rest]).flatMap Op.pending).countP
        (fun p => p.2 = ann.1) = 0 := by omega
    have hone := ((hexact s hs').2 e he).2
    rw [heq] at hone
    have hcounted : w.counts ann.1 = 1 := hone hnone
    omega
  | write hop hdb =>
    rename_i k s answer existing rest db
    cases existing with
    | none => exact hlost (by simp only [Counting, hop])
    | some n =>
      simp only [Counting, hop, not_or] at hlost
      obtain ⟨hnot, hanns⟩ := hlost
      obtain ⟨e, he⟩ := List.exists_mem_of_ne_nil _ hanns
      have hfits : Fits cfg w.db (.writing s answer (some n) rest) :=
        honce.fits _ (List.mem_of_getElem? hop)
      obtain ⟨hcounts, hwaits⟩ := honce.untouched ((hfits.drawn s rfl).own e he) hnot
      have hmem : s ∈ (w.commit k s (some n) rest db).completed := by
        rw [World.commit, if_neg hnot]
        exact List.mem_append_right _ (List.mem_singleton.mpr rfl)
      have hone := ((hexact s hmem).2 e he).2 (by rw [awaits_commit db hop, hwaits]; rfl)
      change w.counts e.1 = 1 at hone
      omega

end Counts

section Runs

variable {cfg : Settings} {lessons : Lessons} {w : World}

theorem once_of_run (h : Run (step cfg) Timely (World.init lessons) w) : Once cfg w :=
  h.invariant (fun _ _ _ hw hok hs => (once_step hw hok hs).1) (once_init lessons)

theorem recorded_of_run (h : Reaches (step cfg) (World.init lessons) w) :
    Recorded cfg lessons w :=
  h.invariant (fun _ _ _ hw _ hs => recorded_step hw hs) (recorded_init lessons)

theorem exact_of_run (h : Run (step cfg) (FaultFree cfg) (World.init lessons) w) : Exact w :=
  h.invariant_of (J := Once cfg) (fun _ _ _ hw hok hs => (once_step hw hok.1 hs).1)
    (fun _ _ _ hw hx hok hs => exact_step hw hx hok hs) (once_init lessons) (exact_init lessons)

theorem staysDone_of_run {w' : World} (hw : Once cfg w) (h : Run (step cfg) Timely w w') :
    StaysDone w w' := by
  refine (h.invariant (I := fun v => Once cfg v ∧ StaysDone w v) ?_ ⟨hw, fun _ => id⟩).2
  intro s a t hs hok hstep
  obtain ⟨hnext, hstays⟩ := once_step hs.1 hok hstep
  exact ⟨hnext, fun r hr => hstays r (hs.2 r hr)⟩

/-- **Enriched once.** While every report comes in time a run has at most one node and stays done,
and an annotation adds at most one; a step breaks this exactly when it reports late. Without
faults every selected annotation adds exactly one, until a run lands on an identical node or a
promotion meets a lesson. -/
theorem runs_enriched_once (h : Run (step cfg) Timely (World.init lessons) w) :
    (OneNode w ∧ AddsAtMostOne lessons w ∧ ∀ w', Run (step cfg) Timely w w' → StaysDone w w') ∧
      (∀ a w', step cfg w a = some w' → (Timely w a ↔ OneNode w' ∧ StaysDone w w')) ∧
      (Run (step cfg) (FaultFree cfg) (World.init lessons) w → AddsExactlyOne w ∧
        ∀ a w', step cfg w a = some w' → Timely w a → ¬ a.Faulty →
          (Counting cfg w a ↔ AddsExactlyOne w')) := by
  have hw : Once cfg w := once_of_run h
  refine ⟨⟨hw.single, ⟨fun i => ?_, (recorded_of_run h.reaches).total⟩,
    fun w' hrun => staysDone_of_run hw hrun⟩, fun a w' hs => ⟨fun hok => ?_, fun hgood => ?_⟩,
    fun hfree => ?_⟩
  · exact (Nat.le_add_right _ _).trans (hw.tally i)
  · obtain ⟨hnext, hstays⟩ := once_step hw hok hs
    exact ⟨hnext.single, hstays⟩
  · by_contra hlate
    exact not_once_of_late hw hlate hs hgood
  · have hx : Exact w := exact_of_run hfree
    refine ⟨hx.addsExactlyOne hw, fun a w' hs htimely hfault =>
      ⟨fun hcounting => ?_, fun hgood => ?_⟩⟩
    · have hnext := (once_step hw htimely hs).1
      exact (exact_step hw hx ⟨htimely, hcounting, hfault⟩ hs).addsExactlyOne hnext
    · by_contra hlost
      exact not_exact_of_lost hw hx htimely hlost hfault hs hgood

end Runs

section Races

def noLessons : Lessons := { pending := Table.empty, lessons := Table.empty }

/-- A run with one job and one failing annotation, all with the same number, is queued. -/
def arrive (r : ℕ) : List Action :=
  [.poll r { repo := "hippo", headSha := "0f3a" }, .pollJob r r,
   .annotate { jobId := r, level := "failure", tool := some "ruff" }, .enqueue r 0]

/-- The `k`-th worker has read a run, asks the model and writes. -/
def answered (k : ℕ) (content : String) : List Action :=
  [.reply k { content := content, embedText := content, tags := "" }, .write k]

/-- Worker A waits for the model while its lock goes stale; worker B enriches the run. -/
def takenOver : List Action :=
  arrive 1 ++
    [.claim "A" 1000000 600000 none, .read 0 0, .claim "B" 2000000 600000 none, .read 1 0] ++
    answered 1 "built" ++ [.lookup 1, .register 1]

/-- The model answers A after all. -/
def lateAnswer : List Action :=
  [.reply 0 { content := "failed", embedText := "failed", tags := "" }, .write 1, .lookup 1,
   .register 1]

/-- Two runs, one after the other, for which the model has the same answer. -/
def sameAnswer : List Action :=
  arrive 1 ++ arrive 2 ++ [.claim "A" 1000000 600000 none, .read 0 0] ++ answered 0 "built" ++
    [.lookup 0, .register 0, .lookup 0, .read 0 0] ++ answered 0 "built"

/-- Four workers look the same cluster up before the first of them counts. -/
def fourLookups : List Action :=
  (arrive 1 ++ arrive 2 ++ arrive 3 ++ arrive 4) ++
    ([.claim "A" 1000000 600000 (some 1), .read 0 0] ++ answered 0 "one") ++
    ([.claim "B" 1000000 600000 (some 1), .read 1 0] ++ answered 1 "two") ++
    ([.claim "C" 1000000 600000 (some 1), .read 2 0] ++ answered 2 "three") ++
    ([.claim "D" 1000000 600000 (some 1), .read 3 0] ++ answered 3 "four") ++
    [.lookup 0, .lookup 0, .lookup 0, .lookup 0, .register 0, .register 0, .register 0, .register 0]

/-- A late answer links the run to a second node and counts its annotation twice, a late failure
reopens the run. A run that lands on an identical node, and a worker whose lookup has missed a
promotion, count nothing. -/
theorem late_and_lost :
    (∃ w, Run (step {}) Timely (World.init noLessons) w ∧ w.Done 1 ∧
      (∃ w', Reaches (step {}) w w' ∧ w'.Linked 1 1 ∧ w'.Linked 1 2 ∧ w'.counts 1 = 2) ∧
      ∃ w', step {} w (.fail 0 "timeout") = some w' ∧ w'.db.status? 1 = some .pending) ∧
    (∃ w, Run (step {}) (fun w a => Timely w a ∧ ¬ a.Faulty) (World.init noLessons) w ∧ w.Done 2 ∧
      w.db.annotationRun 2 = some 2 ∧ w.awaits 2 = 0 ∧ w.counts 2 = 0) ∧
    ∃ w, Run (step {}) (fun w a => Timely w a ∧ ¬ a.Faulty) (World.init noLessons) w ∧ w.Done 4 ∧
      w.db.annotationRun 4 = some 4 ∧ w.awaits 4 = 0 ∧ w.counts 4 = 0 := by
  refine ⟨?_, exists_run_of_exec (l := sameAnswer) (by decide +kernel),
    exists_run_of_exec (l := fourLookups) (by decide +kernel)⟩
  obtain ⟨w, hrun, hdone, hlate, hfail⟩ : ∃ w : World,
      Run (step {}) Timely (World.init noLessons) w ∧ (w.Done 1 ∧
        ((exec (guarded (step {}) fun _ _ => True) w lateAnswer).any fun v =>
          decide (v.Linked 1 1 ∧ v.Linked 1 2 ∧ v.counts 1 = 2)) = true ∧
        ∃ v ∈ step {} w (.fail 0 "timeout"), v.db.status? 1 = some .pending) :=
    exists_run_of_exec (l := takenOver) (by decide +kernel)
  exact ⟨w, hrun, hdone, exists_run_of_exec hlate, hfail⟩

/-- Up to B's node the run of the first race is good. -/
theorem overtaken_once : ∃ w, Run (step {}) Timely (World.init noLessons) w ∧ w.Done 1 ∧
    OneNode w ∧ AddsAtMostOne noLessons w := by
  obtain ⟨w, hrun, hdone⟩ : ∃ w : World,
      Run (step {}) Timely (World.init noLessons) w ∧ w.Done 1 :=
    exists_run_of_exec (l := takenOver) (by decide +kernel)
  have hgood := (runs_enriched_once hrun).1
  exact ⟨w, hrun, hdone, hgood.1, hgood.2.1⟩

end Races

end Hippo.Workflow
