import Hippo.BackupArtifact

/-!
# What a run reports

After the new artifact was recorded the run prunes: the manifest without the expired records is
saved, and then their files go. A run that reports `Done` holds the artifact; a scheduled run
that fails leaves at most the copy of its own artifact unaccounted for.
-/
namespace Hippo.Backup

open Hippo.Interruption

variable {η : Type}

section Prune

variable {env : RunEnv η} {W : World η} {X : Exempt η} {S S' : String → Prop} {B : Budget}
  {s : Bool} {entry : ManifestEntry η} {entries gone : List (ManifestEntry η)} {c : Bool}
  {w : World η} {m : Machine Operation (World η)}

/-- The run is at its end: its artifact is held, and nothing is unaccounted for. -/
structure Finished (X : Exempt η) (S : String → Prop) (B : Budget) (s : Bool)
    (entry : ManifestEntry η) (m : Machine Operation (World η)) : Prop where
  stage : Stage X S B s (fun c w => c = true → Held w entry.id entry.ciphertextSha256) m
  tidy : m.failed = [] → Tidy X m.disk

/-- The records `gone` are pruned, and their files may still be there. -/
structure Saved (X : Exempt η) (entry : ManifestEntry η) (gone : List (ManifestEntry η)) (c : Bool)
    (w : World η) : Prop where
  pruned : w.pruned = (gone.map fun e => (e.id, e.ciphertextSha256)) ++ X.before
  unlisted : ∀ e ∈ gone, ¬ w.Listed e.id
  cleared : c = true → ∀ k, Cleared w k
  held : c = true → Held w entry.id entry.ciphertextSha256

/-- The files of `rest` are still to be removed. -/
def Removing (X : Exempt η) (S : String → Prop) (B : Budget) (s : Bool) (entry : ManifestEntry η)
    (gone rest : List (ManifestEntry η)) (m : Machine Operation (World η)) : Prop :=
  Stage X S B s (Saved X entry gone) m ∧
    (m.failed = [] → ∀ e ∈ gone, e ∈ rest ∨ m.disk.dest.get? e.id = none)

theorem Saved.weaken (h : Saved X entry gone c w) : Saved X entry gone false w :=
  { h with
    cleared := by simp
    held := by simp }

theorem Saved.removeDest {e : ManifestEntry η} (h : Saved X entry gone c w) (hinv : Inv X c w)
    (he : e ∈ gone) :
    Inv X c { w with dest := w.dest.erase e.id } ∧
      Saved X entry gone c { w with dest := w.dest.erase e.id } := by
  constructor
  · apply hinv.removeDest (h.unlisted e he)
    intro e' hsidecar
    cases c with
    | true => exact Or.inl (h.cleared rfl e.id e' hsidecar).1
    | false =>
      rcases hinv.core.backed e.id e' hsidecar with hartifact | ⟨hgone, -⟩
      · exact Or.inl hartifact
      · exact Or.inr ⟨hgone, rfl⟩
  · exact
      { pruned := h.pruned
        unlisted := h.unlisted
        cleared := h.cleared
        held := fun hc => (h.held hc).removeDest fun e' hsidecar =>
          (h.cleared hc e.id e' hsidecar).1 }

/-- Once their files are gone, nothing of the pruned records is left. -/
theorem Removing.finished (h : Removing X S B s entry gone [] m) : Finished X S B s entry m where
  stage := h.1.imp fun _ _ hw => hw.held
  tidy := fun hnil id sum hdest => by
    rcases h.1.good.inv.accounted.place id sum hdest with hlisted | hsidecar | hold | hpruned
    · exact Or.inl hlisted
    · exact Or.inr (Or.inl hsidecar)
    · exact Or.inr (Or.inr hold)
    · obtain ⟨gone', hgrown, hmem⟩ := hpruned
      have hsame : gone' = gone.map fun e => (e.id, e.ciphertextSha256) :=
        List.append_cancel_right (hgrown.symm.trans h.1.here.pruned)
      rw [hsame, List.mem_map] at hmem
      obtain ⟨e, he, hpair⟩ := hmem
      have hid : e.id = id := congrArg Prod.fst hpair
      have hremoved := (h.2 hnil e he).resolve_left (by simp)
      simp [hid, hdest] at hremoved

/-- The files go one by one; what cannot be removed stays. -/
theorem removePruned_spec (rest : List (ManifestEntry η)) (hrest : ∀ e ∈ rest, e ∈ gone)
    {E : BackupError → Machine Operation (World η) → Prop} :
    Spec (Removing X S B s entry gone rest) (removePruned rest)
      (fun _ => Finished X S B s entry) E (Durable X B s) := by
  induction rest with
  | nil => exact Spec.pure fun m hm => hm.finished
  | cons e rest ih =>
    apply Spec.bind (Q := fun _ => Removing X S B s entry gone rest)
    · apply Spec.ignore
      apply Spec.write (fun m hm => hm.1.durable)
      · rintro m ⟨hm, -⟩ hb
        exact ⟨hm.fail hb (by simp) fun _ _ hw => hw.weaken, by simp⟩
      · rintro m ⟨hm, hleft⟩
        obtain ⟨hinv, hsaved⟩ := hm.here.removeDest hm.good.inv (hrest e List.mem_cons_self)
        refine ⟨hm.put hinv hsaved, fun hnil f hf => ?_⟩
        by_cases hid : f.id = e.id
        · exact Or.inr (by simp [hid])
        · rcases hleft hnil f hf with hmem | hremoved
          · rcases List.mem_cons.mp hmem with rfl | hrest
            · exact absurd rfl hid
            · exact Or.inl hrest
          · refine Or.inr ?_
            simp only [Machine.put_disk, Table.get?_erase, if_neg hid]
            exact hremoved
    · exact fun _ => ih fun f hf => hrest f (List.mem_cons_of_mem _ hf)

/-- A prune keeps the bases of the Deltas that it keeps. -/
theorem Based.prune [DecidableEq η] (h : Based entries)
    (hnodup : (entries.map ManifestEntry.id).Nodup) :
    Based (entries.filter fun e =>
      !isDoomed (planPrune env.calendar (entries.filter validEntry) env.nowMs) e) := by
  intro e he
  simp only [List.mem_filter, isDoomed, Bool.not_eq_true', Bool.and_eq_false_iff,
    List.contains_eq_mem, decide_eq_false_iff_not] at he
  obtain ⟨he, hkept⟩ := he
  obtain ⟨hvalid, hbase⟩ := h e he
  refine ⟨hvalid, fun hverified hkind => ?_⟩
  obtain ⟨f, hf, hfull, hfverified, hid⟩ := hbase hverified hkind
  have hkept' := hkept.resolve_left (by simp [hvalid])
  have hfvalid := (h f hf).1
  have hsublist : ((entries.filter validEntry).map ManifestEntry.id).Nodup :=
    hnodup.sublist (List.filter_sublist.map _)
  have hfkept := base_notMem_planPrune hsublist (List.mem_filter.mpr ⟨he, hvalid⟩) hverified hkind
    hkept' (List.mem_filter.mpr ⟨hf, hfvalid⟩) hfull hid
  refine ⟨f, ?_, hfull, hfverified, hid⟩
  simp only [List.mem_filter, isDoomed, Bool.not_eq_true', Bool.and_eq_false_iff,
    List.contains_eq_mem, decide_eq_false_iff_not]
  exact ⟨hf, Or.inr hfkept⟩

/-- The manifest in memory is without the expired records, the one on the disk has them. -/
structure Shrunk (W : World η) (X : Exempt η) (entry : ManifestEntry η)
    (entries : List (ManifestEntry η)) (p : ManifestEntry η → Bool) (c : Bool) (w : World η) :
    Prop where
  recorded : Recorded W X entry c { w with memory := some entries }
  loaded : Loaded c { w with memory := some entries } entries
  memory : w.memory = some (entries.filter fun e => !p e)

theorem Finished.of_failed {P : Bool → World η → Prop} {operation : Operation}
    (h : Stage X S B s P m) (hb : 0 < m.budget)
    (hop : ∀ id, operation ≠ .removeOutboxFile id) :
    Finished X S B s entry (m.fail operation) :=
  ⟨h.fail hb (fun id hid => absurd hid (hop id)) fun _ _ _ => by simp, by simp⟩

/-- The saved manifest lists nothing that is gone. -/
theorem Shrunk.save {p : ManifestEntry η → Bool} (h : Shrunk W X entry entries p c w)
    (hinv : Inv X c w) (hbased : Based entries → Based (entries.filter fun e => !p e)) :
    let w' := { w with
      manifest := some (w.memory.getD [])
      pruned := goneWith p entries ++ w.pruned }
    Inv X c w' ∧ Saved X entry (entries.filter p) c w' := by
  intro w'
  have hfull : Inv X c { w with memory := some entries } :=
    hinv.same rfl rfl rfl rfl rfl rfl
  have hentries : c = true → Based entries := fun hc =>
    (hfull.strong hc).based.covered h.loaded.covers (h.loaded.exact hc)
  have hmanifest : w'.manifest = some (entries.filter fun e => !p e) := by
    show some (w.memory.getD []) = _
    rw [h.memory]
    rfl
  have hsaved : Inv X c (World.savePruned { w with memory := some entries } p entries) := by
    apply hfull.savePruned p h.loaded (fun hc => hbased (hentries hc))
    intro hc n e hn hvalid hkind
    exact (h.recorded.cleared hc n e hn).2 ⟨hvalid, hkind⟩
  refine ⟨hsaved.same rfl hmanifest rfl rfl rfl rfl, ?_⟩
  exact
    { pruned := by
        show goneWith p entries ++ w.pruned = _
        have hbefore : w.pruned = X.before := h.recorded.early.pruned
        rw [hbefore]
        rfl
      unlisted := by
        rintro e he ⟨f, hf, hid⟩
        rw [World.entries, hmanifest] at hf
        obtain ⟨hf, hkept⟩ := List.mem_filter.mp hf
        obtain ⟨he, hgone⟩ := List.mem_filter.mp he
        have hsame : f = e := List.inj_on_of_nodup_map h.loaded.nodup hf he hid
        simp [hsame, hgone] at hkept
      cleared := fun hc k => h.recorded.cleared hc k
      held := fun hc => by
        have hheld := (h.recorded.held hc).savePruned h.loaded p
        rcases hheld with ⟨e, he, hrest⟩ | hsidecar | hpruned
        · refine Or.inl ⟨e, ?_, hrest⟩
          rw [World.entries, hmanifest]
          exact he
        · exact Or.inr (Or.inl hsidecar)
        · exact Or.inr (Or.inr hpruned) }

/-- The prune ends the run; an error of its save is ignored. -/
theorem prune_spec [DecidableEq η] {E : BackupError → Machine Operation (World η) → Prop} :
    Spec (Stage X S B s (Recorded W X entry)) (prune env) (fun _ => Finished X S B s entry) E
      (Durable X B s) := by
  apply Spec.bind
      (Q := fun entries => Stage X S B s fun c w => Recorded W X entry c w ∧ Loaded c w entries)
  · apply look_spec
    intro c w hw
    obtain ⟨entries, hl⟩ := hw.loaded
    refine ⟨hw, ?_⟩
    rw [hl.memory]
    exact hl
  intro entries
  let p : ManifestEntry η → Bool :=
    isDoomed (planPrune env.calendar (entries.filter validEntry) env.nowMs)
  apply Spec.ite
  · intro _
    apply Spec.pure
    intro m hm
    exact ⟨hm.imp fun _ _ hw => hw.1.held,
      fun _ => hm.good.inv.accounted.tidy hm.here.1.early.pruned⟩
  · intro _
    apply Spec.bind
    · apply modify_spec (Q := fun _ => Shrunk W X entry entries p)
      rintro c w hinv ⟨hw, hl⟩
      refine ⟨hinv.same rfl rfl rfl rfl rfl rfl, ?_⟩
      have hmemory : { w with memory := some entries } = w := by rw [← hl.memory]
      exact
        { recorded := by
            show Recorded W X entry c { w with memory := some entries }
            rw [hmemory]
            exact hw
          loaded := by
            show Loaded c { w with memory := some entries } entries
            rw [hmemory]
            exact hl
          memory := rfl }
    intro _
    have hsave : Spec (Stage X S B s (Shrunk W X entry entries p))
        (saveManifest (goneWith p entries))
        (fun _ => Removing X S B s entry (entries.filter p) (entries.filter p))
        (fun _ => Finished X S B s entry) (Durable X B s) := by
      apply Spec.bind (touch_spec fun m hm hb => Finished.of_failed hm hb (by simp))
      intro _
      apply Spec.bind (touch_spec fun m hm hb => Finished.of_failed hm hb (by simp))
      intro _
      apply Spec.bind (touch_spec fun m hm hb => Finished.of_failed hm hb (by simp))
      intro _
      apply Spec.post (Q := fun _ => Stage X S B s (Saved X entry (entries.filter p)))
      · apply update_spec
        · exact fun m hm hb => Finished.of_failed hm hb (by simp)
        · intro c w hinv hw
          exact hw.save hinv fun hbased => hbased.prune hw.loaded.nodup
      · exact fun _ m hm => ⟨hm, fun _ e he => Or.inl he⟩
    apply Spec.attempt_bind hsave
    · exact fun _ => removePruned_spec _ fun e he => he
    · exact fun error => Spec.pure fun m hm => hm

end Prune

section Reports

variable {env : RunEnv η} {W : World η} {X : Exempt η} {S : String → Prop} {B : Budget} {s : Bool}
  {entry : ManifestEntry η} {m : Machine Operation (World η)}

/-- The artifact of the report is held, and nothing is unaccounted for. -/
structure RunDone (env : RunEnv η) (X : Exempt η) (S : String → Prop) (B : Budget) (s : Bool)
    (report : RunReport η) (m : Machine Operation (World η)) : Prop where
  stage : Stage X (Tolerated env S) B s (fun c w => c = true → ∀ id sum kind shipped,
    report = .done id sum kind shipped → Held w id sum) m
  tidy : m.failed = [] → Tidy X m.disk

theorem Finished.runDone {kind : ArtifactKind} {shipped : Bool}
    (h : Finished X (Tolerated env S) B s entry m) :
    RunDone env X S B s (.done entry.id entry.ciphertextSha256 kind shipped) m where
  stage := h.stage.imp fun c w hw hc id sum kind shipped hreport => by
    injection hreport with hid hsum
    rw [← hid, ← hsum]
    exact hw hc
  tidy := h.tidy

theorem RunDone.skipped {P : Bool → World η → Prop} {reason : String}
    (h : Stage X (Tolerated env S) B s P m) (hP : ∀ c w, P c w → Early W X w) :
    RunDone env X S B s (.skipped reason) m where
  stage := h.imp fun _ _ _ _ _ _ _ _ hreport => by simp at hreport
  tidy := fun _ => h.good.inv.accounted.tidy (hP _ _ h.here).pruned

/-- The last operations of a run: when they fail nothing was pruned halfway, since all others
went through. -/
theorem RunDone.fail {report : RunReport η} {operation : Operation}
    (h : RunDone env X S B s report m) (hb : 0 < m.budget)
    (hop : ∀ id, operation ≠ .removeOutboxFile id) :
    RunFailed env W X S B s (m.fail operation) where
  durable := h.stage.durable.fail hb
  tidy := fun _ _ hlength => by
    apply h.tidy
    simp only [Machine.fail_failed, List.length_cons] at hlength
    exact List.eq_nil_of_length_eq_zero (by omega)
  leaked := fun hmode id hid hS _ => by
    rcases List.mem_cons.mp hid with hsame | hold
    · exact absurd hsame.symm (hop id)
    · rcases h.stage.good.benign id hold with hbenign | hcheckpoint
      · exact absurd hbenign hS
      · simp [hmode] at hcheckpoint

/-- The base of a Delta is a verified Full of the manifest. -/
def BaseListed (base : Option PageHashes) (c : Bool) (w : World η) : Prop :=
  c = true → ∀ b, base = some b → w.memory.isSome ∧
    ∃ f ∈ w.entries, f.kind = .full ∧ f.verified = true ∧ f.id = b.baseId

/-- Only a run with a base makes a Delta. -/
theorem base_of_delta {mode : RunMode} {base : Option PageHashes}
    (h : chooseKind mode base = .delta) : ∃ b, base = some b := by
  cases mode with
  | checkpoint label => simp [chooseKind] at h
  | scheduled =>
    cases base with
    | none => simp [chooseKind] at h
    | some b => exact ⟨b, rfl⟩

theorem BaseListed.hasBase {c : Bool} {w : World η} {base : Option PageHashes}
    {created : ℤ × String} (h : BaseListed base c w) (hc : c = true)
    (hkind : chooseKind env.mode base = .delta) :
    w.memory.isSome ∧ HasBase w.entries (newEntry env (chooseKind env.mode base) base created) := by
  obtain ⟨b, rfl⟩ := base_of_delta hkind
  obtain ⟨hmemory, f, hf, hfull, hverified, hid⟩ := h hc b rfl
  exact ⟨hmemory, f, hf, hfull, hverified, by simp [newEntry, hid]⟩

theorem mem_of_deltaBase {hashes : Option PageHashes} {entries : List (ManifestEntry η)}
    {base : PageHashes} (h : deltaBase env hashes entries = some base) :
    ∃ f ∈ entries, f.kind = .full ∧ f.verified = true ∧ f.id = base.baseId := by
  simp only [deltaBase, Option.bind_eq_bind, Option.bind_eq_some_iff] at h
  obtain ⟨base', -, f, hf, _, -, _, -, hbase⟩ := h
  have hsame : base' = base := by
    split at hbase
    · exact Option.some.inj hbase
    · simp at hbase
  subst hsame
  have hfound := List.find?_some hf
  simp only [Bool.and_eq_true, decide_eq_true_eq] at hfound
  obtain ⟨⟨⟨hverified, hkind⟩, hid⟩, -⟩ := hfound
  exact ⟨f, List.mem_of_find?_eq_some hf, hkind, hverified, hid⟩

theorem Ready.baseListed {c : Bool} {w : World η} {entries : List (ManifestEntry η)}
    {hashes : Option PageHashes} (h : Ready W X S c w) (hmemory : w.memory = some entries) :
    BaseListed (deltaBase env hashes entries) c w := by
  intro hc b hb
  obtain ⟨f, hf, hkind, hverified, hid⟩ := mem_of_deltaBase hb
  have hsome : w.memory.isSome := by simp [hmemory]
  obtain ⟨entries', hl⟩ := (h.working hsome).loaded
  have hsame : entries' = entries := Option.some.inj (hl.memory.symm.trans hmemory)
  rw [hsame] at hl
  obtain ⟨f', hf', hrecord⟩ := hl.exact hc f hf
  exact ⟨hsome, f', hf', hrecord.kind.symm.trans hkind, hrecord.verified.symm.trans hverified,
    hrecord.id.symm.trans hid⟩

/-- The status does not matter. -/
theorem Durable.setStatus (h : Durable X B s m) (last : Option ℤ) :
    Durable X B s (m.put { m.disk with lastScheduledMs := last }) where
  core := { h.core with }
  sound := fun hc => by
    obtain ⟨haccounted, hstrong⟩ := h.sound hc
    exact ⟨{ haccounted with }, { hstrong with }⟩
  spent := h.spent

/-- After the artifact was shipped, or not. -/
theorem finishRun_spec [DecidableEq η] (kind : ArtifactKind) (shipped : Bool)
    (hsum : env.sum = entry.ciphertextSha256) :
    Spec (fun m =>
        (shipped = true ∧ Stage X (Tolerated env S) B s (Recorded W X entry) m) ∨
        (shipped = false ∧ Stage X (Tolerated env S) B s (Kept W X entry) m))
      (finishRun env entry.id kind shipped) (RunDone env X S B s)
      (fun _ => RunFailed env W X S B s) (Durable X B s) := by
  rw [finishRun, hsum]
  cases shipped with
  | true =>
    rw [if_pos rfl]
    apply Spec.pre (P := Stage X (Tolerated env S) B s (Recorded W X entry))
    · have hprune : Spec (Stage X (Tolerated env S) B s (Recorded W X entry))
          (do
            prune env
            return .done entry.id entry.ciphertextSha256 kind true)
          (RunDone env X S B s) (fun _ => RunFailed env W X S B s) (Durable X B s) := by
        apply Spec.bind prune_spec
        exact fun _ => Spec.pure fun m hm => hm.runDone
      show Spec _ (if kind = .full then _ else _) _ _ _
      apply Spec.ite
      · intro _
        apply Spec.bind _ fun _ => hprune
        apply update_spec (Q := fun _ => Recorded W X entry)
        · exact fun m hm hb => RunFailed.of_fail hm hb (by simp) fun _ _ hw => hw.early
        · intro c w hinv hw
          refine ⟨hinv.same rfl rfl rfl rfl rfl rfl, ?_⟩
          exact
            { early := { hw.early with }
              loaded := hw.loaded.imp fun _ hl => { hl with }
              cleared := fun hc k => hw.cleared hc k
              held := hw.held }
      · exact fun _ => hprune
    · intro m hm
      simpa using hm
  | false =>
    rw [if_neg (by simp)]
    apply Spec.pre (P := Stage X (Tolerated env S) B s (Kept W X entry))
    · apply Spec.bind (ensure_early fun _ _ hw => hw.early)
      intro _
      apply Spec.pure
      rintro m ⟨-, hm⟩
      have hfinished : Finished X (Tolerated env S) B s entry m :=
        ⟨hm.imp fun _ _ hw => hw.held, fun _ => hm.good.inv.accounted.tidy hm.here.early.pruned⟩
      exact hfinished.runDone
    · intro m hm
      simpa using hm

theorem createAndShip_spec [DecidableEq η] (hsum : env.sum = entry.ciphertextSha256) :
    Spec (Stage X (Tolerated env S) B s (Created W X S entry none none))
      (createAndShip env entry) (RunDone env X S B s) (fun _ => RunFailed env W X S B s)
      (Durable X B s) := by
  rw [createAndShip, hsum]
  apply Spec.bind writeArtifact_spec
  intro _
  apply Spec.bind (attempt_spec writeSidecar_spec)
  intro written
  cases written with
  | error error =>
    apply Spec.bind undoArtifact_spec
    exact fun _ => Spec.throw fun m hm => RunFailed.of_unpruned hm
  | ok _ =>
    apply Spec.bind shipOwn_spec
    exact fun shipped => finishRun_spec entry.kind shipped hsum

theorem chooseBase_spec {E : BackupError → Machine Operation (World η) → Prop} :
    Spec (Stage X (Tolerated env S) B s (Ready W X S)) (chooseBase env)
      (fun base => Stage X (Tolerated env S) B s fun c w => Ready W X S c w ∧ BaseListed base c w)
      E (Durable X B s) := by
  have hnone : ∀ (c : Bool) (w : World η), BaseListed none c w := by
    intro c w _ b hb
    simp at hb
  apply Spec.bind (Q := fun entries => Stage X (Tolerated env S) B s fun c w => Ready W X S c w ∧
    w.memory = entries)
  · exact look_spec fun c w hw => ⟨hw, rfl⟩
  intro entries
  have hskip : Spec (Stage X (Tolerated env S) B s fun c w => Ready W X S c w ∧
        w.memory = entries) (return none : BackupM η (Option PageHashes))
      (fun base => Stage X (Tolerated env S) B s fun c w => Ready W X S c w ∧ BaseListed base c w)
      E (Durable X B s) :=
    Spec.pure fun m hm => hm.imp fun c w hw => ⟨hw.1, hnone c w⟩
  cases hmode : env.mode with
  | checkpoint label => exact hskip
  | scheduled =>
    cases entries with
    | none => exact hskip
    | some entries =>
      apply Spec.bind (Q := fun _ => Stage X (Tolerated env S) B s fun c w =>
        Ready W X S c w ∧ w.memory = some entries)
      · apply Spec.attempt (R := fun _ => Stage X (Tolerated env S) B s fun c w =>
          Ready W X S c w ∧ w.memory = some entries)
        apply read_spec (Q := fun _ c w => Ready W X S c w ∧ w.memory = some entries)
        · exact fun m hm hb => hm.fail hb (by simp) fun _ _ hw => ⟨hw.1.weaken, hw.2⟩
        · exact fun c w hashes hw _ => hw
        · exact fun m hm _ => hm
      intro result
      cases result with
      | error error => exact hskip
      | ok hashes =>
        exact Spec.pure fun m hm => hm.imp fun c w hw => ⟨hw.1, hw.1.baseListed hw.2⟩

/-- Takes the snapshot and makes the artifact. -/
theorem buildArtifact_spec [DecidableEq η] :
    Spec (Stage X (Tolerated env S) B s (Ready W X S)) (buildArtifact env) (RunDone env X S B s)
      (fun _ => RunFailed env W X S B s) (Durable X B s) := by
  apply Spec.bind (touch_early (by simp) fun _ _ hw => hw.early)
  intro _
  apply Spec.bind (touch_early (by simp) fun _ _ hw => hw.early)
  intro _
  apply Spec.bind chooseBase_spec
  intro base
  let kind := chooseKind env.mode base
  apply Spec.bind (Q := fun unused => Stage X (Tolerated env S) B s fun c w =>
    Early W X w ∧ ∀ created, unused = some created →
      Created W X S (newEntry env kind base created) none none c w)
  · apply Spec.look
    intro m hm
    refine ⟨hm.good, hm.here.1.early, fun created hunused => ?_⟩
    have hfree : m.disk.taken created.2 = false := by
      have hfound := List.find?_some hunused
      simpa using hfound
    exact hm.here.1.create hm.good.inv hfree fun hc hkind => hm.here.2.hasBase hc hkind
  intro unused
  cases unused with
  | none => exact Spec.throw fun m hm => RunFailed.of_unpruned (hm.imp fun _ _ hw => hw.1)
  | some created =>
    let entry := newEntry env kind base created
    have hcreate : Spec (Stage X (Tolerated env S) B s (Created W X S entry none none))
        (createAndShip env entry) (RunDone env X S B s) (fun _ => RunFailed env W X S B s)
        (Durable X B s) := createAndShip_spec rfl
    have hdiff : Spec (Stage X (Tolerated env S) B s (Created W X S entry none none))
        (if kind = .delta then do
          touch .writeDiff
          Proc.ensure env.diffVerified .deltaVerification
          createAndShip env entry
        else createAndShip env entry)
        (RunDone env X S B s) (fun _ => RunFailed env W X S B s) (Durable X B s) := by
      apply Spec.ite
      · intro _
        apply Spec.bind (touch_early (by simp) fun _ _ hw => hw.early)
        intro _
        apply Spec.bind (ensure_early fun _ _ hw => hw.early)
        exact fun _ => Spec.of_fact fun _ => hcreate
      · exact fun _ => hcreate
    apply Spec.pre (P := Stage X (Tolerated env S) B s (Created W X S entry none none))
    · show Spec _ (if kind = .checkpoint then _ else _) _ _ _
      apply Spec.ite
      · exact fun _ => hdiff
      · intro _
        apply Spec.bind (touch_early (by simp) fun _ _ hw => hw.early)
        exact fun _ => hdiff
    · exact fun m hm => hm.imp fun _ _ hw => hw.2 created rfl

theorem snapshotAndShip_spec [DecidableEq η] :
    Spec (Stage X (Tolerated env S) B s (Ready W X S)) (snapshotAndShip env) (RunDone env X S B s)
      (fun _ => RunFailed env W X S B s) (Durable X B s) := by
  apply Spec.bind (ensure_early fun _ _ hw => hw.early)
  intro _
  apply Spec.of_fact
  intro _
  apply Spec.bind (touch_early (by simp) fun _ _ hw => hw.early)
  intro _
  apply Spec.bind (touch_early (by simp) fun _ _ hw => hw.early)
  intro _
  apply Spec.ite
  · exact fun _ => Spec.pure fun m hm => RunDone.skipped hm fun _ _ hw => hw.early
  · exact fun _ => buildArtifact_spec

/-- Whether the run makes an artifact at all. -/
theorem gateRun_spec [DecidableEq η] (waiting : ℕ) :
    Spec (Stage X (Tolerated env S) B s (Ready W X S)) (gateRun env waiting) (RunDone env X S B s)
      (fun _ => RunFailed env W X S B s) (Durable X B s) := by
  rw [gateRun]
  cases hmode : env.mode with
  | scheduled =>
    apply Spec.bind (ensure_early fun _ _ hw => hw.early)
    intro _
    apply Spec.of_fact
    intro _
    apply Spec.bind (Q := fun _ => Stage X (Tolerated env S) B s (Ready W X S))
      (Spec.look fun m hm => hm)
    intro last
    apply Spec.ite
    · exact fun _ => Spec.pure fun m hm => RunDone.skipped hm fun _ _ hw => hw.early
    · exact fun _ => snapshotAndShip_spec
  | checkpoint label =>
    have hgate : ∀ skip : Bool, Spec (Stage X (Tolerated env S) B s (Ready W X S))
        (if skip then return .skipped ("a verified checkpoint labeled " ++ label ++ " already exists")
        else snapshotAndShip env)
        (RunDone env X S B s) (fun _ => RunFailed env W X S B s) (Durable X B s) := by
      intro skip
      apply Spec.ite
      · exact fun _ => Spec.pure fun m hm => RunDone.skipped hm fun _ _ hw => hw.early
      · exact fun _ => snapshotAndShip_spec
    show Spec _ (if env.once = true then _ else _) _ _ _
    apply Spec.ite
    · intro _
      apply Spec.bind _ hgate
      exact hasCheckpoint_spec label (fun _ _ hw => hw.weaken) fun _ _ hw => hw.early
    · exact fun _ => hgate false

theorem runLocked_spec [DecidableEq η] :
    Spec (Stage X S B s fun _ => Begin W X S) (runLocked env) (RunDone env X S B s)
      (fun _ => RunFailed env W X S B s) (Durable X B s) := by
  have hfail : ∀ m, Stage X S B s (Unpruned W X) m → RunFailed env W X S B s m := fun m hm =>
    RunFailed.of_unpruned (hm.mono (fun _ hid => Or.inl hid) fun _ _ hw => hw)
  apply Spec.bind
  · apply Spec.mono (tolerate_spec (fun _ _ hw => hw.1.early) loadManifest_spec)
    · exact fun m hm => hm
    · exact fun _ m hm => hm
    · exact fun _ m hm => hfail m hm
    · exact fun m hm => hm
  intro _
  apply Spec.bind
  · apply Spec.mono (shipWaiting_spec env)
    · exact fun m hm => hm
    · exact fun _ m hm => hm
    · exact fun _ m hm => hfail m hm
    · exact fun m hm => hm
  intro waiting
  apply (gateRun_spec waiting).pre
  exact fun m hm => hm.mono (fun _ hid => Or.inl hid) fun _ _ hw => hw

theorem saveStatus_failed_spec (last : Option ℤ) {E : BackupError → Machine Operation (World η) → Prop} :
    Spec (RunFailed env W X S B s) (saveStatus last : BackupM η Unit).ignore
      (fun _ => RunFailed env W X S B s) E (Durable X B s) := by
  apply Spec.ignore
  apply Spec.bind (Q := fun _ => RunFailed env W X S B s)
  · apply Spec.write (fun m hm => hm.durable)
    · exact fun m hm hb => hm.fail hb (by simp)
    · exact fun m hm => hm
  intro _
  apply Spec.write (fun m hm => hm.durable)
  · exact fun m hm hb => hm.fail hb (by simp)
  · intro m hm
    exact
      { durable := hm.durable.setStatus last
        tidy := hm.tidy
        leaked := hm.leaked }

theorem saveStatus_spec (last : Option ℤ) (report : RunReport η) :
    Spec (RunDone env X S B s report) (saveStatus last)
      (fun _ => RunDone env X S B s report) (fun _ => RunFailed env W X S B s)
      (Durable X B s) := by
  apply Spec.bind (Q := fun _ => RunDone env X S B s report)
  · apply Spec.write (fun m hm => hm.stage.durable)
    · exact fun m hm hb => hm.fail hb (by simp)
    · exact fun m hm => hm
  intro _
  apply Spec.write (fun m hm => hm.stage.durable)
  · exact fun m hm hb => hm.fail hb (by simp)
  · intro m hm
    exact
      { stage := hm.stage.put (hm.stage.good.inv.same rfl rfl rfl rfl rfl rfl) hm.stage.here
        tidy := hm.tidy }

/-- A whole run. -/
theorem runHoldingLock_spec [DecidableEq η] (env : RunEnv η) :
    Spec (Stage X S B s fun _ => Begin W X S) (runHoldingLock env) (RunDone env X S B s)
      (fun _ => RunFailed env W X S B s) (Durable X B s) := by
  apply Spec.bind (Q := fun _ => Stage X S B s fun _ => Begin W X S) (Spec.look fun m hm => hm)
  intro last
  apply Spec.attempt_bind runLocked_spec
  · intro report
    apply Spec.bind (saveStatus_spec _ report)
    exact fun _ => Spec.pure fun m hm => hm
  · intro error
    apply Spec.bind (saveStatus_failed_spec last)
    exact fun _ => Spec.throw fun m hm => hm

end Reports

end Hippo.Backup
