import Hippo.BackupReports
import Hippo.Transition

/-!
# Backups that are killed, and backups that fail

Whatever a run is killed in the middle of, every artifact of the destination stays accounted for
and every artifact that was reported stays held. A scheduled run with one failed operation leaves
no new artifact without a record, except for the copy of its own artifact when the outbox delete
is what fails.
-/
namespace Hippo.Backup

open Hippo.Interruption Hippo.Transition

variable {η : Type}

/-- Its sidecar and its artifact are in the outbox. -/
def World.InOutbox (w : World η) (id : String) : Prop :=
  (w.sidecars.get? id).isSome ∧ (w.artifacts.get? id).isSome

section Outcomes

variable [DecidableEq η] {w : World η} {X : Exempt η} {s : Bool}

/-- What a run makes of its start. -/
def RunOutcome (w : World η) (X : Exempt η) (env : RunEnv η) (budget : ℕ) (s : Bool) :
    Outcome BackupError (RunReport η) → Machine Operation (World η) → Prop
  | .ok report, m => RunDone env X w.InOutbox ⟨budget, 0⟩ s report m
  | .error _, m => RunFailed env w X w.InOutbox ⟨budget, 0⟩ s m
  | .killed, m => Durable X ⟨budget, 0⟩ s m

theorem runFrom_outcome (hinv : Inv X s w) (hbefore : X.before = w.pruned) (env : RunEnv η)
    (budget : ℕ) (fates : List Fate) :
    RunOutcome w X env budget s (runFrom w env budget fates).1
      (runFrom w env budget fates).2.2 := by
  let m₀ : Machine Operation (World η) := { disk := w, budget := budget }
  have hbegin : Begin w X w.InOutbox w :=
    { early :=
        { pruned := hbefore.symm
          lasting := fun _ hk => hk }
      waiting := fun _ => Iff.rfl }
  have hstart : Stage X w.InOutbox ⟨budget, 0⟩ s (fun _ => Begin w X w.InOutbox) m₀ := by
    refine ⟨⟨?_, by simp [m₀], by simp [m₀]⟩, hbegin⟩
    simpa [clean, m₀] using hinv
  have hrun := runHoldingLock_spec env fates m₀ hstart
  revert hrun
  show _ → RunOutcome w X env budget s (runHoldingLock env fates m₀).1
    (runHoldingLock env fates m₀).2.2
  rcases runHoldingLock env fates m₀ with ⟨outcome, rest, m⟩
  cases outcome with
  | ok report => exact fun h => h
  | error error => exact fun h => h
  | killed => exact fun h => h

end Outcomes

section Killed

variable {w w' : World η} {X : Exempt η}

/-- The exempt artifacts are those whose removal was committed. -/
def World.exempt (w : World η) : Exempt η where
  old := fun artifact => artifact ∈ w.pruned
  before := w.pruned

/-- What holds as long as no operation fails. -/
structure Sound (w : World η) : Prop where
  core : Core w
  accounted : Accounted w.exempt w
  strong : Strong w

/-- **Destination safety.** Files in the destination are accounted for, the manifest lists what
is there, and nothing that was reported is lost. -/
structure DestinationSafe (w : World η) : Prop where
  accounted : ∀ id sum, w.dest.get? id = some sum →
    (∃ e ∈ w.entries, e.id = id ∧ e.ciphertextSha256 = sum) ∨ (w.sidecars.get? id).isSome ∨
      (id, sum) ∈ w.pruned
  listed : ∀ e ∈ w.entries, w.dest.get? e.id = some e.ciphertextSha256
  nodup : (w.entries.map ManifestEntry.id).Nodup
  based : ∀ e ∈ w.entries, e.verified = true → e.kind = .delta → HasBase w.entries e
  held : ∀ id sum, (id, sum) ∈ w.done → Held w id sum

/-- Operations do not fail; a run may still be killed. -/
def NoFailure (_ : World η) : Action η → Prop
  | .run _ budget _ => budget = 0
  | .setAvailable _ => True

theorem Sound.inv (h : Sound w) : Inv w.exempt true w :=
  ⟨h.core, h.accounted, fun _ => h.strong⟩

theorem Sound.safe (h : Sound w) : DestinationSafe w where
  accounted := fun id sum hdest => by
    rcases h.accounted.place id sum hdest with ⟨e, he, hid⟩ | hsidecar | hold | ⟨gone, hgrown, hmem⟩
    · have hfound := h.core.listed e he
      rw [hid] at hfound
      exact Or.inl ⟨e, he, hid, (Option.some.inj (hdest.symm.trans hfound)).symm⟩
    · exact Or.inr (Or.inl hsidecar)
    · exact Or.inr (Or.inr hold)
    · rw [hgrown]
      exact Or.inr (Or.inr (List.mem_append_left _ hmem))
  listed := h.core.listed
  nodup := h.core.nodup
  based := fun e he => (h.strong.based e he).2
  held := h.strong.held

theorem Sound.fresh : Sound (World.fresh : World η) where
  core := ⟨by simp [World.entries, World.fresh], by simp [World.entries, World.fresh],
    by simp [World.fresh], by simp [World.fresh]⟩
  accounted := ⟨⟨[], rfl⟩, by simp [World.fresh]⟩
  strong := ⟨by simp [Based, World.entries, World.fresh], by simp [World.fresh],
    by simp [World.fresh], by simp [World.fresh]⟩

/-- What was exempt at the start of a run has been removed since. -/
theorem Accounted.grow (h : Accounted w.exempt w') : Accounted w'.exempt w' where
  grown := ⟨[], rfl⟩
  place := fun id sum hdest => by
    obtain ⟨gone, hgrown⟩ := h.grown
    rcases h.place id sum hdest with hlisted | hsidecar | hold | ⟨gone', hgrown', hmem⟩
    · exact Or.inl hlisted
    · exact Or.inr (Or.inl hsidecar)
    · refine Or.inr (Or.inr (Or.inl ?_))
      show _ ∈ w'.pruned
      rw [hgrown]
      exact List.mem_append_right _ hold
    · refine Or.inr (Or.inr (Or.inl ?_))
      show _ ∈ w'.pruned
      rw [hgrown']
      exact List.mem_append_left _ hmem

theorem Durable.no_failure {B : Budget} {s : Bool} {m : Machine Operation (World η)}
    (h : Durable X B s m) (hB : B.total = 0) : m.failed = [] := by
  have hspent : m.failed.length + m.budget = B.total := h.spent
  exact List.eq_nil_of_length_eq_zero (by omega)

/-- A killed or failed run. -/
theorem Durable.sound_of_clean {B : Budget} {m : Machine Operation (World η)}
    (h : Durable w.exempt B true m) (hB : B.total = 0) : Sound m.disk := by
  have hnil : m.failed = [] := h.no_failure hB
  obtain ⟨haccounted, hstrong⟩ := h.sound (by simp [clean, hnil])
  exact ⟨h.core, haccounted.grow, hstrong⟩

theorem Sound.forget (h : Sound w) : Sound { w with memory := none } where
  core := { h.core with }
  accounted := { h.accounted with }
  strong := { h.strong with }

/-- The run reports an artifact that it holds. -/
theorem Sound.report (h : Sound w) {id : String} {sum : η} (hheld : Held w id sum) :
    Sound { w with
      memory := none
      done := (id, sum) :: w.done } where
  core := { h.core with }
  accounted := { h.accounted with }
  strong :=
    { h.strong with
      held := fun id' sum' hdone => by
        rcases List.mem_cons.mp hdone with hnew | hold
        · obtain ⟨rfl, rfl⟩ := Prod.mk.inj hnew
          exact hheld
        · exact h.strong.held id' sum' hold }

theorem Sound.step [DecidableEq η] {a : Action η} (h : Sound w) (hok : NoFailure w a)
    (hs : step w a = some w') : Sound w' := by
  cases a with
  | setAvailable available =>
    obtain rfl : { w with available := available } = w' := Option.some.inj hs
    exact ⟨{ h.core with }, { h.accounted with }, { h.strong with }⟩
  | run env budget fates =>
    obtain rfl : budget = 0 := hok
    have houtcome := runFrom_outcome h.inv rfl env 0 fates
    obtain rfl := Option.some.inj hs
    revert houtcome
    rcases runFrom w env 0 fates with ⟨outcome, rest, m⟩
    intro houtcome
    cases outcome with
    | error error => exact (houtcome.durable.sound_of_clean rfl).forget
    | killed => exact (Durable.sound_of_clean houtcome rfl).forget
    | ok report =>
      have hsound : Sound m.disk := houtcome.stage.durable.sound_of_clean rfl
      cases report with
      | skipped reason => exact hsound.forget
      | done id sum kind shipped =>
        have hnil : m.failed = [] := houtcome.stage.durable.no_failure rfl
        exact hsound.report
          (houtcome.stage.here (by simp [clean, hnil]) id sum kind shipped rfl)

/-- **Backup destination safety.** In every state reached by runs that may be killed before any
of their operations, the destination is safe. -/
theorem destination_safe [DecidableEq η] (h : Run step NoFailure World.fresh w) :
    DestinationSafe w := by
  have hsound : Sound w := h.invariant (fun _ _ _ hs hok => hs.step hok) Sound.fresh
  exact hsound.safe

instance (w : World η) : DecidablePred (NoFailure w)
  | .run _ budget _ => inferInstanceAs (Decidable (budget = 0))
  | .setAvailable _ => inferInstanceAs (Decidable True)

/-- The week of Monday, November 2, 2026. -/
def novemberWeek : Calendar where
  month := fun _ => some (2026, 11)
  isoWeek := fun _ => some (2026, 45)
  timestamp := fun ms =>
    if ms < 1793870000000 then "20261102T091320Z" else "20261105T091320Z"

def novemberRun (mode : RunMode) (nowMs : ℤ) : RunEnv ℕ where
  calendar := novemberWeek
  mode := mode
  nowMs := nowMs
  once := false
  sum := 5
  pageSize := 4096
  recipientOk := true
  recoveryHeld := false
  diffVerified := true
  uploaded := fun _ => false
  exclusiveRename := true

def monday : ℤ := 1793610800000

def thursday : ℤ := 1793870000000

/-- A Full, a Delta on top of it, and a checkpoint that is killed when its copy is in place. -/
theorem killedCheckpoint_safe : ∃ w : World ℕ, Run step NoFailure World.fresh w ∧
    (w.entries.map ManifestEntry.kind = [.full, .delta] ∧
      w.dest.keys.length = 3 ∧ w.sidecars.keys.length = 1) ∧ DestinationSafe w := by
  obtain ⟨w, hrun, hstate⟩ : ∃ w : World ℕ, Run step NoFailure World.fresh w ∧
      (w.entries.map ManifestEntry.kind = [.full, .delta] ∧
        w.dest.keys.length = 3 ∧ w.sidecars.keys.length = 1) :=
    exists_run_of_exec
      (l := [.run (novemberRun .scheduled monday) 0 (List.replicate 40 .goes),
        .run (novemberRun .scheduled thursday) 0 (List.replicate 40 .goes),
        .run (novemberRun (.checkpoint "Pre Re-Embed!") thursday) 0 (List.replicate 20 .goes)])
      (by decide +kernel)
  exact ⟨w, hrun, hstate, destination_safe hrun⟩

/-- A checkpoint was reported while the destination was away. The next run ships it and is
killed before it saves the manifest: the artifact is neither recorded nor in the outbox. -/
theorem killedShipping_moves : ∃ w : World ℕ, Run step NoFailure World.fresh w ∧
    ("hippo-checkpoint-20261102T091320Z-pre-re-embed", 5) ∈ w.done ∧ w.entries = [] ∧
    w.artifacts.get? "hippo-checkpoint-20261102T091320Z-pre-re-embed" = none ∧ w.pruned = [] :=
  exists_run_of_exec
    (l := [.setAvailable false,
      .run (novemberRun (.checkpoint "Pre Re-Embed!") monday) 0 (List.replicate 40 .goes),
      .setAvailable true,
      .run (novemberRun .scheduled thursday) 0 (List.replicate 14 .goes)])
    (by decide +kernel)

end Killed

section Failed

variable {w : World η}

/-- The artifact is listed in the manifest or has its sidecar in the outbox. -/
def World.Recorded (w : World η) (id : String) : Prop :=
  w.Listed id ∨ (w.sidecars.get? id).isSome

def AllRecorded (w : World η) : Prop :=
  ∀ id, (w.dest.get? id).isSome → w.Recorded id

/-- What has no record in the destination had none before. -/
def LeavesNone (w w' : World η) : Prop :=
  ∀ id, (w'.dest.get? id).isSome → w'.Recorded id ∨
    (w'.dest.get? id = w.dest.get? id ∧ ¬ w.Recorded id)

theorem leavesNone_iff {w' : World η} (h : AllRecorded w) :
    LeavesNone w w' ↔ AllRecorded w' := by
  constructor
  · intro hleaves id hdest
    rcases hleaves id hdest with hrecorded | ⟨hsame, hstray⟩
    · exact hrecorded
    · exact absurd (h id (by rw [← hsame]; exact hdest)) hstray
  · exact fun hall id hdest => Or.inl (hall id hdest)

/-- The artifacts without a record, when a run starts. -/
def World.strays (w : World η) : Exempt η where
  old := fun artifact => w.dest.get? artifact.1 = some artifact.2 ∧ ¬ w.Recorded artifact.1
  before := w.pruned

theorem Core.inv_strays (h : Core w) : Inv w.strays false w where
  core := h
  accounted :=
    { grown := ⟨[], rfl⟩
      place := fun id sum hdest => by
        by_cases hrecorded : w.Recorded id
        · rcases hrecorded with hlisted | hsidecar
          · exact Or.inl hlisted
          · exact Or.inr (Or.inl hsidecar)
        · exact Or.inr (Or.inr (Or.inl ⟨hdest, hrecorded⟩)) }
  strong := by simp

theorem Core.forget (h : Core w) (done : List (String × η)) :
    Core { w with
      memory := none
      done := done } :=
  { h with }

/-- `Core` holds whatever fails. -/
theorem Core.step [DecidableEq η] {w' : World η} {a : Action η} (h : Core w)
    (hs : step w a = some w') : Core w' := by
  cases a with
  | setAvailable available =>
    obtain rfl : { w with available := available } = w' := Option.some.inj hs
    exact { h with }
  | run env budget fates =>
    have houtcome := runFrom_outcome h.inv_strays rfl env budget fates
    obtain rfl := Option.some.inj hs
    revert houtcome
    rcases runFrom w env budget fates with ⟨outcome, rest, m⟩
    intro houtcome
    cases outcome with
    | error error => exact houtcome.durable.core.forget _
    | killed => exact houtcome.core.forget _
    | ok report =>
      have hcore : Core m.disk := houtcome.stage.good.inv.core
      cases report with
      | skipped reason => exact hcore.forget _
      | done id sum kind shipped => exact hcore.forget _

theorem core_of_reaches [DecidableEq η] (h : Reaches step World.fresh w) : Core w :=
  Run.invariant h (fun _ _ _ hs _ hstep => hs.step hstep) Sound.fresh.core

/-- A failed scheduled run leaves nothing unless the delete that failed is of its own artifact. -/
theorem RunFailed.leavesNone_iff {env : RunEnv η} {budget : ℕ} {m : Machine Operation (World η)}
    (h : RunFailed env w w.strays w.InOutbox ⟨budget, 0⟩ false m) (hmode : env.mode = .scheduled)
    (hbudget : budget ≤ 1) :
    LeavesNone w m.disk ↔
      ∀ id, Operation.removeOutboxFile id ∈ m.failed → w.InOutbox id := by
  have hscheduled : env.mode.isCheckpoint = false := by
    rw [hmode]
    rfl
  have hlength : m.failed.length ≤ 1 := by
    have hspent : m.failed.length + m.budget = budget := h.durable.spent
    omega
  constructor
  · intro hleaves id hfailed
    by_contra hnew
    obtain ⟨hdest, hlisted, hsidecar, hbefore⟩ := h.leaked hscheduled id hfailed hnew hlength
    rcases hleaves id hdest with (hthere | hthere) | ⟨hsame, -⟩
    · exact hlisted hthere
    · simp [hsidecar] at hthere
    · simp [hsame, hbefore] at hdest
  · intro hbenign id hdest
    obtain ⟨sum, hsum⟩ := Option.isSome_iff_exists.mp hdest
    rcases h.tidy hscheduled hbenign hlength id sum hsum with hlisted | hsidecar | ⟨hold, hstray⟩
    · exact Or.inl (Or.inl hlisted)
    · exact Or.inl (Or.inr hsidecar)
    · exact Or.inr ⟨hsum.trans hold.symm, hstray⟩

theorem ensureOurs_accepts (names : List String) {D : Machine Operation (World η) → Prop} :
    Spec (fun m => ∀ name ∈ names, (m.disk.sidecars.get? name).isSome)
      (ensureOurs names : BackupM η Unit) (fun _ _ => True) (fun _ _ => False) D := by
  induction names with
  | nil => exact Spec.pure fun _ _ => trivial
  | cons name names ih =>
    apply Spec.bind (Q := fun ours m => ours = true ∧
      ∀ name ∈ names, (m.disk.sidecars.get? name).isSome)
    · apply Spec.look
      exact fun m hm => ⟨hm name List.mem_cons_self, fun n hn => hm n (List.mem_cons_of_mem _ hn)⟩
    intro ours
    apply Spec.of_fact
    rintro rfl
    exact ih

/-- When everything is recorded, the next run does not refuse the destination. -/
theorem loadManifest_accepts (h : AllRecorded w) (budget : ℕ) (fates : List Fate) (name : String) :
    ((loadManifest : BackupM η Unit) fates { disk := w, budget := budget }).1 ≠
      .error (.holdsArtifacts name) := by
  let Refused : BackupError → Machine Operation (World η) → Prop :=
    fun error _ => error ≠ .holdsArtifacts name
  let Loading : Machine Operation (World η) → Prop := fun m => AllRecorded m.disk
  have hio : ∀ operation, Spec Loading (touch operation : BackupM η Unit) (fun _ => Loading) Refused
      (fun _ => True) := by
    intro operation
    apply Spec.write (fun _ _ => trivial)
    · intro m _ _
      show BackupError.io operation ≠ .holdsArtifacts name
      simp
    · exact fun m hm => hm
  have hload : Spec Loading (loadManifest : BackupM η Unit) (fun _ _ => True) Refused
      (fun _ => True) := by
    apply Spec.bind (Q := fun _ => Loading)
    · apply Spec.modify
      exact fun m hm => hm
    intro _
    apply Spec.bind (Q := fun _ => Loading) (Spec.look fun m hm => hm)
    intro available
    apply Spec.ite
    · intro _
      apply Spec.bind (hio _)
      intro _
      apply Spec.bind (Q := fun manifest m => manifest = m.disk.manifest ∧ Loading m)
        (Spec.look fun m hm => ⟨rfl, hm⟩)
      intro manifest
      cases manifest with
      | some entries => exact Spec.modify fun _ _ => trivial
      | none =>
        apply Spec.bind (Q := fun _ m => none = m.disk.manifest ∧ Loading m)
        · apply Spec.write (fun _ _ => trivial)
          · intro m _ _
            show BackupError.io .readDest ≠ .holdsArtifacts name
            simp
          · exact fun m hm => hm
        intro _
        apply Spec.bind
            (Q := fun names m => ∀ name ∈ names, (m.disk.sidecars.get? name).isSome)
        · apply Spec.look
          rintro m ⟨hmanifest, hm⟩ n hn
          obtain ⟨sum, hsum⟩ := Table.mem_keys.mp hn
          rcases hm n (by simp [hsum]) with ⟨e, he, -⟩ | hsidecar
          · simp [World.entries, ← hmanifest] at he
          · exact hsidecar
        intro names
        apply Spec.bind (Q := fun _ _ => True)
        · apply Spec.mono (ensureOurs_accepts names (D := fun _ => True))
          · exact fun m hm => hm
          · exact fun _ _ hm => hm
          · exact fun _ _ hm => hm.elim
          · exact fun _ hm => hm
        · exact fun _ => Spec.modify fun _ _ => trivial
    · exact fun _ => Spec.pure fun _ _ => trivial
  have hrun := hload fates { disk := w, budget := budget } h
  revert hrun
  rcases (loadManifest : BackupM η Unit) fates { disk := w, budget := budget } with
    ⟨outcome, rest, m⟩
  cases outcome with
  | ok a => simp
  | killed => simp
  | error error =>
    intro hrefused hsame
    injection hsame with hsame
    exact hrefused hsame

/-- **Failed scheduled backups.** A scheduled run that fails with at most one failed operation
leaves no artifact without a record exactly when that operation is not the outbox delete of an
artifact that was not in the outbox, with its sidecar, when the run began; and where everything
is recorded the next run accepts the destination. -/
theorem failed_run_recorded_iff [DecidableEq η] (h : Reaches step World.fresh w) {env : RunEnv η}
    (hmode : env.mode = .scheduled) {budget : ℕ} (hbudget : budget ≤ 1) {fates : List Fate}
    {error : BackupError} (herror : (runFrom w env budget fates).1 = .error error) :
    let m := (runFrom w env budget fates).2.2
    (LeavesNone w m.disk ↔
      ∀ id, Operation.removeOutboxFile id ∈ m.failed → w.InOutbox id) ∧
    (AllRecorded w → (AllRecorded m.disk ↔
      ∀ id, Operation.removeOutboxFile id ∈ m.failed → w.InOutbox id)) ∧
    (AllRecorded m.disk → ∀ budget' fates' name,
      ((loadManifest : BackupM η Unit) fates' { disk := m.disk, budget := budget' }).1 ≠
        .error (.holdsArtifacts name)) := by
  intro m
  have houtcome := runFrom_outcome (core_of_reaches h).inv_strays rfl env budget fates
  rw [herror] at houtcome
  have hiff := RunFailed.leavesNone_iff houtcome hmode hbudget
  refine ⟨hiff, fun hall => ?_, ?_⟩
  · exact (leavesNone_iff hall).symm.trans hiff
  · exact fun hall budget' fates' name => loadManifest_accepts hall budget' fates' name

/-- The first scheduled run cannot save its manifest: the sidecar of the copy stays. -/
theorem failedSave_recorded :
    let fates := List.replicate 27 Fate.goes ++ [.fails] ++ List.replicate 20 .goes
    let after := runFrom World.fresh (novemberRun .scheduled monday) 1 fates
    after.1 = .error (.io .renameManifest) ∧ after.2.2.disk.dest.keys.length = 1 ∧
      AllRecorded after.2.2.disk := by
  intro fates after
  have herror : after.1 = .error (.io .renameManifest) := by decide +kernel
  have hfailed : after.2.2.failed = [.renameManifest] := by decide +kernel
  have hfresh : AllRecorded (World.fresh : World ℕ) := by
    intro id hdest
    simp [World.fresh] at hdest
  refine ⟨herror, by decide +kernel, ?_⟩
  have hiff := (failed_run_recorded_iff (Run.refl _) rfl (Nat.le_refl 1) herror).2.1 hfresh
  rw [hiff, hfailed]
  simp

instance (w : World η) (id : String) : Decidable (w.Recorded id) :=
  inferInstanceAs (Decidable ((∃ e ∈ w.entries, e.id = id) ∨ (w.sidecars.get? id).isSome))

/-- The first scheduled run fails to delete its outbox file: its artifact is in the destination
without a record, and the next run refuses the destination. -/
theorem failedDelete_leaks :
    let fates := List.replicate 23 Fate.goes ++ [.fails] ++ List.replicate 20 .goes
    let id := "hippo-full-20261102T091320Z"
    let after := runFrom World.fresh (novemberRun .scheduled monday) 1 fates
    let next := runFrom after.2.2.disk (novemberRun .scheduled thursday) 0
      (List.replicate 40 .goes)
    after.1 = .error (.io (.removeOutboxFile id)) ∧ ¬ AllRecorded after.2.2.disk ∧
      next.1 = .error (.holdsArtifacts id) := by
  intro fates id after next
  have hthere : (after.2.2.disk.dest.get? id).isSome := by decide +kernel
  have hstray : ¬ after.2.2.disk.Recorded id := by decide +kernel
  refine ⟨by decide +kernel, ?_, by decide +kernel⟩
  exact fun hall => hstray (hall id hthere)

end Failed

end Hippo.Backup
