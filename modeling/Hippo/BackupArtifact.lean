import Hippo.BackupRuns

/-!
# The artifact of a run

The new artifact is written to the outbox, its sidecar beside it, and both are shipped like
what waited there. A scheduled run takes them away again when that fails. What the outbox
delete of the new artifact leaves when it fails is the one thing that nothing accounts for.
-/
namespace Hippo.Backup

open Hippo.Interruption

variable {η : Type}

/-- Every artifact in the destination is listed, has a sidecar, or is an old one. -/
def Tidy (X : Exempt η) (w : World η) : Prop :=
  ∀ id sum, w.dest.get? id = some sum →
    w.Listed id ∨ (w.sidecars.get? id).isSome ∨ X.old (id, sum)

/-- For a checkpoint, any outbox delete may have failed. -/
def Tolerated (env : RunEnv η) (S : String → Prop) (id : String) : Prop :=
  S id ∨ env.mode.isCheckpoint = true

/-- What a run that returns an error leaves. In a scheduled run with one failed operation, the
artifacts are accounted for unless the outbox delete of the new artifact failed. -/
structure RunFailed (env : RunEnv η) (W : World η) (X : Exempt η) (S : String → Prop) (B : Budget)
    (s : Bool) (m : Machine Operation (World η)) : Prop where
  durable : Durable X B s m
  tidy : env.mode.isCheckpoint = false →
    (∀ id, Operation.removeOutboxFile id ∈ m.failed → S id) → m.failed.length ≤ 1 →
    Tidy X m.disk
  leaked : env.mode.isCheckpoint = false → ∀ id, Operation.removeOutboxFile id ∈ m.failed →
    ¬ S id → m.failed.length ≤ 1 → (m.disk.dest.get? id).isSome ∧ ¬ m.disk.Listed id ∧
      m.disk.sidecars.get? id = none ∧ W.dest.get? id = none

section Failures

variable {env : RunEnv η} {W : World η} {X : Exempt η} {S : String → Prop} {B : Budget} {s : Bool}
  {m : Machine Operation (World η)} {operation : Operation}

/-- As long as nothing was pruned, only the old artifacts are exempt. -/
theorem Accounted.tidy {w : World η} (h : Accounted X w) (hpruned : w.pruned = X.before) :
    Tidy X w := by
  intro id sum hdest
  rcases h.place id sum hdest with hlisted | hsidecar | hold | ⟨gone, hgrown, hmem⟩
  · exact Or.inl hlisted
  · exact Or.inr (Or.inl hsidecar)
  · exact Or.inr (Or.inr hold)
  · have hgone : gone = [] := by
      rw [hpruned] at hgrown
      exact List.append_cancel_right (hgrown.symm.trans (List.nil_append _).symm)
    simp [hgone] at hmem

/-- A run that fails before the prune, its new artifact not shipped. -/
theorem RunFailed.of_unpruned (h : Stage X (Tolerated env S) B s (Unpruned W X) m) :
    RunFailed env W X S B s m where
  durable := h.durable
  tidy := fun _ _ _ => h.good.inv.accounted.tidy h.here.pruned
  leaked := fun hmode id hfailed hS _ => by
    rcases h.good.benign id hfailed with hbenign | hcheckpoint
    · exact absurd hbenign hS
    · simp [hmode] at hcheckpoint

theorem Durable.fail (h : Durable X B s m) (hb : 0 < m.budget) :
    Durable X B s (m.fail operation) where
  core := h.core
  sound := fun hc => by simp [clean] at hc
  spent := by
    have hspent := h.spent
    simp only [Machine.fail_failed, Machine.fail_budget, List.length_cons]
    omega

/-- Another operation fails, and is ignored. -/
theorem RunFailed.fail (h : RunFailed env W X S B s m) (hb : 0 < m.budget)
    (hop : ∀ id, operation ≠ .removeOutboxFile id) :
    RunFailed env W X S B s (m.fail operation) where
  durable := h.durable.fail hb
  tidy := fun hmode hbenign hlength => by
    apply h.tidy hmode
    · exact fun id hid => hbenign id (List.mem_cons_of_mem _ hid)
    · simp only [Machine.fail_failed, List.length_cons] at hlength
      omega
  leaked := fun hmode id hid hS hlength => by
    apply h.leaked hmode id _ hS
    · simp only [Machine.fail_failed, List.length_cons] at hlength
      omega
    · rcases List.mem_cons.mp hid with hsame | hold
      · exact absurd hsame.symm (hop id)
      · exact hold

/-- An operation before the prune fails. -/
theorem RunFailed.of_fail {P : Bool → World η → Prop}
    (h : Stage X (Tolerated env S) B s P m) (hb : 0 < m.budget)
    (hop : ∀ id, operation ≠ .removeOutboxFile id) (hP : ∀ c w, P c w → Early W X w) :
    RunFailed env W X S B s (m.fail operation) :=
  RunFailed.of_unpruned (Unpruned.fail h hb hop hP)

end Failures

section Checkpoints

variable {env : RunEnv η} {W : World η} {X : Exempt η} {S S' : String → Prop} {B : Budget}
  {s : Bool} {P : Bool → World η → Prop}

/-- An operation before the prune that changes nothing. -/
theorem touch_early {operation : Operation} (hop : ∀ id, operation ≠ .removeOutboxFile id)
    (hP : ∀ c w, P c w → Early W X w) :
    Spec (Stage X (Tolerated env S) B s P) (touch operation)
      (fun _ => Stage X (Tolerated env S) B s P) (fun _ => RunFailed env W X S B s)
      (Durable X B s) :=
  touch_spec fun _ hm hb => RunFailed.of_fail hm hb hop hP

theorem ensure_early {p : Prop} [Decidable p] {error : BackupError}
    (hP : ∀ c w, P c w → Early W X w) :
    Spec (Stage X (Tolerated env S) B s P) (Proc.ensure p error : BackupM η Unit)
      (fun _ m => p ∧ Stage X (Tolerated env S) B s P m) (fun _ => RunFailed env W X S B s)
      (Durable X B s) := by
  apply Spec.ite
  · exact fun hp => Spec.pure fun m hm => ⟨hp, hm⟩
  · exact fun _ => Spec.throw fun m hm => RunFailed.of_unpruned (hm.imp hP)

/-- Sidecars that cannot be read count as absent. -/
theorem anyInOutbox_spec (p : ManifestEntry η → Bool) (names : List String)
    (hweak : ∀ c w, P c w → P false w) {E : BackupError → Machine Operation (World η) → Prop} :
    Spec (Stage X S B s P) (anyInOutbox p names) (fun _ => Stage X S B s P) E
      (Durable X B s) := by
  induction names with
  | nil => exact Spec.pure fun m hm => hm
  | cons name names ih =>
    apply Spec.bind (Q := fun _ => Stage X S B s P)
    · apply Spec.attempt (R := fun _ => Stage X S B s P)
      apply read_spec (Q := fun _ => P)
      · exact fun m hm hb => hm.fail hb (by simp) hweak
      · exact fun c w e hw _ => hw
      · exact fun m hm _ => hm
    intro result
    cases result with
    | error error => exact ih
    | ok e =>
      apply Spec.ite
      · exact fun _ => Spec.pure fun m hm => hm
      · exact fun _ => ih

theorem hasCheckpoint_spec (label : String) (hweak : ∀ c w, P c w → P false w)
    (hP : ∀ c w, P c w → Early W X w) :
    Spec (Stage X (Tolerated env S) B s P) (hasCheckpoint label)
      (fun _ => Stage X (Tolerated env S) B s P) (fun _ => RunFailed env W X S B s)
      (Durable X B s) := by
  apply Spec.bind (Q := fun _ => Stage X (Tolerated env S) B s P) (Spec.look fun m hm => hm)
  intro inManifest
  apply Spec.bind (Q := fun _ => Stage X (Tolerated env S) B s P)
  · apply Spec.bind (touch_early (by simp) hP)
    exact fun _ => Spec.look fun m hm => hm
  intro pending
  apply Spec.bind (anyInOutbox_spec _ pending hweak)
  exact fun _ => Spec.pure fun m hm => hm

end Checkpoints

section Creation

variable {W : World η} {X : Exempt η} {S : String → Prop} {entry : ManifestEntry η}
  {artifact artifact' : Option η} {sidecar sidecar' : Option (ManifestEntry η)} {c : Bool}
  {w : World η}

/-- With a manifest in memory, the new artifact is nowhere but in the outbox. -/
structure Unseen (entry : ManifestEntry η) (c : Bool) (w : World η) : Prop where
  loaded : ∃ entries, Loaded c w entries
  available : w.available = true
  dest : w.dest.get? entry.id = none
  unlisted : ∀ f ∈ w.memory.getD [], f.id ≠ entry.id
  cleared : c = true → ∀ k, k ≠ entry.id → Cleared w k
  owed : c = true → ∀ sum, (entry.id, sum) ∈ w.done → (entry.id, sum) ∈ w.pruned

/-- The new artifact, with what there is of it in the outbox. -/
structure Created (W : World η) (X : Exempt η) (S : String → Prop) (entry : ManifestEntry η)
    (artifact : Option η) (sidecar : Option (ManifestEntry η)) (c : Bool) (w : World η) :
    Prop where
  early : Early W X w
  unclaimed : ¬ S entry.id
  artifact : w.artifacts.get? entry.id = artifact
  sidecar : w.sidecars.get? entry.id = sidecar
  based : c = true → entry.kind = .delta → w.dest.get? entry.id = none ∧ HasBase w.entries entry
  unseen : w.memory.isSome → Unseen entry c w

theorem Created.weaken (h : Created W X S entry artifact sidecar c w) :
    Created W X S entry artifact sidecar false w :=
  { h with
    based := by simp
    unseen := fun hmemory =>
      { h.unseen hmemory with
        loaded := (h.unseen hmemory).loaded.imp fun _ hl => hl.weaken
        cleared := by simp
        owed := by simp } }

/-- The files of the new artifact in the outbox change. -/
theorem Created.setOutbox (h : Created W X S entry artifact sidecar c w)
    (artifacts : Table String η) (sidecars : Table String (ManifestEntry η))
    (hartifacts : ∀ k, k ≠ entry.id → artifacts.get? k = w.artifacts.get? k)
    (hsidecars : ∀ k, k ≠ entry.id → sidecars.get? k = w.sidecars.get? k)
    (hartifact : artifacts.get? entry.id = artifact')
    (hsidecar : sidecars.get? entry.id = sidecar') :
    Created W X S entry artifact' sidecar' c
      { w with
        artifacts := artifacts
        sidecars := sidecars } where
  early := { h.early with }
  unclaimed := h.unclaimed
  artifact := hartifact
  sidecar := hsidecar
  based := h.based
  unseen := fun hmemory =>
    { h.unseen hmemory with
      loaded := (h.unseen hmemory).loaded.imp fun _ hl => { hl with }
      cleared := fun hc k hk e he => by
        rw [hsidecars k hk] at he
        rw [hartifacts k hk]
        exact (h.unseen hmemory).cleared hc k hk e he }

theorem World.not_taken {id : String} (h : w.taken id = false) :
    (∀ f ∈ w.memory.getD [], f.id ≠ id) ∧ w.artifacts.get? id = none ∧
      w.sidecars.get? id = none ∧ (w.available = true → w.dest.get? id = none) := by
  simp only [World.taken, Bool.or_eq_false_iff, Bool.and_eq_false_iff, List.any_eq_false,
    decide_eq_true_eq, Option.isSome_eq_false_iff, Option.isNone_iff_eq_none] at h
  obtain ⟨⟨⟨hmemory, hartifact⟩, hsidecar⟩, hdest⟩ := h
  refine ⟨hmemory, hartifact, hsidecar, fun havailable => ?_⟩
  rcases hdest with hgone | hdest
  · simp [havailable] at hgone
  · exact hdest

/-- An unused id names a new artifact. -/
theorem Ready.create (h : Ready W X S c w) (hinv : Inv X c w) (hfree : w.taken entry.id = false)
    (hbased : c = true → entry.kind = .delta → w.memory.isSome ∧ HasBase w.entries entry) :
    Created W X S entry none none c w := by
  obtain ⟨hmemory, hartifact, hsidecar, hdest⟩ := World.not_taken hfree
  have hunseen : w.memory.isSome → Unseen entry c w := by
    intro hsome
    have hworking := h.working hsome
    obtain ⟨entries, hl⟩ := hworking.loaded
    refine ⟨⟨entries, hl⟩, hworking.available, hdest hworking.available, hmemory, ?_, ?_⟩
    · exact fun hc k _ => hworking.cleared hc k (by simp)
    · intro hc sum hdone
      rcases (hinv.strong hc).held entry.id sum hdone with ⟨e, he, hid, -⟩ | ⟨e, he, -⟩ | hpruned
      · obtain ⟨e', he', hsame⟩ := hl.covers e he
        rw [hl.memory, Option.getD_some] at hmemory
        exact absurd (hsame.id.trans hid) (hmemory e' he')
      · simp [hsidecar] at he
      · exact hpruned
  refine ⟨h.early, ?_, hartifact, hsidecar, ?_, hunseen⟩
  · intro hS
    rcases h.claimed entry.id hS with ⟨f, hf, hid⟩ | hthere | hthere
    · exact hmemory f hf hid
    · simp [hartifact] at hthere
    · simp [hsidecar] at hthere
  · intro hc hkind
    obtain ⟨hsome, hbase⟩ := hbased hc hkind
    exact ⟨(hunseen hsome).dest, hbase⟩

end Creation

section Writing

variable {env : RunEnv η} {W : World η} {X : Exempt η} {S : String → Prop} {B : Budget} {s : Bool}
  {entry : ManifestEntry η}

theorem writeArtifact_spec :
    Spec (Stage X (Tolerated env S) B s (Created W X S entry none none))
      (writeArtifact entry.id entry.ciphertextSha256)
      (fun _ => Stage X (Tolerated env S) B s
        (Created W X S entry (some entry.ciphertextSha256) none))
      (fun _ => RunFailed env W X S B s) (Durable X B s) := by
  apply Spec.bind (touch_early (by simp) fun _ _ hw => hw.early)
  intro _
  apply Spec.op (fun m hm => hm.durable)
  · exact fun m hm hb => RunFailed.of_fail hm hb (by simp) fun _ _ hw => hw.early
  · intro m hm
    simp only [hm.here.artifact, Option.isSome_none, Bool.false_eq_true, if_false]
    apply hm.put (hm.good.inv.addArtifact entry.ciphertextSha256 hm.here.sidecar)
    apply hm.here.setOutbox _ _ _ (fun _ _ => rfl)
    · simp
    · exact hm.here.sidecar
    · intro k hk
      simp [hk]

theorem writeSidecar_spec :
    Spec (Stage X (Tolerated env S) B s (Created W X S entry (some entry.ciphertextSha256) none))
      (writeSidecar entry)
      (fun _ => Stage X (Tolerated env S) B s
        (Created W X S entry (some entry.ciphertextSha256) (some entry)))
      (fun _ => Stage X (Tolerated env S) B s
        (Created W X S entry (some entry.ciphertextSha256) none)) (Durable X B s) := by
  apply Spec.bind
  · apply touch_spec
    exact fun m hm hb => hm.fail hb (by simp) fun _ _ hw => hw.weaken
  intro _
  apply Spec.op (fun m hm => hm.durable)
  · exact fun m hm hb => hm.fail hb (by simp) fun _ _ hw => hw.weaken
  · intro m hm
    simp only [hm.here.sidecar, Option.isSome_none, Bool.false_eq_true, if_false]
    apply hm.put (hm.good.inv.addSidecar hm.here.artifact hm.here.sidecar hm.here.based)
    apply hm.here.setOutbox _ _ (fun _ _ => rfl)
    · intro k hk
      simp [hk]
    · exact hm.here.artifact
    · simp

/-- The artifact goes again when its sidecar could not be written. -/
theorem undoArtifact_spec {E : BackupError → Machine Operation (World η) → Prop} :
    Spec (Stage X (Tolerated env S) B s (Created W X S entry (some entry.ciphertextSha256) none))
      (removeArtifact entry.id).ignore
      (fun _ => Stage X (Tolerated env S) B s (Unpruned W X)) E (Durable X B s) := by
  apply ignore_spec
  apply update_spec (Q := fun _ => Unpruned W X)
  · exact fun m hm hb => hm.fail hb (by simp) fun _ _ hw => hw.early
  · exact fun c w hinv hw => ⟨hinv.removeArtifact hw.sidecar, { hw.early with }⟩

end Writing

section Cleanup

variable {env : RunEnv η} {W : World η} {X : Exempt η} {S : String → Prop} {B : Budget} {s : Bool}
  {entry : ManifestEntry η} {c : Bool} {w : World η} {m : Machine Operation (World η)}

/-- The outbox file of an artifact that is not in the destination goes, its sidecar first. -/
theorem Inv.dropArtifact {id : String} (h : Inv X c w) (hdest : w.dest.get? id = none)
    (hsidecar : w.sidecars.get? id = none ∨ c = false) :
    Inv X c { w with artifacts := w.artifacts.erase id } := by
  rcases hsidecar with hsidecar | rfl
  · exact h.removeArtifact hsidecar
  · refine ⟨⟨h.core.listed, h.core.nodup, h.core.named, ?_⟩,
      ⟨h.accounted.grown, h.accounted.place⟩, by simp⟩
    intro n e hn
    by_cases hid : n = id
    · subst hid
      exact Or.inr ⟨by simp, Or.inl hdest⟩
    · simp only [Table.get?_erase, if_neg hid]
      exact h.core.backed n e hn

/-- The new artifact is not in the destination, and is taken away again. -/
theorem cleanup_spec {error : BackupError} :
    Spec (Stage X (Tolerated env S) B s fun c w => Early W X w ∧ w.dest.get? entry.id = none ∧
        (c = true → ∀ sum, (entry.id, sum) ∈ w.done → (entry.id, sum) ∈ w.pruned))
      (do
        (update (.removeSidecar entry.id) fun w =>
          { w with sidecars := w.sidecars.erase entry.id }).ignore
        (removeArtifact entry.id).ignore
        Proc.throw error : BackupM η Bool)
      (fun _ _ => False) (fun _ => RunFailed env W X S B s) (Durable X B s) := by
  apply Spec.bind
  · apply ignore_spec (R := fun c w => Early W X w ∧ w.dest.get? entry.id = none ∧
      (w.sidecars.get? entry.id = none ∨ c = false))
    apply update_spec (Q := fun _ c w => Early W X w ∧ w.dest.get? entry.id = none ∧
      (w.sidecars.get? entry.id = none ∨ c = false))
    · exact fun m hm hb => hm.fail hb (by simp) fun _ _ hw => ⟨hw.1, hw.2.1, Or.inr rfl⟩
    · rintro c w hinv ⟨hearly, hdest, howed⟩
      refine ⟨?_, { hearly with }, hdest, Or.inl (by simp)⟩
      exact hinv.removeSidecar (Or.inr hdest) fun hc sum hdone => Or.inr (howed hc sum hdone)
  intro _
  apply Spec.bind
  · apply ignore_spec (R := Unpruned W X)
    apply update_spec (Q := fun _ => Unpruned W X)
    · exact fun m hm hb => hm.fail hb (by simp) fun _ _ hw => hw.1
    · exact fun c w hinv hw => ⟨hinv.dropArtifact hw.2.1 hw.2.2, { hw.1 with }⟩
  intro _
  exact Spec.throw fun m hm => RunFailed.of_unpruned hm

/-- The copy of the new artifact is in the destination, since an outbox delete failed or two
operations did. -/
structure Leaking (env : RunEnv η) (W : World η) (S : String → Prop) (B : Budget)
    (entry : ManifestEntry η) (m : Machine Operation (World η)) : Prop where
  core : Core m.disk
  failed : m.failed ≠ []
  spent : m.failed.length + m.budget = B.total
  dest : m.disk.dest.get? entry.id = some entry.ciphertextSha256
  sidecar : ∀ e, m.disk.sidecars.get? entry.id = some e → e = entry
  benign : ∀ id, Operation.removeOutboxFile id ∈ m.failed → Tolerated env S id ∨ id = entry.id
  reason : m.failed.length ≤ 1 →
    Operation.removeOutboxFile entry.id ∈ m.failed ∧ ¬ m.disk.Listed entry.id
  before : W.dest.get? entry.id = none
  unclaimed : ¬ S entry.id

theorem Leaking.durable (h : Leaking env W S B entry m) : Durable X B s m where
  core := h.core
  sound := fun hc => by
    simp only [clean, Bool.and_eq_true, List.isEmpty_iff] at hc
    exact absurd hc.1 h.failed
  spent := h.spent

theorem Leaking.fail {operation : Operation} (h : Leaking env W S B entry m) (hb : 0 < m.budget)
    (hop : ∀ id, operation ≠ .removeOutboxFile id) :
    Leaking env W S B entry (m.fail operation) ∧ 2 ≤ (m.fail operation).failed.length := by
  have hlength : 0 < m.failed.length := List.length_pos_iff.mpr h.failed
  have htwo : 2 ≤ (m.fail operation).failed.length := by
    simp only [Machine.fail_failed, List.length_cons]
    omega
  refine ⟨?_, htwo⟩
  exact
    { core := h.core
      failed := by simp
      spent := by
        have hspent := h.spent
        simp only [Machine.fail_failed, Machine.fail_budget, List.length_cons]
        omega
      dest := h.dest
      sidecar := h.sidecar
      benign := fun id hid => by
        rcases List.mem_cons.mp hid with hsame | hold
        · exact absurd hsame.symm (hop id)
        · exact h.benign id hold
      reason := fun hone => by omega
      before := h.before
      unclaimed := h.unclaimed }

theorem Leaking.removeSidecar (h : Leaking env W S B entry m) :
    Leaking env W S B entry
      (m.put { m.disk with sidecars := m.disk.sidecars.erase entry.id }) := by
  have hfound : ∀ n e, (m.disk.sidecars.erase entry.id).get? n = some e →
      m.disk.sidecars.get? n = some e := by
    intro n e hn
    by_cases hid : n = entry.id
    · simp [hid] at hn
    · rwa [Table.get?_erase, if_neg hid] at hn
  exact
    { h with
      core :=
        { h.core with
          named := fun n e hn => h.core.named n e (hfound n e hn)
          backed := fun n e hn => h.core.backed n e (hfound n e hn) }
      sidecar := fun e he => h.sidecar e (hfound entry.id e he) }

theorem Leaking.removeArtifact (h : Leaking env W S B entry m) :
    Leaking env W S B entry
      (m.put { m.disk with artifacts := m.disk.artifacts.erase entry.id }) := by
  refine { h with core := { h.core with backed := ?_ } }
  intro n e hn
  by_cases hid : n = entry.id
  · subst hid
    obtain rfl : e = entry := h.sidecar e hn
    exact Or.inr ⟨by simp, Or.inr h.dest⟩
  · simp only [Machine.put_disk, Table.get?_erase, if_neg hid]
    exact h.core.backed n e hn

/-- The copy of the new artifact is left behind. -/
theorem Leaking.runFailed (h : Leaking env W S B entry m)
    (hgone : m.disk.sidecars.get? entry.id = none ∨ 2 ≤ m.failed.length) :
    RunFailed env W X S B s m where
  durable := h.durable
  tidy := fun _ hbenign hlength =>
    absurd (hbenign entry.id (h.reason hlength).1) h.unclaimed
  leaked := fun hmode id hid hS hlength => by
    have hown : id = entry.id := by
      rcases h.benign id hid with (hbenign | hcheckpoint) | hown
      · exact absurd hbenign hS
      · simp [hmode] at hcheckpoint
      · exact hown
    subst hown
    refine ⟨by simp [h.dest], (h.reason hlength).2, ?_, h.before⟩
    rcases hgone with hgone | htwo
    · exact hgone
    · omega

theorem leakingCleanup_spec {error : BackupError} :
    Spec (Leaking env W S B entry)
      (do
        (update (.removeSidecar entry.id) fun w =>
          { w with sidecars := w.sidecars.erase entry.id }).ignore
        (removeArtifact entry.id).ignore
        Proc.throw error : BackupM η Bool)
      (fun _ _ => False) (fun _ => RunFailed env W X S B s) (Durable X B s) := by
  let Left : Machine Operation (World η) → Prop := fun m => Leaking env W S B entry m ∧
    (m.disk.sidecars.get? entry.id = none ∨ 2 ≤ m.failed.length)
  apply Spec.bind (Q := fun _ => Left)
  · apply Spec.ignore
    apply Spec.write (fun m hm => hm.durable)
    · intro m hm hb
      have hop : ∀ id, Operation.removeSidecar entry.id ≠ .removeOutboxFile id := by simp
      obtain ⟨hleaking, htwo⟩ := hm.fail hb hop
      exact ⟨hleaking, Or.inr htwo⟩
    · exact fun m hm => ⟨hm.removeSidecar, Or.inl (by simp)⟩
  intro _
  apply Spec.bind (Q := fun _ => Left)
  · apply Spec.ignore
    unfold removeArtifact
    apply Spec.write (fun m hm => hm.1.durable)
    · intro m hm hb
      have hop : ∀ id, Operation.removeStale entry.id ≠ .removeOutboxFile id := by simp
      obtain ⟨hleaking, htwo⟩ := hm.1.fail hb hop
      exact ⟨hleaking, Or.inr htwo⟩
    · exact fun m hm => ⟨hm.1.removeArtifact, hm.2⟩
  intro _
  exact Spec.throw fun m hm => hm.1.runFailed hm.2

end Cleanup

section ShipOwn

variable {env : RunEnv η} {W : World η} {X : Exempt η} {S : String → Prop} {B : Budget} {s : Bool}
  {entry : ManifestEntry η} {c : Bool} {w : World η} {m : Machine Operation (World η)}

/-- The new artifact was shipped and recorded. -/
structure Recorded (W : World η) (X : Exempt η) (entry : ManifestEntry η) (c : Bool)
    (w : World η) : Prop where
  early : Early W X w
  loaded : ∃ entries, Loaded c w entries
  cleared : c = true → ∀ k, Cleared w k
  held : c = true → Held w entry.id entry.ciphertextSha256

/-- The new artifact waits in the outbox. -/
structure Kept (W : World η) (X : Exempt η) (entry : ManifestEntry η) (c : Bool) (w : World η) :
    Prop where
  early : Early W X w
  held : c = true → Held w entry.id entry.ciphertextSha256

/-- The files of one name change, and a copy in the destination stays. -/
theorem Early.touched {n : String} {w₀ : World η} (h : Early W X w₀) (htouches : Touches n w₀ w)
    (hlasting : (w₀.dest.get? n).isSome → (w.dest.get? n).isSome) : Early W X w where
  pruned := htouches.pruned.trans h.pruned
  lasting := fun k hk => by
    by_cases hkn : k = n
    · subst hkn
      exact hlasting (h.lasting k hk)
    · rw [htouches.dest k hkn]
      exact h.lasting k hk

theorem Created.kept
    (h : Created W X S entry (some entry.ciphertextSha256) (some entry) c w) :
    Kept W X entry c w where
  early := h.early
  held := fun _ => Or.inr (Or.inl ⟨entry, h.sidecar, rfl, Or.inl h.artifact⟩)

/-- The turn of the new artifact went through. -/
theorem Created.recorded {c' : Bool} {w' : World η}
    (h : Created W X S entry (some entry.ciphertextSha256) (some entry) c w)
    (hcc : c' = true → c = true) (hmemory : w.memory.isSome)
    (hsettled : Settled entry.id w c' w') : Recorded W X entry c' w' where
  early := h.early.touched hsettled.touches hsettled.lasting
  loaded := hsettled.loaded
  cleared := fun hc k => by
    by_cases hk : k = entry.id
    · subst hk
      intro e he
      simp [hsettled.sidecar] at he
    · intro e he
      rw [hsettled.touches.sidecars k hk] at he
      rw [hsettled.touches.artifacts k hk]
      exact (h.unseen hmemory).cleared (hcc hc) k hk e he
  held := fun hc => Or.inl (hsettled.recorded hc entry h.sidecar)

/-- The turn of the new artifact failed, and nothing of it is in the destination. -/
theorem TurnFailed.absent {w₀ : World η} {n : String} (h : TurnFailed n w₀ X S B s m)
    (hS : ¬ S n) (habsent : m.disk.dest.get? n = none) :
    Good X S B s m := by
  refine ⟨h.good.inv, fun id hid => ?_, h.good.spent⟩
  rcases h.good.benign id hid with hbenign | ⟨rfl, -⟩
  · exact hbenign
  · have hdest := (h.leaked hS hid).1
    simp [habsent] at hdest

/-- The turn of the new artifact failed, but its copy was placed. -/
theorem Created.leaking {m₀ : Machine Operation (World η)}
    (h : Created W X S entry (some entry.ciphertextSha256) (some entry) c m₀.disk)
    (hcore : Core m₀.disk) (hmemory : m₀.disk.memory.isSome)
    (hmode : env.mode.isCheckpoint = false)
    (hfailed : TurnFailed entry.id m₀.disk X (Tolerated env S) B s m)
    (hremains : (m.disk.artifacts.get? entry.id).isSome)
    (hthere : (m.disk.dest.get? entry.id).isSome) : Leaking env W S B entry m := by
  have hnone : m₀.disk.dest.get? entry.id = none := (h.unseen hmemory).dest
  have hS : ¬ Tolerated env S entry.id := by
    rintro (hS | hcheckpoint)
    · exact h.unclaimed hS
    · simp [hmode] at hcheckpoint
  have hreason : m.failed.length ≤ 1 → Operation.removeOutboxFile entry.id ∈ m.failed := by
    intro hlength
    by_contra hnot
    have hdest := hfailed.removed hremains hnot hlength
    simp [hdest, hnone] at hthere
  exact
    { core := hfailed.good.inv.core
      failed := by
        intro hnil
        have hmem := hreason (by simp [hnil])
        simp [hnil] at hmem
      spent := hfailed.good.spent.1
      dest := by
        rcases hfailed.placed hremains entry h.sidecar with hsame | hdest
        · rw [hsame, hnone] at hthere
          simp at hthere
        · exact hdest
      sidecar := fun e he => by
        rw [hfailed.same, h.sidecar] at he
        exact (Option.some.inj he).symm
      benign := fun id hid => (hfailed.good.benign id hid).imp_right fun hown => hown.1
      reason := fun hlength => by
        refine ⟨hreason hlength, ?_⟩
        have hmanifest := (hfailed.leaked hS (hreason hlength)).2.2
        rintro ⟨f, hf, hid⟩
        simp only [World.entries, hmanifest] at hf
        exact hcore.not_listed hnone ⟨f, hf, hid⟩
      before := by
        cases hbefore : W.dest.get? entry.id with
        | none => rfl
        | some sum =>
          have hlasting := h.early.lasting entry.id (by simp [hbefore])
          simp [hnone] at hlasting
      unclaimed := h.unclaimed }

/-- The turn of the new artifact, from the point `m₀` on. -/
theorem ownTurn_spec [DecidableEq η] {m₀ : Machine Operation (World η)}
    (hm₀ : Stage X (Tolerated env S) B s
      (Created W X S entry (some entry.ciphertextSha256) (some entry)) m₀)
    (hmemory : m₀.disk.memory.isSome) {E : BackupError → Machine Operation (World η) → Prop} :
    Spec (fun m => m = m₀) ((shipPending env entry.id).attempt : BackupM η (Except BackupError Bool))
      (fun result m => match result with
        | .ok shipped => shipped = true ∧ Stage X (Tolerated env S) B s (Recorded W X entry) m
        | .error _ => TurnFailed entry.id m₀.disk X (Tolerated env S) (B.since m₀) s m)
      E (Durable X B s) := by
  have hunseen := hm₀.here.unseen hmemory
  obtain ⟨entries, hentries⟩ := hunseen.loaded
  have hfresh : Fresh m₀.disk entry.id := by
    rintro ⟨f, hf, hid⟩
    exact absurd hid (hunseen.unlisted f hf)
  have hturn : Spec (fun m => m = m₀) (shipPending env entry.id)
      (fun shipped m => shipped = true ∧ Stage X (Tolerated env S) B s (Recorded W X entry) m)
      (fun _ m => TurnFailed entry.id m₀.disk X (Tolerated env S) (B.since m₀) s m)
      (Durable X B s) := by
    apply Spec.mono (P := Stage X (Tolerated env S) (B.since m₀) s (Begun entries m₀.disk))
      (shipPending_spec env hunseen.available hfresh)
    · rintro m rfl
      exact ⟨hm₀.since.good, rfl, hentries⟩
    · rintro shipped m ⟨rfl, hm⟩
      refine ⟨rfl, hm.good.resume hm₀.good.spent.2, ?_⟩
      exact hm₀.here.recorded (clean_of_since hm.good) hmemory hm.here
    · exact fun _ m hm => hm
    · exact fun m hm => ⟨hm.core, hm.sound, hm.spent⟩
  exact Spec.attempt hturn

/-- A scheduled run takes the new artifact away when its turn failed. -/
theorem ownCleanup_spec {m₀ : Machine Operation (World η)} {error : BackupError}
    (hm₀ : Stage X (Tolerated env S) B s
      (Created W X S entry (some entry.ciphertextSha256) (some entry)) m₀)
    (hmemory : m₀.disk.memory.isSome) (hmode : env.mode.isCheckpoint = false) :
    Spec (fun m => (m.disk.artifacts.get? entry.id).isSome ∧
        TurnFailed entry.id m₀.disk X (Tolerated env S) (B.since m₀) s m)
      (do
        (update (.removeSidecar entry.id) fun w =>
          { w with sidecars := w.sidecars.erase entry.id }).ignore
        (removeArtifact entry.id).ignore
        Proc.throw error : BackupM η Bool)
      (fun _ _ => False) (fun _ => RunFailed env W X S B s) (Durable X B s) := by
  have hunseen := hm₀.here.unseen hmemory
  have hS : ¬ Tolerated env S entry.id := by
    rintro (hS | hcheckpoint)
    · exact hm₀.here.unclaimed hS
    · simp [hmode] at hcheckpoint
  apply Spec.from
  rintro m ⟨hremains, hfailed⟩
  cases hdest : m.disk.dest.get? entry.id with
  | some sum =>
    apply leakingCleanup_spec.pre
    rintro m' rfl
    have hleaking := hm₀.here.leaking hm₀.good.inv.core hmemory hmode hfailed hremains
      (by simp [hdest])
    exact { hleaking with }
  | none =>
    apply cleanup_spec.pre
    rintro m' rfl
    have hgood : Good X (Tolerated env S) (B.since m₀) s m' := hfailed.absent hS hdest
    refine ⟨hgood.resume hm₀.good.spent.2, hm₀.here.early.touched hfailed.touches hfailed.lasting,
      hdest, ?_⟩
    intro hc sum hdone
    rw [hfailed.touches.done] at hdone
    rw [hfailed.touches.pruned]
    exact hunseen.owed (clean_of_since hgood hc) sum hdone

/-- The new artifact is recorded, or waits in the outbox. -/
theorem shipOwn_spec [DecidableEq η] :
    Spec (Stage X (Tolerated env S) B s
        (Created W X S entry (some entry.ciphertextSha256) (some entry)))
      (shipOwn env entry.id)
      (fun shipped m =>
        (shipped = true ∧ Stage X (Tolerated env S) B s (Recorded W X entry) m) ∨
        (shipped = false ∧ Stage X (Tolerated env S) B s (Kept W X entry) m))
      (fun _ => RunFailed env W X S B s) (Durable X B s) := by
  apply Spec.from
  intro m₀ hm₀
  apply Spec.bind (Q := fun loaded m => loaded = m₀.disk.memory.isSome ∧ m = m₀)
  · exact Spec.look fun m hm => ⟨by rw [hm], hm⟩
  intro loaded
  apply Spec.of_fact
  rintro rfl
  apply Spec.ite
  · intro hmemory
    apply Spec.bind (ownTurn_spec hm₀ hmemory)
    intro result
    cases result with
    | ok shipped => exact Spec.pure fun m hm => Or.inl hm
    | error error =>
      apply Spec.bind
          (Q := fun remains m => remains = (m.disk.artifacts.get? entry.id).isSome ∧
            TurnFailed entry.id m₀.disk X (Tolerated env S) (B.since m₀) s m)
      · exact Spec.look fun m hm => ⟨rfl, hm⟩
      intro remains
      apply Spec.ite
      · intro hcleanup
        obtain ⟨hmode, rfl⟩ : env.mode.isCheckpoint = false ∧ remains = true := by
          simpa using hcleanup
        apply Spec.mono (ownCleanup_spec hm₀ hmemory hmode)
        · exact fun m hm => ⟨hm.1.symm, hm.2⟩
        · exact fun _ _ hm => hm.elim
        · exact fun _ m hm => hm
        · exact fun m hm => hm
      · intro hkeep
        apply Spec.ite
        · intro hcheckpoint
          apply Spec.pure
          rintro m ⟨-, hfailed⟩
          have hgood : Good X (Tolerated env S) (B.since m₀) s m :=
            ⟨hfailed.good.inv, fun _ _ => Or.inr hcheckpoint, hfailed.good.spent⟩
          refine Or.inr ⟨rfl, hgood.resume hm₀.good.spent.2,
            hm₀.here.early.touched hfailed.touches hfailed.lasting, fun hc => ?_⟩
          have hsidecar : m.disk.sidecars.get? entry.id = some entry :=
            hfailed.same.trans hm₀.here.sidecar
          have hartifact := (hfailed.cleared hc entry hsidecar).1
          exact Or.inr (Or.inl ⟨entry, hsidecar, rfl, Or.inl hartifact⟩)
        · intro hscheduled
          apply Spec.throw
          rintro m ⟨rfl, hfailed⟩
          have hmode : env.mode.isCheckpoint = false := by simpa using hscheduled
          have hgone : (m.disk.artifacts.get? entry.id).isSome = false := by
            simpa [hmode] using hkeep
          have hgood : Good X (Tolerated env S) (B.since m₀) s m := by
            refine ⟨hfailed.good.inv, fun id hid => ?_, hfailed.good.spent⟩
            rcases hfailed.good.benign id hid with hbenign | ⟨rfl, -⟩
            · exact hbenign
            · by_contra hS
              simp [(hfailed.leaked hS hid).2.1] at hgone
          apply RunFailed.of_unpruned
          exact ⟨hgood.resume hm₀.good.spent.2,
            hm₀.here.early.touched hfailed.touches hfailed.lasting⟩
  · intro _
    apply Spec.pure
    rintro m rfl
    exact Or.inr ⟨rfl, hm₀.imp fun _ _ hw => hw.kept⟩

end ShipOwn

end Hippo.Backup
