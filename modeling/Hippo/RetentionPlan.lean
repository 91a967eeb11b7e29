import Hippo.Backup
import Hippo.Selection

/-!
# Prunes protect and compose

What a prune must not delete, and two prunes in a row. The entries that protect others are kept
themselves, so the first prune does not change what the second one protects.
-/
namespace Hippo.Backup

open Hippo.Interruption
open Hippo.Selection

variable {η : Type} {calendar : Calendar} {entries : List (ManifestEntry η)}
  {nowMs t₁ t₂ : ℤ} {e : ManifestEntry η} {month : ℤ × ℕ}

section Choices

def Earlier (a b : ManifestEntry η) : Prop := a.createdMs < b.createdMs

def NotEarlier (a b : ManifestEntry η) : Prop := b.createdMs ≤ a.createdMs

instance : DecidableRel (Earlier (η := η)) := fun a b => Int.decLt a.createdMs b.createdMs

instance : DecidableRel (NotEarlier (η := η)) := fun a b => Int.decLe b.createdMs a.createdMs

theorem earlier_eq : earlier (η := η) = List.argAux Earlier := by
  ext1 slot
  ext1 e
  cases slot with
  | none => rfl
  | some first => rfl

theorem later_eq : later (η := η) = List.argAux NotEarlier := by
  ext1 slot
  ext1 e
  cases slot with
  | none => rfl
  | some last => rfl

theorem Earlier.trans (a b c : ManifestEntry η) (hab : Earlier a b) (hbc : Earlier b c) :
    Earlier a c := by
  simp only [Earlier] at *
  omega

theorem Earlier.cross (a b c : ManifestEntry η) (hab : Earlier a b) (hcb : ¬ Earlier c b) :
    Earlier a c := by
  simp only [Earlier] at *
  omega

theorem NotEarlier.trans (a b c : ManifestEntry η) (hab : NotEarlier a b)
    (hbc : NotEarlier b c) : NotEarlier a c := by
  simp only [NotEarlier] at *
  omega

theorem NotEarlier.cross (a b c : ManifestEntry η) (hab : NotEarlier a b)
    (hcb : ¬ NotEarlier c b) : NotEarlier a c := by
  simp only [NotEarlier] at *
  omega

/-- The verified Fulls of a month. -/
def fullsOf (calendar : Calendar) (entries : List (ManifestEntry η)) (month : ℤ × ℕ) :
    List (ManifestEntry η) :=
  (verifiedFulls entries).filter fun e => calendar.month e.createdMs = some month

def uploadedFulls (entries : List (ManifestEntry η)) : List (ManifestEntry η) :=
  (verifiedFulls entries).filter fun e => e.uploaded

theorem firstOfMonth_eq_some :
    firstOfMonth calendar entries month = some e ↔
      Selected Earlier (fullsOf calendar entries month) e := by
  simp only [firstOfMonth, earlier_eq]
  exact ⟨selected_of_foldl Earlier.trans Earlier.cross, Selected.foldl⟩

theorem newestUploadedFull_of_selected (h : Selected NotEarlier (uploadedFulls entries) e) :
    newestUploadedFull entries = some e.id := by
  have hnewest := h.foldl
  simp only [uploadedFulls] at hnewest
  simp only [newestUploadedFull, later_eq, hnewest, Option.map_some]

theorem mem_verifiedFulls :
    e ∈ verifiedFulls entries ↔ e ∈ entries ∧ e.verified = true ∧ e.kind = .full := by
  simp [verifiedFulls]

theorem verifiedFulls_filter (p : ManifestEntry η → Bool) :
    verifiedFulls (entries.filter p) = (verifiedFulls entries).filter p := by
  simp only [verifiedFulls, List.filter_comm]

theorem within_of_le {days : ℤ} (hle : t₁ ≤ t₂) (h : within t₂ e days = true) :
    within t₁ e days = true := by
  simp only [within, decide_eq_true_eq] at *
  omega

end Choices

section Memory

/-- An operation that leaves the manifest in memory as it is. -/
theorem touch_memory {operation : Operation} {P : Option (List (ManifestEntry η)) → Prop} :
    Spec (fun m => P m.disk.memory) (touch operation) (fun _ m => P m.disk.memory)
      (fun _ m => P m.disk.memory) fun _ => True :=
  Spec.write (fun _ _ => trivial) (fun _ hm _ => hm) fun _ hm => hm

theorem saveManifest_memory {gone : List (String × η)}
    {P : Option (List (ManifestEntry η)) → Prop} :
    Spec (fun m => P m.disk.memory) (saveManifest gone) (fun _ m => P m.disk.memory)
      (fun _ m => P m.disk.memory) fun _ => True := by
  apply Spec.bind touch_memory
  intro _
  apply Spec.bind touch_memory
  intro _
  apply Spec.bind touch_memory
  intro _
  exact Spec.write (fun _ _ => trivial) (fun _ hm _ => hm) fun _ hm => hm

theorem removePruned_memory {P : Option (List (ManifestEntry η)) → Prop}
    {E : BackupError → Machine Operation (World η) → Prop} (gone : List (ManifestEntry η)) :
    Spec (fun m => P m.disk.memory) (removePruned gone) (fun _ m => P m.disk.memory) E
      fun _ => True := by
  induction gone with
  | nil => exact Spec.pure fun _ hm => hm
  | cons e gone ih =>
    apply Spec.bind (Q := fun _ m => P m.disk.memory)
    · apply Spec.ignore (R := fun _ (m : Machine Operation (World η)) => P m.disk.memory)
      exact Spec.write (fun _ _ => trivial) (fun _ hm _ => hm) fun _ hm => hm
    · exact fun _ => ih

end Memory

variable [DecidableEq η]

section Protection

/-- What a prune must not delete. The choices among equally old Fulls are those of the code: the
first of the manifest for a month, the last one for the newest uploaded Full. -/
inductive Protected (calendar : Calendar) (entries : List (ManifestEntry η)) (nowMs : ℤ)
    (e : ManifestEntry η) : Prop
  | unverified (h : e.verified = false)
  | base (delta : ManifestEntry η) (hdelta : delta ∈ entries) (hverified : delta.verified = true)
      (hkind : delta.kind = .delta) (hkept : delta.id ∉ planPrune calendar entries nowMs)
      (hfull : e.kind = .full) (hbase : delta.baseId = some e.id)
  | firstOfMonth (month : ℤ × ℕ) (h : Selected Earlier (fullsOf calendar entries month) e)
  | newestUploaded (h : Selected NotEarlier (uploadedFulls entries) e)

/-- Of entries with unique ids those are deleted that are not kept. -/
theorem id_mem_planPrune (hnodup : (entries.map ManifestEntry.id).Nodup) (he : e ∈ entries) :
    e.id ∈ planPrune calendar entries nowMs ↔
      e.verified = true ∧ keep calendar entries nowMs e = false := by
  rw [mem_planPrune]
  constructor
  · rintro ⟨e', he', hid, hdoomed⟩
    have heq : e' = e := List.inj_on_of_nodup_map hnodup he' he hid
    rwa [heq] at hdoomed
  · intro hdoomed
    exact ⟨e, he, rfl, hdoomed⟩

theorem keep_firstOfMonth (h : Selected Earlier (fullsOf calendar entries month) e) :
    keep calendar entries nowMs e = true := by
  have hmem := h.mem
  simp only [fullsOf, List.mem_filter, mem_verifiedFulls, decide_eq_true_eq] at hmem
  have hfirst : isFirstOfMonth calendar entries e = true := by
    simp [isFirstOfMonth, hmem.2, firstOfMonth_eq_some.mpr h]
  simp [keep, hmem.1.2.2, hfirst]

theorem keep_newestUploaded (h : Selected NotEarlier (uploadedFulls entries) e) :
    keep calendar entries nowMs e = true := by
  have hmem := h.mem
  simp only [uploadedFulls, List.mem_filter, mem_verifiedFulls] at hmem
  simp [keep, hmem.1.2.2, newestUploadedFull_of_selected h]

theorem Protected.notMem_planPrune (h : Protected calendar entries nowMs e)
    (hnodup : (entries.map ManifestEntry.id).Nodup) (he : e ∈ entries) :
    e.id ∉ planPrune calendar entries nowMs := by
  cases h with
  | unverified h => simp [id_mem_planPrune hnodup he, h]
  | base delta hdelta hverified hkind hkept hfull hbase =>
    exact base_notMem_planPrune hnodup hdelta hverified hkind hkept he hfull hbase
  | firstOfMonth month h => simp [id_mem_planPrune hnodup he, keep_firstOfMonth h]
  | newestUploaded h => simp [id_mem_planPrune hnodup he, keep_newestUploaded h]

end Protection

section Composition

/-- The planner's survivors. -/
def survivors (calendar : Calendar) (entries : List (ManifestEntry η)) (nowMs : ℤ) :
    List (ManifestEntry η) :=
  entries.filter fun e => !e.verified || keep calendar entries nowMs e

/-- Whatever is kept later was kept before. -/
theorem keep_of_le (hle : t₁ ≤ t₂) (h : keep calendar entries t₂ e = true) :
    keep calendar entries t₁ e = true := by
  have hbases : e.id ∈ keptDeltaBases entries t₂ → e.id ∈ keptDeltaBases entries t₁ := by
    simp only [keptDeltaBases, List.mem_filterMap, List.mem_filter, Bool.and_eq_true]
    rintro ⟨delta, ⟨hdelta, hverified, hwithin⟩, hid⟩
    exact ⟨delta, ⟨hdelta, hverified, within_of_le hle hwithin⟩, hid⟩
  cases hkind : e.kind with
  | delta =>
    simp only [keep, hkind] at *
    exact within_of_le hle h
  | checkpoint =>
    simp only [keep, hkind] at *
    exact within_of_le hle h
  | full =>
    simp only [keep, hkind, Bool.or_eq_true, decide_eq_true_eq, List.contains_eq_mem] at *
    rcases h with ((h | h) | h) | h
    · exact Or.inl (Or.inl (Or.inl (within_of_le hle h)))
    · exact Or.inl (Or.inl (Or.inr h))
    · exact Or.inl (Or.inr h)
    · exact Or.inr (hbases h)

/-- The first Full of a month is among the survivors. -/
theorem firstOfMonth_survivors :
    firstOfMonth calendar (survivors calendar entries t₁) month =
      firstOfMonth calendar entries month := by
  simp only [firstOfMonth, earlier_eq, survivors, verifiedFulls_filter]
  rw [List.filter_comm]
  apply foldl_argAux_filter Earlier.trans Earlier.cross
  intro first hfirst
  simp [keep_firstOfMonth hfirst]

theorem newestUploadedFull_survivors :
    newestUploadedFull (survivors calendar entries t₁) = newestUploadedFull entries := by
  simp only [newestUploadedFull, later_eq, survivors, verifiedFulls_filter]
  rw [List.filter_comm]
  congr 1
  apply foldl_argAux_filter NotEarlier.trans NotEarlier.cross
  intro newest hnewest
  simp [keep_newestUploaded hnewest]

/-- The Deltas that are still kept later are among the survivors. -/
theorem keptDeltaBases_survivors (hle : t₁ ≤ t₂) :
    keptDeltaBases (survivors calendar entries t₁) t₂ = keptDeltaBases entries t₂ := by
  simp only [keptDeltaBases, survivors, List.filter_filter]
  congr 1
  apply List.filter_congr
  intro delta _
  by_cases hwithin : within t₂ delta deltaKeepDays = true
  · by_cases hkind : delta.kind = .delta
    · simp [keep, hkind, hwithin, within_of_le hle hwithin]
    · simp [hkind]
  · simp [hwithin]

theorem keep_survivors (hle : t₁ ≤ t₂) :
    keep calendar (survivors calendar entries t₁) t₂ e = keep calendar entries t₂ e := by
  simp only [keep, isFirstOfMonth, firstOfMonth_survivors, newestUploadedFull_survivors,
    keptDeltaBases_survivors hle]

/-- The entries that a prune leaves in the manifest. -/
def remaining (calendar : Calendar) (entries : List (ManifestEntry η)) (nowMs : ℤ) :
    List (ManifestEntry η) :=
  entries.filter fun e => !isDoomed (planPrune calendar (entries.filter validEntry) nowMs) e

/-- Invalid entries aside, those remain that survive. -/
theorem isDoomed_planPrune (hnodup : (entries.map ManifestEntry.id).Nodup) (he : e ∈ entries) :
    isDoomed (planPrune calendar (entries.filter validEntry) nowMs) e =
      (validEntry e && !(!e.verified || keep calendar (entries.filter validEntry) nowMs e)) := by
  by_cases hvalid : validEntry e = true
  · have hsub : ((entries.filter validEntry).map ManifestEntry.id).Nodup :=
      hnodup.sublist (List.filter_sublist.map _)
    have hmem : e.id ∈ planPrune calendar (entries.filter validEntry) nowMs ↔
        e.verified = true ∧ keep calendar (entries.filter validEntry) nowMs e = false :=
      id_mem_planPrune hsub (List.mem_filter.mpr ⟨he, hvalid⟩)
    rw [Bool.eq_iff_iff]
    simp [isDoomed, hvalid, hmem]
  · simp [isDoomed, hvalid]

theorem filter_validEntry_remaining (hnodup : (entries.map ManifestEntry.id).Nodup) :
    (remaining calendar entries nowMs).filter validEntry =
      survivors calendar (entries.filter validEntry) nowMs := by
  simp only [remaining, survivors, List.filter_filter]
  apply List.filter_congr
  intro e he
  rw [isDoomed_planPrune hnodup he]
  cases validEntry e <;> simp

theorem remaining_remaining (hnodup : (entries.map ManifestEntry.id).Nodup) (hle : t₁ ≤ t₂) :
    remaining calendar (remaining calendar entries t₁) t₂ = remaining calendar entries t₂ := by
  have hleft : ((remaining calendar entries t₁).map ManifestEntry.id).Nodup :=
    hnodup.sublist (List.filter_sublist.map _)
  have hsecond : remaining calendar (remaining calendar entries t₁) t₂ =
      (remaining calendar entries t₁).filter fun e =>
        !(validEntry e && !(!e.verified || keep calendar (entries.filter validEntry) t₂ e)) := by
    apply List.filter_congr
    intro e he
    rw [isDoomed_planPrune hleft he, filter_validEntry_remaining hnodup, keep_survivors hle]
  rw [hsecond]
  simp only [remaining, List.filter_filter]
  apply List.filter_congr
  intro e he
  rw [isDoomed_planPrune hnodup he, isDoomed_planPrune hnodup he]
  cases hlater : keep calendar (entries.filter validEntry) t₂ e with
  | false => cases e.verified <;> cases validEntry e <;> simp
  | true =>
    -- An entry that the second prune keeps was kept by the first one.
    have hkept := keep_of_le hle hlater
    simp [hkept]

end Composition

section Runs

variable {env : RunEnv η}

theorem remaining_of_planPrune_nil
    (h : planPrune calendar (entries.filter validEntry) nowMs = []) :
    remaining calendar entries nowMs = entries := by
  simp [remaining, isDoomed, h]

/-- What a run of the prune leaves in the manifest, whatever fails. -/
theorem prune_memory {E : BackupError → Machine Operation (World η) → Prop} :
    Spec (fun m => m.disk.memory = some entries) (prune env)
      (fun _ m => m.disk.memory = some (remaining env.calendar entries env.nowMs)) E
      fun _ => True := by
  apply Spec.bind (Q := fun found m => found = entries ∧ m.disk.memory = some entries)
  · apply Spec.look
    intro m hm
    simp [hm]
  intro found
  apply Spec.of_fact
  intro hfound
  subst hfound
  apply Spec.ite
  · intro hnil
    apply Spec.pure
    intro m hm
    rwa [remaining_of_planPrune_nil hnil]
  · intro _
    apply Spec.bind
      (Q := fun _ m => m.disk.memory = some (remaining env.calendar found env.nowMs))
    · exact Spec.modify fun _ _ => rfl
    intro _
    apply Spec.bind (Spec.attempt
      (R := fun _ m => m.disk.memory = some (remaining env.calendar found env.nowMs))
      (saveManifest_memory
        (P := fun memory => memory = some (remaining env.calendar found env.nowMs))))
    intro saved
    cases saved with
    | error _ => exact Spec.pure fun _ hm => hm
    | ok _ =>
      exact removePruned_memory
        (P := fun memory => memory = some (remaining env.calendar found env.nowMs)) _

end Runs

/-- The planner deletes nothing that is protected, and an earlier prune does not change what a
later one leaves. -/
theorem planPrune_protects_and_composes (calendar : Calendar)
    (entries : List (ManifestEntry η)) (hnodup : (entries.map ManifestEntry.id).Nodup) :
    (∀ nowMs, ∀ e ∈ entries, Protected calendar entries nowMs e →
        e.id ∉ planPrune calendar entries nowMs) ∧
      ∀ t₁ t₂, t₁ ≤ t₂ →
        remaining calendar (remaining calendar entries t₁) t₂ = remaining calendar entries t₂ :=
  ⟨fun _ _ he h => h.notMem_planPrune hnodup he, fun _ _ => remaining_remaining hnodup⟩

/-- January 1970. -/
def january : Calendar where
  month ms := if 0 ≤ ms ∧ ms < 31 * dayMs then some (1970, 1) else none
  isoWeek _ := none
  timestamp _ := ""

def sampleEntry (id : String) (kind : ArtifactKind) (day : ℤ) (baseId : Option String) :
    ManifestEntry String :=
  { id := id, kind := kind, label := none, createdMs := day * dayMs, baseId := baseId,
    file := id ++ artifactExt, ciphertextSha256 := id, verified := true, shippedMs := some 0,
    uploaded := false }

/-- Two Fulls of a month and a Delta of the second one. -/
def sampleEntries : List (ManifestEntry String) :=
  [sampleEntry "hippo-full-1" .full 0 none, sampleEntry "hippo-full-2" .full 1 none,
    sampleEntry "hippo-delta-1" .delta 300 (some "hippo-full-2")]

theorem delta_base_kept_then_pruned :
    "hippo-full-2" ∉ planPrune january sampleEntries (380 * dayMs) ∧
      remaining january (remaining january sampleEntries (380 * dayMs)) (400 * dayMs) =
        remaining january sampleEntries (400 * dayMs) := by
  have h := planPrune_protects_and_composes january sampleEntries (by decide)
  constructor
  · exact h.1 (380 * dayMs) (sampleEntry "hippo-full-2" .full 1 none) (by decide)
      (.base (sampleEntry "hippo-delta-1" .delta 300 (some "hippo-full-2")) (by decide) rfl rfl
        (by decide +kernel) rfl rfl)
  · exact h.2 (380 * dayMs) (400 * dayMs) (by decide)

/-- Only Fulls are protected as bases. -/
theorem checkpoint_base_pruned :
    ¬ ∀ (entries : List (ManifestEntry String)) (nowMs : ℤ),
      (entries.map ManifestEntry.id).Nodup → ∀ delta ∈ entries, delta.verified = true →
        delta.kind = .delta → delta.id ∉ planPrune january entries nowMs →
          ∀ base ∈ entries, delta.baseId = some base.id →
            base.id ∉ planPrune january entries nowMs := by
  intro h
  have hpruned := h
    [sampleEntry "hippo-checkpoint-1" .checkpoint 0 none,
      sampleEntry "hippo-delta-1" .delta 300 (some "hippo-checkpoint-1")]
    (380 * dayMs) (by decide) (sampleEntry "hippo-delta-1" .delta 300 (some "hippo-checkpoint-1"))
    (by decide) rfl rfl (by decide +kernel) (sampleEntry "hippo-checkpoint-1" .checkpoint 0 none)
    (by decide) rfl
  revert hpruned
  decide +kernel

end Hippo.Backup
