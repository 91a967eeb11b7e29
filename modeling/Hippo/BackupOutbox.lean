import Hippo.BackupShipping

/-!
# Recording what was shipped

A shipped artifact is pushed to the manifest in memory, the manifest is saved, and then the
sidecar goes. The outbox is worked off one sidecar at a time; what a sidecar's turn touches is
named by its id.
-/
namespace Hippo.Backup

open Hippo.Interruption

variable {η : Type}

/-- If the manifest in memory lists the artifact, the one on the disk does. -/
def Fresh (w : World η) (id : String) : Prop :=
  (∃ f ∈ w.memory.getD [], f.id = id) → w.Listed id

/-- The turn of the sidecar `n` changes the files of this name only. -/
structure Touches (n : String) (w₀ w : World η) : Prop where
  available : w.available = w₀.available
  dest : ∀ k, k ≠ n → w.dest.get? k = w₀.dest.get? k
  artifacts : ∀ k, k ≠ n → w.artifacts.get? k = w₀.artifacts.get? k
  sidecars : ∀ k, k ≠ n → w.sidecars.get? k = w₀.sidecars.get? k
  pruned : w.pruned = w₀.pruned
  done : w.done = w₀.done
  fresh : ∀ k, k ≠ n → Fresh w₀ k → Fresh w k
  memory : ∀ f ∈ w₀.memory.getD [], f ∈ w.memory.getD []

theorem Frame.touches {id : String} {w₀ w : World η} (h : Frame id w₀ w) : Touches id w₀ w where
  available := h.available
  dest := h.dest
  artifacts := h.artifacts
  sidecars := fun k _ => by rw [h.sidecars]
  pruned := h.pruned
  done := h.done
  fresh := fun k _ hfresh hmemory => by
    rw [h.memory] at hmemory
    obtain ⟨f, hf, hid⟩ := hfresh hmemory
    refine ⟨f, ?_, hid⟩
    simp only [World.entries, h.manifest]
    exact hf
  memory := fun f hf => by
    rw [h.memory]
    exact hf

/-- The artifact was recorded and its sidecar is gone. -/
structure Settled (n : String) (w₀ : World η) (c : Bool) (w : World η) : Prop where
  touches : Touches n w₀ w
  lasting : (w₀.dest.get? n).isSome → (w.dest.get? n).isSome
  loaded : ∃ entries, Loaded c w entries
  sidecar : w.sidecars.get? n = none
  claimed : (w₀.artifacts.get? n).isSome → ∃ f ∈ w.memory.getD [], f.id = n
  recorded : c = true → ∀ e, w₀.sidecars.get? n = some e →
    ∃ f ∈ w.entries, f.id = n ∧ f.ciphertextSha256 = e.ciphertextSha256

/-- What a failed turn leaves. -/
structure TurnFailed (n : String) (w₀ : World η) (X : Exempt η) (S : String → Prop) (B : Budget)
    (s : Bool) (m : Machine Operation (World η)) : Prop where
  good : Good X (fun id => S id ∨ (id = n ∧ (w₀.artifacts.get? n).isSome)) B s m
  touches : Touches n w₀ m.disk
  lasting : (w₀.dest.get? n).isSome → (m.disk.dest.get? n).isSome
  loaded : ∃ entries, Loaded (clean s m) m.disk entries
  same : m.disk.sidecars.get? n = w₀.sidecars.get? n
  cleared : clean s m = true → ∀ e, m.disk.sidecars.get? n = some e →
    m.disk.artifacts.get? n = some e.ciphertextSha256 ∧
      ¬ (validEntry e = true ∧ e.kind = .delta)
  removed : (m.disk.artifacts.get? n).isSome → Operation.removeOutboxFile n ∉ m.failed →
    m.failed.length ≤ 1 → m.disk.dest.get? n = w₀.dest.get? n
  leaked : ¬ S n → Operation.removeOutboxFile n ∈ m.failed →
    (m.disk.dest.get? n).isSome ∧ (m.disk.artifacts.get? n).isSome ∧
      m.disk.manifest = w₀.manifest
  placed : (m.disk.artifacts.get? n).isSome → ∀ e, w₀.sidecars.get? n = some e →
    m.disk.dest.get? n = w₀.dest.get? n ∨ m.disk.dest.get? n = some e.ciphertextSha256
  claimed : (w₀.artifacts.get? n).isSome →
    (m.disk.artifacts.get? n).isSome ∨ (m.disk.sidecars.get? n).isSome

section Record

variable {X : Exempt η} {S : String → Prop} {B : Budget} {s : Bool}
  {entries : List (ManifestEntry η)} {e : ManifestEntry η} {w₀ : World η}

/-- A failure after the artifact was shipped. -/
theorem TurnFailed.of_shipped {m : Machine Operation (World η)} {c : Bool} {n : String}
    (hgood : Good X S B s m) (hclean : clean s m = false) (htouches : Touches n w₀ m.disk)
    (hdest : (m.disk.dest.get? n).isSome) (hloaded : Loaded c m.disk entries)
    (hgone : m.disk.artifacts.get? n = none) (hthere : (w₀.sidecars.get? n).isSome)
    (hsame : m.disk.sidecars.get? n = w₀.sidecars.get? n) :
    TurnFailed n w₀ X S B s m where
  good := ⟨hgood.inv, fun id hid => Or.inl (hgood.benign id hid), hgood.spent⟩
  touches := htouches
  lasting := fun _ => hdest
  loaded := ⟨entries, by rw [hclean]; exact hloaded.weaken⟩
  same := hsame
  cleared := by simp [hclean]
  removed := by simp [hgone]
  leaked := fun hS hfail => absurd (hgood.benign n hfail) hS
  placed := by simp [hgone]
  claimed := fun _ => Or.inr (by rw [hsame]; exact hthere)

/-- A manifest that lists the artifact lists it with its SHA-256. -/
theorem Shipped.listed_sum {c : Bool} {w : World η} (h : Shipped e entries w₀ c w)
    (hcore : Core w) {f : ManifestEntry η} (hf : f ∈ w.entries) (hid : f.id = e.id) :
    f.ciphertextSha256 = e.ciphertextSha256 := by
  have hfound := hcore.listed f hf
  rw [hid, h.dest] at hfound
  exact (Option.some.inj hfound).symm

/-- A shipped and listed artifact does not need its sidecar. -/
theorem Shipped.dropSidecar {c : Bool} {w : World η} (h : Shipped e entries w₀ c w)
    (hinv : Inv X c w) (hlisted : w.Listed e.id) :
    Inv X c { w with sidecars := w.sidecars.erase e.id } := by
  apply hinv.removeSidecar (Or.inl hlisted)
  intro hc sum hdone
  obtain ⟨f, hf, hid⟩ := hlisted
  rcases (hinv.strong hc).held e.id sum hdone with hrecorded | ⟨e', hsidecar, hsum, -⟩ | hpruned
  · exact Or.inl hrecorded
  · obtain rfl : e = e' := Option.some.inj (h.sidecar.symm.trans hsidecar)
    exact Or.inl ⟨f, hf, hid, (h.listed_sum hinv.core hf hid).trans hsum⟩
  · exact Or.inr hpruned

/-- The record that goes to the manifest. -/
def shippedEntry (env : RunEnv η) (e : ManifestEntry η) : ManifestEntry η :=
  { e with
    shippedMs := some env.nowMs
    uploaded := env.uploaded e.id }

/-- The artifact is pushed to the manifest in memory, which is not saved yet. -/
structure Pushed (env : RunEnv η) (e : ManifestEntry η) (entries : List (ManifestEntry η))
    (w₀ : World η) (c : Bool) (w : World η) : Prop where
  shipped : Shipped e entries w₀ c { w with memory := some entries }
  memory : w.memory = some (entries ++ [shippedEntry env e])
  unloaded : ∀ f ∈ entries, f.id ≠ e.id
  based : c = true → Based (entries ++ [shippedEntry env e])

theorem Shipped.weaken {c : Bool} {w : World η} (h : Shipped e entries w₀ c w) :
    Shipped e entries w₀ false w :=
  { h with loaded := h.loaded.weaken }

theorem Pushed.weaken {env : RunEnv η} {c : Bool} {w : World η}
    (h : Pushed env e entries w₀ c w) : Pushed env e entries w₀ false w :=
  { h with
    shipped := h.shipped.weaken
    based := by simp }

/-- The pushed record has its base when it is a Delta: the sidecar's was in the manifest. -/
theorem Shipped.push {env : RunEnv η} {c : Bool} {w : World η} (h : Shipped e entries w₀ c w)
    (hinv : Inv X c w) (hnew : ∀ f ∈ entries, f.id ≠ e.id) :
    Pushed env e entries w₀ c
      { w with memory := w.memory.map fun entries => entries ++ [shippedEntry env e] } := by
  have hmemory : w.memory = some entries := h.loaded.memory
  have hsame : Same e (shippedEntry env e) := ⟨rfl, rfl, rfl, rfl, rfl, rfl⟩
  refine ⟨?_, by rw [hmemory]; rfl, hnew, fun hc => ?_⟩
  · show Shipped e entries w₀ c { w with memory := some entries }
    rw [← hmemory]
    exact h
  · have hs := hinv.strong hc
    have hcovers : ∀ f ∈ w.entries, ∃ f' ∈ entries ++ [shippedEntry env e], Same f f' := by
      intro f hf
      obtain ⟨f', hf', hsame'⟩ := h.loaded.covers f hf
      exact ⟨f', List.mem_append_left _ hf', hsame'⟩
    intro f hf
    rcases List.mem_append.mp hf with hold | hpushed
    · obtain ⟨f', hf', hsame'⟩ := h.loaded.exact hc f hold
      obtain ⟨hvalid, hbased⟩ := hs.based f' hf'
      refine ⟨hsame'.valid.trans hvalid, fun hverified hkind => ?_⟩
      have hbase : HasBase w.entries f' :=
        hbased (hsame'.verified.symm.trans hverified) (hsame'.kind.symm.trans hkind)
      exact hbase.covered hsame' hcovers
    · obtain rfl := List.mem_singleton.mp hpushed
      refine ⟨hsame.valid.trans h.valid, fun _ hkind => ?_⟩
      exact (hs.pending e.id e h.sidecar h.valid hkind).2.covered hsame hcovers

/-- The saved manifest lists the pushed record. -/
theorem Pushed.save {env : RunEnv η} {c : Bool} {w : World η} (h : Pushed env e entries w₀ c w)
    (hinv : Inv X c w) :
    let w' := { w with manifest := some (w.memory.getD []) }
    Inv X c w' ∧ Shipped e (entries ++ [shippedEntry env e])
      { w₀ with
        manifest := some (entries ++ [shippedEntry env e])
        memory := some (entries ++ [shippedEntry env e]) } c w' := by
  intro w'
  have hl := h.shipped.loaded
  have hcovers : ∀ f ∈ w.entries, ∃ f' ∈ entries ++ [shippedEntry env e], Same f f' := by
    intro f hf
    obtain ⟨f', hf', hsame⟩ := hl.covers f hf
    exact ⟨f', List.mem_append_left _ hf', hsame⟩
  have hlisted : ∀ f ∈ entries ++ [shippedEntry env e],
      w.dest.get? f.id = some f.ciphertextSha256 := by
    intro f hf
    rcases List.mem_append.mp hf with hold | hpushed
    · exact hl.listed f hold
    · obtain rfl := List.mem_singleton.mp hpushed
      exact h.shipped.dest
  have hnodup : ((entries ++ [shippedEntry env e]).map ManifestEntry.id).Nodup := by
    rw [List.map_append, List.nodup_append]
    refine ⟨hl.nodup, by simp, ?_⟩
    intro a ha b hb hab
    obtain ⟨f, hf, rfl⟩ := List.mem_map.mp ha
    have hb' : b = e.id := by simpa [shippedEntry] using hb
    exact h.unloaded f hf (hab.trans hb')
  have hmanifest : w' = { w with manifest := some (entries ++ [shippedEntry env e]) } := by
    show { w with manifest := some (w.memory.getD []) } = _
    rw [h.memory]
    rfl
  rw [hmanifest]
  refine ⟨hinv.save hlisted hnodup hcovers h.based, ?_⟩
  exact
    { frame :=
        { h.shipped.frame with
          manifest := rfl
          memory := h.memory }
      loaded :=
        { memory := h.memory
          listed := hlisted
          nodup := hnodup
          covers := fun f hf => ⟨f, hf, Same.refl f⟩
          exact := fun _ f hf => ⟨f, hf, Same.refl f⟩ }
      sidecar := h.shipped.sidecar
      valid := h.shipped.valid
      gone := h.shipped.gone
      dest := h.shipped.dest }

theorem Touches.eraseSidecar {n : String} {w : World η} (h : Touches n w₀ w) :
    Touches n w₀ { w with sidecars := w.sidecars.erase n } :=
  { h with
    sidecars := fun k hk => by
      simp only [Table.get?_erase, if_neg hk]
      exact h.sidecars k hk
    fresh := fun k hk hfresh => h.fresh k hk hfresh }

/-- The last operation of a turn: the artifact is listed and its sidecar goes. -/
theorem dropSidecar_spec {w₁ : World η} (hsidecar : w₀.sidecars.get? e.id = some e) :
    Spec (Stage X S B s fun c w => Shipped e entries w₁ c w ∧ w.Listed e.id ∧ Touches e.id w₀ w)
      (do
        update (.removeSidecar e.id) fun w => { w with sidecars := w.sidecars.erase e.id }
        return true : BackupM η Bool)
      (fun done m => done = true ∧ Stage X S B s (Settled e.id w₀) m)
      (fun _ => TurnFailed e.id w₀ X S B s) (Durable X B s) := by
  apply Spec.bind
  · apply update_spec (Q := fun _ => Settled e.id w₀)
    · intro m hm hb
      have hfailed : Stage X S B s (fun _ _ => True) (m.fail (.removeSidecar e.id)) :=
        hm.fail hb (by simp) fun _ _ _ => trivial
      exact TurnFailed.of_shipped hfailed.good rfl hm.here.2.2 (by simp [hm.here.1.dest])
        hm.here.1.loaded hm.here.1.gone (by simp [hsidecar]) (hm.here.1.sidecar.trans hsidecar.symm)
    · rintro c w hinv ⟨hshipped, hlisted, htouches⟩
      refine ⟨hshipped.dropSidecar hinv hlisted, ?_⟩
      exact
        { touches := htouches.eraseSidecar
          lasting := fun _ => by simp [hshipped.dest]
          loaded := ⟨entries, { hshipped.loaded with }⟩
          sidecar := by simp
          claimed := fun _ => by
            obtain ⟨f, hf, hid⟩ := hlisted
            obtain ⟨f', hf', hsame⟩ := hshipped.loaded.covers f hf
            refine ⟨f', ?_, hsame.id.trans hid⟩
            simp only [hshipped.loaded.memory, Option.getD_some]
            exact hf'
          recorded := fun _ e' he' => by
            obtain rfl : e = e' := Option.some.inj (hsidecar.symm.trans he')
            obtain ⟨f, hf, hid⟩ := hlisted
            exact ⟨f, hf, hid, hshipped.listed_sum hinv.core hf hid⟩ }
  · exact fun _ => Spec.pure fun m hm => ⟨rfl, hm⟩

/-- The manifest with the pushed record is saved. -/
theorem savePushed_spec (env : RunEnv η) :
    Spec (Stage X S B s (Pushed env e entries w₀)) (saveManifest [])
      (fun _ => Stage X S B s fun c w =>
        Shipped e (entries ++ [shippedEntry env e])
          { w₀ with
            manifest := some (entries ++ [shippedEntry env e])
            memory := some (entries ++ [shippedEntry env e]) } c w ∧
        w.Listed e.id ∧ Touches e.id w₀ w)
      (fun _ => TurnFailed e.id w₀ X S B s) (Durable X B s) := by
  have htouches : ∀ {c : Bool} {w : World η}, Pushed env e entries w₀ c w →
      Touches e.id w₀ w := by
    intro c w hw
    have hframe := hw.shipped.frame.touches
    have hmemory₀ : w₀.memory = some entries := hw.shipped.frame.memory.symm
    exact
      { hframe with
        memory := fun f hf => by
          rw [hmemory₀] at hf
          rw [hw.memory]
          exact List.mem_append_left _ hf
        fresh := fun k hk hfresh hmemory => by
          rw [hw.memory] at hmemory
          obtain ⟨f, hf, hid⟩ := hmemory
          rcases List.mem_append.mp hf with hold | hpushed
          · exact hframe.fresh k hk hfresh ⟨f, hold, hid⟩
          · obtain rfl := List.mem_singleton.mp hpushed
            exact absurd hid.symm hk }
  have hfail : ∀ (operation : Operation) m, Stage X S B s (Pushed env e entries w₀) m →
      0 < m.budget → (∀ id, operation ≠ .removeOutboxFile id) →
      TurnFailed e.id w₀ X S B s (m.fail operation) := by
    intro operation m hm hb hop
    have hfailed : Stage X S B s (fun _ _ => True) (m.fail operation) :=
      hm.fail hb (fun id hid => absurd hid (hop id)) fun _ _ _ => trivial
    have hl := hm.here.shipped.loaded
    have hsidecar : m.disk.sidecars.get? e.id = some e := hm.here.shipped.sidecar
    have hsame : m.disk.sidecars.get? e.id = w₀.sidecars.get? e.id :=
      congrArg (fun t => t.get? e.id) hm.here.shipped.frame.sidecars
    -- in memory, the record is listed already
    have hloaded : Loaded false m.disk (entries ++ [shippedEntry env e]) :=
      { memory := hm.here.memory
        listed := fun f hf => by
          rcases List.mem_append.mp hf with hold | hpushed
          · exact hl.listed f hold
          · obtain rfl := List.mem_singleton.mp hpushed
            exact hm.here.shipped.dest
        nodup := by
          rw [List.map_append, List.nodup_append]
          refine ⟨hl.nodup, by simp, ?_⟩
          intro a ha b hb hab
          obtain ⟨f, hf, rfl⟩ := List.mem_map.mp ha
          have hb' : b = e.id := by simpa [shippedEntry] using hb
          exact hm.here.unloaded f hf (hab.trans hb')
        covers := fun f hf => by
          obtain ⟨f', hf', hsame⟩ := hl.covers f hf
          exact ⟨f', List.mem_append_left _ hf', hsame⟩
        exact := by simp }
    exact TurnFailed.of_shipped hfailed.good rfl (htouches hm.here)
      (by simp [hm.here.shipped.dest]) hloaded hm.here.shipped.gone (by simp [← hsame, hsidecar])
      hsame
  apply Spec.bind (touch_spec fun m hm hb => hfail _ m hm hb (by simp))
  intro _
  apply Spec.bind (touch_spec fun m hm hb => hfail _ m hm hb (by simp))
  intro _
  apply Spec.bind (touch_spec fun m hm hb => hfail _ m hm hb (by simp))
  intro _
  apply update_spec (fun m hm hb => hfail _ m hm hb (by simp))
  intro c w hinv hw
  obtain ⟨hinv', hshipped⟩ := hw.save hinv
  refine ⟨hinv', hshipped, ?_, ?_⟩
  · refine ⟨shippedEntry env e, ?_, rfl⟩
    simp [World.entries, hw.memory]
  · have hold := htouches hw
    exact
      { hold with
        fresh := fun k _ _ hmemory => by
          obtain ⟨f, hf, hid⟩ := hmemory
          exact ⟨f, hf, hid⟩ }

/-- A shipped artifact is recorded, in whatever way. -/
theorem recordEntry_spec (env : RunEnv η) (hsidecar : w₀.sidecars.get? e.id = some e)
    (hfresh : Fresh w₀ e.id) :
    Spec (Stage X S B s (Shipped e entries w₀)) (recordEntry env e.id e)
      (fun done m => done = true ∧ Stage X S B s (Settled e.id w₀) m)
      (fun _ => TurnFailed e.id w₀ X S B s) (Durable X B s) := by
  apply Spec.bind
      (Q := fun listed m => (listed = true ↔ ∃ f ∈ entries, f.id = e.id) ∧
        Stage X S B s (Shipped e entries w₀) m)
  · apply Spec.look
    intro m hm
    refine ⟨?_, hm⟩
    simp [hm.here.loaded.memory]
  intro listed
  apply Spec.of_fact
  intro hlisted
  apply Spec.ite
  · intro hthere
    apply Spec.pre (P := Stage X S B s fun c w =>
      Shipped e entries w₀ c w ∧ w.Listed e.id ∧ Touches e.id w₀ w) (dropSidecar_spec hsidecar)
    intro m hm
    apply hm.imp
    intro c w hw
    refine ⟨hw, ?_, hw.frame.touches⟩
    have hmemory : w₀.memory = some entries := by rw [← hw.frame.memory, hw.loaded.memory]
    obtain ⟨f, hf, hid⟩ := hfresh (by rw [hmemory]; exact hlisted.mp hthere)
    refine ⟨f, ?_, hid⟩
    simp only [World.entries, hw.frame.manifest]
    exact hf
  · intro hnew
    apply Spec.bind
    · apply modify_spec (Q := fun _ => Pushed env e entries w₀)
      intro c w hinv hw
      refine ⟨hinv.same rfl rfl rfl rfl rfl rfl, hw.push hinv ?_⟩
      intro f hf hid
      exact hnew (hlisted.mpr ⟨f, hf, hid⟩)
    intro _
    apply Spec.bind (savePushed_spec env)
    exact fun _ => dropSidecar_spec hsidecar

end Record

section Turn

variable {X : Exempt η} {S : String → Prop} {B : Budget} {s : Bool}
  {entries : List (ManifestEntry η)} {e : ManifestEntry η} {n : String} {w₀ : World η}

/-- Nothing was touched in this turn yet. -/
def Begun (entries : List (ManifestEntry η)) (w₀ : World η) (c : Bool) (w : World η) : Prop :=
  w = w₀ ∧ Loaded c w entries

theorem Touches.refl (n : String) (w : World η) : Touches n w w :=
  (Frame.refl n w).touches

/-- A turn that fails before it touches anything. -/
theorem Begun.failed {m : Machine Operation (World η)} (h : Stage X S B s (Begun entries w₀) m)
    (hcleared : clean s m = true → ∀ e, w₀.sidecars.get? n = some e →
      w₀.artifacts.get? n = some e.ciphertextSha256 ∧
        ¬ (validEntry e = true ∧ e.kind = .delta)) :
    TurnFailed n w₀ X S B s m := by
  obtain ⟨hgood, hdisk, hloaded⟩ := h
  exact
    { good := ⟨hgood.inv, fun id hid => Or.inl (hgood.benign id hid), hgood.spent⟩
      claimed := fun hthere => by
        rw [hdisk]
        exact Or.inl hthere
      touches := by
        rw [hdisk]
        exact Touches.refl n w₀
      lasting := fun hbefore => by
        rw [hdisk]
        exact hbefore
      loaded := ⟨entries, hloaded⟩
      same := by rw [hdisk]
      cleared := fun hc => by
        rw [hdisk]
        exact hcleared hc
      removed := fun _ _ _ => by rw [hdisk]
      leaked := fun hS hfail => absurd (hgood.benign n hfail) hS
      placed := fun _ _ _ => Or.inl (by rw [hdisk]) }

theorem Begun.fail {m : Machine Operation (World η)} {operation : Operation}
    (h : Stage X S B s (Begun entries w₀) m) (hb : 0 < m.budget)
    (hop : ∀ id, operation ≠ .removeOutboxFile id) :
    TurnFailed n w₀ X S B s (m.fail operation) := by
  have hfailed : Stage X S B s (Begun entries w₀) (m.fail operation) :=
    h.fail hb (fun id hid => absurd hid (hop id)) fun _ _ hw => ⟨hw.1, hw.2.weaken⟩
  exact Begun.failed hfailed fun hc => by simp [clean] at hc

/-- What a failed `ship` leaves, for the turn. -/
theorem ShipFailed.turn {m : Machine Operation (World η)}
    (h : ShipFailed e entries w₀ X S B s m) (hsidecar : w₀.sidecars.get? e.id = some e)
    (hartifact : (w₀.artifacts.get? e.id).isSome) : TurnFailed e.id w₀ X S B s m where
  good := by
    refine ⟨h.good.inv, fun id hid => ?_, h.good.spent⟩
    rcases h.good.benign id hid with hold | hown
    · exact Or.inl hold
    · exact Or.inr ⟨hown, hartifact⟩
  claimed := fun _ => Or.inl (by simp [h.artifact])
  touches := h.frame.touches
  lasting := fun hbefore => by
    rcases h.placed with hsame | hdest
    · rw [hsame]
      exact hbefore
    · simp [hdest]
  loaded := ⟨entries, h.loaded⟩
  same := h.sidecar.trans hsidecar.symm
  cleared := fun hc e' he' => by
    obtain rfl : e = e' := Option.some.inj (h.sidecar.symm.trans he')
    refine ⟨h.artifact, ?_⟩
    rintro ⟨hvalid, hkind⟩
    obtain ⟨sum, hdest, hne⟩ := h.collision hc
    obtain ⟨hplace, -⟩ := (h.good.inv.strong hc).pending e.id e he' hvalid hkind
    rcases hplace with hnone | hsame
    · simp [hnone] at hdest
    · exact hne (Option.some.inj (hdest.symm.trans hsame))
  removed := fun _ => h.removed
  leaked := fun hS hfail => by
    refine ⟨?_, ?_, h.frame.manifest⟩
    · simp [h.leaked hS hfail]
    · simp [h.artifact]
  placed := fun _ e' he' => by
    obtain rfl : e = e' := Option.some.inj (hsidecar.symm.trans he')
    exact h.placed

/-- The sidecar of an artifact that is nowhere goes; that does not happen in a clean run. -/
theorem dropEntry_spec (hsidecar : w₀.sidecars.get? e.id = some e)
    (hgone : w₀.artifacts.get? e.id = none) (hdest : w₀.dest.get? e.id = none) :
    Spec (Stage X S B s (Begun entries w₀)) (dropEntry e.id)
      (fun done m => done = true ∧ Stage X S B s (Settled e.id w₀) m)
      (fun _ => TurnFailed e.id w₀ X S B s) (Durable X B s) := by
  have hunclean : ∀ {c : Bool}, Inv X c w₀ → c = true → False := by
    intro c hinv hc
    rcases (hinv.strong hc).kept e.id e hsidecar with hartifact | ⟨-, hplace⟩
    · simp [hgone] at hartifact
    · simp [hdest] at hplace
  apply Spec.bind
  · apply update_spec (Q := fun _ => Settled e.id w₀)
    · exact fun m hm hb => Begun.fail hm hb (by simp)
    · rintro c w hinv ⟨rfl, hloaded⟩
      constructor
      · exact hinv.removeSidecar (Or.inr hdest) fun hc => (hunclean hinv hc).elim
      · exact
          { touches := (Touches.refl e.id w).eraseSidecar
            lasting := fun hbefore => hbefore
            loaded := ⟨entries, { hloaded with }⟩
            sidecar := by simp
            claimed := by simp [hgone]
            recorded := fun hc => (hunclean hinv hc).elim }
  · exact fun _ => Spec.pure fun m hm => ⟨rfl, hm⟩

variable [DecidableEq η]

theorem recoverEntry_spec (env : RunEnv η) (hsidecar : w₀.sidecars.get? e.id = some e)
    (hvalid : validEntry e = true) (hfresh : Fresh w₀ e.id)
    (hgone : w₀.artifacts.get? e.id = none)
    (hdest : w₀.dest.get? e.id = none ∨ w₀.dest.get? e.id = some e.ciphertextSha256) :
    Spec (Stage X S B s (Begun entries w₀)) (recoverEntry env e.id e)
      (fun done m => done = true ∧ Stage X S B s (Settled e.id w₀) m)
      (fun _ => TurnFailed e.id w₀ X S B s) (Durable X B s) := by
  apply Spec.bind
      (Q := fun there m => there = (w₀.dest.get? e.id).isSome ∧
        Stage X S B s (Begun entries w₀) m)
  · exact Spec.look fun m hm => ⟨by rw [hm.here.1], hm⟩
  intro there
  apply Spec.of_fact
  rintro rfl
  rcases hdest with hnone | hthere
  · rw [hnone]
    exact dropEntry_spec hsidecar hgone hnone
  rw [hthere]
  apply Spec.bind
  · apply read_spec (Q := fun actual c w => actual = e.ciphertextSha256 ∧ Begun entries w₀ c w)
    · exact fun m hm hb => Begun.fail hm hb (by simp)
    · intro c w actual hw hread
      rw [hw.1, hthere] at hread
      exact ⟨(Option.some.inj hread).symm, hw⟩
    · intro m hm hread
      rw [hm.here.1, hthere] at hread
      simp at hread
  intro actual
  apply Spec.ite
  · intro _
    apply Spec.pre (P := Stage X S B s (Shipped e entries w₀))
      (recordEntry_spec env hsidecar hfresh)
    intro m hm
    apply hm.imp
    rintro c w ⟨-, rfl, hloaded⟩
    exact
      { frame := Frame.refl e.id w
        loaded := hloaded
        sidecar := hsidecar
        valid := hvalid
        gone := hgone
        dest := hthere }
  · intro hdifferent
    exact fun fates m hm => absurd hm.here.1 hdifferent

/-- One turn of the outbox. -/
theorem shipPending_spec (env : RunEnv η) (havailable : w₀.available = true)
    (hfresh : Fresh w₀ n) :
    Spec (Stage X S B s (Begun entries w₀)) (shipPending env n)
      (fun done m => done = true ∧ Stage X S B s (Settled n w₀) m)
      (fun _ => TurnFailed n w₀ X S B s) (Durable X B s) := by
  apply Spec.bind
  · apply read_spec (Q := fun e c w => w₀.sidecars.get? n = some e ∧ Begun entries w₀ c w)
    · exact fun m hm hb => Begun.fail hm hb (by simp)
    · exact fun c w e hw hread => ⟨by rw [← hw.1]; exact hread, hw⟩
    · intro m hm hread
      rw [hm.here.1] at hread
      exact Begun.failed hm fun _ e he => by simp [hread] at he
  intro e
  have hfacts : ∀ m, Stage X S B s (fun c w => w₀.sidecars.get? n = some e ∧ Begun entries w₀ c w) m →
      w₀.sidecars.get? n = some e ∧ Core w₀ ∧ Stage X S B s (Begun entries w₀) m := by
    intro m hm
    refine ⟨hm.here.1, ?_, hm.imp fun _ _ hw => hw.2⟩
    rw [← hm.here.2.1]
    exact hm.good.inv.core
  apply Spec.pre _ hfacts
  apply Spec.of_fact
  intro hsidecar
  apply Spec.of_fact
  intro hcore
  obtain rfl : e.id = n := hcore.named n e hsidecar
  apply Spec.bind (Q := fun _ m => validEntry e = true ∧ Stage X S B s (Begun entries w₀) m)
  · apply Spec.ite
    · exact fun hvalid => Spec.pure fun m hm => ⟨hvalid, hm⟩
    · intro hinvalid
      apply Spec.throw
      intro m hm
      apply Begun.failed hm
      intro hc e' he'
      obtain rfl : e = e' := Option.some.inj (hsidecar.symm.trans he')
      have hstrong := hm.good.inv.strong hc
      rw [hm.here.1] at hstrong
      rcases hstrong.kept e.id e hsidecar with hartifact | ⟨hvalid, -⟩
      · exact ⟨hartifact, fun hdelta => hinvalid hdelta.1⟩
      · exact absurd hvalid hinvalid
  intro _
  apply Spec.of_fact
  intro hvalid
  apply Spec.bind
      (Q := fun there m => there = (w₀.artifacts.get? e.id).isSome ∧
        Stage X S B s (Begun entries w₀) m)
  · exact Spec.look fun m hm => ⟨by rw [hm.here.1], hm⟩
  intro there
  apply Spec.of_fact
  rintro rfl
  rcases hcore.backed e.id e hsidecar with hartifact | ⟨hgone, hdest⟩
  · rw [hartifact]
    apply Spec.bind
    · apply Spec.mono (P := Stage X S B s (Waiting e entries w₀)) (ship_spec env)
      · intro m hm
        apply hm.imp
        rintro c w ⟨rfl, hloaded⟩
        exact
          { frame := Frame.refl e.id w
            loaded := hloaded
            available := havailable
            sidecar := hsidecar
            valid := hvalid
            artifact := hartifact
            dest := rfl }
      · exact fun _ m hm => hm
      · exact fun _ m hm => hm.turn hsidecar (by simp [hartifact])
      · exact fun m hm => hm
    · intro outcome
      apply Spec.of_fact
      rintro rfl
      exact recordEntry_spec env hsidecar hfresh
  · rw [hgone]
    apply Spec.bind
        (Q := fun available m => available = true ∧ Stage X S B s (Begun entries w₀) m)
    · exact Spec.look fun m hm => ⟨by rw [hm.here.1, havailable], hm⟩
    intro available
    apply Spec.of_fact
    rintro rfl
    exact recoverEntry_spec env hsidecar hvalid hfresh hgone hdest

end Turn

end Hippo.Backup
