import Hippo.BackupOutbox

/-!
# A whole run

The stages of a run: the manifest is loaded, the outbox worked off, the new artifact written,
shipped and recorded, and what expired pruned. Every stage keeps the state sound in a clean
run; a failed run is described by what its last operation was.
-/
namespace Hippo.Backup

open Hippo.Interruption

variable {η : Type}

/-- A sidecar that stays in the outbox has its artifact beside it, and is not that of a Delta
that could be shipped. -/
def Cleared (w : World η) (k : String) : Prop :=
  ∀ e, w.sidecars.get? k = some e → w.artifacts.get? k = some e.ciphertextSha256 ∧
    ¬ (validEntry e = true ∧ e.kind = .delta)

/-- The artifact has left a trace that a new id is checked against. -/
def Claimed (w : World η) (k : String) : Prop :=
  (∃ f ∈ w.memory.getD [], f.id = k) ∨ (w.artifacts.get? k).isSome ∨ (w.sidecars.get? k).isSome

/-- The manifest is in memory and the sidecars `todo` wait for their turn. `W` are the files at
the start of the run; `S` are the artifacts that were in the outbox with their sidecars. -/
structure Working (W : World η) (X : Exempt η) (S : String → Prop) (todo : List String) (c : Bool)
    (w : World η) : Prop where
  loaded : ∃ entries, Loaded c w entries
  available : w.available = true
  pruned : w.pruned = X.before
  lasting : ∀ k, (W.dest.get? k).isSome → (w.dest.get? k).isSome
  waiting : ∀ k ∈ todo, S k ↔ (w.artifacts.get? k).isSome
  claimed : ∀ k, S k → Claimed w k
  fresh : ∀ k ∈ todo, Fresh w k
  cleared : c = true → ∀ k, k ∉ todo → Cleared w k

/-- Anywhere before the prune. -/
structure Early (W : World η) (X : Exempt η) (w : World η) : Prop where
  pruned : w.pruned = X.before
  lasting : ∀ k, (W.dest.get? k).isSome → (w.dest.get? k).isSome

/-- Before the manifest is loaded. -/
structure Begin (W : World η) (X : Exempt η) (S : String → Prop) (w : World η) : Prop where
  early : Early W X w
  waiting : ∀ k, S k ↔ (w.sidecars.get? k).isSome ∧ (w.artifacts.get? k).isSome

/-- The outbox is worked off, if the manifest is in memory. -/
structure Ready (W : World η) (X : Exempt η) (S : String → Prop) (c : Bool) (w : World η) :
    Prop where
  early : Early W X w
  claimed : ∀ k, S k → Claimed w k
  working : w.memory.isSome → Working W X S [] c w

section Outbox

variable {W : World η} {X : Exempt η} {S : String → Prop} {B : Budget} {s : Bool}
  {todo : List String}

theorem Working.early {c : Bool} {w : World η} (h : Working W X S todo c w) : Early W X w :=
  ⟨h.pruned, h.lasting⟩

theorem Working.weaken {c : Bool} {w : World η} (h : Working W X S todo c w) :
    Working W X S todo false w :=
  { h with
    loaded := h.loaded.imp fun _ hl => hl.weaken
    cleared := by simp }

theorem Working.ready {c : Bool} {w : World η} (h : Working W X S [] c w) : Ready W X S c w :=
  ⟨h.early, h.claimed, fun _ => h⟩

theorem Ready.weaken {c : Bool} {w : World η} (h : Ready W X S c w) : Ready W X S false w :=
  { h with working := fun hmemory => (h.working hmemory).weaken }

/-- Where a turn failed or ended, the next one begins. -/
theorem Working.next {n : String} {c c' : Bool} {w w' : World η}
    (h : Working W X S (n :: todo) c w) (hcc : c' = true → c = true) (htouches : Touches n w w')
    (hlasting : (w.dest.get? n).isSome → (w'.dest.get? n).isSome)
    (hloaded : ∃ entries, Loaded c' w' entries) (hnodup : n ∉ todo)
    (hclaimed : S n → Claimed w' n) (hcleared : c' = true → Cleared w' n) :
    Working W X S todo c' w' := by
  have hne : ∀ k ∈ todo, k ≠ n := by
    rintro k hk rfl
    exact hnodup hk
  exact
    { loaded := hloaded
      available := htouches.available.trans h.available
      pruned := htouches.pruned.trans h.pruned
      lasting := fun k hk => by
        by_cases hkn : k = n
        · subst hkn
          exact hlasting (h.lasting k hk)
        · rw [htouches.dest k hkn]
          exact h.lasting k hk
      waiting := fun k hk => by
        rw [htouches.artifacts k (hne k hk)]
        exact h.waiting k (List.mem_cons_of_mem _ hk)
      claimed := fun k hk => by
        by_cases hkn : k = n
        · subst hkn
          exact hclaimed hk
        · rw [Claimed, htouches.sidecars k hkn, htouches.artifacts k hkn]
          refine (h.claimed k hk).imp_left ?_
          rintro ⟨f, hf, hid⟩
          exact ⟨f, htouches.memory f hf, hid⟩
      fresh := fun k hk =>
        htouches.fresh k (hne k hk) (h.fresh k (List.mem_cons_of_mem _ hk))
      cleared := fun hc k hk => by
        by_cases hkn : k = n
        · subst hkn
          exact hcleared hc
        · intro e he
          rw [htouches.sidecars k hkn] at he
          rw [htouches.artifacts k hkn]
          exact h.cleared (hcc hc) k (by simp [hkn, hk]) e he }

/-- One turn within the loop; the loop goes on when it fails. -/
theorem turn_spec [DecidableEq η] (env : RunEnv η) (n : String) (hnodup : n ∉ todo)
    {E : BackupError → Machine Operation (World η) → Prop} :
    Spec (Stage X S B s (Working W X S (n :: todo)))
      ((shipPending env n).attempt : BackupM η (Except BackupError Bool))
      (fun result m => result ≠ .ok false ∧ Stage X S B s (Working W X S todo) m) E
      (Durable X B s) := by
  apply Spec.from
  intro m₀ hm₀
  obtain ⟨entries, hentries⟩ := hm₀.here.loaded
  have hwaiting := hm₀.here.waiting n List.mem_cons_self
  apply Spec.attempt
  apply Spec.mono (P := Stage X S (B.since m₀) s (Begun entries m₀.disk))
    (shipPending_spec env hm₀.here.available (hm₀.here.fresh n List.mem_cons_self))
  · rintro m rfl
    exact ⟨hm₀.since.good, rfl, hentries⟩
  · rintro done m ⟨rfl, hm⟩
    refine ⟨by simp, hm.good.resume hm₀.good.spent.2, ?_⟩
    apply hm₀.here.next (clean_of_since hm.good) hm.here.touches hm.here.lasting hm.here.loaded
      hnodup
    · exact fun hS => Or.inl (hm.here.claimed (hwaiting.mp hS))
    · intro _ e he
      simp [hm.here.sidecar] at he
  · intro error m hm
    have hgood : Good X S (B.since m₀) s m := by
      refine ⟨hm.good.inv, fun id hid => ?_, hm.good.spent⟩
      rcases hm.good.benign id hid with hold | ⟨rfl, hartifact⟩
      · exact hold
      · exact hwaiting.mpr hartifact
    refine ⟨by simp, hgood.resume hm₀.good.spent.2, ?_⟩
    exact hm₀.here.next (clean_of_since hgood) hm.touches hm.lasting hm.loaded hnodup
      (fun hS => Or.inr (hm.claimed (hwaiting.mp hS))) hm.cleared
  · exact fun m hm => ⟨hm.core, hm.sound, hm.spent⟩

/-- The loop over the outbox: nothing waits for a destination that is there. -/
theorem shipEach_spec [DecidableEq η] (env : RunEnv η) (hnodup : todo.Nodup)
    {E : BackupError → Machine Operation (World η) → Prop} :
    Spec (Stage X S B s (Working W X S todo)) (shipEach env todo)
      (fun waiting m => waiting = 0 ∧ Stage X S B s (Working W X S []) m) E (Durable X B s) := by
  induction todo with
  | nil => exact Spec.pure fun m hm => ⟨rfl, hm⟩
  | cons n todo ih =>
    have hrest := ih hnodup.of_cons
    have hn : n ∉ todo := (List.nodup_cons.mp hnodup).1
    apply Spec.bind (turn_spec env n hn)
    intro result
    apply Spec.of_fact
    intro hresult
    cases result with
    | error error => exact hrest
    | ok shipped =>
      cases shipped with
      | true => exact hrest
      | false => exact absurd rfl hresult

/-- Stale artifacts go; sidecars and their artifacts stay. -/
theorem removeStale_spec (names : List String) {P : Bool → World η → Prop}
    (hweak : ∀ c w, P c w → P false w)
    (hP : ∀ c w id, w.sidecars.get? id = none → P c w →
      P c { w with artifacts := w.artifacts.erase id })
    {E : BackupError → Machine Operation (World η) → Prop} :
    Spec (Stage X S B s P) (removeStale names) (fun _ => Stage X S B s P) E (Durable X B s) := by
  induction names with
  | nil => exact Spec.pure fun m hm => hm
  | cons name names ih =>
    apply Spec.bind (Q := fun owned => Stage X S B s fun c w => P c w ∧
      owned = (w.sidecars.get? name).isSome)
    · exact look_spec fun c w hw => ⟨hw, rfl⟩
    intro owned
    apply Spec.ite
    · intro _
      exact ih.pre fun m hm => hm.imp fun _ _ hw => hw.1
    · intro hstale
      apply Spec.bind
      · apply ignore_spec (R := P)
        apply update_spec (Q := fun _ => P)
        · exact fun m hm hb => hm.fail hb (by simp) fun c w hw => hweak c w hw.1
        · intro c w hinv hw
          have hnone : w.sidecars.get? name = none := by
            rw [hw.2] at hstale
            simpa using hstale
          exact ⟨hinv.removeArtifact hnone, hP c w name hnone hw.1⟩
      · exact fun _ => ih

/-- The manifest was loaded, the outbox not read yet. -/
structure Opened (W : World η) (X : Exempt η) (S : String → Prop) (c : Bool) (w : World η) :
    Prop where
  begin : Begin W X S w
  loaded : ∃ entries, Loaded c w entries
  available : w.available = true
  fresh : ∀ k, Fresh w k

/-- The files are as before a prune, whatever failed. -/
def Unpruned (W : World η) (X : Exempt η) (_ : Bool) (w : World η) : Prop := Early W X w

theorem Unpruned.fail {m : Machine Operation (World η)} {operation : Operation}
    {P : Bool → World η → Prop} (h : Stage X S B s P m) (hb : 0 < m.budget)
    (hop : ∀ id, operation ≠ .removeOutboxFile id) (hP : ∀ c w, P c w → Early W X w) :
    Stage X S B s (Unpruned W X) (m.fail operation) :=
  h.fail hb (fun id hid => absurd hid (hop id)) hP

/-- The sidecars of the outbox, each of which waits for its turn. -/
theorem pendingEntries_spec :
    Spec (Stage X S B s (Opened W X S)) (pendingEntries : BackupM η (List String))
      (fun todo m => todo.Nodup ∧ Stage X S B s (Working W X S todo) m)
      (fun _ => Stage X S B s (Unpruned W X)) (Durable X B s) := by
  apply Spec.bind (Q := fun _ => Stage X S B s (Opened W X S))
  · apply touch_spec
    exact fun m hm hb => Unpruned.fail hm hb (by simp) fun _ _ hw => hw.begin.early
  intro _
  apply Spec.look
  intro m hm
  let todo := m.disk.sidecars.keys.insertionSort (· ≤ ·)
  have hmem : ∀ k, k ∈ todo ↔ ∃ e, m.disk.sidecars.get? k = some e := by
    intro k
    rw [List.mem_insertionSort, Table.mem_keys]
  have hnodup : todo.Nodup := by
    rw [(List.perm_insertionSort _ _).nodup_iff]
    exact m.disk.sidecars.nodup
  refine ⟨hnodup, hm.good, ?_⟩
  exact
    { loaded := hm.here.loaded
      available := hm.here.available
      pruned := hm.here.begin.early.pruned
      lasting := hm.here.begin.early.lasting
      waiting := fun k hk => by
        obtain ⟨e, he⟩ := (hmem k).mp hk
        rw [hm.here.begin.waiting k, he]
        simp
      claimed := fun k hk => Or.inr (Or.inl ((hm.here.begin.waiting k).mp hk).2)
      fresh := fun k _ => hm.here.fresh k
      cleared := fun _ k hk e he => absurd ((hmem k).mpr ⟨e, he⟩) hk }

theorem shipOutbox_spec [DecidableEq η] (env : RunEnv η) :
    Spec (Stage X S B s (Opened W X S)) (shipOutbox env)
      (fun waiting m => waiting = 0 ∧ Stage X S B s (Working W X S []) m)
      (fun _ => Stage X S B s (Unpruned W X)) (Durable X B s) := by
  apply Spec.bind (Q := fun _ => Stage X S B s (Opened W X S))
  · apply touch_spec
    exact fun m hm hb => Unpruned.fail hm hb (by simp) fun _ _ hw => hw.begin.early
  intro _
  apply Spec.bind (Q := fun _ => Stage X S B s (Opened W X S)) (Spec.look fun m hm => hm)
  intro names
  apply Spec.bind
  · apply removeStale_spec names (P := Opened W X S)
    · exact fun c w hw => { hw with loaded := hw.loaded.imp fun _ hl => hl.weaken }
    · exact fun c w id hnone hw =>
        { begin :=
            { early := { hw.begin.early with }
              waiting := fun k => by
                rw [hw.begin.waiting k]
                by_cases hk : k = id
                · simp [hk, hnone]
                · simp [hk] }
          loaded := hw.loaded.imp fun _ hl => { hl with }
          available := hw.available
          fresh := hw.fresh }
  intro _
  apply Spec.bind pendingEntries_spec
  intro todo
  apply Spec.of_fact
  exact fun hnodup => shipEach_spec env hnodup

/-- The manifest in memory is saved while no sidecar waits. -/
theorem saveManifest_spec :
    Spec (Stage X S B s (Working W X S [])) (saveManifest [])
      (fun _ => Stage X S B s (Working W X S [])) (fun _ => Stage X S B s (Working W X S []))
      (Durable X B s) := by
  have hfail : ∀ (operation : Operation) m, Stage X S B s (Working W X S []) m → 0 < m.budget →
      (∀ id, operation ≠ .removeOutboxFile id) →
      Stage X S B s (Working W X S []) (m.fail operation) := fun operation m hm hb hop =>
    hm.fail hb (fun id hid => absurd hid (hop id)) fun _ _ hw => hw.weaken
  apply Spec.bind (touch_spec fun m hm hb => hfail _ m hm hb (by simp))
  intro _
  apply Spec.bind (touch_spec fun m hm hb => hfail _ m hm hb (by simp))
  intro _
  apply Spec.bind (touch_spec fun m hm hb => hfail _ m hm hb (by simp))
  intro _
  apply update_spec (Q := fun _ => Working W X S [])
  · exact fun m hm hb => hfail _ m hm hb (by simp)
  · intro c w hinv hw
    obtain ⟨entries, hl⟩ := hw.loaded
    have hmemory : w.memory.getD [] = entries := by rw [hl.memory, Option.getD_some]
    simp only [hmemory, List.nil_append]
    constructor
    · apply hinv.save hl.listed hl.nodup hl.covers
      exact fun hc => (hinv.strong hc).based.covered hl.covers (hl.exact hc)
    · exact
        { hw with
          loaded := ⟨entries,
            { memory := hl.memory
              listed := hl.listed
              nodup := hl.nodup
              covers := fun f hf => ⟨f, hf, Same.refl f⟩
              exact := fun _ f hf => ⟨f, hf, Same.refl f⟩ }⟩
          fresh := by simp
          claimed := hw.claimed
          waiting := by simp }

theorem refreshEntry_same (env : RunEnv η) (e : ManifestEntry η) :
    Same e (refreshEntry env e) := by
  simp only [refreshEntry]
  split
  · exact ⟨rfl, rfl, rfl, rfl, rfl, rfl⟩
  · exact Same.refl e

theorem refreshUploaded_spec [DecidableEq η] (env : RunEnv η) :
    Spec (Stage X S B s (Working W X S [])) (refreshUploaded env)
      (fun _ => Stage X S B s (Working W X S [])) (fun _ => Stage X S B s (Working W X S []))
      (Durable X B s) := by
  apply Spec.bind (Q := fun entries => Stage X S B s fun c w => Working W X S [] c w ∧
      Loaded c w entries)
  · apply look_spec
    intro c w hw
    obtain ⟨entries, hl⟩ := hw.loaded
    refine ⟨hw, ?_⟩
    rw [hl.memory]
    exact hl
  intro entries
  apply Spec.ite
  · intro _
    exact Spec.pure fun m hm => hm.imp fun _ _ hw => hw.1
  · intro _
    apply Spec.bind _ fun _ => saveManifest_spec
    apply modify_spec (Q := fun _ => Working W X S [])
    rintro c w hinv ⟨hw, hl⟩
    refine ⟨hinv.same rfl rfl rfl rfl rfl rfl, ?_⟩
    have hmem : ∀ f ∈ entries.map (refreshEntry env), ∃ f' ∈ entries, Same f' f := by
      intro f hf
      obtain ⟨f', hf', rfl⟩ := List.mem_map.mp hf
      exact ⟨f', hf', refreshEntry_same env f'⟩
    exact
      { hw with
        loaded := ⟨entries.map (refreshEntry env),
          { memory := rfl
            listed := fun f hf => by
              obtain ⟨f', hf', hsame⟩ := hmem f hf
              rw [hsame.id, hsame.sum]
              exact hl.listed f' hf'
            nodup := by
              rw [List.map_map]
              have hids : ManifestEntry.id ∘ refreshEntry env = ManifestEntry.id := by
                funext f
                exact (refreshEntry_same env f).id
              rw [hids]
              exact hl.nodup
            covers := fun f hf => by
              obtain ⟨f', hf', hsame⟩ := hl.covers f hf
              exact ⟨_, List.mem_map.mpr ⟨f', hf', rfl⟩,
                hsame.trans (refreshEntry_same env f')⟩
            exact := fun hc f hf => by
              obtain ⟨f', hf', hsame⟩ := hmem f hf
              obtain ⟨f'', hf'', hsame'⟩ := hl.exact hc f' hf'
              exact ⟨f'', hf'', hsame'.trans hsame⟩ }⟩
        fresh := by simp
        waiting := by simp
        claimed := fun k hk => by
          refine (hw.claimed k hk).imp_left ?_
          rintro ⟨f, hf, hid⟩
          rw [hl.memory, Option.getD_some] at hf
          exact ⟨_, List.mem_map.mpr ⟨f, hf, rfl⟩,
            (refreshEntry_same env f).id.trans hid⟩ }

/-- Errors of a checkpoint are tolerated; those of a scheduled run are errors of the run. -/
theorem tolerate_spec {α : Type} {c : BackupM η α} {checkpoint : Bool}
    {P R : Bool → World η → Prop} (hR : ∀ c w, R c w → Early W X w)
    (h : Spec (Stage X S B s P) c (fun _ => Stage X S B s R) (fun _ => Stage X S B s R)
      (Durable X B s)) :
    Spec (Stage X S B s P) (tolerate checkpoint c) (fun _ => Stage X S B s R)
      (fun _ => Stage X S B s (Unpruned W X)) (Durable X B s) := by
  apply Spec.bind (attempt_spec h)
  intro result
  cases result with
  | ok a => exact Spec.pure fun m hm => hm
  | error error =>
    apply Spec.ite
    · exact fun _ => Spec.pure fun m hm => hm
    · exact fun _ => Spec.throw fun m hm => hm.imp hR

/-- The manifest on the disk is now in memory. -/
theorem Begin.open {c : Bool} {w : World η} (h : Begin W X S w) (hcore : Core w)
    (havailable : w.available = true) : Opened W X S c { w with memory := some w.entries } where
  begin := { h with early := { h.early with } }
  loaded := ⟨w.entries,
    { memory := rfl
      listed := hcore.listed
      nodup := hcore.nodup
      covers := fun f hf => ⟨f, hf, Same.refl f⟩
      exact := fun _ f hf => ⟨f, hf, Same.refl f⟩ }⟩
  available := havailable
  fresh := fun _ hmemory => hmemory

theorem ensureOurs_spec (names : List String) {P : Bool → World η → Prop} :
    Spec (Stage X S B s P) (ensureOurs names) (fun _ => Stage X S B s P)
      (fun _ => Stage X S B s P) (Durable X B s) := by
  induction names with
  | nil => exact Spec.pure fun m hm => hm
  | cons name names ih =>
    apply Spec.bind (Q := fun _ => Stage X S B s P) (Spec.look fun m hm => hm)
    intro ours
    apply Spec.bind (Q := fun _ => Stage X S B s P)
    · apply Spec.ite
      · exact fun _ => Spec.pure fun m hm => hm
      · exact fun _ => Spec.throw fun m hm => hm
    · exact fun _ => ih

/-- After the manifest was loaded, or was not. -/
def MaybeOpened (W : World η) (X : Exempt η) (S : String → Prop) (c : Bool) (w : World η) : Prop :=
  Begin W X S w ∧ (w.memory.isSome → Opened W X S c w)

theorem loadManifest_spec :
    Spec (Stage X S B s fun _ => Begin W X S) (loadManifest : BackupM η Unit)
      (fun _ => Stage X S B s (MaybeOpened W X S)) (fun _ => Stage X S B s (MaybeOpened W X S))
      (Durable X B s) := by
  let Closed : World η → Prop := fun w => Begin W X S w ∧ w.memory = none
  have hclosed : ∀ c w, Closed w → MaybeOpened W X S c w := by
    rintro c w ⟨hw, hnone⟩
    exact ⟨hw, by simp [hnone]⟩
  have hopen : ∀ c w, Inv X c w → Closed w → w.available = true →
      Inv X c { w with memory := some w.entries } ∧
        MaybeOpened W X S c { w with memory := some w.entries } := by
    intro c w hinv hw havailable
    have hopened : Opened W X S c { w with memory := some w.entries } :=
      hw.1.open hinv.core havailable
    exact ⟨hinv.same rfl rfl rfl rfl rfl rfl, hopened.begin, fun _ => hopened⟩
  apply Spec.bind
  · apply modify_spec (Q := fun _ _ => Closed)
    exact fun c w hinv hw =>
      ⟨hinv.same rfl rfl rfl rfl rfl rfl, { hw with early := { hw.early with } }, rfl⟩
  intro _
  apply Spec.bind (Q := fun available => Stage X S B s fun _ w => Closed w ∧
    available = w.available)
  · exact look_spec fun c w hw => ⟨hw, rfl⟩
  intro available
  apply Spec.ite
  · intro havailable
    let There : World η → Prop := fun w => Closed w ∧ w.available = true
    have hfail : ∀ (operation : Operation) m, Stage X S B s (fun _ => There) m → 0 < m.budget →
        (∀ id, operation ≠ .removeOutboxFile id) →
        Stage X S B s (MaybeOpened W X S) (m.fail operation) := fun operation m hm hb hop =>
      hm.fail hb (fun id hid => absurd hid (hop id)) fun _ w hw => hclosed false w hw.1
    apply Spec.bind (Q := fun _ => Stage X S B s fun _ => There)
    · apply Spec.pre (P := Stage X S B s fun _ => There)
      · exact touch_spec fun m hm hb => hfail _ m hm hb (by simp)
      · exact fun m hm => hm.imp fun c w hw => ⟨hw.1, by rw [← hw.2, havailable]⟩
    intro _
    apply Spec.bind (Q := fun manifest => Stage X S B s fun _ w => There w ∧
      manifest = w.manifest)
    · exact look_spec fun c w hw => ⟨hw, rfl⟩
    intro manifest
    cases manifest with
    | some entries =>
      apply modify_spec (Q := fun _ => MaybeOpened W X S)
      rintro c w hinv ⟨hw, hmanifest⟩
      have hentries : w.entries = entries := by rw [World.entries, ← hmanifest]; rfl
      rw [← hentries]
      exact hopen c w hinv hw.1 hw.2
    | none =>
      let Bare : World η → Prop := fun w => There w ∧ none = w.manifest
      apply Spec.bind (Q := fun _ => Stage X S B s fun _ => Bare)
      · apply touch_spec
        exact fun m hm hb => hfail _ m (hm.imp fun _ _ hw => hw.1) hb (by simp)
      intro _
      apply Spec.bind (Q := fun _ => Stage X S B s fun _ => Bare) (Spec.look fun m hm => hm)
      intro names
      apply Spec.bind (Q := fun _ => Stage X S B s fun _ => Bare)
      · apply Spec.mono (ensureOurs_spec (P := fun _ => Bare) names)
        · exact fun m hm => hm
        · exact fun _ m hm => hm
        · exact fun _ m hm => hm.imp fun c w hw => hclosed c w hw.1.1
        · exact fun m hm => hm
      intro _
      apply modify_spec (Q := fun _ => MaybeOpened W X S)
      rintro c w hinv ⟨hw, hmanifest⟩
      have hentries : w.entries = [] := by rw [World.entries, ← hmanifest]; rfl
      have hopened := hopen c w hinv hw.1 hw.2
      rw [hentries] at hopened
      exact hopened
  · intro _
    exact Spec.pure fun m hm => hm.imp fun c w hw => hclosed c w hw.1

/-- What waits is shipped, if the manifest is in memory. -/
theorem shipWaiting_spec [DecidableEq η] (env : RunEnv η) :
    Spec (Stage X S B s (MaybeOpened W X S)) (shipWaiting env)
      (fun _ => Stage X S B s (Ready W X S)) (fun _ => Stage X S B s (Unpruned W X))
      (Durable X B s) := by
  apply Spec.bind (Q := fun loaded => Stage X S B s fun c w => MaybeOpened W X S c w ∧
    loaded = w.memory.isSome)
  · exact look_spec fun c w hw => ⟨hw, rfl⟩
  intro loaded
  apply Spec.ite
  · intro hloaded
    apply Spec.bind
    · apply Spec.pre (P := Stage X S B s (Opened W X S)) (shipOutbox_spec env)
      exact fun m hm => hm.imp fun c w hw => hw.1.2 (by rw [← hw.2]; exact hloaded)
    intro waiting
    apply Spec.of_fact
    intro _
    apply Spec.bind (tolerate_spec (fun c w hw => hw.early) (refreshUploaded_spec env))
    exact fun _ => Spec.pure fun m hm => hm.imp fun _ _ hw => hw.ready
  · intro hnone
    have hclosed : ∀ c w, MaybeOpened W X S c w ∧ loaded = w.memory.isSome →
        Ready W X S c w := by
      rintro c w ⟨hw, hmemory⟩
      refine ⟨hw.1.early, fun k hk => Or.inr (Or.inl ((hw.1.waiting k).mp hk).2), ?_⟩
      intro hsome
      rw [← hmemory] at hsome
      exact absurd hsome hnone
    apply Spec.bind (Q := fun _ => Stage X S B s (Ready W X S))
    · apply Spec.bind (Q := fun _ => Stage X S B s (Ready W X S))
      · apply Spec.mono (P := Stage X S B s fun c w => MaybeOpened W X S c w ∧
          loaded = w.memory.isSome) (touch_spec (E := fun _ => Stage X S B s (Unpruned W X)) _)
        · exact fun m hm => hm
        · exact fun _ m hm => hm.imp hclosed
        · exact fun _ m hm => hm
        · exact fun m hm => hm
        · exact fun m hm hb => Unpruned.fail hm hb (by simp) fun c w hw => hw.1.1.early
      · exact fun _ => Spec.look fun m hm => hm
    · exact fun _ => Spec.pure fun m hm => hm

end Outbox

end Hippo.Backup
