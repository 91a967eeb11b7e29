import Hippo.MemoryAbsence
import Hippo.MemoryWedge

/-!
# Runs of polls, reconciles of single files and enrichments

In every run whose tombstones find a node that can be removed, a memory whose file stays absent is
tombstoned after two polls that have the file among the explicitly configured sources. A memory
that only discovery finds is never missed, since discovery lists the files that are there.
-/
namespace Hippo.Fleet
open MemoryCatalog MemoryDb Memory Transition

section Conditions

variable {γ : Type}

instance (db : MemoryDb γ) (d : ℕ) : Decidable (Removable db d) := by
  unfold Removable
  infer_instance

instance (poll : Poll) (paths : List String) (c : MemoryCatalog γ) :
    Decidable (Clear poll paths c) :=
  decidable_of_iff (∀ e ∈ c.documents.entries, (c.sourcePath e.1 ∈ paths ∧
      poll.snap.present (c.sourcePath e.1) = false) → e.2.state ≠ .tombstoned →
    nextState poll.config e.2.state = .tombstoned → Removable c.toMemoryDb e.1)
    ⟨fun h d x hx => h (d, x) (Table.get?_eq_some.mp hx),
      fun h e he => h e.1 e.2 (Table.get?_eq_some.mpr he)⟩

/-- The tombstones of a poll find a node that can be removed, and a result replaces only a
revision that has a chunk. -/
def Meets (w : Fleet γ) : Action γ → Prop
  | .poll poll => Clear poll poll.paths w.catalog
  | .reconcileFile poll path =>
    ∀ s ∈ sourceOf poll path, Clear poll (poll.snap.configuredPaths [s]) w.catalog
  | .enrichment a => KeepsProjection w.world a

instance (w : Fleet γ) (a : Action γ) : Decidable (Meets w a) := by
  cases a <;> unfold Meets <;> infer_instance

/-- The file is not there when the action looks for it. -/
def Away (path : String) : Action γ → Prop
  | .poll poll | .reconcileFile poll _ => poll.snap.present path = false
  | .enrichment _ => True

instance (path : String) (a : Action γ) : Decidable (Away path a) := by
  cases a <;> unfold Away <;> infer_instance

/-- Whether the action is a poll of which the file is an explicitly configured source. -/
def pollsFor (path : String) : Action γ → ℕ
  | .poll poll => if poll.Configures path then 1 else 0
  | _ => 0

/-- A run in which the file stays away; it is a configured source of `k` of its polls. -/
inductive Absence (lib : IngestLibrary) (path : String) : ℕ → Fleet γ → Fleet γ → Prop
  | refl (w : Fleet γ) : Absence lib path 0 w w
  | tail {k : ℕ} {w v u : Fleet γ} {a : Action γ} (h : Absence lib path k w v) (hok : Meets v a)
      (haway : Away path a) (hstep : step lib v a = some u) :
      Absence lib path (k + pollsFor path a) w u

end Conditions

section Steps

variable {γ : Type} {lib : IngestLibrary} {w w' : Fleet γ} {a : Action γ} {poll : Poll}
  {path : String} {d e : ℕ}

/-- What a poll does to the documents of absent files. -/
theorem reconcileFromConfig_spec (lib : IngestLibrary) (hs : Sound w.world)
    (hclear : Clear poll poll.paths w.catalog) :
    Sound { w.world with db := (w.catalog.reconcileFromConfig lib poll).toMemoryDb } ∧
      ∀ e, poll.snap.present ((w.catalog.reconcileFromConfig lib poll).sourcePath e) = false →
        (w.catalog.reconcileFromConfig lib poll).sourcePath e = w.catalog.sourcePath e ∧
        (Missed poll w.catalog poll.paths e →
          (w.catalog.reconcileFromConfig lib poll).stateOf e =
            (w.catalog.stateOf e).map (nextState poll.config)) ∧
        (¬ Missed poll w.catalog poll.paths e →
          (w.catalog.reconcileFromConfig lib poll).stateOf e = w.catalog.stateOf e) := by
  unfold Poll.paths reconcileFromConfig at *
  by_cases henabled : poll.config.enabled = true
  · rw [if_pos henabled] at hclear ⊢
    rw [if_neg (not_not.mpr henabled)]
    cases hsources : poll.snap.loadSources poll.config with
    | nil =>
      refine ⟨hs, fun e _ => ⟨rfl, fun hmissed => ?_, fun _ => rfl⟩⟩
      obtain ⟨s, hmem, -⟩ := Snapshot.mem_configuredPaths.mp hmissed.1
      cases hmem
    | cons s ss =>
      rw [hsources] at hclear
      exact reconcileSources_spec hs hclear
  · rw [if_neg henabled, if_pos henabled]
    exact ⟨hs, fun e _ => ⟨rfl, fun hmissed => absurd hmissed.1 List.not_mem_nil, fun _ => rfl⟩⟩

/-- The single-file path advances the document of an absent file, or leaves it. -/
theorem reconcileFile_spec (lib : IngestLibrary) (hs : Sound w.world)
    (hclear : ∀ s ∈ sourceOf poll path, Clear poll (poll.snap.configuredPaths [s]) w.catalog) :
    Sound { w.world with db := (w.catalog.reconcileFile lib poll path).toMemoryDb } ∧
      ∀ e, poll.snap.present ((w.catalog.reconcileFile lib poll path).sourcePath e) = false →
        (w.catalog.reconcileFile lib poll path).sourcePath e = w.catalog.sourcePath e ∧
        ((w.catalog.reconcileFile lib poll path).stateOf e = w.catalog.stateOf e ∨
          (w.catalog.reconcileFile lib poll path).stateOf e =
            (w.catalog.stateOf e).map (nextState poll.config)) := by
  have hsame : Sound { w.world with db := w.catalog.toMemoryDb } ∧
      ∀ e, poll.snap.present (w.catalog.sourcePath e) = false →
        w.catalog.sourcePath e = w.catalog.sourcePath e ∧
        (w.catalog.stateOf e = w.catalog.stateOf e ∨
          w.catalog.stateOf e = (w.catalog.stateOf e).map (nextState poll.config)) :=
    ⟨hs, fun e _ => ⟨rfl, Or.inl rfl⟩⟩
  unfold reconcileFile
  split
  · exact hsame
  · rename_i s hsource
    split
    · obtain ⟨c', hok, -, hsound, -, hcommitted⟩ := reconcileConfiguredSources_spec hsame.1
        (poll.snap.nodup_configuredPaths [s]) (hclear s hsource)
      rw [hok]
      exact ⟨hsound, fun e _ => hcommitted e⟩
    · rename_i file hfound
      obtain ⟨hcommitted, -⟩ := ingestMemoryFile_writes lib poll.snap.toDisk w.catalog file
        (poll.config.retention poll.now)
      refine ⟨hcommitted.sound hs, fun e he => ?_⟩
      have hfollows := hcommitted.spares (look_found hfound) he
      exact ⟨hfollows.path, Or.inl hfollows.state⟩
    · exact hsame

/-- An enrichment step leaves every document in its state. -/
theorem enrichment_stateOf {v v' : World γ} {b : Memory.Action γ} (hb : IsEnrichment b)
    (he : Effect v b v') (d : ℕ) :
    (v'.db.documents.get? d).map MemoryDocument.state =
      (v.db.documents.get? d).map MemoryDocument.state := by
  have hupdate : ∀ {p : ℕ → MemoryDocument → Prop} [∀ j x, Decidable (p j x)]
      {f : MemoryDocument → MemoryDocument}, (∀ x, (f x).state = x.state) →
      ((v.db.documents.update p f).get? d).map MemoryDocument.state =
        (v.db.documents.get? d).map MemoryDocument.state := by
    intro p _ f hf
    rw [Table.get?_update, Option.map_map]
    congr 1
    ext x
    by_cases hp : p d x
    · simp [hp, hf]
    · simp [hp]
  cases he with
  | ingest | rename | prune | missing | tombstone => exact absurd hb (by simp [IsEnrichment])
  | claim hids => exact hupdate fun x => rfl
  | fail hop error => exact hupdate fun x => rfl
  | write hop hdb =>
    obtain ⟨rev, x, -, -, ⟨-, -, rfl⟩ | ⟨-, store, -, rfl⟩⟩ := writeMemoryKnowledgeNode_ok hdb
    · rfl
    · exact hupdate fun x => rfl
  | _ => rfl

theorem enrichment_cases {b : Memory.Action γ} (h : step lib w (.enrichment b) = some w') :
    IsEnrichment b ∧ ∃ v, Memory.step w.world b = some v ∧ w' = w.withWorld v := by
  simp only [step] at h
  split at h
  · rename_i hb
    obtain ⟨v, hv, rfl⟩ := Option.map_eq_some_iff.mp h
    exact ⟨hb, v, hv, rfl⟩
  · cases h

/-- What an enrichment step leaves alone. -/
theorem enrichment_frame {b : Memory.Action γ} (h : step lib w (.enrichment b) = some w') :
    w'.catalog.sourcePath = w.catalog.sourcePath ∧
      ∀ d, w'.catalog.stateOf d = w.catalog.stateOf d := by
  obtain ⟨hb, v, hv, rfl⟩ := enrichment_cases h
  exact ⟨rfl, enrichment_stateOf hb (step_effect hv)⟩

theorem sound_step (hs : Sound w.world) (hok : Meets w a) (h : step lib w a = some w') :
    Sound w'.world := by
  cases a with
  | poll poll =>
    cases h
    exact (reconcileFromConfig_spec lib hs hok).1
  | reconcileFile poll path =>
    cases h
    exact (reconcileFile_spec lib hs hok).1
  | enrichment b =>
    obtain ⟨-, v, hv, rfl⟩ := enrichment_cases h
    exact hs.effect hok (step_effect hv)

theorem sound_of_run (h : Run (step lib) Meets init w) : Sound w.world :=
  h.invariant (I := fun w => Sound w.world) (fun _ _ _ hs hok hstep => sound_step hs hok hstep)
    sound_init

/-- How far a document is from its tombstone, in polls. -/
def pollsLeft : DocumentState → ℕ
  | .active => 2
  | .unavailable => 1
  | .tombstoned => 0

theorem pollsLeft_nextState (config : AutoMemory) (s : DocumentState) :
    pollsLeft (nextState config s) ≤ pollsLeft s - 1 := by
  cases s with
  | active =>
    simp only [nextState]
    split
    · exact Nat.zero_le _
    · exact Nat.le_refl _
  | tombstoned => exact Nat.le_refl _
  | unavailable => exact Nat.le_refl _

/-- A step in whose time the file is away brings its documents nearer to the tombstone when it is a
poll that has the file in its configuration, and never farther away. -/
theorem pollsLeft_step (hs : Sound w.world) (hok : Meets w a) (haway : Away path a)
    (h : step lib w a = some w') (hpath : w'.catalog.sourcePath d = path) {s' : DocumentState}
    (hs' : w'.catalog.stateOf d = some s') : w.catalog.sourcePath d = path ∧
      ∃ s, w.catalog.stateOf d = some s ∧ pollsLeft s' ≤ pollsLeft s - pollsFor path a := by
  cases a with
  | poll poll =>
    cases h
    have habsent : poll.snap.present path = false := haway
    obtain ⟨hsource, hmissed, hother⟩ :=
      (reconcileFromConfig_spec lib hs hok).2 d (by rw [hpath]; exact habsent)
    have hbefore : w.catalog.sourcePath d = path := hsource.symm.trans hpath
    refine ⟨hbefore, ?_⟩
    by_cases hconf : poll.Configures path
    · have hm : Missed poll w.catalog poll.paths d := by
        rw [Missed, hbefore]
        exact ⟨(Poll.mem_paths_iff habsent).mpr hconf, habsent⟩
      obtain ⟨s, hstate, rfl⟩ := Option.map_eq_some_iff.mp ((hmissed hm).symm.trans hs')
      refine ⟨s, hstate, ?_⟩
      rw [pollsFor, if_pos hconf]
      exact pollsLeft_nextState poll.config s
    · have hm : ¬ Missed poll w.catalog poll.paths d := by
        rintro ⟨hmem, -⟩
        rw [hbefore, Poll.mem_paths_iff habsent] at hmem
        exact hconf hmem
      refine ⟨s', (hother hm).symm.trans hs', ?_⟩
      rw [pollsFor, if_neg hconf]
      exact Nat.le_refl _
  | reconcileFile poll file =>
    cases h
    have habsent : poll.snap.present path = false := haway
    obtain ⟨hsource, hstate⟩ :=
      (reconcileFile_spec lib hs hok).2 d (by rw [hpath]; exact habsent)
    refine ⟨hsource.symm.trans hpath, ?_⟩
    rcases hstate with hstate | hstate
    · exact ⟨s', hstate.symm.trans hs', Nat.le_refl _⟩
    · obtain ⟨s, hold, rfl⟩ := Option.map_eq_some_iff.mp (hstate.symm.trans hs')
      have hle := pollsLeft_nextState poll.config s
      exact ⟨s, hold, by simp only [pollsFor]; omega⟩
  | enrichment b =>
    obtain ⟨hsource, hstate⟩ := enrichment_frame h
    rw [hsource] at hpath
    rw [hstate] at hs'
    exact ⟨hpath, s', hs', Nat.le_refl _⟩

theorem Absence.spec {k : ℕ} (h : Absence lib path k w w') (hs : Sound w.world) :
    Sound w'.world ∧ ∀ d s, w'.catalog.sourcePath d = path → w'.catalog.stateOf d = some s →
      pollsLeft s ≤ 2 - k := by
  induction h with
  | refl w =>
    refine ⟨hs, fun d s _ _ => ?_⟩
    cases s with
    | active => exact Nat.le_refl _
    | tombstoned => exact Nat.zero_le _
    | unavailable => exact Nat.le_succ 1
  | tail _ hok haway hstep ih =>
    obtain ⟨hsound, hleft⟩ := ih hs
    refine ⟨sound_step hsound hok hstep, fun d s' hpath hs' => ?_⟩
    obtain ⟨hbefore, s, hstate, hle⟩ := pollsLeft_step hsound hok haway hstep hpath hs'
    have hold := hleft d s hbefore hstate
    omega

/-- **Deleted memories.** When a file stays away for two polls of which it is a configured source,
its documents are tombstoned and none of their nodes is left. -/
theorem absent_memory_tombstoned {k : ℕ} (hrun : Run (step lib) Meets init w)
    (habsence : Absence lib path k w w') (hk : 2 ≤ k) {x : MemoryDocument}
    (hx : w'.catalog.documents.get? d = some x) (hpath : w'.catalog.sourcePath d = path) :
    x.state = .tombstoned ∧ ∀ n r, ¬ w'.catalog.store.NodeAt n ⟨x.uuid, r⟩ := by
  obtain ⟨hsound, hleft⟩ := habsence.spec (sound_of_run hrun)
  have hle := hleft d x.state hpath (stateOf_eq_some.mpr ⟨x, hx, rfl⟩)
  have htomb : x.state = .tombstoned := by
    cases hstate : x.state with
    | tombstoned => rfl
    | active =>
      rw [hstate] at hle
      simp only [pollsLeft] at hle
      omega
    | unavailable =>
      rw [hstate] at hle
      simp only [pollsLeft] at hle
      omega
  refine ⟨htomb, fun n r hn => ?_⟩
  exact hsound.singleCurrent.tombstoned d x n hx htomb ⟨r, hn⟩

/-- A poll of which an absent file is no configured source leaves its documents as they are,
whether discovery found the file before or not. -/
theorem unconfigured_memory_stays (hs : Sound w.world) (hclear : Clear poll poll.paths w.catalog)
    (habsent : poll.snap.present path = false) (hconf : ¬ poll.Configures path)
    (hpath : (w.catalog.reconcileFromConfig lib poll).sourcePath d = path) :
    (w.catalog.reconcileFromConfig lib poll).stateOf d = w.catalog.stateOf d := by
  obtain ⟨hsource, -, hother⟩ :=
    (reconcileFromConfig_spec lib hs hclear).2 d (by rw [hpath]; exact habsent)
  refine hother ?_
  rintro ⟨hmem, -⟩
  rw [← hsource, hpath, Poll.mem_paths_iff habsent] at hmem
  exact hconf hmem

end Steps

section Sample

/-- A poll that finds the given files of one memory directory. -/
def samplePoll (config : AutoMemory) (files : List String) : Poll where
  snap := {
    inside := fun _ _ => true
    isFile := fun _ _ => false
    present := fun path => path ∈ files
    resolve := id
    resolve_resolve := fun _ => rfl
    stable := fun _ => true
    read := fun _ => some ⟨"X", 1, 1, "/memory", "repo"⟩
    roots := [⟨true, some "repo", files⟩]
    kept := fun _ => false }
  config := config
  now := 1000
  vecOk := true

/-- The configuration of auto-discovery, with these explicit sources. -/
def sampleConfig (sources : List MemorySource) : AutoMemory :=
  { enabled := true, discoveryEnabled := true, sources := sources }

def sampleSource : MemorySource := ⟨"/memory/a.md", some "repo", none⟩

/-- A poll finds the file, and a worker publishes its node. -/
def published (config : AutoMemory) : List (Action Unit) :=
  [.poll (samplePoll config ["/memory/a.md"]), .enrichment (.claim 2000 "A" 10 none),
    .enrichment (.write 0 () true)]

/-- Two polls of a configured source whose file is away. -/
theorem absence_of_two_polls (poll : Poll) {w w' : Fleet Unit}
    (hconf : poll.Configures "/memory/a.md") (haway : poll.snap.present "/memory/a.md" = false)
    (h : exec (guarded (step sampleLibrary) Meets) w [.poll poll, .poll poll] = some w') :
    Absence sampleLibrary "/memory/a.md" 2 w w' := by
  obtain ⟨v, hv, hrest⟩ := Option.bind_eq_some_iff.mp h
  obtain ⟨u, hu, hend⟩ := Option.bind_eq_some_iff.mp hrest
  cases hend
  have hcount : pollsFor "/memory/a.md" (.poll poll : Action Unit) = 1 := if_pos hconf
  obtain ⟨hfirst, hv⟩ := guarded_eq_some.mp hv
  obtain ⟨hsecond, hu⟩ := guarded_eq_some.mp hu
  have hone := (Absence.refl w).tail hfirst haway hv
  have htwo := hone.tail hsecond haway hu
  rwa [hcount] at htwo

/-- A configured memory is gone after two polls. -/
theorem configured_memory_gone : ∃ w w' : Fleet Unit, Run (step sampleLibrary) Meets init w ∧
    w.catalog.store.NodeAt 1 ⟨⟨"repo", "a.md"⟩, 1⟩ ∧
    Absence sampleLibrary "/memory/a.md" 2 w w' ∧
    ∃ x, w'.catalog.documents.get? 1 = some x ∧ x.state = .tombstoned ∧
      ∀ n r, ¬ w'.catalog.store.NodeAt n ⟨x.uuid, r⟩ := by
  let config := sampleConfig [sampleSource]
  have hrun : ((exec (guarded (step sampleLibrary) Meets) init (published config)).any fun w =>
      decide (w.catalog.store.NodeAt 1 ⟨⟨"repo", "a.md"⟩, 1⟩) &&
        (exec (guarded (step sampleLibrary) Meets) w
          [.poll (samplePoll config []), .poll (samplePoll config [])]).any fun w' =>
            decide (w'.catalog.sourcePath 1 = "/memory/a.md" ∧
              (w'.catalog.documents.get? 1).isSome)) = true := by decide +kernel
  obtain ⟨w, hw, hrest⟩ := (Option.any_eq_true _ _).mp hrun
  obtain ⟨hnode, hrest⟩ := Bool.and_eq_true_iff.mp hrest
  obtain ⟨w', hw', hend⟩ := (Option.any_eq_true _ _).mp hrest
  obtain ⟨hpath, hsome⟩ := of_decide_eq_true hend
  obtain ⟨x, hx⟩ := Option.isSome_iff_exists.mp hsome
  have habsence := absence_of_two_polls (samplePoll config []) (by decide) (by decide) hw'
  exact ⟨w, w', exec_guarded_run hw, of_decide_eq_true hnode, habsence, x, hx,
    absent_memory_tombstoned (exec_guarded_run hw) habsence (Nat.le_refl 2) hx hpath⟩

/-- A memory that discovery found stays active with its node when its file is deleted: neither
polls nor reconciles of the file change anything. -/
theorem discovered_memory_stays : ∃ w : Fleet Unit, Reaches (step sampleLibrary) init w ∧
    w.catalog.sourcePath 1 = "/memory/a.md" ∧ w.catalog.stateOf 1 = some .active ∧
    w.catalog.store.NodeAt 1 ⟨⟨"repo", "a.md"⟩, 1⟩ ∧
    ∀ l : List (Action Unit), (∀ a ∈ l, a = .poll (samplePoll (sampleConfig []) []) ∨
      a = .reconcileFile (samplePoll (sampleConfig []) []) "/memory/a.md") →
        exec (step sampleLibrary) w l = some w := by
  have hrun : ((exec (guarded (step sampleLibrary) fun _ _ => True) init
      (published (sampleConfig []))).any fun w =>
      decide (w.catalog.sourcePath 1 = "/memory/a.md" ∧ w.catalog.stateOf 1 = some .active ∧
        w.catalog.store.NodeAt 1 ⟨⟨"repo", "a.md"⟩, 1⟩)) = true := by decide +kernel
  obtain ⟨w, hreach, hpath, hactive, hnode⟩ := exists_run_of_exec hrun
  refine ⟨w, hreach, hpath, hactive, hnode, fun l => ?_⟩
  induction l with
  | nil => exact fun _ => rfl
  | cons a l ih =>
    intro hl
    have hstep : step sampleLibrary w a = some w := by
      rcases hl a List.mem_cons_self with rfl | rfl
      · rfl
      · rfl
    rw [exec, hstep, Option.bind_some]
    exact ih fun b hb => hl b (List.mem_cons_of_mem a hb)

end Sample

end Hippo.Fleet
