import Hippo.BackupState

/-!
# Shipping one artifact

An artifact waits in the outbox, is placed in the destination, and is shipped once the outbox
file is gone. Every operation of `ship` keeps the state sound; when it fails, the copy that it
placed is removed again, unless the failure is that of the outbox delete.
-/
namespace Hippo.Backup

open Hippo.Interruption

variable {η : Type}

section Stages

/-- No operation has failed, and the run began in a sound state. -/
def clean (s : Bool) (m : Machine Operation (World η)) : Bool := m.failed.isEmpty && s

/-- The budget at the start of the run, and how many operations had failed by some point. -/
structure Budget where
  total : ℕ
  past : ℕ

/-- What holds in the middle of a run: `S` are the ids whose outbox delete may have failed, `B`
is the budget, `s` says whether the run began in a sound state. -/
structure Good (X : Exempt η) (S : String → Prop) (B : Budget) (s : Bool)
    (m : Machine Operation (World η)) : Prop where
  inv : Inv X (clean s m) m.disk
  benign : ∀ id, Operation.removeOutboxFile id ∈ m.failed → S id
  spent : m.failed.length + m.budget = B.total ∧ B.past ≤ m.failed.length

/-- What a killed run leaves. -/
structure Durable (X : Exempt η) (B : Budget) (s : Bool)
    (m : Machine Operation (World η)) : Prop where
  core : Core m.disk
  sound : clean s m = true → Accounted X m.disk ∧ Strong m.disk
  spent : m.failed.length + m.budget = B.total

/-- A point in the middle of a run: `P` holds of the files, given whether the run is clean. -/
structure Stage (X : Exempt η) (S : String → Prop) (B : Budget) (s : Bool)
    (P : Bool → World η → Prop) (m : Machine Operation (World η)) : Prop where
  good : Good X S B s m
  here : P (clean s m) m.disk

variable {X : Exempt η} {S S' : String → Prop} {B : Budget} {s : Bool}
  {P Q : Bool → World η → Prop} {m : Machine Operation (World η)} {operation : Operation}

theorem Good.durable (h : Good X S B s m) : Durable X B s m :=
  ⟨h.inv.core, fun hc => ⟨h.inv.accounted, h.inv.strong hc⟩, h.spent.1⟩

theorem Stage.durable (h : Stage X S B s P m) : Durable X B s m := h.good.durable

theorem Stage.mono (h : Stage X S B s P m) (hS : ∀ id, S id → S' id)
    (hP : ∀ c w, P c w → Q c w) : Stage X S' B s Q m :=
  ⟨⟨h.good.inv, fun id hid => hS id (h.good.benign id hid), h.good.spent⟩, hP _ _ h.here⟩

theorem Stage.imp (h : Stage X S B s P m) (hP : ∀ c w, P c w → Q c w) : Stage X S B s Q m :=
  h.mono (fun _ hid => hid) hP

/-- One more outbox delete may have failed. -/
theorem Stage.allow (h : Stage X S B s P m) (n : String) :
    Stage X (fun id => S id ∨ id = n) B s P m :=
  h.mono (fun _ hid => Or.inl hid) fun _ _ hw => hw

/-- A failed operation changes no file; the run is not clean any more. -/
theorem Stage.fail (h : Stage X S B s P m) (hb : 0 < m.budget)
    (hop : ∀ id, operation = .removeOutboxFile id → S id) (hP : ∀ c w, P c w → Q false w) :
    Stage X S B s Q (m.fail operation) := by
  refine ⟨⟨h.good.inv.weaken, ?_, ?_⟩, hP _ _ h.here⟩
  · intro id hid
    rcases List.mem_cons.mp hid with hsame | hold
    · exact hop id hsame.symm
    · exact h.good.benign id hold
  · have hspent := h.good.spent
    simp only [Machine.fail_failed, Machine.fail_budget, List.length_cons]
    constructor <;> omega

theorem Stage.put {w : World η} (h : Stage X S B s P m) (hinv : Inv X (clean s m) w)
    (hQ : Q (clean s m) w) : Stage X S B s Q (m.put w) :=
  ⟨⟨hinv, h.good.benign, h.good.spent⟩, hQ⟩

/-- A part of a run, from the point `m` on. -/
def Budget.since (B : Budget) (m : Machine Operation (World η)) : Budget :=
  { total := B.total, past := m.failed.length }

theorem Stage.since (h : Stage X S B s P m) :
    Stage X S (B.since m) s (fun c w => w = m.disk ∧ P c w) m :=
  ⟨⟨h.good.inv, h.good.benign, h.good.spent.1, Nat.le_refl _⟩, rfl, h.here⟩

theorem Good.resume {m' : Machine Operation (World η)} (h : Good X S (B.since m) s m')
    (hpast : B.past ≤ m.failed.length) : Good X S B s m' :=
  ⟨h.inv, h.benign, h.spent.1, hpast.trans h.spent.2⟩

/-- A run that is clean later was clean before. -/
theorem clean_of_since {m' : Machine Operation (World η)} (h : Good X S (B.since m) s m')
    (hc : clean s m' = true) : clean s m = true := by
  have hlength : m.failed.length ≤ m'.failed.length := h.spent.2
  simp only [clean, Bool.and_eq_true, List.isEmpty_iff] at hc ⊢
  rw [hc.1] at hlength
  exact ⟨List.eq_nil_of_length_eq_zero (Nat.le_zero.mp hlength), hc.2⟩

end Stages

section Rules

variable {X : Exempt η} {S : String → Prop} {B : Budget} {s : Bool}
  {P R : Bool → World η → Prop} {α : Type} {operation : Operation}
  {E : BackupError → Machine Operation (World η) → Prop}

/-- An operation that changes the files by `f`. -/
theorem update_spec {f : World η → World η} {Q : Unit → Bool → World η → Prop}
    (hfail : ∀ m, Stage X S B s P m → 0 < m.budget → E (.io operation) (m.fail operation))
    (hgo : ∀ c w, Inv X c w → P c w → Inv X c (f w) ∧ Q () c (f w)) :
    Spec (Stage X S B s P) (update operation f) (fun a => Stage X S B s (Q a)) E
      (Durable X B s) := by
  apply Spec.write (fun m hm => hm.durable) hfail
  intro m hm
  obtain ⟨hinv, hq⟩ := hgo _ _ hm.good.inv hm.here
  exact hm.put hinv hq

theorem touch_spec
    (hfail : ∀ m, Stage X S B s P m → 0 < m.budget → E (.io operation) (m.fail operation)) :
    Spec (Stage X S B s P) (touch operation) (fun _ => Stage X S B s P) E (Durable X B s) :=
  update_spec hfail fun _ _ hinv hp => ⟨hinv, hp⟩

theorem read_spec {find : World η → Option α} {Q : α → Bool → World η → Prop}
    (hfail : ∀ m, Stage X S B s P m → 0 < m.budget → E (.io operation) (m.fail operation))
    (hfound : ∀ c w a, P c w → find w = some a → Q a c w)
    (hmissing : ∀ m, Stage X S B s P m → find m.disk = none → E (.io operation) m) :
    Spec (Stage X S B s P) (read operation find) (fun a => Stage X S B s (Q a)) E
      (Durable X B s) := by
  apply Spec.fetch (fun m hm => hm.durable) hfail
  · intro m a hm hread
    cases hfind : find m.disk with
    | none => simp [hfind] at hread
    | some a' =>
      obtain rfl : a' = a := by simpa [hfind] using hread
      exact ⟨hm.good, hfound _ _ _ hm.here hfind⟩
  · intro m e hm hread
    cases hfind : find m.disk with
    | none =>
      obtain rfl : BackupError.io operation = e := by simpa [hfind] using hread
      exact hmissing m hm hfind
    | some a => simp [hfind] at hread

theorem look_spec {f : World η → α} {Q : α → Bool → World η → Prop}
    (h : ∀ c w, P c w → Q (f w) c w) :
    Spec (Stage X S B s P) (Proc.look f : BackupM η α) (fun a => Stage X S B s (Q a)) E
      (Durable X B s) :=
  Spec.look fun _ hm => ⟨hm.good, h _ _ hm.here⟩

theorem modify_spec {f : World η → World η} {Q : Unit → Bool → World η → Prop}
    (h : ∀ c w, Inv X c w → P c w → Inv X c (f w) ∧ Q () c (f w)) :
    Spec (Stage X S B s P) (Proc.modify f : BackupM η Unit) (fun a => Stage X S B s (Q a)) E
      (Durable X B s) := by
  apply Spec.modify
  intro m hm
  obtain ⟨hinv, hq⟩ := h _ _ hm.good.inv hm.here
  exact hm.put hinv hq

/-- Errors of the inner process go on at a point `R`. -/
theorem attempt_spec {c : BackupM η α} {Q : α → Bool → World η → Prop}
    (h : Spec (Stage X S B s P) c (fun a => Stage X S B s (Q a)) (fun _ => Stage X S B s R)
      (Durable X B s)) :
    Spec (Stage X S B s P) (c.attempt : BackupM η (Except BackupError α))
      (fun result m => match result with
        | .ok a => Stage X S B s (Q a) m
        | .error _ => Stage X S B s R m) E (Durable X B s) :=
  Spec.attempt h

/-- Best effort: the process goes on at one point. -/
theorem ignore_spec {c : BackupM η α}
    (h : Spec (Stage X S B s P) c (fun _ => Stage X S B s R) (fun _ => Stage X S B s R)
      (Durable X B s)) :
    Spec (Stage X S B s P) c.ignore (fun _ => Stage X S B s R) E (Durable X B s) :=
  Spec.ignore h

end Rules

section Ship

variable {X : Exempt η} {S : String → Prop} {B : Budget} {s : Bool}
  {entries : List (ManifestEntry η)} {e : ManifestEntry η} {w₀ : World η}

/-- Shipping the artifact `id` changes its files only. -/
structure Frame (id : String) (w₀ w : World η) : Prop where
  available : w.available = w₀.available
  dest : ∀ k, k ≠ id → w.dest.get? k = w₀.dest.get? k
  artifacts : ∀ k, k ≠ id → w.artifacts.get? k = w₀.artifacts.get? k
  sidecars : w.sidecars = w₀.sidecars
  manifest : w.manifest = w₀.manifest
  memory : w.memory = w₀.memory
  pruned : w.pruned = w₀.pruned
  done : w.done = w₀.done

theorem Frame.refl (id : String) (w : World η) : Frame id w w :=
  ⟨rfl, fun _ _ => rfl, fun _ _ => rfl, rfl, rfl, rfl, rfl, rfl⟩

/-- The artifact is in the outbox, its sidecar beside it. -/
structure Waiting (e : ManifestEntry η) (entries : List (ManifestEntry η)) (w₀ : World η)
    (c : Bool) (w : World η) : Prop where
  frame : Frame e.id w₀ w
  loaded : Loaded c w entries
  available : w.available = true
  sidecar : w.sidecars.get? e.id = some e
  valid : validEntry e = true
  artifact : w.artifacts.get? e.id = some e.ciphertextSha256
  dest : w.dest.get? e.id = w₀.dest.get? e.id

/-- Its copy was renamed into place. -/
structure Placed (e : ManifestEntry η) (entries : List (ManifestEntry η)) (w₀ : World η)
    (c : Bool) (w : World η) : Prop where
  frame : Frame e.id w₀ w
  loaded : Loaded c w entries
  sidecar : w.sidecars.get? e.id = some e
  valid : validEntry e = true
  artifact : w.artifacts.get? e.id = some e.ciphertextSha256
  before : w₀.dest.get? e.id = none
  dest : w.dest.get? e.id = some e.ciphertextSha256
  unlisted : ¬ w.Listed e.id
  unloaded : ∀ f ∈ entries, f.id ≠ e.id

/-- It left the outbox. -/
structure Shipped (e : ManifestEntry η) (entries : List (ManifestEntry η)) (w₀ : World η)
    (c : Bool) (w : World η) : Prop where
  frame : Frame e.id w₀ w
  loaded : Loaded c w entries
  sidecar : w.sidecars.get? e.id = some e
  valid : validEntry e = true
  gone : w.artifacts.get? e.id = none
  dest : w.dest.get? e.id = some e.ciphertextSha256

/-- What a failed `ship` leaves: the artifact in the outbox. Without a failed operation the
destination has another file of this name. A new copy is in the destination only when the
outbox delete failed, or when two operations failed. -/
structure ShipFailed (e : ManifestEntry η) (entries : List (ManifestEntry η)) (w₀ : World η)
    (X : Exempt η) (S : String → Prop) (B : Budget) (s : Bool)
    (m : Machine Operation (World η)) : Prop where
  good : Good X (fun id => S id ∨ id = e.id) B s m
  frame : Frame e.id w₀ m.disk
  loaded : Loaded (clean s m) m.disk entries
  sidecar : m.disk.sidecars.get? e.id = some e
  artifact : m.disk.artifacts.get? e.id = some e.ciphertextSha256
  collision : clean s m = true →
    ∃ sum, m.disk.dest.get? e.id = some sum ∧ sum ≠ e.ciphertextSha256
  removed : Operation.removeOutboxFile e.id ∉ m.failed → m.failed.length ≤ 1 →
    m.disk.dest.get? e.id = w₀.dest.get? e.id
  leaked : ¬ S e.id → Operation.removeOutboxFile e.id ∈ m.failed →
    m.disk.dest.get? e.id = some e.ciphertextSha256
  placed : m.disk.dest.get? e.id = w₀.dest.get? e.id ∨
    m.disk.dest.get? e.id = some e.ciphertextSha256

theorem Waiting.weaken {c : Bool} {w : World η} (h : Waiting e entries w₀ c w) :
    Waiting e entries w₀ false w :=
  { h with loaded := h.loaded.weaken }

theorem Placed.weaken {c : Bool} {w : World η} (h : Placed e entries w₀ c w) :
    Placed e entries w₀ false w :=
  { h with loaded := h.loaded.weaken }

/-- An operation failed while the artifact waits. -/
theorem Waiting.failed {m : Machine Operation (World η)}
    (h : Stage X S B s (Waiting e entries w₀) m) (hfailed : clean s m = false) :
    ShipFailed e entries w₀ X S B s m where
  good := (h.allow e.id).good
  frame := h.here.frame
  loaded := h.here.loaded
  sidecar := h.here.sidecar
  artifact := h.here.artifact
  collision := by simp [hfailed]
  removed := fun _ _ => h.here.dest
  leaked := fun hS hfail => absurd (h.good.benign e.id hfail) hS
  placed := Or.inl h.here.dest

theorem Waiting.fail {m : Machine Operation (World η)} {operation : Operation}
    (h : Stage X S B s (Waiting e entries w₀) m) (hb : 0 < m.budget)
    (hop : ∀ id, operation ≠ .removeOutboxFile id) :
    ShipFailed e entries w₀ X S B s (m.fail operation) :=
  Waiting.failed (h.fail hb (fun id hid => absurd hid (hop id)) fun _ _ hw => hw.weaken) rfl

theorem Waiting.setPartials {c : Bool} {w : World η} (h : Waiting e entries w₀ c w)
    (partials : Table String (Option η)) :
    Waiting e entries w₀ c { w with partials := partials } :=
  { h with
    frame := { h.frame with }
    loaded := { h.loaded with } }

/-- The artifact still waits, after an operation failed. -/
def Stalled (e : ManifestEntry η) (entries : List (ManifestEntry η)) (w₀ : World η) (c : Bool)
    (w : World η) : Prop :=
  Waiting e entries w₀ c w ∧ c = false

theorem Waiting.stall {m : Machine Operation (World η)} {operation : Operation}
    (h : Stage X S B s (Waiting e entries w₀) m) (hb : 0 < m.budget)
    (hop : ∀ id, operation ≠ .removeOutboxFile id) :
    Stage X S B s (Stalled e entries w₀) (m.fail operation) :=
  h.fail hb (fun id hid => absurd hid (hop id)) fun _ _ hw => ⟨hw.weaken, rfl⟩

/-- A `.partial` is created unless it is there. -/
theorem createPartial_spec (id : String) (there : Prop) :
    Spec (Stage X S B s fun c w => Waiting e entries w₀ c w ∧
        ((w.partials.get? id).isSome → there))
      (createPartial id)
      (fun _ => Stage X S B s (Waiting e entries w₀))
      (fun error => Stage X S B s fun c w => Waiting e entries w₀ c w ∧
        (c = false ∨ (error = .alreadyExists ∧ there)))
      (Durable X B s) := by
  apply Spec.op (fun m hm => hm.durable)
  · intro m hm hb
    apply hm.fail hb (by simp)
    exact fun c w hw => ⟨hw.1.weaken, Or.inl rfl⟩
  · intro m hm
    by_cases hthere : (m.disk.partials.get? id).isSome
    · simp only [if_pos hthere]
      exact hm.put hm.good.inv ⟨hm.here.1, Or.inr ⟨trivial, hm.here.2 hthere⟩⟩
    · simp only [if_neg hthere]
      exact hm.put (hm.good.inv.same rfl rfl rfl rfl rfl rfl) (hm.here.1.setPartials _)

theorem removePartial_spec (id : String) :
    Spec (Stage X S B s (Waiting e entries w₀)) (removePartial id)
      (fun _ => Stage X S B s fun c w => Waiting e entries w₀ c w ∧ w.partials.get? id = none)
      (fun _ => Stage X S B s (Stalled e entries w₀)) (Durable X B s) := by
  apply update_spec (Q := fun _ c w => Waiting e entries w₀ c w ∧ w.partials.get? id = none)
  · exact fun m hm hb => Waiting.stall hm hb (by simp)
  · exact fun c w hinv hw => ⟨hinv.same rfl rfl rfl rfl rfl rfl, hw.setPartials _, by simp⟩

theorem openPartial_spec (id : String) :
    Spec (Stage X S B s (Waiting e entries w₀)) (openPartial id)
      (fun _ => Stage X S B s (Waiting e entries w₀))
      (fun _ => Stage X S B s (Stalled e entries w₀)) (Durable X B s) := by
  apply Spec.attempt_bind ((createPartial_spec id True).pre fun m hm =>
    hm.imp fun c w hw => ⟨hw, fun _ => trivial⟩)
  · exact fun _ => Spec.pure fun m hm => hm
  · intro error
    apply Spec.ite
    · intro _
      -- once it is removed it is not there
      apply Spec.bind ((removePartial_spec id).pre fun m hm => hm.imp fun c w hw => hw.1)
      intro _
      apply Spec.mono (createPartial_spec id False)
      · exact fun m hm => hm.imp fun c w hw => ⟨hw.1, by simp [hw.2]⟩
      · exact fun _ m hm => hm
      · exact fun _ m hm => hm.imp fun c w hw => ⟨hw.1, by simpa using hw.2⟩
      · exact fun m hm => hm
    · intro hother
      apply Spec.throw
      intro m hm
      apply hm.imp
      rintro c w ⟨hw, hc | ⟨hthere, -⟩⟩
      · exact ⟨hw, hc⟩
      · exact absurd hthere hother

/-- The copy has the content of the outbox file. -/
theorem copyPartial_spec :
    Spec (Stage X S B s (Waiting e entries w₀)) (copyPartial e.id)
      (fun staged => Stage X S B s fun c w => Waiting e entries w₀ c w ∧
        staged = e.ciphertextSha256 ∧ w.partials.get? e.id = some (some staged))
      (fun _ => Stage X S B s (Stalled e entries w₀)) (Durable X B s) := by
  apply Spec.bind
  · apply read_spec
      (Q := fun content c w => Waiting e entries w₀ c w ∧ content = e.ciphertextSha256)
    · exact fun m hm hb => Waiting.stall hm hb (by simp)
    · intro c w content hw hread
      exact ⟨hw, Option.some.inj (hread.symm.trans hw.artifact)⟩
    · intro m hm hread
      simp [hm.here.artifact] at hread
  intro content
  let Copied : Bool → World η → Prop := fun c w => Waiting e entries w₀ c w ∧
    content = e.ciphertextSha256 ∧ w.partials.get? e.id = some (some content)
  have hstall : ∀ m, Stage X S B s Copied m → Stage X S B s (Waiting e entries w₀) m :=
    fun m hm => hm.imp fun _ _ hw => hw.1
  apply Spec.bind
  · apply update_spec (Q := fun _ => Copied)
    · exact fun m hm hb => Waiting.stall (hm.imp fun _ _ hw => hw.1) hb (by simp)
    · intro c w hinv hw
      exact ⟨hinv.same rfl rfl rfl rfl rfl rfl, hw.1.setPartials _, hw.2, by simp⟩
  intro _
  apply Spec.bind (Q := fun _ => Stage X S B s Copied)
  · apply touch_spec
    exact fun m hm hb => Waiting.stall (hstall m hm) hb (by simp)
  intro _
  apply read_spec
  · exact fun m hm hb => Waiting.stall (hstall m hm) hb (by simp)
  · intro c w staged hw hread
    obtain rfl : content = staged := by simpa [hw.2.2] using hread
    exact hw
  · intro m hm hread
    simp [hm.here.2.2] at hread

/-- A failure of the copy is an error: the destination does not vanish during a run. -/
theorem copyFailed_spec (error : BackupError) :
    Spec (Stage X S B s (Stalled e entries w₀)) (copyFailed error : BackupM η ShipOutcome)
      (fun outcome m => outcome = .shipped ∧ Stage X S B s (Shipped e entries w₀) m)
      (fun _ => ShipFailed e entries w₀ X S B s) (Durable X B s) := by
  apply Spec.bind
      (Q := fun gone m => gone = false ∧ Stage X S B s (Stalled e entries w₀) m)
  · apply Spec.look
    intro m hm
    refine ⟨?_, hm⟩
    simp [hm.here.1.available]
  intro gone
  apply Spec.of_fact
  rintro rfl
  exact Spec.throw fun m hm => Waiting.failed (hm.imp fun _ _ hw => hw.1) hm.here.2

/-- The copy is ready to be renamed. -/
def Staged (e : ManifestEntry η) (entries : List (ManifestEntry η)) (w₀ : World η) (c : Bool)
    (w : World η) : Prop :=
  Waiting e entries w₀ c w ∧ w.partials.get? e.id = some (some e.ciphertextSha256)

theorem Stalled.dropPartial {E : BackupError → Machine Operation (World η) → Prop} (id : String) :
    Spec (Stage X S B s (Stalled e entries w₀)) (removePartial id).ignore
      (fun _ => Stage X S B s (Stalled e entries w₀)) E (Durable X B s) := by
  apply ignore_spec
  apply update_spec (Q := fun _ => Stalled e entries w₀)
  · exact fun m hm hb => Waiting.stall (hm.imp fun _ _ hw => hw.1) hb (by simp)
  · exact fun c w hinv hw =>
      ⟨hinv.same rfl rfl rfl rfl rfl rfl, hw.1.setPartials _, hw.2⟩

/-- The rename puts the copy into place. -/
theorem Staged.rename {c : Bool} {w : World η} (hnew : w₀.dest.get? e.id = none)
    (hinv : Inv X c w) (h : Staged e entries w₀ c w) :
    Inv X c (renameFile e.id w) ∧ Placed e entries w₀ c (renameFile e.id w) := by
  obtain ⟨hw, hpartial⟩ := h
  have hfile : renameFile e.id w =
      { w with
        dest := w.dest.put e.id e.ciphertextSha256
        partials := w.partials.erase e.id } := by
    simp only [renameFile, hpartial, Option.bind_some]
  have hdest : w.dest.get? e.id = none := hw.dest.trans hnew
  rw [hfile]
  refine ⟨(hinv.place hw.sidecar hdest).same rfl rfl rfl rfl rfl rfl, ?_⟩
  have hmemory : ∀ f ∈ entries, f.id ≠ e.id := by
    intro f hf hid
    have hfound := hw.loaded.listed f hf
    simp [hid, hdest] at hfound
  exact
    { frame :=
        { hw.frame with
          dest := fun k hk => by
            simp only [Table.get?_put, if_neg hk]
            exact hw.frame.dest k hk }
      loaded :=
        { hw.loaded with
          listed := fun f hf => by
            simp only [Table.get?_put, if_neg (hmemory f hf)]
            exact hw.loaded.listed f hf }
      sidecar := hw.sidecar
      valid := hw.valid
      artifact := hw.artifact
      before := hnew
      dest := by simp
      unlisted := hinv.core.not_listed hdest
      unloaded := hmemory }

theorem renameNoreplace_spec [DecidableEq η] (env : RunEnv η) (hnew : w₀.dest.get? e.id = none) :
    Spec (Stage X S B s (Staged e entries w₀)) (renameNoreplace env e.id)
      (fun _ => Stage X S B s (Placed e entries w₀))
      (fun error m => error ≠ .alreadyExists ∧
        Stage X S B s (fun c w => Staged e entries w₀ c w ∧ (c = false ∨ error = .unsupported)) m)
      (Durable X B s) := by
  apply Spec.op (fun m hm => hm.durable)
  · intro m hm hb
    refine ⟨by simp, ?_⟩
    exact hm.fail hb (by simp) fun c w hw => ⟨⟨hw.1.weaken, hw.2⟩, Or.inl rfl⟩
  · intro m hm
    by_cases hexclusive : env.exclusiveRename
    · have hnone : m.disk.dest.get? e.id = none := hm.here.1.dest.trans hnew
      simp only [hexclusive, Bool.not_true, Bool.false_eq_true, if_false, hnone,
        Option.isSome_none]
      obtain ⟨hinv, hplaced⟩ := hm.here.rename hnew hm.good.inv
      exact hm.put hinv hplaced
    · simp only [hexclusive, Bool.not_false, if_true]
      exact ⟨by simp, hm.put hm.good.inv ⟨hm.here, Or.inr trivial⟩⟩

/-- The target is not there, so the copy is placed or the rename failed. -/
theorem placePartial_spec [DecidableEq η] (env : RunEnv η) (hnew : w₀.dest.get? e.id = none) :
    Spec (Stage X S B s (Staged e entries w₀)) (placePartial env e.id)
      (fun placement m => placement = .placed ∧ Stage X S B s (Placed e entries w₀) m)
      (fun _ => Stage X S B s (Stalled e entries w₀)) (Durable X B s) := by
  apply Spec.attempt_bind (renameNoreplace_spec env hnew)
  · exact fun _ => Spec.pure fun m hm => ⟨rfl, hm⟩
  · intro error
    apply Spec.ite
    · rintro rfl
      exact fun fates m hm => absurd rfl hm.1
    intro hexists
    apply Spec.ite
    · intro hunsupported
      apply Spec.bind
          (Q := fun there m => there = false ∧ Stage X S B s (Staged e entries w₀) m)
      · apply Spec.look
        intro m hm
        have hnone : m.disk.dest.get? e.id = none := hm.2.here.1.1.dest.trans hnew
        exact ⟨by simp [hnone], hm.2.imp fun c w hw => hw.1⟩
      intro there
      apply Spec.of_fact
      rintro rfl
      apply Spec.bind
      · apply attempt_spec
        apply update_spec (Q := fun _ => Placed e entries w₀)
        · exact fun m hm hb => Waiting.stall (hm.imp fun _ _ hw => hw.1) hb (by simp)
        · exact fun c w hinv hw => hw.rename hnew hinv
      intro renamed
      cases renamed with
      | ok _ => exact Spec.pure fun m hm => ⟨rfl, hm⟩
      | error error =>
        apply Spec.bind (Stalled.dropPartial e.id)
        exact fun _ => Spec.throw fun m hm => hm
    · intro hother
      apply Spec.bind ((Stalled.dropPartial e.id).pre _)
      · exact fun _ => Spec.throw fun m hm => hm
      · rintro m ⟨-, hm⟩
        apply hm.imp
        rintro c w ⟨hw, hc | hunsupported⟩
        · exact ⟨hw.1, hc⟩
        · exact absurd hunsupported hother

variable [DecidableEq η]

/-- The target is there: the outbox delete is finished when it is the same. -/
theorem settleExisting_spec (hexists : (w₀.dest.get? e.id).isSome) :
    Spec (Stage X S B s (Waiting e entries w₀)) (settleExisting e.id e.ciphertextSha256)
      (fun outcome m => outcome = .shipped ∧ Stage X S B s (Shipped e entries w₀) m)
      (fun _ => ShipFailed e entries w₀ X S B s) (Durable X B s) := by
  apply Spec.bind
  · apply read_spec
      (Q := fun actual c w => Waiting e entries w₀ c w ∧ w.dest.get? e.id = some actual)
    · exact fun m hm hb => Waiting.fail hm hb (by simp)
    · exact fun c w actual hw hfound => ⟨hw, hfound⟩
    · intro m hm hmissing
      rw [hm.here.dest] at hmissing
      simp [hmissing] at hexists
  intro actual
  apply Spec.bind
  · apply Spec.ite
      (Q := fun _ => Stage X S B s fun c w => Waiting e entries w₀ c w ∧
        w.dest.get? e.id = some e.ciphertextSha256)
    · intro hsame
      apply Spec.pure
      intro m hm
      exact hm.imp fun c w hw => ⟨hw.1, by rw [hw.2, hsame]⟩
    · intro hdifferent
      apply Spec.throw
      intro m hm
      have hwaiting : Stage X S B s (Waiting e entries w₀) m := hm.imp fun _ _ hw => hw.1
      exact
        { good := (hwaiting.allow e.id).good
          frame := hm.here.1.frame
          loaded := hm.here.1.loaded
          sidecar := hm.here.1.sidecar
          artifact := hm.here.1.artifact
          collision := fun _ => ⟨actual, hm.here.2, hdifferent⟩
          removed := fun _ _ => hm.here.1.dest
          leaked := fun hS hfail => absurd (hm.good.benign e.id hfail) hS
          placed := Or.inl hm.here.1.dest }
  intro _
  apply Spec.bind
  · apply update_spec (Q := fun _ => Shipped e entries w₀)
    · intro m hm hb
      have hfailed : Stage X (fun id => S id ∨ id = e.id) B s (fun c w => Waiting e entries w₀ c w ∧
          w.dest.get? e.id = some e.ciphertextSha256) (m.fail (.removeOutboxFile e.id)) := by
        apply (hm.allow e.id).fail hb
        · intro id hid
          injection hid with hid
          exact Or.inr hid.symm
        · exact fun c w hw => ⟨hw.1.weaken, hw.2⟩
      exact
        { good := hfailed.good
          frame := hm.here.1.frame
          loaded := hm.here.1.loaded.weaken
          sidecar := hm.here.1.sidecar
          artifact := hm.here.1.artifact
          collision := fun hc => by simp [clean] at hc
          removed := fun hnot _ => absurd (by simp) hnot
          leaked := fun _ _ => hm.here.2
          placed := Or.inr hm.here.2 }
    · rintro c w hinv ⟨hw, hdest⟩
      refine ⟨hinv.removeOutbox hw.sidecar hw.valid hdest, ?_⟩
      exact
        { frame :=
            { hw.frame with
              artifacts := fun k hk => by
                simp only [Table.get?_erase, if_neg hk]
                exact hw.frame.artifacts k hk }
          loaded := ⟨hw.loaded.memory, hw.loaded.listed, hw.loaded.nodup, hw.loaded.covers,
            hw.loaded.exact⟩
          sidecar := hw.sidecar
          valid := hw.valid
          gone := by simp
          dest := hdest }
  intro _
  exact Spec.pure fun m hm => ⟨rfl, hm⟩

/-- A new copy that cannot be read back is removed again. -/
theorem removeFinal_spec :
    Spec (fun m => Stage X S B s (Placed e entries w₀) m ∧ clean s m = false ∧
        1 ≤ m.failed.length)
      (update (.removeFinal e.id) fun w => { w with dest := w.dest.erase e.id } :
        BackupM η Unit).ignore
      (fun _ => ShipFailed e entries w₀ X S B s) (fun _ => ShipFailed e entries w₀ X S B s)
      (Durable X B s) := by
  apply Spec.ignore
  apply Spec.write (fun m hm => hm.1.durable)
  · rintro m ⟨hm, -, hlength⟩ hb
    have hfailed : Stage X S B s (Placed e entries w₀) (m.fail (.removeFinal e.id)) :=
      hm.fail hb (by simp) fun _ _ hw => hw.weaken
    exact
      { good := (hfailed.allow e.id).good
        frame := hm.here.frame
        loaded := hfailed.here.loaded
        sidecar := hm.here.sidecar
        artifact := hm.here.artifact
        collision := fun hc => by simp [clean] at hc
        removed := fun _ htwo => by
          simp only [Machine.fail_failed, List.length_cons] at htwo
          omega
        leaked := fun hS hfail => absurd (hfailed.good.benign e.id hfail) hS
        placed := Or.inr hm.here.dest }
  · rintro m ⟨hm, hclean, -⟩
    have hinv : Inv X (clean s m) { m.disk with dest := m.disk.dest.erase e.id } := by
      apply hm.good.inv.removeDest hm.here.unlisted
      intro e' hsidecar
      obtain rfl : e = e' := Option.some.inj (hm.here.sidecar.symm.trans hsidecar)
      exact Or.inl hm.here.artifact
    have hput : Stage X (fun id => S id ∨ id = e.id) B s
        (fun c w => Frame e.id w₀ w ∧ Loaded c w entries)
        (m.put { m.disk with dest := m.disk.dest.erase e.id }) := by
      apply (hm.allow e.id).put hinv
      constructor
      · exact
          { hm.here.frame with
            dest := fun k hk => by
              simp only [Table.get?_erase, if_neg hk]
              exact hm.here.frame.dest k hk }
      · exact
          { hm.here.loaded with
            listed := fun f hf => by
              simp only [Table.get?_erase, if_neg (hm.here.unloaded f hf)]
              exact hm.here.loaded.listed f hf }
    exact
      { good := hput.good
        frame := hput.here.1
        loaded := hput.here.2
        sidecar := hm.here.sidecar
        artifact := hm.here.artifact
        collision := fun hc => by
          have hfalse : clean s m = true := hc
          simp [hclean] at hfalse
        removed := fun _ _ => by simp [hm.here.before]
        leaked := fun hS hfail => absurd (hm.good.benign e.id hfail) hS
        placed := Or.inl (by simp [hm.here.before]) }

/-- The copy is read back and the outbox file deleted. -/
theorem finishShip_spec :
    Spec (Stage X S B s (Placed e entries w₀)) (finishShip e.id e.ciphertextSha256)
      (fun outcome m => outcome = .shipped ∧ Stage X S B s (Shipped e entries w₀) m)
      (fun _ => ShipFailed e entries w₀ X S B s) (Durable X B s) := by
  apply Spec.bind
  · apply Spec.attempt
      (R := fun result m => match result with
        | .ok actual => actual = e.ciphertextSha256 ∧ Stage X S B s (Placed e entries w₀) m
        | .error _ => Stage X S B s (Placed e entries w₀) m ∧ clean s m = false ∧
            1 ≤ m.failed.length)
    apply Spec.fetch (fun m hm => hm.durable)
    · intro m hm hb
      refine ⟨hm.fail hb (by simp) fun _ _ hw => hw.weaken, rfl, ?_⟩
      simp
    · intro m actual hm hread
      refine ⟨?_, hm⟩
      simpa [hm.here.dest, eq_comm] using hread
    · intro m error hm hread
      simp [hm.here.dest] at hread
  intro result
  cases result with
  | error error =>
    apply Spec.bind removeFinal_spec
    exact fun _ => Spec.throw fun m hm => hm
  | ok actual =>
    apply Spec.of_fact
    rintro rfl
    show Spec _ (if _ then _ else _) _ _ _
    rw [if_pos rfl]
    apply Spec.bind
    · apply update_spec (Q := fun _ => Shipped e entries w₀)
      · intro m hm hb
        have hfailed : Stage X (fun id => S id ∨ id = e.id) B s (Placed e entries w₀)
            (m.fail (.removeOutboxFile e.id)) := by
          apply (hm.allow e.id).fail hb
          · intro id hid
            injection hid with hid
            exact Or.inr hid.symm
          · exact fun _ _ hw => hw.weaken
        exact
          { good := hfailed.good
            frame := hm.here.frame
            loaded := hfailed.here.loaded
            sidecar := hm.here.sidecar
            artifact := hm.here.artifact
            collision := fun hc => by simp [clean] at hc
            removed := fun hnot _ => absurd (by simp) hnot
            leaked := fun _ _ => hm.here.dest
            placed := Or.inr hm.here.dest }
      · intro c w hinv hw
        refine ⟨hinv.removeOutbox hw.sidecar hw.valid hw.dest, ?_⟩
        exact
          { frame :=
              { hw.frame with
                artifacts := fun k hk => by
                  simp only [Table.get?_erase, if_neg hk]
                  exact hw.frame.artifacts k hk }
            loaded := { hw.loaded with }
            sidecar := hw.sidecar
            valid := hw.valid
            gone := by simp
            dest := hw.dest }
    intro _
    exact Spec.pure fun m hm => ⟨rfl, hm⟩

theorem shipCopy_spec (env : RunEnv η) (hnew : w₀.dest.get? e.id = none) :
    Spec (Stage X S B s (Waiting e entries w₀)) (shipCopy env e.id e.ciphertextSha256)
      (fun outcome m => outcome = .shipped ∧ Stage X S B s (Shipped e entries w₀) m)
      (fun _ => ShipFailed e entries w₀ X S B s) (Durable X B s) := by
  apply Spec.bind (attempt_spec (openPartial_spec e.id))
  intro opened
  cases opened with
  | error error => exact copyFailed_spec error
  | ok _ =>
    apply Spec.bind (attempt_spec copyPartial_spec)
    intro copied
    cases copied with
    | error error =>
      apply Spec.bind (Stalled.dropPartial e.id)
      exact fun _ => copyFailed_spec error
    | ok staged =>
      apply Spec.ite
      · intro hsame
        apply Spec.bind
        · apply Spec.mono (placePartial_spec env hnew)
          · exact fun m hm => hm.imp fun c w hw => ⟨hw.1, by rw [← hsame]; exact hw.2.2⟩
          · exact fun _ m hm => hm
          · exact fun _ m hm => Waiting.failed (hm.imp fun _ _ hw => hw.1) hm.here.2
          · exact fun m hm => hm
        · intro placement
          apply Spec.of_fact
          rintro rfl
          exact finishShip_spec
      · intro hdifferent
        exact fun fates m hm => absurd hm.here.2.1 hdifferent

/-- A shipped artifact is in the destination and has left the outbox. -/
theorem ship_spec (env : RunEnv η) :
    Spec (Stage X S B s (Waiting e entries w₀)) (ship env e.id e.ciphertextSha256)
      (fun outcome m => outcome = .shipped ∧ Stage X S B s (Shipped e entries w₀) m)
      (fun _ => ShipFailed e entries w₀ X S B s) (Durable X B s) := by
  apply Spec.bind (Q := fun _ => Stage X S B s (Waiting e entries w₀))
  · apply touch_spec
    exact fun m hm hb => Waiting.fail hm hb (by simp)
  intro _
  apply Spec.bind
      (Q := fun available m => available = true ∧ Stage X S B s (Waiting e entries w₀) m)
  · exact Spec.look fun m hm => ⟨hm.here.available, hm⟩
  intro available
  apply Spec.of_fact
  rintro rfl
  rw [if_pos rfl]
  apply Spec.bind
      (Q := fun there m => there = (w₀.dest.get? e.id).isSome ∧
        Stage X S B s (Waiting e entries w₀) m)
  · exact Spec.look fun m hm => ⟨by rw [hm.here.dest], hm⟩
  intro there
  apply Spec.of_fact
  rintro rfl
  apply Spec.ite
  · exact settleExisting_spec
  · intro hnone
    exact shipCopy_spec env (by simpa using hnone)

end Ship

end Hippo.Backup
