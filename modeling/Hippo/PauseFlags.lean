import Hippo.PauseHandshake
import Mathlib.Data.List.Perm.Basic
import Mathlib.Tactic.Common

/-!
# The flags of the pause handshake

The four flags agree with the points at which the tasks wait, so the reply to a pause is exact. A
gather that raises leaves children running under no flag: these are counted apart, and there are
none as long as chunks can be marked failed.
-/
namespace Hippo.PauseHandshake

open Transition

theorem cons_replaceAt_perm {α : Type} {ops : List α} {op : α} {k : ℕ} (new : List α)
    (h : ops[k]? = some op) : (op :: replaceAt ops k new).Perm (ops ++ new) := by
  obtain ⟨hk, rfl⟩ := List.getElem?_eq_some_iff.mp h
  have := (List.getElem_cons_eraseIdx_perm hk).append_right new
  simpa [replaceAt] using this

section Flags

/-- Requests inside their handler. -/
def handlers (b : Brain) : ℕ := b.requests.count .handler

def EnrichmentAt.active : EnrichmentAt → Bool
  | .preflight | .gather _ _ => true
  | _ => false

def ReaperAt.active : ReaperAt → Bool
  | .embedding _ => true
  | .sleep => false

def ClassificationAt.active : ClassificationAt → Bool
  | .batch => true
  | _ => false

/-- Tasks that may have inference in flight, strays apart. -/
def tracked (b : Brain) : ℕ :=
  handlers b + b.enrichment.active.toNat + b.classification.active.toNat + b.reaper.active.toNat

/-- Tasks that a raised gather or a raised child has left behind. -/
def strays (b : Brain) : ℕ := b.orphans.length + b.strayEmbeds

/-- The flags tell what runs. -/
structure Exact (b : Brain) : Prop where
  queries : b.queryInflight = handlers b
  enrichment : b.enrichmentActive = b.enrichment.active
  classification : b.classificationActive = b.classification.active
  reaper : b.embedReaperActive = b.reaper.active

variable {b c : Brain}

theorem Exact.finished_iff (h : Exact b) (now : ℕ) :
    (controlPause b now).2.inFlightFinished = true ↔ tracked b = 0 := by
  have hreply : (controlPause b now).2.inFlightFinished =
      (b.queryInflight = 0 && !b.enrichmentActive && !b.classificationActive &&
        !b.embedReaperActive) := by
    by_cases hp : b.paused <;> simp [controlPause, hp]
  rw [hreply, h.queries, h.enrichment, h.classification, h.reaper]
  simp only [tracked]
  cases b.enrichment.active <;> cases b.classification.active <;> cases b.reaper.active <;> simp

theorem exact_start : Exact start where
  queries := rfl
  enrichment := rfl
  classification := rfl
  reaper := rfl

theorem exact_controlPause (h : Exact b) (now : ℕ) : Exact (controlPause b now).1 := by
  by_cases hp : b.paused
  · simpa [controlPause, hp] using h
  · simpa [controlPause, hp] using ⟨h.queries, h.enrichment, h.classification, h.reaper⟩

/-- Turning to the head of the loop keeps the flags where the loop is marked idle. -/
theorem exact_turn (hq : b.queryInflight = handlers b) (he : b.enrichmentActive = false)
    (hc : b.classificationActive = b.classification.active)
    (hr : b.embedReaperActive = b.reaper.active) : Exact (turn b) where
  queries := hq
  enrichment := by
    by_cases hp : enrichmentPaused b <;> simp [turn, hp, he, EnrichmentAt.active]
  classification := hc
  reaper := hr

theorem exact_beforePreflight (h : Exact b) (hidle : b.enrichment.active = false) :
    Exact (beforePreflight b) := by
  unfold beforePreflight
  split_ifs with hq hp
  · exact ⟨h.queries, h.enrichment.trans hidle, h.classification, h.reaper⟩
  · exact exact_turn h.queries (h.enrichment.trans hidle) h.classification h.reaper
  · exact ⟨h.queries, by simp [EnrichmentAt.active], h.classification, h.reaper⟩

theorem exact_wake (h : Exact b) (hs : wake b = some c) : Exact c := by
  have hactive := h.enrichment
  unfold wake at hs
  split at hs
  all_goals rename_i hat
  all_goals simp only [hat, Option.some.injEq, reduceCtorEq] at hs hactive
  all_goals subst hs
  · exact exact_turn h.queries hactive h.classification h.reaper
  · exact exact_turn h.queries hactive h.classification h.reaper
  · exact exact_turn h.queries hactive h.classification h.reaper
  · exact exact_beforePreflight h (by simp [hat, EnrichmentAt.active])
  · exact exact_beforePreflight h (by simp [hat, EnrichmentAt.active])

theorem exact_afterPreflight (h : Exact b) (hat : b.enrichment = .preflight) (p : Preflight) :
    Exact (afterPreflight b p) := by
  have hactive := h.enrichment
  cases p with
  | raised => exact ⟨h.queries, rfl, h.classification, h.reaper⟩
  | refused => exact exact_turn h.queries rfl h.classification h.reaper
  | claimed claims =>
    simp only [afterPreflight]
    split_ifs with hnone
    · exact exact_turn h.queries rfl h.classification h.reaper
    · exact ⟨h.queries, by simp [hactive, hat, EnrichmentAt.active], h.classification, h.reaper⟩

theorem exact_afterGather {running : List Child} {raised : Bool} (h : Exact b)
    (hs : afterGather b running raised = some c) : Exact c := by
  unfold afterGather at hs
  split_ifs at hs with hr hn
  · cases hs
    exact ⟨h.queries, rfl, h.classification, h.reaper⟩
  · cases hs
    exact exact_turn h.queries rfl h.classification h.reaper

theorem exact_reap (h : Exact b) (hidle : b.embedReaperActive = false) (rows : List ℕ) :
    Exact (reap b rows) := by
  cases rows with
  | nil => exact ⟨h.queries, h.enrichment, h.classification, by simp [reap, hidle, ReaperAt.active]⟩
  | cons row rest =>
    simp only [reap]
    split_ifs with hp
    · exact ⟨h.queries, h.enrichment, h.classification, by simp [hidle, ReaperAt.active]⟩
    · exact ⟨h.queries, h.enrichment, h.classification, by simp [ReaperAt.active]⟩

theorem count_replaceAt {α : Type} [DecidableEq α] {ops : List α} {op : α} {k : ℕ} (a : α)
    (new : List α) (h : ops[k]? = some op) :
    (replaceAt ops k new).count a + (if op = a then 1 else 0) = ops.count a + new.count a := by
  have hcount := (cons_replaceAt_perm new h).count_eq a
  simp only [List.count_cons, List.count_append, beq_iff_eq] at hcount
  exact hcount

theorem exact_stepRequest {k : ℕ} {isObject : Bool} (h : Exact b)
    (hs : stepRequest b k isObject = some c) : Exact c := by
  have hq := h.queries
  unfold stepRequest at hs
  split at hs
  · rename_i hk
    have hcount := fun new => count_replaceAt QueryAt.handler new hk
    split at hs
    all_goals cases hs
    · refine ⟨?_, h.enrichment, h.classification, h.reaper⟩
      have := hcount []
      simp_all [handlers]
    · refine ⟨?_, h.enrichment, h.classification, h.reaper⟩
      have := hcount [.handler]
      simp_all [handlers]
  · cases hs

theorem exact_stepHandled {k : ℕ} (h : Exact b) (hs : stepHandled b k = some c) : Exact c := by
  have hq := h.queries
  unfold stepHandled at hs
  split at hs
  · rename_i hk
    cases hs
    refine ⟨?_, h.enrichment, h.classification, h.reaper⟩
    have hcount := count_replaceAt QueryAt.handler [] hk
    simp only [handlers, answered, if_true, List.count_nil] at hq hcount ⊢
    omega
  · cases hs

theorem stepChild_eq_some {k : ℕ} {a : ChildStep} (hs : stepChild b k a = some c) :
    ∃ running raised child o, b.enrichment = .gather running raised ∧
      running[k]? = some child ∧ child.step a = some o ∧
      c = { b with
        enrichment := .gather (replaceAt running k o.children) (raised || o.raised)
        strayEmbeds := b.strayEmbeds + o.stray } := by
  unfold stepChild at hs
  split at hs
  · rename_i running raised hat
    obtain ⟨o, ho, rfl⟩ := Option.map_eq_some_iff.mp hs
    obtain ⟨child, hk, ho⟩ := Option.bind_eq_some_iff.mp ho
    exact ⟨running, raised, child, o, hat, hk, ho, rfl⟩
  · cases hs

theorem stepOrphan_eq_some {k : ℕ} {a : ChildStep} (hs : stepOrphan b k a = some c) :
    ∃ child o, b.orphans[k]? = some child ∧ child.step a = some o ∧
      c = { b with
        orphans := replaceAt b.orphans k o.children
        strayEmbeds := b.strayEmbeds + o.stray } := by
  obtain ⟨o, ho, rfl⟩ := Option.map_eq_some_iff.mp hs
  obtain ⟨child, hk, ho⟩ := Option.bind_eq_some_iff.mp ho
  exact ⟨child, o, hk, ho, rfl⟩

theorem exact_step {a : Act} (h : Exact b) (hs : step b a = some c) : Exact c := by
  cases a with
  | pause now =>
    cases hs
    exact exact_controlPause h now
  | resume =>
    cases hs
    exact ⟨h.queries, h.enrichment, h.classification, h.reaper⟩
  | operator paused =>
    cases hs
    exact ⟨h.queries, h.enrichment, h.classification, h.reaper⟩
  | request =>
    by_cases hp : b.paused
    · simp only [step, admitQuery, hp, if_true] at hs
      cases hs
      exact h
    · simp only [step, admitQuery, hp] at hs
      cases hs
      exact ⟨by simpa [handlers] using h.queries, h.enrichment, h.classification, h.reaper⟩
  | bodyRead k isObject => exact exact_stepRequest h hs
  | handled k => exact exact_stepHandled h hs
  | enrichmentWakes => exact exact_wake h hs
  | preflightDone p =>
    simp only [step] at hs
    split_ifs at hs with hat
    cases hs
    exact exact_afterPreflight h hat p
  | child k a =>
    obtain ⟨running, raised, child, o, hat, -, -, rfl⟩ := stepChild_eq_some hs
    exact ⟨h.queries, by simp [h.enrichment, hat, EnrichmentAt.active], h.classification, h.reaper⟩
  | gathered =>
    simp only [step] at hs
    split at hs
    · exact exact_afterGather h hs
    · cases hs
  | orphan k a =>
    obtain ⟨child, o, -, -, rfl⟩ := stepOrphan_eq_some hs
    exact ⟨h.queries, h.enrichment, h.classification, h.reaper⟩
  | strayEmbedded =>
    simp only [step] at hs
    split at hs
    · cases hs
    · cases hs
      exact ⟨h.queries, h.enrichment, h.classification, h.reaper⟩
  | reaperWakes rows =>
    simp only [step, embedReaperTick] at hs
    split_ifs at hs with hat hp
    · cases hs
      exact h
    · cases hs
      exact exact_reap h (by simp [h.reaper, hat, ReaperAt.active]) rows
  | reaperEmbedded =>
    simp only [step] at hs
    split at hs
    · rename_i rest hat
      cases hs
      cases rest with
      | nil => exact ⟨h.queries, h.enrichment, h.classification, rfl⟩
      | cons row rest =>
        by_cases hp : b.paused
        · simpa [reap, hp] using ⟨h.queries, h.enrichment, h.classification, rfl⟩
        · simpa [reap, hp] using ⟨h.queries, h.enrichment, h.classification, rfl⟩
    · cases hs
  | classificationWakes =>
    simp only [step] at hs
    split_ifs at hs with hat
    cases hs
    unfold classify
    split_ifs
    · exact ⟨h.queries, h.enrichment, rfl, h.reaper⟩
    · refine ⟨h.queries, h.enrichment, ?_, h.reaper⟩
      rw [h.classification]
      cases hc : b.classification <;> simp_all [ClassificationAt.active]
  | classified =>
    simp only [step] at hs
    split_ifs at hs
    cases hs
    exact ⟨h.queries, h.enrichment, rfl, h.reaper⟩
  | linkageWakes =>
    simp only [step] at hs
    split_ifs at hs
    cases hs
    exact ⟨h.queries, h.enrichment, h.classification, h.reaper⟩
  | linked =>
    simp only [step] at hs
    split_ifs at hs
    cases hs
    exact ⟨h.queries, h.enrichment, h.classification, h.reaper⟩

theorem exact_of_reaches (h : Reaches step start b) : Exact b :=
  h.invariant (fun _ _ _ hb _ hs => exact_step hb hs) exact_start

end Flags

section Frames

variable {b c : Brain} {a : Act}

/-- A child of the gather has raised, and the loop has not noticed yet. -/
def EnrichmentAt.raised : EnrichmentAt → Bool
  | .gather _ raised => raised
  | _ => false

/-- What most steps leave alone. -/
structure Frame (b c : Brain) : Prop where
  paused : c.paused = b.paused
  linking : c.linking = b.linking
  orphans : c.orphans = b.orphans
  strayEmbeds : c.strayEmbeds = b.strayEmbeds
  raised : c.enrichment.raised = true → b.enrichment.raised = true

theorem Frame.refl : Frame b b := ⟨rfl, rfl, rfl, rfl, id⟩

theorem raised_turn : (turn b).enrichment.raised = false := by
  by_cases hp : enrichmentPaused b <;> simp [turn, hp, EnrichmentAt.raised]

theorem frame_turn : Frame b (turn b) where
  paused := rfl
  linking := rfl
  orphans := rfl
  strayEmbeds := rfl
  raised := by simp [raised_turn]

theorem frame_beforePreflight : Frame b (beforePreflight b) := by
  unfold beforePreflight
  split_ifs
  · exact ⟨rfl, rfl, rfl, rfl, by simp [EnrichmentAt.raised]⟩
  · exact frame_turn
  · exact ⟨rfl, rfl, rfl, rfl, by simp [EnrichmentAt.raised]⟩

theorem frame_wake (hs : wake b = some c) : Frame b c := by
  unfold wake at hs
  split at hs
  all_goals simp only [Option.some.injEq, reduceCtorEq] at hs
  all_goals subst hs
  · exact frame_turn
  · exact frame_turn
  · exact ⟨rfl, rfl, rfl, rfl, by simp [raised_turn]⟩
  · exact frame_beforePreflight
  · exact frame_beforePreflight

theorem frame_afterPreflight (p : Preflight) : Frame b (afterPreflight b p) := by
  cases p with
  | raised => exact ⟨rfl, rfl, rfl, rfl, by simp [afterPreflight, EnrichmentAt.raised]⟩
  | refused => exact ⟨rfl, rfl, rfl, rfl, by simp [afterPreflight, raised_turn]⟩
  | claimed claims =>
    simp only [afterPreflight]
    split_ifs
    · exact ⟨rfl, rfl, rfl, rfl, by simp [raised_turn]⟩
    · exact ⟨rfl, rfl, rfl, rfl, by simp [EnrichmentAt.raised]⟩

theorem frame_reap (rows : List ℕ) : Frame b (reap b rows) := by
  cases rows with
  | nil => exact ⟨rfl, rfl, rfl, rfl, id⟩
  | cons row rest =>
    simp only [reap]
    split_ifs <;> exact ⟨rfl, rfl, rfl, rfl, id⟩

/-- The control requests and the steps of the children and of the linkage loop are not framed. -/
def Act.apart : Act → Prop
  | .pause _ | .resume | .child _ _ | .gathered | .orphan _ _ | .strayEmbedded | .linkageWakes | .linked => True
  | _ => False

theorem frame_step (ha : ¬ a.apart) (hs : step b a = some c) : Frame b c := by
  cases a with
  | pause _ => exact absurd trivial ha
  | resume => exact absurd trivial ha
  | operator paused => cases hs; exact ⟨rfl, rfl, rfl, rfl, id⟩
  | request =>
    by_cases hp : b.paused
    · simp only [step, admitQuery, hp, if_true] at hs
      cases hs
      exact Frame.refl
    · simp only [step, admitQuery, Bool.eq_false_iff.mpr hp] at hs
      cases hs
      exact ⟨(Bool.eq_false_iff.mpr hp).symm, rfl, rfl, rfl, id⟩
  | bodyRead k isObject =>
    simp only [step, stepRequest] at hs
    split at hs
    · split at hs <;> (cases hs; exact ⟨rfl, rfl, rfl, rfl, id⟩)
    · cases hs
  | handled k =>
    simp only [step, stepHandled] at hs
    split at hs
    · cases hs; exact ⟨rfl, rfl, rfl, rfl, id⟩
    · cases hs
  | enrichmentWakes => exact frame_wake hs
  | preflightDone p =>
    simp only [step] at hs
    split_ifs at hs
    cases hs
    exact frame_afterPreflight p
  | reaperWakes rows =>
    simp only [step, embedReaperTick] at hs
    split_ifs at hs
    · cases hs
      exact Frame.refl
    · cases hs
      exact frame_reap rows
  | reaperEmbedded =>
    simp only [step] at hs
    split at hs
    · rename_i rest hat
      cases hs
      obtain ⟨hp, hl, ho, he, hr⟩ := frame_reap (b := { b with embedReaperActive := false }) rest
      exact ⟨hp, hl, ho, he, hr⟩
    · cases hs
  | classificationWakes =>
    simp only [step] at hs
    split_ifs at hs
    cases hs
    unfold classify
    split_ifs <;> exact ⟨rfl, rfl, rfl, rfl, id⟩
  | classified =>
    simp only [step] at hs
    split_ifs at hs
    cases hs
    exact ⟨rfl, rfl, rfl, rfl, id⟩
  | child _ _ => exact absurd trivial ha
  | gathered => exact absurd trivial ha
  | orphan _ _ => exact absurd trivial ha
  | strayEmbedded => exact absurd trivial ha
  | linkageWakes => exact absurd trivial ha
  | linked => exact absurd trivial ha

theorem afterGather_eq_some {running : List Child} {raised : Bool}
    (hs : afterGather b running raised = some c) :
    c.paused = b.paused ∧ c.linking = b.linking ∧ c.strayEmbeds = b.strayEmbeds ∧
      c.enrichment.raised = false ∧ (raised = false → c.orphans = b.orphans) := by
  unfold afterGather at hs
  split_ifs at hs with hr hn
  · cases hs
    exact ⟨rfl, rfl, rfl, rfl, fun h => absurd hr (by simp [h])⟩
  · cases hs
    exact ⟨rfl, rfl, rfl, raised_turn, fun _ => rfl⟩

/-- A paused server starts no linkage run. -/
theorem linking_step (hp : b.paused = true) (hs : step b a = some c) (h : b.linking = false) :
    c.linking = false := by
  by_cases ha : a.apart
  · cases a with
    | pause now =>
      cases hs
      simpa [controlPause, hp] using h
    | resume => cases hs; exact h
    | child k a =>
      obtain ⟨_, _, _, _, -, -, -, rfl⟩ := stepChild_eq_some hs
      exact h
    | gathered =>
      simp only [step] at hs
      split at hs
      · exact (afterGather_eq_some hs).2.1.trans h
      · cases hs
    | orphan k a =>
      obtain ⟨_, _, -, -, rfl⟩ := stepOrphan_eq_some hs
      exact h
    | strayEmbedded =>
      simp only [step] at hs
      split at hs
      · cases hs
      · cases hs; exact h
    | linkageWakes =>
      simp only [step, h, hp] at hs
      cases hs
      rfl
    | linked => simp [step, h] at hs
    | _ => exact absurd ha id
  · exact (frame_step ha hs).linking.trans h

/-- No step but that of a control request. -/
def Act.internal : Act → Bool
  | .pause _ | .resume => false
  | _ => true

theorem paused_step (ha : a.internal = true) (hs : step b a = some c) : c.paused = b.paused := by
  by_cases hap : a.apart
  · cases a with
    | pause _ => cases ha
    | resume => cases ha
    | child k a =>
      obtain ⟨_, _, _, _, -, -, -, rfl⟩ := stepChild_eq_some hs
      rfl
    | gathered =>
      simp only [step] at hs
      split at hs
      · exact (afterGather_eq_some hs).1
      · cases hs
    | orphan k a =>
      obtain ⟨_, _, -, -, rfl⟩ := stepOrphan_eq_some hs
      rfl
    | strayEmbedded =>
      simp only [step] at hs
      split at hs
      · cases hs
      · cases hs; rfl
    | linkageWakes =>
      simp only [step] at hs
      split_ifs at hs
      cases hs
      rfl
    | linked =>
      simp only [step] at hs
      split_ifs at hs
      cases hs
      rfl
    | _ => exact absurd hap id
  · exact (frame_step hap hs).paused

/-- Nothing runs astray. -/
structure Tended (b : Brain) : Prop where
  orphans : b.orphans = []
  strayEmbeds : b.strayEmbeds = 0
  raised : b.enrichment.raised = false

/-- Any action but that of a child which fails to mark its chunk failed. -/
def Act.marks : Act → Prop
  | .child _ .raised => False
  | _ => True

theorem tended_step (h : Tended b) (ha : a.marks) (hs : step b a = some c) : Tended c := by
  have hraised := h.raised
  by_cases hap : a.apart
  · cases a with
    | pause now =>
      cases hs
      by_cases hp : b.paused
      · simpa [controlPause, hp] using h
      · simpa [controlPause, hp] using ⟨h.orphans, h.strayEmbeds, h.raised⟩
    | resume => cases hs; exact ⟨h.orphans, h.strayEmbeds, h.raised⟩
    | child k a =>
      obtain ⟨running, raised, child, o, hat, -, ho, rfl⟩ := stepChild_eq_some hs
      have hquiet : o.stray = 0 ∧ o.raised = false := by
        cases a with
        | raised => exact absurd ha id
        | chunk embed =>
          cases hc : child.chunks <;> simp only [Child.step, hc, reduceCtorEq] at ho
          cases ho
          exact ⟨rfl, rfl⟩
        | embedded =>
          cases hc : child.embeds <;> simp only [Child.step, hc, reduceCtorEq] at ho
          cases ho
          exact ⟨rfl, rfl⟩
        | ended =>
          simp only [Child.step] at ho
          split_ifs at ho
          cases ho
          exact ⟨rfl, rfl⟩
      simp only [hat, EnrichmentAt.raised] at hraised
      exact ⟨h.orphans, by simp [h.strayEmbeds, hquiet.1], by
        simp [EnrichmentAt.raised, hraised, hquiet.2]⟩
    | gathered =>
      simp only [step] at hs
      split at hs
      · rename_i running raised hat
        simp only [hat, EnrichmentAt.raised] at hraised
        obtain ⟨-, -, hstray, hr, ho⟩ := afterGather_eq_some hs
        exact ⟨(ho hraised).trans h.orphans, hstray.trans h.strayEmbeds, hr⟩
      · cases hs
    | orphan k a =>
      obtain ⟨_, _, hk, -, -⟩ := stepOrphan_eq_some hs
      simp [h.orphans] at hk
    | strayEmbedded => simp [step, h.strayEmbeds] at hs
    | linkageWakes =>
      simp only [step] at hs
      split_ifs at hs
      cases hs
      exact ⟨h.orphans, h.strayEmbeds, h.raised⟩
    | linked =>
      simp only [step] at hs
      split_ifs at hs
      cases hs
      exact ⟨h.orphans, h.strayEmbeds, h.raised⟩
    | _ => exact absurd hap id
  · have hframe := frame_step hap hs
    refine ⟨hframe.orphans.trans h.orphans, hframe.strayEmbeds.trans h.strayEmbeds, ?_⟩
    by_contra hon
    simp [hframe.raised (by simpa using hon)] at hraised

end Frames

end Hippo.PauseHandshake
