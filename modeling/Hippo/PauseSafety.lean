import Hippo.PauseFlags
import Mathlib.Algebra.Order.BigOperators.Group.List
import Mathlib.Algebra.Order.Ring.Int
import Mathlib.Data.Prod.Lex
import Mathlib.Order.WellFounded

/-!
# What an acknowledged pause promises

While the server is paused no step lets the inference in flight grow, in a well-founded rank. So
after a positive reply nothing starts before a resume, and a pause comes to a positive reply.
-/
namespace Hippo.PauseHandshake

open Transition Draining

section Rank

variable {b c : Brain} {a : Act}

/-- Steps that inference in flight has left, and a bound on what a child starts with them. -/
def Child.weight (c : Child) : ℕ := 1 + 2 * c.chunks + c.embeds

def weight (children : List Child) : ℕ := (children.map Child.weight).sum

def EnrichmentAt.running : EnrichmentAt → List Child
  | .gather running _ => running
  | _ => []

/-- The claims of a preflight are not known before it ends, so it ranks above any of them. -/
def EnrichmentAt.claims : EnrichmentAt → Bool
  | .preflight => true
  | _ => false

def rank (b : Brain) : ℕ ×ₗ (ℕ ×ₗ ℕ) :=
  toLex (b.enrichment.claims.toNat,
    toLex (tracked b, weight b.enrichment.running + weight b.orphans + b.strayEmbeds))

theorem weight_append (l m : List Child) : weight (l ++ m) = weight l + weight m := by
  simp [weight]

theorem child_step_weight {child : Child} {a : ChildStep} {o : Outcome}
    (h : child.step a = some o) : weight o.children + o.stray < child.weight := by
  cases a with
  | chunk embed =>
    cases hc : child.chunks with
    | zero => simp [Child.step, hc] at h
    | succ n =>
      simp only [Child.step, hc, Option.some.injEq] at h
      subst h
      cases embed
      all_goals simp [weight, Child.weight, hc]
      all_goals omega
  | embedded =>
    cases hc : child.embeds with
    | zero => simp [Child.step, hc] at h
    | succ n =>
      simp only [Child.step, hc, Option.some.injEq] at h
      subst h
      simp [weight, Child.weight, hc]
  | ended =>
    simp only [Child.step] at h
    split_ifs at h with hdone
    cases h
    simp only [weight, Child.weight, List.map_nil, List.sum_nil]
    omega
  | raised =>
    simp only [Child.step] at h
    split_ifs at h with hdone
    cases h
    simp only [weight, Child.weight, List.map_nil, List.sum_nil]
    omega

theorem weight_replaceAt {children : List Child} {child : Child} {k : ℕ} (new : List Child)
    (h : children[k]? = some child) :
    weight (replaceAt children k new) + child.weight = weight children + weight new := by
  have hsum := ((cons_replaceAt_perm new h).map Child.weight).sum_eq
  simp only [List.map_cons, List.sum_cons, List.map_append, List.sum_append] at hsum
  simp only [weight]
  omega

theorem rank_lt_of_weight (hpre : c.enrichment.claims = b.enrichment.claims)
    (htracked : tracked c = tracked b)
    (hweight : weight c.enrichment.running + weight c.orphans + c.strayEmbeds <
      weight b.enrichment.running + weight b.orphans + b.strayEmbeds) : rank c < rank b := by
  simp [rank, Prod.Lex.toLex_lt_toLex, hpre, htracked, hweight]

theorem rank_lt_of_tracked (hpre : c.enrichment.claims = b.enrichment.claims)
    (htracked : tracked c < tracked b) : rank c < rank b := by
  simp [rank, Prod.Lex.toLex_lt_toLex, hpre, htracked]

theorem rank_lt_of_claims (hb : b.enrichment.claims = true) (hc : c.enrichment.claims = false) :
    rank c < rank b := by
  simp [rank, Prod.Lex.toLex_lt_toLex, hb, hc]

/-- The tasks of two states wait at the same points, as far as inference goes. -/
theorem rank_eq (hat : c.enrichment.active = false) (hat' : b.enrichment.active = false)
    (hc : c.classification.active = b.classification.active)
    (hr : c.reaper.active = b.reaper.active) (hq : handlers c = handlers b)
    (ho : c.orphans = b.orphans) (hs : c.strayEmbeds = b.strayEmbeds) : rank c = rank b := by
  have hidle : ∀ e : EnrichmentAt, e.active = false → e.claims = false ∧ e.running = [] := by
    intro e he
    cases e <;> simp_all [EnrichmentAt.active, EnrichmentAt.claims, EnrichmentAt.running]
  simp [rank, tracked, hidle _ hat, hidle _ hat', hat, hat', hc, hr, hq, ho, hs]

end Rank

section Paused

variable {b c : Brain} {a : Act}

/-- Any action but a resume. -/
def Act.stays : Act → Prop
  | .resume => False
  | _ => True

/-- The end of an await that has inference behind it, and what the loop does next. -/
def Act.works : Act → Prop
  | .handled _ | .preflightDone _ | .child _ _ | .gathered | .orphan _ _ | .strayEmbedded
  | .reaperEmbedded | .classified => True
  | _ => False

theorem turn_of_paused (hp : b.paused = true) : turn b = { b with enrichment := .resumeEvent } := by
  simp [turn, enrichmentPaused, hp]

/-- Nothing that the loop does before a preflight gets past the pause. -/
theorem wake_of_paused (hp : b.paused = true) (hs : wake b = some c) :
    b.enrichment.active = false ∧ c.enrichment.active = false ∧
      ∃ at' resume, c = { b with enrichment := at', resumeEvent := resume } := by
  unfold wake at hs
  split at hs
  all_goals rename_i hat
  all_goals simp only [Option.some.injEq, reduceCtorEq] at hs
  all_goals subst hs
  all_goals refine ⟨by simp [hat, EnrichmentAt.active], ?_⟩
  · simp [turn_of_paused hp, EnrichmentAt.active]
  · simp [turn_of_paused hp, EnrichmentAt.active]
  · rw [turn_of_paused (by simpa using hp)]
    exact ⟨rfl, _, _, rfl⟩
  all_goals unfold beforePreflight
  all_goals split_ifs with hq hop
  all_goals first
    | exact ⟨rfl, _, _, rfl⟩
    | (rw [turn_of_paused hp]; exact ⟨rfl, _, _, rfl⟩)
    | exact absurd (by simp [enrichmentPaused, hp]) hop

theorem reap_of_paused (hp : b.paused = true) (rows : List ℕ) :
    reap b rows = { b with reaper := .sleep } := by
  cases rows <;> simp [reap, hp]

theorem rank_afterPreflight (hp : b.paused = true) (hat : b.enrichment = .preflight)
    (p : Preflight) : (afterPreflight b p).paused = true ∧ rank (afterPreflight b p) < rank b := by
  have hb : b.enrichment.claims = true := by simp [hat, EnrichmentAt.claims]
  cases p with
  | raised => exact ⟨hp, rank_lt_of_claims hb rfl⟩
  | refused =>
    rw [afterPreflight, turn_of_paused (by simpa using hp)]
    exact ⟨hp, rank_lt_of_claims hb rfl⟩
  | claimed claims =>
    simp only [afterPreflight]
    split_ifs with hnone
    · rw [turn_of_paused (by simpa using hp)]
      exact ⟨hp, rank_lt_of_claims hb rfl⟩
    · exact ⟨hp, rank_lt_of_claims hb rfl⟩

theorem tracked_lt (hb : b.enrichment.active = true) (hc : c.enrichment.active = false)
    (hq : handlers c = handlers b) (hcl : c.classification = b.classification)
    (hr : c.reaper = b.reaper) : tracked c < tracked b := by
  simp only [tracked, hb, hc, hq, hcl, hr, Bool.toNat_true, Bool.toNat_false]
  omega

theorem rank_afterGather {running : List Child} {raised : Bool} (hp : b.paused = true)
    (hat : b.enrichment = .gather running raised) (hs : afterGather b running raised = some c) :
    c.paused = true ∧ rank c < rank b := by
  have hb : b.enrichment.claims = false := by simp [hat, EnrichmentAt.claims]
  have hactive : b.enrichment.active = true := by simp [hat, EnrichmentAt.active]
  unfold afterGather at hs
  split_ifs at hs with hr hn
  · cases hs
    exact ⟨hp, rank_lt_of_tracked hb.symm (tracked_lt hactive rfl rfl rfl rfl)⟩
  · cases hs
    rw [turn_of_paused (by simpa using hp)]
    exact ⟨hp, rank_lt_of_tracked hb.symm (tracked_lt hactive rfl rfl rfl rfl)⟩

/-- While paused no step lets the inference in flight grow, and work shrinks it. -/
theorem rank_step (hp : b.paused = true) (ha : a.stays) (hs : step b a = some c) :
    c.paused = true ∧ rank c ≤ rank b ∧ (a.works → rank c < rank b) := by
  cases a with
  | pause now =>
    cases hs
    simp [controlPause, hp, Act.works]
  | resume => exact absurd ha id
  | operator paused =>
    cases hs
    exact ⟨hp, le_rfl, fun h => absurd h id⟩
  | request =>
    simp only [step, admitQuery, hp, if_true] at hs
    cases hs
    exact ⟨hp, le_rfl, fun h => absurd h id⟩
  | bodyRead k isObject =>
    simp only [step, stepRequest] at hs
    split at hs
    · rename_i hk
      have hcount := count_replaceAt QueryAt.handler [] hk
      have hsame : handlers { b with requests := replaceAt b.requests k [] } = handlers b := by
        simpa [handlers] using hcount
      have hrefused : ∃ e, validated b isObject = .error e := by
        cases isObject <;> simp [validated, hp]
      obtain ⟨e, he⟩ := hrefused
      simp only [he, Option.some.injEq] at hs
      subst hs
      exact ⟨hp, le_of_eq (by simp only [rank, tracked, hsame]), fun h => absurd h id⟩
    · cases hs
  | handled k =>
    simp only [step, stepHandled] at hs
    split at hs
    · rename_i hk
      cases hs
      have hcount := count_replaceAt QueryAt.handler [] hk
      have hlt : rank (answered { b with requests := replaceAt b.requests k [] }) < rank b := by
        refine rank_lt_of_tracked rfl ?_
        simp only [tracked, handlers, answered, if_true, List.count_nil] at hcount ⊢
        omega
      exact ⟨hp, hlt.le, fun _ => hlt⟩
    · cases hs
  | enrichmentWakes =>
    obtain ⟨hb, hc, at', resume, rfl⟩ := wake_of_paused hp hs
    exact ⟨hp, le_of_eq (rank_eq hc hb rfl rfl rfl rfl rfl), fun h => absurd h id⟩
  | preflightDone p =>
    simp only [step] at hs
    split_ifs at hs with hat
    cases hs
    obtain ⟨hp', hlt⟩ := rank_afterPreflight hp hat p
    exact ⟨hp', hlt.le, fun _ => hlt⟩
  | child k a =>
    obtain ⟨running, raised, child, o, hat, hk, ho, rfl⟩ := stepChild_eq_some hs
    have hstep := child_step_weight ho
    have hsum := weight_replaceAt o.children hk
    have hlt : rank { b with
        enrichment := .gather (replaceAt running k o.children) (raised || o.raised)
        strayEmbeds := b.strayEmbeds + o.stray } < rank b := by
      refine rank_lt_of_weight ?_ ?_ ?_
      · simp [hat, EnrichmentAt.claims]
      · simp [tracked, handlers, hat, EnrichmentAt.active]
      · simp only [hat, EnrichmentAt.running]
        omega
    exact ⟨hp, hlt.le, fun _ => hlt⟩
  | gathered =>
    simp only [step] at hs
    split at hs
    · rename_i hat
      obtain ⟨hp', hlt⟩ := rank_afterGather hp hat hs
      exact ⟨hp', hlt.le, fun _ => hlt⟩
    · cases hs
  | orphan k a =>
    obtain ⟨child, o, hk, ho, rfl⟩ := stepOrphan_eq_some hs
    have hstep := child_step_weight ho
    have hsum := weight_replaceAt o.children hk
    have hlt : rank { b with
        orphans := replaceAt b.orphans k o.children
        strayEmbeds := b.strayEmbeds + o.stray } < rank b := by
      refine rank_lt_of_weight rfl rfl ?_
      simp only
      omega
    exact ⟨hp, hlt.le, fun _ => hlt⟩
  | strayEmbedded =>
    simp only [step] at hs
    split at hs
    · cases hs
    · rename_i n hn
      cases hs
      have hlt : rank { b with strayEmbeds := n } < rank b := by
        refine rank_lt_of_weight rfl rfl ?_
        simp only [hn]
        omega
      exact ⟨hp, hlt.le, fun _ => hlt⟩
  | reaperWakes rows =>
    simp only [step, embedReaperTick, hp, if_true] at hs
    split_ifs at hs
    cases hs
    exact ⟨hp, le_rfl, fun h => absurd h id⟩
  | reaperEmbedded =>
    simp only [step] at hs
    split at hs
    · rename_i rest hat
      cases hs
      rw [reap_of_paused (by simpa using hp)]
      have hlt : rank { b with embedReaperActive := false, reaper := .sleep } < rank b := by
        refine rank_lt_of_tracked rfl ?_
        simp [tracked, handlers, hat, ReaperAt.active]
      exact ⟨hp, hlt.le, fun _ => hlt⟩
    · cases hs
  | classificationWakes =>
    simp only [step] at hs
    split_ifs at hs with hat
    cases hs
    have hidle : b.classification.active = false := by
      cases hc : b.classification <;> simp_all [ClassificationAt.active]
    have hsleep : classify b = { b with classification := .sleep } := by simp [classify, hp]
    rw [hsleep]
    have hrank : rank { b with classification := .sleep } = rank b := by
      simp only [rank, tracked, handlers, hidle]
      rfl
    exact ⟨hp, hrank.le, fun h => absurd h id⟩
  | classified =>
    simp only [step] at hs
    split_ifs at hs with hat
    cases hs
    have hlt : rank { b with classificationActive := false, classification := .sleep } <
        rank b := by
      refine rank_lt_of_tracked rfl ?_
      simp [tracked, handlers, hat, ClassificationAt.active]
    exact ⟨hp, hlt.le, fun _ => hlt⟩
  | linkageWakes =>
    simp only [step] at hs
    split_ifs at hs
    cases hs
    exact ⟨hp, le_rfl, fun h => absurd h id⟩
  | linked =>
    simp only [step] at hs
    split_ifs at hs
    cases hs
    exact ⟨hp, le_rfl, fun h => absurd h id⟩

end Paused

section Promises

variable {b c : Brain}

theorem paused_of_run (h : Run step (fun _ a => a.stays) b c) (hp : b.paused = true) :
    c.paused = true :=
  h.invariant (fun _ _ _ hb ha hs => (rank_step hb ha hs).1) hp

theorem rank_of_run (h : Run step (fun _ a => a.stays) b c) (hp : b.paused = true) :
    rank c ≤ rank b := by
  have hboth := h.invariant (I := fun s => s.paused = true ∧ rank s ≤ rank b)
    (fun _ _ _ hb ha hs =>
      ⟨(rank_step hb.1 ha hs).1, (rank_step hb.1 ha hs).2.1.trans hb.2⟩) ⟨hp, le_rfl⟩
  exact hboth.2

theorem linking_of_run (h : Run step (fun _ a => a.stays) b c) (hp : b.paused = true)
    (hl : b.linking = false) : c.linking = false :=
  h.invariant_of (I := fun s => s.linking = false) (J := fun s => s.paused = true)
    (fun _ _ _ hb ha hs => (rank_step hb ha hs).1)
    (fun _ _ _ hb hl _ hs => linking_step hb hs hl) hp hl

theorem tended_of_run (h : Run step (fun _ a => a.marks) start b) : Tended b :=
  h.invariant (fun _ _ _ hb ha hs => tended_step hb ha hs) ⟨rfl, rfl, rfl⟩

/-- Nothing under a flag is below everything else. -/
theorem tracked_eq_zero_of_rank (h : rank c ≤ rank b) (hb : tracked b = 0) : tracked c = 0 := by
  have hclaims : b.enrichment.claims = false := by
    have hidle : b.enrichment.active.toNat = 0 := by
      simp only [tracked] at hb
      omega
    cases hat : b.enrichment <;> simp_all [EnrichmentAt.active, EnrichmentAt.claims]
  simp only [rank, hclaims, hb, Prod.Lex.toLex_le_toLex] at h
  simp at h
  omega

theorem weight_eq_zero {children : List Child} (h : weight children = 0) : children = [] := by
  cases children with
  | nil => rfl
  | cons child rest =>
    simp only [weight, Child.weight, List.map_cons, List.sum_cons] at h
    omega

theorem strays_eq_zero_of_rank (h : rank c ≤ rank b) (hb : tracked b = 0)
    (hs : strays b = 0) : strays c = 0 := by
  have hidle : b.enrichment.active = false := by
    cases hat : b.enrichment.active
    · rfl
    · simp only [tracked, hat, Bool.toNat_true] at hb
      omega
  have hat : b.enrichment.claims = false ∧ b.enrichment.running = [] := by
    cases hat : b.enrichment <;>
      simp_all [EnrichmentAt.active, EnrichmentAt.claims, EnrichmentAt.running]
  have horphans : b.orphans = [] := List.length_eq_zero_iff.mp (by simp only [strays] at hs; omega)
  have hstray : b.strayEmbeds = 0 := by
    simp only [strays] at hs
    omega
  simp only [rank, hat, hb, horphans, hstray, weight, List.map_nil, List.sum_nil,
    Prod.Lex.toLex_le_toLex] at h
  simp only [Bool.toNat_false, add_zero, Nat.not_lt_zero, false_or, Nat.le_zero,
    Nat.add_eq_zero_iff] at h
  have hc := weight_eq_zero h.2.2.1.2
  simp [strays, hc, h.2.2.2]

/-- The reply to a pause is exact. After a positive reply no task starts inference before a
resume, and the one thing it does not speak of are children left behind by a failed gather: there
are none while chunks can be marked failed. -/
theorem acknowledged_pause (h : Reaches step start b) (now : ℕ) :
    ((controlPause b now).2.inFlightFinished = true ↔ tracked b = 0) ∧
    (tracked b = 0 → ∀ c, Run step (fun _ a => a.stays) (controlPause b now).1 c →
      tracked c = 0 ∧ (strays b = 0 → strays c = 0) ∧ (b.linking = false → c.linking = false)) ∧
    (Run step (fun _ a => a.marks) start b → strays b = 0) := by
  refine ⟨(exact_of_reaches h).finished_iff now, fun hb c hrun => ?_, fun hmarks => ?_⟩
  · have hpaused : (controlPause b now).1.paused = true := by
      by_cases hp : b.paused <;> simp [controlPause, hp]
    have hsame : rank (controlPause b now).1 = rank b ∧
        (controlPause b now).1.linking = b.linking := by
      by_cases hp : b.paused <;> simp only [controlPause, hp] <;> exact ⟨rfl, rfl⟩
    have hrank : rank c ≤ rank b := hsame.1 ▸ rank_of_run hrun hpaused
    exact ⟨tracked_eq_zero_of_rank hrank hb, strays_eq_zero_of_rank hrank hb,
      fun hl => linking_of_run hrun hpaused (hsame.2.trans hl)⟩
  · have htended := tended_of_run hmarks
    simp [strays, htended.orphans, htended.strayEmbeds]

/-- A pause that finds the loop waiting for a query: the sweep and the loop that wake after it
start nothing. -/
theorem acknowledged_pause_of_waiting :
    (controlPause (turn start) 7).2.inFlightFinished = true ∧
      ∀ b c, step (controlPause (turn start) 7).1 (.reaperWakes [1, 2]) = some b →
        step b .enrichmentWakes = some c → tracked c = 0 ∧ strays c = 0 := by
  have hreach : Reaches step start (turn start) :=
    Run.single (a := .enrichmentWakes) trivial rfl
  have h := acknowledged_pause hreach 7
  refine ⟨h.1.mpr rfl, fun b c hb hc => ?_⟩
  have hafter := h.2.1 rfl c (Run.head (a := .reaperWakes [1, 2]) trivial hb
    (Run.single (a := .enrichmentWakes) trivial hc))
  exact ⟨hafter.1, hafter.2.1 rfl⟩

theorem exists_child_step (child : Child) : ∃ a o, child.step a = some o := by
  cases hc : child.chunks with
  | succ n => exact ⟨.chunk false, _, by simp only [Child.step, hc]; rfl⟩
  | zero =>
    cases he : child.embeds with
    | succ n => exact ⟨.embedded, _, by simp only [Child.step, he]; rfl⟩
    | zero => exact ⟨.ended, ⟨[], 0, false⟩, by simp [Child.step, hc, he]⟩

/-- Inference in flight is never stuck. -/
theorem exists_work (h : 0 < tracked b + strays b) : ∃ a c, a.works ∧ step b a = some c := by
  by_cases hq : QueryAt.handler ∈ b.requests
  · obtain ⟨k, hk⟩ := List.mem_iff_getElem?.mp hq
    exact ⟨.handled k, _, trivial, by simp only [step, stepHandled, hk]; rfl⟩
  have hq0 : handlers b = 0 := List.count_eq_zero_of_not_mem hq
  cases hr : b.reaper with
  | embedding rest => exact ⟨.reaperEmbedded, _, trivial, by simp only [step, hr]; rfl⟩
  | sleep =>
  by_cases hcl : b.classification = .batch
  · exact ⟨.classified, _, trivial, by simp only [step, hcl, if_true]; rfl⟩
  have hc0 : b.classification.active = false := by
    cases hc : b.classification <;> simp_all [ClassificationAt.active]
  cases hstray : b.strayEmbeds with
  | succ n => exact ⟨.strayEmbedded, _, trivial, by simp only [step, hstray]; rfl⟩
  | zero =>
  cases horphans : b.orphans with
  | cons child rest =>
    obtain ⟨a, o, ho⟩ := exists_child_step child
    exact ⟨.orphan 0 a, _, trivial, by simp [step, stepOrphan, horphans, ho]; rfl⟩
  | nil =>
    have hactive : b.enrichment.active = true := by
      by_contra hidle
      simp_all [tracked, strays, ReaperAt.active]
    cases hat : b.enrichment with
    | preflight =>
      exact ⟨.preflightDone .raised, _, trivial, by simp only [step, hat, if_true]; rfl⟩
    | gather running raised =>
      cases hrun : running with
      | nil =>
        cases raised with
        | true => exact ⟨.gathered, _, trivial, by simp only [step, hat, afterGather]; rfl⟩
        | false => exact ⟨.gathered, _, trivial, by simp only [step, hat, hrun, afterGather]; rfl⟩
      | cons child rest =>
        obtain ⟨a, o, ho⟩ := exists_child_step child
        exact ⟨.child 0 a, _, trivial, by simp [step, stepChild, hat, hrun, ho]; rfl⟩
    | _ => simp [hat, EnrichmentAt.active] at hactive

/-- A pause drains: if every await behind which there is inference ends sooner or later, the reply
to a pause becomes positive and stays so, with nothing left behind. Some such await can always
end. -/
theorem pause_drains (r : Endless step fun _ a => a.stays) (h : Reaches step start (r.state 0))
    (hp : (r.state 0).paused = true)
    (hfair : r.Fair Act.works fun b => 0 < tracked b + strays b) :
    (∀ n, 0 < tracked (r.state n) + strays (r.state n) →
      ∃ a c, a.works ∧ step (r.state n) a = some c) ∧
    ∃ N, ∀ n now, N ≤ n →
      (controlPause (r.state n) now).2.inFlightFinished = true ∧ strays (r.state n) = 0 := by
  have hpaused : ∀ n, (r.state n).paused = true :=
    r.always (I := fun s => s.paused = true) (fun _ _ _ hb ha hs => (rank_step hb ha hs).1) hp
  have hstep := fun n => rank_step (hpaused n) (r.meets n) (r.next n)
  have hle : ∀ n, rank (r.state (n + 1)) ≤ rank (r.state n) := fun n => (hstep n).2.1
  obtain ⟨N, hN⟩ := r.drains hle (fun n => (hstep n).2.2) hfair
  refine ⟨fun n => exists_work, N, fun n now hn => ?_⟩
  have hidle := hN n hn
  have hexact : Exact (r.state n) :=
    exact_of_reaches (h.trans (r.run n).reaches)
  exact ⟨(hexact.finished_iff now).mpr (by omega), by omega⟩

/-- A request is in its handler when the pause comes, and only pauses follow its end. -/
def drainingRun : Endless step fun _ a => a.stays where
  state n :=
    { start with
      paused := true
      pausedAt := some 7
      queryInflight := if n = 0 then 1 else 0
      queryArrived := n = 0
      requests := if n = 0 then [.handler] else [] }
  act n := if n = 0 then .handled 0 else .pause 7
  meets n := by
    by_cases hn : n = 0 <;> simp [hn, Act.stays]
  next n := by
    by_cases hn : n = 0
    · simp [hn, step, stepHandled, answered, replaceAt, start]
    · simp [hn, step, controlPause]

theorem drainingRun_drains :
    ∃ N, ∀ n now, N ≤ n →
      (controlPause (drainingRun.state n) now).2.inFlightFinished = true ∧
        strays (drainingRun.state n) = 0 := by
  have hreach : Reaches step start (drainingRun.state 0) :=
    Run.head (a := .request) trivial rfl
      (Run.head (a := .bodyRead 0 true) trivial rfl
        (Run.single (a := .pause 7) trivial rfl))
  refine (pause_drains drainingRun hreach rfl fun n hbusy => ?_).2
  by_cases hn : n = 0
  · exact ⟨0, by omega, trivial⟩
  · simp [drainingRun, hn, tracked, strays, handlers, start, EnrichmentAt.active,
      ClassificationAt.active, ReaperAt.active] at hbusy

end Promises

end Hippo.PauseHandshake
