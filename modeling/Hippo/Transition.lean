import Mathlib.Data.Nat.Notation
import Mathlib.Logic.Relation

/-!
# Machines given by a partial step function

A machine is a function `σ → α → Option σ`: an action that is not enabled in a
state has no successor. Runs are finite, and a run may be restricted to the
steps that meet a condition on the state before the step and the action.
-/
namespace Hippo.Transition

variable {σ α : Type*} {step : σ → α → Option σ} {ok ok' : σ → α → Prop} {s t u : σ} {a : α}

/-- One step by an action that meets `ok` in the state it is taken from. -/
def StepOf (step : σ → α → Option σ) (ok : σ → α → Prop) (s t : σ) : Prop :=
  ∃ a, ok s a ∧ step s a = some t

/-- Finite runs all of whose steps meet `ok`. -/
def Run (step : σ → α → Option σ) (ok : σ → α → Prop) : σ → σ → Prop :=
  Relation.ReflTransGen (StepOf step ok)

/-- Finite runs without a restriction. -/
def Reaches (step : σ → α → Option σ) : σ → σ → Prop :=
  Run step (fun _ _ => True)

theorem Run.refl (s : σ) : Run step ok s s := Relation.ReflTransGen.refl

theorem Run.single (hok : ok s a) (h : step s a = some t) : Run step ok s t :=
  Relation.ReflTransGen.single ⟨a, hok, h⟩

theorem Run.trans (h : Run step ok s t) (h' : Run step ok t u) : Run step ok s u :=
  Relation.ReflTransGen.trans h h'

theorem Run.head (hok : ok s a) (h : step s a = some t) (h' : Run step ok t u) :
    Run step ok s u :=
  Relation.ReflTransGen.head ⟨a, hok, h⟩ h'

theorem Run.mono (h : Run step ok s t) (himp : ∀ s a, ok s a → ok' s a) :
    Run step ok' s t :=
  Relation.ReflTransGen.mono (r := StepOf step ok)
    (fun _ _ ⟨a, hok, hs⟩ => ⟨a, himp _ a hok, hs⟩) _ _ h

theorem Run.reaches (h : Run step ok s t) : Reaches step s t :=
  h.mono fun _ _ _ => trivial

/-- What every step preserves holds in the last state of a run. -/
theorem Run.invariant {I : σ → Prop} (h : Run step ok s t)
    (hstep : ∀ s a t, I s → ok s a → step s a = some t → I t) (hs : I s) : I t := by
  induction h with
  | refl => exact hs
  | tail _ hlast ih =>
    obtain ⟨a, hok, ha⟩ := hlast
    exact hstep _ a _ ih hok ha

/-- The same rule when a second invariant `J` is already known to be preserved. -/
theorem Run.invariant_of {I J : σ → Prop} (h : Run step ok s t)
    (hJ : ∀ s a t, J s → ok s a → step s a = some t → J t)
    (hstep : ∀ s a t, J s → I s → ok s a → step s a = some t → I t)
    (hj : J s) (hs : I s) : I t := by
  have hboth : J t ∧ I t :=
    h.invariant (I := fun s => J s ∧ I s)
      (fun s a t hs hok ha => ⟨hJ s a t hs.1 hok ha, hstep s a t hs.1 hs.2 hok ha⟩) ⟨hj, hs⟩
  exact hboth.2

/-- The machine that refuses the actions that do not meet `ok`. -/
def guarded (step : σ → α → Option σ) (ok : σ → α → Prop) [∀ s a, Decidable (ok s a)]
    (s : σ) (a : α) : Option σ :=
  if ok s a then step s a else none

theorem guarded_eq_some [∀ s a, Decidable (ok s a)] :
    guarded step ok s a = some t ↔ ok s a ∧ step s a = some t := by
  by_cases hok : ok s a
  · simp [guarded, hok]
  · simp [guarded, hok]

/-- Takes the listed actions one after the other. -/
def exec (step : σ → α → Option σ) (s : σ) : List α → Option σ
  | [] => some s
  | a :: as => (step s a).bind fun t => exec step t as

/-- An executed trace of the guarded machine is a run whose steps all meet the guard. -/
theorem exec_guarded_run [∀ s a, Decidable (ok s a)] {as : List α}
    (h : exec (guarded step ok) s as = some t) : Run step ok s t := by
  induction as generalizing s with
  | nil =>
    cases h
    exact Run.refl _
  | cons a as ih =>
    obtain ⟨m, ha, hm⟩ := Option.bind_eq_some_iff.mp h
    obtain ⟨hok, hstep⟩ := guarded_eq_some.mp ha
    exact Run.head hok hstep (ih hm)

/-- A trace of actions that may always be taken. -/
theorem run_of_exec {l : List α} (hok : ∀ a ∈ l, ∀ s, ok s a) (h : exec step s l = some t) :
    Run step ok s t := by
  induction l generalizing s with
  | nil =>
    cases h
    exact Run.refl _
  | cons a l ih =>
    obtain ⟨m, ha, hm⟩ := Option.bind_eq_some_iff.mp h
    exact Run.head (hok a List.mem_cons_self s) ha
      (ih (fun b hb => hok b (List.mem_cons_of_mem _ hb)) hm)

/-- Operations in flight after the `k`-th became the given ones (none when it has ended). -/
def replaceAt {β : Type*} (ops : List β) (k : ℕ) (new : List β) : List β :=
  ops.eraseIdx k ++ new

theorem mem_replaceAt {β : Type*} {ops : List β} {k : ℕ} {new : List β} {op : β}
    (h : op ∈ replaceAt ops k new) : op ∈ ops ∨ op ∈ new := by
  rcases List.mem_append.mp h with h | h
  · exact Or.inl (List.mem_of_mem_eraseIdx h)
  · exact Or.inr h

@[simp] theorem replaceAt_last {β : Type*} (ops new : List β) (op : β) :
    replaceAt (ops ++ [op]) ops.length new = ops ++ new := by
  simp [replaceAt, List.eraseIdx_append_of_length_le]

/-- A trace that ends in a state with property `P`, checked by evaluation. -/
theorem exists_run_of_exec [∀ s a, Decidable (ok s a)] {P : σ → Prop} [DecidablePred P]
    {l : List α} (h : (exec (guarded step ok) s l).any (fun t => decide (P t)) = true) :
    ∃ t, Run step ok s t ∧ P t := by
  obtain ⟨t, ht, hP⟩ := (Option.any_eq_true _ _).mp h
  exact ⟨t, exec_guarded_run ht, of_decide_eq_true hP⟩

/-- The same for a trace of actions that may always be taken. -/
theorem exists_run_of_allowed {P : σ → Prop} [DecidablePred P] {l : List α}
    (hok : ∀ a ∈ l, ∀ s, ok s a)
    (h : (exec step s l).any (fun t => decide (P t)) = true) : ∃ t, Run step ok s t ∧ P t := by
  obtain ⟨t, ht, hP⟩ := (Option.any_eq_true _ _).mp h
  exact ⟨t, run_of_exec hok ht, of_decide_eq_true hP⟩

/-- A trace with a state on the way that has property `P`. -/
theorem exists_runs_of_exec [∀ s a, Decidable (ok s a)] {P Q : σ → Prop} [DecidablePred P]
    [DecidablePred Q] {l m : List α}
    (h : (exec (guarded step ok) s l).any (fun t => decide (P t) &&
      (exec (guarded step ok) t m).any fun u => decide (Q u)) = true) :
    ∃ t u, Run step ok s t ∧ P t ∧ Run step ok t u ∧ Q u := by
  obtain ⟨t, ht, hrest⟩ := (Option.any_eq_true _ _).mp h
  obtain ⟨hP, hrest⟩ := Bool.and_eq_true_iff.mp hrest
  obtain ⟨u, hu, hQ⟩ := exists_run_of_exec hrest
  exact ⟨t, u, exec_guarded_run ht, of_decide_eq_true hP, hu, hQ⟩

end Hippo.Transition
