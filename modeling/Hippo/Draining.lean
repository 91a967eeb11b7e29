import Hippo.Transition
import Mathlib.Order.WellFounded

/-!
# Work that runs out

Endless runs of a machine whose actions are either work or not. When a rank into a well-founded
order never grows and every action of work lowers it, a run works finitely often, and a run in
which pending work is taken up sooner or later ends with none pending.
-/
namespace Hippo.Draining

open Transition

variable {σ α β : Type*} {step : σ → α → Option σ} {ok : σ → α → Prop} {s t : σ}

/-- A run without an end, all of whose steps meet `ok`. -/
structure Endless (step : σ → α → Option σ) (ok : σ → α → Prop) where
  state : ℕ → σ
  act : ℕ → α
  meets : ∀ n, ok (state n) (act n)
  next : ∀ n, step (state n) (act n) = some (state (n + 1))

namespace Endless

variable (r : Endless step ok)

theorem run_add (n k : ℕ) : Run step ok (r.state n) (r.state (n + k)) := by
  induction k with
  | zero => exact Run.refl _
  | succ k ih => exact ih.trans (Run.single (r.meets (n + k)) (r.next (n + k)))

theorem run (n : ℕ) : Run step ok (r.state 0) (r.state n) := by
  simpa using r.run_add 0 n

/-- Pending work is taken up at some later point of the run. -/
def Fair (work : α → Prop) (busy : σ → Prop) : Prop :=
  ∀ n, busy (r.state n) → ∃ m, n ≤ m ∧ work (r.act m)

/-- What every step preserves holds all along a run. -/
theorem always {I : σ → Prop} (hstep : ∀ s a t, I s → ok s a → step s a = some t → I t)
    (h : I (r.state 0)) (n : ℕ) : I (r.state n) :=
  (r.run n).invariant hstep h

variable [Preorder β] {rank : σ → β} {work : α → Prop} {busy : σ → Prop}

theorem rank_antitone (hle : ∀ n, rank (r.state (n + 1)) ≤ rank (r.state n)) {n m : ℕ}
    (h : n ≤ m) : rank (r.state m) ≤ rank (r.state n) :=
  antitone_nat_of_succ_le (f := fun n => rank (r.state n)) hle h

variable [WellFoundedLT β]

theorem works_finitely (hle : ∀ n, rank (r.state (n + 1)) ≤ rank (r.state n))
    (hlt : ∀ n, work (r.act n) → rank (r.state (n + 1)) < rank (r.state n)) :
    ∃ N, ∀ n, N ≤ n → ¬ work (r.act n) := by
  -- a point of the run where the rank is least: work after it would go below
  obtain ⟨least, ⟨N, rfl⟩, hmin⟩ :=
    WellFounded.has_min (wellFounded_lt (α := β)) (Set.range fun n => rank (r.state n))
      ⟨_, 0, rfl⟩
  refine ⟨N, fun n hn hw => hmin (rank (r.state (n + 1))) ⟨n + 1, rfl⟩ ?_⟩
  exact lt_of_lt_of_le (hlt n hw) (r.rank_antitone hle hn)

/-- A fair run drains, and stays drained where work does not come up by itself. -/
theorem drains (hle : ∀ n, rank (r.state (n + 1)) ≤ rank (r.state n))
    (hlt : ∀ n, work (r.act n) → rank (r.state (n + 1)) < rank (r.state n))
    (hfair : r.Fair work busy) : ∃ N, ∀ n, N ≤ n → ¬ busy (r.state n) := by
  obtain ⟨N, hN⟩ := r.works_finitely hle hlt
  refine ⟨N, fun n hn hb => ?_⟩
  obtain ⟨m, hm, hw⟩ := hfair n hb
  exact hN m (by omega) hw

end Endless

end Hippo.Draining
