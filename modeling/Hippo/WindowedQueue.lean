import Mathlib.Data.List.Nodup
import Mathlib.Data.List.Count
import Mathlib.Data.List.TakeWhile

/-!
# Queues served through a window

In each round only the first `window` items of a queue are looked at, and of those the first
`batch` that are ready leave it. Items that are not ready stay where they are and take up the
window. Whether an item is ready may change from round to round.
-/
namespace Hippo.WindowedQueue

variable {α : Type} [DecidableEq α] (window batch : ℕ)

/-- The items that leave the queue in a round. -/
def served (ready : α → Bool) (items : List α) : List α :=
  ((items.take window).filter ready).take batch

/-- The queue after a round. -/
def round (ready : α → Bool) (items : List α) : List α :=
  items.filter fun a => a ∉ served window batch ready items

/-- The queue after a number of rounds. -/
def rounds (ready : ℕ → α → Bool) (items : List α) : ℕ → List α
  | 0 => items
  | t + 1 => round window batch (ready t) (rounds ready items t)

/-- The items in front of one. -/
def ahead (x : α) (items : List α) : List α :=
  items.takeWhile fun a => a ≠ x

variable {window batch} {ready : α → Bool} {items : List α} {x : α}

theorem ahead_append (h : x ∈ items) : ∃ rest, items = ahead x items ++ x :: rest := by
  induction items with
  | nil => cases h
  | cons a items ih =>
    by_cases ha : a = x
    · exact ⟨items, by simp [ahead, ha]⟩
    · obtain ⟨rest, hrest⟩ := ih ((List.mem_cons.mp h).resolve_left fun hx => ha hx.symm)
      refine ⟨rest, ?_⟩
      have hcons : ahead x (a :: items) = a :: ahead x items := by simp [ahead, ha]
      rw [hcons, List.cons_append, ← hrest]

theorem ahead_filter {p : α → Bool} (hx : p x = true) :
    ahead x (items.filter p) = (ahead x items).filter p := by
  induction items with
  | nil => rfl
  | cons a items ih =>
    by_cases ha : a = x
    · subst ha
      simp [ahead, hx]
    · have hcons : ahead x (a :: items) = a :: ahead x items := by simp [ahead, ha]
      by_cases hp : p a = true
      · rw [List.filter_cons_of_pos hp, hcons, List.filter_cons_of_pos hp, ← ih]
        simp [ahead, ha]
      · rw [List.filter_cons_of_neg hp, hcons, List.filter_cons_of_neg hp, ih]

omit [DecidableEq α] in
theorem served_subset {a : α} (h : a ∈ served window batch ready items) :
    a ∈ items ∧ ready a = true := by
  have hfilter := List.mem_filter.mp (List.mem_of_mem_take h)
  exact ⟨List.mem_of_mem_take hfilter.1, hfilter.2⟩

theorem mem_round {a : α} : a ∈ round window batch ready items ↔
    a ∈ items ∧ a ∉ served window batch ready items := by
  simp [round]

theorem nodup_round (h : items.Nodup) : (round window batch ready items).Nodup :=
  h.filter _

theorem length_round (h : items.Nodup) : (round window batch ready items).length +
    (served window batch ready items).length = items.length := by
  have hserved : (items.filter fun a => a ∈ served window batch ready items).Perm
      (served window batch ready items) := by
    apply (List.perm_ext_iff_of_nodup (h.filter _) _).mpr
    · intro a
      simp only [List.mem_filter, decide_eq_true_eq]
      exact ⟨And.right, fun ha => ⟨(served_subset ha).1, ha⟩⟩
    · exact ((h.sublist (List.take_sublist _ _)).filter _).sublist (List.take_sublist _ _)
  have hsplit := List.length_eq_countP_add_countP (l := items)
    (p := fun a => decide (a ∈ served window batch ready items))
  have hrest : (round window batch ready items).length =
      items.countP fun a => decide ¬ decide (a ∈ served window batch ready items) = true := by
    rw [round, ← List.countP_eq_length_filter]
    congr 1
    funext a
    simp
  rw [hrest, ← hserved.length_eq, ← List.countP_eq_length_filter]
  omega

/-- A ready item leaves, unless the items in front of it fill the round: a full batch, or as
many as the window has room for beside those that are not ready. -/
theorem served_or_crowded (hx : x ∈ items) (hready : ready x = true) :
    x ∈ served window batch ready items ∨
      min batch (window - (ahead x items).countP fun a => !ready a) ≤
        (served window batch ready items).length := by
  obtain ⟨rest, hitems⟩ := ahead_append hx
  generalize ahead x items = front at hitems
  have hcount := List.length_eq_countP_add_countP (p := ready) (l := front)
  by_cases hroom : front.length < window
  · obtain ⟨k, hk⟩ : ∃ k, window = front.length + (k + 1) := ⟨window - front.length - 1, by omega⟩
    have htake : items.take window = front ++ x :: rest.take k := by
      rw [hitems, hk, List.take_length_add_append, List.take_succ_cons]
    by_cases hfull : (front.filter ready).length < batch
    · left
      obtain ⟨j, hj⟩ : ∃ j, batch = (front.filter ready).length + (j + 1) :=
        ⟨batch - (front.filter ready).length - 1, by omega⟩
      rw [served, htake, List.filter_append, List.filter_cons_of_pos hready, hj,
        List.take_length_add_append, List.take_succ_cons]
      simp
    · right
      rw [served, htake, List.filter_append, List.length_take, List.length_append]
      omega
  · right
    have htake : items.take window = front.take window := by
      rw [hitems, List.take_append_of_le_length (by omega)]
    have hwindow : (front.take window).length = window := by
      rw [List.length_take]
      omega
    have hsplit := List.length_eq_countP_add_countP (p := ready) (l := front.take window)
    have hle : (front.take window).countP (fun a => !ready a) ≤
        front.countP fun a => !ready a :=
      (List.take_sublist _ _).countP_le
    have hneg : (front.take window).countP (fun a => decide ¬ ready a = true) =
        (front.take window).countP fun a => !ready a := by
      congr 1
      funext a
      cases ready a <;> rfl
    rw [served, htake, List.length_take, ← List.countP_eq_length_filter]
    omega

theorem nodup_rounds {ready : ℕ → α → Bool} (h : items.Nodup) (t : ℕ) :
    (rounds window batch ready items t).Nodup := by
  induction t with
  | zero => exact h
  | succ t ih => exact nodup_round ih

theorem rounds_add (ready : ℕ → α → Bool) (s t : ℕ) : rounds window batch ready items (s + t) =
    rounds window batch (fun u => ready (s + u)) (rounds window batch ready items s) t := by
  induction t with
  | zero => rfl
  | succ t ih => rw [← Nat.add_assoc, rounds, ih, rounds]

/-- What is in front of an item only loses items. -/
theorem ahead_rounds {ready : ℕ → α → Bool} {t : ℕ}
    (h : x ∈ rounds window batch ready items t) :
    (ahead x (rounds window batch ready items t)).Sublist (ahead x items) := by
  induction t with
  | zero => exact List.Sublist.refl _
  | succ t ih =>
    obtain ⟨hbefore, hkept⟩ := mem_round.mp h
    rw [rounds, round, ahead_filter (by simpa using hkept)]
    exact List.filter_sublist.trans (ih hbefore)

/-- A ready item with few unready ones in front of it leaves: the items that leave before it are
at least `min batch (window - blocked)` in each round. -/
theorem rounds_progress {ready : ℕ → α → Bool} {t : ℕ} (blocked : ℕ) (hnodup : items.Nodup)
    (hready : ∀ u, ready u x = true)
    (hblocked : ∀ u, (ahead x items).countP (fun a => !ready u a) ≤ blocked)
    (hmem : x ∈ rounds window batch ready items t) :
    (rounds window batch ready items t).length + t * min batch (window - blocked) ≤
      items.length := by
  induction t with
  | zero => simp [rounds]
  | succ t ih =>
    obtain ⟨hbefore, hkept⟩ := mem_round.mp hmem
    have hprev := ih hbefore
    have hrounds : (rounds window batch ready items t).Nodup := nodup_rounds hnodup t
    have hlength : (round window batch (ready t) (rounds window batch ready items t)).length +
        (served window batch (ready t) (rounds window batch ready items t)).length =
          (rounds window batch ready items t).length := length_round hrounds
    have hahead : (ahead x (rounds window batch ready items t)).countP (fun a => !ready t a) ≤
        blocked := (ahead_rounds hbefore).countP_le.trans (hblocked t)
    have hserved : min batch (window - (ahead x (rounds window batch ready items t)).countP
        fun a => !ready t a) ≤
          (served window batch (ready t) (rounds window batch ready items t)).length :=
      (served_or_crowded hbefore (hready t)).resolve_left hkept
    rw [rounds, Nat.succ_mul]
    omega

/-- An item with a window full of items in front of it that are never ready stays. -/
theorem rounds_starve {ready : ℕ → α → Bool} (stuck : α → Bool)
    (hstuck : ∀ u a, stuck a = true → ready u a = false) (hmem : x ∈ items)
    (hfull : window ≤ (ahead x items).countP stuck) (t : ℕ) :
    x ∈ rounds window batch ready items t := by
  have hboth : x ∈ rounds window batch ready items t ∧
      window ≤ (ahead x (rounds window batch ready items t)).countP stuck := by
    induction t with
    | zero => exact ⟨hmem, hfull⟩
    | succ t ih =>
      obtain ⟨hbefore, hwindow⟩ := ih
      obtain ⟨rest, hrest⟩ := ahead_append hbefore
      have hlength : window ≤ (ahead x (rounds window batch ready items t)).length :=
        hwindow.trans List.countP_le_length
      have hkept : x ∉ served window batch (ready t) (rounds window batch ready items t) := by
        intro hx
        have htake := (List.mem_filter.mp (List.mem_of_mem_take hx)).1
        rw [hrest, List.take_append_of_le_length hlength] at htake
        have hself := List.mem_takeWhile_imp (List.mem_of_mem_take htake)
        simp at hself
      refine ⟨mem_round.mpr ⟨hbefore, hkept⟩, ?_⟩
      rw [rounds, round, ahead_filter (by simpa using hkept), List.countP_filter]
      refine hwindow.trans (List.countP_mono_left fun a _ ha => ?_)
      have hnot : a ∉ served window batch (ready t) (rounds window batch ready items t) := by
        intro hserved
        have := (served_subset hserved).2
        rw [hstuck t a ha] at this
        cases this
      simp [ha, hnot]
  exact hboth.1

end Hippo.WindowedQueue
