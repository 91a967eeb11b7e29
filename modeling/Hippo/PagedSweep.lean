import Mathlib.Data.List.Pairwise
import Mathlib.Data.List.Sort
import Mathlib.Data.List.TakeDrop
import Mathlib.Order.Basic

/-!
# Sweeps by pages

A sweep reads the rows that it still has to visit in the order of their keys, at most `size` of
them at a time, works on each, and goes on behind the last key it has read. It ends with a page
that is not full. Rows it has to skip are read too, so they cannot hold it up.
-/
namespace Hippo

section Rows

variable {κ ρ : Type*} [LinearOrder κ]

/-- `ORDER BY` the key. -/
def sortedRows (l : List (κ × ρ)) : List (κ × ρ) := l.insertionSort fun a b => a.1 ≤ b.1

@[simp] theorem mem_sortedRows {l : List (κ × ρ)} {r : κ × ρ} : r ∈ sortedRows l ↔ r ∈ l :=
  List.mem_insertionSort _

@[simp] theorem length_sortedRows (l : List (κ × ρ)) : (sortedRows l).length = l.length :=
  List.length_insertionSort _ _

theorem sortedRows_pairwise {l : List (κ × ρ)} (h : (l.map Prod.fst).Nodup) :
    (sortedRows l).Pairwise fun a b => a.1 < b.1 := by
  have hle : (sortedRows l).Pairwise fun a b => a.1 ≤ b.1 := List.pairwise_insertionSort _ l
  have hne : (sortedRows l).Pairwise fun a b => a.1 ≠ b.1 := by
    have hnodup : ((sortedRows l).map Prod.fst).Nodup :=
      ((List.perm_insertionSort _ l).map Prod.fst).nodup_iff.mpr h
    exact List.pairwise_map.mp hnodup
  exact hle.imp₂ (fun _ _ h h' => lt_of_le_of_ne h h') hne

/-- The order of a selection is that of the whole. -/
theorem filter_sortedRows {l : List (κ × ρ)} (h : (l.map Prod.fst).Nodup) (p : κ × ρ → Bool) :
    (sortedRows l).filter p = sortedRows (l.filter p) := by
  have hnodup : ((l.filter p).map Prod.fst).Nodup := h.sublist (List.filter_sublist.map _)
  have hperm : ((sortedRows l).filter p).Perm (sortedRows (l.filter p)) :=
    ((List.perm_insertionSort _ l).filter p).trans (List.perm_insertionSort _ _).symm
  have hsorted := (sortedRows_pairwise h).filter p
  have hsorted' := sortedRows_pairwise hnodup
  refine hperm.eq_of_pairwise ?_ hsorted hsorted'
  intro a b _ _ hab hba
  exact absurd hba hab.asymm

end Rows

/-- `rows` are the rows to visit in a state, `act` is the work on one of them, and `check` is what
every page is checked against first. A cursor has the rows at or behind it still to visit. -/
structure PagedSweep (σ κ ρ γ ε π : Type) where
  size : ℕ
  check : σ → Except ε π
  rows : σ → List (κ × ρ)
  behind : γ → κ → Bool
  next : κ → Option γ
  act : π → σ → κ × ρ → σ

namespace PagedSweep

variable {σ κ ρ γ ε π : Type} (sw : PagedSweep σ κ ρ γ ε π)

def page (cursor : γ) (s : σ) : List (κ × ρ) :=
  ((sw.rows s).filter fun r => sw.behind cursor r.1).take sw.size

/-- `none` when the fuel runs out. The pages before an error stay done. -/
def run : ℕ → γ → σ → Option (Except ε Unit × σ)
  | 0, _, _ => none
  | fuel + 1, cursor, s =>
    match sw.check s with
    | .error e => some (.error e, s)
    | .ok p =>
      let rows := sw.page cursor s
      let s' := rows.foldl (sw.act p) s
      if rows.length < sw.size then some (.ok (), s')
      else
        match rows.getLast?.bind fun r => sw.next r.1 with
        | none => some (.ok (), s')
        | some cursor => run fuel cursor s'

/-- The rows are read in the order of their keys, the work on a row does not touch the rows behind
it, and the next cursor is just behind the last key. -/
structure Lawful [LinearOrder κ] (p : π) : Prop where
  size_pos : 0 < sw.size
  check_act : ∀ s r, sw.check s = .ok p → sw.check (sw.act p s r) = .ok p
  sorted : ∀ s, (sw.rows s).Pairwise fun r r' => r.1 < r'.1
  behind_mono : ∀ c j k, sw.behind c j = true → j ≤ k → sw.behind c k = true
  next_behind : ∀ c k j, sw.next k = some c → (sw.behind c j = true ↔ k < j)
  next_none : ∀ s r k, sw.next k = none → r ∈ sw.rows s → r.1 ≤ k
  rows_act : ∀ s r,
    (sw.rows (sw.act p s r)).filter (fun r' => r.1 < r'.1) =
      (sw.rows s).filter (fun r' => r.1 < r'.1)

section Sorted

variable [LinearOrder κ] {l l' : List (κ × ρ)} {r : κ × ρ}

/-- In a sorted list the rows behind the last one of a front part are the rest. -/
theorem filter_last_lt (h : (l ++ l').Pairwise fun r r' => r.1 < r'.1) (hr : l.getLast? = some r) :
    (l ++ l').filter (fun r' => r.1 < r'.1) = l' := by
  obtain ⟨front, rfl⟩ := List.getLast?_eq_some_iff.mp hr
  have hfront : ∀ r' ∈ front ++ [r], ¬ r.1 < r'.1 := by
    intro r' hr'
    rcases List.mem_append.mp hr' with hold | hlast
    · have hsorted := (List.pairwise_append.mp h).1
      exact (((List.pairwise_append.mp hsorted).2.2 r' hold r (List.mem_singleton.mpr rfl)).asymm)
    · rw [List.mem_singleton.mp hlast]
      exact lt_irrefl r.1
  have hrest : ∀ r' ∈ l', r.1 < r'.1 := fun r' hr' =>
    (List.pairwise_append.mp h).2.2 r (by simp) r' hr'
  rw [List.filter_append]
  have hnone : (front ++ [r]).filter (fun r' => decide (r.1 < r'.1)) = [] := by
    rw [List.filter_eq_nil_iff]
    intro r' hr'
    simpa using hfront r' hr'
  have hall : l'.filter (fun r' => decide (r.1 < r'.1)) = l' := by
    rw [List.filter_eq_self]
    intro r' hr'
    simpa using hrest r' hr'
  rw [hnone, hall, List.nil_append]

end Sorted

section Laws

variable [LinearOrder κ] {sw} {p : π} {s : σ} {cursor : γ}

theorem Lawful.check_foldl (h : sw.Lawful p) (hcheck : sw.check s = .ok p) (l : List (κ × ρ)) :
    sw.check (l.foldl (sw.act p) s) = .ok p := by
  induction l generalizing s with
  | nil => exact hcheck
  | cons r l ih => exact ih (h.check_act s r hcheck)

/-- The rows behind all those worked on are as they were. -/
theorem Lawful.rows_foldl (h : sw.Lawful p) {k : κ} (l : List (κ × ρ)) (hl : ∀ r ∈ l, r.1 ≤ k) :
    (sw.rows (l.foldl (sw.act p) s)).filter (fun r => k < r.1) =
      (sw.rows s).filter (fun r => k < r.1) := by
  induction l generalizing s with
  | nil => rfl
  | cons r l ih =>
    have hr : r.1 ≤ k := hl r List.mem_cons_self
    have hnarrow : ∀ l' : List (κ × ρ), l'.filter (fun r' => k < r'.1) =
        (l'.filter fun r' => r.1 < r'.1).filter fun r' => k < r'.1 := by
      intro l'
      rw [List.filter_filter]
      apply List.filter_congr
      intro r' _
      by_cases hk : k < r'.1
      · simp [hk, hr.trans_lt hk]
      · simp [hk]
    rw [List.foldl_cons, ih fun r' hr' => hl r' (List.mem_cons_of_mem _ hr')]
    rw [hnarrow (sw.rows (sw.act p s r)), h.rows_act s r, ← hnarrow (sw.rows s)]

/-- With enough fuel a sweep works on every row at or behind its cursor, in order and once. -/
theorem Lawful.run_eq (h : sw.Lawful p) (hcheck : sw.check s = .ok p) {fuel : ℕ}
    (hfuel : ((sw.rows s).filter fun r => sw.behind cursor r.1).length < fuel) :
    sw.run fuel cursor s =
      some (.ok (), ((sw.rows s).filter fun r => sw.behind cursor r.1).foldl (sw.act p) s) := by
  induction fuel generalizing cursor s with
  | zero => omega
  | succ fuel ih =>
    generalize hl : ((sw.rows s).filter fun r => sw.behind cursor r.1) = l at hfuel
    have hsorted : l.Pairwise fun r r' => r.1 < r'.1 := hl ▸ (h.sorted s).filter _
    have hpage : sw.page cursor s = l.take sw.size := by rw [page, hl]
    simp only [run, hcheck, hpage]
    by_cases hfull : (l.take sw.size).length < sw.size
    · have hall : l.take sw.size = l := by
        apply List.take_of_length_le
        rw [List.length_take] at hfull
        omega
      rw [if_pos hfull, hall]
    · rw [if_neg hfull]
      have hpos := h.size_pos
      have hlong : sw.size ≤ l.length := by
        rw [List.length_take] at hfull
        omega
      cases hlast : (l.take sw.size).getLast? with
      | none =>
        rw [List.getLast?_eq_none_iff] at hlast
        rw [hlast, List.length_nil] at hfull
        omega
      | some r =>
        have happend : l.take sw.size ++ l.drop sw.size = l := List.take_append_drop _ _
        have hbound : ∀ r' ∈ l.take sw.size, r'.1 ≤ r.1 := by
          obtain ⟨front, hfront⟩ := List.getLast?_eq_some_iff.mp hlast
          have hsorted' : (front ++ [r]).Pairwise fun r r' => r.1 < r'.1 := by
            rw [← hfront]
            exact hsorted.sublist (List.take_sublist _ _)
          intro r' hr'
          rw [hfront] at hr'
          rcases List.mem_append.mp hr' with hold | hsame
          · exact ((List.pairwise_append.mp hsorted').2.2 r' hold r (by simp)).le
          · rw [List.mem_singleton.mp hsame]
        have hmem : r ∈ l := by
          rw [← happend]
          exact List.mem_append_left _ (List.mem_of_getLast? hlast)
        have hbehind : sw.behind cursor r.1 = true := by
          rw [← hl] at hmem
          exact (List.mem_filter.mp hmem).2
        -- what is still to visit is the rest of the list
        have hrest : (sw.rows s).filter (fun r' => r.1 < r'.1) = l.drop sw.size := by
          have hgt : (sw.rows s).filter (fun r' => r.1 < r'.1) = l.filter fun r' => r.1 < r'.1 := by
            rw [← hl, List.filter_filter]
            apply List.filter_congr
            intro r' _
            by_cases hk : r.1 < r'.1
            · simp [hk, h.behind_mono cursor r.1 r'.1 hbehind hk.le]
            · simp [hk]
          rw [hgt]
          have hsplit := hsorted
          rw [← happend] at hsplit
          have htail := filter_last_lt hsplit hlast
          rwa [happend] at htail
        have hfold : l.foldl (sw.act p) s =
            (l.drop sw.size).foldl (sw.act p) ((l.take sw.size).foldl (sw.act p) s) := by
          rw [← List.foldl_append, happend]
        simp only [Option.bind_some]
        cases hnext : sw.next r.1 with
        | none =>
          have hdone : l.drop sw.size = [] := by
            rw [← hrest, List.filter_eq_nil_iff]
            intro r' hr'
            simpa using h.next_none s r' r.1 hnext hr'
          simp only
          rw [hfold, hdone, List.foldl_nil]
        | some cursor' =>
          have hleft : ((sw.rows ((l.take sw.size).foldl (sw.act p) s)).filter
              fun r' => sw.behind cursor' r'.1) = l.drop sw.size := by
            rw [← hrest, ← h.rows_foldl (s := s) (l.take sw.size) hbound]
            apply List.filter_congr
            intro r' _
            have hiff := h.next_behind cursor' r.1 r'.1 hnext
            by_cases hk : r.1 < r'.1
            · simp [hk, hiff.mpr hk]
            · simp [hk, Bool.eq_false_iff.mpr fun hb => hk (hiff.mp hb)]
          have hlength : (l.drop sw.size).length < fuel := by
            rw [List.length_drop]
            omega
          simp only
          rw [ih (h.check_foldl hcheck _) (by rw [hleft]; exact hlength), hleft, hfold]

end Laws

end PagedSweep

end Hippo
