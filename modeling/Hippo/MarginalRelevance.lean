import Hippo.Selection
import Mathlib.Algebra.Order.Field.Basic
import Mathlib.Algebra.Order.Field.Rat
import Mathlib.Analysis.Real.Sqrt
import Mathlib.Data.List.Sort

/-!
# Diversified selection

`_mmr` picks results by their score less a penalty for being similar to a pick. It keeps the
largest similarity of every remaining candidate and compares with the newest pick only. The
naive algorithm compares with every pick again. Scores and vectors are over an ordered field.
-/
namespace Hippo.MarginalRelevance

section Vectors

variable {ι K : Type} [Field K]

/-- `sum(x * y for x, y in zip(v, w))`. -/
def dot (v w : List K) : K := (List.zipWith (· * ·) v w).sum

def norm (sqrt : K → K) (v : List K) : K := sqrt (dot v v)

/-- The cosine similarity. -/
def cosine (sqrt : K → K) (v w : List K) : K := dot v w / (norm sqrt v * norm sqrt w)

/-- What is used of a square root. -/
def IsSqrt [LinearOrder K] (sqrt : K → K) : Prop := ∀ x, 0 ≤ x → 0 ≤ sqrt x ∧ sqrt x * sqrt x = x

theorem dot_cons (x y : K) (v w : List K) :
    dot (x :: v) (y :: w) = x * y + dot v w := by
  simp [dot]

theorem dot_scaled (a b : K) (v w : List K) :
    dot (v.map fun x => x / a) (w.map fun x => x / b) = dot v w / (a * b) := by
  induction v generalizing w with
  | nil => simp [dot]
  | cons x v ih =>
    cases w with
    | nil => simp [dot]
    | cons y w =>
      rw [List.map_cons, List.map_cons, dot_cons, dot_cons, ih, add_div, div_mul_div_comm]

variable [DecidableEq K] (sqrt : K → K) (vecs : ι → Option (List K))

/-- The entry of a candidate in `unit`, if it has one. -/
def unit (id : ι) : Option (List K) :=
  match vecs id with
  | none => none
  | some v => if norm sqrt v = 0 then none else some (v.map fun x => x / norm sqrt v)

end Vectors

variable {ι K : Type} [DecidableEq ι] [Field K] [LinearOrder K]

section Source

variable (sqrt : K → K) (vecs : ι → Option (List K)) (lam : K) (newest : Option (List K))

/-- The largest similarities and the best candidate so far, with its index. -/
structure Scan (ι K : Type) where
  bestSim : ι → K
  best : Option (ℕ × K) := none

/-- The similarity of a candidate, compared with the newest pick. -/
def raised (bestSim : ι → K) (id : ι) : K :=
  match newest, unit sqrt vecs id with
  | some w, some v => max (bestSim id) (dot v w)
  | _, _ => bestSim id

def relevance (bestSim : ι → K) (c : ι × K) : K := lam * c.2 - (1 - lam) * bestSim c.1

/-- The body of the inner loop. -/
def visit (st : Scan ι K) (c : (ι × K) × ℕ) : Scan ι K :=
  let bestSim := Function.update st.bestSim c.1.1 (raised sqrt vecs newest st.bestSim c.1.1)
  let mmr := relevance lam bestSim c.1
  { bestSim := bestSim
    best := if ∃ b ∈ st.best, ¬ b.2 < mmr then st.best else some (c.2, mmr) }

def scan (bestSim : ι → K) (remaining : List (ι × K)) : Scan ι K :=
  remaining.zipIdx.foldl (visit sqrt vecs lam newest) { bestSim := bestSim }

/-- The outer loop; a pick leaves one candidate less. -/
def loop (k : ℤ) : ℕ → List (ι × K) → List (ι × K) → (ι → K) → Option (List K) → List (ι × K)
  | 0, picked, _, _, _ => picked
  | fuel + 1, picked, remaining, bestSim, newest =>
    if (picked.length : ℤ) < k then
      let s := scan sqrt vecs lam newest bestSim remaining
      let i := (s.best.map Prod.fst).getD 0
      match remaining[i]? with
      | some chosen =>
        loop k fuel (picked ++ [chosen]) (remaining.eraseIdx i) s.bestSim
          (unit sqrt vecs chosen.1)
      | none => picked
    else picked

/-- `pool.sort(key=lambda x: x[1], reverse=True)`, which is stable. -/
def byScore (scored : List (ι × K)) : List (ι × K) :=
  scored.insertionSort fun a b => b.2 ≤ a.2

/-- `_mmr`. -/
def mmr (scored : List (ι × K)) (k : ℤ) : List (ι × K) :=
  if k ≤ 0 then []
  else match byScore scored with
    | [] => []
    | first :: remaining =>
      loop sqrt vecs lam k remaining.length [first] remaining (fun _ => 0)
        (unit sqrt vecs first.1)

end Source

section Naive

variable (sqrt : K → K) (vecs : ι → Option (List K)) (lam : K)

/-- The vector of a candidate, if it has one that is not zero. -/
def nonzero (id : ι) : Option (List K) := (vecs id).filter fun v => v.any (· ≠ 0)

/-- The largest similarity to a picked item, and no less than zero. -/
def penalty (picked : List (ι × K)) (id : ι) : K :=
  match nonzero vecs id with
  | none => 0
  | some v => ((picked.filterMap fun p => nonzero vecs p.1).map (cosine sqrt v)).foldl max 0

/-- The greedy algorithm that looks at all picked items in each of its rounds. -/
def naive : ℕ → List (ι × K) → List (ι × K) → List (ι × K)
  | 0, picked, _ => picked
  | rounds + 1, picked, remaining =>
    match remaining.argmax (relevance lam (penalty sqrt vecs picked)) with
    | none => picked
    | some chosen => naive rounds (picked ++ [chosen]) (remaining.erase chosen)

end Naive

section Similarity

variable [IsStrictOrderedRing K] {sqrt : K → K} {vecs : ι → Option (List K)} {v w : List K}

theorem dot_self_nonneg (v : List K) : 0 ≤ dot v v := by
  induction v with
  | nil => simp [dot]
  | cons x v ih =>
    rw [dot_cons]
    exact add_nonneg (mul_self_nonneg x) ih

theorem dot_self_eq_zero : dot v v = 0 ↔ v.any (· ≠ 0) = false := by
  induction v with
  | nil => simp [dot]
  | cons x v ih =>
    rw [dot_cons, add_eq_zero_iff_of_nonneg (mul_self_nonneg x) (dot_self_nonneg v), ih]
    simp

/-- Only a vector of zeros has the norm zero. -/
theorem norm_eq_zero (hsqrt : IsSqrt sqrt) : norm sqrt v = 0 ↔ v.any (· ≠ 0) = false := by
  rw [← dot_self_eq_zero, norm]
  obtain ⟨-, hsquare⟩ := hsqrt (dot v v) (dot_self_nonneg v)
  constructor
  · intro h
    rw [← hsquare, h, mul_zero]
  · intro h
    rw [h] at hsquare ⊢
    exact mul_self_eq_zero.mp hsquare

omit [DecidableEq ι] in
theorem unit_eq (hsqrt : IsSqrt sqrt) (id : ι) :
    unit sqrt vecs id = (nonzero vecs id).map fun v => v.map fun x => x / norm sqrt v := by
  unfold unit nonzero
  cases vecs id with
  | none => rfl
  | some v =>
    have hnorm := norm_eq_zero (v := v) hsqrt
    by_cases h : norm sqrt v = 0
    · simp only [if_pos h, Option.filter_some, hnorm.mp h]
      rfl
    · have hany : v.any (· ≠ 0) = true := by
        rw [← Bool.not_eq_false]
        exact fun hall => h (hnorm.mpr hall)
      simp only [if_neg h, Option.filter_some, hany]
      rfl

omit [DecidableEq ι] [IsStrictOrderedRing K] in
theorem penalty_nil (sqrt : K → K) (vecs : ι → Option (List K)) (id : ι) :
    penalty sqrt vecs [] id = 0 := by
  unfold penalty
  cases nonzero vecs id with
  | none => rfl
  | some v => rfl

omit [DecidableEq ι] in
/-- The comparison with the newest pick takes the largest similarity to the picks before it to
the largest similarity to all of them. -/
theorem raised_eq (hsqrt : IsSqrt sqrt) {picked : List (ι × K)} {bestSim : ι → K} {id : ι}
    (newest : ι × K) (h : bestSim id = penalty sqrt vecs picked id) :
    raised sqrt vecs (unit sqrt vecs newest.1) bestSim id =
      penalty sqrt vecs (picked ++ [newest]) id := by
  unfold raised
  rw [unit_eq hsqrt, unit_eq hsqrt, h, penalty, penalty, List.filterMap_append]
  cases hid : nonzero vecs id with
  | none => simp
  | some v =>
    cases hnewest : nonzero vecs newest.1 with
    | none => simp [hnewest]
    | some w =>
      simp only [hnewest, Option.map_some, List.filterMap_cons, List.filterMap_nil,
        List.map_append, List.map_cons, List.map_nil, List.foldl_append, List.foldl_cons,
        List.foldl_nil, dot_scaled, cosine]

end Similarity

section Rounds

variable (sqrt : K → K) (vecs : ι → Option (List K)) (lam : K) {newest : Option (List K)}
  {bestSim : ι → K} {remaining : List (ι × K)}

/-- The relevance of a candidate with its similarity to the newest pick. -/
def value (newest : Option (List K)) (bestSim : ι → K) (c : (ι × K) × ℕ) : K :=
  relevance lam (raised sqrt vecs newest bestSim) c.1

/-- The inner loop raises every similarity and finds the first best candidate. -/
theorem foldl_visit (l : List ((ι × K) × ℕ)) (hl : (l.map fun c => c.1.1).Nodup)
    (st : Scan ι K) (found : Option ((ι × K) × ℕ))
    (hsim : ∀ c ∈ l, st.bestSim c.1.1 = bestSim c.1.1)
    (hbest : st.best = found.map fun c => (c.2, value sqrt vecs lam newest bestSim c)) :
    (∀ id, (l.foldl (visit sqrt vecs lam newest) st).bestSim id =
      if id ∈ l.map (fun c => c.1.1) then raised sqrt vecs newest bestSim id
      else st.bestSim id) ∧
    (l.foldl (visit sqrt vecs lam newest) st).best =
      (l.foldl (List.argAux fun a b => value sqrt vecs lam newest bestSim b <
        value sqrt vecs lam newest bestSim a) found).map
          fun c => (c.2, value sqrt vecs lam newest bestSim c) := by
  induction l generalizing st found with
  | nil => exact ⟨fun id => by simp, hbest⟩
  | cons c l ih =>
    rw [List.map_cons, List.nodup_cons] at hl
    have hc : raised sqrt vecs newest st.bestSim c.1.1 =
        raised sqrt vecs newest bestSim c.1.1 := by
      simp only [raised, hsim c List.mem_cons_self]
    have hvalue : relevance lam (visit sqrt vecs lam newest st c).bestSim c.1 =
        value sqrt vecs lam newest bestSim c := by
      simp only [visit, relevance, value, Function.update_self, hc]
    have hsim' : ∀ d ∈ l, (visit sqrt vecs lam newest st c).bestSim d.1.1 = bestSim d.1.1 := by
      intro d hd
      have hne : d.1.1 ≠ c.1.1 := fun heq => hl.1 (heq ▸ List.mem_map_of_mem hd)
      simp only [visit, Function.update_of_ne hne]
      exact hsim d (List.mem_cons_of_mem c hd)
    have hbest' : (visit sqrt vecs lam newest st c).best =
        (List.argAux (fun a b => value sqrt vecs lam newest bestSim b <
          value sqrt vecs lam newest bestSim a) found c).map
            fun d => (d.2, value sqrt vecs lam newest bestSim d) := by
      change (if ∃ b ∈ st.best, ¬ b.2 <
        relevance lam (visit sqrt vecs lam newest st c).bestSim c.1 then st.best else
          some (c.2, relevance lam (visit sqrt vecs lam newest st c).bestSim c.1)) = _
      rw [hvalue, hbest]
      cases found with
      | none => simp [List.argAux]
      | some d =>
        by_cases hlt : value sqrt vecs lam newest bestSim d < value sqrt vecs lam newest bestSim c
        · simp [List.argAux, hlt]
        · simp [List.argAux, hlt]
    obtain ⟨hsims, hfound⟩ := ih hl.2 _ _ hsim' hbest'
    refine ⟨fun id => ?_, hfound⟩
    rw [List.foldl_cons, hsims]
    by_cases hid : id ∈ l.map fun d => d.1.1
    · simp [hid]
    · by_cases heq : id = c.1.1
      · subst heq
        simp [hid, visit, hc]
      · simp [hid, heq, visit]

/-- The choice of the inner loop, by its index and by its relevance. -/
theorem scan_best (newest : Option (List K)) (bestSim : ι → K) (hne : remaining ≠ []) (hnodup : (remaining.map Prod.fst).Nodup) :
    ∃ i chosen, (scan sqrt vecs lam newest bestSim remaining).best.map Prod.fst = some i ∧
      remaining[i]? = some chosen ∧ remaining.eraseIdx i = remaining.erase chosen ∧
      remaining.argmax (relevance lam (raised sqrt vecs newest bestSim)) = some chosen := by
  have hids : (remaining.zipIdx.map fun c => c.1.1).Nodup := by
    have hmap : (remaining.zipIdx.map fun c => c.1.1) = remaining.map Prod.fst := by
      rw [← List.zipIdx_map_fst 0 remaining, List.map_map, List.zipIdx_map_fst]
      rfl
    rwa [hmap]
  obtain ⟨-, hbest⟩ := foldl_visit sqrt vecs lam remaining.zipIdx hids
    { bestSim := bestSim } none (fun _ _ => rfl) rfl
  cases hfold : remaining.zipIdx.foldl (List.argAux fun a b =>
      value sqrt vecs lam newest bestSim b < value sqrt vecs lam newest bestSim a) none with
  | none =>
    rw [List.foldl_argAux_eq_none, List.zipIdx_eq_nil_iff] at hfold
    exact absurd hfold.1 hne
  | some c =>
    rw [hfold] at hbest
    have hselected := Selection.selected_of_foldl
      (r := fun a b => value sqrt vecs lam newest bestSim b <
        value sqrt vecs lam newest bestSim a)
      (fun a b c hab hbc => hbc.trans hab)
      (fun a b c hab hcb => lt_of_le_of_lt (not_lt.mp hcb) hab) hfold
    obtain ⟨front, back, hsplit, hfront, hback⟩ := hselected
    have hlength : front.length < remaining.zipIdx.length := by
      rw [hsplit]
      simp
    have hget : remaining.zipIdx[front.length] = c := by
      simp only [hsplit]
      simp
    have hindex : c.2 = front.length := by
      rw [← hget, List.getElem_zipIdx]
      simp
    have hsplit' : remaining = front.map Prod.fst ++ c.1 :: back.map Prod.fst := by
      rw [← List.zipIdx_map_fst 0 remaining, hsplit]
      simp
    have hmem : c.1 ∉ front.map Prod.fst := by
      have hall := hnodup.of_map
      rw [hsplit', List.nodup_append] at hall
      exact fun hc => hall.2.2 c.1 hc c.1 List.mem_cons_self rfl
    refine ⟨c.2, c.1, ?_, ?_, ?_, ?_⟩
    · rw [scan, hbest]
      rfl
    · rw [hindex, hsplit']
      simp
    · rw [hindex, hsplit', List.erase_append_right _ hmem, List.erase_cons_head]
      rw [List.eraseIdx_append_of_length_le (by simp)]
      simp
    · have hvalues : Selection.Selected (fun a b : ι × K =>
          relevance lam (raised sqrt vecs newest bestSim) b <
            relevance lam (raised sqrt vecs newest bestSim) a) remaining c.1 := by
        refine ⟨front.map Prod.fst, back.map Prod.fst, hsplit', ?_, ?_⟩
        · intro b hb
          obtain ⟨d, hd, rfl⟩ := List.mem_map.mp hb
          exact hfront d hd
        · intro b hb
          obtain ⟨d, hd, rfl⟩ := List.mem_map.mp hb
          exact hback d hd
      exact hvalues.foldl

omit [DecidableEq ι] [Field K] in
theorem argmax_congr {f g : ι × K → K} (h : ∀ c ∈ remaining, f c = g c) :
    remaining.argmax f = remaining.argmax g := by
  refine Selection.foldl_argAux_congr none (by simp) fun a ha b hb => ?_
  rw [h a ha, h b hb]

theorem bestSim_scan (newest : Option (List K)) (bestSim : ι → K) (hnodup : (remaining.map Prod.fst).Nodup) {c : ι × K} (hc : c ∈ remaining) :
    (scan sqrt vecs lam newest bestSim remaining).bestSim c.1 =
      raised sqrt vecs newest bestSim c.1 := by
  have hmap : (remaining.zipIdx.map fun c => c.1.1) = remaining.map Prod.fst := by
    rw [← List.zipIdx_map_fst 0 remaining, List.map_map, List.zipIdx_map_fst]
    rfl
  obtain ⟨hsims, -⟩ := foldl_visit sqrt vecs lam remaining.zipIdx (hmap ▸ hnodup)
    { bestSim := bestSim } none (fun _ _ => rfl) rfl
  rw [scan, hsims, hmap, if_pos (List.mem_map_of_mem hc)]

/-- The invariant of the outer loop: the similarities are those to all picks but the newest. -/
theorem loop_eq_naive [IsStrictOrderedRing K] (hsqrt : IsSqrt sqrt) (k : ℤ) (bestSim : ι → K)
    (older : List (ι × K)) (newest : ι × K) (hnodup : (remaining.map Prod.fst).Nodup)
    (hsim : ∀ c ∈ remaining, bestSim c.1 = penalty sqrt vecs older c.1) :
    loop sqrt vecs lam k remaining.length (older ++ [newest]) remaining bestSim
        (unit sqrt vecs newest.1) =
      naive sqrt vecs lam (k - (older.length + 1)).toNat (older ++ [newest]) remaining := by
  generalize hn : remaining.length = n
  induction n generalizing older newest remaining bestSim with
  | zero =>
    rw [List.length_eq_zero_iff] at hn
    subst hn
    cases (k - (older.length + 1)).toNat with
    | zero => rfl
    | succ rounds => rfl
  | succ n ih =>
    have hne : remaining ≠ [] := by
      rintro rfl
      cases hn
    by_cases hk : ((older ++ [newest]).length : ℤ) < k
    · obtain ⟨i, chosen, hbest, hget, herase, hargmax⟩ :=
        scan_best sqrt vecs lam (unit sqrt vecs newest.1) bestSim hne hnodup
      have hmem : chosen ∈ remaining := List.mem_of_getElem? hget
      have hraised : ∀ c ∈ remaining, raised sqrt vecs (unit sqrt vecs newest.1) bestSim c.1 =
          penalty sqrt vecs (older ++ [newest]) c.1 :=
        fun c hc => raised_eq hsqrt newest (hsim c hc)
      have hchoice : remaining.argmax (relevance lam (penalty sqrt vecs (older ++ [newest]))) =
          some chosen := by
        rw [← hargmax]
        refine argmax_congr fun c hc => ?_
        rw [relevance, relevance, hraised c hc]
      have hsub : ∀ c ∈ remaining.erase chosen, c ∈ remaining :=
        fun c hc => List.mem_of_mem_erase hc
      have hnodup' : ((remaining.erase chosen).map Prod.fst).Nodup :=
        hnodup.sublist (List.erase_sublist.map Prod.fst)
      have hlength : (remaining.erase chosen).length = n := by
        rw [List.length_erase_of_mem hmem]
        omega
      have hrounds : (k - (older.length + 1)).toNat =
          (k - ((older ++ [newest]).length + 1)).toNat + 1 := by
        simp only [List.length_append, List.length_singleton] at hk ⊢
        omega
      rw [loop, if_pos hk, hrounds, naive, hchoice]
      simp only [hbest, Option.getD_some, hget, herase]
      refine ih _ (older ++ [newest]) chosen hnodup' (fun c hc => ?_) hlength
      rw [bestSim_scan sqrt vecs lam _ bestSim hnodup (hsub c hc), hraised c (hsub c hc)]
    · have hrounds : (k - (older.length + 1)).toNat = 0 := by
        simp only [List.length_append, List.length_singleton] at hk
        omega
      rw [loop, if_neg hk, hrounds, naive]

/-- The picks are candidates, each at most once, as many as the rounds allow. -/
theorem naive_perm (rounds : ℕ) (picked remaining : List (ι × K)) :
    ∃ left, (naive sqrt vecs lam rounds picked remaining ++ left).Perm (picked ++ remaining) ∧
      left.length = remaining.length - rounds := by
  induction rounds generalizing picked remaining with
  | zero => exact ⟨remaining, by simp [naive], by simp⟩
  | succ rounds ih =>
    cases hchoice : remaining.argmax (relevance lam (penalty sqrt vecs picked)) with
    | none =>
      rw [List.argmax_eq_none] at hchoice
      exact ⟨[], by simp [naive, hchoice], by simp [hchoice]⟩
    | some chosen =>
      obtain ⟨left, hperm, hlength⟩ := ih (picked ++ [chosen]) (remaining.erase chosen)
      have hmem : chosen ∈ remaining := List.argmax_mem hchoice
      refine ⟨left, ?_, ?_⟩
      · rw [naive, hchoice]
        refine hperm.trans ?_
        rw [List.append_assoc, List.singleton_append]
        exact (List.perm_cons_erase hmem).symm.append_left picked
      · rw [hlength, List.length_erase_of_mem hmem]
        omega

omit [DecidableEq ι] [Field K] in
theorem perm_byScore (scored : List (ι × K)) : (byScore scored).Perm scored :=
  List.perm_insertionSort _ scored

omit [DecidableEq ι] [Field K] in
theorem pairwise_byScore (scored : List (ι × K)) :
    (byScore scored).Pairwise fun a b => b.2 ≤ a.2 := by
  have htotal : Std.Total fun a b : ι × K => b.2 ≤ a.2 := ⟨fun a b => le_total b.2 a.2⟩
  have htrans : IsTrans (ι × K) fun a b => b.2 ≤ a.2 := ⟨fun a b c hab hbc => hbc.trans hab⟩
  exact List.pairwise_insertionSort _ scored

omit [DecidableEq ι] in
/-- In the first round nothing is picked yet, and the best score wins. -/
theorem argmax_first [IsStrictOrderedRing K] (hlam : 0 ≤ lam) {first : ι × K}
    (h : ∀ c ∈ remaining, c.2 ≤ first.2) :
    (first :: remaining).argmax (relevance lam (penalty sqrt vecs [])) = some first := by
  have hselected : Selection.Selected (fun a b : ι × K =>
      relevance lam (penalty sqrt vecs []) b < relevance lam (penalty sqrt vecs []) a)
      (first :: remaining) first := by
    refine ⟨[], remaining, rfl, by simp, fun c hc => ?_⟩
    simp only [relevance, penalty_nil, mul_zero, sub_zero, not_lt]
    exact mul_le_mul_of_nonneg_left (h c hc) hlam
  exact hselected.foldl

theorem mmr_eq_naive [IsStrictOrderedRing K] (hsqrt : IsSqrt sqrt) (hlam : 0 ≤ lam)
    {scored : List (ι × K)} (hnodup : (scored.map Prod.fst).Nodup) (k : ℤ) :
    mmr sqrt vecs lam scored k = naive sqrt vecs lam k.toNat [] (byScore scored) := by
  unfold mmr
  by_cases hk : k ≤ 0
  · rw [if_pos hk, Int.toNat_of_nonpos hk, naive]
  · rw [if_neg hk]
    have hsorted := pairwise_byScore scored
    have hids : ((byScore scored).map Prod.fst).Nodup :=
      ((perm_byScore scored).map Prod.fst).nodup_iff.mpr hnodup
    have hrounds : k.toNat = (k - (([] : List (ι × K)).length + 1)).toNat + 1 := by
      simp only [List.length_nil]
      omega
    cases hpool : byScore scored with
    | nil =>
      rw [hrounds]
      rfl
    | cons first remaining =>
      rw [hpool, List.pairwise_cons] at hsorted
      rw [hpool, List.map_cons, List.nodup_cons] at hids
      have hzero : ∀ c ∈ remaining, (fun _ : ι => (0 : K)) c.1 = penalty sqrt vecs [] c.1 :=
        fun c _ => (penalty_nil sqrt vecs c.1).symm
      have hfirst := loop_eq_naive sqrt vecs lam hsqrt k (fun _ => 0) [] first hids.2 hzero
      rw [hrounds, naive, argmax_first sqrt vecs lam hlam hsorted.1]
      simp only [List.erase_cons_head]
      exact hfirst

/-- **Incremental selection is naive selection.** Over an exact ordered field the source picks
what the naive greedy algorithm picks from the candidates in the order of their scores, each at
most once, and as many as asked for. -/
theorem mmr_is_naive [IsStrictOrderedRing K] (hsqrt : IsSqrt sqrt) (hlam : 0 ≤ lam ∧ lam ≤ 1)
    (scored : List (ι × K))
    (hnodup : (scored.map Prod.fst).Nodup) (k : ℤ) :
    mmr sqrt vecs lam scored k = naive sqrt vecs lam k.toNat [] (byScore scored) ∧
      (mmr sqrt vecs lam scored k).length = min k.toNat scored.length ∧
      ((mmr sqrt vecs lam scored k).map Prod.fst).Nodup ∧
      ∀ c ∈ mmr sqrt vecs lam scored k, c ∈ scored := by
  have heq := mmr_eq_naive sqrt vecs lam hsqrt hlam.1 hnodup k
  obtain ⟨left, hperm, hleft⟩ := naive_perm sqrt vecs lam k.toNat [] (byScore scored)
  rw [List.nil_append] at hperm
  have hall := hperm.trans (perm_byScore scored)
  rw [heq]
  refine ⟨rfl, ?_, ?_, fun c hc => ?_⟩
  · have hlength := hall.length_eq
    rw [List.length_append, hleft, (perm_byScore scored).length_eq] at hlength
    omega
  · have hids := (hall.map Prod.fst).nodup_iff.mpr hnodup
    rw [List.map_append, List.nodup_append] at hids
    exact hids.1
  · exact hall.subset (List.mem_append_left left hc)

theorem isSqrt_real : IsSqrt Real.sqrt :=
  fun x hx => ⟨Real.sqrt_nonneg x, Real.mul_self_sqrt hx⟩

/-- The second candidate points where the first one does, and the third has no vector. -/
theorem mmr_is_naive_three :
    let vecs : ℕ → Option (List ℝ) := fun id => if id = 3 then none else some [1, 0]
    mmr Real.sqrt vecs (1 / 4) [(1, 3), (2, 2), (3, 1)] 2 =
        naive Real.sqrt vecs (1 / 4) 2 [] (byScore [(1, 3), (2, 2), (3, 1)]) ∧
      (mmr Real.sqrt vecs (1 / 4) [(1, 3), (2, 2), (3, 1)] 2).length = 2 := by
  intro vecs
  obtain ⟨heq, hlength, -, -⟩ := mmr_is_naive Real.sqrt vecs (1 / 4) isSqrt_real
    ⟨by norm_num, by norm_num⟩ [(1, 3), (2, 2), (3, 1)] (by decide) 2
  exact ⟨heq, hlength⟩

example : mmr (fun x : ℚ => x) (fun id => if id = 3 then none else some [1, 0]) (1 / 4)
    [(1, 3), (2, 2), (3, 1)] 2 = [(1, 3), (3, 1)] := by
  decide +kernel

end Rounds

end Hippo.MarginalRelevance
