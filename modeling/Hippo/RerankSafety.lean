import Hippo.Rerank

/-!
# What reranking returns

Every pass leaves an order of all candidates, the one of the last completed pass; what is raised
outside of the passes leaves the supplied order. Only the answer of the local model can get an error
out of `rerank_results`, by an integer that `json.loads` refuses.
-/
namespace Hippo.Rerank
open DecisionRules Jev

section Lists

variable {ε α β : Type} {f : α → Except ε β}

theorem bind_ok {x : Except ε α} {g : α → Except ε β} {b : β} :
    (x >>= g) = .ok b ↔ ∃ a, x = .ok a ∧ g a = .ok b := by
  cases x with
  | error e => simp [bind, Except.bind]
  | ok a => simp [bind, Except.bind]

theorem length_of_mapM {l : List α} {r : List β} (h : l.mapM f = .ok r) : r.length = l.length := by
  induction l generalizing r with
  | nil =>
    cases h
    rfl
  | cons a l ih =>
    rw [List.mapM_cons] at h
    obtain ⟨b, -, h⟩ := bind_ok.mp h
    obtain ⟨bs, hbs, h⟩ := bind_ok.mp h
    cases h
    simp [ih hbs]

theorem length_of_mapM_some {g : α → Option β} {l : List α} {r : List β} (h : l.mapM g = some r) :
    r.length = l.length := by
  induction l generalizing r with
  | nil =>
    cases h
    rfl
  | cons a l ih =>
    rw [List.mapM_cons] at h
    obtain ⟨b, -, h⟩ := Option.bind_eq_some_iff.mp h
    obtain ⟨bs, hbs, h⟩ := Option.bind_eq_some_iff.mp h
    cases h
    simp [ih hbs]

end Lists

section Picking

variable {results : List SearchResult} {order : List ℕ}

/-- The results in an order. -/
def reordered (results : List SearchResult) (order : List ℕ) : List SearchResult :=
  order.filterMap fun index => results[index]?

theorem reordered_range (results : List SearchResult) :
    reordered results (List.range results.length) = results := by
  induction results using List.reverseRecOn with
  | nil => rfl
  | append_singleton results r ih =>
    have hfront : (List.range results.length).filterMap (fun index => (results ++ [r])[index]?) =
        reordered results (List.range results.length) := by
      refine List.filterMap_congr fun index hindex => ?_
      exact List.getElem?_append_left (List.mem_range.mp hindex)
    rw [reordered, List.length_append, List.length_singleton, List.range_succ,
      List.filterMap_append, hfront, ih]
    simp

theorem reordered_perm (h : order.Perm (List.range results.length)) :
    (reordered results order).Perm results := by
  have hperm := h.filterMap fun index => results[index]?
  rwa [← reordered, ← reordered, reordered_range] at hperm

theorem pick_eq (h : ∀ index ∈ order, index < results.length) :
    pick results order = .ok (reordered results order) := by
  induction order with
  | nil => rfl
  | cons index order ih =>
    obtain ⟨hindex, horder⟩ := List.forall_mem_cons.mp h
    rw [pick, List.mapM_cons, ← pick, ih horder]
    simp [reordered, List.getElem?_eq_getElem hindex, bind, Except.bind, pure, Except.pure]

theorem pick_of_perm (h : order.Perm (List.range results.length)) :
    pick results order = .ok (reordered results order) :=
  pick_eq fun _ hindex => List.mem_range.mp (h.mem_iff.mp hindex)

end Picking

section LastPass

variable {n : ℕ} {passes : List PassRecord}

/-- The order of the last completed pass; the supplied one if none was completed. -/
def lastCompleted (n : ℕ) (passes : List PassRecord) : List ℕ :=
  passes.foldl (fun order record =>
    match record.status with
    | .complete next => next
    | _ => order) (List.range n)

theorem lastCompleted_complete (indices order : List ℕ) :
    lastCompleted n (passes ++ [⟨indices, .complete order⟩]) = order := by
  simp [lastCompleted, List.foldl_append]

theorem lastCompleted_requested (indices : List ℕ) :
    lastCompleted n (passes ++ [⟨indices, .requested⟩]) = lastCompleted n passes := by
  simp [lastCompleted, List.foldl_append]

theorem lastCompleted_failed (indices : List ℕ) (e : Failure) :
    lastCompleted n (passes ++ [⟨indices, .failed e⟩]) = lastCompleted n passes := by
  simp [lastCompleted, List.foldl_append]

theorem lastCompleted_markFailed (e : Failure) :
    lastCompleted n (markFailed e passes) = lastCompleted n passes := by
  unfold markFailed
  split
  · rename_i indices hlast
    rw [lastCompleted_failed, ← lastCompleted_requested indices,
      List.dropLast_append_getLast? _ hlast]
  · rfl

theorem lastCompleted_traceOf (run : Run) (ended : Next) :
    lastCompleted n (traceOf run ended).passes = lastCompleted n run.passes := by
  cases ended with
  | again => rfl
  | stop reason => rfl
  | raised e => exact lastCompleted_markFailed e

end LastPass

section Passes

variable {call : Call} {model : String} {database : Bool} {budget n : ℕ} {p : PassEnvironment}
  {run : Run}

/-- What holds between two passes. -/
structure Sound (n : ℕ) (run : Run) : Prop where
  perm : run.order.Perm (List.range n)
  signals : run.signals.length = n
  last : run.order = lastCompleted n run.passes

theorem length_renewSignals {recipe : String} {data : Value} {selected : List ℕ}
    {signals renewed : List (Option SignalRow)}
    (h : renewSignals recipe data selected signals = .ok renewed) :
    renewed.length = signals.length := by
  induction selected generalizing signals with
  | nil =>
    cases h
    rfl
  | cons index selected ih =>
    rw [renewSignals] at h
    obtain ⟨row, -, h⟩ := bind_ok.mp h
    rw [ih h, List.length_set]

/-- Composed scores order all candidates, whatever part of the signals is new. -/
theorem composeScores_perm {signals : List (Option SignalRow)} {order : List ℕ} {scores : List ℚ}
    (h : composeScores signals = .ok (order, scores)) :
    order.Perm (List.range signals.length) := by
  obtain ⟨found, hfound, h⟩ := bind_ok.mp h
  have hlength := length_of_mapM hfound
  cases h
  rw [← hlength]
  exact sortedByScore_perm scores

theorem assess_spec {questions : List Question} {order : List ℕ} {scores : List ℚ}
    {signals : List (Option SignalRow)} {judgments : List (String × ℚ)}
    (h : assess call model p questions run = .ok (order, scores, signals, judgments)) :
    order.Perm (List.range run.signals.length) ∧ signals.length = run.signals.length := by
  obtain ⟨data, -, h⟩ := bind_ok.mp h
  obtain ⟨-, -, h⟩ := bind_ok.mp h
  obtain ⟨renewed, hrenewed, h⟩ := bind_ok.mp h
  obtain ⟨composed, hcomposed, h⟩ := bind_ok.mp h
  have hlength := length_renewSignals hrenewed
  have hperm := composeScores_perm hcomposed
  dsimp only at h
  by_cases hlate : p.lateOrder
  · rw [if_pos hlate] at h
    cases h
  · rw [if_neg hlate] at h
    cases h
    exact ⟨hlength ▸ hperm, hlength⟩

variable (call model database budget p run)

/-- Refining chooses candidates and changes nothing else. -/
theorem refine_selects (passIndex : ℕ) (previous : List ℕ) (scores : List ℚ) :
    ∃ selected, (refine call database budget p passIndex previous scores run).1 =
      { run with selected := selected } := by
  unfold refine
  by_cases hsingle : ¬ call.adaptive ∨ call.recipe = "single-v1"
  · rw [if_pos hsingle]
    exact ⟨run.selected, rfl⟩
  by_cases hstable : 0 < passIndex ∧ previous = run.order
  · rw [if_neg hsingle, if_pos hstable]
    exact ⟨run.selected, rfl⟩
  by_cases hbudget : min 3 budget ≤ passIndex + 1
  · rw [if_neg hsingle, if_neg hstable, if_pos hbudget]
    exact ⟨run.selected, rfl⟩
  rw [if_neg hsingle, if_neg hstable, if_neg hbudget]
  split
  · exact ⟨run.selected, rfl⟩
  · rename_i uncertain _
    dsimp only
    generalize (if database = true ∧ uncertain ≠ [] then _ else _ :
      Except Failure (List ℕ)) = fetched
    cases fetched with
    | error e => exact ⟨[], rfl⟩
    | ok selected =>
      refine ⟨selected, ?_⟩
      dsimp only
      split_ifs <;> rfl

variable {run}

theorem Sound.onePass (h : Sound n run) (passIndex : ℕ) :
    Sound n (onePass call model database budget p passIndex run).1 := by
  unfold Rerank.onePass
  split_ifs
  · exact h
  · split
    · exact h
    · split
      · exact h
      · split
        · exact ⟨h.perm, h.signals, by rw [lastCompleted_requested]; exact h.last⟩
        · rename_i order scores signals judgments hassess
          obtain ⟨hperm, hlength⟩ := assess_spec hassess
          have hrefine := refine_selects call database budget p
            { run with
              order := order
              signals := signals
              judgments := judgments
              passes := run.passes ++ [⟨run.selected, .complete order⟩] } passIndex run.order scores
          obtain ⟨selected, hselected⟩ := hrefine
          rw [hselected]
          exact ⟨h.signals ▸ hperm, hlength.trans h.signals, (lastCompleted_complete _ _).symm⟩

theorem Sound.runPasses (h : Sound n run) (pass : ℕ → PassEnvironment) (left passIndex : ℕ) :
    Sound n (runPasses call model database budget pass left passIndex run).1 := by
  induction left generalizing run passIndex with
  | zero => exact h
  | succ left ih =>
    have hpass := h.onePass call model database budget (pass passIndex) passIndex
    rw [Rerank.runPasses]
    split
    · rename_i next heq
      rw [heq] at hpass
      exact ih hpass (passIndex + 1)
    · exact hpass

end Passes

section Deciding

variable {call : Call} {env : Environment}

/-- A client made for the call can be closed. -/
def Environment.Closes (env : Environment) : Prop := env.owned = true → env.close = .ok ()

/-- What `_fast_rerank` leaves: an order of all candidates, or an error from outside of the
passes. -/
structure Decided (n : ℕ) (closes : Prop) (decision : Except Failure (List ℕ) × Trace) : Prop where
  perm : ∀ order, decision.1 = .ok order → order.Perm (List.range n)
  last : ∀ order, decision.1 = .ok order → decision.2.fallbackReason ≠ none →
    order = lastCompleted n decision.2.passes
  outside : ∀ e, decision.1 = .error e → closes → decision.2.passes = []

theorem Decided.raised {n : ℕ} {closes : Prop} (e : Failure) : Decided n closes (.error e, {}) :=
  ⟨by simp, by simp, by simp⟩

theorem Decided.ordered {n : ℕ} {closes : Prop} {order : List ℕ} (reason : String)
    (h : order.Perm (List.range n)) :
    Decided n closes (.ok order, { stopReason := some reason }) :=
  ⟨by simpa using h, by simp, by simp⟩

theorem assessedOrder_decided (database : Bool) (budget : ℕ) :
    Decided call.results.length env.Closes (assessedOrder call env database budget) := by
  unfold assessedOrder
  extract_lets start
  have hstart : Sound call.results.length start :=
    ⟨List.Perm.refl _, by simp [start], rfl⟩
  split
  · rename_i e hclient
    refine ⟨?_, ?_, by simp⟩
    · rintro order ⟨⟩
      exact hstart.perm
    · rintro order ⟨⟩ -
      rw [lastCompleted_traceOf]
      exact hstart.last
  · rename_i model hclient
    have hrun := hstart.runPasses call model database budget env.pass (min 3 budget) 0
    split
    rename_i run ended heq
    rw [heq] at hrun
    split
    · rename_i e hclose
      refine ⟨by simp, by simp, fun _ _ hcloses => ?_⟩
      split_ifs at hclose with howned
      rw [hcloses howned] at hclose
      cases hclose
    · refine ⟨?_, ?_, by simp⟩
      · rintro order ⟨⟩
        exact hrun.perm
      · rintro order ⟨⟩ -
        rw [lastCompleted_traceOf]
        exact hrun.last

theorem length_stateCandidates {texts : List CandidateText}
    (h : stateCandidates call env = .ok texts) : texts.length = call.results.length :=
  length_of_mapM h

/-- What the rules rank, they rank as a whole. -/
theorem rank_perm {query : String} {texts : List CandidateText} {rules : List (Rule ℕ)}
    {order : List ℕ} (h : rank env.text query texts rules = some order) :
    order.Perm (List.range texts.length) := by
  obtain ⟨scores, hscores, rfl⟩ := Option.map_eq_some_iff.mp h
  rw [← length_of_mapM_some hscores]
  exact sortedByScore_perm scores

theorem fastRerank_decided :
    Decided call.results.length env.Closes (fastRerank call env) := by
  have hpreserve : (preserve call).Perm (List.range call.results.length) := List.Perm.refl _
  unfold fastRerank
  split
  · exact .raised _
  · exact .raised _
  · extract_lets decision
    by_cases hassess : decision ≠ some "assess"
    · rw [if_pos hassess]
      exact .ordered _ hpreserve
    rw [if_neg hassess]
    split
    · exact .raised _
    · exact .raised _
    · rename_i query texts _ htexts
      split
      · exact .raised _
      by_cases hrules : call.backend = "rules"
      · rw [if_pos hrules]
        split
        · exact .raised _
        · split
          · rename_i index order hrank
            exact .ordered _ (length_stateCandidates htexts ▸ rank_perm hrank)
          · exact .ordered _ hpreserve
      · rw [if_neg hrules]
        split
        · exact .raised _
        · exact assessedOrder_decided _ _

end Deciding

section Returning

variable (call : Call) (env : Environment) (py : Interpreter)

/-- The results in an order of all of them, cut to the limit. After a failure the order is the one
of the last completed pass. -/
def Reranks : Prop :=
  ∃ order : List ℕ, order.Perm (List.range call.results.length) ∧
    (reordered call.results order).Perm call.results ∧
    (rerankResults call env py).output = .ok ((reordered call.results order).take call.limit) ∧
    (env.Closes → (rerankResults call env py).trace.fallbackReason ≠ none →
      order = lastCompleted call.results.length (rerankResults call env py).trace.passes)

variable {call env py}

theorem reranks_intro {order : List ℕ} (hperm : order.Perm (List.range call.results.length))
    (hout : (rerankResults call env py).output =
      (pick call.results order).map (List.take call.limit))
    (hlast : env.Closes → (rerankResults call env py).trace.fallbackReason ≠ none →
      order = lastCompleted call.results.length (rerankResults call env py).trace.passes) :
    Reranks call env py :=
  ⟨order, hperm, reordered_perm hperm, by rw [hout, pick_of_perm hperm]; rfl, hlast⟩

theorem reranks_decided (h : call.backend ≠ "local") : Reranks call env py := by
  have hrun : rerankResults call env py = decidedResults call env := if_pos h
  have hdecided : Decided call.results.length env.Closes
      (if call.backend = "jev" ∨ call.backend = "rules" then fastRerank call env
        else (.error (.valueError "unknown reranking backend"), {})) := by
    split_ifs
    · exact fastRerank_decided
    · exact .raised _
  unfold decidedResults at hrun
  generalize (if call.backend = "jev" ∨ call.backend = "rules" then fastRerank call env
    else (.error (.valueError "unknown reranking backend"), {})) = decision at hrun hdecided
  obtain ⟨result, trace⟩ := decision
  cases result with
  | ok order =>
    refine reranks_intro (hdecided.perm order rfl) (by rw [hrun]) fun _ hfallback => ?_
    rw [hrun] at hfallback ⊢
    exact hdecided.last order rfl hfallback
  | error e =>
    have hpreserve : (preserve call).Perm (List.range call.results.length) := List.Perm.refl _
    refine reranks_intro hpreserve (by rw [hrun]) fun hcloses _ => ?_
    rw [hrun]
    show preserve call = lastCompleted call.results.length trace.passes
    rw [hdecided.outside e rfl hcloses]
    rfl

/-- The supplied order, whatever went wrong, with no pass made. -/
theorem reranks_supplied {trace : Trace} (htrace : trace.passes = [])
    (hrun : rerankResults call env py =
      { output := .ok (call.results.take call.limit), trace := trace }) :
    Reranks call env py := by
  refine ⟨List.range call.results.length, List.Perm.refl _, ?_, ?_, fun _ _ => ?_⟩
  · rw [reordered_range]
  · rw [hrun, reordered_range]
  · rw [hrun]
    show _ = lastCompleted call.results.length trace.passes
    rw [htrace]
    rfl

theorem reranks_local (h : call.backend = "local")
    (hanswer : 2 ≤ call.results.length → ∀ answer, env.chat = .ok answer → ¬ Overlong py answer) :
    Reranks call env py := by
  have hrun : rerankResults call env py = localResults call env py := if_neg (not_not.mpr h)
  unfold localResults at hrun
  by_cases hsmall : call.results.length ≤ 1
  · rw [if_pos hsmall] at hrun
    exact reranks_supplied rfl hrun
  rw [if_neg hsmall] at hrun
  cases hchat : env.chat with
  | error e =>
    rw [hchat] at hrun
    exact reranks_supplied rfl hrun
  | ok answer =>
    obtain ⟨r, hparse, hranking⟩ := parseRanking_of_not_overlong (n := call.results.length)
      (hanswer (by omega) answer hchat)
    rw [hchat] at hrun
    simp only [hparse] at hrun
    cases r with
    | none => exact reranks_supplied rfl hrun
    | some order =>
      refine reranks_intro (hranking order rfl).perm (by rw [hrun]) fun _ hfallback => ?_
      rw [hrun] at hfallback
      exact absurd rfl hfallback

theorem not_reranks_of_overlong {answer : String} (h : call.backend = "local")
    (hmany : 2 ≤ call.results.length) (hchat : env.chat = .ok answer)
    (hoverlong : Overlong py answer) : ¬ Reranks call env py := by
  rintro ⟨order, -, -, hout, -⟩
  have hrun : rerankResults call env py = localResults call env py := if_neg (not_not.mpr h)
  rw [hrun, localResults, if_neg (by omega), hchat] at hout
  simp only [parseRanking_of_overlong hoverlong] at hout
  cases hout

/-- An error gets out exactly for an answer of the local model to two or more results whose first
bracketed span comes to an integer that `json.loads` refuses. -/
theorem rerankResults_exact_iff (call : Call) (env : Environment) (py : Interpreter)
    (text : String) (n : ℕ) :
    (Reranks call env py ↔
      (call.backend = "local" → 2 ≤ call.results.length →
        ∀ answer, env.chat = .ok answer → ¬ Overlong py answer)) ∧
    ((∃ r, parseRanking py text n = .ok r ∧ ∀ order ∈ r, Ranking (namedBy py text n) n order) ↔
      ¬ Overlong py text) := by
  refine ⟨⟨fun h hlocal hmany answer hchat hoverlong => ?_, fun h => ?_⟩,
    ⟨?_, parseRanking_of_not_overlong⟩⟩
  · exact not_reranks_of_overlong hlocal hmany hchat hoverlong h
  · by_cases hlocal : call.backend = "local"
    · exact reranks_local hlocal (h hlocal)
    · exact reranks_decided hlocal
  · rintro ⟨r, hr, -⟩ hoverlong
    rw [parseRanking_of_overlong hoverlong] at hr
    cases hr

/-- A local model that answers, and no provider. -/
def answering (answer : String) : Environment where
  chat := .ok answer
  inBudget := true
  stateText := .ok
  text := ⟨id, fun _ => []⟩
  rules := .ok []
  database := .ok false
  client := .error (.raised "JevError")
  owned := true
  close := .ok ()
  pass := fun _ => ⟨false, .ok (), .error (.raised "JevError"), false, .ok [], false, false⟩

/-- Digits are those of ASCII, and no answer has a float. -/
def asciiInterpreter : Interpreter where
  isDecimal := fun _ => false
  floatInteger := fun _ => none

/-- A model that answers one integer of 4301 digits. -/
theorem long_integer_gets_out :
    let answer := String.ofList ('[' :: (List.replicate 4301 '1' ++ [']']))
    ¬ Reranks ⟨"why", [⟨"a", "one", "", ""⟩, ⟨"b", "two", "", ""⟩], 2, "local", false, .int 2000,
        "multi-v1", .int 4⟩ (answering answer) asciiInterpreter ∧
      ¬ ∃ r, parseRanking asciiInterpreter answer 2 = .ok r ∧
        ∀ order ∈ r, Ranking (namedBy asciiInterpreter answer 2) 2 order := by
  intro answer
  have hoverlong : Overlong asciiInterpreter answer :=
    overlong_ones rfl (by decide) (show 4300 < 4301 by decide)
  refine ⟨not_reranks_of_overlong rfl (Nat.le_refl 2) rfl hoverlong, ?_⟩
  rintro ⟨r, hr, -⟩
  rw [parseRanking_of_overlong hoverlong] at hr
  cases hr

end Returning

end Hippo.Rerank
