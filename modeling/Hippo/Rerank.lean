import Hippo.DecisionRules
import Hippo.JevResponse
import Hippo.RankingText

/-!
# Reranking of search results

`rerank_results` orders the results it is given: by the answer of a local model, by assessments of
a provider in at most three passes, or by rules. What happens outside of it (the answers, the
failures and whether the deadline has come) is an `Environment`. Times are read at the places where
the source reads them.
-/
namespace Hippo.Rerank
open DecisionRules Jev

section Questions

def rubric : List String :=
  ["Unrelated, wrong project, or contains no useful evidence for this query.",
    "Related background, but does not answer the specific question.",
    "Provides part of the answer, but lacks an essential requested detail.",
    "Directly answers the question or explicitly corrects its false premise."]

/-- `_SIGNALS` -/
def signalCriteria : List (String × List String) :=
  [("relevance", rubric),
    ("evidence",
      ["No usable support for the requested answer.",
        "Mentions the subject without showing what happened or why.",
        "Provides concrete evidence for part of the requested answer.",
        "Provides explicit evidence establishing the requested answer or correcting its premise."]),
    ("scope_fit",
      ["Contradicts the project, entity, task, or applicable time expressed in the query.",
        "Scope is unspecified or only loosely related to the requested task.",
        "Matches most requested scope but leaves an important qualifier unresolved.",
        "Matches the requested project, entity, task, and applicable time where specified."])]

def singleKey (index : ℕ) : String := "candidate_" ++ toString index

def signalKey (index : ℕ) (signal : String) : String := singleKey index ++ "_" ++ signal

/-- The questions about one candidate. -/
def questionsOf (recipe : String) (index : ℕ) : List Question :=
  if recipe = "single-v1" then [⟨singleKey index, rubric⟩]
  else signalCriteria.map fun s => ⟨signalKey index s.1, s.2⟩

/-- `build_jev_questions`. -/
def buildJevQuestions (count : ℕ) (recipe : String) (selected : List ℕ) :
    Except Failure (List Question) :=
  if recipe ≠ "single-v1" ∧ recipe ≠ "multi-v1" then
    .error (.valueError "unsupported ranking recipe")
  else if ¬ (selected.Nodup ∧ ∀ i ∈ selected, i < count) then
    .error (.valueError "invalid candidate indices")
  else .ok (selected.flatMap (questionsOf recipe))

end Questions

section Scores

/-- The signals of one candidate, each in thirds of its rubric. -/
structure SignalRow where
  relevance : ℚ
  evidence : ℚ
  scopeFit : ℚ
deriving DecidableEq, Repr

/-- The score of a row with `WEIGHTS`. -/
def SignalRow.score (row : SignalRow) : Except Failure ℚ := do
  let relevance ← number (.float row.relevance) 0 1
  let evidence ← number (.float row.evidence) 0 1
  let scopeFit ← number (.float row.scopeFit) 0 1
  .ok (50 / 100 * relevance + 35 / 100 * evidence + 15 / 100 * scopeFit)

/-- `compose_scores`. A candidate without signals has no key to read. -/
def composeScores (signals : List (Option SignalRow)) : Except Failure (List ℕ × List ℚ) := do
  let scores ← signals.mapM fun row =>
    match row with
    | some row => row.score
    | none => .error (.raised "KeyError")
  .ok (sortedByScore scores, scores)

/-- A number of an answer. -/
def answerNumber (data : Value) (key name : String) : Except Failure ℚ :=
  match ((data.get "answers").get key).get name with
  | .int n => .ok n
  | .float q => .ok q
  | _ => .error (.raised "KeyError")

/-- The signals an answer gives a candidate. -/
def readRow (recipe : String) (data : Value) (index : ℕ) : Except Failure SignalRow :=
  if recipe = "single-v1" then do
    let score ← answerNumber data (singleKey index) "score"
    .ok ⟨score / 3, score / 3, score / 3⟩
  else do
    let relevance ← answerNumber data (signalKey index "relevance") "score"
    let evidence ← answerNumber data (signalKey index "evidence") "score"
    let scopeFit ← answerNumber data (signalKey index "scope_fit") "score"
    .ok ⟨relevance / 3, evidence / 3, scopeFit / 3⟩

/-- The signals with those of the selected candidates renewed. -/
def renewSignals (recipe : String) (data : Value) :
    List ℕ → List (Option SignalRow) → Except Failure (List (Option SignalRow))
  | [], signals => .ok signals
  | index :: selected, signals => do
    let row ← readRow recipe data index
    renewSignals recipe data selected (signals.set index (some row))

/-- The candidates near the cut, or far up, that are uncertain or close to another one. -/
def ambiguous (order : List ℕ) (scores : List ℚ) (judgments : List (String × ℚ)) (recipe : String) :
    Except Failure (List ℕ) := do
  let boundary := min 4 (order.length - 1)
  let shortlist := (order.take 1 ++
    (order.drop (boundary - 2)).take (boundary + 4 - (boundary - 2))).eraseDups
  let marked ← shortlist.mapM fun index => do
    let confidences ← (questionsOf recipe index).mapM fun question =>
      match judgments.lookup question.key with
      | some confidence => .ok confidence
      | none => .error (.raised "KeyError")
    let uncertain := confidences.any (· < 65 / 100)
    let nearby := order.any fun other => other ≠ index ∧
      |scores.getD index 0 - scores.getD other 0| ≤ 8 / 100
    .ok (index, uncertain || nearby)
  .ok (((marked.filter Prod.snd).map Prod.fst).take 8)

end Scores

section Decisions

/-- `_DECISION_RULES` -/
def decisionRules : List (Rule String) :=
  [⟨"invalid-candidates", "decision", 100, [⟨"valid_candidates", .eq, .bool false⟩], "preserve"⟩,
    ⟨"no-budget", "decision", 100, [⟨"budget_available", .eq, .bool false⟩], "preserve"⟩,
    ⟨"trivial-pool", "decision", 90, [⟨"candidate_count", .le, .int 1⟩], "preserve"⟩,
    ⟨"bounded-assessment", "decision", 10,
      [⟨"candidate_count", .gt, .int 1⟩, ⟨"valid_candidates", .eq, .bool true⟩,
        ⟨"budget_available", .eq, .bool true⟩], "assess"⟩,
    ⟨"new-evidence-for-ambiguous-order", "refinement", 10,
      ["ambiguous", "new_evidence", "budget_available", "complete_order"].map fun fact =>
        ⟨fact, .eq, .bool true⟩, "refine"⟩]

example : evaluate decisionRules "decision"
    [("candidate_count", .int 3), ("valid_candidates", .bool true),
      ("budget_available", .bool true)] = some "assess" := by decide +kernel

/-- What ranking reads of a search result. -/
structure SearchResult where
  uuid : String
  texts : CandidateText
deriving DecidableEq, Repr

/-- The arguments of `rerank_results`. -/
structure Call where
  question : String
  results : List SearchResult
  limit : ℕ
  backend : String := "local"
  adaptive : Bool := false
  deadlineMs : Value := .int 2000
  recipe : String := "multi-v1"
  requestBudget : Value := .int 4

/-- One pass: whether the deadline has come, and what the calls return or raise. -/
structure PassEnvironment where
  late : Bool
  /-- The question texts and their digests. -/
  prepare : Except Failure Unit
  /-- `client.assess` -/
  answer : Except Failure Value
  lateOrder : Bool
  /-- The candidates `_read_refinement` finds something new for. -/
  found : Except Failure (List ℕ)
  lateFound : Bool
  lateRefinement : Bool

structure Environment where
  /-- The answer of the local model as a text. -/
  chat : Except Failure String
  inBudget : Bool
  /-- A text as `_state` redacts and clips it. -/
  stateText : String → Except Failure String
  text : TextLibrary
  /-- `ranking_rules()` -/
  rules : Except Failure (List (Rule ℕ))
  /-- Whether the connection has a file, if it is asked. -/
  database : Except Failure Bool
  /-- The model of the client, which may be made for the call. -/
  client : Except Failure String
  owned : Bool
  close : Except Failure Unit
  pass : ℕ → PassEnvironment

variable (call : Call) (env : Environment)

/-- The candidates are fit to be assessed. -/
def validCandidates : Bool :=
  call.results.length ≤ 30 ∧ (call.results.map SearchResult.uuid).Nodup ∧
    (∀ r ∈ call.results, r.uuid ≠ "") ∧ PyText.strip call.question ≠ "" ∧
    call.question.length ≤ 4096

/-- The texts of `_state`. -/
def stateCandidates : Except Failure (List CandidateText) :=
  call.results.mapM fun r => do
    let summary ← env.stateText r.texts.summary
    let embedText ← env.stateText r.texts.embedText
    let commandsRaw ← env.stateText r.texts.commandsRaw
    .ok ⟨summary, embedText, commandsRaw⟩

/-- `request_budget`, an integer from zero to four. -/
def budgetOf (value : Value) : Except Failure ℕ :=
  match value with
  | .int n =>
    if 0 ≤ n ∧ n ≤ 4 then .ok n.toNat
    else .error (.valueError "request budget must be an integer from zero to four")
  | _ => .error (.valueError "request budget must be an integer from zero to four")

end Decisions

section Passes

inductive PassStatus where
  | requested
  | complete (order : List ℕ)
  | failed (error : Failure)
deriving DecidableEq, Repr

structure PassRecord where
  candidateIndices : List ℕ
  status : PassStatus
deriving DecidableEq, Repr

/-- The variables of the loop in `_fast_rerank`, with the records of the passes. -/
structure Run where
  order : List ℕ
  signals : List (Option SignalRow)
  judgments : List (String × ℚ)
  selected : List ℕ
  passes : List PassRecord

inductive Next where
  | again
  | stop (reason : String)
  | raised (e : Failure)
deriving DecidableEq, Repr

variable (call : Call) (model : String) (database : Bool) (budget : ℕ) (p : PassEnvironment)

/-- The assessment of a pass: the new order with its scores, signals and confidences. -/
def assess (questions : List Question) (run : Run) :
    Except Failure (List ℕ × List ℚ × List (Option SignalRow) × List (String × ℚ)) := do
  let data ← p.answer
  Jev.validateResponse model questions data
  let signals ← renewSignals call.recipe data run.selected run.signals
  let (order, scores) ← composeScores signals
  let confidences := questions.filterMap fun question =>
    (answerNumber data question.key "confidence").toOption.map fun c => (question.key, c)
  if p.lateOrder then .error (.timeoutError "decision budget exhausted")
  else .ok (order, scores, signals, confidences ++ run.judgments)

/-- What follows a complete pass: the end, or the candidates of the next one. -/
def refine (passIndex : ℕ) (previous : List ℕ) (scores : List ℚ) (run : Run) : Run × Next :=
  if ¬ call.adaptive ∨ call.recipe = "single-v1" then (run, .stop "single_pass")
  else if 0 < passIndex ∧ previous = run.order then (run, .stop "stable_order")
  else if min 3 budget ≤ passIndex + 1 then (run, .stop "request_budget")
  else
    match ambiguous run.order scores run.judgments call.recipe with
    | .error e => (run, .raised e)
    | .ok uncertain =>
      let fetched : Except Failure (List ℕ) :=
        if database ∧ uncertain ≠ [] then
          match p.found with
          | .error e => .error e
          | .ok found =>
            if p.lateFound then .error (.timeoutError "decision budget exhausted")
            else .ok (uncertain.filter (· ∈ found))
        else .ok []
      match fetched with
      | .error e => ({ run with selected := [] }, .raised e)
      | .ok selected =>
        let refinement := evaluate decisionRules "refinement"
          [("ambiguous", .bool (uncertain ≠ [])), ("new_evidence", .bool (selected ≠ [])),
            ("budget_available", .bool (!p.lateRefinement)),
            ("complete_order", .bool (run.order.length = call.results.length))]
        if refinement = some "refine" then ({ run with selected := selected }, .again)
        else
          ({ run with selected := selected },
            .stop (if uncertain ≠ [] then "no_new_evidence" else "unambiguous"))

/-- One round of the loop. -/
def onePass (passIndex : ℕ) (run : Run) : Run × Next :=
  if p.late then (run, .raised (.timeoutError "decision budget exhausted"))
  else
    match buildJevQuestions call.results.length call.recipe run.selected with
    | .error e => (run, .raised e)
    | .ok questions =>
      match p.prepare with
      | .error e => (run, .raised e)
      | .ok () =>
        match assess call model p questions run with
        | .error e =>
          ({ run with passes := run.passes ++ [⟨run.selected, .requested⟩] }, .raised e)
        | .ok (order, scores, signals, judgments) =>
          refine call database budget p passIndex run.order scores
            { run with
              order := order
              signals := signals
              judgments := judgments
              passes := run.passes ++ [⟨run.selected, .complete order⟩] }

/-- The loop, and what ended it. -/
def runPasses (pass : ℕ → PassEnvironment) : ℕ → ℕ → Run → Run × Next
  | 0, _, run => (run, .again)
  | left + 1, passIndex, run =>
    match onePass call model database budget (pass passIndex) passIndex run with
    | (run', .again) => runPasses pass left (passIndex + 1) run'
    | ended => ended

end Passes

section Results

/-- The diagnostics a caller can tell the outcome from, and for the local model the failure that is
logged. -/
structure Trace where
  passes : List PassRecord := []
  stopReason : Option String := none
  fallbackReason : Option Failure := none

/-- The last record of a pass that was not completed is marked as failed. -/
def markFailed (e : Failure) (passes : List PassRecord) : List PassRecord :=
  match passes.getLast? with
  | some ⟨indices, .requested⟩ => passes.dropLast ++ [⟨indices, .failed e⟩]
  | _ => passes

/-- The diagnostics at the end of the `try` in `_fast_rerank`. -/
def traceOf (run : Run) (ended : Next) : Trace :=
  match ended with
  | .again => { passes := run.passes }
  | .stop reason => { passes := run.passes, stopReason := some reason }
  | .raised e =>
    { passes := markFailed e run.passes
      stopReason := some (match e with
        | .timeoutError _ => "deadline"
        | _ => "assessment_failed")
      fallbackReason := some e }

def preserve (call : Call) : List ℕ := List.range call.results.length

variable (call : Call) (env : Environment)

/-- The part of `_fast_rerank` for the provider. -/
def assessedOrder (database : Bool) (budget : ℕ) : Except Failure (List ℕ) × Trace :=
  let start : Run := ⟨preserve call, call.results.map fun _ => none, [], preserve call, []⟩
  match env.client with
  | .error e => (.ok start.order, traceOf start (.raised e))
  | .ok model =>
    let (run, ended) := runPasses call model database budget env.pass (min 3 budget) 0 start
    match (if env.owned then env.close else .ok ()) with
    | .error e => (.error e, traceOf run ended)
    | .ok () => (.ok run.order, traceOf run ended)

/-- `_fast_rerank`. -/
def fastRerank : Except Failure (List ℕ) × Trace :=
  match number call.deadlineMs 0 2000, budgetOf call.requestBudget with
  | .error e, _ => (.error e, {})
  | .ok _, .error e => (.error e, {})
  | .ok _, .ok budget =>
    let decision := evaluate decisionRules "decision"
      [("candidate_count", .int call.results.length),
        ("valid_candidates", .bool (validCandidates call)),
        ("budget_available", .bool (env.inBudget ∧ (call.backend = "rules" ∨ 0 < budget)))]
    if decision ≠ some "assess" then
      (.ok (preserve call), { stopReason := some "native_preserve" })
    else
      match env.stateText call.question, stateCandidates call env with
      | .error e, _ => (.error e, {})
      | .ok _, .error e => (.error e, {})
      | .ok query, .ok candidates =>
        match buildJevQuestions 1 call.recipe [0] with
        | .error e => (.error e, {})
        | .ok _ =>
          if call.backend = "rules" then
            match env.rules with
            | .error e => (.error e, {})
            | .ok rules =>
              match rank env.text query candidates rules with
              | some (i :: order) => (.ok (i :: order), { stopReason := some "rules_complete" })
              | _ => (.ok (preserve call), { stopReason := some "rules_complete" })
          else
            match (if call.adaptive then env.database else .ok false) with
            | .error e => (.error e, {})
            | .ok database => assessedOrder call env database budget

/-- `[results[index] for index in order]` -/
def pick (results : List SearchResult) (order : List ℕ) : Except Failure (List SearchResult) :=
  order.mapM fun index =>
    match results[index]? with
    | some r => .ok r
    | none => .error .indexError

structure Outcome where
  output : Except Failure (List SearchResult)
  trace : Trace := {}

/-- The part of `rerank_results` for the provider, the rules and unknown backends. -/
def decidedResults : Outcome :=
  let (result, trace) :=
    if call.backend = "jev" ∨ call.backend = "rules" then fastRerank call env
    else (.error (.valueError "unknown reranking backend"), {})
  match result with
  | .ok order => { output := (pick call.results order).map (List.take call.limit), trace := trace }
  | .error e =>
    { output := (pick call.results (preserve call)).map (List.take call.limit)
      trace := { trace with stopReason := some "invalid_decision", fallbackReason := some e } }

/-- The part of `rerank_results` for the local model. -/
def localResults (py : Interpreter) : Outcome :=
  if call.results.length ≤ 1 then { output := .ok (call.results.take call.limit) }
  else
    match env.chat with
    | .error e =>
      { output := .ok (call.results.take call.limit), trace := { fallbackReason := some e } }
    | .ok answer =>
      match parseRanking py answer call.results.length with
      | .error _ =>
        { output := .error (.valueError "Exceeds the limit for integer string conversion") }
      | .ok none => { output := .ok (call.results.take call.limit) }
      | .ok (some order) => { output := (pick call.results order).map (List.take call.limit) }

/-- `rerank_results`. -/
def rerankResults (py : Interpreter) : Outcome :=
  if call.backend ≠ "local" then decidedResults call env else localResults call env py

end Results

end Hippo.Rerank
