import Mathlib.Data.List.Dedup
import Mathlib.Data.List.Infix
import Mathlib.Data.List.Sort

/-!
# Declarative decision tables

A rule matches if all of its conditions hold of the facts. The matching rules of the highest
priority decide, unless they contradict each other; facts of the wrong kind decide nothing.
-/
namespace Hippo.DecisionRules

section Rules

inductive Fact where
  | int (n : ℤ)
  | bool (b : Bool)
deriving DecidableEq, Repr

/-- The Python type of a fact. -/
inductive FactKind where
  | int
  | bool
deriving DecidableEq, Repr

def Fact.kind : Fact → FactKind
  | int _ => .int
  | bool _ => .bool

/-- A boolean compares as a number. -/
def Fact.number : Fact → ℤ
  | int n => n
  | bool b => if b then 1 else 0

inductive Operator where
  | eq
  | ne
  | ge
  | gt
  | le
  | lt
deriving DecidableEq, Repr

/-- `OPERATORS` -/
def Operator.holds (op : Operator) (a b : ℤ) : Bool :=
  match op with
  | .eq => a = b
  | .ne => a ≠ b
  | .ge => b ≤ a
  | .gt => b < a
  | .le => a ≤ b
  | .lt => a < b

structure Condition where
  fact : String
  op : Operator
  value : Fact
deriving DecidableEq, Repr

/-- The conditions are those under `when`. -/
structure Rule (ο : Type) where
  id : String
  task : String
  priority : ℤ
  conditions : List Condition
  output : ο
deriving DecidableEq, Repr

/-- `FACTS` -/
def factKinds (task : String) : List (String × FactKind) :=
  match task with
  | "ranking" => [("token_overlap", .int), ("query_tokens", .int), ("exact_query", .bool)]
  | "verification" => [("empty_source", .bool), ("identical_text", .bool)]
  | "decision_conflict" => [("comparable_records", .int), ("identical_records", .bool)]
  | "outcome_conflict" => [("comparable_records", .int), ("identical_records", .bool)]
  | "decision" =>
    [("candidate_count", .int), ("valid_candidates", .bool), ("budget_available", .bool)]
  | "refinement" =>
    [("ambiguous", .bool), ("new_evidence", .bool), ("budget_available", .bool),
      ("complete_order", .bool)]
  | _ => []

variable {ο : Type} [DecidableEq ο] (rules : List (Rule ο)) (task : String)
  (facts : List (String × Fact))

def relevant : List (Rule ο) := rules.filter fun rule => rule.task = task

/-- The facts of the conditions that are not there or not of their kind. -/
def invalidFacts : List String :=
  ((relevant rules task).flatMap fun rule => rule.conditions.map Condition.fact).filter fun fact =>
    (facts.lookup fact).map Fact.kind ≠ (factKinds task).lookup fact

def Condition.matches (c : Condition) : Bool :=
  (facts.lookup c.fact).any fun fact => c.op.holds fact.number c.value.number

def matchingRules : List (Rule ο) :=
  if invalidFacts rules task facts ≠ [] then []
  else (relevant rules task).filter fun rule => rule.conditions.all (Condition.matches facts)

def winningRules : List (Rule ο) :=
  let found := matchingRules rules task facts
  found.filter fun rule => found.all fun other => other.priority ≤ rule.priority

/-- The output of `evaluate`. -/
def evaluate : Option ο :=
  match ((winningRules rules task facts).map Rule.output).dedup with
  | [output] => some output
  | _ => none

end Rules

section Ranking

variable {κ : Type*} [LinearOrder κ]

/-- `sorted(range(len(scores)), key=lambda i: scores[i], reverse=True)` -/
def sortedByScore (scores : List κ) : List ℕ :=
  (scores.zipIdx.insertionSort fun a b => b.1 ≤ a.1).map Prod.snd

theorem sortedByScore_perm (scores : List κ) :
    (sortedByScore scores).Perm (List.range scores.length) := by
  have hindices : scores.zipIdx.map Prod.snd = List.range scores.length := by
    rw [List.zipIdx_map_snd, List.range_eq_range']
  rw [← hindices]
  exact (List.perm_insertionSort _ _).map _

/-- The texts of a candidate. -/
structure CandidateText where
  summary : String
  embedText : String
  commandsRaw : String
deriving DecidableEq, Repr

/-- What Python decides about words. -/
structure TextLibrary where
  casefold : String → String
  /-- `re.findall(r"\w+", text)` -/
  words : String → List String

variable (text : TextLibrary)

def CandidateText.joined (c : CandidateText) : String :=
  " ".intercalate [c.summary, c.embedText, c.commandsRaw]

def rankingFacts (query : String) (c : CandidateText) : List (String × Fact) :=
  let queryTokens := (text.words (text.casefold query)).dedup
  let tokens := text.words (text.casefold c.joined)
  [("token_overlap", .int (queryTokens.filter (· ∈ tokens)).length),
    ("query_tokens", .int queryTokens.length),
    ("exact_query", .bool (queryTokens ≠ [] ∧
      (text.casefold query).toList <:+: (text.casefold c.joined).toList))]

/-- The `order` of `rank`. -/
def rank (query : String) (candidates : List CandidateText) (rules : List (Rule ℕ)) :
    Option (List ℕ) :=
  (candidates.mapM fun c => evaluate rules "ranking" (rankingFacts text query c)).map sortedByScore

end Ranking

end Hippo.DecisionRules
