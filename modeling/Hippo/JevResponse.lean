import Mathlib.Algebra.Order.Field.Rat
import Mathlib.Data.Rat.Defs
import Mathlib.Data.List.Basic

/-!
# Typed answers to score questions

What the provider returns is checked as a whole before anything is read from it: one answer for each
question, with a score that goes with its probabilities. Floats are rationals, apart from `NaN` and
the infinities.
-/
namespace Hippo.Jev

inductive Value where
  | none
  | bool (b : Bool)
  | int (n : ℤ)
  | float (q : ℚ)
  | nonfinite
  | str (s : String)
  | list (items : List Value)
  | dict (members : List (String × Value))

/-- An `Exception`, apart from a cancellation. -/
inductive Failure where
  | valueError (message : String)
  | timeoutError (message : String)
  | indexError
  | raised (name : String)
deriving DecidableEq, Repr

namespace Value

mutual

/-- What `json.dumps(value, allow_nan=False)` takes. -/
def isFinite : Value → Bool
  | nonfinite => false
  | list items => itemsFinite items
  | dict members => membersFinite members
  | _ => true

def itemsFinite : List Value → Bool
  | [] => true
  | v :: items => v.isFinite && itemsFinite items

def membersFinite : List (String × Value) → Bool
  | [] => true
  | m :: members => m.2.isFinite && membersFinite members

end

/-- `data.get(key)` of a dictionary. -/
def get (v : Value) (key : String) : Value :=
  match v with
  | dict members => (members.lookup key).getD .none
  | _ => .none

def keys? : Value → Option (List String)
  | dict members => some (members.map Prod.fst)
  | _ => Option.none

end Value

/-- `number`. -/
def number (value : Value) (low high : ℚ) : Except Failure ℚ :=
  let read (q : ℚ) : Except Failure ℚ :=
    if low ≤ q ∧ q ≤ high then .ok q else .error (.valueError "invalid numeric answer")
  match value with
  | .int n => read n
  | .float q => read q
  | _ => .error (.valueError "invalid numeric answer")

/-- `math.isclose`. -/
def isClose (a b absTol : ℚ) : Bool := |a - b| ≤ max (1 / 1000000000 * max |a| |b|) absTol

/-- A score question with its criteria. -/
structure Question where
  key : String
  criteria : List String

/-- `set(a) == set(b)` -/
def sameKeys (a b : List String) : Bool := a.all (· ∈ b) && b.all (· ∈ a)

def require (condition : Bool) (message : String) : Except Failure Unit :=
  if condition then .ok () else .error (.valueError message)

/-- `removeprefix("jev-")`. -/
def withoutPrefix (model : String) : String :=
  if "jev-".toList.isPrefixOf model.toList then String.ofList (model.toList.drop 4) else model

def optionNames (question : Question) : List String :=
  (List.range question.criteria.length).map toString

/-- The legend of an answer, where there is one, has the criteria as its levels. -/
def legendAgrees (answer : Value) (question : Question) : Bool :=
  match answer with
  | .dict members =>
    match members.lookup "legend" with
    | none => true
    | some (.dict legend) =>
      legend.length = question.criteria.length &&
        (question.criteria.zipIdx.all fun c =>
          match legend.lookup (toString c.2) with
          | some (.str level) => level = c.1
          | _ => false)
    | some _ => false
  | _ => false

/-- The checks of a score answer. -/
def validateAnswer (question : Question) (answer : Value) : Except Failure Unit := do
  require (match answer.get "type" with
    | .str kind => kind = "score"
    | _ => false) "answer type mismatch"
  let _ ← number (answer.get "confidence") 0 1
  let probabilities := answer.get "probabilities"
  require ((probabilities.keys?.map fun keys => sameKeys keys (optionNames question)).getD false)
    "probability options mismatch"
  let values ← (optionNames question).mapM fun name => number (probabilities.get name) 0 1
  require (isClose values.sum 1 (5 / 1000 * values.length + 1 / 1000000000))
    "probabilities do not sum to one"
  let count := question.criteria.length
  let score ← number (answer.get "score") 0 (count - 1)
  let weighted := (values.zipIdx.map fun v => (v.2 : ℚ) * v.1).sum
  require (isClose score weighted
      (5 / 1000 * (1 + (List.range count).sum) + 1 / 1000000000))
    "score does not match probabilities"
  require (legendAgrees answer question) "score legend differs from requested criteria"

def usageValid (usage : Value) : Bool :=
  let count (v : Value) : Bool :=
    match v with
    | .int n => 0 ≤ n
    | _ => false
  match usage with
  | .none => true
  | .dict _ => count (usage.get "input_tokens") && count (usage.get "output_tokens")
  | _ => false

/-- `validate_response` for score questions and a pinned model. -/
def validateResponse (model : String) (questions : List Question) (data : Value) :
    Except Failure Unit := do
  require (1 ≤ questions.length ∧ questions.length ≤ 100) "expected 1 to 100 questions"
  require data.keys?.isSome "response must be an object"
  require data.isFinite "Out of range float values are not JSON compliant"
  require (match data.get "model" with
    | .str answered => withoutPrefix answered = withoutPrefix model
    | _ => false) "Jev model identity changed"
  let answers := data.get "answers"
  require ((answers.keys?.map fun keys => sameKeys keys (questions.map Question.key)).getD false)
    "missing or unexpected Jev answer"
  questions.forM fun question => validateAnswer question (answers.get question.key)
  require (usageValid (data.get "usage")) "invalid token usage"

end Hippo.Jev
