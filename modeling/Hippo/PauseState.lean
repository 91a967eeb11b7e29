import Hippo.JsonReading
import Mathlib.Data.Int.Notation
import Mathlib.Data.List.Nodup
import Mathlib.Algebra.Order.Ring.Int

/-!
# The operator's pause state

The daemon and the brain read `enrichment-state.json` with two JSON readers. Both take what they
reject as paused. `serde_json` is a parameter, with what it documents about text and about a
derived struct; `json.loads` is the reader of this development with Python's limits.
-/
namespace Hippo.PauseState

open JsonText

/-- What the file system returns for the state file. -/
inductive FileRead where
  | missing
  | unreadable (error : String)
  | bytes (content : ByteArray)

section Rust

structure EnrichmentState where
  paused : Bool
  changedAtMs : ℤ
deriving DecidableEq, Repr

inductive StateRead where
  | missing
  | valid (s : EnrichmentState)
  | invalid (message : String)

namespace StateRead

/-- An unreadable or malformed state file fails closed. -/
def isPaused : StateRead → Bool
  | missing => false
  | valid s => s.paused
  | invalid _ => true

def changedAtMs : StateRead → Option ℤ
  | valid s => some s.changedAtMs
  | _ => none

end StateRead

/-- `read_state` of the daemon. `fromStr` is `serde_json::from_str::<EnrichmentState>`. -/
def readState (fromStr : String → Except String EnrichmentState) : FileRead → StateRead
  | .missing => .missing
  | .unreadable e => .invalid e
  | .bytes content =>
    match String.fromUTF8? content with
    | none => .invalid "stream did not contain valid UTF-8"
    | some text =>
      match fromStr text with
      | .ok s => .valid s
      | .error e => .invalid e

end Rust

section Documents

/-- The code points of a key. -/
def codes (s : String) : List ℕ := s.toList.map Char.toNat

def pausedKey : List ℕ := codes "paused"

def changedKey : List ℕ := codes "changed_at_ms"

/-- A surrogate that is not in a pair. -/
def hasSurrogate (key : List ℕ) : Bool := key.any fun u => isHigh u || isLow u

/-- `NaN` and the infinities are no JSON. -/
def isJson : Doc → Bool
  | .scalar (.constant _) => false
  | _ => true

def intOf (n : Number) : ℤ := if n.negative then -(n.value : ℤ) else n.value

def InI64 (i : ℤ) : Prop := -2 ^ 63 ≤ i ∧ i < 2 ^ 63

instance (i : ℤ) : Decidable (InI64 i) := by
  unfold InI64
  infer_instance

def bool? : Doc → Option Bool
  | .scalar (.bool b) => some b
  | _ => none

/-- `deserialize_i64`: the spelling `-0` is a float to `serde_json`. -/
def i64? : Doc → Option ℤ
  | .scalar (.number n) =>
    if n.integral = true ∧ ¬ (n.negative = true ∧ n.value = 0) ∧ InI64 (intOf n) then some (intOf n)
    else none
  | _ => none

/-- The derived visitor of an object: each key is decoded, a field occurs once, the value of any
other key is skipped. -/
def visitMap : List (List ℕ × Doc) → Option Bool → Option ℤ → Option EnrichmentState
  | [], some paused, some changedAtMs => some ⟨paused, changedAtMs⟩
  | [], _, _ => none
  | (key, v) :: members, paused, changedAtMs =>
    if hasSurrogate key then none
    else if key = pausedKey then
      match paused, bool? v with
      | none, some b => visitMap members (some b) changedAtMs
      | _, _ => none
    else if key = changedKey then
      match changedAtMs, i64? v with
      | none, some i => visitMap members paused (some i)
      | _, _ => none
    else if v.all isJson then visitMap members paused changedAtMs
    else none

/-- The derived `Deserialize` of the struct, which also reads an array of its fields. -/
def deserialize : Doc → Option EnrichmentState
  | .object members => visitMap members none none
  | .array [paused, changedAtMs] => do
    let p ← bool? paused
    let c ← i64? changedAtMs
    return ⟨p, c⟩
  | _ => none

/-- `serde_json::from_str` reads a text that spells one document, and a derived struct from it. -/
def Documented (fromStr : String → Except String EnrichmentState) : Prop :=
  ∀ text, (fromStr text).toOption = (read text.toList).bind deserialize

end Documents

section Python

/-- `StateRead` of the brain. -/
structure PyStateRead where
  paused : Bool
  changedAtMs : Option ℤ
  valid : Bool
deriving DecidableEq, Repr

/-- The limits of the interpreter: containers within containers, and digits of an integer. -/
structure PyLimits where
  depth : ℕ
  digits : ℕ := 4300

structure RecursionError where
deriving DecidableEq

/-- What `json.loads` takes: integers of few digits, and objects that `_reject_duplicates` lets
pass. -/
def pyAccepts (limits : PyLimits) : Doc → Bool
  | .scalar (.number n) => !n.integral || n.digits ≤ limits.digits
  | .object members => (members.map Prod.fst).Nodup
  | _ => true

def invalid : PyStateRead := { paused := true, changedAtMs := none, valid := false }

/-- `data.get(key) if isinstance(data, dict) else None`. -/
def getKey (data : Doc) (key : List ℕ) : Option Doc :=
  match data with
  | .object members => members.lookup key
  | _ => none

/-- The checks of `read_state` on the shape. -/
def ofData (data : Doc) : PyStateRead :=
  match getKey data pausedKey, getKey data changedKey with
  | some (.scalar (.bool paused)), some (.scalar (.number changed)) =>
    if changed.integral = true ∧ InI64 (intOf changed) then
      { paused := paused, changedAtMs := some (intOf changed), valid := true }
    else invalid
  | _, _ => invalid

/-- `read_state` of the brain. A `RecursionError` is no `ValueError`. -/
def pyReadState (limits : PyLimits) : FileRead → Except RecursionError PyStateRead
  | .missing => .ok { paused := false, changedAtMs := none, valid := true }
  | .unreadable _ => .ok invalid
  | .bytes content =>
    match String.fromUTF8? content with
    | none => .ok invalid
    | some text =>
      match decode (pyAccepts limits) (some limits.depth) (universalNewlines text.toList) with
      | .ok data => .ok (ofData data)
      | .error .invalid => .ok invalid
      | .error .tooDeep => .error {}

end Python

end Hippo.PauseState
