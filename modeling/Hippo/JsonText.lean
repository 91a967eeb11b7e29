import Mathlib.Data.Nat.Notation
import Mathlib.Order.Defs.LinearOrder

/-!
# Reading JSON text

A reader for JSON text and for the constants `NaN`, `Infinity` and `-Infinity`, character by
character. The tokens go to a machine that keeps the open arrays and objects on a stack. A document
keeps the members of its objects as they stand in the text, and a string its code points, lone
surrogates included. The machine can be given a limit to the depth and a check for every number
and container it completes.
-/
namespace Hippo.JsonText

section Tokens

/-- A number as it is spelled. `value` and `digits` are those of the part before a fraction. -/
structure Number where
  negative : Bool
  value : ℕ
  digits : ℕ
  integral : Bool
deriving DecidableEq, Repr

inductive Scalar where
  | null
  | bool (b : Bool)
  | number (n : Number)
  | constant (name : String)
  | string (s : List ℕ)
deriving DecidableEq, Repr

inductive Token where
  | openArray
  | closeArray
  | openObject
  | closeObject
  | colon
  | comma
  | scalar (s : Scalar)
deriving DecidableEq, Repr

/-- What may follow in a number. -/
inductive Phase where
  | minus
  | zero
  | digits
  | point
  | fraction
  | exponent
  | sign
  | power
deriving DecidableEq, Repr

inductive Lexer where
  | gap
  | letters (rest : List Char) (s : Scalar)
  | number (phase : Phase) (n : Number)
  | string (units : List ℕ)
  | escape (units : List ℕ)
  | hex (units : List ℕ) (left value : ℕ)
deriving DecidableEq, Repr

def isSpace (c : Char) : Bool := c = ' ' ∨ c = '\t' ∨ c = '\n' ∨ c = '\r'

def isDigit (c : Char) : Bool := 48 ≤ c.toNat ∧ c.toNat ≤ 57

def hexDigit? (c : Char) : Option ℕ :=
  let n := c.toNat
  if 48 ≤ n ∧ n ≤ 57 then some (n - 48)
  else if 65 ≤ n ∧ n ≤ 70 then some (n - 55)
  else if 97 ≤ n ∧ n ≤ 102 then some (n - 87)
  else none

/-- The character an escape stands for. -/
def escaped? (c : Char) : Option ℕ :=
  match c with
  | '"' => some 0x22
  | '\\' => some 0x5c
  | '/' => some 0x2f
  | 'b' => some 0x08
  | 'f' => some 0x0c
  | 'n' => some 0x0a
  | 'r' => some 0x0d
  | 't' => some 0x09
  | _ => none

def isHigh (u : ℕ) : Bool := 0xD800 ≤ u ∧ u ≤ 0xDBFF

def isLow (u : ℕ) : Bool := 0xDC00 ≤ u ∧ u ≤ 0xDFFF

/-- Surrogates that are not in pairs stay. -/
def joinSurrogates : List ℕ → List ℕ
  | [] => []
  | [u] => [u]
  | u :: v :: rest =>
    if isHigh u && isLow v then
      (0x10000 + (u - 0xD800) * 0x400 + (v - 0xDC00)) :: joinSurrogates rest
    else u :: joinSurrogates (v :: rest)

def digitOf (c : Char) : ℕ := c.toNat - 48

/-- A character between two tokens. -/
def start (c : Char) : Option (List Token × Lexer) :=
  if isSpace c then some ([], .gap)
  else if isDigit c then
    some ([], .number (if c = '0' then .zero else .digits) ⟨false, digitOf c, 1, true⟩)
  else match c with
    | '[' => some ([.openArray], .gap)
    | ']' => some ([.closeArray], .gap)
    | '{' => some ([.openObject], .gap)
    | '}' => some ([.closeObject], .gap)
    | ':' => some ([.colon], .gap)
    | ',' => some ([.comma], .gap)
    | '"' => some ([], .string [])
    | '-' => some ([], .number .minus ⟨true, 0, 0, true⟩)
    | 't' => some ([], .letters ['r', 'u', 'e'] (.bool true))
    | 'f' => some ([], .letters ['a', 'l', 's', 'e'] (.bool false))
    | 'n' => some ([], .letters ['u', 'l', 'l'] .null)
    | 'N' => some ([], .letters ['a', 'N'] (.constant "NaN"))
    | 'I' => some ([], .letters ['n', 'f', 'i', 'n', 'i', 't', 'y'] (.constant "Infinity"))
    | _ => none

namespace Phase

/-- The number may end here. -/
def complete : Phase → Bool
  | zero | digits | fraction | power => true
  | _ => false

/-- The number with one more character, if it goes on. -/
def extend (phase : Phase) (n : Number) (c : Char) : Option (Phase × Number) :=
  let longer : Number := { n with value := 10 * n.value + digitOf c, digits := n.digits + 1 }
  let broken : Number := { n with integral := false }
  if isDigit c then
    match phase with
    | minus => some (if c = '0' then zero else digits, longer)
    | digits => some (digits, longer)
    | point | fraction => some (fraction, n)
    | exponent | sign | power => some (power, n)
    | zero => none
  else if c = '.' then
    match phase with
    | zero | digits => some (point, broken)
    | _ => none
  else if c = 'e' ∨ c = 'E' then
    match phase with
    | zero | digits | fraction => some (exponent, broken)
    | _ => none
  else if c = '+' ∨ c = '-' then
    match phase with
    | exponent => some (sign, n)
    | _ => none
  else none

end Phase

/-- One character. A number ends with the first character that does not belong to it. -/
def lex : Lexer → Char → Option (List Token × Lexer)
  | .gap, c => start c
  | .letters rest s, c =>
    match rest with
    | [] => none
    | x :: rest =>
      if c ≠ x ∨ ¬ c.isAlpha then none
      else if rest = [] then some ([.scalar s], .gap)
      else some ([], .letters rest s)
  | .number phase n, c =>
    match phase.extend n c with
    | some (next, n') => some ([], .number next n')
    | none =>
      if phase.complete then
        (start c).map fun r => (.scalar (.number n) :: r.1, r.2)
      else if phase = .minus ∧ c = 'I' then
        some ([], .letters ['n', 'f', 'i', 'n', 'i', 't', 'y'] (.constant "-Infinity"))
      else none
  | .string units, c =>
    if c = '"' then some ([.scalar (.string (joinSurrogates units.reverse))], .gap)
    else if c = '\\' then some ([], .escape units)
    else if c.toNat < 0x20 then none
    else some ([], .string (c.toNat :: units))
  | .escape units, c =>
    if c = 'u' then some ([], .hex units 4 0)
    else (escaped? c).map fun u => ([], .string (u :: units))
  | .hex units left value, c =>
    (hexDigit? c).map fun d =>
      if left ≤ 1 then ([], .string ((16 * value + d) :: units))
      else ([], .hex units (left - 1) (16 * value + d))

/-- The end of the text ends a number, but no literal and no string. -/
def ending : Lexer → List (Option Token)
  | .gap => []
  | .number phase n => if phase.complete then [some (.scalar (.number n))] else [none]
  | _ => [none]

/-- The tokens of a text, up to what is none. -/
def tokens (st : Lexer) : List Char → List (Option Token)
  | [] => ending st
  | c :: cs =>
    match lex st c with
    | none => [none]
    | some r => r.1.map some ++ tokens r.2 cs

end Tokens

section Lines

/-- The translation of line ends when a file is read as text. -/
def universalNewlines : List Char → List Char
  | [] => []
  | '\r' :: '\n' :: cs => '\n' :: universalNewlines cs
  | '\r' :: cs => '\n' :: universalNewlines cs
  | c :: cs => c :: universalNewlines cs

end Lines

section Machine

inductive Doc where
  | scalar (s : Scalar)
  | array (items : List Doc)
  | object (members : List (List ℕ × Doc))

/-- A container that waits for a value. -/
inductive Frame where
  | array (items : List Doc)
  | member (members : List (List ℕ × Doc)) (key : List ℕ)

/-- What is read last: an array or an object is open, a key is due, a colon is due after a key, a
value is due, or the document is complete. -/
inductive Mode where
  | value
  | array (items : List Doc)
  | object (members : List (List ℕ × Doc))
  | key (members : List (List ℕ × Doc))
  | colon (members : List (List ℕ × Doc)) (key : List ℕ)
  | done (v : Doc)

structure Parse where
  stack : List Frame := []
  mode : Mode := .value

/-- The text is rejected, or it is nested too deep. -/
inductive Fault where
  | invalid
  | tooDeep
deriving DecidableEq, Repr

/-- A complete value goes to the container that waits for it. -/
def place (v : Doc) : List Frame → Parse
  | [] => ⟨[], .done v⟩
  | .array items :: stack => ⟨stack, .array (items ++ [v])⟩
  | .member members key :: stack => ⟨stack, .object (members ++ [(key, v)])⟩

/-- What a token asks for. -/
inductive Plan where
  /-- A container begins below those on the stack. -/
  | open (stack : List Frame) (mode : Mode)
  | complete (stack : List Frame) (v : Doc)
  | go (s : Parse)

/-- The first token of a value. -/
def planValue (stack : List Frame) : Token → Option Plan
  | .openArray => some (.open stack (.array []))
  | .openObject => some (.open stack (.object []))
  | .scalar s => some (.complete stack (.scalar s))
  | _ => none

def planArray (stack : List Frame) (items : List Doc) : Token → Option Plan
  | .closeArray => some (.complete stack (.array items))
  | .comma => if items.isEmpty then none else some (.go ⟨.array items :: stack, .value⟩)
  | t => if items.isEmpty then planValue (.array [] :: stack) t else none

def planObject (stack : List Frame) (members : List (List ℕ × Doc)) : Token → Option Plan
  | .closeObject => some (.complete stack (.object members))
  | .comma => if members.isEmpty then none else some (.go ⟨stack, .key members⟩)
  | .scalar (.string key) =>
    if members.isEmpty then some (.go ⟨stack, .colon [] key⟩) else none
  | _ => none

def plan (s : Parse) (t : Token) : Option Plan :=
  match s.mode with
  | .value => planValue s.stack t
  | .array items => planArray s.stack items t
  | .object members => planObject s.stack members t
  | .key members =>
    match t with
    | .scalar (.string key) => some (.go ⟨s.stack, .colon members key⟩)
    | _ => none
  | .colon members key =>
    match t with
    | .colon => some (.go ⟨.member members key :: s.stack, .value⟩)
    | _ => none
  | .done _ => none

variable (accept : Doc → Bool) (limit : Option ℕ)

/-- The limit is checked where a container begins, the value where it is complete. -/
def perform : Plan → Except Fault Parse
  | .open stack mode =>
    if ∃ n ∈ limit, n ≤ stack.length then .error .tooDeep else .ok ⟨stack, mode⟩
  | .complete stack v => if accept v then .ok (place v stack) else .error .invalid
  | .go s => .ok s

def feed (s : Parse) (t : Token) : Except Fault Parse :=
  match plan s t with
  | some p => perform accept limit p
  | none => .error .invalid

def run : Parse → List (Option Token) → Except Fault Parse
  | s, [] => .ok s
  | _, none :: _ => .error .invalid
  | s, some t :: ts =>
    match feed accept limit s t with
    | .ok s' => run s' ts
    | .error e => .error e

/-- The document at the end of a run. -/
def document : Except Fault Parse → Except Fault Doc
  | .ok ⟨[], .done v⟩ => .ok v
  | .ok _ => .error .invalid
  | .error e => .error e

/-- The document of a text. -/
def decode (text : List Char) : Except Fault Doc :=
  document (run accept limit {} (tokens .gap text))

/-- The document a text spells, whatever its depth and its members. -/
def read (text : List Char) : Option Doc := (decode (fun _ => true) none text).toOption

end Machine

end Hippo.JsonText
