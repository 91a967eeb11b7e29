import Hippo.Patterns
import Hippo.PythonLoads
import Hippo.ShellEnrichment

/-!
# Redaction of JSON in session texts

A text that is JSON is redacted by its fields: what a secret name has as its value goes as a whole,
other strings are redacted by themselves, and these may be JSON again. Other texts are redacted by
patterns. The engine for the patterns is a parameter; what is a secret name is not.
-/
namespace Hippo.JsonRedaction
open Backtracking JsonText

section Names

/-- A letter in either case, with the signs Python takes for `i`, `k` and `s`. -/
def sameLetter (a b : Char) : Bool :=
  b.toLower = a ∨ (a = 'i' ∧ (b.toNat = 0x130 ∨ b.toNat = 0x131)) ∨ (a = 'k' ∧ b.toNat = 0x212A) ∨
    (a = 's' ∧ b.toNat = 0x17F)

def litAnyCase (s : String) : Pattern Char :=
  .cat (s.toList.map fun a => .one (sameLetter a))

/-- `[a-z0-9]` with `re.IGNORECASE`. -/
def nameChar (c : Char) : Bool :=
  c.isAlphanum || c.toNat = 0x130 || c.toNat = 0x131 || c.toNat = 0x212A || c.toNat = 0x17F

/-- `[_-]` -/
def separator : Pattern Char := .one fun c => c = '_' || c = '-'

/-- Words with an optional separator between them. -/
def joinedWords (first : String) (others : List String) : Pattern Char :=
  .cat (litAnyCase first :: others.flatMap fun w => [.opt separator, litAnyCase w])

/-- `_SECRET_NAME` -/
def secretName : Pattern Char :=
  .oneOf [
    .cat [.upTo 4 (.cat [.one nameChar, .upTo 31 (.one nameChar), separator]),
      .alt (litAnyCase "token") (litAnyCase "secret")],
    .cat [.opt (.cat [litAnyCase "x", .opt separator]), joinedWords "api" ["key"]],
    joinedWords "aws" ["secret", "access", "key"],
    joinedWords "secret" ["key"],
    joinedWords "private" ["key"],
    litAnyCase "password",
    litAnyCase "passwd",
    .cat [.opt (.cat [litAnyCase "proxy", .opt separator]), litAnyCase "authorization"]]

/-- `is_secret_key` of a string. -/
def isSecretKey (key : List ℕ) : Bool := [] ∈ secretName.run (key.map Char.ofNat)

def codes (s : String) : List ℕ := s.toList.map Char.toNat

example : isSecretKey (codes "X-Api_Key") = true ∧ isSecretKey (codes "tokens") = false := by
  decide +kernel

/-- Neither a quote nor an opening bracket. -/
def IsPlain (c : Char) : Prop := c ≠ '[' ∧ c ≠ '\x7b' ∧ c ≠ '"'

theorem within_class {p : Char → Bool} (hbracket : p '[' = false) (hbrace : p '\x7b' = false)
    (hquote : p '"' = false) : (Pattern.one p).Within IsPlain := by
  refine Pattern.within_one fun c hc => ⟨?_, ?_, ?_⟩
  · rintro rfl
    simp [hbracket] at hc
  · rintro rfl
    simp [hbrace] at hc
  · rintro rfl
    simp [hquote] at hc

theorem within_separator : separator.Within IsPlain :=
  within_class (by decide) (by decide) (by decide)

theorem within_litAnyCase {s : String} (h : s.toList.all fun a => sameLetter a '[' = false ∧
    sameLetter a '\x7b' = false ∧ sameLetter a '"' = false) :
    (litAnyCase s).Within IsPlain := by
  refine Pattern.within_cat fun r hr => ?_
  obtain ⟨a, ha, rfl⟩ := List.mem_map.mp hr
  obtain ⟨hbracket, hbrace, hquote⟩ := of_decide_eq_true (List.all_eq_true.mp h a ha)
  exact within_class hbracket hbrace hquote

theorem within_joinedWords {first : String} {others : List String}
    (h : ∀ w ∈ first :: others, (litAnyCase w).Within IsPlain) :
    (joinedWords first others).Within IsPlain := by
  refine Pattern.within_cat fun r hr => ?_
  rcases List.mem_cons.mp hr with rfl | hr
  · exact h first List.mem_cons_self
  · obtain ⟨w, hw, hr⟩ := List.mem_flatMap.mp hr
    simp only [List.mem_cons, List.not_mem_nil, or_false] at hr
    rcases hr with rfl | rfl
    · exact Pattern.within_opt within_separator
    · exact h w (List.mem_cons_of_mem first hw)

/-- A word that may stand before another one. -/
theorem within_optional {s : String} (h : (litAnyCase s).Within IsPlain) :
    (Pattern.opt (.cat [litAnyCase s, .opt separator])).Within IsPlain := by
  refine Pattern.within_opt (Pattern.within_cat ?_)
  simp [h, Pattern.within_opt within_separator]

/-- No secret name has a quote or an opening bracket. -/
theorem within_secretName : secretName.Within IsPlain := by
  have hchar : (Pattern.one nameChar).Within IsPlain :=
    within_class (by decide) (by decide) (by decide)
  have hpart : (Pattern.cat [.one nameChar, .upTo 31 (.one nameChar), separator]).Within
      IsPlain := by
    refine Pattern.within_cat ?_
    simp [hchar, Pattern.within_upTo 31 hchar, within_separator]
  have hsecret : (litAnyCase "secret").Within IsPlain := within_litAnyCase (by decide)
  have htoken : (litAnyCase "token").Within IsPlain := within_litAnyCase (by decide)
  have hkey : (litAnyCase "key").Within IsPlain := within_litAnyCase (by decide)
  have happi : (litAnyCase "api").Within IsPlain := within_litAnyCase (by decide)
  have haws : (litAnyCase "aws").Within IsPlain := within_litAnyCase (by decide)
  have haccess : (litAnyCase "access").Within IsPlain := within_litAnyCase (by decide)
  have hprivate : (litAnyCase "private").Within IsPlain := within_litAnyCase (by decide)
  have hauthorization : (litAnyCase "authorization").Within IsPlain :=
    within_litAnyCase (by decide)
  have hx : (litAnyCase "x").Within IsPlain := within_litAnyCase (by decide)
  have hproxy : (litAnyCase "proxy").Within IsPlain := within_litAnyCase (by decide)
  have hapikey : (joinedWords "api" ["key"]).Within IsPlain :=
    within_joinedWords (by simp [happi, hkey])
  refine Pattern.within_oneOf ?_
  simp only [List.forall_mem_cons]
  refine ⟨Pattern.within_cat ?_, Pattern.within_cat ?_, within_joinedWords ?_,
    within_joinedWords ?_, within_joinedWords ?_, within_litAnyCase (by decide),
    within_litAnyCase (by decide), Pattern.within_cat ?_, by simp⟩
  · simp [Pattern.within_upTo 4 hpart, Pattern.within_alt htoken hsecret]
  · simp [within_optional hx, hapikey]
  · simp [haws, hsecret, haccess, hkey]
  · simp [hsecret, hkey]
  · simp [hprivate, hkey]
  · simp [within_optional hproxy, hauthorization]

end Names

section Engine

structure Regex where
  pattern : String
  ignoreCase : Bool := false
deriving DecidableEq, Repr

/-- `_SECRET_NAME` as it is written into other patterns. -/
def secretNameText : String :=
  "(?:[a-z0-9]\x7b1,32\x7d[_-])\x7b0,4\x7d(?:token|secret)|" ++
    "(?:x[_-])?api[_-]?key|aws[_-]?secret[_-]?access[_-]?key|" ++
    "secret[_-]?key|private[_-]?key|password|passwd|(?:proxy[_-]?)?authorization"

/-- `_ESCAPED_SECRET_ASSIGNMENT` -/
def escapedSecretAssignment : Regex :=
  ⟨"(?i)\\\\+[\"'](?:" ++ secretNameText ++ ")\\\\+[\"']\\s*[=:]\\s*\\\\+[\"']", false⟩

/-- `_PATTERNS` -/
def patterns : List Regex := [
  ⟨"(?s)-----BEGIN [A-Z ]*PRIVATE KEY-----.*?(?:-----END [A-Z ]*PRIVATE KEY-----|$)" ++
    "|\\[REDACTED\\](?: [A-Z ]*PRIVATE KEY-----)?[ \\t]*\\r?\\n" ++
    "(?:(?:Proc-Type|DEK-Info):[^\\r\\n]*\\r?\\n)*(?:[ \\t]*\\r?\\n)*" ++
    "(?:[A-Za-z0-9+/=]+[ \\t]*\\r?\\n)+-----END [A-Z ]*PRIVATE KEY-----", false⟩,
  ⟨"AKIA[0-9A-Z]\x7b16\x7d", false⟩,
  ⟨"ghp_[a-zA-Z0-9]\x7b36\x7d|github_pat_[a-zA-Z0-9_]\x7b82\x7d", false⟩,
  ⟨"(?i)(?:proxy-)?authorization(?:\\\\*[\"'])?\\s*:\\s*(?:\\\\*[\"'])?" ++
    "[^\\r\\n\\\"']+", false⟩,
  ⟨"(?i)private[_-]?key\\s*[=:]\\s*\\[REDACTED\\]", false⟩,
  ⟨"(?i)[\"']?(?:" ++ secretNameText ++ ")[\"']?\\s*[=:]\\s*" ++
    "(?:\"(?:\\\\.|[^\"\\\\])*(?:\"|$)|'(?:\\\\.|[^'\\\\])*(?:'|$))", false⟩,
  ⟨"(?i)(?:" ++ secretNameText ++ ")\\s*[=:]\\s*(?!\\[REDACTED\\])\\S+", false⟩,
  ⟨"eyJ[a-zA-Z0-9_-]\x7b10,\x7d\\.eyJ[a-zA-Z0-9_-]\x7b10,\x7d\\.[a-zA-Z0-9_-]+", false⟩]

/-- `_INDEX_SPANS` -/
def indexSpans : List (Regex × String) := [
  (⟨"(?<!\\w)(?:ghp_|github_pat_)[a-zA-Z0-9_]*", false⟩, "<github-token>"),
  (⟨"\\bAKIA[a-zA-Z0-9_]*", false⟩, "<aws-key>"),
  (⟨"\\beyJ[a-zA-Z0-9_-]*(?:\\.[a-zA-Z0-9_-]+)\x7b0,2\x7d", false⟩, "<jwt>"),
  (⟨"\\b[0-9a-f]\x7b64\x7d\\b", true⟩, "<hash>"),
  (⟨"(?<![\\w/+])(?=[A-Za-z0-9+]*[A-Z])(?=[A-Za-z0-9+]*[a-z])" ++
    "(?=[A-Za-z0-9+]*[0-9])[A-Za-z0-9+]\x7b24,\x7d=\x7b0,2\x7d(?![\\w/+])", false⟩, "<base64>")]

/-- What Python decides about patterns and numbers. -/
structure Python where
  search : Regex → List ℕ → Bool
  /-- `pattern.sub(new, text)` -/
  sub : Regex → List ℕ → List ℕ → List ℕ
  /-- How `json.dumps` writes a number. -/
  numberText : Scalar → String
  /-- `==` on numbers, booleans and `None`. -/
  numberEq : Scalar → Scalar → Bool
  /-- The digits of a number and the depth `json.loads` takes. -/
  accept : Doc → Bool
  limit : Option ℕ

/-- A substitution changes nothing, or what it puts in stands in its result. -/
def Python.Documented (py : Python) : Prop :=
  ∀ r new text, py.sub r new text = text ∨ ∃ pre post, py.sub r new text = pre ++ new ++ post

end Engine

section Writing

variable (py : Python)

def hexDigit (n : ℕ) : ℕ := if n < 10 then 48 + n else 87 + n

/-- A code point in a string, with `ensure_ascii=False`. -/
def escape (u : ℕ) : List ℕ :=
  if u = 0x22 then codes "\\\""
  else if u = 0x5c then codes "\\\\"
  else if u = 0x0a then codes "\\n"
  else if u = 0x0d then codes "\\r"
  else if u = 0x09 then codes "\\t"
  else if u = 0x0c then codes "\\f"
  else if u = 0x08 then codes "\\b"
  else if u < 0x20 then codes "\\u00" ++ [hexDigit (u / 16), hexDigit (u % 16)]
  else [u]

def dumpsString (s : List ℕ) : List ℕ := 0x22 :: (s.flatMap escape ++ [0x22])

mutual

/-- `json.dumps(value, ensure_ascii=False)`. -/
def dumps : Doc → List ℕ
  | .scalar (.string s) => dumpsString s
  | .scalar .null => codes "null"
  | .scalar (.bool b) => codes (if b then "true" else "false")
  | .scalar s => codes (py.numberText s)
  | .array items => 0x5b :: ((codes ", ").intercalate (dumpsItems items) ++ [0x5d])
  | .object members => 0x7b :: ((codes ", ").intercalate (dumpsMembers members) ++ [0x7d])

def dumpsItems : List Doc → List (List ℕ)
  | [] => []
  | v :: items => dumps v :: dumpsItems items

def dumpsMembers : List (List ℕ × Doc) → List (List ℕ)
  | [] => []
  | m :: members => (dumpsString m.1 ++ codes ": " ++ dumps m.2) :: dumpsMembers members

end

end Writing

section Redacting

variable (py : Python)

/-- `REPLACEMENT` -/
def replacement : List ℕ := codes "[REDACTED]"

/-- An opening brace, an opening bracket and a quote. -/
def openers : List ℕ := [0x7b, 0x5b, 0x22]

/-- `text.lstrip().startswith(("{", "[", '"'))` -/
def opens (text : List ℕ) : Bool :=
  ((text.dropWhile fun u => PyText.isSpace (Char.ofNat u)).head?).any (· ∈ openers)

/-- The objects of a document as dicts. -/
def asDicts (v : Doc) : Doc := v.rebuild ⟨id, id, fun _ => none⟩

/-- `json.loads` of a text that begins like an object, an array or a string. -/
def decode (text : List ℕ) : Option Doc :=
  if opens text then (loads py.accept py.limit text).map asDicts else none

variable (leaf : List ℕ → List ℕ)

/-- What becomes of strings and keys, and of the value of a secret member. -/
def redaction : Doc.Rebuild where
  onString := leaf
  onKey := leaf
  instead key := if isSecretKey key then some (.scalar (.string replacement)) else none

/-- `redact_state` with what is made of its strings. -/
def redactStateWith (v : Doc) : Doc := v.rebuild (redaction leaf)

/-- `isinstance(decoded, (dict, list, str))` -/
def isStructured : Doc → Bool
  | .scalar (.string _) | .array _ | .object _ => true
  | .scalar _ => false

/-- `redact` with what it makes of the strings of a decoded text. -/
def redactWith (text : List ℕ) : List ℕ :=
  if text = [] then text
  else
    match (decode py text).filter isStructured with
    | some decoded =>
      let clean := redactStateWith leaf decoded
      if Doc.pyEq py.numberEq clean decoded then text else dumps py clean
    | none =>
      if py.search escapedSecretAssignment text then replacement
      else patterns.foldl (fun text r => py.sub r replacement text) text

/-- The strings of a decoded text are shorter than it, so its length is depth enough. -/
def redactUpTo : ℕ → List ℕ → List ℕ
  | 0, text => text
  | n + 1, text => redactWith py (redactUpTo n) text

/-- `redact` -/
def redact (text : List ℕ) : List ℕ := redactUpTo py (text.length + 1) text

/-- `redact_state` -/
def redactState (v : Doc) : Doc := redactStateWith (redact py) v

/-- The members of a redacted dict. -/
def redactedMembers (members : List (List ℕ × Doc)) : List (List ℕ × Doc) :=
  match redactState py (.object members) with
  | .object members => members
  | _ => []

mutual

/-- `index_text`, if it ends within some depth. -/
def indexText : ℕ → List ℕ → Option (List ℕ)
  | 0, _ => none
  | n + 1, text =>
    let text := redact py text
    match decode py text with
    | some decoded => (indexState n decoded).map fun clean =>
      if Doc.pyEq py.numberEq clean decoded then text else dumps py clean
    | none => some (indexSpans.foldl (fun text s => py.sub s.1 (codes s.2) text) text)

/-- `index_state` -/
def indexState : ℕ → Doc → Option Doc
  | 0, _ => none
  | n + 1, .scalar (.string s) => (indexText n s).map fun s => .scalar (.string s)
  | _ + 1, .scalar s => some (.scalar s)
  | n + 1, .array items => (items.mapM (indexState n)).map .array
  | n + 1, .object members =>
    ((redactedMembers py members).mapM fun m =>
      (indexText n m.1).bind fun key => (indexState n m.2).map fun v => (key, v)).map
        fun members => .object (dictOf members)

end

end Redacting

end Hippo.JsonRedaction
