import Hippo.Replacing
import Hippo.Transcript

/-!
# Redaction

The engine decides on the text it is given which rules apply, and replaces their matches one rule
after the other.
-/
namespace Hippo.Redaction
open Backtracking Pattern RustText

/-- `RedactPattern`. -/
structure RedactPattern where
  name : String
  regex : Pattern Char
  replacement : String := "[REDACTED]"

/-- `RedactionResult`. -/
structure RedactionResult where
  text : String
  count : ℕ := 0
  hits : List (String × ℕ) := []
deriving DecidableEq, Repr

/-- One rule of the loop in `redact`: its matches are counted and replaced in the current text. -/
def RedactPattern.apply (p : RedactPattern) (result : RedactionResult) : RedactionResult :=
  let n := (p.regex.findIter result.text.toList).length
  if n = 0 then result
  else
    { text := String.ofList (replaceAll p.regex p.replacement.toList result.text.toList)
      count := result.count + n
      hits := result.hits ++ [(p.name, n)] }

/-- `RedactionEngine::redact`: the rules whose patterns match the input. -/
def redact (patterns : List RedactPattern) (input : String) : RedactionResult :=
  (patterns.filter fun p => p.regex.isMatch input.toList).foldl (fun result p => p.apply result)
    { text := input }

section Patterns

def lit (s : String) : Pattern Char := word s.toList

/-- A letter, in either case; `k` and `s` also fold to a sign of their own. -/
def sameLetter (a b : Char) : Bool :=
  b.toLower = a ∨ (a = 'k' ∧ b.toNat = 0x212A) ∨ (a = 's' ∧ b.toNat = 0x17F)

/-- `(?i)` for a word in lower case. -/
def litAnyCase (s : String) : Pattern Char := cat (s.toList.map fun a => one (sameLetter a))

/-- `\s` -/
def space : Pattern Char := one RustText.isWhitespace

/-- `\S` -/
def nonSpace : Pattern Char := one fun c => !RustText.isWhitespace c

def charIn (s : String) : Pattern Char := one fun c => s.toList.contains c

def charNotIn (s : String) : Pattern Char := one fun c => !s.toList.contains c

/-- `[A-Z ]*PRIVATE KEY-----` -/
def pemLabel : List (Pattern Char) :=
  [star (one fun c => c.isUpper || c = ' '), lit "PRIVATE KEY-----"]

/-- `\r?\n` -/
def newline : Pattern Char := cat [opt (lit "\r"), lit "\n"]

def privateKeyPem : Pattern Char :=
  alt
    (cat ([lit "-----BEGIN "] ++ pemLabel ++ [lazyStar (one fun _ => true),
      alt (cat (lit "-----END " :: pemLabel)) atEnd]))
    (cat ([lit "[REDACTED]", opt (cat (lit " " :: pemLabel)), star (charIn " \t"), newline,
      star (cat [alt (lit "Proc-Type") (lit "DEK-Info"), lit ":", star (charNotIn "\r\n"),
        newline]),
      star (cat [star (charIn " \t"), newline]),
      plus (cat [plus (one fun c => c.isAlphanum || c = '+' || c = '/' || c = '='),
        star (charIn " \t"), newline]),
      lit "-----END "] ++ pemLabel))

/-- A name of two parts with an optional `_` or `-` between them. -/
def twoPartKey (a b : String) : Pattern Char := cat [litAnyCase a, opt (charIn "_-"), litAnyCase b]

def secretKey : Pattern Char :=
  oneOf [twoPartKey "api" "key", twoPartKey "api" "token", twoPartKey "access" "token",
    twoPartKey "auth" "token", twoPartKey "secret" "key", twoPartKey "private" "key",
    litAnyCase "password"]

/-- A quoted value, up to its closing quote or the end of the text. -/
def quoted (quote : String) : Pattern Char :=
  cat [lit quote,
    star (alt (cat [lit "\\", charNotIn "\n"]) (charNotIn (quote ++ "\\"))),
    alt (lit quote) atEnd]

def quotedSecretAssignment : Pattern Char :=
  cat [opt (charIn "\"'"), secretKey, opt (charIn "\"'"), star space, charIn "=:", star space,
    alt (quoted "\"") (quoted "'")]

def awsAccessKey : Pattern Char :=
  cat [lit "AKIA", exactly 16 (one fun c => c.isDigit || c.isUpper)]

def githubPat : Pattern Char :=
  alt (cat [lit "ghp_", exactly 36 (one Char.isAlphanum)])
    (cat [lit "github_pat_", exactly 82 (one fun c => c.isAlphanum || c = '_')])

def genericSecretAssignment : Pattern Char :=
  cat [secretKey, star space, charIn "=:", star space, atLeast 8 nonSpace]

def jwt : Pattern Char :=
  let token := one fun c => c.isAlphanum || c = '_' || c = '-'
  cat [lit "eyJ", atLeast 10 token, lit ".eyJ", atLeast 10 token, lit ".", plus token]

def bearerHeader : Pattern Char :=
  cat [litAnyCase "authorization", lit ":", star space, litAnyCase "bearer", plus space,
    plus nonSpace]

end Patterns

/-- `RedactConfig::builtin`. -/
def builtin : List RedactPattern :=
  [⟨"private_key_pem", privateKeyPem, "[REDACTED]"⟩,
    ⟨"quoted_secret_assignment", quotedSecretAssignment, "[REDACTED]"⟩,
    ⟨"aws_access_key", awsAccessKey, "[REDACTED]"⟩,
    ⟨"github_pat", githubPat, "[REDACTED]"⟩,
    ⟨"generic_secret_assignment", genericSecretAssignment, "[REDACTED]"⟩,
    ⟨"jwt", jwt, "[REDACTED]"⟩,
    ⟨"bearer_header", bearerHeader, "[REDACTED]"⟩]

example : (redact builtin "password=\napikey=\nabcdefgh").text = "password=\n[REDACTED]" := by
  decide +kernel

end Hippo.Redaction
