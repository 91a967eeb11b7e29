import Mathlib.Data.List.Basic
import Mathlib.Tactic.Common

/-!
# The query strings of a full-text index

The lexer of FTS5's `MATCH` operand, and what is read of a query that is a disjunction of strings.
A string is between quotes, a quote inside it is doubled, and a NUL ends the text. Everything
outside of quotes is an operator or a bareword.
-/
namespace Hippo.MatchQuery

inductive Token where
  | string (text : List Char)
  | word (text : List Char)
  | symbol (c : Char)
deriving DecidableEq, Repr

/-- Characters of a bareword. -/
def isBareword (c : Char) : Bool :=
  c.isAlphanum || c = '_' || c.toNat = 0x1A || 0x80 ≤ c.toNat

def isSpace (c : Char) : Bool := c = ' ' || c = '\t' || c = '\n' || c = '\r'

def isSymbol (c : Char) : Bool := "(){}:,+*-^".toList.contains c

/-- Where the lexer is. `closing` is after a quote inside a string, which may be a doubled one. -/
inductive Mode where
  | between
  | word (text : List Char)
  | string (text : List Char)
  | closing (text : List Char)
deriving DecidableEq, Repr

/-- A character between two tokens. -/
def enter (c : Char) : Option (List Token × Mode) :=
  if isSpace c then some ([], .between)
  else if c = '"' then some ([], .string [])
  else if isBareword c then some ([], .word [c])
  else if isSymbol c then some ([.symbol c], .between)
  else none

/-- One character: the tokens that it completes, and the mode after it. -/
def next (c : Char) : Mode → Option (List Token × Mode)
  | .between => enter c
  | .word text =>
    if isBareword c then some ([], .word (text ++ [c]))
    else (enter c).map fun r => (.word text :: r.1, r.2)
  | .string text => some ([], if c = '"' then .closing text else .string (text ++ [c]))
  | .closing text =>
    if c = '"' then some ([], .string (text ++ [c]))
    else (enter c).map fun r => (.string text :: r.1, r.2)

/-- The end of the text. A string must be closed. -/
def finish : Mode → Option (List Token)
  | .between => some []
  | .word text => some [.word text]
  | .string _ => none
  | .closing text => some [.string text]

/-- The tokens of a query from a mode on. `none` is a syntax error. -/
def lex (mode : Mode) : List Char → Option (List Token)
  | [] => finish mode
  | c :: cs =>
    if c = '\x00' then finish mode
    else (next c mode).bind fun r => (lex r.2 cs).map fun rest => r.1 ++ rest

/-- The rest of a disjunction of strings. -/
def alternatives : List Token → Option (List (List Char))
  | [] => some []
  | .word ['O', 'R'] :: .string text :: rest => (alternatives rest).map fun texts => text :: texts
  | _ => none

def disjuncts : List Token → Option (List (List Char))
  | .string text :: rest => (alternatives rest).map fun texts => text :: texts
  | _ => none

/-- The strings of a query that says nothing but `"…" OR "…" OR …`. -/
def read (query : List Char) : Option (List (List Char)) := (lex .between query).bind disjuncts

section Quoting

/-- A string as the query language spells it. -/
def quoted (text : List Char) : List Char :=
  '"' :: text.flatMap (fun c => if c = '"' then ['"', '"'] else [c]) ++ ['"']

def disjunction (texts : List (List Char)) : List Char :=
  (" OR ".toList).intercalate (texts.map quoted)

variable {text acc rest : List Char} {texts : List (List Char)}

/-- A character that completes no token. -/
theorem lex_cons {c : Char} {mode mode' : Mode} (hnul : c ≠ '\x00')
    (h : next c mode = some ([], mode')) : lex mode (c :: rest) = lex mode' rest := by
  rw [lex, if_neg hnul, h, Option.bind_some]
  exact Option.map_id_apply

theorem lex_open : lex .between ('"' :: rest) = lex (.string []) rest :=
  lex_cons (by decide) rfl

theorem lex_close : lex (.string acc) ('"' :: rest) = lex (.closing acc) rest :=
  lex_cons (by decide) rfl

theorem lex_doubled :
    lex (.string acc) ('"' :: '"' :: rest) = lex (.string (acc ++ ['"'])) rest :=
  lex_close.trans (lex_cons (by decide) rfl)

theorem lex_char {c : Char} (hnul : c ≠ '\x00') (hc : c ≠ '"') :
    lex (.string acc) (c :: rest) = lex (.string (acc ++ [c])) rest :=
  lex_cons hnul (by simp [next, hc])

/-- What is quoted is taken back character by character, until a NUL. -/
theorem lex_text (h : '\x00' ∉ text) :
    lex (.string acc) (text.flatMap (fun c => if c = '"' then ['"', '"'] else [c]) ++ rest) =
      lex (.string (acc ++ text)) rest := by
  induction text generalizing acc with
  | nil => simp
  | cons c cs ih =>
    rw [List.mem_cons, not_or] at h
    by_cases hc : c = '"'
    · subst hc
      simp [lex_doubled, ih h.2]
    · have hnul : c ≠ '\x00' := fun heq => h.1 heq.symm
      simp [hc, lex_char hnul hc, ih h.2]

theorem lex_nul (h : '\x00' ∈ text) :
    lex (.string acc) (text.flatMap (fun c => if c = '"' then ['"', '"'] else [c]) ++ rest) =
      none := by
  induction text generalizing acc with
  | nil => cases h
  | cons c cs ih =>
    by_cases hc : c = '"'
    · subst hc
      have hcs : '\x00' ∈ cs := by simpa using h
      simp [lex_doubled, ih hcs]
    · by_cases hnul : c = '\x00'
      · subst hnul
        simp [lex, finish]
      · have hcs : '\x00' ∈ cs := by simpa [Ne.symm hnul] using h
        simp [hc, lex_char hnul hc, ih hcs]

/-- A quoted string is one token, whatever it contains. -/
theorem lex_quoted (rest : List Char) (h : '\x00' ∉ text) :
    lex .between (quoted text ++ rest) = lex (.closing text) rest := by
  have hstart : lex .between (quoted text ++ rest) =
      lex (.string []) (text.flatMap (fun c => if c = '"' then ['"', '"'] else [c]) ++
        ('"' :: rest)) := by
    simp [quoted, lex_open]
  rw [hstart, lex_text h, lex_close, List.nil_append]

theorem lex_quoted_nul (rest : List Char) (h : '\x00' ∈ text) :
    lex .between (quoted text ++ rest) = none := by
  have hstart : lex .between (quoted text ++ rest) =
      lex (.string []) (text.flatMap (fun c => if c = '"' then ['"', '"'] else [c]) ++
        ('"' :: rest)) := by
    simp [quoted, lex_open]
  rw [hstart, lex_nul h]

/-- Between two alternatives. -/
theorem lex_or : lex (.closing text) (" OR ".toList ++ rest) =
    (lex .between rest).map fun tokens => .string text :: .word ['O', 'R'] :: tokens := by
  cases h : lex .between rest <;>
    simp [lex, next, enter, isSpace, isBareword, h]

theorem disjunction_cons (text next : List Char) (rest : List (List Char)) :
    disjunction (text :: next :: rest) =
      quoted text ++ (" OR ".toList ++ disjunction (next :: rest)) := by
  simp [disjunction, List.intercalate]

theorem disjuncts_cons {tokens : List Token} :
    disjuncts (.string text :: .word ['O', 'R'] :: tokens) =
      (disjuncts tokens).map fun texts => text :: texts := by
  cases tokens with
  | nil => simp [disjuncts, alternatives]
  | cons t tokens => cases t <;> simp [disjuncts, alternatives]

/-- A disjunction of quoted strings reads as these strings. A NUL in one of them is an error. -/
theorem read_disjunction (h : texts ≠ []) :
    read (disjunction texts) = if ∃ text ∈ texts, '\x00' ∈ text then none else some texts := by
  induction texts with
  | nil => exact absurd rfl h
  | cons text rest ih =>
    by_cases hnul : '\x00' ∈ text
    · rw [if_pos ⟨text, List.mem_cons_self, hnul⟩]
      cases rest with
      | nil =>
        have hnone := lex_quoted_nul [] hnul
        simp only [List.append_nil] at hnone
        simp [read, disjunction, List.intercalate, hnone]
      | cons next rest => simp [read, disjunction_cons, lex_quoted_nul _ hnul]
    · cases rest with
      | nil =>
        have hlex := lex_quoted [] hnul
        simp only [List.append_nil] at hlex
        simp [read, disjunction, List.intercalate, hlex, lex, finish, disjuncts, alternatives, hnul]
      | cons next rest =>
        have htail := ih (by simp)
        have hread : read (disjunction (text :: next :: rest)) =
            (read (disjunction (next :: rest))).map fun texts => text :: texts := by
          rw [read, disjunction_cons, lex_quoted _ hnul, lex_or, read]
          cases lex .between (disjunction (next :: rest)) with
          | none => rfl
          | some tokens => exact disjuncts_cons
        rw [hread, htail]
        simp only [List.mem_cons, exists_eq_or_imp, hnul, false_or]
        split_ifs <;> rfl

end Quoting

end Hippo.MatchQuery
