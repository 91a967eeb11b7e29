import Hippo.JsonReading
import Hippo.KnowledgeStore
import Hippo.ShellEnrichment

/-!
# The repair of JSON escapes

`_repair_json_escapes` doubles each backslash that does not begin a valid escape. A text is a
sequence of pieces: characters, escapes and lone backslashes. The repair changes the lone ones.
-/
namespace Hippo.EscapeRepair

open JsonText

section Source

def isHex (c : Char) : Bool := (hexDigit? c).isSome

/-- The length of a match of `(?:["\\/bfnrt]|u[0-9a-fA-F]{4})` here. -/
def escapeLength : List Char → Option ℕ
  | [] => none
  | c :: rest =>
    if (escaped? c).isSome then some 1
    else if c = 'u' ∧ (rest.take 4).length = 4 ∧ (rest.take 4).all isHex then some 5
    else none

/-- The substitution for `\\(?:["\\/bfnrt]|u[0-9a-fA-F]{4})|\\`. `skip` characters are left of a
match that stays. -/
def substitute : ℕ → List Char → List Char
  | _, [] => []
  | skip + 1, c :: cs => c :: substitute skip cs
  | 0, c :: cs =>
    if c = '\\' then
      match escapeLength cs with
      | some length => c :: substitute length cs
      | none => '\\' :: '\\' :: substitute 0 cs
    else c :: substitute 0 cs

/-- `_repair_json_escapes`. -/
def repairJsonEscapes (text : String) : String := String.ofList (substitute 0 text.toList)

example : repairJsonEscapes "\\d\\n\\u00e9\\u00" = "\\\\d\\n\\u00e9\\\\u00" := by decide +kernel

end Source

section Pieces

inductive Piece where
  | plain (c : Char)
  | escape (body : List Char)
  | lone
deriving DecidableEq

namespace Piece

def text : Piece → List Char
  | plain c => [c]
  | escape body => '\\' :: body
  | lone => ['\\']

/-- A lone backslash becomes an escaped one. -/
def repaired : Piece → Piece
  | lone => escape ['\\']
  | p => p

/-- What follows the backslash of a valid escape. -/
def IsBody (body : List Char) : Prop :=
  (∃ c, body = [c] ∧ (escaped? c).isSome = true) ∨
    ∃ digits : List Char, body = 'u' :: digits ∧ digits.length = 4 ∧ digits.all isHex = true

/-- A character that is no backslash, or a valid escape. -/
def Proper : Piece → Prop
  | plain c => c ≠ '\\'
  | escape body => IsBody body
  | lone => False

/-- The code unit a piece stands for in a JSON string. -/
def unit? : Piece → Option ℕ
  | plain c => some c.toNat
  | escape [c] => escaped? c
  | escape (_ :: digits) => some (digits.foldl (fun v d => 16 * v + (hexDigit? d).getD 0) 0)
  | _ => none

end Piece

def pieceAt (c : Char) (cs : List Char) : Piece :=
  if c = '\\' then
    match escapeLength cs with
    | some length => .escape (cs.take length)
    | none => .lone
  else .plain c

/-- The pieces of a text, from left to right. -/
def piecesFrom : ℕ → List Char → List Piece
  | _, [] => []
  | skip + 1, _ :: cs => piecesFrom skip cs
  | 0, c :: cs => pieceAt c cs :: piecesFrom ((pieceAt c cs).text.length - 1) cs

def pieces (text : List Char) : List Piece := piecesFrom 0 text

/-- Every backslash belongs to a valid escape. -/
def WellEscaped (text : List Char) : Prop :=
  ∃ ps : List Piece, (∀ p ∈ ps, p.Proper) ∧ text = ps.flatMap Piece.text

/-- The code units of a text, if all its escapes are valid. -/
def units? (text : List Char) : Option (List ℕ) := (pieces text).mapM Piece.unit?

end Pieces

section Matching

variable {c : Char} {cs body rest : List Char} {length : ℕ}

theorem isBody_of_escapeLength (h : escapeLength cs = some length) :
    Piece.IsBody (cs.take length) ∧ (cs.take length).length = length := by
  cases cs with
  | nil => cases h
  | cons c rest =>
    simp only [escapeLength] at h
    split_ifs at h with hshort hlong
    · cases h
      exact ⟨Or.inl ⟨c, rfl, hshort⟩, rfl⟩
    · cases h
      obtain ⟨rfl, hlength, hhex⟩ := hlong
      refine ⟨Or.inr ⟨rest.take 4, rfl, hlength, hhex⟩, ?_⟩
      rw [List.take_succ_cons, List.length_cons, hlength]

theorem escapeLength_append (h : Piece.IsBody body) (rest : List Char) :
    escapeLength (body ++ rest) = some body.length := by
  rcases h with ⟨c, rfl, hshort⟩ | ⟨digits, rfl, hlength, hhex⟩
  · simp [escapeLength, hshort]
  · have hu : ¬ (escaped? 'u').isSome = true := by decide
    have htake : (digits ++ rest).take 4 = digits := by
      rw [← hlength]
      simp
    rw [List.cons_append, escapeLength, if_neg hu, htake, if_pos ⟨rfl, hlength, hhex⟩,
      List.length_cons, hlength]

theorem pieceAt_plain (h : c ≠ '\\') (cs : List Char) : pieceAt c cs = .plain c := if_neg h

theorem pieceAt_escape (h : escapeLength cs = some length) :
    pieceAt '\\' cs = .escape (cs.take length) := by
  simp [pieceAt, h]

theorem pieceAt_lone (h : escapeLength cs = none) : pieceAt '\\' cs = .lone := by
  simp [pieceAt, h]

/-- A piece is at the front of the text, and it is proper unless it is a lone backslash. -/
theorem pieceAt_spec (c : Char) (cs : List Char) :
    c :: cs = (pieceAt c cs).text ++ cs.drop ((pieceAt c cs).text.length - 1) ∧
      ((pieceAt c cs).Proper ∨ pieceAt c cs = .lone) := by
  by_cases hc : c = '\\'
  · subst hc
    cases hlength : escapeLength cs with
    | none =>
      rw [pieceAt_lone hlength]
      exact ⟨rfl, Or.inr rfl⟩
    | some length =>
      obtain ⟨hbody, htake⟩ := isBody_of_escapeLength hlength
      rw [pieceAt_escape hlength]
      refine ⟨?_, Or.inl hbody⟩
      rw [Piece.text, List.length_cons, htake, Nat.add_sub_cancel, List.cons_append,
        List.take_append_drop]
  · rw [pieceAt_plain hc]
    exact ⟨rfl, Or.inl hc⟩

theorem piecesFrom_skip (skip : ℕ) (cs : List Char) :
    piecesFrom skip cs = pieces (cs.drop skip) := by
  induction cs generalizing skip with
  | nil => cases skip <;> rfl
  | cons c cs ih =>
    cases skip with
    | zero => rfl
    | succ skip => exact ih skip

theorem pieces_cons (c : Char) (cs : List Char) :
    pieces (c :: cs) = pieceAt c cs :: pieces (cs.drop ((pieceAt c cs).text.length - 1)) := by
  rw [pieces, piecesFrom, piecesFrom_skip]

theorem substitute_skip (skip : ℕ) (cs : List Char) :
    substitute skip cs = cs.take skip ++ substitute 0 (cs.drop skip) := by
  induction cs generalizing skip with
  | nil => cases skip <;> rfl
  | cons c cs ih =>
    cases skip with
    | zero => rfl
    | succ skip => exact congrArg (c :: ·) (ih skip)

theorem substitute_cons (c : Char) (cs : List Char) :
    substitute 0 (c :: cs) = (pieceAt c cs).repaired.text ++
      substitute 0 (cs.drop ((pieceAt c cs).text.length - 1)) := by
  rw [substitute]
  by_cases hc : c = '\\'
  · subst hc
    rw [if_pos rfl]
    cases hlength : escapeLength cs with
    | none =>
      rw [pieceAt_lone hlength]
      rfl
    | some length =>
      rw [pieceAt_escape hlength]
      dsimp only [Piece.repaired, Piece.text]
      rw [substitute_skip, List.length_cons, (isBody_of_escapeLength hlength).2,
        Nat.add_sub_cancel, List.cons_append]
  · rw [if_neg hc, pieceAt_plain hc]
    rfl

/-- Induction along the pieces of a text. -/
theorem pieces_induction {motive : List Char → Prop} (nil : motive [])
    (cons : ∀ c cs, motive (cs.drop ((pieceAt c cs).text.length - 1)) → motive (c :: cs))
    (text : List Char) : motive text := by
  generalize hn : text.length = n
  induction n using Nat.strong_induction_on generalizing text with
  | _ n ih =>
    cases text with
    | nil => exact nil
    | cons c cs =>
      refine cons c cs (ih _ ?_ _ rfl)
      rw [List.length_drop, ← hn, List.length_cons]
      omega

theorem flatMap_pieces (text : List Char) : (pieces text).flatMap Piece.text = text := by
  induction text using pieces_induction with
  | nil => rfl
  | cons c cs ih =>
    rw [pieces_cons, List.flatMap_cons, ih]
    exact (pieceAt_spec c cs).1.symm

theorem substitute_eq (text : List Char) :
    substitute 0 text = ((pieces text).map Piece.repaired).flatMap Piece.text := by
  induction text using pieces_induction with
  | nil => rfl
  | cons c cs ih =>
    rw [substitute_cons, pieces_cons, List.map_cons, List.flatMap_cons, ih]

theorem proper_or_lone {text : List Char} {p : Piece} (h : p ∈ pieces text) :
    p.Proper ∨ p = .lone := by
  induction text using pieces_induction with
  | nil => cases h
  | cons c cs ih =>
    rw [pieces_cons, List.mem_cons] at h
    rcases h with rfl | h
    · exact (pieceAt_spec c cs).2
    · exact ih h

theorem proper_repaired {p : Piece} (h : p.Proper ∨ p = .lone) : p.repaired.Proper := by
  rcases h with h | rfl
  · cases p with
    | plain c => exact h
    | escape body => exact h
    | lone => exact h.elim
  · exact Or.inl ⟨'\\', rfl, by decide⟩

/-- Proper pieces are found again. -/
theorem pieces_flatMap (ps : List Piece) (h : ∀ p ∈ ps, p.Proper) :
    pieces (ps.flatMap Piece.text) = ps := by
  induction ps with
  | nil => rfl
  | cons p ps ih =>
    have hp := h p List.mem_cons_self
    have hps := ih fun q hq => h q (List.mem_cons_of_mem p hq)
    cases p with
    | plain c =>
      have hpiece := pieceAt_plain hp (ps.flatMap Piece.text)
      rw [List.flatMap_cons, Piece.text, List.singleton_append, pieces_cons, hpiece]
      exact congrArg (Piece.plain c :: ·) hps
    | escape body =>
      have hpiece := pieceAt_escape (escapeLength_append hp (ps.flatMap Piece.text))
      rw [List.take_left] at hpiece
      rw [List.flatMap_cons, Piece.text, List.cons_append, pieces_cons, hpiece, Piece.text,
        List.length_cons, Nat.add_sub_cancel, List.drop_left, hps]
    | lone => exact hp.elim

end Matching

section Laws

variable {text : List Char}

theorem pieces_substitute (text : List Char) :
    pieces (substitute 0 text) = (pieces text).map Piece.repaired := by
  rw [substitute_eq]
  refine pieces_flatMap _ fun p hp => ?_
  obtain ⟨q, hq, rfl⟩ := List.mem_map.mp hp
  exact proper_repaired (proper_or_lone hq)

theorem wellEscaped_substitute (text : List Char) : WellEscaped (substitute 0 text) := by
  refine ⟨(pieces text).map Piece.repaired, fun p hp => ?_, substitute_eq text⟩
  obtain ⟨q, hq, rfl⟩ := List.mem_map.mp hp
  exact proper_repaired (proper_or_lone hq)

theorem wellEscaped_iff : WellEscaped text ↔ ∀ p ∈ pieces text, p.Proper := by
  constructor
  · rintro ⟨ps, hps, rfl⟩
    rwa [pieces_flatMap ps hps]
  · intro h
    exact ⟨pieces text, h, (flatMap_pieces text).symm⟩

theorem repaired_eq {p : Piece} (h : p.Proper) : p.repaired = p := by
  cases p with
  | plain c => rfl
  | escape body => rfl
  | lone => exact h.elim

theorem substitute_of_wellEscaped (h : WellEscaped text) : substitute 0 text = text := by
  have hsame : (pieces text).map Piece.repaired = (pieces text).map id :=
    List.map_congr_left fun p hp => repaired_eq (wellEscaped_iff.mp h p hp)
  rw [substitute_eq, hsame, List.map_id, flatMap_pieces]

theorem isSome_unit? {p : Piece} (h : p.Proper) : ∃ u, p.unit? = some u := by
  cases p with
  | plain c => exact ⟨_, rfl⟩
  | escape body =>
    rcases h with ⟨c, rfl, hshort⟩ | ⟨digits, rfl, hlength, -⟩
    · exact Option.isSome_iff_exists.mp hshort
    · cases digits with
      | nil => cases hlength
      | cons d digits => exact ⟨_, rfl⟩
  | lone => exact h.elim

/-- A backslash for a lone one, and for every other piece what it stood for. -/
def readAs (p : Piece) : ℕ := p.unit?.getD 0x5c

theorem unit?_repaired {p : Piece} (h : p.Proper ∨ p = .lone) :
    p.repaired.unit? = some (readAs p) := by
  rcases h with h | rfl
  · obtain ⟨u, hu⟩ := isSome_unit? h
    rw [repaired_eq h, readAs, hu]
    rfl
  · rfl

theorem units?_substitute (text : List Char) :
    units? (substitute 0 text) = some ((pieces text).map readAs) := by
  have hall : ∀ p ∈ pieces text, p.Proper ∨ p = .lone := fun p hp => proper_or_lone hp
  rw [units?, pieces_substitute]
  generalize pieces text = ps at hall
  induction ps with
  | nil => rfl
  | cons p ps ih =>
    rw [List.map_cons, List.mapM_cons, unit?_repaired (hall p List.mem_cons_self),
      ih fun q hq => hall q (List.mem_cons_of_mem p hq)]
    rfl

end Laws

section Reading

/-- `lex`, with the control characters that `strict=False` lets into strings. -/
def lexLax : Lexer → Char → Option (List Token × Lexer)
  | .string units, c =>
    if c = '"' then some ([.scalar (.string (joinSurrogates units.reverse))], .gap)
    else if c = '\\' then some ([], .escape units)
    else some ([], .string (c.toNat :: units))
  | st, c => lex st c

def tokensLax (st : Lexer) : List Char → List (Option Token)
  | [] => ending st
  | c :: cs =>
    match lexLax st c with
    | none => [none]
    | some r => r.1.map some ++ tokensLax r.2 cs

/-- The document a text spells for `json.loads(text, strict=False)`. -/
def readLax (text : List Char) : Option Doc :=
  (document (run (fun _ => true) none {} (tokensLax .gap text))).toOption

/-- The lexer over a whole text. -/
def lexAll : Lexer → List Char → Option Lexer
  | st, [] => some st
  | st, c :: cs => (lexLax st c).bind fun r => lexAll r.2 cs

theorem wellEscaped_nil : WellEscaped [] := ⟨[], by simp, rfl⟩

theorem wellEscaped_cons {p : Piece} {text : List Char} (hp : p.Proper) (h : WellEscaped text) :
    WellEscaped (p.text ++ text) := by
  obtain ⟨ps, hps, rfl⟩ := h
  exact ⟨p :: ps, List.forall_mem_cons.mpr ⟨hp, hps⟩, rfl⟩

theorem wellEscaped_plain {c : Char} {text : List Char} (hc : c ≠ '\\') (h : WellEscaped text) :
    WellEscaped (c :: text) :=
  @wellEscaped_cons (.plain c) text hc h

/-- What the rest of the text is, if the lexer gets through it. -/
def Rest : Lexer → List Char → Prop
  | .escape _, text => WellEscaped ('\\' :: text)
  | .hex _ left _, text => ∀ digits : List Char, digits.length + left = 4 →
      digits.all isHex = true → WellEscaped ('\\' :: 'u' :: (digits ++ text))
  | _, text => WellEscaped text

/-- Not within an escape. -/
def Outside : Lexer → Prop
  | .escape _ | .hex _ _ _ => False
  | _ => True

theorem rest_of_outside {st : Lexer} {text : List Char} (h : Outside st) :
    Rest st text ↔ WellEscaped text := by
  cases st with
  | escape units => exact h.elim
  | hex units left value => exact h.elim
  | gap | letters rest s | number phase n | string units => exact Iff.rfl

theorem start_outside {c : Char} {r : List Token × Lexer} (h : start c = some r) :
    c ≠ '\\' ∧ Outside r.2 := by
  constructor
  · rintro rfl
    cases h
  · unfold start at h
    repeat' split at h
    all_goals first | cases h; trivial | cases h

/-- Between strings there is no backslash. -/
theorem lex_outside {st : Lexer} {c : Char} {r : List Token × Lexer} (hst : Outside st)
    (hstring : ∀ units, st ≠ .string units) (h : lex st c = some r) :
    c ≠ '\\' ∧ Outside r.2 := by
  cases st with
  | gap => exact start_outside h
  | letters rest s =>
    cases rest with
    | nil => cases h
    | cons x rest =>
      simp only [lex] at h
      split_ifs at h with hbad hlast
      · cases h
        refine ⟨?_, trivial⟩
        rintro rfl
        exact hbad (Or.inr (by decide))
      · cases h
        refine ⟨?_, trivial⟩
        rintro rfl
        exact hbad (Or.inr (by decide))
  | number phase n =>
    simp only [lex] at h
    split at h
    · rename_i next n' hextend
      cases h
      refine ⟨?_, trivial⟩
      rintro rfl
      have hnone : phase.extend n '\\' = none := rfl
      rw [hnone] at hextend
      cases hextend
    · split_ifs at h with hcomplete hminus
      · obtain ⟨r', hr', rfl⟩ := Option.map_eq_some_iff.mp h
        obtain ⟨hc, hout⟩ := start_outside hr'
        exact ⟨hc, hout⟩
      · cases h
        refine ⟨?_, trivial⟩
        rw [hminus.2]
        decide
  | string units => exact absurd rfl (hstring units)
  | escape units => exact hst.elim
  | hex units left value => exact hst.elim

/-- The hexadecimal digits that are read are of one escape. -/
def LeftOk : Lexer → Prop
  | .hex _ left _ => 1 ≤ left ∧ left ≤ 4
  | _ => True

theorem leftOk_of_outside {st : Lexer} (h : Outside st) : LeftOk st := by
  cases st with
  | hex units left value => exact h.elim
  | gap | letters rest s | number phase n | string units | escape units => trivial

/-- The lexer reads a backslash only as the beginning of a valid escape. -/
theorem rest_of_tokensLax {st : Lexer} {text : List Char} (hleft : LeftOk st)
    (h : none ∉ tokensLax st text) : Rest st text := by
  induction text generalizing st with
  | nil =>
    cases st with
    | gap | letters rest s | number phase n | string units => exact wellEscaped_nil
    | escape units => exact absurd (List.mem_singleton_self _) h
    | hex units left value => exact absurd (List.mem_singleton_self _) h
  | cons c cs ih =>
    cases hlex : lexLax st c with
    | none =>
      rw [tokensLax, hlex] at h
      exact absurd (List.mem_singleton_self _) h
    | some r =>
      rw [tokensLax, hlex] at h
      have hrest : none ∉ tokensLax r.2 cs := fun hnone => h (List.mem_append_right _ hnone)
      have houtside : Outside st → (∀ units, st ≠ .string units) → WellEscaped (c :: cs) := by
        intro hst hstring
        have hlex' : lex st c = some r := by
          cases st with
          | string units => exact absurd rfl (hstring units)
          | gap | letters rest s | number phase n | escape units | hex units left value =>
            exact hlex
        obtain ⟨hc, hout⟩ := lex_outside hst hstring hlex'
        exact wellEscaped_plain hc ((rest_of_outside hout).mp (ih (leftOk_of_outside hout) hrest))
      cases st with
      | gap => exact houtside trivial fun units => Lexer.noConfusion
      | letters rest s => exact houtside trivial fun units => Lexer.noConfusion
      | number phase n => exact houtside trivial fun units => Lexer.noConfusion
      | string units =>
        simp only [lexLax] at hlex
        split_ifs at hlex with hquote hbackslash
        · cases hlex
          have hc : c ≠ '\\' := by
            rw [hquote]
            decide
          exact wellEscaped_plain hc (@ih .gap trivial hrest)
        · cases hlex
          rw [hbackslash]
          exact @ih (.escape units) trivial hrest
        · cases hlex
          exact wellEscaped_plain hbackslash (@ih (.string _) trivial hrest)
      | escape units =>
        simp only [lexLax, lex] at hlex
        split_ifs at hlex with hu
        · cases hlex
          rw [hu]
          exact @ih (.hex units 4 0) ⟨by decide, by decide⟩ hrest [] rfl rfl
        · obtain ⟨u, hescaped, rfl⟩ := Option.map_eq_some_iff.mp hlex
          have hbody : Piece.Proper (.escape [c]) := Or.inl ⟨c, rfl, by rw [hescaped]; rfl⟩
          exact wellEscaped_cons hbody (@ih (.string _) trivial hrest)
      | hex units left value =>
        obtain ⟨d, hd, rfl⟩ := Option.map_eq_some_iff.mp hlex
        intro digits hlength hhex
        obtain ⟨hpos, hfour⟩ := hleft
        have hhex' : (digits ++ [c]).all isHex = true := by
          simp [List.all_append, hhex, isHex, hd]
        have hlength' : (digits ++ [c]).length = digits.length + 1 := by
          rw [List.length_append, List.length_singleton]
        by_cases hlast : left ≤ 1
        · rw [if_pos hlast] at hrest
          have hbody : Piece.Proper (.escape ('u' :: (digits ++ [c]))) :=
            Or.inr ⟨digits ++ [c], rfl, by omega, hhex'⟩
          have hcs := wellEscaped_cons hbody (@ih (.string _) trivial hrest)
          rwa [Piece.text, List.cons_append, List.cons_append, List.append_assoc] at hcs
        · rw [if_neg hlast] at hrest
          have hcs := @ih (.hex units (left - 1) (16 * value + d)) ⟨by omega, by omega⟩ hrest
            (digits ++ [c]) (by omega) hhex'
          rwa [List.append_assoc] at hcs

theorem not_mem_of_run {accept : Doc → Bool} {limit : Option ℕ} {s s' : Parse}
    {ts : List (Option Token)} (h : run accept limit s ts = .ok s') : none ∉ ts := by
  induction ts generalizing s with
  | nil => simp
  | cons t ts ih =>
    cases t with
    | none => cases h
    | some t =>
      rw [run] at h
      split at h
      · simpa using ih h
      · cases h

/-- In a text that spells a document every backslash belongs to a valid escape. -/
theorem wellEscaped_of_readLax {text : List Char} {v : Doc} (h : readLax text = some v) :
    WellEscaped text := by
  unfold readLax at h
  cases hrun : run (fun _ => true) none {} (tokensLax .gap text) with
  | error e =>
    rw [hrun] at h
    cases h
  | ok s => exact @rest_of_tokensLax .gap text trivial (not_mem_of_run hrun)

end Reading

section Response

/-- `json.JSONDecodeError`, or an exception that is not caught. -/
inductive LoadsError where
  | decode (message : String)
  | raised (e : PyError)

/-- The substitution for ``^```(?:json)?\s*\n?``. -/
def dropOpeningFence (text : List Char) : List Char :=
  if "```".toList.isPrefixOf text then
    let rest := text.drop 3
    let body := if "json".toList.isPrefixOf rest then rest.drop 4 else rest
    body.dropWhile PyText.isSpace
  else text

/-- The substitution for ``\n?```\s*$``: a match ends where the text ends. -/
def dropClosingFence (text : List Char) : List Char :=
  let backwards := text.reverse.dropWhile PyText.isSpace
  if "```".toList.isPrefixOf backwards then
    let body := backwards.drop 3
    (if body.head? = some '\n' then body.drop 1 else body).reverse
  else text

/-- The text of a response without its code fences. -/
def responseText (raw : String) : String :=
  PyText.strip (String.ofList (dropClosingFence (dropOpeningFence (PyText.strip raw).toList)))

/-- `json.loads(text, strict=False)` returns only what the text spells. -/
def Documented (loads : String → Except LoadsError Doc) : Prop :=
  ∀ text data, loads text = .ok data → readLax text.toList = some data

/-- `parse_enrichment_response`; `finish` is the validation with the index. -/
def parseEnrichmentResponse {ρ : Type} (loads : String → Except LoadsError Doc)
    (finish : Doc → Except PyError ρ) (raw : String) : Except PyError ρ :=
  if raw = "" then .error (.valueError "model returned empty response")
  else
    match loads (responseText raw) with
    | .ok data => finish data
    | .error (.raised e) => .error e
    | .error (.decode _) =>
      match loads (repairJsonEscapes (responseText raw)) with
      | .ok data => finish data
      | .error (.raised e) => .error e
      | .error (.decode message) => .error (.valueError message)

variable {ρ : Type} {loads : String → Except LoadsError Doc}

theorem toList_repair (text : String) :
    (repairJsonEscapes text).toList = substitute 0 text.toList := by
  rw [repairJsonEscapes, String.toList_ofList]

theorem repair_of_wellEscaped {text : String} (h : WellEscaped text.toList) :
    repairJsonEscapes text = text := by
  rw [repairJsonEscapes, substitute_of_wellEscaped h, String.ofList_toList]

/-- A response that parses is not repaired, and a repair would change nothing. -/
theorem parse_of_loads (hloads : Documented loads) (finish : Doc → Except PyError ρ)
    {raw : String} {data : Doc} (h : loads (responseText raw) = .ok data) :
    repairJsonEscapes (responseText raw) = responseText raw ∧
      parseEnrichmentResponse loads finish raw = finish data := by
  have hread := hloads _ _ h
  refine ⟨repair_of_wellEscaped (wellEscaped_of_readLax hread), ?_⟩
  have hne : raw ≠ "" := by
    rintro rfl
    have hempty : readLax (responseText "").toList = none := by decide +kernel
    rw [hempty] at hread
    cases hread
  simp only [parseEnrichmentResponse, if_neg hne, h]

/-- **The repair is conservative.** Afterwards every backslash belongs to a valid escape; a text
where that is so already stays as it is; a second repair does nothing; all pieces but the lone
backslashes stay and stand for what they stood for; and a response that parses without the repair
gives the data that it spells. -/
theorem repair_conservative (hloads : Documented loads) (finish : Doc → Except PyError ρ) :
    (∀ text, WellEscaped (repairJsonEscapes text).toList) ∧
    (∀ text, WellEscaped text.toList → repairJsonEscapes text = text) ∧
    (∀ text, repairJsonEscapes (repairJsonEscapes text) = repairJsonEscapes text) ∧
    (∀ text, pieces (repairJsonEscapes text).toList = (pieces text.toList).map Piece.repaired ∧
      units? (repairJsonEscapes text).toList = some ((pieces text.toList).map readAs) ∧
      ∀ p ∈ pieces text.toList, p ≠ .lone → p.repaired = p ∧ p.unit? = some (readAs p)) ∧
    ∀ raw data, loads (responseText raw) = .ok data →
      repairJsonEscapes (responseText raw) = responseText raw ∧
        parseEnrichmentResponse loads finish raw = finish data := by
  have hwell : ∀ text, WellEscaped (repairJsonEscapes text).toList := fun text =>
    toList_repair text ▸ wellEscaped_substitute text.toList
  refine ⟨hwell, fun text => repair_of_wellEscaped, fun text => repair_of_wellEscaped (hwell text),
    fun text => ?_, fun raw data => parse_of_loads hloads finish⟩
  rw [toList_repair]
  refine ⟨pieces_substitute _, units?_substitute _, fun p hp hne => ?_⟩
  have hproper := (proper_or_lone hp).resolve_right hne
  have hunit := unit?_repaired (Or.inl hproper)
  rw [repaired_eq hproper] at hunit
  exact ⟨repaired_eq hproper, hunit⟩

/-- A reader that returns what a text spells. -/
def loadsLax (text : String) : Except LoadsError Doc :=
  match readLax text.toList with
  | some data => .ok data
  | none => .error (.decode "invalid")

theorem documented_loadsLax : Documented loadsLax := by
  intro text data h
  unfold loadsLax at h
  cases hread : readLax text.toList with
  | none =>
    rw [hread] at h
    cases h
  | some v =>
    rw [hread] at h
    exact congrArg some (Except.ok.inj h)

theorem fenced_response_unrepaired :
    repairJsonEscapes (responseText "```json\n[\"\\n\"]\n```") = "[\"\\n\"]" ∧
      parseEnrichmentResponse loadsLax Except.ok "```json\n[\"\\n\"]\n```" =
        .ok (.array [.scalar (.string [10])]) := by
  have htext : responseText "```json\n[\"\\n\"]\n```" = "[\"\\n\"]" := by decide +kernel
  have hloads : loadsLax (responseText "```json\n[\"\\n\"]\n```") =
      .ok (.array [.scalar (.string [10])]) := by
    rw [htext]
    rfl
  have hall := (repair_conservative documented_loadsLax Except.ok).2.2.2.2 _ _ hloads
  rwa [htext] at hall

end Response

end Hippo.EscapeRepair
