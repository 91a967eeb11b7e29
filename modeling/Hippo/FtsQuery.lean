import Hippo.MatchQuery
import Hippo.ShellEnrichment

/-!
# The keyword arm of retrieval

A free-text question becomes a query of the full-text index: the exact phrase, or one of its words,
or a known alias of one. `lower` is `str.lower` on texts that may not be ASCII.
-/
namespace Hippo.FtsQuery

open MatchQuery PyText

section Tokens

/-- `[A-Za-z0-9_]`. -/
def isTokenStart (c : Char) : Bool := c.isAlphanum || c = '_'

/-- `[A-Za-z0-9_./@:-]`. -/
def isTokenChar (c : Char) : Bool := isTokenStart c || "./@:-".toList.contains c

/-- `_FTS_TOKEN_RE.findall`, in a match (`some`) or between two. -/
def findall : Option (List Char) → List Char → List (List Char)
  | none, [] => []
  | some tok, [] => [tok]
  | none, c :: cs => findall (if isTokenStart c then some [c] else none) cs
  | some tok, c :: cs =>
    if isTokenChar c then findall (some (tok ++ [c])) cs else tok :: findall none cs

def stopwords : List String :=
  ["a", "an", "and", "are", "as", "at", "be", "but", "by", "did", "do", "does", "for", "from",
    "had", "has", "have", "how", "i", "in", "is", "it", "its", "me", "my", "of", "on", "or", "our",
    "so", "that", "the", "their", "there", "these", "they", "this", "to", "was", "we", "were",
    "what", "when", "where", "which", "who", "why", "will", "with", "you", "your"]

/-- `tok.lower()`: a token is ASCII. -/
def lowered (tok : List Char) : List Char := tok.map Char.toLower

/-- A token that is not too short to search for, and no stopword. -/
def isMeaningful (tok : List Char) : Bool :=
  2 ≤ tok.length && !stopwords.contains (String.ofList (lowered tok))

/-- The items that pass, the first of each key that was not `seen`. -/
def keepFirst {α κ : Type} [DecidableEq κ] (p : α → Bool) (key : α → κ) (seen : List κ) :
    List α → List α
  | [] => []
  | a :: rest =>
    if p a ∧ key a ∉ seen then a :: keepFirst p key (key a :: seen) rest
    else keepFirst p key seen rest

/-- The loop of `_query_tokens`, with what it has `seen`. -/
def keepTokens (seen l : List (List Char)) : List (List Char) :=
  keepFirst isMeaningful lowered seen l

def queryTokens (query : String) : List (List Char) := keepTokens [] (findall none query.toList)

end Tokens

section Query

variable (lower : String → String)

def ftsMaxTokens : ℕ := 16

/-- `query.replace('"', '""')`. -/
def escaped (query : String) : String :=
  String.ofList (query.toList.flatMap fun c => if c = '"' then ['"', '"'] else [c])

/-- `_quote_fts_term`. -/
def quoteFtsTerm (term : List Char) : List Char := quoted term

/-- A single surviving token that is the whole query. -/
def isPhrase (query : String) (tokens : List (List Char)) : Bool :=
  match tokens with
  | [tok] => String.ofList (lowered tok) = lower (strip (escaped query))
  | _ => false

def sanitizeFtsQuery (query : String) : List Char :=
  let phrase := quoteFtsTerm query.toList
  let tokens := (queryTokens query).take ftsMaxTokens
  if tokens = [] then phrase
  else if isPhrase lower query tokens then phrase
  else (" OR ".toList).intercalate (phrase :: tokens.map quoteFtsTerm)

def entityExpansionCap : ℕ := 8

/-- The loop of `_expand_entity_terms` over the candidates of the rows. -/
def expandTerms (seen : List String) (room : ℕ) : List String → List String
  | [] => []
  | candidate :: rest =>
    if room = 0 then []
    else if candidate.isEmpty ∨ lower candidate ∈ seen then expandTerms seen room rest
    else candidate :: expandTerms (lower candidate :: seen) (room - 1) rest

/-- `_expand_entity_terms`. `rows` are the names and canonical names that the `SELECT` returns for
the lowered tokens, or nothing without the table. -/
def expandEntityTerms (rows : List String → List (String × Option String)) (query : String) :
    List String :=
  let tokens := (queryTokens query).map fun tok => String.ofList (lowered tok)
  if tokens = [] then []
  else
    expandTerms lower tokens entityExpansionCap
      ((rows tokens).flatMap fun row => row.1 :: row.2.toList)

/-- The query of `_call_fts`. `projectTerms` are the spellings of the inferred project. -/
def ftsQuery (entityExpansion : Bool) (rows : List String → List (String × Option String))
    (projectTerms : List String) (query : String) : List Char :=
  let extraTerms := (if entityExpansion then expandEntityTerms lower rows query else []) ++
    projectTerms
  let sanitized := sanitizeFtsQuery lower query
  if extraTerms = [] then sanitized
  else (" OR ".toList).intercalate
    (sanitized :: extraTerms.map fun term => quoteFtsTerm term.toList)

end Query

section Words

/-- The words of a text: its maximal runs of token characters, from their first start on. -/
def words (cs : List Char) : List (List Char) :=
  ((cs.splitOnP fun c => !isTokenChar c).map fun run =>
    run.dropWhile fun c => !isTokenStart c).filter (· ≠ [])

theorem isTokenChar_of_start {c : Char} (h : isTokenStart c = true) : isTokenChar c = true := by
  simp [isTokenChar, h]

/-- The scan against the runs: an open match goes on to the end of the run it is in. -/
theorem findall_eq (cs : List Char) :
    findall none cs = words cs ∧
      ∀ tok run runs, cs.splitOnP (fun c => !isTokenChar c) = run :: runs →
        findall (some tok) cs = (tok ++ run) ::
          (runs.map fun run => run.dropWhile fun c => !isTokenStart c).filter (· ≠ []) := by
  induction cs with
  | nil => exact ⟨rfl, fun tok run runs h => by cases h; simp [findall]⟩
  | cons c cs ih =>
    obtain ⟨run, runs, hruns⟩ := List.exists_cons_of_ne_nil
      (List.splitOnP_ne_nil (fun c => !isTokenChar c) cs)
    obtain ⟨hnone, hsome⟩ := ih
    have hcons := List.splitOnP_cons_eq_if_modifyHead (p := fun c => !isTokenChar c) c cs
    rw [hruns] at hcons
    refine ⟨?_, fun tok run' runs' h => ?_⟩
    · by_cases hstart : isTokenStart c
      · have htok := isTokenChar_of_start hstart
        have hopen := hsome [c] run runs hruns
        simp [findall, words, hcons, hstart, htok, hopen]
      · by_cases htok : isTokenChar c
        · simp [findall, words, hcons, hstart, htok, hnone, hruns]
        · simp [findall, words, hcons, hstart, htok, hnone, hruns]
    · by_cases htok : isTokenChar c
      · have hopen := hsome (tok ++ [c]) run runs hruns
        rw [hcons] at h
        simp only [htok, Bool.not_true, Bool.false_eq_true, if_false, List.modifyHead_cons,
          List.cons.injEq] at h
        obtain ⟨rfl, rfl⟩ := h
        simp [findall, htok, hopen]
      · rw [hcons] at h
        simp only [htok, Bool.not_false, if_true, List.cons.injEq] at h
        obtain ⟨rfl, rfl⟩ := h
        simp [findall, htok, hnone, words, hruns]

end Words

section Keeping

variable {α κ : Type} [DecidableEq κ] {p : α → Bool} {key : α → κ} {seen : List κ} {l : List α}
  {a : α}

theorem mem_keepFirst (h : a ∈ keepFirst p key seen l) : a ∈ l ∧ p a = true ∧ key a ∉ seen := by
  induction l generalizing seen with
  | nil => cases h
  | cons first rest ih =>
    simp only [keepFirst] at h
    split_ifs at h with hkeep
    · rcases List.mem_cons.mp h with rfl | h
      · exact ⟨List.mem_cons_self, hkeep⟩
      · obtain ⟨hmem, hp, hseen⟩ := ih h
        exact ⟨List.mem_cons_of_mem _ hmem, hp, fun hs => hseen (List.mem_cons_of_mem _ hs)⟩
    · obtain ⟨hmem, hrest⟩ := ih h
      exact ⟨List.mem_cons_of_mem _ hmem, hrest⟩

/-- An item that passes is kept, or another one of its key is. -/
theorem keepFirst_complete (seen : List κ) (h : a ∈ l) (hp : p a = true) :
    key a ∈ seen ∨ key a ∈ (keepFirst p key seen l).map key := by
  induction l generalizing seen with
  | nil => cases h
  | cons first rest ih =>
    simp only [keepFirst]
    rcases List.mem_cons.mp h with rfl | h
    · by_cases hseen : key a ∈ seen
      · exact Or.inl hseen
      · simp [hp, hseen]
    · split_ifs with hkeep
      · rcases ih (key first :: seen) h with hs | hs
        · rcases List.mem_cons.mp hs with hs | hs
          · exact Or.inr (by simp [hs])
          · exact Or.inl hs
        · exact Or.inr (List.mem_cons_of_mem _ hs)
      · exact ih _ h

theorem nodup_keepFirst (seen : List κ) (l : List α) :
    ((keepFirst p key seen l).map key).Nodup := by
  induction l generalizing seen with
  | nil => simp [keepFirst]
  | cons first rest ih =>
    simp only [keepFirst]
    split_ifs
    · rw [List.map_cons, List.nodup_cons]
      refine ⟨fun hmem => ?_, ih _⟩
      obtain ⟨a, ha, heq⟩ := List.mem_map.mp hmem
      exact (mem_keepFirst ha).2.2 (heq ▸ List.mem_cons_self)
    · exact ih seen

end Keeping

section Reading

variable (lower : String → String)

/-- What the sanitized query asks for: the whole text as a phrase, and up to 16 of its words. -/
def searched (query : String) : List (List Char) :=
  let tokens := (queryTokens query).take ftsMaxTokens
  query.toList :: if isPhrase lower query tokens then [] else tokens

theorem sanitizeFtsQuery_eq (query : String) :
    sanitizeFtsQuery lower query = disjunction (searched lower query) := by
  unfold sanitizeFtsQuery searched
  by_cases hnil : (queryTokens query).take ftsMaxTokens = []
  · simp [hnil, isPhrase, disjunction, List.intercalate, quoteFtsTerm]
  · simp only [hnil, if_false]
    split_ifs
    · simp [disjunction, List.intercalate, quoteFtsTerm]
    · simp only [disjunction, List.map_cons]
      rfl

/-- More alternatives after a disjunction. -/
theorem disjunction_append (a : List Char) (as bs : List (List Char)) :
    (" OR ".toList).intercalate (disjunction (a :: as) :: bs.map quoted) =
      disjunction (a :: as ++ bs) := by
  induction as generalizing a with
  | nil => simp [disjunction, List.intercalate]
  | cons next as ih =>
    have htail := ih next
    cases bs with
    | nil => simp [List.intercalate]
    | cons b bs =>
      simp only [List.cons_append, disjunction_cons]
      rw [List.cons_append] at htail
      rw [← htail]
      simp [List.intercalate]

/-- The terms that `_call_fts` adds to the sanitized query. -/
def extraTerms (entityExpansion : Bool) (rows : List String → List (String × Option String))
    (projectTerms : List String) (query : String) : List String :=
  (if entityExpansion then expandEntityTerms lower rows query else []) ++ projectTerms

theorem ftsQuery_eq (entityExpansion : Bool) (rows : List String → List (String × Option String))
    (projectTerms : List String) (query : String) :
    ftsQuery lower entityExpansion rows projectTerms query =
      disjunction (searched lower query ++
        (extraTerms lower entityExpansion rows projectTerms query).map String.toList) := by
  have hextra : ftsQuery lower entityExpansion rows projectTerms query =
      if extraTerms lower entityExpansion rows projectTerms query = [] then
        sanitizeFtsQuery lower query
      else (" OR ".toList).intercalate (sanitizeFtsQuery lower query ::
        (extraTerms lower entityExpansion rows projectTerms query).map fun term =>
          quoteFtsTerm term.toList) := rfl
  have hquoted : ((extraTerms lower entityExpansion rows projectTerms query).map fun term =>
      quoteFtsTerm term.toList) =
      ((extraTerms lower entityExpansion rows projectTerms query).map String.toList).map quoted := by
    simp [quoteFtsTerm]
  rw [hextra, hquoted, sanitizeFtsQuery_eq]
  split_ifs with hnil
  · simp [hnil]
  · exact disjunction_append _ _ _

theorem isTokenChar_of_mem {cs run : List Char}
    (h : run ∈ cs.splitOnP fun c => !isTokenChar c) : ∀ c ∈ run, isTokenChar c = true := by
  induction cs generalizing run with
  | nil => simp_all
  | cons c cs ih =>
    obtain ⟨first, runs, hruns⟩ := List.exists_cons_of_ne_nil
      (List.splitOnP_ne_nil (fun c => !isTokenChar c) cs)
    rw [List.splitOnP_cons_eq_if_modifyHead] at h
    by_cases htok : isTokenChar c
    · simp only [htok, Bool.not_true, Bool.false_eq_true, if_false, hruns, List.modifyHead_cons,
        List.mem_cons] at h
      rcases h with rfl | h
      · intro d hd
        rcases List.mem_cons.mp hd with rfl | hd
        · exact htok
        · exact ih (hruns ▸ List.mem_cons_self) d hd
      · exact ih (hruns ▸ List.mem_cons_of_mem _ h)
    · simp only [htok, Bool.not_false, if_true, List.mem_cons] at h
      rcases h with rfl | h
      · simp
      · exact ih h

theorem nul_not_mem {cs : List Char} {tok : List Char} (h : tok ∈ words cs) :
    '\x00' ∉ tok := by
  obtain ⟨hmem, -⟩ := List.mem_filter.mp h
  obtain ⟨run, hrun, rfl⟩ := List.mem_map.mp hmem
  intro hnul
  have hsub := (List.dropWhile_sublist _).mem hnul
  exact absurd (isTokenChar_of_mem hrun _ hsub) (by decide)

/-- **No operator comes from the text.** The index reads the query of any text as the disjunction
of the text as a phrase, of words of it, and of the added terms; a NUL is a syntax error. The words
are different ones, and no meaningful word is left out but for its other spellings and the cap. -/
theorem ftsQuery_reads (entityExpansion : Bool)
    (rows : List String → List (String × Option String)) (projectTerms : List String)
    (query : String) :
    read (ftsQuery lower entityExpansion rows projectTerms query) =
      (if '\x00' ∈ query.toList ∨
          ∃ term ∈ extraTerms lower entityExpansion rows projectTerms query,
            '\x00' ∈ term.toList then none
        else some (searched lower query ++
          (extraTerms lower entityExpansion rows projectTerms query).map String.toList)) ∧
    (∀ tok ∈ queryTokens query, tok ∈ words query.toList ∧ isMeaningful tok = true) ∧
    ((queryTokens query).map lowered).Nodup ∧
    (∀ word ∈ words query.toList, isMeaningful word = true →
      lowered word ∈ (queryTokens query).map lowered) := by
  have hwords : findall none query.toList = words query.toList := (findall_eq query.toList).1
  have htokens : ∀ tok ∈ queryTokens query, tok ∈ words query.toList ∧ isMeaningful tok = true := by
    intro tok htok
    obtain ⟨hmem, hmeaningful, -⟩ := mem_keepFirst htok
    exact ⟨hwords ▸ hmem, hmeaningful⟩
  refine ⟨?_, htokens, nodup_keepFirst _ _, fun word hword hmeaningful => ?_⟩
  · rw [ftsQuery_eq, read_disjunction (by simp [searched])]
    have hiff : (∃ text ∈ searched lower query ++
        (extraTerms lower entityExpansion rows projectTerms query).map String.toList,
          '\x00' ∈ text) ↔ '\x00' ∈ query.toList ∨
        ∃ term ∈ extraTerms lower entityExpansion rows projectTerms query,
          '\x00' ∈ term.toList := by
      constructor
      · rintro ⟨text, htext, hnul⟩
        rcases List.mem_append.mp htext with htext | htext
        · rcases List.mem_cons.mp htext with rfl | htext
          · exact Or.inl hnul
          · split_ifs at htext
            · cases htext
            · have htok := htokens text (List.mem_of_mem_take htext)
              exact absurd hnul (nul_not_mem htok.1)
        · obtain ⟨term, hterm, rfl⟩ := List.mem_map.mp htext
          exact Or.inr ⟨term, hterm, hnul⟩
      · rintro (hnul | ⟨term, hterm, hnul⟩)
        · exact ⟨query.toList, by simp [searched], hnul⟩
        · exact ⟨term.toList, List.mem_append_right _ (List.mem_map_of_mem hterm), hnul⟩
    simp only [hiff]
  · have hfound : word ∈ findall none query.toList := hwords.symm ▸ hword
    have hkept : lowered word ∈ [] ∨ lowered word ∈ (queryTokens query).map lowered :=
      keepFirst_complete [] hfound hmeaningful
    exact hkept.resolve_left List.not_mem_nil

example : read (ftsQuery id true (fun _ => []) ["hippo"] "why \"NEAR(a.b\" -x*?") =
    some ["why \"NEAR(a.b\" -x*?".toList, "NEAR".toList, "a.b".toList, "hippo".toList] := by
  decide +kernel

end Reading

end Hippo.FtsQuery
