import Hippo.JsonText
import Hippo.ShellEnrichment
import Mathlib.Data.List.Range
import Mathlib.Data.List.Nodup
import Mathlib.Data.List.Perm.Basic

/-!
# The ranking a model answers

`parse_ranking` takes the first bracketed span of the answer, reads its numbers, and keeps those
that are candidates, each where it comes first. Candidates the answer leaves out follow in their
order.
-/
namespace Hippo.Rerank
open PyText

/-- What the interpreter decides about digits and numbers. -/
structure Interpreter where
  /-- `\d` beyond the ASCII digits. -/
  isDecimal : Char → Bool
  /-- `int(float(literal))`, if the float is finite and an integer. -/
  floatInteger : List Char → Option ℤ
  /-- `sys.get_int_max_str_digits()`. -/
  maxDigits : ℕ := 4300

variable (py : Interpreter)

section Source

/-- `[\d,.\s-]` -/
def spanChar (c : Char) : Bool :=
  JsonText.isDigit c || py.isDecimal c || c = ',' || c = '.' || isSpace c || c = '-'

/-- What stands in the first match of `\[[\d,.\s-]*\]`. -/
def findSpan : List Char → Option (List Char)
  | [] => none
  | c :: cs =>
    if c = '[' ∧ (cs.dropWhile (spanChar py)).head? = some ']' then
      some (cs.takeWhile (spanChar py))
    else findSpan cs

inductive Entry where
  | int (value : ℤ)
  | float (literal : List Char)
deriving DecidableEq, Repr

/-- `json.JSONDecodeError`, or the `ValueError` for an integer of too many digits. -/
inductive LoadsFault where
  | decode
  | tooManyDigits
deriving DecidableEq, Repr

def valueOf (digits : List Char) : ℕ := digits.foldl (fun v c => 10 * v + JsonText.digitOf c) 0

/-- The digits before a point; a zero stands alone. -/
def integerPart : List Char → List Char
  | [] => []
  | c :: cs => if c = '0' then [c] else (c :: cs).takeWhile JsonText.isDigit

/-- The digits after a point, which belong to the number if there are any. -/
def fractionPart : List Char → List Char
  | '.' :: cs => cs.takeWhile JsonText.isDigit
  | _ => []

/-- `_match_number` of the JSON scanner, for texts without exponents. -/
def scanNumber (cs : List Char) : Except LoadsFault (Entry × List Char) :=
  let negative := cs.head? = some '-'
  let unsigned := if negative then cs.drop 1 else cs
  let whole := integerPart unsigned
  let rest := unsigned.drop whole.length
  let fraction := fractionPart rest
  if whole = [] then .error .decode
  else if fraction ≠ [] then
    .ok (.float ((if negative then ['-'] else []) ++ whole ++ '.' :: fraction),
      rest.drop (fraction.length + 1))
  else if py.maxDigits ≠ 0 ∧ py.maxDigits < whole.length then .error .tooManyDigits
  else .ok (.int (if negative then -(valueOf whole : ℤ) else valueOf whole), rest)

def skipSpace (cs : List Char) : List Char := cs.dropWhile JsonText.isSpace

/-- The items of an array from a number on, up to its bracket. A round takes at least one character
of the `fuel`. -/
def scanItems : ℕ → List Char → Except LoadsFault (List Entry)
  | 0, _ => .error .decode
  | fuel + 1, cs =>
    match scanNumber py cs with
    | .error e => .error e
    | .ok (entry, rest) =>
      match skipSpace rest with
      | ']' :: _ => .ok [entry]
      | ',' :: rest =>
        if (skipSpace rest).head? = some ']' then .error .decode
        else (scanItems fuel (skipSpace rest)).map (entry :: ·)
      | _ => .error .decode

/-- `json.loads` of a span between its brackets. -/
def loadsSpan (span : List Char) : Except LoadsFault (List Entry) :=
  let cs := skipSpace (span ++ [']'])
  if cs.head? = some ']' then .ok [] else scanItems py (cs.length + 1) cs

/-- The candidate an entry names, counted from one. -/
def Entry.index (n : ℕ) (entry : Entry) : Option ℕ :=
  let named : Option ℤ :=
    match entry with
    | .int value => some value
    | .float literal => py.floatInteger literal
  named.bind fun value => if 0 ≤ value - 1 ∧ value - 1 < n then some (value - 1).toNat else none

/-- The loop over the entries; `order` is also the set of those seen. -/
def takeEntries (n : ℕ) (entries : List Entry) : List ℕ :=
  entries.foldl (fun order entry =>
    match entry.index py n with
    | some i => if i ∈ order then order else order ++ [i]
    | none => order) []

/-- `parse_ranking`. An error of `json.loads` that is no `JSONDecodeError` gets out. -/
def parseRanking (text : String) (n : ℕ) : Except LoadsFault (Option (List ℕ)) :=
  if text = "" then .ok none
  else
    match findSpan py text.toList with
    | none => .ok none
    | some span =>
      match loadsSpan py span with
      | .error .decode => .ok none
      | .error .tooManyDigits => .error .tooManyDigits
      | .ok entries =>
        let order := takeEntries py n entries
        if order = [] then .ok none
        else .ok (some (order ++ (List.range n).filter (· ∉ order)))

end Source

section Reading

theorem integerPart_sublist (cs : List Char) : (integerPart cs).length ≤ cs.length := by
  unfold integerPart
  split
  · exact Nat.le_refl 0
  · split_ifs
    · simp
    · exact (List.takeWhile_sublist _).length_le

theorem length_of_scanNumber {cs rest : List Char} {entry : Entry}
    (h : scanNumber py cs = .ok (entry, rest)) : rest.length < cs.length := by
  unfold scanNumber at h
  extract_lets negative unsigned whole after fraction at h
  have hunsigned : unsigned.length ≤ cs.length := by
    simp only [unsigned]
    split_ifs
    · simp
    · exact Nat.le_refl _
  have hwhole : whole.length ≤ unsigned.length := integerPart_sublist unsigned
  have hafter : after.length = unsigned.length - whole.length := List.length_drop
  by_cases hempty : whole = []
  · rw [if_pos hempty] at h
    cases h
  · have hpos : 0 < whole.length := List.length_pos_iff.mpr hempty
    rw [if_neg hempty] at h
    by_cases hfraction : fraction ≠ []
    · rw [if_pos hfraction] at h
      cases h
      have hdrop : (after.drop (fraction.length + 1)).length ≤ after.length :=
        (List.drop_sublist _ _).length_le
      omega
    · rw [if_neg hfraction] at h
      by_cases hdigits : py.maxDigits ≠ 0 ∧ py.maxDigits < whole.length
      · rw [if_pos hdigits] at h
        cases h
      · rw [if_neg hdigits] at h
        have heq : after = rest := (Prod.mk.inj (Except.ok.inj h)).2
        rw [← heq]
        omega

theorem length_skipSpace (cs : List Char) : (skipSpace cs).length ≤ cs.length :=
  (List.dropWhile_sublist _).length_le

/-- The characters of the array are rounds enough. -/
theorem scanItems_fuel {fuel fuel' : ℕ} {cs : List Char} (h : cs.length < fuel)
    (h' : cs.length < fuel') : scanItems py fuel cs = scanItems py fuel' cs := by
  induction fuel generalizing fuel' cs with
  | zero => omega
  | succ fuel ih =>
    cases fuel' with
    | zero => omega
    | succ fuel' =>
      rw [scanItems, scanItems]
      cases hscan : scanNumber py cs with
      | error e => rfl
      | ok r =>
        obtain ⟨entry, rest⟩ := r
        have hrest := length_of_scanNumber py hscan
        have hskip := length_skipSpace rest
        simp only
        split
        · rfl
        · rename_i after hafter
          have hlength := congrArg List.length hafter
          have hnext := length_skipSpace after
          rw [List.length_cons] at hlength
          rw [@ih fuel' (skipSpace after) (by omega) (by omega)]
        · rfl

end Reading

section Ranking

variable {py} {n : ℕ}

/-- The candidates the entries name, each where it comes first. -/
theorem takeEntries_eq (entries : List Entry) :
    takeEntries py n entries = (entries.filterMap (Entry.index py n)).eraseDups := by
  induction entries using List.reverseRecOn with
  | nil => rfl
  | append_singleton entries entry ih =>
    rw [takeEntries, List.foldl_append, ← takeEntries, ih, List.filterMap_append,
      List.eraseDups_append]
    generalize entries.filterMap (Entry.index py n) = named
    cases hindex : entry.index py n with
    | none => simp [hindex]
    | some i =>
      by_cases hmem : i ∈ named
      · simp [hindex, List.removeAll, hmem]
      · simp [hindex, List.removeAll, hmem, List.eraseDups_cons]

theorem index_lt {entry : Entry} {i : ℕ} (h : entry.index py n = some i) : i < n := by
  unfold Entry.index at h
  obtain ⟨value, -, hvalue⟩ := Option.bind_eq_some_iff.mp h
  split_ifs at hvalue with hrange
  cases hvalue
  omega

/-- The candidates the answer names, in its order. -/
def namedBy (py : Interpreter) (text : String) (n : ℕ) : List ℕ :=
  match findSpan py text.toList with
  | none => []
  | some span =>
    match loadsSpan py span with
    | .error _ => []
    | .ok entries => entries.filterMap (Entry.index py n)

/-- `json.loads` comes to an integer of too many digits in the first bracketed span. -/
def Overlong (py : Interpreter) (text : String) : Prop :=
  ∃ span, findSpan py text.toList = some span ∧ loadsSpan py span = .error .tooManyDigits

/-- An order of all candidates that begins with those named, each once. -/
structure Ranking (named : List ℕ) (n : ℕ) (order : List ℕ) : Prop where
  perm : order.Perm (List.range n)
  first : order = named.eraseDups ++ (List.range n).filter (· ∉ named)

theorem nodup_eraseDups (l : List ℕ) : l.eraseDups.Nodup := by
  induction l using List.reverseRecOn with
  | nil => exact List.nodup_nil
  | append_singleton l a ih =>
    rw [List.eraseDups_append]
    by_cases hmem : a ∈ l
    · simpa [List.removeAll, hmem] using ih
    · rw [show ([a].removeAll l).eraseDups = [a] by
        simp [List.removeAll, hmem, List.eraseDups_cons], List.nodup_append]
      refine ⟨ih, List.nodup_singleton a, fun b hb c hc heq => ?_⟩
      rw [List.mem_singleton] at hc
      exact hmem (hc ▸ heq ▸ List.mem_eraseDups.mp hb)

theorem ranking_completed {named : List ℕ} (h : ∀ i ∈ named, i < n) :
    Ranking named n (named.eraseDups ++ (List.range n).filter (· ∉ named)) where
  perm := by
    have hrest : ((List.range n).filter (· ∉ named)).Nodup := List.nodup_range.filter _
    have hnodup : (named.eraseDups ++ (List.range n).filter (· ∉ named)).Nodup := by
      rw [List.nodup_append]
      refine ⟨nodup_eraseDups named, hrest, fun i hi j hj heq => ?_⟩
      have hnot : j ∉ named := by simpa using (List.mem_filter.mp hj).2
      exact hnot (heq ▸ List.mem_eraseDups.mp hi)
    rw [List.perm_ext_iff_of_nodup hnodup List.nodup_range]
    intro i
    have hlt := h i
    simp only [List.mem_append, List.mem_eraseDups, List.mem_filter, List.mem_range,
      decide_eq_true_eq]
    tauto
  first := rfl

/-- Without an integer of too many digits the answer is a ranking or none. -/
theorem parseRanking_of_not_overlong {text : String} (h : ¬ Overlong py text) :
    ∃ r, parseRanking py text n = .ok r ∧ ∀ order ∈ r, Ranking (namedBy py text n) n order := by
  unfold parseRanking
  split_ifs with hempty
  · exact ⟨none, rfl, by simp⟩
  · cases hspan : findSpan py text.toList with
    | none => exact ⟨none, rfl, by simp⟩
    | some span =>
      cases hloads : loadsSpan py span with
      | error e =>
        cases e with
        | decode => exact ⟨none, by simp only [hloads], by simp⟩
        | tooManyDigits => exact absurd ⟨span, hspan, hloads⟩ h
      | ok entries =>
        have hnamed : namedBy py text n = entries.filterMap (Entry.index py n) := by
          simp only [namedBy, hspan, hloads]
        have hlt : ∀ i ∈ entries.filterMap (Entry.index py n), i < n := by
          intro i hi
          obtain ⟨entry, -, hindex⟩ := List.mem_filterMap.mp hi
          exact index_lt hindex
        simp only [hloads, takeEntries_eq, List.mem_eraseDups]
        split_ifs with hnil
        · exact ⟨none, rfl, by simp⟩
        · refine ⟨_, rfl, fun order horder => ?_⟩
          cases horder
          rw [hnamed]
          exact ranking_completed hlt

theorem parseRanking_of_overlong {text : String} (h : Overlong py text) :
    parseRanking py text n = .error .tooManyDigits := by
  obtain ⟨span, hspan, hloads⟩ := h
  have hne : text ≠ "" := by
    rintro rfl
    cases hspan
  simp only [parseRanking, if_neg hne, hspan, hloads]

/-- Ones in brackets, more of them than the interpreter converts. -/
theorem overlong_ones {k : ℕ} (hbracket : py.isDecimal ']' = false) (hlimit : py.maxDigits ≠ 0)
    (hk : py.maxDigits < k) :
    Overlong py (String.ofList ('[' :: (List.replicate k '1' ++ [']']))) := by
  have hones : ∀ c ∈ List.replicate k '1', c = '1' := fun c hc => List.eq_of_mem_replicate hc
  have hspan : ∀ c ∈ List.replicate k '1', spanChar py c = true := by
    intro c hc
    rw [hones c hc]
    simp [spanChar, show JsonText.isDigit '1' = true by decide]
  have hend : spanChar py ']' = false := by
    simp only [spanChar, hbracket]
    decide
  have hspace : skipSpace (List.replicate k '1' ++ [']']) = List.replicate k '1' ++ [']'] := by
    obtain ⟨k, rfl⟩ : ∃ j, k = j + 1 := ⟨k - 1, by omega⟩
    rfl
  have hdigits : ∀ c ∈ List.replicate k '1', JsonText.isDigit c = true := by
    intro c hc
    rw [hones c hc]
    decide
  refine ⟨List.replicate k '1', ?_, ?_⟩
  · rw [String.toList_ofList, findSpan, List.dropWhile_append_of_pos hspan,
      List.takeWhile_append_of_pos hspan]
    simp [hend]
  · have hinteger : integerPart (List.replicate k '1' ++ [']']) = List.replicate k '1' := by
      have hwhile : (List.replicate k '1' ++ [']']).takeWhile JsonText.isDigit =
          List.replicate k '1' := by
        rw [List.takeWhile_append_of_pos hdigits]
        simp [show JsonText.isDigit ']' = false by decide]
      obtain ⟨k, rfl⟩ : ∃ j, k = j + 1 := ⟨k - 1, by omega⟩
      exact hwhile
    have hhead : (List.replicate k '1' ++ [']']).head? = some '1' := by
      obtain ⟨k, rfl⟩ : ∃ j, k = j + 1 := ⟨k - 1, by omega⟩
      rfl
    have hscan : scanNumber py (List.replicate k '1' ++ [']']) = .error .tooManyDigits := by
      have hne : List.replicate k '1' ≠ [] := by simp; omega
      simp [scanNumber, hhead, hinteger, hne, fractionPart, hlimit, hk]
    simp [loadsSpan, hspace, hhead, scanItems, hscan]

end Ranking

end Hippo.Rerank
