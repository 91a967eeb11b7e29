import Hippo.Redaction
import Mathlib.Logic.Function.Iterate

/-!
# What redaction leaves

One pass leaves no match of the token rules, and every other match takes in a part of an inserted
marker. Each replacement takes a character that the marker does not have, so repeated passes come
to a text that no rule matches.
-/
namespace Hippo.Redaction
open Backtracking Pattern RustText

/-- The characters of the marker. -/
def markerChars : List Char := "[REDACTED]".toList

def foreign (c : Char) : Bool := !markerChars.contains c

/-- How many characters the marker does not have. -/
def foreignCount (text : String) : ℕ := text.toList.countP foreign

section Builtin

def bracketFree (c : Char) : Prop := c ≠ '[' ∧ c ≠ ']'

def visible (c : Char) : Prop := RustText.isWhitespace c = false

theorem has_lit {s : String} {q : Char → Prop} (c : Char) (hc : c ∈ s.toList) (h : q c) :
    (lit s).Has q := has_word hc h

theorem sameLetter_visible {a b : Char} (ha : visible a) (h : sameLetter a b = true) :
    visible b := by
  simp only [sameLetter, Bool.decide_or, Bool.or_eq_true, decide_eq_true_eq] at h
  unfold visible at ha ⊢
  rcases h with h | ⟨-, h⟩ | ⟨-, h⟩
  · by_cases hupper : 'A'.val ≤ b.val ∧ b.val ≤ 'Z'.val
    · have hlow : 65 ≤ b.toNat := UInt32.le_iff_toNat_le.mp hupper.1
      have hhigh : b.toNat ≤ 90 := UInt32.le_iff_toNat_le.mp hupper.2
      simp only [RustText.isWhitespace, decide_eq_false_iff_not]
      omega
    · have hsame : b.toLower = b := dif_neg hupper
      rw [hsame] at h
      rw [h]
      exact ha
  · simp [RustText.isWhitespace, h]
  · simp [RustText.isWhitespace, h]

theorem starts_litAnyCase {s : String} {a : Char} (hs : s.toList.head? = some a) (ha : visible a) :
    (litAnyCase s).Starts visible := by
  obtain ⟨rest, hrest⟩ := List.head?_eq_some_iff.mp hs
  rw [litAnyCase, hrest]
  exact starts_cat (starts_one fun b hb => sameLetter_visible ha hb)

theorem starts_secretKey : secretKey.Starts visible := by
  refine starts_oneOf ?_
  simp only [List.forall_mem_cons, List.not_mem_nil, false_imp_iff, implies_true, and_true]
  refine ⟨?_, ?_, ?_, ?_, ?_, ?_, ?_⟩
  all_goals first
    | exact starts_cat (starts_litAnyCase rfl rfl)
    | exact starts_litAnyCase rfl rfl

theorem replacement_builtin : ∀ p ∈ builtin, p.replacement.toList = markerChars := by
  simp only [builtin, List.forall_mem_cons, List.not_mem_nil, false_imp_iff, implies_true,
    and_true]
  exact ⟨rfl, rfl, rfl, rfl, rfl, rfl, rfl⟩

/-- Every match takes a character that the marker does not have. -/
theorem has_foreign : ∀ p ∈ builtin, p.regex.Has fun c => foreign c = true := by
  have hassign : (charIn "=:").Has fun c => foreign c = true := has_one fun c hc => by
    have hsigns : "=:".toList.all foreign = true := by decide
    exact List.all_eq_true.mp hsigns c (List.contains_iff_mem.mp hc)
  simp only [builtin, List.forall_mem_cons, List.not_mem_nil, false_imp_iff, implies_true,
    and_true]
  refine ⟨has_alt ?_ ?_, ?_, ?_, has_alt ?_ ?_, ?_, ?_, ?_⟩
  · exact has_cat List.mem_cons_self (has_lit '-' (by decide) (by decide))
  · refine @has_cat _ _ (lit "-----END ") _ ?_ (has_lit '-' (by decide) (by decide))
    simp
  · refine @has_cat _ _ (charIn "=:") _ ?_ hassign
    simp
  · exact has_cat List.mem_cons_self (has_lit 'K' (by decide) (by decide))
  · exact has_cat List.mem_cons_self (has_lit 'g' (by decide) (by decide))
  · exact has_cat List.mem_cons_self (has_lit 'g' (by decide) (by decide))
  · refine @has_cat _ _ (charIn "=:") _ ?_ hassign
    simp
  · exact has_cat List.mem_cons_self (has_lit 'e' (by decide) (by decide))
  · refine @has_cat _ _ (lit ":") _ ?_ (has_lit ':' (by decide) (by decide))
    simp

theorem starts_builtin : ∀ p ∈ builtin, p.regex.Starts visible := by
  simp only [builtin, List.forall_mem_cons, List.not_mem_nil, false_imp_iff, implies_true,
    and_true]
  refine ⟨starts_alt ?_ ?_, ?_, ?_, starts_alt ?_ ?_, ?_, ?_, ?_⟩
  · exact starts_cat (starts_word rfl)
  · exact starts_cat (starts_word rfl)
  · refine starts_cat_opt (starts_one fun c hc => ?_) (starts_cat starts_secretKey)
    have hquotes : ("\"'".toList.all fun c => !RustText.isWhitespace c) = true := by decide
    have hc' := List.all_eq_true.mp hquotes c (List.contains_iff_mem.mp hc)
    rwa [Bool.not_eq_true'] at hc'
  · exact starts_cat (starts_word rfl)
  · exact starts_cat (starts_word rfl)
  · exact starts_cat (starts_word rfl)
  · exact starts_cat starts_secretKey
  · exact starts_cat (starts_word rfl)
  · exact starts_cat (starts_litAnyCase rfl rfl)

end Builtin

section Engine

variable {patterns : List RedactPattern} {p : RedactPattern} {input : String}

def RedactPattern.rule (p : RedactPattern) : Rule Char := ⟨p.regex, p.replacement.toList⟩

/-- The counted loop replaces what the sweep replaces. -/
theorem apply_text (hp : p.rule.Proper) (result : RedactionResult) :
    (p.apply result).text.toList = p.rule.apply result.text.toList := by
  have hswept := hp.swept result.text.toList
  unfold RedactPattern.apply
  dsimp only
  split
  · rename_i hnone
    rw [show (p.rule.pattern.findIter result.text.toList).length = 0 from hnone] at hswept
    exact hswept.eq_of_zero.symm
  · rw [String.toList_ofList]
    rfl

theorem count_apply (p : RedactPattern) (result : RedactionResult) :
    (p.apply result).count = result.count + (p.regex.findIter result.text.toList).length := by
  unfold RedactPattern.apply
  dsimp only
  split
  · rename_i hzero
    rw [hzero]
    rfl
  · rfl

theorem foldl_apply_text (hp : ∀ p ∈ patterns, p.rule.Proper) (result : RedactionResult) :
    (patterns.foldl (fun result p => p.apply result) result).text.toList =
      (patterns.map RedactPattern.rule).foldl (fun out rule => rule.apply out)
        result.text.toList := by
  induction patterns generalizing result with
  | nil => rfl
  | cons p patterns ih =>
    rw [List.foldl_cons, ih fun q hq => hp q (List.mem_cons_of_mem p hq),
      apply_text (hp p List.mem_cons_self), List.map_cons, List.foldl_cons]

theorem redact_text (hp : ∀ p ∈ patterns, p.rule.Proper) (input : String) :
    (redact patterns input).text.toList =
      sweep (patterns.map RedactPattern.rule) input.toList := by
  rw [redact, foldl_apply_text fun p hmem => hp p (List.mem_of_mem_filter hmem), sweep,
    List.filter_map]
  rfl

/-- The count is that of the hits. -/
theorem count_redact (patterns : List RedactPattern) (input : String) :
    (redact patterns input).count = ((redact patterns input).hits.map Prod.snd).sum := by
  have hfold : ∀ (patterns : List RedactPattern) (result : RedactionResult),
      result.count = (result.hits.map Prod.snd).sum →
      (patterns.foldl (fun result p => p.apply result) result).count =
        ((patterns.foldl (fun result p => p.apply result) result).hits.map Prod.snd).sum := by
    intro patterns
    induction patterns with
    | nil => exact fun result h => h
    | cons p patterns ih =>
      intro result h
      apply ih
      unfold RedactPattern.apply
      dsimp only
      split
      · exact h
      · simp [h]
  exact hfold _ _ rfl

/-- The text loses a foreign character for each match. -/
theorem foreignCount_redact (hp : ∀ p ∈ patterns, p.rule.Proper)
    (hhas : ∀ p ∈ patterns, p.regex.Has fun c => foreign c = true)
    (hmarker : ∀ p ∈ patterns, p.replacement.toList = markerChars) (input : String) :
    foreignCount (redact patterns input).text + (redact patterns input).count ≤
      foreignCount input := by
  have hstep : ∀ p ∈ patterns, ∀ result : RedactionResult,
      foreignCount (p.apply result).text + (p.apply result).count ≤
        foreignCount result.text + result.count := by
    intro p hmem result
    have hnone : ∀ c ∈ p.rule.marker, foreign c = false := by
      have hmarkerChars : (markerChars.all fun c => !foreign c) = true := by decide
      intro c hc
      rw [show p.rule.marker = markerChars from hmarker p hmem] at hc
      simpa using List.all_eq_true.mp hmarkerChars c hc
    have hcount := ((hp p hmem).swept result.text.toList).count_le (hhas p hmem) hnone
    rw [← apply_text (hp p hmem)] at hcount
    have hadd := count_apply p result
    change foreignCount (p.apply result).text +
      (p.regex.findIter result.text.toList).length ≤ foreignCount result.text at hcount
    omega
  have hfold : ∀ (selected : List RedactPattern) (result : RedactionResult),
      (∀ p ∈ selected, p ∈ patterns) →
      foreignCount (selected.foldl (fun result p => p.apply result) result).text +
          (selected.foldl (fun result p => p.apply result) result).count ≤
        foreignCount result.text + result.count := by
    intro selected
    induction selected with
    | nil => exact fun result _ => le_rfl
    | cons p selected ih =>
      intro result hselected
      exact (ih (p.apply result) fun q hq => hselected q (List.mem_cons_of_mem p hq)).trans
        (hstep p (hselected p List.mem_cons_self) result)
  exact hfold _ { text := input } fun p hmem => List.mem_of_mem_filter hmem

theorem no_match_of_count (hp : ∀ p ∈ patterns, p.rule.Proper)
    (hcount : (redact patterns input).count = 0) :
    ∀ p ∈ patterns, p.regex.isMatch input.toList = false := by
  intro p hmem
  by_contra hmatch
  rw [Bool.not_eq_false] at hmatch
  have hp' : p ∈ patterns.filter fun p => p.regex.isMatch input.toList :=
    List.mem_filter.mpr ⟨hmem, hmatch⟩
  obtain ⟨q, selected, hselected⟩ := List.exists_cons_of_ne_nil (List.ne_nil_of_mem hp')
  have hq : q ∈ patterns.filter fun p => p.regex.isMatch input.toList := by
    rw [hselected]
    exact List.mem_cons_self
  obtain ⟨hq, hqmatch⟩ := List.mem_filter.mp hq
  have hpos : (q.regex.findIter input.toList).length ≠ 0 := by
    intro hzero
    have hswept := (hp q hq).swept input.toList
    rw [show (q.rule.pattern.findIter input.toList).length = 0 from hzero] at hswept
    have hnone := hswept.no_match (hp q hq).takes
    rw [show q.rule.pattern = q.regex from rfl, hqmatch] at hnone
    cases hnone
  have hle : ∀ (selected : List RedactPattern) (result : RedactionResult),
      result.count ≤ (selected.foldl (fun result p => p.apply result) result).count := by
    intro selected
    induction selected with
    | nil => exact fun result => le_rfl
    | cons p selected ih =>
      intro result
      have hadd := count_apply p result
      have hrest := ih (p.apply result)
      rw [List.foldl_cons]
      omega
  rw [redact, hselected, List.foldl_cons] at hcount
  have hadd := count_apply q { text := input }
  have hrest := hle selected (q.apply { text := input })
  dsimp only at hadd
  omega

/-- Nothing is replaced exactly if no pattern matches. -/
theorem redact_eq_iff (hp : ∀ p ∈ patterns, p.rule.Proper) (input : String) :
    redact patterns input = { text := input } ↔
      ∀ p ∈ patterns, p.regex.isMatch input.toList = false := by
  constructor
  · intro h
    exact no_match_of_count hp (by rw [h])
  · intro h
    have hnone : patterns.filter (fun p => p.regex.isMatch input.toList) = [] :=
      List.filter_eq_nil_iff.mpr fun p hmem => by simp [h p hmem]
    rw [redact, hnone, List.foldl_nil]

end Engine

section Kept

theorem proper_builtin : ∀ p ∈ builtin, p.rule.Proper := by
  intro p hp
  refine ⟨fun w rest hw => (has_foreign p hp).ne_nil hw, ?_⟩
  rw [show p.rule.marker = markerChars from replacement_builtin p hp]
  decide

/-- No marker overlaps a word without brackets that has a foreign character. -/
theorem apart_of_bracketFree {w : List Char} (hfree : ∀ c ∈ w, bracketFree c)
    (hforeign : ∃ c ∈ w, foreign c = true) : Apart markerChars w where
  outside := by
    intro c hc hhead
    exact (hfree c hc).1 (Option.some.inj hhead).symm
  after := by
    intro front back hback hmarker x y heq
    have hlast : ']' ∈ back := by
      have hend : (front ++ back).getLast? = some ']' := by
        rw [← hmarker]
        rfl
      rw [List.getLast?_append_of_ne_nil front hback] at hend
      exact List.mem_of_getLast? hend
    rcases List.append_eq_append_iff.mp heq with ⟨t, hw, -⟩ | ⟨t, hw, -⟩
    · obtain ⟨c, hc, hforeign⟩ := hforeign
      have hmem : c ∈ markerChars := by
        rw [hmarker, hw]
        simp [hc]
      simp [foreign, hmem] at hforeign
    · refine (hfree ']' ?_).2 rfl
      rw [hw]
      exact List.mem_append_left t hlast

/-- No marker overlaps a word of the input. -/
theorem apart_of_kept {w : List (Char × Bool)} (hne : w ≠ []) (hkept : ∀ c ∈ w, c.2 = false) :
    Apart (markerChars.map fun c => (c, true)) w where
  outside := by
    intro c hc hhead
    have htag := congrArg Prod.snd (Option.some.inj hhead)
    rw [hkept c hc] at htag
    cases htag
  after := by
    intro front back hback hmarker x y heq
    obtain ⟨c, w, rfl⟩ := List.exists_cons_of_ne_nil hne
    obtain ⟨d, back, rfl⟩ := List.exists_cons_of_ne_nil hback
    obtain ⟨rfl, -⟩ := List.cons.inj heq
    have hmem : c ∈ markerChars.map fun c => (c, true) := by simp [hmarker]
    obtain ⟨e, -, rfl⟩ := List.mem_map.mp hmem
    have htag := hkept (e, true) List.mem_cons_self
    cases htag

theorem keepsKind_accepts {α : Type} {rule other : Rule α} (hother : other.Proper) (w : List α) :
    other.KeepsKind (rule.pattern.Accepts w) := by
  intro text out n hswept hw
  refine hw.mono fun hout => ?_
  rw [hout] at hswept
  exact hswept.at_end hother.inserts

/-- Each character of a redacted text, and whether redaction inserted it. -/
def traced (patterns : List RedactPattern) (input : String) : List (Char × Bool) :=
  sweep (patterns.map fun p => p.rule.lift Prod.fst fun c => (c, true))
    (input.toList.map fun c => (c, false))

theorem traced_text (patterns : List RedactPattern) (hp : ∀ p ∈ patterns, p.rule.Proper)
    (input : String) :
    (traced patterns input).map Prod.fst = (redact patterns input).text.toList := by
  have hrules : patterns.map (fun p => p.rule.lift Prod.fst fun c => (c, true)) =
      (patterns.map RedactPattern.rule).map (Rule.lift Prod.fst fun c => (c, true)) := by
    rw [List.map_map]
    rfl
  rw [redact_text hp, traced, hrules, map_sweep_lift Prod.fst _ fun c => rfl, List.map_map]
  congr 1
  exact List.map_id _

theorem run_ne_nil {α : Type} {r : Pattern α} {w y : List α} (h : r.Accepts w y) :
    r.run (w ++ y) ≠ [] :=
  List.ne_nil_of_mem (r.mem_run.mpr ⟨w, rfl, h⟩)

theorem rules_proper : ∀ rule ∈ builtin.map RedactPattern.rule, rule.Proper := by
  intro rule hrule
  obtain ⟨p, hp, rfl⟩ := List.mem_map.mp hrule
  exact proper_builtin p hp

theorem rules_apart {w : List Char} (h : Apart markerChars w) :
    ∀ rule ∈ builtin.map RedactPattern.rule, Apart rule.marker w := by
  intro rule hrule
  obtain ⟨p, hp, rfl⟩ := List.mem_map.mp hrule
  rwa [show p.rule.marker = markerChars from replacement_builtin p hp]

/-- A pattern whose words have no brackets does not match the output. -/
theorem no_match_of_bracketFree {p : RedactPattern} (hp : p ∈ builtin)
    (hfree : p.regex.Within bracketFree) (input : String) :
    p.regex.isMatch (redact builtin input).text.toList = false := by
  by_contra hmatch
  rw [Bool.not_eq_false, isMatch_iff] at hmatch
  obtain ⟨x, w, rest, htext, hw⟩ := hmatch
  rw [redact_text proper_builtin] at htext
  refine no_match_sweep (List.mem_map_of_mem hp) rules_proper (rules_apart
    (apart_of_bracketFree (hfree w rest hw) (has_foreign p hp w rest hw))) (fun rule hrule => ?_)
    (fun y hy => ?_) htext hw
  · exact @keepsKind_accepts _ p.rule rule (rules_proper rule hrule) w
  · exact run_ne_nil hy

theorem within_bracketFree {s : String} (h : s.toList.all fun c => c ≠ '[' ∧ c ≠ ']') :
    (lit s).Within bracketFree :=
  within_word fun c hc => by simpa [bracketFree] using List.all_eq_true.mp h c hc

theorem one_bracketFree {q : Char → Bool} (hleft : q '[' = false) (hright : q ']' = false) :
    (one q).Within bracketFree := by
  refine within_one fun c hc => ⟨?_, ?_⟩
  · rintro rfl
    rw [hleft] at hc
    cases hc
  · rintro rfl
    rw [hright] at hc
    cases hc

end Kept

section Tokens

/-- The rules for tokens and headers. -/
def tokenRules : List String := ["aws_access_key", "github_pat", "jwt", "bearer_header"]

theorem within_awsAccessKey : awsAccessKey.Within bracketFree := by
  refine within_cat (List.forall_mem_cons.mpr ⟨within_bracketFree (by decide), ?_⟩)
  exact List.forall_mem_singleton.mpr (within_exactly 16 (one_bracketFree rfl rfl))

theorem within_githubPat : githubPat.Within bracketFree := by
  refine within_alt (within_cat ?_) (within_cat ?_)
  · refine List.forall_mem_cons.mpr ⟨within_bracketFree (by decide), ?_⟩
    exact List.forall_mem_singleton.mpr (within_exactly 36 (one_bracketFree rfl rfl))
  · refine List.forall_mem_cons.mpr ⟨within_bracketFree (by decide), ?_⟩
    exact List.forall_mem_singleton.mpr (within_exactly 82 (one_bracketFree rfl rfl))

theorem within_jwt : jwt.Within bracketFree := by
  refine within_cat ?_
  simp only [List.forall_mem_cons, List.not_mem_nil, false_imp_iff, implies_true, and_true]
  exact ⟨within_bracketFree (by decide), within_atLeast 10 (one_bracketFree rfl rfl),
    within_bracketFree (by decide), within_atLeast 10 (one_bracketFree rfl rfl),
    within_bracketFree (by decide), within_atLeast 1 (one_bracketFree rfl rfl)⟩

/-- The pattern of a bearer header up to its token. -/
def bearerFront : List (Pattern Char) :=
  [litAnyCase "authorization", lit ":", star space, litAnyCase "bearer", plus space]

theorem within_litAnyCase {s : String}
    (h : s.toList.all fun a => sameLetter a '[' = false ∧ sameLetter a ']' = false) :
    (litAnyCase s).Within bracketFree := by
  refine within_cat fun r hr => ?_
  obtain ⟨a, ha, rfl⟩ := List.mem_map.mp hr
  obtain ⟨hleft, hright⟩ := of_decide_eq_true (List.all_eq_true.mp h a ha)
  exact one_bracketFree hleft hright

theorem within_bearerFront : (cat bearerFront).Within bracketFree := by
  refine within_cat ?_
  simp only [bearerFront, List.forall_mem_cons, List.not_mem_nil, false_imp_iff, implies_true,
    and_true]
  exact ⟨within_litAnyCase (by decide), within_bracketFree (by decide),
    within_star (one_bracketFree rfl rfl), within_litAnyCase (by decide),
    within_atLeast 1 (one_bracketFree rfl rfl)⟩

/-- The header is recognized by its front and one more character. -/
theorem no_match_bearer {p : RedactPattern} (hp : p ∈ builtin) (hregex : p.regex = bearerHeader)
    (input : String) : p.regex.isMatch (redact builtin input).text.toList = false := by
  by_contra hmatch
  rw [Bool.not_eq_false, isMatch_iff] at hmatch
  obtain ⟨x, w, rest, htext, hw⟩ := hmatch
  rw [redact_text proper_builtin] at htext
  have hsplit : p.regex = cat (bearerFront ++ [plus nonSpace]) := hregex
  rw [hsplit, accepts_cat_append] at hw
  obtain ⟨u, v, rfl, hu, hv⟩ := hw
  have hnonSpace : nonSpace.Starts visible := starts_one fun c hc => by simpa [visible] using hc
  obtain ⟨c, t, rfl, hc⟩ := starts_cat (starts_plus hnonSpace) v rest hv
  have hforeign : ∃ c ∈ u, foreign c = true :=
    @has_cat _ _ (lit ":") bearerFront (by simp [bearerFront])
      (has_lit ':' (by decide) (by decide)) u _ hu
  rw [List.append_assoc] at htext
  refine @no_match_sweep _ _ p.rule _ _ _ _ (fun y => ∃ c t, y = c :: t ∧ visible c)
    (List.mem_map_of_mem hp) rules_proper (rules_apart
      (apart_of_bracketFree (within_bearerFront u _ hu) hforeign)) (fun rule hrule => ?_)
    (fun y hy => ?_) htext ⟨c, t ++ rest, rfl, hc⟩
  · obtain ⟨q, hq, rfl⟩ := List.mem_map.mp hrule
    intro text out n hswept ⟨d, rest, hout, hd⟩
    rw [hout] at hswept
    exact hswept.next (starts_builtin q hq) hd
  · obtain ⟨d, rest', rfl, hd⟩ := hy
    have hfound : p.regex.Accepts (u ++ [d]) rest' := by
      rw [hsplit, accepts_cat_append]
      refine ⟨u, [d], rfl, hu.mono (fun h => by cases h), [d], [], rfl, ?_, rfl⟩
      exact ⟨[d], [], rfl, ⟨[d], [], rfl, ⟨d, rfl, by simpa [visible] using hd⟩, rfl⟩, .nil _⟩
    rw [List.append_cons]
    exact run_ne_nil hfound

theorem no_token_match {p : RedactPattern} (hp : p ∈ builtin) (hname : p.name ∈ tokenRules)
    (input : String) : p.regex.isMatch (redact builtin input).text.toList = false := by
  have hcases := hp
  simp only [builtin, List.mem_cons, List.not_mem_nil, or_false] at hcases
  rcases hcases with rfl | rfl | rfl | rfl | rfl | rfl | rfl
  · simp [tokenRules] at hname
  · simp [tokenRules] at hname
  · exact no_match_of_bracketFree hp within_awsAccessKey input
  · exact no_match_of_bracketFree hp within_githubPat input
  · simp [tokenRules] at hname
  · exact no_match_of_bracketFree hp within_jwt input
  · exact no_match_bearer hp rfl input

end Tokens

section Passes

/-- A match in the output takes in an inserted character. -/
theorem no_kept_match {p : RedactPattern} (hp : p ∈ builtin) {input : String}
    {x w y : List (Char × Bool)} (htext : traced builtin input = x ++ (w ++ y))
    (hw : p.regex.Accepts (w.map Prod.fst) (y.map Prod.fst)) : ∃ c ∈ w, c.2 = true := by
  by_contra hnone
  have hkept : ∀ c ∈ w, c.2 = false := by
    intro c hc
    by_contra htag
    exact hnone ⟨c, hc, by simpa using htag⟩
  have hne : w ≠ [] := by
    rintro rfl
    exact (has_foreign p hp).ne_nil hw rfl
  have hlift := (accepts_comap Prod.fst p.regex).mpr hw
  refine no_match_sweep (List.mem_map_of_mem hp) (fun rule hrule => ?_) (fun rule hrule => ?_)
    (fun rule hrule => ?_) (fun y hy => ?_) htext hlift
  · obtain ⟨q, hq, rfl⟩ := List.mem_map.mp hrule
    exact (proper_builtin q hq).lift _ _
  · obtain ⟨q, hq, rfl⟩ := List.mem_map.mp hrule
    have hmarker : (q.rule.lift Prod.fst fun c => (c, true)).marker =
        markerChars.map fun c => (c, true) := by
      rw [← replacement_builtin q hq]
      rfl
    rw [hmarker]
    exact apart_of_kept hne hkept
  · obtain ⟨q, hq, rfl⟩ := List.mem_map.mp hrule
    exact @keepsKind_accepts _ (p.rule.lift Prod.fst fun c => (c, true)) _
      ((proper_builtin q hq).lift _ _) w
  · exact run_ne_nil hy

/-- The text after some passes. -/
def passes (n : ℕ) (input : String) : String := (fun text => (redact builtin text).text)^[n] input

/-- Repeated passes end in a text that redaction leaves as it is. -/
theorem passes_settle (input : String) : ∃ n ≤ foreignCount input, ∀ m, n ≤ m →
    redact builtin (passes m input) = { text := passes m input } := by
  induction hk : foreignCount input using Nat.strong_induction_on generalizing input with
  | h k ih =>
    by_cases hclean : redact builtin input = { text := input }
    · refine ⟨0, Nat.zero_le k, fun m _ => ?_⟩
      have hfixed : passes m input = input :=
        Function.iterate_fixed (congrArg RedactionResult.text hclean) m
      rw [hfixed, hclean]
    · have hcount : (redact builtin input).count ≠ 0 := fun hzero =>
        hclean ((redact_eq_iff proper_builtin input).mpr (no_match_of_count proper_builtin hzero))
      have hless := foreignCount_redact proper_builtin has_foreign replacement_builtin input
      obtain ⟨n, hn, hsettled⟩ := ih _ (by omega) (redact builtin input).text rfl
      refine ⟨n + 1, by omega, fun m hm => ?_⟩
      obtain ⟨m, rfl⟩ : ∃ m', m = m' + 1 := ⟨m - 1, by omega⟩
      have hnext : passes (m + 1) input = passes m (redact builtin input).text :=
        Function.iterate_succ_apply _ m input
      rw [hnext]
      exact hsettled m (by omega)

/-- What the passes of redaction do with a text. -/
structure Settles (input : String) : Prop where
  /-- The count is the sum of the hits. -/
  counted : (redact builtin input).count = ((redact builtin input).hits.map Prod.snd).sum
  /-- A second pass changes nothing and reports nothing exactly if no rule matches the output. -/
  second : redact builtin (redact builtin input).text = { text := (redact builtin input).text } ↔
    ∀ p ∈ builtin, p.regex.isMatch (redact builtin input).text.toList = false
  /-- The rules for tokens and headers never match the output. -/
  tokens : ∀ p ∈ builtin, p.name ∈ tokenRules →
    p.regex.isMatch (redact builtin input).text.toList = false
  /-- Each match in the output takes in an inserted character. -/
  inserted : (traced builtin input).map Prod.fst = (redact builtin input).text.toList ∧
    ∀ p ∈ builtin, ∀ x w y, traced builtin input = x ++ (w ++ y) →
      p.regex.Accepts (w.map Prod.fst) (y.map Prod.fst) → ∃ c ∈ w, c.2 = true
  /-- Repeated passes reach a clean fixed point. -/
  settles : ∃ n ≤ foreignCount input, ∀ m, n ≤ m →
    redact builtin (passes m input) = { text := passes m input }

theorem redaction_settles (input : String) : Settles input where
  counted := count_redact builtin input
  second := redact_eq_iff proper_builtin _
  tokens := fun _ hp hname => no_token_match hp hname input
  inserted := ⟨traced_text builtin proper_builtin input,
    fun _ hp _ _ _ htext hw => no_kept_match hp htext hw⟩
  settles := passes_settle input

/-- One pass is not enough: the marker of one assignment becomes the value of another. -/
theorem second_pass_redacts :
    ¬ ∀ input, redact builtin (redact builtin input).text =
      { text := (redact builtin input).text } := by
  intro h
  have hhits := congrArg RedactionResult.count (h "password=\napikey=\nabcdefgh")
  revert hhits
  decide +kernel

end Passes

end Hippo.Redaction
