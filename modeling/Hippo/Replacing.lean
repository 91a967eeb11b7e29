import Hippo.Patterns

/-!
# Replacing the matches of patterns

What a replacement keeps of a text are pieces of that text. A word in such a piece that a pattern
accepts after all replacements was there before them, so it cannot be left by the replacement of
that very pattern.
-/
namespace Hippo.Backtracking

variable {α β : Type}

/-- `find_iter`. -/
def Pattern.findIter (r : Pattern α) (text : List α) : List (ℕ × List α) :=
  finditer (fun _ => r.first) none 0 0 text

/-- The text with a marker for each match; the elements that a match still covers are skipped. -/
def replaceFrom (r : Pattern α) (marker : List α) : ℕ → List α → List α
  | _, [] => []
  | skip + 1, _ :: rest => replaceFrom r marker skip rest
  | 0, a :: rest =>
    match r.first (a :: rest) with
    | none => a :: replaceFrom r marker 0 rest
    | some (_, left) => marker ++ replaceFrom r marker (rest.length - left.length) rest

/-- `replace_all`. -/
def replaceAll (r : Pattern α) (marker text : List α) : List α := replaceFrom r marker 0 text

/-- A text, the text with a marker for each match, and the number of matches. -/
inductive Swept (r : Pattern α) (marker : List α) : List α → List α → ℕ → Prop
  | nil : Swept r marker [] [] 0
  | keep {a : α} {text out : List α} {n : ℕ} (hnone : r.run (a :: text) = [])
    (hrest : Swept r marker text out n) : Swept r marker (a :: text) (a :: out) n
  | mark {found text out : List α} {n : ℕ} (hfound : r.Accepts found text)
    (hrest : Swept r marker text out n) :
    Swept r marker (found ++ text) (marker ++ out) (n + 1)

section Swept

variable {r : Pattern α} {marker text out x y w : List α} {n : ℕ}

theorem swept_replaceAll (hne : ∀ w rest, r.Accepts w rest → w ≠ []) (marker text : List α) :
    Swept r marker text (replaceAll r marker text) (r.findIter text).length := by
  have hfrom : ∀ (text : List α) (prev : Option α) (start skip : ℕ),
      Swept r marker (text.drop skip) (replaceFrom r marker skip text)
        (finditer (fun _ => r.first) prev start skip text).length := by
    intro text
    induction text with
    | nil =>
      intro prev start skip
      rw [List.drop_nil, finditer, replaceFrom]
      exact .nil
    | cons a rest ih =>
      intro prev start skip
      cases skip with
      | succ skip => exact ih _ _ _
      | zero =>
        rw [List.drop_zero, finditer, replaceFrom]
        cases hfirst : r.first (a :: rest) with
        | none => exact .keep ((r.first_eq_none).mp hfirst) (ih _ _ 0)
        | some match' =>
          obtain ⟨found, left⟩ := match'
          obtain ⟨htext, hfound⟩ := Pattern.first_eq_some hfirst
          have hdrop : rest.drop (rest.length - left.length) = left := by
            obtain ⟨b, found, rfl⟩ := List.exists_cons_of_ne_nil (hne _ _ hfound)
            rw [List.cons_append] at htext
            rw [(List.cons.inj htext).2, List.length_append, Nat.add_sub_cancel, List.drop_left]
          have hrest := ih (some a) (start + 1) (rest.length - left.length)
          rw [hdrop] at hrest
          rw [htext]
          exact .mark hfound hrest
  exact hfrom text none 0 0

/-- A word of the output that no marker overlaps: no marker begins inside it and it does not begin
inside of one. -/
structure Apart (marker w : List α) : Prop where
  outside : ∀ a ∈ w, marker.head? ≠ some a
  after : ∀ front back, back ≠ [] → marker = front ++ back → ∀ x y, w ++ x ≠ back ++ y

theorem Swept.split (h : Swept r marker text (x ++ y) n) :
    (∃ text₁ text₂ m, text = text₁ ++ text₂ ∧ Swept r marker text₂ y m) ∨
      ∃ front back y', back ≠ [] ∧ marker = front ++ back ∧ y = back ++ y' := by
  generalize hout : x ++ y = out at h
  induction h generalizing x with
  | nil =>
    obtain ⟨-, rfl⟩ := List.append_eq_nil_iff.mp hout
    exact Or.inl ⟨[], [], 0, rfl, .nil⟩
  | @keep a text out n hnone hrest ih =>
    cases x with
    | nil =>
      rw [List.nil_append] at hout
      exact Or.inl ⟨[], a :: text, n, rfl, hout ▸ .keep hnone hrest⟩
    | cons b x =>
      obtain ⟨-, hout⟩ := List.cons.inj hout
      refine (ih hout).imp_left ?_
      intro ⟨text₁, text₂, m, htext, hswept⟩
      exact ⟨a :: text₁, text₂, m, by rw [htext]; rfl, hswept⟩
  | @mark found text out n hfound hrest ih =>
    rcases List.append_eq_append_iff.mp hout with ⟨back, hmarker, hy⟩ | ⟨front, hx, hout⟩
    · cases back with
      | nil =>
        rw [List.nil_append] at hy
        exact Or.inl ⟨found, text, n, rfl, hy ▸ hrest⟩
      | cons b back => exact Or.inr ⟨x, b :: back, out, List.cons_ne_nil _ _, hmarker, hy⟩
    · refine (ih hout.symm).imp_left ?_
      intro ⟨text₁, text₂, m, htext, hswept⟩
      exact ⟨found ++ text₁, text₂, m, by rw [htext, List.append_assoc], hswept⟩

theorem Swept.apart (hne : marker ≠ []) (hw : ∀ a ∈ w, marker.head? ≠ some a)
    (h : Swept r marker text (w ++ y) n) :
    ∃ rest m, text = w ++ rest ∧ Swept r marker rest y m ∧ (w ≠ [] → r.run text = []) := by
  induction w generalizing text n with
  | nil => exact ⟨text, n, rfl, h, fun h => absurd rfl h⟩
  | cons a w ih =>
    generalize hout : a :: w ++ y = out at h
    cases h with
    | nil => cases hout
    | @keep b text out _ hnone hrest =>
      obtain ⟨rfl, rfl⟩ := List.cons.inj hout
      obtain ⟨rest, m, rfl, hswept, -⟩ := ih (fun b hb => hw b (List.mem_cons_of_mem a hb)) hrest
      exact ⟨rest, m, rfl, hswept, fun _ => hnone⟩
    | @mark found text out n hfound hrest =>
      obtain ⟨b, marker', rfl⟩ := List.exists_cons_of_ne_nil hne
      obtain ⟨rfl, -⟩ := List.cons.inj hout
      exact absurd rfl (hw a List.mem_cons_self)

/-- A word that no marker overlaps stands in the text, and the pattern does not match there. -/
theorem Swept.kept (hne : marker ≠ []) (hw : Apart marker w)
    (h : Swept r marker text (x ++ (w ++ y)) n) :
    ∃ x' y' m, text = x' ++ (w ++ y') ∧ Swept r marker y' y m ∧ r.run (w ++ y') = [] := by
  have hpos : w ≠ [] := by
    rintro rfl
    exact hw.after [] marker hne rfl marker [] (by simp)
  rcases h.split with ⟨x', rest, m, rfl, hrest⟩ | ⟨front, back, y', hback, hmarker, heq⟩
  · obtain ⟨y', m', rfl, hswept, hnone⟩ := hrest.apart hne hw.outside
    exact ⟨x', y', m', rfl, hswept, hnone hpos⟩
  · exact absurd heq (hw.after front back hback hmarker y y')

/-- What follows a kept word at the end of the output is the end of the text. -/
theorem Swept.at_end (hne : marker ≠ []) (h : Swept r marker text [] n) : text = [] := by
  generalize hout : ([] : List α) = out at h
  cases h with
  | nil => rfl
  | keep hnone hrest => cases hout
  | mark hfound hrest => exact absurd (List.append_eq_nil_iff.mp hout.symm).1 hne

/-- The next element is there in the text, or it begins a match. -/
theorem Swept.next {q : α → Prop} {a : α} (hstarts : r.Starts q) (ha : q a)
    (h : Swept r marker text (a :: out) n) : ∃ b rest, text = b :: rest ∧ q b := by
  generalize hout : a :: out = out' at h
  cases h with
  | nil => cases hout
  | @keep b rest out _ hnone hrest =>
    obtain ⟨rfl, -⟩ := List.cons.inj hout
    exact ⟨a, rest, rfl, ha⟩
  | @mark found rest out _ hfound hrest =>
    obtain ⟨b, v, rfl, hb⟩ := hstarts _ _ hfound
    exact ⟨b, v ++ rest, rfl, hb⟩

theorem Swept.eq_of_zero (h : Swept r marker text out 0) : out = text := by
  generalize hn : 0 = n at h
  induction h with
  | nil => rfl
  | keep hnone hrest ih => rw [ih hn]
  | mark => cases hn

/-- Without a replacement there is no match. -/
theorem Swept.no_match (hne : ∀ w rest, r.Accepts w rest → w ≠ [])
    (h : Swept r marker text out 0) : r.isMatch text = false := by
  have hnil : r.run [] = [] := by
    rw [r.run_eq_nil]
    intro w left htext hw
    exact hne w left hw (List.append_eq_nil_iff.mp htext.symm).1
  generalize hn : 0 = n at h
  induction h with
  | nil => simp [Pattern.isMatch, hnil]
  | keep hnone hrest ih => simpa [Pattern.isMatch, hnone] using ih hn
  | mark => cases hn

/-- Each match takes an element that the marker does not have. -/
theorem Swept.count_le {q : α → Bool} (hhas : r.Has fun a => q a = true)
    (hmarker : ∀ a ∈ marker, q a = false) (h : Swept r marker text out n) :
    out.countP q + n ≤ text.countP q := by
  induction h with
  | nil => simp
  | @keep a text out n hnone hrest ih =>
    rw [List.countP_cons, List.countP_cons]
    omega
  | @mark found text out n hfound hrest ih =>
    have hnone : marker.countP q = 0 := List.countP_eq_zero.mpr fun a ha => by simp [hmarker a ha]
    have hsome : 0 < found.countP q := List.countP_pos_iff.mpr (hhas _ _ hfound)
    rw [List.countP_append, List.countP_append]
    omega

end Swept

section Rules

/-- A pattern with its marker. -/
structure Rule (α : Type) where
  pattern : Pattern α
  marker : List α

namespace Rule

/-- `replace_all` where the rule matches. -/
def apply (rule : Rule α) (text : List α) : List α := replaceAll rule.pattern rule.marker text

/-- The rule takes something and inserts something. -/
structure Proper (rule : Rule α) : Prop where
  takes : ∀ w rest, rule.pattern.Accepts w rest → w ≠ []
  inserts : rule.marker ≠ []

theorem Proper.swept {rule : Rule α} (h : rule.Proper) (text : List α) :
    Swept rule.pattern rule.marker text (rule.apply text) (rule.pattern.findIter text).length :=
  swept_replaceAll h.takes rule.marker text

end Rule

/-- The rules that match the text, applied one after the other. -/
def sweep (rules : List (Rule α)) (text : List α) : List α :=
  (rules.filter fun rule => rule.pattern.isMatch text).foldl (fun out rule => rule.apply out) text

variable {rules : List (Rule α)} {rule : Rule α} {text x y w : List α} {kind : List α → Prop}

/-- What comes after a kept word is of some kind only if it was before. -/
def Rule.KeepsKind (kind : List α → Prop) (rule : Rule α) : Prop :=
  ∀ text out n, Swept rule.pattern rule.marker text out n → kind out → kind text

theorem kept_foldl (hproper : ∀ rule ∈ rules, rule.Proper)
    (hw : ∀ rule ∈ rules, Apart rule.marker w) (hkind : ∀ rule ∈ rules, rule.KeepsKind kind)
    (hout : rules.foldl (fun out rule => rule.apply out) text = x ++ (w ++ y)) (hy : kind y) :
    ∃ x' y', text = x' ++ (w ++ y') ∧ kind y' := by
  induction rules generalizing text with
  | nil => exact ⟨x, y, hout, hy⟩
  | cons rule rules ih =>
    have hself : rule ∈ rule :: rules := List.mem_cons_self
    have hrest : ∀ other ∈ rules, other ∈ rule :: rules := fun other => List.mem_cons_of_mem rule
    obtain ⟨x', y', hmid, hy'⟩ := ih (fun r hr => hproper r (hrest r hr))
      (fun r hr => hw r (hrest r hr)) (fun r hr => hkind r (hrest r hr)) hout
    have hswept := (hproper rule hself).swept text
    rw [show rule.apply text = x' ++ (w ++ y') from hmid] at hswept
    obtain ⟨x'', y'', m, htext, hback, -⟩ :=
      hswept.kept (hproper rule hself).inserts (hw rule hself)
    exact ⟨x'', y'', htext, hkind rule hself _ _ _ hback hy'⟩

/-- After the sweep a rule does not match at a word that no marker overlaps. -/
theorem no_match_sweep (hrule : rule ∈ rules) (hproper : ∀ rule ∈ rules, rule.Proper)
    (hw : ∀ rule ∈ rules, Apart rule.marker w) (hkind : ∀ rule ∈ rules, rule.KeepsKind kind)
    (hmatch : ∀ y, kind y → rule.pattern.run (w ++ y) ≠ [])
    (hout : sweep rules text = x ++ (w ++ y)) : ¬ kind y := by
  intro hy
  have hselected : ∀ other ∈ rules.filter (fun rule => rule.pattern.isMatch text), other ∈ rules :=
    fun other hother => List.mem_of_mem_filter hother
  by_cases hmatches : rule.pattern.isMatch text = true
  · -- what the rule left contains the word
    have hmem : rule ∈ rules.filter fun rule => rule.pattern.isMatch text :=
      List.mem_filter.mpr ⟨hrule, hmatches⟩
    obtain ⟨before, after, hsplit⟩ := List.append_of_mem hmem
    have hafter : ∀ other ∈ after, other ∈ rules := fun other hother =>
      hselected other (by simp [hsplit, hother])
    rw [sweep, hsplit, List.foldl_append, List.foldl_cons] at hout
    obtain ⟨x', y', hmid, hy'⟩ := kept_foldl (fun r hr => hproper r (hafter r hr))
      (fun r hr => hw r (hafter r hr)) (fun r hr => hkind r (hafter r hr)) hout hy
    have hswept := (hproper rule hrule).swept
      (before.foldl (fun out rule => rule.apply out) text)
    rw [hmid] at hswept
    obtain ⟨-, y'', m, -, hback, hnone⟩ :=
      hswept.kept (hproper rule hrule).inserts (hw rule hrule)
    exact hmatch y'' (hkind rule hrule _ _ _ hback hy') hnone
  · -- the text contains the word, but the rule does not match it
    obtain ⟨x', y', htext, hy'⟩ := kept_foldl (fun r hr => hproper r (hselected r hr))
      (fun r hr => hw r (hselected r hr)) (fun r hr => hkind r (hselected r hr)) hout hy
    obtain ⟨left, hleft⟩ := List.exists_mem_of_ne_nil _ (hmatch y' hy')
    obtain ⟨v, hv, hfound⟩ := (rule.pattern.mem_run).mp hleft
    exact hmatches ((rule.pattern.isMatch_iff text).mpr ⟨x', v, left, hv ▸ htext, hfound⟩)

end Rules

section Lift

variable (view : β → α) (mark : α → β)

/-- The rule on elements with a view; the marker's elements are made by `mark`. -/
def Rule.lift (rule : Rule α) : Rule β where
  pattern := rule.pattern.comap view
  marker := rule.marker.map mark

theorem Rule.Proper.lift {rule : Rule α} (h : rule.Proper) : (rule.lift view mark).Proper where
  takes := by
    intro w rest hw hnil
    rw [hnil] at hw
    exact h.takes _ _ ((Pattern.accepts_comap view rule.pattern).mp hw) rfl
  inserts := by
    rw [Rule.lift, ne_eq, List.map_eq_nil_iff]
    exact h.inserts

theorem replaceFrom_comap (r : Pattern α) (marker : List β) (skip : ℕ) (text : List β) :
    (replaceFrom (r.comap view) marker skip text).map view =
      replaceFrom r (marker.map view) skip (text.map view) := by
  induction text generalizing skip with
  | nil => cases skip <;> simp [replaceFrom]
  | cons a rest ih =>
    cases skip with
    | succ skip => exact ih skip
    | zero =>
      have hrun := Pattern.run_comap view r (a :: rest)
      have hfirst : r.first (view a :: rest.map view) =
          ((r.comap view).first (a :: rest)).map fun m => (m.1.map view, m.2.map view) := by
        rw [List.map_cons] at hrun
        rw [Pattern.first, Pattern.first, ← hrun, List.head?_map]
        cases ((r.comap view).run (a :: rest)).head? with
        | none => rfl
        | some left => simp [List.map_take]
      rw [List.map_cons, replaceFrom, replaceFrom, hfirst]
      cases (r.comap view).first (a :: rest) with
      | none => simp [ih]
      | some m => simp [ih]

/-- The view of the swept elements is what the sweep makes of their view. -/
theorem map_sweep_lift (hview : ∀ a, view (mark a) = a) (rules : List (Rule α)) (text : List β) :
    (sweep (rules.map (Rule.lift view mark)) text).map view = sweep rules (text.map view) := by
  have happly : ∀ (rule : Rule α) (text : List β),
      ((rule.lift view mark).apply text).map view = rule.apply (text.map view) := by
    intro rule text
    have hmarker : (rule.marker.map mark).map view = rule.marker := by
      rw [List.map_map, show view ∘ mark = id from funext hview, List.map_id]
    rw [Rule.apply, Rule.apply, replaceAll, replaceAll, Rule.lift, replaceFrom_comap, hmarker]
  have hfold : ∀ (rules : List (Rule α)) (text : List β),
      ((rules.map (Rule.lift view mark)).foldl (fun out rule => rule.apply out) text).map view =
        rules.foldl (fun out rule => rule.apply out) (text.map view) := by
    intro rules
    induction rules with
    | nil => exact fun text => rfl
    | cons rule rules ih =>
      intro text
      rw [List.map_cons, List.foldl_cons, List.foldl_cons, ih, happly]
  have hfilter : (rules.map (Rule.lift view mark)).filter (fun rule => rule.pattern.isMatch text) =
      (rules.filter fun rule => rule.pattern.isMatch (text.map view)).map
        (Rule.lift view mark) := by
    rw [List.filter_map]
    congr 2
    ext rule
    exact Pattern.isMatch_comap view rule.pattern text
  rw [sweep, hfilter, hfold, sweep]

end Lift

end Hippo.Backtracking
