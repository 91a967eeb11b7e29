import Hippo.JsonText

/-!
# What the JSON reader does on every text

A limit to the depth changes nothing until the text is nested deeper than the limit, and then it is
the first fault. A check on completed values rejects exactly the texts whose document has a part
that fails it. Line ends can be translated before the text is read.
-/
namespace Hippo.JsonText

namespace Doc

/-- The documents directly in a document. -/
def children : Doc → List Doc
  | .scalar _ => []
  | .array items => items
  | .object members => members.map Prod.snd

mutual

/-- Every part of the document passes. -/
def all (p : Doc → Bool) : Doc → Bool
  | .scalar s => p (.scalar s)
  | .array items => p (.array items) && allItems p items
  | .object members => p (.object members) && allMembers p members

def allItems (p : Doc → Bool) : List Doc → Bool
  | [] => true
  | v :: items => v.all p && allItems p items

def allMembers (p : Doc → Bool) : List (List ℕ × Doc) → Bool
  | [] => true
  | m :: members => m.2.all p && allMembers p members

end

variable {p : Doc → Bool}

theorem allItems_iff {items : List Doc} :
    allItems p items = true ↔ ∀ v ∈ items, v.all p = true := by
  induction items with
  | nil => simp [allItems]
  | cons v items ih => simp [allItems, ih]

theorem allMembers_iff {members : List (List ℕ × Doc)} :
    allMembers p members = true ↔ ∀ v ∈ members.map Prod.snd, v.all p = true := by
  induction members with
  | nil => simp [allMembers]
  | cons m members ih =>
    simp only [allMembers, Bool.and_eq_true, ih, List.map_cons, List.forall_mem_cons]

theorem all_iff {v : Doc} : v.all p = true ↔ p v = true ∧ ∀ d ∈ v.children, d.all p = true := by
  cases v with
  | scalar s => simp [all, children]
  | array items => simp only [all, Bool.and_eq_true, allItems_iff, children]
  | object members => simp only [all, Bool.and_eq_true, allMembers_iff, children]

end Doc

section Plans

/-- The documents a frame holds. -/
def Frame.parts : Frame → List Doc
  | .array items => items
  | .member members _ => members.map Prod.snd

def Mode.parts : Mode → List Doc
  | .value => []
  | .array items => items
  | .object members | .key members | .colon members _ => members.map Prod.snd
  | .done v => [v]

namespace Parse

/-- The arrays and objects that are open. -/
def depth (s : Parse) : ℕ :=
  match s.mode with
  | .value | .done _ => s.stack.length
  | .array _ | .object _ | .key _ | .colon _ _ => s.stack.length + 1

/-- The documents that are read. -/
def parts (s : Parse) : List Doc := s.mode.parts ++ s.stack.flatMap Frame.parts

end Parse

/-- A plan keeps what is read and opens one container at most. -/
def Plan.Fits (s : Parse) : Plan → Prop
  | .open stack mode =>
    stack.length ≤ s.depth ∧ Parse.depth ⟨stack, mode⟩ = stack.length + 1 ∧
      ∀ d, d ∈ Parse.parts ⟨stack, mode⟩ ↔ d ∈ s.parts
  | .complete stack v =>
    stack.length ≤ s.depth ∧ ∀ d, d ∈ v.children ∨ d ∈ stack.flatMap Frame.parts ↔ d ∈ s.parts
  | .go s' => s'.depth ≤ s.depth ∧ ∀ d, d ∈ s'.parts ↔ d ∈ s.parts

theorem planValue_fits {s : Parse} {stack : List Frame} {t : Token} {p : Plan}
    (hdepth : stack.length ≤ s.depth)
    (hparts : ∀ d, d ∈ stack.flatMap Frame.parts ↔ d ∈ s.parts)
    (h : planValue stack t = some p) : p.Fits s := by
  cases t with
  | openArray | openObject =>
    cases h
    exact ⟨hdepth, rfl, hparts⟩
  | scalar v =>
    cases h
    refine ⟨hdepth, fun d => ?_⟩
    rw [← hparts]
    simp [Doc.children]
  | closeArray | closeObject | colon | comma => cases h

theorem plan_fits {s : Parse} {t : Token} {p : Plan} (h : plan s t = some p) : p.Fits s := by
  obtain ⟨stack, mode⟩ := s
  cases mode with
  | value => exact planValue_fits (Nat.le_refl _) (fun d => Iff.rfl) h
  | array items =>
    have hbelow : stack.length ≤ Parse.depth ⟨stack, .array items⟩ := Nat.le_succ _
    have hfirst : (if items.isEmpty then planValue (.array [] :: stack) t else none) = some p →
        p.Fits ⟨stack, .array items⟩ := by
      intro hp
      split at hp
      · rename_i hempty
        rw [List.isEmpty_iff.mp hempty]
        have hdepth : (Frame.array [] :: stack).length ≤ Parse.depth ⟨stack, .array []⟩ :=
          Nat.le_refl _
        exact planValue_fits hdepth (fun d => Iff.rfl) hp
      · cases hp
    cases t with
    | closeArray =>
      cases h
      exact ⟨hbelow, fun d => List.mem_append.symm⟩
    | comma =>
      simp only [plan, planArray] at h
      split at h
      · cases h
      · cases h
        exact ⟨Nat.le_refl _, fun d => Iff.rfl⟩
    | openArray | openObject | closeObject | colon | scalar v => exact hfirst h
  | object members =>
    have hbelow : stack.length ≤ Parse.depth ⟨stack, .object members⟩ := Nat.le_succ _
    cases t with
    | closeObject =>
      cases h
      exact ⟨hbelow, fun d => List.mem_append.symm⟩
    | comma =>
      simp only [plan, planObject] at h
      split at h
      · cases h
      · cases h
        exact ⟨Nat.le_refl _, fun d => Iff.rfl⟩
    | scalar v =>
      cases v with
      | string key =>
        simp only [plan, planObject] at h
        split at h
        · rename_i hempty
          cases h
          rw [List.isEmpty_iff.mp hempty]
          exact ⟨Nat.le_refl _, fun d => Iff.rfl⟩
        · cases h
      | null | bool b | number n | constant name => cases h
    | openArray | openObject | closeArray | colon => cases h
  | key members =>
    cases t with
    | scalar v =>
      cases v with
      | string key =>
        cases h
        exact ⟨Nat.le_refl _, fun d => Iff.rfl⟩
      | null | bool b | number n | constant name => cases h
    | openArray | openObject | closeArray | closeObject | colon | comma => cases h
  | colon members key =>
    cases t with
    | colon =>
      cases h
      exact ⟨Nat.le_refl _, fun d => Iff.rfl⟩
    | openArray | openObject | closeArray | closeObject | comma | scalar v => cases h
  | done v => cases h

end Plans

section Depth

variable {accept : Doc → Bool} {limit : ℕ} {s s' : Parse} {t : Token} {ts : List (Option Token)}

/-- How deep a text is nested, as far as it is read. -/
def deepest (accept : Doc → Bool) : Parse → List (Option Token) → ℕ
  | s, [] => s.depth
  | s, none :: _ => s.depth
  | s, some t :: ts =>
    match feed accept none s t with
    | .ok s' => max s.depth (deepest accept s' ts)
    | .error _ => s.depth

theorem deepest_ok (h : feed accept none s t = .ok s') :
    deepest accept s (some t :: ts) = max s.depth (deepest accept s' ts) := by
  simp only [deepest, h]

theorem deepest_error {e : Fault} (h : feed accept none s t = .error e) :
    deepest accept s (some t :: ts) = s.depth := by
  simp only [deepest, h]

theorem run_ok {bound : Option ℕ} (h : feed accept bound s t = .ok s') :
    run accept bound s (some t :: ts) = run accept bound s' ts := by
  simp only [run, h]

theorem run_error {bound : Option ℕ} {e : Fault} (h : feed accept bound s t = .error e) :
    run accept bound s (some t :: ts) = .error e := by
  simp only [run, h]

theorem depth_place_le (v : Doc) (stack : List Frame) : (place v stack).depth ≤ stack.length := by
  cases stack with
  | nil => simp [place, Parse.depth]
  | cons frame stack =>
    cases frame with
    | array items => simp [place, Parse.depth]
    | member members key => simp [place, Parse.depth]

theorem depth_le_deepest (accept : Doc → Bool) (s : Parse) (ts : List (Option Token)) :
    s.depth ≤ deepest accept s ts := by
  cases ts with
  | nil => exact Nat.le_refl _
  | cons t ts =>
    cases t with
    | none => exact Nat.le_refl _
    | some t =>
      cases h : feed accept none s t with
      | ok s' =>
        rw [deepest_ok h]
        exact Nat.le_max_left _ _
      | error e => exact Nat.le_of_eq (deepest_error h).symm

/-- With a limit a step is the same, unless it opens one container too many. -/
theorem feed_limit (accept : Doc → Bool) (t : Token) (hs : s.depth ≤ limit) :
    (feed accept none s t = .error .invalid ∧ feed accept (some limit) s t = .error .invalid) ∨
      ∃ s', feed accept none s t = .ok s' ∧
        feed accept (some limit) s t = if s'.depth ≤ limit then .ok s' else .error .tooDeep := by
  unfold feed
  cases hp : plan s t with
  | none => exact Or.inl ⟨rfl, rfl⟩
  | some p =>
    have hfits := plan_fits hp
    cases p with
    | «open» stack mode =>
      obtain ⟨-, hdepth, -⟩ := hfits
      refine Or.inr ⟨⟨stack, mode⟩, by simp [perform], ?_⟩
      by_cases hfull : limit ≤ stack.length
      · have hdeep : ¬ Parse.depth ⟨stack, mode⟩ ≤ limit := by omega
        simp [perform, hfull, hdeep]
      · have hfree : Parse.depth ⟨stack, mode⟩ ≤ limit := by omega
        simp [perform, hfull, hfree]
    | complete stack v =>
      obtain ⟨hbelow, -⟩ := hfits
      have hplace := depth_place_le v stack
      by_cases hv : accept v
      · refine Or.inr ⟨place v stack, by simp [perform, hv], ?_⟩
        rw [if_pos (by omega)]
        simp [perform, hv]
      · exact Or.inl (by simp [perform, hv])
    | go s' =>
      obtain ⟨hdepth, -⟩ := hfits
      refine Or.inr ⟨s', rfl, ?_⟩
      rw [if_pos (by omega)]
      rfl

/-- The limit is the first fault of a text that is nested deeper, and nothing to any other. -/
theorem run_limit (hs : s.depth ≤ limit) :
    run accept (some limit) s ts =
      if deepest accept s ts ≤ limit then run accept none s ts else .error .tooDeep := by
  induction ts generalizing s with
  | nil => rw [deepest, if_pos hs, run, run]
  | cons t ts ih =>
    cases t with
    | none => rw [deepest, if_pos hs, run, run]
    | some t =>
      rcases feed_limit accept t hs with ⟨hfree, hlimited⟩ | ⟨s', hfree, hlimited⟩
      · rw [run_error hlimited, run_error hfree, deepest_error hfree, if_pos hs]
      · rw [run_ok hfree, deepest_ok hfree]
        by_cases hs' : s'.depth ≤ limit
        · rw [if_pos hs'] at hlimited
          rw [run_ok hlimited, ih hs']
          simp only [Nat.max_le, hs, true_and]
        · have hdeep : ¬ max s.depth (deepest accept s' ts) ≤ limit := by
            have hle := depth_le_deepest accept s' ts
            omega
          rw [if_neg hs'] at hlimited
          rw [run_error hlimited, if_neg hdeep]

end Depth

section Checks

variable {accept : Doc → Bool} {s s' : Parse} {t : Token} {ts : List (Option Token)}

/-- Everything that is read passes the check. -/
def Parse.Passes (accept : Doc → Bool) (s : Parse) : Prop :=
  ∀ d ∈ s.parts, d.all accept = true

theorem mem_parts_place {v d : Doc} {stack : List Frame} :
    d ∈ (place v stack).parts ↔ d = v ∨ d ∈ stack.flatMap Frame.parts := by
  cases stack with
  | nil => simp [place, Parse.parts, Mode.parts]
  | cons frame stack =>
    cases frame with
    | array items =>
      simp only [place, Parse.parts, Mode.parts, List.flatMap_cons, Frame.parts, List.mem_append,
        List.mem_singleton, or_assoc]
      exact or_left_comm
    | member members key =>
      simp only [place, Parse.parts, Mode.parts, List.flatMap_cons, Frame.parts, List.mem_append,
        List.map_append, List.map_cons, List.map_nil, List.mem_singleton, or_assoc]
      exact or_left_comm

/-- With a check a step is the same, unless it completes a value that fails. -/
theorem feed_accept (accept : Doc → Bool) (s : Parse) (t : Token) :
    (feed (fun _ => true) none s t = .error .invalid ∧ feed accept none s t = .error .invalid) ∨
      ∃ s', feed (fun _ => true) none s t = .ok s' ∧ (s'.Passes accept → s.Passes accept) ∧
        (s.Passes accept → s'.Passes accept ∧ feed accept none s t = .ok s' ∨
          ¬ s'.Passes accept ∧ feed accept none s t = .error .invalid) := by
  unfold feed
  cases hp : plan s t with
  | none => exact Or.inl ⟨rfl, rfl⟩
  | some p =>
    have hfits := plan_fits hp
    cases p with
    | «open» stack mode =>
      obtain ⟨-, -, hparts⟩ := hfits
      have hpasses : Parse.Passes accept ⟨stack, mode⟩ ↔ s.Passes accept := by
        simp only [Parse.Passes, hparts]
      refine Or.inr ⟨⟨stack, mode⟩, by simp [perform], hpasses.mp, fun hs => Or.inl ⟨?_, ?_⟩⟩
      · exact hpasses.mpr hs
      · simp [perform]
    | go s' =>
      obtain ⟨-, hparts⟩ := hfits
      have hpasses : s'.Passes accept ↔ s.Passes accept := by
        simp only [Parse.Passes, hparts]
      exact Or.inr ⟨s', rfl, hpasses.mp, fun hs => Or.inl ⟨hpasses.mpr hs, rfl⟩⟩
    | complete stack v =>
      obtain ⟨-, hparts⟩ := hfits
      have hsplit : s.Passes accept ↔ (∀ d ∈ v.children, d.all accept = true) ∧
          ∀ d ∈ stack.flatMap Frame.parts, d.all accept = true := by
        simp only [Parse.Passes, ← hparts, or_imp, forall_and]
      have hplace : (place v stack).Passes accept ↔ v.all accept = true ∧
          ∀ d ∈ stack.flatMap Frame.parts, d.all accept = true := by
        simp only [Parse.Passes, mem_parts_place, or_imp, forall_and, forall_eq]
      refine Or.inr ⟨place v stack, by simp [perform], fun h => ?_, fun hs => ?_⟩
      · obtain ⟨hv, hrest⟩ := hplace.mp h
        exact hsplit.mpr ⟨(Doc.all_iff.mp hv).2, hrest⟩
      · obtain ⟨hchildren, hrest⟩ := hsplit.mp hs
        by_cases hv : accept v = true
        · exact Or.inl ⟨hplace.mpr ⟨Doc.all_iff.mpr ⟨hv, hchildren⟩, hrest⟩, by simp [perform, hv]⟩
        · refine Or.inr ⟨fun h => hv (Doc.all_iff.mp (hplace.mp h).1).1, by simp [perform, hv]⟩

/-- What has been read with a part that fails never becomes a document that passes. -/
theorem passes_of_run (h : run (fun _ => true) none s ts = .ok s') (hs' : s'.Passes accept) :
    s.Passes accept := by
  induction ts generalizing s with
  | nil =>
    cases h
    exact hs'
  | cons t ts ih =>
    cases t with
    | none => cases h
    | some t =>
      rcases feed_accept accept s t with ⟨hpure, -⟩ | ⟨m, hpure, hback, -⟩
      · rw [run_error hpure] at h
        cases h
      · rw [run_ok hpure] at h
        exact hback (ih h)

/-- The check rejects what has a part that fails, and nothing else. -/
theorem run_accept (hs : s.Passes accept) :
    run accept none s ts = .ok s' ↔
      run (fun _ => true) none s ts = .ok s' ∧ s'.Passes accept := by
  induction ts generalizing s with
  | nil =>
    rw [run, run, Except.ok.injEq]
    constructor
    · rintro rfl
      exact ⟨rfl, hs⟩
    · exact And.left
  | cons t ts ih =>
    cases t with
    | none => simp [run]
    | some t =>
      rcases feed_accept accept s t with
        ⟨hpure, hcheck⟩ | ⟨m, hpure, -, hstep⟩
      · simp [run_error hpure, run_error hcheck]
      · rcases hstep hs with ⟨hm, hcheck⟩ | ⟨hm, hcheck⟩
        · rw [run_ok hpure, run_ok hcheck]
          exact ih hm
        · rw [run_ok hpure, run_error hcheck]
          refine iff_of_false nofun fun h => hm (passes_of_run h.1 h.2)

theorem run_ne_tooDeep : run accept none s ts ≠ .error .tooDeep := by
  induction ts generalizing s with
  | nil => simp [run]
  | cons t ts ih =>
    cases t with
    | none => simp [run]
    | some t =>
      rcases feed_limit accept t (Nat.le_refl s.depth) with
        ⟨hfree, -⟩ | ⟨m, hfree, -⟩
      · simp [run_error hfree]
      · rw [run_ok hfree]
        exact ih

end Checks

section Decode

variable {accept : Doc → Bool} {text : List Char} {v : Doc}

/-- How deep a text is nested, up to the first thing that is wrong with it. -/
def nesting (accept : Doc → Bool) (text : List Char) : ℕ := deepest accept {} (tokens .gap text)

theorem document_eq_ok {r : Except Fault Parse} :
    document r = .ok v ↔ r = .ok ⟨[], .done v⟩ := by
  constructor
  · intro h
    unfold document at h
    split at h
    · cases h
      rfl
    · cases h
    · cases h
  · rintro rfl
    rfl

theorem decode_limit (accept : Doc → Bool) (limit : ℕ) (text : List Char) :
    decode accept (some limit) text =
      if nesting accept text ≤ limit then decode accept none text else .error .tooDeep := by
  unfold decode nesting
  rw [run_limit (Nat.zero_le _)]
  split
  · rfl
  · rfl

theorem decode_ne_tooDeep : decode accept none text ≠ .error .tooDeep := by
  unfold decode document
  split
  · simp
  · simp
  · rename_i e he
    intro h
    cases h
    exact run_ne_tooDeep he

theorem read_eq_some : read text = some v ↔ decode (fun _ => true) none text = .ok v := by
  unfold read
  cases decode (fun _ => true) none text with
  | ok d => simp [Except.toOption]
  | error e => simp [Except.toOption]

theorem decode_accept :
    decode accept none text = .ok v ↔ read text = some v ∧ v.all accept = true := by
  have hstart : Parse.Passes accept {} := by simp [Parse.Passes, Parse.parts, Mode.parts]
  have hend : Parse.Passes accept ⟨[], .done v⟩ ↔ v.all accept = true := by
    simp [Parse.Passes, Parse.parts, Mode.parts]
  rw [read_eq_some, decode, document_eq_ok, run_accept hstart, hend, decode, document_eq_ok]

theorem tokens_brackets (n : ℕ) :
    tokens .gap (List.replicate n '[') = List.replicate n (some .openArray) := by
  induction n with
  | zero => rfl
  | succ n ih =>
    rw [List.replicate_succ, List.replicate_succ, ← ih]
    rfl

theorem deepest_brackets (accept : Doc → Bool) (stack : List Frame) (n : ℕ) :
    deepest accept ⟨stack, .array []⟩ (List.replicate n (some .openArray)) =
      stack.length + 1 + n := by
  induction n generalizing stack with
  | zero => rfl
  | succ n ih =>
    have hopen : feed accept none ⟨stack, .array []⟩ .openArray =
        .ok ⟨.array [] :: stack, .array []⟩ := by
      simp [feed, plan, planArray, planValue, perform]
    have hdepth : Parse.depth ⟨stack, .array []⟩ = stack.length + 1 := rfl
    rw [List.replicate_succ, deepest_ok hopen, ih, hdepth, List.length_cons]
    omega

/-- Open brackets alone nest as deep as one likes. -/
theorem nesting_brackets (accept : Doc → Bool) (n : ℕ) :
    nesting accept (List.replicate n '[') = n := by
  rw [nesting, tokens_brackets]
  cases n with
  | zero => rfl
  | succ n =>
    have hopen : feed accept none {} .openArray = .ok ⟨[], .array []⟩ := by
      simp [feed, plan, planValue, perform]
    have hdepth : Parse.depth {} = 0 := rfl
    rw [List.replicate_succ, deepest_ok hopen, deepest_brackets, hdepth, List.length_nil]
    omega

end Decode

section Lines

/-- The two characters of a line end are alike to the lexer, and what follows is between tokens. -/
theorem lex_newline (st : Lexer) :
    lex st '\r' = lex st '\n' ∧ ∀ r, lex st '\n' = some r → r.2 = .gap := by
  have hstart : start '\r' = some ([], .gap) ∧ start '\n' = some ([], .gap) := by decide
  cases st with
  | gap =>
    refine ⟨hstart.1.trans hstart.2.symm, fun r hr => ?_⟩
    rw [lex, hstart.2] at hr
    cases hr
    rfl
  | letters rest s =>
    have hcr : lex (.letters rest s) '\r' = none := by
      cases rest with
      | nil => rfl
      | cons x rest => exact if_pos (Or.inr (by decide))
    have hlf : lex (.letters rest s) '\n' = none := by
      cases rest with
      | nil => rfl
      | cons x rest => exact if_pos (Or.inr (by decide))
    rw [hcr, hlf]
    exact ⟨rfl, nofun⟩
  | number phase n =>
    have hextend : phase.extend n '\r' = none ∧ phase.extend n '\n' = none := ⟨rfl, rfl⟩
    simp only [lex, hextend, hstart]
    cases phase <;> simp [Phase.complete]
  | string units => exact ⟨rfl, nofun⟩
  | escape units => exact ⟨rfl, nofun⟩
  | hex units left value => exact ⟨rfl, nofun⟩

theorem tokens_cons_some {st : Lexer} {c : Char} {cs : List Char} {r : List Token × Lexer}
    (h : lex st c = some r) : tokens st (c :: cs) = r.1.map some ++ tokens r.2 cs := by
  simp only [tokens, h]

theorem tokens_cons_none {st : Lexer} {c : Char} {cs : List Char} (h : lex st c = none) :
    tokens st (c :: cs) = [none] := by
  simp only [tokens, h]

/-- Line ends can be translated before the text is read. -/
theorem tokens_universalNewlines (st : Lexer) (text : List Char) :
    tokens st (universalNewlines text) = tokens st text := by
  induction text using universalNewlines.induct generalizing st with
  | case1 => rfl
  | case2 cs ih =>
    obtain ⟨hcr, hgap⟩ := lex_newline st
    rw [universalNewlines]
    cases hlf : lex st '\n' with
    | none => rw [tokens_cons_none hlf, tokens_cons_none (hcr.trans hlf)]
    | some r =>
      have hskip : lex .gap '\n' = some ([], .gap) := by decide
      rw [tokens_cons_some hlf, tokens_cons_some (hcr.trans hlf), hgap r hlf,
        tokens_cons_some hskip, ih]
      rfl
  | case3 cs hnot ih =>
    obtain ⟨hcr, -⟩ := lex_newline st
    rw [universalNewlines.eq_3 _ hnot]
    cases hlf : lex st '\n' with
    | none => rw [tokens_cons_none hlf, tokens_cons_none (hcr.trans hlf)]
    | some r => rw [tokens_cons_some hlf, tokens_cons_some (hcr.trans hlf), ih]
  | case4 c cs hnot hnot' ih =>
    rw [universalNewlines.eq_4 _ _ hnot hnot']
    cases hc : lex st c with
    | none => rw [tokens_cons_none hc, tokens_cons_none hc]
    | some r => rw [tokens_cons_some hc, tokens_cons_some hc, ih]

theorem decode_universalNewlines (accept : Doc → Bool) (limit : Option ℕ) (text : List Char) :
    decode accept limit (universalNewlines text) = decode accept limit text := by
  rw [decode, decode, tokens_universalNewlines]

end Lines

end Hippo.JsonText
