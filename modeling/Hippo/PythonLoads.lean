import Hippo.JsonDicts

/-!
# JSON text as a list of code points

A Python text may hold lone surrogates, which a JSON text has inside its strings only. Numbers are
kept as they are spelled. The strings of a document are shorter than its text, and the text of a
container begins with its bracket.
-/
namespace Hippo.JsonText

section Reading

/-- One code point. A surrogate of the text does not join with one that an escape spells. -/
def lexCode (st : Lexer) (u : ℕ) : Option (List Token × Lexer) :=
  if isHigh u || isLow u then
    match st with
    | .string units => some ([], .string ((0x110000 + u) :: units))
    | _ => none
  else lex st (Char.ofNat u)

/-- A token with the text of its number and with the surrogates of the text as they are. -/
def spell (literal : List ℕ) : Token → Token
  | .scalar (.number _) => .scalar (.constant (String.ofList (literal.map Char.ofNat)))
  | .scalar (.string s) => .scalar (.string (s.map (· % 0x110000)))
  | t => t

/-- The tokens of a text; `literal` is what has been read of the one in progress. -/
def codeTokens (st : Lexer) (literal : List ℕ) : List ℕ → List (Option Token)
  | [] => (ending st).map (Option.map (spell literal))
  | u :: text =>
    match lexCode st u with
    | none => [none]
    | some r =>
      r.1.map (fun t => some (spell literal t)) ++
        codeTokens r.2 (if r.1.isEmpty ∧ st ≠ .gap then literal ++ [u] else [u]) text

/-- The document `json.loads` reads, its objects not yet dicts. `accept` and `limit` stand for the
limit to the digits of a number and for the recursion limit. -/
def loads (accept : Doc → Bool) (limit : Option ℕ) (text : List ℕ) : Option Doc :=
  (document (run accept limit {} (codeTokens .gap [] text))).toOption

theorem loads_eq_some {accept : Doc → Bool} {limit : Option ℕ} {text : List ℕ} {v : Doc} :
    loads accept limit text = some v ↔
      run accept limit {} (codeTokens .gap [] text) = .ok ⟨[], .done v⟩ := by
  rw [← document_eq_ok, loads]
  cases document (run accept limit {} (codeTokens .gap [] text)) with
  | ok w => simp [Except.toOption]
  | error e => simp [Except.toOption]

end Reading

section Lengths

/-- The length of the string that is being read. -/
def Lexer.held : Lexer → ℕ
  | .string units | .escape units | .hex units _ _ => units.length
  | .letters _ (.string s) => s.length
  | _ => 0

theorem length_joinSurrogates (units : List ℕ) : (joinSurrogates units).length ≤ units.length := by
  induction units using joinSurrogates.induct with
  | case1 => simp [joinSurrogates]
  | case2 u => simp [joinSurrogates]
  | case3 u v rest hpair ih =>
    rw [joinSurrogates, if_pos hpair]
    simp only [List.length_cons]
    omega
  | case4 u v rest hpair ih =>
    rw [joinSurrogates, if_neg hpair]
    simp only [List.length_cons] at ih ⊢
    omega

variable {st st' : Lexer} {c : Char} {ts : List Token}

/-- Nothing but a quote begins a string. -/
theorem start_held (h : start c = some (ts, st')) :
    (∀ s, Token.scalar (.string s) ∉ ts) ∧ st'.held = 0 := by
  unfold start at h
  split at h
  · cases h
    exact ⟨fun s => List.not_mem_nil, rfl⟩
  · split at h
    · cases h
      exact ⟨fun s => List.not_mem_nil, rfl⟩
    · split at h <;> cases h <;> exact ⟨by simp, rfl⟩

theorem lex_held (h : lex st c = some (ts, st')) :
    (∀ s, Token.scalar (.string s) ∈ ts → s.length ≤ st.held) ∧ st'.held ≤ st.held + 1 := by
  cases st with
  | gap =>
    obtain ⟨hts, hst'⟩ := start_held h
    exact ⟨fun s hs => absurd hs (hts s), by omega⟩
  | letters rest x =>
    cases rest with
    | nil => cases h
    | cons a rest =>
      simp only [lex] at h
      split_ifs at h
      · cases h
        refine ⟨fun s hs => ?_, by simp [Lexer.held]⟩
        cases List.mem_singleton.mp hs
        exact Nat.le_refl _
      · cases h
        refine ⟨by simp, ?_⟩
        cases x <;> simp [Lexer.held]
  | number phase n =>
    rw [lex] at h
    cases hnext : phase.extend n c with
    | some next =>
      rw [hnext] at h
      cases h
      exact ⟨by simp, by simp [Lexer.held]⟩
    | none =>
      simp only [hnext] at h
      split_ifs at h
      · obtain ⟨r, hr, heq⟩ := Option.map_eq_some_iff.mp h
        cases heq
        obtain ⟨hts, hst'⟩ := start_held (show start c = some (r.1, r.2) from hr)
        refine ⟨fun s hs => ?_, by omega⟩
        rcases List.mem_cons.mp hs with heq | hs
        · cases heq
        · exact absurd hs (hts s)
      · cases h
        exact ⟨by simp, by simp [Lexer.held]⟩
  | string units =>
    rw [lex] at h
    split_ifs at h
    · cases h
      refine ⟨fun s hs => ?_, by simp [Lexer.held]⟩
      cases List.mem_singleton.mp hs
      simpa [Lexer.held] using length_joinSurrogates units.reverse
    · cases h
      exact ⟨by simp, by simp [Lexer.held]⟩
    · cases h
      exact ⟨by simp, by simp [Lexer.held]⟩
  | escape units =>
    rw [lex] at h
    split_ifs at h
    · cases h
      exact ⟨by simp, by simp [Lexer.held]⟩
    · obtain ⟨u, hu, heq⟩ := Option.map_eq_some_iff.mp h
      cases heq
      exact ⟨by simp, by simp [Lexer.held]⟩
  | hex units left value =>
    rw [lex] at h
    obtain ⟨d, hd, heq⟩ := Option.map_eq_some_iff.mp h
    split_ifs at heq
    · cases heq
      exact ⟨by simp, by simp [Lexer.held]⟩
    · cases heq
      exact ⟨by simp, by simp [Lexer.held]⟩

theorem lexCode_held {u : ℕ} (h : lexCode st u = some (ts, st')) :
    (∀ s, Token.scalar (.string s) ∈ ts → s.length ≤ st.held) ∧ st'.held ≤ st.held + 1 := by
  unfold lexCode at h
  split at h
  · split at h
    · cases h
      exact ⟨by simp, by simp [Lexer.held]⟩
    · cases h
  · exact lex_held h

theorem ending_ne_string (st : Lexer) (s : List ℕ) :
    some (Token.scalar (.string s)) ∉ ending st := by
  cases st with
  | number phase n =>
    rw [ending]
    split <;> simp
  | _ => simp [ending]

theorem spell_eq_string {literal s : List ℕ} {t : Token}
    (h : spell literal t = .scalar (.string s)) :
    ∃ x, t = .scalar (.string x) ∧ s = x.map (· % 0x110000) := by
  cases t with
  | scalar x =>
    cases x with
    | string x =>
      cases h
      exact ⟨x, rfl, rfl⟩
    | _ => cases h
  | _ => cases h

/-- Each element of a string takes a code point of the text, and so does its closing quote. -/
theorem string_length_lt {s : List ℕ} (text : List ℕ) : ∀ {st : Lexer} {literal : List ℕ},
    some (Token.scalar (.string s)) ∈ codeTokens st literal text →
      s.length < text.length + st.held := by
  induction text with
  | nil =>
    intro st literal h
    obtain ⟨t, ht, heq⟩ := List.mem_map.mp h
    obtain ⟨t, rfl, hspell⟩ := Option.map_eq_some_iff.mp heq
    obtain ⟨x, rfl, -⟩ := spell_eq_string hspell
    exact absurd ht (ending_ne_string st x)
  | cons u text ih =>
    intro st literal h
    rw [codeTokens] at h
    cases hlex : lexCode st u with
    | none => simp [hlex] at h
    | some r =>
      simp only [hlex] at h
      obtain ⟨hstrings, hheld⟩ := lexCode_held (show lexCode st u = some (r.1, r.2) from hlex)
      rw [List.length_cons]
      rcases List.mem_append.mp h with h | h
      · obtain ⟨t, ht, heq⟩ := List.mem_map.mp h
        obtain ⟨x, rfl, rfl⟩ := spell_eq_string (Option.some.inj heq)
        have hlength := hstrings x ht
        rw [List.length_map]
        omega
      · have hlength := ih h
        omega

end Lengths

section Strings

variable {s : List ℕ}

def Frame.Holds (s : List ℕ) : Frame → Prop
  | .array items => (Doc.array items).HasString s
  | .member members key => (Doc.object members).HasString s ∨ s = key

def Mode.Holds (s : List ℕ) : Mode → Prop
  | .value => False
  | .array items => (Doc.array items).HasString s
  | .object members | .key members => (Doc.object members).HasString s
  | .colon members k => (Doc.object members).HasString s ∨ s = k
  | .done v => v.HasString s

/-- The string is among what is read. -/
def Parse.Holds (s : List ℕ) (p : Parse) : Prop := p.mode.Holds s ∨ ∃ f ∈ p.stack, f.Holds s

theorem hasString_array_append {items : List Doc} {v : Doc}
    (h : (Doc.array (items ++ [v])).HasString s) :
    (Doc.array items).HasString s ∨ v.HasString s := by
  cases h with
  | item hmem h =>
    rcases List.mem_append.mp hmem with hmem | hmem
    · exact Or.inl (.item hmem h)
    · exact Or.inr (List.mem_singleton.mp hmem ▸ h)

theorem hasString_object_append {ms : List (List ℕ × Doc)} {key : List ℕ} {v : Doc}
    (h : (Doc.object (ms ++ [(key, v)])).HasString s) :
    ((Doc.object ms).HasString s ∨ s = key) ∨ v.HasString s := by
  cases h with
  | key hmem =>
    rcases List.mem_append.mp hmem with hmem | hmem
    · exact Or.inl (Or.inl (.key hmem))
    · cases List.mem_singleton.mp hmem
      exact Or.inl (Or.inr rfl)
  | member hmem h =>
    rcases List.mem_append.mp hmem with hmem | hmem
    · exact Or.inl (Or.inl (.member hmem h))
    · cases List.mem_singleton.mp hmem
      exact Or.inr h

theorem holds_place {v : Doc} {stack : List Frame} (h : (place v stack).Holds s) :
    v.HasString s ∨ ∃ f ∈ stack, f.Holds s := by
  cases stack with
  | nil =>
    rcases h with h | ⟨f, hf, -⟩
    · exact Or.inl h
    · cases hf
  | cons frame stack =>
    have hbelow : ∀ {p : Prop}, p ∨ (∃ f ∈ stack, f.Holds s) →
        (p → v.HasString s ∨ frame.Holds s) →
          v.HasString s ∨ ∃ f ∈ frame :: stack, f.Holds s := by
      intro p hp hframe
      rcases hp with hp | ⟨f, hf, hholds⟩
      · exact (hframe hp).imp_right fun hholds => ⟨frame, List.mem_cons_self, hholds⟩
      · exact Or.inr ⟨f, List.mem_cons_of_mem frame hf, hholds⟩
    cases frame with
    | array items => exact hbelow h fun hitems => (hasString_array_append hitems).symm
    | member members key => exact hbelow h fun hmembers => (hasString_object_append hmembers).symm

theorem not_hasString_array_nil : ¬ (Doc.array []).HasString s := by
  intro h
  cases h with
  | item hmem _ => cases hmem

theorem not_hasString_object_nil : ¬ (Doc.object []).HasString s := by
  intro h
  cases h with
  | key hmem => cases hmem
  | member hmem _ => cases hmem

/-- What a plan leads to. -/
def Plan.Holds (s : List ℕ) : Plan → Prop
  | .open stack mode => Parse.Holds s ⟨stack, mode⟩
  | .complete stack v => v.HasString s ∨ ∃ f ∈ stack, f.Holds s
  | .go p => p.Holds s

theorem planValue_holds {stack : List Frame} {t : Token} {plan : Plan}
    (h : planValue stack t = some plan) (hs : plan.Holds s) :
    (∃ f ∈ stack, f.Holds s) ∨ t = .scalar (.string s) := by
  cases t with
  | openArray =>
    cases h
    exact Or.inl (hs.resolve_left not_hasString_array_nil)
  | openObject =>
    cases h
    exact Or.inl (hs.resolve_left not_hasString_object_nil)
  | scalar x =>
    cases h
    rcases hs with hs | hs
    · cases hs
      exact Or.inr rfl
    · exact Or.inl hs
  | closeArray | closeObject | colon | comma => cases h

/-- A new string is that of the token. -/
theorem plan_holds {p : Parse} {t : Token} {next : Plan} (h : plan p t = some next)
    (hs : next.Holds s) : p.Holds s ∨ t = .scalar (.string s) := by
  obtain ⟨stack, mode⟩ := p
  cases mode with
  | value => exact (planValue_holds h hs).imp_left Or.inr
  | array items =>
    have hfirst : (if items.isEmpty then planValue (.array [] :: stack) t else none) = some next →
        Parse.Holds s ⟨stack, .array items⟩ ∨ t = .scalar (.string s) := by
      intro hnext
      split at hnext
      · refine (planValue_holds hnext hs).imp_left fun ⟨f, hf, hholds⟩ => ?_
        rcases List.mem_cons.mp hf with rfl | hf
        · exact absurd hholds not_hasString_array_nil
        · exact Or.inr ⟨f, hf, hholds⟩
      · cases hnext
    cases t with
    | closeArray =>
      cases h
      exact Or.inl hs
    | comma =>
      simp only [plan, planArray] at h
      split at h
      · cases h
      · cases h
        rcases hs with hs | ⟨f, hf, hholds⟩
        · cases hs
        · rcases List.mem_cons.mp hf with rfl | hf
          · exact Or.inl (Or.inl hholds)
          · exact Or.inl (Or.inr ⟨f, hf, hholds⟩)
    | openArray | closeObject | openObject | colon | scalar => exact hfirst h
  | object members =>
    cases t with
    | closeObject =>
      cases h
      exact Or.inl hs
    | comma =>
      simp only [plan, planObject] at h
      split at h
      · cases h
      · cases h
        exact Or.inl hs
    | scalar x =>
      cases x with
      | string key =>
        simp only [plan, planObject] at h
        split at h
        · cases h
          rcases hs with (hs | rfl) | hs
          · exact absurd hs not_hasString_object_nil
          · exact Or.inr rfl
          · exact Or.inl (Or.inr hs)
        · cases h
      | null | bool | number | constant => cases h
    | openArray | closeArray | openObject | colon => cases h
  | key members =>
    cases t with
    | scalar x =>
      cases x with
      | string key =>
        cases h
        rcases hs with (hs | rfl) | hs
        · exact Or.inl (Or.inl hs)
        · exact Or.inr rfl
        · exact Or.inl (Or.inr hs)
      | null | bool | number | constant => cases h
    | openArray | closeArray | openObject | closeObject | colon | comma => cases h
  | colon members key =>
    cases t with
    | colon =>
      cases h
      rcases hs with hs | ⟨f, hf, hholds⟩
      · cases hs
      · rcases List.mem_cons.mp hf with rfl | hf
        · exact Or.inl (Or.inl hholds)
        · exact Or.inl (Or.inr ⟨f, hf, hholds⟩)
    | openArray | closeArray | openObject | closeObject | comma | scalar => cases h
  | done v => cases h

variable {accept : Doc → Bool} {limit : Option ℕ} {p p' : Parse} {t : Token}
  {ts : List (Option Token)}

theorem feed_holds (h : feed accept limit p t = .ok p') (hs : p'.Holds s) :
    p.Holds s ∨ t = .scalar (.string s) := by
  unfold feed at h
  cases hplan : plan p t with
  | none => simp [hplan] at h
  | some next =>
    rw [hplan] at h
    refine plan_holds hplan ?_
    cases next with
    | «open» stack mode =>
      simp only [perform] at h
      split_ifs at h
      cases h
      exact hs
    | complete stack v =>
      simp only [perform] at h
      split_ifs at h
      cases h
      exact holds_place hs
    | go q =>
      cases h
      exact hs

/-- What is read was there before or is among the tokens. -/
theorem run_holds (h : run accept limit p ts = .ok p') (hs : p'.Holds s) :
    p.Holds s ∨ some (Token.scalar (.string s)) ∈ ts := by
  induction ts generalizing p with
  | nil =>
    cases h
    exact Or.inl hs
  | cons t ts ih =>
    cases t with
    | none => cases h
    | some t =>
      cases hfeed : feed accept limit p t with
      | error e =>
        rw [run_error hfeed] at h
        cases h
      | ok q =>
        rw [run_ok hfeed] at h
        rcases ih h with hq | hmem
        · rcases feed_holds hfeed hq with hp | rfl
          · exact Or.inl hp
          · exact Or.inr List.mem_cons_self
        · exact Or.inr (List.mem_cons_of_mem _ hmem)

/-- The strings and keys of a document are shorter than its text. -/
theorem shorter_of_loads {text : List ℕ} {v : Doc} (h : loads accept limit text = some v)
    (hs : v.HasString s) : s.length < text.length := by
  rcases run_holds (loads_eq_some.mp h) (Or.inl hs) with hnil | hmem
  · rcases hnil with hnil | ⟨f, hf, -⟩
    · cases hnil
    · cases hf
  · exact string_length_lt text hmem

end Strings

section Containers

variable {st st' : Lexer} {ts : List Token} {accept : Doc → Bool} {limit : Option ℕ}

/-- Outside of a gap the next token is a scalar. -/
theorem lex_scalar {c : Char} (hst : st ≠ .gap) (h : lex st c = some (ts, st')) :
    ts = [] ∧ st' ≠ .gap ∨ ∃ x rest, ts = Token.scalar x :: rest := by
  cases st with
  | gap => exact absurd rfl hst
  | letters rest x =>
    cases rest with
    | nil => cases h
    | cons a rest =>
      simp only [lex] at h
      split_ifs at h
      · cases h
        exact Or.inr ⟨x, [], rfl⟩
      · cases h
        exact Or.inl ⟨rfl, by simp⟩
  | number phase n =>
    rw [lex] at h
    cases hnext : phase.extend n c with
    | some next =>
      rw [hnext] at h
      cases h
      exact Or.inl ⟨rfl, by simp⟩
    | none =>
      simp only [hnext] at h
      split_ifs at h
      · obtain ⟨r, -, heq⟩ := Option.map_eq_some_iff.mp h
        cases heq
        exact Or.inr ⟨.number n, r.1, rfl⟩
      · cases h
        exact Or.inl ⟨rfl, by simp⟩
  | string units =>
    rw [lex] at h
    split_ifs at h
    · cases h
      exact Or.inr ⟨_, [], rfl⟩
    · cases h
      exact Or.inl ⟨rfl, by simp⟩
    · cases h
      exact Or.inl ⟨rfl, by simp⟩
  | escape units =>
    rw [lex] at h
    split_ifs at h
    · cases h
      exact Or.inl ⟨rfl, by simp⟩
    · obtain ⟨u, -, heq⟩ := Option.map_eq_some_iff.mp h
      cases heq
      exact Or.inl ⟨rfl, by simp⟩
  | hex units left value =>
    rw [lex] at h
    obtain ⟨d, -, heq⟩ := Option.map_eq_some_iff.mp h
    split_ifs at heq
    · cases heq
      exact Or.inl ⟨rfl, by simp⟩
    · cases heq
      exact Or.inl ⟨rfl, by simp⟩

theorem spell_scalar (literal : List ℕ) (x : Scalar) :
    ∃ y, spell literal (.scalar x) = .scalar y := by
  cases x with
  | number n => exact ⟨_, rfl⟩
  | string s => exact ⟨_, rfl⟩
  | null => exact ⟨_, rfl⟩
  | bool b => exact ⟨_, rfl⟩
  | constant name => exact ⟨_, rfl⟩

theorem codeTokens_scalar (text : List ℕ) : ∀ {st : Lexer} {literal : List ℕ}, st ≠ .gap →
    ∃ t rest, codeTokens st literal text = t :: rest ∧ ∀ t' ∈ t, ∃ x, t' = Token.scalar x := by
  induction text with
  | nil =>
    intro st literal hst
    cases st with
    | gap => exact absurd rfl hst
    | number phase n =>
      by_cases hcomplete : phase.complete = true
      · refine ⟨_, [], by simp only [codeTokens, ending, if_pos hcomplete]; rfl, ?_⟩
        intro t' ht'
        cases ht'
        exact ⟨_, rfl⟩
      · exact ⟨none, [], by simp [codeTokens, ending, hcomplete], by simp⟩
    | letters | string | escape | hex => exact ⟨none, [], rfl, by simp⟩
  | cons u text ih =>
    intro st literal hst
    rw [codeTokens]
    cases hlex : lexCode st u with
    | none => exact ⟨none, [], rfl, by simp⟩
    | some r =>
      obtain ⟨ts, st'⟩ := r
      have hscalar : ts = [] ∧ st' ≠ .gap ∨ ∃ x rest, ts = Token.scalar x :: rest := by
        unfold lexCode at hlex
        split at hlex
        · split at hlex
          · cases hlex
            exact Or.inl ⟨rfl, by simp⟩
          · cases hlex
        · exact lex_scalar hst hlex
      rcases hscalar with ⟨rfl, hst'⟩ | ⟨x, rest, rfl⟩
      · exact ih hst'
      · obtain ⟨y, hy⟩ := spell_scalar literal x
        refine ⟨_, _, rfl, ?_⟩
        intro t' ht'
        cases ht'
        exact ⟨y, hy⟩

/-- A text whose first token is a scalar is that scalar. -/
theorem run_scalar {t : Option Token} {rest : List (Option Token)} {v : Doc}
    (ht : ∀ t' ∈ t, ∃ x, t' = Token.scalar x)
    (h : run accept limit {} (t :: rest) = .ok ⟨[], .done v⟩) : ∃ x, v = .scalar x := by
  cases t with
  | none => cases h
  | some t =>
    obtain ⟨x, rfl⟩ := ht t rfl
    have hfeed : feed accept limit {} (.scalar x) =
        if accept (.scalar x) then .ok ⟨[], .done (.scalar x)⟩ else .error .invalid := rfl
    split_ifs at hfeed
    · rw [run_ok hfeed] at h
      cases rest with
      | nil =>
        cases h
        exact ⟨x, rfl⟩
      | cons t rest =>
        cases t with
        | none => cases h
        | some t => cases h
    · rw [run_error hfeed] at h
      cases h

theorem start_space {c : Char} (h : isSpace c = true) : start c = some ([], .gap) := by
  unfold start
  rw [if_pos h]

/-- What begins a text that is a container. -/
theorem start_container {c : Char} (hspace : isSpace c = false) (h : start c = some (ts, st')) :
    (ts = [] ∧ st' ≠ .gap) ∨ c = '[' ∨ c = '\x7b' ∨
      ∃ t, ts = [t] ∧ ∀ literal, feed accept limit {} (spell literal t) = .error .invalid := by
  unfold start at h
  rw [if_neg (by simp [hspace])] at h
  split at h
  · cases h
    exact Or.inl ⟨rfl, by simp⟩
  · split at h <;> cases h
    · exact Or.inr (Or.inl rfl)
    · exact Or.inr (Or.inr (Or.inr ⟨_, rfl, fun literal => rfl⟩))
    · exact Or.inr (Or.inr (Or.inl rfl))
    · exact Or.inr (Or.inr (Or.inr ⟨_, rfl, fun literal => rfl⟩))
    · exact Or.inr (Or.inr (Or.inr ⟨_, rfl, fun literal => rfl⟩))
    · exact Or.inr (Or.inr (Or.inr ⟨_, rfl, fun literal => rfl⟩))
    · exact Or.inl ⟨rfl, by simp⟩
    · exact Or.inl ⟨rfl, by simp⟩
    · exact Or.inl ⟨rfl, by simp⟩
    · exact Or.inl ⟨rfl, by simp⟩
    · exact Or.inl ⟨rfl, by simp⟩
    · exact Or.inl ⟨rfl, by simp⟩
    · exact Or.inl ⟨rfl, by simp⟩

/-- The text of a container begins with its bracket, after some spaces. -/
theorem bracket_of_loads {text : List ℕ} {v : Doc} (hv : ∀ x, v ≠ .scalar x)
    (h : loads accept limit text = some v) :
    ∃ spaces u rest, text = spaces ++ u :: rest ∧ (∀ u ∈ spaces, isSpace (Char.ofNat u) = true) ∧
      (Char.ofNat u = '[' ∨ Char.ofNat u = '\x7b') := by
  rw [loads_eq_some] at h
  suffices hrun : ∀ literal, run accept limit {} (codeTokens .gap literal text) =
      .ok ⟨[], .done v⟩ → ∃ spaces u rest, text = spaces ++ u :: rest ∧
        (∀ u ∈ spaces, isSpace (Char.ofNat u) = true) ∧
          (Char.ofNat u = '[' ∨ Char.ofNat u = '\x7b') from hrun [] h
  clear h
  induction text with
  | nil =>
    intro literal h
    cases h
  | cons u text ih =>
    intro literal h
    rw [codeTokens] at h
    cases hlex : lexCode .gap u with
    | none =>
      rw [hlex] at h
      cases h
    | some r =>
      obtain ⟨ts, st'⟩ := r
      simp only [hlex] at h
      have hstart : start (Char.ofNat u) = some (ts, st') := by
        unfold lexCode at hlex
        split at hlex
        · cases hlex
        · exact hlex
      cases hspace : isSpace (Char.ofNat u) with
      | true =>
        rw [start_space hspace] at hstart
        cases hstart
        obtain ⟨spaces, u', rest, rfl, hspaces, hu'⟩ := ih _ h
        exact ⟨u :: spaces, u', rest, rfl, List.forall_mem_cons.mpr ⟨hspace, hspaces⟩, hu'⟩
      | false =>
        rcases @start_container _ _ accept limit _ hspace hstart with
          ⟨rfl, hst'⟩ | hu | hu | ⟨t, rfl, hfeed⟩
        · obtain ⟨t, rest, htokens, ht⟩ := codeTokens_scalar text hst'
          rw [List.map_nil, List.nil_append, htokens] at h
          obtain ⟨x, hx⟩ := run_scalar ht h
          exact absurd hx (hv x)
        · exact ⟨[], u, text, rfl, by simp, Or.inl hu⟩
        · exact ⟨[], u, text, rfl, by simp, Or.inr hu⟩
        · rw [List.map_singleton, List.singleton_append, run_error (hfeed literal)] at h
          cases h

end Containers

end Hippo.JsonText
