import Hippo.BrainClaudeSession
import Hippo.PromptSegmentation

/-!
# The brain's extractor through its prompts
-/
namespace Hippo

namespace BrainClaude

/-- A line as the brain reads it; `none` when it raises. -/
def lineKind (py : PythonLibrary) (line : String) : Option LineKind :=
  match py.loads line with
  | .decodeError => some .other
  | .raised => none
  | .value v => (dict v).bind fun entry =>
    if (JsonValue.object entry).getStr "type" = "user" then
      (userAdds entry).map fun added =>
        .user (parseTimestamp py (getD entry "timestamp" (.string ""))) added.1
    else if (JsonValue.object entry).getStr "type" = "assistant" then
      (assistantAdds py entry).map fun _ => .assistant
    else some .other

end BrainClaude

section Brain

open BrainClaude

variable (py : PythonLibrary) {s : Scan}

theorem open_openFirst (now ts : ℤ) {entryType : String}
    (htype : entryType = "user" ∨ entryType = "assistant") (cwd gitBranch : JsonValue) :
    (openFirst now ts entryType cwd gitBranch s).current.isSome = true := by
  unfold openFirst
  cases hcurrent : s.current with
  | none =>
    have hopens : entryType = "user" ∨ entryType = "assistant" ∨ entryType = "system" := by
      tauto
    simp [hopens, Segmenter.openNext, hcurrent]
  | some a => simp [hcurrent]

theorem same_openFirst (now ts : ℤ) (entryType : String) (cwd gitBranch : JsonValue) :
    (openFirst now ts entryType cwd gitBranch s).promptView Segment.userPrompts =
        s.promptView Segment.userPrompts ∧
      (openFirst now ts entryType cwd gitBranch s).current.any Segment.hasContent =
        s.current.any Segment.hasContent ∧
      (openFirst now ts entryType cwd gitBranch s).currentChars = s.currentChars ∧
      (openFirst now ts entryType cwd gitBranch s).lastUserMs = s.lastUserMs := by
  unfold openFirst
  split
  · exact ⟨Segmenter.promptView_openNext fun _ => rfl, Segmenter.any_openNext fun _ => rfl, rfl,
      rfl⟩
  · exact ⟨rfl, rfl, rfl, rfl⟩

theorem same_seen (ts : ℤ) (cwd : JsonValue) :
    (seen ts cwd s).promptView Segment.userPrompts = s.promptView Segment.userPrompts ∧
      (seen ts cwd s).current.any Segment.hasContent = s.current.any Segment.hasContent := by
  cases hcurrent : s.current with
  | none => simp [seen, Segmenter.modify, Segmenter.promptView, hcurrent]
  | some a =>
    simp [seen, Segmenter.modify, Segmenter.promptView, hcurrent, Segment.hasContent]

theorem userPrompts_of_blankSegment {a : Segment} (h : a.hasContent = false) :
    a.userPrompts = [] := by
  simp only [Segment.hasContent, Bool.or_eq_false_iff, Bool.not_eq_false', List.isEmpty_iff] at h
  exact h.1.1

/-- The task boundary of a user line: without content the prompts stay as they are. -/
theorem boundary_user (hopen : s.current.isSome = true) (ts : ℤ) (cwd gitBranch : JsonValue) :
    (boundary ts "user" cwd gitBranch s).promptView Segment.userPrompts =
        (if s.splitsAt Segment.hasContent ts then (s.promptView Segment.userPrompts).close
        else s.promptView Segment.userPrompts) ∧
      (boundary ts "user" cwd gitBranch s).current.isSome = true ∧
      (boundary ts "user" cwd gitBranch s).lastUserMs = s.lastUserMs ∧
      (s.Sized Segment.hasContent →
        (boundary ts "user" cwd gitBranch s).Sized Segment.hasContent) := by
  obtain ⟨a, ha⟩ := Option.isSome_iff_exists.mp hopen
  unfold boundary
  simp only [true_and]
  split
  · rename_i hpause
    have hsplit : s.splitsAt Segment.hasContent ts = a.hasContent := by
      simp [Segmenter.splitsAt, hpause, ha]
    refine ⟨?_, rfl, rfl, fun _ h => absurd h (lt_irrefl 0)⟩
    rw [hsplit]
    exact Segmenter.promptView_replace ha (fun _ => rfl) userPrompts_of_blankSegment
  · rename_i hpause
    have hsplit : s.splitsAt Segment.hasContent ts = false := by
      apply decide_eq_false
      exact fun h => hpause ⟨h.1, h.2.1, h.2.2.1⟩
    rw [hsplit]
    exact ⟨rfl, hopen, rfl, id⟩

/-- The prompt of a user line. -/
theorem user_adds (hopen : s.current.isSome = true) (ts : ℤ) {entry : List (String × JsonValue)}
    {prompt : Option String} {tokens : ℚ} (hadds : userAdds entry = some (prompt, tokens)) :
    ∃ s', user ts entry s = some s' ∧
      s'.promptView Segment.userPrompts =
        (s.promptView Segment.userPrompts).add prompt.toList ∧
      s'.lastUserMs = (if 0 < ts then ts else s.lastUserMs) ∧
      (s.Sized Segment.hasContent → s'.Sized Segment.hasContent) := by
  obtain ⟨b, hb⟩ := Option.isSome_iff_exists.mp hopen
  refine ⟨_, by rw [user, hadds]; rfl, ?_, ?_, ?_⟩
  · dsimp only
    split
    · exact Segmenter.promptView_modify hopen fun _ => rfl
    · exact Segmenter.promptView_modify hopen fun _ => rfl
  · dsimp only
    split <;> rfl
  · intro hsized hpos
    have hcurrent : (if 0 < ts then s.setUserMs ts else s).current = some b := by
      split <;> exact hb
    have hchars : (if 0 < ts then s.setUserMs ts else s).currentChars = s.currentChars := by
      split <;> rfl
    cases prompt with
    | none =>
      have hbefore : 0 < s.currentChars := by
        simpa [Segmenter.modify, Segmenter.addChars, hchars, charTotal] using hpos
      have hcontent : b.hasContent = true := by simpa [hb] using hsized hbefore
      simpa [Segmenter.modify, Segmenter.addChars, hcurrent, Segment.hasContent] using hcontent
    | some text =>
      simp [Segmenter.modify, Segmenter.addChars, hcurrent, Segment.hasContent]

theorem summaryTotal_nil {tools : List Tool} {n : ℕ} (h : summaryTotal tools = some n)
    (hn : 0 < n) : tools ≠ [] := by
  rintro rfl
  obtain rfl : 0 = n := Option.some.inj h
  exact lt_irrefl 0 hn

/-- An answer has a size only with a text or a tool call. -/
theorem assistantAdds_sized {py : PythonLibrary} {entry : List (String × JsonValue)}
    {added : Answer} (h : assistantAdds py entry = some added) (hpos : 0 < added.chars) :
    added.texts ≠ [] ∨ added.tools ≠ [] := by
  unfold assistantAdds at h
  dsimp only at h
  split at h
  · simp only [Option.bind_eq_bind, Option.bind_eq_some_iff] at h
    obtain ⟨⟨texts, tools⟩, hblocks, summaries, hsummaries, tokens, htokens, hadded⟩ := h
    obtain rfl := Option.some.inj hadded
    by_cases htexts : texts = []
    · subst htexts
      have hsize : 0 < charTotal [] + summaries := hpos
      exact Or.inr (summaryTotal_nil hsummaries (by simpa [charTotal] using hsize))
    · exact Or.inl htexts
  · obtain rfl := Option.some.inj h
    exact absurd hpos (lt_irrefl 0)

/-- An assistant line only adds to the size and the content. -/
theorem assistant_adds {py : PythonLibrary} (hopen : s.current.isSome = true)
    {entry : List (String × JsonValue)} {added : Answer} (hadds : assistantAdds py entry = some added) :
    ∃ s', assistant py entry s = some s' ∧
      s'.promptView Segment.userPrompts = s.promptView Segment.userPrompts ∧
      s'.lastUserMs = s.lastUserMs ∧
      (s.Sized Segment.hasContent → s'.Sized Segment.hasContent) := by
  obtain ⟨b, hb⟩ := Option.isSome_iff_exists.mp hopen
  refine ⟨_, by rw [assistant, hadds]; rfl, ?_, ?_, ?_⟩
  · simp [Segmenter.promptView, Segmenter.modify, Segmenter.addChars, hb]
  · rfl
  · intro hsized hpos
    by_cases hbefore : 0 < s.currentChars
    · have hcontent : b.hasContent = true := by simpa [hb] using hsized hbefore
      simp only [Segment.hasContent, Bool.or_eq_true, Bool.not_eq_true',
        List.isEmpty_eq_false_iff] at hcontent
      simp only [Segmenter.modify, Segmenter.addChars, hb, Option.map_some, Option.any_some,
        Segment.hasContent, Bool.or_eq_true, Bool.not_eq_true', List.isEmpty_eq_false_iff]
      rcases hcontent with (h | h) | h
      · exact Or.inl (Or.inl h)
      · exact Or.inl (Or.inr (List.append_ne_nil_of_left_ne_nil h _))
      · exact Or.inr (List.append_ne_nil_of_left_ne_nil h _)
    · have hsize : 0 < s.currentChars + added.chars := hpos
      have hadded := assistantAdds_sized hadds (by omega)
      simp only [Segmenter.modify, Segmenter.addChars, hb, Option.map_some, Option.any_some,
        Segment.hasContent, Bool.or_eq_true, Bool.not_eq_true', List.isEmpty_eq_false_iff]
      rcases hadded with h | h
      · exact Or.inr (List.append_ne_nil_of_right_ne_nil _ h)
      · exact Or.inl (Or.inr (List.append_ne_nil_of_right_ne_nil _ h))

theorem entryStep_user (now : ℤ) {entry : List (String × JsonValue)}
    (htype : (JsonValue.object entry).getStr "type" = "user") :
    ∃ cwd gitBranch, entryStep py now entry s =
      user (parseTimestamp py (getD entry "timestamp" (.string ""))) entry
        (seen (parseTimestamp py (getD entry "timestamp" (.string ""))) cwd
          (boundary (parseTimestamp py (getD entry "timestamp" (.string ""))) "user" cwd gitBranch
            (openFirst now (parseTimestamp py (getD entry "timestamp" (.string ""))) "user" cwd
              gitBranch s))) := by
  refine ⟨getD entry "cwd" (.string ""), getD entry "gitBranch" .null, ?_⟩
  have hopen := open_openFirst (s := s) now
    (parseTimestamp py (getD entry "timestamp" (.string ""))) (Or.inl rfl)
    (getD entry "cwd" (.string "")) (getD entry "gitBranch" .null)
  unfold entryStep
  rw [htype]
  simp [← Option.not_isSome, hopen]

theorem entryStep_assistant (now : ℤ) {entry : List (String × JsonValue)}
    (htype : (JsonValue.object entry).getStr "type" = "assistant") :
    ∃ ts cwd gitBranch, entryStep py now entry s =
      assistant py entry (seen ts cwd (openFirst now ts "assistant" cwd gitBranch s)) := by
  refine ⟨parseTimestamp py (getD entry "timestamp" (.string "")), getD entry "cwd" (.string ""),
    getD entry "gitBranch" .null, ?_⟩
  have hopen := open_openFirst (s := s) now
    (parseTimestamp py (getD entry "timestamp" (.string ""))) (Or.inr rfl)
    (getD entry "cwd" (.string "")) (getD entry "gitBranch" .null)
  unfold entryStep boundary
  rw [htype]
  simp [← Option.not_isSome, hopen]

theorem entryStep_other (now : ℤ) {entry : List (String × JsonValue)}
    (huser : (JsonValue.object entry).getStr "type" ≠ "user")
    (hassistant : (JsonValue.object entry).getStr "type" ≠ "assistant") :
    ∃ ts entryType cwd gitBranch, entryStep py now entry s = some s ∨
      entryStep py now entry s = some (openFirst now ts entryType cwd gitBranch s) ∨
      entryStep py now entry s =
        some (seen ts cwd (openFirst now ts entryType cwd gitBranch s)) := by
  refine ⟨parseTimestamp py (getD entry "timestamp" (.string "")),
    (JsonValue.object entry).getStr "type", getD entry "cwd" (.string ""),
    getD entry "gitBranch" .null, ?_⟩
  unfold entryStep boundary
  dsimp only
  split
  · exact Or.inl rfl
  · right
    split
    · exact Or.inl rfl
    · simp [huser]

/-- One line, as the brain reads it. -/
theorem advances_step (now : ℤ) {line : String} {kind : LineKind}
    (hkind : BrainClaude.lineKind py line = some kind) :
    ∃ s', step py now s line = some s' ∧
      Advances Segment.hasContent Segment.userPrompts kind s s' := by
  unfold BrainClaude.lineKind at hkind
  unfold step
  cases hloads : py.loads line with
  | decodeError =>
    rw [hloads] at hkind
    obtain rfl := Option.some.inj hkind
    exact ⟨s, rfl, Advances.still (by simp) rfl rfl id⟩
  | raised =>
    rw [hloads] at hkind
    cases hkind
  | value v =>
    rw [hloads] at hkind
    obtain ⟨entry, hentry, hkind⟩ := Option.bind_eq_some_iff.mp hkind
    dsimp only
    rw [hentry, Option.bind_some]
    have hsized : ∀ now ts entryType cwd gitBranch, s.Sized Segment.hasContent →
        (openFirst now ts entryType cwd gitBranch s).Sized Segment.hasContent := by
      intro now ts entryType cwd gitBranch h hpos
      obtain ⟨-, hany, hchars, -⟩ := same_openFirst (s := s) now ts entryType cwd gitBranch
      rw [hchars] at hpos
      rw [hany]
      exact h hpos
    have hseen : ∀ (d : Scan) ts cwd, d.Sized Segment.hasContent →
        (seen ts cwd d).Sized Segment.hasContent := by
      intro d ts cwd h hpos
      rw [(same_seen ts cwd).2]
      exact h hpos
    by_cases huser : (JsonValue.object entry).getStr "type" = "user"
    · rw [if_pos huser] at hkind
      obtain ⟨⟨prompt, tokens⟩, hadds, rfl⟩ := Option.map_eq_some_iff.mp hkind
      obtain ⟨cwd, gitBranch, hstep⟩ := entryStep_user py (s := s) now huser
      generalize parseTimestamp py (getD entry "timestamp" (.string "")) = ts at hstep ⊢
      obtain ⟨hview, hany, hchars, hclock⟩ :=
        same_openFirst (s := s) now ts "user" cwd gitBranch
      obtain ⟨hsplit, hopen', hclock', hsized'⟩ :=
        boundary_user (open_openFirst (s := s) now ts (Or.inl rfl) cwd gitBranch) ts cwd gitBranch
      have hsame : (openFirst now ts "user" cwd gitBranch s).splitsAt Segment.hasContent ts =
          s.splitsAt Segment.hasContent ts := by
        unfold Segmenter.splitsAt
        rw [hany, hchars, hclock]
      have hopen'' : (seen ts cwd (boundary ts "user" cwd gitBranch
          (openFirst now ts "user" cwd gitBranch s))).current.isSome = true := by
        simpa [seen, Segmenter.modify] using hopen'
      obtain ⟨s', hs', hadd, hset, hsized''⟩ := user_adds hopen'' ts hadds
      refine ⟨s', by rw [hstep, hs'], ?_, ?_, ?_⟩
      · rw [hadd, (same_seen ts cwd).1, hsplit, hsame, hview]
        rfl
      · rw [hset]
        show (if 0 < ts then ts else (boundary ts "user" cwd gitBranch
          (openFirst now ts "user" cwd gitBranch s)).lastUserMs) = _
        rw [hclock', hclock]
        rfl
      · exact fun h => hsized'' (hseen _ _ _ (hsized' (hsized _ _ _ _ _ h)))
    · rw [if_neg huser] at hkind
      by_cases hassistant : (JsonValue.object entry).getStr "type" = "assistant"
      · rw [if_pos hassistant] at hkind
        obtain ⟨added, hadds, rfl⟩ := Option.map_eq_some_iff.mp hkind
        obtain ⟨ts, cwd, gitBranch, hstep⟩ := entryStep_assistant py (s := s) now hassistant
        have hopen := open_openFirst (s := s) now ts (Or.inr rfl) cwd gitBranch
        obtain ⟨hview, -, -, hclock⟩ := same_openFirst (s := s) now ts "assistant" cwd gitBranch
        have hopen' : (seen ts cwd (openFirst now ts "assistant" cwd gitBranch s)).current.isSome =
            true := by
          simpa [seen, Segmenter.modify] using hopen
        obtain ⟨s', hs', hsame, hclock', hsized'⟩ := assistant_adds hopen' hadds
        refine ⟨s', by rw [hstep, hs'], Advances.still (by simp) ?_ ?_ ?_⟩
        · rw [hsame, (same_seen ts cwd).1, hview]
        · exact hclock'.trans hclock
        · exact fun h => hsized' (hseen _ _ _ (hsized _ _ _ _ _ h))
      · rw [if_neg hassistant] at hkind
        obtain rfl := Option.some.inj hkind
        obtain ⟨ts, entryType, cwd, gitBranch, h | h | h⟩ :=
          entryStep_other py (s := s) now huser hassistant
        · exact ⟨s, h, Advances.still (by simp) rfl rfl id⟩
        · obtain ⟨hview, -, -, hclock⟩ := same_openFirst (s := s) now ts entryType cwd gitBranch
          exact ⟨_, h, Advances.still (by simp) hview hclock (hsized _ _ _ _ _)⟩
        · obtain ⟨hview, -, -, hclock⟩ := same_openFirst (s := s) now ts entryType cwd gitBranch
          exact ⟨_, h, Advances.still (by simp) ((same_seen _ _).1.trans hview)
            hclock fun hs => hseen _ _ _ (hsized _ _ _ _ _ hs)⟩

/-- A line the brain cannot read ends the extraction. -/
theorem step_eq_none (now : ℤ) {line : String} (hkind : BrainClaude.lineKind py line = none) :
    step py now s line = none := by
  unfold BrainClaude.lineKind at hkind
  unfold step
  cases hloads : py.loads line with
  | decodeError =>
    rw [hloads] at hkind
    cases hkind
  | raised => rfl
  | value v =>
    rw [hloads] at hkind
    dsimp only at hkind ⊢
    cases hentry : dict v with
    | none => rfl
    | some entry =>
      rw [hentry, Option.bind_some] at hkind
      rw [Option.bind_some]
      by_cases huser : (JsonValue.object entry).getStr "type" = "user"
      · rw [if_pos huser, Option.map_eq_none_iff] at hkind
        obtain ⟨cwd, gitBranch, h⟩ := entryStep_user py (s := s) now huser
        rw [h, user, hkind, Option.map_none]
      · rw [if_neg huser] at hkind
        by_cases hassistant : (JsonValue.object entry).getStr "type" = "assistant"
        · rw [if_pos hassistant, Option.map_eq_none_iff] at hkind
          obtain ⟨ts, cwd, gitBranch, h⟩ := entryStep_assistant py (s := s) now hassistant
          rw [h, assistant, hkind, Option.map_none]
        · rw [if_neg hassistant] at hkind
          cases hkind

end Brain

end Hippo
