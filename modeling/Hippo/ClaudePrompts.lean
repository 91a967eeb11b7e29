import Hippo.ClaudeContent
import Hippo.PromptSegmentation

/-!
# The daemon's extractor through its prompts
-/
namespace Hippo

/-- The reader without redaction. -/
def TranscriptReader.unredacted (reader : TranscriptReader) : TranscriptReader :=
  { reader with redact := id }

/-- The JSON value of one line. -/
def TranscriptReader.lineEntry (reader : TranscriptReader) (line : String) : Option JsonValue :=
  if (RustText.trim line).isEmpty then none else reader.parseJson (RustText.trim line)

namespace Claude

/-- A line as the daemon reads it. -/
def lineKind (reader : TranscriptReader) (line : String) : LineKind :=
  match reader.lineEntry line with
  | none => .other
  | some entry =>
    if entry.getStr "type" = "user" then
      .user (entryMs reader entry)
        ((extractUserText ((entry.get "message").getD ((entry.get "content").getD .null))).map
          (RustText.takeChars 500))
    else if entry.getStr "type" = "assistant" then .assistant
    else .other

/-- One line of the transcript, for the contents. -/
def contentLine (reader : TranscriptReader) (c : Segmenter FinishedContent) (line : String) :
    Segmenter FinishedContent :=
  match reader.lineEntry line with
  | none => c
  | some entry => contentStep reader c entry

end Claude

section Daemon

open Claude

variable (reader : TranscriptReader) {c : Segmenter FinishedContent}

/-- The contents after some lines, with the prompts as they were typed. -/
def daemonContents (reader : TranscriptReader) (lines : List String) : Segmenter FinishedContent :=
  lines.foldl (contentLine reader.unredacted) {}

theorem daemonContents_eq (reader : TranscriptReader) (now : ℤ) (lines : List String) :
    daemonContents reader lines = (scanLines reader.unredacted now lines).content := by
  have hentries : reader.unredacted.entries lines =
      lines.filterMap reader.unredacted.lineEntry := rfl
  have hfold : ∀ c, lines.foldl (contentLine reader.unredacted) c =
      (lines.filterMap reader.unredacted.lineEntry).foldl (contentStep reader.unredacted) c := by
    induction lines with
    | nil => exact fun _ => rfl
    | cons line lines ih =>
      intro c
      rw [List.foldl_cons, ih rfl, List.filterMap_cons, contentLine]
      cases reader.unredacted.lineEntry line <;> rfl
  rw [content_scanLines, hentries, ← hfold]
  rfl

theorem open_openContent (entryType : String)
    (htype : entryType = "user" ∨ entryType = "assistant") :
    (openContent entryType c).current.isSome = true := by
  unfold openContent
  cases hcurrent : c.current with
  | none =>
    have hopens : entryType = "user" ∨ entryType = "assistant" ∨ entryType = "system" := by
      tauto
    simp [hopens, Segmenter.openNext, hcurrent]
  | some a => simp [hcurrent]

/-- Opening the first segment changes neither the prompts nor the sizes. -/
theorem same_openContent (entryType : String) :
    (openContent entryType c).promptView FinishedContent.userPrompts =
        c.promptView FinishedContent.userPrompts ∧
      (openContent entryType c).current.any FinishedContent.hasContent =
        c.current.any FinishedContent.hasContent ∧
      (openContent entryType c).currentChars = c.currentChars ∧
      (openContent entryType c).lastUserMs = c.lastUserMs := by
  unfold openContent
  split
  · exact ⟨Segmenter.promptView_openNext fun _ => rfl, Segmenter.any_openNext fun _ => rfl, rfl,
      rfl⟩
  · exact ⟨rfl, rfl, rfl, rfl⟩

/-- The task boundary of a user line. -/
theorem splitContent_user (hopen : c.current.isSome = true) (ts : ℤ) :
    (splitContent ts "user" c).promptView FinishedContent.userPrompts =
        (if c.splitsAt FinishedContent.hasContent ts then
          (c.promptView FinishedContent.userPrompts).close
        else c.promptView FinishedContent.userPrompts) ∧
      (splitContent ts "user" c).current.isSome = true ∧
      (splitContent ts "user" c).lastUserMs = c.lastUserMs ∧
      (c.Sized FinishedContent.hasContent →
        (splitContent ts "user" c).Sized FinishedContent.hasContent) := by
  obtain ⟨a, ha⟩ := Option.isSome_iff_exists.mp hopen
  unfold splitContent Segmenter.splitsAt
  simp only [true_and, decide_eq_true_eq]
  split
  · refine ⟨?_, rfl, rfl, fun _ h => absurd h (lt_irrefl 0)⟩
    exact Segmenter.promptView_replace ha (fun _ => rfl) fun h => nomatch h
  · exact ⟨rfl, hopen, rfl, id⟩

theorem any_moreContent {prompts texts : List String} {calls : List ToolCall}
    (h : c.current.any FinishedContent.hasContent = true) :
    (c.modify (moreContent prompts texts calls)).current.any FinishedContent.hasContent = true := by
  cases hcurrent : c.current with
  | none => simp [hcurrent] at h
  | some a =>
    have ha : a.hasContent = true := by simpa [hcurrent] using h
    simpa [Segmenter.modify, hcurrent] using hasContent_moreContent ha

/-- The prompt of a user line. -/
theorem userContent_user (hopen : c.current.isSome = true) (ts : ℤ) (entry : JsonValue) :
    (userContent reader.unredacted ts entry c).promptView FinishedContent.userPrompts =
        (c.promptView FinishedContent.userPrompts).add
          ((extractUserText ((entry.get "message").getD ((entry.get "content").getD .null))).map
            (RustText.takeChars 500)).toList ∧
      (userContent reader.unredacted ts entry c).lastUserMs =
        (if 0 < ts then ts else c.lastUserMs) ∧
      (c.Sized FinishedContent.hasContent →
        (userContent reader.unredacted ts entry c).Sized FinishedContent.hasContent) := by
  obtain ⟨a, ha⟩ := Option.isSome_iff_exists.mp hopen
  unfold userContent
  cases extractUserText ((entry.get "message").getD ((entry.get "content").getD .null)) with
  | none =>
    dsimp only
    split
    · exact ⟨(Prompts.add_nil _).symm, rfl, id⟩
    · exact ⟨(Prompts.add_nil _).symm, rfl, id⟩
  | some text =>
    dsimp only
    have hadd : ∀ d : Segmenter FinishedContent, d.current.isSome = true →
        (d.modify (moreContent [RustText.takeChars 500 text] [] [])).promptView
          FinishedContent.userPrompts =
            (d.promptView FinishedContent.userPrompts).add [RustText.takeChars 500 text] :=
      fun d hd => Segmenter.promptView_modify hd fun _ => rfl
    have hfilled : ∀ d : Segmenter FinishedContent, d.current.isSome = true →
        (d.modify (moreContent [RustText.takeChars 500 text] [] [])).Sized
          FinishedContent.hasContent := by
      intro d hd _
      obtain ⟨b, hb⟩ := Option.isSome_iff_exists.mp hd
      simp [Segmenter.modify, hb, FinishedContent.hasContent, moreContent]
    split
    · exact ⟨hadd _ hopen, rfl, fun _ => hfilled _ hopen⟩
    · exact ⟨hadd _ hopen, rfl, fun _ => hfilled _ hopen⟩

/-- An assistant line only adds to the size and the content. -/
theorem assistantContent_assistant (hopen : c.current.isSome = true) (entry : JsonValue) :
    (assistantContent reader entry c).promptView FinishedContent.userPrompts =
        c.promptView FinishedContent.userPrompts ∧
      (assistantContent reader entry c).lastUserMs = c.lastUserMs ∧
      (c.Sized FinishedContent.hasContent →
        (assistantContent reader entry c).Sized FinishedContent.hasContent) := by
  have hadd : ∀ (d : Segmenter FinishedContent) (texts : List String) (calls : List ToolCall),
      d.current.isSome = true →
        (d.modify (moreContent [] texts calls)).promptView FinishedContent.userPrompts =
          (d.promptView FinishedContent.userPrompts).add [] :=
    fun d texts calls hd => Segmenter.promptView_modify hd fun _ => rfl
  unfold assistantContent
  dsimp only
  refine ⟨?_, rfl, ?_⟩
  · exact (hadd _ _ _ hopen).trans (Prompts.add_nil _)
  · intro hsized hpos
    by_cases hbefore : 0 < c.currentChars
    · exact any_moreContent (c := c.addChars _) (hsized hbefore)
    · obtain ⟨a, ha⟩ := Option.isSome_iff_exists.mp hopen
      have hadded : 0 < byteTotal (assistantTexts ((entry.get "message").getD .null)) +
          byteTotal ((assistantTools reader ((entry.get "message").getD .null)).map
            ToolCall.summary) := by
        have hpos' : 0 < c.currentChars + (byteTotal
            (assistantTexts ((entry.get "message").getD .null)) + byteTotal
              ((assistantTools reader ((entry.get "message").getD .null)).map
                ToolCall.summary)) := hpos
        omega
      by_cases htexts : assistantTexts ((entry.get "message").getD .null) = []
      · have htools : assistantTools reader ((entry.get "message").getD .null) ≠ [] := by
          intro htools
          simp [htexts, htools, byteTotal] at hadded
        simp [Segmenter.modify, Segmenter.addChars, ha, FinishedContent.hasContent, moreContent,
          htools]
      · simp [Segmenter.modify, Segmenter.addChars, ha, FinishedContent.hasContent, moreContent,
          htexts]

theorem contentStep_user {entry : JsonValue} (htype : entry.getStr "type" = "user") :
    contentStep reader c entry = userContent reader (entryMs reader entry) entry
      (splitContent (entryMs reader entry) "user" (openContent "user" c)) := by
  have hopen := open_openContent (c := c) "user" (Or.inl rfl)
  unfold contentStep
  rw [htype]
  simp [← Option.not_isSome, hopen]

theorem contentStep_assistant {entry : JsonValue} (htype : entry.getStr "type" = "assistant") :
    contentStep reader c entry = assistantContent reader entry (openContent "assistant" c) := by
  have hopen := open_openContent (c := c) "assistant" (Or.inr rfl)
  unfold contentStep splitContent
  rw [htype]
  simp [← Option.not_isSome, hopen]

theorem contentStep_other {entry : JsonValue} (huser : entry.getStr "type" ≠ "user")
    (hassistant : entry.getStr "type" ≠ "assistant") :
    contentStep reader c entry = c ∨
      contentStep reader c entry = openContent (entry.getStr "type") c := by
  unfold contentStep splitContent
  dsimp only
  split
  · exact Or.inl rfl
  · right
    simp [huser]

/-- One line, as the daemon reads it. -/
theorem advances_contentLine (c : Segmenter FinishedContent)
    (line : String) :
    Advances FinishedContent.hasContent FinishedContent.userPrompts (lineKind reader line) c
      (contentLine reader.unredacted c line) := by
  have hentry : reader.unredacted.lineEntry line = reader.lineEntry line := rfl
  unfold contentLine lineKind
  rw [hentry]
  cases reader.lineEntry line with
  | none => exact Advances.still (fun _ _ h => nomatch h) rfl rfl id
  | some entry =>
    obtain ⟨hview, hany, hchars, hclock⟩ := same_openContent (c := c) (entry.getStr "type")
    have hsized : c.Sized FinishedContent.hasContent →
        (openContent (entry.getStr "type") c).Sized FinishedContent.hasContent := by
      intro h hpos
      rw [hchars] at hpos
      rw [hany]
      exact h hpos
    dsimp only
    by_cases huser : entry.getStr "type" = "user"
    · have hopen := open_openContent (c := c) _ (Or.inl huser)
      rw [if_pos huser, contentStep_user reader.unredacted huser]
      rw [huser] at hview hany hchars hclock hsized hopen
      obtain ⟨hsplit, hopen', hclock', hsized'⟩ :=
        splitContent_user hopen (entryMs reader.unredacted entry)
      obtain ⟨hadd, hset, hsized''⟩ := userContent_user reader hopen'
        (entryMs reader.unredacted entry) entry
      have hsame : (openContent "user" c).splitsAt FinishedContent.hasContent
          (entryMs reader.unredacted entry) =
            c.splitsAt FinishedContent.hasContent (entryMs reader.unredacted entry) := by
        unfold Segmenter.splitsAt
        rw [hany, hchars, hclock]
      constructor
      · rw [hadd, hsplit, hsame, hview]
        rfl
      · rw [hset, hclock', hclock]
        rfl
      · exact fun h => hsized'' (hsized' (hsized h))
    · rw [if_neg huser]
      by_cases hassistant : entry.getStr "type" = "assistant"
      · have hopen := open_openContent (c := c) _ (Or.inr hassistant)
        rw [if_pos hassistant, contentStep_assistant reader.unredacted hassistant]
        rw [hassistant] at hview hclock hsized hopen
        obtain ⟨hsame, hclock', hsized'⟩ :=
          assistantContent_assistant reader.unredacted hopen entry
        exact Advances.still (fun _ _ h => nomatch h) (hsame.trans hview) (hclock'.trans hclock)
          fun h => hsized' (hsized h)
      · rw [if_neg hassistant]
        rcases contentStep_other reader.unredacted (c := c) huser hassistant with h | h
        · rw [h]
          exact Advances.still (fun _ _ h => nomatch h) rfl rfl id
        · rw [h]
          exact Advances.still (fun _ _ h => nomatch h) hview hclock hsized

end Daemon

end Hippo
