import Hippo.ClaudeSession

/-!
# What the segments of a Claude transcript hold

The prompts, texts and tool calls of the segments evolve without the clock, the directories and
the usage: `contentStep` is what one line does to them.
-/
namespace Hippo.Claude
open RustText

/-- The content of a segment. -/
def Segment.content (seg : Segment) : FinishedContent := seg.finished.untimed

/-- The extraction loop up to times and metadata. -/
def Scan.content (s : Scan) : Segmenter FinishedContent := s.out.map Segment.content

def blankContent (index : ℕ) : FinishedContent where
  segmentIndex := index
  startTime := 0
  userPrompts := []
  assistantTexts := []
  toolCalls := []

/-- The content with more at its end. -/
def moreContent (prompts texts : List String) (calls : List ToolCall) (c : FinishedContent) :
    FinishedContent :=
  { c with
    userPrompts := c.userPrompts ++ prompts
    assistantTexts := c.assistantTexts ++ texts
    toolCalls := c.toolCalls ++ calls }

/-- The first segment opens on these entries. -/
def openContent (entryType : String) (c : Segmenter FinishedContent) :
    Segmenter FinishedContent :=
  if c.current.isNone ∧ (entryType = "user" ∨ entryType = "assistant" ∨ entryType = "system")
  then c.openNext blankContent
  else c

/-- The task boundary. -/
def splitContent (ts : ℤ) (entryType : String) (c : Segmenter FinishedContent) :
    Segmenter FinishedContent :=
  if entryType = "user" ∧ 0 < c.lastUserMs ∧ 0 < ts ∧
      (taskGapMs < ts - c.lastUserMs ∨ maxSegmentChars < c.currentChars) ∧
      c.current.any FinishedContent.hasContent then
    ((c.close fun _ => true).openNext blankContent).setChars 0
  else c

def userContent (reader : TranscriptReader) (ts : ℤ) (entry : JsonValue)
    (c : Segmenter FinishedContent) : Segmenter FinishedContent :=
  let c := if 0 < ts then c.setUserMs ts else c
  match extractUserText ((entry.get "message").getD ((entry.get "content").getD .null)) with
  | none => c
  | some text =>
    (c.addChars (takeChars 500 text).utf8ByteSize).modify
      (moreContent [reader.redact (takeChars 500 text)] [] [])

def assistantContent (reader : TranscriptReader) (entry : JsonValue)
    (c : Segmenter FinishedContent) : Segmenter FinishedContent :=
  let texts := assistantTexts ((entry.get "message").getD .null)
  let tools := assistantTools reader ((entry.get "message").getD .null)
  (c.addChars (byteTotal texts + byteTotal (tools.map ToolCall.summary))).modify
    (moreContent [] (texts.map reader.redact)
      (tools.map fun t => { t with summary := reader.redact t.summary }))

def contentStep (reader : TranscriptReader) (c : Segmenter FinishedContent) (entry : JsonValue) :
    Segmenter FinishedContent :=
  let entryType := entry.getStr "type"
  if entryType ∈ ["file-history-snapshot", "progress", "queue-operation", "last-prompt"] ∨
      entryType ∈ ["cost-state", "pr-link", "ai-title"] then c
  else
    let c := openContent entryType c
    if c.current.isNone then c
    else
      let c := splitContent (entryMs reader entry) entryType c
      if entryType = "user" then userContent reader (entryMs reader entry) entry c
      else if entryType = "assistant" then assistantContent reader entry c
      else c

section Refinement

variable {s : Scan} {reader : TranscriptReader}

theorem content_isNone (s : Scan) : s.content.current.isNone = s.out.current.isNone := by
  simp [Scan.content, Segmenter.map]

theorem content_any (s : Scan) :
    s.content.current.any FinishedContent.hasContent = s.out.current.any Segment.hasContent := by
  cases hcurrent : s.out.current with
  | none => simp [Scan.content, Segmenter.map, hcurrent]
  | some seg =>
    simp only [Scan.content, Segmenter.map, hcurrent, Option.map_some, Option.any_some]
    rfl

theorem content_openFirst (now ts : ℤ) (entryType cwd : String) (gitBranch : Option String) :
    (s.openFirst now ts entryType cwd gitBranch).content = openContent entryType s.content := by
  unfold Scan.openFirst openContent
  rw [content_isNone]
  split
  · exact Segmenter.map_openNext fun _ => rfl
  · rfl

theorem content_boundary (ts : ℤ) (entryType cwd : String) (gitBranch : Option String) :
    (s.boundary ts entryType cwd gitBranch).content = splitContent ts entryType s.content := by
  unfold Scan.boundary splitContent
  rw [content_any]
  show Segmenter.map Segment.content (Scan.out (if _ then _ else _)) = _
  split
  · rename_i hsplit
    have hsplit' : entryType = "user" ∧ 0 < s.content.lastUserMs ∧ 0 < ts ∧
        (taskGapMs < ts - s.content.lastUserMs ∨ maxSegmentChars < s.content.currentChars) ∧
        s.out.current.any Segment.hasContent := hsplit
    have hclose : (s.out.close fun _ => true).map Segment.content =
        s.content.close fun _ => true := Segmenter.map_close fun _ => rfl
    rw [if_pos hsplit', ← hclose]
    dsimp only
    rw [Segmenter.map_setChars]
    apply congrArg (Segmenter.setChars 0)
    apply Segmenter.map_openNext
    exact fun _ => rfl
  · rename_i hsplit
    have hsplit' : ¬ (entryType = "user" ∧ 0 < s.content.lastUserMs ∧ 0 < ts ∧
        (taskGapMs < ts - s.content.lastUserMs ∨ maxSegmentChars < s.content.currentChars) ∧
        s.out.current.any Segment.hasContent) := hsplit
    rw [if_neg hsplit']
    rfl

/-- Changes that do not reach the content. -/
theorem content_modify {f : Segment → Segment} (hf : ∀ seg, (f seg).content = seg.content)
    (out : Segmenter Segment) : (out.modify f).map Segment.content = out.map Segment.content := by
  cases hcurrent : out.current <;> simp [Segmenter.modify, Segmenter.map, hcurrent, hf]

theorem content_modifyAt {f : Segment → Segment} (hf : ∀ seg, (f seg).content = seg.content)
    (i : ℕ) (out : Segmenter Segment) :
    (out.modifyAt i f).map Segment.content = out.map Segment.content := by
  have hsegments : (out.segments.modify i f).map Segment.content =
      out.segments.map Segment.content := by
    ext1 j
    rw [List.getElem?_map, List.getElem?_map, List.getElem?_modify]
    cases out.segments[j]? with
    | none => rfl
    | some seg => by_cases hj : i = j <;> simp [hj, hf]
  simp [Segmenter.modifyAt, Segmenter.map, hsegments]

theorem content_seen (ts : ℤ) (cwd : String) : (s.seen ts cwd).content = s.content := by
  apply content_modify
  intro seg
  unfold Segment.content Segment.onTranscript FinishedContent.untimed TranscriptSegment.finished
    TranscriptSegment.touch TranscriptSegment.countMessage
  dsimp only
  split <;> split <;> rfl

theorem content_user (ts : ℤ) (entry : JsonValue) :
    (s.user reader ts entry).content = userContent reader ts entry s.content := by
  have htime : (if 0 < ts then s.out.setUserMs ts else s.out).map Segment.content =
      if 0 < ts then s.content.setUserMs ts else s.content := by
    split <;> rfl
  unfold Scan.user userContent
  dsimp only
  cases extractUserText ((entry.get "message").getD ((entry.get "content").getD .null)) with
  | none => exact htime
  | some text =>
    show Segmenter.map Segment.content (Segmenter.modify _ (Segmenter.addChars _ _)) = _
    dsimp only
    rw [← htime, ← Segmenter.map_addChars]
    apply Segmenter.map_modify
    intro seg
    simp [Segment.content, TranscriptSegment.finished, FinishedContent.untimed, moreContent,
      TranscriptSegment.addPrompts]

theorem content_recordUsage (usage : Option (Option String × UsageTotals)) :
    (s.recordUsage usage).content = s.content := by
  have hrecord : ∀ messageId tokens seg,
      (Segment.onUsage (SegmentUsage.recordMessage messageId tokens) seg).content = seg.content :=
    fun _ _ _ => rfl
  unfold Scan.recordUsage
  split
  · rfl
  · exact content_modify (hrecord _ _) _
  · dsimp only
    split
    · split
      · exact content_modifyAt (hrecord _ _) _ _
      · exact content_modify (hrecord _ _) _
    · exact content_modify (hrecord _ _) _

theorem content_assistant (entry : JsonValue) :
    (s.assistant reader entry).content = assistantContent reader entry s.content := by
  have hmeta : ∀ msg seg, (Segment.onUsage (observeAssistantMeta entry msg) seg).content =
      seg.content := fun _ _ => rfl
  unfold Scan.assistant
  dsimp only
  rw [content_recordUsage]
  apply (content_modify (hmeta _) _).trans
  apply Segmenter.map_modify
  intro seg
  simp [Segment.content, TranscriptSegment.finished, FinishedContent.untimed, moreContent,
    TranscriptSegment.addTexts, TranscriptSegment.addCalls]

theorem content_step (now : ℤ) (entry : JsonValue) :
    (s.step reader now entry).content = contentStep reader s.content entry := by
  unfold Scan.step contentStep
  dsimp only
  by_cases hnoise : entry.getStr "type" ∈
      ["file-history-snapshot", "progress", "queue-operation", "last-prompt"]
  · rw [if_pos hnoise, if_pos (Or.inl hnoise)]
  · by_cases hfact : entry.getStr "type" ∈ ["cost-state", "pr-link", "ai-title"]
    · rw [if_neg hnoise, if_pos hfact, if_pos (Or.inr hfact)]
    · rw [if_neg hnoise, if_neg hfact, if_neg (not_or.mpr ⟨hnoise, hfact⟩),
        ← content_openFirst now (entryMs reader entry) (entry.getStr "type") (entry.getStr "cwd")
          (entry.getStr? "gitBranch"), content_isNone]
      split
      · rfl
      · split
        · rw [content_user, content_seen, content_boundary]
        · split
          · rw [content_assistant, content_seen, content_boundary]
          · rw [content_seen, content_boundary]

/-- The content of the scanned lines, whatever the clock. -/
theorem content_scanLines (now : ℤ) (lines : List String) :
    (scanLines reader now lines).content =
      (reader.entries lines).foldl (contentStep reader) {} := by
  have hfold : ∀ (entries : List JsonValue) (s : Scan),
      (entries.foldl (Scan.step reader now) s).content =
        entries.foldl (contentStep reader) s.content := by
    intro entries
    induction entries with
    | nil => exact fun _ => rfl
    | cons entry entries ih =>
      intro s
      rw [List.foldl_cons, List.foldl_cons, ih, content_step]
  exact hfold _ _

end Refinement

section Steps

variable {reader : TranscriptReader} {c : Segmenter FinishedContent}

theorem finish_openContent (entryType : String) :
    (openContent entryType c).finish FinishedContent.hasContent =
      c.finish FinishedContent.hasContent := by
  unfold openContent
  split
  · rename_i hopen
    exact Segmenter.finish_openNext (Option.isNone_iff_eq_none.mp hopen.1) fun _ => rfl
  · rfl

theorem finish_splitContent (ts : ℤ) (entryType : String) :
    (splitContent ts entryType c).finish FinishedContent.hasContent =
      c.finish FinishedContent.hasContent := by
  unfold splitContent
  split
  · rename_i hsplit
    exact Segmenter.finish_close_openNext hsplit.2.2.2.2 fun _ => rfl
  · rfl

theorem hasContent_moreContent {prompts texts : List String} {calls : List ToolCall}
    {a : FinishedContent} (h : a.hasContent = true) :
    (moreContent prompts texts calls a).hasContent = true := by
  simp only [FinishedContent.hasContent, moreContent, Bool.or_eq_true, Bool.not_eq_true',
    List.isEmpty_eq_false_iff] at h ⊢
  rcases h with (h | h) | h
  · exact Or.inl (Or.inl (List.append_ne_nil_of_left_ne_nil h _))
  · exact Or.inl (Or.inr (List.append_ne_nil_of_left_ne_nil h _))
  · exact Or.inr (List.append_ne_nil_of_left_ne_nil h _)

/-- A line takes no segment away. -/
theorem length_finish_step (entry : JsonValue) :
    (c.finish FinishedContent.hasContent).length ≤
      ((contentStep reader c entry).finish FinishedContent.hasContent).length := by
  have hmore : ∀ (prompts texts : List String) (calls : List ToolCall)
      (d : Segmenter FinishedContent), (d.finish FinishedContent.hasContent).length ≤
        ((d.modify (moreContent prompts texts calls)).finish
          FinishedContent.hasContent).length :=
    fun _ _ _ d => d.length_finish_modify fun _ => hasContent_moreContent
  unfold contentStep
  dsimp only
  split
  · exact le_rfl
  · split
    · rw [finish_openContent]
    · rw [← finish_openContent (entry.getStr "type"),
        ← finish_splitContent (entryMs reader entry) (entry.getStr "type")]
      split
      · unfold userContent
        dsimp only
        split
        · split <;> exact le_rfl
        · refine le_trans (le_of_eq ?_) (hmore _ _ _ _)
          split <;> rfl
      · split
        · exact le_trans (le_of_eq rfl) (hmore _ _ _ _)
        · exact le_rfl

theorem Numbered.contentStep (h : c.Numbered FinishedContent.segmentIndex) (entry : JsonValue) :
    (contentStep reader c entry).Numbered FinishedContent.segmentIndex := by
  have hopen : (openContent (entry.getStr "type") c).Numbered FinishedContent.segmentIndex := by
    unfold openContent
    split
    · exact h.openNext fun _ => rfl
    · exact h
  have hsplit : (splitContent (entryMs reader entry) (entry.getStr "type")
      (openContent (entry.getStr "type") c)).Numbered FinishedContent.segmentIndex := by
    unfold splitContent
    split
    · exact ((hopen.close _).openNext fun _ => rfl).setChars 0
    · exact hopen
  unfold Claude.contentStep
  dsimp only
  split
  · exact h
  · split
    · exact hopen
    · split
      · have htime : ∀ ts : ℤ, Segmenter.Numbered FinishedContent.segmentIndex
            (if 0 < ts then (splitContent (entryMs reader entry) (entry.getStr "type")
              (openContent (entry.getStr "type") c)).setUserMs ts
            else splitContent (entryMs reader entry) (entry.getStr "type")
              (openContent (entry.getStr "type") c)) := by
          intro ts
          split
          · exact hsplit.setUserMs ts
          · exact hsplit
        unfold userContent
        dsimp only
        split
        · exact htime _
        · exact ((htime _).addChars _).modify fun _ => rfl
      · split
        · exact (hsplit.addChars _).modify fun _ => rfl
        · exact hsplit

end Steps

/-- The contents of the segments before the trailing collapse. -/
def rawContents (reader : TranscriptReader) (lines : List String) : List FinishedContent :=
  ((reader.entries lines).foldl (contentStep reader) {}).finish FinishedContent.hasContent

section Contents

variable (reader : TranscriptReader)

theorem map_content_rawSegments (now : ℤ) (lines : List String) :
    (rawSegments reader now lines).map Segment.content = rawContents reader lines := by
  have hkeep : ∀ seg : Segment, seg.content.hasContent = seg.hasContent := fun _ => rfl
  rw [rawSegments, rawContents, Segmenter.finish_map hkeep]
  exact congrArg (Segmenter.finish _) (content_scanLines now lines)

theorem rawContents_positions (lines : List String) :
    (rawContents reader lines).map FinishedContent.segmentIndex =
      (List.range (rawContents reader lines).length).map Int.ofNat := by
  apply Segmenter.Numbered.finish
  exact Segmenter.numbered_foldl id (fun c entry h => Numbered.contentStep h entry)
    (reader.entries lines) {} Segmenter.numbered_empty

/-- A transcript that grows keeps the number of its segments or gets more. -/
theorem length_rawContents_append (lines more : List String) :
    (rawContents reader lines).length ≤ (rawContents reader (lines ++ more)).length := by
  rw [rawContents, rawContents, reader.entries_append, List.foldl_append]
  generalize (reader.entries lines).foldl (contentStep reader) {} = c
  induction reader.entries more generalizing c with
  | nil => exact le_rfl
  | cons entry entries ih => exact (length_finish_step entry).trans (ih _)

end Contents

end Hippo.Claude
