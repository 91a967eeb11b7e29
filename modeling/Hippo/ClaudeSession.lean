import Hippo.SegmentUsage
import Hippo.Transcript

/-!
# The Claude transcript extractor

`cost-state`, `pr-link` and `ai-title` records feed session facts only and are skipped here, as
are the hook statistics.
-/
namespace Hippo.Claude
open RustText

/-- A Claude segment before its identity columns are attached. -/
structure Segment extends TranscriptSegment where
  gitBranch : Option String := none
  usage : SegmentUsage := {}

namespace Segment

def hasContent (seg : Segment) : Bool := seg.toTranscriptSegment.hasContent

/-- Changes the columns all extractors share. -/
def onTranscript (f : TranscriptSegment → TranscriptSegment) (seg : Segment) : Segment :=
  { seg with toTranscriptSegment := f seg.toTranscriptSegment }

def onUsage (f : SegmentUsage → SegmentUsage) (seg : Segment) : Segment :=
  { seg with usage := f seg.usage }

/-- `compute_segment_content_hash`. -/
def contentHash {H : Type} (env : Rendering H) (seg : Segment) : H :=
  env.segmentHash seg.toolCalls seg.userPrompts ("\n".intercalate seg.assistantTexts)

def toSession (sessionId sourceFile : String) (seg : Segment) : SessionSegment :=
  { seg.toTranscriptSegment.toSession sessionId sourceFile with gitBranch := seg.gitBranch }

@[simp] theorem onUsage_toTranscriptSegment (f : SegmentUsage → SegmentUsage) (seg : Segment) :
    (seg.onUsage f).toTranscriptSegment = seg.toTranscriptSegment := rfl

@[simp] theorem onTranscript_usage (f : TranscriptSegment → TranscriptSegment) (seg : Segment) :
    (seg.onTranscript f).usage = seg.usage := rfl

@[simp] theorem onTranscript_toTranscriptSegment (f : TranscriptSegment → TranscriptSegment)
    (seg : Segment) : (seg.onTranscript f).toTranscriptSegment = f seg.toTranscriptSegment := rfl

end Segment

/-- Text without surrounding blanks, unless it is empty or looks like tooling noise. -/
def typedText (text : String) : Option String :=
  let trimmed := trim text
  if trimmed.isEmpty ∨ trimmed.toList.head? = some '<' then none else some trimmed

/-- `extract_user_text`: the human-typed text of a user message. -/
def extractUserText (msg : JsonValue) : Option String :=
  match msg with
  | .string s => typedText s
  | _ =>
    match msg.get "content" with
    | none => none
    | some (.string s) => typedText s
    | some (.array blocks) =>
      let texts := blocks.filterMap fun block =>
        if block.getStr? "type" = some "text" then typedText (block.getStr "text") else none
      if texts.isEmpty then none else some ("\n".intercalate texts)
    | some _ => none

/-- `extract_tool_summary`. -/
def extractToolSummary (reader : TranscriptReader) (block : JsonValue) : Option ToolCall :=
  let name := block.getStr "name"
  if name.isEmpty then none
  else
    let inp := (block.get "input").getD (.object [])
    let summary :=
      if name = "Bash" then takeChars 200 (inp.getStr "command")
      else if name = "Read" ∨ name = "Write" ∨ name = "Edit" then inp.getStr "file_path"
      else if name = "Grep" then
        let pattern := inp.getStr "pattern"
        let path := inp.getStr "path"
        if path.isEmpty then pattern else pattern ++ " in " ++ path
      else if name = "Glob" then inp.getStr "pattern"
      else if name = "Agent" then
        let description := takeChars 100 (inp.getStr "description")
        match (inp.getStr? "subagent_type").filter fun t => !t.isEmpty with
        | some subagentType => subagentType ++ ": " ++ description
        | none => description
      else match (inp.asObject.getD []).head? with
        | some (k, .string s) => k ++ "=" ++ takeChars 80 s
        | some (k, other) => k ++ "=" ++ takeChars 80 (reader.render other)
        | none => ""
    some ⟨name, summary⟩

/-- The texts of `extract_assistant_content`: those over 20 bytes. -/
def assistantTexts (msg : JsonValue) : List String :=
  (((msg.get "content").bind JsonValue.asArray).getD []).filterMap fun block =>
    let text := trim (block.getStr "text")
    if block.getStr "type" = "text" ∧ 20 < text.utf8ByteSize then some (takeChars 300 text)
    else none

/-- The tool calls of `extract_assistant_content`. -/
def assistantTools (reader : TranscriptReader) (msg : JsonValue) : List ToolCall :=
  (((msg.get "content").bind JsonValue.asArray).getD []).filterMap fun block =>
    if block.getStr "type" = "tool_use" then extractToolSummary reader block else none

/-- `observe_assistant_meta`. -/
def observeAssistantMeta (entry msg : JsonValue) (usage : SegmentUsage) : SegmentUsage :=
  let usage := match msg.getStr? "model" with
    | some model => usage.observeModel model
    | none => usage
  let usage := match entry.getStr? "requestedModel" with
    | some model => usage.observeRequestedModel model
    | none => usage
  match entry.getStr? "effort" with
  | some effort => usage.observeEffort effort
  | none => usage

/-- `field` of `parse_assistant_usage`: a missing, negative or non-numeric count is `0`. -/
def usageField (raw : JsonValue) (key : String) : Int64 :=
  max (Int64.ofInt (((raw.get key).bind JsonValue.asI64).getD 0)) 0

/-- `parse_assistant_usage`: the message id and the token counts of one record. -/
def parseAssistantUsage (msg : JsonValue) : Option (Option String × UsageTotals) :=
  match (msg.get "usage").bind JsonValue.asObject with
  | none => none
  | some members =>
    let raw := JsonValue.object members
    some (msg.getStr? "id",
      { inputTokens := usageField raw "input_tokens"
        outputTokens := usageField raw "output_tokens"
        cacheReadTokens := usageField raw "cache_read_input_tokens"
        cacheCreationTokens := usageField raw "cache_creation_input_tokens" })

/-- The bytes of some texts. -/
def byteTotal (texts : List String) : ℕ := (texts.map String.utf8ByteSize).sum

/-- The state of the extraction loop. `usageOwner` maps a message id to the index of the segment
that owns its turn. -/
structure Scan where
  out : Segmenter Segment := {}
  usageOwner : Table String ℕ := Table.empty

/-- The timestamp of a line, `0` without one. -/
def entryMs (reader : TranscriptReader) (entry : JsonValue) : ℤ :=
  ((entry.getStr? "timestamp").bind reader.parseUtc).getD 0

/-- A segment that begins at a line. -/
def newSegment (cwd : String) (start : ℤ) (gitBranch : Option String) (index : ℕ) : Segment where
  segmentIndex := index
  cwd := cwd
  startTime := start
  endTime := start
  gitBranch := gitBranch

namespace Scan

/-- The first segment opens on any meaningful entry; without a timestamp it starts now. -/
def openFirst (now ts : ℤ) (entryType cwd : String) (gitBranch : Option String) (s : Scan) :
    Scan :=
  if s.out.current.isNone ∧ (entryType = "user" ∨ entryType = "assistant" ∨ entryType = "system")
  then
    let out := s.out.openNext (newSegment cwd (if 0 < ts then ts else now) gitBranch)
    { s with out := out }
  else s

/-- The task boundary on user messages: the open segment is finished if it has content. -/
def boundary (ts : ℤ) (entryType cwd : String) (gitBranch : Option String) (s : Scan) : Scan :=
  if entryType = "user" ∧ 0 < s.out.lastUserMs ∧ 0 < ts ∧
      (taskGapMs < ts - s.out.lastUserMs ∨ maxSegmentChars < s.out.currentChars) ∧
      s.out.current.any Segment.hasContent then
    let last := s.out.current
    let cwd := if cwd.isEmpty then (last.map fun seg => seg.cwd).getD "" else cwd
    let out := (s.out.close fun _ => true).openNext
      (newSegment cwd ts (gitBranch.or (last.bind Segment.gitBranch)))
    { s with out := out.setChars 0 }
  else s

/-- What every entry inside a segment updates. -/
def seen (ts : ℤ) (cwd : String) (s : Scan) : Scan :=
  let out := s.out.modify (Segment.onTranscript fun seg =>
    let seg := (seg.touch ts).countMessage
    if cwd.isEmpty then seg else { seg with cwd := cwd })
  { s with out := out }

/-- The content of a `user` entry. -/
def user (reader : TranscriptReader) (ts : ℤ) (entry : JsonValue) (s : Scan) : Scan :=
  let out := if 0 < ts then s.out.setUserMs ts else s.out
  let msg := (entry.get "message").getD ((entry.get "content").getD .null)
  match extractUserText msg with
  | none => { s with out := out }
  | some text =>
    let truncated := takeChars 500 text
    let out := (out.addChars truncated.utf8ByteSize).modify
      (Segment.onTranscript (TranscriptSegment.addPrompts [reader.redact truncated]))
    { s with out := out }

/-- A usage record goes to the segment where its message id first appeared. -/
def recordUsage (usage : Option (Option String × UsageTotals)) (s : Scan) : Scan :=
  match usage with
  | none => s
  | some (none, tokens) =>
    { s with out := s.out.modify (Segment.onUsage (SegmentUsage.recordMessage none tokens)) }
  | some (some id, tokens) =>
    let record := Segment.onUsage (SegmentUsage.recordMessage (some id) tokens)
    match s.usageOwner.get? id with
    | some i =>
      if i < s.out.segments.length then { s with out := s.out.modifyAt i record }
      else { s with out := s.out.modify record }
    | none =>
      { out := s.out.modify record
        usageOwner := s.usageOwner.insert id s.out.segments.length }

/-- The content of an `assistant` entry. -/
def assistant (reader : TranscriptReader) (entry : JsonValue) (s : Scan) : Scan :=
  let msg := (entry.get "message").getD .null
  let texts := assistantTexts msg
  let tools := assistantTools reader msg
  let redactedTexts := texts.map reader.redact
  let redactedTools := tools.map fun t => { t with summary := reader.redact t.summary }
  let out := (s.out.addChars (byteTotal texts + byteTotal (tools.map ToolCall.summary))).modify
    (Segment.onTranscript fun seg => (seg.addTexts redactedTexts).addCalls redactedTools)
  let out := out.modify (Segment.onUsage (observeAssistantMeta entry msg))
  recordUsage (parseAssistantUsage msg) { s with out := out }

/-- One line of the transcript. -/
def step (reader : TranscriptReader) (now : ℤ) (s : Scan) (entry : JsonValue) : Scan :=
  let entryType := entry.getStr "type"
  if entryType ∈ ["file-history-snapshot", "progress", "queue-operation", "last-prompt"] then s
  else if entryType ∈ ["cost-state", "pr-link", "ai-title"] then s
  else
    let ts := entryMs reader entry
    let cwd := entry.getStr "cwd"
    let gitBranch := entry.getStr? "gitBranch"
    let s := s.openFirst now ts entryType cwd gitBranch
    if s.out.current.isNone then s
    else
      let s := (s.boundary ts entryType cwd gitBranch).seen ts cwd
      if entryType = "user" then s.user reader ts entry
      else if entryType = "assistant" then s.assistant reader entry
      else s

end Scan

/-- The loop over the lines of a transcript. -/
def scanLines (reader : TranscriptReader) (now : ℤ) (lines : List String) : Scan :=
  (reader.entries lines).foldl (Scan.step reader now) {}

/-- The segments before the trailing collapse; a trailing one without content is dropped. -/
def rawSegments (reader : TranscriptReader) (now : ℤ) (lines : List String) : List Segment :=
  (scanLines reader now lines).out.finish Segment.hasContent

section Collapse

variable {H : Type} [DecidableEq H]

/-- Drops the head of a list while it equals its successor under `hash`. -/
def dropRepeats {σ : Type} (hash : σ → H) : List σ → List σ
  | b :: a :: rest => if hash a = hash b then dropRepeats hash (a :: rest) else b :: a :: rest
  | short => short

/-- `collapse_adjacent_identical_segments`, at the end of the list. -/
def collapseAdjacentIdenticalSegments {σ : Type} (hash : σ → H) (segments : List σ) : List σ :=
  (dropRepeats hash segments.reverse).reverse

theorem dropRepeats_suffix {σ : Type} (hash : σ → H) (segments : List σ) :
    dropRepeats hash segments <:+ segments := by
  fun_induction dropRepeats hash segments with
  | case1 b a rest heq ih => exact ih.trans (List.suffix_cons _ _)
  | case2 b a rest hne => exact List.suffix_rfl
  | case3 short hshort => exact List.suffix_rfl

/-- Only trailing segments are collapsed. -/
theorem collapse_isPrefix {σ : Type} (hash : σ → H) (segments : List σ) :
    collapseAdjacentIdenticalSegments hash segments <+: segments := by
  have hsuffix := dropRepeats_suffix hash segments.reverse
  rw [← List.reverse_prefix, List.reverse_reverse] at hsuffix
  exact hsuffix

theorem dropRepeats_ne_nil {σ : Type} (hash : σ → H) {segments : List σ} (h : segments ≠ []) :
    dropRepeats hash segments ≠ [] := by
  fun_induction dropRepeats hash segments with
  | case1 b a rest heq ih => exact ih (List.cons_ne_nil _ _)
  | case2 b a rest hne => exact h
  | case3 short hshort => exact h

/-- Some segment is always left. -/
theorem collapse_ne_nil {σ : Type} (hash : σ → H) {segments : List σ} (h : segments ≠ []) :
    collapseAdjacentIdenticalSegments hash segments ≠ [] := by
  have hreverse := dropRepeats_ne_nil hash (List.reverse_ne_nil_iff.mpr h)
  exact List.reverse_ne_nil_iff.mpr hreverse

theorem dropRepeats_map {σ τ : Type} (hash : τ → H) (view : σ → τ) (segments : List σ) :
    (dropRepeats (fun a => hash (view a)) segments).map view =
      dropRepeats hash (segments.map view) := by
  fun_induction dropRepeats (fun a => hash (view a)) segments with
  | case1 b a rest heq ih => simpa [dropRepeats, heq] using ih
  | case2 b a rest hne => simp [dropRepeats, hne]
  | case3 short hshort =>
    match short, hshort with
    | [], _ => rfl
    | [a], _ => rfl
    | b :: a :: rest, hshort => exact absurd rfl (hshort b a rest)

theorem collapse_map {σ τ : Type} (hash : τ → H) (view : σ → τ) (segments : List σ) :
    (collapseAdjacentIdenticalSegments (fun a => hash (view a)) segments).map view =
      collapseAdjacentIdenticalSegments hash (segments.map view) := by
  rw [collapseAdjacentIdenticalSegments, List.map_reverse, dropRepeats_map, List.map_reverse,
    collapseAdjacentIdenticalSegments]

theorem length_dropRepeats_le_iff {σ : Type} (hash : σ → H) (segments : List σ) {i : ℕ}
    (hi : i < segments.length) : (dropRepeats hash segments).length ≤ i + 1 ↔
      ∀ a ∈ segments.take (segments.length - i), ∀ b ∈ segments.take (segments.length - i),
        hash a = hash b := by
  have hsingle : ∀ b : σ, ∀ x ∈ [b], ∀ y ∈ [b], hash x = hash y := by
    intro b x hx y hy
    rw [List.mem_singleton.mp hx, List.mem_singleton.mp hy]
  fun_induction dropRepeats hash segments generalizing i with
  | case1 b a rest heq ih =>
    simp only [List.length_cons] at hi ih ⊢
    by_cases hlast : i = rest.length + 1
    · have hle : (dropRepeats hash (a :: rest)).length ≤ rest.length + 1 :=
        (dropRepeats_suffix hash (a :: rest)).length_le
      have hone : rest.length + 1 + 1 - i = 1 := by omega
      rw [hone]
      exact iff_of_true (by omega) (hsingle b)
    · have hcount : rest.length + 1 + 1 - i = rest.length + 1 - i + 1 := by omega
      have ha : a ∈ (a :: rest).take (rest.length + 1 - i) := by
        obtain ⟨n, hn⟩ : ∃ n, rest.length + 1 - i = n + 1 := ⟨rest.length - i, by omega⟩
        rw [hn, List.take_succ_cons]
        exact List.mem_cons_self
      have hi' : i < rest.length + 1 := by omega
      apply (ih hi').trans
      rw [hcount, List.take_succ_cons]
      constructor
      · intro h x hx y hy
        have hall : ∀ z ∈ b :: (a :: rest).take (rest.length + 1 - i), hash z = hash a :=
          List.forall_mem_cons.mpr ⟨heq.symm, fun z hz => h z hz a ha⟩
        rw [hall x hx, hall y hy]
      · intro h x hx y hy
        exact h x (List.mem_cons_of_mem _ hx) y (List.mem_cons_of_mem _ hy)
  | case2 b a rest hne =>
    simp only [List.length_cons] at hi ⊢
    by_cases hlast : i = rest.length + 1
    · have hone : rest.length + 1 + 1 - i = 1 := by omega
      rw [hone]
      exact iff_of_true (by omega) (hsingle b)
    · apply iff_of_false (by omega)
      intro h
      obtain ⟨n, hn⟩ : ∃ n, rest.length + 1 + 1 - i = n + 1 + 1 := ⟨rest.length - i, by omega⟩
      rw [hn, List.take_succ_cons, List.take_succ_cons] at h
      exact hne (h a (by simp) b (by simp))
  | case3 short hshort =>
    match short, hshort with
    | [], _ => simp at hi
    | [b], _ =>
      obtain rfl : i = 0 := by simpa using hi
      exact iff_of_true le_rfl (hsingle b)
    | b :: a :: rest, hshort => exact absurd rfl (hshort b a rest)

/-- The collapse reaches back to a segment exactly when all segments from it on have one hash. -/
theorem length_collapse_le_iff {σ : Type} (hash : σ → H) (segments : List σ) {i : ℕ}
    (hi : i < segments.length) :
    (collapseAdjacentIdenticalSegments hash segments).length ≤ i + 1 ↔
      ∀ a ∈ segments.drop i, ∀ b ∈ segments.drop i, hash a = hash b := by
  have hreverse := length_dropRepeats_le_iff hash segments.reverse (by simpa using hi)
  rw [List.length_reverse, List.take_reverse] at hreverse
  have hdrop : segments.length - (segments.length - i) = i := by omega
  rw [hdrop] at hreverse
  simpa [collapseAdjacentIdenticalSegments] using hreverse

/-- `extract_segments`. -/
def extractSegments (env : Rendering H) (reader : TranscriptReader) (now : ℤ)
    (lines : List String) : List Segment :=
  collapseAdjacentIdenticalSegments (Segment.contentHash env) (rawSegments reader now lines)

end Collapse

section Instance

/-- A line of a Claude transcript. -/
def claudeLine (entryType timestamp : String) (message : List (String × JsonValue)) : JsonValue :=
  .object [("message", .object message), ("timestamp", .string timestamp),
    ("type", .string entryType)]

/-- The calls, prompts and text of a segment as its content hash. -/
def plainContent : Rendering (List ToolCall × List String × String) where
  segmentHash := fun calls prompts text => (calls, prompts, text)
  opencodeHash := fun _ => ([], [], "")
  timeRange := fun _ _ => ""
  summaryText := fun _ _ => ""
  opencodeSummaryText := fun _ => ""

end Instance

end Hippo.Claude
