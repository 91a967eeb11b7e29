import Hippo.Transcript

/-!
# The Codex rollout extractor
-/
namespace Hippo.Codex
open RustText

/-- The path of a rollout, as the extractor reads it: `fallbackId` is the identity it takes from
the file name. -/
structure RolloutPath where
  path : String
  parent : String
  fallbackId : String

/-- `rollout_identity`: the first id of a `session_meta` record is the file's own thread. -/
def rolloutIdentity (file : RolloutPath) (entries : List JsonValue) : String :=
  let ids := entries.filterMap fun obj =>
    if obj.getStr? "type" = some "session_meta" then
      (((obj.get "payload").bind fun p => p.getStr? "id")).filter fun id => !id.isEmpty
    else none
  ids.head?.getD file.fallbackId

/-- The keys `tool_summary` prefers, in order. -/
def summaryKeys : List String := ["cmd", "command", "filePath", "path", "uri", "query", "pattern"]

/-- `tool_summary` parses the argument text itself. -/
def toolSummary (reader : TranscriptReader) (arguments : String) : String :=
  TranscriptReader.toolSummary summaryKeys ((reader.parseJson arguments).getD .null) arguments

/-- Where the text after the status lines that name a marker begins. -/
def statusCut (message : List Char) : Option ℕ :=
  ["code selected", "file currently open", "inside this file:"].foldl (fun cut marker =>
    match rfind? marker.toList message with
    | none => cut
    | some i =>
      let after := i + marker.length
      let lineEnd := match find? ['\n'] (message.drop after) with
        | some n => after + n + 1
        | none => message.length
      if cut.getD 0 < lineEnd then some lineEnd else cut) none

/-- `extract_user_text`: the request without the project context before it. -/
def extractUserText (message : String) : String :=
  let chars := message.toList
  let text := match statusCut chars with
    | some cut => chars.drop cut
    | none => match rfind? ['\n', '\n'] chars with
      | some i => chars.drop (i + 2)
      | none => chars
  String.ofList ((trimList text).take 500)

/-- `content_text`: the text of the `input_text` and `output_text` blocks. -/
def contentText (content : JsonValue) : String :=
  "\n".intercalate ((content.asArray.getD []).filterMap fun b =>
    if b.getStr? "type" = some "input_text" ∨ b.getStr? "type" = some "output_text" then
      b.getStr? "text"
    else none)

/-- The state of the extraction loop. -/
structure Scan where
  out : Segmenter TranscriptSegment := {}
  sessionCwd : String := ""

namespace Scan

/-- A `session_meta` record. -/
def sessionMeta (payload : JsonValue) (s : Scan) : Scan :=
  { s with sessionCwd := (payload.getStr? "cwd").getD s.sessionCwd }

/-- A `turn_context` record moves the open segment to its directory. -/
def turnContext (payload : JsonValue) (s : Scan) : Scan :=
  match (payload.getStr? "cwd").filter fun cwd => !cwd.isEmpty with
  | some cwd => { out := s.out.modify fun seg => { seg with cwd := cwd }, sessionCwd := cwd }
  | none => s

/-- Segment boundary: 5-minute gap or char cap. -/
def boundary (ts : ℤ) (out : Segmenter TranscriptSegment) : Segmenter TranscriptSegment :=
  if 0 < out.lastUserMs ∧ 0 < ts ∧
      (taskGapMs < ts - out.lastUserMs ∨ maxSegmentChars < out.currentChars) then
    (out.close TranscriptSegment.hasContent).setChars 0
  else out

/-- A user prompt that is not empty before its context is stripped. -/
def prompt (reader : TranscriptReader) (file : RolloutPath) (ts : ℤ) (message : String)
    (s : Scan) : Scan :=
  let userText := extractUserText message
  let cwd := if s.sessionCwd.isEmpty then file.parent else s.sessionCwd
  let out := (boundary ts s.out).openNext fun n =>
    { segmentIndex := n, cwd := cwd, startTime := ts, endTime := ts }
  let out := if 0 < ts then out.setUserMs ts else out
  let out := out.modify fun seg => (seg.touch ts).countMessage
  if userText.isEmpty then { s with out := out }
  else
    let redacted := reader.redact userText
    let out := (out.addChars redacted.length).modify (TranscriptSegment.addPrompts [redacted])
    { s with out := out }

/-- What a tool call record adds: its name and redacted summary. -/
def functionCall (reader : TranscriptReader) (payload : JsonValue) : Option ToolCall :=
  let name := (((payload.get "name").or (payload.get "tool_name")).bind JsonValue.asStr).getD ""
  if name.isEmpty then none
  else
    let args := match (payload.get "arguments").or (payload.get "input") with
      | some (.string s) => s
      | some other => reader.render other
      | none => ""
    some ⟨name, reader.redact (toolSummary reader args)⟩

/-- Any other record only matters inside an open segment. -/
def activity (reader : TranscriptReader) (ts : ℤ) (entryType payloadType role : String)
    (payload : JsonValue) (s : Scan) : Scan :=
  if s.out.current.isNone then s
  else
    let out := s.out.modify fun seg => (seg.touch ts).countMessage
    if entryType = "response_item" ∧
        (payloadType = "function_call" ∨ payloadType = "custom_tool_call") then
      match functionCall reader payload with
      | none => { s with out := out }
      | some call =>
        let out := (out.addChars call.summary.length).modify (TranscriptSegment.addCalls [call])
        { s with out := out }
    else if entryType = "response_item" ∧ role = "assistant" then
      let text := contentText ((payload.get "content").getD .null)
      if text.isEmpty then { s with out := out }
      else
        let redacted := reader.redact (takeChars 300 text)
        let out := (out.addChars redacted.length).modify (TranscriptSegment.addTexts [redacted])
        { s with out := out }
    else { s with out := out }

/-- One record of the rollout. -/
def step (reader : TranscriptReader) (file : RolloutPath) (s : Scan) (obj : JsonValue) : Scan :=
  let entryType := obj.getStr "type"
  let ts := reader.parseTs (obj.getStr "timestamp")
  match (obj.get "payload").bind JsonValue.asObject with
  | none => s
  | some members =>
    let payload := JsonValue.object members
    if entryType = "session_meta" then s.sessionMeta payload
    else if entryType = "turn_context" then s.turnContext payload
    else
      let payloadType := payload.getStr "type"
      let role := payload.getStr "role"
      if role = "developer" then s
      else if entryType = "event_msg" ∧ payloadType = "user_message" then
        let message := payload.getStr "message"
        if message.isEmpty then s else s.prompt reader file ts message
      else if entryType = "response_item" ∧ payloadType = "message" ∧ role = "user" then
        let message := contentText ((payload.get "content").getD .null)
        if message.isEmpty then s else s.prompt reader file ts message
      else s.activity reader ts entryType payloadType role payload

section Growth

variable (reader : TranscriptReader) (file : RolloutPath) (s : Scan)

theorem boundary_extends (ts : ℤ) (out : Segmenter TranscriptSegment) :
    out.Extends (boundary ts out) := by
  unfold boundary
  split
  · exact Segmenter.extends_close _ out
  · exact Segmenter.Extends.refl out

theorem prompt_extends (ts : ℤ) (message : String) :
    s.out.Extends (s.prompt reader file ts message).out := by
  have hkeep : (s.prompt reader file ts message).out.segments =
      (boundary ts s.out).segments := by
    unfold prompt
    dsimp only
    split_ifs <;> rfl
  exact (boundary_extends ts s.out).trans (Segmenter.extends_of_eq hkeep)

theorem activity_extends (ts : ℤ) (entryType payloadType role : String) (payload : JsonValue) :
    s.out.Extends (s.activity reader ts entryType payloadType role payload).out := by
  apply Segmenter.extends_of_eq
  unfold activity
  dsimp only
  split_ifs
  · rfl
  · split <;> rfl
  · rfl
  · rfl
  · rfl

theorem step_extends (obj : JsonValue) : s.out.Extends (step reader file s obj).out := by
  unfold step
  dsimp only
  split
  · exact Segmenter.Extends.refl _
  · split_ifs
    · exact Segmenter.Extends.refl _
    · unfold turnContext
      split <;> exact Segmenter.Extends.refl _
    · exact Segmenter.Extends.refl _
    · exact Segmenter.Extends.refl _
    · exact s.prompt_extends reader file _ _
    · exact Segmenter.Extends.refl _
    · exact s.prompt_extends reader file _ _
    · exact s.activity_extends reader _ _ _ _ _

end Growth

section Numbering

variable (reader : TranscriptReader) (file : RolloutPath) {s : Scan}

theorem boundary_numbered (ts : ℤ) {out : Segmenter TranscriptSegment}
    (h : out.Numbered TranscriptSegment.segmentIndex) :
    (boundary ts out).Numbered TranscriptSegment.segmentIndex := by
  unfold boundary
  split
  · exact (h.close TranscriptSegment.hasContent).setChars 0
  · exact h

theorem prompt_numbered (ts : ℤ) (message : String)
    (h : s.out.Numbered TranscriptSegment.segmentIndex) :
    (s.prompt reader file ts message).out.Numbered TranscriptSegment.segmentIndex := by
  have hopen : ∀ cwd, ((boundary ts s.out).openNext fun n => ({
      segmentIndex := n
      cwd := cwd
      startTime := ts
      endTime := ts } : TranscriptSegment)).Numbered TranscriptSegment.segmentIndex :=
    fun cwd => (boundary_numbered ts h).openNext fun _ => rfl
  have hseen : ∀ a : TranscriptSegment, ((a.touch ts).countMessage).segmentIndex =
    a.segmentIndex := fun a => a.touch_segmentIndex ts
  unfold prompt
  dsimp only
  generalize (if s.sessionCwd.isEmpty then file.parent else s.sessionCwd) = cwd
  split_ifs
  · exact ((hopen cwd).setUserMs ts).modify hseen
  · exact (hopen cwd).modify hseen
  · exact ((((hopen cwd).setUserMs ts).modify hseen).addChars _).modify
      (TranscriptSegment.addPrompts_segmentIndex _)
  · exact (((hopen cwd).modify hseen).addChars _).modify
      (TranscriptSegment.addPrompts_segmentIndex _)

theorem activity_numbered (ts : ℤ) (entryType payloadType role : String) (payload : JsonValue)
    (h : s.out.Numbered TranscriptSegment.segmentIndex) :
    (s.activity reader ts entryType payloadType role payload).out.Numbered
      TranscriptSegment.segmentIndex := by
  have hcount : ∀ a : TranscriptSegment, ((a.touch ts).countMessage).segmentIndex =
    a.segmentIndex := fun a => a.touch_segmentIndex ts
  have hseen := h.modify hcount
  unfold activity
  dsimp only
  split_ifs
  · exact h
  · split
    · exact hseen
    · exact (hseen.addChars _).modify (TranscriptSegment.addCalls_segmentIndex _)
  · exact hseen
  · exact (hseen.addChars _).modify (TranscriptSegment.addTexts_segmentIndex _)
  · exact hseen

theorem step_numbered (obj : JsonValue) (h : s.out.Numbered TranscriptSegment.segmentIndex) :
    (step reader file s obj).out.Numbered TranscriptSegment.segmentIndex := by
  unfold step
  dsimp only
  split
  · exact h
  · split_ifs
    · exact h
    · unfold turnContext
      split
      · exact h.modify fun _ => rfl
      · exact h
    · exact h
    · exact h
    · exact prompt_numbered reader file _ _ h
    · exact h
    · exact prompt_numbered reader file _ _ h
    · exact activity_numbered reader _ _ _ _ _ h

end Numbering

end Scan

/-- `extract_segments` of the Codex poller. -/
def extractSegments (reader : TranscriptReader) (file : RolloutPath) (lines : List String) :
    List SessionSegment :=
  let entries := reader.entries lines
  let scan := entries.foldl (Scan.step reader file) {}
  (scan.out.finish TranscriptSegment.hasContent).map
    (TranscriptSegment.toSession (rolloutIdentity file entries) file.path)

end Hippo.Codex
