import Hippo.CodexSession
import Hippo.SegmentUsage

/-!
# Token usage of Codex segments

The extraction loop with the model, the effort and the tokens of the segments. A rollout reports
cumulative totals; the open segment gets the growth since the last report.
-/
namespace Hippo.Codex
open RustText

structure UsageSegment extends TranscriptSegment where
  usage : SegmentUsage := {}

namespace UsageSegment

def hasContent (seg : UsageSegment) : Bool := seg.toTranscriptSegment.hasContent

def onTranscript (f : TranscriptSegment → TranscriptSegment) (seg : UsageSegment) :
    UsageSegment :=
  { seg with toTranscriptSegment := f seg.toTranscriptSegment }

def onUsage (f : SegmentUsage → SegmentUsage) (seg : UsageSegment) : UsageSegment :=
  { seg with usage := f seg.usage }

end UsageSegment

/-- `field` of `codex_usage_totals`: a missing, negative or non-numeric count is `0`. -/
def totalField (raw : JsonValue) (key : String) : Int64 :=
  max (Int64.ofInt (((raw.get key).bind JsonValue.asI64).getD 0)) 0

/-- Codex counts cached tokens inside the input tokens. -/
def codexUsageTotals (raw : JsonValue) : UsageTotals :=
  let cached := totalField raw "cached_input_tokens"
  { inputTokens := max (totalField raw "input_tokens" - cached) 0
    outputTokens := totalField raw "output_tokens"
    cacheReadTokens := cached
    cacheCreationTokens := totalField raw "cache_write_input_tokens" }

/-- The growth since the last report. -/
def growth (total prev : UsageTotals) : UsageTotals where
  inputTokens := max (total.inputTokens - prev.inputTokens) 0
  outputTokens := max (total.outputTokens - prev.outputTokens) 0
  cacheReadTokens := max (total.cacheReadTokens - prev.cacheReadTokens) 0
  cacheCreationTokens := max (total.cacheCreationTokens - prev.cacheCreationTokens) 0

def observeContext (model effort : Option String) (usage : SegmentUsage) : SegmentUsage :=
  let usage := match model with
    | some m => usage.observeModel m
    | none => usage
  match effort with
  | some e => usage.observeEffort e
  | none => usage

/-- The state of the extraction loop. `closed` is history: all segments that were closed, with
those that were dropped for having no content. -/
structure UsageScan where
  out : Segmenter UsageSegment := {}
  sessionCwd : String := ""
  ambientModel : Option String := none
  ambientEffort : Option String := none
  pendingModel : Option String := none
  pendingEffort : Option String := none
  prevTotal : UsageTotals := {}
  closed : List UsageSegment := []

namespace UsageScan

/-- A `turn_context` votes for the segment of the next prompt. -/
def turnContext (payload : JsonValue) (s : UsageScan) : UsageScan :=
  let model := payload.getStr? "model"
  let effort := payload.getStr? "effort"
  let s := { s with
    ambientModel := model.or s.ambientModel
    pendingModel := model.or s.pendingModel
    ambientEffort := effort.or s.ambientEffort
    pendingEffort := effort.or s.pendingEffort }
  match (payload.getStr? "cwd").filter fun cwd => !cwd.isEmpty with
  | some cwd => { s with
      out := s.out.modify (UsageSegment.onTranscript fun seg => { seg with cwd := cwd })
      sessionCwd := cwd }
  | none => s

/-- Segment boundary: 5-minute gap or char cap. -/
def boundary (ts : ℤ) (s : UsageScan) : UsageScan :=
  if 0 < s.out.lastUserMs ∧ 0 < ts ∧
      (taskGapMs < ts - s.out.lastUserMs ∨ maxSegmentChars < s.out.currentChars) then
    { s with
      out := (s.out.close UsageSegment.hasContent).setChars 0
      closed := s.closed ++ s.out.current.toList }
  else s

/-- The open segment, or a new one that begins with the ambient context. -/
def openSegment (file : RolloutPath) (ts : ℤ) (s : UsageScan) : UsageScan :=
  let cwd := if s.sessionCwd.isEmpty then file.parent else s.sessionCwd
  let out := if s.out.current.isSome then
      s.out.modify (UsageSegment.onUsage (observeContext s.pendingModel s.pendingEffort))
    else
      s.out.openNext fun n =>
        { segmentIndex := n, cwd := cwd, startTime := ts, endTime := ts,
          usage := observeContext s.ambientModel s.ambientEffort {} }
  { s with out := out, pendingModel := none, pendingEffort := none }

/-- A user prompt that is not empty before its context is stripped. -/
def prompt (reader : TranscriptReader) (file : RolloutPath) (ts : ℤ) (message : String)
    (s : UsageScan) : UsageScan :=
  let userText := extractUserText message
  let s := (s.boundary ts).openSegment file ts
  let out := if 0 < ts then s.out.setUserMs ts else s.out
  let out := out.modify (UsageSegment.onTranscript fun seg => (seg.touch ts).countMessage)
  if userText.isEmpty then { s with out := out }
  else
    let redacted := reader.redact userText
    let out := (out.addChars redacted.length).modify
      (UsageSegment.onTranscript (TranscriptSegment.addPrompts [redacted]))
    { s with out := out }

/-- The totals of a `token_count` record that reports any. -/
def reported (entryType payloadType : String) (payload : JsonValue) : Option UsageTotals :=
  if entryType = "event_msg" ∧ payloadType = "token_count" then
    ((payload.get "info").bind fun info => info.get "total_token_usage").map codexUsageTotals
  else none

/-- Tokens that arrive before the first segment opens belong to no segment. -/
def countTokens (total : UsageTotals) (s : UsageScan) : UsageScan :=
  { s with
    prevTotal := total
    out := s.out.modify (UsageSegment.onUsage (SegmentUsage.add (growth total s.prevTotal))) }

/-- Any other record only matters inside an open segment. -/
def activity (reader : TranscriptReader) (ts : ℤ) (entryType payloadType role : String)
    (payload : JsonValue) (s : UsageScan) : UsageScan :=
  if s.out.current.isNone then s
  else
    let out := s.out.modify (UsageSegment.onTranscript fun seg => (seg.touch ts).countMessage)
    if entryType = "response_item" ∧
        (payloadType = "function_call" ∨ payloadType = "custom_tool_call") then
      match Scan.functionCall reader payload with
      | none => { s with out := out }
      | some call =>
        let out := (out.addChars call.summary.length).modify
          (UsageSegment.onTranscript (TranscriptSegment.addCalls [call]))
        { s with out := out }
    else if entryType = "response_item" ∧ role = "assistant" then
      let text := contentText ((payload.get "content").getD .null)
      if text.isEmpty then { s with out := out }
      else
        let redacted := reader.redact (takeChars 300 text)
        let out := (out.addChars redacted.length).modify
          (UsageSegment.onTranscript (TranscriptSegment.addTexts [redacted]))
        { s with out := out }
    else { s with out := out }

/-- One record of the rollout. -/
def step (reader : TranscriptReader) (file : RolloutPath) (s : UsageScan) (obj : JsonValue) :
    UsageScan :=
  let entryType := obj.getStr "type"
  let ts := reader.parseTs (obj.getStr "timestamp")
  match (obj.get "payload").bind JsonValue.asObject with
  | none => s
  | some members =>
    let payload := JsonValue.object members
    if entryType = "session_meta" then
      { s with sessionCwd := (payload.getStr? "cwd").getD s.sessionCwd }
    else if entryType = "turn_context" then s.turnContext payload
    else
      let payloadType := payload.getStr "type"
      let role := payload.getStr "role"
      if role = "developer" then s
      else if entryType = "event_msg" ∧ payloadType = "user_message" then
        let message := payload.getStr "message"
        if message.isEmpty then s else s.prompt reader file ts message
      else if entryType = "response_item" ∧ payloadType = "message" ∧ role = "user" then
        let message := contentText ((payload.get "content").getD .null)
        if message.isEmpty then s else s.prompt reader file ts message
      else
        let s := match reported entryType payloadType payload with
          | some total => s.countTokens total
          | none => s
        s.activity reader ts entryType payloadType role payload

/-- The segments at the end of the rollout. -/
def finish (s : UsageScan) : List UsageSegment :=
  s.out.segments ++ ((s.out.current.filter UsageSegment.hasContent).map
    (UsageSegment.onUsage (observeContext s.pendingModel s.pendingEffort))).toList

end UsageScan

/-- `extract_segments` with the usage of each segment. -/
def extractUsage (reader : TranscriptReader) (file : RolloutPath) (lines : List String) :
    List UsageSegment :=
  ((reader.entries lines).foldl (UsageScan.step reader file) {}).finish

section Agreement

variable {reader : TranscriptReader} {file : RolloutPath} {s : UsageScan}

/-- The scan without the usage. -/
def UsageScan.toScan (s : UsageScan) : Scan where
  out := s.out.map UsageSegment.toTranscriptSegment
  sessionCwd := s.sessionCwd

theorem map_onTranscript {out : Segmenter UsageSegment}
    (f : TranscriptSegment → TranscriptSegment) :
    (out.modify (UsageSegment.onTranscript f)).map UsageSegment.toTranscriptSegment =
      (out.map UsageSegment.toTranscriptSegment).modify f :=
  Segmenter.map_modify fun _ => rfl

theorem map_onUsage {out : Segmenter UsageSegment} (f : SegmentUsage → SegmentUsage) :
    (out.modify (UsageSegment.onUsage f)).map UsageSegment.toTranscriptSegment =
      out.map UsageSegment.toTranscriptSegment := by
  cases hcurrent : out.current <;>
    simp [Segmenter.modify, Segmenter.map, hcurrent, UsageSegment.onUsage]

theorem toScan_turnContext (payload : JsonValue) :
    (s.turnContext payload).toScan = s.toScan.turnContext payload := by
  unfold UsageScan.turnContext Scan.turnContext
  dsimp only
  cases (payload.getStr? "cwd").filter fun cwd => !cwd.isEmpty with
  | none => rfl
  | some cwd => simp only [UsageScan.toScan, map_onTranscript]

theorem toScan_boundary (ts : ℤ) :
    (s.boundary ts).toScan = { s.toScan with out := Scan.boundary ts s.toScan.out } := by
  have hclose : (s.out.close UsageSegment.hasContent).map UsageSegment.toTranscriptSegment =
      (s.out.map UsageSegment.toTranscriptSegment).close TranscriptSegment.hasContent :=
    Segmenter.map_close fun _ => rfl
  by_cases h : 0 < s.out.lastUserMs ∧ 0 < ts ∧
      (taskGapMs < ts - s.out.lastUserMs ∨ maxSegmentChars < s.out.currentChars)
  · have hscan : Scan.boundary ts s.toScan.out =
        (s.toScan.out.close TranscriptSegment.hasContent).setChars 0 := if_pos h
    rw [UsageScan.boundary, if_pos h, hscan]
    simp only [UsageScan.toScan, Segmenter.map_setChars, hclose]
  · have hscan : Scan.boundary ts s.toScan.out = s.toScan.out := if_neg h
    rw [UsageScan.boundary, if_neg h, hscan]

theorem toScan_openSegment (file : RolloutPath) (s : UsageScan) (ts : ℤ) :
    (s.openSegment file ts).toScan =
      { s.toScan with out := s.toScan.out.openNext fun n =>
          { segmentIndex := n
            cwd := if s.toScan.sessionCwd.isEmpty then file.parent else s.toScan.sessionCwd
            startTime := ts
            endTime := ts } } := by
  cases hcurrent : s.out.current with
  | none =>
    simp [UsageScan.openSegment, UsageScan.toScan, Segmenter.map, Segmenter.openNext, hcurrent]
  | some seg =>
    simp [UsageScan.openSegment, UsageScan.toScan, Segmenter.map, Segmenter.openNext, hcurrent,
      Segmenter.modify, UsageSegment.onUsage]

theorem toScan_prompt (ts : ℤ) (message : String) :
    (s.prompt reader file ts message).toScan = s.toScan.prompt reader file ts message := by
  have hopen := toScan_openSegment file (s.boundary ts) ts
  rw [toScan_boundary] at hopen
  unfold UsageScan.prompt Scan.prompt
  dsimp only
  generalize (s.boundary ts).openSegment file ts = opened at hopen
  have hout : _ = opened.out.map UsageSegment.toTranscriptSegment := (congrArg Scan.out hopen).symm
  have hcwd : s.toScan.sessionCwd = opened.sessionCwd := (congrArg Scan.sessionCwd hopen).symm
  dsimp only at hout
  rw [hout]
  by_cases hts : 0 < ts <;> by_cases htext : (extractUserText message).isEmpty = true <;>
    simp only [hts, htext, if_true, if_false, Bool.false_eq_true, UsageScan.toScan,
      map_onTranscript, Segmenter.map_addChars, Segmenter.map_setUserMs, ← hcwd]

theorem toScan_countTokens (total : UsageTotals) : (s.countTokens total).toScan = s.toScan := by
  simp only [UsageScan.countTokens, UsageScan.toScan, map_onUsage]

theorem toScan_activity (ts : ℤ) (entryType payloadType role : String) (payload : JsonValue) :
    (s.activity reader ts entryType payloadType role payload).toScan =
      s.toScan.activity reader ts entryType payloadType role payload := by
  have hnone : s.toScan.out.current.isNone = s.out.current.isNone := by
    simp [UsageScan.toScan, Segmenter.map]
  unfold UsageScan.activity Scan.activity
  rw [hnone]
  dsimp only
  split_ifs
  · rfl
  · cases Scan.functionCall reader payload with
    | none => simp only [UsageScan.toScan, map_onTranscript]
    | some call => simp only [UsageScan.toScan, map_onTranscript, Segmenter.map_addChars]
  · simp only [UsageScan.toScan, map_onTranscript]
  · simp only [UsageScan.toScan, map_onTranscript, Segmenter.map_addChars]
  · simp only [UsageScan.toScan, map_onTranscript]

theorem toScan_step (obj : JsonValue) :
    (s.step reader file obj).toScan = s.toScan.step reader file obj := by
  unfold UsageScan.step Scan.step
  dsimp only
  cases (obj.get "payload").bind JsonValue.asObject with
  | none => rfl
  | some members =>
    dsimp only
    split_ifs
    · rfl
    · exact toScan_turnContext _
    · rfl
    · rfl
    · exact toScan_prompt _ _
    · rfl
    · exact toScan_prompt _ _
    · rw [toScan_activity]
      congr 1
      split
      · exact toScan_countTokens _
      · rfl

/-- The usage does not change what is extracted otherwise. -/
theorem extractUsage_transcripts (reader : TranscriptReader) (file : RolloutPath)
    (lines : List String) :
    (extractUsage reader file lines).map (fun seg => seg.toTranscriptSegment.toSession
      (rolloutIdentity file (reader.entries lines)) file.path) =
        extractSegments reader file lines := by
  have hfold : ∀ (entries : List JsonValue) (s : UsageScan),
      (entries.foldl (UsageScan.step reader file) s).toScan =
        entries.foldl (Scan.step reader file) s.toScan := by
    intro entries
    induction entries with
    | nil => exact fun _ => rfl
    | cons obj rest ih =>
      intro s
      rw [List.foldl_cons, List.foldl_cons, ih, toScan_step]
  have hinit : ({} : UsageScan).toScan = {} := rfl
  have hscan := hfold (reader.entries lines) {}
  rw [hinit] at hscan
  have hfinish : ∀ s : UsageScan, s.finish.map UsageSegment.toTranscriptSegment =
      s.toScan.out.finish TranscriptSegment.hasContent := by
    intro s
    cases hcurrent : s.out.current with
    | none => simp [UsageScan.finish, UsageScan.toScan, Segmenter.finish_eq, Segmenter.map, hcurrent]
    | some seg =>
      by_cases hcontent : seg.toTranscriptSegment.hasContent = true
      · simp [UsageScan.finish, UsageScan.toScan, Segmenter.finish_eq, Segmenter.map, hcurrent,
          Option.filter, UsageSegment.hasContent, hcontent, UsageSegment.onUsage]
      · simp [UsageScan.finish, UsageScan.toScan, Segmenter.finish_eq, Segmenter.map, hcurrent,
          Option.filter, UsageSegment.hasContent, hcontent]
  simp only [extractUsage, extractSegments, ← hscan, ← hfinish, List.map_map]
  rfl

end Agreement

end Hippo.Codex
