import Hippo.Transcript

/-!
# The Pi transcript extractor

Time comes from the lines; the file's `mtime` stands in where a line has no timestamp.
-/
namespace Hippo.Pi
open RustText

/-- What the path alone says: the identity from the file name and the directory decoded from
the slug. -/
structure TranscriptPath where
  path : String
  fallbackId : String
  decodedCwd : String

/-- The keys `tool_summary` prefers, in order. -/
def summaryKeys : List String :=
  ["command", "cmd", "file_path", "filePath", "path", "glob_pattern", "pattern", "query", "search",
    "tool", "uri", "target_directory", "server"]

/-- What the first pass finds. -/
structure Header where
  id : Option String := none
  cwd : String := ""
  ts : ℤ := 0
  lineCwd : Option String := none

/-- The first pass: the `session` line, or the first `runId` and line `cwd` before it. -/
def scanHeader (reader : TranscriptReader) : List JsonValue → Header → Header
  | [], h => h
  | obj :: rest, h =>
    let h := if h.lineCwd.isNone then
        { h with lineCwd := (obj.getStr? "cwd").filter fun cwd => !cwd.isEmpty }
      else h
    if obj.getStr? "type" = some "session" then
      { h with
        id := obj.getStr? "id"
        cwd := obj.getStr "cwd"
        ts := reader.parseTs (obj.getStr "timestamp") }
    else
      let h := if h.id.isNone ∧ obj.getStr? "recordType" = some "message" then
          { h with id := (obj.getStr? "runId").filter fun id => !id.isEmpty }
        else h
      if h.id.isSome ∧ h.lineCwd.isSome then h else scanHeader reader rest h

/-- The session id of `PathIdentity::from_parts`. -/
def Header.sessionId (h : Header) (file : TranscriptPath) : String :=
  (h.id.filter fun id => !id.isEmpty).getD file.fallbackId

/-- The directory of `PathIdentity::from_parts`. -/
def Header.sessionCwd (h : Header) (file : TranscriptPath) : String :=
  if !h.cwd.isEmpty then h.cwd
  else (h.lineCwd.filter fun cwd => !cwd.isEmpty).getD file.decodedCwd

/-- `text_blocks`. -/
def textBlocks (content : JsonValue) : List String :=
  (content.asArray.getD []).filterMap fun b =>
    if b.getStr? "type" = some "text" then b.getStr? "text" else none

/-- The reviewer shape of a message line. -/
def isReviewerMessage (obj : JsonValue) : Bool := obj.getStr? "recordType" = some "message"

def message (obj : JsonValue) : JsonValue := (obj.get "message").getD .null

def lineRole (obj : JsonValue) : String :=
  if isReviewerMessage obj then
    ((obj.getStr? "role").filter fun r => !r.isEmpty).getD ((message obj).getStr "role")
  else (message obj).getStr "role"

def lineContent (obj : JsonValue) : JsonValue := ((message obj).get "content").getD .null

/-- The time a line carries itself: of the message envelope, the reviewer's `ts`, or the line. -/
def ownTime (reader : TranscriptReader) (obj : JsonValue) : Option ℤ :=
  let positive := fun (t : ℤ) => decide (0 < t)
  ((((message obj).get "timestamp").bind JsonValue.asI64).filter positive).or
    ((((obj.get "ts").bind JsonValue.asI64).filter positive).or
      ((some (reader.parseTs (obj.getStr "timestamp"))).filter positive))

def lineTime (reader : TranscriptReader) (mtime : ℤ) (obj : JsonValue) : ℤ :=
  (ownTime reader obj).getD mtime

/-- The prompts of a user line that are not empty. -/
def linePrompts (obj : JsonValue) : List String :=
  ((textBlocks (lineContent obj)).map fun t => takeChars 500 (trim t)).filter
    fun t => !t.isEmpty

/-- The redacted texts an assistant line keeps. -/
def lineTexts (reader : TranscriptReader) (blocks : List JsonValue) : List String :=
  blocks.filterMap fun b =>
    let text := trim (b.getStr "text")
    if b.getStr? "type" = some "text" ∧ !text.isEmpty then
      some (reader.redact (takeChars 300 text))
    else none

/-- The calls of an assistant line, with redacted summaries. -/
def lineCalls (reader : TranscriptReader) (blocks : List JsonValue) : List ToolCall :=
  blocks.filterMap fun b =>
    let name := b.getStr "name"
    if b.getStr? "type" = some "toolCall" ∧ !name.isEmpty then
      let args := (b.get "arguments").getD .null
      some ⟨name, reader.redact (TranscriptReader.toolSummary summaryKeys args (reader.render args))⟩
    else none

/-- `new_segment`. -/
def newSegment (cwd : String) (ts : ℤ) (index : ℕ) : TranscriptSegment where
  segmentIndex := index
  cwd := cwd
  startTime := ts
  endTime := ts

abbrev Scan := Segmenter TranscriptSegment

namespace Scan

/-- Segment boundary: 5-minute gap or char cap. -/
def boundary (ts : ℤ) (s : Scan) : Scan :=
  if 0 < s.lastUserMs ∧ 0 < ts ∧
      (taskGapMs < ts - s.lastUserMs ∨ maxSegmentChars < s.currentChars) ∧ s.current.isSome then
    (s.close TranscriptSegment.hasContent).setChars 0
  else s

/-- A user line with prompts. -/
def prompt (reader : TranscriptReader) (cwd : String) (ts : ℤ) (prompts : List String)
    (s : Scan) : Scan :=
  let redacted := prompts.map reader.redact
  let s := (boundary ts s).openNext (newSegment cwd ts)
  let s := if 0 < ts then s.setUserMs ts else s
  (s.addChars (charTotal redacted)).modify fun seg =>
    ((seg.touch ts).countMessage).addPrompts redacted

/-- An assistant line inside an open segment. -/
def reply (reader : TranscriptReader) (ts : ℤ) (content : JsonValue) (s : Scan) : Scan :=
  if s.current.isNone then s
  else
    let texts := lineTexts reader (content.asArray.getD [])
    let calls := lineCalls reader (content.asArray.getD [])
    (s.addChars (charTotal texts + charTotal (calls.map ToolCall.summary))).modify fun seg =>
      (((seg.touch ts).countMessage).addTexts texts).addCalls calls

/-- One line of the transcript. -/
def step (reader : TranscriptReader) (cwd : String) (mtime : ℤ) (s : Scan) (obj : JsonValue) :
    Scan :=
  if obj.getStr? "type" ≠ some "message" ∧ !isReviewerMessage obj then s
  else
    let role := lineRole obj
    let ts := lineTime reader mtime obj
    if role = "user" then
      let prompts := linePrompts obj
      if prompts.isEmpty then s else prompt reader cwd ts prompts s
    else if role = "assistant" then reply reader ts (lineContent obj) s
    else s

section Growth

variable (reader : TranscriptReader) (cwd : String) (mtime : ℤ) {s : Scan}

theorem boundary_extends (ts : ℤ) (s : Scan) : s.Extends (boundary ts s) := by
  unfold boundary
  split
  · exact Segmenter.extends_close TranscriptSegment.hasContent s
  · exact Segmenter.Extends.refl s

theorem prompt_extends (ts : ℤ) (prompts : List String) (s : Scan) :
    s.Extends (prompt reader cwd ts prompts s) := by
  have hkeep : (prompt reader cwd ts prompts s).segments = (boundary ts s).segments := by
    unfold prompt
    dsimp only
    split_ifs <;> rfl
  exact (boundary_extends ts s).trans (Segmenter.extends_of_eq hkeep)

theorem reply_extends (ts : ℤ) (content : JsonValue) (s : Scan) :
    s.Extends (reply reader ts content s) := by
  unfold reply
  split_ifs <;> exact Segmenter.Extends.refl _

theorem step_extends (s : Scan) (obj : JsonValue) : s.Extends (step reader cwd mtime s obj) := by
  unfold step
  dsimp only
  split_ifs
  · exact Segmenter.Extends.refl s
  · exact Segmenter.Extends.refl s
  · exact prompt_extends reader cwd _ _ s
  · exact reply_extends reader _ _ s
  · exact Segmenter.Extends.refl s

theorem boundary_numbered (ts : ℤ) (h : s.Numbered TranscriptSegment.segmentIndex) :
    (boundary ts s).Numbered TranscriptSegment.segmentIndex := by
  unfold boundary
  split
  · exact (h.close _).setChars 0
  · exact h

theorem step_numbered (obj : JsonValue) (h : s.Numbered TranscriptSegment.segmentIndex) :
    (step reader cwd mtime s obj).Numbered TranscriptSegment.segmentIndex := by
  have hprompt : ∀ ts texts (seg : TranscriptSegment),
      (((seg.touch ts).countMessage).addPrompts texts).segmentIndex = seg.segmentIndex :=
    fun ts _ seg => seg.touch_segmentIndex ts
  have hreply : ∀ ts texts calls (seg : TranscriptSegment),
      ((((seg.touch ts).countMessage).addTexts texts).addCalls calls).segmentIndex =
        seg.segmentIndex := fun ts _ _ seg => seg.touch_segmentIndex ts
  have hopen := (boundary_numbered (lineTime reader mtime obj) h).openNext
    fun n => show (newSegment cwd (lineTime reader mtime obj) n).segmentIndex = n from rfl
  unfold step prompt reply
  dsimp only
  split_ifs
  · exact h
  · exact h
  · exact ((hopen.setUserMs _).addChars _).modify (hprompt _ _)
  · exact (hopen.addChars _).modify (hprompt _ _)
  · exact h
  · exact (h.addChars _).modify (hreply _ _ _)
  · exact h

theorem boundary_started (ts : ℤ) (h : s.All fun seg => 0 < seg.startTime) :
    (boundary ts s).All fun seg => 0 < seg.startTime := by
  unfold boundary
  split
  · exact (h.close _).setChars 0
  · exact h

/-- With a positive `mtime` every line has a positive time. -/
theorem lineTime_pos {mtime : ℤ} (h : 0 < mtime) (obj : JsonValue) :
    0 < lineTime reader mtime obj := by
  unfold lineTime
  cases hown : ownTime reader obj with
  | none => exact h
  | some t =>
    simp only [ownTime, Option.or_eq_some_iff, Option.filter_eq_some_iff] at hown
    have hpos : decide (0 < t) = true := by tauto
    exact of_decide_eq_true hpos

theorem step_started {mtime : ℤ} (hmtime : 0 < mtime) (obj : JsonValue)
    (h : s.All fun seg => 0 < seg.startTime) :
    (step reader cwd mtime s obj).All fun seg => 0 < seg.startTime := by
  have hprompt : ∀ ts texts (seg : TranscriptSegment), 0 < seg.startTime →
      0 < (((seg.touch ts).countMessage).addPrompts texts).startTime :=
    fun ts _ seg hseg => (seg.touch_startTime ts).symm ▸ hseg
  have hreply : ∀ ts texts calls (seg : TranscriptSegment), 0 < seg.startTime →
      0 < ((((seg.touch ts).countMessage).addTexts texts).addCalls calls).startTime :=
    fun ts _ _ seg hseg => (seg.touch_startTime ts).symm ▸ hseg
  have hopen := (boundary_started (lineTime reader mtime obj) h).openNext
    fun n => show 0 < (newSegment cwd (lineTime reader mtime obj) n).startTime from
      lineTime_pos reader hmtime obj
  unfold step prompt reply
  dsimp only
  split_ifs
  · exact h
  · exact h
  · exact ((hopen.setUserMs _).addChars _).modify (hprompt _ _)
  · exact (hopen.addChars _).modify (hprompt _ _)
  · exact h
  · exact (h.addChars _).modify (hreply _ _ _)
  · exact h

end Growth

section Mtime

variable (reader : TranscriptReader) {s t : Scan}

theorem boundary_alike (ts : ℤ) (h : s.Alike TranscriptSegment.finished t) :
    (boundary ts s).Alike TranscriptSegment.finished (boundary ts t) := by
  unfold boundary
  rw [h.currentChars, h.lastUserMs, h.isSome]
  split_ifs
  · exact (h.close TranscriptSegment.hasContent FinishedContent.hasContent
      fun _ => rfl).setChars 0
  · exact h

theorem prompt_alike (cwd cwd' : String) (ts : ℤ) (prompts : List String)
    (h : s.Alike TranscriptSegment.finished t) : (prompt reader cwd ts prompts s).Alike
      TranscriptSegment.finished (prompt reader cwd' ts prompts t) := by
  have hfresh : ∀ n, (newSegment cwd ts n).finished = (newSegment cwd' ts n).finished :=
    fun _ => rfl
  have hadd : ∀ texts (a b : TranscriptSegment), a.finished = b.finished →
      (((a.touch ts).countMessage).addPrompts texts).finished =
        (((b.touch ts).countMessage).addPrompts texts).finished := by
    intro texts a b hab
    simp_all [TranscriptSegment.finished, TranscriptSegment.countMessage,
      TranscriptSegment.addPrompts]
  have hopen := (boundary_alike ts h).openNext hfresh
  unfold prompt
  dsimp only
  split_ifs
  · exact ((hopen.setUserMs ts).addChars _).modify (hadd _)
  · exact (hopen.addChars _).modify (hadd _)

theorem reply_alike (ts ts' : ℤ) (content : JsonValue)
    (h : s.Alike TranscriptSegment.finished t) : (reply reader ts content s).Alike
      TranscriptSegment.finished (reply reader ts' content t) := by
  have hadd : ∀ texts calls (a b : TranscriptSegment), a.finished = b.finished →
      ((((a.touch ts).countMessage).addTexts texts).addCalls calls).finished =
        ((((b.touch ts').countMessage).addTexts texts).addCalls calls).finished := by
    intro texts calls a b hab
    simp_all [TranscriptSegment.finished, TranscriptSegment.countMessage,
      TranscriptSegment.addTexts, TranscriptSegment.addCalls]
  unfold reply
  rw [← Option.not_isSome, ← Option.not_isSome, h.isSome]
  split_ifs
  · exact h
  · exact (h.addChars _).modify (hadd _ _)

end Mtime

end Scan

/-- A line that can open or split a segment carries its own time. -/
def TimedPrompt (reader : TranscriptReader) (obj : JsonValue) : Prop :=
  (obj.getStr? "type" = some "message" ∨ isReviewerMessage obj = true) → lineRole obj = "user" →
    linePrompts obj ≠ [] → ownTime reader obj ≠ none

theorem Scan.step_alike (reader : TranscriptReader) (cwd cwd' : String) (mtime mtime' : ℤ)
    {s t : Scan} {obj : JsonValue} (htime : mtime = mtime' ∨ TimedPrompt reader obj)
    (h : s.Alike TranscriptSegment.finished t) : (step reader cwd mtime s obj).Alike
      TranscriptSegment.finished (step reader cwd' mtime' t obj) := by
  unfold step
  dsimp only
  split_ifs with hmessage hrole hnone hrole'
  · exact h
  · exact h
  · have hts : lineTime reader mtime obj = lineTime reader mtime' obj := by
      rcases htime with rfl | htimed
      · rfl
      · have hshape : obj.getStr? "type" = some "message" ∨ isReviewerMessage obj = true := by
          by_contra hneither
          exact hmessage (by simpa using hneither)
        have hown := htimed hshape hrole (by simpa using hnone)
        obtain ⟨ts, hts⟩ := Option.ne_none_iff_exists'.mp hown
        rw [lineTime, lineTime, hts]
        rfl
    rw [hts]
    exact prompt_alike reader cwd cwd' _ _ h
  · exact reply_alike reader _ _ _ h
  · exact h

/-- Start and end times that are not positive become the `mtime`. -/
def backfill (headerTs mtime : ℤ) (seg : TranscriptSegment) : TranscriptSegment :=
  if headerTs ≤ 0 ∧ 0 < mtime then
    { seg with
      startTime := if seg.startTime ≤ 0 then mtime else seg.startTime
      endTime := if seg.endTime ≤ 0 then mtime else seg.endTime }
  else seg

/-- `extract_segments` of the Pi poller. -/
def extractSegments (reader : TranscriptReader) (file : TranscriptPath) (mtime : ℤ)
    (lines : List String) : List SessionSegment :=
  let entries := reader.entries lines
  let header := scanHeader reader entries {}
  let scan := entries.foldl (Scan.step reader (header.sessionCwd file) mtime) {}
  ((scan.finish TranscriptSegment.hasContent).map (backfill header.ts mtime)).map
    (TranscriptSegment.toSession (header.sessionId file) file.path)

section Extraction

variable (reader : TranscriptReader) (cwd : String) (mtime : ℤ) (lines : List String)

/-- The state after the lines. -/
def scanLines : Scan := (reader.entries lines).foldl (Scan.step reader cwd mtime) {}

theorem scanLines_append (more : List String) : scanLines reader cwd mtime (lines ++ more) =
    (reader.entries more).foldl (Scan.step reader cwd mtime) (scanLines reader cwd mtime lines) := by
  rw [scanLines, TranscriptReader.entries_append, List.foldl_append, scanLines]

/-- The backfill never finds a start time to fill in. -/
theorem finished_backfill {headerTs : ℤ} {seg : TranscriptSegment}
    (hseg : seg ∈ (scanLines reader cwd mtime lines).finish TranscriptSegment.hasContent) :
    (backfill headerTs mtime seg).finished = seg.finished := by
  by_cases hmtime : 0 < mtime
  · have hstarted : (scanLines reader cwd mtime lines).All fun seg => 0 < seg.startTime :=
      Segmenter.all_foldl id (fun s obj => Scan.step_started reader cwd hmtime obj) _ _
        Segmenter.all_empty
    have hpos := hstarted.finish hseg
    unfold backfill
    split
    · simp [TranscriptSegment.finished, not_le.mpr hpos]
    · rfl
  · rw [backfill, if_neg fun h => hmtime h.2]

theorem finished_extractSegments (file : TranscriptPath) :
    ∃ cwd, (extractSegments reader file mtime lines).map SessionSegment.finished =
      ((scanLines reader cwd mtime lines).finish TranscriptSegment.hasContent).map
        TranscriptSegment.finished := by
  refine ⟨(scanHeader reader (reader.entries lines) {}).sessionCwd file, ?_⟩
  unfold extractSegments
  rw [List.map_map, List.map_map]
  apply List.map_congr_left
  intro seg hseg
  exact finished_backfill reader _ mtime lines hseg

end Extraction

end Hippo.Pi
