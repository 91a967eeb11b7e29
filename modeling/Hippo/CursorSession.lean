import Hippo.Transcript

/-!
# The Cursor transcript extractor

Cursor transcripts carry no timestamps: every segment starts and ends at the file's `mtime`.
-/
namespace Hippo.Cursor
open RustText

/-- `PathIdentity`: what the path alone says. The directory decoded from the slug is
ambiguous. -/
structure PathIdentity where
  path : String
  sessionId : String
  cwd : String
  slug : String

/-- The keys `tool_summary` prefers, in order. -/
def summaryKeys : List String :=
  ["command", "cmd", "file_path", "filePath", "path", "glob_pattern", "pattern", "query", "uri",
    "target_directory"]

/-- `absolute_tokens_in_command`. -/
def absoluteTokensInCommand (command : String) : List String :=
  let quote := fun c => decide (c ∈ "\"'`(),;:".toList)
  let tokens := (command.toList.splitOnP RustText.isWhitespace).filter fun t => !t.isEmpty
  (tokens.map fun t => ((t.dropWhile quote).reverse.dropWhile quote).reverse).filterMap fun t =>
    if t.head? = some '/' then some (String.ofList t) else none

/-- `collect_tool_paths`. -/
def collectToolPaths (input : JsonValue) : List String :=
  (["path", "file_path", "filePath", "cwd", "target_directory"].filterMap fun key =>
    (input.getStr? key).filter fun v => v.toList.head? = some '/') ++
  (["command", "cmd"].filterMap input.getStr?).flatMap absoluteTokensInCommand

/-- Empty and `.` components at the end of a path that is spelled backwards. -/
def trimComponents : List Char → List Char
  | '/' :: s => trimComponents s
  | '.' :: '/' :: s => trimComponents s
  | s => s

/-- The ancestors of a path that is spelled backwards, itself first (`Path::ancestors`), without
the root. The number of characters is the fuel. -/
def ancestors : ℕ → List Char → List (List Char)
  | 0, _ => []
  | fuel + 1, s =>
    match trimComponents s with
    | [] => []
    | t => s :: ancestors fuel (trimComponents (t.dropWhile fun c => c ≠ '/'))

/-- `recover_cwd_from_paths`: the first ancestor that encodes to the slug. -/
def recoverCwdFromPaths (slug : String) (candidatePaths : List String) : Option String :=
  if slug.isEmpty then none
  else candidatePaths.findSome? fun candidate =>
    (ancestors candidate.length candidate.toList.reverse).findSome? fun backwards =>
      let pre := backwards.reverse
      let encoded := (pre.drop 1).map fun c => if c = '/' then '-' else c
      if encoded = slug.toList then some (String.ofList pre) else none

/-- `extract_user_text`: the text inside `<user_query>`, else the whole block. -/
def extractUserText (text : String) : String :=
  let chars := text.toList
  let inner := match find? "<user_query>".toList chars, find? "</user_query>".toList chars with
    | some start, some stop =>
      if start < stop then (chars.take stop).drop (start + "<user_query>".length) else chars
    | _, _ => chars
  String.ofList ((trimList inner).take 500)

/-- `text_blocks` for the kind `text`. -/
def textBlocks (content : JsonValue) : List String :=
  (content.asArray.getD []).filterMap fun b =>
    if b.getStr? "type" = some "text" then b.getStr? "text" else none

/-- `trim_end_matches`, with the number of characters as fuel. -/
def trimEndMatches (pattern : List Char) : ℕ → List Char → List Char
  | 0, s => s
  | fuel + 1, s =>
    if pattern.isSuffixOf s then trimEndMatches pattern fuel (s.take (s.length - pattern.length))
    else s

/-- The prompts of a user line that are not empty. -/
def linePrompts (content : JsonValue) : List String :=
  ((textBlocks content).map extractUserText).filter fun t => !t.isEmpty

/-- The redacted texts an assistant line keeps. -/
def lineTexts (reader : TranscriptReader) (content : JsonValue) : List String :=
  (textBlocks content).filterMap fun t =>
    let text := trimList (trimEndMatches "[REDACTED]".toList t.length t.toList)
    if text.isEmpty then none else some (reader.redact (String.ofList (text.take 300)))

/-- The `tool_use` blocks of an assistant line that have a name, with their input. -/
def toolUses (content : JsonValue) : List (String × JsonValue) :=
  (content.asArray.getD []).filterMap fun b =>
    if b.getStr? "type" = some "tool_use" ∧ !(b.getStr "name").isEmpty then
      some (b.getStr "name", (b.get "input").getD .null)
    else none

/-- The calls of an assistant line, with redacted summaries. -/
def lineCalls (reader : TranscriptReader) (content : JsonValue) : List ToolCall :=
  (toolUses content).map fun (name, input) =>
    ⟨name, reader.redact (TranscriptReader.toolSummary summaryKeys input (reader.render input))⟩

/-- The state of the extraction loop. -/
structure Scan where
  out : Segmenter TranscriptSegment := {}
  candidatePaths : List String := []

/-- `new_segment`. -/
def newSegment (id : PathIdentity) (mtime : ℤ) (index : ℕ) : TranscriptSegment where
  segmentIndex := index
  cwd := id.cwd
  startTime := mtime
  endTime := mtime

namespace Scan

/-- A user line with prompts. A segment over the char cap is closed as it is. -/
def prompt (reader : TranscriptReader) (id : PathIdentity) (mtime : ℤ) (prompts : List String)
    (s : Scan) : Scan :=
  let out := if maxSegmentChars < s.out.currentChars ∧ s.out.current.isSome then
      (s.out.close fun _ => true).setChars 0
    else s.out
  let redacted := prompts.map reader.redact
  let out := out.openNext (newSegment id mtime)
  { s with out := (out.addChars (charTotal redacted)).modify fun seg =>
      seg.countMessage.addPrompts redacted }

/-- Any other line only matters inside an open segment. -/
def activity (reader : TranscriptReader) (role : String) (content : JsonValue) (s : Scan) :
    Scan :=
  if s.out.current.isNone then s
  else
    let out := s.out.modify TranscriptSegment.countMessage
    if role = "assistant" then
      let texts := lineTexts reader content
      let calls := lineCalls reader content
      let out := (out.addChars (charTotal texts + charTotal (calls.map ToolCall.summary))).modify
        fun seg => (seg.addTexts texts).addCalls calls
      let paths := (toolUses content).flatMap fun use => collectToolPaths use.2
      { out := out, candidatePaths := s.candidatePaths ++ paths }
    else { s with out := out }

/-- One line of the transcript. -/
def step (reader : TranscriptReader) (id : PathIdentity) (mtime : ℤ) (s : Scan)
    (obj : JsonValue) : Scan :=
  let role := obj.getStr "role"
  let content := ((obj.get "message").bind fun m => m.get "content").getD .null
  if role = "user" then
    let prompts := linePrompts content
    if prompts.isEmpty then s else s.prompt reader id mtime prompts
  else s.activity reader role content

section Growth

variable (reader : TranscriptReader) (id : PathIdentity) (mtime : ℤ)

theorem prompt_extends (prompts : List String) (s : Scan) :
    s.out.Extends (s.prompt reader id mtime prompts).out := by
  unfold prompt
  dsimp only
  split_ifs
  · exact Segmenter.extends_close (fun _ => true) s.out
  · exact Segmenter.Extends.refl _

theorem activity_extends (role : String) (content : JsonValue) (s : Scan) :
    s.out.Extends (s.activity reader role content).out := by
  unfold activity
  dsimp only
  split_ifs <;> exact Segmenter.Extends.refl _

theorem step_extends (s : Scan) (obj : JsonValue) :
    s.out.Extends (step reader id mtime s obj).out := by
  unfold step
  dsimp only
  split_ifs
  · exact Segmenter.Extends.refl _
  · exact prompt_extends reader id mtime _ s
  · exact activity_extends reader _ _ s

variable {s : Scan}

theorem prompt_numbered (prompts : List String)
    (h : s.out.Numbered TranscriptSegment.segmentIndex) :
    (s.prompt reader id mtime prompts).out.Numbered TranscriptSegment.segmentIndex := by
  have hadd : ∀ texts (a : TranscriptSegment), (a.countMessage.addPrompts texts).segmentIndex =
    a.segmentIndex := fun _ _ => rfl
  unfold prompt
  dsimp only
  split_ifs
  · have hclose := (h.close fun _ => true).setChars 0
    exact ((hclose.openNext fun _ => rfl).addChars _).modify (hadd _)
  · exact ((h.openNext fun _ => rfl).addChars _).modify (hadd _)

theorem activity_numbered (role : String) (content : JsonValue)
    (h : s.out.Numbered TranscriptSegment.segmentIndex) :
    (s.activity reader role content).out.Numbered TranscriptSegment.segmentIndex := by
  have hadd : ∀ texts calls (a : TranscriptSegment), ((a.addTexts texts).addCalls
    calls).segmentIndex = a.segmentIndex := fun _ _ _ => rfl
  have hcount := h.modify TranscriptSegment.countMessage_segmentIndex
  unfold activity
  dsimp only
  split_ifs
  · exact h
  · exact (hcount.addChars _).modify (hadd _ _)
  · exact hcount

theorem step_stamped (obj : JsonValue) (h : s.out.All fun seg => seg.startTime = mtime) :
    (step reader id mtime s obj).out.All fun seg => seg.startTime = mtime := by
  have hopen : ∀ out : Segmenter TranscriptSegment, (out.All fun seg => seg.startTime = mtime) →
      (out.openNext (newSegment id mtime)).All fun seg => seg.startTime = mtime :=
    fun out hout => hout.openNext fun _ => rfl
  have hprompts : ∀ texts (seg : TranscriptSegment), seg.startTime = mtime →
      (seg.countMessage.addPrompts texts).startTime = mtime := fun _ _ hseg => hseg
  have hreply : ∀ texts calls (seg : TranscriptSegment), seg.startTime = mtime →
      ((seg.addTexts texts).addCalls calls).startTime = mtime := fun _ _ _ hseg => hseg
  have hcount : ∀ seg : TranscriptSegment, seg.startTime = mtime →
      seg.countMessage.startTime = mtime := fun _ hseg => hseg
  unfold step prompt activity
  dsimp only
  split_ifs
  · exact h
  · exact ((hopen _ ((h.close _).setChars 0)).addChars _).modify (hprompts _)
  · exact ((hopen _ h).addChars _).modify (hprompts _)
  · exact h
  · exact ((h.modify hcount).addChars _).modify (hreply _ _)
  · exact h.modify hcount

theorem step_numbered (obj : JsonValue) (h : s.out.Numbered TranscriptSegment.segmentIndex) :
    (step reader id mtime s obj).out.Numbered TranscriptSegment.segmentIndex := by
  unfold step
  dsimp only
  split_ifs
  · exact h
  · exact prompt_numbered reader id mtime _ h
  · exact activity_numbered reader _ _ h

end Growth

section Mtime

variable (reader : TranscriptReader) (id : PathIdentity) {s t : Scan}

/-- All that a Cursor segment takes from its lines. -/
def content (seg : TranscriptSegment) : FinishedContent := seg.finished.untimed

theorem prompt_alike (mtime mtime' : ℤ) (prompts : List String) (h : s.out.Alike content t.out) :
    (s.prompt reader id mtime prompts).out.Alike content
      (t.prompt reader id mtime' prompts).out := by
  have hadd : ∀ texts (a b : TranscriptSegment), content a = content b →
      content (a.countMessage.addPrompts texts) = content (b.countMessage.addPrompts texts) := by
    intro texts a b hab
    simp_all [content, TranscriptSegment.finished, FinishedContent.untimed,
      TranscriptSegment.countMessage, TranscriptSegment.addPrompts]
  have hfresh : ∀ n, content (newSegment id mtime n) = content (newSegment id mtime' n) :=
    fun _ => rfl
  unfold prompt
  dsimp only
  rw [h.currentChars, h.isSome]
  split_ifs
  · have hclose := h.close (fun _ => true) (fun _ => true) fun _ => rfl
    exact (((hclose.setChars 0).openNext hfresh).addChars _).modify (hadd _)
  · exact ((h.openNext hfresh).addChars _).modify (hadd _)

theorem activity_alike (role : String) (line : JsonValue) (h : s.out.Alike content t.out) :
    (s.activity reader role line).out.Alike content (t.activity reader role line).out := by
  have hcount : ∀ a b : TranscriptSegment, content a = content b →
      content a.countMessage = content b.countMessage := fun _ _ hab => hab
  have hadd : ∀ texts calls (a b : TranscriptSegment), content a = content b →
      content ((a.addTexts texts).addCalls calls) =
        content ((b.addTexts texts).addCalls calls) := by
    intro texts calls a b hab
    simp_all [content, TranscriptSegment.finished, FinishedContent.untimed,
      TranscriptSegment.addTexts, TranscriptSegment.addCalls]
  have hseen := h.modify hcount
  unfold activity
  dsimp only
  rw [← Option.not_isSome, ← Option.not_isSome, h.isSome]
  split_ifs
  · exact h
  · exact (hseen.addChars _).modify (hadd _ _)
  · exact hseen

theorem step_alike (mtime mtime' : ℤ) (obj : JsonValue) (h : s.out.Alike content t.out) :
    (step reader id mtime s obj).out.Alike content (step reader id mtime' t obj).out := by
  unfold step
  dsimp only
  split_ifs
  · exact h
  · exact prompt_alike reader id mtime mtime' _ h
  · exact activity_alike reader _ _ h

end Mtime

end Scan

/-- `extract_segments` of the Cursor poller; the true directory, when the transcript's own paths
give it away, replaces the decoded one. -/
def extractSegments (reader : TranscriptReader) (id : PathIdentity) (mtime : ℤ)
    (lines : List String) : List SessionSegment :=
  let scan : Scan := (reader.entries lines).foldl (Scan.step reader id mtime) {}
  let segments := scan.out.finish TranscriptSegment.hasContent
  let segments : List TranscriptSegment := match recoverCwdFromPaths id.slug scan.candidatePaths with
    | some cwd => segments.map fun seg => { seg with cwd := cwd }
    | none => segments
  segments.map (TranscriptSegment.toSession id.sessionId id.path)

section Extraction

variable (reader : TranscriptReader) (id : PathIdentity) (mtime : ℤ) (lines : List String)

/-- The state after the lines. -/
def scanLines : Scan := (reader.entries lines).foldl (Scan.step reader id mtime) {}

theorem scanLines_append (more : List String) : scanLines reader id mtime (lines ++ more) =
    (reader.entries more).foldl (Scan.step reader id mtime) (scanLines reader id mtime lines) := by
  rw [scanLines, TranscriptReader.entries_append, List.foldl_append, scanLines]

theorem finished_extractSegments : (extractSegments reader id mtime lines).map
    SessionSegment.finished = ((scanLines reader id mtime lines).out.finish
      TranscriptSegment.hasContent).map TranscriptSegment.finished := by
  unfold extractSegments scanLines
  dsimp only
  rw [List.map_map]
  split
  · rw [List.map_map]
    rfl
  · rfl

end Extraction

end Hippo.Cursor
