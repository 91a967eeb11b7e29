import Hippo.Transcript

/-!
# The brain's extractor of Claude transcripts

`extract_segments` of the Python side. An operation that raises is `none`: only a line that is
no JSON is caught, so any other exception ends the extraction.
-/
namespace Hippo.BrainClaude
open RustText

/-- What `json.loads` does with a line. -/
inductive Loaded where
  | value (v : JsonValue)
  | decodeError
  | raised

/-- What the extractor calls in the standard library: `datetime.fromisoformat(…).timestamp()` in
milliseconds is `none` where it raises. -/
structure PythonLibrary where
  loads : String → Loaded
  fromisoformat : String → Option ℤ
  str : JsonValue → String

/-- `str.isspace` of one character. -/
def isSpace (c : Char) : Bool := RustText.isWhitespace c || (0x1C ≤ c.toNat && c.toNat ≤ 0x1F)

/-- `str.strip`. -/
def strip (s : String) : String :=
  String.ofList ((s.toList.dropWhile isSpace).reverse.dropWhile isSpace).reverse

/-- The members of a `dict`; other values have no `get`. -/
def dict : JsonValue → Option (List (String × JsonValue)) := JsonValue.asObject

/-- `d.get(key, default)`. -/
def getD (members : List (String × JsonValue)) (key : String) (default : JsonValue) : JsonValue :=
  (members.lookup key).getD default

def truthy : JsonValue → Bool
  | .null => false
  | .bool b => b
  | .int n => n ≠ 0
  | .float x => x ≠ 0
  | .string s => s ≠ ""
  | .array items => !items.isEmpty
  | .object members => !members.isEmpty

/-- `len(v)`. -/
def len : JsonValue → Option ℕ
  | .string s => some s.length
  | .array items => some items.length
  | .object members => some members.length
  | _ => none

/-- `v[:n]`. -/
def slice (n : ℕ) : JsonValue → Option JsonValue
  | .string s => some (.string (takeChars n s))
  | .array items => some (.array (items.take n))
  | _ => none

/-- `total + v`. -/
def plus (total : ℚ) : JsonValue → Option ℚ
  | .int n => some (total + n)
  | .float x => some (total + x)
  | .bool b => some (total + if b then 1 else 0)
  | _ => none

/-- `str(v)`. -/
def PythonLibrary.text (py : PythonLibrary) : JsonValue → String
  | .string s => s
  | v => py.str v

/-- `_parse_timestamp`, behind the test that the value is truthy. -/
def parseTimestamp (py : PythonLibrary) : JsonValue → ℤ
  | .string ts =>
    if ts = "" then 0
    else
      let ts := String.ofList (ts.toList.flatMap fun c => if c = 'Z' then "+00:00".toList else [c])
      (py.fromisoformat ts).getD 0
  | _ => 0

/-- A tool call; Python checks neither the name nor the summary. -/
structure Tool where
  name : JsonValue
  summary : JsonValue

/-- `SessionSegment`, without the columns all segments of a file share. -/
structure Segment where
  segmentIndex : ℕ
  cwd : JsonValue
  gitBranch : JsonValue
  startTime : ℤ
  endTime : ℤ
  userPrompts : List String := []
  assistantTexts : List String := []
  toolCalls : List Tool := []
  messageCount : ℕ := 0
  tokenCount : ℚ := 0

def Segment.hasContent (seg : Segment) : Bool :=
  !seg.userPrompts.isEmpty || !seg.toolCalls.isEmpty || !seg.assistantTexts.isEmpty

/-- Text that is neither empty nor wrapped in a tag. -/
def typedText (text : String) : Option String :=
  let stripped := strip text
  if stripped.toList.head? = some '<' ∨ stripped = "" then none else some stripped

/-- The texts of the text blocks of a user message. -/
def userTexts : List JsonValue → Option (List String)
  | [] => some []
  | block :: rest =>
    if block.getStr? "type" = some "text" then
      match getD (block.asObject.getD []) "text" (.string "") with
      | .string text => (userTexts rest).map fun texts => (typedText text).toList ++ texts
      | _ => none
    else userTexts rest

/-- `_extract_user_text`. -/
def extractUserText (msg : JsonValue) : Option (Option String) :=
  match msg with
  | .string s => some (typedText s)
  | .object members =>
    match getD members "content" (.array []) with
    | .string s => some (typedText s)
    | .array blocks => (userTexts blocks).map fun texts =>
        if texts.isEmpty then none else some ("\n".intercalate texts)
    | _ => some none
  | _ => none

/-- `_extract_tool_summary`. -/
def extractToolSummary (py : PythonLibrary) (block : List (String × JsonValue)) :
    Option (Option Tool) :=
  let name := getD block "name" (.string "")
  let inp := getD block "input" (.object [])
  let field := fun key => (dict inp).map fun members => getD members key (.string "")
  if !truthy name then some none
  else
    let summary :=
      match name with
      | .string "Bash" => (field "command").bind (slice 200)
      | .string "Read" => field "file_path"
      | .string "Write" => field "file_path"
      | .string "Edit" => field "file_path"
      | .string "Grep" => do
        let pattern ← field "pattern"
        let path ← field "path"
        some (.string (py.text pattern ++ if truthy path then " in " ++ py.text path else ""))
      | .string "Glob" => field "pattern"
      | .string "Agent" => (field "description").bind (slice 100)
      | _ => (dict inp).map fun members =>
          match members with
          | (k, v) :: _ => .string (k ++ "=" ++ takeChars 80 (py.text v))
          | [] => .string ""
    summary.map fun summary => some ⟨name, summary⟩

/-- `_extract_assistant_text` over the blocks of a message. -/
def assistantBlocks (py : PythonLibrary) : List JsonValue → Option (List String × List Tool)
  | [] => some ([], [])
  | .object block :: rest =>
    if (JsonValue.object block).getStr? "type" = some "text" then
      match getD block "text" (.string "") with
      | .string text =>
        let text := strip text
        (assistantBlocks py rest).map fun found =>
          (if 20 < text.length then takeChars 300 text :: found.1 else found.1, found.2)
      | _ => none
    else if (JsonValue.object block).getStr? "type" = some "tool_use" then do
      let tool ← extractToolSummary py block
      let found ← assistantBlocks py rest
      some (found.1, tool.toList ++ found.2)
    else assistantBlocks py rest
  | _ :: rest => assistantBlocks py rest

/-- The tokens a message adds: `msg["usage"][key]`, if `usage` is a `dict`. -/
def addTokens (msg : JsonValue) (key : String) (total : ℚ) : Option ℚ :=
  match msg with
  | .object members =>
    match getD members "usage" (.object []) with
    | .object usage => plus total (getD usage key (.int 0))
    | _ => some total
  | _ => some total

/-- The state of the extraction loop. -/
abbrev Scan := Segmenter Segment

/-- A segment that begins at a line. -/
def newSegment (cwd gitBranch : JsonValue) (start : ℤ) (index : ℕ) : Segment where
  segmentIndex := index
  cwd := cwd
  gitBranch := gitBranch
  startTime := start
  endTime := start

/-- The first segment opens on any meaningful entry. -/
def openFirst (now ts : ℤ) (entryType : String) (cwd gitBranch : JsonValue) (s : Scan) : Scan :=
  if s.current.isNone ∧ (entryType = "user" ∨ entryType = "assistant" ∨ entryType = "system") then
    s.openNext (newSegment (if truthy cwd then cwd else .string "") gitBranch
      (if ts ≠ 0 then ts else now))
  else s

/-- The task boundary on user messages. Without content the open segment is replaced. -/
def boundary (ts : ℤ) (entryType : String) (cwd gitBranch : JsonValue) (s : Scan) : Scan :=
  if entryType = "user" ∧ 0 < s.lastUserMs ∧ 0 < ts ∧
      (taskGapMs < ts - s.lastUserMs ∨ maxSegmentChars < s.currentChars) then
    let lastCwd := (s.current.map Segment.cwd).getD (.string "")
    let lastBranch := (s.current.map Segment.gitBranch).getD .null
    let s := (s.close Segment.hasContent).openNext
      (newSegment (if truthy cwd then cwd else lastCwd)
        (if truthy gitBranch then gitBranch else lastBranch) ts)
    s.setChars 0
  else s

/-- What every entry inside a segment updates. -/
def seen (ts : ℤ) (cwd : JsonValue) (s : Scan) : Scan :=
  s.modify fun seg => { seg with
    endTime := if 0 < ts then max seg.endTime ts else seg.endTime
    messageCount := seg.messageCount + 1
    cwd := if truthy cwd then cwd else seg.cwd }

/-- The prompt and the tokens of a `user` entry. -/
def userAdds (entry : List (String × JsonValue)) : Option (Option String × ℚ) := do
  let msg := getD entry "message" (getD entry "content" (.string ""))
  let text ← extractUserText msg
  let tokens ← addTokens msg "input_tokens" 0
  some (text.map (takeChars 500), tokens)

def user (ts : ℤ) (entry : List (String × JsonValue)) (s : Scan) : Option Scan :=
  (userAdds entry).map fun added =>
    let s := if 0 < ts then s.setUserMs ts else s
    (s.addChars (charTotal added.1.toList)).modify fun seg => { seg with
      userPrompts := seg.userPrompts ++ added.1.toList
      tokenCount := seg.tokenCount + added.2 }

/-- `sum(len(t.get("summary", "")) for t in tools)`. -/
def summaryTotal : List Tool → Option ℕ
  | [] => some 0
  | tool :: rest => do
    let n ← len tool.summary
    let m ← summaryTotal rest
    some (n + m)

/-- What an `assistant` entry adds. -/
structure Answer where
  texts : List String := []
  tools : List Tool := []
  chars : ℕ := 0
  tokens : ℚ := 0

/-- The content of an `assistant` entry; a message that is no `dict` is passed over. -/
def assistantAdds (py : PythonLibrary) (entry : List (String × JsonValue)) : Option Answer :=
  let msg := getD entry "message" (.object [])
  match msg with
  | .object members => do
    let (texts, tools) ← assistantBlocks py (((getD members "content" (.array [])).asArray).getD [])
    let summaries ← summaryTotal tools
    let tokens ← addTokens msg "output_tokens" 0
    some { texts, tools, chars := charTotal texts + summaries, tokens }
  | _ => some {}

def assistant (py : PythonLibrary) (entry : List (String × JsonValue)) (s : Scan) :
    Option Scan :=
  (assistantAdds py entry).map fun added =>
    (s.addChars added.chars).modify fun seg => { seg with
      assistantTexts := seg.assistantTexts ++ added.texts
      toolCalls := seg.toolCalls ++ added.tools
      tokenCount := seg.tokenCount + added.tokens }

/-- One JSON object of the transcript. -/
def entryStep (py : PythonLibrary) (now : ℤ) (entry : List (String × JsonValue)) (s : Scan) :
    Option Scan :=
  let entryType := (JsonValue.object entry).getStr "type"
  if entryType ∈ ["file-history-snapshot", "progress", "queue-operation", "last-prompt"] then
    some s
  else
    let ts := parseTimestamp py (getD entry "timestamp" (.string ""))
    let cwd := getD entry "cwd" (.string "")
    let gitBranch := getD entry "gitBranch" .null
    let s := openFirst now ts entryType cwd gitBranch s
    if s.current.isNone then some s
    else
      let s := seen ts cwd (boundary ts entryType cwd gitBranch s)
      if entryType = "user" then user ts entry s
      else if entryType = "assistant" then assistant py entry s
      else some s

/-- One line of the transcript; only an object has `get`. -/
def step (py : PythonLibrary) (now : ℤ) (s : Scan) (line : String) : Option Scan :=
  match py.loads line with
  | .decodeError => some s
  | .raised => none
  | .value v => (dict v).bind fun entry => entryStep py now entry s

/-- The loop over the lines. -/
def scanLines (py : PythonLibrary) (now : ℤ) : List String → Option Scan :=
  List.foldlM (step py now) {}

/-- `extract_segments`; `none` when it raises. -/
def extractSegments (py : PythonLibrary) (now : ℤ) (lines : List String) : Option (List Segment) :=
  (scanLines py now lines).map fun s => s.finish Segment.hasContent

end Hippo.BrainClaude
