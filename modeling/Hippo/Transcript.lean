import Hippo.AgenticSessions
import Hippo.Segmenter

/-!
# Transcripts and what the extractors share

A transcript is the list of its complete lines. The JSON parser and printer, the timestamp
parser and the redaction engine are parameters of the extractors.
-/
namespace Hippo

/-- A JSON value as `serde_json` decodes it. An object lists each key once, in key order. -/
inductive JsonValue where
  | null
  | bool (b : Bool)
  | int (n : ℤ)
  | float (x : ℚ)
  | string (s : String)
  | array (items : List JsonValue)
  | object (members : List (String × JsonValue))

namespace JsonValue

/-- `Value::get` with a key: only an object has members. -/
def get (v : JsonValue) (key : String) : Option JsonValue :=
  match v with
  | object members => members.lookup key
  | _ => none

def asStr : JsonValue → Option String
  | string s => some s
  | _ => none

/-- `as_i64`: an integer literal in the range of `i64`. -/
def asI64 : JsonValue → Option ℤ
  | int n => if -2 ^ 63 ≤ n ∧ n < 2 ^ 63 then some n else none
  | _ => none

def asArray : JsonValue → Option (List JsonValue)
  | array items => some items
  | _ => none

def asObject : JsonValue → Option (List (String × JsonValue))
  | object members => some members
  | _ => none

/-- `get(key).and_then(|v| v.as_str())`. -/
def getStr? (v : JsonValue) (key : String) : Option String := (v.get key).bind asStr

def getStr (v : JsonValue) (key : String) : String := (v.getStr? key).getD ""

end JsonValue

namespace RustText

/-- `char::is_whitespace`. -/
def isWhitespace (c : Char) : Bool :=
  let n := c.toNat
  (9 ≤ n ∧ n ≤ 13) ∨ n = 32 ∨ n = 0x85 ∨ n = 0xA0 ∨ n = 0x1680 ∨ (0x2000 ≤ n ∧ n ≤ 0x200A) ∨
    n = 0x2028 ∨ n = 0x2029 ∨ n = 0x202F ∨ n = 0x205F ∨ n = 0x3000

def trimList (s : List Char) : List Char :=
  ((s.dropWhile isWhitespace).reverse.dropWhile isWhitespace).reverse

/-- `str::trim`. -/
def trim (s : String) : String := String.ofList (trimList s.toList)

/-- `s.chars().take(n).collect()`. -/
def takeChars (n : ℕ) (s : String) : String := String.ofList (s.toList.take n)

/-- The position where the last occurrence of a pattern begins (`rfind`). -/
def rfind? (pattern s : List Char) : Option ℕ :=
  (List.range (s.length + 1)).reverse.find? fun i => pattern.isPrefixOf (s.drop i)

/-- The position where the first occurrence of a pattern begins (`find`). -/
def find? (pattern s : List Char) : Option ℕ :=
  (List.range (s.length + 1)).find? fun i => pattern.isPrefixOf (s.drop i)

end RustText

/-- What the extractors call outside their modules. -/
structure TranscriptReader where
  parseJson : String → Option JsonValue
  render : JsonValue → String
  parseRfc3339 : String → Option ℤ
  parseUtc : String → Option ℤ
  redact : String → String

namespace TranscriptReader

/-- The JSON value of each line that has one; blank lines and corrupt lines are skipped. -/
def entries (reader : TranscriptReader) (lines : List String) : List JsonValue :=
  lines.filterMap fun line =>
    let line := RustText.trim line
    if line.isEmpty then none else reader.parseJson line

theorem entries_append (reader : TranscriptReader) (a b : List String) :
    reader.entries (a ++ b) = reader.entries a ++ reader.entries b :=
  List.filterMap_append

/-- `parse_ts`: epoch milliseconds, `0` on any failure. -/
def parseTs (reader : TranscriptReader) (ts : String) : ℤ :=
  if ts.isEmpty then 0 else (reader.parseRfc3339 ts).getD 0

/-- `tool_summary` over the keys of a harness: the most informative argument, else the first
non-empty string, else the printed arguments. -/
def toolSummary (keys : List String) (arguments : JsonValue) (printed : String) : String :=
  let members := arguments.asObject.getD []
  match keys.findSome? fun key => (members.lookup key).bind JsonValue.asStr with
  | some s => RustText.takeChars 120 s
  | none =>
    match members.findSome? fun m => m.2.asStr.filter fun s => !s.isEmpty with
    | some s => RustText.takeChars 80 s
    | none => RustText.takeChars 80 printed

end TranscriptReader

/-- 5-minute gap between user prompts marks a task boundary. -/
def taskGapMs : ℤ := 5 * 60 * 1000

/-- Accumulated size before a new segment is forced. -/
def maxSegmentChars : ℕ := 12000

/-- A segment as an extractor builds it. The identity columns are the same for all segments of
a file and are attached at the end. -/
structure TranscriptSegment where
  segmentIndex : ℤ
  cwd : String
  startTime : ℤ
  endTime : ℤ
  userPrompts : List String := []
  assistantTexts : List String := []
  toolCalls : List ToolCall := []
  messageCount : ℤ := 0
deriving DecidableEq, Repr

namespace TranscriptSegment

def hasContent (seg : TranscriptSegment) : Bool :=
  !seg.userPrompts.isEmpty || !seg.toolCalls.isEmpty || !seg.assistantTexts.isEmpty

/-- `if ts > 0 { seg.end_time = seg.end_time.max(ts) }`. -/
def touch (ts : ℤ) (seg : TranscriptSegment) : TranscriptSegment :=
  if 0 < ts then { seg with endTime := max seg.endTime ts } else seg

def countMessage (seg : TranscriptSegment) : TranscriptSegment :=
  { seg with messageCount := seg.messageCount + 1 }

def addPrompts (texts : List String) (seg : TranscriptSegment) : TranscriptSegment :=
  { seg with userPrompts := seg.userPrompts ++ texts }

def addTexts (texts : List String) (seg : TranscriptSegment) : TranscriptSegment :=
  { seg with assistantTexts := seg.assistantTexts ++ texts }

def addCalls (calls : List ToolCall) (seg : TranscriptSegment) : TranscriptSegment :=
  { seg with toolCalls := seg.toolCalls ++ calls }

/-- The segment with its identity columns. -/
def toSession (sessionId sourceFile : String) (seg : TranscriptSegment) : SessionSegment where
  sessionId := sessionId
  segmentIndex := seg.segmentIndex
  cwd := seg.cwd
  gitBranch := none
  sourceFile := sourceFile
  toolCalls := seg.toolCalls
  userPrompts := seg.userPrompts
  assistantTexts := seg.assistantTexts
  messageCount := seg.messageCount
  startTime := seg.startTime
  endTime := seg.endTime

@[simp] theorem touch_segmentIndex (ts : ℤ) (seg : TranscriptSegment) :
    (seg.touch ts).segmentIndex = seg.segmentIndex := by
  unfold touch
  split <;> rfl

@[simp] theorem touch_startTime (ts : ℤ) (seg : TranscriptSegment) :
    (seg.touch ts).startTime = seg.startTime := by
  unfold touch
  split <;> rfl

@[simp] theorem touch_userPrompts (ts : ℤ) (seg : TranscriptSegment) :
    (seg.touch ts).userPrompts = seg.userPrompts := by
  unfold touch
  split <;> rfl

@[simp] theorem touch_assistantTexts (ts : ℤ) (seg : TranscriptSegment) :
    (seg.touch ts).assistantTexts = seg.assistantTexts := by
  unfold touch
  split <;> rfl

@[simp] theorem touch_toolCalls (ts : ℤ) (seg : TranscriptSegment) :
    (seg.touch ts).toolCalls = seg.toolCalls := by
  unfold touch
  split <;> rfl

@[simp] theorem countMessage_segmentIndex (seg : TranscriptSegment) :
    seg.countMessage.segmentIndex = seg.segmentIndex := rfl

@[simp] theorem addPrompts_segmentIndex (texts : List String) (seg : TranscriptSegment) :
    (seg.addPrompts texts).segmentIndex = seg.segmentIndex := rfl

@[simp] theorem addTexts_segmentIndex (texts : List String) (seg : TranscriptSegment) :
    (seg.addTexts texts).segmentIndex = seg.segmentIndex := rfl

@[simp] theorem addCalls_segmentIndex (calls : List ToolCall) (seg : TranscriptSegment) :
    (seg.addCalls calls).segmentIndex = seg.segmentIndex := rfl

end TranscriptSegment

/-- What a finished segment keeps when its file grows. -/
structure FinishedContent where
  segmentIndex : ℤ
  startTime : ℤ
  userPrompts : List String
  assistantTexts : List String
  toolCalls : List ToolCall
deriving DecidableEq, Repr

def TranscriptSegment.finished (seg : TranscriptSegment) : FinishedContent where
  segmentIndex := seg.segmentIndex
  startTime := seg.startTime
  userPrompts := seg.userPrompts
  assistantTexts := seg.assistantTexts
  toolCalls := seg.toolCalls

def SessionSegment.finished (seg : SessionSegment) : FinishedContent where
  segmentIndex := seg.segmentIndex
  startTime := seg.startTime
  userPrompts := seg.userPrompts
  assistantTexts := seg.assistantTexts
  toolCalls := seg.toolCalls

@[simp] theorem finished_toSession (sessionId sourceFile : String) (seg : TranscriptSegment) :
    (seg.toSession sessionId sourceFile).finished = seg.finished := rfl

def FinishedContent.hasContent (c : FinishedContent) : Bool :=
  !c.userPrompts.isEmpty || !c.toolCalls.isEmpty || !c.assistantTexts.isEmpty

/-- The content without its start time. -/
def FinishedContent.untimed (c : FinishedContent) : FinishedContent := { c with startTime := 0 }

/-- The characters of some texts. -/
def charTotal (texts : List String) : ℕ := (texts.map String.length).sum

end Hippo
