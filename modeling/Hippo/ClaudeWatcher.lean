import Hippo.ClaudeVerification
import Hippo.FileVersions
import Hippo.Transition

/-!
# The watcher of a Claude session file

A call of `process_file` looks at the file's metadata and, unless the file seems read, starts a
blocking task that extracts, ingests and saves the offset. The call waits for its task or times
out; a task that is left behind goes on. Other processes write the file at any time.
-/
namespace Hippo.ClaudeWatcher
open Claude

/-- What tells two files at one path apart. -/
structure FileId where
  inode : ℕ
  device : ℕ
  deriving DecidableEq

/-- The session file, byte by byte. -/
abbrev SessionLog := FileVersion FileId UInt8

section Reading

/-- The end of a line that ends in `\r\n`. -/
def stripCr (line : List UInt8) : List UInt8 :=
  if line.getLast? = some 13 then line.dropLast else line

/-- The lines after the bytes `cur` of the current line. A last line without `\n` counts. -/
def linesAfter (cur : List UInt8) : List UInt8 → List (List UInt8)
  | [] => if cur = [] then [] else [cur]
  | b :: bs => if b = 10 then stripCr cur :: linesAfter [] bs else linesAfter (cur ++ [b]) bs

/-- `BufRead::lines` without the lines that are not UTF-8. -/
def readLines (content : List UInt8) : List String :=
  (linesAfter [] content).filterMap fun line => String.fromUTF8? ⟨line.toArray⟩

end Reading

/-- What `std::fs::metadata` says about the file. -/
structure Metadata where
  len : ℕ
  ino : ℕ
  dev : ℕ

def metadata (log : SessionLog) : Metadata := ⟨log.size, log.id.inode, log.id.device⟩

/-- Per-file tracking state. A task is known by its token. -/
structure FileState where
  byteOffset : ℕ := 0
  inode : ℕ := 0
  device : ℕ := 0
  sizeAtLastRead : ℕ := 0
  cooldownUntil : Option ℤ := none
  inFlight : Option ℕ := none
  metaChanged : Bool := false
  lastIngestMs : ℤ := 0

/-- A row of `agentic_session_offsets`. -/
structure SavedOffset where
  byteOffset : ℕ
  inode : ℕ
  device : ℕ
  sizeAtLastRead : ℕ
  updatedAt : ℤ

/-- `load_offsets`, for the row of the file. -/
def loadOffsets : Option SavedOffset → FileState
  | none => {}
  | some row =>
    { byteOffset := row.byteOffset
      inode := row.inode
      device := row.device
      sizeAtLastRead := row.sizeAtLastRead
      lastIngestMs := row.updatedAt }

/-- The row that `save_offset` leaves. -/
def saveOffset (state : FileState) : SavedOffset where
  byteOffset := state.byteOffset
  inode := state.inode
  device := state.device
  sizeAtLastRead := state.sizeAtLastRead
  updatedAt := state.lastIngestMs

/-- `sibling_meta_newer`: `modified` is the file time of the sibling, if it can be read. -/
def siblingMetaNewer (modified : Option ℕ) (lastIngestMs : ℤ) : Bool :=
  modified.any fun ms => lastIngestMs ≤ (min ms (2 ^ 63 - 1) : ℕ)

/-- `BACKOFF_DURATION`, in milliseconds. -/
def backoffDuration : ℤ := 60 * 1000

namespace FileState

/-- File replacement and truncation reset the offset. -/
def observe (state : FileState) (current : Metadata) : FileState :=
  let state := if state.inode ≠ 0 ∧ (current.ino ≠ state.inode ∨ current.dev ≠ state.device) then
      { state with byteOffset := 0, sizeAtLastRead := 0 }
    else state
  let state := { state with inode := current.ino, device := current.dev }
  if current.len < state.byteOffset then { state with byteOffset := 0, sizeAtLastRead := 0 }
  else state

/-- No growth since the last read. -/
def unread (state : FileState) (current : Metadata) : Bool :=
  state.sizeAtLastRead < current.len ∨ state.metaChanged

/-- Neither growth nor a newer `meta.json`: the call returns at once. -/
def upToDate (state : FileState) (current : Metadata) (modified : Option ℕ) : Bool :=
  !state.unread current && !siblingMetaNewer modified state.lastIngestMs

/-- The state in which a task is started. -/
def start (state : FileState) (current : Metadata) (token : ℕ) : FileState :=
  { state with metaChanged := state.metaChanged || !state.unread current, inFlight := some token }

/-- After a timeout or a failure: no retry before the backoff is over. -/
def backOff (state : FileState) (now : ℤ) : FileState :=
  { state with cooldownUntil := some (now + backoffDuration) }

/-- After a successful ingest. -/
def advance (state : FileState) (currentSize : ℕ) (ingestStartedMs : ℤ) : FileState :=
  { state with
    byteOffset := currentSize
    sizeAtLastRead := currentSize
    metaChanged := false
    lastIngestMs := ingestStartedMs }

end FileState

/-- The locals that a call and its task share. `seen` stands for the size, inode and device. -/
structure Observation where
  seen : SessionLog
  ingestStartedMs : ℤ

/-- The state whose offset the task saves. -/
def Observation.snapshot (o : Observation) : FileState where
  byteOffset := o.seen.size
  inode := o.seen.id.inode
  device := o.seen.id.device
  sizeAtLastRead := o.seen.size
  lastIngestMs := o.ingestStartedMs

/-- How far a blocking task is. It reads the file at some moment. -/
inductive Stage where
  | started
  | extracted (read : SessionLog) (now : ℤ)
  | ingested (read : SessionLog)

structure BlockingTask where
  observation : Observation
  stage : Stage

/-- A call that waits for its task. -/
structure PendingCall where
  token : ℕ
  observation : Observation

/-- How a call of `process_file` returns. The last two saw the file as it is given. -/
inductive Returned where
  | inFlight
  | coolingDown
  | cannotStat
  | timedOut
  | failed
  | unchanged (seen : SessionLog)
  | ingested (seen : SessionLog)
  deriving DecidableEq

/-- What a call saw that returned without an error, a timeout, a cooldown or a task in flight. -/
def Returned.seen? : Returned → Option SessionLog
  | unchanged seen => some seen
  | ingested seen => some seen
  | _ => none

/-- What happened before, which the program does not look at: the files whose sizes are recorded
in memory and in the saved row, what was read for each committed ingest (newest first), how the
last call returned, and whether the file was truncated since it was last looked at. -/
structure History where
  memoryFile : SessionLog
  savedFile : SessionLog
  ingested : List SessionLog := []
  returned : Option Returned := none
  truncated : Bool := false

structure World (H γ : Type) where
  file : SessionLog
  metaModified : Option ℕ
  memory : FileState
  saved : Option SavedOffset
  db : AgenticDb H γ
  tasks : Table ℕ BlockingTask
  call : Option PendingCall
  history : History

/-- Before the first call. -/
def World.init {H γ : Type} (file : SessionLog) (metaModified : Option ℕ) (db : AgenticDb H γ) :
    World H γ where
  file := file
  metaModified := metaModified
  memory := {}
  saved := none
  db := db
  tasks := Table.empty
  call := none
  history := { memoryFile := file, savedFile := file }

/-- What can happen next: writes to the two files, the events of the watcher, the stages of the
task with a token, and the end of the process with a restart. -/
inductive Action where
  | append (more : List UInt8)
  | truncate (n : ℕ)
  | replace (id : FileId) (content : List UInt8)
  | writeMeta (ms : ℕ)
  | metaEvent
  | processFile (now ingestStartedMs : ℤ) (statFails : Bool)
  | extract (token : ℕ) (now : ℤ)
  | commit (token : ℕ)
  | finish (token : ℕ) (saves : Bool)
  | fail (token : ℕ) (now : ℤ)
  | timeout (now : ℤ)
  | restart

namespace World

variable {H γ : Type}

/-- The file is another one, the program's state is the same. -/
def changeFile (w : World H γ) (file : SessionLog) : World H γ := { w with file := file }

/-- The task of the last call has not finished. -/
def busy (w : World H γ) : Bool := w.memory.inFlight.any fun token => (w.tasks.get? token).isSome

def coolingDown (w : World H γ) (now : ℤ) : Bool := w.memory.cooldownUntil.any fun t => now < t

/-- The call returns. -/
def returns (w : World H γ) (r : Returned) : World H γ :=
  { w with call := none, history := { w.history with returned := some r } }

/-- The call has looked at the file. -/
def looked (w : World H γ) (memory : FileState) : World H γ :=
  { w with memory := memory, history := { w.history with truncated := false } }

/-- The call starts its task and waits. -/
def spawn (w : World H γ) (ingestStartedMs : ℤ) : World H γ :=
  let token := w.tasks.nextRowid
  let observation : Observation := ⟨w.file, ingestStartedMs⟩
  { w with
    memory := w.memory.start (metadata w.file) token
    tasks := w.tasks.insert token ⟨observation, .started⟩
    call := some ⟨token, observation⟩ }

/-- `process_file` up to its wait. -/
def processFile (w : World H γ) (now ingestStartedMs : ℤ) (statFails : Bool) : World H γ :=
  if w.busy then w.returns .inFlight
  else if w.coolingDown now then
    { w with memory := { w.memory with inFlight := none } }.returns .coolingDown
  else
    let memory := { w.memory with inFlight := none, cooldownUntil := none }
    if statFails then { w with memory := memory }.returns .cannotStat
    else
      let w := w.looked (memory.observe (metadata w.file))
      if w.memory.upToDate (metadata w.file) w.metaModified then w.returns (.unchanged w.file)
      else w.spawn ingestStartedMs

/-- A task goes on to its next stage. -/
def setStage (w : World H γ) (token : ℕ) (stage : Stage) : World H γ :=
  { w with tasks := w.tasks.modify token fun t => { t with stage := stage } }

/-- A task ends; a call that waits for it gets the result. -/
def endTask (w : World H γ) (token : ℕ) (result : Observation → World H γ → World H γ) :
    World H γ :=
  let ended := { w with tasks := w.tasks.erase token }
  match w.call with
  | some c =>
    if c.token = token then
      result c.observation { ended with memory := { w.memory with inFlight := none }, call := none }
    else ended
  | none => ended

/-- The call's task has ingested the file. -/
def succeeded (o : Observation) (w : World H γ) : World H γ :=
  { w with
    memory := w.memory.advance o.seen.size o.ingestStartedMs
    history := { w.history with memoryFile := o.seen } }.returns (.ingested o.seen)

/-- The call's task could not open the database, failed to ingest, or panicked. -/
def failed (now : ℤ) (_ : Observation) (w : World H γ) : World H γ :=
  { w with memory := w.memory.backOff now }.returns .failed

/-- `save_offset` by a task. -/
def save (w : World H γ) (o : Observation) : World H γ :=
  { w with
    saved := some (saveOffset o.snapshot)
    history := { w.history with savedFile := o.seen } }

/-- A new process loads the saved offset. -/
def restart (w : World H γ) : World H γ :=
  { w with
    memory := loadOffsets w.saved
    tasks := Table.empty
    call := none
    history := { w.history with memoryFile := w.history.savedFile } }

variable [DecidableEq H]

/-- The transaction of a task. -/
def ingest (env : Rendering H) (reader : TranscriptReader) (file : Claude.SessionFile)
    (w : World H γ) (token : ℕ) (read : SessionLog) (now : ℤ) : World H γ :=
  { w with
    db := ingestSessionFile env reader now file w.db (readLines read.content)
    tasks := w.tasks.modify token fun t => { t with stage := .ingested read }
    history := { w.history with ingested := read :: w.history.ingested } }

/-- One step. Calls and events are handled one after the other. -/
def step (env : Rendering H) (reader : TranscriptReader) (file : Claude.SessionFile)
    (w : World H γ) : Action → Option (World H γ)
  | .append more => some (w.changeFile (w.file.append more))
  | .truncate n =>
    if n < w.file.size then
      let w := w.changeFile (w.file.truncate n)
      some { w with history := { w.history with truncated := true } }
    else none
  | .replace id content =>
    if id = w.file.id then none else some (w.changeFile (w.file.replace id content))
  | .writeMeta ms => some { w with metaModified := some ms }
  | .metaEvent =>
    if w.call.isSome then none else some { w with memory := { w.memory with metaChanged := true } }
  | .processFile now ingestStartedMs statFails =>
    if w.call.isSome then none else some (w.processFile now ingestStartedMs statFails)
  | .extract token now =>
    match (w.tasks.get? token).map BlockingTask.stage with
    | some .started => some (w.setStage token (.extracted w.file now))
    | _ => none
  | .commit token =>
    match (w.tasks.get? token).map BlockingTask.stage with
    | some (.extracted read now) => some (w.ingest env reader file token read now)
    | _ => none
  | .finish token saves =>
    match w.tasks.get? token with
    | some ⟨observation, .ingested _⟩ =>
      let w := if saves then w.save observation else w
      some (w.endTask token succeeded)
    | _ => none
  | .fail token now =>
    if (w.tasks.get? token).isSome then some (w.endTask token (failed now)) else none
  | .timeout now =>
    if w.call.isSome then some ({ w with memory := w.memory.backOff now }.returns .timedOut)
    else none
  | .restart => some w.restart

end World

end Hippo.ClaudeWatcher
