import Hippo.FinishedSegments
import Hippo.FallbackFiles
import Hippo.Transition

/-!
# The pollers of session files

The Codex, Cursor and Pi pollers walk their roots once a tick and ingest every file that is idle
and newer than its cursor. A tick is taken apart into the look at a file's metadata and the read
and ingest after it; the sessions write their files at any time in between.
-/
namespace Hippo.SessionPolling

open Transition

variable {H γ : Type}

/-- The columns of a segment's row that its harness does not give. -/
def segmentKey (seg : SessionSegment) : String × ℤ := (seg.sessionId, seg.segmentIndex)

/-- What the three pollers differ in. -/
structure Poller (H : Type) where
  harness : Harness
  /-- The paths the walk does not pass over. -/
  isTranscript : String → Bool
  /-- `extract_segments` of a path, a file time and a content. It fails on what it cannot read. -/
  extract : String → ℤ → List UInt8 → Option (List SessionSegment)
  upsert : SessionSegment → Upsert H
  /-- The cursor's `last_id` is not the identity that the path gives. -/
  identityDrift : String → String → Bool
  minIdle : ℤ
  extract_keys : ∀ {path mtime content segments}, extract path mtime content = some segments →
    (segments.map segmentKey).Nodup
  upsert_new : ∀ seg, (upsert seg).new.sessionId = seg.sessionId ∧
    (upsert seg).new.segmentIndex = seg.segmentIndex ∧ (upsert seg).new.harness = harness
  upsert_refresh : ∀ seg r, ((upsert seg).refresh r).sessionId = r.sessionId ∧
    ((upsert seg).refresh r).segmentIndex = r.segmentIndex

section Sources

/-- Segments of one session under their positions have different keys. -/
theorem nodup_segmentKey {segments : List SessionSegment} (h : Positioned segments) :
    (segments.map segmentKey).Nodup := by
  have hindex : (segments.map SessionSegment.segmentIndex).Nodup := by
    rw [h]
    exact List.nodup_range.map fun _ _ hij => Int.ofNat.inj hij
  refine List.Nodup.of_map Prod.snd ?_
  rw [List.map_map]
  exact hindex

/-- The last component of a path. -/
def fileName (path : String) : List Char := (path.toList.reverse.takeWhile (· ≠ '/')).reverse

/-- `path.extension() == "jsonl"`. -/
def isJsonl (path : String) : Bool :=
  ".jsonl".toList.isSuffixOf (fileName path) && 6 < (fileName path).length

def components (path : String) : List (List Char) := path.toList.splitOn '/'

/-- `std::fs::read_to_string` and `str::lines`. -/
def readLines (content : List UInt8) : Option (List String) :=
  (String.fromUTF8? ⟨content.toArray⟩).map fun text =>
    (lines text.toList).map String.ofList

variable (env : Rendering H) (reader : TranscriptReader) (minIdleSecs : ℕ)

/-- The Codex poller. `pathSessionId` is `rollout_path_session_id`, `rollout` what else the
extractor reads off a path. -/
def codexPoller (pathSessionId : String → Option String) (rollout : String → Codex.RolloutPath) :
    Poller H where
  harness := .codex
  isTranscript path := isJsonl path && "rollout-".toList.isPrefixOf (fileName path)
  extract path _ content := (readLines content).map (Codex.extractSegments reader (rollout path))
  upsert := codexUpsert env
  identityDrift path lastId :=
    (pathSessionId path).any fun expected => !lastId.isEmpty && lastId ≠ expected
  minIdle := minIdleSecs * 1000
  extract_keys h := by
    obtain ⟨lines, -, rfl⟩ := Option.map_eq_some_iff.mp h
    exact nodup_segmentKey (Codex.extractSegments_positioned reader lines _)
  upsert_new _ := ⟨rfl, rfl, rfl⟩
  upsert_refresh _ _ := ⟨rfl, rfl⟩

/-- The Cursor poller. `identity` is what the extractor reads off a path. -/
def cursorPoller (identity : String → Cursor.PathIdentity) : Poller H where
  harness := .cursor
  isTranscript path := isJsonl path && (components path).contains "agent-transcripts".toList
  extract path mtime content :=
    (readLines content).map (Cursor.extractSegments reader (identity path) mtime)
  upsert := cursorUpsert env
  identityDrift _ _ := false
  minIdle := minIdleSecs * 1000
  extract_keys h := by
    obtain ⟨lines, -, rfl⟩ := Option.map_eq_some_iff.mp h
    exact nodup_segmentKey (Cursor.extractSegments_positioned reader lines _ _)
  upsert_new _ := ⟨rfl, rfl, rfl⟩
  upsert_refresh _ _ := ⟨rfl, rfl⟩

/-- The Pi poller. -/
def piPoller (transcript : String → Pi.TranscriptPath) : Poller H where
  harness := .pi
  isTranscript := isJsonl
  extract path mtime content :=
    (readLines content).map (Pi.extractSegments reader (transcript path) mtime)
  upsert := piUpsert env
  identityDrift _ _ := false
  minIdle := minIdleSecs * 1000
  extract_keys h := by
    obtain ⟨lines, -, rfl⟩ := Option.map_eq_some_iff.mp h
    exact nodup_segmentKey (Pi.extractSegments_positioned reader lines _ _)
  upsert_new _ := ⟨rfl, rfl, rfl⟩
  upsert_refresh _ _ := ⟨rfl, rfl⟩

end Sources

/-- A session file under its inode. `writes` counts its writes. -/
structure File where
  path : String
  content : List UInt8
  mtime : ℤ
  writes : ℕ

/-- A row of `agentic_cursor`. -/
structure Cursor where
  lastSeen : ℤ
  lastId : String

/-- A file that the tick is about to read, as its metadata described it. -/
structure Visit where
  inode : ℕ
  path : String
  mtime : ℤ
  writes : ℕ

structure World (H γ : Type) where
  clock : ℤ
  files : Table ℕ File
  db : AgenticDb H γ
  cursors : Table ℕ Cursor
  /-- The `now_ms` of the tick under way. -/
  tick : Option ℤ
  visit : Option Visit

/-- `read_cursor`, with its default. -/
def readCursor (cursors : Table ℕ Cursor) (inode : ℕ) : Cursor :=
  (cursors.get? inode).getD ⟨0, ""⟩

variable [DecidableEq H] (p : Poller H)

/-- Why a tick passes over a file. -/
def passes (now : ℤ) (f : File) (cursor : Cursor) : Bool :=
  !p.isTranscript f.path || now - f.mtime < p.minIdle ||
    (f.mtime ≤ cursor.lastSeen && !p.identityDrift f.path cursor.lastId)

/-- The transaction of `ingest_file`, and the session id it returns. -/
def ingestFile (db : AgenticDb H γ) (v : Visit) (content : List UInt8) :
    Option (AgenticDb H γ × String) :=
  (p.extract v.path v.mtime content).map fun segments =>
    (segments.foldl (fun db seg => (p.upsert seg).apply db) db,
      (segments.head?.map fun seg => seg.sessionId).getD "")

inductive Act where
  | wait (ms : ℕ)
  /-- A new file. Its inode has not been used before. -/
  | create (inode : ℕ) (path : String) (content : List UInt8)
  | write (inode : ℕ) (content : List UInt8)
  | move (inode : ℕ) (path : String)
  | remove (inode : ℕ)
  | tickStart
  | look (inode : ℕ)
  /-- The read, the ingest and, unless it fails, the write of the cursor. -/
  | ingest (content : Option (List UInt8)) (saved : Bool)
  /-- The tick ends, or its process is killed. -/
  | tickEnd

/-- The read of an unchanged file returns its content, or fails. -/
def mayRead (w : World H γ) (v : Visit) (content : Option (List UInt8)) : Prop :=
  ∀ f, w.files.get? v.inode = some f → f.writes = v.writes →
    content = none ∨ content = some f.content

instance (w : World H γ) (v : Visit) (content : Option (List UInt8)) :
    Decidable (mayRead w v content) := by
  unfold mayRead
  cases w.files.get? v.inode with
  | none => exact .isTrue (by simp)
  | some f =>
    exact decidable_of_iff (f.writes = v.writes → content = none ∨ content = some f.content)
      (by simp)

def ingest (w : World H γ) (v : Visit) (content : Option (List UInt8)) (saved : Bool) :
    World H γ :=
  match content.bind (ingestFile p w.db v) with
  | none => { w with visit := none }
  | some (db, sessionId) =>
    { w with
      db := db
      cursors := if saved then w.cursors.put v.inode ⟨v.mtime, sessionId⟩ else w.cursors
      visit := none }

def step (w : World H γ) : Act → Option (World H γ)
  | .wait ms => some { w with clock := w.clock + ms }
  | .create inode path content =>
    if w.files.get? inode = none ∧ w.cursors.get? inode = none ∧ ∀ v ∈ w.visit, v.inode ≠ inode then
      some { w with files := w.files.put inode ⟨path, content, w.clock, 0⟩ }
    else none
  | .write inode content =>
    (w.files.get? inode).map fun f =>
      { w with files := w.files.put inode ⟨f.path, content, w.clock, f.writes + 1⟩ }
  | .move inode path =>
    (w.files.get? inode).map fun f => { w with files := w.files.put inode { f with path := path } }
  | .remove inode => some { w with files := w.files.erase inode }
  | .tickStart => if w.tick = none then some { w with tick := some w.clock } else none
  | .look inode =>
    match w.tick, w.visit, w.files.get? inode with
    | some now, none, some f =>
      if passes p now f (readCursor w.cursors inode) then some w
      else some { w with visit := some ⟨inode, f.path, f.mtime, f.writes⟩ }
    | _, _, _ => none
  | .ingest content saved =>
    match w.visit with
    | some v => if mayRead w v content then some (ingest p w v content saved) else none
    | none => none
  | .tickEnd => some { w with tick := none, visit := none }

end Hippo.SessionPolling
