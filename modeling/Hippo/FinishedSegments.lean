import Hippo.CodexSession
import Hippo.CursorSession
import Hippo.PiSession

/-!
# Finished segments when a transcript grows

Two extractions of one file are compared: of its lines, and of its lines with more appended.
The file's `mtime` may be another one at the second extraction.
-/
namespace Hippo

/-- All segments but the last are found again, at their places, up to what `view` shows. -/
def KeepsFinished {τ : Type} (view : SessionSegment → τ) (before after : List SessionSegment) :
    Prop :=
  (before.map view).dropLast <+: after.map view

/-- Every `segment_index` is the position of its segment. -/
def Positioned (segments : List SessionSegment) : Prop :=
  segments.map SessionSegment.segmentIndex = (List.range segments.length).map Int.ofNat

section Views

variable {H : Type} {before after : List SessionSegment}

/-- What the finished content determines is found again as well. -/
theorem KeepsFinished.comp {τ ρ : Type} {view : SessionSegment → τ}
    (h : KeepsFinished view before after) (f : τ → ρ) :
    KeepsFinished (fun seg => f (view seg)) before after := by
  have hmap := List.IsPrefix.map f h
  rw [List.map_dropLast, List.map_map, List.map_map] at hmap
  exact hmap

theorem positioned_of_finished {segments : List TranscriptSegment} {keep : TranscriptSegment → Bool}
    {out : Segmenter TranscriptSegment} (hout : out.Numbered TranscriptSegment.segmentIndex)
    (hsegments : segments = out.finish keep) {sessions : List SessionSegment}
    (h : sessions.map SessionSegment.finished = segments.map TranscriptSegment.finished) :
    Positioned sessions := by
  have hlength : sessions.length = segments.length := by simpa using congrArg List.length h
  have hindex : sessions.map SessionSegment.segmentIndex =
      segments.map TranscriptSegment.segmentIndex := by
    have hmap := congrArg (List.map FinishedContent.segmentIndex) h
    rw [List.map_map, List.map_map] at hmap
    exact hmap
  rw [Positioned, hindex, hlength, hsegments]
  exact hout.finish keep

end Views

section Extractors

variable {H : Type} (reader : TranscriptReader) (lines more : List String)

theorem Codex.extractSegments_keeps (file : Codex.RolloutPath) :
    KeepsFinished SessionSegment.finished (Codex.extractSegments reader file lines)
      (Codex.extractSegments reader file (lines ++ more)) := by
  have hgrow := Segmenter.extends_foldl Codex.Scan.out
    (fun s obj => s.step_extends reader file obj) (reader.entries more)
    ((reader.entries lines).foldl (Codex.Scan.step reader file) {})
  have hkeeps := (Segmenter.Alike.refl TranscriptSegment.finished _).finish_extends hgrow
    TranscriptSegment.hasContent FinishedContent.hasContent fun _ => rfl
  rw [← List.foldl_append, ← TranscriptReader.entries_append] at hkeeps
  simpa [KeepsFinished, Codex.extractSegments, Function.comp_def] using hkeeps

theorem Codex.extractSegments_positioned (file : Codex.RolloutPath) :
    Positioned (Codex.extractSegments reader file lines) := by
  have hnumbered := Segmenter.numbered_foldl Codex.Scan.out
    (fun s obj h => Codex.Scan.step_numbered reader file obj h) (reader.entries lines) {}
    Segmenter.numbered_empty
  apply positioned_of_finished hnumbered rfl
  rw [Codex.extractSegments, List.map_map]
  rfl

theorem Cursor.extractSegments_keeps (id : Cursor.PathIdentity) (mtime mtime' : ℤ) :
    KeepsFinished (fun seg => seg.finished.untimed)
      (Cursor.extractSegments reader id mtime lines)
      (Cursor.extractSegments reader id mtime' (lines ++ more)) := by
  have halike : (Cursor.scanLines reader id mtime lines).out.Alike Cursor.Scan.content
      (Cursor.scanLines reader id mtime' lines).out :=
    Segmenter.alike_foldl Cursor.Scan.out (fun s t obj _ h =>
      Cursor.Scan.step_alike reader id mtime mtime' obj h) (Segmenter.Alike.refl _ _)
  have hgrow := Segmenter.extends_foldl Cursor.Scan.out
    (fun s obj => Cursor.Scan.step_extends reader id mtime' s obj) (reader.entries more)
    (Cursor.scanLines reader id mtime' lines)
  have hkeeps := halike.finish_extends hgrow TranscriptSegment.hasContent
    FinishedContent.hasContent fun _ => rfl
  have hview : ∀ m l, (Cursor.extractSegments reader id m l).map
      (fun seg => seg.finished.untimed) = ((Cursor.scanLines reader id m l).out.finish
        TranscriptSegment.hasContent).map Cursor.Scan.content := by
    intro m l
    have hfinished := congrArg (List.map FinishedContent.untimed)
      (Cursor.finished_extractSegments reader id m l)
    rw [List.map_map, List.map_map] at hfinished
    exact hfinished
  rw [KeepsFinished, hview, hview, Cursor.scanLines_append]
  exact hkeeps

theorem Cursor.extractSegments_positioned (id : Cursor.PathIdentity) (mtime : ℤ) :
    Positioned (Cursor.extractSegments reader id mtime lines) := by
  have hnumbered := Segmenter.numbered_foldl Cursor.Scan.out
    (fun s obj h => Cursor.Scan.step_numbered reader id mtime obj h) (reader.entries lines) {}
    Segmenter.numbered_empty
  exact positioned_of_finished hnumbered rfl (Cursor.finished_extractSegments reader id mtime lines)

theorem Cursor.extractSegments_stamped (id : Cursor.PathIdentity) (mtime : ℤ) :
    ∀ seg ∈ Cursor.extractSegments reader id mtime lines, seg.startTime = mtime := by
  have hstamped := Segmenter.all_foldl Cursor.Scan.out
    (fun s obj h => Cursor.Scan.step_stamped reader id mtime obj h) (reader.entries lines) {}
    Segmenter.all_empty
  intro seg hseg
  have hfinished := List.mem_map_of_mem (f := SessionSegment.finished) hseg
  rw [Cursor.finished_extractSegments] at hfinished
  obtain ⟨a, ha, heq⟩ := List.mem_map.mp hfinished
  have hstart : a.startTime = seg.startTime := congrArg FinishedContent.startTime heq
  rw [← hstart]
  exact hstamped.finish ha

theorem Pi.extractSegments_keeps (file : Pi.TranscriptPath) (mtime mtime' : ℤ)
    (htime : mtime = mtime' ∨ ∀ obj ∈ reader.entries lines, Pi.TimedPrompt reader obj) :
    KeepsFinished SessionSegment.finished (Pi.extractSegments reader file mtime lines)
      (Pi.extractSegments reader file mtime' (lines ++ more)) := by
  obtain ⟨cwd, hbefore⟩ := Pi.finished_extractSegments reader mtime lines file
  obtain ⟨cwd', hafter⟩ := Pi.finished_extractSegments reader mtime' (lines ++ more) file
  have hstep : ∀ s t : Pi.Scan, ∀ obj ∈ reader.entries lines,
      s.Alike TranscriptSegment.finished t →
      (Pi.Scan.step reader cwd mtime s obj).Alike TranscriptSegment.finished
        (Pi.Scan.step reader cwd' mtime' t obj) := by
    intro s t obj hobj h
    apply Pi.Scan.step_alike reader cwd cwd' mtime mtime' _ h
    exact htime.imp_right fun htimed => htimed obj hobj
  have halike : (Pi.scanLines reader cwd mtime lines).Alike TranscriptSegment.finished
      (Pi.scanLines reader cwd' mtime' lines) :=
    Segmenter.alike_foldl id hstep (Segmenter.Alike.refl _ _)
  have hgrow := Segmenter.extends_foldl id
    (fun s obj => Pi.Scan.step_extends reader cwd' mtime' s obj) (reader.entries more)
    (Pi.scanLines reader cwd' mtime' lines)
  rw [KeepsFinished, hbefore, hafter, Pi.scanLines_append]
  exact halike.finish_extends hgrow TranscriptSegment.hasContent FinishedContent.hasContent
    fun _ => rfl

theorem Pi.extractSegments_positioned (file : Pi.TranscriptPath) (mtime : ℤ) :
    Positioned (Pi.extractSegments reader file mtime lines) := by
  obtain ⟨cwd, hfinished⟩ := Pi.finished_extractSegments reader mtime lines file
  have hnumbered := Segmenter.numbered_foldl id
    (fun s obj h => Pi.Scan.step_numbered reader cwd mtime obj h) (reader.entries lines) {}
    Segmenter.numbered_empty
  exact positioned_of_finished hnumbered rfl hfinished

/-- **Finished segments are stable.** The second extraction, of a longer file and at any `mtime`,
keeps every segment but the last of the first one: Codex with its start time; Cursor without it,
because it is the `mtime` of the extraction; Pi with it, as long as the `mtime` did not move or
every line that can open or split a segment carries its own time. Segments are numbered without
gaps in every extraction. -/
theorem finished_segments_stable (env : Rendering H) (rollout : Codex.RolloutPath)
    (cursorPath : Cursor.PathIdentity) (piPath : Pi.TranscriptPath) (mtime mtime' : ℤ) :
    (KeepsFinished SessionSegment.finished (Codex.extractSegments reader rollout lines)
        (Codex.extractSegments reader rollout (lines ++ more)) ∧
      KeepsFinished (SessionSegment.contentHash env) (Codex.extractSegments reader rollout lines)
        (Codex.extractSegments reader rollout (lines ++ more)) ∧
      Positioned (Codex.extractSegments reader rollout lines)) ∧
    (KeepsFinished (fun seg => seg.finished.untimed)
        (Cursor.extractSegments reader cursorPath mtime lines)
        (Cursor.extractSegments reader cursorPath mtime' (lines ++ more)) ∧
      KeepsFinished (SessionSegment.contentHash env)
        (Cursor.extractSegments reader cursorPath mtime lines)
        (Cursor.extractSegments reader cursorPath mtime' (lines ++ more)) ∧
      (∀ seg ∈ Cursor.extractSegments reader cursorPath mtime lines, seg.startTime = mtime) ∧
      Positioned (Cursor.extractSegments reader cursorPath mtime lines)) ∧
    ((mtime = mtime' ∨ ∀ obj ∈ reader.entries lines, Pi.TimedPrompt reader obj) →
      KeepsFinished SessionSegment.finished (Pi.extractSegments reader piPath mtime lines)
        (Pi.extractSegments reader piPath mtime' (lines ++ more)) ∧
      KeepsFinished (SessionSegment.contentHash env)
        (Pi.extractSegments reader piPath mtime lines)
        (Pi.extractSegments reader piPath mtime' (lines ++ more))) ∧
    Positioned (Pi.extractSegments reader piPath mtime lines) := by
  let hash := fun c : FinishedContent =>
    env.segmentHash c.toolCalls c.userPrompts ("\n".intercalate c.assistantTexts)
  refine ⟨⟨?_, ?_, ?_⟩, ⟨?_, ?_, ?_, ?_⟩, ?_, ?_⟩
  · exact Codex.extractSegments_keeps reader lines more rollout
  · exact (Codex.extractSegments_keeps reader lines more rollout).comp hash
  · exact Codex.extractSegments_positioned reader lines rollout
  · exact Cursor.extractSegments_keeps reader lines more cursorPath mtime mtime'
  · exact (Cursor.extractSegments_keeps reader lines more cursorPath mtime mtime').comp hash
  · exact Cursor.extractSegments_stamped reader lines cursorPath mtime
  · exact Cursor.extractSegments_positioned reader lines cursorPath mtime
  · intro htime
    have hkeeps := Pi.extractSegments_keeps reader lines more piPath mtime mtime' htime
    exact ⟨hkeeps, hkeeps.comp hash⟩
  · exact Pi.extractSegments_positioned reader lines piPath mtime

end Extractors

section Instance

/-- A user line of a Pi transcript, with or without a timestamp. -/
def piUserLine (timestamp : Option ℤ) (text : String) : JsonValue :=
  .object [("message", .object ([("content", .array [.object [("text", .string text),
    ("type", .string "text")]]), ("role", .string "user")] ++
      (timestamp.map fun t => ("timestamp", JsonValue.int t)).toList)),
    ("type", .string "message")]

/-- A parser for the lines of the run below; only the second has no timestamp. -/
def piReader : TranscriptReader where
  parseJson := fun line => [("a", piUserLine (some 1000000) "start"),
    ("b", piUserLine none "go on"), ("c", piUserLine (some 3000000) "more"),
    ("d", piUserLine (some 4000000) "later"), ("e", piUserLine (some 5000000) "last")].lookup line
  render := fun _ => ""
  parseRfc3339 := fun _ => none
  parseUtc := fun _ => none
  redact := id

/-- The second segment starts at the `mtime`, which is another one when the file has grown. -/
theorem mtime_moves_finished_segment : ¬ KeepsFinished SessionSegment.finished
    (Pi.extractSegments piReader ⟨"", "", ""⟩ 4000001 ["a", "b", "c", "d"])
    (Pi.extractSegments piReader ⟨"", "", ""⟩ 5000001 (["a", "b", "c", "d"] ++ ["e"])) := by
  have hbefore : (Pi.extractSegments piReader ⟨"", "", ""⟩ 4000001
      ["a", "b", "c", "d"]).map SessionSegment.finished =
      [⟨0, 1000000, ["start"], [], []⟩, ⟨1, 4000001, ["go on", "more"], [], []⟩,
        ⟨2, 4000000, ["later"], [], []⟩] := by decide +kernel
  have hafter : (Pi.extractSegments piReader ⟨"", "", ""⟩ 5000001
      (["a", "b", "c", "d"] ++ ["e"])).map SessionSegment.finished =
      [⟨0, 1000000, ["start"], [], []⟩, ⟨1, 5000001, ["go on", "more"], [], []⟩,
        ⟨2, 4000000, ["later"], [], []⟩, ⟨3, 5000000, ["last"], [], []⟩] := by decide +kernel
  rw [KeepsFinished, hbefore, hafter]
  decide

end Instance

end Hippo
