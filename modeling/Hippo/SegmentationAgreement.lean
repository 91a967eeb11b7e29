import Hippo.BrainClaudePrompts
import Hippo.ClaudePrompts

/-!
# The two extractors of Claude transcripts side by side

The daemon measures a segment in bytes, the brain in characters, and only the daemon passes over
every line it cannot use.
-/
namespace Hippo

section Agreement

/-- At a user line after a pause both loops or neither have content in the open segment;
without a pause its size in bytes and its size in characters are on one side of the limit. -/
def SizesAgree (ts : ℤ) (d : Claude.Scan) (s : BrainClaude.Scan) : Prop :=
  if taskGapMs < ts - s.lastUserMs then
    d.out.current.any Claude.Segment.hasContent = s.current.any BrainClaude.Segment.hasContent
  else (maxSegmentChars < d.out.currentChars ↔ maxSegmentChars < s.currentChars)

/-- The sizes agree at every user line that may split, and the contents at the end. -/
def SizesAlike (reader : TranscriptReader) (py : BrainClaude.PythonLibrary) (now now' : ℤ)
    (lines : List String) : Prop :=
  (∀ before line ts prompt s, before ++ [line] <+: lines →
    BrainClaude.scanLines py now' before = some s →
    Claude.lineKind reader line = .user ts prompt → 0 < s.lastUserMs → 0 < ts →
    SizesAgree ts (Claude.scanLines reader.unredacted now before) s) ∧
  ∀ s, BrainClaude.scanLines py now' lines = some s →
    (Claude.scanLines reader.unredacted now lines).out.current.any Claude.Segment.hasContent =
      s.current.any BrainClaude.Segment.hasContent

/-- Both extractors return, split at the same lines, and return segments with the same prompts. -/
def SegmentedAlike (reader : TranscriptReader) (py : BrainClaude.PythonLibrary) (now now' : ℤ)
    (lines : List String) : Prop :=
  (∃ segments, BrainClaude.extractSegments py now' lines = some segments ∧
    (Claude.rawSegments reader.unredacted now lines).map (fun seg => seg.userPrompts) =
      segments.map BrainClaude.Segment.userPrompts) ∧
  ∀ before, before <+: lines →
    (BrainClaude.scanLines py now' before).map (fun s => s.segments.length) =
      some (Claude.scanLines reader.unredacted now before).out.segments.length

/-- The two loops at the same place. -/
structure Related (c : Segmenter FinishedContent) (s : BrainClaude.Scan) : Prop where
  view : c.promptView FinishedContent.userPrompts = s.promptView BrainClaude.Segment.userPrompts
  clock : c.lastUserMs = s.lastUserMs
  sized : c.Sized FinishedContent.hasContent
  brainSized : s.Sized BrainClaude.Segment.hasContent

variable {reader : TranscriptReader} {py : BrainClaude.PythonLibrary} {now now' : ℤ}
  {c : Segmenter FinishedContent} {s : BrainClaude.Scan}

theorem Related.length (h : Related c s) : c.segments.length = s.segments.length := by
  have hview := congrArg (fun v : Prompts => v.finished.length) h.view
  simpa [Segmenter.promptView] using hview

/-- Where a user line may split, both loops split alike exactly when the sizes agree. -/
theorem Related.splits_iff (h : Related c s) {ts : ℤ} (hlast : 0 < s.lastUserMs) (hts : 0 < ts) :
    c.splitsAt FinishedContent.hasContent ts = s.splitsAt BrainClaude.Segment.hasContent ts ↔
      if taskGapMs < ts - s.lastUserMs then
        c.current.any FinishedContent.hasContent = s.current.any BrainClaude.Segment.hasContent
      else (maxSegmentChars < c.currentChars ↔ maxSegmentChars < s.currentChars) := by
  have hsized : maxSegmentChars < c.currentChars →
      c.current.any FinishedContent.hasContent = true := fun hc => h.sized (by omega)
  have hsized' : maxSegmentChars < s.currentChars →
      s.current.any BrainClaude.Segment.hasContent = true := fun hs => h.brainSized (by omega)
  unfold Segmenter.splitsAt
  rw [h.clock]
  by_cases hgap : taskGapMs < ts - s.lastUserMs
  · simp [hlast, hts, hgap]
  · have hboth : ∀ {n : ℕ} {filled : Bool}, (maxSegmentChars < n → filled = true) →
        ((0 < s.lastUserMs ∧ 0 < ts ∧ (taskGapMs < ts - s.lastUserMs ∨ maxSegmentChars < n) ∧
          filled = true) ↔ maxSegmentChars < n) := by
      intro n filled hfilled
      constructor
      · rintro ⟨-, -, hpause | hsize, -⟩
        · exact absurd hpause hgap
        · exact hsize
      · intro hsize
        exact ⟨hlast, hts, Or.inr hsize, hfilled hsize⟩
    rw [if_neg hgap, decide_eq_decide, hboth hsized, hboth hsized']

/-- A line that both read alike. -/
theorem related_step (h : Related c s) {line : String}
    (hkind : BrainClaude.lineKind py line = some (Claude.lineKind reader line)) :
    ∃ s', BrainClaude.step py now' s line = some s' ∧
      ((Claude.contentLine reader.unredacted c line).segments.length = s'.segments.length →
        Related (Claude.contentLine reader.unredacted c line) s') ∧
      ((∀ ts prompt, Claude.lineKind reader line = .user ts prompt → 0 < s.lastUserMs → 0 < ts →
        if taskGapMs < ts - s.lastUserMs then
          c.current.any FinishedContent.hasContent = s.current.any BrainClaude.Segment.hasContent
        else (maxSegmentChars < c.currentChars ↔ maxSegmentChars < s.currentChars)) ↔
        Related (Claude.contentLine reader.unredacted c line) s') := by
  obtain ⟨s', hstep, hbrain⟩ := advances_step py (s := s) now' hkind
  have hdaemon := advances_contentLine reader c line
  have hrelated : (Claude.lineKind reader line).splits FinishedContent.hasContent c =
      (Claude.lineKind reader line).splits BrainClaude.Segment.hasContent s →
        Related (Claude.contentLine reader.unredacted c line) s' := by
    intro hsplits
    constructor
    · rw [hdaemon.view, hbrain.view, h.view, hsplits]
    · rw [hdaemon.clock, hbrain.clock, h.clock]
    · exact hdaemon.sized h.sized
    · exact hbrain.sized h.brainSized
  have hlength : (Claude.contentLine reader.unredacted c line).segments.length =
      s'.segments.length → (Claude.lineKind reader line).splits FinishedContent.hasContent c =
        (Claude.lineKind reader line).splits BrainClaude.Segment.hasContent s := by
    intro heq
    have hc := congrArg (fun v : Prompts => v.finished.length) hdaemon.view
    have hs := congrArg (fun v : Prompts => v.finished.length) hbrain.view
    simp only [Prompts.length_finished_advance, ← h.view] at hc hs
    simp only [Segmenter.promptView, List.length_map] at hc hs
    cases hsplit : (Claude.lineKind reader line).splits FinishedContent.hasContent c <;>
      cases hsplit' : (Claude.lineKind reader line).splits BrainClaude.Segment.hasContent s <;>
        simp [hsplit, hsplit'] at hc hs ⊢ <;> omega
  refine ⟨s', hstep, fun heq => hrelated (hlength heq), ?_, ?_⟩
  · intro hsizes
    apply hrelated
    cases hline : Claude.lineKind reader line with
    | user ts prompt =>
      by_cases hmay : 0 < s.lastUserMs ∧ 0 < ts
      · exact (h.splits_iff hmay.1 hmay.2).mpr (hsizes ts prompt hline hmay.1 hmay.2)
      · have hc : c.splitsAt FinishedContent.hasContent ts = false := by
          apply decide_eq_false
          rw [h.clock]
          exact fun hsplit => hmay ⟨hsplit.1, hsplit.2.1⟩
        have hs : s.splitsAt BrainClaude.Segment.hasContent ts = false := by
          apply decide_eq_false
          exact fun hsplit => hmay ⟨hsplit.1, hsplit.2.1⟩
        rw [LineKind.splits, LineKind.splits, hc, hs]
    | assistant => rfl
    | other => rfl
  · intro hrel ts prompt hline hlast hts
    have hsplits := hlength hrel.length
    rw [hline] at hsplits
    exact (h.splits_iff hlast hts).mp hsplits

theorem related_start : Related {} {} where
  view := rfl
  clock := rfl
  sized := fun h => absurd h (lt_irrefl 0)
  brainSized := fun h => absurd h (lt_irrefl 0)

theorem daemonContents_append (lines : List String) (line : String) :
    daemonContents reader (lines ++ [line]) =
      Claude.contentLine reader.unredacted (daemonContents reader lines) line := by
  simp [daemonContents]

theorem scanLines_append (lines : List String) (line : String) :
    BrainClaude.scanLines py now' (lines ++ [line]) =
      (BrainClaude.scanLines py now' lines).bind fun s => BrainClaude.step py now' s line := by
  simp [BrainClaude.scanLines]

/-- The lines on which the brain does not raise are read alike by both. -/
def ReadAlike (reader : TranscriptReader) (py : BrainClaude.PythonLibrary) (lines : List String) :
    Prop :=
  ∀ line ∈ lines, ∀ kind, BrainClaude.lineKind py line = some kind →
    kind = Claude.lineKind reader line

/-- The loops stay together as long as each step keeps them together. -/
theorem related_lines {lines : List String}
    (hstep : ∀ before line s, before ++ [line] <+: lines →
      BrainClaude.scanLines py now' before = some s → Related (daemonContents reader before) s →
        ∃ s', BrainClaude.step py now' s line = some s' ∧
          Related (daemonContents reader (before ++ [line])) s')
    {before : List String} (hbefore : before <+: lines) :
    ∃ s, BrainClaude.scanLines py now' before = some s ∧
      Related (daemonContents reader before) s := by
  induction before using List.reverseRecOn with
  | nil => exact ⟨{}, rfl, related_start⟩
  | append_singleton before line ih =>
    obtain ⟨s, hs, hrelated⟩ := ih ((List.prefix_append _ _).trans hbefore)
    obtain ⟨s', hs', hrelated'⟩ := hstep before line s hbefore hs hrelated
    exact ⟨s', by rw [scanLines_append, hs, Option.bind_some, hs'], hrelated'⟩

theorem daemon_length (now : ℤ) (before : List String) :
    (Claude.scanLines reader.unredacted now before).out.segments.length =
      (daemonContents reader before).segments.length := by
  rw [daemonContents_eq reader now]
  exact (List.length_map _).symm

theorem sizesAgree_iff (now : ℤ) {before : List String} {ts : ℤ} :
    SizesAgree ts (Claude.scanLines reader.unredacted now before) s ↔
      if taskGapMs < ts - s.lastUserMs then
        (daemonContents reader before).current.any FinishedContent.hasContent =
          s.current.any BrainClaude.Segment.hasContent
      else (maxSegmentChars < (daemonContents reader before).currentChars ↔
        maxSegmentChars < s.currentChars) := by
  rw [daemonContents_eq reader now, Claude.content_any]
  rfl

/-- At the end the prompts are alike exactly when both or neither keep the open segment. -/
theorem Related.prompts_iff (now : ℤ) {lines : List String}
    (h : Related (daemonContents reader lines) s) :
    (Claude.rawSegments reader.unredacted now lines).map (fun seg => seg.userPrompts) =
        (s.finish BrainClaude.Segment.hasContent).map BrainClaude.Segment.userPrompts ↔
      (Claude.scanLines reader.unredacted now lines).out.current.any Claude.Segment.hasContent =
        s.current.any BrainClaude.Segment.hasContent := by
  have hraw : (Claude.rawSegments reader.unredacted now lines).map (fun seg => seg.userPrompts) =
      ((daemonContents reader lines).finish FinishedContent.hasContent).map
        FinishedContent.userPrompts := by
    rw [daemonContents_eq reader now, Claude.content_scanLines]
    have hcontents := congrArg (List.map FinishedContent.userPrompts)
      (Claude.map_content_rawSegments reader.unredacted now lines)
    rw [List.map_map] at hcontents
    exact hcontents
  rw [hraw, Segmenter.map_finish, Segmenter.map_finish, h.view, List.append_cancel_left_eq,
    ← Claude.content_any, ← daemonContents_eq reader now]
  cases (daemonContents reader lines).current.any FinishedContent.hasContent <;>
    cases s.current.any BrainClaude.Segment.hasContent <;> simp

section Directions

variable {lines : List String} (hread : ReadAlike reader py lines)

theorem mem_of_isPrefix {before : List String} {line : String} (h : before ++ [line] <+: lines) :
    line ∈ lines := h.subset (by simp)

include hread

/-- A line behind which both loops are still running was read. -/
theorem lineKind_of_counts (hcounts : ∀ before, before <+: lines →
      (BrainClaude.scanLines py now' before).map (fun s => s.segments.length) =
        some (Claude.scanLines reader.unredacted now before).out.segments.length)
    {before : List String} {line : String} (hline : before ++ [line] <+: lines) :
    BrainClaude.lineKind py line = some (Claude.lineKind reader line) := by
  cases hkind : BrainClaude.lineKind py line with
  | none =>
    have hcount := hcounts _ hline
    rw [scanLines_append] at hcount
    obtain ⟨s', hs', -⟩ := Option.map_eq_some_iff.mp hcount
    obtain ⟨s, -, hstep⟩ := Option.bind_eq_some_iff.mp hs'
    rw [step_eq_none py now' hkind] at hstep
    cases hstep
  | some kind => rw [hread line (mem_of_isPrefix hline) kind hkind]

/-- Loops that finish their segments at the same lines stay together. -/
theorem related_of_counts (hcounts : ∀ before, before <+: lines →
      (BrainClaude.scanLines py now' before).map (fun s => s.segments.length) =
        some (Claude.scanLines reader.unredacted now before).out.segments.length)
    {before : List String} (hbefore : before <+: lines) :
    ∃ s, BrainClaude.scanLines py now' before = some s ∧
      Related (daemonContents reader before) s := by
  apply related_lines _ hbefore
  intro before line s hline hs hrelated
  obtain ⟨s', hs', hcount, -⟩ := related_step hrelated (lineKind_of_counts hread hcounts hline)
  refine ⟨s', hs', ?_⟩
  rw [daemonContents_append]
  apply hcount
  have hlength := hcounts _ hline
  rw [scanLines_append, hs, Option.bind_some, hs', daemon_length, daemonContents_append] at hlength
  exact (Option.some.inj hlength).symm

/-- Loops whose sizes agree stay together. -/
theorem related_of_sizes (hraise : ∀ line ∈ lines, BrainClaude.lineKind py line ≠ none)
    (hsizes : SizesAlike reader py now now' lines) {before : List String}
    (hbefore : before <+: lines) :
    ∃ s, BrainClaude.scanLines py now' before = some s ∧
      Related (daemonContents reader before) s := by
  apply related_lines _ hbefore
  intro before line s hline hs hrelated
  obtain ⟨kind, hkind⟩ := Option.ne_none_iff_exists'.mp (hraise line (mem_of_isPrefix hline))
  rw [hread line (mem_of_isPrefix hline) kind hkind] at hkind
  obtain ⟨s', hs', -, hagree⟩ := related_step hrelated hkind
  refine ⟨s', hs', ?_⟩
  rw [daemonContents_append]
  apply hagree.mp
  intro ts prompt huser hlast hts
  exact (sizesAgree_iff now).mp (hsizes.1 before line ts prompt s hline hs huser hlast hts)

end Directions

/-- Where both read the lines alike, the two segmentations agree exactly when the brain raises on
no line and the sizes agree wherever they are compared. -/
theorem segmentation_agrees_iff (reader : TranscriptReader) (py : BrainClaude.PythonLibrary)
    (now now' : ℤ) {lines : List String} (hread : ReadAlike reader py lines) :
    SegmentedAlike reader py now now' lines ↔
      (∀ line ∈ lines, BrainClaude.lineKind py line ≠ none) ∧
        SizesAlike reader py now now' lines := by
  constructor
  · rintro ⟨⟨segments, hsegments, hprompts⟩, hcounts⟩
    refine ⟨?_, ?_, ?_⟩
    · intro line hline
      obtain ⟨before, rest, rfl⟩ := List.append_of_mem hline
      have hprefix : before ++ [line] <+: before ++ line :: rest := ⟨rest, by simp⟩
      rw [lineKind_of_counts hread hcounts hprefix]
      exact Option.some_ne_none _
    · intro before line ts prompt s hline hs huser hlast hts
      obtain ⟨s₁, hs₁, hrelated⟩ := related_of_counts hread hcounts
        ((List.prefix_append before [line]).trans hline)
      obtain rfl : s₁ = s := Option.some.inj (hs₁.symm.trans hs)
      obtain ⟨s', hs', hrelated'⟩ := related_of_counts hread hcounts hline
      obtain ⟨s₂, hs₂, -, hagree⟩ :=
        related_step hrelated (lineKind_of_counts hread hcounts hline)
      obtain rfl : s₂ = s' := by
        rw [scanLines_append, hs, Option.bind_some, hs₂] at hs'
        exact Option.some.inj hs'
      rw [daemonContents_append] at hrelated'
      exact (sizesAgree_iff now).mpr (hagree.mpr hrelated' ts prompt huser hlast hts)
    · intro s hs
      obtain ⟨s₁, hs₁, hrelated⟩ := related_of_counts hread hcounts List.prefix_rfl
      obtain rfl : s₁ = s := Option.some.inj (hs₁.symm.trans hs)
      rw [BrainClaude.extractSegments, hs] at hsegments
      obtain rfl := Option.some.inj hsegments
      exact (hrelated.prompts_iff now).mp hprompts
  · rintro ⟨hraise, hsizes⟩
    constructor
    · obtain ⟨s, hs, hrelated⟩ := related_of_sizes hread hraise hsizes List.prefix_rfl
      refine ⟨_, by rw [BrainClaude.extractSegments, hs]; rfl, ?_⟩
      exact (hrelated.prompts_iff now).mpr (hsizes.2 s hs)
    · intro before hbefore
      obtain ⟨s, hs, hrelated⟩ := related_of_sizes hread hraise hsizes hbefore
      rw [hs, Option.map_some, daemon_length, hrelated.length]

end Agreement

section Instance

/-- The texts of the runs below: an array, and a prompt with an answer of 19 letters. -/
def sampleLine (line : String) : Option JsonValue :=
  [("[]", JsonValue.array []),
    ("a", .object [("message", .object [("content", .string "fix it")]),
      ("timestamp", .string "0"), ("type", .string "user")]),
    ("b", .object [("message", .object [("content", .array [.object [("text",
      .string "Die Prüfung ist ok."), ("type", .string "text")]])]),
      ("timestamp", .string "1"), ("type", .string "assistant")])].lookup line

def sampleReader : TranscriptReader where
  parseJson := sampleLine
  render := fun _ => ""
  parseRfc3339 := fun _ => none
  parseUtc := fun ts => [("0", 1000000), ("1", 1000001)].lookup ts
  redact := id

def samplePythonLibrary : BrainClaude.PythonLibrary where
  loads := fun line => ((sampleLine line).map BrainClaude.Loaded.value).getD .decodeError
  fromisoformat := fun ts => [("0", 1000000), ("1", 1000001)].lookup ts
  str := fun _ => ""

/-- A line that is a JSON array: the daemon passes over it, the brain raises. -/
theorem array_line_raises :
    ¬ SegmentedAlike sampleReader samplePythonLibrary 0 0 ["a", "[]"] := by
  rintro ⟨⟨segments, hsegments, -⟩, -⟩
  have hraised : (BrainClaude.extractSegments samplePythonLibrary 0 ["a", "[]"]).isNone = true := by
    decide +kernel
  rw [hsegments] at hraised
  cases hraised

/-- A prompt and an answer that only the daemon keeps. -/
theorem answered_prompt_alike :
    SegmentedAlike sampleReader samplePythonLibrary 0 0 ["a", "b"] ↔
      (∀ line ∈ ["a", "b"], BrainClaude.lineKind samplePythonLibrary line ≠ none) ∧
        SizesAlike sampleReader samplePythonLibrary 0 0 ["a", "b"] := by
  apply segmentation_agrees_iff
  intro line hline kind hkind
  have hsame : ∀ line ∈ ["a", "b"], BrainClaude.lineKind samplePythonLibrary line =
      some (Claude.lineKind sampleReader line) := by decide +kernel
  rw [hsame line hline] at hkind
  exact (Option.some.inj hkind).symm

end Instance

end Hippo
