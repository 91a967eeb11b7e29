import Hippo.Backtracking
import Hippo.ShellEnrichment

/-!
# Markdown chunks

`markdown_heading_chunks` splits a text at the matches of its heading pattern. Every chunk runs
to the next heading, so the text that is lost is the one before the first heading.
-/
namespace Hippo.Markdown

open Hippo.Backtracking
open Hippo.PyText (isSpace strip)

structure MarkdownChunk where
  ordinal : ℕ
  headingPath : String
  startOffset : ℕ
  endOffset : ℕ
  content : String
deriving DecidableEq

/-- The groups of a match. -/
structure Heading where
  hashes : List Char
  text : List Char

def Heading.level (heading : Heading) : ℕ := heading.hashes.length

def Heading.title (heading : Heading) : String := strip (String.ofList heading.text)

def atLineEnd (rest : List Char) : Bool := rest.isEmpty || rest.head? = some '\n'

/-- `^(#{1,6})\s+(.+?)\s*$` with `re.MULTILINE`. -/
def readHeading (prev : Option Char) (text : List Char) : Option (Heading × List Char) :=
  if prev = none ∨ prev = some '\n' then
    ((greedy (· = '#') 1 6 text).flatMap fun (hashes, rest) =>
      (greedy isSpace 1 rest.length rest).flatMap fun (_, rest) =>
        (reluctant (· ≠ '\n') 1 rest.length rest).flatMap fun (title, rest) =>
          (greedy isSpace 0 rest.length rest).filterMap fun (_, rest) =>
            if atLineEnd rest then some ({ hashes := hashes, text := title }, rest)
            else none).head?
  else none

/-- The headings with their offsets. -/
def matchesOf (markdown : String) : List (ℕ × Heading) :=
  finditer readHeading none 0 0 markdown.toList

/-- `markdown[start:end]`. -/
def slice (markdown : String) (start stop : ℕ) : String :=
  String.ofList ((markdown.toList.drop start).take (stop - start))

/-- The end of a section: the next heading or the end of the text. -/
def sectionEnd (markdown : String) (rest : List (ℕ × Heading)) : ℕ :=
  (rest.head?.map Prod.fst).getD markdown.length

/-- The loop over the matches, with `headings` and the chunks so far. -/
def chunkLoop (markdown : String) :
    List (ℕ × Heading) → List String → List MarkdownChunk → List MarkdownChunk
  | [], _, chunks => chunks
  | (start, heading) :: rest, headings, chunks =>
    let headings := headings.take (heading.level - 1) ++ [heading.title]
    let stop := sectionEnd markdown rest
    let content := strip (slice markdown start stop)
    if content ≠ "" then
      chunkLoop markdown rest headings (chunks ++
        [{ ordinal := chunks.length, headingPath := " > ".intercalate headings,
           startOffset := start, endOffset := stop, content := content }])
    else chunkLoop markdown rest headings chunks

def markdownHeadingChunks (markdown : String) : List MarkdownChunk :=
  if matchesOf markdown = [] then
    let content := strip markdown
    if content ≠ "" then
      [{ ordinal := 0, headingPath := "", startOffset := 0, endOffset := markdown.length,
         content := content }]
    else []
  else chunkLoop markdown (matchesOf markdown) [] []

section Matches

variable {prev : Option Char} {text left : List Char} {heading : Heading} {markdown : String}

/-- A match begins with the hashes. -/
theorem hashes_of_readHeading (h : readHeading prev text = some (heading, left)) :
    text.head? = some '#' ∧ 0 < heading.level := by
  simp only [readHeading] at h
  split_ifs at h
  have hmem := List.mem_of_head? h
  simp only [List.mem_flatMap, Prod.exists] at hmem
  obtain ⟨hashes, rest, hhashes, _, rest', -, title, rest'', -, hmem⟩ := hmem
  rw [List.mem_filterMap] at hmem
  obtain ⟨⟨_, _⟩, -, hmem⟩ := hmem
  simp only [Option.ite_none_right_eq_some, Option.some.injEq, Prod.mk.injEq] at hmem
  obtain ⟨-, rfl, -⟩ := hmem
  obtain ⟨htext, hall, hlength⟩ := mem_greedy hhashes
  cases hashes with
  | nil => simp at hlength
  | cons c hashes =>
    have hc : c = '#' := by simpa using hall c (by simp)
    simp [htext, hc, Heading.level]

/-- The matches are in order, and each begins with a hash. -/
structure Placed (markdown : String) (ms : List (ℕ × Heading)) : Prop where
  ordered : ms.Pairwise fun m n => m.1 < n.1
  hash : ∀ m ∈ ms, markdown.toList[m.1]? = some '#'

theorem Placed.tail {m : ℕ × Heading} {ms : List (ℕ × Heading)} (h : Placed markdown (m :: ms)) :
    Placed markdown ms :=
  ⟨h.ordered.of_cons, fun n hn => h.hash n (List.mem_cons_of_mem m hn)⟩

theorem placed_matchesOf : Placed markdown (matchesOf markdown) := by
  refine ⟨pairwise_finditer, fun m hm => ?_⟩
  obtain ⟨-, -, before, left, hread⟩ := read_of_mem_finditer hm
  have hhead := (hashes_of_readHeading hread).1
  rwa [Nat.sub_zero, List.head?_drop] at hhead

theorem level_pos {m : ℕ × Heading} (hm : m ∈ matchesOf markdown) : 0 < m.2.level := by
  obtain ⟨-, -, before, left, hread⟩ := read_of_mem_finditer hm
  exact (hashes_of_readHeading hread).2

end Matches

section Sections

variable {markdown : String} {start stop i n : ℕ} {heading : Heading} {ms : List (ℕ × Heading)}
  {headings : List String}

theorem strip_eq_empty_iff {s : String} : strip s = "" ↔ ∀ c ∈ s.toList, isSpace c = true := by
  have hempty : strip s = "" ↔
      ((s.toList.dropWhile isSpace).reverse.dropWhile isSpace).reverse = [] := by
    rw [← String.toList_inj]
    simp [strip]
  rw [hempty, List.reverse_eq_nil_iff, List.dropWhile_eq_nil_iff]
  simp only [List.mem_reverse]
  constructor
  · intro h
    rw [← List.dropWhile_eq_nil_iff]
    by_contra hne
    have hhead := List.head_dropWhile_not isSpace hne
    rw [h _ (List.head_mem hne)] at hhead
    exact absurd hhead (by simp)
  · intro h c hc
    exact h c ((List.dropWhile_sublist _).subset hc)

theorem toList_slice : (slice markdown start stop).toList =
    (markdown.toList.drop start).take (stop - start) := by
  simp [slice]

/-- A section is not blank, since it begins with a hash. -/
theorem strip_section (hhash : markdown.toList[start]? = some '#') (hlt : start < stop) :
    strip (slice markdown start stop) ≠ "" := by
  rw [ne_eq, strip_eq_empty_iff, toList_slice]
  intro hall
  have hmem : '#' ∈ (markdown.toList.drop start).take (stop - start) := by
    apply List.mem_of_getElem? (i := 0)
    rwa [List.getElem?_take_of_lt (by omega), List.getElem?_drop, Nat.add_zero]
  have := hall '#' hmem
  revert this
  decide

theorem lt_sectionEnd (h : Placed markdown ((start, heading) :: ms)) :
    start < sectionEnd markdown ms ∧ sectionEnd markdown ms ≤ markdown.length := by
  have hlt : ∀ m ∈ (start, heading) :: ms, m.1 < markdown.length := by
    intro m hm
    obtain ⟨hlt, -⟩ := List.getElem?_eq_some_iff.mp (h.hash m hm)
    rwa [String.length_toList] at hlt
  cases ms with
  | nil => exact ⟨hlt (start, heading) (by simp), le_refl _⟩
  | cons next rest =>
    have hnext : start < next.1 := List.rel_of_pairwise_cons h.ordered (by simp)
    exact ⟨hnext, (hlt next (by simp)).le⟩

/-- The chunks of the loop: one for each heading. -/
def sections (markdown : String) :
    List (ℕ × Heading) → List String → ℕ → List MarkdownChunk
  | [], _, _ => []
  | (start, heading) :: rest, headings, n =>
    let headings := headings.take (heading.level - 1) ++ [heading.title]
    let stop := sectionEnd markdown rest
    { ordinal := n, headingPath := " > ".intercalate headings, startOffset := start,
      endOffset := stop, content := strip (slice markdown start stop) } ::
      sections markdown rest headings (n + 1)

theorem chunkLoop_eq (h : Placed markdown ms) (chunks : List MarkdownChunk) :
    chunkLoop markdown ms headings chunks =
      chunks ++ sections markdown ms headings chunks.length := by
  induction ms generalizing headings chunks with
  | nil => simp [chunkLoop, sections]
  | cons m rest ih =>
    obtain ⟨start, heading⟩ := m
    have hcontent := strip_section (h.hash (start, heading) (by simp)) (lt_sectionEnd h).1
    simp only [chunkLoop, sections, if_pos hcontent]
    rw [ih h.tail]
    simp

theorem markdownHeadingChunks_eq (h : matchesOf markdown ≠ []) :
    markdownHeadingChunks markdown = sections markdown (matchesOf markdown) [] 0 := by
  rw [markdownHeadingChunks, if_neg h, chunkLoop_eq placed_matchesOf, List.nil_append,
    List.length_nil]

theorem ordinals_sections :
    (sections markdown ms headings n).map MarkdownChunk.ordinal = List.range' n ms.length := by
  induction ms generalizing headings n with
  | nil => rfl
  | cons m rest ih =>
    simp only [sections, List.map_cons, ih, List.length_cons, List.range'_succ]

theorem startOffsets_sections :
    (sections markdown ms headings n).map MarkdownChunk.startOffset = ms.map Prod.fst := by
  induction ms generalizing headings n with
  | nil => rfl
  | cons m rest ih => simp only [sections, List.map_cons, ih]

theorem content_sections :
    ∀ chunk ∈ sections markdown ms headings n,
      chunk.content = strip (slice markdown chunk.startOffset chunk.endOffset) := by
  induction ms generalizing headings n with
  | nil => simp [sections]
  | cons m rest ih =>
    simp only [sections, List.forall_mem_cons, true_and]
    exact ih

theorem sectionEnd_le (h : Placed markdown ms) :
    ∀ chunk ∈ sections markdown ms headings n, sectionEnd markdown ms ≤ chunk.startOffset := by
  cases ms with
  | nil => simp [sections]
  | cons m rest =>
    intro chunk hchunk
    have hstart : chunk.startOffset ∈ (m :: rest).map Prod.fst := by
      rw [← startOffsets_sections (n := n)]
      exact List.mem_map_of_mem hchunk
    obtain ⟨m', hm', heq⟩ := List.mem_map.mp hstart
    rw [← heq]
    rcases List.mem_cons.mp hm' with rfl | hm'
    · exact le_refl _
    · exact (List.rel_of_pairwise_cons h.ordered hm').le

theorem pairwise_sections (h : Placed markdown ms) :
    (sections markdown ms headings n).Pairwise fun a b => a.endOffset ≤ b.startOffset := by
  induction ms generalizing headings n with
  | nil => exact List.Pairwise.nil
  | cons m rest ih =>
    simp only [sections, List.pairwise_cons]
    exact ⟨fun chunk hchunk => sectionEnd_le h.tail chunk hchunk, ih h.tail⟩

theorem ranges_sections (h : Placed markdown ms) :
    ∀ chunk ∈ sections markdown ms headings n,
      chunk.startOffset < chunk.endOffset ∧ chunk.endOffset ≤ markdown.length := by
  induction ms generalizing headings n with
  | nil => simp [sections]
  | cons m rest ih =>
    simp only [sections, List.forall_mem_cons]
    exact ⟨lt_sectionEnd h, ih h.tail⟩

/-- The range of the chunk contains the offset. -/
def MarkdownChunk.covers (chunk : MarkdownChunk) (i : ℕ) : Bool :=
  chunk.startOffset ≤ i ∧ i < chunk.endOffset

/-- Every offset from the first heading on is in one section. -/
theorem countP_sections (h : Placed markdown ms) :
    (sections markdown ms headings n).countP (fun chunk => chunk.covers i) =
      if sectionEnd markdown ms ≤ i ∧ i < markdown.length then 1 else 0 := by
  induction ms generalizing headings n with
  | nil =>
    have hend : sectionEnd markdown [] = markdown.length := rfl
    rw [if_neg (by omega)]
    rfl
  | cons m rest ih =>
    obtain ⟨start, heading⟩ := m
    have hstart : sectionEnd markdown ((start, heading) :: rest) = start := rfl
    have hend := lt_sectionEnd h
    rw [sections, List.countP_cons, ih h.tail, hstart]
    simp only [MarkdownChunk.covers, decide_eq_true_eq]
    split_ifs <;> omega
end Sections

/-- No text is lost. A chunk holds the text of its range without the surrounding space. -/
structure Lossless (markdown : String) (chunks : List MarkdownChunk) : Prop where
  ordinals : chunks.map MarkdownChunk.ordinal = List.range chunks.length
  ranges : ∀ chunk ∈ chunks,
    chunk.startOffset ≤ chunk.endOffset ∧ chunk.endOffset ≤ markdown.length
  disjoint : chunks.Pairwise fun a b => a.endOffset ≤ b.startOffset
  content : ∀ chunk ∈ chunks,
    chunk.content = strip (slice markdown chunk.startOffset chunk.endOffset)
  covered : ∀ i c, markdown.toList[i]? = some c → isSpace c = false →
    chunks.countP (fun chunk => chunk.covers i) = 1

/-- The text before the first heading is blank, if there is a heading. -/
def NoPreamble (markdown : String) : Prop :=
  ∀ m, (matchesOf markdown).head? = some m → ∀ c ∈ markdown.toList.take m.1, isSpace c = true

theorem lossless_of_no_heading {markdown : String} (h : matchesOf markdown = []) :
    Lossless markdown (markdownHeadingChunks markdown) := by
  have hslice : slice markdown 0 markdown.length = markdown := by
    rw [← String.toList_inj, toList_slice, ← String.length_toList]
    simp
  by_cases hcontent : strip markdown = ""
  · rw [markdownHeadingChunks, if_pos h]
    simp only [hcontent, ne_eq, not_true_eq_false, if_false]
    refine ⟨rfl, by simp, by simp, by simp, fun i c hc hspace => ?_⟩
    have hblank := strip_eq_empty_iff.mp hcontent c (List.mem_of_getElem? hc)
    simp [hblank] at hspace
  · rw [markdownHeadingChunks, if_pos h]
    simp only [hcontent, ne_eq, not_false_eq_true, if_true]
    refine ⟨rfl, by simp, by simp, by simp [hslice], fun i c hc _ => ?_⟩
    obtain ⟨hi, -⟩ := List.getElem?_eq_some_iff.mp hc
    rw [String.length_toList] at hi
    simp [MarkdownChunk.covers, hi]

/-- With a heading, the offsets before the first one are in no chunk. -/
theorem lossless_sections_iff {markdown : String} {m : ℕ × Heading} {rest : List (ℕ × Heading)}
    (h : matchesOf markdown = m :: rest) :
    Lossless markdown (markdownHeadingChunks markdown) ↔
      ∀ c ∈ markdown.toList.take m.1, isSpace c = true := by
  have hplaced : Placed markdown (m :: rest) := h ▸ placed_matchesOf
  have hcount : ∀ i, (sections markdown (m :: rest) [] 0).countP (fun chunk => chunk.covers i) =
      if m.1 ≤ i ∧ i < markdown.length then 1 else 0 := fun i => countP_sections hplaced
  rw [markdownHeadingChunks_eq (by simp [h]), h]
  constructor
  · intro hlossless c hc
    by_contra hspace
    obtain ⟨i, hi⟩ := List.getElem?_of_mem hc
    have hlt : i < m.1 := by
      obtain ⟨hi, -⟩ := List.getElem?_eq_some_iff.mp hi
      rw [List.length_take] at hi
      omega
    rw [List.getElem?_take_of_lt hlt] at hi
    have hcovered := hlossless.covered i c hi (by simpa using hspace)
    rw [hcount, if_neg (by omega)] at hcovered
    exact absurd hcovered (by simp)
  · intro hblank
    refine ⟨?_, ?_, pairwise_sections hplaced, content_sections, fun i c hc hspace => ?_⟩
    · have hlength : (sections markdown (m :: rest) [] 0).length = (m :: rest).length := by
        rw [← List.length_map MarkdownChunk.ordinal, ordinals_sections, List.length_range']
      rw [ordinals_sections, hlength, List.range_eq_range']
    · intro chunk hchunk
      have := ranges_sections hplaced chunk hchunk
      omega
    · obtain ⟨hi, -⟩ := List.getElem?_eq_some_iff.mp hc
      rw [String.length_toList] at hi
      have hle : m.1 ≤ i := by
        by_contra hlt
        have hmem : c ∈ markdown.toList.take m.1 := by
          apply List.mem_of_getElem? (i := i)
          rwa [List.getElem?_take_of_lt (by omega)]
        simp [hblank c hmem] at hspace
      rw [hcount, if_pos ⟨hle, hi⟩]

/-- Chunking loses no text exactly when nothing stands before the first heading. -/
theorem markdownHeadingChunks_lossless_iff (markdown : String) :
    Lossless markdown (markdownHeadingChunks markdown) ↔ NoPreamble markdown := by
  cases h : matchesOf markdown with
  | nil => simp [NoPreamble, h, lossless_of_no_heading h]
  | cons m rest => simp [NoPreamble, h, lossless_sections_iff h]

/-- The first line of this note is in no chunk. -/
theorem preamble_lost :
    ¬ ∀ markdown, Lossless markdown (markdownHeadingChunks markdown) := by
  intro h
  have hcovered := (h "note\n# A").covered 0 'n' (by decide +kernel) (by decide)
  revert hcovered
  decide +kernel

end Hippo.Markdown
