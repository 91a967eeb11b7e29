import Hippo.MarkdownChunking
import Hippo.Outline

/-!
# Heading paths

The path of a chunk is compared with the ancestors of its heading in the outline of the text.
-/
namespace Hippo.Markdown

open Hippo.Outline

section Joins

/-- The length of the joined titles, with one separator after each. -/
def joinedLength (titles : List String) : ℕ := (titles.map fun title => title.length + 3).sum

theorem length_join {titles : List String} (h : titles ≠ []) :
    (" > ".intercalate titles).length + 3 = joinedLength titles := by
  rw [← String.length_toList, String.toList_intercalate]
  induction titles with
  | nil => exact absurd rfl h
  | cons title rest ih =>
    cases rest with
    | nil => simp [joinedLength, String.length_toList]
    | cons next rest =>
      have hrest := ih (by simp)
      have hseparator : " > ".length = 3 := rfl
      rw [List.map_cons, List.map_cons, List.intercalate_cons_cons, ← List.map_cons]
      simp only [List.length_append, String.length_toList]
      simp only [joinedLength, List.map_cons, List.sum_cons] at *
      omega

theorem joinedLength_sublist {short long : List String} (h : short.Sublist long) :
    joinedLength short + 3 * (long.length - short.length) ≤ joinedLength long := by
  induction h with
  | slnil => simp
  | cons title h ih =>
    have := h.length_le
    simp only [joinedLength, List.map_cons, List.sum_cons, List.length_cons] at *
    omega
  | cons_cons title h ih =>
    simp only [joinedLength, List.map_cons, List.sum_cons, List.length_cons] at *
    omega

/-- A path that leaves titles out is joined to another text. -/
theorem eq_of_join_eq {short long : List String} (h : short.Sublist long) (hne : short ≠ [])
    (hjoin : " > ".intercalate long = " > ".intercalate short) : short = long := by
  have hlong : long ≠ [] := by
    rintro rfl
    exact hne (List.sublist_nil.mp h)
  have hlength := length_join hlong
  rw [hjoin, length_join hne] at hlength
  have := joinedLength_sublist h
  have := h.length_le
  exact h.eq_of_length (by omega)

end Joins

section Paths

variable {markdown : String} {ms : List (ℕ × Heading)} {m : ℕ × Heading}
  {headings path : List String} {i n : ℕ}

/-- The paths of the loop, one for each heading. -/
def paths : List (ℕ × Heading) → List String → List (List String)
  | [], _ => []
  | (_, heading) :: rest, headings =>
    let headings := headings.take (heading.level - 1) ++ [heading.title]
    headings :: paths rest headings

theorem headingPaths_sections :
    (sections markdown ms headings n).map MarkdownChunk.headingPath =
      (paths ms headings).map (" > ".intercalate ·) := by
  induction ms generalizing headings n with
  | nil => rfl
  | cons m rest ih => simp only [sections, paths, List.map_cons, ih]

theorem paths_succ (hpath : (paths ms headings)[i]? = some path) (hm : ms[i + 1]? = some m) :
    (paths ms headings)[i + 1]? = some (path.take (m.2.level - 1) ++ [m.2.title]) := by
  induction ms generalizing headings i with
  | nil => simp at hm
  | cons first rest ih =>
    rw [List.getElem?_cons_succ] at hm
    simp only [paths, List.getElem?_cons_succ]
    cases i with
    | zero =>
      simp only [paths, List.getElem?_cons_zero, Option.some.injEq] at hpath
      cases rest with
      | nil => simp at hm
      | cons second rest =>
        simp only [List.getElem?_cons_zero, Option.some.injEq] at hm
        subst hm
        simp [paths, hpath]
    | succ i =>
      simp only [paths, List.getElem?_cons_succ] at hpath
      exact ih hpath hm

/-- The level of a heading by its number. -/
def levelAt (ms : List (ℕ × Heading)) (i : ℕ) : ℕ := (ms[i]?.map fun m => m.2.level).getD 1

def titleAt (ms : List (ℕ × Heading)) (i : ℕ) : String :=
  (ms[i]?.map fun m => m.2.title).getD ""

theorem paths_eq (hi : i < ms.length) :
    (paths ms [])[i]? = some ((flatPath (levelAt ms) i).map (titleAt ms)) := by
  induction i with
  | zero =>
    cases ms with
    | nil => simp at hi
    | cons m rest => simp [paths, flatPath, titleAt]
  | succ i ih =>
    have hm : ms[i + 1]? = some ms[i + 1] := List.getElem?_eq_getElem hi
    rw [paths_succ (ih (by omega)) hm]
    simp [flatPath, levelAt, titleAt, hm]

theorem levelAt_pos (markdown : String) (i : ℕ) : 0 < levelAt (matchesOf markdown) i := by
  cases h : (matchesOf markdown)[i]? with
  | none => simp [levelAt, h]
  | some m => simpa [levelAt, h] using level_pos (List.mem_of_getElem? h)

end Paths

/-- The chunk of the heading has the titles of its ancestors and its own title as its path. -/
def NamesAncestors (markdown : String) (i : ℕ) : Prop :=
  let ms := matchesOf markdown
  (markdownHeadingChunks markdown)[i]?.map (fun chunk => (chunk.startOffset, chunk.headingPath)) =
    ms[i]?.map fun m =>
      (m.1, " > ".intercalate ((ancestors (levelAt ms) i ++ [i]).map (titleAt ms)))

theorem chunk_of_heading {markdown : String} {i : ℕ} (hi : i < (matchesOf markdown).length) :
    (markdownHeadingChunks markdown)[i]?.map
        (fun chunk => (chunk.startOffset, chunk.headingPath)) =
      some ((matchesOf markdown)[i].1,
        " > ".intercalate ((flatPath (levelAt (matchesOf markdown)) i).map
          (titleAt (matchesOf markdown)))) := by
  have hne : matchesOf markdown ≠ [] := List.ne_nil_of_length_pos (by omega)
  have hstart : ((sections markdown (matchesOf markdown) [] 0).map
      MarkdownChunk.startOffset)[i]? = ((matchesOf markdown).map Prod.fst)[i]? := by
    rw [startOffsets_sections]
  have hpath : ((sections markdown (matchesOf markdown) [] 0).map
      MarkdownChunk.headingPath)[i]? =
        ((paths (matchesOf markdown) []).map (" > ".intercalate ·))[i]? := by
    rw [headingPaths_sections]
  simp only [List.getElem?_map, paths_eq hi, List.getElem?_eq_getElem hi] at hstart hpath
  rw [markdownHeadingChunks_eq hne]
  cases hchunk : (sections markdown (matchesOf markdown) [] 0)[i]? with
  | none => simp [hchunk] at hstart
  | some chunk =>
    simp only [hchunk, Option.map_some, Option.some.injEq] at hstart hpath
    simp [hstart, hpath]

/-- The path is right exactly for the nested headings. -/
theorem names_ancestors_iff (markdown : String) (i : ℕ) (hi : i < (matchesOf markdown).length) :
    NamesAncestors markdown i ↔ Nested (levelAt (matchesOf markdown)) i := by
  have hsub := ancestors_sublist (i := i) (levelAt_pos markdown)
  rw [← flatPath_eq_ancestors_iff (levelAt_pos markdown)]
  simp only [NamesAncestors, chunk_of_heading hi, List.getElem?_eq_getElem hi, Option.map_some,
    Option.some.injEq, Prod.mk.injEq, true_and]
  constructor
  · intro hjoin
    have heq := eq_of_join_eq (hsub.map _) (by simp) hjoin
    have hlength := congrArg List.length heq
    rw [List.length_map, List.length_map] at hlength
    exact (hsub.eq_of_length hlength).symm
  · intro heq
    rw [heq]

/-- A heading directly below the first one, two levels deeper. -/
theorem deeper_heading_right : NamesAncestors "## A\n#### B" 1 :=
  (names_ancestors_iff "## A\n#### B" 1 (by decide +kernel)).mpr
    (.deeper 0 (by decide +kernel) .first)

/-- `B` and `C` are siblings, and the path of `C` is `A > B > C`. -/
theorem sibling_in_path :
    ¬ ∀ markdown i, i < (matchesOf markdown).length → NamesAncestors markdown i := by
  intro h
  have hnames := h "## A\n### B\n### C" 2 (by decide +kernel)
  rw [NamesAncestors] at hnames
  revert hnames
  decide +kernel

end Hippo.Markdown
