import Mathlib.Data.List.Basic
import Mathlib.Logic.Function.Basic

/-!
# Paged files with a write-ahead log

A reader applies the committed frames of the log over the file, the newest last. A
checkpoint writes to the file what the reader sees, page by page. The log may go when every
page it has was written.
-/
namespace Hippo.PagedFile

/-- The pages of a file. A page past its end is `none`. -/
abbrev Pages (β : Type) := ℕ → Option β

/-- A frame of the log: a page and what it becomes. -/
abbrev Frame (β : Type) := ℕ × Option β

variable {β : Type}

def write (file : Pages β) (frame : Frame β) : Pages β :=
  Function.update file frame.1 frame.2

/-- What a reader sees. -/
def overlay (frames : List (Frame β)) (file : Pages β) : Pages β :=
  frames.foldl write file

/-- The file after the checkpoint wrote the pages `pages` of the view. -/
def backfill (view : Pages β) (pages : List ℕ) (file : Pages β) : Pages β :=
  pages.foldl (fun file page => write file (page, view page)) file

@[simp] theorem overlay_nil (file : Pages β) : overlay [] file = file := rfl

theorem write_of_ne {file : Pages β} {frame : Frame β} {page : ℕ} (h : page ≠ frame.1) :
    write file frame page = file page :=
  Function.update_of_ne h ..

@[simp] theorem write_same (file : Pages β) (frame : Frame β) :
    write file frame frame.1 = frame.2 :=
  Function.update_self ..

/-- The view at a page is that of its newest frame, or of the file where it has none. -/
theorem overlay_congr (frames : List (Frame β)) {file file' : Pages β} {page : ℕ}
    (h : page ∉ frames.map Prod.fst → file page = file' page) :
    overlay frames file page = overlay frames file' page := by
  induction frames generalizing file file' with
  | nil => exact h (by simp)
  | cons frame frames ih =>
    apply ih
    intro hpage
    by_cases hsame : page = frame.1
    · rw [hsame, write_same, write_same]
    · rw [write_of_ne hsame, write_of_ne hsame]
      apply h
      simp only [List.map_cons, List.mem_cons, not_or]
      exact ⟨hsame, hpage⟩

theorem overlay_of_notMem {frames : List (Frame β)} {file : Pages β} {page : ℕ}
    (h : page ∉ frames.map Prod.fst) : overlay frames file page = file page := by
  induction frames generalizing file with
  | nil => rfl
  | cons frame frames ih =>
    simp only [List.map_cons, List.mem_cons, not_or] at h
    have hrest : overlay frames (write file frame) page = write file frame page := ih h.2
    rw [write_of_ne h.1] at hrest
    exact hrest

/-- A page written by the checkpoint does not change the view. -/
theorem overlay_write_view (frames : List (Frame β)) (file : Pages β) (page : ℕ) :
    overlay frames (write file (page, overlay frames file page)) = overlay frames file := by
  funext other
  apply overlay_congr
  intro hother
  by_cases hsame : other = page
  · subst hsame
    have hview : overlay frames file other = file other := overlay_of_notMem hother
    exact (write_same file (other, _)).trans hview
  · exact write_of_ne hsame

theorem backfill_apply (view : Pages β) (pages : List ℕ) (file : Pages β) (page : ℕ) :
    backfill view pages file page = if page ∈ pages then view page else file page := by
  induction pages generalizing file with
  | nil => simp [backfill]
  | cons first pages ih =>
    have hrest := ih (write file (first, view first))
    simp only [backfill, List.foldl_cons] at hrest ⊢
    rw [hrest]
    by_cases hpage : page ∈ pages
    · simp [hpage]
    · by_cases hsame : page = first
      · subst hsame
        simp [hpage, write]
      · rw [write_of_ne hsame]
        simp [hpage, hsame]

/-- When every page of the log was written, the file alone is the view. -/
theorem backfill_complete (frames : List (Frame β)) (file : Pages β) :
    backfill (overlay frames file) (frames.map Prod.fst) file = overlay frames file := by
  funext page
  rw [backfill_apply]
  split
  · rfl
  · rename_i hpage
    exact (overlay_of_notMem hpage).symm

end Hippo.PagedFile
