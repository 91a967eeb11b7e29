import Hippo.Transcript

/-!
# The prompts of a segmented transcript

An extractor of a transcript seen through the prompts of its segments: a user line either adds to
the open segment or begins the next one.
-/
namespace Hippo

/-- The prompts of the finished segments and of the open one. -/
@[ext]
structure Prompts where
  finished : List (List String)
  opened : List String

namespace Prompts

/-- The open segment is finished and the next one begins. -/
def close (v : Prompts) : Prompts := ⟨v.finished ++ [v.opened], []⟩

def add (prompts : List String) (v : Prompts) : Prompts := ⟨v.finished, v.opened ++ prompts⟩

/-- A line: the open segment is finished if the line splits, then the prompts are added. -/
def advance (split : Bool) (prompts : List String) (v : Prompts) : Prompts :=
  (if split then v.close else v).add prompts

@[simp] theorem add_nil (v : Prompts) : v.add [] = v := by simp [add]

theorem length_finished_advance (split : Bool) (prompts : List String) (v : Prompts) :
    (v.advance split prompts).finished.length = v.finished.length + if split then 1 else 0 := by
  cases split <;> simp [advance, add, close]

end Prompts

namespace Segmenter

variable {σ : Type}

def promptView (prompts : σ → List String) (s : Segmenter σ) : Prompts where
  finished := s.segments.map prompts
  opened := (s.current.map prompts).getD []

/-- Whether a user line at a time finishes the open segment. -/
def splitsAt (hasContent : σ → Bool) (ts : ℤ) (s : Segmenter σ) : Bool :=
  0 < s.lastUserMs ∧ 0 < ts ∧ (taskGapMs < ts - s.lastUserMs ∨ maxSegmentChars < s.currentChars) ∧
    s.current.any hasContent

/-- A segment that has a size has content. -/
def Sized (hasContent : σ → Bool) (s : Segmenter σ) : Prop :=
  0 < s.currentChars → s.current.any hasContent = true

section Views

variable {hasContent : σ → Bool} {prompts : σ → List String} {s : Segmenter σ}

theorem promptView_openNext {fresh : ℕ → σ} (hfresh : ∀ n, prompts (fresh n) = []) :
    (s.openNext fresh).promptView prompts = s.promptView prompts := by
  cases hcurrent : s.current <;> simp [promptView, openNext, hcurrent, hfresh]

theorem any_openNext {fresh : ℕ → σ} (hfresh : ∀ n, hasContent (fresh n) = false) :
    (s.openNext fresh).current.any hasContent = s.current.any hasContent := by
  cases hcurrent : s.current <;> simp [openNext, hcurrent, hfresh]

/-- The open segment is replaced, and finished if it has content. -/
theorem promptView_replace {keep : σ → Bool} {fresh : ℕ → σ} {a : σ} (ha : s.current = some a)
    (hfresh : ∀ n, prompts (fresh n) = []) (hblank : keep a = false → prompts a = []) :
    ((s.close keep).openNext fresh).promptView prompts =
      if keep a then (s.promptView prompts).close else s.promptView prompts := by
  by_cases hkeep : keep a = true
  · simp [promptView, Segmenter.close, Prompts.close, openNext, ha, Option.filter, hkeep, hfresh]
  · have hnone : prompts a = [] := hblank (by simpa using hkeep)
    simp [promptView, Segmenter.close, openNext, ha, Option.filter, hkeep, hfresh, hnone]

/-- The prompts of the segments when the stream ends here. -/
theorem map_finish (s : Segmenter σ) : (s.finish hasContent).map prompts =
    (s.promptView prompts).finished ++
      if s.current.any hasContent then [(s.promptView prompts).opened] else [] := by
  cases hcurrent : s.current with
  | none => simp [finish_eq, promptView, hcurrent]
  | some a =>
    by_cases ha : hasContent a = true <;>
      simp [finish_eq, promptView, hcurrent, Option.filter, ha]

theorem promptView_modify {f : σ → σ} {added : List String} (hopen : s.current.isSome = true)
    (hf : ∀ a, prompts (f a) = prompts a ++ added) :
    (s.modify f).promptView prompts = (s.promptView prompts).add added := by
  obtain ⟨a, ha⟩ := Option.isSome_iff_exists.mp hopen
  simp [promptView, Prompts.add, modify, ha, hf]

end Views

end Segmenter

/-- What a line is for the segmentation. -/
inductive LineKind where
  | user (ts : ℤ) (prompt : Option String)
  | assistant
  | other
deriving DecidableEq

namespace LineKind

variable {σ : Type}

def prompts : LineKind → List String
  | user _ prompt => prompt.toList
  | _ => []

/-- Whether a line finishes the open segment. -/
def splits (hasContent : σ → Bool) (s : Segmenter σ) : LineKind → Bool
  | user ts _ => s.splitsAt hasContent ts
  | _ => false

/-- The time of the last user line, behind a line. -/
def clock (lastUserMs : ℤ) : LineKind → ℤ
  | user ts _ => if 0 < ts then ts else lastUserMs
  | _ => lastUserMs

end LineKind

/-- What a line does to the prompts, the clock and the size of the open segment. -/
structure Advances {σ : Type} (hasContent : σ → Bool) (prompts : σ → List String)
    (kind : LineKind) (s s' : Segmenter σ) : Prop where
  view : s'.promptView prompts =
    (s.promptView prompts).advance (kind.splits hasContent s) kind.prompts
  clock : s'.lastUserMs = kind.clock s.lastUserMs
  sized : s.Sized hasContent → s'.Sized hasContent

/-- A line that is no user line. -/
theorem Advances.still {σ : Type} {hasContent : σ → Bool} {prompts : σ → List String}
    {kind : LineKind} {s s' : Segmenter σ} (hkind : ∀ ts prompt, kind ≠ .user ts prompt)
    (hview : s'.promptView prompts = s.promptView prompts) (hclock : s'.lastUserMs = s.lastUserMs)
    (hsized : s.Sized hasContent → s'.Sized hasContent) :
    Advances hasContent prompts kind s s' := by
  cases kind with
  | user ts prompt => exact absurd rfl (hkind ts prompt)
  | assistant =>
    refine ⟨?_, hclock, hsized⟩
    simpa [Prompts.advance, LineKind.splits, LineKind.prompts] using hview
  | other =>
    refine ⟨?_, hclock, hsized⟩
    simpa [Prompts.advance, LineKind.splits, LineKind.prompts] using hview

end Hippo
