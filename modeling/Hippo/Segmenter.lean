import Mathlib.Data.Int.Notation
import Mathlib.Data.List.Infix

/-!
# Splitting a stream into numbered segments

A reader of a growing stream keeps the segments it has finished and at most one that is open.
Finished segments are only added at the end, and each is numbered by its position. A `view` of
the segments names the part of them that finished segments keep.
-/
namespace Hippo

/-- Finished segments, the open one, its size, and the time of the last item that may split. -/
structure Segmenter (σ : Type*) where
  segments : List σ := []
  current : Option σ := none
  currentChars : ℕ := 0
  lastUserMs : ℤ := 0
deriving DecidableEq, Repr

namespace Segmenter

variable {σ τ : Type*}

/-- Closes the open segment. It is finished if it is worth keeping, and forgotten otherwise. -/
def close (keep : σ → Bool) (s : Segmenter σ) : Segmenter σ :=
  { s with segments := s.segments ++ (s.current.filter keep).toList, current := none }

/-- Opens the next segment unless one is open. -/
def openNext (fresh : ℕ → σ) (s : Segmenter σ) : Segmenter σ :=
  { s with current := some (s.current.getD (fresh s.segments.length)) }

def modify (f : σ → σ) (s : Segmenter σ) : Segmenter σ :=
  { s with current := s.current.map f }

/-- Changes a finished segment. -/
def modifyAt (i : ℕ) (f : σ → σ) (s : Segmenter σ) : Segmenter σ :=
  { s with segments := s.segments.modify i f }

def addChars (n : ℕ) (s : Segmenter σ) : Segmenter σ :=
  { s with currentChars := s.currentChars + n }

def setChars (n : ℕ) (s : Segmenter σ) : Segmenter σ :=
  { s with currentChars := n }

def setUserMs (t : ℤ) (s : Segmenter σ) : Segmenter σ :=
  { s with lastUserMs := t }

/-- The segments when the stream ends here. -/
def finish (keep : σ → Bool) (s : Segmenter σ) : List σ := (s.close keep).segments

def map (view : σ → τ) (s : Segmenter σ) : Segmenter τ where
  segments := s.segments.map view
  current := s.current.map view
  currentChars := s.currentChars
  lastUserMs := s.lastUserMs

theorem finish_eq (keep : σ → Bool) (s : Segmenter σ) :
    s.finish keep = s.segments ++ (s.current.filter keep).toList := rfl

/-- All segments but the last are finished ones. -/
theorem dropLast_finish (keep : σ → Bool) (s : Segmenter σ) :
    (s.finish keep).dropLast <+: s.segments := by
  rw [finish_eq]
  cases s.current.filter keep with
  | none =>
    rw [Option.toList_none, List.append_nil]
    exact List.dropLast_prefix _
  | some a =>
    rw [Option.toList_some, List.dropLast_concat]

/-- Opening a segment that is not worth keeping adds none. -/
theorem finish_openNext {keep : σ → Bool} {fresh : ℕ → σ} {s : Segmenter σ}
    (hs : s.current = none) (hfresh : ∀ n, keep (fresh n) = false) :
    (s.openNext fresh).finish keep = s.finish keep := by
  simp [finish_eq, openNext, hs, Option.filter, hfresh]

/-- A segment worth keeping counts the same open and finished. -/
theorem finish_close_openNext {keep : σ → Bool} {fresh : ℕ → σ} {s : Segmenter σ}
    (hs : s.current.any keep = true) (hfresh : ∀ n, keep (fresh n) = false) :
    ((s.close fun _ => true).openNext fresh).finish keep = s.finish keep := by
  cases hcurrent : s.current with
  | none => simp [hcurrent] at hs
  | some a =>
    have ha : keep a = true := by simpa [hcurrent] using hs
    simp [finish_eq, close, openNext, hcurrent, Option.filter, hfresh, ha]

theorem length_finish_modify {keep : σ → Bool} {f : σ → σ} (s : Segmenter σ)
    (hf : ∀ a, keep a = true → keep (f a) = true) :
    (s.finish keep).length ≤ ((s.modify f).finish keep).length := by
  cases hcurrent : s.current with
  | none => simp [finish_eq, modify, hcurrent]
  | some a =>
    by_cases ha : keep a = true
    · simp [finish_eq, modify, hcurrent, Option.filter, ha, hf a ha]
    · simp [finish_eq, modify, hcurrent, Option.filter, ha]

section View

variable {view : σ → τ} {keep : σ → Bool} {s : Segmenter σ}

theorem map_close {keep' : τ → Bool} (h : ∀ a, keep' (view a) = keep a) :
    (s.close keep).map view = (s.map view).close keep' := by
  cases hs : s.current with
  | none => simp [close, map, hs]
  | some a => by_cases ha : keep a = true <;> simp [close, map, hs, h, ha, Option.filter]

theorem map_openNext {fresh : ℕ → σ} {fresh' : ℕ → τ} (h : ∀ n, view (fresh n) = fresh' n) :
    (s.openNext fresh).map view = (s.map view).openNext fresh' := by
  cases hs : s.current <;> simp [openNext, map, hs, h]

theorem map_modify {f : σ → σ} {f' : τ → τ} (h : ∀ a, view (f a) = f' (view a)) :
    (s.modify f).map view = (s.map view).modify f' := by
  cases hs : s.current <;> simp [modify, map, hs, h]

@[simp] theorem map_addChars (n : ℕ) : (s.addChars n).map view = (s.map view).addChars n := rfl

@[simp] theorem map_setChars (n : ℕ) : (s.setChars n).map view = (s.map view).setChars n := rfl

@[simp] theorem map_setUserMs (t : ℤ) : (s.setUserMs t).map view = (s.map view).setUserMs t := rfl

theorem finish_map {keep' : τ → Bool} (h : ∀ a, keep' (view a) = keep a) :
    (s.finish keep).map view = (s.map view).finish keep' := by
  have hclose := congrArg Segmenter.segments (map_close (s := s) h)
  exact hclose

end View

section Alike

variable {view : σ → τ} {s t : Segmenter σ}

/-- Two readers in the same state, up to what `view` does not show of their segments. -/
def Alike (view : σ → τ) (s t : Segmenter σ) : Prop := s.map view = t.map view

theorem Alike.refl (view : σ → τ) (s : Segmenter σ) : s.Alike view s := rfl

theorem Alike.currentChars (h : s.Alike view t) : s.currentChars = t.currentChars := by
  have hmap : (s.map view).currentChars = (t.map view).currentChars := by rw [h]
  exact hmap

theorem Alike.lastUserMs (h : s.Alike view t) : s.lastUserMs = t.lastUserMs := by
  have hmap : (s.map view).lastUserMs = (t.map view).lastUserMs := by rw [h]
  exact hmap

theorem Alike.current (h : s.Alike view t) : s.current.map view = t.current.map view :=
  congrArg Segmenter.current h

theorem Alike.length (h : s.Alike view t) : s.segments.length = t.segments.length := by
  have hsegments : s.segments.map view = t.segments.map view := congrArg Segmenter.segments h
  simpa using congrArg List.length hsegments

theorem Alike.isSome (h : s.Alike view t) : s.current.isSome = t.current.isSome := by
  simpa using congrArg Option.isSome h.current

theorem Alike.close (h : s.Alike view t) (keep : σ → Bool) (keep' : τ → Bool)
    (hkeep : ∀ a, keep' (view a) = keep a) : (s.close keep).Alike view (t.close keep) := by
  rw [Alike, map_close hkeep, map_close hkeep, h]

theorem Alike.openNext (h : s.Alike view t) {fresh fresh' : ℕ → σ}
    (hfresh : ∀ n, view (fresh n) = view (fresh' n)) :
    (s.openNext fresh).Alike view (t.openNext fresh') := by
  rw [Alike, map_openNext hfresh, map_openNext fun _ => rfl, h]

theorem Alike.modify (h : s.Alike view t) {f g : σ → σ}
    (hfg : ∀ a b, view a = view b → view (f a) = view (g b)) :
    (s.modify f).Alike view (t.modify g) := by
  have hsegments : s.segments.map view = t.segments.map view := congrArg Segmenter.segments h
  have hcurrent := h.current
  cases hs : s.current with
  | none =>
    cases ht : t.current with
    | none => simp [Alike, Segmenter.modify, map, hs, ht, hsegments, h.currentChars, h.lastUserMs]
    | some b => simp [hs, ht] at hcurrent
  | some a =>
    cases ht : t.current with
    | none => simp [hs, ht] at hcurrent
    | some b =>
      have hab : view (f a) = view (g b) := hfg a b (by simpa [hs, ht] using hcurrent)
      simp [Alike, Segmenter.modify, map, hs, ht, hsegments, h.currentChars, h.lastUserMs, hab]

theorem Alike.addChars (h : s.Alike view t) (n : ℕ) :
    (s.addChars n).Alike view (t.addChars n) := by
  rw [Alike, map_addChars, map_addChars, h]

theorem Alike.setUserMs (h : s.Alike view t) (ms : ℤ) :
    (s.setUserMs ms).Alike view (t.setUserMs ms) := by
  rw [Alike, map_setUserMs, map_setUserMs, h]

theorem Alike.setChars (h : s.Alike view t) (n : ℕ) :
    (s.setChars n).Alike view (t.setChars n) := by
  rw [Alike, map_setChars, map_setChars, h]

/-- Readers that take alike steps stay alike. -/
theorem alike_foldl {β ι : Type*} {step step' : β → ι → β} (out : β → Segmenter σ) {items : List ι}
    (hstep : ∀ b b', ∀ i ∈ items, (out b).Alike view (out b') →
      (out (step b i)).Alike view (out (step' b' i))) {b b' : β}
    (h : (out b).Alike view (out b')) :
    (out (items.foldl step b)).Alike view (out (items.foldl step' b')) := by
  induction items generalizing b b' with
  | nil => exact h
  | cons i items ih =>
    have hhead := hstep b b' i List.mem_cons_self h
    exact ih (fun c c' j hj => hstep c c' j (List.mem_cons_of_mem _ hj)) hhead

end Alike

section Append

variable {s t u : Segmenter σ}

/-- Everything finished before is still there. -/
def Extends (s t : Segmenter σ) : Prop := s.segments <+: t.segments

theorem Extends.refl (s : Segmenter σ) : s.Extends s := List.prefix_rfl

theorem Extends.trans (h : s.Extends t) (h' : t.Extends u) : s.Extends u :=
  List.IsPrefix.trans h h'

theorem extends_of_eq (h : t.segments = s.segments) : s.Extends t := by
  rw [Extends, h]

theorem extends_close (keep : σ → Bool) (s : Segmenter σ) : s.Extends (s.close keep) :=
  List.prefix_append _ _

/-- A reader whose every step extends keeps what it has finished. -/
theorem extends_foldl {β ι : Type*} {step : β → ι → β} (out : β → Segmenter σ)
    (hstep : ∀ b i, (out b).Extends (out (step b i))) (items : List ι) (b : β) :
    (out b).Extends (out (items.foldl step b)) := by
  induction items generalizing b with
  | nil => exact Extends.refl _
  | cons i items ih => exact (hstep b i).trans (ih _)

/-- All but the last segment of the shorter stream are segments of the longer one. -/
theorem finish_extends {keep : σ → Bool} (h : s.Extends t) :
    (s.finish keep).dropLast <+: t.finish keep :=
  ((dropLast_finish keep s).trans h).trans (extends_close keep t)

/-- The same for a longer stream that another reader reads. -/
theorem Alike.finish_extends {view : σ → τ} (h : s.Alike view t) (hext : t.Extends u)
    (keep : σ → Bool) (keep' : τ → Bool) (hkeep : ∀ a, keep' (view a) = keep a) :
    ((s.finish keep).map view).dropLast <+: (u.finish keep).map view := by
  have hsame : (s.finish keep).map view = (t.finish keep).map view := by
    rw [finish_map hkeep, finish_map hkeep, h]
  rw [hsame, ← List.map_dropLast]
  exact (Segmenter.finish_extends hext).map view

end Append

section All

variable {p : σ → Prop} {s : Segmenter σ}

/-- A property of every segment, finished or open. -/
structure All (p : σ → Prop) (s : Segmenter σ) : Prop where
  segments : ∀ a ∈ s.segments, p a
  current : ∀ a ∈ s.current, p a

theorem all_empty : (({} : Segmenter σ)).All p :=
  ⟨fun _ ha => (nomatch ha), fun _ ha => (nomatch ha)⟩

theorem All.close (h : s.All p) (keep : σ → Bool) : (s.close keep).All p := by
  constructor
  · intro a ha
    rcases List.mem_append.mp ha with ha | ha
    · exact h.segments a ha
    · exact h.current a (Option.filter_eq_some_iff.mp (Option.mem_toList.mp ha)).1
  · intro a ha
    cases ha

theorem All.openNext (h : s.All p) {fresh : ℕ → σ} (hfresh : ∀ n, p (fresh n)) :
    (s.openNext fresh).All p := by
  constructor
  · exact h.segments
  · intro a ha
    cases hs : s.current with
    | none =>
      obtain rfl : fresh s.segments.length = a := by simpa [Segmenter.openNext, hs] using ha
      exact hfresh _
    | some b =>
      obtain rfl : b = a := by simpa [Segmenter.openNext, hs] using ha
      exact h.current _ hs

theorem All.modify (h : s.All p) {f : σ → σ} (hf : ∀ a, p a → p (f a)) : (s.modify f).All p := by
  constructor
  · exact h.segments
  · intro a ha
    obtain ⟨b, hb, rfl⟩ := Option.map_eq_some_iff.mp ha
    exact hf b (h.current b hb)

theorem All.addChars (h : s.All p) (n : ℕ) : (s.addChars n).All p := ⟨h.segments, h.current⟩

theorem All.setChars (h : s.All p) (n : ℕ) : (s.setChars n).All p := ⟨h.segments, h.current⟩

theorem All.setUserMs (h : s.All p) (t : ℤ) : (s.setUserMs t).All p := ⟨h.segments, h.current⟩

theorem All.finish (h : s.All p) {keep : σ → Bool} {a : σ} (ha : a ∈ s.finish keep) : p a :=
  (h.close keep).segments a ha

theorem all_foldl {β ι : Type*} {step : β → ι → β} (out : β → Segmenter σ)
    (hstep : ∀ b i, (out b).All p → (out (step b i)).All p) (items : List ι) (b : β)
    (h : (out b).All p) : (out (items.foldl step b)).All p := by
  induction items generalizing b with
  | nil => exact h
  | cons i items ih => exact ih _ (hstep b i h)

end All

section Numbering

variable {index : σ → ℤ} {s : Segmenter σ}

/-- The segments are numbered by their positions, the open one by the next. -/
structure Numbered (index : σ → ℤ) (s : Segmenter σ) : Prop where
  segments : s.segments.map index = (List.range s.segments.length).map Int.ofNat
  current : ∀ a ∈ s.current, index a = s.segments.length

theorem numbered_empty : (({} : Segmenter σ)).Numbered index := by
  constructor
  · rfl
  · intro a ha
    cases ha

theorem Numbered.close (h : s.Numbered index) (keep : σ → Bool) :
    (s.close keep).Numbered index := by
  constructor
  · cases hs : s.current.filter keep with
    | none => simpa [Segmenter.close, hs] using h.segments
    | some a =>
      have ha : a ∈ s.current := (Option.filter_eq_some_iff.mp hs).1
      simp [Segmenter.close, hs, h.segments, List.range_succ, h.current a ha]
  · intro a ha
    cases ha

theorem Numbered.openNext (h : s.Numbered index) {fresh : ℕ → σ}
    (hfresh : ∀ n, index (fresh n) = n) : (s.openNext fresh).Numbered index := by
  constructor
  · exact h.segments
  · intro a ha
    cases hs : s.current with
    | none =>
      obtain rfl : fresh s.segments.length = a := by simpa [Segmenter.openNext, hs] using ha
      exact hfresh _
    | some b =>
      obtain rfl : b = a := by simpa [Segmenter.openNext, hs] using ha
      exact h.current _ hs

theorem Numbered.modify (h : s.Numbered index) {f : σ → σ} (hf : ∀ a, index (f a) = index a) :
    (s.modify f).Numbered index := by
  constructor
  · exact h.segments
  · intro a ha
    obtain ⟨b, hb, rfl⟩ := Option.map_eq_some_iff.mp ha
    rw [hf]
    exact h.current b hb

theorem Numbered.addChars (h : s.Numbered index) (n : ℕ) : (s.addChars n).Numbered index :=
  ⟨h.segments, h.current⟩

theorem Numbered.setChars (h : s.Numbered index) (n : ℕ) : (s.setChars n).Numbered index :=
  ⟨h.segments, h.current⟩

theorem Numbered.setUserMs (h : s.Numbered index) (t : ℤ) : (s.setUserMs t).Numbered index :=
  ⟨h.segments, h.current⟩

theorem Numbered.finish (h : s.Numbered index) (keep : σ → Bool) :
    (s.finish keep).map index = (List.range (s.finish keep).length).map Int.ofNat :=
  (h.close keep).segments

/-- A reader whose every step keeps the numbering numbers its segments. -/
theorem numbered_foldl {β ι : Type*} {step : β → ι → β} (out : β → Segmenter σ)
    (hstep : ∀ b i, (out b).Numbered index → (out (step b i)).Numbered index) (items : List ι)
    (b : β) (h : (out b).Numbered index) : (out (items.foldl step b)).Numbered index := by
  induction items generalizing b with
  | nil => exact h
  | cons i items ih => exact ih _ (hstep b i h)

end Numbering

end Segmenter

end Hippo
