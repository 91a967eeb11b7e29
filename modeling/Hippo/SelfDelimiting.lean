import Mathlib.Data.List.Basic

/-!
# Codes that show where they end

A code is self-delimiting if what follows a code word can be told apart from it: two texts that
begin with code words and are equal begin with the same one. Sequences of such codes, lists of code
words with a closing mark, and lists with separators are self-delimiting again.
-/
namespace Hippo

variable {α β σ : Type*}

def SelfDelimiting (encode : α → List σ) : Prop :=
  ∀ a a' rest rest', encode a ++ rest = encode a' ++ rest' → a = a' ∧ rest = rest'

/-- No code word begins with the mark, and none is empty. -/
def NeverStarts (mark : σ) (encode : α → List σ) : Prop :=
  ∀ a rest rest', encode a ++ rest ≠ mark :: rest'

namespace SelfDelimiting

variable {encode : α → List σ} {encode' : β → List σ} {mark separator : σ}

/-- A reader for the code words. -/
theorem of_reader (read : List σ → Option (α × List σ))
    (h : ∀ a rest, read (encode a ++ rest) = some (a, rest)) : SelfDelimiting encode := by
  intro a a' rest rest' heq
  have hread := (h a rest).symm.trans ((congrArg read heq).trans (h a' rest'))
  rw [Option.some.injEq, Prod.mk.injEq] at hread
  exact hread

theorem opened (h : SelfDelimiting encode) (front : List σ) :
    SelfDelimiting fun a => front ++ encode a := by
  intro a a' rest rest' heq
  rw [List.append_assoc, List.append_assoc] at heq
  exact h a a' rest rest' (List.append_cancel_left heq)

theorem closed (h : SelfDelimiting encode) (back : List σ) :
    SelfDelimiting fun a => encode a ++ back := by
  intro a a' rest rest' heq
  rw [List.append_assoc, List.append_assoc] at heq
  obtain ⟨ha, hrest⟩ := h a a' _ _ heq
  exact ⟨ha, List.append_cancel_left hrest⟩

theorem pair (h : SelfDelimiting encode) (h' : SelfDelimiting encode') :
    SelfDelimiting fun p : α × β => encode p.1 ++ encode' p.2 := by
  intro ⟨a, b⟩ ⟨a', b'⟩ rest rest' heq
  simp only [List.append_assoc] at heq
  obtain ⟨ha, hrest⟩ := h a a' _ _ heq
  obtain ⟨hb, hrest⟩ := h' b b' _ _ hrest
  exact ⟨by rw [ha, hb], hrest⟩

theorem comap {γ : Type*} (h : SelfDelimiting encode) {f : γ → α} (hf : Function.Injective f) :
    SelfDelimiting fun c => encode (f c) := by
  intro c c' rest rest' heq
  obtain ⟨hc, hrest⟩ := h (f c) (f c') rest rest' heq
  exact ⟨hf hc, hrest⟩

/-- Code words one after the other, up to a mark that begins none of them. -/
theorem upTo (h : SelfDelimiting encode) (hmark : NeverStarts mark encode) :
    SelfDelimiting fun l : List α => l.flatMap encode ++ [mark] := by
  intro l
  induction l with
  | nil =>
    intro l' rest rest' heq
    cases l' with
    | nil => exact ⟨rfl, by simpa using heq⟩
    | cons a' l' => exact absurd heq.symm (by simpa using hmark a' _ rest)
  | cons a l ih =>
    intro l' rest rest' heq
    cases l' with
    | nil => exact absurd heq (by simpa using hmark a _ rest')
    | cons a' l' =>
      simp only [List.flatMap_cons, List.append_assoc] at heq
      obtain ⟨ha, htail⟩ := h a a' _ _ heq
      obtain ⟨hl, hrest⟩ := ih l' rest rest' (by simpa using htail)
      exact ⟨by rw [ha, hl], hrest⟩

/-- The code words of a list with a separator between them, up to the closing mark. -/
def separated (encode : α → List σ) (separator mark : σ) : List α → List σ
  | [] => [mark]
  | a :: l => encode a ++ (l.flatMap (fun b => separator :: encode b) ++ [mark])

theorem list (h : SelfDelimiting encode) (hmark : NeverStarts mark encode)
    (hseparator : separator ≠ mark) : SelfDelimiting (separated encode separator mark) := by
  have hothers : SelfDelimiting fun l : List α =>
      l.flatMap (fun b => separator :: encode b) ++ [mark] := by
    refine upTo (h.opened [separator]) fun a rest rest' heq => ?_
    exact hseparator (List.cons.inj heq).1
  intro l l' rest rest' heq
  cases l with
  | nil =>
    cases l' with
    | nil => exact ⟨rfl, by simpa [separated] using heq⟩
    | cons a' l' => exact absurd heq.symm (by simpa [separated] using hmark a' _ rest)
  | cons a l =>
    cases l' with
    | nil => exact absurd heq (by simpa [separated] using hmark a _ rest')
    | cons a' l' =>
      simp only [separated, List.append_assoc] at heq
      obtain ⟨ha, htail⟩ := h a a' _ _ heq
      obtain ⟨hl, hrest⟩ := hothers l l' rest rest' (by simpa using htail)
      exact ⟨by rw [ha, hl], hrest⟩

end SelfDelimiting

end Hippo
