import Mathlib.Data.List.Infix
import Mathlib.Order.Basic

/-!
# A file over time

A file is appended to, truncated and replaced. Its generation counts the truncations and
replacements: within one generation every content is a prefix of the later ones.
-/
namespace Hippo

/-- A file at one moment. -/
@[ext]
structure FileVersion (ι β : Type*) where
  id : ι
  content : List β
  generation : ℕ := 0
  deriving DecidableEq

namespace FileVersion

variable {ι β : Type*}

def size (f : FileVersion ι β) : ℕ := f.content.length

def append (f : FileVersion ι β) (more : List β) : FileVersion ι β :=
  { f with content := f.content ++ more }

/-- The first `n` bytes stay. -/
def truncate (f : FileVersion ι β) (n : ℕ) : FileVersion ι β :=
  { f with content := f.content.take n, generation := f.generation + 1 }

def replace (f : FileVersion ι β) (id : ι) (content : List β) : FileVersion ι β :=
  ⟨id, content, f.generation + 1⟩

/-- `a ≤ b` when `a` can have become `b`. -/
instance : PartialOrder (FileVersion ι β) where
  le a b := a.generation < b.generation ∨
    a.generation = b.generation ∧ a.id = b.id ∧ a.content <+: b.content
  le_refl a := Or.inr ⟨rfl, rfl, List.prefix_rfl⟩
  le_trans a b c hab hbc := by
    rcases hab with hab | ⟨hg, hid, hcontent⟩
    · rcases hbc with hbc | ⟨hg', -, -⟩ <;> exact Or.inl (by omega)
    · rcases hbc with hbc | ⟨hg', hid', hcontent'⟩
      · exact Or.inl (by omega)
      · exact Or.inr ⟨hg.trans hg', hid.trans hid', hcontent.trans hcontent'⟩
  le_antisymm a b hab hba := by
    rcases hab with hab | ⟨hg, hid, hcontent⟩
    · rcases hba with hba | ⟨hg', -, -⟩ <;> omega
    · rcases hba with hba | ⟨-, -, hcontent'⟩
      · omega
      · exact FileVersion.ext hid (hcontent.eq_of_length_le hcontent'.length_le) hg

theorem le_append (f : FileVersion ι β) (more : List β) : f ≤ f.append more :=
  Or.inr ⟨rfl, rfl, List.prefix_append _ _⟩

theorem le_truncate (f : FileVersion ι β) (n : ℕ) : f ≤ f.truncate n :=
  Or.inl (Nat.lt_succ_self _)

theorem le_replace (f : FileVersion ι β) (id : ι) (content : List β) : f ≤ f.replace id content :=
  Or.inl (Nat.lt_succ_self _)

/-- Within a generation nothing is lost. -/
theorem isPrefix_of_le {a b : FileVersion ι β} (h : a ≤ b) (hg : a.generation = b.generation) :
    a.content <+: b.content := by
  rcases h with h | ⟨-, -, hcontent⟩
  · omega
  · exact hcontent

/-- Within a generation the size tells the version. -/
theorem eq_of_le {a b : FileVersion ι β} (h : a ≤ b) (hg : a.generation = b.generation)
    (hsize : b.size ≤ a.size) : a = b := by
  rcases h with h | ⟨-, hid, hcontent⟩
  · omega
  · exact FileVersion.ext hid (hcontent.eq_of_length_le hsize) hg

end FileVersion

end Hippo
