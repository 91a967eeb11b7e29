import Hippo.MemoryLinks
import Hippo.Worklist
import Mathlib.Data.List.Dedup

/-!
# Cycles of resolved links

`_would_create_cycle` keeps one set for the source it looks for and for the documents it has been
to. A document that two others link to comes up twice, which the search takes for the source.
-/
namespace Hippo.MemoryLinks
open Worklist

section Search

/-- A row of `memory_document_links` that is resolved. -/
def ResolvedLink (links : Links) (source target : ℕ) : Prop :=
  ∃ e ∈ links.rows.entries,
    e.2.sourceDocument = source ∧ e.2.resolution = .resolved ∧ e.2.target = some target

/-- A way along resolved links, or none at all. -/
def LinkReaches (links : Links) : ℕ → ℕ → Prop := Relation.ReflTransGen (ResolvedLink links)

/-- What is below the document is a tree: nothing leads back to it, and no other document below it
is the target of two. -/
structure NothingShared (links : Links) (document : ℕ) : Prop where
  root : ∀ a, LinkReaches links document a → ¬ ResolvedLink links a document
  parent : ∀ a b c, LinkReaches links document a → LinkReaches links document b →
    ResolvedLink links a c → ResolvedLink links b c → a = b

variable {links : Links}

theorem mem_nextIds {current target : ℕ} :
    target ∈ nextIds links current ↔ ResolvedLink links current target := by
  simp only [nextIds, List.mem_dedup, List.mem_filterMap, Table.select, List.mem_filter,
    decide_eq_true_eq, ResolvedLink]
  constructor
  · rintro ⟨e, ⟨hmem, hsource, hresolved⟩, htarget⟩
    exact ⟨e, hmem, hsource, hresolved, htarget⟩
  · rintro ⟨e, hmem, hsource, hresolved, htarget⟩
    exact ⟨e, ⟨hmem, hsource, hresolved⟩, htarget⟩

theorem reaches_iff {a b : ℕ} : Reaches (nextIds links) a b ↔ LinkReaches links a b := by
  simp only [Reaches, LinkReaches, mem_nextIds]

theorem tree_iff {document : ℕ} : Tree (nextIds links) document ↔ NothingShared links document := by
  constructor
  · intro h
    exact ⟨fun a ha hlink => h.root a (reaches_iff.mpr ha) (mem_nextIds.mpr hlink),
      fun a b c ha hb hac hbc => h.parent a b c (reaches_iff.mpr ha) (reaches_iff.mpr hb)
        (mem_nextIds.mpr hac) (mem_nextIds.mpr hbc)⟩
  · intro h
    exact ⟨fun a ha hlink => h.root a (reaches_iff.mp ha) (mem_nextIds.mp hlink),
      fun a b c ha hb hac hbc => h.parent a b c (reaches_iff.mp ha) (reaches_iff.mp hb)
        (mem_nextIds.mp hac) (mem_nextIds.mp hbc)⟩

theorem cycleLoop_eq (fuel : ℕ) (seen frontier : List ℕ) :
    cycleLoop links fuel seen frontier = revisits (nextIds links) fuel seen frontier := by
  induction fuel generalizing seen frontier with
  | zero => cases frontier <;> rfl
  | succ fuel ih =>
    cases frontier with
    | nil => rfl
    | cons current frontier => rw [cycleLoop, revisits, ih]

/-- The documents that a link leads to. -/
def linkTargets (links : Links) : List ℕ := links.rows.entries.filterMap fun e => e.2.target

theorem mem_linkTargets {source target : ℕ} (h : target ∈ nextIds links source) :
    target ∈ linkTargets links := by
  obtain ⟨e, hmem, -, -, htarget⟩ := mem_nextIds.mp h
  exact List.mem_filterMap.mpr ⟨e, hmem, htarget⟩

/-- The search answers no exactly if the source is not below the target and nothing below the
target is shared. -/
theorem wouldCreateCycle_eq_false (links : Links) (source target : ℕ) :
    wouldCreateCycle links source target = false ↔
      ¬ LinkReaches links target source ∧ NothingShared links target := by
  have hrounds : (linkTargets links).length + 1 < links.rows.entries.length + 2 := by
    have hlength := List.length_filterMap_le (fun e : ℕ × MemoryLink => e.2.target)
      links.rows.entries
    simp only [linkTargets]
    omega
  have hsearch := @revisits_eq_false_iff _ _ (nextIds links) source target (linkTargets links) _
    (fun a => List.nodup_dedup _) (fun a b hb => mem_linkTargets hb) hrounds
  rw [reaches_iff, tree_iff] at hsearch
  rw [← hsearch, wouldCreateCycle, cycleLoop_eq]
  cases revisits (nextIds links) (links.rows.entries.length + 2) [source] [target] with
  | none => simp
  | some found => simp

end Search

section Exactness

/-- **Cycle detection.** The answer is the right one exactly if the source is below the target or
nothing below the target is shared. -/
theorem wouldCreateCycle_exact_iff (links : Links) (source target : ℕ) :
    (wouldCreateCycle links source target = true ↔ LinkReaches links target source) ↔
      LinkReaches links target source ∨ NothingShared links target := by
  have hanswer := wouldCreateCycle_eq_false links source target
  rw [← Bool.not_eq_true] at hanswer
  tauto

/-- Document 1 links to 2 and to 3, and both link to 4. -/
def diamond : Links :=
  IndexedTable.empty.insertAll
    [⟨1, 1, some 2, "b.md", "b", .resolved⟩, ⟨1, 1, some 3, "c.md", "c", .resolved⟩,
      ⟨2, 2, some 4, "d.md", "d", .resolved⟩, ⟨3, 3, some 4, "d.md", "d", .resolved⟩]

/-- No link leads to document 5. -/
theorem diamond_taken_for_cycle :
    ¬ (wouldCreateCycle diamond 5 1 = true ↔ LinkReaches diamond 1 5) := by
  have hanswer : wouldCreateCycle diamond 5 1 = true := by decide +kernel
  have htargets : ∀ e ∈ diamond.rows.entries, e.2.target ≠ some 5 := by decide +kernel
  intro h
  cases h.mp hanswer with
  | tail _ hlink =>
    obtain ⟨e, hmem, -, -, htarget⟩ := hlink
    exact htargets e hmem htarget

end Exactness

end Hippo.MemoryLinks
