import Hippo.MemoryWedge

/-!
# When an index is ingested with its links

The links of a `MEMORY.md` file are inserted one by one under a key of document, revision and name.
Two links of one name violate it and roll the ingest back, and so does a link that the path
resolution raises on. Links that are stored already are kept as they are.
-/
namespace Hippo.MemoryCatalog
open MemoryLinks MemoryDb Memory Transition

section Index

variable {γ : Type}

/-- The names are those of the text's links, each once. -/
def ExactNames (names : List String) (markdown : String) : Prop :=
  names.Nodup ∧ ∀ name, name ∈ names ↔ name ∈ linkNames markdown

instance (names : List String) (markdown : String) : Decidable (ExactNames names markdown) :=
  decidable_of_iff
    (names.Nodup ∧ (∀ name ∈ names, name ∈ linkNames markdown) ∧
      ∀ name ∈ linkNames markdown, name ∈ names) <| by
    constructor
    · rintro ⟨hnodup, hsub, hsup⟩
      exact ⟨hnodup, fun name => ⟨hsub name, hsup name⟩⟩
    · rintro ⟨hnodup, hiff⟩
      exact ⟨hnodup, fun name => (hiff name).mp, fun name => (hiff name).mpr⟩

theorem exactNames_linkNames {markdown : String} :
    ExactNames (linkNames markdown) markdown ↔ (linkNames markdown).Nodup := by
  constructor
  · intro h
    exact h.1
  · intro h
    exact ⟨h, fun name => Iff.rfl⟩

/-- What the links of the text, or the stored links that are kept, have to meet. -/
def LinksReady (lib : IngestLibrary) (disk : Disk) (db : MemoryCatalog γ) (file : SourceFile)
    (retention : Retention) : Prop :=
  let kept := db.keptNames lib disk file retention
  if kept = [] then Storable (lib.redact file.text) else ExactNames kept (lib.redact file.text)

end Index

section Sample

end Sample

end Hippo.MemoryCatalog
