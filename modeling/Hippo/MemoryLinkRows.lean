import Hippo.MemoryLinks

/-!
# The rows of an index's links

The row of a link is named by its `href` alone, so the links of a text are stored if and only if
their names are pairwise different and each of them can be resolved.
-/
namespace Hippo.MemoryLinks
open Hippo PyText

/-- The name of the row of a link. -/
def targetLogicalPath (href : String) : String :=
  let normalized := normalizeHref href
  if normalized = "" ∨ normalized.toList.head? = some '#' then
    if normalized = "" then href else normalized
  else if isRemote normalized then normalized
  else if pathName normalized = "" then normalized
  else pathName normalized

/-- The links for which `resolve` raises. -/
def Unresolvable (href : String) : Prop :=
  let normalized := normalizeHref href
  ¬ (normalized = "" ∨ normalized.toList.head? = some '#') ∧ ¬ isRemote normalized ∧
    '\x00' ∈ normalized.toList

instance : DecidablePred Unresolvable := fun href => by
  unfold Unresolvable
  infer_instance

/-- The names of the links of a text. -/
def linkNames (markdown : String) : List String :=
  (extractMarkdownLinks markdown).map fun l => targetLogicalPath l.href

/-- The text's links have pairwise different names, and each can be resolved. -/
def Storable (markdown : String) : Prop :=
  (∀ l ∈ extractMarkdownLinks markdown, ¬ Unresolvable l.href) ∧ (linkNames markdown).Nodup

instance : DecidablePred Storable := fun markdown => by
  unfold Storable
  infer_instance

/-- The stored links of a document, by revision and name. -/
def storedKeys (links : Links) (d : ℕ) : List (ℕ × String) :=
  (links.rows.select fun _ l => l.sourceDocument = d).map fun e =>
    (e.2.sourceRevision, e.2.targetLogicalPath)

/-- The names of the stored links of a document. -/
def storedNames (links : Links) (d : ℕ) : List String := (storedKeys links d).map Prod.snd

section Classification

/-- A link that does not raise gets its name, whatever it resolves to. -/
theorem classify_cases (fs : FileSystem) (documents : Table ℕ MemoryDocument)
    (source : LinkSource) (links : Links) (href : String) :
    (Unresolvable href ∧ ∃ e, classifyLinkResolution fs documents source links href = .error e) ∨
      ¬ Unresolvable href ∧ ∃ resolution target,
        classifyLinkResolution fs documents source links href =
          .ok (targetLogicalPath href, resolution, target) := by
  unfold classifyLinkResolution targetLogicalPath Unresolvable
  dsimp only
  generalize normalizeHref href = normalized
  generalize pathName normalized = last
  by_cases hempty : normalized = "" ∨ normalized.toList.head? = some '#'
  · rw [if_pos hempty, if_pos hempty]
    exact Or.inr ⟨fun h => h.1 hempty, _, _, rfl⟩
  rw [if_neg hempty, if_neg hempty]
  by_cases hremote : isRemote normalized = true
  · rw [if_pos hremote, if_pos hremote]
    exact Or.inr ⟨fun h => h.2.1 hremote, _, _, rfl⟩
  rw [if_neg hremote, if_neg hremote]
  by_cases hnull : '\x00' ∈ normalized.toList
  · rw [if_pos hnull]
    exact Or.inl ⟨⟨hempty, hremote, hnull⟩, _, rfl⟩
  rw [if_neg hnull]
  refine Or.inr ⟨fun h => hnull h.2.2, ?_⟩
  by_cases hinside : fs.inside source.memoryDir normalized = true
  · rw [if_neg (not_not.mpr hinside)]
    by_cases hlast : last = ""
    · rw [if_pos hlast, if_pos hlast]
      exact ⟨_, _, rfl⟩
    rw [if_neg hlast, if_neg hlast]
    generalize targetRows documents source.repository last = rows
    match rows with
    | [] => exact ⟨_, _, rfl⟩
    | [target] =>
      dsimp only
      split
      · exact ⟨_, _, rfl⟩
      · split <;> exact ⟨_, _, rfl⟩
    | _ :: _ :: _ => exact ⟨_, _, rfl⟩
  · rw [if_pos hinside]
    exact ⟨_, _, rfl⟩

end Classification

section Rows

variable {fs : FileSystem} {documents : Table ℕ MemoryDocument} {source : LinkSource}
  {links links' : Links} {ls : List MarkdownLink} {d : ℕ}

theorem insert?_eq_some {new : MemoryLink} :
    links.insert? new = some links' ↔
      links.rowid? new.key = none ∧ links.insertOrIgnore new = links' := by
  rw [IndexedTable.insert?]
  split
  next h => simp only [h, true_and, Option.some.injEq]
  next h => simp only [h, false_and, reduceCtorEq]

/-- The key of the row that the source would have under the name. -/
def LinkSource.key (source : LinkSource) (name : String) : ℕ × ℕ × String :=
  (source.document, source.revision, name)

theorem rowid?_after {new : MemoryLink} (h : links.rowid? new.key = none) (k : ℕ × ℕ × String) :
    (links.insertOrIgnore new).rowid? k = none ↔ links.rowid? k = none ∧ new.key ≠ k := by
  simp only [IndexedTable.rowid?_eq_none, IndexedTable.get?_insertOrIgnore h]
  constructor
  · intro hall
    refine ⟨fun i r hr => hall i r ?_, hall links.rows.nextRowid new (if_pos rfl)⟩
    rw [if_neg fun hi => ?_, hr]
    rw [hi, Table.get?_nextRowid] at hr
    cases hr
  · rintro ⟨hold, hnew⟩ i r hr
    split at hr
    · cases hr
      exact hnew
    · exact hold i r hr

/-- All links are stored if and only if each is resolved and finds its name free. -/
theorem insertLinks_ok_iff :
    (insertLinks fs documents source links ls).2 = .ok () ↔
      (∀ l ∈ ls, ¬ Unresolvable l.href) ∧ (ls.map fun l => targetLogicalPath l.href).Nodup ∧
        ∀ l ∈ ls, links.rowid? (source.key (targetLogicalPath l.href)) = none := by
  induction ls generalizing links with
  | nil => exact iff_of_true rfl ⟨by simp, List.nodup_nil, by simp⟩
  | cons l ls ih =>
    rw [insertLinks]
    rcases classify_cases fs documents source links l.href with
      ⟨hbad, e, hclass⟩ | ⟨hgood, resolution, target, hclass⟩
    · rw [hclass]
      exact iff_of_false (fun h => by cases h) fun h => h.1 l List.mem_cons_self hbad
    rw [hclass]
    dsimp only
    generalize hnew : (⟨source.document, source.revision, target, targetLogicalPath l.href,
      l.anchorText, resolution⟩ : MemoryLink) = new
    have hnewKey : new.key = source.key (targetLogicalPath l.href) := by
      rw [← hnew, MemoryLink.key, LinkSource.key]
    cases hinsert : links.insert? new with
    | none =>
      have htaken : links.rowid? (source.key (targetLogicalPath l.href)) ≠ none := by
        intro hfree
        rw [← hnewKey] at hfree
        rw [insert?_eq_some.mpr ⟨hfree, rfl⟩] at hinsert
        cases hinsert
      exact iff_of_false (fun h => by cases h) fun h => htaken (h.2.2 l List.mem_cons_self)
    | some links' =>
      obtain ⟨hfree, rfl⟩ := insert?_eq_some.mp hinsert
      have hkey : links.rowid? (source.key (targetLogicalPath l.href)) = none := hnewKey ▸ hfree
      have hafter : ∀ m : MarkdownLink,
          (links.insertOrIgnore new).rowid? (source.key (targetLogicalPath m.href)) = none ↔
            links.rowid? (source.key (targetLogicalPath m.href)) = none ∧
              targetLogicalPath l.href ≠ targetLogicalPath m.href := by
        intro m
        rw [rowid?_after hfree, hnewKey]
        simp only [LinkSource.key, ne_eq, Prod.mk.injEq, true_and]
      simp only [ih, hafter, List.forall_mem_cons, List.map_cons, List.nodup_cons, List.mem_map,
        hgood, hkey, not_false_eq_true, true_and, not_exists, not_and]
      constructor
      · rintro ⟨hall, hnodup, hfresh⟩
        exact ⟨hall, ⟨fun m hm heq => (hfresh m hm).2 heq.symm, hnodup⟩,
          fun m hm => (hfresh m hm).1⟩
      · rintro ⟨hall, ⟨hnew, hnodup⟩, hfresh⟩
        exact ⟨hall, hnodup, fun m hm => ⟨hfresh m hm, fun heq => hnew m hm heq.symm⟩⟩

theorem storedKeys_insert {new : MemoryLink} (h : links.rowid? new.key = none)
    (hd : new.sourceDocument = d) :
    storedKeys (links.insertOrIgnore new) d =
      storedKeys links d ++ [(new.sourceRevision, new.targetLogicalPath)] := by
  have hselect : (links.insertOrIgnore new).rows.select (fun _ l => l.sourceDocument = d) =
      links.rows.select (fun _ l => l.sourceDocument = d) ++ [(links.rows.nextRowid, new)] := by
    rw [Table.select, IndexedTable.entries_insertOrIgnore h, List.filter_append,
      List.filter_cons_of_pos (by simpa using hd), List.filter_nil]
    rfl
  rw [storedKeys, hselect, List.map_append]
  rfl

/-- The rows of the links that were stored come after those that were there. -/
theorem storedKeys_insertLinks (h : (insertLinks fs documents source links ls).2 = .ok ()) :
    storedKeys (insertLinks fs documents source links ls).1 source.document =
      storedKeys links source.document ++
        ls.map fun l => (source.revision, targetLogicalPath l.href) := by
  induction ls generalizing links with
  | nil => exact (List.append_nil _).symm
  | cons l ls ih =>
    rw [insertLinks] at h ⊢
    rcases classify_cases fs documents source links l.href with
      ⟨hbad, e, hclass⟩ | ⟨hgood, resolution, target, hclass⟩
    · rw [hclass] at h
      cases h
    rw [hclass] at h ⊢
    dsimp only at h ⊢
    generalize hnew : (⟨source.document, source.revision, target, targetLogicalPath l.href,
      l.anchorText, resolution⟩ : MemoryLink) = new at h ⊢
    cases hinsert : links.insert? new with
    | none =>
      rw [hinsert] at h
      cases h
    | some links' =>
      rw [hinsert] at h
      obtain ⟨hfree, rfl⟩ := insert?_eq_some.mp hinsert
      have hsource : new.sourceDocument = source.document := by rw [← hnew]
      have hrevision : new.sourceRevision = source.revision := by rw [← hnew]
      have hname : new.targetLogicalPath = targetLogicalPath l.href := by rw [← hnew]
      dsimp only
      rw [ih h, storedKeys_insert hfree hsource, hrevision, hname, List.map_cons,
        List.append_assoc, List.singleton_append]

end Rows

section Reconcile

variable {fs : FileSystem} {documents : Table ℕ MemoryDocument} {source : LinkSource}
  {links : Links} {redacted : String} {d : ℕ}

theorem storedKeys_cleared :
    storedKeys (links.delete fun _ l => l.sourceDocument = d) d = [] := by
  simp [storedKeys, IndexedTable.delete, Table.delete, Table.select, List.filter_filter]

theorem rowid?_cleared (name : String) :
    (links.delete fun _ l => l.sourceDocument = source.document).rowid? (source.key name) =
      none := by
  rw [IndexedTable.rowid?_eq_none]
  intro i r hr hkey
  obtain ⟨-, hother⟩ := Table.get?_delete_eq_some.mp hr
  exact hother (Prod.mk.inj hkey).1

/-- An index is stored if and only if its links are pairwise different and can be resolved. -/
theorem reconcileIndexLinks_ok_iff :
    (reconcileIndexLinks fs documents source links indexLogicalPath redacted).2 = .ok () ↔
      Storable redacted := by
  rw [reconcileIndexLinks, if_neg fun h => h rfl, insertLinks_ok_iff, Storable, linkNames]
  constructor
  · rintro ⟨hall, hnodup, -⟩
    exact ⟨hall, hnodup⟩
  · rintro ⟨hall, hnodup⟩
    exact ⟨hall, hnodup, fun l _ => rowid?_cleared _⟩

/-- The stored rows are those of the revision, one for each link in the order of the text. -/
theorem storedKeys_reconcile
    (h : (reconcileIndexLinks fs documents source links indexLogicalPath redacted).2 = .ok ()) :
    storedKeys (reconcileIndexLinks fs documents source links indexLogicalPath redacted).1
      source.document = (linkNames redacted).map fun name => (source.revision, name) := by
  rw [reconcileIndexLinks, if_neg fun h => h rfl] at h ⊢
  rw [storedKeys_insertLinks h, storedKeys_cleared, List.nil_append, linkNames, List.map_map]
  rfl

/-- No other document has links to store. -/
theorem reconcileIndexLinks_of_ne {logicalPath : String} (h : logicalPath ≠ indexLogicalPath) :
    reconcileIndexLinks fs documents source links logicalPath redacted = (links, .ok ()) := by
  rw [reconcileIndexLinks, if_pos h]

end Reconcile

section Retry

variable {fs : FileSystem} {documents : Table ℕ MemoryDocument} {repository memoryDir : String}

theorem storedKeys_resolveLink (links : Links) (id d : ℕ) (target : Option ℕ → Option ℕ)
    (resolution : Resolution) :
    storedKeys (resolveLink links id target resolution) d = storedKeys links d := by
  have hrows : ∀ es : List (ℕ × MemoryLink),
      ((es.map fun e => (e.1, if e.1 = id then
          { e.2 with target := target e.2.target, resolution := resolution } else e.2)).filter
        fun e => e.2.sourceDocument = d).map
          (fun e => (e.2.sourceRevision, e.2.targetLogicalPath)) =
      (es.filter fun e => e.2.sourceDocument = d).map
        fun e => (e.2.sourceRevision, e.2.targetLogicalPath) := by
    intro es
    induction es with
    | nil => rfl
    | cons e es ih =>
      by_cases he : e.1 = id <;> by_cases hd : e.2.sourceDocument = d <;>
        simpa [he, hd] using ih
  exact hrows links.rows.entries

/-- A second try changes neither the number nor the names of the rows. -/
theorem storedKeys_retry (links : Links) (d : ℕ) :
    storedKeys (retryUnresolvedLinks fs documents repository memoryDir links) d =
      storedKeys links d := by
  have hround : ∀ links e,
      storedKeys (retryLink fs documents repository memoryDir links e) d =
        storedKeys links d := by
    intro links e
    unfold retryLink
    split
    · rfl
    · split <;> exact storedKeys_resolveLink links _ d _ _
  unfold retryUnresolvedLinks
  dsimp only
  generalize (links.rows.select fun _ l => l.resolution = .unresolved ∧
    ∃ x ∈ documents.get? l.sourceDocument, x.repository = repository) = rows
  induction rows generalizing links with
  | nil => rfl
  | cons e rows ih =>
    rw [List.foldl_cons, ih, hround]

end Retry

/-- The rows of revisions that stay survive the deletion of others. -/
theorem storedKeys_delete {links : Links} {d : ℕ} {ids : List ℕ}
    (h : ∀ k ∈ storedKeys links d, k.1 ∉ ids) :
    storedKeys (links.delete fun _ l => l.sourceRevision ∈ ids) d = storedKeys links d := by
  have hrows : (links.delete fun _ l => l.sourceRevision ∈ ids).rows.select
      (fun _ l => l.sourceDocument = d) = links.rows.select fun _ l => l.sourceDocument = d := by
    simp only [IndexedTable.delete, Table.delete, Table.select, List.filter_filter]
    refine List.filter_congr fun e he => ?_
    by_cases hd : e.2.sourceDocument = d
    · have hkept := h (e.2.sourceRevision, e.2.targetLogicalPath) (List.mem_map.mpr
        ⟨e, List.mem_filter.mpr ⟨he, by simpa using hd⟩, rfl⟩)
      simp [hd, hkept]
    · simp [hd]
  rw [storedKeys, hrows, storedKeys]

end Hippo.MemoryLinks
