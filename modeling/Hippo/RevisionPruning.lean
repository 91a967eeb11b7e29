import Hippo.MemoryConsistency

/-!
# What the pruning of revisions keeps

The history of a document is bounded by age and by number. The current and the active revision
count but stay. Age goes by the creation times, the order of the deletions by the revision numbers.
-/
namespace Hippo

/-- `RevisionRetention`. -/
structure RevisionRetention where
  maxCount : ℤ := 20
  maxAgeMs : ℤ := 90 * 86400000
  absenceConfirmPolls : ℤ := 2

/-- The settings of the table `[auto_memory]`. -/
structure AutoMemoryConfig where
  maxRevisionCount : Option ℤ := none
  maxRevisionAgeDays : Option ℤ := none
  absenceConfirmPolls : Option ℤ := none

/-- `revision_retention_from_config`. -/
def revisionRetentionFromConfig (config : AutoMemoryConfig) : RevisionRetention where
  maxCount := max (config.maxRevisionCount.getD 20) 1
  maxAgeMs := max (config.maxRevisionAgeDays.getD 90) 1 * 86400000
  absenceConfirmPolls := max (config.absenceConfirmPolls.getD 2) 1

/-- A configured policy keeps a revision, and it keeps every revision for a day. -/
theorem retention_bounds (config : AutoMemoryConfig) :
    1 ≤ (revisionRetentionFromConfig config).maxCount ∧
      86400000 ≤ (revisionRetentionFromConfig config).maxAgeMs ∧
      1 ≤ (revisionRetentionFromConfig config).absenceConfirmPolls := by
  simp only [revisionRetentionFromConfig]
  omega

namespace MemoryDb

variable {γ : Type}

section Source

/-- The `SELECT` of a document's revisions. -/
def revisionsOf (db : MemoryDb γ) (d : ℕ) : List (ℕ × MemoryRevision) :=
  db.revisions.select fun _ r => r.documentId = d

/-- The `while` loop over the surviving revisions. -/
def pruneWhile (total maxCount : ℤ) : List ℕ → List ℕ → List ℕ
  | deletable, [] => deletable
  | deletable, r :: surviving =>
    if maxCount < total - deletable.length then
      pruneWhile total maxCount (deletable ++ [r]) surviving
    else deletable

/-- The list `deletable` at its end, for the revisions in the order of their numbers. -/
def deletable (pointers : List ℕ) (retention : RevisionRetention) (nowMs : ℤ)
    (revisions : List (ℕ × MemoryRevision)) : List ℕ :=
  let cutoff := nowMs - retention.maxAgeMs
  let expired := (revisions.filter fun e =>
    e.1 ∉ pointers ∧ e.2.createdAt < cutoff).map Prod.fst
  let surviving := (revisions.filter fun e => e.1 ∉ expired ∧ e.1 ∉ pointers).map Prod.fst
  pruneWhile revisions.length retention.maxCount expired surviving

/-- `prune_document_revisions`, with the number of deleted revisions. -/
def pruneDocumentRevisions (db : MemoryDb γ) (d : ℕ) (retention : RevisionRetention)
    (nowMs : ℤ) : MemoryDb γ × ℕ :=
  match db.documents.get? d with
  | none => (db, 0)
  | some x =>
    let ids := deletable (x.currentRevision.toList ++ x.activeRevision.toList) retention nowMs
      (orderBy (fun e => (e.2.number : ℤ)) (db.revisionsOf d))
    if ids = [] then (db, 0) else (db.deleteRevisions ids, ids.length)

end Source

section Plan

variable {pointers : List ℕ} {retention : RevisionRetention} {nowMs : ℤ}
  {revisions : List (ℕ × MemoryRevision)}

theorem pruneWhile_eq (total maxCount : ℤ) (deletable surviving : List ℕ) :
    pruneWhile total maxCount deletable surviving =
      deletable ++ surviving.take (total - deletable.length - maxCount).toNat := by
  induction surviving generalizing deletable with
  | nil => simp [pruneWhile]
  | cons r surviving ih =>
    rw [pruneWhile]
    split
    · have hcount : (total - deletable.length - maxCount).toNat =
          (total - (deletable ++ [r]).length - maxCount).toNat + 1 := by
        simp only [List.length_append, List.length_singleton]
        omega
      rw [ih, hcount, List.take_succ_cons, List.append_assoc, List.singleton_append]
    · have hcount : (total - deletable.length - maxCount).toNat = 0 := by
        omega
      rw [hcount, List.take_zero, List.append_nil]

/-- Not the current or active revision, and too old. -/
def expiredOf (pointers : List ℕ) (cutoff : ℤ) (revisions : List (ℕ × MemoryRevision)) :
    List (ℕ × MemoryRevision) :=
  revisions.filter fun e => e.1 ∉ pointers ∧ e.2.createdAt < cutoff

/-- Not the current or active revision, and within the age limit. -/
def freshOf (pointers : List ℕ) (cutoff : ℤ) (revisions : List (ℕ × MemoryRevision)) :
    List (ℕ × MemoryRevision) :=
  revisions.filter fun e => e.1 ∉ pointers ∧ cutoff ≤ e.2.createdAt

/-- How many of the fresh ones are too many. -/
def excess (pointers : List ℕ) (retention : RevisionRetention) (nowMs : ℤ)
    (revisions : List (ℕ × MemoryRevision)) : ℕ :=
  ((revisions.length : ℤ) - (expiredOf pointers (nowMs - retention.maxAgeMs) revisions).length -
    retention.maxCount).toNat

/-- All that has expired goes, and then the first ones of the rest. -/
theorem deletable_eq (hnodup : (revisions.map Prod.fst).Nodup) :
    deletable pointers retention nowMs revisions =
      (expiredOf pointers (nowMs - retention.maxAgeMs) revisions).map Prod.fst ++
        ((freshOf pointers (nowMs - retention.maxAgeMs) revisions).take
          (excess pointers retention nowMs revisions)).map Prod.fst := by
  have hfresh : (revisions.filter fun e =>
      e.1 ∉ (expiredOf pointers (nowMs - retention.maxAgeMs) revisions).map Prod.fst ∧
        e.1 ∉ pointers) = freshOf pointers (nowMs - retention.maxAgeMs) revisions := by
    refine List.filter_congr fun e he => ?_
    have hexpired : e.1 ∈ (expiredOf pointers (nowMs - retention.maxAgeMs) revisions).map
        Prod.fst ↔ e.1 ∉ pointers ∧ e.2.createdAt < nowMs - retention.maxAgeMs := by
      constructor
      · intro h
        obtain ⟨f, hf, heq⟩ := List.mem_map.mp h
        obtain ⟨hmem, hcond⟩ := List.mem_filter.mp hf
        have hsame : f = e := List.inj_on_of_nodup_map hnodup hmem he heq
        rw [← hsame]
        exact of_decide_eq_true hcond
      · intro h
        exact List.mem_map.mpr ⟨e, List.mem_filter.mpr ⟨he, decide_eq_true h⟩, rfl⟩
    rw [decide_eq_decide, hexpired, not_and, not_lt]
    constructor
    · rintro ⟨hfresh, hpointers⟩
      exact ⟨hpointers, hfresh hpointers⟩
    · rintro ⟨hpointers, hfresh⟩
      exact ⟨fun _ => hfresh, hpointers⟩
  rw [deletable, pruneWhile_eq, ← hfresh, List.map_take, excess, expiredOf, List.length_map]

/-- What goes. -/
def goneOf (pointers : List ℕ) (retention : RevisionRetention) (nowMs : ℤ)
    (revisions : List (ℕ × MemoryRevision)) : List (ℕ × MemoryRevision) :=
  expiredOf pointers (nowMs - retention.maxAgeMs) revisions ++
    (freshOf pointers (nowMs - retention.maxAgeMs) revisions).take
      (excess pointers retention nowMs revisions)

theorem mem_expiredOf {cutoff : ℤ} {e : ℕ × MemoryRevision} :
    e ∈ expiredOf pointers cutoff revisions ↔
      e ∈ revisions ∧ e.1 ∉ pointers ∧ e.2.createdAt < cutoff := by
  simp only [expiredOf, List.mem_filter, decide_eq_true_eq]

theorem mem_freshOf {cutoff : ℤ} {e : ℕ × MemoryRevision} :
    e ∈ freshOf pointers cutoff revisions ↔
      e ∈ revisions ∧ e.1 ∉ pointers ∧ cutoff ≤ e.2.createdAt := by
  simp only [freshOf, List.mem_filter, decide_eq_true_eq]

theorem mem_of_mem_goneOf {e : ℕ × MemoryRevision}
    (h : e ∈ goneOf pointers retention nowMs revisions) : e ∈ revisions ∧ e.1 ∉ pointers := by
  rcases List.mem_append.mp h with h | h
  · have := mem_expiredOf.mp h
    exact ⟨this.1, this.2.1⟩
  · have := mem_freshOf.mp (List.mem_of_mem_take h)
    exact ⟨this.1, this.2.1⟩

theorem mem_deletable (hnodup : (revisions.map Prod.fst).Nodup) {e : ℕ × MemoryRevision}
    (he : e ∈ revisions) : e.1 ∈ deletable pointers retention nowMs revisions ↔
      e ∈ goneOf pointers retention nowMs revisions := by
  rw [deletable_eq hnodup, ← List.map_append]
  constructor
  · intro h
    obtain ⟨f, hf, heq⟩ := List.mem_map.mp h
    rwa [← List.inj_on_of_nodup_map hnodup (mem_of_mem_goneOf hf).1 he heq]
  · exact List.mem_map_of_mem

theorem nodup_goneOf (hnodup : revisions.Nodup) :
    (goneOf pointers retention nowMs revisions).Nodup := by
  rw [goneOf, List.nodup_append]
  refine ⟨hnodup.filter _, (hnodup.filter _).sublist (List.take_sublist _ _), ?_⟩
  rintro e he f hf rfl
  have hold := (mem_expiredOf.mp he).2.2
  have hnew := (mem_freshOf.mp (List.mem_of_mem_take hf)).2.2
  omega

theorem length_deletable (hnodup : (revisions.map Prod.fst).Nodup) :
    (deletable pointers retention nowMs revisions).length =
      (goneOf pointers retention nowMs revisions).length := by
  rw [deletable_eq hnodup, ← List.map_append, List.length_map, goneOf]

/-- Every revision goes or stays. -/
theorem length_eq_kept (pointers : List ℕ) (retention : RevisionRetention) (nowMs : ℤ)
    (hnodup : (revisions.map Prod.fst).Nodup) :
    revisions.length = (revisions.filter fun e =>
      e.1 ∉ deletable pointers retention nowMs revisions).length +
        (goneOf pointers retention nowMs revisions).length := by
  have hgone : (revisions.filter fun e =>
      e.1 ∈ deletable pointers retention nowMs revisions).Perm
        (goneOf pointers retention nowMs revisions) := by
    rw [List.perm_ext_iff_of_nodup (hnodup.of_map.filter _) (nodup_goneOf hnodup.of_map)]
    intro e
    rw [List.mem_filter, decide_eq_true_eq]
    constructor
    · rintro ⟨he, hids⟩
      exact (mem_deletable hnodup he).mp hids
    · intro h
      have he := (mem_of_mem_goneOf h).1
      exact ⟨he, (mem_deletable hnodup he).mpr h⟩
  have hsplit := List.length_eq_length_filter_add (l := revisions) fun e =>
    decide (e.1 ∈ deletable pointers retention nowMs revisions)
  rw [← hgone.length_eq]
  simp only [← decide_not] at hsplit
  omega

theorem length_goneOf (pointers : List ℕ) (retention : RevisionRetention) (nowMs : ℤ)
    (revisions : List (ℕ × MemoryRevision)) :
    (goneOf pointers retention nowMs revisions).length =
      (expiredOf pointers (nowMs - retention.maxAgeMs) revisions).length +
        min (excess pointers retention nowMs revisions)
          (freshOf pointers (nowMs - retention.maxAgeMs) revisions).length := by
  rw [goneOf, List.length_append, List.length_take]

variable {e f : ℕ × MemoryRevision}

theorem deletable_subset (hnodup : (revisions.map Prod.fst).Nodup) {r : ℕ}
    (h : r ∈ deletable pointers retention nowMs revisions) :
    r ∉ pointers ∧ ∃ rev, (r, rev) ∈ revisions := by
  rw [deletable_eq hnodup, ← List.map_append] at h
  obtain ⟨e, he, rfl⟩ := List.mem_map.mp h
  have := mem_of_mem_goneOf he
  exact ⟨this.2, e.2, this.1⟩

/-- What is left is protected or within the age limit. -/
theorem fresh_of_kept (hnodup : (revisions.map Prod.fst).Nodup) (he : e ∈ revisions)
    (hkept : e.1 ∉ deletable pointers retention nowMs revisions) (hpointers : e.1 ∉ pointers) :
    e ∈ freshOf pointers (nowMs - retention.maxAgeMs) revisions := by
  rw [mem_deletable hnodup he, goneOf, List.mem_append, not_or, mem_expiredOf] at hkept
  have hage := hkept.1
  refine mem_freshOf.mpr ⟨he, hpointers, ?_⟩
  by_contra hold
  exact hage ⟨he, hpointers, by omega⟩

/-- What goes although it is within the age limit is too many. -/
theorem excess_of_gone (hnodup : (revisions.map Prod.fst).Nodup) (he : e ∈ revisions)
    (hage : nowMs - retention.maxAgeMs ≤ e.2.createdAt)
    (hgone : e.1 ∈ deletable pointers retention nowMs revisions) :
    e ∈ (freshOf pointers (nowMs - retention.maxAgeMs) revisions).take
      (excess pointers retention nowMs revisions) := by
  rw [mem_deletable hnodup he, goneOf, List.mem_append, mem_expiredOf] at hgone
  refine hgone.resolve_left fun h => ?_
  have := h.2.2
  omega

theorem number_kept (hnodup : (revisions.map Prod.fst).Nodup) :
    ((revisions.filter fun e =>
        e.1 ∉ deletable pointers retention nowMs revisions).length : ℤ) ≤ retention.maxCount ∨
      ∀ e ∈ revisions, e.1 ∉ deletable pointers retention nowMs revisions → e.1 ∈ pointers := by
  have hsplit := length_eq_kept pointers retention nowMs hnodup
  have hlength := length_goneOf pointers retention nowMs revisions
  by_cases hall : (freshOf pointers (nowMs - retention.maxAgeMs) revisions).length ≤
      excess pointers retention nowMs revisions
  · refine Or.inr fun e he hkept => ?_
    by_contra hpointers
    have hfresh := fresh_of_kept hnodup he hkept hpointers
    refine hkept ((mem_deletable hnodup he).mpr (List.mem_append_right _ ?_))
    rwa [List.take_of_length_le hall]
  · refine Or.inl ?_
    unfold excess at hall hlength
    omega

/-- Of those within the age limit the first ones go. -/
theorem oldest_gone (hnodup : (revisions.map Prod.fst).Nodup)
    (hsorted : revisions.Pairwise fun a b => (a.2.number : ℤ) ≤ b.2.number) (he : e ∈ revisions)
    (hage : nowMs - retention.maxAgeMs ≤ e.2.createdAt)
    (hgone : e.1 ∈ deletable pointers retention nowMs revisions) (hf : f ∈ revisions)
    (hkept : f.1 ∉ deletable pointers retention nowMs revisions) (hpointers : f.1 ∉ pointers) :
    e.2.number ≤ f.2.number := by
  have htake := excess_of_gone hnodup he hage hgone
  have hfresh := fresh_of_kept hnodup hf hkept hpointers
  have hpairwise : (freshOf pointers (nowMs - retention.maxAgeMs) revisions).Pairwise
      fun a b => (a.2.number : ℤ) ≤ b.2.number := hsorted.sublist List.filter_sublist
  rw [← List.take_append_drop (excess pointers retention nowMs revisions)
    (freshOf pointers (nowMs - retention.maxAgeMs) revisions)] at hfresh hpairwise
  rw [List.pairwise_append] at hpairwise
  have hdrop := (List.mem_append.mp hfresh).resolve_left fun h =>
    hkept ((mem_deletable hnodup hf).mpr (List.mem_append_right _ h))
  have := hpairwise.2.2 e htake f hdrop
  omega

theorem needed_gone (hnodup : (revisions.map Prod.fst).Nodup) (he : e ∈ revisions)
    (hage : nowMs - retention.maxAgeMs ≤ e.2.createdAt)
    (hgone : e.1 ∈ deletable pointers retention nowMs revisions) :
    retention.maxCount ≤ (revisions.filter fun e =>
      e.1 ∉ deletable pointers retention nowMs revisions).length := by
  have hsplit := length_eq_kept pointers retention nowMs hnodup
  have hlength := length_goneOf pointers retention nowMs revisions
  have hpos := List.length_pos_of_mem (excess_of_gone hnodup he hage hgone)
  rw [List.length_take] at hpos
  unfold excess at hpos hlength
  omega

/-- A negative maximum prunes as zero does. -/
theorem pruneWhile_eq_pruneLoop (total : ℕ) (maxCount : ℤ) (deletable surviving : List ℕ)
    (h : deletable.length + surviving.length ≤ total) :
    pruneWhile total maxCount deletable surviving =
      pruneLoop total maxCount.toNat deletable surviving := by
  induction surviving generalizing deletable with
  | nil => rfl
  | cons r surviving ih =>
    rw [List.length_cons] at h
    have hcond : maxCount < (total : ℤ) - deletable.length ↔
        maxCount.toNat < total - deletable.length := by
      omega
    rw [pruneWhile, pruneLoop, ih (deletable ++ [r]) (by simp; omega)]
    simp only [hcond]

/-- The deletions are those of the transaction that the ingest and the polls run. -/
theorem deletable_eq_prunable (db : MemoryDb γ) (d : ℕ) (pointers : List ℕ)
    (retention : RevisionRetention) (nowMs : ℤ) :
    deletable pointers retention nowMs
        (orderBy (fun e => (e.2.number : ℤ)) (db.revisionsOf d)) =
      db.prunable d pointers ⟨retention.maxCount.toNat, nowMs - retention.maxAgeMs⟩ := by
  refine pruneWhile_eq_pruneLoop _ _ _ _ ?_
  rw [List.length_map, List.length_map]
  generalize orderBy (fun e => (e.2.number : ℤ)) (db.revisionsOf d) = revisions
  have hdisjoint : ∀ e ∈ revisions, (decide (e.1 ∉ (revisions.filter fun e =>
      e.1 ∉ pointers ∧ e.2.createdAt < nowMs - retention.maxAgeMs).map Prod.fst ∧
        e.1 ∉ pointers)) = true →
      (!decide (e.1 ∉ pointers ∧ e.2.createdAt < nowMs - retention.maxAgeMs)) = true := by
    intro e he hsurvives
    rw [Bool.not_eq_true', decide_eq_false_iff_not]
    intro hexpired
    refine (of_decide_eq_true hsurvives).1 (List.mem_map.mpr ⟨e, ?_, rfl⟩)
    exact List.mem_filter.mpr ⟨he, decide_eq_true hexpired⟩
  have hsplit := List.length_eq_length_filter_add (l := revisions) fun e =>
    decide (e.1 ∉ pointers ∧ e.2.createdAt < nowMs - retention.maxAgeMs)
  have hle := List.countP_mono_left hdisjoint
  rw [List.countP_eq_length_filter, List.countP_eq_length_filter] at hle
  omega

end Plan

section Kept

/-- What a call has done to the revisions of a document. -/
structure Pruned (before after : MemoryDb γ) (d : ℕ) (x : MemoryDocument)
    (retention : RevisionRetention) (nowMs : ℤ) (count : ℕ) : Prop where
  /-- Nothing is added or changed, and other documents keep what they have. -/
  old : ∀ r rev, after.revisions.get? r = some rev → before.revisions.get? r = some rev
  others : ∀ r rev, before.revisions.get? r = some rev → rev.documentId ≠ d →
    after.revisions.get? r = some rev
  pointers : ∀ r, x.PointsTo r → after.revisions.get? r = before.revisions.get? r
  age : ∀ e ∈ after.revisionsOf d, ¬ x.PointsTo e.1 →
    nowMs - retention.maxAgeMs ≤ e.2.createdAt
  number : ((after.revisionsOf d).length : ℤ) ≤ retention.maxCount ∨
    ∀ e ∈ after.revisionsOf d, x.PointsTo e.1
  /-- Of those within the age limit, those with the lowest numbers go. -/
  oldest : ∀ e ∈ before.revisionsOf d, ¬ x.PointsTo e.1 →
    nowMs - retention.maxAgeMs ≤ e.2.createdAt → after.revisions.get? e.1 = none →
    ∀ f ∈ after.revisionsOf d, ¬ x.PointsTo f.1 → e.2.number ≤ f.2.number
  /-- None of those goes that need not. -/
  needed : ∀ e ∈ before.revisionsOf d, ¬ x.PointsTo e.1 →
    nowMs - retention.maxAgeMs ≤ e.2.createdAt → after.revisions.get? e.1 = none →
    retention.maxCount ≤ (after.revisionsOf d).length
  count : (before.revisionsOf d).length = (after.revisionsOf d).length + count

/-- Where the creation times are in the order of the numbers, those that go are also the ones
created first. -/
theorem Pruned.oldest_created {before after : MemoryDb γ} {d : ℕ} {x : MemoryDocument}
    {retention : RevisionRetention} {nowMs : ℤ} {count : ℕ}
    (h : Pruned before after d x retention nowMs count)
    (hordered : ∀ e ∈ before.revisionsOf d, ∀ f ∈ before.revisionsOf d,
      e.2.number ≤ f.2.number → e.2.createdAt ≤ f.2.createdAt)
    {e f : ℕ × MemoryRevision} (he : e ∈ before.revisionsOf d) (hpoints : ¬ x.PointsTo e.1)
    (hage : nowMs - retention.maxAgeMs ≤ e.2.createdAt)
    (hgone : after.revisions.get? e.1 = none) (hf : f ∈ after.revisionsOf d)
    (hpoints' : ¬ x.PointsTo f.1) : e.2.createdAt ≤ f.2.createdAt := by
  obtain ⟨hrow, hd⟩ := Table.mem_select.mp hf
  have hf' : f ∈ before.revisionsOf d := Table.mem_select.mpr ⟨h.old f.1 f.2 hrow, hd⟩
  exact hordered e he f hf' (h.oldest e he hpoints hage hgone f hf hpoints')

variable {db : MemoryDb γ} {d : ℕ} {x : MemoryDocument}

/-- The call deletes the listed revisions and counts them. -/
theorem pruneDocumentRevisions_eq (hx : db.documents.get? d = some x)
    (retention : RevisionRetention) (nowMs : ℤ) :
    ∃ ids, ids = deletable (x.currentRevision.toList ++ x.activeRevision.toList) retention nowMs
        (orderBy (fun e => (e.2.number : ℤ)) (db.revisionsOf d)) ∧
      (db.pruneDocumentRevisions d retention nowMs).2 = ids.length ∧
      (∀ r rev, (db.pruneDocumentRevisions d retention nowMs).1.revisions.get? r = some rev ↔
        db.revisions.get? r = some rev ∧ r ∉ ids) ∧
      (db.pruneDocumentRevisions d retention nowMs).1.revisionsOf d =
        (db.revisionsOf d).filter fun e => e.1 ∉ ids := by
  refine ⟨_, rfl, ?_⟩
  unfold pruneDocumentRevisions
  rw [hx]
  dsimp only
  generalize deletable (x.currentRevision.toList ++ x.activeRevision.toList) retention nowMs
    (orderBy (fun e => (e.2.number : ℤ)) (db.revisionsOf d)) = ids
  by_cases hids : ids = []
  · rw [if_pos hids, hids]
    simp
  · rw [if_neg hids]
    refine ⟨rfl, fun r rev => ?_, ?_⟩
    · exact Table.get?_delete_eq_some
    · simp only [revisionsOf, deleteRevisions, Table.select, Table.delete, List.filter_filter]
      exact List.filter_congr fun e _ => by rw [Bool.and_comm]

/-- **Pruning.** A call keeps the current and the active revision and whatever is no revision of
the document. No other revision that is left is too old, and more than the maximum are left only
if all of them are protected. Of the rest the ones with the lowest numbers go, and no more of them
than needed. -/
theorem pruned_of_prune (hx : db.documents.get? d = some x) (retention : RevisionRetention)
    (nowMs : ℤ) :
    Pruned db (db.pruneDocumentRevisions d retention nowMs).1 d x retention nowMs
      (db.pruneDocumentRevisions d retention nowMs).2 := by
  obtain ⟨ids, hids, hcount, hget, hrows⟩ := pruneDocumentRevisions_eq hx retention nowMs
  generalize (db.pruneDocumentRevisions d retention nowMs).1 = after at hget hrows
  rw [hcount]
  generalize hpointers : x.currentRevision.toList ++ x.activeRevision.toList = pointers at hids
  generalize hrevisions : orderBy (fun e => (e.2.number : ℤ)) (db.revisionsOf d) = revisions
    at hids
  have hprotected : ∀ r, r ∈ pointers ↔ x.PointsTo r := by
    intro r
    simp [← hpointers, MemoryDocument.PointsTo]
  have hperm : revisions.Perm (db.revisionsOf d) := hrevisions ▸ orderBy_perm _ _
  have hsorted : revisions.Pairwise fun a b => (a.2.number : ℤ) ≤ b.2.number :=
    hrevisions ▸ List.pairwise_insertionSort _ _
  have hnodup : (revisions.map Prod.fst).Nodup := by
    rw [← hrevisions]
    exact nodup_map_orderBy (db.revisions.nodup.sublist (List.filter_sublist.map Prod.fst))
  have hkept : ((revisions.filter fun e => e.1 ∉ ids).length) = (after.revisionsOf d).length := by
    rw [hrows]
    exact (hperm.filter _).length_eq
  have hafter : ∀ e ∈ after.revisionsOf d, e ∈ revisions ∧ e.1 ∉ ids := by
    intro e he
    rw [hrows, List.mem_filter, decide_eq_true_eq] at he
    exact ⟨hperm.mem_iff.mpr he.1, he.2⟩
  have hgone : ∀ e ∈ db.revisionsOf d, after.revisions.get? e.1 = none →
      e ∈ revisions ∧ e.1 ∈ ids := by
    intro e he hnone
    refine ⟨hperm.mem_iff.mpr he, ?_⟩
    by_contra hstays
    have := (hget e.1 e.2).mpr ⟨(Table.mem_select.mp he).1, hstays⟩
    rw [hnone] at this
    cases this
  subst hids
  refine ⟨fun r rev h => ((hget r rev).mp h).1, fun r rev h hother => ?_, fun r hr => ?_,
    fun e he hpoints => ?_, ?_, fun e he _ hage hnone f hf hpoints => ?_,
    fun e he _ hage hnone => ?_, ?_⟩
  · refine (hget r rev).mpr ⟨h, fun hr => hother ?_⟩
    obtain ⟨-, rev', hmem⟩ := deletable_subset hnodup hr
    obtain ⟨hrow, hd⟩ := Table.mem_select.mp (hperm.mem_iff.mp hmem)
    rw [h] at hrow
    rw [Option.some.inj hrow]
    exact hd
  · refine Option.ext fun rev => ?_
    rw [hget]
    refine and_iff_left fun hmem => ?_
    exact (deletable_subset hnodup hmem).1 ((hprotected r).mpr hr)
  · obtain ⟨hrev, hstays⟩ := hafter e he
    exact (mem_freshOf.mp (fresh_of_kept hnodup hrev hstays
      fun h => hpoints ((hprotected e.1).mp h))).2.2
  · rw [← hkept]
    refine (number_kept hnodup).imp_right fun hall e he => ?_
    obtain ⟨hrev, hstays⟩ := hafter e he
    exact (hprotected e.1).mp (hall e hrev hstays)
  · obtain ⟨hrev, hids⟩ := hgone e he hnone
    obtain ⟨hrev', hstays⟩ := hafter f hf
    exact oldest_gone hnodup hsorted hrev hage hids hrev' hstays
      fun h => hpoints ((hprotected f.1).mp h)
  · obtain ⟨hrev, hids⟩ := hgone e he hnone
    rw [← hkept]
    exact needed_gone hnodup hrev hage hids
  · rw [← hperm.length_eq, ← hkept, length_deletable hnodup]
    exact length_eq_kept pointers retention nowMs hnodup

def turnedBackDocument : MemoryDocument where
  uuid := ⟨"hippo", "MEMORY.md"⟩
  repository := "hippo"
  logicalPath := "MEMORY.md"
  currentRevision := some 4
  activeRevision := some 3

/-- A document with a current and an active revision, and two older ones of which the first was
created last. -/
def turnedBack : MemoryDb Unit where
  documents := Table.empty.insert 1 turnedBackDocument
  revisions := (((Table.empty.insert 1 ⟨1, 1, "a", .create, [], 200⟩).insert 2
    ⟨1, 2, "b", .update, [], 100⟩).insert 3 ⟨1, 3, "c", .update, [], 300⟩).insert 4
      ⟨1, 4, "d", .update, [], 400⟩
  queue := Table.empty
  store := KnowledgeStore.empty

/-- All is within the age limit and one revision is too many. -/
theorem pruned_of_prune_turnedBack :
    Pruned turnedBack (turnedBack.pruneDocumentRevisions 1 { maxCount := 3 } 500).1 1
      turnedBackDocument { maxCount := 3 } 500 1 :=
  pruned_of_prune rfl { maxCount := 3 } 500

/-- The revision with the lowest number goes, and an unprotected one that was created before it
stays. -/
theorem younger_goes_first :
    ∃ e ∈ turnedBack.revisionsOf 1,
      (turnedBack.pruneDocumentRevisions 1 { maxCount := 3 } 500).1.revisions.get? e.1 = none ∧
      ∃ f ∈ (turnedBack.pruneDocumentRevisions 1 { maxCount := 3 } 500).1.revisionsOf 1,
        ¬ turnedBackDocument.PointsTo f.1 ∧ 500 - (90 * 86400000 : ℤ) ≤ f.2.createdAt ∧
          f.2.createdAt < e.2.createdAt :=
  ⟨(1, ⟨1, 1, "a", .create, [], 200⟩), Table.mem_select.mpr ⟨rfl, rfl⟩, rfl,
    (2, ⟨1, 2, "b", .update, [], 100⟩), Table.mem_select.mpr ⟨rfl, rfl⟩,
    by simp [turnedBackDocument, MemoryDocument.PointsTo], by decide, by decide⟩

end Kept

end MemoryDb

end Hippo
