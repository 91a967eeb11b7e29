import Hippo.AlarmLessons
import Hippo.KnowledgeStore

/-!
# Lesson clusters under several writers

`upsert_cluster` looks for a lesson outside of its transaction. Another writer can promote the
cluster between the lookup and the write, so the two are separate steps here.
-/
namespace Hippo.LessonClusters

open AlarmLessons (ClusterKey Lesson Lessons PendingLesson upsertCluster)

section Occurrence

/-- The first `SELECT` of `upsert_cluster`: whether the cluster has a lesson. -/
def hasLesson (db : Lessons) (key : ClusterKey) : Bool := (db.lessons.get? key).isSome

/-- The row of `lesson_pending` after one more occurrence. -/
def nextPending (db : Lessons) (key : ClusterKey) (nowMs : ℤ) : PendingLesson :=
  ((db.pending.get? key).map fun p => { p with count := p.count + 1 }).getD
    { count := 1, firstSeenAt := nowMs }

/-- The transaction of `upsert_cluster`, with what its lookup has found. The unique index of
`lessons` refuses a second promotion. -/
def registerOccurrence (db : Lessons) (found : Bool) (key : ClusterKey) (minOccurrences : ℕ)
    (summaryFn : ClusterKey → String) (fixHintFn : ClusterKey → Option String) (nowMs : ℤ) :
    Except PyError (Lessons × Bool) :=
  if found then
    let bump := fun l : Lesson => { l with occurrences := l.occurrences + 1, lastSeenAt := nowMs }
    .ok ({ db with lessons := db.lessons.modify key bump }, true)
  else
    let row := nextPending db key nowMs
    if row.count < minOccurrences then .ok ({ db with pending := db.pending.put key row }, false)
    else if hasLesson db key then .error .integrityError
    else
      let lesson : Lesson :=
        { summary := summaryFn key
          fixHint := fixHintFn key
          occurrences := row.count
          firstSeenAt := row.firstSeenAt
          lastSeenAt := nowMs }
      .ok ({ pending := (db.pending.put key row).erase key
             lessons := db.lessons.insert key lesson }, true)

/-- The lookup missed a lesson that is there now, and the count reaches the promotion. -/
def Stale (db : Lessons) (found : Bool) (key : ClusterKey) (minOccurrences : ℕ) : Prop :=
  found = false ∧ hasLesson db key = true ∧
    minOccurrences ≤ ((db.pending.get? key).map PendingLesson.count).getD 0 + 1

instance (db : Lessons) (found : Bool) (key : ClusterKey) (minOccurrences : ℕ) :
    Decidable (Stale db found key minOccurrences) := by
  unfold Stale
  infer_instance

/-- The occurrences of a cluster that the two tables have recorded. -/
def occurrences (db : Lessons) (key : ClusterKey) : ℕ :=
  ((db.lessons.get? key).map Lesson.occurrences).getD 0 +
    ((db.pending.get? key).map PendingLesson.count).getD 0

end Occurrence

section Laws

variable {db db' : Lessons} {found b : Bool} {key : ClusterKey} {minOccurrences : ℕ}
  {summaryFn : ClusterKey → String} {fixHintFn : ClusterKey → Option String} {nowMs : ℤ}

theorem nextPending_count (db : Lessons) (key : ClusterKey) (nowMs : ℤ) :
    (nextPending db key nowMs).count =
      ((db.pending.get? key).map PendingLesson.count).getD 0 + 1 := by
  unfold nextPending
  cases db.pending.get? key with
  | none => simp
  | some p => simp

/-- With nothing in between, lookup and transaction are `upsert_cluster`. -/
theorem registerOccurrence_hasLesson :
    registerOccurrence db (hasLesson db key) key minOccurrences summaryFn fixHintFn nowMs =
      .ok (upsertCluster db key minOccurrences summaryFn fixHintFn nowMs) := by
  unfold registerOccurrence upsertCluster nextPending
  cases hl : db.lessons.get? key with
  | some l => simp [hasLesson, hl]
  | none =>
    simp only [hasLesson, hl, Option.isSome_none, Bool.false_eq_true, if_false]
    split <;> rfl

/-- The transaction fails on a stale lookup only. -/
theorem registerOccurrence_isOk_iff :
    (∃ r, registerOccurrence db found key minOccurrences summaryFn fixHintFn nowMs = .ok r) ↔
      ¬ Stale db found key minOccurrences := by
  unfold registerOccurrence Stale
  simp only [← Nat.not_lt, nextPending_count]
  cases found with
  | true => simp
  | false =>
    by_cases hlt : ((db.pending.get? key).map PendingLesson.count).getD 0 + 1 < minOccurrences
    · simp [hlt]
    · cases hl : hasLesson db key with
      | true => simp [hlt]
      | false => simp [hlt]

/-- A lesson that is there stays there. -/
theorem registerOccurrence_keeps
    (h : registerOccurrence db found key minOccurrences summaryFn fixHintFn nowMs = .ok (db', b))
    {k : ClusterKey} (hk : hasLesson db k = true) : hasLesson db' k = true := by
  unfold registerOccurrence at h
  split at h
  · cases h
    rw [hasLesson, Table.get?_modify_isSome]
    exact hk
  · dsimp only at h
    split at h
    · cases h
      exact hk
    · split at h
      · cases h
      · rename_i hnone
        cases h
        have hfresh : db.lessons.get? key = none := by
          simpa [hasLesson] using hnone
        rw [hasLesson, Table.get?_insert _ _ _ _ hfresh]
        split
        · rfl
        · exact hk

/-- One occurrence is one more for its own cluster and nothing for any other. -/
theorem occurrences_registerOccurrence
    (h : registerOccurrence db found key minOccurrences summaryFn fixHintFn nowMs = .ok (db', b))
    (hfound : found = true → hasLesson db key = true) (k : ClusterKey) :
    occurrences db' k = occurrences db k + if k = key then 1 else 0 := by
  unfold registerOccurrence at h
  split at h
  · rename_i htrue
    cases h
    obtain ⟨l, hl⟩ := Option.isSome_iff_exists.mp (hfound htrue)
    by_cases hk : k = key
    · subst hk
      simp only [occurrences, Table.get?_modify_self, hl, Option.map_some, Option.getD_some,
        if_true]
      omega
    · simp only [occurrences, Table.get?_modify_of_ne _ hk, if_neg hk, Nat.add_zero]
  · dsimp only at h
    split at h
    · cases h
      by_cases hk : k = key
      · subst hk
        simp only [occurrences, Table.get?_put, if_true, Option.map_some, Option.getD_some,
          nextPending_count]
        omega
      · simp only [occurrences, Table.get?_put, if_neg hk, Nat.add_zero]
    · split at h
      · cases h
      · rename_i hnone
        cases h
        have hfresh : db.lessons.get? key = none := by
          simpa [hasLesson] using hnone
        by_cases hk : k = key
        · subst hk
          simp only [occurrences, Table.get?_insert _ _ _ _ hfresh, Table.get?_erase, hfresh,
            if_true, Option.map_some, Option.map_none, Option.getD_some, Option.getD_none,
            nextPending_count]
          omega
        · simp only [occurrences, Table.get?_insert _ _ _ _ hfresh, Table.get?_erase,
            Table.get?_put, if_neg hk, Nat.add_zero]

end Laws

end Hippo.LessonClusters
