import Hippo.AlarmLessons

/-!
# Counts of the clusters and the alarms behind the cursor

Registering an occurrence adds one to its cluster, in whichever table the count is. The alarms that
a sync has selected are the next ones in id order, also when further alarms are raised meanwhile.
-/
namespace Hippo.AlarmLessons

open Watchdog (Alarm Alarms)

section Counts

/-- The sum of the counts of the clusters in `P`. -/
def countWhere (P : ClusterKey → Bool) (db : Lessons) : ℕ :=
  db.pending.total (fun k p => if P k then p.count else 0) +
    db.lessons.total (fun k l => if P k then l.occurrences else 0)

/-- The pending counts and the occurrences of all clusters. -/
def totalCount (db : Lessons) : ℕ :=
  db.pending.total (fun _ p => p.count) + db.lessons.total (fun _ l => l.occurrences)

/-- The pending count and the occurrences of one cluster. -/
def occurrencesOf (db : Lessons) (key : ClusterKey) : ℕ :=
  ((db.pending.get? key).map PendingLesson.count).getD 0 +
    ((db.lessons.get? key).map Lesson.occurrences).getD 0

theorem totalCount_eq (db : Lessons) : totalCount db = countWhere (fun _ => true) db := by
  simp [totalCount, countWhere]

theorem occurrencesOf_eq (db : Lessons) (key : ClusterKey) :
    occurrencesOf db key = countWhere (fun k => k = key) db := by
  simp only [occurrencesOf, countWhere, decide_eq_true_eq]
  rw [Table.total_ite, Table.total_ite]

/-- Whichever table the count is in, registering an occurrence adds one to it. -/
theorem countWhere_upsertCluster (P : ClusterKey → Bool) (db : Lessons) (key : ClusterKey)
    (minOccurrences : ℕ) (summaryFn : ClusterKey → String)
    (fixHintFn : ClusterKey → Option String) (nowMs : ℤ) :
    countWhere P (upsertCluster db key minOccurrences summaryFn fixHintFn nowMs).1 =
      countWhere P db + if P key then 1 else 0 := by
  unfold upsertCluster
  cases hlesson : db.lessons.get? key with
  | some l =>
    have hsum := Table.total_modify (w := fun k (l : Lesson) => if P k then l.occurrences else 0)
      hlesson fun l => { l with occurrences := l.occurrences + 1, lastSeenAt := nowMs }
    simp only [countWhere]
    cases hP : P key
    · simp only [hP, Bool.false_eq_true, if_false] at hsum ⊢
      omega
    · simp only [hP, if_true] at hsum ⊢
      omega
  | none =>
    set row : PendingLesson := ((db.pending.get? key).map fun p =>
      { p with count := p.count + 1 }).getD { count := 1, firstSeenAt := nowMs } with hrow
    have hput := Table.total_put (w := fun k (p : PendingLesson) => if P k then p.count else 0)
      (t := db.pending) (k := key) row
    have hcount : row.count = ((db.pending.get? key).map PendingLesson.count).getD 0 + 1 := by
      rw [hrow]
      cases db.pending.get? key <;> simp
    have hold : ((db.pending.get? key).map fun p => if P key then p.count else 0).getD 0 =
        if P key then ((db.pending.get? key).map PendingLesson.count).getD 0 else 0 := by
      cases db.pending.get? key <;> simp
    rw [hold] at hput
    by_cases hmin : row.count < minOccurrences
    · simp only [countWhere, hmin, if_true]
      cases hP : P key
      · simp only [hP, Bool.false_eq_true, if_false] at hput ⊢
        omega
      · simp only [hP, if_true] at hput ⊢
        omega
    · have hget : (db.pending.put key row).get? key = some row := by simp
      have herase := Table.total_erase
        (w := fun k (p : PendingLesson) => if P k then p.count else 0) hget
      simp only [countWhere, hmin, if_false]
      rw [Table.total_insert hlesson]
      cases hP : P key
      · simp only [hP, Bool.false_eq_true, if_false] at hput herase ⊢
        omega
      · simp only [hP, if_true] at hput herase ⊢
        omega

theorem countWhere_refreshFlapSummaries (text : PythonText) (P : ClusterKey → Bool)
    (alarms : Alarms) (db : Lessons) (keys : List ClusterKey) :
    countWhere P (refreshFlapSummaries text alarms db keys) = countWhere P db := by
  simp only [countWhere, refreshFlapSummaries, Nat.add_left_cancel_iff]
  generalize db.lessons = lessons
  induction keys generalizing lessons with
  | nil => rfl
  | cons key keys ih =>
    rw [List.foldl_cons, ih, Table.modify, Table.update, Table.total_mapRows]
    intro k l
    by_cases hk : k = key <;> simp [hk]

end Counts

section Seen

variable {alarms : Alarms} {lastAlarmId : ℕ} {row : AlarmRow} {rows : List AlarmRow}

/-- The alarms at or below an id. -/
def seenRows (alarms : Alarms) (lastAlarmId : ℕ) : List AlarmRow :=
  (alarms.select fun id _ => id ≤ lastAlarmId).map rowOf

/-- The rows are in id order. -/
def Ordered (alarms : Alarms) : Prop := alarms.entries.Pairwise fun e e' => e.1 < e'.1

theorem unseen_eq (h : Ordered alarms) :
    unseen alarms lastAlarmId = (alarms.select fun id _ => lastAlarmId < id).map rowOf := by
  have hsorted : (alarms.select fun id _ => lastAlarmId < id).Pairwise fun e e' => e.1 < e'.1 :=
    List.Pairwise.sublist List.filter_sublist h
  have hrows : ((alarms.select fun id _ => lastAlarmId < id).map rowOf).Pairwise
      fun a b => (a.id : ℤ) ≤ b.id := by
    rw [List.pairwise_map]
    apply hsorted.imp
    intro e e' hlt
    show (e.1 : ℤ) ≤ e'.1
    omega
  exact List.Pairwise.insertionSort_eq hrows

/-- The entries above a key, when the first of them is passed. -/
theorem filter_passed {es : List (ℕ × Alarm)} {e : ℕ × Alarm} {rest : List (ℕ × Alarm)} {k : ℕ}
    (h : es.Pairwise fun e e' => e.1 < e'.1) (hes : es.filter (fun e => k < e.1) = e :: rest) :
    es.filter (fun e' => e.1 < e'.1) = rest ∧
      es.filter (fun e' => e'.1 ≤ e.1) = es.filter (fun e' => e'.1 ≤ k) ++ [e] := by
  induction es with
  | nil => cases hes
  | cons a es ih =>
    obtain ⟨ha, hes'⟩ := List.pairwise_cons.mp h
    by_cases hk : k < a.1
    · rw [List.filter_cons_of_pos (by simpa using hk)] at hes
      obtain ⟨rfl, rfl⟩ := List.cons.inj hes
      have habove : es.filter (fun e' => a.1 < e'.1) = es :=
        List.filter_eq_self.mpr fun e' he' => by simpa using ha e' he'
      have habove' : es.filter (fun e' => k < e'.1) = es :=
        List.filter_eq_self.mpr fun e' he' => by
          have hlt := ha e' he'
          simp only [decide_eq_true_eq]
          omega
      have hbelow : es.filter (fun e' => e'.1 ≤ a.1) = [] :=
        List.filter_eq_nil_iff.mpr fun e' he' => by
          have hlt := ha e' he'
          simp only [decide_eq_true_eq]
          omega
      have hbelow' : es.filter (fun e' => e'.1 ≤ k) = [] :=
        List.filter_eq_nil_iff.mpr fun e' he' => by
          have hlt := ha e' he'
          simp only [decide_eq_true_eq]
          omega
      have hself : ¬ a.1 ≤ k := by omega
      simp [habove, habove', hbelow, hbelow', hself]
    · rw [List.filter_cons_of_neg (by simpa using hk)] at hes
      have he : k < e.1 := by
        have hmem : e ∈ es.filter (fun e => k < e.1) := by
          rw [hes]
          exact List.mem_cons_self
        simpa using (List.mem_filter.mp hmem).2
      obtain ⟨hafter, hupto⟩ := ih hes' hes
      have hnot : ¬ e.1 < a.1 := by omega
      have hle : a.1 ≤ e.1 := by omega
      have hle' : a.1 ≤ k := by omega
      constructor
      · rw [List.filter_cons_of_neg (by simpa using hnot), hafter]
      · rw [List.filter_cons_of_pos (by simpa using hle), hupto,
          List.filter_cons_of_pos (by simpa using hle'), List.cons_append]

/-- Moving the cursor to the next alarm. -/
theorem unseen_advance (h : Ordered alarms) (hrows : row :: rows <+: unseen alarms lastAlarmId) :
    rows <+: unseen alarms row.id ∧
      seenRows alarms row.id = seenRows alarms lastAlarmId ++ [row] ∧
      row.id ∈ alarms.keys := by
  obtain ⟨later, hlater⟩ := hrows
  rw [unseen_eq h, List.cons_append] at hlater
  obtain ⟨e, rest, hes, rfl, hrest⟩ := List.map_eq_cons_iff.mp hlater.symm
  obtain ⟨hafter, hupto⟩ := filter_passed h hes
  have hmem : e ∈ alarms.entries := by
    have hmem : e ∈ alarms.select fun id _ => lastAlarmId < id := by
      rw [hes]
      exact List.mem_cons_self
    exact List.mem_of_mem_filter hmem
  refine ⟨⟨later, ?_⟩, ?_, List.mem_map.mpr ⟨e, hmem, rfl⟩⟩
  · rw [unseen_eq h, ← hrest]
    exact congrArg (List.map rowOf) hafter.symm
  · show (alarms.entries.filter fun e' => e'.1 ≤ e.1).map rowOf = _
    rw [hupto, List.map_append]
    rfl

/-- A new alarm is behind all others. -/
theorem raise_ordered (h : Ordered alarms) (a : Alarm) :
    Ordered (alarms.insert alarms.nextRowid a) := by
  rw [Ordered, Table.entries_insert (Table.get?_nextRowid alarms), List.pairwise_append]
  refine ⟨h, List.pairwise_singleton _ _, ?_⟩
  intro e he e' he'
  rw [List.mem_singleton.mp he']
  exact Table.lt_nextRowid (List.mem_map.mpr ⟨e, he, rfl⟩)

theorem raise_rows (h : Ordered alarms) (a : Alarm) (hlast : lastAlarmId < alarms.nextRowid) :
    unseen alarms lastAlarmId <+: unseen (alarms.insert alarms.nextRowid a) lastAlarmId ∧
      seenRows (alarms.insert alarms.nextRowid a) lastAlarmId = seenRows alarms lastAlarmId := by
  have hentries := Table.entries_insert (Table.get?_nextRowid alarms) a
  constructor
  · rw [unseen_eq h, unseen_eq (raise_ordered h a), Table.select, Table.select, hentries,
      List.filter_append, List.map_append]
    exact List.prefix_append _ _
  · have hnot : ¬ alarms.nextRowid ≤ lastAlarmId := by omega
    rw [seenRows, Table.select, hentries, List.filter_append, List.filter_singleton]
    simp [hnot, seenRows, Table.select]

theorem amend_ordered (h : Ordered alarms) (f : ℕ → Alarm → Alarm) :
    Ordered (alarms.mapRows (keepOrigin f)) := by
  rw [Ordered, Table.mapRows, List.pairwise_map]
  exact h

/-- An update changes no column that the sync reads. -/
theorem amend_select (alarms : Alarms) (f : ℕ → Alarm → Alarm) (p : ℕ → Prop) [DecidablePred p] :
    ((alarms.mapRows (keepOrigin f)).select fun id _ => p id).map rowOf =
      (alarms.select fun id _ => p id).map rowOf := by
  simp only [Table.select, Table.mapRows, List.filter_map, List.map_map]
  rfl

theorem nextRowid_raise (alarms : Alarms) (a : Alarm) :
    alarms.nextRowid < (alarms.insert alarms.nextRowid a).nextRowid := by
  apply Table.lt_nextRowid
  rw [Table.mem_keys]
  exact ⟨a, by rw [Table.get?_insert_nextRowid, if_pos rfl]⟩

end Seen

end Hippo.AlarmLessons
