import Hippo.PayloadGc

/-!
# What the payload sweep does

Every page is checked against the same citations, and the work on a row does not touch the rows
behind it, so a sweep is the work on all rows that are due and not pinned, in order.
-/
namespace Hippo.PayloadGc
open AgentEval

section Events

variable {γ δ H : Type} (lib : GcLibrary H) (now : ℤ)

namespace PayloadDb

variable (db : PayloadDb γ δ H) (id : RowId) (e : Event γ)

theorem blankSnapshot_events (i : ℤ) : (db.blankSnapshot lib now i).events = db.events := by
  unfold blankSnapshot
  split
  · rfl
  · split <;> rfl

theorem clearEvent_events :
    (db.clearEvent lib now id e).events = db.events.modify id Event.clear := by
  unfold clearEvent
  dsimp only
  split
  · rfl
  · rw [blankSnapshot_events]
    rfl

/-- The tables that the work on events does not change. -/
structure SameStores (db db' : PayloadDb γ δ H) : Prop where
  nodeEvidence : db'.nodeEvidence = db.nodeEvidence
  epitaphs : db'.epitaphs = db.epitaphs
  eval : db'.eval = db.eval

theorem clearEvent_same : SameStores db (db.clearEvent lib now id e) := by
  unfold clearEvent blankSnapshot
  dsimp only
  split
  · exact ⟨rfl, rfl, rfl⟩
  · split
    · exact ⟨rfl, rfl, rfl⟩
    · split <;> exact ⟨rfl, rfl, rfl⟩

theorem SameStores.pins {db db' : PayloadDb γ δ H} (h : SameStores db db') :
    eventPayloadPins lib db' = eventPayloadPins lib db := by
  rw [eventPayloadPins, eventPayloadPins, h.nodeEvidence, h.epitaphs]

end PayloadDb

/-- The rows of the loop over the events. -/
def dueEvents (ceiling : ℤ) (db : PayloadDb γ δ H) : List (RowId × Event γ) :=
  db.events.entries.filter fun e => e.1.1 ≤ ceiling && e.2.expiry ≤ now && e.2.hasPayload

theorem nodup_dueEvents (ceiling : ℤ) (db : PayloadDb γ δ H) :
    ((dueEvents now ceiling db).map Prod.fst).Nodup :=
  db.events.nodup.sublist (List.filter_sublist.map _)

theorem eventSweep_lawful (top : ℤ) (pins : List ℤ) :
    (eventSweep (γ := γ) (δ := δ) lib now top).Lawful pins where
  size_pos := Nat.succ_pos 99
  check_act := by
    intro s r hcheck
    show eventPayloadPins lib (if r.1.1 ∈ pins then s else _).1 = .ok pins
    split
    · exact hcheck
    · rw [(PayloadDb.clearEvent_same lib now s.1 r.1 r.2).pins]
      exact hcheck
  sorted := fun s => sortedRows_pairwise (nodup_dueEvents now top s.1)
  behind_mono := by
    intro c j k hj hle
    have hjk : j.1 ≤ k.1 := hle
    have hcj : c ≤ j.1 := of_decide_eq_true hj
    exact decide_eq_true (hcj.trans hjk)
  next_behind := by
    intro c k j hc
    obtain ⟨-, hsome⟩ := Option.ite_none_right_eq_some.mp hc
    obtain rfl := Option.some.inj hsome
    show decide (k.1 + 1 ≤ j.1) = true ↔ k.1 < j.1
    rw [decide_eq_true_iff]
    omega
  next_none := by
    intro s r k hk hr
    have hlast : ¬ k.1 + 1 < 2 ^ 63 := by
      intro hlt
      rw [show (eventSweep (γ := γ) (δ := δ) lib now top).next k = some (k.1 + 1) from
        if_pos hlt] at hk
      cases hk
    have hr' := r.1.2.2
    show r.1.1 ≤ k.1
    omega
  rows_act := by
    intro s r
    show (sortedRows (dueEvents now top (if r.1.1 ∈ pins then s else _).1)).filter _ =
      (sortedRows (dueEvents now top s.1)).filter _
    split
    · rfl
    · rw [filter_sortedRows (nodup_dueEvents now top _),
        filter_sortedRows (nodup_dueEvents now top _)]
      apply congrArg
      rw [dueEvents, dueEvents, List.filter_filter, List.filter_filter,
        PayloadDb.clearEvent_events]
      apply Table.filter_modify
      intro e
      simp

/-- The events of a list are cleared one after the other. -/
def clearAll (db : PayloadDb γ δ H) (rows : List (RowId × Event γ)) : PayloadDb γ δ H :=
  rows.foldl (fun db r => db.clearEvent lib now r.1 r.2) db

variable {lib now}

theorem clearAll_append (db : PayloadDb γ δ H) (rows : List (RowId × Event γ))
    (r : RowId × Event γ) : clearAll lib now db (rows ++ [r]) =
      (clearAll lib now db rows).clearEvent lib now r.1 r.2 := by
  rw [clearAll, List.foldl_append]
  rfl

/-- The pinned rows are only read. -/
theorem foldl_eventSweep (top : ℤ) (pins : List ℤ) (rows : List (RowId × Event γ))
    (s : Progress γ δ H) : rows.foldl ((eventSweep lib now top).act pins) s =
      (clearAll lib now s.1 (rows.filter fun r => r.1.1 ∉ pins),
        s.2 + (rows.filter fun r => r.1.1 ∉ pins).length) := by
  induction rows generalizing s with
  | nil => rfl
  | cons r rows ih =>
    rw [List.foldl_cons, ih]
    by_cases hpinned : r.1.1 ∈ pins
    · have hact : (eventSweep lib now top).act pins s r = s := if_pos hpinned
      rw [hact, List.filter_cons_of_neg (by simpa using hpinned)]
    · have hact : (eventSweep lib now top).act pins s r =
          (s.1.clearEvent lib now r.1 r.2, s.2 + 1) := if_neg hpinned
      rw [hact, List.filter_cons_of_pos (by simpa using hpinned), List.length_cons]
      refine Prod.ext rfl ?_
      show s.2 + 1 + _ = s.2 + (_ + 1)
      omega

theorem clearAll_events (db : PayloadDb γ δ H) (rows : List (RowId × Event γ)) (k : RowId) :
    (clearAll lib now db rows).events.get? k = (db.events.get? k).map fun e =>
      if k ∈ rows.map Prod.fst then e.clear else e := by
  induction rows using List.reverseRecOn with
  | nil => simp [clearAll]
  | append_singleton rows r ih =>
    rw [clearAll_append, PayloadDb.clearEvent_events, Table.get?_modify, ih]
    cases db.events.get? k with
    | none => simp
    | some e =>
      have hmem : k ∈ (rows ++ [r]).map Prod.fst ↔ k ∈ rows.map Prod.fst ∨ k = r.1 := by
        rw [List.map_append, List.mem_append, List.map_singleton, List.mem_singleton]
      by_cases hr : k = r.1
      · have hclear : (if k ∈ rows.map Prod.fst then e.clear else e).clear = e.clear := by
          split <;> rfl
        rw [if_pos hr, Option.map_some, Option.map_some, Option.map_some, hclear,
          if_pos (hmem.mpr (Or.inr hr))]
      · rw [if_neg hr, Option.map_some, Option.map_some]
        simp only [hmem, hr, or_false]

theorem clearAll_same (lib : GcLibrary H) (now : ℤ) (db : PayloadDb γ δ H)
    (rows : List (RowId × Event γ)) :
    PayloadDb.SameStores db (clearAll lib now db rows) := by
  induction rows using List.reverseRecOn with
  | nil => exact ⟨rfl, rfl, rfl⟩
  | append_singleton rows r ih =>
    rw [clearAll_append]
    have hr := PayloadDb.clearEvent_same lib now (clearAll lib now db rows) r.1 r.2
    exact ⟨hr.nodeEvidence.trans ih.nodeEvidence, hr.epitaphs.trans ih.epitaphs,
      hr.eval.trans ih.eval⟩

theorem refersTo_iff {db : PayloadDb γ δ H} {i : ℤ} :
    db.refersTo i = true ↔ ∃ k e, db.events.get? k = some e ∧ e.envSnapshotId = some i := by
  rw [PayloadDb.refersTo, List.any_eq_true]
  constructor
  · rintro ⟨e, he, hrefers⟩
    exact ⟨e.1, e.2, Table.get?_eq_some.mpr he, of_decide_eq_true hrefers⟩
  · rintro ⟨k, e, he, hrefers⟩
    exact ⟨(k, e), Table.get?_eq_some.mp he, decide_eq_true hrefers⟩

/-- After the work on an event, the references to a snapshot are those of the other events. -/
theorem refersTo_clearEvent {db : PayloadDb γ δ H} {id : RowId} {e : Event γ} {i : ℤ}
    (hcurrent : db.events.get? id = some e) :
    (db.clearEvent lib now id e).refersTo i = true ↔
      ∃ k e', k ≠ id ∧ db.events.get? k = some e' ∧ e'.envSnapshotId = some i := by
  rw [refersTo_iff, PayloadDb.clearEvent_events]
  constructor
  · rintro ⟨k, e', he', hrefers⟩
    by_cases hk : k = id
    · rw [hk, Table.get?_modify_self, hcurrent] at he'
      obtain rfl := Option.some.inj he'
      cases hrefers
    · rw [Table.get?_modify_of_ne _ hk] at he'
      exact ⟨k, e', hk, he', hrefers⟩
  · rintro ⟨k, e', hk, he', hrefers⟩
    exact ⟨k, e', by rw [Table.get?_modify_of_ne _ hk, he'], hrefers⟩

theorem blankSnapshot_cases (lib : GcLibrary H) (now : ℤ) (db : PayloadDb γ δ H) (i : ℤ) :
    (∃ s, db.envSnapshots.get? i = some s ∧ s.envJson ≠ "" ∧ db.refersTo i = false ∧
      db.blankSnapshot lib now i = { db.addReceipts [PayloadDb.snapshotReceipt lib now i s.envJson]
        with envSnapshots := db.envSnapshots.modify i fun s => { s with envJson := "" } }) ∨
    ((∀ s, db.envSnapshots.get? i = some s → s.envJson = "" ∨ db.refersTo i = true) ∧
      db.blankSnapshot lib now i = db) := by
  unfold PayloadDb.blankSnapshot
  cases hs : db.envSnapshots.get? i with
  | none => exact Or.inr ⟨(fun _ h => nomatch h), rfl⟩
  | some s =>
    by_cases hblank : s.envJson ≠ "" ∧ ¬ db.refersTo i
    · exact Or.inl ⟨s, rfl, hblank.1, Bool.eq_false_iff.mpr hblank.2, if_pos hblank⟩
    · refine Or.inr ⟨?_, if_neg hblank⟩
      intro s' hs'
      obtain rfl := Option.some.inj hs'
      by_cases hempty : s.envJson = ""
      · exact Or.inl hempty
      · exact Or.inr (not_not.mp fun hno => hblank ⟨hempty, hno⟩)

/-- The snapshot of an event becomes blank exactly when nothing refers to it any more. -/
theorem clearEvent_cases (lib : GcLibrary H) (now : ℤ) (db : PayloadDb γ δ H) (id : RowId)
    (e : Event γ) :
    (∃ i s, e.envSnapshotId = some i ∧ db.envSnapshots.get? i = some s ∧ s.envJson ≠ "" ∧
      (db.clearEvent lib now id e).refersTo i = false ∧
      (db.clearEvent lib now id e).envSnapshots =
        db.envSnapshots.modify i (fun s => { s with envJson := "" }) ∧
      (db.clearEvent lib now id e).receipts = db.receipts ++
        (PayloadDb.eventReceipts lib now id e ++
          [PayloadDb.snapshotReceipt lib now i s.envJson])) ∨
    ((∀ i s, e.envSnapshotId = some i → db.envSnapshots.get? i = some s →
        s.envJson = "" ∨ (db.clearEvent lib now id e).refersTo i = true) ∧
      (db.clearEvent lib now id e).envSnapshots = db.envSnapshots ∧
      (db.clearEvent lib now id e).receipts =
        db.receipts ++ PayloadDb.eventReceipts lib now id e) := by
  let cleared : PayloadDb γ δ H :=
    { db.addReceipts (PayloadDb.eventReceipts lib now id e) with
      events := db.events.modify id Event.clear }
  cases henv : e.envSnapshotId with
  | none =>
    have hclear : db.clearEvent lib now id e = cleared := by
      rw [PayloadDb.clearEvent, henv]
      rfl
    rw [hclear]
    exact Or.inr ⟨(fun _ _ h => nomatch h), rfl, rfl⟩
  | some i =>
    have hclear : db.clearEvent lib now id e = cleared.blankSnapshot lib now i := by
      rw [PayloadDb.clearEvent, henv]
      rfl
    rw [hclear]
    rcases blankSnapshot_cases lib now cleared i with
      ⟨s, hs, hjson, hno, heq⟩ | ⟨hkept, heq⟩
    · left
      refine ⟨i, s, rfl, hs, hjson, ?_, ?_, ?_⟩
      · rw [heq]
        exact hno
      · rw [heq]
        rfl
      · rw [heq]
        exact List.append_assoc _ _ _
    · right
      rw [heq]
      refine ⟨?_, rfl, rfl⟩
      intro j s hj hs
      obtain rfl := Option.some.inj hj
      exact hkept s hs

/-- One of the events referred to the snapshot, and now none does. -/
def LastCleared (lib : GcLibrary H) (now : ℤ) (db : PayloadDb γ δ H)
    (rows : List (RowId × Event γ)) (i : ℤ) : Prop :=
  (∃ r ∈ rows, r.2.envSnapshotId = some i) ∧ (clearAll lib now db rows).refersTo i = false

section Rows

variable {db : PayloadDb γ δ H} {rows : List (RowId × Event γ)} {r : RowId × Event γ}

/-- Different events, as they are in the table. -/
structure Current (db : PayloadDb γ δ H) (rows : List (RowId × Event γ)) : Prop where
  nodup : (rows.map Prod.fst).Nodup
  current : ∀ r ∈ rows, db.events.get? r.1 = some r.2

theorem Current.front (h : Current db (rows ++ [r])) : Current db rows where
  nodup := h.nodup.sublist ((List.sublist_append_left _ _).map _)
  current := fun r' hr' => h.current r' (List.mem_append_left _ hr')

/-- The event that is cleared next is still as it was. -/
theorem Current.last (h : Current db (rows ++ [r])) (lib : GcLibrary H) (now : ℤ) :
    (clearAll lib now db rows).events.get? r.1 = some r.2 := by
  have hnot : r.1 ∉ rows.map Prod.fst := by
    have hnodup := h.nodup
    rw [List.map_append, List.nodup_append] at hnodup
    intro hmem
    exact hnodup.2.2 r.1 hmem r.1 (by simp) rfl
  rw [clearAll_events, h.current r (by simp), Option.map_some, if_neg hnot]

/-- Only the snapshot of the last event can have lost its last reference with it. -/
theorem lastCleared_append (lib : GcLibrary H) (now : ℤ) (h : Current db (rows ++ [r])) (i : ℤ) :
    LastCleared lib now db (rows ++ [r]) i ↔
      if r.2.envSnapshotId = some i then
        ((clearAll lib now db rows).clearEvent lib now r.1 r.2).refersTo i = false
      else LastCleared lib now db rows i := by
  have hlast := h.last lib now
  rw [LastCleared, clearAll_append]
  split
  · rename_i hr
    constructor
    · exact And.right
    · intro hno
      exact ⟨⟨r, by simp, hr⟩, hno⟩
  · rename_i hr
    have hsame : ((clearAll lib now db rows).clearEvent lib now r.1 r.2).refersTo i =
        (clearAll lib now db rows).refersTo i := by
      rw [Bool.eq_iff_iff, refersTo_clearEvent hlast, refersTo_iff]
      constructor
      · rintro ⟨k, e, -, he, hrefers⟩
        exact ⟨k, e, he, hrefers⟩
      · rintro ⟨k, e, he, hrefers⟩
        refine ⟨k, e, ?_, he, hrefers⟩
        intro hk
        rw [hk, hlast] at he
        obtain rfl := Option.some.inj he
        exact hr hrefers
    rw [hsame, LastCleared]
    refine and_congr_left fun _ => ?_
    constructor
    · rintro ⟨r', hr', hrefers⟩
      rcases List.mem_append.mp hr' with hfront | hback
      · exact ⟨r', hfront, hrefers⟩
      · rw [List.mem_singleton.mp hback] at hrefers
        exact absurd hrefers hr
    · rintro ⟨r', hr', hrefers⟩
      exact ⟨r', List.mem_append_left _ hr', hrefers⟩

instance (lib : GcLibrary H) (now : ℤ) (db : PayloadDb γ δ H) (rows : List (RowId × Event γ))
    (i : ℤ) : Decidable (LastCleared lib now db rows i) :=
  inferInstanceAs (Decidable (_ ∧ _))

/-- A snapshot that a remaining event refers to is still in use. -/
theorem Current.not_lastCleared (h : Current db (rows ++ [r])) {i : ℤ}
    (hr : r.2.envSnapshotId = some i) : ¬ LastCleared lib now db rows i := by
  intro hcleared
  have hrefers := refersTo_iff.mpr ⟨r.1, r.2, h.last lib now, hr⟩
  rw [hcleared.2] at hrefers
  cases hrefers

/-- A snapshot is blank afterwards when its last reference was cleared. -/
theorem clearAll_envSnapshots (h : Current db rows) (i : ℤ) :
    (clearAll lib now db rows).envSnapshots.get? i = (db.envSnapshots.get? i).map fun s =>
      if LastCleared lib now db rows i then { s with envJson := "" } else s := by
  induction rows using List.reverseRecOn with
  | nil =>
    have hno : ¬ LastCleared lib now db [] i := by
      rintro ⟨⟨r, hr, -⟩, -⟩
      cases hr
    simp [clearAll, hno]
  | append_singleton rows r ih =>
    have ih' := ih h.front
    have hiff := lastCleared_append lib now h i
    rw [clearAll_append]
    rcases clearEvent_cases lib now (clearAll lib now db rows) r.1 r.2 with
      ⟨j, s, hj, hs, hjson, hno, hsnapshots, -⟩ | ⟨hkept, hsnapshots, -⟩
    · rw [hj] at hiff
      rw [hsnapshots, Table.get?_modify, ih']
      by_cases hi : i = j
      · rw [if_pos (congrArg some hi.symm), hi] at hiff
        rw [if_pos hi, Option.map_map]
        congr 1
        funext s'
        have hcleared : LastCleared lib now db (rows ++ [r]) i := by
          rw [hi]
          exact hiff.mpr hno
        rw [if_pos hcleared, Function.comp_apply]
        split <;> rfl
      · rw [if_neg fun heq => hi (Option.some.inj heq).symm] at hiff
        rw [if_neg hi]
        simp only [hiff]
    · rw [hsnapshots, ih']
      by_cases hr : r.2.envSnapshotId = some i
      · rw [if_pos hr] at hiff
        have hbefore : ¬ LastCleared lib now db rows i := h.not_lastCleared hr
        simp only [hbefore, if_false, Option.map_id'] at ih' ⊢
        cases hs : db.envSnapshots.get? i with
        | none => rfl
        | some s =>
          rw [hs] at ih'
          rcases hkept i s hr ih' with hempty | hrefers
          · rw [Option.map_some]
            congr 1
            split
            · rw [← hempty]
            · rfl
          · have hafter : ¬ LastCleared lib now db (rows ++ [r]) i := by
              rw [hiff, hrefers]
              simp
            rw [Option.map_some, if_neg hafter]
      · rw [if_neg hr] at hiff
        simp only [hiff]

/-- The snapshots that become blank, as they were. -/
def blankedSnapshots (lib : GcLibrary H) (now : ℤ) (db : PayloadDb γ δ H)
    (rows : List (RowId × Event γ)) : List (ℤ × EnvSnapshot δ) :=
  db.envSnapshots.entries.filter fun s =>
    s.2.envJson ≠ "" && decide (LastCleared lib now db rows s.1)

theorem mem_blankedSnapshots {s : ℤ × EnvSnapshot δ} : s ∈ blankedSnapshots lib now db rows ↔
    db.envSnapshots.get? s.1 = some s.2 ∧ s.2.envJson ≠ "" ∧
      LastCleared lib now db rows s.1 := by
  rw [blankedSnapshots, List.mem_filter, Table.get?_eq_some]
  simp

theorem nodup_blankedSnapshots : (blankedSnapshots lib now db rows).Nodup :=
  (List.Nodup.of_map Prod.fst db.envSnapshots.nodup).filter _

/-- The receipts of a list of events and snapshots. -/
def sweepReceipts (lib : GcLibrary H) (now : ℤ) (rows : List (RowId × Event γ))
    (snapshots : List (ℤ × EnvSnapshot δ)) : List (Receipt H) :=
  (rows.flatMap fun r => PayloadDb.eventReceipts lib now r.1 r.2) ++
    snapshots.map fun s => PayloadDb.snapshotReceipt lib now s.1 s.2.envJson

theorem sweepReceipts_append (lib : GcLibrary H) (now : ℤ) (rows rows' : List (RowId × Event γ))
    (snapshots snapshots' : List (ℤ × EnvSnapshot δ)) :
    (sweepReceipts lib now rows snapshots ++ sweepReceipts lib now rows' snapshots').Perm
      (sweepReceipts lib now (rows ++ rows') (snapshots ++ snapshots')) := by
  rw [sweepReceipts, sweepReceipts, sweepReceipts, List.flatMap_append, List.map_append,
    List.append_assoc, List.append_assoc]
  exact (List.perm_append_comm_assoc _ _ _).append_left _

/-- The snapshot of the next event becomes blank in addition. -/
theorem blankedSnapshots_append (h : Current db (rows ++ [r])) {j : ℤ} {s : EnvSnapshot δ}
    (hj : r.2.envSnapshotId = some j) (hs : db.envSnapshots.get? j = some s)
    (hjson : s.envJson ≠ "")
    (hno : ((clearAll lib now db rows).clearEvent lib now r.1 r.2).refersTo j = false) :
    (blankedSnapshots lib now db (rows ++ [r])).Perm
      (blankedSnapshots lib now db rows ++ [(j, s)]) := by
  have hbefore : ¬ LastCleared lib now db rows j := h.not_lastCleared hj
  have hfresh : (j, s) ∉ blankedSnapshots lib now db rows := fun hmem =>
    hbefore (mem_blankedSnapshots.mp hmem).2.2
  rw [List.perm_ext_iff_of_nodup nodup_blankedSnapshots
    (nodup_blankedSnapshots.append (List.nodup_singleton _) (by simpa using hfresh))]
  intro s'
  rw [List.mem_append, List.mem_singleton, mem_blankedSnapshots, mem_blankedSnapshots,
    lastCleared_append lib now h, hj]
  by_cases hsame : s'.1 = j
  · rw [if_pos (congrArg some hsame.symm), hsame]
    constructor
    · rintro ⟨hget, -, -⟩
      rw [hs] at hget
      exact Or.inr (Prod.ext hsame (Option.some.inj hget).symm)
    · rintro (⟨-, -, hcleared⟩ | rfl)
      · exact absurd hcleared hbefore
      · exact ⟨hs, hjson, hno⟩
  · rw [if_neg fun heq => hsame (Option.some.inj heq).symm]
    have hne : s' ≠ (j, s) := fun heq => hsame (congrArg Prod.fst heq)
    simp only [hne, or_false]

/-- One receipt is written for each field and for each snapshot. -/
theorem clearAll_receipts (lib : GcLibrary H) (now : ℤ) (h : Current db rows) : ∃ new,
    (clearAll lib now db rows).receipts = db.receipts ++ new ∧
      new.Perm (sweepReceipts lib now rows (blankedSnapshots lib now db rows)) := by
  induction rows using List.reverseRecOn with
  | nil =>
    have hnone : blankedSnapshots lib now db [] = [] := by
      rw [List.eq_nil_iff_forall_not_mem]
      intro s hs
      obtain ⟨-, -, ⟨r, hr, -⟩, -⟩ := mem_blankedSnapshots.mp hs
      cases hr
    rw [hnone]
    exact ⟨[], (List.append_nil _).symm, List.Perm.refl _⟩
  | append_singleton rows r ih =>
    obtain ⟨new, hnew, hperm⟩ := ih h.front
    have happend := sweepReceipts_append (δ := δ) lib now rows [r]
      (blankedSnapshots lib now db rows)
    rw [clearAll_append]
    rcases clearEvent_cases lib now (clearAll lib now db rows) r.1 r.2 with
      ⟨j, s, hj, hs, hjson, hno, -, hreceipts⟩ | ⟨hkept, -, hreceipts⟩
    · have hbefore : ¬ LastCleared lib now db rows j := h.not_lastCleared hj
      have hs' : db.envSnapshots.get? j = some s := by
        rw [clearAll_envSnapshots h.front] at hs
        simpa only [hbefore, if_false, Option.map_id'] using hs
      have hsnapshots := blankedSnapshots_append h hj hs' hjson hno
      refine ⟨new ++ sweepReceipts lib now [r] [(j, s)], ?_, ?_⟩
      · rw [hreceipts, hnew, List.append_assoc, sweepReceipts, List.flatMap_singleton]
        rfl
      · calc new ++ sweepReceipts lib now [r] [(j, s)]
            |>.Perm (sweepReceipts lib now rows (blankedSnapshots lib now db rows) ++
                sweepReceipts lib now [r] [(j, s)]) := hperm.append_right _
          _ |>.Perm (sweepReceipts lib now (rows ++ [r])
                (blankedSnapshots lib now db rows ++ [(j, s)])) := happend _
          _ |>.Perm _ := (hsnapshots.symm.map _).append_left _
    · have hsnapshots : blankedSnapshots lib now db (rows ++ [r]) =
          blankedSnapshots lib now db rows := by
        apply List.filter_congr
        intro s hs
        by_cases hjson : s.2.envJson = ""
        · simp [hjson]
        · have hiff := lastCleared_append lib now h s.1
          split at hiff
          · rename_i hr
            have hbefore : ¬ LastCleared lib now db rows s.1 := h.not_lastCleared hr
            have hget : (clearAll lib now db rows).envSnapshots.get? s.1 = some s.2 := by
              rw [clearAll_envSnapshots h.front, Table.get?_eq_some.mpr hs, Option.map_some,
                if_neg hbefore]
            have hafter : ¬ LastCleared lib now db (rows ++ [r]) s.1 := by
              rw [hiff, (hkept s.1 s.2 hr hget).resolve_left hjson]
              simp
            simp [hbefore, hafter]
          · simp [hiff]
      refine ⟨new ++ sweepReceipts (δ := δ) lib now [r] [], ?_, ?_⟩
      · rw [hreceipts, hnew, List.append_assoc, sweepReceipts, List.flatMap_singleton,
          List.map_nil, List.append_nil]
      · have hperm' := (hperm.append_right (sweepReceipts (δ := δ) lib now [r] [])).trans
          (happend [])
        rwa [List.append_nil, ← hsnapshots] at hperm'

end Rows

end Events

end Hippo.PayloadGc
