import Hippo.TextSweep

/-!
# Exactness of the payload sweep

A run of the sweep that succeeds clears all that is expired and not pinned, once, with a receipt
for each cleared field, and leaves nothing to do.
-/
namespace Hippo.PayloadGc
open AgentEval

variable {γ δ H : Type}

namespace PayloadDb

/-- How many rows the loops of a sweep can read. -/
def rowCount (db : PayloadDb γ δ H) : ℕ := db.events.entries.length + db.eval.rows.entries.length

/-- Expired, with a payload, and not pinned. -/
def expired (now : ℤ) (pins : List ℤ) (r : RowId × Event γ) : Bool :=
  r.2.expiry ≤ now && r.2.hasPayload && r.1.1 ∉ pins

/-- The last reference to the snapshot went away between the two states. -/
def lostReferences (db db' : PayloadDb γ δ H) (i : ℤ) : Bool := db.refersTo i && !db'.refersTo i

/-- The text of the row has expired and its finding is not pinned. -/
def unpinnedText (now : ℤ) (db : EvalDb) (t : EvalTable) (e : String × Row) : Bool :=
  textExpired now t e.2 && findingId t e ∉ evalPayloadPins db

/-- One receipt for each field and for each snapshot that is cleared. -/
def expectedReceipts (lib : GcLibrary H) (now : ℤ) (pins : List ℤ) (db db' : PayloadDb γ δ H) :
    List (Receipt H) :=
  (db.events.entries.filter (expired now pins)).flatMap (fun r => eventReceipts lib now r.1 r.2) ++
    (db.envSnapshots.entries.filter fun s => s.2.envJson ≠ "" && lostReferences db db' s.1).map
      (fun s => snapshotReceipt lib now s.1 s.2.envJson) ++
    ((tableRows db.eval .findings).filter (unpinnedText now db.eval .findings)).flatMap
      (textReceipts lib now .findings "eval_findings") ++
    ((tableRows db.eval .verdicts).filter (unpinnedText now db.eval .verdicts)).flatMap
      (textReceipts lib now .verdicts "eval_verdicts")

/-- What a complete sweep does to the tables. -/
structure Swept (lib : GcLibrary H) (now : ℤ) (pins : List ℤ) (db db' : PayloadDb γ δ H) :
    Prop where
  events : ∀ id, db'.events.get? id = (db.events.get? id).map fun e =>
    if expired now pins (id, e) then e.clear else e
  snapshots : ∀ i, db'.envSnapshots.get? i = (db.envSnapshots.get? i).map fun s =>
    if lostReferences db db' i then { s with envJson := "" } else s
  texts : ∀ t id, db'.eval.rows.get? (t, id) = (db.eval.rows.get? (t, id)).map fun r =>
    if unpinnedText now db.eval t (id, r) then r.clear t.freeText else r
  nodeEvidence : db'.nodeEvidence = db.nodeEvidence
  epitaphs : db'.epitaphs = db.epitaphs
  receipts : ∃ new, db'.receipts = db.receipts ++ new ∧
    new.Perm (expectedReceipts lib now pins db db')

end PayloadDb

section Due

variable (now : ℤ) (pins : List ℤ) (db : PayloadDb γ δ H)

theorem le_ceiling {k : RowId} {e : Event γ} (h : (k, e) ∈ db.events.entries) :
    k.1 ≤ ceiling db := by
  have hmem : k.1 ∈ db.events.entries.map fun e => e.1.1 :=
    List.mem_map_of_mem (f := fun e : RowId × Event γ => e.1.1) h
  cases hmax : (db.events.entries.map fun e => e.1.1).max? with
  | none =>
    rw [List.max?_eq_none_iff] at hmax
    rw [hmax] at hmem
    cases hmem
  | some m =>
    rw [ceiling, hmax]
    exact (List.max?_eq_some_iff.mp hmax).2 _ hmem

/-- The events that the sweep clears, in the order of their ids. -/
def dueRows : List (RowId × Event γ) :=
  (sortedRows (dueEvents now (ceiling db) db)).filter fun r => r.1.1 ∉ pins

theorem mem_dueRows {r : RowId × Event γ} :
    r ∈ dueRows now pins db ↔ r ∈ db.events.entries.filter (PayloadDb.expired now pins) := by
  rw [dueRows, List.mem_filter, mem_sortedRows, dueEvents, List.mem_filter, List.mem_filter,
    PayloadDb.expired]
  constructor
  · rintro ⟨⟨hmem, hdue⟩, hpins⟩
    simp only [Bool.and_eq_true, decide_eq_true_eq] at hdue hpins ⊢
    exact ⟨hmem, ⟨hdue.1.2, hdue.2⟩, hpins⟩
  · rintro ⟨hmem, hdue⟩
    simp only [Bool.and_eq_true, decide_eq_true_eq] at hdue ⊢
    exact ⟨⟨hmem, ⟨le_ceiling db hmem, hdue.1.1⟩, hdue.1.2⟩, hdue.2⟩

theorem nodup_dueRows : ((dueRows now pins db).map Prod.fst).Nodup := by
  have hsorted := sortedRows_pairwise (nodup_dueEvents now (ceiling db) db)
  have hne : (dueRows now pins db).Pairwise fun a b => a.1 ≠ b.1 :=
    (hsorted.filter _).imp fun h => ne_of_lt h
  exact List.pairwise_map.mpr hne

theorem dueRows_perm :
    (dueRows now pins db).Perm (db.events.entries.filter (PayloadDb.expired now pins)) := by
  rw [List.perm_ext_iff_of_nodup (List.Nodup.of_map _ (nodup_dueRows now pins db))
    ((List.Nodup.of_map Prod.fst db.events.nodup).filter _)]
  intro r
  exact mem_dueRows now pins db

theorem current_dueRows : Current db (dueRows now pins db) where
  nodup := nodup_dueRows now pins db
  current := by
    intro r hr
    rw [Table.get?_eq_some]
    exact (List.mem_filter.mp ((mem_dueRows now pins db).mp hr)).1

theorem dueTexts_perm (t : EvalTable) (db : EvalDb) : (dueTexts now t db).Perm
    ((tableRows db t).filter (PayloadDb.unpinnedText now db t)) := by
  have hsplit : (tableRows db t).filter (PayloadDb.unpinnedText now db t) =
      ((tableRows db t).filter fun e => textExpired now t e.2).filter
        fun r => findingId t r ∉ evalPayloadPins db := by
    rw [List.filter_filter]
    apply List.filter_congr
    intro e _
    rw [PayloadDb.unpinnedText, Bool.and_comm]
  rw [hsplit]
  exact (List.perm_insertionSort _ _).filter _

end Due

section Run

variable (lib : GcLibrary H) (now : ℤ) (pins : List ℤ) (db : PayloadDb γ δ H)

/-- The tables after the loop over the events. -/
def eventsSwept : PayloadDb γ δ H := clearAll lib now db (dueRows now pins db)

/-- The tables after the loop over the findings. -/
def findingsSwept : PayloadDb γ δ H :=
  clearTexts lib now .findings "eval_findings" (eventsSwept lib now pins db)
    (dueTexts now .findings db.eval)

/-- The tables after all loops. -/
def swept : PayloadDb γ δ H :=
  clearTexts lib now .verdicts "eval_verdicts" (findingsSwept lib now pins db)
    (dueTexts now .verdicts db.eval)

theorem tableRows_clearTexts_of_ne {t t' : EvalTable} {tableName : String}
    {rows : List (String × Row)} (ht : t' ≠ t) :
    tableRows (clearTexts lib now t tableName db rows).eval t' = tableRows db.eval t' := by
  induction rows generalizing db with
  | nil => rfl
  | cons r rows ih =>
    rw [clearTexts, List.foldl_cons, ← clearTexts, ih]
    show tableRows (clearText db.eval t r.1) t' = _
    rw [tableRows_clearText, if_neg ht]

/-- The verdicts that are due are the same before and after the loop over the findings. -/
theorem dueTexts_findingsSwept : dueTexts now .verdicts (findingsSwept lib now pins db).eval =
    dueTexts now .verdicts db.eval := by
  have hsame : (eventsSwept lib now pins db).eval = db.eval := (clearAll_same lib now db _).eval
  have hrows : tableRows (findingsSwept lib now pins db).eval .verdicts =
      tableRows db.eval .verdicts := by
    rw [findingsSwept, tableRows_clearTexts_of_ne lib now _ (by decide), hsame]
  have hpins : evalPayloadPins (findingsSwept lib now pins db).eval = evalPayloadPins db.eval := by
    rw [findingsSwept, clearTexts_sameVerdicts.pins, hsame]
  rw [dueTexts, dueTexts, expiredTexts, expiredTexts, hrows, hpins]

theorem eventSweep_run (hpins : eventPayloadPins lib db = .ok pins) {fuel : ℕ}
    (hfuel : db.events.entries.length < fuel) :
    (eventSweep lib now (ceiling db)).run fuel (-2 ^ 63) (db, 0) =
      some (.ok (), eventsSwept lib now pins db, (dueRows now pins db).length) := by
  have hall : (((eventSweep lib now (ceiling db)).rows (db, 0)).filter fun r =>
      (eventSweep (γ := γ) (δ := δ) lib now (ceiling db)).behind (-2 ^ 63) r.1) =
        sortedRows (dueEvents now (ceiling db) db) := by
    apply List.filter_eq_self.mpr
    intro r _
    exact decide_eq_true r.1.2.1
  have hcount : (sortedRows (dueEvents now (ceiling db) db)).length ≤ db.events.entries.length := by
    rw [length_sortedRows]
    exact List.length_filter_le _ _
  have hcheck : (eventSweep lib now (ceiling db)).check (db, 0) = .ok pins := hpins
  rw [(eventSweep_lawful lib now (ceiling db) pins).run_eq hcheck (by rw [hall]; omega), hall,
    foldl_eventSweep, Nat.zero_add]
  rfl

theorem eval_entries_length (rows : List (String × Row)) (t : EvalTable) (tableName : String) :
    (clearTexts lib now t tableName db rows).eval.rows.entries.length =
      db.eval.rows.entries.length := by
  induction rows generalizing db with
  | nil => rfl
  | cons r rows ih =>
    rw [clearTexts, List.foldl_cons, ← clearTexts, ih]
    exact List.length_map _

theorem gcEventPayloads_ok (hpins : eventPayloadPins lib db = .ok pins) (extra : ℕ) :
    gcEventPayloads lib now (db.rowCount + 1 + extra) db =
      some (.ok ⟨(dueRows now pins db).length, (dueTexts now .findings db.eval).length,
        (dueTexts now .verdicts db.eval).length⟩, swept lib now pins db) := by
  have hcount : db.rowCount = db.events.entries.length + db.eval.rows.entries.length := rfl
  have hsame : (eventsSwept lib now pins db).eval = db.eval := (clearAll_same lib now db _).eval
  have hlength : (findingsSwept lib now pins db).eval.rows.entries.length =
      db.eval.rows.entries.length := by
    rw [findingsSwept, eval_entries_length, hsame]
  have hfuel : db.eval.rows.entries.length < db.rowCount + 1 + extra := by omega
  have hfindings := evalSweep_run lib now .findings "eval_findings" (eventsSwept lib now pins db)
    (hsame ▸ hfuel)
  have hverdicts := evalSweep_run lib now .verdicts "eval_verdicts"
    (findingsSwept lib now pins db) (hlength ▸ hfuel)
  rw [hsame] at hfindings
  rw [dueTexts_findingsSwept] at hverdicts
  rw [← findingsSwept] at hfindings
  have hevents := eventSweep_run lib now pins db hpins
    (show _ < db.rowCount + 1 + extra by omega)
  simp only [gcEventPayloads, hevents, hfindings, hverdicts, Option.bind_eq_bind,
    Option.bind_some]
  rfl

theorem gcEventPayloads_error {e : String} (hpins : eventPayloadPins lib db = .error e)
    (fuel : ℕ) : gcEventPayloads lib now (fuel + 1) db = some (.error e, db) := by
  have hcheck : (eventSweep lib now (ceiling db)).check (db, 0) = .error e := hpins
  rw [gcEventPayloads, PagedSweep.run, hcheck]
  rfl

/-- The tables that the work on the texts does not change. -/
theorem clearTexts_keeps (t : EvalTable) (tableName : String) (rows : List (String × Row)) :
    (clearTexts lib now t tableName db rows).events = db.events ∧
      (clearTexts lib now t tableName db rows).envSnapshots = db.envSnapshots ∧
      (clearTexts lib now t tableName db rows).nodeEvidence = db.nodeEvidence ∧
      (clearTexts lib now t tableName db rows).epitaphs = db.epitaphs := by
  induction rows generalizing db with
  | nil => exact ⟨rfl, rfl, rfl, rfl⟩
  | cons r rows ih => exact ih (clearWithReceipts lib now t tableName db r)

theorem swept_keeps : (swept lib now pins db).events = (eventsSwept lib now pins db).events ∧
    (swept lib now pins db).envSnapshots = (eventsSwept lib now pins db).envSnapshots ∧
    (swept lib now pins db).nodeEvidence = db.nodeEvidence ∧
    (swept lib now pins db).epitaphs = db.epitaphs := by
  have hverdicts := clearTexts_keeps lib now (findingsSwept lib now pins db) .verdicts
    "eval_verdicts" (dueTexts now .verdicts db.eval)
  have hfindings := clearTexts_keeps lib now (eventsSwept lib now pins db) .findings
    "eval_findings" (dueTexts now .findings db.eval)
  have hevents := clearAll_same lib now db (dueRows now pins db)
  exact ⟨hverdicts.1.trans hfindings.1, hverdicts.2.1.trans hfindings.2.1,
    hverdicts.2.2.1.trans (hfindings.2.2.1.trans hevents.nodeEvidence),
    hverdicts.2.2.2.trans (hfindings.2.2.2.trans hevents.epitaphs)⟩

theorem swept_events (id : RowId) :
    (swept lib now pins db).events.get? id = (db.events.get? id).map fun e =>
      if PayloadDb.expired now pins (id, e) then e.clear else e := by
  rw [(swept_keeps lib now pins db).1, eventsSwept, clearAll_events]
  apply Option.map_congr
  intro e he
  have hiff : id ∈ (dueRows now pins db).map Prod.fst ↔ PayloadDb.expired now pins (id, e) := by
    constructor
    · intro hmem
      obtain ⟨r, hr, rfl⟩ := List.mem_map.mp hmem
      have hcurrent := (current_dueRows now pins db).current r hr
      rw [he] at hcurrent
      obtain rfl := Option.some.inj hcurrent
      exact (List.mem_filter.mp ((mem_dueRows now pins db).mp hr)).2
    · intro hexpired
      apply List.mem_map.mpr
      refine ⟨(id, e), (mem_dueRows now pins db).mpr ?_, rfl⟩
      exact List.mem_filter.mpr ⟨Table.get?_eq_some.mp he, hexpired⟩
  simp only [hiff]

theorem lastCleared_iff (i : ℤ) : LastCleared lib now db (dueRows now pins db) i ↔
    PayloadDb.lostReferences db (swept lib now pins db) i = true := by
  have hafter : (clearAll lib now db (dueRows now pins db)).refersTo i =
      (swept lib now pins db).refersTo i := by
    rw [PayloadDb.refersTo, PayloadDb.refersTo, (swept_keeps lib now pins db).1, eventsSwept]
  rw [LastCleared, PayloadDb.lostReferences, hafter, Bool.and_eq_true, Bool.not_eq_true']
  refine and_congr_left fun hno => ?_
  rw [refersTo_iff]
  constructor
  · rintro ⟨r, hr, hrefers⟩
    exact ⟨r.1, r.2, (current_dueRows now pins db).current r hr, hrefers⟩
  · rintro ⟨k, e, he, hrefers⟩
    refine ⟨(k, e), ?_, hrefers⟩
    -- an event that keeps its reference would still be seen afterwards
    by_cases hdue : PayloadDb.expired now pins (k, e) = true
    · exact (mem_dueRows now pins db).mpr
        (List.mem_filter.mpr ⟨Table.get?_eq_some.mp he, hdue⟩)
    · have hkept : (swept lib now pins db).events.get? k = some e := by
        rw [swept_events, he, Option.map_some, if_neg hdue]
      rw [refersTo_iff.mpr ⟨k, e, hkept, hrefers⟩] at hno
      cases hno

theorem swept_snapshots (i : ℤ) :
    (swept lib now pins db).envSnapshots.get? i = (db.envSnapshots.get? i).map fun s =>
      if PayloadDb.lostReferences db (swept lib now pins db) i then { s with envJson := "" }
      else s := by
  rw [(swept_keeps lib now pins db).2.1, eventsSwept,
    clearAll_envSnapshots (current_dueRows now pins db)]
  simp only [lastCleared_iff]

theorem mem_dueTexts {t : EvalTable} {e : String × Row} {db : EvalDb} :
    e ∈ dueTexts now t db ↔
      db.rows.get? (t, e.1) = some e.2 ∧ PayloadDb.unpinnedText now db t e = true := by
  rw [(dueTexts_perm now t db).mem_iff, List.mem_filter, mem_tableRows]

/-- A row is cleared when it is in the list of its table. -/
theorem fst_mem_dueTexts {t : EvalTable} {id : String} {r : Row} {db : EvalDb}
    (hr : db.rows.get? (t, id) = some r) : id ∈ (dueTexts now t db).map Prod.fst ↔
      PayloadDb.unpinnedText now db t (id, r) = true := by
  constructor
  · intro hmem
    obtain ⟨e, he, rfl⟩ := List.mem_map.mp hmem
    obtain ⟨hget, hdue⟩ := (mem_dueTexts now).mp he
    rw [hr] at hget
    obtain rfl := Option.some.inj hget
    exact hdue
  · intro hdue
    exact List.mem_map.mpr ⟨(id, r), (mem_dueTexts now).mpr ⟨hr, hdue⟩, rfl⟩

/-- A table without free text has nothing to clear. -/
theorem unpinnedText_of_noText {t : EvalTable} (h : t.freeText = []) {db : EvalDb}
    {e : String × Row} : PayloadDb.unpinnedText now db t e = false := by
  rw [PayloadDb.unpinnedText, textExpired, h, List.any_nil, Bool.and_false, Bool.false_and]

theorem swept_texts (t : EvalTable) (id : String) :
    (swept lib now pins db).eval.rows.get? (t, id) = (db.eval.rows.get? (t, id)).map fun r =>
      if PayloadDb.unpinnedText now db.eval t (id, r) then r.clear t.freeText else r := by
  have hsame : (eventsSwept lib now pins db).eval = db.eval := (clearAll_same lib now db _).eval
  rw [swept, clearTexts_eval_get?, findingsSwept, clearTexts_eval_get?, hsame, Option.map_map]
  apply Option.map_congr
  intro r hr
  rw [Function.comp_apply]
  cases t with
  | findings => simp [fst_mem_dueTexts now hr]
  | verdicts => simp [fst_mem_dueTexts now hr]
  | reviewRuns => simp [unpinnedText_of_noText now (t := .reviewRuns) rfl]
  | escapes => simp [unpinnedText_of_noText now (t := .escapes) rfl]
  | benchRuns => simp [unpinnedText_of_noText now (t := .benchRuns) rfl]

theorem swept_receipts : ∃ new, (swept lib now pins db).receipts = db.receipts ++ new ∧
    new.Perm (PayloadDb.expectedReceipts lib now pins db (swept lib now pins db)) := by
  obtain ⟨new, hnew, hperm⟩ := clearAll_receipts lib now (current_dueRows now pins db)
  have hreceipts : (swept lib now pins db).receipts = db.receipts ++ (new ++
      (dueTexts now .findings db.eval).flatMap
        (PayloadDb.textReceipts lib now .findings "eval_findings") ++
      (dueTexts now .verdicts db.eval).flatMap
        (PayloadDb.textReceipts lib now .verdicts "eval_verdicts")) := by
    rw [swept, clearTexts_receipts, findingsSwept, clearTexts_receipts, eventsSwept, hnew]
    simp only [List.append_assoc]
  refine ⟨_, hreceipts, ?_⟩
  have hblanked : blankedSnapshots lib now db (dueRows now pins db) =
      db.envSnapshots.entries.filter fun s => s.2.envJson ≠ "" &&
        PayloadDb.lostReferences db (swept lib now pins db) s.1 := by
    apply List.filter_congr
    intro s _
    simp only [lastCleared_iff, Bool.decide_eq_true]
  rw [PayloadDb.expectedReceipts, ← hblanked]
  refine ((hperm.trans ?_).append ((dueTexts_perm now .findings db.eval).flatMap_right _)).append
    ((dueTexts_perm now .verdicts db.eval).flatMap_right _)
  exact ((dueRows_perm now pins db).flatMap_right _).append_right _

/-- What the sweep leaves is what it should leave. -/
theorem swept_spec : PayloadDb.Swept lib now pins db (swept lib now pins db) where
  events := swept_events lib now pins db
  snapshots := swept_snapshots lib now pins db
  texts := swept_texts lib now pins db
  nodeEvidence := (swept_keeps lib now pins db).2.2.1
  epitaphs := (swept_keeps lib now pins db).2.2.2
  receipts := swept_receipts lib now pins db

theorem eventPayloadPins_swept :
    eventPayloadPins lib (swept lib now pins db) = eventPayloadPins lib db := by
  rw [eventPayloadPins, eventPayloadPins, (swept_keeps lib now pins db).2.2.1,
    (swept_keeps lib now pins db).2.2.2]

theorem evalPayloadPins_swept :
    evalPayloadPins (swept lib now pins db).eval = evalPayloadPins db.eval := by
  have hsame : (eventsSwept lib now pins db).eval = db.eval := (clearAll_same lib now db _).eval
  rw [swept, clearTexts_sameVerdicts.pins, findingsSwept, clearTexts_sameVerdicts.pins, hsame]

/-- No event is left to clear. -/
theorem dueRows_swept : dueRows now pins (swept lib now pins db) = [] := by
  rw [List.eq_nil_iff_forall_not_mem]
  intro r hr
  obtain ⟨hmem, hexpired⟩ := List.mem_filter.mp ((mem_dueRows now pins _).mp hr)
  rw [← Table.get?_eq_some, swept_events] at hmem
  obtain ⟨e, -, he⟩ := Option.map_eq_some_iff.mp hmem
  split at he
  · have hnone : r.2.hasPayload = false := by
      rw [← he]
      rfl
    simp [PayloadDb.expired, hnone] at hexpired
  · rename_i hkept
    rw [he] at hkept
    exact hkept hexpired

theorem textExpired_clear (t : EvalTable) (r : Row) :
    textExpired now t (r.clear t.freeText) = false := by
  rw [textExpired, Bool.and_eq_false_iff]
  right
  rw [List.any_eq_false]
  intro field hfield
  rw [Row.value_clear, if_pos hfield]
  simp

/-- No text is left to clear. -/
theorem dueTexts_swept (t : EvalTable) : dueTexts now t (swept lib now pins db).eval = [] := by
  rw [List.eq_nil_iff_forall_not_mem]
  intro e he
  obtain ⟨hmem, hdue⟩ := (mem_dueTexts now).mp he
  rw [swept_texts] at hmem
  obtain ⟨r, -, hr⟩ := Option.map_eq_some_iff.mp hmem
  split at hr
  · rw [PayloadDb.unpinnedText, ← hr, textExpired_clear, Bool.false_and] at hdue
    cases hdue
  · rename_i hkept
    rw [hr] at hkept
    rw [PayloadDb.unpinnedText, evalPayloadPins_swept, ← PayloadDb.unpinnedText] at hdue
    exact hkept hdue

/-- A second sweep has nothing to do. -/
theorem swept_swept :
    swept lib now pins (swept lib now pins db) = swept lib now pins db := by
  rw [swept, findingsSwept, eventsSwept, dueRows_swept, dueTexts_swept, dueTexts_swept]
  rfl

theorem second_gcEventPayloads (hpins : eventPayloadPins lib db = .ok pins) (extra : ℕ) :
    gcEventPayloads lib now ((swept lib now pins db).rowCount + 1 + extra)
      (swept lib now pins db) = some (.ok ⟨0, 0, 0⟩, swept lib now pins db) := by
  have hpins' : eventPayloadPins lib (swept lib now pins db) = .ok pins := by
    rw [eventPayloadPins_swept, hpins]
  rw [gcEventPayloads_ok lib now pins _ hpins', swept_swept, dueRows_swept, dueTexts_swept,
    dueTexts_swept]
  rfl

end Run

section Main

/-- A sweep ends for every number of rows. It fails before the first change, when a citation is of
no known form; or it clears exactly what is expired and not pinned, and a second sweep at the same
time changes nothing. -/
theorem gc_event_payloads_exact (lib : GcLibrary H) (now : ℤ) (db : PayloadDb γ δ H)
    (extra extra' : ℕ) :
    (∃ e, eventPayloadPins lib db = .error e ∧
      gcEventPayloads lib now (db.rowCount + 1 + extra) db = some (.error e, db)) ∨
    (∃ pins report db', eventPayloadPins lib db = .ok pins ∧
      gcEventPayloads lib now (db.rowCount + 1 + extra) db = some (.ok report, db') ∧
      PayloadDb.Swept lib now pins db db' ∧
      gcEventPayloads lib now (db'.rowCount + 1 + extra') db' = some (.ok ⟨0, 0, 0⟩, db')) := by
  cases hpins : eventPayloadPins lib db with
  | error e =>
    left
    refine ⟨e, rfl, ?_⟩
    rw [Nat.add_right_comm]
    exact gcEventPayloads_error lib now db hpins _
  | ok pins =>
    right
    exact ⟨pins, _, _, rfl, gcEventPayloads_ok lib now pins db hpins extra,
      swept_spec lib now pins db, second_gcEventPayloads lib now pins db hpins extra'⟩

/-- A library for a database without citations; the hash says nothing. -/
def plainLibrary : GcLibrary Unit := ⟨fun _ => (), fun _ => none⟩

/-- An event with output and no stored expiry. -/
def oldEvent : Event Unit := ⟨some "out", none, none, none, 0, ()⟩

def firstRow : RowId := ⟨1, by decide⟩

def oldEventDb : PayloadDb Unit Unit Unit where
  events := Table.empty.insert firstRow oldEvent
  envSnapshots := Table.empty
  nodeEvidence := []
  epitaphs := []
  receipts := []
  eval := EvalDb.empty

/-- The clearing changes one more column: an event without an expiry gets one. -/
theorem cleared_event_gets_expiry : ∃ report db' e',
    gcEventPayloads plainLibrary 7776000000 2 oldEventDb = some (.ok report, db') ∧
      oldEventDb.events.get? firstRow = some oldEvent ∧ db'.events.get? firstRow = some e' ∧
      oldEvent.payloadExpiry = none ∧ e'.payloadExpiry = some 7776000000 := by
  refine ⟨⟨1, 0, 0⟩, swept plainLibrary 7776000000 [] oldEventDb, oldEvent.clear, ?_, rfl, ?_,
    rfl, rfl⟩
  · exact gcEventPayloads_ok plainLibrary 7776000000 [] oldEventDb rfl 0
  · rfl

end Main

end Hippo.PayloadGc
