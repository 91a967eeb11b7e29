import Hippo.AgentEvalLines
import Hippo.PayloadExactness

/-!
# Ingest in pieces, again and after a sweep

A log is ingested in pieces, any of which may begin with lines that were ingested before, and old
text is swept in between. The tables always hold the first accepted record of each key.
-/
namespace Hippo.AgentEval
open PayloadGc

section Rows

/-- The rows of `db` are still there; only free text may have become null. -/
def Keeps (db db' : EvalDb) : Prop :=
  ∀ k row, db.rows.get? k = some row → ∃ row', db'.rows.get? k = some row' ∧
    ∀ column, row'.value column = row.value column ∨
      column ∈ k.1.freeText ∧ row'.value column = .null

theorem Keeps.refl (db : EvalDb) : Keeps db db := fun _ row hrow =>
  ⟨row, hrow, fun _ => Or.inl rfl⟩

theorem Keeps.trans {db db' db'' : EvalDb} (h : Keeps db db') (h' : Keeps db' db'') :
    Keeps db db'' := by
  intro k row hrow
  obtain ⟨row', hrow', hvalue⟩ := h k row hrow
  obtain ⟨row'', hrow'', hvalue'⟩ := h' k row' hrow'
  refine ⟨row'', hrow'', ?_⟩
  intro column
  rcases hvalue' column with hsame | hnull
  · rcases hvalue column with hsame' | ⟨hfree, hnull⟩
    · exact Or.inl (hsame.trans hsame')
    · exact Or.inr ⟨hfree, hsame.trans hnull⟩
  · exact Or.inr hnull

/-- A stored row says what a record says, apart from the derived columns, and apart from text that
is gone if there was a sweep. -/
def Holds (swept : Prop) (t : EvalTable) (row stored : Row) : Prop :=
  ∀ column, column ∉ derivedColumns → stored.value column = row.value column ∨
    swept ∧ column ∈ t.freeText ∧ stored.value column = .null

theorem Holds.keeps {swept swept' : Prop} {t : EvalTable} {row stored stored' : Row}
    (h : Holds swept t row stored) (hmono : swept → swept')
    (hkept : ∀ column, stored'.value column = stored.value column ∨
      swept' ∧ column ∈ t.freeText ∧ stored'.value column = .null) :
    Holds swept' t row stored' := by
  intro column hcolumn
  rcases hkept column with hsame | hnull
  · rcases h column hcolumn with hsame' | ⟨hswept, hfree, hnull⟩
    · exact Or.inl (hsame.trans hsame')
    · exact Or.inr ⟨hmono hswept, hfree, hsame.trans hnull⟩
  · exact Or.inr hnull

end Rows

section Sweep

variable {γ δ H : Type} {lib : GcLibrary H} {now : ℤ} {db db' : PayloadDb γ δ H}

/-- What a sweep does to the rows of the evaluations. -/
theorem gcEventPayloads_keeps {extra : ℕ} {outcome : Except String PayloadGcReport}
    (h : gcEventPayloads lib now (db.rowCount + 1 + extra) db = some (outcome, db')) :
    Keeps db.eval db'.eval ∧
      ∀ k, (db'.eval.rows.get? k).isSome = (db.eval.rows.get? k).isSome := by
  cases hpins : eventPayloadPins lib db with
  | error e =>
    rw [Nat.add_right_comm, gcEventPayloads_error lib now db hpins] at h
    obtain ⟨-, rfl⟩ := Prod.mk.inj (Option.some.inj h)
    exact ⟨Keeps.refl _, fun _ => rfl⟩
  | ok pins =>
    rw [gcEventPayloads_ok lib now pins db hpins] at h
    obtain ⟨-, rfl⟩ := Prod.mk.inj (Option.some.inj h)
    constructor
    · intro k row hrow
      rw [swept_texts, hrow, Option.map_some]
      refine ⟨_, rfl, ?_⟩
      intro column
      split
      · rw [Row.value_clear]
        split
        · exact Or.inr ⟨‹_›, rfl⟩
        · exact Or.inl rfl
      · exact Or.inl rfl
    · intro k
      rw [swept_texts, Option.isSome_map]

end Sweep

section Lines

variable {imp : Importer} {around : Surroundings} {db : EvalDb} {raw : List UInt8}

/-- Validation accepts the line as this record. -/
def Accepts (imp : Importer) (raw : List UInt8) (r : Prepared) : Prop :=
  ∃ around, imp.prepareLine around raw = .ok r

/-- A line that is accepted at all is accepted everywhere, as a record alike. -/
theorem Accepts.prepareLine {r : Prepared} (h : Accepts imp raw r) (around : Surroundings) :
    ∃ r', imp.prepareLine around raw = .ok r' ∧ r.Alike r' := by
  obtain ⟨around', hr⟩ := h
  rcases prepareLine_alike imp around' around raw with ⟨e, he, -⟩ | ⟨a, b, ha, hb, halike⟩
  · rw [hr] at he
    cases he
  · rw [hr] at ha
    obtain rfl := Except.ok.inj ha
    exact ⟨b, hb, halike⟩

theorem Accepts.sound {r : Prepared} (h : Accepts imp raw r) (hlib : imp.library.Reparses) :
    r.Sound imp.library := by
  obtain ⟨around, hr⟩ := h
  exact prepareLine_sound imp around hlib raw r hr

theorem Prepared.Alike.holds {r r' : Prepared} (h : r.Alike r') (swept : Prop) (t : EvalTable) :
    Holds swept t r.row r'.row := fun _ hcolumn => Or.inl (h.value_eq hcolumn).symm

/-- What a line does: nothing when it is rejected; else by its key and its parent. -/
theorem ingestLine_cases (hlib : imp.library.Reparses) (around : Surroundings) (db : EvalDb)
    (raw : List UInt8) :
    ((∀ r, ¬ Accepts imp raw r) ∧ ∃ reason, ingestLine imp around db raw =
      (db, .rejected reason)) ∨
    ∃ r, imp.prepareLine around raw = .ok r ∧
      ((∃ stored, db.rows.get? r.key = some stored ∧ ingestLine imp around db raw =
        (db, if r.same imp.library stored then .skipped else .rejected "id_conflict")) ∨
      (db.rows.get? r.key = none ∧ (∃ k ∈ r.parent, db.rows.get? k = none) ∧
        ingestLine imp around db raw = (db, .rejected "unknown_parent")) ∨
      (db.rows.get? r.key = none ∧ (ingestLine imp around db raw).2 = .written ∧
        ∀ k, (ingestLine imp around db raw).1.rows.get? k =
          if k = r.key then some r.row else db.rows.get? k)) := by
  cases hr : imp.prepareLine around raw with
  | error reason =>
    left
    constructor
    · intro r hr'
      obtain ⟨r', hok, -⟩ := hr'.prepareLine around
      rw [hr] at hok
      cases hok
    · exact ⟨reason, by rw [ingestLine, hr]⟩
  | ok r =>
    right
    refine ⟨r, rfl, ?_⟩
    have hline : ingestLine imp around db raw =
        (writeRecord imp.library db r).getD (db, .rejected "db_error") := by
      rw [ingestLine, hr]
    rw [hline]
    rcases writeRecord_cases db (prepareLine_sound imp around hlib raw r hr) with
      ⟨stored, hstored, h⟩ | ⟨hnew, horphan, h⟩ | ⟨hnew, -, db', h, hget⟩
    · rw [h]
      exact Or.inl ⟨stored, hstored, rfl⟩
    · rw [h]
      exact Or.inr (Or.inl ⟨hnew, horphan, rfl⟩)
    · rw [h]
      exact Or.inr (Or.inr ⟨hnew, rfl, hget⟩)

/-- No line changes a row. -/
theorem ingestLine_get? (hlib : imp.library.Reparses) {k : EvalTable × String} {row : Row}
    (hrow : db.rows.get? k = some row) :
    (ingestLine imp around db raw).1.rows.get? k = some row := by
  rcases ingestLine_cases hlib around db raw with
    ⟨-, reason, h⟩ | ⟨r, -, ⟨stored, -, h⟩ | ⟨-, -, h⟩ | ⟨hnew, -, hget⟩⟩
  · rw [h]
    exact hrow
  · rw [h]
    exact hrow
  · rw [h]
    exact hrow
  · rw [hget, if_neg, hrow]
    intro hk
    rw [hk, hnew] at hrow
    cases hrow

theorem outcomesOf_get? (hlib : imp.library.Reparses) {lines : List (List UInt8)}
    {k : EvalTable × String} {row : Row} (hrow : db.rows.get? k = some row) :
    (outcomesOf imp around db lines).1.rows.get? k = some row := by
  induction lines generalizing db with
  | nil => exact hrow
  | cons raw lines ih => exact ih (ingestLine_get? hlib hrow)

/-- The record of the line is stored. -/
def Settled (imp : Importer) (db : EvalDb) (raw : List UInt8) : Prop :=
  ∃ r stored, Accepts imp raw r ∧ db.rows.get? r.key = some stored ∧
    Holds True r.table r.row stored

theorem Settled.keeps {db' : EvalDb} (h : Settled imp db raw) (hkeeps : Keeps db db') :
    Settled imp db' raw := by
  obtain ⟨r, stored, hr, hstored, hholds⟩ := h
  obtain ⟨stored', hstored', hkept⟩ := hkeeps _ _ hstored
  refine ⟨r, stored', hr, hstored', hholds.keeps id ?_⟩
  intro column
  exact (hkept column).imp_right fun hnull => ⟨trivial, hnull⟩

/-- The same line again is skipped. -/
theorem Settled.skipped (h : Settled imp db raw) (hlib : imp.library.Reparses)
    (around : Surroundings) : ingestLine imp around db raw = (db, .skipped) := by
  obtain ⟨r, stored, hr, hstored, hholds⟩ := h
  obtain ⟨r', hr', halike⟩ := hr.prepareLine around
  have hsame : r'.same imp.library stored = true := by
    rw [← halike.same_eq]
    apply (hr.sound hlib).same_of_value_eq
    intro column hderived hfree
    rcases hholds column hderived with hvalue | ⟨-, hfree', -⟩
    · exact hvalue
    · exact absurd hfree' hfree
  rcases ingestLine_cases hlib around db raw with
    ⟨hno, -⟩ | ⟨r'', hr'', ⟨stored', hstored', hline⟩ | ⟨hnew, -, -⟩ | ⟨hnew, -, -⟩⟩
  · exact absurd hr (hno r)
  · rw [hr'] at hr''
    obtain rfl := Except.ok.inj hr''
    rw [← halike.key, hstored] at hstored'
    obtain rfl := Option.some.inj hstored'
    rw [hline, if_pos hsame]
  · rw [hr'] at hr''
    obtain rfl := Except.ok.inj hr''
    rw [← halike.key, hstored] at hnew
    cases hnew
  · rw [hr'] at hr''
    obtain rfl := Except.ok.inj hr''
    rw [← halike.key, hstored] at hnew
    cases hnew

/-- A line that is written is settled. -/
theorem settled_of_written (hlib : imp.library.Reparses)
    (h : (ingestLine imp around db raw).2 = .written) :
    Settled imp (ingestLine imp around db raw).1 raw := by
  rcases ingestLine_cases hlib around db raw with
    ⟨-, reason, hline⟩ | ⟨r, hr, ⟨stored, -, hline⟩ | ⟨-, -, hline⟩ | ⟨-, -, hget⟩⟩
  · rw [hline] at h
    cases h
  · rw [hline] at h
    split at h <;> cases h
  · rw [hline] at h
    cases h
  · refine ⟨r, r.row, ⟨around, hr⟩, ?_, fun _ _ => Or.inl rfl⟩
    rw [hget, if_pos rfl]

theorem ingestLine_keeps (hlib : imp.library.Reparses) :
    Keeps db (ingestLine imp around db raw).1 := fun _ row hrow =>
  ⟨row, ingestLine_get? hlib hrow, fun _ => Or.inl rfl⟩

/-- Later lines equal to a written one are skipped. -/
def SkipsWritten (history : List (List UInt8 × Option Outcome)) : Prop :=
  history.Pairwise fun e e' => e.1 = e'.1 → e.2 = some .written → e'.2 = some .skipped

/-- Every written line is settled. -/
def WrittenSettled (imp : Importer) (db : EvalDb)
    (history : List (List UInt8 × Option Outcome)) : Prop :=
  ∀ e ∈ history, e.2 = some .written → Settled imp db e.1

theorem outcomesOf_history (hlib : imp.library.Reparses) (around : Surroundings)
    {history : List (List UInt8 × Option Outcome)} (lines : List (List UInt8))
    (hskips : SkipsWritten history) (hsettled : WrittenSettled imp db history) :
    SkipsWritten (history ++ (outcomesOf imp around db lines).2) ∧
      WrittenSettled imp (outcomesOf imp around db lines).1
        (history ++ (outcomesOf imp around db lines).2) := by
  induction lines generalizing db history with
  | nil =>
    rw [outcomesOf, List.append_nil]
    exact ⟨hskips, hsettled⟩
  | cons raw lines ih =>
    rw [outcomesOf, ← List.singleton_append, ← List.append_assoc]
    apply ih
    · refine List.pairwise_append.mpr ⟨hskips, List.pairwise_singleton _ _, ?_⟩
      intro e he e' he' hsame hwritten
      rw [List.mem_singleton] at he'
      rw [he'] at hsame ⊢
      have hdone := hsettled e he hwritten
      rw [show e.1 = raw from hsame] at hdone
      rw [hdone.skipped hlib around]
    · intro e he hwritten
      rcases List.mem_append.mp he with hold | hlast
      · exact (hsettled e hold hwritten).keeps (ingestLine_keeps hlib)
      · rw [List.mem_singleton.mp hlast] at hwritten ⊢
        exact settled_of_written hlib (Option.some.inj hwritten)

end Lines

end Hippo.AgentEval
