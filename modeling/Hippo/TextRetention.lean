import Hippo.AgentEvalReplay
import Mathlib.Data.Prod.Lex

/-!
# Which text a sweep clears, and that it stays cleared

The pins of a sweep are the findings whose effective verdict is `accepted`: the latest human one,
or else the latest automatic one. What is cleared stays cleared, however often the log is ingested
again, and new records are still taken in.
-/
namespace Hippo.AgentEval
open PayloadGc

section Verdicts

/-- A verdict of a finding. -/
def VerdictOf (db : EvalDb) (finding : String) (v : String × Row) : Prop :=
  db.rows.get? (.verdicts, v.1) = some v.2 ∧ findingId .verdicts v = finding

/-- Decided later, or at the same time with the greater id. -/
def LaterThan (v w : String × Row) : Prop :=
  decidedAt w.2 < decidedAt v.2 ∨ decidedAt w.2 = decidedAt v.2 ∧ w.1 ≤ v.1

/-- The latest human verdict of a finding, or the latest automatic one if it has no human one. -/
structure Effective (db : EvalDb) (finding : String) (v : String × Row) : Prop where
  verdict : VerdictOf db finding v
  human : isHuman v.2 = false → ∀ w, VerdictOf db finding w → isHuman w.2 = false
  latest : ∀ w, VerdictOf db finding w → isHuman w.2 = isHuman v.2 → LaterThan v w

/-- The effective verdict of the finding is `accepted`. -/
def Accepted (db : EvalDb) (finding : String) : Prop :=
  ∃ v, Effective db finding v ∧ v.2.value "verdict" = .text "accepted"

/-- The order of verdicts as a lexicographic one. -/
def rank (v : String × Row) : Bool ×ₗ ℤ ×ₗ String :=
  toLex (isHuman v.2, toLex (decidedAt v.2, v.1))

theorem rankedBefore_iff {v w : String × Row} : rankedBefore v w = true ↔ rank w ≤ rank v := by
  rw [rank, rank, Prod.Lex.toLex_le_toLex]
  dsimp only
  rw [Prod.Lex.toLex_le_toLex]
  unfold rankedBefore
  by_cases hhuman : isHuman v.2 = isHuman w.2
  · by_cases hdecided : decidedAt v.2 = decidedAt w.2
    · simp [hhuman, hdecided]
    · simp [hhuman, hdecided, Ne.symm hdecided]
  · cases hv : isHuman v.2 <;> cases hw : isHuman w.2 <;> simp_all

instance : Std.Total fun v w : String × Row => rankedBefore v w = true where
  total v w := by
    rw [rankedBefore_iff, rankedBefore_iff]
    exact le_total _ _

instance : IsTrans (String × Row) fun v w => rankedBefore v w = true where
  trans u v w huv hvw := by
    rw [rankedBefore_iff] at *
    exact hvw.trans huv

theorem mem_verdictsOf {db : EvalDb} {finding : String} {v : String × Row} :
    v ∈ verdictsOf db finding ↔ VerdictOf db finding v := by
  rw [verdictsOf, List.mem_filter, mem_tableRows, VerdictOf, decide_eq_true_iff]

/-- The first verdict in the order of the query is the greatest one. -/
theorem effectiveVerdict_max {db : EvalDb} {finding : String} {v : String × Row}
    (h : effectiveVerdict db finding = some v) :
    VerdictOf db finding v ∧ ∀ w, VerdictOf db finding w → rank w ≤ rank v := by
  have hsorted := List.pairwise_insertionSort (fun v w : String × Row => rankedBefore v w = true)
    (verdictsOf db finding)
  obtain ⟨rest, hrest⟩ := List.head?_eq_some_iff.mp h
  have hmem : ∀ w, w ∈ v :: rest ↔ VerdictOf db finding w := by
    intro w
    rw [← hrest, List.mem_insertionSort, mem_verdictsOf]
  rw [hrest] at hsorted
  refine ⟨(hmem v).mp List.mem_cons_self, ?_⟩
  intro w hw
  rcases List.mem_cons.mp ((hmem w).mpr hw) with rfl | hmem'
  · exact le_rfl
  · exact rankedBefore_iff.mp (List.rel_of_pairwise_cons hsorted hmem')

theorem effective_iff_max {db : EvalDb} {finding : String} {v : String × Row} :
    Effective db finding v ↔
      VerdictOf db finding v ∧ ∀ w, VerdictOf db finding w → rank w ≤ rank v := by
  constructor
  · intro h
    refine ⟨h.verdict, ?_⟩
    intro w hw
    rw [rank, rank, Prod.Lex.toLex_le_toLex]
    by_cases hsame : isHuman w.2 = isHuman v.2
    · right
      refine ⟨hsame, ?_⟩
      rw [Prod.Lex.toLex_le_toLex]
      exact h.latest w hw hsame
    · left
      have hhuman := fun hv => h.human hv w hw
      cases hv : isHuman v.2 <;> cases hw' : isHuman w.2 <;> simp_all
  · rintro ⟨hv, hmax⟩
    refine ⟨hv, ?_, ?_⟩
    · intro hhuman w hw
      have hle := hmax w hw
      rw [rank, rank, Prod.Lex.toLex_le_toLex, hhuman] at hle
      rcases hle with hlt | ⟨heq, -⟩
      · exact absurd hlt (by simp)
      · exact heq
    · intro w hw hsame
      have hle := hmax w hw
      rw [rank, rank, Prod.Lex.toLex_le_toLex, Prod.Lex.toLex_le_toLex] at hle
      rcases hle with hlt | ⟨-, hle⟩
      · exact absurd hsame hlt.ne
      · exact hle

/-- The query finds the effective verdict. -/
theorem effectiveVerdict_eq_some {db : EvalDb} {finding : String} {v : String × Row} :
    effectiveVerdict db finding = some v ↔ Effective db finding v := by
  rw [effective_iff_max]
  constructor
  · exact effectiveVerdict_max
  · rintro ⟨hv, hmax⟩
    cases hfound : effectiveVerdict db finding with
    | none =>
      rw [effectiveVerdict, List.head?_eq_none_iff] at hfound
      have hmem := mem_verdictsOf.mpr hv
      rw [← List.mem_insertionSort fun v w : String × Row => rankedBefore v w = true,
        hfound] at hmem
      cases hmem
    | some w =>
      obtain ⟨hw, hmax'⟩ := effectiveVerdict_max hfound
      have hrank : rank w = rank v := le_antisymm (hmax w hw) (hmax' v hv)
      have hid : w.1 = v.1 := congrArg (fun r : Bool ×ₗ ℤ ×ₗ String => (ofLex (ofLex r).2).2) hrank
      have hrow : w.2 = v.2 := by
        have hget := hw.1
        rw [hid, hv.1] at hget
        exact (Option.some.inj hget).symm
      rw [Prod.ext hid hrow]

/-- The pins are the findings with an accepted effective verdict. -/
theorem mem_evalPayloadPins {db : EvalDb} {finding : String} :
    finding ∈ evalPayloadPins db ↔ Accepted db finding := by
  rw [evalPayloadPins, List.mem_filter, List.mem_map, Option.any_eq_true]
  constructor
  · rintro ⟨-, v, hv, haccepted⟩
    exact ⟨v, effectiveVerdict_eq_some.mp hv, of_decide_eq_true haccepted⟩
  · rintro ⟨v, hv, haccepted⟩
    refine ⟨⟨v, mem_tableRows.mpr hv.verdict.1, hv.verdict.2⟩, v, ?_, decide_eq_true haccepted⟩
    exact effectiveVerdict_eq_some.mpr hv

end Verdicts

section Sweep

variable {γ δ H : Type}

/-- The time of the row's text is over. -/
def Expired (now : ℤ) (row : Row) : Prop :=
  ∃ expiry, row.value "payload_expiry" = .integer expiry ∧ expiry ≤ now

/-- The column is expired text of a finding that is not accepted. -/
def Clears (now : ℤ) (db : EvalDb) (t : EvalTable) (id : String) (row : Row)
    (column : String) : Prop :=
  column ∈ t.freeText ∧ Expired now row ∧ ¬ Accepted db (findingId t (id, row))

/-- A row before and after a sweep. -/
def Cleared (now : ℤ) (db : EvalDb) (t : EvalTable) (id : String) (row row' : Row) : Prop :=
  ∀ column, (Clears now db t id row column → row'.value column = .null) ∧
    (¬ Clears now db t id row column → row'.value column = row.value column)

theorem textExpired_iff {now : ℤ} {t : EvalTable} {row : Row} :
    textExpired now t row = true ↔
      Expired now row ∧ ∃ field ∈ t.freeText, row.value field ≠ .null := by
  rw [textExpired, Bool.and_eq_true, List.any_eq_true]
  refine and_congr ?_ (by simp)
  unfold Expired
  cases row.value "payload_expiry" <;> simp

theorem cleared_of_unpinnedText (now : ℤ) (db : EvalDb) (t : EvalTable) (id : String)
    (row : Row) : Cleared now db t id row
      (if PayloadDb.unpinnedText now db t (id, row) then row.clear t.freeText else row) := by
  have hpins : findingId t (id, row) ∈ evalPayloadPins db ↔
      Accepted db (findingId t (id, row)) := mem_evalPayloadPins
  intro column
  by_cases hdue : PayloadDb.unpinnedText now db t (id, row) = true
  · rw [if_pos hdue, Row.value_clear]
    rw [PayloadDb.unpinnedText, Bool.and_eq_true, textExpired_iff, decide_eq_true_iff, hpins]
      at hdue
    constructor
    · intro hclears
      rw [if_pos hclears.1]
    · intro hkept
      rw [if_neg]
      intro hfree
      exact hkept ⟨hfree, hdue.1.1, hdue.2⟩
  · rw [if_neg hdue]
    refine ⟨?_, fun _ => rfl⟩
    rintro ⟨hfree, hexpired, hno⟩
    -- a row with nothing to clear
    by_contra hvalue
    apply hdue
    rw [PayloadDb.unpinnedText, Bool.and_eq_true, textExpired_iff, decide_eq_true_iff, hpins]
    exact ⟨⟨hexpired, column, hfree, hvalue⟩, hno⟩

end Sweep

section Reingest

variable {γ δ H : Type} {imp : Importer} {lib : GcLibrary H} {db db' : PayloadDb γ δ H}

/-- Ingests of any files, and sweeps, in any order. -/
inductive Later (imp : Importer) (lib : GcLibrary H) (db : PayloadDb γ δ H) :
    PayloadDb γ δ H → Prop where
  | here : Later imp lib db db
  | ingest {db' : PayloadDb γ δ H} (h : Later imp lib db db') (around : Surroundings)
      (input : List UInt8) :
      Later imp lib db { db' with eval := (AgentEval.ingest imp around db'.eval input).1 }
  | sweep {db' db'' : PayloadDb γ δ H} (h : Later imp lib db db') (now : ℤ) {extra : ℕ}
      {outcome : Except String PayloadGcReport}
      (hgc : gcEventPayloads lib now (db'.rowCount + 1 + extra) db' = some (outcome, db'')) :
      Later imp lib db db''

theorem Later.keeps (h : Later imp lib db db') (hlib : imp.library.Reparses) :
    Keeps db.eval db'.eval := by
  induction h with
  | here => exact Keeps.refl _
  | ingest h around input ih =>
    apply ih.trans
    intro k row hrow
    refine ⟨row, ?_, fun _ => Or.inl rfl⟩
    show (AgentEval.ingest imp around _ input).1.rows.get? k = some row
    rw [(lineOutcomes_eq around hlib _ input).1]
    exact outcomesOf_get? hlib hrow
  | sweep h now hgc ih => exact ih.trans (gcEventPayloads_keeps hgc).1

/-- Text that is gone stays gone. -/
theorem Later.null (h : Later imp lib db db') (hlib : imp.library.Reparses)
    {k : EvalTable × String} {row : Row} (hrow : db.eval.rows.get? k = some row)
    {column : String} (hnull : row.value column = .null) :
    ∃ row', db'.eval.rows.get? k = some row' ∧ row'.value column = .null := by
  obtain ⟨row', hrow', hvalue⟩ := h.keeps hlib k row hrow
  refine ⟨row', hrow', ?_⟩
  rcases hvalue column with hsame | ⟨-, hnull'⟩
  · rw [hsame, hnull]
  · exact hnull'

/-- A row that was not there before is that of a line. -/
theorem exists_of_firstRow {around : Surroundings} {before : EvalDb} {lines : List (List UInt8)}
    {n : ℕ} {k : EvalTable × String} {row : Row} (hfresh : before.rows.get? k = none)
    (hrow : firstRow imp around before lines n k = some row) :
    ∃ raw ∈ lines, ∃ r, Accepts imp raw r ∧ r.key = k ∧ r.row = row := by
  rw [firstRow, hfresh, Option.none_or] at hrow
  obtain ⟨raw, hraw, hfor⟩ := List.exists_of_findSome?_eq_some hrow
  unfold rowFor at hfor
  split at hfor
  · rename_i r hr
    obtain ⟨hk, hsome⟩ := Option.ite_none_right_eq_some.mp hfor
    exact ⟨raw, List.mem_of_mem_take hraw, r, ⟨around, hr⟩, hk, Option.some.inj hsome⟩
  · cases hfor

/-- The records of a file are stored, the new ones as they are in the file. -/
theorem ingest_stores (hlib : imp.library.Reparses) (around : Surroundings) (db : EvalDb)
    (input : List UInt8) (hparents : ParentsFirst imp db (recordLines input)) {raw : List UInt8}
    (hraw : raw ∈ recordLines input) {r : Prepared} (hr : Accepts imp raw r) :
    ∃ row, (ingest imp around db input).1.rows.get? r.key = some row ∧
      (db.rows.get? r.key = none → ∃ raw' ∈ recordLines input, ∃ r', Accepts imp raw' r' ∧
        r'.key = r.key ∧ Holds False r.table r'.row row) := by
  have hmirrors := (outcomesOf_mirrors hlib hparents around
    (mirrors_start False imp around (recordLines input) db) le_rfl
    (List.prefix_refl (recordLines input))).1
  rw [Nat.zero_add, Nat.zero_max, ← (lineOutcomes_eq around hlib db input).1] at hmirrors
  obtain ⟨p, hp⟩ := List.getElem?_of_mem hraw
  have hlt := (List.getElem?_eq_some_iff.mp hp).1
  have hsome := firstRow_isSome around db hp hr hlt
  have hk := hmirrors r.key
  obtain ⟨first, hfirst⟩ := Option.isSome_iff_exists.mp hsome
  rw [hfirst] at hk
  generalize hrow : (ingest imp around db input).1.rows.get? r.key = row at hk
  cases hk with
  | some hholds =>
    refine ⟨_, rfl, ?_⟩
    intro hfresh
    obtain ⟨raw', hraw', r', hr', hkey, hrow'⟩ := exists_of_firstRow hfresh hfirst
    exact ⟨raw', hraw', r', hr', hkey, hrow'.symm ▸ hholds⟩

end Reingest

end Hippo.AgentEval
