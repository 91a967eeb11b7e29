import Hippo.AgentEvalRecords

/-!
# Ingest line by line

No accepted record fails in the database, so no batch is rolled back, and the batches of a file do
what its lines do one after the other.
-/
namespace Hippo.AgentEval

section Lines

variable (imp : Importer) (around : Surroundings)

/-- A line in a batch of its own. -/
def ingestLine (db : EvalDb) (raw : List UInt8) : EvalDb × Outcome :=
  match imp.prepareLine around raw with
  | .error reason => (db, .rejected reason)
  | .ok r => (writeRecord imp.library db r).getD (db, .rejected "db_error")

/-- The lines one after the other. -/
def ingestLines (db : EvalDb) : List (ℕ × List UInt8) → EvalDb × Report
  | [] => (db, [])
  | l :: lines =>
    let first := ingestLine imp around db l.2
    let rest := ingestLines first.1 lines
    (rest.1, (l.1, first.2) :: rest.2)

theorem ingestLines_append (db : EvalDb) (lines lines' : List (ℕ × List UInt8)) :
    ingestLines imp around db (lines ++ lines') =
      ((ingestLines imp around (ingestLines imp around db lines).1 lines').1,
        (ingestLines imp around db lines).2 ++
          (ingestLines imp around (ingestLines imp around db lines).1 lines').2) := by
  induction lines generalizing db with
  | nil => rfl
  | cons l lines ih =>
    rw [List.cons_append, ingestLines, ingestLines, ih]
    rfl

theorem ingestLines_numbers (db : EvalDb) (lines : List (ℕ × List UInt8)) :
    (ingestLines imp around db lines).2.map Prod.fst = lines.map Prod.fst := by
  induction lines generalizing db with
  | nil => rfl
  | cons l lines ih =>
    rw [ingestLines, List.map_cons, List.map_cons, ih]

/-- The rejected lines of a batch. -/
def failedLines (batch : List (ℕ × List UInt8)) : Report :=
  (batch.map fun l => (l.1, imp.prepareLine around l.2)).filterMap fun p =>
    match p.2 with
    | .error reason => some (p.1, Outcome.rejected reason)
    | .ok _ => none

/-- The records of a batch. -/
def readyLines (batch : List (ℕ × List UInt8)) : List (ℕ × Prepared) :=
  (batch.map fun l => (l.1, imp.prepareLine around l.2)).filterMap fun p =>
    p.2.toOption.map fun r => (p.1, r)

variable {imp} (hlib : imp.library.Reparses)
include hlib

theorem exists_writeRecord {raw : List UInt8} {r : Prepared}
    (hr : imp.prepareLine around raw = .ok r) (db : EvalDb) :
    ∃ db' o, writeRecord imp.library db r = some (db', o) := by
  have hsound := prepareLine_sound imp around hlib raw r hr
  rcases writeRecord_cases db hsound with ⟨_, _, h⟩ | ⟨_, _, h⟩ | ⟨_, _, _, h, _⟩
  · exact ⟨_, _, h⟩
  · exact ⟨_, _, h⟩
  · exact ⟨_, _, h⟩

/-- The transaction of a batch does not fail, and its outcomes are those of the lines. -/
theorem writeBatch_lines (db : EvalDb) (batch : List (ℕ × List UInt8)) :
    ∃ outcomes, writeBatch imp.library db (readyLines imp around batch) =
        some ((ingestLines imp around db batch).1, outcomes) ∧
      (failedLines imp around batch ++
        ((readyLines imp around batch).map Prod.fst).zip outcomes).Perm
          (ingestLines imp around db batch).2 := by
  induction batch generalizing db with
  | nil => exact ⟨[], rfl, List.Perm.refl _⟩
  | cons l batch ih =>
    cases hr : imp.prepareLine around l.2 with
    | error reason =>
      have hline : ingestLine imp around db l.2 = (db, .rejected reason) := by
        rw [ingestLine, hr]
      have hfailed : failedLines imp around (l :: batch) =
          (l.1, .rejected reason) :: failedLines imp around batch := by
        simp [failedLines, hr]
      have hready : readyLines imp around (l :: batch) = readyLines imp around batch := by
        simp [readyLines, hr, Except.toOption]
      obtain ⟨outcomes, hwrite, hperm⟩ := ih db
      refine ⟨outcomes, ?_, ?_⟩
      · rw [hready, hwrite, ingestLines, hline]
      · rw [hready, hfailed, ingestLines, hline]
        exact hperm.cons _
    | ok r =>
      obtain ⟨db', o, hrecord⟩ := exists_writeRecord around hlib hr db
      have hline : ingestLine imp around db l.2 = (db', o) := by
        rw [ingestLine, hr]
        simp only [hrecord, Option.getD_some]
      have hfailed : failedLines imp around (l :: batch) = failedLines imp around batch := by
        simp [failedLines, hr]
      have hready : readyLines imp around (l :: batch) =
          (l.1, r) :: readyLines imp around batch := by
        simp [readyLines, hr, Except.toOption]
      obtain ⟨outcomes, hwrite, hperm⟩ := ih db'
      refine ⟨o :: outcomes, ?_, ?_⟩
      · rw [hready, writeBatch, hrecord, ingestLines, hline]
        simp [hwrite]
      · rw [hready, hfailed, ingestLines, hline]
        exact List.perm_middle.trans (hperm.cons _)

theorem ingestBatch_lines (db : EvalDb) (batch : List (ℕ × List UInt8)) :
    (ingestBatch imp around db batch).1 = (ingestLines imp around db batch).1 ∧
      (ingestBatch imp around db batch).2.Perm (ingestLines imp around db batch).2 := by
  obtain ⟨outcomes, hwrite, hperm⟩ := writeBatch_lines around hlib db batch
  have hbatch : ingestBatch imp around db batch = ((ingestLines imp around db batch).1,
      failedLines imp around batch ++
        ((readyLines imp around batch).map Prod.fst).zip outcomes) := by
    have hready : ((batch.map fun l => (l.1, imp.prepareLine around l.2)).filterMap
        fun p => p.2.toOption.map fun r => (p.1, r)) = readyLines imp around batch := rfl
    simp only [ingestBatch, hready, hwrite]
    rfl
  rw [hbatch]
  exact ⟨rfl, hperm⟩

omit hlib in
theorem flatten_chunks {α : Type} {n : ℕ} (hn : 0 < n) {fuel : ℕ} {l : List α}
    (hfuel : l.length ≤ fuel) : (chunks n fuel l).flatten = l := by
  induction fuel generalizing l with
  | zero =>
    have hnil : l = [] := List.length_eq_zero_iff.mp (by omega)
    rw [hnil]
    rfl
  | succ fuel ih =>
    cases l with
    | nil => rfl
    | cons a l =>
      have hlength : ((a :: l).drop n).length ≤ fuel := by
        rw [List.length_drop]
        simp only [List.length_cons] at hfuel ⊢
        omega
      rw [chunks, List.flatten_cons, ih hlength, List.take_append_drop]
      simp

theorem ingestBatches_lines (db : EvalDb) (batches : List (List (ℕ × List UInt8))) :
    (ingestBatches imp around db batches).1 = (ingestLines imp around db batches.flatten).1 ∧
      (ingestBatches imp around db batches).2.Perm
        (ingestLines imp around db batches.flatten).2 := by
  induction batches using List.reverseRecOn with
  | nil => exact ⟨rfl, List.Perm.refl _⟩
  | append_singleton batches batch ih =>
    obtain ⟨hdb, hreport⟩ := ih
    have hround : ingestBatches imp around db (batches ++ [batch]) =
        ((ingestBatch imp around (ingestBatches imp around db batches).1 batch).1,
          (ingestBatches imp around db batches).2 ++
            (ingestBatch imp around (ingestBatches imp around db batches).1 batch).2) := by
      rw [ingestBatches, List.foldl_append]
      rfl
    have hbatch := ingestBatch_lines around hlib (ingestBatches imp around db batches).1 batch
    rw [hdb] at hbatch hround
    rw [hround, List.flatten_append, List.flatten_singleton, ingestLines_append]
    exact ⟨hbatch.1, hreport.append hbatch.2⟩

/-- A file is ingested as its lines are, one after the other. -/
theorem ingestReport_lines (db : EvalDb) (input : List UInt8) :
    (ingestReport imp around db input).1 =
        (ingestLines imp around db (numberedLines input)).1 ∧
      (ingestReport imp around db input).2.Perm
        (ingestLines imp around db (numberedLines input)).2 := by
  have hflatten : (chunks batchLines (numberedLines input).length
      (numberedLines input)).flatten = numberedLines input :=
    flatten_chunks (by decide) le_rfl
  have hlines := ingestBatches_lines around hlib db
    (chunks batchLines (numberedLines input).length (numberedLines input))
  rwa [hflatten] at hlines

end Lines

section Outcomes

variable (imp : Importer) (around : Surroundings)

/-- The records of a file as text: the lines that are not blank. -/
def recordLines (input : List UInt8) : List (List UInt8) := (numberedLines input).map Prod.snd

theorem recordLines_eq (input : List UInt8) :
    recordLines input = (input.splitOn 10).filter fun l => !l.all isAsciiWhitespace := by
  have hfilter : ∀ (lines : List (List UInt8)) (n : ℕ),
      (((lines.zipIdx n).map fun l => (l.2, l.1)).filter fun l =>
        !l.2.all isAsciiWhitespace).map Prod.snd =
          lines.filter fun l => !l.all isAsciiWhitespace := by
    intro lines
    induction lines with
    | nil => intro n; rfl
    | cons l lines ih =>
      intro n
      rw [List.zipIdx_cons, List.map_cons, List.filter_cons, List.filter_cons]
      split
      · rw [List.map_cons, ih]
      · exact ih _
  exact hfilter _ 1

/-- The lines of a file with what the report says about each. -/
def lineOutcomes (db : EvalDb) (input : List UInt8) : List (List UInt8 × Option Outcome) :=
  (numberedLines input).map fun l => (l.2, (ingestReport imp around db input).2.lookup l.1)

theorem nodup_numbers (input : List UInt8) : ((numberedLines input).map Prod.fst).Nodup := by
  have hnumbers : (((input.splitOn 10).zipIdx 1).map fun l => (l.2, l.1)).map Prod.fst =
      List.range' 1 (input.splitOn 10).length := by
    rw [List.map_map]
    exact List.zipIdx_map_snd _ _
  have hall : ((((input.splitOn 10).zipIdx 1).map fun l => (l.2, l.1)).map Prod.fst).Nodup := by
    rw [hnumbers]
    exact List.nodup_range'
  exact hall.sublist (List.filter_sublist.map _)

/-- The outcomes of the lines, one after the other. -/
def outcomesOf (db : EvalDb) :
    List (List UInt8) → EvalDb × List (List UInt8 × Option Outcome)
  | [] => (db, [])
  | raw :: lines =>
    let first := ingestLine imp around db raw
    let rest := outcomesOf first.1 lines
    (rest.1, (raw, some first.2) :: rest.2)

theorem ingestLines_outcomes (db : EvalDb) {lines : List (ℕ × List UInt8)}
    (hnodup : (lines.map Prod.fst).Nodup) :
    (ingestLines imp around db lines).1 = (outcomesOf imp around db (lines.map Prod.snd)).1 ∧
      lines.map (fun l => (l.2, (ingestLines imp around db lines).2.lookup l.1)) =
        (outcomesOf imp around db (lines.map Prod.snd)).2 := by
  induction lines generalizing db with
  | nil => exact ⟨rfl, rfl⟩
  | cons l lines ih =>
    obtain ⟨hnot, hrest⟩ := List.nodup_cons.mp hnodup
    obtain ⟨hdb, houtcomes⟩ := ih (ingestLine imp around db l.2).1 hrest
    refine ⟨hdb, ?_⟩
    rw [List.map_cons, List.map_cons, ingestLines, outcomesOf, ← houtcomes]
    dsimp only
    rw [List.lookup_cons_self]
    congr 1
    apply List.map_congr_left
    intro l' hl'
    have hne : l'.1 ≠ l.1 := fun heq => hnot (heq ▸ List.mem_map_of_mem hl')
    rw [List.lookup_cons, beq_false_of_ne hne]

variable {imp}

/-- Every line of a file is reported once, as if it had come in a batch of its own. -/
theorem lineOutcomes_eq (hlib : imp.library.Reparses) (db : EvalDb) (input : List UInt8) :
    (ingest imp around db input).1 = (outcomesOf imp around db (recordLines input)).1 ∧
      lineOutcomes imp around db input = (outcomesOf imp around db (recordLines input)).2 := by
  obtain ⟨hdb, hperm⟩ := ingestReport_lines around hlib db input
  obtain ⟨hdb', houtcomes⟩ := ingestLines_outcomes imp around db (nodup_numbers input)
  have hnodup : ((ingestLines imp around db (numberedLines input)).2.map Prod.fst).Nodup := by
    rw [ingestLines_numbers]
    exact nodup_numbers input
  refine ⟨hdb.trans hdb', ?_⟩
  rw [recordLines, ← houtcomes, lineOutcomes]
  apply List.map_congr_left
  intro l _
  rw [lookup_of_perm hperm.symm hnodup]

end Outcomes

end Hippo.AgentEval
