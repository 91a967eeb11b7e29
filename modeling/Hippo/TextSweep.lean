import Hippo.PayloadSweep

/-!
# What the sweep of the evaluation texts does

Clearing text changes no column that decides which verdict is effective, so the pinned findings
are the same before every page.
-/
namespace Hippo.PayloadGc
open AgentEval

section Rows

variable {db : EvalDb} {t t' : EvalTable} {id : String}

theorem mem_tableRows {e : String × Row} :
    e ∈ tableRows db t ↔ db.rows.get? (t, e.1) = some e.2 := by
  rw [tableRows, List.mem_filterMap, Table.get?_eq_some]
  constructor
  · rintro ⟨⟨⟨t', id'⟩, r⟩, hmem, hsome⟩
    obtain ⟨ht, hsome⟩ := Option.ite_none_right_eq_some.mp hsome
    obtain rfl := Option.some.inj hsome
    obtain rfl : t' = t := ht
    exact hmem
  · intro hmem
    exact ⟨((t, e.1), e.2), hmem, if_pos rfl⟩

theorem nodup_tableRows : ((tableRows db t).map Prod.fst).Nodup := by
  unfold tableRows
  have hnodup := db.rows.nodup
  generalize db.rows.entries = es at hnodup ⊢
  induction es with
  | nil => exact List.nodup_nil
  | cons e es ih =>
    rw [List.map_cons, List.nodup_cons] at hnodup
    rw [List.filterMap_cons]
    by_cases ht : e.1.1 = t
    · simp only [ht, if_true, List.map_cons, List.nodup_cons]
      refine ⟨?_, ih hnodup.2⟩
      intro hmem
      obtain ⟨e', he', hid⟩ := List.mem_map.mp hmem
      obtain ⟨e'', he'', hsome⟩ := List.mem_filterMap.mp he'
      obtain ⟨ht', hsome⟩ := Option.ite_none_right_eq_some.mp hsome
      obtain rfl := Option.some.inj hsome
      apply hnodup.1
      rw [show e.1 = e''.1 from Prod.ext (ht.trans ht'.symm) hid.symm]
      exact List.mem_map_of_mem he''
    · simp only [ht, if_false]
      exact ih hnodup.2

/-- One row of a table without its free text. -/
def clearRow (t : EvalTable) (id : String) (e : String × Row) : String × Row :=
  if e.1 = id then (e.1, e.2.clear t.freeText) else e

theorem clearRow_fst (e : String × Row) : (clearRow t id e).1 = e.1 := by
  unfold clearRow
  split <;> rfl

theorem clearRow_value (e : String × Row) {column : String} (h : column ∉ t.freeText) :
    (clearRow t id e).2.value column = e.2.value column := by
  unfold clearRow
  split
  · rw [Row.value_clear, if_neg h]
  · rfl

theorem tableRows_clearText : tableRows (clearText db t id) t' =
    if t' = t then (tableRows db t').map (clearRow t id) else tableRows db t' := by
  show ((db.rows.entries.map fun e => (e.1, if e.1 = (t, id) then e.2.clear t.freeText else e.2))
    |>.filterMap fun e => if e.1.1 = t' then some (e.1.2, e.2) else none) = _
  unfold tableRows
  induction db.rows.entries with
  | nil => simp
  | cons e es ih =>
    obtain ⟨⟨s, j⟩, r⟩ := e
    rw [List.map_cons, List.filterMap_cons, List.filterMap_cons, ih]
    by_cases hs : s = t'
    · obtain rfl := hs
      by_cases ht : s = t
      · obtain rfl := ht
        by_cases hj : j = id
        · simp [hj, clearRow]
        · simp [hj, clearRow]
      · simp [ht]
    · simp [hs]

end Rows

section Pins

/-- The verdicts are the same in all columns but the note. -/
def SameVerdicts (db db' : EvalDb) : Prop :=
  ∃ f : String × Row → String × Row, tableRows db' .verdicts = (tableRows db .verdicts).map f ∧
    ∀ e, (f e).1 = e.1 ∧
      ∀ column, column ∉ EvalTable.verdicts.freeText → (f e).2.value column = e.2.value column

theorem SameVerdicts.refl (db : EvalDb) : SameVerdicts db db :=
  ⟨id, (List.map_id _).symm, fun _ => ⟨rfl, fun _ _ => rfl⟩⟩

theorem SameVerdicts.trans {db db' db'' : EvalDb} (h : SameVerdicts db db')
    (h' : SameVerdicts db' db'') : SameVerdicts db db'' := by
  obtain ⟨f, hf, hsame⟩ := h
  obtain ⟨f', hf', hsame'⟩ := h'
  refine ⟨f' ∘ f, by rw [hf', hf, List.map_map], ?_⟩
  intro e
  refine ⟨(hsame' _).1.trans (hsame e).1, ?_⟩
  intro column hcolumn
  exact ((hsame' _).2 column hcolumn).trans ((hsame e).2 column hcolumn)

theorem sameVerdicts_clearText (db : EvalDb) (t : EvalTable) (id : String) :
    SameVerdicts db (clearText db t id) := by
  by_cases ht : EvalTable.verdicts = t
  · obtain rfl := ht
    refine ⟨clearRow .verdicts id, by rw [tableRows_clearText, if_pos rfl], ?_⟩
    intro e
    exact ⟨clearRow_fst e, fun column => clearRow_value e⟩
  · have hsame : tableRows (clearText db t id) .verdicts = tableRows db .verdicts := by
      rw [tableRows_clearText, if_neg ht]
    rw [SameVerdicts, hsame]
    exact SameVerdicts.refl db

/-- The effective verdict is the same up to its note. -/
theorem SameVerdicts.effectiveVerdict {db db' : EvalDb} (h : SameVerdicts db db')
    (finding : String) :
    ((effectiveVerdict db' finding).any fun v => v.2.value "verdict" = .text "accepted") =
      (effectiveVerdict db finding).any fun v => v.2.value "verdict" = .text "accepted" := by
  obtain ⟨f, hf, hsame⟩ := h
  have hfinding : ∀ e, findingId .verdicts (f e) = findingId .verdicts e := by
    intro e
    show textOf ((f e).2.value "finding_id") = _
    rw [(hsame e).2 _ (by decide)]
    rfl
  have hranked : ∀ v w, rankedBefore (f v) (f w) = rankedBefore v w := by
    intro v w
    have hhuman : ∀ v, isHuman (f v).2 = isHuman v.2 := by
      intro v
      rw [isHuman, isHuman, (hsame v).2 "auto" (by decide)]
    have hdecided : ∀ v, decidedAt (f v).2 = decidedAt v.2 := by
      intro v
      rw [decidedAt, decidedAt, (hsame v).2 "decided_at" (by decide)]
    rw [rankedBefore, rankedBefore, hhuman, hhuman, hdecided, hdecided, (hsame v).1, (hsame w).1]
  have hverdicts : verdictsOf db' finding = (verdictsOf db finding).map f := by
    rw [verdictsOf, verdictsOf, hf, List.filter_map]
    congr 1
    apply List.filter_congr
    intro e _
    rw [Function.comp_apply, hfinding]
  have hsort := List.map_insertionSort (r := fun v w => rankedBefore v w = true)
    (s := fun v w => rankedBefore v w = true) f (verdictsOf db finding)
    (by intro v _ w _; rw [hranked])
  rw [PayloadGc.effectiveVerdict, PayloadGc.effectiveVerdict, hverdicts, ← hsort, List.head?_map,
    Option.any_map]
  congr 1
  funext v
  show decide ((f v).2.value "verdict" = _) = _
  rw [(hsame v).2 "verdict" (by decide)]

theorem SameVerdicts.pins {db db' : EvalDb} (h : SameVerdicts db db') :
    evalPayloadPins db' = evalPayloadPins db := by
  have heffective := h.effectiveVerdict
  obtain ⟨f, hf, hsame⟩ := h
  have hfinding : ∀ e, findingId .verdicts (f e) = findingId .verdicts e := by
    intro e
    show textOf ((f e).2.value "finding_id") = _
    rw [(hsame e).2 _ (by decide)]
    rfl
  rw [evalPayloadPins, evalPayloadPins, hf, List.map_map]
  rw [show findingId .verdicts ∘ f = findingId .verdicts from funext hfinding]
  simp only [heffective]

end Pins

section Sweep

variable {γ δ H : Type} (lib : GcLibrary H) (now : ℤ) (t : EvalTable) (tableName : String)

/-- The rows whose time is over, in the order of their keys. -/
def expiredTexts (db : EvalDb) : List (String × Row) :=
  sortedRows ((tableRows db t).filter fun e => textExpired now t e.2)

/-- A selection without the cleared row. -/
theorem filter_tableRows_clearText {db : EvalDb} {id : String} {p : String × Row → Bool}
    (hp : ∀ r, p (id, r) = false) :
    (tableRows (clearText db t id) t).filter p = (tableRows db t).filter p := by
  rw [tableRows_clearText, if_pos rfl]
  induction tableRows db t with
  | nil => rfl
  | cons e es ih =>
    rw [List.map_cons, List.filter_cons, List.filter_cons, ih]
    by_cases hid : e.1 = id
    · obtain ⟨j, r⟩ := e
      obtain rfl : j = id := hid
      simp [clearRow, hp]
    · simp [clearRow, hid]

theorem evalSweep_lawful (pins : List String) :
    (evalSweep (γ := γ) (δ := δ) lib now t tableName).Lawful pins where
  size_pos := Nat.succ_pos 99
  check_act := by
    intro s r hcheck
    have hpins : evalPayloadPins s.1.eval = pins := Except.ok.inj hcheck
    show Except.ok (evalPayloadPins (if findingId t r ∈ pins then s else _).1.eval) = .ok pins
    split
    · rw [hpins]
    · show Except.ok (evalPayloadPins (clearText s.1.eval t r.1)) = .ok pins
      rw [(sameVerdicts_clearText s.1.eval t r.1).pins, hpins]
  sorted := fun s => sortedRows_pairwise (nodup_tableRows.sublist (List.filter_sublist.map _))
  behind_mono := by
    intro c j k hj hle
    cases c with
    | none => rfl
    | some c =>
      have hcj : c < j := of_decide_eq_true hj
      exact decide_eq_true (hcj.trans_le hle)
  next_behind := by
    intro c k j hc
    obtain rfl := Option.some.inj hc
    exact decide_eq_true_iff
  next_none := fun _ _ _ h => nomatch h
  rows_act := by
    intro s r
    show (expiredTexts now t (if findingId t r ∈ pins then s else _).1.eval).filter _ =
      (expiredTexts now t s.1.eval).filter _
    split
    · rfl
    · have hnodup : ∀ db : EvalDb,
          (((tableRows db t).filter fun e => textExpired now t e.2).map Prod.fst).Nodup :=
        fun db => nodup_tableRows.sublist (List.filter_sublist.map _)
      rw [expiredTexts, expiredTexts, filter_sortedRows (hnodup _), filter_sortedRows (hnodup _)]
      apply congrArg
      rw [List.filter_filter, List.filter_filter]
      apply filter_tableRows_clearText
      intro r'
      simp

/-- The text of one row is cleared, with its receipts. -/
def clearWithReceipts (db : PayloadDb γ δ H) (r : String × Row) : PayloadDb γ δ H :=
  { db.addReceipts (PayloadDb.textReceipts lib now t tableName r) with
    eval := clearText db.eval t r.1 }

/-- The rows of a list are cleared one after the other. -/
def clearTexts (db : PayloadDb γ δ H) (rows : List (String × Row)) : PayloadDb γ δ H :=
  rows.foldl (clearWithReceipts lib now t tableName) db

/-- The pinned rows are only read. -/
theorem foldl_evalSweep (pins : List String) (rows : List (String × Row))
    (s : Progress γ δ H) : rows.foldl ((evalSweep lib now t tableName).act pins) s =
      (clearTexts lib now t tableName s.1 (rows.filter fun r => findingId t r ∉ pins),
        s.2 + (rows.filter fun r => findingId t r ∉ pins).length) := by
  induction rows generalizing s with
  | nil => rfl
  | cons r rows ih =>
    rw [List.foldl_cons, ih]
    by_cases hpinned : findingId t r ∈ pins
    · have hact : (evalSweep lib now t tableName).act pins s r = s := if_pos hpinned
      rw [hact, List.filter_cons_of_neg (by simpa using hpinned)]
    · have hact : (evalSweep lib now t tableName).act pins s r =
          (clearWithReceipts lib now t tableName s.1 r, s.2 + 1) := if_neg hpinned
      rw [hact, List.filter_cons_of_pos (by simpa using hpinned), List.length_cons]
      refine Prod.ext rfl ?_
      show s.2 + 1 + _ = s.2 + (_ + 1)
      omega

/-- The rows that the sweep clears. -/
def dueTexts (db : EvalDb) : List (String × Row) :=
  (expiredTexts now t db).filter fun r => findingId t r ∉ evalPayloadPins db

/-- With a page of fuel for each row, the sweep clears what is due. -/
theorem evalSweep_run {fuel : ℕ} (db : PayloadDb γ δ H)
    (hfuel : db.eval.rows.entries.length < fuel) :
    (evalSweep lib now t tableName).run fuel none (db, 0) =
      some (.ok (), clearTexts lib now t tableName db (dueTexts now t db.eval),
        (dueTexts now t db.eval).length) := by
  have hall : (((evalSweep lib now t tableName).rows (db, 0)).filter fun r =>
      (evalSweep (γ := γ) (δ := δ) lib now t tableName).behind none r.1) =
        expiredTexts now t db.eval := by
    apply List.filter_eq_self.mpr
    intro _ _
    rfl
  have hcount : (expiredTexts now t db.eval).length ≤ db.eval.rows.entries.length := by
    rw [expiredTexts, length_sortedRows]
    exact (List.length_filter_le _ _).trans (List.length_filterMap_le _ _)
  rw [(evalSweep_lawful lib now t tableName (evalPayloadPins db.eval)).run_eq rfl
    (by rw [hall]; omega), hall, foldl_evalSweep, Nat.zero_add]
  rfl

variable {lib now t tableName} {db : PayloadDb γ δ H} {rows : List (String × Row)}

theorem clearTexts_eval_get? (k : EvalTable × String) :
    (clearTexts lib now t tableName db rows).eval.rows.get? k =
      (db.eval.rows.get? k).map fun r =>
        if k.1 = t ∧ k.2 ∈ rows.map Prod.fst then r.clear t.freeText else r := by
  induction rows using List.reverseRecOn with
  | nil => simp [clearTexts]
  | append_singleton rows r ih =>
    rw [clearTexts, List.foldl_append]
    show ((clearTexts lib now t tableName db rows).eval.rows.modify (t, r.1)
      fun r => Row.clear r t.freeText).get? k = _
    rw [Table.get?_modify, ih]
    cases db.eval.rows.get? k with
    | none => simp
    | some row =>
      have hmem : k.1 = t ∧ k.2 ∈ (rows ++ [r]).map Prod.fst ↔
          (k.1 = t ∧ k.2 ∈ rows.map Prod.fst) ∨ k = (t, r.1) := by
        rw [List.map_append, List.mem_append, List.map_singleton, List.mem_singleton,
          Prod.ext_iff, and_or_left]
      by_cases hk : k = (t, r.1)
      · have hclear : (if k.1 = t ∧ k.2 ∈ rows.map Prod.fst then row.clear t.freeText
            else row).clear t.freeText = row.clear t.freeText := by
          split
          · exact row.clear_clear t.freeText
          · rfl
        rw [if_pos hk, Option.map_some, Option.map_some, Option.map_some, hclear,
          if_pos (hmem.mpr (Or.inr hk))]
      · rw [if_neg hk, Option.map_some, Option.map_some]
        simp only [hmem, hk, or_false]

theorem clearTexts_sameVerdicts :
    SameVerdicts db.eval (clearTexts lib now t tableName db rows).eval := by
  induction rows generalizing db with
  | nil => exact SameVerdicts.refl _
  | cons r rows ih => exact (sameVerdicts_clearText _ _ _).trans ih

theorem clearTexts_receipts : (clearTexts lib now t tableName db rows).receipts =
    db.receipts ++ rows.flatMap (PayloadDb.textReceipts lib now t tableName) := by
  induction rows generalizing db with
  | nil => exact (List.append_nil _).symm
  | cons r rows ih =>
    rw [clearTexts, List.foldl_cons, ← clearTexts, ih, List.flatMap_cons, ← List.append_assoc]
    rfl

end Sweep

end Hippo.PayloadGc
