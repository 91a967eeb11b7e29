import Hippo.AgentEval

/-!
# Validated records meet their tables

What `prepare_line` accepts violates no constraint, agrees with itself when it is compared, and
depends on the time and the repository identity only in columns that are never compared.
-/
namespace Hippo

/-- What the importer relies on of the JSON library: keys are listed once, what is printed can be
read, and so can the default of the array columns. -/
structure JsonLibrary.Reparses (lib : JsonLibrary) : Prop where
  keysOnce : ∀ t v, lib.parse t = some v → v.KeysOnce
  printed : ∀ t obj, lib.parse t = some (.object obj) → ∀ name v, obj.lookup name = some v →
    (lib.parse (lib.print v)).isSome = true
  emptyArray : (lib.parse "[]").isSome = true

namespace AgentEval

section Field

variable {α β : Type} {P : β → Prop} {Q : α → Prop} {R : β → β → Prop}

/-- Whatever is accepted has `P`. -/
def Field.All (P : α → Prop) (x : Field α) : Prop := ∀ a, x = .ok a → P a

theorem Field.All.pure {a : α} (h : Q a) : Field.All Q (Pure.pure a) := by
  intro a' ha'
  obtain rfl := Except.ok.inj ha'
  exact h

theorem Field.All.bind {x : Field α} {f : α → Field β} (hx : Field.All Q x)
    (h : ∀ a, Q a → Field.All P (f a)) : Field.All P (x >>= f) := by
  intro b hb
  cases x with
  | error e => cases hb
  | ok a => exact h a (hx a rfl) b hb

/-- Both are rejected for one reason, or both are accepted and related. -/
def Field.Both (R : β → β → Prop) (x y : Field β) : Prop :=
  (∃ e, x = .error e ∧ y = .error e) ∨ ∃ a b, x = .ok a ∧ y = .ok b ∧ R a b

theorem Field.Both.pure {a b : β} (h : R a b) : Field.Both R (Pure.pure a) (Pure.pure b) :=
  Or.inr ⟨a, b, rfl, rfl, h⟩

theorem Field.Both.bind {x : Field α} {f g : α → Field β} (h : ∀ a, Field.Both R (f a) (g a)) :
    Field.Both R (x >>= f) (x >>= g) := by
  cases x with
  | error e => exact Or.inl ⟨e, rfl, rfl⟩
  | ok a => exact h a

theorem Field.all_true (x : Field α) : Field.All (fun _ => True) x := fun _ _ => trivial

end Field

section Accessors

variable (obj : List (String × JsonValue)) (name : String)

theorem oneOf_mem (allowed : List String) :
    Field.All (fun v => v ∈ allowed) (oneOf obj name allowed) := by
  unfold oneOf
  refine Field.All.bind (Field.all_true _) fun v _ => ?_
  intro a ha
  split at ha
  · obtain rfl := Except.ok.inj ha
    assumption
  · cases ha

theorem count_integer : Field.All (fun v => ∃ n, v = .integer n) (count obj name) :=
  Field.All.bind (Field.all_true _) fun _ _ => Field.All.pure ⟨_, rfl⟩

theorem json_parses {lib : JsonLibrary} (hlib : lib.Reparses) {t : String}
    (hobj : lib.parse t = some (.object obj)) (shape : JsonValue → Bool) {default : Option String}
    (hdefault : ∀ s ∈ default, (lib.parse s).isSome = true) :
    Field.All (fun s => (lib.parse s).isSome = true) (json obj lib name shape default) := by
  intro s hs
  unfold json at hs
  split at hs
  · rename_i v hv
    split at hs
    · obtain rfl := Except.ok.inj hs
      apply hlib.printed t obj hobj name v
      unfold get at hv
      split at hv
      · cases hv
      · exact hv
    · cases hs
  · obtain rfl := Except.ok.inj hs
    exact hdefault _ rfl
  · cases hs

end Accessors

section Sound

/-- The columns that depend on the time or on the file system. -/
def derivedColumns : List String := ["ingested_at", "payload_expiry", "repo_identity"]

namespace Prepared

/-- The primary key with its table. -/
def key (r : Prepared) : EvalTable × String := (r.table, r.id)

/-- What every accepted record satisfies. -/
structure Sound (lib : JsonLibrary) (r : Prepared) : Prop where
  conforms : r.table.conforms r.row = true
  parent : ∀ column parent, r.table.reference = some (column, parent) →
    ∃ id, r.parent = some (parent, id) ∧ r.row.value column = .text id
  never : ∀ c ∈ r.cols, c.column ∈ derivedColumns ∨ c.column ∈ r.table.freeText →
    c.compare = .never
  columns : (r.cols.map Cell.column).Nodup
  selfEqual : ∀ c ∈ r.cols, c.compare = .json → jsonTextEq lib c.value c.value = true

end Prepared

@[simp] theorem text_name (name : String) : (text name).name = name := rfl

@[simp] theorem optText_name (name : String) : (optText name).name = name := rfl

@[simp] theorem integer_name (name : String) : (integer name).name = name := rfl

@[simp] theorem text_accepts (name s : String) : (text name).accepts (.text s) = true := rfl

@[simp] theorem integer_accepts (name : String) (n : ℤ) :
    (integer name).accepts (.integer n) = true := rfl

@[simp] theorem optText_accepts (name : String) (s : Option String) :
    (optText name).accepts (optTextValue s) = true := by
  cases s <;> rfl

@[simp] theorem optText_accepts_text (name s : String) :
    (optText name).accepts (.text s) = true := rfl

theorem jsonTextEq_refl {lib : JsonLibrary} (hlib : lib.Reparses) {s : String}
    (hs : (lib.parse s).isSome = true) : jsonTextEq lib (.text s) (.text s) = true := by
  obtain ⟨v, hv⟩ := Option.isSome_iff_exists.mp hs
  simp [jsonTextEq, hv, jsonEq_refl (hlib.keysOnce s v hv)]

variable {lib : JsonLibrary} (imp : Importer) (around : Surroundings)
  (obj : List (String × JsonValue)) (id : String)

theorem prepareEscape_sound :
    Field.All (Prepared.Sound lib) (imp.prepareEscape around obj id) := by
  unfold Importer.prepareEscape
  refine Field.All.bind (Field.all_true _) fun repo _ => ?_
  refine Field.All.bind (Field.all_true _) fun path _ => ?_
  refine Field.All.bind (Field.all_true _) fun line _ => ?_
  refine Field.All.bind (Field.all_true _) fun fixCommit _ => ?_
  refine Field.All.bind (Field.all_true _) fun note _ => ?_
  refine Field.All.bind (Field.all_true _) fun recordedAt _ => ?_
  apply Field.All.pure
  constructor
  · simp [EvalTable.conforms, EvalTable.columns, Prepared.row, Row.value, List.lookup_cons]
  · intro column parent h
    cases h
  · simp [derivedColumns, EvalTable.freeText]
  · simp
  · simp

theorem prepareReviewRun_sound :
    Field.All (Prepared.Sound lib) (Importer.prepareReviewRun around obj id) := by
  unfold Importer.prepareReviewRun
  refine Field.All.bind (Field.all_true _) fun repo _ => ?_
  refine Field.All.bind (Field.all_true _) fun sessionId _ => ?_
  refine Field.All.bind (Field.all_true _) fun harness _ => ?_
  refine Field.All.bind (Field.all_true _) fun _ _ => ?_
  refine Field.All.bind (Field.all_true _) fun _ _ => ?_
  refine Field.All.bind (Field.all_true _) fun agent _ => ?_
  refine Field.All.bind (Field.all_true _) fun mode _ => ?_
  refine Field.All.bind (Field.all_true _) fun requestedModel _ => ?_
  refine Field.All.bind (Field.all_true _) fun modelId _ => ?_
  refine Field.All.bind (Field.all_true _) fun effort _ => ?_
  refine Field.All.bind (Field.all_true _) fun cliVersion _ => ?_
  refine Field.All.bind (Field.all_true _) fun base _ => ?_
  refine Field.All.bind (Field.all_true _) fun baseSha _ => ?_
  refine Field.All.bind (Field.all_true _) fun headSha _ => ?_
  refine Field.All.bind (Field.all_true _) fun inputSha256 _ => ?_
  refine Field.All.bind (count_integer _ _) fun unitsTotal hunitsTotal => ?_
  refine Field.All.bind (count_integer _ _) fun unitsFailed hunitsFailed => ?_
  refine Field.All.bind (count_integer _ _) fun inputTokens hinputTokens => ?_
  refine Field.All.bind (count_integer _ _) fun outputTokens houtputTokens => ?_
  refine Field.All.bind (count_integer _ _) fun cacheReadTokens hcacheReadTokens => ?_
  refine Field.All.bind (count_integer _ _) fun cacheCreationTokens hcacheCreationTokens => ?_
  refine Field.All.bind (Field.all_true _) fun startedAt _ => ?_
  refine Field.All.bind (Field.all_true _) fun finishedAt _ => ?_
  obtain ⟨unitsTotal, rfl⟩ := hunitsTotal
  obtain ⟨unitsFailed, rfl⟩ := hunitsFailed
  obtain ⟨inputTokens, rfl⟩ := hinputTokens
  obtain ⟨outputTokens, rfl⟩ := houtputTokens
  obtain ⟨cacheReadTokens, rfl⟩ := hcacheReadTokens
  obtain ⟨cacheCreationTokens, rfl⟩ := hcacheCreationTokens
  apply Field.All.pure
  constructor
  · simp [EvalTable.conforms, EvalTable.columns, Prepared.row, Row.value, List.lookup_cons]
  · intro column parent h
    cases h
  · simp [derivedColumns, EvalTable.freeText]
  · simp
  · simp

theorem prepareFinding_sound :
    Field.All (Prepared.Sound lib) (imp.prepareFinding around obj id) := by
  unfold Importer.prepareFinding
  refine Field.All.bind (Field.all_true _) fun runId _ => ?_
  refine Field.All.bind (Field.all_true _) fun repo _ => ?_
  refine Field.All.bind (Field.all_true _) fun lineText _ => ?_
  refine Field.All.bind (Field.all_true _) fun category _ => ?_
  refine Field.All.bind (Field.all_true _) fun path _ => ?_
  refine Field.All.bind (oneOf_mem _ _ _) fun side hside => ?_
  refine Field.All.bind (Field.all_true _) fun line _ => ?_
  refine Field.All.bind (Field.all_true _) fun severity _ => ?_
  refine Field.All.bind (Field.all_true _) fun confidence _ => ?_
  refine Field.All.bind (Field.all_true _) fun claim _ => ?_
  refine Field.All.bind (Field.all_true _) fun loggedAt _ => ?_
  apply Field.All.pure
  constructor
  · simp [EvalTable.conforms, EvalTable.columns, Prepared.row, Row.value, List.lookup_cons]
    simpa [Column.accepts, text] using hside
  · intro column parent h
    obtain ⟨rfl, rfl⟩ := Prod.mk.inj (Option.some.inj h)
    exact ⟨runId, rfl, rfl⟩
  · simp [derivedColumns, EvalTable.freeText]
  · simp
  · simp

theorem prepareVerdict_sound :
    Field.All (Prepared.Sound lib) (imp.prepareVerdict around obj id) := by
  unfold Importer.prepareVerdict
  refine Field.All.bind (Field.all_true _) fun findingId _ => ?_
  refine Field.All.bind (Field.all_true _) fun auto _ => ?_
  refine Field.All.bind (Field.all_true _) fun verdict _ => ?_
  refine Field.All.bind (Field.all_true _) fun commit _ => ?_
  refine Field.All.bind (Field.all_true _) fun note _ => ?_
  refine Field.All.bind (Field.all_true _) fun decidedAt _ => ?_
  apply Field.All.pure
  constructor
  · simp [EvalTable.conforms, EvalTable.columns, Prepared.row, Row.value, List.lookup_cons]
    cases auto <;> rfl
  · intro column parent h
    obtain ⟨rfl, rfl⟩ := Prod.mk.inj (Option.some.inj h)
    exact ⟨findingId, rfl, rfl⟩
  · simp [derivedColumns, EvalTable.freeText]
  · simp
  · simp

theorem prepareBenchRun_sound (hlib : imp.library.Reparses) {t : String}
    (hobj : imp.library.parse t = some (.object obj)) :
    Field.All (Prepared.Sound imp.library) (imp.prepareBenchRun around obj id) := by
  have hempty : ∀ s ∈ some "[]", (imp.library.parse s).isSome = true := by
    intro s hs
    obtain rfl := Option.some.inj hs
    exact hlib.emptyArray
  unfold Importer.prepareBenchRun
  refine Field.All.bind (Field.all_true _) fun bench _ => ?_
  refine Field.All.bind (Field.all_true _) fun recordedAt _ => ?_
  refine Field.All.bind (Field.all_true _) fun repoCommit _ => ?_
  refine Field.All.bind (Field.all_true _) fun cliVersion _ => ?_
  refine Field.All.bind (Field.all_true _) fun model _ => ?_
  refine Field.All.bind (json_parses obj _ hlib hobj _ hempty) fun modelIds hmodelIds => ?_
  refine Field.All.bind (Field.all_true _) fun effort _ => ?_
  refine Field.All.bind (Field.all_true _) fun reps _ => ?_
  refine Field.All.bind (Field.all_true _) fun cases _ => ?_
  refine Field.All.bind (Field.all_true _) fun casesSha256 _ => ?_
  refine Field.All.bind (Field.all_true _) fun briefSha256 _ => ?_
  refine Field.All.bind (count_integer _ _) fun failedReviews hfailedReviews => ?_
  refine Field.All.bind (count_integer _ _) fun tokens htokens => ?_
  refine Field.All.bind (json_parses obj _ hlib hobj _ (by simp)) fun scores hscores => ?_
  refine Field.All.bind (json_parses obj _ hlib hobj _ hempty) fun perCase hperCase => ?_
  obtain ⟨failedReviews, rfl⟩ := hfailedReviews
  obtain ⟨tokens, rfl⟩ := htokens
  apply Field.All.pure
  constructor
  · simp [EvalTable.conforms, EvalTable.columns, Prepared.row, Row.value, List.lookup_cons]
  · intro column parent h
    cases h
  · simp [derivedColumns, EvalTable.freeText]
  · simp
  · simp [jsonTextEq_refl hlib, hmodelIds, hscores, hperCase]

theorem object_of_asObject {v : JsonValue} {obj : List (String × JsonValue)}
    (h : v.asObject = some obj) : v = .object obj := by
  cases v with
  | object members =>
    obtain rfl := Option.some.inj h
    rfl
  | _ => cases h

/-- Every accepted line gives a record that meets its table. -/
theorem prepareLine_sound (hlib : imp.library.Reparses) (raw : List UInt8) :
    Field.All (Prepared.Sound imp.library) (imp.prepareLine around raw) := by
  unfold Importer.prepareLine
  split
  · exact fun _ h => nomatch h
  · split
    · exact fun _ h => nomatch h
    · rename_i value hvalue
      obtain ⟨t, -, ht⟩ := Option.bind_eq_some_iff.mp hvalue
      split
      · exact fun _ h => nomatch h
      · rename_i obj hobj
        rw [object_of_asObject hobj] at ht
        refine Field.All.bind (Field.all_true _) fun _ _ => ?_
        refine Field.All.bind (Field.all_true _) fun kind _ => ?_
        refine Field.All.bind (Field.all_true _) fun id _ => ?_
        refine Field.All.bind (Field.all_true _) fun _ _ => ?_
        split
        · exact prepareReviewRun_sound around obj id
        · split
          · exact prepareFinding_sound imp around obj id
          · split
            · exact prepareVerdict_sound imp around obj id
            · split
              · exact prepareEscape_sound imp around obj id
              · split
                · exact prepareBenchRun_sound imp around obj id hlib ht
                · exact fun _ h => nomatch h

end Sound

section Surroundings

/-- The cells of one column of two records of one line. -/
def Cell.Alike (c c' : Cell) : Prop :=
  c = c' ∨ c.column = c'.column ∧ c.column ∈ derivedColumns ∧ c.compare = .never ∧
    c'.compare = .never

/-- Two records of one line, prepared in different surroundings. -/
structure Prepared.Alike (r r' : Prepared) : Prop where
  key : r.key = r'.key
  parent : r.parent = r'.parent
  cols : List.Forall₂ Cell.Alike r.cols r'.cols

variable (imp : Importer) (around around' : Surroundings) (obj : List (String × JsonValue))
  (id : String)

theorem prepareEscape_alike : Field.Both Prepared.Alike (imp.prepareEscape around obj id)
    (imp.prepareEscape around' obj id) := by
  unfold Importer.prepareEscape
  iterate 6 refine Field.Both.bind fun _ => ?_
  apply Field.Both.pure
  exact ⟨rfl, rfl, by simp [Cell.Alike, derivedColumns]⟩

theorem prepareReviewRun_alike : Field.Both Prepared.Alike (Importer.prepareReviewRun around obj id)
    (Importer.prepareReviewRun around' obj id) := by
  unfold Importer.prepareReviewRun
  iterate 23 refine Field.Both.bind fun _ => ?_
  apply Field.Both.pure
  exact ⟨rfl, rfl, by simp [Cell.Alike, derivedColumns]⟩

theorem prepareFinding_alike : Field.Both Prepared.Alike (imp.prepareFinding around obj id)
    (imp.prepareFinding around' obj id) := by
  unfold Importer.prepareFinding
  iterate 11 refine Field.Both.bind fun _ => ?_
  apply Field.Both.pure
  exact ⟨rfl, rfl, by simp [Cell.Alike, derivedColumns]⟩

theorem prepareVerdict_alike : Field.Both Prepared.Alike (imp.prepareVerdict around obj id)
    (imp.prepareVerdict around' obj id) := by
  unfold Importer.prepareVerdict
  iterate 6 refine Field.Both.bind fun _ => ?_
  apply Field.Both.pure
  exact ⟨rfl, rfl, by simp [Cell.Alike, derivedColumns]⟩

theorem prepareBenchRun_alike : Field.Both Prepared.Alike (imp.prepareBenchRun around obj id)
    (imp.prepareBenchRun around' obj id) := by
  unfold Importer.prepareBenchRun
  iterate 15 refine Field.Both.bind fun _ => ?_
  apply Field.Both.pure
  exact ⟨rfl, rfl, by simp [Cell.Alike, derivedColumns]⟩

theorem Field.Both.error {R : Prepared → Prepared → Prop} (e : String) :
    Field.Both R (.error e) (.error e) :=
  Or.inl ⟨e, rfl, rfl⟩

/-- A line is accepted in all surroundings or in none, and the records are alike. -/
theorem prepareLine_alike (raw : List UInt8) : Field.Both Prepared.Alike
    (imp.prepareLine around raw) (imp.prepareLine around' raw) := by
  unfold Importer.prepareLine
  split
  · exact Field.Both.error _
  · split
    · exact Field.Both.error _
    · split
      · exact Field.Both.error _
      · iterate 4 refine Field.Both.bind fun _ => ?_
        split
        · exact prepareReviewRun_alike around around' _ _
        · split
          · exact prepareFinding_alike imp around around' _ _
          · split
            · exact prepareVerdict_alike imp around around' _ _
            · split
              · exact prepareEscape_alike imp around around' _ _
              · split
                · exact prepareBenchRun_alike imp around around' _ _
                · exact Field.Both.error _

end Surroundings

namespace Prepared

variable {lib : JsonLibrary} {r r' : Prepared} {stored : Row}

theorem compared_of_alike {cols cols' : List Cell} (h : List.Forall₂ Cell.Alike cols cols') :
    cols.filter (fun c => c.compare ≠ .never) = cols'.filter fun c => c.compare ≠ .never := by
  induction h with
  | nil => rfl
  | @cons c c' cols cols' hc _ ih =>
    rcases hc with rfl | ⟨-, -, hnever, hnever'⟩
    · rw [List.filter_cons, List.filter_cons, ih]
    · simpa [hnever, hnever'] using ih

theorem lookup_of_alike {cols cols' : List Cell} (h : List.Forall₂ Cell.Alike cols cols')
    {column : String} (hcolumn : column ∉ derivedColumns) :
    (cols.map fun c => (c.column, c.value)).lookup column =
      (cols'.map fun c => (c.column, c.value)).lookup column := by
  induction h with
  | nil => rfl
  | @cons c c' cols cols' hc _ ih =>
    rcases hc with rfl | ⟨hsame, hderived, -, -⟩
    · simp only [List.map_cons, List.lookup_cons, ih]
    · have hne : column ≠ c.column := fun heq => hcolumn (heq ▸ hderived)
      simp only [List.map_cons, List.lookup_cons, beq_false_of_ne hne,
        beq_false_of_ne (hsame ▸ hne), ih]

/-- The surroundings do not matter for the comparison. -/
theorem Alike.same_eq (h : r.Alike r') (lib : JsonLibrary) (stored : Row) :
    r.same lib stored = r'.same lib stored := by
  rw [same, same, compared, compared, compared_of_alike h.cols]

theorem Alike.value_eq (h : r.Alike r') {column : String} (hcolumn : column ∉ derivedColumns) :
    r.row.value column = r'.row.value column := by
  rw [Row.value, Row.value, row, row, lookup_of_alike h.cols hcolumn]

theorem lookup_of_mem_cells {cols : List Cell} (hnodup : (cols.map Cell.column).Nodup) {c : Cell}
    (hc : c ∈ cols) : (cols.map fun c => (c.column, c.value)).lookup c.column = some c.value := by
  induction cols with
  | nil => cases hc
  | cons c' cols ih =>
    obtain ⟨hnot, hrest⟩ := List.nodup_cons.mp hnodup
    rcases List.mem_cons.mp hc with rfl | hmem
    · rw [List.map_cons, List.lookup_cons_self]
    · have hne : c.column ≠ c'.column := fun heq => hnot (heq ▸ List.mem_map_of_mem hmem)
      rw [List.map_cons, List.lookup_cons, beq_false_of_ne hne, ih hrest hmem]

theorem Sound.value_eq (h : r.Sound lib) {c : Cell} (hc : c ∈ r.cols) :
    r.row.value c.column = c.value := by
  rw [Row.value, row, lookup_of_mem_cells h.columns hc, Option.getD_some]

/-- A stored row with the record's values in the compared columns is the same record. -/
theorem Sound.same_of_value_eq (h : r.Sound lib)
    (hstored : ∀ column, column ∉ derivedColumns → column ∉ r.table.freeText →
      stored.value column = r.row.value column) : r.same lib stored = true := by
  rw [same, List.all_eq_true]
  intro c hc
  obtain ⟨hmem, hcompare⟩ := List.mem_filter.mp hc
  have hcompare' : c.compare ≠ .never := of_decide_eq_true hcompare
  have hvalue : stored.value c.column = c.value := by
    rw [hstored c.column (fun hd => hcompare' (h.never c hmem (Or.inl hd)))
      (fun hf => hcompare' (h.never c hmem (Or.inr hf))), h.value_eq hmem]
  unfold Cell.agrees
  split
  · rw [hvalue]
    exact h.selfEqual c hmem ‹_›
  · exact decide_eq_true hvalue

end Prepared

/-- What `write_record` can do with a record that meets its table. It never fails. -/
theorem writeRecord_cases {lib : JsonLibrary} (db : EvalDb) {r : Prepared} (hr : r.Sound lib) :
    (∃ stored, db.rows.get? r.key = some stored ∧ writeRecord lib db r =
      some (db, if r.same lib stored then .skipped else .rejected "id_conflict")) ∨
    (db.rows.get? r.key = none ∧ (∃ k ∈ r.parent, db.rows.get? k = none) ∧
      writeRecord lib db r = some (db, .rejected "unknown_parent")) ∨
    (db.rows.get? r.key = none ∧ (∀ k ∈ r.parent, (db.rows.get? k).isSome = true) ∧
      ∃ db', writeRecord lib db r = some (db', .written) ∧
        ∀ k, db'.rows.get? k = if k = r.key then some r.row else db.rows.get? k) := by
  unfold writeRecord
  cases hstored : db.rows.get? (r.table, r.id) with
  | some stored => exact Or.inl ⟨stored, hstored, rfl⟩
  | none =>
    right
    by_cases horphan : ∃ k ∈ r.parent, db.rows.get? k = none
    · left
      refine ⟨hstored, horphan, if_pos ?_⟩
      obtain ⟨k, hk, hnone⟩ := horphan
      rw [hk, Option.any_some, hnone]
      rfl
    · right
      have hparents : ∀ k ∈ r.parent, (db.rows.get? k).isSome = true := by
        intro k hk
        rw [← Option.ne_none_iff_isSome]
        exact fun hnone => horphan ⟨k, hk, hnone⟩
      have hfound : (r.parent.any fun k => (db.rows.get? k).isNone) = false := by
        cases hparent : r.parent with
        | none => rfl
        | some k => simp [hparents k hparent]
      have hfk : HasParent db.rows r.table r.row := by
        intro column parent hreference
        obtain ⟨id, hparent, hvalue⟩ := hr.parent column parent hreference
        exact ⟨id, hvalue, hparents _ hparent⟩
      obtain ⟨db', hdb'⟩ := EvalDb.insert_isSome hstored hr.conforms hfk
      refine ⟨hstored, hparents, db', ?_, EvalDb.get?_insert hdb'⟩
      rw [if_neg (by rw [hfound]; exact Bool.false_ne_true), hdb']
      rfl

end AgentEval

end Hippo
