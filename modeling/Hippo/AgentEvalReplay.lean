import Hippo.AgentEvalRuns

/-!
# A log ingested in pieces

The tables after a part of a log hold, for each key, the first accepted record of that part. Lines
that come again change nothing, so any way of cutting the log leads to the same tables.
-/
namespace Hippo.AgentEval
open PayloadGc

section First

variable {imp : Importer} {around : Surroundings} {before : EvalDb} {lines : List (List UInt8)}
  {n p : ℕ} {raw : List UInt8} {r : Prepared} {k : EvalTable × String}

/-- The row of a line for a key. -/
def rowFor (imp : Importer) (around : Surroundings) (k : EvalTable × String)
    (raw : List UInt8) : Option Row :=
  match imp.prepareLine around raw with
  | .ok r => if r.key = k then some r.row else none
  | .error _ => none

/-- The row under a key after the first `n` lines: the one that was there, or that of the first
accepted line. -/
def firstRow (imp : Importer) (around : Surroundings) (before : EvalDb)
    (lines : List (List UInt8)) (n : ℕ) (k : EvalTable × String) : Option Row :=
  (before.rows.get? k).or ((lines.take n).findSome? (rowFor imp around k))

theorem firstRow_zero : firstRow imp around before lines 0 k = before.rows.get? k := by
  rw [firstRow, List.take_zero, List.findSome?_nil, Option.or_none]

theorem firstRow_succ (hraw : lines[n]? = some raw) :
    firstRow imp around before lines (n + 1) k =
      (firstRow imp around before lines n k).or (rowFor imp around k raw) := by
  rw [firstRow, firstRow, List.take_add_one, hraw, Option.toList_some, List.findSome?_append,
    List.findSome?_singleton, Option.or_assoc]

/-- An accepted line gives its key a row. -/
theorem firstRow_isSome (around : Surroundings) (before : EvalDb) (hraw : lines[p]? = some raw)
    (hr : Accepts imp raw r) (hp : p < n) :
    (firstRow imp around before lines n r.key).isSome = true := by
  obtain ⟨r', hr', halike⟩ := hr.prepareLine around
  rw [firstRow, Option.isSome_or, Bool.or_eq_true]
  right
  have hmem : raw ∈ lines.take n := by
    apply List.mem_of_getElem? (i := p)
    rw [List.getElem?_take, if_pos hp, hraw]
  rw [List.findSome?_isSome_iff]
  refine ⟨raw, hmem, ?_⟩
  simp [rowFor, hr', halike.key]

/-- Lines that were covered before add nothing. -/
theorem firstRow_or_rowFor (hraw : lines[p]? = some raw) (hp : p < n) :
    (firstRow imp around before lines n k).or (rowFor imp around k raw) =
      firstRow imp around before lines n k := by
  cases hrow : rowFor imp around k raw with
  | none => rw [Option.or_none]
  | some row =>
    obtain ⟨r, hr, hk⟩ : ∃ r, imp.prepareLine around raw = .ok r ∧ r.key = k := by
      unfold rowFor at hrow
      split at hrow
      · exact ⟨_, ‹_›, (Option.ite_none_right_eq_some.mp hrow).1⟩
      · cases hrow
    have hsome := firstRow_isSome around before hraw ⟨around, hr⟩ hp
    rw [hk] at hsome
    obtain ⟨row', hrow'⟩ := Option.isSome_iff_exists.mp hsome
    rw [hrow', Option.some_or]

/-- The row of the first accepted line with the key. -/
theorem firstRow_eq (around : Surroundings) (hraw : lines[p]? = some raw) (hp : p < n)
    (hr : Accepts imp raw r)
    (hfresh : before.rows.get? r.key = none)
    (hfirst : ∀ q < p, ∀ raw' r', lines[q]? = some raw' → Accepts imp raw' r' → r'.key ≠ r.key) :
    ∃ r', firstRow imp around before lines n r.key = some r'.row ∧ r.Alike r' := by
  obtain ⟨r', hr', halike⟩ := hr.prepareLine around
  refine ⟨r', ?_, halike⟩
  have hnone : (lines.take p).findSome? (rowFor imp around r.key) = none := by
    rw [List.findSome?_eq_none_iff]
    intro raw' hraw'
    obtain ⟨q, hq⟩ := List.getElem?_of_mem hraw'
    rw [List.getElem?_take] at hq
    obtain ⟨hlt, hq⟩ := Option.ite_none_right_eq_some.mp hq
    unfold rowFor
    split
    · rename_i r'' hr''
      rw [if_neg (hfirst q hlt raw' r'' hq ⟨around, hr''⟩)]
    · rfl
  have hsplit : firstRow imp around before lines (p + 1) r.key = some r'.row := by
    rw [firstRow_succ hraw, firstRow, hnone, hfresh, Option.none_or, Option.none_or, rowFor, hr']
    exact if_pos halike.key.symm
  -- the lines behind it do not matter
  obtain ⟨m, rfl⟩ := Nat.exists_eq_add_of_le (Nat.succ_le_of_lt hp)
  rw [firstRow, List.take_add, List.findSome?_append, ← Option.or_assoc]
  rw [firstRow] at hsplit
  rw [hsplit, Option.some_or]

end First

section Mirrors

variable {imp : Importer} {around around' : Surroundings} {before db : EvalDb}
  {lines : List (List UInt8)} {n p : ℕ} {raw : List UInt8} {swept : Prop}

/-- The tables hold the rows of `ref`, and no others. -/
def Mirrors (swept : Prop) (ref : EvalTable × String → Option Row) (db : EvalDb) : Prop :=
  ∀ k, Option.Rel (Holds swept k.1) (ref k) (db.rows.get? k)

theorem Mirrors.isSome_eq {ref : EvalTable × String → Option Row} (h : Mirrors swept ref db)
    (k : EvalTable × String) : (db.rows.get? k).isSome = (ref k).isSome := by
  have hk := h k
  cases hk' : ref k <;> cases hdb : db.rows.get? k <;> rw [hk', hdb] at hk <;>
    first | rfl | cases hk

theorem Mirrors.sweep {ref : EvalTable × String → Option Row} {db' : EvalDb}
    (h : Mirrors swept ref db) (hkeeps : Keeps db db')
    (hsome : ∀ k, (db'.rows.get? k).isSome = (db.rows.get? k).isSome) : Mirrors True ref db' := by
  intro k
  have hk := h k
  have hkeeps' := hkeeps k
  have hsome' := hsome k
  generalize ref k = row, db.rows.get? k = stored at hk hkeeps' hsome' ⊢
  cases hk with
  | none =>
    rw [Option.isSome_none, Option.isSome_eq_false_iff, Option.isNone_iff_eq_none] at hsome'
    rw [hsome']
    exact Option.Rel.none
  | some hholds =>
    obtain ⟨stored', hstored', hkept⟩ := hkeeps' _ rfl
    rw [hstored']
    apply Option.Rel.some
    apply hholds.keeps fun _ => trivial
    intro column
    exact (hkept column).imp_right fun hnull => ⟨trivial, hnull⟩

/-- Every finding and verdict follows a line with its parent, if the parent was not there before. -/
def ParentsFirst (imp : Importer) (before : EvalDb) (lines : List (List UInt8)) : Prop :=
  ∀ (p : ℕ) raw r, lines[p]? = some raw → Accepts imp raw r → ∀ k ∈ r.parent,
    (before.rows.get? k).isSome = true ∨
      ∃ q < p, ∃ raw' r', lines[q]? = some raw' ∧ Accepts imp raw' r' ∧ r'.key = k

theorem ParentsFirst.found (h : ParentsFirst imp before lines) (around : Surroundings)
    (hraw : lines[p]? = some raw) {r : Prepared} (hr : Accepts imp raw r)
    {k : EvalTable × String} (hk : k ∈ r.parent) (hp : p ≤ n) : (firstRow imp around before lines n k).isSome = true := by
  rcases h p raw r hraw hr k hk with hbefore | ⟨q, hq, raw', r', hraw', hr', rfl⟩
  · rw [firstRow, Option.isSome_or, hbefore, Bool.true_or]
  · exact firstRow_isSome around before hraw' hr' (by omega)

/-- The outcomes that an accepted line can have. -/
def Expected (o : Option Outcome) : Prop :=
  o = some .written ∨ o = some .skipped ∨ o = some (.rejected "id_conflict")

/-- One line, that comes again or is the next one. -/
theorem ingestLine_mirrors (hlib : imp.library.Reparses)
    (hparents : ParentsFirst imp before lines) (around' : Surroundings)
    (hdb : Mirrors swept (firstRow imp around before lines n) db) (hp : p ≤ n)
    (hraw : lines[p]? = some raw) :
    Mirrors swept (firstRow imp around before lines (max n (p + 1)))
        (ingestLine imp around' db raw).1 ∧
      ((∃ r, Accepts imp raw r) → Expected (some (ingestLine imp around' db raw).2)) := by
  have hnext : ∀ k, firstRow imp around before lines (max n (p + 1)) k =
      (firstRow imp around before lines n k).or (rowFor imp around k raw) := by
    intro k
    rcases Nat.lt_or_eq_of_le hp with hlt | rfl
    · rw [firstRow_or_rowFor hraw hlt, max_eq_left (by omega)]
    · rw [← firstRow_succ hraw, max_eq_right (by omega)]
  have hsame : (∀ k, (firstRow imp around before lines n k).isSome = true ∨
      rowFor imp around k raw = none) →
      Mirrors swept (firstRow imp around before lines (max n (p + 1))) db := by
    intro hcovered k
    rw [hnext]
    rcases hcovered k with hsome | hnone
    · obtain ⟨row, hrow⟩ := Option.isSome_iff_exists.mp hsome
      have hk := hdb k
      rw [hrow] at hk ⊢
      exact hk
    · rw [hnone, Option.or_none]
      exact hdb k
  rcases ingestLine_cases hlib around' db raw with
    ⟨hno, reason, hline⟩ | ⟨r, hr, hcases⟩
  · constructor
    · rw [hline]
      apply hsame
      intro k
      right
      unfold rowFor
      split
      · exact absurd ⟨around, ‹_›⟩ (hno _)
      · rfl
    · rintro ⟨r, hr⟩
      exact absurd hr (hno r)
  · have hr' : Accepts imp raw r := ⟨around', hr⟩
    obtain ⟨r₀, hr₀, halike⟩ := hr'.prepareLine around
    have hrow : ∀ k, rowFor imp around k raw = if r.key = k then some r₀.row else none := by
      intro k
      rw [rowFor, hr₀, halike.key]
    rcases hcases with ⟨stored, hstored, hline⟩ | ⟨hnew, ⟨k, hk, hmissing⟩, -⟩ |
      ⟨hnew, hwritten, hget⟩
    · constructor
      · rw [hline]
        apply hsame
        intro k
        by_cases hk : r.key = k
        · left
          rw [← hdb.isSome_eq, ← hk, hstored]
          rfl
        · right
          rw [hrow, if_neg hk]
      · intro _
        rw [hline]
        dsimp only
        split
        · exact Or.inr (Or.inl rfl)
        · exact Or.inr (Or.inr rfl)
    · -- the parent is there
      have hfound := hparents.found around hraw hr' hk hp
      rw [← hdb.isSome_eq, hmissing] at hfound
      cases hfound
    · constructor
      · intro k
        rw [hget, hnext, hrow]
        by_cases hk : r.key = k
        · have hnone : firstRow imp around before lines n k = none := by
            rw [← Option.not_isSome_iff_eq_none, ← hdb.isSome_eq, ← hk, hnew]
            exact Bool.false_ne_true
          rw [if_pos hk, if_pos hk.symm, hnone, Option.none_or]
          exact Option.Rel.some (fun c hc => Or.inl (halike.value_eq hc))
        · rw [if_neg hk, if_neg (Ne.symm hk), Option.or_none]
          exact hdb k
      · intro _
        exact Or.inl (congrArg some hwritten)

/-- Consecutive lines, the first of which comes again or is the next one. -/
theorem outcomesOf_mirrors (hlib : imp.library.Reparses)
    (hparents : ParentsFirst imp before lines) (around' : Surroundings)
    (hdb : Mirrors swept (firstRow imp around before lines n) db) (hp : p ≤ n)
    {piece : List (List UInt8)} (hpiece : piece <+: lines.drop p) :
    Mirrors swept (firstRow imp around before lines (max n (p + piece.length)))
        (outcomesOf imp around' db piece).1 ∧
      ∀ e ∈ (outcomesOf imp around' db piece).2, (∃ r, Accepts imp e.1 r) → Expected e.2 := by
  induction piece generalizing db n p with
  | nil =>
    rw [List.length_nil, Nat.add_zero, max_eq_left hp]
    exact ⟨hdb, fun _ he => nomatch he⟩
  | cons raw piece ih =>
    obtain ⟨rest, hrest⟩ := hpiece
    have hraw : lines[p]? = some raw := by
      rw [← List.head?_drop, ← hrest]
      rfl
    have hpiece' : piece <+: lines.drop (p + 1) := by
      refine ⟨rest, ?_⟩
      rw [← List.tail_drop, ← hrest]
      rfl
    obtain ⟨hfirst, hexpected⟩ := ingestLine_mirrors hlib hparents around' hdb hp hraw
    obtain ⟨hmirrors, hall⟩ := ih hfirst (by omega) hpiece'
    have hlength : max (max n (p + 1)) (p + 1 + piece.length) =
        max n (p + (raw :: piece).length) := by
      rw [List.length_cons]
      omega
    rw [hlength] at hmirrors
    refine ⟨hmirrors, ?_⟩
    intro e he
    rw [outcomesOf] at he
    rcases List.mem_cons.mp he with rfl | hrest
    · exact hexpected
    · exact hall e hrest

end Mirrors

section Schedules

variable {γ δ H : Type}

/-- How a log can be ingested: in pieces that begin where the log was covered before or earlier,
with sweeps in between. The number is that of the lines covered so far. -/
inductive Schedule (imp : Importer) (lib : GcLibrary H) (lines : List (List UInt8))
    (before : PayloadDb γ δ H) :
    ℕ → Bool → List (List UInt8 × Option Outcome) → PayloadDb γ δ H → Prop where
  | start : Schedule imp lib lines before 0 false [] before
  | ingest {n : ℕ} {swept : Bool} {history : List (List UInt8 × Option Outcome)}
      {db : PayloadDb γ δ H} (h : Schedule imp lib lines before n swept history db)
      (around : Surroundings) (input : List UInt8) {p : ℕ} (hp : p ≤ n)
      (hpiece : recordLines input <+: lines.drop p) :
      Schedule imp lib lines before (max n (p + (recordLines input).length)) swept
        (history ++ lineOutcomes imp around db.eval input)
        { db with eval := (AgentEval.ingest imp around db.eval input).1 }
  | sweep {n : ℕ} {swept : Bool} {history : List (List UInt8 × Option Outcome)}
      {db : PayloadDb γ δ H} (h : Schedule imp lib lines before n swept history db) (now : ℤ)
      {extra : ℕ} {outcome : Except String PayloadGcReport} {db' : PayloadDb γ δ H}
      (hgc : gcEventPayloads lib now (db.rowCount + 1 + extra) db = some (outcome, db')) :
      Schedule imp lib lines before n true history db'

/-- A log that is cut behind the end of a line is the lines of its pieces. -/
theorem recordLines_append (a b : List UInt8) :
    recordLines (a ++ 10 :: b) = recordLines a ++ recordLines b := by
  rw [recordLines_eq, recordLines_eq, recordLines_eq, ← List.filter_append]
  rw [List.splitOn_append_cons_self]

variable {imp : Importer} {lib : GcLibrary H} {lines : List (List UInt8)}
  {before db : PayloadDb γ δ H} {n : ℕ} {swept : Bool}
  {history : List (List UInt8 × Option Outcome)}

theorem mirrors_start (swept : Prop) (imp : Importer) (around : Surroundings)
    (lines : List (List UInt8)) (before : EvalDb) : Mirrors swept (firstRow imp around before lines 0) before := by
  intro k
  rw [firstRow_zero]
  cases before.rows.get? k with
  | none => exact Option.Rel.none
  | some row => exact Option.Rel.some fun _ _ => Or.inl rfl

/-- The tables hold the first record of each key, at any time. -/
theorem Schedule.mirrors (h : Schedule imp lib lines before n swept history db)
    (hlib : imp.library.Reparses) (hparents : ParentsFirst imp before.eval lines)
    (around : Surroundings) :
    Mirrors (swept = true) (firstRow imp around before.eval lines n) db.eval ∧
      ∀ e ∈ history, (∃ r, Accepts imp e.1 r) → Expected e.2 := by
  induction h with
  | start => exact ⟨mirrors_start _ imp around lines before.eval, fun _ he => nomatch he⟩
  | ingest h around' input hp hpiece ih =>
    obtain ⟨hmirrors, hexpected⟩ := ih
    obtain ⟨hdb, houtcomes⟩ := lineOutcomes_eq around' hlib _ input
    have hpieces := outcomesOf_mirrors hlib hparents around' hmirrors hp hpiece
    rw [houtcomes]
    constructor
    · show Mirrors _ _ (AgentEval.ingest imp around' _ input).1
      rw [hdb]
      exact hpieces.1
    · intro e he
      rcases List.mem_append.mp he with hold | hnew
      · exact hexpected e hold
      · exact hpieces.2 e hnew
  | sweep h now hgc ih =>
    obtain ⟨hmirrors, hexpected⟩ := ih
    refine ⟨?_, hexpected⟩
    obtain ⟨hkeeps, hsome⟩ := gcEventPayloads_keeps hgc
    rw [eq_self]
    exact hmirrors.sweep hkeeps hsome

theorem Schedule.skipsWritten (h : Schedule imp lib lines before n swept history db)
    (hlib : imp.library.Reparses) :
    SkipsWritten history ∧ WrittenSettled imp db.eval history := by
  induction h with
  | start => exact ⟨List.Pairwise.nil, fun _ he => nomatch he⟩
  | ingest h around input hp hpiece ih =>
    obtain ⟨hdb, houtcomes⟩ := lineOutcomes_eq around hlib _ input
    rw [houtcomes]
    show _ ∧ WrittenSettled imp (AgentEval.ingest imp around _ input).1 _
    rw [hdb]
    exact outcomesOf_history hlib around _ ih.1 ih.2
  | sweep h now hgc ih =>
    refine ⟨ih.1, ?_⟩
    intro e he hwritten
    exact (ih.2 e he hwritten).keeps (gcEventPayloads_keeps hgc).1

/-- Two databases that hold the same records hold the same rows, up to swept text. -/
theorem Mirrors.compare {ref : EvalTable × String → Option Row} {swept : Prop} {db db' : EvalDb}
    (h : Mirrors False ref db) (h' : Mirrors swept ref db') (k : EvalTable × String) :
    Option.Rel (Holds swept k.1) (db.rows.get? k) (db'.rows.get? k) := by
  have hk := h k
  have hk' := h' k
  generalize ref k = row, db.rows.get? k = stored, db'.rows.get? k = stored' at hk hk' ⊢
  cases hk with
  | none =>
    cases hk' with
    | none => exact Option.Rel.none
  | some hholds =>
    cases hk' with
    | some hholds' =>
      apply Option.Rel.some
      intro column hcolumn
      rcases hholds column hcolumn with hsame | ⟨hno, -⟩
      · rw [hsame]
        exact hholds' column hcolumn
      · exact hno.elim

/-- A log that is ingested in pieces, with any of its lines again and sweeps in between, gives the
tables of the log ingested once; no line is written twice, and the first record of a key stays. -/
theorem ingest_in_pieces (hlib : imp.library.Reparses) (log : List UInt8)
    (hparents : ParentsFirst imp before.eval (recordLines log))
    (h : Schedule imp lib (recordLines log) before n swept history db)
    (hall : (recordLines log).length ≤ n) (around : Surroundings) :
    SkipsWritten history ∧
    (∀ e ∈ history, (∃ r, Accepts imp e.1 r) → Expected e.2) ∧
    (∀ (p : ℕ) raw r, (recordLines log)[p]? = some raw → Accepts imp raw r →
      before.eval.rows.get? r.key = none →
      (∀ q < p, ∀ raw' r', (recordLines log)[q]? = some raw' → Accepts imp raw' r' →
        r'.key ≠ r.key) →
      ∃ stored, db.eval.rows.get? r.key = some stored ∧
        Holds (swept = true) r.table r.row stored) ∧
    ∀ k, Option.Rel (Holds (swept = true) k.1)
      ((ingest imp around before.eval log).1.rows.get? k) (db.eval.rows.get? k) := by
  obtain ⟨hmirrors, hexpected⟩ := h.mirrors hlib hparents around
  refine ⟨(h.skipsWritten hlib).1, hexpected, ?_, ?_⟩
  · intro p raw r hraw hr hfresh hfirst
    have hp : p < n := by
      have hlt := (List.getElem?_eq_some_iff.mp hraw).1
      omega
    obtain ⟨r', hrow, halike⟩ := firstRow_eq around hraw hp hr hfresh hfirst
    have hk := hmirrors r.key
    rw [hrow] at hk
    cases hstored : db.eval.rows.get? r.key with
    | none =>
      rw [hstored] at hk
      cases hk
    | some stored =>
      rw [hstored] at hk
      cases hk with
      | some hholds =>
        refine ⟨stored, rfl, ?_⟩
        intro column hcolumn
        rw [halike.value_eq hcolumn]
        exact hholds column hcolumn
  · -- the log ingested once is a schedule of one piece
    have hall' : (recordLines log).take n = recordLines log := List.take_of_length_le hall
    have hlength : (recordLines log).take (recordLines log).length = recordLines log :=
      List.take_length
    have hstart := mirrors_start False imp around (recordLines log) before.eval
    have honce := (outcomesOf_mirrors hlib hparents around hstart le_rfl
      (List.prefix_refl (recordLines log))).1
    rw [Nat.zero_add, Nat.zero_max] at honce
    have hsame : firstRow imp around before.eval (recordLines log) n =
        firstRow imp around before.eval (recordLines log) (recordLines log).length := by
      funext k
      rw [firstRow, firstRow, hall', hlength]
    rw [hsame] at hmirrors
    rw [(lineOutcomes_eq around hlib before.eval log).1]
    exact honce.compare hmirrors

end Schedules

section Sample

def escapeText : String :=
  "\x7b\"schema_version\":1,\"type\":\"escape\",\"id\":\"e1\",\"repo\":\"/r\"," ++
    "\"path\":\"p\",\"line\":3,\"note\":\"n\",\"recorded_at\":5\x7d"

def escapeMembers : List (String × JsonValue) :=
  [("schema_version", .int 1), ("type", .string "escape"), ("id", .string "e1"),
    ("repo", .string "/r"), ("path", .string "p"), ("line", .int 3), ("note", .string "n"),
    ("recorded_at", .int 5)]

/-- The values of one log, as they are printed. -/
def escapeValues : List (String × JsonValue) :=
  [(escapeText, .object escapeMembers), ("[]", .array []), ("1", .int 1), ("3", .int 3),
    ("5", .int 5), ("\"escape\"", .string "escape"), ("\"e1\"", .string "e1"),
    ("\"/r\"", .string "/r"), ("\"p\"", .string "p"), ("\"n\"", .string "n")]

def escapeLibrary : JsonLibrary where
  parse := fun t => escapeValues.lookup t
  print := fun v => ((escapeValues.find? fun e => jsonEq e.2 v).map Prod.fst).getD "null"

theorem escapeLibrary_reparses : escapeLibrary.Reparses where
  keysOnce := by
    intro t v h
    have hmem := mem_of_lookup h
    have hall : ∀ e ∈ escapeValues, e.2.KeysOnce := by
      simp only [escapeValues, List.forall_mem_cons, List.not_mem_nil, false_implies,
        implies_true, and_true]
      refine ⟨.object (by decide) ?_, .array (by simp), .int 1, .int 3, .int 5, .string _,
        .string _, .string _, .string _, .string _⟩
      intro k v hkv
      simp only [escapeMembers, List.mem_cons, Prod.mk.injEq, List.not_mem_nil, or_false] at hkv
      rcases hkv with ⟨-, rfl⟩ | ⟨-, rfl⟩ | ⟨-, rfl⟩ | ⟨-, rfl⟩ | ⟨-, rfl⟩ | ⟨-, rfl⟩ | ⟨-, rfl⟩ |
        ⟨-, rfl⟩ <;> constructor
    exact hall _ hmem
  printed := by
    intro t obj h name v hv
    have hmem := mem_of_lookup h
    have hobj : t = escapeText ∧ obj = escapeMembers := by
      simpa [escapeValues] using hmem
    have hall : ∀ e ∈ escapeMembers,
        (escapeLibrary.parse (escapeLibrary.print e.2)).isSome = true := by
      decide +kernel
    exact hall _ (mem_of_lookup (hobj.2 ▸ hv))
  emptyArray := by decide +kernel

def escapeImporter : Importer := ⟨escapeLibrary, [], id⟩

def escapeLog : List UInt8 := escapeText.toUTF8.toList ++ [10]

def morning : Surroundings := ⟨1000, fun _ => none⟩

def evening : Surroundings := ⟨2000, fun _ => some "id"⟩

/-- An escape has no parent. -/
theorem escapeLog_parentsFirst (before : EvalDb) :
    ParentsFirst escapeImporter before (recordLines escapeLog) := by
  have hall : ∀ raw ∈ recordLines escapeLog,
      ((escapeImporter.prepareLine morning raw).toOption.all fun r => r.parent.isNone) = true := by
    decide +kernel
  intro p raw r hraw hr k hk
  obtain ⟨r', hr', halike⟩ := hr.prepareLine morning
  have hnone := hall raw (List.mem_of_getElem? hraw)
  rw [hr', Except.toOption, Option.all_some, ← halike.parent, hk] at hnone
  cases hnone

def noRows : PayloadDb Unit Unit Unit :=
  ⟨Table.empty, Table.empty, [], [], [], EvalDb.empty⟩

/-- The log twice. -/
theorem escapeLog_twice : ∃ n history db,
    Schedule escapeImporter plainLibrary (recordLines escapeLog) noRows n false history db ∧
      history.map Prod.snd = [some .written, some .skipped] ∧ SkipsWritten history := by
  have hpiece : recordLines escapeLog <+: (recordLines escapeLog).drop 0 := List.prefix_refl _
  have hfirst : Schedule escapeImporter plainLibrary (recordLines escapeLog) noRows 0 false []
      noRows := Schedule.start
  have honce := hfirst.ingest morning escapeLog le_rfl hpiece
  have htwice := honce.ingest evening escapeLog (Nat.zero_le _) hpiece
  refine ⟨_, _, _, htwice, by decide +kernel, ?_⟩
  exact (ingest_in_pieces escapeLibrary_reparses escapeLog (escapeLog_parentsFirst _) htwice
    (by omega) morning).1

end Sample

end Hippo.AgentEval
