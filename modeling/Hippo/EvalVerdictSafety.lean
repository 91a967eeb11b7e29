import Hippo.EvalVerdicts

/-!
# What the verdicts of linkage passes can rely on

Whatever passes, ingests and sweeps are interleaved: a finding gets at most one verdict from the
passes, only as its first verdict, for a commit that the walk justifies. A committed batch leaves
each of its findings with a verdict unless another verdict has taken the id.
-/
namespace Hippo.EvalLinkage
open AgentEval PayloadGc RustText Transition

section Growth

variable {db db' db'' : EvalDb} {t : EvalTable} {id : String} {row : Row}

/-- The verdicts of a finding, as they were added. -/
def verdictIds (db : EvalDb) (finding : String) : List String :=
  (verdictsOf db finding).map Prod.fst

/-- Rows stay, and verdicts are only added at the end. -/
structure Grows (db db' : EvalDb) : Prop where
  keeps : Keeps db db'
  verdicts : ∀ finding, verdictIds db finding <+: verdictIds db' finding

theorem Grows.refl (db : EvalDb) : Grows db db :=
  ⟨Keeps.refl db, fun _ => List.prefix_refl _⟩

theorem Grows.trans (h : Grows db db') (h' : Grows db' db'') : Grows db db'' :=
  ⟨h.keeps.trans h'.keeps, fun finding => (h.verdicts finding).trans (h'.verdicts finding)⟩

theorem entries_insert (h : db.insert t id row = some db') :
    db'.rows.entries = db.rows.entries ++ [((t, id), row)] := by
  unfold EvalDb.insert at h
  split at h
  · rename_i hnew
    obtain rfl := Option.some.inj h
    exact Table.entries_insert hnew.1 row
  · cases h

theorem verdictsOf_insert (h : db.insert t id row = some db') (finding : String) :
    verdictsOf db' finding = verdictsOf db finding ++
      if t = .verdicts ∧ findingId .verdicts (id, row) = finding then [(id, row)] else [] := by
  rw [verdictsOf, tableRows, entries_insert h, List.filterMap_append, List.filter_append]
  congr 1
  by_cases ht : t = .verdicts
  · by_cases hf : findingId .verdicts (id, row) = finding <;> simp [ht, hf]
  · simp [ht]

theorem grows_insert (h : db.insert t id row = some db') : Grows db db' := by
  constructor
  · intro k r hr
    refine ⟨r, ?_, fun _ => Or.inl rfl⟩
    rw [EvalDb.get?_insert h, if_neg, hr]
    rintro rfl
    unfold EvalDb.insert at h
    split at h
    · rename_i hnew
      rw [hnew.1] at hr
      cases hr
    · cases h
  · intro finding
    rw [verdictIds, verdictIds, verdictsOf_insert h, List.map_append]
    exact List.prefix_append _ _

theorem grows_clearText (db : EvalDb) (t : EvalTable) (id : String) :
    Grows db (clearText db t id) := by
  constructor
  · intro k r hr
    show ∃ r', (db.rows.modify (t, id) fun r => r.clear t.freeText).get? k = some r' ∧ _
    rw [Table.get?_modify]
    by_cases hk : k = (t, id)
    · rw [if_pos hk, hr]
      refine ⟨_, rfl, ?_⟩
      intro column
      rw [Row.value_clear, hk]
      split
      · exact Or.inr ⟨‹_›, rfl⟩
      · exact Or.inl rfl
    · rw [if_neg hk, hr]
      exact ⟨r, rfl, fun _ => Or.inl rfl⟩
  · intro finding
    obtain ⟨f, hf, hsame⟩ := sameVerdicts_clearText db t id
    have hids : verdictIds (clearText db t id) finding = verdictIds db finding := by
      have hfinding : ∀ e, findingId .verdicts (f e) = findingId .verdicts e := by
        intro e
        show textOf ((f e).2.value "finding_id") = textOf (e.2.value "finding_id")
        rw [(hsame e).2 _ (by decide)]
      rw [verdictIds, verdictsOf, hf, List.filter_map, List.map_map, verdictIds, verdictsOf]
      have hfst : Prod.fst ∘ f = Prod.fst := funext fun e => (hsame e).1
      have hpred : (fun v => decide (findingId .verdicts v = finding)) ∘ f =
          fun v => decide (findingId .verdicts v = finding) :=
        funext fun e => by rw [Function.comp_apply, hfinding e]
      rw [hfst, hpred]
    rw [hids]

theorem grows_writeBatch (lib : JsonLibrary) {ready : List (ℕ × Prepared)} {outcomes : List _}
    (h : writeBatch lib db ready = some (db', outcomes)) : Grows db db' := by
  induction ready generalizing db outcomes with
  | nil =>
    obtain ⟨rfl, -⟩ := Prod.mk.inj (Option.some.inj h)
    exact Grows.refl db
  | cons r ready ih =>
    obtain ⟨n, r⟩ := r
    unfold writeBatch at h
    obtain ⟨⟨db₁, outcome⟩, hwrite, h⟩ := Option.bind_eq_some_iff.mp h
    obtain ⟨⟨db₂, more⟩, hmore, h⟩ := Option.bind_eq_some_iff.mp h
    obtain ⟨rfl, -⟩ := Prod.mk.inj (Option.some.inj h)
    refine Grows.trans ?_ (ih hmore)
    unfold writeRecord at hwrite
    split at hwrite
    · obtain ⟨rfl, -⟩ := Prod.mk.inj (Option.some.inj hwrite)
      exact Grows.refl _
    · split at hwrite
      · obtain ⟨rfl, -⟩ := Prod.mk.inj (Option.some.inj hwrite)
        exact Grows.refl _
      · obtain ⟨db₃, hinsert, hdb⟩ := Option.map_eq_some_iff.mp hwrite
        obtain ⟨rfl, -⟩ := Prod.mk.inj hdb
        exact grows_insert hinsert

theorem grows_ingestBatch (imp : Importer) (around : Surroundings) (db : EvalDb)
    (batch : List (ℕ × List UInt8)) : Grows db (ingestBatch imp around db batch).1 := by
  unfold ingestBatch
  dsimp only
  split
  · rename_i h
    exact grows_writeBatch imp.library h
  · exact Grows.refl db

end Growth

section Writes

variable {sha256 : List UInt8 → String} {db db' : EvalDb} {nowMs : ℤ} {l : EvalLink}
  {links inserted : List EvalLink}

/-- The finding is there. -/
def Refers (db : EvalDb) (l : EvalLink) : Prop :=
  (db.rows.get? (.findings, l.findingId)).isSome = true

/-- The finding has a verdict, or its verdict's id is taken. -/
def Closed (sha256 : List UInt8 → String) (db : EvalDb) (l : EvalLink) : Prop :=
  verdictIds db l.findingId ≠ [] ∨
    (db.rows.get? (.verdicts, verdictId sha256 l.findingId l.commit)).isSome = true

/-- The link became the first verdict of its finding. -/
structure Stored (sha256 : List UInt8 → String) (db : EvalDb) (l : EvalLink) : Prop where
  first : (verdictIds db l.findingId).head? = some (verdictId sha256 l.findingId l.commit)
  row : ∃ row, db.rows.get? (.verdicts, verdictId sha256 l.findingId l.commit) = some row ∧
    row.value "finding_id" = .text l.findingId ∧
    row.value "verdict" = .text "likely-addressed" ∧
    row.value "commit_sha" = .text l.commit ∧ row.value "auto" = .integer 1 ∧
    (row.value "note" = optTextValue l.note ∨ row.value "note" = .null)

theorem Keeps.isSome (h : Keeps db db') {k : EvalTable × String}
    (hk : (db.rows.get? k).isSome = true) : (db'.rows.get? k).isSome = true := by
  obtain ⟨row, hrow⟩ := Option.isSome_iff_exists.mp hk
  obtain ⟨row', hrow', -⟩ := h k row hrow
  rw [hrow']
  rfl

theorem Refers.grows (h : Refers db l) (hgrows : Grows db db') : Refers db' l :=
  Keeps.isSome hgrows.keeps h

theorem verdictIds_ne_nil (hgrows : Grows db db') {finding : String}
    (h : verdictIds db finding ≠ []) : verdictIds db' finding ≠ [] := by
  intro hnone
  have hprefix := hgrows.verdicts finding
  rw [hnone, List.prefix_nil] at hprefix
  exact h hprefix

theorem Closed.grows (h : Closed sha256 db l) (hgrows : Grows db db') : Closed sha256 db' l :=
  h.imp (verdictIds_ne_nil hgrows) (Keeps.isSome hgrows.keeps)

theorem Stored.grows (h : Stored sha256 db l) (hgrows : Grows db db') : Stored sha256 db' l := by
  constructor
  · obtain ⟨rest, hrest⟩ := List.head?_eq_some_iff.mp h.first
    obtain ⟨more, hmore⟩ := hgrows.verdicts l.findingId
    rw [← hmore, hrest]
    rfl
  · obtain ⟨row, hrow, hfinding, hverdict, hcommit, hauto, hnote⟩ := h.row
    obtain ⟨row', hrow', hvalue⟩ := hgrows.keeps _ row hrow
    have hfixed : ∀ column, column ≠ "note" → row'.value column = row.value column := by
      intro column hcolumn
      rcases hvalue column with hsame | ⟨hfree, -⟩
      · exact hsame
      · exact absurd (List.mem_singleton.mp hfree) hcolumn
    refine ⟨row', hrow', ?_, ?_, ?_, ?_, ?_⟩
    · rw [hfixed _ (by decide), hfinding]
    · rw [hfixed _ (by decide), hverdict]
    · rw [hfixed _ (by decide), hcommit]
    · rw [hfixed _ (by decide), hauto]
    · rcases hvalue "note" with hsame | ⟨-, hnull⟩
      · rwa [hsame]
      · exact Or.inr hnull

/-- The row of a verdict meets the constraints of its table. -/
theorem verdictRow_insert (hrefers : Refers db l) (hdue : l.Due sha256 db) (nowMs : ℤ) :
    ∃ db', db.insert .verdicts (verdictId sha256 l.findingId l.commit) (verdictRow l nowMs) =
      some db' := by
  apply EvalDb.insert_isSome hdue.2
  · cases hnote : l.note <;>
      simp [EvalTable.conforms, EvalTable.columns, verdictRow, Row.value, Column.accepts, text,
        optText, integer, optTextValue, hnote, List.lookup_cons]
  · intro column parent hreference
    obtain ⟨rfl, rfl⟩ := Prod.mk.inj (Option.some.inj hreference)
    exact ⟨l.findingId, rfl, hrefers⟩

/-- What the statement does with a link to a finding that is there. -/
theorem insertVerdict_spec (sha256 : List UInt8 → String) (hrefers : Refers db l) (nowMs : ℤ) :
    ∃ db' inserted, insertVerdict sha256 nowMs db l = some (db', inserted) ∧ Grows db db' ∧
      Closed sha256 db' l ∧
      (inserted = [] ∨ inserted = [l] ∧ verdictIds db l.findingId = [] ∧ Stored sha256 db' l) := by
  unfold insertVerdict
  by_cases hdue : l.Due sha256 db
  · obtain ⟨db', hinsert⟩ := verdictRow_insert hrefers hdue nowMs
    have hids : verdictIds db l.findingId = [] := by
      rw [verdictIds, hdue.1]
      rfl
    have hids' : verdictIds db' l.findingId =
        [verdictId sha256 l.findingId l.commit] := by
      rw [verdictIds, verdictsOf_insert hinsert, hdue.1,
        if_pos ⟨rfl, show textOf (.text l.findingId) = _ from rfl⟩]
      rfl
    rw [if_pos hdue, hinsert]
    refine ⟨db', [l], rfl, grows_insert hinsert, ?_, Or.inr ⟨rfl, hids, ?_, ?_⟩⟩
    · left
      rw [hids']
      simp
    · rw [hids']
      rfl
    · refine ⟨verdictRow l nowMs, ?_, rfl, rfl, rfl, rfl, Or.inl rfl⟩
      rw [EvalDb.get?_insert hinsert, if_pos rfl]
  · rw [if_neg hdue]
    refine ⟨db, [], rfl, Grows.refl db, ?_, Or.inl rfl⟩
    by_contra hopen
    apply hdue
    rw [Closed, not_or, not_not, Option.not_isSome_iff_eq_none] at hopen
    exact ⟨List.map_eq_nil_iff.mp hopen.1, hopen.2⟩

/-- A batch commits: it closes all its findings, and inserts no two verdicts for one. -/
theorem writeLinks_spec (sha256 : List UInt8 → String) (nowMs : ℤ)
    (hrefers : ∀ l ∈ links, Refers db l) :
    ∃ db' inserted, writeLinks sha256 nowMs db links = some (db', inserted) ∧ Grows db db' ∧
      (∀ l ∈ links, Closed sha256 db' l) ∧ (inserted.map EvalLink.findingId).Nodup ∧
      ∀ l ∈ inserted, l ∈ links ∧ verdictIds db l.findingId = [] ∧ Stored sha256 db' l := by
  induction links generalizing db with
  | nil =>
    refine ⟨db, [], rfl, Grows.refl db, ?_, List.nodup_nil, ?_⟩
    · intro l hl
      cases hl
    · intro l hl
      cases hl
  | cons l links ih =>
    obtain ⟨db₁, first, hinsert, hgrows, hclosed, hfirst⟩ :=
      insertVerdict_spec sha256 (hrefers l List.mem_cons_self) nowMs
    obtain ⟨db', more, hmore, hgrows', hclosed', hnodup, hstored⟩ :=
      ih fun l' hl' => (hrefers l' (List.mem_cons_of_mem _ hl')).grows hgrows
    refine ⟨db', first ++ more, ?_, hgrows.trans hgrows', ?_, ?_, ?_⟩
    · unfold writeLinks
      rw [hinsert]
      show (writeLinks sha256 nowMs db₁ links).bind _ = _
      rw [hmore]
      rfl
    · intro l' hl'
      rcases List.mem_cons.mp hl' with rfl | hl'
      · exact hclosed.grows hgrows'
      · exact hclosed' l' hl'
    · rcases hfirst with rfl | ⟨rfl, -, hstored₁⟩
      · exact hnodup
      · rw [List.singleton_append, List.map_cons, List.nodup_cons]
        refine ⟨?_, hnodup⟩
        intro hmem
        obtain ⟨l', hl', hsame⟩ := List.mem_map.mp hmem
        have hempty := (hstored l' hl').2.1
        have hhead := hstored₁.first
        rw [← hsame, hempty] at hhead
        cases hhead
    · intro l' hl'
      rcases List.mem_append.mp hl' with hl' | hl'
      · rcases hfirst with rfl | ⟨rfl, hempty, hstored₁⟩
        · cases hl'
        · obtain rfl := List.mem_singleton.mp hl'
          exact ⟨List.mem_cons_self, hempty, hstored₁.grows hgrows'⟩
      · obtain ⟨hmem, hempty, hstored'⟩ := hstored l' hl'
        refine ⟨List.mem_cons_of_mem _ hmem, ?_, hstored'⟩
        have hprefix := hgrows.verdicts l'.findingId
        rwa [hempty, List.prefix_nil] at hprefix

end Writes

section Links

variable {sha256 : List UInt8 → String} {db db' : EvalDb} {l : EvalLink}

/-- The rows of the finding and its run say this. -/
def Describes (db : EvalDb) (f : OpenFinding) : Prop :=
  ∃ row run, db.rows.get? (.findings, f.findingId) = some row ∧
    row.value "side" = .text "+" ∧ row.value "line_hash" = .text f.lineHash ∧
    textOf (row.value "repo") = f.repo ∧ textOf (row.value "path") = f.path ∧
    db.rows.get? (.reviewRuns, textOf (row.value "run_id")) = some run ∧
    textOf (run.value "head_sha") = f.headSha ∧ integerOf (run.value "started_at") = f.startedAt

/-- The walk over the repository of the finding found the commit, and the note says how. -/
def Justified (sha256 : List UInt8 → String) (db : EvalDb) (l : EvalLink) : Prop :=
  ∃ f git, f.findingId = l.findingId ∧ Describes db f ∧ hasFile git f.path "HEAD" = true ∧
    hasLine sha256 git f.path f.lineHash "HEAD" = false ∧
    ∃ w listed pr, walkStart git f.headSha f.startedAt = .ok (.ok w) ∧
      git.revList w.start f.path = .ok listed ∧
      (l.note = joinNotes none pr ∧
          Observed sha256 git f.path f.lineHash f.startedAt w listed l.commit ∨
        l.note = joinNotes (some inferredNote) pr ∧
          Inferred sha256 git f.headSha f.path f.lineHash f.startedAt w listed l.commit)

theorem Describes.grows {f : OpenFinding} (h : Describes db f) (hgrows : Grows db db') :
    Describes db' f := by
  obtain ⟨row, run, hrow, hside, hhash, hrepo, hpath, hrun, hhead, hstarted⟩ := h
  obtain ⟨row', hrow', hvalue⟩ := hgrows.keeps _ row hrow
  obtain ⟨run', hrun', hrunValue⟩ := hgrows.keeps _ run hrun
  have hfixed : ∀ column, column ∉ ["line_text", "claim"] →
      row'.value column = row.value column := by
    intro column hcolumn
    rcases hvalue column with hsame | ⟨hfree, -⟩
    · exact hsame
    · exact absurd hfree hcolumn
  have hrunFixed : ∀ column, run'.value column = run.value column := by
    intro column
    rcases hrunValue column with hsame | ⟨hfree, -⟩
    · exact hsame
    · cases hfree
  refine ⟨row', run', hrow', ?_, ?_, ?_, ?_, ?_, ?_, ?_⟩
  · rw [hfixed _ (by decide), hside]
  · rw [hfixed _ (by decide), hhash]
  · rw [hfixed _ (by decide), hrepo]
  · rw [hfixed _ (by decide), hpath]
  · rw [hfixed _ (by decide), hrun']
  · rw [hrunFixed, hhead]
  · rw [hrunFixed, hstarted]

theorem Justified.grows (h : Justified sha256 db l) (hgrows : Grows db db') :
    Justified sha256 db' l := by
  obtain ⟨f, git, hfinding, hdescribes, hrest⟩ := h
  exact ⟨f, git, hfinding, hdescribes.grows hgrows, hrest⟩

theorem describes_of_open {f : OpenFinding} (h : f ∈ openFindings db) :
    Describes db f ∧ verdictsOf db f.findingId = [] := by
  unfold openFindings at h
  rw [List.mem_insertionSort, List.mem_filterMap] at h
  obtain ⟨⟨id, row⟩, hmem, hopen⟩ := h
  have hrow := mem_tableRows.mp hmem
  unfold openFinding at hopen
  split at hopen
  · rename_i hash run hhash hrun
    split at hopen
    · rename_i hside
      obtain rfl := Option.some.inj hopen
      exact ⟨⟨row, run, hrow, hside.1, hhash, rfl, rfl, hrun, rfl, rfl⟩, hside.2⟩
    · cases hopen
  · cases hopen

theorem outcomeOf_commit {found : Call Outcome} {commit : String}
    (h : (outcomeOf found).commit = some commit) :
    ∃ outcome, found = .ok outcome ∧ outcome.commit = some commit := by
  cases found with
  | ok outcome => exact ⟨outcome, rfl, h⟩
  | error e => cases e <;> cases h

/-- A pass has links only to findings that are there, and for commits the walk found. -/
theorem passLinks_justified (gits : String → Git) (hasGit : String → Bool)
    (prNote : OpenFinding → String → Option String)
    (h : l ∈ passLinks sha256 gits hasGit prNote db) :
    Refers db l ∧ Justified sha256 db l := by
  have hfold : ∀ findings : List OpenFinding, (∀ f ∈ findings, f ∈ openFindings db) →
      ∀ c : Collected, Faithful sha256 gits c.refLines →
        (∀ l ∈ c.links, Refers db l ∧ Justified sha256 db l) →
        ∀ l ∈ (findings.foldl (collect sha256 gits hasGit prNote) c).links,
          Refers db l ∧ Justified sha256 db l := by
    intro findings
    induction findings with
    | nil =>
      intro _ c _ hlinks
      exact hlinks
    | cons f findings ih =>
      intro hopen c hcache hlinks
      rw [List.foldl_cons]
      apply ih fun f' hf' => hopen f' (List.mem_cons_of_mem _ hf')
      · unfold collect
        split
        · exact findChange_faithful hcache
        · exact hcache
      · unfold collect
        split
        · intro l hl
          rcases List.mem_append.mp hl with hl | hl
          · exact hlinks l hl
          · obtain ⟨commit, hcommit, rfl⟩ := List.mem_map.mp hl
            obtain ⟨outcome, hfound, hoc⟩ := outcomeOf_commit (Option.mem_toList.mp hcommit)
            obtain ⟨hdescribes, -⟩ := describes_of_open (hopen f List.mem_cons_self)
            obtain ⟨hfile, hline, w, listed, hstart, hlisted, hhow⟩ :=
              change_sound gits f.repo hcache hfound hoc
            refine ⟨?_, f, gits f.repo, rfl, hdescribes, hfile, hline, w, listed,
              prNote f commit, hstart, hlisted, ?_⟩
            · obtain ⟨row, run, hrow, -⟩ := hdescribes
              show (db.rows.get? (.findings, f.findingId)).isSome = true
              rw [hrow]
              rfl
            · rw [hfound]
              rcases hhow with ⟨hnote, hobserved⟩ | ⟨hnote, hinferred⟩
              · exact Or.inl ⟨by rw [outcomeOf, hnote], hobserved⟩
              · exact Or.inr ⟨by rw [outcomeOf, hnote], hinferred⟩
        · exact hlinks
  exact hfold _ (fun _ hf => hf) _ faithful_empty (fun _ hl => by cases hl) l h

end Links

section Runs

variable {imp : Importer} {sha256 : List UInt8 → String} {w w' : World} {a : Action}

/-- What holds of the passes and of what they have written. -/
structure Inv (sha256 : List UInt8 → String) (w : World) : Prop where
  pending : ∀ pass ∈ w.passes, ∀ l ∈ pass.links, Refers w.db l ∧ Justified sha256 w.db l
  once : (w.inserted.map EvalLink.findingId).Nodup
  inserted : ∀ l ∈ w.inserted, Stored sha256 w.db l ∧ Justified sha256 w.db l
  written : ∀ l ∈ w.written, Closed sha256 w.db l

/-- Everything but a new insertion survives a change of the database. -/
theorem Inv.grows (h : Inv sha256 w) {db : EvalDb} (hgrows : Grows w.db db) :
    Inv sha256 { w with db := db } where
  pending pass hpass l hl :=
    ⟨(h.pending pass hpass l hl).1.grows hgrows, (h.pending pass hpass l hl).2.grows hgrows⟩
  once := h.once
  inserted l hl := ⟨(h.inserted l hl).1.grows hgrows, (h.inserted l hl).2.grows hgrows⟩
  written l hl := (h.written l hl).grows hgrows

theorem Inv.passes (h : Inv sha256 w) {passes : List Writing}
    (hpending : ∀ pass ∈ passes, ∀ l ∈ pass.links, Refers w.db l ∧ Justified sha256 w.db l) :
    Inv sha256 { w with passes := passes } where
  pending := hpending
  once := h.once
  inserted := h.inserted
  written := h.written

theorem mem_after {pass rest : Writing} (h : rest ∈ pass.after) {l : EvalLink}
    (hl : l ∈ rest.links) : l ∈ pass.links := by
  unfold Writing.after at h
  split at h
  · cases h
  · obtain rfl := List.mem_singleton.mp h
    exact List.mem_of_mem_drop hl

/-- The next batch of a pass can always be committed. -/
theorem Inv.commits (h : Inv sha256 w) {pass : Writing} (hpass : pass ∈ w.passes) :
    ∃ db inserted, writeLinks sha256 pass.nowMs w.db (pass.links.take batchRows) =
        some (db, inserted) ∧ Grows w.db db ∧
      (∀ l ∈ pass.links.take batchRows, Closed sha256 db l) ∧
      (inserted.map EvalLink.findingId).Nodup ∧
      ∀ l ∈ inserted, l ∈ pass.links.take batchRows ∧ verdictIds w.db l.findingId = [] ∧
        Stored sha256 db l :=
  writeLinks_spec sha256 pass.nowMs fun l hl =>
    (h.pending pass hpass l (List.mem_of_mem_take hl)).1

/-- Every step keeps the invariant. -/
theorem Inv.step (h : Inv sha256 w) (hstep : step imp sha256 w a = some w') : Inv sha256 w' := by
  cases a with
  | ingest around batch =>
    obtain rfl := Option.some.inj hstep
    exact h.grows (grows_ingestBatch imp around w.db batch)
  | sweep t id =>
    obtain rfl := Option.some.inj hstep
    exact h.grows (grows_clearText w.db t id)
  | look gits hasGit prNote nowMs =>
    obtain rfl := Option.some.inj hstep
    apply h.passes
    intro pass hpass l hl
    rcases List.mem_append.mp hpass with hpass | hpass
    · exact h.pending pass hpass l hl
    · obtain rfl := List.mem_singleton.mp hpass
      exact passLinks_justified gits hasGit prNote hl
  | stop k =>
    obtain ⟨pass, -, rfl⟩ := Option.map_eq_some_iff.mp hstep
    exact h.passes fun pass hpass => h.pending pass (List.mem_of_mem_eraseIdx hpass)
  | write k =>
    obtain ⟨pass, hk, hw⟩ := Option.map_eq_some_iff.mp hstep
    have hpass : pass ∈ w.passes := List.mem_of_getElem? hk
    obtain ⟨db, inserted, hwrite, hgrows, hclosed, hnodup, hinserted⟩ := h.commits hpass
    rw [hwrite] at hw
    obtain rfl := hw
    refine ⟨?_, ?_, ?_, ?_⟩
    · intro rest hrest l hl
      rcases mem_replaceAt hrest with hold | hnew
      · have hboth := h.pending rest hold l hl
        exact ⟨hboth.1.grows hgrows, hboth.2.grows hgrows⟩
      · have hboth := h.pending pass hpass l (mem_after hnew hl)
        exact ⟨hboth.1.grows hgrows, hboth.2.grows hgrows⟩
    · show ((w.inserted ++ inserted).map EvalLink.findingId).Nodup
      rw [List.map_append, List.nodup_append']
      refine ⟨h.once, hnodup, ?_⟩
      intro finding hold hnew
      -- an old insertion left a verdict, a new one found none
      obtain ⟨l, hl, rfl⟩ := List.mem_map.mp hold
      obtain ⟨l', hl', hsame⟩ := List.mem_map.mp hnew
      have hempty := (hinserted l' hl').2.1
      have hfirst := (h.inserted l hl).1.first
      rw [← hsame, hempty] at hfirst
      cases hfirst
    · intro l hl
      rcases List.mem_append.mp hl with hl | hl
      · exact ⟨(h.inserted l hl).1.grows hgrows, (h.inserted l hl).2.grows hgrows⟩
      · obtain ⟨hmem, -, hstored⟩ := hinserted l hl
        exact ⟨hstored, (h.pending pass hpass l (List.mem_of_mem_take hmem)).2.grows hgrows⟩
    · intro l hl
      rcases List.mem_append.mp hl with hl | hl
      · exact (h.written l hl).grows hgrows
      · exact hclosed l hl

theorem inv_of_run {db : EvalDb} (h : Reaches (step imp sha256) { db := db } w) :
    Inv sha256 w := by
  apply h.invariant fun s a t hs _ hstep => hs.step hstep
  refine ⟨?_, List.nodup_nil, ?_, ?_⟩
  · intro pass hpass
    cases hpass
  · intro l hl
    cases hl
  · intro l hl
    cases hl

/-- A review of a file at one commit, with one finding. -/
def oneFinding : EvalDb :=
  ((EvalDb.empty.insert .reviewRuns "run-1"
    [("agent", .text "blind-review"), ("mode", .text "mechanical"), ("requested_model", .null),
      ("model_id", .text ""), ("effort", .null), ("cli_version", .text ""), ("repo", .text "/r"),
      ("repo_identity", .null), ("base", .text "main"), ("base_sha", .text "reviewed"),
      ("head_sha", .text "reviewed"), ("input_sha256", .text "x"), ("units_total", .integer 1),
      ("units_failed", .integer 0), ("input_tokens", .integer 0), ("output_tokens", .integer 0),
      ("cache_read_tokens", .integer 0), ("cache_creation_tokens", .integer 0),
      ("session_id", .null), ("harness", .null), ("started_at", .integer 1),
      ("finished_at", .integer 2), ("ingested_at", .integer 3)]).bind fun db =>
    db.insert .findings "f1"
      [("run_id", .text "run-1"), ("repo", .text "/r"), ("repo_identity", .null),
        ("path", .text "x.py"), ("side", .text "+"), ("line", .integer 1), ("line_text", .null),
        ("line_hash", .text (digestOf "x = 1".toUTF8.toList)), ("severity", .text "high"),
        ("confidence", .text "medium"), ("category", .text "unknown"), ("claim", .null),
        ("logged_at", .integer 4), ("ingested_at", .integer 5),
        ("payload_expiry", .integer 6)]).getD EvalDb.empty

/-- A pass over the review, and what it has written. -/
theorem oneFinding_linked : ∃ w : World,
    Reaches (step escapeImporter digestOf) { db := oneFinding } w ∧
      w.inserted = [⟨"f1", "fixed", none⟩] := by
  apply exists_run_of_allowed (l := [.look (fun _ => twoCommits) (fun _ => true)
    (fun _ _ => none) 10, .write 0])
  · intro _ _ _
    trivial
  · decide +kernel

/-- A pass can always commit its next batch; each finding of a committed batch has a verdict from
then on, unless the id of its verdict was taken. -/
theorem batches_commit {db : EvalDb} (h : Reaches (step imp sha256) { db := db } w) :
    (∀ pass ∈ w.passes, ∃ db inserted,
        writeLinks sha256 pass.nowMs w.db (pass.links.take batchRows) = some (db, inserted)) ∧
      ∀ l ∈ w.written, verdictsOf w.db l.findingId ≠ [] ∨
        (w.db.rows.get? (.verdicts, verdictId sha256 l.findingId l.commit)).isSome = true := by
  have hinv := inv_of_run h
  constructor
  · intro pass hpass
    obtain ⟨db, inserted, hwrite, -⟩ := hinv.commits hpass
    exact ⟨db, inserted, hwrite⟩
  · intro l hl
    rcases hinv.written l hl with hids | htaken
    · left
      intro hnone
      apply hids
      rw [verdictIds, hnone]
      rfl
    · exact Or.inr htaken

theorem batches_commit_of_one : ∃ w : World, w.inserted = [⟨"f1", "fixed", none⟩] ∧
    (∀ pass ∈ w.passes, ∃ db inserted,
        writeLinks digestOf pass.nowMs w.db (pass.links.take batchRows) = some (db, inserted)) ∧
      ∀ l ∈ w.written, verdictsOf w.db l.findingId ≠ [] ∨
        (w.db.rows.get? (.verdicts, verdictId digestOf l.findingId l.commit)).isSome = true := by
  obtain ⟨w, hrun, hinserted⟩ := oneFinding_linked
  exact ⟨w, hinserted, batches_commit hrun⟩

end Runs

end Hippo.EvalLinkage
