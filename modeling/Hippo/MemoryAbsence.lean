import Hippo.MemoryWrites

/-!
# Deleted memories

The absence check of a poll moves every document of an absent file of its sources one state on,
to `unavailable` and then to `tombstoned`; the ingests before it spare these documents. Discovery
lists the files that are on the disk. So only a file that is configured explicitly is missed.
-/
namespace Hippo.MemoryCatalog
open MemoryLinks MemoryDb Memory Transition

/-- What the absence check makes of the state of a document. -/
def nextState (config : AutoMemory) : DocumentState → DocumentState
  | .active => if config.confirmPolls ≤ 1 then .tombstoned else .unavailable
  | _ => .tombstoned

section Tombstone

variable {γ : Type} {w : World γ} {c c' : MemoryCatalog γ} {d e : ℕ} {x : MemoryDocument}

theorem stateOf_eq_some {s : DocumentState} :
    c.stateOf d = some s ↔ ∃ x, c.documents.get? d = some x ∧ x.state = s :=
  Option.map_eq_some_iff

theorem deleteProjection_of_removable {st : KnowledgeStore (MemoryNode γ)} {n : ℕ}
    (vecOk : Bool) (h : ∀ l ∈ st.links, l.node = n → l.table = .memoryChunks) :
    ∃ st', st.deleteProjection n vecOk = .ok st' := by
  refine ⟨_, if_neg ?_⟩
  rintro ⟨l, hl, hnode, htable⟩
  exact htable (h l hl hnode)

/-- A node is linked to the chunks of one revision. -/
theorem link_unique (hs : Sound w) {n r r' : ℕ} (hl : ⟨.memoryChunks, n, r⟩ ∈ w.db.store.links)
    (hl' : ⟨.memoryChunks, n, r'⟩ ∈ w.db.store.links) : r = r' := by
  obtain ⟨u, hu⟩ := hs.store.linked n r hl
  obtain ⟨u', hu'⟩ := hs.store.linked n r' hl'
  have heq := KnowledgeStore.nodeAt_inj hu hu'
  exact congrArg ProjectionUuid.revision heq

/-- The tombstone of a document whose node can be removed is written, and spares the others. -/
theorem tombstoneDocument_ok (now : ℤ) (vecOk : Bool) (hs : Sound { w with db := c.toMemoryDb })
    (hx : c.documents.get? d = some x) (hlive : x.state ≠ .tombstoned)
    (hremovable : Removable c.toMemoryDb d) :
    ∃ c', c.tombstoneDocument d now vecOk = .ok c' ∧
      Sound { w with db := c'.toMemoryDb } ∧ c'.stateOf d = some .tombstoned ∧
      c'.sourcePath = c.sourcePath ∧ ∀ e, e ≠ d → Follows e c c' := by
  have hwritten : ∃ db', c.toMemoryDb.tombstone d (x.activeRevision.bind c.store.linkedNode) now
      vecOk = .ok db' := by
    cases hactive : x.activeRevision with
    | none => exact ⟨_, rfl⟩
    | some r =>
      obtain ⟨n, hn, hchunks⟩ := hremovable x hx r hactive
      obtain ⟨st', hst'⟩ := deleteProjection_of_removable vecOk hchunks
      rw [Option.bind_some, Option.mem_def.mp hn]
      simp only [MemoryDb.tombstone, hst']
      exact ⟨_, rfl⟩
  obtain ⟨db', hdb⟩ := hwritten
  refine ⟨{ c with
    toMemoryDb := db'
    source := Function.update c.source c.revisions.nextRowid ⟨"", now, 0, none⟩ }, ?_,
    hs.tombstone hx hremovable hdb, ?_, rfl, fun e he => ?_⟩
  · simp only [tombstoneDocument, hx, if_neg hlive, hdb]
  all_goals obtain ⟨rev, store, -, -, -, hstore, rfl⟩ := tombstone_ok hdb
  · rw [stateOf_eq_some]
    refine ⟨x.bury c.revisions.nextRowid, ?_, rfl⟩
    rw [Table.get?_modify_self, hx, Option.map_some]
  · have hrow := Table.get?_modify_of_ne c.documents he
      (MemoryDocument.bury c.revisions.nextRowid)
    rcases hstore with ⟨-, rfl⟩ | ⟨n, hn, hdel⟩
    · exact .of_row hrow rfl rfl
    · obtain ⟨r, hr, hlinked⟩ := Option.bind_eq_some_iff.mp hn
      have hlink := KnowledgeStore.linkedNode_eq_some hlinked
      refine ⟨rfl, by rw [stateOf, stateOf, hrow], ?_⟩
      refine removable_of_filter (KnowledgeStore.deleteProjection_ok hdel).2 ?_
      intro y hy i hi
      rw [hrow] at hy
      refine ⟨⟨y, hy, hi⟩, ?_⟩
      rintro m hm rfl
      -- a node of the revision `i` of another document would be of the revision `r` of `d` too
      obtain rfl : i = r := link_unique hs hm hlink
      obtain ⟨rev', hrev', hdoc'⟩ := hs.keyed.db.pointers e y i hy (Or.inr hi)
      obtain ⟨rev'', hrev'', hdoc''⟩ := hs.keyed.db.pointers d x i hx (Or.inr hr)
      rw [hrev', Option.some.injEq] at hrev''
      subst hrev''
      exact he (hdoc'.symm.trans hdoc'')

end Tombstone

section Rows

variable {γ : Type} {w : World γ} {poll : Poll} {c₀ : MemoryCatalog γ} {c : Conn γ} {d : ℕ}
  {done done' : ℕ → Prop}

/-- The absence check on its way from the tables `c₀`: it has advanced the documents of `done`
and spares the others. What is committed may be behind. -/
structure Progress (w : World γ) (poll : Poll) (c₀ : MemoryCatalog γ) (done : ℕ → Prop)
    (c : Conn γ) : Prop where
  sound : Sound { w with db := c.working.toMemoryDb }
  committed_sound : Sound { w with db := c.committed.toMemoryDb }
  others : ∀ e, ¬ done e → Follows e c₀ c.working
  advanced : ∀ e, done e → c.working.sourcePath e = c₀.sourcePath e ∧
    c.working.stateOf e = (c₀.stateOf e).map (nextState poll.config)
  committed : ∀ e, c.committed.sourcePath e = c₀.sourcePath e ∧
    (c.committed.stateOf e = c₀.stateOf e ∨
      c.committed.stateOf e = (c₀.stateOf e).map (nextState poll.config))

theorem Progress.opened (poll : Poll) (hs : Sound { w with db := c₀.toMemoryDb }) :
    Progress w poll c₀ (fun _ => False) (.opened c₀) where
  sound := hs
  committed_sound := hs
  others := fun e _ => .refl e c₀
  advanced := fun _ h => h.elim
  committed := fun _ => ⟨rfl, Or.inl rfl⟩

theorem Progress.congr (h : Progress w poll c₀ done c) (hiff : ∀ e, done e ↔ done' e) :
    Progress w poll c₀ done' c := by
  have heq : done = done' := by
    ext e
    exact hiff e
  rwa [← heq]

theorem Progress.working_path (h : Progress w poll c₀ done c) (e : ℕ) :
    c.working.sourcePath e = c₀.sourcePath e := by
  by_cases he : done e
  · exact (h.advanced e he).1
  · exact (h.others e he).path

/-- A commit of tables in which one more document is advanced. -/
theorem Progress.commit (h : Progress w poll c₀ done c) {m : MemoryCatalog γ}
    (hsound : Sound { w with db := m.toMemoryDb })
    (hd : m.stateOf d = (c₀.stateOf d).map (nextState poll.config))
    (hpath : m.sourcePath d = c₀.sourcePath d)
    (hfollows : ∀ e, e ≠ d → Follows e c.working m) :
    Progress w poll c₀ (fun e => e = d ∨ done e) (.opened m) := by
  have hothers : ∀ e, ¬ (e = d ∨ done e) → Follows e c₀ m := by
    intro e he
    obtain ⟨hne, hdone⟩ := not_or.mp he
    exact (h.others e hdone).trans (hfollows e hne)
  have hadvanced : ∀ e, (e = d ∨ done e) → m.sourcePath e = c₀.sourcePath e ∧
      m.stateOf e = (c₀.stateOf e).map (nextState poll.config) := by
    intro e he
    by_cases hne : e = d
    · subst hne
      exact ⟨hpath, hd⟩
    · obtain ⟨holdPath, hold⟩ := h.advanced e (he.resolve_left hne)
      have hf := hfollows e hne
      exact ⟨hf.path.trans holdPath, hf.state.trans hold⟩
  refine ⟨hsound, hsound, hothers, hadvanced, fun e => ?_⟩
  by_cases he : e = d ∨ done e
  · obtain ⟨hp, hst⟩ := hadvanced e he
    exact ⟨hp, Or.inr hst⟩
  · exact ⟨(hothers e he).path, Or.inl (hothers e he).state⟩

/-- The mark is written, but it is not committed. -/
theorem Progress.mark (h : Progress w poll c₀ done c)
    (hd : c.working.stateOf d = some .active) (hfree : ¬ done d)
    (hconfirm : ¬ poll.config.confirmPolls ≤ 1) :
    Progress w poll c₀ (fun e => e = d ∨ done e)
      { c with working := c.working.markMissing d } := by
  have hfollows : ∀ e, e ≠ d → Follows e c.working (c.working.markMissing d) := fun e he =>
    .of_row (Table.get?_modify_of_ne _ he _) rfl rfl
  obtain ⟨x, hx, hstate⟩ := stateOf_eq_some.mp hd
  refine ⟨h.sound.missing d, h.committed_sound, fun e he => ?_, fun e he => ?_, h.committed⟩
  · obtain ⟨hne, hdone⟩ := not_or.mp he
    exact (h.others e hdone).trans (hfollows e hne)
  · by_cases hne : e = d
    · subst hne
      refine ⟨(h.others e hfree).path, ?_⟩
      rw [← (h.others e hfree).state, hd, Option.map_some, nextState, if_neg hconfirm,
        stateOf_eq_some]
      refine ⟨x.missing, ?_, rfl⟩
      exact (Table.get?_modify_self _ e _).trans (by rw [hx, Option.map_some])
    · obtain ⟨hpath, hst⟩ := h.advanced e (he.resolve_left hne)
      exact ⟨hpath, (hfollows e hne).state.trans hst⟩

theorem prune_opened (m : MemoryCatalog γ) (d : ℕ) (retention : Retention)
    (hs : Sound { w with db := m.toMemoryDb }) :
    ∃ m', (Conn.opened m).prune d retention = .opened m' ∧
      Sound { w with db := m'.toMemoryDb } ∧ ∀ e, Follows e m m' := by
  unfold Conn.prune
  split
  · exact ⟨m, rfl, hs, fun e => .refl e m⟩
  · exact ⟨m.pruneDocumentRevisions d retention, rfl, hs.prune d retention,
      fun e => follows_prune d e m retention⟩

/-- The tombstone of a document, with the pruning after it. -/
theorem Progress.tombstone (h : Progress w poll c₀ done c) (hfree : ¬ done d)
    {m : MemoryCatalog γ} (hm : Sound { w with db := m.toMemoryDb })
    (hlive : ∃ s, m.stateOf d = some s ∧ s ≠ .tombstoned)
    (hremovable : Removable m.toMemoryDb d) (hpath : m.sourcePath d = c.working.sourcePath d)
    (hnext : (c₀.stateOf d).map (nextState poll.config) = some .tombstoned)
    (hfollows : ∀ e, e ≠ d → Follows e c.working m) :
    ∃ c', Conn.tombstone poll ⟨c.committed, m⟩ d = .ok (c', true) ∧
      Progress w poll c₀ (fun e => e = d ∨ done e)
        (c'.prune d (poll.config.retention poll.now)) := by
  obtain ⟨s, hs, hne⟩ := hlive
  obtain ⟨x, hx, rfl⟩ := stateOf_eq_some.mp hs
  obtain ⟨m', hok, hsound, hburied, hsame, hspared⟩ :=
    tombstoneDocument_ok poll.now poll.vecOk hm hx hne hremovable
  obtain ⟨m'', hprune, hpruned, hkept⟩ :=
    prune_opened m' d (poll.config.retention poll.now) hsound
  refine ⟨.opened m', by simp only [Conn.tombstone, hok], ?_⟩
  rw [hprune]
  refine h.commit hpruned ?_ ?_ fun e he => ?_
  · rw [(hkept d).state, hburied, hnext]
  · rw [(hkept d).path, hsame, hpath, (h.others d hfree).path]
  · exact ((hfollows e he).trans (hspared e he)).trans (hkept e)

/-- One row: the document gets its next state. -/
theorem Progress.row (h : Progress w poll c₀ done c) (hfree : ¬ done d) {s : DocumentState}
    (hs : c₀.stateOf d = some s) (hlive : s ≠ .tombstoned)
    (hremovable : nextState poll.config s = .tombstoned → Removable c₀.toMemoryDb d) :
    ∃ c', c.reconcileRow poll d = .ok c' ∧
      Progress w poll c₀ (fun e => e = d ∨ done e) c' := by
  have hfollows := h.others d hfree
  have hstate : c.working.stateOf d = some s := hfollows.state.trans hs
  obtain ⟨x, hx, rfl⟩ := stateOf_eq_some.mp hstate
  have hnext : nextState poll.config x.state = .tombstoned →
      (c₀.stateOf d).map (nextState poll.config) = some .tombstoned := by
    intro heq
    rw [hs, Option.map_some, heq]
  cases hx' : x.state with
  | tombstoned => exact absurd hx' hlive
  | unavailable =>
    rw [hx'] at hremovable hnext
    obtain ⟨c', hok, hprogress⟩ := h.tombstone hfree h.sound ⟨_, hstate, hlive⟩
      (hfollows.removable (hremovable rfl)) rfl (hnext rfl) fun e _ => .refl e _
    refine ⟨_, ?_, hprogress⟩
    simp only [Conn.reconcileRow, Conn.reconcileMissingSource, hx, hx']
    rw [hok]
    rfl
  | active =>
    rw [hx'] at hstate
    by_cases hconfirm : poll.config.confirmPolls ≤ 1
    · have hgone : nextState poll.config x.state = .tombstoned := by
        rw [hx']
        exact if_pos hconfirm
      have hrow : (c.working.markMissing d).documents.get? d = some x.missing :=
        (Table.get?_modify_self _ d _).trans (by rw [hx, Option.map_some])
      have hremovable' : Removable (c.working.markMissing d).toMemoryDb d := by
        intro y hy r hr
        rw [hrow, Option.mem_some_iff] at hy
        subst hy
        exact hfollows.removable (hremovable hgone) x hx r hr
      obtain ⟨c', hok, hprogress⟩ := h.tombstone (m := c.working.markMissing d) hfree
        (h.sound.missing d) ⟨_, stateOf_eq_some.mpr ⟨_, hrow, rfl⟩, nofun⟩ hremovable' rfl
        (hnext hgone) fun e he => .of_row (Table.get?_modify_of_ne _ he _) rfl rfl
      refine ⟨_, ?_, hprogress⟩
      simp only [Conn.reconcileRow, Conn.reconcileMissingSource, hx, hx', if_pos hconfirm]
      rw [hok]
      rfl
    · refine ⟨_, ?_, h.mark hstate hfree hconfirm⟩
      simp only [Conn.reconcileRow, Conn.reconcileMissingSource, hx, hx', if_neg hconfirm]
      rfl

theorem Progress.rows {ds : List ℕ} (h : Progress w poll c₀ done c) (hnodup : ds.Nodup)
    (hds : ∀ d ∈ ds, ¬ done d ∧ ∃ s, c₀.stateOf d = some s ∧ s ≠ .tombstoned ∧
      (nextState poll.config s = .tombstoned → Removable c₀.toMemoryDb d)) :
    ∃ c', Conn.reconcileRows poll ds c = .ok c' ∧
      Progress w poll c₀ (fun e => e ∈ ds ∨ done e) c' := by
  induction ds generalizing c done with
  | nil => exact ⟨c, rfl, h.congr fun e => by simp⟩
  | cons d ds ih =>
    obtain ⟨hfree, s, hs, hlive, hremovable⟩ := hds d List.mem_cons_self
    obtain ⟨c₁, hrow, hprogress⟩ := h.row hfree hs hlive hremovable
    obtain ⟨hnew, hnodup⟩ := List.nodup_cons.mp hnodup
    obtain ⟨c', hrest, hdone⟩ := ih hprogress hnodup fun e he => by
      obtain ⟨hfree', hstate⟩ := hds e (List.mem_cons_of_mem d he)
      refine ⟨?_, hstate⟩
      rintro (rfl | hold)
      · exact hnew he
      · exact hfree' hold
    refine ⟨c', ?_, hdone.congr fun e => ?_⟩
    · rw [Conn.reconcileRows, hrow]
      exact hrest
    · rw [List.mem_cons]
      tauto

end Rows

section Check

variable {γ : Type} {w : World γ} {poll : Poll} {c₀ : MemoryCatalog γ} {c : Conn γ} {d : ℕ}
  {done : ℕ → Prop} {paths : List String}

/-- The document is there and not tombstoned. -/
def Live (c : MemoryCatalog γ) (d : ℕ) : Prop := ∃ s, c.stateOf d = some s ∧ s ≠ .tombstoned

/-- The document's file is absent and one of the paths. -/
def Missed (poll : Poll) (c : MemoryCatalog γ) (paths : List String) (d : ℕ) : Prop :=
  c.sourcePath d ∈ paths ∧ poll.snap.present (c.sourcePath d) = false

/-- Every document that the absence check is about to tombstone has a node that can be removed. -/
def Clear (poll : Poll) (paths : List String) (c : MemoryCatalog γ) : Prop :=
  ∀ d x, c.documents.get? d = some x → Missed poll c paths d → x.state ≠ .tombstoned →
    nextState poll.config x.state = .tombstoned → Removable c.toMemoryDb d

theorem mem_absentRows {path : String} :
    d ∈ c.absentRows path ↔ c.working.sourcePath d = path ∧ Live c.working d := by
  simp only [Conn.absentRows, List.mem_map]
  constructor
  · rintro ⟨⟨j, x⟩, he, rfl⟩
    obtain ⟨hx, hpath, hlive⟩ := Table.mem_select.mp he
    exact ⟨hpath, x.state, stateOf_eq_some.mpr ⟨x, hx, rfl⟩, hlive⟩
  · rintro ⟨hpath, s, hs, hlive⟩
    obtain ⟨x, hx, rfl⟩ := stateOf_eq_some.mp hs
    exact ⟨(d, x), Table.mem_select.mpr ⟨hx, hpath, hlive⟩, rfl⟩

theorem nodup_absentRows (c : Conn γ) (path : String) : (c.absentRows path).Nodup :=
  (c.working.documents.nodup.sublist (List.filter_sublist.map Prod.fst))

theorem Progress.check (h : Progress w poll c₀ done c) (hnodup : paths.Nodup)
    (hclear : Clear poll paths c₀) (hdone : ∀ e, done e → c₀.sourcePath e ∉ paths) :
    ∃ c', Conn.reconcileConfiguredSources poll paths c = .ok c' ∧
      Progress w poll c₀ (fun e => done e ∨ (Missed poll c₀ paths e ∧ Live c₀ e)) c' := by
  induction paths generalizing c done with
  | nil => exact ⟨c, rfl, h.congr fun e => by simp [Missed]⟩
  | cons path paths ih =>
    obtain ⟨hnew, hnodup⟩ := List.nodup_cons.mp hnodup
    have hclear' : Clear poll paths c₀ := fun d x hx hd =>
      hclear d x hx ⟨List.mem_cons_of_mem path hd.1, hd.2⟩
    by_cases hpresent : poll.snap.present path = true
    · obtain ⟨c', hok, hprogress⟩ := ih h hnodup hclear' fun e he hmem =>
        hdone e he (List.mem_cons_of_mem path hmem)
      refine ⟨c', ?_, hprogress.congr fun e => ?_⟩
      · rw [Conn.reconcileConfiguredSources, if_pos hpresent]
        exact hok
      · have hother : poll.snap.present (c₀.sourcePath e) = false → c₀.sourcePath e ≠ path := by
          rintro habsent rfl
          rw [hpresent] at habsent
          cases habsent
        simp only [Missed, List.mem_cons]
        tauto
    · have habsent : poll.snap.present path = false := by simpa using hpresent
      -- the rows of this path are as they were, since `done` is about other paths
      have hrow : ∀ d, d ∈ c.absentRows path ↔ c₀.sourcePath d = path ∧ Live c₀ d := by
        intro d
        rw [mem_absentRows, h.working_path]
        refine and_congr_right fun hpath => ?_
        have hfree : ¬ done d := fun hd => hdone d hd (hpath ▸ List.mem_cons_self)
        rw [Live, Live, (h.others d hfree).state]
      obtain ⟨c₁, hok₁, hprogress₁⟩ := h.rows (nodup_absentRows c path) fun d hd => by
        obtain ⟨hpath, s, hs, hlive⟩ := (hrow d).mp hd
        obtain ⟨x, hx, rfl⟩ := stateOf_eq_some.mp hs
        have hmissed : Missed poll c₀ (path :: paths) d := by
          rw [Missed, hpath]
          exact ⟨List.mem_cons_self, habsent⟩
        refine ⟨fun hold => hdone d hold (hpath ▸ List.mem_cons_self), x.state, hs, hlive, ?_⟩
        exact hclear d x hx hmissed hlive
      obtain ⟨c', hok, hprogress⟩ := ih hprogress₁ hnodup hclear' fun e he hmem => by
        rcases he with he | he
        · exact hnew (((hrow e).mp he).1 ▸ hmem)
        · exact hdone e he (List.mem_cons_of_mem path hmem)
      refine ⟨c', ?_, hprogress.congr fun e => ?_⟩
      · rw [Conn.reconcileConfiguredSources, if_neg hpresent, hok₁]
        exact hok
      · have hhead : c₀.sourcePath e = path → poll.snap.present (c₀.sourcePath e) = false :=
          fun heq => heq ▸ habsent
        rw [hrow e]
        simp only [Missed, List.mem_cons]
        tauto

/-- The whole check: it does not raise, and every document that it misses gets its next state. -/
theorem reconcileConfiguredSources_spec (hs : Sound { w with db := c₀.toMemoryDb })
    (hnodup : paths.Nodup) (hclear : Clear poll paths c₀) :
    ∃ c', Conn.reconcileConfiguredSources poll paths (.opened c₀) = .ok c' ∧
      Sound { w with db := c'.working.toMemoryDb } ∧
      Sound { w with db := c'.committed.toMemoryDb } ∧
      (∀ e, c'.working.sourcePath e = c₀.sourcePath e ∧
        (Missed poll c₀ paths e →
          c'.working.stateOf e = (c₀.stateOf e).map (nextState poll.config)) ∧
        (¬ Missed poll c₀ paths e → c'.working.stateOf e = c₀.stateOf e)) ∧
      ∀ e, c'.committed.sourcePath e = c₀.sourcePath e ∧
        (c'.committed.stateOf e = c₀.stateOf e ∨
          c'.committed.stateOf e = (c₀.stateOf e).map (nextState poll.config)) := by
  obtain ⟨c', hok, hprogress⟩ :=
    (Progress.opened poll hs).check hnodup hclear fun _ h => h.elim
  refine ⟨c', hok, hprogress.sound, hprogress.committed_sound, fun e => ?_, hprogress.committed⟩
  refine ⟨hprogress.working_path e, fun hmissed => ?_, fun hmissed => ?_⟩
  · by_cases hlive : Live c₀ e
    · exact (hprogress.advanced e (Or.inr ⟨hmissed, hlive⟩)).2
    · rw [(hprogress.others e (by tauto)).state]
      -- a document without a next state is tombstoned, or there is none
      cases hst : c₀.stateOf e with
      | none => rfl
      | some s =>
        have htomb : s = .tombstoned := by
          by_contra hne
          exact hlive ⟨s, hst, hne⟩
        rw [htomb]
        rfl
  · exact (hprogress.others e (by tauto)).state

end Check

section Polls

variable {γ : Type} {w : World γ} {lib : IngestLibrary} {poll : Poll} {db : MemoryCatalog γ}
  {sources : List MemorySource} {path : String} {e : ℕ}

theorem look_found {snap : Snapshot} {now : ℤ} {s : MemorySource} {file : SourceFile}
    (h : snap.look now s = .found file) : snap.present file.path = true := by
  unfold Snapshot.look at h
  dsimp only at h
  split at h
  · cases h
  · rename_i hpresent
    split at h
    · cases h
    · split at h
      · cases h
      · cases h
        exact not_not.mp hpresent

/-- A document whose file is absent is spared by the ingest of a file that is there. -/
theorem IngestWrites.spares {c c' : MemoryCatalog γ} (h : IngestWrites path c c')
    (hpresent : poll.snap.present path = true)
    (he : poll.snap.present (c'.sourcePath e) = false) : Follows e c c' := by
  refine h.follows fun heq => ?_
  rw [heq, hpresent] at he
  cases he

theorem reconcileSource_spares (lib : IngestLibrary) (poll : Poll)
    (hs : Sound { w with db := db.toMemoryDb }) (s : MemorySource) :
    Sound { w with db := (reconcileSource lib poll db s).toMemoryDb } ∧
      ∀ e, poll.snap.present ((reconcileSource lib poll db s).sourcePath e) = false →
        Follows e db (reconcileSource lib poll db s) := by
  unfold reconcileSource
  split
  · rename_i file hfound
    obtain ⟨hcommitted, hworking⟩ := ingestMemoryFile_writes lib poll.snap.toDisk db file
      (poll.config.retention poll.now)
    dsimp only
    split
    · exact ⟨hworking.sound hs, fun e he => hworking.spares (look_found hfound) he⟩
    · exact ⟨hcommitted.sound hs, fun e he => hcommitted.spares (look_found hfound) he⟩
  · exact ⟨hs, fun e _ => .refl e db⟩

theorem ingest_spares (lib : IngestLibrary) (poll : Poll) (sources : List MemorySource)
    (hs : Sound { w with db := db.toMemoryDb }) :
    Sound { w with db := (sources.foldl (reconcileSource lib poll) db).toMemoryDb } ∧
      ∀ e, poll.snap.present ((sources.foldl (reconcileSource lib poll) db).sourcePath e) = false →
        Follows e db (sources.foldl (reconcileSource lib poll) db) := by
  induction sources generalizing db with
  | nil => exact ⟨hs, fun e _ => .refl e db⟩
  | cons s ss ih =>
    obtain ⟨hfirst, hspares⟩ := reconcileSource_spares lib poll hs s
    obtain ⟨hrest, hspares'⟩ := ih hfirst
    refine ⟨hrest, fun e he => ?_⟩
    have hlast := hspares' e he
    refine (hspares e ?_).trans hlast
    rw [← hlast.path]
    exact he

/-- What is cleared before the ingests is cleared after them. -/
theorem Clear.of_spares {paths : List String} {c : MemoryCatalog γ} (h : Clear poll paths db)
    (hspares : ∀ e, poll.snap.present (c.sourcePath e) = false → Follows e db c) :
    Clear poll paths c := by
  intro d x hx hmissed hlive hnext
  have hfollows := hspares d hmissed.2
  obtain ⟨x₀, hx₀, hstate⟩ :=
    stateOf_eq_some.mp (hfollows.state.symm.trans (stateOf_eq_some.mpr ⟨x, hx, rfl⟩))
  rw [Missed, hfollows.path] at hmissed
  rw [← hstate] at hlive hnext
  exact hfollows.removable (h d x₀ hx₀ hmissed hlive hnext)

/-- What a poll does to a document whose file is absent: its next state, if the file is one of the
poll's sources, and nothing otherwise. -/
theorem reconcileSources_spec (hs : Sound { w with db := db.toMemoryDb })
    (hclear : Clear poll (poll.snap.configuredPaths sources) db) :
    Sound { w with db := (reconcileSources lib poll db sources).toMemoryDb } ∧
      ∀ e, poll.snap.present ((reconcileSources lib poll db sources).sourcePath e) = false →
        (reconcileSources lib poll db sources).sourcePath e = db.sourcePath e ∧
        (Missed poll db (poll.snap.configuredPaths sources) e →
          (reconcileSources lib poll db sources).stateOf e =
            (db.stateOf e).map (nextState poll.config)) ∧
        (¬ Missed poll db (poll.snap.configuredPaths sources) e →
          (reconcileSources lib poll db sources).stateOf e = db.stateOf e) := by
  obtain ⟨hingested, hspares⟩ := ingest_spares lib poll sources hs
  obtain ⟨c', hok, hsound, -, hworking, -⟩ := reconcileConfiguredSources_spec hingested
    (poll.snap.nodup_configuredPaths sources) (hclear.of_spares hspares)
  have hrun : reconcileSources lib poll db sources = c'.working := by
    simp only [reconcileSources, hok]
  rw [hrun]
  refine ⟨hsound, fun e he => ?_⟩
  obtain ⟨hpath, hmissed, hother⟩ := hworking e
  rw [hpath] at he
  have hfollows := hspares e he
  rw [Missed, hfollows.path] at hmissed hother
  refine ⟨hpath.trans hfollows.path, fun hm => ?_, fun hm => ?_⟩
  · rw [hmissed hm, hfollows.state]
  · rw [hother hm, hfollows.state]

end Polls

end Hippo.MemoryCatalog
