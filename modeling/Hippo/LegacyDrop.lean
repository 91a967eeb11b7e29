import Hippo.LegacyHistory

/-!
# The drop of the legacy session tables

The migration from v22 to v23 drops the legacy tables. Its guard compares the number of legacy rows
with the number of agentic rows, so the agentic rows that stand for no legacy row count against the
legacy rows that have none. After a backfill no legacy row is without one.
-/
namespace Hippo.Migration

section Guard

/-- The harnesses that the guard counts. -/
def countedHarnesses : List Harness := [.claudeCode, .codex, .cursor, .opencode, .pi]

def agenticCount (a : AgenticSessions) : ℕ :=
  (a.rows.select fun _ r => r.harness ∈ countedHarnesses).length

/-- Whether the guard refuses. -/
def countLags (db : Database) : Bool :=
  match db.claudeSessions with
  | none => false
  | some sessions =>
    let legacyCount := sessions.rows.entries.length
    let fullLegacyFamily := db.knowledgeNodeClaudeSessions.isSome &&
      db.claudeEnrichmentQueue.isSome
    match db.agenticSessions with
    | none => false
    | some a => 0 < legacyCount && fullLegacyFamily && agenticCount a < legacyCount

/-- The block `v22→v23` of `open_db`. -/
def migrateV23 (db : Database) : Except MigrationError Database :=
  if ¬ (1 ≤ db.userVersion ∧ db.userVersion < 23) then .ok db
  else if countLags db then .error .agenticCountLags
  else
    .ok { db with
      knowledgeNodeClaudeSessions := none
      claudeEnrichmentQueue := none
      claudeSessions := none
      userVersion := 23 }

end Guard

section Counts

variable (sessions : ClaudeSessions) (a : AgenticSessions)

/-- The agentic rows of the legacy rows that have one. -/
def matched : List ℕ := sessions.rows.entries.filterMap fun e => counterpart? a e.2

/-- The legacy rows without an agentic row. -/
def missing : List (ℕ × ClaudeSession) :=
  sessions.rows.entries.filter fun e => (counterpart? a e.2).isNone

/-- The agentic rows that stand for no legacy row. -/
def others : List (ℕ × AgenticSessionRow) :=
  a.rows.entries.filter fun e => e.1 ∉ matched sessions a

theorem length_matched : (matched sessions a).length + (missing sessions a).length =
    sessions.rows.entries.length := by
  unfold matched missing
  induction sessions.rows.entries with
  | nil => rfl
  | cons e es ih =>
    cases he : counterpart? a e.2 <;>
      simp only [List.filterMap_cons, List.filter_cons, he, Option.isNone_none, Option.isNone_some,
        if_true, Bool.false_eq_true, if_false, List.length_cons] <;> omega

theorem mem_matched {i : ℕ} : i ∈ matched sessions a ↔
    ∃ id c, sessions.rows.get? id = some c ∧ ∃ r, IsCounterpart a c i r := by
  simp only [matched, List.mem_filterMap, counterpart?_eq_some, Table.get?_eq_some]
  constructor
  · rintro ⟨e, he, hr⟩
    exact ⟨e.1, e.2, he, hr⟩
  · rintro ⟨id, c, hc, hr⟩
    exact ⟨(id, c), hc, hr⟩

/-- Different legacy rows have different agentic rows. -/
theorem nodup_matched : (matched sessions a).Nodup := by
  have hentries : sessions.rows.entries.Nodup := List.Nodup.of_map _ sessions.rows.nodup
  have hrows : ∀ e ∈ sessions.rows.entries, sessions.rows.get? e.1 = some e.2 :=
    fun e he => Table.get?_eq_some.mpr he
  have hinj : ∀ e ∈ sessions.rows.entries, ∀ e' ∈ sessions.rows.entries, ∀ i,
      counterpart? a e.2 = some i → counterpart? a e'.2 = some i → e = e' := by
    intro e he e' he' i hi hi'
    obtain ⟨r, hr⟩ := counterpart?_eq_some.mp hi
    obtain ⟨s, hs⟩ := counterpart?_eq_some.mp hi'
    let legacy : LegacyFamily := ⟨sessions, Table.empty, Table.empty⟩
    have he₁ : legacy.sessions.rows.get? e.1 = some e.2 := hrows e he
    obtain ⟨hid, hc⟩ := hr.legacy_unique he₁ (hrows e' he') hs
    exact Prod.ext hid hc
  unfold matched
  generalize sessions.rows.entries = es at hentries hinj
  induction es with
  | nil => exact List.nodup_nil
  | cons e es ih =>
    obtain ⟨hout, hnodup⟩ := List.nodup_cons.mp hentries
    have htail := ih hnodup fun e he e' he' =>
      hinj e (List.mem_cons_of_mem _ he) e' (List.mem_cons_of_mem _ he')
    cases hi : counterpart? a e.2 with
    | none =>
      simp only [List.filterMap_cons, hi]
      exact htail
    | some i =>
      simp only [List.filterMap_cons, hi, List.nodup_cons]
      refine ⟨?_, htail⟩
      intro hmem
      obtain ⟨e', he', hi'⟩ := List.mem_filterMap.mp hmem
      have heq := hinj e List.mem_cons_self e' (List.mem_cons_of_mem _ he') i hi hi'
      exact hout (heq ▸ he')

theorem length_others : (others sessions a).length + (matched sessions a).length =
    a.rows.entries.length := by
  have hsplit : (others sessions a).length +
      (a.rows.entries.filter fun e => e.1 ∈ matched sessions a).length = a.rows.entries.length := by
    have hlength := List.length_eq_length_filter_add (l := a.rows.entries)
      fun e => decide (e.1 ∈ matched sessions a)
    simp only [others, decide_not]
    omega
  have hperm : ((a.rows.entries.filter fun e => e.1 ∈ matched sessions a).map Prod.fst).Perm
      (matched sessions a) := by
    rw [List.perm_ext_iff_of_nodup
      (a.rows.nodup.sublist (List.filter_sublist.map Prod.fst)) (nodup_matched sessions a)]
    intro i
    constructor
    · intro hi
      obtain ⟨e, he, rfl⟩ := List.mem_map.mp hi
      simpa using (List.mem_filter.mp he).2
    · intro hi
      obtain ⟨id, c, hc, r, hr⟩ := (mem_matched sessions a).mp hi
      exact List.mem_map.mpr ⟨(i, r),
        List.mem_filter.mpr ⟨Table.get?_eq_some.mp hr.row, by simpa using hi⟩, rfl⟩
  have hlength := hperm.length_eq
  rw [List.length_map] at hlength
  omega

theorem agenticCount_eq : agenticCount a = a.rows.entries.length := by
  have hall : ∀ e ∈ a.rows.entries, decide (e.2.harness ∈ countedHarnesses) = true := by
    intro e _
    cases e.2.harness <;> decide
  rw [agenticCount, Table.select, List.filter_eq_self.mpr hall]

end Counts

section Drop

variable {db db' : Database} {legacy : LegacyFamily} {a : AgenticSessions}

theorem mem_missing {e : ℕ × ClaudeSession} : e ∈ missing legacy.sessions a ↔
    legacy.sessions.rows.get? e.1 = some e.2 ∧ ¬ ∃ i r, IsCounterpart a e.2 i r := by
  simp only [missing, List.mem_filter, Table.get?_eq_some, Option.isNone_iff_eq_none,
    Option.eq_none_iff_forall_ne_some, ne_eq, counterpart?_eq_some, not_exists]

theorem legacyFamily?_eq_some : db.legacyFamily? = some legacy ↔
    db.claudeSessions = some legacy.sessions ∧
      db.knowledgeNodeClaudeSessions = some legacy.links ∧
        db.claudeEnrichmentQueue = some legacy.queue := by
  obtain ⟨sessions, links, queue⟩ := legacy
  simp only [Database.legacyFamily?, Option.bind_eq_bind, Option.bind_eq_some_iff, Option.pure_def,
    Option.some.injEq, LegacyFamily.mk.injEq]
  constructor
  · rintro ⟨_, h1, _, h2, _, h3, rfl, rfl, rfl⟩
    exact ⟨h1, h2, h3⟩
  · rintro ⟨h1, h2, h3⟩
    exact ⟨_, h1, _, h2, _, h3, rfl, rfl, rfl⟩

/-- The guard refuses when the legacy rows without an agentic row are more than the agentic rows
that stand for no legacy row. -/
theorem countLags_iff : countLags db = true ↔ ∃ legacy a, db.legacyFamily? = some legacy ∧
    db.agenticSessions = some a ∧
      (others legacy.sessions a).length < (missing legacy.sessions a).length := by
  have hcounts : ∀ (sessions : ClaudeSessions) (a : AgenticSessions),
      agenticCount a < sessions.rows.entries.length ↔
        (others sessions a).length < (missing sessions a).length := by
    intro sessions a
    have hlegacy := length_matched sessions a
    have hagentic := length_others sessions a
    rw [agenticCount_eq]
    omega
  simp only [legacyFamily?_eq_some]
  constructor
  · intro h
    unfold countLags at h
    split at h
    · cases h
    next sessions hsessions =>
      split at h
      · cases h
      next a ha =>
        simp only [Bool.and_eq_true, decide_eq_true_eq] at h
        obtain ⟨⟨-, hlinks, hqueue⟩, hlt⟩ := h
        obtain ⟨links, hlinks⟩ := Option.isSome_iff_exists.mp hlinks
        obtain ⟨queue, hqueue⟩ := Option.isSome_iff_exists.mp hqueue
        exact ⟨⟨sessions, links, queue⟩, a, ⟨hsessions, hlinks, hqueue⟩, ha, (hcounts _ _).mp hlt⟩
  · rintro ⟨legacy, a, ⟨hsessions, hlinks, hqueue⟩, ha, hlt⟩
    have hlags := (hcounts _ _).mpr hlt
    have hpos : 0 < legacy.sessions.rows.entries.length := by omega
    simp only [countLags, hsessions, hlinks, hqueue, ha, Option.isSome_some, Bool.and_self,
      Bool.and_true, Bool.and_eq_true, decide_eq_true_eq]
    exact ⟨hpos, hlags⟩

/-- After the backfill of the same legacy rows, as long as its rows are there. -/
theorem missing_of_backfill (old : AgenticFamily)
    (hkept : ∀ i r, (backfill legacy old).sessions.rows.get? i = some r →
      ∃ j s, a.rows.get? j = some s ∧ s.key = r.key) : missing legacy.sessions a = [] := by
  rw [List.eq_nil_iff_forall_not_mem]
  intro e he
  obtain ⟨hc, hnone⟩ := mem_missing.mp he
  obtain ⟨i, r, hr⟩ := backfill_counterpart legacy old hc
  obtain ⟨j, s, hs, hkey⟩ := hkept i r hr.row
  exact hnone ⟨j, s, isCounterpart_of_key hs (hkey.trans hr.key)⟩

/-- The drop goes ahead if and only if no full legacy family has more rows without an agentic row
than there are agentic rows that stand for no legacy row. So a legacy row can be lost only in
exchange for such a row, and none is lost after a backfill. -/
theorem drop_guard_exact (hversion : db.userVersion = 22) :
    ((∃ db', migrateV23 db = .ok db') ↔
      ∀ legacy a, db.legacyFamily? = some legacy → db.agenticSessions = some a →
        (missing legacy.sessions a).length ≤ (others legacy.sessions a).length) ∧
    (∀ db', migrateV23 db = .ok db' →
      db'.claudeSessions = none ∧ db'.agenticSessions = db.agenticSessions) ∧
    ∀ legacy a old, db.legacyFamily? = some legacy → db.agenticSessions = some a →
      (∀ i r, (backfill legacy old).sessions.rows.get? i = some r →
        ∃ j s, a.rows.get? j = some s ∧ s.key = r.key) →
      (∃ db', migrateV23 db = .ok db') ∧ ∀ id c, legacy.sessions.rows.get? id = some c →
        ∃ i r, IsCounterpart a c i r := by
  have hrange : ¬ ¬ (1 ≤ db.userVersion ∧ db.userVersion < 23) := by omega
  have hok : (∃ db', migrateV23 db = .ok db') ↔
      ∀ legacy a, db.legacyFamily? = some legacy → db.agenticSessions = some a →
        (missing legacy.sessions a).length ≤ (others legacy.sessions a).length := by
    have hlags : (∃ db', migrateV23 db = .ok db') ↔ ¬ countLags db = true := by
      rw [migrateV23, if_neg hrange]
      cases countLags db <;> simp
    rw [hlags, countLags_iff]
    simp only [not_exists, not_and, not_lt]
  refine ⟨hok, ?_, ?_⟩
  · intro db' hdb'
    rw [migrateV23, if_neg hrange] at hdb'
    split at hdb'
    · cases hdb'
    · cases hdb'
      exact ⟨rfl, rfl⟩
  · intro legacy a old hlegacy ha hkept
    have hmissing := missing_of_backfill old hkept
    constructor
    · rw [hok]
      intro legacy' a' hlegacy' ha'
      obtain rfl : legacy = legacy' := Option.some.inj (hlegacy.symm.trans hlegacy')
      obtain rfl : a = a' := Option.some.inj (ha.symm.trans ha')
      rw [hmissing]
      exact Nat.zero_le _
    · intro id c hc
      by_contra hnone
      have hmem : (id, c) ∈ missing legacy.sessions a := mem_missing.mpr ⟨hc, hnone⟩
      rw [hmissing] at hmem
      cases hmem

end Drop

section Sample

/-- A session of opencode, which never wrote to the legacy tables. -/
def opencodeSession : AgenticSessionRow :=
  { agenticRowOf legacySession with sessionId := "o", harness := .opencode }

/-- A legacy session that was not copied, next to a session of opencode. -/
def uncopied : Database :=
  { sampleDatabase with
    userVersion := 22
    agenticSessions := some (IndexedTable.empty.insertOrIgnore opencodeSession) }

/-- The session of opencode stands in for the legacy session. -/
theorem opencode_stands_in : ¬ ∀ (db db' : Database) (sessions : ClaudeSessions),
    db.userVersion = 22 → migrateV23 db = .ok db' → db.claudeSessions = some sessions →
      ∀ id c, sessions.rows.get? id = some c →
        ∃ a i r, db.agenticSessions = some a ∧ IsCounterpart a c i r := by
  intro hall
  have hok : ∃ db', migrateV23 uncopied = .ok db' := by
    have hlags : countLags uncopied = false := by decide +kernel
    exact ⟨_, by rw [migrateV23, if_neg (by decide), hlags]; rfl⟩
  obtain ⟨db', hdb'⟩ := hok
  obtain ⟨a, i, r, ha, hr⟩ := hall uncopied db' legacySample.sessions rfl hdb' rfl 1 legacySession
    (by decide +kernel)
  cases ha
  have hnone : counterpart? (IndexedTable.empty.insertOrIgnore opencodeSession) legacySession =
      none := by decide +kernel
  rw [counterpart?_eq_some.mpr ⟨r, hr⟩] at hnone
  cases hnone

/-- The drop after the backfill of the sample. -/
theorem sample_dropped : ∃ db',
    migrateV23 { sampleDatabase with
      userVersion := 22
      agenticSessions := some (backfill legacySample
        ⟨[3], IndexedTable.empty, Table.empty, Table.empty⟩).sessions } = .ok db' :=
  ((drop_guard_exact rfl).2.2 legacySample _ ⟨[3], IndexedTable.empty, Table.empty, Table.empty⟩
    rfl rfl fun i r hr => ⟨i, r, hr, rfl⟩).1

end Sample

end Hippo.Migration
