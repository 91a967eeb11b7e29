import Hippo.EnvelopeDelivery
import Hippo.KnowledgeStore

/-!
# Every envelope is stored once

However often and on whichever route an envelope is delivered, its table holds one row for it, with
a queue row unless it is a probe's. A repeated delivery changes nothing, and a failed one leaves
nothing behind. Environments are shared: a snapshot stands for all events with its content.
-/
namespace Hippo.Delivery

section Exact

variable {ρ : Type} {envelopeId probeTag : ρ → Option String} {t : EventTables ρ}
  {ids : String → Prop} {e : ρ} {id : String}

/-- The rows of a table are those of the envelopes in `ids`, one for each, and the queue has the
rows that are no probe's. -/
structure Exact (envelopeId probeTag : ρ → Option String) (ids : String → Prop)
    (t : EventTables ρ) : Prop where
  once : t.OncePerEnvelope envelopeId
  held : ∀ id, ids id → t.Holds envelopeId id
  named : ∀ i r, t.events.get? i = some r → ∃ id, envelopeId r = some id ∧ ids id
  queued : ∀ i, i ∈ t.queue.keys ↔ ∃ r, t.events.get? i = some r ∧ probeTag r = none

theorem exact_empty : Exact envelopeId probeTag (fun _ => False) EventTables.empty where
  once := by
    intro i j r s id hr
    cases hr
  held := by
    intro id h
    cases h
  named := by
    intro i r hr
    cases hr
  queued := by
    intro i
    constructor
    · intro hi
      cases hi
    · rintro ⟨r, hr, -⟩
      cases hr

/-- One insert adds its envelope. -/
theorem Exact.insertOnce (h : Exact envelopeId probeTag ids t) (he : envelopeId e = some id) :
    Exact envelopeId probeTag (fun x => ids x ∨ x = id) (t.insertOnce envelopeId probeTag e) := by
  have hheld : ∀ x, ids x ∨ x = id → (t.insertOnce envelopeId probeTag e).Holds envelopeId x := by
    rintro x (hx | rfl)
    · exact t.holds_insertOnce e (h.held x hx)
    · exact t.holds_insertOnce_self he
  obtain ⟨heq, -⟩ | ⟨-, hevents, hfresh, hqueue⟩ := t.insertOnce_cases envelopeId probeTag e
  · rw [heq] at hheld ⊢
    exact
      { once := h.once
        held := hheld
        named := fun i r hr => by
          obtain ⟨x, hx, hids⟩ := h.named i r hr
          exact ⟨x, hx, Or.inl hids⟩
        queued := h.queued }
  · refine
      { once := EventTables.oncePerEnvelope_insertOnce h.once e
        held := hheld
        named := ?_
        queued := ?_ }
    · intro i r hr
      rw [hevents] at hr
      split at hr
      · cases hr
        exact ⟨id, he, Or.inr rfl⟩
      · obtain ⟨x, hx, hids⟩ := h.named i r hr
        exact ⟨x, hx, Or.inl hids⟩
    · intro i
      rw [Table.mem_keys, hqueue, hevents]
      by_cases hi : i = t.events.nextRowid
      · by_cases hprobe : probeTag e = none
        · simp [hi, hprobe]
        · simp [hi, hprobe, hfresh]
      · have hold := h.queued i
        rw [Table.mem_keys] at hold
        simp [hi, hold]

theorem Exact.mono {ids' : String → Prop} (h : Exact envelopeId probeTag ids t)
    (hids : ∀ x, ids x ↔ ids' x) : Exact envelopeId probeTag ids' t := by
  obtain rfl : ids = ids' := funext fun x => propext (hids x)
  exact h

/-- An envelope that was there already. -/
theorem Exact.of_held (h : Exact envelopeId probeTag ids t) (hid : t.Holds envelopeId id) :
    Exact envelopeId probeTag (fun x => ids x ∨ x = id) t := by
  apply h.mono
  intro x
  constructor
  · exact Or.inl
  · rintro (hx | rfl)
    · exact hx
    · obtain ⟨i, r, hr, hrid⟩ := EventTables.holds_iff.mp hid
      obtain ⟨y, hy, hids⟩ := h.named i r hr
      rw [hrid, Option.some.injEq] at hy
      rw [hy]
      exact hids

/-- One row for each envelope. -/
theorem Exact.existsUnique (h : Exact envelopeId probeTag ids t) (id : String) :
    ids id ↔ ∃! i, ∃ r, t.events.get? i = some r ∧ envelopeId r = some id := by
  constructor
  · intro hid
    obtain ⟨i, r, hr, hrid⟩ := EventTables.holds_iff.mp (h.held id hid)
    refine ⟨i, ⟨r, hr, hrid⟩, ?_⟩
    rintro j ⟨s, hs, hsid⟩
    exact h.once j i s r id hs hr hsid hrid
  · rintro ⟨i, ⟨r, hr, hrid⟩, -⟩
    obtain ⟨x, hx, hids⟩ := h.named i r hr
    rw [hrid, Option.some.injEq] at hx
    rw [hx]
    exact hids

end Exact

section Inserts

variable {lib : Library} {fault : Fault} {db db' : Db} {snapshots : EnvSnapshots} {env : Env}

/-- The snapshots and the snapshot id, when no statement fails. -/
def resolved (lib : Library) (snapshots : EnvSnapshots) (env : Env) (envSnapshotId : Option ℕ) :
    EnvSnapshots × Option ℕ :=
  if env.isEmpty then (snapshots, envSnapshotId)
  else ((upsertEnvSnapshot lib snapshots env).1, some (upsertEnvSnapshot lib snapshots env).2)

theorem resolveSnapshot_eq_ok {envSnapshotId : Option ℕ} {x : EnvSnapshots × Option ℕ}
    (h : resolveSnapshot lib fault snapshots env envSnapshotId = .ok x) :
    x = resolved lib snapshots env envSnapshotId := by
  unfold resolveSnapshot at h
  unfold resolved
  by_cases henv : env.isEmpty
  · rw [if_pos henv] at h ⊢
    cases h
    rfl
  · rw [if_neg henv] at h ⊢
    obtain ⟨_, -, h⟩ := bind_eq_ok.mp h
    obtain ⟨_, -, h⟩ := bind_eq_ok.mp h
    cases h
    rfl

theorem finishInsert_eq_ok {ρ : Type} {t t' : EventTables ρ} {probeTag : Option String}
    {x : EventTables ρ × ℕ} (h : finishInsert fault t t' probeTag = .ok x) :
    x = (t', t.events.nextRowid) := by
  unfold finishInsert at h
  dsimp only at h
  split at h
  · obtain ⟨_, -, h⟩ := bind_eq_ok.mp h
    obtain ⟨_, -, h⟩ := bind_eq_ok.mp h
    cases h
    rfl
  · obtain ⟨_, -, h⟩ := bind_eq_ok.mp h
    cases h
    rfl

/-- A shell insert that ends well: a duplicate that changes nothing, or the event with the snapshot
of its environment. -/
theorem insertEventAt_eq_ok {sessionId : ℕ} {event : ShellEvent} {timestamp : ℤ}
    {redactionCount : ℕ} {id : String} {probeTag : Option String} {new : Option ℕ}
    (h : insertEventAt lib fault db sessionId event timestamp redactionCount none (some id)
      probeTag = .ok (db', new)) :
    (new = none ∧ db' = db ∧ db.shell.Holds EventRow.envelopeId id) ∨
    (new ≠ none ∧ sessionId ∈ db.sessions.keys ∧ ¬ db.shell.Holds EventRow.envelopeId id ∧
      db' = { db with
        shell := db.shell.insertOnce EventRow.envelopeId EventRow.probeTag
          (eventRow sessionId event timestamp redactionCount
            (resolved lib db.snapshots event.envSnapshot none).2 (some id) probeTag)
        snapshots := (resolved lib db.snapshots event.envSnapshot none).1 }) := by
  unfold insertEventAt at h
  obtain ⟨_, -, h⟩ := bind_eq_ok.mp h
  obtain ⟨x, hx, h⟩ := bind_eq_ok.mp h
  obtain rfl := resolveSnapshot_eq_ok hx
  obtain ⟨_, -, h⟩ := bind_eq_ok.mp h
  split at h
  next hdup =>
    obtain ⟨_, -, h⟩ := bind_eq_ok.mp h
    cases h
    exact Or.inl ⟨rfl, rfl, hdup.2⟩
  next hdup =>
    split at h
    · cases h
    next hsession =>
      obtain ⟨x, hx, h⟩ := bind_eq_ok.mp h
      obtain rfl := finishInsert_eq_ok hx
      cases h
      refine Or.inr ⟨Option.some_ne_none _, not_not.mp hsession, ?_, rfl⟩
      exact fun hheld => hdup ⟨Option.some_ne_none _, hheld⟩

/-- A browser insert that ends well. -/
theorem insertBrowserEvent_eq_ok {event : BrowserEvent} {timestampMs : ℤ} {id : String}
    {probeTag : Option String} {new : Option ℕ}
    (h : insertBrowserEvent lib fault db event timestampMs (some id) probeTag = .ok (db', new)) :
    (new = none ∧ db' = db ∧ db.browser.Holds BrowserRow.envelopeId id) ∨
    (new ≠ none ∧ ¬ db.browser.Holds BrowserRow.envelopeId id ∧
      db' = { db with
        browser := db.browser.insertOnce BrowserRow.envelopeId BrowserRow.probeTag
          (browserRow lib event timestampMs (some id) probeTag) }) := by
  unfold insertBrowserEvent at h
  obtain ⟨_, -, h⟩ := bind_eq_ok.mp h
  obtain ⟨_, -, h⟩ := bind_eq_ok.mp h
  split at h
  next hdup =>
    obtain ⟨_, -, h⟩ := bind_eq_ok.mp h
    cases h
    exact Or.inl ⟨rfl, rfl, hdup.2⟩
  next hdup =>
    obtain ⟨x, hx, h⟩ := bind_eq_ok.mp h
    obtain rfl := finishInsert_eq_ok hx
    cases h
    refine Or.inr ⟨Option.some_ne_none _, ?_, rfl⟩
    exact fun hheld => hdup ⟨Option.some_ne_none _, hheld⟩

end Inserts

section Snapshots

variable {lib : Library} {snapshots snapshots' : EnvSnapshots} {env : Env} {snap : Option ℕ}

/-- The snapshot id of an event is that of its environment, if it has one. -/
def SnapshotOf (lib : Library) (snapshots : EnvSnapshots) (env : Env) (snap : Option ℕ) : Prop :=
  (env = [] ∧ snap = none) ∨
    (env ≠ [] ∧ ∃ j s, snap = some j ∧ snapshots.rows.get? j = some s ∧
      s.contentHash = lib.sha256 (stableEnvJson lib env))

/-- The rows of `snapshots` are there with their hashes. -/
def Kept (snapshots snapshots' : EnvSnapshots) : Prop :=
  ∀ j s, snapshots.rows.get? j = some s →
    ∃ s', snapshots'.rows.get? j = some s' ∧ s'.contentHash = s.contentHash

theorem SnapshotOf.kept (h : SnapshotOf lib snapshots env snap) (hkept : Kept snapshots snapshots') :
    SnapshotOf lib snapshots' env snap := by
  obtain hnone | ⟨henv, j, s, hj, hs, hhash⟩ := h
  · exact Or.inl hnone
  · obtain ⟨s', hs', hsame⟩ := hkept j s hs
    exact Or.inr ⟨henv, j, s', hj, hs', hsame.trans hhash⟩

theorem get?_restoreSnapshot (i j : ℕ) (envJson : String) :
    (restoreSnapshot snapshots i envJson).rows.get? j = (snapshots.rows.get? j).map fun s =>
      if j = i ∧ s.envJson = "" then { s with envJson := envJson } else s :=
  Table.get?_mapRows _ _ _

theorem upsertEnvSnapshot_of_some {i : ℕ}
    (h : snapshots.rowid? (lib.sha256 (stableEnvJson lib env)) = some i) :
    upsertEnvSnapshot lib snapshots env =
      (restoreSnapshot snapshots i (stableEnvJson lib env), i) := by
  simp only [upsertEnvSnapshot, h]

theorem upsertEnvSnapshot_of_none
    (h : snapshots.rowid? (lib.sha256 (stableEnvJson lib env)) = none) :
    upsertEnvSnapshot lib snapshots env =
      (snapshots.insertOrIgnore ⟨lib.sha256 (stableEnvJson lib env), stableEnvJson lib env⟩,
        snapshots.rows.nextRowid) := by
  simp only [upsertEnvSnapshot, h]

/-- The snapshot is there under its hash, and the other rows are as before. -/
theorem upsertEnvSnapshot_spec (lib : Library) (snapshots : EnvSnapshots) (env : Env) :
    (∃ s, (upsertEnvSnapshot lib snapshots env).1.rows.get?
      (upsertEnvSnapshot lib snapshots env).2 = some s ∧
        s.contentHash = lib.sha256 (stableEnvJson lib env)) ∧
    Kept snapshots (upsertEnvSnapshot lib snapshots env).1 ∧
    ∀ j s, (upsertEnvSnapshot lib snapshots env).1.rows.get? j = some s →
      j = (upsertEnvSnapshot lib snapshots env).2 ∨ snapshots.rows.get? j = some s := by
  cases hrow : snapshots.rowid? (lib.sha256 (stableEnvJson lib env)) with
  | some i =>
    obtain ⟨s, hs, hhash⟩ := IndexedTable.rowid?_eq_some.mp hrow
    rw [upsertEnvSnapshot_of_some hrow]
    refine ⟨?_, ?_, ?_⟩
    · refine ⟨_, by rw [get?_restoreSnapshot, hs, Option.map_some], ?_⟩
      split <;> exact hhash
    · intro j t ht
      refine ⟨_, by rw [get?_restoreSnapshot, ht, Option.map_some], ?_⟩
      split <;> rfl
    · intro j t ht
      by_cases hj : j = i
      · exact Or.inl hj
      · rw [get?_restoreSnapshot] at ht
        obtain ⟨u, hu, rfl⟩ := Option.map_eq_some_iff.mp ht
        rw [if_neg fun h => hj h.1]
        exact Or.inr hu
  | none =>
    let new : EnvSnapshot := ⟨lib.sha256 (stableEnvJson lib env), stableEnvJson lib env⟩
    have habsent : snapshots.rowid? new.contentHash = none := hrow
    have hget := IndexedTable.get?_insertOrIgnore habsent
    rw [upsertEnvSnapshot_of_none hrow]
    refine ⟨⟨_, by rw [hget, if_pos rfl], rfl⟩, ?_, ?_⟩
    · intro j s hs
      exact ⟨s, IndexedTable.get?_insertOrIgnore_of_some hs _, rfl⟩
    · intro j s hs
      rw [hget] at hs
      by_cases hj : j = snapshots.rows.nextRowid
      · exact Or.inl hj
      · rw [if_neg hj] at hs
        exact Or.inr hs

theorem resolved_spec (lib : Library) (snapshots : EnvSnapshots) (env : Env) :
    SnapshotOf lib (resolved lib snapshots env none).1 env (resolved lib snapshots env none).2 ∧
    Kept snapshots (resolved lib snapshots env none).1 ∧
    ∀ j s, (resolved lib snapshots env none).1.rows.get? j = some s →
      (resolved lib snapshots env none).2 = some j ∨ snapshots.rows.get? j = some s := by
  unfold resolved
  by_cases henv : env.isEmpty
  · rw [if_pos henv]
    exact ⟨Or.inl ⟨List.isEmpty_iff.mp henv, rfl⟩, fun j s hs => ⟨s, hs, rfl⟩,
      fun j s hs => Or.inr hs⟩
  · rw [if_neg henv]
    obtain ⟨⟨s, hs, hhash⟩, hkept, hother⟩ := upsertEnvSnapshot_spec lib snapshots env
    refine ⟨Or.inr ⟨fun hnil => henv (List.isEmpty_iff.mpr hnil), _, s, rfl, hs, hhash⟩, hkept, ?_⟩
    intro j s hs
    exact (hother j s hs).imp_left fun hj => by rw [hj]

end Snapshots

section Sessions

variable {w w' : World} {a : Attempt} {event : ShellEvent} {id : ℕ}

/-- The map holds ids of sessions with these terminals. -/
def Mapped (w : World) : Prop :=
  ∀ uuid id, w.sessionMap.lookup uuid = some id →
    ∃ s, w.db.sessions.get? id = some s ∧ s.terminal = some uuid

/-- A session with this terminal is there. -/
def HasSession (db : Db) (uuid : String) : Prop :=
  ∃ i s, db.sessions.get? i = some s ∧ s.terminal = some uuid

theorem sessionOf_eq_some {db : Db} {uuid : String} (h : sessionOf db uuid = some id) :
    ∃ s, db.sessions.get? id = some s ∧ s.terminal = some uuid := by
  obtain ⟨e, he, rfl⟩ := Option.map_eq_some_iff.mp h
  have hmem := mem_orderBy.mp (List.mem_of_head? he)
  exact ⟨e.2, Table.mem_select.mp hmem⟩

theorem sessionOf_isSome {db : Db} {uuid : String} (h : HasSession db uuid) :
    ∃ id, sessionOf db uuid = some id := by
  obtain ⟨i, s, hs, hterminal⟩ := h
  have hmem : (i, s) ∈ orderBy (fun e => -e.2.startTime)
      (db.sessions.select fun _ s => s.terminal = some uuid) :=
    mem_orderBy.mpr (Table.mem_select.mpr ⟨hs, hterminal⟩)
  unfold sessionOf
  cases hhead : (orderBy (fun e => -e.2.startTime)
      (db.sessions.select fun _ s => s.terminal = some uuid)).head? with
  | none =>
    rw [List.head?_eq_none_iff.mp hhead] at hmem
    cases hmem
  | some e => exact ⟨e.1, rfl⟩

/-- What the session step leaves: at most one more session, the one that it returns. -/
structure SessionStep (w w' : World) (uuid : String) (id : ℕ) : Prop where
  shell : w'.db.shell = w.db.shell
  browser : w'.db.browser = w.db.browser
  snapshots : w'.db.snapshots = w.db.snapshots
  kept : ∀ i s, w.db.sessions.get? i = some s → w'.db.sessions.get? i = some s
  session : ∃ s, w'.db.sessions.get? id = some s ∧ s.terminal = some uuid
  mapped : Mapped w'
  same : HasSession w.db uuid → w'.db = w.db

theorem Mapped.cons {sessions : World} (hmapped : Mapped sessions) {uuid : String}
    (hs : ∃ s, sessions.db.sessions.get? id = some s ∧ s.terminal = some uuid) :
    Mapped { sessions with sessionMap := (uuid, id) :: sessions.sessionMap } := by
  intro x i hx
  rw [List.lookup_cons] at hx
  by_cases hxu : x = uuid
  · subst hxu
    rw [beq_self_eq_true] at hx
    cases hx
    exact hs
  · rw [beq_false_of_ne hxu] at hx
    exact hmapped x i hx

theorem getOrCreateSession_eq_some (hmapped : Mapped w)
    (h : getOrCreateSession w a event = some (w', id)) :
    SessionStep w w' event.sessionId id := by
  unfold getOrCreateSession at h
  split at h
  next id' hlookup =>
    cases h
    exact ⟨rfl, rfl, rfl, fun i s hs => hs, hmapped _ _ hlookup, hmapped, fun _ => rfl⟩
  next =>
    split at h
    · cases h
    · split at h
      next id' hsession =>
        cases h
        have hs := sessionOf_eq_some hsession
        exact ⟨rfl, rfl, rfl, fun i s hs => hs, hs, hmapped.cons hs, fun _ => rfl⟩
      next hsession =>
        cases h
        have hget := Table.get?_insert_nextRowid w.db.sessions
        have hkept : ∀ i s, w.db.sessions.get? i = some s →
            (w.db.sessions.insert w.db.sessions.nextRowid
              ⟨a.nowMs, some event.sessionId, event.shell, event.hostname, a.username⟩).get? i =
                some s :=
          fun i s hs => Table.get?_insert_of_some hs _ _
        have hnew : ∃ s, (w.db.sessions.insert w.db.sessions.nextRowid
            ⟨a.nowMs, some event.sessionId, event.shell, event.hostname, a.username⟩).get?
              w.db.sessions.nextRowid = some s ∧ s.terminal = some event.sessionId :=
          ⟨_, by rw [hget, if_pos rfl], rfl⟩
        refine ⟨rfl, rfl, rfl, hkept, hnew, ?_, ?_⟩
        · have hbefore : Mapped { w with db := { w.db with
              sessions := w.db.sessions.insert w.db.sessions.nextRowid
                ⟨a.nowMs, some event.sessionId, event.shell, event.hostname, a.username⟩ } } := by
            intro uuid i hi
            obtain ⟨s, hs, hterminal⟩ := hmapped uuid i hi
            exact ⟨s, hkept i s hs, hterminal⟩
          exact hbefore.cons hnew
        · intro hhas
          obtain ⟨i, hi⟩ := sessionOf_isSome hhas
          rw [hsession] at hi
          cases hi

end Sessions

end Hippo.Delivery
