import Hippo.AgenticSessions
import Hippo.Transition

/-!
# The opencode poller

A tick reads the source sessions whose `time_updated` is past the watermark stored for them,
then the messages and parts of each, and then writes them one by one. A failed read of the
messages leaves the session with an empty context. `OpencodeContext` is what the messages
and parts of a session render to. The parser of `serde_json` and the redaction engine are
parameters.
-/
namespace Hippo

structure OpencodeContext where
  userPrompts : List String := []
  assistantTexts : List String := []
  toolCalls : List String := []
  filesTouched : List String := []
  messageCount : ℤ := 0
deriving DecidableEq, Repr

/-- A row of opencode's `session` table, with the context its messages and parts hold. -/
structure SourceSession where
  directory : String
  timeCreated : ℤ
  timeUpdated : ℤ
  summaryAdditions : Option ℤ := none
  summaryDeletions : Option ℤ := none
  summaryFiles : Option ℤ := none
  summaryDiffs : Option String := none
  context : OpencodeContext := {}
deriving DecidableEq, Repr

/-- What the poller calls outside its module. -/
structure OpencodeReader where
  parseJson : String → Option Json
  redact : String → String

namespace OpencodeReader

mutual

/-- `redact_json`: every string of the value, keys apart. -/
def redactJson (reader : OpencodeReader) : Json → Json
  | .str s => .str (reader.redact s)
  | .arr items => .arr (reader.redactItems items)
  | .obj members => .obj (reader.redactMembers members)
  | v => v

def redactItems (reader : OpencodeReader) : List Json → List Json
  | [] => []
  | v :: vs => reader.redactJson v :: reader.redactItems vs

def redactMembers (reader : OpencodeReader) : List (String × Json) → List (String × Json)
  | [] => []
  | (k, v) :: ms => (k, reader.redactJson v) :: reader.redactMembers ms

end

/-- A `summary_diffs` text that is no JSON is kept as a JSON string. -/
def storedDiffs (reader : OpencodeReader) (raw : Option String) : Option Json :=
  raw.map fun text => reader.redactJson ((reader.parseJson text).getD (.str text))

/-- A session row after `redact_session_metadata`, before its context is read. -/
def metadata (reader : OpencodeReader) (id : String) (s : SourceSession) : OpencodeSession where
  id := id
  directory := s.directory
  summaryAdditions := s.summaryAdditions
  summaryDeletions := s.summaryDeletions
  summaryFiles := s.summaryFiles
  summaryDiffs := reader.storedDiffs s.summaryDiffs
  userPrompts := []
  assistantTexts := []
  toolCalls := []
  filesTouched := []
  messageCount := 0
  timeCreated := s.timeCreated
  timeUpdated := s.timeUpdated

end OpencodeReader

def OpencodeSession.withContext (o : OpencodeSession) (c : OpencodeContext) : OpencodeSession :=
  { o with
    userPrompts := c.userPrompts
    assistantTexts := c.assistantTexts
    toolCalls := c.toolCalls
    filesTouched := c.filesTouched
    messageCount := c.messageCount }

@[simp] theorem OpencodeSession.withContext_id (o : OpencodeSession) (c : OpencodeContext) :
    (o.withContext c).id = o.id := rfl

@[simp] theorem OpencodeSession.withContext_timeUpdated (o : OpencodeSession)
    (c : OpencodeContext) : (o.withContext c).timeUpdated = o.timeUpdated := rfl

/-- The source session as a tick that reads all of it sees it. -/
def OpencodeReader.read (reader : OpencodeReader) (id : String) (s : SourceSession) :
    OpencodeSession :=
  (reader.metadata id s).withContext s.context

namespace AgenticDb

variable {H γ : Type}

/-- `read_known_opencode_session_end_times`; the last row of a session id wins. -/
def knownEndTime (db : AgenticDb H γ) (id : String) : Option ℤ :=
  ((db.sessions.entries.filter fun e =>
    e.2.harness = .opencode ∧ e.2.sessionId = id).getLast?).map fun e => e.2.endTime

/-- `read_processing_opencode_session_ids`. -/
def ProcessingOpencode (db : AgenticDb H γ) (id : String) : Prop :=
  ∃ e ∈ db.sessions.entries, e.2.harness = .opencode ∧ e.2.sessionId = id ∧
    db.queue.status? e.1 = some .processing

instance (db : AgenticDb H γ) (id : String) : Decidable (db.ProcessingOpencode id) := by
  unfold ProcessingOpencode
  infer_instance

/-- `read_new_sessions`, without the sessions the brain holds. -/
def newSessions (db : AgenticDb H γ) (source : Table String SourceSession) :
    List (String × SourceSession) :=
  orderBy (fun e => e.2.timeUpdated) ((source.select fun id s =>
    (∀ stored ∈ db.knownEndTime id, stored < s.timeUpdated) ∧
      ¬ db.ProcessingOpencode id).insertionSort fun e e' => e.1 ≤ e'.1)

end AgenticDb

namespace Opencode

/-- The source, the database, and the tick in flight: the sessions whose context it still has
to read and those it still has to write. -/
structure World (H γ : Type) where
  source : Table String SourceSession
  db : AgenticDb H γ
  toRead : List OpencodeSession := []
  toWrite : List OpencodeSession := []

inductive Action (H : Type) where
  | update (id : String) (s : SourceSession)
  | startTick
  | readContext (ok : Bool)
  | write (ok : Bool)
  | crash
  /-- The brain changes a queue row. -/
  | queue (i : ℕ) (f : QueueRow → QueueRow)
  /-- The brain changes the watermark of a segment. -/
  | enrich (i : ℕ) (hash : Option H) (enriched : Bool)

section Machine

variable {H γ : Type} [DecidableEq H] (env : Rendering H) (reader : OpencodeReader)

def World.init : World H γ where
  source := Table.empty
  db := AgenticDb.empty

/-- One action; `none` when it is not enabled. -/
def step (w : World H γ) : Action H → Option (World H γ)
  | .update id s => some { w with source := w.source.put id s }
  | .startTick =>
    if w.toRead = [] ∧ w.toWrite = [] then some { w with
      toRead := (w.db.newSessions w.source).map fun e => reader.metadata e.1 e.2 }
    else none
  | .readContext ok =>
    match w.toRead with
    | [] => none
    | o :: rest =>
      let context := if ok then ((w.source.get? o.id).map SourceSession.context).getD {} else {}
      some { w with
        toRead := rest
        toWrite := w.toWrite ++ [o.withContext context] }
  | .write ok =>
    if w.toRead ≠ [] then none
    else match w.toWrite with
      | [] => none
      | o :: rest => some { w with
          db := if ok then (opencodeUpsert env o).apply w.db else w.db
          toWrite := rest }
  | .crash => some { w with toRead := [], toWrite := [] }
  | .queue i f => some { w with db := w.db.modifyQueue i f }
  | .enrich i hash enriched => some { w with
      db := w.db.modifySession i fun r =>
        { r with lastEnrichedContentHash := hash, enriched := enriched } }

/-- Every context read succeeds, and an update of a session advances its `time_updated`. -/
def ReadsSucceed (w : World H γ) : Action H → Prop
  | .update id s => ∀ old ∈ w.source.get? id, old.timeUpdated < s.timeUpdated
  | .readContext ok => ok = true
  | _ => True

instance (w : World H γ) (a : Action H) : Decidable (ReadsSucceed w a) := by
  cases a <;> unfold ReadsSucceed <;> infer_instance

end Machine

section Rows

variable {H γ : Type} [DecidableEq H] (env : Rendering H)

/-- The stored row holds this version of its session. -/
structure Current (o : OpencodeSession) (r : AgenticSession H) : Prop where
  summaryText : r.summaryText = env.opencodeSummaryText o
  contentHash : r.contentHash = some (env.opencodeHash o)
  snapshotDiffs : r.snapshotDiffs = o.summaryDiffs.getD .null
  messageCount : r.messageCount = o.messageCount
  endTime : r.endTime = o.timeUpdated

/-- The opencode rows are one for each session. -/
structure Single (db : AgenticDb H γ) : Prop where
  opencode : ∀ i r, db.sessions.get? i = some r → r.harness = .opencode ∧ r.segmentIndex = 0
  unique : ∀ i j r r', db.sessions.get? i = some r → db.sessions.get? j = some r' →
    r.sessionId = r'.sessionId → i = j

variable {env} {db : AgenticDb H γ} {o : OpencodeSession}

omit [DecidableEq H] in
/-- The row the upsert meets is the session's own. -/
theorem target_of_row (h : Single db) {i : ℕ} {r : AgenticSession H}
    (hr : db.sessions.get? i = some r) :
    i = (opencodeUpsert env o).target db ↔ r.sessionId = o.id := by
  have hkey := h.opencode i r hr
  unfold Upsert.target
  cases hp : (opencodeUpsert env o).prior db with
  | none =>
    have hnone := List.find?_eq_none.mp (Option.map_eq_none_iff.mp hp) (i, r)
      (Table.get?_eq_some.mp hr)
    constructor
    · rintro rfl
      simp at hr
    · intro hid
      exact absurd hnone (by simp [opencodeUpsert, hkey, hid])
  | some p =>
    obtain ⟨e, he, rfl⟩ := Option.map_eq_some_iff.mp hp
    have hfound : e.2.sessionId = o.id := by
      have := List.find?_some he
      simp only [decide_eq_true_eq] at this
      exact this.1
    have hrow := Table.get?_eq_some.mpr (List.mem_of_find?_eq_some he)
    constructor
    · rintro rfl
      cases hr.symm.trans hrow
      exact hfound
    · intro hid
      exact h.unique i e.1 r e.2 hr hrow (hid.trans hfound.symm)

/-- After the upsert the session's row holds the version written, and the others are as before. -/
theorem upsert_row (h : Single db) {i : ℕ} {r : AgenticSession H}
    (hr : ((opencodeUpsert env o).apply db).sessions.get? i = some r) :
    r.harness = .opencode ∧ r.segmentIndex = 0 ∧
      ((i = (opencodeUpsert env o).target db ∧ r.sessionId = o.id ∧ Current env o r) ∨
        (r.sessionId ≠ o.id ∧ db.sessions.get? i = some r)) := by
  rw [Upsert.apply_sessions_get?] at hr
  by_cases hi : i = (opencodeUpsert env o).target db
  · rw [if_pos hi] at hr
    cases hold : db.sessions.get? i with
    | none =>
      rw [hold] at hr
      cases hr
      exact ⟨rfl, rfl, Or.inl ⟨hi, rfl, rfl, rfl, rfl, rfl, rfl⟩⟩
    | some old =>
      rw [hold] at hr
      cases hr
      have hkey := h.opencode i old hold
      exact ⟨hkey.1, hkey.2, Or.inl ⟨hi, (target_of_row h hold).mp hi, rfl, rfl, rfl, rfl, rfl⟩⟩
  · rw [if_neg hi] at hr
    have hkey := h.opencode i r hr
    exact ⟨hkey.1, hkey.2, Or.inr ⟨fun hid => hi ((target_of_row h hr).mpr hid), hr⟩⟩

variable (env o) in
theorem upsert_target_row (h : Single db) : ∃ r,
    ((opencodeUpsert env o).apply db).sessions.get? ((opencodeUpsert env o).target db) = some r ∧
      r.sessionId = o.id ∧ Current env o r := by
  have hr : ((opencodeUpsert env o).apply db).sessions.get? ((opencodeUpsert env o).target db) =
      some (((db.sessions.get? ((opencodeUpsert env o).target db)).map
        (opencodeUpsert env o).refresh).getD (opencodeUpsert env o).new) := by
    rw [Upsert.apply_sessions_get?, if_pos rfl]
  obtain ⟨-, -, ⟨-, hid, hcurrent⟩ | ⟨hid, hold⟩⟩ := upsert_row h hr
  · exact ⟨_, hr, hid, hcurrent⟩
  · exact absurd ((target_of_row h hold).mp rfl) hid

theorem Single.apply (h : Single db) : Single ((opencodeUpsert env o).apply db) where
  opencode := by
    intro i r hr
    obtain ⟨hh, hindex, -⟩ := upsert_row h hr
    exact ⟨hh, hindex⟩
  unique := by
    intro i j r r' hr hr' hid
    obtain ⟨-, -, ⟨hi, hio, -⟩ | ⟨hio, hold⟩⟩ := upsert_row h hr
    · obtain ⟨-, -, ⟨hj, -, -⟩ | ⟨hjo, -⟩⟩ := upsert_row h hr'
      · rw [hi, hj]
      · exact absurd (hid ▸ hio) hjo
    · obtain ⟨-, -, ⟨-, hjo, -⟩ | ⟨-, hold'⟩⟩ := upsert_row h hr'
      · exact absurd (hid.trans hjo) hio
      · exact h.unique i j r r' hold hold' hid

end Rows

section Runs

variable {H γ : Type} [DecidableEq H] {env : Rendering H} {reader : OpencodeReader}
  {w w' : World H γ}

/-- The source still has the session, at `time` or later, and with property `P` if `time` is its
last update. -/
def Seen (source : Table String SourceSession) (id : String) (time : ℤ)
    (P : SourceSession → Prop) : Prop :=
  ∃ s, source.get? id = some s ∧ time ≤ s.timeUpdated ∧ (time = s.timeUpdated → P s)

theorem Seen.put {source : Table String SourceSession} {id id' : String} {time : ℤ}
    {P : SourceSession → Prop} {s : SourceSession} (h : Seen source id time P)
    (hs : ∀ old ∈ source.get? id', old.timeUpdated < s.timeUpdated) :
    Seen (source.put id' s) id time P := by
  obtain ⟨old, hold, hle, hP⟩ := h
  by_cases hid : id = id'
  · have hlt := hs old (hid ▸ hold)
    refine ⟨s, by rw [Table.get?_put, if_pos hid], by omega, fun heq => ?_⟩
    omega
  · exact ⟨old, by rw [Table.get?_put, if_neg hid, hold], hle, hP⟩

variable (env reader) in
/-- What is stored, to be written or to be read is the source's version, or an older one. -/
structure Invariant (w : World H γ) : Prop where
  single : Single w.db
  rows : ∀ i r, w.db.sessions.get? i = some r → Seen w.source r.sessionId r.endTime fun s =>
    Current env (reader.read r.sessionId s) r
  writes : ∀ o ∈ w.toWrite, Seen w.source o.id o.timeUpdated fun s => o = reader.read o.id s
  reads : ∀ o ∈ w.toRead, Seen w.source o.id o.timeUpdated fun s => o = reader.metadata o.id s

omit [DecidableEq H] in
theorem invariant_init : Invariant env reader (World.init : World H γ) where
  single := ⟨fun _ _ h => (nomatch h), fun _ _ _ _ h => (nomatch h)⟩
  rows := fun _ _ h => nomatch h
  writes := fun _ h => nomatch h
  reads := fun _ h => nomatch h

omit [DecidableEq H] in
/-- A change of the brain keeps the columns of the poller. -/
theorem Invariant.of_db (h : Invariant env reader w) {db : AgenticDb H γ}
    (hdb : ∀ i r, db.sessions.get? i = some r → ∃ old, w.db.sessions.get? i = some old ∧
      r = { old with
        lastEnrichedContentHash := r.lastEnrichedContentHash
        enriched := r.enriched }) :
    Invariant env reader { w with db := db } where
  single := by
    constructor
    · intro i r hr
      obtain ⟨old, hold, heq⟩ := hdb i r hr
      rw [heq]
      exact h.single.opencode i old hold
    · intro i j r r' hr hr' hid
      obtain ⟨old, hold, heq⟩ := hdb i r hr
      obtain ⟨old', hold', heq'⟩ := hdb j r' hr'
      rw [heq, heq'] at hid
      exact h.single.unique i j old old' hold hold' hid
  rows := by
    intro i r hr
    obtain ⟨old, hold, heq⟩ := hdb i r hr
    obtain ⟨s, hs, hle, hcurrent⟩ := h.rows i old hold
    rw [heq]
    exact ⟨s, hs, hle, fun ht => ⟨(hcurrent ht).summaryText, (hcurrent ht).contentHash,
      (hcurrent ht).snapshotDiffs, (hcurrent ht).messageCount, (hcurrent ht).endTime⟩⟩
  writes := h.writes
  reads := h.reads

theorem invariant_step (h : Invariant env reader w) {a : Action H} (hok : ReadsSucceed w a)
    (hstep : step env reader w a = some w') : Invariant env reader w' := by
  cases a with
  | update id s =>
    cases hstep
    exact ⟨h.single, fun i r hr => (h.rows i r hr).put hok, fun o ho => (h.writes o ho).put hok,
      fun o ho => (h.reads o ho).put hok⟩
  | startTick =>
    simp only [step] at hstep
    split at hstep
    · cases hstep
      refine { h with reads := ?_ }
      intro o ho
      obtain ⟨e, he, rfl⟩ := List.mem_map.mp ho
      have hsource : w.source.get? e.1 = some e.2 := by
        simp only [AgenticDb.newSessions, mem_orderBy, List.mem_insertionSort] at he
        exact (Table.mem_select.mp he).1
      exact ⟨e.2, hsource, le_rfl, fun _ => rfl⟩
    · cases hstep
  | readContext ok =>
    cases hok
    simp only [step] at hstep
    split at hstep
    · cases hstep
    · rename_i o rest hread
      cases hstep
      have hreads := hread ▸ h.reads
      refine { h with writes := ?_, reads := fun o' ho' => hreads o' (List.mem_cons_of_mem _ ho') }
      intro o' ho'
      rcases List.mem_append.mp ho' with hold | hnew
      · exact h.writes o' hold
      · obtain ⟨s, hs, hle, heq⟩ := hreads o List.mem_cons_self
        rw [List.mem_singleton.mp hnew]
        refine ⟨s, hs, hle, fun ht => ?_⟩
        simp only [if_true, hs, Option.map_some, Option.getD_some, OpencodeReader.read,
          OpencodeSession.withContext_id]
        rw [← heq ht]
  | write ok =>
    simp only [step] at hstep
    split at hstep
    · cases hstep
    · split at hstep
      · cases hstep
      · rename_i hreading o rest hwrite
        cases hstep
        have hwrites := hwrite ▸ h.writes
        have hrest : ∀ o' ∈ rest, Seen w.source o'.id o'.timeUpdated fun s =>
            o' = reader.read o'.id s := fun o' ho' => hwrites o' (List.mem_cons_of_mem _ ho')
        cases ok with
        | false => exact { h with writes := hrest }
        | true =>
          refine ⟨h.single.apply, ?_, hrest, h.reads⟩
          intro i r hr
          obtain ⟨-, -, ⟨-, hid, hcurrent⟩ | ⟨-, hold⟩⟩ := upsert_row h.single hr
          · obtain ⟨s, hs, hle, heq⟩ := hwrites o List.mem_cons_self
            rw [hid, hcurrent.endTime]
            exact ⟨s, hs, hle, fun ht => (heq ht) ▸ hcurrent⟩
          · exact h.rows i r hold
  | crash =>
    cases hstep
    exact ⟨h.single, h.rows, by simp, by simp⟩
  | queue i f =>
    cases hstep
    exact h.of_db fun j r hr => ⟨r, hr, rfl⟩
  | enrich i hash enriched =>
    cases hstep
    refine h.of_db fun j r hr => ?_
    rw [AgenticDb.modifySession_get?] at hr
    by_cases hj : j = i
    · rw [if_pos hj] at hr
      obtain ⟨old, hold, rfl⟩ := Option.map_eq_some_iff.mp hr
      exact ⟨old, hold, rfl⟩
    · rw [if_neg hj] at hr
      exact ⟨r, hr, rfl⟩

/-- No stored session that a tick would leave alone is behind its source. -/
def NothingLost (env : Rendering H) (reader : OpencodeReader) (w : World H γ) : Prop :=
  ∀ i r s, w.db.sessions.get? i = some r → w.source.get? r.sessionId = some s →
    s.timeUpdated ≤ r.endTime → Current env (reader.read r.sessionId s) r

omit [DecidableEq H] in
theorem Invariant.nothingLost (h : Invariant env reader w) : NothingLost env reader w := by
  intro i r s hr hs hle
  obtain ⟨s', hs', hle', hcurrent⟩ := h.rows i r hr
  cases hs.symm.trans hs'
  exact hcurrent (le_antisymm hle' hle)

/-- The reads of a tick up to its first write. -/
theorem reads_end (env : Rendering H) (reader : OpencodeReader) (w : World H γ) :
    ∃ w', Transition.Run (step env reader) ReadsSucceed w w' ∧ w'.source = w.source ∧
      w'.db = w.db ∧ w'.toRead = [] ∧
      w'.toWrite.map (fun o => (o.id, o.timeUpdated)) =
        (w.toWrite ++ w.toRead).map fun o => (o.id, o.timeUpdated) := by
  generalize hread : w.toRead = l
  induction l generalizing w with
  | nil => exact ⟨w, Transition.Run.refl w, rfl, rfl, hread, by rw [List.append_nil]⟩
  | cons o rest ih =>
    have hstep : step env reader w (.readContext true) = some { w with
        toRead := rest
        toWrite := w.toWrite ++
          [o.withContext (((w.source.get? o.id).map SourceSession.context).getD {})] } := by
      simp only [step, hread, if_true]
    obtain ⟨w', hrun, hsource, hdb, hend, hwrite⟩ := ih { w with
      toRead := rest
      toWrite := w.toWrite ++
        [o.withContext (((w.source.get? o.id).map SourceSession.context).getD {})] } rfl
    refine ⟨w', Transition.Run.head (a := .readContext true) rfl hstep hrun, hsource, hdb, hend,
      ?_⟩
    rw [hwrite]
    simp

/-- The writes of a tick up to its end. -/
theorem writes_end (env : Rendering H) (reader : OpencodeReader) (w : World H γ)
    (hsingle : Single w.db) (hread : w.toRead = []) :
    ∃ w', Transition.Run (step env reader) ReadsSucceed w w' ∧ w'.source = w.source ∧
      Single w'.db ∧
      (∀ i r, w.db.sessions.get? i = some r → (∀ o ∈ w.toWrite, o.id ≠ r.sessionId) →
        w'.db.sessions.get? i = some r) ∧
      ∀ o ∈ w.toWrite, ∃ o' ∈ w.toWrite, o'.id = o.id ∧ ∃ i r,
        w'.db.sessions.get? i = some r ∧ r.sessionId = o.id ∧ r.endTime = o'.timeUpdated := by
  generalize hwrite : w.toWrite = l
  induction l generalizing w with
  | nil =>
    exact ⟨w, Transition.Run.refl w, rfl, hsingle, fun i r hr _ => hr, fun o ho => (nomatch ho)⟩
  | cons o rest ih =>
    have hstep : step env reader w (.write true) = some { w with
        db := (opencodeUpsert env o).apply w.db
        toWrite := rest } := by
      simp [step, hread, hwrite]
    obtain ⟨w', hrun, hsource, hsingle', hkept, hdone⟩ := ih { w with
      db := (opencodeUpsert env o).apply w.db
      toWrite := rest } hsingle.apply hread rfl
    refine ⟨w', Transition.Run.head (a := .write true) trivial hstep hrun, hsource, hsingle', ?_, ?_⟩
    · intro i r hr hne
      refine hkept i r ?_ fun o' ho' => hne o' (List.mem_cons_of_mem _ ho')
      have hother : i ≠ (opencodeUpsert env o).target w.db := fun hi =>
        hne o List.mem_cons_self ((target_of_row hsingle hr).mp hi).symm
      rw [Upsert.apply_sessions_get?, if_neg hother, hr]
    · intro o' ho'
      by_cases hlater : ∃ o'' ∈ rest, o''.id = o'.id
      · obtain ⟨o'', ho'', hid⟩ := hlater
        obtain ⟨o₃, ho₃, hid₃, i, r, hr, hrid, htime⟩ := hdone o'' ho''
        exact ⟨o₃, List.mem_cons_of_mem _ ho₃, hid₃.trans hid, i, r, hr, hrid.trans hid, htime⟩
      · rcases List.mem_cons.mp ho' with rfl | hrest
        · obtain ⟨r, hr, hid, hcurrent⟩ := upsert_target_row env o' hsingle
          refine ⟨o', List.mem_cons_self, rfl, _, r, hkept _ r hr ?_, hid, hcurrent.endTime⟩
          intro o'' ho'' hid''
          exact hlater ⟨o'', ho'', hid''.trans hid⟩
        · exact absurd ⟨o', hrest, rfl⟩ hlater

/-- Where no session is lost, a tick that runs to its end leaves every session the brain does
not hold stored with its current content. -/
theorem full_tick (h : Invariant env reader w) (hread : w.toRead = [])
    (hwrite : w.toWrite = []) :
    ∃ w', Transition.Run (step env reader) ReadsSucceed w w' ∧ w'.source = w.source ∧
      ∀ id s, w.source.get? id = some s → ¬ w.db.ProcessingOpencode id →
        ∃ i r, w'.db.sessions.get? i = some r ∧ r.sessionId = id ∧
          Current env (reader.read id s) r := by
  have hstart : step env reader w .startTick = some { w with
      toRead := (w.db.newSessions w.source).map fun e => reader.metadata e.1 e.2 } := by
    simp [step, hread, hwrite]
  obtain ⟨w₁, hreads, hsource₁, hdb₁, hread₁, hwrite₁⟩ := reads_end env reader { w with
    toRead := (w.db.newSessions w.source).map fun e => reader.metadata e.1 e.2 }
  have hids : ∀ o ∈ w₁.toWrite, ∃ s, w.source.get? o.id = some s ∧
      (o.id, s) ∈ w.db.newSessions w.source ∧ o.timeUpdated = s.timeUpdated := by
    intro o ho
    have hmem : (o.id, o.timeUpdated) ∈ w₁.toWrite.map fun o => (o.id, o.timeUpdated) :=
      List.mem_map.mpr ⟨o, ho, rfl⟩
    rw [hwrite₁, hwrite, List.nil_append] at hmem
    obtain ⟨o', ho', heq⟩ := List.mem_map.mp hmem
    obtain ⟨e, he, rfl⟩ := List.mem_map.mp ho'
    obtain ⟨hid, htime⟩ := Prod.mk.inj heq
    have hsel := he
    simp only [AgenticDb.newSessions, mem_orderBy, List.mem_insertionSort] at hsel
    refine ⟨e.2, hid ▸ (Table.mem_select.mp hsel).1, hid ▸ he, htime.symm⟩
  obtain ⟨w', hwrites, hsource', -, hkept, hdone⟩ := writes_end env reader w₁
    (hdb₁ ▸ h.single) hread₁
  have hrun := (Transition.Run.head (a := .startTick) trivial hstart hreads).trans hwrites
  have hinv : Invariant env reader w' :=
    hrun.invariant (fun _ _ _ hi hok hs => invariant_step hi hok hs) h
  refine ⟨w', hrun, hsource'.trans hsource₁, ?_⟩
  intro id s hs hbusy
  have hs' : w'.source.get? id = some s := by rw [hsource', hsource₁, hs]
  have hrow : ∃ i r, w'.db.sessions.get? i = some r ∧ r.sessionId = id ∧
      s.timeUpdated ≤ r.endTime := by
    by_cases hnew : ∃ o ∈ w₁.toWrite, o.id = id
    · obtain ⟨o, ho, hid⟩ := hnew
      obtain ⟨o', ho', hid', i, r, hr, hrid, htime⟩ := hdone o ho
      obtain ⟨s', hs'', -, htime'⟩ := hids o' ho'
      rw [hid', hid, hs] at hs''
      cases hs''
      exact ⟨i, r, hr, hrid.trans hid, by omega⟩
    · -- the session was left alone, so its row is at the source's last update
      have hleft : (id, s) ∉ w.db.newSessions w.source := by
        intro hmem
        have hin : (id, s.timeUpdated) ∈ w₁.toWrite.map fun o => (o.id, o.timeUpdated) := by
          rw [hwrite₁, hwrite, List.nil_append]
          exact List.mem_map.mpr ⟨_, List.mem_map.mpr ⟨(id, s), hmem, rfl⟩, rfl⟩
        obtain ⟨o, ho, heq⟩ := List.mem_map.mp hin
        exact hnew ⟨o, ho, (Prod.mk.inj heq).1⟩
      simp only [AgenticDb.newSessions, mem_orderBy, List.mem_insertionSort,
        Table.mem_select] at hleft
      obtain ⟨stored, hstored, hle⟩ : ∃ stored ∈ w.db.knownEndTime id,
          s.timeUpdated ≤ stored := by
        by_contra hnone
        refine hleft ⟨hs, ?_, hbusy⟩
        intro stored hstored
        by_contra hlt
        exact hnone ⟨stored, hstored, by omega⟩
      obtain ⟨e, he, rfl⟩ := Option.map_eq_some_iff.mp hstored
      have hfound := List.mem_filter.mp (List.mem_of_getLast? he)
      simp only [decide_eq_true_eq] at hfound
      have hrow : w₁.db.sessions.get? e.1 = some e.2 := by
        rw [hdb₁]
        exact Table.get?_eq_some.mpr hfound.1
      refine ⟨e.1, e.2, hkept e.1 e.2 hrow ?_, hfound.2.2, hle⟩
      intro o ho hid
      exact hnew ⟨o, ho, hid.trans hfound.2.2⟩
  obtain ⟨i, r, hr, hrid, hle⟩ := hrow
  refine ⟨i, r, hr, hrid, ?_⟩
  rw [← hrid]
  exact hinv.nothingLost i r s hr (by rw [hrid]; exact hs') hle

/-- In a run without a failed context read no stored session falls behind its source unseen, and
a tick that runs to its end brings every session the brain does not hold up to date. -/
theorem polling_loses_nothing
    (hrun : Transition.Run (step env reader) ReadsSucceed World.init w) :
    NothingLost env reader w ∧ (w.toRead = [] → w.toWrite = [] →
      ∃ w', Transition.Run (step env reader) ReadsSucceed w w' ∧ w'.source = w.source ∧
        ∀ id s, w.source.get? id = some s → ¬ w.db.ProcessingOpencode id →
          ∃ i r, w'.db.sessions.get? i = some r ∧ r.sessionId = id ∧
            Current env (reader.read id s) r) := by
  have hinv : Invariant env reader w :=
    hrun.invariant (fun _ _ _ hi hok hs => invariant_step hi hok hs) invariant_init
  exact ⟨hinv.nothingLost, full_tick hinv⟩

end Runs

section Instance

/-- A rendering for concrete runs: the content hash is the prompts. -/
def promptsHash : Rendering (List String) where
  segmentHash := fun _ prompts _ => prompts
  opencodeHash := fun o => o.userPrompts
  timeRange := fun _ _ => ""
  summaryText := fun _ _ => ""
  opencodeSummaryText := fun _ => ""

/-- No text parses, and nothing is redacted. -/
def plainReader : OpencodeReader where
  parseJson := fun _ => none
  redact := id

def sourceVersion (time : ℤ) (prompts : List String) : SourceSession where
  directory := "/work"
  timeCreated := 1
  timeUpdated := time
  context := { userPrompts := prompts, messageCount := prompts.length }

/-- A session is stored, grows, and its context cannot be read in the tick that sees the growth. -/
def failedRead : List (Action (List String)) :=
  [.update "s" (sourceVersion 10 ["fix it"]), .startTick, .readContext true, .write true,
   .update "s" (sourceVersion 20 ["fix it", "and test"]), .startTick, .readContext false,
   .write true]

theorem polling_loses_nothing_once : ∃ w : World (List String) Unit,
    Transition.Run (step promptsHash plainReader) ReadsSucceed World.init w ∧
      (w.db.sessions.get? 1).map AgenticSession.contentHash = some (some ["fix it"]) ∧
      NothingLost promptsHash plainReader w := by
  obtain ⟨w, hrun, hrow⟩ : ∃ w : World (List String) Unit,
      Transition.Run (step promptsHash plainReader) ReadsSucceed World.init w ∧
        (w.db.sessions.get? 1).map AgenticSession.contentHash = some (some ["fix it"]) :=
    Transition.exists_run_of_exec (l := failedRead.take 4) (by decide +kernel)
  exact ⟨w, hrun, hrow, (polling_loses_nothing hrun).1⟩

/-- The tick with the failed read overwrites the stored session, and no tick reads the session
again. -/
theorem failed_read_loses_update : ∃ w w' : World (List String) Unit,
    Transition.Reaches (step promptsHash plainReader) World.init w ∧
      (w.db.sessions.get? 1).map AgenticSession.contentHash = some (some ["fix it"]) ∧
      Transition.Reaches (step promptsHash plainReader) w w' ∧ w'.source.get? "s" =
        some (sourceVersion 20 ["fix it", "and test"]) ∧
      (w'.db.sessions.get? 1).map AgenticSession.contentHash = some (some []) ∧
      w'.db.newSessions w'.source = [] ∧ ¬ NothingLost promptsHash plainReader w' := by
  obtain ⟨w, w', hrun, hbefore, hrun', hrow, hsource, hsel⟩ : ∃ w w' : World (List String) Unit,
      Transition.Run (step promptsHash plainReader) (fun _ _ => True) World.init w ∧
        (w.db.sessions.get? 1).map AgenticSession.contentHash = some (some ["fix it"]) ∧
        Transition.Run (step promptsHash plainReader) (fun _ _ => True) w w' ∧
        (((w'.db.sessions.get? 1).map fun r => (r.sessionId, r.endTime, r.contentHash)) =
            some ("s", 20, some []) ∧
          w'.source.get? "s" = some (sourceVersion 20 ["fix it", "and test"]) ∧
          w'.db.newSessions w'.source = []) :=
    Transition.exists_runs_of_exec (l := failedRead.take 5) (m := failedRead.drop 5)
      (by decide +kernel)
  obtain ⟨r, hr, heq⟩ := Option.map_eq_some_iff.mp hrow
  obtain ⟨hid, htime, hhash⟩ : r.sessionId = "s" ∧ r.endTime = 20 ∧ r.contentHash = some [] := by
    simpa using heq
  refine ⟨w, w', hrun, hbefore, hrun', hsource, by rw [hr, Option.map_some, hhash], hsel, ?_⟩
  intro hkept
  have hcurrent := hkept 1 r _ hr (by rw [hid]; exact hsource) (by rw [htime]; decide)
  have hhash' := hcurrent.contentHash
  rw [hhash] at hhash'
  cases hhash'

end Instance

end Opencode

end Hippo
