import Hippo.ShellEnrichment
import Hippo.Transition

/-!
# Runs of the workers over the event queue

Workers claim chunks of events, wait for the model and report, while the reaper and other
workers take over stale locks. The writer and the failure report go by event id alone, so
a report that lands after the events of its chunk are done enriches them twice or reopens
them. These are the only steps that do.
-/
namespace Hippo.Shell
open Hippo Hippo.ShellDb Hippo.Transition

/-- The variables of a claim between two sessions. -/
structure Claim where
  now : ℤ
  staleLockMs : ℤ
  worker : String
  maxPerChunk : ℕ
  remaining : Option ℕ
  sessions : List ℕ
  chunks : List (List ClaimedEvent) := []

/-- An operation between two of its commits. -/
inductive Op where
  | claiming (c : Claim)
  /-- The lock of a session is committed, its events are not read yet. -/
  | locked (c : Claim) (ids : List ℕ)
  /-- The chunks still to be enriched, the current one first. -/
  | enriching (chunks : List (List ClaimedEvent))

namespace Op

def chunks : Op → List (List ClaimedEvent)
  | claiming c | locked c _ => c.chunks
  | enriching chunks => chunks

def lockedIds : Op → List ℕ
  | locked _ ids => ids
  | _ => []

end Op

structure World (γ : Type) where
  db : ShellDb γ
  ops : List Op := []

inductive Action (γ : Type) where
  | insert (e : ShellEvent)
  | claim (now staleSecs staleLockTimeout : ℤ) (worker : String) (maxPerChunk : ℕ)
      (maxClaimBatch : Option ℕ)
  | lock (k : ℕ)
  | select (k : ℕ)
  | write (k : ℕ) (content : γ) (browserEventIds : List ℕ)
  | fail (k : ℕ) (error : String)
  | crash (k : ℕ)
  | reap (timeout now : ℤ)

section Step
variable {γ : Type}

def World.init : World γ := { db := ShellDb.empty }

/-- The ids a report of the chunk names. -/
def eventIds (chunk : List ClaimedEvent) : List ℕ := chunk.map Prod.fst

/-- One commit of the daemon, a worker or the reaper; `none` when it is not enabled. -/
def step (text : PyText) (w : World γ) : Action γ → Option (World γ)
  | .insert e => some { w with db := w.db.insertEvent e }
  | .claim now staleSecs staleLockTimeout worker maxPerChunk maxClaimBatch =>
    let staleLockMs := now - staleLockTimeout
    let sessions := w.db.claimSessions staleLockMs (now - staleSecs * 1000)
    some { w with ops := w.ops ++
      [.claiming ⟨now, staleLockMs, worker, maxPerChunk, maxClaimBatch, sessions, []⟩] }
  | .lock k =>
    match w.ops[k]? with
    | some (.claiming c) =>
      match c.sessions with
      | [] => some { w with ops := replaceAt w.ops k [.enriching c.chunks] }
      | session :: rest =>
        if c.remaining = some 0 then
          some { w with ops := replaceAt w.ops k [.enriching c.chunks] }
        else
          let ids := w.db.claimCandidates session c.staleLockMs c.remaining
          let next := { c with
            remaining := c.remaining.map fun left => left - ids.length
            sessions := rest }
          some { w with
            db := w.db.lockEvents ids c.now c.worker
            ops := replaceAt w.ops k [if ids = [] then .claiming next else .locked next ids] }
    | _ => none
  | .select k =>
    match w.ops[k]? with
    | some (.locked c ids) =>
      let (db, eligible) := skipIneligible text w.db (w.db.selectClaimed ids)
      some { w with
        db := db
        ops := replaceAt w.ops k [.claiming (if eligible = [] then c
          else { c with chunks := c.chunks ++ chunkEvents eligible c.maxPerChunk })] }
    | _ => none
  | .write k content browserEventIds =>
    match w.ops[k]? with
    | some (.enriching (chunk :: rest)) => some { w with
        db := w.db.writeKnowledgeNode content (eventIds chunk) browserEventIds
        ops := replaceAt w.ops k [.enriching rest] }
    | _ => none
  | .fail k error =>
    match w.ops[k]? with
    | some (.enriching (chunk :: rest)) => some { w with
        db := w.db.markQueueFailed (eventIds chunk) error
        ops := replaceAt w.ops k [.enriching rest] }
    | _ => none
  | .crash k => some { w with ops := replaceAt w.ops k [] }
  | .reap timeout now => some { w with db := w.db.reapStaleLocks timeout now }

/-- What a step can do, one constructor for each path through `step`. -/
inductive Effect (text : PyText) (w : World γ) : Action γ → World γ → Prop
  | insert (e : ShellEvent) : Effect text w (.insert e) { w with db := w.db.insertEvent e }
  | claim {now staleSecs staleLockTimeout worker maxPerChunk maxClaimBatch} {c : Claim}
      (hc : c.chunks = []) :
      Effect text w (.claim now staleSecs staleLockTimeout worker maxPerChunk maxClaimBatch)
        { w with ops := w.ops ++ [.claiming c] }
  | claimed {k c} (hop : w.ops[k]? = some (.claiming c)) :
      Effect text w (.lock k) { w with ops := replaceAt w.ops k [.enriching c.chunks] }
  | lock {k c ids} (hop : w.ops[k]? = some (.claiming c))
      (hids : ∀ i ∈ ids, ∃ q, w.db.queue.get? i = some q ∧ q.Claimable c.staleLockMs)
      {new : Op} (hchunks : new.chunks = c.chunks) (hlocked : ∀ i ∈ new.lockedIds, i ∈ ids) :
      Effect text w (.lock k) { w with
        db := w.db.lockEvents ids c.now c.worker
        ops := replaceAt w.ops k [new] }
  | select {k c ids} (hop : w.ops[k]? = some (.locked c ids)) {c' : Claim}
      (hc' : ∀ ev ∈ c'.chunks.flatten, ev ∈ c.chunks.flatten ∨
        (ev ∈ w.db.selectClaimed ids ∧ (ev.2.isEnrichmentEligible text).1 = true)) :
      Effect text w (.select k) { w with
        db := (skipIneligible text w.db (w.db.selectClaimed ids)).1
        ops := replaceAt w.ops k [.claiming c'] }
  | write {k chunk rest} (hop : w.ops[k]? = some (.enriching (chunk :: rest))) (content : γ)
      (browserEventIds : List ℕ) :
      Effect text w (.write k content browserEventIds) { w with
        db := w.db.writeKnowledgeNode content (eventIds chunk) browserEventIds
        ops := replaceAt w.ops k [.enriching rest] }
  | fail {k chunk rest} (hop : w.ops[k]? = some (.enriching (chunk :: rest)))
      (error : String) :
      Effect text w (.fail k error) { w with
        db := w.db.markQueueFailed (eventIds chunk) error
        ops := replaceAt w.ops k [.enriching rest] }
  | crash (k : ℕ) : Effect text w (.crash k) { w with ops := replaceAt w.ops k [] }
  | reap (timeout now : ℤ) :
      Effect text w (.reap timeout now) { w with db := w.db.reapStaleLocks timeout now }

variable {text : PyText} {w w' : World γ} {a : Action γ}

theorem step_effect (h : step text w a = some w') : Effect text w a w' := by
  cases a with
  | insert e =>
    cases h
    exact .insert e
  | claim now staleSecs staleLockTimeout worker maxPerChunk maxClaimBatch =>
    cases h
    exact .claim rfl
  | lock k =>
    simp only [step] at h
    split at h
    · rename_i c hop
      split at h
      · cases h
        exact .claimed hop
      · rename_i session rest hsessions
        split at h
        · cases h
          exact .claimed hop
        · cases h
          refine .lock hop (fun i hi => mem_claimCandidates hi) ?_ fun i hi => ?_
          · split <;> rfl
          · split at hi
            · cases hi
            · exact hi
    · cases h
  | select k =>
    simp only [step] at h
    split at h
    · rename_i c ids hop
      cases h
      refine .select hop fun ev hev => ?_
      split at hev
      · exact Or.inl hev
      · rw [List.flatten_append, chunkEvents_flatten] at hev
        exact (List.mem_append.mp hev).imp_right fun h => (List.mem_filter.mp h)
    · cases h
  | write k content browserEventIds =>
    simp only [step] at h
    split at h
    · rename_i chunk rest hop
      cases h
      exact .write hop content browserEventIds
    · cases h
  | fail k error =>
    simp only [step] at h
    split at h
    · rename_i chunk rest hop
      cases h
      exact .fail hop error
    · cases h
  | crash k =>
    cases h
    exact .crash k
  | reap timeout now =>
    cases h
    exact .reap timeout now

end Step

section Definitions
variable {γ : Type}

/-- The event is linked to the observation with rowid `n`. -/
def World.Linked (w : World γ) (i n : ℕ) : Prop :=
  w.db.store.LinkedTo .events .observation i n

def World.Done (w : World γ) (i : ℕ) : Prop :=
  w.db.queue.status? i = some .done

instance (w : World γ) (i : ℕ) : Decidable (w.Done i) := by
  unfold World.Done
  infer_instance

/-- No event is enriched twice. -/
def OneNode (w : World γ) : Prop :=
  ∀ i n n', w.Linked i n → w.Linked i n' → n = n'

/-- Nothing done in `w` has been reopened in `w'`. -/
def StaysDone (w w' : World γ) : Prop :=
  ∀ i, w.Done i → w'.Done i

/-- A report of a chunk lands while none of its events is done. -/
def ReportsFirst (w : World γ) : Action γ → Prop
  | .write k _ _ | .fail k _ => match w.ops[k]? with
    | some (.enriching (chunk :: _)) => ∀ i ∈ eventIds chunk, ¬ w.Done i
    | _ => True
  | _ => True

instance (w : World γ) (a : Action γ) : Decidable (ReportsFirst w a) := by
  cases a <;> unfold ReportsFirst <;> dsimp only <;> (try split) <;> infer_instance

end Definitions

section Invariant
variable {γ : Type} {text : PyText} {w w' : World γ} {a : Action γ}

/-- The event is eligible and has a queue row. -/
def World.Worthy (text : PyText) (w : World γ) (i : ℕ) : Prop :=
  (∃ e, w.db.events.get? i = some e ∧ (e.isEnrichmentEligible text).1 = true) ∧
    (w.db.queue.get? i).isSome

/-- An event is done exactly when it has its one node, and what is done or handed out to a
worker is eligible, so that no skip reaches it. -/
structure Once (text : PyText) (w : World γ) : Prop where
  single : OneNode w
  linked : ∀ i n, w.Linked i n → w.Done i
  made : ∀ i, w.Done i → ∃ n, w.Linked i n
  worthy : ∀ i, w.Done i → w.Worthy text i
  chunked : ∀ op ∈ w.ops, ∀ ev ∈ op.chunks.flatten, w.Worthy text ev.1
  locked : ∀ op ∈ w.ops, ∀ i ∈ op.lockedIds, (w.db.queue.get? i).isSome

theorem once_init : Once text (World.init : World γ) where
  single := by
    intro i n n' h
    cases h.1
  linked := by
    intro i n h
    cases h.1
  made := by
    intro i h
    cases h
  worthy := by
    intro i h
    cases h
  chunked := by
    intro op h
    cases h
  locked := by
    intro op h
    cases h

/-- A step keeps every event with what was captured, and every queue row. -/
structure Keeps (w w' : World γ) : Prop where
  events : ∀ i e, w.db.events.get? i = some e →
    ∃ b, w'.db.events.get? i = some { e with enriched := b }
  rows : ∀ i, (w.db.queue.get? i).isSome → (w'.db.queue.get? i).isSome

theorem Keeps.worthy (h : Keeps w w') {i : ℕ} (hi : w.Worthy text i) : w'.Worthy text i := by
  obtain ⟨⟨e, he, helig⟩, hrow⟩ := hi
  obtain ⟨b, hb⟩ := h.events i e he
  exact ⟨⟨_, hb, helig⟩, h.rows i hrow⟩

theorem Keeps.of_eq (hevents : w'.db.events = w.db.events)
    (hrows : ∀ i, (w.db.queue.get? i).isSome → (w'.db.queue.get? i).isSome) : Keeps w w' :=
  ⟨fun _ e he => ⟨e.enriched, hevents ▸ he⟩, hrows⟩

theorem keeps_of_step (hs : step text w a = some w') : Keeps w w' := by
  cases step_effect hs with
  | insert e =>
    rcases w.db.insertEvent_cases e with h | ⟨hevents, hfresh, hqueue⟩
    · exact .of_eq (congrArg (fun db : ShellDb γ => db.events) h) fun _ hi => by rwa [h]
    · constructor
      · intro i e' he'
        have hne : i ≠ w.db.events.nextRowid := by
          intro h
          rw [h, Table.get?_nextRowid] at he'
          cases he'
        refine ⟨e'.enriched, ?_⟩
        rw [hevents, if_neg hne, he']
      · intro i hi
        rw [hqueue]
        split
        · rfl
        · exact hi
  | lock hop hids hchunks hlocked =>
    refine .of_eq rfl fun i hi => ?_
    rw [lockEvents_queue_get?, Option.isSome_map]
    exact hi
  | select hop hc' =>
    exact ⟨fun i e he => (skipIneligible_keeps w.db _ i).2.2 e he,
      fun i hi => (skipIneligible_keeps w.db _ i).1 hi⟩
  | write hop content browserEventIds =>
    constructor
    · intro i e he
      rw [writeKnowledgeNode_events_get?, he, Option.map_some]
      split
      · exact ⟨true, rfl⟩
      · exact ⟨e.enriched, rfl⟩
    · intro i hi
      rw [writeKnowledgeNode_queue_get?, Option.isSome_map]
      exact hi
  | fail hop error =>
    rename_i k chunk rest
    refine .of_eq (markQueueFailed_events _ _ _) fun i hi => ?_
    rcases w.db.markQueueFailed_queue_cases (eventIds chunk) error i with ⟨-, h⟩ | ⟨-, h⟩
    · rwa [h]
    · obtain ⟨q, hq⟩ := Option.isSome_iff_exists.mp hi
      obtain ⟨q', hq'⟩ := h q hq
      rw [hq']
      rfl
  | reap timeout now =>
    refine .of_eq rfl fun i hi => ?_
    rw [reapStaleLocks_queue_get?, Option.isSome_map]
    exact hi
  | _ => exact .of_eq rfl fun _ hi => hi

/-- What a worker has in hand after a step it had before, or it is worth enriching. -/
theorem Once.ops_of_step (h : Once text w) (hs : step text w a = some w') :
    (∀ op ∈ w'.ops, ∀ ev ∈ op.chunks.flatten, w'.Worthy text ev.1) ∧
      ∀ op ∈ w'.ops, ∀ i ∈ op.lockedIds, (w'.db.queue.get? i).isSome := by
  have hkeeps : Keeps w w' := keeps_of_step hs
  have old : ∀ op ∈ w.ops, (∀ ev ∈ op.chunks.flatten, w'.Worthy text ev.1) ∧
      ∀ i ∈ op.lockedIds, (w'.db.queue.get? i).isSome :=
    fun op hop => ⟨fun ev hev => hkeeps.worthy (h.chunked op hop ev hev),
      fun i hi => hkeeps.rows i (h.locked op hop i hi)⟩
  suffices hops : ∀ op ∈ w'.ops, (∀ ev ∈ op.chunks.flatten, w'.Worthy text ev.1) ∧
      ∀ i ∈ op.lockedIds, (w'.db.queue.get? i).isSome from
    ⟨fun op hop => (hops op hop).1, fun op hop => (hops op hop).2⟩
  have replaced : ∀ {k : ℕ} {new : List Op}, w'.ops = replaceAt w.ops k new →
      (∀ op ∈ new, (∀ ev ∈ op.chunks.flatten, w'.Worthy text ev.1) ∧
        ∀ i ∈ op.lockedIds, (w'.db.queue.get? i).isSome) →
      ∀ op ∈ w'.ops, (∀ ev ∈ op.chunks.flatten, w'.Worthy text ev.1) ∧
        ∀ i ∈ op.lockedIds, (w'.db.queue.get? i).isSome := by
    intro k new heq hnew op hop
    rw [heq] at hop
    rcases mem_replaceAt hop with hop | hop
    · exact old op hop
    · exact hnew op hop
  cases step_effect hs with
  | insert _ => exact old
  | claim hc =>
    intro op hop
    rcases List.mem_append.mp hop with hop | hop
    · exact old op hop
    · rw [List.mem_singleton.mp hop, Op.chunks, hc]
      exact ⟨fun ev hev => absurd hev List.not_mem_nil, fun i hi => absurd hi List.not_mem_nil⟩
  | claimed hop =>
    refine replaced rfl fun op hnew => ?_
    rw [List.mem_singleton.mp hnew]
    exact ⟨(old _ (List.mem_of_getElem? hop)).1, fun i hi => absurd hi List.not_mem_nil⟩
  | lock hop hids hchunks hlocked =>
    refine replaced rfl fun op hnew => ?_
    rw [List.mem_singleton.mp hnew, hchunks]
    refine ⟨(old _ (List.mem_of_getElem? hop)).1, fun i hi => hkeeps.rows i ?_⟩
    obtain ⟨q, hq, -⟩ := hids i (hlocked i hi)
    rw [hq]
    rfl
  | select hop hc' =>
    refine replaced rfl fun op hnew => ?_
    rw [List.mem_singleton.mp hnew]
    refine ⟨fun ev hev => ?_, fun i hi => absurd hi List.not_mem_nil⟩
    rcases hc' ev hev with hev | ⟨hev, helig⟩
    · exact (old _ (List.mem_of_getElem? hop)).1 ev hev
    · obtain ⟨hget, hid, -⟩ := mem_selectClaimed.mp hev
      exact hkeeps.worthy ⟨⟨ev.2, hget, helig⟩, h.locked _ (List.mem_of_getElem? hop) ev.1 hid⟩
  | write hop content browserEventIds | fail hop error =>
    refine replaced rfl fun op hnew => ?_
    rw [List.mem_singleton.mp hnew]
    refine ⟨fun ev hev => ?_, fun i hi => absurd hi List.not_mem_nil⟩
    exact (old _ (List.mem_of_getElem? hop)).1 ev (List.mem_append_right _ hev)
  | crash k => exact replaced rfl fun op hnew => absurd hnew List.not_mem_nil
  | reap timeout now => exact old

/-- A step that writes no node and neither closes nor reopens a row keeps the invariant. -/
theorem Once.frame (h : Once text w) (hs : step text w a = some w')
    (hstore : w'.db.store = w.db.store) (hdone : ∀ i, w'.Done i ↔ w.Done i) :
    Once text w' where
  single := by
    intro i n n' hn hn'
    rw [World.Linked, hstore] at hn hn'
    exact h.single i n n' hn hn'
  linked := by
    intro i n hn
    rw [World.Linked, hstore] at hn
    exact (hdone i).mpr (h.linked i n hn)
  made := by
    intro i hi
    rw [hdone] at hi
    simpa only [World.Linked, hstore] using h.made i hi
  worthy := fun i hi => (keeps_of_step hs).worthy (h.worthy i ((hdone i).mp hi))
  chunked := (h.ops_of_step hs).1
  locked := (h.ops_of_step hs).2

/-- The rows a step changes were not done and are not done after it. -/
theorem done_iff_of_map {q q' : Queue} {p : QueueRow → Prop} [DecidablePred p] {i : ℕ}
    {f : QueueRow → QueueRow} (hget : q'.get? i = (q.get? i).map fun r => if p r then f r else r)
    (hp : ∀ r, q.get? i = some r → p r → r.status ≠ .done ∧ (f r).status ≠ .done) :
    q'.status? i = some .done ↔ q.status? i = some .done := by
  rw [Queue.status?, Queue.status?, hget]
  cases hq : q.get? i with
  | none => rfl
  | some r =>
    rw [Option.map_some, Option.map_some, Option.map_some]
    by_cases hr : p r
    · obtain ⟨hold, hnew⟩ := hp r hq hr
      simp only [hr, if_true, Option.some.injEq, hold, hnew]
    · rw [if_neg hr]

theorem charged_not_done (r : QueueRow) (error : String) :
    (r.chargeRetry error).status ≠ .done := by
  rw [QueueRow.chargeRetry_status]
  split <;> decide

/-- A report that comes first closes its events with one node, and any other step leaves
what is done alone. -/
theorem once_step (h : Once text w) (hok : ReportsFirst w a) (hs : step text w a = some w') :
    Once text w' ∧ StaysDone w w' := by
  have framed : w'.db.store = w.db.store → (∀ i, w'.Done i ↔ w.Done i) →
      Once text w' ∧ StaysDone w w' :=
    fun hstore hdone => ⟨h.frame hs hstore hdone, fun i hi => (hdone i).mpr hi⟩
  cases step_effect hs with
  | insert e =>
    rcases w.db.insertEvent_cases e with heq | ⟨-, hfresh, hqueue⟩
    · exact framed (congrArg ShellDb.store heq) fun i => by rw [World.Done, heq]; rfl
    · refine framed rfl fun i => ?_
      rw [World.Done, World.Done, Queue.status?, hqueue, Queue.status?]
      split
      · rename_i hnew
        rw [hnew.1, hfresh]
        exact iff_of_false (by simp) (by simp)
      · rfl
  | lock hop hids hchunks hlocked =>
    refine framed rfl fun i => done_iff_of_map (lockEvents_queue_get? _ _ _ _ i) fun r hr hi => ?_
    obtain ⟨q, hq, hclaim⟩ := hids i hi
    rw [hr, Option.some.injEq] at hq
    subst hq
    refine ⟨fun hdone => ?_, by simp⟩
    rcases hclaim with hst | ⟨hst, -⟩ <;> rw [hst] at hdone <;> cases hdone
  | select hop hc' =>
    rename_i k c ids c'
    refine framed (skipIneligible_store _ _) fun i =>
      ⟨fun hi => (skipIneligible_keeps w.db _ i).2.1 hi, fun hi => ?_⟩
    obtain ⟨⟨e, he, helig⟩, -⟩ := h.worthy i hi
    rw [World.Done, Queue.status?, skipIneligible_queue_get?]
    · exact hi
    · intro e' he'
      rw [(mem_selectClaimed.mp he').1, Option.some.injEq] at he
      exact he ▸ helig
  | write hop content browserEventIds =>
    rename_i k chunk rest
    have hfirst : ∀ i ∈ eventIds chunk, ¬ w.Done i := by
      rw [ReportsFirst, hop] at hok
      exact hok
    have hworthy : ∀ i ∈ eventIds chunk, w.Worthy text i := by
      intro i hi
      obtain ⟨ev, hev, rfl⟩ := List.mem_map.mp hi
      exact h.chunked _ (List.mem_of_getElem? hop) ev (List.mem_append_left _ hev)
    have hdone : ∀ i, (⟨w.db.writeKnowledgeNode content (eventIds chunk) browserEventIds,
        replaceAt w.ops k [.enriching rest]⟩ : World γ).Done i ↔
          w.Done i ∨ i ∈ eventIds chunk := by
      intro i
      rw [World.Done, Queue.status?, writeKnowledgeNode_queue_get?, World.Done, Queue.status?]
      by_cases hi : i ∈ eventIds chunk
      · obtain ⟨q, hq⟩ := Option.isSome_iff_exists.mp (hworthy i hi).2
        simp only [hq, hi, if_true, Option.map_some, QueueRow.markDone_status, or_true]
      · simp only [hi, if_false, Option.map_id', or_false]
    have fresh : ∀ i n, w.Linked i n → n ≠ w.db.store.nodes.nextRowid :=
      fun i n hn => w.db.store.nextRowid_not_linked hn.1
    refine ⟨⟨fun i n n' hn hn' => ?_, fun i n hn => (hdone i).mpr ?_, fun i hi => ?_,
      fun i hi => (keeps_of_step hs).worthy ?_, (h.ops_of_step hs).1, (h.ops_of_step hs).2⟩,
      fun i hi => (hdone i).mpr (Or.inl hi)⟩
    · rcases linkedTo_writeKnowledgeNode.mp hn with hn | ⟨hn, hi⟩ <;>
        rcases linkedTo_writeKnowledgeNode.mp hn' with hn' | ⟨hn', hi'⟩
      · exact h.single i n n' hn hn'
      · exact absurd (h.linked i n hn) (hfirst i hi')
      · exact absurd (h.linked i n' hn') (hfirst i hi)
      · rw [hn, hn']
    · rcases linkedTo_writeKnowledgeNode.mp hn with hn | ⟨-, hi⟩
      · exact Or.inl (h.linked i n hn)
      · exact Or.inr hi
    · rcases (hdone i).mp hi with hi | hi
      · obtain ⟨n, hn⟩ := h.made i hi
        exact ⟨n, linkedTo_writeKnowledgeNode.mpr (Or.inl hn)⟩
      · exact ⟨_, linkedTo_writeKnowledgeNode.mpr (Or.inr ⟨rfl, hi⟩)⟩
    · rcases (hdone i).mp hi with hi | hi
      · exact h.worthy i hi
      · exact hworthy i hi
  | fail hop error =>
    rename_i k chunk rest
    have hfirst : ∀ i ∈ eventIds chunk, ¬ w.Done i := by
      rw [ReportsFirst, hop] at hok
      exact hok
    refine framed (markQueueFailed_store _ _ _) fun i => ?_
    rw [World.Done, World.Done, Queue.status?, Queue.status?]
    rcases w.db.markQueueFailed_queue_cases (eventIds chunk) error i with ⟨-, hget⟩ | ⟨hi, hget⟩
    · rw [hget]
    · refine iff_of_false (fun hnew => ?_) (hfirst i hi)
      cases hq : w.db.queue.get? i with
      | none =>
        have hnone : ¬ (w.db.queue.get? i).isSome := by simp [hq]
        obtain ⟨ev, hev, rfl⟩ := List.mem_map.mp hi
        exact hnone (h.chunked _ (List.mem_of_getElem? hop) ev (List.mem_append_left _ hev)).2
      | some q =>
        obtain ⟨q', hq'⟩ := hget q hq
        rw [hq', Option.map_some, Option.some.injEq] at hnew
        exact charged_not_done q' error hnew
  | reap timeout now =>
    refine framed rfl fun i =>
      done_iff_of_map (reapStaleLocks_queue_get? _ _ _ i) fun r _ hstale => ?_
    refine ⟨fun hdone => ?_, charged_not_done r _⟩
    rw [hdone] at hstale
    cases hstale.1
  | _ => exact framed rfl fun _ => Iff.rfl

/-- A report after one of its events is done links that event again, or reopens it. -/
theorem not_once_of_late (h : Once text w) (hlate : ¬ ReportsFirst w a)
    (hs : step text w a = some w') : ¬ (OneNode w' ∧ StaysDone w w') := by
  rintro ⟨hone, hstays⟩
  cases step_effect hs with
  | write hop content browserEventIds =>
    rename_i k chunk rest
    simp only [ReportsFirst, hop, not_forall, not_not] at hlate
    obtain ⟨i, hi, hdone⟩ := hlate
    obtain ⟨n, hn⟩ := h.made i hdone
    let written := w.db.writeKnowledgeNode content (eventIds chunk) browserEventIds
    have hold : written.store.LinkedTo .events .observation i n :=
      linkedTo_writeKnowledgeNode.mpr (Or.inl hn)
    have hnew : written.store.LinkedTo .events .observation i w.db.store.nodes.nextRowid :=
      linkedTo_writeKnowledgeNode.mpr (Or.inr ⟨rfl, hi⟩)
    exact w.db.store.nextRowid_not_linked hn.1 (hone i _ _ hold hnew)
  | fail hop error =>
    rename_i k chunk rest
    simp only [ReportsFirst, hop, not_forall, not_not] at hlate
    obtain ⟨i, hi, hdone⟩ := hlate
    have hopen := hstays i hdone
    rcases w.db.markQueueFailed_queue_cases (eventIds chunk) error i with ⟨hnot, -⟩ | ⟨-, hget⟩
    · exact hnot hi
    · obtain ⟨q, hq⟩ := Option.isSome_iff_exists.mp (h.worthy i hdone).2
      obtain ⟨q', hq'⟩ := hget q hq
      rw [World.Done, Queue.status?, hq', Option.map_some, Option.some.injEq] at hopen
      exact charged_not_done q' error hopen
  | _ => exact hlate trivial

theorem once_of_run (h : Run (step text) ReportsFirst World.init w) : Once text w :=
  h.invariant (fun _ _ _ hw hok hs => (once_step hw hok hs).1) once_init

/-- **Enriched once.** While every report comes before its events are done, an event has at
most one node and stays done, and a step breaks this exactly when its report comes late. -/
theorem enriched_once_iff_reportsFirst (h : Run (step text) ReportsFirst World.init w) :
    OneNode w ∧ (∀ w', Run (step text) ReportsFirst w w' → StaysDone w w') ∧
      ∀ a w', step text w a = some w' → (ReportsFirst w a ↔ OneNode w' ∧ StaysDone w w') := by
  have hw : Once text w := once_of_run h
  refine ⟨hw.single, fun w' hrun => ?_, fun a w' hs => ⟨fun hok => ?_, fun hgood => ?_⟩⟩
  · refine (hrun.invariant (I := fun v => Once text v ∧ StaysDone w v) ?_ ⟨hw, fun _ => id⟩).2
    intro s a t hs hok hstep
    obtain ⟨hnext, hstays⟩ := once_step hs.1 hok hstep
    exact ⟨hnext, fun i hi => hstays i (hs.2 i hi)⟩
  · obtain ⟨hnext, hstays⟩ := once_step hw hok hs
    exact ⟨hnext.single, hstays⟩
  · by_contra hlate
    exact not_once_of_late hw hlate hs hgood

end Invariant

section Race

/-- ASCII text, for concrete runs. -/
def asciiText : PyText := ⟨Char.isAlphanum, fun s => "'" ++ s ++ "'"⟩

/-- Worker A takes a chunk and waits on the model; its lock goes stale and worker B takes
the same chunk over and writes its node. -/
def takenOver : List (Action Unit) :=
  [.insert ⟨1, 0, "cargo build", none, none, 5000, none, none, false⟩,
   .claim 1000000 120 600000 "A" 10 none, .lock 0, .select 0, .lock 0,
   .claim 2000000 120 600000 "B" 10 none, .lock 1, .select 1, .lock 1, .write 1 () []]

/-- When A's model answers after all, its node is a second one for the event; when its model
fails, its report makes the event pending again. -/
theorem lateReport_repeats : ∃ w : World Unit, Run (step asciiText) ReportsFirst World.init w ∧
    w.Done 1 ∧
    (∃ w', step asciiText w (.write 0 () []) = some w' ∧ w'.Linked 1 1 ∧ w'.Linked 1 2) ∧
    ∃ w', step asciiText w (.fail 0 "timeout") = some w' ∧
      w'.db.queue.status? 1 = some .pending := by
  obtain ⟨w, hrun, hdone, hwrite, hfail⟩ : ∃ w : World Unit,
      Run (step asciiText) ReportsFirst World.init w ∧ (w.Done 1 ∧
        (∃ w' ∈ step asciiText w (.write 0 () []),
          w'.db.store.LinkedTo .events .observation 1 1 ∧
            w'.db.store.LinkedTo .events .observation 1 2) ∧
        ∃ w' ∈ step asciiText w (.fail 0 "timeout"), w'.db.queue.status? 1 = some .pending) :=
    exists_run_of_exec (l := takenOver) (by decide)
  exact ⟨w, hrun, hdone, hwrite, hfail⟩

/-- Up to B's node the same run is good. -/
theorem takenOver_once : ∃ w : World Unit, Run (step asciiText) ReportsFirst World.init w ∧
    w.Done 1 ∧ OneNode w := by
  obtain ⟨w, hrun, hdone⟩ : ∃ w : World Unit,
      Run (step asciiText) ReportsFirst World.init w ∧ w.Done 1 :=
    exists_run_of_exec (l := takenOver) (by decide)
  exact ⟨w, hrun, hdone, (enriched_once_iff_reportsFirst hrun).1⟩

end Race

end Hippo.Shell
