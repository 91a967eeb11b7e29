import Hippo.FallbackFiles
import Hippo.Transition
import Mathlib.Data.List.Perm.Basic

/-!
# The daemon's event buffer

Requests put envelopes into a bounded buffer; a flush drains a batch and writes each
envelope to the database, or to the fallback file when a session or an insert fails. Every
acknowledged envelope is in exactly one place, and the drop counter counts the refused
ones and every failed insert, also where the fallback write succeeded.
-/
namespace Hippo.Daemon
open Hippo Hippo.FallbackDir Hippo.Transition

/-- What the daemon is configured with, and the two functions it calls on payloads. -/
structure DaemonState where
  flushBatchSize : ℕ
  redactShellEvent : ShellPayload → ShellPayload
  codec : JsonCodec

/-- How a fallback write ends; a failed one may leave part of the line. -/
inductive FallbackWrite where
  | written
  | failed (n : ℕ) (mid : Bool)
deriving DecidableEq

/-- What an insert of the flush meets. `session` is read for shell events only. -/
structure Outcome where
  session : Option ℕ
  insertOk : Bool
  date : String
  fallback : FallbackWrite

/-- The buffer, the drained batches, the tables, the files and the counter. The lists at the
end are history: where each acknowledgement has gone. -/
structure World where
  db : IngestDb
  dir : FallbackDir
  buffer : List EventEnvelope := []
  batches : List (List EventEnvelope) := []
  dropCount : ℕ := 0
  acked : List EventEnvelope := []
  stored : List EventEnvelope := []
  fallback : List EventEnvelope := []
  /-- Acknowledged while the buffer was full. -/
  refused : List EventEnvelope := []
  /-- Failed, with a failed fallback write. -/
  lost : List EventEnvelope := []
  /-- Of a kind the flush has no table for. -/
  skipped : List EventEnvelope := []

inductive Action where
  | ingestEvent (e : EventEnvelope)
  /-- The drain at the start of `flush_events`. -/
  | drain
  /-- The next envelope of the `k`-th batch. -/
  | flushNext (k : ℕ) (outcome : Outcome)

section Step
variable (state : DaemonState)

def World.start (db : IngestDb) (dir : FallbackDir) : World := { db := db, dir := dir }

/-- The buffer's capacity. -/
def DaemonState.cap : ℕ := state.flushBatchSize * 4

/-- What the flush stores of an envelope, and writes to the fallback file. -/
def DaemonState.redact (e : EventEnvelope) : EventEnvelope :=
  match e.payload with
  | .shell p => { e with payload := .shell (state.redactShellEvent p) }
  | _ => e

/-- The `IngestEvent` request, which is acknowledged in any case. -/
def ingestEvent (w : World) (e : EventEnvelope) : World :=
  if state.cap ≤ w.buffer.length then
    { w with
      dropCount := w.dropCount + 1
      acked := w.acked ++ [e]
      refused := w.refused ++ [e] }
  else { w with buffer := w.buffer ++ [e], acked := w.acked ++ [e] }

/-- A failed session or insert: the fallback write, and the counter in any case. -/
def fallBack (w : World) (e : EventEnvelope) (outcome : Outcome) : World :=
  match outcome.fallback with
  | .written => { w with
      dir := writeFallbackJsonl state.codec w.dir outcome.date (state.redact e)
      dropCount := w.dropCount + 1
      fallback := w.fallback ++ [e] }
  | .failed n mid => { w with
      dir := w.dir.append outcome.date (tornLine state.codec (state.redact e) n mid)
      dropCount := w.dropCount + 1
      lost := w.lost ++ [e] }

def insertOrFallBack (w : World) (e : EventEnvelope) (sessionId : ℕ) (outcome : Outcome) :
    World :=
  if outcome.insertOk then
    { w with
      db := w.db.insertEnvelope (state.redact e) sessionId
      stored := w.stored ++ [e] }
  else fallBack state w e outcome

/-- The loop body of `flush_events`. -/
def flushEnvelope (w : World) (e : EventEnvelope) (outcome : Outcome) : World :=
  match e.payload with
  | .shell _ => match outcome.session with
    | none => fallBack state w e outcome
    | some sessionId => insertOrFallBack state w e sessionId outcome
  | .browser _ => insertOrFallBack state w e 0 outcome
  | .other => { w with skipped := w.skipped ++ [e] }

def step (w : World) : Action → Option World
  | .ingestEvent e => some (ingestEvent state w e)
  | .drain =>
    let n := min w.buffer.length state.flushBatchSize
    some { w with buffer := w.buffer.drop n, batches := w.batches ++ [w.buffer.take n] }
  | .flushNext k outcome => match w.batches[k]? with
    | some (e :: rest) =>
      some (flushEnvelope state { w with batches := replaceAt w.batches k [rest] } e outcome)
    | _ => none

end Step

section Conservation
variable {state : DaemonState} {w w' : World} {a : Action}

/-- The envelope's line is in a fallback file. -/
def InFallback (codec : JsonCodec) (dir : FallbackDir) (e : EventEnvelope) : Prop :=
  ∃ i f, dir.get? i = some f ∧ ∃ pre post, f.content = pre ++ codec.lineOf e ++ post

theorem InFallback.append {codec : JsonCodec} {dir : FallbackDir} {e : EventEnvelope}
    (h : InFallback codec dir e) (date : String) (new : Content) :
    InFallback codec (dir.append date new) e := by
  obtain ⟨i, f, hf, pre, post, hline⟩ := h
  rcases dir.get?_append_cases date new with ⟨k, g, hg, -, -, hget⟩ | ⟨-, hget⟩
  · by_cases hi : i = k
    · rw [hi, hg, Option.some.injEq] at hf
      subst hf
      refine ⟨k, _, by rw [hget, if_pos rfl], pre, post ++ new, ?_⟩
      rw [hline, List.append_assoc]
    · exact ⟨i, f, by rw [hget, if_neg hi, hf], pre, post, hline⟩
  · have hi : i ≠ dir.nextRowid := by
      intro hi
      rw [hi, Table.get?_nextRowid] at hf
      cases hf
    exact ⟨i, f, by rw [hget, if_neg hi, hf], pre, post, hline⟩

theorem inFallback_write (codec : JsonCodec) (dir : FallbackDir) (date : String)
    (e : EventEnvelope) : InFallback codec (writeFallbackJsonl codec dir date e) e := by
  unfold writeFallbackJsonl
  rcases dir.get?_append_cases date (codec.lineOf e) with ⟨k, g, -, -, -, hget⟩ | ⟨-, hget⟩
  · exact ⟨k, _, by rw [hget, if_pos rfl], g.content, [], (List.append_nil _).symm⟩
  · exact ⟨_, _, by rw [hget, if_pos rfl], [], [], (List.append_nil _).symm⟩

/-- Every place an acknowledged envelope can be in. -/
def World.places (w : World) : List EventEnvelope :=
  w.buffer ++ w.batches.flatten ++ w.stored ++ w.fallback ++ w.refused ++ w.lost ++ w.skipped

/-- What the daemon says of an envelope is so, and the counter counts what it should. -/
structure Settled (state : DaemonState) (w : World) : Prop where
  counted : w.dropCount = w.refused.length + (w.lost.length + w.fallback.length)
  stored : ∀ e ∈ w.stored, w.db.Stored e
  written : ∀ e ∈ w.fallback, InFallback state.codec w.dir (state.redact e)
  skipped : ∀ e ∈ w.skipped, e.payload = .other
  bounded : w.buffer.length ≤ state.cap

/-- Every acknowledged envelope is in exactly one place. -/
structure Conserved (state : DaemonState) (w : World) : Prop extends Settled state w where
  balance : w.acked.Perm w.places

theorem conserved_start (state : DaemonState) (db : IngestDb) (dir : FallbackDir) :
    Conserved state (World.start db dir) where
  counted := rfl
  stored := by
    intro e he
    cases he
  written := by
    intro e he
    cases he
  skipped := by
    intro e he
    cases he
  bounded := Nat.zero_le _
  balance := List.Perm.refl _

/-- Redaction keeps an envelope's id and kind, so it is stored under the same id. -/
theorem stored_redact (state : DaemonState) {db : IngestDb} {e : EventEnvelope} :
    db.Stored (state.redact e) ↔ db.Stored e := by
  obtain ⟨id, timestamp, payload, probeTag⟩ := e
  cases payload <;> exact Iff.rfl

theorem redact_payload_ne {e : EventEnvelope} (h : e.payload ≠ .other) :
    (state.redact e).payload ≠ .other := by
  obtain ⟨id, timestamp, payload, probeTag⟩ := e
  cases payload with
  | shell p => nofun
  | browser url => nofun
  | other => exact absurd rfl h

/-- What the loop body of the flush can do with an envelope. -/
inductive Flushed (state : DaemonState) (w : World) (e : EventEnvelope) : World → Prop
  | stored (sessionId : ℕ) (hkind : e.payload ≠ .other) : Flushed state w e { w with
      db := w.db.insertEnvelope (state.redact e) sessionId
      stored := w.stored ++ [e] }
  | fellBack (date : String) : Flushed state w e { w with
      dir := writeFallbackJsonl state.codec w.dir date (state.redact e)
      dropCount := w.dropCount + 1
      fallback := w.fallback ++ [e] }
  | lost (date : String) (torn : Content) : Flushed state w e { w with
      dir := w.dir.append date torn
      dropCount := w.dropCount + 1
      lost := w.lost ++ [e] }
  | skipped (hkind : e.payload = .other) :
      Flushed state w e { w with skipped := w.skipped ++ [e] }

theorem flushEnvelope_flushed (state : DaemonState) (w : World) (e : EventEnvelope)
    (outcome : Outcome) : Flushed state w e (flushEnvelope state w e outcome) := by
  have failed : Flushed state w e (fallBack state w e outcome) := by
    unfold fallBack
    split
    · exact .fellBack _
    · exact .lost _ _
  have inserted : ∀ sessionId, e.payload ≠ .other →
      Flushed state w e (insertOrFallBack state w e sessionId outcome) := by
    intro sessionId hkind
    unfold insertOrFallBack
    split
    · exact .stored sessionId hkind
    · exact failed
  unfold flushEnvelope
  split
  · rename_i p hkind
    split
    · exact failed
    · exact inserted _ (by simp [hkind])
  · rename_i url hkind
    exact inserted 0 (by simp [hkind])
  · rename_i hkind
    exact .skipped hkind

/-- The envelope taken from a batch goes to one of the other places. -/
theorem conserved_flushed {e : EventEnvelope} (h : Settled state w)
    (hbalance : w.acked.Perm (e :: w.places)) (hf : Flushed state w e w') :
    Conserved state w' := by
  have hcount : ∀ x, w.acked.count x = (e :: w.places).count x :=
    fun x => List.perm_iff_count.mp hbalance x
  simp only [World.places, List.count_cons, List.count_append] at hcount
  cases hf with
  | stored sessionId hkind =>
    refine ⟨⟨h.counted, fun x hx => ?_, h.written, h.skipped, h.bounded⟩,
      List.perm_iff_count.mpr fun x => ?_⟩
    · rcases List.mem_append.mp hx with hx | hx
      · exact IngestDb.stored_insertEnvelope (h.stored x hx) _ _
      · rw [List.mem_singleton.mp hx, ← stored_redact state]
        exact w.db.stored_insertEnvelope_self sessionId (redact_payload_ne hkind)
    · have hx := hcount x
      simp only [World.places, List.count_append, List.count_singleton]
      omega
  | fellBack date =>
    refine ⟨⟨?_, h.stored, fun x hx => ?_, h.skipped, h.bounded⟩,
      List.perm_iff_count.mpr fun x => ?_⟩
    · have hcounted := h.counted
      simp only [List.length_append, List.length_singleton]
      omega
    · rcases List.mem_append.mp hx with hx | hx
      · exact (h.written x hx).append date _
      · rw [List.mem_singleton.mp hx]
        exact inFallback_write state.codec w.dir date (state.redact e)
    · have hx := hcount x
      simp only [World.places, List.count_append, List.count_singleton]
      omega
  | lost date torn =>
    refine ⟨⟨?_, h.stored, fun x hx => (h.written x hx).append date torn, h.skipped, h.bounded⟩,
      List.perm_iff_count.mpr fun x => ?_⟩
    · have hcounted := h.counted
      simp only [List.length_append, List.length_singleton]
      omega
    · have hx := hcount x
      simp only [World.places, List.count_append, List.count_singleton]
      omega
  | skipped hkind =>
    refine ⟨⟨h.counted, h.stored, h.written, fun x hx => ?_, h.bounded⟩,
      List.perm_iff_count.mpr fun x => ?_⟩
    · rcases List.mem_append.mp hx with hx | hx
      · exact h.skipped x hx
      · rw [List.mem_singleton.mp hx, hkind]
    · have hx := hcount x
      simp only [World.places, List.count_append, List.count_singleton]
      omega

theorem conserved_ingest (h : Conserved state w) (e : EventEnvelope) :
    Conserved state (ingestEvent state w e) := by
  have hcount : ∀ x, w.acked.count x = w.places.count x :=
    fun x => List.perm_iff_count.mp h.balance x
  simp only [World.places, List.count_append] at hcount
  unfold ingestEvent
  split
  · refine ⟨⟨?_, h.stored, h.written, h.skipped, h.bounded⟩, List.perm_iff_count.mpr fun x => ?_⟩
    · have hcounted := h.counted
      simp only [List.length_append, List.length_singleton]
      omega
    · have hx := hcount x
      simp only [World.places, List.count_append]
      omega
  · rename_i hroom
    refine ⟨⟨h.counted, h.stored, h.written, h.skipped, ?_⟩, List.perm_iff_count.mpr fun x => ?_⟩
    · simp only [List.length_append, List.length_singleton]
      omega
    · have hx := hcount x
      simp only [World.places, List.count_append]
      omega

theorem conserved_step (h : Conserved state w) (hs : step state w a = some w') :
    Conserved state w' := by
  cases a with
  | ingestEvent e =>
    cases hs
    exact conserved_ingest h e
  | drain =>
    cases hs
    refine ⟨⟨h.counted, h.stored, h.written, h.skipped, ?_⟩, List.perm_iff_count.mpr fun x => ?_⟩
    · have hbounded := h.bounded
      rw [List.length_drop]
      omega
    · have hx := List.perm_iff_count.mp h.balance x
      have hsplit : w.buffer.count x =
          (w.buffer.take (min w.buffer.length state.flushBatchSize)).count x +
            (w.buffer.drop (min w.buffer.length state.flushBatchSize)).count x := by
        rw [← List.count_append, List.take_append_drop]
      simp only [World.places, List.count_append, List.flatten_append, List.flatten_singleton]
        at hx ⊢
      omega
  | flushNext k outcome =>
    simp only [step] at hs
    split at hs
    · rename_i e rest hbatch
      cases hs
      obtain ⟨hk, hget⟩ := List.getElem?_eq_some_iff.mp hbatch
      have hperm : w.batches.flatten.Perm
          (e :: (replaceAt w.batches k [rest]).flatten) := by
        have hcons := (List.getElem_cons_eraseIdx_perm hk).symm.flatten
        rw [hget] at hcons
        refine hcons.trans ?_
        simp only [replaceAt, List.flatten_append, List.flatten_nil, List.flatten_cons,
          List.cons_append, List.append_nil]
        exact List.Perm.cons e List.perm_append_comm
      refine conserved_flushed (w := { w with batches := replaceAt w.batches k [rest] })
        ⟨h.counted, h.stored, h.written, h.skipped, h.bounded⟩
        (List.perm_iff_count.mpr fun x => ?_) (flushEnvelope_flushed _ _ _ _)
      have hx := List.perm_iff_count.mp h.balance x
      have hb := List.perm_iff_count.mp hperm x
      simp only [World.places, List.count_append, List.count_cons] at hx hb ⊢
      omega
    · cases hs

/-- **Conservation of acknowledged events.** Each is in the buffer, in the batch of a running
flush, stored, in a fallback file, refused, lost, or of a kind the flush skips; the counter
counts the refused ones and all whose session or insert failed. -/
theorem acknowledged_conserved {db : IngestDb} {dir : FallbackDir}
    (h : Reaches (step state) (World.start db dir) w) :
    w.acked.Perm (w.buffer ++ w.batches.flatten ++ w.stored ++ w.fallback ++ w.refused ++
        w.lost ++ w.skipped) ∧
      w.dropCount = w.refused.length + (w.lost.length + w.fallback.length) ∧
      (∀ e ∈ w.stored, w.db.Stored e) ∧
      (∀ e ∈ w.fallback, InFallback state.codec w.dir (state.redact e)) ∧
      ∀ e ∈ w.skipped, e.payload = .other := by
  have hw : Conserved state w :=
    h.invariant (fun _ _ _ hw _ hs => conserved_step hw hs) (conserved_start state db dir)
  exact ⟨hw.balance, hw.counted, hw.stored, hw.written, hw.skipped⟩

end Conservation

section FailedSession

/-- Batches of one, no redaction, and only the envelope id in the JSON text. -/
def oneByOne : DaemonState where
  flushBatchSize := 1
  redactShellEvent := id
  codec := ⟨fun e => '{' :: e.envelopeId.toList ++ ['}'], fun _ => none⟩

def shellEnvelope (id : String) : EventEnvelope := ⟨id, 0, .shell ⟨"s", "ls", 5, "h", none, none⟩, none⟩

/-- A fifth event meets a full buffer, and the session of the first cannot be created. -/
def failedSession : List Action :=
  [.ingestEvent (shellEnvelope "a"), .ingestEvent (shellEnvelope "b"),
   .ingestEvent (shellEnvelope "c"), .ingestEvent (shellEnvelope "d"),
   .ingestEvent (shellEnvelope "e"), .drain, .flushNext 0 ⟨none, true, "2026-01-01", .written⟩]

/-- One event is acknowledged and its session fails: it is in a fallback file, and counted. -/
theorem fallback_counted : ∃ w : World,
    Reaches (step oneByOne) (World.start IngestDb.empty Table.empty) w ∧
      w.acked = [shellEnvelope "a"] ∧ w.dropCount = 1 ∧
      InFallback oneByOne.codec w.dir (shellEnvelope "a") := by
  obtain ⟨w, hrun, hacked, hdrop, hfallback⟩ : ∃ w : World,
      Run (step oneByOne) (fun _ _ => True) (World.start IngestDb.empty Table.empty) w ∧
        (w.acked = [shellEnvelope "a"] ∧ w.dropCount = 1 ∧
          w.fallback = [shellEnvelope "a"]) :=
    exists_run_of_exec (l := failedSession.take 1 ++ failedSession.drop 5) (by decide)
  have hw : Conserved oneByOne w :=
    hrun.invariant (fun _ _ _ hw _ hs => conserved_step hw hs) (conserved_start _ _ _)
  refine ⟨w, hrun, hacked, hdrop, hw.written (shellEnvelope "a") ?_⟩
  rw [hfallback]
  exact List.mem_cons_self

/-- With a refused one before it, both are counted and both have their place. -/
theorem failedSession_conserved : ∃ w : World,
    Reaches (step oneByOne) (World.start IngestDb.empty Table.empty) w ∧
      w.dropCount = 2 ∧ w.refused.length + (w.lost.length + w.fallback.length) = 2 ∧
      InFallback oneByOne.codec w.dir (shellEnvelope "a") := by
  obtain ⟨w, hrun, hdrop, hfallback⟩ : ∃ w : World,
      Run (step oneByOne) (fun _ _ => True) (World.start IngestDb.empty Table.empty) w ∧
        (w.dropCount = 2 ∧ w.fallback = [shellEnvelope "a"]) :=
    exists_run_of_exec (l := failedSession) (by decide)
  obtain ⟨-, hcounted, -, hwritten, -⟩ := acknowledged_conserved hrun
  refine ⟨w, hrun, hdrop, hcounted.symm.trans hdrop, hwritten (shellEnvelope "a") ?_⟩
  rw [hfallback]
  exact List.mem_cons_self

end FailedSession

end Hippo.Daemon
