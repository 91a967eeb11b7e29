import Hippo.FallbackFiles
import Hippo.Transition
import Mathlib.Data.Fintype.EquivFin

/-!
# Recovery of fallback files

Writers append lines while a recovery claims the files, reads them line by line and puts
them aside, and either may stop at any point. A completely written line is not lost: its
envelope is stored, or its file will be read again, or its own insert failed and the line
is kept in a `.partial` file.
-/
namespace Hippo.Fallback
open Hippo Hippo.FallbackDir Hippo.Transition

/-- The variables of `recover_fallback_files`, which is serialized by its lock. -/
inductive Job where
  /-- Renaming the listed files, under the append lock. -/
  | claiming (todo claimed : List ℕ)
  | reading (todo : List ℕ)
  /-- In the lines of file `i`. -/
  | lines (i : ℕ) (rest : List (List Char)) (errors : ℕ) (todo : List ℕ)

namespace Job

/-- The files the recovery has renamed and not put aside. -/
def claimed : Job → List ℕ
  | claiming _ claimed => claimed
  | reading todo => todo
  | lines i _ _ todo => i :: todo

/-- Every file the recovery still works on. -/
def files : Job → List ℕ
  | claiming todo claimed => claimed ++ todo
  | reading todo => todo
  | lines i _ _ todo => i :: todo

/-- The append lock is held. -/
def blocksAppend : Job → Bool
  | claiming _ _ => true
  | _ => false

end Job

/-- The database, the directory and the recovery in progress. The last two components are
history: the envelopes whose line was completely written on a line of its own, and those
whose insert failed in a recovery. -/
structure World where
  db : IngestDb := IngestDb.empty
  dir : FallbackDir := Table.empty
  job : Option Job := none
  intact : List EventEnvelope := []
  failedInserts : List EventEnvelope := []

inductive Action where
  | append (date : String) (e : EventEnvelope)
  /-- The write of a line stops, with its process or with an error. -/
  | tear (date : String) (e : EventEnvelope) (n : ℕ) (mid : Bool)
  | recover
  | claimNext (uuid : ℕ)
  | read (ok : Bool)
  | line (session : Option ℕ) (insertOk : Bool)
  | archive
  /-- The recovering process stops. -/
  | crash
deriving DecidableEq

section Step

def World.init : World := {}

/-- No append runs while the files are being claimed. -/
def World.canAppend (w : World) : Bool :=
  !(w.job.any Job.blocksAppend)

/-- The insert of a recovered envelope; its failure is counted, and the loop goes on. -/
def insertRecovered (w : World) (e : EventEnvelope) (sessionId : ℕ) (insertOk : Bool)
    (job : ℕ → Job) (errors : ℕ) : World :=
  if insertOk then
    { w with db := w.db.insertEnvelope e sessionId, job := some (job errors) }
  else
    { w with job := some (job (errors + 1)), failedInserts := e :: w.failedInserts }

/-- One line of a file: inserted, counted as an error, or the end of the recovery when the
session of a shell event cannot be resolved. `job` is the loop's next state. -/
def recoverLine (codec : JsonCodec) (w : World) (l : List Char) (job : ℕ → Job) (errors : ℕ)
    (session : Option ℕ) (insertOk : Bool) : World :=
  if isBlank l then { w with job := some (job errors) }
  else match codec.decode l with
    | none => { w with job := some (job (errors + 1)) }
    | some e => match e.payload with
      | .shell _ => match session with
        | none => { w with job := none }
        | some sessionId => insertRecovered w e sessionId insertOk job errors
      | .browser _ => insertRecovered w e 0 insertOk job errors
      | .other => { w with job := some (job (errors + 1)) }

def step (codec : JsonCodec) (w : World) : Action → Option World
  | .append date e =>
    if w.canAppend then some { w with
      dir := writeFallbackJsonl codec w.dir date e
      intact := if (w.dir.todayContent date).StartsLine then e :: w.intact else w.intact }
    else none
  | .tear date e n mid =>
    if w.canAppend ∧ n ≤ (codec.encode e).length ∧
        (mid = true → ((codec.encode e)[n]?).any fun c => 127 < c.toNat) then
      some { w with dir := w.dir.append date (tornLine codec e n mid) }
    else none
  | .recover => match w.job with
    | none => some { w with job := some (.claiming w.dir.listFallbackFiles []) }
    | some _ => none
  | .claimNext uuid => match w.job with
    | some (.claiming [] claimed) => some { w with job := some (.reading claimed) }
    | some (.claiming (i :: todo) claimed) => match w.dir.get? i with
      | none => some { w with job := none }
      | some f =>
        if f.name.ext = .recovering then
          some { w with job := some (.claiming todo (claimed ++ [i])) }
        else if ∀ file ∈ w.dir.entries, file.2.name.uuid ≠ some uuid then
          some { w with
            dir := w.dir.rename i ⟨f.name.date, some uuid, .recovering⟩
            job := some (.claiming todo (claimed ++ [i])) }
        else none
    | _ => none
  | .read ok => match w.job with
    | some (.reading []) => some { w with job := none }
    | some (.reading (i :: todo)) =>
      match if ok then (w.dir.get? i).bind fun f => f.content.readToString else none with
      | none => some { w with job := none }
      | some text => some { w with job := some (.lines i (lines text) 0 todo) }
    | _ => none
  | .line session insertOk => match w.job with
    | some (.lines i (l :: rest) errors todo) =>
      some (recoverLine codec w l (fun n => .lines i rest n todo) errors session insertOk)
    | _ => none
  | .archive => match w.job with
    | some (.lines i [] errors todo) => match w.dir.get? i with
      | none => some { w with job := none }
      | some f => some { w with
        dir := w.dir.rename i { f.name with ext := if errors = 0 then .done else .partials }
        job := some (.reading todo) }
    | _ => none
  | .crash => some { w with job := none }

end Step

section Definitions

/-- A recovery will list the file that has the envelope's line. -/
def World.Pending (codec : JsonCodec) (w : World) (e : EventEnvelope) : Prop :=
  ∃ i f, w.dir.get? i = some f ∧ i ∈ w.dir.listFallbackFiles ∧ codec.HasLine f.content e

/-- The envelope's line is in a `.partial` file. -/
def World.InPartial (codec : JsonCodec) (w : World) (e : EventEnvelope) : Prop :=
  ∃ i f, w.dir.get? i = some f ∧ f.name.ext = .partials ∧ codec.HasLine f.content e

/-- What the recovery cannot store: its own insert failed, or its kind has no table. -/
def World.Unrecovered (w : World) (e : EventEnvelope) : Prop :=
  e ∈ w.failedInserts ∨ e.payload = .other

/-- A line that was read is accounted for: stored, or an error of its own. -/
def World.Accounted (w : World) (e : EventEnvelope) (errors : ℕ) : Prop :=
  w.db.Stored e ∨ (0 < errors ∧ w.Unrecovered e)

end Definitions

section Invariant
variable {codec : JsonCodec} {w w' : World} {a : Action}

/-- What a recovery and its crashes preserve. -/
structure Durable (codec : JsonCodec) (w : World) : Prop where
  once : w.db.Once
  uuids : ∀ i j f g u, w.dir.get? i = some f → w.dir.get? j = some g →
    f.name.uuid = some u → g.name.uuid = some u → i = j
  named : ∀ i f, w.dir.get? i = some f → f.name.ext ≠ .jsonl → f.name.uuid ≠ none
  written : ∀ e ∈ w.intact, ∃ i f, w.dir.get? i = some f ∧ codec.HasLine f.content e
  done : ∀ i f, w.dir.get? i = some f → f.name.ext = .done →
    ∀ e, codec.RoundTrips e → codec.HasLine f.content e → w.db.Stored e
  partials : ∀ i f, w.dir.get? i = some f → f.name.ext = .partials →
    ∀ e, codec.RoundTrips e → codec.HasLine f.content e → w.Accounted e 1
  claimed : ∀ job, w.job = some job → ∀ i ∈ job.claimed,
    ∃ f, w.dir.get? i = some f ∧ f.name.ext = .recovering
  seen : ∀ i rest errors todo, w.job = some (.lines i rest errors todo) →
    ∀ f, w.dir.get? i = some f → ∀ e, codec.RoundTrips e → codec.HasLine f.content e →
      codec.encode e ∈ rest ∨ w.Accounted e errors
  nodup : ∀ job, w.job = some job → job.files.Nodup

theorem durable_init : Durable codec World.init where
  once := IngestDb.once_empty
  uuids := by
    intro i j f g u hi
    cases hi
  named := by
    intro i f hi
    cases hi
  written := by
    intro e he
    cases he
  done := by
    intro i f hi
    cases hi
  partials := by
    intro i f hi
    cases hi
  claimed := by
    intro job hjob
    cases hjob
  seen := by
    intro i rest errors todo hjob
    cases hjob
  nodup := by
    intro job hjob
    cases hjob

theorem World.Accounted.mono {e : EventEnvelope} {errors errors' : ℕ}
    (h : w.Accounted e errors) (hdb : w.db.Stored e → w'.db.Stored e)
    (hfailed : w.failedInserts ⊆ w'.failedInserts) (hle : errors ≤ errors') :
    w'.Accounted e errors' := by
  rcases h with hstored | ⟨hpos, hfail⟩
  · exact Or.inl (hdb hstored)
  · exact Or.inr ⟨hpos.trans_le hle, hfail.imp_left fun h => hfailed h⟩

/-- A step that leaves files, tables and history alone, and may end the recovery or move it on. -/
theorem Durable.setJob (h : Durable codec w) {job : Option Job}
    (hclaimed : ∀ j, job = some j → ∀ i ∈ j.claimed,
      ∃ f, w.dir.get? i = some f ∧ f.name.ext = .recovering)
    (hseen : ∀ i rest errors todo, job = some (.lines i rest errors todo) →
      ∀ f, w.dir.get? i = some f → ∀ e, codec.RoundTrips e → codec.HasLine f.content e →
        codec.encode e ∈ rest ∨ w.Accounted e errors)
    (hnodup : ∀ j, job = some j → j.files.Nodup) : Durable codec { w with job := job } where
  once := h.once
  uuids := h.uuids
  named := h.named
  written := h.written
  done := h.done
  partials := h.partials
  claimed := hclaimed
  seen := hseen
  nodup := hnodup

theorem Durable.endJob (h : Durable codec w) : Durable codec { w with job := none } :=
  h.setJob nofun nofun nofun

theorem nodup_listFallbackFiles (dir : FallbackDir) : dir.listFallbackFiles.Nodup := by
  have hperm := (List.perm_insertionSort (fun f g : ℕ × FallbackFile =>
    f.2.name.render ≤ g.2.name.render) (dir.select fun _ f =>
      f.name.ext = .jsonl ∨ f.name.ext = .recovering)).map Prod.fst
  refine hperm.nodup_iff.mpr (dir.nodup.sublist ?_)
  exact List.filter_sublist.map Prod.fst

/-- An append touches only today's file, which no recovery has claimed. -/
theorem Durable.append (h : Durable codec w) (date : String) (new : Content) {intact : List EventEnvelope}
    (hintact : ∀ e ∈ intact, e ∈ w.intact ∨
      ((w.dir.todayContent date).StartsLine ∧ new = codec.lineOf e)) :
    Durable codec { w with dir := w.dir.append date new, intact := intact } := by
  -- a file that is not today's is as before, and every file of before has only grown
  have back : ∀ i f, (w.dir.append date new).get? i = some f →
      f.name = ⟨date, none, .jsonl⟩ ∨ w.dir.get? i = some f := by
    intro i f hf
    rcases w.dir.get?_append_cases date new with ⟨k, g, -, hname, -, hget⟩ | ⟨-, hget⟩ <;>
      rw [hget] at hf <;> split at hf
    · cases hf
      exact Or.inl hname
    · exact Or.inr hf
    · cases hf
      exact Or.inl rfl
    · exact Or.inr hf
  have grown : ∀ i f, w.dir.get? i = some f → ∃ more, (w.dir.append date new).get? i =
      some { f with content := f.content ++ more } := by
    intro i f hf
    rcases w.dir.get?_append_cases date new with ⟨k, g, hg, -, -, hget⟩ | ⟨-, hget⟩
    · rw [hget]
      by_cases hi : i = k
      · rw [hi, hg, Option.some.injEq] at hf
        exact ⟨new, by rw [if_pos hi, hf]⟩
      · exact ⟨[], by rw [if_neg hi, hf, List.append_nil]⟩
    · have hi : i ≠ w.dir.nextRowid := by
        intro hi
        rw [hi, Table.get?_nextRowid] at hf
        cases hf
      exact ⟨[], by rw [hget, if_neg hi, hf, List.append_nil]⟩
  have same : ∀ i f, w.dir.get? i = some f → f.name.ext ≠ .jsonl →
      (w.dir.append date new).get? i = some f := by
    intro i f hf hext
    obtain ⟨more, hmore⟩ := grown i f hf
    rcases back i _ hmore with hname | hold
    · exact absurd (congrArg FileName.ext hname) hext
    · rw [hold] at hf
      rw [hmore, hf]
  have old : ∀ i f, (w.dir.append date new).get? i = some f → f.name.ext ≠ .jsonl →
      w.dir.get? i = some f := fun i f hf hext =>
    (back i f hf).resolve_left fun hname => hext (congrArg FileName.ext hname)
  refine ⟨h.once, ?_, ?_, ?_, ?_, ?_, ?_, ?_, h.nodup⟩
  · intro i j f g u hf hg hfu hgu
    have hold : ∀ k file, (w.dir.append date new).get? k = some file →
        file.name.uuid = some u → w.dir.get? k = some file := by
      intro k file hfile hu
      refine (back k file hfile).resolve_left fun hname => ?_
      rw [hname] at hu
      cases hu
    exact h.uuids i j f g u (hold i f hf hfu) (hold j g hg hgu) hfu hgu
  · intro i f hf hext
    exact h.named i f (old i f hf hext) hext
  · intro e he
    rcases hintact e he with he | ⟨hstart, rfl⟩
    · obtain ⟨i, f, hf, hline⟩ := h.written e he
      obtain ⟨more, hmore⟩ := grown i f hf
      exact ⟨i, _, hmore, hline.append more⟩
    · rcases w.dir.get?_append_cases date (codec.lineOf e) with
        ⟨k, g, -, -, hcontent, hget⟩ | ⟨hempty, hget⟩
      · refine ⟨k, _, by rw [hget, if_pos rfl], ?_⟩
        rw [← hcontent] at hstart
        exact JsonCodec.hasLine_lineOf hstart
      · refine ⟨_, _, by rw [hget, if_pos rfl], ?_⟩
        exact JsonCodec.hasLine_lineOf (Or.inl rfl)
  · intro i f hf hext
    exact h.done i f (old i f hf (by rw [hext]; decide)) hext
  · intro i f hf hext
    exact h.partials i f (old i f hf (by rw [hext]; decide)) hext
  · intro job hjob i hi
    obtain ⟨f, hf, hext⟩ := h.claimed job hjob i hi
    exact ⟨f, same i f hf (by rw [hext]; decide), hext⟩
  · intro i rest errors todo hjob f hf
    obtain ⟨g, hg, hext⟩ := h.claimed _ hjob i List.mem_cons_self
    rw [same i g hg (by rw [hext]; decide), Option.some.injEq] at hf
    subst hf
    exact h.seen i rest errors todo hjob g hg

/-- What recovering one line does: the recovery has ended, or it goes on with the line
accounted for. -/
structure LineEffect (codec : JsonCodec) (w : World) (l : List Char) (job : ℕ → Job)
    (errors : ℕ) (w' : World) : Prop where
  dir : w'.dir = w.dir
  intact : w'.intact = w.intact
  once : w.db.Once → w'.db.Once
  stored : ∀ e, w.db.Stored e → w'.db.Stored e
  failed : w.failedInserts ⊆ w'.failedInserts
  next : w'.job = none ∨ ∃ errors', w'.job = some (job errors') ∧ errors ≤ errors' ∧
    ∀ e, codec.RoundTrips e → codec.encode e = l → w'.Accounted e errors'

/-- A line reads back as the envelope it was written for. -/
theorem decode_eq {l : List Char} {e e' : EventEnvelope} (hdec : codec.decode l = some e)
    (he' : codec.RoundTrips e') (hl : codec.encode e' = l) : e' = e := by
  have hback := he'.decode_encode
  rw [hl, hdec, Option.some.injEq] at hback
  exact hback.symm

theorem insertRecovered_effect {l : List Char} {e : EventEnvelope}
    (hdec : codec.decode l = some e) (hkind : e.payload ≠ .other) (sessionId : ℕ)
    (insertOk : Bool) (job : ℕ → Job) (errors : ℕ) :
    LineEffect codec w l job errors (insertRecovered w e sessionId insertOk job errors) := by
  cases insertOk with
  | true =>
    refine ⟨rfl, rfl, fun h => h.insertEnvelope e sessionId,
      fun e' he' => IngestDb.stored_insertEnvelope he' e sessionId, fun _ => id,
      Or.inr ⟨errors, rfl, le_rfl, fun e' he' hl => Or.inl ?_⟩⟩
    rw [decode_eq hdec he' hl]
    exact w.db.stored_insertEnvelope_self sessionId hkind
  | false =>
    refine ⟨rfl, rfl, id, fun _ => id, fun _ => List.mem_cons_of_mem e,
      Or.inr ⟨errors + 1, rfl, Nat.le_succ errors, fun e' he' hl => Or.inr ?_⟩⟩
    rw [decode_eq hdec he' hl]
    exact ⟨Nat.succ_pos errors, Or.inl List.mem_cons_self⟩

theorem recoverLine_effect (codec : JsonCodec) (w : World) (l : List Char) (job : ℕ → Job) (errors : ℕ)
    (session : Option ℕ) (insertOk : Bool) :
    LineEffect codec w l job errors (recoverLine codec w l job errors session insertOk) := by
  unfold recoverLine
  split
  · rename_i hblank
    refine ⟨rfl, rfl, id, fun _ => id, fun _ => id,
      Or.inr ⟨errors, rfl, le_rfl, fun e he hl => ?_⟩⟩
    rw [← hl, he.not_blank] at hblank
    cases hblank
  · split
    · rename_i hdec
      refine ⟨rfl, rfl, id, fun _ => id, fun _ => id,
        Or.inr ⟨errors + 1, rfl, Nat.le_succ errors, fun e he hl => ?_⟩⟩
      rw [← hl, he.decode_encode] at hdec
      cases hdec
    · rename_i e hdec
      split
      · rename_i payload hkind
        split
        · exact ⟨rfl, rfl, id, fun _ => id, fun _ => id, Or.inl rfl⟩
        · exact insertRecovered_effect hdec (by simp [hkind]) _ _ _ _
      · rename_i url hkind
        exact insertRecovered_effect hdec (by simp [hkind]) _ _ _ _
      · rename_i hkind
        refine ⟨rfl, rfl, id, fun _ => id, fun _ => id,
          Or.inr ⟨errors + 1, rfl, Nat.le_succ errors, fun e' he' hl => Or.inr ?_⟩⟩
        rw [decode_eq hdec he' hl]
        exact ⟨Nat.succ_pos errors, Or.inr hkind⟩

/-- The line loop keeps what it has accounted for, and moves on to the rest of the lines. -/
theorem Durable.line (h : Durable codec w) {i errors : ℕ} {l : List Char}
    {rest : List (List Char)} {todo : List ℕ}
    (hjob : w.job = some (.lines i (l :: rest) errors todo))
    (hl : LineEffect codec w l (fun n => .lines i rest n todo) errors w') :
    Durable codec w' := by
  have hsame : ∀ j, w'.job = some j → j.claimed = i :: todo ∧ j.files = i :: todo := by
    intro j hj
    rcases hl.next with hnone | ⟨errors', hsome, -⟩
    · rw [hnone] at hj
      cases hj
    · rw [hsome] at hj
      cases hj
      exact ⟨rfl, rfl⟩
  constructor
  · exact hl.once h.once
  · simpa only [hl.dir] using h.uuids
  · simpa only [hl.dir] using h.named
  · simpa only [hl.dir, hl.intact] using h.written
  · intro k f hf hext e he hhas
    rw [hl.dir] at hf
    exact hl.stored e (h.done k f hf hext e he hhas)
  · intro k f hf hext e he hhas
    rw [hl.dir] at hf
    exact (h.partials k f hf hext e he hhas).mono (hl.stored e) hl.failed le_rfl
  · intro j hj k hk
    rw [(hsame j hj).1] at hk
    rw [hl.dir]
    exact h.claimed _ hjob k hk
  · intro k rest' errors' todo' hj f hf e he hhas
    rw [hl.dir] at hf
    rcases hl.next with hnone | ⟨errors'', hsome, hle, hacc⟩
    · rw [hnone] at hj
      cases hj
    · rw [hsome] at hj
      cases hj
      rcases h.seen i (l :: rest) errors todo hjob f hf e he hhas with hmem | hold
      · rcases List.mem_cons.mp hmem with heq | hmem
        · exact Or.inr (hacc e he heq)
        · exact Or.inl hmem
      · exact Or.inr (hold.mono (hl.stored e) hl.failed hle)
  · intro j hj
    rw [(hsame j hj).2]
    exact h.nodup _ hjob

/-- What may be said of the lines of a file that gets the name. -/
def Keeps (codec : JsonCodec) (w : World) (cs : Content) : FileExt → Prop
  | .jsonl => False
  | .recovering => True
  | .done => ∀ e, codec.RoundTrips e → codec.HasLine cs e → w.db.Stored e
  | .partials => ∀ e, codec.RoundTrips e → codec.HasLine cs e → w.Accounted e 1

/-- A file may be claimed, or put aside under what its lines have come to. -/
theorem Durable.rename (h : Durable codec w) {i u : ℕ} {f : FallbackFile} {name : FileName}
    {job : Option Job} (hf : w.dir.get? i = some f) (hname : name.uuid = some u)
    (hfree : ∀ j g, w.dir.get? j = some g → g.name.uuid = some u → j = i)
    (hkeeps : Keeps codec w f.content name.ext)
    (hclaimed : ∀ j, job = some j → ∀ k ∈ j.claimed, (k = i ∧ name.ext = .recovering) ∨
      (k ≠ i ∧ ∃ g, w.dir.get? k = some g ∧ g.name.ext = .recovering))
    (hlines : ∀ k rest errors todo, job ≠ some (.lines k rest errors todo))
    (hnodup : ∀ j, job = some j → j.files.Nodup) :
    Durable codec { w with dir := w.dir.rename i name, job := job } := by
  have hget : ∀ j, (w.dir.rename i name).get? j =
      if j = i then some { f with name := name } else w.dir.get? j := by
    intro j
    rw [FallbackDir.get?_rename w.dir i name fun j g hg heq => hfree j g hg (heq ▸ hname)]
    split
    · rename_i hj
      rw [hj, hf, Option.map_some]
    · rfl
  -- a file after the rename is the renamed one or an old one
  have cases_get : ∀ {k g}, (w.dir.rename i name).get? k = some g →
      (k = i ∧ g = { f with name := name }) ∨ (k ≠ i ∧ w.dir.get? k = some g) := by
    intro k g hg
    rw [hget] at hg
    split at hg
    · rename_i hk
      exact Or.inl ⟨hk, (Option.some.inj hg).symm⟩
    · rename_i hk
      exact Or.inr ⟨hk, hg⟩
  refine ⟨h.once, ?_, ?_, ?_, ?_, ?_, ?_, ?_, hnodup⟩
  · intro j k g g' v hg hg' hv hv'
    rcases cases_get hg with ⟨hj, rfl⟩ | ⟨hj, hold⟩ <;>
      rcases cases_get hg' with ⟨hk, rfl⟩ | ⟨hk, hold'⟩
    · rw [hj, hk]
    · rw [show name.uuid = some v from hv] at hname
      cases hname
      exact absurd (hfree k g' hold' hv') hk
    · rw [show name.uuid = some v from hv'] at hname
      cases hname
      exact absurd (hfree j g hold hv) hj
    · exact h.uuids j k g g' v hold hold' hv hv'
  · intro k g hg hext
    rcases cases_get hg with ⟨-, rfl⟩ | ⟨-, hold⟩
    · rw [show name.uuid = some u from hname]
      exact Option.some_ne_none u
    · exact h.named k g hold hext
  · intro e he
    obtain ⟨k, g, hg, hline⟩ := h.written e he
    by_cases hk : k = i
    · rw [hk, hf, Option.some.injEq] at hg
      subst hg
      exact ⟨i, { f with name := name }, by rw [hget, if_pos rfl], hline⟩
    · exact ⟨k, g, by rw [hget, if_neg hk, hg], hline⟩
  · intro k g hg hext
    rcases cases_get hg with ⟨-, rfl⟩ | ⟨-, hold⟩
    · rw [show name.ext = .done from hext] at hkeeps
      exact hkeeps
    · exact h.done k g hold hext
  · intro k g hg hext
    rcases cases_get hg with ⟨-, rfl⟩ | ⟨-, hold⟩
    · rw [show name.ext = .partials from hext] at hkeeps
      exact hkeeps
    · exact h.partials k g hold hext
  · intro j hj k hk
    rcases hclaimed j hj k hk with ⟨hki, hext⟩ | ⟨hki, g, hg, hext⟩
    · exact ⟨_, by rw [hget, if_pos hki], hext⟩
    · exact ⟨g, by rw [hget, if_neg hki, hg], hext⟩
  · intro k rest errors todo hj
    exact absurd hj (hlines k rest errors todo)

theorem Durable.claimNext (h : Durable codec w) {uuid : ℕ}
    (hs : step codec w (.claimNext uuid) = some w') : Durable codec w' := by
  simp only [step] at hs
  split at hs
  · rename_i claimed hjob
    cases hs
    refine h.setJob (fun j hj k hk => ?_) nofun (fun j hj => ?_)
    · cases hj
      exact h.claimed _ hjob k hk
    · cases hj
      simpa only [Job.files, List.append_nil] using h.nodup _ hjob
  · rename_i i todo claimed hjob
    have hnodup : (claimed ++ [i] ++ todo).Nodup := by
      simpa only [Job.files, List.append_assoc, List.singleton_append] using h.nodup _ hjob
    split at hs
    · cases hs
      exact h.endJob
    · rename_i f hf
      split at hs
      · rename_i hext
        cases hs
        refine h.setJob (fun j hj k hk => ?_) nofun (fun j hj => ?_)
        · cases hj
          rcases List.mem_append.mp hk with hk | hk
          · exact h.claimed _ hjob k hk
          · rw [List.mem_singleton.mp hk]
            exact ⟨f, hf, hext⟩
        · cases hj
          exact hnodup
      · split at hs
        · rename_i hfresh
          cases hs
          refine h.rename hf rfl (fun j g hg hu => ?_) trivial (fun j hj k hk => ?_) nofun
            (fun j hj => ?_)
          · exact absurd hu (hfresh (j, g) (Table.get?_eq_some.mp hg))
          · cases hj
            by_cases hki : k = i
            · exact Or.inl ⟨hki, rfl⟩
            · rcases List.mem_append.mp hk with hk | hk
              · exact Or.inr ⟨hki, h.claimed _ hjob k hk⟩
              · exact absurd (List.mem_singleton.mp hk) hki
          · cases hj
            exact hnodup
        · cases hs
  · cases hs

theorem Durable.read (h : Durable codec w) {ok : Bool}
    (hs : step codec w (.read ok) = some w') : Durable codec w' := by
  simp only [step] at hs
  split at hs
  · cases hs
    exact h.endJob
  · rename_i i todo hjob
    split at hs
    · cases hs
      exact h.endJob
    · rename_i text htext
      cases hs
      have hclaimed := h.claimed _ hjob
      have hnodup := h.nodup _ hjob
      refine h.setJob (fun j hj => ?_) (fun k rest errors todo' hj g hg e he hline => ?_)
        (fun j hj => ?_)
      · cases hj
        exact hclaimed
      · cases hj
        cases ok with
        | false => cases htext
        | true =>
          rw [if_pos rfl, hg, Option.bind_some] at htext
          exact Or.inl (hline.mem_lines he htext)
      · cases hj
        exact hnodup
  · cases hs

theorem Durable.archive (h : Durable codec w) (hs : step codec w .archive = some w') :
    Durable codec w' := by
  simp only [step] at hs
  split at hs
  · rename_i i errors todo hjob
    have hnot : i ∉ todo := (List.nodup_cons.mp (h.nodup _ hjob)).1
    split at hs
    · cases hs
      exact h.endJob
    · rename_i f hf
      cases hs
      have hseen : ∀ e, codec.RoundTrips e → codec.HasLine f.content e → w.Accounted e errors :=
        fun e he hline => (h.seen i [] errors todo hjob f hf e he hline).resolve_left
          List.not_mem_nil
      obtain ⟨g, hg, hext⟩ := h.claimed _ hjob i List.mem_cons_self
      have hfg : g = f := Option.some.inj (hg.symm.trans hf)
      obtain ⟨u, hu⟩ := Option.ne_none_iff_exists'.mp
        (h.named i f hf (by rw [← hfg, hext]; decide))
      refine h.rename hf (u := u) hu (fun j g' hg' hu' => h.uuids j i g' f u hg' hf hu' hu) ?_
        (fun j hj k hk => ?_) nofun (fun j hj => ?_)
      · dsimp only
        split
        · rename_i hzero
          intro e he hline
          rcases hseen e he hline with hstored | ⟨hpos, -⟩
          · exact hstored
          · omega
        · intro e he hline
          rcases hseen e he hline with hstored | ⟨-, hfail⟩
          · exact Or.inl hstored
          · exact Or.inr ⟨Nat.one_pos, hfail⟩
      · cases hj
        exact Or.inr ⟨fun hki => hnot (hki ▸ hk),
          h.claimed _ hjob k (List.mem_cons_of_mem i hk)⟩
      · cases hj
        exact (List.nodup_cons.mp (h.nodup _ hjob)).2
  · cases hs

theorem durable_step (h : Durable codec w) (hs : step codec w a = some w') : Durable codec w' := by
  cases a with
  | append date e =>
    simp only [step] at hs
    split at hs
    · cases hs
      refine h.append date _ fun e' he' => ?_
      split at he'
      · rename_i hstart
        rcases List.mem_cons.mp he' with rfl | he'
        · exact Or.inr ⟨hstart, rfl⟩
        · exact Or.inl he'
      · exact Or.inl he'
    · cases hs
  | tear date e n mid =>
    simp only [step] at hs
    split at hs
    · cases hs
      exact h.append date _ fun _ => Or.inl
    · cases hs
  | recover =>
    simp only [step] at hs
    split at hs
    · cases hs
      refine h.setJob (fun j hj => ?_) nofun (fun j hj => ?_)
      · cases hj
        exact nofun
      · cases hj
        exact nodup_listFallbackFiles w.dir
    · cases hs
  | claimNext uuid => exact h.claimNext hs
  | read ok => exact h.read hs
  | line session insertOk =>
    simp only [step] at hs
    split at hs
    · rename_i i l rest errors todo hjob
      cases hs
      exact h.line hjob (recoverLine_effect codec w l _ errors session insertOk)
    · cases hs
  | archive => exact h.archive hs
  | crash =>
    cases hs
    exact h.endJob

theorem durable_of_reaches (h : Reaches (step codec) World.init w) : Durable codec w :=
  h.invariant (fun _ _ _ hw _ hs => durable_step hw hs) durable_init

/-- A completely written line is stored, in a file of a later recovery, or kept aside with
its own failure. -/
theorem Durable.kept (h : Durable codec w) {e : EventEnvelope} (he : codec.RoundTrips e)
    (hwritten : e ∈ w.intact) :
    w.db.Stored e ∨ w.Pending codec e ∨ (w.InPartial codec e ∧ w.Unrecovered e) := by
  obtain ⟨i, f, hf, hline⟩ := h.written e hwritten
  cases hext : f.name.ext with
  | jsonl =>
    exact Or.inr (Or.inl ⟨i, f, hf, mem_listFallbackFiles.mpr ⟨f, hf, Or.inl hext⟩, hline⟩)
  | recovering =>
    exact Or.inr (Or.inl ⟨i, f, hf, mem_listFallbackFiles.mpr ⟨f, hf, Or.inr hext⟩, hline⟩)
  | done => exact Or.inl (h.done i f hf hext e he hline)
  | partials =>
    rcases h.partials i f hf hext e he hline with hstored | ⟨-, hfail⟩
    · exact Or.inl hstored
    · exact Or.inr (Or.inr ⟨⟨i, f, hf, hext, hline⟩, hfail⟩)

end Invariant

section LaterRecovery
variable {codec : JsonCodec} {w w' : World}

/-- A step of a recovery in which every read, session and insert succeeds. -/
def Smooth (_ : World) : Action → Prop
  | .recover | .claimNext _ | .read true | .line (some _) true | .archive => True
  | _ => False

/-- A smooth piece of a recovery, which keeps what is stored. -/
structure Recovers (codec : JsonCodec) (w w' : World) : Prop where
  run : Run (step codec) Smooth w w'
  stored : ∀ e, w.db.Stored e → w'.db.Stored e

theorem Recovers.refl (w : World) : Recovers codec w w := ⟨Run.refl w, fun _ => id⟩

theorem Recovers.trans {v : World} (h : Recovers codec w v) (h' : Recovers codec v w') :
    Recovers codec w w' :=
  ⟨h.run.trans h'.run, fun e he => h'.stored e (h.stored e he)⟩

theorem Recovers.durable (h : Recovers codec w w') (hw : Durable codec w) : Durable codec w' :=
  h.run.invariant (fun _ _ _ hv _ hs => durable_step hv hs) hw

/-- A smooth line is stored, and the loop goes on. -/
theorem recoverLine_smooth (codec : JsonCodec) (w : World) (l : List Char) (job : ℕ → Job)
    (errors sid : ℕ) :
    (∃ n, (recoverLine codec w l job errors (some sid) true).job = some (job n)) ∧
      ∀ e, codec.RoundTrips e → e.payload ≠ .other → codec.encode e = l →
        (recoverLine codec w l job errors (some sid) true).db.Stored e := by
  unfold recoverLine
  split
  · rename_i hblank
    refine ⟨⟨errors, rfl⟩, fun e he _ hl => ?_⟩
    rw [← hl, he.not_blank] at hblank
    cases hblank
  · split
    · rename_i hdec
      refine ⟨⟨errors + 1, rfl⟩, fun e he _ hl => ?_⟩
      rw [← hl, he.decode_encode] at hdec
      cases hdec
    · rename_i e hdec
      split
      · refine ⟨⟨errors, rfl⟩, fun e' he' hkind hl => ?_⟩
        rw [decode_eq hdec he' hl] at hkind ⊢
        exact w.db.stored_insertEnvelope_self sid hkind
      · refine ⟨⟨errors, rfl⟩, fun e' he' hkind hl => ?_⟩
        rw [decode_eq hdec he' hl] at hkind ⊢
        exact w.db.stored_insertEnvelope_self 0 hkind
      · rename_i hother
        refine ⟨⟨errors + 1, rfl⟩, fun e' he' hkind hl => ?_⟩
        rw [decode_eq hdec he' hl] at hkind
        exact absurd hother hkind

theorem lines_recover (codec : JsonCodec) {i : ℕ} {todo : List ℕ} (rest : List (List Char))
    {errors : ℕ}
    (hjob : w.job = some (.lines i rest errors todo)) : ∃ w' errors', Recovers codec w w' ∧
      w'.dir = w.dir ∧ w'.job = some (.lines i [] errors' todo) ∧
      ∀ e, codec.RoundTrips e → e.payload ≠ .other → codec.encode e ∈ rest →
        w'.db.Stored e := by
  induction rest generalizing w errors with
  | nil => exact ⟨w, errors, .refl w, rfl, hjob, fun e _ _ he => absurd he List.not_mem_nil⟩
  | cons l rest ih =>
    let next : World := recoverLine codec w l (fun n => .lines i rest n todo) errors (some 0) true
    have heffect := recoverLine_effect codec w l (fun n => .lines i rest n todo)
      errors (some 0) true
    obtain ⟨⟨n, hn⟩, hstored⟩ := recoverLine_smooth codec w l
      (fun n => .lines i rest n todo) errors 0
    have hstep : step codec w (.line (some 0) true) = some next := by
      simp only [step, hjob]
      rfl
    have hfirst : Recovers codec w next :=
      ⟨Run.single (a := .line (some 0) true) trivial hstep, heffect.stored⟩
    obtain ⟨w', errors', hrest, hdir, hend, hall⟩ := ih hn
    refine ⟨w', errors', hfirst.trans hrest, hdir.trans heffect.dir, hend, fun e he hk hmem => ?_⟩
    rcases List.mem_cons.mp hmem with heq | hmem
    · exact hrest.stored e (hstored e he hk heq)
    · exact hall e he hk hmem

/-- What a recovery may read once more. -/
def World.Readable (w : World) (i : ℕ) : Prop :=
  ∃ f text, w.dir.get? i = some f ∧ f.content.readToString = some text

theorem reading_recover (todo : List ℕ) (h : Durable codec w)
    (hjob : w.job = some (.reading todo)) (hread : ∀ i ∈ todo, w.Readable i) :
    ∃ w', Recovers codec w w' ∧ ∀ i ∈ todo, ∀ f, w.dir.get? i = some f →
      ∀ e, codec.RoundTrips e → e.payload ≠ .other → codec.HasLine f.content e →
        w'.db.Stored e := by
  induction todo generalizing w with
  | nil => exact ⟨w, .refl w, fun i hi => absurd hi List.not_mem_nil⟩
  | cons i todo ih =>
    obtain ⟨f, text, hf, htext⟩ := hread i List.mem_cons_self
    have hnot : i ∉ todo := (List.nodup_cons.mp (h.nodup _ hjob)).1
    let opened : World := { w with job := some (.lines i (lines text) 0 todo) }
    have hopen : Recovers codec w opened := by
      refine ⟨Run.single (a := .read true) trivial ?_, fun _ => id⟩
      simp only [step, hjob, if_true, hf, Option.bind_some, htext]
      rfl
    obtain ⟨v, errors, hv, hdir, hvjob, hlines⟩ := lines_recover codec (lines text) (w := opened) rfl
    have hvf : v.dir.get? i = some f := by rw [hdir]; exact hf
    have hdurable : Durable codec v := hv.durable (hopen.durable h)
    let name : FileName := { f.name with ext := if errors = 0 then .done else .partials }
    let aside : World := { v with dir := v.dir.rename i name, job := some (.reading todo) }
    have harchive : Recovers codec v aside := by
      refine ⟨Run.single (a := .archive) trivial ?_, fun _ => id⟩
      simp only [step, hvjob, hvf]
      rfl
    have hkept : ∀ j ∈ todo, aside.dir.get? j = w.dir.get? j := by
      intro j hj
      have hne : j ≠ i := fun heq => hnot (heq ▸ hj)
      obtain ⟨g, hg, hext⟩ := hdurable.claimed _ hvjob i List.mem_cons_self
      rw [hvf, Option.some.injEq] at hg
      obtain ⟨u, hu⟩ := Option.ne_none_iff_exists'.mp
        (hdurable.named i f hvf (by rw [hg, hext]; decide))
      have hrename := FallbackDir.get?_rename v.dir i name
        (fun k g hg heq => hdurable.uuids k i g f u hg hvf (heq ▸ hu) hu) j
      rw [if_neg hne] at hrename
      exact hrename.trans (by rw [hdir])
    obtain ⟨w', hw', hrest⟩ := ih (harchive.durable hdurable) rfl fun j hj => by
      obtain ⟨g, t, hg, ht⟩ := hread j (List.mem_cons_of_mem i hj)
      exact ⟨g, t, (hkept j hj).trans hg, ht⟩
    refine ⟨w', ((hopen.trans hv).trans harchive).trans hw', fun j hj g hg e he hk hline => ?_⟩
    rcases List.mem_cons.mp hj with rfl | hj
    · rw [hf, Option.some.injEq] at hg
      subst hg
      exact hw'.stored e (harchive.stored e (hlines e he hk (hline.mem_lines he htext)))
    · exact hrest j hj g ((hkept j hj).trans hg) e he hk hline

theorem exists_fresh_uuid (dir : FallbackDir) :
    ∃ u : ℕ, ∀ file ∈ dir.entries, file.2.name.uuid ≠ some u := by
  let used : List ℕ := dir.entries.filterMap fun file => file.2.name.uuid
  obtain ⟨u, hu⟩ := Infinite.exists_notMem_finset used.toFinset
  refine ⟨u, fun file hfile heq => hu ?_⟩
  rw [List.mem_toFinset]
  exact List.mem_filterMap.mpr ⟨file, hfile, heq⟩

theorem claiming_recover (todo claimed : List ℕ) (h : Durable codec w)
    (hjob : w.job = some (.claiming todo claimed)) (hthere : ∀ i ∈ todo, ∃ f, w.dir.get? i = some f) :
    ∃ w', Recovers codec w w' ∧ w'.job = some (.reading (claimed ++ todo)) ∧
      ∀ i f, w.dir.get? i = some f → ∃ f', w'.dir.get? i = some f' ∧ f'.content = f.content := by
  induction todo generalizing w claimed with
  | nil =>
    refine ⟨{ w with job := some (.reading claimed) },
      ⟨Run.single (a := .claimNext 0) trivial ?_, fun _ => id⟩, ?_, fun i f hf => ⟨f, hf, rfl⟩⟩
    · simp only [step, hjob]
    · rw [List.append_nil]
  | cons i todo ih =>
    obtain ⟨f, hf⟩ := hthere i List.mem_cons_self
    obtain ⟨u, hu⟩ := exists_fresh_uuid w.dir
    -- one rename, or none when the file was claimed by an interrupted recovery
    obtain ⟨v, hv, hvjob, hcontent⟩ : ∃ v, Recovers codec w v ∧
        v.job = some (.claiming todo (claimed ++ [i])) ∧ ∀ k g, w.dir.get? k = some g →
          ∃ g', v.dir.get? k = some g' ∧ g'.content = g.content := by
      by_cases hext : f.name.ext = .recovering
      · refine ⟨{ w with job := some (.claiming todo (claimed ++ [i])) },
          ⟨Run.single (a := .claimNext u) trivial ?_, fun _ => id⟩, rfl,
          fun k g hg => ⟨g, hg, rfl⟩⟩
        simp only [step, hjob, hf, hext, if_true]
      · refine ⟨{ w with
            dir := w.dir.rename i ⟨f.name.date, some u, .recovering⟩
            job := some (.claiming todo (claimed ++ [i])) },
          ⟨Run.single (a := .claimNext u) trivial ?_, fun _ => id⟩, rfl, fun k g hg => ?_⟩
        · simp only [step, hjob, hf, hext, if_false]
          exact if_pos hu
        · have hrename := FallbackDir.get?_rename w.dir i
            ⟨f.name.date, some u, .recovering⟩ (fun k g hg heq => absurd
              (congrArg FileName.uuid heq) (hu (k, g) (Table.get?_eq_some.mp hg))) k
          rw [hg] at hrename
          by_cases hk : k = i
          · rw [if_pos hk] at hrename
            exact ⟨_, hrename, rfl⟩
          · rw [if_neg hk] at hrename
            exact ⟨g, hrename, rfl⟩
    obtain ⟨w', hw', hjob', hall⟩ := ih (claimed ++ [i]) (hv.durable h) hvjob fun k hk => by
      obtain ⟨g, hg⟩ := hthere k (List.mem_cons_of_mem i hk)
      obtain ⟨g', hg', -⟩ := hcontent k g hg
      exact ⟨g', hg'⟩
    refine ⟨w', hv.trans hw', ?_, fun k g hg => ?_⟩
    · rw [hjob', List.append_assoc]
      rfl
    · obtain ⟨g', hg', hsame⟩ := hcontent k g hg
      obtain ⟨g'', hg'', hsame'⟩ := hall k g' hg'
      exact ⟨g'', hg'', hsame'.trans hsame⟩

/-- The next recovery stores a pending envelope, if every file it lists is UTF-8 and nothing
fails. -/
theorem Durable.stored_later (h : Durable codec w) (hidle : w.job = none)
    (hread : ∀ i ∈ w.dir.listFallbackFiles, w.Readable i) {e : EventEnvelope}
    (he : codec.RoundTrips e) (hkind : e.payload ≠ .other) (hpending : w.Pending codec e) :
    ∃ w', Run (step codec) Smooth w w' ∧ w'.db.Stored e := by
  obtain ⟨i, f, hf, hlisted, hline⟩ := hpending
  let begun : World := { w with job := some (.claiming w.dir.listFallbackFiles []) }
  have hbegin : Recovers codec w begun := by
    refine ⟨Run.single (a := .recover) trivial ?_, fun _ => id⟩
    simp only [step, hidle]
    rfl
  obtain ⟨v, hv, hvjob, hcontent⟩ := claiming_recover (w := begun)
    w.dir.listFallbackFiles [] (hbegin.durable h) rfl fun j hj => by
      obtain ⟨g, _, hg, -⟩ := hread j hj
      exact ⟨g, hg⟩
  obtain ⟨w', hw', hall⟩ := reading_recover _ (hv.durable (hbegin.durable h)) hvjob fun j hj => by
    obtain ⟨g, t, hg, ht⟩ := hread j hj
    obtain ⟨g', hg', hsame⟩ := hcontent j g hg
    exact ⟨g', t, hg', hsame ▸ ht⟩
  obtain ⟨f', hf', hsame⟩ := hcontent i f hf
  refine ⟨w', ((hbegin.trans hv).trans hw').run, ?_⟩
  exact hall i hlisted f' hf' e he hkind (hsame ▸ hline)

/-- **Fallback durability.** No envelope is stored twice, and a completely written line is
stored, pending for a recovery that will store it, or set aside for a failure of its own. -/
theorem written_line_kept (h : Reaches (step codec) World.init w) :
    w.db.Once ∧ ∀ e ∈ w.intact, codec.RoundTrips e →
      (w.db.Stored e ∨ w.Pending codec e ∨ (w.InPartial codec e ∧ w.Unrecovered e)) ∧
      (w.Pending codec e → e.payload ≠ .other → w.job = none →
        (∀ i ∈ w.dir.listFallbackFiles, w.Readable i) →
          ∃ w', Run (step codec) Smooth w w' ∧ w'.db.Stored e) := by
  have hw : Durable codec w := durable_of_reaches h
  refine ⟨hw.once, fun e hwritten he => ⟨hw.kept he hwritten, ?_⟩⟩
  intro hpending hkind hidle hread
  exact hw.stored_later hidle hread he hkind hpending

end LaterRecovery

section FailedInsert

def browserEnvelope (id : String) : EventEnvelope := ⟨id, 0, .browser "https://example.com", none⟩

/-- Writes the envelope id as the only member, and reads the two envelopes below. -/
def idCodec : JsonCodec where
  encode e := '{' :: e.envelopeId.toList ++ ['}']
  decode l := [browserEnvelope "a", browserEnvelope "b"].find? fun e =>
    '{' :: e.envelopeId.toList ++ ['}'] = l

theorem idCodec_roundTrips : idCodec.RoundTrips (browserEnvelope "b") where
  decode_encode := by decide
  newline := by decide
  object := ⟨['b'], by decide⟩

/-- The insert of the only envelope of a file fails, and later another one is written. -/
def failedInsert : List Action :=
  [.append "2026-01-01" (browserEnvelope "a"), .recover, .claimNext 7, .claimNext 0, .read true,
   .line none false, .archive, .read true, .append "2026-01-02" (browserEnvelope "b")]

/-- The first envelope is not stored, and no recovery lists a file any more before the second
one is written. -/
theorem failedInsert_sets_aside : ∃ w : World, Reaches (step idCodec) World.init w ∧
    browserEnvelope "a" ∈ w.intact ∧ ¬ w.db.Stored (browserEnvelope "a") ∧
    ¬ w.Pending idCodec (browserEnvelope "a") := by
  obtain ⟨w, hrun, hmem, hnot, hnone⟩ : ∃ w : World,
      Run (step idCodec) (fun _ _ => True) World.init w ∧
        (browserEnvelope "a" ∈ w.intact ∧ ¬ w.db.Stored (browserEnvelope "a") ∧
          w.dir.listFallbackFiles = []) :=
    exists_run_of_exec (l := failedInsert.take 8) (by decide)
  refine ⟨w, hrun, hmem, hnot, ?_⟩
  rintro ⟨i, f, -, hlisted, -⟩
  rw [hnone] at hlisted
  exact absurd hlisted List.not_mem_nil

/-- The second envelope does not suffer from the failure of the first. -/
theorem failedInsert_other_recovers : ∃ w w' : World, Reaches (step idCodec) World.init w ∧
    browserEnvelope "a" ∈ w.failedInserts ∧ Run (step idCodec) Smooth w w' ∧
    w'.db.Stored (browserEnvelope "b") := by
  obtain ⟨w, hrun, hfailed, hwritten, hnew, hok, hidle, hread⟩ : ∃ w : World,
      Run (step idCodec) (fun _ _ => True) World.init w ∧
        (browserEnvelope "a" ∈ w.failedInserts ∧ browserEnvelope "b" ∈ w.intact ∧
          ¬ w.db.Stored (browserEnvelope "b") ∧ browserEnvelope "b" ∉ w.failedInserts ∧
          w.job.isNone = true ∧ ∀ i ∈ w.dir.listFallbackFiles,
            ((w.dir.get? i).bind fun f => f.content.readToString).isSome = true) :=
    exists_run_of_exec (l := failedInsert) (by decide)
  have hidle' : w.job = none := Option.isNone_iff_eq_none.mp hidle
  have hreadable : ∀ i ∈ w.dir.listFallbackFiles, w.Readable i := by
    intro i hi
    obtain ⟨text, htext⟩ := Option.isSome_iff_exists.mp (hread i hi)
    obtain ⟨f, hf, hread⟩ := Option.bind_eq_some_iff.mp htext
    exact ⟨f, text, hf, hread⟩
  obtain ⟨-, hkept⟩ := written_line_kept hrun
  obtain ⟨hplace, hlater⟩ := hkept _ hwritten idCodec_roundTrips
  have hpending : w.Pending idCodec (browserEnvelope "b") := by
    rcases hplace with hstored | hpending | ⟨-, hfail | hother⟩
    · exact absurd hstored hnew
    · exact hpending
    · exact absurd hfail hok
    · cases hother
  obtain ⟨w', hrecovery, hstored⟩ := hlater hpending nofun hidle' hreadable
  exact ⟨w, w', hrun, hfailed, hrecovery, hstored⟩

end FailedInsert

end Hippo.Fallback
