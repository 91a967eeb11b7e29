import Hippo.PauseSafety

/-!
# The bench client of the pause handshake

A bench run writes a marker before it asks for the pause and removes it after a confirmed resume.
It can be killed at any point, and each request or its reply can be lost. The marker is then what
the next run recovers by. One bench process runs at a time.
-/
namespace Hippo.PauseHandshake

open Transition

/-- Where a bench process is. -/
inductive Client where
  | absent
  | started
  /-- `recover_stale_pause` has found the marker. -/
  | recovering
  /-- The recovery's resume is confirmed, its marker still to be removed. -/
  | recovered
  /-- `recover_stale_pause` has returned. -/
  | ready
  /-- `pause` has written the marker and posts until the reply is positive. -/
  | pausing
  /-- `pause` has returned. -/
  | owner
  /-- A `resume` is due: of the run, of its error path or at exit. -/
  | resuming
  | resumed
deriving DecidableEq, Repr

/-- What becomes of a request: it may not arrive, and its reply may be lost. -/
inductive Delivery where
  | lost
  | replyLost
  | answered
deriving DecidableEq, Repr

structure Bench where
  brain : Brain
  marker : Bool
  client : Client

def Bench.start : Bench := ⟨PauseHandshake.start, false, .absent⟩

inductive BenchAct where
  /-- Control requests come from the client alone. -/
  | server (a : Act)
  /-- The server process starts anew. -/
  | restart
  | launch
  /-- The look for a marker. -/
  | look
  | write (ok : Bool)
  | post (now : ℕ) (d : Delivery)
  | deadline
  | finish
  | unlink (ok : Bool)
  /-- `resume` runs once more at exit. -/
  | atExit
  | kill

def received (d : Delivery) (f : Brain → Brain) (b : Brain) : Brain :=
  match d with
  | .lost => b
  | _ => f b

/-- One request of `pause`. -/
def postPause (w : Bench) (now : ℕ) (d : Delivery) : Bench :=
  { w with
    brain := received d (fun b => (controlPause b now).1) w.brain
    client :=
      if d = .answered then
        if (controlPause w.brain now).2.inFlightFinished then .owner else .pausing
      else .resuming }

/-- The request of `resume`. `failed` is where the process is when it is not confirmed. -/
def postResume (w : Bench) (d : Delivery) (confirmed failed : Client) : Bench :=
  { w with
    brain := received d controlResume w.brain
    client := if d = .answered then confirmed else failed }

def Bench.step (w : Bench) : BenchAct → Option Bench
  | .server a =>
    if a.internal then (PauseHandshake.step w.brain a).map fun b => { w with brain := b } else none
  | .restart => some { w with brain := PauseHandshake.start }
  | .launch => if w.client = .absent then some { w with client := .started } else none
  | .look =>
    if w.client = .started then
      some { w with client := if w.marker then .recovering else .ready }
    else none
  | .write ok =>
    -- a failed write takes the marker with it
    if w.client = .ready then
      some { w with marker := ok, client := if ok then .pausing else .resuming }
    else none
  | .post now d =>
    match w.client with
    | .recovering => some (postResume w d .recovered .absent)
    | .pausing => some (postPause w now d)
    | .resuming => some (postResume w d .resumed .resuming)
    | _ => none
  | .deadline => if w.client = .pausing then some { w with client := .resuming } else none
  | .finish => if w.client = .owner then some { w with client := .resuming } else none
  | .unlink ok =>
    match w.client with
    | .recovered => some { w with marker := w.marker && !ok, client := .ready }
    | .resumed => some { w with marker := w.marker && !ok, client := .absent }
    | _ => none
  | .atExit => if w.client = .resumed then some { w with client := .resuming } else none
  | .kill => some { w with client := .absent }

section Safety

variable {w v : Bench} {a : BenchAct}

theorem controlPause_paused (b : Brain) (now : ℕ) : (controlPause b now).1.paused = true := by
  by_cases hp : b.paused <;> simp [controlPause, hp]

/-- The server is paused only where a marker says so, and runs where a resume is confirmed. -/
structure Marked (w : Bench) : Prop where
  marker : w.brain.paused = true → w.marker = true
  pausing : w.client = .pausing → w.marker = true
  running : w.client = .ready ∨ w.client = .recovered ∨ w.client = .resumed →
    w.brain.paused = false

theorem marked_start : Marked Bench.start where
  marker := by simp [Bench.start, start]
  pausing := by simp [Bench.start]
  running := by simp [Bench.start]

/-- A resume either clears the pause or leaves it as it is, and is confirmed only if it clears. -/
theorem marked_postResume (h : Marked w) {d : Delivery} {confirmed failed : Client}
    (hc : confirmed = .recovered ∨ confirmed = .resumed)
    (hf : failed = .absent ∨ failed = .resuming) : Marked (postResume w d confirmed failed) := by
  cases d with
  | lost =>
    refine ⟨h.marker, ?_, ?_⟩
    · rcases hf with rfl | rfl <;> simp [postResume]
    · rcases hf with rfl | rfl <;> simp [postResume]
  | replyLost =>
    refine ⟨by simp [postResume, received, controlResume], ?_, ?_⟩
    · rcases hf with rfl | rfl <;> simp [postResume]
    · simp [postResume, received, controlResume]
  | answered =>
    refine ⟨by simp [postResume, received, controlResume], ?_, ?_⟩
    · rcases hc with rfl | rfl <;> simp [postResume]
    · simp [postResume, received, controlResume]

theorem marked_postPause (hm : w.marker = true) (now : ℕ) (d : Delivery) :
    Marked (postPause w now d) := by
  refine ⟨fun _ => hm, fun _ => hm, fun hat => ?_⟩
  simp only [postPause] at hat
  split_ifs at hat <;> simp at hat

theorem marked_step (h : Marked w) (hs : w.step a = some v) : Marked v := by
  cases a with
  | server a =>
    simp only [Bench.step] at hs
    split_ifs at hs with ha
    obtain ⟨b, hb, rfl⟩ := Option.map_eq_some_iff.mp hs
    have hpaused := paused_step ha hb
    exact ⟨fun hp => h.marker (hpaused ▸ hp), h.pausing, fun hat => hpaused.trans (h.running hat)⟩
  | restart =>
    cases hs
    exact ⟨by simp [start], h.pausing, by simp [start]⟩
  | launch =>
    simp only [Bench.step] at hs
    split_ifs at hs
    cases hs
    exact ⟨h.marker, by simp, by simp⟩
  | look =>
    simp only [Bench.step] at hs
    split_ifs at hs with hat hm
    · cases hs
      exact ⟨fun _ => hm, by simp, by simp⟩
    · cases hs
      have hrunning : w.brain.paused = false := by
        by_contra hp
        exact hm (h.marker (by simpa using hp))
      exact ⟨by simp [hrunning], by simp, fun _ => hrunning⟩
  | write ok =>
    simp only [Bench.step] at hs
    split_ifs at hs with hat hok
    all_goals cases hs
    all_goals have hrunning := h.running (Or.inl hat)
    · exact ⟨fun _ => hok, fun _ => hok, by simp⟩
    · exact ⟨by simp [hrunning], by simp, by simp⟩
  | post now d =>
    simp only [Bench.step] at hs
    split at hs
    · cases hs
      exact marked_postResume h (Or.inl rfl) (Or.inl rfl)
    · rename_i hat
      cases hs
      exact marked_postPause (h.pausing hat) now d
    · cases hs
      exact marked_postResume h (Or.inr rfl) (Or.inr rfl)
    · cases hs
  | deadline =>
    simp only [Bench.step] at hs
    split_ifs at hs
    cases hs
    exact ⟨h.marker, by simp, by simp⟩
  | finish =>
    simp only [Bench.step] at hs
    split_ifs at hs
    cases hs
    exact ⟨h.marker, by simp, by simp⟩
  | unlink ok =>
    simp only [Bench.step] at hs
    split at hs
    · rename_i hat
      cases hs
      have hrunning := h.running (Or.inr (Or.inl hat))
      exact ⟨by simp [hrunning], by simp, fun _ => hrunning⟩
    · rename_i hat
      cases hs
      have hrunning := h.running (Or.inr (Or.inr hat))
      exact ⟨by simp [hrunning], by simp, by simp⟩
    · cases hs
  | atExit =>
    simp only [Bench.step] at hs
    split_ifs at hs
    cases hs
    exact ⟨h.marker, by simp, by simp⟩
  | kill =>
    cases hs
    exact ⟨h.marker, by simp, by simp⟩

theorem marked_of_reaches (h : Reaches Bench.step .start w) : Marked w :=
  h.invariant (fun _ _ _ hw _ hs => marked_step hw hs) marked_start

/-- Server steps in which every child marks its chunks, and no restart of the server. -/
def BenchAct.calm : BenchAct → Prop
  | .server a => a.marks
  | .restart => False
  | _ => True

def BenchAct.lives : BenchAct → Prop
  | .restart => False
  | _ => True

theorem exact_bench (h : Exact w.brain) (hs : w.step a = some v) : Exact v.brain := by
  cases a with
  | server a =>
    simp only [Bench.step] at hs
    split_ifs at hs
    obtain ⟨b, hb, rfl⟩ := Option.map_eq_some_iff.mp hs
    exact exact_step h hb
  | restart => cases hs; exact exact_start
  | post now d =>
    have hresume : Exact (controlResume w.brain) :=
      ⟨h.queries, h.enrichment, h.classification, h.reaper⟩
    simp only [Bench.step] at hs
    split at hs
    · cases hs
      cases d <;> first | exact h | exact hresume
    · cases hs
      cases d <;> first | exact h | exact exact_controlPause h now
    · cases hs
      cases d <;> first | exact h | exact hresume
    · cases hs
  | kill => cases hs; exact h
  | unlink ok =>
    simp only [Bench.step] at hs
    split at hs <;> cases hs
    all_goals exact h
  | _ =>
    simp only [Bench.step] at hs
    split_ifs at hs
    all_goals cases hs
    all_goals exact h

/-- The run has the inference server to itself. -/
structure Owned (w : Bench) : Prop where
  exact : Exact w.brain
  owner : w.client = .owner → w.brain.paused = true ∧ tracked w.brain = 0

theorem owned_step (h : Owned w) (ha : a.lives) (hs : w.step a = some v) : Owned v := by
  refine ⟨exact_bench h.exact hs, ?_⟩
  cases a with
  | server a =>
    simp only [Bench.step] at hs
    split_ifs at hs with hin
    obtain ⟨b, hb, rfl⟩ := Option.map_eq_some_iff.mp hs
    intro ho
    obtain ⟨hp, hidle⟩ := h.owner ho
    have hstays : a.stays := by cases a <;> trivial
    have hrank := (rank_step hp hstays hb).2.1
    exact ⟨(paused_step hin hb).trans hp, tracked_eq_zero_of_rank hrank hidle⟩
  | restart => exact absurd ha id
  | post now d =>
    simp only [Bench.step] at hs
    split at hs
    · cases hs
      cases d <;> simp [postResume]
    · cases hs
      intro ho
      simp only [postPause] at ho
      split_ifs at ho with hd hfin
      subst hd
      have hidle := (h.exact.finished_iff now).mp hfin
      refine ⟨controlPause_paused w.brain now, ?_⟩
      simp only [postPause, received, controlPause]
      split_ifs <;> exact hidle
    · cases hs
      cases d <;> simp [postResume]
    · cases hs
  | kill => cases hs; simp
  | unlink ok =>
    simp only [Bench.step] at hs
    split at hs <;> cases hs
    all_goals simp
  | _ =>
    simp only [Bench.step] at hs
    split_ifs at hs
    all_goals cases hs
    all_goals simp

theorem tended_postResume (h : Tended w.brain) (d : Delivery) (confirmed failed : Client) :
    Tended (postResume w d confirmed failed).brain := by
  cases d <;> exact ⟨h.orphans, h.strayEmbeds, h.raised⟩

theorem tended_bench (h : Tended w.brain) (ha : a.calm) (hs : w.step a = some v) :
    Tended v.brain := by
  cases a with
  | server a =>
    simp only [Bench.step] at hs
    split_ifs at hs
    obtain ⟨b, hb, rfl⟩ := Option.map_eq_some_iff.mp hs
    exact tended_step h ha hb
  | restart => exact absurd ha id
  | post now d =>
    simp only [Bench.step] at hs
    split at hs
    · cases hs
      exact tended_postResume h d _ _
    · cases hs
      have hpause : Tended (controlPause w.brain now).1 :=
        tended_step (a := .pause now) h trivial rfl
      cases d <;> first | exact h | exact hpause
    · cases hs
      exact tended_postResume h d _ _
    · cases hs
  | kill => cases hs; exact h
  | unlink ok =>
    simp only [Bench.step] at hs
    split at hs <;> cases hs
    all_goals exact h
  | _ =>
    simp only [Bench.step] at hs
    split_ifs at hs
    all_goals cases hs
    all_goals exact h

/-- While the server is not restarted, a bench run whose `pause` has returned has the inference
server to itself until it resumes, whatever the tasks of the server do meanwhile. -/
theorem bench_owns (h : Run Bench.step (fun _ a => a.lives) .start w) (ho : w.client = .owner) :
    w.brain.paused = true ∧ tracked w.brain = 0 ∧
      (Run Bench.step (fun _ a => a.calm) .start w → strays w.brain = 0) := by
  have howned : Owned w :=
    h.invariant (fun _ _ _ hw ha hs => owned_step hw ha hs) ⟨exact_start, by simp [Bench.start]⟩
  obtain ⟨hp, hidle⟩ := howned.owner ho
  refine ⟨hp, hidle, fun hcalm => ?_⟩
  have htended : Tended w.brain :=
    hcalm.invariant (I := fun w => Tended w.brain) (fun _ _ _ hw ha hs => tended_bench hw ha hs)
      ⟨rfl, rfl, rfl⟩
  simp [strays, htended.orphans, htended.strayEmbeds]

/-- A bench run up to its ownership. -/
theorem bench_owns_after_pause :
    ∃ w, Run Bench.step (fun _ a => a.lives) .start w ∧ w.brain.paused = true ∧
      tracked w.brain = 0 := by
  have hrun : Run Bench.step (fun _ a => a.lives) .start
      ⟨{ PauseHandshake.start with paused := true, pausedAt := some 9 }, true, .owner⟩ :=
    Run.head (a := .launch) trivial rfl <| Run.head (a := .look) trivial rfl <|
      Run.head (a := .write true) trivial rfl <|
      Run.single (a := .post 9 .answered) trivial rfl
  obtain ⟨hp, hidle, -⟩ := bench_owns hrun rfl
  exact ⟨_, hrun, hp, hidle⟩

/-- Whatever is killed or lost, a paused server has left a marker. So a recovery that returns has
the server running, and from every state without a bench process a run can recover. -/
theorem marker_recovers (h : Reaches Bench.step .start w) :
    (w.brain.paused = true → w.marker = true) ∧
    (w.client = .ready → w.brain.paused = false) ∧
    (w.client = .absent → ∃ v, Reaches Bench.step w v ∧ v.client = .ready ∧
      v.brain.paused = false ∧ v.marker = false) := by
  have hmarked := marked_of_reaches h
  refine ⟨hmarked.marker, fun hat => hmarked.running (Or.inl hat), fun hat => ?_⟩
  cases hm : w.marker with
  | true =>
    refine ⟨⟨controlResume w.brain, false, .ready⟩, ?_, rfl, rfl, rfl⟩
    refine Run.head (a := .launch) trivial (by simp only [Bench.step, hat, if_true]; rfl) ?_
    refine Run.head (a := .look) trivial (by simp only [Bench.step, hm, if_true]; rfl) ?_
    refine Run.head (a := .post 0 .answered) trivial rfl ?_
    exact Run.single (a := .unlink true) trivial (by simp [Bench.step, postResume, received])
  | false =>
    have hrunning : w.brain.paused = false := by
      by_contra hp
      simp [hmarked.marker (by simpa using hp)] at hm
    refine ⟨⟨w.brain, false, .ready⟩, ?_, rfl, hrunning, rfl⟩
    refine Run.head (a := .launch) trivial (by simp only [Bench.step, hat, if_true]; rfl) ?_
    exact Run.single (a := .look) trivial (by simp [Bench.step, hm])

/-- A run that is killed once its pause is accepted, before the reply. -/
theorem marker_recovers_after_kill :
    ∃ w, Reaches Bench.step .start w ∧ w.brain.paused = true ∧ w.marker = true ∧
      ∃ v, Reaches Bench.step w v ∧ v.client = .ready ∧ v.brain.paused = false ∧
        v.marker = false := by
  have hreach : Reaches Bench.step .start
      ⟨{ PauseHandshake.start with paused := true, pausedAt := some 9 }, true, .absent⟩ :=
    Run.head (a := .launch) trivial rfl <| Run.head (a := .look) trivial rfl <|
      Run.head (a := .write true) trivial rfl <|
      Run.head (a := .post 9 .replyLost) trivial rfl <| Run.single (a := .kill) trivial rfl
  have h := marker_recovers hreach
  exact ⟨_, hreach, rfl, h.1 rfl, h.2.2 rfl⟩

end Safety

end Hippo.PauseHandshake
