import Hippo.Restore

/-!
# The live path holds the previous database or the restored one

The fold keeps what a reader sees, page after page, and removes the log only when the file
alone reads the same. So every disk that a restore leaves, whatever failed and wherever it
was killed, is one of three: the previous database as it reads, the previous main file with
its log moved aside (a damaged database that was copied before), or the restored file with
no log beside it.
-/
namespace Hippo.Restore

open Hippo.Interruption Hippo.PagedFile

section Results

variable {β : Type}

def Copy.of {α : Type} : Option α → Copy α
  | none => .absent
  | some a => .whole a

/-- The raw copy holds the database file and its WAL as they were. -/
def RawCopied (before : Live β) (w : Work β) : Prop :=
  ∃ copy, w.rawCopy = some copy ∧ copy.main = Copy.of before.main ∧ copy.wal = Copy.of before.wal

/-- Where the previous database is when the restored one is in place. -/
inductive Saved (env : Env) (before : Live β) (w : Work β) : Prop
  | nothing : before.main = none → (before.wal.isSome → w.asideWal = before.wal) → Saved env before w
  | raw : env.damaged = true → RawCopied before w → Saved env before w
  | snapshot (view : Pages β) : before.view = some view → w.snapshot = .whole view →
      Saved env before w
  | checkpoint : env.report = .done → before.main.isSome → w.artifact = before.view →
      Saved env before w

/-- The live path reads as before. -/
def Previous (before : Live β) (d : Files β) : Prop :=
  d.live.swapped = false ∧ d.live.view = before.view

/-- The main file lies without its log, which was moved aside: with it, it reads as before. The
files as they were are in the raw copy. -/
def Aside (env : Env) (before : Live β) (d : Files β) : Prop :=
  env.damaged = true ∧ d.live.swapped = false ∧ d.live.wal = none ∧ RawCopied before d.work ∧
    ∃ frames, d.work.asideWal = some frames ∧ d.live.main.map (overlay frames) = before.view

/-- The restored file is in place, the previous one was saved, and no log lies beside it. -/
def Replaced (env : Env) (before : Live β) (restored : Pages β) (d : Files β) : Prop :=
  d.live.swapped = true ∧ d.live.main = some restored ∧ d.live.wal = none ∧
    Saved env before d.work

/-- What a restore may leave. -/
def Safe (env : Env) (before : Live β) (restored : Pages β) (d : Files β) : Prop :=
  Previous before d ∨ Aside env before d ∨ Replaced env before restored d

end Results

section Views

variable {β : Type}

@[simp] theorem view_writePage (l : Live β) (page : ℕ) : (l.writePage page).view = l.view := by
  simp only [Live.view, Live.writePage, Option.map_map]
  congr 1
  funext file
  exact overlay_write_view (l.wal.getD []) file page

theorem view_deleteWal {l : Live β} (h : l.main = l.view) : l.deleteWal.view = l.view := by
  have hfile : l.deleteWal.view = l.main := by
    simp only [Live.view, Live.deleteWal, Option.getD_none]
    cases l.main <;> rfl
  rw [hfile, h]

/-- The live files after the checkpoint wrote `pages`. -/
def Live.writePages (pages : List ℕ) (l : Live β) : Live β :=
  pages.foldl (fun l page => l.writePage page) l

theorem writePages_eq (pages : List ℕ) (l : Live β) :
    l.writePages pages =
      { l with main := l.main.map fun file =>
          backfill (overlay (l.wal.getD []) file) pages file } := by
  induction pages generalizing l with
  | nil =>
    cases l
    simp [Live.writePages, backfill]
  | cons page pages ih =>
    have hrest := ih (l.writePage page)
    simp only [Live.writePages, List.foldl_cons] at hrest ⊢
    rw [hrest]
    simp only [Live.writePage, Option.map_map]
    congr 1
    cases l.main with
    | none => rfl
    | some file =>
      simp only [Option.map_some, Function.comp, overlay_write_view]
      rfl

/-- Once every page of the log was written, the file alone reads as before. -/
theorem writePages_main (l : Live β) :
    (l.writePages ((l.wal.getD []).map Prod.fst)).main = l.view := by
  rw [writePages_eq]
  simp only [Live.view, backfill_complete]

theorem writePages_view (pages : List ℕ) (l : Live β) : (l.writePages pages).view = l.view := by
  induction pages generalizing l with
  | nil => rfl
  | cons page pages ih =>
    have hrest := ih (l.writePage page)
    rw [view_writePage] at hrest
    exact hrest

end Views

section Folding

variable {β : Type} {before : Live β} {w : Work β}

/-- While the log is folded: it reads as before, and only the live files change. -/
def Folding (before : Live β) (w : Work β) (d : Files β) : Prop :=
  d.work = w ∧ d.live.swapped = false ∧ d.live.view = before.view

theorem writePages_spec (l : Live β) (hl : l.swapped = false) (pages : List ℕ) :
    Leaves (fun d : Files β => d.work = w ∧ d.live = l) (writePages pages)
      (fun _ d => d.work = w ∧ d.live = l.writePages pages) (Folding l w) := by
  have hkeep : ∀ d : Files β, d.work = w ∧ d.live = l → Folding l w d := by
    rintro d ⟨hw, rfl⟩
    exact ⟨hw, hl, rfl⟩
  induction pages generalizing l with
  | nil => exact Leaves.pure fun d hd => hd
  | cons page pages ih =>
    have hwritten : (l.writePage page).swapped = false := hl
    have hrest := ih (l.writePage page) hwritten fun d hd =>
      ⟨hd.1, by rw [hd.2]; exact hwritten, by rw [hd.2]⟩
    apply Leaves.bind (Q := fun _ d => d.work = w ∧ d.live = l.writePage page)
    · apply Leaves.write hkeep
      rintro d ⟨hw, rfl⟩
      exact ⟨hw, rfl⟩
    · intro _
      apply Leaves.mono hrest (fun _ hd => hd) (fun _ _ hd => hd)
      rintro d ⟨hw, hswapped, hview⟩
      exact ⟨hw, hswapped, by rw [hview, view_writePage]⟩

/-- A checkpoint keeps what a reader sees. -/
theorem checkpointWal_spec :
    Leaves (Folding before w) (checkpointWal : RestoreM β Unit)
      (fun _ => Folding before w) (Folding before w) := by
  apply Leaves.from
  intro d hd
  have hkeep : ∀ d', Folding d.live w d' → Folding before w d' := by
    rintro d' ⟨hw, hswapped, hview⟩
    exact ⟨hw, hswapped, hview.trans hd.2.2⟩
  -- every page of the log is in the file when the log is deleted
  let frames := d.live.wal.getD []
  let written := d.live.writePages (frames.map Prod.fst)
  have hmain : written.main = written.view := by
    show (d.live.writePages (frames.map Prod.fst)).main = _
    rw [writePages_main, writePages_view]
  have hswapped : written.swapped = false := by
    show (d.live.writePages (frames.map Prod.fst)).swapped = false
    rw [writePages_eq]
    exact hd.2.1
  have hview : written.view = before.view := by
    show (d.live.writePages (frames.map Prod.fst)).view = _
    rw [writePages_view]
    exact hd.2.2
  apply Leaves.bind (Q := fun read d' => read = frames ∧ d' = d)
  · apply Leaves.look
    rintro d' rfl
    exact ⟨rfl, rfl⟩
  intro read
  apply Leaves.bind (Q := fun _ d' => d'.work = w ∧ d'.live = written)
  · apply Leaves.from
    rintro d' ⟨rfl, rfl⟩
    apply Leaves.mono (writePages_spec (w := w) d'.live hd.2.1 _) _ (fun _ _ hq => hq) hkeep
    rintro d'' rfl
    exact ⟨hd.1, rfl⟩
  intro _
  apply Leaves.bind (Q := fun _ d' => Folding before w d' ∧ d'.live.main = d'.live.view)
  · apply Leaves.ignore (K := fun d' => Folding before w d' ∧ d'.live.main = d'.live.view)
      (Q := fun _ d' => Folding before w d' ∧ d'.live.main = d'.live.view)
    · apply Leaves.write
      · rintro d' ⟨hw, hlive⟩
        refine ⟨⟨hw, ?_, ?_⟩, ?_⟩
        · rw [hlive, hswapped]
        · rw [hlive, hview]
        · rw [hlive, hmain]
      · rintro d' ⟨hw, hlive⟩
        refine ⟨⟨hw, ?_, ?_⟩, ?_⟩
        · simp [Live.removeSharedMemory, hlive, hswapped]
        · rw [← hview, ← hlive]
          rfl
        · have hstill := hmain
          rw [← hlive] at hstill
          exact hstill
    · exact fun _ _ hq => hq
    · exact fun _ hd' => hd'.1
  intro _
  apply Leaves.ignore (Q := fun _ => Folding before w)
  · apply Leaves.write
    · exact fun _ hd' => hd'.1
    · rintro d' ⟨⟨hw, hswapped', hview'⟩, hmain'⟩
      exact ⟨hw, hswapped', (view_deleteWal hmain').trans hview'⟩
  · exact fun _ _ hq => hq
  · exact fun _ hd' => hd'

theorem dropConnection_spec (env : Env) :
    Leaves (Folding before w) (dropConnection env : RestoreM β Unit)
      (fun _ => Folding before w) (Folding before w) := by
  apply Leaves.ite
  · intro _
    exact Leaves.ignore checkpointWal_spec (fun _ _ hd => hd) fun _ hd => hd
  · intro _
    exact Leaves.pure fun _ hd => hd

theorem touch_spec {I E : Files β → Prop} (operation : Operation) (hE : ∀ d, I d → E d) :
    Leaves I (touch operation) (fun _ => I) E :=
  Leaves.write hE fun _ hd => hd

theorem closeFolded_spec :
    Leaves (Folding before w) (closeFolded : RestoreM β Unit)
      (fun _ d => Folding before w d ∧ d.live.wal = none) (Folding before w) := by
  apply Leaves.bind (touch_spec _ fun _ hd => hd)
  intro _
  apply Leaves.bind
      (Q := fun remains d => Folding before w d ∧ remains = d.live.wal.isSome)
  · exact Leaves.look fun d hd => ⟨hd, rfl⟩
  intro remains
  apply Leaves.bind (Q := fun _ d => Folding before w d ∧ d.live.wal = none)
  · apply Leaves.ensure
    · intro hgone d hd
      refine ⟨hd.1, ?_⟩
      have hnone : d.live.wal.isSome = false := by
        rw [← hd.2]
        simpa using hgone
      simpa using hnone
    · exact fun _ d hd => hd.1
  intro _
  apply Leaves.write
  · exact fun _ hd => hd.1
  · intro d hd
    exact ⟨⟨hd.1.1, hd.1.2.1, hd.1.2.2⟩, hd.2⟩

/-- When the fold succeeds the log is gone; the database reads as before in any case. -/
theorem foldLiveWal_spec (env : Env) :
    Leaves (Folding before w) (foldLiveWal env : RestoreM β (Except RestoreError Unit))
      (fun result d => Folding before w d ∧ (result = .ok () → d.live.wal = none))
      (Folding before w) := by
  have hsame : ∀ d : Files β, Folding before w d → Folding before w d := fun _ hd => hd
  apply Leaves.bind (Leaves.attempt (touch_spec .openLive hsame) hsame)
  intro opened
  cases opened with
  | error e =>
    apply Leaves.pure
    intro d hd
    exact ⟨hd, by simp⟩
  | ok _ =>
    show Leaves (Folding before w) _ _ _
    cases hcontention : env.contention with
    | busy =>
      apply Leaves.bind (dropConnection_spec env)
      exact fun _ => Leaves.throw hsame
    | stays =>
      apply Leaves.bind (dropConnection_spec env)
      exact fun _ => Leaves.throw hsame
    | none =>
      have hmode : Leaves (Folding before w) (journalModeDelete : RestoreM β Unit)
          (fun _ => Folding before w) (Folding before w) :=
        Leaves.bind checkpointWal_spec fun _ => touch_spec _ hsame
      apply Leaves.bind (Leaves.attempt hmode hsame)
      intro folded
      cases folded with
      | error e =>
        apply Leaves.bind (dropConnection_spec env)
        intro _
        apply Leaves.pure
        intro d hd
        exact ⟨hd, by simp⟩
      | ok _ =>
        apply Leaves.mono (Leaves.attempt closeFolded_spec hsame) (fun _ hd => hd) _ hsame
        intro result d hd
        cases result with
        | error e => exact ⟨hd, by simp⟩
        | ok _ => exact ⟨hd.1, fun _ => hd.2⟩

end Folding

section Saving

variable {β : Type} {before : Live β} {restored : Pages β} {env : Env}

/-- Nothing was touched at the live path yet. -/
def Untouched (before : Live β) (restored : Pages β) (d : Files β) : Prop :=
  d.live = before ∧ d.work.db = some restored

/-- Ready to be replaced. -/
def Ready (env : Env) (before : Live β) (restored : Pages β) (d : Files β) : Prop :=
  d.live.swapped = false ∧ d.live.wal = none ∧ d.work.db = some restored ∧
    Saved env before d.work ∧ (Previous before d ∨ Aside env before d)

theorem Folding.previous {w : Work β} {d : Files β} (h : Folding before w d) :
    Previous before d :=
  h.2

theorem Untouched.previous (hb : before.swapped = false) {d : Files β}
    (h : Untouched before restored d) : Previous before d := by
  refine ⟨?_, ?_⟩
  · rw [h.1]
    exact hb
  · rw [h.1]

theorem refuseIfOpen_spec {I E : Files β → Prop} (openers : Option (List ℕ))
    (hE : ∀ d, I d → E d) : Leaves I (refuseIfOpen openers) (fun _ => I) E := by
  apply Leaves.bind (touch_spec _ hE)
  intro _
  rcases openers with _ | pids
  · exact Leaves.pure fun _ hd => hd
  · cases pids with
    | nil => exact Leaves.pure fun _ hd => hd
    | cons pid pids => exact Leaves.throw hE

/-- A file copied into the raw copy. -/
theorem copyFile_spec {α : Type} (suffix : String) (file : Live β → Option α)
    (put : RawCopy β → Copy α → RawCopy β)
    (hput : ∀ copy a b, put (put copy a) b = put copy b)
    (copy : RawCopy β) (habsent : put copy .absent = copy) :
    Leaves (fun d => Untouched before restored d ∧ d.work.rawCopy = some copy)
      (copyFile suffix file put)
      (fun _ d => Untouched before restored d ∧
        d.work.rawCopy = some (put copy (Copy.of (file before))))
      (fun d => Untouched before restored d) := by
  apply Leaves.bind
      (Q := fun found d => found = file before ∧ Untouched before restored d ∧
        d.work.rawCopy = some copy)
  · apply Leaves.look
    intro d hd
    exact ⟨by rw [hd.1.1], hd⟩
  intro found
  cases found with
  | none =>
    apply Leaves.pure
    rintro d ⟨hfile, hd, hcopy⟩
    refine ⟨hd, ?_⟩
    rw [← hfile]
    show d.work.rawCopy = some (put copy .absent)
    rw [habsent, hcopy]
  | some a =>
    apply Leaves.bind
        (Q := fun _ d => some a = file before ∧ Untouched before restored d ∧
          d.work.rawCopy = some (put copy .started))
    · apply Leaves.write (fun d hd => hd.2.1)
      rintro d ⟨hfile, hd, hcopy⟩
      exact ⟨hfile, hd, by simp [hcopy]⟩
    intro _
    apply Leaves.bind
        (Q := fun _ d => some a = file before ∧ Untouched before restored d ∧
          d.work.rawCopy = some (put copy (.whole a)))
    · apply Leaves.write (fun d hd => hd.2.1)
      rintro d ⟨hfile, hd, hcopy⟩
      exact ⟨hfile, hd, by simp [hcopy, hput]⟩
    intro _
    apply Leaves.mono (touch_spec (.syncCopy suffix) fun d hd => hd) (fun _ hd => hd) _
      fun d hd => hd.2.1
    rintro _ d ⟨hfile, hd, hcopy⟩
    exact ⟨hd, by rw [← hfile]; exact hcopy⟩

theorem rawCopy_spec :
    Leaves (Untouched before restored) (rawCopy : RestoreM β Unit)
      (fun _ d => Untouched before restored d ∧ RawCopied before d.work)
      (Untouched before restored) := by
  apply Leaves.bind
      (Q := fun _ d => Untouched before restored d ∧ d.work.rawCopy = some {})
  · apply Leaves.op fun _ hd => hd
    intro d hd
    cases hcopy : d.work.rawCopy with
    | some copy => exact hd
    | none => exact ⟨hd, rfl⟩
  intro _
  apply Leaves.bind (copyFile_spec "" Live.main RawCopy.putMain (fun _ _ _ => rfl) {} rfl)
  intro _
  apply Leaves.bind (copyFile_spec "-wal" Live.wal RawCopy.putWal (fun _ _ _ => rfl) _ rfl)
  intro _
  apply Leaves.bind (copyFile_spec "-shm" _ RawCopy.putShm (fun _ _ _ => rfl) _ rfl)
  intro _
  apply Leaves.mono (touch_spec .syncRawCopy fun d hd => hd) (fun _ hd => hd) _
    fun _ hd => hd.1
  intro _ d hd
  exact ⟨hd.1, _, hd.2, rfl, rfl⟩

/-- The sidecars after the move: the main file is as it was, and the log is moved or was not
there. -/
def Moved (start d : Files β) : Prop :=
  d.live.main = start.live.main ∧ d.live.swapped = start.live.swapped ∧
    d.work.db = start.work.db ∧ d.work.rawCopy = start.work.rawCopy ∧
    ((d.live.wal = start.live.wal ∧ d.work.asideWal = start.work.asideWal) ∨
      (d.live.wal = none ∧ start.live.wal.isSome ∧ d.work.asideWal = start.live.wal))

theorem moveWalAside_spec (start : Files β) :
    Leaves (fun d => d = start) moveWalAside
      (fun _ d => Moved start d ∧ d.live.wal = none) (Moved start) := by
  have hstart : Moved start start := ⟨rfl, rfl, rfl, rfl, Or.inl ⟨rfl, rfl⟩⟩
  apply Leaves.bind (Q := fun found d => d = start ∧ found = start.live.wal.isSome)
  · apply Leaves.look
    rintro d rfl
    exact ⟨rfl, rfl⟩
  intro found
  apply Leaves.ite
  · intro hfound
    apply Leaves.bind (Q := fun _ d => d = start ∧ found = start.live.wal.isSome)
    · exact Leaves.look fun d hd => hd
    intro taken
    apply Leaves.bind (Q := fun _ d => d = start ∧ found = start.live.wal.isSome)
    · apply Leaves.ensure
      · exact fun _ d hd => hd
      · rintro _ d ⟨rfl, _⟩
        exact hstart
    intro _
    apply Leaves.write
    · rintro d ⟨rfl, _⟩
      exact hstart
    · rintro d ⟨rfl, hsome⟩
      have hwal : d.live.wal.isSome := by
        rw [← hsome]
        exact hfound
      exact ⟨⟨rfl, rfl, rfl, rfl, Or.inr ⟨rfl, hwal, rfl⟩⟩, rfl⟩
  · intro hfound
    apply Leaves.pure
    rintro d ⟨rfl, hsome⟩
    refine ⟨hstart, ?_⟩
    have hnone : d.live.wal.isSome = false := by
      rw [← hsome]
      simpa using hfound
    simpa using hnone

theorem moveShmAside_spec (start : Files β) :
    Leaves (fun d => Moved start d ∧ d.live.wal = none) moveShmAside
      (fun _ d => Moved start d ∧ d.live.wal = none) (Moved start) := by
  let I : Files β → Prop := fun d => Moved start d ∧ d.live.wal = none
  apply Leaves.bind (Q := fun _ => I)
  · exact Leaves.look fun d hd => hd
  intro found
  apply Leaves.ite
  · intro _
    apply Leaves.bind (Q := fun _ => I)
    · exact Leaves.look fun d hd => hd
    intro taken
    apply Leaves.bind (Q := fun _ => I)
    · exact Leaves.ensure (fun _ d hd => hd) fun _ d hd => hd.1
    intro _
    exact Leaves.write (fun d hd => hd.1) fun d hd => hd
  · intro _
    exact Leaves.pure fun d hd => hd

theorem moveSidecarsAside_spec (start : Files β) :
    Leaves (fun d => d = start) moveSidecarsAside
      (fun _ d => Moved start d ∧ d.live.wal = none) (Moved start) :=
  Leaves.bind (moveWalAside_spec start) fun _ => moveShmAside_spec start

/-- Moving the log of a damaged database that was copied. -/
theorem Moved.previous_or_aside {start d : Files β} (hmoved : Moved start d)
    (hdamaged : env.damaged = true) (hstart : Previous before start)
    (hcopied : RawCopied before start.work) : Previous before d ∨ Aside env before d := by
  obtain ⟨hmain, hswapped, -, hcopy, hwal⟩ := hmoved
  have hunswapped : d.live.swapped = false := hswapped.trans hstart.1
  rcases hwal with ⟨hwal, -⟩ | ⟨hgone, hsome, haside⟩
  · left
    refine ⟨hunswapped, ?_⟩
    rw [← hstart.2]
    simp only [Live.view, hmain, hwal]
  · right
    obtain ⟨frames, hframes⟩ := Option.isSome_iff_exists.mp hsome
    have hraw : RawCopied before d.work := by
      obtain ⟨copy, hfound, hfiles⟩ := hcopied
      exact ⟨copy, by rw [hcopy]; exact hfound, hfiles⟩
    refine ⟨hdamaged, hunswapped, hgone, hraw, frames, by rw [haside, hframes], ?_⟩
    rw [hmain, ← hstart.2]
    simp only [Live.view, hframes, Option.getD_some]

theorem takeSnapshot_spec (hmain : before.main.isSome) :
    Leaves (Untouched before restored) (takeSnapshot env)
      (fun _ d => Untouched before restored d ∧ Saved env before d.work)
      (Untouched before restored) := by
  obtain ⟨view, hview⟩ : ∃ view, before.view = some view := by
    obtain ⟨file, hfile⟩ := Option.isSome_iff_exists.mp hmain
    exact ⟨_, by rw [Live.view, hfile]; rfl⟩
  let I : Files β → Prop := fun d =>
    Untouched before restored d ∧ d.work.snapshot = .whole view
  apply Leaves.bind (touch_spec .openSource fun _ hd => hd)
  intro _
  apply Leaves.bind (Q := fun _ => Untouched before restored)
  · exact Leaves.write (fun _ hd => hd) fun d hd => hd
  intro _
  apply Leaves.bind (Q := fun _ => I)
  · apply Leaves.write fun _ hd => hd
    intro d hd
    have hlive : d.live.view = some view := by rw [hd.1, hview]
    simp only [hlive]
    exact ⟨hd, rfl⟩
  intro _
  apply Leaves.bind (touch_spec .checkSnapshot fun _ hd => hd.1)
  intro _
  apply Leaves.ensure
  · exact fun _ d hd => ⟨hd.1, Saved.snapshot view hview hd.2⟩
  · exact fun _ d hd => hd.1

theorem checkpointHoldingLock_spec (hmain : before.main.isSome) :
    Leaves (Untouched before restored) (checkpointHoldingLock env)
      (fun report d => Untouched before restored d ∧
        (report = .done → Saved env before d.work))
      (Untouched before restored) := by
  apply Leaves.bind (Q := fun _ d => Untouched before restored d ∧
      (env.report = .done → Saved env before d.work))
  · apply Leaves.write fun _ hd => hd
    intro d hd
    by_cases hdone : env.report = .done
    · simp only [if_pos hdone]
      have hview : d.live.view = before.view := by rw [hd.1]
      exact ⟨hd, fun _ => Saved.checkpoint hdone hmain hview⟩
    · simp only [if_neg hdone]
      exact ⟨hd, fun h => absurd h hdone⟩
  · intro _
    exact Leaves.pure fun d hd => hd

theorem saveCurrent_spec (hmain : before.main.isSome) :
    Leaves (Untouched before restored) (saveCurrent env)
      (fun _ d => Untouched before restored d ∧ Saved env before d.work)
      (Untouched before restored) := by
  apply Leaves.ite
  · intro _
    apply Leaves.bind (checkpointHoldingLock_spec hmain)
    intro report
    cases report with
    | done => exact Leaves.pure fun d hd => ⟨hd.1, hd.2 rfl⟩
    | skipped => exact Leaves.throw fun d hd => hd.1
    | notConfigured => exact Leaves.throw fun d hd => hd.1
  · intro _
    exact takeSnapshot_spec hmain

/-- The fold of a database that was saved. -/
theorem Folding.ready {w : Work β} {d : Files β} (h : Folding before w d)
    (hgone : d.live.wal = none) (hdb : w.db = some restored) (hsaved : Saved env before w) :
    Ready env before restored d := by
  refine ⟨h.2.1, hgone, ?_, ?_, Or.inl h.previous⟩
  · rw [h.1]
    exact hdb
  · rw [h.1]
    exact hsaved

theorem saveDamaged_spec (hb : before.swapped = false) (hdamaged : env.damaged = true) :
    Leaves (Untouched before restored)
      (do
        refuseIfOpen env.openers
        rawCopy
        match (← foldLiveWal env) with
        | .error _ => moveSidecarsAside
        | .ok () => return () : RestoreM β Unit)
      (fun _ => Ready env before restored) (fun d => Previous before d ∨ Aside env before d) := by
  have hprevious : ∀ d, Untouched before restored d → Previous before d ∨ Aside env before d :=
    fun d hd => Or.inl (hd.previous hb)
  apply Leaves.bind (refuseIfOpen_spec env.openers hprevious)
  intro _
  apply Leaves.bind (Leaves.mono rawCopy_spec (fun _ hd => hd) (fun _ _ hd => hd) hprevious)
  intro _
  apply Leaves.from
  intro saved hsaved
  have hraw : Saved env before saved.work := Saved.raw hdamaged hsaved.2
  have hstart : ∀ d, d = saved → Folding before saved.work d := by
    rintro d rfl
    refine ⟨rfl, ?_, ?_⟩
    · rw [hsaved.1.1]
      exact hb
    · rw [hsaved.1.1]
  apply Leaves.bind (Leaves.mono (foldLiveWal_spec env) hstart (fun _ _ hd => hd)
    fun d hd => Or.inl hd.previous)
  intro result
  cases result with
  | ok _ =>
    apply Leaves.pure
    intro d hd
    exact hd.1.ready (hd.2 rfl) hsaved.1.2 hraw
  | error e =>
    apply Leaves.from
    intro start hfolding
    have hcopied : RawCopied before start.work := by
      rw [hfolding.1.1]
      exact hsaved.2
    have haside : ∀ d, Moved start d → Previous before d ∨ Aside env before d :=
      fun d hmoved => hmoved.previous_or_aside hdamaged hfolding.1.previous hcopied
    apply Leaves.mono (moveSidecarsAside_spec start) (fun _ hd => hd) _ haside
    rintro _ d ⟨hmoved, hgone⟩
    have hrest := hmoved
    obtain ⟨-, hswapped, hdb, hcopy, -⟩ := hrest
    refine ⟨hswapped.trans hfolding.1.2.1, hgone, ?_, ?_, haside d hmoved⟩
    · rw [hdb, hfolding.1.1]
      exact hsaved.1.2
    · apply Saved.raw hdamaged
      obtain ⟨copy, hfound, hfiles⟩ := hcopied
      exact ⟨copy, by rw [hcopy]; exact hfound, hfiles⟩

theorem saveHealthy_spec (hb : before.swapped = false) (hmain : before.main.isSome) :
    Leaves (Untouched before restored)
      (do
        refuseIfOpen env.openers
        saveCurrent env
        refuseIfOpen env.openersAgain
        match (← foldLiveWal env) with
        | .error e => Proc.throw e
        | .ok () => return () : RestoreM β Unit)
      (fun _ => Ready env before restored) (fun d => Previous before d ∨ Aside env before d) := by
  have hprevious : ∀ d, Untouched before restored d → Previous before d ∨ Aside env before d :=
    fun d hd => Or.inl (hd.previous hb)
  apply Leaves.bind (refuseIfOpen_spec env.openers hprevious)
  intro _
  apply Leaves.bind (Leaves.mono (saveCurrent_spec hmain) (fun _ hd => hd) (fun _ _ hd => hd)
    hprevious)
  intro _
  apply Leaves.bind (refuseIfOpen_spec env.openersAgain fun d hd => hprevious d hd.1)
  intro _
  apply Leaves.from
  intro saved hsaved
  have hstart : ∀ d, d = saved → Folding before saved.work d := by
    rintro d rfl
    refine ⟨rfl, ?_, ?_⟩
    · rw [hsaved.1.1]
      exact hb
    · rw [hsaved.1.1]
  apply Leaves.bind (Leaves.mono (foldLiveWal_spec env) hstart (fun _ _ hd => hd)
    fun d hd => Or.inl hd.previous)
  intro result
  cases result with
  | ok _ =>
    apply Leaves.pure
    intro d hd
    exact hd.1.ready (hd.2 rfl) hsaved.1.2 hsaved.2
  | error e => exact Leaves.throw fun d hd => Or.inl hd.1.previous

theorem saveStray_spec (hb : before.swapped = false) (hmain : before.main = none) :
    Leaves (Untouched before restored) moveSidecarsAside
      (fun _ => Ready env before restored) (fun d => Previous before d ∨ Aside env before d) := by
  apply Leaves.from
  intro start hstart
  have hempty : before.view = none := by
    rw [Live.view, hmain]
    rfl
  have hprevious : ∀ d, Moved start d → Previous before d := by
    rintro d ⟨hmoved, hswapped, -⟩
    refine ⟨?_, ?_⟩
    · rw [hswapped, hstart.1]
      exact hb
    · rw [hempty, Live.view, hmoved, hstart.1, hmain]
      rfl
  apply Leaves.mono (moveSidecarsAside_spec start) (fun _ hd => hd) _
    fun d hd => Or.inl (hprevious d hd)
  rintro _ d ⟨hmoved, hgone⟩
  obtain ⟨hswapped, -⟩ := hprevious d hmoved
  refine ⟨hswapped, hgone, ?_, ?_, Or.inl (hprevious d hmoved)⟩
  · rw [hmoved.2.2.1]
    exact hstart.2
  · apply Saved.nothing hmain
    intro hsome
    obtain ⟨-, -, -, -, hwal⟩ := hmoved
    rcases hwal with ⟨hsame, -⟩ | ⟨-, -, haside⟩
    · rw [hsame, hstart.1] at hgone
      rw [hgone] at hsome
      simp at hsome
    · rw [haside, hstart.1]

/-- Whatever the branch, the database is saved and no log lies beside it. -/
theorem savePrevious_spec (hb : before.swapped = false) :
    Leaves (Untouched before restored) (savePrevious env)
      (fun _ => Ready env before restored) (fun d => Previous before d ∨ Aside env before d) := by
  apply Leaves.bind
      (Q := fun found d => found = before.main.isSome ∧ Untouched before restored d)
  · apply Leaves.look
    intro d hd
    exact ⟨by rw [hd.1], hd⟩
  intro found
  apply Leaves.from
  rintro start ⟨hfound, hstart⟩
  have huntouched : ∀ d, d = start → Untouched before restored d := by
    rintro d rfl
    exact hstart
  apply Leaves.ite
  · intro hlive
    rw [hfound] at hlive
    apply Leaves.ite
    · intro hdamaged
      exact Leaves.mono (saveDamaged_spec hb hdamaged) huntouched (fun _ _ hd => hd)
        fun _ hd => hd
    · intro _
      exact Leaves.mono (saveHealthy_spec hb hlive) huntouched (fun _ _ hd => hd)
        fun _ hd => hd
  · intro hnone
    rw [hfound] at hnone
    have hmain : before.main = none := by simpa using hnone
    exact Leaves.mono (saveStray_spec hb hmain) huntouched (fun _ _ hd => hd) fun _ hd => hd

end Saving

section Swap

variable {β : Type} {before : Live β} {restored : Pages β} {env : Env}

/-- What a disk needs to be safe before the last rename does not depend on the staged file. -/
theorem Saved.congr {w w' : Work β} (h : Saved env before w) (hraw : w'.rawCopy = w.rawCopy)
    (haside : w'.asideWal = w.asideWal) (hsnapshot : w'.snapshot = w.snapshot)
    (hartifact : w'.artifact = w.artifact) : Saved env before w' := by
  cases h with
  | nothing hmain hwal => exact Saved.nothing hmain fun hsome => haside.trans (hwal hsome)
  | raw hdamaged hcopied =>
    obtain ⟨copy, hfound, hfiles⟩ := hcopied
    exact Saved.raw hdamaged ⟨copy, hraw.trans hfound, hfiles⟩
  | snapshot view hview hwhole => exact Saved.snapshot view hview (hsnapshot.trans hwhole)
  | checkpoint hdone hmain hheld => exact Saved.checkpoint hdone hmain (hartifact.trans hheld)

theorem Aside.congr {d d' : Files β} (h : Aside env before d) (hlive : d'.live = d.live)
    (hraw : d'.work.rawCopy = d.work.rawCopy) (haside : d'.work.asideWal = d.work.asideWal) :
    Aside env before d' := by
  obtain ⟨hdamaged, hswapped, hgone, ⟨copy, hfound, hfiles⟩, frames, hframes, hview⟩ := h
  rw [← hlive] at hswapped hgone hview
  exact ⟨hdamaged, hswapped, hgone, ⟨copy, hraw.trans hfound, hfiles⟩, frames,
    haside.trans hframes, hview⟩

/-- Everything but the restored file itself. -/
def Prepared (env : Env) (before : Live β) (d : Files β) : Prop :=
  d.live.wal = none ∧ Saved env before d.work ∧ (Previous before d ∨ Aside env before d)

theorem Prepared.congr {d : Files β} (h : Prepared env before d) (db staged : Option (Pages β)) :
    Prepared env before (d.onWork fun w => { w with db := db, staged := staged }) := by
  obtain ⟨hgone, hsaved, hstate⟩ := h
  refine ⟨hgone, hsaved.congr rfl rfl rfl rfl, ?_⟩
  rcases hstate with hprevious | haside
  · exact Or.inl hprevious
  · exact Or.inr (haside.congr rfl rfl rfl)

/-- The two renames. -/
theorem swap_spec :
    Leaves (Ready env before restored) (swap : RestoreM β Unit)
      (fun _ => Replaced env before restored) (Safe env before restored) := by
  have hsafe : ∀ d, Prepared env before d → Safe env before restored d := by
    rintro d ⟨-, -, hprevious | haside⟩
    · exact Or.inl hprevious
    · exact Or.inr (Or.inl haside)
  have hreplaced : ∀ d, Replaced env before restored d → Safe env before restored d :=
    fun d hd => Or.inr (Or.inr hd)
  let I : Files β → Prop := fun d => Prepared env before d ∧ d.work.db = some restored
  have hready : ∀ d, Ready env before restored d → I d :=
    fun d ⟨_, hgone, hdb, hsaved, hstate⟩ => ⟨⟨hgone, hsaved, hstate⟩, hdb⟩
  apply Leaves.bind (Q := fun _ => I)
  · exact Leaves.mono (touch_spec (E := Safe env before restored) .syncRestored
      fun d hd => hsafe d hd.1) hready (fun _ _ hd => hd) fun _ hd => hd
  intro _
  apply Leaves.bind (Q := fun _ => I)
  · apply Leaves.write (fun d hd => hsafe d hd.1)
    intro d hd
    exact ⟨hd.1.congr d.work.db none, hd.2⟩
  intro _
  apply Leaves.bind
      (Q := fun _ d => Prepared env before d ∧ d.work.staged = some restored)
  · apply Leaves.op (fun d hd => hsafe d hd.1)
    intro d hd
    simp only [hd.2]
    exact ⟨hd.1.congr none (some restored), rfl⟩
  intro _
  apply Leaves.bind (Q := fun _ => Replaced env before restored)
  · apply Leaves.op (fun d hd => hsafe d hd.1)
    intro d hd
    simp only [hd.2]
    exact ⟨rfl, rfl, hd.1.1, hd.1.2.1.congr rfl rfl rfl rfl⟩
  intro _
  exact touch_spec .syncDataDir hreplaced

/-- Whatever fails and wherever the process is killed, the live path holds the previous
database or the restored one. -/
theorem replaceLive_spec (hb : before.swapped = false) :
    Leaves (Untouched before restored) (replaceLive env)
      (fun _ => Replaced env before restored) (Safe env before restored) := by
  have hsafe : ∀ d, Previous before d ∨ Aside env before d → Safe env before restored d := by
    rintro d (hprevious | haside)
    · exact Or.inl hprevious
    · exact Or.inr (Or.inl haside)
  exact Leaves.bind (Leaves.mono (savePrevious_spec hb) (fun _ hd => hd) (fun _ _ hd => hd) hsafe)
    fun _ => swap_spec

end Swap

section Runs

variable {β : Type}

/-- The live files and the work directory when the restored file is ready. -/
def start (main : Option (Pages β)) (wal : Option (List (Frame β))) (shm : Bool) (work : Work β)
    (restored : Pages β) : Files β where
  live := { main := main, wal := wal, shm := shm }
  work := { work with db := some restored }

/-- A restore that starts from `start`, with the fate of every operation. -/
def run (env : Env) (main : Option (Pages β)) (wal : Option (List (Frame β))) (shm : Bool)
    (work : Work β) (restored : Pages β) (budget : ℕ) (fates : List Fate) :
    Outcome RestoreError Unit × List Fate × Machine Operation (Files β) :=
  replaceLive env fates { disk := start main wal shm work restored, budget := budget }

end Runs

end Hippo.Restore
