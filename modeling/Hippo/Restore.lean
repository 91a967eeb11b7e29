import Hippo.Interruption
import Hippo.PagedFile

/-!
# Replacing the live database by a restored backup

A healthy database is saved by a checkpoint or a snapshot and its WAL folded into it; a
damaged one is copied byte for byte, and its WAL moved aside when it cannot be folded; a WAL
without a database is moved aside. Then two renames put the restored file in place.
-/
namespace Hippo.Restore

open Hippo.Interruption Hippo.PagedFile

/-- A file that is being written is not a copy yet. -/
inductive Copy (α : Type) where
  | absent
  | started
  | whole (a : α)
deriving DecidableEq

/-- `hippo.db` with its `-wal` and `-shm`. The WAL is the committed frames that a connection
applies. `swapped` records that the restored file was renamed over `hippo.db`. -/
structure Live (β : Type) where
  main : Option (Pages β)
  wal : Option (List (Frame β))
  shm : Bool
  swapped : Bool := false

/-- `pre-restore-<ts>/`. -/
structure RawCopy (β : Type) where
  main : Copy (Pages β) := .absent
  wal : Copy (List (Frame β)) := .absent
  shm : Copy Unit := .absent

/-- The restored file and the work directory. -/
structure Work (β : Type) where
  db : Option (Pages β)
  staged : Option (Pages β) := none
  rawCopy : Option (RawCopy β) := none
  asideWal : Option (List (Frame β)) := none
  asideShm : Bool := false
  snapshot : Copy (Pages β) := .absent
  artifact : Option (Pages β) := none

structure Files (β : Type) where
  live : Live β
  work : Work β

inductive Operation where
  | findOpeners
  | createRawCopy
  | createCopy (suffix : String)
  | copy (suffix : String)
  | syncCopy (suffix : String)
  | syncRawCopy
  | openLive
  | writePage (page : ℕ)
  | removeSharedMemory
  | deleteWal
  | writeHeader
  | closeLive
  | moveAside (suffix : String)
  | openSource
  | createSnapshot
  | backupStep
  | checkSnapshot
  | checkpoint
  | syncRestored
  | removeStaged
  | moveToStaged
  | renameOverLive
  | syncDataDir
deriving DecidableEq

/-- Why a restore stopped. -/
inductive RestoreError where
  | io (operation : Operation)
  | openByProcess (pids : List ℕ)
  | openByConnection
  | journalModeStayed
  | walStillExists
  | alreadyExists (suffix : String)
  | quickCheckFailed
  | checkpointDidNotRun
deriving DecidableEq

/-- How `PRAGMA journal_mode=DELETE` finds the other connections. -/
inductive Contention where
  | none
  | busy
  | stays
deriving DecidableEq

/-- What a pre-restore checkpoint reports when it returns. -/
inductive RunReport where
  | done
  | skipped
  | notConfigured
deriving DecidableEq

/-- What the run is given, and what the rest of the system answers. `none` openers: `lsof` is
not there. `dropFolds`: a connection that is dropped gets to fold the WAL. -/
structure Env where
  damaged : Bool
  configured : Bool
  openers : Option (List ℕ)
  openersAgain : Option (List ℕ)
  contention : Contention
  dropFolds : Bool
  snapshotSound : Bool
  report : RunReport

abbrev RestoreM (β α : Type) := Proc Operation (Files β) RestoreError α

section Model

variable {β : Type}

namespace Files

def onLive (d : Files β) (f : Live β → Live β) : Files β := { d with live := f d.live }

def onWork (d : Files β) (f : Work β → Work β) : Files β := { d with work := f d.work }

@[simp] theorem onLive_live (d : Files β) (f : Live β → Live β) :
    (d.onLive f).live = f d.live := rfl

@[simp] theorem onLive_work (d : Files β) (f : Live β → Live β) :
    (d.onLive f).work = d.work := rfl

@[simp] theorem onWork_live (d : Files β) (f : Work β → Work β) :
    (d.onWork f).live = d.live := rfl

@[simp] theorem onWork_work (d : Files β) (f : Work β → Work β) :
    (d.onWork f).work = f d.work := rfl

end Files

namespace RawCopy

def putMain (copy : RawCopy β) (main : Copy (Pages β)) : RawCopy β := { copy with main := main }

def putWal (copy : RawCopy β) (wal : Copy (List (Frame β))) : RawCopy β :=
  { copy with wal := wal }

def putShm (copy : RawCopy β) (shm : Copy Unit) : RawCopy β := { copy with shm := shm }

end RawCopy

namespace Live

/-- What a reader of the live database sees. -/
def view (l : Live β) : Option (Pages β) := l.main.map (overlay (l.wal.getD []))

/-- The page as the reader sees it, written to the main file. -/
def writePage (page : ℕ) (l : Live β) : Live β :=
  { l with main := l.main.map fun file => write file (page, overlay (l.wal.getD []) file page) }

def deleteWal (l : Live β) : Live β := { l with wal := none }

def removeSharedMemory (l : Live β) : Live β := { l with shm := false }

end Live

/-- An operation that only reads or syncs. -/
def touch (operation : Operation) : RestoreM β Unit :=
  Proc.write operation (.io operation) id

def onLive (operation : Operation) (f : Live β → Live β) : RestoreM β Unit :=
  Proc.write operation (.io operation) (Files.onLive · f)

def onWork (operation : Operation) (f : Work β → Work β) : RestoreM β Unit :=
  Proc.write operation (.io operation) (Files.onWork · f)

/-- Refuses while another process has the live database files open. -/
def refuseIfOpen (openers : Option (List ℕ)) : RestoreM β Unit := do
  touch .findOpeners
  match openers with
  | some [] => return ()
  | some pids => Proc.throw (.openByProcess pids)
  | none => return ()

/-- One file of the raw copy, if it exists: created, copied, synced. The directory is new, so
the target is not there. -/
def copyFile {α : Type} (suffix : String) (file : Live β → Option α)
    (put : RawCopy β → Copy α → RawCopy β) : RestoreM β Unit := do
  match (← Proc.look fun d => file d.live) with
  | none => return ()
  | some a => do
    onWork (.createCopy suffix) fun w => { w with rawCopy := w.rawCopy.map (put · .started) }
    onWork (.copy suffix) fun w => { w with rawCopy := w.rawCopy.map (put · (.whole a)) }
    touch (.syncCopy suffix)

/-- Copies `hippo.db`, its `-wal` and its `-shm` (whichever exist) into a new directory. -/
def rawCopy : RestoreM β Unit := do
  Proc.op .createRawCopy (.io .createRawCopy) fun d =>
    match d.work.rawCopy with
    | some _ => (.error (.io .createRawCopy), d)
    | none => (.ok (), d.onWork fun w => { w with rawCopy := some {} })
  copyFile "" Live.main RawCopy.putMain
  copyFile "-wal" Live.wal RawCopy.putWal
  copyFile "-shm" (fun l => if l.shm then some () else none) RawCopy.putShm
  touch .syncRawCopy

/-- Moves the `-wal` into the work directory. -/
def moveWalAside : RestoreM β Unit := do
  if (← Proc.look (·.live.wal.isSome)) then do
    let taken ← Proc.look (·.work.asideWal.isSome)
    Proc.ensure (!taken) (.alreadyExists "-wal")
    Proc.write (.moveAside "-wal") (.io (.moveAside "-wal")) fun d =>
      { live := { d.live with wal := none }, work := { d.work with asideWal := d.live.wal } }
  else return ()

/-- Moves the `-shm` into the work directory. -/
def moveShmAside : RestoreM β Unit := do
  if (← Proc.look (·.live.shm)) then do
    let taken ← Proc.look (·.work.asideShm)
    Proc.ensure (!taken) (.alreadyExists "-shm")
    Proc.write (.moveAside "-shm") (.io (.moveAside "-shm")) fun d =>
      { live := { d.live with shm := false }, work := { d.work with asideShm := true } }
  else return ()

/-- Moves the `-wal` and `-shm` (whichever exist) into the work directory. Never replaces a
file. -/
def moveSidecarsAside : RestoreM β Unit := do
  moveWalAside
  moveShmAside

/-- The checkpoint: the pages of the log are written to the file one by one. -/
def writePages : List ℕ → RestoreM β Unit
  | [] => pure ()
  | page :: pages => do
    onLive (.writePage page) (Live.writePage page)
    writePages pages

/-- SQLite checkpoints the log and deletes it. It does not report that the delete failed. -/
def checkpointWal : RestoreM β Unit := do
  let frames ← Proc.look fun d => d.live.wal.getD []
  writePages (frames.map Prod.fst)
  (onLive .removeSharedMemory Live.removeSharedMemory).ignore
  (onLive .deleteWal Live.deleteWal).ignore

/-- The last connection folds the log when it is dropped, if it can. -/
def dropConnection (env : Env) : RestoreM β Unit :=
  if env.dropFolds then checkpointWal.ignore else pure ()

def removeIfPresent (operation : Operation) (f : Files β → Files β) : RestoreM β Unit :=
  Proc.write operation (.io operation) f

/-- `PRAGMA journal_mode=DELETE` while no other connection is open. -/
def journalModeDelete : RestoreM β Unit := do
  checkpointWal
  touch .writeHeader

/-- Closes the connection and checks that the log is gone. -/
def closeFolded : RestoreM β Unit := do
  touch .closeLive
  let remains ← Proc.look (·.live.wal.isSome)
  Proc.ensure (!remains) .walStillExists
  removeIfPresent .removeSharedMemory (Files.onLive · Live.removeSharedMemory)

/-- Checkpoints the live WAL into the main file and deletes it. An error means that another
connection has the database open; a result that is an error means that the fold failed. -/
def foldLiveWal (env : Env) : RestoreM β (Except RestoreError Unit) := do
  match (← (touch .openLive).attempt : Except RestoreError Unit) with
  | .error e => return .error e
  | .ok _ =>
    match env.contention with
    | .busy => do
      dropConnection env
      Proc.throw .openByConnection
    | .stays => do
      dropConnection env
      Proc.throw .journalModeStayed
    | .none => do
      match (← journalModeDelete.attempt : Except RestoreError Unit) with
      | .error e => do
        dropConnection env
        return .error e
      | .ok _ => closeFolded.attempt

/-- A copy of the live database by the online backup API. -/
def takeSnapshot (env : Env) : RestoreM β Unit := do
  touch .openSource
  onWork .createSnapshot fun w => { w with snapshot := .started }
  Proc.write .backupStep (.io .backupStep) fun d =>
    match d.live.view with
    | some view => d.onWork fun w => { w with snapshot := .whole view }
    | none => d
  touch .checkSnapshot
  Proc.ensure env.snapshotSound .quickCheckFailed

/-- A checkpoint run that returned. When it is done, its artifact holds a snapshot of the live
database. -/
def checkpointHoldingLock (env : Env) : RestoreM β RunReport := do
  Proc.write .checkpoint (.io .checkpoint) fun d =>
    if env.report = .done then d.onWork fun w => { w with artifact := d.live.view } else d
  return env.report

/-- Saves the live database before it is replaced. -/
def saveCurrent (env : Env) : RestoreM β Unit := do
  if env.configured then
    match (← checkpointHoldingLock env) with
    | .done => return ()
    | .skipped => Proc.throw .checkpointDidNotRun
    | .notConfigured => Proc.throw .checkpointDidNotRun
  else
    takeSnapshot env

/-- Saves the live database, folds its WAL or moves it aside. -/
def savePrevious (env : Env) : RestoreM β Unit := do
  if (← Proc.look (·.live.main.isSome)) then
    if env.damaged then
      refuseIfOpen env.openers
      rawCopy
      match (← foldLiveWal env) with
      | .error _ => moveSidecarsAside
      | .ok () => return ()
    else
      refuseIfOpen env.openers
      saveCurrent env
      refuseIfOpen env.openersAgain
      match (← foldLiveWal env) with
      | .error e => Proc.throw e
      | .ok () => return ()
  else
    moveSidecarsAside

/-- Syncs the restored file and renames it over the live database. -/
def swap : RestoreM β Unit := do
  touch .syncRestored
  removeIfPresent .removeStaged (Files.onWork · fun w => { w with staged := none })
  Proc.op .moveToStaged (.io .moveToStaged) fun d =>
    match d.work.db with
    | none => (.error (.io .moveToStaged), d)
    | some file => (.ok (), d.onWork fun w => { w with db := none, staged := some file })
  Proc.op .renameOverLive (.io .renameOverLive) fun d =>
    match d.work.staged with
    | none => (.error (.io .renameOverLive), d)
    | some file =>
      (.ok (), { live := { d.live with main := some file, swapped := true }
                 work := { d.work with staged := none } })
  touch .syncDataDir

/-- Saves the live database, folds its WAL into it, then renames the restored file over it. -/
def replaceLive (env : Env) : RestoreM β Unit := do
  savePrevious env
  swap

end Model

end Hippo.Restore
