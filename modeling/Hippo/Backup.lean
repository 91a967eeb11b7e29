import Hippo.Interruption
import Hippo.Retention
import Mathlib.Data.List.DropRight

/-!
# Backup runs

A run ships what waits in the outbox, writes a new artifact and its sidecar there, ships it to
the destination folder, records it in `manifest.json` and prunes what has expired. Every file
operation may fail, and the process may be killed between any two of them.
-/
namespace Hippo.Backup

open Hippo.Interruption

/-- `pagehashes.bin`: the Full that the next Delta is taken against. -/
structure PageHashes where
  baseId : String
  pageSize : ℕ

inductive RunMode where
  | scheduled
  | checkpoint (label : String)
deriving DecidableEq

inductive RunReport (η : Type) where
  | skipped (reason : String)
  | done (id : String) (sum : η) (kind : ArtifactKind) (shipped : Bool)
deriving DecidableEq

inductive ShipOutcome where
  | shipped
  | destinationUnavailable

/-- The files. Artifacts are named by their id, the sidecar of an artifact is
`<id>.entry.json`. `dest` is the destination folder with its `.partial` files (`none`: not
complete) and its `manifest.json`; `available` says whether the folder is there. `memory` is the
manifest that the run holds. `pruned` and `done` are history: the artifacts whose removal was
committed, and those that a run reported `Done`. -/
structure World (η : Type) where
  available : Bool
  dest : Table String η
  partials : Table String (Option η)
  manifest : Option (List (ManifestEntry η))
  artifacts : Table String η
  sidecars : Table String (ManifestEntry η)
  pagehashes : Option PageHashes
  lastScheduledMs : Option ℤ
  memory : Option (List (ManifestEntry η)) := none
  pruned : List (String × η) := []
  done : List (String × η) := []

inductive Operation where
  | readManifest
  | readDest
  | readOutbox
  | removeStale (id : String)
  | readSidecar (id : String)
  | statDestination
  | createPartial (id : String)
  | removePartial (id : String)
  | copyPartial (id : String)
  | syncPartial (id : String)
  | hashPartial (id : String)
  | renameToFinal (id : String)
  | hashFinal (id : String)
  | removeFinal (id : String)
  | removeOutboxFile (id : String)
  | createManifestTmp
  | writeManifestTmp
  | syncManifestTmp
  | renameManifest
  | removeSidecar (id : String)
  | createRunTmp
  | recoveryLock
  | snapshot
  | stageFallback
  | readPageHashes
  | computeHashes
  | writeDiff
  | writeArtifact
  | renameArtifact
  | writeSidecar
  | renameSidecar
  | writePageHashes
  | removePruned (id : String)
  | writeStatus
  | renameStatus
deriving DecidableEq

inductive BackupError where
  | io (operation : Operation)
  | holdsArtifacts (name : String)
  | destinationUnavailable (waiting : ℕ)
  | invalidRecipient
  | noUnusedId
  | deltaVerification
  | invalidOutboxEntry
  | differentContents (id : String)
  | stagedHashMismatch (id : String)
  | readBackHashMismatch (id : String)
  | alreadyExists
  | unsupported
  | notShipped (id : String)
deriving DecidableEq

/-- One run: its mode, the clock, and what it finds outside the modelled files. `sum` is the
SHA-256 of the artifact that it would write. -/
structure RunEnv (η : Type) where
  calendar : Calendar
  mode : RunMode
  nowMs : ℤ
  once : Bool
  sum : η
  pageSize : ℕ
  recipientOk : Bool
  recoveryHeld : Bool
  diffVerified : Bool
  uploaded : String → Bool
  exclusiveRename : Bool

abbrev BackupM (η α : Type) := Proc Operation (World η) BackupError α

def skipWithinMs : ℤ := 20 * 3600000

def artifactExt : String := ".tar.zst.age"

def ArtifactKind.asStr : ArtifactKind → String
  | .full => "full"
  | .delta => "delta"
  | .checkpoint => "checkpoint"

section Ids

/-- A letter or digit in lower case; anything else is a dash, never two in a row nor first. -/
def slugStep (slug : List Char) (c : Char) : List Char :=
  let lower := c.toLower
  if lower.isAlphanum then slug ++ [lower]
  else if slug = [] ∨ slug.getLast? = some '-' then slug else slug ++ ['-']

def slug (label : String) : List Char :=
  ((label.toList.foldl slugStep []).take 40).rdropWhile (· = '-')

/-- `hippo-{kind}-{timestamp}` plus `-{slug}` when labeled. -/
def artifactId (calendar : Calendar) (kind : ArtifactKind) (createdMs : ℤ)
    (label : Option String) : String :=
  let id := "hippo-" ++ kind.asStr ++ "-" ++ calendar.timestamp createdMs
  match label with
  | none => id
  | some label => if slug label = [] then id else id ++ "-" ++ String.ofList (slug label)

end Ids

variable {η : Type} [DecidableEq η]

/-- `file` must be the plain `<id>.tar.zst.age` name. -/
def validEntry (e : ManifestEntry η) : Bool :=
  "hippo-".toList.isPrefixOf e.id.toList && e.id.toList.all (fun c => c.isAlphanum || c = '-') &&
    e.file = e.id ++ artifactExt

/-- Ok for a checkpoint; fatal for a scheduled run. -/
def tolerate {α : Type} (checkpoint : Bool) (c : BackupM η α) : BackupM η (Option α) := do
  match (← c.attempt : Except BackupError α) with
  | .ok a => return some a
  | .error e => if checkpoint then return none else Proc.throw e

def touch (operation : Operation) : BackupM η Unit :=
  Proc.write operation (.io operation) id

def update (operation : Operation) (f : World η → World η) : BackupM η Unit :=
  Proc.write operation (.io operation) f

/-- The content of a file, which is its hash. -/
def read {α : Type} (operation : Operation) (find : World η → Option α) : BackupM η α :=
  Proc.fetch operation (.io operation) fun w => (find w).elim (.error (.io operation)) .ok

section Manifest

/-- Writes the manifest in memory to a temporary file and renames it over `manifest.json`. What
a prune removes from it is `gone`. -/
def saveManifest (gone : List (String × η)) : BackupM η Unit := do
  touch .createManifestTmp
  touch .writeManifestTmp
  touch .syncManifestTmp
  update .renameManifest fun w =>
    { w with manifest := some (w.memory.getD []), pruned := gone ++ w.pruned }

/-- Every artifact in a destination without a manifest must be ours. -/
def ensureOurs : List String → BackupM η Unit
  | [] => return ()
  | name :: names => do
    let ours ← Proc.look fun w => (w.sidecars.get? name).isSome
    Proc.ensure ours (.holdsArtifacts name)
    ensureOurs names

/-- The manifest, or `none` when the destination folder is unavailable. -/
def loadManifest : BackupM η Unit := do
  Proc.modify fun w => { w with memory := none }
  if (← Proc.look World.available) then do
    touch .readManifest
    let manifest ← Proc.look World.manifest
    match manifest with
    | some entries => Proc.modify fun w => { w with memory := some entries }
    | none => do
      touch .readDest
      let names ← Proc.look (·.dest.keys)
      ensureOurs names
      Proc.modify fun w => { w with memory := some [] }
  else return ()

end Manifest

section Shipping

/-- `final` exists: an identical copy means that an earlier run finished the copy but not the
outbox delete. -/
def settleExisting (id : String) (expected : η) : BackupM η ShipOutcome := do
  let actual ← read (.hashFinal id) (·.dest.get? id)
  Proc.ensure (actual = expected) (.differentContents id)
  update (.removeOutboxFile id) fun w => { w with artifacts := w.artifacts.erase id }
  return .shipped

def createPartial (id : String) : BackupM η Unit :=
  Proc.op (.createPartial id) (.io (.createPartial id)) fun w =>
    if (w.partials.get? id).isSome then (.error .alreadyExists, w)
    else (.ok (), { w with partials := w.partials.put id none })

def removePartial (id : String) : BackupM η Unit :=
  update (.removePartial id) fun w => { w with partials := w.partials.erase id }

/-- A `.partial` left by a killed run is replaced. -/
def openPartial (id : String) : BackupM η Unit := do
  match (← (createPartial id).attempt : Except BackupError Unit) with
  | .ok _ => return ()
  | .error e =>
    if e = .alreadyExists then do
      removePartial id
      createPartial id
    else Proc.throw e

/-- Copies the outbox file, syncs it and hashes what was written. -/
def copyPartial (id : String) : BackupM η η := do
  let content ← read (.copyPartial id) (·.artifacts.get? id)
  update (.copyPartial id) fun w => { w with partials := w.partials.put id (some content) }
  touch (.syncPartial id)
  read (.hashPartial id) fun w => (w.partials.get? id).bind fun content => content

def renameFile (id : String) (w : World η) : World η :=
  match (w.partials.get? id).bind fun content => content with
  | none => w
  | some content =>
    { w with
      dest := w.dest.put id content
      partials := w.partials.erase id }

/-- Renames without replacing an existing target, where the filesystem can. -/
def renameNoreplace (env : RunEnv η) (id : String) : BackupM η Unit :=
  Proc.op (.renameToFinal id) (.io (.renameToFinal id)) fun w =>
    if !env.exclusiveRename then (.error .unsupported, w)
    else if (w.dest.get? id).isSome then (.error .alreadyExists, w)
    else (.ok (), renameFile id w)

inductive Placement where
  | placed
  | exists
deriving DecidableEq

/-- Puts the staged copy into place unless the target is there. -/
def placePartial (env : RunEnv η) (id : String) : BackupM η Placement := do
  match (← (renameNoreplace env id).attempt : Except BackupError Unit) with
  | .ok _ => return .placed
  | .error e =>
    if e = .alreadyExists then do
      (removePartial id).ignore
      return .exists
    else if e = .unsupported then do
      if (← Proc.look fun w => (w.dest.get? id).isSome) then do
        (removePartial id).ignore
        return .exists
      else do
        match (← (update (.renameToFinal id) (renameFile id)).attempt : Except BackupError Unit) with
        | .ok _ => return .placed
        | .error e => do
          (removePartial id).ignore
          Proc.throw e
    else do
      (removePartial id).ignore
      Proc.throw e

/-- A failure of the copy: the destination is gone, or an error. -/
def copyFailed (e : BackupError) : BackupM η ShipOutcome := do
  if (← Proc.look fun w => !w.available) then return .destinationUnavailable
  else Proc.throw e

/-- Reads back what was renamed into place, then deletes the outbox file. -/
def finishShip (id : String) (expected : η) : BackupM η ShipOutcome := do
  match (← (read (.hashFinal id) (·.dest.get? id)).attempt : Except BackupError η) with
  | .error e => do
    (update (.removeFinal id) fun w => { w with dest := w.dest.erase id }).ignore
    Proc.throw e
  | .ok actual =>
    if actual = expected then do
      update (.removeOutboxFile id) fun w => { w with artifacts := w.artifacts.erase id }
      return .shipped
    else do
      (update (.removeFinal id) fun w => { w with dest := w.dest.erase id }).ignore
      Proc.throw (.readBackHashMismatch id)

/-- The staged copy was hashed. -/
def shipStaged (env : RunEnv η) (id : String) (expected staged : η) : BackupM η ShipOutcome := do
  if staged = expected then do
    match (← placePartial env id) with
    | .exists => settleExisting id expected
    | .placed => finishShip id expected
  else do
    (removePartial id).ignore
    Proc.throw (.stagedHashMismatch id)

def shipCopy (env : RunEnv η) (id : String) (expected : η) : BackupM η ShipOutcome := do
  match (← (openPartial id).attempt : Except BackupError Unit) with
  | .error e => copyFailed e
  | .ok _ => do
    match (← (copyPartial id).attempt : Except BackupError η) with
    | .error e => do
      (removePartial id).ignore
      copyFailed e
    | .ok staged => shipStaged env id expected staged

/-- Copies the outbox file to a `.partial`, checks it, renames it without replacing, reads it
back, then deletes the outbox file. -/
def ship (env : RunEnv η) (id : String) (expected : η) : BackupM η ShipOutcome := do
  touch .statDestination
  if (← Proc.look World.available) then do
    if (← Proc.look fun w => (w.dest.get? id).isSome) then settleExisting id expected
    else shipCopy env id expected
  else return .destinationUnavailable

/-- Records a shipped artifact in the manifest and drops its sidecar. -/
def recordEntry (env : RunEnv η) (name : String) (entry : ManifestEntry η) : BackupM η Bool := do
  let listed ← Proc.look fun w => (w.memory.getD []).any fun e => e.id = entry.id
  if listed then do
    update (.removeSidecar name) fun w => { w with sidecars := w.sidecars.erase name }
    return true
  else do
    Proc.modify fun w =>
      { w with
        memory := w.memory.map fun entries =>
          entries ++ [{ entry with
            shippedMs := some env.nowMs
            uploaded := env.uploaded entry.id }] }
    saveManifest []
    update (.removeSidecar name) fun w => { w with sidecars := w.sidecars.erase name }
    return true

/-- The artifact of the sidecar is gone. -/
def dropEntry (name : String) : BackupM η Bool := do
  update (.removeSidecar name) fun w => { w with sidecars := w.sidecars.erase name }
  return true

/-- The artifact left the outbox: a crash after `ship` but before the manifest save. -/
def recoverEntry (env : RunEnv η) (name : String) (entry : ManifestEntry η) :
    BackupM η Bool := do
  if (← Proc.look fun w => (w.dest.get? entry.id).isSome) then do
    let actual ← read (.hashFinal entry.id) (·.dest.get? entry.id)
    if actual = entry.ciphertextSha256 then recordEntry env name entry else dropEntry name
  else dropEntry name

/-- Ships one outbox artifact and records its manifest entry. `false`: the destination is
unavailable. -/
def shipPending (env : RunEnv η) (name : String) : BackupM η Bool := do
  let entry ← read (.readSidecar name) (·.sidecars.get? name)
  Proc.ensure (validEntry entry) .invalidOutboxEntry
  if (← Proc.look fun w => (w.artifacts.get? entry.id).isSome) then do
    match (← ship env entry.id entry.ciphertextSha256) with
    | .shipped => recordEntry env name entry
    | .destinationUnavailable => return false
  else do
    if (← Proc.look World.available) then recoverEntry env name entry
    else return false

end Shipping

section Outbox

/-- Artifacts without a sidecar are left from a crashed run. -/
def removeStale : List String → BackupM η Unit
  | [] => return ()
  | name :: names => do
    if (← Proc.look fun w => (w.sidecars.get? name).isSome) then removeStale names
    else do
      (update (.removeStale name) fun w => { w with artifacts := w.artifacts.erase name }).ignore
      removeStale names

/-- Sidecars in the outbox, sorted. -/
def pendingEntries : BackupM η (List String) := do
  touch .readOutbox
  Proc.look fun w => w.sidecars.keys.insertionSort (· ≤ ·)

/-- Ships each; a failed one stays in the outbox. Returns how many wait. -/
def shipEach (env : RunEnv η) : List String → BackupM η ℕ
  | [] => return 0
  | name :: names => do
    match (← (shipPending env name).attempt : Except BackupError Bool) with
    | .ok true => shipEach env names
    | .ok false => do
      let waiting ← shipEach env names
      return waiting + 1
    | .error _ => shipEach env names

/-- Ships every pending outbox artifact. -/
def shipOutbox (env : RunEnv η) : BackupM η ℕ := do
  touch .readOutbox
  let names ← Proc.look (·.artifacts.keys)
  removeStale names
  let pending ← pendingEntries
  shipEach env pending

def refreshEntry (env : RunEnv η) (e : ManifestEntry η) : ManifestEntry η :=
  if !e.uploaded && validEntry e && env.uploaded e.id then { e with uploaded := true } else e

/-- Entries that were uploaded meanwhile are marked. -/
def refreshUploaded (env : RunEnv η) : BackupM η Unit := do
  let entries ← Proc.look fun w => w.memory.getD []
  if entries.map (refreshEntry env) = entries then return ()
  else do
    Proc.modify fun w => { w with memory := some (entries.map (refreshEntry env)) }
    saveManifest []

/-- Whether a readable sidecar meets `p`. -/
def anyInOutbox (p : ManifestEntry η → Bool) : List String → BackupM η Bool
  | [] => return false
  | name :: names => do
    match (← (read (.readSidecar name) (·.sidecars.get? name)).attempt :
        Except BackupError (ManifestEntry η)) with
    | .ok e => if p e then return true else anyInOutbox p names
    | .error _ => anyInOutbox p names

/-- A verified checkpoint with this label, in the manifest or in the outbox. -/
def hasCheckpoint (label : String) : BackupM η Bool := do
  let has := fun e : ManifestEntry η => e.verified && e.label = some label
  let inManifest ← Proc.look fun w => (w.memory.getD []).any has
  let pending ← pendingEntries
  let inOutbox ← anyInOutbox has pending
  return inManifest || inOutbox

end Outbox

section Run

/-- Page hashes to diff against, or `none` when this run must be a Full. -/
def deltaBase (env : RunEnv η) (hashes : Option PageHashes) (entries : List (ManifestEntry η)) :
    Option PageHashes := do
  let base ← hashes
  let entry ← entries.find? fun e =>
    e.verified && e.kind = .full && e.id = base.baseId && validEntry e
  let entryWeek ← env.calendar.isoWeek entry.createdMs
  let week ← env.calendar.isoWeek env.nowMs
  if base.pageSize = env.pageSize ∧ entryWeek = week then some base else none

def chooseKind (mode : RunMode) (base : Option PageHashes) : ArtifactKind :=
  match mode, base with
  | .checkpoint _, _ => .checkpoint
  | .scheduled, some _ => .delta
  | .scheduled, none => .full

def RunMode.label : RunMode → Option String
  | .scheduled => none
  | .checkpoint label => some label

def RunMode.isCheckpoint : RunMode → Bool
  | .scheduled => false
  | .checkpoint _ => true

/-- The id is used in the manifest, in the outbox or in the destination. -/
def World.taken (w : World η) (id : String) : Bool :=
  (w.memory.getD []).any (fun e => e.id = id) || (w.artifacts.get? id).isSome ||
    (w.sidecars.get? id).isSome || (w.available && (w.dest.get? id).isSome)

/-- The first unused id of ten, one for each second. -/
def unusedId (env : RunEnv η) (kind : ArtifactKind) (w : World η) : Option (ℤ × String) :=
  ((List.range 10).map fun i : ℕ =>
    (env.nowMs + i * 1000,
      artifactId env.calendar kind (env.nowMs + i * 1000) env.mode.label)).find?
        fun candidate => !w.taken candidate.2

/-- Writes the artifact into the outbox under a name that no file has. -/
def writeArtifact (id : String) (sum : η) : BackupM η Unit := do
  touch .writeArtifact
  Proc.op .renameArtifact (.io .renameArtifact) fun w =>
    if (w.artifacts.get? id).isSome then (.error .alreadyExists, w)
    else (.ok (), { w with artifacts := w.artifacts.put id sum })

def removeArtifact (id : String) : BackupM η Unit :=
  update (.removeStale id) fun w => { w with artifacts := w.artifacts.erase id }

def writeSidecar (entry : ManifestEntry η) : BackupM η Unit := do
  touch .writeSidecar
  Proc.op .renameSidecar (.io .renameSidecar) fun w =>
    if (w.sidecars.get? entry.id).isSome then (.error .alreadyExists, w)
    else (.ok (), { w with sidecars := w.sidecars.put entry.id entry })

/-- The expired entries go from the manifest, which is saved before their files are deleted. -/
def removePruned : List (ManifestEntry η) → BackupM η Unit
  | [] => return ()
  | e :: gone => do
    (update (.removePruned e.id) fun w => { w with dest := w.dest.erase e.id }).ignore
    removePruned gone

def isDoomed (doomed : List String) (e : ManifestEntry η) : Bool :=
  validEntry e && doomed.contains e.id

def prune (env : RunEnv η) : BackupM η Unit := do
  let entries ← Proc.look fun w => w.memory.getD []
  let doomed := planPrune env.calendar (entries.filter validEntry) env.nowMs
  if doomed = [] then return ()
  else do
    let gone := entries.filter (isDoomed doomed)
    Proc.modify fun w => { w with memory := some (entries.filter fun e => !isDoomed doomed e) }
    match (← (saveManifest (gone.map fun e => (e.id, e.ciphertextSha256))).attempt :
        Except BackupError Unit) with
    | .error _ => return ()
    | .ok _ => removePruned gone

/-- Ships the artifact that the run has just written. A scheduled run removes it again when the
shipping fails and it is still in the outbox. -/
def shipOwn (env : RunEnv η) (id : String) : BackupM η Bool := do
  if (← Proc.look fun w => w.memory.isSome) then do
    match (← (shipPending env id).attempt : Except BackupError Bool) with
    | .ok shipped => return shipped
    | .error e => do
      let remains ← Proc.look fun w => (w.artifacts.get? id).isSome
      if !env.mode.isCheckpoint && remains then do
        (update (.removeSidecar id) fun w => { w with sidecars := w.sidecars.erase id }).ignore
        (removeArtifact id).ignore
        Proc.throw e
      else if env.mode.isCheckpoint then return false
      else Proc.throw e
  else return false

/-- After the artifact was shipped, or not. -/
def finishRun (env : RunEnv η) (id : String) (kind : ArtifactKind) (shipped : Bool) :
    BackupM η (RunReport η) := do
  if shipped then do
    if kind = .full then
      update .writePageHashes fun w =>
        { w with pagehashes := some { baseId := id, pageSize := env.pageSize } }
    else pure ()
    prune env
    return .done id env.sum kind true
  else do
    Proc.ensure env.mode.isCheckpoint (.notShipped id)
    return .done id env.sum kind false

/-- Writes the new artifact and its sidecar, and ships it. -/
def createAndShip (env : RunEnv η) (entry : ManifestEntry η) : BackupM η (RunReport η) := do
  writeArtifact entry.id env.sum
  match (← (writeSidecar entry).attempt : Except BackupError Unit) with
  | .error e => do
    (removeArtifact entry.id).ignore
    Proc.throw e
  | .ok _ => do
    let shipped ← shipOwn env entry.id
    finishRun env entry.id entry.kind shipped

def newEntry (env : RunEnv η) (kind : ArtifactKind) (base : Option PageHashes)
    (created : ℤ × String) : ManifestEntry η where
  id := created.2
  kind := kind
  label := env.mode.label
  createdMs := created.1
  baseId := base.map PageHashes.baseId
  file := created.2 ++ artifactExt
  ciphertextSha256 := env.sum
  verified := true
  shippedMs := none
  uploaded := false

/-- The Full to diff against; a checkpoint has none. -/
def chooseBase (env : RunEnv η) : BackupM η (Option PageHashes) := do
  let entries ← Proc.look World.memory
  match env.mode, entries with
  | .scheduled, some entries => do
    match (← (read .readPageHashes World.pagehashes).attempt : Except BackupError PageHashes) with
    | .ok hashes => return deltaBase env (some hashes) entries
    | .error _ => return none
  | _, _ => return none

/-- Takes the snapshot and builds the artifact. -/
def buildArtifact (env : RunEnv η) : BackupM η (RunReport η) := do
  touch .snapshot
  touch .stageFallback
  let base ← chooseBase env
  let kind := chooseKind env.mode base
  let unused ← Proc.look (unusedId env kind)
  match unused with
  | none => Proc.throw .noUnusedId
  | some created => do
    if kind = .checkpoint then pure () else touch .computeHashes
    if kind = .delta then do
      touch .writeDiff
      Proc.ensure env.diffVerified .deltaVerification
    else pure ()
    createAndShip env (newEntry env kind base created)

/-- Opens the run's scratch directory and holds off fallback recovery. -/
def snapshotAndShip (env : RunEnv η) : BackupM η (RunReport η) := do
  Proc.ensure env.recipientOk .invalidRecipient
  touch .createRunTmp
  touch .recoveryLock
  if !env.mode.isCheckpoint && env.recoveryHeld then
    return .skipped "fallback recovery holds the lock"
  else buildArtifact env

/-- Whether this run makes an artifact at all. -/
def gateRun (env : RunEnv η) (waiting : ℕ) : BackupM η (RunReport η) := do
  match env.mode with
  | .scheduled => do
    Proc.ensure (waiting = 0) (.destinationUnavailable waiting)
    let last ← Proc.look World.lastScheduledMs
    if last.any fun t => env.nowMs - t < skipWithinMs then
      return .skipped "a scheduled backup succeeded within the last 20 hours"
    else snapshotAndShip env
  | .checkpoint label => do
    let skip ← if env.once then hasCheckpoint label else pure false
    if skip then
      return .skipped ("a verified checkpoint labeled " ++ label ++ " already exists")
    else snapshotAndShip env

/-- Ships what waits, if the destination is there. Returns how many artifacts still wait. -/
def shipWaiting (env : RunEnv η) : BackupM η ℕ := do
  if (← Proc.look fun w => w.memory.isSome) then do
    let waiting ← shipOutbox env
    let _ ← tolerate env.mode.isCheckpoint (refreshUploaded env)
    return waiting
  else do
    let pending ← pendingEntries
    return pending.length

def runLocked (env : RunEnv η) : BackupM η (RunReport η) := do
  let _ ← tolerate env.mode.isCheckpoint loadManifest
  let waiting ← shipWaiting env
  gateRun env waiting

/-- The status that a report leaves: when a scheduled backup was last shipped. -/
def RunReport.status (nowMs : ℤ) (last : Option ℤ) : RunReport η → Option ℤ
  | .skipped _ => last
  | .done _ _ kind shipped => if shipped && kind ≠ .checkpoint then some nowMs else last

def saveStatus (last : Option ℤ) : BackupM η Unit := do
  touch .writeStatus
  update .renameStatus fun w => { w with lastScheduledMs := last }

/-- A run under the run lock. The status is saved whatever became of it. -/
def runHoldingLock (env : RunEnv η) : BackupM η (RunReport η) := do
  let last ← Proc.look World.lastScheduledMs
  match (← (runLocked env).attempt : Except BackupError (RunReport η)) with
  | .error e => do
    (saveStatus last).ignore
    Proc.throw e
  | .ok report => do
    saveStatus (report.status env.nowMs last)
    return report

end Run

section Steps

/-- What may happen: a run with the fate of each of its operations, and the destination folder
appearing or disappearing between runs. -/
inductive Action (η : Type) where
  | run (env : RunEnv η) (budget : ℕ) (fates : List Fate)
  | setAvailable (available : Bool)

/-- A run ends, by itself or killed: its memory is gone, and what it reported is known. -/
def World.endRun (w : World η) : Outcome BackupError (RunReport η) → World η
  | .ok (.done id sum _ _) => { w with memory := none, done := (id, sum) :: w.done }
  | .ok (.skipped _) => { w with memory := none }
  | .error _ => { w with memory := none }
  | .killed => { w with memory := none }

def runFrom (w : World η) (env : RunEnv η) (budget : ℕ) (fates : List Fate) :
    Outcome BackupError (RunReport η) × List Fate × Machine Operation (World η) :=
  runHoldingLock env fates { disk := w, budget := budget }

def step (w : World η) : Action η → Option (World η)
  | .run env budget fates =>
    let after := runFrom w env budget fates
    some (after.2.2.disk.endRun after.1)
  | .setAvailable available => some { w with available := available }

/-- Before the first run. -/
def World.fresh : World η where
  available := true
  dest := Table.empty
  partials := Table.empty
  manifest := none
  artifacts := Table.empty
  sidecars := Table.empty
  pagehashes := none
  lastScheduledMs := none

end Steps

end Hippo.Backup
