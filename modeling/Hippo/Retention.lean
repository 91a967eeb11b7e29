import Hippo.Table

/-!
# The retention planner

Deltas and checkpoints are kept for a number of days. A Full is also kept when it is the
first of its month, the newest uploaded one, or the base of a Delta that is kept.
-/
namespace Hippo.Backup

inductive ArtifactKind where
  | full
  | delta
  | checkpoint
deriving DecidableEq

/-- The record of one artifact. The artifact is `<id>.tar.zst.age`, and its content is its
SHA-256. -/
structure ManifestEntry (η : Type) where
  id : String
  kind : ArtifactKind
  label : Option String
  createdMs : ℤ
  baseId : Option String
  file : String
  ciphertextSha256 : η
  verified : Bool
  shippedMs : Option ℤ
  uploaded : Bool
deriving DecidableEq

/-- The calendar: the month and the ISO week of a time in milliseconds (`none` where the time
has none), and the time stamp of an artifact id. -/
structure Calendar where
  month : ℤ → Option (ℤ × ℕ)
  isoWeek : ℤ → Option (ℤ × ℕ)
  timestamp : ℤ → String

def dayMs : ℤ := 86400000

def deltaKeepDays : ℤ := 90

def fullKeepDays : ℤ := 365

def checkpointKeepDays : ℤ := 365

section Planner

variable {η : Type} [DecidableEq η] (calendar : Calendar) (entries : List (ManifestEntry η))
  (nowMs : ℤ)

def within (e : ManifestEntry η) (days : ℤ) : Bool := nowMs - e.createdMs ≤ days * dayMs

/-- The verified Fulls, in the order of the manifest. -/
def verifiedFulls : List (ManifestEntry η) :=
  entries.filter fun e => e.verified && e.kind = .full

/-- The earlier of two; the first one where they are equal. -/
def earlier (slot : Option (ManifestEntry η)) (e : ManifestEntry η) : Option (ManifestEntry η) :=
  match slot with
  | none => some e
  | some first => if e.createdMs < first.createdMs then some e else some first

/-- The earliest verified Full of a month. -/
def firstOfMonth (month : ℤ × ℕ) : Option (ManifestEntry η) :=
  ((verifiedFulls entries).filter fun e => calendar.month e.createdMs = some month).foldl
    earlier none

/-- The later of two; the last one where they are equal. -/
def later (slot : Option (ManifestEntry η)) (e : ManifestEntry η) : Option (ManifestEntry η) :=
  match slot with
  | none => some e
  | some last => if last.createdMs ≤ e.createdMs then some e else some last

def newestUploadedFull : Option String :=
  (((verifiedFulls entries).filter fun e => e.uploaded).foldl later none).map ManifestEntry.id

/-- The bases of the verified Deltas that are kept. -/
def keptDeltaBases : List String :=
  (entries.filter fun e => e.verified && e.kind = .delta && within nowMs e deltaKeepDays).filterMap
    ManifestEntry.baseId

def isFirstOfMonth (e : ManifestEntry η) : Bool :=
  match calendar.month e.createdMs with
  | none => true
  | some month => firstOfMonth calendar entries month = some e

def keep (e : ManifestEntry η) : Bool :=
  match e.kind with
  | .delta => within nowMs e deltaKeepDays
  | .checkpoint => within nowMs e checkpointKeepDays
  | .full =>
    within nowMs e fullKeepDays || isFirstOfMonth calendar entries e ||
      newestUploadedFull entries = some e.id || (keptDeltaBases entries nowMs).contains e.id

/-- The ids to delete. Only verified entries are considered. -/
def planPrune : List String :=
  ((entries.filter fun e => e.verified && !keep calendar entries nowMs e).map
    ManifestEntry.id).insertionSort (· ≤ ·)

variable {calendar entries nowMs}

theorem mem_planPrune {id : String} :
    id ∈ planPrune calendar entries nowMs ↔
      ∃ e ∈ entries, e.id = id ∧ e.verified ∧ keep calendar entries nowMs e = false := by
  simp only [planPrune, List.mem_insertionSort, List.mem_map, List.mem_filter, Bool.and_eq_true,
    Bool.not_eq_true']
  constructor
  · rintro ⟨e, ⟨he, hverified, hkeep⟩, hid⟩
    exact ⟨e, he, hid, hverified, hkeep⟩
  · rintro ⟨e, he, hid, hverified, hkeep⟩
    exact ⟨e, ⟨he, hverified, hkeep⟩, hid⟩

/-- The base of a verified Delta that is kept is kept. -/
theorem base_notMem_planPrune {delta base : ManifestEntry η}
    (hnodup : (entries.map ManifestEntry.id).Nodup) (hdelta : delta ∈ entries)
    (hverified : delta.verified = true) (hkind : delta.kind = .delta)
    (hkept : delta.id ∉ planPrune calendar entries nowMs) (hbase : base ∈ entries)
    (hfull : base.kind = .full) (hid : delta.baseId = some base.id) :
    base.id ∉ planPrune calendar entries nowMs := by
  have hwithin : within nowMs delta deltaKeepDays = true := by
    have hkeep : keep calendar entries nowMs delta = true := by
      by_contra hdoomed
      apply hkept
      rw [mem_planPrune]
      exact ⟨delta, hdelta, rfl, hverified, by simpa using hdoomed⟩
    simpa [keep, hkind] using hkeep
  have hprotected : base.id ∈ keptDeltaBases entries nowMs := by
    simp only [keptDeltaBases, List.mem_filterMap, List.mem_filter]
    exact ⟨delta, ⟨hdelta, by simp [hverified, hkind, hwithin]⟩, hid⟩
  rw [mem_planPrune]
  rintro ⟨e, he, hsame, -, hdoomed⟩
  have heq : e = base := List.inj_on_of_nodup_map hnodup he hbase hsame
  subst heq
  simp [keep, hfull, hprotected] at hdoomed

end Planner

end Hippo.Backup
