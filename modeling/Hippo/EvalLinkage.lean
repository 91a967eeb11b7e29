import Hippo.KnowledgeStore

/-!
# The commit that changed a reviewed line

`find_change` of `eval_linkage.py`. The commits that descend from the reviewed one and touch the
file are walked in order, up to the first whose file no longer has the flagged line although a
parent of it had the line. A line that the walk never meets is attributed to the first commit that
touches the file, and the verdict says that this is inferred.
-/
namespace Hippo.EvalLinkage

section Git

/-- What a call of git can raise. -/
inductive GitError where
  /-- `ObjectUnavailable`: the path is there, but its object is not stored locally. -/
  | unavailable (rev path : String)
  /-- `OSError` or another `SubprocessError`, by its type. -/
  | failed (exception : String)
  deriving DecidableEq

abbrev Call := Except GitError

/-- A completed process, with what its caller reads off the output. -/
structure Completed (α : Type) where
  returncode : ℤ
  stdout : α

/-- The commands of git on one repository, by what they answer or raise. -/
structure Git where
  /-- `cat-file blob rev:path` -/
  catFile : String → String → Call (Completed (List UInt8))
  /-- `ls-tree -z rev -- path` -/
  lsTree : String → String → Call (Completed (List UInt8))
  /-- `cat-file -e` of a commit -/
  hasCommit : String → Call (Completed Unit)
  /-- `merge-base rev HEAD` -/
  mergeBase : String → Call (Completed String)
  /-- `rev-list -1 --before=seconds HEAD`, nothing for an empty output -/
  lastBefore : ℤ → Call (Option String)
  /-- `rev-list --reverse --topo-order --ancestry-path start..HEAD -- path`, with commit times -/
  revList : String → String → Call (List (String × ℤ))
  /-- `rev-parse commit^@` -/
  parents : String → Call (List String)
  /-- `merge-base --is-ancestor` -/
  isAncestor : String → String → Call (Completed Unit)
  /-- `for-each-ref --contains` over the local and the remote-tracking branches -/
  refsContaining : String → Call (Completed (List String))
  /-- `for-each-ref` over the same, without symbolic refs -/
  refs : Call (Completed (List String))

/-- `b" \t"`. -/
def isBlank (b : UInt8) : Bool := b = 32 ∨ b = 9

/-- `line.removesuffix(b"\r").strip(b" \t")`. -/
def normalizeLine (line : List UInt8) : List UInt8 :=
  let line := if line.getLast? = some 13 then line.dropLast else line
  ((line.dropWhile isBlank).reverse.dropWhile isBlank).reverse

variable (sha256 : List UInt8 → String)

def lineHash (line : List UInt8) : String := sha256 (normalizeLine line)

/-- The hashes of the lines of a file. -/
def lineHashes (blob : List UInt8) : List String := (blob.splitOn 10).map (lineHash sha256)

/-- `_contains`. -/
def containsLine (wanted : String) : Option (List UInt8) → Bool
  | none => false
  | some blob => wanted ∈ lineHashes sha256 blob

namespace Git

variable (git : Git)

/-- `_blob`: the file at a revision, `none` when the path does not exist there. -/
def blob (rev path : String) : Call (Option (List UInt8)) := do
  let found ← git.catFile rev path
  if found.returncode = 0 then
    return some found.stdout
  let listed ← git.lsTree rev path
  if listed.returncode = 0 ∧ listed.stdout = [] then
    return none
  throw (.unavailable rev path)

/-- `_parent_blobs`. -/
def parentBlobs (commit path : String) : Call (List (List UInt8)) := do
  let parents ← git.parents commit
  let blobs ← parents.mapM fun parent => git.blob parent path
  return blobs.filterMap id

/-- `_is_ancestor`. -/
def descends (commit ancestor : String) : Call Bool := do
  let answer ← git.isAncestor ancestor commit
  return answer.returncode = 0

end Git

end Git

section Start

variable (git : Git)

/-- `Walk`: the commit the walk starts from, and whether `HEAD` lacks the reviewed commit. -/
structure Walk where
  start : String
  guarded : Bool

/-- `_walk_start`: the start of the walk, or a skip reason. -/
def walkStart (headSha : String) (startedAtMs : ℤ) : Call (Except String Walk) := do
  let present ← git.hasCommit headSha
  if present.returncode = 0 then
    let base ← git.mergeBase headSha
    if base.returncode = 1 then
      return .error "HEAD shares no history with head_sha"
    if base.returncode ≠ 0 then
      return .error ("git merge-base failed (exit " ++ toString base.returncode ++ ")")
    return .ok ⟨base.stdout, base.stdout ≠ headSha⟩
  match ← git.lastBefore (startedAtMs / 1000) with
  | none => return .error "head_sha not in repository and no commit before the review"
  | some start => return .ok ⟨start, false⟩

def forEachRefFailed (returncode : ℤ) : String :=
  "git for-each-ref failed (exit " ++ toString returncode ++ ")"

/-- `_inference_blocked`: why the reviewed branch may still be unmerged. -/
def inferenceBlocked (headSha : String) : Call (Option String) := do
  let refs ← git.refsContaining headSha
  if refs.returncode ≠ 0 then
    return some (forEachRefFailed refs.returncode)
  return if refs.stdout = [] then none else some "reviewed branch still exists; not merged"

end Start

section Refs

variable (sha256 : List UInt8 → String) (git : Git) (repo path wanted : String)

/-- `RefLines`: the line hashes of `(repo, ref, path)`, kept for one pass. -/
abbrev RefLines := List ((String × String × String) × List String)

/-- The line hashes at a ref, from the cache if they are there. -/
def refHashes (ref : String) (cache : RefLines) : Call (List String × RefLines) :=
  match cache.lookup (repo, ref, path) with
  | some hashes => .ok (hashes, cache)
  | none => do
    let blob ← git.blob ref path
    let hashes := (blob.map (lineHashes sha256)).getD []
    return (hashes, ((repo, ref, path), hashes) :: cache)

/-- The loop of `_line_on_a_ref`. What was cached before an exception stays cached. -/
def lineOnRefs : List String → RefLines → Call (Option String) × RefLines
  | [], cache => (.ok none, cache)
  | ref :: refs, cache =>
    match refHashes sha256 git repo path ref cache with
    | .error e => (.error e, cache)
    | .ok (hashes, cache) =>
      if wanted ∈ hashes then (.ok (some ("flagged line still present on " ++ ref)), cache)
      else lineOnRefs refs cache

/-- `_line_on_a_ref`. -/
def lineOnARef (cache : RefLines) : Call (Option String) × RefLines :=
  match git.refs with
  | .error e => (.error e, cache)
  | .ok refs =>
    if refs.returncode ≠ 0 then (.ok (some (forEachRefFailed refs.returncode)), cache)
    else lineOnRefs sha256 git repo path wanted refs.stdout cache

end Refs

section Walk

variable (sha256 : List UInt8 → String) (git : Git) (path wanted : String) (startedAtMs : ℤ)
  (guarded : Bool)

/-- The variables of the loop of `find_change`. -/
structure Progress where
  seen : Bool
  /-- The walked commits whose file holds the line. -/
  holders : List String
  touched : Bool := false
  firstTouch : Option String := none

/-- The file is there at the commit; an inferred fix must come after the review started. -/
def Progress.touch (p : Progress) (startedAtMs : ℤ) (commit : String) (committed : ℤ) : Progress :=
  { p with
    touched := true
    firstTouch := if p.firstTouch.isNone ∧ startedAtMs ≤ committed * 1000 then some commit
      else p.firstTouch }

/-- A parent of the commit has the line; or none has the file, and the commit recreates the file of
a holder. -/
def takesAway (holders : List String) (commit : String) : Call Bool := do
  let parents ← git.parentBlobs commit path
  if parents = [] then
    holders.anyM (git.descends commit)
  else
    return parents.any fun parent => containsLine sha256 wanted (some parent)

/-- One round of the loop: what it goes on with, or nothing when the commit is the fix. -/
def visit (p : Progress) (commit : String) (committed : ℤ) : Call (Option Progress) := do
  match ← git.blob commit path with
  | none => return some p  -- deleted here; a later re-creation decides
  | some blob =>
    let p := p.touch startedAtMs commit committed
    if containsLine sha256 wanted (some blob) then
      return some { p with seen := true, holders := p.holders ++ [commit] }
    if !p.seen then
      return some p
    if !(← takesAway sha256 git path wanted p.holders commit) then
      return some p
    if guarded ∧ committed * 1000 < startedAtMs then
      -- a removal on the mainline before the review: the line counts as never seen
      return some { p with seen := false }
    return none

/-- How the loop of `find_change` ends. -/
inductive Walked where
  | fixedBy (commit : String)
  | ended (p : Progress)

/-- The loop of `find_change`. -/
def walk (p : Progress) : List (String × ℤ) → Call Walked
  | [] => return .ended p
  | (commit, committed) :: listed => do
    match ← visit sha256 git path wanted startedAtMs guarded p commit committed with
    | none => return .fixedBy commit
    | some p => walk p listed

end Walk

section Change

/-- `Outcome`. -/
structure Outcome where
  commit : Option String := none
  reason : Option String := none
  note : Option String := none
  deriving DecidableEq

/-- `INFERRED_NOTE`. -/
def inferredNote : String := "inferred: line absent at walk start; first commit touching the path"

variable (sha256 : List UInt8 → String) (git : Git) (repo headSha path wanted : String)
  (startedAtMs : ℤ)

/-- What is known before the refs are asked. -/
inductive Finding where
  | settled (outcome : Outcome)
  /-- The commit that is inferred unless a ref still has the line. -/
  | guess (first : String)

/-- `find_change` after the walk, up to the check of the refs. -/
def conclude (guarded : Bool) (p : Progress) : Call Finding := do
  if p.seen then
    return .settled { reason := some "no walked commit removed the line" }
  if !p.touched then
    return .settled
      { reason := some "line absent at walk start and no later commit touches the path" }
  match p.firstTouch with
  | none =>
    return .settled { reason := some <|
      "line absent at walk start; only commits before the review touch the path" }
  | some first =>
    if guarded then
      match ← inferenceBlocked git headSha with
      | some blocked => return .settled { reason := some blocked }
      | none => return .guess first
    else
      return .guess first

/-- `find_change` up to the check of the refs. -/
def examine : Call Finding := do
  match ← git.blob "HEAD" path with
  | none => return .settled { reason := some "file deleted at HEAD" }
  | some current =>
    if containsLine sha256 wanted (some current) then
      return .settled {}
    match ← walkStart git headSha startedAtMs with
    | .error reason => return .settled { reason := some reason }
    | .ok ⟨start, guarded⟩ =>
      let listed ← git.revList start path
      let seen := containsLine sha256 wanted (← git.blob start path)
      let p : Progress := { seen := seen, holders := if seen then [start] else [] }
      match ← walk sha256 git path wanted startedAtMs guarded p listed with
      | .fixedBy commit => return .settled { commit := some commit }
      | .ended p => conclude git headSha guarded p

/-- `find_change`, with the cache of the pass. -/
def findChange (cache : RefLines) : Call Outcome × RefLines :=
  match examine sha256 git headSha path wanted startedAtMs with
  | .error e => (.error e, cache)
  | .ok (.settled outcome) => (.ok outcome, cache)
  | .ok (.guess first) =>
    match lineOnARef sha256 git repo path wanted cache with
    | (.error e, cache) => (.error e, cache)
    | (.ok (some blocked), cache) => (.ok { reason := some blocked }, cache)
    | (.ok none, cache) => (.ok { commit := some first, note := some inferredNote }, cache)

end Change

end Hippo.EvalLinkage
