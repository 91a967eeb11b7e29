import Hippo.AgenticEnrichment

/-!
# What a skip decides and what the content hash covers

The daemon hashes the content of a version, the brain decides on the stored row whether the
version is worth enriching. SHA-256 stays a parameter: two versions have the same hash exactly
if the hashed parts are the same.
-/
namespace Hippo

/-- The parts of an opencode session that `compute_content_hash` feeds to the digest. -/
structure HashedOpencode where
  toolCalls : List String
  userPrompts : List String
  assistantText : String
  additions : ℤ
  deletions : ℤ
  files : ℤ
  diffs : Option Json
  filesTouched : List String

def OpencodeSession.hashed (s : OpencodeSession) : HashedOpencode where
  toolCalls := s.toolCalls
  userPrompts := s.userPrompts
  assistantText := "\n".intercalate s.assistantTexts
  additions := s.summaryAdditions.getD 0
  deletions := s.summaryDeletions.getD 0
  files := s.summaryFiles.getD 0
  diffs := s.summaryDiffs
  filesTouched := s.filesTouched

variable {H γ : Type}

/-- The two content hashes as digests without collisions. -/
structure Rendering.Digest (env : Rendering H) : Prop where
  segment : ∀ {calls prompts text calls' prompts' text'},
    env.segmentHash calls prompts text = env.segmentHash calls' prompts' text' →
      calls = calls' ∧ prompts = prompts' ∧ text = text'
  opencode : ∀ {s s'}, env.opencodeHash s = env.opencodeHash s' ↔ s.hashed = s'.hashed

/-- What a source hands to the daemon for one segment. -/
inductive SourceVersion where
  | claude (seg : SessionSegment)
  | codex (seg : SessionSegment)
  | cursor (seg : SessionSegment)
  | pi (seg : SessionSegment)
  | opencode (s : OpencodeSession)

namespace SourceVersion

def upsert (env : Rendering H) : SourceVersion → Upsert H
  | claude seg => claudeUpsert env seg
  | codex seg => codexUpsert env seg
  | cursor seg => cursorUpsert env seg
  | pi seg => piUpsert env seg
  | opencode s => opencodeUpsert env s

/-- `_eligibility_source_for_harness`, as the claim that takes the version. -/
def source : SourceVersion → ClaimSource
  | opencode _ => .opencode
  | _ => .claudeLike

def contentHash (env : Rendering H) (v : SourceVersion) : H := (v.upsert env).contentHash

def messageCount : SourceVersion → ℤ
  | claude seg | codex seg | cursor seg | pi seg => seg.messageCount
  | opencode s => s.messageCount

/-- Eligible, or unreadable, whatever the number of messages: the segment has tool calls, or the
diffs are positive or of a shape the test raises on. -/
def Decisive : SourceVersion → Prop
  | claude seg | codex seg | cursor seg | pi seg => seg.toolCalls ≠ []
  | opencode s => (s.summaryDiffs.getD .null).hasDiffs ≠ .ok false

/-- A row of `agentic_sessions` that an upsert of the version wrote. The brain may have changed
its `enriched` flag and its watermark since. -/
structure StoredIn (env : Rendering H) (v : SourceVersion) (r : AgenticSession H) : Prop where
  contentHash : r.contentHash = some (v.contentHash env)
  messageCount : r.messageCount = v.messageCount
  toolCalls : v.source = .claudeLike → r.toolCalls = ((v.upsert env).new).toolCalls
  snapshotDiffs : v.source = .opencode → r.snapshotDiffs = ((v.upsert env).new).snapshotDiffs
  commitMessages : v.source = .opencode → r.commitMessages = []

/-- The verdict of `is_enrichment_eligible`, without its reason. -/
def verdict (v : SourceVersion) (r : AgenticSession H) : Except PyError Bool :=
  (isEnrichmentEligible v.source r).map Prod.fst

section Stored

variable {env : Rendering H} {v v' : SourceVersion} {r r' : AgenticSession H}

theorem storedIn_new (env : Rendering H) (v : SourceVersion) :
    StoredIn env v (v.upsert env).new := by
  constructor
  · exact (v.upsert env).new_contentHash
  · cases v <;> rfl
  · intro _
    rfl
  · intro _
    rfl
  · cases v <;> simp [source, upsert, opencodeUpsert]

theorem storedIn_refresh (env : Rendering H) (v : SourceVersion) (r : AgenticSession H) :
    StoredIn env v ((v.upsert env).refresh r) := by
  constructor
  · exact (v.upsert env).refresh_contentHash r
  · cases v <;> rfl
  · cases v <;> simp [source, upsert, claudeUpsert, codexUpsert, cursorUpsert, piUpsert, cwdUpsert,
      SessionSegment.refreshContent, SessionSegment.row]
  · cases v <;> simp [source, upsert, opencodeUpsert]
  · cases v <;> simp [source, upsert, opencodeUpsert]

/-- The row an upsert leaves at its target holds the version. -/
theorem storedIn_apply [DecidableEq H] (env : Rendering H) (v : SourceVersion)
    (db : AgenticDb H γ) : ∃ r, ((v.upsert env).apply db).sessions.get?
      ((v.upsert env).target db) = some r ∧ StoredIn env v r := by
  rw [Upsert.apply_sessions_get?, if_pos rfl]
  cases db.sessions.get? ((v.upsert env).target db) with
  | none => exact ⟨_, rfl, storedIn_new env v⟩
  | some r => exact ⟨_, rfl, storedIn_refresh env v r⟩

/-- The verdict reads the message count and the decisive part of the content. -/
theorem verdict_eq (h : StoredIn env v r) : verdict v r = match v with
    | claude seg | codex seg | cursor seg | pi seg =>
      .ok !decide (seg.messageCount < 3 ∧ seg.toolCalls = [])
    | opencode s => (s.summaryDiffs.getD .null).hasDiffs.map fun hasDiffs =>
      !decide (s.messageCount < 3 ∧ hasDiffs = false) := by
  have hcount := h.messageCount
  cases v with
  | opencode s =>
    have hdiffs := h.snapshotDiffs rfl
    have hcommits := h.commitMessages rfl
    simp only [messageCount] at hcount
    simp only [upsert, opencodeUpsert] at hdiffs
    simp only [verdict, source, isEnrichmentEligible, hcount, hdiffs, hcommits]
    cases (s.summaryDiffs.getD .null).hasDiffs with
    | error e => rfl
    | ok b =>
      by_cases hfew : s.messageCount < 3 ∧ b = false <;>
        simp [bind, Except.bind, Except.map, pure, Except.pure, hfew]
  | claude seg | codex seg | cursor seg | pi seg =>
    have hcalls := h.toolCalls rfl
    simp only [messageCount] at hcount
    simp only [upsert, claudeUpsert, codexUpsert, cursorUpsert, piUpsert, cwdUpsert,
      SessionSegment.row] at hcalls
    simp only [verdict, source, isEnrichmentEligible, hcount, hcalls]
    by_cases hfew : seg.messageCount < 3 ∧ seg.toolCalls = [] <;> simp [hfew, Except.map]

/-- Versions of one source with equal hashes get one verdict, unless only the message count of
one of them reaches the threshold and nothing else decides. -/
theorem verdict_eq_iff (hdigest : env.Digest) (hsource : v.source = v'.source)
    (hhash : v.contentHash env = v'.contentHash env) (h : StoredIn env v r)
    (h' : StoredIn env v' r') : verdict v r = verdict v' r' ↔
      v.Decisive ∨ (v.messageCount < 3 ↔ v'.messageCount < 3) := by
  rw [verdict_eq h, verdict_eq h']
  cases v with
  | opencode s =>
    cases v' with
    | opencode s' =>
      have hparts : s.hashed = s'.hashed := hdigest.opencode.mp hhash
      have hdiffs : s.summaryDiffs = s'.summaryDiffs := congrArg HashedOpencode.diffs hparts
      simp only [Decisive, messageCount, hdiffs]
      cases (s'.summaryDiffs.getD .null).hasDiffs with
      | error e => simp [Except.map]
      | ok b =>
        by_cases hfew : s.messageCount < 3 <;> by_cases hfew' : s'.messageCount < 3 <;>
          cases b <;> simp [Except.map, hfew, hfew']
    | _ => cases hsource
  | claude seg | codex seg | cursor seg | pi seg =>
    cases v' with
    | opencode s' => cases hsource
    | claude seg' | codex seg' | cursor seg' | pi seg' =>
      have hcalls : seg.toolCalls = seg'.toolCalls := (hdigest.segment hhash).1
      simp only [Decisive, messageCount, hcalls]
      by_cases hfew : seg.messageCount < 3 <;> by_cases hfew' : seg'.messageCount < 3 <;>
        by_cases hnone : seg'.toolCalls = [] <;> simp [hfew, hfew', hnone]

end Stored

section Skip

variable [DecidableEq H] {env : Rendering H} {v v' : SourceVersion} {r : AgenticSession H}
  {db : AgenticDb H γ} {i : ℕ}

/-- After a skip, a version with the hash the skip was decided on stays skipped. -/
theorem skipped_of_skipSegment {q : QueueRow} (reason : String)
    (hrow : db.sessions.get? i = some r) (hqueue : db.queue.get? i = some q)
    (hstored : StoredIn env v r) (hhash : v.contentHash env = v'.contentHash env)
    (htarget : (v'.upsert env).target (db.skipSegment ⟨i, r⟩ reason) = i) :
    ((v'.upsert env).apply (db.skipSegment ⟨i, r⟩ reason)).queue.status? i = some .skipped := by
  have hskipped : (db.skipSegment ⟨i, r⟩ reason).queue.get? i = some (q.skip reason) := by
    rw [AgenticDb.skipSegment_queue_get?, if_pos rfl, hqueue, Option.map_some]
  obtain ⟨r', hr', hmark⟩ : ∃ r', (db.skipSegment ⟨i, r⟩ reason).sessions.get? i = some r' ∧
      r'.lastEnrichedContentHash = some (v'.contentHash env) := by
    rw [AgenticDb.skipSegment_sessions_get?, if_pos rfl, hrow, Option.map_some]
    exact ⟨_, rfl, by simp [hstored.contentHash, hhash]⟩
  generalize db.skipSegment ⟨i, r⟩ reason = db' at htarget hskipped hr'
  have hclosed : (v'.upsert env).enqueues ((v'.upsert env).prior db') = false := by
    unfold Upsert.target at htarget
    cases hp : (v'.upsert env).prior db' with
    | none =>
      rw [hp] at htarget
      rw [← htarget] at hr'
      simp at hr'
    | some p =>
      rw [hp] at htarget
      obtain ⟨s, hs, -, -, hwatermark, hstatus⟩ := AgenticDb.prior?_some hp
      have hid : p.id = i := htarget
      rw [hid] at hs hstatus
      have hsame : s = r' := Option.some.inj (hs.symm.trans hr')
      have hgate : decideEnqueue false (v'.upsert env).contentHash p.lastEnrichedContentHash
          p.queueStatus = false := by
        rw [hwatermark, hsame, hmark, hstatus, Queue.status?, hskipped]
        simp [decideEnqueue, contentHash]
      simp [Upsert.enqueues, hgate]
  rw [Upsert.apply, if_neg (by simp [hclosed]), Queue.status?, Upsert.writeRow_queue, hskipped]
  rfl

/-- **A skip is sound** for the content it is stored against exactly if the content alone decides,
or the two versions are on the same side of the message threshold. Versions of one segment with
equal hashes get the same verdict then; and a later version with the hash of a skipped one, which
always stays skipped, is ineligible as well. -/
theorem skip_sound_iff (hdigest : env.Digest) (hsource : v.source = v'.source)
    (hhash : v.contentHash env = v'.contentHash env) :
    (∀ r r', StoredIn env v r → StoredIn env v' r' → (verdict v r = verdict v' r' ↔
      v.Decisive ∨ (v.messageCount < 3 ↔ v'.messageCount < 3))) ∧
    ∀ (db : AgenticDb H γ) (i : ℕ) (r : AgenticSession H) (q : QueueRow) (reason : String),
      db.sessions.get? i = some r → db.queue.get? i = some q → StoredIn env v r →
      isEnrichmentEligible v.source r = .ok (false, reason) →
      (v'.upsert env).target (db.skipSegment ⟨i, r⟩ reason) = i →
      ∃ r', ((v'.upsert env).apply (db.skipSegment ⟨i, r⟩ reason)).sessions.get? i = some r' ∧
        StoredIn env v' r' ∧
        ((v'.upsert env).apply (db.skipSegment ⟨i, r⟩ reason)).queue.status? i =
          some .skipped ∧
        (verdict v' r' = .ok false ↔
          v.Decisive ∨ (v.messageCount < 3 ↔ v'.messageCount < 3)) := by
  constructor
  · intro r r' h h'
    exact verdict_eq_iff hdigest hsource hhash h h'
  · intro db i r q reason hrow hqueue hstored hskip htarget
    obtain ⟨r', hr', hstored'⟩ := storedIn_apply env v' (db.skipSegment ⟨i, r⟩ reason)
    rw [htarget] at hr'
    have hverdict : verdict v r = .ok false := by
      rw [verdict, hskip]
      rfl
    refine ⟨r', hr', hstored', skipped_of_skipSegment reason hrow hqueue hstored hhash htarget, ?_⟩
    rw [← verdict_eq_iff hdigest hsource hhash hstored hstored', hverdict]
    exact eq_comm

end Skip

section Instance

/-- The hashed parts themselves as the digest. -/
abbrev HashedParts := (List ToolCall × List String × String) ⊕ HashedOpencode

def hashedParts : Rendering HashedParts where
  segmentHash := fun calls prompts text => .inl (calls, prompts, text)
  opencodeHash := fun s => .inr s.hashed
  timeRange := fun _ _ => ""
  summaryText := fun _ _ => ""
  opencodeSummaryText := fun _ => ""

theorem hashedParts_digest : hashedParts.Digest where
  segment := by
    intro calls prompts text calls' prompts' text' h
    cases h
    exact ⟨rfl, rfl, rfl⟩
  opencode := ⟨Sum.inr.inj, congrArg Sum.inr⟩

/-- One prompt, answered by texts too short to be kept: only the message count grows. -/
def answeredPrompt (messageCount : ℤ) : SourceVersion := .claude {
  sessionId := "s"
  segmentIndex := 0
  cwd := "/p"
  gitBranch := none
  sourceFile := "/t.jsonl"
  toolCalls := []
  userPrompts := ["fix it"]
  assistantTexts := []
  messageCount := messageCount
  startTime := 1
  endTime := 2 }

open Classical in
theorem skip_sound_below_threshold :
    verdict (answeredPrompt 1) ((answeredPrompt 1).upsert hashedParts).new =
      verdict (answeredPrompt 2) ((answeredPrompt 2).upsert hashedParts).new := by
  have hsource : (answeredPrompt 1).source = (answeredPrompt 2).source := rfl
  have hhash : (answeredPrompt 1).contentHash hashedParts =
      (answeredPrompt 2).contentHash hashedParts := rfl
  have hsound := (skip_sound_iff (γ := Unit) hashedParts_digest hsource hhash).1
  apply (hsound _ _ (storedIn_new hashedParts _) (storedIn_new hashedParts _)).mpr
  right
  decide

open Classical in
/-- A prompt with one answer is skipped; with four answers it has the same hash, would be
eligible, and stays skipped. -/
theorem skip_hides_answers : ∃ (db : AgenticDb HashedParts Unit) (r r' : AgenticSession HashedParts)
    (reason : String), (answeredPrompt 2).contentHash hashedParts =
      (answeredPrompt 5).contentHash hashedParts ∧
    db.sessions.get? 1 = some r ∧ StoredIn hashedParts (answeredPrompt 2) r ∧
    isEnrichmentEligible .claudeLike r = .ok (false, reason) ∧
    (((answeredPrompt 5).upsert hashedParts).apply
      (db.skipSegment ⟨1, r⟩ reason)).sessions.get? 1 = some r' ∧
    StoredIn hashedParts (answeredPrompt 5) r' ∧
    isEnrichmentEligible .claudeLike r' = .ok (true, "eligible") ∧
    (((answeredPrompt 5).upsert hashedParts).apply
      (db.skipSegment ⟨1, r⟩ reason)).queue.status? 1 = some .skipped := by
  let db : AgenticDb HashedParts Unit :=
    ((answeredPrompt 2).upsert hashedParts).apply AgenticDb.empty
  let r := ((answeredPrompt 2).upsert hashedParts).new
  let reason := "claude session message_count=2 < 3 and no tool_calls"
  have hr : db.sessions.get? 1 = some r := Upsert.apply_sessions_get? _ _ 1
  have hstored := storedIn_new hashedParts (answeredPrompt 2)
  obtain ⟨q, hq⟩ : ∃ q, db.queue.get? 1 = some q := by
    have hstatus : db.queue.status? 1 = some .pending :=
      Upsert.apply_status?_target _ AgenticDb.empty rfl
    exact Option.isSome_iff_exists.mp (by
      rw [Queue.status?] at hstatus
      cases h : db.queue.get? 1 with
      | none => simp [h] at hstatus
      | some q => rfl)
  have htarget : ((answeredPrompt 5).upsert hashedParts).target
      (db.skipSegment ⟨1, r⟩ reason) = 1 := rfl
  obtain ⟨r', hr', hstored'⟩ := storedIn_apply hashedParts (answeredPrompt 5)
    (db.skipSegment ⟨1, r⟩ reason)
  rw [htarget] at hr'
  refine ⟨db, r, r', reason, rfl, hr, hstored, rfl, hr', hstored', ?_,
    skipped_of_skipSegment reason hr hq hstored rfl htarget⟩
  have hcount : r'.messageCount = 5 := hstored'.messageCount
  simp [isEnrichmentEligible, hcount]

end Instance

end SourceVersion

end Hippo
