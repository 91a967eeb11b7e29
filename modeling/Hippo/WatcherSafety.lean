import Hippo.ClaudeWatcher

/-!
# The watcher loses no growth

In a run in which no call takes a rewritten file for the recorded one, the database holds the
extraction of a file that the last call left as read, and sizes are recorded after the content.
-/
namespace Hippo.ClaudeWatcher
open Claude

section Ingested

/-- Since what was seen, the file has been read and ingested. -/
def Covered (ingested : List SessionLog) (seen : SessionLog) : Prop :=
  ∃ read ∈ ingested.head?, seen ≤ read

/-- A recorded size and the file it was taken from: its content has been ingested. -/
def SizeIngested (ingested : List SessionLog) (size : ℕ) (log : SessionLog) : Prop :=
  size = 0 ∨ size = log.size ∧ ∃ read ∈ ingested, log.content <+: read.content

variable {ingested : List SessionLog} {log seen read : SessionLog} {size : ℕ}

theorem Covered.cons (h : Covered ingested seen) (hread : ∀ last ∈ ingested.head?, last ≤ read) :
    Covered (read :: ingested) seen := by
  obtain ⟨last, hlast, hseen⟩ := h
  exact ⟨read, rfl, hseen.trans (hread last hlast)⟩

theorem SizeIngested.cons (h : SizeIngested ingested size log) (read : SessionLog) :
    SizeIngested (read :: ingested) size log := by
  rcases h with h | ⟨h, r, hr, hlog⟩
  · exact Or.inl h
  · exact Or.inr ⟨h, r, List.mem_cons_of_mem _ hr, hlog⟩

end Ingested

section Holds

variable {H γ : Type} [DecidableEq H]

/-- The database holds every segment of the file's extraction with its current content. -/
def Holds (env : Rendering H) (reader : TranscriptReader) (file : Claude.SessionFile)
    (db : AgenticDb H γ) (log : SessionLog) : Prop :=
  ∀ now, ∀ seg ∈ extractSegments env reader now (readLines log.content),
    (seg.segmentIndex, some (seg.contentHash env)) ∈ storedSegments db file.sessionId

/-- The hashes of an extraction. -/
def extractedHashes (env : Rendering H) (reader : TranscriptReader) (log : SessionLog) : List H :=
  (extractedContents env reader (readLines log.content)).map (hashContent env)

/-- The stored segments begin with those of the last ingest. -/
def Stored (env : Rendering H) (reader : TranscriptReader) (file : Claude.SessionFile)
    (db : AgenticDb H γ) (ingested : List SessionLog) : Prop :=
  ∃ hashes, storedSegments db file.sessionId = indexed hashes ∧
    ∀ read ∈ ingested.head?, extractedHashes env reader read <+: hashes

variable {env : Rendering H} {reader : TranscriptReader} {file : Claude.SessionFile}
  {db : AgenticDb H γ} {ingested : List SessionLog} {log : SessionLog}

theorem Stored.ingest (h : Stored env reader file db ingested) (now : ℤ) (read : SessionLog) :
    Stored env reader file (ingestSessionFile env reader now file db (readLines read.content))
      (read :: ingested) := by
  obtain ⟨hashes, hstored, -⟩ := h
  refine ⟨_, storedSegments_ingest now hstored, ?_⟩
  intro r hr
  obtain rfl : read = r := Option.some.inj hr
  exact List.prefix_append _ _

theorem Stored.holds (h : Stored env reader file db ingested) (hread : log ∈ ingested.head?) :
    Holds env reader file db log := by
  obtain ⟨hashes, hstored, hlast⟩ := h
  obtain ⟨rest, rfl⟩ := hlast log hread
  intro now seg hseg
  have hmem := List.mem_map_of_mem (f := fun seg => (seg.segmentIndex, some (seg.contentHash env)))
    hseg
  rw [← indexed_extractSegments] at hmem
  rw [hstored, indexed, List.mapIdx_append]
  exact List.mem_append_left _ hmem

/-- Nothing is extracted from an empty file. -/
theorem holds_of_empty (h : log.content = []) : Holds env reader file db log := by
  intro now seg hseg
  have hnone : extractSegments env reader now (readLines []) = [] := rfl
  rw [h, hnone] at hseg
  cases hseg

/-- What was seen is held while it is still the file. -/
theorem Stored.holds_seen (h : Stored env reader file db ingested)
    (hold : ∀ read ∈ ingested.head?, read ≤ log) (hseen : log.content = [] ∨ Covered ingested log) :
    Holds env reader file db log := by
  rcases hseen with hempty | ⟨read, hread, hle⟩
  · exact holds_of_empty hempty
  · obtain rfl : log = read := le_antisymm hle (hold read hread)
    exact h.holds hread

end Holds

section Condition

variable {H γ : Type}

/-- The file was truncated or replaced since its recorded size was taken, and looks read. -/
def Mistaken (w : World H γ) : Prop :=
  w.history.memoryFile.generation ≠ w.file.generation ∧ 0 < w.file.size ∧
    (w.memory.observe (metadata w.file)).upToDate (metadata w.file) w.metaModified = true

/-- No call takes a rewritten file for the recorded one, and no task reads another generation of
the file than its call has seen. -/
def Noticed (w : World H γ) : Action → Prop
  | .processFile now _ statFails =>
    w.busy ∨ w.coolingDown now ∨ statFails ∨ ¬ Mistaken w
  | .extract token _ => ∀ t ∈ w.tasks.get? token,
    t.observation.seen.generation = w.file.generation
  | _ => True

instance (w : World H γ) : Decidable (Mistaken w) := by
  unfold Mistaken
  infer_instance

instance (w : World H γ) (a : Action) : Decidable (Noticed w a) := by
  unfold Noticed
  split <;> infer_instance

end Condition

section Invariant

variable {H γ : Type}

/-- A recorded offset: both sizes are the same one, and its content has been ingested. -/
structure Recorded (ingested : List SessionLog) (byteOffset sizeAtLastRead : ℕ)
    (log : SessionLog) : Prop where
  sizes : byteOffset = sizeAtLastRead
  content : SizeIngested ingested byteOffset log
  covered : 0 < byteOffset → Covered ingested log

theorem Recorded.zero (ingested : List SessionLog) (log : SessionLog) :
    Recorded ingested 0 0 log :=
  ⟨rfl, Or.inl rfl, fun h => absurd h (Nat.lt_irrefl 0)⟩

theorem Recorded.cons {ingested : List SessionLog} {byteOffset sizeAtLastRead : ℕ}
    {log read : SessionLog} (h : Recorded ingested byteOffset sizeAtLastRead log)
    (hread : ∀ last ∈ ingested.head?, last ≤ read) :
    Recorded (read :: ingested) byteOffset sizeAtLastRead log :=
  ⟨h.sizes, h.content.cons read, fun hpos => (h.covered hpos).cons hread⟩

/-- What a task has read is the file its call saw, grown. -/
def BlockingTask.Sound (file : SessionLog) (ingested : List SessionLog) (t : BlockingTask) : Prop :=
  t.observation.seen ≤ file ∧
    match t.stage with
    | .started => True
    | .extracted read _ => t.observation.seen ≤ read ∧
      t.observation.seen.generation = read.generation ∧ read ≤ file ∧
        ∀ last ∈ ingested.head?, last ≤ read
    | .ingested read => t.observation.seen ≤ read ∧
      t.observation.seen.generation = read.generation ∧ ingested.head? = some read

theorem BlockingTask.Sound.mono {file file' : SessionLog} {ingested : List SessionLog}
    {t : BlockingTask} (h : t.Sound file ingested) (hle : file ≤ file') :
    t.Sound file' ingested := by
  obtain ⟨hseen, hstage⟩ := h
  refine ⟨hseen.trans hle, ?_⟩
  split at hstage
  · trivial
  · exact ⟨hstage.1, hstage.2.1, hstage.2.2.1.trans hle, hstage.2.2.2⟩
  · exact hstage

variable [DecidableEq H]

/-- The invariant of the watcher. `owned` says that at most one task runs. -/
structure Inv (env : Rendering H) (reader : TranscriptReader) (file : Claude.SessionFile)
    (w : World H γ) : Prop where
  stored : Stored env reader file w.db w.history.ingested
  past : ∀ read ∈ w.history.ingested.head?, read ≤ w.file
  memory : Recorded w.history.ingested w.memory.byteOffset w.memory.sizeAtLastRead
    w.history.memoryFile
  saved : ∀ row ∈ w.saved, Recorded w.history.ingested row.byteOffset row.sizeAtLastRead
    w.history.savedFile
  owned : ∀ token t, w.tasks.get? token = some t → w.memory.inFlight = some token
  tasks : ∀ token t, w.tasks.get? token = some t → t.Sound w.file w.history.ingested
  call : ∀ c ∈ w.call, ∃ stage, w.tasks.get? c.token = some ⟨c.observation, stage⟩
  returned : ∀ seen ∈ w.history.returned.bind Returned.seen?,
    seen.content = [] ∨ Covered w.history.ingested seen

variable {env : Rendering H} {reader : TranscriptReader} {file : Claude.SessionFile}
  {w : World H γ}

theorem Inv.init {db : AgenticDb H γ} (hdb : Absent file db) (log : SessionLog)
    (modified : Option ℕ) : Inv env reader file (World.init log modified db) where
  stored := ⟨[], storedSegments_of_absent hdb, fun _ h => nomatch h⟩
  past := fun _ h => nomatch h
  memory := Recorded.zero _ _
  saved := fun _ h => nomatch h
  owned := fun _ _ h => nomatch h
  tasks := fun _ _ h => nomatch h
  call := fun _ h => nomatch h
  returned := fun _ h => nomatch h

theorem Inv.changeFile (h : Inv env reader file w) {log : SessionLog} (hle : w.file ≤ log) :
    Inv env reader file (w.changeFile log) where
  stored := h.stored
  past := fun read hread => (h.past read hread).trans hle
  memory := h.memory
  saved := h.saved
  owned := h.owned
  tasks := fun token t ht => (h.tasks token t ht).mono hle
  call := h.call
  returned := h.returned

/-- The metadata file and the truncation mark are not looked at. -/
theorem Inv.setOthers (h : Inv env reader file w) (modified : Option ℕ) (truncated : Bool) :
    Inv env reader file { w with
      metaModified := modified
      history := { w.history with truncated := truncated } } :=
  ⟨h.stored, h.past, h.memory, h.saved, h.owned, h.tasks, h.call, h.returned⟩

theorem Inv.setMemory (h : Inv env reader file w) (memory : FileState)
    (hrecorded : Recorded w.history.ingested memory.byteOffset memory.sizeAtLastRead
      w.history.memoryFile)
    (howned : ∀ token t, w.tasks.get? token = some t → memory.inFlight = some token) :
    Inv env reader file { w with memory := memory } where
  stored := h.stored
  past := h.past
  memory := hrecorded
  saved := h.saved
  owned := howned
  tasks := h.tasks
  call := h.call
  returned := h.returned

theorem Inv.returns (h : Inv env reader file w) {r : Returned}
    (hr : ∀ seen ∈ r.seen?, seen.content = [] ∨ Covered w.history.ingested seen) :
    Inv env reader file (w.returns r) where
  stored := h.stored
  past := h.past
  memory := h.memory
  saved := h.saved
  owned := h.owned
  tasks := h.tasks
  call := fun _ h => nomatch h
  returned := hr

/-- No task runs unless the call finds one in flight. -/
theorem Inv.idle (h : Inv env reader file w) (hbusy : w.busy = false) (token : ℕ) :
    w.tasks.get? token = none := by
  by_contra hrunning
  obtain ⟨t, ht⟩ := Option.ne_none_iff_exists'.mp hrunning
  rw [World.busy, h.owned token t ht, Option.any_some, ht] at hbusy
  cases hbusy

section Observe

variable (state : FileState) (current : Metadata)

/-- The offset is kept, or it was beyond the file or another file's and starts again. -/
theorem observe_cases :
    ((state.observe current).byteOffset = state.byteOffset ∧
      (state.observe current).sizeAtLastRead = state.sizeAtLastRead) ∨
    ((state.observe current).byteOffset = 0 ∧ (state.observe current).sizeAtLastRead = 0) := by
  unfold FileState.observe
  dsimp only
  split
  · right
    split <;> exact ⟨rfl, rfl⟩
  · split
    · exact Or.inr ⟨rfl, rfl⟩
    · exact Or.inl ⟨rfl, rfl⟩

theorem observe_reset (h : current.len < state.byteOffset ∨
    state.inode ≠ 0 ∧ (current.ino ≠ state.inode ∨ current.dev ≠ state.device)) :
    (state.observe current).sizeAtLastRead = 0 := by
  unfold FileState.observe
  dsimp only
  split
  · split <;> rfl
  · split
    · rfl
    · rename_i hreplaced hkept
      exact absurd h (not_or.mpr ⟨hkept, hreplaced⟩)

theorem observe_recorded {ingested : List SessionLog} {log : SessionLog}
    (h : Recorded ingested state.byteOffset state.sizeAtLastRead log) :
    Recorded ingested (state.observe current).byteOffset
      (state.observe current).sizeAtLastRead log := by
  rcases observe_cases state current with ⟨hoffset, hsize⟩ | ⟨hoffset, hsize⟩
  · rw [hoffset, hsize]
    exact h
  · rw [hoffset, hsize]
    exact Recorded.zero _ _

/-- The task and the cooldown are not looked at. -/
theorem observe_upToDate_clear (modified : Option ℕ) :
    (({ state with inFlight := none, cooldownUntil := none } : FileState).observe current).upToDate
      current modified = (state.observe current).upToDate current modified := by
  unfold FileState.observe
  dsimp only
  split <;> split <;> rfl

end Observe

omit [DecidableEq H] in
/-- A truncation or a replacement that a call notices is never mistaken. -/
theorem not_mistaken_of_noticed (hnoticed : w.file.size < w.memory.byteOffset ∨
    w.memory.inode ≠ 0 ∧
      (w.file.id.inode ≠ w.memory.inode ∨ w.file.id.device ≠ w.memory.device)) :
    ¬ Mistaken w := by
  rintro ⟨-, hpos, hread⟩
  have hreset := observe_reset w.memory (metadata w.file) hnoticed
  simp only [FileState.upToDate, FileState.unread, Bool.and_eq_true, Bool.not_eq_true',
    decide_eq_false_iff_not, not_or, Nat.not_lt, hreset] at hread
  exact Nat.not_lt.mpr hread.1.1 hpos

/-- A file that looks read and is not mistaken has been ingested as it is. -/
theorem Inv.covered_of_upToDate (h : Inv env reader file w) (hnot : ¬ Mistaken w)
    (hread : (w.memory.observe (metadata w.file)).upToDate (metadata w.file) w.metaModified =
      true) :
    w.file.content = [] ∨ Covered w.history.ingested w.file := by
  by_cases hempty : w.file.size = 0
  · exact Or.inl (List.length_eq_zero_iff.mp hempty)
  · right
    have hpos : 0 < w.file.size := Nat.pos_of_ne_zero hempty
    have hgeneration : w.history.memoryFile.generation = w.file.generation := by
      by_contra hne
      exact hnot ⟨hne, hpos, hread⟩
    have hlen : w.file.size ≤ (w.memory.observe (metadata w.file)).sizeAtLastRead := by
      simp only [FileState.upToDate, FileState.unread, Bool.and_eq_true, Bool.not_eq_true',
        decide_eq_false_iff_not, not_or, Nat.not_lt] at hread
      exact hread.1.1
    rcases observe_cases w.memory (metadata w.file) with ⟨-, hsize⟩ | ⟨-, hsize⟩
    · rw [hsize, ← h.memory.sizes] at hlen
      have hoffset : 0 < w.memory.byteOffset := by omega
      obtain ⟨read, hlast, hle⟩ := h.memory.covered hoffset
      have hrecorded : w.memory.byteOffset = w.history.memoryFile.size := by
        rcases h.memory.content with hzero | ⟨hsize, -⟩
        · omega
        · exact hsize
      have hsame := FileVersion.eq_of_le (hle.trans (h.past read hlast)) hgeneration (by omega)
      rw [← hsame]
      exact ⟨read, hlast, hle⟩
    · omega

theorem Inv.spawn (h : Inv env reader file w) (hidle : ∀ token, w.tasks.get? token = none)
    (ingestStartedMs : ℤ) : Inv env reader file (w.spawn ingestStartedMs) := by
  have hget : ∀ token t, (w.spawn ingestStartedMs).tasks.get? token = some t →
      token = w.tasks.nextRowid ∧ t = ⟨⟨w.file, ingestStartedMs⟩, .started⟩ := by
    intro token t ht
    rw [World.spawn, Table.get?_insert_nextRowid] at ht
    split at ht
    · exact ⟨‹_›, (Option.some.inj ht).symm⟩
    · rw [hidle] at ht
      cases ht
  refine ⟨h.stored, h.past, h.memory, h.saved, ?_, ?_, ?_, h.returned⟩
  · intro token t ht
    rw [(hget token t ht).1]
    rfl
  · intro token t ht
    rw [(hget token t ht).2]
    exact ⟨le_refl w.file, trivial⟩
  · intro c hc
    obtain rfl := Option.some.inj hc
    refine ⟨.started, ?_⟩
    rw [World.spawn, Table.get?_insert_nextRowid, if_pos rfl]

theorem Inv.processFile (h : Inv env reader file w) (now ingestStartedMs : ℤ) (statFails : Bool)
    (hok : Noticed w (.processFile now ingestStartedMs statFails)) :
    Inv env reader file (w.processFile now ingestStartedMs statFails) := by
  unfold World.processFile
  split
  · exact h.returns fun _ hseen => nomatch hseen
  · rename_i hbusy
    rw [Bool.not_eq_true] at hbusy
    have hidle := h.idle hbusy
    have hclear : ∀ memory : FileState, ∀ token t, w.tasks.get? token = some t →
        memory.inFlight = some token := by
      intro memory token t ht
      rw [hidle] at ht
      cases ht
    split
    · have hmemory := h.setMemory { w.memory with inFlight := none } h.memory (hclear _)
      exact hmemory.returns fun _ hseen => nomatch hseen
    · rename_i hcool
      have hmemory := h.setMemory { w.memory with inFlight := none, cooldownUntil := none }
        h.memory (hclear _)
      split
      · exact hmemory.returns fun _ hseen => nomatch hseen
      · rename_i hstat
        have hlooked := (hmemory.setMemory _ (observe_recorded _ (metadata w.file) hmemory.memory)
          (hclear _)).setOthers w.metaModified false
        dsimp only
        split
        · rename_i hread
          apply hlooked.returns
          intro seen hseen
          obtain rfl := Option.some.inj hseen
          apply h.covered_of_upToDate
          · rcases hok with hok | hok | hok | hok
            · rw [hbusy] at hok
              cases hok
            · exact absurd hok hcool
            · exact absurd hok hstat
            · exact hok
          · rw [← observe_upToDate_clear]
            exact hread
        · exact hlooked.spawn hidle ingestStartedMs

theorem Inv.extract (h : Inv env reader file w) {token : ℕ} {observation : Observation}
    {stage : Stage} (ht : w.tasks.get? token = some ⟨observation, stage⟩) (now : ℤ)
    (hgeneration : observation.seen.generation = w.file.generation) :
    Inv env reader file (w.setStage token (.extracted w.file now)) := by
  have hseen : observation.seen ≤ w.file := (h.tasks token _ ht).1
  refine ⟨h.stored, h.past, h.memory, h.saved, ?_, ?_, ?_, h.returned⟩
  · intro k t hk
    obtain ⟨t', ht', -⟩ := Table.eq_of_get?_modify hk
    exact h.owned k t' ht'
  · intro k t hk
    rw [World.setStage, Table.get?_modify] at hk
    split at hk
    · rename_i heq
      rw [heq, ht] at hk
      obtain rfl := Option.some.inj hk
      exact ⟨hseen, hseen, hgeneration, le_refl _, h.past⟩
    · exact h.tasks k t hk
  · intro c hc
    obtain ⟨stage', hstage'⟩ := h.call c hc
    rw [World.setStage, Table.get?_modify, hstage']
    split
    · exact ⟨_, rfl⟩
    · exact ⟨_, rfl⟩

theorem Inv.ingest (h : Inv env reader file w) {token : ℕ} {observation : Observation}
    {read : SessionLog} {now : ℤ}
    (ht : w.tasks.get? token = some ⟨observation, .extracted read now⟩) :
    Inv env reader file (w.ingest env reader file token read now) := by
  obtain ⟨hseen, hle, hgeneration, hread, hlast⟩ := h.tasks token _ ht
  refine ⟨h.stored.ingest now read, ?_, h.memory.cons hlast, ?_, ?_, ?_, ?_, ?_⟩
  · intro r hr
    obtain rfl : read = r := Option.some.inj hr
    exact hread
  · intro row hrow
    exact (h.saved row hrow).cons hlast
  · intro k t hk
    obtain ⟨t', ht', -⟩ := Table.eq_of_get?_modify hk
    exact h.owned k t' ht'
  · intro k t hk
    obtain ⟨t', ht', hmodified⟩ := Table.eq_of_get?_modify hk
    -- the only task is the one that has committed
    obtain rfl : token = k := by
      have hown := h.owned k t' ht'
      rw [h.owned token _ ht] at hown
      exact Option.some.inj hown
    rw [ht] at ht'
    obtain rfl := Option.some.inj ht'
    rcases hmodified with ⟨-, rfl⟩ | ⟨hne, -⟩
    · exact ⟨hseen, hle, hgeneration, rfl⟩
    · exact absurd rfl hne
  · intro c hc
    obtain ⟨stage', hstage'⟩ := h.call c hc
    rw [World.ingest, Table.get?_modify, hstage']
    split
    · exact ⟨_, rfl⟩
    · exact ⟨_, rfl⟩
  · intro seen hreturned
    exact (h.returned seen hreturned).imp_right fun hcovered => hcovered.cons hlast

/-- A task ends. What a waiting call does with the result is left to `hresult`. -/
theorem Inv.endTask (h : Inv env reader file w) {token : ℕ} {t : BlockingTask}
    (ht : w.tasks.get? token = some t) {result : Observation → World H γ → World H γ}
    (hresult : ∀ w' : World H γ, Inv env reader file w' → w'.history = w.history →
      (∀ k, w'.tasks.get? k = none) → Inv env reader file (result t.observation w')) :
    Inv env reader file (w.endTask token result) := by
  have hnone : ∀ k, (w.tasks.erase token).get? k = none := by
    intro k
    rw [Table.get?_erase]
    split
    · rfl
    · rename_i hne
      by_contra hrunning
      obtain ⟨t', ht'⟩ := Option.ne_none_iff_exists'.mp hrunning
      have hown := h.owned k t' ht'
      rw [h.owned token t ht] at hown
      exact hne (Option.some.inj hown).symm
  have hno : ∀ (inFlight : Option ℕ) (k : ℕ) (t' : BlockingTask),
      (w.tasks.erase token).get? k = some t' → inFlight = some k := by
    intro inFlight k t' ht'
    rw [hnone] at ht'
    cases ht'
  have hsound : ∀ (k : ℕ) (t' : BlockingTask), (w.tasks.erase token).get? k = some t' →
      t'.Sound w.file w.history.ingested := by
    intro k t' ht'
    rw [hnone] at ht'
    cases ht'
  unfold World.endTask
  split
  · rename_i c hc
    obtain ⟨stage, hstage⟩ := h.call c hc
    have htoken : c.token = token := by
      have hown := h.owned c.token _ hstage
      rw [h.owned token t ht] at hown
      exact (Option.some.inj hown).symm
    rw [if_pos htoken]
    rw [htoken, ht] at hstage
    obtain rfl := Option.some.inj hstage
    refine hresult _ ⟨h.stored, h.past, h.memory, h.saved, hno _, hsound, ?_, h.returned⟩ rfl hnone
    intro c' hc'
    cases hc'
  · rename_i hcall
    refine ⟨h.stored, h.past, h.memory, h.saved, hno _, hsound, ?_, h.returned⟩
    intro c hc
    rw [hcall] at hc
    cases hc

/-- The file as it was seen has been ingested when its task ends well. -/
theorem recorded_of_ingested {ingested : List SessionLog} {seen read : SessionLog}
    (hle : seen ≤ read) (hgeneration : seen.generation = read.generation)
    (hlast : ingested.head? = some read) : Recorded ingested seen.size seen.size seen where
  sizes := rfl
  content := Or.inr ⟨rfl, read, List.mem_of_mem_head? hlast,
    FileVersion.isPrefix_of_le hle hgeneration⟩
  covered := fun _ => ⟨read, hlast, hle⟩

theorem Inv.save (h : Inv env reader file w) {o : Observation}
    (ho : Recorded w.history.ingested o.seen.size o.seen.size o.seen) :
    Inv env reader file (w.save o) where
  stored := h.stored
  past := h.past
  memory := h.memory
  saved := by
    intro row hrow
    obtain rfl := Option.some.inj hrow
    exact ho
  owned := h.owned
  tasks := h.tasks
  call := h.call
  returned := h.returned

theorem Inv.succeeded (h : Inv env reader file w) {o : Observation}
    (ho : Recorded w.history.ingested o.seen.size o.seen.size o.seen)
    (hcovered : Covered w.history.ingested o.seen) (hidle : ∀ k, w.tasks.get? k = none) :
    Inv env reader file (World.succeeded o w) where
  stored := h.stored
  past := h.past
  memory := ho
  saved := h.saved
  owned := by
    intro k t hk
    rw [World.succeeded, World.returns, hidle] at hk
    cases hk
  tasks := h.tasks
  call := fun _ hc => nomatch hc
  returned := by
    intro seen hseen
    obtain rfl := Option.some.inj hseen
    exact Or.inr hcovered

theorem Inv.finish (h : Inv env reader file w) {token : ℕ} {o : Observation} {read : SessionLog}
    (ht : w.tasks.get? token = some ⟨o, .ingested read⟩) (saves : Bool) :
    Inv env reader file ((if saves then w.save o else w).endTask token World.succeeded) := by
  obtain ⟨hseen, hle, hgeneration, hlast⟩ := h.tasks token _ ht
  have ho := recorded_of_ingested hle hgeneration hlast
  have hcovered : Covered w.history.ingested o.seen := ⟨read, hlast, hle⟩
  split
  · apply (h.save ho).endTask ht
    intro w' hw' hhistory hidle
    have hingested : w'.history.ingested = w.history.ingested := by
      rw [hhistory]
      rfl
    rw [← hingested] at ho hcovered
    exact hw'.succeeded ho hcovered hidle
  · apply h.endTask ht
    intro w' hw' hhistory hidle
    rw [← hhistory] at ho hcovered
    exact hw'.succeeded ho hcovered hidle

theorem Inv.fail (h : Inv env reader file w) {token : ℕ} {t : BlockingTask}
    (ht : w.tasks.get? token = some t) (now : ℤ) :
    Inv env reader file (w.endTask token (World.failed now)) := by
  apply h.endTask ht
  intro w' hw' _ hidle
  have hmemory := hw'.setMemory (w'.memory.backOff now) hw'.memory hw'.owned
  exact hmemory.returns fun _ hseen => nomatch hseen

theorem Inv.restart (h : Inv env reader file w) : Inv env reader file w.restart where
  stored := h.stored
  past := h.past
  memory := by
    show Recorded _ (loadOffsets w.saved).byteOffset (loadOffsets w.saved).sizeAtLastRead _
    cases hsaved : w.saved with
    | none => exact Recorded.zero _ _
    | some row => exact h.saved row hsaved
  saved := h.saved
  owned := fun _ _ ht => nomatch ht
  tasks := fun _ _ ht => nomatch ht
  call := fun _ hc => nomatch hc
  returned := h.returned

theorem Inv.step (h : Inv env reader file w) {a : Action} {w' : World H γ} (hok : Noticed w a)
    (hstep : w.step env reader file a = some w') : Inv env reader file w' := by
  cases a with
  | append more =>
    obtain rfl := Option.some.inj hstep
    exact h.changeFile (w.file.le_append more)
  | truncate n =>
    obtain ⟨-, hsome⟩ := Option.ite_none_right_eq_some.mp hstep
    obtain rfl := Option.some.inj hsome
    exact (h.changeFile (w.file.le_truncate n)).setOthers w.metaModified true
  | replace id content =>
    obtain ⟨-, hsome⟩ := Option.ite_none_left_eq_some.mp hstep
    obtain rfl := Option.some.inj hsome
    exact h.changeFile (w.file.le_replace id content)
  | writeMeta ms =>
    obtain rfl := Option.some.inj hstep
    exact h.setOthers (some ms) w.history.truncated
  | metaEvent =>
    obtain ⟨-, hsome⟩ := Option.ite_none_left_eq_some.mp hstep
    obtain rfl := Option.some.inj hsome
    exact h.setMemory { w.memory with metaChanged := true } h.memory h.owned
  | processFile now ingestStartedMs statFails =>
    obtain ⟨-, hsome⟩ := Option.ite_none_left_eq_some.mp hstep
    obtain rfl := Option.some.inj hsome
    exact h.processFile now ingestStartedMs statFails hok
  | extract token now =>
    simp only [World.step] at hstep
    split at hstep
    · rename_i hstage
      obtain ⟨⟨observation, stage⟩, ht, rfl⟩ := Option.map_eq_some_iff.mp hstage
      obtain rfl := Option.some.inj hstep
      exact h.extract ht now (hok _ ht)
    · cases hstep
  | commit token =>
    simp only [World.step] at hstep
    split at hstep
    · rename_i read now hstage
      obtain ⟨⟨observation, stage⟩, ht, hread⟩ := Option.map_eq_some_iff.mp hstage
      obtain rfl : stage = .extracted read now := hread
      obtain rfl := Option.some.inj hstep
      exact h.ingest ht
    · cases hstep
  | finish token saves =>
    simp only [World.step] at hstep
    split at hstep
    · rename_i ht
      obtain rfl := Option.some.inj hstep
      exact h.finish ht saves
    · cases hstep
  | fail token now =>
    obtain ⟨hrunning, hsome⟩ := Option.ite_none_right_eq_some.mp hstep
    obtain rfl := Option.some.inj hsome
    obtain ⟨t, ht⟩ := Option.isSome_iff_exists.mp hrunning
    exact h.fail ht now
  | timeout now =>
    obtain ⟨-, hsome⟩ := Option.ite_none_right_eq_some.mp hstep
    obtain rfl := Option.some.inj hsome
    have hmemory := h.setMemory (w.memory.backOff now) h.memory h.owned
    exact hmemory.returns fun _ hseen => nomatch hseen
  | restart =>
    obtain rfl := Option.some.inj hstep
    exact h.restart

/-- What the watcher promises of the database: when the last call returned without an error, a
timeout, a cooldown or a task in flight, and the file is still as that call saw it, the database
holds its extraction. -/
def NoGrowthLost (env : Rendering H) (reader : TranscriptReader) (file : Claude.SessionFile)
    (w : World H γ) : Prop :=
  w.history.returned.bind Returned.seen? = some w.file → Holds env reader file w.db w.file

/-- What it promises of the offsets, in memory and saved. -/
def OffsetsIngested (w : World H γ) : Prop :=
  (w.memory.byteOffset = w.memory.sizeAtLastRead ∧
    SizeIngested w.history.ingested w.memory.byteOffset w.history.memoryFile) ∧
  ∀ row ∈ w.saved, row.byteOffset = row.sizeAtLastRead ∧
    SizeIngested w.history.ingested row.byteOffset w.history.savedFile

theorem Inv.noGrowthLost (h : Inv env reader file w) : NoGrowthLost env reader file w := by
  intro hreturned
  exact h.stored.holds_seen h.past (h.returned w.file hreturned)

theorem Inv.offsetsIngested (h : Inv env reader file w) : OffsetsIngested w :=
  ⟨⟨h.memory.sizes, h.memory.content⟩, fun row hrow => ⟨(h.saved row hrow).sizes,
    (h.saved row hrow).content⟩⟩

/-- **The watcher loses no growth** in a run of writes, calls, timeouts, failures and restarts in
which no call takes a rewritten file for the recorded one. -/
theorem no_growth_lost (env : Rendering H) (reader : TranscriptReader)
    (file : Claude.SessionFile) {db : AgenticDb H γ} (hdb : Absent file db) (log : SessionLog)
    (modified : Option ℕ) {w : World H γ}
    (hrun : Transition.Run (World.step env reader file) Noticed (World.init log modified db) w) :
    NoGrowthLost env reader file w ∧ OffsetsIngested w := by
  have hinv : Inv env reader file w :=
    hrun.invariant (fun _ _ _ h hok hstep => h.step hok hstep) (Inv.init hdb log modified)
  exact ⟨hinv.noGrowthLost, hinv.offsetsIngested⟩

end Invariant

section Instance

/-- The prompts "p" and "q". -/
def promptReader : TranscriptReader where
  parseJson := fun line => [
    ("a", claudeLine "user" "0" [("content", .string "p")]),
    ("b", claudeLine "user" "1" [("content", .string "q")])].lookup line
  render := fun _ => ""
  parseRfc3339 := fun _ => none
  parseUtc := fun ts => [("0", 60000), ("1", 120000)].lookup ts
  redact := id

/-- The session file with the line "a". -/
def promptLog : SessionLog where
  id := ⟨7, 1⟩
  content := [97, 10]

abbrev PromptWorld := World (List ToolCall × List String × String) ℕ

/-- The runs that the promise is about: a call after a truncation sees less than is recorded. -/
def TruncationsSeen (w : PromptWorld) : Action → Prop
  | .processFile now _ statFails => w.history.truncated →
    w.busy ∨ w.coolingDown now ∨ statFails ∨ w.file.size < w.memory.byteOffset
  | _ => True

instance (w : PromptWorld) (a : Action) : Decidable (TruncationsSeen w a) := by
  unfold TruncationsSeen
  split <;> infer_instance

/-- A call sees the file empty and starts its offset again, but only in memory. After a restart
the saved offset is loaded, and a new file of the recorded size looks read. -/
theorem regrown_file_lost : ¬ ∀ w : PromptWorld,
    Transition.Run (World.step plainContent promptReader repeatFile) TruncationsSeen
      (World.init promptLog none AgenticDb.empty) w →
    NoGrowthLost plainContent promptReader repeatFile w ∧ OffsetsIngested w := by
  intro hall
  obtain ⟨w, hrun, hreturned, hmissing⟩ :
      ∃ w : PromptWorld, Transition.Run (World.step plainContent promptReader repeatFile)
        TruncationsSeen (World.init promptLog none AgenticDb.empty) w ∧
        w.history.returned.bind Returned.seen? = some w.file ∧
        ¬ ∀ seg ∈ extractSegments plainContent promptReader 0 (readLines w.file.content),
          (seg.segmentIndex, some (seg.contentHash plainContent)) ∈ storedSegments w.db "s" :=
    Transition.exists_run_of_exec (l := [.processFile 0 0 false, .extract 1 0, .commit 1,
      .finish 1 true, .truncate 0, .processFile 1 1 false, .restart, .append [98, 10],
      .processFile 2 2 false]) (by decide +kernel)
  exact hmissing ((hall w hrun).1 hreturned 0)

/-- Without the restart the regrown file is ingested. -/
theorem regrown_file_ingested : ∃ w : PromptWorld,
    Transition.Run (World.step plainContent promptReader repeatFile) Noticed
      (World.init promptLog none AgenticDb.empty) w ∧
    w.history.returned = some (.ingested w.file) ∧ w.file.content = [98, 10] ∧
    NoGrowthLost plainContent promptReader repeatFile w ∧ OffsetsIngested w := by
  obtain ⟨w, hrun, hreturned, hcontent⟩ :
      ∃ w : PromptWorld, Transition.Run (World.step plainContent promptReader repeatFile) Noticed
        (World.init promptLog none AgenticDb.empty) w ∧
        w.history.returned = some (.ingested w.file) ∧ w.file.content = [98, 10] :=
    Transition.exists_run_of_exec (l := [.processFile 0 0 false, .extract 1 0, .commit 1,
      .finish 1 true, .truncate 0, .processFile 1 1 false, .append [98, 10],
      .processFile 2 2 false, .extract 1 0, .commit 1, .finish 1 true]) (by decide +kernel)
  exact ⟨w, hrun, hreturned, hcontent,
    no_growth_lost plainContent promptReader repeatFile (absent_empty repeatFile) promptLog none
      hrun⟩

end Instance

end Hippo.ClaudeWatcher
