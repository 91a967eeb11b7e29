import Hippo.ClaudeContent

/-!
# Ingest and verification of a growing Claude transcript

Segments are upserted by their index and never deleted. The verification compares what is stored
for a file with a fresh extraction, so it fails where the collapse drops a segment that an
earlier ingest has stored.
-/
namespace Hippo.Claude

/-- A transcript file and the session id its name gives. -/
structure SessionFile where
  sessionId : String
  sourceFile : String

section Ingest

variable {H γ : Type} [DecidableEq H]

/-- `ingest_session_file`. -/
def ingestSessionFile (env : Rendering H) (reader : TranscriptReader) (now : ℤ)
    (file : SessionFile) (db : AgenticDb H γ) (lines : List String) : AgenticDb H γ :=
  db.insertSegmentsWithFacts env ((extractSegments env reader now lines).map
    (Segment.toSession file.sessionId file.sourceFile))

/-- `session_file_matches_db`: whether the file's segments are the stored ones, and the newest
end time among them. -/
def sessionFileMatchesDb (env : Rendering H) (reader : TranscriptReader) (now : ℤ)
    (file : SessionFile) (db : AgenticDb H γ) (lines : List String) : Bool × Option ℤ :=
  let segments := extractSegments env reader now lines
  let stored := Table.collect ((db.sessions.select fun _ r =>
    r.sourceFile = file.sourceFile ∧ r.harness = .claudeCode ∧ r.probeTag = none).map
      fun e => (e.2.segmentIndex, e.2.contentHash))
  let agree := stored.entries.length = segments.length && segments.all fun seg =>
    (stored.get? seg.segmentIndex).join = some (seg.contentHash env)
  (agree, (segments.map fun seg => seg.endTime).max?)

end Ingest

section Stored

variable {H γ : Type}

/-- The rows of a session. -/
def sessionRows (db : AgenticDb H γ) (sessionId : String) : List (ℕ × AgenticSession H) :=
  db.sessions.select fun _ r => r.sessionId = sessionId ∧ r.harness = .claudeCode

/-- The indices and content hashes stored for a session. -/
def storedSegments (db : AgenticDb H γ) (sessionId : String) : List (ℤ × Option H) :=
  (sessionRows db sessionId).map fun e => (e.2.segmentIndex, e.2.contentHash)

/-- Hashes under consecutive indices. -/
def indexed (hashes : List H) : List (ℤ × Option H) :=
  hashes.mapIdx fun i hash => ((i : ℤ), some hash)

@[simp] theorem length_indexed (hashes : List H) : (indexed hashes).length = hashes.length :=
  List.length_mapIdx

theorem indexed_append (hashes : List H) (hash : H) :
    indexed (hashes ++ [hash]) = indexed hashes ++ [((hashes.length : ℤ), some hash)] :=
  List.mapIdx_concat

theorem map_fst_indexed (hashes : List H) :
    (indexed hashes).map Prod.fst = (List.range hashes.length).map Int.ofNat := by
  ext1 j
  simp only [indexed, List.getElem?_map, List.getElem?_mapIdx]
  by_cases hj : j < hashes.length <;> simp [hj]

theorem mem_indexed {hashes : List H} {k : ℕ} {hash : H} :
    ((k : ℤ), some hash) ∈ indexed hashes ↔ hashes[k]? = some hash := by
  rw [indexed, List.mem_mapIdx]
  constructor
  · rintro ⟨i, hi, heq⟩
    obtain ⟨hik, hhash⟩ := Prod.mk.inj heq
    obtain rfl : i = k := Int.ofNat.inj hik
    rw [List.getElem?_eq_getElem hi, Option.some.inj hhash]
  · intro h
    obtain ⟨hk, rfl⟩ := List.getElem?_eq_some_iff.mp h
    exact ⟨k, hk, rfl⟩

theorem nodup_indexed (hashes : List H) : ((indexed hashes).map Prod.fst).Nodup := by
  rw [map_fst_indexed]
  exact List.nodup_range.map fun _ _ h => Int.ofNat.inj h

/-- Replacing the hash under an index. -/
theorem indexed_set (hashes : List H) (k : ℕ) (hash : H) :
    (indexed hashes).map (fun e : ℤ × Option H => (e.1, if e.1 = k then some hash else e.2)) =
      indexed (hashes.set k hash) := by
  ext1 j
  simp only [indexed, List.getElem?_map, List.getElem?_mapIdx, List.getElem?_set]
  by_cases hj : k = j
  · subst hj
    by_cases hk : k < hashes.length <;> simp [hk]
  · have hj' : ¬ (j : ℤ) = k := by omega
    cases hashes[j]? <;> simp [hj, hj']

/-- The upsert looks for a row of the session with the segment's index. -/
theorem prior_none {env : Rendering H} {db : AgenticDb H γ} {seg : SessionSegment} :
    (claudeUpsert env seg).prior db = none ↔
      ∀ e ∈ storedSegments db seg.sessionId, e.1 ≠ seg.segmentIndex := by
  simp only [Upsert.prior, AgenticDb.prior?, Option.map_eq_none_iff, List.find?_eq_none,
    storedSegments, sessionRows, Table.select, List.forall_mem_map, List.mem_filter,
    decide_eq_true_eq]
  constructor
  · intro h e he hindex
    exact h e he.1 ⟨he.2.1, he.2.2, hindex⟩
  · intro h e he hkey
    exact h e ⟨he, hkey.1, hkey.2.1⟩ hkey.2.2

theorem prior_some {env : Rendering H} {db : AgenticDb H γ} {seg : SessionSegment}
    {p : AgenticDb.Prior H} (hprior : (claudeUpsert env seg).prior db = some p) :
    ∃ row ∈ sessionRows db seg.sessionId,
      row.1 = p.id ∧ row.2.segmentIndex = seg.segmentIndex := by
  obtain ⟨row, hrow, rfl⟩ := Option.map_eq_some_iff.mp hprior
  have hkey := List.find?_some hrow
  simp only [decide_eq_true_eq] at hkey
  have hmem : row ∈ sessionRows db seg.sessionId :=
    List.mem_filter.mpr ⟨List.mem_of_find?_eq_some hrow, decide_eq_true ⟨hkey.1, hkey.2.1⟩⟩
  exact ⟨row, hmem, rfl, hkey.2.2⟩

variable [DecidableEq H]

theorem apply_sessions (u : Upsert H) (db : AgenticDb H γ) :
    (u.apply db).sessions = (u.writeRow db).sessions := by
  unfold Upsert.apply
  split
  · exact AgenticDb.enqueue_sessions _ _
  · rfl

/-- A first version of a segment is stored after the others. -/
theorem storedSegments_insert {env : Rendering H} {db : AgenticDb H γ} {seg : SessionSegment}
    (hnew : (claudeUpsert env seg).prior db = none) :
    storedSegments ((claudeUpsert env seg).apply db) seg.sessionId =
      storedSegments db seg.sessionId ++ [(seg.segmentIndex, some (seg.contentHash env))] := by
  have hentries : ((claudeUpsert env seg).apply db).sessions.entries =
      db.sessions.entries ++ [(db.sessions.nextRowid, (claudeUpsert env seg).new)] := by
    rw [apply_sessions, Upsert.writeRow, hnew]
    exact Table.entries_insert (Table.get?_nextRowid _) _
  rw [storedSegments, sessionRows, Table.select, hentries, List.filter_append, List.map_append]
  simp [storedSegments, sessionRows, Table.select, claudeUpsert, SessionSegment.row]

/-- A later version replaces the hash in its place. -/
theorem storedSegments_refresh {env : Rendering H} {db : AgenticDb H γ} {seg : SessionSegment}
    {p : AgenticDb.Prior H} (hnodup : ((storedSegments db seg.sessionId).map Prod.fst).Nodup)
    (hprior : (claudeUpsert env seg).prior db = some p) :
    storedSegments ((claudeUpsert env seg).apply db) seg.sessionId =
      (storedSegments db seg.sessionId).map fun e =>
        (e.1, if e.1 = seg.segmentIndex then some (seg.contentHash env) else e.2) := by
  obtain ⟨row, hrow, hid, hindex⟩ := prior_some hprior
  have hentries : ((claudeUpsert env seg).apply db).sessions.entries =
      db.sessions.entries.map fun e =>
        (e.1, if e.1 = p.id then (claudeUpsert env seg).refresh e.2 else e.2) := by
    rw [apply_sessions, Upsert.writeRow, hprior]
    rfl
  have hsame : ∀ e ∈ sessionRows db seg.sessionId,
      e.1 = p.id ↔ e.2.segmentIndex = seg.segmentIndex := by
    intro e he
    constructor
    · intro heid
      have hkeys : (db.sessions.entries.map Prod.fst).Nodup := db.sessions.nodup
      rw [List.inj_on_of_nodup_map hkeys (List.mem_filter.mp he).1 (List.mem_filter.mp hrow).1
        (heid.trans hid.symm), hindex]
    · intro heindex
      rw [storedSegments, List.map_map] at hnodup
      rw [List.inj_on_of_nodup_map hnodup he hrow (heindex.trans hindex.symm), hid]
  rw [storedSegments, sessionRows, Table.select, hentries, List.filter_map, List.map_map,
    storedSegments, List.map_map]
  have hfilter : ∀ e : ℕ × AgenticSession H,
      (decide ((if e.1 = p.id then (claudeUpsert env seg).refresh e.2 else e.2).sessionId =
          seg.sessionId ∧
        (if e.1 = p.id then (claudeUpsert env seg).refresh e.2 else e.2).harness = .claudeCode)) =
      decide (e.2.sessionId = seg.sessionId ∧ e.2.harness = .claudeCode) := by
    intro e
    split <;> rfl
  simp only [Function.comp_def, hfilter]
  apply List.map_congr_left
  intro e he
  by_cases heid : e.1 = p.id
  · rw [if_pos heid, if_pos ((hsame e he).mp heid)]
    rfl
  · rw [if_neg heid, if_neg fun hk => heid ((hsame e he).mpr hk)]

/-- One upsert of a session whose segments are stored under consecutive indices. -/
theorem storedSegments_upsert (env : Rendering H) {db : AgenticDb H γ} {seg : SessionSegment}
    {hashes : List H} {k : ℕ} (h : storedSegments db seg.sessionId = indexed hashes)
    (hindex : seg.segmentIndex = k) (hk : k ≤ hashes.length) :
    storedSegments ((claudeUpsert env seg).apply db) seg.sessionId =
      indexed (hashes.take k ++ seg.contentHash env :: hashes.drop (k + 1)) := by
  by_cases hlast : k = hashes.length
  · have hnew : (claudeUpsert env seg).prior db = none := by
      rw [prior_none, h, hindex]
      intro e he hek
      obtain ⟨i, hi, rfl⟩ := List.mem_mapIdx.mp he
      have hik : (i : ℤ) = k := hek
      omega
    rw [storedSegments_insert hnew, h, hindex, hlast, List.take_length,
      List.drop_eq_nil_of_le (Nat.le_succ _), indexed_append]
  · have hk' : k < hashes.length := by omega
    have hold : (claudeUpsert env seg).prior db ≠ none := by
      rw [Ne, prior_none, h, hindex]
      intro hnone
      exact hnone ((k : ℤ), some hashes[k]) (List.mem_mapIdx.mpr ⟨k, hk', rfl⟩) rfl
    obtain ⟨p, hprior⟩ := Option.ne_none_iff_exists'.mp hold
    rw [storedSegments_refresh (by rw [h]; exact nodup_indexed hashes) hprior, h, hindex,
      indexed_set, List.set_eq_take_append_cons_drop, if_pos hk']

/-- An ingest stores its segments in their places and leaves those behind them. -/
theorem storedSegments_insertSegments (env : Rendering H) {db : AgenticDb H γ} {sessionId : String}
    {old : List H} (h : storedSegments db sessionId = indexed old) (segments : List SessionSegment)
    (hsession : ∀ seg ∈ segments, seg.sessionId = sessionId)
    (hindex : segments.map SessionSegment.segmentIndex =
      (List.range segments.length).map Int.ofNat) :
    storedSegments (db.insertSegmentsWithFacts env segments) sessionId =
      indexed (segments.map (SessionSegment.contentHash env) ++ old.drop segments.length) := by
  induction segments using List.reverseRecOn with
  | nil => simpa [AgenticDb.insertSegmentsWithFacts] using h
  | append_singleton segments seg ih =>
    rw [List.map_append, List.length_append, List.length_singleton, List.range_succ,
      List.map_append] at hindex
    obtain ⟨hfront, hlast⟩ := List.append_inj hindex (by simp)
    have hseg : seg.segmentIndex = (segments.length : ℤ) := by simpa using hlast
    have hstored := ih (fun a ha => hsession a (List.mem_append_left _ ha)) hfront
    obtain rfl : seg.sessionId = sessionId := hsession seg (by simp)
    have hupsert := storedSegments_upsert env hstored hseg (by simp)
    have htake : (segments.map (SessionSegment.contentHash env) ++
        old.drop segments.length).take segments.length =
          segments.map (SessionSegment.contentHash env) := by
      rw [List.take_left' (List.length_map _)]
    have hdrop : (segments.map (SessionSegment.contentHash env) ++
        old.drop segments.length).drop (segments.length + 1) = old.drop (segments.length + 1) := by
      rw [List.drop_append, List.drop_eq_nil_of_le (by simp), List.nil_append, List.drop_drop,
        List.length_map, Nat.add_sub_cancel_left]
    rw [htake, hdrop] at hupsert
    rw [AgenticDb.insertSegmentsWithFacts, List.foldl_append, List.map_append, List.map_singleton,
      List.append_assoc, List.singleton_append, List.length_append, List.length_singleton]
    exact hupsert

/-- The rows of a session are the stored rows of its file. -/
def OwnRows (file : SessionFile) (db : AgenticDb H γ) : Prop :=
  ∀ i r, db.sessions.get? i = some r → r.harness = .claudeCode →
    (r.sessionId = file.sessionId ↔ r.sourceFile = file.sourceFile ∧ r.probeTag = none)

theorem OwnRows.upsert {file : SessionFile} {db : AgenticDb H γ} (h : OwnRows file db)
    (env : Rendering H) {seg : SessionSegment} (hsession : seg.sessionId = file.sessionId)
    (hsource : seg.sourceFile = file.sourceFile) :
    OwnRows file ((claudeUpsert env seg).apply db) := by
  intro i r hr hharness
  rw [Upsert.apply_sessions_get?] at hr
  split at hr
  · cases hold : db.sessions.get? i with
    | none =>
      rw [hold] at hr
      obtain rfl : (claudeUpsert env seg).new = r := by simpa using hr
      exact iff_of_true hsession ⟨hsource, rfl⟩
    | some old =>
      rw [hold] at hr
      obtain rfl : (claudeUpsert env seg).refresh old = r := by simpa using hr
      exact h i old hold hharness
  · exact h i r hr hharness

theorem OwnRows.insertSegments {file : SessionFile} {db : AgenticDb H γ} (h : OwnRows file db)
    (env : Rendering H) {segments : List SessionSegment}
    (hsegments : ∀ seg ∈ segments,
      seg.sessionId = file.sessionId ∧ seg.sourceFile = file.sourceFile) :
    OwnRows file (db.insertSegmentsWithFacts env segments) := by
  unfold AgenticDb.insertSegmentsWithFacts
  induction segments generalizing db with
  | nil => exact h
  | cons seg segments ih =>
    obtain ⟨hseg, hrest⟩ := List.forall_mem_cons.mp hsegments
    exact ih (h.upsert env hseg.1 hseg.2) hrest

omit [DecidableEq H] in
/-- The verification's `SELECT` finds the rows of the session. -/
theorem OwnRows.select {file : SessionFile} {db : AgenticDb H γ} (h : OwnRows file db) :
    (db.sessions.select fun _ r => r.sourceFile = file.sourceFile ∧ r.harness = .claudeCode ∧
      r.probeTag = none) = sessionRows db file.sessionId := by
  apply List.filter_congr
  intro e he
  have hrow := h e.1 e.2 (Table.get?_eq_some.mpr he)
  by_cases hharness : e.2.harness = .claudeCode
  · simp [hharness, hrow hharness]
  · simp [hharness]

end Stored

section Extraction

variable {H : Type} [DecidableEq H]

/-- The content hash of a segment reads its content. -/
def hashContent (env : Rendering H) (c : FinishedContent) : H :=
  env.segmentHash c.toolCalls c.userPrompts ("\n".intercalate c.assistantTexts)

/-- The contents of the extracted segments. -/
def extractedContents (env : Rendering H) (reader : TranscriptReader) (lines : List String) :
    List FinishedContent :=
  collapseAdjacentIdenticalSegments (hashContent env) (rawContents reader lines)

variable {env : Rendering H} {reader : TranscriptReader}

theorem map_content_extractSegments (now : ℤ) (lines : List String) :
    (extractSegments env reader now lines).map Segment.content =
      extractedContents env reader lines := by
  rw [extractedContents, ← map_content_rawSegments reader now]
  exact collapse_map (hashContent env) Segment.content _

theorem map_hash_extractSegments (now : ℤ) (lines : List String) :
    (extractSegments env reader now lines).map (Segment.contentHash env) =
      (extractedContents env reader lines).map (hashContent env) := by
  rw [← map_content_extractSegments now, List.map_map]
  rfl

theorem length_extractSegments (now : ℤ) (lines : List String) :
    (extractSegments env reader now lines).length =
      (extractedContents env reader lines).length := by
  rw [← map_content_extractSegments now, List.length_map]

theorem extractSegments_positions (env : Rendering H) (reader : TranscriptReader) (now : ℤ)
    (lines : List String) :
    (extractSegments env reader now lines).map (fun seg => seg.segmentIndex) =
      (List.range (extractSegments env reader now lines).length).map Int.ofNat := by
  have hraw : (extractSegments env reader now lines).map (fun seg => seg.segmentIndex) <+:
      (rawContents reader lines).map FinishedContent.segmentIndex := by
    rw [← map_content_rawSegments reader now, List.map_map]
    exact (collapse_isPrefix _ _).map _
  rw [rawContents_positions] at hraw
  have htake := List.prefix_iff_eq_take.mp hraw
  rw [List.length_map, ← List.map_take, List.take_range] at htake
  have hle := hraw.length_le
  simp only [List.length_map, List.length_range] at hle
  rw [htake, Nat.min_eq_left hle]

theorem indexed_extractSegments (env : Rendering H) (reader : TranscriptReader) (now : ℤ)
    (lines : List String) :
    indexed ((extractedContents env reader lines).map (hashContent env)) =
      (extractSegments env reader now lines).map fun seg =>
        (seg.segmentIndex, some (seg.contentHash env)) := by
  rw [← map_hash_extractSegments now]
  ext1 j
  have hj := congrArg (fun l => l[j]?) (extractSegments_positions env reader now lines)
  simp only [List.getElem?_map] at hj
  simp only [indexed, List.getElem?_mapIdx, List.getElem?_map]
  cases hseg : (extractSegments env reader now lines)[j]? with
  | none => rfl
  | some seg =>
    have hlt := (List.getElem?_eq_some_iff.mp hseg).1
    rw [hseg, List.getElem?_range hlt] at hj
    have hindex : seg.segmentIndex = (j : ℤ) := by simpa using hj
    simp [hindex]

end Extraction

section Verification

variable {H γ : Type} [DecidableEq H] {env : Rendering H} {reader : TranscriptReader}
  {file : SessionFile} {db : AgenticDb H γ} {lines : List String}

theorem storedSegments_ingest (now : ℤ) {old : List H}
    (h : storedSegments db file.sessionId = indexed old) :
    storedSegments (ingestSessionFile env reader now file db lines) file.sessionId =
      indexed ((extractedContents env reader lines).map (hashContent env) ++
        old.drop (extractedContents env reader lines).length) := by
  have hsession : ∀ seg ∈ (extractSegments env reader now lines).map
      (Segment.toSession file.sessionId file.sourceFile), seg.sessionId = file.sessionId := by
    simp [Segment.toSession, TranscriptSegment.toSession]
  have hindex : ((extractSegments env reader now lines).map
      (Segment.toSession file.sessionId file.sourceFile)).map SessionSegment.segmentIndex =
        (List.range ((extractSegments env reader now lines).map
          (Segment.toSession file.sessionId file.sourceFile)).length).map Int.ofNat := by
    rw [List.map_map, List.length_map]
    exact extractSegments_positions env reader now lines
  have hstored := storedSegments_insertSegments env h _ hsession hindex
  rw [List.map_map, List.length_map, length_extractSegments] at hstored
  rw [← map_hash_extractSegments now]
  exact hstored

theorem OwnRows.ingest (h : OwnRows file db) (now : ℤ) (lines : List String) :
    OwnRows file (ingestSessionFile env reader now file db lines) := by
  apply h.insertSegments
  simp [Segment.toSession, TranscriptSegment.toSession]

/-- The verification succeeds exactly when the stored hashes are those of the extraction. -/
theorem matches_iff (now : ℤ) (hown : OwnRows file db) {stored : List H}
    (h : storedSegments db file.sessionId = indexed stored) :
    (sessionFileMatchesDb env reader now file db lines).1 = true ↔
      stored = (extractedContents env reader lines).map (hashContent env) := by
  have hentries : (Table.collect (storedSegments db file.sessionId)).entries = indexed stored := by
    rw [Table.entries_collect (by rw [h]; exact nodup_indexed stored), h]
  have hget : ∀ (k : ℕ) (hash : H),
      ((Table.collect (storedSegments db file.sessionId)).get? k).join = some hash ↔
        stored[k]? = some hash := by
    intro k hash
    rw [← mem_indexed, ← hentries, ← Table.get?_eq_some, Option.join_eq_some_iff]
  have hposition : ∀ i (hi : i < (extractSegments env reader now lines).length),
      (extractSegments env reader now lines)[i].segmentIndex = (i : ℤ) := by
    intro i hi
    have hi' := congrArg (fun l => l[i]?) (extractSegments_positions env reader now lines)
    simpa [hi] using hi'
  have hall : (∀ seg ∈ extractSegments env reader now lines,
      ((Table.collect (storedSegments db file.sessionId)).get? seg.segmentIndex).join =
        some (seg.contentHash env)) ↔
      ∀ i (hi : i < (extractSegments env reader now lines).length),
        stored[i]? = some ((extractSegments env reader now lines)[i].contentHash env) := by
    simp only [List.forall_mem_iff_forall_getElem, hposition, hget]
  have hmatches : (sessionFileMatchesDb env reader now file db lines).1 = true ↔
      (Table.collect (storedSegments db file.sessionId)).entries.length =
        (extractSegments env reader now lines).length ∧
      ∀ seg ∈ extractSegments env reader now lines,
        ((Table.collect (storedSegments db file.sessionId)).get? seg.segmentIndex).join =
          some (seg.contentHash env) := by
    simp only [sessionFileMatchesDb, hown.select, Bool.and_eq_true, decide_eq_true_eq,
      List.all_eq_true]
    rfl
  rw [hmatches, hall, hentries, length_indexed, ← map_hash_extractSegments now]
  constructor
  · rintro ⟨hlength, hhashes⟩
    apply List.ext_getElem (by rw [hlength, List.length_map])
    intro i hi hi'
    have hhash := hhashes i (by omega)
    rw [List.getElem?_eq_getElem hi] at hhash
    rw [List.getElem_map]
    exact Option.some.inj hhash
  · intro heq
    subst heq
    refine ⟨List.length_map _, fun i hi => ?_⟩
    rw [List.getElem?_map, List.getElem?_eq_getElem hi, Option.map_some]

end Verification

section Growth

variable {H γ : Type} [DecidableEq H]

/-- The file grows by some lines and is ingested, at a time. -/
def growAndIngest (env : Rendering H) (reader : TranscriptReader) (file : SessionFile)
    (s : AgenticDb H γ × List String) (growth : ℤ × List String) : AgenticDb H γ × List String :=
  (ingestSessionFile env reader growth.1 file s.1 (s.2 ++ growth.2), s.2 ++ growth.2)

/-- The database and the lines of the file after some growths. -/
def grown (env : Rendering H) (reader : TranscriptReader) (file : SessionFile)
    (db : AgenticDb H γ) (growths : List (ℤ × List String)) : AgenticDb H γ × List String :=
  growths.foldl (growAndIngest env reader file) (db, [])

/-- The verification reports a match whenever it runs, and the stored segments are those of a
fresh extraction. -/
def Verified (env : Rendering H) (reader : TranscriptReader) (file : SessionFile)
    (s : AgenticDb H γ × List String) : Prop :=
  ∀ now, (sessionFileMatchesDb env reader now file s.1 s.2).1 = true ∧
    storedSegments s.1 file.sessionId = (extractSegments env reader now s.2).map fun seg =>
      (seg.segmentIndex, some (seg.contentHash env))

/-- The database has no segment of the session. -/
def Absent (file : SessionFile) (db : AgenticDb H γ) : Prop :=
  ∀ i r, db.sessions.get? i = some r → r.harness = .claudeCode →
    r.sessionId ≠ file.sessionId ∧ ¬ (r.sourceFile = file.sourceFile ∧ r.probeTag = none)

omit [DecidableEq H] in
theorem storedSegments_of_absent {file : SessionFile} {db : AgenticDb H γ}
    (hdb : Absent file db) : storedSegments db file.sessionId = [] := by
  have hnone : sessionRows db file.sessionId = [] := by
    apply List.filter_eq_nil_iff.mpr
    intro e he hrow
    have hrow' := of_decide_eq_true hrow
    exact (hdb e.1 e.2 (Table.get?_eq_some.mpr he) hrow'.2).1 hrow'.1
  rw [storedSegments, hnone, List.map_nil]

/-- The collapse reaches a segment that was extracted before: from its predecessor on, all
segments of the grown file have one content hash. -/
def CollapsesStored (env : Rendering H) (reader : TranscriptReader) (before after : List String) :
    Prop :=
  ∃ i, i + 1 < (extractedContents env reader before).length ∧
    ∀ a ∈ (rawContents reader after).drop i, ∀ b ∈ (rawContents reader after).drop i,
      hashContent env a = hashContent env b

variable {env : Rendering H} {reader : TranscriptReader} {file : SessionFile}

/-- An extraction gets shorter only where the collapse reaches an extracted segment. -/
theorem collapsesStored_iff (before more : List String) :
    CollapsesStored env reader before (before ++ more) ↔
      (extractedContents env reader (before ++ more)).length <
        (extractedContents env reader before).length := by
  have hraw : (extractedContents env reader before).length ≤
      (rawContents reader (before ++ more)).length :=
    (collapse_isPrefix _ _).length_le.trans (length_rawContents_append reader before more)
  constructor
  · rintro ⟨i, hi, hsame⟩
    have hcollapsed := (length_collapse_le_iff (hashContent env)
      (rawContents reader (before ++ more)) (by omega)).mpr hsame
    unfold extractedContents at hi ⊢
    omega
  · intro hshort
    have hpos : 0 < (extractedContents env reader (before ++ more)).length := by
      apply List.length_pos_of_ne_nil
      exact collapse_ne_nil _ (List.ne_nil_of_length_pos (by omega))
    refine ⟨(extractedContents env reader (before ++ more)).length - 1, by omega, ?_⟩
    apply (length_collapse_le_iff (hashContent env) (rawContents reader (before ++ more))
      (by omega)).mp
    rw [Nat.sub_add_cancel hpos]
    exact le_rfl

/-- An ingest stores the extraction and leaves what was stored behind it. -/
theorem stored_growAndIngest {s : AgenticDb H γ × List String}
    (hstored : storedSegments s.1 file.sessionId =
      indexed ((extractedContents env reader s.2).map (hashContent env)))
    (growth : ℤ × List String) :
    storedSegments (growAndIngest env reader file s growth).1 file.sessionId =
      indexed ((extractedContents env reader (s.2 ++ growth.2)).map (hashContent env) ++
        ((extractedContents env reader s.2).map (hashContent env)).drop
          (extractedContents env reader (s.2 ++ growth.2)).length) :=
  storedSegments_ingest growth.1 hstored

/-- Nothing is left behind exactly when the collapse reaches no stored segment. -/
theorem left_behind_iff (before more : List String) :
    ((extractedContents env reader before).map (hashContent env)).drop
        (extractedContents env reader (before ++ more)).length = [] ↔
      ¬ CollapsesStored env reader before (before ++ more) := by
  rw [List.drop_eq_nil_iff, List.length_map, collapsesStored_iff, Nat.not_lt]

/-- A growth of a file that was stored as extracted. -/
theorem verified_growAndIngest {s : AgenticDb H γ × List String} (hown : OwnRows file s.1)
    (hstored : storedSegments s.1 file.sessionId =
      indexed ((extractedContents env reader s.2).map (hashContent env)))
    (growth : ℤ × List String) :
    Verified env reader file (growAndIngest env reader file s growth) ↔
      ¬ CollapsesStored env reader s.2 (s.2 ++ growth.2) := by
  have hown' : OwnRows file (growAndIngest env reader file s growth).1 :=
    hown.ingest growth.1 (s.2 ++ growth.2)
  have hstored' := stored_growAndIngest hstored growth
  rw [← left_behind_iff]
  constructor
  · intro h
    have hmatch := (matches_iff 0 hown' hstored').mp (h 0).1
    exact List.append_right_eq_self.mp hmatch
  · intro hnone now
    rw [hnone, List.append_nil] at hstored'
    refine ⟨(matches_iff now hown' hstored').mpr rfl, ?_⟩
    rw [hstored', indexed_extractSegments env reader now]
    rfl

/-- Nothing stored was collapsed in any growth. -/
def NothingCollapsed (env : Rendering H) (reader : TranscriptReader)
    (growths : List (ℤ × List String)) : Prop :=
  ∀ past growth, past ++ [growth] <+: growths →
    ¬ CollapsesStored env reader (past.flatMap Prod.snd) ((past ++ [growth]).flatMap Prod.snd)

theorem grown_append (db : AgenticDb H γ) (growths : List (ℤ × List String))
    (growth : ℤ × List String) : grown env reader file db (growths ++ [growth]) =
      growAndIngest env reader file (grown env reader file db growths) growth := by
  rw [grown, List.foldl_append]
  rfl

theorem grown_snd (db : AgenticDb H γ) (growths : List (ℤ × List String)) :
    (grown env reader file db growths).2 = growths.flatMap Prod.snd := by
  induction growths using List.reverseRecOn with
  | nil => rfl
  | append_singleton growths growth ih =>
    rw [grown_append, List.flatMap_append, ← ih]
    simp [growAndIngest]

/-- While nothing stored is collapsed, the stored segments are the extracted ones. -/
theorem stored_of_nothingCollapsed {db : AgenticDb H γ} (hdb : Absent file db)
    {growths : List (ℤ × List String)} (h : NothingCollapsed env reader growths) :
    OwnRows file (grown env reader file db growths).1 ∧
      storedSegments (grown env reader file db growths).1 file.sessionId =
        indexed ((extractedContents env reader (growths.flatMap Prod.snd)).map
          (hashContent env)) := by
  induction growths using List.reverseRecOn with
  | nil =>
    refine ⟨fun i r hr hharness => ?_, ?_⟩
    · exact iff_of_false (hdb i r hr hharness).1 (hdb i r hr hharness).2
    · exact storedSegments_of_absent hdb
  | append_singleton growths growth ih =>
    have hbefore : NothingCollapsed env reader growths := fun past g hpast =>
      h past g (hpast.trans (List.prefix_append _ _))
    obtain ⟨hown, hstored⟩ := ih hbefore
    rw [← grown_snd db growths] at hstored
    have hlast := h growths growth List.prefix_rfl
    have hstored' := stored_growAndIngest hstored growth
    have hleft := (left_behind_iff (grown env reader file db growths).2 growth.2).mpr (by
      rw [grown_snd]
      simpa [List.flatMap_append] using hlast)
    rw [hleft, List.append_nil, grown_snd] at hstored'
    rw [grown_append, List.flatMap_append]
    refine ⟨hown.ingest _ _, ?_⟩
    simpa using hstored'

/-- Every ingest of a growing file is followed by a verification that succeeds exactly when no
growth makes the collapse reach a stored segment. -/
theorem verified_iff_nothingCollapsed (env : Rendering H) (reader : TranscriptReader)
    (file : SessionFile) {db : AgenticDb H γ} (hdb : Absent file db)
    (growths : List (ℤ × List String)) :
    (∀ past, past ≠ [] → past <+: growths →
      Verified env reader file (grown env reader file db past)) ↔
      NothingCollapsed env reader growths := by
  have hstep : ∀ past growth, NothingCollapsed env reader past →
      (Verified env reader file (grown env reader file db (past ++ [growth])) ↔
        ¬ CollapsesStored env reader (past.flatMap Prod.snd)
          ((past ++ [growth]).flatMap Prod.snd)) := by
    intro past growth hpast
    obtain ⟨hown, hstored⟩ := stored_of_nothingCollapsed hdb hpast
    rw [← grown_snd db past] at hstored
    have hgrowth := verified_growAndIngest hown hstored growth
    rw [grown_snd] at hgrowth
    rw [grown_append, List.flatMap_append]
    simpa using hgrowth
  constructor
  · intro h
    induction growths using List.reverseRecOn with
    | nil =>
      intro past growth hpast
      simp at hpast
    | append_singleton growths growth ih =>
      have hfront := ih fun past hne hpast => h past hne (hpast.trans (List.prefix_append _ _))
      intro past growth' hpast
      rcases List.prefix_concat_iff.mp hpast with heq | hpast
      · obtain ⟨rfl, hgrowth⟩ := List.append_inj' heq rfl
        obtain rfl : growth' = growth := List.singleton_inj.mp hgrowth
        exact (hstep past growth' hfront).mp (h _ (by simp) List.prefix_rfl)
      · exact hfront past growth' hpast
  · intro h past hne hpast
    obtain ⟨front, growth, rfl⟩ := (List.eq_nil_or_concat past).resolve_left hne
    rw [List.concat_eq_append] at hpast ⊢
    have hfront : NothingCollapsed env reader front := fun before g hbefore =>
      h before g (hbefore.trans ((List.prefix_append _ _).trans hpast))
    exact (hstep front growth hfront).mpr (h front growth hpast)

end Growth

section Instance

/-- The prompts "p" and "q", the same again after a pause. -/
def repeatReader : TranscriptReader where
  parseJson := fun line => [
    ("a", claudeLine "user" "0" [("content", .string "p")]),
    ("b", claudeLine "user" "1" [("content", .string "q")]),
    ("c", claudeLine "user" "10" [("content", .string "p")]),
    ("d", claudeLine "user" "11" [("content", .string "q")])].lookup line
  render := fun _ => ""
  parseRfc3339 := fun _ => none
  parseUtc := fun ts => [("0", 60000), ("1", 120000), ("10", 660000), ("11", 720000)].lookup ts
  redact := id

def repeatFile : SessionFile := ⟨"s", "s.jsonl"⟩

/-- The second segment is stored with its first prompt. When the second prompt is appended it
equals the first segment, is collapsed, and its row stays. -/
theorem repeated_prompts_left_over :
    ¬ Verified plainContent repeatReader repeatFile
      (grown plainContent repeatReader repeatFile
        (AgenticDb.empty : AgenticDb (List ToolCall × List String × String) ℕ)
          [(0, ["a", "b", "c"]), (0, ["d"])]) := by
  intro h
  have hmatch := (h 0).1
  revert hmatch
  decide +kernel

theorem absent_empty {H γ : Type} (file : SessionFile) :
    Absent file (AgenticDb.empty : AgenticDb H γ) := by
  intro i r hr
  cases hr

/-- A file that is ingested only when it is complete. -/
theorem whole_file_verified :
    (∀ past, past ≠ [] → past <+: [((0 : ℤ), ["a", "b", "c", "d"])] →
      Verified plainContent repeatReader repeatFile (grown plainContent repeatReader repeatFile
        (AgenticDb.empty : AgenticDb (List ToolCall × List String × String) ℕ) past)) ↔
      NothingCollapsed plainContent repeatReader [(0, ["a", "b", "c", "d"])] :=
  verified_iff_nothingCollapsed plainContent repeatReader repeatFile (absent_empty repeatFile) _

end Instance

end Hippo.Claude
