import Hippo.SessionPolling

/-!
# The pollers lose no idle growth

A file that a tick passes over as unchanged is held by the database: every segment of its content
is stored with its hash. The idle time is what makes this sound, as a file that was idle when it
was looked at gets a later time by any write that follows.
-/
namespace Hippo.SessionPolling

open Transition

variable {H γ : Type} {p : Poller H}

section Rows

/-- The columns that `UNIQUE (session_id, harness, segment_index)` names. -/
def hasKey (h : Harness) (key : String × ℤ) (r : AgenticSession H) : Bool :=
  r.sessionId = key.1 ∧ r.harness = h ∧ r.segmentIndex = key.2

/-- The row of a harness under a session and a position. -/
def rowAt (db : AgenticDb H γ) (h : Harness) (key : String × ℤ) : Option (AgenticSession H) :=
  (db.sessions.entries.find? fun e => hasKey h key e.2).map Prod.snd

variable {db : AgenticDb H γ} {seg : SessionSegment} {key key' : String × ℤ} {h : Harness}
  {r : AgenticSession H}

theorem hasKey_unique (hk : hasKey h key r = true) (hk' : hasKey h key' r = true) : key = key' := by
  simp only [hasKey, decide_eq_true_eq] at hk hk'
  exact Prod.ext (hk.1.symm.trans hk'.1) (hk.2.2.symm.trans hk'.2.2)

theorem hasKey_new (p : Poller H) (seg : SessionSegment) :
    hasKey p.harness key (p.upsert seg).new = decide (key = segmentKey seg) := by
  obtain ⟨hid, hindex, hharness⟩ := p.upsert_new seg
  by_cases hkey : key = segmentKey seg
  · subst hkey
    simp [hasKey, segmentKey, hid, hindex, hharness]
  · simp only [hasKey, hid, hindex, hharness, hkey, decide_false, decide_eq_false_iff_not]
    exact fun h => hkey (Prod.ext h.1.symm h.2.2.symm)

theorem hasKey_refresh (p : Poller H) (seg : SessionSegment) (r : AgenticSession H) :
    hasKey h key ((p.upsert seg).refresh r) = hasKey h key r := by
  obtain ⟨hid, hindex⟩ := p.upsert_refresh seg r
  simp only [hasKey, hid, hindex, (p.upsert seg).refresh_harness]

theorem prior_eq (p : Poller H) (seg : SessionSegment) (db : AgenticDb H γ) :
    (p.upsert seg).prior db =
      (db.sessions.entries.find? fun e => hasKey p.harness (segmentKey seg) e.2).map fun e =>
        ⟨e.1, e.2.contentHash, e.2.lastEnrichedContentHash, db.queue.status? e.1⟩ := by
  obtain ⟨hid, hindex, hharness⟩ := p.upsert_new seg
  rw [Upsert.prior, hid, hindex, hharness]
  rfl

variable [DecidableEq H]

theorem apply_entries (u : Upsert H) (db : AgenticDb H γ) :
    (u.apply db).sessions = (u.writeRow db).sessions := by
  unfold Upsert.apply
  split
  · exact AgenticDb.enqueue_sessions _ _
  · rfl

/-- An upsert writes the row of its segment and leaves the other rows of its harness. -/
theorem rowAt_apply (p : Poller H) (seg : SessionSegment) (db : AgenticDb H γ)
    (key : String × ℤ) :
    rowAt ((p.upsert seg).apply db) p.harness key =
      if key = segmentKey seg then
        some (((rowAt db p.harness key).map (p.upsert seg).refresh).getD (p.upsert seg).new)
      else rowAt db p.harness key := by
  rw [rowAt, apply_entries, Upsert.writeRow, prior_eq]
  cases hfind : db.sessions.entries.find? fun e => hasKey p.harness (segmentKey seg) e.2 with
  | none =>
    simp only [Option.map_none, AgenticDb.insertSession, rowAt]
    rw [Table.entries_insert (Table.get?_nextRowid _), List.find?_append, List.find?_singleton,
      hasKey_new]
    by_cases hkey : key = segmentKey seg
    · subst hkey
      simp [hfind]
    · simp [hkey]
  | some e =>
    have hmem := List.mem_of_find?_eq_some hfind
    have hcols := List.find?_some hfind
    simp only [Option.map_some, AgenticDb.modifySession, Table.modify, Table.update, Table.mapRows,
      rowAt]
    -- the refresh keeps the key columns, so the same row is found
    have hsame : ((fun e' : ℕ × AgenticSession H => hasKey p.harness key e'.2) ∘
        fun e' : ℕ × AgenticSession H =>
          (e'.1, if e'.1 = e.1 then (p.upsert seg).refresh e'.2 else e'.2)) =
        fun e' => hasKey p.harness key e'.2 := by
      funext e'
      by_cases he : e'.1 = e.1 <;> simp [he, hasKey_refresh]
    rw [List.find?_map, hsame, Option.map_map]
    by_cases hkey : key = segmentKey seg
    · subst hkey
      simp [hfind]
    · simp only [hkey, if_false]
      cases hother : db.sessions.entries.find? fun e => hasKey p.harness key e.2 with
      | none => rfl
      | some e' =>
        have hmem' := List.mem_of_find?_eq_some hother
        have hcols' := List.find?_some hother
        have hne : e'.1 ≠ e.1 := by
          intro he
          have heq : e' = e := List.inj_on_of_nodup_map db.sessions.nodup hmem' hmem he
          subst heq
          exact hkey (hasKey_unique hcols' hcols)
        simp [hne]

/-- The segment's row has the hash of its content. -/
def Stored (p : Poller H) (db : AgenticDb H γ) (seg : SessionSegment) : Prop :=
  ∃ r, rowAt db p.harness (segmentKey seg) = some r ∧
    r.contentHash = some (p.upsert seg).contentHash

theorem stored_apply (p : Poller H) (seg : SessionSegment) (db : AgenticDb H γ) :
    Stored p ((p.upsert seg).apply db) seg := by
  refine ⟨_, by rw [rowAt_apply, if_pos rfl], ?_⟩
  cases rowAt db p.harness (segmentKey seg) with
  | none => exact (p.upsert seg).new_contentHash
  | some r => exact (p.upsert seg).refresh_contentHash r

theorem rowAt_foldl {segments : List SessionSegment} (h : key ∉ segments.map segmentKey) :
    rowAt (segments.foldl (fun db seg => (p.upsert seg).apply db) db) p.harness key =
      rowAt db p.harness key := by
  induction segments generalizing db with
  | nil => rfl
  | cons seg rest ih =>
    rw [List.map_cons, List.mem_cons, not_or] at h
    rw [List.foldl_cons, ih h.2, rowAt_apply, if_neg h.1]

/-- The transaction over segments with different keys stores all of them. -/
theorem stored_foldl {segments : List SessionSegment} (h : (segments.map segmentKey).Nodup) :
    ∀ seg ∈ segments,
      Stored p (segments.foldl (fun db seg => (p.upsert seg).apply db) db) seg := by
  induction segments generalizing db with
  | nil => simp
  | cons first rest ih =>
    rw [List.map_cons, List.nodup_cons] at h
    intro seg hseg
    rcases List.mem_cons.mp hseg with rfl | hseg
    · obtain ⟨r, hr, hhash⟩ := stored_apply p seg db
      exact ⟨r, by rw [List.foldl_cons, rowAt_foldl h.1, hr], hhash⟩
    · exact ih h.2 seg hseg

end Rows

section Held

/-- The database holds what a content says: its extraction, at a path and a time the file has had,
is stored. `own` tells the files' sessions apart. -/
def Held (p : Poller H) (own : String → ℕ) (db : AgenticDb H γ) (inode : ℕ)
    (content : List UInt8) : Prop :=
  ∃ path mtime segments, p.extract path mtime content = some segments ∧
    ∀ seg ∈ segments, own seg.sessionId = inode ∧ Stored p db seg

variable [DecidableEq H] {own : String → ℕ} {db db' : AgenticDb H γ} {v : Visit} {id : String}
  {i : ℕ} {content got : List UInt8}

/-- The sessions read from a file are its own. -/
def Owns (p : Poller H) (own : String → ℕ) (v : Visit) (got : List UInt8) : Prop :=
  ∀ segments, p.extract v.path v.mtime got = some segments →
    ∀ seg ∈ segments, own seg.sessionId = v.inode

theorem held_ingest (hown : Owns p own v got) (h : ingestFile p db v got = some (db', id)) :
    Held p own db' v.inode got := by
  obtain ⟨segments, hsegments, heq⟩ := Option.map_eq_some_iff.mp h
  obtain ⟨rfl, -⟩ := Prod.mk.inj heq
  exact ⟨v.path, v.mtime, segments, hsegments, fun seg hseg =>
    ⟨hown segments hsegments seg hseg, stored_foldl (p.extract_keys hsegments) seg hseg⟩⟩

/-- The ingest of a file leaves what is held of the others. -/
theorem Held.ingest (h : Held p own db i content) (hne : i ≠ v.inode) (hown : Owns p own v got)
    (hingest : ingestFile p db v got = some (db', id)) : Held p own db' i content := by
  obtain ⟨segments, hsegments, heq⟩ := Option.map_eq_some_iff.mp hingest
  obtain ⟨rfl, -⟩ := Prod.mk.inj heq
  obtain ⟨path, mtime, held, hheld, hstored⟩ := h
  refine ⟨path, mtime, held, hheld, fun seg hseg => ?_⟩
  obtain ⟨hi, r, hr, hhash⟩ := hstored seg hseg
  refine ⟨hi, r, ?_, hhash⟩
  rw [rowAt_foldl, hr]
  intro hmem
  obtain ⟨other, hother, hkey⟩ := List.mem_map.mp hmem
  have hsession : other.sessionId = seg.sessionId := congrArg Prod.fst hkey
  have hv := hown segments hsegments other hother
  rw [hsession, hi] at hv
  exact hne hv

end Held

section Runs

variable {own : String → ℕ} {w w' : World H γ} {a : Act}

/-- What a read returns belongs to the file. -/
def Separate (p : Poller H) (own : String → ℕ) (w : World H γ) : Act → Prop
  | .ingest (some got) _ => ∀ v ∈ w.visit, Owns p own v got
  | _ => True

/-- Before the first tick: no file has been looked at. -/
def World.start (clock : ℤ) (db : AgenticDb H γ) : World H γ where
  clock := clock
  files := Table.empty
  db := db
  cursors := Table.empty
  tick := none
  visit := none

/-- What a tick knows of the file it is about to read. A write since then has left a later time. -/
structure Seen (w : World H γ) (v : Visit) : Prop where
  past : v.mtime < w.clock
  file : ∀ f, w.files.get? v.inode = some f →
    f.writes = v.writes ∧ f.mtime = v.mtime ∨ v.writes < f.writes ∧ v.mtime < f.mtime
  cursor : ∀ c, w.cursors.get? v.inode = some c → c.lastSeen ≤ v.mtime

structure Inv (p : Poller H) (own : String → ℕ) (w : World H γ) : Prop where
  clock : 0 < w.clock
  tick : ∀ now ∈ w.tick, now ≤ w.clock
  files : ∀ i f, w.files.get? i = some f → 0 < f.mtime ∧ f.mtime ≤ w.clock
  visit : ∀ v ∈ w.visit, Seen w v
  lastSeen : ∀ i c, w.cursors.get? i = some c → c.lastSeen < w.clock
  cursors : ∀ i f c, w.files.get? i = some f → w.cursors.get? i = some c →
    c.lastSeen < f.mtime ∨ c.lastSeen = f.mtime ∧ Held p own w.db i f.content

theorem Inv.lastSeen_le (h : Inv p own w) {i : ℕ} {f : File} (hf : w.files.get? i = some f) :
    (readCursor w.cursors i).lastSeen ≤ f.mtime := by
  unfold readCursor
  cases hc : w.cursors.get? i with
  | none => simpa using (h.files i f hf).1.le
  | some c =>
    rcases h.cursors i f c hf hc with hlt | ⟨heq, -⟩
    · exact hlt.le
    · exact heq.le

/-- A file at most as new as its cursor is held. -/
theorem Inv.held (h : Inv p own w) {i : ℕ} {f : File} (hf : w.files.get? i = some f)
    (hle : f.mtime ≤ (readCursor w.cursors i).lastSeen) : Held p own w.db i f.content := by
  unfold readCursor at hle
  cases hc : w.cursors.get? i with
  | none =>
    simp only [hc, Option.getD_none] at hle
    have := (h.files i f hf).1
    omega
  | some c =>
    simp only [hc, Option.getD_some] at hle
    rcases h.cursors i f c hf hc with hlt | ⟨-, hheld⟩
    · omega
    · exact hheld

theorem inv_start {clock : ℤ} (hclock : 0 < clock) (db : AgenticDb H γ) :
    Inv p own (World.start clock db) where
  clock := hclock
  tick := by simp [World.start]
  files := by simp [World.start]
  visit := by simp [World.start]
  lastSeen := by simp [World.start]
  cursors := by simp [World.start]

theorem Inv.wait (h : Inv p own w) (ms : ℕ) : Inv p own { w with clock := w.clock + ms } where
  clock := by
    have := h.clock
    simp only
    omega
  tick now hnow := by
    have := h.tick now hnow
    simp only
    omega
  files i f hf := by
    have := h.files i f hf
    simp only
    omega
  visit v hv := by
    obtain ⟨hpast, hfile, hcursor⟩ := h.visit v hv
    exact ⟨by simp only; omega, hfile, hcursor⟩
  lastSeen i c hc := by
    have := h.lastSeen i c hc
    simp only
    omega
  cursors := h.cursors

/-- A file that appears, or gets new content, has the present time. -/
theorem Inv.put (h : Inv p own w) {i : ℕ} {f : File} (hnow : f.mtime = w.clock)
    (hseen : ∀ v ∈ w.visit, v.inode = i → v.writes < f.writes) :
    Inv p own { w with files := w.files.put i f } where
  clock := h.clock
  tick := h.tick
  files j g hg := by
    simp only [Table.get?_put] at hg
    split_ifs at hg with hj
    · cases hg
      exact ⟨hnow ▸ h.clock, hnow.le⟩
    · exact h.files j g hg
  visit v hv := by
    obtain ⟨hpast, hfile, hcursor⟩ := h.visit v hv
    refine ⟨hpast, fun g hg => ?_, hcursor⟩
    simp only [Table.get?_put] at hg
    split_ifs at hg with hj
    · cases hg
      exact Or.inr ⟨hseen v hv hj, hnow ▸ hpast⟩
    · exact hfile g hg
  lastSeen := h.lastSeen
  cursors j g c hg hc := by
    simp only [Table.get?_put] at hg
    split_ifs at hg with hj
    · cases hg
      exact Or.inl (hnow ▸ h.lastSeen j c hc)
    · exact h.cursors j g c hg hc

theorem Inv.move (h : Inv p own w) {i : ℕ} {f : File} (hf : w.files.get? i = some f)
    (path : String) : Inv p own { w with files := w.files.put i { f with path := path } } where
  clock := h.clock
  tick := h.tick
  files j g hg := by
    simp only [Table.get?_put] at hg
    split_ifs at hg with hj
    · cases hg
      exact h.files i f hf
    · exact h.files j g hg
  visit v hv := by
    obtain ⟨hpast, hfile, hcursor⟩ := h.visit v hv
    refine ⟨hpast, fun g hg => ?_, hcursor⟩
    simp only [Table.get?_put] at hg
    split_ifs at hg with hj
    · cases hg
      exact hfile f (hj ▸ hf)
    · exact hfile g hg
  lastSeen := h.lastSeen
  cursors j g c hg hc := by
    simp only [Table.get?_put] at hg
    split_ifs at hg with hj
    · cases hg
      exact h.cursors j f c (hj ▸ hf) hc
    · exact h.cursors j g c hg hc

theorem Inv.remove (h : Inv p own w) (i : ℕ) : Inv p own { w with files := w.files.erase i } where
  clock := h.clock
  tick := h.tick
  files j g hg := by
    simp only [Table.get?_erase] at hg
    split_ifs at hg
    exact h.files j g hg
  visit v hv := by
    obtain ⟨hpast, hfile, hcursor⟩ := h.visit v hv
    refine ⟨hpast, fun g hg => ?_, hcursor⟩
    simp only [Table.get?_erase] at hg
    split_ifs at hg
    exact hfile g hg
  lastSeen := h.lastSeen
  cursors j g c hg hc := by
    simp only [Table.get?_erase] at hg
    split_ifs at hg
    exact h.cursors j g c hg hc

/-- The look at an idle file. -/
theorem Inv.look (h : Inv p own w) {i : ℕ} {f : File} {now : ℤ} (hidle : 0 < p.minIdle)
    (hf : w.files.get? i = some f) (hnow : w.tick = some now)
    (hpasses : passes p now f (readCursor w.cursors i) = false) :
    Inv p own { w with visit := some ⟨i, f.path, f.mtime, f.writes⟩ } where
  clock := h.clock
  tick := h.tick
  files := h.files
  visit v hv := by
    cases hv
    have hpast := h.tick now hnow
    simp only [passes, Bool.or_eq_false_iff, decide_eq_false_iff_not] at hpasses
    refine ⟨by simp only; omega, fun g hg => Or.inl ?_, fun c hc => ?_⟩
    · cases hf.symm.trans hg
      exact ⟨rfl, rfl⟩
    · have hle := h.lastSeen_le hf
      simpa [readCursor, hc] using hle
  lastSeen := h.lastSeen
  cursors := h.cursors

theorem Inv.leave (h : Inv p own w) (tick : Option ℤ) (htick : ∀ now ∈ tick, now ≤ w.clock) :
    Inv p own { w with tick := tick, visit := none } where
  clock := h.clock
  tick := htick
  files := h.files
  visit := by simp
  lastSeen := h.lastSeen
  cursors := h.cursors

variable [DecidableEq H]

theorem ingest_eq_failed {v : Visit} {content : Option (List UInt8)} {saved : Bool}
    (h : content.bind (ingestFile p w.db v) = none) :
    ingest p w v content saved = { w with visit := none } := by
  rw [ingest, h]

theorem ingest_eq_done {v : Visit} {content : Option (List UInt8)} {saved : Bool}
    {db : AgenticDb H γ} {id : String} (h : content.bind (ingestFile p w.db v) = some (db, id)) :
    ingest p w v content saved =
      { w with
        db := db
        cursors := if saved then w.cursors.put v.inode ⟨v.mtime, id⟩ else w.cursors
        visit := none } := by
  rw [ingest, h]

/-- The ingest of a file that was seen. If the file has changed since, its time is later than what
the cursor gets; if not, its content is held. -/
theorem Inv.ingest (h : Inv p own w) {v : Visit} (hv : w.visit = some v)
    {content : Option (List UInt8)} (hread : mayRead w v content)
    (hown : ∀ got, content = some got → Owns p own v got) (saved : Bool) :
    Inv p own (ingest p w v content saved) := by
  obtain ⟨hpast, hfile, hcursor⟩ := h.visit v hv
  cases hdone : content.bind (ingestFile p w.db v) with
  | none =>
    rw [ingest_eq_failed hdone]
    exact h.leave w.tick h.tick
  | some result =>
    obtain ⟨db, id⟩ := result
    obtain ⟨got, rfl, hingest⟩ := Option.bind_eq_some_iff.mp hdone
    have hgot := hown got rfl
    rw [ingest_eq_done hdone]
    refine ⟨h.clock, h.tick, h.files, by simp, fun i c hc => ?_, fun i f c hf hc => ?_⟩
    · cases saved with
      | false => exact h.lastSeen i c hc
      | true =>
        simp only [if_true, Table.get?_put] at hc
        split_ifs at hc with hi
        · cases hc
          exact hpast
        · exact h.lastSeen i c hc
    · by_cases hi : i = v.inode
      · subst hi
        rcases hfile f hf with ⟨hwrites, hmtime⟩ | ⟨-, hlater⟩
        · have hcontent : got = f.content := by
            rcases hread f hf hwrites with hnone | hsome
            · cases hnone
            · exact Option.some.inj hsome
          have hheld : Held p own db v.inode f.content := hcontent ▸ held_ingest hgot hingest
          cases saved with
          | false =>
            rcases h.cursors _ f c hf hc with hlt | ⟨heq, -⟩
            · exact Or.inl hlt
            · exact Or.inr ⟨heq, hheld⟩
          | true =>
            simp only [if_true, Table.get?_put, Option.some.injEq] at hc
            subst hc
            exact Or.inr ⟨hmtime.symm, hheld⟩
        · cases saved with
          | false => exact Or.inl (lt_of_le_of_lt (hcursor c hc) hlater)
          | true =>
            simp only [if_true, Table.get?_put, Option.some.injEq] at hc
            subst hc
            exact Or.inl hlater
      · have hc' : w.cursors.get? i = some c := by
          cases saved with
          | false => exact hc
          | true => simpa [hi] using hc
        rcases h.cursors i f c hf hc' with hlt | ⟨heq, hheld⟩
        · exact Or.inl hlt
        · exact Or.inr ⟨heq, hheld.ingest hi hgot hingest⟩

theorem Inv.step (hidle : 0 < p.minIdle) (h : Inv p own w) (hok : Separate p own w a)
    (hs : step p w a = some w') : Inv p own w' := by
  cases a with
  | wait ms =>
    cases hs
    exact h.wait ms
  | create i path content =>
    simp only [SessionPolling.step] at hs
    split_ifs at hs with hnew
    cases hs
    exact h.put rfl fun v hv hi => absurd hi (hnew.2.2 v hv)
  | write i content =>
    obtain ⟨f, hf, rfl⟩ := Option.map_eq_some_iff.mp hs
    refine h.put rfl fun v hv hi => ?_
    subst hi
    rcases (h.visit v hv).file f hf with ⟨hwrites, -⟩ | ⟨hwrites, -⟩
    all_goals simp only
    all_goals omega
  | move i path =>
    obtain ⟨f, hf, rfl⟩ := Option.map_eq_some_iff.mp hs
    exact h.move hf path
  | remove i =>
    cases hs
    exact h.remove i
  | tickStart =>
    simp only [SessionPolling.step] at hs
    split_ifs at hs with ht
    cases hs
    refine ⟨h.clock, by simp, h.files, fun v hv => ?_, h.lastSeen, h.cursors⟩
    obtain ⟨hpast, hfile, hcursor⟩ := h.visit v hv
    exact ⟨hpast, hfile, hcursor⟩
  | look i =>
    simp only [SessionPolling.step] at hs
    split at hs
    · rename_i now f hnow hvisit hf
      split_ifs at hs with hpasses
      · cases hs
        exact h
      · cases hs
        exact h.look hidle hf hnow (by simpa using hpasses)
    · cases hs
  | ingest content saved =>
    simp only [SessionPolling.step] at hs
    split at hs
    · rename_i v hv
      split_ifs at hs with hread
      cases hs
      refine h.ingest hv hread (fun got hgot => ?_) saved
      subst hgot
      exact hok v hv
    · cases hs
  | tickEnd =>
    cases hs
    exact h.leave none (by simp)

end Runs

section Instance

/-- A rollout with one prompt. -/
def promptLine : String :=
  "\x7b\"type\":\"event_msg\",\"payload\":\x7b\"type\":\"user_message\",\"message\":\"go\"\x7d\x7d"

def promptRecord : JsonValue :=
  .object [("payload", .object [("message", .string "go"), ("type", .string "user_message")]),
    ("type", .string "event_msg")]

def promptReader : TranscriptReader where
  parseJson := fun line => [(promptLine, promptRecord)].lookup line
  render := fun _ => ""
  parseRfc3339 := fun _ => none
  parseUtc := fun _ => none
  redact := id

/-- The calls, prompts and text of a segment as its content hash. -/
def contentOf : Rendering (List ToolCall × List String × String) where
  segmentHash := fun calls prompts text => (calls, prompts, text)
  opencodeHash := fun _ => ([], [], "")
  timeRange := fun _ _ => ""
  summaryText := fun _ _ => ""
  opencodeSummaryText := fun _ => ""

/-- Codex sessions under a name that gives no identity. -/
def promptPoller : Poller (List ToolCall × List String × String) :=
  codexPoller contentOf promptReader 60 (fun _ => none) fun path => ⟨path, "/work", "rollout-a"⟩

instance (p : Poller H) (own : String → ℕ) (v : Visit) (got : List UInt8) :
    Decidable (Owns p own v got) :=
  decidable_of_iff (∀ segments ∈ p.extract v.path v.mtime got,
    ∀ seg ∈ segments, own seg.sessionId = v.inode) (by simp [Owns])

instance (p : Poller H) (own : String → ℕ) (w : World H γ) (a : Act) :
    Decidable (Separate p own w a) := by
  unfold Separate
  split <;> infer_instance

/-- A later tick passes over the rollout. -/
def passedOver (w : World (List ToolCall × List String × String) ℕ) (f : File) : Prop :=
  f.content = promptLine.toUTF8.toList ∧ passes promptPoller 60001 f (readCursor w.cursors 5) ∧
    promptPoller.isTranscript f.path ∧ promptPoller.minIdle ≤ 60001 - f.mtime

instance (w : World (List ToolCall × List String × String) ℕ) (f : File) :
    Decidable (passedOver w f) := by
  unfold passedOver
  infer_instance

end Instance

end Hippo.SessionPolling
