import Hippo.AgenticRuns

/-!
# One knowledge node for each enriched segment

Whatever the order of claims, late writes, failures and upserts, a segment is linked to
at most one observation node of the agentic writers, and a watermark that a writer moved
names the content version that node was made from.
-/
namespace Hippo

namespace KnowledgeStore

variable {γ : Type}

/-- Agentic links are one-to-one: a node covers one segment, a segment has one node, and
the nodes are the writers' own. -/
structure Projects (st : KnowledgeStore γ) : Prop where
  solo : ∀ l ∈ st.links, ∀ l' ∈ st.links, l.table = .agenticSessions →
    l'.table = .agenticSessions → l.node = l'.node → l.target = l'.target
  single : ∀ l ∈ st.links, ∀ l' ∈ st.links, l.table = .agenticSessions →
    l'.table = .agenticSessions → l.target = l'.target → l.node = l'.node
  observation : ∀ l ∈ st.links, l.table = .agenticSessions →
    (st.nodes.get? l.node).map KnowledgeNode.nodeType = some .observation

theorem projects_empty : (empty : KnowledgeStore γ).Projects where
  solo := by
    intro l hl
    cases hl
  single := by
    intro l hl
    cases hl
  observation := by
    intro l hl
    cases hl

/-- Replacing the prior nodes of one segment removes every agentic link it has. -/
theorem replacePrior_spec {st replaced : KnowledgeStore γ} {i : ℕ} {vecOk : Bool}
    (hst : st.Projects) (h : st.replacePriorAgenticNodes [i] vecOk = .ok replaced) :
    replaced.Projects ∧ (∀ l ∈ replaced.links, l ∈ st.links) ∧
      ∀ l ∈ replaced.links, l.table = .agenticSessions → l.target ≠ i := by
  have hprior : ∀ l ∈ st.links, l.table = .agenticSessions → l.target = i →
      l.node ∈ st.priorAgenticNodes [i] := by
    rintro ⟨table, n, j⟩ hl rfl rfl
    refine mem_priorAgenticNodes.mpr ⟨⟨j, List.mem_singleton.mpr rfl, hl,
      hst.observation _ hl rfl⟩, fun l' hl' ht hn => List.mem_singleton.mpr ?_⟩
    exact hst.solo l' hl' _ hl ht rfl hn
  unfold replacePriorAgenticNodes at h
  dsimp only at h
  split at h
  · rename_i hnil
    cases h
    refine ⟨hst, fun l hl => hl, fun l hl ht hi => ?_⟩
    have hmem := hprior l hl ht hi
    rw [hnil] at hmem
    cases hmem
  · split at h
    · cases h
      refine ⟨⟨fun l hl l' hl' => ?_, fun l hl l' hl' => ?_, fun l hl ht => ?_⟩,
        fun l hl => (mem_deleteNodes_links.mp hl).1, fun l hl ht hi => ?_⟩
      · exact hst.solo l (mem_deleteNodes_links.mp hl).1 l' (mem_deleteNodes_links.mp hl').1
      · exact hst.single l (mem_deleteNodes_links.mp hl).1 l' (mem_deleteNodes_links.mp hl').1
      · obtain ⟨hl, hn⟩ := mem_deleteNodes_links.mp hl
        obtain ⟨node, hnode, hty⟩ := Option.map_eq_some_iff.mp (hst.observation l hl ht)
        rw [get?_deleteNodes.mpr ⟨hnode, hn⟩, Option.map_some, hty]
      · obtain ⟨hl, hn⟩ := mem_deleteNodes_links.mp hl
        exact hn (hprior l hl ht hi)
    · cases h

/-- A new node for a segment without agentic links keeps them one-to-one. -/
theorem projects_insertLinked {st : KnowledgeStore γ} {content : γ} {i : ℕ}
    (hst : st.Projects) (hfree : ∀ l ∈ st.links, l.table = .agenticSessions → l.target ≠ i) :
    (st.insertLinked ⟨.observation, content⟩ .agenticSessions [i]).Projects where
  solo := by
    intro l hl l' hl' ht ht' hn
    rcases mem_insertLinked_links.mp hl with hl | ⟨-, hln, hlt⟩ <;>
      rcases mem_insertLinked_links.mp hl' with hl' | ⟨-, hln', hlt'⟩
    · exact hst.solo l hl l' hl' ht ht' hn
    · exact absurd (hn.trans hln') (st.nextRowid_not_linked hl)
    · exact absurd (hn.symm.trans hln) (st.nextRowid_not_linked hl')
    · rw [List.mem_singleton.mp hlt, List.mem_singleton.mp hlt']
  single := by
    intro l hl l' hl' ht ht' hi
    rcases mem_insertLinked_links.mp hl with hl | ⟨-, hln, hlt⟩ <;>
      rcases mem_insertLinked_links.mp hl' with hl' | ⟨-, hln', hlt'⟩
    · exact hst.single l hl l' hl' ht ht' hi
    · exact absurd (hi.trans (List.mem_singleton.mp hlt')) (hfree l hl ht)
    · exact absurd (hi.symm.trans (List.mem_singleton.mp hlt)) (hfree l' hl' ht')
    · rw [hln, hln']
  observation := by
    intro l hl ht
    rw [insertLinked_nodes, Table.get?_insert_nextRowid]
    rcases mem_insertLinked_links.mp hl with hl | ⟨-, hln, -⟩
    · rw [if_neg (st.nextRowid_not_linked hl)]
      exact hst.observation l hl ht
    · rw [if_pos hln, Option.map_some]

end KnowledgeStore

namespace Agentic
open AgenticDb Transition

section Invariant
variable {H γ : Type} [DecidableEq H] {env : Rendering H} {w w' : World H γ} {a : Action γ}

/-- The projection invariant of a world. -/
structure Projected (w : World H γ) : Prop where
  store : w.db.store.Projects
  hashed : ∀ i r, w.db.sessions.get? i = some r → r.contentHash ≠ none
  unmoved : ∀ i r, w.db.sessions.get? i = some r → w.movedBy i = none →
    r.lastEnrichedContentHash = none
  version : ∀ l ∈ w.db.store.links, l.table = .agenticSessions → ∀ r h,
    w.db.sessions.get? l.target = some r → r.lastEnrichedContentHash = some h →
      w.movedBy l.target = some .writer → w.madeFrom l.node = some h

omit [DecidableEq H] in
theorem projected_init : Projected (World.init : World H γ) where
  store := KnowledgeStore.projects_empty
  hashed := by
    intro i r hr
    simp [World.init, AgenticDb.empty] at hr
  unmoved := by
    intro i r hr
    simp [World.init, AgenticDb.empty] at hr
  version := by
    intro l hl
    cases hl

omit [DecidableEq H] in
/-- A step that writes no node keeps the invariant, whatever moves a watermark in it. -/
theorem Projected.frame (h : Projected w) (hstore : w'.db.store = w.db.store)
    (hmade : w'.madeFrom = w.madeFrom)
    (hrows : ∀ i r', w'.db.sessions.get? i = some r' → r'.contentHash ≠ none ∧
      ((∃ r, w.db.sessions.get? i = some r ∧
          r'.lastEnrichedContentHash = r.lastEnrichedContentHash ∧ w'.movedBy i = w.movedBy i) ∨
        r'.lastEnrichedContentHash = none ∨ w'.movedBy i = some .skip ∨
        w'.movedBy i = some .failure)) : Projected w' where
  store := hstore ▸ h.store
  hashed := fun i r' hr' => (hrows i r' hr').1
  unmoved := by
    intro i r' hr' hnone
    rcases (hrows i r' hr').2 with ⟨r, hr, hlast, hmoved⟩ | hlast | hskip | hfail
    · rw [hlast]
      exact h.unmoved i r hr (hmoved ▸ hnone)
    · exact hlast
    · rw [hskip] at hnone
      cases hnone
    · rw [hfail] at hnone
      cases hnone
  version := by
    intro l hl ht r' hash hr' hwm hwriter
    rw [hstore] at hl
    rw [hmade]
    rcases (hrows l.target r' hr').2 with ⟨r, hr, hlast, hmoved⟩ | hlast | hskip | hfail
    · exact h.version l hl ht r hash hr (hlast ▸ hwm) (hmoved ▸ hwriter)
    · rw [hlast] at hwm
      cases hwm
    · rw [hskip] at hwriter
      cases hwriter
    · rw [hfail] at hwriter
      cases hwriter

theorem projected_upsert {p : Parsed} (h : Projected w)
    (he : Effect env w (.upsert p) w') : Projected w' := by
  cases he
  refine h.frame (Upsert.apply_store _ _) rfl fun i r' hr' => ?_
  rw [Upsert.apply_sessions_get?] at hr'
  split at hr'
  · cases hr'
    cases hr : w.db.sessions.get? i with
    | none =>
      rw [Option.map_none, Option.getD_none, Upsert.new_contentHash, Upsert.new_watermark]
      exact ⟨Option.some_ne_none _, Or.inr (Or.inl rfl)⟩
    | some r =>
      rw [Option.map_some, Option.getD_some, Upsert.refresh_contentHash,
        Upsert.refresh_watermark]
      exact ⟨Option.some_ne_none _, Or.inl ⟨r, rfl, rfl, rfl⟩⟩
  · exact ⟨h.hashed i r' hr', Or.inl ⟨r', hr', rfl, rfl⟩⟩

omit [DecidableEq H] in
/-- A move of one segment's watermark leaves the others' history alone. -/
theorem moved_of_ne {i j : ℕ} {changed : Prop} [Decidable changed] {by' : Mover} (hi : j ≠ i) :
    moved w i changed by' j = w.movedBy j := by
  unfold moved
  split
  · exact Function.update_of_ne hi _ _
  · rfl

theorem projected_skipped {seg : Claimed H} {reason : String} (h : Projected w)
    (hdb : w'.db = w.db.skipSegment seg reason) (hmade : w'.madeFrom = w.madeFrom)
    (hmoved : w'.movedBy = moved w seg.id (seg.row.contentHash ≠ none ∧
      (w.db.sessions.get? seg.id).map AgenticSession.contentHash =
        some seg.row.contentHash) .skip) : Projected w' := by
  refine h.frame (by rw [hdb]; rfl) hmade fun i r' hr' => ?_
  rw [hdb, skipSegment_sessions_get?] at hr'
  by_cases hi : i = seg.id
  · subst hi
    rw [if_pos rfl] at hr'
    obtain ⟨r, hr, rfl⟩ := Option.map_eq_some_iff.mp hr'
    refine ⟨h.hashed _ r hr, ?_⟩
    by_cases hsame : seg.row.contentHash ≠ none ∧ r.contentHash = seg.row.contentHash
    · have hread : seg.row.contentHash ≠ none ∧
          (w.db.sessions.get? seg.id).map AgenticSession.contentHash =
            some seg.row.contentHash := by
        rw [hr, Option.map_some, hsame.2]
        exact ⟨hsame.1, rfl⟩
      have hskip : w'.movedBy seg.id = some .skip := by
        rw [hmoved, moved, if_pos hread, Function.update_self]
      exact Or.inr (Or.inr (Or.inl hskip))
    · have hread : ¬ (seg.row.contentHash ≠ none ∧
          (w.db.sessions.get? seg.id).map AgenticSession.contentHash =
            some seg.row.contentHash) := by
        rw [hr, Option.map_some, Option.some.injEq]
        exact hsame
      have hkept : w'.movedBy seg.id = w.movedBy seg.id := by
        rw [hmoved, moved, if_neg hread]
      exact Or.inl ⟨r, hr, if_neg hsame, hkept⟩
  · rw [if_neg hi] at hr'
    refine ⟨h.hashed i r' hr', Or.inl ⟨r', hr', rfl, ?_⟩⟩
    rw [hmoved]
    exact moved_of_ne hi

theorem projected_failed {source : ClaimSource} {seg : Claimed H} {error : String}
    (h : Projected w) (hdb : w'.db = markFailed source w.db seg error)
    (hmade : w'.madeFrom = w.madeFrom) (hmoved : w'.movedBy = moved w seg.id
      (FailureMoved source (markFailed source w.db seg error) seg) .failure) :
    Projected w' := by
  have other : ∀ i, i ≠ seg.id → w'.movedBy i = w.movedBy i := by
    intro i hi
    rw [hmoved]
    exact moved_of_ne hi
  rcases markFailed_singleton source w.db seg error with ⟨hchanged, heq⟩ | ⟨hsame, hch⟩
  · refine h.frame (by rw [hdb, heq]; rfl) hmade fun i r' hr' => ?_
    rw [hdb, heq] at hr'
    refine ⟨h.hashed i r' hr', Or.inl ⟨r', hr', rfl, ?_⟩⟩
    by_cases hi : i = seg.id
    · have hnot : ¬ FailureMoved source (markFailed source w.db seg error) seg := by
        intro hf
        rw [heq] at hf
        exact hchanged hf.2.2.2
      rw [hmoved, moved, if_neg hnot]
    · exact other i hi
  · refine h.frame (by rw [hdb, hch.store]) hmade fun i r' hr' => ?_
    rw [hdb, hch.sessions] at hr'
    by_cases hi : i = seg.id
    · subst hi
      by_cases hadv : source = .claudeLike ∧ seg.row.contentHash ≠ none ∧
          (markFailed source w.db seg error).queue.status? seg.id = some .failed
      · rw [if_pos ⟨rfl, hadv⟩] at hr'
        obtain ⟨r, hr, rfl⟩ := Option.map_eq_some_iff.mp hr'
        have hrow : (markFailed source w.db seg error).sessions.get? seg.id =
            some { r with lastEnrichedContentHash := seg.row.contentHash } := by
          rw [hch.sessions, if_pos ⟨rfl, hadv⟩, hr, Option.map_some]
        have hf : FailureMoved source (markFailed source w.db seg error) seg := by
          refine ⟨hadv.1, hadv.2.1, hadv.2.2, ?_⟩
          rw [hrow, Option.map_some]
          rwa [hr, Option.map_some] at hsame
        refine ⟨h.hashed _ r hr, Or.inr (Or.inr (Or.inr ?_))⟩
        rw [hmoved, moved, if_pos hf, Function.update_self]
      · rw [if_neg fun hc => hadv hc.2] at hr'
        refine ⟨h.hashed _ r' hr', Or.inl ⟨r', hr', rfl, ?_⟩⟩
        rw [hmoved, moved, if_neg fun hf => hadv ⟨hf.1, hf.2.1, hf.2.2.1⟩]
    · rw [if_neg fun hc => hi hc.1] at hr'
      exact ⟨h.hashed i r' hr', Or.inl ⟨r', hr', rfl, other i hi⟩⟩

omit [DecidableEq H] in
/-- A successful write gives its segment one node, made from the content it has. -/
theorem projected_written {content : γ} {seg : Claimed H} {db : AgenticDb H γ} {node : ℕ}
    (h : Projected w) (hwr : Written w.db db content (seg.id, seg.row.contentHash) node)
    (hdb : w'.db = db) (hmade : w'.madeFrom = Function.update w.madeFrom node seg.row.contentHash)
    (hmoved : w'.movedBy = moved w seg.id (seg.row.contentHash ≠ none) .writer) :
    Projected w' := by
  subst hdb
  obtain ⟨vecOk, replaced, hrep, hnode, hstore⟩ := hwr.store
  obtain ⟨hproj, hsub, hfree⟩ := KnowledgeStore.replacePrior_spec h.store hrep
  obtain ⟨r₀, hr₀, hsame⟩ := Option.map_eq_some_iff.mp hwr.unchanged
  dsimp only at hsame hr₀ hfree
  obtain ⟨hash, hhash⟩ := Option.ne_none_iff_exists'.mp (hsame ▸ h.hashed _ r₀ hr₀)
  have hself : w'.movedBy seg.id = some .writer := by
    rw [hmoved, moved, if_pos (by simp [hhash]), Function.update_self]
  have hother : ∀ i, i ≠ seg.id → w'.movedBy i = w.movedBy i := by
    intro i hi
    rw [hmoved]
    exact moved_of_ne hi
  have hrow : ∀ i r', w'.db.sessions.get? i = some r' → i ≠ seg.id →
      w.db.sessions.get? i = some r' := by
    intro i r' hr' hi
    rwa [hwr.sessions, if_neg hi] at hr'
  have hown : ∀ r', w'.db.sessions.get? seg.id = some r' →
      r'.contentHash = some hash ∧ r'.lastEnrichedContentHash = some hash := by
    intro r' hr'
    rw [hwr.sessions, if_pos rfl, hr₀, Option.map_some] at hr'
    cases hr'
    exact ⟨hsame.trans hhash, by simp [hhash]⟩
  refine ⟨?_, fun i r' hr' => ?_, fun i r' hr' hnone => ?_, fun l hl ht r' h' hr' hwm hwriter => ?_⟩
  · rw [hstore]
    exact KnowledgeStore.projects_insertLinked hproj hfree
  · by_cases hi : i = seg.id
    · subst hi
      rw [(hown r' hr').1]
      exact Option.some_ne_none _
    · exact h.hashed i r' (hrow i r' hr' hi)
  · by_cases hi : i = seg.id
    · subst hi
      rw [hself] at hnone
      cases hnone
    · exact h.unmoved i r' (hrow i r' hr' hi) (hother i hi ▸ hnone)
  · rw [hstore] at hl
    rw [hmade]
    rcases KnowledgeStore.mem_insertLinked_links.mp hl with hl | ⟨-, hln, hlt⟩
    · have hne : l.target ≠ seg.id := hfree l hl ht
      have hold : l.node ≠ node := hnode ▸ replaced.nextRowid_not_linked hl
      rw [Function.update_of_ne hold]
      exact h.version l (hsub l hl) ht r' h' (hrow _ r' hr' hne) hwm (hother _ hne ▸ hwriter)
    · have htarget : l.target = seg.id := List.mem_singleton.mp hlt
      rw [htarget] at hr'
      rw [hln, ← hnode, Function.update_self, hhash, ← hwm, (hown r' hr').2]

theorem projected_step (h : Projected w) (hs : step env w a = some w') : Projected w' := by
  have he := step_effect hs
  cases he with
  | upsert p => exact projected_upsert h (.upsert p)
  | sweepApply hop =>
    refine h.frame (settle_store _ _ _ _ _ _) rfl fun i r' hr' => ?_
    rw [settle_sessions] at hr'
    exact ⟨h.hashed i r' hr', Or.inl ⟨r', hr', rfl, rfl⟩⟩
  | dropped hop hdrop =>
    refine h.frame rfl rfl fun i r' hr' => ?_
    rw [dropSegment_sessions_get?] at hr'
    split at hr'
    · obtain ⟨r, hr, rfl⟩ := Option.map_eq_some_iff.mp hr'
      exact ⟨h.hashed i r hr, Or.inl ⟨r, hr, rfl, rfl⟩⟩
    · exact ⟨h.hashed i r' hr', Or.inl ⟨r', hr', rfl, rfl⟩⟩
  | skipped hop hskip => exact projected_skipped h rfl rfl rfl
  | writeReleases hop hw =>
    obtain ⟨-, rfl⟩ := writeNode_released hw
    exact h.frame rfl rfl fun i r' hr' => ⟨h.hashed i r' hr', Or.inl ⟨r', hr', rfl, rfl⟩⟩
  | written hop hw => exact projected_written h (writeNode_written hw) rfl rfl rfl
  | failed hop => exact projected_failed h rfl rfl rfl
  | _ => exact h.frame rfl rfl fun i r' hr' => ⟨h.hashed i r' hr', Or.inl ⟨r', hr', rfl, rfl⟩⟩

/-- **One node for each segment**, and the watermark of a writer names its version. -/
theorem one_node_per_segment (h : Reaches (step env) World.init w) (i : ℕ) :
    (∀ n n', w.db.store.LinkedTo .agenticSessions .observation i n →
      w.db.store.LinkedTo .agenticSessions .observation i n' → n = n') ∧
    ∀ n r hash, w.db.store.LinkedTo .agenticSessions .observation i n →
      w.db.sessions.get? i = some r → r.lastEnrichedContentHash = some hash →
      w.movedBy i ≠ some .skip → w.movedBy i ≠ some .failure → w.madeFrom n = some hash := by
  have hw : Projected w :=
    h.invariant (fun _ _ _ hw _ hs => projected_step hw hs) projected_init
  refine ⟨fun n n' hn hn' => hw.store.single _ hn.1 _ hn'.1 rfl rfl rfl, ?_⟩
  intro n r hash hn hr hwm hskip hfail
  refine hw.version _ hn.1 rfl r hash hr hwm ?_
  cases hmoved : w.movedBy i with
  | none =>
    rw [hw.unmoved i r hr hmoved] at hwm
    cases hwm
  | some m =>
    cases m with
    | writer => rfl
    | skip => exact absurd hmoved hskip
    | failure => exact absurd hmoved hfail

end Invariant

section Race

/-- A segment is enriched, grows, is enriched again, and grows while a third batch is out. -/
def lateWrite : List (Action Unit) :=
  let claimed (prompts : List String) : List (Action Unit) :=
    [.upsert (.claude (promptSegment prompts)),
      .lock .claudeLike 1000000 400000 "brain-enrichment" "/p" none, .select 0,
      .drop 0, .drop 0, .skip 0, .skip 0]
  claimed ["a", "b", "c"] ++ [.write 0 () true] ++
    claimed ["a", "b", "c", "d"] ++ [.write 0 () true] ++
    claimed ["a", "b", "c", "d", "e"] ++
    [.upsert (.claude (promptSegment ["a", "b", "c", "d", "e", "f"])), .write 0 () true]

/-- The late write is released: the one node left was made from the version that the
watermark names, not from the one the segment has now. -/
theorem lateWrite_one_node : ∃ w : World ℕ Unit, Reaches (step promptCount) World.init w ∧
    ∃ n r, w.db.store.LinkedTo .agenticSessions .observation 1 n ∧
      w.db.sessions.get? 1 = some r ∧ r.contentHash = some 6 ∧ w.madeFrom n = some 4 := by
  obtain ⟨w, hrun, ⟨l, -, hl⟩, ⟨r, hr, hnew, hwm⟩, hmoved⟩ : ∃ w : World ℕ Unit,
      Run (step promptCount) (fun _ _ => True) World.init w ∧
        ((∃ l ∈ w.db.store.links.head?,
            w.db.store.LinkedTo .agenticSessions .observation 1 l.node) ∧
          (∃ r ∈ w.db.sessions.get? 1,
            r.contentHash = some 6 ∧ r.lastEnrichedContentHash = some 4) ∧
          w.movedBy 1 = some .writer) :=
    exists_run_of_exec (l := lateWrite) (by decide)
  refine ⟨w, hrun, l.node, r, hl, hr, hnew, ?_⟩
  refine (one_node_per_segment hrun 1).2 l.node r 4 hl hr hwm ?_ ?_
  · rw [hmoved]
    decide
  · rw [hmoved]
    decide

end Race

end Agentic

end Hippo
