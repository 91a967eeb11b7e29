import Hippo.TopicCandidates
import Mathlib.Data.List.Induction

/-!
# Caps without starvation

The candidates of a topic are the best of its admissible nodes, whatever else is ranked above them,
and of the merged topics only what is new to the search is capped.
-/
namespace Hippo.Retrieval
open BestSelection

section Admissible

variable (recipe : Recipe) (db : TopicDb) (recency : Recency) (now : ℤ)
  (clauses : ℕ → NodeRow → Bool)

/-- The nodes that meet the filters and have a current membership in the topic. -/
def admissible (topic : String) : List Candidate :=
  db.db.nodes.entries.filterMap fun e =>
    if clauses e.1 e.2 then
      ((db.topicsOf recipe e.1).find? fun t => t.1 = topic).map fun t =>
        recency.scored now e.1 e.2 t.2
    else none

/-- The best score that a node was offered with. -/
def Top (offered : List Candidate) (c : Candidate) : Prop :=
  c ∈ offered ∧ ∀ other ∈ offered, other.uuid = c.uuid → other.score ≤ c.score

/-- Every topic gives its 20 best admissible nodes, a node of several topics has its best score,
and of the nodes outside the baseline the 40 best are added. -/
def Capped (topics : List String) (baseline : List ℕ)
    (r : TopicResult) : Prop :=
  ∃ (best : String → List Candidate) (merged added : List Candidate),
    (∀ t ∈ topics,
      Best Candidate.key 20 (admissible recipe db recency now clauses t) (best t)) ∧
    r.counts = topics.map (fun t =>
      (t, min 20 (admissible recipe db recency now clauses t).length)) ∧
    (∀ c, c ∈ merged ↔ Top (topics.flatMap best) c) ∧
    merged.Pairwise (fun a b => a.key < b.key) ∧
    Best Candidate.key 40 (merged.filter fun c => c.id ∉ baseline) added ∧
    r.added = added.map Candidate.id ∧
    r.nodes = (merged.filter fun c => c.id ∈ baseline ∨ c ∈ added).map Candidate.id

end Admissible

section Memberships

variable {recipe : Recipe} {db : TopicDb} {recency : Recency} {now : ℤ} {n : ℕ} {topic : String}

theorem Stored.extracted_of_noul {value : Stored} {p : ℚ} (h : value.noul = some p) :
    value.extracted = some p := by
  cases value with
  | number q => exact h
  | bool b => cases h
  | string s => cases h
  | other => cases h

/-- A current topic has a row that the `SELECT` lists, under the uuid of the node. -/
theorem mem_topicsOf {p : ℚ} (h : (topic, p) ∈ db.topicsOf recipe n) :
    ∃ row, db.classified.rows.get? n = some row ∧ db.Listed recipe topic n row ∧
      (db.stored n).noul topic = some p ∧
      (db.db.nodes.get? n).map NodeRow.uuid = some row.nodeUuid := by
  unfold TopicDb.topicsOf at h
  split at h
  · rename_i row identity hrow hinput
    split at h
    · rename_i hcurrent
      obtain ⟨⟨hready, huuid, hrevision, hdesired, happlied, hrecipe, happliedRecipe, -⟩, -⟩ :=
        hcurrent
      obtain ⟨name, hname, hp⟩ := List.mem_filterMap.mp h
      obtain ⟨q, hq, hpair⟩ := Option.map_eq_some_iff.mp hp
      obtain ⟨rfl, rfl⟩ := Prod.mk.inj hpair
      have haccepted : .string name ∈ (db.stored n).accepted := by
        obtain ⟨a, ha, hsome⟩ := List.mem_filterMap.mp hname
        cases a with
        | string s =>
          cases hsome
          exact ha
        | number q => cases hsome
        | bool b => cases hsome
        | other => cases hsome
      have hnode : (db.classified.nodes.get? n).map ClassifiedNode.uuid = some identity.uuid := by
        unfold ClassificationDb.nodeInput at hinput
        cases hget : db.classified.nodes.get? n with
        | none =>
          rw [hget] at hinput
          cases hinput
        | some node =>
          rw [hget] at hinput
          cases hnodeInput : node.input with
          | error message =>
            simp only [hnodeInput] at hinput
            cases hinput
          | ok hash =>
            simp only [hnodeInput] at hinput
            cases hinput
            rfl
      refine ⟨row, hrow, ⟨hready, hrecipe, ?_, hrevision, ?_, haccepted⟩, hq, ?_⟩
      · rw [happliedRecipe, hrecipe]
      · rw [happlied, hdesired]
      · rw [← db.same, hnode, huuid]
    · cases h
  · cases h

/-- The names of a classification are different. -/
theorem nodup_topicsOf : ((db.topicsOf recipe n).map Prod.fst).Nodup := by
  unfold TopicDb.topicsOf
  split
  · split
    · rename_i h
      have hnames : (db.stored n).names.Nodup := by
        refine List.Nodup.filterMap (fun a b t ha hb => ?_) h.2.2.2.2.2.1
        cases a <;> cases b <;> simp_all
      have hsub : ((db.stored n).names.filterMap fun t =>
          ((db.stored n).noul t).map fun p => (t, p)).map Prod.fst =
          (db.stored n).names.filter fun t => ((db.stored n).noul t).isSome := by
        induction (db.stored n).names with
        | nil => rfl
        | cons t names ih =>
          cases hp : (db.stored n).noul t with
          | none => simp [hp, ih]
          | some p => simp [hp, ih]
      rw [hsub]
      exact hnames.filter _
    · simp
  · simp

theorem find?_topicsOf {t : String × ℚ} :
    (db.topicsOf recipe n).find? (fun t => t.1 = topic) = some t ↔
      t.1 = topic ∧ t ∈ db.topicsOf recipe n := by
  constructor
  · intro h
    exact ⟨by simpa using List.find?_some h, List.mem_of_find?_eq_some h⟩
  · intro ⟨ht, hmem⟩
    obtain ⟨found, hfound⟩ : ∃ found, (db.topicsOf recipe n).find? (fun t => t.1 = topic) =
        some found := by
      rw [← Option.isSome_iff_exists, List.find?_isSome]
      exact ⟨t, hmem, by simpa using ht⟩
    have hname : found.1 = topic := by simpa using List.find?_some hfound
    rw [hfound, List.inj_on_of_nodup_map nodup_topicsOf (List.mem_of_find?_eq_some hfound) hmem
      (hname.trans ht.symm)]

/-- A candidate is a node that meets the clauses, with its current probability. -/
theorem mem_admissible {clauses : ℕ → NodeRow → Bool} {c : Candidate} :
    c ∈ admissible recipe db recency now clauses topic ↔
      ∃ node p, db.db.nodes.get? c.id = some node ∧ clauses c.id node = true ∧
        (topic, p) ∈ db.topicsOf recipe c.id ∧ c = recency.scored now c.id node p := by
  simp only [admissible, List.mem_filterMap, Prod.exists]
  constructor
  · rintro ⟨n, node, hentry, h⟩
    split at h
    · rename_i hclauses
      obtain ⟨t, ht, rfl⟩ := Option.map_eq_some_iff.mp h
      obtain ⟨rfl, hmem⟩ := find?_topicsOf.mp ht
      exact ⟨node, t.2, Table.get?_eq_some.mpr hentry, hclauses, hmem, rfl⟩
    · cases h
  · intro ⟨node, p, hnode, hclauses, hmem, hc⟩
    refine ⟨c.id, node, Table.get?_eq_some.mp hnode, ?_⟩
    rw [if_pos hclauses, find?_topicsOf.mpr ⟨rfl, hmem⟩, Option.map_some, ← hc]

/-- The rows that are ranked. -/
theorem mem_rankedRows {c : Candidate} :
    c ∈ db.rankedRows recipe recency now topic ↔
      ∃ row node p, db.classified.rows.get? c.id = some row ∧ db.Listed recipe topic c.id row ∧
        db.db.nodes.get? c.id = some node ∧ node.uuid = row.nodeUuid ∧
        ((db.stored c.id).probabilities.get? topic).bind Stored.extracted = some p ∧
        c = recency.scored now c.id node p := by
  simp only [TopicDb.rankedRows, List.mem_filterMap, Table.mem_select, Prod.exists]
  constructor
  · rintro ⟨n, row, ⟨hrow, hlisted⟩, h⟩
    obtain ⟨node, hnode, h⟩ := Option.bind_eq_some_iff.mp h
    obtain ⟨hnode, huuid⟩ := Option.filter_eq_some_iff.mp hnode
    obtain ⟨p, hp, rfl⟩ := Option.map_eq_some_iff.mp h
    exact ⟨row, node, p, hrow, hlisted, hnode, by simpa using huuid, hp, rfl⟩
  · rintro ⟨row, node, p, hrow, hlisted, hnode, huuid, hp, hc⟩
    refine ⟨c.id, row, ⟨hrow, hlisted⟩, ?_⟩
    rw [Option.filter_eq_some_iff.mpr ⟨hnode, by simpa using huuid⟩, Option.bind_some, hp,
      Option.map_some, ← hc]

/-- The id and the uuid of a candidate are those of one node. -/
def OfNode (db : TopicDb) (c : Candidate) : Prop :=
  ∃ node, db.db.nodes.get? c.id = some node ∧ c.uuid = node.uuid

theorem ofNode_rankedRows {c : Candidate} (h : c ∈ db.rankedRows recipe recency now topic) :
    OfNode db c := by
  obtain ⟨-, node, p, -, -, hnode, -, -, hc⟩ := mem_rankedRows.mp h
  exact ⟨node, hnode, congrArg Candidate.uuid hc⟩

theorem id_eq_of_uuid_eq {c c' : Candidate} (h : OfNode db c) (h' : OfNode db c')
    (huuid : c.uuid = c'.uuid) : c.id = c'.id := by
  obtain ⟨node, hnode, hc⟩ := h
  obtain ⟨node', hnode', hc'⟩ := h'
  have heq := List.inj_on_of_nodup_map db.unique (Table.get?_eq_some.mp hnode)
    (Table.get?_eq_some.mp hnode') (hc.symm.trans (huuid.trans hc'))
  exact congrArg Prod.fst heq

theorem rankedRows_ids :
    (db.rankedRows recipe recency now topic).Pairwise fun a b => a.id ≠ b.id := by
  have hkeys : (db.classified.rows.select (db.Listed recipe topic)).Pairwise
      fun e e' => e.1 ≠ e'.1 :=
    (List.pairwise_map.mp db.classified.rows.nodup).sublist List.filter_sublist
  refine List.pairwise_filterMap.mpr (hkeys.imp fun {e e'} hne c hc c' hc' => ?_)
  obtain ⟨node, -, hp⟩ := Option.bind_eq_some_iff.mp hc
  obtain ⟨node', -, hp'⟩ := Option.bind_eq_some_iff.mp hc'
  obtain ⟨p, -, rfl⟩ := Option.map_eq_some_iff.mp hp
  obtain ⟨p', -, rfl⟩ := Option.map_eq_some_iff.mp hp'
  exact hne

theorem rankedRows_uuids :
    (db.rankedRows recipe recency now topic).Pairwise fun a b => a.uuid ≠ b.uuid :=
  rankedRows_ids.imp_of_mem fun ha hb hne huuid =>
    hne (id_eq_of_uuid_eq (ofNode_rankedRows ha) (ofNode_rankedRows hb) huuid)

theorem key_ne {a b : Candidate} (h : a.uuid ≠ b.uuid) : a.key ≠ b.key := fun heq =>
  h (congrArg (fun k => (ofLex k).2) heq)

theorem ranked_perm : (db.ranked recipe recency now topic).Perm
    (db.rankedRows recipe recency now topic) :=
  sortOn_perm _ _

theorem ranked_ordered :
    (db.ranked recipe recency now topic).Pairwise fun a b => a.key < b.key :=
  pairwise_sortOn (rankedRows_uuids.imp key_ne)

theorem ranked_uuids : (db.ranked recipe recency now topic).Pairwise fun a b => a.uuid ≠ b.uuid :=
  (ranked_perm.pairwise_iff fun h => h.symm).mpr rankedRows_uuids

variable (recipe db) in
/-- A ranked node that meets the clauses and is a current member. -/
def admits (clauses : ℕ → NodeRow → Bool) (topic : String) (n : ℕ) : Bool :=
  (db.db.nodes.get? n).any (clauses n) && topic ∈ (db.topicsOf recipe n).map Prod.fst

variable {clauses : ℕ → NodeRow → Bool}

theorem admissible_ids :
    (admissible recipe db recency now clauses topic).Pairwise fun a b => a.id ≠ b.id := by
  refine List.pairwise_filterMap.mpr ((List.pairwise_map.mp db.db.nodes.nodup).imp
    fun {e e'} hne c hc c' hc' => ?_)
  split at hc
  · obtain ⟨t, -, rfl⟩ := Option.map_eq_some_iff.mp hc
    split at hc'
    · obtain ⟨t', -, rfl⟩ := Option.map_eq_some_iff.mp hc'
      exact hne
    · cases hc'
  · cases hc

/-- Every admissible node is ranked, with its own score. -/
theorem mem_admissible_iff_ranked {c : Candidate} :
    c ∈ admissible recipe db recency now clauses topic ↔
      c ∈ db.rankedRows recipe recency now topic ∧ admits recipe db clauses topic c.id = true := by
  rw [mem_admissible, mem_rankedRows]
  constructor
  · intro ⟨node, p, hnode, hclauses, hmem, hc⟩
    obtain ⟨row, hrow, hlisted, hp, huuid⟩ := mem_topicsOf hmem
    rw [hnode, Option.map_some, Option.some.injEq] at huuid
    obtain ⟨value, hvalue, hnoul⟩ := Option.bind_eq_some_iff.mp hp
    refine ⟨⟨row, node, p, hrow, hlisted, hnode, huuid, ?_, hc⟩, ?_⟩
    · rw [hvalue, Option.bind_some, Stored.extracted_of_noul hnoul]
    · rw [admits, hnode, Option.any_some, hclauses, Bool.true_and, decide_eq_true_eq]
      exact List.mem_map.mpr ⟨_, hmem, rfl⟩
  · intro ⟨⟨row, node, p, hrow, hlisted, hnode, huuid, hp, hc⟩, hadmits⟩
    rw [admits, hnode, Option.any_some, Bool.and_eq_true, decide_eq_true_eq] at hadmits
    obtain ⟨⟨name, q⟩, hmem, rfl⟩ := List.mem_map.mp hadmits.2
    obtain ⟨-, -, -, hq, -⟩ := mem_topicsOf hmem
    obtain ⟨value, hvalue, hnoul⟩ := Option.bind_eq_some_iff.mp hq
    rw [hvalue, Option.bind_some, Stored.extracted_of_noul hnoul] at hp
    cases hp
    exact ⟨node, _, hnode, hadmits.1, hmem, hc⟩

/-- The admitted rows of the ranking are the admissible nodes. -/
theorem admitted_perm :
    ((db.ranked recipe recency now topic).filter fun c => admits recipe db clauses topic c.id).Perm
      (admissible recipe db recency now clauses topic) := by
  have hranked : (db.ranked recipe recency now topic).Nodup :=
    ranked_uuids.imp fun h heq => h (congrArg Candidate.uuid heq)
  have hadmissible : (admissible recipe db recency now clauses topic).Nodup :=
    admissible_ids.imp fun h heq => h (congrArg Candidate.id heq)
  rw [List.perm_ext_iff_of_nodup (hranked.filter _) hadmissible]
  intro c
  rw [List.mem_filter, ranked_perm.mem_iff, mem_admissible_iff_ranked]

end Memberships

section Batches

variable {member : ℕ → Bool} {l : List Candidate} {pool : Pool}

theorem admitted_foldl (l : List Candidate) (pool : Pool) :
    (l.foldl Pool.accept pool).admitted = pool.admitted ++ l.map Candidate.uuid := by
  induction l generalizing pool with
  | nil => simp
  | cons c l ih => simp [ih, Pool.accept]

theorem candidates_foldl (l : List Candidate) (pool : Pool) :
    (l.foldl Pool.accept pool).candidates = l.foldl keepBest pool.candidates := by
  induction l generalizing pool with
  | nil => rfl
  | cons c l ih => exact ih (pool.accept c)

/-- The loop admits the members of the batch until there are 20. -/
theorem admitBatch_eq (hlt : pool.admitted.length < 20)
    (hnew : ∀ c ∈ l, c.uuid ∉ pool.admitted)
    (hl : l.Pairwise fun a b => a.uuid ≠ b.uuid) :
    admitBatch member l pool =
      ((l.filter fun c => member c.id).take (20 - pool.admitted.length)).foldl Pool.accept
        pool := by
  induction l generalizing pool with
  | nil => simp [admitBatch]
  | cons c l ih =>
    obtain ⟨hc, hl⟩ := List.pairwise_cons.mp hl
    have hrest : ∀ d ∈ l, d.uuid ∉ pool.admitted := fun d hd => hnew d (List.mem_cons_of_mem c hd)
    cases hmember : member c.id with
    | false =>
      rw [admitBatch, if_pos (Or.inl (by simp [hmember])), ih hlt hrest hl,
        List.filter_cons_of_neg (by simp [hmember])]
    | true =>
      have hkept : ¬ (¬ member c.id = true ∨ c.uuid ∈ pool.admitted) := by
        simpa [hmember] using hnew c List.mem_cons_self
      have hlength : (pool.accept c).admitted.length = pool.admitted.length + 1 := by
        simp [Pool.accept]
      obtain ⟨k, hk⟩ : ∃ k, 20 - pool.admitted.length = k + 1 :=
        ⟨19 - pool.admitted.length, by omega⟩
      rw [admitBatch, if_neg hkept, List.filter_cons_of_pos (by simpa using hmember), hk,
        List.take_succ_cons, List.foldl_cons]
      split
      · have hzero : k = 0 := by omega
        rw [hzero, List.take_zero, List.foldl_nil]
      · have hleft : 20 - (pool.accept c).admitted.length = k := by omega
        rw [ih (by omega) ?_ hl, hleft]
        intro d hd
        have hne : d.uuid ≠ c.uuid := (hc d hd).symm
        simp [Pool.accept, hrest d hd, hne]

theorem admitBatch_congr {member' : ℕ → Bool} (h : ∀ c ∈ l, member c.id = member' c.id) :
    admitBatch member l pool = admitBatch member' l pool := by
  induction l generalizing pool with
  | nil => rfl
  | cons c l ih =>
    simp only [admitBatch, h c List.mem_cons_self,
      ih fun d hd => h d (List.mem_cons_of_mem c hd)]

end Batches

section Topics

variable {lower repr : String → String} {aliases : ProjectName.Aliases} {clock : ℤ}
  {filters : SearchFilters} {recipe : Recipe} {db : TopicDb} {recency : Recency} {now : ℤ}
  {clauses : ℕ → NodeRow → Bool} {topic : String} {pool : Pool}

/-- One batch admits its admissible nodes until there are 20. -/
theorem topicBatch_ok
    (hclauses : filterClauses lower repr aliases db.db clock filters = .ok clauses)
    {batch : List Candidate} (hbatch : ∀ c ∈ batch, OfNode db c) :
    topicBatch lower repr aliases clock filters recipe db topic batch pool =
      .ok (admitBatch (admits recipe db clauses topic) batch pool) := by
  cases hkept : applyFilters lower repr aliases db.db clock (batch.map Candidate.id) filters with
  | error e =>
    have herror := (applyFilters_error.mp hkept).2
    rw [hclauses] at herror
    cases herror
  | ok allowed =>
    refine bind_eq_ok.mpr ⟨allowed, hkept, congrArg Except.ok (admitBatch_congr fun c hc => ?_)⟩
    obtain ⟨node, hnode, -⟩ := hbatch c hc
    have hallowed : c.id ∈ sortOn id allowed ↔ clauses c.id node = true := by
      rw [(sortOn_perm id allowed).mem_iff, mem_applyFilters hclauses hkept hnode]
      exact and_iff_right (List.mem_map_of_mem hc)
    rw [admits, hnode, Option.any_some, TopicDb.currentTopics]
    by_cases hmet : clauses c.id node = true
    · simp [hallowed.mpr hmet, hmet]
    · simp [mt hallowed.mp hmet, hmet]

/-- The batches together admit the first admissible nodes of the ranking until there are 20. -/
theorem topicBatches_ok
    (hclauses : filterClauses lower repr aliases db.db clock filters = .ok clauses)
    {ranked : List Candidate} (hnodes : ∀ c ∈ ranked, OfNode db c)
    (huuids : ranked.Pairwise fun a b => a.uuid ≠ b.uuid) (m k : ℕ)
    (hlength : ranked.length ≤ 64 * (k + m)) (hlt : pool.admitted.length < 20)
    (hnew : ∀ c ∈ ranked.drop (64 * k), c.uuid ∉ pool.admitted) :
    topicBatches lower repr aliases clock filters recipe db topic ranked
        ((List.range' k m).map (64 * ·)) pool =
      .ok ((((ranked.drop (64 * k)).filter fun c => admits recipe db clauses topic c.id).take
        (20 - pool.admitted.length)).foldl Pool.accept pool) := by
  induction m generalizing k pool with
  | zero =>
    have hnil : ranked.drop (64 * k) = [] := List.drop_eq_nil_of_le (by omega)
    simp [topicBatches, hnil]
  | succ m ih =>
    let batch := (ranked.drop (64 * k)).take 64
    let left := ranked.drop (64 * (k + 1))
    have hsplit : ranked.drop (64 * k) = batch ++ left := by
      have hdrop : left = (ranked.drop (64 * k)).drop 64 := by
        rw [List.drop_drop]
        exact congrArg (ranked.drop ·) (by omega)
      rw [hdrop, List.take_append_drop]
    have huuids' : (batch ++ left).Pairwise fun a b => a.uuid ≠ b.uuid := by
      rw [← hsplit]
      exact huuids.sublist (List.drop_sublist _ _)
    obtain ⟨hbatch, -, hapart⟩ := List.pairwise_append.mp huuids'
    rw [hsplit] at hnew ⊢
    let member := fun c : Candidate => admits recipe db clauses topic c.id
    have hbatchNodes : ∀ c ∈ batch, OfNode db c := fun c hc =>
      hnodes c (List.mem_of_mem_drop (List.mem_of_mem_take hc))
    have hfirst : admitBatch (admits recipe db clauses topic) batch pool =
        ((batch.filter member).take (20 - pool.admitted.length)).foldl Pool.accept pool :=
      admitBatch_eq hlt (fun c hc => hnew c (List.mem_append_left left hc)) hbatch
    rw [List.range'_succ, List.map_cons, topicBatches]
    refine bind_eq_ok.mpr ⟨_, topicBatch_ok hclauses hbatchNodes, ?_⟩
    rw [hfirst, List.filter_append, List.take_append]
    have hadmitted := admitted_foldl ((batch.filter member).take (20 - pool.admitted.length)) pool
    split
    · -- the batch fills the topic
      rename_i hfull
      rw [hadmitted, List.length_append, List.length_map, List.length_take] at hfull
      have hnone : 20 - pool.admitted.length - (batch.filter member).length = 0 := by omega
      rw [hnone, List.take_zero, List.append_nil]
      rfl
    · rename_i hopen
      rw [hadmitted, List.length_append, List.length_map, List.length_take] at hopen
      have hall : (batch.filter member).take (20 - pool.admitted.length) = batch.filter member :=
        List.take_of_length_le (by omega)
      rw [hall] at hadmitted ⊢
      have hsize : ((batch.filter member).foldl Pool.accept pool).admitted.length =
          pool.admitted.length + (batch.filter member).length := by
        rw [hadmitted, List.length_append, List.length_map]
      rw [ih (k + 1) (by omega) (by omega), hsize, List.foldl_append, Nat.sub_add_eq]
      intro c hc
      rw [hadmitted, List.mem_append, not_or]
      refine ⟨hnew c (List.mem_append_right batch hc), fun hmem => ?_⟩
      obtain ⟨d, hd, hduuid⟩ := List.mem_map.mp hmem
      exact hapart d (List.mem_filter.mp hd).1 c hc hduuid

variable (recipe db recency now clauses) in
/-- What a topic adds to the candidates. -/
def bestOf (topic : String) : List Candidate :=
  ((db.ranked recipe recency now topic).filter fun c =>
    admits recipe db clauses topic c.id).take 20

theorem best_bestOf : Best Candidate.key 20 (admissible recipe db recency now clauses topic)
    (bestOf recipe db recency now clauses topic) :=
  best_take admitted_perm (ranked_ordered.filter _)

theorem ofNode_bestOf {c : Candidate} (h : c ∈ bestOf recipe db recency now clauses topic) :
    OfNode db c :=
  ofNode_rankedRows (ranked_perm.mem_iff.mp (List.mem_filter.mp (List.mem_of_mem_take h)).1)

/-- A topic admits its best nodes, all of them if there are less than 20. -/
theorem topic_ok (hclauses : filterClauses lower repr aliases db.db clock filters = .ok clauses)
    (candidates : Table String (ℕ × ℚ)) :
    topicBatches lower repr aliases clock filters recipe db topic
        (db.ranked recipe recency now topic)
        (offsets (db.ranked recipe recency now topic).length) ⟨[], candidates⟩ =
      .ok ((bestOf recipe db recency now clauses topic).foldl Pool.accept ⟨[], candidates⟩) := by
  have hbatches := @topicBatches_ok lower repr aliases clock filters recipe db clauses topic
    ⟨[], candidates⟩ hclauses (db.ranked recipe recency now topic)
    (fun c hc => ofNode_rankedRows (ranked_perm.mem_iff.mp hc)) ranked_uuids
    (((db.ranked recipe recency now topic).length + 63) / 64) 0 (by omega) (by simp) (by simp)
  rw [Nat.mul_zero, List.drop_zero, ← List.range_eq_range'] at hbatches
  exact hbatches

theorem topicLoop_ok
    (hclauses : filterClauses lower repr aliases db.db clock filters = .ok clauses)
    (topics : List String) (candidates : Table String (ℕ × ℚ)) :
    topicLoop lower repr aliases clock filters recipe db recency now topics candidates =
      .ok (topics.map fun t => (t, (bestOf recipe db recency now clauses t).length),
        (topics.flatMap (bestOf recipe db recency now clauses)).foldl keepBest candidates) := by
  induction topics generalizing candidates with
  | nil => rfl
  | cons topic topics ih =>
    rw [topicLoop]
    refine bind_eq_ok.mpr ⟨_, topic_ok hclauses candidates, ?_⟩
    rw [candidates_foldl, ih, List.flatMap_cons, List.foldl_append, List.map_cons]
    refine congrArg Except.ok (Prod.ext ?_ rfl)
    rw [admitted_foldl]
    simp

/-- Refused filters are refused with the first candidates of a topic. -/
theorem topicLoop_error {e : PyError}
    (hclauses : filterClauses lower repr aliases db.db clock filters = .error e)
    (topics : List String) (candidates : Table String (ℕ × ℚ)) :
    topicLoop lower repr aliases clock filters recipe db recency now topics candidates =
        .error e ∨
      (∀ t ∈ topics, db.ranked recipe recency now t = []) ∧
        topicLoop lower repr aliases clock filters recipe db recency now topics candidates =
          .ok (topics.map fun t => (t, 0), candidates) := by
  induction topics generalizing candidates with
  | nil => exact Or.inr ⟨by simp, rfl⟩
  | cons topic topics ih =>
    cases hranked : db.ranked recipe recency now topic with
    | nil =>
      rw [topicLoop, hranked]
      rcases ih candidates with h | ⟨hnone, h⟩
      · left
        simp [offsets, topicBatches, h, bind, Except.bind]
      · right
        refine ⟨List.forall_mem_cons.mpr ⟨hranked, hnone⟩, ?_⟩
        simp [offsets, topicBatches, h, bind, Except.bind, pure, Except.pure]
    | cons c rest =>
      left
      have hfirst : ∃ more, offsets (c :: rest).length = 0 :: more := by
        refine ⟨((List.range (rest.length / 64)).map Nat.succ).map (64 * ·), ?_⟩
        have hcount : ((c :: rest).length + 63) / 64 = rest.length / 64 + 1 := by
          simp only [List.length_cons]
          omega
        rw [offsets, hcount, List.range_succ_eq_map, List.map_cons, Nat.mul_zero]
      obtain ⟨more, hmore⟩ := hfirst
      have hrefused : applyFilters lower repr aliases db.db clock
          (((c :: rest).take 64).map Candidate.id) filters = .error e :=
        applyFilters_error.mpr ⟨by simp, hclauses⟩
      rw [topicLoop, hranked, hmore, topicBatches, topicBatch, List.drop_zero, hrefused]
      rfl

end Topics

section Merge

variable {l : List Candidate}

theorem keepBest_none {u : String} :
    (l.foldl keepBest Table.empty).get? u = none ↔ ∀ a ∈ l, a.uuid ≠ u := by
  induction l using List.reverseRecOn with
  | nil => simp
  | append_singleton l d ih =>
    rw [List.foldl_append, List.foldl_cons, List.foldl_nil, keepBest]
    by_cases hu : u = d.uuid
    · have hsome : ¬ ∀ a ∈ l ++ [d], a.uuid ≠ u := fun h => h d (by simp) hu.symm
      split
      · simp [hu]
      · rename_i previous hprevious
        split
        · simp [hu]
        · rw [hu, hprevious]
          simp
    · have hlast : (∀ a ∈ l ++ [d], a.uuid ≠ u) ↔ ∀ a ∈ l, a.uuid ≠ u := by
        rw [List.forall_mem_append, List.forall_mem_singleton]
        exact and_iff_left (Ne.symm hu)
      rw [hlast, ← ih]
      split
      · rw [Table.get?_put, if_neg hu]
      · split
        · rw [Table.get?_put, if_neg hu]
        · rfl

/-- A node has one best candidate. -/
theorem top_iff (hids : ∀ a ∈ l, ∀ b ∈ l, a.uuid = b.uuid → a.id = b.id) {c e : Candidate}
    (he : Top l e) (huuid : c.uuid = e.uuid) :
    some (e.id, e.score) = some (c.id, c.score) ↔ Top l c := by
  constructor
  · intro h
    obtain ⟨hid, hscore⟩ := Prod.mk.inj (Option.some.inj h)
    have hce : c = e := by
      cases c
      cases e
      simp_all
    rw [hce]
    exact he
  · intro hc
    rw [hids e he.1 c hc.1 huuid.symm, le_antisymm (hc.2 e he.1 huuid.symm) (he.2 c hc.1 huuid)]

/-- The candidates have of every node offered the best score. -/
theorem keepBest_spec (hids : ∀ a ∈ l, ∀ b ∈ l, a.uuid = b.uuid → a.id = b.id)
    (c : Candidate) :
    (l.foldl keepBest Table.empty).get? c.uuid = some (c.id, c.score) ↔ Top l c := by
  induction l using List.reverseRecOn generalizing c with
  | nil => simp [Top]
  | append_singleton l d ih =>
    have hinit : ∀ a ∈ l, ∀ b ∈ l, a.uuid = b.uuid → a.id = b.id := fun a ha b hb =>
      hids a (List.mem_append_left _ ha) b (List.mem_append_left _ hb)
    have ih := ih hinit
    rw [List.foldl_append, List.foldl_cons, List.foldl_nil]
    by_cases huuid : c.uuid = d.uuid
    · rw [keepBest]
      split
      · rename_i hnone
        rw [keepBest_none] at hnone
        rw [Table.get?_put, if_pos huuid]
        refine top_iff hids ⟨by simp, fun other hother hsame => ?_⟩ huuid
        rcases List.mem_append.mp hother with hother | hother
        · exact absurd hsame (hnone other hother)
        · rw [List.mem_singleton.mp hother]
      · rename_i previous hprevious
        have htop : Top l ⟨previous.1, d.uuid, previous.2⟩ := (ih _).mp hprevious
        split
        · rename_i hlt
          rw [Table.get?_put, if_pos huuid]
          refine top_iff hids ⟨by simp, fun other hother hsame => ?_⟩ huuid
          rcases List.mem_append.mp hother with hother | hother
          · exact (htop.2 other hother hsame).trans hlt.le
          · rw [List.mem_singleton.mp hother]
        · rename_i hle
          rw [huuid, hprevious]
          refine @top_iff _ hids _ ⟨previous.1, d.uuid, previous.2⟩
            ⟨List.mem_append_left _ htop.1, fun other hother hsame => ?_⟩ huuid
          rcases List.mem_append.mp hother with hother | hother
          · exact htop.2 other hother hsame
          · rw [List.mem_singleton.mp hother]
            exact not_lt.mp hle
    · have hother : (keepBest (l.foldl keepBest Table.empty) d).get? c.uuid =
          (l.foldl keepBest Table.empty).get? c.uuid := by
        rw [keepBest]
        split
        · rw [Table.get?_put, if_neg huuid]
        · split
          · rw [Table.get?_put, if_neg huuid]
          · rfl
      have hne : c ≠ d := fun h => huuid (congrArg Candidate.uuid h)
      rw [hother, ih c, Top, Top, List.mem_append, List.mem_singleton, or_iff_left hne]
      refine and_congr_right fun _ => ?_
      simp only [List.mem_append, List.mem_singleton]
      constructor
      · rintro h other (hmem | rfl) hsame
        · exact h other hmem hsame
        · exact absurd hsame.symm huuid
      · exact fun h other hmem => h other (Or.inl hmem)

/-- The rows of the candidates, in order. -/
theorem items_ordered (candidates : Table String (ℕ × ℚ)) :
    (sortOn Candidate.key (items candidates)).Pairwise fun a b => a.key < b.key := by
  refine pairwise_sortOn (List.pairwise_map.mpr ?_)
  exact (List.pairwise_map.mp candidates.nodup).imp fun h => key_ne h

theorem mem_items {candidates : Table String (ℕ × ℚ)} {c : Candidate} :
    c ∈ sortOn Candidate.key (items candidates) ↔
      candidates.get? c.uuid = some (c.id, c.score) := by
  rw [(sortOn_perm _ _).mem_iff, items, List.mem_map, Table.get?_eq_some]
  constructor
  · rintro ⟨e, he, rfl⟩
    exact he
  · intro h
    exact ⟨_, h, rfl⟩

/-- The merge keeps the baseline, and of the others the first ones up to the cap. -/
theorem capAdded_eq (baseline : List ℕ) (result added : List ℕ) (hl : l.Nodup)
    (hadded : added.length ≤ 40) :
    capAdded baseline l (result, added) =
      (result ++ (l.filter fun c => c.id ∈ baseline ∨
        c ∈ (l.filter fun c => c.id ∉ baseline).take (40 - added.length)).map Candidate.id,
      added ++
        ((l.filter fun c => c.id ∉ baseline).take (40 - added.length)).map Candidate.id) := by
  induction l generalizing result added with
  | nil => simp [capAdded]
  | cons c l ih =>
    obtain ⟨hc, hl⟩ := List.nodup_cons.mp hl
    by_cases hbase : c.id ∈ baseline
    · have hout : (c :: l).filter (fun c => c.id ∉ baseline) =
          l.filter fun c => c.id ∉ baseline := by
        simp [hbase]
      rw [capAdded, if_pos hbase, ih _ _ hl hadded, hout,
        List.filter_cons_of_pos (by simp [hbase])]
      simp
    · have hout : (c :: l).filter (fun c => c.id ∉ baseline) =
          c :: l.filter fun c => c.id ∉ baseline := by
        simp [hbase]
      rw [capAdded, if_neg hbase, hout]
      split
      · rename_i hfull
        rw [ih _ _ hl hadded, hfull]
        simp [hbase]
      · obtain ⟨k, hk⟩ : ∃ k, 40 - added.length = k + 1 := ⟨39 - added.length, by omega⟩
        have hleft : 40 - (added ++ [c.id]).length = k := by
          rw [List.length_append, List.length_singleton]
          omega
        rw [ih _ _ hl (by rw [List.length_append, List.length_singleton]; omega), hleft, hk,
          List.take_succ_cons]
        have hrest : (l.filter fun d => d.id ∈ baseline ∨
              d ∈ c :: (l.filter fun c => c.id ∉ baseline).take k) =
            l.filter fun d => d.id ∈ baseline ∨
              d ∈ (l.filter fun c => c.id ∉ baseline).take k := by
          refine List.filter_congr fun d hd => ?_
          have hne : d ≠ c := fun h => hc (h ▸ hd)
          simp [hne]
        rw [List.filter_cons_of_pos (by simp), hrest]
        simp

end Merge

end Hippo.Retrieval
