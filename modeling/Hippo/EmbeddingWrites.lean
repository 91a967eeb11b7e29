import Hippo.EmbeddingStore

/-!
# What a store of vectors leaves behind

A store replaces one pair of vectors, cleans the texts of its node and records its model, or it
changes nothing. The operator's loop does this for every node of the corpus.
-/
namespace Hippo.EmbeddingStore

open Transition

section Stores

variable {F D B : Type} {num : Numbers F D B} {clean : String → String} {replaces : Bool}
  {db db' : Db B} {id : ℕ} {model : String} {vectors : List F × List F}

theorem require_eq_ok {p : Prop} [Decidable p] {e : Refusal} {u : Unit} :
    require p e = .ok u ↔ p := by
  by_cases h : p <;> simp [require, h]

/-- A model name that is recorded is not empty. -/
theorem model_ne_of_strip {u : Unit}
    (h : require ((PyText.strip model).isEmpty = false) .blankModel = .ok u) :
    model.isEmpty = false := by
  by_contra hempty
  rw [Bool.not_eq_false, String.isEmpty_iff] at hempty
  rw [require_eq_ok, hempty] at h
  exact absurd h (by decide)

/-- What a store leaves behind. -/
structure Wrote (db db' : Db B) (id : ℕ) (model : String) (pair : List B × List B) : Prop where
  model_eq : db'.model = some model
  model_ne : model.isEmpty = false
  vectors_eq : ∀ j, db'.vectors.get? j = if j = id then some pair else db.vectors.get? j
  nodes_eq : ∀ j, j ≠ id → db'.nodes.get? j = db.nodes.get? j
  keys_iff : id ∈ db'.nodes.keys ↔ id ∈ db.nodes.keys

theorem publishTexts_keys (clean : String → String) (db : Db B) (id : ℕ) (stored : Option Node) :
    (publishTexts clean db id stored).nodes.keys = db.nodes.keys := by
  unfold publishTexts
  split
  · rfl
  · split_ifs
    · rfl
    · exact Table.keys_mapRows _ _

theorem publishTexts_get?_of_ne {j : ℕ} (h : j ≠ id) (stored : Option Node) :
    (publishTexts clean db id stored).nodes.get? j = db.nodes.get? j := by
  unfold publishTexts
  split
  · rfl
  · split_ifs
    · rfl
    · exact Table.get?_modify_of_ne _ h _

/-- The texts that were read are still there. -/
theorem publishTexts_get? : (publishTexts clean db id (db.nodes.get? id)).nodes.get? id =
    (db.nodes.get? id).map (Node.cleaned clean) := by
  cases hnode : db.nodes.get? id with
  | none => simp [publishTexts, hnode]
  | some node =>
    simp only [publishTexts]
    split_ifs with hclean
    · simp [hnode, hclean]
    · simp [hnode, Node.cleaned]

@[simp] theorem publishTexts_vectors (clean : String → String) (db : Db B) (id : ℕ)
    (stored : Option Node) : (publishTexts clean db id stored).vectors = db.vectors := by
  unfold publishTexts
  split
  · rfl
  · split_ifs <;> rfl

theorem writeVectors_ok {stored : Option Node} {replaceExisting : Bool}
    (h : writeVectors num clean replaces db id stored vectors model replaceExisting = .ok db') :
    ∃ pair, vecBlob num vectors.1 = .ok pair.1 ∧ vecBlob num vectors.2 = .ok pair.2 ∧
      Wrote db db' id model pair ∧ db'.nodes = (publishTexts clean db id stored).nodes := by
  obtain ⟨inserted, hinsert, hrecord⟩ := bind_eq_ok.mp h
  obtain ⟨knowledge, hk, hinsert⟩ := bind_eq_ok.mp hinsert
  obtain ⟨command, hc, hinsert⟩ := bind_eq_ok.mp hinsert
  obtain ⟨_, -, hinsert⟩ := bind_eq_ok.mp hinsert
  obtain ⟨_, hblank, hrecord⟩ := bind_eq_ok.mp hrecord
  cases hinsert
  cases hrecord
  have hnodes : (if replaceExisting = true then
      { publishTexts clean db id stored with
        vectors := (publishTexts clean db id stored).vectors.erase id }
      else publishTexts clean db id stored).nodes = (publishTexts clean db id stored).nodes := by
    split_ifs <;> rfl
  have hne := model_ne_of_strip hblank
  refine ⟨(knowledge, command), hk, hc, ⟨rfl, hne, fun j => ?_, fun j hj => ?_, ?_⟩, hnodes⟩
  · by_cases hj : j = id
    · simp [hj]
    · cases replaceExisting <;> simp [hj]
  · simp only [hnodes]
    exact publishTexts_get?_of_ne hj stored
  · simp only [hnodes, publishTexts_keys]

theorem storeNodeVectors_ok {allowSwitch replaceExisting : Bool}
    (h : storeNodeVectors num clean replaces db id vectors model allowSwitch replaceExisting =
      .ok db') :
    checkEmbedModelDrift db.model model allowSwitch = .ok () ∧
    ∃ pair, vecBlob num vectors.1 = .ok pair.1 ∧ vecBlob num vectors.2 = .ok pair.2 ∧
      Wrote db db' id model pair ∧
      db'.nodes.get? id = (db.nodes.get? id).map (Node.cleaned clean) := by
  obtain ⟨_, -, h⟩ := bind_eq_ok.mp h
  obtain ⟨_, -, h⟩ := bind_eq_ok.mp h
  obtain ⟨_, -, h⟩ := bind_eq_ok.mp h
  obtain ⟨_, hcheck, h⟩ := bind_eq_ok.mp h
  obtain ⟨pair, hk, hc, hwrote, hnodes⟩ := writeVectors_ok h
  exact ⟨hcheck, pair, hk, hc, hwrote, by rw [hnodes, publishTexts_get?]⟩

end Stores

section Corpus

variable {F D B : Type} {num : Numbers F D B} {clean : String → String} {replaces : Bool}
  {db db' : Db B} {model : String}

theorem corpusInputs_get? {id : ℕ} {node : Node} :
    (id, node) ∈ corpusInputs db ↔ db.nodes.get? id = some node := by
  rw [corpusInputs, (orderBy_perm _ _).mem_iff, Table.get?_eq_some]

theorem nodup_corpusInputs (db : Db B) : ((corpusInputs db).map Prod.fst).Nodup :=
  nodup_map_orderBy db.nodes.nodup

/-- The staged file gives back what the server answered. -/
theorem vecBlob_unpack (hround : ∀ d, num.double (num.unpack d) = some d) {vec : List F}
    {staged : List D} (h : vec.mapM num.double = some staged) :
    vecBlob num (staged.map num.unpack) = vecBlob num vec := by
  have hmap : (staged.map num.unpack).mapM (fun x => (num.double x).bind num.single) =
      vec.mapM fun x => (num.double x).bind num.single := by
    induction vec generalizing staged with
    | nil =>
      cases h
      rfl
    | cons x xs ih =>
      simp only [List.mapM_cons, Option.bind_eq_bind, Option.bind_eq_some_iff] at h
      obtain ⟨d, hd, ds, hds, h⟩ := h
      cases h
      simp [hround, hd, ih hds]
  simp only [vecBlob, hmap]

/-- The loop stores the pair of every node of the list, and touches no other. -/
theorem republish_ok {l : List (ℕ × (List D × List D))} (hnodup : (l.map Prod.fst).Nodup)
    (h : republish num clean replaces model db l = .ok db') :
    (∀ e ∈ l, db'.nodes.get? e.1 = (db.nodes.get? e.1).map (Node.cleaned clean) ∧
      ∃ pair, vecBlob num (e.2.1.map num.unpack) = .ok pair.1 ∧
        vecBlob num (e.2.2.map num.unpack) = .ok pair.2 ∧ db'.vectors.get? e.1 = some pair) ∧
    ∀ j, j ∉ l.map Prod.fst →
      db'.nodes.get? j = db.nodes.get? j ∧ db'.vectors.get? j = db.vectors.get? j := by
  induction l generalizing db with
  | nil =>
    cases h
    simp
  | cons first rest ih =>
    obtain ⟨id, staged⟩ := first
    obtain ⟨mid, hstore, hrest⟩ := bind_eq_ok.mp h
    obtain ⟨-, pair, hk, hc, hwrote, hnode⟩ := storeNodeVectors_ok hstore
    rw [List.map_cons, List.nodup_cons] at hnodup
    obtain ⟨hin, hout⟩ := ih hnodup.2 hrest
    have hne : ∀ e ∈ rest, e.1 ≠ id := by
      intro e he heq
      have hmem : e.1 ∈ rest.map Prod.fst := List.mem_map_of_mem he
      exact hnodup.1 (heq ▸ hmem)
    constructor
    · intro e he
      rcases List.mem_cons.mp he with rfl | he
      · obtain ⟨hnodes, hvectors⟩ := hout id hnodup.1
        refine ⟨hnodes.trans hnode, pair, hk, hc, ?_⟩
        rw [hvectors, hwrote.vectors_eq, if_pos rfl]
      · have hsame := hwrote.nodes_eq e.1 (hne e he)
        rw [← hsame]
        exact hin e he
    · intro j hj
      rw [List.map_cons, List.mem_cons, not_or] at hj
      obtain ⟨hnodes, hvectors⟩ := hout j hj.2
      rw [hnodes, hvectors, hwrote.nodes_eq j hj.1, hwrote.vectors_eq, if_neg hj.1]
      exact ⟨rfl, rfl⟩

end Corpus

end Hippo.EmbeddingStore
