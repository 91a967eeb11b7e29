import Hippo.EmbeddingModels

/-!
# When the drift guard holds

The guard refuses the stores of another model, but a store checks the recorded model before its
transaction begins. If nothing changes the model between the check and the write, all vectors of
nodes are of one model, through every publication; where something does, the write mixes the corpus
as soon as another node has a vector.
-/
namespace Hippo.EmbeddingStore

open Transition

section Uniformity

variable {F D B : Type} (num : Numbers F D B) (clean : String → String)
  (served : String → String → List F → Prop) (arm : Arm)

/-- One arm of the corpus is of the recorded model: a vector that belongs to a node is. -/
def Uniform (db : Db B) : Prop :=
  ∀ id node pair, db.nodes.get? id = some node → db.vectors.get? id = some pair →
    ∃ model text, model.isEmpty = false ∧ db.model = some model ∧
      MadeOf num served model text (arm.of pair)

/-- The steps that keep to one model: callers that do not switch the model and use it for this arm,
no write after the model changed, and new nodes that no vector waits for. -/
def Careful (w : World F D B) (a : Act F) : Prop :=
  Answering clean served w a ∧
  match a with
  | .embed r => r.allowSwitch = false ∧ r.model arm = r.embedModel
  | .goOn k => ∀ call vectors stored, w.calls[k]? = some call → call.stage = .read vectors stored →
    checkEmbedModelDrift w.db.model call.request.embedModel false = .ok ()
  | .reEmbed embedModel commandModel =>
    arm = .command → commandModel.isEmpty = true ∨ commandModel = embedModel
  | .others nodes gone => ∀ id, w.db.nodes.get? id = none → nodes.get? id ≠ none →
    w.db.vectors.get? id = none ∨ id ∈ gone
  | _ => True

/-- The callers and the operator use the recorded model for this arm. -/
structure Plain (w : World F D B) : Prop where
  calls : ∀ call ∈ w.calls, call.request.allowSwitch = false ∧
    call.request.model arm = call.request.embedModel
  jobs : ∀ job ∈ w.jobs, ∀ input, (job.request input).model arm = job.embedModel

variable {num clean served arm} {db db' : Db B} {id : ℕ} {model text : String}
  {pair : List B × List B}

/-- A store while the guard would let it pass. -/
theorem Uniform.wrote (h : Uniform num served arm db) (hw : Wrote db db' id model pair)
    (hcheck : checkEmbedModelDrift db.model model false = .ok ())
    (hmade : MadeOf num served model text (arm.of pair)) : Uniform num served arm db' := by
  intro j node pair' hnode hpair
  rw [hw.vectors_eq] at hpair
  by_cases hj : j = id
  · rw [if_pos hj] at hpair
    cases hpair
    exact ⟨model, text, hw.model_ne, hw.model_eq, hmade⟩
  · rw [if_neg hj] at hpair
    rw [hw.nodes_eq j hj] at hnode
    obtain ⟨recorded, text', hne, hmodel, hmade'⟩ := h j node pair' hnode hpair
    rw [hmodel, checkEmbedModelDrift, require_eq_ok] at hcheck
    have hsame : recorded = model := by simpa [hne] using hcheck
    exact ⟨model, text', hw.model_ne, hw.model_eq, hsame ▸ hmade'⟩

/-- Where the models' vectors differ, a store keeps the corpus uniform exactly if the guard would
let it pass when it writes, or no other node has a vector. -/
theorem uniform_wrote_iff
    (hdisjoint : ∀ m m' t t' blob, MadeOf num served m t blob →
      MadeOf num served m' t' blob → m = m')
    (h : Uniform num served arm db) (hw : Wrote db db' id model pair)
    (hmade : MadeOf num served model text (arm.of pair)) :
    Uniform num served arm db' ↔ checkEmbedModelDrift db.model model false = .ok () ∨
      ∀ j, j ≠ id → db.nodes.get? j ≠ none → db.vectors.get? j = none := by
  constructor
  · intro huniform
    by_cases halone : ∀ j, j ≠ id → db.nodes.get? j ≠ none → db.vectors.get? j = none
    · exact Or.inr halone
    · left
      push Not at halone
      obtain ⟨j, hj, hnode, hvector⟩ := halone
      obtain ⟨node, hnode⟩ := Option.ne_none_iff_exists'.mp hnode
      obtain ⟨pair', hvector⟩ := Option.ne_none_iff_exists'.mp hvector
      obtain ⟨recorded, t, -, hmodel, hold⟩ := h j node pair' hnode hvector
      have hnode' : db'.nodes.get? j = some node := (hw.nodes_eq j hj).trans hnode
      have hvector' : db'.vectors.get? j = some pair' := by
        rw [hw.vectors_eq, if_neg hj, hvector]
      obtain ⟨now, t', -, hmodel', hnew⟩ := huniform j node pair' hnode' hvector'
      cases hmodel'.symm.trans hw.model_eq
      cases hdisjoint _ _ _ _ _ hold hnew
      rw [hmodel, checkEmbedModelDrift, require_eq_ok]
      exact Or.inr (Or.inl rfl)
  · rintro (hcheck | halone)
    · exact h.wrote hw hcheck hmade
    · intro j node pair' hnode hpair
      by_cases hj : j = id
      · rw [hw.vectors_eq, if_pos hj] at hpair
        cases hpair
        exact ⟨model, text, hw.model_ne, hw.model_eq, hmade⟩
      · rw [hw.nodes_eq j hj] at hnode
        rw [hw.vectors_eq, if_neg hj, halone j hj (by simp [hnode])] at hpair
        cases hpair

/-- A publication replaces every vector that belongs to a node. -/
theorem Published.uniform {job : Job F D} (h : Published num clean served job db db')
    (hmodel : ∀ input, (job.request input).model arm = job.embedModel) :
    Uniform num served arm db' := by
  intro j node pair' hnode hpair
  cases hold : db.nodes.get? j with
  | none =>
    rw [(h.others j hold).1] at hnode
    cases hnode
  | some old =>
    obtain ⟨-, made, hvector, hmade⟩ := h.made j old hold
    cases hvector.symm.trans hpair
    have hthis := hmade arm
    rw [hmodel] at hthis
    exact ⟨job.embedModel, _, h.model_ne, h.model_eq, hthis⟩

end Uniformity

section Runs

variable {F D B : Type} {num : Numbers F D B} {clean : String → String} {replaces : Bool}
  {served : String → String → List F → Prop} {arm : Arm} {db : Db B} {w w' : World F D B}

theorem plain_start : Plain arm (World.start db : World F D B) :=
  ⟨fun _ hmem => absurd hmem List.not_mem_nil, fun _ hmem => absurd hmem List.not_mem_nil⟩

theorem plain_step {a : Act F} (h : Plain arm w) (ha : Careful clean served arm w a)
    (hs : step num clean replaces w a = some w') : Plain arm w' := by
  cases a with
  | embed r =>
    cases hs
    refine ⟨fun call hcall => ?_, h.jobs⟩
    rcases List.mem_append.mp hcall with hcall | hcall
    · exact h.calls call hcall
    · cases List.mem_singleton.mp hcall
      exact ha.2
  | goOn k =>
    obtain ⟨call, hk, hs⟩ := Option.bind_eq_some_iff.mp hs
    obtain ⟨o, -, hs⟩ := Option.map_eq_some_iff.mp hs
    cases hs
    refine ⟨fun op hop => ?_, h.jobs⟩
    rcases mem_replaceAt hop with hop | hop
    · exact h.calls op hop
    · obtain ⟨stage, -, rfl⟩ := List.mem_map.mp hop
      exact h.calls call (List.mem_of_getElem? hk)
  | answer k vec =>
    obtain ⟨call, hk, hs⟩ := Option.bind_eq_some_iff.mp hs
    obtain ⟨o, -, hs⟩ := Option.map_eq_some_iff.mp hs
    cases hs
    refine ⟨fun op hop => ?_, h.jobs⟩
    rcases mem_replaceAt hop with hop | hop
    · exact h.calls op hop
    · obtain ⟨stage, -, rfl⟩ := List.mem_map.mp hop
      exact h.calls call (List.mem_of_getElem? hk)
  | fail k =>
    obtain ⟨call, hk, hs⟩ := Option.map_eq_some_iff.mp hs
    cases hs
    refine ⟨fun op hop => ?_, h.jobs⟩
    exact h.calls op ((mem_replaceAt hop).resolve_right List.not_mem_nil)
  | reEmbed embedModel commandModel =>
    cases hs
    refine ⟨h.calls, fun job hjob => ?_⟩
    rcases List.mem_append.mp hjob with hjob | hjob
    · exact h.jobs job hjob
    · cases List.mem_singleton.mp hjob
      intro input
      cases arm with
      | knowledge => rfl
      | command =>
        rcases ha.2 rfl with hempty | hsame
        · simp [Request.model, Request.modelOfCommands, Job.request, hempty]
        · simp [Request.model, Request.modelOfCommands, Job.request, hsame]
  | answerJob k vec =>
    obtain ⟨job, hk, hs⟩ := Option.bind_eq_some_iff.mp hs
    obtain ⟨o, ho, hs⟩ := Option.map_eq_some_iff.mp hs
    cases hs
    refine ⟨h.calls, fun next hnext => ?_⟩
    rcases mem_replaceAt hnext with hnext | hnext
    · exact h.jobs next hnext
    · have hjob := h.jobs job (List.mem_of_getElem? hk)
      cases Option.mem_toList.mp hnext
      intro input
      have hsame := request_answer ho input
      have hembed : next.embedModel = job.embedModel := congrArg Request.embedModel hsame
      rw [hsame, hjob, hembed]
  | publish k =>
    obtain ⟨job, hk, hs⟩ := Option.bind_eq_some_iff.mp hs
    split_ifs at hs
    cases hs
    refine ⟨h.calls, fun next hnext => ?_⟩
    exact h.jobs next ((mem_replaceAt hnext).resolve_right List.not_mem_nil)
  | failJob k =>
    obtain ⟨job, hk, hs⟩ := Option.map_eq_some_iff.mp hs
    cases hs
    refine ⟨h.calls, fun next hnext => ?_⟩
    exact h.jobs next ((mem_replaceAt hnext).resolve_right List.not_mem_nil)
  | others nodes gone =>
    cases hs
    exact ⟨h.calls, h.jobs⟩

theorem uniform_step {a : Act F} (hround : ∀ d, num.double (num.unpack d) = some d)
    (hkept : w.Kept num clean served) (hplain : Plain arm w) (h : Uniform num served arm w.db)
    (ha : Careful clean served arm w a) (hs : step num clean replaces w a = some w') :
    Uniform num served arm w'.db := by
  cases a with
  | embed | reEmbed =>
    cases hs
    exact h
  | answer | answerJob =>
    obtain ⟨_, -, hs⟩ := Option.bind_eq_some_iff.mp hs
    obtain ⟨_, -, hs⟩ := Option.map_eq_some_iff.mp hs
    cases hs
    exact h
  | fail | failJob =>
    obtain ⟨_, -, hs⟩ := Option.map_eq_some_iff.mp hs
    cases hs
    exact h
  | goOn k =>
    obtain ⟨call, hk, hs⟩ := Option.bind_eq_some_iff.mp hs
    obtain ⟨⟨db', next⟩, ho, hs⟩ := Option.map_eq_some_iff.mp hs
    cases hs
    rcases goOn_db ho with rfl | ⟨vectors, pair, hblobs, hwrote, hstage⟩
    · exact h
    have hcall := List.mem_of_getElem? hk
    obtain ⟨hswitch, hmodel⟩ := hplain.calls call hcall
    have hanswers := hkept.calls call hcall
    -- the two stages that write have both vectors
    have hmade : MadeOf num served call.request.embedModel (call.request.text clean arm)
        (arm.of pair) := by
      refine ⟨arm.of vectors, ?_, hblobs arm⟩
      rw [← hmodel]
      rcases hstage with ⟨hstage, -⟩ | ⟨stored, hstage⟩
      · rw [hstage] at hanswers
        exact hanswers arm
      · rw [hstage] at hanswers
        exact hanswers arm
    refine h.wrote hwrote ?_ hmade
    rcases hstage with ⟨-, hcheck⟩ | ⟨stored, hstage⟩
    · rw [hswitch] at hcheck
      exact hcheck
    · exact ha.2 call vectors stored hk hstage
  | publish k =>
    obtain ⟨job, hk, hs⟩ := Option.bind_eq_some_iff.mp hs
    split_ifs at hs with hlength
    cases hs
    have hjob := List.mem_of_getElem? hk
    cases hpublish : job.publish num clean replaces w.db with
    | error e => exact h
    | ok db' =>
      obtain ⟨-, -, hpublished⟩ :=
        published_of_publish hround (hkept.jobs job hjob) hlength hpublish
      exact hpublished.uniform (hplain.jobs job hjob)
  | others nodes gone =>
    cases hs
    intro id node pair hnode hpair
    obtain ⟨hpair, hgone⟩ := Table.get?_delete_eq_some.mp hpair
    cases hold : w.db.nodes.get? id with
    | none =>
      rcases ha.2 id hold (by simp [hnode]) with hvector | hmem
      · rw [hvector] at hpair
        cases hpair
      · exact absurd hmem hgone
    | some old => exact h id old pair hold hpair

/-- In every run of callers, operators and other writers that keep to one model, each vector that
belongs to a node is of the model that is recorded. -/
theorem uniform_of_run (hround : ∀ d, num.double (num.unpack d) = some d)
    (h : Uniform num served arm db)
    (hrun : Run (step num clean replaces) (Careful clean served arm) (World.start db) w) :
    Uniform num served arm w.db := by
  have hall : w.Kept num clean served ∧ Plain arm w ∧ Uniform num served arm w.db := by
    refine hrun.invariant (I := fun w => w.Kept num clean served ∧ Plain arm w ∧
      Uniform num served arm w.db) ?_ ?_
    · intro s a t hs ha hst
      exact ⟨kept_step hs.1 ha.1 hst, plain_step hs.2.1 ha hst,
        uniform_step hround hs.1 hs.2.1 hs.2.2 ha hst⟩
    · exact ⟨kept_start, plain_start, h⟩
  exact hall.2.2

def oneRequest : Request := ⟨1, "e", "", "m", "", false, false⟩

/-- The server has one model. -/
def oneModel (model _text : String) (vec : List Bool) : Prop := model = "m" ∧ vec = ones

theorem uniform_oneNode : Uniform bits oneModel .knowledge oneNode := by
  intro id node pair _ hpair
  cases hpair

/-- A call up to its last look before it writes. -/
theorem run_read : Run (step bits id false) (Careful id oneModel .knowledge) (World.start oneNode)
    ⟨oneNode, [⟨oneRequest, .read (ones, ones) (oneNode.nodes.get? 1)⟩], []⟩ := by
  have hanswer : ∀ stage : Stage Bool, Careful id oneModel .knowledge
      (⟨oneNode, [⟨oneRequest, stage⟩], []⟩ : World Bool Bool Bool) (.answer 0 ones) := by
    refine fun stage => ⟨fun call arm hcall _ => ?_, trivial⟩
    cases hcall
    cases arm
    · exact ⟨rfl, rfl⟩
    · exact ⟨rfl, rfl⟩
  have hcheck : ∀ stage : Stage Bool, (∀ vectors stored, stage ≠ .read vectors stored) →
      Careful id oneModel .knowledge
        (⟨oneNode, [⟨oneRequest, stage⟩], []⟩ : World Bool Bool Bool) (.goOn 0) := by
    refine fun stage hne => ⟨trivial, fun call vectors stored hcall hstage => ?_⟩
    cases hcall
    exact absurd hstage (hne vectors stored)
  refine Run.head (a := .embed oneRequest) (t := ⟨oneNode, [⟨oneRequest, .called⟩], []⟩)
    ⟨trivial, rfl, rfl⟩ rfl ?_
  refine Run.head (a := .goOn 0) (t := ⟨oneNode, [⟨oneRequest, .asked⟩], []⟩)
    (hcheck .called fun _ _ h => by cases h) rfl ?_
  refine Run.head (a := .answer 0 ones) (t := ⟨oneNode, [⟨oneRequest, .askedCommand ones⟩], []⟩)
    (hanswer .asked) (by simp [step, Stage.answer, replaceAt, length_ones]) ?_
  refine Run.head (a := .answer 0 ones)
    (t := ⟨oneNode, [⟨oneRequest, .prepared (ones, ones)⟩], []⟩)
    (hanswer (.askedCommand ones)) (by simp [step, Stage.answer, replaceAt, length_ones]) ?_
  refine Run.head (a := .goOn 0) (t := ⟨oneNode, [⟨oneRequest, .checked (ones, ones)⟩], []⟩)
    (hcheck (.prepared (ones, ones)) fun _ _ h => by cases h) rfl ?_
  exact Run.single (a := .goOn 0) (hcheck (.checked (ones, ones)) fun _ _ h => by cases h) rfl

theorem uniform_of_run_of_call :
    ∃ w w' : World Bool Bool Bool, step bits id false w (.goOn 0) = some w' ∧
      Uniform bits oneModel .knowledge w'.db := by
  obtain ⟨w', hs⟩ : ∃ w', step bits id false
      ⟨oneNode, [⟨oneRequest, .read (ones, ones) (oneNode.nodes.get? 1)⟩], []⟩ (.goOn 0) =
        some w' := ⟨_, rfl⟩
  have hcareful : Careful id oneModel .knowledge
      (⟨oneNode, [⟨oneRequest, .read (ones, ones) (oneNode.nodes.get? 1)⟩], []⟩ :
        World Bool Bool Bool) (.goOn 0) := by
    refine ⟨trivial, fun call vectors stored hcall _ => ?_⟩
    cases hcall
    rfl
  exact ⟨_, w', hs, uniform_of_run (fun _ => rfl) uniform_oneNode
    (run_read.trans (Run.single hcareful hs))⟩

end Runs

end Hippo.EmbeddingStore
