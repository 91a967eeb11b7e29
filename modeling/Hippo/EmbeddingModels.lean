import Hippo.EmbeddingWrites

/-!
# One model in the corpus

The vectors of the nodes are of the recorded model as long as no store writes after the model has
changed under it: its check is in no transaction with its write. What the operator's command
publishes is made of the texts that the nodes have when it is published.
-/
namespace Hippo.EmbeddingStore

open Transition

section Answers

/-- The two vectors of a node. -/
inductive Arm where
  | knowledge
  | command
deriving DecidableEq

def Arm.of {α : Type} : Arm → α × α → α
  | .knowledge => Prod.fst
  | .command => Prod.snd

def Request.model (r : Request) : Arm → String
  | .knowledge => r.embedModel
  | .command => r.modelOfCommands

def Request.text (clean : String → String) (r : Request) : Arm → String
  | .knowledge => r.knowledgeText clean
  | .command => r.commandText clean

variable {F D B : Type} (num : Numbers F D B) (clean : String → String)
  (served : String → String → List F → Prop)

/-- The vector that a call waits for. -/
def Stage.awaits : Stage F → Option Arm
  | .asked => some .knowledge
  | .askedCommand _ => some .command
  | _ => none

/-- The vector that a job waits for. -/
def Job.awaits (job : Job F D) : Option (Request × Arm) :=
  job.inputs[job.staged.length]?.map fun input =>
    (job.request input, if job.half.isNone then .knowledge else .command)

/-- The vector is the server's, for the model and the text of this request. -/
def Answers (r : Request) (arm : Arm) (vec : List F) : Prop :=
  served (r.model arm) (r.text clean arm) vec

/-- What arrives is what the server gives for what was asked. -/
def Answering (w : World F D B) : Act F → Prop
  | .answer k vec => ∀ call arm, w.calls[k]? = some call → call.stage.awaits = some arm →
    Answers clean served call.request arm vec
  | .answerJob k vec => ∀ job r arm, w.jobs[k]? = some job → job.awaits = some (r, arm) →
    Answers clean served r arm vec
  | _ => True

/-- The vectors that a call has got. -/
def Stage.Kept (r : Request) : Stage F → Prop
  | .called => True
  | .asked => True
  | .askedCommand knowledge => Answers clean served r .knowledge knowledge
  | .prepared vectors => ∀ arm, Answers clean served r arm (arm.of vectors)
  | .checked vectors => ∀ arm, Answers clean served r arm (arm.of vectors)
  | .read vectors _ => ∀ arm, Answers clean served r arm (arm.of vectors)

/-- The vectors that a job has got: whole pairs in the file, in the order of its inputs. -/
structure Job.Kept (job : Job F D) : Prop where
  staged : ∀ (i : ℕ) (pair : List D × List D), job.staged[i]? = some pair →
    ∃ input, job.inputs[i]? = some input ∧ ∃ vectors : List F × List F, ∀ arm : Arm,
      Answers clean served (job.request input) arm (arm.of vectors) ∧
        (arm.of vectors).mapM num.double = some (arm.of pair)
  half : ∀ knowledge input, job.half = some knowledge →
    job.inputs[job.staged.length]? = some input →
      Answers clean served (job.request input) .knowledge knowledge

structure World.Kept (w : World F D B) : Prop where
  calls : ∀ call ∈ w.calls, call.stage.Kept clean served call.request
  jobs : ∀ job ∈ w.jobs, job.Kept num clean served

end Answers

section Steps

variable {F D B : Type} {num : Numbers F D B} {clean : String → String} {replaces : Bool}
  {served : String → String → List F → Prop} {db db' : Db B} {w w' : World F D B}

/-- What a call does to the store: nothing, or one store. The check is of this moment only with
`replace_existing`. -/
theorem goOn_db {call : Call F} {next : Option (Stage F)}
    (h : call.goOn num clean replaces db = some (db', next)) :
    db' = db ∨ ∃ vectors pair,
      (∀ arm : Arm, vecBlob num (arm.of vectors) = .ok (arm.of pair)) ∧
      Wrote db db' call.request.node call.request.embedModel pair ∧
      ((call.stage = .prepared vectors ∧ checkEmbedModelDrift db.model call.request.embedModel
        call.request.allowSwitch = .ok ()) ∨ ∃ stored, call.stage = .read vectors stored) := by
  obtain ⟨r, stage⟩ := call
  cases stage with
  | called | checked =>
    cases h
    exact Or.inl rfl
  | asked | askedCommand => cases h
  | prepared vectors =>
    by_cases hreplace : r.replaceExisting = true
    · simp only [Call.goOn, if_pos hreplace] at h
      cases hstore : storeNodeVectors num clean replaces db r.node vectors r.embedModel
        r.allowSwitch true with
      | error e =>
        rw [hstore] at h
        cases h
        exact Or.inl rfl
      | ok stored =>
        rw [hstore] at h
        cases h
        obtain ⟨hcheck, pair, hk, hc, hwrote, -⟩ := storeNodeVectors_ok hstore
        refine Or.inr ⟨vectors, pair, fun arm => ?_, hwrote, Or.inl ⟨rfl, hcheck⟩⟩
        cases arm
        · exact hk
        · exact hc
    · simp only [Call.goOn, if_neg hreplace] at h
      cases h
      exact Or.inl rfl
  | read vectors stored =>
    simp only [Call.goOn] at h
    cases hstore : writeVectors num clean replaces db r.node stored vectors r.embedModel false with
    | error e =>
      rw [hstore] at h
      cases h
      exact Or.inl rfl
    | ok written =>
      rw [hstore] at h
      cases h
      obtain ⟨pair, hk, hc, hwrote, -⟩ := writeVectors_ok hstore
      refine Or.inr ⟨vectors, pair, fun arm => ?_, hwrote, Or.inr ⟨stored, rfl⟩⟩
      cases arm
      · exact hk
      · exact hc

theorem kept_goOn {call : Call F} {stage : Stage F}
    (hk : call.stage.Kept clean served call.request)
    (h : call.goOn num clean replaces db = some (db', some stage)) :
    stage.Kept clean served call.request := by
  obtain ⟨r, now⟩ := call
  cases now with
  | called =>
    simp only [Call.goOn] at h
    split_ifs at h <;> cases h
    trivial
  | asked | askedCommand => cases h
  | prepared vectors =>
    simp only [Call.goOn] at h
    split_ifs at h <;> cases h
    exact hk
  | checked vectors =>
    cases h
    exact hk
  | read vectors stored => cases h

theorem kept_answer {r : Request} {stage next : Stage F} {vec : List F}
    (hk : stage.Kept clean served r)
    (ha : ∀ arm, stage.awaits = some arm → Answers clean served r arm vec)
    (h : stage.answer vec = some (some next)) : next.Kept clean served r := by
  cases stage with
  | asked =>
    simp only [Stage.answer] at h
    split_ifs at h <;> cases h
    exact ha .knowledge rfl
  | askedCommand knowledge =>
    simp only [Stage.answer] at h
    split_ifs at h <;> cases h
    intro arm
    cases arm
    · exact hk
    · exact ha .command rfl
  | called | prepared | checked | read => cases h

theorem kept_answerJob {job next : Job F D} {vec : List F} (hk : job.Kept num clean served)
    (ha : ∀ r arm, job.awaits = some (r, arm) → Answers clean served r arm vec)
    (h : job.answer num vec = some (some next)) : next.Kept num clean served := by
  by_cases hlt : job.staged.length < job.inputs.length
  swap
  · simp [Job.answer, hlt] at h
  rw [Job.answer, if_pos hlt] at h
  obtain ⟨input, hinput⟩ : ∃ input, job.inputs[job.staged.length]? = some input :=
    ⟨_, List.getElem?_eq_getElem hlt⟩
  cases hhalf : job.half with
  | none =>
    rw [hhalf] at h
    simp only at h
    split_ifs at h <;> cases h
    refine ⟨hk.staged, fun knowledge input' hsome hinput' => ?_⟩
    cases hsome
    have hasked : Answers clean served (job.request input') .knowledge vec :=
      ha _ _ (by simp [Job.awaits, show job.inputs[job.staged.length]? = _ from hinput', hhalf])
    exact hasked
  | some knowledge =>
    have hcommand := ha (job.request input) .command (by simp [Job.awaits, hinput, hhalf])
    have hknowledge := hk.half knowledge input hhalf hinput
    rw [hhalf] at h
    simp only at h
    split at h
    · rename_i dk dc hdk hdc
      split_ifs at h <;> cases h
      refine ⟨fun i pair hpair => ?_, fun _ _ hsome => by cases hsome⟩
      rcases Nat.lt_trichotomy i job.staged.length with hi | rfl | hi
      · rw [List.getElem?_append_left hi] at hpair
        exact hk.staged i pair hpair
      · simp only [List.getElem?_concat_length, Option.some.injEq] at hpair
        subst hpair
        refine ⟨input, hinput, (knowledge, vec), fun arm => ?_⟩
        cases arm
        · exact ⟨hknowledge, hdk⟩
        · exact ⟨hcommand, hdc⟩
      · rw [List.getElem?_eq_none (by simp; omega)] at hpair
        cases hpair
    · cases h

/-- A job asks for the same all along. -/
theorem request_answer {job next : Job F D} {vec : List F}
    (h : job.answer num vec = some (some next)) (input : ℕ × Node) :
    next.request input = job.request input := by
  by_cases hlt : job.staged.length < job.inputs.length
  swap
  · simp [Job.answer, hlt] at h
  rw [Job.answer, if_pos hlt] at h
  split at h
  · split_ifs at h <;> cases h
    rfl
  · split at h
    · split_ifs at h <;> cases h
      rfl
    · cases h

theorem kept_start : (World.start db : World F D B).Kept num clean served :=
  ⟨fun _ hmem => absurd hmem List.not_mem_nil, fun _ hmem => absurd hmem List.not_mem_nil⟩

theorem kept_step {a : Act F} (h : w.Kept num clean served) (ha : Answering clean served w a)
    (hs : step num clean replaces w a = some w') : w'.Kept num clean served := by
  cases a with
  | embed r =>
    cases hs
    refine ⟨fun call hcall => ?_, h.jobs⟩
    rcases List.mem_append.mp hcall with hcall | hcall
    · exact h.calls call hcall
    · cases List.mem_singleton.mp hcall
      trivial
  | goOn k =>
    obtain ⟨call, hk, hs⟩ := Option.bind_eq_some_iff.mp hs
    obtain ⟨o, ho, hs⟩ := Option.map_eq_some_iff.mp hs
    cases hs
    refine ⟨fun op hop => ?_, h.jobs⟩
    rcases mem_replaceAt hop with hop | hop
    · exact h.calls op hop
    · obtain ⟨stage, hstage, rfl⟩ := List.mem_map.mp hop
      have hcall := h.calls call (List.mem_of_getElem? hk)
      obtain ⟨db, next⟩ := o
      cases Option.mem_toList.mp hstage
      have hnext := kept_goOn hcall ho
      exact hnext
  | answer k vec =>
    obtain ⟨call, hk, hs⟩ := Option.bind_eq_some_iff.mp hs
    obtain ⟨o, ho, hs⟩ := Option.map_eq_some_iff.mp hs
    cases hs
    refine ⟨fun op hop => ?_, h.jobs⟩
    rcases mem_replaceAt hop with hop | hop
    · exact h.calls op hop
    · obtain ⟨stage, hstage, rfl⟩ := List.mem_map.mp hop
      cases Option.mem_toList.mp hstage
      exact kept_answer (h.calls call (List.mem_of_getElem? hk)) (fun arm => ha call arm hk) ho
  | fail k =>
    obtain ⟨call, hk, hs⟩ := Option.map_eq_some_iff.mp hs
    cases hs
    refine ⟨fun op hop => ?_, h.jobs⟩
    rcases mem_replaceAt hop with hop | hop
    · exact h.calls op hop
    · cases hop
  | reEmbed embedModel commandModel =>
    cases hs
    refine ⟨h.calls, fun job hjob => ?_⟩
    rcases List.mem_append.mp hjob with hjob | hjob
    · exact h.jobs job hjob
    · cases List.mem_singleton.mp hjob
      exact ⟨fun i pair hpair => by simp at hpair, fun _ _ hhalf => by cases hhalf⟩
  | answerJob k vec =>
    obtain ⟨job, hk, hs⟩ := Option.bind_eq_some_iff.mp hs
    obtain ⟨o, ho, hs⟩ := Option.map_eq_some_iff.mp hs
    cases hs
    refine ⟨h.calls, fun next hnext => ?_⟩
    rcases mem_replaceAt hnext with hnext | hnext
    · exact h.jobs next hnext
    · cases Option.mem_toList.mp hnext
      exact kept_answerJob (h.jobs job (List.mem_of_getElem? hk)) (fun r arm => ha job r arm hk) ho
  | publish k =>
    obtain ⟨job, hk, hs⟩ := Option.bind_eq_some_iff.mp hs
    split_ifs at hs
    cases hs
    refine ⟨h.calls, fun next hnext => ?_⟩
    rcases mem_replaceAt hnext with hnext | hnext
    · exact h.jobs next hnext
    · cases hnext
  | failJob k =>
    obtain ⟨job, hk, hs⟩ := Option.map_eq_some_iff.mp hs
    cases hs
    refine ⟨h.calls, fun next hnext => ?_⟩
    rcases mem_replaceAt hnext with hnext | hnext
    · exact h.jobs next hnext
    · cases hnext
  | others nodes gone =>
    cases hs
    exact ⟨h.calls, h.jobs⟩

end Steps

section Publishing

variable {F D B : Type} (num : Numbers F D B) (clean : String → String)
  (served : String → String → List F → Prop)

/-- The blob is the server's vector for a model and a text. -/
def MadeOf (model text : String) (blob : List B) : Prop :=
  ∃ vec, served model text vec ∧ vecBlob num vec = .ok blob

/-- After a publication each node has the pair made of the texts it had, and its texts are clean.
Vectors without a node are as they were. -/
structure Published (job : Job F D) (db db' : Db B) : Prop where
  model_eq : db'.model = some job.embedModel
  model_ne : job.embedModel.isEmpty = false
  made : ∀ id node, db.nodes.get? id = some node →
    db'.nodes.get? id = some (node.cleaned clean) ∧
    ∃ pair, db'.vectors.get? id = some pair ∧ ∀ arm : Arm,
      MadeOf num served ((job.request (id, node)).model arm)
        ((job.request (id, node)).text clean arm) (arm.of pair)
  others : ∀ id, db.nodes.get? id = none →
    db'.nodes.get? id = none ∧ db'.vectors.get? id = db.vectors.get? id

variable {num clean served} {replaces : Bool} {db db' : Db B} {job : Job F D} {w w' : World F D B}

theorem published_of_publish (hround : ∀ d, num.double (num.unpack d) = some d)
    (hkept : job.Kept num clean served) (hlength : job.staged.length = job.inputs.length)
    (h : job.publish num clean replaces db = .ok db') :
    corpusInputs db = job.inputs ∧ db.model = job.oldModel ∧
      Published num clean served job db db' := by
  obtain ⟨_, hsame, h⟩ := bind_eq_ok.mp h
  obtain ⟨hinputs, hmodel⟩ := require_eq_ok.mp hsame
  obtain ⟨looped, hloop, h⟩ := bind_eq_ok.mp h
  obtain ⟨_, hblank, h⟩ := bind_eq_ok.mp h
  cases h
  have hids : ((job.inputs.map Prod.fst).zip job.staged).map Prod.fst = job.inputs.map Prod.fst :=
    List.map_fst_zip (by simp [hlength])
  have hnodup : (((job.inputs.map Prod.fst).zip job.staged).map Prod.fst).Nodup := by
    rw [hids, ← hinputs]
    exact nodup_corpusInputs db
  obtain ⟨hin, hout⟩ := republish_ok hnodup hloop
  refine ⟨hinputs, hmodel, rfl, model_ne_of_strip hblank, fun id node hnode => ?_,
    fun id hnone => ?_⟩
  · have hmem : (id, node) ∈ job.inputs := hinputs ▸ corpusInputs_get?.mpr hnode
    obtain ⟨i, hi⟩ := List.mem_iff_getElem?.mp hmem
    have hlt : i < job.staged.length := by
      rw [hlength]
      exact (List.getElem?_eq_some_iff.mp hi).1
    have hpair : job.staged[i]? = some job.staged[i] := List.getElem?_eq_getElem hlt
    have hentry : (id, job.staged[i]) ∈ (job.inputs.map Prod.fst).zip job.staged :=
      List.mem_of_getElem? (i := i) (by simp [List.getElem?_zip_eq_some, hi, hpair])
    obtain ⟨hclean, pair, hk, hc, hvectors⟩ := hin _ hentry
    obtain ⟨input, hinput, vectors, hmade⟩ := hkept.staged i _ hpair
    cases hi.symm.trans hinput
    refine ⟨by simpa [hnode] using hclean, pair, hvectors, fun arm => ?_⟩
    obtain ⟨hanswer, hstaged⟩ := hmade arm
    refine ⟨arm.of vectors, hanswer, ?_⟩
    rw [← vecBlob_unpack hround hstaged]
    cases arm
    · exact hk
    · exact hc
  · have hid : id ∉ ((job.inputs.map Prod.fst).zip job.staged).map Prod.fst := by
      rw [hids, ← hinputs]
      intro hmem
      obtain ⟨⟨j, node⟩, hnode, rfl⟩ := List.mem_map.mp hmem
      rw [corpusInputs_get?, hnone] at hnode
      cases hnode
    obtain ⟨hnodes, hvectors⟩ := hout id hid
    exact ⟨hnodes.trans hnone, hvectors⟩

/-- Whatever happens while the operator's command waits for the server, it publishes all of the
corpus as it is by then, or nothing: not if a node was added, changed, deleted or got other
commands, nor if the model was changed. -/
theorem publish_exact (hround : ∀ d, num.double (num.unpack d) = some d)
    (hrun : Run (step num clean replaces) (Answering clean served) (World.start db) w) {k : ℕ}
    (hs : step num clean replaces w (.publish k) = some w') :
    w'.db = w.db ∨ ∃ job, w.jobs[k]? = some job ∧ corpusInputs w.db = job.inputs ∧
      w.db.model = job.oldModel ∧ Published num clean served job w.db w'.db := by
  have hkept : w.Kept num clean served :=
    hrun.invariant (fun _ _ _ h ha hs => kept_step h ha hs) kept_start
  obtain ⟨job, hk, hs⟩ := Option.bind_eq_some_iff.mp hs
  split_ifs at hs with hlength
  cases hs
  cases hpublish : job.publish num clean replaces w.db with
  | error e => exact Or.inl rfl
  | ok db' =>
    have hjob := hkept.jobs job (List.mem_of_getElem? hk)
    obtain ⟨hinputs, hmodel, hpublished⟩ := published_of_publish hround hjob hlength hpublish
    exact Or.inr ⟨job, hk, hinputs, hmodel, hpublished⟩

def bits : Numbers Bool Bool Bool := ⟨some, some, id⟩

def oneNode : Db Bool := ⟨⟨[(1, ⟨"u", "c", "e", none, ["ls"]⟩)], by simp⟩, .empty, none⟩

/-- The operator's command has staged the vectors of one node. -/
theorem run_oneNode {vec : List Bool} (hvec : vec.length = embedDim) :
    Run (step bits id false) (Answering id fun _ _ v => v = vec) (World.start oneNode)
      ⟨oneNode, [], [⟨"m", "", corpusInputs oneNode, none, [(vec, vec)], none⟩]⟩ := by
  have hall : vec.mapM bits.double = some vec :=
    (List.mapM_pure (f := id)).trans (congrArg some (List.map_id vec))
  refine Run.head (a := .reEmbed "m" "") trivial rfl ?_
  refine Run.head (a := .answerJob 0 vec)
    (t := ⟨oneNode, [], [⟨"m", "", corpusInputs oneNode, none, [], some vec⟩]⟩)
    (fun _ _ _ _ _ => rfl) ?_ (Run.single (a := .answerJob 0 vec) (fun _ _ _ _ _ => rfl) ?_)
  · simp [step, Job.answer, replaceAt, World.start, hvec, corpusInputs, oneNode, orderBy]
  · simp [step, Job.answer, replaceAt, hvec, hall, corpusInputs, oneNode, orderBy]

/-- A vector of the server. -/
def ones : List Bool := List.replicate embedDim true

theorem length_ones : ones.length = embedDim := List.length_replicate

theorem publish_exact_of_one :
    ∃ w w' : World Bool Bool Bool, step bits id false w (.publish 0) = some w' ∧
      (w'.db = w.db ∨ ∃ job, w.jobs[0]? = some job ∧ corpusInputs w.db = job.inputs ∧
        w.db.model = job.oldModel ∧ Published bits id (fun _ _ v => v = ones) job w.db w'.db) := by
  obtain ⟨w', hs⟩ : ∃ w', step bits id false
      ⟨oneNode, [], [⟨"m", "", corpusInputs oneNode, none, [(ones, ones)], none⟩]⟩
      (.publish 0) = some w' := by
    simp [step, corpusInputs, oneNode, orderBy]
  exact ⟨_, w', hs, publish_exact (fun _ => rfl) (run_oneNode length_ones) hs⟩

end Publishing

end Hippo.EmbeddingStore
