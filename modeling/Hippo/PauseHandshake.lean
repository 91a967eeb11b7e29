import Hippo.Draining
import Mathlib.Data.Prod.Lex
import Mathlib.Order.Lattice

/-!
# The pause handshake

The brain is one event loop. Between two awaits a coroutine runs alone, so a step of this machine
is the code from one await to the next, and the steps of the tasks interleave in any order. A wait
for an event that is already set is a wait that the next step ends.

`/control/pause` answers from four flags whether inference is still in flight. The coroutines that
raise and lower these flags are modelled with the point at which each of them waits.
-/
namespace Hippo.PauseHandshake

open Transition Draining

/-- The registry of `enrichment_sources`. -/
inductive Source where
  | shell | claude | browser | workflow | opencode | claudeAutoMemory
deriving DecidableEq, Repr

def enrichmentSources : List Source :=
  [.shell, .claude, .browser, .workflow, .opencode, .claudeAutoMemory]

/-- A coroutine `source.enrich`: the claimed chunks that it has not processed, and the tasks of
`_embed_node` it has created that still run. -/
structure Child where
  source : Source
  chunks : ℕ
  embeds : ℕ
deriving DecidableEq, Repr

/-- What a child does when it runs. -/
inductive ChildStep where
  /-- A chunk is enriched or marked failed. A written node is embedded by a task of its own. -/
  | chunk (embed : Bool)
  /-- An embedding task ends. It does not raise. -/
  | embedded
  /-- The child returns once its embeddings are gathered. -/
  | ended
  /-- Marking a chunk failed has failed itself. -/
  | raised
deriving DecidableEq, Repr

/-- What is left of a child after its step. -/
structure Outcome where
  children : List Child
  /-- Embedding tasks that nothing waits for. -/
  stray : ℕ
  raised : Bool
deriving DecidableEq, Repr

def Child.step (c : Child) : ChildStep → Option Outcome
  | .chunk embed =>
    match c.chunks with
    | 0 => none
    | n + 1 =>
      some ⟨[{ c with chunks := n, embeds := c.embeds + if embed then 1 else 0 }], 0, false⟩
  | .embedded =>
    match c.embeds with
    | 0 => none
    | n + 1 => some ⟨[{ c with embeds := n }], 0, false⟩
  | .ended => if c.chunks = 0 ∧ c.embeds = 0 then some ⟨[], 0, false⟩ else none
  | .raised => if c.chunks = 0 then none else some ⟨[], c.embeds, true⟩

/-- Where `_enrichment_loop` waits. -/
inductive EnrichmentAt where
  | created
  | resumeEvent
  | queryArrived
  | drain
  | preflight
  | gather (running : List Child) (raised : Bool)
  | backoff
deriving DecidableEq, Repr

/-- Where a request under `_query_priority` waits: for its body, or in the handler. -/
inductive QueryAt where
  | body
  | handler
deriving DecidableEq, Repr

/-- Where `_embed_reaper_loop` waits, with the orphans of the sweep still to come. -/
inductive ReaperAt where
  | sleep
  | embedding (rest : List ℕ)
deriving DecidableEq, Repr

/-- Where `_classification_loop` waits. -/
inductive ClassificationAt where
  | created
  | batch
  | sleep
deriving DecidableEq, Repr

structure Brain where
  paused : Bool
  pausedAt : Option ℕ
  /-- What `read_state` finds in the operator's state file. -/
  operatorPaused : Bool
  queryInflight : ℕ
  queryArrived : Bool
  resumeEvent : Bool
  enrichmentActive : Bool
  classificationActive : Bool
  embedReaperActive : Bool
  enrichment : EnrichmentAt
  /-- Children of a gather that has raised. They go on by themselves. -/
  orphans : List Child
  strayEmbeds : ℕ
  classification : ClassificationAt
  reaper : ReaperAt
  /-- `eval_linkage.run_once` in its thread. -/
  linking : Bool
  requests : List QueryAt
deriving DecidableEq, Repr

/-- The server after `start_enrichment`. -/
def start : Brain where
  paused := false
  pausedAt := none
  operatorPaused := false
  queryInflight := 0
  queryArrived := false
  resumeEvent := false
  enrichmentActive := false
  classificationActive := false
  embedReaperActive := false
  enrichment := .created
  orphans := []
  strayEmbeds := 0
  classification := .created
  reaper := .sleep
  linking := false
  requests := []

section Control

/-- The body of the answer to `/control/pause`. -/
structure PauseReply where
  pausedAt : Option ℕ
  inFlightFinished : Bool
  enrichmentActive : Bool
  classificationActive : Bool
  queryInflight : ℕ
deriving DecidableEq, Repr

def controlPause (b : Brain) (now : ℕ) : Brain × PauseReply :=
  let b := if b.paused then b else { b with paused := true, pausedAt := some now }
  (b, { pausedAt := b.pausedAt
        inFlightFinished := b.queryInflight = 0 && !b.enrichmentActive &&
          !b.classificationActive && !b.embedReaperActive
        enrichmentActive := b.enrichmentActive
        classificationActive := b.classificationActive
        queryInflight := b.queryInflight })

def controlResume (b : Brain) : Brain :=
  { b with paused := false, pausedAt := none, resumeEvent := true }

end Control

section Queries

/-- How `_query_priority` turns a request away. -/
inductive Refusal where
  /-- 503 `brain is paused`. -/
  | paused
  /-- 400 `request body must be a JSON object`. -/
  | notAnObject
deriving DecidableEq, Repr

/-- A request that arrives, up to the read of its body. -/
def admitQuery (b : Brain) : Except Refusal Brain :=
  if b.paused then .error .paused else .ok { b with requests := b.requests ++ [.body] }

/-- The body is there. Pause may have come while it was arriving. -/
def validated (b : Brain) (isObject : Bool) : Except Refusal Unit :=
  if !isObject then .error .notAnObject else if b.paused then .error .paused else .ok ()

/-- The `finally` of the wrapper. -/
def answered (b : Brain) : Brain :=
  { b with
    queryInflight := b.queryInflight - 1
    queryArrived := if b.queryInflight - 1 = 0 then false else b.queryArrived }

end Queries

section Loops

def enrichmentPaused (b : Brain) : Bool := b.paused || b.operatorPaused

/-- The head of the loop body, up to the first wait. -/
def turn (b : Brain) : Brain :=
  { b with enrichment := if enrichmentPaused b then .resumeEvent else .queryArrived }

/-- The code after the wait for a query, from the drain up to the preflight. -/
def beforePreflight (b : Brain) : Brain :=
  if 0 < b.queryInflight then { b with enrichment := .drain }
  -- no await separates this check from marking the loop active
  else if enrichmentPaused b then turn b
  else { b with enrichmentActive := true, enrichment := .preflight }

/-- What the preflight and the claims after it come to. -/
inductive Preflight where
  | raised
  /-- Inference does not proceed, or no model is loaded. -/
  | refused
  | claimed (chunks : Source → ℕ)

def enrichAllSources (claims : Source → ℕ) : List Child :=
  enrichmentSources.map fun source => ⟨source, claims source, 0⟩

def afterPreflight (b : Brain) : Preflight → Brain
  | .raised => { b with enrichmentActive := false, enrichment := .backoff }
  | .refused => turn { b with enrichmentActive := false }
  | .claimed claims =>
    if enrichmentSources.all fun source => claims source = 0 then
      turn { b with enrichmentActive := false }
    else { b with enrichment := .gather (enrichAllSources claims) false }

/-- The gather is done as soon as all children are, or one of them has raised. -/
def afterGather (b : Brain) (running : List Child) (raised : Bool) : Option Brain :=
  if raised then
    some { b with
      enrichmentActive := false
      enrichment := .backoff
      orphans := b.orphans ++ running }
  else if running = [] then some (turn { b with enrichmentActive := false })
  else none

/-- The loop over the rows of `_embed_reaper_tick`. -/
def reap (b : Brain) : List ℕ → Brain
  | [] => { b with reaper := .sleep }
  | _ :: rest =>
    if b.paused then { b with reaper := .sleep }
    else { b with embedReaperActive := true, reaper := .embedding rest }

def embedReaperTick (b : Brain) (rows : List ℕ) : Brain :=
  if b.paused then b else reap b rows

def classify (b : Brain) : Brain :=
  if !b.paused && b.queryInflight = 0 then
    { b with classificationActive := true, classification := .batch }
  else { b with classification := .sleep }

end Loops

/-- A step of a task, of a client or of the operator. -/
inductive Act where
  | pause (now : ℕ)
  | resume
  | operator (paused : Bool)
  | request
  | bodyRead (k : ℕ) (isObject : Bool)
  | handled (k : ℕ)
  | enrichmentWakes
  | preflightDone (p : Preflight)
  | child (k : ℕ) (c : ChildStep)
  | gathered
  | orphan (k : ℕ) (c : ChildStep)
  | strayEmbedded
  | reaperWakes (rows : List ℕ)
  | reaperEmbedded
  | classificationWakes
  | classified
  | linkageWakes
  | linked

/-- The loop wakes from a wait that has no other end. -/
def wake (b : Brain) : Option Brain :=
  match b.enrichment with
  | .created | .backoff => some (turn b)
  | .resumeEvent => some (turn { b with resumeEvent := false })
  | .queryArrived | .drain => some (beforePreflight b)
  | .preflight | .gather _ _ => none

def stepRequest (b : Brain) (k : ℕ) (isObject : Bool) : Option Brain :=
  match b.requests[k]? with
  | some .body =>
    match validated b isObject with
    | .error _ => some { b with requests := replaceAt b.requests k [] }
    | .ok _ => some { b with
        queryInflight := b.queryInflight + 1
        queryArrived := true
        requests := replaceAt b.requests k [.handler] }
  | _ => none

def stepHandled (b : Brain) (k : ℕ) : Option Brain :=
  match b.requests[k]? with
  | some .handler => some (answered { b with requests := replaceAt b.requests k [] })
  | _ => none

def stepChild (b : Brain) (k : ℕ) (c : ChildStep) : Option Brain :=
  match b.enrichment with
  | .gather running raised =>
    (running[k]?.bind fun child => child.step c).map fun o =>
      { b with
        enrichment := .gather (replaceAt running k o.children) (raised || o.raised)
        strayEmbeds := b.strayEmbeds + o.stray }
  | _ => none

def stepOrphan (b : Brain) (k : ℕ) (c : ChildStep) : Option Brain :=
  (b.orphans[k]?.bind fun child => child.step c).map fun o =>
    { b with
      orphans := replaceAt b.orphans k o.children
      strayEmbeds := b.strayEmbeds + o.stray }

def step (b : Brain) : Act → Option Brain
  | .pause now => some (controlPause b now).1
  | .resume => some (controlResume b)
  | .operator paused => some { b with operatorPaused := paused }
  | .request =>
    match admitQuery b with
    | .error _ => some b
    | .ok b => some b
  | .bodyRead k isObject => stepRequest b k isObject
  | .handled k => stepHandled b k
  | .enrichmentWakes => wake b
  | .preflightDone p => if b.enrichment = .preflight then some (afterPreflight b p) else none
  | .child k c => stepChild b k c
  | .gathered =>
    match b.enrichment with
    | .gather running raised => afterGather b running raised
    | _ => none
  | .orphan k c => stepOrphan b k c
  | .strayEmbedded =>
    match b.strayEmbeds with
    | 0 => none
    | n + 1 => some { b with strayEmbeds := n }
  | .reaperWakes rows => if b.reaper = .sleep then some (embedReaperTick b rows) else none
  | .reaperEmbedded =>
    match b.reaper with
    | .embedding rest => some (reap { b with embedReaperActive := false } rest)
    | .sleep => none
  | .classificationWakes => if b.classification = .batch then none else some (classify b)
  | .classified =>
    if b.classification = .batch then
      some { b with classificationActive := false, classification := .sleep }
    else none
  | .linkageWakes => if b.linking then none else some { b with linking := !b.paused }
  | .linked => if b.linking then some { b with linking := false } else none

end Hippo.PauseHandshake
