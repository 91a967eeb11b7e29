import Hippo.Apportionment
import Hippo.ConflictDetection
import Mathlib.Data.Rat.Defs

/-!
# The prompt of a question

`_build_rag_prompt` renders the hits as the context of the question. If the rendering is too long,
the three long fields of each hit are cut to its part of the characters that the rest of the
rendering leaves.
-/
namespace Hippo.Rag
open Apportionment ConflictDetection

section Source

/-- The tags of a hit: JSON text, or a list. -/
inductive Tags where
  | text (s : String)
  | list (tags : List String)
deriving DecidableEq, Repr

/-- A hit as `_result_to_hit` makes it. An entry of a list that is no string or no dictionary is
`none`. -/
structure Hit where
  distance : ℚ := 1
  capturedAt : ℤ := 0
  scoreSemantics : Option String := none
  summary : Option String := none
  intent : Option Value := none
  entities : List (String × List (Option String)) := []
  embedText : Option String := none
  designDecisions : List (Option DesignDecision) := []
  keyDecisions : List (Option String) := []
  problemsEncountered : List (Option String) := []
  commandsRaw : Option String := none
  cwd : Option String := none
  gitBranch : Option String := none
  outcome : Option String := none
  tags : Tags := .text ""
deriving DecidableEq, Repr

/-- How a rounded score, a day, the `repr` of a value and JSON text are written and read. -/
structure Rendering where
  score : ℚ → String
  formatTimestamp : ℤ → String
  repr : Value → String
  /-- The list of strings that `json.loads` returns; `none` for anything else. -/
  loads : String → Option (List String)

def minPerHitFieldChars : ℕ := 80
def entitiesLineCap : ℕ := 500
def intentLineCap : ℕ := 200
def listFieldCap : ℕ := 600

/-- The caps of the first rendering, `embed_cap` and `cmd_cap`. -/
def generousCap : ℕ := 2000

/-- `"\n".join(lines)`. -/
def joinLines (lines : List String) : String := "\n".intercalate lines

def truncate (text : String) (maxLen : ℕ) : String :=
  if maxLen = 0 then ""
  else if text.length ≤ maxLen then text
  else String.ofList (text.toList.take (max (maxLen - 1) 1)) ++ "…"

/-- The line boundaries of `str.splitlines`, other than `\r\n`. -/
def lineBreaks : List Char :=
  ['\n', '\r', '\x0b', '\x0c', '\x1c', '\x1d', '\x1e', '\u0085', '\u2028', '\u2029']

def splitChars : List Char → List (List Char)
  | [] => []
  | '\r' :: '\n' :: rest => [] :: splitChars rest
  | c :: rest =>
    if c ∈ lineBreaks then [] :: splitChars rest
    else
      match splitChars rest with
      | [] => [[c]]
      | line :: lines => (c :: line) :: lines

/-- `text.splitlines()`. -/
def splitlines (text : String) : List String := (splitChars text.toList).map String.ofList

def identifierEntityTypes : List String := ["tool", "file", "service", "project", "env_var"]

/-- The tokens of the identifier entities, each once. -/
def entityTokens (entities : List (String × List (Option String))) : List String :=
  let names := identifierEntityTypes.flatMap fun etype =>
    ((entities.lookup etype).getD []).filterMap given
  names.foldl (fun tokens name => if name ∈ tokens then tokens else tokens ++ [name]) []

/-- The tokens that fit, with room for the ellipsis as long as there are more to come. -/
def packTokens : List String → List String → ℕ → List String
  | [], kept, _ => kept
  | tok :: rest, kept, used =>
    let candidateLen := if kept = [] then tok.length else used + 2 + tok.length
    let budget := entitiesLineCap - if rest = [] then 0 else 3
    if budget < candidateLen then kept else packTokens rest (kept ++ [tok]) candidateLen

def renderEntitiesLine (entities : List (String × List (Option String))) : Option String :=
  match entityTokens entities with
  | [] => none
  | first :: rest =>
    let tokens := first :: rest
    let kept := packTokens tokens [] 0
    if kept = [] then
      if rest ≠ [] ∧ first.length < entitiesLineCap then some ("Entities: " ++ first ++ "…")
      else some ("Entities: " ++ truncate first entitiesLineCap)
    else
      let body := ", ".intercalate kept
      some ("Entities: " ++ body ++ if kept.length < tokens.length then ", …" else "")

def renderStringListLines (raw : List (Option String)) (maxChars : ℕ) : List String :=
  let rendered := joinLines ((raw.filterMap given).map fun entry => "  - " ++ entry)
  if rendered = "" then [] else splitlines (truncate rendered maxChars)

variable (r : Rendering)

def designDecisionPayload (decisions : List (Option DesignDecision)) : String :=
  joinLines <| decisions.filterMap fun d => do
    let d ← d
    let considered ← d.considered
    let chosen ← d.chosen
    let reason ← d.reason
    if considered.truthy ∧ chosen.truthy ∧ reason.truthy then
      some ("  - considered " ++ r.repr considered ++ "; chose " ++ r.repr chosen ++
        "; reason: " ++ reason.text)
    else none

def renderDesignDecisionLines (decisions : List (Option DesignDecision)) (maxChars : ℕ) :
    List String :=
  let payload := designDecisionPayload r decisions
  if payload = "" ∨ maxChars = 0 then [] else splitlines (truncate payload maxChars)

/-- The line `label: text` of a field that is not empty. -/
def labelled (label : String) (text : Option String) : List String :=
  (given text).toList.map fun t => label ++ t

/-- The lines of a list under their heading. -/
def headed (heading : String) (lines : List String) : List String :=
  if lines = [] then [] else heading :: lines

def headerLine (index : ℕ) (hit : Hit) : String :=
  "[" ++ toString index ++ "] (score: " ++ r.score (1 - hit.distance) ++ ", semantics: " ++
    hit.scoreSemantics.getD "unknown" ++ ", " ++
    (if hit.capturedAt = 0 then "unknown" else r.formatTimestamp hit.capturedAt) ++ ")"

def tagsOf (hit : Hit) : List String :=
  match hit.tags with
  | .text s => if s = "" then [] else (r.loads s).getD []
  | .list tags => tags

/-- `_hit_lines`. -/
def hitLines (index : ℕ) (hit : Hit) (embedCap cmdCap designCap : ℕ) : List String :=
  [headerLine r index hit] ++
  labelled "Summary: " hit.summary ++
  ((hit.intent.filter Value.truthy).toList.map fun v =>
    "Intent: " ++ truncate v.text intentLineCap) ++
  (renderEntitiesLine hit.entities).toList ++
  ((given hit.embedText).toList.map fun t => "Detail: " ++ truncate t embedCap) ++
  headed "Design decisions:" (renderDesignDecisionLines r hit.designDecisions designCap) ++
  headed "Key decisions:" (renderStringListLines hit.keyDecisions listFieldCap) ++
  headed "Problems encountered:" (renderStringListLines hit.problemsEncountered listFieldCap) ++
  ((given hit.commandsRaw).toList.map fun t => "Commands: " ++ truncate t cmdCap) ++
  labelled "CWD: " hit.cwd ++
  labelled "Branch: " hit.gitBranch ++
  labelled "Outcome: " hit.outcome ++
  if tagsOf r hit = [] then [] else ["Tags: " ++ ", ".intercalate (tagsOf r hit)]

/-- The payload-heavy fields. -/
inductive Field where
  | embed
  | cmd
  | design
deriving DecidableEq, Repr

def fields : List Field := [.embed, .cmd, .design]

def allocatePayloadCaps (perHit : ℕ) (length : Field → ℕ) : Field → ℕ :=
  if (fields.map length).sum = 0 then fun _ => 0 else apportion perHit length fields

/-- The text of a payload field. -/
def payloadText (hit : Hit) : Field → String
  | .embed => hit.embedText.getD ""
  | .cmd => hit.commandsRaw.getD ""
  | .design => designDecisionPayload r hit.designDecisions

def payloadLength (hit : Hit) (field : Field) : ℕ := (payloadText r hit field).length

/-- The characters of the blocks and of the blank lines between them. -/
def totalLength (blocks : List String) : ℕ :=
  (blocks.map String.length).sum + (blocks.length - 1) * 2

def stripped (hit : Hit) : Hit :=
  { hit with embedText := some "", commandsRaw := some "", designDecisions := [] }

/-- The blocks of the hits, each with its caps. -/
def renderBlocks (hits : List Hit) (caps : Hit → Field → ℕ) : List String :=
  (hits.zipIdx 1).map fun h =>
    joinLines (hitLines r h.2 h.1 (caps h.1 .embed) (caps h.1 .cmd) (caps h.1 .design))

def firstBlocks (hits : List Hit) : List String := renderBlocks r hits fun _ _ => generousCap

/-- The length of the hits without their payload fields. -/
def structural (hits : List Hit) : ℕ :=
  totalLength ((hits.zipIdx 1).map fun h => joinLines (hitLines r h.2 (stripped h.1) 0 0 0))

def perHit (hits : List Hit) (maxChars : ℕ) : ℕ :=
  let remaining := max (maxChars - structural r hits) (minPerHitFieldChars * hits.length)
  max (remaining / max hits.length 1) minPerHitFieldChars

def payloadCaps (hits : List Hit) (maxChars : ℕ) (hit : Hit) : Field → ℕ :=
  allocatePayloadCaps (perHit r hits maxChars) (payloadLength r hit)

def blocks (hits : List Hit) (maxChars : ℕ) : List String :=
  if maxChars < totalLength (firstBlocks r hits) ∧ hits ≠ [] then
    renderBlocks r hits (payloadCaps r hits maxChars)
  else firstBlocks r hits

structure Message where
  role : String
  content : String
deriving DecidableEq, Repr

/-- `_build_rag_prompt`, with the text of `_SYSTEM_PROMPT`. -/
def buildRagPrompt (systemPrompt question : String) (hits : List Hit) (maxChars : ℕ) :
    List Message :=
  let context := "\n\n".intercalate (blocks r hits maxChars)
  [⟨"system", systemPrompt⟩,
    ⟨"user", "Context:\n" ++ context ++ "\n\nQuestion: " ++ question⟩]

end Source

section Lengths

variable {r : Rendering}

theorem length_intercalate (sep block : String) (blocks : List String) :
    (sep.intercalate (block :: blocks)).length =
      ((block :: blocks).map String.length).sum + blocks.length * sep.length := by
  induction blocks generalizing block with
  | nil => simp
  | cons next rest ih =>
    rw [String.intercalate_cons_cons, String.length_append, String.length_append, ih next]
    simp only [List.map_cons, List.sum_cons, List.length_cons, Nat.add_mul, Nat.one_mul]
    omega

theorem length_context {blocks : List String} (h : blocks ≠ []) :
    ("\n\n".intercalate blocks).length = totalLength blocks := by
  obtain ⟨block, rest, rfl⟩ := List.exists_cons_of_ne_nil h
  rw [length_intercalate, totalLength, List.length_cons, Nat.add_sub_cancel]
  rfl

/-- The characters of some lines, each with its line break. -/
def linesLength (lines : List String) : ℕ := (lines.map fun line => line.length + 1).sum

@[simp] theorem linesLength_nil : linesLength [] = 0 := rfl

@[simp] theorem linesLength_cons (line : String) (lines : List String) :
    linesLength (line :: lines) = line.length + 1 + linesLength lines := by
  simp [linesLength]

@[simp] theorem linesLength_append (lines lines' : List String) :
    linesLength (lines ++ lines') = linesLength lines + linesLength lines' := by
  simp [linesLength]

theorem length_joinLines {lines : List String} (h : lines ≠ []) :
    (joinLines lines).length + 1 = linesLength lines := by
  obtain ⟨line, rest, rfl⟩ := List.exists_cons_of_ne_nil h
  have hsum : linesLength (line :: rest) =
      ((line :: rest).map String.length).sum + (rest.length + 1) := by
    simp [linesLength, List.sum_map_add]
    omega
  have hbreak : "\n".length = 1 := rfl
  rw [joinLines, length_intercalate, hsum, hbreak]
  omega

theorem totalLength_singleton (block : String) : totalLength [block] = block.length := by
  simp [totalLength]

/-- One more character if a longer text is cut to a single one. -/
def cut (text : String) (cap : ℕ) : ℕ := if cap = 1 ∧ 1 < text.length then 1 else 0

theorem length_truncate (text : String) (cap : ℕ) :
    (truncate text cap).length = min text.length cap + cut text cap := by
  have hellipsis : "…".length = 1 := rfl
  simp only [truncate, cut]
  split_ifs with hzero hfits
  · omega
  · simp [hzero]
  · omega
  · omega
  · rw [String.length_append, String.length_ofList, List.length_take, String.length_toList,
      hellipsis]
    omega
  · rw [String.length_append, String.length_ofList, List.length_take, String.length_toList,
      hellipsis]
    omega

theorem sum_splitChars_le (cs : List Char) :
    ((splitChars cs).map fun line => line.length + 1).sum ≤ cs.length + 1 := by
  induction cs using splitChars.induct with
  | case1 => simp [splitChars]
  | case2 rest ih =>
    simp only [splitChars, List.map_cons, List.sum_cons, List.length_cons, List.length_nil]
    omega
  | case3 c rest hcrlf hbreak ih =>
    rw [splitChars.eq_3 c rest hcrlf, if_pos hbreak]
    simp only [List.map_cons, List.sum_cons, List.length_cons, List.length_nil]
    omega
  | case4 c rest hcrlf hbreak hlines ih =>
    rw [splitChars.eq_3 c rest hcrlf, if_neg hbreak, hlines]
    simp
  | case5 c rest hcrlf hbreak line lines hlines ih =>
    rw [splitChars.eq_3 c rest hcrlf, if_neg hbreak, hlines]
    rw [hlines] at ih
    simp only [List.map_cons, List.sum_cons, List.length_cons] at ih ⊢
    omega

theorem linesLength_splitlines_le (text : String) :
    linesLength (splitlines text) ≤ text.length + 1 := by
  have h := sum_splitChars_le text.toList
  rw [String.length_toList] at h
  simpa [splitlines, linesLength, Function.comp_def] using h

end Lengths

section Budget

variable (r : Rendering)

def labelLength : Field → ℕ
  | .embed => "Detail: ".length + 1
  | .cmd => "Commands: ".length + 1
  | .design => "Design decisions:".length + 2

/-- What the rendered payload fields add to their texts: labels, line breaks and ellipses. -/
def overhead (hit : Hit) (caps : Field → ℕ) : ℕ :=
  (fields.map fun field =>
    if payloadText r hit field = "" then 0
    else labelLength field + cut (payloadText r hit field) (caps field)).sum

/-- The characters that `splitlines` drops from the cut design decisions. -/
def dropped (hit : Hit) (caps : Field → ℕ) : ℕ :=
  if payloadText r hit .design = "" then 0
  else
    let text := truncate (payloadText r hit .design) (caps .design)
    text.length + 1 - linesLength (splitlines text)

/-- The characters of a hit's payload. -/
def payload (hit : Hit) : ℕ := (fields.map (payloadLength r hit)).sum

/-- The characters each hit may use, if they are at least 80. -/
def share (hits : List Hit) (maxChars : ℕ) : ℕ := (maxChars - structural r hits) / hits.length

/-- The characters that the hits' payloads leave. -/
def spare (hits : List Hit) (maxChars : ℕ) : ℕ :=
  maxChars - structural r hits -
    (hits.map fun hit => min (payload r hit) (share r hits maxChars)).sum

variable {r}

theorem given_of_ne {text : String} (h : text ≠ "") : given (some text) = some text :=
  given_eq_some.mpr ⟨rfl, h⟩

/-- A labelled line with a cut text. -/
theorem linesLength_given (label : String) (text : Option String) (cap : ℕ) :
    linesLength ((given text).toList.map fun t => label ++ truncate t cap) =
      if text.getD "" = "" then 0
      else label.length + 1 + (truncate (text.getD "") cap).length := by
  cases text with
  | none => simp [given]
  | some t =>
    by_cases hempty : t = ""
    · subst hempty
      rfl
    · rw [given_of_ne hempty, Option.getD_some, if_neg hempty]
      simp only [Option.toList_some, List.map_cons, List.map_nil, linesLength_cons, linesLength_nil,
        String.length_append]
      omega

theorem splitlines_ne_nil {text : String} (h : text ≠ "") : splitlines text ≠ [] := by
  have hchars : text.toList ≠ [] := by simpa using h
  have hsplit : ∀ cs : List Char, cs ≠ [] → splitChars cs ≠ [] := by
    intro cs
    fun_cases splitChars cs <;> simp_all
  simpa [splitlines] using hsplit _ hchars

theorem truncate_ne_empty {text : String} {cap : ℕ} (h : text ≠ "") (hcap : cap ≠ 0) :
    truncate text cap ≠ "" := by
  have hlength := length_truncate text cap
  have hpos : text.length ≠ 0 := by simpa using h
  intro hempty
  rw [hempty, String.length_empty] at hlength
  omega

theorem design_length (hit : Hit) (caps : Field → ℕ)
    (hcap : payloadText r hit .design ≠ "" → caps .design ≠ 0) :
    linesLength (headed "Design decisions:"
        (renderDesignDecisionLines r hit.designDecisions (caps .design))) + dropped r hit caps =
      if payloadText r hit .design = "" then 0
      else labelLength .design + (truncate (payloadText r hit .design) (caps .design)).length := by
  have hpayload : designDecisionPayload r hit.designDecisions = payloadText r hit .design := rfl
  simp only [renderDesignDecisionLines, hpayload, dropped]
  by_cases hempty : payloadText r hit .design = ""
  · simp [hempty, headed]
  · have hlines := splitlines_ne_nil (truncate_ne_empty hempty (hcap hempty))
    have hle := linesLength_splitlines_le (truncate (payloadText r hit .design) (caps .design))
    have hlabel : labelLength .design = "Design decisions:".length + 2 := rfl
    rw [if_neg (not_or.mpr ⟨hempty, hcap hempty⟩), headed, if_neg hlines, linesLength_cons,
      if_neg hempty, if_neg hempty, hlabel]
    omega

theorem field_length (text : String) (label cap : ℕ) :
    (if text = "" then 0 else label + (truncate text cap).length) =
      (if text = "" then 0 else label + cut text cap) + min text.length cap := by
  by_cases hempty : text = ""
  · simp [hempty]
  · rw [if_neg hempty, if_neg hempty, length_truncate]
    omega

/-- The lines of a hit are those without its payload, and the rendered payload. -/
theorem hitLines_length (index : ℕ) (hit : Hit) (caps : Field → ℕ)
    (hcap : payloadText r hit .design ≠ "" → caps .design ≠ 0) :
    linesLength (hitLines r index hit (caps .embed) (caps .cmd) (caps .design)) +
        dropped r hit caps =
      linesLength (hitLines r index (stripped hit) 0 0 0) + overhead r hit caps +
        (fields.map fun field => min (payloadLength r hit field) (caps field)).sum := by
  have hembed : linesLength
      ((given hit.embedText).toList.map fun t => "Detail: " ++ truncate t (caps .embed)) =
        if payloadText r hit .embed = "" then 0
        else labelLength .embed + (truncate (payloadText r hit .embed) (caps .embed)).length :=
    linesLength_given _ _ _
  have hcmd : linesLength
      ((given hit.commandsRaw).toList.map fun t => "Commands: " ++ truncate t (caps .cmd)) =
        if payloadText r hit .cmd = "" then 0
        else labelLength .cmd + (truncate (payloadText r hit .cmd) (caps .cmd)).length :=
    linesLength_given _ _ _
  have hdesign := design_length hit caps hcap
  have hstripped : linesLength (hitLines r index (stripped hit) 0 0 0) +
      (linesLength ((given hit.embedText).toList.map fun t =>
          "Detail: " ++ truncate t (caps .embed)) +
        linesLength (headed "Design decisions:"
          (renderDesignDecisionLines r hit.designDecisions (caps .design))) +
        linesLength ((given hit.commandsRaw).toList.map fun t =>
          "Commands: " ++ truncate t (caps .cmd))) =
      linesLength (hitLines r index hit (caps .embed) (caps .cmd) (caps .design)) := by
    have hnone : given (some "") = none := rfl
    have hlist : headed "Design decisions:" (renderDesignDecisionLines r [] 0) = [] := rfl
    have hheader : headerLine r index (stripped hit) = headerLine r index hit := rfl
    have htags : tagsOf r (stripped hit) = tagsOf r hit := rfl
    simp only [hitLines, linesLength_append, hheader, htags]
    simp only [stripped, hnone, hlist, Option.toList_none, List.map_nil, linesLength_nil]
    omega
  rw [field_length] at hembed hcmd hdesign
  simp only [overhead, fields, List.map_cons, List.map_nil, List.sum_cons, List.sum_nil,
    payloadLength]
  omega

theorem payloadCaps_ne_zero (hits : List Hit) (maxChars : ℕ) (hit : Hit) {field : Field}
    (hfield : field ∈ fields) (h : payloadText r hit field ≠ "") :
    payloadCaps r hits maxChars hit field ≠ 0 := by
  have hlength : payloadLength r hit field ≠ 0 := by simpa [payloadLength] using h
  have hmem : field ∈ nonEmpty (payloadLength r hit) fields := mem_nonEmpty.mpr ⟨hfield, hlength⟩
  have hthree : (nonEmpty (payloadLength r hit) fields).length ≤ fields.length :=
    List.length_filter_le _ _
  have hperHit : minPerHitFieldChars ≤ perHit r hits maxChars := Nat.le_max_right _ _
  have htotal : (fields.map (payloadLength r hit)).sum ≠ 0 := fun hzero =>
    hlength (List.sum_eq_zero_iff.mp hzero _ (List.mem_map_of_mem hfield))
  have henough : (nonEmpty (payloadLength r hit) fields).length ≤ perHit r hits maxChars := by
    simp only [fields, List.length_cons, List.length_nil, minPerHitFieldChars] at *
    omega
  rw [payloadCaps, allocatePayloadCaps, if_neg htotal]
  exact (apportion_pos (by decide) henough hmem).ne'

theorem sum_min_payloadCaps (hits : List Hit) (maxChars : ℕ) (hit : Hit) :
    (fields.map fun field =>
      min (payloadLength r hit field) (payloadCaps r hits maxChars hit field)).sum =
        min (payload r hit) (perHit r hits maxChars) := by
  rw [payloadCaps, payload]
  by_cases htotal : (fields.map (payloadLength r hit)).sum = 0
  · rw [allocatePayloadCaps, if_pos htotal, htotal]
    simp
  · rw [allocatePayloadCaps, if_neg htotal]
    exact sum_min_apportion (by decide)

theorem perHit_eq_share {hits : List Hit} {maxChars : ℕ} (hne : hits ≠ [])
    (hroom : structural r hits + minPerHitFieldChars * hits.length ≤ maxChars) :
    perHit r hits maxChars = share r hits maxChars := by
  have hpos : 0 < hits.length := List.length_pos_iff.mpr hne
  have hfields : minPerHitFieldChars ≤ (maxChars - structural r hits) / hits.length := by
    rw [Nat.le_div_iff_mul_le hpos]
    omega
  rw [perHit, share, Nat.max_eq_left (by omega : minPerHitFieldChars * hits.length ≤ _),
    Nat.max_eq_left (by omega : 1 ≤ hits.length), Nat.max_eq_left hfields]

theorem hitLines_ne_nil (index : ℕ) (hit : Hit) (embedCap cmdCap designCap : ℕ) :
    hitLines r index hit embedCap cmdCap designCap ≠ [] := by
  simp [hitLines]

/-- One cut block. -/
theorem block_length (hits : List Hit) (maxChars index : ℕ) (hit : Hit) :
    (joinLines (hitLines r index hit (payloadCaps r hits maxChars hit .embed)
        (payloadCaps r hits maxChars hit .cmd) (payloadCaps r hits maxChars hit .design))).length +
      dropped r hit (payloadCaps r hits maxChars hit) =
    (joinLines (hitLines r index (stripped hit) 0 0 0)).length +
      overhead r hit (payloadCaps r hits maxChars hit) +
      min (payload r hit) (perHit r hits maxChars) := by
  have hlines := hitLines_length index hit (payloadCaps r hits maxChars hit) fun h =>
    payloadCaps_ne_zero hits maxChars hit (by decide) h
  have hcut := length_joinLines (hitLines_ne_nil (r := r) index hit
    (payloadCaps r hits maxChars hit .embed) (payloadCaps r hits maxChars hit .cmd)
    (payloadCaps r hits maxChars hit .design))
  have hplain := length_joinLines (hitLines_ne_nil (r := r) index (stripped hit) 0 0 0)
  rw [sum_min_payloadCaps] at hlines
  omega

theorem sum_blocks (hits : List Hit) (maxChars : ℕ) (indexed : List (Hit × ℕ)) :
    ((indexed.map fun h => (joinLines (hitLines r h.2 h.1 (payloadCaps r hits maxChars h.1 .embed)
        (payloadCaps r hits maxChars h.1 .cmd)
        (payloadCaps r hits maxChars h.1 .design))).length).sum +
      ((indexed.map Prod.fst).map fun hit => dropped r hit (payloadCaps r hits maxChars hit)).sum) =
    (indexed.map fun h => (joinLines (hitLines r h.2 (stripped h.1) 0 0 0)).length).sum +
      ((indexed.map Prod.fst).map fun hit => overhead r hit (payloadCaps r hits maxChars hit)).sum +
      ((indexed.map Prod.fst).map fun hit => min (payload r hit) (perHit r hits maxChars)).sum := by
  induction indexed with
  | nil => rfl
  | cons h rest ih =>
    have hblock := block_length (r := r) hits maxChars h.2 h.1
    simp only [List.map_cons, List.sum_cons]
    omega

/-- The cut context: what the structure takes, what the payloads use of their shares, and the
overhead, without the line breaks that are dropped. -/
theorem totalLength_cut (hits : List Hit) (maxChars : ℕ) :
    totalLength (renderBlocks r hits (payloadCaps r hits maxChars)) +
      (hits.map fun hit => dropped r hit (payloadCaps r hits maxChars hit)).sum =
    structural r hits +
      (hits.map fun hit => overhead r hit (payloadCaps r hits maxChars hit)).sum +
      (hits.map fun hit => min (payload r hit) (perHit r hits maxChars)).sum := by
  have hsum := sum_blocks (r := r) hits maxChars (hits.zipIdx 1)
  rw [List.zipIdx_map_fst] at hsum
  simp only [totalLength, renderBlocks, structural, List.map_map, List.length_map]
  simp only [Function.comp_def]
  omega

theorem sum_min_le (hits : List Hit) (cap : ℕ) :
    (hits.map fun hit => min (payload r hit) cap).sum ≤ hits.length * cap := by
  induction hits with
  | nil => simp
  | cons hit rest ih =>
    simp only [List.map_cons, List.sum_cons, List.length_cons, Nat.add_mul, Nat.one_mul]
    omega

theorem cut_fits_iff {hits : List Hit} {maxChars : ℕ} (hne : hits ≠ [])
    (hroom : structural r hits + minPerHitFieldChars * hits.length ≤ maxChars) :
    totalLength (renderBlocks r hits (payloadCaps r hits maxChars)) ≤ maxChars ↔
      (hits.map fun hit => overhead r hit (payloadCaps r hits maxChars hit)).sum ≤
        spare r hits maxChars +
          (hits.map fun hit => dropped r hit (payloadCaps r hits maxChars hit)).sum := by
  have htotal := totalLength_cut (r := r) hits maxChars
  have hmin := sum_min_le (r := r) hits (share r hits maxChars)
  have hshare : hits.length * share r hits maxChars ≤ maxChars - structural r hits := by
    rw [Nat.mul_comm]
    exact Nat.div_mul_le_self _ _
  rw [perHit_eq_share hne hroom] at htotal
  simp only [spare]
  omega

/-- The context of the prompt is at most `max_chars` long. -/
def Fits (r : Rendering) (systemPrompt question : String) (hits : List Hit) (maxChars : ℕ) : Prop :=
  ∃ context, buildRagPrompt r systemPrompt question hits maxChars =
      [⟨"system", systemPrompt⟩,
        ⟨"user", "Context:\n" ++ context ++ "\n\nQuestion: " ++ question⟩] ∧
    context.length ≤ maxChars

theorem fits_iff_totalLength {systemPrompt question : String} {hits : List Hit} {maxChars : ℕ}
    (hne : hits ≠ []) : Fits r systemPrompt question hits maxChars ↔
      totalLength (blocks r hits maxChars) ≤ maxChars := by
  have hblocks : blocks r hits maxChars ≠ [] := by
    unfold blocks
    split_ifs <;> simpa [renderBlocks, firstBlocks] using hne
  rw [← length_context hblocks]
  constructor
  · rintro ⟨context, hprompt, hlength⟩
    simp only [buildRagPrompt, List.cons.injEq, Message.mk.injEq] at hprompt
    obtain ⟨-, ⟨-, hcontent⟩, -⟩ := hprompt
    have hsame := congrArg String.length hcontent
    simp only [String.length_append] at hsame
    omega
  · intro h
    exact ⟨_, rfl, h⟩

/-- **The budget of the context.** The context fits exactly if the first rendering does, or if the
labels and line breaks of the payload fields fit into what the payloads leave of their share. -/
theorem fits_iff (r : Rendering) (systemPrompt question : String) (hits : List Hit) (maxChars : ℕ)
    (hne : hits ≠ [])
    (hroom : structural r hits + minPerHitFieldChars * hits.length ≤ maxChars) :
    Fits r systemPrompt question hits maxChars ↔
      totalLength (firstBlocks r hits) ≤ maxChars ∨
      (hits.map fun hit => overhead r hit (payloadCaps r hits maxChars hit)).sum ≤
        spare r hits maxChars +
          (hits.map fun hit => dropped r hit (payloadCaps r hits maxChars hit)).sum := by
  rw [fits_iff_totalLength hne, ← cut_fits_iff hne hroom, blocks]
  split_ifs with hlong
  · constructor
    · exact Or.inr
    · rintro (h | h)
      · exact absurd hlong.1 (Nat.not_lt.mpr h)
      · exact h
  · have hfits : totalLength (firstBlocks r hits) ≤ maxChars := by
      by_contra hlt
      exact hlong ⟨Nat.not_le.mp hlt, hne⟩
    exact iff_of_true hfits (Or.inl hfits)

/-- A rendering of hits without a score, a time and decisions. -/
def plain : Rendering where
  score _ := "0.0"
  formatTimestamp _ := ""
  repr := Value.text
  loads _ := none

/-- A hit with a text of 100 characters and nothing else. -/
def longDetail : Hit where
  embedText := some
    ("01234567890123456789012345678901234567890123456789" ++
      "01234567890123456789012345678901234567890123456789")

theorem structural_longDetail : structural plain [longDetail] + minPerHitFieldChars * 1 ≤ 125 := by
  decide +kernel

theorem fits_iff_longDetail :
    structural plain [longDetail] + minPerHitFieldChars * 1 ≤ 125 ∧
    (Fits plain "" "" [longDetail] 125 ↔
      totalLength (firstBlocks plain [longDetail]) ≤ 125 ∨
      ([longDetail].map fun hit =>
          overhead plain hit (payloadCaps plain [longDetail] 125 hit)).sum ≤
        spare plain [longDetail] 125 +
          ([longDetail].map fun hit =>
            dropped plain hit (payloadCaps plain [longDetail] 125 hit)).sum) :=
  ⟨structural_longDetail,
    fits_iff plain "" "" [longDetail] 125 (List.cons_ne_nil _ _) structural_longDetail⟩

/-- The first rendering of the hit is a header and its text. -/
theorem firstBlocks_longDetail : firstBlocks plain [longDetail] =
    [joinLines [headerLine plain 1 longDetail,
      "Detail: " ++ truncate (longDetail.embedText.getD "") generousCap]] := rfl

theorem firstBlocks_longDetail_long : 125 < totalLength (firstBlocks plain [longDetail]) := by
  have htext : (longDetail.embedText.getD "").length = 100 := by
    rw [longDetail, Option.getD_some, String.length_append]
    rfl
  have hlabel : "Detail: ".length = 8 := rfl
  have hcap : generousCap = 2000 := rfl
  have hheader : 16 < (headerLine plain 1 longDetail).length := by decide +kernel
  have hlines := length_joinLines (List.cons_ne_nil (headerLine plain 1 longDetail)
    ["Detail: " ++ truncate (longDetail.embedText.getD "") generousCap])
  rw [linesLength_cons, linesLength_cons, linesLength_nil, String.length_append, length_truncate,
    htext, hlabel] at hlines
  rw [firstBlocks_longDetail, totalLength_singleton]
  omega

/-- The label and the line break of the text are not in the budget. -/
theorem label_exceeds_budget :
    structural plain [longDetail] + minPerHitFieldChars * 1 ≤ 125 ∧
      ¬ Fits plain "" "" [longDetail] 125 := by
  refine ⟨structural_longDetail, ?_⟩
  -- Both renderings are measured without building their strings.
  rw [fits_iff_totalLength (List.cons_ne_nil _ _), blocks,
    if_pos ⟨firstBlocks_longDetail_long, List.cons_ne_nil _ _⟩,
    cut_fits_iff (List.cons_ne_nil _ _) structural_longDetail]
  decide +kernel

end Budget

section Split

/-- A length as `_allocate_payload_caps` reads it. -/
def clamped (len : Field → ℤ) (field : Field) : ℕ := (len field).toNat

/-- The caps of the fields sum up to the budget, a field without characters gets none, and every
other one gets some if there is one for each. Without a donation each cap is within one of its
exact share. -/
structure Exact (perHit : ℕ) (len : Field → ℤ) (caps : Field → ℕ) : Prop where
  sum : (fields.map caps).sum = perHit
  empty : ∀ field, len field ≤ 0 → caps field = 0
  fair : (fields.filter fun field => 0 < len field).length ≤ perHit →
    ∀ field, 0 < len field → 1 ≤ caps field
  close : caps = handedOut perHit (clamped len) fields →
    ∀ field, |(caps field : ℚ) - exactShare perHit (clamped len) fields field| ≤ 1

theorem mem_fields (field : Field) : field ∈ fields := by
  cases field <;> decide

theorem sum_clamped {len : Field → ℤ} (h : ∃ field, 0 < len field) :
    (fields.map (clamped len)).sum ≠ 0 := by
  obtain ⟨field, hfield⟩ := h
  intro hzero
  have hclamped : clamped len field = 0 :=
    List.sum_eq_zero_iff.mp hzero _ (List.mem_map_of_mem (mem_fields field))
  simp only [clamped] at hclamped
  omega

/-- **The payload split.** -/
theorem allocatePayloadCaps_exact (perHit : ℕ) (len : Field → ℤ) (h : ∃ field, 0 < len field) :
    Exact perHit len (allocatePayloadCaps perHit (clamped len)) := by
  have htotal := sum_clamped h
  have hnodup : fields.Nodup := by decide
  have hclamped : ∀ field, clamped len field ≠ 0 ↔ 0 < len field := by
    intro field
    simp only [clamped]
    omega
  have hcaps : allocatePayloadCaps perHit (clamped len) =
      apportion perHit (clamped len) fields := if_neg htotal
  rw [hcaps]
  constructor
  · exact sum_apportion hnodup htotal
  · intro field hempty
    exact apportion_of_empty (by simp only [clamped]; omega)
  · intro henough field hfield
    have hcount : (nonEmpty (clamped len) fields).length ≤ perHit := by
      simpa only [nonEmpty, hclamped] using henough
    have hmem : field ∈ nonEmpty (clamped len) fields :=
      mem_nonEmpty.mpr ⟨mem_fields field, (hclamped field).mpr hfield⟩
    exact apportion_pos hnodup hcount hmem
  · intro hkept field
    rw [hkept]
    exact handedOut_close hnodup htotal field

/-- Ten characters for texts of one, one and a hundred characters: the last one donates. -/
def unevenLengths : Field → ℤ
  | .embed => 1
  | .cmd => 100
  | .design => 1

theorem allocatePayloadCaps_exact_uneven : (∃ field, 0 < unevenLengths field) ∧
    Exact 10 unevenLengths (allocatePayloadCaps 10 (clamped unevenLengths)) :=
  have h : ∃ field, 0 < unevenLengths field := ⟨.embed, by decide⟩
  ⟨h, allocatePayloadCaps_exact 10 unevenLengths h⟩

end Split

end Hippo.Rag
