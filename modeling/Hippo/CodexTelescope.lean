import Hippo.CodexUsage
import Mathlib.Algebra.Order.BigOperators.Group.List
import Mathlib.Data.List.TakeWhile

/-!
# Token growth telescopes

What each kind of record does to the tokens of the segments, and from it what a rollout does.
-/
namespace Hippo.Codex
open RustText

section Counters

inductive Counter where
  | input
  | output
  | cacheRead
  | cacheCreation
deriving DecidableEq

def Counter.get : Counter → UsageTotals → Int64
  | input, t => t.inputTokens
  | output, t => t.outputTokens
  | cacheRead, t => t.cacheReadTokens
  | cacheCreation, t => t.cacheCreationTokens

def Counter.count (c : Counter) (t : UsageTotals) : ℤ := (c.get t).toInt

variable {c : Counter} {t u total prev : UsageTotals}

theorem Counter.get_add : c.get (t + u) = c.get t + c.get u := by
  cases c <;> rfl

theorem Counter.get_growth : c.get (growth total prev) = max (c.get total - c.get prev) 0 := by
  cases c <;> rfl

@[simp] theorem Counter.count_zero : c.count 0 = 0 := by
  cases c <;> rfl

theorem Counter.count_lt : c.count t < 2 ^ 63 := Int64.toInt_lt _

theorem toInt_max_zero (a : Int64) : (max a 0).toInt = max a.toInt 0 := by
  have hmax : max a 0 = if a ≤ 0 then 0 else a := rfl
  have hzero : (0 : Int64).toInt = 0 := rfl
  simp only [hmax, Int64.le_iff_toInt_le, hzero]
  split_ifs <;> omega

theorem Counter.count_add (ht : 0 ≤ c.count t) (hu : 0 ≤ c.count u)
    (hlt : c.count t + c.count u < 2 ^ 63) : c.count (t + u) = c.count t + c.count u := by
  rw [count, get_add, Int64.toInt_add]
  apply Int.bmod_eq_of_le
  · simp only [count] at *
    omega
  · simp only [count] at *
    omega

theorem Counter.count_growth (hprev : 0 ≤ c.count prev) (hle : c.count prev ≤ c.count total) :
    c.count (growth total prev) = c.count total - c.count prev := by
  have hlt : c.count total < 2 ^ 63 := count_lt
  have hsub : (c.get total - c.get prev).toInt = c.count total - c.count prev := by
    rw [Int64.toInt_sub]
    apply Int.bmod_eq_of_le
    · simp only [count] at *
      omega
    · simp only [count] at *
      omega
  rw [count, get_growth, toInt_max_zero, hsub]
  omega

theorem totalField_nonneg (raw : JsonValue) (key : String) : 0 ≤ (totalField raw key).toInt := by
  rw [totalField, toInt_max_zero]
  omega

theorem Counter.count_codexUsageTotals (raw : JsonValue) : 0 ≤ c.count (codexUsageTotals raw) := by
  cases c with
  | input =>
    show 0 ≤ (max _ (0 : Int64)).toInt
    rw [toInt_max_zero]
    omega
  | output => exact totalField_nonneg raw _
  | cacheRead => exact totalField_nonneg raw _
  | cacheCreation => exact totalField_nonneg raw _

end Counters

section Records

/-- What a record is for the token accounting. -/
inductive Kind where
  | context
  | prompt
  | other (total : Option UsageTotals)

/-- The branch of the loop that a record takes. -/
def kind (obj : JsonValue) : Kind :=
  let entryType := obj.getStr "type"
  match (obj.get "payload").bind JsonValue.asObject with
  | none => .context
  | some members =>
    let payload := JsonValue.object members
    if entryType = "session_meta" then .context
    else if entryType = "turn_context" then .context
    else
      let payloadType := payload.getStr "type"
      let role := payload.getStr "role"
      if role = "developer" then .context
      else if entryType = "event_msg" ∧ payloadType = "user_message" then
        if (payload.getStr "message").isEmpty then .context else .prompt
      else if entryType = "response_item" ∧ payloadType = "message" ∧ role = "user" then
        if (contentText ((payload.get "content").getD .null)).isEmpty then .context else .prompt
      else .other (UsageScan.reported entryType payloadType payload)

/-- A user prompt opens a segment if none is open. -/
def isPrompt (obj : JsonValue) : Bool :=
  match kind obj with
  | .prompt => true
  | _ => false

/-- The cumulative totals that a record reports. -/
def snapshot (obj : JsonValue) : Option UsageTotals :=
  match kind obj with
  | .other total => total
  | _ => none

def snapshots (entries : List JsonValue) : List UsageTotals := entries.filterMap snapshot

def lastTotal (entries : List JsonValue) : UsageTotals := (snapshots entries).getLastD 0

theorem snapshots_cons_none {obj : JsonValue} {rest : List JsonValue} (h : snapshot obj = none) :
    snapshots (obj :: rest) = snapshots rest := by
  simp [snapshots, h]

theorem snapshots_cons_some {obj : JsonValue} {rest : List JsonValue} {total : UsageTotals}
    (h : snapshot obj = some total) : snapshots (obj :: rest) = total :: snapshots rest := by
  simp [snapshots, h]

end Records

namespace UsageScan

/-- All segments that were opened, in order, with those that were dropped. -/
def opened (s : UsageScan) : List UsageSegment := s.closed ++ s.out.current.toList

def closedTokens (s : UsageScan) : List UsageTotals := s.closed.map fun seg => seg.usage.totals

def openTokens (s : UsageScan) : Option UsageTotals :=
  s.out.current.map fun seg => seg.usage.totals

def tokens (s : UsageScan) : List UsageTotals := s.opened.map fun seg => seg.usage.totals

theorem tokens_eq (s : UsageScan) : s.tokens = s.closedTokens ++ s.openTokens.toList := by
  cases h : s.out.current <;> simp [tokens, opened, closedTokens, openTokens, h]

/-- The tokens are as before. -/
structure Quiet (s s' : UsageScan) : Prop where
  closedTokens : s'.closedTokens = s.closedTokens
  openTokens : s'.openTokens = s.openTokens
  prevTotal : s'.prevTotal = s.prevTotal

/-- A segment is open, and if it is a new one it has no tokens. -/
structure Opens (s s' : UsageScan) : Prop where
  tokens : s'.tokens = s.tokens ∨ s'.tokens = s.tokens ++ [0]
  isSome : s'.openTokens.isSome = true
  prevTotal : s'.prevTotal = s.prevTotal

/-- The open segment gets the growth. -/
structure Counts (total : UsageTotals) (s s' : UsageScan) : Prop where
  closedTokens : s'.closedTokens = s.closedTokens
  openTokens : s'.openTokens = s.openTokens.map (· + growth total s.prevTotal)
  prevTotal : s'.prevTotal = total

variable {reader : TranscriptReader} {file : RolloutPath} {s s' s'' : UsageScan}
  {total : UsageTotals}

theorem Quiet.refl (s : UsageScan) : Quiet s s := ⟨rfl, rfl, rfl⟩

theorem Counts.quiet (h : Counts total s s') (h' : Quiet s' s'') : Counts total s s'' :=
  ⟨h'.closedTokens.trans h.closedTokens, h'.openTokens.trans h.openTokens,
    h'.prevTotal.trans h.prevTotal⟩

theorem openTokens_modify {f : UsageSegment → UsageSegment} {g : UsageTotals → UsageTotals}
    (h : ∀ seg, (f seg).usage.totals = g seg.usage.totals) (current : Option UsageSegment) :
    (current.map f).map (fun seg => seg.usage.totals) =
      (current.map fun seg => seg.usage.totals).map g := by
  cases current with
  | none => rfl
  | some seg => simp [h]

theorem totals_observeContext (model effort : Option String) (u : SegmentUsage) :
    (observeContext model effort u).totals = u.totals := by
  cases model <;> cases effort <;> simp [observeContext]

theorem turnContext_quiet (payload : JsonValue) : Quiet s (s.turnContext payload) := by
  unfold turnContext
  dsimp only
  split
  · refine ⟨rfl, ?_, rfl⟩
    simp [openTokens, Segmenter.modify, Function.comp_def, UsageSegment.onTranscript]
  · exact ⟨rfl, rfl, rfl⟩

theorem activity_quiet (ts : ℤ) (entryType payloadType role : String) (payload : JsonValue) :
    Quiet s (s.activity reader ts entryType payloadType role payload) := by
  unfold activity
  dsimp only
  split_ifs
  · exact Quiet.refl s
  · split <;>
      exact ⟨rfl, by simp [openTokens, Segmenter.modify, Segmenter.addChars, Function.comp_def,
        UsageSegment.onTranscript], rfl⟩
  all_goals
    exact ⟨rfl, by simp [openTokens, Segmenter.modify, Segmenter.addChars, Function.comp_def,
      UsageSegment.onTranscript], rfl⟩

theorem countTokens_counts : Counts total s (s.countTokens total) := by
  refine ⟨rfl, ?_, rfl⟩
  apply openTokens_modify
  exact fun seg => SegmentUsage.totals_add _ _

theorem opened_boundary (ts : ℤ) :
    (s.boundary ts).opened = s.opened ∧ (s.boundary ts).prevTotal = s.prevTotal := by
  unfold boundary
  split
  · simp [opened, Segmenter.close, Segmenter.setChars]
  · simp

theorem openSegment_opens (ts : ℤ) : Opens s (s.openSegment file ts) := by
  cases hcurrent : s.out.current with
  | none =>
    refine ⟨Or.inr ?_, ?_, rfl⟩
    · have hzero : ({} : SegmentUsage).totals = 0 := rfl
      simp [tokens, opened, openSegment, hcurrent, Segmenter.openNext, totals_observeContext,
        hzero]
    · simp [openTokens, openSegment, hcurrent, Segmenter.openNext]
  | some seg =>
    refine ⟨Or.inl ?_, ?_, rfl⟩
    · simp [tokens, opened, openSegment, hcurrent, Segmenter.modify, UsageSegment.onUsage,
        totals_observeContext]
    · simp [openTokens, openSegment, hcurrent, Segmenter.modify]

theorem Opens.quiet (h : Opens s s') (h' : Quiet s' s'') : Opens s s'' where
  tokens := by
    have htokens : s''.tokens = s'.tokens := by
      rw [tokens_eq, tokens_eq, h'.closedTokens, h'.openTokens]
    rw [htokens]
    exact h.tokens
  isSome := by
    rw [h'.openTokens]
    exact h.isSome
  prevTotal := h'.prevTotal.trans h.prevTotal

theorem prompt_opens (ts : ℤ) (message : String) :
    Opens s (s.prompt reader file ts message) := by
  have hboundary := opened_boundary (s := s) ts
  have hopens : Opens s ((s.boundary ts).openSegment file ts) := by
    have h : Opens (s.boundary ts) ((s.boundary ts).openSegment file ts) := openSegment_opens ts
    refine ⟨?_, h.isSome, h.prevTotal.trans hboundary.2⟩
    have htokens : (s.boundary ts).tokens = s.tokens := by
      rw [tokens, hboundary.1, tokens]
    rw [← htokens]
    exact h.tokens
  apply hopens.quiet
  unfold prompt
  dsimp only
  generalize (s.boundary ts).openSegment file ts = s'
  split_ifs <;>
    exact ⟨rfl, by simp [openTokens, Segmenter.modify, Segmenter.addChars, Segmenter.setUserMs,
      Function.comp_def, UsageSegment.onTranscript], rfl⟩

/-- What one record does to the tokens. -/
theorem step_spec (reader : TranscriptReader) (file : RolloutPath) (s : UsageScan)
    (obj : JsonValue) :
    match kind obj with
    | .context => Quiet s (s.step reader file obj)
    | .prompt => Opens s (s.step reader file obj)
    | .other none => Quiet s (s.step reader file obj)
    | .other (some total) => Counts total s (s.step reader file obj) := by
  unfold kind step
  dsimp only
  cases (obj.get "payload").bind JsonValue.asObject with
  | none => exact Quiet.refl s
  | some members =>
    dsimp only
    by_cases hmeta : obj.getStr "type" = "session_meta"
    · simp only [if_pos hmeta]
      exact ⟨rfl, rfl, rfl⟩
    by_cases hturn : obj.getStr "type" = "turn_context"
    · simp only [if_neg hmeta, if_pos hturn]
      exact turnContext_quiet _
    simp only [if_neg hmeta, if_neg hturn]
    by_cases hrole : (JsonValue.object members).getStr "role" = "developer"
    · simp only [if_pos hrole]
      exact Quiet.refl s
    simp only [if_neg hrole]
    split_ifs
    · exact Quiet.refl s
    · exact prompt_opens _ _
    · exact Quiet.refl s
    · exact prompt_opens _ _
    · cases reported (obj.getStr "type") ((JsonValue.object members).getStr "type")
        (JsonValue.object members) with
      | none => exact activity_quiet _ _ _ _ _
      | some total => exact countTokens_counts.quiet (activity_quiet _ _ _ _ _)

theorem step_counts {obj : JsonValue} (h : snapshot obj = some total) :
    Counts total s (s.step reader file obj) := by
  have hspec := step_spec reader file s obj
  cases hkind : kind obj with
  | context => simp [snapshot, hkind] at h
  | prompt => simp [snapshot, hkind] at h
  | other reported =>
    have hreported : reported = some total := by simpa [snapshot, hkind] using h
    subst hreported
    rwa [hkind] at hspec

theorem step_quiet {obj : JsonValue} (h : snapshot obj = none) (hprompt : isPrompt obj = false) :
    Quiet s (s.step reader file obj) := by
  have hspec := step_spec reader file s obj
  cases hkind : kind obj with
  | context => rwa [hkind] at hspec
  | prompt => simp [isPrompt, hkind] at hprompt
  | other reported =>
    have hreported : reported = none := by simpa [snapshot, hkind] using h
    subst hreported
    rwa [hkind] at hspec

theorem step_opens {obj : JsonValue} (hprompt : isPrompt obj = true) :
    Opens s (s.step reader file obj) ∧ snapshot obj = none := by
  have hspec := step_spec reader file s obj
  cases hkind : kind obj with
  | context => simp [isPrompt, hkind] at hprompt
  | prompt =>
    rw [hkind] at hspec
    exact ⟨hspec, by simp [snapshot, hkind]⟩
  | other reported => simp [isPrompt, hkind] at hprompt

/-- The finished segments are the closed ones with content. -/
def Finished (s : UsageScan) : Prop := s.out.segments = s.closed.filter UsageSegment.hasContent

theorem Finished.step (h : Finished s) (obj : JsonValue) : Finished (s.step reader file obj) := by
  have hboundary : ∀ ts, Finished (s.boundary ts) := by
    intro ts
    unfold boundary
    split
    · rw [Finished] at *
      cases hcurrent : s.out.current with
      | none => simp [Segmenter.close, Segmenter.setChars, hcurrent, h]
      | some seg =>
        by_cases hcontent : seg.hasContent = true <;>
          simp [Segmenter.close, Segmenter.setChars, hcurrent, h, Option.filter, hcontent]
    · exact h
  have hopen : ∀ ts, Finished ((s.boundary ts).openSegment file ts) := by
    intro ts
    have hkeep := hboundary ts
    generalize s.boundary ts = s' at hkeep
    unfold openSegment
    dsimp only
    split_ifs <;> exact hkeep
  have hprompt : ∀ ts message, Finished (s.prompt reader file ts message) := by
    intro ts message
    have hkeep := hopen ts
    unfold prompt
    dsimp only
    generalize (s.boundary ts).openSegment file ts = s' at hkeep
    split_ifs <;> exact hkeep
  have hactivity : ∀ (s : UsageScan) ts entryType payloadType role payload, Finished s →
      Finished (s.activity reader ts entryType payloadType role payload) := by
    intro s ts entryType payloadType role payload hs
    unfold activity
    dsimp only
    split_ifs
    · exact hs
    · split <;> exact hs
    · exact hs
    · exact hs
    · exact hs
  unfold UsageScan.step
  dsimp only
  cases (obj.get "payload").bind JsonValue.asObject with
  | none => exact h
  | some members =>
    dsimp only
    split_ifs
    · exact h
    · unfold turnContext
      dsimp only
      split <;> exact h
    · exact h
    · exact h
    · exact hprompt _ _
    · exact h
    · exact hprompt _ _
    · apply hactivity
      split
      · exact h
      · exact h

theorem Finished.run (h : Finished s) (entries : List JsonValue) :
    Finished (entries.foldl (UsageScan.step reader file) s) := by
  induction entries generalizing s with
  | nil => exact h
  | cons obj rest ih => exact ih (h.step obj)

/-- The returned segments are the opened ones with content. -/
theorem Finished.tokens (h : Finished s) :
    s.finish.map (fun seg => seg.usage.totals) =
      (s.opened.filter UsageSegment.hasContent).map fun seg => seg.usage.totals := by
  rw [finish, opened, h, List.filter_append, List.map_append, List.map_append]
  congr 1
  cases hcurrent : s.out.current with
  | none => rfl
  | some seg =>
    by_cases hcontent : seg.hasContent = true <;>
      simp [Option.filter, hcontent, UsageSegment.onUsage, totals_observeContext]

end UsageScan

section Attribution

variable {reader : TranscriptReader} {file : RolloutPath} {c : Counter} {base : ℤ}
  {log : List (ℕ × ℤ)} {s s' : UsageScan} {total : UsageTotals}

/-- What a segment gets from a log of numbered increases. -/
def share (log : List (ℕ × ℤ)) (i : ℕ) : ℤ := ((log.filter fun p => p.1 = i).map Prod.snd).sum

def differences : ℤ → List ℤ → List ℤ
  | _, [] => []
  | prev, x :: xs => (x - prev) :: differences x xs

theorem share_append (log log' : List (ℕ × ℤ)) (i : ℕ) :
    share (log ++ log') i = share log i + share log' i := by
  simp [share]

theorem share_singleton (i j : ℕ) (x : ℤ) : share [(j, x)] i = if j = i then x else 0 := by
  by_cases h : j = i <;> simp [share, h]

theorem share_nonneg (h : ∀ p ∈ log, 0 ≤ p.2) (i : ℕ) : 0 ≤ share log i := by
  apply List.sum_nonneg
  intro x hx
  obtain ⟨p, hp, rfl⟩ := List.mem_map.mp hx
  exact h p (List.mem_of_mem_filter hp)

theorem share_of_lt {n : ℕ} (h : ∀ p ∈ log, p.1 < n) : share log n = 0 := by
  have hnil : (log.filter fun p => p.1 = n) = [] := by
    rw [List.filter_eq_nil_iff]
    intro p hp
    have := h p hp
    simp only [decide_eq_true_eq]
    omega
  rw [share, hnil]
  rfl

/-- While a segment is open every increase is logged with the number of the open segment, and a
segment has what is logged for it. -/
structure Tracks (c : Counter) (base : ℤ) (log : List (ℕ × ℤ)) (s : UsageScan) : Prop where
  isSome : s.openTokens.isSome = true
  base_nonneg : 0 ≤ base
  total : (s.tokens.map c.count).sum = c.count s.prevTotal - base
  nonneg : ∀ p ∈ log, 0 ≤ p.2
  bounded : ∀ p ∈ log, p.1 < s.tokens.length
  shares : ∀ i t, s.tokens[i]? = some t → c.count t = share log i

namespace Tracks

theorem tokens_nonneg (h : Tracks c base log s) : ∀ t ∈ s.tokens, 0 ≤ c.count t := by
  intro t ht
  obtain ⟨i, hi⟩ := List.getElem?_of_mem ht
  rw [h.shares i t hi]
  exact share_nonneg h.nonneg i

theorem quiet (h : Tracks c base log s) (h' : UsageScan.Quiet s s') : Tracks c base log s' := by
  have htokens : s'.tokens = s.tokens := by
    rw [UsageScan.tokens_eq, UsageScan.tokens_eq, h'.closedTokens, h'.openTokens]
  refine ⟨by rw [h'.openTokens]; exact h.isSome, h.base_nonneg, ?_, h.nonneg, ?_, ?_⟩
  · rw [htokens, h'.prevTotal]
    exact h.total
  · rw [htokens]
    exact h.bounded
  · rw [htokens]
    exact h.shares

theorem opens (h : Tracks c base log s) (h' : UsageScan.Opens s s') : Tracks c base log s' := by
  rcases h'.tokens with htokens | htokens
  · refine ⟨h'.isSome, h.base_nonneg, ?_, h.nonneg, ?_, ?_⟩
    · rw [htokens, h'.prevTotal]
      exact h.total
    · rw [htokens]
      exact h.bounded
    · rw [htokens]
      exact h.shares
  · refine ⟨h'.isSome, h.base_nonneg, ?_, h.nonneg, ?_, ?_⟩
    · simpa [htokens, h'.prevTotal] using h.total
    · intro p hp
      have := h.bounded p hp
      rw [htokens, List.length_append]
      omega
    · intro i t ht
      rw [htokens] at ht
      by_cases hi : i < s.tokens.length
      · rw [List.getElem?_append_left hi] at ht
        exact h.shares i t ht
      · obtain ⟨hlt, -⟩ := List.getElem?_eq_some_iff.mp ht
        have hi' : i = s.tokens.length := by
          simp only [List.length_append, List.length_singleton] at hlt
          omega
        subst hi'
        have ht0 : t = 0 := by simpa [eq_comm] using ht
        rw [ht0, Counter.count_zero, share_of_lt h.bounded]

/-- The first segment opens. -/
theorem first (hnil : s.tokens = []) (hbase : 0 ≤ c.count s.prevTotal)
    (h : UsageScan.Opens s s') : Tracks c (c.count s.prevTotal) [] s' := by
  have htokens : s'.tokens = [0] := by
    rcases h.tokens with htokens | htokens
    · have hopen := h.isSome
      rw [hnil, UsageScan.tokens_eq] at htokens
      cases hcurrent : s'.openTokens with
      | none => simp [hcurrent] at hopen
      | some t => simp [hcurrent] at htokens
    · rw [htokens, hnil, List.nil_append]
  refine ⟨h.isSome, hbase, ?_, by simp, by simp, ?_⟩
  · simp [htokens, h.prevTotal]
  · intro i t ht
    rw [htokens] at ht
    have ht0 : t = 0 := by
      have := List.mem_of_getElem? ht
      simpa using this
    simp [ht0, share]

/-- A report of more tokens is logged for the open segment. -/
theorem counts (h : Tracks c base log s) (h' : UsageScan.Counts total s s')
    (hle : c.count s.prevTotal ≤ c.count total) :
    Tracks c base (log ++ [(s.closedTokens.length, c.count total - c.count s.prevTotal)]) s' := by
  obtain ⟨t, ht⟩ := Option.isSome_iff_exists.mp h.isSome
  have hbefore : s.tokens = s.closedTokens ++ [t] := by
    rw [UsageScan.tokens_eq, ht, Option.toList_some]
  have hafter : s'.tokens = s.closedTokens ++ [t + growth total s.prevTotal] := by
    rw [UsageScan.tokens_eq, h'.closedTokens, h'.openTokens, ht, Option.map_some,
      Option.toList_some]
  have htotal := h.total
  have hnonneg := h.tokens_nonneg
  rw [hbefore] at htotal hnonneg
  rw [List.map_append, List.sum_append, List.map_singleton, List.sum_singleton] at htotal
  have hclosed : 0 ≤ (s.closedTokens.map c.count).sum := by
    apply List.sum_nonneg
    intro x hx
    obtain ⟨u, hu, rfl⟩ := List.mem_map.mp hx
    exact hnonneg u (by simp [hu])
  have hopen : 0 ≤ c.count t := hnonneg t (by simp)
  have hbase := h.base_nonneg
  have hlt : c.count total < 2 ^ 63 := Counter.count_lt
  have hgrowth := Counter.count_growth (by omega) hle
  have hadd : c.count (t + growth total s.prevTotal) =
      c.count t + (c.count total - c.count s.prevTotal) := by
    rw [← hgrowth]
    apply Counter.count_add hopen
    · omega
    · omega
  refine ⟨by simp [h'.openTokens, ht], h.base_nonneg, ?_, ?_, ?_, ?_⟩
  · rw [hafter, h'.prevTotal, List.map_append, List.sum_append, List.map_singleton,
      List.sum_singleton, hadd]
    omega
  · intro p hp
    rcases List.mem_append.mp hp with hp | hp
    · exact h.nonneg p hp
    · rw [List.mem_singleton.mp hp]
      show 0 ≤ c.count total - c.count s.prevTotal
      omega
  · intro p hp
    rw [hafter]
    rcases List.mem_append.mp hp with hp | hp
    · have := h.bounded p hp
      rw [hbefore] at this
      simpa using this
    · rw [List.mem_singleton.mp hp]
      simp
  · intro i u hu
    rw [share_append, share_singleton]
    rw [hafter] at hu
    by_cases hi : i < s.closedTokens.length
    · rw [List.getElem?_append_left hi] at hu
      rw [if_neg (by omega), add_zero]
      apply h.shares
      rw [hbefore, List.getElem?_append_left hi]
      exact hu
    · obtain ⟨hlt', -⟩ := List.getElem?_eq_some_iff.mp hu
      have hi' : i = s.closedTokens.length := by
        simp only [List.length_append, List.length_singleton] at hlt'
        omega
      subst hi'
      have hu' : u = t + growth total s.prevTotal := by simpa [eq_comm] using hu
      rw [hu', hadd, if_pos rfl, h.shares s.closedTokens.length t (by simp [hbefore])]

/-- The increases of a run are logged one after the other. -/
theorem run (reader : TranscriptReader) (file : RolloutPath) {entries : List JsonValue} (h : Tracks c base log s)
    (hmono : (c.count s.prevTotal :: (snapshots entries).map c.count).Pairwise (· ≤ ·)) :
    ∃ log', Tracks c base (log ++ log') (entries.foldl (UsageScan.step reader file) s) ∧
      log'.map Prod.snd =
        differences (c.count s.prevTotal) ((snapshots entries).map c.count) ∧
      (entries.foldl (UsageScan.step reader file) s).prevTotal =
        (snapshots entries).getLastD s.prevTotal := by
  induction entries generalizing s log with
  | nil => exact ⟨[], by simpa using h, rfl, rfl⟩
  | cons obj rest ih =>
    rw [List.foldl_cons]
    cases hsnap : snapshot obj with
    | none =>
      rw [snapshots_cons_none hsnap] at *
      cases hprompt : isPrompt obj with
      | false =>
        have hquiet : UsageScan.Quiet s (s.step reader file obj) :=
          UsageScan.step_quiet hsnap hprompt
        rw [← hquiet.prevTotal] at hmono ⊢
        exact ih (h.quiet hquiet) hmono
      | true =>
        have hopens : UsageScan.Opens s (s.step reader file obj) := (UsageScan.step_opens hprompt).1
        rw [← hopens.prevTotal] at hmono ⊢
        exact ih (h.opens hopens) hmono
    | some total =>
      rw [snapshots_cons_some hsnap] at *
      have hcounts : UsageScan.Counts total s (s.step reader file obj) :=
        UsageScan.step_counts hsnap
      have hle : c.count s.prevTotal ≤ c.count total :=
        List.rel_of_pairwise_cons hmono (by simp)
      obtain ⟨log', htracks, hlog, hlast⟩ := ih (h.counts hcounts hle)
        (by rw [hcounts.prevTotal]; exact hmono.of_cons)
      refine ⟨(s.closedTokens.length, c.count total - c.count s.prevTotal) :: log', ?_, ?_, ?_⟩
      · rwa [List.append_assoc, List.singleton_append] at htracks
      · rw [List.map_cons, hlog, List.map_cons, differences, hcounts.prevTotal]
      · rw [hlast, hcounts.prevTotal, List.getLastD_cons]

end Tracks

/-- Before the first prompt no segment has tokens. -/
theorem run_before (reader : TranscriptReader) (file : RolloutPath) {entries : List JsonValue}
    (hnil : s.tokens = [])
    (h : ∀ obj ∈ entries, isPrompt obj = false) :
    (entries.foldl (UsageScan.step reader file) s).tokens = [] ∧
      (entries.foldl (UsageScan.step reader file) s).prevTotal =
        (snapshots entries).getLastD s.prevTotal := by
  induction entries generalizing s with
  | nil => exact ⟨hnil, rfl⟩
  | cons obj rest ih =>
    have hobj := h obj (by simp)
    have hrest := fun obj' hobj' => h obj' (List.mem_cons_of_mem obj hobj')
    rw [UsageScan.tokens_eq, List.append_eq_nil_iff, Option.toList_eq_nil_iff] at hnil
    rw [List.foldl_cons]
    cases hsnap : snapshot obj with
    | none =>
      have hquiet : UsageScan.Quiet s (s.step reader file obj) := UsageScan.step_quiet hsnap hobj
      rw [snapshots_cons_none hsnap, ← hquiet.prevTotal]
      apply ih _ hrest
      rw [UsageScan.tokens_eq, hquiet.closedTokens, hquiet.openTokens, hnil.1, hnil.2]
      rfl
    | some total =>
      have hcounts : UsageScan.Counts total s (s.step reader file obj) :=
        UsageScan.step_counts hsnap
      rw [snapshots_cons_some hsnap, List.getLastD_cons, ← hcounts.prevTotal]
      apply ih _ hrest
      rw [UsageScan.tokens_eq, hcounts.closedTokens, hcounts.openTokens, hnil.1, hnil.2]
      rfl

end Attribution

def beforeFirstPrompt (entries : List JsonValue) : List JsonValue :=
  entries.takeWhile fun obj => !isPrompt obj

def fromFirstPrompt (entries : List JsonValue) : List JsonValue :=
  entries.dropWhile fun obj => !isPrompt obj

/-- The increases of a counter from the first prompt on are logged in order, each for one opened
segment; a segment has what is logged for it, and together they have the whole growth. -/
structure Telescopes (c : Counter) (entries : List JsonValue) (opened : List UsageTotals) : Prop
    where
  total : (opened.map c.count).sum =
    c.count (lastTotal entries) - c.count (lastTotal (beforeFirstPrompt entries))
  attributed : ∃ log : List (ℕ × ℤ),
    log.map Prod.snd = differences (c.count (lastTotal (beforeFirstPrompt entries)))
      ((snapshots (fromFirstPrompt entries)).map c.count) ∧
    (∀ p ∈ log, 0 ≤ p.2 ∧ p.1 < opened.length) ∧
    ∀ i t, opened[i]? = some t → c.count t = share log i

section Rollouts

variable {reader : TranscriptReader} {file : RolloutPath} {c : Counter}

theorem count_reported {entryType payloadType : String} {payload : JsonValue}
    {total : UsageTotals}
    (h : UsageScan.reported entryType payloadType payload = some total) : 0 ≤ c.count total := by
  unfold UsageScan.reported at h
  split_ifs at h
  obtain ⟨raw, -, rfl⟩ := Option.map_eq_some_iff.mp h
  exact Counter.count_codexUsageTotals raw

theorem count_snapshot {obj : JsonValue} {total : UsageTotals} (h : snapshot obj = some total) :
    0 ≤ c.count total := by
  unfold snapshot kind at h
  dsimp only at h
  cases hpayload : (obj.get "payload").bind JsonValue.asObject with
  | none => simp [hpayload] at h
  | some members =>
    rw [hpayload] at h
    dsimp only at h
    split_ifs at h
    exact count_reported h

theorem count_lastTotal (entries : List JsonValue) : 0 ≤ c.count (lastTotal entries) := by
  rw [lastTotal, List.getLastD_eq_getLast?]
  cases h : (snapshots entries).getLast? with
  | none => simp
  | some total =>
    obtain ⟨obj, -, hobj⟩ := List.mem_filterMap.mp (List.mem_of_getLast? h)
    exact count_snapshot hobj

/-- The reports from the first prompt on are not below the one before it. -/
theorem pairwise_lastTotal {before after : List JsonValue}
    (hmono : ((snapshots (before ++ after)).map c.count).Pairwise (· ≤ ·)) :
    (c.count (lastTotal before) :: (snapshots after).map c.count).Pairwise (· ≤ ·) := by
  have happend : snapshots (before ++ after) = snapshots before ++ snapshots after :=
    List.filterMap_append
  rw [happend, List.map_append, List.pairwise_append] at hmono
  rw [List.pairwise_cons]
  refine ⟨fun x hx => ?_, hmono.2.1⟩
  rw [lastTotal, List.getLastD_eq_getLast?]
  cases h : (snapshots before).getLast? with
  | none =>
    obtain ⟨total, htotal, rfl⟩ := List.mem_map.mp hx
    obtain ⟨obj, -, hobj⟩ := List.mem_filterMap.mp htotal
    rw [Option.getD_none, Counter.count_zero]
    exact count_snapshot hobj
  | some last => exact hmono.2.2 _ (List.mem_map_of_mem (List.mem_of_getLast? h)) x hx

theorem scan_telescopes (entries : List JsonValue)
    (hmono : ((snapshots entries).map c.count).Pairwise (· ≤ ·)) :
    Telescopes c entries (entries.foldl (UsageScan.step reader file) {}).tokens := by
  have hsplit : entries = beforeFirstPrompt entries ++ fromFirstPrompt entries :=
    List.takeWhile_append_dropWhile.symm
  have hbefore : ∀ obj ∈ beforeFirstPrompt entries, isPrompt obj = false := by
    intro obj hobj
    simpa using List.mem_takeWhile_imp hobj
  obtain ⟨hnil, hprev⟩ := run_before reader file (s := {}) rfl hbefore
  have hlast : (snapshots (beforeFirstPrompt entries)).getLastD ({} : UsageScan).prevTotal =
      lastTotal (beforeFirstPrompt entries) := rfl
  rw [hlast] at hprev
  cases hfrom : fromFirstPrompt entries with
  | nil =>
    have hall : entries = beforeFirstPrompt entries := by
      rw [hfrom, List.append_nil] at hsplit
      exact hsplit
    rw [← hall] at hnil
    refine ⟨?_, [], ?_, by simp, ?_⟩
    · rw [hnil, ← hall]
      simp
    · rw [hfrom]
      rfl
    · rw [hnil]
      simp
  | cons prompt rest =>
    have hprompt : isPrompt prompt = true := by
      have hhead := List.head?_dropWhile_not (fun obj => !isPrompt obj) entries
      have hfrom' : entries.dropWhile (fun obj => !isPrompt obj) = prompt :: rest := hfrom
      rw [hfrom'] at hhead
      simpa using hhead
    rw [hfrom] at hsplit
    let scan := (beforeFirstPrompt entries).foldl (UsageScan.step reader file) {}
    have hstep : UsageScan.Opens scan (scan.step reader file prompt) ∧ snapshot prompt = none :=
      UsageScan.step_opens hprompt
    obtain ⟨hopens, hsnap⟩ := hstep
    have hfirst := Tracks.first hnil (by rw [hprev]; exact count_lastTotal (c := c) _) hopens
    have hrest : snapshots (prompt :: rest) = snapshots rest := snapshots_cons_none hsnap
    rw [hsplit] at hmono
    have hchain := pairwise_lastTotal hmono
    rw [hrest, ← hprev, ← hopens.prevTotal] at hchain
    obtain ⟨log, htracks, hlog, hend⟩ := hfirst.run reader file hchain
    rw [hopens.prevTotal, hprev] at hlog
    have hfold : entries.foldl (UsageScan.step reader file) {} =
        rest.foldl (UsageScan.step reader file) (scan.step reader file prompt) := by
      conv_lhs => rw [hsplit]
      rw [List.foldl_append, List.foldl_cons]
    have htotal : lastTotal entries = (snapshots rest).getLastD scan.prevTotal := by
      have hsnapshots : snapshots entries =
          snapshots (beforeFirstPrompt entries) ++ snapshots rest := by
        rw [← hrest]
        conv_lhs => rw [hsplit]
        exact List.filterMap_append
      rw [hprev, lastTotal, lastTotal, hsnapshots]
      simp only [List.getLastD_eq_getLast?, List.getLast?_append]
      cases (snapshots rest).getLast? <;> simp
    rw [hfold]
    refine ⟨?_, log, ?_, ?_, ?_⟩
    · rw [htracks.total, hend, hopens.prevTotal, htotal, hprev]
    · rw [hfrom, hrest, hlog]
    · exact fun p hp => ⟨htracks.nonneg p hp, htracks.bounded p hp⟩
    · exact htracks.shares

end Rollouts

/-- Whatever the splits are, the growth is attributed completely to the opened segments, and the
returned ones are those of them with content. -/
theorem codex_deltas_telescope (reader : TranscriptReader) (file : RolloutPath)
    (lines : List String) (c : Counter)
    (hmono : ((snapshots (reader.entries lines)).map c.count).Pairwise (· ≤ ·)) :
    let scan := (reader.entries lines).foldl (UsageScan.step reader file) {}
    Telescopes c (reader.entries lines) (scan.opened.map fun seg => seg.usage.totals) ∧
      (extractUsage reader file lines).map (fun seg => seg.usage.totals) =
        (scan.opened.filter UsageSegment.hasContent).map fun seg => seg.usage.totals := by
  have hfinished : UsageScan.Finished {} := rfl
  exact ⟨scan_telescopes _ hmono, (hfinished.run (reader.entries lines)).tokens⟩

section Instance

/-- The JSON values of some lines. -/
def sampleLine (line : String) : Option JsonValue :=
  let record (timestamp : String) (payload : List (String × JsonValue)) : JsonValue :=
    .object [("payload", .object payload), ("timestamp", .string timestamp),
      ("type", .string "event_msg")]
  let prompt (timestamp message : String) :=
    record timestamp [("message", .string message), ("type", .string "user_message")]
  let tokens (timestamp : String) (n : ℤ) := record timestamp
    [("info", .object [("total_token_usage", .object [("output_tokens", .int n)])]),
      ("type", .string "token_count")]
  [("blank", prompt "00:00:01" " "), ("hello", prompt "00:10:00" "hello"),
    ("first", tokens "00:00:02" 100), ("second", tokens "00:10:02" 150)].lookup line

def sampleReader : TranscriptReader where
  parseJson := sampleLine
  render := fun _ => ""
  parseRfc3339 := fun ts =>
    [("00:00:01", 1000), ("00:00:02", 2000), ("00:10:00", 600000), ("00:10:02", 602000)].lookup ts
  parseUtc := fun _ => none
  redact := id

/-- Tokens of a segment without content are in no returned segment. -/
theorem dropped_segment_tokens :
    ¬ ∀ (reader : TranscriptReader) (lines : List String) (c : Counter),
      ((snapshots (reader.entries lines)).map c.count).Pairwise (· ≤ ·) →
        ((extractUsage reader ⟨"", "", ""⟩ lines).map fun seg => c.count seg.usage.totals).sum =
          c.count (lastTotal (reader.entries lines)) -
            c.count (lastTotal (beforeFirstPrompt (reader.entries lines))) := by
  intro h
  have hsum := h sampleReader ["blank", "first", "hello", "second"] .output (by decide +kernel)
  revert hsum
  decide +kernel

theorem two_segments_telescope :
    Telescopes .output (sampleReader.entries ["hello", "first", "second"])
      (((sampleReader.entries ["hello", "first", "second"]).foldl
        (UsageScan.step sampleReader ⟨"", "", ""⟩) {}).opened.map fun seg => seg.usage.totals) :=
  (codex_deltas_telescope sampleReader ⟨"", "", ""⟩ ["hello", "first", "second"] .output
    (by decide +kernel)).1

end Instance

end Hippo.Codex
