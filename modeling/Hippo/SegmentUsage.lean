import Hippo.Table
import Mathlib.Algebra.BigOperators.Group.List.Basic
import Mathlib.Algebra.Order.Group.Defs

/-!
# Model, effort and token accounting of a segment

The counters are `i64` and wrap like it.
-/
namespace Hippo

@[ext]
structure UsageTotals where
  inputTokens : Int64 := 0
  outputTokens : Int64 := 0
  cacheReadTokens : Int64 := 0
  cacheCreationTokens : Int64 := 0
deriving DecidableEq

namespace UsageTotals

instance : Zero UsageTotals := ⟨{}⟩

/-- `UsageTotals::add`. -/
instance : Add UsageTotals where
  add t u :=
    { inputTokens := t.inputTokens + u.inputTokens
      outputTokens := t.outputTokens + u.outputTokens
      cacheReadTokens := t.cacheReadTokens + u.cacheReadTokens
      cacheCreationTokens := t.cacheCreationTokens + u.cacheCreationTokens }

instance : Neg UsageTotals where
  neg t :=
    { inputTokens := -t.inputTokens
      outputTokens := -t.outputTokens
      cacheReadTokens := -t.cacheReadTokens
      cacheCreationTokens := -t.cacheCreationTokens }

def fieldMax (t u : UsageTotals) : UsageTotals where
  inputTokens := max t.inputTokens u.inputTokens
  outputTokens := max t.outputTokens u.outputTokens
  cacheReadTokens := max t.cacheReadTokens u.cacheReadTokens
  cacheCreationTokens := max t.cacheCreationTokens u.cacheCreationTokens

@[simp] theorem inputTokens_add (t u : UsageTotals) :
    (t + u).inputTokens = t.inputTokens + u.inputTokens := rfl

@[simp] theorem outputTokens_add (t u : UsageTotals) :
    (t + u).outputTokens = t.outputTokens + u.outputTokens := rfl

@[simp] theorem cacheReadTokens_add (t u : UsageTotals) :
    (t + u).cacheReadTokens = t.cacheReadTokens + u.cacheReadTokens := rfl

@[simp] theorem cacheCreationTokens_add (t u : UsageTotals) :
    (t + u).cacheCreationTokens = t.cacheCreationTokens + u.cacheCreationTokens := rfl

instance : AddCommGroup UsageTotals where
  add_assoc t u v := by ext1 <;> exact Int64.add_assoc _ _ _
  zero_add t := by ext1 <;> exact Int64.zero_add _
  add_zero t := by ext1 <;> exact Int64.add_zero _
  add_comm t u := by ext1 <;> exact Int64.add_comm _ _
  neg_add_cancel t := by ext1 <;> exact Int64.add_left_neg _
  nsmul := nsmulRec
  zsmul := zsmulRec

end UsageTotals

/-- Counts string values in the order they were first seen. -/
abbrev Tally := List (String × ℕ)

namespace Tally

def record (value : String) : Tally → Tally
  | [] => [(value, 1)]
  | (v, n) :: rest => if v = value then (v, n + 1) :: rest else (v, n) :: record value rest

end Tally

/-- `SegmentUsage`: what was added without a message id, the maximum for each message id, and
the values that were observed. -/
structure SegmentUsage where
  unkeyed : UsageTotals := {}
  byMessageId : Table String UsageTotals := Table.empty
  models : Tally := []
  requestedModels : Tally := []
  efforts : Tally := []

namespace SegmentUsage

def totals (u : SegmentUsage) : UsageTotals :=
  u.byMessageId.entries.foldl (fun acc e => acc + e.2) u.unkeyed

/-- `<synthetic>` marks messages that no model served. -/
def observeModel (value : String) (u : SegmentUsage) : SegmentUsage :=
  if value ≠ "<synthetic>" then { u with models := Tally.record value u.models } else u

def observeRequestedModel (value : String) (u : SegmentUsage) : SegmentUsage :=
  { u with requestedModels := Tally.record value u.requestedModels }

def observeEffort (value : String) (u : SegmentUsage) : SegmentUsage :=
  { u with efforts := Tally.record value u.efforts }

def recordMessage (messageId : Option String) (usage : UsageTotals) (u : SegmentUsage) :
    SegmentUsage :=
  match messageId with
  | some id => { u with
      byMessageId := u.byMessageId.upsert id (UsageTotals.fieldMax {} usage)
        fun t => t.fieldMax usage }
  | none => { u with unkeyed := u.unkeyed + usage }

def add (usage : UsageTotals) (u : SegmentUsage) : SegmentUsage :=
  { u with unkeyed := u.unkeyed + usage }

theorem totals_eq (u : SegmentUsage) :
    u.totals = u.unkeyed + (u.byMessageId.entries.map Prod.snd).sum := by
  unfold totals
  generalize u.byMessageId.entries = entries
  induction entries generalizing u with
  | nil => simp
  | cons e entries ih =>
    have hrest := ih { u with unkeyed := u.unkeyed + e.2 }
    rw [List.foldl_cons, List.map_cons, List.sum_cons, ← add_assoc]
    exact hrest

@[simp] theorem totals_observeModel (value : String) (u : SegmentUsage) :
    (u.observeModel value).totals = u.totals := by
  unfold observeModel
  split <;> rfl

@[simp] theorem totals_observeEffort (value : String) (u : SegmentUsage) :
    (u.observeEffort value).totals = u.totals := rfl

@[simp] theorem totals_add (usage : UsageTotals) (u : SegmentUsage) :
    (u.add usage).totals = u.totals + usage := by
  rw [totals_eq, totals_eq, add, add_right_comm]

end SegmentUsage

end Hippo
