import Hippo.ClaudeSession
import Mathlib.Data.List.Dedup
import Mathlib.Tactic.Abel

/-!
# Token accounting over the segments of a transcript

Every usage record reaches one segment: the records of a turn reach the one where the message id
was first seen, and count there once, at their field-wise maximum. What the file's end leaves out
takes its usage with it.
-/
namespace Hippo.Claude

/-- A usage record: the message id it carries, if any, and its token counts. -/
abbrev UsageRecord := Option String × UsageTotals

/-- What one turn counts for: the field-wise maximum of its records. -/
def turnTotals (records : List UsageRecord) (id : String) : UsageTotals :=
  ((records.filter fun r => r.1 = some id).map Prod.snd).foldl UsageTotals.fieldMax {}

/-- The usage of the records without a message id. -/
def unkeyedTotals (records : List UsageRecord) : UsageTotals :=
  ((records.filter fun r => r.1 = none).map Prod.snd).sum

/-- The distinct message ids. -/
def turnIds (records : List UsageRecord) : List String := (records.filterMap Prod.fst).dedup

/-- What the records of a transcript add up to. -/
def recordedTotals (records : List UsageRecord) : UsageTotals :=
  unkeyedTotals records + ((turnIds records).map (turnTotals records)).sum

/-- The usage record of a line. -/
def lineUsage (entry : JsonValue) : Option UsageRecord :=
  if entry.getStr "type" = "assistant" then
    parseAssistantUsage ((entry.get "message").getD .null)
  else none

section Records

variable {records : List UsageRecord}

theorem turnTotals_append (id id' : String) (tokens : UsageTotals) :
    turnTotals (records ++ [(some id, tokens)]) id' =
      if id' = id then (turnTotals records id').fieldMax tokens else turnTotals records id' := by
  unfold turnTotals
  by_cases h : id' = id
  · subst h
    simp [List.filter_append]
  · simp [List.filter_append, h, Ne.symm h]

theorem turnTotals_append_none (tokens : UsageTotals) (id : String) :
    turnTotals (records ++ [(none, tokens)]) id = turnTotals records id := by
  simp [turnTotals, List.filter_append]

theorem turnTotals_of_notMem {id : String} (h : id ∉ records.filterMap Prod.fst) :
    turnTotals records id = {} := by
  have hnone : records.filter (fun r => r.1 = some id) = [] := by
    apply List.filter_eq_nil_iff.mpr
    intro r hr hid
    exact h (List.mem_filterMap.mpr ⟨r, hr, of_decide_eq_true hid⟩)
  rw [turnTotals, hnone]
  rfl

theorem unkeyedTotals_append_some (id : String) (tokens : UsageTotals) :
    unkeyedTotals (records ++ [(some id, tokens)]) = unkeyedTotals records := by
  simp [unkeyedTotals, List.filter_append]

theorem unkeyedTotals_append_none (tokens : UsageTotals) :
    unkeyedTotals (records ++ [(none, tokens)]) = unkeyedTotals records + tokens := by
  simp [unkeyedTotals, List.filter_append]

end Records

/-- A usage record with the number of the segment among whose lines it stands. -/
abbrev Located := UsageRecord × ℕ

/-- The segment that owns a turn: the one where its message id first appears. -/
def home (located : List Located) (id : String) : Option ℕ :=
  (located.find? fun r => r.1.1 = some id).map Prod.snd

/-- The segment that owns a record. -/
def homeOf (located : List Located) (r : Located) : ℕ :=
  match r.1.1 with
  | some id => (home located id).getD r.2
  | none => r.2

/-- The records that belong to the segments from a number on. -/
def recordsFrom (k : ℕ) (located : List Located) : List UsageRecord :=
  (located.filter fun r => k ≤ homeOf located r).map Prod.fst

section Located

variable {located : List Located}

theorem home_append (r : Located) (id : String) :
    home (located ++ [r]) id =
      (home located id).or (if r.1.1 = some id then some r.2 else none) := by
  unfold home
  rw [List.find?_append]
  cases located.find? fun r => r.1.1 = some id with
  | some a => simp
  | none => by_cases h : r.1.1 = some id <;> simp [h]

theorem notMem_of_home {id : String} (h : home located id = none) :
    id ∉ (located.map Prod.fst).filterMap Prod.fst := by
  intro hmem
  obtain ⟨r, hr, hid⟩ := List.mem_filterMap.mp hmem
  obtain ⟨l, hl, rfl⟩ := List.mem_map.mp hr
  have hnone := List.find?_eq_none.mp (Option.map_eq_none_iff.mp h) l hl
  exact hnone (decide_eq_true hid)

theorem exists_of_home {id : String} {j : ℕ} (h : home located id = some j) :
    ∃ r ∈ located, r.1.1 = some id := by
  obtain ⟨r, hr, -⟩ := Option.map_eq_some_iff.mp h
  have hid := List.find?_some hr
  exact ⟨r, List.mem_of_find?_eq_some hr, of_decide_eq_true hid⟩

theorem homeOf_of_home {r : Located} {id : String} {j : ℕ} (hid : r.1.1 = some id)
    (h : home located id = some j) : homeOf located r = j := by
  simp [homeOf, hid, h]

theorem unkeyedTotals_recordsFrom (k : ℕ) :
    unkeyedTotals ((located.filter fun r => k ≤ r.2).map Prod.fst) =
      unkeyedTotals (recordsFrom k located) := by
  have hsame : ∀ r ∈ located, (decide (r.1.1 = none) && decide (k ≤ r.2)) =
      (decide (r.1.1 = none) && decide (k ≤ homeOf located r)) := by
    intro r _
    by_cases h : r.1.1 = none <;> simp [homeOf, h]
  simp only [unkeyedTotals, recordsFrom, List.filter_map, List.filter_filter,
    Function.comp_def, List.filter_congr hsame]

theorem turnTotals_recordsFrom {k j : ℕ} {id : String} (h : home located id = some j)
    (hk : k ≤ j) :
    turnTotals (recordsFrom k located) id = turnTotals (located.map Prod.fst) id := by
  have hsame : ∀ r ∈ located, (decide (r.1.1 = some id) && decide (k ≤ homeOf located r)) =
      decide (r.1.1 = some id) := by
    intro r _
    by_cases hid : r.1.1 = some id
    · simp [hid, homeOf_of_home hid h, hk]
    · simp [hid]
  simp only [turnTotals, recordsFrom, List.filter_map, List.filter_filter, Function.comp_def,
    List.filter_congr hsame]

theorem mem_turnIds_recordsFrom {k : ℕ} {id : String} :
    id ∈ turnIds (recordsFrom k located) ↔ ∃ j, home located id = some j ∧ k ≤ j := by
  simp only [turnIds, recordsFrom, List.mem_dedup, List.mem_filterMap, List.mem_map,
    List.mem_filter, decide_eq_true_eq]
  constructor
  · rintro ⟨_, ⟨r, ⟨hr, hk⟩, rfl⟩, hid⟩
    have hsome : home located id ≠ none := by
      intro hnone
      exact notMem_of_home hnone (List.mem_filterMap.mpr ⟨r.1, List.mem_map_of_mem hr, hid⟩)
    obtain ⟨j, hj⟩ := Option.ne_none_iff_exists'.mp hsome
    rw [homeOf_of_home hid hj] at hk
    exact ⟨j, hj, hk⟩
  · rintro ⟨j, hj, hk⟩
    obtain ⟨r, hr, hid⟩ := exists_of_home hj
    exact ⟨r.1, ⟨r, ⟨hr, by rw [homeOf_of_home hid hj]; exact hk⟩, rfl⟩, hid⟩

/-- All records belong to the segments from the first on. -/
theorem recordsFrom_zero : recordsFrom 0 located = located.map Prod.fst := by
  simp [recordsFrom]

end Located

/-- The part of a segment's usage that counts tokens. -/
abbrev Account := UsageTotals × Table String UsageTotals

def Account.total (a : Account) : UsageTotals := a.1 + (a.2.entries.map Prod.snd).sum

/-- `SegmentUsage.recordMessage` on an account. -/
def Account.record (messageId : Option String) (tokens : UsageTotals) (a : Account) : Account :=
  match messageId with
  | none => (a.1 + tokens, a.2)
  | some id => (a.1, a.2.upsert id (UsageTotals.fieldMax {} tokens) fun t => t.fieldMax tokens)

def Segment.account (seg : Segment) : Account := (seg.usage.unkeyed, seg.usage.byMessageId)

theorem Segment.account_onTranscript (f : TranscriptSegment → TranscriptSegment) (seg : Segment) :
    (seg.onTranscript f).account = seg.account := rfl

theorem Segment.account_recordMessage (messageId : Option String) (tokens : UsageTotals)
    (seg : Segment) : (seg.onUsage (SegmentUsage.recordMessage messageId tokens)).account =
      seg.account.record messageId tokens := by
  cases messageId <;> rfl

/-- The accounts of the finished segments and of the open one. -/
def accounts (out : Segmenter Segment) : List Account :=
  (out.segments ++ out.current.toList).map Segment.account

theorem sum_map_modify {M : Type} [AddCommGroup M] {α : Type} (g : α → M) (f : α → α) {δ : M}
    (hf : ∀ a, g (f a) = g a + δ) {l : List α} {k : ℕ} (hk : k < l.length) :
    ((l.modify k f).map g).sum = (l.map g).sum + δ := by
  induction l generalizing k with
  | nil => simp at hk
  | cons a l ih =>
    cases k with
    | zero =>
      simp only [List.modify_zero_cons, List.map_cons, List.sum_cons, hf]
      abel
    | succ k =>
      rw [List.modify_succ_cons, List.map_cons, List.sum_cons, List.map_cons, List.sum_cons,
        ih (Nat.lt_of_succ_lt_succ hk), add_assoc]

/-- Every record counts in one account: `owner` names it for each message id seen. -/
structure Accounted (located : List Located) (owner : Table String ℕ) (book : List Account) :
    Prop where
  owned : ∀ j id v, (book[j]?.bind fun a => a.2.get? id) = some v ↔
    owner.get? id = some j ∧ v = turnTotals (located.map Prod.fst) id
  homes : ∀ id, owner.get? id = home located id
  unkeyed : ∀ k, ((book.drop k).map Prod.fst).sum =
    unkeyedTotals ((located.filter fun r => k ≤ r.2).map Prod.fst)

namespace Accounted

variable {located : List Located} {owner : Table String ℕ} {book : List Account}

theorem empty : Accounted [] Table.empty [] where
  owned := by simp [Table.empty, Table.get?]
  homes := by simp [Table.empty, Table.get?, home]
  unkeyed := by simp [unkeyedTotals]

theorem owner_lt (h : Accounted located owner book) {id : String} {j : ℕ}
    (hj : owner.get? id = some j) : j < book.length := by
  have hv := (h.owned j id _).mpr ⟨hj, rfl⟩
  by_contra hge
  rw [List.getElem?_eq_none (by omega)] at hv
  cases hv

/-- A new segment opens with an empty account. -/
theorem append_empty (h : Accounted located owner book) :
    Accounted located owner (book ++ [(0, Table.empty)]) where
  owned := by
    intro j id v
    rw [← h.owned]
    rcases Nat.lt_trichotomy j book.length with hj | hj | hj
    · rw [List.getElem?_append_left hj]
    · subst hj
      simp [Table.empty, Table.get?]
    · rw [List.getElem?_eq_none (by simp; omega), List.getElem?_eq_none (by omega)]
  homes := h.homes
  unkeyed := by
    intro k
    rw [List.drop_append, List.map_append, List.sum_append, h.unkeyed]
    cases k - book.length <;> simp

/-- A record without an id is added to the open account. -/
theorem record_none (h : Accounted located owner book) {n : ℕ} (hn : n < book.length)
    (tokens : UsageTotals) : Accounted (located ++ [((none, tokens), n)]) owner
      (book.modify n (Account.record none tokens)) where
  owned := by
    intro j id v
    rw [List.map_append, List.map_singleton, turnTotals_append_none, ← h.owned,
      List.getElem?_modify]
    cases book[j]? with
    | none => simp
    | some a => by_cases hj : n = j <;> simp [hj, Account.record]
  homes := by
    intro id
    rw [h.homes]
    simp [home_append]
  unkeyed := by
    intro k
    rw [List.filter_append, List.map_append]
    by_cases hk : k ≤ n
    · have hsum := sum_map_modify Prod.fst (Account.record none tokens) (fun _ => rfl)
        (by rw [List.length_drop]; omega : n - k < (book.drop k).length)
      have hlate : [(((none, tokens), n) : Located)].filter (fun r => k ≤ r.2) =
          [((none, tokens), n)] := by simp [hk]
      rw [List.drop_modify_of_ge _ _ _ _ hk, hsum, h.unkeyed, hlate, List.map_singleton,
        unkeyedTotals_append_none]
    · have hearly : [(((none, tokens), n) : Located)].filter (fun r => k ≤ r.2) = [] := by
        simp [hk]
      rw [List.drop_modify_of_lt _ _ _ _ (by omega), h.unkeyed, hearly, List.map_nil,
        List.append_nil]

/-- A record with an id is counted in the account that owns its turn, or in the open one. -/
theorem record_some (h : Accounted located owner book) {id : String} {owner' : Table String ℕ}
    {k n : ℕ} (hk : k < book.length)
    (hbefore : owner.get? id = none ∧ k = n ∨ owner.get? id = some k)
    (howner : ∀ id', owner'.get? id' = if id' = id then some k else owner.get? id')
    (tokens : UsageTotals) : Accounted (located ++ [((some id, tokens), n)]) owner'
      (book.modify k (Account.record (some id) tokens)) where
  owned := by
    intro j id' v
    have howned := h.owned j id'
    rw [List.map_append, List.map_singleton, turnTotals_append, howner, List.getElem?_modify]
    by_cases hid : id' = id
    · subst hid
      by_cases hj : k = j
      · subst hj
        obtain ⟨a, ha⟩ : ∃ a, book[k]? = some a := ⟨book[k], List.getElem?_eq_getElem hk⟩
        have hold : a.2.get? id' =
            (owner.get? id').map fun _ => turnTotals (located.map Prod.fst) id' := by
          rcases hbefore with hnone | hsome
          · rw [hnone.1, Option.map_none]
            by_contra hold
            obtain ⟨t, ht⟩ := Option.ne_none_iff_exists'.mp hold
            have hk' := ((howned t).mp (by rw [ha]; exact ht)).1
            rw [hnone.1] at hk'
            cases hk'
          · have ht := (howned _).mpr ⟨hsome, rfl⟩
            rw [ha] at ht
            rw [hsome]
            exact ht
        have hfirst : owner.get? id' = none → turnTotals (located.map Prod.fst) id' = {} := by
          intro hnone
          apply turnTotals_of_notMem
          rw [h.homes] at hnone
          exact notMem_of_home hnone
        simp only [ha, if_true, Option.map_eq_map, Option.map_some, Option.bind_some,
          Account.record, Table.get?_upsert, hold, true_and]
        rcases hbefore with hnone | hsome
        · rw [hfirst hnone.1, hnone.1]
          simp [eq_comm]
        · rw [hsome]
          simp [eq_comm]
      · have hother : ∀ t, (book[j]?.bind fun a => a.2.get? id') ≠ some t := by
          intro t ht
          have howner' := ((howned t).mp ht).1
          rcases hbefore with hnone | hsome
          · rw [hnone.1] at howner'
            cases howner'
          · rw [hsome] at howner'
            exact hj (Option.some.inj howner')
        cases hb : book[j]? with
        | none => simp [hj]
        | some a =>
          have hnot := hother v
          rw [hb] at hnot
          simpa [hj] using hnot
    · rw [if_neg hid, if_neg hid, ← howned]
      cases book[j]? with
      | none => simp
      | some a => by_cases hj : k = j <;> simp [hj, Account.record, Table.get?_upsert, hid]
  homes := by
    intro id'
    rw [howner, home_append, ← h.homes]
    by_cases hid : id' = id
    · subst hid
      rcases hbefore with ⟨hnone, rfl⟩ | hsome
      · simp [hnone]
      · simp [hsome]
    · simp [hid, Ne.symm hid]
  unkeyed := by
    intro i
    have hkept : (((book.modify k (Account.record (some id) tokens)).drop i).map Prod.fst).sum =
        ((book.drop i).map Prod.fst).sum := by
      by_cases hi : i ≤ k
      · have hsum := sum_map_modify Prod.fst (Account.record (some id) tokens)
          (fun a => (add_zero a.1).symm)
          (by rw [List.length_drop]; omega : k - i < (book.drop i).length)
        rw [List.drop_modify_of_ge _ _ _ _ hi, hsum, add_zero]
      · rw [List.drop_modify_of_lt _ _ _ _ (by omega)]
    rw [hkept, h.unkeyed, List.filter_append, List.map_append]
    by_cases hi : i ≤ n
    · have hlate : [(((some id, tokens), n) : Located)].filter (fun r => i ≤ r.2) =
          [((some id, tokens), n)] := by simp [hi]
      rw [hlate, List.map_singleton, unkeyedTotals_append_some]
    · have hearly : [(((some id, tokens), n) : Located)].filter (fun r => i ≤ r.2) = [] := by
        simp [hi]
      rw [hearly, List.map_nil, List.append_nil]

/-- The accounts from a number on add up to the records that belong there. -/
theorem total (h : Accounted located owner book) (k : ℕ) :
    ((book.drop k).map Account.total).sum = recordedTotals (recordsFrom k located) := by
  have hsplit : ∀ accounts : List Account, (accounts.map Account.total).sum =
      (accounts.map Prod.fst).sum +
        ((accounts.flatMap fun a => a.2.entries).map Prod.snd).sum := by
    intro accounts
    induction accounts with
    | nil => simp
    | cons a accounts ih =>
      simp only [List.map_cons, List.sum_cons, List.flatMap_cons, List.map_append,
        List.sum_append, ih, Account.total]
      abel
  have hentry : ∀ (j : ℕ) (e : String × UsageTotals),
      (∃ a, (book.drop k)[j]? = some a ∧ e ∈ a.2.entries) ↔
        home located e.1 = some (k + j) ∧ e.2 = turnTotals (located.map Prod.fst) e.1 := by
    intro j e
    rw [← h.homes, ← h.owned, List.getElem?_drop]
    simp only [Option.bind_eq_some_iff, Table.get?_eq_some]
  have hmem : ∀ e : String × UsageTotals, e ∈ (book.drop k).flatMap (fun a => a.2.entries) ↔
      e.1 ∈ turnIds (recordsFrom k located) ∧ e.2 = turnTotals (recordsFrom k located) e.1 := by
    intro e
    have hsome : e ∈ (book.drop k).flatMap (fun a => a.2.entries) ↔
        ∃ j : ℕ, ∃ a, (book.drop k)[j]? = some a ∧ e ∈ a.2.entries := by
      rw [List.mem_flatMap]
      constructor
      · rintro ⟨a, ha, he⟩
        obtain ⟨j, hj⟩ := List.mem_iff_getElem?.mp ha
        exact ⟨j, a, hj, he⟩
      · rintro ⟨j, a, hj, he⟩
        exact ⟨a, List.mem_of_getElem? hj, he⟩
    rw [hsome, mem_turnIds_recordsFrom]
    simp only [hentry]
    constructor
    · rintro ⟨j, hj, hv⟩
      exact ⟨⟨k + j, hj, Nat.le_add_right k j⟩,
        by rw [turnTotals_recordsFrom hj (Nat.le_add_right k j), hv]⟩
    · rintro ⟨⟨i, hi, hki⟩, hv⟩
      refine ⟨i - k, by rw [hi, Nat.add_sub_cancel' hki], ?_⟩
      rw [hv, turnTotals_recordsFrom hi hki]
  have hnodup : ((book.drop k).flatMap fun a => a.2.entries).Nodup := by
    apply List.nodup_flatMap.mpr
    refine ⟨fun (a : Account) _ => List.Nodup.of_map Prod.fst a.2.nodup, ?_⟩
    rw [List.pairwise_iff_getElem]
    intro i j hi hj hij e hei hej
    have hi' := ((hentry i e).mp ⟨_, List.getElem?_eq_getElem hi, hei⟩).1
    have hj' := ((hentry j e).mp ⟨_, List.getElem?_eq_getElem hj, hej⟩).1
    rw [hi'] at hj'
    have heq : k + i = k + j := Option.some.inj hj'
    omega
  have hperm : ((book.drop k).flatMap fun a => a.2.entries).Perm
      ((turnIds (recordsFrom k located)).map fun id =>
        (id, turnTotals (recordsFrom k located) id)) := by
    apply (List.perm_ext_iff_of_nodup hnodup _).mpr
    · intro e
      rw [hmem, List.mem_map]
      constructor
      · rintro ⟨hid, hv⟩
        exact ⟨e.1, hid, by rw [← hv]⟩
      · rintro ⟨id, hid, rfl⟩
        exact ⟨hid, rfl⟩
    · exact (List.nodup_dedup _).map fun _ _ heq => congrArg Prod.fst heq
  rw [hsplit, h.unkeyed, unkeyedTotals_recordsFrom, (hperm.map Prod.snd).sum_eq, List.map_map,
    recordedTotals]
  rfl

end Accounted

namespace Scan

/-- The accounting invariant of the loop. -/
def Accounts (located : List Located) (s : Scan) : Prop :=
  Accounted located s.usageOwner (accounts s.out)

section Ledger

variable {out : Segmenter Segment}

@[simp] theorem accounts_addChars (n : ℕ) : accounts (out.addChars n) = accounts out := rfl

@[simp] theorem accounts_setChars (n : ℕ) : accounts (out.setChars n) = accounts out := rfl

@[simp] theorem accounts_setUserMs (t : ℤ) : accounts (out.setUserMs t) = accounts out := rfl

theorem accounts_openNext {fresh : ℕ → Segment} (hnone : out.current = none)
    (hfresh : ∀ n, (fresh n).account = (0, Table.empty)) :
    accounts (out.openNext fresh) = accounts out ++ [(0, Table.empty)] := by
  simp [accounts, Segmenter.openNext, hnone, hfresh]

theorem accounts_close : accounts (out.close fun _ => true) = accounts out := by
  cases hcurrent : out.current <;> simp [accounts, Segmenter.close, hcurrent, Option.filter]

/-- A change of the open segment changes the last account. -/
theorem accounts_modify (f : Segment → Segment) (g : Account → Account)
    (hfg : ∀ seg, (f seg).account = g seg.account) :
    accounts (out.modify f) = (accounts out).modify out.segments.length g := by
  cases hcurrent : out.current with
  | none =>
    simp only [accounts, Segmenter.modify, hcurrent, Option.map_none, Option.toList_none,
      List.append_nil]
    rw [List.modify_eq_self (by simp)]
  | some seg =>
    ext1 j
    simp only [accounts, Segmenter.modify, hcurrent, Option.map_some, Option.toList_some,
      List.map_append, List.map_cons, List.map_nil, hfg, List.getElem?_modify,
      List.getElem?_append, List.length_map]
    by_cases hj : j < out.segments.length
    · have hne : ¬ out.segments.length = j := by omega
      simp [hj, hne]
    · by_cases heq : out.segments.length = j
      · simp [← heq]
      · have hpos : j - out.segments.length ≠ 0 := by omega
        simp [hj, heq, hpos]

theorem accounts_modify_same {f : Segment → Segment} (hf : ∀ seg, (f seg).account = seg.account) :
    accounts (out.modify f) = accounts out := by
  cases hcurrent : out.current <;> simp [accounts, Segmenter.modify, hcurrent, hf]

theorem accounts_modifyAt {i : ℕ} (hi : i < out.segments.length) (f : Segment → Segment)
    (g : Account → Account) (hfg : ∀ seg, (f seg).account = g seg.account) :
    accounts (out.modifyAt i f) = (accounts out).modify i g := by
  ext1 j
  simp only [accounts, Segmenter.modifyAt, List.getElem?_modify, List.getElem?_map,
    List.getElem?_append, List.length_modify]
  by_cases hj : j < out.segments.length
  · by_cases hij : i = j
    · simp [hj, hij, hfg]
    · simp [hj, hij]
  · have hij : ¬ i = j := by omega
    simp [hj, hij]

theorem length_accounts {seg : Segment} (h : out.current = some seg) :
    (accounts out).length = out.segments.length + 1 := by
  simp [accounts, h]

end Ledger

section Step

variable {located : List Located} {s : Scan}

theorem Accounts.openFirst (h : s.Accounts located) (now ts : ℤ) (entryType cwd : String)
    (gitBranch : Option String) :
    (s.openFirst now ts entryType cwd gitBranch).Accounts located := by
  unfold Scan.openFirst
  split
  · rename_i hopen
    rw [Accounts, accounts_openNext (Option.isNone_iff_eq_none.mp hopen.1) fun _ => rfl]
    exact h.append_empty
  · exact h

theorem Accounts.boundary (h : s.Accounts located) (ts : ℤ) (entryType cwd : String)
    (gitBranch : Option String) : (s.boundary ts entryType cwd gitBranch).Accounts located := by
  unfold Scan.boundary
  split
  · rw [Accounts, accounts_setChars, accounts_openNext rfl fun _ => rfl, accounts_close]
    exact h.append_empty
  · exact h

theorem Accounts.seen (h : s.Accounts located) (ts : ℤ) (cwd : String) :
    (s.seen ts cwd).Accounts located := by
  rw [Accounts, Scan.seen, accounts_modify_same (Segment.account_onTranscript _)]
  exact h

theorem Accounts.user (h : s.Accounts located) (reader : TranscriptReader) (ts : ℤ)
    (entry : JsonValue) : (s.user reader ts entry).Accounts located := by
  have htime : accounts (if 0 < ts then s.out.setUserMs ts else s.out) = accounts s.out := by
    split <;> rfl
  unfold Scan.user
  dsimp only
  split
  · rw [Accounts, htime]
    exact h
  · rw [Accounts, accounts_modify_same (Segment.account_onTranscript _), accounts_addChars, htime]
    exact h

theorem account_observeAssistantMeta (entry msg : JsonValue) (seg : Segment) :
    (seg.onUsage (observeAssistantMeta entry msg)).account = seg.account := by
  have hmodel : ∀ value (u : SegmentUsage), (u.observeModel value).unkeyed = u.unkeyed ∧
      (u.observeModel value).byMessageId = u.byMessageId := by
    intro value u
    unfold SegmentUsage.observeModel
    split <;> exact ⟨rfl, rfl⟩
  unfold Segment.onUsage Segment.account observeAssistantMeta
  dsimp only
  split <;> split <;> split <;>
    simp [SegmentUsage.observeEffort, SegmentUsage.observeRequestedModel, hmodel]

/-- A usage record is added to the books. -/
theorem Accounts.recordUsage (h : s.Accounts located) {seg : Segment}
    (hcurrent : s.out.current = some seg) {n : ℕ} (hn : s.out.segments.length = n)
    (usage : Option UsageRecord) :
    (s.recordUsage usage).Accounts (located ++ (usage.map fun r => (r, n)).toList) := by
  subst hn
  have hlength := length_accounts hcurrent
  have hopen : s.out.segments.length < (accounts s.out).length := by omega
  cases usage with
  | none => simpa [Scan.recordUsage] using h
  | some record =>
    obtain ⟨messageId, tokens⟩ := record
    cases messageId with
    | none =>
      have hrecord := Segment.account_recordMessage none tokens
      simp only [Scan.recordUsage, Accounts, accounts_modify _ _ hrecord, Option.map_some,
        Option.toList_some]
      exact h.record_none hopen tokens
    | some id =>
      have hrecord := Segment.account_recordMessage (some id) tokens
      unfold Scan.recordUsage
      dsimp only
      cases howner : s.usageOwner.get? id with
      | none =>
        simp only [Accounts, accounts_modify _ _ hrecord,
          Option.map_some, Option.toList_some]
        exact h.record_some hopen (Or.inl ⟨howner, rfl⟩)
          (fun id' => Table.get?_insert s.usageOwner id id' _ howner) tokens
      | some i =>
        have hsame : ∀ id', s.usageOwner.get? id' =
            if id' = id then some i else s.usageOwner.get? id' := by
          intro id'
          by_cases hid : id' = id
          · rw [if_pos hid, hid, howner]
          · rw [if_neg hid]
        have hi := h.owner_lt howner
        by_cases hfinished : i < s.out.segments.length
        · simp only [hfinished, if_true, Accounts, accounts_modifyAt hfinished _ _ hrecord,
            Option.map_some, Option.toList_some]
          exact h.record_some hi (Or.inr howner) hsame tokens
        · obtain rfl : i = s.out.segments.length := by omega
          simp only [hfinished, if_false, Accounts, accounts_modify _ _ hrecord,
          Option.map_some, Option.toList_some]
          exact h.record_some hi (Or.inr howner) hsame tokens

theorem Accounts.assistant (h : s.Accounts located) (reader : TranscriptReader)
    (hcurrent : ∃ seg, s.out.current = some seg) (entry : JsonValue) :
    (s.assistant reader entry).Accounts (located ++
      ((parseAssistantUsage ((entry.get "message").getD .null)).map fun r =>
        (r, s.out.segments.length)).toList) := by
  obtain ⟨seg, hcurrent⟩ := hcurrent
  unfold Scan.assistant
  dsimp only
  apply Accounts.recordUsage
  · rw [Accounts, accounts_modify_same (account_observeAssistantMeta _ _),
      accounts_modify_same (Segment.account_onTranscript _), accounts_addChars]
    exact h
  · simp only [Segmenter.modify, Segmenter.addChars, hcurrent, Option.map_some]
    rfl
  · rfl

theorem length_recordUsage (s : Scan) (usage : Option UsageRecord) :
    (s.recordUsage usage).out.segments.length = s.out.segments.length := by
  unfold Scan.recordUsage
  split
  · rfl
  · rfl
  · dsimp only
    split
    · split
      · exact List.length_modify _ _ _
      · rfl
    · rfl

theorem length_assistant (s : Scan) (reader : TranscriptReader) (entry : JsonValue) :
    (s.assistant reader entry).out.segments.length = s.out.segments.length :=
  length_recordUsage _ _

/-- A user or assistant line is never read outside a segment. -/
theorem exists_current_openFirst (s : Scan) (now ts : ℤ) {entryType : String}
    (htype : entryType = "user" ∨ entryType = "assistant") (cwd : String)
    (gitBranch : Option String) :
    ∃ seg, (s.openFirst now ts entryType cwd gitBranch).out.current = some seg := by
  unfold Scan.openFirst
  cases hcurrent : s.out.current with
  | none =>
    have hopens : entryType = "user" ∨ entryType = "assistant" ∨ entryType = "system" := by
      tauto
    simp [hopens, Segmenter.openNext, hcurrent]
  | some seg => exact ⟨seg, by simp [hcurrent]⟩

theorem exists_current_seen {s : Scan} (h : ∃ seg, s.out.current = some seg) (ts : ℤ)
    (cwd : String) : ∃ seg, (s.seen ts cwd).out.current = some seg := by
  obtain ⟨seg, hseg⟩ := h
  simp [Scan.seen, Segmenter.modify, hseg]

theorem step_assistant (s : Scan) (reader : TranscriptReader) (now : ℤ) {entry : JsonValue}
    (htype : entry.getStr "type" = "assistant") :
    s.step reader now entry = ((s.openFirst now (entryMs reader entry) (entry.getStr "type")
      (entry.getStr "cwd") (entry.getStr? "gitBranch")).seen (entryMs reader entry)
        (entry.getStr "cwd")).assistant reader entry := by
  obtain ⟨seg, hseg⟩ := exists_current_openFirst s now (entryMs reader entry) (Or.inr htype)
    (entry.getStr "cwd") (entry.getStr? "gitBranch")
  unfold Scan.step Scan.boundary
  rw [htype] at hseg ⊢
  simp [hseg]

/-- The usage record of a line, with the number of the segment it is read in. -/
def locate (reader : TranscriptReader) (now : ℤ) (s : Scan) (entry : JsonValue) :
    Option Located :=
  (lineUsage entry).map fun r => (r, (s.step reader now entry).out.segments.length)

theorem Accounts.step (h : s.Accounts located) (reader : TranscriptReader) (now : ℤ)
    (entry : JsonValue) :
    (s.step reader now entry).Accounts (located ++ (s.locate reader now entry).toList) := by
  have hopen := h.openFirst now (entryMs reader entry) (entry.getStr "type") (entry.getStr "cwd")
    (entry.getStr? "gitBranch")
  by_cases hassistant : entry.getStr "type" = "assistant"
  · have hcurrent := exists_current_seen (exists_current_openFirst s now (entryMs reader entry)
      (Or.inr hassistant) (entry.getStr "cwd") (entry.getStr? "gitBranch")) (entryMs reader entry)
      (entry.getStr "cwd")
    rw [Scan.locate, lineUsage, if_pos hassistant, s.step_assistant reader now hassistant,
      length_assistant]
    exact (hopen.seen _ _).assistant reader hcurrent entry
  · have hnone : lineUsage entry = none := if_neg hassistant
    rw [Scan.locate, hnone, Option.map_none, Option.toList_none, List.append_nil, Scan.step]
    dsimp only
    split
    · exact h
    · split
      · exact h
      · split
        · exact hopen
        · have hseen := (hopen.boundary (entryMs reader entry) (entry.getStr "type")
            (entry.getStr "cwd") (entry.getStr? "gitBranch")).seen (entryMs reader entry)
            (entry.getStr "cwd")
          split
          · exact hseen.user reader _ entry
          · exact hseen

end Step

end Scan

/-- The usage records of some lines with the segments they are read in. -/
def locatedUsage (reader : TranscriptReader) (now : ℤ) : Scan → List JsonValue → List Located
  | _, [] => []
  | s, entry :: rest => (s.locate reader now entry).toList ++
      locatedUsage reader now (s.step reader now entry) rest

theorem map_fst_locatedUsage (reader : TranscriptReader) (now : ℤ) (s : Scan)
    (entries : List JsonValue) :
    (locatedUsage reader now s entries).map Prod.fst = entries.filterMap lineUsage := by
  induction entries generalizing s with
  | nil => rfl
  | cons entry entries ih =>
    rw [locatedUsage, List.map_append, ih, List.filterMap_cons]
    cases hline : lineUsage entry <;> simp [Scan.locate, hline]

theorem Scan.accounts_start : (({} : Scan)).Accounts [] := Accounted.empty

/-- The books balance after any lines. -/
theorem Scan.Accounts.foldl {located : List Located} {s : Scan} (h : s.Accounts located)
    (reader : TranscriptReader) (now : ℤ) (entries : List JsonValue) :
    (entries.foldl (Scan.step reader now) s).Accounts
      (located ++ locatedUsage reader now s entries) := by
  induction entries generalizing s located with
  | nil => simpa [locatedUsage] using h
  | cons entry entries ih =>
    have hrest := ih (h.step reader now entry)
    rw [List.append_assoc] at hrest
    exact hrest

section Extraction

variable {H : Type} [DecidableEq H]

/-- The usage records whose turn began in a segment that the end of the file leaves out. -/
def leftOutUsage (env : Rendering H) (reader : TranscriptReader) (now : ℤ) (lines : List String) :
    List UsageRecord :=
  recordsFrom (extractSegments env reader now lines).length
    (locatedUsage reader now {} (reader.entries lines))

/-- What the returned segments count and what the left out ones take with them is what the
transcript records. -/
theorem totals_add_leftOut (env : Rendering H) (reader : TranscriptReader) (now : ℤ)
    (lines : List String) :
    ((extractSegments env reader now lines).map fun seg => seg.usage.totals).sum +
        recordedTotals (leftOutUsage env reader now lines) =
      recordedTotals ((reader.entries lines).filterMap lineUsage) := by
  have hbooks : (scanLines reader now lines).Accounts
      (locatedUsage reader now {} (reader.entries lines)) :=
    Scan.accounts_start.foldl reader now (reader.entries lines)
  obtain ⟨rest, hrest⟩ : extractSegments env reader now lines <+:
      (scanLines reader now lines).out.segments ++
        (scanLines reader now lines).out.current.toList := by
    apply (collapse_isPrefix _ _).trans
    rw [rawSegments, Segmenter.finish_eq, List.prefix_append_right_inj]
    cases (scanLines reader now lines).out.current with
    | none => exact List.prefix_rfl
    | some seg => by_cases hseg : seg.hasContent = true <;> simp [Option.filter, hseg]
  have htotal : ∀ segments : List Segment,
      (segments.map fun seg => seg.usage.totals).sum =
        ((segments.map Segment.account).map Account.total).sum := by
    intro segments
    rw [List.map_map]
    congr 2
    funext seg
    exact seg.usage.totals_eq
  have hall := hbooks.total 0
  have hleft := hbooks.total (extractSegments env reader now lines).length
  rw [accounts, ← hrest, List.map_append] at hall hleft
  rw [recordsFrom_zero, map_fst_locatedUsage, List.drop_zero, List.map_append,
    List.sum_append] at hall
  rw [List.drop_left' (List.length_map _)] at hleft
  rw [htotal, leftOutUsage, ← hleft, ← hall]

/-- The segments of a transcript count every turn once, at its field-wise maximum, exactly when
the turns that the end of the file leaves out add up to nothing. -/
theorem usage_accounted_iff (env : Rendering H) (reader : TranscriptReader) (now : ℤ)
    (lines : List String) :
    ((extractSegments env reader now lines).map fun seg => seg.usage.totals).sum =
        recordedTotals ((reader.entries lines).filterMap lineUsage) ↔
      recordedTotals (leftOutUsage env reader now lines) = 0 := by
  rw [← totals_add_leftOut env reader now lines]
  exact left_eq_add

end Extraction

section Instance

/-- An answer with its usage record. -/
def answerLine (timestamp id text : String) (outputTokens : ℤ) : JsonValue :=
  claudeLine "assistant" timestamp [
    ("content", .array [.object [("text", .string text), ("type", .string "text")]]),
    ("id", .string id), ("usage", .object [("output_tokens", .int outputTokens)])]

/-- A parser for the lines of the run below: seven minutes pass before the tool result. -/
def taskReader : TranscriptReader where
  parseJson := fun line => [
    ("a", claudeLine "user" "0" [("content", .string "fix the bug")]),
    ("b", answerLine "0" "m1" "The failing test is in main.rs" 50),
    ("c", claudeLine "user" "7" [("content", .array [.object [("type", .string "tool_result")]])]),
    ("d", answerLine "7" "m2" "Done." 7)].lookup line
  render := fun _ => ""
  parseRfc3339 := fun _ => none
  parseUtc := fun ts => [("0", 1000000), ("7", 1420000)].lookup ts
  redact := id

/-- A tool result after a pause opens a segment, a short answer leaves it without content, and
the tokens of the answer count nowhere. -/
theorem trailing_answer_uncounted :
    ((extractSegments plainContent taskReader 0 ["a", "b", "c", "d"]).map fun seg =>
        seg.usage.totals).sum ≠
      recordedTotals ((taskReader.entries ["a", "b", "c", "d"]).filterMap lineUsage) := by
  decide +kernel

end Instance

end Hippo.Claude
