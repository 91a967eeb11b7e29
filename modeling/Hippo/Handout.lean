import Mathlib.Data.List.Nodup
import Mathlib.Data.Int.Notation
import Mathlib.Tactic.Common

/-!
# Handing out what was locked

A claim locks entries of a queue, hands some of them out and closes the others. The claims of
several groups, made one after the other under one budget, hand out what all of them locked.
-/
namespace Hippo

variable {κ ρ ν β σ τ G : Type*}

/-- Of the `locked` entries those of `handed` are held, each of them once, and were handed out as
they are stored; the others are closed. All other entries are as before. An entry has a queue row
and the item it is for. -/
structure HandsOut (Held Closed : ρ → ρ → Prop) (key : β → κ) (item : β → ν)
    (before after : κ → Option ρ × ν) (locked : List κ) (handed : List β) : Prop where
  nodup : locked.Nodup
  once : (handed.map key).Nodup
  subset : ∀ b ∈ handed, key b ∈ locked
  held : ∀ b ∈ handed, ∃ r r', before (key b) = (some r, item b) ∧
    after (key b) = (some r', item b) ∧ Held r r'
  closed : ∀ k ∈ locked, k ∉ handed.map key → ∃ r r',
    (before k).1 = some r ∧ (after k).1 = some r' ∧ Closed r r'
  frame : ∀ k, k ∉ locked → after k = before k

namespace HandsOut

variable {Held Closed : ρ → ρ → Prop} {key : β → κ} {item : β → ν}
  {before mid after : κ → Option ρ × ν} {locked locked' : List κ} {handed handed' : List β}

theorem refl : HandsOut Held Closed key item before before [] [] where
  nodup := List.nodup_nil
  once := List.nodup_nil
  subset := by simp
  held := by simp
  closed := by simp
  frame := fun _ _ => rfl

/-- A lock hands out everything, if the entries are read back as they are. -/
theorem lock (hnodup : locked.Nodup) (hperm : (handed.map key).Perm locked)
    (hheld : ∀ b ∈ handed, ∃ r r', before (key b) = (some r, item b) ∧
      after (key b) = (some r', item b) ∧ Held r r')
    (hframe : ∀ k, k ∉ locked → after k = before k) :
    HandsOut Held Closed key item before after locked handed where
  nodup := hnodup
  once := hperm.nodup_iff.mpr hnodup
  subset := fun _ hb => hperm.mem_iff.mp (List.mem_map_of_mem hb)
  held := hheld
  closed := fun _ hk hnot => absurd (hperm.mem_iff.mpr hk) hnot
  frame := hframe

/-- Closing one of the handed entries. -/
theorem close {b : β} {pre post : List β} [DecidableEq κ]
    (h : HandsOut Held Closed key item before mid locked (pre ++ b :: post))
    (hclosed : ∀ r r', Held r r' → (mid (key b)).1 = some r' →
      ∃ r'', (after (key b)).1 = some r'' ∧ Closed r r'')
    (hframe : ∀ k, k ≠ key b → after k = mid k) :
    HandsOut Held Closed key item before after locked (pre ++ post) := by
  have hsub : (pre ++ post).Sublist (pre ++ b :: post) :=
    List.Sublist.append_left (List.sublist_cons_self b post) pre
  have hnot : key b ∉ (pre ++ post).map key := by
    have hperm : ((pre ++ b :: post).map key).Perm (key b :: (pre ++ post).map key) := by
      simp
    exact (List.nodup_cons.mp (hperm.nodup_iff.mp h.once)).1
  have hne : ∀ c ∈ pre ++ post, key c ≠ key b := by
    intro c hc heq
    exact hnot (heq ▸ List.mem_map_of_mem hc)
  refine ⟨h.nodup, h.once.sublist (hsub.map key), fun c hc => h.subset c (hsub.subset hc), ?_, ?_,
    ?_⟩
  · intro c hc
    obtain ⟨r, r', hbefore, hmid, hheld⟩ := h.held c (hsub.subset hc)
    exact ⟨r, r', hbefore, by rw [hframe (key c) (hne c hc), hmid], hheld⟩
  · intro k hk hkept
    by_cases hkb : k = key b
    · obtain ⟨r, r', hbefore, hmid, hheld⟩ := h.held b (by simp)
      obtain ⟨r'', hafter, hclose⟩ := hclosed r r' hheld (by rw [hmid])
      exact ⟨r, r'', by rw [hkb, hbefore], by rw [hkb, hafter], hclose⟩
    · have hnot' : k ∉ (pre ++ b :: post).map key := by
        simp only [List.map_append, List.map_cons, List.mem_append, List.mem_cons] at hkept ⊢
        simp only [not_or] at hkept ⊢
        exact ⟨hkept.1, hkb, hkept.2⟩
      obtain ⟨r, r', hbefore, hmid, hclose⟩ := h.closed k hk hnot'
      exact ⟨r, r', hbefore, by rw [hframe k hkb, hmid], hclose⟩
  · intro k hk
    have hkb : k ≠ key b := by
      intro heq
      exact hk (heq ▸ h.subset b (by simp))
    rw [hframe k hkb, h.frame k hk]

/-- Closing all handed entries that are not kept. -/
theorem filter {p : β → Bool} (h : HandsOut Held Closed key item before mid locked handed)
    (hclosed : ∀ b ∈ handed, p b = false → ∀ r r', Held r r' → (mid (key b)).1 = some r' →
      ∃ r'', (after (key b)).1 = some r'' ∧ Closed r r'')
    (hframe : ∀ k, (∀ b ∈ handed, p b = false → k ≠ key b) → after k = mid k) :
    HandsOut Held Closed key item before after locked (handed.filter p) := by
  have hsub : (handed.filter p).Sublist handed := List.filter_sublist
  have hkept : ∀ b ∈ handed.filter p, ∀ c ∈ handed, p c = false → key b ≠ key c := by
    intro b hb c hc hpc heq
    obtain ⟨hb, hpb⟩ := List.mem_filter.mp hb
    rw [List.inj_on_of_nodup_map h.once hb hc heq, hpc] at hpb
    cases hpb
  refine ⟨h.nodup, h.once.sublist (hsub.map key), fun b hb => h.subset b (hsub.subset hb), ?_, ?_,
    ?_⟩
  · intro b hb
    obtain ⟨r, r', hbefore, hmid, hheld⟩ := h.held b (hsub.subset hb)
    exact ⟨r, r', hbefore, by rw [hframe (key b) (hkept b hb), hmid], hheld⟩
  · intro k hk hnot
    by_cases hhanded : k ∈ handed.map key
    · obtain ⟨b, hb, rfl⟩ := List.mem_map.mp hhanded
      have hpb : p b = false := by
        by_contra hpb
        exact hnot (List.mem_map_of_mem (List.mem_filter.mpr ⟨hb, by simpa using hpb⟩))
      obtain ⟨r, r', hbefore, hmid, hheld⟩ := h.held b hb
      obtain ⟨r'', hafter, hclose⟩ := hclosed b hb hpb r r' hheld (by rw [hmid])
      exact ⟨r, r'', by rw [hbefore], hafter, hclose⟩
    · obtain ⟨r, r', hbefore, hmid, hclose⟩ := h.closed k hk hhanded
      have hother : ∀ b ∈ handed, p b = false → k ≠ key b := by
        intro b hb _ heq
        exact hhanded (heq ▸ List.mem_map_of_mem hb)
      exact ⟨r, r', hbefore, by rw [hframe k hother, hmid], hclose⟩
  · intro k hk
    have hother : ∀ b ∈ handed, p b = false → k ≠ key b := by
      intro b hb _ heq
      exact hk (heq ▸ h.subset b hb)
    rw [hframe k hother, h.frame k hk]

/-- Two claims one after the other that lock different entries. -/
theorem append (h : HandsOut Held Closed key item before mid locked handed)
    (h' : HandsOut Held Closed key item mid after locked' handed')
    (hdisjoint : locked.Disjoint locked') :
    HandsOut Held Closed key item before after (locked ++ locked') (handed ++ handed') := by
  have hother : ∀ k ∈ locked, k ∉ locked' := fun k hk hk' => hdisjoint hk hk'
  refine ⟨h.nodup.append h'.nodup hdisjoint, ?_, ?_, ?_, ?_, ?_⟩
  · rw [List.map_append]
    apply h.once.append h'.once
    intro k hk hk'
    obtain ⟨b, hb, rfl⟩ := List.mem_map.mp hk
    obtain ⟨b', hb', heq⟩ := List.mem_map.mp hk'
    exact hdisjoint (h.subset b hb) (heq ▸ h'.subset b' hb')
  · intro b hb
    rcases List.mem_append.mp hb with hb | hb
    · exact List.mem_append_left _ (h.subset b hb)
    · exact List.mem_append_right _ (h'.subset b hb)
  · intro b hb
    rcases List.mem_append.mp hb with hb | hb
    · obtain ⟨r, r', hbefore, hmid, hheld⟩ := h.held b hb
      exact ⟨r, r', hbefore, by rw [h'.frame _ (hother _ (h.subset b hb)), hmid], hheld⟩
    · obtain ⟨r, r', hmid, hafter, hheld⟩ := h'.held b hb
      have hfresh : key b ∉ locked := fun hk => hother _ hk (h'.subset b hb)
      exact ⟨r, r', by rw [← h.frame _ hfresh, hmid], hafter, hheld⟩
  · intro k hk hnot
    rw [List.map_append, List.mem_append, not_or] at hnot
    rcases List.mem_append.mp hk with hk | hk
    · obtain ⟨r, r', hbefore, hmid, hclose⟩ := h.closed k hk hnot.1
      exact ⟨r, r', hbefore, by rw [h'.frame k (hother k hk), hmid], hclose⟩
    · obtain ⟨r, r', hmid, hafter, hclose⟩ := h'.closed k hk hnot.2
      have hfresh : k ∉ locked := fun hk' => hother k hk' hk
      exact ⟨r, r', by rw [← h.frame k hfresh, hmid], hafter, hclose⟩
  · intro k hk
    rw [List.mem_append, not_or] at hk
    rw [h'.frame k hk.2, h.frame k hk.1]

end HandsOut

/-- Closes the elements that `close` accepts and keeps the others. -/
def sieve (close : σ → β → Option σ) : List β → σ → σ × List β
  | [], s => (s, [])
  | b :: rest, s =>
    match close s b with
    | some s' => sieve close rest s'
    | none =>
      let (s', kept) := sieve close rest s
      (s', b :: kept)

section Sieve

variable {close : σ → β → Option σ} {Held Closed : ρ → ρ → Prop} {key : β → κ} {item : β → ν}
  {look : σ → κ → Option ρ × ν} {before : κ → Option ρ × ν} {locked : List κ}

theorem sieve_invariant {f : σ → τ} (hclose : ∀ s b s', close s b = some s' → f s' = f s)
    (bs : List β) (s : σ) : f (sieve close bs s).1 = f s := by
  induction bs generalizing s with
  | nil => rfl
  | cons b rest ih =>
    unfold sieve
    cases hb : close s b with
    | none => exact ih s
    | some s' => exact (ih s').trans (hclose s b s' hb)

/-- What a sieve takes out of the handed entries is closed. -/
theorem HandsOut.sieve [DecidableEq κ] (hclose : ∀ s b s', close s b = some s' →
      (∀ r r', Held r r' → (look s (key b)).1 = some r' →
        ∃ r'', (look s' (key b)).1 = some r'' ∧ Closed r r'') ∧
      ∀ k, k ≠ key b → look s' k = look s k)
    {bs kept : List β} {s : σ}
    (h : HandsOut Held Closed key item before (look s) locked (kept ++ bs)) :
    HandsOut Held Closed key item before (look (Hippo.sieve close bs s).1) locked
      (kept ++ (Hippo.sieve close bs s).2) := by
  induction bs generalizing kept s with
  | nil => exact h
  | cons b rest ih =>
    unfold Hippo.sieve
    cases hb : close s b with
    | none =>
      have hshift : kept ++ b :: rest = kept ++ [b] ++ rest := by simp
      rw [hshift] at h
      simpa using ih h
    | some s' =>
      obtain ⟨hclosed, hframe⟩ := hclose s b s' hb
      exact ih (h.close hclosed hframe)

end Sieve

/-- What a claim did: the keys its lock statements returned, the chunks, the state after it. -/
structure ClaimOutcome (κ β σ : Type*) where
  locked : List κ
  chunks : List (List β)
  state : σ

/-- One call of a claim from the state `s` hands out what it locks, and does not lock more than a
`cap` that is not negative. -/
structure Claims (Held Closed : ρ → ρ → Prop) (key : β → κ) (item : β → ν)
    (look : σ → κ → Option ρ × ν) (cap : Option ℤ) (s : σ) (call : ClaimOutcome κ β σ) : Prop where
  handsOut : HandsOut Held Closed key item (look s) (look call.state) call.locked
    call.chunks.flatten
  within : ∀ n ∈ cap, 0 ≤ n → (call.locked.length : ℤ) ≤ n

/-- The `LIMIT` for a budget; a negative one is none. -/
def budgetLimit (remaining : ℤ) : Option ℕ :=
  if 0 < remaining then some remaining.toNat else none

def budgetLeft (remaining : ℤ) (used : ℕ) : ℤ :=
  if 0 < remaining then remaining - used else remaining

/-- One claim after the other, until the budget is used up. -/
def claimGroups (claimGroup : G → Option ℕ → σ → ClaimOutcome κ β σ) :
    List G → ℤ → σ → ClaimOutcome κ β σ
  | [], _, s => ⟨[], [], s⟩
  | g :: groups, remaining, s =>
    if remaining = 0 then ⟨[], [], s⟩
    else
      let one := claimGroup g (budgetLimit remaining) s
      let rest := claimGroups claimGroup groups (budgetLeft remaining one.locked.length) one.state
      ⟨one.locked ++ rest.locked, one.chunks ++ rest.chunks, rest.state⟩

section Groups

variable {claimGroup : G → Option ℕ → σ → ClaimOutcome κ β σ} {Held Closed : ρ → ρ → Prop}
  {key : β → κ} {item : β → ν} {look : σ → κ → Option ρ × ν} {groupOf : σ → κ → Option G}

/-- What the loop asks of the claim of one group. -/
structure ClaimsGroup (claimGroup : G → Option ℕ → σ → ClaimOutcome κ β σ)
    (Held Closed : ρ → ρ → Prop) (key : β → κ) (item : β → ν) (look : σ → κ → Option ρ × ν)
    (groupOf : σ → κ → Option G) : Prop where
  handsOut : ∀ g limit s, HandsOut Held Closed key item (look s)
    (look (claimGroup g limit s).state) (claimGroup g limit s).locked
    (claimGroup g limit s).chunks.flatten
  within : ∀ g limit s, ∀ n ∈ limit, (claimGroup g limit s).locked.length ≤ n
  inGroup : ∀ g limit s, ∀ k ∈ (claimGroup g limit s).locked, groupOf s k = some g
  keeps : ∀ g limit s, groupOf (claimGroup g limit s).state = groupOf s

theorem claimGroups_invariant {f : σ → τ} (h : ∀ g limit s, f (claimGroup g limit s).state = f s)
    (groups : List G) (remaining : ℤ) (s : σ) :
    f (claimGroups claimGroup groups remaining s).state = f s := by
  induction groups generalizing remaining s with
  | nil => rfl
  | cons g groups ih =>
    unfold claimGroups
    split_ifs <;> simp [ih, h]

theorem claimGroups_chunks {P : List β → Prop}
    (h : ∀ g limit s, ∀ c ∈ (claimGroup g limit s).chunks, P c)
    (groups : List G) (remaining : ℤ) (s : σ) :
    ∀ c ∈ (claimGroups claimGroup groups remaining s).chunks, P c := by
  induction groups generalizing remaining s with
  | nil => simp [claimGroups]
  | cons g groups ih =>
    intro c hc
    unfold claimGroups at hc
    split_ifs at hc with hzero
    · simp at hc
    · rcases List.mem_append.mp hc with hc | hc
      · exact h g _ s c hc
      · exact ih _ _ c hc

namespace ClaimsGroup

theorem locked_group (h : ClaimsGroup claimGroup Held Closed key item look groupOf)
    (groups : List G) (remaining : ℤ) (s : σ) :
    ∀ k ∈ (claimGroups claimGroup groups remaining s).locked,
      ∃ g ∈ groups, groupOf s k = some g := by
  induction groups generalizing remaining s with
  | nil => simp [claimGroups]
  | cons g groups ih =>
    intro k hk
    unfold claimGroups at hk
    split_ifs at hk with hzero
    · simp at hk
    · rcases List.mem_append.mp hk with hk | hk
      · exact ⟨g, by simp, h.inGroup g _ s k hk⟩
      · obtain ⟨g', hg', hgroup⟩ := ih _ _ k hk
        rw [h.keeps] at hgroup
        exact ⟨g', List.mem_cons_of_mem g hg', hgroup⟩

/-- The claims of different groups hand out what they lock. -/
theorem groups_handsOut (h : ClaimsGroup claimGroup Held Closed key item look groupOf)
    {groups : List G} (hnodup : groups.Nodup) (remaining : ℤ) (s : σ) :
    HandsOut Held Closed key item (look s)
      (look (claimGroups claimGroup groups remaining s).state)
      (claimGroups claimGroup groups remaining s).locked
      (claimGroups claimGroup groups remaining s).chunks.flatten := by
  induction groups generalizing remaining s with
  | nil => exact HandsOut.refl
  | cons g groups ih =>
    obtain ⟨hg, hnodup⟩ := List.nodup_cons.mp hnodup
    unfold claimGroups
    split_ifs with hzero
    · exact HandsOut.refl
    · dsimp only
      rw [List.flatten_append]
      apply (h.handsOut g _ s).append (ih hnodup _ _)
      intro k hk hk'
      obtain ⟨g', hg', hgroup⟩ := h.locked_group groups _ _ k hk'
      rw [h.keeps, h.inGroup g _ s k hk] at hgroup
      exact hg (Option.some.inj hgroup ▸ hg')

/-- A budget is not exceeded. -/
theorem groups_within (h : ClaimsGroup claimGroup Held Closed key item look groupOf)
    (groups : List G) {remaining : ℤ} (s : σ) (hremaining : 0 ≤ remaining) :
    ((claimGroups claimGroup groups remaining s).locked.length : ℤ) ≤ remaining := by
  induction groups generalizing remaining s with
  | nil => simpa [claimGroups] using hremaining
  | cons g groups ih =>
    unfold claimGroups
    split_ifs with hzero
    · simp [hzero]
    · have hpos : 0 < remaining := by omega
      have hlimit : budgetLimit remaining = some remaining.toNat := if_pos hpos
      have hleft : ∀ n, budgetLeft remaining n = remaining - n := fun n => if_pos hpos
      dsimp only
      rw [hlimit, hleft, List.length_append]
      generalize hone : claimGroup g (some remaining.toNat) s = one
      have hlength : one.locked.length ≤ remaining.toNat := by
        rw [← hone]
        exact h.within g (some remaining.toNat) s remaining.toNat rfl
      have hbudget : 0 ≤ remaining - one.locked.length := by omega
      have hrest := ih one.state hbudget
      push_cast
      omega

/-- A call for several groups; `cap` is the caller's bound on the locked entries. -/
theorem claims (h : ClaimsGroup claimGroup Held Closed key item look groupOf) {groups : List G}
    (hnodup : groups.Nodup) (cap : Option ℤ) (s : σ) :
    Claims Held Closed key item look cap s (claimGroups claimGroup groups (cap.getD (-1)) s) where
  handsOut := h.groups_handsOut hnodup _ s
  within := by
    rintro n rfl hn
    exact h.groups_within groups s hn

end ClaimsGroup

end Groups

end Hippo
