import Mathlib.Algebra.BigOperators.Group.List.Basic
import Mathlib.Algebra.Order.BigOperators.Group.List
import Mathlib.Algebra.Order.Field.Basic
import Mathlib.Algebra.Order.Field.Rat
import Mathlib.Data.List.Sort
import Mathlib.Logic.Function.Basic
import Mathlib.Tactic.Linarith
import Mathlib.Tactic.Ring

/-!
# Apportionment by floors, a remainder and donors

A budget is split over named fields in proportion to their lengths: each share is rounded down,
what remains goes to the longest fields one by one, and a field that got nothing takes one from a
field with more than one.
-/
namespace Hippo.Apportionment

variable {α : Type*} [DecidableEq α]

section Loops

/-- The shares in proportion to the lengths, rounded down. -/
def floorShares (budget : ℕ) (length : α → ℕ) (names : List α) : α → ℕ :=
  fun name => budget * length name / (names.map length).sum

/-- The longest first, and of equally long ones the first first. -/
def ranked (length : α → ℕ) (names : List α) : List α :=
  names.insertionSort fun a b => length b ≤ length a

/-- One more for each ranked field that is not empty, as long as something remains. -/
def handOut (length : α → ℕ) : List α → ℕ → (α → ℕ) → α → ℕ
  | [], _, caps => caps
  | name :: rest, remainder, caps =>
    if remainder = 0 then caps
    else if length name ≠ 0 then
      handOut length rest (remainder - 1) (Function.update caps name (caps name + 1))
    else handOut length rest remainder caps

/-- The move of one from the donor to a field. -/
def donation (caps : α → ℕ) (donor name : α) : α → ℕ :=
  Function.update (Function.update caps donor (caps donor - 1)) name 1

/-- One for each of the fields that have nothing, while there is a donor. -/
def donate (donors : List α) : List α → (α → ℕ) → α → ℕ
  | [], caps => caps
  | name :: rest, caps =>
    if 0 < caps name then donate donors rest caps
    else
      match donors.find? fun c => 1 < caps c with
      | none => caps
      | some donor => donate donors rest (donation caps donor name)

def nonEmpty (length : α → ℕ) (names : List α) : List α := names.filter (length · ≠ 0)

/-- The shares before a donation. -/
def handedOut (budget : ℕ) (length : α → ℕ) (names : List α) : α → ℕ :=
  let caps := floorShares budget length names
  handOut length (ranked length names) (budget - (names.map caps).sum) caps

def apportion (budget : ℕ) (length : α → ℕ) (names : List α) : α → ℕ :=
  let caps := handedOut budget length names
  if (nonEmpty length names).length ≤ budget then
    donate (ranked length names) (nonEmpty length names) caps
  else caps

end Loops

section Sums

theorem sum_update {names : List α} (hnodup : names.Nodup) {name : α} (hmem : name ∈ names)
    (caps : α → ℕ) (cap : ℕ) :
    (names.map (Function.update caps name cap)).sum + caps name = (names.map caps).sum + cap := by
  induction names with
  | nil => simp at hmem
  | cons a rest ih =>
    obtain ⟨ha, hrest⟩ := List.nodup_cons.mp hnodup
    rcases List.mem_cons.mp hmem with rfl | hname
    · have hsame : rest.map (Function.update caps name cap) = rest.map caps :=
        List.map_congr_left fun b hb =>
          Function.update_of_ne (ne_of_mem_of_not_mem hb ha) cap caps
      simp only [List.map_cons, List.sum_cons, Function.update_self, hsame]
      omega
    · have hne : a ≠ name := fun h => ha (h ▸ hname)
      have := ih hrest hname
      simp only [List.map_cons, List.sum_cons, Function.update_of_ne hne]
      omega

omit [DecidableEq α] in
@[simp] theorem mem_nonEmpty {length : α → ℕ} {names : List α} {name : α} :
    name ∈ nonEmpty length names ↔ name ∈ names ∧ length name ≠ 0 := by
  simp [nonEmpty]

omit [DecidableEq α] in
@[simp] theorem length_nonEmpty_cons (length : α → ℕ) (name : α) (rest : List α) :
    (nonEmpty length (name :: rest)).length =
      (if length name = 0 then 0 else 1) + (nonEmpty length rest).length := by
  by_cases hname : length name = 0
  · simp [nonEmpty, hname]
  · simp [nonEmpty, hname, Nat.add_comm]

omit [DecidableEq α] in
theorem mul_sum_eq (budget : ℕ) (length : α → ℕ) (names : List α) (total : ℕ) :
    total * (names.map fun name => budget * length name / total).sum +
      (names.map fun name => budget * length name % total).sum =
        budget * (names.map length).sum := by
  induction names with
  | nil => simp
  | cons name rest ih =>
    have hdiv := Nat.div_add_mod (budget * length name) total
    simp only [List.map_cons, List.sum_cons, Nat.mul_add]
    omega

omit [DecidableEq α] in
theorem sum_mod_le (budget : ℕ) (length : α → ℕ) (names : List α) {total : ℕ} (h : 0 < total) :
    (names.map fun name => budget * length name % total).sum ≤
      (nonEmpty length names).length * total := by
  induction names with
  | nil => simp
  | cons name rest ih =>
    have hmod := Nat.mod_lt (budget * length name) h
    by_cases hname : length name = 0
    · simpa [hname] using ih
    · rw [length_nonEmpty_cons, if_neg hname, Nat.add_mul]
      simp only [List.map_cons, List.sum_cons]
      omega

variable {budget : ℕ} {length : α → ℕ} {names : List α}

omit [DecidableEq α] in
/-- The floors are within the budget, and what remains is enough for one a field at most. -/
theorem sum_floorShares (htotal : (names.map length).sum ≠ 0) :
    (names.map (floorShares budget length names)).sum ≤ budget ∧
      budget - (names.map (floorShares budget length names)).sum ≤
        (nonEmpty length names).length := by
  have hpos : 0 < (names.map length).sum := Nat.pos_of_ne_zero htotal
  have hsum := mul_sum_eq budget length names (names.map length).sum
  have hmod := sum_mod_le budget length names hpos
  have hfloors : (names.map fun name => budget * length name / (names.map length).sum) =
      names.map (floorShares budget length names) := rfl
  rw [hfloors] at hsum
  constructor
  · refine Nat.le_of_mul_le_mul_left ?_ hpos
    rw [Nat.mul_comm _ budget]
    omega
  · refine Nat.le_of_mul_le_mul_left ?_ hpos
    rw [Nat.mul_sub, Nat.mul_comm _ budget, Nat.mul_comm _ (nonEmpty length names).length]
    omega

end Sums

section HandOut

variable {length : α → ℕ} {names fields : List α} {remainder : ℕ} {caps : α → ℕ} {name : α}

theorem handOut_of_not_mem (h : name ∉ fields) :
    handOut length fields remainder caps name = caps name := by
  induction fields generalizing remainder caps with
  | nil => simp [handOut]
  | cons a rest ih =>
    have hne : name ≠ a := fun heq => h (heq ▸ List.mem_cons_self)
    have hrest : name ∉ rest := fun hmem => h (List.mem_cons_of_mem _ hmem)
    simp only [handOut]
    split_ifs with hdone hempty
    · rfl
    · rw [ih hrest, Function.update_of_ne hne]
    · exact ih hrest

theorem handOut_of_empty (h : length name = 0) :
    handOut length fields remainder caps name = caps name := by
  induction fields generalizing remainder caps with
  | nil => simp [handOut]
  | cons a rest ih =>
    simp only [handOut]
    split_ifs with hdone hempty
    · rfl
    · have hne : name ≠ a := fun heq => hempty (heq ▸ h)
      rw [ih, Function.update_of_ne hne]
    · exact ih

/-- Each share grows by at most one. -/
theorem handOut_between (hnodup : fields.Nodup) :
    caps name ≤ handOut length fields remainder caps name ∧
      handOut length fields remainder caps name ≤ caps name + 1 := by
  induction fields generalizing remainder caps with
  | nil => simp [handOut]
  | cons a rest ih =>
    obtain ⟨ha, hrest⟩ := List.nodup_cons.mp hnodup
    simp only [handOut]
    split_ifs with hdone hempty
    · omega
    · by_cases hname : name = a
      · rw [hname, handOut_of_not_mem ha, Function.update_self]
        omega
      · have h := @ih (remainder - 1) (Function.update caps a (caps a + 1)) hrest
        rwa [Function.update_of_ne hname] at h
    · exact ih hrest

theorem sum_handOut (hnames : names.Nodup) (hfields : ∀ a ∈ fields, a ∈ names)
    (h : remainder ≤ (nonEmpty length fields).length) :
    (names.map (handOut length fields remainder caps)).sum =
      (names.map caps).sum + remainder := by
  induction fields generalizing remainder caps with
  | nil =>
    have : remainder = 0 := by simpa [nonEmpty] using h
    simp [handOut, this]
  | cons a rest ih =>
    have ha := hfields a List.mem_cons_self
    have hrest : ∀ b ∈ rest, b ∈ names := fun b hb => hfields b (List.mem_cons_of_mem _ hb)
    rw [length_nonEmpty_cons] at h
    unfold handOut
    split_ifs with hdone hempty
    · omega
    · rw [if_neg hempty] at h
      have hsum := sum_update hnames ha caps (caps a + 1)
      rw [ih hrest (by omega)]
      omega
    · rw [if_pos (not_not.mp hempty)] at h
      exact ih hrest (by omega)

end HandOut

section Donate

variable {donors names targets : List α} {caps : α → ℕ} {name donor : α}

theorem donation_apply (field : α) :
    donation caps donor name field =
      if field = name then 1 else if field = donor then caps donor - 1 else caps field := by
  simp only [donation, Function.update_apply]

/-- What a donation takes from the donor is what the field gets. -/
theorem sum_donation (hnames : names.Nodup) (hname : name ∈ names) (hdonor : donor ∈ names)
    (hzero : caps name = 0) (hmany : 1 < caps donor) :
    (names.map (donation caps donor name)).sum = (names.map caps).sum := by
  have hne : name ≠ donor := by
    intro heq
    rw [heq] at hzero
    omega
  have htaken := sum_update hnames hdonor caps (caps donor - 1)
  have hgiven := sum_update hnames hname (Function.update caps donor (caps donor - 1)) 1
  rw [Function.update_of_ne hne, hzero] at hgiven
  simp only [donation]
  omega

/-- What a donor loop keeps, field by field. -/
theorem donate_induction {motive : (α → ℕ) → Prop} (hstart : motive caps)
    (hstep : ∀ caps donor name, motive caps → donor ∈ donors → name ∈ targets → caps name = 0 →
      1 < caps donor → motive (donation caps donor name)) :
    motive (donate donors targets caps) := by
  induction targets generalizing caps with
  | nil => exact hstart
  | cons name rest ih =>
    have hrest : ∀ caps donor a, motive caps → donor ∈ donors → a ∈ rest → caps a = 0 →
        1 < caps donor → motive (donation caps donor a) :=
      fun caps donor a hcaps hdonor ha =>
        hstep caps donor a hcaps hdonor (List.mem_cons_of_mem _ ha)
    unfold donate
    split_ifs with hpos
    · exact ih hstart hrest
    · split
      · exact hstart
      · rename_i donor hfind
        have hmany : 1 < caps donor := by simpa using List.find?_some hfind
        exact ih (hstep caps donor name hstart (List.mem_of_find?_eq_some hfind)
          List.mem_cons_self (by omega) hmany) hrest

theorem sum_donate (hnames : names.Nodup) (hdonors : ∀ a ∈ donors, a ∈ names)
    (htargets : ∀ a ∈ targets, a ∈ names) :
    (names.map (donate donors targets caps)).sum = (names.map caps).sum := by
  refine donate_induction (motive := fun c => (names.map c).sum = (names.map caps).sum) rfl ?_
  intro c donor name hc hdonor hname hzero hmany
  rw [sum_donation hnames (htargets name hname) (hdonors donor hdonor) hzero hmany, hc]

theorem donate_pos_of_pos (h : 0 < caps name) : 0 < donate donors targets caps name := by
  refine donate_induction (motive := fun c => 0 < c name) h ?_
  intro c donor a hc _ _ _ hmany
  rw [donation_apply]
  split_ifs <;> omega

variable {length : α → ℕ}

theorem donation_of_empty (hsupport : ∀ a, length a = 0 → caps a = 0) (hname : length name ≠ 0)
    (hmany : 1 < caps donor) (a : α) (ha : length a = 0) : donation caps donor name a = 0 := by
  have hzero := hsupport a ha
  rw [donation_apply]
  split_ifs with heq hdonor
  · exact absurd ha (heq ▸ hname)
  · rw [hdonor] at hzero
    omega
  · exact hzero

theorem donate_of_empty (hsupport : ∀ a, length a = 0 → caps a = 0)
    (htargets : ∀ a ∈ targets, length a ≠ 0) (a : α) (ha : length a = 0) :
    donate donors targets caps a = 0 := by
  refine donate_induction (motive := fun c => ∀ a, length a = 0 → c a = 0) hsupport ?_ a ha
  intro c donor name hc _ hname _ hmany
  exact donation_of_empty hc (htargets name hname) hmany

theorem donate_le_length (hle : ∀ a, caps a ≤ length a) (htargets : ∀ a ∈ targets, length a ≠ 0)
    (a : α) : donate donors targets caps a ≤ length a := by
  refine donate_induction (motive := fun c => ∀ a, c a ≤ length a) hle ?_ a
  intro c donor name hc _ hname _ _ field
  have hpos := htargets name hname
  have hdonor := hc donor
  rw [donation_apply]
  split_ifs with heq heq'
  · rw [heq]
    omega
  · rw [heq']
    omega
  · exact hc field

theorem donate_of_pos (h : ∀ a ∈ targets, 0 < caps a) : donate donors targets caps = caps := by
  induction targets with
  | nil => rfl
  | cons name rest ih =>
    rw [donate, if_pos (h name List.mem_cons_self)]
    exact ih fun a ha => h a (List.mem_cons_of_mem _ ha)

omit [DecidableEq α] in
theorem length_nonEmpty (length : α → ℕ) (names : List α) :
    (nonEmpty length names).length =
      (names.map fun name => if length name = 0 then 0 else 1).sum := by
  induction names with
  | nil => rfl
  | cons name rest ih => rw [length_nonEmpty_cons, ih, List.map_cons, List.sum_cons]

omit [DecidableEq α] in
/-- Of as many shares as fields that are not empty, one is more than one if another is zero. -/
theorem exists_donor (hsupport : ∀ a, length a = 0 → caps a = 0)
    (hcount : (nonEmpty length names).length ≤ (names.map caps).sum)
    (hname : name ∈ nonEmpty length names) (hzero : caps name = 0) :
    ∃ donor ∈ names, 1 < caps donor := by
  by_contra! hfew
  obtain ⟨hmem, hlength⟩ := mem_nonEmpty.mp hname
  have hlt : (names.map caps).sum <
      (names.map fun name => if length name = 0 then 0 else 1).sum := by
    refine List.sum_lt_sum _ _ (fun a ha => ?_) ⟨name, hmem, ?_⟩
    · split_ifs with hempty
      · exact (hsupport a hempty).le
      · exact hfew a ha
    · rw [if_neg hlength, hzero]
      exact Nat.one_pos
  rw [← length_nonEmpty] at hlt
  omega

theorem donate_pos (hnames : names.Nodup) (hdonors : ∀ a, a ∈ donors ↔ a ∈ names)
    (htargets : ∀ a ∈ targets, a ∈ nonEmpty length names)
    (hsupport : ∀ a, length a = 0 → caps a = 0)
    (hcount : (nonEmpty length names).length ≤ (names.map caps).sum) (hname : name ∈ targets) :
    0 < donate donors targets caps name := by
  induction targets generalizing caps with
  | nil => simp at hname
  | cons a rest ih =>
    obtain ⟨hmem, hlength⟩ := mem_nonEmpty.mp (htargets a List.mem_cons_self)
    have hrest : ∀ b ∈ rest, b ∈ nonEmpty length names :=
      fun b hb => htargets b (List.mem_cons_of_mem _ hb)
    unfold donate
    split_ifs with hpos
    · rcases List.mem_cons.mp hname with rfl | hname
      · exact donate_pos_of_pos hpos
      · exact ih hrest hsupport hcount hname
    · obtain ⟨c, hc, hmany⟩ :=
        exists_donor hsupport hcount (htargets a List.mem_cons_self) (by omega)
      have hfound : (donors.find? fun c => 1 < caps c).isSome = true :=
        List.find?_isSome.mpr ⟨c, (hdonors c).mpr hc, by simpa using hmany⟩
      obtain ⟨donor, hfind⟩ := Option.isSome_iff_exists.mp hfound
      have hmore : 1 < caps donor := by simpa using List.find?_some hfind
      have hdonor := (hdonors donor).mp (List.mem_of_find?_eq_some hfind)
      rw [hfind]
      rcases List.mem_cons.mp hname with rfl | hname
      · refine donate_pos_of_pos ?_
        rw [donation_apply, if_pos rfl]
        exact Nat.one_pos
      · refine ih hrest (donation_of_empty hsupport hlength hmore) ?_ hname
        rwa [sum_donation hnames hmem hdonor (by omega) hmore]

end Donate

section Apportion

variable {budget : ℕ} {length : α → ℕ} {names : List α}

omit [DecidableEq α] in
theorem mem_ranked {name : α} : name ∈ ranked length names ↔ name ∈ names :=
  (List.perm_insertionSort _ _).mem_iff

omit [DecidableEq α] in
theorem length_nonEmpty_ranked :
    (nonEmpty length (ranked length names)).length = (nonEmpty length names).length :=
  ((List.perm_insertionSort _ _).filter _).length_eq

omit [DecidableEq α] in
theorem nodup_ranked (h : names.Nodup) : (ranked length names).Nodup :=
  (List.perm_insertionSort _ _).nodup_iff.mpr h

omit [DecidableEq α] in
theorem floorShares_of_empty {name : α} (h : length name = 0) :
    floorShares budget length names name = 0 := by
  simp [floorShares, h]

theorem handedOut_of_empty {name : α} (h : length name = 0) :
    handedOut budget length names name = 0 := by
  rw [handedOut, handOut_of_empty h, floorShares_of_empty h]

theorem handedOut_between (hnodup : names.Nodup) (name : α) :
    floorShares budget length names name ≤ handedOut budget length names name ∧
      handedOut budget length names name ≤ floorShares budget length names name + 1 :=
  handOut_between (nodup_ranked hnodup)

/-- The share of a field without any rounding. -/
def exactShare (budget : ℕ) (length : α → ℕ) (names : List α) (name : α) : ℚ :=
  (budget * length name : ℕ) / ((names.map length).sum : ℕ)

omit [DecidableEq α] in
theorem floorShares_between (htotal : (names.map length).sum ≠ 0) (name : α) :
    (floorShares budget length names name : ℚ) ≤ exactShare budget length names name ∧
      exactShare budget length names name < floorShares budget length names name + 1 := by
  have hpos : (0 : ℚ) < ((names.map length).sum : ℕ) :=
    Nat.cast_pos.mpr (Nat.pos_of_ne_zero htotal)
  rw [exactShare, floorShares, le_div_iff₀ hpos, div_lt_iff₀ hpos]
  constructor
  · exact_mod_cast Nat.div_mul_le_self (budget * length name) (names.map length).sum
  · exact_mod_cast Nat.lt_mul_of_div_lt (Nat.lt_succ_self (budget * length name / _))
      (Nat.pos_of_ne_zero htotal)

/-- Before a donation each share is the exact one, rounded down or up. -/
theorem handedOut_close (hnodup : names.Nodup) (htotal : (names.map length).sum ≠ 0) (name : α) :
    |(handedOut budget length names name : ℚ) - exactShare budget length names name| ≤ 1 := by
  obtain ⟨hfloor, hnext⟩ := @floorShares_between α budget length names htotal name
  obtain ⟨hlow, hhigh⟩ := @handedOut_between α _ budget length names hnodup name
  have hlow' : (floorShares budget length names name : ℚ) ≤ handedOut budget length names name := by
    exact_mod_cast hlow
  have hhigh' : (handedOut budget length names name : ℚ) ≤
      floorShares budget length names name + 1 := by
    exact_mod_cast hhigh
  rw [abs_le]
  constructor
  · linarith
  · linarith

theorem sum_handedOut (hnodup : names.Nodup) (htotal : (names.map length).sum ≠ 0) :
    (names.map (handedOut budget length names)).sum = budget := by
  obtain ⟨hle, hrest⟩ := @sum_floorShares α budget length names htotal
  rw [handedOut, sum_handOut hnodup (fun a ha => mem_ranked.mp ha)]
  · omega
  · rwa [length_nonEmpty_ranked]

/-- The shares sum up to the budget. -/
theorem sum_apportion (hnodup : names.Nodup) (htotal : (names.map length).sum ≠ 0) :
    (names.map (apportion budget length names)).sum = budget := by
  unfold apportion
  split_ifs with henough
  · rw [sum_donate hnodup (fun a ha => mem_ranked.mp ha) (fun a ha => (mem_nonEmpty.mp ha).1)]
    exact sum_handedOut hnodup htotal
  · exact sum_handedOut hnodup htotal

theorem apportion_of_empty {name : α} (h : length name = 0) :
    apportion budget length names name = 0 := by
  unfold apportion
  split_ifs with henough
  · exact donate_of_empty (fun a ha => handedOut_of_empty ha)
      (fun a ha => (mem_nonEmpty.mp ha).2) name h
  · exact handedOut_of_empty h

/-- A budget of one for each field that is not empty gives each of them something. -/
theorem apportion_pos (hnodup : names.Nodup) (henough : (nonEmpty length names).length ≤ budget)
    {name : α} (hname : name ∈ nonEmpty length names) : 0 < apportion budget length names name := by
  have htotal : (names.map length).sum ≠ 0 := by
    obtain ⟨hmem, hlength⟩ := mem_nonEmpty.mp hname
    have := List.single_le_sum (fun _ _ => Nat.zero_le _) _ (List.mem_map_of_mem (f := length) hmem)
    omega
  simp only [apportion, if_pos henough]
  refine donate_pos hnodup (fun a => mem_ranked) (fun a ha => ha)
    (fun a ha => handedOut_of_empty ha) ?_ hname
  rwa [sum_handedOut hnodup htotal]

omit [DecidableEq α] in
theorem floorShares_lt {name : α} (h : budget < (names.map length).sum) (hname : length name ≠ 0) :
    floorShares budget length names name < length name := by
  refine Nat.div_lt_of_lt_mul ?_
  exact Nat.mul_lt_mul_of_pos_right h (Nat.pos_of_ne_zero hname)

omit [DecidableEq α] in
theorem le_floorShares {name : α} (h : (names.map length).sum ≤ budget) (hname : name ∈ names) :
    length name ≤ floorShares budget length names name := by
  rcases Nat.eq_zero_or_pos (names.map length).sum with hzero | hpos
  · have := List.sum_eq_zero_iff.mp hzero (length name) (List.mem_map_of_mem hname)
    omega
  · rw [floorShares, Nat.le_div_iff_mul_le hpos, Nat.mul_comm]
    exact Nat.mul_le_mul_right _ h

/-- Within the total of the lengths no share is longer than its field. -/
theorem apportion_le_length (hnodup : names.Nodup) (h : budget < (names.map length).sum)
    (name : α) : apportion budget length names name ≤ length name := by
  have hle : ∀ a, handedOut budget length names a ≤ length a := by
    intro a
    by_cases ha : length a = 0
    · rw [handedOut_of_empty ha]
      omega
    · have := floorShares_lt h ha
      have := (@handedOut_between α _ budget length names hnodup a).2
      omega
  unfold apportion
  split_ifs with henough
  · exact donate_le_length hle (fun a ha => (mem_nonEmpty.mp ha).2) name
  · exact hle name

/-- From the total of the lengths on every share covers its field. -/
theorem length_le_apportion (hnodup : names.Nodup) (h : (names.map length).sum ≤ budget)
    {name : α} (hname : name ∈ names) : length name ≤ apportion budget length names name := by
  have hle : ∀ a ∈ names, length a ≤ handedOut budget length names a := fun a ha =>
    (le_floorShares h ha).trans (handedOut_between hnodup a).1
  unfold apportion
  split_ifs with henough
  · rw [donate_of_pos]
    · exact hle name hname
    · intro a ha
      obtain ⟨hmem, hlength⟩ := mem_nonEmpty.mp ha
      have := hle a hmem
      omega
  · exact hle name hname

/-- What the fields use of their shares. -/
theorem sum_min_apportion (hnodup : names.Nodup) :
    (names.map fun name => min (length name) (apportion budget length names name)).sum =
      min (names.map length).sum budget := by
  rcases Nat.lt_or_ge budget (names.map length).sum with hlt | hge
  · have hcaps : (names.map fun name => min (length name) (apportion budget length names name)) =
        names.map (apportion budget length names) :=
      List.map_congr_left fun a _ => Nat.min_eq_right (apportion_le_length hnodup hlt a)
    rw [hcaps, sum_apportion hnodup (by omega), Nat.min_eq_right hlt.le]
  · have hcaps : (names.map fun name => min (length name) (apportion budget length names name)) =
        names.map length :=
      List.map_congr_left fun a ha => Nat.min_eq_left (length_le_apportion hnodup hge ha)
    rw [hcaps, Nat.min_eq_left hge]

end Apportion

end Hippo.Apportionment
