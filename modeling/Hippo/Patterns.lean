import Hippo.Backtracking
import Mathlib.Data.List.Infix

/-!
# Regular expressions read by backtracking

The run of a pattern gives what is left of a text after each way to match its front, in the order
in which a backtracking engine tries them. Which fronts are accepted is described apart from that
order; it depends on what follows only through the end of the text.
-/
namespace Hippo.Backtracking

variable {α β : Type}

inductive Pattern (α : Type) where
  | empty
  | one (p : α → Bool)
  /-- `$` -/
  | atEnd
  | seq (a b : Pattern α)
  | alt (a b : Pattern α)
  /-- `a*` -/
  | star (a : Pattern α)
  /-- `a*?` -/
  | lazyStar (a : Pattern α)

namespace Pattern

/-- Any number of steps, each of which takes something: as many as possible first, or as few. -/
def repeats (step : List α → List (List α)) (longest : Bool) : ℕ → List α → List (List α)
  | 0, text => [text]
  | n + 1, text =>
    let more := ((step text).filter fun left => left.length < text.length).flatMap
      (repeats step longest n)
    if longest then more ++ [text] else text :: more

/-- What is left of a text after each match of its front, the preferred match first. -/
def run : Pattern α → List α → List (List α)
  | empty, text => [text]
  | one _, [] => []
  | one p, a :: rest => if p a then [rest] else []
  | atEnd, text => if text.isEmpty then [text] else []
  | seq a b, text => (a.run text).flatMap b.run
  | alt a b, text => a.run text ++ b.run text
  | star a, text => repeats a.run true text.length text
  | lazyStar a, text => repeats a.run false text.length text

def opt (a : Pattern α) : Pattern α := alt a empty

def cat : List (Pattern α) → Pattern α
  | [] => empty
  | a :: rest => seq a (cat rest)

def oneOf : List (Pattern α) → Pattern α
  | [] => one fun _ => false
  | a :: rest => alt a (oneOf rest)

def exactly (n : ℕ) (a : Pattern α) : Pattern α := cat (List.replicate n a)

/-- `a{n,}` -/
def atLeast (n : ℕ) (a : Pattern α) : Pattern α := seq (exactly n a) (star a)

/-- `a+` -/
def plus (a : Pattern α) : Pattern α := atLeast 1 a

/-- `a{0,n}` -/
def upTo : ℕ → Pattern α → Pattern α
  | 0, _ => empty
  | n + 1, a => opt (seq a (upTo n a))

def word [DecidableEq α] (w : List α) : Pattern α := cat (w.map fun a => one fun b => b = a)

section Accepts

/-- Words one after the other, none of them empty. -/
inductive Repeated (accepts : List α → List α → Prop) : List α → List α → Prop
  | nil (rest : List α) : Repeated accepts [] rest
  | cons {first others rest : List α} (hne : first ≠ [])
    (hfirst : accepts first (others ++ rest)) (hothers : Repeated accepts others rest) :
    Repeated accepts (first ++ others) rest

/-- The pattern accepts a word where some text follows. -/
def Accepts : Pattern α → List α → List α → Prop
  | empty, w, _ => w = []
  | one p, w, _ => ∃ a, w = [a] ∧ p a = true
  | atEnd, w, rest => w = [] ∧ rest = []
  | seq a b, w, rest => ∃ u v, w = u ++ v ∧ a.Accepts u (v ++ rest) ∧ b.Accepts v rest
  | alt a b, w, rest => a.Accepts w rest ∨ b.Accepts w rest
  | star a, w, rest => Repeated a.Accepts w rest
  | lazyStar a, w, rest => Repeated a.Accepts w rest

/-- The first word apart from the others. -/
theorem repeated_iff {accepts : List α → List α → Prop} {text left : List α} :
    (∃ w, text = w ++ left ∧ Repeated accepts w left) ↔
      left = text ∨ ∃ first mid, first ≠ [] ∧ text = first ++ mid ∧ accepts first mid ∧
        ∃ w, mid = w ++ left ∧ Repeated accepts w left := by
  constructor
  · intro ⟨w, htext, hw⟩
    cases hw with
    | nil => exact Or.inl htext.symm
    | @cons first others _ hne hfirst hothers =>
      exact Or.inr ⟨first, others ++ left, hne, by simpa using htext, hfirst, others, rfl, hothers⟩
  · intro h
    rcases h with rfl | ⟨first, mid, hne, htext, hfirst, others, rfl, hothers⟩
    · exact ⟨[], rfl, .nil _⟩
    · exact ⟨first ++ others, by simpa using htext, .cons hne hfirst hothers⟩

theorem mem_repeats {step : List α → List (List α)} {accepts : List α → List α → Prop}
    (hstep : ∀ text left, left ∈ step text ↔ ∃ w, text = w ++ left ∧ accepts w left)
    (longest : Bool) (n : ℕ) {text left : List α} (hn : text.length ≤ n) :
    left ∈ repeats step longest n text ↔ ∃ w, text = w ++ left ∧ Repeated accepts w left := by
  rw [repeated_iff]
  induction n generalizing text with
  | zero =>
    have hnil : text = [] := List.length_eq_zero_iff.mp (by omega)
    constructor
    · intro h
      exact Or.inl (List.mem_singleton.mp h)
    · intro h
      rcases h with rfl | ⟨first, mid, hne, htext, -⟩
      · exact List.mem_singleton.mpr rfl
      · rw [hnil] at htext
        exact absurd (List.append_eq_nil_iff.mp htext.symm).1 hne
  | succ n ih =>
    have hmore : left ∈ ((step text).filter fun mid => mid.length < text.length).flatMap
        (repeats step longest n) ↔ ∃ first mid, first ≠ [] ∧ text = first ++ mid ∧
          accepts first mid ∧ ∃ w, mid = w ++ left ∧ Repeated accepts w left := by
      simp only [List.mem_flatMap, List.mem_filter, decide_eq_true_eq, hstep]
      constructor
      · intro ⟨mid, ⟨⟨first, htext, hfirst⟩, hlt⟩, hleft⟩
        rw [ih (by omega), ← repeated_iff] at hleft
        have hne : first ≠ [] := by
          rintro rfl
          simp [htext] at hlt
        exact ⟨first, mid, hne, htext, hfirst, hleft⟩
      · intro ⟨first, mid, hne, htext, hfirst, hothers⟩
        have hpos := List.length_pos_iff.mpr hne
        have hlength := congrArg List.length htext
        rw [List.length_append] at hlength
        refine ⟨mid, ⟨⟨first, htext, hfirst⟩, by omega⟩, ?_⟩
        rw [ih (by omega), ← repeated_iff]
        exact hothers
    rw [repeats]
    cases longest with
    | true => simp only [if_true, List.mem_append, List.mem_singleton, hmore, or_comm]
    | false => simp only [Bool.false_eq_true, if_false, List.mem_cons, hmore]

/-- The engine finds the accepted words. -/
theorem mem_run (r : Pattern α) {text left : List α} :
    left ∈ r.run text ↔ ∃ w, text = w ++ left ∧ r.Accepts w left := by
  induction r generalizing text left with
  | empty => simp [run, Accepts, eq_comm]
  | one p =>
    cases text with
    | nil => simp [run, Accepts]
    | cons a rest =>
      simp only [run, Accepts]
      constructor
      · intro h
        by_cases hp : p a = true
        · rw [if_pos hp] at h
          exact ⟨[a], by simp [List.mem_singleton.mp h], a, rfl, hp⟩
        · rw [if_neg hp] at h
          cases h
      · intro ⟨w, htext, b, hw, hb⟩
        rw [hw] at htext
        obtain ⟨rfl, rfl⟩ := List.cons.inj htext
        simp [hb]
  | atEnd =>
    cases text with
    | nil => simp [run, Accepts, eq_comm]
    | cons a rest =>
      constructor
      · intro h
        simp [run] at h
      · intro ⟨w, htext, hw, hleft⟩
        rw [hw, hleft] at htext
        cases htext
  | seq a b iha ihb =>
    rw [run, List.mem_flatMap]
    constructor
    · intro ⟨mid, hmid, hleft⟩
      obtain ⟨u, htext, hu⟩ := iha.mp hmid
      obtain ⟨v, rfl, hv⟩ := ihb.mp hleft
      exact ⟨u ++ v, by simpa using htext, u, v, rfl, hu, hv⟩
    · intro ⟨w, htext, u, v, hw, hu, hv⟩
      rw [hw] at htext
      exact ⟨v ++ left, iha.mpr ⟨u, by simpa using htext, hu⟩, ihb.mpr ⟨v, rfl, hv⟩⟩
  | alt a b iha ihb =>
    simp only [run, Accepts, List.mem_append, iha, ihb]
    constructor
    · intro h
      rcases h with ⟨w, htext, hw⟩ | ⟨w, htext, hw⟩
      · exact ⟨w, htext, Or.inl hw⟩
      · exact ⟨w, htext, Or.inr hw⟩
    · intro ⟨w, htext, hw⟩
      exact hw.imp (fun hw => ⟨w, htext, hw⟩) fun hw => ⟨w, htext, hw⟩
  | star a ih => exact mem_repeats (fun _ _ => ih) true _ le_rfl
  | lazyStar a ih => exact mem_repeats (fun _ _ => ih) false _ le_rfl

theorem run_eq_nil (r : Pattern α) {text : List α} :
    r.run text = [] ↔ ∀ w left, text = w ++ left → ¬ r.Accepts w left := by
  rw [List.eq_nil_iff_forall_not_mem]
  constructor
  · intro h w left htext hw
    exact h left ((mem_run r).mpr ⟨w, htext, hw⟩)
  · intro h left hleft
    obtain ⟨w, htext, hw⟩ := (mem_run r).mp hleft
    exact h w left htext hw

theorem Repeated.mono {accepts : List α → List α → Prop} {w rest rest' : List α}
    (hmono : ∀ {u rest rest'}, (rest = [] → rest' = []) → accepts u rest → accepts u rest')
    (hrest : rest = [] → rest' = []) (h : Repeated accepts w rest) :
    Repeated accepts w rest' := by
  induction h with
  | nil => exact .nil _
  | @cons first others rest hne hfirst _ ih =>
    refine .cons hne (hmono (fun hnil => ?_) hfirst) (ih hrest)
    obtain ⟨rfl, hnil⟩ := List.append_eq_nil_iff.mp hnil
    rw [hrest hnil]
    rfl

/-- What follows only matters where it is the end of the text. -/
theorem Accepts.mono {r : Pattern α} {w rest rest' : List α} (hrest : rest = [] → rest' = [])
    (h : r.Accepts w rest) : r.Accepts w rest' := by
  induction r generalizing w rest rest' with
  | empty => exact h
  | one p => exact h
  | atEnd => exact ⟨h.1, hrest h.2⟩
  | seq a b iha ihb =>
    obtain ⟨u, v, hw, hu, hv⟩ := h
    refine ⟨u, v, hw, iha (fun hnil => ?_) hu, ihb hrest hv⟩
    obtain ⟨rfl, hnil⟩ := List.append_eq_nil_iff.mp hnil
    rw [hrest hnil]
    rfl
  | alt a b iha ihb => exact h.imp (iha hrest) (ihb hrest)
  | star a ih => exact Repeated.mono ih hrest h
  | lazyStar a ih => exact Repeated.mono ih hrest h

theorem accepts_cat_append (as bs : List (Pattern α)) {w rest : List α} :
    (cat (as ++ bs)).Accepts w rest ↔
      ∃ u v, w = u ++ v ∧ (cat as).Accepts u (v ++ rest) ∧ (cat bs).Accepts v rest := by
  induction as generalizing w with
  | nil =>
    constructor
    · intro h
      exact ⟨[], w, rfl, rfl, h⟩
    · intro ⟨u, v, hw, hu, hv⟩
      rw [hw, show u = [] from hu]
      exact hv
  | cons a as ih =>
    constructor
    · intro ⟨t, v', hw, ht, hrest⟩
      obtain ⟨u, v, rfl, hu, hv⟩ := ih.mp hrest
      exact ⟨t ++ u, v, by simp [hw], ⟨t, u, rfl, by simpa using ht, hu⟩, hv⟩
    · intro ⟨_, v, hw, ⟨t, u, hu', ht, hu⟩, hv⟩
      rw [hu'] at hw
      exact ⟨t, u ++ v, by simp [hw], by simpa using ht, ih.mpr ⟨u, v, rfl, hu, hv⟩⟩

end Accepts

section Words

/-- Some element of each accepted word. -/
def Has (q : α → Prop) (r : Pattern α) : Prop := ∀ w rest, r.Accepts w rest → ∃ a ∈ w, q a

/-- All elements of the accepted words. -/
def Within (q : α → Prop) (r : Pattern α) : Prop := ∀ w rest, r.Accepts w rest → ∀ a ∈ w, q a

/-- The first element of each accepted word. -/
def Starts (q : α → Prop) (r : Pattern α) : Prop :=
  ∀ w rest, r.Accepts w rest → ∃ a v, w = a :: v ∧ q a

variable {q : α → Prop} {a b : Pattern α} {rs : List (Pattern α)} {p : α → Bool} {w : List α}

theorem Has.ne_nil (h : a.Has q) {w rest : List α} (hw : a.Accepts w rest) : w ≠ [] := by
  obtain ⟨x, hx, -⟩ := h w rest hw
  exact List.ne_nil_of_mem hx

theorem has_one (h : ∀ x, p x = true → q x) : (one p).Has q := by
  intro w rest ⟨x, hw, hx⟩
  exact ⟨x, by simp [hw], h x hx⟩

theorem has_alt (ha : a.Has q) (hb : b.Has q) : (alt a b).Has q := by
  intro w rest hw
  exact hw.elim (ha w rest) (hb w rest)

/-- One part of a sequence is enough. -/
theorem has_cat (hmem : a ∈ rs) (h : a.Has q) : (cat rs).Has q := by
  induction rs with
  | nil => cases hmem
  | cons b rs ih =>
    intro w rest ⟨u, v, hw, hu, hv⟩
    rcases List.mem_cons.mp hmem with rfl | hmem
    · obtain ⟨x, hx, hq⟩ := h u _ hu
      exact ⟨x, by simp [hw, hx], hq⟩
    · obtain ⟨x, hx, hq⟩ := ih hmem v _ hv
      exact ⟨x, by simp [hw, hx], hq⟩

theorem within_one (h : ∀ x, p x = true → q x) : (one p).Within q := by
  intro w rest ⟨x, hw, hx⟩ y hy
  rw [hw, List.mem_singleton] at hy
  exact hy ▸ h x hx

theorem within_alt (ha : a.Within q) (hb : b.Within q) : (alt a b).Within q := by
  intro w rest hw
  exact hw.elim (ha w rest) (hb w rest)

theorem within_cat (h : ∀ a ∈ rs, a.Within q) : (cat rs).Within q := by
  induction rs with
  | nil =>
    intro w rest hw x hx
    rw [show w = [] from hw] at hx
    cases hx
  | cons b rs ih =>
    intro w rest ⟨u, v, hw, hu, hv⟩ x hx
    rw [hw, List.mem_append] at hx
    exact hx.elim (h b List.mem_cons_self u _ hu x)
      (ih (fun a ha => h a (List.mem_cons_of_mem b ha)) v _ hv x)

theorem within_opt (h : a.Within q) : (opt a).Within q :=
  within_alt h fun w rest hw x hx => by
    rw [show w = [] from hw] at hx
    cases hx

theorem within_upTo (n : ℕ) (h : a.Within q) : (upTo n a).Within q := by
  induction n with
  | zero =>
    intro w rest hw x hx
    rw [show w = [] from hw] at hx
    cases hx
  | succ n ih =>
    refine within_opt fun w rest ⟨u, v, hw, hu, hv⟩ x hx => ?_
    rw [hw, List.mem_append] at hx
    exact hx.elim (h u _ hu x) (ih v _ hv x)

theorem within_oneOf (h : ∀ a ∈ rs, a.Within q) : (oneOf rs).Within q := by
  induction rs with
  | nil => exact within_one fun _ hx => by cases hx
  | cons b rs ih =>
    exact within_alt (h b List.mem_cons_self) (ih fun a ha => h a (List.mem_cons_of_mem b ha))

theorem within_star (h : a.Within q) : (star a).Within q := by
  intro w rest hw
  induction hw with
  | nil => simp
  | cons hne hfirst _ ih =>
    intro x hx
    exact (List.mem_append.mp hx).elim (h _ _ hfirst x) (ih x)

theorem within_exactly (n : ℕ) (h : a.Within q) : (exactly n a).Within q := by
  refine within_cat fun b hb => ?_
  rwa [List.eq_of_mem_replicate hb]

theorem within_atLeast (n : ℕ) (h : a.Within q) : (atLeast n a).Within q := by
  intro w rest ⟨u, v, hw, hu, hv⟩ x hx
  rw [hw, List.mem_append] at hx
  exact hx.elim (within_exactly n h u _ hu x) (within_star h v _ hv x)

theorem within_word [DecidableEq α] (h : ∀ x ∈ w, q x) : (word w).Within q := by
  refine within_cat fun b hb => ?_
  obtain ⟨x, hx, rfl⟩ := List.mem_map.mp hb
  exact within_one fun y hy => of_decide_eq_true hy ▸ h x hx

theorem has_word [DecidableEq α] {x : α} (hx : x ∈ w) (h : q x) : (word w).Has q :=
  has_cat (List.mem_map_of_mem hx) (has_one fun _ hy => of_decide_eq_true hy ▸ h)

theorem starts_one (h : ∀ x, p x = true → q x) : (one p).Starts q := by
  intro w rest ⟨x, hw, hx⟩
  exact ⟨x, [], hw, h x hx⟩

theorem starts_alt (ha : a.Starts q) (hb : b.Starts q) : (alt a b).Starts q := by
  intro w rest hw
  exact hw.elim (ha w rest) (hb w rest)

theorem starts_cat (ha : a.Starts q) : (cat (a :: rs)).Starts q := by
  intro w rest ⟨u, v, hw, hu, _⟩
  obtain ⟨x, t, rfl, hq⟩ := ha u _ hu
  exact ⟨x, t ++ v, hw, hq⟩

/-- An optional first part. -/
theorem starts_cat_opt (ha : a.Starts q) (hrest : (cat rs).Starts q) :
    (cat (opt a :: rs)).Starts q := by
  intro w rest ⟨u, v, hw, hu, hv⟩
  rcases hu with hu | hu
  · obtain ⟨x, t, rfl, hq⟩ := ha u _ hu
    exact ⟨x, t ++ v, hw, hq⟩
  · rw [hw, show u = [] from hu, List.nil_append]
    exact hrest v rest hv

theorem starts_word [DecidableEq α] {x : α} (h : q x) : (word (x :: w)).Starts q :=
  starts_cat (starts_one fun _ hy => of_decide_eq_true hy ▸ h)

theorem starts_plus (ha : a.Starts q) : (plus a).Starts q := by
  intro w rest ⟨u, v, hw, hu, _⟩
  obtain ⟨x, t, rfl, hq⟩ := starts_cat ha u _ hu
  exact ⟨x, t ++ v, hw, hq⟩

theorem starts_oneOf (h : ∀ a ∈ rs, a.Starts q) : (oneOf rs).Starts q := by
  induction rs with
  | nil => exact starts_one fun _ hx => by cases hx
  | cons b rs ih =>
    exact starts_alt (h b List.mem_cons_self) (ih fun a ha => h a (List.mem_cons_of_mem b ha))

end Words

section Search

/-- The pattern matches somewhere in the text. -/
def isMatch (r : Pattern α) (text : List α) : Bool := text.tails.any fun t => !(r.run t).isEmpty

theorem isMatch_iff (r : Pattern α) (text : List α) : r.isMatch text = true ↔
    ∃ x w rest, text = x ++ (w ++ rest) ∧ r.Accepts w rest := by
  simp only [isMatch, List.any_eq_true, List.mem_tails, Bool.not_eq_true',
    List.isEmpty_eq_false_iff]
  constructor
  · intro ⟨t, ⟨x, htext⟩, hne⟩
    obtain ⟨left, hleft⟩ := List.exists_mem_of_ne_nil _ hne
    obtain ⟨w, rfl, hw⟩ := (mem_run r).mp hleft
    exact ⟨x, w, left, htext.symm, hw⟩
  · intro ⟨x, w, rest, htext, hw⟩
    exact ⟨w ++ rest, ⟨x, htext.symm⟩, List.ne_nil_of_mem ((mem_run r).mpr ⟨w, rfl, hw⟩)⟩

/-- The match of the engine at the front of a text, and what is left. -/
def first (r : Pattern α) (text : List α) : Option (List α × List α) :=
  (r.run text).head?.map fun left => (text.take (text.length - left.length), left)

theorem first_eq_none (r : Pattern α) {text : List α} : r.first text = none ↔ r.run text = [] := by
  simp [first]

theorem first_eq_some {r : Pattern α} {text found left : List α}
    (h : r.first text = some (found, left)) : text = found ++ left ∧ r.Accepts found left := by
  rw [first, Option.map_eq_some_iff] at h
  obtain ⟨left', hleft, heq⟩ := h
  obtain ⟨hfound, rfl⟩ := Prod.mk.inj heq
  obtain ⟨w, htext, hw⟩ := (mem_run r).mp (List.mem_of_head? hleft)
  have htake : text.take (text.length - left'.length) = w := by
    rw [htext, List.length_append, Nat.add_sub_cancel, List.take_left]
  rw [← hfound, htake]
  exact ⟨htext, hw⟩

end Search

section Comap

/-- The pattern on the views of some elements. -/
def comap (view : β → α) : Pattern α → Pattern β
  | empty => empty
  | one p => one fun x => p (view x)
  | atEnd => atEnd
  | seq a b => seq (a.comap view) (b.comap view)
  | alt a b => alt (a.comap view) (b.comap view)
  | star a => star (a.comap view)
  | lazyStar a => lazyStar (a.comap view)

variable (view : β → α)

theorem repeats_map {step : List α → List (List α)} {step' : List β → List (List β)}
    (h : ∀ text, (step' text).map (List.map view) = step (text.map view)) (longest : Bool) (n : ℕ)
    (text : List β) : (repeats step' longest n text).map (List.map view) =
      repeats step longest n (text.map view) := by
  induction n generalizing text with
  | zero => rfl
  | succ n ih =>
    have hmore : (((step' text).filter fun left => left.length < text.length).flatMap
        (repeats step' longest n)).map (List.map view) =
        ((step (text.map view)).filter fun left => left.length < (text.map view).length).flatMap
          (repeats step longest n) := by
      rw [← h, List.filter_map, List.flatMap_map, List.map_flatMap]
      simp only [ih, Function.comp_def, List.length_map]
    rw [repeats, repeats, ← hmore]
    cases longest <;> simp

theorem run_comap (r : Pattern α) (text : List β) :
    ((r.comap view).run text).map (List.map view) = r.run (text.map view) := by
  induction r generalizing text with
  | empty => rfl
  | one p =>
    cases text with
    | nil => rfl
    | cons x rest =>
      by_cases hp : p (view x) = true <;> simp [comap, run, hp]
  | atEnd => cases text <;> rfl
  | seq a b iha ihb =>
    simp only [comap, run, ← iha, List.flatMap_map, List.map_flatMap, ihb]
  | alt a b iha ihb => simp only [comap, run, List.map_append, iha, ihb]
  | star a ih => simpa [comap, run] using repeats_map view ih true text.length text
  | lazyStar a ih => simpa [comap, run] using repeats_map view ih false text.length text

theorem isMatch_comap (r : Pattern α) (text : List β) :
    (r.comap view).isMatch text = r.isMatch (text.map view) := by
  rw [isMatch, isMatch, List.map_tails, List.any_map]
  congr 1
  ext t
  simp [← run_comap view r]

theorem accepts_comap (r : Pattern α) {w rest : List β} :
    (r.comap view).Accepts w rest ↔ r.Accepts (w.map view) (rest.map view) := by
  have hrun := run_comap view r (w ++ rest)
  rw [List.map_append] at hrun
  constructor
  · intro hw
    have hmem : rest.map view ∈ r.run (w.map view ++ rest.map view) :=
      hrun ▸ List.mem_map_of_mem ((mem_run _).mpr ⟨w, rfl, hw⟩)
    obtain ⟨w', htext, hw'⟩ := (mem_run r).mp hmem
    rwa [List.append_cancel_right htext]
  · intro hw
    have hmem : rest.map view ∈ ((r.comap view).run (w ++ rest)).map (List.map view) :=
      hrun ▸ (mem_run r).mpr ⟨w.map view, rfl, hw⟩
    obtain ⟨left, hleft, hview⟩ := List.mem_map.mp hmem
    obtain ⟨w', htext, hw'⟩ := (mem_run _).mp hleft
    have hlength := congrArg List.length hview
    rw [List.length_map, List.length_map] at hlength
    obtain ⟨rfl, rfl⟩ := List.append_inj' htext hlength.symm
    exact hw'

end Comap

end Pattern

end Hippo.Backtracking
