import Mathlib.Data.List.Sort
import Mathlib.Data.List.Nodup
import Mathlib.Algebra.Order.Ring.Int

/-!
# Keyed tables

A relational table with one key column, as the list of its rows in insertion
order. That no two rows share a key is a field, so every operation below carries
its own proof of it. Each operation is specified by what `get?` returns after it.
-/
namespace Hippo

/-- Rows with pairwise different keys. -/
structure Table (κ ρ : Type*) where
  entries : List (κ × ρ)
  nodup : (entries.map Prod.fst).Nodup

namespace Table

variable {κ ρ : Type*}

def empty : Table κ ρ := ⟨[], List.nodup_nil⟩

def keys (t : Table κ ρ) : List κ := t.entries.map Prod.fst

/-- Rows whose columns change by `f`; the key column is not among them. -/
def mapRows (t : Table κ ρ) (f : κ → ρ → ρ) : Table κ ρ where
  entries := t.entries.map fun e => (e.1, f e.1 e.2)
  nodup := by simpa [Function.comp_def] using t.nodup

/-- `UPDATE t SET f WHERE p`. -/
def update (t : Table κ ρ) (p : κ → ρ → Prop) [∀ k r, Decidable (p k r)] (f : ρ → ρ) :
    Table κ ρ :=
  t.mapRows fun k r => if p k r then f r else r

/-- `DELETE FROM t WHERE p`. -/
def delete (t : Table κ ρ) (p : κ → ρ → Prop) [∀ k r, Decidable (p k r)] : Table κ ρ where
  entries := t.entries.filter fun e => ¬ p e.1 e.2
  nodup := t.nodup.sublist (List.filter_sublist.map Prod.fst)

/-- `SELECT … WHERE p`, in insertion order. -/
def select (t : Table κ ρ) (p : κ → ρ → Prop) [∀ k r, Decidable (p k r)] : List (κ × ρ) :=
  t.entries.filter fun e => p e.1 e.2

section Lookup
variable [DecidableEq κ]

def get? (t : Table κ ρ) (k : κ) : Option ρ :=
  (t.entries.find? fun e => e.1 = k).map Prod.snd

/-- `UPDATE t SET f WHERE key = k`. -/
def modify (t : Table κ ρ) (k : κ) (f : ρ → ρ) : Table κ ρ :=
  t.update (fun j _ => j = k) f

/-- `INSERT … ON CONFLICT (key) DO UPDATE SET f`. -/
def upsert (t : Table κ ρ) (k : κ) (new : ρ) (f : ρ → ρ) : Table κ ρ :=
  if h : k ∈ t.keys then t.modify k f
  else ⟨t.entries ++ [(k, new)], by
    rw [List.map_append, List.nodup_append]
    refine ⟨t.nodup, List.nodup_singleton k, ?_⟩
    intro a ha b hb hab
    rw [hab, List.mem_singleton.mp hb] at ha
    exact h ha⟩

/-- `INSERT` of a row whose key must not be there yet. -/
def insert (t : Table κ ρ) (k : κ) (new : ρ) : Table κ ρ :=
  t.upsert k new id

theorem get?_eq_some {t : Table κ ρ} {k : κ} {r : ρ} :
    t.get? k = some r ↔ (k, r) ∈ t.entries := by
  obtain ⟨es, hnd⟩ := t
  simp only [get?]
  induction es with
  | nil => simp
  | cons e es ih =>
    have hnd' : e.1 ∉ es.map Prod.fst ∧ (es.map Prod.fst).Nodup := List.nodup_cons.mp hnd
    by_cases he : e.1 = k
    · simp only [List.find?_cons, he, decide_true, Option.map_some, Option.some.injEq,
        List.mem_cons]
      constructor
      · rintro rfl
        exact Or.inl (Prod.ext he.symm rfl)
      · rintro (h | h)
        · exact (congrArg Prod.snd h).symm
        · exact absurd (List.mem_map.mpr ⟨_, h, he.symm⟩) hnd'.1
    · simp only [List.find?_cons, he, decide_false, List.mem_cons]
      rw [ih hnd'.2]
      constructor
      · exact Or.inr
      · rintro (h | h)
        · exact absurd (congrArg Prod.fst h).symm he
        · exact h

theorem mem_keys {t : Table κ ρ} {k : κ} : k ∈ t.keys ↔ ∃ r, t.get? k = some r := by
  simp only [keys, List.mem_map, get?_eq_some]
  constructor
  · rintro ⟨⟨_, r⟩, he, rfl⟩
    exact ⟨r, he⟩
  · rintro ⟨r, hr⟩
    exact ⟨(k, r), hr, rfl⟩

theorem get?_eq_none {t : Table κ ρ} {k : κ} : t.get? k = none ↔ k ∉ t.keys := by
  rw [mem_keys, not_exists]
  cases t.get? k <;> simp

@[simp] theorem get?_empty (k : κ) : (empty : Table κ ρ).get? k = none := rfl

@[simp] theorem get?_mapRows (t : Table κ ρ) (f : κ → ρ → ρ) (k : κ) :
    (t.mapRows f).get? k = (t.get? k).map (f k) := by
  cases h : t.get? k with
  | none =>
    rw [get?_eq_none] at h
    rw [Option.map_none, get?_eq_none]
    simpa [keys, mapRows, Function.comp_def] using h
  | some r =>
    rw [get?_eq_some] at h
    rw [Option.map_some, get?_eq_some]
    exact List.mem_map.mpr ⟨(k, r), h, rfl⟩

@[simp] theorem get?_update (t : Table κ ρ) (p : κ → ρ → Prop) [∀ k r, Decidable (p k r)]
    (f : ρ → ρ) (k : κ) :
    (t.update p f).get? k = (t.get? k).map fun r => if p k r then f r else r := by
  simp only [update, get?_mapRows]

theorem eq_of_get?_update {t : Table κ ρ} {p : κ → ρ → Prop} [∀ k r, Decidable (p k r)]
    {f : ρ → ρ} {k : κ} {r' : ρ} (h : (t.update p f).get? k = some r') :
    ∃ r, t.get? k = some r ∧ ((p k r ∧ r' = f r) ∨ (¬ p k r ∧ r' = r)) := by
  rw [get?_update] at h
  obtain ⟨r, hr, rfl⟩ := Option.map_eq_some_iff.mp h
  refine ⟨r, hr, ?_⟩
  by_cases hp : p k r
  · exact Or.inl ⟨hp, if_pos hp⟩
  · exact Or.inr ⟨hp, if_neg hp⟩

theorem update_eq_self {t : Table κ ρ} {p : κ → ρ → Prop} [∀ k r, Decidable (p k r)] {f : ρ → ρ}
    (h : ∀ k r, t.get? k = some r → ¬ p k r) : t.update p f = t := by
  have hentries : (t.entries.map fun e => (e.1, if p e.1 e.2 then f e.2 else e.2)) = t.entries := by
    calc (t.entries.map fun e => (e.1, if p e.1 e.2 then f e.2 else e.2))
        = t.entries.map id := List.map_congr_left fun e he => by
          rw [if_neg (h e.1 e.2 (get?_eq_some.mpr he)), id]
      _ = t.entries := List.map_id _
  obtain ⟨entries, hnd⟩ := t
  simp only [update, mapRows, Table.mk.injEq]
  exact hentries

theorem eq_of_get?_modify {t : Table κ ρ} {k j : κ} {f : ρ → ρ} {r' : ρ}
    (h : (t.modify k f).get? j = some r') :
    ∃ r, t.get? j = some r ∧ ((j = k ∧ r' = f r) ∨ (j ≠ k ∧ r' = r)) :=
  eq_of_get?_update h

@[simp] theorem get?_update_isSome (t : Table κ ρ) (p : κ → ρ → Prop) [∀ k r, Decidable (p k r)]
    (f : ρ → ρ) (k : κ) : ((t.update p f).get? k).isSome = (t.get? k).isSome := by
  rw [get?_update, Option.isSome_map]

@[simp] theorem get?_modify_isSome (t : Table κ ρ) (k j : κ) (f : ρ → ρ) :
    ((t.modify k f).get? j).isSome = (t.get? j).isSome :=
  get?_update_isSome t _ f j

theorem get?_delete_eq_some {t : Table κ ρ} {p : κ → ρ → Prop} [∀ k r, Decidable (p k r)]
    {k : κ} {r : ρ} : (t.delete p).get? k = some r ↔ t.get? k = some r ∧ ¬ p k r := by
  simp only [get?_eq_some, delete, List.mem_filter, decide_eq_true_eq]

theorem get?_delete_of_not {t : Table κ ρ} {p : κ → ρ → Prop} [∀ k r, Decidable (p k r)]
    {k : κ} (h : ∀ r, t.get? k = some r → ¬ p k r) : (t.delete p).get? k = t.get? k := by
  cases ht : t.get? k with
  | none =>
    rw [get?_eq_none, mem_keys]
    rintro ⟨r, hr⟩
    cases ht.symm.trans (get?_delete_eq_some.mp hr).1
  | some r => exact get?_delete_eq_some.mpr ⟨ht, h r ht⟩

theorem mem_select {t : Table κ ρ} {p : κ → ρ → Prop} [∀ k r, Decidable (p k r)]
    {k : κ} {r : ρ} : (k, r) ∈ t.select p ↔ t.get? k = some r ∧ p k r := by
  simp only [get?_eq_some, select, List.mem_filter, decide_eq_true_eq]

theorem get?_modify (t : Table κ ρ) (k j : κ) (f : ρ → ρ) :
    (t.modify k f).get? j = if j = k then (t.get? j).map f else t.get? j := by
  rw [modify, get?_update]
  by_cases h : j = k
  · simp only [h, if_true]
  · simp only [h, if_false, Option.map_id']

@[simp] theorem get?_modify_self (t : Table κ ρ) (k : κ) (f : ρ → ρ) :
    (t.modify k f).get? k = (t.get? k).map f := by
  rw [get?_modify, if_pos rfl]

theorem get?_modify_of_ne (t : Table κ ρ) {k j : κ} (h : j ≠ k) (f : ρ → ρ) :
    (t.modify k f).get? j = t.get? j := by
  rw [get?_modify, if_neg h]

/-- A selection without the modified row. -/
theorem filter_modify (t : Table κ ρ) (k : κ) (f : ρ → ρ) {p : κ × ρ → Bool}
    (hp : ∀ r, p (k, r) = false) : (t.modify k f).entries.filter p = t.entries.filter p := by
  show (t.entries.map fun e => (e.1, if e.1 = k then f e.2 else e.2)).filter p = _
  induction t.entries with
  | nil => rfl
  | cons e es ih =>
    rw [List.map_cons, List.filter_cons, List.filter_cons, ih]
    by_cases hk : e.1 = k
    · obtain ⟨j, r⟩ := e
      obtain rfl : j = k := hk
      simp [hp]
    · simp [hk]

/-- An upsert writes its own row and leaves the others. -/
theorem get?_upsert (t : Table κ ρ) (k j : κ) (new : ρ) (f : ρ → ρ) :
    (t.upsert k new f).get? j =
      if j = k then some (((t.get? k).map f).getD new) else t.get? j := by
  by_cases h : k ∈ t.keys
  · simp only [upsert, h, dif_pos, get?_modify]
    obtain ⟨r, hr⟩ := mem_keys.mp h
    by_cases hj : j = k
    · subst hj
      simp [hr]
    · simp [hj]
  · have hk : t.get? k = none := get?_eq_none.mpr h
    simp only [upsert, h, dif_neg, not_false_eq_true, hk]
    by_cases hj : j = k
    · subst hj
      rw [if_pos rfl, get?_eq_some]
      exact List.mem_append_right _ (List.mem_singleton.mpr rfl)
    · rw [if_neg hj]
      simp only [get?, List.find?_append, List.find?_cons, Ne.symm hj, decide_false,
        List.find?_nil, Option.or_none]

theorem get?_insert (t : Table κ ρ) (k j : κ) (new : ρ) (h : t.get? k = none) :
    (t.insert k new).get? j = if j = k then some new else t.get? j := by
  rw [insert, get?_upsert, h, Option.map_none, Option.getD_none]

/-- The row under `k`, whatever was there. -/
def put (t : Table κ ρ) (k : κ) (new : ρ) : Table κ ρ :=
  t.upsert k new fun _ => new

/-- `DELETE FROM t WHERE key = k`. -/
def erase (t : Table κ ρ) (k : κ) : Table κ ρ :=
  t.delete fun j _ => j = k

@[simp] theorem get?_put (t : Table κ ρ) (k j : κ) (new : ρ) :
    (t.put k new).get? j = if j = k then some new else t.get? j := by
  rw [put, get?_upsert]
  by_cases h : j = k
  · rw [if_pos h, if_pos h]
    cases t.get? k <;> rfl
  · rw [if_neg h, if_neg h]

@[simp] theorem get?_erase (t : Table κ ρ) (k j : κ) :
    (t.erase k).get? j = if j = k then none else t.get? j := by
  by_cases h : j = k
  · rw [if_pos h, get?_eq_none, mem_keys]
    rintro ⟨r, hr⟩
    exact (get?_delete_eq_some.mp hr).2 h
  · rw [if_neg h]
    exact get?_delete_of_not fun _ _ => h

theorem entries_insert {t : Table κ ρ} {k : κ} (h : t.get? k = none) (new : ρ) :
    (t.insert k new).entries = t.entries ++ [(k, new)] := by
  rw [insert, upsert, dif_neg (get?_eq_none.mp h)]

/-- Rows collected under their keys; a later row replaces an earlier one. -/
def collect (rows : List (κ × ρ)) : Table κ ρ := rows.foldl (fun t e => t.put e.1 e.2) empty

theorem entries_collect {rows : List (κ × ρ)} (h : (rows.map Prod.fst).Nodup) :
    (collect rows).entries = rows := by
  have hfold : ∀ t : Table κ ρ, (t.entries ++ rows).map Prod.fst |>.Nodup →
      (rows.foldl (fun t e => t.put e.1 e.2) t).entries = t.entries ++ rows := by
    clear h
    induction rows with
    | nil => simp
    | cons e rows ih =>
      intro t ht
      have hfresh : e.1 ∉ t.keys := by
        intro hmem
        rw [List.map_append, List.nodup_append] at ht
        exact ht.2.2 e.1 hmem e.1 (by simp) rfl
      have hput : (t.put e.1 e.2).entries = t.entries ++ [e] := by
        rw [put, upsert, dif_neg hfresh]
      rw [List.foldl_cons, ih, hput, List.append_assoc, List.singleton_append]
      rw [hput, List.append_assoc, List.singleton_append]
      exact ht
  exact hfold empty h

end Lookup

section Rowid

theorem le_foldr_max {l : List ℕ} {k : ℕ} (h : k ∈ l) : k ≤ l.foldr max 0 := by
  induction l with
  | nil => cases h
  | cons a as ih =>
    rcases List.mem_cons.mp h with rfl | h
    · exact le_max_left _ _
    · exact (ih h).trans (le_max_right _ _)

/-- The key SQLite gives the next row of an `INTEGER PRIMARY KEY` table: one more
than the greatest key in use. -/
def nextRowid (t : Table ℕ ρ) : ℕ := t.keys.foldr max 0 + 1

theorem lt_nextRowid {t : Table ℕ ρ} {k : ℕ} (h : k ∈ t.keys) : k < t.nextRowid :=
  Nat.lt_succ_of_le (le_foldr_max h)

@[simp] theorem get?_nextRowid (t : Table ℕ ρ) : t.get? t.nextRowid = none :=
  get?_eq_none.mpr fun h => lt_irrefl _ (lt_nextRowid h)

theorem get?_insert_nextRowid (t : Table ℕ ρ) (j : ℕ) (new : ρ) :
    (t.insert t.nextRowid new).get? j = if j = t.nextRowid then some new else t.get? j :=
  get?_insert t _ j new (get?_nextRowid t)

end Rowid

theorem keys_mapRows (t : Table κ ρ) (f : κ → ρ → ρ) : (t.mapRows f).keys = t.keys := by
  simp only [keys, mapRows, List.map_map]
  rfl

section Totals

variable [DecidableEq κ] {w : κ → ρ → ℕ} {t : Table κ ρ} {k : κ} {r : ρ}

/-- `SUM(w)` over the rows. -/
def total (w : κ → ρ → ℕ) (t : Table κ ρ) : ℕ := (t.entries.map fun e => w e.1 e.2).sum

omit [DecidableEq κ] in
theorem total_mapRows {f : κ → ρ → ρ} (h : ∀ k r, w k (f k r) = w k r) (t : Table κ ρ) :
    (t.mapRows f).total w = t.total w := by
  simp [total, mapRows, Function.comp_def, h]

theorem total_insert (h : t.get? k = none) (new : ρ) :
    (t.insert k new).total w = t.total w + w k new := by
  simp [total, entries_insert h]

theorem total_modify (h : t.get? k = some r) (f : ρ → ρ) :
    (t.modify k f).total w + w k r = t.total w + w k (f r) := by
  obtain ⟨es, hnd⟩ := t
  have hmem : (k, r) ∈ es := get?_eq_some.mp h
  show (List.map _ (es.map _)).sum + w k r = (es.map _).sum + w k (f r)
  rw [List.map_map]
  clear h
  induction es with
  | nil => cases hmem
  | cons e es ih =>
    obtain ⟨hout, hnd'⟩ := List.nodup_cons.mp hnd
    rcases List.mem_cons.mp hmem with rfl | hmem
    · have hrest : ∀ e ∈ es, e.1 ≠ k := fun e he hk => hout (List.mem_map.mpr ⟨e, he, hk⟩)
      have hsame : es.map ((fun e => w e.1 e.2) ∘ fun e => (e.1, if e.1 = k then f e.2 else e.2)) =
          es.map fun e => w e.1 e.2 :=
        List.map_congr_left fun e he => by simp [hrest e he]
      simp only [List.map_cons, List.sum_cons, Function.comp_apply, if_pos]
      rw [hsame]
      omega
    · have hne : e.1 ≠ k := fun hk => hout (List.mem_map.mpr ⟨_, hmem, hk.symm⟩)
      have hih := ih hnd' hmem
      simp only [List.map_cons, List.sum_cons, Function.comp_apply, if_neg hne]
      simp only [Function.comp_def] at hih ⊢
      omega

theorem total_erase (h : t.get? k = some r) : (t.erase k).total w + w k r = t.total w := by
  obtain ⟨es, hnd⟩ := t
  have hmem : (k, r) ∈ es := get?_eq_some.mp h
  show ((es.filter fun e => ¬ e.1 = k).map fun e => w e.1 e.2).sum + w k r =
    (es.map fun e => w e.1 e.2).sum
  clear h
  induction es with
  | nil => cases hmem
  | cons e es ih =>
    obtain ⟨hout, hnd'⟩ := List.nodup_cons.mp hnd
    rcases List.mem_cons.mp hmem with rfl | hmem
    · have hrest : (es.filter fun e => ¬ e.1 = k) = es :=
        List.filter_eq_self.mpr fun e he => by
          have hne : e.1 ≠ k := fun hk => hout (List.mem_map.mpr ⟨e, he, hk⟩)
          simp [hne]
      rw [List.filter_cons_of_neg (by simp), hrest, List.map_cons, List.sum_cons]
      exact Nat.add_comm _ _
    · have hne : e.1 ≠ k := fun hk => hout (List.mem_map.mpr ⟨_, hmem, hk.symm⟩)
      have hih := ih hnd' hmem
      rw [List.filter_cons_of_pos (by simp [hne])]
      simp only [List.map_cons, List.sum_cons]
      omega

theorem put_of_none (h : t.get? k = none) (new : ρ) : t.put k new = t.insert k new := by
  rw [put, insert, upsert, upsert, dif_neg (get?_eq_none.mp h), dif_neg (get?_eq_none.mp h)]

theorem put_of_some (h : t.get? k = some r) (new : ρ) :
    t.put k new = t.modify k fun _ => new := by
  rw [put, upsert, dif_pos (mem_keys.mpr ⟨r, h⟩)]

/-- What a `put` adds to the total, with the weight of the row that was there. -/
theorem total_put (new : ρ) :
    (t.put k new).total w + ((t.get? k).map (w k)).getD 0 = t.total w + w k new := by
  cases h : t.get? k with
  | none => rw [put_of_none h, total_insert h, Option.map_none, Option.getD_none, Nat.add_zero]
  | some r =>
    rw [put_of_some h, Option.map_some, Option.getD_some]
    exact total_modify h _

/-- A table with one weighted key. -/
theorem total_ite (v : ρ → ℕ) (t : Table κ ρ) (k : κ) :
    t.total (fun j r => if j = k then v r else 0) = ((t.get? k).map v).getD 0 := by
  obtain ⟨es, hnd⟩ := t
  show (es.map _).sum = (((es.find? _).map Prod.snd).map v).getD 0
  induction es with
  | nil => rfl
  | cons e es ih =>
    obtain ⟨hout, hnd'⟩ := List.nodup_cons.mp hnd
    rw [List.map_cons, List.sum_cons, ih hnd']
    by_cases hk : e.1 = k
    · have hnone : es.find? (fun e => e.1 = k) = none :=
        List.find?_eq_none.mpr fun e' he' hk' =>
          hout (List.mem_map.mpr ⟨e', he', (of_decide_eq_true hk').trans hk.symm⟩)
      simp [hk, hnone]
    · simp [hk]

end Totals

end Table

/-- `ORDER BY key ASC`; rows with equal keys keep their order. -/
def orderBy {α : Type*} (key : α → ℤ) (l : List α) : List α :=
  l.insertionSort fun a b => key a ≤ key b

theorem orderBy_perm {α : Type*} (key : α → ℤ) (l : List α) : (orderBy key l).Perm l :=
  List.perm_insertionSort _ l

@[simp] theorem mem_orderBy {α : Type*} {key : α → ℤ} {l : List α} {a : α} :
    a ∈ orderBy key l ↔ a ∈ l :=
  (orderBy_perm key l).mem_iff

theorem nodup_map_orderBy {α β : Type*} {key : α → ℤ} {l : List α} {f : α → β}
    (h : (l.map f).Nodup) : ((orderBy key l).map f).Nodup :=
  ((orderBy_perm key l).map f).nodup_iff.mpr h

theorem filter_orderedInsert {α : Type*} {key : α → ℤ} (p : α → Bool) {a : α} {l : List α}
    (h : l.Pairwise fun a b => key a ≤ key b) :
    (l.orderedInsert (fun a b => key a ≤ key b) a).filter p =
      if p a then (l.filter p).orderedInsert (fun a b => key a ≤ key b) a else l.filter p := by
  induction l with
  | nil => cases hp : p a <;> simp [hp]
  | cons b l ih =>
    obtain ⟨hb, hl⟩ := List.pairwise_cons.mp h
    by_cases hab : key a ≤ key b
    · rw [List.orderedInsert_cons_of_le _ l hab]
      cases hp : p a with
      | false => simp [hp]
      | true =>
        rw [List.filter_cons_of_pos hp, if_pos rfl]
        cases hrest : (b :: l).filter p with
        | nil => rfl
        | cons c rest =>
          have hc : c ∈ b :: l := List.mem_of_mem_filter (hrest ▸ List.mem_cons_self)
          have hac : key a ≤ key c := by
            rcases List.mem_cons.mp hc with rfl | hc
            · exact hab
            · exact hab.trans (hb c hc)
          rw [List.orderedInsert_cons_of_le _ rest hac]
    · rw [List.orderedInsert_of_not_le _ l hab]
      cases hpb : p b with
      | false => rw [List.filter_cons_of_neg (by simp [hpb]), ih hl,
          List.filter_cons_of_neg (by simp [hpb])]
      | true =>
        rw [List.filter_cons_of_pos hpb, ih hl, List.filter_cons_of_pos hpb]
        cases p a with
        | false => rfl
        | true =>
          rw [if_pos rfl, if_pos rfl]
          exact (List.orderedInsert_of_not_le (r := fun a b => key a ≤ key b) _ hab).symm

/-- The order of a selection is that of the whole. -/
theorem orderBy_filter {α : Type*} (key : α → ℤ) (p : α → Bool) (l : List α) :
    orderBy key (l.filter p) = (orderBy key l).filter p := by
  induction l with
  | nil => rfl
  | cons a l ih =>
    have hsorted : (orderBy key l).Pairwise fun a b => key a ≤ key b :=
      List.pairwise_insertionSort _ l
    have hcons : orderBy key (a :: l) =
        (orderBy key l).orderedInsert (fun a b => key a ≤ key b) a := rfl
    rw [hcons, filter_orderedInsert p hsorted, ← ih]
    cases hp : p a with
    | false => rw [List.filter_cons_of_neg (by simp [hp])]; rfl
    | true => rw [List.filter_cons_of_pos hp]; rfl

/-- `LIMIT n`, where `none` is the code's `LIMIT -1`. -/
def limitTo {α : Type*} (n : Option ℕ) (l : List α) : List α :=
  n.elim l fun n => l.take n

theorem mem_of_mem_limitTo {α : Type*} {n : Option ℕ} {l : List α} {a : α}
    (h : a ∈ limitTo n l) : a ∈ l := by
  cases n with
  | none => exact h
  | some n => exact List.mem_of_mem_take h

end Hippo
