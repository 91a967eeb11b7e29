import Hippo.Table

/-!
# Inserts that respect a unique index

`INSERT OR IGNORE … SELECT` into a table whose rows carry a natural key next to the row id, and into
a table that is keyed by it. Rows that are there stay as they are; what is new comes from the
selection.
-/
namespace Hippo

namespace Table

variable {κ ρ : Type*} [DecidableEq κ] {t : Table κ ρ} {k : κ} {r : ρ} {rows : List (κ × ρ)}

theorem insert_of_mem (h : k ∈ t.keys) (new : ρ) : t.insert k new = t := by
  rw [insert, upsert, dif_pos h, modify, update, mapRows]
  simp

theorem get?_insert_of_some (h : t.get? k = some r) (j : κ) (new : ρ) :
    (t.insert j new).get? k = some r := by
  by_cases hj : j ∈ t.keys
  · rw [insert_of_mem hj, h]
  · have hne : k ≠ j := by
      rintro rfl
      exact hj (mem_keys.mpr ⟨r, h⟩)
    rw [get?_insert t j k new (get?_eq_none.mpr hj), if_neg hne, h]

/-- `INSERT OR IGNORE … SELECT`. -/
def insertAll (t : Table κ ρ) (rows : List (κ × ρ)) : Table κ ρ :=
  rows.foldl (fun t e => t.insert e.1 e.2) t

theorem insertAll_cons (e : κ × ρ) :
    t.insertAll (e :: rows) = (t.insert e.1 e.2).insertAll rows := rfl

theorem get?_insertAll_of_some (h : t.get? k = some r) : (t.insertAll rows).get? k = some r := by
  induction rows generalizing t with
  | nil => exact h
  | cons e rows ih => exact ih (get?_insert_of_some h e.1 e.2)

/-- A row of the result was there before or is the first one selected under its key. -/
theorem get?_insertAll (h : (t.insertAll rows).get? k = some r) :
    t.get? k = some r ∨ (t.get? k = none ∧ (k, r) ∈ rows) := by
  induction rows generalizing t with
  | nil => exact Or.inl h
  | cons e rows ih =>
    rw [insertAll_cons] at h
    obtain hold | ⟨hnone, hmem⟩ := ih h
    · by_cases hk : e.1 ∈ t.keys
      · rw [insert_of_mem hk] at hold
        exact Or.inl hold
      · rw [get?_insert t e.1 k e.2 (get?_eq_none.mpr hk)] at hold
        by_cases hke : k = e.1
        · rw [if_pos hke] at hold
          obtain rfl := Option.some.inj hold
          subst hke
          exact Or.inr ⟨get?_eq_none.mpr hk, List.mem_cons_self⟩
        · rw [if_neg hke] at hold
          exact Or.inl hold
    · refine Or.inr ⟨?_, List.mem_cons_of_mem _ hmem⟩
      cases ht : t.get? k with
      | none => rfl
      | some r' => rw [get?_insert_of_some ht] at hnone; cases hnone

theorem mem_keys_insertAll (h : (k, r) ∈ rows) : k ∈ (t.insertAll rows).keys := by
  induction rows generalizing t with
  | nil => cases h
  | cons e rows ih =>
    rw [insertAll_cons]
    obtain rfl | h := List.mem_cons.mp h
    · have hhead : ∃ r', (t.insert k r).get? k = some r' := by
        by_cases hk : k ∈ t.keys
        · rw [insert_of_mem hk]
          exact mem_keys.mp hk
        · exact ⟨r, by rw [get?_insert t k k r (get?_eq_none.mpr hk), if_pos rfl]⟩
      obtain ⟨r', hr'⟩ := hhead
      exact mem_keys.mpr ⟨r', get?_insertAll_of_some hr'⟩
    · exact ih h

theorem insertAll_eq_self (h : ∀ e ∈ rows, e.1 ∈ t.keys) : t.insertAll rows = t := by
  induction rows with
  | nil => rfl
  | cons e rows ih =>
    rw [insertAll_cons, insert_of_mem (h e List.mem_cons_self)]
    exact ih fun e' he' => h e' (List.mem_cons_of_mem _ he')

end Table

/-- A table of rows with row ids and a natural key that no two of them share. -/
structure IndexedTable (ρ : Type*) {ν : Type*} (key : ρ → ν) where
  rows : Table ℕ ρ
  unique : ∀ i j r s, rows.get? i = some r → rows.get? j = some s → key r = key s → i = j

namespace IndexedTable

variable {ρ ν : Type*} {key : ρ → ν} {t : IndexedTable ρ key} {i : ℕ} {r new : ρ} {k : ν}
  {news : List ρ}

def empty : IndexedTable ρ key where
  rows := Table.empty
  unique := by
    intro i j r s h
    cases h

/-- `UPDATE t SET f`, which leaves the natural key alone. -/
def mapRows (t : IndexedTable ρ key) (f : ℕ → ρ → ρ) (hf : ∀ i r, key (f i r) = key r) :
    IndexedTable ρ key where
  rows := t.rows.mapRows f
  unique := by
    intro i j r' s' hr' hs' hk
    rw [Table.get?_mapRows] at hr' hs'
    obtain ⟨r, hr, rfl⟩ := Option.map_eq_some_iff.mp hr'
    obtain ⟨s, hs, rfl⟩ := Option.map_eq_some_iff.mp hs'
    rw [hf, hf] at hk
    exact t.unique i j r s hr hs hk

/-- `DELETE FROM t WHERE p`. -/
def delete (t : IndexedTable ρ key) (p : ℕ → ρ → Prop) [∀ i r, Decidable (p i r)] :
    IndexedTable ρ key where
  rows := t.rows.delete p
  unique := by
    intro i j r s hr hs hk
    exact t.unique i j r s (Table.get?_delete_eq_some.mp hr).1 (Table.get?_delete_eq_some.mp hs).1
      hk

variable [DecidableEq ν]

/-- The row id under a natural key. -/
def rowid? (t : IndexedTable ρ key) (k : ν) : Option ℕ :=
  (t.rows.entries.find? fun e => key e.2 = k).map Prod.fst

theorem rowid?_eq_some : t.rowid? k = some i ↔ ∃ r, t.rows.get? i = some r ∧ key r = k := by
  constructor
  · intro h
    obtain ⟨e, he, rfl⟩ := Option.map_eq_some_iff.mp h
    exact ⟨e.2, Table.get?_eq_some.mpr (List.mem_of_find?_eq_some he),
      by simpa using List.find?_some he⟩
  · rintro ⟨r, hr, rfl⟩
    cases hfound : t.rows.entries.find? (fun e => key e.2 = key r) with
    | none =>
      have hno := List.find?_eq_none.mp hfound (i, r) (Table.get?_eq_some.mp hr)
      simp at hno
    | some e =>
      have hrow := Table.get?_eq_some.mpr (List.mem_of_find?_eq_some hfound)
      have hkey : key e.2 = key r := by simpa using List.find?_some hfound
      rw [rowid?, hfound, Option.map_some, t.unique e.1 i e.2 r hrow hr hkey]

theorem rowid?_of_get? (h : t.rows.get? i = some r) : t.rowid? (key r) = some i :=
  rowid?_eq_some.mpr ⟨r, h, rfl⟩

/-- `INSERT OR IGNORE` of a row without an id. -/
def insertOrIgnore (t : IndexedTable ρ key) (new : ρ) : IndexedTable ρ key :=
  if h : t.rowid? (key new) = none then
    { rows := t.rows.insert t.rows.nextRowid new
      unique := by
        have hfresh : ∀ j s, t.rows.get? j = some s → key s ≠ key new := fun j s hs hk => by
          rw [← hk, rowid?_of_get? hs] at h
          cases h
        intro i j r s hr hs hk
        rw [Table.get?_insert_nextRowid] at hr hs
        by_cases hi : i = t.rows.nextRowid <;> by_cases hj : j = t.rows.nextRowid
        · rw [hi, hj]
        · rw [if_pos hi] at hr
          rw [if_neg hj] at hs
          cases hr
          exact absurd hk.symm (hfresh j s hs)
        · rw [if_neg hi] at hr
          rw [if_pos hj] at hs
          cases hs
          exact absurd hk (hfresh i r hr)
        · rw [if_neg hi] at hr
          rw [if_neg hj] at hs
          exact t.unique i j r s hr hs hk }
  else t

theorem insertOrIgnore_of_some {j : ℕ} (h : t.rowid? (key new) = some j) :
    t.insertOrIgnore new = t := by
  rw [insertOrIgnore, dif_neg (by simp [h])]

theorem get?_insertOrIgnore (h : t.rowid? (key new) = none) (i : ℕ) :
    (t.insertOrIgnore new).rows.get? i =
      if i = t.rows.nextRowid then some new else t.rows.get? i := by
  rw [insertOrIgnore, dif_pos h]
  exact Table.get?_insert_nextRowid t.rows i new

theorem get?_insertOrIgnore_of_some (h : t.rows.get? i = some r) (new : ρ) :
    (t.insertOrIgnore new).rows.get? i = some r := by
  cases hk : t.rowid? (key new) with
  | some j => rw [insertOrIgnore_of_some hk, h]
  | none =>
    have hne : i ≠ t.rows.nextRowid := by
      rintro rfl
      simp at h
    rw [get?_insertOrIgnore hk, if_neg hne, h]

theorem rowid?_eq_none : t.rowid? k = none ↔ ∀ i r, t.rows.get? i = some r → key r ≠ k := by
  constructor
  · intro h i r hr hk
    rw [rowid?_eq_some.mpr ⟨r, hr, hk⟩] at h
    cases h
  · intro h
    cases hk : t.rowid? k with
    | none => rfl
    | some i =>
      obtain ⟨r, hr, hkey⟩ := rowid?_eq_some.mp hk
      exact absurd hkey (h i r hr)

theorem entries_insertOrIgnore (h : t.rowid? (key new) = none) :
    (t.insertOrIgnore new).rows.entries = t.rows.entries ++ [(t.rows.nextRowid, new)] := by
  rw [insertOrIgnore, dif_pos h]
  exact Table.entries_insert (Table.get?_nextRowid t.rows) new

/-- `INSERT` of a row without an id: `none` when a row has its key already. -/
def insert? (t : IndexedTable ρ key) (new : ρ) : Option (IndexedTable ρ key) :=
  if t.rowid? (key new) = none then some (t.insertOrIgnore new) else none

/-- `INSERT OR IGNORE … SELECT`. -/
def insertAll (t : IndexedTable ρ key) (news : List ρ) : IndexedTable ρ key :=
  news.foldl insertOrIgnore t

theorem insertAll_cons : t.insertAll (new :: news) = (t.insertOrIgnore new).insertAll news := rfl

theorem get?_insertAll_of_some (h : t.rows.get? i = some r) :
    (t.insertAll news).rows.get? i = some r := by
  induction news generalizing t with
  | nil => exact h
  | cons new news ih => exact ih (get?_insertOrIgnore_of_some h new)

/-- A row of the result was there before, or it was selected and its key was not there. -/
theorem get?_insertAll (h : (t.insertAll news).rows.get? i = some r) :
    t.rows.get? i = some r ∨ (t.rowid? (key r) = none ∧ r ∈ news) := by
  induction news generalizing t with
  | nil => exact Or.inl h
  | cons new news ih =>
    rw [insertAll_cons] at h
    cases hk : t.rowid? (key new) with
    | some j =>
      rw [insertOrIgnore_of_some hk] at h
      exact (ih h).imp_right fun h => ⟨h.1, List.mem_cons_of_mem _ h.2⟩
    | none =>
      obtain hold | ⟨hnone, hmem⟩ := ih h
      · rw [get?_insertOrIgnore hk] at hold
        by_cases hi : i = t.rows.nextRowid
        · rw [if_pos hi] at hold
          cases hold
          exact Or.inr ⟨hk, List.mem_cons_self⟩
        · rw [if_neg hi] at hold
          exact Or.inl hold
      · refine Or.inr ⟨?_, List.mem_cons_of_mem _ hmem⟩
        cases hr : t.rowid? (key r) with
        | none => rfl
        | some j =>
          obtain ⟨s, hs, hks⟩ := rowid?_eq_some.mp hr
          rw [← hks, rowid?_of_get? (get?_insertOrIgnore_of_some hs new)] at hnone
          cases hnone

/-- Every selected key is there afterwards. -/
theorem rowid?_insertAll (h : new ∈ news) :
    ∃ i, (t.insertAll news).rowid? (key new) = some i := by
  induction news generalizing t with
  | nil => cases h
  | cons a news ih =>
    rw [insertAll_cons]
    obtain rfl | h := List.mem_cons.mp h
    · have hrow : ∃ i r, (t.insertOrIgnore new).rows.get? i = some r ∧ key r = key new := by
        cases hk : t.rowid? (key new) with
        | some j =>
          obtain ⟨r, hr, hkey⟩ := rowid?_eq_some.mp hk
          exact ⟨j, r, get?_insertOrIgnore_of_some hr new, hkey⟩
        | none => exact ⟨t.rows.nextRowid, new, by rw [get?_insertOrIgnore hk, if_pos rfl], rfl⟩
      obtain ⟨i, r, hr, hkey⟩ := hrow
      exact ⟨i, rowid?_eq_some.mpr ⟨r, get?_insertAll_of_some hr, hkey⟩⟩
    · exact ih h

theorem insertAll_eq_self (h : ∀ new ∈ news, ∃ i, t.rowid? (key new) = some i) :
    t.insertAll news = t := by
  induction news with
  | nil => rfl
  | cons new news ih =>
    obtain ⟨i, hi⟩ := h new List.mem_cons_self
    rw [insertAll_cons, insertOrIgnore_of_some hi]
    exact ih fun new' hnew' => h new' (List.mem_cons_of_mem _ hnew')

end IndexedTable

end Hippo
