import Hippo.Transcript

/-!
# Equality of stored JSON

Stored JSON columns are compared as values, with every number as a double. The JSON library is a
parameter: it reads what it has printed, and lists each key of an object once.
-/
namespace Hippo

/-- `serde_json`: `from_str` and `to_string`. -/
structure JsonLibrary where
  parse : String → Option JsonValue
  print : JsonValue → String

section Double

/-- The nearest double of a natural number, the even one in the middle. -/
def doubleOfNat (a : ℕ) : ℕ :=
  let unit := 2 ^ (a.log2 - 52)
  let q := a / unit
  let r := a % unit
  (if unit < 2 * r ∨ (unit = 2 * r ∧ q % 2 = 1) then q + 1 else q) * unit

/-- `Number::as_f64`. -/
def JsonValue.asF64 : JsonValue → Option ℚ
  | .int n => some (if n < 0 then -(doubleOfNat n.natAbs : ℚ) else doubleOfNat n.natAbs)
  | .float x => some x
  | _ => none

example : JsonValue.asF64 (.int (2 ^ 53 + 1)) = JsonValue.asF64 (.int (2 ^ 53)) := by
  decide +kernel

end Double

mutual

/-- `json_eq`. -/
def jsonEq : JsonValue → JsonValue → Bool
  | .array x, .array y => x.length = y.length && jsonEqItems x y
  | .object x, .object y => x.length = y.length && jsonEqMembers x y
  | .null, .null => true
  | .bool a, .bool b => a = b
  | .string a, .string b => a = b
  | a, b => a.asF64.isSome && a.asF64 = b.asF64

/-- The items of two arrays of one length. -/
def jsonEqItems : List JsonValue → List JsonValue → Bool
  | a :: x, b :: y => jsonEq a b && jsonEqItems x y
  | _, _ => true

/-- Every member of `x` is one of `y`. -/
def jsonEqMembers : List (String × JsonValue) → List (String × JsonValue) → Bool
  | (k, v) :: x, y =>
    (match y.lookup k with
      | some w => jsonEq v w
      | none => false) && jsonEqMembers x y
  | [], _ => true

end

/-- Every object lists each key once. -/
inductive JsonValue.KeysOnce : JsonValue → Prop where
  | null : KeysOnce .null
  | bool (b : Bool) : KeysOnce (.bool b)
  | int (n : ℤ) : KeysOnce (.int n)
  | float (x : ℚ) : KeysOnce (.float x)
  | string (s : String) : KeysOnce (.string s)
  | array {items : List JsonValue} (h : ∀ v ∈ items, KeysOnce v) : KeysOnce (.array items)
  | object {members : List (String × JsonValue)} (hnodup : (members.map Prod.fst).Nodup)
      (h : ∀ k v, (k, v) ∈ members → KeysOnce v) : KeysOnce (.object members)

theorem jsonEqItems_refl {items : List JsonValue} (h : ∀ v ∈ items, jsonEq v v = true) :
    jsonEqItems items items = true := by
  induction items with
  | nil => simp [jsonEqItems]
  | cons v items ih =>
    obtain ⟨hv, hitems⟩ := List.forall_mem_cons.mp h
    simp [jsonEqItems, hv, ih hitems]

section Lookup

variable {κ υ : Type*} [BEq κ] [LawfulBEq κ] {l l' : List (κ × υ)} {k : κ} {v : υ}

theorem lookup_of_mem (hnodup : (l.map Prod.fst).Nodup) (h : (k, v) ∈ l) :
    l.lookup k = some v := by
  induction l with
  | nil => cases h
  | cons m l ih =>
    obtain ⟨hnot, hrest⟩ := List.nodup_cons.mp hnodup
    rcases List.mem_cons.mp h with heq | hmem
    · rw [← heq, List.lookup_cons_self]
    · have hne : k ≠ m.1 := fun hk => hnot (hk ▸ List.mem_map_of_mem hmem)
      rw [List.lookup_cons, beq_false_of_ne hne, ih hrest hmem]

theorem mem_of_lookup (h : l.lookup k = some v) : (k, v) ∈ l := by
  obtain ⟨front, back, rfl, -⟩ := List.lookup_eq_some_iff.mp h
  simp

/-- The order of a list does not matter where its keys differ. -/
theorem lookup_of_perm (h : l.Perm l') (hnodup : (l.map Prod.fst).Nodup) (k : κ) :
    l.lookup k = l'.lookup k := by
  have hnodup' : (l'.map Prod.fst).Nodup := (h.map Prod.fst).nodup_iff.mp hnodup
  ext v
  constructor
  · intro hv
    exact lookup_of_mem hnodup' (h.mem_iff.mp (mem_of_lookup hv))
  · intro hv
    exact lookup_of_mem hnodup (h.mem_iff.mpr (mem_of_lookup hv))

end Lookup

theorem jsonEqMembers_of_subset {x y : List (String × JsonValue)}
    (hnodup : (y.map Prod.fst).Nodup) (hsubset : x ⊆ y)
    (h : ∀ k v, (k, v) ∈ y → jsonEq v v = true) : jsonEqMembers x y = true := by
  induction x with
  | nil => simp [jsonEqMembers]
  | cons m x ih =>
    obtain ⟨hm, hx⟩ := List.cons_subset.mp hsubset
    obtain ⟨k, v⟩ := m
    simp [jsonEqMembers, lookup_of_mem hnodup hm, h k v hm, ih hx]

theorem jsonEq_refl {v : JsonValue} (h : v.KeysOnce) : jsonEq v v = true := by
  induction h with
  | null => simp [jsonEq]
  | bool b => simp [jsonEq]
  | int n => simp [jsonEq, JsonValue.asF64]
  | float x => simp [jsonEq, JsonValue.asF64]
  | string s => simp [jsonEq]
  | array h ih => simp [jsonEq, jsonEqItems_refl ih]
  | object hnodup h ih =>
    simp [jsonEq, jsonEqMembers_of_subset hnodup (List.Subset.refl _) ih]

end Hippo
