import Hippo.JsonComparison
import Hippo.JsonReading

/-!
# Documents as dicts

A document with the members of its objects as they stand in the text becomes one whose keys are
unique: of the members with one key the last value counts, at the place of the first. Such dicts
are compared without regard to the order.
-/
namespace Hippo.JsonText

section Dicts

variable {κ υ : Type} [DecidableEq κ] {k : κ} {d p q : List (κ × υ)}

/-- `d[k] = v`. -/
def setMember (k : κ) (v : υ) : List (κ × υ) → List (κ × υ)
  | [] => [(k, v)]
  | m :: rest => if m.1 = k then (k, v) :: rest else m :: setMember k v rest

def dictOf (members : List (κ × υ)) : List (κ × υ) :=
  members.foldl (fun d m => setMember m.1 m.2 d) []

theorem mem_setMember {m : κ × υ} {v : υ} (h : m ∈ setMember k v d) : m = (k, v) ∨ m ∈ d := by
  induction d with
  | nil => exact Or.inl (List.mem_singleton.mp h)
  | cons n rest ih =>
    rw [setMember] at h
    split at h
    · rcases List.mem_cons.mp h with heq | hmem
      · exact Or.inl heq
      · exact Or.inr (List.mem_cons_of_mem n hmem)
    · rcases List.mem_cons.mp h with heq | hmem
      · exact Or.inr (heq ▸ List.mem_cons_self)
      · exact (ih hmem).imp_right (List.mem_cons_of_mem n)

theorem nodup_setMember {v : υ} (h : (d.map Prod.fst).Nodup) :
    ((setMember k v d).map Prod.fst).Nodup := by
  induction d with
  | nil => simp [setMember]
  | cons n rest ih =>
    rw [List.map_cons, List.nodup_cons] at h
    rw [setMember]
    split
    · rename_i heq
      rw [List.map_cons, List.nodup_cons, ← heq]
      exact h
    · rename_i hne
      rw [List.map_cons, List.nodup_cons]
      refine ⟨fun hmem => ?_, ih h.2⟩
      obtain ⟨m, hm, hkey⟩ := List.mem_map.mp hmem
      rcases mem_setMember hm with rfl | hm
      · exact hne hkey.symm
      · exact h.1 (hkey ▸ List.mem_map_of_mem hm)

theorem nodup_dictOf (members : List (κ × υ)) : ((dictOf members).map Prod.fst).Nodup := by
  have hfold : ∀ (members d : List (κ × υ)), (d.map Prod.fst).Nodup →
      ((members.foldl (fun d m => setMember m.1 m.2 d) d).map Prod.fst).Nodup := by
    intro members
    induction members with
    | nil => exact fun d hd => hd
    | cons m members ih => exact fun d hd => ih _ (nodup_setMember hd)
  exact hfold members [] List.nodup_nil

theorem mem_dictOf {members : List (κ × υ)} {m : κ × υ} (h : m ∈ dictOf members) :
    m ∈ members := by
  have hfold : ∀ (members d : List (κ × υ)),
      m ∈ members.foldl (fun d m => setMember m.1 m.2 d) d → m ∈ d ∨ m ∈ members := by
    intro members
    induction members with
    | nil => exact fun d hm => Or.inl hm
    | cons n members ih =>
      intro d hm
      rcases ih _ hm with hm | hm
      · rcases mem_setMember hm with rfl | hm
        · exact Or.inr List.mem_cons_self
        · exact Or.inl hm
      · exact Or.inr (List.mem_cons_of_mem n hm)
  exact (hfold members [] h).resolve_left List.not_mem_nil

theorem setMember_hole (k : κ) (d : List (κ × υ)) : ∃ p q, k ∉ p.map Prod.fst ∧
    ∀ v, setMember k v d = p ++ (k, v) :: q := by
  induction d with
  | nil => exact ⟨[], [], by simp, fun v => rfl⟩
  | cons m rest ih =>
    by_cases heq : m.1 = k
    · exact ⟨[], rest, by simp, fun v => by simp [setMember, heq]⟩
    · obtain ⟨p, q, hp, hset⟩ := ih
      refine ⟨m :: p, q, ?_, fun v => by simp [setMember, heq, hset v]⟩
      simpa [Ne.symm heq] using hp

theorem setMember_append {v : υ} (hp : k ∉ p.map Prod.fst) :
    setMember k v (p ++ q) = p ++ setMember k v q := by
  induction p with
  | nil => rfl
  | cons m p ih =>
    rw [List.map_cons, List.mem_cons, not_or] at hp
    rw [List.cons_append, setMember, if_neg (Ne.symm hp.1), ih hp.2]
    rfl

theorem setMember_append_of_mem {v : υ} (hp : k ∈ p.map Prod.fst) :
    setMember k v (p ++ q) = setMember k v p ++ q := by
  induction p with
  | nil => cases hp
  | cons m p ih =>
    by_cases heq : m.1 = k
    · simp [setMember, heq]
    · have hrest : k ∈ p.map Prod.fst := by
        rw [List.map_cons, List.mem_cons] at hp
        exact hp.resolve_left (Ne.symm heq)
      rw [List.cons_append, setMember, if_neg heq, ih hrest, setMember, if_neg heq]
      rfl

/-- The member is overwritten, whatever its value, or it has its place in the dict. -/
theorem dictOf_hole (k : κ) (pre post : List (κ × υ)) :
    (∀ v w, dictOf (pre ++ (k, v) :: post) = dictOf (pre ++ (k, w) :: post)) ∨
      ∃ p q, ∀ v, dictOf (pre ++ (k, v) :: post) = p ++ (k, v) :: q := by
  have hfold : ∀ (post p q : List (κ × υ)), k ∉ p.map Prod.fst →
      (∀ v w, post.foldl (fun d m => setMember m.1 m.2 d) (p ++ (k, v) :: q) =
        post.foldl (fun d m => setMember m.1 m.2 d) (p ++ (k, w) :: q)) ∨
        ∃ p' q', ∀ v, post.foldl (fun d m => setMember m.1 m.2 d) (p ++ (k, v) :: q) =
          p' ++ (k, v) :: q' := by
    intro post
    induction post with
    | nil => exact fun p q _ => Or.inr ⟨p, q, fun v => rfl⟩
    | cons m post ih =>
      intro p q hp
      by_cases heq : m.1 = k
      · refine Or.inl fun v w => ?_
        rw [List.foldl_cons, List.foldl_cons, heq, setMember_append hp, setMember_append hp]
        simp [setMember]
      · by_cases hmem : m.1 ∈ p.map Prod.fst
        · have hp' : k ∉ (setMember m.1 m.2 p).map Prod.fst := by
            intro hk
            obtain ⟨n, hn, hkey⟩ := List.mem_map.mp hk
            rcases mem_setMember hn with rfl | hn
            · exact heq hkey
            · exact hp (hkey ▸ List.mem_map_of_mem hn)
          have hset : ∀ v, setMember m.1 m.2 (p ++ (k, v) :: q) =
              setMember m.1 m.2 p ++ (k, v) :: q := fun v => setMember_append_of_mem hmem
          simp only [List.foldl_cons, hset]
          exact ih _ q hp'
        · have hset : ∀ v, setMember m.1 m.2 (p ++ (k, v) :: q) =
              p ++ (k, v) :: setMember m.1 m.2 q := by
            intro v
            rw [setMember_append hmem, setMember, if_neg (Ne.symm heq)]
          simp only [List.foldl_cons, hset]
          exact ih p _ hp
  obtain ⟨p, q, hp, hset⟩ := setMember_hole k (pre.foldl (fun d m => setMember m.1 m.2 d) [])
  simp only [dictOf, List.foldl_append, List.foldl_cons]
  simp only [show ∀ v, setMember k v (pre.foldl (fun d m => setMember m.1 m.2 d) []) =
    p ++ (k, v) :: q from hset]
  exact hfold post p q hp

end Dicts

namespace Doc

/-- What holds of a document if it holds of its parts holds of every document. -/
theorem induct {motive : Doc → Prop} (scalar : ∀ s, motive (.scalar s))
    (array : ∀ items, (∀ v ∈ items, motive v) → motive (.array items))
    (object : ∀ members, (∀ m ∈ members, motive m.2) → motive (.object members)) (v : Doc) :
    motive v :=
  @Doc.rec motive (fun items => ∀ v ∈ items, motive v) (fun members => ∀ m ∈ members, motive m.2)
    (fun m => motive m.2) scalar array object (fun _ h => by cases h)
    (fun _ _ hv hitems => List.forall_mem_cons.mpr ⟨hv, hitems⟩) (fun _ h => by cases h)
    (fun _ _ hm hmembers => List.forall_mem_cons.mpr ⟨hm, hmembers⟩) (fun _ _ h => h) v

section Rebuild

/-- What to make of the strings, the keys and the values under some keys. -/
structure Rebuild where
  onString : List ℕ → List ℕ
  onKey : List ℕ → List ℕ
  instead : List ℕ → Option Doc

variable (f : Rebuild)

mutual

/-- The document with other strings and keys, its objects as dicts. -/
def rebuild : Doc → Doc
  | .scalar (.string s) => .scalar (.string (f.onString s))
  | .scalar s => .scalar s
  | .array items => .array (rebuildItems items)
  | .object members => .object (dictOf (rebuildMembers members))

def rebuildItems : List Doc → List Doc
  | [] => []
  | v :: items => v.rebuild :: rebuildItems items

def rebuildMembers : List (List ℕ × Doc) → List (List ℕ × Doc)
  | [] => []
  | m :: members => (f.onKey m.1, (f.instead m.1).getD m.2.rebuild) :: rebuildMembers members

end

theorem rebuildItems_eq (items : List Doc) : rebuildItems f items = items.map (rebuild f) := by
  induction items with
  | nil => rfl
  | cons v items ih => rw [rebuildItems, ih, List.map_cons]

/-- The members before those of one key are merged. -/
def rebuilt (f : Rebuild) (ms : List (List ℕ × Doc)) : List (List ℕ × Doc) :=
  ms.map fun m => (f.onKey m.1, (f.instead m.1).getD (m.2.rebuild f))

theorem rebuildMembers_eq (ms : List (List ℕ × Doc)) : rebuildMembers f ms = rebuilt f ms := by
  induction ms with
  | nil => rfl
  | cons m ms ih =>
    rw [rebuildMembers, ih]
    rfl

theorem rebuild_array (items : List Doc) :
    (Doc.array items).rebuild f = .array (items.map (rebuild f)) := by
  rw [rebuild, rebuildItems_eq]

theorem rebuild_object (ms : List (List ℕ × Doc)) :
    (Doc.object ms).rebuild f = .object (dictOf (rebuilt f ms)) := by
  rw [rebuild, rebuildMembers_eq]

/-- A string or a key of the document. -/
inductive HasString (s : List ℕ) : Doc → Prop
  | scalar : HasString s (.scalar (.string s))
  | item {items : List Doc} {v : Doc} (hmem : v ∈ items) (h : HasString s v) :
    HasString s (.array items)
  | key {ms : List (List ℕ × Doc)} {v : Doc} (hmem : (s, v) ∈ ms) : HasString s (.object ms)
  | member {ms : List (List ℕ × Doc)} {m : List ℕ × Doc} (hmem : m ∈ ms)
    (h : HasString s m.2) : HasString s (.object ms)

/-- Only the strings and keys of the document matter. -/
theorem rebuild_congr {f g : Rebuild} (hinstead : f.instead = g.instead) (v : Doc)
    (h : ∀ s, HasString s v → f.onString s = g.onString s ∧ f.onKey s = g.onKey s) :
    v.rebuild f = v.rebuild g := by
  induction v using induct with
  | scalar s =>
    cases s with
    | string s => rw [rebuild, rebuild, (h s .scalar).1]
    | _ => rfl
  | array items ih =>
    rw [rebuild_array, rebuild_array]
    congr 1
    exact List.map_congr_left fun v hv => ih v hv fun s hs => h s (.item hv hs)
  | object ms ih =>
    rw [rebuild_object, rebuild_object, rebuilt, rebuilt]
    congr 2
    refine List.map_congr_left fun m hm => ?_
    rw [(h m.1 (.key hm)).2, hinstead, ih m hm fun s hs => h s (.member hm hs)]

/-- Every object lists each key once. -/
inductive KeysOnce : Doc → Prop
  | scalar (s : Scalar) : KeysOnce (.scalar s)
  | array {items : List Doc} (h : ∀ v ∈ items, KeysOnce v) : KeysOnce (.array items)
  | object {ms : List (List ℕ × Doc)} (hnodup : (ms.map Prod.fst).Nodup)
    (h : ∀ m ∈ ms, KeysOnce m.2) : KeysOnce (.object ms)

theorem keysOnce_rebuild (hinstead : ∀ k v, f.instead k = some v → KeysOnce v) (v : Doc) :
    KeysOnce (v.rebuild f) := by
  induction v using induct with
  | scalar s => cases s <;> exact .scalar _
  | array items ih =>
    rw [rebuild_array]
    refine .array fun v hv => ?_
    obtain ⟨w, hw, rfl⟩ := List.mem_map.mp hv
    exact ih w hw
  | object ms ih =>
    rw [rebuild_object]
    refine .object (nodup_dictOf _) fun m hm => ?_
    obtain ⟨n, hn, rfl⟩ := List.mem_map.mp (mem_dictOf hm)
    cases hvalue : f.instead n.1 with
    | none => exact ih n hn
    | some v => exact hinstead n.1 v hvalue

end Rebuild

section Equality

variable (numberEq : Scalar → Scalar → Bool)

/-- `==` on two scalars; that of numbers, booleans and `None` is a parameter. -/
def scalarEq : Scalar → Scalar → Bool
  | .string a, .string b => a = b
  | .string _, _ => false
  | _, .string _ => false
  | a, b => numberEq a b

mutual

/-- `==`; dicts are compared without regard to the order. -/
def pyEq : Doc → Doc → Bool
  | .scalar a, .scalar b => scalarEq numberEq a b
  | .array x, .array y => x.length = y.length && pyEqItems x y
  | .object x, .object y => x.length = y.length && pyEqMembers x y
  | _, _ => false

def pyEqItems : List Doc → List Doc → Bool
  | a :: x, b :: y => pyEq a b && pyEqItems x y
  | _, _ => true

def pyEqMembers : List (List ℕ × Doc) → List (List ℕ × Doc) → Bool
  | [], _ => true
  | m :: x, y => (y.lookup m.1).any (fun w => pyEq m.2 w) && pyEqMembers x y

end

variable {numberEq}

theorem pyEq_object {x y : List (List ℕ × Doc)} :
    pyEq numberEq (.object x) (.object y) = true ↔ x.length = y.length ∧
      ∀ m ∈ x, ∃ w, y.lookup m.1 = some w ∧ pyEq numberEq m.2 w = true := by
  have hmembers : ∀ x : List (List ℕ × Doc), pyEqMembers numberEq x y = true ↔
      ∀ m ∈ x, ∃ w, y.lookup m.1 = some w ∧ pyEq numberEq m.2 w = true := by
    intro x
    induction x with
    | nil => simp [pyEqMembers]
    | cons m x ih =>
      rw [pyEqMembers, Bool.and_eq_true, ih, List.forall_mem_cons, Option.any_eq_true]
  rw [pyEq, Bool.and_eq_true, hmembers, decide_eq_true_eq]

theorem pyEq_array {x y : List Doc} (h : pyEq numberEq (.array x) (.array y) = true) :
    ∀ w ∈ y, ∃ v ∈ x, pyEq numberEq v w = true := by
  rw [pyEq, Bool.and_eq_true, decide_eq_true_eq] at h
  obtain ⟨hlength, hitems⟩ := h
  induction y generalizing x with
  | nil => exact fun w hw => by cases hw
  | cons w y ih =>
    obtain ⟨v, x, rfl⟩ := List.exists_cons_of_length_pos
      (show 0 < x.length by rw [hlength, List.length_cons]; omega)
    rw [pyEqItems, Bool.and_eq_true] at hitems
    intro w' hw'
    rcases List.mem_cons.mp hw' with rfl | hw'
    · exact ⟨v, List.mem_cons_self, hitems.1⟩
    · obtain ⟨v', hv', heq⟩ := ih (by simpa using hlength) hitems.2 w' hw'
      exact ⟨v', List.mem_cons_of_mem v hv', heq⟩

/-- Equal dicts have the same keys. -/
theorem exists_member_of_pyEq {x y : List (List ℕ × Doc)} (hx : (x.map Prod.fst).Nodup)
    (hy : (y.map Prod.fst).Nodup) (h : pyEq numberEq (.object x) (.object y) = true)
    {n : List ℕ × Doc} (hn : n ∈ y) : ∃ m ∈ x, m.1 = n.1 ∧ pyEq numberEq m.2 n.2 = true := by
  obtain ⟨hlength, hlookup⟩ := pyEq_object.mp h
  have hsubset : x.map Prod.fst ⊆ y.map Prod.fst := by
    intro k hk
    obtain ⟨m, hm, rfl⟩ := List.mem_map.mp hk
    obtain ⟨w, hw, -⟩ := hlookup m hm
    exact List.mem_map.mpr ⟨(m.1, w), mem_of_lookup hw, rfl⟩
  have hperm : (x.map Prod.fst).Perm (y.map Prod.fst) :=
    (List.subperm_of_subset hx hsubset).perm_of_length_le (by simp [hlength])
  obtain ⟨m, hm, hkey⟩ := List.mem_map.mp (hperm.mem_iff.mpr (List.mem_map_of_mem hn))
  obtain ⟨w, hw, heq⟩ := hlookup m hm
  have hlookupn : y.lookup n.1 = some n.2 := lookup_of_mem hy hn
  rw [hkey, hlookupn] at hw
  cases hw
  exact ⟨m, hm, hkey, heq⟩

end Equality

end Doc

end Hippo.JsonText
