import Hippo.PauseState

/-!
# Where the two readers of the pause state agree

Both readers take the same documents: an object with the two fields, each once. Each of them has
its own exceptions. Python refuses repeated keys and long integers anywhere, and gives up on deep
nesting; `serde_json` refuses lone surrogates in keys, `NaN`, infinities and `-0`, and reads an
array of the two fields.
-/
namespace Hippo.PauseState

open JsonText

section Fields

/-- The values of a key, as often as it occurs. -/
def valuesOf (key : List ℕ) (members : List (List ℕ × Doc)) : List Doc :=
  (members.filter fun m => m.1 = key).map Prod.snd

/-- The two fields of an object that has each of them once, a boolean and an integer. -/
def stated : Doc → Option (Bool × Number)
  | .object members =>
    match valuesOf pausedKey members, valuesOf changedKey members with
    | [.scalar (.bool paused)], [.scalar (.number changed)] =>
      if changed.integral = true ∧ InI64 (intOf changed) then some (paused, changed) else none
    | _, _ => none
  | _ => none

def isNegativeZero (n : Number) : Bool := n.negative && n.value = 0

/-- The object has no key and no other value that `serde_json` refuses. -/
def isPlain : Doc → Bool
  | .object members => members.all fun m => !hasSurrogate m.1 && m.2.all isJson
  | _ => false

/-- An array of the two fields. -/
def isPair (v : Doc) : Prop :=
  ∃ paused changed, v = .array [.scalar (.bool paused), .scalar (.number changed)] ∧
    changed.integral = true ∧ InI64 (intOf changed) ∧ isNegativeZero changed = false

/-- The text is not nested too deep for Python, it spells no array of the two fields, and if it
states them in an object, then it has a repeated key or a long integer exactly when it has a key
with a lone surrogate, a constant that is no JSON or the time `-0`. -/
def SameMeaning (limits : PyLimits) (text : List Char) : Prop :=
  nesting (pyAccepts limits) text ≤ limits.depth ∧ ∀ v, read text = some v → ¬ isPair v ∧
    ∀ paused changed, stated v = some (paused, changed) →
      (v.all (pyAccepts limits) = true ↔ isPlain v = true ∧ isNegativeZero changed = false)

/-- Python returns, and both readers say the same about the pause and its time. -/
def Agree (fromStr : String → Except String EnrichmentState) (limits : PyLimits)
    (file : FileRead) : Prop :=
  ∃ py, pyReadState limits file = .ok py ∧ (readState fromStr file).isPaused = py.paused ∧
    (readState fromStr file).changedAtMs = py.changedAtMs

end Fields

section PythonFields

variable {limits : PyLimits} {members : List (List ℕ × Doc)} {key : List ℕ}

theorem valuesOf_cons (m : List ℕ × Doc) :
    valuesOf key (m :: members) = if m.1 = key then m.2 :: valuesOf key members
      else valuesOf key members := by
  unfold valuesOf
  by_cases h : m.1 = key
  · simp [h]
  · simp [h]

/-- With no key twice, `dict.get` finds what the object says. -/
theorem valuesOf_of_nodup (h : (members.map Prod.fst).Nodup) (key : List ℕ) :
    valuesOf key members = (members.lookup key).toList := by
  induction members with
  | nil => rfl
  | cons m members ih =>
    rw [List.map_cons, List.nodup_cons] at h
    rw [valuesOf_cons, List.lookup_cons]
    by_cases hm : m.1 = key
    · have hrest : members.lookup key = none := by
        rw [List.lookup_eq_none_iff]
        intro p hp
        rw [bne_iff_ne]
        rintro rfl
        exact h.1 (hm ▸ List.mem_map_of_mem hp)
      subst hm
      simp [ih h.2, hrest]
    · have hne : (key == m.1) = false := by
        simp [Ne.symm hm]
      simp [ih h.2, hm, hne]

/-- Python reads the fields of a document it takes. -/
theorem ofData_eq {v : Doc} (h : v.all (pyAccepts limits) = true) :
    ofData v = match stated v with
      | some (paused, changed) =>
        { paused := paused, changedAtMs := some (intOf changed), valid := true }
      | none => invalid := by
  cases v with
  | scalar s => rfl
  | array items => rfl
  | object members =>
    have hnodup : (members.map Prod.fst).Nodup := by
      simpa [pyAccepts] using (Doc.all_iff.mp h).1
    simp only [ofData, getKey, stated, valuesOf_of_nodup hnodup]
    generalize members.lookup pausedKey = x
    generalize members.lookup changedKey = y
    split
    · rename_i paused changed
      simp only [Option.toList_some]
      split
      · rfl
      · rfl
    · rename_i hshape
      split
      · rename_i heq
        split at heq
        · rename_i paused changed hx hy
          rw [Option.toList_eq_singleton_iff] at hx hy
          exact absurd hy (hshape _ _ hx)
        · cases heq
      · rfl

end PythonFields

section RustFields

variable {members : List (List ℕ × Doc)} {key : List ℕ}

/-- The field is set already and does not occur, or it is not set and occurs once. -/
def FieldIs {α : Type} (get : Doc → Option α) (old : Option α) (found : List Doc) (a : α) : Prop :=
  match old with
  | some x => found = [] ∧ x = a
  | none => ∃ v, found = [v] ∧ get v = some a

theorem fieldIs_cons {α : Type} {get : Doc → Option α} {old : Option α} {v : Doc}
    {found : List Doc} {a : α} :
    FieldIs get old (v :: found) a ↔
      old = none ∧ ∃ x, get v = some x ∧ FieldIs get (some x) found a := by
  cases old with
  | some x => simp [FieldIs]
  | none =>
    simp only [FieldIs, List.cons.injEq, true_and]
    constructor
    · rintro ⟨w, ⟨rfl, hfound⟩, hw⟩
      exact ⟨a, hw, hfound, rfl⟩
    · rintro ⟨x, hx, hfound, rfl⟩
      exact ⟨v, ⟨rfl, hfound⟩, hx⟩

/-- The key can be decoded, and what is skipped is JSON. -/
def Skippable (m : List ℕ × Doc) : Prop :=
  hasSurrogate m.1 = false ∧
    (m.1 ≠ pausedKey → m.1 ≠ changedKey → m.2.all isJson = true)

theorem visitMap_cons (m : List ℕ × Doc) (paused : Option Bool) (changed : Option ℤ) :
    visitMap (m :: members) paused changed =
      if hasSurrogate m.1 then none
      else if m.1 = pausedKey then
        match paused, bool? m.2 with
        | none, some b => visitMap members (some b) changed
        | _, _ => none
      else if m.1 = changedKey then
        match changed, i64? m.2 with
        | none, some i => visitMap members paused (some i)
        | _, _ => none
      else if m.2.all isJson then visitMap members paused changed
      else none := rfl

theorem visitMap_eq_some {paused : Option Bool} {changed : Option ℤ} {a : Bool} {b : ℤ} :
    visitMap members paused changed = some ⟨a, b⟩ ↔
      (∀ m ∈ members, Skippable m) ∧ FieldIs bool? paused (valuesOf pausedKey members) a ∧
        FieldIs i64? changed (valuesOf changedKey members) b := by
  have hkeys : changedKey ≠ pausedKey := by decide
  induction members generalizing paused changed with
  | nil =>
    cases paused with
    | none => simp [visitMap, FieldIs, valuesOf]
    | some p =>
      cases changed with
      | none => simp [visitMap, FieldIs, valuesOf]
      | some c => simp [visitMap, FieldIs, valuesOf]
  | cons m members ih =>
    obtain ⟨k, v⟩ := m
    rw [visitMap_cons, List.forall_mem_cons, valuesOf_cons, valuesOf_cons]
    by_cases hsurrogate : hasSurrogate k = true
    · simp [hsurrogate, Skippable]
    · rw [if_neg hsurrogate]
      by_cases hp : k = pausedKey
      · have hskip : Skippable (k, v) := ⟨by simpa using hsurrogate, fun hne => absurd hp hne⟩
        have hc : k ≠ changedKey := fun hc => hkeys (hc.symm.trans hp)
        rw [if_pos hp, if_pos hp, if_neg hc, fieldIs_cons]
        cases paused with
        | some p => simp
        | none =>
          cases hv : bool? v with
          | none => simp
          | some x => simp only [ih, hskip, true_and, Option.some.injEq, exists_eq_left']
      · rw [if_neg hp, if_neg hp]
        by_cases hc : k = changedKey
        · have hskip : Skippable (k, v) := ⟨by simpa using hsurrogate, fun _ hne => absurd hc hne⟩
          rw [if_pos hc, if_pos hc, fieldIs_cons]
          cases changed with
          | some c => simp
          | none =>
            cases hv : i64? v with
            | none => simp
            | some x => simp only [ih, hskip, true_and, Option.some.injEq, exists_eq_left']
        · rw [if_neg hc, if_neg hc]
          by_cases hjson : v.all isJson = true
          · have hskip : Skippable (k, v) := ⟨by simpa using hsurrogate, fun _ _ => hjson⟩
            rw [if_pos hjson]
            simp only [hskip, true_and]
            exact ih
          · simp [Skippable, hp, hc, hjson]

theorem bool?_eq_some {v : Doc} {a : Bool} : bool? v = some a ↔ v = .scalar (.bool a) := by
  constructor
  · intro h
    unfold bool? at h
    split at h
    · cases h
      rfl
    · cases h
  · rintro rfl
    rfl

theorem i64?_eq_some {v : Doc} {i : ℤ} :
    i64? v = some i ↔ ∃ n, v = .scalar (.number n) ∧ n.integral = true ∧
      isNegativeZero n = false ∧ InI64 (intOf n) ∧ intOf n = i := by
  constructor
  · intro h
    unfold i64? at h
    split at h
    · rename_i n
      split at h
      · rename_i hn
        obtain ⟨hint, hzero, hrange⟩ := hn
        exact ⟨n, rfl, hint, by simpa [isNegativeZero] using hzero, hrange, by simpa using h⟩
      · cases h
    · cases h
  · rintro ⟨n, rfl, hint, hzero, hrange, rfl⟩
    exact if_pos ⟨hint, by simpa [isNegativeZero] using hzero, hrange⟩

theorem stated_eq_some {paused : Bool} {changed : Number} :
    stated (.object members) = some (paused, changed) ↔
      valuesOf pausedKey members = [.scalar (.bool paused)] ∧
        valuesOf changedKey members = [.scalar (.number changed)] ∧
        changed.integral = true ∧ InI64 (intOf changed) := by
  constructor
  · intro h
    simp only [stated] at h
    split at h
    · rename_i p n hp hn
      split at h
      · rename_i hok
        cases h
        exact ⟨hp, hn, hok⟩
      · cases h
    · cases h
  · rintro ⟨hp, hn, hok⟩
    simp only [stated, hp, hn]
    exact if_pos hok

theorem mem_valuesOf {m : List ℕ × Doc} (h : m ∈ members) : m.2 ∈ valuesOf m.1 members :=
  List.mem_map.mpr ⟨m, List.mem_filter.mpr ⟨h, by simp⟩, rfl⟩

/-- `serde_json` reads the fields of an object it does not refuse. -/
theorem deserialize_object {a : Bool} {i : ℤ} :
    deserialize (.object members) = some ⟨a, i⟩ ↔
      ∃ n, stated (.object members) = some (a, n) ∧ isPlain (.object members) = true ∧
        isNegativeZero n = false ∧ intOf n = i := by
  rw [deserialize, visitMap_eq_some]
  simp only [FieldIs, bool?_eq_some, i64?_eq_some, stated_eq_some]
  constructor
  · rintro ⟨hskip, ⟨v, hv, rfl⟩, w, hw, n, rfl, hint, hzero, hrange, hi⟩
    refine ⟨n, ⟨hv, hw, hint, hrange⟩, ?_, hzero, hi⟩
    simp only [isPlain, List.all_eq_true, Bool.and_eq_true, Bool.not_eq_true']
    intro m hm
    refine ⟨(hskip m hm).1, ?_⟩
    have hmem := mem_valuesOf hm
    by_cases hp : m.1 = pausedKey
    · rw [hp, hv, List.mem_singleton] at hmem
      rw [hmem]
      rfl
    · by_cases hc : m.1 = changedKey
      · rw [hc, hw, List.mem_singleton] at hmem
        rw [hmem]
        rfl
      · exact (hskip m hm).2 hp hc
  · rintro ⟨n, ⟨hv, hw, hint, hrange⟩, hplain, hzero, hi⟩
    simp only [isPlain, List.all_eq_true, Bool.and_eq_true, Bool.not_eq_true'] at hplain
    exact ⟨fun m hm => ⟨(hplain m hm).1, fun _ _ => (hplain m hm).2⟩, ⟨_, hv, rfl⟩,
      _, hw, n, rfl, hint, hzero, hrange, hi⟩

/-- It reads an array exactly if that holds the two fields. -/
theorem deserialize_array {items : List Doc} :
    (∃ s, deserialize (.array items) = some s) ↔ isPair (.array items) := by
  constructor
  · rintro ⟨s, hs⟩
    rcases items with _ | ⟨v, _ | ⟨w, _ | ⟨x, rest⟩⟩⟩
    · cases hs
    · cases hs
    · obtain ⟨a, ha, hs⟩ := Option.bind_eq_some_iff.mp hs
      obtain ⟨i, hi, -⟩ := Option.bind_eq_some_iff.mp hs
      obtain ⟨n, rfl, hint, hzero, hrange, -⟩ := i64?_eq_some.mp hi
      rw [bool?_eq_some.mp ha]
      exact ⟨a, n, rfl, hint, hrange, hzero⟩
    · cases hs
  · rintro ⟨a, n, heq, hint, hrange, hzero⟩
    rw [heq]
    have hi : i64? (.scalar (.number n)) = some (intOf n) :=
      i64?_eq_some.mpr ⟨n, rfl, hint, hzero, hrange, rfl⟩
    exact ⟨⟨a, intOf n⟩, by simp [deserialize, bool?, hi]⟩

end RustFields

section Agreement

variable {fromStr : String → Except String EnrichmentState} {limits : PyLimits}

/-- What a reader makes of a document it may refuse. -/
def outcome (s : Option EnrichmentState) : Bool × Option ℤ :=
  match s with
  | some s => (s.paused, some s.changedAtMs)
  | none => (true, none)

/-- What Python reads from a document, when it takes it. -/
def pyRead (limits : PyLimits) (v : Doc) : Option EnrichmentState :=
  if v.all (pyAccepts limits) then (stated v).map fun s => ⟨s.1, intOf s.2⟩ else none

theorem readState_eq (hserde : Documented fromStr) {content : ByteArray} {text : String}
    (htext : String.fromUTF8? content = some text) :
    ((readState fromStr (.bytes content)).isPaused,
      (readState fromStr (.bytes content)).changedAtMs) =
        outcome ((read text.toList).bind deserialize) := by
  rw [← hserde text]
  simp only [readState, htext]
  cases fromStr text with
  | ok s => rfl
  | error e => rfl

/-- Python gives up on a text that is nested too deep. -/
theorem pyReadState_error {content : ByteArray} {text : String}
    (htext : String.fromUTF8? content = some text)
    (hdepth : ¬ nesting (pyAccepts limits) text.toList ≤ limits.depth) :
    pyReadState limits (.bytes content) = .error {} := by
  simp only [pyReadState, htext, decode_universalNewlines, decode_limit]
  rw [if_neg hdepth]

theorem pyReadState_ok {content : ByteArray} {text : String}
    (htext : String.fromUTF8? content = some text)
    (hdepth : nesting (pyAccepts limits) text.toList ≤ limits.depth) :
    ∃ py, pyReadState limits (.bytes content) = .ok py ∧
      (py.paused, py.changedAtMs) = outcome ((read text.toList).bind (pyRead limits)) := by
  simp only [pyReadState, htext, decode_universalNewlines, decode_limit]
  rw [if_pos hdepth]
  cases hdecode : decode (pyAccepts limits) none text.toList with
  | ok v =>
    obtain ⟨hread, hall⟩ := decode_accept.mp hdecode
    refine ⟨_, rfl, ?_⟩
    rw [ofData_eq hall, hread, Option.bind_some, pyRead, if_pos hall]
    cases stated v with
    | none => rfl
    | some s => rfl
  | error e =>
    cases e with
    | tooDeep => exact absurd hdecode decode_ne_tooDeep
    | invalid =>
      have hnone : (read text.toList).bind (pyRead limits) = none := by
        rw [Option.bind_eq_none_iff]
        intro v hread
        have hall : ¬ v.all (pyAccepts limits) = true := by
          intro hall
          rw [decode_accept.mpr ⟨hread, hall⟩] at hdecode
          cases hdecode
        exact if_neg hall
      exact ⟨invalid, rfl, by rw [hnone]; rfl⟩

/-- Two outcomes are the same when neither document is refused, or both are. -/
theorem outcome_inj {s t : Option EnrichmentState} : outcome s = outcome t ↔ s = t := by
  constructor
  · intro h
    cases s with
    | none =>
      cases t with
      | none => rfl
      | some t => simp [outcome] at h
    | some s =>
      cases t with
      | none => simp [outcome] at h
      | some t =>
        obtain ⟨p, c⟩ := s
        obtain ⟨p', c'⟩ := t
        simpa [outcome] using h
  · rintro rfl
    rfl

/-- The two readers take the same document from a text that Python gets through. -/
theorem reads_eq_iff {v : Doc} :
    deserialize v = pyRead limits v ↔ ¬ isPair v ∧
      ∀ paused changed, stated v = some (paused, changed) →
        (v.all (pyAccepts limits) = true ↔ isPlain v = true ∧ isNegativeZero changed = false) := by
  cases v with
  | scalar s =>
    have hread : deserialize (.scalar s) = pyRead limits (.scalar s) := by
      simp [deserialize, pyRead, stated]
    refine iff_of_true hread ⟨?_, ?_⟩
    · rintro ⟨p, n, heq, -⟩
      cases heq
    · intro p n h
      cases h
  | array items =>
    have hpy : pyRead limits (.array items) = none := by
      simp [pyRead, stated]
    rw [hpy, ← deserialize_array]
    constructor
    · intro hnone
      refine ⟨?_, ?_⟩
      · rintro ⟨s, hs⟩
        rw [hnone] at hs
        cases hs
      · intro p n h
        cases h
    · rintro ⟨hnot, -⟩
      rw [Option.eq_none_iff_forall_ne_some]
      exact fun s hs => hnot ⟨s, hs⟩
  | object members =>
    have hpair : ¬ isPair (.object members) := by
      rintro ⟨p, n, heq, -⟩
      cases heq
    have hrust : ∀ s, deserialize (.object members) = some s ↔
        ∃ n, stated (.object members) = some (s.paused, n) ∧ isPlain (.object members) = true ∧
          isNegativeZero n = false ∧ intOf n = s.changedAtMs := fun s => deserialize_object
    simp only [hpair, not_false_eq_true, true_and]
    cases hstated : stated (.object members) with
    | none =>
      have hnone : deserialize (.object members) = none := by
        rw [Option.eq_none_iff_forall_ne_some]
        intro s hs
        obtain ⟨n, hn, -⟩ := (hrust s).mp hs
        rw [hstated] at hn
        cases hn
      simp [hnone, pyRead, hstated]
    | some f =>
      obtain ⟨p, n⟩ := f
      have hserde : deserialize (.object members) =
          if isPlain (.object members) = true ∧ isNegativeZero n = false then
            some ⟨p, intOf n⟩
          else none := by
        split
        · rename_i hok
          exact (hrust _).mpr ⟨n, hstated, hok.1, hok.2, rfl⟩
        · rename_i hnot
          rw [Option.eq_none_iff_forall_ne_some]
          intro s hs
          obtain ⟨n', hn, hplain, hzero, -⟩ := (hrust s).mp hs
          rw [hstated] at hn
          cases hn
          exact hnot ⟨hplain, hzero⟩
      have hfields : (∀ p' n', some (p, n) = some (p', n') →
          (Doc.all (pyAccepts limits) (.object members) = true ↔
            isPlain (.object members) = true ∧ isNegativeZero n' = false)) ↔
          (Doc.all (pyAccepts limits) (.object members) = true ↔
            isPlain (.object members) = true ∧ isNegativeZero n = false) := by
        constructor
        · intro h
          exact h p n rfl
        · rintro h p' n' heq
          cases heq
          exact h
      rw [hfields, hserde, pyRead, hstated]
      by_cases hrustOk : isPlain (.object members) = true ∧ isNegativeZero n = false
      · by_cases hpy : Doc.all (pyAccepts limits) (.object members) = true
        · simp [hrustOk, hpy]
        · simp [hrustOk, hpy]
      · by_cases hpy : Doc.all (pyAccepts limits) (.object members) = true
        · simp [hrustOk, hpy]
        · simp [hrustOk, hpy]

end Agreement

section Files

/-- `serde_json::from_str` with one text for all its errors. -/
def serdeFromStr (text : String) : Except String EnrichmentState :=
  match (read text.toList).bind deserialize with
  | some s => .ok s
  | none => .error "invalid"

theorem documented_serdeFromStr : Documented serdeFromStr := by
  intro text
  unfold serdeFromStr
  cases (read text.toList).bind deserialize with
  | none => rfl
  | some s => rfl

/-- The file with this text. -/
def fileOf (text : String) : FileRead := .bytes text.toUTF8

theorem fromUTF8_toUTF8 (text : String) : String.fromUTF8? text.toUTF8 = some text := by
  rw [String.fromUTF8?, String.toUTF8_eq_toByteArray, dif_pos text.isValidUTF8]
  rfl

theorem readState_fileOf (text : String) :
    (readState serdeFromStr (fileOf text)).isPaused =
      (outcome ((read text.toList).bind deserialize)).1 :=
  congrArg Prod.fst (readState_eq documented_serdeFromStr (fromUTF8_toUTF8 text))

theorem pyReadState_fileOf (limits : PyLimits) (text : String) :
    pyReadState limits (fileOf text) =
      match decode (pyAccepts limits) (some limits.depth) (universalNewlines text.toList) with
      | .ok data => .ok (ofData data)
      | .error .invalid => .ok invalid
      | .error .tooDeep => .error {} := by
  have htext := fromUTF8_toUTF8 text
  unfold pyReadState fileOf
  cases hdecode : decode (pyAccepts limits) (some limits.depth)
    (universalNewlines text.toList) with
  | ok data => simp only [htext, hdecode]
  | error e => cases e <;> simp only [htext, hdecode]

/-- Enough brackets make the reader of the brain raise, whatever the limit. -/
theorem pyReadState_brackets (limits : PyLimits) {n : ℕ} (h : limits.depth < n) :
    pyReadState limits (fileOf (String.ofList (List.replicate n '['))) = .error {} := by
  refine pyReadState_error (fromUTF8_toUTF8 _) ?_
  rw [String.toList_ofList, nesting_brackets]
  omega

end Files

end Hippo.PauseState
