import Hippo.JsonRedaction

/-!
# What redaction of JSON hides

Two texts that differ in the value of one secret member are redacted alike, unless decoding drops
the member for a later one with the same key and nothing else is to be redacted: then the text
comes back as it is.
-/
namespace Hippo.JsonRedaction
open JsonText

variable {py : Python}

section Depth

theorem hasString_asDicts {s : List ℕ} (v : Doc) (h : (asDicts v).HasString s) :
    v.HasString s := by
  unfold asDicts at h
  induction v using Doc.induct with
  | scalar x => cases x <;> exact h
  | array items ih =>
    rw [Doc.rebuild_array] at h
    cases h with
    | item hmem h =>
      obtain ⟨v, hv, rfl⟩ := List.mem_map.mp hmem
      exact .item hv (ih v hv h)
  | object ms ih =>
    rw [Doc.rebuild_object] at h
    cases h with
    | key hmem =>
      obtain ⟨m, hm, heq⟩ := List.mem_map.mp (mem_dictOf hmem)
      cases heq
      exact .key hm
    | member hmem h =>
      obtain ⟨m, hm, rfl⟩ := List.mem_map.mp (mem_dictOf hmem)
      exact .member hm (ih m hm h)

/-- Redaction recurs on shorter texts only. -/
theorem shorter_of_decode {text s : List ℕ} {v : Doc} (h : decode py text = some v)
    (hs : v.HasString s) : s.length < text.length := by
  unfold decode at h
  split_ifs at h
  obtain ⟨raw, hraw, rfl⟩ := Option.map_eq_some_iff.mp h
  exact shorter_of_loads hraw (hasString_asDicts raw hs)

theorem redactWith_congr {leaf leaf' : List ℕ → List ℕ} {text : List ℕ}
    (h : ∀ s, s.length < text.length → leaf s = leaf' s) :
    redactWith py leaf text = redactWith py leaf' text := by
  unfold redactWith
  by_cases hempty : text = []
  · rw [if_pos hempty, if_pos hempty]
  rw [if_neg hempty, if_neg hempty]
  cases hdecode : (decode py text).filter isStructured with
  | none => rfl
  | some v =>
    have hv := (Option.filter_eq_some_iff.mp hdecode).1
    have hstate : redactStateWith leaf v = redactStateWith leaf' v :=
      @Doc.rebuild_congr (redaction leaf) (redaction leaf') rfl v fun s hs =>
        ⟨h s (shorter_of_decode hv hs), h s (shorter_of_decode hv hs)⟩
    simp only [hstate]

theorem redactUpTo_eq {n m : ℕ} {text : List ℕ} (hn : text.length < n) (hm : text.length < m) :
    redactUpTo py n text = redactUpTo py m text := by
  induction n generalizing m text with
  | zero => omega
  | succ n ih =>
    cases m with
    | zero => omega
    | succ m =>
      rw [redactUpTo, redactUpTo]
      exact redactWith_congr fun s hs => ih (by omega) (by omega)

theorem redact_eq (text : List ℕ) : redact py text = redactWith py (redact py) text := by
  rw [redact, redactUpTo]
  refine redactWith_congr fun s hs => ?_
  rw [redact]
  exact redactUpTo_eq hs (by omega)

end Depth

section Names

/-- A quote or an opening bracket stands in the text. -/
def HasOpener (text : List ℕ) : Prop := ∃ u ∈ openers, u ∈ text

theorem not_isSecretKey {key : List ℕ} (h : HasOpener key) : isSecretKey key = false := by
  rw [isSecretKey, decide_eq_false_iff_not]
  intro hrun
  obtain ⟨w, hw, haccepts⟩ := (Backtracking.Pattern.mem_run secretName).mp hrun
  obtain ⟨u, hu, hmem⟩ := h
  have hplain := within_secretName w [] haccepts (Char.ofNat u) (by
    rw [List.append_nil] at hw
    exact hw ▸ List.mem_map_of_mem hmem)
  simp only [openers, List.mem_cons, List.not_mem_nil, or_false] at hu
  rcases hu with rfl | rfl | rfl
  · exact hplain.2.1 rfl
  · exact hplain.1 rfl
  · exact hplain.2.2 rfl

theorem hasOpener_replacement : HasOpener replacement := ⟨0x5b, by decide, by decide⟩

theorem hasOpener_dumps {v : Doc} (h : isStructured v = true) : HasOpener (dumps py v) := by
  cases v with
  | scalar s =>
    cases s with
    | string s => exact ⟨0x22, by decide, List.mem_cons_self⟩
    | null | bool | number | constant => cases h
  | array items => exact ⟨0x5b, by decide, List.mem_cons_self⟩
  | object members => exact ⟨0x7b, by decide, List.mem_cons_self⟩

theorem isStructured_redactState {leaf : List ℕ → List ℕ} {v : Doc} (h : isStructured v = true) :
    isStructured (redactStateWith leaf v) = true := by
  cases v with
  | scalar s =>
    cases s with
    | string s => rfl
    | null | bool | number | constant => cases h
  | array items => rfl
  | object members => rfl

theorem substituted (h : py.Documented) (rs : List Regex) (text : List ℕ) :
    rs.foldl (fun text r => py.sub r replacement text) text = text ∨
      HasOpener (rs.foldl (fun text r => py.sub r replacement text) text) := by
  induction rs using List.reverseRecOn with
  | nil => exact Or.inl rfl
  | append_singleton rs r ih =>
    rw [List.foldl_append, List.foldl_cons, List.foldl_nil]
    rcases h r replacement (rs.foldl (fun text r => py.sub r replacement text) text) with
      hsame | ⟨pre, post, hsub⟩
    · rw [hsame]
      exact ih
    · obtain ⟨u, hu, hmem⟩ := hasOpener_replacement
      rw [hsub]
      exact Or.inr ⟨u, hu, by simp [hmem]⟩

/-- What redaction changes, it gives a quote or a bracket. -/
theorem redact_changes (h : py.Documented) (text : List ℕ) :
    redact py text = text ∨ HasOpener (redact py text) := by
  rw [redact_eq]
  unfold redactWith
  by_cases hempty : text = []
  · exact Or.inl (if_pos hempty)
  rw [if_neg hempty]
  cases hdecode : (decode py text).filter isStructured with
  | some v =>
    have hv := (Option.filter_eq_some_iff.mp hdecode).2
    dsimp only
    split_ifs
    · exact Or.inl rfl
    · exact Or.inr (hasOpener_dumps (isStructured_redactState hv))
  | none =>
    dsimp only
    split_ifs
    · exact Or.inr hasOpener_replacement
    · exact substituted h patterns text

/-- Only a secret name is redacted to one. -/
theorem isSecretKey_of_redact (h : py.Documented) {key : List ℕ}
    (hkey : isSecretKey (redact py key) = true) : isSecretKey key = true := by
  rcases redact_changes h key with hsame | hopener
  · rwa [hsame] at hkey
  · rw [not_isSecretKey hopener] at hkey
    cases hkey

end Names

section Exposure

theorem instead_secret {leaf : List ℕ → List ℕ} {key : List ℕ} (h : isSecretKey key = true) :
    (redaction leaf).instead key = some (.scalar (.string replacement)) := if_pos h

theorem instead_other {leaf : List ℕ → List ℕ} {key : List ℕ} (h : isSecretKey key = false) :
    (redaction leaf).instead key = none := if_neg (by simp [h])

/-- Somewhere a secret member has a string other than the marker. -/
inductive Exposed : Doc → Prop
  | here {ms : List (List ℕ × Doc)} {k s : List ℕ} (hmem : (k, .scalar (.string s)) ∈ ms)
    (hkey : isSecretKey k = true) (hs : s ≠ replacement) : Exposed (.object ms)
  | member {ms : List (List ℕ × Doc)} {m : List ℕ × Doc} (hmem : m ∈ ms) (h : Exposed m.2) :
    Exposed (.object ms)
  | item {items : List Doc} {v : Doc} (hmem : v ∈ items) (h : Exposed v) : Exposed (.array items)

/-- The value of a secret member goes as a whole. -/
theorem not_exposed_redactState (h : py.Documented) (v : Doc) : ¬ Exposed (redactState py v) := by
  unfold redactState redactStateWith
  induction v using Doc.induct with
  | scalar s =>
    cases s <;>
      · intro hexposed
        cases hexposed
  | array items ih =>
    rw [Doc.rebuild_array]
    intro hexposed
    cases hexposed with
    | item hmem hv =>
      obtain ⟨v, hitem, rfl⟩ := List.mem_map.mp hmem
      exact ih v hitem hv
  | object ms ih =>
    rw [Doc.rebuild_object]
    intro hexposed
    cases hexposed with
    | here hmem hkey hs =>
      obtain ⟨m, hm, heq⟩ := List.mem_map.mp (mem_dictOf hmem)
      obtain ⟨hname, hvalue⟩ := Prod.mk.inj heq
      have hsecret : isSecretKey m.1 = true := isSecretKey_of_redact h (by
        rw [show redact py m.1 = _ from hname]
        exact hkey)
      rw [instead_secret hsecret] at hvalue
      cases hvalue
      exact hs rfl
    | member hmem hv =>
      obtain ⟨m, hm, rfl⟩ := List.mem_map.mp (mem_dictOf hmem)
      cases hsecret : isSecretKey m.1 with
      | true =>
        rw [instead_secret hsecret] at hv
        cases hv
      | false =>
        rw [instead_other hsecret] at hv
        exact ih m hm hv

theorem eq_of_pyEq_string {v : Doc} {s : List ℕ}
    (h : Doc.pyEq py.numberEq v (.scalar (.string s)) = true) : v = .scalar (.string s) := by
  cases v with
  | scalar x =>
    cases x with
    | string x => rw [of_decide_eq_true (show decide (x = s) = true from h)]
    | null | bool | number | constant => cases h
  | array items => cases h
  | object members => cases h

/-- Values that compare as equal expose the same. -/
theorem exposed_of_pyEq {x y : Doc} (hx : x.KeysOnce) (hy : y.KeysOnce)
    (h : Doc.pyEq py.numberEq x y = true) (hexposed : Exposed y) : Exposed x := by
  induction hexposed generalizing x with
  | @here ms k s hmem hkey hs =>
    cases x with
    | object members =>
      cases hx with
      | object hnodup _ =>
        cases hy with
        | object hnodup' _ =>
          obtain ⟨m, hm, hname, heq⟩ := Doc.exists_member_of_pyEq hnodup hnodup' h hmem
          have hvalue := eq_of_pyEq_string heq
          obtain ⟨name, value⟩ := m
          subst hname hvalue
          exact .here hm hkey hs
    | scalar s => cases h
    | array items => cases h
  | @member ms m hmem _ ih =>
    cases x with
    | object members =>
      cases hx with
      | object hnodup hparts =>
        cases hy with
        | object hnodup' hparts' =>
          obtain ⟨n, hn, -, heq⟩ := Doc.exists_member_of_pyEq hnodup hnodup' h hmem
          exact .member hn (ih (hparts n hn) (hparts' m hmem) heq)
    | scalar s => cases h
    | array items => cases h
  | @item items v hmem _ ih =>
    cases x with
    | array others =>
      cases hx with
      | array hparts =>
        cases hy with
        | array hparts' =>
          obtain ⟨w, hw, heq⟩ := Doc.pyEq_array h v hmem
          exact .item hw (ih (hparts w hw) (hparts' v hmem) heq)
    | scalar s => cases h
    | object members => cases h

theorem keysOnce_asDicts (v : Doc) : (asDicts v).KeysOnce :=
  Doc.keysOnce_rebuild _ (fun _ _ h => by cases h) v

theorem keysOnce_redactState (v : Doc) : (redactState py v).KeysOnce := by
  refine Doc.keysOnce_rebuild _ (fun k w h => ?_) v
  unfold redaction at h
  dsimp only at h
  split_ifs at h
  cases h
  exact .scalar _

/-- What exposes a secret is not what redaction leaves. -/
theorem pyEq_eq_false (h : py.Documented) {v : Doc} (hkeys : v.KeysOnce) (hexposed : Exposed v) :
    Doc.pyEq py.numberEq (redactState py v) v = false := by
  rw [Bool.eq_false_iff]
  intro heq
  exact not_exposed_redactState h v (exposed_of_pyEq (keysOnce_redactState v) hkeys heq hexposed)

end Exposure

section Differing

/-- Documents that differ in the string of one secret member, which is the marker in neither. -/
inductive Differ : Doc → Doc → Prop
  | secret {k s s' : List ℕ} {pre post : List (List ℕ × Doc)} (hkey : isSecretKey k = true)
    (hne : s ≠ s') (hs : s ≠ replacement) (hs' : s' ≠ replacement) :
    Differ (.object (pre ++ (k, .scalar (.string s)) :: post))
      (.object (pre ++ (k, .scalar (.string s')) :: post))
  | member {k : List ℕ} {v w : Doc} {pre post : List (List ℕ × Doc)} (h : Differ v w) :
    Differ (.object (pre ++ (k, v) :: post)) (.object (pre ++ (k, w) :: post))
  | item {v w : Doc} {pre post : List Doc} (h : Differ v w) :
    Differ (.array (pre ++ v :: post)) (.array (pre ++ w :: post))

variable {v w : Doc}

theorem Differ.symm (h : Differ v w) : Differ w v := by
  induction h with
  | secret hkey hne hs hs' => exact .secret hkey hne.symm hs' hs
  | member _ ih => exact .member ih
  | item _ ih => exact .item ih

theorem Differ.ne (h : Differ v w) : v ≠ w := by
  induction h with
  | secret hkey hne hs hs' => simpa using hne
  | member _ ih => simpa using ih
  | item _ ih => simpa using ih

theorem Differ.exposed (h : Differ v w) : Exposed v := by
  induction h with
  | secret hkey hne hs hs' => exact .here (by simp) hkey hs
  | member _ ih => exact .member (List.mem_append_right _ List.mem_cons_self) ih
  | item _ ih => exact .item (List.mem_append_right _ List.mem_cons_self) ih

/-- A member is dropped by decoding whatever its value is, or it stays with its decoded value. -/
theorem asDicts_hole (k : List ℕ) (pre post : List (List ℕ × Doc)) :
    (∀ v w, asDicts (.object (pre ++ (k, v) :: post)) =
      asDicts (.object (pre ++ (k, w) :: post))) ∨
    ∃ p q, ∀ v, asDicts (.object (pre ++ (k, v) :: post)) =
      .object (p ++ (k, asDicts v) :: q) := by
  have hobject : ∀ v, asDicts (.object (pre ++ (k, v) :: post)) = .object (dictOf
      (Doc.rebuilt ⟨id, id, fun _ => none⟩ pre ++ (k, asDicts v) ::
        Doc.rebuilt ⟨id, id, fun _ => none⟩ post)) := by
    intro v
    simp only [JsonRedaction.asDicts, Doc.rebuild_object, Doc.rebuilt, List.map_append,
      List.map_cons, id_eq, Option.getD_none]
  rcases dictOf_hole k (Doc.rebuilt ⟨id, id, fun _ => none⟩ pre)
    (Doc.rebuilt ⟨id, id, fun _ => none⟩ post) with hsame | ⟨p, q, hhole⟩
  · exact Or.inl fun v w => by rw [hobject, hobject, hsame]
  · exact Or.inr ⟨p, q, fun v => by rw [hobject, hhole]⟩

/-- The member is dropped by decoding, or the decoded values differ in it. -/
theorem Differ.asDicts (h : Differ v w) :
    asDicts v = asDicts w ∨ Differ (asDicts v) (asDicts w) := by
  induction h with
  | @secret k s s' pre post hkey hne hs hs' =>
    rcases asDicts_hole k pre post with hsame | ⟨p, q, hhole⟩
    · exact Or.inl (hsame _ _)
    · rw [hhole, hhole]
      exact Or.inr (.secret hkey hne hs hs')
  | @member k v w pre post _ ih =>
    rcases asDicts_hole k pre post with hsame | ⟨p, q, hhole⟩
    · exact Or.inl (hsame _ _)
    · rw [hhole, hhole]
      rcases ih with hequal | hdiffer
      · exact Or.inl (by rw [hequal])
      · exact Or.inr (.member hdiffer)
  | @item v w pre post _ ih =>
    simp only [JsonRedaction.asDicts, Doc.rebuild_array, List.map_append, List.map_cons] at ih ⊢
    rcases ih with hequal | hdiffer
    · exact Or.inl (by rw [hequal])
    · exact Or.inr (.item hdiffer)

theorem Differ.redactState (h : Differ v w) : redactState py v = redactState py w := by
  unfold JsonRedaction.redactState redactStateWith
  induction h with
  | secret hkey hne hs hs' =>
    simp only [Doc.rebuild_object, Doc.rebuilt, List.map_append, List.map_cons,
      instead_secret hkey, Option.getD_some]
  | member _ ih => simp only [Doc.rebuild_object, Doc.rebuilt, List.map_append, List.map_cons, ih]
  | item _ ih => simp only [Doc.rebuild_array, List.map_append, List.map_cons, ih]

end Differing

section Hiding

variable {text text' : List ℕ} {raw raw' : Doc}

theorem eq_toNat_of_ofNat {u : ℕ} {c : Char} (hc : c.toNat ≠ 0) (h : Char.ofNat u = c) :
    u = c.toNat := by
  by_cases hvalid : u.isValidChar
  · have hchar : Char.ofNat u = Char.ofNatAux u hvalid := dif_pos hvalid
    rw [← h, hchar]
    rfl
  · have hzero : (Char.ofNat u).toNat = 0 := congrArg Char.toNat (dif_neg hvalid)
    rw [h] at hzero
    exact absurd hzero hc

theorem opens_of_loads (hraw : loads py.accept py.limit text = some raw)
    (hcontainer : ∀ x, raw ≠ .scalar x) : opens text = true := by
  obtain ⟨spaces, u, rest, rfl, hspaces, hu⟩ := bracket_of_loads hcontainer hraw
  have hspace : ∀ u ∈ spaces, PyText.isSpace (Char.ofNat u) = true := by
    intro u hu
    have hjson := hspaces u hu
    simp only [isSpace, Bool.decide_or, Bool.or_eq_true, decide_eq_true_eq] at hjson
    rcases hjson with hjson | hjson | hjson | hjson <;>
      · rw [hjson]
        decide
  rcases hu with hu | hu
  · obtain rfl := eq_toNat_of_ofNat (by decide) hu
    rw [opens, List.dropWhile_append_of_pos hspace]
    rfl
  · obtain rfl := eq_toNat_of_ofNat (by decide) hu
    rw [opens, List.dropWhile_append_of_pos hspace]
    rfl

/-- A container comes back as it is, or its redacted value is written. -/
theorem redact_container (hraw : loads py.accept py.limit text = some raw)
    (hcontainer : ∀ x, raw ≠ .scalar x) :
    redact py text =
      if Doc.pyEq py.numberEq (redactState py (asDicts raw)) (asDicts raw) then text
      else dumps py (redactState py (asDicts raw)) := by
  have hopens := opens_of_loads hraw hcontainer
  have hne : text ≠ [] := by
    rintro rfl
    cases hopens
  have hdecode : decode py text = some (asDicts raw) := by
    rw [decode, if_pos hopens, hraw]
    rfl
  have hstructured : isStructured (asDicts raw) = true := by
    cases raw with
    | scalar x => exact absurd rfl (hcontainer x)
    | array items => rfl
    | object members => rfl
  rw [redact_eq, redactWith, if_neg hne, hdecode]
  simp only [Option.filter_some, hstructured, if_true]
  rfl

theorem Differ.container (h : Differ raw raw') (x : Scalar) : raw ≠ .scalar x := by
  cases h <;> simp

theorem indexText_eq (h : redact py text = redact py text') (n : ℕ) :
    indexText py n text = indexText py n text' := by
  cases n with
  | zero => rfl
  | succ n => rw [indexText, indexText, h]

/-- An engine for texts in which no pattern matches. -/
def plainEngine : Python where
  search _ _ := false
  sub _ _ text := text
  numberText _ := ""
  numberEq a b := a = b
  accept _ := true
  limit := some 1000

end Hiding

end Hippo.JsonRedaction
