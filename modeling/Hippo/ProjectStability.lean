import Hippo.ProjectFilter
import Hippo.Words
import Mathlib.Data.List.TakeWhile

/-!
# Stability of project names

Whether a stored name is the canonical name of itself decides whether queries find its project.
-/
namespace Hippo.ProjectName
open Words

section Fixed

/-- `str.lower` gives only characters that it keeps, and keeps a text of such characters. -/
structure Lowering (lower : String → String) : Prop where
  fixed : ∀ s, ∀ c ∈ (lower s).toList, lower (String.singleton c) = String.singleton c
  space : lower (String.singleton ' ') = String.singleton ' '
  same : ∀ s, (∀ c ∈ s.toList, lower (String.singleton c) = String.singleton c) → lower s = s

/-- What every normalized name is like. -/
structure NameChars (lower : String → String) (cs : List Char) : Prop where
  lowered : ∀ c ∈ cs, lower (String.singleton c) = String.singleton c
  noSlash : '/' ∉ cs
  joined : joinWords cs = cs

variable {lower : String → String} {aliases : Aliases} {name : String}

theorem joinWords_eq (s : List Char) : joinWords s = unwords ' ' (words PyText.isSpace s) := rfl

theorem joinWords_joinWords (s : List Char) : joinWords (joinWords s) = joinWords s := by
  rw [joinWords_eq, joinWords_eq, words_unwords (by decide) (areWords_words _ _)]

theorem mem_joinWords {c : Char} {s : List Char} (h : c ∈ joinWords s) : c = ' ' ∨ c ∈ s := by
  rw [joinWords_eq] at h
  exact (mem_unwords h).imp_right fun ⟨_, hw, hc⟩ => mem_of_mem_words hw hc

theorem length_joinWords_le (s : List Char) : (joinWords s).length ≤ s.length := by
  rw [joinWords_eq]
  exact length_unwords_words_le _ _ _

theorem dropWhile_of_head? {p : Char → Bool} {s : List Char} (h : ∀ c ∈ s.head?, p c = false) :
    s.dropWhile p = s := by
  cases s with
  | nil => rfl
  | cons c s => rw [List.dropWhile_cons, h c rfl, if_neg Bool.false_ne_true]

theorem strip_of_joined (h : joinWords name.toList = name.toList) : PyText.strip name = name := by
  have hwords := areWords_words PyText.isSpace name.toList
  have hfront : name.toList.dropWhile PyText.isSpace = name.toList := by
    refine dropWhile_of_head? fun c hc => ?_
    rw [← h, joinWords_eq] at hc
    exact head?_unwords hwords c hc
  have hback : name.toList.reverse.dropWhile PyText.isSpace = name.toList.reverse := by
    refine dropWhile_of_head? fun c hc => ?_
    rw [List.head?_reverse, ← h, joinWords_eq] at hc
    exact getLast?_unwords hwords c hc
  rw [PyText.strip, hfront, hback, List.reverse_reverse, String.ofList_toList]

theorem worktreeRest_of_no_slash {s : List Char} (h : '/' ∉ s) : worktreeRest s = none := by
  refine if_neg fun hmarker => h ?_
  exact (List.isPrefixOf_iff_prefix.mp hmarker).subset (by decide)

theorem subWorktrees_of_no_slash (n : ℕ) (start : Bool) {s : List Char} (h : '/' ∉ s) :
    subWorktrees n start s = s := by
  induction n generalizing start s with
  | zero => rfl
  | succ n ih =>
    cases s with
    | nil => rfl
    | cons c s =>
      have hc : c ≠ '/' := fun hc => h (hc ▸ List.mem_cons_self)
      have hs : '/' ∉ s := fun hs => h (List.mem_cons_of_mem _ hs)
      simp only [subWorktrees, worktreeRest_of_no_slash h, if_neg hc, ite_self, Option.map_none]
      simp [ih false hs]

theorem stripWorktreePrefix_of_no_slash {s : List Char} (h : '/' ∉ s) :
    stripWorktreePrefix s = s := by
  simp [stripWorktreePrefix, stripPasses, subWorktrees_of_no_slash _ _ h]

/-- A normalized name loses a `.git` and leading dots only. -/
theorem normalize_name (hl : Lowering lower) (h : NameChars lower name.toList) :
    normalize lower false name =
      String.ofList (joinWords ((removeSuffix ".git".toList name.toList).dropWhile (· = '.'))) := by
  have htrimmed : name.toList.reverse.dropWhile (· = '/') = name.toList.reverse := by
    refine dropWhile_of_head? fun c hc => ?_
    rw [List.head?_reverse] at hc
    exact decide_eq_false fun hslash => h.noSlash (hslash ▸ List.mem_of_getLast? hc)
  have hhead : name.toList.head? ≠ some '/' := fun hc => h.noSlash (List.mem_of_head? hc)
  simp only [normalize, strip_of_joined h.joined, hl.same name h.lowered, htrimmed,
    List.reverse_reverse, stripWorktreePrefix_of_no_slash h.noSlash, Bool.false_eq_true,
    false_or, if_neg hhead, if_neg h.noSlash]

theorem removeSuffix_of_not {suffix s : List Char} (h : ¬ suffix <:+ s) :
    removeSuffix suffix s = s := by
  rw [removeSuffix, if_neg fun hsuffix => h (List.isSuffixOf_iff_suffix.mp hsuffix)]

theorem length_removeSuffix {suffix s : List Char} (h : suffix <:+ s) :
    (removeSuffix suffix s).length + suffix.length = s.length := by
  have hle := h.length_le
  rw [removeSuffix, if_pos (List.isSuffixOf_iff_suffix.mpr h), List.length_take]
  omega

theorem length_dropWhile_lt {p : Char → Bool} {s : List Char} (h : ∃ c ∈ s.head?, p c = true) :
    (s.dropWhile p).length < s.length := by
  obtain ⟨c, hc, hp⟩ := h
  cases s with
  | nil => cases hc
  | cons d s =>
    obtain rfl : d = c := Option.some.inj hc
    have hle := (List.dropWhile_sublist (l := s) p).length_le
    rw [List.dropWhile_cons, if_pos hp, List.length_cons]
    omega

/-- A normalized name is normalized again exactly if it has no `.git` and no dot to lose. -/
theorem normalize_eq_self_iff (hl : Lowering lower) (h : NameChars lower name.toList) :
    normalize lower false name = name ↔
      ¬ ".git".toList <:+ name.toList ∧ name.toList.head? ≠ some '.' := by
  rw [normalize_name hl h]
  constructor
  · intro heq
    have hsame : joinWords ((removeSuffix ".git".toList name.toList).dropWhile (· = '.')) =
        name.toList := by
      rw [← String.toList_ofList (l := joinWords _)]
      exact congrArg String.toList heq
    have hjoin := length_joinWords_le
      ((removeSuffix ".git".toList name.toList).dropWhile (· = '.'))
    have hdots := (List.dropWhile_sublist (l := removeSuffix ".git".toList name.toList)
      (· = '.')).length_le
    rw [hsame] at hjoin
    have hgit : ¬ ".git".toList <:+ name.toList := by
      intro hsuffix
      have hcut := length_removeSuffix hsuffix
      have hfour : ".git".toList.length = 4 := rfl
      omega
    refine ⟨hgit, fun hdot => ?_⟩
    rw [removeSuffix_of_not hgit] at hjoin
    have hlt := length_dropWhile_lt (p := (· = '.')) ⟨'.', hdot, by decide⟩
    omega
  · rintro ⟨hgit, hdot⟩
    have hkept : name.toList.dropWhile (· = '.') = name.toList :=
      dropWhile_of_head? fun c hc => decide_eq_false fun hd => hdot (hd ▸ hc)
    rw [removeSuffix_of_not hgit, hkept, h.joined, String.ofList_toList]

theorem worktreeRest_subset {s rest : List Char} (h : worktreeRest s = some rest) : rest ⊆ s := by
  simp only [worktreeRest, Option.ite_none_right_eq_some, Option.ite_none_left_eq_some,
    Option.some.injEq] at h
  obtain ⟨-, -, rfl⟩ := h
  exact List.Subset.trans (List.dropWhile_sublist _).subset (List.drop_sublist _ _).subset

theorem subWorktrees_subset (n : ℕ) (start : Bool) (s : List Char) :
    subWorktrees n start s ⊆ s := by
  induction n generalizing start s with
  | zero => exact List.Subset.refl s
  | succ n ih =>
    cases s with
    | nil => exact List.Subset.refl _
    | cons c s =>
      simp only [subWorktrees]
      split
      · exact List.cons_subset_cons c (ih false s)
      · exact List.nil_subset _
      · rename_i separator d rest hhit
        have hparts : separator ⊆ c :: s ∧ d :: rest ⊆ c :: s := by
          rw [Option.orElse_eq_orElse, Option.orElse_eq_or] at hhit
          rcases Option.or_eq_some_iff.mp hhit with hhere | ⟨-, hbehind⟩
          · obtain ⟨found, hfound, heq⟩ := Option.map_eq_some_iff.mp hhere
            obtain ⟨rfl, rfl⟩ := Prod.mk.inj heq
            refine ⟨List.nil_subset _, ?_⟩
            split at hfound
            · exact worktreeRest_subset hfound
            · cases hfound
          · obtain ⟨found, hfound, heq⟩ := Option.map_eq_some_iff.mp hbehind
            obtain ⟨rfl, rfl⟩ := Prod.mk.inj heq
            split at hfound
            · rename_i hc
              rw [hc]
              exact ⟨List.cons_subset_cons _ (List.nil_subset _),
                List.subset_cons_of_subset _ (worktreeRest_subset hfound)⟩
            · cases hfound
        refine List.append_subset.mpr ⟨hparts.1, ?_⟩
        exact List.Subset.trans (ih false rest)
          (List.Subset.trans (List.subset_cons_self d rest) hparts.2)

theorem stripWorktreePrefix_subset (s : List Char) : stripWorktreePrefix s ⊆ s := by
  have hpasses : ∀ n s, stripPasses n s ⊆ s := by
    intro n
    induction n with
    | zero => exact fun s => List.Subset.refl s
    | succ n ih =>
      intro s
      simp only [stripPasses]
      split
      · exact subWorktrees_subset _ _ _
      · exact List.Subset.trans (ih _) (subWorktrees_subset _ _ _)
  exact hpasses _ s

/-- The last component of a path is a part of it without a slash. -/
theorem mem_pathName {c : Char} {s : List Char} (h : c ∈ pathName s) : c ∈ s ∧ c ≠ '/' := by
  rw [pathName] at h
  cases hlast : ((s.splitOn '/').filter fun part => part ≠ [] ∧ part ≠ ['.']).getLast? with
  | none =>
    rw [hlast] at h
    simp at h
  | some part =>
    rw [hlast] at h
    have hpart := (List.mem_filter.mp (List.mem_of_getLast? hlast)).1
    obtain ⟨hmem, hslash⟩ := part_of_splitOnP hpart c h
    exact ⟨hmem, by simpa using hslash⟩

/-- Names that `normalize` gives. -/
theorem nameChars_normalize (hl : Lowering lower) (directory : Bool) (value : String) :
    NameChars lower (normalize lower directory value).toList := by
  set trimmed := ((lower (PyText.strip value)).toList.reverse.dropWhile (· = '/')).reverse
  set bare := stripWorktreePrefix trimmed
  set base := if directory ∨ bare.head? = some '/' then pathName bare
    else if '/' ∈ bare then (bare.reverse.takeWhile (· ≠ '/')).reverse
    else bare with hbase
  have hnormalize : (normalize lower directory value).toList =
      joinWords ((removeSuffix ".git".toList base).dropWhile (· = '.')) := by
    simp only [normalize, String.toList_ofList]
    rfl
  have hbare : ∀ c ∈ bare, lower (String.singleton c) = String.singleton c := by
    intro c hc
    have htrimmed := stripWorktreePrefix_subset trimmed hc
    have hmem := (List.dropWhile_sublist _).subset (List.mem_reverse.mp htrimmed)
    exact hl.fixed _ c (List.mem_reverse.mp hmem)
  have hchars : ∀ c ∈ base, c ∈ bare ∧ c ≠ '/' := by
    intro c hc
    rw [hbase] at hc
    split_ifs at hc with hpath hslash
    · exact mem_pathName hc
    · have hmem := List.mem_reverse.mp hc
      exact ⟨List.mem_reverse.mp ((List.takeWhile_sublist _).subset hmem),
        by simpa using List.mem_takeWhile_imp hmem⟩
    · exact ⟨hc, fun h => hslash (h ▸ hc)⟩
  have hmem : ∀ c ∈ joinWords ((removeSuffix ".git".toList base).dropWhile (· = '.')),
      c = ' ' ∨ c ∈ base := by
    intro c hc
    refine (mem_joinWords hc).imp_right fun hc => ?_
    have hcut := (List.dropWhile_sublist _).subset hc
    rw [removeSuffix] at hcut
    split_ifs at hcut with hgit
    · exact List.mem_of_mem_take hcut
    · exact hcut
  rw [hnormalize]
  refine ⟨fun c hc => ?_, fun hslash => ?_, joinWords_joinWords _⟩
  · rcases hmem c hc with rfl | hc
    · exact hl.space
    · exact hbare c (hchars c hc).1
  · rcases hmem _ hslash with h | h
    · exact absurd h (by decide)
    · exact (hchars _ h).2 rfl

end Fixed

section Stable

variable (lower : String → String) (aliases : Aliases)

/-- The name keeps its form, or the aliases lead from its normalized form back to it. -/
def Stable (name : String) : Prop :=
  (¬ ".git".toList <:+ name.toList ∧ name.toList.head? ≠ some '.') ∨
    Relation.TransGen (Leads lower aliases) (normalize lower false name) name

variable {lower : String → String} {aliases : Aliases} {name : String} {directory : Bool}
  {value : String}

theorem canonicalName_eq_ok (hacyclic : Acyclic lower aliases) :
    canonicalName lower aliases directory value = .ok name ↔
      ResolvesTo lower aliases directory value name ∧ name ≠ "" := by
  obtain ⟨last, hlast, heq⟩ := canonicalName_eq hacyclic directory value
  rw [heq]
  constructor
  · intro h
    split_ifs at h with hempty
    cases h
    exact ⟨hlast, hempty⟩
  · rintro ⟨hname, hne⟩
    rw [resolvesTo_unique hlast hname, if_neg hne]

/-- A canonical name is the normalized form of the value or of an alias's target. -/
theorem resolvesTo_normalize (h : ResolvesTo lower aliases directory value name) :
    ∃ directory' value', name = normalize lower directory' value' := by
  rcases h.1.cases_tail with heq | ⟨before, -, hlast⟩
  · exact ⟨directory, value, heq⟩
  · obtain ⟨a, -, ha⟩ := Option.map_eq_some_iff.mp hlast.1
    exact ⟨false, a.2, ha.symm⟩

theorem resolvesTo_self_iff (hl : Lowering lower)
    (h : ResolvesTo lower aliases directory value name) :
    ResolvesTo lower aliases false name name ↔ Stable lower aliases name := by
  obtain ⟨directory', value', rfl⟩ := resolvesTo_normalize h
  rw [Stable, ← normalize_eq_self_iff hl (nameChars_normalize hl directory' value')]
  constructor
  · rintro ⟨hchain, -⟩
    rcases Relation.reflTransGen_iff_eq_or_transGen.mp hchain with heq | hleads
    · exact Or.inl heq.symm
    · exact Or.inr hleads
  · intro hstable
    refine ⟨?_, h.2⟩
    rcases hstable with heq | hleads
    · rw [heq]
    · exact hleads.to_reflTransGen

/-- A canonical name is its own canonical name exactly if it is stable. -/
theorem canonicalName_again (hl : Lowering lower) (hacyclic : Acyclic lower aliases)
    (h : canonicalName lower aliases directory value = .ok name) :
    canonicalName lower aliases false name = .ok name ↔ Stable lower aliases name := by
  obtain ⟨hresolves, hne⟩ := (canonicalName_eq_ok hacyclic).mp h
  rw [canonicalName_eq_ok hacyclic, ← resolvesTo_self_iff hl hresolves]
  exact and_iff_left hne

end Stable

end Hippo.ProjectName

namespace Hippo.Retrieval
open ProjectName

section Queries

variable (lower : String → String) (aliases : Aliases)

/-- The projects are those that attribution has made of some spellings; a spelling comes with
whether it is a directory. -/
structure Attributed (projects : Table String ℕ) (spellings : List (Bool × String)) : Prop where
  ids : ∀ name name' id, projects.get? name = some id → projects.get? name' = some id → name = name'
  stored : ∀ s ∈ spellings, ∃ name ∈ projects.keys, canonicalName lower aliases s.1 s.2 = .ok name
  spelled : ∀ name ∈ projects.keys, ∃ s ∈ spellings, canonicalName lower aliases s.1 s.2 = .ok name
  named : projects.keys ≠ [] → ProjectDb.AliasesNamed lower aliases

/-- The filter by a text returns every node of a project, whatever else is in the database. -/
def Filters (projects : Table String ℕ) (text : String) (id : ℕ) : Prop :=
  ∀ db : Db, db.projects = projects → ∀ includeExcluded now node row,
    db.nodes.get? node = some row → row.projectId = some id →
    ∃ p, db.projectClause lower aliases includeExcluded now text = .ok p ∧ p node = true

/-- The names of the projects resolve to their projects, and so do their spellings. A question
that mentions a project and no other one is about the project. -/
structure ResolvesStably (isWord : Char → Bool) (projects : Table String ℕ)
    (spellings : List (Bool × String)) : Prop where
  again : ∀ name ∈ projects.keys, canonical lower aliases name = .ok name
  clause : ∀ name id, projects.get? name = some id → Filters lower aliases projects name id
  infer : ∀ db : Db, db.projects = projects → ∀ query, ∀ name ∈ projects.keys,
    ∀ names, knownNames lower aliases projects = .ok names →
    (∀ other ∈ names, Known lower isWord (db.entities.entries.map Prod.snd) (lower query).toList
      other ↔ other = name) →
    inferProject lower aliases isWord db query = .ok (some name)
  spelling : ∀ s ∈ spellings, ∀ name, canonicalName lower aliases s.1 s.2 = .ok name →
    ∀ id, projects.get? name = some id → Filters lower aliases projects s.2 id

variable {lower : String → String} {aliases : Aliases} {projects : Table String ℕ}
  {spellings : List (Bool × String)} {isWord : Char → Bool}

theorem exists_of_mem_mapM {α β : Type} {f : α → Except PyError β} {l : List α} {r : List β}
    (h : l.mapM f = .ok r) {b : β} (hb : b ∈ r) : ∃ a ∈ l, f a = .ok b := by
  induction l generalizing r with
  | nil =>
    cases h
    cases hb
  | cons a l ih =>
    rw [List.mapM_cons] at h
    obtain ⟨c, hc, h⟩ := bind_eq_ok.mp h
    obtain ⟨rest, hrest, hr⟩ := bind_eq_ok.mp h
    cases hr
    rcases List.mem_cons.mp hb with rfl | hb
    · exact ⟨a, List.mem_cons_self, hc⟩
    · obtain ⟨a', ha', hfa⟩ := ih hrest hb
      exact ⟨a', List.mem_cons_of_mem _ ha', hfa⟩

/-- The stored projects of a name are those whose canonical name it is. -/
theorem mem_projectIds {target : String} {ids : List ℕ}
    (h : projectIds lower aliases projects target = .ok ids) {id : ℕ} :
    id ∈ ids ↔
      ∃ name, (name, id) ∈ projects.entries ∧ canonical lower aliases name = .ok target := by
  obtain ⟨pairs, hpairs, h⟩ := bind_eq_ok.mp h
  cases h
  simp only [List.mem_map, List.mem_filter, decide_eq_true_eq]
  constructor
  · rintro ⟨⟨name, i⟩, ⟨hmem, rfl⟩, rfl⟩
    obtain ⟨entry, hentry, hname⟩ := exists_of_mem_mapM hpairs hmem
    obtain ⟨found, hfound, heq⟩ := bind_eq_ok.mp hname
    cases heq
    exact ⟨entry.1, hentry, hfound⟩
  · rintro ⟨name, hentry, hname⟩
    obtain ⟨pair, hpair, heq⟩ := ProjectDb.mem_of_mapM hpairs hentry
    obtain ⟨found, hfound, hpair'⟩ := bind_eq_ok.mp heq
    obtain rfl : found = target := Except.ok.inj (hfound.symm.trans hname)
    cases hpair'
    exact ⟨_, ⟨hpair, rfl⟩, rfl⟩

theorem named_returns {target : String} {texts : List String}
    (h : ∀ t ∈ texts, ∃ name, canonical lower aliases t = .ok name) :
    ∃ found, named lower aliases target texts = .ok found := by
  obtain ⟨resolved, hresolved⟩ := ProjectDb.mapM_ok.mpr h
  exact ⟨_, bind_eq_ok.mpr ⟨resolved, hresolved, rfl⟩⟩

/-- With stored names that are their own canonical names, a filter by a text whose canonical name
is stored returns the nodes of the project. -/
theorem filters_of_canonical (hnamed : ∀ a ∈ aliases.map Prod.fst,
      ∃ name, canonical lower aliases a = .ok name)
    (hagain : ∀ name ∈ projects.keys, canonical lower aliases name = .ok name)
    {text name : String} (htext : canonical lower aliases text = .ok name) {id : ℕ}
    (hid : projects.get? name = some id) : Filters lower aliases projects text id := by
  intro db hdb includeExcluded now node row hrow hproject
  have hentry : (name, id) ∈ projects.entries := Table.get?_eq_some.mp hid
  have hkey : name ∈ projects.keys := Table.mem_keys.mpr ⟨id, hid⟩
  obtain ⟨ids, hids⟩ : ∃ ids, projectIds lower aliases projects name = .ok ids := by
    have hpairs : ∃ pairs, projects.entries.mapM (fun p => do
        let name ← canonical lower aliases p.1
        return (name, p.2)) = .ok pairs := by
      refine ProjectDb.mapM_ok.mpr fun p hp => ⟨(p.1, p.2), ?_⟩
      rw [hagain p.1 (List.mem_map_of_mem hp)]
      rfl
    obtain ⟨pairs, hpairs⟩ := hpairs
    exact ⟨_, bind_eq_ok.mpr ⟨pairs, hpairs, rfl⟩⟩
  have hmem : id ∈ ids := (mem_projectIds hids).mpr ⟨name, hentry, hagain name hkey⟩
  obtain ⟨stored, hstored⟩ := @named_returns _ _ name _ fun t (ht : t ∈ projects.keys) =>
    ⟨t, hagain t ht⟩
  obtain ⟨configured, hconfigured⟩ := @named_returns _ _ name _ hnamed
  obtain ⟨terms, hterms⟩ : ∃ terms, queryTerms lower aliases projects text = .ok terms :=
    ⟨_, bind_eq_ok.mpr ⟨name, htext, bind_eq_ok.mpr ⟨stored, hstored,
      bind_eq_ok.mpr ⟨configured, hconfigured, rfl⟩⟩⟩⟩
  subst hdb
  have hresolved : resolves lower aliases name ids = .ok true :=
    if_pos (List.ne_nil_of_mem hmem)
  refine ⟨_, bind_eq_ok.mpr ⟨name, htext, bind_eq_ok.mpr ⟨ids, hids,
    bind_eq_ok.mpr ⟨true, hresolved, bind_eq_ok.mpr ⟨terms, hterms, rfl⟩⟩⟩⟩, ?_⟩
  simp [hrow, hproject, hmem]

/-- A filter returns the nodes of no project but those of the text's canonical name. -/
theorem canonical_of_filters {text name : String} {id : ℕ}
    (hids : ∀ other, projects.get? other = some id → other = name)
    (hid : projects.get? name = some id)
    (hname : canonical lower aliases name = .ok name)
    (h : Filters lower aliases projects text id) : canonical lower aliases text = .ok name := by
  let db : Db :=
    { Db.empty with nodes := Table.empty.insert 0 ⟨"", 0, some id⟩, projects := projects }
  have hnode : db.nodes.get? 0 = some ⟨"", 0, some id⟩ := rfl
  obtain ⟨p, hp, hreturned⟩ := h db rfl true 0 0 _ hnode rfl
  obtain ⟨target, htarget, hp⟩ := bind_eq_ok.mp hp
  obtain ⟨ids, hmem, hp⟩ := bind_eq_ok.mp hp
  obtain ⟨resolved, -, hp⟩ := bind_eq_ok.mp hp
  obtain ⟨terms, -, hp⟩ := bind_eq_ok.mp hp
  cases hp
  have hno : ∀ term, db.provenance true 0 term 0 = false := fun term => rfl
  have hid' : id ∈ ids := by
    simpa [hnode, hno] using hreturned
  obtain ⟨other, hother, hcanonical⟩ := (mem_projectIds hmem).mp hid'
  obtain rfl : other = name := hids other (Table.get?_eq_some.mpr hother)
  rw [htarget, ← hcanonical, hname]

theorem eq_singleton_of_nodup {α : Type} {l : List α} {a : α} (hnodup : l.Nodup)
    (h : ∀ b, b ∈ l ↔ b = a) : l = [a] := by
  cases l with
  | nil => exact absurd ((h a).mpr rfl) List.not_mem_nil
  | cons b l =>
    obtain rfl : b = a := (h b).mp List.mem_cons_self
    cases l with
    | nil => rfl
    | cons c l =>
      obtain rfl : c = b := (h c).mp (List.mem_cons_of_mem _ List.mem_cons_self)
      exact absurd List.mem_cons_self (List.nodup_cons.mp hnodup).1

theorem infer_of_canonical {db : Db} (hdb : db.projects = projects) {query name : String}
    (hkey : name ∈ projects.keys) (hagain : canonical lower aliases name = .ok name)
    {names : List String} (hnames : knownNames lower aliases projects = .ok names)
    (honly : ∀ other ∈ names, Known lower isWord (db.entities.entries.map Prod.snd)
      (lower query).toList other ↔ other = name) :
    inferProject lower aliases isWord db query = .ok (some name) := by
  subst hdb
  obtain ⟨resolved, hresolved, hdedup⟩ := bind_eq_ok.mp hnames
  cases hdedup
  set names := (db.projects.keys ++ aliases.map Prod.fst ++
    aliases.map (fun a => normalize lower false a.1) ++ resolved).dedup with hall
  have hmem : name ∈ names := by
    rw [hall, List.mem_dedup]
    simp [hkey]
  have hmentioned : (names.filter fun other => Known lower isWord
      (db.entities.entries.map Prod.snd) (lower query).toList other) = [name] := by
    refine eq_singleton_of_nodup ((List.nodup_dedup _).filter _) fun other => ?_
    rw [List.mem_filter, decide_eq_true_eq]
    constructor
    · rintro ⟨hother, hknown⟩
      exact (honly other hother).mp hknown
    · rintro rfl
      exact ⟨hmem, (honly other hmem).mpr rfl⟩
  refine bind_eq_ok.mpr ⟨names, hnames, bind_eq_ok.mpr ⟨[name], ?_, rfl⟩⟩
  rw [hmentioned, List.mapM_cons, hagain]
  rfl

theorem resolvesStably_iff (hl : Lowering lower) (hacyclic : Acyclic lower aliases)
    (h : Attributed lower aliases projects spellings) :
    ResolvesStably lower aliases isWord projects spellings ↔
      (∀ name ∈ projects.keys, Stable lower aliases name) ∧
      ∀ s ∈ spellings, ∀ name, canonicalName lower aliases s.1 s.2 = .ok name →
        ResolvesTo lower aliases false s.2 name := by
  have hagain : ∀ name ∈ projects.keys,
      (canonical lower aliases name = .ok name ↔ Stable lower aliases name) := by
    intro name hname
    obtain ⟨s, -, hs⟩ := h.spelled name hname
    exact canonicalName_again hl hacyclic hs
  have hstored : ∀ s ∈ spellings, ∀ name, canonicalName lower aliases s.1 s.2 = .ok name →
      name ∈ projects.keys := by
    intro s hs name hname
    obtain ⟨found, hkey, hfound⟩ := h.stored s hs
    obtain rfl : found = name := Except.ok.inj (hfound.symm.trans hname)
    exact hkey
  have hnamed : ∀ name ∈ projects.keys, ∀ a ∈ aliases.map Prod.fst,
      ∃ name, canonical lower aliases a = .ok name := by
    intro name hname a ha
    obtain ⟨entry, hentry, rfl⟩ := List.mem_map.mp ha
    exact (canonicalName_ok hacyclic).mpr (h.named (List.ne_nil_of_mem hname) entry hentry)
  constructor
  · intro hstable
    refine ⟨fun name hname => (hagain name hname).mp (hstable.again name hname), ?_⟩
    intro s hs name hname
    have hkey := hstored s hs name hname
    obtain ⟨id, hid⟩ := Table.mem_keys.mp hkey
    have hfilter := hstable.spelling s hs name hname id hid
    have htext := canonical_of_filters (fun other hother => h.ids other name id hother hid) hid
      (hstable.again name hkey) hfilter
    exact ((canonicalName_eq_ok hacyclic).mp htext).1
  · rintro ⟨hstable, hspelled⟩
    have hself : ∀ name ∈ projects.keys, canonical lower aliases name = .ok name :=
      fun name hname => (hagain name hname).mpr (hstable name hname)
    refine ⟨hself, fun name id hid => ?_, fun db hdb query name hname names hnames honly => ?_,
      fun s hs name hname id hid => ?_⟩
    · have hkey := Table.mem_keys.mpr ⟨id, hid⟩
      exact filters_of_canonical (hnamed name hkey) hself (hself name hkey) hid
    · exact infer_of_canonical hdb hname (hself name hname) hnames honly
    · have hne := ((canonicalName_eq_ok hacyclic).mp hname).2
      have htext : canonical lower aliases s.2 = .ok name :=
        (canonicalName_eq_ok hacyclic).mpr ⟨hspelled s hs name hname, hne⟩
      exact filters_of_canonical (hnamed name (hstored s hs name hname)) hself htext hid

end Queries

section Attribution

variable {lower : String → String} {aliases : Aliases} {db db' : ProjectDb}
  {spellings : List (Bool × String)}

/-- The stored projects, as the queries read them. -/
def storedProjects (db : ProjectDb) : Table String ℕ where
  entries := db.projects.entries.map fun e => (e.1, e.2.id)
  nodup := by simpa [Function.comp_def] using db.projects.nodup

theorem get?_storedProjects (db : ProjectDb) (name : String) :
    (storedProjects db).get? name = (db.projects.get? name).map Project.id := by
  cases hget : db.projects.get? name with
  | none =>
    rw [Option.map_none, Table.get?_eq_none]
    rw [Table.get?_eq_none] at hget
    simpa [Table.keys, storedProjects, Function.comp_def] using hget
  | some p =>
    rw [Option.map_some, Table.get?_eq_some]
    exact List.mem_map.mpr ⟨_, Table.get?_eq_some.mp hget, rfl⟩

/-- The id of a new project is larger than all others. -/
theorem upsertRow_fresh {name other : String} {id : ℕ} {first last : ℤ}
    (hnone : db.projects.get? name = none)
    (hother : (db.projects.get? other).map Project.id = some id) :
    id ≠ (db.upsertRow name first last).2 := by
  obtain ⟨p, hp, rfl⟩ := Option.map_eq_some_iff.mp hother
  have hmem : p.id ∈ db.projects.entries.map fun e => e.2.id :=
    List.mem_map.mpr ⟨_, Table.get?_eq_some.mp hp, rfl⟩
  have hle : ∀ l : List ℕ, ∀ i ∈ l, i ≤ l.foldr max 0 := by
    intro l
    induction l with
    | nil => simp
    | cons j l ih =>
      intro i hi
      rcases List.mem_cons.mp hi with rfl | hi
      · exact Nat.le_max_left _ _
      · exact (ih i hi).trans (Nat.le_max_right _ _)
  simp only [ProjectDb.upsertRow, hnone]
  exact Nat.ne_of_lt (Nat.lt_succ_of_le (hle _ _ hmem))

theorem mem_keys_storedProjects {name : String} :
    name ∈ (storedProjects db).keys ↔ ∃ id, (db.projects.get? name).map Project.id = some id := by
  simp only [Table.mem_keys, get?_storedProjects]

/-- Attribution keeps what is stored in step with what was spelled. -/
theorem attributed_upsertProject (hacyclic : Acyclic lower aliases)
    (h : Attributed lower aliases (storedProjects db) spellings) {s : Source} {id : ℕ}
    (hup : db.upsertProject lower aliases s = .ok (db', id)) :
    Attributed lower aliases (storedProjects db') (spellings ++ [(s.directory, s.value)]) := by
  obtain ⟨name, hname, hprojects, hid⟩ := ProjectDb.upsertProject_spec hup
  have hrow : id = (db.upsertRow name s.first s.last).2 := by
    obtain ⟨found, hfound, hrest⟩ := bind_eq_ok.mp hup
    obtain rfl : found = name := Except.ok.inj (hfound.symm.trans hname)
    obtain ⟨configured, -, hrest⟩ := bind_eq_ok.mp hrest
    cases hrest
    rfl
  have hkeys : ∀ other, other ∈ (storedProjects db').keys ↔
      other = name ∨ other ∈ (storedProjects db).keys := by
    intro other
    rw [mem_keys_storedProjects, mem_keys_storedProjects, hprojects.projects]
    by_cases hother : other = name <;> simp [hother]
  refine ⟨fun first second i hfirst hsecond => ?_, fun t ht => ?_, fun other hother => ?_,
    fun _ => ((ProjectDb.upsertProject_ok hacyclic db).mp ⟨_, hup⟩).2⟩
  · rw [get?_storedProjects, hprojects.projects] at hfirst hsecond
    have hfresh : ∀ other, other ≠ name → (db.projects.get? other).map Project.id = some i →
        i ≠ id := by
      intro other hother hget heq
      rcases hid with hold | hnone
      · refine hother (h.ids other name i ?_ ?_)
        · rw [get?_storedProjects, hget]
        · rw [get?_storedProjects, hold, heq]
      · exact upsertRow_fresh (Option.map_eq_none_iff.mp hnone) hget (heq.trans hrow)
    split_ifs at hfirst hsecond with h1 h2 h2
    · rw [h1, h2]
    · exact absurd (Option.some.inj hfirst).symm (hfresh second h2 hsecond)
    · exact absurd (Option.some.inj hsecond).symm (hfresh first h1 hfirst)
    · refine h.ids first second i ?_ ?_
      · rw [get?_storedProjects, hfirst]
      · rw [get?_storedProjects, hsecond]
  · rcases List.mem_append.mp ht with ht | ht
    · obtain ⟨other, hother, hcanonical⟩ := h.stored t ht
      exact ⟨other, (hkeys other).mpr (Or.inr hother), hcanonical⟩
    · obtain rfl := List.mem_singleton.mp ht
      exact ⟨name, (hkeys name).mpr (Or.inl rfl), hname⟩
  · rcases (hkeys other).mp hother with rfl | hother
    · exact ⟨_, List.mem_append_right _ (List.mem_singleton_self _), hname⟩
    · obtain ⟨t, ht, hcanonical⟩ := h.spelled other hother
      exact ⟨t, List.mem_append_left _ ht, hcanonical⟩

/-- The projects of an attribution that returns are those of its sources. -/
theorem attributed_upsertProjects (hacyclic : Acyclic lower aliases) {sources : List Source}
    (h : Attributed lower aliases (storedProjects db) spellings) {ids : List ℕ}
    (hup : db.upsertProjects lower aliases sources = .ok (db', ids)) :
    Attributed lower aliases (storedProjects db')
      (spellings ++ sources.map fun s => (s.directory, s.value)) := by
  induction sources generalizing db spellings ids with
  | nil =>
    cases hup
    simpa using h
  | cons s sources ih =>
    obtain ⟨⟨stored, id⟩, hhead, hrest⟩ := bind_eq_ok.mp hup
    obtain ⟨⟨last, rest⟩, hlast, heq⟩ := bind_eq_ok.mp hrest
    cases heq
    have hstep := ih (attributed_upsertProject hacyclic h hhead) hlast
    rwa [List.append_assoc] at hstep

end Attribution

section Spellings

/-- On texts in lower case `str.lower` is the identity. -/
theorem lowering_id : Lowering id := ⟨fun _ _ _ => rfl, rfl, fun _ _ => rfl⟩

theorem acyclic_nil (lower : String → String) : Acyclic lower [] := by
  intro name hcycle
  obtain ⟨next, ⟨hfirst, -⟩, -⟩ := Relation.TransGen.head'_iff.mp hcycle
  cases hfirst

/-- A database with one project. -/
def oneProject (name : String) : Table String ℕ := Table.empty.insert name 1

/-- A repository and its directory. -/
def hippoSpellings : List (Bool × String) := [(false, "owner/hippo.git"), (true, "/work/hippo")]

theorem attributed_hippo : Attributed id [] (oneProject "hippo") hippoSpellings := by
  have hkeys : (oneProject "hippo").keys = ["hippo"] := rfl
  refine ⟨fun name name' i hname hname' => ?_, fun s hs => ?_, fun name hname => ?_,
    fun _ a ha => by cases ha⟩
  · have h := Table.mem_keys.mpr ⟨i, hname⟩
    have h' := Table.mem_keys.mpr ⟨i, hname'⟩
    rw [hkeys, List.mem_singleton] at h h'
    rw [h, h']
  · refine ⟨"hippo", List.mem_singleton_self _, ?_⟩
    rcases List.mem_cons.mp hs with rfl | hs
    · decide +kernel
    · rw [List.mem_singleton.mp hs]
      decide +kernel
  · obtain rfl := List.mem_singleton.mp hname
    exact ⟨(false, "owner/hippo.git"), List.mem_cons_self, by decide +kernel⟩

end Spellings

end Hippo.Retrieval
