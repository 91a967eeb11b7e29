import Hippo.ProjectStability
import Hippo.WorktreeStripping

/-!
# Stability of canonical names

A canonical name is resolved again when it is stored. It keeps its form exactly if nothing that the
steps remove or expand has come to stand at its ends.
-/
namespace Hippo.EntityNames
open ProjectName

/-- `os.path.expanduser`, given the home directories by user name. -/
def expandUser (home : String → Option String) (path : String) : String :=
  match path.toList with
  | '~' :: rest =>
    match home (String.ofList (rest.takeWhile (· ≠ '/'))) with
    | none => path
    | some directory =>
      let expanded := rstripSlash directory ++ String.ofList (rest.dropWhile (· ≠ '/'))
      if expanded = "" then "/" else expanded
  | _ => path

/-- What `canonicalize` looks at of an entity's type. -/
def resolvedAs (entityType : String) : EntityType :=
  if entityType = "project" then .project
  else if entityType ∈ ["file", "directory", "path"] then .file
  else .tool

/-- The value before its path is shortened. -/
def folded (env : NameEnv) (value : String) : String :=
  String.ofList (collapseSpaces false
    (rstripSlash (env.lower (PyText.strip (env.expanduser value)))).toList)

/-- A project root as it is compared with paths. -/
def rootPath (env : NameEnv) (root : String) : String :=
  rstripSlash (env.lower (env.expanduser root))

/-- What is left of a path behind the first project root that is the path or above it. -/
inductive Behind (env : NameEnv) (ty : EntityType) (path : String) : List String → String → Prop
  | nowhere : Behind env ty path [] path
  | root {root : String} {roots : List String} :
      path = rootPath env root → Behind env ty path (root :: roots) (pathName path)
  | under {root rest : String} {roots : List String} :
      ty ≠ .project → path.toList = (rootPath env root).toList ++ '/' :: rest.toList →
      Behind env ty path (root :: roots) rest
  | past {root rest : String} {roots : List String} :
      path ≠ rootPath env root →
      ¬ (ty ≠ .project ∧ startsWith path (rootPath env root ++ "/")) →
      Behind env ty path roots rest → Behind env ty path (root :: roots) rest

/-- Nothing is left to do: no tilde is expanded, no space is at an end and no slash behind it, and
of a path neither a worktree nor a project root. -/
structure Settled (env : NameEnv) (ty : EntityType) (name : String) : Prop where
  expanded : env.expanduser name = name
  front : ∀ c ∈ name.toList.head?, PyText.isSpace c = false
  back : ∀ c ∈ name.toList.getLast?, PyText.isSpace c = false ∧ c ≠ '/'
  noWorktree : ty.isPathType = true → ¬ HasWorktree true name.toList
  noRoot : ty.isPathType = true → ∀ root ∈ env.projectRoots,
    (name = rootPath env root → pathName name = name) ∧
      (ty ≠ .project → startsWith name (rootPath env root ++ "/") = false)

/-- What is left of a value is settled: the folded value, for a path without its worktrees and
behind its project root. -/
def Settles (env : NameEnv) (ty : EntityType) (value : String) : Prop :=
  if ty.isPathType then
    ∀ rest, Behind env ty (stripWorktree (folded env value)) env.projectRoots rest →
      Settled env ty rest
  else Settled env ty (folded env value)

/-- `str.lower`, which makes no tildes. -/
structure NameLowering (lower : String → String) : Prop extends Lowering lower where
  tildes : ∀ s, (lower s).toList.count '~' ≤ s.toList.count '~'

section Text

variable {s t : List Char}

theorem dropWhile_eq_self_iff {p : Char → Bool} :
    s.dropWhile p = s ↔ ∀ c ∈ s.head?, p c = false := by
  constructor
  · intro h c hc
    by_contra hp
    have hlt := length_dropWhile_lt ⟨c, hc, by simpa using hp⟩
    rw [h] at hlt
    exact lt_irrefl _ hlt
  · exact dropWhile_of_head?

theorem rdropWhile_sublist (p : Char → Bool) (s : List Char) :
    ((s.reverse.dropWhile p).reverse).Sublist s := by
  have h := (List.dropWhile_sublist (l := s.reverse) p).reverse
  rwa [List.reverse_reverse] at h

theorem rdropWhile_eq_self_iff {p : Char → Bool} :
    (s.reverse.dropWhile p).reverse = s ↔ ∀ c ∈ s.getLast?, p c = false := by
  rw [← List.head?_reverse, ← dropWhile_eq_self_iff, List.reverse_eq_iff]

theorem toList_strip (s : String) : (PyText.strip s).toList =
    ((s.toList.dropWhile PyText.isSpace).reverse.dropWhile PyText.isSpace).reverse := by
  rw [PyText.strip, String.toList_ofList]

theorem strip_sublist (s : String) : (PyText.strip s).toList.Sublist s.toList := by
  rw [toList_strip]
  exact (rdropWhile_sublist _ _).trans (List.dropWhile_sublist _)

theorem strip_eq_self_iff (s : String) : PyText.strip s = s ↔
    (∀ c ∈ s.toList.head?, PyText.isSpace c = false) ∧
      ∀ c ∈ s.toList.getLast?, PyText.isSpace c = false := by
  rw [← String.toList_inj, toList_strip]
  constructor
  · intro h
    have hback := (rdropWhile_sublist PyText.isSpace (s.toList.dropWhile PyText.isSpace)).length_le
    have hfront := List.dropWhile_sublist (l := s.toList) PyText.isSpace
    rw [h] at hback
    have hsame := hfront.eq_of_length (le_antisymm hfront.length_le hback)
    rw [hsame] at h
    exact ⟨dropWhile_eq_self_iff.mp hsame, rdropWhile_eq_self_iff.mp h⟩
  · intro ⟨hfront, hback⟩
    rw [dropWhile_eq_self_iff.mpr hfront, rdropWhile_eq_self_iff.mpr hback]

theorem toList_rstripSlash (s : String) :
    (rstripSlash s).toList = (s.toList.reverse.dropWhile (· = '/')).reverse := by
  rw [rstripSlash, String.toList_ofList]

theorem rstripSlash_sublist (s : String) : (rstripSlash s).toList.Sublist s.toList := by
  rw [toList_rstripSlash]
  exact rdropWhile_sublist _ _

theorem rstripSlash_eq_self_iff (s : String) :
    rstripSlash s = s ↔ ∀ c ∈ s.toList.getLast?, c ≠ '/' := by
  rw [← String.toList_inj, toList_rstripSlash, rdropWhile_eq_self_iff]
  simp

/-- Two characters that are not both spaces. -/
def Apart (a b : Char) : Prop := ¬ (PyText.isSpace a = true ∧ PyText.isSpace b = true)

/-- The spaces of a text are blanks with something between them. -/
structure Spaced (s : List Char) : Prop where
  apart : s.IsChain Apart
  blank : ∀ c ∈ s, PyText.isSpace c = true → c = ' '

theorem collapseSpaces_head (s : List Char) :
    ∀ c ∈ (collapseSpaces true s).head?, PyText.isSpace c = false := by
  induction s with
  | nil => simp [collapseSpaces]
  | cons d s ih =>
    cases hd : PyText.isSpace d with
    | false => simp [collapseSpaces, hd]
    | true => simpa [collapseSpaces, hd] using ih

theorem mem_collapseSpaces {inRun : Bool} {c : Char} (h : c ∈ collapseSpaces inRun s) :
    c = ' ' ∨ (c ∈ s ∧ PyText.isSpace c = false) := by
  induction s generalizing inRun with
  | nil => cases h
  | cons d s ih =>
    have hrest : ∀ b, c ∈ collapseSpaces b s → c = ' ' ∨ (c ∈ d :: s ∧ PyText.isSpace c = false) :=
      fun b hb => (ih hb).imp_right fun hc => ⟨List.mem_cons_of_mem d hc.1, hc.2⟩
    rw [collapseSpaces] at h
    split at h
    · split at h
      · exact hrest true h
      · rcases List.mem_cons.mp h with rfl | h
        · exact Or.inl rfl
        · exact hrest true h
    · rename_i hd
      rcases List.mem_cons.mp h with rfl | h
      · exact Or.inr ⟨List.mem_cons_self, by simpa using hd⟩
      · exact hrest false h

theorem isChain_collapseSpaces (inRun : Bool) (s : List Char) :
    (collapseSpaces inRun s).IsChain Apart := by
  induction s generalizing inRun with
  | nil => simp [collapseSpaces]
  | cons d s ih =>
    rw [collapseSpaces]
    split
    · split
      · exact ih true
      · refine List.isChain_cons.mpr ⟨fun c hc hboth => ?_, ih true⟩
        rw [collapseSpaces_head s c hc] at hboth
        exact Bool.false_ne_true hboth.2
    · rename_i hd
      exact List.isChain_cons.mpr ⟨fun c _ hboth => hd hboth.1, ih false⟩

theorem spaced_collapseSpaces (inRun : Bool) (s : List Char) :
    Spaced (collapseSpaces inRun s) where
  apart := isChain_collapseSpaces inRun s
  blank := fun c hc hspace => (mem_collapseSpaces hc).resolve_right fun h => by
    rw [h.2] at hspace
    cases hspace

theorem collapseSpaces_of_spaced {inRun : Bool} (h : Spaced s)
    (hrun : inRun = true → ∀ c ∈ s.head?, PyText.isSpace c = false) :
    collapseSpaces inRun s = s := by
  induction s generalizing inRun with
  | nil => rfl
  | cons d s ih =>
    obtain ⟨hd, happart⟩ := List.isChain_cons.mp h.apart
    have hs : Spaced s := ⟨happart, fun c hc => h.blank c (List.mem_cons_of_mem d hc)⟩
    cases hspace : PyText.isSpace d with
    | false =>
      rw [collapseSpaces, if_neg (by simp [hspace]), ih hs (by simp)]
    | true =>
      have hfirst : inRun = false := by
        by_contra hne
        have hnot := hrun (by simpa using hne) d rfl
        rw [hspace] at hnot
        cases hnot
      have hnext : ∀ c ∈ s.head?, PyText.isSpace c = false := fun c hc => by
        by_contra hne
        exact hd c hc ⟨hspace, by simpa using hne⟩
      rw [collapseSpaces, if_pos hspace, hfirst, if_neg Bool.false_ne_true,
        ih hs fun _ => hnext, h.blank d List.mem_cons_self hspace]

theorem length_collapseSpaces_le (inRun : Bool) (s : List Char) :
    (collapseSpaces inRun s).length ≤ s.length := by
  induction s generalizing inRun with
  | nil => simp [collapseSpaces]
  | cons d s ih =>
    have htrue := ih true
    have hfalse := ih false
    rw [collapseSpaces]
    split
    · split <;> simp only [List.length_cons] <;> omega
    · simp only [List.length_cons]
      omega

theorem count_collapseSpaces_le (inRun : Bool) (s : List Char) :
    (collapseSpaces inRun s).count '~' ≤ s.count '~' := by
  induction s generalizing inRun with
  | nil => simp [collapseSpaces]
  | cons d s ih =>
    have htrue := ih true
    have hfalse := ih false
    rw [collapseSpaces]
    split
    · split <;> simp only [List.count_cons] <;> simp <;> omega
    · simp only [List.count_cons]
      omega

theorem Spaced.of_part (h : Spaced s) (ht : t <:+: s) : Spaced t where
  apart := by
    obtain ⟨before, after, rfl⟩ := ht
    exact h.apart.left_of_append.right_of_append
  blank := fun c hc => h.blank c (ht.subset hc)

end Text

section Roots

variable {env : NameEnv} {ty : EntityType} {path rest : String} {roots : List String}

theorem pathName_spec (path : String) :
    (pathName path).toList <:+: path.toList ∧ '/' ∉ (pathName path).toList := by
  rw [pathName]
  cases hlast :
    ((path.toList.splitOn '/').filter fun part => part ≠ [] ∧ part ≠ ['.']).getLast? with
  | none => exact ⟨List.nil_infix, List.not_mem_nil⟩
  | some part =>
    have hpart : part ∈ path.toList.splitOnP (· == '/') :=
      (List.mem_filter.mp (List.mem_of_getLast? hlast)).1
    rw [Option.map_some, Option.getD_some, String.toList_ofList]
    constructor
    · obtain ⟨first, others, hsplit, hfirst, hothers⟩ :=
        Words.splitOnP_parts (· == '/') path.toList
      rw [hsplit] at hpart
      rcases List.mem_cons.mp hpart with rfl | hmem
      · exact hfirst.isInfix
      · exact hothers part hmem
    · intro hslash
      have hnot := (Words.part_of_splitOnP hpart '/' hslash).2
      simp at hnot

theorem stripRoot_cons (root : String) (roots : List String) (path : String) :
    stripRoot env ty (root :: roots) path =
      if path = rootPath env root then pathName path
      else if ty ≠ .project ∧ startsWith path (rootPath env root ++ "/") = true then
        String.ofList (path.toList.drop ((rootPath env root).length + 1))
      else stripRoot env ty roots path := by
  rw [stripRoot]
  split_ifs with h h' <;> simp_all [rootPath]

theorem stripRoot_part (env : NameEnv) (ty : EntityType) (roots : List String) (path : String) :
    (stripRoot env ty roots path).toList <:+: path.toList := by
  induction roots with
  | nil => exact List.infix_rfl
  | cons root roots ih =>
    rw [stripRoot_cons]
    split
    · exact (pathName_spec path).1
    · split
      · rw [String.toList_ofList]
        exact (List.drop_suffix _ _).isInfix
      · exact ih

/-- The relation is what the loop over the roots computes. -/
theorem behind_iff : Behind env ty path roots rest ↔ rest = stripRoot env ty roots path := by
  constructor
  · intro h
    induction h with
    | nowhere => rfl
    | root heq => rw [stripRoot_cons, if_pos heq]
    | @under root rest roots hty hpath =>
      have hne : path ≠ rootPath env root := fun heq => by
        have hlength := congrArg List.length hpath
        rw [heq, List.length_append, List.length_cons] at hlength
        omega
      have hstarts : startsWith path (rootPath env root ++ "/") = true :=
        startsWith_iff.mpr ⟨rest.toList, by simpa using hpath⟩
      have hdrop : path.toList.drop ((rootPath env root).length + 1) = rest.toList := by
        rw [hpath, ← String.length_toList, ← List.drop_drop, List.drop_left]
        rfl
      rw [stripRoot_cons, if_neg hne, if_pos ⟨hty, hstarts⟩, hdrop, String.ofList_toList]
    | past hne hnot _ ih => rw [stripRoot_cons, if_neg hne, if_neg hnot, ih]
  · rintro rfl
    induction roots with
    | nil => exact .nowhere
    | cons root roots ih =>
      rw [stripRoot_cons]
      split
      · rename_i heq
        exact .root heq
      · rename_i hne
        split
        · rename_i hunder
          refine .under hunder.1 ?_
          obtain ⟨rest, hrest⟩ := startsWith_iff.mp hunder.2
          have hpath : path.toList = (rootPath env root).toList ++ '/' :: rest := by
            simpa using hrest
          rw [String.toList_ofList, hpath, ← String.length_toList, ← List.drop_drop,
            List.drop_left]
          rfl
        · rename_i hnot
          exact .past hne hnot ih

theorem stripRoot_eq_self_iff : stripRoot env ty roots path = path ↔
    ∀ root ∈ roots, (path = rootPath env root → pathName path = path) ∧
      (ty ≠ .project → startsWith path (rootPath env root ++ "/") = false) := by
  have hslash : ∀ root, startsWith path (rootPath env root ++ "/") = true → '/' ∈ path.toList := by
    intro root h
    obtain ⟨rest, hrest⟩ := startsWith_iff.mp h
    rw [hrest]
    simp
  induction roots with
  | nil => simp [stripRoot]
  | cons root roots ih =>
    rw [stripRoot_cons, List.forall_mem_cons]
    split
    · rename_i heq
      constructor
      · intro hname
        have hplain : '/' ∉ path.toList := hname ▸ (pathName_spec path).2
        have hnot : ∀ r, startsWith path (rootPath env r ++ "/") = false := fun r => by
          by_contra h
          exact hplain (hslash r (by simpa using h))
        exact ⟨⟨fun _ => hname, fun _ => hnot root⟩, fun r _ => ⟨fun _ => hname, fun _ => hnot r⟩⟩
      · exact fun h => h.1.1 heq
    · rename_i hne
      split
      · rename_i hunder
        refine iff_of_false (fun h => ?_) fun h => ?_
        · have hlength := congrArg (fun s => s.toList.length) h
          simp only [String.toList_ofList, List.length_drop] at hlength
          have hpos := List.length_pos_of_mem (hslash root hunder.2)
          omega
        · have hnot := h.1.2 hunder.1
          rw [hunder.2] at hnot
          cases hnot
      · rename_i hnot
        have hroot : ty ≠ .project → startsWith path (rootPath env root ++ "/") = false :=
          fun hty => by simpa [hty] using hnot
        exact ih.trans (and_iff_right ⟨fun h => absurd h hne, hroot⟩).symm

end Roots

section Again

variable {env : NameEnv} {ty : EntityType} {name value : String}

theorem canonicalize_eq (env : NameEnv) (ty : EntityType) (value : String) :
    canonicalize env ty value = if ty.isPathType then
      stripRoot env ty env.projectRoots (stripWorktree (folded env value))
    else folded env value := rfl

/-- What every folded text is like, and every part of one. -/
structure Ready (env : NameEnv) (s : List Char) : Prop where
  lowered : ∀ c ∈ s, env.lower (String.singleton c) = String.singleton c
  spaced : Spaced s

theorem ready_folded (hl : NameLowering env.lower) (value : String) :
    Ready env (folded env value).toList := by
  rw [folded, String.toList_ofList]
  refine ⟨fun c hc => ?_, spaced_collapseSpaces _ _⟩
  rcases mem_collapseSpaces hc with rfl | ⟨hc, -⟩
  · exact hl.space
  · exact hl.fixed _ c ((rstripSlash_sublist _).subset hc)

theorem Ready.of_part {s t : List Char} (h : Ready env s) (ht : t <:+: s) : Ready env t :=
  ⟨fun c hc => h.lowered c (ht.subset hc), h.spaced.of_part ht⟩

theorem ready_stripWorktree (h : Ready env name.toList) :
    Ready env (stripWorktree name).toList := by
  rw [stripWorktree, String.toList_ofList]
  have hsub := stripPasses_sublist (countMarker 0 name.toList + 1) name.toList
  have hslash : ∀ c, Apart '/' c := fun c hboth => by
    have hnot : PyText.isSpace '/' = false := by decide
    rw [hnot] at hboth
    exact Bool.false_ne_true hboth.1
  exact ⟨fun c hc => h.lowered c (hsub.subset hc),
    isChain_stripPasses hslash _ h.spaced.apart, fun c hc => h.spaced.blank c (hsub.subset hc)⟩

theorem ready_canonicalize (hl : NameLowering env.lower) (ty : EntityType) (value : String) :
    Ready env (canonicalize env ty value).toList := by
  have hfolded := ready_folded hl value
  rw [canonicalize_eq]
  split
  · exact (ready_stripWorktree hfolded).of_part (stripRoot_part _ _ _ _)
  · exact hfolded

theorem stripWorktree_sublist (path : String) :
    (stripWorktree path).toList.Sublist path.toList := by
  rw [stripWorktree, String.toList_ofList]
  exact stripPasses_sublist _ _

theorem canonicalize_tail (f : List Char → ℕ)
    (hf : ∀ {s t : List Char}, s.Sublist t → f s ≤ f t) (env : NameEnv) (ty : EntityType)
    (value : String) : f (canonicalize env ty value).toList ≤ f (folded env value).toList := by
  rw [canonicalize_eq]
  split
  · exact hf ((stripRoot_part _ _ _ _).sublist.trans (stripWorktree_sublist _))
  · exact le_rfl

theorem tildes_canonicalize (hl : NameLowering env.lower) (ty : EntityType) (value : String) :
    (canonicalize env ty value).toList.count '~' ≤ (env.expanduser value).toList.count '~' := by
  have hstrip := (strip_sublist (env.expanduser value)).count_le '~'
  have hlower := hl.tildes (PyText.strip (env.expanduser value))
  have hslash := (rstripSlash_sublist
    (env.lower (PyText.strip (env.expanduser value)))).count_le '~'
  have hcollapse := count_collapseSpaces_le false
    (rstripSlash (env.lower (PyText.strip (env.expanduser value)))).toList
  have htail := canonicalize_tail (List.count '~') (fun h => h.count_le '~') env ty value
  rw [folded, String.toList_ofList] at htail
  omega

/-- A name of the folded kind is its own canonical name exactly if it is settled. -/
theorem canonicalize_eq_self_iff (hl : NameLowering env.lower)
    (hexpand : env.expanduser name = name ∨
      (env.expanduser name).toList.count '~' < name.toList.count '~')
    (hready : Ready env name.toList) :
    canonicalize env ty name = name ↔ Settled env ty name := by
  have hlowered : ∀ t : String, t.toList.Sublist name.toList → env.lower t = t := fun t ht =>
    hl.same t fun c hc => hready.lowered c (ht.subset hc)
  have hclean : stripWorktree name = name ↔ ¬ HasWorktree true name.toList := by
    rw [← String.toList_inj, stripWorktree, String.toList_ofList]
    exact ⟨fun h => clean_of_stripPasses (congrArg List.length h), stripPasses_of_clean _⟩
  constructor
  · intro h
    have hsame : env.expanduser name = name := by
      refine hexpand.resolve_right fun hlt => ?_
      have hle := tildes_canonicalize hl ty name
      rw [h] at hle
      omega
    have hfolded : folded env name = String.ofList (collapseSpaces false
        (rstripSlash (PyText.strip name)).toList) := by
      rw [folded, hsame, hlowered _ (strip_sublist name)]
    -- every step keeps the length, so it keeps the text
    have htail := canonicalize_tail List.length (fun h => h.length_le) env ty name
    have hcollapse := length_collapseSpaces_le false (rstripSlash (PyText.strip name)).toList
    have hslash := rstripSlash_sublist (PyText.strip name)
    have hstrip := strip_sublist name
    have hslashLe := hslash.length_le
    have hstripLe := hstrip.length_le
    rw [h, hfolded, String.toList_ofList] at htail
    have hstripped : PyText.strip name = name :=
      String.toList_inj.mp (hstrip.eq_of_length (by omega))
    have hunslashed : rstripSlash name = name := by
      rw [hstripped] at hslash hslashLe hcollapse htail
      exact String.toList_inj.mp (hslash.eq_of_length (by omega))
    have hkept : folded env name = name := by
      rw [hfolded, hstripped, hunslashed, collapseSpaces_of_spaced hready.spaced (by simp),
        String.ofList_toList]
    obtain ⟨hfront, hback⟩ := (strip_eq_self_iff name).mp hstripped
    have hpath : ty.isPathType = true → stripWorktree name = name ∧
        stripRoot env ty env.projectRoots name = name := by
      intro hty
      rw [canonicalize_eq, if_pos hty, hkept] at h
      have hinfix := (stripRoot_part env ty env.projectRoots (stripWorktree name)).sublist
      have hworktree := stripWorktree_sublist name
      rw [h] at hinfix
      have hbare : stripWorktree name = name :=
        String.toList_inj.mp (hworktree.antisymm hinfix)
      rw [hbare] at h
      exact ⟨hbare, h⟩
    exact ⟨hsame, hfront,
      fun c hc => ⟨hback c hc, (rstripSlash_eq_self_iff name).mp hunslashed c hc⟩,
      fun hty => hclean.mp (hpath hty).1, fun hty => stripRoot_eq_self_iff.mp (hpath hty).2⟩
  · intro h
    have hstripped : PyText.strip name = name :=
      (strip_eq_self_iff name).mpr ⟨h.front, fun c hc => (h.back c hc).1⟩
    have hunslashed : rstripSlash name = name :=
      (rstripSlash_eq_self_iff name).mpr fun c hc => (h.back c hc).2
    have hkept : folded env name = name := by
      rw [folded, h.expanded, hstripped, hlowered name (List.Sublist.refl _), hunslashed,
        collapseSpaces_of_spaced hready.spaced (by simp), String.ofList_toList]
    rw [canonicalize_eq, hkept]
    split
    · rename_i hty
      rw [hclean.mpr (h.noWorktree hty), stripRoot_eq_self_iff.mpr (h.noRoot hty)]
    · rfl

/-- What a home directory is put in for has one tilde less. -/
theorem expandUser_tildes {home : String → Option String}
    (hhome : ∀ user directory, home user = some directory → '~' ∉ directory.toList)
    (path : String) : expandUser home path = path ∨
      (expandUser home path).toList.count '~' < path.toList.count '~' := by
  rw [expandUser]
  split
  · rename_i rest hpath
    split
    · exact Or.inl rfl
    · rename_i directory hdirectory
      right
      have hrest := (List.dropWhile_sublist (l := rest) (· ≠ '/')).count_le '~'
      have hfree : (rstripSlash directory).toList.count '~' = 0 :=
        List.count_eq_zero.mpr fun hmem =>
          hhome _ directory hdirectory ((rstripSlash_sublist directory).subset hmem)
      rw [hpath, List.count_cons_self]
      dsimp only
      split
      · have hslash : "/".toList.count '~' = 0 := by decide
        omega
      · rw [String.toList_append, List.count_append, String.toList_ofList]
        omega
  · exact Or.inl rfl

/-- A machine with one user and one project. -/
def oneUser : NameEnv :=
  ⟨expandUser fun user => if user = "" then some "/home/u" else none, id, ["/p"]⟩

theorem nameLowering_id : NameLowering id where
  toLowering := Retrieval.lowering_id
  tildes := fun _ => le_rfl

end Again

end Hippo.EntityNames
