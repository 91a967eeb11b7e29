import Hippo.EvalLinkageWalk

/-!
# Which commit a finding is attributed to

A commit without a note took the flagged line away after the review. A commit with the note is the
first that touched the file since the review, of a line that no commit of the walk and no branch has
any more. On a history without merges the commit that took the line away is always found. The
cache of a pass changes none of this.
-/
namespace Hippo.EvalLinkage

section Cache

variable (sha256 : List UInt8 → String)

/-- Every entry is what the repository says now. -/
def Faithful (gits : String → Git) (cache : RefLines) : Prop :=
  ∀ repo ref path hashes, cache.lookup (repo, ref, path) = some hashes →
    ∃ file, (gits repo).blob ref path = .ok file ∧ hashes = (file.map (lineHashes sha256)).getD []

/-- `_line_on_a_ref` without a cache, over these refs. -/
def lineOnRefsPlain (git : Git) (path wanted : String) : List String → Call (Option String)
  | [] => return none
  | ref :: refs => do
    let file ← git.blob ref path
    if containsLine sha256 wanted file then
      return some ("flagged line still present on " ++ ref)
    lineOnRefsPlain git path wanted refs

variable {sha256} {gits : String → Git} {repo path wanted : String} {cache : RefLines}

theorem faithful_empty : Faithful sha256 gits [] := by
  intro repo ref path hashes h
  cases h

theorem mem_hashes (file : Option (List UInt8)) :
    wanted ∈ (file.map (lineHashes sha256)).getD [] ↔ containsLine sha256 wanted file = true := by
  cases file with
  | none => simp [containsLine]
  | some blob => simp [containsLine]

theorem refHashes_spec (hcache : Faithful sha256 gits cache) (ref : String) :
    (∃ e, (gits repo).blob ref path = .error e ∧
      refHashes sha256 (gits repo) repo path ref cache = .error e) ∨
    ∃ file cache', (gits repo).blob ref path = .ok file ∧ Faithful sha256 gits cache' ∧
      refHashes sha256 (gits repo) repo path ref cache =
        .ok ((file.map (lineHashes sha256)).getD [], cache') := by
  unfold refHashes
  split
  · rename_i hashes hlookup
    obtain ⟨file, hfile, rfl⟩ := hcache repo ref path hashes hlookup
    exact Or.inr ⟨file, cache, hfile, hcache, rfl⟩
  · cases hfile : (gits repo).blob ref path with
    | error e => exact Or.inl ⟨e, rfl, rfl⟩
    | ok file =>
      refine Or.inr ⟨file, _, rfl, ?_, rfl⟩
      intro repo' ref' path' hashes hlookup
      rw [List.lookup_cons] at hlookup
      split at hlookup
      · rename_i heq
        obtain ⟨rfl, rfl, rfl⟩ : repo' = repo ∧ ref' = ref ∧ path' = path := by
          simpa using heq
        exact ⟨file, hfile, (Option.some.inj hlookup).symm⟩
      · exact hcache repo' ref' path' hashes hlookup

/-- The cache changes no answer, and stays faithful. -/
theorem lineOnRefs_plain (repo path wanted : String) (hcache : Faithful sha256 gits cache)
    (refs : List String) :
    (lineOnRefs sha256 (gits repo) repo path wanted refs cache).1 =
        lineOnRefsPlain sha256 (gits repo) path wanted refs ∧
      Faithful sha256 gits (lineOnRefs sha256 (gits repo) repo path wanted refs cache).2 := by
  induction refs generalizing cache with
  | nil => exact ⟨rfl, hcache⟩
  | cons ref refs ih =>
    unfold lineOnRefs lineOnRefsPlain
    rcases refHashes_spec hcache ref with ⟨e, hfile, hhashes⟩ |
      ⟨file, cache', hfile, hcache', hhashes⟩
    · rw [hhashes, hfile]
      exact ⟨rfl, hcache⟩
    · rw [hhashes, hfile]
      dsimp only
      by_cases hline : containsLine sha256 wanted file = true
      · rw [if_pos ((mem_hashes file).mpr hline)]
        refine ⟨?_, hcache'⟩
        show _ = if _ then _ else _
        rw [if_pos hline]
        rfl
      · rw [if_neg (fun hmem => hline ((mem_hashes file).mp hmem))]
        refine ⟨?_, (ih hcache').2⟩
        show _ = if _ then _ else _
        rw [if_neg hline]
        exact (ih hcache').1

theorem lineOnRefsPlain_none {git : Git} {refs : List String}
    (h : lineOnRefsPlain sha256 git path wanted refs = .ok none) :
    ∀ ref ∈ refs, hasLine sha256 git path wanted ref = false := by
  induction refs with
  | nil => simp
  | cons ref refs ih =>
    unfold lineOnRefsPlain at h
    rw [bind_eq_ok] at h
    obtain ⟨file, hfile, h⟩ := h
    split at h
    · cases h
    · rename_i hline
      intro ref' href'
      rcases List.mem_cons.mp href' with rfl | href'
      · rw [hasLine_of_blob sha256 wanted hfile]
        simpa using hline
      · exact ih h ref' href'

end Cache

section Change

variable (sha256 : List UInt8 → String) (git : Git) (headSha path wanted : String)
  (startedAtMs : ℤ)

/-- The commit took the line away, not before the review where that must be checked; on the history
of the reviewed commit it is the first such commit. -/
def Observed (w : Walk) (listed : List (String × ℤ)) (commit : String) : Prop :=
  ∃ pre t post, listed = pre ++ (commit, t) :: post ∧
    Removes sha256 git path wanted (holdersOf sha256 git path wanted w.start pre) commit ∧
    (w.guarded = true → startedAtMs ≤ t * 1000) ∧
    (w.guarded = false → Unfixed sha256 git path wanted w.start pre)

/-- The commit is the first since the review to touch the file; the walk has lost the line, the
reviewed branch is gone and no branch has the line. -/
structure Inferred (w : Walk) (listed : List (String × ℤ)) (commit : String) : Prop where
  first : firstTouchOf git path startedAtMs listed = some commit
  forgotten : Forgotten sha256 git path wanted startedAtMs w.guarded w.start listed
  unfixed : w.guarded = false → Unfixed sha256 git path wanted w.start listed
  merged : w.guarded = true → git.refsContaining headSha = .ok ⟨0, []⟩
  offRefs : ∃ refs, git.refs = .ok ⟨0, refs⟩ ∧
    ∀ ref ∈ refs, hasLine sha256 git path wanted ref = false

variable {sha256 git headSha path wanted startedAtMs}

theorem inferenceBlocked_none (h : inferenceBlocked git headSha = .ok none) :
    git.refsContaining headSha = .ok ⟨0, []⟩ := by
  unfold inferenceBlocked at h
  rw [bind_eq_ok] at h
  obtain ⟨refs, hrefs, h⟩ := h
  obtain ⟨code, out⟩ := refs
  rw [hrefs]
  by_cases hcode : code = 0
  · rw [hcode, if_neg (by simp)] at h
    have hout : (if out = [] then none else some _ : Option String) = none := Except.ok.inj h
    split at hout
    · rename_i hempty
      rw [hcode, hempty]
    · cases hout
  · rw [if_pos hcode] at h
    cases h

theorem tracks_start {w : Walk} {file : Option (List UInt8)}
    (hfile : git.blob w.start path = .ok file) :
    Tracks sha256 git path wanted startedAtMs w.guarded w.start []
      { seen := containsLine sha256 wanted file
        holders := if containsLine sha256 wanted file then [w.start] else [] } := by
  have hline := hasLine_of_blob sha256 wanted hfile
  have hholders : holdersOf sha256 git path wanted w.start [] =
      if containsLine sha256 wanted file then [w.start] else [] := by
    rw [holdersOf, List.map_nil, List.filter_singleton, hline, Bool.cond_eq_ite]
  refine ⟨hholders.symm, rfl, rfl, ?_, ?_, ?_⟩
  · intro hseen
    change containsLine sha256 wanted file = true at hseen
    simp [hseen]
  · intro hseen
    change containsLine sha256 wanted file = false at hseen
    left
    rw [hholders, hseen]
    rfl
  · intro _ pre c t post hsplit
    cases pre <;> cases hsplit

/-- What is known when the refs are asked, and when a commit is reported without asking them. -/
theorem examine_ok {found : Finding}
    (h : examine sha256 git headSha path wanted startedAtMs = .ok found) :
    match found with
    | .settled outcome => outcome.commit = none ∨
        hasFile git path "HEAD" = true ∧ hasLine sha256 git path wanted "HEAD" = false ∧
          ∃ w listed commit, walkStart git headSha startedAtMs = .ok (.ok w) ∧
            git.revList w.start path = .ok listed ∧ outcome = { commit := some commit } ∧
            Observed sha256 git path wanted startedAtMs w listed commit
    | .guess first =>
        hasFile git path "HEAD" = true ∧ hasLine sha256 git path wanted "HEAD" = false ∧
          ∃ w listed, walkStart git headSha startedAtMs = .ok (.ok w) ∧
            git.revList w.start path = .ok listed ∧
            firstTouchOf git path startedAtMs listed = some first ∧
            Forgotten sha256 git path wanted startedAtMs w.guarded w.start listed ∧
            (w.guarded = false → Unfixed sha256 git path wanted w.start listed) ∧
            (w.guarded = true → git.refsContaining headSha = .ok ⟨0, []⟩) := by
  unfold examine at h
  rw [bind_eq_ok] at h
  obtain ⟨current, hhead, h⟩ := h
  cases current with
  | none =>
    obtain rfl := Except.ok.inj h
    exact Or.inl rfl
  | some current =>
    have hthere := hasFile_of_blob hhead
    have hhas := hasLine_of_blob sha256 wanted hhead
    dsimp only at h
    split at h
    · obtain rfl := Except.ok.inj h
      exact Or.inl rfl
    rename_i hline
    rw [Bool.not_eq_true, ← hhas] at hline
    rw [bind_eq_ok] at h
    obtain ⟨begun, hstart, h⟩ := h
    cases begun with
    | error reason =>
      obtain rfl := Except.ok.inj h
      exact Or.inl rfl
    | ok w =>
      obtain ⟨start, guarded⟩ := w
      dsimp only at h
      rw [bind_eq_ok] at h
      obtain ⟨listed, hlisted, h⟩ := h
      rw [bind_eq_ok] at h
      obtain ⟨file, hfile, h⟩ := h
      rw [bind_eq_ok] at h
      obtain ⟨walked, hwalk, h⟩ := h
      rcases walk_ok (tracks_start (w := ⟨start, guarded⟩) hfile) hwalk with ⟨p, rfl, htracks⟩ |
        ⟨pre, commit, t, post, rfl, rfl, hremoves, hafter, hunfixed⟩
      · rw [List.nil_append] at htracks
        dsimp only at h
        unfold conclude at h
        split at h
        · obtain rfl := Except.ok.inj h
          exact Or.inl rfl
        rename_i hseen
        split at h
        · obtain rfl := Except.ok.inj h
          exact Or.inl rfl
        split at h
        · obtain rfl := Except.ok.inj h
          exact Or.inl rfl
        rename_i first hfirst
        rw [Bool.not_eq_true] at hseen
        rw [htracks.firstTouch] at hfirst
        have hforgotten := htracks.forgotten hseen
        split at h
        · rename_i hguarded
          rw [bind_eq_ok] at h
          obtain ⟨blocked, hblocked, h⟩ := h
          cases blocked with
          | some reason =>
            obtain rfl := Except.ok.inj h
            exact Or.inl rfl
          | none =>
            obtain rfl := Except.ok.inj h
            exact ⟨hthere, hline, _, listed, hstart, hlisted, hfirst, hforgotten,
              htracks.unfixed, fun _ => inferenceBlocked_none hblocked⟩
        · rename_i hguarded
          obtain rfl := Except.ok.inj h
          exact ⟨hthere, hline, _, listed, hstart, hlisted, hfirst, hforgotten, htracks.unfixed,
            fun hguard => absurd hguard hguarded⟩
      · obtain rfl := Except.ok.inj h
        exact Or.inr ⟨hthere, hline, _, _, commit, hstart, hlisted, rfl, pre, t, post, rfl,
          hremoves, hafter, hunfixed⟩

/-- A finding is attributed only to a commit that took its line away, or with the note to the first
one that may have. -/
theorem change_sound (gits : String → Git) (repo : String) {cache : RefLines}
    (hcache : Faithful sha256 gits cache) {outcome : Outcome} {commit : String}
    (h : (findChange sha256 (gits repo) repo headSha path wanted startedAtMs cache).1 =
      .ok outcome) (hcommit : outcome.commit = some commit) :
    hasFile (gits repo) path "HEAD" = true ∧
      hasLine sha256 (gits repo) path wanted "HEAD" = false ∧
      ∃ w listed, walkStart (gits repo) headSha startedAtMs = .ok (.ok w) ∧
        (gits repo).revList w.start path = .ok listed ∧
        (outcome.note = none ∧
            Observed sha256 (gits repo) path wanted startedAtMs w listed commit ∨
          outcome.note = some inferredNote ∧
            Inferred sha256 (gits repo) headSha path wanted startedAtMs w listed commit) := by
  unfold findChange at h
  cases hexamine : examine sha256 (gits repo) headSha path wanted startedAtMs with
  | error e =>
    rw [hexamine] at h
    cases h
  | ok found =>
    have hfound := examine_ok hexamine
    rw [hexamine] at h
    cases found with
    | settled settled =>
      obtain rfl := Except.ok.inj h
      rcases hfound with hnone | ⟨hthere, hline, w, listed, c, hstart, hlisted, rfl, hobserved⟩
      · rw [hnone] at hcommit
        cases hcommit
      · obtain rfl := Option.some.inj hcommit
        exact ⟨hthere, hline, w, listed, hstart, hlisted, Or.inl ⟨rfl, hobserved⟩⟩
    | guess first =>
      obtain ⟨hthere, hline, w, listed, hstart, hlisted, hfirst, hforgotten, hunfixed, hmerged⟩ :=
        hfound
      refine ⟨hthere, hline, w, listed, hstart, hlisted, Or.inr ?_⟩
      dsimp only at h
      unfold lineOnARef at h
      cases hrefs : (gits repo).refs with
      | error e =>
        rw [hrefs] at h
        cases h
      | ok refs =>
        obtain ⟨code, refs⟩ := refs
        rw [hrefs] at h
        dsimp only at h
        by_cases hcode : code = 0
        · rw [hcode, if_neg (by simp)] at h
          have hplain := (lineOnRefs_plain repo path wanted hcache refs).1
          cases hanswer : lineOnRefs sha256 (gits repo) repo path wanted refs cache with
          | mk answer cache' =>
            rw [hanswer] at h hplain
            cases answer with
            | error e => cases h
            | ok blocked =>
              cases blocked with
              | some reason =>
                obtain rfl := Except.ok.inj h
                cases hcommit
              | none =>
                obtain rfl := Except.ok.inj h
                obtain rfl := Option.some.inj hcommit
                refine ⟨rfl, hfirst, hforgotten, hunfixed, hmerged, refs, ?_, ?_⟩
                · rw [hcode] at hrefs
                  exact hrefs
                · exact lineOnRefsPlain_none hplain.symm
        · rw [if_pos hcode] at h
          obtain rfl := Except.ok.inj h
          cases hcommit

/-- A pass keeps its cache faithful. -/
theorem findChange_faithful {gits : String → Git} {repo : String} {cache : RefLines}
    (hcache : Faithful sha256 gits cache) :
    Faithful sha256 gits
      (findChange sha256 (gits repo) repo headSha path wanted startedAtMs cache).2 := by
  unfold findChange
  split
  · exact hcache
  · exact hcache
  · have hrefs : Faithful sha256 gits
        (lineOnARef sha256 (gits repo) repo path wanted cache).2 := by
      unfold lineOnARef
      split
      · exact hcache
      · split
        · exact hcache
        · exact (lineOnRefs_plain repo path wanted hcache _).2
    split <;> (rename_i heq; rw [heq] at hrefs; exact hrefs)

/-- The digests of two lines and of the empty one. -/
def digestOf (line : List UInt8) : String :=
  if line = "x = 1".toUTF8.toList then
    "8ff436def1451285599a1b1ad70800493b8dcafde2912e1a38345633054e4c26"
  else if line = "x = 2".toUTF8.toList then
    "1431b986377b5430f01fd6900d873fa289d546f304bc58c18d42492f87f54016"
  else "e3b0c44298fc1c149afbf4c8996fb92427ae41e4649b934ca495991b7852b855"

/-- A repository with a reviewed commit and one that changes the reviewed line. -/
def twoCommits : Git where
  catFile rev _ :=
    if rev = "reviewed" then .ok ⟨0, "x = 1\n".toUTF8.toList⟩
    else if rev ∈ ["fixed", "HEAD", "refs/heads/main"] then .ok ⟨0, "x = 2\n".toUTF8.toList⟩
    else .ok ⟨128, []⟩
  lsTree _ _ := .ok ⟨0, []⟩
  hasCommit rev := .ok ⟨if rev ∈ ["reviewed", "fixed"] then 0 else 128, ()⟩
  mergeBase rev := .ok ⟨0, rev⟩
  lastBefore _ := .ok none
  revList start _ := .ok (if start = "reviewed" then [("fixed", 2000)] else [])
  parents rev := .ok (if rev = "fixed" then ["reviewed"] else [])
  isAncestor a b := .ok ⟨if a = b ∨ a = "reviewed" then 0 else 1, ()⟩
  refsContaining _ := .ok ⟨0, ["refs/heads/main"]⟩
  refs := .ok ⟨0, ["refs/heads/main"]⟩

theorem change_sound_of_two :
    hasFile twoCommits "x.py" "HEAD" = true ∧
      hasLine digestOf twoCommits "x.py" (digestOf "x = 1".toUTF8.toList) "HEAD" = false ∧
      ∃ w listed, walkStart twoCommits "reviewed" 1000000 = .ok (.ok w) ∧
        twoCommits.revList w.start "x.py" = .ok listed ∧
        (({ commit := some "fixed" } : Outcome).note = none ∧
            Observed digestOf twoCommits "x.py" (digestOf "x = 1".toUTF8.toList) 1000000 w listed
              "fixed" ∨
          ({ commit := some "fixed" } : Outcome).note = some inferredNote ∧
            Inferred digestOf twoCommits "reviewed" "x.py" (digestOf "x = 1".toUTF8.toList) 1000000
              w listed "fixed") :=
  change_sound (fun _ => twoCommits) "/r" faithful_empty (by decide +kernel) rfl

end Change

section Chain

variable (sha256 : List UInt8 → String) (git : Git) (path wanted : String)

/-- What `rev-list` prints of a chain of commits: all that change the file, and perhaps others. -/
inductive Listed : String → List (String × ℤ) → List (String × ℤ) → Prop
  | nil (prev : String) : Listed prev [] []
  | listed {prev : String} {c : String × ℤ} {rest listed : List (String × ℤ)} :
      Listed c.1 rest listed → Listed prev (c :: rest) (c :: listed)
  | skipped {prev : String} {c : String × ℤ} {rest listed : List (String × ℤ)} :
      git.blob c.1 path = git.blob prev path → Listed c.1 rest listed →
      Listed prev (c :: rest) listed

/-- From this commit on, every commit has the one before as its only parent, and all can be read. -/
structure Linear (prev : String) (commits : List (String × ℤ)) : Prop where
  readable : ∀ c ∈ prev :: commits.map Prod.fst, ∃ file, git.blob c path = .ok file
  parents : List.IsChain (fun a b => git.parents b = .ok [a]) (prev :: commits.map Prod.fst)
  ancestors : (prev :: commits.map Prod.fst).Pairwise fun a b =>
    git.isAncestor a b = .ok ⟨0, ()⟩

/-- The last commit of a chain. -/
def lastOf : String → List (String × ℤ) → String
  | prev, [] => prev
  | _, c :: rest => lastOf c.1 rest

/-- The reviewed commit and those after it up to `HEAD`, without a merge. -/
structure Chain (headSha : String) (commits : List (String × ℤ)) : Prop
    extends Linear git path headSha commits where
  present : git.hasCommit headSha = .ok ⟨0, ()⟩
  base : git.mergeBase headSha = .ok ⟨0, headSha⟩
  head : git.blob "HEAD" path = git.blob (lastOf headSha commits) path
  revList : ∃ listed, git.revList headSha path = .ok listed ∧
    Listed git path headSha commits listed

/-- The first of all commits that has the file without the line once the line was there. -/
def firstLoss (seen : Bool) : List (String × ℤ) → Option String
  | [] => none
  | c :: rest =>
    if hasLine sha256 git path wanted c.1 then firstLoss true rest
    else if hasFile git path c.1 && seen then some c.1
    else firstLoss seen rest

variable {sha256 git path wanted}

/-- If the line was there and the last commit has the file without it, some commit lost it. -/
theorem firstLoss_none {seen : Bool} {prev : String} {commits : List (String × ℤ)}
    (h : firstLoss sha256 git path wanted seen commits = none)
    (hprev : seen = true →
      hasLine sha256 git path wanted prev = true ∨ hasFile git path prev = false)
    (hheld : seen = true ∨ ∃ c ∈ commits, hasLine sha256 git path wanted c.1 = true) :
    hasLine sha256 git path wanted (lastOf prev commits) = true ∨
      hasFile git path (lastOf prev commits) = false := by
  induction commits generalizing seen prev with
  | nil =>
    rcases hheld with hseen | ⟨c, hc, -⟩
    · exact hprev hseen
    · cases hc
  | cons c rest ih =>
    unfold firstLoss at h
    unfold lastOf
    by_cases hline : hasLine sha256 git path wanted c.1 = true
    · rw [if_pos hline] at h
      exact ih h (fun _ => Or.inl hline) (Or.inl rfl)
    · rw [if_neg hline] at h
      split at h
      · cases h
      · rename_i hnot
        apply ih h
        · intro hseen
          right
          simpa [hseen] using hnot
        · rcases hheld with hseen | ⟨c', hc', hline'⟩
          · exact Or.inl hseen
          · right
            rcases List.mem_cons.mp hc' with rfl | hc'
            · exact absurd hline' hline
            · exact ⟨c', hc', hline'⟩

theorem Linear.tail {prev : String} {c : String × ℤ} {rest : List (String × ℤ)}
    (h : Linear git path prev (c :: rest)) : Linear git path c.1 rest where
  readable c' hc' := h.readable c' (List.mem_cons_of_mem _ hc')
  parents := by
    have hparents := h.parents
    rw [List.map_cons, List.isChain_cons_cons] at hparents
    exact hparents.2
  ancestors := by
    have hancestors := h.ancestors
    rw [List.map_cons] at hancestors
    exact List.Pairwise.of_cons hancestors

/-- What the loop knows at a commit of the chain. -/
structure OnChain (sha256 : List UInt8 → String) (git : Git) (path wanted prev : String)
    (rest : List (String × ℤ)) (p : Progress) : Prop where
  ancestors : ∀ h ∈ p.holders, ∀ c ∈ rest, git.isAncestor h c.1 = .ok ⟨0, ()⟩
  held : p.seen = true → p.holders ≠ []
  seen : p.seen = true →
    hasLine sha256 git path wanted prev = true ∨ git.blob prev path = .ok none
  unseen : p.seen = false → hasLine sha256 git path wanted prev = false

/-- On a chain a commit that has the file without the line takes it away from its parent. -/
theorem takesAway_chain {prev commit : String} {holders : List String}
    {file : Option (List UInt8)} (hparents : git.parents commit = .ok [prev])
    (hfile : git.blob prev path = .ok file)
    (hprev : containsLine sha256 wanted file = true ∨ file = none)
    (hholders : holders ≠ []) (hancestors : ∀ h ∈ holders, git.isAncestor h commit = .ok ⟨0, ()⟩) :
    takesAway sha256 git path wanted holders commit = .ok true := by
  have hblobs : git.parentBlobs commit path = .ok file.toList := by
    unfold Git.parentBlobs
    rw [bind_eq_ok]
    refine ⟨[prev], hparents, ?_⟩
    rw [bind_eq_ok]
    refine ⟨[file], ?_, ?_⟩
    · rw [List.mapM_cons, bind_eq_ok]
      refine ⟨file, hfile, ?_⟩
      rw [bind_eq_ok]
      exact ⟨[], rfl, rfl⟩
    · cases file <;> rfl
  unfold takesAway
  rw [bind_eq_ok]
  refine ⟨_, hblobs, ?_⟩
  cases file with
  | none =>
    obtain ⟨h, holders, rfl⟩ := List.exists_cons_of_ne_nil hholders
    have hdescends : git.descends commit h = .ok true := by
      unfold Git.descends
      rw [bind_eq_ok]
      exact ⟨_, hancestors h List.mem_cons_self, rfl⟩
    rw [Option.toList_none, if_pos rfl, List.anyM_cons, bind_eq_ok]
    exact ⟨true, hdescends, rfl⟩
  | some blob =>
    have hline : containsLine sha256 wanted (some blob) = true := by simpa using hprev
    show (if _ then _ else _) = _
    rw [if_neg (by simp)]
    simp [hline]
    rfl

/-- A round of the loop on a chain, where no commit counts as too early. -/
theorem visit_chain (startedAtMs : ℤ) {t : ℤ} {prev commit : String} {rest : List (String × ℤ)}
    {p : Progress} (hchain : Linear git path prev ((commit, t) :: rest))
    (hon : OnChain sha256 git path wanted prev ((commit, t) :: rest) p) :
    (hasFile git path commit = true ∧ hasLine sha256 git path wanted commit = false ∧
        p.seen = true ∧
        visit sha256 git path wanted startedAtMs false p commit t = .ok none) ∨
      ∃ p', visit sha256 git path wanted startedAtMs false p commit t = .ok (some p') ∧
        OnChain sha256 git path wanted commit rest p' ∧
        firstLoss sha256 git path wanted p.seen ((commit, t) :: rest) =
          firstLoss sha256 git path wanted p'.seen rest := by
  obtain ⟨file, hfile⟩ := hchain.readable commit (by simp)
  have hhas := hasLine_of_blob sha256 wanted hfile
  have hthere := hasFile_of_blob hfile
  have hparents : git.parents commit = .ok [prev] := by
    have hall := hchain.parents
    rw [List.map_cons, List.isChain_cons_cons] at hall
    exact hall.1
  have hrest : ∀ c ∈ rest, git.isAncestor commit c.1 = .ok ⟨0, ()⟩ := by
    intro c hc
    have hall := hchain.tail.ancestors
    rw [List.pairwise_cons] at hall
    exact hall.1 c.1 (List.mem_map_of_mem hc)
  have hancestors : ∀ h ∈ p.holders, ∀ c ∈ rest, git.isAncestor h c.1 = .ok ⟨0, ()⟩ :=
    fun h hh c hc => hon.ancestors h hh c (List.mem_cons_of_mem _ hc)
  rw [firstLoss]
  cases file with
  | none =>
    have hline : hasLine sha256 git path wanted commit = false := hhas
    have hvisit : visit sha256 git path wanted startedAtMs false p commit t = .ok (some p) := by
      unfold visit
      rw [hfile]
      rfl
    refine Or.inr ⟨p, hvisit, ⟨hancestors, hon.held, fun _ => Or.inr hfile, fun _ => hline⟩, ?_⟩
    simp [hline, hthere]
  | some blob =>
    cases hline : containsLine sha256 wanted (some blob) with
    | true =>
      rw [hline] at hhas
      have hvisit : visit sha256 git path wanted startedAtMs false p commit t =
          .ok (some { p.touch startedAtMs commit t with
            seen := true, holders := p.holders ++ [commit] }) := by
        unfold visit
        rw [hfile]
        show (if _ then _ else _) = _
        rw [if_pos hline]
        rfl
      refine Or.inr ⟨_, hvisit, ⟨?_, fun _ => by simp, fun _ => Or.inl hhas, ?_⟩, by simp [hhas]⟩
      · intro h hh c hc
        rcases List.mem_append.mp hh with hh | hh
        · exact hancestors h hh c hc
        · rw [List.mem_singleton.mp hh]
          exact hrest c hc
      · intro hseen
        cases hseen
    | false =>
      rw [hline] at hhas
      cases hseen : p.seen with
      | false =>
        have hvisit : visit sha256 git path wanted startedAtMs false p commit t =
            .ok (some (p.touch startedAtMs commit t)) := by
          unfold visit
          rw [hfile]
          show (if _ then _ else if (!p.seen) = true then _ else _) = _
          rw [hline, hseen]
          rfl
        refine Or.inr ⟨_, hvisit, ⟨hancestors, hon.held, ?_, fun _ => hhas⟩, ?_⟩
        · intro hseen'
          rw [show (p.touch startedAtMs commit t).seen = p.seen from rfl, hseen] at hseen'
          cases hseen'
        · rw [show (p.touch startedAtMs commit t).seen = p.seen from rfl, hseen]
          simp [hhas]
      | true =>
        obtain ⟨before, hbefore⟩ := hchain.readable prev List.mem_cons_self
        have hprev : containsLine sha256 wanted before = true ∨ before = none := by
          rcases hon.seen hseen with hheld | hgone
          · left
            rwa [hasLine_of_blob sha256 wanted hbefore] at hheld
          · right
            exact Except.ok.inj (hbefore.symm.trans hgone)
        have htaken := takesAway_chain hparents hbefore hprev (hon.held hseen)
          fun h hh => hon.ancestors h hh (commit, t) List.mem_cons_self
        refine Or.inl ⟨hthere, hhas, rfl, ?_⟩
        unfold visit
        rw [hfile]
        show (if _ then _ else if (!p.seen) = true then _ else
          takesAway sha256 git path wanted p.holders commit >>= _) = _
        rw [hline, hseen, htaken]
        rfl

/-- The walk over what `rev-list` prints of a chain finds the first loss among all its commits. -/
theorem walk_chain (startedAtMs : ℤ) {prev commit : String} {rest listed : List (String × ℤ)}
    {p : Progress} (hchain : Linear git path prev rest)
    (hlisted : Listed git path prev rest listed) (hon : OnChain sha256 git path wanted prev rest p)
    (h : firstLoss sha256 git path wanted p.seen rest = some commit) :
    walk sha256 git path wanted startedAtMs false p listed = .ok (.fixedBy commit) := by
  induction hlisted generalizing p with
  | nil => cases h
  | @listed prev c rest listed hlisted ih =>
    obtain ⟨c, t⟩ := c
    unfold walk
    rw [bind_eq_ok]
    rcases visit_chain startedAtMs hchain hon with
      ⟨hfile, hline, hseen, hvisit⟩ | ⟨p', hvisit, hon', hloss⟩
    · refine ⟨none, hvisit, ?_⟩
      rw [firstLoss, if_neg (by simp [hline]), if_pos (by simp [hfile, hseen])] at h
      obtain rfl := Option.some.inj h
      rfl
    · rw [hloss] at h
      exact ⟨some p', hvisit, ih hchain.tail hon' h⟩
  | @skipped prev c rest listed hsame hlisted ih =>
    have hline : hasLine sha256 git path wanted c.1 = hasLine sha256 git path wanted prev := by
      rw [hasLine, hasLine, hsame]
    have hfile : hasFile git path c.1 = hasFile git path prev := by
      rw [hasFile, hasFile, hsame]
    have hon' : OnChain sha256 git path wanted c.1 rest p := by
      refine ⟨fun h hh c' hc' => hon.ancestors h hh c' (List.mem_cons_of_mem _ hc'), hon.held, ?_,
        ?_⟩
      · rw [hline, hsame]
        exact hon.seen
      · rw [hline]
        exact hon.unseen
    apply ih hchain.tail hon'
    rw [← h, firstLoss, hline, hfile]
    cases hseen : p.seen with
    | false => simp [hon.unseen hseen]
    | true =>
      rcases hon.seen hseen with hheld | hgone
      · simp [hheld]
      · rw [hasLine_of_blob sha256 wanted hgone, hasFile_of_blob hgone]
        simp [containsLine]

/-- On a history without merges, a line that was in the file at the review or later, and that the
file at `HEAD` does not have, is attributed to the first commit that has the file without it. -/
theorem change_exact {headSha : String} {commits : List (String × ℤ)}
    (hchain : Chain git path headSha commits) (hfile : hasFile git path "HEAD" = true)
    (hline : hasLine sha256 git path wanted "HEAD" = false)
    (hheld : ∃ c ∈ headSha :: commits.map Prod.fst, hasLine sha256 git path wanted c = true)
    (repo : String) (startedAtMs : ℤ) (cache : RefLines) :
    ∃ commit, firstLoss sha256 git path wanted (hasLine sha256 git path wanted headSha) commits =
        some commit ∧
      findChange sha256 git repo headSha path wanted startedAtMs cache =
        (.ok { commit := some commit }, cache) := by
  have hlast : hasLine sha256 git path wanted (lastOf headSha commits) = false ∧
      hasFile git path (lastOf headSha commits) = true := by
    rw [hasLine, hasFile, ← hchain.head]
    exact ⟨hline, hfile⟩
  obtain ⟨commit, hloss⟩ : ∃ commit, firstLoss sha256 git path wanted
      (hasLine sha256 git path wanted headSha) commits = some commit := by
    rw [← Option.ne_none_iff_exists']
    intro hnone
    rcases firstLoss_none hnone (fun hseen => Or.inl hseen) (by simpa using hheld) with h | h
    · rw [hlast.1] at h
      cases h
    · rw [hlast.2] at h
      cases h
  refine ⟨commit, hloss, ?_⟩
  obtain ⟨current, hcurrent, hlacks⟩ : ∃ current, git.blob "HEAD" path = .ok (some current) ∧
      containsLine sha256 wanted (some current) = false := by
    unfold hasFile at hfile
    split at hfile
    · rename_i file hblob
      obtain ⟨current, rfl⟩ := Option.isSome_iff_exists.mp hfile
      exact ⟨current, hblob, (hasLine_of_blob sha256 wanted hblob).symm.trans hline⟩
    · cases hfile
  have hstart : walkStart git headSha startedAtMs = .ok (.ok ⟨headSha, false⟩) := by
    unfold walkStart
    rw [bind_eq_ok]
    refine ⟨_, hchain.present, ?_⟩
    rw [if_pos rfl, bind_eq_ok]
    refine ⟨_, hchain.base, ?_⟩
    simp
    rfl
  obtain ⟨listed, hlisted, hprints⟩ := hchain.revList
  obtain ⟨file, hstartFile⟩ := hchain.readable headSha List.mem_cons_self
  have hseen := hasLine_of_blob sha256 wanted hstartFile
  rw [hseen] at hloss
  have hon : OnChain sha256 git path wanted headSha commits
      { seen := containsLine sha256 wanted file
        holders := if containsLine sha256 wanted file then [headSha] else [] } := by
    refine ⟨?_, ?_, ?_, ?_⟩
    · intro h hh c hc
      have hall := hchain.ancestors
      rw [List.pairwise_cons] at hall
      split at hh
      · rw [List.mem_singleton.mp hh]
        exact hall.1 c.1 (List.mem_map_of_mem hc)
      · cases hh
    · intro htrue
      change containsLine sha256 wanted file = true at htrue
      simp [htrue]
    · intro htrue
      exact Or.inl (hseen.trans htrue)
    · intro hfalse
      exact hseen.trans hfalse
  have hwalk := walk_chain startedAtMs hchain.toLinear hprints hon hloss
  have hexamine : examine sha256 git headSha path wanted startedAtMs =
      .ok (.settled { commit := some commit }) := by
    unfold examine
    rw [bind_eq_ok]
    refine ⟨some current, hcurrent, ?_⟩
    show (if _ then _ else walkStart git headSha startedAtMs >>= _) = _
    rw [if_neg (by simp [hlacks]), bind_eq_ok]
    refine ⟨_, hstart, ?_⟩
    dsimp only
    rw [bind_eq_ok]
    refine ⟨listed, hlisted, ?_⟩
    rw [bind_eq_ok]
    refine ⟨file, hstartFile, ?_⟩
    rw [bind_eq_ok]
    exact ⟨_, hwalk, rfl⟩
  rw [findChange, hexamine]

theorem twoCommits_chain : Chain twoCommits "x.py" "reviewed" [("fixed", 2000)] where
  readable := by
    intro c hc
    rcases List.mem_pair.mp hc with rfl | rfl
    · exact ⟨_, rfl⟩
    · exact ⟨_, rfl⟩
  parents := by simp [twoCommits]
  ancestors := by simp [twoCommits]
  present := rfl
  base := rfl
  head := rfl
  revList := ⟨_, rfl, .listed (.nil _)⟩

theorem change_exact_of_two :
    ∃ commit, firstLoss digestOf twoCommits "x.py" (digestOf "x = 1".toUTF8.toList)
        (hasLine digestOf twoCommits "x.py" (digestOf "x = 1".toUTF8.toList) "reviewed")
        [("fixed", 2000)] = some commit ∧
      findChange digestOf twoCommits "/r" "reviewed" "x.py" (digestOf "x = 1".toUTF8.toList)
        1000000 [] = (.ok { commit := some commit }, []) :=
  change_exact twoCommits_chain (by decide +kernel) (by decide +kernel)
    ⟨"reviewed", List.mem_cons_self, by decide +kernel⟩ "/r" 1000000 []

end Chain

end Hippo.EvalLinkage
