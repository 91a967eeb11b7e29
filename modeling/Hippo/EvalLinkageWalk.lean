import Hippo.EvalLinkage

/-!
# What the walk of a linkage pass finds

After some commits the loop knows exactly which of them have the line, and it has not passed a
commit that took the line away. So a commit that is reported without a note took the line away, and
a commit with the note is the first that may have.
-/
namespace Hippo.EvalLinkage

section Calls

variable {α β : Type}

/-- What a sequence of calls answers is the answers of the calls. -/
theorem mapM_ok {f : α → Call β} {l : List α} {bs : List β} (h : l.mapM f = .ok bs) :
    (∀ a ∈ l, ∃ b ∈ bs, f a = .ok b) ∧ ∀ b ∈ bs, ∃ a ∈ l, f a = .ok b := by
  induction l generalizing bs with
  | nil =>
    obtain rfl := Except.ok.inj h
    simp
  | cons a l ih =>
    rw [List.mapM_cons, bind_eq_ok] at h
    obtain ⟨b, hb, h⟩ := h
    rw [bind_eq_ok] at h
    obtain ⟨bs', hbs', h⟩ := h
    obtain rfl := Except.ok.inj h
    obtain ⟨hleft, hright⟩ := ih hbs'
    constructor
    · intro a' ha'
      rcases List.mem_cons.mp ha' with rfl | ha'
      · exact ⟨b, List.mem_cons_self, hb⟩
      · obtain ⟨b', hb', hf⟩ := hleft a' ha'
        exact ⟨b', List.mem_cons_of_mem _ hb', hf⟩
    · intro b' hb'
      rcases List.mem_cons.mp hb' with rfl | hb'
      · exact ⟨a, List.mem_cons_self, hb⟩
      · obtain ⟨a', ha', hf⟩ := hright b' hb'
        exact ⟨a', List.mem_cons_of_mem _ ha', hf⟩

/-- A search that answers has found an element or asked them all. -/
theorem anyM_eq_ok {f : α → Call Bool} {l : List α} {found : Bool} (h : l.anyM f = .ok found) :
    found = true ↔ ∃ a ∈ l, f a = .ok true := by
  induction l with
  | nil =>
    obtain rfl := Except.ok.inj h
    simp
  | cons a l ih =>
    rw [List.anyM_cons, bind_eq_ok] at h
    obtain ⟨b, hb, h⟩ := h
    cases b with
    | true =>
      obtain rfl := Except.ok.inj h
      simp [hb]
    | false => simp [hb, ih h]

end Calls

section Sight

variable (sha256 : List UInt8 → String) (git : Git) (path wanted : String)

/-- The file is there at the revision and has the line. -/
def hasLine (rev : String) : Bool :=
  match git.blob rev path with
  | .ok file => containsLine sha256 wanted file
  | .error _ => false

/-- The file is there at the revision. -/
def hasFile (rev : String) : Bool :=
  match git.blob rev path with
  | .ok file => file.isSome
  | .error _ => false

/-- The walked commits whose file has the line, the start included. -/
def holdersOf (start : String) (done : List (String × ℤ)) : List String :=
  (start :: done.map Prod.fst).filter (hasLine sha256 git path wanted)

/-- A parent has the line; or no parent has the file, and some holder is an ancestor. -/
def Taken (holders : List String) (commit : String) : Prop :=
  ∃ parents, git.parents commit = .ok parents ∧
    ((∃ parent ∈ parents, hasLine sha256 git path wanted parent = true) ∨
      (∀ parent ∈ parents, git.blob parent path = .ok none) ∧
        ∃ h ∈ holders, git.descends commit h = .ok true)

/-- The commit has the file without the line, which was there before and which it takes away. -/
structure Removes (holders : List String) (commit : String) : Prop where
  file : hasFile git path commit = true
  lacks : hasLine sha256 git path wanted commit = false
  before : holders ≠ []
  taken : Taken sha256 git path wanted holders commit

end Sight

section Visit

variable {sha256 : List UInt8 → String} {git : Git} {path wanted : String} {startedAtMs : ℤ}
  {guarded : Bool} {p : Progress} {holders : List String} {commit : String} {committed : ℤ}

theorem hasLine_of_blob (sha256 : List UInt8 → String) (wanted : String) {rev : String}
    {file : Option (List UInt8)} (h : git.blob rev path = .ok file) :
    hasLine sha256 git path wanted rev = containsLine sha256 wanted file := by
  rw [hasLine, h]

theorem hasFile_of_blob {rev : String} {file : Option (List UInt8)}
    (h : git.blob rev path = .ok file) : hasFile git path rev = file.isSome := by
  rw [hasFile, h]

/-- The parents' files, of those that have it. -/
theorem parentBlobs_ok {blobs : List (List UInt8)} (h : git.parentBlobs commit path = .ok blobs) :
    ∃ parents, git.parents commit = .ok parents ∧
      (∀ parent ∈ parents, ∃ file, git.blob parent path = .ok file) ∧
      ∀ blob, blob ∈ blobs ↔ ∃ parent ∈ parents, git.blob parent path = .ok (some blob) := by
  unfold Git.parentBlobs at h
  rw [bind_eq_ok] at h
  obtain ⟨parents, hparents, h⟩ := h
  rw [bind_eq_ok] at h
  obtain ⟨files, hfiles, h⟩ := h
  obtain rfl := Except.ok.inj h
  obtain ⟨hleft, hright⟩ := mapM_ok hfiles
  refine ⟨parents, hparents, ?_, ?_⟩
  · intro parent hparent
    obtain ⟨file, -, hfile⟩ := hleft parent hparent
    exact ⟨file, hfile⟩
  · intro blob
    rw [List.mem_filterMap]
    constructor
    · rintro ⟨file, hmem, hfile⟩
      obtain ⟨parent, hparent, hblob⟩ := hright file hmem
      rw [show file = some blob from hfile] at hblob
      exact ⟨parent, hparent, hblob⟩
    · rintro ⟨parent, hparent, hblob⟩
      obtain ⟨file, hmem, hfile⟩ := hleft parent hparent
      rw [hblob] at hfile
      exact ⟨file, hmem, (Except.ok.inj hfile).symm⟩

/-- The test of the loop is what it is meant to be. -/
theorem takesAway_ok {taken : Bool}
    (h : takesAway sha256 git path wanted holders commit = .ok taken) :
    taken = true ↔ Taken sha256 git path wanted holders commit := by
  unfold takesAway at h
  rw [bind_eq_ok] at h
  obtain ⟨blobs, hblobs, h⟩ := h
  obtain ⟨parents, hparents, hread, hmem⟩ := parentBlobs_ok hblobs
  have hline : (∃ parent ∈ parents, hasLine sha256 git path wanted parent = true) ↔
      ∃ blob ∈ blobs, containsLine sha256 wanted (some blob) = true := by
    constructor
    · rintro ⟨parent, hparent, hhas⟩
      obtain ⟨file, hfile⟩ := hread parent hparent
      rw [hasLine_of_blob sha256 wanted hfile] at hhas
      cases file with
      | none => cases hhas
      | some blob => exact ⟨blob, (hmem blob).mpr ⟨parent, hparent, hfile⟩, hhas⟩
    · rintro ⟨blob, hblob, hhas⟩
      obtain ⟨parent, hparent, hfile⟩ := (hmem blob).mp hblob
      refine ⟨parent, hparent, ?_⟩
      rw [hasLine_of_blob sha256 wanted hfile, hhas]
  have hgone : (∀ parent ∈ parents, git.blob parent path = .ok none) ↔ blobs = [] := by
    rw [List.eq_nil_iff_forall_not_mem]
    constructor
    · intro hnone blob hblob
      obtain ⟨parent, hparent, hfile⟩ := (hmem blob).mp hblob
      rw [hnone parent hparent] at hfile
      cases hfile
    · intro hnone parent hparent
      obtain ⟨file, hfile⟩ := hread parent hparent
      cases file with
      | none => exact hfile
      | some blob => exact absurd ((hmem blob).mpr ⟨parent, hparent, hfile⟩) (hnone blob)
  have htaken : Taken sha256 git path wanted holders commit ↔
      (∃ blob ∈ blobs, containsLine sha256 wanted (some blob) = true) ∨
        blobs = [] ∧ ∃ h ∈ holders, git.descends commit h = .ok true := by
    rw [← hline, ← hgone]
    constructor
    · rintro ⟨parents', hparents', h⟩
      obtain rfl := Except.ok.inj (hparents.symm.trans hparents')
      exact h
    · intro h
      exact ⟨parents, hparents, h⟩
  rw [htaken]
  split at h
  · rename_i hempty
    rw [anyM_eq_ok h, hempty]
    simp
  · rename_i hfiles
    obtain rfl := Except.ok.inj h
    rw [List.any_eq_true]
    simp [hfiles]

/-- What a round does, by what the commit is. -/
inductive Visited (sha256 : List UInt8 → String) (git : Git) (path wanted : String)
    (startedAtMs : ℤ) (guarded : Bool) (p : Progress) (commit : String) (committed : ℤ) :
    Option Progress → Prop
  | deleted (file : hasFile git path commit = false)
      (line : hasLine sha256 git path wanted commit = false) :
      Visited sha256 git path wanted startedAtMs guarded p commit committed (some p)
  | holds (file : hasFile git path commit = true)
      (line : hasLine sha256 git path wanted commit = true) :
      Visited sha256 git path wanted startedAtMs guarded p commit committed
        (some { p.touch startedAtMs commit committed with
          seen := true, holders := p.holders ++ [commit] })
  | other (file : hasFile git path commit = true)
      (line : hasLine sha256 git path wanted commit = false)
      (not : p.seen = true → ¬ Taken sha256 git path wanted p.holders commit) :
      Visited sha256 git path wanted startedAtMs guarded p commit committed
        (some (p.touch startedAtMs commit committed))
  | early (file : hasFile git path commit = true)
      (line : hasLine sha256 git path wanted commit = false) (seen : p.seen = true)
      (taken : Taken sha256 git path wanted p.holders commit) (guard : guarded = true)
      (before : committed * 1000 < startedAtMs) :
      Visited sha256 git path wanted startedAtMs guarded p commit committed
        (some { p.touch startedAtMs commit committed with seen := false })
  | fix (file : hasFile git path commit = true)
      (line : hasLine sha256 git path wanted commit = false) (seen : p.seen = true)
      (taken : Taken sha256 git path wanted p.holders commit)
      (after : guarded = true → startedAtMs ≤ committed * 1000) :
      Visited sha256 git path wanted startedAtMs guarded p commit committed none

theorem visit_ok {r : Option Progress}
    (h : visit sha256 git path wanted startedAtMs guarded p commit committed = .ok r) :
    Visited sha256 git path wanted startedAtMs guarded p commit committed r := by
  unfold visit at h
  rw [bind_eq_ok] at h
  obtain ⟨file, hfile, h⟩ := h
  have hhas := hasLine_of_blob sha256 wanted hfile
  have hthere := hasFile_of_blob hfile
  cases file with
  | none =>
    obtain rfl := Except.ok.inj h
    exact .deleted hthere hhas
  | some blob =>
    dsimp only at h
    split at h
    · rename_i hline
      obtain rfl := Except.ok.inj h
      exact .holds hthere (hhas.trans hline)
    rename_i hline
    rw [Bool.not_eq_true, ← hhas] at hline
    split at h
    · rename_i hseen
      obtain rfl := Except.ok.inj h
      refine .other hthere hline ?_
      intro hseen'
      change (!p.seen) = true at hseen
      rw [hseen'] at hseen
      cases hseen
    rename_i hseen
    have hseen' : p.seen = true := by
      change ¬ (!p.seen) = true at hseen
      simpa using hseen
    rw [bind_eq_ok] at h
    obtain ⟨taken, htaken, h⟩ := h
    change takesAway sha256 git path wanted p.holders commit = _ at htaken
    have hiff := takesAway_ok htaken
    cases taken with
    | false =>
      obtain rfl := Except.ok.inj h
      refine .other hthere hline fun _ => ?_
      rw [← hiff]
      exact Bool.false_ne_true
    | true =>
      have hdone := hiff.mp rfl
      rw [if_neg (by decide)] at h
      split at h
      · rename_i hguard
        obtain rfl := Except.ok.inj h
        exact .early hthere hline hseen' hdone hguard.1 hguard.2
      · rename_i hguard
        obtain rfl := Except.ok.inj h
        refine .fix hthere hline hseen' hdone ?_
        intro hg
        by_contra hbefore
        exact hguard ⟨hg, by omega⟩

end Visit

section Walk

variable (sha256 : List UInt8 → String) (git : Git) (path wanted : String) (startedAtMs : ℤ)
  (guarded : Bool)

/-- The first of the commits that has the file and was made after the review started. -/
def firstTouchOf (done : List (String × ℤ)) : Option String :=
  (done.find? fun c => hasFile git path c.1 && decide (startedAtMs ≤ c.2 * 1000)).map Prod.fst

/-- The line is not there any more: none of the commits has it, or the last that had it was followed
by a removal before the review. -/
def Forgotten (start : String) (done : List (String × ℤ)) : Prop :=
  holdersOf sha256 git path wanted start done = [] ∨
    guarded = true ∧ ∃ pre commit committed post, done = pre ++ (commit, committed) :: post ∧
      Removes sha256 git path wanted (holdersOf sha256 git path wanted start pre) commit ∧
      committed * 1000 < startedAtMs ∧
      ∀ c ∈ post, hasLine sha256 git path wanted c.1 = false

/-- None of the commits took the line away. -/
def Unfixed (start : String) (done : List (String × ℤ)) : Prop :=
  ∀ pre commit committed post, done = pre ++ (commit, committed) :: post →
    ¬ Removes sha256 git path wanted (holdersOf sha256 git path wanted start pre) commit

/-- The variables of the loop after these commits. -/
structure Tracks (start : String) (done : List (String × ℤ)) (p : Progress) : Prop where
  holders : p.holders = holdersOf sha256 git path wanted start done
  touched : p.touched = done.any fun c => hasFile git path c.1
  firstTouch : p.firstTouch = firstTouchOf git path startedAtMs done
  seen : p.seen = true → p.holders ≠ []
  forgotten : p.seen = false → Forgotten sha256 git path wanted startedAtMs guarded start done
  unfixed : guarded = false → Unfixed sha256 git path wanted start done

end Walk

section Rounds

variable {sha256 : List UInt8 → String} {git : Git} {path wanted : String} {startedAtMs : ℤ}
  {guarded : Bool} {p : Progress} {start commit : String} {committed : ℤ}
  {done : List (String × ℤ)}

theorem holdersOf_append (more : List (String × ℤ)) :
    holdersOf sha256 git path wanted start (done ++ more) =
      holdersOf sha256 git path wanted start done ++
        (more.map Prod.fst).filter (hasLine sha256 git path wanted) := by
  rw [holdersOf, holdersOf, List.map_append, ← List.cons_append, List.filter_append]

theorem holdersOf_without (h : hasLine sha256 git path wanted commit = false) :
    holdersOf sha256 git path wanted start (done ++ [(commit, committed)]) =
      holdersOf sha256 git path wanted start done := by
  rw [holdersOf_append]
  simp [h]

theorem firstTouchOf_append_single :
    firstTouchOf git path startedAtMs (done ++ [(commit, committed)]) =
      (firstTouchOf git path startedAtMs done).or
        (if hasFile git path commit = true ∧ startedAtMs ≤ committed * 1000 then some commit
          else none) := by
  rw [firstTouchOf, firstTouchOf, List.find?_append, Option.map_or]
  congr 1
  by_cases h : hasFile git path commit = true ∧ startedAtMs ≤ committed * 1000
  · simp [h]
  · rw [if_neg h, List.find?_eq_none.mpr]
    · rfl
    · simpa using h

/-- A commit that takes nothing away leaves the others' judgement. -/
theorem Unfixed.append (h : Unfixed sha256 git path wanted start done)
    (hnot : ¬ Removes sha256 git path wanted (holdersOf sha256 git path wanted start done) commit) :
    Unfixed sha256 git path wanted start (done ++ [(commit, committed)]) := by
  intro pre c t post hsplit
  rcases List.eq_nil_or_concat post with rfl | ⟨post', last, rfl⟩
  · obtain ⟨rfl, hlast⟩ := List.append_inj' hsplit rfl
    obtain ⟨rfl, -⟩ := Prod.mk.inj (List.cons.inj hlast).1
    exact hnot
  · rw [List.concat_eq_append, ← List.cons_append, ← List.append_assoc] at hsplit
    obtain ⟨rfl, -⟩ := List.append_inj' hsplit rfl
    exact h pre c t post' rfl

theorem Forgotten.append (h : Forgotten sha256 git path wanted startedAtMs guarded start done)
    (hline : hasLine sha256 git path wanted commit = false) :
    Forgotten sha256 git path wanted startedAtMs guarded start (done ++ [(commit, committed)]) := by
  rcases h with hnone | ⟨hguard, pre, c, t, post, rfl, hremoves, hbefore, hpost⟩
  · left
    rw [holdersOf_without hline, hnone]
  · right
    refine ⟨hguard, pre, c, t, post ++ [(commit, committed)], by simp, hremoves, hbefore, ?_⟩
    intro c' hc'
    rcases List.mem_append.mp hc' with hc' | hc'
    · exact hpost c' hc'
    · rw [List.mem_singleton.mp hc']
      exact hline

theorem Tracks.touch (h : Tracks sha256 git path wanted startedAtMs guarded start done p)
    (hfile : hasFile git path commit = true) (committed : ℤ) :
    (p.touch startedAtMs commit committed).touched =
        ((done ++ [(commit, committed)]).any fun c => hasFile git path c.1) ∧
      (p.touch startedAtMs commit committed).firstTouch =
        firstTouchOf git path startedAtMs (done ++ [(commit, committed)]) := by
  constructor
  · simp [Progress.touch, hfile]
  · rw [firstTouchOf_append_single, ← h.firstTouch, Progress.touch]
    cases p.firstTouch with
    | none => simp [hfile]
    | some first => simp

/-- What one round preserves. -/
theorem Tracks.visit {p' : Progress}
    (h : Tracks sha256 git path wanted startedAtMs guarded start done p)
    (hvisit : Visited sha256 git path wanted startedAtMs guarded p commit committed (some p')) :
    Tracks sha256 git path wanted startedAtMs guarded start (done ++ [(commit, committed)]) p' := by
  cases hvisit with
  | deleted hfile hline =>
    refine ⟨?_, ?_, ?_, h.seen, fun hseen => (h.forgotten hseen).append hline, ?_⟩
    · rw [holdersOf_without hline, h.holders]
    · simp [h.touched, hfile]
    · simp [firstTouchOf_append_single, h.firstTouch, hfile]
    · intro hguard
      refine (h.unfixed hguard).append fun hremoves => ?_
      rw [hremoves.file] at hfile
      cases hfile
  | holds hfile hline =>
    obtain ⟨htouched, hfirst⟩ := h.touch hfile committed
    refine ⟨?_, htouched, hfirst, fun _ => by simp, ?_, ?_⟩
    · rw [holdersOf_append, ← h.holders]
      simp [hline]
    · intro hseen
      cases hseen
    · intro hguard
      refine (h.unfixed hguard).append fun hremoves => ?_
      rw [hremoves.lacks] at hline
      cases hline
  | other hfile hline hnot =>
    obtain ⟨htouched, hfirst⟩ := h.touch hfile committed
    refine ⟨?_, htouched, hfirst, h.seen, fun hseen => (h.forgotten hseen).append hline, ?_⟩
    · rw [holdersOf_without hline, ← h.holders]
      rfl
    · intro hguard
      refine (h.unfixed hguard).append fun hremoves => ?_
      rw [← h.holders] at hremoves
      cases hseen : p.seen with
      | true => exact hnot hseen hremoves.taken
      | false =>
        rcases h.forgotten hseen with hnone | ⟨hguarded, -⟩
        · exact hremoves.before (h.holders.trans hnone)
        · rw [hguard] at hguarded
          cases hguarded
  | early hfile hline hseen htaken hguarded hbefore =>
    obtain ⟨htouched, hfirst⟩ := h.touch hfile committed
    have hholders := h.seen hseen
    rw [h.holders] at hholders htaken
    refine ⟨?_, htouched, hfirst, ?_, ?_, ?_⟩
    · rw [holdersOf_without hline, ← h.holders]
      rfl
    · intro hseen
      cases hseen
    · intro _
      right
      refine ⟨hguarded, done, commit, committed, [], rfl, ⟨hfile, hline, hholders, htaken⟩,
        hbefore, ?_⟩
      intro c hc
      cases hc
    · intro hguard
      rw [hguarded] at hguard
      cases hguard

/-- A walk ends at a commit that took the line away, or after all commits. -/
theorem walk_ok {listed : List (String × ℤ)} {w : Walked}
    (h : Tracks sha256 git path wanted startedAtMs guarded start done p)
    (hwalk : walk sha256 git path wanted startedAtMs guarded p listed = .ok w) :
    (∃ p', w = .ended p' ∧
      Tracks sha256 git path wanted startedAtMs guarded start (done ++ listed) p') ∨
    ∃ pre c t post, listed = pre ++ (c, t) :: post ∧ w = .fixedBy c ∧
      Removes sha256 git path wanted (holdersOf sha256 git path wanted start (done ++ pre)) c ∧
      (guarded = true → startedAtMs ≤ t * 1000) ∧
      (guarded = false → Unfixed sha256 git path wanted start (done ++ pre)) := by
  induction listed generalizing p done with
  | nil =>
    obtain rfl := Except.ok.inj hwalk
    exact Or.inl ⟨p, rfl, by rwa [List.append_nil]⟩
  | cons c listed ih =>
    obtain ⟨c, t⟩ := c
    unfold walk at hwalk
    rw [bind_eq_ok] at hwalk
    obtain ⟨next, hvisit, hwalk⟩ := hwalk
    have hvisited := visit_ok hvisit
    cases next with
    | none =>
      obtain rfl := Except.ok.inj hwalk
      cases hvisited with
      | fix hfile hline hseen htaken hafter =>
        right
        have hholders := h.seen hseen
        rw [h.holders] at hholders htaken
        refine ⟨[], c, t, listed, rfl, rfl, ?_, hafter, ?_⟩
        · rw [List.append_nil]
          exact ⟨hfile, hline, hholders, htaken⟩
        · rw [List.append_nil]
          exact h.unfixed
    | some p' =>
      rcases ih (h.visit hvisited) hwalk with ⟨p'', rfl, htracks⟩ |
        ⟨pre, c', t', post, rfl, rfl, hremoves, hafter, hunfixed⟩
      · left
        refine ⟨p'', rfl, ?_⟩
        rwa [List.append_assoc] at htracks
      · right
        refine ⟨(c, t) :: pre, c', t', post, rfl, rfl, ?_, hafter, ?_⟩
        · rwa [List.append_assoc] at hremoves
        · rwa [List.append_assoc] at hunfixed

end Rounds

end Hippo.EvalLinkage
