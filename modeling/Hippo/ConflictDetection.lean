import Hippo.ProjectNames
import Hippo.Table
import Mathlib.Data.Sym.Sym2

/-!
# Contradictory decisions

`analyze_conflicts` looks at the hits of a query. Design decisions of different hits contradict
each other when each of the two chose what the other one only considered, in the same directory
and branch. The detector goes through the records once and compares each with the first one of
its group.
-/
namespace Hippo.ConflictDetection

section Source

/-- A JSON value, as far as its type, truth and `str` are looked at. -/
inductive Value where
  | str (s : String)
  | other (truthy : Bool) (text : String)
deriving DecidableEq, Repr

namespace Value

def truthy : Value → Bool
  | str s => s ≠ ""
  | other t _ => t

/-- `str(value)`. -/
def text : Value → String
  | str s => s
  | other _ t => t

end Value

/-- A dictionary of the list `design_decisions`. -/
structure DesignDecision where
  chosen : Option Value := none
  considered : Option Value := none
  reason : Option Value := none
deriving DecidableEq, Repr

/-- An evidence packet; `freshness` is there if it is a dictionary, and its status if that is a
string. -/
structure Packet where
  ref : Option String := none
  freshness : Option (Option String) := none
deriving DecidableEq, Repr

/-- A hit. An entry of `designDecisions` that is no dictionary is `none`. -/
structure Hit where
  uuid : Option String := none
  cwd : Option String := none
  gitBranch : Option String := none
  capturedAt : Option ℤ := none
  outcome : Option String := none
  summary : String := ""
  designDecisions : List (Option DesignDecision) := []
  evidence : List Packet := []
deriving DecidableEq, Repr

/-- One of the `entries` of `_decision_conflict`. -/
structure Entry where
  chosen : String
  considered : Option Value
  reason : Option Value
  uuid : Option String
  cwd : Option String
  gitBranch : Option String
  capturedAt : Option ℤ
  evidenceRefs : List String
deriving DecidableEq, Repr

/-- A string that is not empty. -/
def given (s : Option String) : Option String := s.filter (· ≠ "")

def evidenceRefs (hit : Hit) : List String := hit.evidence.filterMap fun p => given p.ref

def entriesOf (hit : Hit) : List Entry :=
  hit.designDecisions.filterMap fun d => do
    let d ← d
    let chosen ← d.chosen
    if chosen.truthy then
      some ⟨chosen.text, d.considered, d.reason, hit.uuid, hit.cwd, hit.gitBranch,
        hit.capturedAt, evidenceRefs hit⟩
    else none

def entries (hits : List Hit) : List Entry := hits.flatMap entriesOf

/-- The key of `groups`: the directory, the branch and the set of the two alternatives. -/
structure Key where
  cwd : String
  gitBranch : Option String
  alternatives : Sym2 String

instance : DecidableEq Key := fun a b =>
  decidable_of_iff (a.cwd = b.cwd ∧ a.gitBranch = b.gitBranch ∧ a.alternatives = b.alternatives)
    (by cases a; cases b; simp)

variable (casefold : String → String)

/-- `" ".join(s.casefold().split())`. -/
def normalized (s : String) : String :=
  String.ofList (ProjectName.joinWords (casefold s).toList)

/-- The choice of an entry. -/
def choice (e : Entry) : String := normalized casefold e.chosen

/-- The key of an entry, unless the loop skips it. -/
def key? (e : Entry) : Option Key :=
  match given e.uuid, given e.cwd, e.considered with
  | some _, some cwd, some (.str considered) =>
    if normalized casefold considered = "" ∨ choice casefold e = normalized casefold considered then
      none
    else some ⟨cwd, e.gitBranch, s(choice casefold e, normalized casefold considered)⟩
  | _, _, _ => none

/-- The loop over the sorted entries with the dictionary `groups`. -/
def scan : List (Key × Entry) → List Entry → Option (Entry × Entry)
  | _, [] => none
  | groups, e :: rest =>
    match key? casefold e with
    | none => scan groups rest
    | some key =>
      match groups.lookup key with
      | none => scan ((key, e) :: groups) rest
      | some older =>
        if older.uuid = e.uuid ∨ choice casefold older = choice casefold e then scan groups rest
        else some (older, e)

/-- `sorted(entries, key=lambda e: e.get("captured_at") or 0)`. -/
def byTime (es : List Entry) : List Entry := orderBy (fun e => e.capturedAt.getD 0) es

inductive Kind where
  | outcomeDisagreement
  | decisionContradiction
deriving DecidableEq, Repr

structure OutcomeSide where
  outcome : String
  uuid : Option String
  capturedAt : Option ℤ
  summary : String
  evidenceRefs : List String
deriving DecidableEq, Repr

structure Conflict where
  kind : Kind
  message : String
  sides : List (OutcomeSide ⊕ Entry)
deriving DecidableEq

/-- `_decision_conflict`. -/
def decisionConflict (repr : String → String) (hits : List Hit) : Option Conflict :=
  (scan casefold [] (byTime (entries hits))).map fun found =>
    { kind := .decisionContradiction
      message := "Records choose different explicit alternatives (" ++ repr found.1.chosen ++
        " and " ++ repr found.2.chosen ++ "). Verify their chronology before treating this as " ++
        "an unresolved contradiction."
      sides := [.inr found.1, .inr found.2] }

/-- `_outcome_conflict`. -/
def outcomeConflict (hits : List Hit) : Option Conflict :=
  let sides := hits.filterMap fun hit => do
    let outcome ← hit.outcome
    if outcome = "success" ∨ outcome = "failure" then
      some (OutcomeSide.mk outcome hit.uuid hit.capturedAt hit.summary (evidenceRefs hit))
    else none
  if (∃ side ∈ sides, side.outcome = "success") ∧ ∃ side ∈ sides, side.outcome = "failure" then
    some
      { kind := .outcomeDisagreement
        message := "Knowledge nodes disagree on whether the work succeeded or failed."
        sides := (orderBy (fun side => side.capturedAt.getD 0) sides).map .inl }
  else none

def staleStatuses : List String :=
  ["stale", "suppressed_idle", "expected_absent", "unknown", "failing"]

structure StalenessWarning where
  message : String
  evidenceRefs : List String
deriving DecidableEq

/-- `_staleness_warning`. -/
def stalenessWarning (hits : List Hit) : Option StalenessWarning :=
  let packets := hits.flatMap Hit.evidence
  let statuses := packets.filterMap Packet.freshness
  if statuses ≠ [] ∧ (statuses.all fun s => s.all (· ∈ staleStatuses)) then
    some ⟨"All cited evidence is stale, idle, or from absent capture sources.",
      packets.filterMap fun p => given p.ref⟩
  else none

structure Report where
  staleness : Option StalenessWarning
  conflicts : List Conflict
  hasUnresolvedConflicts : Bool
  summary : String

/-- `analyze_conflicts`. -/
def analyzeConflicts (repr : String → String) (hits : List Hit) : Report :=
  let conflicts := (outcomeConflict hits).toList ++ (decisionConflict casefold repr hits).toList
  let staleness := stalenessWarning hits
  { staleness := staleness
    conflicts := conflicts
    hasUnresolvedConflicts := conflicts ≠ []
    summary := " ".intercalate
      (staleness.toList.map StalenessWarning.message ++ conflicts.map Conflict.message) }

/-- The report has a contradiction of decisions. -/
def Reports (repr : String → String) (hits : List Hit) : Prop :=
  ∃ c ∈ (analyzeConflicts casefold repr hits).conflicts, c.kind = .decisionContradiction

end Source

section Groups

variable (casefold : String → String)

/-- Two records with different choices of one pair: their hits, directory and branch, and the
pair as one that both of them name. -/
structure Contradicts (e f : Entry) : Prop where
  hits : ∃ u v, given e.uuid = some u ∧ given f.uuid = some v ∧ u ≠ v
  cwd : ∃ c, given e.cwd = some c ∧ given f.cwd = some c
  gitBranch : e.gitBranch = f.gitBranch
  alternatives : ∃ a b, e.considered = some (.str a) ∧ f.considered = some (.str b) ∧
    choice casefold e ≠ "" ∧ normalized casefold a ≠ "" ∧
    choice casefold e ≠ normalized casefold a ∧
    s(choice casefold e, normalized casefold a) = s(choice casefold f, normalized casefold b)
  choices : choice casefold e ≠ choice casefold f

/-- The hits have two such records. -/
def Contradicted (hits : List Hit) : Prop :=
  ∃ e ∈ entries hits, ∃ f ∈ entries hits, Contradicts casefold e f

/-- The first record of a group by the time of its hit, and by the order of the hits. -/
def earliest (hits : List Hit) (key : Key) : Option Entry :=
  (byTime (entries hits)).find? fun e => key? casefold e = some key

/-- Another hit chose the other alternative than the earliest record. -/
def Opposed (hits : List Hit) (key : Key) : Prop :=
  ∃ older ∈ earliest casefold hits key, ∃ e ∈ entries hits, key? casefold e = some key ∧
    older.uuid ≠ e.uuid ∧ choice casefold older ≠ choice casefold e

/-- The hit of the earliest record chose both alternatives, and another hit chose the one of the
earliest record. -/
def Undecided (hits : List Hit) (key : Key) : Prop :=
  ∃ older ∈ earliest casefold hits key,
    (∃ e ∈ entries hits, key? casefold e = some key ∧ older.uuid = e.uuid ∧
      choice casefold older ≠ choice casefold e) ∧
    ∃ f ∈ entries hits, key? casefold f = some key ∧ older.uuid ≠ f.uuid ∧
      choice casefold older = choice casefold f

variable {casefold}

theorem given_eq_some {s : Option String} {x : String} :
    given s = some x ↔ s = some x ∧ x ≠ "" := by
  simp [given, Option.filter_eq_some_iff]

theorem key?_eq_some {e : Entry} {key : Key} :
    key? casefold e = some key ↔ ∃ u c a, given e.uuid = some u ∧ given e.cwd = some c ∧
      e.considered = some (.str a) ∧ normalized casefold a ≠ "" ∧
      choice casefold e ≠ normalized casefold a ∧
      key = ⟨c, e.gitBranch, s(choice casefold e, normalized casefold a)⟩ := by
  constructor
  · intro h
    unfold key? at h
    split at h
    · rename_i u c a hu hc ha
      split_ifs at h with hskip
      rw [not_or] at hskip
      exact ⟨u, c, a, hu, hc, ha, hskip.1, hskip.2, (Option.some.inj h).symm⟩
    · cases h
  · rintro ⟨u, c, a, hu, hc, ha, hne, hdiff, rfl⟩
    simp only [key?, hu, hc, ha]
    exact if_neg (not_or.mpr ⟨hne, hdiff⟩)

/-- A choice is one of the two alternatives of the group. -/
theorem choice_mem {e : Entry} {key : Key} (h : key? casefold e = some key) :
    choice casefold e ∈ key.alternatives := by
  obtain ⟨u, c, a, -, -, -, -, -, rfl⟩ := key?_eq_some.mp h
  exact Sym2.mem_mk_left _ _

theorem choice_eq_of_ne {e f g : Entry} {key : Key} (he : key? casefold e = some key)
    (hf : key? casefold f = some key) (hg : key? casefold g = some key)
    (hne : choice casefold g ≠ choice casefold e) (hne' : choice casefold g ≠ choice casefold f) :
    choice casefold e = choice casefold f := by
  have hpair : key.alternatives = s(choice casefold g, choice casefold e) :=
    (Sym2.mem_and_mem_iff hne).mp ⟨choice_mem hg, choice_mem he⟩
  have hmem := choice_mem hf
  rw [hpair, Sym2.mem_iff] at hmem
  rcases hmem with h | h
  · exact absurd h.symm hne'
  · exact h.symm

/-- Of one pair and with different choices, each record chose what the other one considered. -/
theorem crossed {x y a b : String} (h : s(x, a) = s(y, b)) (hne : x ≠ y) : x = b ∧ a = y := by
  rcases Sym2.eq_iff.mp h with ⟨hxy, -⟩ | h
  · exact absurd hxy hne
  · exact h

theorem contradicts_iff {e f : Entry} :
    Contradicts casefold e f ↔ e.uuid ≠ f.uuid ∧ choice casefold e ≠ choice casefold f ∧
      ∃ key, key? casefold e = some key ∧ key? casefold f = some key := by
  constructor
  · rintro ⟨⟨u, v, hu, hv, huv⟩, ⟨c, hc, hc'⟩, hbranch, ⟨a, b, ha, hb, hgiven, hne, hdiff, hpair⟩,
      hchoices⟩
    obtain ⟨hcross, hcross'⟩ := crossed hpair hchoices
    refine ⟨fun heq => huv ?_, hchoices, _, key?_eq_some.mpr ⟨u, c, a, hu, hc, ha, hne, hdiff, rfl⟩,
      key?_eq_some.mpr ⟨v, c, b, hv, hc', hb, ?_, ?_, ?_⟩⟩
    · rw [heq, hv] at hu
      exact (Option.some.inj hu).symm
    · rwa [← hcross]
    · rw [← hcross, ← hcross']
      exact hdiff.symm
    · rw [hbranch, hpair]
  · rintro ⟨huuid, hchoices, key, he, hf⟩
    obtain ⟨u, c, a, hu, hc, ha, hne, hdiff, rfl⟩ := key?_eq_some.mp he
    obtain ⟨v, c', b, hv, hc', hb, hne', hdiff', hkey⟩ := key?_eq_some.mp hf
    obtain ⟨rfl, hbranch, hpair⟩ := Key.mk.inj hkey
    obtain ⟨hcross, -⟩ := crossed hpair hchoices
    refine ⟨⟨u, v, hu, hv, fun huv => huuid ?_⟩, ⟨c, hc, hc'⟩, hbranch,
      ⟨a, b, ha, hb, ?_, hne, hdiff, hpair⟩, hchoices⟩
    · rw [(given_eq_some.mp hu).1, (given_eq_some.mp hv).1, huv]
    · rwa [hcross]

end Groups

section Scan

variable {casefold : String → String}

/-- The record that stands for a group: the one in the dictionary, or else the first one to come. -/
def represents (casefold : String → String) (groups : List (Key × Entry)) (es : List Entry)
    (key : Key) : Option Entry :=
  (groups.lookup key).or (es.find? fun e => key? casefold e = some key)

/-- The scan finds something exactly if a record differs from the one that stands for its group,
in the hit and in the choice. -/
theorem scan_isSome (groups : List (Key × Entry)) (es : List Entry) :
    (scan casefold groups es).isSome = true ↔ ∃ e ∈ es, ∃ key, key? casefold e = some key ∧
      ∃ older ∈ represents casefold groups es key, older.uuid ≠ e.uuid ∧
        choice casefold older ≠ choice casefold e := by
  induction es generalizing groups with
  | nil => simp [scan]
  | cons e rest ih =>
    rw [scan]
    cases hkey : key? casefold e with
    | none =>
      have hsame : ∀ key, represents casefold groups (e :: rest) key =
          represents casefold groups rest key := by
        intro key
        simp [represents, hkey]
      simp only [ih, List.exists_mem_cons_iff, hkey, reduceCtorEq, false_and, exists_false,
        false_or, hsame]
    | some key =>
      cases hlookup : groups.lookup key with
      | none =>
        have hsame : ∀ key', represents casefold groups (e :: rest) key' =
            represents casefold ((key, e) :: groups) rest key' := by
          intro key'
          by_cases heq : key' = key
          · subst heq
            simp [represents, hlookup, hkey]
          · have hne : (key' == key) = false := by simpa using heq
            simp [represents, List.lookup_cons, hne, hkey, Ne.symm heq]
        have hself : represents casefold ((key, e) :: groups) rest key = some e := by
          simp [represents]
        simp only [hlookup, ih, List.exists_mem_cons_iff, hsame, hkey, Option.some.injEq]
        constructor
        · exact Or.inr
        · rintro (⟨key', rfl, older, holder, huuid, -⟩ | h)
          · rw [hself, Option.mem_some_iff] at holder
            exact absurd (congrArg Entry.uuid holder).symm huuid
          · exact h
      | some older =>
        have hsame : ∀ key', represents casefold groups (e :: rest) key' =
            represents casefold groups rest key' := by
          intro key'
          by_cases heq : key' = key
          · subst heq
            simp [represents, hlookup]
          · simp [represents, hkey, Ne.symm heq]
        have holder : represents casefold groups rest key = some older := by
          simp [represents, hlookup]
        simp only [hlookup, List.exists_mem_cons_iff, hsame, hkey, Option.some.injEq,
          exists_eq_left', holder, Option.mem_some_iff]
        split_ifs with hquiet
        · rw [ih]
          constructor
          · exact Or.inr
          · rintro (⟨huuid, hchoice⟩ | h)
            · exact absurd hquiet (not_or.mpr ⟨huuid, hchoice⟩)
            · exact h
        · exact iff_of_true rfl (Or.inl (not_or.mp hquiet))

variable {repr : String → String} {hits hits' : List Hit}

theorem reports_iff_scan : Reports casefold repr hits ↔
    (scan casefold [] (byTime (entries hits))).isSome = true := by
  simp only [Reports, analyzeConflicts, List.mem_append, Option.mem_toList, decisionConflict]
  constructor
  · rintro ⟨c, hc | hc, hkind⟩
    · simp only [outcomeConflict] at hc
      split_ifs at hc
      cases hc
      cases hkind
    · obtain ⟨found, hfound, -⟩ := Option.map_eq_some_iff.mp hc
      rw [hfound]
      rfl
  · intro h
    obtain ⟨found, hfound⟩ := Option.isSome_iff_exists.mp h
    rw [hfound]
    exact ⟨_, Or.inr rfl, rfl⟩

theorem reports_iff : Reports casefold repr hits ↔ ∃ key, Opposed casefold hits key := by
  rw [reports_iff_scan, scan_isSome]
  simp only [represents, List.lookup_nil, Option.none_or, Opposed, earliest, byTime, mem_orderBy]
  constructor
  · rintro ⟨e, he, key, hkey, older, holder, hdiff⟩
    exact ⟨key, older, holder, e, he, hkey, hdiff⟩
  · rintro ⟨key, older, holder, e, he, hkey, hdiff⟩
    exact ⟨e, he, key, hkey, older, holder, hdiff⟩

theorem key?_earliest {key : Key} {older : Entry} (h : older ∈ earliest casefold hits key) :
    older ∈ entries hits ∧ key? casefold older = some key := by
  refine ⟨mem_orderBy.mp (List.mem_of_find?_eq_some h), ?_⟩
  have hkey := List.find?_some h
  exact of_decide_eq_true hkey

theorem exists_earliest {key : Key} {e : Entry} (he : e ∈ entries hits)
    (hkey : key? casefold e = some key) : ∃ older, older ∈ earliest casefold hits key := by
  have hfound : (earliest casefold hits key).isSome = true :=
    List.find?_isSome.mpr ⟨e, mem_orderBy.mpr he, by simpa using hkey⟩
  exact Option.isSome_iff_exists.mp hfound

/-- A contradiction is with the earliest record of the group, or its hit has chosen both. -/
theorem contradicted_iff : Contradicted casefold hits ↔
    (∃ key, Opposed casefold hits key) ∨ ∃ key, Undecided casefold hits key := by
  constructor
  · rintro ⟨e, he, f, hf, hef⟩
    obtain ⟨huuid, hchoice, key, hkey, hkey'⟩ := contradicts_iff.mp hef
    obtain ⟨older, holder⟩ := exists_earliest he hkey
    obtain ⟨-, holderKey⟩ := key?_earliest holder
    -- One of the two chose otherwise than the earliest record.
    have hcase : ∀ e ∈ entries hits, ∀ f ∈ entries hits, key? casefold e = some key →
        key? casefold f = some key → e.uuid ≠ f.uuid → choice casefold older = choice casefold e →
        choice casefold older ≠ choice casefold f →
        (∃ key, Opposed casefold hits key) ∨ ∃ key, Undecided casefold hits key := by
      intro e he f hf hkey hkey' huuid hsame hother
      by_cases hhit : older.uuid = f.uuid
      · refine Or.inr ⟨key, older, holder, ⟨f, hf, hkey', hhit, hother⟩, e, he, hkey, ?_, hsame⟩
        rw [hhit]
        exact huuid.symm
      · exact Or.inl ⟨key, older, holder, f, hf, hkey', hhit, hother⟩
    by_cases hsame : choice casefold older = choice casefold e
    · exact hcase e he f hf hkey hkey' huuid hsame (hsame ▸ hchoice)
    · have hother : choice casefold older = choice casefold f := by
        by_contra hne
        exact hchoice (choice_eq_of_ne hkey hkey' holderKey hsame hne)
      exact hcase f hf e he hkey' hkey huuid.symm hother hsame
  · rintro (⟨key, older, holder, e, he, hkey, huuid, hchoice⟩ |
      ⟨key, older, holder, ⟨e, he, hkey, huuid, hchoice⟩, f, hf, hkey', huuid', hchoice'⟩)
    · obtain ⟨hmem, holderKey⟩ := key?_earliest holder
      exact ⟨older, hmem, e, he, contradicts_iff.mpr ⟨huuid, hchoice, key, holderKey, hkey⟩⟩
    · refine ⟨f, hf, e, he, contradicts_iff.mpr ⟨?_, ?_, key, hkey', hkey⟩⟩
      · rw [← huuid]
        exact huuid'.symm
      · rwa [← hchoice']

/-- **Contradictory decisions.** The report has a contradiction exactly if the hits do, for the
hits where an earliest record is opposed by another hit or no group is undecided. No false one is
reported, and whether there is one does not depend on the order of the hits. -/
theorem reports_iff_contradicted (casefold repr : String → String) (hits : List Hit) :
    ((Reports casefold repr hits ↔ Contradicted casefold hits) ↔
      ((∃ key, Opposed casefold hits key) ∨ ∀ key, ¬ Undecided casefold hits key)) ∧
    (Reports casefold repr hits → Contradicted casefold hits) ∧
    ∀ hits', hits.Perm hits' → (Contradicted casefold hits ↔ Contradicted casefold hits') := by
  refine ⟨?_, fun h => contradicted_iff.mpr (Or.inl (reports_iff.mp h)), fun hits' hperm => ?_⟩
  · rw [reports_iff, contradicted_iff, ← not_exists]
    tauto
  · have hentries : ∀ e, e ∈ entries hits ↔ e ∈ entries hits' :=
      fun e => (hperm.flatMap_right entriesOf).mem_iff
    simp only [Contradicted, hentries]

/-- A hit that chose each of two alternatives, and a later one that chose as its first record. -/
def bothChosen : Hit where
  uuid := some "a"
  cwd := some "/p"
  gitBranch := some "main"
  capturedAt := some 1
  designDecisions := [some { chosen := some (.str "SQLite"), considered := some (.str "Postgres") },
    some { chosen := some (.str "Postgres"), considered := some (.str "SQLite") }]

def oneChosen : Hit where
  uuid := some "b"
  cwd := some "/p"
  gitBranch := some "main"
  capturedAt := some 1
  designDecisions := [some { chosen := some (.str "SQLite"), considered := some (.str "Postgres") }]

/-- The contradiction is reported in one order of the hits and not in the other. -/
theorem contradiction_missed :
    Contradicted id [bothChosen, oneChosen] ∧ ¬ Reports id id [bothChosen, oneChosen] ∧
      Reports id id [oneChosen, bothChosen] := by
  have hmissed : Reports id id [oneChosen, bothChosen] := by
    rw [reports_iff_scan]
    decide +kernel
  refine ⟨?_, ?_, hmissed⟩
  · have hperm : [oneChosen, bothChosen].Perm [bothChosen, oneChosen] := List.Perm.swap _ _ _
    obtain ⟨e, he, f, hf, hef⟩ := contradicted_iff.mpr (Or.inl (reports_iff.mp hmissed))
    have hentries := fun e => (hperm.flatMap_right entriesOf).mem_iff (a := e)
    exact ⟨e, (hentries e).mp he, f, (hentries f).mp hf, hef⟩
  · rw [reports_iff_scan]
    decide +kernel

end Scan

end Hippo.ConflictDetection
