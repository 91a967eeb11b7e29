import Hippo.ClassificationRuns

/-!
# Publication is fenced, and the links mirror what is published

A row becomes ready only through the report of the worker that holds its lease, for the
revision, evidence and recipe the row asks for. A worker that lost its lease changes nothing
any more. In every reachable state the classifier's links of a node are those to the topics
its row has published.
-/
namespace Hippo.Classifier
open Hippo Hippo.ClassificationDb Hippo.Transition

section Reports

variable {db db' : ClassificationDb} {work : ClassificationClaim} {recipe : Recipe} {now : ℤ}

/-- The worker's lease is still the row's, for the same revision. -/
def HoldsLease (db : ClassificationDb) (work : ClassificationClaim) : Prop :=
  ∃ row ∈ db.rows.get? work.nodeId, row.leaseToken = some work.leaseToken ∧
    row.requestedRevision = work.revision

theorem holdsLease_of_matches (h : db.Matches work recipe now) : HoldsLease db work := by
  obtain ⟨⟨row, hrow, -, hrevision, -, -, hlease, -⟩, -⟩ := h
  exact ⟨row, hrow, hlease, hrevision⟩

/-- The links and the row of a published result. -/
structure Published (db db' : ClassificationDb) (n : ℕ) (topics : List String)
    (response : Response) : Prop where
  rows : db'.rows = db.rows.modify n (ClassificationRow.publish topics response)
  token : db'.nextToken = db.nextToken
  owned : ∀ m t, db'.Owned m t ↔ if m = n then t ∈ topics else db.Owned m t

/-- A report is refused without an effect, or it matches and is published. -/
theorem applyResult_cases {response : Except String Response} {published : Bool}
    (h : db.applyResult work response recipe now = .ok (db', published)) :
    (¬ db.Matches work recipe now ∧ db' = db) ∨
      (db.Matches work recipe now ∧ ∃ answer, response = .ok answer ∧
        Published db db' work.nodeId (accepted recipe answer) answer) := by
  cases hvalid : validateResponse response recipe with
  | error e =>
    simp only [applyResult, hvalid] at h
    cases h
  | ok answer =>
    have hanswer : response = .ok answer := validateResponse_ok hvalid
    by_cases hmatch : db.Matches work recipe now
    · cases hmem : db.memberships work.nodeId (accepted recipe answer) with
      | error e =>
        simp only [applyResult, hvalid, bind, Except.bind, hmatch, not_true, if_false, hmem] at h
        cases h
      | ok linked =>
        simp only [applyResult, hvalid, bind, Except.bind, hmatch, not_true, if_false, hmem] at h
        cases h
        obtain ⟨-, hrows, htoken, howned⟩ := memberships_ok hmem
        exact Or.inr ⟨hmatch, answer, hanswer, ⟨by rw [hrows], htoken, howned⟩⟩
    · simp only [applyResult, hvalid, bind, Except.bind, hmatch, not_false_iff, if_true] at h
      cases h
      exact Or.inl ⟨hmatch, rfl⟩

theorem Published.sane {n : ℕ} {topics : List String} {response : Response}
    (h : Published db db' n topics response) (hs : Sane db) : Sane db' := by
  intro m row' hrow'
  rw [h.rows] at hrow'
  rw [h.token]
  obtain ⟨row, hrow, ⟨-, rfl⟩ | ⟨-, rfl⟩⟩ := Table.eq_of_get?_modify hrow'
  · exact ⟨(hs m row hrow).attempts, fun hnot => absurd rfl hnot, fun token ht => absurd ht nofun⟩
  · exact hs m row' hrow

theorem Published.mirrors {n : ℕ} {topics : List String} {response : Response}
    (h : Published db db' n topics response) (hm : Mirrors db) {row : ClassificationRow}
    (hrow : db.rows.get? n = some row) : Mirrors db' := by
  intro m t
  rw [h.owned, h.rows, Table.get?_modify]
  by_cases hn : m = n
  · subst hn
    rw [if_pos rfl, if_pos rfl, hrow, Option.map_some]
    constructor
    · exact fun ht => ⟨_, rfl, rfl, ht⟩
    · rintro ⟨row', hrow', -, ht⟩
      cases hrow'
      exact ht
  · rw [if_neg hn, if_neg hn]
    exact hm m t

theorem fail_quiet (error : String) (transient : Bool) (retryAfterMs : ℤ) (consumeAttempt : Bool) :
    Quiet db (db.fail work error transient retryAfterMs consumeAttempt now) :=
  Quiet.updateRows fun row => ⟨row.release_not_ready _ _ _ _, rfl⟩

/-- The row a failure report changes is being processed. -/
theorem fail_processing (hs : Sane db) {n : ℕ} {row : ClassificationRow}
    (hrow : db.rows.get? n = some row) (hlease : row.leaseToken = some work.leaseToken) :
    row.status ≠ .ready := by
  rw [((hs n row hrow).lease _ hlease).2]
  decide

theorem fail_sane (hs : Sane db) (hattempts : work.attempts ≤ maxAttempts) (error : String)
    (transient : Bool) (retryAfterMs : ℤ) (consumeAttempt : Bool) :
    Sane (db.fail work error transient retryAfterMs consumeAttempt now) := by
  refine hs.updateRows (fun row => ⟨rfl, rfl⟩) fun n row hrow hp => ?_
  exact ⟨fail_processing hs hrow hp.2.1, (Nat.sub_le _ _).trans hattempts⟩

theorem fail_mirrors (hs : Sane db) (hm : Mirrors db) (error : String) (transient : Bool)
    (retryAfterMs : ℤ) (consumeAttempt : Bool) :
    Mirrors (db.fail work error transient retryAfterMs consumeAttempt now) :=
  hm.updateRows fun _ _ hrow hp =>
    ⟨fail_processing hs hrow hp.2.1, ClassificationRow.release_not_ready _ _ _ _ _⟩

theorem fail_of_not_holdsLease (h : ¬ HoldsLease db work) (error : String) (transient : Bool)
    (retryAfterMs : ℤ) (consumeAttempt : Bool) :
    db.fail work error transient retryAfterMs consumeAttempt now = db := by
  have hsame := Table.update_eq_self (t := db.rows) (p := fun n row => n = work.nodeId ∧
    row.leaseToken = some work.leaseToken ∧ row.requestedRevision = work.revision)
    (f := ClassificationRow.release (work.attempts - (if consumeAttempt then 0 else 1)) transient
      (now + max retryAfterMs (1000 * 2 ^ (work.attempts - 1)))
      (String.ofList (error.toList.take 160))) fun n row hrow hp => by
    obtain ⟨rfl, hlease, hrevision⟩ := hp
    exact h ⟨row, hrow, hlease, hrevision⟩
  simp only [ClassificationDb.fail, hsame]

end Reports

section Invariant

variable {w w' : World} {a : Action} {db : ClassificationDb} {n : ℕ}

/-- The rows are sane and mirrored by the links, and the claims in flight carry tokens from
the past and attempts within the budget. -/
structure Inv (w : World) : Prop where
  sane : Sane w.db
  mirrors : Mirrors w.db
  works : ∀ work ∈ w.works, work.leaseToken < w.db.nextToken ∧ work.attempts ≤ maxAttempts

theorem owned_wipeLinks {m : ℕ} {t : String} :
    (wipeLinks db n).Owned m t ↔ db.Owned m t ∧ m ≠ n := by
  simp only [Owned, wipeLinks, filterLinks, List.mem_filter, decide_eq_true_eq]
  tauto

theorem owned_storeEntity {name : Canonical} {m : ℕ} {t : String} :
    (storeEntity db name).Owned m t ↔ db.Owned m t := by
  refine and_congr_right fun _ => ?_
  simp only [storeEntity, Table.get?_upsert]
  split
  · rename_i heq
    rw [heq]
    cases hget : db.entities.get? name with
    | none => exact iff_of_false (by simp) (by simp)
    | some owner => rfl
  · rfl

theorem owned_relateNode {name : Canonical} (h : db.entities.get? name = some .source) {m : ℕ}
    {t : String} : (relateNode db n name h).Owned m t ↔ db.Owned m t := by
  simp only [Owned, relateNode, List.mem_append, List.mem_singleton]
  constructor
  · rintro ⟨hl | hl, howner⟩
    · exact ⟨hl, howner⟩
    · obtain ⟨-, rfl⟩ := Prod.mk.inj hl
      cases h.symm.trans howner
  · rintro ⟨hl, howner⟩
    exact ⟨Or.inl hl, howner⟩

/-- A transaction that leaves the rows and the owned links alone. -/
theorem Mirrors.of_owned {db' : ClassificationDb} (hm : Mirrors db) (hrows : db'.rows = db.rows)
    (howned : ∀ m t, db'.Owned m t ↔ db.Owned m t) : Mirrors db' := by
  intro m t
  rw [howned, hrows]
  exact hm m t

theorem rewrite_mirrors (hm : Mirrors db) (content : ClassifiedNode) (enabled : Bool)
    (recipe : Recipe) (now : ℤ) :
    Mirrors ((wipeLinks (storeNode db n content) n).enqueueNode n enabled recipe now).1 := by
  refine (enqueueNode_cases (wipeLinks (storeNode db n content) n) n enabled recipe now).mirrors
    (fun m hne t => ?_) fun hsame t => ?_
  · rw [owned_wipeLinks, and_iff_left hne]
    exact hm m t
  · rw [owned_wipeLinks]
    refine iff_of_false (fun h => h.2 rfl) ?_
    rintro ⟨row, hrow, hready, -⟩
    rcases hsame with hnone | hnot
    · have hstored : (db.nodes.upsert n content fun _ => content).get? n = none := hnone
      rw [Table.get?_upsert, if_pos rfl] at hstored
      cases hstored
    · exact hnot row hrow hready

theorem deleteNode_spec (hs : Sane db) (hm : Mirrors db) : Quiet db (deleteNode db n) ∧
    Sane (deleteNode db n) ∧ Mirrors (deleteNode db n) := by
  have hrows : ∀ m row, (deleteNode db n).rows.get? m = some row ↔
      db.rows.get? m = some row ∧ m ≠ n := fun m row => Table.get?_delete_eq_some
  refine ⟨⟨fun m row hrow _ => ((hrows m row).mp hrow).1,
    fun m row token _ hrow hlease => ⟨row, ((hrows m row).mp hrow).1, hlease, rfl⟩, le_rfl⟩,
    fun m row hrow => hs m row ((hrows m row).mp hrow).1, fun m t => ?_⟩
  have howned : (deleteNode db n).Owned m t ↔ db.Owned m t ∧ m ≠ n := owned_wipeLinks
  rw [howned, hm m t]
  constructor
  · rintro ⟨⟨row, hrow, h⟩, hne⟩
    exact ⟨row, (hrows m row).mpr ⟨hrow, hne⟩, h⟩
  · rintro ⟨row, hrow, h⟩
    exact ⟨⟨row, ((hrows m row).mp hrow).1, h⟩, ((hrows m row).mp hrow).2⟩

/-- A step other than a report publishes nothing. -/
theorem quiet_step (hi : Inv w) (hs : step w a = some w') :
    Quiet w.db w'.db ∨ ∃ k response recipe now work, a = .apply k (.ok response) recipe now ∧
      w.works[k]? = some work ∧ w.db.Matches work recipe now ∧
      Published w.db w'.db work.nodeId (accepted recipe response) response := by
  cases a with
  | edit n content =>
    cases hs
    exact Or.inl (Quiet.of_rows rfl rfl)
  | rewrite n content enabled recipe now =>
    cases hs
    have hwiped : Quiet w.db (wipeLinks (storeNode w.db n content) n) := Quiet.of_rows rfl rfl
    exact Or.inl (hwiped.trans (enqueueNode_cases _ n enabled recipe now).quiet)
  | delete n =>
    cases hs
    exact Or.inl (deleteNode_spec hi.sane hi.mirrors).1
  | sourceEntity name =>
    cases hs
    exact Or.inl (Quiet.of_rows rfl rfl)
  | relate n name =>
    simp only [step] at hs
    split at hs
    · cases hs
      exact Or.inl (Quiet.of_rows rfl rfl)
    · cases hs
  | enqueue n enabled recipe now =>
    cases hs
    exact Or.inl (enqueueNode_cases w.db n enabled recipe now).quiet
  | claim recipe limit now =>
    simp only [step] at hs
    split at hs
    · rename_i db works hclaim
      cases hs
      exact Or.inl (claim_spec hi.sane hi.mirrors hclaim).quiet
    · cases hs
      exact Or.inl (Quiet.refl _)
  | apply k response recipe now =>
    simp only [step] at hs
    split at hs
    · rename_i work hwork
      split at hs
      · rename_i db published happly
        cases hs
        rcases applyResult_cases happly with ⟨-, rfl⟩ | ⟨hmatch, answer, rfl, hpub⟩
        · exact Or.inl (Quiet.refl _)
        · exact Or.inr ⟨k, answer, recipe, now, work, rfl, hwork, hmatch, hpub⟩
      · cases hs
        exact Or.inl (Quiet.refl _)
    · cases hs
  | fail k error transient retryAfterMs consumeAttempt now =>
    simp only [step] at hs
    split at hs
    · cases hs
      exact Or.inl (fail_quiet error transient retryAfterMs consumeAttempt)
    · cases hs
  | crash k =>
    cases hs
    exact Or.inl (Quiet.refl _)

theorem Published.fence {db' : ClassificationDb} {topics : List String} {response : Response}
    (h : Published db db' n topics response) {m token : ℕ} {row' : ClassificationRow}
    (hrow' : db'.rows.get? m = some row') (hlease : row'.leaseToken = some token) :
    db.rows.get? m = some row' := by
  rw [h.rows] at hrow'
  obtain ⟨row, hrow, ⟨-, rfl⟩ | ⟨-, rfl⟩⟩ := Table.eq_of_get?_modify hrow'
  · cases hlease
  · exact hrow

/-- A worker that lost its lease does not get it back. -/
theorem holdsLease_of_step (hi : Inv w) (hs : step w a = some w') {work : ClassificationClaim}
    (hlt : work.leaseToken < w.db.nextToken) (hlease : HoldsLease w'.db work) :
    HoldsLease w.db work := by
  obtain ⟨row', hrow', htoken, hrevision⟩ := hlease
  rcases quiet_step hi hs with hquiet | ⟨_, _, _, _, _, _, _, _, hpub⟩
  · obtain ⟨row, hrow, hold, hrev⟩ := hquiet.fence _ row' _ hlt hrow' htoken
    exact ⟨row, hrow, hold, hrev.trans hrevision⟩
  · exact ⟨row', hpub.fence hrow' htoken, htoken, hrevision⟩

theorem token_le_of_step (hi : Inv w) (hs : step w a = some w') :
    w.db.nextToken ≤ w'.db.nextToken := by
  rcases quiet_step hi hs with hquiet | ⟨_, _, _, _, _, _, _, _, hpub⟩
  · exact hquiet.tokens
  · exact hpub.token.ge

/-- The claims in flight after a step were in flight before, or are handed out by it. -/
theorem works_of_step (hi : Inv w) (hs : step w a = some w') {work : ClassificationClaim}
    (hwork : work ∈ w'.works) : work ∈ w.works ∨
      (w.db.nextToken ≤ work.leaseToken ∧ work.leaseToken < w'.db.nextToken ∧
        work.attempts ≤ maxAttempts ∧ ∃ row, w'.db.rows.get? work.nodeId = some row ∧
          row.leaseToken = some work.leaseToken) := by
  have ended : ∀ {k}, work ∈ replaceAt w.works k [] → work ∈ w.works := by
    intro k h
    rcases mem_replaceAt h with h | h
    · exact h
    · cases h
  cases a with
  | claim recipe limit now =>
    simp only [step] at hs
    split at hs
    · rename_i db works hclaim
      cases hs
      rcases List.mem_append.mp hwork with hwork | hwork
      · exact Or.inl hwork
      · exact Or.inr ((claim_spec hi.sane hi.mirrors hclaim).works work hwork)
    · cases hs
      exact Or.inl hwork
  | apply k response recipe now =>
    simp only [step] at hs
    split at hs
    · split at hs
      · cases hs
        exact Or.inl (ended hwork)
      · cases hs
        exact Or.inl hwork
    · cases hs
  | fail k error transient retryAfterMs consumeAttempt now =>
    simp only [step] at hs
    split at hs
    · cases hs
      exact Or.inl (ended hwork)
    · cases hs
  | crash k =>
    cases hs
    exact Or.inl (ended hwork)
  | relate n name =>
    simp only [step] at hs
    split at hs
    · cases hs
      exact Or.inl hwork
    · cases hs
  | _ =>
    cases hs
    exact Or.inl hwork

theorem Inv.db_step (hi : Inv w) (hs : step w a = some w') : Sane w'.db ∧ Mirrors w'.db := by
  cases a with
  | edit n content =>
    cases hs
    exact ⟨hi.sane.of_rows rfl rfl, hi.mirrors.of_owned rfl fun _ _ => Iff.rfl⟩
  | rewrite n content enabled recipe now =>
    cases hs
    have hwiped : Sane (wipeLinks (storeNode w.db n content) n) := hi.sane.of_rows rfl rfl
    exact ⟨(enqueueNode_cases _ n enabled recipe now).sane hwiped,
      rewrite_mirrors hi.mirrors content enabled recipe now⟩
  | delete n =>
    cases hs
    exact (deleteNode_spec hi.sane hi.mirrors).2
  | sourceEntity name =>
    cases hs
    exact ⟨hi.sane.of_rows rfl rfl, hi.mirrors.of_owned rfl fun _ _ => owned_storeEntity⟩
  | relate n name =>
    simp only [step] at hs
    split at hs
    · rename_i hsource
      cases hs
      exact ⟨hi.sane.of_rows rfl rfl, hi.mirrors.of_owned rfl fun _ _ => owned_relateNode hsource⟩
    · cases hs
  | enqueue n enabled recipe now =>
    cases hs
    have he := enqueueNode_cases w.db n enabled recipe now
    exact ⟨he.sane hi.sane, hi.mirrors.enqueued he⟩
  | claim recipe limit now =>
    simp only [step] at hs
    split at hs
    · rename_i db works hclaim
      cases hs
      have hspec := claim_spec hi.sane hi.mirrors hclaim
      exact ⟨hspec.sane, hspec.mirrors⟩
    · cases hs
      exact ⟨hi.sane, hi.mirrors⟩
  | apply k response recipe now =>
    simp only [step] at hs
    split at hs
    · split at hs
      · rename_i db published happly
        cases hs
        rcases applyResult_cases happly with ⟨-, rfl⟩ | ⟨hmatch, answer, -, hpub⟩
        · exact ⟨hi.sane, hi.mirrors⟩
        · obtain ⟨row, hrow, -⟩ := (holdsLease_of_matches hmatch)
          exact ⟨hpub.sane hi.sane, hpub.mirrors hi.mirrors hrow⟩
      · cases hs
        exact ⟨hi.sane, hi.mirrors⟩
    · cases hs
  | fail k error transient retryAfterMs consumeAttempt now =>
    simp only [step] at hs
    split at hs
    · rename_i work hwork
      cases hs
      have hattempts : work.attempts ≤ maxAttempts := (hi.works work (List.mem_of_getElem? hwork)).2
      exact ⟨fail_sane hi.sane hattempts error transient retryAfterMs consumeAttempt,
        fail_mirrors hi.sane hi.mirrors error transient retryAfterMs consumeAttempt⟩
    · cases hs
  | crash k =>
    cases hs
    exact ⟨hi.sane, hi.mirrors⟩

theorem Inv.step (hi : Inv w) (hs : Classifier.step w a = some w') : Inv w' where
  sane := (hi.db_step hs).1
  mirrors := (hi.db_step hs).2
  works := by
    intro work hwork
    rcases works_of_step hi hs hwork with hold | ⟨-, hlt, hattempts, -⟩
    · obtain ⟨hlt, hattempts⟩ := hi.works work hold
      exact ⟨hlt.trans_le (token_le_of_step hi hs), hattempts⟩
    · exact ⟨hlt, hattempts⟩

theorem inv_init : Inv World.init where
  sane := by
    intro n row hrow
    cases hrow
  mirrors := by
    intro n t
    refine iff_of_false (fun h => absurd h.1 List.not_mem_nil) ?_
    rintro ⟨row, hrow, -⟩
    cases hrow
  works := by
    intro work hwork
    cases hwork

theorem inv_of_reaches (h : Reaches step World.init w) : Inv w :=
  h.invariant (fun _ _ _ hi _ hs => hi.step hs) inv_init

end Invariant

section Publication

variable {w w' : World} {a : Action}

/-- The step reports a result for the work the node's row asks for now, from the worker that
holds its unexpired lease. -/
def World.Publishes (w : World) (a : Action) (n : ℕ) (row : ClassificationRow) : Prop :=
  ∃ k response recipe now work, a = .apply k (.ok response) recipe now ∧
    w.works[k]? = some work ∧ work.nodeId = n ∧ w.db.Matches work recipe now ∧
    row.acceptedTopics = accepted recipe response

/-- The claim in flight whose worker reports. -/
def Action.report : Action → Option ℕ
  | .apply k _ _ _ | .fail k _ _ _ _ _ => some k
  | _ => none

/-- The nodes an operation is on. -/
def World.nodesOf (w : World) : Action → List ℕ
  | .edit n _ | .rewrite n _ _ _ _ | .delete n | .relate n _ | .enqueue n _ _ _ => [n]
  | .sourceEntity _ | .crash _ => []
  | .claim recipe limit now =>
    ((w.db.giveUpExpired now).claimable recipe limit now).map Prod.fst
  | .apply k _ _ _ | .fail k _ _ _ _ _ => (w.works[k]?.map ClassificationClaim.nodeId).toList

theorem ready_of_step (hi : Inv w) (hs : step w a = some w') {n : ℕ} {row' : ClassificationRow}
    (hrow' : w'.db.rows.get? n = some row') (hready : row'.status = .ready) :
    w.db.rows.get? n = some row' ∨ w.Publishes a n row' := by
  rcases quiet_step hi hs with hquiet | ⟨k, response, recipe, now, work, rfl, hwork, hmatch, hpub⟩
  · exact Or.inl (hquiet.ready n row' hrow' hready)
  · rw [hpub.rows] at hrow'
    obtain ⟨row, hrow, ⟨rfl, rfl⟩ | ⟨-, rfl⟩⟩ := Table.eq_of_get?_modify hrow'
    · exact Or.inr ⟨k, response, recipe, now, work, rfl, hwork, rfl, hmatch, rfl⟩
    · exact Or.inl hrow

theorem report_of_not_holdsLease {k : ℕ} {work : ClassificationClaim} (hreport : a.report = some k)
    (hwork : w.works[k]? = some work) (hlost : ¬ HoldsLease w.db work)
    (hs : step w a = some w') : w'.db = w.db := by
  cases a with
  | apply j response recipe now =>
    cases hreport
    simp only [step, hwork] at hs
    split at hs
    · rename_i db published happly
      cases hs
      rcases applyResult_cases happly with ⟨-, rfl⟩ | ⟨hmatch, -⟩
      · rfl
      · exact absurd (holdsLease_of_matches hmatch) hlost
    · cases hs
      rfl
  | fail j error transient retryAfterMs consumeAttempt now =>
    cases hreport
    simp only [step, hwork] at hs
    cases hs
    exact fail_of_not_holdsLease hlost error transient retryAfterMs consumeAttempt
  | _ => cases hreport

/-- **Publication is fenced.** A row is ready only as it was before the step, or by a matching
report; only ready rows have topics, and attempts stay within the budget; a worker that lost
its lease never gets it back, and its reports change nothing; and a claim that hands a node
out again takes the lease of every earlier one. -/
theorem publication_fenced (h : Reaches step World.init w) :
    (∀ a w' n row', step w a = some w' → w'.db.rows.get? n = some row' →
      row'.status = .ready → w.db.rows.get? n = some row' ∨ w.Publishes a n row') ∧
    (∀ n row, w.db.rows.get? n = some row →
      (row.status ≠ .ready → row.acceptedTopics = []) ∧ row.attempts ≤ maxAttempts) ∧
    (∀ work ∈ w.works, ¬ HoldsLease w.db work → ∀ w', Reaches step w w' →
      ¬ HoldsLease w'.db work ∧ ∀ k a w'', a.report = some k → w'.works[k]? = some work →
        step w' a = some w'' → w''.db = w'.db) ∧
    ∀ a w' work work', step w a = some w' → work ∈ w.works → work' ∈ w'.works →
      work' ∉ w.works → work'.nodeId = work.nodeId → ¬ HoldsLease w'.db work := by
  have hi : Inv w := inv_of_reaches h
  refine ⟨fun a w' n row' hs hrow' hready => ready_of_step hi hs hrow' hready,
    fun n row hrow => ⟨(hi.sane n row hrow).accepted, (hi.sane n row hrow).attempts⟩,
    fun work hwork hlost w' hrun => ?_, fun a w' work work' hs hwork hwork' hnew hnode => ?_⟩
  · have hend := hrun.invariant_of (J := Inv)
      (I := fun v => work.leaseToken < v.db.nextToken ∧ ¬ HoldsLease v.db work)
      (fun s a t hs _ hstep => hs.step hstep)
      (fun s a t hs hv _ hstep => ⟨hv.1.trans_le (token_le_of_step hs hstep),
        fun hlease => hv.2 (holdsLease_of_step hs hstep hv.1 hlease)⟩)
      hi ⟨(hi.works work hwork).1, hlost⟩
    exact ⟨hend.2, fun k a w'' hreport hget hs =>
      report_of_not_holdsLease hreport hget hend.2 hs⟩
  · rintro ⟨row, hrow, htoken, -⟩
    rcases works_of_step hi hs hwork' with hold | ⟨hge, -, -, row', hrow', htoken'⟩
    · exact hnew hold
    · rw [hnode] at hrow'
      have heq : row = row' := Option.some.inj (hrow.symm.trans hrow')
      subst heq
      have htokens : work.leaseToken = work'.leaseToken :=
        Option.some.inj (htoken.symm.trans htoken')
      have hlt : work.leaseToken < w.db.nextToken := (hi.works work hwork).1
      omega

/-- **Memberships mirror the published state.** In every reachable state the classifier's
links of a node are those to the topics of its ready row, and none without one; an operation
changes such links of its own nodes only. -/
theorem memberships_mirror (h : Reaches step World.init w) :
    Mirrors w.db ∧ ∀ a w' m t, step w a = some w' → m ∉ w.nodesOf a →
      (w'.db.Owned m t ↔ w.db.Owned m t) := by
  have hi : Inv w := inv_of_reaches h
  refine ⟨hi.mirrors, fun a w' m t hs hm => ?_⟩
  cases a with
  | edit n content =>
    cases hs
    rfl
  | rewrite n content enabled recipe now =>
    cases hs
    have hne : m ≠ n := fun h => hm (List.mem_singleton.mpr h)
    have hother := ((enqueueNode_cases (wipeLinks (storeNode w.db n content) n) n enabled recipe
      now).other hne).2 t
    rw [hother, owned_wipeLinks, and_iff_left hne]
    rfl
  | delete n =>
    cases hs
    have hne : m ≠ n := fun h => hm (List.mem_singleton.mpr h)
    have howned : (deleteNode w.db n).Owned m t ↔ w.db.Owned m t ∧ m ≠ n := owned_wipeLinks
    rw [howned, and_iff_left hne]
  | sourceEntity name =>
    cases hs
    exact owned_storeEntity
  | relate n name =>
    simp only [step] at hs
    split at hs
    · rename_i hsource
      cases hs
      exact owned_relateNode hsource
    · cases hs
  | enqueue n enabled recipe now =>
    cases hs
    exact ((enqueueNode_cases w.db n enabled recipe now).other
      fun h => hm (List.mem_singleton.mpr h)).2 t
  | claim recipe limit now =>
    simp only [step] at hs
    split at hs
    · rename_i db works hclaim
      cases hs
      exact (claim_spec hi.sane hi.mirrors hclaim).others m t hm
    · cases hs
      rfl
  | apply k response recipe now =>
    simp only [step] at hs
    split at hs
    · rename_i work hwork
      have hne : m ≠ work.nodeId := by
        rw [World.nodesOf, hwork, Option.map_some, Option.toList_some, List.mem_singleton] at hm
        exact hm
      split at hs
      · rename_i db published happly
        cases hs
        rcases applyResult_cases happly with ⟨-, rfl⟩ | ⟨-, answer, -, hpub⟩
        · rfl
        · exact (hpub.owned m t).trans (by rw [if_neg hne])
      · cases hs
        rfl
    · cases hs
  | fail k error transient retryAfterMs consumeAttempt now =>
    simp only [step] at hs
    split at hs
    · cases hs
      rfl
    · cases hs
  | crash k =>
    cases hs
    rfl

end Publication

section Takeover

/-- A recipe with one topic, and an answer that is sure of it. -/
def oneTopic : Recipe where
  topics := ["rust"]
  recipeHash := "r1"

def sure : Response := ⟨"1.13.0", Table.empty.insert "rust" (9 / 10)⟩

/-- Worker A claims a node and waits for the model; its lease runs out and worker B claims the
node too and publishes. -/
def takenOver : List Action :=
  [.edit 1 ⟨"n1", .ok "h1"⟩, .enqueue 1 true oneTopic 0, .claim oneTopic 2 1000,
   .claim oneTopic 2 70000, .apply 1 (.ok sure) oneTopic 80000]

/-- A's late result then changes nothing. -/
theorem lateApply_fenced : ∃ w w' work, Reaches step World.init w ∧ work ∈ w.works ∧
    ¬ HoldsLease w.db work ∧ step w (.apply 0 (.ok sure) oneTopic 90000) = some w' ∧
    w'.db = w.db := by
  obtain ⟨w, hrun, hwork, hlost, hsome⟩ : ∃ w : World, Run step (fun _ _ => True) World.init w ∧
      (w.works[0]? = some ⟨1, "n1", 1, "h1", "r1", 0, 1⟩ ∧
        (∀ row ∈ w.db.rows.get? 1, row.leaseToken = none) ∧
        (step w (.apply 0 (.ok sure) oneTopic 90000)).isSome = true) :=
    exists_run_of_exec (l := takenOver) (by decide +kernel)
  obtain ⟨w', hs⟩ := Option.isSome_iff_exists.mp hsome
  have hnot : ¬ HoldsLease w.db ⟨1, "n1", 1, "h1", "r1", 0, 1⟩ := by
    rintro ⟨row, hrow, hlease, -⟩
    cases (hlost row hrow).symm.trans hlease
  have hmem := List.mem_of_getElem? hwork
  exact ⟨w, w', _, hrun, hmem, hnot, hs,
    (((publication_fenced hrun).2.2.1 _ hmem hnot w (Run.refl w)).2 0 _ w' rfl hwork hs)⟩

/-- The published topic of the same run is linked. -/
theorem takenOver_linked : ∃ w, Reaches step World.init w ∧ Mirrors w.db ∧
    w.db.Owned 1 "rust" := by
  obtain ⟨w, hrun, howned⟩ : ∃ w : World, Run step (fun _ _ => True) World.init w ∧
      w.db.Owned 1 "rust" :=
    exists_run_of_exec (l := takenOver) (by decide +kernel)
  exact ⟨w, hrun, (memberships_mirror hrun).1, howned⟩

end Takeover

end Hippo.Classifier
