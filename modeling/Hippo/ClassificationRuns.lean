import Hippo.Classification
import Hippo.Transition

/-!
# Runs of the classification workers

Writers change nodes and enqueue them while workers claim rows, wait for the model and
report. The facts below are about one transaction: what it leaves of the leases, of the
published rows and of the topic links. Clock readings are arbitrary.
-/
namespace Hippo.Classifier
open Hippo Hippo.ClassificationDb Hippo.Transition

structure World where
  db : ClassificationDb
  /-- The claims that were handed out and are not reported yet. -/
  works : List ClassificationClaim := []

inductive Action where
  /-- A writer stores or changes a node. -/
  | edit (node : ℕ) (content : ClassifiedNode)
  /-- The same, with new entity links, and enqueues the node in its transaction. -/
  | rewrite (node : ℕ) (content : ClassifiedNode) (enabled : Bool) (recipe : Recipe) (now : ℤ)
  | delete (node : ℕ)
  /-- A writer stores an entity of its own. -/
  | sourceEntity (name : Canonical)
  /-- A writer links a node to an entity that is not the classifier's. -/
  | relate (node : ℕ) (name : Canonical)
  | enqueue (node : ℕ) (enabled : Bool) (recipe : Recipe) (now : ℤ)
  | claim (recipe : Recipe) (limit : ℕ) (now : ℤ)
  | apply (k : ℕ) (response : Except String Response) (recipe : Recipe) (now : ℤ)
  | fail (k : ℕ) (error : String) (transient : Bool) (retryAfterMs : ℤ) (consumeAttempt : Bool)
      (now : ℤ)
  | crash (k : ℕ)

section Step

def World.init : World := { db := ClassificationDb.empty }

def storeNode (db : ClassificationDb) (n : ℕ) (content : ClassifiedNode) : ClassificationDb :=
  { db with nodes := db.nodes.upsert n content fun _ => content }

def wipeLinks (db : ClassificationDb) (n : ℕ) : ClassificationDb :=
  db.filterLinks fun l => l.1 ≠ n

/-- A node goes with its links and its classification row. -/
def deleteNode (db : ClassificationDb) (n : ℕ) : ClassificationDb :=
  let wiped := wipeLinks db n
  { wiped with
    nodes := db.nodes.delete fun m _ => m = n
    rows := db.rows.delete fun m _ => m = n }

def storeEntity (db : ClassificationDb) (name : Canonical) : ClassificationDb :=
  { db with
    entities := db.entities.upsert name .source id
    fk := by
      intro l hl
      obtain ⟨owner, howner⟩ := Table.mem_keys.mp (db.fk l hl)
      rw [Table.mem_keys, Table.get?_upsert]
      split
      · exact ⟨_, rfl⟩
      · exact ⟨owner, howner⟩ }

def relateNode (db : ClassificationDb) (n : ℕ) (name : Canonical)
    (h : db.entities.get? name = some .source) : ClassificationDb :=
  { db with
    links := db.links ++ [(n, name)]
    fk := by
      intro l hl
      rcases List.mem_append.mp hl with hl | hl
      · exact db.fk l hl
      · rw [List.mem_singleton.mp hl]
        exact Table.mem_keys.mpr ⟨_, h⟩ }

/-- One transaction; `none` when it is not enabled. A report that raises leaves its claim in
flight: the worker still calls `_fail`. -/
def step (w : World) : Action → Option World
  | .edit n content => some { w with db := storeNode w.db n content }
  | .rewrite n content enabled recipe now =>
    some { w with
      db := ((wipeLinks (storeNode w.db n content) n).enqueueNode n enabled recipe now).1 }
  | .delete n => some { w with db := deleteNode w.db n }
  | .sourceEntity name => some { w with db := storeEntity w.db name }
  | .relate n name =>
    if h : w.db.entities.get? name = some .source then
      some { w with db := relateNode w.db n name h }
    else none
  | .enqueue n enabled recipe now =>
    some { w with db := (w.db.enqueueNode n enabled recipe now).1 }
  | .claim recipe limit now =>
    match w.db.claim recipe limit now with
    | .ok (db, works) => some ⟨db, w.works ++ works⟩
    | .error _ => some w
  | .apply k response recipe now =>
    match w.works[k]? with
    | some work =>
      match w.db.applyResult work response recipe now with
      | .ok (db, _) => some ⟨db, replaceAt w.works k []⟩
      | .error _ => some w
    | none => none
  | .fail k error transient retryAfterMs consumeAttempt now =>
    match w.works[k]? with
    | some work =>
      some ⟨w.db.fail work error transient retryAfterMs consumeAttempt now,
        replaceAt w.works k []⟩
    | none => none
  | .crash k => some { w with works := replaceAt w.works k [] }

end Step

section Transactions

variable {db db' db'' : ClassificationDb} {n m : ℕ} {row row' : ClassificationRow}

/-- A row with a lease is being processed, under a token from the past; only a ready row has
topics; attempts are within the budget. -/
structure SaneRow (nextToken : ℕ) (row : ClassificationRow) : Prop where
  attempts : row.attempts ≤ maxAttempts
  accepted : row.status ≠ .ready → row.acceptedTopics = []
  lease : ∀ token, row.leaseToken = some token → token < nextToken ∧ row.status = .processing

def Sane (db : ClassificationDb) : Prop :=
  ∀ n row, db.rows.get? n = some row → SaneRow db.nextToken row

/-- The owned links of every node are those to the topics its row has published. -/
def Mirrors (db : ClassificationDb) : Prop :=
  ∀ n t, db.Owned n t ↔
    ∃ row, db.rows.get? n = some row ∧ row.status = .ready ∧ t ∈ row.acceptedTopics

/-- A transaction that publishes nothing: ready rows are as before, and a lease from the past
is held by the same revision as before. -/
structure Quiet (db db' : ClassificationDb) : Prop where
  ready : ∀ n row', db'.rows.get? n = some row' → row'.status = .ready →
    db.rows.get? n = some row'
  fence : ∀ n row' token, token < db.nextToken → db'.rows.get? n = some row' →
    row'.leaseToken = some token → ∃ row, db.rows.get? n = some row ∧
      row.leaseToken = some token ∧ row.requestedRevision = row'.requestedRevision
  tokens : db.nextToken ≤ db'.nextToken

theorem Quiet.refl (db : ClassificationDb) : Quiet db db where
  ready := fun _ _ hrow _ => hrow
  fence := fun _ row _ _ hrow htoken => ⟨row, hrow, htoken, rfl⟩
  tokens := le_rfl

theorem Quiet.trans (h : Quiet db db') (h' : Quiet db' db'') : Quiet db db'' where
  ready := fun n row hrow hready => h.ready n row (h'.ready n row hrow hready) hready
  fence := by
    intro n row token hlt hrow htoken
    have hlt' : token < db'.nextToken := hlt.trans_le h.tokens
    obtain ⟨row₁, hrow₁, htoken₁, hrev₁⟩ := h'.fence n row token hlt' hrow htoken
    obtain ⟨row₀, hrow₀, htoken₀, hrev₀⟩ := h.fence n row₁ token hlt hrow₁ htoken₁
    exact ⟨row₀, hrow₀, htoken₀, hrev₀.trans hrev₁⟩
  tokens := h.tokens.trans h'.tokens

theorem Quiet.of_rows (hrows : db'.rows = db.rows) (htoken : db'.nextToken = db.nextToken) :
    Quiet db db' where
  ready := fun _ _ hrow _ => hrows ▸ hrow
  fence := fun _ row _ _ hrow htoken => ⟨row, hrows ▸ hrow, htoken, rfl⟩
  tokens := htoken.ge

theorem Sane.of_rows (h : Sane db) (hrows : db'.rows = db.rows)
    (htoken : db'.nextToken = db.nextToken) : Sane db' := by
  intro n row hrow
  rw [hrows] at hrow
  rw [htoken]
  exact h n row hrow

/-- What `enqueue_node` does: nothing, a refresh of the links of a ready row, or a new
revision without a result. -/
inductive Enqueued (db : ClassificationDb) (n : ℕ) : ClassificationDb → Prop
  | same (h : db.nodes.get? n = none ∨ ∀ row, db.rows.get? n = some row → row.status ≠ .ready) :
      Enqueued db n db
  | kept {db' : ClassificationDb} {row : ClassificationRow} (hrow : db.rows.get? n = some row) (hready : row.status = .ready)
      (hnodes : db'.nodes = db.nodes) (hrows : db'.rows = db.rows)
      (htoken : db'.nextToken = db.nextToken)
      (howned : ∀ m t, db'.Owned m t ↔ if m = n then t ∈ row.acceptedTopics else db.Owned m t) :
      Enqueued db n db'
  | requeued {db' : ClassificationDb} {new : ClassificationRow} (hnodes : db'.nodes = db.nodes)
      (hrows : ∀ m, db'.rows.get? m = if m = n then some new else db.rows.get? m)
      (htoken : db'.nextToken = db.nextToken)
      (howned : ∀ m t, db'.Owned m t ↔ db.Owned m t ∧ m ≠ n)
      (hstatus : new.status ≠ .ready) (hattempts : new.attempts = 0)
      (hlease : new.leaseToken = none) (haccepted : new.acceptedTopics = []) :
      Enqueued db n db'

theorem requeue_cases {previous : Option ClassificationRow} {identity : Identity}
    {error : Option String} {enabled : Bool} {recipe : Recipe} {now : ℤ}
    (hprevious : db.rows.get? n = previous) :
    Enqueued db n (db.requeue n previous identity error enabled recipe now).1 := by
  simp only [requeue]
  split
  · rename_i hunchanged
    obtain ⟨row, hrow, hsame⟩ := hunchanged
    refine .same (Or.inr fun row' hrow' hready => ?_)
    have heq : some row = some row' := hrow.symm.trans (hprevious.symm.trans hrow')
    cases heq
    obtain ⟨-, -, -, ⟨-, hst⟩ | ⟨-, hst⟩⟩ := hsame
    · rw [hready] at hst
      rcases hst with hst | hst | hst <;> cases hst
    · rw [hready] at hst
      cases hst
  · have hrows : ∀ m, ((db.removeMemberships n).rows.upsert n
        (requestedRow previous identity error enabled recipe now)
        fun _ => requestedRow previous identity error enabled recipe now).get? m =
          if m = n then some (requestedRow previous identity error enabled recipe now)
          else db.rows.get? m := by
      intro m
      rw [Table.get?_upsert]
      split
      · cases (db.removeMemberships n).rows.get? n <;> rfl
      · rfl
    refine .requeued rfl hrows rfl (fun m t => owned_removeMemberships) ?_ rfl rfl rfl
    dsimp only [requestedRow]
    split <;> decide

theorem enqueueNode_cases (db : ClassificationDb) (n : ℕ) (enabled : Bool) (recipe : Recipe)
    (now : ℤ) : Enqueued db n (db.enqueueNode n enabled recipe now).1 := by
  simp only [enqueueNode]
  split
  · rename_i h
    refine .same (Or.inr fun row hrow => ?_)
    rw [hrow] at h
    cases h.2
  · split
    · rename_i hnode
      exact .same (Or.inl hnode)
    · split
      · exact requeue_cases rfl
      · split
        · exact requeue_cases rfl
        · rename_i row hcurrent
          obtain ⟨hrow, hcur⟩ := Option.filter_eq_some_iff.mp hcurrent
          split
          · rename_i db' hdb
            obtain ⟨hnodes, hrows, htoken, howned⟩ := memberships_ok hdb
            exact .kept hrow (of_decide_eq_true hcur).1 hnodes hrows htoken howned
          · exact requeue_cases rfl

theorem Enqueued.quiet (h : Enqueued db n db') : Quiet db db' := by
  cases h with
  | same => exact Quiet.refl db
  | kept hrow hready hnodes hrows htoken howned => exact Quiet.of_rows hrows htoken
  | requeued hnodes hrows htoken howned hstatus hattempts hlease haccepted =>
    constructor
    · intro m row hrow hready
      rw [hrows] at hrow
      split at hrow
      · cases hrow
        exact absurd hready hstatus
      · exact hrow
    · intro m row token hlt hrow hlease'
      rw [hrows] at hrow
      split at hrow
      · cases hrow
        cases hlease.symm.trans hlease'
      · exact ⟨row, hrow, hlease', rfl⟩
    · exact htoken.ge

theorem Enqueued.sane (h : Enqueued db n db') (hs : Sane db) : Sane db' := by
  cases h with
  | same => exact hs
  | kept hrow hready hnodes hrows htoken howned => exact hs.of_rows hrows htoken
  | requeued hnodes hrows htoken howned hstatus hattempts hlease haccepted =>
    intro m row hrow
    rw [hrows] at hrow
    rw [htoken]
    split at hrow
    · cases hrow
      exact ⟨by rw [hattempts]; exact Nat.zero_le _, fun _ => haccepted,
        fun token ht => absurd (hlease.symm.trans ht) nofun⟩
    · exact hs m row hrow

theorem Enqueued.nodes (h : Enqueued db n db') : db'.nodes = db.nodes := by
  cases h with
  | same => rfl
  | kept hrow hready hnodes hrows htoken howned => exact hnodes
  | requeued hnodes => exact hnodes

theorem Enqueued.token (h : Enqueued db n db') : db'.nextToken = db.nextToken := by
  cases h with
  | same => rfl
  | kept hrow hready hnodes hrows htoken howned => exact htoken
  | requeued hnodes hrows htoken => exact htoken

/-- An operation on one node touches neither the row nor the owned links of another. -/
theorem Enqueued.other (h : Enqueued db n db') (hm : m ≠ n) :
    db'.rows.get? m = db.rows.get? m ∧ ∀ t, db'.Owned m t ↔ db.Owned m t := by
  cases h with
  | same => exact ⟨rfl, fun t => Iff.rfl⟩
  | kept hrow hready hnodes hrows htoken howned =>
    exact ⟨by rw [hrows], fun t => by rw [howned, if_neg hm]⟩
  | requeued hnodes hrows htoken howned =>
    exact ⟨by rw [hrows, if_neg hm], fun t => by rw [howned, and_iff_left hm]⟩

/-- The mirror of one node, when that of the others is known. -/
theorem Enqueued.mirrors (h : Enqueued db n db')
    (hothers : ∀ m, m ≠ n → ∀ t, db.Owned m t ↔
      ∃ row, db.rows.get? m = some row ∧ row.status = .ready ∧ t ∈ row.acceptedTopics)
    (hsame : (db.nodes.get? n = none ∨
        ∀ row, db.rows.get? n = some row → row.status ≠ .ready) →
      ∀ t, db.Owned n t ↔
        ∃ row, db.rows.get? n = some row ∧ row.status = .ready ∧ t ∈ row.acceptedTopics) :
    Mirrors db' := by
  intro m t
  by_cases hm : m = n
  · subst hm
    cases h with
    | same hnot => exact hsame hnot t
    | kept hrow hready hnodes hrows htoken howned =>
      rw [howned, if_pos rfl, hrows]
      constructor
      · exact fun ht => ⟨_, hrow, hready, ht⟩
      · rintro ⟨row, hrow', -, ht⟩
        rw [hrow, Option.some.injEq] at hrow'
        exact hrow' ▸ ht
    | requeued hnodes hrows htoken howned hstatus =>
      rw [howned, hrows, if_pos rfl]
      constructor
      · exact fun ht => absurd rfl ht.2
      · rintro ⟨row, hrow, hready, -⟩
        cases hrow
        exact absurd hready hstatus
  · obtain ⟨hrow, howned⟩ := h.other hm
    rw [howned, hrow]
    exact hothers m hm t

theorem Mirrors.enqueued (h : Mirrors db) (he : Enqueued db n db') : Mirrors db' :=
  he.mirrors (fun m _ t => h m t) fun _ t => h n t

/-- An `UPDATE` that takes leases away from rows that are not ready. -/
theorem Quiet.updateRows {p : ℕ → ClassificationRow → Prop} [∀ n row, Decidable (p n row)]
    {f : ClassificationRow → ClassificationRow}
    (hf : ∀ row, (f row).status ≠ .ready ∧ (f row).leaseToken = none) :
    Quiet db { db with rows := db.rows.update p f } where
  ready := by
    intro n row' hrow' hready
    obtain ⟨row, hrow, ⟨-, rfl⟩ | ⟨-, rfl⟩⟩ := Table.eq_of_get?_update hrow'
    · exact absurd hready (hf row).1
    · exact hrow
  fence := by
    intro n row' token hlt hrow' htoken
    obtain ⟨row, hrow, ⟨-, rfl⟩ | ⟨-, rfl⟩⟩ := Table.eq_of_get?_update hrow'
    · cases (hf row).2.symm.trans htoken
    · exact ⟨row', hrow, htoken, rfl⟩
  tokens := le_rfl

theorem Sane.updateRows (h : Sane db) {p : ℕ → ClassificationRow → Prop}
    [∀ n row, Decidable (p n row)] {f : ClassificationRow → ClassificationRow}
    (hf : ∀ row, (f row).leaseToken = none ∧ (f row).acceptedTopics = row.acceptedTopics)
    (hp : ∀ n row, db.rows.get? n = some row → p n row →
      row.status ≠ .ready ∧ (f row).attempts ≤ maxAttempts) :
    Sane { db with rows := db.rows.update p f } := by
  intro n row' hrow'
  obtain ⟨row, hrow, ⟨hpr, rfl⟩ | ⟨-, rfl⟩⟩ := Table.eq_of_get?_update hrow'
  · obtain ⟨hnot, hattempts⟩ := hp n row hrow hpr
    exact ⟨hattempts, fun _ => (hf row).2.trans ((h n row hrow).accepted hnot),
      fun token ht => absurd ((hf row).1.symm.trans ht) nofun⟩
  · exact h n row' hrow

theorem Mirrors.updateRows (h : Mirrors db) {p : ℕ → ClassificationRow → Prop}
    [∀ n row, Decidable (p n row)] {f : ClassificationRow → ClassificationRow}
    {nextToken : ℕ} (hp : ∀ n row, db.rows.get? n = some row → p n row →
      row.status ≠ .ready ∧ (f row).status ≠ .ready) :
    Mirrors { db with rows := db.rows.update p f, nextToken := nextToken } := by
  intro n t
  have hiff : (∃ row, (db.rows.update p f).get? n = some row ∧ row.status = .ready ∧
      t ∈ row.acceptedTopics) ↔
      ∃ row, db.rows.get? n = some row ∧ row.status = .ready ∧ t ∈ row.acceptedTopics := by
    constructor
    · rintro ⟨row', hrow', hready, ht⟩
      obtain ⟨row, hrow, ⟨hpr, rfl⟩ | ⟨-, rfl⟩⟩ := Table.eq_of_get?_update hrow'
      · exact absurd hready (hp n row hrow hpr).2
      · exact ⟨row', hrow, hready, ht⟩
    · rintro ⟨row, hrow, hready, ht⟩
      refine ⟨row, ?_, hready, ht⟩
      rw [Table.get?_update, hrow, Option.map_some,
        if_neg fun hpr => (hp n row hrow hpr).1 hready]
  exact (h n t).trans hiff.symm

end Transactions

section Claims

variable {db db' : ClassificationDb} {n : ℕ} {recipe : Recipe} {now : ℤ}

theorem Enqueued.attempts (h : Enqueued db n db') {live : ClassificationRow}
    (hlive : db'.rows.get? n = some live) : live.attempts = 0 ∨ db.rows.get? n = some live := by
  cases h with
  | same => exact Or.inr hlive
  | kept hrow hready hnodes hrows htoken howned => exact Or.inr (hrows ▸ hlive)
  | requeued hnodes hrows htoken howned hstatus hattempts =>
    rw [hrows, if_pos rfl, Option.some.injEq] at hlive
    exact Or.inl (hlive ▸ hattempts)

/-- The row's `UPDATE` of the claim, under the next token. -/
def lockRow (db : ClassificationDb) (n : ℕ) (now : ℤ) : ClassificationDb :=
  { db with
    rows := db.rows.modify n (ClassificationRow.lock db.nextToken now)
    nextToken := db.nextToken + 1 }

theorem lockRow_quiet (db : ClassificationDb) (n : ℕ) (now : ℤ) : Quiet db (lockRow db n now) where
  ready := by
    intro m row' hrow' hready
    obtain ⟨row, hrow, ⟨-, rfl⟩ | ⟨-, rfl⟩⟩ := Table.eq_of_get?_modify hrow'
    · cases hready
    · exact hrow
  fence := by
    intro m row' token hlt hrow' htoken
    obtain ⟨row, hrow, ⟨-, rfl⟩ | ⟨-, rfl⟩⟩ := Table.eq_of_get?_modify hrow'
    · have heq : db.nextToken = token := Option.some.inj htoken
      omega
    · exact ⟨row', hrow, htoken, rfl⟩
  tokens := Nat.le_succ _

/-- The claim of a row that is pending or being processed, with attempts left. -/
theorem lockRow_sane (hs : Sane db) {live : ClassificationRow} (hlive : db.rows.get? n = some live)
    (hst : live.status = .pending ∨ live.status = .processing)
    (hleft : live.attempts < maxAttempts) : Sane (lockRow db n now) := by
  intro m row' hrow'
  obtain ⟨row, hrow, ⟨rfl, rfl⟩ | ⟨-, rfl⟩⟩ := Table.eq_of_get?_modify hrow'
  · rw [hlive, Option.some.injEq] at hrow
    subst hrow
    have hnot : live.status ≠ .ready := by
      rcases hst with hst | hst <;> rw [hst] <;> decide
    refine ⟨hleft, fun _ => (hs m live hlive).accepted hnot, fun token htoken => ?_⟩
    have heq : db.nextToken = token := Option.some.inj htoken
    exact ⟨heq ▸ Nat.lt_succ_self _, rfl⟩
  · obtain ⟨hattempts, haccepted, hlease⟩ := hs m row' hrow
    exact ⟨hattempts, haccepted,
      fun token htoken => ⟨(hlease token htoken).1.trans (Nat.lt_succ_self _), (hlease token htoken).2⟩⟩

theorem lockRow_mirrors (hm : Mirrors db) {live : ClassificationRow}
    (hlive : db.rows.get? n = some live)
    (hst : live.status = .pending ∨ live.status = .processing) : Mirrors (lockRow db n now) := by
  refine hm.updateRows fun m row hrow heq => ⟨?_, nofun⟩
  rw [heq, hlive, Option.some.injEq] at hrow
  subst hrow
  rcases hst with hst | hst <;> rw [hst] <;> decide

/-- One turn of the claim's loop: the row is enqueued again, and locked if it still asks for
the work that was selected. -/
theorem claimRow_cases (db : ClassificationDb) (recipe : Recipe) (now : ℤ)
    (selected : ℕ × ClassificationRow) : ∃ db₁, Enqueued db selected.1 db₁ ∧
      (db.claimRow recipe now selected = (db₁, none) ∨
        ∃ live work, db₁.rows.get? selected.1 = some live ∧
          (live.status = .pending ∨ live.status = .processing) ∧
          work.nodeId = selected.1 ∧ work.leaseToken = db₁.nextToken ∧
          work.attempts = selected.2.attempts + 1 ∧
          db.claimRow recipe now selected = (lockRow db₁ selected.1 now, some work)) := by
  refine ⟨_, enqueueNode_cases db selected.1 true recipe now, ?_⟩
  simp only [claimRow]
  split
  · exact Or.inl rfl
  · exact Or.inl rfl
  · split
    · exact Or.inl rfl
    · split
      · rename_i hlive
        obtain ⟨live, hget, -, -, hst⟩ := hlive
        exact Or.inr ⟨live, _, hget, hst, rfl, rfl, rfl, rfl⟩
      · exact Or.inl rfl

/-- What a run of the claim's loop over the given nodes does. -/
structure ClaimedRows (db db' : ClassificationDb) (keys : List ℕ)
    (works : List ClassificationClaim) : Prop where
  quiet : Quiet db db'
  sane : Sane db'
  mirrors : Mirrors db'
  others : ∀ m, m ∉ keys → db'.rows.get? m = db.rows.get? m ∧ ∀ t, db'.Owned m t ↔ db.Owned m t
  works : ∀ work ∈ works, db.nextToken ≤ work.leaseToken ∧ work.leaseToken < db'.nextToken ∧
    work.attempts ≤ maxAttempts ∧ work.nodeId ∈ keys ∧
    ∃ row, db'.rows.get? work.nodeId = some row ∧ row.leaseToken = some work.leaseToken

theorem claimRow_spec (recipe : Recipe) (now : ℤ) (hs : Sane db) (hm : Mirrors db)
    {selected : ℕ × ClassificationRow}
    (hsel : db.rows.get? selected.1 = some selected.2) (hleft : selected.2.attempts < maxAttempts) :
    ClaimedRows db (db.claimRow recipe now selected).1 [selected.1]
      (db.claimRow recipe now selected).2.toList := by
  obtain ⟨db₁, he, heq | ⟨live, work, hlive, hst, hnode, htoken, hattempts, heq⟩⟩ :=
    claimRow_cases db recipe now selected
  · rw [heq]
    exact ⟨he.quiet, he.sane hs, hm.enqueued he,
      fun m hne => he.other fun h => hne (List.mem_singleton.mpr h),
      fun work hwork => absurd hwork List.not_mem_nil⟩
  · rw [heq]
    have hlive' : live.attempts < maxAttempts := by
      rcases he.attempts hlive with h | h
      · rw [h]
        decide
      · rw [hsel, Option.some.injEq] at h
        exact h ▸ hleft
    refine ⟨he.quiet.trans (lockRow_quiet db₁ selected.1 now),
      lockRow_sane (he.sane hs) hlive hst hlive', lockRow_mirrors (hm.enqueued he) hlive hst,
      fun m hne => ?_, fun work' hwork => ?_⟩
    · have hne' : m ≠ selected.1 := fun h => hne (List.mem_singleton.mpr h)
      obtain ⟨hrow, howned⟩ := he.other hne'
      exact ⟨(Table.get?_modify_of_ne _ hne' _).trans hrow, howned⟩
    · rw [Option.toList_some, List.mem_singleton] at hwork
      subst hwork
      refine ⟨htoken ▸ he.token.ge, htoken ▸ Nat.lt_succ_self _, hattempts ▸ hleft,
        List.mem_singleton.mpr hnode, live.lock db₁.nextToken now, ?_, congrArg some htoken.symm⟩
      rw [hnode, lockRow, Table.get?_modify_self, hlive, Option.map_some]

theorem claimRows_spec (recipe : Recipe) (now : ℤ) (selected : List (ℕ × ClassificationRow))
    (hs : Sane db) (hm : Mirrors db)
    (hnodup : (selected.map Prod.fst).Nodup)
    (hsel : ∀ e ∈ selected, db.rows.get? e.1 = some e.2 ∧ e.2.attempts < maxAttempts) :
    ClaimedRows db (claimRows recipe now db selected).1 (selected.map Prod.fst)
      (claimRows recipe now db selected).2 := by
  induction selected generalizing db with
  | nil =>
    exact ⟨Quiet.refl db, hs, hm, fun _ _ => ⟨rfl, fun _ => Iff.rfl⟩,
      fun work hwork => absurd hwork List.not_mem_nil⟩
  | cons e rest ih =>
    obtain ⟨hnot, hrest⟩ := List.nodup_cons.mp hnodup
    obtain ⟨hget, hleft⟩ := hsel e List.mem_cons_self
    have hone := claimRow_spec recipe now hs hm hget hleft
    have hmany := ih hone.sane hone.mirrors hrest fun e' he' => by
      have hne : e'.1 ≠ e.1 := fun h => hnot (h ▸ List.mem_map_of_mem he')
      obtain ⟨hget', hleft'⟩ := hsel e' (List.mem_cons_of_mem e he')
      exact ⟨(hone.others e'.1 (by simpa using hne)).1.trans hget', hleft'⟩
    have hquiet := hone.quiet.trans hmany.quiet
    simp only [claimRows, List.map_cons]
    refine ⟨hquiet, hmany.sane, hmany.mirrors, fun m hne => ?_, fun work hwork => ?_⟩
    · obtain ⟨hm₁, hm₂⟩ := not_or.mp fun h => hne (List.mem_cons.mpr h)
      obtain ⟨hrow₁, howned₁⟩ := hone.others m (by simpa using hm₁)
      obtain ⟨hrow₂, howned₂⟩ := hmany.others m hm₂
      exact ⟨hrow₂.trans hrow₁, fun t => (howned₂ t).trans (howned₁ t)⟩
    · rcases List.mem_append.mp hwork with hwork | hwork
      · obtain ⟨hge, hlt, hattempts, hkey, row, hrow, hlease⟩ := hone.works work hwork
        have hnode : work.nodeId = e.1 := List.mem_singleton.mp hkey
        refine ⟨hge, hlt.trans_le hmany.quiet.tokens, hattempts,
          List.mem_cons.mpr (Or.inl hnode), row, ?_, hlease⟩
        rw [(hmany.others work.nodeId (hnode ▸ hnot)).1, hrow]
      · obtain ⟨hge, hlt, hattempts, hkey, hrow⟩ := hmany.works work hwork
        exact ⟨hone.quiet.tokens.trans hge, hlt, hattempts, List.mem_cons_of_mem _ hkey, hrow⟩

theorem giveUpExpired_spec (now : ℤ) (hs : Sane db) (hm : Mirrors db) : Quiet db (db.giveUpExpired now) ∧
    Sane (db.giveUpExpired now) ∧ Mirrors (db.giveUpExpired now) := by
  have hnot : ∀ n row, db.rows.get? n = some row →
      (row.status = .processing ∧ row.Expired now ∧ maxAttempts ≤ row.attempts) →
      row.status ≠ .ready := by
    intro n row _ h
    rw [h.1]
    decide
  exact ⟨Quiet.updateRows fun row => ⟨nofun, rfl⟩,
    hs.updateRows (fun row => ⟨rfl, rfl⟩) fun n row hrow hp =>
      ⟨hnot n row hrow hp, (hs n row hrow).attempts⟩,
    hm.updateRows fun n row hrow hp => ⟨hnot n row hrow hp, nofun⟩⟩

/-- What `claim` does: it publishes nothing, changes only links of nodes it selected, and
hands out work under new tokens, within the budget. -/
structure ClaimSpec (db db' : ClassificationDb) (keys : List ℕ)
    (works : List ClassificationClaim) : Prop where
  quiet : Quiet db db'
  sane : Sane db'
  mirrors : Mirrors db'
  others : ∀ m t, m ∉ keys → (db'.Owned m t ↔ db.Owned m t)
  works : ∀ work ∈ works, db.nextToken ≤ work.leaseToken ∧ work.leaseToken < db'.nextToken ∧
    work.attempts ≤ maxAttempts ∧
    ∃ row, db'.rows.get? work.nodeId = some row ∧ row.leaseToken = some work.leaseToken

theorem claim_spec {limit : ℕ} {works : List ClassificationClaim} (hs : Sane db) (hm : Mirrors db)
    (h : db.claim recipe limit now = .ok (db', works)) :
    ClaimSpec db db' (((db.giveUpExpired now).claimable recipe limit now).map Prod.fst) works := by
  unfold claim at h
  split at h
  · cases h
  · obtain ⟨hquiet, hsane, hmirrors⟩ := giveUpExpired_spec now hs hm
    have hselected : ∀ e ∈ (db.giveUpExpired now).claimable recipe limit now,
        (db.giveUpExpired now).rows.get? e.1 = some e.2 ∧ e.2.attempts < maxAttempts := by
      rintro ⟨n, row⟩ he
      obtain ⟨hget, -, hleft, -⟩ :=
        Table.mem_select.mp (mem_orderBy.mp (mem_orderBy.mp (List.mem_of_mem_take he)))
      exact ⟨hget, hleft⟩
    have hnodup : (((db.giveUpExpired now).claimable recipe limit now).map Prod.fst).Nodup := by
      have hselect : (((db.giveUpExpired now).rows.select fun _ row =>
          row.Claimable recipe now).map Prod.fst).Nodup :=
        (List.filter_sublist.map Prod.fst).nodup (db.giveUpExpired now).rows.nodup
      exact ((List.take_sublist _ _).map Prod.fst).nodup
        (nodup_map_orderBy (nodup_map_orderBy hselect))
    have hrows := claimRows_spec recipe now _ hsane hmirrors hnodup hselected
    rw [Except.ok.injEq] at h
    rw [h] at hrows
    refine ⟨hquiet.trans hrows.quiet, hrows.sane, hrows.mirrors, fun m t hne => ?_,
      fun work hwork => ?_⟩
    · exact (hrows.others m hne).2 t
    · obtain ⟨hge, hlt, hattempts, -, hrow⟩ := hrows.works work hwork
      exact ⟨hge, hlt, hattempts, hrow⟩

end Claims

end Hippo.Classifier
