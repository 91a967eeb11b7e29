import Hippo.SearchDetails

/-!
# What ineligible sources can change

Two databases agree if they show the same nodes, entities and eligible sources. A search then
finds the same nodes and attaches the same evidence, up to three queries that do not ask for
eligibility: the joins that the time and branch filters read take probe events and visits, the
source filter for `shell` looks at the links only, and the evidence query for memory takes the
chunks of the probe repository.
-/
namespace Hippo.Retrieval
open BestSelection

variable {db db' : Db} {now : ℤ}

/-- The databases show the same nodes, entities and eligible sources. -/
structure Agree (now : ℤ) (db db' : Db) : Prop where
  nodes : db.nodes = db'.nodes
  projects : db.projects = db'.projects
  entities : ∀ node, db.nodeEntities node = db'.nodeEntities node
  events : ∀ node, (db.nodeEvents node).filter (fun e => e.2.eligible) =
    (db'.nodeEvents node).filter fun e => e.2.eligible
  visits : ∀ node, (db.nodeVisits node).filter (fun v => v.2.eligible) =
    (db'.nodeVisits node).filter fun v => v.2.eligible
  sessions : ∀ node, (db.nodeSessions node).filter (fun s => s.2.eligible now) =
    (db'.nodeSessions node).filter fun s => s.2.eligible now
  runs : ∀ node, (db.nodeRuns node).filter (fun r => r.2.eligible) =
    (db'.nodeRuns node).filter fun r => r.2.eligible
  memory : ∀ node, (db.nodeMemory node).filter (fun m => m.2.eligible) =
    (db'.nodeMemory node).filter fun m => m.2.eligible

section Details

variable {node : ℕ} {row : NodeRow}

/-- The active chunks of the probe repository. -/
def Db.probeMemory (db : Db) (node : ℕ) : List (ℕ × MemoryRow) :=
  (db.nodeMemory node).filter fun m => m.2.active && ! m.2.eligible

def memoryPacket (m : ℕ × MemoryRow) : EvidencePacket := makeMemoryPacket m.1 m.2

/-- The parts of the details that the sources decide. -/
def Details.shown (d : Details) :
    List String × List EvidencePacket × String × String × ℤ :=
  (d.linkedSourceIds, d.evidencePackets, d.cwd, d.gitBranch, d.capturedAt)

theorem Agree.observed (h : Agree now db db') (node : ℕ) (row : NodeRow) :
    db.observed false now node row = db'.observed false now node row := by
  simp only [Db.observed, Db.shellRows, Db.browserRows, Db.workflowRows, Db.agenticRows,
    Bool.false_or, h.events, h.visits, h.sessions, h.runs]

/-- A chunk is added by its packet alone. -/
theorem foldl_addMemory (rows : List (ℕ × MemoryRow)) (d : Details) :
    rows.foldl Details.addMemory d = (rows.map memoryPacket).foldl
      (fun d packet => (d.attach packet).capture packet.timestampMs) d := by
  rw [List.foldl_map]
  rfl

theorem packets_addMemory (rows : List (ℕ × MemoryRow)) (d : Details) :
    (rows.foldl Details.addMemory d).evidencePackets =
      d.evidencePackets ++ rows.map memoryPacket := by
  induction rows generalizing d with
  | nil => simp
  | cons m rows ih =>
    have hone : (d.addMemory m).evidencePackets = d.evidencePackets ++ [memoryPacket m] := by
      unfold Details.addMemory Details.capture
      split <;> rfl
    rw [List.foldl_cons, ih, hone, List.append_assoc]
    rfl

/-- An id stands for one row of the join. -/
theorem eq_of_mem_nodeMemory {m n : ℕ × MemoryRow} (hm : m ∈ db.nodeMemory node)
    (hn : n ∈ db.nodeMemory node) (hid : m.1 = n.1) : m = n := by
  have hrow : ∀ m ∈ db.nodeMemory node, db.memoryRow m.1 = some m.2 := by
    intro m hm
    obtain ⟨i, -, hi⟩ := List.mem_filterMap.mp hm
    obtain ⟨r, hr, rfl⟩ := Option.map_eq_some_iff.mp hi
    exact hr
  have hsame : m.2 = n.2 := by
    have hrows := hrow m hm
    rw [hid, hrow n hn] at hrows
    exact (Option.some.inj hrows).symm
  exact Prod.ext hid hsame

/-- The packets of memory are those of the eligible chunks and those of the probes. -/
theorem packets_perm (db : Db) (node : ℕ) : ((db.memoryRows node).map memoryPacket).Perm
    (((db.nodeMemory node).filter fun m => m.2.eligible).map memoryPacket ++
      (db.probeMemory node).map memoryPacket) := by
  have hactive : ∀ m : ℕ × MemoryRow, (m.2.eligible && m.2.active) = m.2.eligible := by
    intro m
    rw [MemoryRow.eligible]
    cases m.2.active <;> simp
  have hsplit := List.filter_append_perm (fun m : ℕ × MemoryRow => m.2.eligible)
    ((db.nodeMemory node).filter fun m => m.2.active)
  rw [List.filter_filter, List.filter_filter] at hsplit
  simp only [hactive, Bool.and_comm (! _)] at hsplit
  rw [← List.map_append]
  exact ((sortOn_perm _ _).trans hsplit.symm).map memoryPacket

/-- The order of the packets of memory. -/
def packetKey (packet : EvidencePacket) : ℤ ×ₗ ℕ := toLex (-packet.timestampMs, packet.rowId)

theorem packets_ordered (db : Db) (node : ℕ) : ((db.memoryRows node).map memoryPacket).Pairwise
    fun a b => packetKey a ≤ packetKey b := by
  rw [List.pairwise_map]
  have htotal : Std.Total fun a b : ℕ × MemoryRow =>
      (toLex (-a.2.revision.createdAt, a.1) : ℤ ×ₗ ℕ) ≤ toLex (-b.2.revision.createdAt, b.1) :=
    ⟨fun a b => le_total _ _⟩
  have htrans : IsTrans (ℕ × MemoryRow) fun a b =>
      (toLex (-a.2.revision.createdAt, a.1) : ℤ ×ₗ ℕ) ≤ toLex (-b.2.revision.createdAt, b.1) :=
    ⟨fun _ _ _ => le_trans⟩
  exact List.pairwise_insertionSort _ _

/-- The order determines the packets. -/
theorem packets_eq_of_perm (h : ((db.memoryRows node).map memoryPacket).Perm
    ((db'.memoryRows node).map memoryPacket)) :
    (db.memoryRows node).map memoryPacket = (db'.memoryRows node).map memoryPacket := by
  refine h.eq_of_pairwise (fun a b ha hb hab hba => ?_) (packets_ordered db node)
    (packets_ordered db' node)
  obtain ⟨m, hm, rfl⟩ := List.mem_map.mp ha
  obtain ⟨n, hn, rfl⟩ := List.mem_map.mp (h.mem_iff.mpr hb)
  have hkey := toLex.injective (le_antisymm hab hba)
  have hmem : ∀ m ∈ db.memoryRows node, m ∈ db.nodeMemory node := fun m hm =>
    List.mem_of_mem_filter ((sortOn_perm _ _).mem_iff.mp hm)
  rw [eq_of_mem_nodeMemory (hmem m hm) (hmem n hn) (congrArg Prod.snd hkey)]

/-- The details are the same exactly if the probes of the memory show the same packets. -/
theorem shown_eq_iff (h : Agree now db db') (row : NodeRow) :
    (db.details false now node row).shown = (db'.details false now node row).shown ↔
      ((db.probeMemory node).map memoryPacket).Perm ((db'.probeMemory node).map memoryPacket) := by
  have hpackets : ∀ db : Db, (db.details false now node row).evidencePackets =
      (db.observed false now node row).evidencePackets ++
        (db.memoryRows node).map memoryPacket := fun db => packets_addMemory _ _
  constructor
  · intro heq
    have hsame : (db.memoryRows node).map memoryPacket =
        (db'.memoryRows node).map memoryPacket := by
      have hall : (db.details false now node row).evidencePackets =
          (db'.details false now node row).evidencePackets :=
        congrArg (fun shown => shown.2.1) heq
      rw [hpackets, hpackets, h.observed] at hall
      exact List.append_cancel_left hall
    have hperm := (packets_perm db node).symm.trans (hsame ▸ packets_perm db' node)
    rw [h.memory] at hperm
    exact (List.perm_append_left_iff _).mp hperm
  · intro hprobes
    have hperm : ((db.memoryRows node).map memoryPacket).Perm
        ((db'.memoryRows node).map memoryPacket) := by
      refine (packets_perm db node).trans (List.Perm.trans ?_ (packets_perm db' node).symm)
      rw [h.memory]
      exact hprobes.append_left _
    have hsame : (db.memoryRows node).foldl Details.addMemory
          (db.observed false now node row) =
        (db'.memoryRows node).foldl Details.addMemory (db'.observed false now node row) := by
      rw [foldl_addMemory, foldl_addMemory, packets_eq_of_perm hperm, h.observed]
    unfold Db.details Details.shown
    rw [hsame]

end Details

section Filters

variable {lower repr : String → String} {aliases : ProjectName.Aliases} {filters : SearchFilters}
  {node : ℕ} {row : NodeRow}

/-- A row of the joins with the events and visits that count. -/
def JoinRow.counted (row : JoinRow) : JoinRow :=
  { row with
    event := row.event.filter EventRow.eligible
    visit := row.visit.filter VisitRow.eligible }

/-- The filters by time and branch are met by sources that count. -/
def Db.countedRows (db : Db) (now : ℤ) (filters : SearchFilters) (node : ℕ)
    (row : NodeRow) : Bool :=
  (db.joinRows false now node).any fun r => rowClauses filters row r.counted

/-- The filter by source is met by a source that counts. -/
def Db.countedSource (db : Db) (now : ℤ) (filters : SearchFilters) (node : ℕ) : Bool :=
  (given filters.source).all fun source =>
    if source = "shell" then (db.nodeEvents node).any fun e => e.2.eligible
    else (db.sourceExists false now source).any fun clause => clause node

/-- The node meets all filters. -/
structure Meets (lower repr : String → String) (aliases : ProjectName.Aliases) (db : Db) (now : ℤ)
    (filters : SearchFilters) (node : ℕ) (row : NodeRow) : Prop where
  project : (optionalClause filters.project (db.projectClause lower aliases false now)).map
    (fun clause => clause node) = .ok true
  source : (optionalClause filters.source (sourceClause repr db now false)).map
    (fun clause => clause node) = .ok true
  category : (optionalClause filters.memoryCategory (categoryClause repr db)).map
    (fun clause => clause node) = .ok true
  entity : entityClause db filters node = true
  rows : (db.joinRows false now node).any (rowClauses filters row) = true

/-- The node meets the filters, but those by source, time and branch only with probe events or
visits. -/
structure Leaks (lower repr : String → String) (aliases : ProjectName.Aliases) (db : Db) (now : ℤ)
    (filters : SearchFilters) (node : ℕ) (row : NodeRow) : Prop
    extends Meets lower repr aliases db now filters node row where
  uncounted : ¬ (db.countedSource now filters node = true ∧
    db.countedRows now filters node row = true)

theorem any_of_subset {ρ : Type} {a b : Option ρ} {p : ρ → Bool} (hab : ∀ x ∈ a, x ∈ b)
    (h : a.any p = true) : b.any p = true := by
  obtain ⟨x, hx, hp⟩ := (Option.any_eq_true p a).mp h
  exact (Option.any_eq_true p b).mpr ⟨x, hab x hx, hp⟩

/-- A row with more sources meets more filters. -/
theorem rowClauses_mono {small big : JoinRow} (hevent : ∀ e ∈ small.event, e ∈ big.event)
    (hsession : ∀ s ∈ small.session, s ∈ big.session) (hvisit : ∀ v ∈ small.visit, v ∈ big.visit)
    (h : rowClauses filters row small = true) : rowClauses filters row big = true := by
  simp only [rowClauses, Bool.and_eq_true, Option.all_eq_true] at h ⊢
  refine ⟨fun ms hms => ?_, fun branch hbranch => ?_⟩
  · have hsince := h.1 ms hms
    simp only [JoinRow.since, Bool.or_eq_true] at hsince ⊢
    exact hsince.imp (Or.imp (Or.imp id (any_of_subset hevent)) (any_of_subset hsession))
      (any_of_subset hvisit)
  · have hon := h.2 branch hbranch
    simp only [JoinRow.onBranch, Bool.or_eq_true] at hon ⊢
    exact hon.imp (any_of_subset hevent) (any_of_subset hsession)

theorem some_mem_leftJoined {ρ : Type} {db : Db} {table : LinkTable} {get : ℕ → Option ρ} {x : ρ} :
    some x ∈ db.leftJoined table get node ↔ ∃ i, (i, x) ∈ db.joined table get node := by
  have hjoined : (∃ i, (i, x) ∈ db.joined table get node) ↔
      ∃ i ∈ db.targets table node, get i = some x := by
    simp [Db.joined]
  rw [hjoined]
  unfold Db.leftJoined
  split
  · rename_i hnone
    simp [hnone]
  · simp

theorem some_mem_joinedSession {s : SessionRow} :
    some s ∈ db.leftJoined .agenticSessions (db.joinedSession false now) node ↔
      ∃ i, (i, s) ∈ (db.nodeSessions node).filter fun s => s.2.eligible now := by
  rw [some_mem_leftJoined]
  simp [Db.joined, Db.joinedSession, Db.nodeSessions, Option.filter_eq_some_iff,
    -exists_and_right, and_assoc]

/-- Some row of the joins has at least these sources. -/
theorem exists_joinRow {small : JoinRow}
    (hevent : ∀ e ∈ small.event, ∃ i, (i, e) ∈ (db.nodeEvents node).filter fun e => e.2.eligible)
    (hsession : ∀ s ∈ small.session,
      ∃ i, (i, s) ∈ (db.nodeSessions node).filter fun s => s.2.eligible now)
    (hvisit : ∀ v ∈ small.visit, ∃ i, (i, v) ∈ (db.nodeVisits node).filter fun v => v.2.eligible)
    (h : rowClauses filters row small = true) : db.countedRows now filters node row = true := by
  have hchoose : ∀ {ρ : Type} {rows : List (Option ρ)} (a : Option ρ), rows ≠ [] →
      (∀ x ∈ a, some x ∈ rows) → ∃ b ∈ rows, ∀ x ∈ a, x ∈ b := by
    intro ρ rows a hne ha
    cases a with
    | none =>
      obtain ⟨b, hb⟩ := List.exists_mem_of_ne_nil _ hne
      exact ⟨b, hb, fun x hx => by cases hx⟩
    | some x => exact ⟨some x, ha x rfl, fun y hy => hy⟩
  obtain ⟨e, he, hsube⟩ := hchoose small.event
    (leftJoined_ne_nil db .events db.events.get? node) fun x hx => by
      obtain ⟨i, hi⟩ := hevent x hx
      exact some_mem_leftJoined.mpr ⟨i, List.mem_of_mem_filter hi⟩
  obtain ⟨s, hs, hsubs⟩ := hchoose small.session
    (leftJoined_ne_nil db .agenticSessions (db.joinedSession false now) node) fun x hx =>
      some_mem_joinedSession.mpr (hsession x hx)
  obtain ⟨v, hv, hsubv⟩ := hchoose small.visit
    (leftJoined_ne_nil db .browserEvents db.visits.get? node) fun x hx => by
      obtain ⟨i, hi⟩ := hvisit x hx
      exact some_mem_leftJoined.mpr ⟨i, List.mem_of_mem_filter hi⟩
  refine List.any_eq_true.mpr ⟨⟨e, s, v⟩, ?_, rowClauses_mono ?_ hsubs ?_ h⟩
  · exact List.mem_flatMap.mpr ⟨e, he, List.mem_flatMap.mpr ⟨s, hs, List.mem_map.mpr ⟨v, hv, rfl⟩⟩⟩
  · intro x hx
    obtain ⟨i, hi⟩ := hevent x hx
    exact Option.mem_filter_iff.mpr ⟨hsube x hx, (List.mem_filter.mp hi).2⟩
  · intro x hx
    obtain ⟨i, hi⟩ := hvisit x hx
    exact Option.mem_filter_iff.mpr ⟨hsubv x hx, (List.mem_filter.mp hi).2⟩

theorem countedRows_of_agree (h : Agree now db db')
    (hcounted : db.countedRows now filters node row = true) :
    db'.countedRows now filters node row = true := by
  obtain ⟨r, hr, hclauses⟩ := List.any_eq_true.mp hcounted
  obtain ⟨e, he, hr⟩ := List.mem_flatMap.mp hr
  obtain ⟨s, hs, hr⟩ := List.mem_flatMap.mp hr
  obtain ⟨v, hv, rfl⟩ := List.mem_map.mp hr
  refine exists_joinRow (fun x hx => ?_) (fun x hx => ?_) (fun x hx => ?_) hclauses
  · obtain ⟨hx, hcount⟩ := Option.mem_filter_iff.mp hx
    obtain ⟨i, hi⟩ := some_mem_leftJoined.mp (show some x ∈ db.leftJoined .events _ _ from
      (show e = some x from hx) ▸ he)
    exact ⟨i, h.events node ▸ List.mem_filter.mpr ⟨hi, hcount⟩⟩
  · obtain ⟨i, hi⟩ := some_mem_joinedSession.mp ((show s = some x from hx) ▸ hs)
    exact ⟨i, h.sessions node ▸ hi⟩
  · obtain ⟨hx, hcount⟩ := Option.mem_filter_iff.mp hx
    obtain ⟨i, hi⟩ := some_mem_leftJoined.mp (show some x ∈ db.leftJoined .browserEvents _ _ from
      (show v = some x from hx) ▸ hv)
    exact ⟨i, h.visits node ▸ List.mem_filter.mpr ⟨hi, hcount⟩⟩

/-- What the conditions say about one node. -/
def verdict (eligible : Bool) (project source category : Except PyError Bool) (rest : Bool) :
    Except PyError Bool := do
  let project ← project
  let source ← source
  let category ← category
  return eligible && project && source && category && rest

theorem filterClauses_at (lower repr : String → String) (aliases : ProjectName.Aliases) (db : Db)
    (now : ℤ) (hall : filters.includeExcluded = false) (node : ℕ) (row : NodeRow) :
    (filterClauses lower repr aliases db now filters).map (fun clauses => clauses node row) =
      verdict (db.nodeEligible now node)
        ((optionalClause filters.project (db.projectClause lower aliases false now)).map
          fun clause => clause node)
        ((optionalClause filters.source (sourceClause repr db now false)).map
          fun clause => clause node)
        ((optionalClause filters.memoryCategory (categoryClause repr db)).map
          fun clause => clause node)
        (entityClause db filters node &&
          (db.joinRows false now node).any (rowClauses filters row)) := by
  unfold filterClauses verdict
  rw [hall]
  cases optionalClause filters.project (db.projectClause lower aliases false now) with
  | error e => rfl
  | ok project =>
    cases optionalClause filters.source (sourceClause repr db now false) with
    | error e => rfl
    | ok source =>
      cases optionalClause filters.memoryCategory (categoryClause repr db) with
      | error e => rfl
      | ok category =>
        simp [Except.map, bind, Except.bind, pure, Except.pure, Bool.and_assoc]

/-- Whether `_apply_filters` keeps the node, or the error that it raises. -/
theorem applyFilters_at {ids : List ℕ} (hmem : node ∈ ids) (hnode : db.nodes.get? node = some row) :
    (applyFilters lower repr aliases db now ids filters).map (fun kept => decide (node ∈ kept)) =
      (filterClauses lower repr aliases db now filters).map fun clauses => clauses node row := by
  cases hclauses : filterClauses lower repr aliases db now filters with
  | error e =>
    rw [applyFilters_error.mpr ⟨List.ne_nil_of_mem hmem, hclauses⟩]
    rfl
  | ok clauses =>
    cases hkept : applyFilters lower repr aliases db now ids filters with
    | error e =>
      rw [(applyFilters_error.mp hkept).2] at hclauses
      cases hclauses
    | ok kept =>
      have hiff := mem_applyFilters hclauses hkept hnode
      simp only [Except.map, hiff, hmem, true_and, Bool.decide_eq_true]

/-- Two verdicts that raise the same are the same if they agree on keeping the node. -/
theorem verdict_eq_iff {project source category source' : Except PyError Bool}
    {entity rows rows' : Bool} (herror : ∀ e, source = .error e ↔ source' = .error e) :
    verdict true project source category (entity && rows) =
        verdict true project source' category (entity && rows') ↔
      (project = .ok true ∧ source = .ok true ∧ category = .ok true ∧ entity = true ∧ rows = true ↔
        project = .ok true ∧ source' = .ok true ∧ category = .ok true ∧ entity = true ∧
          rows' = true) := by
  cases project with
  | error e => simp [verdict, bind, Except.bind]
  | ok p =>
    cases source with
    | error e =>
      rw [(herror e).mp rfl]
      simp [verdict, bind, Except.bind]
    | ok s =>
      obtain ⟨s', rfl⟩ : ∃ s', source' = .ok s' := by
        cases source' with
        | error e => cases (herror e).mpr rfl
        | ok s' => exact ⟨s', rfl⟩
      cases category with
      | error e => simp [verdict, bind, Except.bind]
      | ok c =>
        simp only [verdict, bind, Except.bind, pure, Except.pure, Except.ok.injEq]
        clear herror
        revert p s s' c entity rows rows'
        decide

/-- The source filter raises the same. -/
theorem source_error (db db' : Db) (now : ℤ) (source : Option String) (node : ℕ) (e : PyError) :
    (optionalClause source (sourceClause repr db now false)).map (fun clause => clause node) =
        .error e →
      (optionalClause source (sourceClause repr db' now false)).map (fun clause => clause node) =
        .error e := by
  unfold optionalClause sourceClause
  cases given source with
  | none => simp [Except.map]
  | some name =>
    dsimp only [Db.sourceExists]
    split_ifs <;> simp [Except.map]

theorem source_of_counted (hcounted : db.countedSource now filters node = true) :
    (optionalClause filters.source (sourceClause repr db now false)).map
      (fun clause => clause node) = .ok true := by
  unfold Db.countedSource at hcounted
  unfold optionalClause sourceClause
  cases hgiven : given filters.source with
  | none => rfl
  | some name =>
    rw [hgiven, Option.all_some] at hcounted
    by_cases hshell : name = "shell"
    · rw [if_pos hshell] at hcounted
      have hlinked : (db.targets .events node).isEmpty = false := by
        obtain ⟨e, he, -⟩ := List.any_eq_true.mp hcounted
        obtain ⟨i, hi, -⟩ := List.mem_filterMap.mp he
        rw [List.isEmpty_eq_false_iff]
        exact List.ne_nil_of_mem hi
      simp [hshell, Db.sourceExists, hlinked, Except.map]
    · rw [if_neg hshell] at hcounted
      obtain ⟨clause, hclause, hnode⟩ := (Option.any_eq_true _ _).mp hcounted
      simp [hclause, hnode, Except.map]

theorem any_of_filter {ρ : Type} {l l' : List ρ} {p : ρ → Bool} (h : l.filter p = l'.filter p)
    (q : ρ → Bool) : l.any (fun a => p a && q a) = l'.any fun a => p a && q a := by
  rw [← List.any_filter, h, List.any_filter]

theorem any_self_of_filter {ρ : Type} {l l' : List ρ} {p : ρ → Bool}
    (h : l.filter p = l'.filter p) : l.any p = l'.any p := by
  simpa using any_of_filter h p

theorem Agree.eligibleSource (h : Agree now db db') (node : ℕ) :
    db.eligibleSource now node = db'.eligibleSource now node := by
  unfold Db.eligibleSource
  rw [any_self_of_filter (h.events node), any_self_of_filter (h.visits node),
    any_self_of_filter (h.sessions node), any_self_of_filter (h.runs node),
    any_self_of_filter (h.memory node)]

theorem Agree.countedSource (h : Agree now db db') :
    db.countedSource now filters node = db'.countedSource now filters node := by
  unfold Db.countedSource
  congr 1
  ext source
  rw [any_self_of_filter (h.events node)]
  simp only [Db.sourceExists, Bool.false_or]
  split_ifs
  · rfl
  · exact any_self_of_filter (h.sessions node)
  · exact any_self_of_filter (h.visits node)
  · exact any_self_of_filter (h.runs node)
  · exact any_self_of_filter (h.memory node)
  · rfl

theorem Agree.category (h : Agree now db db') :
    (optionalClause filters.memoryCategory (categoryClause repr db)).map
        (fun clause => clause node) =
      (optionalClause filters.memoryCategory (categoryClause repr db')).map
        fun clause => clause node := by
  unfold optionalClause categoryClause
  cases given filters.memoryCategory with
  | none => rfl
  | some category =>
    by_cases hknown : category ∈ knownCategories
    · simp only [hknown, not_true_eq_false, if_false]
      exact congrArg Except.ok (any_of_filter (h.memory node) _)
    · simp only [hknown, not_false_eq_true, if_true]

theorem Agree.project (h : Agree now db db') :
    (optionalClause filters.project (db.projectClause lower aliases false now)).map
        (fun clause => clause node) =
      (optionalClause filters.project (db'.projectClause lower aliases false now)).map
        fun clause => clause node := by
  have hprovenance : ∀ term, db.provenance false now term node =
      db'.provenance false now term node := by
    intro term
    simp only [Db.provenance, Bool.false_or]
    rw [any_of_filter (h.events node), any_of_filter (h.sessions node),
      any_of_filter (h.memory node), any_of_filter (h.runs node)]
  unfold optionalClause Db.projectClause
  cases given filters.project with
  | none => rfl
  | some project =>
    dsimp only
    rw [h.projects, h.nodes]
    cases canonical lower aliases project with
    | error e => rfl
    | ok target =>
      cases hids : projectIds lower aliases db'.projects target with
      | error e => simp [bind, Except.bind, hids, Except.map]
      | ok ids =>
        cases hresolved : resolves lower aliases target ids with
        | error e => simp [bind, Except.bind, hids, hresolved, Except.map]
        | ok resolved =>
          cases hterms : searchTerms lower aliases db'.projects project resolved with
          | error e => simp [bind, Except.bind, hids, hresolved, hterms, Except.map]
          | ok terms =>
            simp [bind, Except.bind, pure, Except.pure, hids, hresolved, hterms, Except.map,
              hprovenance]

theorem Agree.symm (h : Agree now db db') : Agree now db' db where
  nodes := h.nodes.symm
  projects := h.projects.symm
  entities node := (h.entities node).symm
  events node := (h.events node).symm
  visits node := (h.visits node).symm
  sessions node := (h.sessions node).symm
  runs node := (h.runs node).symm
  memory node := (h.memory node).symm

theorem Agree.meets (h : Agree now db db')
    (hmeets : Meets lower repr aliases db now filters node row)
    (hnot : ¬ Leaks lower repr aliases db now filters node row) :
    Meets lower repr aliases db' now filters node row := by
  have hcounted : db.countedSource now filters node = true ∧
      db.countedRows now filters node row = true := by
    by_contra huncounted
    exact hnot ⟨hmeets, huncounted⟩
  refine ⟨h.project ▸ hmeets.project, source_of_counted (h.countedSource ▸ hcounted.1),
    h.category ▸ hmeets.category, ?_, ?_⟩
  · have hentity := hmeets.entity
    unfold entityClause at hentity ⊢
    rwa [h.entities] at hentity
  · obtain ⟨r, hr, hclauses⟩ := List.any_eq_true.mp (countedRows_of_agree h hcounted.2)
    refine List.any_eq_true.mpr ⟨r, hr, @rowClauses_mono filters row r.counted r (fun e he => ?_)
      (fun s hs => hs) (fun v hv => ?_) hclauses⟩
    · exact (Option.mem_filter_iff.mp he).1
    · exact (Option.mem_filter_iff.mp hv).1

/-- The search finds the same nodes exactly if the same probes let the node through. -/
theorem kept_eq_iff (h : Agree now db db') (hnode : db.nodes.get? node = some row)
    (hsource : db.eligibleSource now node = true) (hall : filters.includeExcluded = false) :
    (∀ ids, node ∈ ids →
      (applyFilters lower repr aliases db now ids filters).map (fun kept => decide (node ∈ kept)) =
        (applyFilters lower repr aliases db' now ids filters).map
          fun kept => decide (node ∈ kept)) ↔
      (Leaks lower repr aliases db now filters node row ↔
        Leaks lower repr aliases db' now filters node row) := by
  have hverdict : (∀ ids, node ∈ ids →
      (applyFilters lower repr aliases db now ids filters).map (fun kept => decide (node ∈ kept)) =
        (applyFilters lower repr aliases db' now ids filters).map
          fun kept => decide (node ∈ kept)) ↔
      (Meets lower repr aliases db now filters node row ↔
        Meets lower repr aliases db' now filters node row) := by
    have hone : ∀ ids, node ∈ ids →
        ((applyFilters lower repr aliases db now ids filters).map
            (fun kept => decide (node ∈ kept)) =
          (applyFilters lower repr aliases db' now ids filters).map
            (fun kept => decide (node ∈ kept)) ↔
        (Meets lower repr aliases db now filters node row ↔
          Meets lower repr aliases db' now filters node row)) := by
      intro ids hmem
      have hmeets : ∀ db : Db, Meets lower repr aliases db now filters node row ↔
          (optionalClause filters.project (db.projectClause lower aliases false now)).map
              (fun clause => clause node) = .ok true ∧
            (optionalClause filters.source (sourceClause repr db now false)).map
              (fun clause => clause node) = .ok true ∧
            (optionalClause filters.memoryCategory (categoryClause repr db)).map
              (fun clause => clause node) = .ok true ∧
            entityClause db filters node = true ∧
            (db.joinRows false now node).any (rowClauses filters row) = true := fun db =>
        ⟨fun h => ⟨h.project, h.source, h.category, h.entity, h.rows⟩,
          fun ⟨hp, hs, hc, he, hr⟩ => ⟨hp, hs, hc, he, hr⟩⟩
      have heligible : db.nodeEligible now node = true ∧ db'.nodeEligible now node = true := by
        unfold Db.nodeEligible
        rw [← h.eligibleSource, hsource]
        simp
      have hentity : entityClause db filters node = entityClause db' filters node := by
        unfold entityClause
        rw [h.entities]
      rw [applyFilters_at hmem hnode, applyFilters_at hmem (h.nodes ▸ hnode),
        filterClauses_at lower repr aliases db now hall,
        filterClauses_at lower repr aliases db' now hall, heligible.1, heligible.2, hmeets db,
        hmeets db', h.project, h.category, hentity]
      exact verdict_eq_iff fun e =>
        ⟨source_error db db' now filters.source node e,
          source_error db' db now filters.source node e⟩
    constructor
    · intro hall
      exact (hone [node] List.mem_cons_self).mp (hall [node] List.mem_cons_self)
    · intro hiff ids hmem
      exact (hone ids hmem).mpr hiff
  rw [hverdict]
  have huncounted : ∀ {db db' : Db}, Agree now db db' →
      Leaks lower repr aliases db now filters node row →
      Meets lower repr aliases db' now filters node row →
      Leaks lower repr aliases db' now filters node row := by
    intro db db' h hleak hmeets
    refine ⟨hmeets, ?_⟩
    rw [← h.countedSource]
    exact fun hcounted => hleak.uncounted ⟨hcounted.1, countedRows_of_agree h.symm hcounted.2⟩
  constructor
  · intro hiff
    exact ⟨fun hleak => huncounted h hleak (hiff.mp hleak.toMeets),
      fun hleak => huncounted h.symm hleak (hiff.mpr hleak.toMeets)⟩
  · intro hiff
    constructor
    · intro hmet
      by_cases hleak : Leaks lower repr aliases db now filters node row
      · exact (hiff.mp hleak).toMeets
      · exact h.meets hmet hleak
    · intro hmet
      by_cases hleak : Leaks lower repr aliases db' now filters node row
      · exact (hiff.mpr hleak).toMeets
      · exact h.symm.meets hmet hleak

end Filters

section Noninterference

variable {lower repr : String → String} {aliases : ProjectName.Aliases} {filters : SearchFilters}
  {node : ℕ} {row : NodeRow}

/-- The searches keep the node alike and attach the same to it. -/
structure SameResults (lower repr : String → String) (aliases : ProjectName.Aliases) (db db' : Db)
    (now : ℤ) (filters : SearchFilters) (node : ℕ) : Prop where
  kept : ∀ ids, node ∈ ids →
    (applyFilters lower repr aliases db now ids filters).map (fun kept => decide (node ∈ kept)) =
      (applyFilters lower repr aliases db' now ids filters).map fun kept => decide (node ∈ kept)
  details : ∀ ids, node ∈ ids →
    (db.fetchDetails filters.includeExcluded now node ids).map Details.shown =
      (db'.fetchDetails filters.includeExcluded now node ids).map Details.shown

/-- Two databases that agree on what is eligible give the same results for a node exactly if the
filters leak in both or in neither, and the probes of the memory show the same packets. -/
theorem noninterference_iff (h : Agree now db db') (hnode : db.nodes.get? node = some row)
    (hsource : db.eligibleSource now node = true) (hall : filters.includeExcluded = false) :
    SameResults lower repr aliases db db' now filters node ↔
      (Leaks lower repr aliases db now filters node row ↔
        Leaks lower repr aliases db' now filters node row) ∧
      ((db.probeMemory node).map memoryPacket).Perm ((db'.probeMemory node).map memoryPacket) := by
  have hfetch : ∀ {db : Db}, db.nodes.get? node = some row → ∀ ids, node ∈ ids →
      db.fetchDetails filters.includeExcluded now node ids =
        some (db.details false now node row) := by
    intro db hnode ids hmem
    rw [Db.fetchDetails, if_pos hmem, hnode, hall]
    rfl
  rw [← kept_eq_iff h hnode hsource hall, ← shown_eq_iff h row]
  constructor
  · intro hsame
    have hdetails := hsame.details [node] List.mem_cons_self
    rw [hfetch hnode _ List.mem_cons_self, hfetch (h.nodes ▸ hnode) _ List.mem_cons_self]
      at hdetails
    exact ⟨hsame.kept, Option.some.inj hdetails⟩
  · intro ⟨hkept, hshown⟩
    refine ⟨hkept, fun ids hmem => ?_⟩
    rw [hfetch hnode ids hmem, hfetch (h.nodes ▸ hnode) ids hmem]
    exact congrArg some hshown

/-- A node with an old visit, and with a newer probe event if the link to it is there. -/
def probeDb (links : List Link) : Db :=
  { Db.empty with
    nodes := Table.empty.insert 1 ⟨"u", 0, none⟩
    events := Table.empty.insert 1
      ⟨100, "ls", "/p", none, none, "shell", some "probe"⟩
    visits := Table.empty.insert 1 ⟨5, "https://a", none, "a", none⟩
    links := ⟨.browserEvents, 1, 1⟩ :: links }

theorem agree_probeDb (now : ℤ) : Agree now (probeDb [⟨.events, 1, 1⟩]) (probeDb []) where
  nodes := rfl
  projects := rfl
  entities node := rfl
  events node := by
    by_cases hnode : node = 1
    · rw [hnode]
      decide +kernel
    · simp [Db.nodeEvents, Db.joined, Db.targets, probeDb, Ne.symm hnode]
  visits node := by
    by_cases hnode : node = 1
    · rw [hnode]
      decide +kernel
    · simp [Db.nodeVisits, Db.joined, Db.targets, probeDb, Ne.symm hnode]
  sessions node := rfl
  runs node := rfl
  memory node := rfl

/-- The probe event lets the node through the filter by time. -/
theorem probe_event_leaks : ¬ ∀ (db db' : Db) (now : ℤ) (filters : SearchFilters) (node : ℕ),
    Agree now db db' → db.eligibleSource now node = true → filters.includeExcluded = false →
      SameResults id id [] db db' now filters node := by
  intro h
  have hsame := h (probeDb [⟨.events, 1, 1⟩]) (probeDb []) 1000
    { sinceMs := some 50 } 1 (agree_probeDb 1000) (by decide +kernel) rfl
  have hkept := hsame.kept [1] List.mem_cons_self
  revert hkept
  decide +kernel

theorem noninterference_iff_probe :
    SameResults id id [] (probeDb [⟨.events, 1, 1⟩]) (probeDb []) 1000 { sinceMs := some 50 } 1 ↔
      (Leaks id id [] (probeDb [⟨.events, 1, 1⟩]) 1000 { sinceMs := some 50 } 1 ⟨"u", 0, none⟩ ↔
        Leaks id id [] (probeDb []) 1000 { sinceMs := some 50 } 1 ⟨"u", 0, none⟩) ∧
      (((probeDb [⟨.events, 1, 1⟩]).probeMemory 1).map memoryPacket).Perm
        (((probeDb []).probeMemory 1).map memoryPacket) :=
  noninterference_iff (agree_probeDb 1000) (by decide +kernel) (by decide +kernel) rfl

end Noninterference

end Hippo.Retrieval
