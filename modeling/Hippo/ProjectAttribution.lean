import Mathlib.Data.List.Dedup
import Hippo.ProjectNames

/-!
# Attribution of knowledge nodes to projects

`attribute_node` runs inside the transaction of every node writer. It ranks what the node
was made from, takes the best sources and gives the node their project if there is only one.
A source whose name is empty raises.
-/
namespace Hippo

open ProjectName

/-! The columns that are read. -/

structure EventOrigin where
  gitRepo : Option String
  cwd : String
  timestamp : ℤ
  probe : Bool := false

structure SessionOrigin where
  projectDir : String
  cwd : String
  startTime : ℤ
  endTime : ℤ
  probe : Bool := false

structure RunOrigin where
  repo : String
  firstSeenAt : ℤ

structure NodeProject where
  createdAt : ℤ
  projectId : Option ℕ := none

/-- `projects`, without its unique key `canonical_name`. -/
structure Project where
  id : ℕ
  firstSeen : ℤ
  lastSeen : ℤ

/-- The rows attribution reads and writes. `chunks` has the repository of the document that
a memory chunk belongs to; `projects` and `aliases` are keyed by their unique names. -/
structure ProjectDb where
  events : Table ℕ EventOrigin
  sessions : Table ℕ SessionOrigin
  runs : Table ℕ RunOrigin
  chunks : Table ℕ String
  nodes : Table ℕ NodeProject
  links : List Link
  projects : Table String Project
  aliases : Table String ℕ

/-- One entry of the list of `_node_sources`. -/
structure Source where
  rank : ℕ
  value : String
  first : ℤ
  last : ℤ
  directory : Bool

/-- `trim(coalesce(git_repo, '')) != ''`: SQLite trims spaces only. -/
def repoGiven (repo : Option String) : Option String :=
  repo.filter fun r => r.toList.any (· ≠ ' ')

/-- A remote-derived repository ranks above a local one. -/
def repoSource (repo : String) (timestamp : ℤ) : Source :=
  ⟨if '/' ∈ repo.toList then 3 else 2, repo, timestamp, timestamp, false⟩

/-- `_session_directory`. -/
def sessionDirectory (directory cwd : String) : String :=
  if directory.toList.head? = some '-' ∧ cwd ≠ "" then cwd else directory

namespace ProjectDb

section Sources

variable (db : ProjectDb)

/-- The rows a node is linked to through one junction table. -/
def linked {ρ : Type} (table : LinkTable) (rows : Table ℕ ρ) (node : ℕ) : List ρ :=
  (db.links.filter fun l => l.table = table ∧ l.node = node).filterMap fun l =>
    rows.get? l.target

def eventSources (node : ℕ) : List Source :=
  ((db.linked .events db.events node).filter fun e => ¬ e.probe).filterMap fun e =>
    (repoGiven e.gitRepo).map fun repo => repoSource repo e.timestamp

/-- The sessions of a node that are no probes. -/
def nodeSessions (node : ℕ) : List SessionOrigin :=
  (db.linked .agenticSessions db.sessions node).filter fun s => ¬ s.probe

def sessionSources (node : ℕ) : List Source :=
  (db.nodeSessions node).filterMap fun s =>
    let directory := sessionDirectory s.projectDir s.cwd
    if PyText.strip directory = "" then none
    else some ⟨1, directory, s.startTime, s.endTime, true⟩

/-- The events in a session's directory while it ran, with their repository. -/
def sessionRepos (s : SessionOrigin) : List (String × ℤ) :=
  (db.events.entries.filter fun e => (e.2.cwd = s.cwd ∨ e.2.cwd = s.projectDir) ∧
    s.startTime ≤ e.2.timestamp ∧ e.2.timestamp ≤ s.endTime ∧ ¬ e.2.probe).filterMap fun e =>
      (repoGiven e.2.gitRepo).map fun repo => (repo, e.2.timestamp)

def correlatedSources (node : ℕ) : List Source :=
  (db.nodeSessions node).flatMap fun s =>
    (db.sessionRepos s).map fun r => repoSource r.1 r.2

def runSources (node : ℕ) : List Source :=
  ((db.linked .workflowRuns db.runs node).filter fun r => r.repo ≠ "").map fun r =>
    ⟨3, r.repo, r.firstSeenAt, r.firstSeenAt, false⟩

def chunkSources (node : ℕ) : List Source :=
  ((db.linked .memoryChunks db.chunks node).filter fun r => r ≠ "").filterMap fun r =>
    (db.nodes.get? node).map fun n => ⟨2, r, n.createdAt, n.createdAt, false⟩

/-- `_node_sources`. -/
def nodeSources (node : ℕ) : List Source :=
  db.eventSources node ++ db.sessionSources node ++ db.correlatedSources node ++
    db.runSources node ++ db.chunkSources node

/-- The sources of the highest rank. -/
def preferred (node : ℕ) : List Source :=
  let sources := db.nodeSources node
  sources.filter fun s => s.rank = (sources.map Source.rank).foldr max 0

end Sources

section Attribution

variable (lower : String → String) (config : Aliases) (db : ProjectDb)

/-- The `INSERT … ON CONFLICT … RETURNING id` of a project. -/
def upsertRow (name : String) (first last : ℤ) : ProjectDb × ℕ :=
  let id := match db.projects.get? name with
    | some p => p.id
    | none => (db.projects.entries.map fun e => e.2.id).foldr max 0 + 1
  ({ db with projects := db.projects.upsert name ⟨id, first, last⟩ fun p =>
      ⟨p.id, min p.firstSeen first, max p.lastSeen last⟩ }, id)

/-- The upsert of one spelling. -/
def upsertAlias (id : ℕ) (spelling : String) : ProjectDb :=
  if spelling = "" then db
  else { db with aliases := db.aliases.upsert spelling id fun _ => id }

/-- The configured aliases of a project; every alias is resolved. -/
def aliasSpellings (name : String) : Except PyError (List String) := do
  let resolved ← config.mapM fun a => canonicalName lower config false a.1
  return ((config.zip resolved).filter fun a => a.2 = name).map fun a =>
    lower (PyText.strip a.1.1)

/-- `upsert_project`. -/
def upsertProject (s : Source) : Except PyError (ProjectDb × ℕ) := do
  let name ← canonicalName lower config s.directory s.value
  let row := db.upsertRow name s.first s.last
  let configured ← aliasSpellings lower config name
  let spellings := [name, lower (PyText.strip s.value), normalize lower s.directory s.value] ++
    configured
  return (spellings.foldl (fun d spelling => d.upsertAlias row.2 spelling) row.1, row.2)

/-- The project of every source, one after the other. -/
def upsertProjects : ProjectDb → List Source → Except PyError (ProjectDb × List ℕ)
  | db, [] => .ok (db, [])
  | db, s :: sources => do
    let (stored, id) ← db.upsertProject lower config s
    let (last, ids) ← upsertProjects stored sources
    return (last, id :: ids)

def setProject (node : ℕ) (project : Option ℕ) : ProjectDb :=
  { db with nodes := db.nodes.modify node fun n => { n with projectId := project } }

/-- `attribute_node`. The `assert` is about the project of the only name. -/
def attributeNode (node : ℕ) : Except PyError (ProjectDb × Option ℕ) :=
  let sources := db.preferred node
  if sources = [] then .ok (db, none)
  else do
    let names ← sources.mapM fun s => canonicalName lower config s.directory s.value
    let (stored, ids) ← db.upsertProjects lower config sources
    match names.dedup with
    | [name] =>
      let project := (stored.projects.get? name).map Project.id
      if ∃ id ∈ project, id ∈ ids then .ok (stored.setProject node project, project)
      else .error (.runtimeError "assert project_id in project_ids")
    | _ => return (stored.setProject node none, none)

/-- The new node of a writer, linked to its source rows. -/
def withNode (table : LinkTable) (targets : List ℕ) (now : ℤ) : ProjectDb :=
  { db with
    nodes := db.nodes.insert db.nodes.nextRowid ⟨now, none⟩
    links := db.links ++ targets.map fun i => ⟨table, db.nodes.nextRowid, i⟩ }

/-- The transaction of `write_knowledge_node`, `write_claude_knowledge_node` and
`write_memory_knowledge_node`: the new node is attributed, and an exception rolls everything
back. -/
def writeNode (table : LinkTable) (targets : List ℕ) (now : ℤ) : Except PyError ProjectDb := do
  let written := db.withNode table targets now
  let (attributed, _) ← written.attributeNode lower config db.nodes.nextRowid
  return attributed

/-- The sources of the first loop of `backfill`. -/
def backfillEvents : List Source :=
  (db.events.entries.filter fun e => ¬ e.2.probe).filterMap fun e =>
    (repoGiven e.2.gitRepo).map fun repo => ⟨0, repo, e.2.timestamp, e.2.timestamp, false⟩

/-- The sources of the second loop: the repositories of a session, or its directory. -/
def backfillSessions : List Source :=
  (db.sessions.entries.filter fun s => ¬ s.2.probe ∧ s.2.projectDir.toList.any (· ≠ ' ')).flatMap
    fun s =>
      match ((db.sessionRepos s.2).map Prod.fst).dedup with
      | [] => [⟨0, sessionDirectory s.2.projectDir s.2.cwd, s.2.startTime, s.2.endTime, true⟩]
      | repos => repos.map fun repo => ⟨0, repo, s.2.startTime, s.2.endTime, false⟩

/-- `attribute_node` for every listed node. -/
def attributeNodes : ProjectDb → List ℕ → Except PyError ProjectDb
  | db, [] => .ok db
  | db, node :: nodes => do
    let (attributed, _) ← db.attributeNode lower config node
    attributeNodes attributed nodes

/-- `backfill`. -/
def backfill : Except PyError ProjectDb := do
  let (stored, _) ← db.upsertProjects lower config (db.backfillEvents ++ db.backfillSessions)
  stored.attributeNodes lower config stored.nodes.keys

end Attribution

section Conditions

variable (lower : String → String) (config : Aliases) (db : ProjectDb)

def AliasesNamed : Prop := ∀ a ∈ config, Named lower config false a.1

def SourcesNamed (sources : List Source) : Prop :=
  ∀ s ∈ sources, Named lower config s.directory s.value ∧ AliasesNamed lower config

/-- Every source of the highest rank has a name, and so has every alias if there is one. -/
def Attributable (node : ℕ) : Prop := SourcesNamed lower config (db.preferred node)

end Conditions

section Specs

variable {lower : String → String} {config : Aliases} {db db' : ProjectDb} {s : Source}
  {name : String} {id : ℕ}

/-- `mapM` returns if the function does on every element. -/
theorem mapM_ok {α β : Type} {f : α → Except PyError β} {l : List α} :
    (∃ r, l.mapM f = .ok r) ↔ ∀ a ∈ l, ∃ b, f a = .ok b := by
  induction l with
  | nil => simp [pure, Except.pure]
  | cons a l ih =>
    rw [List.forall_mem_cons, ← ih, List.mapM_cons]
    constructor
    · rintro ⟨r, hr⟩
      obtain ⟨b, hb, hr⟩ := bind_eq_ok.mp hr
      obtain ⟨bs, hbs, -⟩ := bind_eq_ok.mp hr
      exact ⟨⟨b, hb⟩, bs, hbs⟩
    · rintro ⟨⟨b, hb⟩, bs, hbs⟩
      exact ⟨b :: bs, bind_eq_ok.mpr ⟨b, hb, bind_eq_ok.mpr ⟨bs, hbs, rfl⟩⟩⟩

theorem mem_of_mapM {α β : Type} {f : α → Except PyError β} {l : List α} {r : List β}
    (h : l.mapM f = .ok r) {a : α} (ha : a ∈ l) : ∃ b ∈ r, f a = .ok b := by
  induction l generalizing r with
  | nil => cases ha
  | cons a' l ih =>
    rw [List.mapM_cons] at h
    obtain ⟨b, hb, h⟩ := bind_eq_ok.mp h
    obtain ⟨bs, hbs, hr⟩ := bind_eq_ok.mp h
    cases hr
    rcases List.mem_cons.mp ha with rfl | ha
    · exact ⟨b, List.mem_cons_self, hb⟩
    · obtain ⟨c, hc, hfc⟩ := ih hbs ha
      exact ⟨c, List.mem_cons_of_mem _ hc, hfc⟩

/-- The rows that attribution reads are the same. -/
structure SameSources (db db' : ProjectDb) : Prop where
  events : db'.events = db.events
  sessions : db'.sessions = db.sessions
  runs : db'.runs = db.runs
  chunks : db'.chunks = db.chunks
  links : db'.links = db.links
  nodes : ∀ n, (db'.nodes.get? n).map NodeProject.createdAt =
    (db.nodes.get? n).map NodeProject.createdAt

theorem SameSources.refl (db : ProjectDb) : SameSources db db :=
  ⟨rfl, rfl, rfl, rfl, rfl, fun _ => rfl⟩

theorem SameSources.trans {db'' : ProjectDb} (h : SameSources db db')
    (h' : SameSources db' db'') : SameSources db db'' where
  events := h'.events.trans h.events
  sessions := h'.sessions.trans h.sessions
  runs := h'.runs.trans h.runs
  chunks := h'.chunks.trans h.chunks
  links := h'.links.trans h.links
  nodes n := (h'.nodes n).trans (h.nodes n)

theorem SameSources.preferred (h : SameSources db db') (node : ℕ) :
    db'.preferred node = db.preferred node := by
  have hchunks : db'.chunkSources node = db.chunkSources node := by
    have hmap : ∀ r : String, ((db'.nodes.get? node).map fun n =>
        (⟨2, r, n.createdAt, n.createdAt, false⟩ : Source)) =
        (db.nodes.get? node).map fun n => ⟨2, r, n.createdAt, n.createdAt, false⟩ := by
      intro r
      have hnode := congrArg (Option.map fun t : ℤ => (⟨2, r, t, t, false⟩ : Source)) (h.nodes node)
      simpa only [Option.map_map, Function.comp_def] using hnode
    simp only [chunkSources, linked, h.chunks, h.links, hmap]
  have hsources : db'.nodeSources node = db.nodeSources node := by
    simp only [nodeSources, hchunks, eventSources, sessionSources, correlatedSources, runSources,
      nodeSessions, sessionRepos, linked, h.events, h.sessions, h.runs, h.links]
  rw [ProjectDb.preferred, ProjectDb.preferred, hsources]

theorem sameSources_upsertRow (first last : ℤ) :
    SameSources db (db.upsertRow name first last).1 :=
  ⟨rfl, rfl, rfl, rfl, rfl, fun _ => rfl⟩

theorem upsertAlias_eq (db : ProjectDb) (id : ℕ) (spelling : String) : SameSources db (db.upsertAlias id spelling) ∧
    (db.upsertAlias id spelling).projects = db.projects ∧
    (db.upsertAlias id spelling).nodes = db.nodes := by
  unfold upsertAlias
  split
  · exact ⟨SameSources.refl db, rfl, rfl⟩
  · exact ⟨⟨rfl, rfl, rfl, rfl, rfl, fun _ => rfl⟩, rfl, rfl⟩

theorem foldl_upsertAlias (db : ProjectDb) (id : ℕ) (spellings : List String) :
    SameSources db (spellings.foldl (fun d spelling => d.upsertAlias id spelling) db) ∧
    (spellings.foldl (fun d spelling => d.upsertAlias id spelling) db).projects = db.projects ∧
    (spellings.foldl (fun d spelling => d.upsertAlias id spelling) db).nodes = db.nodes := by
  induction spellings generalizing db with
  | nil => exact ⟨SameSources.refl db, rfl, rfl⟩
  | cons spelling spellings ih =>
    obtain ⟨hsame, hprojects, hnodes⟩ := upsertAlias_eq db id spelling
    obtain ⟨hsame', hprojects', hnodes'⟩ := ih (db.upsertAlias id spelling)
    exact ⟨hsame.trans hsame', hprojects'.trans hprojects, hnodes'.trans hnodes⟩

/-- The row of a project has the returned id, and no other project changes its own. -/
theorem upsertRow_get? (first last : ℤ) (other : String) :
    ((db.upsertRow name first last).1.projects.get? other).map Project.id =
      if other = name then some (db.upsertRow name first last).2
      else (db.projects.get? other).map Project.id := by
  simp only [upsertRow, Table.get?_upsert]
  by_cases h : other = name
  · cases db.projects.get? name with
    | none => simp [h]
    | some p => simp [h]
  · simp [h]

/-- What an upsert has done: the project is there under its name with the returned id. -/
structure Upserted (db db' : ProjectDb) (name : String) (id : ℕ) : Prop where
  same : SameSources db db'
  nodes : db'.nodes = db.nodes
  projects : ∀ other, (db'.projects.get? other).map Project.id =
    if other = name then some id else (db.projects.get? other).map Project.id

theorem upsertProject_spec (h : db.upsertProject lower config s = .ok (db', id)) :
    ∃ name, canonicalName lower config s.directory s.value = .ok name ∧
      Upserted db db' name id ∧
      ((db.projects.get? name).map Project.id = some id ∨
        (db.projects.get? name).map Project.id = none) := by
  obtain ⟨name, hname, h⟩ := bind_eq_ok.mp h
  obtain ⟨configured, -, h⟩ := bind_eq_ok.mp h
  cases h
  obtain ⟨hsame, hprojects, hnodes⟩ := foldl_upsertAlias (db.upsertRow name s.first s.last).1
    (db.upsertRow name s.first s.last).2 ([name, lower (PyText.strip s.value),
      normalize lower s.directory s.value] ++ configured)
  refine ⟨name, hname, ⟨(sameSources_upsertRow s.first s.last).trans hsame, hnodes, ?_⟩, ?_⟩
  · intro other
    rw [hprojects]
    exact upsertRow_get? s.first s.last other
  · cases hget : db.projects.get? name with
    | none => exact Or.inr rfl
    | some p =>
      left
      simp only [upsertRow, hget, Option.map_some]

/-- An upsert goes through exactly if its source and the aliases have names. -/
theorem upsertProject_ok (hacyclic : Acyclic lower config) (db : ProjectDb) :
    (∃ r, db.upsertProject lower config s = .ok r) ↔
      Named lower config s.directory s.value ∧ AliasesNamed lower config := by
  have haliases : (∃ l, config.mapM (fun a => canonicalName lower config false a.1) = .ok l) ↔
      AliasesNamed lower config := by
    rw [mapM_ok]
    exact forall₂_congr fun a _ => canonicalName_ok hacyclic
  rw [← haliases, ← canonicalName_ok hacyclic]
  constructor
  · rintro ⟨r, hr⟩
    obtain ⟨name, hname, hr⟩ := bind_eq_ok.mp hr
    obtain ⟨configured, hconfigured, -⟩ := bind_eq_ok.mp hr
    obtain ⟨resolved, hresolved, -⟩ := bind_eq_ok.mp hconfigured
    exact ⟨⟨name, hname⟩, resolved, hresolved⟩
  · rintro ⟨⟨name, hname⟩, resolved, hresolved⟩
    have hconfigured : ∃ l, aliasSpellings lower config name = .ok l :=
      ⟨_, bind_eq_ok.mpr ⟨resolved, hresolved, rfl⟩⟩
    obtain ⟨configured, hconfigured⟩ := hconfigured
    exact ⟨_, bind_eq_ok.mpr ⟨name, hname, bind_eq_ok.mpr ⟨configured, hconfigured, rfl⟩⟩⟩

theorem upsertProjects_ok (hacyclic : Acyclic lower config) (db : ProjectDb)
    (sources : List Source) :
    (∃ r, db.upsertProjects lower config sources = .ok r) ↔
      SourcesNamed lower config sources := by
  induction sources generalizing db with
  | nil => exact iff_of_true ⟨_, rfl⟩ fun s hs => by cases hs
  | cons s sources ih =>
    rw [SourcesNamed, List.forall_mem_cons, ← upsertProject_ok hacyclic db]
    constructor
    · rintro ⟨r, hr⟩
      obtain ⟨head, hhead, hr⟩ := bind_eq_ok.mp hr
      obtain ⟨rest, hrest, -⟩ := bind_eq_ok.mp hr
      exact ⟨⟨head, hhead⟩, (ih head.1).mp ⟨rest, hrest⟩⟩
    · rintro ⟨⟨head, hhead⟩, hnamed⟩
      obtain ⟨rest, hrest⟩ := (ih head.1).mpr hnamed
      exact ⟨_, bind_eq_ok.mpr ⟨head, hhead, bind_eq_ok.mpr ⟨rest, hrest, rfl⟩⟩⟩

/-- Projects keep their ids, and every source's project has a returned id. -/
theorem upsertProjects_spec {sources : List Source} {ids : List ℕ}
    (h : db.upsertProjects lower config sources = .ok (db', ids)) :
    SameSources db db' ∧ db'.nodes = db.nodes ∧
      (∀ other i, (db.projects.get? other).map Project.id = some i →
        (db'.projects.get? other).map Project.id = some i) ∧
      ∀ s ∈ sources, ∀ name, canonicalName lower config s.directory s.value = .ok name →
        ∃ i ∈ ids, (db'.projects.get? name).map Project.id = some i := by
  induction sources generalizing db ids with
  | nil =>
    cases h
    exact ⟨SameSources.refl _, rfl, fun _ _ hi => hi, fun s hs => by cases hs⟩
  | cons s sources ih =>
    obtain ⟨⟨stored, id⟩, hhead, h⟩ := bind_eq_ok.mp h
    obtain ⟨⟨last, rest⟩, hrest, h⟩ := bind_eq_ok.mp h
    cases h
    obtain ⟨name, hname, hup, hold⟩ := upsertProject_spec hhead
    obtain ⟨hsame, hnodes, hkeep, hall⟩ := ih hrest
    refine ⟨hup.same.trans hsame, hnodes.trans hup.nodes, fun other i hi => ?_, ?_⟩
    · refine hkeep other i ?_
      rw [hup.projects]
      split
      · rename_i heq
        rw [heq] at hi
        rcases hold with hid | hnone
        · rw [← hid, hi]
        · rw [hnone] at hi
          cases hi
      · exact hi
    · intro t ht n hn
      rcases List.mem_cons.mp ht with rfl | ht
      · have heq : n = name := Except.ok.inj (hn.symm.trans hname)
        refine ⟨id, List.mem_cons_self, hkeep n id ?_⟩
        rw [hup.projects, if_pos heq]
      · obtain ⟨i, hi, hget⟩ := hall t ht n hn
        exact ⟨i, List.mem_cons_of_mem _ hi, hget⟩

/-- Attribution keeps the sources of every node. -/
theorem attributeNode_same {node : ℕ} {project : Option ℕ}
    (h : db.attributeNode lower config node = .ok (db', project)) :
    SameSources db db' ∧ db'.nodes.keys = db.nodes.keys := by
  have hset : ∀ (d : ProjectDb) p, SameSources d (d.setProject node p) := by
    intro d p
    refine ⟨rfl, rfl, rfl, rfl, rfl, fun n => ?_⟩
    rw [setProject, Table.get?_modify]
    split
    · rw [Option.map_map]
      rfl
    · rfl
  have hkeys : ∀ (d : ProjectDb) p, (d.setProject node p).nodes.keys = d.nodes.keys :=
    fun d p => Table.keys_mapRows _ _
  unfold attributeNode at h
  dsimp only at h
  split at h
  · cases h
    exact ⟨SameSources.refl db, rfl⟩
  · obtain ⟨names, -, h⟩ := bind_eq_ok.mp h
    obtain ⟨⟨stored, ids⟩, hstored, h⟩ := bind_eq_ok.mp h
    obtain ⟨hsame, hnodes, -, -⟩ := upsertProjects_spec hstored
    split at h
    · split at h
      · cases h
        exact ⟨hsame.trans (hset _ _), (hkeys _ _).trans (by rw [hnodes])⟩
      · cases h
    · cases h
      exact ⟨hsame.trans (hset _ _), (hkeys _ _).trans (by rw [hnodes])⟩

/-- `attribute_node` returns exactly if the preferred sources and the aliases have names; its
`assert` always holds. -/
theorem attributeNode_ok (hacyclic : Acyclic lower config) (node : ℕ) :
    (∃ r, db.attributeNode lower config node = .ok r) ↔ Attributable lower config db node := by
  unfold attributeNode
  dsimp only
  by_cases hnil : db.preferred node = []
  · rw [if_pos hnil, Attributable, hnil]
    exact iff_of_true ⟨_, rfl⟩ fun s hs => by cases hs
  · rw [if_neg hnil, Attributable, ← upsertProjects_ok hacyclic db]
    constructor
    · rintro ⟨r, hr⟩
      obtain ⟨names, -, hr⟩ := bind_eq_ok.mp hr
      obtain ⟨stored, hstored, -⟩ := bind_eq_ok.mp hr
      exact ⟨stored, hstored⟩
    · rintro ⟨⟨stored, ids⟩, hstored⟩
      have hnamed := (upsertProjects_ok hacyclic db _).mp ⟨_, hstored⟩
      obtain ⟨names, hnames⟩ := mapM_ok.mpr fun s (hs : s ∈ db.preferred node) =>
        (canonicalName_ok hacyclic).mpr (hnamed s hs).1
      have hassert : ∀ name, names.dedup = [name] →
          ∃ id ∈ (stored.projects.get? name).map Project.id, id ∈ ids := by
        intro name hone
        obtain ⟨s, hs⟩ := List.exists_mem_of_ne_nil _ hnil
        obtain ⟨n, hn, hcanonical⟩ := mem_of_mapM hnames hs
        have heq : n = name := by
          have hmem := List.mem_dedup.mpr hn
          rwa [hone, List.mem_singleton] at hmem
        obtain ⟨i, hi, hget⟩ := (upsertProjects_spec hstored).2.2.2 s hs n hcanonical
        exact ⟨i, heq ▸ hget, hi⟩
      simp only [bind_eq_ok]
      suffices hrest : ∃ r, (match names.dedup with
          | [name] =>
            let project := (stored.projects.get? name).map Project.id
            if ∃ id ∈ project, id ∈ ids then .ok (stored.setProject node project, project)
            else .error (.runtimeError "assert project_id in project_ids")
          | _ => return (stored.setProject node none, none) :
          Except PyError (ProjectDb × Option ℕ)) = .ok r by
        obtain ⟨r, hr⟩ := hrest
        exact ⟨r, names, hnames, (stored, ids), hstored, hr⟩
      split
      · rename_i name hone
        dsimp only
        rw [if_pos (hassert name hone)]
        exact ⟨_, rfl⟩
      · exact ⟨_, rfl⟩

theorem attributeNodes_ok (hacyclic : Acyclic lower config) (db : ProjectDb)
    (nodes : List ℕ) :
    (∃ r, db.attributeNodes lower config nodes = .ok r) ↔
      ∀ node ∈ nodes, Attributable lower config db node := by
  induction nodes generalizing db with
  | nil => exact iff_of_true ⟨_, rfl⟩ fun n hn => by cases hn
  | cons node nodes ih =>
    rw [List.forall_mem_cons, ← attributeNode_ok hacyclic]
    constructor
    · rintro ⟨r, hr⟩
      obtain ⟨⟨attributed, project⟩, hhead, hr⟩ := bind_eq_ok.mp hr
      have hsame := (attributeNode_same hhead).1
      refine ⟨⟨_, hhead⟩, fun n hn => ?_⟩
      have hrest := (ih attributed).mp ⟨r, hr⟩ n hn
      rwa [Attributable, hsame.preferred] at hrest
    · rintro ⟨⟨⟨attributed, project⟩, hhead⟩, hall⟩
      have hsame := (attributeNode_same hhead).1
      obtain ⟨r, hr⟩ := (ih attributed).mpr fun n hn => by
        rw [Attributable, hsame.preferred]
        exact hall n hn
      exact ⟨r, bind_eq_ok.mpr ⟨_, hhead, hr⟩⟩

/-- Along acyclic aliases attribution, a node writer's transaction and the backfill return
exactly if the sources they use have names that are not empty. -/
theorem attribution_returns_iff (hacyclic : Acyclic lower config) (db : ProjectDb) :
    (∀ node, (∃ r, db.attributeNode lower config node = .ok r) ↔
      Attributable lower config db node) ∧
    (∀ table targets now, (∃ r, db.writeNode lower config table targets now = .ok r) ↔
      Attributable lower config (db.withNode table targets now) db.nodes.nextRowid) ∧
    ((∃ r, db.backfill lower config = .ok r) ↔
      SourcesNamed lower config (db.backfillEvents ++ db.backfillSessions) ∧
        ∀ node ∈ db.nodes.keys, Attributable lower config db node) := by
  refine ⟨fun node => attributeNode_ok hacyclic node, fun table targets now => ?_, ?_⟩
  · rw [← attributeNode_ok hacyclic]
    constructor
    · rintro ⟨r, hr⟩
      obtain ⟨attributed, hattributed, -⟩ := bind_eq_ok.mp hr
      exact ⟨attributed, hattributed⟩
    · rintro ⟨attributed, hattributed⟩
      exact ⟨_, bind_eq_ok.mpr ⟨attributed, hattributed, rfl⟩⟩
  · rw [← upsertProjects_ok hacyclic db]
    constructor
    · rintro ⟨r, hr⟩
      obtain ⟨⟨stored, ids⟩, hstored, hr⟩ := bind_eq_ok.mp hr
      obtain ⟨hsame, hnodes, -, -⟩ := upsertProjects_spec hstored
      refine ⟨⟨_, hstored⟩, fun node hnode => ?_⟩
      have hall := (attributeNodes_ok hacyclic stored _).mp ⟨r, hr⟩ node (by rw [hnodes]; exact hnode)
      rwa [Attributable, hsame.preferred] at hall
    · rintro ⟨⟨⟨stored, ids⟩, hstored⟩, hall⟩
      obtain ⟨hsame, hnodes, -, -⟩ := upsertProjects_spec hstored
      obtain ⟨r, hr⟩ := (attributeNodes_ok hacyclic stored stored.nodes.keys).mpr
        fun node hnode => by
          rw [Attributable, hsame.preferred]
          exact hall node (by rw [← hnodes]; exact hnode)
      exact ⟨r, bind_eq_ok.mpr ⟨_, hstored, hr⟩⟩

end Specs

section Rootless

/-- `str.lower` on the characters used here. -/
def asciiLower (s : String) : String := String.ofList (s.toList.map Char.toLower)

def snugAliases : Aliases := [("SNUG", "snugmarina")]

theorem snug_leads {name next : String} (h : Leads asciiLower snugAliases name next) :
    name = "snug" ∧ next = "snugmarina" := by
  have hname : name = "snug" := by
    have hmem := mem_of_target h.1
    simpa [show normalize asciiLower false "SNUG" = "snug" by decide +kernel, snugAliases]
      using hmem
  have htarget : target asciiLower snugAliases "snug" = some "snugmarina" := by decide +kernel
  rw [Leads, hname, htarget, Option.some.injEq] at h
  exact ⟨hname, h.1.symm⟩

theorem snug_acyclic : Acyclic asciiLower snugAliases := by
  intro name hcycle
  obtain ⟨next, hfirst, -⟩ := Relation.TransGen.head'_iff.mp hcycle
  obtain ⟨before, -, hlast⟩ := Relation.TransGen.tail'_iff.mp hcycle
  have hstart : name = "snug" := (snug_leads hfirst).1
  have hend : name = "snugmarina" := (snug_leads hlast).2
  rw [hstart] at hend
  exact absurd hend (by decide)

/-- A session of an aliased directory: its node gets the project of the alias. -/
def snugSession : ProjectDb where
  events := Table.empty
  sessions := Table.empty.insert 1 ⟨"-synthetic-snug", "/synthetic/SNUG", 0, 1, false⟩
  runs := Table.empty
  chunks := Table.empty
  nodes := Table.empty.insert 1 ⟨0, none⟩
  links := [⟨.agenticSessions, 1, 1⟩]
  projects := Table.empty
  aliases := Table.empty

theorem snugSession_attributed : Attributable asciiLower snugAliases snugSession 1 := by
  have hok : (snugSession.attributeNode asciiLower snugAliases 1).toOption.isSome = true := by
    decide +kernel
  refine ((attribution_returns_iff snug_acyclic snugSession).1 1).mp ?_
  cases hresult : snugSession.attributeNode asciiLower snugAliases 1 with
  | error e =>
    rw [hresult] at hok
    cases hok
  | ok r => exact ⟨r, rfl⟩

/-- A session that ran in the root directory. -/
def rootSession : ProjectDb :=
  { snugSession with sessions := Table.empty.insert 1 ⟨"-", "/", 0, 1, false⟩ }

/-- The writer of its node is rolled back, and so is the backfill. -/
theorem rootSession_raises : Acyclic asciiLower [] ∧
    (∀ r, rootSession.attributeNode asciiLower [] 1 ≠ .ok r) ∧
    (∀ r, rootSession.writeNode asciiLower [] .agenticSessions [1] 0 ≠ .ok r) ∧
    ∀ r, rootSession.backfill asciiLower [] ≠ .ok r := by
  have hnone : ∀ {α : Type} {x : Except PyError α}, x.toOption.isNone = true → ∀ r, x ≠ .ok r := by
    rintro α x hx r rfl
    cases hx
  refine ⟨fun name hcycle => ?_, hnone ?_, hnone ?_, hnone ?_⟩
  · obtain ⟨next, ⟨hfirst, -⟩, -⟩ := Relation.TransGen.head'_iff.mp hcycle
    cases hfirst
  · decide +kernel
  · decide +kernel
  · decide +kernel

end Rootless

end ProjectDb

end Hippo
