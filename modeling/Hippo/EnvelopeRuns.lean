import Hippo.EnvelopeIdempotence

/-!
# Runs of deliveries

The tables after a run are determined by which envelopes it has delivered: one row for each, whose
values are those of the delivery that stored it, and one snapshot for each environment of a stored
event.
-/
namespace Hippo.Delivery

abbrev Log := List (Attempt × Outcome)

section Delivered

/-- A shell envelope with this id was delivered without a failure. -/
def ShellDelivered (log : Log) (id : String) : Prop :=
  ∃ a o event, (a, o) ∈ log ∧ o ≠ .failed ∧ a.envelope.payload = .shell event ∧
    a.envelope.envelopeId = id

/-- A browser envelope with this id was delivered without a failure. -/
def BrowserDelivered (log : Log) (id : String) : Prop :=
  ∃ a o event, (a, o) ∈ log ∧ o ≠ .failed ∧ a.envelope.payload = .browser event ∧
    a.envelope.envelopeId = id

/-- The row is the one that this delivery binds. -/
def ShellOrigin (lib : Library) (snapshots : EnvSnapshots) (a : Attempt) (r : EventRow) : Prop :=
  ∃ event, a.envelope.payload = .shell event ∧ ∃ sessionId snap,
    SnapshotOf lib snapshots (a.route.prepare lib event).envSnapshot snap ∧
      r = eventRow sessionId (a.route.prepare lib event) a.envelope.timestamp
        (a.route.prepare lib event).redactionCount snap (some a.envelope.envelopeId)
        a.envelope.probeTag

def BrowserOrigin (lib : Library) (a : Attempt) (r : BrowserRow) : Prop :=
  ∃ event, a.envelope.payload = .browser event ∧
    r = browserRow lib event a.envelope.timestamp (some a.envelope.envelopeId) a.envelope.probeTag

variable {log : Log} {a : Attempt} {o : Outcome} {event : ShellEvent} {bevent : BrowserEvent}
  {x : String}

theorem shellDelivered_cons : ShellDelivered ((a, o) :: log) x ↔ ShellDelivered log x ∨
    ∃ event, o ≠ .failed ∧ a.envelope.payload = .shell event ∧ a.envelope.envelopeId = x := by
  constructor
  · rintro ⟨b, p, event, hmem, hp, hpayload, hid⟩
    obtain heq | hmem := List.mem_cons.mp hmem
    · cases heq
      exact Or.inr ⟨event, hp, hpayload, hid⟩
    · exact Or.inl ⟨b, p, event, hmem, hp, hpayload, hid⟩
  · rintro (⟨b, p, event, hmem, hrest⟩ | ⟨event, hrest⟩)
    · exact ⟨b, p, event, List.mem_cons_of_mem _ hmem, hrest⟩
    · exact ⟨a, o, event, List.mem_cons_self, hrest⟩

theorem browserDelivered_cons : BrowserDelivered ((a, o) :: log) x ↔ BrowserDelivered log x ∨
    ∃ event, o ≠ .failed ∧ a.envelope.payload = .browser event ∧ a.envelope.envelopeId = x := by
  constructor
  · rintro ⟨b, p, event, hmem, hp, hpayload, hid⟩
    obtain heq | hmem := List.mem_cons.mp hmem
    · cases heq
      exact Or.inr ⟨event, hp, hpayload, hid⟩
    · exact Or.inl ⟨b, p, event, hmem, hp, hpayload, hid⟩
  · rintro (⟨b, p, event, hmem, hrest⟩ | ⟨event, hrest⟩)
    · exact ⟨b, p, event, List.mem_cons_of_mem _ hmem, hrest⟩
    · exact ⟨a, o, event, List.mem_cons_self, hrest⟩

theorem shellDelivered_of_shell (ho : o ≠ .failed) (hpayload : a.envelope.payload = .shell event) :
    ShellDelivered ((a, o) :: log) x ↔ ShellDelivered log x ∨ x = a.envelope.envelopeId := by
  rw [shellDelivered_cons]
  constructor
  · rintro (h | ⟨-, -, -, rfl⟩)
    · exact Or.inl h
    · exact Or.inr rfl
  · rintro (h | rfl)
    · exact Or.inl h
    · exact Or.inr ⟨event, ho, hpayload, rfl⟩

theorem browserDelivered_of_browser (ho : o ≠ .failed)
    (hpayload : a.envelope.payload = .browser bevent) :
    BrowserDelivered ((a, o) :: log) x ↔ BrowserDelivered log x ∨ x = a.envelope.envelopeId := by
  rw [browserDelivered_cons]
  constructor
  · rintro (h | ⟨-, -, -, rfl⟩)
    · exact Or.inl h
    · exact Or.inr rfl
  · rintro (h | rfl)
    · exact Or.inl h
    · exact Or.inr ⟨bevent, ho, hpayload, rfl⟩

theorem shellDelivered_of_browser (hpayload : a.envelope.payload = .browser bevent) :
    ShellDelivered ((a, o) :: log) x ↔ ShellDelivered log x := by
  rw [shellDelivered_cons, or_iff_left]
  rintro ⟨event, -, hshell, -⟩
  rw [hpayload] at hshell
  cases hshell

theorem browserDelivered_of_shell (hpayload : a.envelope.payload = .shell event) :
    BrowserDelivered ((a, o) :: log) x ↔ BrowserDelivered log x := by
  rw [browserDelivered_cons, or_iff_left]
  rintro ⟨event, -, hbrowser, -⟩
  rw [hpayload] at hbrowser
  cases hbrowser

end Delivered

/-- The world holds what the log says. -/
structure Faithful (lib : Library) (log : Log) (w : World) : Prop where
  shell : Exact EventRow.envelopeId EventRow.probeTag (ShellDelivered log) w.db.shell
  browser : Exact BrowserRow.envelopeId BrowserRow.probeTag (BrowserDelivered log) w.db.browser
  shellOrigin : ∀ i r, w.db.shell.events.get? i = some r →
    ∃ a, (a, .stored) ∈ log ∧ ShellOrigin lib w.db.snapshots a r
  browserOrigin : ∀ i r, w.db.browser.events.get? i = some r →
    ∃ a, (a, .stored) ∈ log ∧ BrowserOrigin lib a r
  used : ∀ j s, w.db.snapshots.rows.get? j = some s →
    ∃ i r, w.db.shell.events.get? i = some r ∧ r.envSnapshotId = some j
  sessions : ∀ a o event, (a, o) ∈ log → o ≠ .failed → a.envelope.payload = .shell event →
    HasSession w.db event.sessionId
  mapped : Mapped w

section Steps

variable {lib : Library} {log : Log} {w w' : World} {a : Attempt} {o : Outcome}
  {event : ShellEvent} {bevent : BrowserEvent} {id : ℕ}

theorem faithful_init (lib : Library) : Faithful lib [] World.init where
  shell := exact_empty.mono fun x => by simp [ShellDelivered]
  browser := exact_empty.mono fun x => by simp [BrowserDelivered]
  shellOrigin := by
    intro i r hr
    cases hr
  browserOrigin := by
    intro i r hr
    cases hr
  used := by
    intro j s hs
    cases hs
  sessions := by
    intro a o event h
    cases h
  mapped := by
    intro uuid id h
    cases h

theorem Faithful.session (h : Faithful lib log w) {uuid : String}
    (hstep : SessionStep w w' uuid id) : Faithful lib log w' where
  shell := by
    rw [hstep.shell]
    exact h.shell
  browser := by
    rw [hstep.browser]
    exact h.browser
  shellOrigin := by
    rw [hstep.shell, hstep.snapshots]
    exact h.shellOrigin
  browserOrigin := by
    rw [hstep.browser]
    exact h.browserOrigin
  used := by
    rw [hstep.shell, hstep.snapshots]
    exact h.used
  sessions := by
    intro a o event hmem ho hpayload
    obtain ⟨i, s, hs, hterminal⟩ := h.sessions a o event hmem ho hpayload
    exact ⟨i, s, hstep.kept i s hs, hterminal⟩
  mapped := hstep.mapped

/-- A failed delivery leaves the tables and what is known of them. -/
theorem Faithful.failed (h : Faithful lib log w) (a : Attempt) :
    Faithful lib ((a, .failed) :: log) w where
  shell := h.shell.mono fun x => by simp [shellDelivered_cons]
  browser := h.browser.mono fun x => by simp [browserDelivered_cons]
  shellOrigin := by
    intro i r hr
    obtain ⟨b, hb, horigin⟩ := h.shellOrigin i r hr
    exact ⟨b, List.mem_cons_of_mem _ hb, horigin⟩
  browserOrigin := by
    intro i r hr
    obtain ⟨b, hb, horigin⟩ := h.browserOrigin i r hr
    exact ⟨b, List.mem_cons_of_mem _ hb, horigin⟩
  used := h.used
  sessions := by
    intro b o event hmem ho hpayload
    obtain heq | hmem := List.mem_cons.mp hmem
    · cases heq
      exact absurd rfl ho
    · exact h.sessions b o event hmem ho hpayload
  mapped := h.mapped

theorem sessions_cons {db : Db}
    (h : ∀ b p event, (b, p) ∈ log → p ≠ .failed → b.envelope.payload = .shell event →
      HasSession db event.sessionId)
    (hpayload : a.envelope.payload = .shell event) (hsession : HasSession db event.sessionId) :
    ∀ b p event, (b, p) ∈ (a, o) :: log → p ≠ .failed → b.envelope.payload = .shell event →
      HasSession db event.sessionId := by
  intro b p event' hmem hp hpayload'
  obtain heq | hmem := List.mem_cons.mp hmem
  · cases heq
    rw [hpayload] at hpayload'
    cases hpayload'
    exact hsession
  · exact h b p event' hmem hp hpayload'

theorem Faithful.shellDuplicate (h : Faithful lib log w)
    (hpayload : a.envelope.payload = .shell event) (hsession : HasSession w.db event.sessionId)
    (hheld : w.db.shell.Holds EventRow.envelopeId a.envelope.envelopeId) :
    Faithful lib ((a, .duplicate) :: log) w where
  shell := (h.shell.of_held hheld).mono fun x =>
    (shellDelivered_of_shell (by decide) hpayload).symm
  browser := h.browser.mono fun x => (browserDelivered_of_shell hpayload).symm
  shellOrigin := by
    intro i r hr
    obtain ⟨b, hb, horigin⟩ := h.shellOrigin i r hr
    exact ⟨b, List.mem_cons_of_mem _ hb, horigin⟩
  browserOrigin := by
    intro i r hr
    obtain ⟨b, hb, horigin⟩ := h.browserOrigin i r hr
    exact ⟨b, List.mem_cons_of_mem _ hb, horigin⟩
  used := h.used
  sessions := sessions_cons h.sessions hpayload hsession
  mapped := h.mapped

theorem Faithful.browserDuplicate (h : Faithful lib log w)
    (hpayload : a.envelope.payload = .browser bevent)
    (hheld : w.db.browser.Holds BrowserRow.envelopeId a.envelope.envelopeId) :
    Faithful lib ((a, .duplicate) :: log) w where
  shell := h.shell.mono fun x => (shellDelivered_of_browser hpayload).symm
  browser := (h.browser.of_held hheld).mono fun x =>
    (browserDelivered_of_browser (by decide) hpayload).symm
  shellOrigin := by
    intro i r hr
    obtain ⟨b, hb, horigin⟩ := h.shellOrigin i r hr
    exact ⟨b, List.mem_cons_of_mem _ hb, horigin⟩
  browserOrigin := by
    intro i r hr
    obtain ⟨b, hb, horigin⟩ := h.browserOrigin i r hr
    exact ⟨b, List.mem_cons_of_mem _ hb, horigin⟩
  used := h.used
  sessions := by
    intro b o event hmem ho hshell
    obtain heq | hmem := List.mem_cons.mp hmem
    · cases heq
      rw [hpayload] at hshell
      cases hshell
    · exact h.sessions b o event hmem ho hshell
  mapped := h.mapped

/-- The row of an event that was not there, with the snapshot of its environment. -/
theorem Faithful.shellStored (h : Faithful lib log w) {sessionId : ℕ}
    (hpayload : a.envelope.payload = .shell event) (hsession : HasSession w.db event.sessionId)
    (hnew : ¬ w.db.shell.Holds EventRow.envelopeId a.envelope.envelopeId) :
    Faithful lib ((a, .stored) :: log) { w with db := { w.db with
      shell := w.db.shell.insertOnce EventRow.envelopeId EventRow.probeTag
        (eventRow sessionId (a.route.prepare lib event) a.envelope.timestamp
          (a.route.prepare lib event).redactionCount
          (resolved lib w.db.snapshots (a.route.prepare lib event).envSnapshot none).2
          (some a.envelope.envelopeId) a.envelope.probeTag)
      snapshots :=
        (resolved lib w.db.snapshots (a.route.prepare lib event).envSnapshot none).1 } } := by
  obtain ⟨hsnap, hkept, hother⟩ :=
    resolved_spec lib w.db.snapshots (a.route.prepare lib event).envSnapshot
  set snapshots :=
    (resolved lib w.db.snapshots (a.route.prepare lib event).envSnapshot none).1 with hsnapshots
  set snap := (resolved lib w.db.snapshots (a.route.prepare lib event).envSnapshot none).2
  set row := eventRow sessionId (a.route.prepare lib event) a.envelope.timestamp
    (a.route.prepare lib event).redactionCount snap (some a.envelope.envelopeId)
    a.envelope.probeTag with hrow
  have hevents : ∀ j, (w.db.shell.insertOnce EventRow.envelopeId EventRow.probeTag row).events.get? j =
      if j = w.db.shell.events.nextRowid then some row else w.db.shell.events.get? j := by
    obtain ⟨-, x, hx, hheld⟩ | ⟨-, hevents, -, -⟩ :=
      w.db.shell.insertOnce_cases EventRow.envelopeId EventRow.probeTag row
    · cases hx
      exact absurd hheld hnew
    · exact hevents
  refine
    { shell := ?_
      browser := h.browser.mono fun x => (browserDelivered_of_shell hpayload).symm
      shellOrigin := ?_
      browserOrigin := ?_
      used := ?_
      sessions := sessions_cons h.sessions hpayload hsession
      mapped := h.mapped }
  · exact (h.shell.insertOnce (e := row) rfl).mono fun x =>
      (shellDelivered_of_shell (by decide) hpayload).symm
  · intro i r hr
    have hr' := (hevents i).symm.trans hr
    by_cases hi : i = w.db.shell.events.nextRowid
    · rw [if_pos hi] at hr'
      obtain rfl := Option.some.inj hr'
      exact ⟨a, List.mem_cons_self, event, hpayload, sessionId, snap, hsnap, hrow⟩
    · rw [if_neg hi] at hr'
      obtain ⟨b, hb, event', hpayload', sid, snap', hsnap', hr''⟩ := h.shellOrigin i r hr'
      exact ⟨b, List.mem_cons_of_mem _ hb, event', hpayload', sid, snap', hsnap'.kept hkept, hr''⟩
  · intro i r hr
    obtain ⟨b, hb, horigin⟩ := h.browserOrigin i r hr
    exact ⟨b, List.mem_cons_of_mem _ hb, horigin⟩
  · intro j t ht
    obtain hj | hold := hother j t ht
    · exact ⟨w.db.shell.events.nextRowid, row, (hevents _).trans (if_pos rfl), hj⟩
    · obtain ⟨i, r, hr, hsame⟩ := h.used j t hold
      have hi : i ≠ w.db.shell.events.nextRowid := by
        rintro rfl
        simp at hr
      exact ⟨i, r, (hevents i).trans ((if_neg hi).trans hr), hsame⟩

theorem Faithful.browserStored (h : Faithful lib log w)
    (hpayload : a.envelope.payload = .browser bevent)
    (hnew : ¬ w.db.browser.Holds BrowserRow.envelopeId a.envelope.envelopeId) :
    Faithful lib ((a, .stored) :: log) { w with db := { w.db with
      browser := w.db.browser.insertOnce BrowserRow.envelopeId BrowserRow.probeTag
        (browserRow lib bevent a.envelope.timestamp (some a.envelope.envelopeId)
          a.envelope.probeTag) } } := by
  set row := browserRow lib bevent a.envelope.timestamp (some a.envelope.envelopeId)
    a.envelope.probeTag with hrow
  have hevents : ∀ j,
      (w.db.browser.insertOnce BrowserRow.envelopeId BrowserRow.probeTag row).events.get? j =
        if j = w.db.browser.events.nextRowid then some row else w.db.browser.events.get? j := by
    obtain ⟨-, x, hx, hheld⟩ | ⟨-, hevents, -, -⟩ :=
      w.db.browser.insertOnce_cases BrowserRow.envelopeId BrowserRow.probeTag row
    · cases hx
      exact absurd hheld hnew
    · exact hevents
  refine
    { shell := h.shell.mono fun x => (shellDelivered_of_browser hpayload).symm
      browser := ?_
      shellOrigin := ?_
      browserOrigin := ?_
      used := h.used
      sessions := ?_
      mapped := h.mapped }
  · exact (h.browser.insertOnce (e := row) rfl).mono fun x =>
      (browserDelivered_of_browser (by decide) hpayload).symm
  · intro i r hr
    obtain ⟨b, hb, horigin⟩ := h.shellOrigin i r hr
    exact ⟨b, List.mem_cons_of_mem _ hb, horigin⟩
  · intro i r hr
    have hr' := (hevents i).symm.trans hr
    by_cases hi : i = w.db.browser.events.nextRowid
    · rw [if_pos hi] at hr'
      obtain rfl := Option.some.inj hr'
      exact ⟨a, List.mem_cons_self, bevent, hpayload, hrow⟩
    · rw [if_neg hi] at hr'
      obtain ⟨b, hb, horigin⟩ := h.browserOrigin i r hr'
      exact ⟨b, List.mem_cons_of_mem _ hb, horigin⟩
  · intro b p event' hmem hp hshell
    obtain heq | hmem := List.mem_cons.mp hmem
    · cases heq
      rw [hpayload] at hshell
      cases hshell
    · exact h.sessions b p event' hmem hp hshell

end Steps

section Deliver

variable {lib : Library} {log : Log} {w : World} {a : Attempt} {event : ShellEvent}

@[simp] theorem prepare_sessionId (lib : Library) (route : Route) (event : ShellEvent) :
    (route.prepare lib event).sessionId = event.sessionId := by
  cases route <;> rfl

theorem Faithful.settleShell (h : Faithful lib log w) {sessionId : ℕ}
    (hpayload : a.envelope.payload = .shell event) (hsession : HasSession w.db event.sessionId)
    {x : Except Statement (Db × Option ℕ)}
    (hx : insertEventAt lib a.fault w.db sessionId (a.route.prepare lib event) a.envelope.timestamp
      (a.route.prepare lib event).redactionCount none (some a.envelope.envelopeId)
      a.envelope.probeTag = x) :
    Faithful lib ((a, (settle w x).2) :: log) (settle w x).1 := by
  cases x with
  | error s => exact h.failed a
  | ok x =>
    obtain ⟨db', new⟩ := x
    obtain ⟨rfl, rfl, hheld⟩ | ⟨hnew, -, hfresh, rfl⟩ := insertEventAt_eq_ok hx
    · exact h.shellDuplicate hpayload hsession hheld
    · obtain ⟨n, rfl⟩ := Option.ne_none_iff_exists'.mp hnew
      exact h.shellStored hpayload hsession hfresh

theorem Faithful.settleBrowser (h : Faithful lib log w) {bevent : BrowserEvent}
    (hpayload : a.envelope.payload = .browser bevent) {x : Except Statement (Db × Option ℕ)}
    (hx : insertBrowserEvent lib a.fault w.db bevent a.envelope.timestamp
      (some a.envelope.envelopeId) a.envelope.probeTag = x) :
    Faithful lib ((a, (settle w x).2) :: log) (settle w x).1 := by
  cases x with
  | error s => exact h.failed a
  | ok x =>
    obtain ⟨db', new⟩ := x
    obtain ⟨rfl, rfl, hheld⟩ | ⟨hnew, hfresh, rfl⟩ := insertBrowserEvent_eq_ok hx
    · exact h.browserDuplicate hpayload hheld
    · obtain ⟨n, rfl⟩ := Option.ne_none_iff_exists'.mp hnew
      exact h.browserStored hpayload hfresh

/-- One delivery. -/
theorem Faithful.deliver (h : Faithful lib log w) (a : Attempt) :
    Faithful lib ((a, (deliver lib w a).2) :: log) (deliver lib w a).1 := by
  unfold Delivery.deliver
  split
  next event hpayload =>
    dsimp only
    split
    · exact h.failed a
    next w' sessionId hsession =>
      have hstep := getOrCreateSession_eq_some h.mapped hsession
      have hhas : HasSession w'.db event.sessionId := by
        have hs := hstep.session
        rw [prepare_sessionId] at hs
        exact ⟨sessionId, hs⟩
      exact (h.session hstep).settleShell hpayload hhas rfl
  next bevent hpayload => exact h.settleBrowser hpayload rfl
  next => exact h.failed a

/-- Every run is faithful to its log. -/
theorem run_faithful (lib : Library) (as : List Action) :
    Faithful lib (run lib as).2 (run lib as).1 := by
  induction as with
  | nil => exact faithful_init lib
  | cons action earlier ih =>
    cases action with
    | deliver a => exact ih.deliver a
    | restart =>
      exact
        { shell := ih.shell
          browser := ih.browser
          shellOrigin := ih.shellOrigin
          browserOrigin := ih.browserOrigin
          used := ih.used
          sessions := ih.sessions
          mapped := by
            intro uuid id hid
            cases hid }

theorem settle_error {x : Except Statement (Db × Option ℕ)} (h : (settle w x).2 = .failed) :
    (settle w x).1 = w := by
  unfold settle at h ⊢
  split
  · cases h
  · cases h
  · rfl

/-- A failed delivery leaves at most a session behind. -/
theorem deliver_failed (hmapped : Mapped w) (h : (deliver lib w a).2 = .failed) :
    (deliver lib w a).1.db.shell = w.db.shell ∧ (deliver lib w a).1.db.browser = w.db.browser ∧
      (deliver lib w a).1.db.snapshots = w.db.snapshots := by
  unfold deliver at h ⊢
  split at h
  next event hpayload =>
    dsimp only at h ⊢
    split at h
    · exact ⟨rfl, rfl, rfl⟩
    next w' sessionId hsession =>
      have hstep := getOrCreateSession_eq_some hmapped hsession
      rw [settle_error h]
      exact ⟨hstep.shell, hstep.browser, hstep.snapshots⟩
  next => rw [settle_error h]; exact ⟨rfl, rfl, rfl⟩
  next => exact ⟨rfl, rfl, rfl⟩

theorem settle_same {w' : World} {x : Except Statement (Db × Option ℕ)}
    (h : ∀ db new, x = .ok (db, new) → db = w'.db) : (settle w' x).1.db = w'.db := by
  unfold settle
  split
  next db n => exact h db (some n) rfl
  next db => exact h db none rfl
  next => rfl

/-- A repeated delivery changes no table. -/
theorem deliver_repeated (h : Faithful lib log w) {b : Attempt} {o : Outcome}
    (hmem : (b, o) ∈ log) (ho : o ≠ .failed) (ha : a.envelope = b.envelope) :
    (deliver lib w a).1.db = w.db := by
  unfold deliver
  split
  next event hpayload =>
    rw [ha] at hpayload
    have hhas := h.sessions b o event hmem ho hpayload
    have hheld : w.db.shell.Holds EventRow.envelopeId a.envelope.envelopeId := by
      rw [ha]
      exact h.shell.held _ ⟨b, o, event, hmem, ho, hpayload, rfl⟩
    dsimp only
    split
    · rfl
    next w' sessionId hsession =>
      have hstep := getOrCreateSession_eq_some h.mapped hsession
      have hsame : w'.db = w.db := hstep.same (by rw [prepare_sessionId]; exact hhas)
      refine (settle_same ?_).trans hsame
      intro db new hok
      obtain ⟨-, hdb, -⟩ | ⟨-, -, hnew, -⟩ := insertEventAt_eq_ok hok
      · exact hdb
      · rw [hsame] at hnew
        exact absurd hheld hnew
  next bevent hpayload =>
    rw [ha] at hpayload
    have hheld : w.db.browser.Holds BrowserRow.envelopeId a.envelope.envelopeId := by
      rw [ha]
      exact h.browser.held _ ⟨b, o, bevent, hmem, ho, hpayload, rfl⟩
    apply settle_same
    intro db new hok
    obtain ⟨-, hdb, -⟩ | ⟨-, hnew, -⟩ := insertBrowserEvent_eq_ok hok
    · exact hdb
    · exact absurd hheld hnew
  next => rfl

/-- The tables hold each delivered envelope once, and each environment of a stored event once. -/
structure DeliveredOnce (lib : Library) (log : Log) (db : Db) : Prop where
  events : ∀ id, ShellDelivered log id ↔
    ∃! i, ∃ r, db.shell.events.get? i = some r ∧ r.envelopeId = some id
  browserEvents : ∀ id, BrowserDelivered log id ↔
    ∃! i, ∃ r, db.browser.events.get? i = some r ∧ r.envelopeId = some id
  eventsOnly : ∀ i r, db.shell.events.get? i = some r →
    ∃ a, (a, .stored) ∈ log ∧ ShellOrigin lib db.snapshots a r
  browserEventsOnly : ∀ i r, db.browser.events.get? i = some r →
    ∃ a, (a, .stored) ∈ log ∧ BrowserOrigin lib a r
  queue : ∀ i, i ∈ db.shell.queue.keys ↔
    ∃ r, db.shell.events.get? i = some r ∧ r.probeTag = none
  browserQueue : ∀ i, i ∈ db.browser.queue.keys ↔
    ∃ r, db.browser.events.get? i = some r ∧ r.probeTag = none
  snapshots : ∀ i j s t, db.snapshots.rows.get? i = some s → db.snapshots.rows.get? j = some t →
    s.contentHash = t.contentHash → i = j
  snapshotsOnly : ∀ j s, db.snapshots.rows.get? j = some s →
    ∃ i r, db.shell.events.get? i = some r ∧ r.envSnapshotId = some j

theorem Faithful.deliveredOnce (h : Faithful lib log w) : DeliveredOnce lib log w.db where
  events := h.shell.existsUnique
  browserEvents := h.browser.existsUnique
  eventsOnly := h.shellOrigin
  browserEventsOnly := h.browserOrigin
  queue := h.shell.queued
  browserQueue := h.browser.queued
  snapshots := w.db.snapshots.unique
  snapshotsOnly := h.used

/-- Whatever is delivered, in which order and on which route, each envelope is stored once; a
repeated delivery changes no table, and a failed one no event, snapshot or queue row. -/
theorem envelope_idempotence (lib : Library) (as : List Action) :
    DeliveredOnce lib (run lib as).2 (run lib as).1.db ∧
    (∀ a b o, (b, o) ∈ (run lib as).2 → o ≠ .failed → a.envelope = b.envelope →
      (deliver lib (run lib as).1 a).1.db = (run lib as).1.db) ∧
    ∀ a, (deliver lib (run lib as).1 a).2 = .failed →
      (deliver lib (run lib as).1 a).1.db.shell = (run lib as).1.db.shell ∧
      (deliver lib (run lib as).1 a).1.db.browser = (run lib as).1.db.browser ∧
      (deliver lib (run lib as).1 a).1.db.snapshots = (run lib as).1.db.snapshots := by
  have hfaithful := run_faithful lib as
  refine ⟨hfaithful.deliveredOnce, ?_, ?_⟩
  · intro a b o hmem ho ha
    exact deliver_repeated hfaithful hmem ho ha
  · intro a hfailed
    exact deliver_failed hfaithful.mapped hfailed

end Deliver

section Sample

/-- The library on small inputs; the digest is the text itself. -/
def sampleLibrary : Library where
  toJson := fun env => String.join (env.map fun e => e.1 ++ "=" ++ e.2)
  sha256 := id
  redact := fun t => (t, 0)

def lsEvent : ShellEvent where
  sessionId := "s"
  command := "ls"
  exitCode := 0
  durationMs := 5
  cwd := "/"
  hostname := "h"
  shell := "zsh"
  stdout := none
  stderr := none
  envSnapshot := [("HOME", "/h")]
  gitState := none
  redactionCount := 0
  toolName := none

def lsAttempt (id : String) : Attempt where
  route := .flush
  envelope := ⟨id, 1, .shell lsEvent, none⟩
  username := "u"
  nowMs := 1
  sessionFault := false
  fault := fun _ => false

/-- Two envelopes of one environment share its snapshot. -/
theorem environment_shared : ¬ ∀ (lib : Library) (as : List Action),
    (run lib as).1.db.snapshots.rows.entries.length =
      (run lib as).1.db.shell.events.entries.length := by
  intro hall
  have hcount := hall sampleLibrary [.deliver (lsAttempt "b"), .deliver (lsAttempt "a")]
  exact absurd hcount (by decide +kernel)

end Sample

end Hippo.Delivery
