import Hippo.AlarmLifecycle

/-!
# The rate limit of the alarms

The limit counts the alarms of an invariant, whatever their sources. So a violated invariant always
has a fresh alarm, but only one of its violated sources may be named.
-/
namespace Hippo.Watchdog

variable {lib : JsonLibrary} {es : List Event} {id : ℕ} {a : Alarm}

/-- The tick and the violation that the alarm was raised for. -/
def RaisedFor (lib : JsonLibrary) (es : List Event) (a : Alarm) (t : Tick)
    (v : InvariantViolation) : Prop :=
  .tick t ∈ es ∧ v ∈ t.violations ∧ a.invariantId = v.invariantId ∧ a.raisedAt = t.nowMs ∧
    a.detailsJson = detailsJson lib v

/-- What no later step changes in an alarm. -/
def SameOrigin (a a' : Alarm) : Prop :=
  a'.invariantId = a.invariantId ∧ a'.raisedAt = a.raisedAt ∧ a'.detailsJson = a.detailsJson

theorem resolveRow_origin (violating : List (String × String)) (nowMs : ℤ) (a : Alarm) :
    SameOrigin a (resolveRow lib violating nowMs a) := by
  unfold resolveRow
  split
  · exact ⟨rfl, rfl, rfl⟩
  · split
    · split <;> exact ⟨rfl, rfl, rfl⟩
    · split <;> exact ⟨rfl, rfl, rfl⟩

theorem RaisedFor.of_origin {a' : Alarm} {t : Tick} {v : InvariantViolation}
    (h : RaisedFor lib es a t v) (horigin : SameOrigin a a') : RaisedFor lib es a' t v := by
  obtain ⟨ht, hv, hinvariant, hraised, hdetails⟩ := h
  obtain ⟨hinvariant', hraised', hdetails'⟩ := horigin
  exact ⟨ht, hv, hinvariant'.trans hinvariant, hraised'.trans hraised, hdetails'.trans hdetails⟩

theorem RaisedFor.append {t : Tick} {v : InvariantViolation} (h : RaisedFor lib es a t v)
    (e : Event) : RaisedFor lib (es ++ [e]) a t v :=
  ⟨List.mem_append_left _ h.1, h.2⟩

/-- The rows between the loops of a tick. -/
theorem raiseAlarms_raisedFor {limit : ℤ} {alarms : Alarms} {t : Tick}
    (hold : ∀ id a, alarms.get? id = some a → ∃ t v, RaisedFor lib es a t v)
    (h : (raiseAlarms lib limit alarms t).get? id = some a) :
    ∃ t' v, RaisedFor lib (es ++ [.tick t]) a t' v := by
  rcases raiseAlarms_new t h with hrow | ⟨v, hv, rfl⟩
  · obtain ⟨t', v, hraised⟩ := hold id a hrow
    exact ⟨t', v, hraised.append _⟩
  · exact ⟨t, v, List.mem_append_right _ (List.mem_singleton_self _), hv, rfl, rfl, rfl⟩

theorem operator_raisedFor {p : ℕ → Alarm → Prop} [∀ k r, Decidable (p k r)] {f : Alarm → Alarm}
    {alarms : Alarms} {e : Event} (hf : ∀ a, SameOrigin a (f a))
    (hold : ∀ id a, alarms.get? id = some a → ∃ t v, RaisedFor lib es a t v)
    (h : (alarms.update p f).get? id = some a) : ∃ t v, RaisedFor lib (es ++ [e]) a t v := by
  obtain ⟨a', ha', ⟨-, rfl⟩ | ⟨-, rfl⟩⟩ := Table.eq_of_get?_update h
  · obtain ⟨t, v, hraised⟩ := hold id a' ha'
    exact ⟨t, v, (hraised.of_origin (hf a')).append e⟩
  · obtain ⟨t, v, hraised⟩ := hold id a ha'
    exact ⟨t, v, hraised.append e⟩

/-- Every alarm was raised by a tick for one of its violations. -/
theorem run_raisedFor {limit : ℤ} (h : (run lib limit es).get? id = some a) :
    ∃ t v, RaisedFor lib es a t v := by
  induction es using List.reverseRecOn generalizing id a with
  | nil => cases h
  | append_singleton es e ih =>
    have hold : ∀ id a, (run lib limit es).get? id = some a → ∃ t v, RaisedFor lib es a t v :=
      fun id a hrow => ih hrow
    rw [run_append] at h
    cases e with
    | tick t =>
      obtain ⟨a', ha', ⟨-, rfl⟩ | ⟨-, rfl⟩⟩ := Table.eq_of_get?_update h
      · obtain ⟨t', v, hraised⟩ := raiseAlarms_raisedFor hold ha'
        exact ⟨t', v, hraised.of_origin (resolveRow_origin _ _ a')⟩
      · exact raiseAlarms_raisedFor hold ha'
    | ack j note nowMs =>
      have horigin : ∀ a : Alarm, SameOrigin a { a with ackedAt := some nowMs, ackNote := note } :=
        fun a => ⟨rfl, rfl, rfl⟩
      exact operator_raisedFor horigin hold h
    | prune nowMs =>
      have horigin : ∀ a : Alarm, SameOrigin a
          { a with ackedAt := some nowMs, ackNote := some "auto-resolved" } :=
        fun a => ⟨rfl, rfl, rfl⟩
      exact operator_raisedFor horigin hold h

/-- The invariant has an alarm in the window. -/
def Fresh (limit nowMs : ℤ) (alarms : Alarms) (invariantId : String) : Prop :=
  ∃ id a, alarms.get? id = some a ∧ a.invariantId = invariantId ∧ nowMs - limit ≤ a.raisedAt

theorem raiseAlarm_fresh {limit nowMs : ℤ} (hlimit : 0 ≤ limit) (alarms : Alarms)
    (attempt : Attempt) (hfree : attempt.busy = false) :
    Fresh limit nowMs (raiseAlarm lib limit nowMs alarms attempt)
      attempt.violation.invariantId := by
  unfold raiseAlarm
  rw [hfree, Bool.or_false]
  split
  · rename_i hlimited
    rw [checkRateLimit, List.any_eq_true] at hlimited
    obtain ⟨⟨id, a⟩, hmem, hfresh⟩ := hlimited
    simp only [Bool.and_eq_true, decide_eq_true_eq] at hfresh
    exact ⟨id, a, Table.get?_eq_some.mpr hmem, hfresh.1.1, by omega⟩
  · refine ⟨alarms.nextRowid, newAlarm lib attempt.violation nowMs, ?_, rfl, ?_⟩
    · rw [Table.get?_insert_nextRowid, if_pos rfl]
    · show nowMs - limit ≤ nowMs
      omega

/-- After the loop over the violations, each that was not refused has a fresh alarm. -/
theorem raiseAlarms_fresh (lib : JsonLibrary) {limit : ℤ} (hlimit : 0 ≤ limit) (alarms : Alarms)
    (t : Tick) {attempt : Attempt} (hattempt : attempt ∈ t.attempts) (hfree : attempt.busy = false) :
    Fresh limit t.nowMs (raiseAlarms lib limit alarms t) attempt.violation.invariantId := by
  unfold raiseAlarms
  have hkeep : ∀ (attempts : List Attempt) (alarms : Alarms),
      Fresh limit t.nowMs alarms attempt.violation.invariantId →
        Fresh limit t.nowMs (attempts.foldl (raiseAlarm lib limit t.nowMs) alarms)
          attempt.violation.invariantId := by
    intro attempts alarms hfresh
    induction attempts generalizing alarms with
    | nil => exact hfresh
    | cons first rest ih =>
      obtain ⟨id, a, ha, hid, hraised⟩ := hfresh
      exact ih _ ⟨id, a, raiseAlarm_get? t.nowMs first ha, hid, hraised⟩
  generalize t.attempts = attempts at hattempt ⊢
  induction attempts generalizing alarms with
  | nil => cases hattempt
  | cons first rest ih =>
    rcases List.mem_cons.mp hattempt with rfl | hrest
    · exact hkeep rest _ (raiseAlarm_fresh hlimit alarms attempt hfree)
    · exact ih _ hrest

end Hippo.Watchdog
