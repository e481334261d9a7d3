import CallLedger.Session.Operation

/-!
# What operations leave

One equation for each operation says what the session is afterwards, whether the state
allowed the operation or not. Whatever holds along every run is shown operation by
operation, and reads these equations only.

What is only said of the contexts does not depend on which operation it is, but on the few
things that operations do to contexts (`Outlasts`).
-/

namespace CallLedger.Session

variable {α : Type} [Amount α]

/-! ## Setting up -/

theorem after_setMeasureMode (session : Session α) (mode : MeasureMode) :
    session.after (.setMeasureMode mode) =
      if session.phase = .idle then
        { session with config := { session.config with measureMode := mode } }
      else session := by
  unfold Session.after
  simp only [Session.perform, Session.setMeasureMode]
  cases session.phase <;> rfl

theorem after_excludeMethod (session : Session α) (method : Method) :
    session.after (.excludeMethod method) =
      if session.phase = .idle then
        { session with exclusions := session.exclusions.insert method }
      else session := by
  unfold Session.after
  simp only [Session.perform, Session.excludeMethod]
  cases session.phase <;> rfl

theorem after_setThreadFilter (session : Session α) (filter : ThreadFilter) :
    session.after (.setThreadFilter filter) =
      if session.phase = .idle then { session with filter := filter } else session := by
  unfold Session.after
  simp only [Session.perform, Session.setThreadFilter]
  cases session.phase <;> rfl

/-! ## Running -/

omit [Amount α] in
theorem not_finished {session : Session α} (hactive : session.phase.isActive = true) :
    session.phase ≠ .finished := by
  intro hfinished
  rw [hfinished] at hactive
  cases hactive

theorem after_start (session : Session α) (now : α) :
    session.after (.start now) =
      if session.phase = .idle then { session with phase := .running } else session := by
  unfold Session.after
  simp only [Session.perform, Session.start]
  cases session.phase <;> rfl

theorem after_pause (session : Session α) (now : α) :
    session.after (.pause now) =
      if session.phase = .running then
        { session with contexts := session.contexts.mapLive (·.pause now), phase := .paused }
      else session := by
  unfold Session.after
  simp only [Session.perform, Session.pause]
  cases session.phase <;> rfl

theorem after_resume (session : Session α) (now : α) :
    session.after (.resume now) =
      if session.phase = .paused then
        { session with contexts := session.contexts.mapLive (·.resume now), phase := .running }
      else session := by
  unfold Session.after
  simp only [Session.perform, Session.resume]
  cases session.phase <;> rfl

/-- The contexts of a run that ends are settled, and then folded if the configuration says so. -/
theorem after_stop (session : Session α) (now : α) :
    session.after (.stop now) =
      if session.phase.isActive then
        { session with
          contexts :=
            if session.config.mergeFibers then
              (session.contexts.handles.foldl (session.unwind now)
                session.contexts).resetLast.foldFibers
            else
              (session.contexts.handles.foldl (session.unwind now) session.contexts).resetLast
          phase := .finished }
      else session := by
  rw [Session.after, Session.perform, Session.stop]
  cases session.phase.isActive <;> rfl

/-- An event changes contexts only. -/
theorem handle_eq {session : Session α} (hactive : session.phase.isActive = true)
    (event : Event α) :
    session.handle event = { session with contexts := (session.handle event).contexts } := by
  unfold Session.handle
  rw [if_pos hactive]

theorem contexts_handle {session : Session α} (hactive : session.phase.isActive = true)
    (event : Event α) :
    (session.handle event).contexts =
      (session.contexts.activate ⟨event.thread, event.fiber⟩ event.sample session.filter
        session.config.initialStackCapacity).1.modify
      (session.contexts.activate ⟨event.thread, event.fiber⟩ event.sample session.filter
        session.config.initialStackCapacity).2 (session.record event) := by
  rw [Session.handle, if_pos hactive]

/-! ## After the run -/

theorem after_mergeFibers (session : Session α) :
    session.after .mergeFibers =
      if session.phase.isActive then session
      else { session with contexts := session.contexts.foldFibers } := by
  rw [Session.after, Session.perform, Session.mergeFibers]
  cases session.phase.isActive <;> rfl

/-! ## What every operation keeps -/

/-- What holds of the contexts of a session, and still does whatever an operation does to them. -/
structure Outlasts (session : Session α) (law : ContextTable α → Prop) : Prop where
  here : law session.contexts
  paused : ∀ now, law (session.contexts.mapLive (·.pause now))
  resumed : ∀ now, law (session.contexts.mapLive (·.resume now))
  unwound : ∀ now,
    law (session.contexts.handles.foldl (session.unwind now) session.contexts).resetLast
  unwoundFolded : ∀ now, law (session.contexts.handles.foldl (session.unwind now)
    session.contexts).resetLast.foldFibers
  recorded : ∀ event, law (session.handle event).contexts
  folded : session.phase.isActive = false → law session.contexts.foldFibers
  released : law session.contexts.releaseAll

theorem Outlasts.after {session : Session α} {law : ContextTable α → Prop}
    (h : Outlasts session law) (operation : Operation α) :
    law (session.after operation).contexts := by
  cases operation with
  | setMeasureMode mode =>
      rw [after_setMeasureMode]
      split <;> exact h.here
  | excludeMethod method =>
      rw [after_excludeMethod]
      split <;> exact h.here
  | setThreadFilter filter =>
      rw [after_setThreadFilter]
      split <;> exact h.here
  | start now =>
      rw [after_start]
      split <;> exact h.here
  | pause now =>
      rw [after_pause]
      split
      · exact h.paused now
      · exact h.here
  | resume now =>
      rw [after_resume]
      split
      · exact h.resumed now
      · exact h.here
  | stop now =>
      rw [after_stop]
      split
      · show law (if session.config.mergeFibers then _ else _)
        split
        · exact h.unwoundFolded now
        · exact h.unwound now
      · exact h.here
  | event event => exact h.recorded event
  | mergeFibers =>
      rw [after_mergeFibers]
      split
      · exact h.here
      · next hinactive => exact h.folded (Bool.eq_false_iff.mpr hinactive)
  | teardown => exact h.released

/-- A filter is replaced only where the contexts stay as they are. -/
theorem filter_after (session : Session α) (operation : Operation α) :
    (session.after operation).filter = session.filter ∨
      session.phase = .idle ∧ (session.after operation).contexts = session.contexts := by
  cases operation with
  | setThreadFilter filter =>
      rw [after_setThreadFilter]
      split
      · next hidle => exact Or.inr ⟨hidle, rfl⟩
      · exact Or.inl rfl
  | setMeasureMode mode =>
      rw [after_setMeasureMode]
      split <;> exact Or.inl rfl
  | excludeMethod method =>
      rw [after_excludeMethod]
      split <;> exact Or.inl rfl
  | start now =>
      rw [after_start]
      split <;> exact Or.inl rfl
  | pause now =>
      rw [after_pause]
      split <;> exact Or.inl rfl
  | resume now =>
      rw [after_resume]
      split <;> exact Or.inl rfl
  | stop now =>
      rw [after_stop]
      split <;> exact Or.inl rfl
  | event event =>
      show (session.handle event).filter = _ ∨ _
      unfold Session.handle
      split <;> exact Or.inl rfl
  | mergeFibers =>
      rw [after_mergeFibers]
      split <;> exact Or.inl rfl
  | teardown => exact Or.inl rfl

end CallLedger.Session
