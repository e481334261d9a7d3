import CallLedger.Proofs.Handles

/-!
# Runs, moment by moment

Between the start and the end of a run there are events, pauses and resumptions. No
run begins with contexts from before (`Reachable.started`), so a run is settled by
what the session was set up with and by its moments.
-/

namespace CallLedger

/-- The context that an event is raised on. -/
def Event.key {α : Type} (event : Event α) : ContextKey := ⟨event.thread, event.fiber⟩

/-- What may happen between the start and the end of a run. -/
inductive Moment (α : Type) where
  | event (event : Event α)
  | pause (now : α)
  | resume (now : α)

namespace Moment

variable {α : Type}

def sample : Moment α → α
  | .event raised => raised.sample
  | .pause now | .resume now => now

def operation : Moment α → Operation α
  | .event raised => .event raised
  | .pause now => .pause now
  | .resume now => .resume now

end Moment

namespace Session

variable {α : Type} [Amount α] {session : Session α}

/-- A run from its start to its end. -/
def recorded (session : Session α) (start : α) (moments : List (Moment α)) (stop : α) :
    Session α :=
  session.run (.start start :: (moments.map Moment.operation ++ [.stop stop]))

/-- A run ends after its last moment. -/
theorem recorded_eq (session : Session α) (start : α) (moments : List (Moment α)) (stop : α) :
    session.recorded start moments stop =
      ((session.after (.start start)).run (moments.map Moment.operation)).after (.stop stop) := by
  rw [recorded, Session.run, List.foldl_cons, List.foldl_append]
  rfl

theorem contexts_stop (hactive : session.phase.isActive = true)
    (hfibers : session.config.mergeFibers = false) (now : α) :
    (session.after (.stop now)).contexts =
      (session.contexts.handles.foldl (session.unwind now) session.contexts).resetLast := by
  rw [after_stop, if_pos hactive, hfibers]
  rfl

/-- No run begins with contexts from before. -/
theorem Reachable.started {dumps : Phase → Prop} (h : Reachable dumps session)
    (hidle : session.phase = .idle) (start : α) :
    session.after (.start start) = { session with phase := .running, contexts := .empty } := by
  obtain ⟨_, hlawful⟩ := h.lawful Context.law_filed (survives_filed dumps)
  rw [after_start, if_pos hidle, ← hlawful.unused hidle]

end Session

end CallLedger
